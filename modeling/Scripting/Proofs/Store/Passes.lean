import Mathlib.Tactic.Common
import Scripting.Proofs.Store.Registry

/-! One pass of the collector, as decided by how things stand when it starts: what it frees, how far
it looks, and which slots the next objects get. -/
namespace Scripting

/-- The first elements, as many as a limit allows. -/
def upTo {α : Type} : Option Nat → List α → List α
  | none, l => l
  | some n, l => l.take n

/-! ### Occupied slots -/

namespace Table

variable {t : Table} {i j : Nat} {o : ObjectId} {l : List (Option ObjectId)}

/-- The occupied slots with their objects, where the first slot is the `i`-th. -/
def entriesFrom (i : Nat) (l : List (Option ObjectId)) : List (Nat × ObjectId) :=
  (l.zipIdx i).filterMap fun x => x.1.map fun o => (x.2, o)

/-- The registered objects with their slots, in the order of the slots. -/
def entries (t : Table) : List (Nat × ObjectId) := entriesFrom 0 t.slots.toList

@[simp] theorem entriesFrom_none : entriesFrom i (none :: l) = entriesFrom (i + 1) l := rfl

@[simp] theorem entriesFrom_some :
    entriesFrom i (some o :: l) = (i, o) :: entriesFrom (i + 1) l := rfl

theorem mem_entriesFrom : (j, o) ∈ entriesFrom i l ↔ i ≤ j ∧ l[j - i]? = some (some o) := by
  simp only [entriesFrom, List.mem_filterMap, Option.map_eq_some_iff, Prod.mk.injEq]
  constructor
  · rintro ⟨⟨_, _⟩, hx, p, rfl, rfl, rfl⟩
    exact List.mk_mem_zipIdx_iff_le_and_getElem?_sub.mp hx
  · intro h
    exact ⟨(some o, j), List.mk_mem_zipIdx_iff_le_and_getElem?_sub.mpr h, o, rfl, rfl, rfl⟩

theorem mem_entries : (i, o) ∈ t.entries ↔ t.Holds i o := by
  simp [entries, mem_entriesFrom, Holds]

theorem pairwise_entries : t.entries.Pairwise (·.1 < ·.1) := by
  have hfrom : ∀ (l : List (Option ObjectId)) (i : Nat),
      (entriesFrom i l).Pairwise (·.1 < ·.1) := by
    intro l
    induction l with
    | nil => exact fun i => .nil
    | cons entry l ih =>
      intro i
      cases entry with
      | none => exact ih (i + 1)
      | some o => exact .cons (fun x hx => (mem_entriesFrom.mp hx).1) (ih (i + 1))
  exact hfrom _ 0

end Table

open Table

/-! ### What a scan chooses, and how far it goes -/

namespace Scan

variable {isFree : ObjectId → Bool} {limit : Option Nat} {l : List (Option ObjectId)} {i n : Nat}
  {k : Scan} {o : ObjectId} {x : Nat × ObjectId}

/-- A scan chooses what is free, in order, until it has reached its limit. -/
theorem chosen_run_eq :
    (Scan.run isFree limit l i k).chosen.toList = k.chosen.toList ++
      upTo (limit.map (· - k.chosen.size)) ((entriesFrom i l).filter fun x => isFree x.2) := by
  induction l generalizing i k with
  | nil => cases limit <;> simp [Scan.run, entriesFrom, upTo]
  | cons entry l ih =>
    cases hlimit : limit.any (· ≤ k.chosen.size) with
    | true =>
      rw [run_of_limit hlimit]
      cases limit with
      | none => cases hlimit
      | some n =>
        have hn : n - k.chosen.size = 0 := Nat.sub_eq_zero_of_le (by simpa using hlimit)
        simp [upTo, hn]
    | false =>
      cases entry with
      | none => rw [run_none hlimit, ih, entriesFrom_none]
      | some o =>
        rw [run_some hlimit, ih, entriesFrom_some]
        cases hfree : isFree o with
        | false => simp [hfree]
        | true =>
          cases limit with
          | none => simp [hfree, upTo]
          | some n =>
            have hn : n - k.chosen.size = n - (k.chosen.size + 1) + 1 := by
              have : k.chosen.size < n := by simpa using hlimit
              omega
            simp [hfree, upTo, hn]

/-- A scan that chooses as many as its limit looks at nothing after the last one. -/
theorem scanned_run_of_limit (hlimit : limit = some (k.chosen.size + n + 1))
    (hx : ((entriesFrom i l).filter fun x => isFree x.2)[n]? = some x) :
    (Scan.run isFree limit l i k).scanned =
      k.scanned + (l.take (x.1 + 1 - i)).countP (·.isSome) := by
  induction l generalizing i k n with
  | nil => simp [entriesFrom] at hx
  | cons entry l ih =>
    have hgoes : limit.any (· ≤ k.chosen.size) = false := by
      rw [hlimit, Option.any_some, decide_eq_false_iff_not]
      omega
    have hlater : ∀ {m : Nat}, ((entriesFrom (i + 1) l).filter fun x => isFree x.2)[m]? = some x →
        (entry :: l).take (x.1 + 1 - i) = entry :: l.take (x.1 + 1 - (i + 1)) := by
      intro m hm
      have hle := (mem_entriesFrom.mp (List.mem_filter.mp (List.mem_of_getElem? hm)).1).1
      rw [show x.1 + 1 - i = x.1 + 1 - (i + 1) + 1 by omega, List.take_succ_cons]
    cases entry with
    | none =>
      rw [entriesFrom_none] at hx
      rw [run_none hgoes, ih hlimit hx, hlater hx]
      simp
    | some o =>
      rw [run_some hgoes]
      rw [entriesFrom_some] at hx
      cases hfree : isFree o with
      | false =>
        simp only [List.filter_cons, hfree, Bool.false_eq_true, if_false] at hx ⊢
        rw [ih (k := ⟨k.scanned + 1, k.chosen⟩) hlimit hx, hlater hx, List.countP_cons_of_pos rfl]
        dsimp only
        omega
      | true =>
        simp only [List.filter_cons, hfree, if_true] at hx ⊢
        cases n with
        | zero =>
          cases hx
          rw [run_of_limit (by simp [hlimit])]
          simp
        | succ n =>
          rw [List.getElem?_cons_succ] at hx
          have hmore : limit = some ((k.chosen.push (i, o)).size + n + 1) := by
            rw [hlimit, Array.size_push]
            congr 1
            omega
          rw [ih (k := ⟨k.scanned + 1, k.chosen.push (i, o)⟩) hmore hx, hlater hx,
            List.countP_cons_of_pos rfl]
          dsimp only
          omega

/-- A scan that stays below its limit looks at every slot. -/
theorem scanned_run_of_lt (hlimit : ∀ m, limit = some m →
      k.chosen.size + ((entriesFrom i l).filter fun x => isFree x.2).length < m) :
    (Scan.run isFree limit l i k).scanned = k.scanned + l.countP (·.isSome) := by
  induction l generalizing i k with
  | nil => rfl
  | cons entry l ih =>
    have hgoes : limit.any (· ≤ k.chosen.size) = false := by
      cases limit with
      | none => rfl
      | some m =>
        have := hlimit m rfl
        rw [Option.any_some, decide_eq_false_iff_not]
        omega
    cases entry with
    | none =>
      rw [run_none hgoes, ih hlimit]
      simp
    | some o =>
      rw [run_some hgoes, ih, List.countP_cons_of_pos rfl]
      · simp only
        omega
      · intro m hm
        have := hlimit m hm
        rw [entriesFrom_some, List.filter_cons] at this
        cases hfree : isFree o with
        | false => simpa [hfree] using this
        | true =>
          simp only [hfree, if_true, List.length_cons, Array.size_push] at this ⊢
          omega

end Scan

/-! ### Idle objects -/

namespace Store

variable {s : Store} {roots : List ObjectId} {o : ObjectId}

instance : Decidable (s.Unheld roots o) :=
  decidable_of_iff (o ∉ roots ∧ o ∉ (s.reap roots).contained) unheld_iff.symm

/-- No variable is bound to the object, and nothing holds it but a table. -/
def Idle (s : Store) (roots : List ObjectId) (o : ObjectId) : Prop :=
  s.bindings o = 0 ∧ s.Unheld roots o

instance : Decidable (s.Idle roots o) := inferInstanceAs (Decidable (_ ∧ _))

/-- What is in a slot is not gone. -/
theorem not_gone_of_slot? {i : Nat} (h : s.slot? o = some i) : ¬ s.Gone roots o := by
  rintro ⟨hslot, -, -⟩
  rw [h] at hslot
  cases hslot

/-- What a pass takes for free is idle. -/
theorem idle_iff {i : Nat} (h : s.slot? o = some i) :
    s.Idle roots o ↔
      ((s.reap roots).bindings o = 0 && !((s.reap roots).held roots).contains o) = true := by
  have hsame : (s.reap roots).bindings o = s.bindings o := by
    simp only [bindings, get?_reap_of_not_gone (not_gone_of_slot? h)]
  rw [Idle, unheld_iff, ← not_or, ← contains_held, hsame]
  simp

/-- What is inside an object in a slot is not idle. -/
theorem not_idle_of_mem {c : ObjectId} {i : Nat} (hc : s.slot? c = some i)
    (ho : o ∈ (s.value c).elements) : ¬ s.Idle roots o := fun hidle =>
  not_gone_of_slot? hc (hidle.2.2 c (has_of_slot? hc) ho)

end Store

/-! ### Passes -/

namespace Heap

variable {h : Heap} {roots : List ObjectId} {limit : Option Nat} {i : Nat} {o : ObjectId}

/-- The idle objects of a heap with their slots, in the order of the slots. -/
def idle (h : Heap) (roots : List ObjectId) : List (Nat × ObjectId) :=
  h.table.entries.filter fun x => h.store.Idle roots x.2

/-- The objects that are due in a pass: the first idle ones. -/
def due (h : Heap) (roots : List ObjectId) (limit : Option Nat) : List (Nat × ObjectId) :=
  upTo limit (h.idle roots)

/-- Makes an object for each value, one after the other. -/
def allocAll (h : Heap) : List Value → List ObjectId × Heap
  | [] => ([], h)
  | v :: vs =>
    let (o, h) := h.alloc v
    let (os, h) := h.allocAll vs
    (o :: os, h)

theorem Filed.filter_eq (hf : h.Filed) :
    (entriesFrom 0 h.table.slots.toList).filter (fun x => h.isFree roots x.2) = h.idle roots := by
  refine List.filter_congr fun x hx => ?_
  rw [Bool.eq_iff_iff, decide_eq_true_iff, Store.idle_iff (hf x.1 x.2 (mem_entries.mp hx)), isFree]

theorem Filed.chosen_eq (hf : h.Filed) :
    (Scan.run (h.isFree roots) limit h.table.slots.toList 0 {}).chosen.toList =
      h.due roots limit := by
  rw [Scan.chosen_run_eq, hf.filter_eq]
  cases limit <;> simp [due, upTo]

theorem mem_idle : (i, o) ∈ h.idle roots ↔ h.table.Holds i o ∧ h.store.Idle roots o := by
  rw [idle, List.mem_filter, mem_entries, decide_eq_true_iff]

theorem mem_idle_of_due (hin : (i, o) ∈ h.due roots limit) : (i, o) ∈ h.idle roots := by
  cases limit with
  | none => exact hin
  | some n => exact List.mem_of_mem_take hin

theorem pairwise_idle : (h.idle roots).Pairwise (·.1 < ·.1) := pairwise_entries.filter _

theorem sweep_of_paused (hp : h.table.isPaused = true) : h.sweep roots limit = ({}, h) := by
  simp [sweep, hp]

theorem vacant_vacateAll {xs : List (Nat × ObjectId)} :
    (h.vacateAll xs).table.vacant = (xs.map (·.1)).reverse ++ h.table.vacant := by
  induction xs generalizing h with
  | nil => rfl
  | cons x xs ih =>
    rw [vacateAll, List.foldl_cons, ← vacateAll, ih]
    simp [vacate, Table.vacate]

section

variable (hf : h.Filed) (hp : h.table.isPaused = false)

include hf hp

theorem Filed.sweep_eq : (h.sweep roots limit).2 =
    let swept := (Heap.mk (h.store.reap roots) h.table).vacateAll (h.due roots limit)
    { swept with store := swept.store.reap roots } := by
  rw [hf.sweep_eq_chosen hp]
  dsimp only
  rw [hf.chosen_eq]

theorem Filed.holds_sweep : (h.sweep roots limit).2.table.Holds i o ↔
    h.table.Holds i o ∧ (i, o) ∉ h.due roots limit := by
  simp only [hf.sweep_eq hp, Holds, slots_vacateAll]
  split
  · next hin =>
    obtain ⟨⟨j, p⟩, hx, rfl⟩ := List.mem_map.mp hin
    refine iff_of_false ?_ ?_
    · cases h.table.slots[j]? <;> simp
    · rintro ⟨ho, hnot⟩
      rw [Holds.unique ho (mem_idle.mp (mem_idle_of_due hx)).1] at hnot
      exact hnot hx
  · next hnot =>
    exact ⟨fun ho => ⟨ho, fun hin => hnot (List.mem_map.mpr ⟨_, hin, rfl⟩)⟩, And.left⟩

theorem Filed.not_has_sweep (hin : (i, o) ∈ h.due roots limit) :
    ¬ (h.sweep roots limit).2.store.Has o := by
  have hgone := gone_vacateAll (h := h) (List.mem_map.mpr ⟨_, hin, rfl⟩)
    (mem_idle.mp (mem_idle_of_due hin)).2.2
  rw [hf.sweep_eq hp]
  simp [Store.Has, Store.get?_reap_of_gone hgone]

/-- What stays registered stays as it is. -/
theorem Filed.get?_sweep (ho : (h.sweep roots limit).2.table.Holds i o) :
    (h.sweep roots limit).2.store.get? o = h.store.get? o := by
  obtain ⟨hold, hnot⟩ := (hf.holds_sweep hp).mp ho
  have hslot := hf i o hold
  have hother : o ∉ (h.due roots limit).map (·.2) := by
    intro hin
    obtain ⟨⟨j, p⟩, hx, rfl⟩ := List.mem_map.mp hin
    have hj := hf j p (mem_idle.mp (mem_idle_of_due hx)).1
    rw [Option.some.inj (hslot.symm.trans hj)] at hnot
    exact hnot hx
  have hvacated : ((Heap.mk (h.store.reap roots) h.table).vacateAll (h.due roots limit)).store.get?
      o = h.store.get? o := by
    rw [get?_vacateAll, if_neg hother]
    exact Store.get?_reap_of_not_gone (Store.not_gone_of_slot? hslot)
  rw [hf.sweep_eq hp]
  refine (Store.get?_reap_of_not_gone (Store.not_gone_of_slot? (i := i) ?_)).trans hvacated
  rw [Store.slot?, hvacated]
  exact hslot

end

/-! ### Slots of the next objects -/

theorem slot?_allocAll {vs : List Value} {q : ObjectId} (hq : q < h.store.next) :
    (h.allocAll vs).2.store.slot? q = h.store.slot? q := by
  induction vs generalizing h with
  | nil => rfl
  | cons v vs ih =>
    have hnext : (h.alloc v).2.store.next = h.store.next + 1 := Store.next_push
    have hrest := ih (h := (h.alloc v).2) (hnext ▸ Nat.lt_succ_of_lt hq)
    exact hrest.trans (Store.slot?_push.trans (if_neg (Nat.ne_of_lt hq)))

/-- New objects get the vacant slots, the last one first. -/
theorem slots_allocAll {is rest : List Nat} {vs : List Value}
    (hvacant : h.table.vacant = is ++ rest) (hvs : vs.length ≤ is.length) :
    (h.allocAll vs).1.map (h.allocAll vs).2.store.slot? = (is.take vs.length).map some := by
  induction vs generalizing h is with
  | nil => simp [allocAll]
  | cons v vs ih =>
    cases is with
    | nil => simp at hvs
    | cons i is =>
      have hinsert : (h.table.insert h.store.next).1 = i ∧
          (h.table.insert h.store.next).2.vacant = is ++ rest := by
        simp only [Table.insert, hvacant, List.cons_append, and_self]
      have hnext : (h.alloc v).2.store.next = h.store.next + 1 := Store.next_push
      have hslot : (h.alloc v).2.store.slot? h.store.next = some i :=
        Store.slot?_push.trans ((if_pos rfl).trans (congrArg some hinsert.1))
      have hkept : ((h.alloc v).2.allocAll vs).2.store.slot? h.store.next =
          (h.alloc v).2.store.slot? h.store.next := slot?_allocAll (hnext ▸ Nat.lt_succ_self _)
      have hrest := ih (h := (h.alloc v).2) hinsert.2 (by simpa using hvs)
      simp only [allocAll, List.map_cons, List.length_cons, List.take_succ_cons, hrest]
      exact congrArg (· :: _) (hkept.trans hslot)

/-! ### One pass -/

/-- What a pass over a heap tells and what it leaves, in terms of the heap as it was. -/
structure Pass (h : Heap) (roots : List ObjectId) (limit : Option Nat) (stats : SweepStats)
    (k : Heap) : Prop where
  /-- Idle are the registered objects that no variable is bound to and nothing else holds. -/
  idle : ∀ i o, (i, o) ∈ h.idle roots ↔
    h.table.Holds i o ∧ h.store.bindings o = 0 ∧ h.store.Unheld roots o
  ascending : (h.idle roots).Pairwise (·.1 < ·.1)
  /-- The first idle objects, and no others, are taken out of their slots and gone. -/
  freed : stats.freed = (h.due roots limit).length
  holds : ∀ i o, k.table.Holds i o ↔ h.table.Holds i o ∧ (i, o) ∉ h.due roots limit
  gone : ∀ x ∈ h.due roots limit, ¬ k.store.Has x.2
  kept : ∀ i o, k.table.Holds i o → k.store.get? o = h.store.get? o
  /-- The pass looks at no slot after that of the last object it may free. -/
  scanned_zero : limit = some 0 → stats.scanned = 0
  scanned_last : ∀ n x, limit = some (n + 1) → (h.due roots limit)[n]? = some x →
    stats.scanned = (h.table.slots.toList.take (x.1 + 1)).countP (·.isSome)
  scanned_all : (∀ n, limit = some n → (h.due roots limit).length < n) →
    stats.scanned = h.table.slots.toList.countP (·.isSome)
  /-- What is inside an object that is freed stays for a later pass. -/
  inside : ∀ x ∈ h.due roots limit, ∀ o ∈ (h.store.value x.2).elements,
    o ∉ (h.due roots limit).map (·.2) ∧ ∀ i, h.table.Holds i o → k.table.Holds i o
  vacant : k.table.vacant = ((h.due roots limit).map (·.1)).reverse ++ h.table.vacant
  reused : ∀ vs : List Value, vs.length ≤ (h.due roots limit).length →
    (k.allocAll vs).1.map (k.allocAll vs).2.store.slot? =
      (((h.due roots limit).map (·.1)).reverse.take vs.length).map some

theorem Filed.scanned_sweep (hf : h.Filed) (hp : h.table.isPaused = false) :
    (h.sweep roots limit).1.scanned =
      (Scan.run (h.isFree roots) limit h.table.slots.toList 0 {}).scanned := by
  rw [hf.sweep_eq_chosen hp]

theorem Filed.pass (hf : h.Filed) (hp : h.table.isPaused = false) :
    h.Pass roots limit (h.sweep roots limit).1 (h.sweep roots limit).2 where
  idle := fun i o => mem_idle
  ascending := pairwise_idle
  freed := by rw [hf.sweep_eq_chosen hp, ← hf.chosen_eq, Array.length_toList]
  holds := fun i o => hf.holds_sweep hp
  gone := fun x hx => hf.not_has_sweep hp hx
  kept := fun i o => hf.get?_sweep hp
  scanned_zero := by
    rintro rfl
    rw [hf.scanned_sweep hp, Scan.run_of_limit (by simp)]
  scanned_last := by
    rintro n x rfl hx
    have hidle : (h.idle roots)[n]? = some x := by
      rw [due, upTo, List.getElem?_take] at hx
      simpa using hx
    rw [← hf.filter_eq] at hidle
    rw [hf.scanned_sweep hp, Scan.scanned_run_of_limit (by simp) hidle]
    simp
  scanned_all := by
    intro hlimit
    rw [hf.scanned_sweep hp, Scan.scanned_run_of_lt]
    · simp
    · intro m hm
      have := hlimit m hm
      subst hm
      rw [due, upTo, List.length_take] at this
      rw [hf.filter_eq]
      simp only [List.size_toArray, List.length_nil]
      omega
  inside := by
    rintro ⟨j, c⟩ hx o ho
    have hslot := hf j c (mem_idle.mp (mem_idle_of_due hx)).1
    have hnot : ∀ i, (i, o) ∉ h.due roots limit := fun i hin =>
      Store.not_idle_of_mem hslot ho (mem_idle.mp (mem_idle_of_due hin)).2
    refine ⟨fun hin => ?_, fun i hi => (hf.holds_sweep hp).mpr ⟨hi, hnot i⟩⟩
    obtain ⟨⟨i, _⟩, hdue, rfl⟩ := List.mem_map.mp hin
    exact hnot i hdue
  vacant := by
    rw [hf.sweep_eq hp]
    exact vacant_vacateAll
  reused := by
    intro vs hvs
    rw [hf.sweep_eq hp]
    exact slots_allocAll vacant_vacateAll (by simpa using hvs)

end Heap

/-- Whatever was asked of the heaps before, a pass over one of them frees the first objects in the
order of slots that are idle when it starts, as many as its limit allows, and nothing else. Their
slots become vacant in that order, so that the next objects get them in the opposite order. While
sweeping is paused a pass does nothing. -/
theorem Pool.sweep_decided_at_start {ι : Type} [DecidableEq ι]
    (actions : List (Pool.Action ι)) (w : ι) (roots : List ObjectId) (limit : Option Nat) :
    let h := (Pool.run ({} : Pool ι) actions).heap w
    if h.table.isPaused then h.sweep roots limit = ({}, h)
    else h.Pass roots limit (h.sweep roots limit).1 (h.sweep roots limit).2 := by
  intro h
  have htidy := Pool.tidy_run (p := ({} : Pool ι)) Tidy.empty actions
  have hf : h.Filed := htidy.slot w
  split
  · next hp => exact Heap.sweep_of_paused hp
  · next hp => exact hf.pass (by simpa using hp)

end Scripting
