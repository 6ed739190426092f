import Mathlib.Tactic.Common
import Scripting.Collector
import Scripting.Proofs.Store.Reaping

/-! What one pass of the collector does to each object. The pass looks at each slot as things stand
when its turn comes; it comes to the same as choosing what to free before anything is freed, because
it holds what it takes until it ends. -/
namespace Scripting

/-! ### Choosing beforehand -/

/-- A choice on its way: how many occupied slots it has seen, and what is to be freed. -/
structure Scan where
  scanned : Nat := 0
  chosen : Array (Nat × ObjectId) := #[]
  deriving Inhabited

/-- Looks at the slots in order, from the `i`-th on, and stops once the limit is reached. -/
def Scan.run (isFree : ObjectId → Bool) (limit : Option Nat) :
    List (Option ObjectId) → Nat → Scan → Scan
  | [], _, scan => scan
  | entry :: rest, i, scan =>
    if limit.any (· ≤ scan.chosen.size) then scan
    else
      match entry with
      | none => Scan.run isFree limit rest (i + 1) scan
      | some o =>
        Scan.run isFree limit rest (i + 1)
          { scanned := scan.scanned + 1
            chosen := if isFree o then scan.chosen.push (i, o) else scan.chosen }

namespace Scan

variable {isFree : ObjectId → Bool} {limit : Option Nat} {l : List (Option ObjectId)} {i : Nat}
  {k : Scan} {o : ObjectId}

/-- A scan that has reached its limit is over. -/
theorem run_of_limit (h : limit.any (· ≤ k.chosen.size) = true) :
    Scan.run isFree limit l i k = k := by
  cases l with
  | nil => rfl
  | cons entry l => simp [Scan.run, h]

theorem run_none (h : limit.any (· ≤ k.chosen.size) = false) :
    Scan.run isFree limit (none :: l) i k = Scan.run isFree limit l (i + 1) k := by
  simp [Scan.run, h]

theorem run_some (h : limit.any (· ≤ k.chosen.size) = false) :
    Scan.run isFree limit (some o :: l) i k = Scan.run isFree limit l (i + 1)
      ⟨k.scanned + 1, if isFree o then k.chosen.push (i, o) else k.chosen⟩ := by
  simp [Scan.run, h]

end Scan

namespace Store

variable {s t : Store} {roots : List ObjectId} {o : ObjectId}

theorem handles_eq_count : s.handles roots o = (roots ++ s.contained).count o := by
  have hfold : ∀ (l : List (Option Object)) (n : Nat),
      l.foldl (fun n x => n + x.elim 0 (·.value.elements.count o)) n =
        n + (l.flatMap fun x => (x.map (·.value.elements.toList)).getD []).count o := by
    intro l
    induction l with
    | nil => simp
    | cons x l ih =>
      intro n
      rw [List.foldl_cons, ih, List.flatMap_cons, List.count_append, ← Nat.add_assoc]
      cases x <;> simp
  rw [handles, ← Array.foldl_toList, hfold, List.count_append, contained]

theorem handles_eq_zero_iff : s.handles roots o = 0 ↔ o ∉ roots ∧ o ∉ s.contained := by
  rw [handles_eq_count, List.count_eq_zero, List.mem_append, not_or]

/-- Nothing is gone while there is a handle left. -/
theorem letGo_of_mem (h : o ∈ roots) : s.letGo roots o = s :=
  if_neg fun hnone => (handles_eq_zero_iff.mp hnone.2).1 h

/-- No root holds the object, and no other object but such as are gone. -/
def Unheld (s : Store) (roots : List ObjectId) (o : ObjectId) : Prop :=
  o ∉ roots ∧ ∀ c, s.Has c → o ∈ (s.value c).elements → s.Gone roots c

theorem unheld_iff : s.Unheld roots o ↔ o ∉ roots ∧ o ∉ (s.reap roots).contained := by
  refine and_congr_right fun _ => ?_
  rw [mem_contained_iff]
  constructor
  · rintro h ⟨c, hc, hin⟩
    have hgone := h c (trims_reap.has hc).1 (by rwa [← trims_reap.value hc])
    simp [Has, get?_reap_of_gone hgone] at hc
  · intro h c hc hin
    by_contra hn
    have hhas : (s.reap roots).Has c := by rwa [Has, get?_reap_of_not_gone hn]
    exact h ⟨c, hhas, by rwa [trims_reap.value hhas]⟩

theorem Unheld.not_reach (h : s.Unheld roots o) : ¬ s.Reach roots o := by
  intro hreach
  cases hreach with
  | root hin => exact h.1 hin
  | inside hc hin => exact (h.2 _ (has_of_mem_elements hin) hin).not_reach hc

theorem Has.reap_mem {c : ObjectId} (hc : (s.reap roots).Has c)
    (hin : o ∈ ((s.reap roots).value c).elements) (ho : s.Has o) : (s.reap roots).Has o := by
  rw [trims_reap.value hc] at hin
  have hkept : ¬ s.Gone roots o := by
    rintro ⟨-, -, hinside⟩
    have := get?_reap_of_gone (hinside c (trims_reap.has hc).1 hin)
    simp [Has, this] at hc
  rwa [Has, get?_reap_of_not_gone hkept]

/-- What is reached stays in reach when no object on the way changes. -/
theorem Reach.congr (hvalue : ∀ c, s.Reach roots c → t.value c = s.value c) (h : s.Reach roots o) :
    t.Reach roots o := by
  induction h with
  | root h => exact .root h
  | inside hc h ih => exact .inside ih (by rwa [hvalue _ hc])

end Store

namespace Heap

variable {h : Heap} {roots : List ObjectId} {limit : Option Nat} {o : ObjectId} {i : Nat}
  {xs : List (Nat × ObjectId)}

/-- Takes several objects out of their slots. -/
def vacateAll (h : Heap) (xs : List (Nat × ObjectId)) : Heap :=
  xs.foldl (fun h x => h.vacate x.1 x.2) h

theorem get?_vacateAll :
    (h.vacateAll xs).store.get? o =
      if o ∈ xs.map (·.2) then (h.store.get? o).map ({ · with slot := none })
        else h.store.get? o := by
  induction xs generalizing h with
  | nil => rfl
  | cons x xs ih =>
    have hx : (h.vacate x.1 x.2).store.get? o =
        if o = x.2 then (h.store.get? o).map ({ · with slot := none }) else h.store.get? o :=
      Store.get?_modify
    rw [vacateAll, List.foldl_cons, ← vacateAll, ih, hx]
    by_cases hin : o ∈ xs.map (·.2) <;> by_cases heq : o = x.2 <;>
      simp_all [Option.map_map, Function.comp_def]

theorem slots_vacateAll :
    (h.vacateAll xs).table.slots[i]? =
      if i ∈ xs.map (·.1) then h.table.slots[i]?.map (fun _ => none) else h.table.slots[i]? := by
  induction xs generalizing h with
  | nil => rfl
  | cons x xs ih =>
    have hx : (h.vacate x.1 x.2).table.slots[i]? =
        if i = x.1 then h.table.slots[i]?.map (fun _ => none) else h.table.slots[i]? := by
      simp only [vacate, Table.vacate, Array.getElem?_setIfInBounds]
      split
      · next heq =>
        subst heq
        split
        · next hlt => simp [hlt]
        · next hlt => simp [Array.getElem?_eq_none (Nat.le_of_not_lt hlt)]
      · next hne => simp [Ne.symm hne]
    rw [vacateAll, List.foldl_cons, ← vacateAll, ih, hx]
    by_cases hin : i ∈ xs.map (·.1) <;> by_cases heq : i = x.1 <;>
      simp_all [Option.map_map, Function.comp_def]

theorem has_vacateAll : (h.vacateAll xs).store.Has o ↔ h.store.Has o := by
  simp only [Store.Has, get?_vacateAll]
  split <;> simp

theorem value_vacateAll : (h.vacateAll xs).store.value o = h.store.value o := by
  simp only [Store.value, get?_vacateAll]
  split
  · cases h.store.get? o <;> rfl
  · rfl

theorem bindings_vacateAll : (h.vacateAll xs).store.bindings o = h.store.bindings o := by
  simp only [Store.bindings, get?_vacateAll]
  split
  · cases h.store.get? o <;> rfl
  · rfl

theorem mem_contained_vacateAll :
    o ∈ (h.vacateAll xs).store.contained ↔ o ∈ h.store.contained := by
  simp only [Store.mem_contained_iff, has_vacateAll, value_vacateAll]

theorem vacateAll_concat {x : Nat × ObjectId} :
    h.vacateAll (xs ++ [x]) = (h.vacateAll xs).vacate x.1 x.2 := by
  simp [vacateAll]

/-- Objects know the slots in which they are. -/
def Filed (h : Heap) : Prop := ∀ i o, h.table.slots[i]? = some (some o) → h.store.slot? o = some i

/-- Whether no variable is bound to an object and nothing but the table holds it when a pass
starts. -/
def isFree (h : Heap) (roots : List ObjectId) (o : ObjectId) : Bool :=
  (h.store.reap roots).bindings o = 0 && !((h.store.reap roots).held roots).contains o

end Heap

/-! ### A pass, slot by slot -/

namespace Sweep

variable {h : Heap} {roots : List ObjectId} {limit : Option Nat} {p : Sweep} {i n : Nat}
  {o : ObjectId} {xs : List (Nat × ObjectId)}

/-- A pass that started from the heap has come to the `i`-th slot and has taken these objects. -/
structure Took (h : Heap) (roots : List ObjectId) (i : Nat) (xs : List (Nat × ObjectId))
    (p : Sweep) : Prop where
  heap : p.heap = (Heap.mk (h.store.reap roots) h.table).vacateAll xs
  taken : p.taken = (xs.map (·.2)).reverse
  slots : ∀ x ∈ xs, h.table.slots[x.1]? = some (some x.2)
  free : ∀ x ∈ xs, h.isFree roots x.2 = true
  before : ∀ x ∈ xs, x.1 < i
  ascending : (xs.map (·.1)).Pairwise (· < ·)

namespace Took

theorem start (h : Heap) (roots : List ObjectId) :
    Took h roots 0 [] { heap := { h with store := h.store.reap roots } } := by
  constructor <;> simp [Heap.vacateAll]

theorem later (hp : Took h roots i xs p) {j : Nat} (hj : i ≤ j) (scanned : Nat) :
    Took h roots j xs { p with scanned } :=
  { hp with before := fun x hx => Nat.lt_of_lt_of_le (hp.before x hx) hj }

/-- No slot that is still to come has been vacated. -/
theorem slots_eq (hp : Took h roots i xs p) : p.heap.table.slots[i]? = h.table.slots[i]? := by
  have hnot : i ∉ xs.map (·.1) := by
    intro hin
    obtain ⟨x, hx, rfl⟩ := List.mem_map.mp hin
    exact Nat.lt_irrefl _ (hp.before x hx)
  rw [hp.heap, Heap.slots_vacateAll, if_neg hnot]

/-- What is free when its turn comes was free when the pass started: what was taken since then is
held by the pass, and so is, through it, all that is inside. -/
theorem isFree_iff (hp : Took h roots i xs p) :
    p.isFree roots o = true ↔ h.isFree roots o = true ∧ o ∉ xs.map (·.2) := by
  have hstart : h.isFree roots o = true ↔ (h.store.reap roots).bindings o = 0 ∧
      o ∉ roots ∧ o ∉ (h.store.reap roots).contained := by
    rw [Heap.isFree, Bool.and_eq_true, decide_eq_true_iff, Bool.not_eq_true', ← Bool.not_eq_true,
      Store.contains_held, not_or]
  rw [isFree, Bool.and_eq_true, decide_eq_true_iff, decide_eq_true_iff, Store.handles_eq_zero_iff,
    hstart, hp.heap, hp.taken, Heap.bindings_vacateAll, Heap.mem_contained_vacateAll,
    List.mem_append, List.mem_reverse, not_or]
  tauto

theorem visit_vacant (hp : Took h roots i xs p) (hi : ∀ o, h.table.slots[i]? ≠ some (some o)) :
    p.visit roots i = p := by
  rw [visit, hp.slots_eq]
  split
  · next o ho => exact absurd ho (hi o)
  · rfl

theorem visit_kept (hp : Took h roots i xs p) (hi : h.table.slots[i]? = some (some o))
    (ho : ¬ (h.isFree roots o = true ∧ o ∉ xs.map (·.2))) :
    p.visit roots i = { p with scanned := p.scanned + 1 } := by
  have hheld := mt (hp.later (Nat.le_refl i) (p.scanned + 1)).isFree_iff.mp ho
  simp only [visit, hp.slots_eq, hi]
  exact if_neg hheld

theorem visit_taken (hp : Took h roots i xs p) (hi : h.table.slots[i]? = some (some o))
    (hfree : h.isFree roots o = true) (ho : o ∉ xs.map (·.2)) :
    Took h roots (i + 1) (xs ++ [(i, o)]) (p.visit roots i) ∧
      (p.visit roots i).scanned = p.scanned + 1 := by
  have hnow := (hp.later (Nat.le_refl i) (p.scanned + 1)).isFree_iff.mpr ⟨hfree, ho⟩
  -- the pass has the handle that the table gives up, so that nothing is gone
  have hvisit : p.visit roots i =
      { heap := p.heap.vacate i o, taken := o :: p.taken, scanned := p.scanned + 1 } := by
    simp only [visit, hp.slots_eq, hi]
    rw [if_pos hnow, take, Store.letGo_of_mem (by simp)]
  rw [hvisit]
  refine ⟨⟨?_, ?_, ?_, ?_, ?_, ?_⟩, rfl⟩
  · rw [hp.heap, Heap.vacateAll_concat]
  · simp [hp.taken]
  · exact List.forall_mem_append.mpr ⟨hp.slots, by simpa using hi⟩
  · exact List.forall_mem_append.mpr ⟨hp.free, by simpa using hfree⟩
  · exact List.forall_mem_append.mpr
      ⟨fun x hx => Nat.lt_succ_of_lt (hp.before x hx), by simp⟩
  · rw [List.map_append, List.pairwise_append]
    refine ⟨hp.ascending, by simp, fun a ha b hb => ?_⟩
    obtain ⟨x, hx, rfl⟩ := List.mem_map.mp ha
    cases List.mem_singleton.mp hb
    exact hp.before x hx

/-- However far a pass goes, it takes free objects out of their slots. -/
theorem run (limit : Option Nat) (n : Nat) (hp : Took h roots i xs p) :
    ∃ ys, Took h roots (i + n) ys (Sweep.run roots limit n i p) := by
  induction n generalizing i xs p with
  | zero => exact ⟨xs, hp⟩
  | succ n ih =>
    rw [Sweep.run, show i + (n + 1) = i + 1 + n by omega]
    split
    · exact ⟨xs, hp.later (by omega) p.scanned⟩
    · by_cases hi : ∃ o, h.table.slots[i]? = some (some o)
      · obtain ⟨o, hi⟩ := hi
        by_cases ho : h.isFree roots o = true ∧ o ∉ xs.map (·.2)
        · exact ih (hp.visit_taken hi ho.1 ho.2).1
        · rw [hp.visit_kept hi ho]
          exact ih (hp.later (Nat.le_succ i) _)
      · rw [hp.visit_vacant fun o ho => hi ⟨o, ho⟩]
        exact ih (hp.later (Nat.le_succ i) p.scanned)

/-- Where objects know their slots, the pass takes what would be chosen beforehand. -/
theorem run_eq_scan {k : Scan} (limit : Option Nat) (hf : h.Filed) (hn : i + n = h.table.slots.size)
    (hp : Took h roots i k.chosen.toList p) (hk : p.scanned = k.scanned) :
    let scan := Scan.run (h.isFree roots) limit (h.table.slots.toList.drop i) i k
    Took h roots (i + n) scan.chosen.toList (Sweep.run roots limit n i p) ∧
      (Sweep.run roots limit n i p).scanned = scan.scanned := by
  induction n generalizing i k p with
  | zero =>
    have hend : h.table.slots.toList.drop i = [] := by
      rw [List.drop_eq_nil_iff, Array.length_toList]
      omega
    rw [hend]
    exact ⟨hp, hk⟩
  | succ n ih =>
    have hlt : i < h.table.slots.size := by omega
    have hentry : h.table.slots[i]? = some h.table.slots[i] := Array.getElem?_eq_getElem hlt
    have hdrop : h.table.slots.toList.drop i =
        h.table.slots[i] :: h.table.slots.toList.drop (i + 1) := by
      rw [List.drop_eq_getElem_cons (by simpa using hlt), Array.getElem_toList]
    have hlength : p.taken.length = k.chosen.size := by simp [hp.taken]
    rw [Sweep.run, hdrop, hlength, show i + (n + 1) = i + 1 + n by omega]
    cases hlimit : limit.any (· ≤ k.chosen.size) with
    | true =>
      rw [Scan.run_of_limit hlimit]
      exact ⟨hp.later (by omega) p.scanned, hk⟩
    | false =>
      simp only [Bool.false_eq_true, if_false]
      cases hi : h.table.slots[i] with
      | none =>
        rw [hi] at hentry
        rw [hp.visit_vacant (by simp [hentry]), Scan.run_none hlimit]
        exact ih (by omega) (hp.later (Nat.le_succ i) p.scanned) hk
      | some o =>
        rw [hi] at hentry
        rw [Scan.run_some hlimit]
        -- an object that was taken was in another slot, and an object is in one slot only
        have hnew : o ∉ k.chosen.toList.map (·.2) := by
          intro hin
          obtain ⟨x, hx, rfl⟩ := List.mem_map.mp hin
          have hsame := (hf _ _ hentry).symm.trans (hf _ _ (hp.slots x hx))
          exact Nat.ne_of_gt (hp.before x hx) (Option.some.inj hsame)
        cases hfree : h.isFree roots o with
        | true =>
          obtain ⟨htook, hscanned⟩ := hp.visit_taken hentry hfree hnew
          refine ih (k := ⟨k.scanned + 1, k.chosen.push (i, o)⟩) (by omega) ?_
            (hscanned.trans (congrArg (· + 1) hk))
          simpa using htook
        | false =>
          rw [hp.visit_kept hentry (by simp [hfree])]
          exact ih (k := ⟨k.scanned + 1, k.chosen⟩) (by omega) (hp.later (Nat.le_succ i) _)
            (congrArg (· + 1) hk)

end Took
end Sweep

namespace Heap

variable {h : Heap} {roots : List ObjectId} {limit : Option Nat} {o : ObjectId} {i : Nat}
  {xs : List (Nat × ObjectId)}

theorem unheld_of_isFree (ho : h.isFree roots o = true) : h.store.Unheld roots o := by
  rw [Store.unheld_iff, ← not_or, ← Store.contains_held]
  intro hheld
  simp [isFree, hheld] at ho

/-- A pass frees registered objects that nothing but the table holds. -/
theorem exists_sweep (roots : List ObjectId) (limit : Option Nat) (hp : h.table.isPaused = false) :
    ∃ xs : List (Nat × ObjectId),
      (∀ x ∈ xs, h.table.slots[x.1]? = some (some x.2) ∧ h.store.Unheld roots x.2) ∧
      (xs.map (·.1)).Nodup ∧ (h.sweep roots limit).1.freed = xs.length ∧
      (h.sweep roots limit).2 =
        let swept := (Heap.mk (h.store.reap roots) h.table).vacateAll xs
        { swept with store := swept.store.reap roots } := by
  obtain ⟨xs, htook⟩ := (Sweep.Took.start h roots).run limit h.table.slots.size
  refine ⟨xs, fun x hx => ⟨htook.slots x hx, unheld_of_isFree (htook.free x hx)⟩,
    htook.ascending.imp Nat.ne_of_lt, ?_, ?_⟩
  · simp [sweep, hp, htook.taken]
  · simp [sweep, hp, htook.heap]

/-- A pass that looks at each slot when its turn comes is one that is decided when it starts. -/
theorem Filed.sweep_eq_chosen (hf : h.Filed) (hp : h.table.isPaused = false) :
    h.sweep roots limit =
      let scan := Scan.run (h.isFree roots) limit h.table.slots.toList 0 {}
      let swept := (Heap.mk (h.store.reap roots) h.table).vacateAll scan.chosen.toList
      ({ scanned := scan.scanned, freed := scan.chosen.size },
        { swept with store := swept.store.reap roots }) := by
  obtain ⟨htook, hscanned⟩ := Sweep.Took.run_eq_scan (k := {}) limit hf (Nat.zero_add _)
    (Sweep.Took.start h roots) rfl
  rw [List.drop_zero] at htook hscanned
  simp [sweep, hp, htook.heap, htook.taken, hscanned]

theorem next_vacateAll : (h.vacateAll xs).store.next = h.store.next := by
  induction xs generalizing h with
  | nil => rfl
  | cons x xs ih => exact ih.trans Store.next_modify

theorem next_sweep : (h.sweep roots limit).2.store.next = h.store.next := by
  cases hp : h.table.isPaused with
  | true => simp [sweep, hp]
  | false =>
    obtain ⟨xs, -, -, -, heq⟩ := exists_sweep roots limit hp
    rw [heq]
    exact Store.next_reapUpTo.trans (next_vacateAll.trans Store.next_reapUpTo)

/-- What is taken out of its slot is gone with that. -/
theorem gone_vacateAll (hin : o ∈ xs.map (·.2)) (ho : h.store.Unheld roots o) :
    ((Heap.mk (h.store.reap roots) h.table).vacateAll xs).store.Gone roots o := by
  obtain ⟨hroot, hcontained⟩ := Store.unheld_iff.mp ho
  refine .intro ?_ hroot fun c hc hc' => absurd (Store.mem_contained_iff.mpr ⟨c, ?_, ?_⟩) hcontained
  · rw [Store.slot?, get?_vacateAll, if_pos hin]
    cases (h.store.reap roots).get? o <;> rfl
  · exact has_vacateAll.mp hc
  · rwa [value_vacateAll] at hc'

/-- An object that is still there after a pass is as it was. One that is not was in no table, or
held by nothing but its table. -/
theorem get?_sweep (h : Heap) (roots : List ObjectId) (limit : Option Nat) (o : ObjectId) :
    (h.sweep roots limit).2.store.get? o = h.store.get? o ∨
      (h.sweep roots limit).2.store.get? o = none ∧
        (h.store.slot? o = none ∨ h.store.Unheld roots o) := by
  cases hp : h.table.isPaused with
  | true => exact .inl (by simp [sweep, hp])
  | false =>
    obtain ⟨xs, hxs, -, -, heq⟩ := exists_sweep roots limit hp
    rw [heq]
    by_cases hin : o ∈ xs.map (·.2)
    · obtain ⟨x, hx, rfl⟩ := List.mem_map.mp hin
      have hunheld := (hxs x hx).2
      exact .inr ⟨Store.get?_reap_of_gone (gone_vacateAll hin hunheld), .inr hunheld⟩
    · have hswept : ((Heap.mk (h.store.reap roots) h.table).vacateAll xs).store.get? o =
          (h.store.reap roots).get? o := get?_vacateAll.trans (if_neg hin)
      obtain hsame | ⟨hnone, hgone⟩ := Store.trims_reap (s := h.store) (r := roots) o
      · obtain hlast | ⟨hlast, ⟨hslot, -, -⟩⟩ := Store.trims_reap (r := roots)
          (s := ((Heap.mk (h.store.reap roots) h.table).vacateAll xs).store) o
        · exact .inl (hlast.trans (hswept.trans hsame))
        · refine .inr ⟨hlast, .inl ?_⟩
          rwa [Store.slot?, hswept, hsame] at hslot
      · obtain hlast | ⟨hlast, -⟩ := Store.trims_reap (r := roots)
          (s := ((Heap.mk (h.store.reap roots) h.table).vacateAll xs).store) o
        · exact .inr ⟨hlast.trans (hswept.trans hnone), .inl (by cases hgone; assumption)⟩
        · exact .inr ⟨hlast, .inl (by cases hgone; assumption)⟩

theorem value_sweep (ho : (h.sweep roots limit).2.store.Has o) :
    (h.sweep roots limit).2.store.value o = h.store.value o := by
  obtain hsame | ⟨hnone, -⟩ := get?_sweep h roots limit o
  · simp only [Store.value, hsame]
  · simp [Store.Has, hnone] at ho

/-- A pass leaves alone what can be reached. -/
theorem get?_sweep_of_reach (ho : h.store.Reach roots o) :
    (h.sweep roots limit).2.store.get? o = h.store.get? o := by
  cases hp : h.table.isPaused with
  | true => simp [sweep, hp]
  | false =>
    obtain ⟨xs, hxs, -, -, heq⟩ := exists_sweep roots limit hp
    have hreap : ∀ c, h.store.Reach roots c → (h.store.reap roots).get? c = h.store.get? c :=
      fun c hc => Store.get?_reap_of_not_gone fun hgone => hgone.not_reach hc
    have hin : o ∉ xs.map (·.2) := by
      intro hin
      obtain ⟨x, hx, rfl⟩ := List.mem_map.mp hin
      exact (hxs x hx).2.not_reach ho
    have hreach : ((Heap.mk (h.store.reap roots) h.table).vacateAll xs).store.Reach roots o := by
      refine ho.congr fun c hc => ?_
      rw [value_vacateAll]
      simp only [Store.value, hreap c hc]
    rw [heq, Store.get?_reap_of_not_gone fun hgone => hgone.not_reach hreach,
      get?_vacateAll, if_neg hin]
    exact hreap o ho

/-- What is inside an object that is still there is still there. -/
theorem has_sweep_of_mem {c : ObjectId} (hc : (h.sweep roots limit).2.store.Has c)
    (hin : o ∈ ((h.sweep roots limit).2.store.value c).elements) (ho : h.store.Has o) :
    (h.sweep roots limit).2.store.Has o := by
  cases hp : h.table.isPaused with
  | true => simpa [sweep, hp] using ho
  | false =>
    obtain ⟨xs, hxs, -, -, heq⟩ := exists_sweep roots limit hp
    rw [heq] at hc hin ⊢
    exact hc.reap_mem hin (has_vacateAll.mpr
      ((has_vacateAll.mp (Store.trims_reap.has hc).1).reap_mem
      (by rwa [Store.trims_reap.value hc, value_vacateAll] at hin) ho))

/-- A pass takes an object out of a slot only if nothing else holds it, and then it is gone. -/
theorem unheld_of_slots_sweep (hslot : h.table.slots[i]? = some (some o))
    (hgone : (h.sweep roots limit).2.table.slots[i]? ≠ some (some o)) :
    h.store.Unheld roots o ∧ ¬ (h.sweep roots limit).2.store.Has o := by
  cases hp : h.table.isPaused with
  | true =>
    simp only [sweep, hp, if_true] at hgone
    exact absurd hslot hgone
  | false =>
    obtain ⟨xs, hxs, -, -, heq⟩ := exists_sweep roots limit hp
    rw [heq] at hgone ⊢
    simp only [slots_vacateAll] at hgone
    split at hgone
    · next hin =>
      obtain ⟨x, hx, rfl⟩ := List.mem_map.mp hin
      obtain ⟨hslot', hunheld⟩ := hxs x hx
      rw [hslot] at hslot'
      cases hslot'
      have hnone := Store.get?_reap_of_gone (gone_vacateAll (List.mem_map.mpr ⟨x, hx, rfl⟩) hunheld)
      exact ⟨hunheld, by simp [Store.Has, hnone]⟩
    · exact absurd hslot hgone

/-- A pass registers nothing. -/
theorem slots_of_slots_sweep (hslot : (h.sweep roots limit).2.table.slots[i]? = some (some o)) :
    h.table.slots[i]? = some (some o) := by
  cases hp : h.table.isPaused with
  | true => simpa [sweep, hp] using hslot
  | false =>
    obtain ⟨xs, -, -, -, heq⟩ := exists_sweep roots limit hp
    rw [heq] at hslot
    simp only [slots_vacateAll] at hslot
    split at hslot
    · cases hi : h.table.slots[i]? <;> simp [hi] at hslot
    · exact hslot

end Heap
end Scripting
