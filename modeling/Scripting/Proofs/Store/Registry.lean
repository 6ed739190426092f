import Mathlib.Data.List.Nodup
import Mathlib.Data.List.Range
import Mathlib.Tactic.Common
import Scripting.Proofs.Store.Tables

/-! Any number of heaps over one store of objects, and what their tables say of them after any
sequence of requests, whichever heap an object is handed to. -/
namespace Scripting

namespace Table

variable {t : Table} {i : Nat} {o : ObjectId}

/-- The registered objects in the order of their slots. -/
def registered (t : Table) : List ObjectId := t.slots.toList.filterMap id

theorem mem_registered : o ∈ t.registered ↔ ∃ i, t.Holds i o := by
  simp [registered, List.mem_filterMap, Holds, Array.mem_iff_getElem?]

/-- The vacant slots are as many as the empty ones. -/
theorem Neat.length_vacant (h : t.Neat) : t.vacant.length = t.slots.toList.countP (·.isNone) := by
  have hperm : t.vacant.Perm
      ((List.range t.slots.size).filter fun i => t.slots[i]? = some none) := by
    rw [List.perm_ext_iff_of_nodup h.nodup (List.nodup_range.filter _)]
    intro i
    rw [h.mem_vacant i]
    simp only [List.mem_filter, List.mem_range, decide_eq_true_eq]
    exact ⟨fun hi => ⟨(Array.getElem?_eq_some_iff.mp hi).1, hi⟩, And.right⟩
  have hslots : (List.range t.slots.size).map (t.slots[·]?) = t.slots.toList.map some := by
    apply List.ext_getElem
    · simp
    · intro i hi _
      have hlt : i < t.slots.size := by simpa using hi
      simp [hlt]
  calc t.vacant.length
      = ((List.range t.slots.size).map (t.slots[·]?)).countP (· = some none) := by
        rw [hperm.length_eq, ← List.countP_eq_length_filter, List.countP_map]
        rfl
    _ = t.slots.toList.countP (·.isNone) := by
        rw [hslots, List.countP_map]
        exact List.countP_congr fun x _ => by cases x <;> simp

theorem Neat.live_eq (h : t.Neat) : t.live = t.registered.length := by
  have hsplit := List.length_eq_countP_add_countP (fun x : Option ObjectId => x.isNone)
    (l := t.slots.toList)
  have hregistered : t.registered.length = t.slots.toList.countP fun x => ¬ x.isNone := by
    rw [registered, List.length_filterMap_eq_countP]
    exact List.countP_congr fun x _ => by cases x <;> simp
  have hempty := h.length_vacant
  rw [Array.length_toList] at hsplit
  rw [live]
  omega

/-- A table grows only when it has no empty slot. -/
theorem Neat.size_insert (h : t.Neat) (hsize : (t.insert o).2.slots.size ≠ t.slots.size) :
    t.slots[i]? ≠ some none := by
  intro hi
  have hin := (h.mem_vacant i).mpr hi
  simp only [Table.insert] at hsize
  split at hsize
  · simp at hsize
  · next hnone =>
    rw [hnone] at hin
    cases hin

end Table

theorem Heap.fst_remove {h : Heap} {o : ObjectId} : (h.remove o).1 = h.contains o := by
  unfold remove
  split
  · next hnone => simp [contains, hnone]
  · split
    · next hin => exact hin.symm
    · next hout => simpa using hout

/-- Removal touches no other object. -/
theorem Heap.get?_remove {h : Heap} {o q : ObjectId} (hq : q ≠ o) :
    (h.remove o).2.store.get? q = h.store.get? q := by
  unfold remove
  split
  · rfl
  · split
    · simp only [vacate, Store.setSlot, Store.get?_modify]
      rw [if_neg hq]
    · rfl

namespace Tidy

variable {ι : Type} {s : Store} {tables : ι → Table} {w w' : ι} {i j : Nat} {o q : ObjectId}

theorem holds_unique (h : Tidy s tables) (hi : (tables w).Holds i o) (hj : (tables w').Holds j o) :
    w' = w ∧ j = i :=
  ⟨h.apart w' w j i o hj hi, Option.some.inj ((h.slot w' j o hj).symm.trans (h.slot w i o hi))⟩

theorem contains_iff (h : Tidy s tables) :
    (Heap.mk s (tables w)).contains o = true ↔ ∃ i, (tables w).Holds i o := by
  unfold Heap.contains
  constructor
  · intro hin
    split at hin
    · cases hin
    · next i _ =>
      rw [decide_eq_true_eq] at hin
      exact ⟨i, hin⟩
  · rintro ⟨i, hi⟩
    simp only [h.slot w i o hi, decide_eq_true_eq]
    exact hi

/-- No object is in two slots. -/
theorem nodup_registered (h : Tidy s tables) : (tables w).registered.Nodup := by
  rw [List.Nodup, Table.registered, List.pairwise_filterMap, List.pairwise_iff_getElem]
  intro i j hi hj hij a ha b hb hab
  have hholds : ∀ {k c} (hk : k < (tables w).slots.toList.length),
      id (tables w).slots.toList[k] = some c → (tables w).Holds k c := by
    intro k c hk hc
    exact Array.getElem?_eq_some_iff.mpr ⟨by simpa using hk, by simpa using hc⟩
  have hsame := (h.holds_unique (hholds hi ha) (hab ▸ hholds hj hb)).2
  omega

variable [DecidableEq ι]

/-- Removal unregisters the object in the heap that is asked, and nothing else. -/
theorem holds_remove (h : Tidy s tables) :
    (Function.update tables w ((Heap.mk s (tables w)).remove o).2.table w').Holds i q ↔
      (tables w').Holds i q ∧ ¬ (w' = w ∧ q = o) := by
  by_cases hw : w' = w
  · subst hw
    simp only [Function.update_self, true_and]
    unfold Heap.remove
    split
    · next hnone =>
      refine ⟨fun hq => ⟨hq, ?_⟩, And.left⟩
      rintro rfl
      exact absurd (h.slot w' i q hq) (by simp [show s.slot? q = none from hnone])
    · next j hj =>
      split
      · next hin =>
        obtain ⟨k, hk⟩ := h.contains_iff.mp hin
        have hjk : j = k := Option.some.inj (hj.symm.trans (h.slot w' k o hk))
        subst hjk
        simp only [Heap.vacate, Table.holds_vacate]
        constructor
        · rintro ⟨hij, hq⟩
          refine ⟨hq, ?_⟩
          rintro rfl
          exact hij (h.holds_unique hk hq).2
        · rintro ⟨hq, hne⟩
          refine ⟨?_, hq⟩
          rintro rfl
          exact hne (hq.unique hk)
      · next hout =>
        refine ⟨fun hq => ⟨hq, ?_⟩, And.left⟩
        rintro rfl
        exact hout (h.contains_iff.mpr ⟨i, hq⟩)
  · simp [hw]

/-- A new object takes a slot that was empty, or one behind the last. -/
theorem holds_alloc (h : Tidy s tables) {v : Value} :
    (Function.update tables w (Heap.alloc ⟨s, tables w⟩ v).2.table w').Holds i q ↔
      (tables w').Holds i q ∨ w' = w ∧ q = s.next ∧ i = ((tables w).insert s.next).1 := by
  by_cases hw : w' = w
  · subst hw
    simp only [Function.update_self, true_and]
    rw [show (Heap.alloc ⟨s, tables w'⟩ v).2.table = ((tables w').insert s.next).2 from rfl,
      (h.neat w').holds_insert, or_comm, and_comm]
  · simp [hw]

end Tidy

/-- Heaps that share their objects. -/
structure Pool (ι : Type) where
  store : Store := {}
  tables : ι → Table := fun _ => {}

namespace Pool

variable {ι : Type}

def heap (p : Pool ι) (w : ι) : Heap := ⟨p.store, p.tables w⟩

/-- What can be asked of one of the heaps, and what happens to objects besides. Any object may be
handed to any heap. -/
inductive Action (ι : Type)
  | alloc (w : ι) (v : Value)
  | remove (w : ι) (o : ObjectId)
  /-- A sweep at a time when the given objects are held from outside. -/
  | sweep (w : ι) (roots : List ObjectId) (limit : Option Nat)
  | clear (w : ι)
  | pause (w : ι)
  | resume (w : ι)
  | write (o : ObjectId) (v : Value)
  | retain (o : ObjectId)
  | release (o : ObjectId)
  /-- Whatever the given objects do not keep is let go. -/
  | reap (roots : List ObjectId)

variable [DecidableEq ι]

def setHeap (p : Pool ι) (w : ι) (h : Heap) : Pool ι :=
  ⟨h.store, Function.update p.tables w h.table⟩

def step (p : Pool ι) : Action ι → Pool ι
  | .alloc w v => p.setHeap w ((p.heap w).alloc v).2
  | .remove w o => p.setHeap w ((p.heap w).remove o).2
  | .sweep w roots limit => p.setHeap w ((p.heap w).sweep roots limit).2
  | .clear w => p.setHeap w (p.heap w).clear.2
  | .pause w => p.setHeap w ⟨p.store, (p.tables w).pause⟩
  | .resume w => p.setHeap w ⟨p.store, (p.tables w).resume⟩
  | .write o v => { p with store := p.store.setValue o v }
  | .retain o => { p with store := p.store.retain o }
  | .release o => { p with store := p.store.release o }
  | .reap roots => { p with store := p.store.reap roots }

def run (p : Pool ι) (actions : List (Action ι)) : Pool ι := actions.foldl step p

theorem tidy_step {p : Pool ι} (h : Tidy p.store p.tables) (a : Action ι) :
    Tidy (p.step a).store (p.step a).tables := by
  cases a with
  | alloc w v => exact h.alloc w
  | remove w o => exact h.remove
  | sweep w roots limit => exact h.sweep
  | clear w => exact h.clear
  | pause w => exact h.setPauses
  | resume w => exact h.setPauses
  | write o v => exact h.congr fun _ => Store.slot?_setValue
  | retain o => exact h.congr fun _ => Store.slot?_retain
  | release o => exact h.congr fun _ => Store.slot?_release
  | reap roots => exact h.trims Store.trims_reap

theorem tidy_run {p : Pool ι} (h : Tidy p.store p.tables) (actions : List (Action ι)) :
    Tidy (p.run actions).store (p.run actions).tables := by
  induction actions generalizing p with
  | nil => exact h
  | cons a actions ih => exact ih (tidy_step h a)

/-- What the tables of a pool say is so, and what its heaps do with single objects. -/
structure Exact (p : Pool ι) : Prop where
  /-- The vacant list names each empty slot once, and no other. -/
  vacant : ∀ w, (p.tables w).vacant.Nodup ∧
    ∀ i, i ∈ (p.tables w).vacant ↔ (p.tables w).slots[i]? = some none
  /-- A registered object knows its slot, and is in no other slot of any table. -/
  slot : ∀ w i o, (p.tables w).Holds i o →
    p.store.slot? o = some i ∧ ∀ w' j, (p.tables w').Holds j o → w' = w ∧ j = i
  /-- An object without a slot is in no table, and only such. -/
  unregistered : ∀ o, p.store.slot? o = none ↔ ∀ w i, ¬ (p.tables w).Holds i o
  /-- The count of live objects is that of the registered ones. -/
  live : ∀ w, (p.tables w).vacant.length ≤ (p.tables w).slots.size ∧
    (p.tables w).registered.Nodup ∧
      (∀ o, o ∈ (p.tables w).registered ↔ ∃ i, (p.tables w).Holds i o) ∧
    (p.tables w).live = (p.tables w).registered.length
  contains : ∀ w o, (p.heap w).contains o = true ↔ ∃ i, (p.tables w).Holds i o
  remove : ∀ w o, ((p.heap w).remove o).1 = (p.heap w).contains o ∧
    (∀ w' i q, ((p.step (.remove w o)).tables w').Holds i q ↔
      (p.tables w').Holds i q ∧ ¬ (w' = w ∧ q = o)) ∧
    ∀ q, q ≠ o → (p.step (.remove w o)).store.get? q = p.store.get? q
  /-- A new object displaces none. -/
  alloc : ∀ w v, (∀ w' i q, ((p.step (.alloc w v)).tables w').Holds i q ↔
      (p.tables w').Holds i q ∨
        w' = w ∧ q = ((p.heap w).alloc v).1 ∧ i = ((p.tables w).insert p.store.next).1) ∧
    (((p.step (.alloc w v)).tables w).slots.size ≠ (p.tables w).slots.size →
      ∀ i : Nat, (p.tables w).slots[i]? ≠ some none)

theorem exact_of_tidy {p : Pool ι} (h : Tidy p.store p.tables) : p.Exact where
  vacant := fun w => ⟨(h.neat w).nodup, (h.neat w).mem_vacant⟩
  slot := fun w i o ho => ⟨h.slot w i o ho, fun _ _ => h.holds_unique ho⟩
  unregistered := by
    intro o
    constructor
    · intro hnone w i ho
      rw [h.slot w i o ho] at hnone
      cases hnone
    · intro hnot
      cases hslot : p.store.slot? o with
      | none => rfl
      | some i =>
        obtain ⟨w, ho⟩ := h.owner i o hslot
        exact absurd ho (hnot w i)
  live := fun w => ⟨(h.neat w).length_vacant_le, h.nodup_registered, fun _ => Table.mem_registered,
    (h.neat w).live_eq⟩
  contains := fun _ _ => h.contains_iff
  remove := fun _ _ => ⟨Heap.fst_remove, fun _ _ _ => h.holds_remove, fun _ => Heap.get?_remove⟩
  alloc := by
    intro w v
    refine ⟨fun w' i q => h.holds_alloc,
      fun hsize i => (h.neat w).size_insert (o := p.store.next) ?_⟩
    simpa [step, setHeap, heap, Heap.alloc] using hsize

/-- Whatever heaps are asked for, in whatever order and with whichever objects, their tables and the
objects agree on what is registered where. -/
theorem registration_exact (actions : List (Action ι)) : (run ({} : Pool ι) actions).Exact :=
  exact_of_tidy (tidy_run Tidy.empty actions)

end Pool
end Scripting
