import Mathlib.Data.List.Perm.Subperm
import Mathlib.Logic.Function.Basic
import Mathlib.Tactic.Common
import Scripting.Proofs.Store.Sweeping

/-! Tables and objects agree on what is registered where. -/
namespace Scripting

namespace Table

variable {t : Table} {i j : Nat} {o p : ObjectId}

/-- The object is in the slot. -/
def Holds (t : Table) (i : Nat) (o : ObjectId) : Prop := t.slots[i]? = some (some o)

/-- The list of vacant slots names each empty slot once. -/
structure Neat (t : Table) : Prop where
  nodup : t.vacant.Nodup
  mem_vacant : ∀ i, i ∈ t.vacant ↔ t.slots[i]? = some none

theorem Holds.unique (h : t.Holds i o) (h' : t.Holds i p) : o = p :=
  Option.some.inj (Option.some.inj (h.symm.trans h'))

/-- The slot of a new object was empty. -/
theorem Neat.not_holds_insert (h : t.Neat) : ¬ t.Holds (t.insert o).1 p := by
  simp only [insert]
  split
  · next i rest hv =>
    have hempty : t.slots[i]? = some none := (h.mem_vacant i).mp (by simp [hv])
    simp [Holds, hempty]
  · simp [Holds]

theorem Neat.holds_insert (h : t.Neat) :
    (t.insert o).2.Holds j p ↔ j = (t.insert o).1 ∧ p = o ∨ t.Holds j p := by
  have hnot := h.not_holds_insert (o := o) (p := p)
  by_cases hj : j = (t.insert o).1
  · subst hj
    have hnew : (t.insert o).2.slots[(t.insert o).1]? = some (some o) := by
      simp only [insert]
      split
      · next i rest hv =>
        have hempty : t.slots[i]? = some none := (h.mem_vacant i).mp (by simp [hv])
        have hi : i < t.slots.size := (Array.getElem?_eq_some_iff.mp hempty).1
        simp [hi]
      · simp
    simp only [true_and, hnot, or_false]
    simp [Holds, hnew, eq_comm]
  · have hold : (t.insert o).2.slots[j]? = t.slots[j]? := by
      simp only [insert] at hj ⊢
      split at hj
      · next i rest hv =>
        simp only [Array.getElem?_setIfInBounds]
        rw [if_neg (Ne.symm hj)]
      · simp only [Array.getElem?_push]
        rw [if_neg hj]
    simp [Holds, hold, hj]

theorem Neat.insert (h : t.Neat) : (t.insert o).2.Neat := by
  simp only [Table.insert]
  split
  · next i rest hv =>
    have hnodup : i ∉ rest ∧ rest.Nodup := List.nodup_cons.mp (hv ▸ h.nodup)
    refine ⟨hnodup.2, fun j => ?_⟩
    have hj := h.mem_vacant j
    simp only [hv, List.mem_cons] at hj
    simp only [Array.getElem?_setIfInBounds]
    by_cases hij : i = j
    · subst hij
      rw [if_pos rfl]
      split <;> simp [hnodup.1]
    · rw [if_neg hij, ← hj]
      simp [Ne.symm hij]
  · next hv =>
    refine ⟨by simp [hv], fun j => ?_⟩
    have hj := h.mem_vacant j
    simp only [hv, List.not_mem_nil, false_iff] at hj ⊢
    simp only [Array.getElem?_push]
    split <;> simp [hj]

theorem holds_vacate : (t.vacate i).Holds j p ↔ j ≠ i ∧ t.Holds j p := by
  simp only [Holds, vacate, Array.getElem?_setIfInBounds]
  by_cases hij : i = j
  · subst hij
    simp
  · simp [hij, Ne.symm hij]

theorem Neat.vacate (h : t.Neat) (hi : t.Holds i o) : (t.vacate i).Neat := by
  have hnot : i ∉ t.vacant := by
    intro hin
    have := (h.mem_vacant i).mp hin
    rw [show t.slots[i]? = _ from hi] at this
    cases this
  refine ⟨List.nodup_cons.mpr ⟨hnot, h.nodup⟩, fun j => ?_⟩
  simp only [Table.vacate, List.mem_cons, Array.getElem?_setIfInBounds]
  by_cases hij : i = j
  · subst hij
    have hlt : i < t.slots.size := (Array.getElem?_eq_some_iff.mp hi).1
    simp [hlt]
  · simp [hij, Ne.symm hij, h.mem_vacant j]

/-- The vacant slots are slots. -/
theorem Neat.length_vacant_le (h : t.Neat) : t.vacant.length ≤ t.slots.size := by
  have hsub : t.vacant ⊆ List.range t.slots.size := by
    intro i hi
    exact List.mem_range.mpr (Array.getElem?_eq_some_iff.mp ((h.mem_vacant i).mp hi)).1
  simpa using (List.subperm_of_subset h.nodup hsub).length_le

end Table

namespace Store

variable {s t : Store} {o p : ObjectId} {x : Object} {roots : List ObjectId}

theorem slot?_push : (s.push x).slot? p = if p = s.next then x.slot else s.slot? p := by
  simp only [slot?, get?_push]
  split <;> rfl

/-- A change that keeps the slot of the object it changes keeps all slots. -/
theorem slot?_modify {f : Object → Object} (hf : ∀ x, (f x).slot = x.slot) :
    (s.modify o f).slot? p = s.slot? p := by
  simp only [slot?, get?_modify]
  split
  · cases s.get? p <;> simp [hf]
  · rfl

@[simp] theorem slot?_retain : (s.retain o).slot? p = s.slot? p := slot?_modify fun _ => rfl

@[simp] theorem slot?_release : (s.release o).slot? p = s.slot? p := slot?_modify fun _ => rfl

@[simp] theorem slot?_setValue {v : Value} : (s.setValue o v).slot? p = s.slot? p :=
  slot?_modify fun _ => rfl

theorem slot?_setSlot_none : (s.setSlot o none).slot? p = if p = o then none else s.slot? p := by
  simp only [slot?, setSlot, get?_modify]
  split
  · cases s.get? p <;> rfl
  · rfl

theorem has_of_slot? {i : Nat} (h : s.slot? o = some i) : s.Has o := by
  obtain ⟨x, hx, -⟩ := Option.bind_eq_some_iff.mp h
  simp [Has, hx]

/-- What is gone was in no slot. -/
theorem Trims.slot? (h : Trims roots s t) : t.slot? o = s.slot? o := by
  rcases h o with hsame | ⟨hnone, hgone⟩
  · simp only [Store.slot?, hsame]
  · cases hgone with
    | intro hslot _ _ =>
      rw [hslot, Store.slot?, hnone]
      rfl

end Store

/-- The tables say of each object what it says of itself: the slot in which it is registered, of
which there is at most one in all tables. -/
structure Tidy {ι : Type} (s : Store) (tables : ι → Table) : Prop where
  neat : ∀ w, (tables w).Neat
  slot : ∀ w i o, (tables w).Holds i o → s.slot? o = some i
  owner : ∀ i o, s.slot? o = some i → ∃ w, (tables w).Holds i o
  apart : ∀ w w' i j o, (tables w).Holds i o → (tables w').Holds j o → w = w'

namespace Tidy

variable {ι : Type} {s t : Store} {tables : ι → Table} {o : ObjectId} {v : Value} {i : Nat}
  {roots : List ObjectId}

theorem congr (h : Tidy s tables) (hslot : ∀ o, t.slot? o = s.slot? o) : Tidy t tables where
  neat := h.neat
  slot := fun w i o ho => (hslot o).trans (h.slot w i o ho)
  owner := fun i o ho => h.owner i o ((hslot o).symm.trans ho)
  apart := h.apart

/-- Nothing is registered where nothing is. -/
theorem empty : Tidy {} fun _ : ι => {} where
  neat := fun _ => ⟨List.nodup_nil, by simp⟩
  slot := by simp [Table.Holds]
  owner := by simp [Store.slot?, Store.get?]
  apart := by simp [Table.Holds]

theorem trims (h : Tidy s tables) (ht : s.Trims roots t) : Tidy t tables :=
  h.congr fun _ => ht.slot?

variable [DecidableEq ι]

/-- One table is changed, and the store with it. -/
theorem update {w : ι} {table : Table} (h : Tidy s tables) (hneat : table.Neat)
    (hslot : ∀ i o, table.Holds i o → t.slot? o = some i)
    (hother : ∀ w' i o, w' ≠ w → (tables w').Holds i o → t.slot? o = some i)
    (howner : ∀ i o, t.slot? o = some i → table.Holds i o ∨ ∃ w', w' ≠ w ∧ (tables w').Holds i o)
    (hapart : ∀ w' i j o, w' ≠ w → (tables w').Holds i o → ¬ table.Holds j o) :
    Tidy t (Function.update tables w table) where
  neat := by
    intro w'
    by_cases hw : w' = w
    · subst hw
      simpa using hneat
    · simpa [hw] using h.neat w'
  slot := by
    intro w' i o ho
    by_cases hw : w' = w
    · subst hw
      exact hslot i o (by simpa using ho)
    · exact hother w' i o hw (by simpa [hw] using ho)
  owner := by
    intro i o ho
    rcases howner i o ho with hnew | ⟨w', hw, hold⟩
    · exact ⟨w, by simpa using hnew⟩
    · exact ⟨w', by simpa [hw] using hold⟩
  apart := by
    intro w₁ w₂ i j o h₁ h₂
    by_cases hw₁ : w₁ = w
    · subst hw₁
      by_cases hw₂ : w₂ = w₁
      · exact hw₂.symm
      · simp only [Function.update_self, Function.update_of_ne hw₂] at h₁ h₂
        exact absurd h₁ (hapart w₂ j i o hw₂ h₂)
    · simp only [Function.update_of_ne hw₁] at h₁
      by_cases hw₂ : w₂ = w
      · subst hw₂
        simp only [Function.update_self] at h₂
        exact absurd h₂ (hapart w₁ i j o hw₁ h₁)
      · simp only [Function.update_of_ne hw₂] at h₂
        exact h.apart w₁ w₂ i j o h₁ h₂

/-- Pauses have nothing to do with slots. -/
theorem setPauses (h : Tidy s tables) {w : ι} {n : Nat} :
    Tidy s (Function.update tables w { tables w with pauses := n }) := by
  apply h.update
  · exact ⟨(h.neat w).nodup, (h.neat w).mem_vacant⟩
  · exact h.slot w
  · exact fun w' i o _ => h.slot w' i o
  · intro i o ho
    obtain ⟨w', hw'⟩ := h.owner i o ho
    by_cases hw : w' = w
    · subst hw
      exact .inl hw'
    · exact .inr ⟨w', hw, hw'⟩
  · exact fun w' i j o hw ho hnew => hw (h.apart w' w i j o ho hnew)

/-- A new object is in one slot, that of its table. -/
theorem alloc (h : Tidy s tables) (w : ι) :
    Tidy (Heap.alloc ⟨s, tables w⟩ v).2.store
      (Function.update tables w (Heap.alloc ⟨s, tables w⟩ v).2.table) := by
  have hlt : ∀ w' i o, (tables w').Holds i o → o < s.next :=
    fun w' i o ho => (Store.has_of_slot? (h.slot w' i o ho)).lt_next
  have hslot : ∀ o, (Heap.alloc ⟨s, tables w⟩ v).2.store.slot? o =
      if o = s.next then some ((tables w).insert s.next).1 else s.slot? o :=
        fun o => Store.slot?_push
  have hholds : ∀ i o, (Heap.alloc ⟨s, tables w⟩ v).2.table.Holds i o ↔
      i = ((tables w).insert s.next).1 ∧ o = s.next ∨ (tables w).Holds i o :=
    fun i o => (h.neat w).holds_insert
  apply h.update (h.neat w).insert
  · intro i o ho
    rw [hslot]
    rcases (hholds i o).mp ho with ⟨rfl, rfl⟩ | hold
    · rw [if_pos rfl]
    · rw [if_neg (Nat.ne_of_lt (hlt w i o hold))]
      exact h.slot w i o hold
  · intro w' i o _ ho
    rw [hslot, if_neg (Nat.ne_of_lt (hlt w' i o ho))]
    exact h.slot w' i o ho
  · intro i o ho
    rw [hslot] at ho
    split at ho
    · next heq => exact .inl ((hholds i o).mpr (.inl ⟨(Option.some.inj ho).symm, heq⟩))
    · obtain ⟨w', hold⟩ := h.owner i o ho
      by_cases hw : w' = w
      · subst hw
        exact .inl ((hholds i o).mpr (.inr hold))
      · exact .inr ⟨w', hw, hold⟩
  · intro w' i j o hw ho hnew
    rcases (hholds j o).mp hnew with ⟨-, rfl⟩ | hold
    · exact Nat.lt_irrefl _ (hlt w' i s.next ho)
    · exact hw (h.apart w' w i j o ho hold)

/-- An object is taken out of the slot in which it is. -/
theorem vacate (h : Tidy s tables) {w : ι} (hi : (tables w).Holds i o) :
    Tidy (s.setSlot o none) (Function.update tables w ((tables w).vacate i)) := by
  apply h.update ((h.neat w).vacate hi)
  · intro j p hp
    obtain ⟨hij, hold⟩ := Table.holds_vacate.mp hp
    rw [Store.slot?_setSlot_none, if_neg]
    · exact h.slot w j p hold
    · rintro rfl
      have := (h.slot w i p hi).symm.trans (h.slot w j p hold)
      exact hij (Option.some.inj this).symm
  · intro w' j p hw hold
    rw [Store.slot?_setSlot_none, if_neg]
    · exact h.slot w' j p hold
    · rintro rfl
      exact hw (h.apart w' w j i p hold hi)
  · intro j p hp
    rw [Store.slot?_setSlot_none] at hp
    split at hp
    · cases hp
    · next hne =>
      obtain ⟨w', hold⟩ := h.owner j p hp
      by_cases hw : w' = w
      · subst hw
        refine .inl (Table.holds_vacate.mpr ⟨?_, hold⟩)
        rintro rfl
        exact hne (hold.unique hi)
      · exact .inr ⟨w', hw, hold⟩
  · intro w' j k p hw hold hnew
    exact hw (h.apart w' w j k p hold (Table.holds_vacate.mp hnew).2)

theorem vacateAll {w : ι} {xs : List (Nat × ObjectId)} (h : Tidy s tables)
    (hnodup : (xs.map (·.1)).Nodup) (hxs : ∀ x ∈ xs, (tables w).Holds x.1 x.2) :
    Tidy ((Heap.mk s (tables w)).vacateAll xs).store
      (Function.update tables w ((Heap.mk s (tables w)).vacateAll xs).table) := by
  induction xs generalizing s tables with
  | nil => simpa [Heap.vacateAll] using h
  | cons x xs ih =>
    obtain ⟨hx, hrest⟩ := List.forall_mem_cons.mp hxs
    obtain ⟨hnot, hnodup⟩ := List.nodup_cons.mp hnodup
    have hfirst := h.vacate hx
    have hlast := ih hfirst hnodup (by
      intro y hy
      simp only [Function.update_self]
      refine Table.holds_vacate.mpr ⟨?_, hrest y hy⟩
      intro heq
      exact hnot (List.mem_map.mpr ⟨y, hy, heq⟩))
    simpa [Heap.vacateAll, Heap.vacate] using hlast

theorem sweep {w : ι} {limit : Option Nat} (h : Tidy s tables) :
    Tidy ((Heap.mk s (tables w)).sweep roots limit).2.store
      (Function.update tables w ((Heap.mk s (tables w)).sweep roots limit).2.table) := by
  cases hp : (tables w).isPaused with
  | true => simpa [Heap.sweep, hp] using h
  | false =>
    have hreaped : Tidy (s.reap roots) tables := h.trims Store.trims_reap
    obtain ⟨xs, hxs, hnodup, -, heq⟩ :=
      Heap.exists_sweep (h := ⟨s, tables w⟩) roots limit hp
    have hvacated := hreaped.vacateAll (w := w) hnodup fun x hx => (hxs x hx).1
    rw [heq]
    exact hvacated.trims Store.trims_reap

theorem remove (h : Tidy s tables) {w : ι} :
    Tidy ((Heap.mk s (tables w)).remove o).2.store
      (Function.update tables w ((Heap.mk s (tables w)).remove o).2.table) := by
  unfold Heap.remove
  split
  · simpa using h
  · next i hi =>
    split
    · next hin =>
      have hholds : (tables w).Holds i o := by
        simp only [Heap.contains, show s.slot? o = some i from hi] at hin
        simpa [Table.Holds] using hin
      exact h.vacate hholds
    · simpa using h

theorem slot?_foldl_setSlot {os : List ObjectId} :
    (os.foldl (fun s o => s.setSlot o none) s).slot? o = if o ∈ os then none else s.slot? o := by
  induction os generalizing s with
  | nil => simp
  | cons p os ih =>
    rw [List.foldl_cons, ih, Store.slot?_setSlot_none]
    by_cases hp : o = p <;> simp [hp]

/-- Nothing is registered in a table that was emptied. -/
theorem clear (h : Tidy s tables) {w : ι} :
    Tidy (Heap.mk s (tables w)).clear.2.store
      (Function.update tables w (Heap.mk s (tables w)).clear.2.table) := by
  have hslot : ∀ o, (Heap.mk s (tables w)).clear.2.store.slot? o =
      if o ∈ (tables w).slots.toList.filterMap id then none else s.slot? o :=
    fun o => slot?_foldl_setSlot
  have hmem : ∀ o, o ∈ (tables w).slots.toList.filterMap id ↔ ∃ i, (tables w).Holds i o := by
    intro o
    simp [List.mem_filterMap, Table.Holds, Array.mem_iff_getElem?]
  have hempty : ∀ i o, ¬ (Heap.mk s (tables w)).clear.2.table.Holds i o := by
    intro i o
    simp [Heap.clear, Table.Holds]
  apply h.update
  · exact ⟨by simp [Heap.clear], fun i => by simp [Heap.clear]⟩
  · exact fun i o ho => absurd ho (hempty i o)
  · intro w' i o hw ho
    rw [hslot, if_neg]
    · exact h.slot w' i o ho
    · intro hin
      obtain ⟨j, hj⟩ := (hmem o).mp hin
      exact hw (h.apart w' w i j o ho hj)
  · intro i o ho
    rw [hslot] at ho
    split at ho
    · cases ho
    · next hnot =>
      obtain ⟨w', hold⟩ := h.owner i o ho
      refine .inr ⟨w', ?_, hold⟩
      rintro rfl
      exact hnot ((hmem o).mpr ⟨i, hold⟩)
  · exact fun w' i j o _ _ => hempty j o

end Tidy
end Scripting
