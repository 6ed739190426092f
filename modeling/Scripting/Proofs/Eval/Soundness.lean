import Mathlib.Tactic.Common
import Scripting.Evaluator
import Scripting.Proofs.Eval.Step
import Scripting.Proofs.Store.Sweeping

/-! Changes from outside an evaluation that keep its configuration sound, and numbers of objects,
which are never used twice. -/
namespace Scripting

/-- One store comes after another: objects made since have new numbers. -/
structure Store.Later (s t : Store) : Prop where
  next : s.next ≤ t.next
  has : ∀ o, t.Has o → s.Has o ∨ s.next ≤ o

namespace Store.Later

variable {s t u : Store} {o : ObjectId}

theorem of_has (hnext : t.next = s.next) (h : ∀ o, t.Has o → s.Has o) : Later s t :=
  ⟨Nat.le_of_eq hnext.symm, fun o ho => .inl (h o ho)⟩

theorem refl : Later s s := of_has rfl fun _ => id

theorem push {x : Object} : Later s (s.push x) := by
  refine ⟨by simp, fun o ho => ?_⟩
  obtain rfl | ho := has_push.mp ho
  · exact .inr (Nat.le_refl _)
  · exact .inl ho

theorem trans (h : Later s t) (h' : Later t u) : Later s u := by
  refine ⟨Nat.le_trans h.next h'.next, fun o ho => ?_⟩
  obtain ho | ho := h'.has o ho
  · exact h.has o ho
  · exact .inr (Nat.le_trans h.next ho)

/-- An object that is no more does not come back. -/
theorem not_has (h : Later s t) (hmade : o < s.next) (ho : ¬ s.Has o) : ¬ t.Has o := by
  intro ht
  obtain hs | hs := h.has o ht
  · exact ho hs
  · exact Nat.not_lt.mpr hs hmade

end Store.Later

/-- Two stores that differ at most in the slots of their objects. -/
structure Store.Relabels (s t : Store) : Prop where
  next : t.next = s.next
  has : ∀ o, t.Has o ↔ s.Has o
  value : ∀ o, t.value o = s.value o
  bindings : ∀ o, t.bindings o = s.bindings o

namespace Store.Relabels

variable {s t : Store}

theorem refl : Relabels s s := ⟨rfl, fun _ => Iff.rfl, fun _ => rfl, fun _ => rfl⟩

theorem foldl_setSlot (os : List ObjectId) :
    Relabels s (os.foldl (fun s o => s.setSlot o none) s) := by
  induction os generalizing s with
  | nil => exact refl
  | cons o os ih =>
    refine ⟨ih.next.trans next_modify, fun q => (ih.has q).trans has_setSlot,
      fun q => ?_, fun q => ?_⟩
    · exact (ih.value q).trans value_setSlot
    · exact (ih.bindings q).trans bindings_setSlot

theorem later (h : Relabels s t) : Later s t := .of_has h.next fun o => (h.has o).mp

end Store.Relabels

theorem Heap.relabels_remove {h : Heap} {o : ObjectId} : h.store.Relabels (h.remove o).2.store := by
  unfold remove
  split
  · exact .refl
  · split
    · exact Store.Relabels.foldl_setSlot [o]
    · exact .refl

theorem Heap.relabels_clear {h : Heap} : h.store.Relabels h.clear.2.store :=
  Store.Relabels.foldl_setSlot (h.table.slots.toList.filterMap id)

theorem Heap.later_sweep {h : Heap} {roots : List ObjectId} {limit : Option Nat} :
    h.store.Later (h.sweep roots limit).2.store := by
  refine .of_has next_sweep fun o ho => ?_
  obtain hsame | ⟨hnone, -⟩ := get?_sweep h roots limit o
  · rwa [Store.Has, ← hsame]
  · simp [Store.Has, hnone] at ho

theorem Step.later {c c' : Config} (h : Step c c') : c.store.Later c'.store := by
  cases h with
  | alloc | memoize => exact .push
  | replace | extend => exact .of_has Store.next_setValue fun o => Store.has_setValue.mp
  | bind => exact .of_has Environment.next_assign fun o => (Environment.store_assign.1 o).mp
  | leave => exact .of_has Environment.next_leave fun o => (Environment.store_leave.1 o).mp
  | _ => exact .refl

theorem Steps.later {c c' : Config} (h : Steps c c') : c.store.Later c'.store := by
  induction h with
  | refl => exact .refl
  | tail _ hs ih => exact ih.trans hs.later

namespace Config

variable {s : State} {T U : List ObjectId} {o : ObjectId}

/-- The same in terms of roots: they exist, and so does what is inside an object. -/
theorem sound_iff :
    Sound ⟨s, T⟩ ↔ (∀ o ∈ T ++ s.roots, s.heap.store.Has o) ∧
      (∀ c o, o ∈ (s.heap.store.value c).elements → s.heap.store.Has o) ∧
        s.env.Exact s.heap.store := by
  constructor
  · rintro ⟨hheld, hmemo, hexact⟩
    refine ⟨fun o ho => ?_, fun c o ho => hheld o ?_, hexact⟩
    · simp only [State.roots, List.mem_append, Environment.mem_roots_iff, List.mem_map] at ho
      obtain hT | (henv | henv) | ⟨x, hx, rfl⟩ := ho
      · exact hheld o (by simp [holdings, hT])
      · exact hheld o (by simp [holdings, env, henv])
      · exact hheld o (by simp [holdings, env, henv])
      · exact hmemo x hx
    · have : o ∈ s.heap.store.contained :=
        Store.mem_contained_iff.mpr ⟨c, Store.has_of_mem_elements ho, ho⟩
      simp [holdings, store, this]
  · rintro ⟨hroots, hinside, hexact⟩
    refine ⟨fun o ho => ?_, fun x hx => ?_, hexact⟩
    · simp only [holdings, env, store, List.mem_append, Store.mem_contained_iff] at ho
      obtain ((hT | henv) | henv) | ⟨c, hc, ho⟩ := ho
      · exact hroots o (by simp [hT])
      · exact hroots o (by simp [State.roots, Environment.mem_roots_iff, henv])
      · exact hroots o (by simp [State.roots, Environment.mem_roots_iff, henv])
      · exact hinside c o ho
    · refine hroots x.2 ?_
      simp only [State.roots, List.mem_append, List.mem_map]
      exact .inr (.inr ⟨x, hx, rfl⟩)

namespace Sound

/-- What can be reached is there. -/
theorem has_of_reach (h : Sound ⟨s, T⟩) (ho : s.heap.store.Reach (T ++ s.roots) o) :
    s.heap.store.Has o := by
  obtain ⟨hroots, hinside, -⟩ := sound_iff.mp h
  cases ho with
  | root ho => exact hroots o ho
  | inside _ ho => exact hinside _ o ho

/-- Any objects that are there may be held. -/
theorem hold (h : Sound ⟨s, T⟩) (hU : ∀ o ∈ U, s.heap.store.Has o) : Sound ⟨s, U⟩ := by
  obtain ⟨hroots, hinside, hexact⟩ := sound_iff.mp h
  refine sound_iff.mpr ⟨fun o ho => ?_, hinside, hexact⟩
  obtain ho | ho := List.mem_append.mp ho
  · exact hU o ho
  · exact hroots o (List.mem_append_right T ho)

/-- Slots of tables do not matter. -/
theorem relabel {heap : Heap} (h : Sound ⟨s, T⟩) (hr : s.heap.store.Relabels heap.store) :
    Sound ⟨s.withHeap heap, T⟩ := by
  obtain ⟨hroots, hinside, hexact⟩ := sound_iff.mp h
  refine sound_iff.mpr ⟨fun o ho => (hr.has o).mpr (hroots o ho),
    fun c o ho => (hr.has o).mpr ?_, ?_⟩
  · exact hinside c o (hr.value c ▸ ho)
  · exact fun o => (hr.bindings o).trans (hexact o)

theorem push {x : Object} {table : Table} (h : Sound ⟨s, T⟩)
    (hx : ∀ o ∈ x.value.elements, s.heap.store.Has o) (hb : x.bindings = 0) :
    Sound ⟨s.withHeap ⟨s.heap.store.push x, table⟩, s.heap.store.next :: T⟩ := by
  obtain ⟨hroots, hinside, hexact⟩ := sound_iff.mp h
  refine sound_iff.mpr ⟨fun o ho => Store.has_push.mpr ?_,
    fun c o ho => Store.has_push.mpr (.inr ?_), fun o => ?_⟩
  · obtain rfl | ho := List.mem_cons.mp ho
    · exact .inl rfl
    · exact .inr (hroots o ho)
  · simp only [State.withHeap, Store.value_push] at ho
    split at ho
    · exact hx o ho
    · exact hinside c o ho
  · have hold := hexact o
    simp only [State.withHeap, Store.bindings_push]
    split
    · next heq =>
      have hnone : s.heap.store.bindings o = 0 := by
        simp [Store.bindings, Store.get?_of_next_le (Nat.le_of_eq heq.symm)]
      rw [hb, ← hold, hnone]
    · exact hold

theorem setValue {p : ObjectId} {v : Value} {table : Table} (h : Sound ⟨s, T⟩)
    (hv : ∀ o ∈ v.elements, s.heap.store.Has o) :
    Sound ⟨s.withHeap ⟨s.heap.store.setValue p v, table⟩, T⟩ := by
  obtain ⟨hroots, hinside, hexact⟩ := sound_iff.mp h
  refine sound_iff.mpr ⟨fun o ho => Store.has_setValue.mpr (hroots o ho),
    fun c o ho => Store.has_setValue.mpr ?_, fun o => Store.bindings_setValue.trans (hexact o)⟩
  simp only [State.withHeap, Store.value_setValue] at ho
  split at ho
  · exact hv o ho
  · exact hinside c o ho

/-- A pass of the collector takes nothing that the configuration needs. -/
theorem sweep {heap : Heap} {table : Table} {roots : List ObjectId} {limit : Option Nat}
    (h : Sound ⟨s, T⟩) (hstore : heap.store = s.heap.store) (hin : ∀ o ∈ T ++ s.roots, o ∈ roots) :
    Sound ⟨s.withHeap ⟨(heap.sweep roots limit).2.store, table⟩, T⟩ := by
  obtain ⟨hroots, hinside, hexact⟩ := sound_iff.mp h
  rw [← hstore] at hroots hinside hexact
  have hkept : ∀ o ∈ T ++ s.roots, (heap.sweep roots limit).2.store.get? o = heap.store.get? o :=
    fun o ho => Heap.get?_sweep_of_reach (.root (hin o ho))
  refine sound_iff.mpr ⟨fun o ho => ?_, fun c o ho => ?_, fun o => ?_⟩
  · have := hroots o ho
    rwa [Store.Has, ← hkept o ho] at this
  · have hc := Store.has_of_mem_elements ho
    exact Heap.has_sweep_of_mem hc ho (hinside c o (Heap.value_sweep hc ▸ ho))
  · obtain hsame | ⟨hnone, -⟩ := Heap.get?_sweep heap roots limit o
    · exact (congrArg (fun x => (x.map Object.bindings).getD 0) hsame).trans (hexact o)
    · -- what is gone is in no variable, so no count is lost
      have hslots : o ∉ s.env.slots := by
        intro hslot
        have ho : o ∈ T ++ s.roots := by simp [State.roots, Environment.mem_roots_iff, hslot]
        have := hroots o ho
        rw [Store.Has, ← hkept o ho, hnone] at this
        cases this
      exact (congrArg (fun x => (x.map Object.bindings).getD 0) hnone).trans
        (List.count_eq_zero.mpr hslots).symm

end Sound
end Config
end Scripting
