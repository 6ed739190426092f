import Mathlib.Tactic.Common
import Scripting.Proofs.Store.Contents

/-! Which objects are gone: reaping forgets those and no others. -/
namespace Scripting

/-- Entries that are only ever lost, counted. -/
theorem countP_mapIdx_le {α : Type} {f : Nat → Option α → Option α} {l : List (Option α)}
    (hf : ∀ i x, (f i x).isSome → x.isSome) :
    (l.mapIdx f).countP (·.isSome) ≤ l.countP (·.isSome) ∧
      ((l.mapIdx f).countP (·.isSome) = l.countP (·.isSome) →
        ∀ i x, l[i]? = some x → x.isSome → (f i x).isSome) := by
  induction l generalizing f with
  | nil => simp
  | cons y l ih =>
    obtain ⟨hle, heq⟩ := ih (f := fun i => f (i + 1)) fun i => hf (i + 1)
    have hfirst := hf 0 y
    simp only [List.mapIdx_cons, List.countP_cons]
    refine ⟨by split <;> split <;> first | omega | simp_all, fun h i x hi hx => ?_⟩
    cases i with
    | zero =>
      simp only [List.getElem?_cons_zero, Option.some.injEq] at hi
      subst hi
      by_contra hn
      simp only [hn, hx] at h
      simp at h
      omega
    | succ i =>
      refine heq ?_ i x (by simpa using hi) hx
      split at h <;> split at h <;> first | omega | simp_all

namespace Store

variable {s t u : Store} {roots : List ObjectId} {o p : ObjectId}

/-- A root, or inside an object that can be reached. -/
inductive Reach (s : Store) (roots : List ObjectId) : ObjectId → Prop
  | root {o : ObjectId} (h : o ∈ roots) : Reach s roots o
  | inside {c o : ObjectId} (hc : Reach s roots c) (h : o ∈ (s.value c).elements) : Reach s roots o

/-- No holder is left: no table, no root, and no object that is not gone itself. -/
inductive Gone (s : Store) (roots : List ObjectId) : ObjectId → Prop
  | intro {o : ObjectId} (hslot : s.slot? o = none) (hroot : o ∉ roots)
      (hinside : ∀ c, s.Has c → o ∈ (s.value c).elements → Gone s roots c) : Gone s roots o

theorem has_of_mem_elements (h : p ∈ (s.value o).elements) : s.Has o := by
  by_contra hn
  rw [value_of_not_has hn] at h
  simp [Value.none, Value.elements] at h

theorem Gone.not_reach (h : s.Gone roots o) : ¬ s.Reach roots o := by
  induction h with
  | intro hslot hroot hinside ih =>
    intro hreach
    cases hreach with
    | root h => exact hroot h
    | inside hc h => exact ih _ (has_of_mem_elements h) h hc

theorem contains_held : (s.held roots).contains o = true ↔ o ∈ roots ∨ o ∈ s.contained := by
  simp [held]

theorem get?_dropUnheld :
    (s.dropUnheld roots).get? o =
      (s.get? o).filter fun x => x.slot.isSome || (s.held roots).contains o := by
  simp only [get?, dropUnheld, Array.getElem?_mapIdx]
  cases s.objects[o]? <;> rfl

/-- Nothing has changed but that objects which are gone may be missing. -/
def Trims (roots : List ObjectId) (s t : Store) : Prop :=
  ∀ o, t.get? o = s.get? o ∨ t.get? o = none ∧ s.Gone roots o

namespace Trims

theorem dropUnheld : Trims roots s (s.dropUnheld roots) := by
  intro o
  rw [get?_dropUnheld]
  cases hx : s.get? o with
  | none => exact .inl rfl
  | some x =>
    by_cases hheld : (x.slot.isSome || (s.held roots).contains o) = true
    · exact .inl (by simp [Option.filter, hheld])
    · refine .inr ⟨by simp [Option.filter, hheld], ?_⟩
      simp only [Bool.or_eq_true, contains_held, not_or, mem_contained_iff] at hheld
      obtain ⟨hslot, hroot, hcontained⟩ := hheld
      refine .intro (by simpa [slot?, hx] using hslot) hroot fun c hc hin => ?_
      exact absurd ⟨c, hc, hin⟩ hcontained

theorem has (h : Trims roots s t) (ho : t.Has o) : s.Has o ∧ t.get? o = s.get? o := by
  obtain hsame | ⟨hnone, -⟩ := h o
  · exact ⟨by rwa [Has, ← hsame], hsame⟩
  · simp [Has, hnone] at ho

theorem value (h : Trims roots s t) (ho : t.Has o) : t.value o = s.value o := by
  simp only [Store.value, (h.has ho).2]

theorem gone (h : Trims roots s t) (ho : t.Gone roots o) : s.Gone roots o := by
  induction ho with
  | @intro o hslot hroot hinside ih =>
    obtain hsame | ⟨-, hgone⟩ := h o
    · refine .intro (by rwa [slot?, ← hsame]) hroot fun c hc hin => ?_
      obtain hc' | ⟨-, hgone⟩ := h c
      · have hhas : t.Has c := by rwa [Has, hc']
        exact ih c hhas (by rwa [h.value hhas])
      · exact hgone
    · exact hgone

theorem trans (h : Trims roots s t) (h' : Trims roots t u) : Trims roots s u := by
  intro o
  obtain hsame | ⟨hnone, hgone⟩ := h' o
  · obtain hs | ⟨hnone, hgone⟩ := h o
    · exact .inl (hsame.trans hs)
    · exact .inr ⟨hsame.trans hnone, hgone⟩
  · exact .inr ⟨hnone, h.gone hgone⟩

theorem reapUpTo (n : Nat) : Trims roots s (reapUpTo roots n s) := by
  induction n generalizing s with
  | zero => exact fun _ => .inl rfl
  | succ n ih =>
    simp only [Store.reapUpTo]
    split
    · exact fun _ => .inl rfl
    · exact dropUnheld.trans ih

end Trims

/-- Every object has a holder. -/
def Settled (s : Store) (roots : List ObjectId) : Prop :=
  ∀ o, s.Has o → s.slot? o = none → o ∈ roots ∨ o ∈ s.contained

theorem count_dropUnheld (s : Store) (roots : List ObjectId) :
    (s.dropUnheld roots).count ≤ s.count ∧
      ((s.dropUnheld roots).count = s.count → s.Settled roots) := by
  have hlost := countP_mapIdx_le (l := s.objects.toList)
    (f := fun o x => x.filter fun x => x.slot.isSome || (s.held roots).contains o)
    (fun i x h => by cases x <;> simp_all)
  simp only [count, Store.dropUnheld, ← Array.countP_toList, Array.toList_mapIdx]
  refine ⟨hlost.1, fun h o ho hslot => ?_⟩
  obtain ⟨x, hx⟩ := objects_of_has ho
  have hkept := hlost.2 h o (some x) (by simpa using hx) rfl
  have hslot' : x.slot = none := by simpa [slot?, get?, hx] using hslot
  rw [← contains_held]
  simpa [Option.isSome_filter, hslot'] using hkept

theorem settled_reapUpTo {n : Nat} (h : s.count ≤ n) : (reapUpTo roots n s).Settled roots := by
  induction n generalizing s with
  | zero =>
    intro o ho
    have hnone : s.objects.countP (·.isSome) = 0 := Nat.le_zero.mp h
    obtain ⟨x, hx⟩ := objects_of_has (show s.Has o from ho)
    have := Array.countP_eq_zero.mp hnone (some x) (Array.mem_of_getElem? hx)
    simp at this
  | succ n ih =>
    simp only [reapUpTo]
    obtain ⟨hle, hsettled⟩ := count_dropUnheld s roots
    split
    · next heq => exact hsettled heq
    · exact ih (by omega)

theorem trims_reap {r : List ObjectId} : Trims r s (s.reap r) := .reapUpTo s.count

theorem settled_reap : (s.reap roots).Settled roots := settled_reapUpTo (Nat.le_refl _)

theorem next_reapUpTo {n : Nat} : (reapUpTo roots n s).next = s.next := by
  induction n generalizing s with
  | zero => rfl
  | succ n ih =>
    simp only [reapUpTo]
    split
    · rfl
    · rw [ih]
      simp [next, dropUnheld]

/-- Reaping forgets the objects that are gone. -/
theorem get?_reap_of_gone (h : s.Gone roots o) : (s.reap roots).get? o = none := by
  induction h with
  | @intro o hslot hroot hinside ih =>
    by_contra hn
    have hhas : (s.reap roots).Has o := Option.isSome_iff_ne_none.mpr hn
    have hsame := (trims_reap.has hhas).2
    obtain hin | hin := settled_reap o hhas (by rwa [slot?, hsame])
    · exact hroot hin
    · obtain ⟨c, hc, hin⟩ := mem_contained_iff.mp hin
      rw [trims_reap.value hc] at hin
      have := ih c (trims_reap.has hc).1 hin
      simp [Has, this] at hc

/-- All other objects stay as they are. -/
theorem get?_reap_of_not_gone (h : ¬ s.Gone roots o) : (s.reap roots).get? o = s.get? o :=
  (trims_reap o).resolve_right fun h' => h h'.2

end Store
end Scripting
