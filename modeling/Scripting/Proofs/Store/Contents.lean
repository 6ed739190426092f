import Mathlib.Tactic.Common
import Scripting.Proofs.Store.Access

/-! The objects inside other objects, counted. -/
namespace Scripting

/-- A change of one entry changes a count by what the entry adds and takes. -/
theorem count_flatMap_modify {α : Type} {xs : Array α} {i : Nat} {x : α} (f : α → List ObjectId)
    (g : α → α) (q : ObjectId) (hx : xs[i]? = some x) :
    ((xs.modify i g).toList.flatMap f).count q + (f x).count q =
      (xs.toList.flatMap f).count q + (f (g x)).count q := by
  have hlist : ∀ (l : List α) (i : Nat), l[i]? = some x →
      ((l.modify i g).flatMap f).count q + (f x).count q =
        (l.flatMap f).count q + (f (g x)).count q := by
    intro l
    induction l with
    | nil => simp
    | cons y l ih =>
      intro i hi
      cases i with
      | zero =>
        simp only [List.getElem?_cons_zero, Option.some.injEq] at hi
        subst hi
        simp only [List.modify_zero_cons, List.flatMap_cons, List.count_append]
        omega
      | succ i =>
        have := ih i (by simpa using hi)
        simp only [List.modify_succ_cons, List.flatMap_cons, List.count_append]
        omega
  rw [Array.toList_modify]
  exact hlist xs.toList i (by simpa using hx)

theorem modify_of_getElem?_eq_none {α : Type} {xs : Array α} {i : Nat} {g : α → α}
    (h : xs[i]? = none) : xs.modify i g = xs := by
  have hi := Array.getElem?_eq_none_iff.mp h
  ext j hj hj' : 1
  · simp
  · simp [Array.getElem_modify, show i ≠ j by omega]

theorem count_flatMap_modify_le {α : Type} {l : Array α} {i k : Nat} {f : α → List ObjectId}
    {g : α → α} {q : ObjectId} (hg : ∀ x, (f (g x)).count q ≤ (f x).count q + k) :
    ((l.modify i g).toList.flatMap f).count q ≤ (l.toList.flatMap f).count q + k := by
  cases hx : l[i]? with
  | none =>
    rw [modify_of_getElem?_eq_none hx]
    omega
  | some x =>
    have := count_flatMap_modify f g q hx
    have := hg x
    omega

namespace Store

variable {s : Store} {o p q : ObjectId} {v : Value} {x : Object} {f : Object → Object}

/-- The objects inside an entry of the store. -/
def inside (x : Option Object) : List ObjectId := (x.map (·.value.elements.toList)).getD []

theorem contained_push : (s.push x).contained = s.contained ++ x.value.elements.toList := by
  simp [contained, push]

theorem contained_eq : s.contained = s.objects.toList.flatMap inside := rfl

/-- A change that keeps the value of the object it changes. -/
theorem contained_modify (hf : ∀ x, (f x).value = x.value) :
    (s.modify o f).contained = s.contained := by
  have hinside : ∀ x : Option Object, inside (x.map f) = inside x := by
    intro x
    cases x <;> simp [inside, hf]
  have hmap : (s.objects.modify o (·.map f)).map inside = s.objects.map inside := by
    ext j hj hj' : 1
    · simp
    · simp only [Array.getElem_map, Array.getElem_modify]
      split
      · exact hinside _
      · rfl
  have hlist := congrArg Array.toList hmap
  simp only [Array.toList_map] at hlist
  rw [contained_eq, contained_eq, List.flatMap_def, List.flatMap_def]
  exact congrArg List.flatten hlist

@[simp] theorem contained_retain : (s.retain o).contained = s.contained :=
  contained_modify fun _ => rfl

@[simp] theorem contained_release : (s.release o).contained = s.contained :=
  contained_modify fun _ => rfl

theorem contained_foldl_release {os : List ObjectId} :
    (os.foldl Store.release s).contained = s.contained := by
  induction os generalizing s with
  | nil => rfl
  | cons o os ih => rw [List.foldl_cons, ih, contained_release]

theorem objects_of_has (h : s.Has o) : ∃ x, s.objects[o]? = some (some x) := by
  obtain ⟨x, hx⟩ := Option.isSome_iff_exists.mp h
  exact ⟨x, Option.join_eq_some_iff.mp hx⟩

theorem count_contained_setValue (h : s.Has o) :
    (s.setValue o v).contained.count q + (s.value o).elements.toList.count q =
      s.contained.count q + v.elements.toList.count q := by
  obtain ⟨x, hx⟩ := objects_of_has h
  have := count_flatMap_modify inside (·.map ({ · with value := v })) q hx
  have hvalue : s.value o = x.value := by simp [value, get?, hx]
  simpa [contained_eq, setValue, modify, inside, hvalue] using this

theorem mem_contained_iff : q ∈ s.contained ↔ ∃ c, s.Has c ∧ q ∈ (s.value c).elements := by
  constructor
  · intro h
    obtain ⟨entry, hentry, hq⟩ := List.mem_flatMap.mp h
    obtain ⟨c, hc⟩ := List.mem_iff_getElem?.mp hentry
    cases entry with
    | none => simp at hq
    | some x =>
      have hget : s.get? c = some x := by
        simp only [Array.getElem?_toList] at hc
        simp [get?, hc]
      exact ⟨c, by simp [Has, hget], by simpa [value, hget] using hq⟩
  · rintro ⟨c, hc, hq⟩
    obtain ⟨x, hx⟩ := objects_of_has hc
    refine List.mem_flatMap.mpr ⟨some x, List.mem_iff_getElem?.mpr ⟨c, by simpa using hx⟩, ?_⟩
    simpa [value, get?, hx] using hq

end Store
end Scripting
