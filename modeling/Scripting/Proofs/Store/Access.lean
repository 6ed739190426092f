import Mathlib.Tactic.Common
import Scripting.Heap

/-! What each change of a store does to each of its objects. -/
namespace Scripting.Store

variable {s : Store} {o p : ObjectId} {x : Object} {f : Object → Object} {v : Value}

/-- The object is there: it was made and is not gone. -/
def Has (s : Store) (o : ObjectId) : Prop := (s.get? o).isSome

instance : Decidable (s.Has o) := inferInstanceAs (Decidable ((s.get? o).isSome = true))

@[simp] theorem next_push : (s.push x).next = s.next + 1 := by simp [next, push]

@[simp] theorem next_modify : (s.modify o f).next = s.next := by simp [next, modify]

theorem get?_push : (s.push x).get? p = if p = s.next then some x else s.get? p := by
  simp only [get?, push, next, Array.getElem?_push]
  by_cases hp : p = s.objects.size <;> simp [hp]

theorem get?_modify : (s.modify o f).get? p = if p = o then (s.get? p).map f else s.get? p := by
  simp only [get?, modify, Array.getElem?_modify, eq_comm (a := o)]
  split
  · cases s.objects[p]? <;> rfl
  · rfl

theorem get?_of_next_le (h : s.next ≤ o) : s.get? o = none := by
  simp [get?, Array.getElem?_eq_none (show s.objects.size ≤ o from h)]

theorem Has.lt_next (h : s.Has o) : o < s.next := by
  by_contra hn
  simp [Has, get?_of_next_le (Nat.le_of_not_lt hn)] at h

theorem value_of_next_le (h : s.next ≤ o) : s.value o = .none := by
  simp [value, get?_of_next_le h]

theorem value_of_not_has (h : ¬ s.Has o) : s.value o = .none := by
  have hget : s.get? o = none := by simpa [Has] using h
  simp [value, hget]

theorem has_of_value_vector {es : Array ObjectId} (h : s.value o = .vector es) : s.Has o := by
  by_contra hn
  rw [value_of_not_has hn] at h
  cases h

theorem value_push : (s.push x).value p = if p = s.next then x.value else s.value p := by
  simp only [value, get?_push]
  split <;> rfl

theorem bindings_push :
    (s.push x).bindings p = if p = s.next then x.bindings else s.bindings p := by
  simp only [bindings, get?_push]
  split <;> rfl

theorem has_push : (s.push x).Has p ↔ p = s.next ∨ s.Has p := by
  simp only [Has, get?_push]
  split <;> simp_all

theorem has_modify : (s.modify o f).Has p ↔ s.Has p := by
  simp only [Has, get?_modify]
  split <;> simp

/-- A change that keeps the value of the object it changes keeps all values. -/
theorem value_modify (hf : ∀ x, (f x).value = x.value) : (s.modify o f).value p = s.value p := by
  simp only [value, get?_modify]
  split
  · cases s.get? p <;> simp [hf]
  · rfl

/-- A change that keeps the count of the object it changes keeps all counts. -/
theorem bindings_modify (hf : ∀ x, (f x).bindings = x.bindings) :
    (s.modify o f).bindings p = s.bindings p := by
  simp only [bindings, get?_modify]
  split
  · cases s.get? p <;> simp [hf]
  · rfl

@[simp] theorem next_setValue : (s.setValue o v).next = s.next := next_modify

@[simp] theorem next_retain : (s.retain o).next = s.next := next_modify

@[simp] theorem next_release : (s.release o).next = s.next := next_modify

@[simp] theorem value_retain : (s.retain o).value p = s.value p := value_modify fun _ => rfl

@[simp] theorem value_release : (s.release o).value p = s.value p := value_modify fun _ => rfl

@[simp] theorem value_setSlot {slot : Option Nat} : (s.setSlot o slot).value p = s.value p :=
  value_modify fun _ => rfl

@[simp] theorem bindings_setValue : (s.setValue o v).bindings p = s.bindings p :=
  bindings_modify fun _ => rfl

@[simp] theorem bindings_setSlot {slot : Option Nat} :
    (s.setSlot o slot).bindings p = s.bindings p := bindings_modify fun _ => rfl

@[simp] theorem has_setValue : (s.setValue o v).Has p ↔ s.Has p := has_modify

@[simp] theorem has_retain : (s.retain o).Has p ↔ s.Has p := has_modify

@[simp] theorem has_release : (s.release o).Has p ↔ s.Has p := has_modify

@[simp] theorem has_setSlot {slot : Option Nat} : (s.setSlot o slot).Has p ↔ s.Has p := has_modify

theorem value_setValue :
    (s.setValue o v).value p = if p = o ∧ s.Has o then v else s.value p := by
  by_cases hp : p = o
  · subst hp
    by_cases h : s.Has p
    · obtain ⟨x, hx⟩ := Option.isSome_iff_exists.mp h
      simp [value, setValue, get?_modify, hx, h]
    · have hx : s.get? p = none := by simpa [Has] using h
      simp [value, setValue, get?_modify, hx, h]
  · simp [value, setValue, get?_modify, hp]

theorem bindings_retain (h : s.Has o) :
    (s.retain o).bindings p = s.bindings p + if p = o then 1 else 0 := by
  simp only [bindings, retain, get?_modify]
  by_cases hp : p = o
  · subst hp
    obtain ⟨x, hx⟩ := Option.isSome_iff_exists.mp h
    simp [hx]
  · simp [hp]

theorem bindings_release :
    (s.release o).bindings p = s.bindings p - if p = o then 1 else 0 := by
  simp only [bindings, release, get?_modify]
  by_cases hp : p = o
  · subst hp
    cases s.get? p <;> simp
  · simp [hp]

/-- The object stands for a declared function. -/
def IsFunction (s : Store) (o : ObjectId) : Prop := ∃ d, s.value o = .atom (.function d)

theorem IsFunction.has (h : s.IsFunction o) : s.Has o := by
  obtain ⟨d, hd⟩ := h
  by_contra hn
  rw [value_of_not_has hn] at hd
  cases hd

end Scripting.Store
