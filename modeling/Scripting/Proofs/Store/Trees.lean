import Mathlib.Tactic.Common
import Scripting.Arithmetic
import Scripting.Proofs.Store.Access

/-! Trees read from a store and built in it, atom by atom. -/
namespace Scripting

/-- The atoms that operators make, none of which can be called. -/
def Atom.IsData : Atom → Prop
  | .function _ | .builtin _ => False
  | _ => True

theorem Atom.isData_compute {op : BinaryOp} {l r a : Atom} {span : Option Span}
    (h : Atom.compute op l r span = .ok a) : a.IsData := by
  have hmap : ∀ {β : Type} {x : Except Error β} {f : β → Atom}, x.map f = .ok a →
      (∀ b, (f b).IsData) → a.IsData := by
    intro β x f hx hf
    cases x with
    | error e => cases hx
    | ok b =>
      cases hx
      exact hf b
  unfold Atom.compute at h
  split at h
  · exact hmap h fun _ => trivial
  · exact hmap h fun _ => trivial
  · exact hmap h fun _ => trivial
  · exact hmap h fun _ => trivial
  · split at h
    · exact hmap h fun _ => trivial
    · cases h
  · split at h
    · exact hmap h fun _ => trivial
    · cases h
  · split at h <;> cases h
    trivial
  · split at h <;> cases h <;> trivial
  · split at h <;> cases h

theorem Value.eq_vector_of_kind {v : Value} (h : v.kind = .vector) : v = .vector v.elements := by
  cases v with
  | atom a => cases a <;> cases h
  | tuple => cases h
  | vector => rfl

namespace Tree

mutual

/-- Every atom of a tree satisfies the predicate. -/
def Every (P : Atom → Prop) : Tree → Prop
  | .atom a => P a
  | .tuple ts | .vector ts => EveryOf P ts

def EveryOf (P : Atom → Prop) : List Tree → Prop
  | [] => True
  | t :: ts => Every P t ∧ EveryOf P ts

end

theorem everyOf_iff {P : Atom → Prop} {ts : List Tree} : EveryOf P ts ↔ ∀ t ∈ ts, t.Every P := by
  induction ts with
  | nil => simp [EveryOf]
  | cons t ts ih => simp [EveryOf, ih]

mutual

theorem Every.imp {P Q : Atom → Prop} (h : ∀ a, P a → Q a) : (t : Tree) → t.Every P → t.Every Q
  | .atom a, ht => h a ht
  | .tuple ts, ht | .vector ts, ht => EveryOf.imp h ts ht

theorem EveryOf.imp {P Q : Atom → Prop} (h : ∀ a, P a → Q a) :
    (ts : List Tree) → EveryOf P ts → EveryOf Q ts
  | [], _ => trivial
  | t :: ts, ht => ⟨Every.imp h t ht.1, EveryOf.imp h ts ht.2⟩

end

end Tree

namespace Store

variable {s : Store} {G : ObjectId → Prop} {P : Atom → Prop} {o : ObjectId} {t : Tree}

theorem everyOf_of_mapM {f : ObjectId → Option Tree} {os : List ObjectId} {ts : List Tree}
    (h : os.mapM f = some ts) (hf : ∀ o ∈ os, ∀ t, f o = some t → t.Every P) :
    Tree.EveryOf P ts := by
  induction os generalizing ts with
  | nil =>
    simp at h
    simp [h, Tree.EveryOf]
  | cons o os ih =>
    simp only [List.mapM_cons, Option.bind_eq_bind, Option.bind_eq_some_iff, Option.pure_def,
      Option.some.injEq] at h
    obtain ⟨t, ht, us, hus, rfl⟩ := h
    exact ⟨hf o (by simp) t ht, ih hus fun p hp => hf p (by simp [hp])⟩

/-- The tree of an object has only atoms of objects inside it. -/
theorem every_of_unfold {depth : Nat} (hG : ∀ o, G o → ∀ p ∈ (s.value o).elements, G p)
    (hP : ∀ o a, G o → s.value o = .atom a → P a) (ho : G o) (h : s.unfold depth o = some t) :
    t.Every P := by
  induction depth generalizing o t with
  | zero => simp [unfold] at h
  | succ depth ih =>
    have hin := hG o ho
    have hat := fun a => hP o a ho
    simp only [unfold] at h
    cases hv : s.value o with
    | atom a =>
      simp only [hv, Option.some.injEq] at h
      subst h
      exact hat a hv
    | tuple es | vector es =>
      simp only [hv, Option.map_eq_some_iff] at h
      obtain ⟨ts, hts, rfl⟩ := h
      refine everyOf_of_mapM hts fun p hp t ht => ih (hin p ?_) ht
      simpa [hv, Value.elements] using hp

end Store

namespace Heap

variable {M : Heap → Prop} {R : ObjectId → Prop} {P : Atom → Prop}

mutual

/-- What every allocation keeps, building a tree keeps. -/
theorem build_induct
    (step : ∀ h v, M h → (∀ e ∈ v.elements, R e) → (∀ a, v = .atom a → P a) →
      M (h.alloc v).2 ∧ R (h.alloc v).1)
    (h : Heap) (t : Tree) (hM : M h) (ht : t.Every P) : M (h.build t).2 ∧ R (h.build t).1 := by
  cases t with
  | atom a =>
    refine step h (.atom a) hM (by simp [Value.elements]) fun b hb => ?_
    cases hb
    exact ht
  | tuple ts =>
    obtain ⟨hm, hr⟩ := buildAll_induct step h #[] ts hM ht (by simp)
    exact step _ (.tuple _) hm hr (by simp)
  | vector ts =>
    obtain ⟨hm, hr⟩ := buildAll_induct step h #[] ts hM ht (by simp)
    exact step _ (.vector _) hm hr (by simp)

theorem buildAll_induct
    (step : ∀ h v, M h → (∀ e ∈ v.elements, R e) → (∀ a, v = .atom a → P a) →
      M (h.alloc v).2 ∧ R (h.alloc v).1)
    (h : Heap) (done : Array ObjectId) (ts : List Tree) (hM : M h) (ht : Tree.EveryOf P ts)
    (hd : ∀ e ∈ done, R e) :
    M (h.buildAll done ts).2 ∧ ∀ e ∈ (h.buildAll done ts).1, R e := by
  cases ts with
  | nil => exact ⟨hM, hd⟩
  | cons t ts =>
    obtain ⟨hm, hr⟩ := build_induct step h t hM ht.1
    refine buildAll_induct step _ _ ts hm ht.2 fun e he => ?_
    obtain he | rfl := Array.mem_push.mp he
    · exact hd e he
    · exact hr

end

end Heap
end Scripting
