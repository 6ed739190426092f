import Mathlib.Logic.Relation
import Mathlib.Tactic.Common
import Scripting.Proofs.Eval.Places
import Scripting.Proofs.Host.ValueSemantics
import Scripting.Proofs.Renaming.Requests
import Scripting.Proofs.Store.Copies

/-! Loops as loops over trees. The elements of the vector that a loop goes through are private to
the loop, so their copies are what the elements were when the loop began, whatever has been
evaluated in between. -/
namespace Scripting

open Relation

/-! ### What is held by the evaluation alone -/

/-- What the evaluation alone holds is out of reach of the stacks, but for functions. -/
theorem Config.Unshared.not_reach {s : State} {o q : ObjectId} {T : List ObjectId}
    (h : Config.Unshared ⟨s, o :: T⟩) (hq : ReflTransGen s.heap.store.Contains o q)
    (hreach : s.heap.store.Reach s.roots q) : s.heap.store.IsFunction q := by
  by_contra hfun
  have hone : ∀ {a : ObjectId}, ¬ s.heap.store.IsFunction a →
      (o :: T).count a + s.env.slots.count a + s.env.parked.count a +
        s.heap.store.contained.count a ≤ 1 := by
    intro a ha
    rw [← Config.count_holdings]
    exact (h.single a).resolve_right ha
  have hroot : ∀ {a : ObjectId}, ¬ s.heap.store.IsFunction a → a ∈ s.roots →
      0 < s.env.slots.count a + s.env.parked.count a := by
    intro a ha hin
    rcases List.mem_append.mp hin with hin | hin
    · rw [← Environment.count_roots]
      exact List.count_pos_iff.mpr hin
    · obtain ⟨x, hx, rfl⟩ := List.mem_map.mp hin
      exact absurd (h.memo x hx) ha
  have hcontained : ∀ {a b : ObjectId}, b ∈ (s.heap.store.value a).elements →
      0 < s.heap.store.contained.count b := fun hb =>
    List.count_pos_iff.mpr (Store.mem_contained_iff.mpr ⟨_, Store.has_of_mem_elements hb, hb⟩)
  -- from the end of the path back: the last holder is the same on the way from the roots
  induction hq with
  | refl =>
    have hsum := hone hfun
    have htemp : 0 < (o :: T).count o := List.count_pos_iff.mpr List.mem_cons_self
    cases hreach with
    | root hin =>
      have := hroot hfun hin
      omega
    | inside hc hin =>
      have := hcontained hin
      omega
  | @tail c q _ hstep ih =>
    have hsum := hone hfun
    have hinside := hcontained hstep
    cases hreach with
    | root hin =>
      have := hroot hfun hin
      omega
    | @inside c' _ hc' hin =>
      obtain ⟨i, hi⟩ := Array.mem_iff_getElem?.mp hstep
      obtain ⟨j, hj⟩ := Array.mem_iff_getElem?.mp hin
      obtain ⟨rfl, -⟩ := Store.element_unique (by omega) hi hj
      exact ih hc' (Store.not_isFunction_of_element hi)

/-- Whatever does not know an object leaves its tree alone. -/
theorem Store.Apart.tree? {s t : Store} {known : ObjectId → Prop} {o : ObjectId} {x : Tree}
    (h : s.Apart known o) (hclosed : s.Closed) (ho : s.Has o) (hgrow : s.Grows known t)
    (hx : s.tree? o = some x) : t.tree? o = some x := by
  refine Store.tree?_of_kept hgrow.next (fun q hq => ?_) hx
  have hhas : s.Has q := by
    clear hx
    induction hq with
    | refl => exact ho
    | tail _ hstep _ => exact hclosed _ _ hstep
  by_cases hknown : known q
  · obtain ⟨d, hd⟩ := h q hq hknown
    exact (hgrow.atom hhas hd).trans hd.symm
  · exact hgrow.kept hhas hknown

namespace Eval

variable {α : Type} {D : Decl → Prop} {R S : Pairing} {s s' : State} {os : List ObjectId}
  {o : ObjectId} {span : Option Span} {ts : List Tree} {step : ObjectId → Eval Bool}

/-- The trees of some objects. -/
def Unfolds (s : State) (os : List ObjectId) (ts : List Tree) : Prop :=
  List.Forall₂ (fun o t => s.heap.store.tree? o = some t) os ts

namespace Private

theorem tail {o : ObjectId} (h : Private D R S s s (o :: os) (o :: os)) :
    Private D R S s s os os where
  le := h.le
  base := h.base
  all := h.all
  pairs := (List.forall₂_cons.mp h.pairs).2
  left := fun p hp => h.left p (List.mem_cons_of_mem o hp)
  right := fun p hp => h.right p (List.mem_cons_of_mem o hp)

/-- What is inside a private vector is private. -/
theorem inside {t : State} {p : ObjectId} {es fs : Array ObjectId} (h : Private D R S s t [o] [p])
    (ho : s.heap.store.value o = .vector es)
    (hp : t.heap.store.value p = .vector fs) : Private D R S s t es.toList fs.toList where
  le := h.le
  base := h.base
  all := h.all
  pairs := by
    have hvalue := (h.all.store.value (List.forall₂_cons.mp h.pairs).1).elements
    rwa [ho, hp] at hvalue
  left := by
    intro e he q hq
    refine h.left o List.mem_cons_self q (.head ?_ hq)
    rw [Store.Contains, ho]
    exact Array.mem_toList_iff.mp he
  right := by
    intro e he q hq
    refine h.right p List.mem_cons_self q (.head ?_ hq)
    rw [Store.Contains, hp]
    exact Array.mem_toList_iff.mp he

theorem tree? {x : Tree} (h : Private D R S s s os os) (ho : o ∈ os)
    (hgrow : s.heap.store.Grows (fun o => ∃ p, R o p) s'.heap.store)
    (hx : s.heap.store.tree? o = some x) : s'.heap.store.tree? o = some x := by
  obtain ⟨p, -, hop⟩ := exists_of_forall₂_left h.pairs ho
  exact (h.left o ho).tree? h.all.store.left.closed (h.all.store.has hop).1 hgrow hx

theorem unfolds (h : Private D R S s s os os)
    (hgrow : s.heap.store.Grows (fun o => ∃ p, R o p) s'.heap.store) (hts : Unfolds s os ts) :
    Unfolds s' os ts := by
  induction hts with
  | nil => exact .nil
  | cons hx _ ih => exact .cons (h.tree? List.mem_cons_self hgrow hx) (ih h.tail)

/-- What is private to an evaluation stays so, and stays as it is, while others run. -/
theorem onward {x : Eval α} {a : α} {Q : Pairing → α → α → Prop} (h : Private D R S s s os os)
    (hx : Ended D R s s Q (x s) (x s)) (hxs : x s = .ok a s') (hts : Unfolds s os ts) :
    ∃ R' S', Private D R' S' s' s' os os ∧ Unfolds s' os ts ∧ Q R' a a := by
  rw [hxs] at hx
  obtain ⟨R', hgrow, hst, hQ⟩ := hx
  exact ⟨R', S ⊔ R', h.carry hgrow hst, h.unfolds hgrow.left hts, hQ⟩

end Private

/-! ### Loops over trees -/

/-- Goes through trees, each built when its turn comes. -/
def forTrees (step : ObjectId → Eval Bool) : List Tree → Eval Unit
  | [] => pure ()
  | t :: ts => do
    let item ← build t
    if ← step item then forTrees step ts else pure ()

theorem forRange_eq (step : ObjectId → Eval Bool) (n : Nat) (i : Int) :
    forRange step n i = forTrees step
      ((List.range n).map fun (k : Nat) => .atom (.int (.ofInt (i + k)))) := by
  induction n generalizing i with
  | zero => rfl
  | succ n ih =>
    have hfirst : i + ((0 : Nat) : Int) = i := by omega
    have hrest : ∀ k : Nat, i + 1 + k = i + ((k + 1 : Nat) : Int) := by omega
    rw [List.range_succ_eq_map, List.map_cons, List.map_map, hfirst]
    simp only [forRange, forTrees, ih, hrest, Function.comp_def, Nat.succ_eq_add_one]
    rfl

theorem copy_eq {x : Tree} (hx : s.heap.store.tree? o = some x) : copy o s = build x s := by
  rw [copy, bind_ok (treeOf_eq hx)]

/-- Private objects are gone through as the trees that they were when the loop began. -/
theorem forElements_eq (hstep : Parallel.Stepping D step) (h : Private D R S s s os os)
    (hts : Unfolds s os ts) : forElements step os s = forTrees step ts s := by
  induction os generalizing ts R S s with
  | nil =>
    cases hts
    rfl
  | cons o os ih =>
    cases hts with
    | @cons _ x _ ts hx hrest =>
    simp only [forElements, forTrees]
    refine bind_congr_of_ok (copy_eq hx) fun c s₁ hs₁ => ?_
    obtain ⟨x', hx', -, hallowed⟩ := h.all.store.exists_tree (List.forall₂_cons.mp h.pairs).1
    rw [hx] at hx'
    cases hx'
    obtain ⟨_, _, S₁, _, _, hs, ht, hgrow, hitem⟩ := build_private h.base hallowed
    rw [hs₁] at hs ht
    cases hs
    cases ht
    have hos₁ := h.tail.carry hgrow hitem.all
    have hts₁ := h.tail.unfolds hgrow.left hrest
    refine bind_congr_of_ok rfl fun goesOn s₂ hs₂ => ?_
    cases goesOn with
    | false => rfl
    | true =>
      obtain ⟨R₂, S₂, hos₂, hts₂, -⟩ := hos₁.onward (hstep _ _ _ _ _ _ hitem) hs₂ hts₁
      exact ih hos₂ hts₂

end Eval
end Scripting
