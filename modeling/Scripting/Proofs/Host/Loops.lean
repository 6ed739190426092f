import Mathlib.Logic.Relation
import Mathlib.Tactic.Common
import Scripting.Proofs.Eval.Memo
import Scripting.Proofs.Eval.Traversal
import Scripting.Proofs.Host.Reached

/-! Loops in any state that a script gets into: which items a loop goes through, how often its body
runs, and what its value is. -/
namespace Scripting

open Relation Eval

/-! ### The stacks of a loop -/

theorem Environment.WellNested.floored {e : Environment} (h : e.WellNested) : e.Floored := by
  unfold Environment.Floored Environment.loopFloor
  cases hf : e.frames.back? with
  | none => exact Nat.zero_le _
  | some f =>
    rw [Array.back?_eq_getElem?] at hf
    exact h.frameLoops _ f hf

namespace Eval

variable {s s₁ s₂ u v : State} {fuel : Nat} {iterator iterable body : Node}
  {ts : List Tree} {k : Nat} {o : ObjectId} {span : Option Span}

/-- Begins a loop, and finds the place that its iterator has for all items. -/
def beginLoop (iterator body : Node) : Eval (Option Place) := do
  openLoop body.statements
  freshIterator iterator

/-- A loop, given what goes through its items. -/
def around (iterator body : Node) (x : Option Place → Eval Unit) : Eval ObjectId := do
  let fresh ← beginLoop iterator body
  x fresh
  closeLoop

theorem parallel_beginLoop (iterator body : Node) {R : Pairing} : Parallel (fun _ => True) R
    (beginLoop iterator body) (beginLoop iterator body) (fun _ a b => a = b ∧ Steady a) :=
  (Parallel.openLoop fun _ _ _ _ => trivial).bind fun _ _ _ _ _ => .freshIterator

end Eval

theorem State.Proper.noted {s : State} (h : s.Proper) (log : Array LogEvent) :
    ({ s with log } : State).Proper where
  sound := ⟨h.sound.held, h.sound.memo, h.sound.exact⟩
  unshared := ⟨h.unshared.single, h.unshared.memo, h.unshared.plain⟩
  mirrored := by
    obtain ⟨R, hR⟩ := h.mirrored
    exact ⟨R, hR.change .refl hR.store hR.env rfl rfl⟩
  rooted := h.rooted
  nested := h.nested
  builtins := h.builtins

/-- An object that has just been found: what is inside it is out of reach of all that will be
evaluated. -/
theorem State.Proper.found {s s₁ : State} {fuel : Nat} {n : Node} {o : ObjectId} (h : s.Proper)
    (ho : node fuel n s = .ok o s₁) :
    (s₁.env.Rooted ∧ s₁.env.WellNested) ∧ ∃ R S, s₁.Renamed (fun _ => True) S s₁ ∧ S o o ∧
      ∀ es, s₁.heap.store.value o = .vector es →
        Private (fun _ => True) R S s₁ s₁ es.toList es.toList := by
  obtain ⟨R, hR⟩ := h.mirrored
  have hended := mirrored_node (fun _ _ _ _ => trivial) fuel R n (fun _ _ => trivial) s s hR
  rw [ho] at hended
  obtain ⟨S, -, hS, hoo⟩ := hended
  have hlands := evaluates_node fuel n s [] h.sound
  rw [ho] at hlands
  obtain ⟨U, hsteps, rfl⟩ := hlands
  have hunshared : Config.Unshared ⟨s₁, [o]⟩ := h.unshared.steps h.sound hsteps
  have hkeeps := (follows_node (W := .rootedness) fuel n s).keeps h.rooted ho
  refine ⟨⟨hkeeps.balanced.toExtends.rooted h.rooted, hkeeps.balanced.wellNested h.nested⟩,
    S.among (s₁.heap.store.Reach s₁.roots) (s₁.heap.store.Reach s₁.roots), S, hS, hoo,
      fun es hes => ?_⟩
  have hapart : ∀ e ∈ es.toList, ∀ q, ReflTransGen s₁.heap.store.Contains e q →
      s₁.heap.store.Reach s₁.roots q → s₁.heap.store.IsFunction q := by
    intro e he q hq hreach
    have hin : s₁.heap.store.Contains o e := by
      rw [Store.Contains, hes]
      simpa [Value.elements] using he
    exact hunshared.not_reach (.head hin hq) hreach
  exact {
    le := fun _ _ hpair => hpair.1
    base := hS.undisturbed (.of_store rfl rfl) (.of_store rfl rfl)
    all := hS
    pairs := by
      have hvalue := (hS.store.value hoo).elements
      rwa [hes] at hvalue
    left := by
      rintro e he q hq ⟨r, hpair⟩
      exact hapart e he q hq hpair.2.1
    right := by
      rintro e he q hq ⟨r, hpair⟩
      exact hapart e he q hq hpair.2.2 }

namespace Eval

variable {s₁ : State} {fuel : Nat} {iterator iterable body : Node} {o : ObjectId} {ts : List Tree}
  {R S : Pairing}

theorem stepping_iterate {fresh : Option Place} (h : Steady fresh) :
    Parallel.Stepping (fun _ => True) (iterate (node fuel) iterator body fresh) :=
  fun _ _ _ _ _ _ hitem =>
    hitem.iterate (mirrored_node (fun _ _ _ _ => trivial) fuel) (fun _ _ => trivial)
      (fun _ _ _ _ => trivial) h

/-- A loop from where its iterable has been found. -/
def loopFrom (ev : Node → Eval ObjectId) (iterator iterable body : Node) (o : ObjectId) :
    Eval ObjectId := do
  let items ← itemsOf o iterable.span
  openLoop body.statements
  let fresh ← freshIterator iterator
  match items with
  | .range r => forRange (iterate ev iterator body fresh) r.length r.start.toInt
  | .elements os => forElements (iterate ev iterator body fresh) os
  closeLoop

theorem loopFrom_range {ev : Node → Eval ObjectId} {r : IntRange}
    (h : s₁.heap.store.value o = .atom (.range r)) :
    loopFrom ev iterator iterable body o s₁ = around iterator body (fun fresh =>
      forRange (iterate ev iterator body fresh) r.length r.start.toInt) s₁ := by
  have hitems : itemsOf o iterable.span s₁ = .ok (.range r) s₁ := by
    simp only [itemsOf, Bind.bind, EStateM.bind, valueOf, Eval.read, h]
    rfl
  rw [loopFrom, bind_ok hitems, around, beginLoop, bind_assoc]

theorem loopFrom_vector {ev : Node → Eval ObjectId} {es : Array ObjectId}
    (h : s₁.heap.store.value o = .vector es) :
    loopFrom ev iterator iterable body o s₁ = around iterator body (fun fresh =>
      forElements (iterate ev iterator body fresh) es.toList) s₁ := by
  have hitems : itemsOf o iterable.span s₁ = .ok (.elements es.toList) s₁ := by
    simp only [itemsOf, Bind.bind, EStateM.bind, valueOf, Eval.read, h]
    rfl
  rw [loopFrom, bind_ok hitems, around, beginLoop, bind_assoc]

end Eval

end Scripting
