import Mathlib.Tactic.Common
import Scripting.Proofs.Eval.Recording
import Scripting.Proofs.Renaming.Snapshots

/-! The turns of a loop. Before each run of the body the iterator has the next item, as a new object
with the tree that the item had when the loop began. A turn in which no way out is taken is followed
by the next one, and one in which a way out is taken is the last. -/
namespace Scripting

namespace Eval

/-- Whether the running loop was left; no loop at all counts as left. -/
def broken (s : State) : Bool := (s.env.currentLoop?.map (·.isBroken)).getD true

/-- What a turn does before the body: it finds the iterator's place and puts the item there. -/
def aim (ev : Node → Eval ObjectId) (iterator body : Node) (fresh : Option Place)
    (item : ObjectId) : Eval Place := do
  checkInterrupt body.span
  let p ←
    match fresh with
    | some p => pure p
    | none => place ev iterator
  store p item iterator.span
  pure p

end Eval

/-- What a turn does before the body, with a record. -/
def Recorded.aim (ev : Node → Recorded ObjectId) (iterator body : Node) (fresh : Option Place)
    (item : ObjectId) : Recorded Place := do
  Eval.checkInterrupt body.span
  let p ←
    match fresh with
    | some p => pure p
    | none => place ev iterator
  Eval.store p item iterator.span
  pure p

/-- A turn for an item with the given tree, with a record of the ways out. -/
def Recorded.turn (fuel : Nat) (iterator body : Node) (fresh : Option Place) (t : Tree) :
    Recorded ObjectId := do
  let item ← Eval.build t
  let _ ← aim (node fuel) iterator body fresh item
  statements (node fuel) body.statements

theorem Records.turn {fuel : Nat} {iterator body : Node} {fresh : Option Place} {t : Tree} :
    Records (Recorded.turn fuel iterator body fresh t) (do
      let item ← Eval.build t
      let _ ← Eval.aim (Eval.node fuel) iterator body fresh item
      Eval.statements (Eval.node fuel) body.statements) := by
  refine look .build fun item => ?_
  refine bind ?_ fun _ => statements (node fuel) body.statements
  refine look .checkInterrupt fun _ => ?_
  cases fresh with
  | some p => exact (pure (a := p)).bind fun _ => after .store fun _ => pure
  | none => exact (place (node fuel) iterator).bind fun _ => after .store fun _ => pure

namespace Eval

section

variable (fuel : Nat) (iterator body : Node) (fresh : Option Place)

end

variable {iterator body : Node} {fresh : Option Place} {fuel : Nat}
  {s u v : State} {ts : List Tree} {p : Place} {item o : ObjectId} {k : Nat} {span : Option Span}
  {D : Decl → Prop} {R S : Pairing} {exits : List Exit}

/-! ### The marks of the running loop -/

/-- A loop is running, marked by these ways out of it. -/
def Underway (exits : List Exit) (s : State) : Prop :=
  s.env.loopFloor < s.env.loops.size ∧ ∃ l, s.env.loops.back? = some l ∧ l.Recounts exits

namespace Underway

/-- What is done in a loop that has not been left marks it as the record says. -/
theorem onward {α : Type} {x : Recorded α} {y : Eval α} {a : α} (hs : Underway [] s)
    (h : Records x y) (hy : y s = .ok a v) :
    ∃ exits, Underway exits v ∧ x [] s = .ok (a, exits) v := by
  obtain ⟨hfloor, l, hl, hmarks⟩ := hs
  obtain ⟨exits, hmarked, hrun⟩ := (h s (Nat.le_of_lt hfloor)).1 a v hy
  obtain ⟨outer, houter⟩ := Array.back?_eq_some_iff.mp hl
  have hfloored : ({ s.env with loops := outer } : Environment).Floored := by
    rw [houter, Array.size_push] at hfloor
    exact Nat.le_of_lt_succ hfloor
  obtain ⟨l', hl', -, hloops⟩ :=
    Environment.left_inLoop (f := s.env) hfloored rfl houter hmarks hmarked.framed
  obtain ⟨hfloor', hsize, -⟩ := hmarked.depths
  refine ⟨exits, ⟨by rw [hfloor', hsize]; exact hfloor, l', ?_, hl'⟩, by simpa using hrun []⟩
  rw [hmarked.same.2, hloops, Array.back?_push]

end Underway

/-- A place for all items of a loop is a variable. -/
def Steady (fresh : Option Place) : Prop := ∀ R, ∀ p ∈ fresh, SamePlace R p p

end Eval
end Scripting
