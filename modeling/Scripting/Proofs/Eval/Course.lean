import Mathlib.Tactic.Common
import Scripting.Proofs.Eval.Change
import Scripting.Proofs.Eval.Congruence

/-! The course of an evaluation, form by form: it is a sequence of elementary changes, and what
holds of all of it can be relied on wherever in it an operand is evaluated. -/
namespace Scripting

/-- What holds from one state until another one, and so for each part of that time. -/
structure Lasting where
  holds : State → State → Prop
  split : ∀ {s t u : State}, holds s u → Changes s t → Changes t u → holds s t ∧ holds t u

/-- Nothing in particular. -/
def Lasting.any : Lasting := ⟨fun _ _ => True, fun _ _ _ => ⟨trivial, trivial⟩⟩

namespace Eval

variable {α β : Type} {K : Lasting} {x y : Eval α} {f g : α → Eval β}

/-- The second evaluation makes elementary changes only, and if the given property holds of its
time, the first one runs as the second. -/
def Goes (K : Lasting) (x y : Eval α) : Prop :=
  ∀ s, Changes s (y.after s) ∧ (K.holds s (y.after s) → x s = y s)

namespace Goes

theorem makes (h : Makes x) : Goes K x x := fun s => ⟨h s, fun _ => rfl⟩

theorem toMakes (h : Goes .any x x) : Makes x := fun s => (h s).1

theorem bind (hx : Goes K x y) (hf : ∀ a, Goes K (f a) (g a)) : Goes K (x >>= f) (y >>= g) := by
  intro s
  obtain ⟨hend, heq⟩ := hx s
  simp only [after, Bind.bind, EStateM.bind] at hend heq ⊢
  cases hr : y s with
  | error stop t =>
    rw [hr] at hend heq
    exact ⟨hend, fun hs => by rw [heq hs]⟩
  | ok a t =>
    rw [hr] at hend heq
    obtain ⟨hend', heq'⟩ := hf a t
    refine ⟨hend.trans hend', fun hs => ?_⟩
    obtain ⟨hfirst, hrest⟩ := K.split hs hend hend'
    rw [heq hfirst]
    exact heq' hrest

end Goes

theorem Congruent.goes (h : Congruent (fun _ => Goes K) x y) : Goes K x y := by
  induction h with
  | given h => exact h
  | same h => exact .makes h.makes
  | bind _ _ ihx ihf => exact ihx.bind ihf

theorem Goes.node (fuel : Nat) (n : Node) : Goes K (Eval.node fuel n) (Eval.node fuel n) := by
  induction fuel generalizing n with
  | zero => exact Congruent.goes (.same .throw_exhausted)
  | succ fuel ih =>
    have hev : ∀ n, Congruent (fun _ => Goes K) (Eval.node fuel n) (Eval.node fuel n) :=
      fun n => .given (ih n)
    exact (Congruent.visit hev (Congruent.whileHolds hev fuel) n).goes

/-- Any evaluation from any state is a sequence of elementary changes. -/
theorem Makes.node (fuel : Nat) (n : Node) : Makes (Eval.node fuel n) := (Goes.node fuel n).toMakes

end Eval
end Scripting
