import Mathlib.Tactic.Common
import Scripting.Proofs.Eval.Congruence
import Scripting.Proofs.Eval.Decomposition
import Scripting.Proofs.Eval.Discipline
import Scripting.Proofs.Renaming.Equivalence
import Scripting.Proofs.Renaming.Forms

/-! An observer at each node on the way. He changes nothing unless the evaluation comes by a state
that he refuses, and there it stops. So a property that evaluations keep holds of each state they
come by. -/
namespace Scripting.Eval

variable {α β : Type} {accepts : State → Bool} {alarm : Stop} {x y : Eval α}
  {f g : α → Eval β} {s u : State}

/-- The first evaluation runs as the second, or stops with the alarm in a state that is refused. -/
def Halts (accepts : State → Bool) (alarm : Stop) (x y : Eval α) : Prop :=
  ∀ s, x s = y s ∨ ∃ u, x s = .error alarm u ∧ accepts u = false

namespace Halts

theorem refl (x : Eval α) : Halts accepts alarm x x := fun _ => .inl rfl

theorem bind (h : Halts accepts alarm x y) (hf : ∀ a, Halts accepts alarm (f a) (g a)) :
    Halts accepts alarm (x >>= f) (y >>= g) := by
  intro s
  simp only [Bind.bind, EStateM.bind]
  rcases h s with heq | ⟨u, hu, hrefused⟩
  · rw [heq]
    cases y s with
    | ok a t => exact hf a t
    | error stop t => exact .inl rfl
  · rw [hu]
    exact .inr ⟨u, rfl, hrefused⟩

theorem guarded (h : Halts accepts alarm x y) :
    Halts accepts alarm (Eval.guarded accepts alarm x) y := by
  intro s
  unfold Eval.guarded
  by_cases hs : accepts s = true
  · rw [if_pos hs]
    rcases h s with heq | ⟨u, hu, hrefused⟩
    · rw [heq]
      cases y s with
      | ok a t =>
        by_cases ht : accepts t = true
        · exact .inl (if_pos ht)
        · exact .inr ⟨t, if_neg ht, by simpa using ht⟩
      | error stop t =>
        by_cases ht : accepts t = true
        · exact .inl (if_pos ht)
        · exact .inr ⟨t, if_neg ht, by simpa using ht⟩
    · rw [hu]
      exact .inr ⟨u, by simp [hrefused], hrefused⟩
  · exact .inr ⟨s, if_neg hs, by simpa using hs⟩

end Halts

theorem Congruent.halts (h : Congruent (fun _ => Halts accepts alarm) x y) :
    Halts accepts alarm x y := by
  induction h with
  | given h => exact h
  | same => exact .refl _
  | bind _ _ ihx ihf => exact ihx.bind ihf

theorem Halts.watched (fuel : Nat) (n : Node) :
    Halts accepts alarm (Eval.watched accepts alarm fuel n) (Eval.node fuel n) := by
  induction fuel generalizing n with
  | zero => exact guarded (.refl _)
  | succ fuel ih =>
    have hev : ∀ n, Congruent (fun _ => Halts accepts alarm) (Eval.watched accepts alarm fuel n)
        (Eval.node fuel n) := fun n => .given (ih n)
    exact guarded (Congruent.visit hev (Congruent.whileHolds hev fuel) n).halts

/-! ### Observed evaluations -/

theorem Lands.guarded {T : List ObjectId} {P : α → State → List ObjectId → Prop}
    (h : Lands x s T P) :
    Lands (Eval.guarded accepts alarm x) s T P := by
  intro hs
  have hend := h hs
  unfold Eval.guarded
  by_cases haccepts : accepts s = true
  · rw [if_pos haccepts]
    cases hr : x s with
    | ok a t =>
      rw [hr] at hend
      by_cases ht : accepts t = true
      · simpa only [ht, if_true] using hend
      · obtain ⟨U, hsteps, -⟩ := hend
        simp only [ht]
        exact ⟨U, hsteps⟩
    | error stop t =>
      rw [hr] at hend
      by_cases ht : accepts t = true
      · simpa only [ht, if_true] using hend
      · simp only [ht]
        exact hend
  · rw [if_neg haccepts]
    exact ⟨T, .refl⟩

theorem evaluates_watched (accepts : State → Bool) (alarm : Stop) (fuel : Nat) :
    Evaluates (watched accepts alarm fuel) := by
  induction fuel with
  | zero => exact fun n s T => Lands.guarded .throw
  | succ fuel ih =>
    intro n s T
    refine Lands.guarded (Lands.checkInterrupt.andThen fun _ s' => ?_)
    exact Lands.trace.andThen fun _ s' => .form ih

variable {D : Decl → Prop} {R : Pairing}

/-- An observer who accepts whatever has a counterpart sees nothing to refuse on either side. -/
theorem Parallel.guarded {y : Eval β} {Q : Pairing → α → β → Prop}
    (haccepts : ∀ {R : Pairing} {s t : State}, s.Renamed D R t →
      accepts s = true ∧ accepts t = true)
    (h : Parallel D R x y Q) :
    Parallel D R (Eval.guarded accepts alarm x) (Eval.guarded accepts alarm y) Q := by
  intro s t hst
  have hend := h s t hst
  simp only [Eval.guarded, (haccepts hst).1, (haccepts hst).2, if_true]
  cases hx : x s <;> cases hy : y t <;> simp only [hx, hy, Ended] at hend ⊢
  · obtain ⟨R', hgrow, hst', hQ⟩ := hend
    simp only [(haccepts hst').1, (haccepts hst').2, if_true]
    exact ⟨R', hgrow, hst', hQ⟩
  · obtain ⟨he, R', hgrow, hst'⟩ := hend
    simp only [(haccepts hst').1, (haccepts hst').2, if_true]
    exact ⟨he, R', hgrow, hst'⟩

theorem mirrored_watched (hD : ∀ d, D d → Within D d.body) (alarm : Stop)
    (haccepts : ∀ {R : Pairing} {s t : State}, s.Renamed D R t →
      accepts s = true ∧ accepts t = true)
    (fuel : Nat) : Mirrored D (watched accepts alarm fuel) := by
  induction fuel with
  | zero => exact fun _ _ _ => Parallel.guarded haccepts .throw
  | succ fuel ih =>
    intro R n hn
    refine Parallel.guarded haccepts (Parallel.checkInterrupt.andThen fun R₁ _ _ => ?_)
    exact Parallel.trace.andThen fun R₂ _ _ => ih.form hD fuel R₂ n hn

/-! ### States on the way -/

/-- The evaluation of a node comes by a state: whoever refuses the state can tell. -/
def Sees (fuel : Nat) (n : Node) (s u : State) : Prop :=
  ∃ alarm, ∀ accepts : State → Bool, accepts u = false →
    watched accepts alarm fuel n s ≠ node fuel n s

variable {fuel : Nat} {n : Node}

theorem sees_self (fuel : Nat) (n : Node) (s : State) : Sees fuel n s s := by
  have hstop : ∀ {alarm : Stop} {accepts : State → Bool}, accepts s = false →
      watched accepts alarm fuel n s = .error alarm s := by
    intro alarm accepts hrefused
    cases fuel <;> simp [watched, guarded, hrefused]
  by_cases hend : node fuel n s = .error .exhausted s
  · refine ⟨.raised default, fun accepts hrefused heq => ?_⟩
    rw [hstop hrefused, hend] at heq
    cases heq
  · exact ⟨.exhausted, fun accepts hrefused heq => hend ((hstop hrefused).symm.trans heq).symm⟩

open Classical in
/-- What holds wherever an observer of it would stop holds of each state on the way. -/
theorem Sees.holds {P : State → Prop} (h : Sees fuel n s u)
    (hP : ∀ (accepts : State → Bool) (alarm : Stop) (v : State), (∀ t, accepts t = true ↔ P t) →
      watched accepts alarm fuel n s = .error alarm v → P v) : P u := by
  by_contra hu
  obtain ⟨alarm, halarm⟩ := h
  rcases @Halts.watched (fun t => decide (P t)) alarm fuel n s with heq | ⟨v, hv, hrefused⟩
  · exact halarm _ (by simpa using hu) heq
  · have hnot : ¬ P v := by simpa using hrefused
    exact hnot (hP _ alarm v (by simp) hv)

theorem Sees.steps (h : Sees fuel n s u) (hs : Config.Sound ⟨s, []⟩) :
    ∃ U, Steps ⟨s, []⟩ ⟨u, U⟩ := by
  refine h.holds (P := fun t => ∃ U, Steps ⟨s, []⟩ ⟨t, U⟩) fun accepts alarm v _ hv => ?_
  have hend := evaluates_watched accepts alarm fuel n s [] hs
  rw [hv] at hend
  exact hend

theorem Sees.renamed (h : Sees fuel n s u) (hs : s.Renamed (fun _ => True) R s) :
    ∃ S, u.Renamed (fun _ => True) S u := by
  refine h.holds (P := fun t => ∃ S, t.Renamed (fun _ => True) S t)
    fun accepts alarm v haccepts hv => ?_
  have hend := mirrored_watched (fun _ _ _ _ => trivial) alarm (fun hst =>
    ⟨(haccepts _).mpr ⟨_, hst.trans hst.symm⟩, (haccepts _).mpr ⟨_, hst.symm.trans hst⟩⟩)
    fuel R n (fun _ _ => trivial) s s hs
  rw [hv] at hend
  obtain ⟨-, S, -, hS⟩ := hend
  exact ⟨S, hS⟩

theorem Sees.nested (h : Sees fuel n s u) (hs : s.env.Rooted ∧ s.env.WellNested) :
    u.env.Rooted ∧ u.env.WellNested := by
  refine h.holds (P := fun t => t.env.Rooted ∧ t.env.WellNested)
    fun accepts alarm v haccepts hv => ?_
  have htracks : Follows .nesting (watched accepts alarm fuel) (node fuel) :=
    Tracks.watched (fun t ht => (haccepts t).mpr ht) fuel
  obtain ⟨heq, hend⟩ := htracks n s hs
  rw [← heq, hv] at hend
  exact hend.1

end Scripting.Eval
