import Mathlib.Tactic.Common
import Scripting.Proofs.Eval.Discipline
import Scripting.Proofs.Host.Moment

/-! The stacks before, during and after an evaluation. -/
namespace Scripting

open Environment

/-! ### The global scope is always there -/

namespace Environment

variable {e : Environment} {s : Store}

theorem Rooted.leave (h : e.Rooted) : (e.leave s).1.Rooted := by
  rw [leave_fst]
  split
  · next hmore =>
    have hfirst : e.scopes.pop[0]? = e.scopes[0]? := Confined.getElem?_pop_of_lt hmore
    simpa only [Rooted, hfirst] using h
  · exact h

theorem Rooted.leaveMany {n : Nat} (h : e.Rooted) : (leaveMany n e s).1.Rooted := by
  induction n generalizing e s with
  | zero => exact h
  | succ n ih => exact ih h.leave

theorem Rooted.of_unmarked {e' : Environment} (h : e.Rooted)
    (hm : e'.unmarked = e.unmarked) : e'.Rooted :=
  (Balanced.of_unmarked hm).toExtends.rooted h

theorem Rooted.restore {c : Checkpoint} (h : e.Rooted) : (e.restore s c).1.Rooted :=
  (leaveMany (e := { e with loops := e.loops.take c.loops, frames := e.frames.take c.frames })
    h).of_unmarked
    (unmarked_modifyScope_of_marks fun _ => rfl)

end Environment

theorem Step.rooted {c c' : Config} (h : Step c c') (hc : c.env.Rooted) : c'.env.Rooted := by
  cases h with
  | declare => exact Balanced.declare.toExtends.rooted hc
  | bind => exact Balanced.assign.toExtends.rooted hc
  | enter => exact Extends.enter.rooted hc
  | leave => exact hc.leave
  | setLast | takeLast | rest | unskip =>
    exact hc.of_unmarked (unmarked_modifyScope_of_marks fun _ => rfl)
  | skipFrom => exact hc.of_unmarked unmarked_skipFrom
  | leaveFunction => exact hc.of_unmarked unmarked_leaveFunction
  | leaveLoop => exact hc.of_unmarked unmarked_leaveLoop
  | _ => exact hc

theorem Steps.rooted {c c' : Config} (h : Steps c c') (hc : c.env.Rooted) : c'.env.Rooted := by
  induction h with
  | refl => exact hc
  | tail _ hstep ih => exact hstep.rooted ih

/-! ### Evaluations at a host's command -/

theorem Eval.tracks_node (W : Watch) (fuel : Nat) (n : Node) (s : State) :
    Eval.Tracks W 0 (Eval.watched (fun _ => true) .exhausted fuel n) (Eval.node fuel n) s :=
  Eval.Tracks.watched (fun _ _ => rfl) fuel n s

namespace Host

variable {h : Host} {n : Node}

theorem balanced_eval (hs : h.env.Rooted) : h.env.Balanced ((Host.eval n).run h).2.env := by
  obtain ⟨-, hend⟩ := Eval.tracks_node .rootedness Eval.fuel n h.state hs
  simp only [run_eval, run_act, Eval.tree, Eval.unwinding]
  cases hr : Eval.node Eval.fuel n h.state with
  | ok o s =>
    rw [hr] at hend
    have henv : ({ h with state := s.prune (o :: h.held) } : Host).env = s.env := State.env_prune
    rw [henv]
    exact hend.balanced
  | error stop s =>
    rw [hr] at hend
    have henv : ({ h with state := (s.restore h.state.env.checkpoint).prune h.held } : Host).env =
        (s.env.restore s.heap.store h.env.checkpoint).1 := State.env_prune
    rw [henv]
    exact hend.2.restore hs

theorem Quiet.env_eq {k : Host} (hq : h.Quiet k) : k.env = h.env := by
  obtain ⟨sink, log, hstate, -⟩ := hq
  simp only [env, hstate]

theorem balanced_run (hs : h.env.Rooted) : h.env.Balanced ((Host.run n).run h).2.env := by
  obtain ⟨k, hrun, hquiet⟩ := run_run (h := h) (n := n)
  rw [hrun]
  exact hquiet.env_eq ▸ balanced_eval hs

end Host

theorem Turn.rooted {m m' : Moment} (h : Turn m m') (hm : m.host.env.Rooted) :
    m'.host.env.Rooted := by
  cases h with
  | step h => exact h.rooted hm
  | eval => exact (Host.balanced_eval hm).toExtends.rooted hm
  | run => exact (Host.balanced_run hm).toExtends.rooted hm
  | @keep name | @keepPlace name => cases name <;> exact hm
  | assign => exact Balanced.assign.toExtends.rooted hm
  | define => exact Balanced.define.toExtends.rooted hm
  | leave => exact hm.leave
  | restore => exact hm.restore
  | @alloc which | @remove which | @pause which | @resume which | @sweep which =>
    cases which <;> exact hm
  | @stop which =>
    have henv := Host.quiet_stop.env_eq (h := m.host.setHeap (m.host.heap which).clear.2 which)
    cases which <;> exact henv.symm ▸ hm
  | _ => exact hm

theorem Turns.rooted {c : EvalContext} {b : Builtins} {m : Moment} (h : Turns (.start c b) m) :
    m.host.env.Rooted := by
  induction h with
  | refl => rfl
  | tail _ hturn ih => exact hturn.rooted ih

/-- An evaluation that gives a value leaves the stacks as high as they were, with the same scopes,
and names are new only at the end of the innermost one. One that fails leaves them no lower, and the
same holds of what was there; a host's command takes them back to their heights in any case. No
observer ever sees them without the global scope in its place, and no moment of a host finds them
so. -/
theorem stack_discipline {s : State} (hs : s.env.Rooted) (fuel : Nat) (n : Node) :
    (∀ o t, Eval.node fuel n s = .ok o t → s.env.Balanced t.env) ∧
    (∀ stop t, Eval.node fuel n s = .error stop t → s.env.Extends t.env) ∧
    (∀ h : Host, h.state = s →
      s.env.Balanced ((Host.eval n).run h).2.env ∧ s.env.Balanced ((Host.run n).run h).2.env) ∧
    (∀ accepts alarm, (∀ t : State, t.env.Rooted → accepts t = true) →
      Eval.watched accepts alarm fuel n s = Eval.node fuel n s) ∧
    (∀ T c, Steps ⟨s, T⟩ c → c.env.Rooted) ∧
    (∀ c b m, Turns (.start c b) m → m.host.env.Rooted) := by
  obtain ⟨-, hend⟩ := Eval.tracks_node .rootedness fuel n s hs
  refine ⟨?_, ?_, ?_, ?_, ?_, ?_⟩
  · intro o t hr
    rw [hr] at hend
    exact hend.balanced
  · intro stop t hr
    rw [hr] at hend
    exact hend.2
  · rintro h rfl
    exact ⟨Host.balanced_eval hs, Host.balanced_run hs⟩
  · intro accepts alarm haccepts
    exact (Eval.Tracks.watched (W := .rootedness) haccepts fuel n s hs).1
  · intro T c hsteps
    exact hsteps.rooted hs
  · intro c b m hturns
    exact hturns.rooted

/-- A statement that fails inside a block. -/
def failsInside : Node := .block none [.letVar none ⟨"x", none⟩ none none, .breakLoop none none]

theorem stack_discipline_failsInside :
    (∀ h : Host, h.state = {} → ((Host.eval failsInside).run h).2.env.checkpoint = ⟨1, 0, 0⟩) ∧
      (∀ stop t, Eval.node 3 failsInside {} = .error stop t → Environment.Extends {} t.env) ∧
      (match Eval.node 3 failsInside {} with
        | .ok _ _ => none
        | .error _ t => some t.env.checkpoint) = some ⟨2, 0, 0⟩ := by
  obtain ⟨-, hfail, hhost, -⟩ := stack_discipline (s := {}) rfl 3 failsInside
  exact ⟨fun h hh => (hhost h hh).1.heights, hfail, by decide +kernel⟩

/-! ### Marks -/

theorem Environment.wellNested_of_global {e : Environment} (hframes : e.frames = #[])
    (hloops : e.loops = #[]) : e.WellNested := by
  constructor <;> simp [hframes, hloops]

/-- Marks stay once they are set. An evaluation that gives a value sets marks only on the scopes and
loops of the running call and on the call itself; outside of all calls, on the innermost loop and
the scopes from its own on. Stacks are well nested when nothing but the global scope is open, and
then no observer ever sees them otherwise. -/
theorem marks_confined {s : State} (hs : s.env.Rooted) (fuel : Nat) (n : Node) :
    (s.env.scopes.size = 1 → s.env.frames = #[] → s.env.loops = #[] → s.env.WellNested) ∧
    (s.env.WellNested →
      (∀ o t, Eval.node fuel n s = .ok o t → t.env.WellNested ∧ s.env.Confined 0 t.env) ∧
      (∀ stop t, Eval.node fuel n s = .error stop t → t.env.WellNested) ∧
      ∀ accepts alarm, (∀ t : State, t.env.WellNested → accepts t = true) →
        Eval.watched accepts alarm fuel n s = Eval.node fuel n s) := by
  refine ⟨fun _ hframes hloops => wellNested_of_global hframes hloops, fun he => ⟨?_, ?_, ?_⟩⟩
  · intro o t hr
    obtain ⟨-, hend⟩ := Eval.tracks_node .nesting fuel n s ⟨hs, he⟩
    rw [hr] at hend
    exact ⟨hend.balanced.wellNested he, hend.confined he⟩
  · intro stop t hr
    obtain ⟨-, hend⟩ := Eval.tracks_node .nesting fuel n s ⟨hs, he⟩
    rw [hr] at hend
    exact hend.1.2
  · intro accepts alarm haccepts
    have haccepts' : ∀ t : State, Watch.nesting.holds t.env → accepts t = true :=
      fun t ht => haccepts t ht.2
    exact (Eval.Tracks.watched haccepts' fuel n s ⟨hs, he⟩).1

/-- A loop inside a call. -/
def loopInCall : State :=
  { env := (({} : Environment).callOpened
      { id := 0, ident := ⟨"f", none⟩, body := .none none }).loopOpened [] }

theorem marks_confined_loopInCall :
    loopInCall.env.WellNested ∧
      (∀ o t, Eval.node 2 (.ret none none) loopInCall = .ok o t → loopInCall.env.Confined 0 t.env) ∧
      (match Eval.node 2 (.ret none none) loopInCall with
        | .ok _ t => t.env.scopes.toList.map (·.isSkipped)
        | .error _ _ => []) = [false, true, true] := by
  have hnested : loopInCall.env.WellNested :=
    (wellNested_of_global (e := {}) rfl rfl).callOpened.loopOpened
  obtain ⟨-, hmarks⟩ := marks_confined (s := loopInCall) rfl 2 (.ret none none)
  exact ⟨hnested, fun o t hr => ((hmarks hnested).1 o t hr).2, by decide +kernel⟩

end Scripting
