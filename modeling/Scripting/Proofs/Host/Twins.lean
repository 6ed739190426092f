import Mathlib.Tactic.Common
import Scripting.Proofs.Host.ValueSemantics
import Scripting.Proofs.Renaming.Requests

/-! Two hosts whose scripts see the same. Every host that only evaluates is such a twin of itself,
so no object of it is inside itself. -/
namespace Scripting.Host

variable {D : Decl → Prop} {R : Pairing} {h k : Host} {which : HeapName}

/-- Two hosts whose scripts see the same. -/
def Twins (D : Decl → Prop) (h k : Host) : Prop := ∃ R, h.state.Renamed D R k.state

theorem twins_start {c c' : EvalContext} (hdepth : c'.maxCallDepth = c.maxCallDepth)
    (htraced : c'.isTraced = c.isTraced) :
    Twins D (Moment.start c .standard).host (Moment.start c' .standard).host := by
  have hempty : ({} : Store).Orderly := by
    have hnone : ∀ c o, ¬ ({} : Store).Contains c o := by
      intro c o h
      cases Store.has_of_mem_elements h
    refine ⟨fun o h => ?_, fun c o h => absurd h (hnone c o)⟩
    obtain ⟨c, hc, -⟩ := Relation.TransGen.head'_iff.mp h
    exact hnone _ _ hc
  have hplain : ∀ b ∈ Builtins.standard.entries, b.primitive ≠ .bindings := by decide
  have hglobal : Scope.Renamed D (fun _ _ => False) { kind := .global } { kind := .global } :=
    ⟨rfl, .nil, rfl, by simp, rfl, .none⟩
  refine ⟨fun _ _ => False, ⟨False.elim, False.elim, False.elim, hempty, hempty⟩,
    ⟨.cons hglobal .nil, .nil, .nil, hdepth⟩,
    fun d _ => ⟨by simp [Moment.start, start], ?_, ?_⟩, rfl, hplain, rfl, rfl, htraced⟩
  · intro _ o ho
    cases ho
  · intro _ p hp
    cases hp

/-! ### What leaves scripts alone -/

theorem undisturbed_sweep : h.state.Undisturbed ((Host.sweep which).run h).2.state := by
  have hroots : ∀ o ∈ h.state.roots, o ∈ h.roots := fun o ho => List.mem_append_right _ ho
  cases which
  · exact .sweep rfl hroots
  · exact .sweep rfl hroots

/-- Both sinks may change in the same way. -/
theorem renamed_sink {s t : State} (hst : s.Renamed D R t) (f : Sink → Sink)
    (log log' : Array LogEvent) :
    State.Renamed D R { s with sink := f s.sink, log } { t with sink := f t.sink, log := log' } :=
  { hst with sink := by rw [hst.sink] }

/-! ### Requests -/

/-- Two ends of a request: the same error, or objects that stand for each other. -/
inductive SameEnd (R : Pairing) : Except Stop ObjectId → Except Stop ObjectId → Prop
  | ok {o p : ObjectId} (hop : R o p) : SameEnd R (.ok o) (.ok p)
  | error (stop : Stop) : SameEnd R (.error stop) (.error stop)

theorem eval_same (hD : ∀ d, D d → Eval.Within D d.body)
    (hids : ∀ d e, D d → D e → e.id = d.id → e = d) {n : Node} (hn : Eval.Within D n)
    (hst : h.state.Renamed D R k.state) :
    ∃ R', ((Host.eval n).run h).2.state.Renamed D R' ((Host.eval n).run k).2.state ∧
      SameEnd R' ((Host.eval n).run h).1 ((Host.eval n).run k).1 := by
  have hended := Eval.Parallel.tree h.held k.held hD hids hn h.state k.state hst
  rw [run_eval, run_eval, run_act, run_act]
  cases hs : Eval.tree h.held n h.state <;> cases ht : Eval.tree k.held n k.state <;>
    simp only [hs, ht, Eval.Ended] at hended ⊢
  · obtain ⟨R', -, hst', hop⟩ := hended
    exact ⟨R', hst', .ok hop⟩
  · obtain ⟨he, R', -, hst'⟩ := hended
    exact ⟨R', hst', he ▸ .error _⟩

/-- An evaluation leaves a host a twin of itself, also if numbers do not tell declarations apart. -/
theorem Twins.eval_self {n : Node} (hh : Twins (fun _ => True) h h) :
    Twins (fun _ => True) ((Host.eval n).run h).2 ((Host.eval n).run h).2 := by
  obtain ⟨R, hst⟩ := hh
  have hended := Eval.unwinding_node (n := n) (fun _ _ _ _ => trivial) (fun _ _ => trivial) hst
  rw [run_eval, run_act]
  unfold Eval.tree
  cases hs : Eval.unwinding (Eval.node Eval.fuel n) h.state <;>
    simp only [hs, Eval.Ended] at hended ⊢
  · obtain ⟨R', -, hst', -⟩ := hended
    exact ⟨R', hst'.prune_same _⟩
  · obtain ⟨-, R', -, hst'⟩ := hended
    exact ⟨R', hst'.prune_same _⟩

theorem Evaluates.twins {c : EvalContext} (hh : h.Evaluates c) : Twins (fun _ => True) h h := by
  induction hh with
  | start => exact twins_start rfl rfl
  | eval _ n ih => exact ih.eval_self
  | @run h _ n ih =>
    obtain ⟨k, log, reported, hk, hrun⟩ := run_run_eq (h := h) (n := n)
    obtain ⟨R, hst⟩ := ih.eval_self (n := n)
    rw [hk] at hst
    rw [hrun]
    exact ⟨R, renamed_sink hst (fun x => { x with flushes := x.flushes + 1 }) log log⟩
  | keep _ label o ih =>
    rw [Twins, state_keep]
    exact ih
  | drop _ name ih => exact ih
  | sweep _ which ih =>
    obtain ⟨R, hst⟩ := ih
    exact ⟨_, hst.undisturbed undisturbed_sweep undisturbed_sweep⟩
  | pause _ which ih | resume _ which ih =>
    obtain ⟨R, hst⟩ := ih
    cases which
    · exact ⟨R, hst.change .refl hst.store hst.env rfl rfl⟩
    · exact ⟨R, hst⟩
  | setInterrupt _ b ih =>
    obtain ⟨R, hst⟩ := ih
    exact ⟨R, { hst with isInterrupted := rfl }⟩

/-- What scripts make is never inside itself. -/
theorem Evaluates.acyclic {c : EvalContext} (hh : h.Evaluates c) : h.store.Acyclic := by
  obtain ⟨R, hst⟩ := hh.twins
  exact hst.store.left.acyclic

end Scripting.Host
