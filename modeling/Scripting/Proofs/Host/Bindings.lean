import Mathlib.Tactic.Common
import Scripting.Proofs.Host.Tables

/-! Counts of bindings. They are exact at every moment, so no release ever finds a count of zero and
the collector could do without them. -/
namespace Scripting

namespace Environment

variable {e : Environment} {s : Store} {c : Checkpoint}

/-- The objects that variables hold in the scopes from a height on. -/
def slotsFrom (e : Environment) (height : Nat) : List ObjectId :=
  (e.scopes.toList.drop height).flatMap Scope.objects

theorem scopes_leaveMany {n : Nat} (h : n ≤ e.scopes.size - 1) :
    (e.leaveMany n s).1.scopes.toList = e.scopes.toList.take (e.scopes.size - n) := by
  induction n generalizing e s with
  | zero =>
    change e.scopes.toList = e.scopes.toList.take e.scopes.size
    exact (List.take_of_length_le (by simp)).symm
  | succ n ih =>
    have hleave : (e.leave s).1.scopes = e.scopes.pop := by rw [leave_fst, if_pos (by omega)]
    have hrest := ih (e := (e.leave s).1) (s := (e.leave s).2) (by
      rw [hleave, Array.size_pop]
      omega)
    rw [leaveMany, hrest, hleave, Array.toList_pop, List.dropLast_eq_take,
      List.take_take, Array.size_pop]
    congr 1
    simp
    omega

/-- Going back to a checkpoint takes away the variables above it, and no others. -/
theorem slots_restore : e.slots = (e.restore s c).1.slots ++ e.slotsFrom (max c.scopes 1) := by
  have hslots : (e.restore s c).1.slots =
      (e.scopes.toList.take (e.scopes.size - (e.scopes.size - max c.scopes 1))).flatMap
        Scope.objects := by
    refine (slots_modifyScope (f := ({ · with isSkipped := false })) fun _ => rfl).trans ?_
    rw [slots, scopes_leaveMany (by dsimp only; omega)]
  have hsplit := List.take_append_drop (max c.scopes 1) e.scopes.toList
  rw [hslots, slotsFrom, ← List.flatMap_append, slots]
  congr 1
  by_cases hsize : max c.scopes 1 ≤ e.scopes.size
  · rw [show e.scopes.size - (e.scopes.size - max c.scopes 1) = max c.scopes 1 by omega]
    exact hsplit.symm
  · rw [show e.scopes.size - (e.scopes.size - max c.scopes 1) = e.scopes.size by omega,
      List.drop_of_length_le (by simp; omega), List.append_nil]
    exact (List.take_of_length_le (by simp)).symm

end Environment

/-- A pass that frees what only the table holds, whatever the counts say. -/
def Heap.sweepUncounted (h : Heap) (roots : List ObjectId) (limit : Option Nat) :
    SweepStats × Heap :=
  if h.table.isPaused then ({}, h)
  else
    let store := h.store.reap roots
    let held := store.held roots
    let scan := Scan.run (fun o => !held.contains o) limit h.table.slots.toList 0 {}
    let swept := scan.chosen.foldl (fun h (i, o) => h.vacate i o) { h with store }
    ({ scanned := scan.scanned, freed := scan.chosen.size },
      { swept with store := swept.store.reap roots })

theorem Heap.Filed.sweep_eq_sweepUncounted {h : Heap} {roots : List ObjectId} {limit : Option Nat}
    (hf : h.Filed) (hroots : ∀ o, 0 < h.store.bindings o → o ∈ roots) :
    h.sweep roots limit = h.sweepUncounted roots limit := by
  have hfree : h.isFree roots = fun o => !((h.store.reap roots).held roots).contains o := by
    funext o
    rw [isFree]
    cases hheld : ((h.store.reap roots).held roots).contains o with
    | true => simp
    | false =>
      have hnone : (h.store.reap roots).bindings o = 0 := by
        by_contra hb
        have hbindings : 0 < h.store.bindings o := by
          obtain hsame | ⟨hnone, -⟩ := Store.trims_reap (s := h.store) (r := roots) o
          · simp only [Store.bindings, hsame] at hb
            exact Nat.pos_of_ne_zero hb
          · simp [Store.bindings, hnone] at hb
        rw [Store.contains_held.mpr (.inl (hroots o hbindings))] at hheld
        cases hheld
      simp [hnone]
  cases hp : h.table.isPaused with
  | true => simp only [sweep, sweepUncounted, hp, if_true]
  | false =>
    rw [hf.sweep_eq_chosen hp, hfree]
    simp only [sweepUncounted, hp, Bool.false_eq_true, if_false, vacateAll, Array.foldl_toList]

namespace Moment

variable {m : Moment} {o : ObjectId}

theorem mem_roots_of_bindings (hs : m.config.Sound) (ho : 0 < m.host.store.bindings o) :
    o ∈ m.roots := by
  rw [show m.host.store.bindings o = m.host.env.slots.count o from hs.exact o,
    List.count_pos_iff] at ho
  simp [roots, Host.roots, State.roots, Environment.mem_roots_iff,
    show o ∈ m.host.state.env.slots from ho]

/-- The counts when an evaluation fails, and once the scopes that it opened are closed. -/
theorem bindings_of_error {n : Node} {stop : Stop} {s : State} (hs : m.config.Sound)
    (h : Eval.node Eval.fuel n m.host.state = .error stop s) :
    s.heap.store.bindings o = ((Host.eval n).run m.host).2.store.bindings o +
      (s.env.slotsFrom (max m.host.env.scopes.size 1)).count o := by
  have hnode := Eval.evaluates_node Eval.fuel n m.host.state [] hs.unheld
  rw [h] at hnode
  obtain ⟨U, hsteps⟩ := hnode
  have hfailed := (hsteps.sound hs.unheld).unheld
  have hrestored : (s.restore m.host.env.checkpoint).heap.store.bindings o =
      (s.restore m.host.env.checkpoint).env.slots.count o :=
    ((Steps.restore m.host.env.checkpoint hfailed).sound hfailed).exact o
  have hafter : ((Host.eval n).run m.host).2.store =
      (s.restore m.host.env.checkpoint).heap.store := by
    simp only [Host.run_eval, Host.run_act, Eval.tree, Eval.unwinding, h]
    exact congrArg Heap.store State.heap_prune
  rw [hafter, hrestored, ← List.count_append]
  refine (hfailed.exact o).trans (congrArg (List.count o) ?_)
  exact Environment.slots_restore

end Moment

open Moment in
/-- At every moment, also in the middle of an evaluation, an object's count is the number of
variables of open scopes that are bound to it. So no release finds a count of zero, an object with a
count has a holder, the collector need not look at counts, and an evaluation that fails has released
each binding of the scopes that it left open once. -/
theorem bindings_exact {c : EvalContext} {b : Builtins} {m : Moment} (h : Turns (.start c b) m) :
    (∀ o, m.host.store.bindings o = m.host.env.slots.count o) ∧
    (∀ p o, m.Reach o →
      m.host.env.assign? m.host.store p o = some (m.host.env.assign m.host.store p o)) ∧
    m.host.env.leave? m.host.store = some (m.host.env.leave m.host.store) ∧
    (∀ d, Steps m.config ⟨m.host.state.restore d, m.config.temps⟩) ∧
    (∀ n, Steps m.config (m.giving (Host.eval n)).config) ∧
    (∀ o, 0 < m.host.store.bindings o → o ∈ m.roots) ∧
    (∀ which limit, (m.host.heap which).sweep m.roots limit =
      (m.host.heap which).sweepUncounted m.roots limit) ∧
    (∀ n stop s, Eval.node Eval.fuel n m.host.state = .error stop s →
      ∀ o, s.heap.store.bindings o = ((Host.eval n).run m.host).2.store.bindings o +
        (s.env.slotsFrom (max m.host.env.scopes.size 1)).count o) := by
  have hs := h.sound
  refine ⟨hs.exact, fun p o ho => (hs.exact.assign (has_of_reach hs ho)).1, hs.exact.leave.1,
    fun d => Steps.restore d hs, fun n => steps_eval hs, fun o => mem_roots_of_bindings hs,
    fun which limit => Heap.Filed.sweep_eq_sweepUncounted ?_ fun o ho => ?_,
    fun n stop s herror o => bindings_of_error hs herror⟩
  · rw [Host.heap_eq]
    exact h.tidy.slot which
  · rw [Host.store_heap] at ho
    exact mem_roots_of_bindings hs ho

/-- An object that a script variable and its maker hold. -/
def boundObject : Moment :=
  let made := (Moment.start {} .standard).after (Host.alloc .main (.atom .none))
  ({ made with temps := [0] }).after (Host.modifyBindings fun e s => e.define s "x" 0)

theorem bindings_exact_boundObject :
    boundObject.host.store.bindings 0 = boundObject.host.env.slots.count 0 ∧
      boundObject.host.env.slots = [0] := by
  have hmade : Turn (.start {} .standard)
      { (Moment.start {} .standard).after (Host.alloc .main (.atom .none)) with temps := [0] } :=
    .alloc (v := .atom .none) (by simp [Value.elements])
  have hbound : Turns (.start {} .standard) boundObject :=
    .tail (.single hmade) (.define (.root (by simp [Moment.roots])))
  exact ⟨(bindings_exact hbound).1 0, by decide +kernel⟩

end Scripting
