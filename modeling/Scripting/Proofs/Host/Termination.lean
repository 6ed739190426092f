import Mathlib.Tactic.Common
import Scripting.Proofs.Eval.Termination
import Scripting.Proofs.Host.Memo
import Scripting.Proofs.Host.Stacks
import Scripting.Proofs.Host.Twins

/-! Trees without conditional loops come to an end, whatever a host had evaluated before. What they
call are functions of their own, of the scopes, or of objects that are there. -/
namespace Scripting

/-- The declaration of a function. -/
def Value.decl? : Value → Option Decl
  | .atom (.function d) => some d
  | _ => Option.none

/-- The functions that are objects. -/
def Store.functions (s : Store) : List Decl :=
  s.objects.toList.filterMap fun x => x.bind (·.value.decl?)

/-- The functions that a tree can use without declaring them. -/
def State.decls (s : State) : List Decl :=
  s.env.scopes.toList.flatMap (·.functions) ++ s.heap.store.functions

/-- A height that neither a tree exceeds nor the functions that it can use. -/
def State.heightWith (s : State) (n : Node) : Nat := Node.heightAll (n :: s.decls.map (·.body))

/-- Enough steps for a tree without conditional loops, where so many calls may be open at once. -/
def State.stepsFor (s : State) (maxCallDepth : Nat) (n : Node) : Nat :=
  Eval.depth (s.heightWith n) (s.heightWith n) maxCallDepth

theorem Store.mem_functions {s : Store} {o : ObjectId} {d : Decl}
    (h : s.value o = .atom (.function d)) :
    d ∈ s.functions := by
  unfold value get? at h
  cases hx : s.objects[o]? with
  | none =>
    rw [hx] at h
    cases h
  | some x =>
    rw [hx] at h
    cases x with
    | none => cases h
    | some x =>
      refine List.mem_filterMap.mpr
        ⟨some x, Array.mem_toList_iff.mpr (Array.mem_of_getElem? hx), ?_⟩
      exact congrArg Value.decl? h

/-- Two values of functions that have a property. -/
theorem Value.Renamed.restrict {D D' : Decl → Prop} {R : Pairing} {v w : Value}
    (h : v.Renamed D R w) (hv : ∀ d, v = .atom (.function d) → D' d) : v.Renamed D' R w := by
  cases h with
  | tuple hpairs => exact .tuple hpairs
  | vector hpairs => exact .vector hpairs
  | @atom a ha =>
    cases a with
    | function d => exact .atom (hv d rfl)
    | _ => exact .atom ha

namespace State

variable {D : Decl → Prop} {R : Pairing} {s : State} {n : Node}

/-- The functions in a state at rest may be told from others by any property they have. -/
theorem Renamed.restrict (h : s.Renamed (fun _ => True) R s) (hframes : s.env.frames = #[])
    (hD : ∀ d ∈ s.decls, D d) : s.Renamed D R s := by
  have hfunction : ∀ {o d}, s.heap.store.value o = .atom (.function d) → D d := fun hd =>
    hD _ (List.mem_append_right _ (Store.mem_functions hd))
  have hscope : ∀ x ∈ s.env.scopes, ∀ d ∈ x.functions, D d := fun x hx d hd =>
    hD d (List.mem_append_left _ (List.mem_flatMap.mpr ⟨x, Array.mem_toList_iff.mpr hx, hd⟩))
  refine { h with
    store := { h.store with value := fun {o p} hop => ?_ }
    env := { h.env with scopes := ?_, frames := ?_ }
    memo := fun d _ => ⟨fun o p ho hp => ?_, (h.memo d trivial).left, (h.memo d trivial).right⟩ }
  · exact (h.store.value hop).restrict fun d => hfunction
  · rw [Pointwise.iff_getElem?]
    intro i
    rcases rel_cases (h.env.scopes.getElem? i) with ⟨hx, hy⟩ | ⟨x, y, hx, hy, hxy⟩
    · rw [hx]
      exact .none
    · have hknown := hscope x (Array.mem_of_getElem? hx)
      rw [hx] at hy
      cases hy
      rw [hx]
      exact .some { hxy with known := hknown }
  · rw [hframes]
    exact .nil
  · obtain ⟨e, -, he, hs, ht⟩ := (h.memo d trivial).both o p ho hp
    exact ⟨e, hfunction hs, he, hs, ht⟩

theorem tame_heightWith (hn : n.isWhileFree = true)
    (hfree : ∀ d ∈ s.decls, d.body.isWhileFree = true) :
    n.Tame (s.heightWith n) ∧ ∀ d ∈ s.decls, d.Tame (s.heightWith n) := by
  have hbodies : Node.areWhileFree (s.decls.map (·.body)) = true := by
    generalize s.decls = ds at hfree
    induction ds with
    | nil => rfl
    | cons d ds ih =>
      simp only [List.map_cons, Node.areWhileFree, Bool.and_eq_true]
      exact ⟨hfree d (by simp), ih fun e he => hfree e (by simp [he])⟩
  have hall : ∀ m ∈ n :: s.decls.map (·.body), m.Tame (s.heightWith n) :=
    Node.tame_of_mem (by simp only [Node.areWhileFree, hn, hbodies, Bool.and_self]) (Nat.le_refl _)
  exact ⟨hall n List.mem_cons_self, fun d hd =>
    hall d.body (List.mem_cons_of_mem _ (List.mem_map_of_mem hd))⟩

end State

namespace Host

variable {h : Host} {n : Node} {c : EvalContext}

/-- Between requests no call is open. -/
theorem Evaluates.rest (hh : h.Evaluates c) : h.env.Rooted ∧ h.env.frames = #[] := by
  have hbalanced : ∀ {h k : Host}, h.env.Rooted ∧ h.env.frames = #[] → h.env.Balanced k.env →
      k.env.Rooted ∧ k.env.frames = #[] := by
    rintro h k ⟨hrooted, hframes⟩ hk
    have hsize : k.env.frames.size = h.env.frames.size := congrArg Checkpoint.frames hk.heights
    exact ⟨hk.toExtends.rooted hrooted, by simpa [hframes] using hsize⟩
  exact hh.kept (P := fun e _ => e.Rooted ∧ e.frames = #[]) ⟨rfl, rfl⟩
    (fun _ _ _ ih => hbalanced ih (balanced_eval ih.1)) fun _ _ _ ih =>
      hbalanced ih (balanced_run ih.1)

theorem Evaluates.maxCallDepth (hh : h.Evaluates c) : h.env.maxCallDepth = c.maxCallDepth := by
  have hrequest : ∀ {h : Host} {r : Request},
      (Moment.requested h r).host.env.maxCallDepth = h.env.maxCallDepth := by
    intro h r
    rw [Moment.finishes_requested.env]
    exact Changes.maxCallDepth Moment.changes_finished
  exact hh.kept (P := fun e _ => e.maxCallDepth = c.maxCallDepth) rfl
    (fun _ n _ ih => (hrequest (r := .eval n)).trans ih) fun _ n _ ih =>
      (hrequest (r := .run n)).trans ih

/-- Trees without conditional loops come to an end. After any evaluations, and whatever the limit to
calls, the tree has one end, a value or an error, which it reaches with any number of steps from a
known one on; and so does a request for it, if requests have that many steps. -/
theorem while_free_ends (hh : h.Evaluates c) (hn : n.isWhileFree = true)
    (hfree : ∀ d ∈ h.state.decls, d.body.isWhileFree = true) :
    ((∃ o s, ∀ fuel, h.state.stepsFor c.maxCallDepth n ≤ fuel →
      Eval.node fuel n h.state = .ok o s) ∨
      ∃ e s, ∀ fuel, h.state.stepsFor c.maxCallDepth n ≤ fuel →
        Eval.node fuel n h.state = .error (.raised e) s) ∧
    (h.state.stepsFor c.maxCallDepth n ≤ Eval.fuel →
      ((Host.eval n).run h).1 ≠ .error .exhausted) := by
  obtain ⟨R, htwins⟩ := hh.twins
  obtain ⟨htame, hdecls⟩ := State.tame_heightWith hn hfree
  have hst : h.state.Renamed (Decl.Tame (h.state.heightWith n)) R h.state :=
    htwins.restrict hh.rest.2 hdecls
  have hroom : h.state.Room c.maxCallDepth := hh.maxCallDepth ▸ Nat.le_add_left _ _
  have hends : ∀ fuel, h.state.stepsFor c.maxCallDepth n ≤ fuel →
      Eval.Settles c.maxCallDepth (Eval.node (h.state.stepsFor c.maxCallDepth n) n)
        (Eval.node fuel n) h.state :=
    fun fuel hfuel => Eval.ends_node (Nat.le_refl _) hfuel (Nat.le_refl _) htame h.state hst hroom
  have hend := (hends _ (Nat.le_refl _)).2
  refine ⟨?_, fun hfuel => ?_⟩
  · cases hr : Eval.node (h.state.stepsFor c.maxCallDepth n) n h.state with
    | ok o s => exact .inl ⟨o, s, fun fuel hfuel => (hends fuel hfuel).1.symm.trans hr⟩
    | error stop s =>
      rw [hr] at hend
      cases stop with
      | raised e => exact .inr ⟨e, s, fun fuel hfuel => (hends fuel hfuel).1.symm.trans hr⟩
      | exhausted => exact absurd rfl hend
  · rw [(hends _ hfuel).1] at hend
    rw [run_eval, run_act]
    simp only [Eval.tree, Eval.unwinding]
    cases hr : Eval.node Eval.fuel n h.state with
    | ok o s =>
      intro hstop
      cases hstop
    | error stop s =>
      rw [hr] at hend
      exact fun hstop => hend (Except.error.inj hstop)

/-- A list with a function in it that calls itself. -/
def selfCalling : Node :=
  let f := Node.function none 0 { name := "f" } [] none (.call none (.self none) [])
  .letVar none { name := "v" } none (some (.list none [.bool none true, f]))

def selfCaller : Host := ((Host.eval selfCalling).run (Moment.start {} .standard).host).2

/-- A loop that adds to the list it goes through, and then a call that only the limit to calls
ends. -/
def appendAndCall : Node :=
  let v := Node.var none { name := "v" }
  let x := Node.var none { name := "x" }
  .block none [.forLoop none x v (.call none (.var none { name := "append" }) [v, x]),
    .call none (.subscript none v (.literal none (.int 1))) []]

theorem while_free_ends_appendAndCall :
    selfCaller.Evaluates {} ∧ selfCaller.state.decls.length = 1 ∧
      selfCaller.state.stepsFor 1000 appendAndCall = 5004 ∧
      ((Host.eval appendAndCall).run selfCaller).1 ≠ .error .exhausted := by
  obtain ⟨-, -, henv, hheap, -⟩ :=
    Moment.finishes_eval (h := (Moment.start {} .standard).host) selfCalling
  have hstate : selfCaller.state.env = _ ∧ selfCaller.state.heap = _ := ⟨henv, hheap⟩
  have hdecls : selfCaller.state.decls.length = 1 ∧
      ∀ d ∈ selfCaller.state.decls, d.body.isWhileFree = true := by
    simp only [State.decls, hstate]
    decide +kernel
  have hsteps : selfCaller.state.stepsFor 1000 appendAndCall = 5004 := by
    simp only [State.stepsFor, State.heightWith, State.decls, hstate]
    decide +kernel
  have hh : selfCaller.Evaluates {} := .eval .start selfCalling
  refine ⟨hh, hdecls.1, hsteps, (while_free_ends hh rfl hdecls.2).2 ?_⟩
  exact Nat.le_trans (Nat.le_of_eq hsteps) (by decide)

end Host
end Scripting
