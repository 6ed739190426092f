import Mathlib.Tactic.Common
import Scripting.Proofs.Structured.Loops

/-! Evaluation by marks refines structured control flow. -/
namespace Scripting

/-- Known declarations fit, and so do the functions inside them. -/
def Known.Closed (K : Known) : Prop := ∀ d, K.decl d → K.Fits .body d.body

namespace Structured

open Eval Environment

variable {K : Known} {p : Position} {B C : Environment} {d : Decl} {span : Option Span}
  {ev : Node → Eval ObjectId} {ex : Node → Eval Outcome}

/-! ### Calls -/

theorem openCall_matches (hd : K.decl d) :
    Matches K B (openCall d span) (openCall d span) (fun _ _ C => C = B.callOpened d) := by
  refine (Matches.enter (by simp)).bind fun _ _ C hC => ?_
  subst hC
  refine (Matches.read (G := fun _ => True) (fun s => ?_) fun _ _ _ => trivial).andThen
    fun e _ => ?_
  · simp [State.unmarked]
  · cases e with
    | some e => exact Matches.leaveScope.bind fun _ _ _ _ => .raise
    | none =>
      refine .restack (fun _ => unmarked_pushFrame) (fun _ => bare_pushFrame) fun s hs => ?_
      refine hs.env hs.var hs.scope fun f hf => ?_
      obtain hin | rfl := Array.mem_push.mp hf
      · exact hs.frame f hin
      · exact hd

theorem bindFixed_matches {ps : List Param} {os : List ObjectId} (ho : ∀ o ∈ os, K.object o) :
    Matches K B (bindFixed ps os) (bindFixed ps os) (Steady (fun _ => True) B) := by
  induction ps generalizing os with
  | nil => exact .pure ⟨rfl, trivial, rfl⟩
  | cons q ps ih =>
    cases os with
    | nil => exact .pure ⟨rfl, trivial, rfl⟩
    | cons o os =>
      refine (Matches.define (ho o (by simp))).andThen fun _ _ => ?_
      exact ih fun x hx => ho x (by simp [hx])

theorem bindRest_matches {os : List ObjectId} (ho : ∀ o ∈ os, K.object o) :
    Matches K B (bindRest d os) (bindRest d os) (Steady (fun _ => True) B) := by
  unfold bindRest
  split
  · have hv : K.value (.vector os.toArray) :=
      ⟨fun e he => ho e (by simpa [Value.elements] using he), nofun⟩
    exact (Matches.alloc hv).andThen fun o ho => .define ho
  · exact .pure ⟨rfl, trivial, rfl⟩

/-- A call absorbs a return, and its body has no other way to leave it. -/
theorem Simulates.invoke (hsim : Simulates K ev ex) (hK : K.Closed) (hB : B.Coherent)
    (hd : K.decl d) {os : List ObjectId} (ho : ∀ o ∈ os, K.object o) :
    Matches K B (Eval.invoke ev d os span) (invoke ex d os span) (Steady K.object B) := by
  refine (Matches.ofExcept (G := fun _ => True) fun _ _ => trivial).andThen fun _ _ => ?_
  refine (openCall_matches hd).bind fun _ _ C hC => ?_
  subst hC
  refine (bindFixed_matches ho).andThen fun _ _ => ?_
  refine (bindRest_matches fun o hdrop => ho o (List.mem_of_mem_drop hdrop)).andThen fun _ _ => ?_
  have hbody : Position.body.Holds (B.callOpened d) := ⟨fun _ => currentLoop?_callOpened, nofun⟩
  refine (hsim .body _ _ coherent_callOpened hbody (hK d hd)).bind fun v out C hC => ?_
  obtain ⟨rfl, hend⟩ := hC
  obtain ⟨x, hx⟩ : ∃ x, out.mark (B.callOpened d) = _ := mark_callOpened
  refine .readMarks fun s hs => ?_
  have hpop : Matches K (out.mark (B.callOpened d)) (modifyEnv fun e => e.popFrame.2)
      (modifyEnv fun e => e.popFrame.2)
        (fun _ _ C => C = (out.mark (B.callOpened d)).popFrame.2) := by
    refine .restack (fun _ => unmarked_popFrame) (fun _ => bare_popFrame) fun s hs => ?_
    refine hs.env hs.var hs.scope fun f hf => ?_
    obtain ⟨i, hi, rfl⟩ := Array.mem_iff_getElem.mp hf
    exact hs.frame _ (by simp [popFrame])
  refine hpop.bind fun _ _ C hC => Matches.leaveScope.bind fun _ _ C' hC' => ?_
  have hback : s.env.bare.frames.back? = some (B.callLeft d out) := by simp [hs, hx]
  rw [hC' default, hC, hx, leave_popFrame hB.pos, show s.env.frames.back? = _ from hback]
  have hper := hend.permitted
  cases out with
  | normal o =>
    rw [hend.value o rfl]
    exact .pure ⟨rfl, hend.object, rfl⟩
  | broken _ | continued => cases hper
  | returned o => exact .pure ⟨rfl, hend.known, rfl⟩

theorem Simulates.call (hsim : Simulates K ev ex) (hK : K.Closed) (hB : B.Coherent)
    (hpos : p.Holds B) {f : Node} {args : List Node} (hf : K.Fits p.operand f)
    (hargs : ∀ m ∈ args, K.Fits p.operand m) :
    Matches K B (Eval.call ev span f args) (call ex span f args) (Steady K.object B) := by
  have hoperand := fun m => hsim.operand (n := m) hB p.operand_operand hpos.operand
  refine (Matches.callee hoperand hf).andThen fun o ho => ?_
  refine (Matches.valueOf ho).andThen fun v hv => ?_
  cases v with
  | tuple | vector => exact .raise
  | atom a =>
    cases a with
    | builtin b =>
      refine (Matches.operands (fun m hm => ?_) hargs).andThen fun os hos => .callBuiltin hos
      exact Matches.reference p.operand_operand hoperand hm
    | function d =>
      exact (Matches.operands hoperand hargs).andThen fun os hos =>
        hsim.invoke hK hB (hv.2 _ rfl d rfl) hos
    | _ => exact .raise

/-! ### All forms -/

theorem fits_statements {body : Node} (h : K.Fits p body) : ∀ m ∈ body.statements, K.Fits p m := by
  intro m hm
  unfold Node.statements at hm
  split at hm
  · exact Known.fits_of_all h.1 h.2 m hm
  · rw [List.mem_singleton.mp hm]
    exact h

theorem Simulates.form (hsim : Simulates K ev ex) (hK : K.Closed) (limit : Nat) :
    Simulates K (Eval.form ev limit) (form ex limit) := by
  intro p B n hB hpos hn
  have hoperand := fun m => hsim.operand (n := m) hB p.operand_operand hpos.operand
  obtain ⟨hfit, hdecl⟩ := hn
  cases n with
  | none _ | record _ => exact Matches.allocNone.normal
  | bool _ b => exact (Matches.allocAtom (a := .bool b) nofun).normal
  | literal _ l => exact (Matches.allocAtom (by cases l <;> exact nofun)).normal
  | emptyList _ =>
    exact (Matches.alloc (v := .vector #[]) ⟨by simp [Value.elements], nofun⟩).normal
  | list _ items | tuple _ items =>
    refine Matches.normal ((Matches.operands hoperand (Known.fits_of_all hfit hdecl)).andThen
      fun os hos => ?_)
    exact .alloc ⟨fun e he => hos e (by simpa [Value.elements] using he), nofun⟩
  | range _ a b =>
    obtain ⟨ha, hb⟩ := Known.fits_pair hfit hdecl
    exact (Matches.range hoperand ha hb).normal
  | var span ident => exact Matches.name.normal
  | subscript span a b =>
    obtain ⟨ha, hb⟩ := Known.fits_pair hfit hdecl
    exact (Matches.subscript p.operand_operand hoperand ha hb).normal
  | assign span a b =>
    obtain ⟨ha, hb⟩ := Known.fits_pair hfit hdecl
    exact (Matches.assignment p.operand_operand hoperand ha hb).normal
  | binary span op a b =>
    obtain ⟨ha, hb⟩ := Known.fits_pair hfit hdecl
    exact (Matches.binary hoperand ha hb).normal
  | compare span op a b =>
    have hn : K.Fits p.operand (.compare span op a b) := ⟨by simpa [Node.fits] using hfit, hdecl⟩
    obtain ⟨hfirst, hlinks⟩ := Known.fits_chain p.operand_operand hn
    exact (Matches.comparison hoperand hfirst hlinks).normal
  | call span f args =>
    simp only [Node.fits, Bool.and_eq_true] at hfit
    have hargs := Known.fits_of_all (K := K) hfit.2 fun d hd => hdecl d (List.mem_append_right _ hd)
    have hf : K.Fits p.operand f := ⟨hfit.1, fun d hd => hdecl d (List.mem_append_left _ hd)⟩
    exact (hsim.call hK hB hpos hf hargs).normal
  | function _ id ident params result body =>
    exact (Matches.functionObject (hdecl _ (by simp [Node.decls]))).normal
  | self span => exact Matches.selfFunction.normal
  | letVar _ ident _ init =>
    exact (Matches.letVar hoperand (Known.fits_of_option hfit hdecl)).normal
  | ret span value =>
    simp only [Node.fits, Bool.and_eq_true, bne_iff_ne] at hfit
    exact hsim.returnFrom hB hpos hfit.1 (Known.fits_of_option hfit.2 hdecl)
  | breakLoop span value =>
    simp only [Node.fits, Bool.and_eq_true, bne_iff_ne] at hfit
    exact hsim.breakFrom hB hpos hfit.1 (Known.fits_of_option hfit.2 hdecl)
  | continueLoop span =>
    simp only [Node.fits, bne_iff_ne] at hfit
    exact continueFrom_matches hpos hfit
  | block _ nodes => exact hsim.block hB hpos (Known.fits_of_all hfit hdecl)
  | cond _ test yes no =>
    simp only [Node.fits, Bool.and_eq_true] at hfit
    simp only [Known.node, Node.decls, List.mem_append] at hdecl
    exact hsim.conditional hB hpos ⟨hfit.1.1, fun d hd => hdecl d (.inl (.inl hd))⟩
      ⟨hfit.1.2, fun d hd => hdecl d (.inl (.inr hd))⟩
      (Known.fits_of_option hfit.2 fun d hd => hdecl d (.inr hd))
  | forLoop _ iterator iterable body =>
    simp only [Node.fits, Bool.and_eq_true] at hfit
    simp only [Known.node, Node.decls, List.mem_append] at hdecl
    exact hsim.forLoop hB hpos ⟨hfit.1.1, fun d hd => hdecl d (.inl (.inr hd))⟩
      ⟨hfit.1.2, fun d hd => hdecl d (.inl (.inl hd))⟩
      (fits_statements ⟨hfit.2, fun d hd => hdecl d (.inr hd)⟩)
  | whileLoop _ test body =>
    simp only [Node.fits, Bool.and_eq_true] at hfit
    simp only [Known.node, Node.decls, List.mem_append] at hdecl
    exact hsim.whileLoop hB hpos ⟨hfit.1, fun d hd => hdecl d (.inl hd)⟩
      (fits_statements ⟨hfit.2, fun d hd => hdecl d (.inr hd)⟩) limit

/-- The two evaluations agree on every node, whatever the bound. -/
theorem simulates_node (hK : K.Closed) (fuel : Nat) :
    Simulates K (Eval.node fuel) (node fuel) := by
  induction fuel with
  | zero => exact fun _ _ _ _ _ _ => .throw
  | succ fuel ih =>
    intro p B n hB hpos hn
    refine Matches.checkInterrupt.andThen fun _ _ => Matches.trace.andThen fun _ _ => ?_
    exact ih.form hK fuel p B n hB hpos hn

end Structured

/-! ### Whole trees -/

/-- What the evaluation of a tree can come upon. -/
def Known.reached (s : State) (n : Node) : Known where
  object o := ReachesObject s n o ∨ s.heap.store.next ≤ o
  decl := ReachesDecl s n

theorem Known.safe_reached {s : State} {n : Node} (hframes : s.env.frames = #[]) :
    (Known.reached s n).Safe s where
  var := fun scope hs v hv o ho => .inl (.variable hs hv ho)
  scope := fun scope hs d hd => .scope hs hd
  frame := by simp [hframes]
  inside := by
    rintro o (ho | ho)
    · exact ⟨fun _ he => .inl (.element ho he), fun _ ha _ hd => .payload ho (hd ▸ ha)⟩
    · exact (Store.value_of_next_le ho) ▸ Known.value_none
  memo := fun d o hd ho => .inl (.memo hd ho)
  fresh := fun o ho => .inr ho

theorem Known.closed_reached {s : State} {n : Node}
    (hdecls : ∀ d, ReachesDecl s n d → d.fits = true) : (Known.reached s n).Closed :=
  fun d hd => ⟨hdecls d hd, fun _ he => .nested hd he⟩

namespace Environment

variable {e : Environment} {u : Store}

theorem leaveMany_unmarked {k : Nat} :
    leaveMany k e.unmarked u = ((leaveMany k e u).1.unmarked, (leaveMany k e u).2) := by
  induction k generalizing e u with
  | zero => rfl
  | succ k ih => simp only [leaveMany, leave_unmarked, ih]

theorem restore_unmarked {c : Checkpoint} :
    e.unmarked.restore u c = ((e.restore u c).1.unmarked, (e.restore u c).2) := by
  have htake : ({ e.unmarked with
      loops := e.unmarked.loops.take c.loops
      frames := e.unmarked.frames.take c.frames } : Environment) =
      unmarked { e with loops := e.loops.take c.loops, frames := e.frames.take c.frames } := by
    simp [unmarked]
  simp only [restore, htake, leaveMany_unmarked, size_scopes_unmarked]
  refine Prod.ext (Eq.symm ?_) rfl
  exact unmarked_modifyScope (f := fun x => { x with isSkipped := false }) fun _ => rfl

end Environment

theorem State.Alike.restore {s t : State} (h : s.Alike t) (c : Checkpoint) :
    (s.restore c).Alike (t.restore c) := by
  have hrestore : ∀ s : State, (s.restore c).unmarked = s.unmarked.restore c := by
    intro s
    simp [State.restore, State.unmarked, Environment.restore_unmarked]
  rw [State.Alike, hrestore, hrestore, show s.unmarked = t.unmarked from h]

/-- Two states with the same objects, output and variables. -/
structure State.Agree (s t : State) : Prop where
  heap : s.heap = t.heap
  sink : s.sink = t.sink
  env : s.env.unmarked = t.env.unmarked

theorem State.agree_prune {s t : State} (h : s.Alike t) (held : List ObjectId) :
    (s.prune held).Agree t := by
  have hprune : (s.prune held).heap = s.heap ∧ (s.prune held).sink = s.sink ∧
      (s.prune held).env = s.env := by
    unfold State.prune
    split
    · exact ⟨rfl, rfl, rfl⟩
    · dsimp only
      split <;> exact ⟨rfl, rfl, rfl⟩
  obtain ⟨hheap, hsink, henv⟩ := hprune
  have hu : s.unmarked = t.unmarked := h
  exact ⟨hheap.trans (by simpa [State.unmarked] using congrArg State.heap hu),
    hsink.trans (by simpa [State.unmarked] using congrArg State.sink hu),
    henv ▸ congrArg State.env hu⟩

/-- Evaluation by marks refines structured control flow: from a state with only the global scope
open, and given that `break`, `continue` and `return` stand where they may in the tree and in every
function that it can reach, it ends as the structured evaluation does, with the same value or the
same error, the same objects and output, and the same variables. -/
theorem tree_refines_structured (held : List ObjectId) (n : Node) (s : State)
    (hscopes : s.env.scopes.size = 1) (hframes : s.env.frames = #[]) (hloops : s.env.loops = #[])
    (hn : n.fits .top = true) (hdecls : ∀ d, ReachesDecl s n d → d.fits = true) :
    match Eval.tree held n s, Structured.tree n s with
    | .ok o s', .ok out t' => out = .normal o ∧ s'.Agree t'
    | .error stop s', .error stop' t' => stop = stop' ∧ s'.Agree t'
    | _, _ => False := by
  have hloop : s.env.currentLoop? = none := by simp [Environment.currentLoop?, hloops]
  have hframe : s.env.currentFrame? = none := by simp [Environment.currentFrame?, hframes]
  have hfloor : s.env.bare.loopFloor ≤ s.env.bare.loops.size := by
    simp [Environment.bare, Environment.loopFloor, hframes]
  have hcoh : s.env.bare.Coherent :=
    ⟨by simp [hscopes], by simp [hloop], by simp [hframe], hfloor⟩
  have htop : Position.top.Holds s.env.bare := ⟨fun _ => hloop, fun _ => hframe⟩
  have hmatch := Structured.simulates_node (Known.closed_reached hdecls) Eval.fuel .top s.env.bare n
    hcoh htop ⟨hn, fun d hd => .tree hd⟩ s s rfl rfl (Known.safe_reached hframes)
  unfold Eval.tree Structured.tree Eval.unwinding
  cases hx : Eval.node Eval.fuel n s <;> cases hy : Structured.node Eval.fuel n s <;>
    simp only [hx, hy, Structured.Ended] at hmatch ⊢
  · obtain ⟨⟨-, hend⟩, halike, -⟩ := hmatch
    exact ⟨hend.operand rfl, State.agree_prune halike _⟩
  · obtain ⟨rfl, halike⟩ := hmatch
    exact ⟨rfl, State.agree_prune (halike.restore _) _⟩

/-- A script that returns from inside a loop, and leaves a loop with what it got. -/
def earlyExit : Node :=
  .block none
    [.function none 0 { name := "f" } [{ ident := { name := "x" } }] none
      (.whileLoop none (.bool none true)
        (.cond none (.bool none true) (.ret none (some (.var none { name := "x" }))) none)),
    .whileLoop none (.bool none true)
      (.block none
        [.letVar none { name := "y" } none
          (some (.call none (.var none { name := "f" }) [.literal none (.int 1)])),
        .breakLoop none (some (.var none { name := "y" }))])]

theorem tree_refines_structured_earlyExit :
    earlyExit.fits .top = true ∧ (∀ d, ReachesDecl {} earlyExit d → d.fits = true) ∧
      match Eval.tree [] earlyExit {}, Structured.tree earlyExit {} with
      | .ok o s', .ok out t' => out = .normal o ∧ s'.Agree t'
      | .error stop s', .error stop' t' => stop = stop' ∧ s'.Agree t'
      | _, _ => False := by
  have hdecls : ∀ d, ReachesDecl {} earlyExit d → d.fits = true := by
    intro d hd
    have hmem := mem_decls_of_reachesDecl (by simp) rfl hd
    simp only [earlyExit, Node.decls, Node.declsAll, Node.declsOption, List.append_nil,
      List.mem_cons, List.not_mem_nil, or_false] at hmem
    rw [hmem]
    rfl
  exact ⟨rfl, hdecls, tree_refines_structured [] earlyExit {} rfl rfl rfl rfl hdecls⟩

end Scripting
