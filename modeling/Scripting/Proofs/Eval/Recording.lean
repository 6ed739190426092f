import Mathlib.Tactic.Common
import Scripting.Proofs.Eval.Exits
import Scripting.Proofs.Eval.Places
import Scripting.Proofs.Structured.Marking

/-! An evaluation with a record runs as the one without, and its record explains the marks of calls
and loops: they are what the ways out that were taken, one after the other, make of the marks at the
start. -/
namespace Scripting

/-! ### What ways out do to calls and loops -/

/-- A call is marked as returned once it did, with what it returned last. -/
def Frame.Recounts (f : Frame) (exits : List Exit) : Prop :=
  f.isReturned = exits.any Exit.isReturn ∧ f.result = Exit.result? exits

theorem Exit.isSome_result? {exits : List Exit} :
    (Exit.result? exits).isSome = exits.any Exit.isReturn := by
  induction exits with
  | nil => rfl
  | cons x exits ih =>
    cases x with
    | broke value => simpa [Exit.result?, Exit.isReturn] using ih
    | returned o => rfl

/-- A loop is marked as broken once it was left, with the value of the latest `break`. -/
def LoopState.Recounts (l : LoopState) (exits : List Exit) : Prop :=
  l.isBroken = !exits.isEmpty ∧ l.result = Exit.latest? exits

def Exit.leave : Exit → Environment → Environment
  | .broke value, e => Eval.leaveLoop e value
  | .returned o, e => Eval.leaveFunction e o

namespace Environment

variable {e f g : Environment} {x : Exit} {exits more : List Exit} {o : ObjectId}
  {r : Option ObjectId}

/-- The same calls and loops, with the same marks. -/
def SameCalls (e f : Environment) : Prop := f.frames = e.frames ∧ f.loops = e.loops

theorem SameCalls.trans (h : e.SameCalls f) (h' : f.SameCalls g) : e.SameCalls g :=
  ⟨h'.1.trans h.1, h'.2.trans h.2⟩

theorem sameCalls_leave {s : Store} : e.SameCalls (e.leave s).1 :=
  ⟨Confined.frames_leave, Confined.loops_leave⟩

theorem sameCalls_declare {name : String} : e.SameCalls (e.declare name).2 := by
  simp only [declare]
  split <;> exact ⟨rfl, rfl⟩

theorem sameCalls_assign {s : Store} {p : Slot} : e.SameCalls (e.assign s p o).1 := by
  simp only [assign]
  split <;> exact ⟨rfl, rfl⟩

theorem sameCalls_define {s : Store} {name : String} : e.SameCalls (e.define s name o).1 :=
  sameCalls_declare.trans sameCalls_assign

theorem loops_leaveLoop : (Eval.leaveLoop e r).loops =
    if e.loopFloor < e.loops.size then
      e.loops.modify (e.loops.size - 1) ({ · with result := r, isBroken := true })
    else e.loops := by
  by_cases hlt : e.loopFloor < e.loops.size
  · obtain ⟨l, hl⟩ : ∃ l, e.loops.back? = some l := by
      rw [Array.back?_eq_getElem?]
      exact ⟨_, Array.getElem?_eq_getElem (by omega)⟩
    simp only [Eval.leaveLoop, currentLoop?, modifyLoop, if_pos hlt, hl, skipFrom]
  · simp only [Eval.leaveLoop, currentLoop?, if_neg hlt]

theorem frames_leaveLoop : (Eval.leaveLoop e r).frames = e.frames := by
  unfold Eval.leaveLoop modifyLoop
  split
  · rfl
  · split <;> rfl

theorem frames_leaveFunction : (Eval.leaveFunction e o).frames =
    e.frames.modify (e.frames.size - 1) ({ · with result := some o, isReturned := true }) := by
  unfold Eval.leaveFunction currentFrame?
  split
  · next hnone => simp [Array.back?_eq_none_iff.mp hnone]
  · rfl

theorem loops_leaveFunction : (Eval.leaveFunction e o).loops =
    e.frames.back?.elim e.loops fun f =>
      e.loops.mapIdx fun j l => if f.loopDepth ≤ j then { l with isBroken := true } else l := by
  unfold Eval.leaveFunction currentFrame?
  cases e.frames.back? <;> rfl

/-- Where a way out leads depends on calls and loops alone. -/
theorem SameCalls.leave (h : e.SameCalls f) : (x.leave e).SameCalls (x.leave f) := by
  cases x with
  | broke value =>
    simp only [SameCalls, Exit.leave, frames_leaveLoop, loops_leaveLoop, loopFloor, h.1, h.2]
    exact ⟨trivial, rfl⟩
  | returned o =>
    simp only [SameCalls, Exit.leave, frames_leaveFunction, loops_leaveFunction, h.1, h.2]
    exact ⟨trivial, trivial⟩

/-- The stacks after ways out, of which the latest comes first. -/
def left (e : Environment) (exits : List Exit) : Environment := exits.foldr Exit.leave e

theorem left_cons : e.left (x :: exits) = x.leave (e.left exits) := rfl

theorem SameCalls.left (h : e.SameCalls f) : (e.left exits).SameCalls (f.left exits) := by
  induction exits with
  | nil => exact h
  | cons x exits ih => exact ih.leave

/-- The loops of the running call come after those of the others. -/
def Floored (e : Environment) : Prop := e.loopFloor ≤ e.loops.size

theorem floor_modify {fs : Array Frame} {i : Nat} {k : Frame → Frame}
    (hk : ∀ f, (k f).loopDepth = f.loopDepth) :
    (fs.modify i k).back?.map (·.loopDepth) = fs.back?.map (·.loopDepth) := by
  rw [Array.back?_eq_getElem?, Array.back?_eq_getElem?, Array.size_modify, Array.getElem?_modify]
  split
  · cases fs[fs.size - 1]? <;> simp [hk]
  · rfl

theorem depths_leave : (x.leave e).loopFloor = e.loopFloor ∧
    (x.leave e).loops.size = e.loops.size ∧ (x.leave e).frames.size = e.frames.size := by
  cases x with
  | broke value =>
    refine ⟨?_, ?_, congrArg Array.size frames_leaveLoop⟩
    · rw [loopFloor, Exit.leave, frames_leaveLoop, loopFloor]
    · rw [Exit.leave, loops_leaveLoop]
      split <;> simp
  | returned o =>
    refine ⟨?_, ?_, ?_⟩
    · rw [loopFloor, Exit.leave, frames_leaveFunction, floor_modify, loopFloor]
      exact fun _ => rfl
    · rw [Exit.leave, loops_leaveFunction]
      cases e.frames.back? <;> simp
    · rw [Exit.leave, frames_leaveFunction, Array.size_modify]

theorem depths_left (e : Environment) (exits : List Exit) :
    (e.left exits).loopFloor = e.loopFloor ∧ (e.left exits).loops.size = e.loops.size ∧
      (e.left exits).frames.size = e.frames.size := by
  induction exits with
  | nil => exact ⟨rfl, rfl, rfl⟩
  | cons x exits ih =>
    obtain ⟨hfloor, hloops, hframes⟩ := depths_leave (x := x) (e := e.left exits)
    exact ⟨hfloor.trans ih.1, hloops.trans ih.2.1, hframes.trans ih.2.2⟩

/-- The calls and loops are those of before, marked by these ways out. Nothing was returned where no
call is open. -/
structure MarkedBy (exits : List Exit) (e f : Environment) : Prop where
  same : (e.left exits).SameCalls f
  framed : ∀ o, .returned o ∈ exits → e.frames.size ≠ 0

namespace MarkedBy

theorem of_same (h : e.SameCalls f) : MarkedBy [] e f := ⟨h, nofun⟩

theorem depths (h : MarkedBy exits e f) : f.loopFloor = e.loopFloor ∧ f.loops.size = e.loops.size ∧
    f.frames.size = e.frames.size := by
  obtain ⟨hfloor, hloops, hframes⟩ := depths_left e exits
  refine ⟨?_, by rw [h.same.2, hloops], by rw [h.same.1, hframes]⟩
  rw [← hfloor, loopFloor, loopFloor, h.same.1]

theorem floored (h : MarkedBy exits e f) (he : e.Floored) : f.Floored := by
  obtain ⟨hfloor, hloops, -⟩ := h.depths
  rw [Floored, hfloor, hloops]
  exact he

theorem trans (h : MarkedBy exits e f) (h' : MarkedBy more f g) : MarkedBy (more ++ exits) e g where
  same := by
    have happend : e.left (more ++ exits) = (e.left exits).left more := List.foldr_append ..
    rw [happend]
    exact h.same.left.trans h'.same
  framed := by
    intro o ho
    rcases List.mem_append.mp ho with hin | hin
    · exact h.depths.2.2 ▸ h'.framed o hin
    · exact h.framed o hin

end MarkedBy

/-! ### Within a loop -/

theorem loopFloor_lt_push {ls : Array LoopState} {l : LoopState} (h : e.loopFloor ≤ ls.size)
    (hf : f.frames = e.frames) (hl : f.loops = ls.push l) : f.loopFloor < f.loops.size := by
  rw [loopFloor, hf, hl, Array.size_push]
  exact Nat.lt_succ_of_le h

/-- A way out of an innermost loop marks it. A `break` does nothing else, a `return` does what it
does without the loop. -/
theorem leave_inLoop {l : LoopState} (he : e.Floored) (hframes : f.frames = e.frames)
    (hloops : f.loops = e.loops.push l) (hl : l.Recounts exits)
    (hframed : x.isReturn = true → e.frames.size ≠ 0) :
    ∃ l' : LoopState, l'.Recounts (x :: exits) ∧
      (x.leave f).frames = (if x.isReturn then x.leave e else e).frames ∧
      (x.leave f).loops = (if x.isReturn then x.leave e else e).loops.push l' := by
  cases x with
  | broke value =>
    refine ⟨{ l with result := value, isBroken := true }, ⟨rfl, rfl⟩, ?_, ?_⟩
    · exact frames_leaveLoop.trans hframes
    · rw [Exit.leave, loops_leaveLoop, if_pos (loopFloor_lt_push he hframes hloops), hloops]
      exact modify_push_last
  | returned o =>
    obtain ⟨fr, hfr⟩ : ∃ fr, e.frames.back? = some fr := by
      have := hframed rfl
      rw [Array.back?_eq_getElem?]
      exact ⟨_, Array.getElem?_eq_getElem (by omega)⟩
    have hdepth : fr.loopDepth ≤ e.loops.size := by simpa [Floored, loopFloor, hfr] using he
    refine ⟨{ l with isBroken := true }, ⟨rfl, hl.2⟩, ?_, ?_⟩
    · simp only [Exit.isReturn, if_true, Exit.leave, frames_leaveFunction, hframes]
    · simp [Exit.isReturn, Exit.leave, loops_leaveFunction, hframes, hloops, hfr, hdepth]

/-- The ways out of an innermost loop mark it, and what was returned in it does the rest. -/
theorem left_inLoop {l : LoopState} (he : e.Floored) (hframes : f.frames = e.frames)
    (hloops : f.loops = e.loops.push l) (hl : l.Recounts [])
    (hframed : ∀ o, .returned o ∈ exits → e.frames.size ≠ 0) :
    ∃ l' : LoopState, l'.Recounts exits ∧
      (f.left exits).frames = (e.left (exits.filter Exit.isReturn)).frames ∧
      (f.left exits).loops = (e.left (exits.filter Exit.isReturn)).loops.push l' := by
  induction exits with
  | nil => exact ⟨l, hl, hframes, hloops⟩
  | cons x exits ih =>
    obtain ⟨k, hk, hframes', hloops'⟩ := ih fun o ho => hframed o (List.mem_cons_of_mem x ho)
    obtain ⟨hfloor, hsize, hcalls⟩ := depths_left e (exits.filter Exit.isReturn)
    have hfloored : (e.left (exits.filter Exit.isReturn)).Floored := by
      rw [Floored, hfloor, hsize]
      exact he
    have hreturn : x.isReturn = true → (e.left (exits.filter Exit.isReturn)).frames.size ≠ 0 := by
      intro hx
      rw [hcalls]
      cases x with
      | broke value => cases hx
      | returned o => exact hframed o List.mem_cons_self
    obtain ⟨l', hl', hend⟩ := leave_inLoop hfloored hframes' hloops' hk hreturn
    refine ⟨l', hl', ?_⟩
    rw [List.filter_cons]
    cases hx : x.isReturn <;> rw [hx] at hend <;> exact hend

/-! ### Within a call -/

/-- A way out of an innermost call, or of one of its loops, marks the call and nothing around it. -/
theorem left_inCall {fr : Frame} (exits : List Exit) (hframes : f.frames = e.frames.push fr)
    (hloops : f.loops = e.loops) (hdepth : fr.loopDepth = e.loops.size) (hfr : fr.Recounts []) :
    ∃ fr' : Frame, fr'.Recounts exits ∧ fr'.loopDepth = e.loops.size ∧
      (f.left exits).frames = e.frames.push fr' ∧ (f.left exits).loops = e.loops := by
  induction exits with
  | nil => exact ⟨fr, hfr, hdepth, hframes, hloops⟩
  | cons x exits ih =>
    obtain ⟨k, hk, hkdepth, hframes', hloops'⟩ := ih
    cases x with
    | broke value =>
      refine ⟨k, ?_, hkdepth, frames_leaveLoop.trans hframes', ?_⟩
      · simpa [Frame.Recounts, Exit.isReturn, Exit.result?] using hk
      · have hfloor : ¬ (f.left exits).loopFloor < (f.left exits).loops.size := by
          simp [loopFloor, hframes', hloops', hkdepth]
        exact loops_leaveLoop.trans ((if_neg hfloor).trans hloops')
    | returned o =>
      refine ⟨{ k with result := some o, isReturned := true }, ⟨rfl, rfl⟩, hkdepth, ?_, ?_⟩
      · rw [left_cons, Exit.leave, frames_leaveFunction, hframes']
        exact modify_push_last
      · rw [left_cons, Exit.leave, loops_leaveFunction, hframes', hloops', Array.back?_push,
          Option.elim_some]
        refine Array.ext (by simp) fun j hj hj' => ?_
        simp only [Array.getElem_mapIdx]
        rw [if_neg]
        rw [hkdepth]
        omega

end Environment

namespace Eval

variable {α β : Type} {o : ObjectId} {os : List ObjectId} {span : Option Span} {s t : State}

/-! ### Operations that no call or loop takes part in -/

/-- An operation that opens, closes and marks neither calls nor loops. -/
def Placid (x : Eval α) : Prop := ∀ s a t, x s = .ok a t → s.env.SameCalls t.env

namespace Placid

variable {x : Eval α} {f : α → Eval β}

theorem still (h : Routine .still x) : Placid x := by
  intro s a t ht
  have henv := h.still s
  rw [ht] at henv
  exact ⟨congrArg Environment.frames henv, congrArg Environment.loops henv⟩

theorem bind (hx : Placid x) (hf : ∀ a, Placid (f a)) : Placid (x >>= f) := by
  intro s b u hu
  obtain ⟨a, t, ht, hend⟩ := exists_of_bind_eq_ok hu
  exact (hx s a t ht).trans (hf a t b u hend)

theorem modifyEnv {f : Environment → Environment} (h : ∀ e : Environment, e.SameCalls (f e)) :
    Placid (Eval.modifyEnv f) := by
  intro s _ t ht
  cases ht
  exact h s.env

theorem modifyScope {i : Nat} {f : Scope → Scope} :
    Placid (Eval.modifyEnv (·.modifyScope i f)) := modifyEnv fun _ => ⟨rfl, rfl⟩

theorem modifyBindings {f : Environment → Store → Environment × Store}
    (h : ∀ (e : Environment) s, e.SameCalls (f e s).1) : Placid (Eval.modifyBindings f) := by
  intro s _ t ht
  cases ht
  exact h s.env s.heap.store

theorem leaveScope : Placid Eval.leaveScope :=
  modifyBindings fun _ _ => Environment.sameCalls_leave

theorem declare {name : String} : Placid (Eval.declare name) := by
  intro s _ t ht
  cases ht
  exact Environment.sameCalls_declare

theorem define {name : String} : Placid (Eval.define name o) :=
  modifyBindings fun _ _ => Environment.sameCalls_define

theorem store {p : Place} : Placid (Eval.store p o span) := by
  rcases p with slot | ⟨vector, index⟩
  · refine bind (still (.read fun _ _ => rfl)) fun isThere => ?_
    split
    · exact modifyBindings fun _ _ => Environment.sameCalls_assign
    · exact still .raise
  · exact still .storeElement

theorem continueFrom : Placid (Eval.continueFrom span) := by
  refine bind (still (.read fun _ _ => rfl)) fun l => ?_
  split
  · exact bind (modifyEnv fun _ => ⟨rfl, rfl⟩) fun _ => still .allocNone
  · exact still .raise

theorem freshIterator (iterator : Node) : Placid (Eval.freshIterator iterator) := by
  unfold Eval.freshIterator
  split
  · exact declare.bind fun _ => still .pure
  · exact still .pure

theorem bindFixed (params : List Param) (os : List ObjectId) :
    Placid (Eval.bindFixed params os) := by
  induction params generalizing os with
  | nil => exact still .pure
  | cons p params ih =>
    cases os with
    | nil => exact still .pure
    | cons o os => exact define.bind fun _ => ih os

theorem bindRest (d : Decl) (os : List ObjectId) : Placid (Eval.bindRest d os) := by
  unfold Eval.bindRest
  split
  · exact (still .alloc).bind fun _ => define
  · exact still .pure

end Placid

theorem openCall_ok {d : Decl} (h : openCall d span s = .ok () t) :
    t.env = (s.env.enter .function []).pushFrame d := by
  obtain ⟨_, u, hu, h⟩ := exists_of_bind_eq_ok h
  cases hu
  obtain ⟨tooDeep, u, hu, h⟩ := exists_of_bind_eq_ok h
  cases tooDeep with
  | none =>
    injection hu with _ hu
    subst hu
    cases h
    rfl
  | some e =>
    obtain ⟨_, v, -, h⟩ := exists_of_bind_eq_ok h
    cases h

theorem closeCall_env {value : ObjectId} (h : closeCall value s = .ok o t) :
    t.env.frames = s.env.frames.pop ∧ t.env.loops = s.env.loops := by
  obtain ⟨frame, u, hu, h⟩ := exists_of_bind_eq_ok h
  cases hu
  obtain ⟨_, u, hu, h⟩ := exists_of_bind_eq_ok h
  cases hu
  exact (Placid.leaveScope.bind fun _ => .still .callResult) _ _ _ h

theorem closeLoop_env (h : closeLoop s = .ok o t) :
    t.env.frames = s.env.frames ∧ t.env.loops = s.env.loops.pop := by
  obtain ⟨l, u, hu, h⟩ := exists_of_bind_eq_ok h
  cases hu
  obtain ⟨_, u, hu, h⟩ := exists_of_bind_eq_ok h
  cases hu
  exact (Placid.leaveScope.bind fun _ => .still .orNone) _ _ _ h

end Eval

/-! ### Evaluation with and without a record -/

namespace Recorded

variable {α β : Type} {x : Recorded α} {f : α → Recorded β} {a : α} {stop : Stop} {s t : State}
  {es inner : List Exit}

theorem bind_ok (h : x es s = .ok (a, inner) t) : (x >>= f) es s = f a inner t := by
  simp only [Bind.bind, StateT.bind, EStateM.bind, h]

theorem bind_error (h : x es s = .error stop t) : (x >>= f) es s = .error stop t := by
  simp only [Bind.bind, StateT.bind, EStateM.bind, h]

theorem lift_ok {y : Eval α} (h : y s = .ok a t) : (liftM y : Recorded α) es s = .ok (a, es) t :=
  Eval.bind_ok h

theorem lift_error {y : Eval α} (h : y s = .error stop t) :
    (liftM y : Recorded α) es s = .error stop t := Eval.bind_error h

theorem inLoop_ok (h : x [] s = .ok (a, inner) t) :
    inLoop x es s = .ok (a, inner.filter Exit.isReturn ++ es) t :=
  (bind_ok (x := get) rfl).trans ((bind_ok (x := set _) rfl).trans (bind_ok h))

theorem inLoop_error (h : x [] s = .error stop t) : inLoop x es s = .error stop t :=
  (bind_ok (x := get) rfl).trans ((bind_ok (x := set _) rfl).trans (bind_error h))

theorem inCall_ok (h : x [] s = .ok (a, inner) t) : inCall x es s = .ok (a, es) t :=
  (bind_ok (x := get) rfl).trans ((bind_ok (x := set _) rfl).trans (bind_ok h))

theorem inCall_error (h : x [] s = .error stop t) : inCall x es s = .error stop t :=
  (bind_ok (x := get) rfl).trans ((bind_ok (x := set _) rfl).trans (bind_error h))

end Recorded

open Eval

/-- The evaluation with a record ends as the one without, and the ways out that it notes explain the
marks. -/
def Records {α : Type} (x : Recorded α) (y : Eval α) : Prop := ∀ s : State, s.env.Floored →
  (∀ a t, y s = .ok a t → ∃ exits, s.env.MarkedBy exits t.env ∧
    ∀ es, x es s = .ok (a, exits ++ es) t) ∧
  ∀ stop t, y s = .error stop t → ∀ es, x es s = .error stop t

namespace Records

variable {α β : Type} {x : Recorded α} {y : Eval α} {f : α → Recorded β} {g : α → Eval β}
  {span : Option Span}

theorem lift (h : Placid y) : Records (liftM y) y := by
  refine fun s _ => ⟨fun a t ht => ?_, fun stop t ht es => Recorded.lift_error ht⟩
  exact ⟨[], .of_same (h s a t ht), fun es => Recorded.lift_ok ht⟩

theorem still (h : Routine .still y) : Records (liftM y) y := lift (.still h)

theorem pure {a : α} : Records (Pure.pure a) (Pure.pure a) := still .pure

theorem bind (hx : Records x y) (hf : ∀ a, Records (f a) (g a)) : Records (x >>= f) (y >>= g) := by
  intro s hs
  obtain ⟨hok, herror⟩ := hx s hs
  cases hy : y s with
  | error stop t =>
    have hend := herror stop t hy
    rw [Eval.bind_error hy]
    refine ⟨nofun, fun stop' t' ht es => ?_⟩
    cases ht
    exact Recorded.bind_error (hend es)
  | ok a t =>
    obtain ⟨exits, hmarked, hrun⟩ := hok a t hy
    obtain ⟨hok', herror'⟩ := hf a t (hmarked.floored hs)
    rw [Eval.bind_ok hy]
    refine ⟨fun b u hu => ?_, fun stop u hu es => ?_⟩
    · obtain ⟨more, hmarked', hrun'⟩ := hok' b u hu
      refine ⟨more ++ exits, hmarked.trans hmarked', fun es => ?_⟩
      rw [Recorded.bind_ok (hrun es), hrun', List.append_assoc]
    · rw [Recorded.bind_ok (hrun es), herror' stop u hu]

/-- Something placid first, then what depends on operands. -/
theorem after {z : Eval β} {f : β → Recorded α} {g : β → Eval α} (hz : Placid z)
    (hf : ∀ b, Records (f b) (g b)) : Records (liftM z >>= f) (z >>= g) := (lift hz).bind hf

theorem look {z : Eval β} {f : β → Recorded α} {g : β → Eval α} (hz : Routine .still z)
    (hf : ∀ b, Records (f b) (g b)) : Records (liftM z >>= f) (z >>= g) := (still hz).bind hf

/-! ### Ways out -/

/-- A `return` that is executed is noted. -/
theorem endCall {result : ObjectId} : Records (do
      if ← Eval.read (·.env.currentFrame?.isNone) then
        Eval.raise { kind := .notInsideFunction, span }
      else
        Eval.modifyEnv (leaveFunction · result)
        Recorded.note (.returned result)
        Eval.allocNone)
    (do
      if ← Eval.read (·.env.currentFrame?.isNone) then
        Eval.raise { kind := .notInsideFunction, span }
      else
        Eval.modifyEnv (leaveFunction · result)
        Eval.allocNone) := by
  intro s _
  have hread : Eval.read (·.env.currentFrame?.isNone) s =
      .ok s.env.currentFrame?.isNone s := rfl
  simp only [Eval.bind_ok hread, Recorded.bind_ok (Recorded.lift_ok hread)]
  cases hframe : s.env.currentFrame?.isNone with
  | true =>
    refine ⟨fun o t ht => ?_, fun stop t ht es => ?_⟩
    · cases ht
    · cases ht
      rfl
  | false =>
    refine ⟨fun o t ht => ?_, fun stop t ht => ?_⟩
    · cases ht
      refine ⟨[.returned result], ⟨⟨rfl, rfl⟩, fun _ _ hsize => ?_⟩, fun es => rfl⟩
      simp [Environment.currentFrame?, Array.eq_empty_of_size_eq_zero hsize] at hframe
    · cases ht

/-- A `break` that is executed is noted. -/
theorem endLoop {result : Option ObjectId} : Records (do
      if ← Eval.read (·.env.currentLoop?.isNone) then notInsideLoop "break" span
      else
        Eval.modifyEnv (leaveLoop · result)
        Recorded.note (.broke result)
        Eval.allocNone)
    (do
      if ← Eval.read (·.env.currentLoop?.isNone) then notInsideLoop "break" span
      else
        Eval.modifyEnv (leaveLoop · result)
        Eval.allocNone) := by
  refine look (.read fun _ _ => rfl) fun isNone => ?_
  cases isNone with
  | true => exact still .raise
  | false =>
    refine fun s _ => ⟨fun o t ht => ?_, fun stop t ht => ?_⟩
    · cases ht
      exact ⟨[.broke result], ⟨⟨rfl, rfl⟩, by simp⟩, fun es => rfl⟩
    · cases ht

/-! ### Loops and calls -/

/-- A loop around what goes through its items. -/
theorem inLoop (nodes : List Node) {x : Recorded Unit} {y : Eval Unit} (h : Records x y) :
    Records (Recorded.inLoop do Eval.openLoop nodes; x; Eval.closeLoop)
      (do Eval.openLoop nodes; y; Eval.closeLoop) := by
  intro s hs
  obtain ⟨u, hu, hframes, hloops⟩ : ∃ u, Eval.openLoop nodes s = .ok () u ∧
      u.env.frames = s.env.frames ∧
      u.env.loops = s.env.loops.push { scopeIndex := s.env.scopes.size } := ⟨_, rfl, rfl, rfl⟩
  have hfloored : u.env.Floored :=
    Nat.le_of_lt (Environment.loopFloor_lt_push hs hframes hloops)
  obtain ⟨hok, herror⟩ := h u hfloored
  have hopened : (liftM (Eval.openLoop nodes) >>= fun _ => x >>= fun _ => liftM Eval.closeLoop :
      Recorded ObjectId) [] s = (x >>= fun _ => liftM Eval.closeLoop : Recorded ObjectId) [] u :=
    Recorded.bind_ok (Recorded.lift_ok hu)
  rw [Eval.bind_ok hu]
  cases hy : y u with
  | error stop v =>
    rw [Eval.bind_error hy]
    refine ⟨nofun, fun stop' v' hv es => ?_⟩
    cases hv
    exact Recorded.inLoop_error (hopened.trans (Recorded.bind_error (herror stop v hy [])))
  | ok _ v =>
    obtain ⟨exits, hmarked, hrun⟩ := hok () v hy
    rw [Eval.bind_ok hy]
    have hturned := hopened.trans (Recorded.bind_ok (hrun []))
    rw [List.append_nil] at hturned
    constructor
    · intro o w hw
      have hframed : ∀ o, .returned o ∈ exits → s.env.frames.size ≠ 0 :=
        fun o ho => hframes ▸ hmarked.framed o ho
      obtain ⟨l, -, hframes', hloops'⟩ :=
        Environment.left_inLoop hs hframes hloops ⟨rfl, rfl⟩ hframed
      obtain ⟨hclosed, hpopped⟩ := closeLoop_env hw
      refine ⟨exits.filter Exit.isReturn, ⟨⟨?_, ?_⟩, fun o ho => ?_⟩, fun es => ?_⟩
      · rw [hclosed, hmarked.same.1, hframes']
      · rw [hpopped, hmarked.same.2, hloops', Array.pop_push]
      · exact hframed o (List.mem_filter.mp ho).1
      · exact Recorded.inLoop_ok (hturned.trans (Recorded.lift_ok hw))
    · intro stop w hw es
      exact Recorded.inLoop_error (hturned.trans (Recorded.lift_error hw))

/-- A call around its body. -/
theorem inCall (decl : Decl) (span : Option Span) {x : Recorded ObjectId} {y : Eval ObjectId}
    (h : Records x y) :
    Records (Recorded.inCall do Eval.openCall decl span; let value ← x; Eval.closeCall value)
      (do Eval.openCall decl span; let value ← y; Eval.closeCall value) := by
  intro s _
  cases hu : Eval.openCall decl span s with
  | error stop u =>
    rw [Eval.bind_error hu]
    refine ⟨nofun, fun stop' u' hu' es => ?_⟩
    cases hu'
    exact Recorded.inCall_error (Recorded.bind_error (Recorded.lift_error hu))
  | ok _ u =>
    have henv := openCall_ok hu
    have hframes : u.env.frames = s.env.frames.push
        { decl, scopeDepth := s.env.scopes.size, loopDepth := s.env.loops.size } := by
      simp [henv, Environment.pushFrame, Environment.enter, Environment.currentIndex]
    have hloops : u.env.loops = s.env.loops := by rw [henv]; rfl
    have hfloored : u.env.Floored := by
      simp [Environment.Floored, Environment.loopFloor, hframes, hloops]
    obtain ⟨hok, herror⟩ := h u hfloored
    have hopened : (liftM (Eval.openCall decl span) >>= fun _ =>
        x >>= fun value => liftM (Eval.closeCall value) : Recorded ObjectId) [] s =
          (x >>= fun value => liftM (Eval.closeCall value) : Recorded ObjectId) [] u :=
      Recorded.bind_ok (Recorded.lift_ok hu)
    rw [Eval.bind_ok hu]
    cases hy : y u with
    | error stop v =>
      rw [Eval.bind_error hy]
      refine ⟨nofun, fun stop' v' hv es => ?_⟩
      cases hv
      exact Recorded.inCall_error (hopened.trans (Recorded.bind_error (herror stop v hy [])))
    | ok value v =>
      obtain ⟨exits, hmarked, hrun⟩ := hok value v hy
      rw [Eval.bind_ok hy]
      have hended := hopened.trans (Recorded.bind_ok (hrun []))
      constructor
      · intro o w hw
        obtain ⟨f, -, -, hframes', hloops'⟩ :=
          Environment.left_inCall exits hframes hloops rfl ⟨rfl, rfl⟩
        obtain ⟨hpopped, hclosed⟩ := closeCall_env hw
        refine ⟨[], .of_same ⟨?_, ?_⟩, fun es => ?_⟩
        · rw [hpopped, hmarked.same.1, hframes', Array.pop_push]
        · rw [hclosed, hmarked.same.2, hloops']
        · exact Recorded.inCall_ok (hended.trans (Recorded.lift_ok hw))
      · intro stop w hw es
        exact Recorded.inCall_error (hended.trans (Recorded.lift_error hw))

/-! ### Forms -/

section

variable {ev : Node → Recorded ObjectId} {ev' : Node → Eval ObjectId}
  (h : ∀ n, Records (ev n) (ev' n))

include h

theorem elementPlace {vector : ObjectId} {target index : Node} :
    Records (Recorded.elementPlace ev vector target index)
      (Eval.elementPlace ev' vector target index) :=
  (h index).bind fun _ => look .subscriptIndex fun _ => pure

theorem reference (n : Node) : Records (Recorded.reference ev n) (Eval.reference ev' n) := by
  induction n using Eval.reference.induct with
  | case1 span ident =>
    refine look (.read fun _ _ => rfl) fun isVariable => ?_
    cases isVariable
    · exact h _
    · exact look .variablePlace fun _ => still .load
  | case2 span target index ih =>
    exact ih.bind fun vector => (elementPlace h).bind fun _ => still .load
  | case3 n hvar hsub =>
    rw [Recorded.reference.eq_3 ev n hvar hsub, Eval.reference.eq_3 ev' n hvar hsub]
    exact h n

theorem place (n : Node) : Records (Recorded.place ev n) (Eval.place ev' n) := by
  cases n with
  | var => exact still .variablePlace
  | subscript span target index => exact (reference h target).bind fun _ => elementPlace h
  | _ => exact still .raise

theorem subscript {target index : Node} :
    Records (Recorded.subscript ev span target index) (Eval.subscript ev' span target index) := by
  refine (reference h target).bind fun vector => (elementPlace h).bind fun p => ?_
  exact look .load fun _ => still .copy

theorem assign {target value : Node} :
    Records (Recorded.assign ev span target value) (Eval.assign ev' span target value) := by
  refine (place h target).bind fun p => (h value).bind fun o => ?_
  exact look .copy fun _ => after .store fun _ => pure

theorem letVar {ident : Ident} {init : Option Node} :
    Records (Recorded.letVar ev ident init) (Eval.letVar ev' ident init) := by
  cases init with
  | none => exact after .declare fun _ => still .allocNone
  | some n => exact (h n).bind fun o => after .define fun _ => still .allocNone

theorem operands (ns : List Node) : Records (Recorded.operands ev ns) (Eval.operands ev' ns) := by
  induction ns with
  | nil => exact pure
  | cons n ns ih => exact (h n).bind fun _ => ih.bind fun _ => pure

theorem binary {op : BinaryOp} {lhs rhs : Node} :
    Records (Recorded.binary ev span op lhs rhs) (Eval.binary ev' span op lhs rhs) := by
  refine (h lhs).bind fun l => (h rhs).bind fun r => ?_
  exact look .valueOf fun v => look .valueOf fun w => look .compute fun _ => still .alloc

theorem compareLinks (links : List (CompareOp × Node)) {l : ObjectId} :
    Records (Recorded.compareLinks ev span l links) (Eval.compareLinks ev' span l links) := by
  induction links generalizing l with
  | nil => exact pure
  | cons link links ih =>
    refine (h link.2).bind fun r => look .compareObjects fun holds => ?_
    cases holds
    · exact pure
    · exact ih

theorem comparison {n : Node} :
    Records (Recorded.comparison ev span n) (Eval.comparison ev' span n) :=
  (h _).bind fun _ => (compareLinks h _).bind fun _ => still .allocAtom

theorem range {start stop : Node} :
    Records (Recorded.range ev start stop) (Eval.range ev' start stop) := by
  refine (h start).bind fun a => (h stop).bind fun b => ?_
  exact look .expectInt fun _ => look .expectInt fun _ => still .allocAtom

theorem condition {test : Node} :
    Records (Recorded.condition ev test) (Eval.condition ev' test) := by
  refine (h test).bind fun o => look .valueOf fun v => ?_
  cases v.bool? with
  | some b => exact pure
  | none => exact still .raise

theorem conditional {test yes : Node} {no : Option Node} :
    Records (Recorded.conditional ev test yes no) (Eval.conditional ev' test yes no) := by
  refine (condition h).bind fun holds => ?_
  cases holds with
  | true => exact h yes
  | false =>
    cases no with
    | none => exact still .allocNone
    | some n => exact h n

theorem returnFrom {value : Option Node} :
    Records (Recorded.returnFrom ev span value) (Eval.returnFrom ev' span value) := by
  refine look (.read fun _ _ => rfl) fun isNone => ?_
  cases isNone
  · cases value with
    | none => exact look .allocNone fun _ => endCall
    | some n => exact (h n).bind fun _ => endCall
  · exact still .raise

theorem breakFrom {value : Option Node} :
    Records (Recorded.breakFrom ev span value) (Eval.breakFrom ev' span value) := by
  refine look (.read fun _ _ => rfl) fun isNone => ?_
  cases isNone
  · cases value with
    | none => exact (pure : Records (Pure.pure none) (Pure.pure none)).bind fun _ => endLoop
    | some n => exact ((h n).bind fun _ => pure).bind fun _ => endLoop
  · exact still .raise

theorem runStatements {index : Nat} (ns : List Node) :
    Records (Recorded.runStatements ev index ns) (Eval.runStatements ev' index ns) := by
  induction ns with
  | nil => exact pure
  | cons n ns ih =>
    refine (h n).bind fun o => after .modifyScope fun _ => ?_
    refine look (.read fun _ _ => rfl) fun isSkipped => ?_
    cases isSkipped
    · exact ih
    · exact pure

theorem statements (ns : List Node) :
    Records (Recorded.statements ev ns) (Eval.statements ev' ns) := by
  refine look (.read fun _ _ => rfl) fun index => after .modifyScope fun _ => ?_
  refine (runStatements h ns).bind fun _ => look (.read fun _ _ => rfl) fun last => ?_
  refine after .modifyScope fun _ => ?_
  cases last with
  | none => exact still .allocNone
  | some o => exact pure

theorem block (ns : List Node) : Records (Recorded.block ev ns) (Eval.block ev' ns) := by
  unfold Recorded.block Eval.block
  split
  · exact still .allocNone
  · refine after (.modifyEnv fun _ => ⟨rfl, rfl⟩) fun _ => (statements h ns).bind fun o => ?_
    exact after .leaveScope fun _ => pure

theorem iterate (iterator body : Node) (fresh : Option Place) (item : ObjectId) :
    Records (Recorded.iterate ev iterator body fresh item)
      (Eval.iterate ev' iterator body fresh item) := by
  refine look .isBroken fun isBroken => ?_
  cases isBroken
  · refine look .checkInterrupt fun _ => ?_
    cases fresh with
    | some p =>
      refine (pure (a := p)).bind fun q => after .store fun _ => ?_
      exact (statements h _).bind fun _ => look .isBroken fun _ => pure
    | none =>
      refine (place h iterator).bind fun q => after .store fun _ => ?_
      exact (statements h _).bind fun _ => look .isBroken fun _ => pure
  · exact pure

omit h in
theorem forRange {step : ObjectId → Recorded Bool} {step' : ObjectId → Eval Bool}
    (hstep : ∀ o, Records (step o) (step' o)) (n : Nat) (i : Int) :
    Records (Recorded.forRange step n i) (Eval.forRange step' n i) := by
  induction n generalizing i with
  | zero => exact pure
  | succ n ih =>
    refine look .allocAtom fun item => (hstep item).bind fun goesOn => ?_
    cases goesOn
    · exact pure
    · exact ih (i + 1)

omit h in
theorem forElements {step : ObjectId → Recorded Bool} {step' : ObjectId → Eval Bool}
    (hstep : ∀ o, Records (step o) (step' o)) (os : List ObjectId) :
    Records (Recorded.forElements step os) (Eval.forElements step' os) := by
  induction os with
  | nil => exact pure
  | cons o os ih =>
    refine look .copy fun item => (hstep item).bind fun goesOn => ?_
    cases goesOn
    · exact pure
    · exact ih

theorem forLoop {iterator iterable body : Node} :
    Records (Recorded.forLoop ev iterator iterable body)
      (Eval.forLoop ev' iterator iterable body) := by
  refine (h iterable).bind fun o => look .itemsOf fun items => ?_
  cases items with
  | range r =>
    have hitems := inLoop body.statements (after (.freshIterator iterator) fun fresh =>
      forRange (iterate h iterator body fresh) r.length r.start.toInt)
    simpa only [bind_assoc] using hitems
  | elements os =>
    have hitems := inLoop body.statements (after (.freshIterator iterator) fun fresh =>
      forElements (iterate h iterator body fresh) os)
    simpa only [bind_assoc] using hitems

theorem whileHolds (k : Nat) {test body : Node} :
    Records (Recorded.whileHolds ev test body k) (Eval.whileHolds ev' test body k) := by
  induction k with
  | zero => exact still .throw_exhausted
  | succ k ih =>
    refine look .isBroken fun isBroken => ?_
    cases isBroken
    · refine look .checkInterrupt fun _ => (condition h).bind fun holds => ?_
      cases holds
      · exact pure
      · exact (statements h _).bind fun _ => ih
    · exact pure

theorem callee (n : Node) : Records (Recorded.callee ev n) (Eval.callee ev' n) := by
  cases n with
  | var span ident =>
    refine look (.read fun _ _ => rfl) fun isKnown => ?_
    cases isKnown
    · exact still .raise
    · exact h _
  | _ => exact h _

theorem invoke {decl : Decl} {args : List ObjectId} :
    Records (Recorded.invoke ev decl args span) (Eval.invoke ev' decl args span) := by
  have hbody := inCall decl span (after (.bindFixed decl.fixed args) fun _ =>
    after (.bindRest decl (args.drop decl.fixed.length)) fun _ => h decl.body)
  refine look .ofExcept fun _ => ?_
  simpa only [bind_assoc] using hbody

theorem call {n : Node} {args : List Node} :
    Records (Recorded.call ev span n args) (Eval.call ev' span n args) := by
  refine (callee h n).bind fun o => look .valueOf fun v => ?_
  cases v with
  | vector | tuple => exact still .raise
  | atom a =>
    cases a with
    | builtin b => exact (operands (reference h) args).bind fun _ => still .callBuiltin
    | function decl => exact (operands h args).bind fun _ => invoke h
    | _ => exact still .raise

theorem form (k : Nat) (n : Node) : Records (Recorded.form ev k n) (Eval.form ev' k n) := by
  cases n with
  | none | record => exact still .allocNone
  | bool | literal => exact still .allocAtom
  | emptyList => exact still .alloc
  | list _ items | tuple _ items => exact (operands h items).bind fun _ => still .alloc
  | range => exact range h
  | var => exact still .name
  | subscript => exact subscript h
  | assign => exact assign h
  | binary => exact binary h
  | compare => exact comparison h
  | call => exact call h
  | function => exact still .functionObject
  | self => exact still .selfFunction
  | ret => exact returnFrom h
  | cond => exact conditional h
  | forLoop => exact forLoop h
  | whileLoop => exact inLoop _ (whileHolds h k)
  | breakLoop => exact breakFrom h
  | continueLoop => exact lift .continueFrom
  | letVar => exact letVar h
  | block _ ns => exact block h ns

end

/-- Every node. -/
theorem node (fuel : Nat) (n : Node) : Records (Recorded.node fuel n) (Eval.node fuel n) := by
  induction fuel generalizing n with
  | zero => exact still .throw_exhausted
  | succ fuel ih =>
    exact look .checkInterrupt fun _ => look .trace fun _ => form ih fuel n

end Records
end Scripting
