import Mathlib.Tactic.Common
import Scripting.Proofs.Environment.Marks
import Scripting.Proofs.Structured.Outcome

/-! The marks that stand for an outcome, and what closing a block, a loop or a call makes of
them. -/
namespace Scripting

open Eval

/-- The stacks after a statement that ends so. -/
def Outcome.mark : Outcome → Environment → Environment
  | .normal _, e => e
  | .broken r, e => leaveLoop e r
  | .continued, e => e.currentLoop?.elim e fun l => e.skipFrom l.scopeIndex
  | .returned o, e => leaveFunction e o

namespace Environment

variable {e : Environment} {out : Outcome} {kind : ScopeKind} {fs : List Decl}
  {d : Decl} {u : Store} {i : Nat} {o : ObjectId} {r : Option ObjectId}

/-- The loop and the call that are running have scopes of their own on the stack. -/
structure Coherent (e : Environment) : Prop where
  pos : 0 < e.scopes.size
  loop : ∀ l ∈ e.currentLoop?, l.scopeIndex < e.scopes.size
  frame : ∀ f ∈ e.currentFrame?, f.scopeDepth < e.scopes.size
  floor : e.loopFloor ≤ e.loops.size

def setLast (e : Environment) (i : Nat) (last : Option ObjectId) : Environment :=
  e.modifyScope i ({ · with last })

/-- The innermost scope without its marks. -/
def rested (e : Environment) : Environment :=
  e.modifyScope e.currentIndex ({ · with isSkipped := false, last := none })

theorem Coherent.enter (h : e.Coherent) : (e.enter kind fs).Coherent where
  pos := by simp [Environment.enter]
  loop := by
    intro l hl
    have := h.loop l hl
    simp only [Environment.enter, Array.size_push]
    omega
  frame := by
    intro f hf
    have := h.frame f hf
    simp only [Environment.enter, Array.size_push]
    omega
  floor := h.floor

theorem loopFloor_loopOpened (h : e.Coherent) :
    (e.loopOpened fs).loopFloor < (e.loopOpened fs).loops.size := by
  have hsize : (e.loopOpened fs).loops.size = e.loops.size + 1 := Array.size_push _
  exact hsize ▸ Nat.lt_succ_of_le h.floor

theorem currentLoop?_loopOpened (h : e.Coherent) :
    (e.loopOpened fs).currentLoop? = some { scopeIndex := e.scopes.size } := by
  rw [currentLoop?, if_pos (loopFloor_loopOpened h)]
  simp [loopOpened, pushLoop]

theorem Coherent.loopOpened (h : e.Coherent) : (e.loopOpened fs).Coherent where
  pos := by simp [Environment.loopOpened, pushLoop, Environment.enter]
  loop := by
    intro l hl
    rw [currentLoop?_loopOpened h] at hl
    cases hl
    simp [Environment.loopOpened, pushLoop, Environment.enter]
  frame := by
    intro f hf
    have := h.frame f hf
    simp only [Environment.loopOpened, pushLoop, Environment.enter, Array.size_push]
    omega
  floor := by
    have := h.floor
    simp only [Environment.loopOpened, pushLoop, loopFloor, Environment.enter,
      Array.size_push] at this ⊢
    omega

theorem currentLoop?_callOpened : (e.callOpened d).currentLoop? = none := by
  simp [callOpened, pushFrame, enter, currentLoop?, loopFloor]

theorem coherent_callOpened : (e.callOpened d).Coherent where
  pos := by simp [callOpened, pushFrame, Environment.enter]
  loop := by simp [currentLoop?_callOpened]
  frame := by
    intro f hf
    simp only [currentFrame?, callOpened, pushFrame, Array.back?_push] at hf
    cases hf
    simp [callOpened, pushFrame, Environment.enter, currentIndex]
  floor := by simp [callOpened, pushFrame, Environment.enter, loopFloor]

/-- A change of one scope that keeps the depth of the stacks. -/
theorem Coherent.modifyScope {f : Scope → Scope} (h : e.Coherent) :
    (e.modifyScope i f).Coherent where
  pos := by simpa [Environment.modifyScope] using h.pos
  loop := by
    intro l hl
    simpa [Environment.modifyScope] using h.loop l hl
  frame := by
    intro x hx
    simpa [Environment.modifyScope] using h.frame x hx
  floor := h.floor

/-! ### Which scopes are skipped -/

/-- Where the scopes that an outcome leaves begin. -/
def level? (e : Environment) : Outcome → Option Nat
  | .normal _ => none
  | .broken _ | .continued => e.currentLoop?.map (·.scopeIndex)
  | .returned _ => e.currentFrame?.map (·.scopeDepth)

def skipped (level : Option Nat) (ss : Array Scope) : Array Scope :=
  level.elim ss fun i => ss.mapIdx fun j scope =>
    if i ≤ j then { scope with isSkipped := true } else scope

@[simp] theorem size_skipped {level : Option Nat} {ss : Array Scope} :
    (skipped level ss).size = ss.size := by
  cases level <;> simp [skipped]

theorem modifyLoop_eq {f : LoopState → LoopState} :
    e.modifyLoop f =
      { e with loops := if e.loopFloor < e.loops.size then e.loops.modify (e.loops.size - 1) f
        else e.loops } := by
  unfold modifyLoop
  split <;> rfl

/-- The marks of an outcome depend on the scopes only in the scopes that are skipped. -/
theorem mark_withScopes {w : Array Scope} :
    out.mark { e with scopes := w } = { out.mark e with scopes := skipped (e.level? out) w } := by
  cases out with
  | normal _ => rfl
  | broken r =>
    simp only [Outcome.mark, leaveLoop, level?,
      show currentLoop? { e with scopes := w } = e.currentLoop? from rfl]
    cases e.currentLoop? with
    | none => rfl
    | some l =>
      simp only [modifyLoop_eq]
      rfl
  | continued =>
    simp only [Outcome.mark, level?,
      show currentLoop? { e with scopes := w } = e.currentLoop? from rfl]
    cases e.currentLoop? <;> rfl
  | returned o =>
    simp only [Outcome.mark, leaveFunction, level?,
      show currentFrame? { e with scopes := w } = e.currentFrame? from rfl]
    cases e.currentFrame? <;> rfl

theorem scopes_mark : (out.mark e).scopes = skipped (e.level? out) e.scopes :=
  congrArg Environment.scopes (mark_withScopes (e := e) (w := e.scopes))

@[simp] theorem size_scopes_mark : (out.mark e).scopes.size = e.scopes.size := by
  rw [scopes_mark, size_skipped]

theorem mark_setLast : out.mark (e.setLast i r) = (out.mark e).setLast i r := by
  have hscopes : ∀ level, skipped level (e.setLast i r).scopes =
      (skipped level e.scopes).modify i ({ · with last := r }) := by
    intro level
    cases level with
    | none => rfl
    | some l =>
      simp only [skipped, setLast, modifyScope, Option.elim_some]
      ext k : 1
      · simp
      · simp only [Array.getElem_mapIdx, Array.getElem_modify]
        split <;> split <;> rfl
  rw [show e.setLast i r = { e with scopes := (e.setLast i r).scopes } from rfl, mark_withScopes,
    hscopes, setLast, modifyScope, scopes_mark]

/-- The innermost scope is skipped after every outcome but the normal one. -/
theorem isSkipped_mark (h : e.Coherent) (hlevel : (e.level? out).isSome) :
    (out.mark e).scopes[e.currentIndex]?.map (·.isSkipped) = some true := by
  obtain ⟨l, hl⟩ := Option.isSome_iff_exists.mp hlevel
  have hpos := h.pos
  have hle : l ≤ e.currentIndex := by
    unfold currentIndex
    cases out with
    | normal _ => cases hl
    | broken _ | continued =>
      obtain ⟨x, hx, rfl⟩ := Option.map_eq_some_iff.mp hl
      have := h.loop x hx
      omega
    | returned _ =>
      obtain ⟨x, hx, rfl⟩ := Option.map_eq_some_iff.mp hl
      have := h.frame x hx
      omega
  have hlt : e.currentIndex < e.scopes.size := by
    unfold currentIndex
    omega
  rw [scopes_mark, hl]
  simp [skipped, hlt, hle]

theorem pop_skipped {level : Option Nat} {ss : Array Scope} {x : Scope} :
    (skipped level (ss.push x)).pop = skipped level ss := by
  cases level <;> simp [skipped, Array.mapIdx_push]

/-- Closing a block leaves the marks of its outcome on the scopes around it. -/
theorem leave_mark_enter (h : e.Coherent) :
    ((out.mark (e.enter kind fs)).leave u).1 = out.mark e := by
  have hpos := h.pos
  have hsize : 1 < (out.mark (e.enter kind fs)).scopes.size := by
    simp only [size_scopes_mark, enter, Array.size_push]
    omega
  rw [leave_fst, if_pos hsize, enter, mark_withScopes, pop_skipped, ← scopes_mark]

/-! ### Loops -/

/-- A loop that its body leaves in this way. -/
def loopLeft (e : Environment) : Outcome → LoopState
  | .normal _ | .continued => { scopeIndex := e.scopes.size }
  | .broken r => { scopeIndex := e.scopes.size, isBroken := true, result := r }
  | .returned _ => { scopeIndex := e.scopes.size, isBroken := true }

/-- The stacks around a loop that its body leaves in this way. -/
def afterLoop (e : Environment) : Outcome → Environment
  | .normal _ | .continued | .broken _ => e
  | .returned o => (Outcome.returned o).mark e

theorem loopOpened_eq :
    e.loopOpened fs =
      { e with
        scopes := e.scopes.push { kind := .loop, functions := fs }
        loops := e.loops.push { scopeIndex := e.scopes.size } } := rfl

theorem skipped_push {ss : Array Scope} {x : Scope} :
    skipped (some ss.size) (ss.push x) = ss.push { x with isSkipped := true } := by
  simp only [skipped, Option.elim_some, Array.mapIdx_push, Nat.le_refl, if_true]
  congr 1
  ext k hk hk' : 1
  · simp
  · simp [Nat.not_le.mpr hk']

theorem modify_push_last {α : Type} {xs : Array α} {x : α} {f : α → α} :
    (xs.push x).modify ((xs.push x).size - 1) f = xs.push (f x) := by
  ext k hk hk' : 1
  · simp
  · simp only [Array.getElem_modify, Array.getElem_push, Array.size_push,
      Nat.add_sub_cancel] at hk' ⊢
    by_cases hlast : xs.size = k
    · simp [hlast]
    · have : k < xs.size := by omega
      simp [hlast, this]

/-- The stacks with a loop still open that its body left in this way, and its scope. -/
def inLoop (e : Environment) (out : Outcome) (x : Scope) : Environment :=
  { e.afterLoop out with
    scopes := (e.afterLoop out).scopes.push x
    loops := (e.afterLoop out).loops.push (e.loopLeft out) }

/-- What the outcome of the body does to an open loop. -/
theorem mark_loopOpened (h : e.Coherent) (hout : ∀ o, out = .returned o → e.currentFrame?.isSome) :
    ∃ x, x.unmarked = { kind := .loop, functions := fs } ∧
      out.mark (e.loopOpened fs) = e.inLoop out x := by
  have hcurrent : (e.loopOpened fs).currentLoop? = _ := currentLoop?_loopOpened h
  have hfloor : (e.loopOpened fs).loopFloor < _ := loopFloor_loopOpened h
  cases out with
  | normal _ => exact ⟨_, rfl, rfl⟩
  | broken r =>
    refine ⟨{ kind := .loop, functions := fs, isSkipped := true }, rfl, ?_⟩
    simp only [inLoop, Outcome.mark, leaveLoop, hcurrent, modifyLoop_eq, if_pos hfloor]
    rw [Environment.mk.injEq]
    refine ⟨skipped_push, rfl, ?_, rfl⟩
    exact modify_push_last (x := (⟨e.scopes.size, false, none⟩ : LoopState))
      (f := fun l => { l with result := r, isBroken := true })
  | continued =>
    refine ⟨{ kind := .loop, functions := fs, isSkipped := true }, rfl, ?_⟩
    simp only [inLoop, Outcome.mark, hcurrent]
    exact (Environment.mk.injEq ..).mpr ⟨skipped_push, rfl, rfl, rfl⟩
  | returned o =>
    obtain ⟨f, hf⟩ := Option.isSome_iff_exists.mp (hout o rfl)
    have hdepth : f.loopDepth ≤ e.loops.size := by
      have := h.floor
      simpa [loopFloor, show e.frames.back? = some f from hf] using this
    have hf' : (e.loopOpened fs).currentFrame? = some f := hf
    have hscope : f.scopeDepth ≤ e.scopes.size := Nat.le_of_lt (h.frame f hf)
    refine ⟨{ kind := .loop, functions := fs, isSkipped := true }, rfl, ?_⟩
    simp only [inLoop, Outcome.mark, leaveFunction, afterLoop, hf, hf']
    simp [loopOpened_eq, breakLoopsFrom, skipFrom, modifyFrame, Array.mapIdx_push, hdepth, hscope,
      loopLeft]

/-- Closing a loop absorbs every way of leaving it but a return. -/
theorem leave_popLoop_inLoop (h : e.Coherent) {x : Scope} :
    ((e.inLoop out x).popLoop.2.leave u).1 = e.afterLoop out := by
  have hpos : 0 < (e.afterLoop out).scopes.size := by cases out <;> simp [afterLoop, h.pos]
  have hsize : 1 < (e.inLoop out x).popLoop.2.scopes.size := by
    simp only [inLoop, popLoop, Array.size_push]
    omega
  rw [leave_fst, if_pos hsize]
  simp [inLoop, popLoop]

/-- The next iteration begins without the marks of the one before. -/
theorem rested_inLoop {x : Scope} (hx : x.unmarked = { kind := .loop, functions := fs })
    (hout : Structured.leaves? out = none) : (e.inLoop out x).rested = e.loopOpened fs := by
  have hin : e.inLoop out x =
      { e with
        scopes := e.scopes.push x
        loops := e.loops.push { scopeIndex := e.scopes.size } } := by
    cases out <;> simp_all [Structured.leaves?, inLoop, afterLoop, loopLeft]
  simp only [hin, rested, modifyScope, currentIndex, modify_push_last, loopOpened_eq]
  rw [← hx, Scope.unmarked]

/-! ### Calls -/

/-- A call whose body ends in this way. -/
def callLeft (e : Environment) (d : Decl) : Outcome → Frame
  | .returned o =>
    { decl := d, isReturned := true, result := some o, scopeDepth := e.scopes.size
      loopDepth := e.loops.size }
  | _ => { decl := d, scopeDepth := e.scopes.size, loopDepth := e.loops.size }

/-- What the outcome of the body does to an open call. -/
theorem mark_callOpened : ∃ x, out.mark (e.callOpened d) =
      { e with
        scopes := e.scopes.push x
        frames := e.frames.push (e.callLeft d out) } := by
  have hopen : e.callOpened d =
      { e with
        scopes := e.scopes.push { kind := .function }
        frames := e.frames.push ⟨d, false, none, e.scopes.size, e.loops.size⟩ } := by
    simp [callOpened, pushFrame, enter, currentIndex]
  cases out with
  | normal _ => exact ⟨_, hopen⟩
  | broken r =>
    refine ⟨{ kind := .function }, ?_⟩
    simp only [Outcome.mark, leaveLoop, currentLoop?_callOpened]
    exact hopen
  | continued =>
    refine ⟨{ kind := .function }, ?_⟩
    simp only [Outcome.mark, currentLoop?_callOpened]
    exact hopen
  | returned o =>
    refine ⟨{ kind := .function, isSkipped := true }, ?_⟩
    have hframe : (e.callOpened d).currentFrame? =
        some ⟨d, false, none, e.scopes.size, e.loops.size⟩ := by
      simp [hopen, currentFrame?]
    simp only [Outcome.mark, leaveFunction, hframe]
    rw [hopen, Environment.mk.injEq]
    refine ⟨skipped_push, ?_, ?_, rfl⟩
    · exact modify_push_last (x := (⟨d, false, none, e.scopes.size, e.loops.size⟩ : Frame))
        (f := fun f => { f with result := some o, isReturned := true })
    · ext k hk hk' : 1
      · simp [breakLoopsFrom, skipFrom, modifyFrame]
      · simp [breakLoopsFrom, skipFrom, modifyFrame, Nat.not_le.mpr hk']

theorem leave_popFrame (hpos : 0 < e.scopes.size) {x : Scope} {f : Frame} :
    ((popFrame { e with scopes := e.scopes.push x, frames := e.frames.push f }).2.leave u).1 =
      e := by
  have hsize : 1 < (popFrame
      { e with scopes := e.scopes.push x, frames := e.frames.push f }).2.scopes.size := by
    simp only [popFrame, Array.size_push]
    omega
  rw [leave_fst, if_pos hsize]
  simp [popFrame]

end Environment
end Scripting
