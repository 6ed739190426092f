import Mathlib.Tactic.Common
import Scripting.Eval.Loop

/-! The stacks without the marks that statements leave on them, and without their variables. Most
operations see only one of the two sides. -/
namespace Scripting

def Scope.unmarked (scope : Scope) : Scope := { scope with isSkipped := false, last := none }

def Frame.unmarked (f : Frame) : Frame := { f with isReturned := false, result := none }

def LoopState.unmarked (l : LoopState) : LoopState := { l with isBroken := false, result := none }

def Scope.bare (scope : Scope) : Scope := { scope with vars := #[] }

namespace Environment

variable {e : Environment} {s : Store} {name : String} {n i : Nat} {p : Slot} {o : ObjectId}

/-- The stacks as they would be had nothing been skipped, broken or returned. -/
def unmarked (e : Environment) : Environment :=
  { e with
    scopes := e.scopes.map Scope.unmarked
    frames := e.frames.map Frame.unmarked
    loops := e.loops.map LoopState.unmarked }

/-- The stacks without variables. -/
def bare (e : Environment) : Environment := { e with scopes := e.scopes.map Scope.bare }

def loopOpened (e : Environment) (fs : List Decl) : Environment :=
  (e.enter .loop fs).pushLoop e.scopes.size

def callOpened (e : Environment) (d : Decl) : Environment := (e.enter .function []).pushFrame d

@[simp] theorem size_scopes_unmarked : e.unmarked.scopes.size = e.scopes.size := by simp [unmarked]

@[simp] theorem currentIndex_unmarked : e.unmarked.currentIndex = e.currentIndex := by
  simp [currentIndex]

@[simp] theorem variableAt?_unmarked : e.unmarked.variableAt? p = e.variableAt? p := by
  simp only [variableAt?, unmarked, Array.getElem?_map]
  cases e.scopes[p.scope]? <;> rfl

theorem lookupBelow_unmarked : e.unmarked.lookupBelow name n = e.lookupBelow name n := by
  induction n with
  | zero => rfl
  | succ n ih =>
    have h : e.unmarked.scopes[n]?.bind (·.indexOf? name) =
        e.scopes[n]?.bind (·.indexOf? name) := by
      simp only [unmarked, Array.getElem?_map]
      cases e.scopes[n]? <;> rfl
    simp only [lookupBelow, h, ih]

@[simp] theorem lookup_unmarked : e.unmarked.lookup name = e.lookup name := by
  simp [lookup, lookupBelow_unmarked]

@[simp] theorem contains_unmarked : e.unmarked.contains name = e.contains name := by
  simp [contains]

@[simp] theorem get_unmarked {span : Option Span} : e.unmarked.get name span = e.get name span := by
  simp [get]

theorem findFunctionBelow_unmarked :
    e.unmarked.findFunctionBelow name n = e.findFunctionBelow name n := by
  induction n with
  | zero => rfl
  | succ n ih =>
    have h : e.unmarked.scopes[n]?.bind (·.functions.find? (·.name == name)) =
        e.scopes[n]?.bind (·.functions.find? (·.name == name)) := by
      simp only [unmarked, Array.getElem?_map]
      cases e.scopes[n]? <;> rfl
    simp only [findFunctionBelow, h, ih]

@[simp] theorem findFunction_unmarked : e.unmarked.findFunction name = e.findFunction name := by
  simp [findFunction, findFunctionBelow_unmarked]

@[simp] theorem depthError?_unmarked {span : Option Span} :
    e.unmarked.depthError? span = e.depthError? span := by
  simp [depthError?, unmarked]

@[simp] theorem currentFrame?_unmarked :
    e.unmarked.currentFrame? = e.currentFrame?.map Frame.unmarked := by
  simp [currentFrame?, unmarked]

@[simp] theorem loopFloor_unmarked : e.unmarked.loopFloor = e.loopFloor := by
  simp only [loopFloor, unmarked, Array.back?_map]
  cases e.frames.back? <;> rfl

@[simp] theorem currentLoop?_unmarked :
    e.unmarked.currentLoop? = e.currentLoop?.map LoopState.unmarked := by
  simp only [currentLoop?, loopFloor_unmarked]
  simp only [unmarked, Array.size_map, Array.back?_map]
  split <;> rfl

theorem unmarked_enter {kind : ScopeKind} {functions : List Decl} :
    (e.enter kind functions).unmarked = e.unmarked.enter kind functions := by
  simp [enter, unmarked, Scope.unmarked]

theorem unmarked_pushFrame {d : Decl} : (e.pushFrame d).unmarked = e.unmarked.pushFrame d := by
  simp [pushFrame, unmarked, Frame.unmarked, currentIndex]

theorem unmarked_popFrame : e.popFrame.2.unmarked = e.unmarked.popFrame.2 := by
  simp [popFrame, unmarked]

theorem unmarked_pushLoop : (e.pushLoop i).unmarked = e.unmarked.pushLoop i := by
  simp [pushLoop, unmarked, LoopState.unmarked]

theorem unmarked_popLoop : e.popLoop.2.unmarked = e.unmarked.popLoop.2 := by
  simp [popLoop, unmarked]

/-- A change of one scope that sees only its variables. -/
theorem unmarked_modifyScope {f : Scope → Scope}
    (hf : ∀ scope, (f scope).unmarked = f scope.unmarked) :
    (e.modifyScope i f).unmarked = e.unmarked.modifyScope i f := by
  simp only [modifyScope, unmarked, Environment.mk.injEq, and_true]
  ext j : 1
  · simp
  · simp only [Array.getElem_map, Array.getElem_modify]
    split <;> simp [hf]

theorem releaseAll_unmarked (scope : Scope) :
    s.releaseAll scope.unmarked = s.releaseAll scope := rfl

theorem leave_unmarked : e.unmarked.leave s = ((e.leave s).1.unmarked, (e.leave s).2) := by
  simp only [leave, unmarked, Array.back?_map, Array.size_map]
  cases e.scopes.back? with
  | none => rfl
  | some scope =>
    simp only [Option.map_some, releaseAll_unmarked]
    split <;> simp

theorem current_unmarked_indexOf? : e.unmarked.current.indexOf? name = e.current.indexOf? name := by
  simp only [current, unmarked, Array.back?_map]
  cases e.scopes.back? <;> rfl

theorem current_unmarked_vars : e.unmarked.current.vars = e.current.vars := by
  simp only [current, unmarked, Array.back?_map]
  cases e.scopes.back? <;> rfl

theorem declare_unmarked :
    e.unmarked.declare name = ((e.declare name).1, (e.declare name).2.unmarked) := by
  simp only [declare, current_unmarked_indexOf?, current_unmarked_vars, currentIndex_unmarked]
  cases e.current.indexOf? name with
  | some j => rfl
  | none =>
    refine Prod.ext rfl (Eq.symm ?_)
    exact unmarked_modifyScope (e := e) fun _ => rfl

theorem assign_unmarked :
    e.unmarked.assign s p o = ((e.assign s p o).1.unmarked, (e.assign s p o).2) := by
  simp only [assign, variableAt?_unmarked]
  cases e.variableAt? p with
  | none => rfl
  | some v =>
    refine Prod.ext (Eq.symm ?_) rfl
    exact unmarked_modifyScope (e := e) fun _ => rfl

theorem define_unmarked :
    e.unmarked.define s name o = ((e.define s name o).1.unmarked, (e.define s name o).2) := by
  simp [define, declare_unmarked, assign_unmarked]

/-! ### Marks alone -/

/-- A change of marks only. -/
theorem unmarked_modifyScope_of_marks {f : Scope → Scope}
    (hf : ∀ scope, (f scope).unmarked = scope.unmarked) :
    (e.modifyScope i f).unmarked = e.unmarked := by
  simp only [modifyScope, unmarked, Environment.mk.injEq, and_true]
  ext j : 1
  · simp
  · simp only [Array.getElem_map, Array.getElem_modify]
    split <;> simp [hf]

theorem unmarked_skipFrom : (e.skipFrom i).unmarked = e.unmarked := by
  simp only [skipFrom, unmarked, Environment.mk.injEq, and_true]
  ext j : 1
  · simp
  · simp only [Array.getElem_map, Array.getElem_mapIdx]
    split <;> rfl

theorem unmarked_breakLoopsFrom : (e.breakLoopsFrom i).unmarked = e.unmarked := by
  simp only [breakLoopsFrom, unmarked, Environment.mk.injEq, and_true, true_and]
  ext j : 1
  · simp
  · simp only [Array.getElem_map, Array.getElem_mapIdx]
    split <;> rfl

theorem unmarked_modifyFrame {f : Frame → Frame} (hf : ∀ x, (f x).unmarked = x.unmarked) :
    (e.modifyFrame f).unmarked = e.unmarked := by
  simp only [modifyFrame, unmarked, Environment.mk.injEq, and_true, true_and]
  ext j : 1
  · simp
  · simp only [Array.getElem_map, Array.getElem_modify]
    split <;> simp [hf]

theorem unmarked_modifyLoop {f : LoopState → LoopState} (hf : ∀ x, (f x).unmarked = x.unmarked) :
    (e.modifyLoop f).unmarked = e.unmarked := by
  unfold modifyLoop
  split
  · simp only [unmarked, Environment.mk.injEq, and_true, true_and]
    ext j : 1
    · simp
    · simp only [Array.getElem_map, Array.getElem_modify]
      split <;> simp [hf]
  · rfl

theorem unmarked_leaveLoop {r : Option ObjectId} : (Eval.leaveLoop e r).unmarked = e.unmarked := by
  unfold Eval.leaveLoop
  split
  · rfl
  · rw [unmarked_skipFrom]
    exact unmarked_modifyLoop fun _ => rfl

theorem unmarked_leaveFunction : (Eval.leaveFunction e o).unmarked = e.unmarked := by
  unfold Eval.leaveFunction
  split
  · rfl
  · rw [unmarked_breakLoopsFrom, unmarked_skipFrom]
    exact unmarked_modifyFrame fun _ => rfl

/-! ### Everything but variables -/

@[simp] theorem size_scopes_bare : e.bare.scopes.size = e.scopes.size := by simp [bare]

@[simp] theorem currentFrame?_bare : e.bare.currentFrame? = e.currentFrame? := rfl

@[simp] theorem currentLoop?_bare : e.bare.currentLoop? = e.currentLoop? := rfl

theorem isSkipped_bare :
    e.bare.scopes[i]?.map (·.isSkipped) = e.scopes[i]?.map (·.isSkipped) := by
  simp only [bare, Array.getElem?_map, Option.map_map]
  rfl

theorem last_bare : e.bare.scopes[i]?.bind (·.last) = e.scopes[i]?.bind (·.last) := by
  simp only [bare, Array.getElem?_map]
  cases e.scopes[i]? <;> rfl

theorem bare_enter {kind : ScopeKind} {functions : List Decl} :
    (e.enter kind functions).bare = e.bare.enter kind functions := by
  simp [enter, bare, Scope.bare]

theorem bare_pushFrame {d : Decl} : (e.pushFrame d).bare = e.bare.pushFrame d := by
  simp [pushFrame, bare, currentIndex]

theorem bare_popFrame : e.popFrame.2.bare = e.bare.popFrame.2 := rfl

theorem bare_pushLoop : (e.pushLoop i).bare = e.bare.pushLoop i := rfl

theorem bare_popLoop : e.popLoop.2.bare = e.bare.popLoop.2 := rfl

theorem leave_fst :
    (e.leave s).1 = if 1 < e.scopes.size then { e with scopes := e.scopes.pop } else e := by
  unfold leave
  split
  · split <;> rfl
  · next h => simp_all [Array.back?_eq_none_iff.mp h]

theorem bare_leave {u : Store} : (e.leave s).1.bare = (e.bare.leave u).1 := by
  simp only [leave_fst, size_scopes_bare]
  split
  · simp [bare]
  · rfl

/-- A change of one scope that sees only its marks. -/
theorem bare_modifyScope {f : Scope → Scope} (hf : ∀ scope, (f scope).bare = f scope.bare) :
    (e.modifyScope i f).bare = e.bare.modifyScope i f := by
  simp only [modifyScope, bare, Environment.mk.injEq, and_true]
  ext j : 1
  · simp
  · simp only [Array.getElem_map, Array.getElem_modify]
    split <;> simp [hf]

/-- A change of variables only. -/
theorem bare_modifyScope_of_vars {f : Scope → Scope} (hf : ∀ scope, (f scope).bare = scope.bare) :
    (e.modifyScope i f).bare = e.bare := by
  simp only [modifyScope, bare, Environment.mk.injEq, and_true]
  ext j : 1
  · simp
  · simp only [Array.getElem_map, Array.getElem_modify]
    split <;> simp [hf]

theorem bare_declare : (e.declare name).2.bare = e.bare := by
  unfold declare
  split
  · rfl
  · exact bare_modifyScope_of_vars fun _ => rfl

theorem bare_assign : (e.assign s p o).1.bare = e.bare := by
  unfold assign
  split
  · rfl
  · exact bare_modifyScope_of_vars fun _ => rfl

theorem bare_define : (e.define s name o).1.bare = e.bare := by
  simp [define, bare_assign, bare_declare]

theorem bare_skipFrom : (e.skipFrom i).bare = e.bare.skipFrom i := by
  simp only [skipFrom, bare, Environment.mk.injEq, and_true]
  ext j : 1
  · simp
  · simp only [Array.getElem_map, Array.getElem_mapIdx]
    split <;> rfl

theorem bare_modifyLoop {f : LoopState → LoopState} :
    (e.modifyLoop f).bare = e.bare.modifyLoop f := by
  simp only [modifyLoop, show e.bare.loopFloor = e.loopFloor from rfl,
    show e.bare.loops = e.loops from rfl]
  split <;> rfl

theorem bare_leaveLoop {r : Option ObjectId} :
    (Eval.leaveLoop e r).bare = Eval.leaveLoop e.bare r := by
  unfold Eval.leaveLoop
  rw [currentLoop?_bare]
  split
  · rfl
  · rw [bare_skipFrom, bare_modifyLoop]

theorem bare_leaveFunction : (Eval.leaveFunction e o).bare = Eval.leaveFunction e.bare o := by
  unfold Eval.leaveFunction
  rw [currentFrame?_bare]
  split
  · rfl
  · exact congrArg (breakLoopsFrom · _) bare_skipFrom

end Environment
end Scripting
