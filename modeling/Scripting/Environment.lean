import Scripting.Heap

/-! The stacks of a running script: open scopes with their variables, calls and loops. -/
namespace Scripting

structure Variable where
  name : String
  /-- The object bound to the variable, once there is one. -/
  value : Option ObjectId := none
  deriving Repr, Inhabited

inductive ScopeKind where
  | global | block | function | loop
  deriving DecidableEq, Repr, Inhabited

structure Scope where
  kind : ScopeKind
  vars : Array Variable := #[]
  functions : List Decl := []
  /-- Set when the statements left in the scope must not run. -/
  isSkipped : Bool := false
  /-- The value of the latest statement. -/
  last : Option ObjectId := none
  deriving Inhabited

/-- Where a variable stands: the position of its scope, and its position there. -/
structure Slot where
  scope : Nat
  index : Nat
  deriving DecidableEq, Repr, Inhabited

/-- A call of a function that has not ended. -/
structure Frame where
  decl : Decl
  isReturned : Bool := false
  result : Option ObjectId := none
  /-- The position of the scope that the call opened. -/
  scopeDepth : Nat
  /-- How many loops were open when the call began. -/
  loopDepth : Nat
  deriving Inhabited

/-- A loop that has not ended. -/
structure LoopState where
  scopeIndex : Nat
  isBroken : Bool := false
  result : Option ObjectId := none
  deriving Repr, Inhabited

/-- The heights of the three stacks. -/
structure Checkpoint where
  scopes : Nat
  frames : Nat
  loops : Nat
  deriving DecidableEq, Repr, Inhabited

/-- The stacks, innermost entry last. The global scope is always there. -/
structure Environment where
  scopes : Array Scope := #[{ kind := .global }]
  frames : Array Frame := #[]
  loops : Array LoopState := #[]
  maxCallDepth : Nat := 1000
  deriving Inhabited

def Store.releaseAll (s : Store) (scope : Scope) : Store :=
  scope.vars.foldl (fun s v => v.value.elim s s.release) s

def Scope.indexOf? (scope : Scope) (name : String) : Option Nat :=
  scope.vars.findIdx? (·.name == name)

namespace Environment

def currentIndex (e : Environment) : Nat := e.scopes.size - 1

def current (e : Environment) : Scope := e.scopes.back?.getD default

def modifyScope (e : Environment) (i : Nat) (f : Scope → Scope) : Environment :=
  { e with scopes := e.scopes.modify i f }

/-- Opens a scope, whose position is the number of scopes before. -/
def enter (e : Environment) (kind : ScopeKind) (functions : List Decl) : Environment :=
  { e with scopes := e.scopes.push { kind, functions } }

/-- Closes the innermost scope and unbinds its variables; the global scope stays open. -/
def leave (e : Environment) (s : Store) : Environment × Store :=
  match e.scopes.back? with
  | some scope =>
    if e.scopes.size > 1 then ({ e with scopes := e.scopes.pop }, s.releaseAll scope) else (e, s)
  | none => (e, s)

def skipFrom (e : Environment) (i : Nat) : Environment :=
  { e with scopes := e.scopes.mapIdx fun j scope =>
      if i ≤ j then { scope with isSkipped := true } else scope }

/-- The slot of a name in the innermost scope, a new one unless the scope has it. -/
def declare (e : Environment) (name : String) : Slot × Environment :=
  let i := e.currentIndex
  match e.current.indexOf? name with
  | some j => (⟨i, j⟩, e)
  | none =>
    (⟨i, e.current.vars.size⟩,
      e.modifyScope i fun scope => { scope with vars := scope.vars.push { name } })

def variableAt? (e : Environment) (p : Slot) : Option Variable :=
  e.scopes[p.scope]?.bind (·.vars[p.index]?)

/-- Binds a variable to an object and unbinds what it was bound to. -/
def assign (e : Environment) (s : Store) (p : Slot) (o : ObjectId) : Environment × Store :=
  match e.variableAt? p with
  | none => (e, s)
  | some v =>
    let s := s.retain o
    (e.modifyScope p.scope fun scope =>
        { scope with vars := scope.vars.modify p.index ({ · with value := some o }) },
      v.value.elim s s.release)

def define (e : Environment) (s : Store) (name : String) (o : ObjectId) : Environment × Store :=
  let (p, e) := e.declare name
  e.assign s p o

/-- The slot of a name in the innermost of the `n` outermost scopes that has it. -/
def lookupBelow (e : Environment) (name : String) : Nat → Option Slot
  | 0 => none
  | n + 1 =>
    match e.scopes[n]?.bind (·.indexOf? name) with
    | some j => some ⟨n, j⟩
    | none => e.lookupBelow name n

def lookup (e : Environment) (name : String) : Option Slot := e.lookupBelow name e.scopes.size

def contains (e : Environment) (name : String) : Bool := (e.lookup name).isSome

/-- The error for a name that no scope has. -/
def undeclared (name : String) (span : Option Span) : Error :=
  .hinted .undefinedVariable span s!"`{name}` is not declared"

/-- The object that a name stands for. -/
def get (e : Environment) (name : String) (span : Option Span) : Except Error ObjectId :=
  match e.lookup name with
  | none => .error (undeclared name span)
  | some p =>
    match (e.variableAt? p).bind (·.value) with
    | none => .error { kind := .uninitializedVariable, span }
    | some o => .ok o

def findFunctionBelow (e : Environment) (name : String) : Nat → Option Decl
  | 0 => none
  | n + 1 =>
    match e.scopes[n]?.bind (·.functions.find? (·.name == name)) with
    | some d => some d
    | none => e.findFunctionBelow name n

/-- The first function of a name in the innermost scope that declares one. -/
def findFunction (e : Environment) (name : String) : Option Decl :=
  e.findFunctionBelow name e.scopes.size

def callDepth (e : Environment) : Nat := e.frames.size

/-- The error that one more open call would be, if the limit is reached. -/
def depthError? (e : Environment) (span : Option Span) : Option Error :=
  if e.maxCallDepth ≤ e.frames.size then
    some (.hinted .stackOverflow span s!"call depth limit of {e.maxCallDepth} reached")
  else none

/-- Begins a call in the innermost scope. -/
def pushFrame (e : Environment) (decl : Decl) : Environment :=
  let frame : Frame := { decl, scopeDepth := e.currentIndex, loopDepth := e.loops.size }
  { e with frames := e.frames.push frame }

def popFrame (e : Environment) : Option Frame × Environment :=
  (e.frames.back?, { e with frames := e.frames.pop })

def currentFrame? (e : Environment) : Option Frame := e.frames.back?

def modifyFrame (e : Environment) (f : Frame → Frame) : Environment :=
  { e with frames := e.frames.modify (e.frames.size - 1) f }

def pushLoop (e : Environment) (scopeIndex : Nat) : Environment :=
  { e with loops := e.loops.push { scopeIndex } }

def popLoop (e : Environment) : Option LoopState × Environment :=
  (e.loops.back?, { e with loops := e.loops.pop })

/-- How many open loops do not belong to the running call. -/
def loopFloor (e : Environment) : Nat := (e.frames.back?.map (·.loopDepth)).getD 0

/-- The innermost loop of the running call. -/
def currentLoop? (e : Environment) : Option LoopState :=
  if e.loopFloor < e.loops.size then e.loops.back? else none

def modifyLoop (e : Environment) (f : LoopState → LoopState) : Environment :=
  if e.loopFloor < e.loops.size then { e with loops := e.loops.modify (e.loops.size - 1) f } else e

def breakLoopsFrom (e : Environment) (depth : Nat) : Environment :=
  { e with loops := e.loops.mapIdx fun j l => if depth ≤ j then { l with isBroken := true } else l }

def checkpoint (e : Environment) : Checkpoint :=
  { scopes := e.scopes.size, frames := e.frames.size, loops := e.loops.size }

def leaveMany : Nat → Environment → Store → Environment × Store
  | 0, e, s => (e, s)
  | n + 1, e, s => let (e, s) := e.leave s; leaveMany n e s

/-- Takes the stacks down to the heights of a checkpoint, and lets the global scope run on. -/
def restore (e : Environment) (s : Store) (c : Checkpoint) : Environment × Store :=
  let e := { e with loops := e.loops.take c.loops, frames := e.frames.take c.frames }
  let (e, s) := leaveMany (e.scopes.size - max c.scopes 1) e s
  (e.modifyScope 0 ({ · with isSkipped := false }), s)

/-- Every object that the stacks hold. -/
def roots (e : Environment) : List ObjectId :=
  e.scopes.toList.flatMap (fun scope => scope.vars.toList.filterMap (·.value) ++ scope.last.toList)
    ++ e.frames.toList.filterMap (·.result)
    ++ e.loops.toList.filterMap (·.result)

end Environment
end Scripting
