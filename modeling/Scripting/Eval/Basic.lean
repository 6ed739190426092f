import Scripting.Builtin.Table
import Scripting.Comparison
import Scripting.Environment
import Scripting.Log

/-! The state of a running script, and the elementary actions on it. -/
namespace Scripting

/-- Where builtins write. A closed sink refuses everything. -/
structure Sink where
  text : String := ""
  isClosed : Bool := false
  flushes : Nat := 0
  deriving Repr, Inhabited

/-- What a closed sink answers to a write. -/
def Sink.refusal : String := "sink closed"

structure State where
  heap : Heap := {}
  env : Environment := {}
  builtins : Builtins := .standard
  /-- The object that stands for each declaration in use, by the number of the declaration. -/
  functions : List (Nat × ObjectId) := []
  sink : Sink := {}
  log : Array LogEvent := #[]
  /-- Set when the host wants the script to stop. -/
  isInterrupted : Bool := false
  isTraced : Bool := false
  deriving Inhabited

/-- Why an evaluation gave no value: an error of the script, or an end to the steps allowed. -/
inductive Stop where
  | raised (error : Error)
  | exhausted
  deriving DecidableEq, Repr, Inhabited

/-- Evaluation changes the state also when it ends in an error. -/
abbrev Eval := EStateM Stop State

namespace Eval

def raise {α : Type} (e : Error) : Eval α := throw (.raised e)

def ofExcept {α : Type} : Except Error α → Eval α
  | .ok a => pure a
  | .error e => raise e

/-- What holds of the state at this point. -/
def read {α : Type} (f : State → α) : Eval α := fun s => .ok (f s) s

def record (event : LogEvent) : Eval Unit := modify fun s => { s with log := s.log.push event }

def modifyEnv (f : Environment → Environment) : Eval Unit :=
  modify fun s => { s with env := f s.env }

/-- A change of the stacks that binds or unbinds objects. -/
def modifyBindings (f : Environment → Store → Environment × Store) : Eval Unit :=
  modify fun s =>
    let (env, store) := f s.env s.heap.store
    { s with env, heap := { s.heap with store } }

def alloc (v : Value) : Eval ObjectId :=
  modifyGet fun s =>
    let (o, heap) := s.heap.alloc v
    (o, { s with heap })

def allocAtom (a : Atom) : Eval ObjectId := alloc (.atom a)

def allocNone : Eval ObjectId := alloc .none

def valueOf (o : ObjectId) : Eval Value := read (·.heap.store.value o)

def setValue (o : ObjectId) (v : Value) : Eval Unit :=
  modify fun s => { s with heap := { s.heap with store := s.heap.store.setValue o v } }

/-- The tree of an object. An object inside itself has none, so a walk through it never ends. -/
def treeOf (o : ObjectId) : Eval Tree := fun s =>
  match s.heap.store.tree? o with
  | some t => .ok t s
  | none => .error .exhausted s

def build (t : Tree) : Eval ObjectId :=
  modifyGet fun s =>
    let (o, heap) := s.heap.build t
    (o, { s with heap })

/-- A copy of an object that shares nothing with it. -/
def copy (o : ObjectId) : Eval ObjectId := do build (← treeOf o)

def treesOf : List ObjectId → Eval (List Tree)
  | [] => pure []
  | o :: os => do return (← treeOf o) :: (← treesOf os)

/-- Copies of several objects, the first one first. -/
def copyAll (os : List ObjectId) : Eval (Array ObjectId) := do
  let ts ← treesOf os
  modifyGet fun s =>
    let (es, heap) := s.heap.buildAll #[] ts
    (es, { s with heap })

def textOf (o : ObjectId) : Eval String := do return (← treeOf o).text

/-- Writes text for the host to see. -/
def write (text : String) : Eval Unit := do
  if text.isEmpty then pure ()
  else if ← read (·.sink.isClosed) then record (.outputFailed Sink.refusal)
  else modify fun s => { s with sink := { s.sink with text := s.sink.text ++ text } }

def checkInterrupt (span : Option Span) : Eval Unit := do
  if ← read (·.isInterrupted) then raise { kind := .interrupted, span } else pure ()

def leaveScope : Eval Unit := modifyBindings fun e s => e.leave s

/-- The slot of a name in the innermost scope, a new one unless the scope has it. -/
def declare (name : String) : Eval Slot :=
  modifyGet fun s =>
    let (slot, env) := s.env.declare name
    (slot, { s with env })

def define (name : String) (o : ObjectId) : Eval Unit := modifyBindings fun e s => e.define s name o

/-- The object of a declaration, made when it is first needed. -/
def functionObject (decl : Decl) : Eval ObjectId := do
  match ← read (·.functions.lookup decl.id) with
  | some o => pure o
  | none =>
    let o ← allocAtom (.function decl)
    modify fun s => { s with functions := (decl.id, o) :: s.functions }
    pure o

end Eval
end Scripting
