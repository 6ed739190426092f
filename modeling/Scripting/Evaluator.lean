import Scripting.Eval.Node

/-! Evaluation as a host asks for it: errors unwind the stacks, and function objects that nothing
needs any more are forgotten. -/
namespace Scripting

/-- Settings and interruption of evaluators. -/
structure EvalContext where
  maxCallDepth : Nat := 1000
  isTraced : Bool := false
  gc : GcConfig := {}
  deriving DecidableEq, Repr, Inhabited

namespace State

/-- Every object that the script's state holds. -/
def roots (s : State) : List ObjectId := s.env.roots ++ s.functions.map (·.2)

def restore (s : State) (c : Checkpoint) : State :=
  let (env, store) := s.env.restore s.heap.store c
  { s with env, heap := { s.heap with store } }

/-- The function objects that a variable is bound to, or that something besides the table of
objects and this list holds. -/
def neededFunctions (s : State) (held : List ObjectId) : List (Nat × ObjectId) :=
  let store := s.heap.store.reap (held ++ s.roots)
  let needed := store.held (held ++ s.env.roots)
  s.functions.filter fun (_, o) => 0 < store.bindings o || needed.contains o

/-- Forgets the function objects that are not needed. The next use of their declarations makes new
ones. -/
def prune (s : State) (held : List ObjectId) : State :=
  if s.functions.isEmpty then s
  else
    let kept := s.neededFunctions held
    let dropped := s.functions.length - kept.length
    if dropped = 0 then s
    else { s with functions := kept, log := s.log.push (.pruned dropped kept.length) }

end State

namespace Eval

/-- More steps than any run can take. -/
def fuel : Nat := 0x4000000000000000

/-- Takes the stacks back to where they were, should the evaluation end in an error. -/
def unwinding {α : Type} (x : Eval α) : Eval α := fun s =>
  let c := s.env.checkpoint
  match x s with
  | .ok a s => .ok a s
  | .error stop s => .error stop (s.restore c)

/-- Evaluates a tree for a host that holds the given objects. -/
def tree (held : List ObjectId) (n : Node) : Eval ObjectId := fun s =>
  match unwinding (node fuel n) s with
  | .ok o s => .ok o (s.prune (o :: held))
  | .error stop s => .error stop (s.prune held)

/-- Makes the sink pass on what was written. -/
def flush : Eval Unit := do
  modify fun s => { s with sink := { s.sink with flushes := s.sink.flushes + 1 } }
  if ← read (·.sink.isClosed) then record (.flushFailed Sink.refusal) else pure ()

end Eval
end Scripting
