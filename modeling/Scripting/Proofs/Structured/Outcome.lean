import Scripting.Evaluator

/-! Structured control flow: a statement says itself how it ends, and nothing is marked. Operands,
places, operators and builtins are those of `Eval`. -/
namespace Scripting

/-- How a statement ends. -/
inductive Outcome where
  | normal (value : ObjectId)
  | broken (value : Option ObjectId)
  | continued
  | returned (value : ObjectId)
  deriving DecidableEq, Repr, Inhabited

namespace Structured

open Eval

/-- The value of a node that must have one. -/
def operand (ex : Node → Eval Outcome) (node : Node) : Eval ObjectId := do
  match ← ex node with
  | .normal o => pure o
  | _ => raise { kind := .illegalCall, span := node.span }

/-- A statement that leaves also has a value of its own, an object that nothing gets to see. -/
def leaving (exit : Outcome) : Eval Outcome := do
  let _ ← allocNone
  pure exit

/-- Runs statements in order; the first that does not end normally ends them all. -/
def statements (ex : Node → Eval Outcome) : List Node → Eval Outcome
  | [] => return .normal (← allocNone)
  | [node] => ex node
  | node :: next :: nodes => do
    match ← ex node with
    | .normal _ => statements ex (next :: nodes)
    | exit => pure exit

def block (ex : Node → Eval Outcome) (nodes : List Node) : Eval Outcome :=
  if nodes.isEmpty then return .normal (← allocNone)
  else do
    modifyEnv (·.enter .block (Node.declared nodes))
    let outcome ← statements ex nodes
    leaveScope
    pure outcome

def conditional (ex : Node → Eval Outcome) (test yes : Node) (no : Option Node) :
    Eval Outcome := do
  if ← condition (operand ex) test then ex yes
  else
    match no with
    | some node => ex node
    | none => return .normal (← allocNone)

def returnFrom (ex : Node → Eval Outcome) (span : Option Span) (value : Option Node) :
    Eval Outcome := do
  if ← read (·.env.currentFrame?.isNone) then notInsideFunction "return" span
  else
    let result ←
      match value with
      | some node => operand ex node
      | none => allocNone
    leaving (.returned result)

def breakFrom (ex : Node → Eval Outcome) (span : Option Span) (value : Option Node) :
    Eval Outcome := do
  if ← read (·.env.currentLoop?.isNone) then notInsideLoop "break" span
  else
    let result ← operand? (operand ex) value
    leaving (.broken result)

def continueFrom (span : Option Span) : Eval Outcome := do
  if ← read (·.env.currentLoop?.isNone) then notInsideLoop "continue" span
  else leaving .continued

/-- How a loop is left when its body ends so, if it is left at all. -/
def leaves? : Outcome → Option Outcome
  | .normal _ | .continued => none
  | exit => some exit

/-- Closes a loop, which absorbs a break and passes a return on. -/
def closeLoop (exit : Option Outcome) : Eval Outcome := do
  modifyEnv fun e => e.popLoop.2
  leaveScope
  match exit with
  | some (.broken (some o)) => pure (.normal o)
  | some (.returned o) => leaving (.returned o)
  | _ => return .normal (← allocNone)

/-- Runs the body of a loop for one item. -/
def iterate (ex : Node → Eval Outcome) (iterator body : Node) (fresh : Option Place)
    (item : ObjectId) : Eval (Option Outcome) := do
  checkInterrupt body.span
  let p ←
    match fresh with
    | some p => pure p
    | none => place (operand ex) iterator
  store p item iterator.span
  return leaves? (← statements ex body.statements)

/-- Goes through `n` integers from `i` on, until the loop is left. -/
def forRange (step : ObjectId → Eval (Option Outcome)) : Nat → Int → Eval (Option Outcome)
  | 0, _ => pure none
  | n + 1, i => do
    let item ← allocAtom (.int (.ofInt i))
    match ← step item with
    | none => forRange step n (i + 1)
    | some exit => pure (some exit)

/-- Goes through copies of objects, until the loop is left. -/
def forElements (step : ObjectId → Eval (Option Outcome)) :
    List ObjectId → Eval (Option Outcome)
  | [] => pure none
  | o :: os => do
    let item ← copy o
    match ← step item with
    | none => forElements step os
    | some exit => pure (some exit)

def forLoop (ex : Node → Eval Outcome) (iterator iterable body : Node) : Eval Outcome := do
  let o ← operand ex iterable
  let items ← itemsOf o iterable.span
  openLoop body.statements
  let fresh ← freshIterator iterator
  let exit ←
    match items with
    | .range r => forRange (iterate ex iterator body fresh) r.length r.start.toInt
    | .elements os => forElements (iterate ex iterator body fresh) os
  closeLoop exit

/-- Runs the body until the test fails or the loop is left. Each look at the loop is a step. -/
def whileHolds (ex : Node → Eval Outcome) (test body : Node) :
    Nat → Option Outcome → Eval (Option Outcome)
  | 0, _ => throw .exhausted
  | _ + 1, some exit => pure (some exit)
  | n + 1, none => do
    checkInterrupt body.span
    if ← condition (operand ex) test then
      let outcome ← statements ex body.statements
      whileHolds ex test body n (leaves? outcome)
    else pure none

def whileLoop (ex : Node → Eval Outcome) (limit : Nat) (test body : Node) : Eval Outcome := do
  openLoop body.statements
  let exit ← whileHolds ex test body limit none
  closeLoop exit

/-- Calls a function of the script, which absorbs a return. No loop of the caller is open to it. -/
def invoke (ex : Node → Eval Outcome) (decl : Decl) (args : List ObjectId) (span : Option Span) :
    Eval ObjectId := do
  ofExcept (checkArity decl args.length span)
  openCall decl span
  bindFixed decl.fixed args
  bindRest decl (args.drop decl.fixed.length)
  let outcome ← ex decl.body
  modifyEnv fun e => e.popFrame.2
  leaveScope
  match outcome with
  | .normal o | .returned o => pure o
  | _ => raise { kind := .illegalCall, span }

def call (ex : Node → Eval Outcome) (span : Option Span) (f : Node) (args : List Node) :
    Eval ObjectId := do
  let o ← callee (operand ex) f
  match ← valueOf o with
  | .atom (.builtin b) =>
    let os ← operands (reference (operand ex)) args
    callBuiltin b os span
  | .atom (.function decl) =>
    let os ← operands (operand ex) args
    invoke ex decl os span
  | v => raise (.hinted .typeMismatch f.span s!"`{v.kind.name}` is not callable")

/-- The rule of each form. Forms that only have operands are as in `Eval.form`. -/
def form (ex : Node → Eval Outcome) (limit : Nat) : Node → Eval Outcome
  | .block _ nodes => block ex nodes
  | .cond _ test yes no => conditional ex test yes no
  | .ret span value => returnFrom ex span value
  | .breakLoop span value => breakFrom ex span value
  | .continueLoop span => continueFrom span
  | .forLoop _ iterator iterable body => forLoop ex iterator iterable body
  | .whileLoop _ test body => whileLoop ex limit test body
  | .call span f args => return .normal (← call ex span f args)
  | node => return .normal (← Eval.form (operand ex) limit node)

/-- Evaluates a node to its outcome, given a bound on depth and length as in `Eval.node`. -/
def node : Nat → Node → Eval Outcome
  | 0, _ => throw .exhausted
  | fuel + 1, n => do
    checkInterrupt n.span
    trace n
    form (node fuel) fuel n

/-- Evaluates a tree; an error takes the stacks back to where they were. -/
def tree (n : Node) : Eval Outcome := unwinding (node fuel n)

end Structured
end Scripting
