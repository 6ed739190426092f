import Scripting.Eval.Call
import Scripting.Eval.Loop

/-! Evaluation of nodes, form by form. -/
namespace Scripting.Eval

/-- The rule of each form, given how operands are evaluated and how often a loop may repeat. -/
def form (ev : Node → Eval ObjectId) (limit : Nat) : Node → Eval ObjectId
  | .none _ | .record _ => allocNone
  | .bool _ b => allocAtom (.bool b)
  | .literal _ l => allocAtom l.atom
  | .emptyList _ => alloc (.vector #[])
  | .list _ items => do
    let os ← operands ev items
    alloc (.vector os.toArray)
  | .tuple _ items => do
    let os ← operands ev items
    alloc (.tuple os.toArray)
  | .range _ start stop => range ev start stop
  | .var span ident => name span ident
  | .subscript span target index => subscript ev span target index
  | .assign span target value => assign ev span target value
  | .binary span op lhs rhs => binary ev span op lhs rhs
  | .compare span op lhs rhs => comparison ev span (.compare span op lhs rhs)
  | .call span f args => call ev span f args
  | .function _ id ident params result body => functionObject { id, ident, params, result, body }
  | .self span => selfFunction span
  | .ret span value => returnFrom ev span value
  | .cond _ test yes no => conditional ev test yes no
  | .forLoop _ iterator iterable body => forLoop ev iterator iterable body
  | .whileLoop _ test body => whileLoop ev limit test body
  | .breakLoop span value => breakFrom ev span value
  | .continueLoop span => continueFrom span
  | .letVar _ ident _ init => letVar ev ident init
  | .block _ nodes => block ev nodes

/-- Notes a node in the log, if the host asked for a trace. -/
def trace (node : Node) : Eval Unit := do
  if ← read (·.isTraced) then record (.evaluating node.describe node.span) else pure ()

/-- Evaluates a node, given a bound on the depth of evaluation and the length of loops. Before each
node the host may interrupt. -/
def node : Nat → Node → Eval ObjectId
  | 0, _ => throw .exhausted
  | fuel + 1, n => do
    checkInterrupt n.span
    trace n
    form (node fuel) fuel n

end Scripting.Eval
