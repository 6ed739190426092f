import Scripting.Arithmetic
import Scripting.Eval.Basic

/-! Operators and displays of sequences. -/
namespace Scripting.Eval

/-- Evaluates nodes from left to right. -/
def operands (ev : Node → Eval ObjectId) : List Node → Eval (List ObjectId)
  | [] => pure []
  | node :: nodes => do
    let o ← ev node
    let os ← operands ev nodes
    pure (o :: os)

/-- A binary operator on values. The sum of two vectors holds copies of their elements. -/
def compute (op : BinaryOp) (l r : Value) (span : Option Span) : Eval Value :=
  match l, r with
  | .atom a, .atom b => do return .atom (← ofExcept (Atom.compute op a b span))
  | .vector es, .vector fs =>
    if op = .add then do return .vector (← copyAll (es ++ fs).toList)
    else raise (op.unsupported .vector span)
  | l, r =>
    if l.kind = r.kind then raise (op.unsupported l.kind span)
    else raise (op.undefinedBetween l.kind r.kind span)

def binary (ev : Node → Eval ObjectId) (span : Option Span) (op : BinaryOp) (lhs rhs : Node) :
    Eval ObjectId := do
  let l ← ev lhs
  let r ← ev rhs
  let v ← compute op (← valueOf l) (← valueOf r) span
  alloc v

/-- Whether a comparison holds between two objects. -/
def compareObjects (op : CompareOp) (l r : ObjectId) (span : Option Span) : Eval Bool := do
  let result ← read fun s =>
    let store := s.heap.store
    let v := store.value l
    let w := store.value r
    op.apply v w (fun _ => store.equalValues v w) span
  ofExcept result

/-- Whether all links of a chain hold, each with the operand before it. The first one that fails
ends the evaluation of operands. -/
def compareLinks (ev : Node → Eval ObjectId) (span : Option Span) :
    ObjectId → List (CompareOp × Node) → Eval Bool
  | _, [] => pure true
  | l, (op, node) :: links => do
    let r ← ev node
    if ← compareObjects op l r span then compareLinks ev span r links else pure false

def comparison (ev : Node → Eval ObjectId) (span : Option Span) (node : Node) : Eval ObjectId := do
  let (first, links) := node.chain
  let l ← ev first
  allocAtom (.bool (← compareLinks ev span l links))

def expectInt (o : ObjectId) (span : Option Span) : Eval Int64 := do
  match (← valueOf o).int? with
  | some n => pure n
  | none => raise (.hinted .typeMismatch span "expected integer")

def range (ev : Node → Eval ObjectId) (start stop : Node) : Eval ObjectId := do
  let a ← ev start
  let b ← ev stop
  let first ← expectInt a start.span
  let last ← expectInt b stop.span
  allocAtom (.range ⟨first, last⟩)

end Scripting.Eval
