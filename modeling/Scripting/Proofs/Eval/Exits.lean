import Scripting.Eval.Node

/-! Evaluation with a record. Beside the state it keeps which ways out of the running call and of
its innermost loop were taken: each `return` and each `break` that is executed is noted, with its
value, when it is executed. Everything else is as in `Eval`, form by form, and looks at no
record. -/
namespace Scripting

/-- A way out: a `break` with its value, if it has one, or a `return`. -/
inductive Exit where
  | broke (value : Option ObjectId)
  | returned (value : ObjectId)
  deriving DecidableEq, Repr, Inhabited

namespace Exit

def isReturn : Exit → Bool
  | .broke _ => false
  | .returned _ => true

/-- What was returned last, where the latest way out comes first. -/
def result? : List Exit → Option ObjectId
  | [] => none
  | .returned o :: _ => some o
  | .broke _ :: exits => result? exits

/-- The value of the latest `break`. -/
def latest? : List Exit → Option ObjectId
  | [] => none
  | .broke value :: _ => value
  | .returned _ :: exits => latest? exits

end Exit

/-- Evaluation that notes the ways out, the latest first, since the running call or its innermost
loop began. -/
abbrev Recorded := StateT (List Exit) Eval

namespace Recorded

open Eval

def note (x : Exit) : Recorded Unit := modify (x :: ·)

/-- A loop has a record of its own. What was returned in it was also returned in what is around it;
its breaks are nobody else's. -/
def inLoop {α : Type} (x : Recorded α) : Recorded α := do
  let outer ← get
  set ([] : List Exit)
  let a ← x
  modify fun inner => inner.filter Exit.isReturn ++ outer
  pure a

/-- A call has a record of its own, of which nothing is left when the call is over. -/
def inCall {α : Type} (x : Recorded α) : Recorded α := do
  let outer ← get
  set ([] : List Exit)
  let a ← x
  set outer
  pure a

/-! ### Places -/

def elementPlace (ev : Node → Recorded ObjectId) (vector : ObjectId) (target index : Node) :
    Recorded Place := do
  let i ← ev index
  return .element vector (← subscriptIndex vector i target.span index.span)

def reference (ev : Node → Recorded ObjectId) : Node → Recorded ObjectId
  | .var span ident => do
    if ← read fun s => !s.builtins.contains ident.name && s.env.contains ident.name then
      load (← variablePlace span ident) span
    else ev (.var span ident)
  | .subscript span target index => do
    let vector ← reference ev target
    load (← elementPlace ev vector target index) span
  | node => ev node

def place (ev : Node → Recorded ObjectId) : Node → Recorded Place
  | .var span ident => variablePlace span ident
  | .subscript _ target index => do
    let vector ← reference ev target
    elementPlace ev vector target index
  | node => raise (.hinted .typeMismatch node.span s!"cannot assign to {node.describe}")

def subscript (ev : Node → Recorded ObjectId) (span : Option Span) (target index : Node) :
    Recorded ObjectId := do
  let vector ← reference ev target
  let p ← elementPlace ev vector target index
  copy (← load p span)

def assign (ev : Node → Recorded ObjectId) (span : Option Span) (target value : Node) :
    Recorded ObjectId := do
  let p ← place ev target
  let o ← ev value
  store p (← copy o) span
  pure o

def letVar (ev : Node → Recorded ObjectId) (ident : Ident) (init : Option Node) :
    Recorded ObjectId := do
  match init with
  | some node =>
    let o ← ev node
    define ident.name o
  | none =>
    let _ ← declare ident.name
  allocNone

/-! ### Operators -/

def operands (ev : Node → Recorded ObjectId) : List Node → Recorded (List ObjectId)
  | [] => pure []
  | node :: nodes => do
    let o ← ev node
    let os ← operands ev nodes
    pure (o :: os)

def binary (ev : Node → Recorded ObjectId) (span : Option Span) (op : BinaryOp) (lhs rhs : Node) :
    Recorded ObjectId := do
  let l ← ev lhs
  let r ← ev rhs
  let v ← compute op (← valueOf l) (← valueOf r) span
  alloc v

def compareLinks (ev : Node → Recorded ObjectId) (span : Option Span) :
    ObjectId → List (CompareOp × Node) → Recorded Bool
  | _, [] => pure true
  | l, (op, node) :: links => do
    let r ← ev node
    if ← compareObjects op l r span then compareLinks ev span r links else pure false

def comparison (ev : Node → Recorded ObjectId) (span : Option Span) (node : Node) :
    Recorded ObjectId := do
  let l ← ev node.chain.1
  allocAtom (.bool (← compareLinks ev span l node.chain.2))

def range (ev : Node → Recorded ObjectId) (start stop : Node) : Recorded ObjectId := do
  let a ← ev start
  let b ← ev stop
  let first ← expectInt a start.span
  let last ← expectInt b stop.span
  allocAtom (.range ⟨first, last⟩)

/-! ### Statements and ways out -/

def runStatements (ev : Node → Recorded ObjectId) (index : Nat) : List Node → Recorded Unit
  | [] => pure ()
  | node :: nodes => do
    let o ← ev node
    modifyEnv (·.modifyScope index ({ · with last := some o }))
    if ← read fun s => (s.env.scopes[index]?.map (·.isSkipped)).getD true then pure ()
    else runStatements ev index nodes

def statements (ev : Node → Recorded ObjectId) (nodes : List Node) : Recorded ObjectId := do
  let index ← read (·.env.currentIndex)
  modifyEnv (·.modifyScope index ({ · with isSkipped := false, last := none }))
  runStatements ev index nodes
  let last ← read fun s => s.env.scopes[index]?.bind (·.last)
  modifyEnv (·.modifyScope index ({ · with last := none }))
  match last with
  | some o => pure o
  | none => allocNone

def block (ev : Node → Recorded ObjectId) (nodes : List Node) : Recorded ObjectId :=
  if nodes.isEmpty then allocNone
  else do
    modifyEnv (·.enter .block (Node.declared nodes))
    let o ← statements ev nodes
    leaveScope
    pure o

def condition (ev : Node → Recorded ObjectId) (test : Node) : Recorded Bool := do
  let o ← ev test
  match (← valueOf o).bool? with
  | some b => pure b
  | none => raise (.hinted .typeMismatch test.span "condition must be boolean")

def conditional (ev : Node → Recorded ObjectId) (test yes : Node) (no : Option Node) :
    Recorded ObjectId := do
  if ← condition ev test then ev yes
  else
    match no with
    | some node => ev node
    | none => allocNone

/-- The `return` is noted once its value has been found and the call is marked. -/
def returnFrom (ev : Node → Recorded ObjectId) (span : Option Span) (value : Option Node) :
    Recorded ObjectId := do
  if ← read (·.env.currentFrame?.isNone) then notInsideFunction "return" span
  else
    let result ←
      match value with
      | some node => ev node
      | none => allocNone
    if ← read (·.env.currentFrame?.isNone) then raise { kind := .notInsideFunction, span }
    else
      modifyEnv (leaveFunction · result)
      note (.returned result)
      allocNone

def operand? (ev : Node → Recorded ObjectId) : Option Node → Recorded (Option ObjectId)
  | none => pure none
  | some node => do return some (← ev node)

def breakFrom (ev : Node → Recorded ObjectId) (span : Option Span) (value : Option Node) :
    Recorded ObjectId := do
  if ← read (·.env.currentLoop?.isNone) then notInsideLoop "break" span
  else
    let result ← operand? ev value
    if ← read (·.env.currentLoop?.isNone) then notInsideLoop "break" span
    else
      modifyEnv (leaveLoop · result)
      note (.broke result)
      allocNone

/-! ### Loops -/

def iterate (ev : Node → Recorded ObjectId) (iterator body : Node) (fresh : Option Place)
    (item : ObjectId) : Recorded Bool := do
  if ← isBroken then pure false
  else
    checkInterrupt body.span
    let p ←
      match fresh with
      | some p => pure p
      | none => place ev iterator
    store p item iterator.span
    let _ ← statements ev body.statements
    return !(← isBroken)

def forRange (step : ObjectId → Recorded Bool) : Nat → Int → Recorded Unit
  | 0, _ => pure ()
  | n + 1, i => do
    let item ← allocAtom (.int (.ofInt i))
    if ← step item then forRange step n (i + 1) else pure ()

def forElements (step : ObjectId → Recorded Bool) : List ObjectId → Recorded Unit
  | [] => pure ()
  | o :: os => do
    let item ← copy o
    if ← step item then forElements step os else pure ()

def forLoop (ev : Node → Recorded ObjectId) (iterator iterable body : Node) :
    Recorded ObjectId := do
  let o ← ev iterable
  let items ← itemsOf o iterable.span
  inLoop do
    openLoop body.statements
    let fresh ← freshIterator iterator
    match items with
    | .range r => forRange (iterate ev iterator body fresh) r.length r.start.toInt
    | .elements os => forElements (iterate ev iterator body fresh) os
    closeLoop

def whileHolds (ev : Node → Recorded ObjectId) (test body : Node) : Nat → Recorded Unit
  | 0 => (throw .exhausted : Eval Unit)
  | n + 1 => do
    if ← isBroken then pure ()
    else
      checkInterrupt body.span
      if ← condition ev test then
        let _ ← statements ev body.statements
        whileHolds ev test body n
      else pure ()

def whileLoop (ev : Node → Recorded ObjectId) (limit : Nat) (test body : Node) :
    Recorded ObjectId :=
  inLoop do
    openLoop body.statements
    whileHolds ev test body limit
    closeLoop

/-! ### Calls -/

def callee (ev : Node → Recorded ObjectId) : Node → Recorded ObjectId
  | .var span ident => do
    let isKnown ← read fun s =>
      s.builtins.contains ident.name || s.env.contains ident.name ||
        (s.env.findFunction ident.name).isSome
    if isKnown then ev (.var span ident)
    else
      raise { kind := .undefinedFunction, span := ident.span <|> span,
              hints := [⟨span, s!"no function named `{ident.name}`"⟩] }
  | node => ev node

def invoke (ev : Node → Recorded ObjectId) (decl : Decl) (args : List ObjectId)
    (span : Option Span) : Recorded ObjectId := do
  ofExcept (checkArity decl args.length span)
  inCall do
    openCall decl span
    bindFixed decl.fixed args
    bindRest decl (args.drop decl.fixed.length)
    let value ← ev decl.body
    closeCall value

def callFunction (ev : Node → Recorded ObjectId) (decl : Decl) (args : List Node)
    (span : Option Span) : Recorded ObjectId := do
  let os ← operands ev args
  invoke ev decl os span

def call (ev : Node → Recorded ObjectId) (span : Option Span) (f : Node) (args : List Node) :
    Recorded ObjectId := do
  let o ← callee ev f
  match ← valueOf o with
  | .atom (.builtin b) =>
    let os ← operands (reference ev) args
    callBuiltin b os span
  | .atom (.function decl) => callFunction ev decl args span
  | v => raise (.hinted .typeMismatch f.span s!"`{v.kind.name}` is not callable")

/-! ### Nodes -/

/-- The rule of each form. -/
def form (ev : Node → Recorded ObjectId) (limit : Nat) : Node → Recorded ObjectId
  | .none _ | .record _ => allocNone
  | .bool _ b => allocAtom (.bool b)
  | .literal _ l => allocAtom l.atom
  | .emptyList _ => alloc (.vector #[])
  | .list _ items => do
    let os ← operands ev items
    alloc (.vector os.toArray)
  | .tuple _ items => do
    let os ← operands ev items
    alloc (.tuple os.toArray)
  | .range _ start stop => range ev start stop
  | .var span ident => name span ident
  | .subscript span target index => subscript ev span target index
  | .assign span target value => assign ev span target value
  | .binary span op lhs rhs => binary ev span op lhs rhs
  | .compare span op lhs rhs => comparison ev span (.compare span op lhs rhs)
  | .call span f args => call ev span f args
  | .function _ id ident params result body => functionObject { id, ident, params, result, body }
  | .self span => selfFunction span
  | .ret span value => returnFrom ev span value
  | .cond _ test yes no => conditional ev test yes no
  | .forLoop _ iterator iterable body => forLoop ev iterator iterable body
  | .whileLoop _ test body => whileLoop ev limit test body
  | .breakLoop span value => breakFrom ev span value
  | .continueLoop span => continueFrom span
  | .letVar _ ident _ init => letVar ev ident init
  | .block _ nodes => block ev nodes

/-- Evaluates a node as `Eval.node` does. -/
def node : Nat → Node → Recorded ObjectId
  | 0, _ => (throw .exhausted : Eval ObjectId)
  | fuel + 1, n => do
    checkInterrupt n.span
    trace n
    form (node fuel) fuel n

end Recorded
end Scripting
