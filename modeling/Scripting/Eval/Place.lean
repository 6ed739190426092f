import Scripting.Eval.Basic

/-! Places that hold an object: variables and elements of vectors. Throughout, `ev` evaluates the
operands of a form. -/
namespace Scripting

inductive Place where
  | variable (slot : Slot)
  | element (vector : ObjectId) (index : Nat)
  deriving DecidableEq, Repr, Inhabited

namespace Eval

/-- The object at a place. -/
def load (p : Place) (span : Option Span) : Eval ObjectId :=
  match p with
  | .variable slot => do
    match ← read fun s => (s.env.variableAt? slot).bind (·.value) with
    | some o => pure o
    | none => raise { kind := .uninitializedVariable, span }
  | .element vector index => do
    match ← valueOf vector with
    | .vector es =>
      match es[index]? with
      | some o => pure o
      | none => raise { kind := .subscriptOutOfRange, span }
    | _ => raise { kind := .typeMismatch, span }

/-- Puts an object at a place. -/
def store (p : Place) (o : ObjectId) (span : Option Span) : Eval Unit :=
  match p with
  | .variable slot => do
    if ← read fun s => (s.env.variableAt? slot).isSome then
      modifyBindings fun e s => e.assign s slot o
    else raise { kind := .undefinedVariable, span }
  | .element vector index => do
    match ← valueOf vector with
    | .vector es =>
      if index < es.size then setValue vector (.vector (es.setIfInBounds index o))
      else raise { kind := .subscriptOutOfRange, span }
    | _ => raise { kind := .typeMismatch, span }

/-- The place of a name that some scope has, builtin or not. -/
def variablePlace (span : Option Span) (ident : Ident) : Eval Place := do
  match ← read (·.env.lookup ident.name) with
  | some slot => pure (.variable slot)
  | none =>
    raise { kind := .undefinedVariable, span := ident.span <|> span,
            hints := [⟨span, s!"`{ident.name}` is not declared"⟩] }

/-- The position that an index object gives in a vector object. -/
def subscriptIndex (vector index : ObjectId) (target : Option Span) (span : Option Span) :
    Eval Nat := do
  match ← valueOf vector with
  | .vector es =>
    match (← valueOf index).int? with
    | some i =>
      if 0 ≤ i.toInt ∧ i.toInt < es.size then pure i.toInt.toNat
      else
        raise (.hinted .subscriptOutOfRange span
          s!"index is {i.toInt} but length is {es.size}")
    | none => raise (.hinted .typeMismatch span "expected integer")
  | _ => raise (.hinted .typeMismatch target "expected vector")

/-- The place of an element, once the vector is known. -/
def elementPlace (ev : Node → Eval ObjectId) (vector : ObjectId) (target index : Node) :
    Eval Place := do
  let i ← ev index
  return .element vector (← subscriptIndex vector i target.span index.span)

/-- Evaluates without a copy: a variable or an element gives the object that is stored there. -/
def reference (ev : Node → Eval ObjectId) : Node → Eval ObjectId
  | .var span ident => do
    if ← read fun s => !s.builtins.contains ident.name && s.env.contains ident.name then
      load (← variablePlace span ident) span
    else ev (.var span ident)
  | .subscript span target index => do
    let vector ← reference ev target
    load (← elementPlace ev vector target index) span
  | node => ev node

/-- The place that a node denotes as the target of an assignment. -/
def place (ev : Node → Eval ObjectId) : Node → Eval Place
  | .var span ident => variablePlace span ident
  | .subscript _ target index => do
    let vector ← reference ev target
    elementPlace ev vector target index
  | node => raise (.hinted .typeMismatch node.span s!"cannot assign to {node.describe}")

/-- A name as a value: a builtin, a copy of a variable's object, or a function in scope. -/
def name (span : Option Span) (ident : Ident) : Eval ObjectId := do
  let span := ident.span <|> span
  match ← read (·.builtins.find? ident.name) with
  | some b => allocAtom (.builtin b)
  | none =>
    if ← read (·.env.contains ident.name) then
      let found ← read (·.env.get ident.name span)
      copy (← ofExcept found)
    else
      match ← read (·.env.findFunction ident.name) with
      | some decl => functionObject decl
      | none => raise (Environment.undeclared ident.name span)

/-- A copy of an element. -/
def subscript (ev : Node → Eval ObjectId) (span : Option Span) (target index : Node) :
    Eval ObjectId := do
  let vector ← reference ev target
  let p ← elementPlace ev vector target index
  copy (← load p span)

/-- Stores a copy, so that the value of the assignment shares nothing with the place. -/
def assign (ev : Node → Eval ObjectId) (span : Option Span) (target value : Node) :
    Eval ObjectId := do
  let p ← place ev target
  let o ← ev value
  store p (← copy o) span
  pure o

/-- Declares a variable of the innermost scope, and binds it if there is a value for it. The value
is found before the name is declared. -/
def letVar (ev : Node → Eval ObjectId) (ident : Ident) (init : Option Node) : Eval ObjectId := do
  match init with
  | some node =>
    let o ← ev node
    define ident.name o
  | none =>
    let _ ← declare ident.name
  allocNone

end Eval
end Scripting
