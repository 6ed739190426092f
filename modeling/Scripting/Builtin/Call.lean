import Scripting.Arithmetic
import Scripting.Builtin.Template
import Scripting.Eval.Basic

/-! What the builtins do. They get the objects of their arguments, not copies. -/
namespace Scripting.Eval

/-- Writes the texts of objects one after the other, and counts their characters. -/
def writeAll : List ObjectId → Nat → Eval Nat
  | [], written => pure written
  | o :: os, written => do
    let text ← textOf o
    write text
    writeAll os (written + text.length)

def textsOf : List ObjectId → Eval (List String)
  | [] => pure []
  | o :: os => do return (← textOf o) :: (← textsOf os)

def illegalCall {α : Type} (span : Option Span) : Eval α := raise { kind := .illegalCall, span }

/-- The first argument as a template, filled with the others. Arguments for which there is no
placeholder are not looked at. -/
def render (args : List ObjectId) (span : Option Span) : Eval String :=
  match args with
  | [] => illegalCall span
  | template :: rest => do
    match ← valueOf template with
    | .atom (.string s) =>
      let texts ← textsOf (rest.take (placeholders s.toList))
      match fillTemplate "" s.toList texts with
      | some text => pure text
      | none =>
        raise (.hinted .tooFewArguments span "more `\x7b\x7d` placeholders than arguments")
    | _ => illegalCall span

/-- Grows a vector by copies of further objects, taken before it changes. -/
def append (args : List ObjectId) (span : Option Span) : Eval ObjectId :=
  match args with
  | target :: item :: items => do
    let copies ← copyAll (item :: items)
    match ← valueOf target with
    | .vector es =>
      setValue target (.vector (es ++ copies))
      copy target
    | _ => illegalCall span
  | _ => raise (.hinted .tooFewArguments span "nothing to append")

/-- The integers of a range, as trees to build. -/
def rangeTrees (r : IntRange) : List Tree :=
  (List.range r.length).map fun (i : Nat) => .atom (.int (.ofInt (r.start.toInt + i)))

def rangeVector (o : ObjectId) (span : Option Span) : Eval ObjectId := do
  match ← valueOf o with
  | .atom (.range r) =>
    match r.boundedLength? with
    | some _ => build (.vector (rangeTrees r))
    | none => raise (.hinted .valueOutOfRange span s!"{r.text} has too many elements")
  | _ => illegalCall span

/-- Applies a builtin to arguments that suit its signature. -/
def applyPrimitive (p : Primitive) (args : List ObjectId) (span : Option Span) : Eval ObjectId :=
  match p with
  | .print => do allocAtom (.int (.ofNat (← writeAll args 0)))
  | .println => do
    let written ← writeAll args 0
    write "\n"
    allocAtom (.int (.ofNat (written + 1)))
  | .printf => do
    let text ← render args span
    write text
    allocAtom (.int (.ofNat text.length))
  | .format => do allocAtom (.string (← render args span))
  | .abs =>
    match args with
    | o :: _ => do
      match (← valueOf o).int? with
      | some n => allocAtom (.int (← ofExcept (exactInt n.toInt.natAbs span)))
      | none => illegalCall span
    | [] => illegalCall span
  | .append => append args span
  | .vector =>
    match args with
    | o :: _ => rangeVector o span
    | [] => illegalCall span
  | .double =>
    match args with
    | o :: _ => do
      match (← valueOf o).int? with
      | some n => allocAtom (.int (← ofExcept (exactInt (2 * n.toInt) span)))
      | none => illegalCall span
    | [] => illegalCall span
  | .identity =>
    match args with
    | o :: _ => pure o
    | [] => allocNone
  | .count => allocAtom (.int (.ofNat args.length))
  | .kinds => do
    let names ← args.mapM fun o => return (← valueOf o).kind.name
    allocAtom (.string (",".intercalate names))
  | .bindings => do
    let counts ← args.mapM fun o => read fun s =>
      Tree.atom (.int (.ofNat (s.heap.store.bindings o)))
    build (.vector counts)
  | .length =>
    match args with
    | o :: _ => do
      match (← valueOf o).length? with
      | some n => allocAtom (.int (.ofNat n))
      | none => allocNone
    | [] => allocNone
  | .interrupt => do
    modify fun s => { s with isInterrupted := true }
    allocNone
  | .fail kind hint => raise { kind, span, hints := hint.toList.map (⟨none, ·⟩) }

/-- Calls a builtin, once the kinds of its arguments suit it. -/
def callBuiltin (b : Builtin) (args : List ObjectId) (span : Option Span) : Eval ObjectId := do
  let kinds ← read fun s => args.map fun o => (s.heap.store.value o).kind
  ofExcept (checkSignature b.signature kinds span)
  applyPrimitive b.primitive args span

end Scripting.Eval
