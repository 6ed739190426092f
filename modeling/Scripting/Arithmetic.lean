import Scripting.Atom

/-! Binary operators on atoms. Integers are exact or fail, floats are single precision, and a
string times a count repeats the string. -/
namespace Scripting

namespace BinaryOp

/-- Whether the operator works on the bits of integers. -/
def isIntegral : BinaryOp → Bool
  | .shiftLeft | .shiftRight | .bitAnd | .bitXor | .bitOr => true
  | _ => false

def isLogical : BinaryOp → Bool
  | .logAnd | .logOr => true
  | _ => false

/-- The error for operands of one kind that the operator does not take. -/
def unsupported (op : BinaryOp) (kind : Kind) (span : Option Span) : Error :=
  if op.isIntegral then
    .hinted .typeMismatch span s!"`{op.symbol}` needs `int`, found `{kind.name}`"
  else if op.isLogical then
    .hinted .typeMismatch span s!"`{op.symbol}` needs `bool`, found `{kind.name}`"
  else
    .hinted .invalidOperator span s!"`{op.symbol}` is not defined for `{kind.name}`"

/-- The error for operands of two kinds between which the operator means nothing. -/
def undefinedBetween (op : BinaryOp) (left right : Kind) (span : Option Span) : Error :=
  .hinted .invalidOperator span s!"no `{op.symbol}` between `{left.name}` and `{right.name}`"

end BinaryOp

/-- The 64-bit integer of a given value, if there is one. -/
def exactInt? (n : Int) : Option Int64 :=
  if Int64.minValue.toInt ≤ n ∧ n ≤ Int64.maxValue.toInt then some (Int64.ofInt n) else none

/-- An integer result, refused when 64 bits cannot hold it. -/
def exactInt (n : Int) (span : Option Span) : Except Error Int64 :=
  match exactInt? n with
  | some k => .ok k
  | none => .error { kind := .valueOutOfRange, span }

/-- A shift distance must lie in `0..64`. -/
def shiftDistance (b : Int64) (span : Option Span) : Except Error Int64 :=
  if 0 ≤ b ∧ b < 64 then .ok b
  else .error (.hinted .valueOutOfRange span s!"shift by {b.toInt} is outside 0..64")

def intCompute (op : BinaryOp) (a b : Int64) (span : Option Span) : Except Error Int64 :=
  match op with
  | .add => exactInt (a.toInt + b.toInt) span
  | .sub => exactInt (a.toInt - b.toInt) span
  | .mul => exactInt (a.toInt * b.toInt) span
  | .div =>
    if b = 0 then .error { kind := .divisionByZero, span }
    else exactInt (a.toInt.tdiv b.toInt) span
  | .mod =>
    if b = 0 then .error { kind := .divisionByZero, span }
    -- A remainder is defined only where the quotient is.
    else (exactInt (a.toInt.tdiv b.toInt) span).map fun _ => a % b
  | .shiftLeft => (shiftDistance b span).map (a <<< ·)
  | .shiftRight => (shiftDistance b span).map (a >>> ·)
  | .bitAnd => .ok (a &&& b)
  | .bitXor => .ok (a ^^^ b)
  | .bitOr => .ok (a ||| b)
  | .logAnd | .logOr => .error (op.unsupported .int span)

/-- Takes `b` away from `a` until `a < b`. Every step lowers the bits of `a`, which bound the
number of steps. -/
def floatReduce (b : Float32) (span : Option Span) : Nat → Float32 → Except Error Float32
  | 0, a => .ok a
  | n + 1, a =>
    if a < b then .ok a
    else if a - b == a then
      .error (.hinted .valueOutOfRange span "float modulo cannot make progress")
    else floatReduce b span n (a - b)

/-- The remainder by repeated subtraction; a negative dividend is its own remainder. -/
def floatMod (a b : Float32) (span : Option Span) : Except Error Float32 :=
  if b == 0 then .error { kind := .divisionByZero, span }
  else if b < 0 || !b.isFinite || !a.isFinite then
    .error (.hinted .valueOutOfRange span "float modulo needs a finite positive divisor")
  else floatReduce b span (a.toBits.toNat + 1) a

def floatCompute (op : BinaryOp) (a b : Float32) (span : Option Span) : Except Error Float32 :=
  match op with
  | .add => .ok (a + b)
  | .sub => .ok (a - b)
  | .mul => .ok (a * b)
  | .div => .ok (a / b)
  | .mod => floatMod a b span
  | _ => .error (op.unsupported .float span)

/-- `s` written `n` times. -/
def repeated (s : String) (n : Nat) : String :=
  if s.isEmpty then "" else Nat.repeat (· ++ s) n ""

def repeatString (s : String) (n : Int64) (span : Option Span) : Except Error String :=
  if n < 0 then .error (.hinted .negativeRepeat span s!"repeat count is {n.toInt}")
  else if s.length * n.toInt.toNat ≤ maxSequenceLength then .ok (repeated s n.toInt.toNat)
  else .error
    (.hinted .valueOutOfRange span s!"repeated string would exceed {maxSequenceLength} chars")

/-- A binary operator on atoms. Between an integer and a float the integer becomes a float. -/
def Atom.compute (op : BinaryOp) (l r : Atom) (span : Option Span) : Except Error Atom :=
  match l, r with
  | .int a, .float b => (floatCompute op a.toFloat32 b span).map .float
  | .float a, .int b => (floatCompute op a b.toFloat32 span).map .float
  | .int a, .int b => (intCompute op a b span).map .int
  | .float a, .float b => (floatCompute op a b span).map .float
  | .string s, .int n | .int n, .string s =>
    if op = .mul then (repeatString s n span).map .string
    else .error (op.undefinedBetween l.kind r.kind span)
  | .string s, .string t =>
    if op = .add then .ok (.string (s ++ t)) else .error (op.unsupported .string span)
  | .bool a, .bool b =>
    match op with
    | .logAnd => .ok (.bool (a && b))
    | .logOr => .ok (.bool (a || b))
    | _ => .error (op.unsupported .bool span)
  | _, _ =>
    if l.kind = r.kind then .error (op.unsupported l.kind span)
    else .error (op.undefinedBetween l.kind r.kind span)

end Scripting
