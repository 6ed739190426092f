import Scripting.Decimal
import Scripting.Error
import Scripting.Node

/-! Values without elements: numbers, text, ranges and functions. -/
namespace Scripting

/-- The longest string or vector that repetition or a range may produce. -/
def maxSequenceLength : Nat := 0x1000000

/-- The integers from `start` up to, but not including, `stop`. -/
structure IntRange where
  start : Int64
  stop : Int64
  deriving DecidableEq, Repr, Inhabited

namespace IntRange

def length (r : IntRange) : Nat := (r.stop.toInt - r.start.toInt).toNat

def isEmpty (r : IntRange) : Bool := r.length = 0

/-- The length, unless a vector of so many elements would be too long. -/
def boundedLength? (r : IntRange) : Option Nat :=
  if r.length ≤ maxSequenceLength then some r.length else none

def text (r : IntRange) : String := s!"range({r.start.toInt}, {r.stop.toInt})"

end IntRange

/-- What a builtin does. The first seven make up the prelude; the others are there for a host to
register under names of its choice. -/
inductive Primitive where
  | print
  | println
  | printf
  | format
  | abs
  | append
  | vector
  | double
  | identity
  | count
  | kinds
  | bindings
  | length
  | interrupt
  | fail (kind : ErrorKind) (hint : Option String)
  deriving DecidableEq, Repr, Inhabited

/-- A function of the host, with the kinds its arguments must have. -/
structure Builtin where
  name : String
  signature : List Kind
  primitive : Primitive
  deriving DecidableEq, Repr, Inhabited

inductive Atom where
  | none
  | bool (b : Bool)
  | int (n : Int64)
  | float (x : Float32)
  | char (c : Char)
  | string (s : String)
  | range (r : IntRange)
  | function (decl : Decl)
  | builtin (b : Builtin)
  deriving Inhabited

namespace Atom

def kind : Atom → Kind
  | .none => .none
  | .bool _ => .bool
  | .int _ => .int
  | .float _ => .float
  | .char _ => .char
  | .string _ => .string
  | .range _ => .range
  | .function _ | .builtin _ => .func

/-- Functions are equal when they are the same declaration or builtins of one name. A float that
is not a number differs from itself. -/
def beq : Atom → Atom → Bool
  | .none, .none => true
  | .bool a, .bool b => a == b
  | .int m, .int n => m == n
  | .float x, .float y => x == y
  | .char c, .char d => c == d
  | .string s, .string t => s == t
  | .range r, .range q => r == q
  | .function d, .function e => d.id == e.id
  | .builtin b, .builtin c => b.name == c.name
  | _, _ => false

instance : BEq Atom := ⟨beq⟩

/-- How many items a string or a range has. -/
def length? : Atom → Option Nat
  | .string s => some s.length
  | .range r => some r.length
  | _ => Option.none

/-- What printing shows. A function of the script shows the number of its declaration. -/
def text : Atom → String
  | .none => "none"
  | .bool b => if b then "true" else "false"
  | .int n => toString n.toInt
  | .float x => floatText x
  | .char c => c.toString
  | .string s => s
  | .range r => r.text
  | .function d => "<func 0x" ++ (String.ofList (Nat.toDigits 16 d.id)).toUpper ++ ">"
  | .builtin b => "<builtin-func " ++ b.name ++ ">"

end Atom

def Literal.atom : Literal → Atom
  | .int n => .int n
  | .float x => .float x
  | .char c => .char c
  | .string s => .string s

end Scripting
