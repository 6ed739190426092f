import Scripting.Value

/-! Order of values, and what each comparison operator asks of it. -/
namespace Scripting

/-- The order of two floats; none when one of them is not a number. -/
def floatOrdering? (x y : Float32) : Option Ordering :=
  if x < y then some .lt
  else if y < x then some .gt
  else if x == y then some .eq
  else none

namespace Atom

/-- Whether two atoms are of kinds between which there is an order. -/
def areOrdered : Atom → Atom → Bool
  | .int _, .float _ | .float _, .int _ | .int _, .int _ | .float _, .float _ | .char _, .char _
  | .string _, .string _ => true
  | _, _ => false

/-- The order of two atoms; strings are compared by code points. -/
def ordering? : Atom → Atom → Option Ordering
  | .int a, .float b => floatOrdering? a.toFloat32 b
  | .float a, .int b => floatOrdering? a b.toFloat32
  | .int a, .int b => some (compare a.toInt b.toInt)
  | .float a, .float b => floatOrdering? a b
  | .char a, .char b => some (compare a.toNat b.toNat)
  | .string a, .string b => some (if a < b then .lt else if b < a then .gt else .eq)
  | _, _ => Option.none

end Atom

namespace CompareOp

/-- Whether a comparison holds, given the order of its operands. Operands without an order are
unequal, and no other comparison holds between them. -/
def holds (op : CompareOp) : Option Ordering → Bool
  | none => op = .ne
  | some o =>
    match op with
    | .gt => o.isGT
    | .ge => o.isGE
    | .lt => o.isLT
    | .le => o.isLE
    | .eq => o.isEq
    | .ne => o.isNe

/-- Compares two values, `same` being their equality. Values of one kind without an order can only
be tested for equality. -/
def apply (op : CompareOp) (l r : Value) (same : Unit → Bool) (span : Option Span) :
    Except Error Bool :=
  match l, r with
  | .atom a, .atom b =>
    if a.areOrdered b then .ok (op.holds (a.ordering? b)) else unordered l r
  | _, _ => unordered l r
where
  unordered (l r : Value) : Except Error Bool :=
    if l.kind ≠ r.kind then
      .error (.hinted .typeMismatch span s!"cannot compare `{l.kind.name}` with `{r.kind.name}`")
    else
      match op with
      | .eq => .ok (same ())
      | .ne => .ok (!same ())
      | _ => .error (.hinted .invalidOperator span s!"`{l.kind.name}` has no ordering")

end CompareOp
end Scripting
