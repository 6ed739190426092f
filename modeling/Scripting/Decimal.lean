/-! Decimal text of binary fractions, to a fixed number of places. -/
namespace Scripting

/-- The integer nearest to a quotient; a half goes to the even neighbour. -/
def roundHalfEven (num den : Nat) : Nat :=
  let q := num / den
  let r := num % den
  if 2 * r < den ∨ (2 * r = den ∧ q % 2 = 0) then q else q + 1

/-- What the bits of a single-precision number stand for: `mantissa * 2 ^ exponent` when finite. -/
inductive FloatParts where
  | nan
  | infinite (negative : Bool)
  | finite (negative : Bool) (mantissa : Nat) (exponent : Int)
  deriving DecidableEq, Repr

namespace FloatParts

def ofBits (bits : UInt32) : FloatParts :=
  let n := bits.toNat
  let negative := n / 0x80000000 == 1
  let field : Nat := n / 0x800000 % 0x100
  let fraction := n % 0x800000
  if field = 255 then
    if fraction = 0 then .infinite negative else .nan
  else if field = 0 then .finite negative fraction (-149)
  else .finite negative (0x800000 + fraction) ((field : Int) - 150)

/-- The nearest multiple of `10 ^ -places`, counted in such units. -/
def scaled (places mantissa : Nat) (exponent : Int) : Nat :=
  if 0 ≤ exponent then mantissa * Nat.pow 2 exponent.toNat * Nat.pow 10 places
  else roundHalfEven (mantissa * Nat.pow 10 places) (Nat.pow 2 (-exponent).toNat)

end FloatParts

/-- `n` in decimal with zeros in front, up to a width. -/
def paddedDigits (width n : Nat) : List Char :=
  let digits := Nat.toDigits 10 n
  List.replicate (width - digits.length) '0' ++ digits

/-- Digits after the point without the zeros at their end, but never empty. -/
def trimZeros (digits : List Char) : List Char :=
  match (digits.reverse.dropWhile (· == '0')).reverse with
  | [] => ['0']
  | kept => kept

/-- How many places after the point a float shows before zeros are dropped. -/
def floatPlaces : Nat := 6

/-- A float rounded to six places, without trailing zeros after the first place. -/
def floatText (x : Float32) : String :=
  match FloatParts.ofBits x.toBits with
  | .nan => "NaN"
  | .infinite negative => if negative then "-inf" else "inf"
  | .finite negative mantissa exponent =>
    let units := FloatParts.scaled floatPlaces mantissa exponent
    let unit := Nat.pow 10 floatPlaces
    let whole := units / unit
    let fraction := trimZeros (paddedDigits floatPlaces (units % unit))
    (if negative then "-" else "") ++ Nat.repr whole ++ "." ++ String.ofList fraction

end Scripting
