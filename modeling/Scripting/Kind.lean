/-! The kinds of value a script handles, and the shapes that annotate declarations. -/
namespace Scripting

/-- `args` stands only in signatures, for any number of further arguments. -/
inductive Kind where
  | none | int | float | bool | char | string | tuple | vector | range | args | func
  deriving DecidableEq, Repr, Inhabited

def Kind.name : Kind → String
  | .none => "none"
  | .int => "int"
  | .float => "float"
  | .bool => "bool"
  | .char => "char"
  | .string => "string"
  | .tuple => "tuple"
  | .vector => "vec"
  | .range => "range"
  | .args => "args"
  | .func => "func"

def Kind.all : List Kind :=
  [.none, .int, .float, .bool, .char, .string, .tuple, .vector, .range, .args, .func]

def Kind.ofName? (name : String) : Option Kind := Kind.all.find? (·.name = name)

/-- A kind together with the element shapes and qualifiers a declaration may state. -/
inductive Shape where
  | mk (kind : Kind) (isMutable isReference : Bool) (elements : List Shape)
  deriving Repr, Inhabited

namespace Shape

def ofKind (kind : Kind) (elements : List Shape := []) : Shape := .mk kind false false elements

def kind : Shape → Kind
  | .mk k _ _ _ => k

def isMutable : Shape → Bool
  | .mk _ m _ _ => m

def isReference : Shape → Bool
  | .mk _ _ r _ => r

def elements : Shape → List Shape
  | .mk _ _ _ es => es

/-- Two shapes agree when their kinds do: qualifiers and elements are only informative. -/
def agrees (s t : Shape) : Bool := s.kind = t.kind

mutual

/-- Equality in every field. -/
def beq : Shape → Shape → Bool
  | .mk k m r es, .mk k' m' r' es' => k = k' && m = m' && r = r' && beqList es es'

def beqList : List Shape → List Shape → Bool
  | [], [] => true
  | s :: ss, t :: ts => beq s t && beqList ss ts
  | _, _ => false

end

instance : BEq Shape := ⟨beq⟩

end Shape
end Scripting
