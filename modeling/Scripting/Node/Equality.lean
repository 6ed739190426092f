import Scripting.Node

/-! Equality of trees: locations and stated shapes count, the identity of declarations does not.
A tree with a float literal that is not a number differs from itself. -/
namespace Scripting

def Literal.beq : Literal → Literal → Bool
  | .int m, .int n => m == n
  | .float x, .float y => x == y
  | .char c, .char d => c == d
  | .string s, .string t => s == t
  | _, _ => false

def Param.beq (p q : Param) : Bool :=
  p.ident == q.ident && p.shape == q.shape && p.isVariadic == q.isVariadic

namespace Node

mutual

def beq : Node → Node → Bool
  | .none s, .none t => s == t
  | .self s, .self t => s == t
  | .bool s a, .bool t b => s == t && a == b
  | .literal s a, .literal t b => s == t && a.beq b
  | .list s as, .list t bs => s == t && beqList as bs
  | .emptyList s, .emptyList t => s == t
  | .tuple s as, .tuple t bs => s == t && beqList as bs
  | .var s a, .var t b => s == t && a == b
  | .call s a as, .call t b bs => s == t && beq a b && beqList as bs
  | .subscript s a i, .subscript t b j => s == t && beq a b && beq i j
  | .binary s o a a', .binary t p b b' => s == t && o == p && beq a b && beq a' b'
  | .compare s o a a', .compare t p b b' => s == t && o == p && beq a b && beq a' b'
  | .range s a a', .range t b b' => s == t && beq a b && beq a' b'
  | .assign s a a', .assign t b b' => s == t && beq a b && beq a' b'
  | .cond s c a a', .cond t d b b' => s == t && beq c d && beq a b && beqOption a' b'
  | .forLoop s c a a', .forLoop t d b b' => s == t && beq c d && beq a b && beq a' b'
  | .whileLoop s a a', .whileLoop t b b' => s == t && beq a b && beq a' b'
  | .ret s a, .ret t b => s == t && beqOption a b
  | .breakLoop s a, .breakLoop t b => s == t && beqOption a b
  | .continueLoop s, .continueLoop t => s == t
  | .letVar s i h a, .letVar t j k b => s == t && i == j && h == k && beqOption a b
  | .block s as, .block t bs => s == t && beqList as bs
  | .function s _ i ps r a, .function t _ j qs q b =>
    s == t && i == j && ps.length == qs.length && (ps.zip qs).all (fun (p, q) => p.beq q) &&
      r == q && beq a b
  | .record s, .record t => s == t
  | _, _ => false

def beqList : List Node → List Node → Bool
  | [], [] => true
  | a :: as, b :: bs => beq a b && beqList as bs
  | _, _ => false

def beqOption : Option Node → Option Node → Bool
  | some a, some b => beq a b
  | Option.none, Option.none => true
  | _, _ => false

end

instance : BEq Node := ⟨beq⟩

end Node
end Scripting
