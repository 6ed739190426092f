import Scripting.Atom

/-! Values as objects hold them, and the finite trees they unfold to. -/
namespace Scripting

/-- Objects are numbered in the order of their creation, and no number is used twice. -/
abbrev ObjectId := Nat

/-- What an object holds: an atom, or a sequence of other objects. -/
inductive Value where
  | atom (a : Atom)
  | tuple (elements : Array ObjectId)
  | vector (elements : Array ObjectId)
  deriving Inhabited

namespace Value

def none : Value := .atom .none

def kind : Value → Kind
  | .atom a => a.kind
  | .tuple _ => .tuple
  | .vector _ => .vector

/-- The objects held directly. -/
def elements : Value → Array ObjectId
  | .atom _ => #[]
  | .tuple es | .vector es => es

def length? : Value → Option Nat
  | .atom a => a.length?
  | .tuple es | .vector es => some es.size

def bool? : Value → Option Bool
  | .atom (.bool b) => some b
  | _ => Option.none

def int? : Value → Option Int64
  | .atom (.int n) => some n
  | _ => Option.none

def float? : Value → Option Float32
  | .atom (.float x) => some x
  | _ => Option.none

def string? : Value → Option String
  | .atom (.string s) => some s
  | _ => Option.none

def isNone : Value → Bool
  | .atom .none => true
  | _ => false

end Value

/-- A value with its elements in place: what an object means, whichever objects make it up. -/
inductive Tree where
  | atom (a : Atom)
  | tuple (elements : List Tree)
  | vector (elements : List Tree)
  deriving Inhabited

namespace Tree

def kind : Tree → Kind
  | .atom a => a.kind
  | .tuple _ => .tuple
  | .vector _ => .vector

mutual

def text : Tree → String
  | .atom a => a.text
  | .tuple ts => "(" ++ items ts ++ ")"
  | .vector ts => "[" ++ items ts ++ "]"

/-- The elements' texts, with a comma and a blank between them. -/
def items : List Tree → String
  | [] => ""
  | t :: ts => moreItems (text t) ts

def moreItems (written : String) : List Tree → String
  | [] => written
  | t :: ts => moreItems (written ++ ", " ++ text t) ts

end

mutual

/-- A tuple's shape lists the shapes of its elements; every other shape is plain. -/
def shape : Tree → Shape
  | .atom a => .ofKind a.kind
  | .tuple ts => .ofKind .tuple (shapes ts)
  | .vector _ => .ofKind .vector

def shapes : List Tree → List Shape
  | [] => []
  | t :: ts => shape t :: shapes ts

end

end Tree
end Scripting
