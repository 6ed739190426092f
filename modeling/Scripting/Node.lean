import Scripting.Kind
import Scripting.Operator
import Scripting.Span

/-! Syntax trees and the function declarations inside them. -/
namespace Scripting

structure Ident where
  name : String
  span : Option Span := none
  deriving DecidableEq, Repr, Inhabited

/-- A parameter of a function. Only the last one of a declaration is ever taken as variadic. -/
structure Param where
  ident : Ident
  shape : Option Shape := none
  isVariadic : Bool := false
  deriving Repr, Inhabited

inductive Literal where
  | int (n : Int64)
  | float (x : Float32)
  | char (c : Char)
  | string (s : String)
  deriving Repr, Inhabited

/-- A tree, every node with the location it was read from. The number in a function node tells
declarations apart: two readings of one text are different declarations. -/
inductive Node where
  | none (span : Option Span)
  | self (span : Option Span)
  | bool (span : Option Span) (b : Bool)
  | literal (span : Option Span) (l : Literal)
  | list (span : Option Span) (items : List Node)
  | emptyList (span : Option Span)
  | tuple (span : Option Span) (items : List Node)
  | var (span : Option Span) (ident : Ident)
  | call (span : Option Span) (callee : Node) (args : List Node)
  | subscript (span : Option Span) (target index : Node)
  | binary (span : Option Span) (op : BinaryOp) (lhs rhs : Node)
  | compare (span : Option Span) (op : CompareOp) (lhs rhs : Node)
  | range (span : Option Span) (start stop : Node)
  | assign (span : Option Span) (target value : Node)
  | cond (span : Option Span) (test yes : Node) (no : Option Node)
  | forLoop (span : Option Span) (iterator iterable body : Node)
  | whileLoop (span : Option Span) (test body : Node)
  | ret (span : Option Span) (value : Option Node)
  | breakLoop (span : Option Span) (value : Option Node)
  | continueLoop (span : Option Span)
  | letVar (span : Option Span) (ident : Ident) (shape : Option Shape) (init : Option Node)
  | block (span : Option Span) (statements : List Node)
  | function (span : Option Span) (id : Nat) (ident : Ident) (params : List Param)
      (result : Option Shape) (body : Node)
  | record (span : Option Span)
  deriving Inhabited

/-- A function declaration. Its `id` is its identity. -/
structure Decl where
  id : Nat
  ident : Ident
  params : List Param := []
  result : Option Shape := none
  body : Node
  deriving Inhabited

def Decl.name (d : Decl) : String := d.ident.name

/-- The last parameter, if it collects all further arguments. -/
def Decl.variadic? (d : Decl) : Option Param :=
  d.params.getLast?.filter (·.isVariadic)

/-- The parameters that take exactly one argument each. -/
def Decl.fixed (d : Decl) : List Param :=
  if d.variadic?.isSome then d.params.dropLast else d.params

namespace Node

def span : Node → Option Span
  | .none s | .self s | .bool s _ | .literal s _ | .list s _ | .emptyList s | .tuple s _
  | .var s _ | .call s _ _ | .subscript s _ _ | .binary s _ _ _ | .compare s _ _ _
  | .range s _ _ | .assign s _ _ | .cond s _ _ _ | .forLoop s _ _ _ | .whileLoop s _ _ | .ret s _
  | .breakLoop s _ | .continueLoop s | .letVar s _ _ _ | .block s _ | .function s _ _ _ _ _
  | .record s => s

/-- What diagnostics call a node. -/
def describe : Node → String
  | .none _ => "none"
  | .self _ => "self function"
  | .bool _ _ => "boolean"
  | .literal _ _ => "literal"
  | .list _ _ => "list"
  | .emptyList _ => "empty list"
  | .tuple _ _ => "tuple"
  | .var _ _ => "variable"
  | .call _ _ _ => "function call"
  | .subscript _ _ _ => "subscript"
  | .binary _ _ _ _ => "binary operation"
  | .compare _ _ _ _ => "comparison"
  | .range _ _ _ => "range"
  | .assign _ _ _ => "assignment"
  | .cond _ _ _ _ => "if"
  | .forLoop _ _ _ _ => "for loop"
  | .whileLoop _ _ _ => "while loop"
  | .ret _ _ => "return"
  | .breakLoop _ _ => "break"
  | .continueLoop _ => "continue"
  | .letVar _ _ _ _ => "let"
  | .block _ _ => "scope"
  | .function _ _ _ _ _ _ => "function"
  | .record _ => "struct"

/-- A list display; one without items is a node of its own. -/
def listOf (span : Option Span) : List Node → Node
  | [] => .emptyList span
  | items => .list span items

/-- The statements of a body: those of a block, else the node alone. -/
def statements : Node → List Node
  | .block _ ss => ss
  | node => [node]

def decl? : Node → Option Decl
  | .function _ id ident params result body => some { id, ident, params, result, body }
  | _ => Option.none

/-- The functions that a statement list declares, in order. -/
def declared (statements : List Node) : List Decl := statements.filterMap decl?

/-- A left-nested comparison as its first operand and its links in order. -/
def chain : Node → Node × List (CompareOp × Node)
  | .compare _ op lhs rhs => let (first, links) := lhs.chain; (first, links ++ [(op, rhs)])
  | node => (node, [])

end Node
end Scripting
