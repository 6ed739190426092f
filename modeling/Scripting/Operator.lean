/-! Operator symbols. -/
namespace Scripting

inductive BinaryOp where
  | add | sub | mul | div | mod | shiftLeft | shiftRight | bitAnd | bitXor | bitOr | logAnd | logOr
  deriving DecidableEq, Repr, Inhabited

namespace BinaryOp

def symbol : BinaryOp → String
  | .add => "+"
  | .sub => "-"
  | .mul => "*"
  | .div => "/"
  | .mod => "%"
  | .shiftLeft => "<<"
  | .shiftRight => ">>"
  | .bitAnd => "&"
  | .bitXor => "^"
  | .bitOr => "|"
  | .logAnd => "&&"
  | .logOr => "||"

def all : List BinaryOp :=
  [.add, .sub, .mul, .div, .mod, .shiftLeft, .shiftRight, .bitAnd, .bitXor, .bitOr, .logAnd, .logOr]

def ofSymbol? (symbol : String) : Option BinaryOp := all.find? (·.symbol = symbol)

end BinaryOp

inductive CompareOp where
  | gt | ge | lt | le | eq | ne
  deriving DecidableEq, Repr, Inhabited

namespace CompareOp

def symbol : CompareOp → String
  | .gt => ">"
  | .ge => ">="
  | .lt => "<"
  | .le => "<="
  | .eq => "=="
  | .ne => "!="

def all : List CompareOp := [.gt, .ge, .lt, .le, .eq, .ne]

def ofSymbol? (symbol : String) : Option CompareOp := all.find? (·.symbol = symbol)

end CompareOp
end Scripting
