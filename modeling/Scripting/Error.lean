import Scripting.Span

/-! What can go wrong while a script runs. No script can catch an error. -/
namespace Scripting

inductive ErrorKind where
  | typeMismatch
  | undefinedVariable
  | undefinedFunction
  | uninitializedVariable
  | notInsideFunction
  | notInsideLoop
  | invalidOperator
  | negativeRepeat
  | illegalCall
  | tooFewArguments
  | tooManyArguments
  | subscriptOutOfRange
  | valueOutOfRange
  | divisionByZero
  | stackOverflow
  | interrupted
  deriving DecidableEq, Repr, Inhabited

def ErrorKind.message : ErrorKind → String
  | .typeMismatch => "type mismatch"
  | .undefinedVariable => "undefined variable name"
  | .undefinedFunction => "undefined function name"
  | .uninitializedVariable => "use of uninitialized variable"
  | .notInsideFunction => "here is not inside of function"
  | .notInsideLoop => "here is not inside of loop"
  | .invalidOperator => "invalid operator"
  | .negativeRepeat => "multiply string by negative value"
  | .illegalCall => "illegal function call"
  | .tooFewArguments => "too few arguments"
  | .tooManyArguments => "too many arguments"
  | .subscriptOutOfRange => "subscript out of range"
  | .valueOutOfRange => "value out of range"
  | .divisionByZero => "division by zero"
  | .stackOverflow => "stack overflow"
  | .interrupted => "evaluation interrupted"

/-- The word for an error kind in answers and log entries. -/
def ErrorKind.label : ErrorKind → String
  | .typeMismatch => "TypeMismatch"
  | .undefinedVariable => "UndefinedVariable"
  | .undefinedFunction => "UndefinedFunction"
  | .uninitializedVariable => "UninitializedVariable"
  | .notInsideFunction => "HereIsNotInsideOfFunc"
  | .notInsideLoop => "HereIsNotInsideOfLoop"
  | .invalidOperator => "InvalidOperator"
  | .negativeRepeat => "MultiplyStringByNegative"
  | .illegalCall => "IllegalFunctionCall"
  | .tooFewArguments => "TooFewArguments"
  | .tooManyArguments => "TooManyArguments"
  | .subscriptOutOfRange => "SubscriptOutOfRange"
  | .valueOutOfRange => "ValueOutOfRange"
  | .divisionByZero => "DivisionByZero"
  | .stackOverflow => "StackOverflow"
  | .interrupted => "Interrupted"

def ErrorKind.all : List ErrorKind :=
  [.typeMismatch, .undefinedVariable, .undefinedFunction, .uninitializedVariable,
    .notInsideFunction, .notInsideLoop, .invalidOperator, .negativeRepeat, .illegalCall,
    .tooFewArguments, .tooManyArguments, .subscriptOutOfRange, .valueOutOfRange, .divisionByZero,
    .stackOverflow, .interrupted]

def ErrorKind.ofLabel? (label : String) : Option ErrorKind := ErrorKind.all.find? (·.label = label)

/-- A remark on an error, at a place of its own. -/
structure Hint where
  span : Option Span
  text : String
  deriving DecidableEq, Repr, Inhabited

structure Error where
  kind : ErrorKind
  span : Option Span := none
  hints : List Hint := []
  isWarning : Bool := false
  deriving DecidableEq, Repr, Inhabited

namespace Error

def message (e : Error) : String := e.kind.message

def suggest (e : Error) (span : Option Span) (text : String) : Error :=
  { e with hints := e.hints ++ [⟨span, text⟩] }

/-- An error with one hint at its own location. -/
def hinted (kind : ErrorKind) (span : Option Span) (text : String) : Error :=
  { kind, span, hints := [⟨span, text⟩] }

def toWarning (e : Error) : Error := { e with isWarning := true }

end Error
end Scripting
