import Scripting.Atom

/-! The builtins that a script can name, in the order in which they were registered. -/
namespace Scripting

structure Builtins where
  entries : List Builtin := []
  deriving Repr, Inhabited

namespace Builtins

def find? (t : Builtins) (name : String) : Option Builtin := t.entries.find? (·.name == name)

def contains (t : Builtins) (name : String) : Bool := (t.find? name).isSome

/-- Adds a builtin, or puts it where one of the same name stands. -/
def register (t : Builtins) (b : Builtin) : Builtins :=
  if t.contains b.name then
    { entries := t.entries.map fun c => if c.name == b.name then b else c }
  else { entries := t.entries ++ [b] }

def names (t : Builtins) : List String := t.entries.map (·.name)

def size (t : Builtins) : Nat := t.entries.length

/-- The builtins that every script has unless the host takes them away. -/
def prelude : List Builtin :=
  [⟨"print", [.args], .print⟩, ⟨"println", [.args], .println⟩,
    ⟨"printf", [.string, .args], .printf⟩, ⟨"format", [.string, .args], .format⟩,
    ⟨"abs", [.int], .abs⟩, ⟨"append", [.vector, .args], .append⟩, ⟨"vector", [.range], .vector⟩]

def addPrelude (t : Builtins) : Builtins := prelude.foldl register t

def standard : Builtins := addPrelude {}

end Builtins

/-- The kinds that each take one argument: all but a final `args`. -/
def fixedKinds (signature : List Kind) : List Kind :=
  if signature.getLast? = some .args then signature.dropLast else signature

def isVariadic (signature : List Kind) : Bool := signature.getLast? = some .args

/-- The first argument whose kind is not the expected one, as the pair of kinds. -/
def firstMismatch? (expected found : List Kind) : Option (Kind × Kind) :=
  (expected.zip found).find? fun (e, f) => e ≠ f

/-- Whether arguments of the given kinds suit a signature. -/
def checkSignature (signature found : List Kind) (span : Option Span) : Except Error Unit :=
  let fixed := fixedKinds signature
  if found.length < fixed.length then .error { kind := .tooFewArguments, span }
  else if fixed.length < found.length ∧ ¬ isVariadic signature then
    .error { kind := .tooManyArguments, span }
  else
    match firstMismatch? fixed found with
    | some (e, f) => .error (.hinted .illegalCall span s!"expected `{e.name}`, found `{f.name}`")
    | none => .ok ()

end Scripting
