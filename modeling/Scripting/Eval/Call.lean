import Scripting.Builtin.Call
import Scripting.Eval.Operator
import Scripting.Eval.Place

/-! Calls of functions. Builtins get the objects that are stored, functions of the script get
copies. -/
namespace Scripting.Eval

/-- What is called. A bare name that means nothing is taken for the name of a missing function. -/
def callee (ev : Node → Eval ObjectId) : Node → Eval ObjectId
  | .var span ident => do
    let isKnown ← read fun s =>
      s.builtins.contains ident.name || s.env.contains ident.name ||
        (s.env.findFunction ident.name).isSome
    if isKnown then ev (.var span ident)
    else
      raise { kind := .undefinedFunction, span := ident.span <|> span,
              hints := [⟨span, s!"no function named `{ident.name}`"⟩] }
  | node => ev node

def arityError (kind : ErrorKind) (decl : Decl) (given : Nat) (span : Option Span) : Error :=
  { kind, span,
    hints := [⟨decl.ident.span <|> span,
      s!"`{decl.name}` takes {decl.fixed.length} argument(s) but {given} were given"⟩] }

def checkArity (decl : Decl) (given : Nat) (span : Option Span) : Except Error Unit :=
  if given < decl.fixed.length then .error (arityError .tooFewArguments decl given span)
  else if decl.fixed.length < given ∧ decl.variadic?.isNone then
    .error (arityError .tooManyArguments decl given span)
  else .ok ()

/-- Opens the scope and the frame of a call; a call that is one too many leaves no trace. -/
def openCall (decl : Decl) (span : Option Span) : Eval Unit := do
  modifyEnv (·.enter .function [])
  match ← read (·.env.depthError? span) with
  | none => modifyEnv (·.pushFrame decl)
  | some e =>
    leaveScope
    raise e

/-- Binds each parameter to the argument at its position. -/
def bindFixed : List Param → List ObjectId → Eval Unit
  | p :: ps, o :: os => do
    define p.ident.name o
    bindFixed ps os
  | _, _ => pure ()

/-- Binds a final variadic parameter to a vector of the arguments left over. -/
def bindRest (decl : Decl) (rest : List ObjectId) : Eval Unit :=
  match decl.variadic? with
  | some p => do
    let o ← alloc (.vector rest.toArray)
    define p.ident.name o
  | none => pure ()

/-- Closes the running call. Its value is what it returned, else the value of its body. -/
def closeCall (value : ObjectId) : Eval ObjectId := do
  let frame ← read (·.env.frames.back?)
  modifyEnv fun e => e.popFrame.2
  leaveScope
  match frame with
  | some f =>
    if f.isReturned then
      match f.result with
      | some o => pure o
      | none => allocNone
    else pure value
  | none => pure value

/-- Calls a function of the script on arguments already evaluated. -/
def invoke (ev : Node → Eval ObjectId) (decl : Decl) (args : List ObjectId) (span : Option Span) :
    Eval ObjectId := do
  ofExcept (checkArity decl args.length span)
  openCall decl span
  bindFixed decl.fixed args
  bindRest decl (args.drop decl.fixed.length)
  let value ← ev decl.body
  closeCall value

def callFunction (ev : Node → Eval ObjectId) (decl : Decl) (args : List Node) (span : Option Span) :
    Eval ObjectId := do
  let os ← operands ev args
  invoke ev decl os span

def call (ev : Node → Eval ObjectId) (span : Option Span) (f : Node) (args : List Node) :
    Eval ObjectId := do
  let o ← callee ev f
  match ← valueOf o with
  | .atom (.builtin b) =>
    let os ← operands (reference ev) args
    callBuiltin b os span
  | .atom (.function decl) => callFunction ev decl args span
  | v => raise (.hinted .typeMismatch f.span s!"`{v.kind.name}` is not callable")

end Scripting.Eval
