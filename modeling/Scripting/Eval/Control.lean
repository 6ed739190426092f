import Scripting.Eval.Basic

/-! Statement lists, conditions and the ways out of loops and functions. Leaving a loop or function
marks every scope inside it as skipped; statement lists look at the mark after each statement. -/
namespace Scripting.Eval

/-- Runs the statements of the scope at `index` until one of them leaves it skipped. -/
def runStatements (ev : Node → Eval ObjectId) (index : Nat) : List Node → Eval Unit
  | [] => pure ()
  | node :: nodes => do
    let o ← ev node
    modifyEnv (·.modifyScope index ({ · with last := some o }))
    if ← read fun s => (s.env.scopes[index]?.map (·.isSkipped)).getD true then pure ()
    else runStatements ev index nodes

/-- Runs statements in the innermost scope; their value is that of the last one run. -/
def statements (ev : Node → Eval ObjectId) (nodes : List Node) : Eval ObjectId := do
  let index ← read (·.env.currentIndex)
  modifyEnv (·.modifyScope index ({ · with isSkipped := false, last := none }))
  runStatements ev index nodes
  let last ← read fun s => s.env.scopes[index]?.bind (·.last)
  modifyEnv (·.modifyScope index ({ · with last := none }))
  match last with
  | some o => pure o
  | none => allocNone

/-- A block runs in a scope of its own, which has the functions that it declares. -/
def block (ev : Node → Eval ObjectId) (nodes : List Node) : Eval ObjectId :=
  if nodes.isEmpty then allocNone
  else do
    modifyEnv (·.enter .block (Node.declared nodes))
    let o ← statements ev nodes
    leaveScope
    pure o

def condition (ev : Node → Eval ObjectId) (test : Node) : Eval Bool := do
  let o ← ev test
  match (← valueOf o).bool? with
  | some b => pure b
  | none => raise (.hinted .typeMismatch test.span "condition must be boolean")

def conditional (ev : Node → Eval ObjectId) (test yes : Node) (no : Option Node) :
    Eval ObjectId := do
  if ← condition ev test then ev yes
  else
    match no with
    | some node => ev node
    | none => allocNone

/-- The value of an optional operand. -/
def operand? (ev : Node → Eval ObjectId) : Option Node → Eval (Option ObjectId)
  | none => pure none
  | some node => do return some (← ev node)

def notInsideFunction {α : Type} (what : String) (span : Option Span) : Eval α :=
  raise (.hinted .notInsideFunction span s!"`{what}` outside of a function")

def notInsideLoop {α : Type} (what : String) (span : Option Span) : Eval α :=
  raise (.hinted .notInsideLoop span s!"`{what}` outside of a loop")

/-- Ends the running call: its scopes are skipped and its loops broken. -/
def leaveFunction (e : Environment) (result : ObjectId) : Environment :=
  match e.currentFrame? with
  | none => e
  | some frame =>
    ((e.modifyFrame ({ · with result := some result, isReturned := true })).skipFrom
      frame.scopeDepth).breakLoopsFrom frame.loopDepth

def returnFrom (ev : Node → Eval ObjectId) (span : Option Span) (value : Option Node) :
    Eval ObjectId := do
  if ← read (·.env.currentFrame?.isNone) then notInsideFunction "return" span
  else
    let result ←
      match value with
      | some node => ev node
      | none => allocNone
    if ← read (·.env.currentFrame?.isNone) then raise { kind := .notInsideFunction, span }
    else
      modifyEnv (leaveFunction · result)
      allocNone

/-- The function that is running. -/
def selfFunction (span : Option Span) : Eval ObjectId := do
  match ← read (·.env.currentFrame?) with
  | some frame => functionObject frame.decl
  | none => notInsideFunction "@" span

/-- Ends the running loop: the scopes from its own on are skipped. -/
def leaveLoop (e : Environment) (result : Option ObjectId) : Environment :=
  match e.currentLoop? with
  | none => e
  | some l => (e.modifyLoop ({ · with result, isBroken := true })).skipFrom l.scopeIndex

def breakFrom (ev : Node → Eval ObjectId) (span : Option Span) (value : Option Node) :
    Eval ObjectId := do
  if ← read (·.env.currentLoop?.isNone) then notInsideLoop "break" span
  else
    let result ← operand? ev value
    if ← read (·.env.currentLoop?.isNone) then notInsideLoop "break" span
    else
      modifyEnv (leaveLoop · result)
      allocNone

def continueFrom (span : Option Span) : Eval ObjectId := do
  match ← read (·.env.currentLoop?) with
  | some l =>
    modifyEnv (·.skipFrom l.scopeIndex)
    allocNone
  | none => notInsideLoop "continue" span

end Scripting.Eval
