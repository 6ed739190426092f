import Scripting.Host.Basic

/-! Scripts at a host's command, and the host's own access to their scopes. -/
namespace Scripting.Host

def modifyEnv (f : Environment → Environment) : HostM Unit :=
  modify fun h => { h with state := { h.state with env := f h.state.env } }

/-- A change of the stacks that binds or unbinds objects. -/
def modifyBindings (f : Environment → Store → Environment × Store) : HostM Unit :=
  modify fun h =>
    let (env, store) := f h.state.env h.store
    { h with state := { h.state with env, heap := { h.state.heap with store } } }

def setCheckpoint (name : String) : HostM Unit :=
  modify fun h => { h with checkpoints := setNamed h.checkpoints name h.env.checkpoint }

/-- Takes the stacks down to a checkpoint, and tells whether they now have its heights. -/
def restore (c : Checkpoint) : HostM Bool := do
  modifyBindings fun e s => e.restore s c
  return (← get).env.checkpoint = c

/-- Lets the evaluator act on its state. -/
def act {α : Type} (x : Eval α) : HostM (Except Stop α) :=
  modifyGet fun h =>
    match x h.state with
    | .ok a state => (.ok a, { h with state })
    | .error stop state => (.error stop, { h with state })

def node (n : Node) : Eval ObjectId := Eval.node Eval.fuel n

def eval (n : Node) : HostM (Except Stop ObjectId) := do act (Eval.tree (← get).held n)

def report (e : Error) : HostM Unit := do
  match (← get).reporter with
  | .log => record (.reported e)
  | .collect => modify fun h => { h with reported := h.reported ++ [e] }

/-- Evaluates a tree, reports its error if it has one, and flushes the output. -/
def run (n : Node) : HostM (Except Stop ObjectId) := do
  let result ← eval n
  match result with
  | .error (.raised e) => report e
  | _ => pure ()
  let _ ← act Eval.flush
  pure result

/-- The errors reported so far; there are then none. -/
def takeReported : HostM (List Error) :=
  modifyGet fun h => (h.reported, { h with reported := [] })

/-- How often the sink was flushed since this was last asked. -/
def takeFlushes : HostM Nat :=
  modifyGet fun h =>
    (h.state.sink.flushes,
      { h with state := { h.state with sink := { h.state.sink with flushes := 0 } } })

def reference (n : Node) : HostM (Except Stop ObjectId) := act (Eval.reference node n)

def place (n : Node) : HostM (Except Stop Place) := act (Eval.place node n)

def callFunction (decl : Decl) (args : List Node) (span : Option Span) :
    HostM (Except Stop ObjectId) :=
  act (Eval.callFunction node decl args span)

def setInterrupt (isInterrupted : Bool) : HostM Unit :=
  modify fun h => { h with state := { h.state with isInterrupted } }

def register (b : Builtin) : HostM Unit :=
  modify fun h => { h with state := { h.state with builtins := h.state.builtins.register b } }

/-- Gives up the evaluator and its collector. Objects that the host holds stay as they are, with
the count of variables that were bound to them. -/
def dropEvaluator : HostM Unit := do
  modify fun h => { h with state := { h.state with env := {}, functions := [] } }
  stop .main

end Scripting.Host
