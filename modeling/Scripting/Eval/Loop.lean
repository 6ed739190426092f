import Scripting.Eval.Control
import Scripting.Eval.Place

/-! Loops. A loop has one scope, which all its iterations share. -/
namespace Scripting.Eval

def openLoop (nodes : List Node) : Eval Unit :=
  modifyEnv fun e => (e.enter .loop (Node.declared nodes)).pushLoop e.scopes.size

/-- Whether the running loop was left; no loop at all counts as left. -/
def isBroken : Eval Bool := read fun s => (s.env.currentLoop?.map (·.isBroken)).getD true

/-- Closes the running loop, whose value is what it was left with. -/
def closeLoop : Eval ObjectId := do
  let l ← read (·.env.loops.back?)
  modifyEnv fun e => e.popLoop.2
  leaveScope
  match l.bind (·.result) with
  | some o => pure o
  | none => allocNone

/-- Runs the body with the iterator at one item, and tells whether there is to be another. -/
def iterate (ev : Node → Eval ObjectId) (iterator body : Node) (fresh : Option Place)
    (item : ObjectId) : Eval Bool := do
  if ← isBroken then pure false
  else
    checkInterrupt body.span
    let p ←
      match fresh with
      | some p => pure p
      | none => place ev iterator
    store p item iterator.span
    let _ ← statements ev body.statements
    return !(← isBroken)

/-- Goes through `n` integers from `i` on, each as a new object. -/
def forRange (step : ObjectId → Eval Bool) : Nat → Int → Eval Unit
  | 0, _ => pure ()
  | n + 1, i => do
    let item ← allocAtom (.int (.ofInt i))
    if ← step item then forRange step n (i + 1) else pure ()

/-- Goes through objects, each as a copy made when its turn comes. -/
def forElements (step : ObjectId → Eval Bool) : List ObjectId → Eval Unit
  | [] => pure ()
  | o :: os => do
    let item ← copy o
    if ← step item then forElements step os else pure ()

/-- What a loop goes through, fixed when the loop begins. -/
inductive Items where
  | range (r : IntRange)
  | elements (os : List ObjectId)

def itemsOf (o : ObjectId) (span : Option Span) : Eval Items := do
  match ← valueOf o with
  | .atom (.range r) => pure (.range r)
  | .vector es => pure (.elements es.toList)
  | v => raise (.hinted .typeMismatch span s!"`{v.kind.name}` is not iterable")

/-- A name as iterator is a new variable of the loop; any other iterator is a place, looked up
again for each item. -/
def freshIterator : Node → Eval (Option Place)
  | .var _ ident => do
    let slot ← declare ident.name
    return some (.variable slot)
  | _ => pure none

def forLoop (ev : Node → Eval ObjectId) (iterator iterable body : Node) : Eval ObjectId := do
  let o ← ev iterable
  let items ← itemsOf o iterable.span
  openLoop body.statements
  let fresh ← freshIterator iterator
  match items with
  | .range r => forRange (iterate ev iterator body fresh) r.length r.start.toInt
  | .elements os => forElements (iterate ev iterator body fresh) os
  closeLoop

/-- Runs the body as long as the test holds, but not more than a given number of times. -/
def whileHolds (ev : Node → Eval ObjectId) (test body : Node) : Nat → Eval Unit
  | 0 => throw .exhausted
  | n + 1 => do
    if ← isBroken then pure ()
    else
      checkInterrupt body.span
      if ← condition ev test then
        let _ ← statements ev body.statements
        whileHolds ev test body n
      else pure ()

def whileLoop (ev : Node → Eval ObjectId) (limit : Nat) (test body : Node) : Eval ObjectId := do
  openLoop body.statements
  whileHolds ev test body limit
  closeLoop

end Scripting.Eval
