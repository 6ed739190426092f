import Std.Data.HashSet
import Scripting.Value

/-! Objects and what they hold. An object exists as long as something holds it: a table slot, the
host or a script, or an object that itself exists. -/
namespace Scripting

structure Object where
  value : Value
  /-- How many variables of open scopes are bound to the object. -/
  bindings : Nat := 0
  /-- The table slot under which the object is registered. -/
  slot : Option Nat := none
  deriving Inhabited

/-- All objects by number; the number of an object that is gone stays empty. -/
structure Store where
  objects : Array (Option Object) := #[]
  deriving Inhabited

namespace Store

def get? (s : Store) (o : ObjectId) : Option Object := s.objects[o]?.join

def value (s : Store) (o : ObjectId) : Value := ((s.get? o).map (·.value)).getD .none

def bindings (s : Store) (o : ObjectId) : Nat := ((s.get? o).map (·.bindings)).getD 0

def slot? (s : Store) (o : ObjectId) : Option Nat := (s.get? o).bind (·.slot)

def modify (s : Store) (o : ObjectId) (f : Object → Object) : Store :=
  { objects := s.objects.modify o (·.map f) }

/-- The number that the next object gets. -/
def next (s : Store) : ObjectId := s.objects.size

def push (s : Store) (x : Object) : Store := { objects := s.objects.push (some x) }

def setValue (s : Store) (o : ObjectId) (v : Value) : Store := s.modify o ({ · with value := v })

def setSlot (s : Store) (o : ObjectId) (slot : Option Nat) : Store := s.modify o ({ · with slot })

/-- One more variable is bound to the object. -/
def retain (s : Store) (o : ObjectId) : Store :=
  s.modify o fun x => { x with bindings := x.bindings + 1 }

def release (s : Store) (o : ObjectId) : Store :=
  s.modify o fun x => { x with bindings := x.bindings - 1 }

/-- The tree below an object, unless it is deeper than the given depth. -/
def unfold (s : Store) : Nat → ObjectId → Option Tree
  | 0, _ => none
  | depth + 1, o =>
    match s.value o with
    | .atom a => some (.atom a)
    | .tuple es => (es.toList.mapM (s.unfold depth)).map .tuple
    | .vector es => (es.toList.mapM (s.unfold depth)).map .vector

/-- What an object means. Only an object that contains itself has no tree, since a path through
different objects is no longer than their number. -/
def tree? (s : Store) (o : ObjectId) : Option Tree := s.unfold s.objects.size o

/-- Equality of values, given that of objects. -/
def valuesEqual (same : ObjectId → ObjectId → Bool) : Value → Value → Bool
  | .atom a, .atom b => a == b
  | .tuple es, .tuple fs | .vector es, .vector fs => es.isEqv fs same
  | _, _ => false

/-- An object equals itself, and any object with an equal value, down to a given depth. -/
def equalTo (s : Store) : Nat → ObjectId → ObjectId → Bool
  | 0, _, _ => false
  | depth + 1, a, b => a == b || valuesEqual (s.equalTo depth) (s.value a) (s.value b)

/-- Equality of objects. No two pairs of objects on a path that ends are the same, which bounds
the depth. -/
def objectsEqual (s : Store) (a b : ObjectId) : Bool :=
  s.equalTo (s.objects.size * s.objects.size + 1) a b

def equalValues (s : Store) (v w : Value) : Bool := valuesEqual s.objectsEqual v w

/-- Every object inside another one. -/
def contained (s : Store) : List ObjectId :=
  s.objects.toList.flatMap fun x => (x.map (·.value.elements.toList)).getD []

/-- The objects that a root or another object holds. -/
def held (s : Store) (roots : List ObjectId) : Std.HashSet ObjectId :=
  .ofList (roots ++ s.contained)

/-- How many handles of an object there are besides that of a table. -/
def handles (s : Store) (roots : List ObjectId) (o : ObjectId) : Nat :=
  s.objects.foldl (fun n x => n + x.elim 0 (·.value.elements.count o)) (roots.count o)

def count (s : Store) : Nat := s.objects.countP (·.isSome)

/-- Forgets the objects that neither a table nor a root nor another object holds. -/
def dropUnheld (s : Store) (roots : List ObjectId) : Store :=
  let held := s.held roots
  { objects := s.objects.mapIdx fun o x => x.filter fun x => x.slot.isSome || held.contains o }

def reapUpTo (roots : List ObjectId) : Nat → Store → Store
  | 0, s => s
  | n + 1, s =>
    let t := s.dropUnheld roots
    if t.count = s.count then s else reapUpTo roots n t

/-- Forgets all objects that are gone when the roots are the only holders besides tables. Objects
that hold each other in a ring stay. -/
def reap (s : Store) (roots : List ObjectId) : Store := reapUpTo roots s.count s

/-- What becomes of the objects when a handle of one of them is given up: if it was the last one,
the object is gone. -/
def letGo (s : Store) (roots : List ObjectId) (o : ObjectId) : Store :=
  if s.slot? o = none ∧ s.handles roots o = 0 then s.reap roots else s

end Store
end Scripting
