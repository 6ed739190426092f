import Scripting.Store

/-! Tables of registered objects: registration, deep copies and removal. -/
namespace Scripting

/-- The registered objects of one heap. Slots that became vacant are used again, the latest first,
before the table grows. -/
structure Table where
  slots : Array (Option ObjectId) := #[]
  vacant : List Nat := []
  /-- How many pauses of sweeping are in force. -/
  pauses : Nat := 0
  deriving Inhabited

namespace Table

def insert (t : Table) (o : ObjectId) : Nat × Table :=
  match t.vacant with
  | i :: rest => (i, { t with slots := t.slots.setIfInBounds i (some o), vacant := rest })
  | [] => (t.slots.size, { t with slots := t.slots.push (some o) })

def vacate (t : Table) (i : Nat) : Table :=
  { t with slots := t.slots.setIfInBounds i none, vacant := i :: t.vacant }

/-- How many objects are registered. -/
def live (t : Table) : Nat := t.slots.size - t.vacant.length

def isPaused (t : Table) : Bool := t.pauses > 0

def pause (t : Table) : Table := { t with pauses := t.pauses + 1 }

def resume (t : Table) : Table := { t with pauses := t.pauses - 1 }

end Table

/-- Objects, and the table in which new ones are registered. -/
structure Heap where
  store : Store := {}
  table : Table := {}
  deriving Inhabited

namespace Heap

/-- Creates an object and registers it. -/
def alloc (h : Heap) (v : Value) : ObjectId × Heap :=
  let o := h.store.next
  let (i, table) := h.table.insert o
  (o, { store := h.store.push { value := v, slot := some i }, table })

/-- Whether the object is registered in this heap's table. -/
def contains (h : Heap) (o : ObjectId) : Bool :=
  match h.store.slot? o with
  | none => false
  | some i => h.table.slots[i]? = some (some o)

/-- Takes an object out of the table slot in which it is registered. -/
def vacate (h : Heap) (i : Nat) (o : ObjectId) : Heap :=
  { store := h.store.setSlot o none, table := h.table.vacate i }

/-- Takes an object out of the table, and tells whether it was there. -/
def remove (h : Heap) (o : ObjectId) : Bool × Heap :=
  match h.store.slot? o with
  | none => (false, h)
  | some i => if h.contains o then (true, h.vacate i o) else (false, h)

/-- Empties the table, and tells how many objects it held. -/
def clear (h : Heap) : Nat × Heap :=
  let registered := h.table.slots.toList.filterMap id
  (registered.length,
    { store := registered.foldl (fun s o => s.setSlot o none) h.store
      table := { h.table with slots := #[], vacant := [] } })

mutual

/-- Creates the objects of a tree, elements before the sequence that holds them. -/
def build (h : Heap) : Tree → ObjectId × Heap
  | .atom a => h.alloc (.atom a)
  | .tuple ts => let (es, h) := h.buildAll #[] ts; h.alloc (.tuple es)
  | .vector ts => let (es, h) := h.buildAll #[] ts; h.alloc (.vector es)

def buildAll (h : Heap) (done : Array ObjectId) : List Tree → Array ObjectId × Heap
  | [] => (done, h)
  | t :: ts => let (o, h) := h.build t; h.buildAll (done.push o) ts

end

end Heap
end Scripting
