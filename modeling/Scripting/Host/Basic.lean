import Scripting.Evaluator

/-! A host and what it keeps under names of its own: objects, places, pauses and checkpoints. -/
namespace Scripting

/-- A host has a heap with a collector, which its evaluator uses, and a second heap beside it. -/
inductive HeapName where
  | main | spare
  deriving DecidableEq, Repr, Inhabited

/-- Where errors of a run go. -/
inductive Reporter where
  | collect | log
  deriving DecidableEq, Repr, Inhabited

structure Host where
  state : State := {}
  gc : GcConfig := {}
  /-- Whether the sweeper in the background is at work. -/
  isSweeping : Bool := false
  spare : Table := {}
  handles : List (String × ObjectId) := []
  places : List (String × Place) := []
  guards : List (String × HeapName) := []
  checkpoints : List (String × Checkpoint) := []
  reporter : Reporter := .collect
  reported : List Error := []
  deriving Inhabited

abbrev HostM := StateM Host

/-- Puts an entry under a name in place of the one that is there. -/
def setNamed {α : Type} (entries : List (String × α)) (name : String) (a : α) : List (String × α) :=
  (name, a) :: entries.filter (·.1 != name)

def dropNamed {α : Type} (entries : List (String × α)) (name : String) : List (String × α) :=
  entries.filter (·.1 != name)

/-- The vector that a place keeps alive. -/
def Place.vector? : Place → Option ObjectId
  | .variable _ => none
  | .element vector _ => some vector

namespace Host

/-- A host that has just started its collector. -/
def start (state : State) (gc : GcConfig) : Host :=
  { state := { state with log := state.log.push (.collectorStarted gc) }
    gc
    isSweeping := gc.background }

def store (h : Host) : Store := h.state.heap.store

def env (h : Host) : Environment := h.state.env

def heap (h : Host) : HeapName → Heap
  | .main => h.state.heap
  | .spare => { store := h.store, table := h.spare }

def setHeap (h : Host) (heap : Heap) : HeapName → Host
  | .main => { h with state := { h.state with heap } }
  | .spare =>
    { h with
      state := { h.state with heap := { h.state.heap with store := heap.store } }
      spare := heap.table }

/-- The objects that the host holds. -/
def held (h : Host) : List ObjectId :=
  h.handles.map (·.2) ++ h.places.filterMap (·.2.vector?)

/-- Every object that something besides tables and objects holds. -/
def roots (h : Host) : List ObjectId := h.held ++ h.state.roots

def record (event : LogEvent) : HostM Unit :=
  modify fun h => { h with state := { h.state with log := h.state.log.push event } }

/-- The log so far, which is then empty. -/
def takeLog : HostM (Array LogEvent) :=
  modifyGet fun h => (h.state.log, { h with state := { h.state with log := #[] } })

/-- What was written so far; the sink is then empty. -/
def takeOutput : HostM String :=
  modifyGet fun h =>
    (h.state.sink.text, { h with
      state := { h.state with sink := { h.state.sink with text := "" } } })

def keep (name : Option String) (o : ObjectId) : HostM Unit :=
  match name with
  | none => pure ()
  | some name => modify fun h => { h with handles := setNamed h.handles name o }

def drop (name : String) : HostM Bool :=
  modifyGet fun h =>
    ((h.handles.lookup name).isSome, { h with handles := dropNamed h.handles name })

def keepPlace (name : Option String) (p : Place) : HostM Unit :=
  match name with
  | none => pure ()
  | some name => modify fun h => { h with places := setNamed h.places name p }

def dropPlace (name : String) : HostM Bool :=
  modifyGet fun h =>
    ((h.places.lookup name).isSome, { h with places := dropNamed h.places name })

def alloc (which : HeapName) (v : Value) : HostM ObjectId :=
  modifyGet fun h =>
    let (o, heap) := (h.heap which).alloc v
    (o, h.setHeap heap which)

def build (which : HeapName) (t : Tree) : HostM ObjectId :=
  modifyGet fun h =>
    let (o, heap) := (h.heap which).build t
    (o, h.setHeap heap which)

/-- A copy of an object, unless the object is inside itself. -/
def copy? (which : HeapName) (o : ObjectId) : HostM (Option ObjectId) := do
  match (← get).store.tree? o with
  | some t => return some (← build which t)
  | none => return none

def write (o : ObjectId) (v : Value) : HostM Unit :=
  modify fun h =>
    h.setHeap { h.state.heap with store := h.store.setValue o v } .main

def remove (which : HeapName) (o : ObjectId) : HostM Bool :=
  modifyGet fun h =>
    let (removed, heap) := (h.heap which).remove o
    (removed, h.setHeap heap which)

/-- Sweeping pauses until as many resumptions have followed. -/
def pause (which : HeapName) : HostM Unit :=
  modify fun h => let heap := h.heap which; h.setHeap { heap with table := heap.table.pause } which

def resume (which : HeapName) : HostM Unit :=
  modify fun h => let heap := h.heap which; h.setHeap { heap with table := heap.table.resume } which

def dropGuard (name : String) : HostM Unit := do
  match (← get).guards.lookup name with
  | none => pure ()
  | some which =>
    modify fun h => { h with guards := dropNamed h.guards name }
    resume which

/-- A pause that lasts until the guard is dropped or its name is used again. -/
def guard (which : HeapName) (name : String) : HostM Unit := do
  pause which
  dropGuard name
  modify fun h => { h with guards := setNamed h.guards name which }

def sweep (which : HeapName) : HostM SweepStats :=
  modifyGet fun h =>
    let limit := match which with
      | .main => h.gc.sweepLimit
      | .spare => none
    let (stats, heap) := (h.heap which).sweep h.roots limit
    (stats, h.setHeap heap which)

/-- A sweep at the host's command. -/
def collect (which : HeapName) : HostM SweepStats := do
  let stats ← sweep which
  record (.swept stats)
  pure stats

def collectUpTo (which : HeapName) : Nat → HostM (List Nat)
  | 0 => pure []
  | n + 1 => do
    let stats ← collect which
    if stats.freed = 0 then return [0] else return stats.freed :: (← collectUpTo which n)

/-- Sweeps until a pass frees nothing, and tells what each pass freed. Every other pass frees at
least one of the registered objects. -/
def collectAll (which : HeapName) : HostM (List Nat) := do
  collectUpTo which (((← get).heap which).table.live + 1)

def sweepUntil (which : HeapName) (live : Nat) : Nat → HostM Unit
  | 0 => pure ()
  | n + 1 => do
    let stats ← sweep which
    if ((← get).heap which).table.live = live ∨ stats.freed = 0 then pure ()
    else sweepUntil which live n

/-- Asks the sweeper in the background to bring the number of registered objects down, and tells
whether there are as many as expected. Without a sweeper nothing is swept. -/
def requestSweep (which : HeapName) (live : Nat) : HostM Bool := do
  if which = .main ∧ (← get).isSweeping then
    sweepUntil which live (((← get).heap which).table.live + 1)
  return ((← get).heap which).table.live = live

/-- Ends the collector: no object is registered any more. -/
def stop (which : HeapName) : HostM Unit := do
  let released ← modifyGet fun h =>
    let (released, heap) := (h.heap which).clear
    let h := h.setHeap heap which
    (released, if which = .main then { h with isSweeping := false } else h)
  if 0 < released then record (.collectorStopped released)

end Host
end Scripting
