import Scripting.Heap

/-! Sweeping: which registered objects a pass frees, and the settings that govern it. -/
namespace Scripting

/-- Settings of a collector. -/
structure GcConfig where
  intervalMs : Nat := 1000
  /-- The most objects that one pass frees. -/
  sweepLimit : Option Nat := none
  /-- Whether sweeps may also be requested from a sweeper in the background. -/
  background : Bool := true
  deriving DecidableEq, Repr, Inhabited

/-- What one pass did: slots looked at, and objects freed. -/
structure SweepStats where
  scanned : Nat := 0
  freed : Nat := 0
  deriving DecidableEq, Repr, Inhabited

/-- A pass on its way. What it has taken out of the table it holds until it ends. -/
structure Sweep where
  heap : Heap
  taken : List ObjectId := []
  /-- How many occupied slots it has seen. -/
  scanned : Nat := 0
  deriving Inhabited

namespace Sweep

/-- Whether no variable is bound to the object, and nothing but the table has a handle of it. -/
def isFree (p : Sweep) (roots : List ObjectId) (o : ObjectId) : Bool :=
  p.heap.store.bindings o = 0 && p.heap.store.handles (p.taken ++ roots) o = 0

/-- Takes an object out of its slot. The handle that the table had is now one of the pass. -/
def take (p : Sweep) (roots : List ObjectId) (i : Nat) (o : ObjectId) : Sweep :=
  let taken := o :: p.taken
  let heap := p.heap.vacate i o
  { p with heap := { heap with store := heap.store.letGo (taken ++ roots) o }, taken }

/-- Looks at a slot, as things stand when its turn comes. -/
def visit (p : Sweep) (roots : List ObjectId) (i : Nat) : Sweep :=
  match p.heap.table.slots[i]? with
  | some (some o) =>
    let p := { p with scanned := p.scanned + 1 }
    if p.isFree roots o then p.take roots i o else p
  | _ => p

/-- Looks at so many slots from the `i`-th on, and stops once the limit is reached. -/
def run (roots : List ObjectId) (limit : Option Nat) : Nat → Nat → Sweep → Sweep
  | 0, _, p => p
  | n + 1, i, p =>
    if limit.any (· ≤ p.taken.length) then p else run roots limit n (i + 1) (p.visit roots i)

end Sweep

namespace Heap

/-- One pass: frees objects that no variable is bound to and that only the table holds. What a freed
object held can go in a later pass. -/
def sweep (h : Heap) (roots : List ObjectId) (limit : Option Nat) : SweepStats × Heap :=
  if h.table.isPaused then ({}, h)
  else
    let start : Sweep := { heap := { h with store := h.store.reap roots } }
    let p := Sweep.run roots limit h.table.slots.size 0 start
    ({ scanned := p.scanned, freed := p.taken.length },
      { p.heap with store := p.heap.store.reap roots })

end Heap
end Scripting
