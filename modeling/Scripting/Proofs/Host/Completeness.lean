import Mathlib.Algebra.GroupWithZero.Nat
import Mathlib.Tactic.Common
import Scripting.Proofs.Host.Bindings
import Scripting.Proofs.Host.Tables
import Scripting.Proofs.Host.Twins
import Scripting.Proofs.Store.Completeness

/-! Passes over a heap until nothing is freed: what is then registered is what was registered and is
in reach from outside of the table. -/
namespace Scripting

def HeapName.other : HeapName → HeapName
  | .main => .spare
  | .spare => .main

theorem HeapName.ne_iff {v w : HeapName} : v ≠ w ↔ v = w.other := by
  cases v <;> cases w <;> simp [other]

namespace Host

variable {h k l : Host} {which : HeapName} {o : ObjectId} {m n : Nat}

/-- The objects in a table. -/
def registered (h : Host) (which : HeapName) : List ObjectId :=
  (h.heap which).table.slots.toList.filterMap id

/-- All holders of objects but the objects themselves and one table. -/
def outside (h : Host) (which : HeapName) : List ObjectId := h.roots ++ h.registered which.other

def limit (h : Host) : HeapName → Option Nat
  | .main => h.gc.sweepLimit
  | .spare => none

theorem limit_congr (hgc : k.gc = h.gc) : k.limit which = h.limit which := by
  cases which
  · exact congrArg GcConfig.sweepLimit hgc
  · rfl

theorem mem_registered : o ∈ h.registered which ↔ ∃ i, (h.tables which).Holds i o := by
  rw [registered, heap_eq]
  simp [List.mem_filterMap, Table.Holds, Array.mem_iff_getElem?]

/-- Passes can free what is free: the counts are right, the tables agree with the objects, no object
is inside itself, and nothing holds the collector back. -/
structure Ready (h : Host) (which : HeapName) : Prop where
  counted : ∀ o, 0 < h.store.bindings o → o ∈ h.roots
  tidy : h.Tidy
  acyclic : h.store.Acyclic
  awake : (h.tables which).isPaused = false
  limited : h.limit which ≠ some 0

theorem Tidy.shares (hh : h.Tidy) (which : HeapName) :
    (Heap.mk h.store (h.tables which)).Shares (h.registered which.other) := by
  apply Scripting.Tidy.shares hh
  intro o
  rw [mem_registered]
  constructor
  · rintro ⟨i, hi⟩
    exact ⟨which.other, HeapName.ne_iff.mpr rfl, i, hi⟩
  · rintro ⟨w, hw, i, hi⟩
    exact ⟨i, HeapName.ne_iff.mp hw ▸ hi⟩

/-! ### One pass -/

/-- What the heap is after one pass. -/
def pass (h : Host) (which : HeapName) : SweepStats × Heap :=
  (Heap.mk h.store (h.tables which)).sweep h.roots (h.limit which)

theorem run_collect (h : Host) (which : HeapName) :
    ((Host.collect which).run h).1 = (h.pass which).1 ∧
      (h.setHeap (h.pass which).2 which).Quiet ((Host.collect which).run h).2 ∧
      ((Host.collect which).run h).2.gc = h.gc := by
  rw [pass, ← heap_eq]
  cases which
  · exact ⟨rfl, ⟨h.state.sink, _, rfl, rfl, rfl⟩, rfl⟩
  · exact ⟨rfl, ⟨h.state.sink, _, rfl, rfl, rfl⟩, rfl⟩

theorem Quiet.roots_eq (hq : h.Quiet k) : k.roots = h.roots := by
  obtain ⟨sink, log, hstate, hheld, -⟩ := hq
  simp only [roots, hheld, hstate]
  rfl

theorem roots_setHeap {heap : Heap} : (h.setHeap heap which).roots = h.roots := by
  cases which <;> rfl

/-- Passes lead from one host to the other, and freed so many objects on the way. -/
structure Cleaned (which : HeapName) (freed : Nat) (h k : Host) : Prop where
  ready : k.Ready which
  live : freed + (k.tables which).live = (h.tables which).live
  only : ∀ o ∈ k.registered which, o ∈ h.registered which
  kept : ∀ o ∈ h.registered which, h.store.Reach (h.outside which) o → o ∈ k.registered which
  reach : ∀ o, k.store.Reach (k.outside which) o ↔ h.store.Reach (h.outside which) o

theorem Cleaned.trans (hk : Cleaned which m h k) (hl : Cleaned which n k l) :
    Cleaned which (m + n) h l where
  ready := hl.ready
  live := by
    have := hk.live
    have := hl.live
    omega
  only := fun o ho => hk.only o (hl.only o ho)
  kept := fun o ho hreach => hl.kept o (hk.kept o ho hreach) ((hk.reach o).mpr hreach)
  reach := fun o => (hl.reach o).trans (hk.reach o)

/-- The heap that a pass leaves. -/
theorem collected (hq : (h.setHeap (h.pass which).2 which).Quiet k) :
    k.store = (h.pass which).2.store ∧ k.tables which = (h.pass which).2.table ∧
      k.roots = h.roots ∧ k.registered which.other = h.registered which.other := by
  obtain ⟨hstore, htables⟩ := hq.tables_eq
  refine ⟨hstore.trans (store_setHeap which), ?_, hq.roots_eq.trans roots_setHeap, ?_⟩
  · rw [htables, tables_setHeap, Function.update_self]
  · have hother : k.tables which.other = h.tables which.other := by
      rw [htables, tables_setHeap, Function.update_of_ne (HeapName.ne_iff.mpr rfl)]
    rw [registered, registered, heap_eq, heap_eq, hother]

theorem Ready.cleaned (hr : h.Ready which) (hq : (h.setHeap (h.pass which).2 which).Quiet k)
    (hgc : k.gc = h.gc) : Cleaned which (h.pass which).1.freed h k := by
  obtain ⟨hstore, htable, hroots, hother⟩ := collected hq
  have hshares := hr.tidy.shares which
  have htidy : k.Tidy := .quiet (.setHeap hr.tidy.sweep) hq
  have hneat : (h.pass which).2.table.Neat := htable ▸ htidy.neat which
  obtain ⟨hlive, hpaused⟩ := Heap.live_sweep hneat
  have houtside : k.outside which = h.outside which := by rw [outside, outside, hroots, hother]
  refine ⟨⟨?_, htidy, ?_, ?_, ?_⟩, ?_, ?_, ?_, ?_⟩
  · intro o ho
    rw [hroots]
    apply hr.counted
    rw [hstore] at ho
    rcases Heap.get?_sweep ⟨h.store, h.tables which⟩ h.roots
      (h.limit which) o with hsame | ⟨hnone, -⟩
    · simpa only [Store.bindings, pass, hsame] using ho
    · simp [Store.bindings, pass, hnone] at ho
  · rw [hstore]
    exact hr.acyclic.mono fun c o => Heap.contains_of_sweep
  · rw [htable]
    exact hpaused.trans hr.awake
  · rw [limit_congr hgc]
    exact hr.limited
  · rw [htable]
    exact hlive
  · intro o ho
    obtain ⟨i, hi⟩ := mem_registered.mp ho
    rw [htable] at hi
    exact mem_registered.mpr ⟨i, Heap.slots_of_slots_sweep hi⟩
  · intro o ho hreach
    obtain ⟨i, hi⟩ := mem_registered.mp ho
    refine mem_registered.mpr ⟨i, ?_⟩
    rw [htable]
    exact hshares.holds_sweep hi hreach
  · intro o
    rw [houtside, hstore]
    exact hshares.reach_sweep

/-- After a pass that frees nothing, the holders outside reach all that is registered. -/
theorem Ready.reach (hr : h.Ready which) (hnone : (h.pass which).1.freed = 0)
    (ho : o ∈ h.registered which) : h.store.Reach (h.outside which) o := by
  obtain ⟨i, hi⟩ := mem_registered.mp ho
  exact (hr.tidy.shares which).reach_of_freed (hr.tidy.slot which) hr.acyclic hr.awake hr.limited
    hr.counted hnone hi

/-! ### Passes until nothing is freed -/

theorem run_collectUpTo :
    (Host.collectUpTo which (n + 1)).run h =
      if (h.pass which).1.freed = 0 then ([0], ((Host.collect which).run h).2)
      else
        ((h.pass which).1.freed ::
          ((Host.collectUpTo which n).run ((Host.collect which).run h).2).1,
          ((Host.collectUpTo which n).run ((Host.collect which).run h).2).2) := by
  rw [← (run_collect h which).1, collectUpTo, StateT.run_bind]
  rcases (Host.collect which).run h with ⟨stats, k⟩
  change StateT.run (if stats.freed = 0 then _ else _) k = _
  by_cases hfreed : stats.freed = 0
  · rw [if_pos hfreed, if_pos hfreed]
    rfl
  · rw [if_neg hfreed, if_neg hfreed]
    rfl

/-- As many passes as there are registered objects, and one more, are enough. -/
theorem Ready.collectUpTo (hr : h.Ready which) (hn : (h.tables which).live < n) :
    ∃ freed, (∀ x ∈ freed, 0 < x) ∧ ((Host.collectUpTo which n).run h).1 = freed ++ [0] ∧
      Cleaned which freed.sum h ((Host.collectUpTo which n).run h).2 ∧
      ∀ o ∈ ((Host.collectUpTo which n).run h).2.registered which,
        h.store.Reach (h.outside which) o := by
  induction n generalizing h with
  | zero => omega
  | succ n ih =>
    obtain ⟨-, hquiet, hgc⟩ := run_collect h which
    have hpass := hr.cleaned hquiet hgc
    rw [run_collectUpTo]
    by_cases hfreed : (h.pass which).1.freed = 0
    · rw [if_pos hfreed]
      rw [hfreed] at hpass
      refine ⟨[], by simp, rfl, hpass, fun o ho => ?_⟩
      exact hr.reach hfreed (hpass.only o ho)
    · rw [if_neg hfreed]
      have hlive := hpass.live
      obtain ⟨freed, hpos, hlist, hcleaned, hreach⟩ := ih hpass.ready (by omega)
      refine ⟨(h.pass which).1.freed :: freed, ?_, ?_, ?_, fun o ho => ?_⟩
      · exact List.forall_mem_cons.mpr ⟨Nat.pos_of_ne_zero hfreed, hpos⟩
      · simp [hlist]
      · exact hpass.trans hcleaned
      · exact (hpass.reach o).mp (hreach o ho)

/-- Further passes are never made. -/
theorem Ready.collectUpTo_eq (hr : h.Ready which) (hm : (h.tables which).live < m)
    (hn : (h.tables which).live < n) :
    (Host.collectUpTo which m).run h = (Host.collectUpTo which n).run h := by
  induction m generalizing h n with
  | zero => omega
  | succ m ih =>
    cases n with
    | zero => omega
    | succ n =>
      obtain ⟨-, hquiet, hgc⟩ := run_collect h which
      have hpass := hr.cleaned hquiet hgc
      have hlive := hpass.live
      rw [run_collectUpTo, run_collectUpTo]
      by_cases hfreed : (h.pass which).1.freed = 0
      · rw [if_pos hfreed, if_pos hfreed]
      · rw [if_neg hfreed, if_neg hfreed, ih (n := n) hpass.ready (by omega) (by omega)]

theorem run_collectAll :
    (Host.collectAll which).run h = (Host.collectUpTo which ((h.tables which).live + 1)).run h := by
  unfold Host.collectAll
  rw [StateT.run_bind, StateT.run_get, pure_bind, heap_eq]

theorem Ready.mem_registered_collectAll (hr : h.Ready which) :
    o ∈ ((Host.collectAll which).run h).2.registered which ↔
      o ∈ h.registered which ∧ h.store.Reach (h.outside which) o := by
  obtain ⟨freed, -, -, hcleaned, hreach⟩ := hr.collectUpTo (Nat.lt_succ_self _)
  rw [run_collectAll]
  exact ⟨fun ho => ⟨hcleaned.only o ho, hreach o ho⟩, fun ho => hcleaned.kept o ho.1 ho.2⟩

end Host

theorem Turns.ready {c : EvalContext} {b : Builtins} {h : Host} {which : HeapName}
    (hturns : Turns (.start c b) ⟨h, []⟩)
    (hacyclic : h.store.Acyclic) (hawake : (h.heap which).table.isPaused = false)
    (hlimit : h.limit which ≠ some 0) : h.Ready which where
  counted := fun o ho => by simpa [Moment.roots] using Moment.mem_roots_of_bindings hturns.sound ho
  tidy := hturns.tidy
  acyclic := hacyclic
  awake := by rwa [Host.heap_eq] at hawake
  limited := hlimit

/-- The host after passes until nothing is freed. -/
def Host.drained (h : Host) (which : HeapName) : Host := ((Host.collectAll which).run h).2

/-- Collectors are complete. Nothing that scripts make is inside itself. Wherever that is so,
sweeping is not paused and passes may free something, passes free something each until one frees
nothing, and it makes no difference how many more would have been allowed. What was freed adds up to
the objects that are no longer registered. Those that are still registered are those of before which
can be reached from outside of the table, so they do not depend on how much a pass may free. -/
theorem collector_complete :
    (∀ c h, Host.Evaluates c h → h.store.Acyclic) ∧
    ∀ (c : EvalContext) (b : Builtins) (h : Host) (which : HeapName), Turns (.start c b) ⟨h, []⟩ →
      h.store.Acyclic → (h.heap which).table.isPaused = false → h.limit which ≠ some 0 →
      (∃ freed, (∀ x ∈ freed, 0 < x) ∧ ((Host.collectAll which).run h).1 = freed ++ [0] ∧
        freed.sum + ((h.drained which).heap which).table.live = (h.heap which).table.live) ∧
      (∀ n, (h.heap which).table.live < n →
        (Host.collectUpTo which n).run h = (Host.collectAll which).run h) ∧
      (∀ o, o ∈ (h.drained which).registered which ↔
        o ∈ h.registered which ∧ h.store.Reach (h.outside which) o) ∧
      ∀ gc, ({ h with gc } : Host).limit which ≠ some 0 →
        ∀ o, o ∈ (({ h with gc } : Host).drained which).registered which ↔
          o ∈ (h.drained which).registered which := by
  refine ⟨fun c h hh => hh.acyclic, fun c b h which hturns hacyclic hawake hlimit => ?_⟩
  have hready := hturns.ready hacyclic hawake hlimit
  have hfinal := fun o => hready.mem_registered_collectAll (o := o)
  refine ⟨?_, fun n hn => ?_, hfinal, fun gc hgc o => ?_⟩
  · obtain ⟨freed, hpos, hlist, hcleaned, -⟩ := hready.collectUpTo (Nat.lt_succ_self _)
    rw [Host.drained, Host.heap_eq, Host.heap_eq, Host.run_collectAll]
    exact ⟨freed, hpos, hlist, hcleaned.live⟩
  · rw [Host.run_collectAll]
    rw [Host.heap_eq] at hn
    exact hready.collectUpTo_eq hn (Nat.lt_succ_self _)
  · have hother : ({ h with gc } : Host).Ready which :=
      ⟨hready.counted, hready.tidy, hready.acyclic, hready.awake, hgc⟩
    exact hother.mem_registered_collectAll.trans (hfinal o).symm

/-- A host whose script made a list of a list, which nobody kept. Passes free one object each. -/
def leftover : Host :=
  ((Host.eval (.list none [.list none [.none none]])).run
    (Moment.start { gc := { sweepLimit := some 1 } } .standard).host).2

theorem collector_complete_leftover :
    leftover.registered .main = [0, 1, 2] ∧ (∀ o, o ∉ (leftover.drained .main).registered .main) ∧
      ∃ freed, (∀ x ∈ freed, 0 < x) ∧ ((Host.collectAll .main).run leftover).1 = freed ++ [0] ∧
        freed.sum + ((leftover.drained .main).heap .main).table.live = 3 := by
  obtain ⟨hscripts, hcomplete⟩ := collector_complete
  have hturns : Turns (.start { gc := { sweepLimit := some 1 } } .standard) ⟨leftover, []⟩ :=
    .head .eval (Turns.letGo _)
  have hacyclic := hscripts { gc := { sweepLimit := some 1 } } leftover (.eval .start _)
  obtain ⟨⟨freed, hpos, hlist, hsum⟩, -, hfinal, -⟩ :=
    hcomplete _ _ leftover .main hturns hacyclic (by decide +kernel) (by decide +kernel)
  have hlive : (leftover.heap .main).table.live = 3 := by decide +kernel
  refine ⟨by decide +kernel, fun o ho => ?_, freed, hpos, hlist, hlive ▸ hsum⟩
  -- nothing is held from outside, so nothing is in reach
  have houtside : leftover.outside .main = [] := by decide +kernel
  have hreach := ((hfinal o).mp ho).2
  rw [houtside] at hreach
  clear hfinal ho
  induction hreach with
  | root hin => cases hin
  | inside _ _ ih => exact ih

end Scripting
