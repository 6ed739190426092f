import Mathlib.Tactic.Common
import Scripting.Host.Run
import Scripting.Proofs.Eval.Decomposition
import Scripting.Proofs.Eval.Soundness

/-! A host, its evaluator and its collectors, taking turns. A collector may come in between any two
steps of an evaluation. -/
namespace Scripting

/-- A host, with the objects that code in progress holds. -/
structure Moment where
  host : Host
  temps : List ObjectId := []

namespace Moment

/-- A host that has just started its collector and an evaluator. -/
def start (c : EvalContext) (builtins : Builtins) : Moment :=
  { host := .start
      { env := { maxCallDepth := c.maxCallDepth }, isTraced := c.isTraced, builtins } c.gc }

/-- Every object that something besides tables and objects holds. -/
def roots (m : Moment) : List ObjectId := m.temps ++ m.host.roots

def Reach (m : Moment) (o : ObjectId) : Prop := m.host.store.Reach m.roots o

def config (m : Moment) : Config := ⟨m.host.state, m.temps ++ m.host.held⟩

/-- A command of the host that gives no object. -/
def after {α : Type} (m : Moment) (x : HostM α) : Moment := { m with host := (x.run m.host).2 }

/-- A command that gives an object, unless it fails. -/
def giving (m : Moment) (x : HostM (Except Stop ObjectId)) : Moment :=
  ⟨(x.run m.host).2, (x.run m.host).1.toOption.toList ++ m.temps⟩

/-- One pass over a heap, while code in progress holds its objects. -/
def swept (m : Moment) (which : HeapName) (limit : Option Nat) : Moment :=
  { m with host := m.host.setHeap ((m.host.heap which).sweep m.roots limit).2 which }

end Moment

open Moment in
/-- What can happen at once. Objects can only be named by those who can reach them. -/
inductive Turn : Moment → Moment → Prop
  /-- Anything that an evaluation does at once. -/
  | step {m : Moment} {s : State} {U : List ObjectId} (h : Step ⟨m.host.state, m.temps⟩ ⟨s, U⟩) :
      Turn m ⟨{ m.host with state := s }, U⟩
  | eval {m : Moment} {n : Node} : Turn m (m.giving (Host.eval n))
  | run {m : Moment} {n : Node} : Turn m (m.giving (Host.run n))
  | copy {m : Moment} {o : ObjectId} (ho : m.Reach o) : Turn m { m with temps := o :: m.temps }
  | keep {m : Moment} {name : Option String} {o : ObjectId} (ho : m.Reach o) :
      Turn m (m.after (Host.keep name o))
  | drop {m : Moment} {name : String} : Turn m (m.after (Host.drop name))
  | keepPlace {m : Moment} {name : Option String} {p : Place} (hp : ∀ o ∈ p.vector?, m.Reach o) :
      Turn m (m.after (Host.keepPlace name p))
  | dropPlace {m : Moment} {name : String} : Turn m (m.after (Host.dropPlace name))
  | alloc {m : Moment} {which : HeapName} {v : Value} (hv : ∀ o ∈ v.elements, m.Reach o) :
      Turn m { m.after (Host.alloc which v) with temps := m.host.store.next :: m.temps }
  | write {m : Moment} {o : ObjectId} {v : Value} (ho : m.Reach o)
      (hv : ∀ p ∈ v.elements, m.Reach p) :
      Turn m (m.after (Host.write o v))
  | assign {m : Moment} {p : Slot} {o : ObjectId} (ho : m.Reach o) :
      Turn m (m.after (Host.modifyBindings fun e s => e.assign s p o))
  | define {m : Moment} {name : String} {o : ObjectId} (ho : m.Reach o) :
      Turn m (m.after (Host.modifyBindings fun e s => e.define s name o))
  | leave {m : Moment} : Turn m (m.after (Host.modifyBindings fun e s => e.leave s))
  | restore {m : Moment} {c : Checkpoint} : Turn m (m.after (Host.restore c))
  | register {m : Moment} {b : Builtin} : Turn m (m.after (Host.register b))
  | remove {m : Moment} {which : HeapName} {o : ObjectId} : Turn m (m.after (Host.remove which o))
  | pause {m : Moment} {which : HeapName} : Turn m (m.after (Host.pause which))
  | resume {m : Moment} {which : HeapName} : Turn m (m.after (Host.resume which))
  | sweep {m : Moment} {which : HeapName} {limit : Option Nat} : Turn m (m.swept which limit)
  | stop {m : Moment} {which : HeapName} : Turn m (m.after (Host.stop which))

/-- Any number of turns. -/
abbrev Turns : Moment → Moment → Prop := Relation.ReflTransGen Turn

namespace Host

variable {h : Host} {heap : Heap} {which : HeapName}

theorem store_heap (h : Host) (which : HeapName) : (h.heap which).store = h.store := by
  cases which <;> rfl

theorem run_act {α : Type} {x : Eval α} :
    (Host.act x).run h =
      match x h.state with
      | .ok a state => (.ok a, { h with state })
      | .error stop state => (.error stop, { h with state }) := by
  cases hx : x h.state <;>
    simp [act, StateT.run, modifyGet, MonadStateOf.modifyGet, StateT.modifyGet, hx, Pure.pure, Id]

theorem run_eval {n : Node} : (Host.eval n).run h = (Host.act (Eval.tree h.held n)).run h := by
  unfold Host.eval
  rw [StateT.run_bind, StateT.run_get]
  rfl

/-- Nothing changed but output, the log and reports. -/
def Quiet (h k : Host) : Prop :=
  ∃ sink log, k.state = { h.state with sink, log } ∧ k.held = h.held ∧ k.spare = h.spare

theorem run_flush : ∃ log, ((Host.act Eval.flush).run h).2 =
    { h with
      state := { h.state with
        sink := { h.state.sink with flushes := h.state.sink.flushes + 1 }
        log } } := by
  have hflush : Eval.flush h.state =
      (if h.state.sink.isClosed then Eval.record (.flushFailed Sink.refusal) else pure ())
        { h.state with sink := { h.state.sink with flushes := h.state.sink.flushes + 1 } } := rfl
  rw [run_act, hflush]
  cases h.state.sink.isClosed <;> exact ⟨_, rfl⟩

theorem run_report {e : Error} : ∃ log reported, ((Host.report e).run h).2 =
    { h with state := { h.state with log }, reported } := by
  simp only [Host.report, StateT.run_bind, StateT.run_get, pure_bind]
  split <;> exact ⟨_, _, rfl⟩

/-- A run is an evaluation with reports and one more flush. -/
theorem run_run_eq {n : Node} : ∃ k log reported, ((Host.eval n).run h).2 = k ∧
    (Host.run n).run h = (((Host.eval n).run h).1,
      { k with
        state :=
          { k.state with sink := { k.state.sink with flushes := k.state.sink.flushes + 1 }, log }
        reported }) := by
  unfold Host.run
  simp only [StateT.run_bind]
  rcases (Host.eval n).run h with ⟨result, k⟩
  rcases result with (e | -) | o
  · obtain ⟨log, reported, hreport⟩ := run_report (h := k) (e := e)
    obtain ⟨log', hflush⟩ := run_flush (h := ((Host.report e).run k).2)
    refine ⟨k, log', reported, rfl, Prod.ext rfl (hflush.trans ?_)⟩
    rw [hreport]
  · obtain ⟨log, hflush⟩ := run_flush (h := k)
    exact ⟨k, log, k.reported, rfl, Prod.ext rfl hflush⟩
  · obtain ⟨log, hflush⟩ := run_flush (h := k)
    exact ⟨k, log, k.reported, rfl, Prod.ext rfl hflush⟩

theorem run_run {n : Node} :
    ∃ k, (Host.run n).run h = (((Host.eval n).run h).1, k) ∧ ((Host.eval n).run h).2.Quiet k := by
  obtain ⟨k, log, reported, hk, hrun⟩ := run_run_eq (h := h) (n := n)
  rw [hk, hrun]
  exact ⟨_, rfl, _, _, rfl, rfl, rfl⟩

theorem held_eval {n : Node} : ((Host.eval n).run h).2.held = h.held := by
  simp only [run_eval, run_act]
  split <;> rfl

theorem held_run {n : Node} : ((Host.run n).run h).2.held = h.held := by
  obtain ⟨k, hrun, -, -, -, hheld, -⟩ := run_run (h := h) (n := n)
  rw [hrun]
  exact hheld.trans held_eval

/-- An evaluation is a chain of steps, whatever else is held. -/
theorem steps_eval {n : Node} {T : List ObjectId} (hs : Config.Sound ⟨h.state, T⟩) :
    Steps ⟨h.state, T⟩
      ⟨((Host.eval n).run h).2.state, ((Host.eval n).run h).1.toOption.toList ++ T⟩ := by
  have htree := Steps.tree n h.held hs
  simp only [run_eval, run_act]
  cases hr : Eval.tree h.held n h.state with
  | ok o s =>
    rw [hr] at htree
    exact htree
  | error stop s =>
    rw [hr] at htree
    exact htree

theorem steps_run {n : Node} {T : List ObjectId} (hs : Config.Sound ⟨h.state, T⟩) :
    Steps ⟨h.state, T⟩
      ⟨((Host.run n).run h).2.state, ((Host.run n).run h).1.toOption.toList ++ T⟩ := by
  obtain ⟨k, hrun, sink, log, hstate, -, -⟩ := run_run (h := h) (n := n)
  rw [hrun, hstate]
  exact (steps_eval hs).tail .note

theorem quiet_stop :
    (h.setHeap (h.heap which).clear.2 which).Quiet ((Host.stop which).run h).2 := by
  have hstop : ∃ k : Host, k.state = (h.setHeap (h.heap which).clear.2 which).state ∧
      k.held = (h.setHeap (h.heap which).clear.2 which).held ∧
      k.spare = (h.setHeap (h.heap which).clear.2 which).spare ∧
      (Host.stop which).run h =
        (if 0 < (h.heap which).clear.1 then record (.collectorStopped (h.heap which).clear.1)
          else pure ()).run k := by
    cases which with
    | main =>
      exact ⟨{ h.setHeap (h.heap .main).clear.2 .main with isSweeping := false },
        rfl, rfl, rfl, rfl⟩
    | spare => exact ⟨h.setHeap (h.heap .spare).clear.2 .spare, rfl, rfl, rfl, rfl⟩
  obtain ⟨k, hstate, hheld, hspare, hrun⟩ := hstop
  rw [hrun, Quiet, ← hstate, ← hheld, ← hspare]
  split
  · exact ⟨k.state.sink, k.state.log.push _, rfl, rfl, rfl⟩
  · exact ⟨k.state.sink, k.state.log, rfl, rfl, rfl⟩

/-! What the host holds after it named something anew. -/

section Held

variable {name : String} {label : Option String} {o q : ObjectId} {p : Place}

theorem mem_held : q ∈ h.held ↔ q ∈ h.handles.map (·.2) ∨ q ∈ h.places.filterMap (·.2.vector?) := by
  simp [held]

theorem state_keep : ((Host.keep label o).run h).2.state = h.state := by cases label <;> rfl

theorem state_keepPlace : ((Host.keepPlace label p).run h).2.state = h.state := by
  cases label <;> rfl

theorem mem_held_keep (hq : q ∈ ((Host.keep label o).run h).2.held) : q = o ∨ q ∈ h.held := by
  cases label with
  | none => exact .inr hq
  | some name =>
    obtain hq | hq := mem_held.mp hq
    · obtain ⟨x, hx, rfl⟩ := List.mem_map.mp hq
      obtain rfl | hx := List.mem_cons.mp hx
      · exact .inl rfl
      · exact .inr (mem_held.mpr (.inl (List.mem_map.mpr ⟨x, List.mem_of_mem_filter hx, rfl⟩)))
    · exact .inr (mem_held.mpr (.inr hq))

theorem mem_held_drop (hq : q ∈ ((Host.drop name).run h).2.held) : q ∈ h.held := by
  obtain hq | hq := mem_held.mp hq
  · obtain ⟨x, hx, rfl⟩ := List.mem_map.mp hq
    exact mem_held.mpr (.inl (List.mem_map.mpr ⟨x, List.mem_of_mem_filter hx, rfl⟩))
  · exact mem_held.mpr (.inr hq)

theorem mem_held_keepPlace (hq : q ∈ ((Host.keepPlace label p).run h).2.held) :
    q ∈ p.vector? ∨ q ∈ h.held := by
  cases label with
  | none => exact .inr hq
  | some name =>
    obtain hq | hq := mem_held.mp hq
    · exact .inr (mem_held.mpr (.inl hq))
    · obtain ⟨x, hx, hv⟩ := List.mem_filterMap.mp hq
      obtain rfl | hx := List.mem_cons.mp hx
      · exact .inl hv
      · exact .inr (mem_held.mpr (.inr (List.mem_filterMap.mpr ⟨x, List.mem_of_mem_filter hx, hv⟩)))

theorem mem_held_dropPlace (hq : q ∈ ((Host.dropPlace name).run h).2.held) : q ∈ h.held := by
  obtain hq | hq := mem_held.mp hq
  · exact mem_held.mpr (.inl hq)
  · obtain ⟨x, hx, hv⟩ := List.mem_filterMap.mp hq
    exact mem_held.mpr (.inr (List.mem_filterMap.mpr ⟨x, List.mem_of_mem_filter hx, hv⟩))

end Held

end Host

namespace Moment

variable {m m' : Moment} {o : ObjectId}

theorem roots_eq : m.roots = m.config.temps ++ m.host.state.roots := by
  simp [roots, config, Host.roots]

theorem has_of_reach (h : m.config.Sound) (ho : m.Reach o) : m.host.store.Has o := by
  refine Config.Sound.has_of_reach h ?_
  have := ho
  rwa [Reach, roots_eq] at this

/-- Any objects in reach may be held besides those that are. -/
theorem sound_of_reach {U : List ObjectId} (hs : m.config.Sound)
    (hU : ∀ q ∈ U, m.Reach q ∨ q ∈ m.config.temps) : Config.Sound ⟨m.host.state, U⟩ := by
  refine hs.hold fun q hq => ?_
  obtain hreach | hheld := hU q hq
  · exact has_of_reach hs hreach
  · exact hs.held q (by simp [Config.holdings, hheld])

theorem sound_cons (hs : m.config.Sound) (ho : m.Reach o) :
    Config.Sound ⟨m.host.state, o :: m.config.temps⟩ := by
  refine sound_of_reach hs fun q hq => ?_
  obtain rfl | hq := List.mem_cons.mp hq
  · exact .inl ho
  · exact .inr hq

/-- A moment that may come after another one: it is sound, and new objects have new numbers. -/
structure Follows (m m' : Moment) : Prop where
  sound : m'.config.Sound
  later : m.host.store.Later m'.host.store

namespace Follows

variable {which : HeapName} {heap : Heap} {U : List ObjectId}

theorem steps (hU : Config.Sound ⟨m.host.state, U⟩) (h : Steps ⟨m.host.state, U⟩ m'.config) :
    m.Follows m' := ⟨h.sound hU, h.later⟩

/-- A change of a heap; the state has the table of only one. -/
theorem setHeap (which : HeapName)
    (hs : ∀ table, Config.Sound ⟨m.host.state.withHeap ⟨heap.store, table⟩, U ++ m.host.held⟩)
    (hlater : m.host.store.Later heap.store) : m.Follows ⟨m.host.setHeap heap which, U⟩ := by
  cases which with
  | main => exact ⟨hs heap.table, hlater⟩
  | spare => exact ⟨hs m.host.state.heap.table, hlater⟩

theorem relabel (hs : m.config.Sound) (hr : (m.host.heap which).store.Relabels heap.store) :
    m.Follows ⟨m.host.setHeap heap which, m.temps⟩ := by
  rw [Host.store_heap] at hr
  exact setHeap which (fun _ => hs.relabel hr) hr.later

theorem names {k : Host} (hs : m.config.Sound) (hstate : k.state = m.host.state)
    (hheld : ∀ q ∈ k.held, m.Reach q ∨ q ∈ m.host.held) : m.Follows ⟨k, m.temps⟩ := by
  have hlater : m.host.store.Later k.store := by
    rw [show k.store = m.host.store from congrArg (·.heap.store) hstate]
    exact .refl
  refine ⟨?_, hlater⟩
  rw [config, hstate]
  refine sound_of_reach hs fun q hq => ?_
  obtain hq | hq := List.mem_append.mp hq
  · exact .inr (List.mem_append_left _ hq)
  · exact (hheld q hq).imp_right (List.mem_append_right _)

theorem quiet {k l : Host} (h : m.Follows ⟨k, U⟩) (hq : k.Quiet l) : m.Follows ⟨l, U⟩ := by
  obtain ⟨sink, log, hstate, hheld, -⟩ := hq
  have hsteps : Steps (Moment.mk k U).config (Moment.mk l U).config := by
    simp only [config, hstate, hheld]
    exact .single .note
  exact ⟨hsteps.sound h.sound, h.later.trans hsteps.later⟩

theorem alloc {v : Value} (hs : m.config.Sound) (hv : ∀ o ∈ v.elements, m.Reach o) :
    m.Follows ⟨m.host.setHeap ((m.host.heap which).alloc v).2 which,
      m.host.store.next :: m.temps⟩ := by
  have hstore : ∃ slot, ((m.host.heap which).alloc v).2.store =
      m.host.store.push { value := v, slot } :=
    ⟨_, by rw [← Host.store_heap m.host which]; rfl⟩
  obtain ⟨slot, hstore⟩ := hstore
  refine setHeap which (fun table => ?_) (hstore ▸ .push)
  rw [hstore]
  exact hs.push (fun o ho => has_of_reach hs (hv o ho)) rfl

theorem sweep {limit : Option Nat} (hs : m.config.Sound) : m.Follows (m.swept which limit) := by
  refine setHeap which (fun table => ?_) ?_
  · exact hs.sweep (Host.store_heap m.host which) fun o ho => roots_eq ▸ ho
  · rw [← Host.store_heap m.host which]
    exact Heap.later_sweep

end Follows

/-- An evaluation as one turn is a chain of steps. -/
theorem steps_eval {n : Node} (hs : m.config.Sound) :
    Steps m.config (m.giving (Host.eval n)).config := by
  have hconfig : (m.giving (Host.eval n)).config = ⟨((Host.eval n).run m.host).2.state,
      ((Host.eval n).run m.host).1.toOption.toList ++ m.config.temps⟩ := by
    simp [config, giving, Host.held_eval]
  exact hconfig ▸ Host.steps_eval hs

theorem steps_run {n : Node} (hs : m.config.Sound) :
    Steps m.config (m.giving (Host.run n)).config := by
  have hconfig : (m.giving (Host.run n)).config = ⟨((Host.run n).run m.host).2.state,
      ((Host.run n).run m.host).1.toOption.toList ++ m.config.temps⟩ := by
    simp [config, giving, Host.held_run]
  exact hconfig ▸ Host.steps_run hs

end Moment

namespace Turn

variable {m m' : Moment}

open Moment in
/-- Each turn leaves a sound configuration sound. -/
theorem follows (h : Turn m m') (hs : m.config.Sound) : m.Follows m' := by
  cases h with
  | step h => exact .steps hs (.single h.frame)
  | eval => exact .steps hs (steps_eval hs)
  | run => exact .steps hs (steps_run hs)
  | copy ho => exact ⟨sound_cons hs ho, .refl⟩
  | keep ho =>
    refine .names hs Host.state_keep fun q hq => (Host.mem_held_keep hq).imp_left fun h => ?_
    exact h.symm ▸ ho
  | drop => exact .names hs rfl fun q hq => .inr (Host.mem_held_drop hq)
  | keepPlace hp =>
    exact .names hs Host.state_keepPlace fun q hq => (Host.mem_held_keepPlace hq).imp_left (hp q)
  | dropPlace => exact .names hs rfl fun q hq => .inr (Host.mem_held_dropPlace hq)
  | alloc hv => exact .alloc hs hv
  | write ho hv =>
    refine .setHeap .main (fun _ => hs.setValue fun p hp => has_of_reach hs (hv p hp)) ?_
    exact .of_has Store.next_setValue fun _ => Store.has_setValue.mp
  | assign ho => exact .steps (sound_cons hs ho) (.single (.assign (sound_cons hs ho)))
  | define ho => exact .steps (sound_cons hs ho) (Steps.define (sound_cons hs ho))
  | leave => exact .steps hs (.single (.leave hs.exact.leave.1))
  | restore => exact .steps hs (Steps.restore _ hs)
  | register => exact ⟨⟨hs.held, hs.memo, hs.exact⟩, .refl⟩
  | remove => exact .relabel hs Heap.relabels_remove
  | pause | resume => exact .relabel hs .refl
  | sweep => exact .sweep hs
  | stop => exact .quiet (.relabel hs Heap.relabels_clear) Host.quiet_stop

end Turn

/-- What holds along any number of turns. -/
theorem Turns.follows {m m' : Moment} (h : Turns m m') (hs : m.config.Sound) : m.Follows m' := by
  induction h with
  | refl => exact ⟨hs, .refl⟩
  | tail _ ht ih =>
    have hlast := ht.follows ih.sound
    exact ⟨hlast.sound, ih.later.trans hlast.later⟩

theorem Moment.sound_start {c : EvalContext} {b : Builtins} : (Moment.start c b).config.Sound := by
  refine Config.sound_iff.mpr ⟨fun o ho => ?_, fun p o ho => ?_, fun o => ?_⟩
  · simp [start, Host.start, Host.held, State.roots, Environment.roots] at ho
  · have := Store.has_of_mem_elements ho
    simp [start, Host.start, Store.Has, Store.get?] at this
  · simp [start, Host.start, Store.bindings, Store.get?, Environment.slots, Scope.objects]

theorem Turns.sound {c : EvalContext} {b : Builtins} {m : Moment} (h : Turns (.start c b) m) :
    m.config.Sound := (h.follows Moment.sound_start).sound

end Scripting
