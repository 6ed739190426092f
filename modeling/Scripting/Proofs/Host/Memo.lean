import Mathlib.Tactic.Common
import Scripting.Proofs.Eval.Memo
import Scripting.Proofs.Host.Invisibility

/-! The objects that declarations stand for, from one request to the next: an object that something
else holds whenever a request ends is the declaration's for good, and one that nothing else holds is
forgotten and can be freed. -/
namespace Scripting

/-- The state when a request is done, before anything is forgotten. -/
def Host.finished (h : Host) (r : Request) : State :=
  (Eval.unwinding (Eval.node Eval.fuel r.node)).after h.state

/-- Every node of a request that stands for the function of a declaration has one object as its
value: an inspector who raises an alarm where it is not so is not noticed. -/
def Host.Identifies (h : Host) (r : Request) (k : Nat) (object : Option ObjectId) : Prop :=
  ∀ alarm, Eval.inspected (Node.standsFor k object) alarm Eval.fuel r.node h.state =
    Eval.node Eval.fuel r.node h.state

namespace Moment

/-- A request of a host while no code is in progress. -/
def requested (h : Host) (r : Request) : Moment := Moment.giving ⟨h, []⟩ (Host.perform r)

/-- Something besides tables and what is remembered holds the object: a host, code in progress, the
stacks, or a container that is there. -/
def HeldApart (m : Moment) (o : ObjectId) : Prop :=
  ¬ m.host.store.Unheld (m.temps ++ m.host.held ++ m.host.env.roots) o

variable {h : Host} {r : Request} {m m' : Moment} {i k : Nat} {o : ObjectId}

/-! ### Requests -/

/-- How a request ends: what nothing holds any more is forgotten. -/
structure Finishes (h : Host) (r : Request) (m : Moment) : Prop where
  held : m.host.held = h.held
  spare : m.host.spare = h.spare
  env : m.host.env = (h.finished r).env
  heap : m.host.state.heap = (h.finished r).heap
  functions : m.host.state.functions = ((h.finished r).prune (m.temps ++ m.host.held)).functions

theorem finishes_prune {T : List ObjectId} :
    Finishes h r ⟨{ h with state := (h.finished r).prune (T ++ h.held) }, T⟩ :=
  ⟨rfl, rfl, State.env_prune, State.heap_prune, rfl⟩

theorem finishes_eval (n : Node) : Finishes h (.eval n) (requested h (.eval n)) := by
  have hrun : (Host.perform (.eval n)).run h = (Host.act (Eval.tree h.held n)).run h :=
    Host.run_eval
  rw [Host.run_act] at hrun
  simp only [Eval.tree] at hrun
  have hfinished : h.finished (.eval n) =
      (Eval.unwinding (Eval.node Eval.fuel n)).after h.state := rfl
  cases hend : Eval.unwinding (Eval.node Eval.fuel n) h.state with
  | ok o s =>
    rw [Eval.after_ok hend] at hfinished
    simp only [hend, ← hfinished] at hrun
    simp only [requested, giving, hrun]
    exact finishes_prune (T := [o])
  | error stop s =>
    rw [Eval.after_error hend] at hfinished
    simp only [hend, ← hfinished] at hrun
    simp only [requested, giving, hrun]
    exact finishes_prune (T := [])

theorem finishes_requested : Finishes h r (requested h r) := by
  cases r with
  | eval n => exact finishes_eval n
  | run n =>
    obtain ⟨k, hrun, sink, log, hstate, hheld, hspare⟩ := Host.run_run (h := h) (n := n)
    have hmoment : requested h (.run n) = ⟨k, (requested h (.eval n)).temps⟩ := by
      change Moment.mk ((Host.run n).run h).2 (((Host.run n).run h).1.toOption.toList ++ []) = _
      rw [hrun]
      rfl
    have heval : Finishes h (.eval n) (requested h (.eval n)) := finishes_eval n
    have hhost : (requested h (.eval n)).host = ((Host.eval n).run h).2 := rfl
    rw [← hhost] at hstate hheld hspare
    rw [hmoment]
    exact ⟨hheld.trans heval.held, hspare.trans heval.spare,
      by rw [Host.env, hstate]; exact heval.env,
      by rw [hstate]; exact heval.heap, by rw [hstate, hheld]; exact heval.functions⟩

theorem changes_finished : Changes h.state (h.finished r) :=
  (Eval.Makes.node Eval.fuel r.node).unwinding h.state

theorem turn_requested : Turn ⟨h, []⟩ (requested h r) := by
  cases r with
  | eval n => exact .eval
  | run n => exact .run

theorem Finishes.heldApart_iff (hm : Finishes h r m) :
    m.HeldApart o ↔
      ¬ (h.finished r).heap.store.Unheld
        (m.temps ++ m.host.held ++ (h.finished r).env.roots) o := by
  rw [HeldApart, hm.env, Host.store, hm.heap]

/-- What is remembered at the end of a request is what something else holds. -/
theorem Finishes.mem_functions (hm : Finishes h r m) (hmemo : (h.finished r).Memo)
    (hs : m.config.Sound) {x : Nat × ObjectId} :
    x ∈ m.host.state.functions ↔ x ∈ (h.finished r).functions ∧ m.HeldApart x.2 := by
  have hexact : (h.finished r).env.Exact (h.finished r).heap.store := by
    rw [← hm.env, ← hm.heap]
    exact hs.exact
  rw [hm.functions, hmemo.mem_prune hexact, hm.heldApart_iff]

theorem Finishes.memo (hm : Finishes h r m) (hmemo : (h.finished r).Memo) : m.host.state.Memo := by
  have hpruned : ((h.finished r).prune (m.temps ++ m.host.held)).Memo := hmemo.prune
  refine hpruned.mono (fun x hx => hm.functions ▸ hx) fun x _ d hvalue => ?_
  rwa [State.heap_prune, ← hm.heap] at hvalue

/-! ### Between requests -/

/-- What a host and its collectors do between requests: anything but to write functions over, or to
meddle with what is remembered. -/
structure Aside (m m' : Moment) : Prop where
  turn : Turn m m'
  memo : m'.host.state.functions = m.host.state.functions
  functions : ∀ o d, m.host.store.value o = .atom (.function d) → m'.host.store.Has o →
    m'.host.store.value o = .atom (.function d)

/-- Requests, with other things in between. The given property holds whenever a request ends. -/
inductive Session (P : Moment → Prop) (m : Moment) : Moment → Prop
  | refl : Session P m m
  | request {h : Host} {r : Request} (hm : Session P m ⟨h, []⟩) (hP : P (requested h r)) :
      Session P m (requested h r)
  | aside {m' m'' : Moment} (hm : Session P m m') (h : Aside m' m'') : Session P m m''

theorem Session.turns {P : Moment → Prop} (h : Session P m m') : Turns m m' := by
  induction h with
  | refl => exact .refl
  | request _ _ ih => exact ih.tail turn_requested
  | aside _ h ih => exact ih.tail h.turn

theorem Session.trans {P : Moment → Prop} {m'' : Moment} (h : Session (fun _ => True) m m')
    (h' : Session P m' m'') : Session (fun _ => True) m m'' := by
  induction h' with
  | refl => exact h
  | request _ _ ih => exact .request ih trivial
  | aside _ ha ih => exact .aside ih ha

/-- Nothing is put into a slot of a heap but what is registered there already. -/
theorem registered_of_setHeap {heap : Heap} {which w : HeapName} {U : List ObjectId}
    (h : ∀ i o, heap.table.Holds i o → m.Registered which i o)
    (hi : (Moment.mk (m.host.setHeap heap which) U).Registered w i o) : m.Registered w i o := by
  cases which <;> cases w
  · exact h i o hi
  · exact hi
  · exact hi
  · exact h i o hi

/-- The evaluator registers nothing in the spare heap, and others only what is new. -/
theorem registered_spare_of_turn (h : Turn m m') (hi : m'.Registered .spare i o) :
    m.Registered .spare i o ∨ o = m.host.store.next := by
  cases h with
  | step | copy | drop | dropPlace | register | write | assign | define | leave | restore =>
    exact .inl hi
  | eval => exact .inl (by rwa [Registered, Host.heap, giving, Host.spare_eval] at hi)
  | run => exact .inl (by rwa [Registered, Host.heap, giving, Host.spare_run] at hi)
  | @keep name | @keepPlace name => cases name <;> exact .inl hi
  | @alloc which v =>
    cases which with
    | main => exact .inl hi
    | spare => exact (Table.slots_insert hi).symm
  | remove => exact .inl (registered_of_setHeap (fun _ _ => Heap.slots_of_slots_remove) hi)
  | pause | resume =>
    refine .inl (registered_of_setHeap ?_ hi)
    exact fun _ _ => id
  | sweep => exact .inl (registered_of_setHeap (fun _ _ => Heap.slots_of_slots_sweep) hi)
  | @stop which =>
    have hquiet : (m.host.setHeap (m.host.heap which).clear.2 which).Quiet
        ((Host.stop which).run m.host).2 :=
      Host.quiet_stop
    obtain ⟨-, -, -, -, hspare⟩ := hquiet
    rw [Registered, Host.heap, after, hspare] at hi
    have hcleared : ∀ i o, (m.host.heap which).clear.2.table.Holds i o → m.Registered which i o :=
      fun i o ho => by simp [Heap.clear, Table.Holds] at ho
    exact .inl (registered_of_setHeap (U := []) (w := .spare) hcleared hi)

/-! ### What is remembered throughout -/

/-- What is remembered is for each declaration one object of its own, made by the evaluator. -/
structure Recalls (m : Moment) : Prop where
  memo : m.host.state.Memo
  made : ∀ x ∈ m.host.state.functions, ∀ i, ¬ m.Registered .spare i x.2

theorem Recalls.finished (hm : Recalls ⟨h, []⟩) (htidy : h.Tidy) {x : Nat × ObjectId}
    (hx : x ∈ (h.finished r).functions) : ¬ (requested h r).Registered .spare i x.2 := by
  intro hi
  rw [Registered, Host.heap, finishes_requested.spare] at hi
  rcases changes_finished.mem_functions hx with hx | hnext
  · exact hm.made x hx i hi
  · exact absurd (Store.has_of_slot? (htidy.slot .spare i x.2 hi)).lt_next (Nat.not_lt.mpr hnext)

theorem Recalls.requested (hm : Recalls ⟨h, []⟩) (htidy : h.Tidy) : (requested h r).Recalls where
  memo := finishes_requested.memo (changes_finished.memo hm.memo)
  made := by
    intro x hx i
    rw [finishes_requested.functions] at hx
    obtain ⟨fs, log, hprune, hfs⟩ := (h.finished r).prune_eq
      ((Moment.requested h r).temps ++ (Moment.requested h r).host.held)
    rw [hprune] at hx
    exact hm.finished htidy (hfs x hx)

theorem Recalls.aside (hm : m.Recalls) (hs : m.config.Sound) (h : Aside m m') : m'.Recalls where
  memo := by
    refine hm.memo.mono (fun x hx => h.memo ▸ hx) fun x hx d hvalue => ?_
    exact h.functions x.2 d hvalue ((h.turn.follows hs).sound.memo x hx)
  made := by
    intro x hx i hi
    rw [h.memo] at hx
    rcases registered_spare_of_turn h.turn hi with hi | hnew
    · exact hm.made x hx i hi
    · exact absurd (hs.memo x hx).lt_next (Nat.not_lt.mpr (Nat.le_of_eq hnew.symm))

variable {c : EvalContext} {b : Builtins}

theorem Session.recalls (h : Session (fun _ => True) (.start c b) m) : m.Recalls := by
  induction h with
  | refl =>
    exact ⟨⟨by simp [start, Host.start], by simp [start, Host.start]⟩, by simp [start, Host.start]⟩
  | request hm _ ih => exact ih.requested (Turns.tidy hm.turns)
  | aside hm ha ih => exact ih.aside (Turns.sound hm.turns) ha

/-- What is remembered for a declaration stays so while something else holds it whenever a request
ends. -/
theorem Session.lookup (hm : Session (fun _ => True) (.start c b) m)
    (h : Session (·.HeldApart o) m m') (hk : m.host.state.functions.lookup k = some o) :
    m'.host.state.functions.lookup k = some o := by
  induction h with
  | refl => exact hk
  | @request h r hs hheld ih =>
    have hsession := hm.trans hs
    have hmemo := changes_finished (r := r).memo hsession.recalls.memo
    have hin := hmemo.lookup_iff.mp (changes_finished.lookup ih)
    refine (finishes_requested.memo hmemo).lookup_iff.mpr ?_
    have hsound := Turns.sound (hsession.turns.tail (turn_requested (r := r)))
    exact (finishes_requested.mem_functions hmemo hsound).mpr ⟨hin, hheld⟩
  | aside _ ha ih => rwa [ha.memo]

/-- An object that nothing else holds any more is freed by a pass without a limit. -/
theorem Session.not_has_swept (hm : Session (fun _ => True) (.start c b) ⟨h, []⟩)
    {x : Nat × ObjectId} (hx : x ∈ (h.finished r).functions)
    (hout : ¬ (requested h r).HeldApart x.2)
    (hp : ((requested h r).host.heap .main).table.isPaused = false) :
    ¬ ((requested h r).swept .main none).host.store.Has x.2 := by
  have hturns : Turns (.start c b) (requested h r) := hm.turns.tail turn_requested
  have hmemo := changes_finished (r := r).memo hm.recalls.memo
  have hrecalls : (requested h r).Recalls := hm.recalls.requested hm.turns.tidy
  have hforgotten : x.2 ∉ (requested h r).host.state.functions.map (·.2) := by
    intro hin
    obtain ⟨y, hy, heq⟩ := List.mem_map.mp hin
    exact hout (heq ▸ ((finishes_requested.mem_functions hmemo hturns.sound).mp hy).2)
  have hunheld : (requested h r).host.store.Unheld (requested h r).roots x.2 := by
    have hroots : (requested h r).roots =
        ((requested h r).temps ++ (requested h r).host.held ++ (requested h r).host.env.roots) ++
          (requested h r).host.state.functions.map (·.2) := by
      simp [roots, Host.roots, State.roots, Host.env]
    rw [hroots]
    refine (Store.unheld_append (fun o => ?_) hforgotten).mpr (not_not.mp hout)
    exact hrecalls.memo.elements_of_mem
  refine Heap.not_has_sweep (hturns.tidy.slot .main) hp
    (fun o => mem_roots_of_bindings hturns.sound) hunheld ?_
  cases hslot : (requested h r).host.store.slot? x.2 with
  | none => exact .inl hslot
  | some i =>
    obtain ⟨w, hw⟩ := hturns.tidy.owner i x.2 hslot
    cases w with
    | main => exact .inr ⟨i, hw⟩
    | spare => exact absurd hw (hm.recalls.finished hm.turns.tidy hx)

theorem functions_finished :
    (h.finished r).functions = ((Eval.node Eval.fuel r.node).after h.state).functions := by
  cases hnode : Eval.node Eval.fuel r.node h.state with
  | ok o s => simp only [Host.finished, Eval.after, Eval.unwinding, hnode]
  | error stop s =>
    simp only [Host.finished, Eval.after, Eval.unwinding, hnode]
    rfl

theorem identifies_finished : h.Identifies r k ((h.finished r).functions.lookup k) := by
  intro alarm
  rw [functions_finished]
  exact Eval.inspected_eq_node Eval.fuel r.node h.state k

end Moment

open Moment in
/-- Declarations have objects of their own. At any moment, what is remembered for a declaration is
an object of its function, and objects of different declarations differ. In a request, all nodes
that stand for a declaration's function have one value, the object that is remembered when the
request is done. It stays remembered if something else holds it then. As long as that is so whenever
a request ends, it is also the value in all further requests. Otherwise it is forgotten, and a pass
that comes next and has no limit frees it. -/
theorem function_objects_identified {c : EvalContext} {b : Builtins} {m : Moment}
    (hm : Session (fun _ => True) (.start c b) m) :
    (∀ x ∈ m.host.state.functions,
      (∃ d : Decl, d.id = x.1 ∧ m.host.store.value x.2 = .atom (.function d)) ∧
      ∀ y ∈ m.host.state.functions, x.1 = y.1 ↔ x.2 = y.2) ∧
    ∀ h r, m = ⟨h, []⟩ →
      (∀ k, h.Identifies r k ((h.finished r).functions.lookup k)) ∧
      ∀ k o, (h.finished r).functions.lookup k = some o →
        (∃ d : Decl, d.id = k ∧ (requested h r).host.store.value o = .atom (.function d)) ∧
        ((requested h r).HeldApart o →
          (requested h r).host.state.functions.lookup k = some o ∧
          ∀ h' r', Session (·.HeldApart o) (requested h r) ⟨h', []⟩ → h'.Identifies r' k (some o)) ∧
        (¬ (requested h r).HeldApart o →
          (requested h r).host.state.functions.lookup k = none ∧
          (((requested h r).host.heap .main).table.isPaused = false →
            ¬ ((requested h r).swept .main none).host.store.Has o)) := by
  have hmemo := hm.recalls.memo
  refine ⟨fun x hx => ⟨hmemo.payload x hx, fun y hy => hmemo.eq_iff hx hy⟩, ?_⟩
  rintro h r rfl
  refine ⟨fun k => identifies_finished, fun k o hk => ?_⟩
  have hfinished := changes_finished (r := r).memo hmemo
  have hin := hfinished.lookup_iff.mp hk
  have hsession : Session (fun _ => True) (.start c b) (requested h r) := hm.request trivial
  have hkept := fun {x} =>
    finishes_requested.mem_functions (r := r) hfinished (x := x) (Turns.sound hsession.turns)
  have hafter := hsession.recalls.memo
  refine ⟨?_, fun hheld => ?_, fun hout => ⟨?_, hm.not_has_swept hin hout⟩⟩
  · obtain ⟨d, hd, hvalue⟩ := hfinished.payload _ hin
    exact ⟨d, hd, by rwa [Host.store, finishes_requested.heap]⟩
  · have hlookup := hafter.lookup_iff.mpr (hkept.mpr ⟨hin, hheld⟩)
    refine ⟨hlookup, fun h' r' hs => ?_⟩
    have hlater : (h'.finished r').functions.lookup k = some o :=
      changes_finished.lookup (hsession.lookup hs hlookup)
    exact hlater ▸ identifies_finished
  · cases hlookup : (requested h r).host.state.functions.lookup k with
    | none => rfl
    | some p =>
      obtain ⟨hp, hheld⟩ := hkept.mp (hafter.lookup_iff.mp hlookup)
      cases hfinished.single _ hp _ hin rfl
      exact absurd hheld hout

/-- A declaration of a function without parameters. -/
def declaration (id : Nat) : Node := .function none id { name := "f" } [] none (.none none)

/-- A host that keeps the function object of a first declaration. -/
def keeping : Host :=
  ((Host.keep (some "f") 0).run
    (Moment.requested (Moment.start {} .standard).host (.eval (declaration 0))).host).2

/-- A request that makes the function object of a second declaration, and does nothing with it. -/
def discarding : Request := .eval (.block none [declaration 1, .none none])

open Moment in
theorem function_objects_identified_keeping :
    Session (fun _ => True) (.start {} .standard) ⟨keeping, []⟩ ∧
      (requested keeping discarding).HeldApart 0 ∧ ¬ (requested keeping discarding).HeldApart 1 ∧
      (requested keeping discarding).host.state.functions.lookup 0 = some 0 ∧
      (requested keeping discarding).host.Identifies (.eval (declaration 0)) 0 (some 0) ∧
      (requested keeping discarding).host.state.functions.lookup 1 = none ∧
      ¬ ((requested keeping discarding).swept .main none).host.store.Has 1 := by
  have hmade : Session (fun _ => True) (.start {} .standard)
      (requested (Moment.start {} .standard).host (.eval (declaration 0))) := .request .refl trivial
  have hkept : Session (fun _ => True) (.start {} .standard) ⟨keeping, [0]⟩ :=
    hmade.aside ⟨.keep (.root (by decide +kernel)), rfl, fun _ _ h _ => h⟩
  have hsession : Session (fun _ => True) (.start {} .standard) ⟨keeping, []⟩ :=
    hkept.aside ⟨.step (m := ⟨keeping, [0]⟩) .drop, rfl, fun _ _ h _ => h⟩
  have hheld : (requested keeping discarding).HeldApart 0 :=
    fun hunheld => hunheld.1 (by decide +kernel)
  have hout : ¬ (requested keeping discarding).HeldApart 1 := by
    rw [finishes_requested.heldApart_iff, not_not, Store.unheld_iff]
    decide +kernel
  have hawake : ((requested keeping discarding).host.heap .main).table.isPaused = false := by
    rw [Host.heap, finishes_requested.heap]
    decide +kernel
  have htemps : (requested keeping discarding).temps = [2] := by decide +kernel
  have hdropped : Aside (requested keeping discarding)
      ⟨(requested keeping discarding).host, []⟩ := by
    refine ⟨.step (U := []) ?_, rfl, fun _ _ h _ => h⟩
    rw [htemps]
    exact .drop
  obtain ⟨-, hobjects⟩ := (function_objects_identified hsession).2 keeping discarding rfl
  obtain ⟨-, hstays, -⟩ := hobjects 0 0 (by decide +kernel)
  obtain ⟨-, -, hgoes⟩ := hobjects 1 1 (by decide +kernel)
  obtain ⟨hlookup, hlater⟩ := hstays hheld
  obtain ⟨hforgotten, hfreed⟩ := hgoes hout
  exact ⟨hsession, hheld, hout, hlookup, hlater _ _ (.aside .refl hdropped),
    hforgotten, hfreed hawake⟩

end Scripting
