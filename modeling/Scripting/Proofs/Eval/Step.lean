import Mathlib.Logic.Relation
import Mathlib.Tactic.Common
import Scripting.Proofs.Environment.Slots
import Scripting.Proofs.Store.Trees

/-! Evaluation as a machine that moves objects about. Between two steps the evaluator holds some
objects that nothing else need hold; a step says what it takes of them and what it adds. -/
namespace Scripting

/-- A state, and the objects that an evaluation in progress holds. -/
structure Config where
  state : State
  temps : List ObjectId

namespace Config

def store (c : Config) : Store := c.state.heap.store

def env (c : Config) : Environment := c.state.env

/-- All that is held by something that is not a table, once for each time. -/
def holdings (c : Config) : List ObjectId :=
  c.temps ++ c.env.slots ++ c.env.parked ++ c.store.contained

theorem count_holdings (s : State) (T : List ObjectId) (q : ObjectId) :
    (Config.mk s T).holdings.count q =
      T.count q + s.env.slots.count q + s.env.parked.count q + s.heap.store.contained.count q := by
  simp only [holdings, env, store, List.count_append]

end Config

namespace State

/-- Atoms that an object can be made of: data, a builtin in the table, or the atom of an object. -/
def Offers (s : State) (a : Atom) : Prop :=
  a.IsData ∨ (∃ b ∈ s.builtins.entries, a = .builtin b) ∨ ∃ o, s.heap.store.value o = .atom a

/-- Some builtin at hand answers with its own argument. -/
def HandsBack (s : State) : Prop :=
  ∃ b : Builtin, b.primitive = .identity ∧ ∃ o, s.heap.store.value o = .atom (.builtin b)

def withEnv (s : State) (env : Environment) : State := { s with env }

def withStore (s : State) (store : Store) : State := { s with heap := { s.heap with store } }

def withBindings (s : State) (x : Environment × Store) : State := (s.withStore x.2).withEnv x.1

def withHeap (s : State) (heap : Heap) : State := { s with heap }

end State

/-- What an evaluation does at once. All releases are checked. -/
inductive Step : Config → Config → Prop
  | perm {s : State} {T U : List ObjectId} (h : T.Perm U) : Step ⟨s, T⟩ ⟨s, U⟩
  | drop {s : State} {o : ObjectId} {T : List ObjectId} : Step ⟨s, o :: T⟩ ⟨s, T⟩
  | alloc {s : State} {v : Value} {T : List ObjectId} (hv : ∀ a, v = .atom a → s.Offers a) :
      Step ⟨s, v.elements.toList ++ T⟩ ⟨s.withHeap (s.heap.alloc v).2, (s.heap.alloc v).1 :: T⟩
  /-- The first use of a declaration makes its object. -/
  | memoize {s : State} {d : Decl} {T : List ObjectId} (h : s.functions.lookup d.id = none) :
      Step ⟨s, T⟩
        ⟨{ s.withHeap (s.heap.alloc (.atom (.function d))).2 with
            functions := (d.id, (s.heap.alloc (.atom (.function d))).1) :: s.functions }, T⟩
  | share {s : State} {k : Nat} {o : ObjectId} {T : List ObjectId}
      (h : s.functions.lookup k = some o) : Step ⟨s, T⟩ ⟨s, o :: T⟩
  | handBack {s : State} {o : ObjectId} {T : List ObjectId} (hb : s.HandsBack)
      (ho : s.heap.store.Has o) : Step ⟨s, T⟩ ⟨s, o :: T⟩
  | replace {s : State} {vector o : ObjectId} {es : Array ObjectId} {i : Nat} {T : List ObjectId}
      (h : s.heap.store.value vector = .vector es) (hi : i < es.size) :
      Step ⟨s, o :: T⟩
        ⟨s.withStore (s.heap.store.setValue vector (.vector (es.setIfInBounds i o))), T⟩
  | extend {s : State} {vector : ObjectId} {es fs : Array ObjectId} {T : List ObjectId}
      (h : s.heap.store.value vector = .vector es) :
      Step ⟨s, fs.toList ++ T⟩ ⟨s.withStore (s.heap.store.setValue vector (.vector (es ++ fs))), T⟩
  | declare {s : State} {name : String} {T : List ObjectId} :
      Step ⟨s, T⟩ ⟨s.withEnv (s.env.declare name).2, T⟩
  | bind {s : State} {p : Slot} {o : ObjectId} {T : List ObjectId}
      (h : s.env.assign? s.heap.store p o = some (s.env.assign s.heap.store p o)) :
      Step ⟨s, o :: T⟩ ⟨s.withBindings (s.env.assign s.heap.store p o), T⟩
  | enter {s : State} {kind : ScopeKind} {functions : List Decl} {T : List ObjectId} :
      Step ⟨s, T⟩ ⟨s.withEnv (s.env.enter kind functions), T⟩
  | leave {s : State} {T : List ObjectId}
      (h : s.env.leave? s.heap.store = some (s.env.leave s.heap.store)) :
      Step ⟨s, T⟩ ⟨s.withBindings (s.env.leave s.heap.store), T⟩
  | pushFrame {s : State} {d : Decl} {T : List ObjectId} :
      Step ⟨s, T⟩ ⟨s.withEnv (s.env.pushFrame d), T⟩
  /-- The result of a call is held by the evaluation once the call is closed. -/
  | popFrame {s : State} {T : List ObjectId} :
      Step ⟨s, T⟩
        ⟨s.withEnv s.env.popFrame.2, (s.env.frames.back?.bind (·.result)).toList ++ T⟩
  | pushLoop {s : State} {i : Nat} {T : List ObjectId} :
      Step ⟨s, T⟩ ⟨s.withEnv (s.env.pushLoop i), T⟩
  | popLoop {s : State} {T : List ObjectId} :
      Step ⟨s, T⟩ ⟨s.withEnv s.env.popLoop.2, (s.env.loops.back?.bind (·.result)).toList ++ T⟩
  | setLast {s : State} {i : Nat} {o : ObjectId} {T : List ObjectId} :
      Step ⟨s, o :: T⟩ ⟨s.withEnv (s.env.modifyScope i ({ · with last := some o })), T⟩
  | takeLast {s : State} {i : Nat} {T : List ObjectId} :
      Step ⟨s, T⟩
        ⟨s.withEnv (s.env.modifyScope i ({ · with last := none })),
          (s.env.scopes[i]?.bind (·.last)).toList ++ T⟩
  | rest {s : State} {i : Nat} {T : List ObjectId} :
      Step ⟨s, T⟩ ⟨s.withEnv (s.env.modifyScope i ({ · with isSkipped := false, last := none })), T⟩
  | unskip {s : State} {i : Nat} {T : List ObjectId} :
      Step ⟨s, T⟩ ⟨s.withEnv (s.env.modifyScope i ({ · with isSkipped := false })), T⟩
  | skipFrom {s : State} {i : Nat} {T : List ObjectId} :
      Step ⟨s, T⟩ ⟨s.withEnv (s.env.skipFrom i), T⟩
  | leaveFunction {s : State} {o : ObjectId} {T : List ObjectId} :
      Step ⟨s, o :: T⟩ ⟨s.withEnv (Eval.leaveFunction s.env o), T⟩
  | leaveLoop {s : State} {r : Option ObjectId} {T : List ObjectId} :
      Step ⟨s, r.toList ++ T⟩ ⟨s.withEnv (Eval.leaveLoop s.env r), T⟩
  /-- Function objects that nothing needs are forgotten. -/
  | forget {s : State} {fs : List (Nat × ObjectId)} {T : List ObjectId}
      (h : ∀ x ∈ fs, x ∈ s.functions) :
      Step ⟨s, T⟩ ⟨{ s with functions := fs }, T⟩
  /-- Output, the log and the interrupt are outside of all this. -/
  | note {s : State} {sink : Sink} {log : Array LogEvent} {isInterrupted : Bool}
      {T : List ObjectId} :
      Step ⟨s, T⟩ ⟨{ s with sink, log, isInterrupted }, T⟩

/-- Any number of steps. -/
abbrev Steps : Config → Config → Prop := Relation.ReflTransGen Step

namespace Step

variable {c c' : Config} {o q : ObjectId}

theorem has_alloc {h : Heap} {v : Value} :
    (h.alloc v).2.store.Has q ↔ q = h.store.next ∨ h.store.Has q :=
  Store.has_push

/-- Steps never take an object away. -/
theorem has (h : Step c c') (ho : c.store.Has o) : c'.store.Has o := by
  cases h with
  | alloc | memoize => exact has_alloc.mpr (.inr ho)
  | replace | extend => exact Store.has_setValue.mpr ho
  | bind => exact (Environment.store_assign.1 o).mpr ho
  | leave => exact (Environment.store_leave.1 o).mpr ho
  | _ => exact ho

/-- Steps change only vectors, and leave them vectors. -/
theorem value (h : Step c c') (ho : c.store.Has o) :
    c'.store.value o = c.store.value o ∨
      ∃ es fs, c.store.value o = .vector es ∧ c'.store.value o = .vector fs := by
  have hnext : o ≠ c.store.next := (Nat.ne_of_lt ho.lt_next)
  cases h with
  | alloc | memoize =>
    refine .inl ?_
    simpa [Config.store, State.withHeap, Heap.alloc, Store.value_push] using fun h => absurd h hnext
  | replace h _ =>
    simp only [Config.store, State.withStore, Store.value_setValue]
    split
    · next heq => exact .inr ⟨_, _, heq.1 ▸ h, rfl⟩
    · exact .inl rfl
  | extend h =>
    simp only [Config.store, State.withStore, Store.value_setValue]
    split
    · next heq => exact .inr ⟨_, _, heq.1 ▸ h, rfl⟩
    · exact .inl rfl
  | bind => exact .inl (Environment.store_assign.2.1 o)
  | leave => exact .inl (Environment.store_leave.2.1 o)
  | _ => exact .inl rfl

theorem builtins (h : Step c c') : c'.state.builtins = c.state.builtins := by
  cases h <;> rfl

/-- What was on offer stays on offer. -/
theorem offers {a : Atom} (h : Step c c') (ha : c.state.Offers a) : c'.state.Offers a := by
  obtain hdata | hbuiltin | ⟨p, hp⟩ := ha
  · exact .inl hdata
  · exact .inr (.inl (h.builtins ▸ hbuiltin))
  · by_cases hhas : c.store.Has p
    · obtain hsame | ⟨es, fs, hes, -⟩ := h.value hhas
      · exact .inr (.inr ⟨p, hsame.trans hp⟩)
      · rw [show c.store.value p = _ from hp] at hes
        cases hes
    · rw [show c.state.heap.store.value p = _ from Store.value_of_not_has hhas] at hp
      cases hp
      exact .inl trivial

/-- Where the objects come from that a step adds to what is held. -/
inductive Source (c c' : Config) : List ObjectId → Prop
  | none : Source c c' []
  | fresh (h : c'.store.Has c.store.next) : Source c c' [c.store.next]
  | memo {k : Nat} {o : ObjectId} (h : c.state.functions.lookup k = some o) : Source c c' [o]
  | back {o : ObjectId} (hb : c.state.HandsBack) (ho : c.store.Has o) : Source c c' [o]

/-- A step on the stacks that only moves objects, or drops them. -/
theorem moved {s : State} {T U : List ObjectId} {e : Environment} (hslots : e.slots = s.env.slots)
    (hparked : ∀ q, e.parked.count q + U.count q ≤ s.env.parked.count q + T.count q) :
    ∃ extra, Source ⟨s, T⟩ ⟨s.withEnv e, U⟩ extra ∧
      ∀ q, (Config.mk (s.withEnv e) U).holdings.count q ≤
        (Config.mk s T).holdings.count q + extra.count q := by
  refine ⟨[], .none, fun q => ?_⟩
  have := hparked q
  simp only [Config.count_holdings, State.withEnv, hslots, List.count_nil]
  omega

theorem kept {s : State} {T : List ObjectId} {e : Environment} (hslots : e.slots = s.env.slots)
    (hparked : e.parked = s.env.parked) :
    ∃ extra, Source ⟨s, T⟩ ⟨s.withEnv e, T⟩ extra ∧
      ∀ q, (Config.mk (s.withEnv e) T).holdings.count q ≤
        (Config.mk s T).holdings.count q + extra.count q :=
  moved hslots fun _ => Nat.le_of_eq (by rw [hparked])

/-- A vector that takes new elements, and may lose old ones. -/
theorem count_setVector {s : Store} {vector : ObjectId} {es w : Array ObjectId}
    (h : s.value vector = .vector es) :
    (s.setValue vector (.vector w)).contained.count q + es.toList.count q =
      s.contained.count q + w.toList.count q := by
  have := Store.count_contained_setValue (v := .vector w) (q := q) (Store.has_of_value_vector h)
  rwa [h] at this

open Environment in
/-- A step holds what was held before, and little besides. -/
theorem holdings (h : Step c c') :
    ∃ extra, Source c c' extra ∧ ∀ q, c'.holdings.count q ≤ c.holdings.count q + extra.count q := by
  cases h with
  | perm h =>
    refine ⟨[], .none, fun q => ?_⟩
    simp only [Config.count_holdings, h.count_eq, List.count_nil]
    omega
  | drop =>
    refine ⟨[], .none, fun q => ?_⟩
    simp only [Config.count_holdings, List.count_cons, List.count_nil]
    omega
  | alloc hv =>
    refine ⟨_, .fresh (has_alloc.mpr (.inl rfl)), fun q => ?_⟩
    simp only [Config.count_holdings, Config.store, List.count_append, List.count_cons,
      State.withHeap, Heap.alloc, Store.contained_push, List.count_nil]
    omega
  | memoize h =>
    refine ⟨[], .none, fun q => ?_⟩
    simp only [Config.count_holdings, State.withHeap, Heap.alloc,
      Store.contained_push, Value.elements, List.count_append, List.count_nil]
    omega
  | share h =>
    refine ⟨_, .memo h, fun q => ?_⟩
    simp only [Config.count_holdings, List.count_cons, List.count_nil]
    omega
  | handBack hb ho =>
    refine ⟨_, .back hb ho, fun q => ?_⟩
    simp only [Config.count_holdings, List.count_cons, List.count_nil]
    omega
  | replace h hi =>
    next s vector o es i T =>
    refine ⟨[], .none, fun q => ?_⟩
    have hset := count_setVector (q := q) (w := es.setIfInBounds i o) h
    have hlist : (es.setIfInBounds i o).toList.count q ≤ es.toList.count q + [o].count q := by
      rw [Array.toList_setIfInBounds, List.count_set (by simpa using hi), List.count_singleton]
      omega
    simp only [Config.count_holdings, State.withStore, List.count_cons, List.count_nil] at hlist ⊢
    omega
  | extend h =>
    next s vector es fs T =>
    refine ⟨[], .none, fun q => ?_⟩
    have hset := count_setVector (q := q) (w := es ++ fs) h
    simp only [Config.count_holdings, State.withStore, List.count_append, List.count_nil,
      Array.toList_append] at hset ⊢
    omega
  | bind h =>
    next s p o T =>
    refine ⟨[], .none, fun q => ?_⟩
    have hslots := count_slots_assign_le (e := s.env) (s := s.heap.store) (p := p) (o := o) (q := q)
    simp only [Config.count_holdings, State.withBindings, State.withEnv,
      State.withStore, parked_assign, store_assign.2.2, List.count_cons, List.count_nil] at hslots ⊢
    omega
  | leave h =>
    next s T =>
    refine ⟨[], .none, fun q => ?_⟩
    have hslots := count_slots_leave_le (e := s.env) (s := s.heap.store) (q := q)
    have hparked := count_parked_leave (e := s.env) (s := s.heap.store) (q := q)
    simp only [Config.count_holdings, State.withBindings, State.withEnv, State.withStore,
      store_leave.2.2, List.count_nil]
    omega
  | declare => exact kept slots_declare parked_declare
  | enter => exact kept slots_enter parked_enter
  | pushFrame => exact kept rfl parked_pushFrame
  | pushLoop => exact kept rfl parked_pushLoop
  | skipFrom => exact kept slots_skipFrom parked_skipFrom
  | unskip => exact kept (slots_modifyScope fun _ => rfl) (parked_modifyScope fun _ => rfl)
  | popFrame =>
    next s T =>
    refine moved rfl fun q => ?_
    have := count_parked_popFrame (e := s.env) (q := q)
    rw [List.count_append]
    omega
  | popLoop =>
    next s T =>
    refine moved rfl fun q => ?_
    have := count_parked_popLoop (e := s.env) (q := q)
    rw [List.count_append]
    omega
  | takeLast =>
    refine moved (slots_modifyScope fun _ => rfl) fun q => ?_
    exact Nat.le_of_eq (by rw [List.count_append, ← Nat.add_assoc, count_parked_takeLast])
  | setLast =>
    next s i o T =>
    refine moved (slots_modifyScope fun _ => rfl) fun q => ?_
    have := count_parked_modifyScope_le (e := s.env) (i := i)
      (f := ({ · with last := some o })) (q := q)
      (k := [o].count q) fun x => by simp
    simp only [List.count_cons, List.count_nil] at this ⊢
    omega
  | rest =>
    next s i T =>
    refine moved (slots_modifyScope fun _ => rfl) fun q => ?_
    have := count_parked_modifyScope_le (e := s.env) (i := i)
      (f := ({ · with isSkipped := false, last := none })) (q := q) (k := 0) fun x => by simp
    omega
  | leaveFunction =>
    next s o T =>
    refine moved slots_leaveFunction fun q => ?_
    have := count_parked_leaveFunction (e := s.env) (o := o) (q := q)
    simp only [List.count_cons, List.count_nil] at this ⊢
    omega
  | leaveLoop =>
    next s r T =>
    refine moved slots_leaveLoop fun q => ?_
    have := count_parked_leaveLoop (e := s.env) (r := r) (q := q)
    rw [List.count_append]
    omega
  | forget | note =>
    refine ⟨[], .none, fun q => ?_⟩
    simp only [Config.count_holdings, List.count_nil]
    omega

end Step

/-- Nothing is held that is not there, and all counts are exact. -/
structure Config.Sound (c : Config) : Prop where
  held : ∀ o ∈ c.holdings, c.store.Has o
  memo : ∀ x ∈ c.state.functions, c.store.Has x.2
  exact : c.env.Exact c.store

theorem Config.Sound.unheld {s : State} {T : List ObjectId} (h : Config.Sound ⟨s, T⟩) :
    Config.Sound ⟨s, []⟩ := by
  refine ⟨fun o ho => h.held o ?_, h.memo, h.exact⟩
  simp only [Config.holdings, List.mem_append] at ho ⊢
  tauto

namespace Step

variable {c c' : Config}

theorem mem_of_lookup {fs : List (Nat × ObjectId)} {id : Nat} {o : ObjectId}
    (h : fs.lookup id = some o) : (id, o) ∈ fs := by
  induction fs with
  | nil => simp at h
  | cons x fs ih =>
    rw [List.lookup_cons] at h
    split at h
    · next hid =>
      cases h
      simp [eq_of_beq hid]
    · exact List.mem_cons_of_mem x (ih h)

theorem exact_alloc {e : Environment} {h : Heap} {v : Value} (he : e.Exact h.store) :
    e.Exact (h.alloc v).2.store := by
  intro q
  rw [← he q]
  simp only [Heap.alloc, Store.bindings_push]
  split
  · next hq => simp [Store.bindings, Store.get?_of_next_le (Nat.le_of_eq hq.symm)]
  · rfl

open Environment in
theorem exact (h : Step c c') (hc : c.Sound) : c'.env.Exact c'.store := by
  have he := hc.exact
  cases h with
  | alloc | memoize => exact exact_alloc he
  | replace | extend =>
    intro q
    exact Store.bindings_setValue.trans (he q)
  | declare => exact he.congr slots_declare
  | bind h =>
    next s p o T =>
    have ho : s.heap.store.Has o := hc.held o (by simp [Config.holdings])
    exact (Exact.assign (p := p) he ho).2
  | leave => exact he.leave.2
  | enter => exact he.congr slots_enter
  | skipFrom => exact he.congr slots_skipFrom
  | setLast | takeLast | rest | unskip => exact he.congr (slots_modifyScope fun _ => rfl)
  | leaveFunction => exact he.congr slots_leaveFunction
  | leaveLoop => exact he.congr slots_leaveLoop
  | _ => exact he

theorem memo (h : Step c c') (hc : ∀ x ∈ c.state.functions, c.store.Has x.2) :
    ∀ x ∈ c'.state.functions, c'.store.Has x.2 := by
  intro x hx
  have hold : x ∈ c.state.functions → c'.store.Has x.2 := fun hin => h.has (hc x hin)
  cases h with
  | memoize h =>
    obtain rfl | hin := List.mem_cons.mp hx
    · exact has_alloc.mpr (.inl rfl)
    · exact hold hin
  | forget h => exact hold (h x hx)
  | _ => exact hold hx

theorem sound (h : Step c c') (hc : c.Sound) : c'.Sound := by
  refine ⟨fun o ho => ?_, h.memo hc.memo, h.exact hc⟩
  obtain ⟨extra, hextra, hcount⟩ := h.holdings
  have hpos := List.count_pos_iff.mpr ho
  have := hcount o
  by_cases hold : o ∈ c.holdings
  · exact h.has (hc.held o hold)
  · rw [List.count_eq_zero.mpr hold] at this
    have hin : o ∈ extra := List.count_pos_iff.mp (by omega)
    cases hextra with
    | none => cases hin
    | fresh hnew => exact List.mem_singleton.mp hin ▸ hnew
    | memo hl => exact List.mem_singleton.mp hin ▸ h.has (hc.memo _ (mem_of_lookup hl))
    | back hb hhas => exact List.mem_singleton.mp hin ▸ h.has hhas

/-- In a sound configuration any variable can be bound. -/
theorem assign {s : State} {o : ObjectId} {p : Slot} {T : List ObjectId}
    (hs : Config.Sound ⟨s, o :: T⟩) :
    Step ⟨s, o :: T⟩ ⟨s.withBindings (s.env.assign s.heap.store p o), T⟩ :=
  .bind (hs.exact.assign (hs.held o (by simp [Config.holdings]))).1

/-- What else is held stays out of it. -/
theorem frame {s s' : State} {T U R : List ObjectId} (h : Step ⟨s, T⟩ ⟨s', U⟩) :
    Step ⟨s, T ++ R⟩ ⟨s', U ++ R⟩ := by
  cases h with
  | perm h => exact .perm (h.append_right R)
  | alloc hv => exact List.append_assoc .. ▸ .alloc hv
  | extend h => exact List.append_assoc .. ▸ .extend h
  | popFrame => exact List.append_assoc .. ▸ .popFrame
  | popLoop => exact List.append_assoc .. ▸ .popLoop
  | takeLast => exact List.append_assoc .. ▸ .takeLast
  | leaveLoop => exact List.append_assoc .. ▸ .leaveLoop
  | drop => exact .drop
  | memoize h => exact .memoize h
  | share h => exact .share h
  | handBack hb ho => exact .handBack hb ho
  | replace h hi => exact .replace h hi
  | declare => exact .declare
  | bind h => exact .bind h
  | enter => exact .enter
  | leave h => exact .leave h
  | pushFrame => exact .pushFrame
  | pushLoop => exact .pushLoop
  | setLast => exact .setLast
  | rest => exact .rest
  | unskip => exact .unskip
  | skipFrom => exact .skipFrom
  | leaveFunction => exact .leaveFunction
  | forget h => exact .forget h
  | note => exact .note

end Step

namespace Steps

variable {c c' : Config} {o : ObjectId}

theorem frame {s s' : State} {T U R : List ObjectId} (h : Steps ⟨s, T⟩ ⟨s', U⟩) :
    Steps ⟨s, T ++ R⟩ ⟨s', U ++ R⟩ :=
  Relation.ReflTransGen.lift (fun c : Config => Config.mk c.state (c.temps ++ R))
    (fun _ _ => Step.frame) _ _ h

theorem define {s : State} {name : String} {T : List ObjectId} (hs : Config.Sound ⟨s, o :: T⟩) :
    Steps ⟨s, o :: T⟩ ⟨s.withBindings (s.env.define s.heap.store name o), T⟩ := by
  have hdeclare : Step ⟨s, o :: T⟩ ⟨s.withEnv (s.env.declare name).2, o :: T⟩ := .declare
  exact .head hdeclare (.single (.assign (p := (s.env.declare name).1) (hdeclare.sound hs)))

theorem dropList {s : State} {T os : List ObjectId} : Steps ⟨s, os ++ T⟩ ⟨s, T⟩ := by
  induction os with
  | nil => exact .refl
  | cons o os ih => exact .head .drop ih

theorem sound (h : Steps c c') (hc : c.Sound) : c'.Sound := by
  induction h with
  | refl => exact hc
  | tail _ hs ih => exact hs.sound ih

theorem has (h : Steps c c') (ho : c.store.Has o) : c'.store.Has o := by
  induction h with
  | refl => exact ho
  | tail _ hs ih => exact hs.has ih

theorem offers {a : Atom} (h : Steps c c') (ha : c.state.Offers a) : c'.state.Offers a := by
  induction h with
  | refl => exact ha
  | tail _ hs ih => exact hs.offers ih

/-- An atom stays what it is. -/
theorem value_atom {a : Atom} (h : Steps c c') (ho : c.store.Has o)
    (ha : c.store.value o = .atom a) :
    c'.store.value o = .atom a := by
  induction h with
  | refl => exact ha
  | tail hss hs ih =>
    obtain hsame | ⟨es, fs, hes, -⟩ := hs.value (Steps.has hss ho)
    · exact hsame.trans ih
    · rw [hes] at ih
      cases ih

end Steps
end Scripting
