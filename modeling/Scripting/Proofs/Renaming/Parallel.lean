import Mathlib.Tactic.Common
import Scripting.Proofs.Eval.Step
import Scripting.Proofs.Renaming.Environments
import Scripting.Proofs.Structured.Position

/-! Two evaluations side by side, in states that are the same up to the numbers of objects. They end
alike, with results and states that are again the same up to numbers. -/
namespace Scripting

open Relation

section

variable (D : Decl → Prop) (R : Pairing)

/-- What two tables of functions have for one declaration. If only one of them has an object for
it, the other run will make one that means the same. -/
structure Remembered (s t : Store) (fs gs : List (Nat × ObjectId)) (d : Decl) : Prop where
  both : ∀ o p, (d.id, o) ∈ fs → (d.id, p) ∈ gs →
    ∃ e, D e ∧ e.id = d.id ∧ s.value o = .atom (.function e) ∧ t.value p = .atom (.function e)
  left : gs.lookup d.id = none → ∀ o, (d.id, o) ∈ fs → s.value o = .atom (.function d)
  right : fs.lookup d.id = none → ∀ p, (d.id, p) ∈ gs → t.value p = .atom (.function d)

/-- Two states that are the same up to the numbers of objects. The counts of bindings, the tables of
registered objects and the log may differ. -/
structure State.Renamed (s t : State) : Prop where
  store : s.heap.store.Renamed D R t.heap.store
  env : s.env.Renamed D R t.env
  memo : ∀ d, D d → Remembered D s.heap.store t.heap.store s.functions t.functions d
  builtins : t.builtins = s.builtins
  plain : ∀ b ∈ s.builtins.entries, b.primitive ≠ .bindings
  sink : t.sink = s.sink
  isInterrupted : t.isInterrupted = s.isInterrupted
  isTraced : t.isTraced = s.isTraced

end

section

variable {D : Decl → Prop} {R R' : Pairing}

theorem Remembered.grow {s t s' t' : Store} {d : Decl} {fs gs : List (Nat × ObjectId)}
    {known known' : ObjectId → Prop} (h : Remembered D s t fs gs d) (hs : s.Grows known s')
    (ht : t.Grows known' t') : Remembered D s' t' fs gs d := by
  have hfun : ∀ {u u' : Store} {K : ObjectId → Prop} {o : ObjectId} {e : Decl}, u.Grows K u' →
      u.value o = .atom (.function e) → u'.value o = .atom (.function e) :=
    fun hu ho => hu.atom (Store.IsFunction.has ⟨_, ho⟩) ho
  refine ⟨fun o p ho hp => ?_, fun hnone o ho => hfun hs (h.left hnone o ho),
    fun hnone p hp => hfun ht (h.right hnone p hp)⟩
  obtain ⟨e, he, hid, hov, hpv⟩ := h.both o p ho hp
  exact ⟨e, he, hid, hfun hs hov, hfun ht hpv⟩

/-- A change of objects and stacks, and of what is outside. -/
theorem State.Renamed.change {s t s' t' : State} (h : s.Renamed D R t)
    (hgrow : R.Grows s.heap.store t.heap.store R' s'.heap.store t'.heap.store)
    (hstore : s'.heap.store.Renamed D R' t'.heap.store) (henv : s'.env.Renamed D R' t'.env)
    (hs : s' = { s with heap := s'.heap, env := s'.env, log := s'.log })
    (ht : t' = { t with heap := t'.heap, env := t'.env, log := t'.log }) : s'.Renamed D R' t' := by
  rw [hs, ht]
  exact ⟨hstore, henv, fun d hd => (h.memo d hd).grow hgrow.left hgrow.right, h.builtins, h.plain,
    h.sink, h.isInterrupted, h.isTraced⟩

end

namespace Eval

variable {α β γ δ : Type} {D : Decl → Prop} {R S : Pairing} {s t : State} {o p : ObjectId}
  {span : Option Span}

/-- Two results that end alike, given the states from which the evaluations came. -/
def Ended (D : Decl → Prop) (R : Pairing) (s t : State) (Q : Pairing → α → β → Prop) :
    EStateM.Result Stop State α → EStateM.Result Stop State β → Prop
  | .ok a s', .ok b t' =>
    ∃ R', R.Grows s.heap.store t.heap.store R' s'.heap.store t'.heap.store ∧
      s'.Renamed D R' t' ∧ Q R' a b
  | .error e s', .error e' t' =>
    e = e' ∧ ∃ R', R.Grows s.heap.store t.heap.store R' s'.heap.store t'.heap.store ∧
      s'.Renamed D R' t'
  | _, _ => False

/-- Two evaluations run in parallel if they end alike from states that are the same up to the
numbers of objects. The relation `Q` is between their results. -/
def Parallel (D : Decl → Prop) (R : Pairing) (x : Eval α) (y : Eval β)
    (Q : Pairing → α → β → Prop) : Prop :=
  ∀ s t, s.Renamed D R t → Ended D R s t Q (x s) (y t)

/-- The results are the same. -/
def Same (_ : Pairing) (a b : α) : Prop := a = b

/-- The results are objects that stand for each other. -/
def Paired (R : Pairing) (o p : ObjectId) : Prop := R o p

/-- A node whose functions are among the given ones. -/
def Within (D : Decl → Prop) (n : Node) : Prop := ∀ d ∈ n.decls, D d

/-- Operands run in parallel with themselves. -/
def Mirrored (D : Decl → Prop) (ev : Node → Eval ObjectId) : Prop :=
  ∀ R n, Within D n → Parallel D R (ev n) (ev n) Paired

variable {x : Eval α} {y : Eval β} {f : α → Eval γ} {g : β → Eval δ} {P : Pairing → α → β → Prop}
  {Q : Pairing → γ → δ → Prop}

theorem Ended.bind (h : Ended D R s t P (x s) (y t))
    (hf : ∀ R' a b s' t', R.Grows s.heap.store t.heap.store R' s'.heap.store t'.heap.store →
      s'.Renamed D R' t' → P R' a b → Ended D R' s' t' Q (f a s') (g b t')) :
    Ended D R s t Q ((x >>= f) s) ((y >>= g) t) := by
  simp only [Bind.bind, EStateM.bind]
  cases hx : x s <;> cases hy : y t <;> simp only [hx, hy, Ended] at h ⊢
  · next a s' b t' =>
    obtain ⟨R', hgrow, hst, hP⟩ := h
    have hnext := hf R' a b s' t' hgrow hst hP
    cases hfa : f a s' <;> cases hgb : g b t' <;> simp only [hfa, hgb, Ended] at hnext ⊢
    · obtain ⟨R'', hgrow', hst', hQ⟩ := hnext
      exact ⟨R'', hgrow.trans hgrow', hst', hQ⟩
    · obtain ⟨he, R'', hgrow', hst'⟩ := hnext
      exact ⟨he, R'', hgrow.trans hgrow', hst'⟩
  · exact h

theorem bind_ok {a : α} {s' : State} (h : x s = .ok a s') :
    (x >>= f) s = f a s' := by
  simp only [Bind.bind, EStateM.bind, h]

theorem bind_error {stop : Stop} {s' : State} (h : x s = .error stop s') :
    (x >>= f) s = .error stop s' := by
  simp only [Bind.bind, EStateM.bind, h]

theorem valueOf_eq : Eval.valueOf o s = .ok (s.heap.store.value o) s := rfl

theorem treeOf_eq {x : Tree} (hx : s.heap.store.tree? o = some x) : Eval.treeOf o s = .ok x s := by
  simp [Eval.treeOf, hx]

theorem Ended.after {Q : Pairing → α → β → Prop} {s' t' : State} {r : EStateM.Result Stop State α}
    {r' : EStateM.Result Stop State β}
    (hgrow : R.Grows s.heap.store t.heap.store S s'.heap.store t'.heap.store)
    (h : Ended D S s' t' Q r r') : Ended D R s t Q r r' := by
  cases r <;> cases r' <;> simp only [Ended] at h ⊢
  · obtain ⟨R', hgrow', hst, hQ⟩ := h
    exact ⟨R', hgrow.trans hgrow', hst, hQ⟩
  · obtain ⟨he, R', hgrow', hst⟩ := h
    exact ⟨he, R', hgrow.trans hgrow', hst⟩

namespace Parallel

theorem bind (hx : Parallel D R x y P)
    (hf : ∀ R' a b, R ≤ R' → P R' a b → Parallel D R' (f a) (g b) Q) :
    Parallel D R (x >>= f) (y >>= g) Q :=
  fun s t hst => (hx s t hst).bind fun R' a b s' t' hgrow hst' hP =>
    hf R' a b hgrow.le hP s' t' hst'

/-- Goes on after two evaluations that give the same value. -/
theorem andThen {y : Eval α} {g : α → Eval δ} (hx : Parallel D R x y Same)
    (hf : ∀ R' a, R ≤ R' → Parallel D R' (f a) (g a) Q) : Parallel D R (x >>= f) (y >>= g) Q := by
  refine hx.bind fun R' a b hle hab => ?_
  cases hab
  exact hf R' a hle

theorem pure {a : α} {b : β} (h : P R a b) : Parallel D R (Pure.pure a) (Pure.pure b) P :=
  fun _ _ hst => ⟨R, .refl, hst, h⟩

theorem throw {stop : Stop} :
    Parallel D R (MonadExcept.throw stop : Eval α) (MonadExcept.throw stop : Eval β) P :=
  fun _ _ hst => ⟨rfl, R, .refl, hst⟩

theorem raise {e : Error} : Parallel D R (Eval.raise e : Eval α) (Eval.raise e : Eval β) P := throw

theorem ofExcept {r : Except Error α} {P : Pairing → α → α → Prop} (h : ∀ a, r = .ok a → P R a a) :
    Parallel D R (Eval.ofExcept r) (Eval.ofExcept r) P := by
  cases r with
  | ok a => exact pure (h a rfl)
  | error e => exact raise

theorem read {r : State → α} {q : State → β} (h : ∀ s t, s.Renamed D R t → P R (r s) (q t)) :
    Parallel D R (Eval.read r) (Eval.read q) P :=
  fun s t hst => ⟨R, .refl, hst, h s t hst⟩

/-! ### Elementary actions -/

theorem step {m : State → α × State} {m' : State → β × State}
    (h : ∀ s t, s.Renamed D R t → ∃ R',
      R.Grows s.heap.store t.heap.store R' (m s).2.heap.store (m' t).2.heap.store ∧
        (m s).2.Renamed D R' (m' t).2 ∧ P R' (m s).1 (m' t).1) :
    Parallel D R (modifyGet m : Eval α) (modifyGet m' : Eval β) P := h

/-- Something besides the objects changes. -/
theorem note {m : State → State} (hm : ∀ s, (m s).heap = s.heap)
    (h : ∀ s t, s.Renamed D R t → (m s).Renamed D R (m t)) :
    Parallel D R (modify m : Eval Unit) (modify m : Eval Unit) Same := by
  refine step fun s t hst => ⟨R, ?_, h s t hst, rfl⟩
  simp only [hm]
  exact .refl

theorem modifyEnv {m m' : Environment → Environment}
    (h : ∀ e f, e.Renamed D R f → (m e).Renamed D R (m' f)) :
    Parallel D R (Eval.modifyEnv m) (Eval.modifyEnv m') Same :=
  step fun _ _ hst => ⟨R, .refl, hst.change .refl hst.store (h _ _ hst.env) rfl rfl, rfl⟩

/-- A change of the stacks that leaves all values as they are. -/
theorem modifyBindings {m m' : Environment → Store → Environment × Store}
    (henv : ∀ (e f : Environment) (u v : Store), e.Renamed D R f → (m e u).1.Renamed D R (m' f v).1)
    (hm : ∀ (e : Environment) (u : Store), u.Recounts (m e u).2)
    (hm' : ∀ (e : Environment) (u : Store), u.Recounts (m' e u).2) :
    Parallel D R (Eval.modifyBindings m) (Eval.modifyBindings m') Same := by
  refine step fun s t hst => ?_
  have hgrow : R.Grows s.heap.store t.heap.store R (m s.env s.heap.store).2
      (m' t.env t.heap.store).2 :=
    ⟨fun _ _ => id, .inl, .recounts (hm _ _), .recounts (hm' _ _)⟩
  exact ⟨R, hgrow, hst.change hgrow (hst.store.recounts (hm _ _) (hm' _ _))
    (henv _ _ _ _ hst.env) rfl rfl, rfl⟩

theorem leaveScope : Parallel D R Eval.leaveScope Eval.leaveScope Same :=
  modifyBindings (fun _ _ _ _ h => h.leave) (fun _ _ => Environment.recounts_leave)
    fun _ _ => Environment.recounts_leave

theorem define {name : String} (hop : R o p) :
    Parallel D R (Eval.define name o) (Eval.define name p) Same :=
  modifyBindings (fun _ _ _ _ h => h.define name hop) (fun _ _ => Environment.recounts_assign)
    fun _ _ => Environment.recounts_assign

theorem assign {slot : Slot} (hop : R o p) :
    Parallel D R (Eval.modifyBindings fun e s => e.assign s slot o)
      (Eval.modifyBindings fun e s => e.assign s slot p) Same :=
  modifyBindings (fun _ _ _ _ h => h.assign slot hop) (fun _ _ => Environment.recounts_assign)
    fun _ _ => Environment.recounts_assign

theorem declare {name : String} : Parallel D R (Eval.declare name) (Eval.declare name) Same := by
  refine step fun s t hst => ?_
  obtain ⟨hslot, henv⟩ := hst.env.declare name
  exact ⟨R, .refl, hst.change .refl hst.store henv rfl rfl, hslot.symm⟩

theorem alloc {v w : Value} (hv : v.Renamed D R w) :
    Parallel D R (Eval.alloc v) (Eval.alloc w) Paired :=
  step fun _ _ hst => ⟨_, .push, hst.change .push (hst.store.push hv)
    (hst.env.mono Pairing.le_insert) rfl rfl, .inr ⟨rfl, rfl⟩⟩

theorem allocAtom {a : Atom} (ha : a.Allowed D) :
    Parallel D R (Eval.allocAtom a) (Eval.allocAtom a) Paired := alloc (.atom ha)

theorem allocNone : Parallel D R Eval.allocNone Eval.allocNone Paired :=
  allocAtom (a := .none) trivial

theorem valueOf (hop : R o p) :
    Parallel D R (Eval.valueOf o) (Eval.valueOf p) (fun R v w => v.Renamed D R w) :=
  read fun _ _ hst => hst.store.value hop

theorem record {event : LogEvent} : Parallel D R (Eval.record event) (Eval.record event) Same :=
  note (fun _ => rfl) fun _ _ hst => hst.change .refl hst.store hst.env rfl rfl

theorem write {text : String} : Parallel D R (Eval.write text) (Eval.write text) Same := by
  unfold Eval.write
  split
  · exact pure rfl
  · refine (read (P := Same) fun s t hst => by rw [Same, hst.sink]).andThen fun R' b _ => ?_
    split
    · exact record
    · refine note (fun _ => rfl) fun s t hst => ?_
      exact { hst with sink := by simp only [hst.sink] }

theorem checkInterrupt :
    Parallel D R (Eval.checkInterrupt span) (Eval.checkInterrupt span) Same := by
  refine (read (P := Same) fun s t hst => hst.isInterrupted.symm).andThen fun R' b _ => ?_
  split
  · exact raise
  · exact pure rfl

theorem trace {n : Node} : Parallel D R (Eval.trace n) (Eval.trace n) Same := by
  refine (read (P := Same) fun s t hst => hst.isTraced.symm).andThen fun R' b _ => ?_
  split
  · exact record
  · exact pure rfl

end Parallel

/-! ### Function objects -/

/-- The object of a declaration, and the state in which it is remembered. -/
def objectFor (d : Decl) (s : State) : ObjectId × State :=
  match s.functions.lookup d.id with
  | some o => (o, s)
  | none =>
    let made := s.heap.alloc (.atom (.function d))
    (made.1, { s with heap := made.2, functions := (d.id, made.1) :: s.functions })

theorem functionObject_eq {d : Decl} :
    Eval.functionObject d s = .ok (objectFor d s).1 (objectFor d s).2 := by
  unfold objectFor
  change (match s.functions.lookup d.id with | some o => _ | none => _ : Eval ObjectId) s = _
  cases s.functions.lookup d.id <;> rfl

theorem lookup_objectFor {d e : Decl} :
    (objectFor d s).2.functions.lookup e.id =
      if e.id = d.id then some (objectFor d s).1 else s.functions.lookup e.id := by
  unfold objectFor
  split
  · next o ho =>
    split
    · next heq => rw [heq, ho]
    · rfl
  · by_cases heq : e.id = d.id
    · simp [heq]
    · simp [List.lookup_cons, heq, beq_eq_false_iff_ne.mpr heq]

theorem mem_objectFor {d : Decl} {k : Nat} (h : (k, o) ∈ (objectFor d s).2.functions) :
    (k, o) ∈ s.functions ∨ s.functions.lookup d.id = none ∧ k = d.id ∧ o = (objectFor d s).1 := by
  unfold objectFor at h ⊢
  split at h
  · exact .inl h
  · next hnone =>
    rcases List.mem_cons.mp h with heq | hin
    · cases heq
      exact .inr ⟨hnone, rfl, rfl⟩
    · exact .inl hin

theorem objectFor_mem {d : Decl} : (d.id, (objectFor d s).1) ∈ (objectFor d s).2.functions := by
  unfold objectFor
  split
  · next hfound => exact Step.mem_of_lookup hfound
  · exact List.mem_cons_self

/-- Nothing happens to the objects that are there. -/
theorem store_objectFor {d : Decl} (known : ObjectId → Prop) (h : s.heap.store.Orderly) :
    s.heap.store.Grows known (objectFor d s).2.heap.store ∧
      (∀ q, s.heap.store.Has q → (objectFor d s).2.heap.store.value q = s.heap.store.value q) ∧
      (objectFor d s).2.heap.store.Orderly := by
  unfold objectFor
  split
  · exact ⟨.refl, fun _ _ => rfl, h⟩
  · refine ⟨.push, fun q hq => ?_, h.push (by simp [Value.elements])⟩
    have hgrow : s.heap.store.Grows (fun _ => False)
        (s.heap.alloc (.atom (.function d))).2.store := .push
    exact hgrow.kept hq not_false

theorem objectFor_eq {d : Decl} : (objectFor d s).2 =
    { s with heap := (objectFor d s).2.heap, functions := (objectFor d s).2.functions } := by
  unfold objectFor
  split <;> rfl

theorem value_objectFor {d : Decl} (h : s.functions.lookup d.id = none) :
    (objectFor d s).2.heap.store.value (objectFor d s).1 = .atom (.function d) := by
  simp [objectFor, h, Heap.alloc, Store.value_push]

theorem Parallel.functionObject {d : Decl} (hd : D d) :
    Parallel D R (Eval.functionObject d) (Eval.functionObject d) Paired := by
  intro s t hst
  rw [functionObject_eq, functionObject_eq]
  obtain ⟨hs, hsvalue, hsorderly⟩ := store_objectFor (d := d) (fun o => ∃ p, R o p) hst.store.left
  obtain ⟨ht, htvalue, htorderly⟩ := store_objectFor (d := d) (fun p => ∃ o, R o p) hst.store.right
  -- whichever of the objects are there already, both are of one function
  have hfound : ∀ o p, (d.id, o) ∈ (objectFor d s).2.functions →
      (d.id, p) ∈ (objectFor d t).2.functions →
      ∃ e, D e ∧ e.id = d.id ∧ (objectFor d s).2.heap.store.value o = .atom (.function e) ∧
        (objectFor d t).2.heap.store.value p = .atom (.function e) := by
    intro o p ho hp
    have hold := (hst.memo d hd).grow hs ht
    rcases mem_objectFor ho with ho | ⟨hsnone, -, rfl⟩ <;>
      rcases mem_objectFor hp with hp | ⟨htnone, -, rfl⟩
    · exact hold.both o p ho hp
    · exact ⟨d, hd, rfl, hold.left htnone o ho, value_objectFor htnone⟩
    · exact ⟨d, hd, rfl, value_objectFor hsnone, hold.right hsnone p hp⟩
    · exact ⟨d, hd, rfl, value_objectFor hsnone, value_objectFor htnone⟩
  obtain ⟨e, he, -, ho, hp⟩ := hfound _ _ objectFor_mem objectFor_mem
  have hkept : (objectFor d s).2.heap.store.Renamed D R (objectFor d t).2.heap.store :=
    hst.store.congr (fun q hq => ⟨hs.has hq, hsvalue q hq⟩) (fun q hq => ⟨ht.has hq, htvalue q hq⟩)
      hsorderly htorderly
  refine ⟨_, .meet hs ht ⟨e, ho⟩ ⟨e, hp⟩, ?_, .inr ⟨rfl, rfl⟩⟩
  have hmemo : ∀ d', D d' → Remembered D (objectFor d s).2.heap.store (objectFor d t).2.heap.store
      (objectFor d s).2.functions (objectFor d t).2.functions d' := by
    intro d' hd'
    by_cases heq : d'.id = d.id
    · refine ⟨?_, fun hnone => ?_, fun hnone => ?_⟩
      · rw [heq]
        exact hfound
      · rw [lookup_objectFor, if_pos heq] at hnone
        cases hnone
      · rw [lookup_objectFor, if_pos heq] at hnone
        cases hnone
    · have hold := (hst.memo d' hd').grow hs ht
      have hin : ∀ {u : State} {q : ObjectId}, (d'.id, q) ∈ (objectFor d u).2.functions →
          (d'.id, q) ∈ u.functions :=
        fun hq => (mem_objectFor hq).resolve_right fun h => heq h.2.1
      refine ⟨fun o p ho hp => hold.both o p (hin ho) (hin hp), fun hnone o ho => ?_,
        fun hnone p hp => ?_⟩
      · rw [lookup_objectFor, if_neg heq] at hnone
        exact hold.left hnone o (hin ho)
      · rw [lookup_objectFor, if_neg heq] at hnone
        exact hold.right hnone p (hin hp)
  have hseq := objectFor_eq (d := d) (s := s)
  have hteq := objectFor_eq (d := d) (s := t)
  refine ⟨hkept.meet he ho hp, ?_, hmemo, ?_, ?_, ?_, ?_, ?_⟩
  · rw [hseq, hteq]
    exact hst.env.mono Pairing.le_insert
  · rw [hseq, hteq]
    exact hst.builtins
  · rw [hseq]
    exact hst.plain
  · rw [hseq, hteq]
    exact hst.sink
  · rw [hseq, hteq]
    exact hst.isInterrupted
  · rw [hseq, hteq]
    exact hst.isTraced

end Eval
end Scripting
