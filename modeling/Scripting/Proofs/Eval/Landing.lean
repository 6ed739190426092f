import Mathlib.Tactic.Common
import Scripting.Eval.Node
import Scripting.Proofs.Eval.Step

/-! Where an evaluation lands: the rules by which programs are taken apart into steps. -/
namespace Scripting.Eval

variable {α β : Type} {x : Eval α} {f : α → Eval β} {s : State} {T U : List ObjectId} {o : ObjectId}
  {P : α → State → List ObjectId → Prop} {Q : β → State → List ObjectId → Prop}

/-- From a sound configuration the evaluation gets to its end by steps, and a result stands in the
given relation to the state and to what is then held. -/
def Lands (x : Eval α) (s : State) (T : List ObjectId)
    (P : α → State → List ObjectId → Prop) : Prop :=
  Config.Sound ⟨s, T⟩ →
    match x s with
    | .ok a s' => ∃ U, Steps ⟨s, T⟩ ⟨s', U⟩ ∧ P a s' U
    | .error _ s' => ∃ U, Steps ⟨s, T⟩ ⟨s', U⟩

/-- The value is held on top of what was held before. -/
def Gives (T : List ObjectId) (o : ObjectId) (_ : State) (U : List ObjectId) : Prop := U = o :: T

/-- What was held is held. -/
def Keeps (T : List ObjectId) (_ : α) (_ : State) (U : List ObjectId) : Prop := U = T

/-- A value that is read off the state. -/
def Reads (s : State) (T : List ObjectId) (good : α → Prop) (a : α) (s' : State)
    (U : List ObjectId) : Prop :=
  s' = s ∧ U = T ∧ good a

/-- An object that need not be held by the evaluation. -/
def Refers (T : List ObjectId) (o : ObjectId) (s : State) (U : List ObjectId) : Prop :=
  U = T ∧ s.heap.store.Has o

/-- Operands give objects that the evaluation holds. -/
def Evaluates (ev : Node → Eval ObjectId) : Prop := ∀ n s T, Lands (ev n) s T (Gives T)

namespace Lands

theorem bind (hx : Lands x s T P)
    (hf : ∀ a s' U, Steps ⟨s, T⟩ ⟨s', U⟩ → P a s' U → Lands (f a) s' U Q) :
    Lands (x >>= f) s T Q := by
  intro hsound
  have h := hx hsound
  simp only [Bind.bind, EStateM.bind]
  cases hr : x s with
  | error e s' =>
    rw [hr] at h
    exact h
  | ok a s' =>
    rw [hr] at h
    obtain ⟨U, hsteps, hP⟩ := h
    have hnext := hf a s' U hsteps hP (hsteps.sound hsound)
    cases hr' : f a s' with
    | error e s'' =>
      simp only [hr'] at hnext ⊢
      obtain ⟨V, hsteps'⟩ := hnext
      exact ⟨V, hsteps.trans hsteps'⟩
    | ok b s'' =>
      simp only [hr'] at hnext ⊢
      obtain ⟨V, hsteps', hQ⟩ := hnext
      exact ⟨V, hsteps.trans hsteps', hQ⟩

theorem andThen (hx : Lands x s T (Keeps U)) (hf : ∀ a s', Lands (f a) s' U Q) :
    Lands (x >>= f) s T Q := by
  refine hx.bind ?_
  rintro a s' V - rfl
  exact hf a s'

theorem andHold {x : Eval ObjectId} {f : ObjectId → Eval β} (hx : Lands x s T (Gives U))
    (hf : ∀ o s', Lands (f o) s' (o :: U) Q) : Lands (x >>= f) s T Q := by
  refine hx.bind ?_
  rintro o s' V - rfl
  exact hf o s'

/-- Steps that leave the state alone may come first. -/
theorem before (h : Step ⟨s, T⟩ ⟨s, U⟩) (hx : Lands x s U P) : Lands x s T P := by
  intro hsound
  have hr := hx (h.sound hsound)
  cases hxs : x s with
  | error e s' =>
    rw [hxs] at hr
    obtain ⟨V, hsteps⟩ := hr
    exact ⟨V, .head h hsteps⟩
  | ok a s' =>
    rw [hxs] at hr
    obtain ⟨V, hsteps, hP⟩ := hr
    exact ⟨V, .head h hsteps, hP⟩

theorem perm (h : T.Perm U) (hx : Lands x s U P) : Lands x s T P := before (.perm h) hx

theorem drop (hx : Lands x s T P) : Lands x s (o :: T) P := before .drop hx

theorem dropList {os : List ObjectId} (hx : Lands x s T P) : Lands x s (os ++ T) P := by
  induction os with
  | nil => exact hx
  | cons o os ih => exact drop ih

/-- What holds in sound configurations may be used. -/
theorem ofSound (h : Config.Sound ⟨s, T⟩ → Lands x s T P) : Lands x s T P :=
  fun hsound => h hsound hsound

theorem pure {a : α} (h : P a s T) : Lands (Pure.pure a) s T P := fun _ => ⟨T, .refl, h⟩

theorem throw {stop : Stop} : Lands (MonadExcept.throw stop : Eval α) s T P := fun _ => ⟨T, .refl⟩

theorem raise {e : Error} : Lands (Eval.raise e : Eval α) s T P := throw

theorem ofExcept {r : Except Error α} {G : α → Prop} (h : ∀ a, r = .ok a → G a) :
    Lands (Eval.ofExcept r) s T (Reads s T G) := by
  cases r with
  | ok a => exact pure ⟨rfl, rfl, h a rfl⟩
  | error e => exact raise

theorem after {R : α → State → List ObjectId → Prop} (hx : Lands x s T P)
    (h : ∀ a s' U, P a s' U → Lands (Pure.pure a) s' U R) : Lands x s T R := by
  have := hx.bind (f := Pure.pure) fun a s' U _ ha => h a s' U ha
  rwa [bind_pure] at this

/-- A result that is held can be referred to, and need not be held any longer. -/
theorem owned {x : Eval ObjectId} (hx : Lands x s T (Gives T)) : Lands x s T (Refers T) := by
  refine hx.after ?_
  rintro o s' U rfl
  exact ofSound fun hsound => drop (pure ⟨rfl, hsound.held o (by simp [Config.holdings])⟩)

/-- One step that gives the result at once. -/
theorem step {g : State → α × State} (h : Config.Sound ⟨s, T⟩ → Step ⟨s, T⟩ ⟨(g s).2, U⟩)
    (hP : P (g s).1 (g s).2 U) : Lands (modifyGet g : Eval α) s T P :=
  fun hsound => ⟨U, .single (h hsound), hP⟩

theorem steps {g : State → α × State} (h : Config.Sound ⟨s, T⟩ → Steps ⟨s, T⟩ ⟨(g s).2, U⟩)
    (hP : P (g s).1 (g s).2 U) : Lands (modifyGet g : Eval α) s T P :=
  fun hsound => ⟨U, h hsound, hP⟩

theorem read {r : State → α} {G : α → Prop} (h : G (r s)) :
    Lands (Eval.read r) s T (Reads s T G) := fun _ => ⟨T, .refl, rfl, rfl, h⟩

/-- Reads the state and goes on. -/
theorem look {r : State → α} (h : Lands (f (r s)) s T Q) : Lands (Eval.read r >>= f) s T Q := by
  refine (read (G := (· = r s)) rfl).bind ?_
  rintro a s' U - ⟨rfl, rfl, rfl⟩
  exact h

/-! ### Elementary actions -/

theorem modifyEnv {m : Environment → Environment} (h : Step ⟨s, T⟩ ⟨s.withEnv (m s.env), U⟩) :
    Lands (Eval.modifyEnv m) s T (Keeps U) := step (fun _ => h) rfl

theorem alloc {v : Value} (hv : ∀ a, v = .atom a → s.Offers a) :
    Lands (Eval.alloc v) s (v.elements.toList ++ T) (Gives T) := step (fun _ => .alloc hv) rfl

theorem allocAtom {a : Atom} (ha : s.Offers a) : Lands (Eval.allocAtom a) s T (Gives T) :=
  alloc fun b hb => by cases hb; exact ha

theorem allocData {a : Atom} (ha : a.IsData) : Lands (Eval.allocAtom a) s T (Gives T) :=
  allocAtom (.inl ha)

theorem allocNone : Lands Eval.allocNone s T (Gives T) := allocData (a := .none) trivial

theorem note {g : State → State}
    (hg : ∃ sink log isInterrupted, g s = { s with sink, log, isInterrupted }) :
    Lands (modifyGet fun s => ((), g s) : Eval Unit) s T (Keeps T) := by
  obtain ⟨sink, log, isInterrupted, hg⟩ := hg
  exact step (fun _ => hg ▸ .note) rfl

theorem record {event : LogEvent} : Lands (Eval.record event) s T (Keeps T) :=
  note ⟨s.sink, s.log.push event, s.isInterrupted, rfl⟩

theorem write {text : String} : Lands (Eval.write text) s T (Keeps T) := by
  unfold Eval.write
  split
  · exact pure rfl
  · refine look ?_
    split
    · exact record
    · exact note ⟨{ s.sink with text := s.sink.text ++ text }, s.log, s.isInterrupted, rfl⟩

theorem checkInterrupt {span : Option Span} : Lands (Eval.checkInterrupt span) s T (Keeps T) := by
  refine look ?_
  split
  · exact raise
  · exact pure rfl

theorem trace {n : Node} : Lands (Eval.trace n) s T (Keeps T) := by
  refine look ?_
  split
  · exact record
  · exact pure rfl

theorem leaveScope : Lands Eval.leaveScope s T (Keeps T) :=
  step (fun hsound => .leave hsound.exact.leave.1) rfl

theorem declare {name : String} : Lands (Eval.declare name) s T (Keeps T) :=
  step (fun _ => .declare) rfl

theorem assign {p : Slot} : Lands (modifyBindings fun e s => e.assign s p o) s (o :: T) (Keeps T) :=
  step (fun hsound => Step.assign hsound) rfl

theorem define {name : String} : Lands (Eval.define name o) s (o :: T) (Keeps T) :=
  steps (fun hsound => Steps.define hsound) rfl

theorem functionObject {d : Decl} : Lands (Eval.functionObject d) s T (Gives T) := by
  refine look ?_
  cases hl : s.functions.lookup d.id with
  | some o => exact before (.share hl) (pure rfl)
  | none =>
    -- the object is made and entered in the table of functions at once
    intro hsound
    refine ⟨(s.heap.alloc (.atom (.function d))).1 :: T, ?_, rfl⟩
    have hshare : List.lookup d.id ((d.id, (s.heap.alloc (.atom (.function d))).1) :: s.functions) =
        some (s.heap.alloc (.atom (.function d))).1 := by simp
    exact .head (.memoize hl) (.single (.share hshare))

end Lands

/-! ### Trees -/

mutual

theorem build_steps (s : State) (T : List ObjectId) (t : Tree) (ht : t.Every s.Offers) :
    Steps ⟨s, T⟩ ⟨s.withHeap (s.heap.build t).2, (s.heap.build t).1 :: T⟩ := by
  cases t with
  | atom a =>
    refine .single (.alloc (v := .atom a) fun b hb => ?_)
    cases hb
    exact ht
  | tuple ts =>
    exact .tail (buildAll_steps s T #[] ts ht) (.alloc (v := .tuple _) nofun)
  | vector ts =>
    exact .tail (buildAll_steps s T #[] ts ht) (.alloc (v := .vector _) nofun)

theorem buildAll_steps (s : State) (T : List ObjectId) (done : Array ObjectId) (ts : List Tree)
    (ht : Tree.EveryOf s.Offers ts) :
    Steps ⟨s, done.toList ++ T⟩
      ⟨s.withHeap (s.heap.buildAll done ts).2, (s.heap.buildAll done ts).1.toList ++ T⟩ := by
  cases ts with
  | nil => exact .refl
  | cons t ts =>
    have hfirst := build_steps s (done.toList ++ T) t ht.1
    have hperm : ((s.heap.build t).1 :: (done.toList ++ T)).Perm
        ((done.push (s.heap.build t).1).toList ++ T) := by
      simpa using List.perm_middle.symm
    have hoffers : ∀ a, s.Offers a → (s.withHeap (s.heap.build t).2).Offers a :=
      fun a ha => hfirst.offers ha
    have hrest := buildAll_steps (s.withHeap (s.heap.build t).2) T (done.push (s.heap.build t).1) ts
      (Tree.EveryOf.imp hoffers ts ht.2)
    exact hfirst.trans (.head (.perm hperm) hrest)

end

namespace Lands

theorem treeOf : Lands (Eval.treeOf o) s T (Reads s T (Tree.Every s.Offers)) := by
  intro hsound
  unfold Eval.treeOf
  cases ht : s.heap.store.tree? o with
  | none => exact ⟨T, .refl⟩
  | some t =>
    refine ⟨T, .refl, rfl, rfl, ?_⟩
    exact Store.every_of_unfold (G := fun _ => True) (fun _ _ _ _ => trivial)
      (fun p a _ hp => .inr (.inr ⟨p, hp⟩)) trivial ht

theorem build {t : Tree} (ht : t.Every s.Offers) : Lands (Eval.build t) s T (Gives T) :=
  steps (fun _ => build_steps s T t ht) rfl

theorem copy : Lands (Eval.copy o) s T (Gives T) := by
  refine treeOf.bind ?_
  rintro t s' U - ⟨rfl, rfl, ht⟩
  exact build ht

theorem treesOf {os : List ObjectId} :
    Lands (Eval.treesOf os) s T (Reads s T (Tree.EveryOf s.Offers)) := by
  induction os with
  | nil => exact pure ⟨rfl, rfl, trivial⟩
  | cons o os ih =>
    refine treeOf.bind ?_
    rintro t s' U - ⟨rfl, rfl, ht⟩
    refine ih.bind ?_
    rintro ts s' U - ⟨rfl, rfl, hts⟩
    exact pure ⟨rfl, rfl, ht, hts⟩

/-- Copies are held in order. -/
theorem copyAll {os : List ObjectId} :
    Lands (Eval.copyAll os) s T (fun es _ U => U = es.toList ++ T) := by
  refine treesOf.bind ?_
  rintro ts s' U - ⟨rfl, rfl, hts⟩
  exact steps (fun _ => buildAll_steps _ _ #[] ts hts) rfl

theorem textOf : Lands (Eval.textOf o) s T (Keeps T) := by
  refine treeOf.bind ?_
  rintro t s' U - ⟨rfl, rfl, -⟩
  exact pure rfl

end Lands
end Scripting.Eval
