import Mathlib.Tactic.Common
import Scripting.Proofs.Environment.Nesting
import Scripting.Proofs.Eval.Routine

/-! Evaluation under observation. An observer looks at the state before and after each node and
raises an alarm when something is amiss; this module has the rules by which an evaluation with an
observer is shown to run as the one without, and what it does to the stacks meanwhile. -/
namespace Scripting

/-- Stops with an alarm where the state before or after is not accepted. -/
def Eval.guarded {α : Type} (accepts : State → Bool) (alarm : Stop) (x : Eval α) :
    Eval α := fun s =>
  if accepts s then
    match x s with
    | .ok a s' => if accepts s' then .ok a s' else .error alarm s'
    | .error stop s' => if accepts s' then .error stop s' else .error alarm s'
  else .error alarm s

/-- The evaluation of a node with an observer at each node on the way. -/
def Eval.watched (accepts : State → Bool) (alarm : Stop) : Nat → Node → Eval ObjectId
  | 0, _ => guarded accepts alarm (throw .exhausted)
  | fuel + 1, n => guarded accepts alarm do
    checkInterrupt n.span
    trace n
    form (watched accepts alarm fuel) fuel n

/-- Stacks on which an evaluation can go on, whatever it opens. -/
structure Watch where
  holds : Environment → Prop
  rooted : ∀ {e : Environment}, holds e → e.Rooted
  balanced : ∀ {e e' : Environment}, holds e → e.Balanced e' → holds e'
  block : ∀ {e : Environment} {fs : List Decl}, holds e → holds (e.enter .block fs)
  loop : ∀ {e : Environment} {fs : List Decl}, holds e → holds (e.loopOpened fs)
  call : ∀ {e : Environment} {d : Decl}, holds e → holds (e.callOpened d)

/-- The global scope is in its place. -/
def Watch.rootedness : Watch where
  holds := Environment.Rooted
  rooted := id
  balanced := fun h hb => hb.toExtends.rooted h
  block := Environment.Extends.enter.rooted
  loop := Environment.Extends.loopOpened.rooted
  call := Environment.Extends.callOpened.rooted

/-- Calls and loops are also well nested. -/
def Watch.nesting : Watch where
  holds := fun e => e.Rooted ∧ e.WellNested
  rooted := And.left
  balanced := fun h hb => ⟨hb.toExtends.rooted h.1, hb.wellNested h.2⟩
  block := fun h => ⟨Environment.Extends.enter.rooted h.1, h.2.enter⟩
  loop := fun h => ⟨Environment.Extends.loopOpened.rooted h.1, h.2.loopOpened⟩
  call := fun h => ⟨Environment.Extends.callOpened.rooted h.1, h.2.callOpened⟩

namespace Eval

variable {α β : Type} {W : Watch} {d : Nat} {x y : Eval α} {f g : α → Eval β} {s : State}
  {o : ObjectId} {span : Option Span}

/-- From stacks that are fit to go on, the first evaluation runs as the second one. A value leaves
the stacks in order but for marks of the `d` innermost scopes, an error leaves them built upon. -/
def Tracks (W : Watch) (d : Nat) (x y : Eval α) (s : State) : Prop :=
  W.holds s.env → x s = y s ∧
    match y s with
    | .ok _ s' => s.env.Keeps d s'.env
    | .error _ s' => W.holds s'.env ∧ s.env.Extends s'.env

/-- An evaluation that leaves the stacks alone. -/
def Still (x : Eval α) : Prop := ∀ s,
  match x s with
  | .ok _ s' => s'.env = s.env
  | .error _ s' => s'.env = s.env

theorem Still.bind (hx : Still x) (hf : ∀ a, Still (f a)) : Still (x >>= f) := by
  intro s
  have hs := hx s
  simp only [Bind.bind, EStateM.bind]
  cases hr : x s with
  | error stop s' =>
    rw [hr] at hs
    exact hs
  | ok a s' =>
    rw [hr] at hs
    have hs' := hf a s'
    simp only at hs ⊢
    cases hr' : f a s' <;> simp only [hr'] at hs' ⊢ <;> exact hs'.trans hs

theorem Routine.still (h : Routine .still x) : Still x := by
  induction h with
  | bind _ _ ihx ihf => exact ihx.bind ihf
  | functionObject =>
    intro s
    rw [functionObject_eq]
    simp only [objectFor]
    split <;> rfl
  | @refill o f =>
    intro s
    simp only [Eval.refill, Eval.valueOf, Bind.bind, EStateM.bind, Eval.read]
    cases f (s.heap.store.value o) <;> rfl
  | @walk o =>
    intro s
    simp only [Eval.treeOf]
    cases s.heap.store.tree? o <;> rfl
  | restack h => exact absurd rfl h
  | reframe h => cases h
  | _ => exact fun _ => rfl

namespace Tracks

theorem mono {k : Nat} (h : Tracks W d x y s) (hd : d ≤ k) : Tracks W k x y s := by
  intro hs
  obtain ⟨heq, hend⟩ := h hs
  refine ⟨heq, ?_⟩
  cases hr : y s with
  | error stop s' =>
    rw [hr] at hend
    exact hend
  | ok a s' =>
    rw [hr] at hend
    exact hend.mono hd

theorem still (h : Routine .still x) : Tracks W d x x s := by
  intro hs
  have henv := h.still s
  refine ⟨rfl, ?_⟩
  cases hr : x s with
  | error stop s' =>
    rw [hr] at henv
    simp only at henv ⊢
    rw [henv]
    exact ⟨hs, .refl⟩
  | ok a s' =>
    rw [hr] at henv
    simp only at henv ⊢
    rw [henv]
    exact .refl

theorem bind (hx : Tracks W d x y s)
    (hf : ∀ a s', s.env.Keeps d s'.env → Tracks W d (f a) (g a) s') :
    Tracks W d (x >>= f) (y >>= g) s := by
  intro hs
  obtain ⟨heq, hend⟩ := hx hs
  simp only [Bind.bind, EStateM.bind, heq]
  cases hr : y s with
  | error stop s' =>
    rw [hr] at hend
    exact ⟨rfl, hend⟩
  | ok a s' =>
    rw [hr] at hend
    simp only at hend ⊢
    obtain ⟨heq', hend'⟩ := hf a s' hend (W.balanced hs hend.balanced)
    refine ⟨heq', ?_⟩
    cases hr' : g a s' with
    | error stop s'' =>
      rw [hr'] at hend'
      exact ⟨hend'.1, hend.balanced.toExtends.trans hend'.2⟩
    | ok b s'' =>
      rw [hr'] at hend'
      exact hend.trans hend'

/-- What is read off the state is known to be so. -/
theorem look {r : State → α} (h : Tracks W d (f (r s)) (g (r s)) s) :
    Tracks W d (Eval.read r >>= f) (Eval.read r >>= g) s := h

theorem pure {a : α} : Tracks W d (Pure.pure a) (Pure.pure a) s := still .pure

theorem raise {e : Error} : Tracks W d (Eval.raise e : Eval α) (Eval.raise e) s := still .raise

/-- A change of state that keeps the stacks in order. -/
theorem modifyGet {m : State → α × State} (h : s.env.Keeps d (m s).2.env) :
    Tracks W d (MonadStateOf.modifyGet m : Eval α) (MonadStateOf.modifyGet m) s :=
  fun _ => ⟨rfl, h⟩

end Tracks
end Eval
end Scripting
