import Mathlib.Tactic.Common
import Scripting.Proofs.Environment.Marks
import Scripting.Proofs.Store.Trees
import Scripting.Proofs.Structured.Position

/-! Two evaluations side by side, one of which may leave marks. They match when they see the same
variables and objects, end alike, and meet only what is known from the start. -/
namespace Scripting

/-- The state without marks. -/
def State.unmarked (s : State) : State := { s with env := s.env.unmarked }

/-- Two states that differ only in marks. -/
def State.Alike (s t : State) : Prop := s.unmarked = t.unmarked

/-- Objects and declarations that an evaluation may meet. -/
structure Known where
  object : ObjectId → Prop
  decl : Decl → Prop

namespace Known

variable {K : Known} {s t : State}

def atom (K : Known) (a : Atom) : Prop := ∀ d, a = .function d → K.decl d

def value (K : Known) (v : Value) : Prop :=
  (∀ e ∈ v.elements, K.object e) ∧ ∀ a, v = .atom a → K.atom a

def node (K : Known) (n : Node) : Prop := ∀ d ∈ n.decls, K.decl d

def place (K : Known) : Place → Prop
  | .variable _ => True
  | .element vector _ => K.object vector

/-- Whatever can be got from known things in a state is known. -/
structure Safe (K : Known) (s : State) : Prop where
  var : ∀ scope ∈ s.env.scopes, ∀ v ∈ scope.vars, ∀ o, v.value = some o → K.object o
  scope : ∀ scope ∈ s.env.scopes, ∀ d ∈ scope.functions, K.decl d
  frame : ∀ f ∈ s.env.frames, K.decl f.decl
  inside : ∀ o, K.object o → K.value (s.heap.store.value o)
  memo : ∀ d o, K.decl d → s.functions.lookup d.id = some o → K.object o
  fresh : ∀ o, s.heap.store.next ≤ o → K.object o

theorem Safe.unmarked (h : K.Safe s) : K.Safe s.unmarked where
  var := by
    intro _ hs
    obtain ⟨scope, hscope, rfl⟩ := Array.mem_map.mp hs
    exact h.var scope hscope
  scope := by
    intro _ hs
    obtain ⟨scope, hscope, rfl⟩ := Array.mem_map.mp hs
    exact h.scope scope hscope
  frame := by
    intro _ hf
    obtain ⟨f, hframe, rfl⟩ := Array.mem_map.mp hf
    exact h.frame f hframe
  inside := h.inside
  memo := h.memo
  fresh := h.fresh

theorem Safe.of_unmarked (h : K.Safe s.unmarked) : K.Safe s where
  var := fun scope hs => h.var scope.unmarked (Array.mem_map.mpr ⟨scope, hs, rfl⟩)
  scope := fun scope hs => h.scope scope.unmarked (Array.mem_map.mpr ⟨scope, hs, rfl⟩)
  frame := fun f hf => h.frame f.unmarked (Array.mem_map.mpr ⟨f, hf, rfl⟩)
  inside := h.inside
  memo := h.memo
  fresh := h.fresh

theorem Safe.congr (h : K.Safe s) (hst : s.Alike t) : K.Safe t :=
  .of_unmarked (hst ▸ h.unmarked)

theorem value_of_atom {a : Atom} (h : ∀ d, a ≠ .function d) : K.value (.atom a) :=
  ⟨by simp [Value.elements], fun b hb d hd => by cases hb; exact absurd hd (h d)⟩

theorem value_none : K.value .none := value_of_atom (a := .none) nofun

end Known

namespace Structured

variable {α β γ δ : Type} {K : Known} {B C : Environment} {x : Eval α} {y : Eval β}
  {f : α → Eval γ} {g : β → Eval δ}

/-- Two results that end alike. -/
def Ended (K : Known) (Q : α → β → Environment → Prop) :
    EStateM.Result Stop State α → EStateM.Result Stop State β → Prop
  | .ok a s, .ok b t => Q a b s.env.bare ∧ s.Alike t ∧ K.Safe s
  | .error e s, .error e' t => e = e' ∧ s.Alike t
  | _, _ => False

/-- Two evaluations match if they end alike from all alike states, where the stacks of the first
are `B` but for variables. The relation `Q` has the values and the stacks after the first. -/
def Matches (K : Known) (B : Environment) (x : Eval α) (y : Eval β)
    (Q : α → β → Environment → Prop) : Prop :=
  ∀ s t, s.env.bare = B → s.Alike t → K.Safe s → Ended K Q (x s) (y t)

/-- Both give the same value, a good one, and the stacks are back where they were. -/
def Steady (good : α → Prop) (B : Environment) (a b : α) (C : Environment) : Prop :=
  a = b ∧ good a ∧ C = B

namespace Matches

variable {P : α → β → Environment → Prop} {Q : γ → δ → Environment → Prop}

theorem bind (hx : Matches K B x y P) (hf : ∀ a b C, P a b C → Matches K C (f a) (g b) Q) :
    Matches K B (x >>= f) (y >>= g) Q := by
  intro s t hB hst hs
  have h := hx s t hB hst hs
  simp only [Bind.bind, EStateM.bind]
  cases hxs : x s <;> cases hyt : y t <;> simp only [hxs, hyt, Ended] at h ⊢
  · exact hf _ _ _ h.1 _ _ rfl h.2.1 h.2.2
  · exact h

theorem imp {P' : α → β → Environment → Prop} (hx : Matches K B x y P)
    (h : ∀ a b C, P a b C → P' a b C) : Matches K B x y P' := by
  intro s t hB hst hs
  have hr := hx s t hB hst hs
  cases hxs : x s <;> cases hyt : y t <;> simp only [hxs, hyt, Ended] at hr ⊢
  · exact ⟨h _ _ _ hr.1, hr.2⟩
  · exact hr

theorem pure {a : α} {b : β} (h : P a b B) : Matches K B (Pure.pure a) (Pure.pure b) P := by
  intro s t hB hst hs
  subst hB
  exact ⟨h, hst, hs⟩

theorem throw {stop : Stop} :
    Matches K B (MonadExcept.throw stop : Eval α) (MonadExcept.throw stop : Eval β) P :=
  fun _ _ _ hst _ => ⟨rfl, hst⟩

theorem raise {e : Error} : Matches K B (Eval.raise e : Eval α) (Eval.raise e : Eval β) P := throw

/-- Goes on after two evaluations that give the same value and keep the stacks. -/
theorem andThen {G : α → Prop} {y : Eval α} {g : α → Eval δ} (hx : Matches K B x y (Steady G B))
    (hf : ∀ a, G a → Matches K B (f a) (g a) Q) : Matches K B (x >>= f) (y >>= g) Q := by
  refine hx.bind fun a b C h => ?_
  obtain ⟨rfl, ha, rfl⟩ := h
  exact hf a ha

/-- What the first evaluation reads when the second one reads nothing. -/
theorem readMarks {r : State → α} {y : Eval δ}
    (h : ∀ s, s.env.bare = B → Matches K B (f (r s)) y Q) :
    Matches K B (Eval.read r >>= f) y Q :=
  fun s t hB hst hs => h s hB s t hB hst hs

/-- The first evaluation changes marks, the second one nothing. -/
theorem mark {m : Environment → Environment} {f : Unit → Eval γ} {y : Eval δ}
    (hm : ∀ e, (m e).unmarked = e.unmarked) (hb : ∀ e, (m e).bare = m e.bare)
    (h : Matches K (m B) (f ()) y Q) : Matches K B (Eval.modifyEnv m >>= f) y Q := by
  intro s t hB hst hs
  have hm' : s.Alike { s with env := m s.env } := by simp [State.Alike, State.unmarked, hm]
  exact h _ t (by rw [hb, hB]) (hm'.symm.trans hst) (hs.congr hm')

end Matches

/-- An evaluation that neither sees nor leaves marks. -/
def Blind (x : Eval α) : Prop := ∀ s : State,
  x s.unmarked =
    match x s with
    | .ok a s' => .ok a s'.unmarked
    | .error e s' => .error e s'.unmarked

/-- A blind evaluation matches itself. -/
theorem Blind.matches {P : α → α → Environment → Prop} (hx : Blind x)
    (hP : ∀ s a s', s.env.bare = B → K.Safe s → x s = .ok a s' → P a a s'.env.bare ∧ K.Safe s') :
    Matches K B x x P := by
  intro s t hB hst hs
  have hxs := hx s
  have hxt := hx t
  rw [show t.unmarked = s.unmarked from hst.symm, hxs] at hxt
  cases h : x s <;> cases h' : x t <;>
    simp only [h, h', Ended, reduceCtorEq, EStateM.Result.ok.injEq,
      EStateM.Result.error.injEq] at hxt ⊢
  · obtain ⟨rfl, halike⟩ := hxt
    obtain ⟨hp, hsafe⟩ := hP s _ _ hB hs h
    exact ⟨hp, halike, hsafe⟩
  · exact hxt

end Structured
end Scripting
