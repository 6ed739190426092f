import Mathlib.Tactic.Common
import Scripting.Proofs.Environment.Resolution
import Scripting.Proofs.Host.References

/-! A declaration without a value. The variable is the innermost scope's own, and it has a value
exactly if that scope already bound the name to one. -/
namespace Scripting

/-! ### Declared names -/

namespace Scope

variable {x : Scope} {name : String}

/-- What the scope holds under a name. -/
def held? (x : Scope) (name : String) : Option ObjectId :=
  (x.indexOf? name).bind fun j => x.vars[j]?.bind (·.value)

theorem exists_declared (x : Scope) (name : String) :
    ∃ j, (x.declared name).indexOf? name = some j ∧
    (x.declared name).vars[j]? = some ⟨name, x.held? name⟩ := by
  cases hj : x.indexOf? name with
  | some j =>
    obtain ⟨⟨_, value⟩, hv, rfl⟩ :=
      Option.map_eq_some_iff.mp (getElem?_names.symm.trans (indexOf?_some hj))
    exact ⟨j, by simp [declared, hj], by simp [declared, held?, hj, hv]⟩
  | none =>
    refine ⟨x.vars.size, ?_, by simp [declared, held?, hj]⟩
    have hnone : x.vars.findIdx? (·.name == name) = none := hj
    simp [declared, indexOf?, Array.findIdx?_push, hnone]

end Scope

namespace Environment

variable {e : Environment} {ss : Array Scope} {x : Scope} {name : String}

theorem lookup_push {j : Nat} (h : e.scopes = ss.push x) (hj : x.indexOf? name = some j) :
    e.lookup name = some ⟨ss.size, j⟩ := by
  simp [lookup, h, lookupBelow, hj]

/-- A declared name stands for a variable of the innermost scope, which has the value that it had
there. -/
theorem lookup_declare (he : 0 < e.scopes.size) (name : String) : ∃ p, p.scope = e.currentIndex ∧
    (e.declare name).2.lookup name = some p ∧
    (e.declare name).2.variableAt? p = some ⟨name, e.current.held? name⟩ := by
  obtain ⟨ss, x, hx⟩ := Array.exists_push_of_size_pos he
  obtain ⟨j, hj, hv⟩ := x.exists_declared name
  have hscopes : (e.declare name).2.scopes = ss.push (x.declared name) := by rw [declare_push hx]
  refine ⟨⟨ss.size, j⟩, by simp [currentIndex, hx], lookup_push hscopes hj, ?_⟩
  simp [variableAt?, hscopes, current, hx, hv]

end Environment

namespace State

variable {s t u : State} {name : String} {p : Slot}

/-! ### Variables without a value -/

/-- The variable that the name stands for has no value, so that every way of reading it fails. -/
structure Unreadable (s : State) (name : String) : Prop where
  get : ∀ span, s.env.get name span = .error { kind := .uninitializedVariable, span }
  reference : ∀ ev span ident, ident.name = name → Eval.reference ev (.var span ident) s =
    .error (.raised { kind := .uninitializedVariable, span }) s
  value : ∀ k span ident, ident.name = name → s.isInterrupted = false → ∃ t, s.Noted t ∧
    Eval.node (k + 1) (.var span ident) s =
      .error (.raised { kind := .uninitializedVariable, span := ident.span <|> span }) t

theorem denotes_of_lookup {span : Option Span} {ident : Ident}
    (hb : s.builtins.contains ident.name = false) (hp : s.env.lookup ident.name = some p) :
    s.denotes (.var span ident) = true := by
  simp [denotes, hb, Environment.contains, hp]

theorem unreadable_of_lookup (hb : s.builtins.contains name = false)
    (hp : s.env.lookup name = some p) (hv : s.env.variableAt? p = some ⟨name, none⟩) :
    s.Unreadable name where
  get := fun _ => Environment.get_eq_uninitialized_iff.mpr ⟨p, hp, hv⟩
  reference := by
    rintro ev span ident rfl
    rw [Eval.reference_variable (denotes_of_lookup hb hp) hp, Eval.load_variable]
    simp [Place.content, hv]
  value := by
    rintro k span ident rfl hflag
    obtain ⟨t, hnoted, hnode⟩ := Eval.node_noted hflag (.var span ident) k
    have hdenotes : t.denotes (.var span ident) = true :=
      (Eval.denotes_noted hnoted).trans (denotes_of_lookup hb hp)
    have henv : t.env = s.env := by rw [hnoted]
    refine ⟨t, hnoted, ?_⟩
    rw [hnode, Eval.form, Eval.name_variable hdenotes (by rw [henv, hp])]
    simp [Place.content, henv, hv]

/-- What the innermost scope held under the name is gone: the name stands for a variable of that
scope without a value, it cannot be read while the variable has none, and the object is bound once
less. -/
structure Forgotten (name : String) (s t : State) : Prop where
  slot : ∃ p, p.scope = s.env.currentIndex ∧ t.env.lookup name = some p ∧
    t.env.variableAt? p = some ⟨name, none⟩ ∧
    ∀ u : State, u.builtins = s.builtins → u.env.lookup name = some p →
      u.env.variableAt? p = some ⟨name, none⟩ → u.Unreadable name
  released : ∀ o, s.env.current.held? name = some o →
    t.heap.store.bindings o + 1 = s.heap.store.bindings o

/-- The name stands for a variable of the innermost scope with the value that it had there, and
objects are bound as often as before. -/
structure Redeclared (name : String) (s t : State) : Prop where
  slot : ∃ p, p.scope = s.env.currentIndex ∧ t.env.lookup name = some p ∧
    t.env.variableAt? p = some ⟨name, s.env.current.held? name⟩
  bindings : ∀ o, t.heap.store.bindings o = s.heap.store.bindings o
  builtins : t.builtins = s.builtins

namespace Redeclared

theorem forgotten_iff (h : Redeclared name s t) (hb : s.builtins.contains name = false) :
    Forgotten name s t ↔ s.env.current.held? name = none := by
  obtain ⟨p, hscope, hp, hv⟩ := h.slot
  constructor
  · intro hforgotten
    obtain ⟨q, -, hq, hnone, -⟩ := hforgotten.slot
    cases hp.symm.trans hq
    exact congrArg Variable.value (Option.some.inj (hv.symm.trans hnone))
  · intro hnone
    rw [hnone] at hv
    refine ⟨⟨p, hscope, hp, hv, fun u hbuiltins => ?_⟩, fun o ho => ?_⟩
    · exact unreadable_of_lookup (by rw [hbuiltins, hb])
    · rw [hnone] at ho
      cases ho

/-- A value that the scope held can be read as before. -/
theorem reference {o : ObjectId} {ident : Ident} (h : Redeclared ident.name s t)
    (hb : s.builtins.contains ident.name = false) (ho : s.env.current.held? ident.name = some o)
    (ev : Node → Eval ObjectId) (span : Option Span) :
    Eval.reference ev (.var span ident) t = .ok o t := by
  obtain ⟨p, -, hp, hv⟩ := h.slot
  rw [Eval.reference_variable (denotes_of_lookup (by rw [h.builtins, hb]) hp) hp,
    Eval.load_variable]
  simp [Place.content, hv, ho]

end Redeclared

/-- A declaration without a value does no more than declare the name. -/
theorem node_letVar_none (hs : 0 < s.env.scopes.size) (hflag : s.isInterrupted = false) (k : Nat)
    (span : Option Span) (ident : Ident) (shape : Option Shape) :
    ∃ o t, Eval.node (k + 1) (.letVar span ident shape none) s = .ok o t ∧
      Redeclared ident.name s t := by
  obtain ⟨u, hnoted, hnode⟩ := Eval.node_noted hflag (.letVar span ident shape none) k
  refine ⟨(u.heap.alloc .none).1,
    { u with env := (u.env.declare ident.name).2, heap := (u.heap.alloc .none).2 }, hnode, ?_⟩
  rw [hnoted]
  refine ⟨Environment.lookup_declare hs ident.name, fun o => ?_, rfl⟩
  simp only [Heap.alloc, Store.bindings_push]
  split
  · next ho => simp [ho, Store.bindings, Store.get?, Store.next]
  · rfl

end State

/-! ### Declarations without a value -/

/-- A declaration without a value leaves the name without one exactly if the innermost scope did not
bind it yet. What that scope held under the name, it still holds, and reading the name gives it. -/
theorem bare_let_forgets_iff_unbound {s : State} (hs : s.env.Rooted)
    (hflag : s.isInterrupted = false) (ident : Ident) (hb : s.builtins.contains ident.name = false)
    (k : Nat) (span : Option Span) (shape : Option Shape) :
    ∃ o t, Eval.node (k + 1) (.letVar span ident shape none) s = .ok o t ∧
      (∃ p, p.scope = s.env.currentIndex ∧ t.env.lookup ident.name = some p ∧
        t.env.variableAt? p = some ⟨ident.name, s.env.current.held? ident.name⟩) ∧
      (∀ q, t.heap.store.bindings q = s.heap.store.bindings q) ∧
      (State.Forgotten ident.name s t ↔ s.env.current.held? ident.name = none) ∧
      ∀ q, s.env.current.held? ident.name = some q →
        ∀ ev span, Eval.reference ev (.var span ident) t = .ok q t := by
  obtain ⟨o, t, hnode, ht⟩ := State.node_letVar_none hs.size_pos hflag k span ident shape
  exact ⟨o, t, hnode, ht.slot, ht.bindings, ht.forgotten_iff hb, fun q hq => ht.reference hb hq⟩

/-- A variable of the global scope that is bound. -/
def oneBound : State :=
  ((Host.eval (.letVar none ⟨"x", none⟩ none (some (.literal none (.int 1))))).run
    (Moment.start {} .standard).host).2.state

/-- In a block the declaration is a new one, whatever the scopes around it hold. -/
theorem bare_let_forgets_iff_unbound_block :
    let s : State := { oneBound with env := oneBound.env.enter .block [] }
    s.env.contains "x" = true ∧
      ∃ o t, Eval.node 1 (.letVar none ⟨"x", none⟩ none none) s = .ok o t ∧
        State.Forgotten "x" s t := by
  intro s
  have hrooted : s.env.scopes[0]?.map (·.kind) = some .global := by decide +kernel
  have hflag : s.isInterrupted = false := by decide +kernel
  have hbuiltin : s.builtins.contains "x" = false := by decide +kernel
  have hcontains : s.env.contains "x" = true := by decide +kernel
  have hheld : s.env.current.held? "x" = none := by decide +kernel
  generalize s = s at *
  obtain ⟨o, t, hnode, -, -, hforgotten, -⟩ :=
    bare_let_forgets_iff_unbound hrooted hflag ⟨"x", none⟩ hbuiltin 0 none none
  exact ⟨hcontains, o, t, hnode, hforgotten.mpr hheld⟩

/-- Declared again in its own scope, the variable still has its value. -/
theorem bare_let_of_bound_keeps_value :
    ∃ o t q, Eval.node 1 (.letVar none ⟨"x", none⟩ none none) oneBound = .ok o t ∧
      Eval.reference (Eval.node 1) (.var none ⟨"x", none⟩) t = .ok q t ∧
      (oneBound.heap.store.value q).int? = some 1 ∧ ¬ State.Forgotten "x" oneBound t := by
  have hopen : 0 < oneBound.env.scopes.size := by decide +kernel
  have hflag : oneBound.isInterrupted = false := by decide +kernel
  have hbuiltin : oneBound.builtins.contains "x" = false := by decide +kernel
  have hheld : oneBound.env.current.held? "x" = some 0 := by decide +kernel
  have hvalue : (oneBound.heap.store.value 0).int? = some 1 := by decide +kernel
  generalize oneBound = s at *
  obtain ⟨o, t, hnode, ht⟩ := State.node_letVar_none hopen hflag 0 none ⟨"x", none⟩ none
  refine ⟨o, t, 0, hnode, ht.reference hbuiltin hheld _ none, hvalue, fun hforgotten => ?_⟩
  rw [ht.forgotten_iff hbuiltin, hheld] at hforgotten
  cases hforgotten

end Scripting
