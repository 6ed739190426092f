import Mathlib.Tactic.Common
import Scripting.Proofs.Eval.Calls
import Scripting.Proofs.Host.Stacks

/-! What a name stands for on any stacks that can be built, and that a scope which is closed again
leaves everything as it was: what names stand for, what variables hold, and how often objects are
bound. -/
namespace Scripting

/-! ### Operations -/

/-- What can be done to the stacks. -/
inductive Operation where
  | enter (kind : ScopeKind) (functions : List Decl)
  | leave
  | declare (name : String)
  | define (name : String) (o : ObjectId)
  | assign (p : Slot) (o : ObjectId)
  | mark (i : Nat) (isSkipped : Bool) (last : Option ObjectId)
  | skipFrom (i : Nat)
  | pushFrame (decl : Decl)
  | popFrame
  | modifyFrame (f : Frame → Frame)
  | pushLoop (scopeIndex : Nat)
  | popLoop
  | modifyLoop (f : LoopState → LoopState)
  | breakLoopsFrom (depth : Nat)
  | restore (c : Checkpoint)

namespace Operation

/-- The stacks and the objects after an operation. A call that would be one too many is not
begun. -/
def apply (op : Operation) (e : Environment) (s : Store) : Environment × Store :=
  match op with
  | .enter kind functions => (e.enter kind functions, s)
  | .leave => e.leave s
  | .declare name => ((e.declare name).2, s)
  | .define name o => e.define s name o
  | .assign p o => e.assign s p o
  | .mark i isSkipped last => (e.modifyScope i ({ · with isSkipped, last }), s)
  | .skipFrom i => (e.skipFrom i, s)
  | .pushFrame decl => (if (e.depthError? none).isSome then e else e.pushFrame decl, s)
  | .popFrame => (e.popFrame.2, s)
  | .modifyFrame f => (e.modifyFrame f, s)
  | .pushLoop scopeIndex => (e.pushLoop scopeIndex, s)
  | .popLoop => (e.popLoop.2, s)
  | .modifyLoop f => (e.modifyLoop f, s)
  | .breakLoopsFrom depth => (e.breakLoopsFrom depth, s)
  | .restore c => e.restore s c

def run : List Operation → Environment → Store → Environment × Store
  | [], e, s => (e, s)
  | op :: ops, e, s => run ops (op.apply e s).1 (op.apply e s).2

theorem run_append (ops rest : List Operation) (e : Environment) (s : Store) :
    run (ops ++ rest) e s = run rest (run ops e s).1 (run ops e s).2 := by
  induction ops generalizing e s with
  | nil => rfl
  | cons op ops ih => exact ih _ _

end Operation

/-! ### Names within a scope -/

namespace Environment

variable {e : Environment} {s : Store} {name : String} {i : Nat}

/-- No scope has two variables of one name. -/
def Distinct (e : Environment) : Prop :=
  ∀ (i : Nat) (x : Scope), e.scopes[i]? = some x → x.names.Nodup

namespace Distinct

theorem modifyScope {f : Scope → Scope} (h : e.Distinct)
    (hf : ∀ x, e.scopes[i]? = some x → x.names.Nodup → (f x).names.Nodup) :
    (e.modifyScope i f).Distinct := by
  intro j y hy
  simp only [Environment.modifyScope, Array.getElem?_modify] at hy
  split at hy
  · next hij =>
    subst hij
    obtain ⟨x, hx, rfl⟩ := Option.map_eq_some_iff.mp hy
    exact hf x hx (h _ x hx)
  · exact h j y hy

theorem leave (h : e.Distinct) : (e.leave s).1.Distinct := by
  rw [leave_fst]
  split
  · intro j x hx
    rw [Array.getElem?_pop] at hx
    split at hx
    · exact h j x hx
    · cases hx
  · exact h

theorem leaveMany {n : Nat} (h : e.Distinct) : (Environment.leaveMany n e s).1.Distinct := by
  induction n generalizing e s with
  | zero => exact h
  | succ n ih => exact ih h.leave

theorem restore {c : Checkpoint} (h : e.Distinct) : (e.restore s c).1.Distinct := by
  have hcut : ({ e with loops := e.loops.take c.loops, frames := e.frames.take c.frames } :
      Environment).Distinct := h
  exact hcut.leaveMany.modifyScope fun _ _ hx => hx

theorem enter {kind : ScopeKind} {functions : List Decl} (h : e.Distinct) :
    (e.enter kind functions).Distinct := by
  intro j x hx
  rcases getElem?_push_cases hx with ⟨hold, -⟩ | ⟨-, rfl⟩
  · exact h j x hold
  · exact List.nodup_nil

/-- A name is added only to a scope that does not have it. -/
theorem declare (h : e.Distinct) : (e.declare name).2.Distinct := by
  simp only [Environment.declare]
  cases hindex : e.current.indexOf? name with
  | some j => exact h
  | none =>
    refine h.modifyScope fun x hx hnodup => ?_
    have hcurrent : e.current = x := by
      rw [current, Array.back?_eq_getElem?]
      exact congrArg (Option.getD · default) hx
    have hnew : name ∉ x.names := Scope.indexOf?_none (hcurrent ▸ hindex)
    have hnames : ({ x with vars := x.vars.push { name } } : Scope).names = x.names ++ [name] := by
      simp [Scope.names]
    rw [hnames, List.nodup_append]
    refine ⟨hnodup, List.nodup_singleton name, fun a ha b hb hab => ?_⟩
    rw [List.mem_singleton] at hb
    exact hnew (hb ▸ hab ▸ ha)

theorem assign {p : Slot} {o : ObjectId} (h : e.Distinct) : (e.assign s p o).1.Distinct := by
  simp only [Environment.assign]
  split
  · exact h
  · refine h.modifyScope fun x _ hnodup => ?_
    rw [Balanced.names_modify]
    exact hnodup

theorem skipFrom (h : e.Distinct) : (e.skipFrom i).Distinct := by
  intro j x hx
  simp only [Environment.skipFrom, Array.getElem?_mapIdx] at hx
  obtain ⟨y, hy, rfl⟩ := Option.map_eq_some_iff.mp hx
  split <;> exact h j y hy

end Distinct

end Environment

namespace Operation

open Environment

variable {op : Operation} {e : Environment} {s : Store}

theorem distinct_apply (h : e.Distinct) : (op.apply e s).1.Distinct := by
  cases op with
  | enter => exact h.enter
  | leave => exact h.leave
  | declare => exact h.declare
  | define => exact h.declare.assign
  | assign => exact h.assign
  | mark => exact h.modifyScope fun _ _ hx => hx
  | skipFrom => exact h.skipFrom
  | pushFrame =>
    simp only [apply]
    split <;> exact h
  | modifyLoop =>
    simp only [apply, Environment.modifyLoop]
    split <;> exact h
  | restore => exact h.restore
  | _ => exact h

theorem rooted_apply (h : e.Rooted) : (op.apply e s).1.Rooted := by
  cases op with
  | enter => exact Extends.enter.rooted h
  | leave => exact h.leave
  | declare => exact Balanced.declare.toExtends.rooted h
  | define => exact Balanced.define.toExtends.rooted h
  | assign => exact Balanced.assign.toExtends.rooted h
  | mark => exact h.of_unmarked (unmarked_modifyScope_of_marks fun _ => rfl)
  | skipFrom => exact h.of_unmarked unmarked_skipFrom
  | pushFrame =>
    simp only [apply]
    split <;> exact h
  | modifyLoop =>
    simp only [apply, Environment.modifyLoop]
    split <;> exact h
  | restore => exact h.restore
  | _ => exact h

/-- What every operation keeps holds after any number of them. -/
theorem run_induct {P : Environment → Prop} (hP : ∀ op e s, P e → P (apply op e s).1)
    (ops : List Operation) (h : P e) : P (run ops e s).1 := by
  induction ops generalizing e s with
  | nil => exact h
  | cons op ops ih => exact ih (hP op e s h)

end Operation

/-! ### What names stand for -/

namespace Scope

variable {x : Scope} {name : String} {d : Decl}

/-- The declaration is the scope's first one of the name. -/
def First (x : Scope) (name : String) (d : Decl) : Prop :=
  ∃ before after, x.functions = before ++ d :: after ∧ d.name = name ∧ ∀ f ∈ before, f.name ≠ name

theorem find?_eq_some_iff_first : x.functions.find? (·.name == name) = some d ↔ x.First name d := by
  rw [List.find?_eq_some_iff_append, First]
  constructor
  · rintro ⟨hname, before, after, hsplit, hbefore⟩
    exact ⟨before, after, hsplit, by simpa using hname, by simpa using hbefore⟩
  · rintro ⟨before, after, hsplit, hname, hbefore⟩
    exact ⟨by simpa using hname, before, after, hsplit, by simpa using hbefore⟩

theorem indexOf?_eq_none_iff : x.indexOf? name = none ↔ name ∉ x.names := by
  refine ⟨indexOf?_none, fun hnot => ?_⟩
  cases hj : x.indexOf? name with
  | none => rfl
  | some j => exact absurd (List.mem_of_getElem? (indexOf?_some hj)) hnot

/-- In a scope with distinct names there is only one variable to find. -/
theorem indexOf?_eq_some_iff {j : Nat} (h : x.names.Nodup) :
    x.indexOf? name = some j ↔ x.names[j]? = some name := by
  refine ⟨indexOf?_some, fun hj => ?_⟩
  cases hk : x.indexOf? name with
  | none => exact absurd (List.mem_of_getElem? hj) (indexOf?_none hk)
  | some k =>
    have hlt := (List.getElem?_eq_some_iff.mp hj).1
    rw [(List.getElem?_inj hlt h).mp (hj.trans (indexOf?_some hk).symm)]

end Scope

namespace Environment

variable {α : Type} {e : Environment} {name : String} {n i : Nat} {p : Slot} {d : Decl}
  {f : Scope → Option α} {a : α}

/-- What the innermost scope has that has anything, of the `n` outermost ones, and its position. -/
def innermost? (e : Environment) (f : Scope → Option α) : Nat → Option (Nat × α)
  | 0 => none
  | n + 1 =>
    match e.scopes[n]?.bind f with
    | some a => some (n, a)
    | none => e.innermost? f n

theorem innermost?_eq_some_iff : e.innermost? f n = some (i, a) ↔
    i < n ∧ e.scopes[i]?.bind f = some a ∧ ∀ j, i < j → j < n → e.scopes[j]?.bind f = none := by
  induction n with
  | zero => simp [innermost?]
  | succ n ih =>
    rw [innermost?]
    cases hn : e.scopes[n]?.bind f with
    | some b =>
      constructor
      · rintro ⟨⟩
        exact ⟨Nat.lt_succ_self _, hn, fun j hnj hjn => absurd hnj (by omega)⟩
      · rintro ⟨hlt, ha, hinner⟩
        rcases Nat.lt_succ_iff_lt_or_eq.mp hlt with hlt | rfl
        · rw [hinner n hlt (Nat.lt_succ_self n)] at hn
          cases hn
        · rw [ha] at hn
          cases hn
          rfl
    | none =>
      rw [ih]
      constructor
      · rintro ⟨hlt, ha, hinner⟩
        refine ⟨Nat.lt_succ_of_lt hlt, ha, fun j hij hjn => ?_⟩
        rcases Nat.lt_succ_iff_lt_or_eq.mp hjn with hjn | rfl
        · exact hinner j hij hjn
        · exact hn
      · rintro ⟨hlt, ha, hinner⟩
        refine ⟨?_, ha, fun j hij hjn => hinner j hij (Nat.lt_succ_of_lt hjn)⟩
        rcases Nat.lt_succ_iff_lt_or_eq.mp hlt with hlt | rfl
        · exact hlt
        · rw [ha] at hn
          cases hn

theorem innermost?_eq_none_iff : e.innermost? f n = none ↔ ∀ i < n, e.scopes[i]?.bind f = none := by
  induction n with
  | zero => simp [innermost?]
  | succ n ih =>
    rw [Nat.forall_lt_succ_right, ← ih, innermost?]
    cases e.scopes[n]?.bind f <;> simp

/-- Beyond the innermost scope there is nothing to find. -/
theorem bind_eq_none_of_size_le (h : e.scopes.size ≤ i) : e.scopes[i]?.bind f = none := by
  rw [Array.getElem?_eq_none h, Option.bind_none]

theorem innermost?_size_eq_some_iff : e.innermost? f e.scopes.size = some (i, a) ↔
    e.scopes[i]?.bind f = some a ∧ ∀ j, i < j → e.scopes[j]?.bind f = none := by
  rw [innermost?_eq_some_iff]
  constructor
  · rintro ⟨-, ha, hinner⟩
    refine ⟨ha, fun j hij => ?_⟩
    by_cases hj : j < e.scopes.size
    · exact hinner j hij hj
    · exact bind_eq_none_of_size_le (Nat.le_of_not_lt hj)
  · rintro ⟨ha, hinner⟩
    obtain ⟨x, hx, -⟩ := Option.bind_eq_some_iff.mp ha
    exact ⟨(Array.getElem?_eq_some_iff.mp hx).1, ha, fun j hij _ => hinner j hij⟩

theorem innermost?_size_eq_none_iff :
    e.innermost? f e.scopes.size = none ↔ ∀ i : Nat, e.scopes[i]?.bind f = none := by
  rw [innermost?_eq_none_iff]
  refine ⟨fun h i => ?_, fun h i _ => h i⟩
  by_cases hi : i < e.scopes.size
  · exact h i hi
  · exact bind_eq_none_of_size_le (Nat.le_of_not_lt hi)

theorem lookupBelow_eq : e.lookupBelow name n =
    (e.innermost? (·.indexOf? name) n).map fun x => ⟨x.1, x.2⟩ := by
  induction n with
  | zero => rfl
  | succ n ih =>
    rw [lookupBelow, innermost?, ih]
    cases e.scopes[n]?.bind (·.indexOf? name) <;> rfl

theorem findFunctionBelow_eq : e.findFunctionBelow name n =
    (e.innermost? (·.functions.find? (·.name == name)) n).map (·.2) := by
  induction n with
  | zero => rfl
  | succ n ih =>
    rw [findFunctionBelow, innermost?, ih]
    cases e.scopes[n]?.bind (·.functions.find? (·.name == name)) <;> rfl

/-- A scope has a variable of the name. -/
def Declares (e : Environment) (name : String) (i : Nat) : Prop :=
  ∃ x, e.scopes[i]? = some x ∧ name ∈ x.names

/-- A scope has a function of the name. -/
def DeclaresFunction (e : Environment) (name : String) (i : Nat) : Prop :=
  ∃ x, e.scopes[i]? = some x ∧ ∃ d ∈ x.functions, d.name = name

/-- The slot has a variable of the name, and no scope further in has one. -/
structure Resolves (e : Environment) (name : String) (p : Slot) : Prop where
  declared : ∃ v, e.variableAt? p = some v ∧ v.name = name
  innermost : ∀ i, p.scope < i → ¬ e.Declares name i

/-- The declaration is the first of the name in some scope, and no scope further in has one. -/
structure Finds (e : Environment) (name : String) (d : Decl) : Prop where
  exists_scope : ∃ i x, e.scopes[i]? = some x ∧ x.First name d ∧
    ∀ j, i < j → ¬ e.DeclaresFunction name j

theorem bind_indexOf?_eq_none_iff :
    e.scopes[i]?.bind (·.indexOf? name) = none ↔ ¬ e.Declares name i := by
  cases hx : e.scopes[i]? with
  | none => simp [Declares, hx]
  | some x => simp [Declares, hx, Scope.indexOf?_eq_none_iff]

theorem bind_find?_eq_none_iff :
    e.scopes[i]?.bind (·.functions.find? (·.name == name)) = none ↔
      ¬ e.DeclaresFunction name i := by
  cases hx : e.scopes[i]? with
  | none => simp [DeclaresFunction, hx]
  | some x => simp [DeclaresFunction, hx]

theorem Distinct.bind_indexOf?_eq_some_iff {j : Nat} (h : e.Distinct) :
    e.scopes[i]?.bind (·.indexOf? name) = some j ↔
      ∃ v, e.variableAt? ⟨i, j⟩ = some v ∧ v.name = name := by
  cases hx : e.scopes[i]? with
  | none => simp [variableAt?, hx]
  | some x =>
    rw [Option.bind_some, Scope.indexOf?_eq_some_iff (h i x hx), Scope.getElem?_names,
      Option.map_eq_some_iff]
    simp only [variableAt?, hx, Option.bind_some]

theorem lookup_eq_none_iff : e.lookup name = none ↔ ∀ i, ¬ e.Declares name i := by
  simp only [lookup, lookupBelow_eq, Option.map_eq_none_iff, innermost?_size_eq_none_iff,
    bind_indexOf?_eq_none_iff]

theorem Distinct.lookup_eq_some_iff (h : e.Distinct) :
    e.lookup name = some p ↔ e.Resolves name p := by
  obtain ⟨i, j⟩ := p
  have hfound : e.lookup name = some ⟨i, j⟩ ↔
      e.innermost? (·.indexOf? name) e.scopes.size = some (i, j) := by
    simp [lookup, lookupBelow_eq]
  rw [hfound, innermost?_size_eq_some_iff, h.bind_indexOf?_eq_some_iff]
  simp only [bind_indexOf?_eq_none_iff]
  exact ⟨fun hp => ⟨hp.1, hp.2⟩, fun hp => ⟨hp.declared, hp.innermost⟩⟩

theorem findFunction_eq_none_iff :
    e.findFunction name = none ↔ ∀ i, ¬ e.DeclaresFunction name i := by
  simp only [findFunction, findFunctionBelow_eq, Option.map_eq_none_iff,
    innermost?_size_eq_none_iff, bind_find?_eq_none_iff]

theorem findFunction_eq_some_iff : e.findFunction name = some d ↔ e.Finds name d := by
  have hfound : e.findFunction name = some d ↔
      ∃ i, e.innermost? (·.functions.find? (·.name == name)) e.scopes.size = some (i, d) := by
    simp [findFunction, findFunctionBelow_eq]
  rw [hfound]
  constructor
  · rintro ⟨i, hi⟩
    obtain ⟨hd, hinner⟩ := innermost?_size_eq_some_iff.mp hi
    obtain ⟨x, hx, hfirst⟩ := Option.bind_eq_some_iff.mp hd
    exact ⟨i, x, hx, Scope.find?_eq_some_iff_first.mp hfirst,
      fun j hj => bind_find?_eq_none_iff.mp (hinner j hj)⟩
  · rintro ⟨i, x, hx, hfirst, hinner⟩
    refine ⟨i, innermost?_size_eq_some_iff.mpr
      ⟨?_, fun j hj => bind_find?_eq_none_iff.mpr (hinner j hj)⟩⟩
    rw [hx, Option.bind_some, Scope.find?_eq_some_iff_first.mpr hfirst]

/-- What a name stands for, as a variable and as a function. -/
structure Resolution (e : Environment) (name : String) : Prop where
  slot : ∀ p, e.lookup name = some p ↔ e.Resolves name p
  noSlot : e.lookup name = none ↔ ∀ i, ¬ e.Declares name i
  bound : ∀ span o, e.get name span = .ok o ↔
    ∃ p, e.Resolves name p ∧ e.variableAt? p = some ⟨name, some o⟩
  uninitialized : ∀ span, e.get name span = .error { kind := .uninitializedVariable, span } ↔
    ∃ p, e.Resolves name p ∧ e.variableAt? p = some ⟨name, none⟩
  undefined : ∀ span, e.get name span = .error (undeclared name span) ↔ ∀ i, ¬ e.Declares name i
  function : ∀ d, e.findFunction name = some d ↔ e.Finds name d
  noFunction : e.findFunction name = none ↔ ∀ i, ¬ e.DeclaresFunction name i

theorem get_eq_ok_iff {span : Option Span} {o : ObjectId} : e.get name span = .ok o ↔
    ∃ p, e.lookup name = some p ∧ e.variableAt? p = some ⟨name, some o⟩ := by
  cases hp : e.lookup name with
  | none => simp [get, hp]
  | some p =>
    obtain ⟨⟨_, value⟩, hv, rfl⟩ := variableAt?_of_lookup hp
    cases value <;> simp [get, hp, hv]

theorem get_eq_uninitialized_iff {span : Option Span} :
    e.get name span = .error { kind := .uninitializedVariable, span } ↔
      ∃ p, e.lookup name = some p ∧ e.variableAt? p = some ⟨name, none⟩ := by
  cases hp : e.lookup name with
  | none => simp [get, hp, undeclared, Error.hinted]
  | some p =>
    obtain ⟨⟨_, value⟩, hv, rfl⟩ := variableAt?_of_lookup hp
    cases value <;> simp [get, hp, hv]

theorem get_eq_undeclared_iff {span : Option Span} :
    e.get name span = .error (undeclared name span) ↔ e.lookup name = none := by
  cases hp : e.lookup name with
  | none => simp [get, hp]
  | some p =>
    obtain ⟨⟨_, value⟩, hv, rfl⟩ := variableAt?_of_lookup hp
    cases value <;> simp [get, hp, hv, undeclared, Error.hinted]

theorem Distinct.resolution (h : e.Distinct) (name : String) : e.Resolution name where
  slot := fun _ => h.lookup_eq_some_iff
  noSlot := lookup_eq_none_iff
  bound := by
    intro span o
    simp only [get_eq_ok_iff, h.lookup_eq_some_iff]
  uninitialized := by
    intro span
    simp only [get_eq_uninitialized_iff, h.lookup_eq_some_iff]
  undefined := by
    intro span
    rw [get_eq_undeclared_iff, lookup_eq_none_iff]
  function := fun _ => findFunction_eq_some_iff
  noFunction := findFunction_eq_none_iff

end Environment

/-! ### Scopes that are closed again -/

namespace Scope

/-- The scope with a variable of the name, a new one unless it has one. -/
def declared (x : Scope) (name : String) : Scope :=
  match x.indexOf? name with
  | some _ => x
  | none => { x with vars := x.vars.push { name } }

theorem objects_declared (x : Scope) (name : String) : (x.declared name).objects = x.objects := by
  unfold declared
  split
  · rfl
  · simp [objects]

end Scope

namespace Store

variable {b s : Store} {os ps : List ObjectId} {o : ObjectId}

/-- The second store is the first one, but for one more binding of an object each time it is in the
list. -/
structure Retained (b : Store) (os : List ObjectId) (s : Store) : Prop where
  next : s.next = b.next
  object : ∀ q, s.get? q = (b.get? q).map fun x => { x with bindings := x.bindings + os.count q }

namespace Retained

theorem refl : b.Retained [] b where
  next := rfl
  object := fun q => by simp

theorem congr (h : b.Retained os s) (hcount : ∀ q, os.count q = ps.count q) : b.Retained ps s where
  next := h.next
  object := fun q => hcount q ▸ h.object q

theorem retain (h : b.Retained os s) : b.Retained (o :: os) (s.retain o) where
  next := next_retain.trans h.next
  object := by
    intro q
    rw [Store.retain, get?_modify, h.object]
    by_cases hq : q = o
    · subst hq
      simp [Function.comp_def, Nat.add_assoc]
    · simp [hq, Ne.symm hq]

theorem release (h : b.Retained (o :: os) s) : b.Retained os (s.release o) where
  next := next_release.trans h.next
  object := by
    intro q
    rw [Store.release, get?_modify, h.object]
    by_cases hq : q = o
    · subst hq
      simp [Function.comp_def]
    · simp [hq, Ne.symm hq]

theorem foldl_release (h : b.Retained (ps ++ os) s) : b.Retained os (ps.foldl Store.release s) := by
  induction ps generalizing s with
  | nil => exact h
  | cons o ps ih => exact ih h.release

/-- With nothing more bound it is the same store. -/
theorem eq (h : b.Retained [] s) : s = b := by
  have hget : ∀ q, s.get? q = b.get? q := fun q => by simpa using h.object q
  have hobjects : s.objects = b.objects := by
    ext i hi hj : 1
    · exact h.next
    · simpa [get?, hi, hj] using hget i
  cases s
  cases b
  exact congrArg Store.mk hobjects

end Retained

end Store

namespace Environment

variable {e : Environment} {b s : Store} {ss : Array Scope} {x : Scope}
  {name : String} {o : ObjectId}

/-- Declaring a name changes the innermost scope alone. -/
theorem declare_push (h : e.scopes = ss.push x) (name : String) :
    (e.declare name).2 = { e with scopes := ss.push (x.declared name) } := by
  have hcurrent : e.current = x := by simp [current, h]
  have hindex : e.currentIndex = ss.size := by simp [currentIndex, h]
  simp only [declare, hcurrent, hindex, Scope.declared]
  cases x.indexOf? name with
  | some j => rw [← h]
  | none =>
    have hmodify := @modify_push_last _ ss x fun y => { y with vars := y.vars.push { name } }
    simp only [Array.size_push, Nat.add_sub_cancel] at hmodify
    simp only [modifyScope, h, hmodify]

/-- A definition in a scope whose variables hold all that is bound since its opening. -/
theorem define_retained (h : e.scopes = ss.push x) (hs : b.Retained x.objects s) :
    b.Retained (x.bound name o).objects (e.define s name o).2 := by
  obtain ⟨v, hv⟩ : ∃ v, (e.declare name).2.variableAt? (e.declare name).1 = some v :=
    variableAt?_declare (by simp [h])
  have hstore : (e.define s name o).2 = v.value.toList.foldl Store.release (s.retain o) :=
    snd_assign hv
  rw [hstore]
  -- one binding is added before one is released, so the lists agree only as counts
  refine (hs.retain.congr fun q => ?_).foldl_release
  have hcount : (e.define s name o).1.slots.count q + v.value.toList.count q =
      (e.declare name).2.slots.count q + [o].count q := count_slots_assign hv
  rw [define_push h, slots_declare] at hcount
  simp only [slots, h, Array.toList_push, List.flatMap_append, List.flatMap_singleton,
    List.count_append] at hcount
  simp only [List.count_append, List.count_cons, List.count_nil] at hcount ⊢
  omega

theorem leave_retained (h : e.scopes = ss.push x) (hpos : 0 < ss.size)
    (hs : b.Retained x.objects s) :
    e.leave s = ({ e with scopes := ss }, b) := by
  have hsize : 1 < e.scopes.size := by
    rw [h, Array.size_push]
    omega
  refine Prod.ext ?_ ?_
  · rw [leave_fst, if_pos hsize, h, Array.pop_push]
  · have hcurrent : e.current = x := by simp [current, h]
    rw [snd_leave hsize, hcurrent]
    exact Store.Retained.eq (Store.Retained.foldl_release (by rwa [List.append_nil]))

end Environment

namespace Operation

open Environment

/-- Operations that declare and define names and close every scope that they open. -/
inductive Paired : List Operation → Prop
  | nil : Paired []
  | declare {ops : List Operation} (name : String) (h : Paired ops) : Paired (.declare name :: ops)
  | define {ops : List Operation} (name : String) (o : ObjectId) (h : Paired ops) :
      Paired (.define name o :: ops)
  | scope {inner ops : List Operation} (kind : ScopeKind) (functions : List Decl)
      (hinner : Paired inner)
      (h : Paired ops) : Paired (.enter kind functions :: (inner ++ .leave :: ops))

variable {e : Environment} {b s : Store} {ss : Array Scope} {x : Scope} {inner ops : List Operation}
  {kind : ScopeKind} {functions : List Decl}

/-- A scope is closed again over the stacks and the objects that it was opened over. -/
theorem run_scope (hopen : 0 < e.scopes.size)
    (hinner : ∃ y, (run inner (e.enter kind functions) s).1 =
      { e with scopes := e.scopes.push y } ∧
        s.Retained y.objects (run inner (e.enter kind functions) s).2) :
    run (.enter kind functions :: (inner ++ .leave :: ops)) e s = run ops e s := by
  obtain ⟨y, hy, hs⟩ := hinner
  have hleft : (run inner (e.enter kind functions) s).1.leave
      (run inner (e.enter kind functions) s).2 = (e, s) := by
    rw [leave_retained (by rw [hy]) hopen hs, hy]
  simp only [run, run_append, apply, hleft]

/-- Only the innermost scope changes, and what is bound since its opening is what its variables
hold. -/
theorem Paired.run (h : Paired ops) (he : e.scopes = ss.push x) (hpos : 0 < ss.size)
    (hs : b.Retained x.objects s) :
    ∃ y, (Operation.run ops e s).1 = { e with scopes := ss.push y } ∧
      b.Retained y.objects (Operation.run ops e s).2 := by
  induction h generalizing e b s ss x with
  | nil => exact ⟨x, by rw [← he]; rfl, hs⟩
  | declare name h ih =>
    have hy := declare_push he name
    obtain ⟨z, hz, hs'⟩ :=
      ih (e := (e.declare name).2) (by rw [hy]) hpos (x.objects_declared name ▸ hs)
    refine ⟨z, hz.trans ?_, hs'⟩
    rw [hy]
  | define name o h ih =>
    have hy := define_push he s name o
    obtain ⟨z, hz, hs'⟩ := ih (e := (e.define s name o).1) (by rw [hy]) hpos (define_retained he hs)
    refine ⟨z, hz.trans ?_, hs'⟩
    rw [hy]
  | scope kind functions hinner h ihinner ih =>
    -- the inner scope starts from the present objects, with nothing bound since its opening
    have hopen : 0 < e.scopes.size := by simp [he]
    rw [run_scope hopen (ihinner (b := s) rfl hopen .refl)]
    exact ih he hpos hs

end Operation

/-- After any operations no scope has two variables of one name, every name stands for what the
innermost scope that has it says, and a scope that is opened, filled and closed again leaves all as
it was. -/
theorem names_resolved_innermost (limit : Nat) (s : Store) (ops : List Operation) :
    let reached := Operation.run ops { maxCallDepth := limit } s
    reached.1.Distinct ∧ (∀ name, reached.1.Resolution name) ∧
      ∀ kind functions inner, Operation.Paired inner →
        Operation.run (.enter kind functions :: (inner ++ [.leave])) reached.1 reached.2 =
          reached := by
  intro reached
  have hdistinct : reached.1.Distinct := by
    refine Operation.run_induct (fun _ _ _ => Operation.distinct_apply) ops ?_
    rintro (_ | i) x hx
    · cases hx
      exact List.nodup_nil
    · cases hx
  have hrooted : reached.1.Rooted :=
    Operation.run_induct (fun _ _ _ => Operation.rooted_apply) ops rfl
  refine ⟨hdistinct, hdistinct.resolution, fun kind functions inner hinner => ?_⟩
  exact Operation.run_scope hrooted.size_pos
    (hinner.run (b := reached.2) rfl hrooted.size_pos .refl)

/-- Inside the scope the name stands for another object than before and after. -/
theorem shadowed_resolved_innermost :
    let s : Store :=
      { objects := #[some { value := .atom (.int 1) }, some { value := .atom (.int 2) }] }
    let reached := Operation.run [.define "x" 0] { maxCallDepth := 8 } s
    let inner : List Operation :=
      [.define "x" 1, .enter .block [], .declare "x", .leave, .define "x" 0]
    Operation.Paired inner ∧ (reached.1.get "x" none).toOption = some 0 ∧
      ((Operation.run (.enter .block [] :: inner.take 1) reached.1 reached.2).1.get "x"
        none).toOption = some 1 ∧
      Operation.run (.enter .block [] :: (inner ++ [.leave])) reached.1 reached.2 = reached := by
  have hinner : Operation.Paired
      [.define "x" 1, .enter .block [], .declare "x", .leave, .define "x" 0] :=
    .define "x" 1 (.scope .block [] (.declare "x" .nil) (.define "x" 0 .nil))
  intro s reached inner
  refine ⟨hinner, by decide +kernel, by decide +kernel, ?_⟩
  exact (names_resolved_innermost 8 s [.define "x" 0]).2.2 .block [] inner hinner

end Scripting
