import Mathlib.Data.List.Forall2
import Mathlib.Tactic.Common
import Scripting.Eval.Node
import Scripting.Proofs.Environment.Slots
import Scripting.Proofs.Renaming.Stores

/-! Stacks that are the same up to the numbers of objects. -/
namespace Scripting

/-! ### Options and arrays -/

theorem rel_cases {α β : Type} {r : α → β → Prop} {a : Option α} {b : Option β}
    (h : Option.Rel r a b) :
    a = none ∧ b = none ∨ ∃ x y, a = some x ∧ b = some y ∧ r x y := by
  cases h with
  | none => exact .inl ⟨rfl, rfl⟩
  | some hab => exact .inr ⟨_, _, rfl, rfl, hab⟩

theorem rel_imp {α β : Type} {r r' : α → β → Prop} {a : Option α} {b : Option β}
    (h : Option.Rel r a b) (hr : ∀ x y, r x y → r' x y) : Option.Rel r' a b := by
  cases h with
  | none => exact .none
  | some hab => exact .some (hr _ _ hab)

theorem rel_bind {α β γ δ : Type} {r : α → β → Prop} {r' : γ → δ → Prop}
    {a : Option α} {b : Option β} {f : α → Option γ} {g : β → Option δ} (h : Option.Rel r a b)
    (hfg : ∀ x y, r x y → Option.Rel r' (f x) (g y)) : Option.Rel r' (a.bind f) (b.bind g) := by
  cases h with
  | none => exact .none
  | some hab => exact hfg _ _ hab

theorem forall₂_iff_getElem? {α β : Type} {r : α → β → Prop} {l : List α} {k : List β} :
    List.Forall₂ r l k ↔ ∀ i : Nat, Option.Rel r l[i]? k[i]? := by
  induction l generalizing k with
  | nil =>
    cases k with
    | nil => simp
    | cons b k =>
      refine iff_of_false (by simp) fun h => ?_
      have := h 0
      simp at this
  | cons a l ih =>
    cases k with
    | nil =>
      refine iff_of_false (by simp) fun h => ?_
      have := h 0
      simp at this
    | cons b k =>
      rw [List.forall₂_cons, ih]
      constructor
      · rintro ⟨hab, hrest⟩ i
        cases i with
        | zero => simpa using hab
        | succ i => simpa using hrest i
      · intro h
        exact ⟨by simpa using h 0, fun i => by simpa using h (i + 1)⟩

/-- Two arrays of the same length whose entries are related at each position. -/
def Pointwise {α β : Type} (r : α → β → Prop) (xs : Array α) (ys : Array β) : Prop :=
  List.Forall₂ r xs.toList ys.toList

namespace Pointwise

variable {α β : Type} {r : α → β → Prop} {xs : Array α} {ys : Array β} {x : α} {y : β}

theorem iff_getElem? : Pointwise r xs ys ↔ ∀ i : Nat, Option.Rel r xs[i]? ys[i]? := by
  simp [Pointwise, forall₂_iff_getElem?]

theorem getElem? (h : Pointwise r xs ys) (i : Nat) : Option.Rel r xs[i]? ys[i]? :=
  iff_getElem?.mp h i

theorem size_eq (h : Pointwise r xs ys) : ys.size = xs.size := by simpa using h.length_eq.symm

theorem imp {r' : α → β → Prop} (h : Pointwise r xs ys) (hr : ∀ x y, r x y → r' x y) :
    Pointwise r' xs ys := List.Forall₂.imp hr h

theorem push (h : Pointwise r xs ys) (hxy : r x y) : Pointwise r (xs.push x) (ys.push y) := by
  rw [iff_getElem?]
  intro i
  rw [Array.getElem?_push, Array.getElem?_push, h.size_eq]
  split
  · exact .some hxy
  · exact h.getElem? i

theorem pop (h : Pointwise r xs ys) : Pointwise r xs.pop ys.pop := by
  rw [iff_getElem?]
  intro i
  rw [Array.getElem?_pop, Array.getElem?_pop, h.size_eq]
  split
  · exact h.getElem? i
  · exact .none

theorem take (h : Pointwise r xs ys) (n : Nat) : Pointwise r (xs.take n) (ys.take n) := by
  rw [iff_getElem?]
  intro i
  simp only [Array.take_eq_extract, Array.getElem?_extract, h.size_eq]
  split
  · exact h.getElem? _
  · exact .none

theorem modify {f : α → α} {g : β → β} (h : Pointwise r xs ys) (i : Nat)
    (hfg : ∀ x y, r x y → r (f x) (g y)) : Pointwise r (xs.modify i f) (ys.modify i g) := by
  rw [iff_getElem?]
  intro j
  rw [Array.getElem?_modify, Array.getElem?_modify]
  split
  · rcases rel_cases (h.getElem? j) with ⟨hx, hy⟩ | ⟨x, y, hx, hy, hxy⟩
    · rw [hx, hy]
      exact .none
    · rw [hx, hy]
      exact .some (hfg _ _ hxy)
  · exact h.getElem? j

theorem set (h : Pointwise r xs ys) (i : Nat) (hxy : r x y) :
    Pointwise r (xs.setIfInBounds i x) (ys.setIfInBounds i y) := by
  rw [iff_getElem?]
  intro j
  rw [Array.getElem?_setIfInBounds, Array.getElem?_setIfInBounds, h.size_eq]
  split
  · split
    · exact .some hxy
    · exact .none
  · exact h.getElem? j

theorem mapIdx {f : Nat → α → α} {g : Nat → β → β} (h : Pointwise r xs ys)
    (hfg : ∀ i x y, r x y → r (f i x) (g i y)) : Pointwise r (xs.mapIdx f) (ys.mapIdx g) := by
  rw [iff_getElem?]
  intro j
  rw [Array.getElem?_mapIdx, Array.getElem?_mapIdx]
  rcases rel_cases (h.getElem? j) with ⟨hx, hy⟩ | ⟨x, y, hx, hy, hxy⟩
  · rw [hx, hy]
    exact .none
  · rw [hx, hy]
    exact .some (hfg j _ _ hxy)

theorem back? (h : Pointwise r xs ys) : Option.Rel r xs.back? ys.back? := by
  rw [Array.back?_eq_getElem?, Array.back?_eq_getElem?, h.size_eq]
  exact h.getElem? _

end Pointwise

/-! ### Scopes, calls and loops -/

section

variable (D : Decl → Prop) (R : Pairing)

structure Variable.Renamed (v w : Variable) : Prop where
  name : w.name = v.name
  value : Option.Rel R v.value w.value

structure Scope.Renamed (x y : Scope) : Prop where
  kind : y.kind = x.kind
  vars : Pointwise (Variable.Renamed R) x.vars y.vars
  functions : y.functions = x.functions
  known : ∀ d ∈ x.functions, D d
  isSkipped : y.isSkipped = x.isSkipped
  last : Option.Rel R x.last y.last

structure Frame.Renamed (f g : Frame) : Prop where
  decl : g.decl = f.decl
  known : D f.decl
  isReturned : g.isReturned = f.isReturned
  result : Option.Rel R f.result g.result
  scopeDepth : g.scopeDepth = f.scopeDepth
  loopDepth : g.loopDepth = f.loopDepth

structure LoopState.Renamed (l m : LoopState) : Prop where
  scopeIndex : m.scopeIndex = l.scopeIndex
  isBroken : m.isBroken = l.isBroken
  result : Option.Rel R l.result m.result

structure Environment.Renamed (e f : Environment) : Prop where
  scopes : Pointwise (Scope.Renamed D R) e.scopes f.scopes
  frames : Pointwise (Frame.Renamed D R) e.frames f.frames
  loops : Pointwise (LoopState.Renamed R) e.loops f.loops
  maxCallDepth : f.maxCallDepth = e.maxCallDepth

end

variable {D : Decl → Prop} {R R' : Pairing}

theorem Variable.Renamed.mono {v w : Variable} (h : v.Renamed R w) (hle : R ≤ R') :
    v.Renamed R' w :=
  { h with value := rel_imp h.value hle }

theorem Scope.Renamed.mono {x y : Scope} (h : x.Renamed D R y) (hle : R ≤ R') : x.Renamed D R' y :=
  { h with vars := h.vars.imp fun _ _ hv => hv.mono hle, last := rel_imp h.last hle }

theorem Frame.Renamed.mono {f g : Frame} (h : f.Renamed D R g) (hle : R ≤ R') : f.Renamed D R' g :=
  { h with result := rel_imp h.result hle }

theorem LoopState.Renamed.mono {l m : LoopState} (h : l.Renamed R m) (hle : R ≤ R') :
    l.Renamed R' m :=
  { h with result := rel_imp h.result hle }

theorem Scope.Renamed.indexOf? {x y : Scope} (h : x.Renamed D R y) (name : String) :
    y.indexOf? name = x.indexOf? name := by
  have hlist : ∀ {l k : List Variable}, List.Forall₂ (Variable.Renamed R) l k →
      k.findIdx? (·.name == name) = l.findIdx? (·.name == name) := by
    intro l k hlk
    induction hlk with
    | nil => rfl
    | cons hvw _ ih => rw [List.findIdx?_cons, List.findIdx?_cons, hvw.name, ih]
  obtain ⟨kind, ⟨vars⟩, functions, isSkipped, last⟩ := x
  obtain ⟨kind', ⟨vars'⟩, functions', isSkipped', last'⟩ := y
  simpa [Scope.indexOf?] using hlist h.vars

namespace Environment

variable {e : Environment} {s : Store} {o : ObjectId}

theorem recounts_leave : s.Recounts (e.leave s).2 := ⟨next_leave, store_leave.1, store_leave.2.1⟩

theorem recounts_assign {slot : Slot} : s.Recounts (e.assign s slot o).2 :=
  ⟨next_assign, store_assign.1, store_assign.2.1⟩

theorem recounts_leaveMany (n : Nat) : s.Recounts (leaveMany n e s).2 := by
  induction n generalizing e s with
  | zero => exact .refl
  | succ n ih => exact recounts_leave.trans ih

theorem recounts_restore {c : Checkpoint} : s.Recounts (e.restore s c).2 := recounts_leaveMany _

end Environment

namespace Environment.Renamed

variable {e f : Environment} {s t : Store} {o p : ObjectId} {i : Nat} {name : String}
  {span : Option Span}

theorem mono (h : e.Renamed D R f) (hle : R ≤ R') : e.Renamed D R' f where
  scopes := h.scopes.imp fun _ _ hs => hs.mono hle
  frames := h.frames.imp fun _ _ hs => hs.mono hle
  loops := h.loops.imp fun _ _ hs => hs.mono hle
  maxCallDepth := h.maxCallDepth

/-! ### What is read off the stacks -/

theorem currentIndex (h : e.Renamed D R f) : f.currentIndex = e.currentIndex := by
  rw [Environment.currentIndex, Environment.currentIndex, h.scopes.size_eq]

theorem current (h : e.Renamed D R f) : e.current.Renamed D R f.current := by
  unfold Environment.current
  rcases rel_cases h.scopes.back? with ⟨hx, hy⟩ | ⟨x, y, hx, hy, hxy⟩
  · rw [hx, hy]
    exact ⟨rfl, .nil, rfl, nofun, rfl, .none⟩
  · rw [hx, hy]
    exact hxy

theorem variableAt? (h : e.Renamed D R f) (slot : Slot) :
    Option.Rel (Variable.Renamed R) (e.variableAt? slot) (f.variableAt? slot) :=
  rel_bind (h.scopes.getElem? _) fun _ _ hxy => hxy.vars.getElem? _

theorem bound (h : e.Renamed D R f) (slot : Slot) :
    Option.Rel R ((e.variableAt? slot).bind (·.value)) ((f.variableAt? slot).bind (·.value)) :=
  rel_bind (h.variableAt? slot) fun _ _ hvw => hvw.value

theorem lookup (h : e.Renamed D R f) : f.lookup name = e.lookup name := by
  have hbelow : ∀ n, f.lookupBelow name n = e.lookupBelow name n := by
    intro n
    induction n with
    | zero => rfl
    | succ n ih =>
      have hindex : f.scopes[n]?.bind (·.indexOf? name) = e.scopes[n]?.bind (·.indexOf? name) := by
        rcases rel_cases (h.scopes.getElem? n) with ⟨hx, hy⟩ | ⟨x, y, hx, hy, hxy⟩
        · rw [hx, hy]
        · rw [hx, hy]
          exact hxy.indexOf? name
      simp only [lookupBelow, hindex, ih]
  rw [Environment.lookup, Environment.lookup, h.scopes.size_eq, hbelow]

theorem contains (h : e.Renamed D R f) : f.contains name = e.contains name := by
  rw [Environment.contains, Environment.contains, h.lookup]

theorem get (h : e.Renamed D R f) :
    (∃ x, e.get name span = .error x ∧ f.get name span = .error x) ∨
      ∃ o p, e.get name span = .ok o ∧ f.get name span = .ok p ∧ R o p := by
  rw [Environment.get, Environment.get, h.lookup]
  cases e.lookup name with
  | none => exact .inl ⟨_, rfl, rfl⟩
  | some slot =>
    rcases rel_cases (h.bound slot) with ⟨ho, hp⟩ | ⟨o, p, ho, hp, hop⟩
    · simp only [ho, hp]
      exact .inl ⟨_, rfl, rfl⟩
    · simp only [ho, hp]
      exact .inr ⟨o, p, rfl, rfl, hop⟩

theorem findFunction (h : e.Renamed D R f) : f.findFunction name = e.findFunction name := by
  have hbelow : ∀ n, f.findFunctionBelow name n = e.findFunctionBelow name n := by
    intro n
    induction n with
    | zero => rfl
    | succ n ih =>
      have hfind : f.scopes[n]?.bind (·.functions.find? (·.name == name)) =
          e.scopes[n]?.bind (·.functions.find? (·.name == name)) := by
        rcases rel_cases (h.scopes.getElem? n) with ⟨hx, hy⟩ | ⟨x, y, hx, hy, hxy⟩
        · rw [hx, hy]
        · simp only [hx, hy, Option.bind_some, hxy.functions]
      simp only [findFunctionBelow, hfind, ih]
  rw [Environment.findFunction, Environment.findFunction, h.scopes.size_eq, hbelow]

theorem known_of_findFunction (h : e.Renamed D R f) {d : Decl} (hd : e.findFunction name = some d) :
    D d := by
  have hbelow : ∀ n, e.findFunctionBelow name n = some d → D d := by
    intro n
    induction n with
    | zero => simp [findFunctionBelow]
    | succ n ih =>
      intro hn
      rw [findFunctionBelow] at hn
      split at hn
      · next d' hfound =>
        cases hn
        obtain ⟨x, hx, hxd⟩ := Option.bind_eq_some_iff.mp hfound
        rcases rel_cases (h.scopes.getElem? n) with ⟨hnone, -⟩ | ⟨x', y, hx', -, hxy⟩
        · rw [hx] at hnone
          cases hnone
        · cases hx.symm.trans hx'
          exact hxy.known _ (List.mem_of_find?_eq_some hxd)
      · exact ih hn
  exact hbelow _ hd

theorem depthError? (h : e.Renamed D R f) : f.depthError? span = e.depthError? span := by
  rw [Environment.depthError?, Environment.depthError?, h.maxCallDepth, h.frames.size_eq]

theorem currentFrame? (h : e.Renamed D R f) :
    Option.Rel (Frame.Renamed D R) e.currentFrame? f.currentFrame? := h.frames.back?

theorem loopFloor (h : e.Renamed D R f) : f.loopFloor = e.loopFloor := by
  unfold Environment.loopFloor
  rcases rel_cases h.frames.back? with ⟨hx, hy⟩ | ⟨x, y, hx, hy, hxy⟩
  · rw [hx, hy]
  · simp [hx, hy, hxy.loopDepth]

theorem currentLoop? (h : e.Renamed D R f) :
    Option.Rel (LoopState.Renamed R) e.currentLoop? f.currentLoop? := by
  rw [Environment.currentLoop?, Environment.currentLoop?, h.loopFloor, h.loops.size_eq]
  split
  · exact h.loops.back?
  · exact .none

theorem checkpoint (h : e.Renamed D R f) : f.checkpoint = e.checkpoint := by
  rw [Environment.checkpoint, Environment.checkpoint, h.scopes.size_eq, h.frames.size_eq,
    h.loops.size_eq]

/-! ### Changes -/

theorem modifyScope {g g' : Scope → Scope} (h : e.Renamed D R f) (i : Nat)
    (hg : ∀ x y, x.Renamed D R y → (g x).Renamed D R (g' y)) :
    (e.modifyScope i g).Renamed D R (f.modifyScope i g') :=
  { h with scopes := h.scopes.modify i hg }

theorem enter {kind : ScopeKind} {functions : List Decl} (h : e.Renamed D R f)
    (hfunctions : ∀ d ∈ functions, D d) :
    (e.enter kind functions).Renamed D R (f.enter kind functions) :=
  { h with scopes := h.scopes.push ⟨rfl, .nil, rfl, hfunctions, rfl, .none⟩ }

theorem leave (h : e.Renamed D R f) : (e.leave s).1.Renamed D R (f.leave t).1 := by
  rw [leave_fst, leave_fst, h.scopes.size_eq]
  split
  · exact { h with scopes := h.scopes.pop }
  · exact h

theorem skipFrom (h : e.Renamed D R f) (i : Nat) : (e.skipFrom i).Renamed D R (f.skipFrom i) := by
  refine { h with scopes := h.scopes.mapIdx fun j x y hxy => ?_ }
  split
  · exact { hxy with isSkipped := rfl }
  · exact hxy

theorem breakLoopsFrom (h : e.Renamed D R f) (i : Nat) :
    (e.breakLoopsFrom i).Renamed D R (f.breakLoopsFrom i) := by
  refine { h with loops := h.loops.mapIdx fun j x y hxy => ?_ }
  split
  · exact { hxy with isBroken := rfl }
  · exact hxy

theorem declare (h : e.Renamed D R f) (name : String) :
    (f.declare name).1 = (e.declare name).1 ∧
      (e.declare name).2.Renamed D R (f.declare name).2 := by
  simp only [Environment.declare, h.currentIndex, h.current.indexOf?, h.current.vars.size_eq]
  split
  · exact ⟨rfl, h⟩
  · refine ⟨rfl, h.modifyScope _ fun x y hxy => ?_⟩
    exact { hxy with vars := hxy.vars.push ⟨rfl, .none⟩ }

theorem assign (h : e.Renamed D R f) (slot : Slot) (hop : R o p) :
    (e.assign s slot o).1.Renamed D R (f.assign t slot p).1 := by
  unfold Environment.assign
  rcases rel_cases (h.variableAt? slot) with ⟨hx, hy⟩ | ⟨x, y, hx, hy, -⟩
  · rw [hx, hy]
    exact h
  · rw [hx, hy]
    refine h.modifyScope _ fun x y hxy => ?_
    exact { hxy with vars := hxy.vars.modify _ fun _ _ hvw => { hvw with value := .some hop } }

theorem define (h : e.Renamed D R f) (name : String) (hop : R o p) :
    (e.define s name o).1.Renamed D R (f.define t name p).1 := by
  obtain ⟨hslot, hdeclared⟩ := h.declare name
  simp only [Environment.define, hslot]
  exact hdeclared.assign _ hop

theorem pushFrame {d : Decl} (h : e.Renamed D R f) (hd : D d) :
    (e.pushFrame d).Renamed D R (f.pushFrame d) :=
  { h with frames := h.frames.push ⟨rfl, hd, rfl, .none, h.currentIndex, h.loops.size_eq⟩ }

theorem popFrame (h : e.Renamed D R f) : e.popFrame.2.Renamed D R f.popFrame.2 :=
  { h with frames := h.frames.pop }

theorem pushLoop (h : e.Renamed D R f) (i : Nat) : (e.pushLoop i).Renamed D R (f.pushLoop i) :=
  { h with loops := h.loops.push ⟨rfl, rfl, .none⟩ }

theorem popLoop (h : e.Renamed D R f) : e.popLoop.2.Renamed D R f.popLoop.2 :=
  { h with loops := h.loops.pop }

theorem leaveFunction (h : e.Renamed D R f) (hop : R o p) :
    (Eval.leaveFunction e o).Renamed D R (Eval.leaveFunction f p) := by
  unfold Eval.leaveFunction
  rcases rel_cases h.currentFrame? with ⟨hx, hy⟩ | ⟨x, y, hx, hy, hfg⟩
  · rw [hx, hy]
    exact h
  · rw [hx, hy]
    dsimp only
    rw [hfg.scopeDepth, hfg.loopDepth]
    refine ((?_ : Environment.Renamed D R _ _).skipFrom _).breakLoopsFrom _
    rw [modifyFrame, modifyFrame, h.frames.size_eq]
    exact { h with
      frames := h.frames.modify _ fun _ _ hfg =>
        { hfg with result := .some hop, isReturned := rfl } }

theorem leaveLoop {a b : Option ObjectId} (h : e.Renamed D R f) (hab : Option.Rel R a b) :
    (Eval.leaveLoop e a).Renamed D R (Eval.leaveLoop f b) := by
  unfold Eval.leaveLoop
  rcases rel_cases h.currentLoop? with ⟨hx, hy⟩ | ⟨x, y, hx, hy, hlm⟩
  · rw [hx, hy]
    exact h
  · rw [hx, hy]
    dsimp only
    rw [hlm.scopeIndex]
    refine (?_ : Environment.Renamed D R _ _).skipFrom _
    rw [modifyLoop, modifyLoop, h.loopFloor, h.loops.size_eq]
    split
    · exact { h with loops := h.loops.modify _ fun _ _ hlm =>
        { hlm with result := hab, isBroken := rfl } }
    · exact h

theorem leaveMany (h : e.Renamed D R f) (n : Nat) :
    (leaveMany n e s).1.Renamed D R (leaveMany n f t).1 := by
  induction n generalizing e f s t with
  | zero => exact h
  | succ n ih => exact ih h.leave

theorem restore (h : e.Renamed D R f) (c : Checkpoint) :
    (e.restore s c).1.Renamed D R (f.restore t c).1 := by
  have htaken : Environment.Renamed D R
      { e with loops := e.loops.take c.loops, frames := e.frames.take c.frames }
      { f with loops := f.loops.take c.loops, frames := f.frames.take c.frames } :=
    { h with loops := h.loops.take _, frames := h.frames.take _ }
  simp only [Environment.restore, h.scopes.size_eq]
  refine (htaken.leaveMany _).modifyScope 0 fun x y hxy => ?_
  exact { hxy with isSkipped := rfl }

end Environment.Renamed
end Scripting
