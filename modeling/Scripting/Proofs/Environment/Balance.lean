import Mathlib.Tactic.Common
import Scripting.Proofs.Environment.Marks

/-! How the stacks after an evaluation lie over the stacks before it. -/
namespace Scripting

/-- The names that a scope has, in the order of their declarations. -/
def Scope.names (scope : Scope) : List String := scope.vars.toList.map (·.name)

/-- The same scope, with names added at the end at most. -/
def Scope.Grown (x y : Scope) : Prop :=
  y.kind = x.kind ∧ y.functions = x.functions ∧ x.names <+: y.names

theorem Scope.Grown.refl {x : Scope} : x.Grown x := ⟨rfl, rfl, List.prefix_rfl⟩

theorem Scope.Grown.trans {x y z : Scope} (h : x.Grown y) (h' : y.Grown z) : x.Grown z :=
  ⟨h'.1.trans h.1, h'.2.1.trans h.2.1, h.2.2.trans h'.2.2⟩

/-- Marks do not show in the names. -/
theorem Scope.grown_of_unmarked {x y : Scope} (h : y.unmarked = x.unmarked) :
    x.Grown y ∧ y.names = x.names := by
  simp only [Scope.unmarked, Scope.mk.injEq, and_true] at h
  obtain ⟨hkind, hvars, hfunctions⟩ := h
  have hnames : y.names = x.names := by rw [Scope.names, hvars, Scope.names]
  exact ⟨⟨hkind, hfunctions, hnames ▸ List.prefix_rfl⟩, hnames⟩

namespace Environment

variable {e e' e'' : Environment} {s : Store} {i : Nat}

/-- The global scope is the outermost one. -/
def Rooted (e : Environment) : Prop := e.scopes[0]?.map (·.kind) = some .global

/-- The second stacks begin with the first ones, marks and values apart. Only what was the innermost
scope may have new names. -/
structure Extends (e e' : Environment) : Prop where
  scope : ∀ (i : Nat) (x : Scope), e.scopes[i]? = some x →
    ∃ y, e'.scopes[i]? = some y ∧ x.Grown y ∧ (i + 1 < e.scopes.size → y.names = x.names)
  frame : ∀ (i : Nat) (f : Frame), e.frames[i]? = some f →
    ∃ g, e'.frames[i]? = some g ∧ g.unmarked = f.unmarked
  loop : ∀ (i : Nat) (l : LoopState), e.loops[i]? = some l →
    ∃ m, e'.loops[i]? = some m ∧ m.unmarked = l.unmarked

/-- Stacks that also have the same heights. -/
structure Balanced (e e' : Environment) : Prop extends Extends e e' where
  heights : e'.checkpoint = e.checkpoint

theorem size_le_of_getElem? {α : Type} {P : Nat → α → α → Prop} {xs ys : Array α}
    (h : ∀ (i : Nat) (x : α), xs[i]? = some x → ∃ y, ys[i]? = some y ∧ P i x y) :
    xs.size ≤ ys.size := by
  by_contra hlt
  have hsize : ys.size < xs.size := by omega
  obtain ⟨y, hy, -⟩ := h ys.size xs[ys.size] (Array.getElem?_eq_getElem hsize)
  simp at hy

namespace Extends

theorem refl : e.Extends e where
  scope := fun _ x hx => ⟨x, hx, .refl, fun _ => rfl⟩
  frame := fun _ f hf => ⟨f, hf, rfl⟩
  loop := fun _ l hl => ⟨l, hl, rfl⟩

theorem size_scopes (h : e.Extends e') : e.scopes.size ≤ e'.scopes.size :=
  size_le_of_getElem? h.scope

theorem size_frames (h : e.Extends e') : e.frames.size ≤ e'.frames.size :=
  size_le_of_getElem? h.frame

theorem size_loops (h : e.Extends e') : e.loops.size ≤ e'.loops.size := size_le_of_getElem? h.loop

theorem trans (h : e.Extends e') (h' : e'.Extends e'') : e.Extends e'' where
  scope := by
    intro i x hx
    obtain ⟨y, hy, hxy, hnames⟩ := h.scope i x hx
    obtain ⟨z, hz, hyz, hnames'⟩ := h'.scope i y hy
    have hsize := h.size_scopes
    exact ⟨z, hz, hxy.trans hyz, fun hi => (hnames' (by omega)).trans (hnames hi)⟩
  frame := by
    intro i f hf
    obtain ⟨g, hg, hfg⟩ := h.frame i f hf
    obtain ⟨k, hk, hgk⟩ := h'.frame i g hg
    exact ⟨k, hk, hgk.trans hfg⟩
  loop := by
    intro i l hl
    obtain ⟨m, hm, hlm⟩ := h.loop i l hl
    obtain ⟨n, hn, hmn⟩ := h'.loop i m hm
    exact ⟨n, hn, hmn.trans hlm⟩

/-- What lies above the heights of the first stacks may be taken away. -/
theorem cut (h : e.Extends e') (hscopes : ∀ i < e.scopes.size, e''.scopes[i]? = e'.scopes[i]?)
    (hframes : ∀ i < e.frames.size, e''.frames[i]? = e'.frames[i]?)
    (hloops : ∀ i < e.loops.size, e''.loops[i]? = e'.loops[i]?) : e.Extends e'' where
  scope := by
    intro i x hx
    rw [hscopes i (Array.getElem?_eq_some_iff.mp hx).1]
    exact h.scope i x hx
  frame := by
    intro i f hf
    rw [hframes i (Array.getElem?_eq_some_iff.mp hf).1]
    exact h.frame i f hf
  loop := by
    intro i l hl
    rw [hloops i (Array.getElem?_eq_some_iff.mp hl).1]
    exact h.loop i l hl

/-- Stacks cut down to the heights that they had. -/
theorem balanced (h : e.Extends e') (hscopes : e''.scopes = e'.scopes.extract 0 e.scopes.size)
    (hframes : e''.frames = e'.frames.extract 0 e.frames.size)
    (hloops : e''.loops = e'.loops.extract 0 e.loops.size) : e.Balanced e'' := by
  have hsize := h.size_scopes
  have hsize' := h.size_frames
  have hsize'' := h.size_loops
  constructor
  · apply h.cut
    · intro i hi
      rw [hscopes, Array.getElem?_extract]
      simp only [Nat.zero_add]
      rw [if_pos (by omega)]
    · intro i hi
      rw [hframes, Array.getElem?_extract]
      simp only [Nat.zero_add]
      rw [if_pos (by omega)]
    · intro i hi
      rw [hloops, Array.getElem?_extract]
      simp only [Nat.zero_add]
      rw [if_pos (by omega)]
  · simp only [checkpoint, hscopes, hframes, hloops, Array.size_extract, Checkpoint.mk.injEq]
    omega

theorem rooted (h : e.Extends e') (he : e.Rooted) : e'.Rooted := by
  obtain ⟨x, hx, hkind⟩ := Option.map_eq_some_iff.mp he
  obtain ⟨y, hy, hxy, -⟩ := h.scope 0 x hx
  exact Option.map_eq_some_iff.mpr ⟨y, hy, hxy.1.trans hkind⟩

theorem getElem?_push_of_some {α : Type} {xs : Array α} {a x : α} (h : xs[i]? = some x) :
    (xs.push a)[i]? = some x := by
  have hi := (Array.getElem?_eq_some_iff.mp h).1
  rw [Array.getElem?_push, if_neg (by omega), h]

theorem enter {kind : ScopeKind} {fs : List Decl} : e.Extends (e.enter kind fs) where
  scope := fun _ x hx => ⟨x, getElem?_push_of_some hx, .refl, fun _ => rfl⟩
  frame := fun _ f hf => ⟨f, hf, rfl⟩
  loop := fun _ l hl => ⟨l, hl, rfl⟩

theorem loopOpened {fs : List Decl} : e.Extends (e.loopOpened fs) where
  scope := fun _ x hx => ⟨x, getElem?_push_of_some hx, .refl, fun _ => rfl⟩
  frame := fun _ f hf => ⟨f, hf, rfl⟩
  loop := fun _ l hl => ⟨l, getElem?_push_of_some hl, rfl⟩

theorem callOpened {d : Decl} : e.Extends (e.callOpened d) where
  scope := fun _ x hx => ⟨x, getElem?_push_of_some hx, .refl, fun _ => rfl⟩
  frame := fun _ f hf => ⟨f, getElem?_push_of_some hf, rfl⟩
  loop := fun _ l hl => ⟨l, hl, rfl⟩

end Extends

theorem Rooted.size_pos (h : e.Rooted) : 0 < e.scopes.size := by
  obtain ⟨x, hx, -⟩ := Option.map_eq_some_iff.mp h
  exact (Array.getElem?_eq_some_iff.mp hx).1

namespace Balanced

theorem refl : e.Balanced e := ⟨.refl, rfl⟩

theorem trans (h : e.Balanced e') (h' : e'.Balanced e'') : e.Balanced e'' :=
  ⟨h.toExtends.trans h'.toExtends, h'.heights.trans h.heights⟩

theorem size_scopes (h : e.Balanced e') : e'.scopes.size = e.scopes.size :=
  congrArg Checkpoint.scopes h.heights

theorem size_frames (h : e.Balanced e') : e'.frames.size = e.frames.size :=
  congrArg Checkpoint.frames h.heights

theorem size_loops (h : e.Balanced e') : e'.loops.size = e.loops.size :=
  congrArg Checkpoint.loops h.heights

theorem currentIndex_eq (h : e.Balanced e') : e'.currentIndex = e.currentIndex := by
  simp [currentIndex, h.size_scopes]

/-- A change of marks. -/
theorem of_unmarked (h : e'.unmarked = e.unmarked) : e.Balanced e' := by
  have hscopes : e'.scopes.map Scope.unmarked = e.scopes.map Scope.unmarked := congrArg scopes h
  have hframes : e'.frames.map Frame.unmarked = e.frames.map Frame.unmarked := congrArg frames h
  have hloops : e'.loops.map LoopState.unmarked = e.loops.map LoopState.unmarked := congrArg loops h
  refine ⟨⟨?_, ?_, ?_⟩, ?_⟩
  · intro i x hx
    have hi := congrArg (·[i]?) hscopes
    simp only [Array.getElem?_map, hx, Option.map_some] at hi
    obtain ⟨y, hy, hxy⟩ := Option.map_eq_some_iff.mp hi
    obtain ⟨hgrown, hnames⟩ := Scope.grown_of_unmarked hxy
    exact ⟨y, hy, hgrown, fun _ => hnames⟩
  · intro i f hf
    have hi := congrArg (·[i]?) hframes
    simp only [Array.getElem?_map, hf, Option.map_some] at hi
    exact Option.map_eq_some_iff.mp hi
  · intro i l hl
    have hi := congrArg (·[i]?) hloops
    simp only [Array.getElem?_map, hl, Option.map_some] at hi
    exact Option.map_eq_some_iff.mp hi
  · have hsize := congrArg Array.size hscopes
    have hsize' := congrArg Array.size hframes
    have hsize'' := congrArg Array.size hloops
    simp only [Array.size_map] at hsize hsize' hsize''
    simp [checkpoint, hsize, hsize', hsize'']

/-- A change of the variables of one scope, which gets new names only if it is the innermost one. -/
theorem modifyScope {f : Scope → Scope} (hf : ∀ x : Scope, x.Grown (f x))
    (hnames : ∀ x, i + 1 < e.scopes.size → (f x).names = x.names) :
    e.Balanced (e.modifyScope i f) := by
  refine ⟨⟨?_, fun _ g hg => ⟨g, hg, rfl⟩, fun _ l hl => ⟨l, hl, rfl⟩⟩, ?_⟩
  · intro j x hx
    simp only [Environment.modifyScope, Array.getElem?_modify]
    by_cases hij : i = j
    · subst hij
      exact ⟨f x, by simp [hx], hf x, hnames x⟩
    · exact ⟨x, by simp [hij, hx], .refl, fun _ => rfl⟩
  · simp [checkpoint, Environment.modifyScope]

theorem declare {name : String} : e.Balanced (e.declare name).2 := by
  simp only [Environment.declare]
  split
  · exact .refl
  · apply modifyScope
    · intro x
      exact ⟨rfl, rfl, by simp [Scope.names]⟩
    · intro x hi
      simp only [currentIndex] at hi
      omega

theorem names_modify {x : Scope} {j : Nat} {o : Option ObjectId} :
    ({ x with vars := x.vars.modify j ({ · with value := o }) } : Scope).names = x.names := by
  simp only [Scope.names]
  apply List.ext_getElem?
  intro k
  simp only [List.getElem?_map, Array.getElem?_toList, Array.getElem?_modify]
  split
  · cases x.vars[k]? <;> rfl
  · rfl

theorem assign {p : Slot} {o : ObjectId} : e.Balanced (e.assign s p o).1 := by
  simp only [Environment.assign]
  split
  · exact .refl
  · apply modifyScope
    · intro x
      exact ⟨rfl, rfl, names_modify ▸ List.prefix_rfl⟩
    · intro x _
      exact names_modify

theorem define {name : String} {o : ObjectId} : e.Balanced (e.define s name o).1 :=
  declare.trans assign

theorem leaveBlock {fs : List Decl} (he : e.Rooted) (h : (e.enter .block fs).Balanced e') :
    e.Balanced (e'.leave s).1 := by
  have hpos := he.size_pos
  have hsize : e'.scopes.size = e.scopes.size + 1 := h.size_scopes.trans (Array.size_push _)
  have hframes : e'.frames.size = e.frames.size := h.size_frames
  have hloops : e'.loops.size = e.loops.size := h.size_loops
  rw [leave_fst, if_pos (by omega)]
  apply (Extends.enter.trans h.toExtends).balanced
  · exact (Array.extract_eq_pop (by omega)).symm
  · simp [← hframes]
  · simp [← hloops]

theorem leaveLoop {fs : List Decl} (he : e.Rooted) (h : (e.loopOpened fs).Balanced e') :
    e.Balanced (e'.popLoop.2.leave s).1 := by
  have hpos := he.size_pos
  have hsize : e'.popLoop.2.scopes.size = e.scopes.size + 1 :=
    h.size_scopes.trans (Array.size_push _)
  have hframes : e'.frames.size = e.frames.size := h.size_frames
  have hloops : e'.loops.size = e.loops.size + 1 := h.size_loops.trans (Array.size_push _)
  rw [leave_fst, if_pos (by omega)]
  apply (Extends.loopOpened.trans h.toExtends).balanced
  · exact (Array.extract_eq_pop (by omega)).symm
  · simp [popLoop, ← hframes]
  · exact (Array.extract_eq_pop (by omega)).symm

theorem leaveCall {d : Decl} (he : e.Rooted) (h : (e.callOpened d).Balanced e') :
    e.Balanced (e'.popFrame.2.leave s).1 := by
  have hpos := he.size_pos
  have hsize : e'.popFrame.2.scopes.size = e.scopes.size + 1 :=
    h.size_scopes.trans (Array.size_push _)
  have hframes : e'.frames.size = e.frames.size + 1 := h.size_frames.trans (Array.size_push _)
  have hloops : e'.loops.size = e.loops.size := h.size_loops
  rw [leave_fst, if_pos (by omega)]
  apply (Extends.callOpened.trans h.toExtends).balanced
  · exact (Array.extract_eq_pop (by omega)).symm
  · exact (Array.extract_eq_pop (by omega)).symm
  · simp [popFrame, ← hloops]

end Balanced

/-! ### Taking the stacks back -/

theorem leaveMany_eq_extract {n : Nat} (h : n < e.scopes.size) :
    (leaveMany n e s).1 = { e with scopes := e.scopes.extract 0 (e.scopes.size - n) } := by
  induction n generalizing e s with
  | zero => simp [leaveMany]
  | succ n ih =>
    have hleave : (e.leave s).1 = { e with scopes := e.scopes.pop } := by
      rw [leave_fst, if_pos (by omega)]
    have hsize : (e.leave s).1.scopes.size = e.scopes.size - 1 := by rw [hleave, Array.size_pop]
    simp only [leaveMany]
    rw [ih (by omega), hsize, hleave, ← Array.extract_eq_pop rfl]
    simp only [Array.extract_extract, Environment.mk.injEq, and_true]
    congr 1
    omega

/-- Stacks that were only built upon get back to what they were, names in the innermost scope
apart. -/
theorem Extends.restore (h : e.Extends e') (he : e.Rooted) :
    e.Balanced (e'.restore s e.checkpoint).1 := by
  have hpos := he.size_pos
  have hsize := h.size_scopes
  have hcount : e'.scopes.size - max e.scopes.size 1 <
      { e' with
        loops := e'.loops.take e.loops.size
        frames := e'.frames.take e.frames.size }.scopes.size := by
    simp only
    omega
  have hmarks : ∀ w : Environment,
      (w.modifyScope 0 ({ · with isSkipped := false })).unmarked = w.unmarked :=
    fun w => unmarked_modifyScope_of_marks fun _ => rfl
  refine Balanced.trans ?_ (.of_unmarked (hmarks _))
  simp only [checkpoint]
  rw [leaveMany_eq_extract hcount]
  apply h.balanced
  · simp only
    congr 1
    omega
  · exact Array.take_eq_extract
  · exact Array.take_eq_extract

end Environment
end Scripting
