import Mathlib.Tactic.Common
import Scripting.Proofs.Environment.Balance

/-! The order of calls, loops and scopes on the stacks, and how far the marks of statements
reach. -/
namespace Scripting

theorem Frame.depths_of_unmarked {f g : Frame} (h : g.unmarked = f.unmarked) :
    g.scopeDepth = f.scopeDepth ∧ g.loopDepth = f.loopDepth := by
  simp only [Frame.unmarked, Frame.mk.injEq] at h
  tauto

theorem LoopState.index_of_unmarked {l m : LoopState} (h : m.unmarked = l.unmarked) :
    m.scopeIndex = l.scopeIndex := by
  simp only [LoopState.unmarked, LoopState.mk.injEq] at h
  tauto

namespace Environment

variable {e e' e'' : Environment} {s : Store} {i d : Nat}

/-- Calls and loops have scopes of their own, in the order in which they were opened, and the loops
of a call are those that were opened after it. -/
structure WellNested (e : Environment) : Prop where
  frameScope : ∀ (i : Nat) (f : Frame), e.frames[i]? = some f →
    e.scopes[f.scopeDepth]?.map (·.kind) = some .function
  frameOrder : ∀ (i j : Nat) (f g : Frame), i < j → e.frames[i]? = some f → e.frames[j]? = some g →
    f.scopeDepth < g.scopeDepth ∧ f.loopDepth ≤ g.loopDepth
  frameLoops : ∀ (i : Nat) (f : Frame), e.frames[i]? = some f → f.loopDepth ≤ e.loops.size
  loopScope : ∀ (i : Nat) (l : LoopState), e.loops[i]? = some l →
    e.scopes[l.scopeIndex]?.map (·.kind) = some .loop
  loopOrder : ∀ (i j : Nat) (l m : LoopState), i < j → e.loops[i]? = some l → e.loops[j]? = some m →
    l.scopeIndex < m.scopeIndex
  apart : ∀ (i j : Nat) (f : Frame) (l : LoopState), e.frames[i]? = some f → e.loops[j]? = some l →
    (f.loopDepth ≤ j → f.scopeDepth < l.scopeIndex) ∧
      (j < f.loopDepth → l.scopeIndex < f.scopeDepth)

theorem lt_size_of_kind {k : ScopeKind} (h : e.scopes[i]?.map (·.kind) = some k) :
    i < e.scopes.size := by
  obtain ⟨x, hx, -⟩ := Option.map_eq_some_iff.mp h
  exact (Array.getElem?_eq_some_iff.mp hx).1

theorem Extends.kind (h : e.Extends e') {k : ScopeKind} (hk : e.scopes[i]?.map (·.kind) = some k) :
    e'.scopes[i]?.map (·.kind) = some k := by
  obtain ⟨x, hx, hkind⟩ := Option.map_eq_some_iff.mp hk
  obtain ⟨y, hy, hxy, -⟩ := h.scope i x hx
  exact Option.map_eq_some_iff.mpr ⟨y, hy, hxy.1.trans hkind⟩

namespace Balanced

theorem exists_frame (h : e.Balanced e') {g : Frame} (hg : e'.frames[i]? = some g) :
    ∃ f, e.frames[i]? = some f ∧ g.unmarked = f.unmarked := by
  have hi : i < e.frames.size := h.size_frames ▸ (Array.getElem?_eq_some_iff.mp hg).1
  obtain ⟨g', hg', heq⟩ := h.frame i _ (Array.getElem?_eq_getElem hi)
  rw [hg] at hg'
  cases hg'
  exact ⟨_, Array.getElem?_eq_getElem hi, heq⟩

theorem exists_loop (h : e.Balanced e') {m : LoopState} (hm : e'.loops[i]? = some m) :
    ∃ l, e.loops[i]? = some l ∧ m.unmarked = l.unmarked := by
  have hi : i < e.loops.size := h.size_loops ▸ (Array.getElem?_eq_some_iff.mp hm).1
  obtain ⟨m', hm', heq⟩ := h.loop i _ (Array.getElem?_eq_getElem hi)
  rw [hm] at hm'
  cases hm'
  exact ⟨_, Array.getElem?_eq_getElem hi, heq⟩

theorem wellNested (h : e.Balanced e') (he : e.WellNested) : e'.WellNested where
  frameScope := by
    intro i g hg
    obtain ⟨f, hf, heq⟩ := h.exists_frame hg
    rw [(Frame.depths_of_unmarked heq).1]
    exact h.toExtends.kind (he.frameScope i f hf)
  frameOrder := by
    intro i j g g' hij hg hg'
    obtain ⟨f, hf, heq⟩ := h.exists_frame hg
    obtain ⟨f', hf', heq'⟩ := h.exists_frame hg'
    have := Frame.depths_of_unmarked heq
    have := Frame.depths_of_unmarked heq'
    have := he.frameOrder i j f f' hij hf hf'
    omega
  frameLoops := by
    intro i g hg
    obtain ⟨f, hf, heq⟩ := h.exists_frame hg
    rw [(Frame.depths_of_unmarked heq).2, h.size_loops]
    exact he.frameLoops i f hf
  loopScope := by
    intro i m hm
    obtain ⟨l, hl, heq⟩ := h.exists_loop hm
    rw [LoopState.index_of_unmarked heq]
    exact h.toExtends.kind (he.loopScope i l hl)
  loopOrder := by
    intro i j m m' hij hm hm'
    obtain ⟨l, hl, heq⟩ := h.exists_loop hm
    obtain ⟨l', hl', heq'⟩ := h.exists_loop hm'
    rw [LoopState.index_of_unmarked heq, LoopState.index_of_unmarked heq']
    exact he.loopOrder i j l l' hij hl hl'
  apart := by
    intro i j g m hg hm
    obtain ⟨f, hf, heq⟩ := h.exists_frame hg
    obtain ⟨l, hl, heq'⟩ := h.exists_loop hm
    rw [(Frame.depths_of_unmarked heq).1, (Frame.depths_of_unmarked heq).2,
      LoopState.index_of_unmarked heq']
    exact he.apart i j f l hf hl

end Balanced

theorem getElem?_push_cases {α : Type} {xs : Array α} {a x : α} (h : (xs.push a)[i]? = some x) :
    xs[i]? = some x ∧ i < xs.size ∨ i = xs.size ∧ x = a := by
  rw [Array.getElem?_push] at h
  split at h
  · next hi =>
    cases h
    exact .inr ⟨hi, rfl⟩
  · exact .inl ⟨h, (Array.getElem?_eq_some_iff.mp h).1⟩

theorem loop_of_loopOpened {fs : List Decl} {l : LoopState}
    (h : (e.loopOpened fs).loops[i]? = some l) :
    e.loops[i]? = some l ∧ i < e.loops.size ∨
      i = e.loops.size ∧ l = { scopeIndex := e.scopes.size } :=
  getElem?_push_cases h

theorem frame_of_callOpened {d : Decl} {f : Frame} (h : (e.callOpened d).frames[i]? = some f) :
    e.frames[i]? = some f ∧ i < e.frames.size ∨
      i = e.frames.size ∧
        f = { decl := d, scopeDepth := e.scopes.size, loopDepth := e.loops.size } := by
  have hindex : (e.enter .function []).currentIndex = e.scopes.size := by
    simp [enter, currentIndex]
  rw [← hindex]
  exact getElem?_push_cases h

namespace WellNested

theorem enter {kind : ScopeKind} {fs : List Decl} (h : e.WellNested) :
    (e.enter kind fs).WellNested where
  frameScope := fun i f hf => Extends.enter.kind (h.frameScope i f hf)
  frameOrder := h.frameOrder
  frameLoops := h.frameLoops
  loopScope := fun i l hl => Extends.enter.kind (h.loopScope i l hl)
  loopOrder := h.loopOrder
  apart := h.apart

theorem loopOpened {fs : List Decl} (h : e.WellNested) : (e.loopOpened fs).WellNested where
  frameScope := fun i f hf => Extends.loopOpened.kind (h.frameScope i f hf)
  frameOrder := h.frameOrder
  frameLoops := fun i f hf =>
    Nat.le_trans (h.frameLoops i f hf) Extends.loopOpened.size_loops
  loopScope := by
    intro i l hl
    rcases loop_of_loopOpened hl with ⟨hl, -⟩ | ⟨-, rfl⟩
    · exact Extends.loopOpened.kind (h.loopScope i l hl)
    · simp [Environment.loopOpened, pushLoop, Environment.enter]
  loopOrder := by
    intro i j l m hij hl hm
    rcases loop_of_loopOpened hl with ⟨hl, -⟩ | ⟨rfl, rfl⟩ <;>
      rcases loop_of_loopOpened hm with ⟨hm, hj⟩ | ⟨rfl, rfl⟩
    · exact h.loopOrder i j l m hij hl hm
    · exact lt_size_of_kind (h.loopScope i l hl)
    · omega
    · omega
  apart := by
    intro i j f l hf hl
    have hloops := h.frameLoops i f hf
    have hscope := lt_size_of_kind (h.frameScope i f hf)
    rcases loop_of_loopOpened hl with ⟨hl, -⟩ | ⟨rfl, rfl⟩
    · exact h.apart i j f l hf hl
    · exact ⟨fun _ => hscope, fun hlt => by omega⟩

theorem callOpened {d : Decl} (h : e.WellNested) : (e.callOpened d).WellNested where
  frameScope := by
    intro i f hf
    rcases frame_of_callOpened hf with ⟨hf, -⟩ | ⟨-, rfl⟩
    · exact Extends.callOpened.kind (h.frameScope i f hf)
    · simp [Environment.callOpened, pushFrame, Environment.enter]
  frameOrder := by
    intro i j f g hij hf hg
    rcases frame_of_callOpened hf with ⟨hf, -⟩ | ⟨rfl, rfl⟩ <;>
      rcases frame_of_callOpened hg with ⟨hg, hj⟩ | ⟨rfl, rfl⟩
    · exact h.frameOrder i j f g hij hf hg
    · exact ⟨lt_size_of_kind (h.frameScope i f hf), h.frameLoops i f hf⟩
    · omega
    · omega
  frameLoops := by
    intro i f hf
    rcases frame_of_callOpened hf with ⟨hf, -⟩ | ⟨-, rfl⟩
    · exact h.frameLoops i f hf
    · exact Nat.le_refl _
  loopScope := fun i l hl => Extends.callOpened.kind (h.loopScope i l hl)
  loopOrder := h.loopOrder
  apart := by
    intro i j f l hf hl
    have hj : j < e.loops.size := (Array.getElem?_eq_some_iff.mp hl).1
    have hscope := lt_size_of_kind (h.loopScope j l hl)
    rcases frame_of_callOpened hf with ⟨hf, -⟩ | ⟨-, rfl⟩
    · exact h.apart i j f l hf hl
    · exact ⟨fun hle => absurd hj (Nat.not_lt.mpr hle), fun _ => hscope⟩

end WellNested

/-! ### How far marks reach -/

/-- The outermost scope that a statement at this point can leave skipped. -/
def scopeFloor (e : Environment) : Nat :=
  match e.frames.back?, e.loops.back? with
  | some f, _ => f.scopeDepth
  | none, some l => l.scopeIndex
  | none, none => e.scopes.size

/-- The outermost loop that a statement at this point can leave broken. -/
def breakFloor (e : Environment) : Nat :=
  match e.frames.back? with
  | some f => f.loopDepth
  | none => e.loops.size - 1

theorem scopeFloor_of_frame {f : Frame} (h : e.frames.back? = some f) :
    e.scopeFloor = f.scopeDepth := by
  simp only [scopeFloor, h]

theorem breakFloor_of_frame {f : Frame} (h : e.frames.back? = some f) :
    e.breakFloor = f.loopDepth := by
  simp only [breakFloor, h]

/-- No mark is taken away, and marks are new only where the running call or loop can be left. The
marks of the `d` innermost scopes are anyone's. -/
structure Confined (d : Nat) (e e' : Environment) : Prop where
  scope : ∀ (i : Nat) (x y : Scope), e.scopes[i]? = some x → e'.scopes[i]? = some y →
    i + d < e.scopes.size →
      y.last = x.last ∧ (x.isSkipped = true → y.isSkipped = true) ∧
        (i < e.scopeFloor → y.isSkipped = x.isSkipped)
  loop : ∀ (i : Nat) (l m : LoopState), e.loops[i]? = some l → e'.loops[i]? = some m →
    (l.isBroken = true → m.isBroken = true) ∧ (i < e.breakFloor → m = l)
  frame : ∀ (i : Nat) (f g : Frame), e.frames[i]? = some f → e'.frames[i]? = some g →
    (f.isReturned = true → g.isReturned = true) ∧ (i + 1 < e.frames.size → g = f)

namespace Balanced

theorem back_frames (h : e.Balanced e') :
    e'.frames.back?.map Frame.unmarked = e.frames.back?.map Frame.unmarked := by
  simp only [Array.back?, h.size_frames]
  cases hf : e.frames[e.frames.size - 1]? with
  | none =>
    have := h.size_frames
    simp only [Array.getElem?_eq_none_iff] at hf
    simp [Array.getElem?_eq_none (show e'.frames.size ≤ e.frames.size - 1 by omega)]
  | some f =>
    obtain ⟨g, hg, heq⟩ := h.frame _ f hf
    simp [hg, heq]

theorem back_loops (h : e.Balanced e') :
    e'.loops.back?.map LoopState.unmarked = e.loops.back?.map LoopState.unmarked := by
  simp only [Array.back?, h.size_loops]
  cases hl : e.loops[e.loops.size - 1]? with
  | none =>
    have := h.size_loops
    simp only [Array.getElem?_eq_none_iff] at hl
    simp [Array.getElem?_eq_none (show e'.loops.size ≤ e.loops.size - 1 by omega)]
  | some l =>
    obtain ⟨m, hm, heq⟩ := h.loop _ l hl
    simp [hm, heq]

theorem breakFloor_eq (h : e.Balanced e') : e'.breakFloor = e.breakFloor := by
  have hframes := h.back_frames
  simp only [breakFloor, h.size_loops]
  cases hf : e.frames.back? <;> cases hg : e'.frames.back? <;> simp only [hf, hg] at hframes ⊢
  · simp at hframes
  · simp at hframes
  · exact (Frame.depths_of_unmarked (Option.some.inj hframes)).2

theorem scopeFloor_eq (h : e.Balanced e') : e'.scopeFloor = e.scopeFloor := by
  have hframes := h.back_frames
  have hloops := h.back_loops
  simp only [scopeFloor, h.size_scopes]
  cases hf : e.frames.back? <;> cases hg : e'.frames.back? <;> simp only [hf, hg] at hframes ⊢
  · cases hl : e.loops.back? <;> cases hm : e'.loops.back? <;> simp only [hl, hm] at hloops ⊢
    · simp at hloops
    · simp at hloops
    · exact LoopState.index_of_unmarked (Option.some.inj hloops)
  · simp at hframes
  · simp at hframes
  · exact (Frame.depths_of_unmarked (Option.some.inj hframes)).1

end Balanced

namespace Confined

theorem trans (hb : e.Balanced e') (h : e.Confined d e') (h' : e'.Confined d e'') :
    e.Confined d e'' where
  scope := by
    intro i x z hx hz hi
    obtain ⟨y, hy, -⟩ := hb.scope i x hx
    obtain ⟨hlast, hset, hbelow⟩ := h.scope i x y hx hy hi
    obtain ⟨hlast', hset', hbelow'⟩ := h'.scope i y z hy hz (hb.size_scopes ▸ hi)
    rw [hb.scopeFloor_eq] at hbelow'
    exact ⟨hlast'.trans hlast, fun hskip => hset' (hset hskip),
      fun hlt => (hbelow' hlt).trans (hbelow hlt)⟩
  loop := by
    intro i l n hl hn
    obtain ⟨m, hm, -⟩ := hb.loop i l hl
    obtain ⟨hset, hbelow⟩ := h.loop i l m hl hm
    obtain ⟨hset', hbelow'⟩ := h'.loop i m n hm hn
    rw [hb.breakFloor_eq] at hbelow'
    exact ⟨fun hbroken => hset' (hset hbroken), fun hlt => (hbelow' hlt).trans (hbelow hlt)⟩
  frame := by
    intro i f k hf hk
    obtain ⟨g, hg, -⟩ := hb.frame i f hf
    obtain ⟨hset, hbelow⟩ := h.frame i f g hf hg
    obtain ⟨hset', hbelow'⟩ := h'.frame i g k hg hk
    rw [hb.size_frames] at hbelow'
    exact ⟨fun hreturned => hset' (hset hreturned), fun hlt => (hbelow' hlt).trans (hbelow hlt)⟩

theorem mono {k : Nat} (h : e.Confined d e') (hd : d ≤ k) : e.Confined k e' :=
  ⟨fun i x y hx hy hi => h.scope i x y hx hy (by omega), h.loop, h.frame⟩

/-- A change of variables. -/
theorem of_bare (h : e'.bare = e.bare) : e.Confined d e' where
  scope := by
    intro i x y hx hy _
    have hscopes : e'.scopes.map Scope.bare = e.scopes.map Scope.bare := congrArg scopes h
    have hi := congrArg (·[i]?) hscopes
    simp only [Array.getElem?_map, hx, hy, Option.map_some, Option.some.injEq, Scope.bare,
      Scope.mk.injEq] at hi
    obtain ⟨-, -, -, hskip, hlast⟩ := hi
    exact ⟨hlast, fun hx => hskip.trans hx, fun _ => hskip⟩
  loop := by
    intro i l m hl hm
    have hloops : e'.loops = e.loops := (congrArg loops h : e'.bare.loops = e.bare.loops)
    rw [hloops, hl] at hm
    cases hm
    exact ⟨id, fun _ => rfl⟩
  frame := by
    intro i f g hf hg
    have hframes : e'.frames = e.frames := (congrArg frames h : e'.bare.frames = e.bare.frames)
    rw [hframes, hf] at hg
    cases hg
    exact ⟨id, fun _ => rfl⟩

/-- Statements may put any marks on the scope that they run in. -/
theorem modifyCurrent {f : Scope → Scope} : e.Confined 1 (e.modifyScope e.currentIndex f) where
  scope := by
    intro i x y hx hy hi
    have hne : e.currentIndex ≠ i := by
      simp only [currentIndex]
      omega
    simp only [modifyScope, Array.getElem?_modify, if_neg hne, hx, Option.some.injEq] at hy
    subst hy
    exact ⟨rfl, id, fun _ => rfl⟩
  loop := by
    intro i l m hl hm
    cases hl.symm.trans hm
    exact ⟨id, fun _ => rfl⟩
  frame := by
    intro i f g hf hg
    cases hf.symm.trans hg
    exact ⟨id, fun _ => rfl⟩

theorem skipFrom (hi : e.scopeFloor ≤ i) : e.Confined d (e.skipFrom i) where
  scope := by
    intro j x y hx hy _
    simp only [Environment.skipFrom, Array.getElem?_mapIdx, hx, Option.map_some,
      Option.some.injEq] at hy
    subst hy
    by_cases hij : i ≤ j
    · rw [if_pos hij]
      exact ⟨rfl, fun _ => rfl, fun hlt => by omega⟩
    · rw [if_neg hij]
      exact ⟨rfl, id, fun _ => rfl⟩
  loop := by
    intro j l m hl hm
    cases hl.symm.trans hm
    exact ⟨id, fun _ => rfl⟩
  frame := by
    intro j f g hf hg
    cases hf.symm.trans hg
    exact ⟨id, fun _ => rfl⟩

/-- Loops from the floor on may be broken, with any result. -/
theorem modifyLoops {ls : Array LoopState}
    (h : ∀ (i : Nat) (l m : LoopState), e.loops[i]? = some l → ls[i]? = some m →
      m = l ∨ e.breakFloor ≤ i ∧ m.isBroken = true) : e.Confined d { e with loops := ls } where
  scope := by
    intro j x y hx hy _
    cases hx.symm.trans hy
    exact ⟨rfl, id, fun _ => rfl⟩
  loop := by
    intro j l m hl hm
    rcases h j l m hl hm with rfl | ⟨hfloor, hbroken⟩
    · exact ⟨id, fun _ => rfl⟩
    · exact ⟨fun _ => hbroken, fun hlt => by omega⟩
  frame := by
    intro j f g hf hg
    cases hf.symm.trans hg
    exact ⟨id, fun _ => rfl⟩

theorem breakLoopsFrom (hi : e.breakFloor ≤ i) : e.Confined d (e.breakLoopsFrom i) := by
  apply modifyLoops
  intro j l m hl hm
  simp only [Array.getElem?_mapIdx, hl, Option.map_some, Option.some.injEq] at hm
  subst hm
  by_cases hij : i ≤ j
  · simp only [if_pos hij]
    exact .inr ⟨by omega, trivial⟩
  · simp [if_neg hij]

theorem returning {o : ObjectId} :
    e.Confined d (e.modifyFrame ({ · with result := some o, isReturned := true })) where
  scope := by
    intro j x y hx hy _
    cases hx.symm.trans hy
    exact ⟨rfl, id, fun _ => rfl⟩
  loop := by
    intro j l m hl hm
    cases hl.symm.trans hm
    exact ⟨id, fun _ => rfl⟩
  frame := by
    intro j f g hf hg
    simp only [modifyFrame, Array.getElem?_modify, hf, Option.map_some] at hg
    split at hg
    · next hlast =>
      cases hg
      exact ⟨fun _ => rfl, fun hlt => by omega⟩
    · cases hg
      exact ⟨id, fun _ => rfl⟩

theorem leaveFunction {o : ObjectId} : e.Confined d (Eval.leaveFunction e o) := by
  unfold Eval.leaveFunction
  cases hframe : e.currentFrame? with
  | none => exact of_bare rfl
  | some f =>
    have hreturn : e.Balanced (e.modifyFrame ({ · with result := some o, isReturned := true })) :=
      .of_unmarked (unmarked_modifyFrame fun _ => rfl)
    have hskip : ∀ w : Environment, w.Balanced (w.skipFrom f.scopeDepth) :=
      fun _ => .of_unmarked unmarked_skipFrom
    refine trans (hreturn.trans (hskip _)) (trans hreturn returning (skipFrom ?_))
      (breakLoopsFrom ?_)
    · exact Nat.le_of_eq (hreturn.scopeFloor_eq.trans (scopeFloor_of_frame hframe))
    · exact Nat.le_of_eq ((hreturn.trans (hskip _)).breakFloor_eq.trans
        (breakFloor_of_frame hframe))

/-- The innermost loop of the running call lies inside what can be left. -/
theorem floors_of_currentLoop {l : LoopState} (he : e.WellNested) (hl : e.currentLoop? = some l) :
    e.scopeFloor ≤ l.scopeIndex ∧ e.breakFloor ≤ e.loops.size - 1 := by
  simp only [currentLoop?, Option.ite_none_right_eq_some] at hl
  obtain ⟨hfloor, hback⟩ := hl
  cases hf : e.frames.back? with
  | none => simp [scopeFloor, breakFloor, hf, hback]
  | some f =>
    simp only [loopFloor, hf, Option.map_some, Option.getD_some] at hfloor
    have hapart := he.apart _ _ f l hf hback
    rw [scopeFloor_of_frame hf, breakFloor_of_frame hf]
    exact ⟨by omega, by omega⟩

theorem leaveLoop {r : Option ObjectId} (he : e.WellNested) :
    e.Confined d (Eval.leaveLoop e r) := by
  unfold Eval.leaveLoop
  cases hloop : e.currentLoop? with
  | none => exact of_bare rfl
  | some l =>
    obtain ⟨hscope, hbreak⟩ := floors_of_currentLoop he hloop
    have hb : e.Balanced (e.modifyLoop ({ · with result := r, isBroken := true })) :=
      .of_unmarked (unmarked_modifyLoop fun _ => rfl)
    refine trans hb ?_ (skipFrom (hb.scopeFloor_eq ▸ hscope))
    unfold modifyLoop
    split
    · apply modifyLoops
      intro j m n hm hn
      simp only [Array.getElem?_modify, hm, Option.map_some] at hn
      split at hn
      · cases hn
        exact .inr ⟨by omega, rfl⟩
      · cases hn
        exact .inl rfl
    · exact of_bare rfl

theorem continueLoop {l : LoopState} (he : e.WellNested) (hl : e.currentLoop? = some l) :
    e.Confined d (e.skipFrom l.scopeIndex) :=
  skipFrom (floors_of_currentLoop he hl).1

/-- Closing what was opened takes the freedom inside away. -/
theorem close {w : Environment} (h : e'.Confined 1 e'') (hsize : e'.scopes.size = e.scopes.size + 1)
    (hscopes : ∀ i < e.scopes.size, e'.scopes[i]? = e.scopes[i]? ∧ w.scopes[i]? = e''.scopes[i]?)
    (hloops : ∀ i < e.loops.size, e'.loops[i]? = e.loops[i]? ∧ w.loops[i]? = e''.loops[i]?)
    (hframes : ∀ i < e.frames.size, e'.frames[i]? = e.frames[i]? ∧ w.frames[i]? = e''.frames[i]?)
    (hscope : ∀ i < e.scopes.size, i < e.scopeFloor → i < e'.scopeFloor)
    (hbreak : ∀ i < e.loops.size, i < e.breakFloor → i < e'.breakFloor)
    (hframe : e.frames.size ≤ e'.frames.size) : e.Confined 0 w where
  scope := by
    intro i x y hx hy hi
    obtain ⟨hbefore, hafter⟩ := hscopes i hi
    obtain ⟨hlast, hset, hbelow⟩ :=
      h.scope i x y (hbefore.trans hx) (hafter.symm.trans hy) (by omega)
    exact ⟨hlast, hset, fun hlt => hbelow (hscope i hi hlt)⟩
  loop := by
    intro i l m hl hm
    have hi := (Array.getElem?_eq_some_iff.mp hl).1
    obtain ⟨hbefore, hafter⟩ := hloops i hi
    obtain ⟨hset, hbelow⟩ := h.loop i l m (hbefore.trans hl) (hafter.symm.trans hm)
    exact ⟨hset, fun hlt => hbelow (hbreak i hi hlt)⟩
  frame := by
    intro i f g hf hg
    obtain ⟨hbefore, hafter⟩ := hframes i (Array.getElem?_eq_some_iff.mp hf).1
    obtain ⟨hset, hbelow⟩ := h.frame i f g (hbefore.trans hf) (hafter.symm.trans hg)
    exact ⟨hset, fun hlt => hbelow (by omega)⟩

theorem getElem?_leave (hi : i + 1 < e.scopes.size) : (e.leave s).1.scopes[i]? = e.scopes[i]? := by
  rw [leave_fst, if_pos (by omega), Array.getElem?_pop, if_pos (by omega)]

theorem frames_leave : (e.leave s).1.frames = e.frames := by
  rw [leave_fst]
  split <;> rfl

theorem loops_leave : (e.leave s).1.loops = e.loops := by
  rw [leave_fst]
  split <;> rfl

theorem getElem?_push_of_lt {α : Type} {xs : Array α} {a : α} (hi : i < xs.size) :
    (xs.push a)[i]? = xs[i]? := by
  rw [Array.getElem?_push, if_neg (by omega)]

theorem getElem?_pop_of_lt {α : Type} {xs : Array α} (hi : i + 1 < xs.size) :
    xs.pop[i]? = xs[i]? := by
  rw [Array.getElem?_pop, if_pos (by omega)]

theorem leaveBlock {fs : List Decl} (hb : (e.enter .block fs).Balanced e')
    (h : (e.enter .block fs).Confined 1 e') : e.Confined 0 (e'.leave s).1 := by
  have hsize : e'.scopes.size = e.scopes.size + 1 := hb.size_scopes.trans (Array.size_push _)
  apply h.close (Array.size_push _)
  · exact fun i hi => ⟨getElem?_push_of_lt hi, getElem?_leave (by omega)⟩
  · exact fun i _ => ⟨rfl, by rw [loops_leave]⟩
  · exact fun i _ => ⟨rfl, by rw [frames_leave]⟩
  · intro i hi hlt
    cases hf : e.frames.back? <;> cases hl : e.loops.back? <;>
      simp_all [scopeFloor, enter]
    omega
  · exact fun _ _ => id
  · exact Nat.le_refl _

theorem leaveLoopScope {fs : List Decl} (hb : (e.loopOpened fs).Balanced e')
    (h : (e.loopOpened fs).Confined 1 e') : e.Confined 0 (e'.popLoop.2.leave s).1 := by
  have hsize : e'.popLoop.2.scopes.size = e.scopes.size + 1 :=
    hb.size_scopes.trans (Array.size_push _)
  have hloops : e'.loops.size = e.loops.size + 1 := hb.size_loops.trans (Array.size_push _)
  apply h.close (Array.size_push _)
  · exact fun i hi => ⟨getElem?_push_of_lt hi, getElem?_leave (by omega)⟩
  · exact fun i hi =>
      ⟨getElem?_push_of_lt hi, by rw [loops_leave]; exact getElem?_pop_of_lt (by omega)⟩
  · exact fun i _ => ⟨rfl, by rw [frames_leave]; rfl⟩
  · intro i hi hlt
    cases hf : e.frames.back? <;> simp_all [scopeFloor, loopOpened, pushLoop, enter]
  · intro i hi hlt
    cases hf : e.frames.back? <;> simp_all [breakFloor, loopOpened, pushLoop, enter]
  · exact Nat.le_refl _

theorem leaveCall {d : Decl} (hb : (e.callOpened d).Balanced e')
    (h : (e.callOpened d).Confined 1 e') : e.Confined 0 (e'.popFrame.2.leave s).1 := by
  have hsize : e'.popFrame.2.scopes.size = e.scopes.size + 1 :=
    hb.size_scopes.trans (Array.size_push _)
  have hframes : e'.frames.size = e.frames.size + 1 := hb.size_frames.trans (Array.size_push _)
  have hback : (e.callOpened d).frames.back? = _ := Array.back?_push
  apply h.close (Array.size_push _)
  · exact fun i hi => ⟨getElem?_push_of_lt hi, getElem?_leave (by omega)⟩
  · exact fun i hi => ⟨rfl, by rw [loops_leave]; rfl⟩
  · exact fun i hi =>
      ⟨getElem?_push_of_lt hi, by rw [frames_leave]; exact getElem?_pop_of_lt (by omega)⟩
  · intro i hi _
    rw [scopeFloor_of_frame hback]
    simpa [enter, currentIndex] using hi
  · intro i hi _
    rw [breakFloor_of_frame hback]
    exact hi
  · exact Extends.callOpened.size_frames

end Confined

/-- What evaluation does to stacks when it ends in a value. -/
structure Keeps (d : Nat) (e e' : Environment) : Prop where
  balanced : e.Balanced e'
  confined : e.WellNested → e.Confined d e'

namespace Keeps

theorem refl : e.Keeps d e := ⟨.refl, fun _ => .of_bare rfl⟩

theorem trans (h : e.Keeps d e') (h' : e'.Keeps d e'') : e.Keeps d e'' :=
  ⟨h.balanced.trans h'.balanced, fun he =>
    (h.confined he).trans h.balanced (h'.confined (h.balanced.wellNested he))⟩

theorem mono {k : Nat} (h : e.Keeps d e') (hd : d ≤ k) : e.Keeps k e' :=
  ⟨h.balanced, fun he => (h.confined he).mono hd⟩

end Keeps

end Environment
end Scripting
