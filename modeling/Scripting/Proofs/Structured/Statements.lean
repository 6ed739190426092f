import Mathlib.Tactic.Common
import Scripting.Proofs.Structured.Marking
import Scripting.Proofs.Structured.Operands

/-! Statement lists, blocks, conditions and the statements that leave: marks and outcomes agree. -/
namespace Scripting

/-- The stacks have nothing to leave where the position has nothing to leave. -/
def Position.Holds (p : Position) (B : Environment) : Prop :=
  (p.loop = .none → B.currentLoop? = none) ∧ (p.function = .none → B.currentFrame? = none)

/-- Whether a node at a position may end so. -/
def Outcome.Permitted (p : Position) : Outcome → Prop
  | .normal _ => True
  | .broken _ | .continued => p.loop = .clear
  | .returned _ => p.function = .clear

def Known.outcome (K : Known) : Outcome → Prop
  | .normal _ | .continued => True
  | .broken r => ∀ o ∈ r, K.object o
  | .returned o => K.object o

def Known.items (K : Known) : Eval.Items → Prop
  | .range _ => True
  | .elements os => ∀ o ∈ os, K.object o

theorem Known.Safe.enter {K : Known} {s : State} (hs : K.Safe s) {k : ScopeKind} {fs : List Decl}
    (hfs : ∀ d ∈ fs, K.decl d) : K.Safe { s with env := s.env.enter k fs } := by
  refine hs.env ?_ ?_ hs.frame
  · intro scope hscope
    obtain hin | rfl := Array.mem_push.mp hscope
    · exact hs.var scope hin
    · simp
  · intro scope hscope
    obtain hin | rfl := Array.mem_push.mp hscope
    · exact hs.scope scope hin
    · exact hfs

theorem Position.Holds.operand {p : Position} {B : Environment} (h : p.Holds B) :
    p.operand.Holds B := by
  obtain ⟨l, f⟩ := p
  cases l <;> cases f <;> simp_all [Position.Holds, Position.operand, Way.within]

namespace Structured

open Eval Environment

variable {K : Known} {p : Position} {B C : Environment} {v : ObjectId} {out : Outcome}
  {ev : Node → Eval ObjectId} {ex : Node → Eval Outcome}

/-- How the value of a statement and its outcome fit together. -/
structure Ending (K : Known) (p : Position) (B : Environment) (v : ObjectId) (out : Outcome) :
    Prop where
  value : ∀ o, out = .normal o → o = v
  permitted : out.Permitted p
  leaves : (∃ o, out = .normal o) ∨ (B.level? out).isSome
  object : K.object v
  known : K.outcome out

/-- The evaluation with marks ends in the stacks that stand for the outcome. -/
def Ends (K : Known) (p : Position) (B : Environment) (v : ObjectId) (out : Outcome)
    (C : Environment) : Prop := C = out.mark B ∧ Ending K p B v out

/-- The two evaluations agree on a node wherever it may stand. -/
def Simulates (K : Known) (ev : Node → Eval ObjectId) (ex : Node → Eval Outcome) : Prop :=
  ∀ p B n, B.Coherent → p.Holds B → K.Fits p n → Matches K B (ev n) (ex n) (Ends K p B)

theorem Ending.normal (h : K.object v) : Ending K p B v (.normal v) :=
  ⟨fun _ ho => by cases ho; rfl, trivial, .inl ⟨v, rfl⟩, h, trivial⟩

theorem Ending.congr (h : Ending K p B v out) (hloop : B.currentLoop? = C.currentLoop?)
    (hframe : B.currentFrame? = C.currentFrame?) : Ending K p C v out := by
  have hlevel : B.level? out = C.level? out := by cases out <;> simp [level?, hloop, hframe]
  exact ⟨h.value, h.permitted, hlevel ▸ h.leaves, h.object, h.known⟩

/-- An operand has no way to end but normally. -/
theorem Ending.operand (hp : p.operand = p) (h : Ending K p B v out) : out = .normal v := by
  have hper := h.permitted
  have hl : p.loop ≠ .clear := by
    rw [← hp]
    cases hpl : p.loop <;> simp [Position.operand, Way.within, hpl]
  have hf : p.function ≠ .clear := by
    rw [← hp]
    cases hpf : p.function <;> simp [Position.operand, Way.within, hpf]
  cases out with
  | normal o => rw [h.value o rfl]
  | broken _ | continued => exact absurd hper hl
  | returned _ => exact absurd hper hf

theorem Simulates.operand (hsim : Simulates K ev ex) (hB : B.Coherent) (hp : p.operand = p)
    (hpos : p.Holds B) {n : Node} (hn : K.Fits p n) :
    Matches K B (ev n) (operand ex n) (Steady K.object B) := by
  rw [← bind_pure (ev n)]
  refine (hsim p B n hB hpos hn).bind fun v out C h => ?_
  obtain ⟨rfl, hend⟩ := h
  rw [hend.operand hp]
  exact .pure ⟨rfl, hend.object, rfl⟩

namespace Matches

theorem normal {x y : Eval ObjectId} (h : Matches K B x y (Steady K.object B)) :
    Matches K B x (do return .normal (← y)) (Ends K p B) := by
  rw [← bind_pure x]
  exact h.andThen fun o ho => .pure ⟨rfl, .normal ho⟩

/-- A statement that leaves: one side marks, the other says so. -/
theorem leaving (hout : out.Permitted p) (hlevel : (B.level? out).isSome) (hknown : K.outcome out)
    (hC : C = out.mark B) (hn : ∀ o, out ≠ .normal o) :
    Matches K C Eval.allocNone (Structured.leaving out) (Ends K p B) := by
  rw [← bind_pure Eval.allocNone]
  refine allocNone.andThen fun v hv => .pure ⟨hC, ?_⟩
  exact ⟨fun o ho => absurd ho (hn o), hout, .inr hlevel, hv, hknown⟩

/-- A change of the stacks that sees neither marks nor variables. -/
theorem restack {m : Environment → Environment} (hu : ∀ e, (m e).unmarked = m e.unmarked)
    (hb : ∀ e, (m e).bare = m e.bare)
    (hsafe : ∀ s, K.Safe s → K.Safe { s with env := m s.env }) :
    Matches K B (modifyEnv m) (modifyEnv m) (fun _ _ C => C = m B) := by
  intro s t hB hst hs
  have hst' : State.Alike { s with env := m s.env } { t with env := m t.env } := by
    have henv : s.env.unmarked = t.env.unmarked := congrArg State.env hst
    have hrest := congrArg (fun u : State => { u with env := m s.env.unmarked }) hst
    simp only [State.Alike, State.unmarked, hu, ← henv] at hrest ⊢
    exact hrest
  exact ⟨by rw [← hB, ← hb], hst', hsafe s hs⟩

theorem enter {kind : ScopeKind} {fs : List Decl} (hfs : ∀ d ∈ fs, K.decl d) :
    Matches K B (modifyEnv (·.enter kind fs)) (modifyEnv (·.enter kind fs))
      (fun _ _ C => C = B.enter kind fs) := by
  exact restack (fun _ => unmarked_enter) (fun _ => bare_enter) fun s hs => hs.enter hfs

theorem leaveScope :
    Matches K B Eval.leaveScope Eval.leaveScope (fun _ _ C => ∀ u, C = (B.leave u).1) := by
  have hb : Blind Eval.leaveScope := by
    refine blind_modifyGet fun s => ?_
    simp [State.unmarked, leave_unmarked]
  refine hb.matches fun s _ s' hB hs h => ?_
  cases h
  exact ⟨fun u => by rw [← hB]; exact bare_leave, hs.leave⟩

end Matches

theorem setLast_setLast {i : Nat} {q r : Option ObjectId} :
    (B.setLast i q).setLast i r = B.setLast i r := by
  simp only [setLast, modifyScope, Environment.mk.injEq, and_true]
  ext k hk hk' : 1
  · simp
  · simp only [Array.getElem_modify]
    split <;> rfl

theorem rested_setLast : B.rested.setLast B.currentIndex none = B.rested := by
  simp only [rested, setLast, modifyScope, Environment.mk.injEq, and_true]
  ext k hk hk' : 1
  · simp
  · simp only [Array.getElem_modify]
    split <;> rfl

theorem unmarked_setLast {i : Nat} {r : Option ObjectId} : (B.setLast i r).unmarked = B.unmarked :=
  unmarked_modifyScope_of_marks fun _ => rfl

theorem bare_setLast {i : Nat} {r : Option ObjectId} : (B.setLast i r).bare = B.bare.setLast i r :=
  bare_modifyScope fun _ => rfl

theorem Matches.setLast {γ δ : Type} {f : Unit → Eval γ} {y : Eval δ}
    {Q : γ → δ → Environment → Prop} {i : Nat} {r : Option ObjectId}
    (h : Matches K (B.setLast i r) (f ()) y Q) :
    Matches K B (modifyEnv (·.setLast i r) >>= f) y Q :=
  .mark (fun _ => unmarked_setLast) (fun _ => bare_setLast) h

theorem Matches.rest {γ δ : Type} {f : Unit → Eval γ} {y : Eval δ}
    {Q : γ → δ → Environment → Prop} (h : Matches K B.rested (f ()) y Q) :
    Matches K B (modifyEnv (·.modifyScope B.currentIndex
      ({ · with isSkipped := false, last := none })) >>= f) y Q :=
  .mark (fun _ => unmarked_modifyScope_of_marks fun _ => rfl)
    (fun _ => bare_modifyScope fun _ => rfl) h

/-- What is read of a scope's marks is read of the stacks without variables. -/
theorem isSkipped_of_bare {s : State} {i : Nat} (h : s.env.bare = B) :
    s.env.scopes[i]?.map (·.isSkipped) = B.scopes[i]?.map (·.isSkipped) := by
  rw [← h, isSkipped_bare]

theorem isSkipped_setLast {i j : Nat} {r : Option ObjectId} :
    (B.setLast i r).scopes[j]?.map (·.isSkipped) = B.scopes[j]?.map (·.isSkipped) := by
  simp only [setLast, modifyScope, Array.getElem?_modify]
  split
  · cases B.scopes[j]? <;> rfl
  · rfl

/-- The statements of a list, from stacks whose innermost scope is not skipped. The invariant is
that they differ from the first ones in nothing but the value of the latest statement. -/
theorem Simulates.runStatements (hsim : Simulates K ev ex) (hB : B.Coherent) (hpos : p.Holds B)
    (hrun : B.scopes[B.currentIndex]?.map (·.isSkipped) = some false) {n : Node} {nodes : List Node}
    (hn : ∀ m ∈ n :: nodes, K.Fits p m) (l : Option ObjectId) :
    Matches K (B.setLast B.currentIndex l) (Eval.runStatements ev B.currentIndex (n :: nodes))
      (statements ex (n :: nodes))
      (fun _ out C => ∃ v, C = (out.mark B).setLast B.currentIndex (some v) ∧
        Ending K p B v out) := by
  have hnode := hsim p (B.setLast B.currentIndex l) n hB.modifyScope hpos (hn n (by simp))
  induction nodes generalizing n l with
  | nil =>
    rw [← bind_pure (statements ex [n])]
    refine hnode.bind fun v out C h => ?_
    obtain ⟨rfl, hend⟩ := h
    refine .setLast (.readMarks fun s _ => ?_)
    rw [mark_setLast, setLast_setLast]
    split <;> exact .pure ⟨v, rfl, hend.congr rfl rfl⟩
  | cons next nodes ih =>
    refine hnode.bind fun v out C h => ?_
    obtain ⟨rfl, hend⟩ := h
    refine .setLast (.readMarks fun s hs => ?_)
    rw [mark_setLast, setLast_setLast] at hs ⊢
    have hleft : (∃ o, out = .normal o) ∨ (B.level? out).isSome := (hend.congr rfl rfl).leaves
    obtain ⟨o, rfl⟩ | hlevel := hleft
    · have hread : s.env.scopes[B.currentIndex]?.map (·.isSkipped) = some false :=
        (isSkipped_of_bare hs).trans (isSkipped_setLast.trans hrun)
      rw [hread]
      have htail : ∀ m ∈ next :: nodes, K.Fits p m := fun m hm => hn m (List.mem_cons_of_mem n hm)
      exact ih htail (some v)
        (hsim p (B.setLast B.currentIndex (some v)) next hB.modifyScope hpos (htail next (by simp)))
    · have hread : s.env.scopes[B.currentIndex]?.map (·.isSkipped) = some true :=
        (isSkipped_of_bare hs).trans (isSkipped_setLast.trans (isSkipped_mark hB hlevel))
      rw [hread]
      cases out with
      | normal o => cases hlevel
      | broken _ | continued | returned _ => exact .pure ⟨v, rfl, hend.congr rfl rfl⟩

theorem last_setLast {i : Nat} {r : Option ObjectId} (hi : i < B.scopes.size) :
    (B.setLast i r).scopes[i]?.bind (·.last) = r := by
  simp [Environment.setLast, modifyScope, Array.getElem_modify, hi]

theorem isSkipped_rested (hB : B.Coherent) :
    B.rested.scopes[B.currentIndex]?.map (·.isSkipped) = some false := by
  have hpos := hB.pos
  have hlt : B.currentIndex < B.scopes.size := by
    unfold currentIndex
    omega
  simp [rested, modifyScope, Array.getElem_modify, hlt]

/-- Statements run in the innermost scope, whatever marks it had. -/
theorem Simulates.statements (hsim : Simulates K ev ex) (hB : B.Coherent) (hpos : p.Holds B)
    {nodes : List Node} (hn : ∀ m ∈ nodes, K.Fits p m) :
    Matches K B (Eval.statements ev nodes) (statements ex nodes) (Ends K p B.rested) := by
  have hindex : ∀ s : State, s.env.bare = B → s.env.currentIndex = B.currentIndex := by
    intro s hs
    rw [← hs]
    simp [currentIndex]
  have hrested : B.rested.currentIndex = B.currentIndex := by
    simp [rested, modifyScope, currentIndex]
  have hlt : B.currentIndex < B.scopes.size := by
    have := hB.pos
    unfold currentIndex
    omega
  have hlt' : B.currentIndex < B.rested.scopes.size := by simpa [rested, modifyScope] using hlt
  refine .readMarks fun s hs => ?_
  rw [hindex s hs]
  refine .rest ?_
  cases nodes with
  | nil =>
    rw [Eval.runStatements, pure_bind]
    refine .readMarks fun s hs => .setLast ?_
    have hlast : s.env.scopes[B.currentIndex]?.bind (·.last) = none := by
      rw [← last_bare, hs, ← rested_setLast]
      exact last_setLast hlt'
    rw [hlast, rested_setLast]
    exact Matches.allocNone.normal
  | cons n nodes =>
    have hrun := hsim.runStatements (B := B.rested) hB.modifyScope hpos
      (hrested ▸ isSkipped_rested hB) hn none
    rw [hrested, rested_setLast] at hrun
    rw [← bind_pure (Structured.statements ex (n :: nodes))]
    refine hrun.bind fun _ out C h => ?_
    obtain ⟨v, rfl, hend⟩ := h
    refine .readMarks fun s hs => .setLast ?_
    rw [setLast_setLast, ← mark_setLast, rested_setLast]
    have hlast : s.env.scopes[B.currentIndex]?.bind (·.last) = some v := by
      rw [← last_bare, hs]
      exact last_setLast (by simpa using hlt')
    rw [hlast]
    exact .pure ⟨rfl, hend⟩

theorem declared_known {nodes : List Node} (hn : ∀ m ∈ nodes, K.Fits p m) :
    ∀ d ∈ Node.declared nodes, K.decl d := by
  intro d hd
  obtain ⟨m, hm, hdecl⟩ := List.mem_filterMap.mp hd
  refine (hn m hm).2 d ?_
  cases m <;> simp_all [Node.decl?, Node.decls]

theorem rested_enter {kind : ScopeKind} {fs : List Decl} :
    (B.enter kind fs).rested = B.enter kind fs := by
  simp only [rested, Environment.enter, modifyScope, currentIndex, modify_push_last]

theorem Simulates.block (hsim : Simulates K ev ex) (hB : B.Coherent) (hpos : p.Holds B)
    {nodes : List Node} (hn : ∀ m ∈ nodes, K.Fits p m) :
    Matches K B (Eval.block ev nodes) (block ex nodes) (Ends K p B) := by
  unfold Eval.block Structured.block
  split
  · exact Matches.allocNone.normal
  · refine (Matches.enter (declared_known hn)).bind fun _ _ C hC => ?_
    subst hC
    refine (hsim.statements hB.enter hpos hn).bind fun v out C hC => ?_
    obtain ⟨rfl, hend⟩ := hC
    refine Matches.leaveScope.bind fun _ _ C hC => ?_
    refine .pure ⟨?_, hend.congr rfl rfl⟩
    rw [hC default, rested_enter, leave_mark_enter hB]

theorem Simulates.conditional (hsim : Simulates K ev ex) (hB : B.Coherent) (hpos : p.Holds B)
    {test yes : Node} {no : Option Node} (htest : K.Fits p.operand test) (hyes : K.Fits p yes)
    (hno : ∀ m ∈ no, K.Fits p m) :
    Matches K B (Eval.conditional ev test yes no) (conditional ex test yes no) (Ends K p B) := by
  have hoperand := fun m => hsim.operand (n := m) hB p.operand_operand hpos.operand
  refine (Matches.condition hoperand htest).andThen fun b _ => ?_
  split
  · exact hsim p B yes hB hpos hyes
  · cases no with
    | none => exact Matches.allocNone.normal
    | some m => exact hsim p B m hB hpos (hno m rfl)

/-- Something to leave, and leave to do so. -/
theorem clear_of_ne_blocked {w : Way} (hb : w ≠ .blocked) (hn : w ≠ .none) : w = .clear := by
  cases w <;> simp_all

theorem Matches.frameMissing :
    Matches K B (Eval.read (·.env.currentFrame?.isNone)) (Eval.read (·.env.currentFrame?.isNone))
      (Steady (· = B.currentFrame?.isNone) B) := by
  refine .read (fun s => ?_) fun s hs _ => ?_
  · simp [State.unmarked]
  · rw [← hs, currentFrame?_bare]

theorem Matches.loopMissing :
    Matches K B (Eval.read (·.env.currentLoop?.isNone)) (Eval.read (·.env.currentLoop?.isNone))
      (Steady (· = B.currentLoop?.isNone) B) := by
  refine .read (fun s => ?_) fun s hs _ => ?_
  · simp [State.unmarked]
  · rw [← hs, currentLoop?_bare]

theorem Simulates.returnFrom (hsim : Simulates K ev ex) (hB : B.Coherent) (hpos : p.Holds B)
    {span : Option Span} {value : Option Node} (hp : p.function ≠ .blocked)
    (hn : ∀ m ∈ value, K.Fits p.operand m) :
    Matches K B (Eval.returnFrom ev span value) (returnFrom ex span value) (Ends K p B) := by
  refine Matches.frameMissing.andThen fun b hb => ?_
  split
  · exact .raise
  next hframe =>
    have hsome : B.currentFrame?.isNone = false := Bool.eq_false_iff.mpr (hb ▸ hframe)
    have hclear : p.function = .clear :=
      clear_of_ne_blocked hp fun h => by simp [hpos.2 h] at hsome
    have hrest : ∀ o, K.object o → Matches K B
        (do
          if ← Eval.read (·.env.currentFrame?.isNone) then
            raise { kind := .notInsideFunction, span }
          else
            modifyEnv (leaveFunction · o)
            allocNone)
        (leaving (.returned o)) (Ends K p B) := by
      intro o ho
      refine .readMarks fun s hs => ?_
      have hread : s.env.currentFrame?.isNone = false := by rw [← hsome, ← hs, currentFrame?_bare]
      have hlevel : (B.level? (.returned o)).isSome := by
        simpa [level?, Option.isNone_eq_false_iff] using hsome
      rw [hread]
      exact .mark (m := fun e => leaveFunction e o) (fun _ => unmarked_leaveFunction)
        (fun _ => bare_leaveFunction) (.leaving hclear hlevel ho rfl (by simp))
    cases value with
    | none => exact Matches.allocNone.andThen hrest
    | some m => exact (hsim.operand hB p.operand_operand hpos.operand (hn m rfl)).andThen hrest

theorem Simulates.breakFrom (hsim : Simulates K ev ex) (hB : B.Coherent) (hpos : p.Holds B)
    {span : Option Span} {value : Option Node} (hp : p.loop ≠ .blocked)
    (hn : ∀ m ∈ value, K.Fits p.operand m) :
    Matches K B (Eval.breakFrom ev span value) (breakFrom ex span value) (Ends K p B) := by
  refine Matches.loopMissing.andThen fun b hb => ?_
  split
  · exact .raise
  next hloop =>
    have hsome : B.currentLoop?.isNone = false := Bool.eq_false_iff.mpr (hb ▸ hloop)
    have hoperand := fun m => hsim.operand (n := m) hB p.operand_operand hpos.operand
    refine (Matches.operand? hoperand hn).andThen fun r hr => .readMarks fun s hs => ?_
    have hread : s.env.currentLoop?.isNone = false := by rw [← hsome, ← hs, currentLoop?_bare]
    rw [hread]
    have hclear : p.loop = .clear :=
      clear_of_ne_blocked hp fun h => by simp [hpos.1 h] at hsome
    have hlevel : (B.level? (.broken r)).isSome := by
      simpa [level?, Option.isNone_eq_false_iff] using hsome
    exact .mark (m := fun e => leaveLoop e r) (fun _ => unmarked_leaveLoop)
      (fun _ => bare_leaveLoop) (.leaving hclear hlevel hr rfl (by simp))

theorem continueFrom_matches (hpos : p.Holds B) {span : Option Span} (hp : p.loop ≠ .blocked) :
    Matches K B (Eval.continueFrom span) (continueFrom span) (Ends K p B) := by
  have hread : Matches K B (Eval.read (·.env.currentLoop?)) (Eval.read (·.env.currentLoop?.isNone))
      (fun l b C => l = B.currentLoop? ∧ b = l.isNone ∧ C = B) := by
    intro s t hs hst hsafe
    have hloop := congrArg (·.env.currentLoop?.isNone) hst
    simp only [State.unmarked, currentLoop?_unmarked, Option.isNone_map] at hloop
    exact ⟨⟨by rw [← hs, currentLoop?_bare], hloop.symm, hs⟩, hst, hsafe⟩
  refine hread.bind fun l b C h => ?_
  obtain ⟨hl, rfl, rfl⟩ := h
  cases l with
  | none => exact .raise
  | some l =>
    have hclear : p.loop = .clear :=
      clear_of_ne_blocked hp fun h => by simp [hpos.1 h] at hl
    have hlevel : (C.level? .continued).isSome := by simp [level?, ← hl]
    refine .mark (m := fun e => e.skipFrom l.scopeIndex) (fun _ => unmarked_skipFrom)
      (fun _ => bare_skipFrom) (.leaving hclear hlevel trivial ?_ (by simp))
    simp [Outcome.mark, ← hl]

end Structured
end Scripting
