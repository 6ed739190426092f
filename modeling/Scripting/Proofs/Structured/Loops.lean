import Mathlib.Tactic.Common
import Scripting.Proofs.Structured.Statements

/-! Loops: the marks that end an iteration say how the loop goes on. -/
namespace Scripting.Structured

open Eval Environment

variable {K : Known} {p : Position} {B C : Environment} {fs : List Decl}
  {ev : Node → Eval ObjectId} {ex : Node → Eval Outcome} {iterator body : Node}

/-- The stacks between two iterations of a loop that was opened on `B`, or after the last one. -/
inductive Between (K : Known) (p : Position) (B : Environment) (fs : List Decl) :
    Option Outcome → Environment → Prop
  | running {out : Outcome} {x : Scope} (hx : x.unmarked = { kind := .loop, functions := fs })
      (hout : leaves? out = none) : Between K p B fs none (B.inLoop out x)
  | left {out : Outcome} {v : ObjectId} {x : Scope} (hout : leaves? out = some out)
      (hend : Ending K p.loopBody (B.loopOpened fs) v out) :
      Between K p B fs (some out) (B.inLoop out x)

theorem holds_loopHead (hpos : p.Holds B) (hC : C.currentFrame? = B.currentFrame?) :
    p.loopHead.Holds C := by
  obtain ⟨l, f⟩ := p
  refine ⟨nofun, fun h => hC.trans (hpos.2 ?_)⟩
  cases f <;> simp_all [Position.loopHead, Way.within]

theorem holds_loopBody (hpos : p.Holds B) (hC : C.currentFrame? = B.currentFrame?) :
    p.loopBody.Holds C := ⟨nofun, fun h => hC.trans (hpos.2 h)⟩

/-- A loop that still runs has the stacks of one just opened, but for marks. -/
theorem Between.opened (hB : B.Coherent) (h : Between K p B fs none C) :
    C.rested = B.loopOpened fs ∧ C.Coherent ∧ C.currentFrame? = B.currentFrame? ∧
      (C.currentLoop?.map (·.isBroken)).getD true = false := by
  cases h with
  | running hx hout =>
    next out x =>
    have hrested : (B.inLoop out x).rested = B.loopOpened fs := rested_inLoop hx hout
    have hloop : (B.inLoop out x).rested.currentLoop? = _ := congrArg currentLoop? hrested
    have hframe : (B.inLoop out x).rested.currentFrame? = _ := congrArg currentFrame? hrested
    have hfloor : (B.inLoop out x).rested.loopFloor ≤ (B.inLoop out x).rested.loops.size :=
      hrested ▸ hB.loopOpened.floor
    have hsize : (B.inLoop out x).scopes.size = (B.loopOpened fs).scopes.size := by
      simpa [rested, modifyScope] using congrArg (·.scopes.size) hrested
    have hopen : (B.loopOpened fs).Coherent := hB.loopOpened
    refine ⟨hrested, ⟨?_, ?_, ?_, hfloor⟩, hframe, ?_⟩
    · exact hsize ▸ hopen.pos
    · exact fun l hl => hsize ▸ hopen.loop l (hloop ▸ hl)
    · exact fun f hf => hsize ▸ hopen.frame f (hframe ▸ hf)
    · rw [currentLoop?_loopOpened hB] at hloop
      change ((B.inLoop out x).rested.currentLoop?.map (·.isBroken)).getD true = false
      rw [hloop]
      rfl

theorem Between.broken {out : Outcome} (h : Between K p B fs (some out) C) :
    (C.currentLoop?.map (·.isBroken)).getD true = true := by
  cases h with
  | left hout hend =>
    next v x =>
    have hback : (B.inLoop out x).loops.back? = some (B.loopLeft out) := by
      simp [inLoop]
    simp only [currentLoop?, hback]
    split
    · cases out <;> simp_all [leaves?, loopLeft]
    · rfl

theorem readBroken {γ δ : Type} {f : Bool → Eval γ} {y : Eval δ} {Q : γ → δ → Environment → Prop}
    (h : Matches K B (f ((B.currentLoop?.map (·.isBroken)).getD true)) y Q) :
    Matches K B (isBroken >>= f) y Q := by
  refine .readMarks fun s hs => ?_
  rw [← hs, currentLoop?_bare] at h
  exact hs ▸ h

/-- One pass through the body: marks and outcome agree on whether there is to be another. -/
theorem Simulates.loopBody (hsim : Simulates K ev ex) (hB : B.Coherent) (hpos : p.Holds B)
    (hbody : ∀ m ∈ body.statements, K.Fits p.loopBody m) (hC : Between K p B fs none C) :
    Matches K C (Eval.statements ev body.statements) (Structured.statements ex body.statements)
      (fun _ out D => Between K p B fs (leaves? out) D) := by
  obtain ⟨hrested, hcoh, hframe, -⟩ := hC.opened hB
  refine (hsim.statements hcoh (holds_loopBody hpos hframe) hbody).imp fun v out D h => ?_
  obtain ⟨rfl, hend⟩ := h
  rw [hrested] at hend ⊢
  have hreturn : ∀ o, out = .returned o → B.currentFrame?.isSome := by
    rintro o rfl
    obtain ⟨_, h⟩ | h := hend.leaves
    · cases h
    · exact Option.isSome_map (f := Frame.scopeDepth) ▸ h
  obtain ⟨x, hx, hmark⟩ := mark_loopOpened hB hreturn
  rw [hmark]
  cases out with
  | normal _ | continued => exact .running hx rfl
  | broken _ | returned _ => exact .left rfl hend

theorem Simulates.iterate (hsim : Simulates K ev ex) (hB : B.Coherent) (hpos : p.Holds B)
    (hbody : ∀ m ∈ body.statements, K.Fits p.loopBody m) (hiter : K.Fits p.loopHead iterator)
    {fresh : Option Place} (hfresh : ∀ q ∈ fresh, K.place q) {item : ObjectId}
    (hitem : K.object item) (hC : Between K p B fs none C) :
    Matches K C (Eval.iterate ev iterator body fresh item) (iterate ex iterator body fresh item)
      (fun b exit D => b = exit.isNone ∧ Between K p B fs exit D) := by
  obtain ⟨-, hcoh, hframe, hbroken⟩ := hC.opened hB
  have hoperand := fun m =>
    hsim.operand (n := m) hcoh p.operand_loopHead (holds_loopHead hpos hframe)
  have hrest : ∀ q, K.place q → Matches K C
      (do
        Eval.store q item iterator.span
        let _ ← Eval.statements ev body.statements
        return !(← isBroken))
      (do
        Eval.store q item iterator.span
        return leaves? (← Structured.statements ex body.statements))
      (fun b exit D => b = exit.isNone ∧ Between K p B fs exit D) := by
    intro q hq
    refine (Matches.store hq hitem).andThen fun _ _ => ?_
    refine (hsim.loopBody hB hpos hbody hC).bind fun _ out D hD => readBroken ?_
    cases hexit : leaves? out with
    | none =>
      rw [hexit] at hD
      rw [(hD.opened hB).2.2.2]
      exact .pure ⟨rfl, hD⟩
    | some exit =>
      rw [hexit] at hD
      rw [hD.broken]
      exact .pure ⟨rfl, hD⟩
  refine readBroken ?_
  rw [hbroken]
  refine Matches.checkInterrupt.andThen fun _ _ => ?_
  cases fresh with
  | some q => exact hrest q (hfresh q rfl)
  | none => exact (Matches.place p.operand_loopHead hoperand hiter).andThen hrest

theorem forRange_matches {step : ObjectId → Eval Bool} {step' : ObjectId → Eval (Option Outcome)}
    (hstep : ∀ C item, K.object item → Between K p B fs none C →
      Matches K C (step item) (step' item)
      (fun b exit D => b = exit.isNone ∧ Between K p B fs exit D))
    (n : Nat) (i : Int) (hC : Between K p B fs none C) :
    Matches K C (Eval.forRange step n i) (forRange step' n i)
      (fun _ exit D => Between K p B fs exit D) := by
  induction n generalizing i C with
  | zero => exact .pure hC
  | succ n ih =>
    refine (Matches.allocAtom (a := .int (.ofInt i)) nofun).andThen fun item hitem => ?_
    refine (hstep C item hitem hC).bind fun b exit D h => ?_
    obtain ⟨rfl, hD⟩ := h
    cases exit with
    | none => exact ih (i + 1) hD
    | some exit => exact .pure hD

theorem forElements_matches {step : ObjectId → Eval Bool} {step' : ObjectId → Eval (Option Outcome)}
    (hstep : ∀ C item, K.object item → Between K p B fs none C →
      Matches K C (step item) (step' item)
      (fun b exit D => b = exit.isNone ∧ Between K p B fs exit D))
    {os : List ObjectId} (ho : ∀ o ∈ os, K.object o) (hC : Between K p B fs none C) :
    Matches K C (Eval.forElements step os) (forElements step' os)
      (fun _ exit D => Between K p B fs exit D) := by
  induction os generalizing C with
  | nil => exact .pure hC
  | cons o os ih =>
    refine (Matches.copy (ho o (by simp))).andThen fun item hitem => ?_
    refine (hstep C item hitem hC).bind fun b exit D h => ?_
    obtain ⟨rfl, hD⟩ := h
    cases exit with
    | none => exact ih (fun q hq => ho q (by simp [hq])) hD
    | some exit => exact .pure hD

theorem Simulates.whileHolds (hsim : Simulates K ev ex) (hB : B.Coherent) (hpos : p.Holds B)
    (hbody : ∀ m ∈ body.statements, K.Fits p.loopBody m) {test : Node}
    (htest : K.Fits p.loopHead test)
    (n : Nat) {exit : Option Outcome} (hC : Between K p B fs exit C) :
    Matches K C (Eval.whileHolds ev test body n) (whileHolds ex test body n exit)
      (fun _ exit D => Between K p B fs exit D) := by
  induction n generalizing exit C with
  | zero => exact .throw
  | succ n ih =>
    cases exit with
    | some out =>
      refine readBroken ?_
      rw [hC.broken]
      exact .pure hC
    | none =>
      obtain ⟨-, hcoh, hframe, hbroken⟩ := hC.opened hB
      have hoperand := fun m =>
        hsim.operand (n := m) hcoh p.operand_loopHead (holds_loopHead hpos hframe)
      refine readBroken ?_
      rw [hbroken]
      refine Matches.checkInterrupt.andThen fun _ _ => ?_
      refine (Matches.condition hoperand htest).andThen fun b _ => ?_
      split
      · exact (hsim.loopBody hB hpos hbody hC).bind fun _ out D hD => ih hD
      · exact .pure hC

theorem popLoop_matches :
    Matches K C (modifyEnv fun e => e.popLoop.2) (modifyEnv fun e => e.popLoop.2)
      (fun _ _ D => D = C.popLoop.2) :=
  .restack (fun _ => unmarked_popLoop) (fun _ => bare_popLoop)
    fun _ hs => hs.env hs.var hs.scope hs.frame

/-- Closing a loop turns what it was left with into its own outcome. -/
theorem closeLoop_matches (hB : B.Coherent) {exit : Option Outcome} (hC : Between K p B fs exit C) :
    Matches K C Eval.closeLoop (closeLoop exit) (Ends K p B) := by
  have hclose : ∀ out x y, C = B.inLoop out x →
      closeLoop exit = (do
        modifyEnv fun e => e.popLoop.2
        leaveScope
        y) →
      Matches K (B.afterLoop out) ((B.loopLeft out).result.elim allocNone pure) y (Ends K p B) →
      Matches K C Eval.closeLoop (closeLoop exit) (Ends K p B) := by
    rintro out x y rfl hy h
    rw [hy]
    refine .readMarks fun s hs => popLoop_matches.bind fun _ _ D hD => ?_
    refine Matches.leaveScope.bind fun _ _ D' hD' => ?_
    have hloops : s.env.bare.loops.back? = some (B.loopLeft out) := by simp [hs, inLoop]
    rw [hD' default, hD, leave_popLoop_inLoop hB, show s.env.loops.back? = _ from hloops,
      Option.bind_some]
    revert h
    cases (B.loopLeft out).result <;> exact id
  cases hC with
  | running hx hout =>
    next out x =>
    have hafter : B.afterLoop out = B := by cases out <;> simp_all [leaves?, afterLoop]
    have hleft : (B.loopLeft out).result = none := by cases out <;> simp_all [leaves?, loopLeft]
    refine hclose out x _ rfl rfl ?_
    rw [hafter, hleft]
    exact Matches.allocNone.normal
  | left hout hend =>
    next out v x =>
    refine hclose out x _ rfl rfl ?_
    cases out with
    | normal _ | continued => cases hout
    | broken r =>
      cases r with
      | none => exact Matches.allocNone.normal
      | some o => exact .pure ⟨rfl, .normal (hend.known o rfl)⟩
    | returned o =>
      have hlevel : (B.level? (.returned o)).isSome := by
        obtain ⟨_, h⟩ | h := hend.leaves
        · cases h
        · exact h
      exact .leaving hend.permitted hlevel hend.known rfl (by simp)

theorem openLoop_matches {nodes : List Node} (hn : ∀ m ∈ nodes, K.Fits p m) :
    Matches K B (openLoop nodes) (openLoop nodes)
      (fun _ _ C => C = B.loopOpened (Node.declared nodes)) := by
  refine .restack (fun e => ?_) (fun e => ?_) fun s hs => ?_
  · rw [unmarked_pushLoop, unmarked_enter, size_scopes_unmarked]
  · rw [bare_pushLoop, bare_enter, size_scopes_bare]
  · have henter := hs.enter (k := .loop) (declared_known hn)
    exact hs.env henter.var henter.scope henter.frame

theorem between_loopOpened : Between K p B fs none (B.loopOpened fs) := by
  have hopen : B.loopOpened fs = B.inLoop .continued { kind := .loop, functions := fs } := rfl
  exact hopen ▸ .running rfl rfl

theorem itemsOf_matches {o : ObjectId} {span : Option Span} (ho : K.object o) :
    Matches K B (itemsOf o span) (itemsOf o span) (Steady K.items B) := by
  refine (Matches.valueOf ho).andThen fun v hv => ?_
  split
  · exact .pure ⟨rfl, trivial, rfl⟩
  · exact .pure ⟨rfl, fun o ho => hv.1 o (Array.mem_toList_iff.mp ho), rfl⟩
  · exact .raise

theorem freshIterator_matches :
    Matches K B (freshIterator iterator) (freshIterator iterator)
      (Steady (fun x => ∀ q ∈ x, K.place q) B) := by
  unfold freshIterator
  split
  · exact Matches.declare.andThen fun slot _ => .pure ⟨rfl, fun q hq => by cases hq; trivial, rfl⟩
  · exact .pure ⟨rfl, by simp, rfl⟩

theorem Simulates.forLoop (hsim : Simulates K ev ex) (hB : B.Coherent) (hpos : p.Holds B)
    {iterable : Node} (hiterable : K.Fits p.operand iterable) (hiter : K.Fits p.loopHead iterator)
    (hbody : ∀ m ∈ body.statements, K.Fits p.loopBody m) :
    Matches K B (Eval.forLoop ev iterator iterable body) (forLoop ex iterator iterable body)
      (Ends K p B) := by
  refine (hsim.operand hB p.operand_operand hpos.operand hiterable).andThen fun o ho => ?_
  refine (itemsOf_matches ho).andThen fun items hitems => ?_
  refine (openLoop_matches hbody).bind fun _ _ C hC => ?_
  subst hC
  refine freshIterator_matches.andThen fun fresh hfresh => ?_
  have hstep : ∀ C item, K.object item → Between K p B (Node.declared body.statements) none C →
      Matches K C (Eval.iterate ev iterator body fresh item)
        (Structured.iterate ex iterator body fresh item) _ :=
    fun _ _ hitem hC => hsim.iterate hB hpos hbody hiter hfresh hitem hC
  cases items with
  | range r =>
    exact (forRange_matches hstep _ _ between_loopOpened).bind fun _ _ _ => closeLoop_matches hB
  | elements os =>
    exact (forElements_matches hstep hitems between_loopOpened).bind fun _ _ _ =>
      closeLoop_matches hB

theorem Simulates.whileLoop (hsim : Simulates K ev ex) (hB : B.Coherent) (hpos : p.Holds B)
    {test : Node} (htest : K.Fits p.loopHead test)
    (hbody : ∀ m ∈ body.statements, K.Fits p.loopBody m) (limit : Nat) :
    Matches K B (Eval.whileLoop ev limit test body) (whileLoop ex limit test body)
      (Ends K p B) := by
  refine (openLoop_matches hbody).bind fun _ _ C hC => ?_
  subst hC
  refine (hsim.whileHolds hB hpos hbody htest limit between_loopOpened).bind fun _ _ _ hC => ?_
  exact closeLoop_matches hB hC

end Scripting.Structured
