import Mathlib.Tactic.Common
import Scripting.Proofs.Renaming.Operands

/-! Calls, statements and loops, and with them every form: an evaluation runs in parallel with
itself from states that are the same up to the numbers of objects. -/
namespace Scripting.Eval

variable {α β γ δ : Type} {D : Decl → Prop} {R S : Pairing} {s t : State} {o p : ObjectId}
  {os ps : List ObjectId} {span : Option Span}

namespace Within

variable {n body : Node} {nodes : List Node}

theorem all (h : ∀ d ∈ Node.declsAll nodes, D d) : ∀ m ∈ nodes, Within D m := by
  intro m hm d hd
  refine h d ?_
  rw [Node.declsAll_eq]
  exact List.mem_flatMap.mpr ⟨m, hm, hd⟩

theorem option {node : Option Node} (h : ∀ d ∈ Node.declsOption node, D d) :
    ∀ m ∈ node, Within D m := by
  intro m hm
  cases hm
  exact h

theorem statements (h : Within D body) : ∀ m ∈ body.statements, Within D m := by
  unfold Node.statements
  split
  · exact all h
  · intro m hm
    rw [List.mem_singleton.mp hm]
    exact h

theorem declared (h : ∀ m ∈ nodes, Within D m) : ∀ d ∈ Node.declared nodes, D d := by
  intro d hd
  obtain ⟨m, hm, hdecl⟩ := List.mem_filterMap.mp hd
  refine h m hm d ?_
  cases m <;> simp_all [Node.decl?, Node.decls]

end Within

namespace Parallel

/-! ### Stacks -/

theorem enter {kind : ScopeKind} {functions : List Decl} (hfunctions : ∀ d ∈ functions, D d) :
    Parallel D R (Eval.modifyEnv (·.enter kind functions))
      (Eval.modifyEnv (·.enter kind functions)) Same :=
  modifyEnv fun _ _ h => h.enter hfunctions

theorem setScope {g g' : Scope → Scope} {index : Nat}
    (hg : ∀ x y, x.Renamed D R y → (g x).Renamed D R (g' y)) :
    Parallel D R (Eval.modifyEnv (·.modifyScope index g))
      (Eval.modifyEnv (·.modifyScope index g')) Same :=
  modifyEnv fun _ _ h => h.modifyScope index hg

theorem orNone {a b : Option ObjectId} (hab : Option.Rel R a b) :
    Parallel D R (match a with | some o => Pure.pure o | none => Eval.allocNone)
      (match b with | some o => Pure.pure o | none => Eval.allocNone) Paired := by
  cases hab with
  | none => exact allocNone
  | some hop => exact pure hop

theorem openCall {d : Decl} (hd : D d) :
    Parallel D R (Eval.openCall d span) (Eval.openCall d span) Same := by
  refine (enter (by simp)).andThen fun R₁ _ _ => ?_
  refine (read (P := Same) fun s t hst => hst.env.depthError?.symm).andThen fun R₂ e _ => ?_
  split
  · exact modifyEnv fun _ _ h => h.pushFrame hd
  · exact leaveScope.andThen fun R₃ _ _ => raise

theorem bindFixed {params : List Param} (hops : List.Forall₂ R os ps) :
    Parallel D R (Eval.bindFixed params os) (Eval.bindFixed params ps) Same := by
  induction params generalizing os ps R with
  | nil => exact pure rfl
  | cons param params ih =>
    cases hops with
    | nil => exact pure rfl
    | cons hop hops => exact (define hop).andThen fun R₁ _ hle => ih (hops.imp hle)

theorem bindRest {d : Decl} (hops : List.Forall₂ R os ps) :
    Parallel D R (Eval.bindRest d os) (Eval.bindRest d ps) Same := by
  unfold Eval.bindRest
  split
  · exact (alloc (.vector (by simpa using hops))).bind fun R₁ v w _ hvw => define hvw
  · exact pure rfl

theorem closeCall (hop : R o p) : Parallel D R (Eval.closeCall o) (Eval.closeCall p) Paired := by
  refine (read (P := fun R => Option.Rel (Frame.Renamed D R)) fun s t hst =>
    hst.env.currentFrame?).bind
    fun R₁ f g hle₁ hfg => ?_
  refine (modifyEnv fun _ _ h => h.popFrame).andThen fun R₂ _ hle₂ => ?_
  refine leaveScope.andThen fun R₃ _ hle₃ => ?_
  have hop₃ : R₃ o p := hle₃ _ _ (hle₂ _ _ (hle₁ _ _ hop))
  cases hfg with
  | none => exact pure hop₃
  | some hfg =>
    simp only [hfg.isReturned]
    split
    · exact orNone (((hfg.mono hle₂).mono hle₃).result)
    · exact pure hop₃

theorem selfFunction : Parallel D R (Eval.selfFunction span) (Eval.selfFunction span) Paired := by
  refine (read (P := fun R => Option.Rel (Frame.Renamed D R)) fun s t hst =>
    hst.env.currentFrame?).bind
    fun R₁ f g _ hfg => ?_
  cases hfg with
  | none => exact raise
  | some hfg =>
    simp only [hfg.decl]
    exact functionObject hfg.known

theorem frameMissing : Parallel D R (Eval.read (·.env.currentFrame?.isNone))
    (Eval.read (·.env.currentFrame?.isNone)) Same := by
  refine read fun s t hst => ?_
  rcases rel_cases hst.env.currentFrame? with ⟨hx, hy⟩ | ⟨f, g, hx, hy, -⟩ <;>
    simp only [Same, hx, hy, Option.isNone_none, Option.isNone_some]

theorem loopMissing : Parallel D R (Eval.read (·.env.currentLoop?.isNone))
    (Eval.read (·.env.currentLoop?.isNone)) Same := by
  refine read fun s t hst => ?_
  rcases rel_cases hst.env.currentLoop? with ⟨hx, hy⟩ | ⟨l, m, hx, hy, -⟩ <;>
    simp only [Same, hx, hy, Option.isNone_none, Option.isNone_some]

theorem isBroken : Parallel D R Eval.isBroken Eval.isBroken Same := by
  refine read fun s t hst => ?_
  rcases rel_cases hst.env.currentLoop? with ⟨hx, hy⟩ | ⟨l, m, hx, hy, hlm⟩
  · simp only [Same, hx, hy]
  · simp only [Same, hx, hy, Option.map_some, hlm.isBroken]

theorem continueFrom : Parallel D R (Eval.continueFrom span) (Eval.continueFrom span) Paired := by
  refine (read (P := fun R => Option.Rel (LoopState.Renamed R)) fun s t hst =>
    hst.env.currentLoop?).bind
    fun R₁ l m _ hlm => ?_
  cases hlm with
  | none => exact raise
  | some hlm =>
    simp only [hlm.scopeIndex]
    exact (modifyEnv fun _ _ h => h.skipFrom _).andThen fun R₂ _ _ => allocNone

theorem openLoop {nodes : List Node} (hnodes : ∀ m ∈ nodes, Within D m) :
    Parallel D R (Eval.openLoop nodes) (Eval.openLoop nodes) Same := by
  refine modifyEnv fun e f h => ?_
  rw [h.scopes.size_eq]
  exact (h.enter (Within.declared hnodes)).pushLoop _

theorem closeLoop : Parallel D R Eval.closeLoop Eval.closeLoop Paired := by
  refine (read (P := fun R => Option.Rel (LoopState.Renamed R)) fun s t hst =>
    hst.env.loops.back?).bind
    fun R₁ l m _ hlm => ?_
  refine (modifyEnv fun _ _ h => h.popLoop).andThen fun R₂ _ hle₂ => ?_
  refine leaveScope.andThen fun R₃ _ hle₃ => ?_
  exact orNone (rel_bind hlm fun _ _ h => ((h.mono hle₂).mono hle₃).result)

/-! ### Statements -/

variable {ev : Node → Eval ObjectId} (hev : Mirrored D ev)

include hev

theorem runStatements {index : Nat} {nodes : List Node} (hnodes : ∀ m ∈ nodes, Within D m) :
    Parallel D R (Eval.runStatements ev index nodes) (Eval.runStatements ev index nodes) Same := by
  induction nodes generalizing R with
  | nil => exact pure rfl
  | cons n nodes ih =>
    refine (hev R n (hnodes n (by simp))).bind fun R₁ o p _ hop => ?_
    refine (setScope fun x y hxy => ?_).andThen fun R₂ _ _ => ?_
    · exact { hxy with last := .some hop }
    refine (read (P := Same) fun s t hst => ?_).andThen fun R₃ isSkipped _ => ?_
    · rcases rel_cases (hst.env.scopes.getElem? index) with ⟨hx, hy⟩ | ⟨x, y, hx, hy, hxy⟩
      · simp only [Same, hx, hy]
      · simp only [Same, hx, hy, Option.map_some, hxy.isSkipped]
    · split
      · exact pure rfl
      · exact ih fun m hm => hnodes m (by simp [hm])

theorem statements {nodes : List Node} (hnodes : ∀ m ∈ nodes, Within D m) :
    Parallel D R (Eval.statements ev nodes) (Eval.statements ev nodes) Paired := by
  refine (read (P := Same) fun s t hst => hst.env.currentIndex.symm).andThen fun R₁ index _ => ?_
  refine (setScope fun x y hxy => ?_).andThen fun R₂ _ _ => ?_
  · exact { hxy with isSkipped := rfl, last := .none }
  refine (runStatements hev hnodes).andThen fun R₃ _ _ => ?_
  refine (read (P := fun R => Option.Rel R)
    fun s t hst => rel_bind (hst.env.scopes.getElem? index) fun _ _ hxy => hxy.last).bind
    fun R₄ a b _ hab => ?_
  refine (setScope fun x y hxy => ?_).andThen fun R₅ _ hle => ?_
  · exact { hxy with last := .none }
  exact orNone (rel_imp hab hle)

theorem block {nodes : List Node} (hnodes : ∀ m ∈ nodes, Within D m) :
    Parallel D R (Eval.block ev nodes) (Eval.block ev nodes) Paired := by
  unfold Eval.block
  split
  · exact allocNone
  · refine (enter (Within.declared hnodes)).andThen fun R₁ _ _ => ?_
    refine (statements hev hnodes).bind fun R₂ o p _ hop => ?_
    exact leaveScope.andThen fun R₃ _ hle => pure (hle _ _ hop)

theorem condition {test : Node} (htest : Within D test) :
    Parallel D R (Eval.condition ev test) (Eval.condition ev test) Same := by
  refine (hev R test htest).bind fun R₁ o p _ hop => ?_
  refine (valueOf hop).bind fun R₂ v w _ hvw => ?_
  rw [hvw.bool?]
  split
  · exact pure rfl
  · exact raise

theorem conditional {test yes : Node} {no : Option Node} (htest : Within D test)
    (hyes : Within D yes) (hno : ∀ m ∈ no, Within D m) :
    Parallel D R (Eval.conditional ev test yes no) (Eval.conditional ev test yes no) Paired := by
  refine (condition hev htest).andThen fun R₁ b _ => ?_
  split
  · exact hev R₁ yes hyes
  · cases no with
    | none => exact allocNone
    | some m => exact hev R₁ m (hno m rfl)

theorem operand? {node : Option Node} (hnode : ∀ m ∈ node, Within D m) :
    Parallel D R (Eval.operand? ev node) (Eval.operand? ev node) (fun R => Option.Rel R) := by
  cases node with
  | none => exact pure .none
  | some m => exact (hev R m (hnode m rfl)).bind fun R₁ o p _ hop => pure (.some hop)

theorem returnFrom {value : Option Node} (hvalue : ∀ m ∈ value, Within D m) :
    Parallel D R (Eval.returnFrom ev span value) (Eval.returnFrom ev span value) Paired := by
  refine frameMissing.andThen fun R₁ b _ => ?_
  split
  · exact raise
  · have hrest : ∀ R₂ o p, R₁ ≤ R₂ → Paired R₂ o p → Parallel D R₂
        (do
          if ← Eval.read (·.env.currentFrame?.isNone) then
            Eval.raise { kind := .notInsideFunction, span }
          else
            Eval.modifyEnv (leaveFunction · o)
            Eval.allocNone)
        (do
          if ← Eval.read (·.env.currentFrame?.isNone) then
            Eval.raise { kind := .notInsideFunction, span }
          else
            Eval.modifyEnv (leaveFunction · p)
            Eval.allocNone) Paired := by
      intro R₂ o p _ hop
      refine frameMissing.andThen fun R₃ b hle => ?_
      split
      · exact raise
      · exact (modifyEnv fun _ _ h => h.leaveFunction (hle _ _ hop)).andThen fun R₄ _ _ => allocNone
    cases value with
    | none => exact allocNone.bind hrest
    | some m => exact (hev R₁ m (hvalue m rfl)).bind hrest

theorem breakFrom {value : Option Node} (hvalue : ∀ m ∈ value, Within D m) :
    Parallel D R (Eval.breakFrom ev span value) (Eval.breakFrom ev span value) Paired := by
  refine loopMissing.andThen fun R₁ b _ => ?_
  split
  · exact raise
  · refine (operand? hev hvalue).bind fun R₂ a b _ hab => ?_
    refine loopMissing.andThen fun R₃ c hle => ?_
    split
    · exact raise
    · exact (modifyEnv fun _ _ h => h.leaveLoop (rel_imp hab hle)).andThen fun R₄ _ _ => allocNone

/-! ### Calls -/

theorem callee {f : Node} (hf : Within D f) :
    Parallel D R (Eval.callee ev f) (Eval.callee ev f) Paired := by
  unfold Eval.callee
  split
  · refine (read (P := Same) fun s t hst => ?_).andThen fun R₁ isKnown _ => ?_
    · rw [Same, hst.builtins, hst.env.contains, hst.env.findFunction]
    · split
      · exact hev R₁ _ hf
      · exact raise
  · exact hev R f hf

theorem invoke {d : Decl} (hd : D d) (hbody : Within D d.body) (hops : List.Forall₂ R os ps) :
    Parallel D R (Eval.invoke ev d os span) (Eval.invoke ev d ps span) Paired := by
  simp only [Eval.invoke, hops.length_eq]
  refine (ofExcept (P := Same) fun _ _ => rfl).andThen fun R₁ _ hle₁ => ?_
  refine (openCall hd).andThen fun R₂ _ hle₂ => ?_
  have hops₂ : List.Forall₂ R₂ os ps := (hops.imp hle₁).imp hle₂
  refine (bindFixed hops₂).andThen fun R₃ _ hle₃ => ?_
  refine (bindRest (List.forall₂_drop _ (hops₂.imp hle₃))).andThen fun R₄ _ _ => ?_
  exact (hev R₄ d.body hbody).bind fun R₅ o p _ hop => closeCall hop

theorem call (hD : ∀ d, D d → Within D d.body) {f : Node} {args : List Node} (hf : Within D f)
    (hargs : ∀ m ∈ args, Within D m) :
    Parallel D R (Eval.call ev span f args) (Eval.call ev span f args) Paired := by
  refine (callee hev hf).bind fun R₁ o p _ hop => ?_
  refine (valueOf hop).bind fun R₂ v w _ hvw => ?_
  cases hvw with
  | tuple | vector => exact raise
  | @atom a ha =>
    cases a with
    | builtin b =>
      exact (operands (references hev) hargs).bind fun R₃ os ps _ hops => callBuiltin ha hops
    | function d =>
      exact (operands hev hargs).bind fun R₃ os ps _ hops => invoke hev ha (hD d ha) hops
    | _ => exact raise

end Parallel

/-! ### Loops -/

/-- An evaluation that does not know a private object leaves it private. -/
theorem Private.bind {x : Eval α} {y : Eval β} {f : α → Eval γ} {g : β → Eval δ}
    {P : Pairing → α → β → Prop} {Q : Pairing → γ → δ → Prop} (h : Private D R S s t os ps)
    (hx : Parallel D R x y P)
    (hf : ∀ R' S' a b s' t', R ≤ R' → Private D R' S' s' t' os ps → P R' a b →
      Ended D S' s' t' Q (f a s') (g b t')) :
    Ended D S s t Q ((x >>= f) s) ((y >>= g) t) := by
  have hended := hx s t h.base
  simp only [Bind.bind, EStateM.bind]
  cases hxs : x s <;> cases hyt : y t <;> simp only [hxs, hyt, Ended] at hended ⊢
  · obtain ⟨R', hgrow, hst, hP⟩ := hended
    exact Ended.after (hgrow.frame h.le) (hf R' _ _ _ _ _ hgrow.le (h.carry hgrow hst) hP)
  · obtain ⟨he, R', hgrow, hst⟩ := hended
    exact ⟨he, S ⊔ R', hgrow.frame h.le, (h.carry hgrow hst).all⟩

theorem Private.iterate {ev : Node → Eval ObjectId} (hev : Mirrored D ev) {iterator body : Node}
    {fresh : Option Place} {c d : ObjectId} (hiterator : Within D iterator)
    (hbody : ∀ m ∈ body.statements, Within D m) (hfresh : ∀ R, ∀ a ∈ fresh, SamePlace R a a)
    (h : Private D R S s t [c] [d]) :
    Ended D S s t Same (Eval.iterate ev iterator body fresh c s)
      (Eval.iterate ev iterator body fresh d t) := by
  refine h.bind Parallel.isBroken fun R₁ S₁ b b' s₁ t₁ _ h₁ hb => ?_
  cases hb
  split
  · exact Parallel.pure rfl _ _ h₁.all
  · refine h₁.bind Parallel.checkInterrupt fun R₂ S₂ _ _ s₂ t₂ _ h₂ _ => ?_
    have hrest : ∀ R₃ S₃ a b s₃ t₃, R₂ ≤ R₃ → Private D R₃ S₃ s₃ t₃ [c] [d] → SamePlace R₃ a b →
        Ended D S₃ s₃ t₃ Same
          ((do
            Eval.store a c iterator.span
            let _ ← Eval.statements ev body.statements
            return !(← Eval.isBroken)) s₃)
          ((do
            Eval.store b d iterator.span
            let _ ← Eval.statements ev body.statements
            return !(← Eval.isBroken)) t₃) := by
      intro R₃ S₃ a b s₃ t₃ _ h₃ hab
      refine (h₃.store hab).bind fun R₄ _ _ s₄ t₄ _ hst₄ _ => ?_
      refine (Parallel.statements hev hbody).bind (fun R₅ _ _ _ _ => ?_) s₄ t₄ hst₄
      exact Parallel.isBroken.andThen fun R₆ b _ => .pure rfl
    cases fresh with
    | some a => exact hrest R₂ S₂ a a s₂ t₂ (fun _ _ => id) h₂ (hfresh R₂ a rfl)
    | none => exact h₂.bind (Parallel.place hev hiterator) hrest

namespace Parallel

/-- What a step of a loop does with its item, which is an object of its own. -/
def Stepping (D : Decl → Prop) (step : ObjectId → Eval Bool) : Prop :=
  ∀ R S s t c d, Private D R S s t [c] [d] → Ended D S s t Same (step c s) (step d t)

theorem forRange {step : ObjectId → Eval Bool} (hstep : Stepping D step) {n : Nat} {i : Int} :
    Parallel D R (Eval.forRange step n i) (Eval.forRange step n i) Same := by
  induction n generalizing R i with
  | zero => exact pure rfl
  | succ n ih =>
    intro s t hst
    obtain ⟨c, d, S, s', t', hs, ht, hgrow, hprivate⟩ :=
      allocAtom_private (a := .int (.ofInt i)) hst trivial
    simp only [Eval.forRange]
    rw [bind_ok hs, bind_ok ht]
    refine .after hgrow ((hstep _ _ _ _ _ _ hprivate).bind fun R₁ b b' s₁ t₁ _ hst₁ hb => ?_)
    cases hb
    split
    · exact ih _ _ hst₁
    · exact pure rfl _ _ hst₁

theorem forElements {step : ObjectId → Eval Bool} (hstep : Stepping D step)
    (hops : List.Forall₂ R os ps) :
    Parallel D R (Eval.forElements step os) (Eval.forElements step ps) Same := by
  induction os generalizing ps R with
  | nil =>
    cases hops
    exact pure rfl
  | cons o os ih =>
    cases hops with
    | cons hop hops =>
      intro s t hst
      obtain ⟨c, d, S, s', t', hs, ht, hgrow, hprivate⟩ := copy_private hst hop
      simp only [Eval.forElements]
      rw [bind_ok hs, bind_ok ht]
      refine .after hgrow ((hstep _ _ _ _ _ _ hprivate).bind fun R₁ b b' s₁ t₁ hgrow₁ hst₁ hb => ?_)
      cases hb
      split
      · exact ih ((hops.imp hgrow.le).imp hgrow₁.le) _ _ hst₁
      · exact pure rfl _ _ hst₁

/-- What two loops go through. -/
inductive SameItems (R : Pairing) : Items → Items → Prop
  | range (r : IntRange) : SameItems R (.range r) (.range r)
  | elements {os ps : List ObjectId} (h : List.Forall₂ R os ps) :
      SameItems R (.elements os) (.elements ps)

theorem itemsOf (hop : R o p) :
    Parallel D R (Eval.itemsOf o span) (Eval.itemsOf p span) SameItems := by
  refine (valueOf hop).bind fun R₁ v w _ hvw => ?_
  cases hvw with
  | tuple => exact raise
  | vector h => exact pure (.elements h)
  | @atom a ha =>
    cases a with
    | range r => exact pure (.range r)
    | _ => exact raise

theorem freshIterator {iterator : Node} :
    Parallel D R (Eval.freshIterator iterator) (Eval.freshIterator iterator)
      (fun _ a b => a = b ∧ ∀ R, ∀ place ∈ a, SamePlace R place place) := by
  unfold Eval.freshIterator
  split
  · refine declare.andThen fun R₁ slot _ => pure ⟨rfl, fun R place hplace => ?_⟩
    cases hplace
    exact .named slot
  · exact pure ⟨rfl, by simp⟩

variable {ev : Node → Eval ObjectId} (hev : Mirrored D ev)

include hev

theorem forLoop {iterator iterable body : Node} (hiterator : Within D iterator)
    (hiterable : Within D iterable) (hbody : Within D body) :
    Parallel D R (Eval.forLoop ev iterator iterable body)
      (Eval.forLoop ev iterator iterable body) Paired := by
  refine (hev R iterable hiterable).bind fun R₁ o p _ hop => ?_
  refine (itemsOf hop).bind fun R₂ items items' _ hitems => ?_
  refine (openLoop hbody.statements).andThen fun R₃ _ hle₃ => ?_
  refine freshIterator.bind fun R₄ fresh fresh' hle₄ ⟨heq, hfresh⟩ => ?_
  cases heq
  have hstep : Stepping D (Eval.iterate ev iterator body fresh) :=
    fun _ _ _ _ _ _ h => h.iterate hev hiterator hbody.statements hfresh
  cases hitems with
  | range r => exact (forRange hstep).andThen fun R₅ _ _ => closeLoop
  | elements hops =>
    exact (forElements hstep ((hops.imp hle₃).imp hle₄)).andThen fun R₅ _ _ => closeLoop

theorem whileHolds {test body : Node} {limit : Nat} (htest : Within D test)
    (hbody : ∀ m ∈ body.statements, Within D m) :
    Parallel D R (Eval.whileHolds ev test body limit)
      (Eval.whileHolds ev test body limit) Same := by
  induction limit generalizing R with
  | zero => exact throw
  | succ limit ih =>
    refine isBroken.andThen fun R₁ b _ => ?_
    split
    · exact pure rfl
    · refine checkInterrupt.andThen fun R₂ _ _ => ?_
      refine (condition hev htest).andThen fun R₃ b _ => ?_
      split
      · exact (statements hev hbody).bind fun R₄ _ _ _ _ => ih
      · exact pure rfl

theorem whileLoop {test body : Node} {limit : Nat} (htest : Within D test) (hbody : Within D body) :
    Parallel D R (Eval.whileLoop ev limit test body)
      (Eval.whileLoop ev limit test body) Paired := by
  refine (openLoop hbody.statements).andThen fun R₁ _ _ => ?_
  exact (whileHolds hev htest hbody.statements).andThen fun R₂ _ _ => closeLoop

end Parallel

/-! ### All forms -/

theorem Mirrored.form {ev : Node → Eval ObjectId} (hev : Mirrored D ev)
    (hD : ∀ d, D d → Within D d.body) (limit : Nat) : Mirrored D (Eval.form ev limit) := by
  intro R n hn
  cases n with
  | none _ | record _ => exact .allocNone
  | bool _ b => exact .allocAtom trivial
  | literal _ l => exact .allocAtom (by cases l <;> trivial)
  | emptyList _ => exact .alloc (.vector .nil)
  | list _ items =>
    refine (Parallel.operands hev (Within.all hn)).bind fun R₁ os ps _ hops => ?_
    exact .alloc (.vector (by simpa using hops))
  | tuple _ items =>
    refine (Parallel.operands hev (Within.all hn)).bind fun R₁ os ps _ hops => ?_
    exact .alloc (.tuple (by simpa using hops))
  | range _ a b =>
    obtain ⟨ha, hb⟩ := hn.pair rfl
    exact .range hev ha hb
  | var span ident => exact .name
  | subscript span a b =>
    obtain ⟨ha, hb⟩ := hn.pair rfl
    exact .subscript hev ha hb
  | assign span a b =>
    obtain ⟨ha, hb⟩ := hn.pair rfl
    exact .assignTo hev ha hb
  | binary span op a b =>
    obtain ⟨ha, hb⟩ := hn.pair rfl
    exact .binary hev ha hb
  | compare span op a b => exact .comparison hev hn
  | call span f args =>
    exact .call hev hD (fun d hd => hn d (List.mem_append_left _ hd))
      (Within.all fun d hd => hn d (List.mem_append_right _ hd))
  | function _ id ident params result body => exact .functionObject (hn _ (by simp [Node.decls]))
  | self span => exact .selfFunction
  | letVar _ ident _ init => exact .letVar hev (Within.option hn)
  | ret span value => exact .returnFrom hev (Within.option hn)
  | breakLoop span value => exact .breakFrom hev (Within.option hn)
  | continueLoop span => exact .continueFrom
  | block _ nodes => exact .block hev (Within.all hn)
  | cond _ test yes no =>
    simp only [Within, Node.decls, List.mem_append] at hn
    exact .conditional hev (fun d hd => hn d (.inl (.inl hd))) (fun d hd => hn d (.inl (.inr hd)))
      (Within.option fun d hd => hn d (.inr hd))
  | forLoop _ iterator iterable body =>
    simp only [Within, Node.decls, List.mem_append] at hn
    exact .forLoop hev (fun d hd => hn d (.inl (.inl hd))) (fun d hd => hn d (.inl (.inr hd)))
      fun d hd => hn d (.inr hd)
  | whileLoop _ test body =>
    obtain ⟨htest, hbody⟩ := hn.pair rfl
    exact .whileLoop hev htest hbody

/-- Evaluation does not depend on the numbers of objects. -/
theorem mirrored_node (hD : ∀ d, D d → Within D d.body) (fuel : Nat) : Mirrored D (node fuel) := by
  induction fuel with
  | zero => exact fun _ _ _ => .throw
  | succ fuel ih =>
    intro R n hn
    refine Parallel.checkInterrupt.andThen fun R₁ _ _ => ?_
    exact Parallel.trace.andThen fun R₂ _ _ => ih.form hD fuel R₂ n hn

end Scripting.Eval
