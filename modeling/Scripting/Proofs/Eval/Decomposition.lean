import Mathlib.Tactic.Common
import Scripting.Evaluator
import Scripting.Proofs.Eval.Operands

/-! Every evaluation is made of steps. -/
namespace Scripting.Eval

namespace Lands

variable {s : State} {T : List ObjectId} {o : ObjectId} {span : Option Span}
  {ev : Node → Eval ObjectId} (hev : Evaluates ev)

include hev

/-! ### Calls -/

theorem callee {n : Node} : Lands (Eval.callee ev n) s T (Gives T) := by
  unfold Eval.callee
  split
  · refine look ?_
    split
    · exact hev _ s T
    · exact raise
  · exact hev _ s T

omit hev in
theorem openCall {d : Decl} : Lands (Eval.openCall d span) s T (Keeps T) := by
  refine (modifyEnv .enter).andThen fun _ s' => ?_
  refine look ?_
  split
  · exact modifyEnv .pushFrame
  · refine leaveScope.andThen fun _ s' => ?_
    exact raise

omit hev in
theorem bindFixed {ps : List Param} {os : List ObjectId} :
    Lands (Eval.bindFixed ps os) s (os ++ T) (Keeps (os.drop ps.length ++ T)) := by
  induction ps generalizing os s with
  | nil => exact pure rfl
  | cons p ps ih =>
    cases os with
    | nil => exact pure rfl
    | cons o os =>
      refine define.andThen fun _ s' => ?_
      exact ih

omit hev in
theorem bindRest {d : Decl} {os : List ObjectId} :
    Lands (Eval.bindRest d os) s (os ++ T) (Keeps T) := by
  unfold Eval.bindRest
  split
  · refine (alloc (v := .vector os.toArray) nofun).andHold fun o s' => ?_
    exact define
  · exact dropList (pure rfl)

omit hev in
theorem closeCall : Lands (Eval.closeCall o) s (o :: T) (Gives T) := by
  refine look ((modifyEnv .popFrame).andThen fun _ s' => ?_)
  refine leaveScope.andThen fun _ s' => ?_
  cases s.env.frames.back? with
  | none => exact pure rfl
  | some frame =>
    dsimp only [Option.bind_some]
    split
    · cases frame.result with
      | none => exact drop allocNone
      | some r => exact perm (.swap o r T) (drop (pure rfl))
    · exact dropList (pure rfl)

theorem invoke {d : Decl} {os : List ObjectId} :
    Lands (Eval.invoke ev d os span) s (os ++ T) (Gives T) := by
  refine (ofExcept (G := fun _ => True) fun _ _ => trivial).bind ?_
  rintro - s' U - ⟨rfl, rfl, -⟩
  refine openCall.andThen fun _ s' => ?_
  refine bindFixed.andThen fun _ s' => ?_
  refine bindRest.andThen fun _ s' => ?_
  refine (hev d.body _ _).andHold fun o s' => ?_
  exact closeCall

theorem call {n : Node} {args : List Node} : Lands (Eval.call ev span n args) s T (Gives T) := by
  refine (callee hev).andHold fun o s' => ?_
  refine ofSound fun hsound => look ?_
  have ho : s'.heap.store.Has o := hsound.held o (by simp [Config.holdings])
  split
  · next b hb =>
    refine drop ((references hev).bind ?_)
    rintro os s'' U hsteps ⟨rfl, hos⟩
    exact callBuiltin hos fun hid => ⟨b, hid, o, hsteps.value_atom ho hb⟩
  · refine drop ((operands hev).bind ?_)
    rintro os s' U - rfl
    exact invoke hev
  · exact raise

/-! ### Statements -/

theorem runStatements {i : Nat} {ns : List Node} :
    Lands (Eval.runStatements ev i ns) s T (Keeps T) := by
  induction ns generalizing s T with
  | nil => exact pure rfl
  | cons n ns ih =>
    refine (hev n s T).andHold fun o s' => ?_
    refine (modifyEnv .setLast).andThen fun _ s' => ?_
    refine look ?_
    split
    · exact pure rfl
    · exact ih

theorem statements {ns : List Node} : Lands (Eval.statements ev ns) s T (Gives T) := by
  refine look ((modifyEnv .rest).andThen fun _ s' => ?_)
  refine (runStatements hev).andThen fun _ s' => ?_
  refine look ((modifyEnv .takeLast).andThen fun _ s'' => ?_)
  cases (s'.env.scopes[s.env.currentIndex]?.bind (·.last)) with
  | none => exact allocNone
  | some o => exact pure rfl

theorem block {ns : List Node} : Lands (Eval.block ev ns) s T (Gives T) := by
  unfold Eval.block
  split
  · exact allocNone
  · refine (modifyEnv .enter).andThen fun _ s' => ?_
    refine (statements hev).andHold fun o s' => ?_
    refine leaveScope.andThen fun _ s' => ?_
    exact pure rfl

theorem condition {test : Node} : Lands (Eval.condition ev test) s T (Keeps T) := by
  refine (hev test s T).andHold fun o s' => ?_
  refine drop (look ?_)
  split
  · exact pure rfl
  · exact raise

theorem conditional {test yes : Node} {no : Option Node} :
    Lands (Eval.conditional ev test yes no) s T (Gives T) := by
  refine (condition hev).andThen fun b s' => ?_
  split
  · exact hev yes _ _
  · cases no with
    | none => exact allocNone
    | some n => exact hev n _ _

theorem operand? {n : Option Node} :
    Lands (Eval.operand? ev n) s T (fun r _ U => U = r.toList ++ T) := by
  cases n with
  | none => exact pure rfl
  | some n =>
    refine (hev n s T).andHold fun o s' => ?_
    exact pure rfl

theorem returnFrom {n : Option Node} : Lands (Eval.returnFrom ev span n) s T (Gives T) := by
  refine look ?_
  split
  · exact raise
  · have hrest : ∀ o s', Lands
        (do
          if ← Eval.read (·.env.currentFrame?.isNone) then
            Eval.raise { kind := .notInsideFunction, span }
          else
            Eval.modifyEnv (Eval.leaveFunction · o)
            Eval.allocNone) s' (o :: T) (Gives T) := by
      intro o s'
      refine look ?_
      split
      · exact raise
      · refine (modifyEnv .leaveFunction).andThen fun _ s'' => ?_
        exact allocNone
    cases n with
    | none =>
      refine allocNone.andHold fun o s' => ?_
      exact hrest o s'
    | some n =>
      refine (hev n s T).andHold fun o s' => ?_
      exact hrest o s'

theorem breakFrom {n : Option Node} : Lands (Eval.breakFrom ev span n) s T (Gives T) := by
  refine look ?_
  split
  · exact raise
  · refine (operand? hev).bind ?_
    rintro r s' U - rfl
    refine look ?_
    split
    · exact raise
    · refine (modifyEnv .leaveLoop).andThen fun _ s'' => ?_
      exact allocNone

omit hev in
theorem continueFrom : Lands (Eval.continueFrom span) s T (Gives T) := by
  refine look ?_
  split
  · refine (modifyEnv .skipFrom).andThen fun _ s' => ?_
    exact allocNone
  · exact raise

omit hev in
theorem selfFunction : Lands (Eval.selfFunction span) s T (Gives T) := by
  refine look ?_
  split
  · exact functionObject
  · exact raise

/-! ### Loops -/

omit hev in
theorem openLoop {ns : List Node} : Lands (Eval.openLoop ns) s T (Keeps T) :=
  steps (fun _ => .head .enter (.single .pushLoop)) rfl

omit hev in
theorem closeLoop : Lands Eval.closeLoop s T (Gives T) := by
  refine look ((modifyEnv .popLoop).andThen fun _ s' => ?_)
  refine leaveScope.andThen fun _ s' => ?_
  cases s.env.loops.back?.bind (·.result) with
  | none => exact allocNone
  | some o => exact pure rfl

/-- The item passes to the iterator. -/
theorem iterate {iterator body : Node} {fresh : Option Place} :
    Lands (Eval.iterate ev iterator body fresh o) s (o :: T) (Keeps T) := by
  refine look ?_
  split
  · exact drop (pure rfl)
  · refine checkInterrupt.andThen fun _ s' => ?_
    have hrest : ∀ p s', Lands
        (do
          Eval.store p o iterator.span
          let _ ← Eval.statements ev body.statements
          return !(← isBroken)) s' (o :: T) (Keeps T) := by
      intro p s'
      refine store.andThen fun _ s' => ?_
      refine (statements hev).andHold fun _ s' => ?_
      exact drop (look (pure rfl))
    cases fresh with
    | some p => exact hrest p s'
    | none =>
      refine (place hev).andThen fun p s' => ?_
      exact hrest p s'

section Iteration

omit hev

variable {body : ObjectId → Eval Bool} (hbody : ∀ o s T, Lands (body o) s (o :: T) (Keeps T))

include hbody

theorem forRange {n : Nat} {i : Int} : Lands (Eval.forRange body n i) s T (Keeps T) := by
  induction n generalizing i s T with
  | zero => exact pure rfl
  | succ n ih =>
    refine (allocData (a := .int (.ofInt i)) trivial).andHold fun o s' => ?_
    refine (hbody o s' T).andThen fun b s' => ?_
    split
    · exact ih
    · exact pure rfl

theorem forElements {os : List ObjectId} : Lands (Eval.forElements body os) s T (Keeps T) := by
  induction os generalizing s T with
  | nil => exact pure rfl
  | cons o os ih =>
    refine copy.andHold fun c s' => ?_
    refine (hbody c s' T).andThen fun b s' => ?_
    split
    · exact ih
    · exact pure rfl

end Iteration

omit hev in
theorem itemsOf : Lands (Eval.itemsOf o span) s T (Keeps T) := by
  refine look ?_
  split
  · exact pure rfl
  · exact pure rfl
  · exact raise

omit hev in
theorem freshIterator {n : Node} : Lands (Eval.freshIterator n) s T (Keeps T) := by
  unfold Eval.freshIterator
  split
  · refine declare.andThen fun slot s' => ?_
    exact pure rfl
  · exact pure rfl

theorem forLoop {iterator iterable body : Node} :
    Lands (Eval.forLoop ev iterator iterable body) s T (Gives T) := by
  refine (hev iterable s T).andHold fun o s' => ?_
  refine drop (itemsOf.andThen fun items s' => ?_)
  refine openLoop.andThen fun _ s' => ?_
  refine freshIterator.andThen fun fresh s' => ?_
  have hbody : ∀ o s T, Lands (Eval.iterate ev iterator body fresh o) s (o :: T) (Keeps T) :=
    fun _ _ _ => iterate hev
  cases items with
  | range r =>
    refine (forRange hbody).andThen fun _ s' => ?_
    exact closeLoop
  | elements os =>
    refine (forElements hbody).andThen fun _ s' => ?_
    exact closeLoop

theorem whileHolds {test body : Node} {n : Nat} :
    Lands (Eval.whileHolds ev test body n) s T (Keeps T) := by
  induction n generalizing s T with
  | zero => exact throw
  | succ n ih =>
    refine look ?_
    split
    · exact pure rfl
    · refine checkInterrupt.andThen fun _ s' => ?_
      refine (condition hev).andThen fun b s' => ?_
      split
      · refine (statements hev).andHold fun o s' => ?_
        exact drop ih
      · exact pure rfl

theorem whileLoop {limit : Nat} {test body : Node} :
    Lands (Eval.whileLoop ev limit test body) s T (Gives T) := by
  refine openLoop.andThen fun _ s' => ?_
  refine (whileHolds hev).andThen fun _ s' => ?_
  exact closeLoop

/-! ### Nodes -/

theorem form {limit : Nat} {n : Node} : Lands (Eval.form ev limit n) s T (Gives T) := by
  cases n with
  | none | record => exact allocNone
  | bool => exact allocData trivial
  | literal _ l => exact allocData (by cases l <;> trivial)
  | emptyList => exact alloc (v := .vector #[]) nofun
  | list | tuple =>
    refine (operands hev).bind ?_
    rintro os s' U - rfl
    exact alloc nofun
  | range => exact range hev
  | var => exact name
  | subscript => exact subscript hev
  | assign => exact assignment hev
  | binary => exact binary hev
  | compare span op lhs rhs => exact comparison (n := .compare span op lhs rhs) hev
  | call => exact call hev
  | function | self => first | exact functionObject | exact selfFunction
  | ret => exact returnFrom hev
  | cond => exact conditional hev
  | forLoop => exact forLoop hev
  | whileLoop => exact whileLoop hev
  | breakLoop => exact breakFrom hev
  | continueLoop => exact continueFrom
  | letVar => exact letVar hev
  | block => exact block hev

end Lands

/-- Nodes evaluate by steps, and their objects are held by whoever asked for them. -/
theorem evaluates_node (fuel : Nat) : Evaluates (node fuel) := by
  induction fuel with
  | zero => exact fun n s T => .throw
  | succ fuel ih =>
    intro n s T
    refine Lands.checkInterrupt.andThen fun _ s' => ?_
    refine Lands.trace.andThen fun _ s' => ?_
    exact .form ih

end Scripting.Eval

namespace Scripting

/-! ### Whole trees -/

/-- Pruning forgets functions, and may note so in the log. -/
theorem State.prune_eq (s : State) (held : List ObjectId) :
    ∃ fs log, s.prune held = { s with functions := fs, log } ∧ ∀ x ∈ fs, x ∈ s.functions := by
  unfold prune
  split
  · exact ⟨_, _, rfl, fun _ => id⟩
  · dsimp only
    split
    · exact ⟨_, _, rfl, fun _ => id⟩
    · exact ⟨_, _, rfl, fun x hx => List.mem_of_mem_filter hx⟩

theorem State.heap_prune {s : State} {held : List ObjectId} : (s.prune held).heap = s.heap := by
  obtain ⟨fs, log, hs, -⟩ := s.prune_eq held
  rw [hs]

theorem State.env_prune {s : State} {held : List ObjectId} : (s.prune held).env = s.env := by
  obtain ⟨fs, log, hs, -⟩ := s.prune_eq held
  rw [hs]

namespace Steps

variable {s : State} {T : List ObjectId}

theorem take_pop {α : Type} {xs : Array α} {n : Nat} (h : n < xs.size) :
    xs.pop.take n = xs.take n := by
  refine Array.ext ?_ fun i hi hj => ?_
  · simp
    omega
  · simp

theorem popLoops (n : Nat) :
    Steps ⟨s, T⟩ ⟨s.withEnv { s.env with loops := s.env.loops.take n }, T⟩ := by
  induction hk : s.env.loops.size - n generalizing s with
  | zero =>
    rw [Array.take_eq_extract, Array.extract_eq_self_of_le (by omega)]
    exact .refl
  | succ k ih =>
    have hpop : Steps ⟨s, T⟩ ⟨s.withEnv s.env.popLoop.2, T⟩ := .head .popLoop dropList
    have hrest := ih (s := s.withEnv s.env.popLoop.2) (by
      simp only [State.withEnv, Environment.popLoop, Array.size_pop]
      omega)
    rw [← take_pop (by omega)]
    exact hpop.trans hrest

theorem popFrames (n : Nat) :
    Steps ⟨s, T⟩ ⟨s.withEnv { s.env with frames := s.env.frames.take n }, T⟩ := by
  induction hk : s.env.frames.size - n generalizing s with
  | zero =>
    rw [Array.take_eq_extract, Array.extract_eq_self_of_le (by omega)]
    exact .refl
  | succ k ih =>
    have hpop : Steps ⟨s, T⟩ ⟨s.withEnv s.env.popFrame.2, T⟩ := .head .popFrame dropList
    have hrest := ih (s := s.withEnv s.env.popFrame.2) (by
      simp only [State.withEnv, Environment.popFrame, Array.size_pop]
      omega)
    rw [← take_pop (by omega)]
    exact hpop.trans hrest

theorem leaveMany (n : Nat) (hs : Config.Sound ⟨s, T⟩) :
    Steps ⟨s, T⟩ ⟨s.withBindings (s.env.leaveMany n s.heap.store), T⟩ := by
  induction n generalizing s with
  | zero => exact .refl
  | succ n ih =>
    have hleave : Step ⟨s, T⟩ ⟨s.withBindings (s.env.leave s.heap.store), T⟩ :=
      .leave hs.exact.leave.1
    exact .head hleave (ih (hleave.sound hs))

/-- Going back to a checkpoint releases what is bound in the scopes that go away. -/
theorem restore (c : Checkpoint) (hs : Config.Sound ⟨s, T⟩) : Steps ⟨s, T⟩ ⟨s.restore c, T⟩ := by
  have hloops : Steps ⟨s, T⟩ _ := popLoops c.loops
  have hframes : Steps ⟨s, T⟩ _ := hloops.trans (popFrames c.frames)
  have hscopes := hframes.trans (leaveMany (s.env.scopes.size - max c.scopes 1) (hframes.sound hs))
  exact hscopes.tail .unskip

theorem prune {held : List ObjectId} : Steps ⟨s, T⟩ ⟨s.prune held, T⟩ := by
  obtain ⟨fs, log, hs, hfs⟩ := s.prune_eq held
  rw [hs]
  exact .head (.forget hfs) (.single .note)

/-- A tree evaluates by steps. A value is held by the host; after an error nothing more is held. -/
theorem tree (n : Node) (held : List ObjectId) (hs : Config.Sound ⟨s, T⟩) :
    match Eval.tree held n s with
    | .ok o s' => Steps ⟨s, T⟩ ⟨s', o :: T⟩
    | .error _ s' => Steps ⟨s, T⟩ ⟨s', T⟩ := by
  have hnode := Eval.evaluates_node Eval.fuel n s [] hs.unheld
  unfold Eval.tree Eval.unwinding
  cases hr : Eval.node Eval.fuel n s with
  | ok o s' =>
    rw [hr] at hnode
    obtain ⟨U, hsteps, rfl⟩ := hnode
    exact (hsteps.frame (R := T)).trans prune
  | error stop s' =>
    rw [hr] at hnode
    obtain ⟨U, hsteps⟩ := hnode
    have hfail : Steps ⟨s, T⟩ ⟨s', T⟩ := (hsteps.frame (R := T)).trans dropList
    exact (hfail.trans (restore _ (hfail.sound hs))).trans prune

end Steps

end Scripting
