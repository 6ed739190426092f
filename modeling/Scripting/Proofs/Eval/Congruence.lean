import Mathlib.Tactic.Common
import Scripting.Proofs.Eval.Routine

/-! Forms with operands that are evaluated in one way or in another. The routines around the
operands are the same, so two evaluations are related as their operands are, by any relation that
routines keep. -/
namespace Scripting.Eval

/-- The same routines, around evaluations that are related as given. -/
inductive Congruent (G : (α : Type) → Eval α → Eval α → Prop) : {α : Type} → Eval α → Eval α → Prop
  | given {α : Type} {x y : Eval α} (h : G α x y) : Congruent G x y
  | same {α : Type} {x : Eval α} (h : Routine .free x) : Congruent G x x
  | bind {α β : Type} {x y : Eval α} {f g : α → Eval β} (h : Congruent G x y)
      (hf : ∀ a, Congruent G (f a) (g a)) : Congruent G (x >>= f) (y >>= g)

namespace Congruent

variable {α β : Type} {G : (α : Type) → Eval α → Eval α → Prop} {ev ev' : Node → Eval ObjectId}
  {span : Option Span}

/-- A routine first, then something that depends on operands. -/
theorem after {z : Eval β} {f g : β → Eval α} (hz : Routine .free z)
    (hf : ∀ a, Congruent G (f a) (g a)) :
    Congruent G (z >>= f) (z >>= g) := (same hz).bind hf

section

variable (h : ∀ n, Congruent G (ev n) (ev' n))

include h

theorem elementPlace {vector : ObjectId} {target index : Node} :
    Congruent G (Eval.elementPlace ev vector target index)
      (Eval.elementPlace ev' vector target index) :=
  (h index).bind fun _ => after .subscriptIndex fun _ => same .pure

theorem reference (n : Node) : Congruent G (Eval.reference ev n) (Eval.reference ev' n) := by
  induction n using Eval.reference.induct with
  | case1 span ident =>
    refine after (.read fun _ _ => rfl) fun isVariable => ?_
    cases isVariable
    · exact h _
    · exact after .variablePlace fun _ => same .load
  | case2 span target index ih =>
    exact ih.bind fun vector => (elementPlace h).bind fun _ => same .load
  | case3 n hvar hsub =>
    rw [Eval.reference.eq_3 ev n hvar hsub, Eval.reference.eq_3 ev' n hvar hsub]
    exact h n

theorem place (n : Node) : Congruent G (Eval.place ev n) (Eval.place ev' n) := by
  cases n with
  | var => exact same .variablePlace
  | subscript span target index => exact (reference h target).bind fun _ => elementPlace h
  | _ => exact same .raise

theorem subscript {target index : Node} :
    Congruent G (Eval.subscript ev span target index) (Eval.subscript ev' span target index) := by
  refine (reference h target).bind fun vector => (elementPlace h).bind fun p => ?_
  exact after .load fun _ => same .copy

theorem assign {target value : Node} :
    Congruent G (Eval.assign ev span target value) (Eval.assign ev' span target value) := by
  refine (place h target).bind fun p => (h value).bind fun o => ?_
  exact after .copy fun _ => after .store fun _ => same .pure

theorem letVar {ident : Ident} {init : Option Node} :
    Congruent G (Eval.letVar ev ident init) (Eval.letVar ev' ident init) := by
  cases init with
  | none => exact after .declare fun _ => same .allocNone
  | some n => exact (h n).bind fun o => after .define fun _ => same .allocNone

theorem operands (ns : List Node) : Congruent G (Eval.operands ev ns) (Eval.operands ev' ns) := by
  induction ns with
  | nil => exact same .pure
  | cons n ns ih => exact (h n).bind fun _ => ih.bind fun _ => same .pure

theorem binary {op : BinaryOp} {lhs rhs : Node} :
    Congruent G (Eval.binary ev span op lhs rhs) (Eval.binary ev' span op lhs rhs) := by
  refine (h lhs).bind fun l => (h rhs).bind fun r => after .valueOf fun v =>
    after .valueOf fun w => ?_
  exact after .compute fun _ => same .alloc

theorem compareLinks (links : List (CompareOp × Node)) {l : ObjectId} :
    Congruent G (Eval.compareLinks ev span l links) (Eval.compareLinks ev' span l links) := by
  induction links generalizing l with
  | nil => exact same .pure
  | cons link links ih =>
    refine (h link.2).bind fun r => after .compareObjects fun holds => ?_
    cases holds
    · exact same .pure
    · exact ih

theorem comparison {n : Node} :
    Congruent G (Eval.comparison ev span n) (Eval.comparison ev' span n) :=
  (h _).bind fun _ => (compareLinks h _).bind fun _ => same .allocAtom

theorem range {start stop : Node} :
    Congruent G (Eval.range ev start stop) (Eval.range ev' start stop) := by
  refine (h start).bind fun a => (h stop).bind fun b => ?_
  exact after .expectInt fun _ => after .expectInt fun _ => same .allocAtom

theorem condition {test : Node} :
    Congruent G (Eval.condition ev test) (Eval.condition ev' test) := by
  refine (h test).bind fun o => after .valueOf fun v => ?_
  split
  · exact same .pure
  · exact same .raise

theorem conditional {test yes : Node} {no : Option Node} :
    Congruent G (Eval.conditional ev test yes no) (Eval.conditional ev' test yes no) := by
  refine (condition h).bind fun holds => ?_
  cases holds with
  | true => exact h yes
  | false =>
    cases no with
    | none => exact same .allocNone
    | some n => exact h n

/-! ### Statements -/

theorem returnFrom {value : Option Node} :
    Congruent G (Eval.returnFrom ev span value) (Eval.returnFrom ev' span value) := by
  refine after (.read fun _ _ => rfl) fun isNone => ?_
  cases isNone
  · cases value with
    | none => exact same (Routine.allocNone.bind fun _ => .endCall)
    | some n => exact (h n).bind fun _ => same .endCall
  · exact same .raise

theorem breakFrom {value : Option Node} :
    Congruent G (Eval.breakFrom ev span value) (Eval.breakFrom ev' span value) := by
  refine after (.read fun _ _ => rfl) fun isNone => ?_
  cases isNone
  · cases value with
    | none => exact same (Routine.pure.bind fun _ => .endLoop)
    | some n => exact ((h n).bind fun _ => same .pure).bind fun _ => same .endLoop
  · exact same .raise

theorem runStatements {index : Nat} (ns : List Node) :
    Congruent G (Eval.runStatements ev index ns) (Eval.runStatements ev' index ns) := by
  induction ns with
  | nil => exact same .pure
  | cons n ns ih =>
    refine (h n).bind fun o => after .modifyScope fun _ =>
      after (.read fun _ _ => rfl) fun isSkipped => ?_
    cases isSkipped
    · exact ih
    · exact same .pure

theorem statements (ns : List Node) :
    Congruent G (Eval.statements ev ns) (Eval.statements ev' ns) := by
  refine after (.read fun _ _ => rfl) fun index => after .modifyScope fun _ => ?_
  refine (runStatements h ns).bind fun _ => after (.read fun _ _ => rfl) fun last => ?_
  exact after .modifyScope fun _ => same .orNone

theorem block (ns : List Node) : Congruent G (Eval.block ev ns) (Eval.block ev' ns) := by
  unfold Eval.block
  split
  · exact same .allocNone
  · refine after .enter fun _ => (statements h ns).bind fun o => ?_
    exact after .leaveScope fun _ => same .pure

/-! ### Loops -/

theorem iterate {iterator body : Node} {fresh : Option Place} {item : ObjectId} :
    Congruent G (Eval.iterate ev iterator body fresh item)
      (Eval.iterate ev' iterator body fresh item) := by
  have hrest : ∀ p, Congruent G
      (do
        Eval.store p item iterator.span
        let _ ← Eval.statements ev body.statements
        return !(← Eval.isBroken))
      (do
        Eval.store p item iterator.span
        let _ ← Eval.statements ev' body.statements
        return !(← Eval.isBroken)) :=
    fun p => after .store fun _ => (statements h _).bind fun _ =>
      after .isBroken fun _ => same .pure
  refine after .isBroken fun isBroken => ?_
  cases isBroken
  · refine after .checkInterrupt fun _ => ?_
    cases fresh with
    | none => exact (place h iterator).bind hrest
    | some p => exact hrest p
  · exact same .pure

omit h in
theorem forRange {step step' : ObjectId → Eval Bool}
    (hstep : ∀ o, Congruent G (step o) (step' o)) {n : Nat} {i : Int} :
    Congruent G (Eval.forRange step n i) (Eval.forRange step' n i) := by
  induction n generalizing i with
  | zero => exact same .pure
  | succ n ih =>
    refine after .allocAtom fun item => (hstep item).bind fun goesOn => ?_
    cases goesOn
    · exact same .pure
    · exact ih

omit h in
theorem forElements {step step' : ObjectId → Eval Bool}
    (hstep : ∀ o, Congruent G (step o) (step' o)) {os : List ObjectId} :
    Congruent G (Eval.forElements step os) (Eval.forElements step' os) := by
  induction os with
  | nil => exact same .pure
  | cons o os ih =>
    refine after .copy fun item => (hstep item).bind fun goesOn => ?_
    cases goesOn
    · exact same .pure
    · exact ih

theorem forLoop {iterator iterable body : Node} :
    Congruent G (Eval.forLoop ev iterator iterable body)
      (Eval.forLoop ev' iterator iterable body) := by
  refine (h iterable).bind fun o => after .itemsOf fun items => ?_
  refine after .openLoop fun _ => after .freshIterator fun fresh => ?_
  cases items with
  | range r => exact (forRange fun _ => iterate h).bind fun _ => same .closeLoop
  | elements os => exact (forElements fun _ => iterate h).bind fun _ => same .closeLoop

theorem whileHolds_succ {test body : Node} {k m : Nat}
    (hrest : Congruent G (Eval.whileHolds ev test body k) (Eval.whileHolds ev' test body m)) :
    Congruent G (Eval.whileHolds ev test body (k + 1)) (Eval.whileHolds ev' test body (m + 1)) := by
  refine after .isBroken fun isBroken => ?_
  cases isBroken
  · refine after .checkInterrupt fun _ => (condition h).bind fun holds => ?_
    cases holds
    · exact same .pure
    · exact (statements h _).bind fun _ => hrest
  · exact same .pure

theorem whileHolds (k : Nat) (test body : Node) :
    Congruent G (Eval.whileHolds ev test body k) (Eval.whileHolds ev' test body k) := by
  induction k with
  | zero => exact same .throw_exhausted
  | succ k ih => exact whileHolds_succ h ih

/-! ### Calls -/

theorem callee (n : Node) : Congruent G (Eval.callee ev n) (Eval.callee ev' n) := by
  cases n with
  | var span ident =>
    refine after (.read fun _ _ => rfl) fun isKnown => ?_
    cases isKnown
    · exact same .raise
    · exact h _
  | _ => exact h _

theorem invoke {decl : Decl} {args : List ObjectId} :
    Congruent G (Eval.invoke ev decl args span) (Eval.invoke ev' decl args span) := by
  refine after .ofExcept fun _ => after .openCall fun _ => ?_
  refine after (.bindFixed _ _) fun _ => after .bindRest fun _ => ?_
  exact (h decl.body).bind fun _ => same .closeCall

theorem call {n : Node} {args : List Node} :
    Congruent G (Eval.call ev span n args) (Eval.call ev' span n args) := by
  refine (callee h n).bind fun o => after .valueOf fun v => ?_
  split
  · exact (operands (reference h) args).bind fun _ => same .callBuiltin
  · exact (operands h args).bind fun _ => invoke h
  · exact same .raise

/-- The two evaluations may differ also in how often a loop may repeat. -/
theorem form {k m : Nat}
    (hwhile : ∀ test body, Congruent G (Eval.whileHolds ev test body k)
      (Eval.whileHolds ev' test body m))
    (n : Node) : Congruent G (Eval.form ev k n) (Eval.form ev' m n) := by
  cases n with
  | none | record => exact same .allocNone
  | bool | literal => exact same .allocAtom
  | emptyList => exact same .alloc
  | list _ items | tuple _ items => exact (operands h items).bind fun _ => same .alloc
  | range => exact range h
  | var => exact same .name
  | subscript => exact subscript h
  | assign => exact assign h
  | binary => exact binary h
  | compare span op lhs rhs =>
    exact (comparison h : Congruent G (Eval.comparison ev span (.compare span op lhs rhs)) _)
  | call => exact call h
  | function => exact same .functionObject
  | self => exact same .selfFunction
  | ret => exact returnFrom h
  | cond => exact conditional h
  | forLoop => exact forLoop h
  | whileLoop => exact after .openLoop fun _ => (hwhile _ _).bind fun _ => same .closeLoop
  | breakLoop => exact breakFrom h
  | continueLoop => exact same .continueFrom
  | letVar => exact letVar h
  | block _ ns => exact block h ns

/-- What is done at every node. -/
theorem visit {k m : Nat}
    (hwhile : ∀ test body, Congruent G (Eval.whileHolds ev test body k)
      (Eval.whileHolds ev' test body m))
    (n : Node) : Congruent G
      (do Eval.checkInterrupt n.span; Eval.trace n; Eval.form ev k n)
      (do Eval.checkInterrupt n.span; Eval.trace n; Eval.form ev' m n) :=
  after .checkInterrupt fun _ => after .trace fun _ => form h hwhile n

end

end Congruent
end Scripting.Eval
