import Mathlib.Tactic.Common
import Scripting.Proofs.Eval.Discipline

/-! Evaluation that opens nothing. Blocks, loops and calls are all that puts anything on the stacks,
so a tree without them leaves the stacks as high as they were, also when it fails. -/
namespace Scripting

/-! ### Flat trees -/

namespace Node

mutual

/-- Whether no block, loop or call is run when a tree is evaluated. -/
def isFlat : Node → Bool
  | .none _ | .self _ | .bool _ _ | .literal _ _ | .emptyList _ | .var _ _ | .record _
  | .continueLoop _ | .function _ _ _ _ _ _ => true
  | .list _ nodes | .tuple _ nodes => areFlat nodes
  | .subscript _ a b | .binary _ _ a b | .compare _ _ a b | .range _ a b | .assign _ a b =>
    isFlat a && isFlat b
  | .cond _ test yes no => isFlat test && isFlat yes && isFlatOption no
  | .ret _ node | .breakLoop _ node | .letVar _ _ _ node => isFlatOption node
  | .block _ _ | .call _ _ _ | .forLoop _ _ _ _ | .whileLoop _ _ _ => false

def areFlat : List Node → Bool
  | [] => true
  | node :: nodes => isFlat node && areFlat nodes

def isFlatOption : Option Node → Bool
  | Option.none => true
  | some node => isFlat node

end

theorem isFlat_chain {n : Node} (h : n.isFlat = true) :
    n.chain.1.isFlat = true ∧ ∀ link ∈ n.chain.2, link.2.isFlat = true :=
  chain_parts (P := fun n => n.isFlat = true) Bool.and_eq_true_iff.mp h

end Node

/-! ### Heights of the stacks -/

namespace Eval

open Environment

variable {α β : Type} {x : Eval α} {f : α → Eval β} {ev : Node → Eval ObjectId} {o : ObjectId}
  {span : Option Span}

/-- An evaluation that leaves the stacks as high as they were, whichever way it ends. -/
def Level (x : Eval α) : Prop := ∀ s,
  match x s with
  | .ok _ s' => s'.env.checkpoint = s.env.checkpoint
  | .error _ s' => s'.env.checkpoint = s.env.checkpoint

namespace Level

theorem still (h : Routine .still x) : Level x := by
  intro s
  have henv := h.still s
  cases hr : x s <;> simp only [hr] at henv ⊢ <;> rw [henv]

theorem pure {a : α} : Level (Pure.pure a) := still .pure

theorem raise {e : Error} : Level (Eval.raise e : Eval α) := still .raise

theorem bind (hx : Level x) (hf : ∀ a, Level (f a)) : Level (x >>= f) := by
  intro s
  have hs := hx s
  simp only [Bind.bind, EStateM.bind]
  cases hr : x s with
  | error stop s' =>
    rw [hr] at hs
    exact hs
  | ok a s' =>
    rw [hr] at hs
    have hs' := hf a s'
    simp only at hs ⊢
    cases hr' : f a s' <;> simp only [hr'] at hs' ⊢ <;> exact hs'.trans hs

theorem read {r : State → α} (hf : ∀ a, Level (f a)) : Level (Eval.read r >>= f) :=
  bind (fun _ => rfl) hf

theorem modifyGet {m : State → α × State} (h : ∀ s : State, s.env.Balanced (m s).2.env) :
    Level (MonadStateOf.modifyGet m : Eval α) := fun s => (h s).heights

/-- A change of marks. -/
theorem mark {m : Environment → Environment} (hm : ∀ e, (m e).unmarked = e.unmarked) :
    Level (modifyEnv m) :=
  modifyGet fun s => .of_unmarked (hm s.env)

theorem store {p : Place} : Level (Eval.store p o span) := by
  rcases p with slot | ⟨vector, index⟩
  · refine read fun isThere => ?_
    cases isThere
    · exact raise
    · exact modifyGet fun _ => .assign
  · exact still .storeElement

theorem endCall {result : ObjectId} :
    Level (do
      if ← Eval.read (·.env.currentFrame?.isNone) then
        Eval.raise { kind := .notInsideFunction, span }
      else
        modifyEnv (leaveFunction · result)
        Eval.allocNone) := by
  refine read fun isOutside => ?_
  cases isOutside
  · exact (mark fun _ => unmarked_leaveFunction).bind fun _ => still .allocNone
  · exact raise

section

/-! The operands of a flat tree are flat. -/

variable (hev : ∀ n, n.isFlat = true → Level (ev n))
include hev

theorem elementPlace {vector : ObjectId} {target index : Node} (h : index.isFlat = true) :
    Level (Eval.elementPlace ev vector target index) :=
  (hev index h).bind fun _ => (still .subscriptIndex).bind fun _ => pure

theorem reference {n : Node} (h : n.isFlat = true) : Level (Eval.reference ev n) := by
  induction n using Eval.reference.induct with
  | case1 span ident =>
    refine read fun isVariable => ?_
    cases isVariable
    · exact hev _ h
    · exact (still .variablePlace).bind fun _ => still .load
  | case2 span target index ih =>
    obtain ⟨htarget, hindex⟩ := Bool.and_eq_true_iff.mp h
    exact (ih htarget).bind fun _ => (elementPlace hev hindex).bind fun _ => still .load
  | case3 n hvar hsub =>
    rw [Eval.reference.eq_3 ev n hvar hsub]
    exact hev n h

theorem place {n : Node} (h : n.isFlat = true) : Level (Eval.place ev n) := by
  cases n with
  | var span ident => exact still .variablePlace
  | subscript span target index =>
    obtain ⟨htarget, hindex⟩ := Bool.and_eq_true_iff.mp h
    exact (reference hev htarget).bind fun _ => elementPlace hev hindex
  | _ => exact raise

theorem operands {ns : List Node} (h : Node.areFlat ns = true) : Level (Eval.operands ev ns) := by
  induction ns with
  | nil => exact pure
  | cons n ns ih =>
    obtain ⟨hn, hns⟩ := Bool.and_eq_true_iff.mp h
    exact (hev n hn).bind fun _ => (ih hns).bind fun _ => pure

theorem compareLinks {links : List (CompareOp × Node)} (h : ∀ link ∈ links, link.2.isFlat = true)
    {l : ObjectId} : Level (Eval.compareLinks ev span l links) := by
  induction links generalizing l with
  | nil => exact pure
  | cons link links ih =>
    refine (hev link.2 (h link (by simp))).bind fun r => ?_
    refine (still .compareObjects).bind fun holds => ?_
    cases holds
    · exact pure
    · exact ih fun m hm => h m (by simp [hm])

theorem comparison {n : Node} (h : n.isFlat = true) : Level (Eval.comparison ev span n) := by
  obtain ⟨hfirst, hlinks⟩ := Node.isFlat_chain h
  refine (hev _ hfirst).bind fun l => ?_
  exact (compareLinks hev hlinks).bind fun _ => still .allocAtom

theorem conditional {test yes : Node} {no : Option Node} (htest : test.isFlat = true)
    (hyes : yes.isFlat = true) (hno : Node.isFlatOption no = true) :
    Level (Eval.conditional ev test yes no) := by
  have hcondition : Level (Eval.condition ev test) := by
    refine (hev test htest).bind fun o => read fun v => ?_
    split
    · exact pure
    · exact raise
  refine hcondition.bind fun holds => ?_
  cases holds with
  | true => exact hev yes hyes
  | false =>
    cases no with
    | none => exact still .allocNone
    | some n => exact hev n hno

theorem returnFrom {value : Option Node} (h : Node.isFlatOption value = true) :
    Level (Eval.returnFrom ev span value) := by
  refine read fun isOutside => ?_
  cases isOutside with
  | true => exact raise
  | false =>
    cases value with
    | none => exact (still .allocNone).bind fun _ => endCall
    | some n => exact (hev n h).bind fun _ => endCall

theorem breakFrom {value : Option Node} (h : Node.isFlatOption value = true) :
    Level (Eval.breakFrom ev span value) := by
  refine read fun isOutside => ?_
  cases isOutside with
  | true => exact raise
  | false =>
    have hvalue : Level (Eval.operand? ev value) := by
      cases value with
      | none => exact pure
      | some n => exact (hev n h).bind fun _ => pure
    refine hvalue.bind fun result => read fun isOutside => ?_
    cases isOutside
    · exact (mark fun _ => unmarked_leaveLoop).bind fun _ => still .allocNone
    · exact raise

theorem letVar {ident : Ident} {init : Option Node} (h : Node.isFlatOption init = true) :
    Level (Eval.letVar ev ident init) := by
  cases init with
  | none => exact (modifyGet fun _ => .declare).bind fun _ => still .allocNone
  | some n =>
    refine (hev n h).bind fun o => ?_
    exact bind (modifyGet fun _ => .define) fun _ => still .allocNone

theorem form {limit : Nat} {n : Node} (h : n.isFlat = true) : Level (Eval.form ev limit n) := by
  cases n with
  | none | record => exact still .allocNone
  | bool | literal => exact still .allocAtom
  | emptyList => exact still .alloc
  | list _ items | tuple _ items => exact (operands hev h).bind fun _ => still .alloc
  | range _ start stop =>
    obtain ⟨hstart, hstop⟩ := Bool.and_eq_true_iff.mp h
    refine (hev start hstart).bind fun a => (hev stop hstop).bind fun b => ?_
    exact (still .expectInt).bind fun _ => (still .expectInt).bind fun _ => still .allocAtom
  | var => exact still .name
  | subscript _ target index =>
    obtain ⟨htarget, hindex⟩ := Bool.and_eq_true_iff.mp h
    refine (reference hev htarget).bind fun vector => (elementPlace hev hindex).bind fun p => ?_
    exact (still .load).bind fun _ => still .copy
  | assign _ target value =>
    obtain ⟨htarget, hvalue⟩ := Bool.and_eq_true_iff.mp h
    refine (place hev htarget).bind fun p => (hev value hvalue).bind fun o => ?_
    exact (still .copy).bind fun _ => store.bind fun _ => pure
  | binary _ op lhs rhs =>
    obtain ⟨hlhs, hrhs⟩ := Bool.and_eq_true_iff.mp h
    refine (hev lhs hlhs).bind fun l => (hev rhs hrhs).bind fun r => read fun _ => read fun _ => ?_
    exact (still .compute).bind fun _ => still .alloc
  | compare span op lhs rhs => exact comparison hev h
  | function => exact still .functionObject
  | self => exact still .selfFunction
  | ret => exact returnFrom hev h
  | cond _ test yes no =>
    obtain ⟨hboth, hno⟩ := Bool.and_eq_true_iff.mp h
    obtain ⟨htest, hyes⟩ := Bool.and_eq_true_iff.mp hboth
    exact conditional hev htest hyes hno
  | breakLoop => exact breakFrom hev h
  | continueLoop =>
    refine read fun current => ?_
    cases current with
    | none => exact raise
    | some l => exact (mark fun _ => unmarked_skipFrom).bind fun _ => still .allocNone
  | letVar => exact letVar hev h
  | block | call | forLoop | whileLoop => cases h

end

theorem node (fuel : Nat) {n : Node} (h : n.isFlat = true) : Level (Eval.node fuel n) := by
  induction fuel generalizing n with
  | zero => exact still .throw_exhausted
  | succ fuel ih =>
    refine (still .checkInterrupt).bind fun _ => (still .trace).bind fun _ => ?_
    exact form (fun _ => ih) h

end Level
end Eval
end Scripting
