import Mathlib.Tactic.Common
import Scripting.Proofs.Eval.Landing

/-! Builtins, places and operators, taken apart into steps. -/
namespace Scripting.Eval

namespace Lands

variable {s : State} {T : List ObjectId} {o : ObjectId} {span : Option Span}

/-! ### Builtins -/

section Builtins

variable {args : List ObjectId}

theorem writeAll {n : Nat} : Lands (Eval.writeAll args n) s T (Keeps T) := by
  induction args generalizing n s T with
  | nil => exact pure rfl
  | cons o os ih =>
    refine textOf.andThen fun text s' => ?_
    refine write.andThen fun _ s' => ?_
    exact ih

theorem textsOf : Lands (Eval.textsOf args) s T (Keeps T) := by
  induction args generalizing s T with
  | nil => exact pure rfl
  | cons o os ih =>
    refine textOf.andThen fun text s' => ?_
    refine ih.bind ?_
    rintro texts s' U - rfl
    exact pure rfl

theorem render : Lands (Eval.render args span) s T (Keeps T) := by
  cases args with
  | nil => exact raise
  | cons template rest =>
    refine look ?_
    split
    · refine textsOf.andThen fun texts s' => ?_
      split
      · exact pure rfl
      · exact raise
    · exact raise

theorem append : Lands (Eval.append args span) s T (Gives T) := by
  unfold Eval.append
  split
  · next target item items =>
    refine copyAll.bind ?_
    rintro copies s' U - rfl
    refine look ?_
    split
    · next es hes =>
      refine (step (U := T) (fun _ => .extend hes) rfl :
          Lands (Eval.setValue _ _) s' _ (Keeps T)).bind ?_
      rintro - s'' U - rfl
      exact copy
    · exact raise
  · exact raise

theorem rangeVector : Lands (Eval.rangeVector o span) s T (Gives T) := by
  refine look ?_
  split
  · split
    · refine build (Tree.everyOf_iff.mpr fun t ht => ?_)
      obtain ⟨i, -, rfl⟩ := List.mem_map.mp ht
      exact .inl trivial
    · exact raise
  · exact raise

theorem mapM {α : Type} {f : ObjectId → Eval α} {G : α → Prop}
    (hf : ∀ o, Lands (f o) s T (Reads s T G)) :
    Lands (args.mapM f) s T (Reads s T fun as => ∀ a ∈ as, G a) := by
  induction args with
  | nil => exact pure ⟨rfl, rfl, by simp⟩
  | cons o os ih =>
    rw [List.mapM_cons]
    refine (hf o).bind ?_
    rintro a s' U - ⟨rfl, rfl, ha⟩
    refine ih.bind ?_
    rintro as s' U - ⟨rfl, rfl, has⟩
    exact pure ⟨rfl, rfl, List.forall_mem_cons.mpr ⟨ha, has⟩⟩

/-- A builtin gives a new object, unless it answers with its argument. -/
theorem applyPrimitive {p : Primitive} (hargs : ∀ o ∈ args, s.heap.store.Has o)
    (hback : p = .identity → s.HandsBack) :
    Lands (Eval.applyPrimitive p args span) s T (Gives T) := by
  cases p with
  | print =>
    refine writeAll.andThen fun n s' => ?_
    exact allocData trivial
  | println =>
    refine writeAll.andThen fun n s' => ?_
    refine write.andThen fun _ s' => ?_
    exact allocData trivial
  | printf =>
    refine render.andThen fun text s' => ?_
    refine write.andThen fun _ s' => ?_
    exact allocData trivial
  | format =>
    refine render.andThen fun text s' => ?_
    exact allocData trivial
  | abs | double =>
    cases args with
    | nil => exact raise
    | cons o os =>
      refine look ?_
      split
      · refine (ofExcept (G := fun _ => True) fun _ _ => trivial).bind ?_
        rintro n s' U - ⟨rfl, rfl, -⟩
        exact allocData trivial
      · exact raise
  | append => exact append
  | vector =>
    cases args with
    | nil => exact raise
    | cons o os => exact rangeVector
  | identity =>
    cases args with
    | nil => exact allocNone
    | cons o os => exact before (.handBack (hback rfl) (hargs o (by simp))) (pure rfl)
  | count => exact allocData trivial
  | kinds =>
    refine (mapM (G := fun _ => True) fun o => look (pure ⟨rfl, rfl, trivial⟩)).bind ?_
    rintro names s' U - ⟨rfl, rfl, -⟩
    exact allocData trivial
  | bindings =>
    refine (mapM (G := Tree.Every s.Offers) fun o => read ?_).bind ?_
    · exact Or.inl trivial
    · rintro ts s' U - ⟨rfl, rfl, hts⟩
      exact build (Tree.everyOf_iff.mpr hts)
  | length =>
    cases args with
    | nil => exact allocNone
    | cons o os =>
      refine look ?_
      split
      · exact allocData trivial
      · exact allocNone
  | interrupt =>
    refine (note (g := fun s => { s with isInterrupted := true })
      ⟨s.sink, s.log, true, rfl⟩).andThen fun _ s' => ?_
    exact allocNone
  | fail kind hint => exact raise

theorem callBuiltin {b : Builtin} (hargs : ∀ o ∈ args, s.heap.store.Has o)
    (hback : b.primitive = .identity → s.HandsBack) :
    Lands (Eval.callBuiltin b args span) s T (Gives T) := by
  refine look ((ofExcept (G := fun _ => True) fun _ _ => trivial).bind ?_)
  rintro - s' U - ⟨rfl, rfl, -⟩
  exact applyPrimitive hargs hback

end Builtins

/-! ### Places -/

theorem variablePlace {ident : Ident} : Lands (Eval.variablePlace span ident) s T (Keeps T) := by
  refine look ?_
  split
  · exact pure rfl
  · exact raise

theorem subscriptIndex {vector index : ObjectId} {target : Option Span} :
    Lands (Eval.subscriptIndex vector index target span) s T (Keeps T) := by
  refine look ?_
  split
  · refine look ?_
    split
    · split
      · exact pure rfl
      · exact raise
    · exact raise
  · exact raise

theorem load {p : Place} : Lands (Eval.load p span) s T (Refers T) := by
  refine ofSound fun hsound => ?_
  rcases p with slot | ⟨vector, index⟩
  · refine look ?_
    split
    · next o ho =>
      refine pure ⟨rfl, hsound.held o ?_⟩
      have := Environment.mem_slots_iff.mpr ⟨slot, ho⟩
      simp [Config.holdings, Config.env, this]
    · exact raise
  · refine look ?_
    split
    · next es hes =>
      split
      · next o ho =>
        refine pure ⟨rfl, hsound.held o ?_⟩
        have : o ∈ s.heap.store.contained := Store.mem_contained_iff.mpr
          ⟨vector, Store.has_of_value_vector hes, by rw [hes]; exact Array.mem_of_getElem? ho⟩
        simp [Config.holdings, Config.store, this]
      · exact raise
    · exact raise

/-- What is stored passes from the evaluation to the place. -/
theorem store {p : Place} : Lands (Eval.store p o span) s (o :: T) (Keeps T) := by
  rcases p with slot | ⟨vector, index⟩
  · refine look ?_
    split
    · exact assign
    · exact raise
  · refine look ?_
    split
    · next es hes =>
      split
      · next hi => exact step (fun _ => .replace hes hi) rfl
      · exact raise
    · exact raise

theorem name {ident : Ident} : Lands (Eval.name span ident) s T (Gives T) := by
  refine look ?_
  split
  · next b hb => exact allocAtom (.inr (.inl ⟨b, List.mem_of_find?_eq_some hb, rfl⟩))
  · refine look ?_
    split
    · refine look ((ofExcept (G := fun _ => True) fun _ _ => trivial).bind ?_)
      rintro o s' U - ⟨rfl, rfl, -⟩
      exact copy
    · refine look ?_
      split
      · exact functionObject
      · exact raise

section Operands

variable {ev : Node → Eval ObjectId} (hev : Evaluates ev)

include hev

theorem elementPlace {vector : ObjectId} {target index : Node} :
    Lands (Eval.elementPlace ev vector target index) s T (Keeps T) := by
  refine (hev index s T).andHold fun i s' => ?_
  refine drop (subscriptIndex.andThen fun k s' => ?_)
  exact pure rfl

theorem reference {n : Node} : Lands (Eval.reference ev n) s T (Refers T) := by
  induction n using Eval.reference.induct generalizing s T with
  | case1 span ident =>
    simp only [Eval.reference]
    refine look ?_
    split
    · refine variablePlace.andThen fun p s' => ?_
      exact load
    · exact owned (hev _ s T)
  | case2 span target index ih =>
    simp only [Eval.reference]
    refine ih.bind ?_
    rintro vector s' U - ⟨rfl, -⟩
    refine (elementPlace hev).andThen fun p s' => ?_
    exact load
  | case3 n hvar hsub =>
    simp only [Eval.reference]
    exact owned (hev n s T)

theorem place {n : Node} : Lands (Eval.place ev n) s T (Keeps T) := by
  unfold Eval.place
  split
  · exact variablePlace
  · refine (reference hev).bind ?_
    rintro vector s' U - ⟨rfl, -⟩
    exact elementPlace hev
  · exact raise

theorem subscript {target index : Node} :
    Lands (Eval.subscript ev span target index) s T (Gives T) := by
  refine (reference hev).bind ?_
  rintro vector s' U - ⟨rfl, -⟩
  refine (elementPlace hev).andThen fun p s' => ?_
  refine load.bind ?_
  rintro o s' U - ⟨rfl, -⟩
  exact copy

theorem assignment {target value : Node} :
    Lands (Eval.assign ev span target value) s T (Gives T) := by
  refine (place hev).andThen fun p s' => ?_
  refine (hev value _ _).andHold fun o s' => ?_
  refine copy.andHold fun c s' => ?_
  refine store.andThen fun _ s' => ?_
  exact pure rfl

theorem letVar {ident : Ident} {init : Option Node} :
    Lands (Eval.letVar ev ident init) s T (Gives T) := by
  cases init with
  | some n =>
    refine (hev n _ _).andHold fun o s' => ?_
    refine define.andThen fun _ s' => ?_
    exact allocNone
  | none =>
    refine declare.andThen fun slot s' => ?_
    exact allocNone

/-! ### Operators -/

theorem operands {ns : List Node} :
    Lands (Eval.operands ev ns) s T (fun os _ U => U = os ++ T) := by
  induction ns generalizing s T with
  | nil => exact pure rfl
  | cons n ns ih =>
    refine (hev n s T).andHold fun o s' => ?_
    refine ih.bind ?_
    rintro os s' U - rfl
    exact perm List.perm_middle (pure rfl)

theorem references {ns : List Node} :
    Lands (Eval.operands (Eval.reference ev) ns) s T
      (fun os s' U => U = T ∧ ∀ o ∈ os, s'.heap.store.Has o) := by
  induction ns generalizing s T with
  | nil => exact pure ⟨rfl, by simp⟩
  | cons n ns ih =>
    refine (reference hev).bind ?_
    rintro o s' U - ⟨rfl, ho⟩
    refine ih.bind ?_
    rintro os s' U hsteps ⟨rfl, hos⟩
    exact pure ⟨rfl, List.forall_mem_cons.mpr ⟨hsteps.has ho, hos⟩⟩

omit hev in
theorem compute {op : BinaryOp} {l r : Value} :
    Lands (Eval.compute op l r span) s T
      (fun v s' U => U = v.elements.toList ++ T ∧ ∀ a, v = .atom a → s'.Offers a) := by
  unfold Eval.compute
  split
  · refine (ofExcept (G := Atom.IsData) fun a ha => Atom.isData_compute ha).bind ?_
    rintro a s' U - ⟨rfl, rfl, ha⟩
    refine pure ⟨rfl, fun b hb => ?_⟩
    cases hb
    exact .inl ha
  · split
    · refine copyAll.bind ?_
      rintro es s' U - rfl
      exact pure ⟨rfl, nofun⟩
    · exact raise
  · split <;> exact raise

theorem binary {op : BinaryOp} {lhs rhs : Node} :
    Lands (Eval.binary ev span op lhs rhs) s T (Gives T) := by
  refine (hev lhs s T).andHold fun l s' => ?_
  refine (hev rhs s' _).andHold fun r s' => ?_
  refine drop (drop (look (look (compute.bind ?_))))
  rintro v s' U - ⟨rfl, hv⟩
  exact alloc hv

omit hev in
theorem compareObjects {op : CompareOp} {l r : ObjectId} :
    Lands (Eval.compareObjects op l r span) s T (Keeps T) := by
  refine look ((ofExcept (G := fun _ => True) fun _ _ => trivial).after ?_)
  rintro b s' U ⟨rfl, rfl, -⟩
  exact pure rfl

theorem compareLinks {l : ObjectId} {links : List (CompareOp × Node)} :
    Lands (Eval.compareLinks ev span l links) s T (Keeps T) := by
  induction links generalizing l s T with
  | nil => exact pure rfl
  | cons x links ih =>
    refine (hev x.2 s T).andHold fun r s' => ?_
    refine drop (compareObjects.andThen fun b s' => ?_)
    split
    · exact ih
    · exact pure rfl

theorem comparison {n : Node} : Lands (Eval.comparison ev span n) s T (Gives T) := by
  refine (hev n.chain.1 s T).andHold fun l s' => ?_
  refine drop ((compareLinks hev).andThen fun b s' => ?_)
  exact allocData trivial

omit hev in
theorem expectInt : Lands (Eval.expectInt o span) s T (Keeps T) := by
  refine look ?_
  split
  · exact pure rfl
  · exact raise

theorem range {start stop : Node} : Lands (Eval.range ev start stop) s T (Gives T) := by
  refine (hev start s T).andHold fun a s' => ?_
  refine (hev stop s' _).andHold fun b s' => ?_
  refine drop (drop (expectInt.andThen fun first s' => ?_))
  refine expectInt.andThen fun last s' => ?_
  exact allocData trivial

end Operands

end Lands
end Scripting.Eval
