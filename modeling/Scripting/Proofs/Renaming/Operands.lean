import Mathlib.Tactic.Common
import Scripting.Proofs.Renaming.Copies

/-! Builtins, places and operators do not depend on the numbers of objects. -/
namespace Scripting.Eval

variable {α β γ δ : Type} {D : Decl → Prop} {R S : Pairing} {s t : State} {o p : ObjectId}
  {os ps : List ObjectId} {span : Option Span}

namespace Parallel

/-! ### Builtins -/

theorem writeAll {n : Nat} (hops : List.Forall₂ R os ps) :
    Parallel D R (Eval.writeAll os n) (Eval.writeAll ps n) Same := by
  induction os generalizing ps R n with
  | nil =>
    cases hops
    exact pure rfl
  | cons o os ih =>
    cases hops with
    | cons hop hops =>
      refine (textOf hop).andThen fun R₁ text hle₁ => ?_
      refine write.andThen fun R₂ _ hle₂ => ?_
      exact ih ((hops.imp hle₁).imp hle₂)

theorem textsOf (hops : List.Forall₂ R os ps) :
    Parallel D R (Eval.textsOf os) (Eval.textsOf ps) Same := by
  induction os generalizing ps R with
  | nil =>
    cases hops
    exact pure rfl
  | cons o os ih =>
    cases hops with
    | cons hop hops =>
      refine (textOf hop).andThen fun R₁ text hle₁ => ?_
      refine (ih (hops.imp hle₁)).andThen fun R₂ texts _ => ?_
      exact pure rfl

theorem render (hops : List.Forall₂ R os ps) :
    Parallel D R (Eval.render os span) (Eval.render ps span) Same := by
  cases hops with
  | nil => exact raise
  | cons htemplate hrest =>
    refine (valueOf htemplate).bind fun R₁ v w hle hvw => ?_
    cases hvw with
    | tuple | vector => exact raise
    | @atom a ha =>
      cases a with
      | string text =>
        refine (textsOf (List.forall₂_take _ (hrest.imp hle))).andThen fun R₂ texts _ => ?_
        split
        · exact pure rfl
        · exact raise
      | _ => exact raise

/-- The elements that a vector gets are copies, so it is not inside them. -/
theorem append (hops : List.Forall₂ R os ps) :
    Parallel D R (Eval.append os span) (Eval.append ps span) Paired := by
  cases hops with
  | nil => exact raise
  | cons htarget hrest =>
    cases hrest with
    | nil => exact raise
    | cons hitem hitems =>
      intro s t hst
      obtain ⟨es, fs, S, s', t', hs, ht, hgrow, hprivate⟩ :=
        copyAll_private hst (.cons hitem hitems)
      simp only [Eval.append]
      rw [bind_ok hs, bind_ok ht]
      refine .after hgrow ?_
      rw [bind_ok valueOf_eq, bind_ok valueOf_eq]
      have hvalue := hprivate.all.store.value (hgrow.le _ _ htarget)
      generalize hsv : s'.heap.store.value _ = v at hvalue ⊢
      generalize htv : t'.heap.store.value _ = w at hvalue ⊢
      cases hvalue with
      | atom | tuple => exact raise _ _ hprivate.all
      | vector hold =>
        refine (hprivate.setVector htarget hsv htv ?_ ?_ ?_).bind
          fun S' _ _ s'' t'' hgrow' hst' _ => ?_
        · simpa using List.rel_append hold hprivate.pairs
        · simp
        · simp
        · exact copy (hgrow'.le _ _ (hgrow.le _ _ htarget)) _ _ hst'

theorem rangeVector (hop : R o p) :
    Parallel D R (Eval.rangeVector o span) (Eval.rangeVector p span) Paired := by
  refine (valueOf hop).bind fun R₁ v w hle hvw => ?_
  cases hvw with
  | tuple | vector => exact raise
  | @atom a ha =>
    cases a with
    | range r =>
      dsimp only
      split
      · refine build (Tree.everyOf_iff.mpr fun x hx => ?_)
        obtain ⟨i, -, rfl⟩ := List.mem_map.mp hx
        trivial
      · exact raise
    | _ => exact raise

theorem kindsOf (hops : List.Forall₂ R os ps) :
    Parallel D R (os.mapM fun o => return (← Eval.valueOf o).kind.name)
      (ps.mapM fun o => return (← Eval.valueOf o).kind.name) Same := by
  induction os generalizing ps R with
  | nil =>
    cases hops
    exact pure rfl
  | cons o os ih =>
    cases hops with
    | cons hop hops =>
      rw [List.mapM_cons, List.mapM_cons]
      have hname : Parallel D R (do return (← Eval.valueOf o).kind.name)
          (do return (← Eval.valueOf _).kind.name) Same :=
        (valueOf hop).bind fun R₁ v w _ hvw => pure (by rw [Same, hvw.kind])
      refine hname.andThen fun R₁ name hle => ?_
      refine (ih (hops.imp hle)).andThen fun R₂ names _ => ?_
      exact pure rfl

/-- Builtins see what their arguments mean. -/
theorem applyPrimitive {b : Primitive} (hb : b ≠ .bindings) (hops : List.Forall₂ R os ps) :
    Parallel D R (Eval.applyPrimitive b os span) (Eval.applyPrimitive b ps span) Paired := by
  have hint : ∀ {R : Pairing} {n : Int64},
      Parallel D R (Eval.allocAtom (.int n)) (Eval.allocAtom (.int n)) Paired :=
    allocAtom trivial
  have hexact : ∀ {R : Pairing} {r : Except Error Int64}, Parallel D R
      (do Eval.allocAtom (.int (← Eval.ofExcept r)))
        (do Eval.allocAtom (.int (← Eval.ofExcept r))) Paired :=
    (ofExcept (P := Same) fun _ _ => rfl).andThen fun R₁ n _ => hint
  cases b with
  | print =>
    refine (writeAll hops).andThen fun R₁ n _ => ?_
    exact hint
  | println =>
    refine (writeAll hops).andThen fun R₁ n _ => ?_
    refine write.andThen fun R₂ _ _ => ?_
    exact hint
  | printf =>
    refine (render hops).andThen fun R₁ text _ => ?_
    refine write.andThen fun R₂ _ _ => ?_
    exact hint
  | format =>
    refine (render hops).andThen fun R₁ text _ => ?_
    exact allocAtom trivial
  | abs | double =>
    cases hops with
    | nil => exact raise
    | cons hop _ =>
      refine (valueOf hop).bind fun R₁ v w _ hvw => ?_
      rw [hvw.int?]
      split
      · exact hexact
      · exact raise
  | append => exact append hops
  | vector =>
    cases hops with
    | nil => exact raise
    | cons hop _ => exact rangeVector hop
  | identity =>
    cases hops with
    | nil => exact allocNone
    | cons hop _ => exact pure hop
  | count =>
    simp only [Eval.applyPrimitive, hops.length_eq]
    exact hint
  | kinds =>
    refine (kindsOf hops).andThen fun R₁ names _ => ?_
    exact allocAtom trivial
  | bindings => exact absurd rfl hb
  | length =>
    cases hops with
    | nil => exact allocNone
    | cons hop _ =>
      refine (valueOf hop).bind fun R₁ v w _ hvw => ?_
      rw [hvw.length?]
      split
      · exact hint
      · exact allocNone
  | interrupt =>
    refine (note (m := fun s => { s with isInterrupted := true }) (fun _ => rfl)
      fun s t hst => ?_).andThen fun R₁ _ _ => ?_
    · exact { hst with isInterrupted := rfl }
    · exact allocNone
  | fail kind hint => exact raise

theorem callBuiltin {b : Builtin} (hb : b.primitive ≠ .bindings) (hops : List.Forall₂ R os ps) :
    Parallel D R (Eval.callBuiltin b os span) (Eval.callBuiltin b ps span) Paired := by
  refine (read (P := Same) fun s t hst => ?_).andThen fun R₁ kinds hle => ?_
  · rw [Same, ← List.forall₂_eq_eq_eq, List.forall₂_map_left_iff, List.forall₂_map_right_iff]
    exact hops.imp fun o p hop => (hst.store.value hop).kind.symm
  · refine (ofExcept (P := Same) fun _ _ => rfl).andThen fun R₂ _ hle' => ?_
    exact applyPrimitive hb ((hops.imp hle).imp hle')

end Parallel

/-! ### Places -/

/-- Places that stand for each other: one variable, or one position of two vectors. -/
inductive SamePlace (R : Pairing) : Place → Place → Prop
  | named (slot : Slot) : SamePlace R (.variable slot) (.variable slot)
  | element {v w : ObjectId} (hvw : R v w) (index : Nat) :
      SamePlace R (.element v index) (.element w index)

theorem SamePlace.mono {a b : Place} (h : SamePlace R a b) (hle : R ≤ S) : SamePlace S a b := by
  cases h with
  | named slot => exact .named slot
  | element hvw index => exact .element (hle _ _ hvw) index

/-- A private object may be put at any place that was known. -/
theorem Private.store {a b : Place} {c d : ObjectId} (h : Private D R S s t [c] [d])
    (hab : SamePlace R a b) :
    Ended D S s t Same (Eval.store a c span s) (Eval.store b d span t) := by
  have hcd : S c d := (List.forall₂_cons.mp h.pairs).1
  cases hab with
  | named slot =>
    have hfound : Parallel D S (Eval.read fun s => (s.env.variableAt? slot).isSome)
        (Eval.read fun s => (s.env.variableAt? slot).isSome) Same := by
      refine .read fun s t hst => ?_
      rcases rel_cases (hst.env.variableAt? slot) with ⟨hx, hy⟩ | ⟨x, y, hx, hy, -⟩ <;>
        simp only [Same, hx, hy, Option.isSome]
    refine hfound.andThen (fun S' b hle => ?_) s t h.all
    split
    · exact .assign (hle _ _ hcd)
    · exact .raise
  | @element v w hvw index =>
    simp only [Eval.store]
    rw [bind_ok valueOf_eq, bind_ok valueOf_eq]
    have hvalue := h.all.store.value (h.le _ _ hvw)
    generalize hsv : s.heap.store.value v = x at hvalue ⊢
    generalize htv : t.heap.store.value w = y at hvalue ⊢
    cases hvalue with
    | atom | tuple => exact Parallel.raise _ _ h.all
    | @vector es fs hold =>
      have hsize : fs.size = es.size := by simpa using hold.length_eq.symm
      simp only [hsize]
      split
      · refine h.setVector hvw hsv htv ?_ ?_ ?_
        · exact Pointwise.set hold index hcd
        · intro e he
          exact (Array.mem_or_eq_of_mem_setIfInBounds he).imp_right fun heq => by simp [heq]
        · intro f hf
          exact (Array.mem_or_eq_of_mem_setIfInBounds hf).imp_right fun heq => by simp [heq]
      · exact Parallel.raise _ _ h.all

namespace Parallel

theorem load {a b : Place} (hab : SamePlace R a b) :
    Parallel D R (Eval.load a span) (Eval.load b span) Paired := by
  cases hab with
  | named slot =>
    refine (read (P := fun R => Option.Rel R) fun s t hst => hst.env.bound slot).bind
      fun R₁ x y _ hxy => ?_
    cases hxy with
    | none => exact raise
    | some hop => exact pure hop
  | element hvw index =>
    refine (valueOf hvw).bind fun R₁ x y _ hxy => ?_
    cases hxy with
    | atom | tuple => exact raise
    | @vector es fs hall =>
      have hat : Option.Rel R₁ es[index]? fs[index]? := Pointwise.getElem? hall index
      rcases rel_cases hat with ⟨hx, hy⟩ | ⟨x, y, hx, hy, hxy⟩
      · simp only [hx, hy]
        exact raise
      · simp only [hx, hy]
        exact pure hxy

theorem variablePlace {ident : Ident} :
    Parallel D R (Eval.variablePlace span ident) (Eval.variablePlace span ident) SamePlace := by
  refine (read (P := Same) fun s t hst => hst.env.lookup.symm).andThen fun R₁ slot? _ => ?_
  split
  · exact pure (.named _)
  · exact raise

theorem subscriptIndex {v w i j : ObjectId} {target : Option Span} (hvw : R v w) (hij : R i j) :
    Parallel D R (Eval.subscriptIndex v i target span)
      (Eval.subscriptIndex w j target span) Same := by
  refine (valueOf hvw).bind fun R₁ x y hle hxy => ?_
  cases hxy with
  | atom | tuple => exact raise
  | @vector es fs hall =>
    have hsize : fs.size = es.size := by simpa using hall.length_eq.symm
    refine (valueOf (hle _ _ hij)).bind fun R₂ x y _ hxy => ?_
    simp only [hxy.int?, hsize]
    split
    · split
      · exact pure rfl
      · exact raise
    · exact raise

end Parallel

/-! ### Operands -/

theorem Within.pair {n a b : Node} (h : Within D n) (hn : n.decls = a.decls ++ b.decls) :
    Within D a ∧ Within D b := by
  unfold Within at h ⊢
  rw [hn] at h
  exact ⟨fun d hd => h d (List.mem_append_left _ hd), fun d hd => h d (List.mem_append_right _ hd)⟩

theorem Within.chain {n : Node} (h : Within D n) :
    Within D n.chain.1 ∧ ∀ link ∈ n.chain.2, Within D link.2 :=
  Node.chain_parts (fun h => h.pair rfl) h

namespace Parallel

variable {ev : Node → Eval ObjectId} (hev : Mirrored D ev)

include hev

theorem operands {nodes : List Node} (hnodes : ∀ n ∈ nodes, Within D n) :
    Parallel D R (Eval.operands ev nodes) (Eval.operands ev nodes) (fun R => List.Forall₂ R) := by
  induction nodes generalizing R with
  | nil => exact pure .nil
  | cons n nodes ih =>
    refine (hev R n (hnodes n (by simp))).bind fun R₁ o p _ hop => ?_
    refine (ih fun m hm => hnodes m (by simp [hm])).bind fun R₂ os ps hle hops => ?_
    exact pure (.cons (hle _ _ hop) hops)

theorem elementPlace {v w : ObjectId} {target index : Node}
    (hindex : Within D index) (hvw : R v w) :
    Parallel D R (Eval.elementPlace ev v target index)
      (Eval.elementPlace ev w target index) SamePlace := by
  refine (hev R index hindex).bind fun R₁ i j hle hij => ?_
  refine (subscriptIndex (hle _ _ hvw) hij).bind fun R₂ m n hle' hmn => ?_
  cases hmn
  exact pure (.element (hle' _ _ (hle _ _ hvw)) m)

theorem reference {n : Node} (hn : Within D n) :
    Parallel D R (Eval.reference ev n) (Eval.reference ev n) Paired := by
  induction n using Eval.reference.induct generalizing R with
  | case1 span ident =>
    refine (read (P := Same) fun s t hst => by rw [Same, hst.builtins, hst.env.contains]).andThen
      fun R₁ b _ => ?_
    split
    · exact variablePlace.bind fun R₂ a b _ hab => load hab
    · exact hev R₁ _ hn
  | case2 span target index ih =>
    obtain ⟨htarget, hindex⟩ := hn.pair rfl
    refine (ih htarget).bind fun R₁ v w _ hvw => ?_
    exact (elementPlace hev hindex hvw).bind fun R₂ a b _ hab => load hab
  | case3 n h₁ h₂ =>
    rw [Eval.reference]
    · exact hev R n hn
    · exact h₁
    · exact h₂

theorem references : Mirrored D (Eval.reference ev) := fun _ _ hn => reference hev hn

theorem place {n : Node} (hn : Within D n) :
    Parallel D R (Eval.place ev n) (Eval.place ev n) SamePlace := by
  unfold Eval.place
  split
  · exact variablePlace
  · obtain ⟨htarget, hindex⟩ := hn.pair rfl
    exact (reference hev htarget).bind fun R₁ v w _ hvw => elementPlace hev hindex hvw
  · exact raise

theorem subscript {target index : Node} (htarget : Within D target) (hindex : Within D index) :
    Parallel D R (Eval.subscript ev span target index)
      (Eval.subscript ev span target index) Paired := by
  refine (reference hev htarget).bind fun R₁ v w _ hvw => ?_
  refine (elementPlace hev hindex hvw).bind fun R₂ a b _ hab => ?_
  exact (load hab).bind fun R₃ o p _ hop => copy hop

/-- What is stored is a copy, so no vector gets inside itself. -/
theorem assignTo {target value : Node} (htarget : Within D target) (hvalue : Within D value) :
    Parallel D R (Eval.assign ev span target value) (Eval.assign ev span target value) Paired := by
  refine (place hev htarget).bind fun R₁ a b _ hab => ?_
  refine (hev R₁ value hvalue).bind fun R₂ o p hle hop => ?_
  intro s t hst
  obtain ⟨c, d, S, s', t', hs, ht, hgrow, hprivate⟩ := copy_private hst hop
  rw [bind_ok hs, bind_ok ht]
  refine .after hgrow ((hprivate.store (hab.mono hle)).bind fun R₃ _ _ s'' t'' hgrow' hst' _ => ?_)
  exact pure (hgrow'.le _ _ (hgrow.le _ _ hop)) s'' t'' hst'

theorem letVar {ident : Ident} {init : Option Node} (hinit : ∀ n ∈ init, Within D n) :
    Parallel D R (Eval.letVar ev ident init) (Eval.letVar ev ident init) Paired := by
  cases init with
  | some n =>
    refine (hev R n (hinit n rfl)).bind fun R₁ o p _ hop => ?_
    exact (define hop).andThen fun R₂ _ _ => allocNone
  | none => exact declare.andThen fun R₁ _ _ => allocNone

omit hev

theorem name {ident : Ident} :
    Parallel D R (Eval.name span ident) (Eval.name span ident) Paired := by
  have hbuiltin : Parallel D R (Eval.read (·.builtins.find? ident.name))
      (Eval.read (·.builtins.find? ident.name))
      (fun _ a b => a = b ∧ ∀ x ∈ a, x.primitive ≠ .bindings) :=
    read fun s t hst =>
      ⟨by rw [hst.builtins], fun x hx => hst.plain x (List.mem_of_find?_eq_some hx)⟩
  refine hbuiltin.bind fun R₁ a b _ ⟨hab, hplain⟩ => ?_
  cases hab
  split
  · exact allocAtom (hplain _ rfl)
  · refine (read (P := Same) fun s t hst => hst.env.contains.symm).andThen fun R₂ isVariable _ => ?_
    split
    · have hfound : Parallel D R₂ (Eval.read (·.env.get ident.name (ident.span <|> span)))
          (Eval.read (·.env.get ident.name (ident.span <|> span)))
          (fun R a b => (∃ x, a = .error x ∧ b = .error x) ∨ ∃ o p, a = .ok o ∧
            b = .ok p ∧ R o p) :=
        read fun s t hst => hst.env.get
      refine hfound.bind fun R₃ a b _ hab => ?_
      rcases hab with ⟨x, hx, hy⟩ | ⟨o, p, hx, hy, hop⟩
      · rw [hx, hy]
        exact raise
      · rw [hx, hy]
        exact copy hop
    · have hfunction : Parallel D R₂ (Eval.read (·.env.findFunction ident.name))
          (Eval.read (·.env.findFunction ident.name)) (fun _ a b => a = b ∧ ∀ d ∈ a, D d) :=
        read fun s t hst =>
          ⟨hst.env.findFunction.symm, fun d hd => hst.env.known_of_findFunction hd⟩
      refine hfunction.bind fun R₃ a b _ ⟨hab, hknown⟩ => ?_
      cases hab
      split
      · exact functionObject (hknown _ rfl)
      · exact raise

/-! ### Operators -/

theorem compute {op : BinaryOp} {v v' w w' : Value} (hv : v.Renamed D R v')
    (hw : w.Renamed D R w') :
    Parallel D R (Eval.compute op v w span) (Eval.compute op v' w' span)
      (fun R v w => v.Renamed D R w) := by
  have hother : ∀ {v v' w w' : Value}, v.Renamed D R v' → w.Renamed D R w' →
      Parallel D R
        (if v.kind = w.kind then Eval.raise (op.unsupported v.kind span)
          else Eval.raise (op.undefinedBetween v.kind w.kind span) : Eval Value)
        (if v'.kind = w'.kind then Eval.raise (op.unsupported v'.kind span)
          else Eval.raise (op.undefinedBetween v'.kind w'.kind span) : Eval Value)
        (fun R v w => v.Renamed D R w) := by
    intro v v' w w' hv hw
    rw [hv.kind, hw.kind]
    split <;> exact raise
  cases hv with
  | @atom a ha =>
    cases hw with
    | @atom b hb =>
      refine (ofExcept (P := fun _ x y => x = y ∧ x.IsData)
        fun c hc => ⟨rfl, Atom.isData_compute hc⟩).bind fun R₁ c c' _ ⟨heq, hc⟩ => ?_
      cases heq
      exact pure (.atom hc.allowed)
    | tuple hbs => exact hother (.atom ha) (.tuple hbs)
    | vector hbs => exact hother (.atom ha) (.vector hbs)
  | tuple has => exact hother (.tuple has) hw
  | vector has =>
    cases hw with
    | atom hb => exact hother (.vector has) (.atom hb)
    | tuple hbs => exact hother (.vector has) (.tuple hbs)
    | vector hbs =>
      simp only [Eval.compute]
      split
      · refine (copyAll ?_).bind fun R₁ es fs _ hall => pure (.vector hall)
        simpa using List.rel_append has hbs
      · exact raise

theorem apply_renamed {op : CompareOp} {v v' w w' : Value} {same : Unit → Bool}
    (hv : v.Renamed D R v') (hw : w.Renamed D R w') :
    op.apply v w same span = op.apply v' w' same span := by
  cases hv <;> cases hw <;> rfl

theorem compareObjects {op : CompareOp} {l l' r r' : ObjectId} (hl : R l l') (hr : R r r') :
    Parallel D R (Eval.compareObjects op l r span) (Eval.compareObjects op l' r' span) Same := by
  refine (read (P := Same) fun s t hst => ?_).andThen fun R₁ result _ => ?_
  · have hlv := hst.store.value hl
    have hrv := hst.store.value hr
    simp only [hst.store.equalValues hlv hrv]
    exact apply_renamed hlv hrv
  · exact ofExcept fun _ _ => rfl

theorem expectInt (hop : R o p) :
    Parallel D R (Eval.expectInt o span) (Eval.expectInt p span) Same := by
  refine (valueOf hop).bind fun R₁ v w _ hvw => ?_
  rw [hvw.int?]
  split
  · exact pure rfl
  · exact raise

include hev

theorem binary {op : BinaryOp} {lhs rhs : Node} (hlhs : Within D lhs) (hrhs : Within D rhs) :
    Parallel D R (Eval.binary ev span op lhs rhs) (Eval.binary ev span op lhs rhs) Paired := by
  refine (hev R lhs hlhs).bind fun R₁ l l' _ hl => ?_
  refine (hev R₁ rhs hrhs).bind fun R₂ r r' hle hr => ?_
  refine (valueOf (hle _ _ hl)).bind fun R₃ v v' hle₃ hv => ?_
  refine (valueOf (hle₃ _ _ hr)).bind fun R₄ w w' hle₄ hw => ?_
  exact (compute (hv.mono hle₄) hw).bind fun R₅ x y _ hxy => alloc hxy

theorem compareLinks {links : List (CompareOp × Node)} {l l' : ObjectId}
    (hlinks : ∀ link ∈ links, Within D link.2) (hl : R l l') :
    Parallel D R (Eval.compareLinks ev span l links) (Eval.compareLinks ev span l' links) Same := by
  induction links generalizing R l l' with
  | nil => exact pure rfl
  | cons link links ih =>
    refine (hev R link.2 (hlinks link (by simp))).bind fun R₁ r r' hle hr => ?_
    refine (compareObjects (hle _ _ hl) hr).andThen fun R₂ b hle' => ?_
    split
    · exact ih (fun m hm => hlinks m (by simp [hm])) (hle' _ _ hr)
    · exact pure rfl

theorem comparison {n : Node} (hn : Within D n) :
    Parallel D R (Eval.comparison ev span n) (Eval.comparison ev span n) Paired := by
  obtain ⟨hfirst, hlinks⟩ := hn.chain
  refine (hev R _ hfirst).bind fun R₁ l l' _ hl => ?_
  exact (compareLinks hev hlinks hl).andThen fun R₂ b _ => allocAtom trivial

theorem range {start stop : Node} (hstart : Within D start) (hstop : Within D stop) :
    Parallel D R (Eval.range ev start stop) (Eval.range ev start stop) Paired := by
  refine (hev R start hstart).bind fun R₁ a a' _ ha => ?_
  refine (hev R₁ stop hstop).bind fun R₂ b b' hle hb => ?_
  refine (expectInt (hle _ _ ha)).andThen fun R₃ first hle₃ => ?_
  exact (expectInt (hle₃ _ _ hb)).andThen fun R₄ last _ => allocAtom trivial

end Parallel
end Scripting.Eval
