import Mathlib.Tactic.Common
import Scripting.Proofs.Structured.Primitives

/-! Forms whose parts are all operands match as soon as the evaluations of operands do. -/
namespace Scripting

namespace Position

@[simp] theorem operand_operand (p : Position) : p.operand.operand = p.operand := by
  obtain ⟨l, f⟩ := p
  cases l <;> cases f <;> rfl

@[simp] theorem operand_loopHead (p : Position) : p.loopHead.operand = p.loopHead := by
  obtain ⟨l, f⟩ := p
  cases f <;> rfl

end Position

namespace Known

variable {K : Known} {p : Position} {n a b : Node} {ns : List Node}

/-- A node stands where it may, and declares only what is known. -/
def Fits (K : Known) (p : Position) (n : Node) : Prop := n.fits p = true ∧ K.node n

theorem fitsAll_iff : Node.fitsAll p ns = true ↔ ∀ n ∈ ns, n.fits p = true := by
  induction ns with
  | nil => simp [Node.fitsAll]
  | cons n ns ih => simp [Node.fitsAll, ih]

theorem fits_of_all (h : Node.fitsAll p ns = true) (hd : ∀ d ∈ Node.declsAll ns, K.decl d) :
    ∀ n ∈ ns, K.Fits p n := by
  intro n hn
  refine ⟨fitsAll_iff.mp h n hn, fun d hd' => hd d ?_⟩
  rw [Node.declsAll_eq]
  exact List.mem_flatMap.mpr ⟨n, hn, hd'⟩

theorem fits_of_option {no : Option Node} (h : Node.fitsOption p no = true)
    (hd : ∀ d ∈ Node.declsOption no, K.decl d) : ∀ n ∈ no, K.Fits p n := by
  intro n hn
  cases hn
  exact ⟨h, hd⟩

theorem fits_pair (h : (a.fits p && b.fits p) = true) (hd : ∀ d ∈ a.decls ++ b.decls, K.decl d) :
    K.Fits p a ∧ K.Fits p b := by
  simp only [Bool.and_eq_true] at h
  exact ⟨⟨h.1, fun d hd' => hd d (by simp [hd'])⟩, ⟨h.2, fun d hd' => hd d (by simp [hd'])⟩⟩

theorem fits_subscript (hp : p.operand = p) {span : Option Span}
    (h : K.Fits p (.subscript span a b)) : K.Fits p a ∧ K.Fits p b :=
  fits_pair (by simpa [Node.fits, hp] using h.1) h.2

/-- The operands of a chain of comparisons. -/
theorem fits_chain (hp : p.operand = p) (h : K.Fits p n) :
    K.Fits p n.chain.1 ∧ ∀ link ∈ n.chain.2, K.Fits p link.2 :=
  Node.chain_parts (fun h => fits_pair (by simpa [Node.fits, hp] using h.1) h.2) h

end Known

namespace Structured.Matches

open Known

variable {K : Known} {B : Environment} {p : Position} {ev ev' : Node → Eval ObjectId}
  {span : Option Span} {o : ObjectId}

theorem load {place : Place} (hplace : K.place place) :
    Matches K B (Eval.load place span) (Eval.load place span) (Steady K.object B) := by
  rcases place with slot | ⟨vector, index⟩
  · refine (read (G := fun x => ∀ o, x = some o → K.object o) (fun s => ?_) ?_).andThen
      fun x hx => ?_
    · simp [State.unmarked]
    · intro s _ hs o ho
      obtain ⟨v, hv, ho⟩ := Option.bind_eq_some_iff.mp ho
      exact hs.variableAt hv ho
    · cases x with
      | some o => exact pure ⟨rfl, hx o rfl, rfl⟩
      | none => exact raise
  · refine (valueOf hplace).andThen fun v hv => ?_
    split
    · split
      · next hget => exact pure ⟨rfl, hv.1 _ (Array.mem_of_getElem? hget), rfl⟩
      · exact raise
    · exact raise

theorem store {place : Place} (hplace : K.place place) (ho : K.object o) :
    Matches K B (Eval.store place o span) (Eval.store place o span) (Steady (fun _ => True) B) := by
  rcases place with slot | ⟨vector, index⟩
  · refine (read (G := fun _ => True) (fun s => ?_) fun _ _ _ => trivial).andThen fun x _ => ?_
    · simp [State.unmarked]
    · split
      · exact assign ho
      · exact raise
  · refine (valueOf hplace).andThen fun v hv => ?_
    split
    · next es =>
      split
      · refine setValue ⟨fun e he => ?_, fun a ha => by cases ha⟩
        obtain he | rfl := Array.mem_or_eq_of_mem_setIfInBounds he
        · exact hv.1 e he
        · exact ho
      · exact raise
    · exact raise

theorem variablePlace {ident : Ident} :
    Matches K B (Eval.variablePlace span ident) (Eval.variablePlace span ident)
      (Steady K.place B) := by
  refine (read (G := fun _ => True) (fun s => ?_) fun _ _ _ => trivial).andThen fun x _ => ?_
  · simp [State.unmarked]
  · cases x with
    | some slot => exact pure ⟨rfl, trivial, rfl⟩
    | none => exact raise

theorem subscriptIndex {vector index : ObjectId} {target : Option Span} :
    Matches K B (Eval.subscriptIndex vector index target span)
      (Eval.subscriptIndex vector index target span) (Steady (fun _ => True) B) := by
  refine (read (G := fun _ => True) (fun _ => rfl) fun _ _ _ => trivial).andThen fun v _ => ?_
  split
  · refine (read (G := fun _ => True) (fun _ => rfl) fun _ _ _ => trivial).andThen fun i _ => ?_
    split
    · split
      · exact pure ⟨rfl, trivial, rfl⟩
      · exact raise
    · exact raise
  · exact raise

theorem name {ident : Ident} :
    Matches K B (Eval.name span ident) (Eval.name span ident) (Steady K.object B) := by
  refine (read (G := fun _ => True) (fun _ => rfl) fun _ _ _ => trivial).andThen fun b _ => ?_
  cases b with
  | some b => exact allocAtom nofun
  | none =>
    refine (read (G := fun _ => True) (fun s => ?_) fun _ _ _ => trivial).andThen fun c _ => ?_
    · simp [State.unmarked]
    split
    · refine (read (G := fun x => ∀ o, x = .ok o → K.object o) (fun s => ?_) ?_).andThen
        fun found hfound => ?_
      · simp [State.unmarked]
      · exact fun s _ hs o ho => hs.get ho
      · exact (ofExcept hfound).andThen fun o ho => copy ho
    · refine (read (G := fun x => ∀ d, x = some d → K.decl d) (fun s => ?_) ?_).andThen
        fun found hfound => ?_
      · simp [State.unmarked]
      · exact fun s _ hs d hd => hs.findFunction hd
      · cases found with
        | some d => exact functionObject (hfound d rfl)
        | none => exact raise

theorem compute {op : BinaryOp} {l r : Value} (hl : K.value l) (hr : K.value r) :
    Matches K B (Eval.compute op l r span) (Eval.compute op l r span) (Steady K.value B) := by
  unfold Eval.compute
  split
  · next a b =>
    refine (ofExcept fun c hc => ?_).andThen fun c hc => pure ⟨rfl, value_of_atom hc, rfl⟩
    intro d hd
    subst hd
    exact Atom.isData_compute hc
  · next es fs =>
    split
    · have hall : ∀ o ∈ (es ++ fs).toList, K.object o := by
        intro o ho
        obtain ho | ho := Array.mem_append.mp (Array.mem_toList_iff.mp ho)
        · exact hl.1 o ho
        · exact hr.1 o ho
      exact (copyAll hall).andThen fun copies hcopies => pure ⟨rfl, ⟨hcopies, nofun⟩, rfl⟩
    · exact raise
  · split <;> exact raise

theorem compareObjects {op : CompareOp} {l r : ObjectId} :
    Matches K B (Eval.compareObjects op l r span) (Eval.compareObjects op l r span)
      (Steady (fun _ => True) B) := by
  refine (read (G := fun _ => True) (fun _ => rfl) fun _ _ _ => trivial).andThen fun x _ => ?_
  exact ofExcept fun _ _ => trivial

theorem expectInt : Matches K B (Eval.expectInt o span) (Eval.expectInt o span)
    (Steady (fun _ => True) B) := by
  refine (read (G := fun _ => True) (fun _ => rfl) fun _ _ _ => trivial).andThen fun v _ => ?_
  split
  · exact pure ⟨rfl, trivial, rfl⟩
  · exact raise

/-- The running call is the same in both, but for its marks. -/
theorem readFrame :
    Matches K B (Eval.read (·.env.currentFrame?)) (Eval.read (·.env.currentFrame?))
      (fun f f' C => f.map Frame.unmarked = f'.map Frame.unmarked ∧ (∀ x ∈ f, K.decl x.decl) ∧
        f = B.currentFrame? ∧ C = B) := by
  intro s t hB hst hs
  subst hB
  have hframe := congrArg (·.env.currentFrame?) hst
  simp only [State.unmarked, Environment.currentFrame?_unmarked] at hframe
  exact ⟨⟨hframe, fun x hx => hs.frame x (Array.mem_of_back? hx), rfl, rfl⟩, hst, hs⟩

theorem selfFunction :
    Matches K B (Eval.selfFunction span) (Eval.selfFunction span) (Steady K.object B) := by
  refine readFrame.bind fun f f' C h => ?_
  obtain ⟨hsame, hknown, -, rfl⟩ := h
  cases f <;> cases f' <;> simp only [Option.map_some, Option.map_none, reduceCtorEq] at hsame
  · exact raise
  · next f f' =>
    have hf : f.unmarked = f'.unmarked := Option.some.inj hsame
    have hd : f'.decl = f.decl := by simpa [Frame.unmarked] using congrArg Frame.decl hf.symm
    simp only [hd]
    exact functionObject (hknown f rfl)

/-! ### Forms with operands -/

variable (hp : p.operand = p)
  (hev : ∀ n, K.Fits p n → Matches K B (ev n) (ev' n) (Steady K.object B))

include hev

theorem operands {nodes : List Node} (hn : ∀ n ∈ nodes, K.Fits p n) :
    Matches K B (Eval.operands ev nodes) (Eval.operands ev' nodes)
      (Steady (fun os => ∀ o ∈ os, K.object o) B) := by
  induction nodes with
  | nil => exact pure ⟨rfl, by simp, rfl⟩
  | cons n nodes ih =>
    refine (hev n (hn n (by simp))).andThen fun o ho => ?_
    refine (ih fun m hm => hn m (by simp [hm])).andThen fun os hos => ?_
    exact pure ⟨rfl, List.forall_mem_cons.mpr ⟨ho, hos⟩, rfl⟩

theorem operand? {node : Option Node} (hn : ∀ n ∈ node, K.Fits p n) :
    Matches K B (Eval.operand? ev node) (Eval.operand? ev' node)
      (Steady (fun x => ∀ o ∈ x, K.object o) B) := by
  cases node with
  | none => exact pure ⟨rfl, by simp, rfl⟩
  | some n =>
    refine (hev n (hn n rfl)).andThen fun o ho => ?_
    exact pure ⟨rfl, by simpa using ho, rfl⟩

theorem condition {test : Node} (htest : K.Fits p test) :
    Matches K B (Eval.condition ev test) (Eval.condition ev' test) (Steady (fun _ => True) B) := by
  refine (hev test htest).andThen fun o ho => (valueOf ho).andThen fun v _ => ?_
  split
  · exact pure ⟨rfl, trivial, rfl⟩
  · exact raise

theorem elementPlace {vector : ObjectId} {target index : Node} (hv : K.object vector)
    (hindex : K.Fits p index) :
    Matches K B (Eval.elementPlace ev vector target index)
      (Eval.elementPlace ev' vector target index)
      (Steady K.place B) := by
  refine (hev index hindex).andThen fun i _ => ?_
  exact subscriptIndex.andThen fun j _ => pure ⟨rfl, hv, rfl⟩

include hp

theorem reference {n : Node} (hn : K.Fits p n) :
    Matches K B (Eval.reference ev n) (Eval.reference ev' n) (Steady K.object B) := by
  induction n using Eval.reference.induct with
  | case1 span ident =>
    simp only [Eval.reference]
    refine (read (G := fun _ => True) (fun s => ?_) fun _ _ _ => trivial).andThen fun c _ => ?_
    · simp [State.unmarked]
    · split
      · exact variablePlace.andThen fun q hq => load hq
      · exact hev _ hn
  | case2 span target index ih =>
    obtain ⟨htarget, hindex⟩ := fits_subscript hp hn
    simp only [Eval.reference]
    refine (ih htarget).andThen fun vector hv => ?_
    exact (elementPlace hev hv hindex).andThen fun q hq => load hq
  | case3 n hvar hsub =>
    simp only [Eval.reference]
    exact hev n hn

theorem place {n : Node} (hn : K.Fits p n) :
    Matches K B (Eval.place ev n) (Eval.place ev' n) (Steady K.place B) := by
  unfold Eval.place
  split
  · exact variablePlace
  · obtain ⟨htarget, hindex⟩ := fits_subscript hp hn
    exact (reference hp hev htarget).andThen fun vector hv => elementPlace hev hv hindex
  · exact raise

theorem subscript {target index : Node} (htarget : K.Fits p target) (hindex : K.Fits p index) :
    Matches K B (Eval.subscript ev span target index) (Eval.subscript ev' span target index)
      (Steady K.object B) := by
  refine (reference hp hev htarget).andThen fun vector hv => ?_
  refine (elementPlace hev hv hindex).andThen fun q hq => ?_
  exact (load hq).andThen fun o ho => copy ho

theorem assignment {target value : Node} (htarget : K.Fits p target) (hvalue : K.Fits p value) :
    Matches K B (Eval.assign ev span target value) (Eval.assign ev' span target value)
      (Steady K.object B) := by
  refine (place hp hev htarget).andThen fun q hq => ?_
  refine (hev value hvalue).andThen fun o ho => (copy ho).andThen fun c hc => ?_
  exact (store hq hc).andThen fun _ _ => pure ⟨rfl, ho, rfl⟩

omit hp

theorem letVar {ident : Ident} {init : Option Node} (hinit : ∀ n ∈ init, K.Fits p n) :
    Matches K B (Eval.letVar ev ident init) (Eval.letVar ev' ident init) (Steady K.object B) := by
  cases init with
  | none => exact declare.andThen fun _ _ => allocNone
  | some n =>
    refine (hev n (hinit n rfl)).andThen fun o ho => ?_
    exact (define ho).andThen fun _ _ => allocNone

theorem binary {op : BinaryOp} {lhs rhs : Node} (hlhs : K.Fits p lhs) (hrhs : K.Fits p rhs) :
    Matches K B (Eval.binary ev span op lhs rhs) (Eval.binary ev' span op lhs rhs)
      (Steady K.object B) := by
  refine (hev lhs hlhs).andThen fun l hl => (hev rhs hrhs).andThen fun r hr => ?_
  refine (valueOf hl).andThen fun v hv => (valueOf hr).andThen fun w hw => ?_
  exact (compute hv hw).andThen fun x hx => alloc hx

theorem compareLinks {l : ObjectId} {links : List (CompareOp × Node)}
    (hlinks : ∀ link ∈ links, K.Fits p link.2) :
    Matches K B (Eval.compareLinks ev span l links) (Eval.compareLinks ev' span l links)
      (Steady (fun _ => True) B) := by
  induction links generalizing l with
  | nil => exact pure ⟨rfl, trivial, rfl⟩
  | cons link links ih =>
    refine (hev link.2 (hlinks link (by simp))).andThen fun r _ => ?_
    refine compareObjects.andThen fun b _ => ?_
    split
    · exact ih fun m hm => hlinks m (by simp [hm])
    · exact pure ⟨rfl, trivial, rfl⟩

theorem comparison {n : Node} (hfirst : K.Fits p n.chain.1)
    (hlinks : ∀ link ∈ n.chain.2, K.Fits p link.2) :
    Matches K B (Eval.comparison ev span n) (Eval.comparison ev' span n) (Steady K.object B) := by
  refine (hev _ hfirst).andThen fun l _ => ?_
  exact (compareLinks hev hlinks).andThen fun b _ => allocAtom nofun

theorem range {start stop : Node} (hstart : K.Fits p start) (hstop : K.Fits p stop) :
    Matches K B (Eval.range ev start stop) (Eval.range ev' start stop) (Steady K.object B) := by
  refine (hev start hstart).andThen fun a _ => (hev stop hstop).andThen fun b _ => ?_
  exact expectInt.andThen fun i _ => expectInt.andThen fun j _ => allocAtom nofun

theorem callee {f : Node} (hf : K.Fits p f) :
    Matches K B (Eval.callee ev f) (Eval.callee ev' f) (Steady K.object B) := by
  unfold Eval.callee
  split
  · refine (read (G := fun _ => True) (fun s => ?_) fun _ _ _ => trivial).andThen fun c _ => ?_
    · simp [State.unmarked]
    · split
      · exact hev _ hf
      · exact raise
  · exact hev f hf

end Structured.Matches
end Scripting
