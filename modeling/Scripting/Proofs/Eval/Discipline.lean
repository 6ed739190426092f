import Mathlib.Tactic.Common
import Scripting.Proofs.Eval.Tracking

/-! Every form leaves the stacks in order, with or without an observer. -/
namespace Scripting.Eval

variable {W : Watch} {ev ev' : Node → Eval ObjectId} {d : Nat} {s : State} {o : ObjectId}
  {span : Option Span}

/-- Operands keep all marks but those that statements may set. -/
def Follows (W : Watch) (ev ev' : Node → Eval ObjectId) : Prop := ∀ n s, Tracks W 0 (ev n) (ev' n) s

namespace Tracks

/-- A change of variables keeps the stacks in order. -/
theorem modifyBindings {m : Environment → Store → Environment × Store}
    (hb : s.env.Balanced (m s.env s.heap.store).1)
    (hm : (m s.env s.heap.store).1.bare = s.env.bare) :
    Tracks W d (Eval.modifyBindings m) (Eval.modifyBindings m) s :=
  modifyGet ⟨hb, fun _ => .of_bare hm⟩

theorem define {name : String} : Tracks W d (Eval.define name o) (Eval.define name o) s :=
  modifyBindings .define Environment.bare_define

theorem declare {name : String} : Tracks W d (Eval.declare name) (Eval.declare name) s :=
  modifyGet ⟨.declare, fun _ => .of_bare Environment.bare_declare⟩

theorem store {p : Place} : Tracks W d (Eval.store p o span) (Eval.store p o span) s := by
  rcases p with slot | ⟨vector, index⟩
  · refine look ?_
    split
    · exact modifyBindings .assign Environment.bare_assign
    · exact raise
  · exact still .storeElement

/-- A change of marks. -/
theorem mark {m : Environment → Environment} (hm : (m s.env).unmarked = s.env.unmarked)
    (hc : s.env.WellNested → s.env.Confined d (m s.env)) :
    Tracks W d (modifyEnv m) (modifyEnv m) s :=
  modifyGet ⟨.of_unmarked hm, hc⟩

theorem operand (h : Follows W ev ev') (n : Node) : Tracks W d (ev n) (ev' n) s :=
  (h n s).mono (Nat.zero_le d)

theorem elementPlace (h : Follows W ev ev') {vector : ObjectId} {target index : Node} :
    Tracks W d (Eval.elementPlace ev vector target index)
      (Eval.elementPlace ev' vector target index) s :=
  (operand h index).bind fun _ _ _ => (still .subscriptIndex).bind fun _ _ _ => pure

theorem reference (h : Follows W ev ev') (n : Node) :
    Tracks W d (Eval.reference ev n) (Eval.reference ev' n) s := by
  induction n using Eval.reference.induct generalizing s with
  | case1 span ident =>
    refine look ?_
    split
    · exact (still .variablePlace).bind fun _ _ _ => still .load
    · exact operand h _
  | case2 span target index ih =>
    refine ih.bind fun vector s' _ => ?_
    exact (elementPlace h).bind fun _ _ _ => still .load
  | case3 n hvar hsub =>
    rw [Eval.reference.eq_3 ev n hvar hsub, Eval.reference.eq_3 ev' n hvar hsub]
    exact operand h n

theorem place (h : Follows W ev ev') (n : Node) :
    Tracks W d (Eval.place ev n) (Eval.place ev' n) s := by
  cases n with
  | var span ident => exact still .variablePlace
  | subscript span target index => exact (reference h target).bind fun _ _ _ => elementPlace h
  | _ => exact raise

theorem subscript (h : Follows W ev ev') {target index : Node} :
    Tracks W d (Eval.subscript ev span target index) (Eval.subscript ev' span target index) s := by
  refine (reference h target).bind fun vector s' _ => ?_
  refine (elementPlace h).bind fun p s' _ => ?_
  exact (still .load).bind fun _ _ _ => still .copy

theorem assign (h : Follows W ev ev') {target value : Node} :
    Tracks W d (Eval.assign ev span target value) (Eval.assign ev' span target value) s := by
  refine (place h target).bind fun p s' _ => ?_
  refine (operand h value).bind fun o s' _ => ?_
  refine (still .copy).bind fun item s' _ => ?_
  exact store.bind fun _ _ _ => pure

theorem letVar (h : Follows W ev ev') {ident : Ident} {init : Option Node} :
    Tracks W d (Eval.letVar ev ident init) (Eval.letVar ev' ident init) s := by
  cases init with
  | none => exact declare.bind fun _ _ _ => still .allocNone
  | some n =>
    refine (operand h n).bind fun o s' _ => ?_
    exact define.bind fun _ _ _ => still .allocNone

theorem operands (h : Follows W ev ev') (ns : List Node) :
    Tracks W d (Eval.operands ev ns) (Eval.operands ev' ns) s := by
  induction ns generalizing s with
  | nil => exact pure
  | cons n ns ih => exact (operand h n).bind fun _ _ _ => ih.bind fun _ _ _ => pure

theorem binary (h : Follows W ev ev') {op : BinaryOp} {lhs rhs : Node} :
    Tracks W d (Eval.binary ev span op lhs rhs) (Eval.binary ev' span op lhs rhs) s := by
  refine (operand h lhs).bind fun l s' _ => ?_
  refine (operand h rhs).bind fun r s' _ => ?_
  refine look (look ?_)
  exact (still .compute).bind fun _ _ _ => still .alloc

theorem compareLinks (h : Follows W ev ev') (links : List (CompareOp × Node)) {l : ObjectId} :
    Tracks W d (Eval.compareLinks ev span l links) (Eval.compareLinks ev' span l links) s := by
  induction links generalizing l s with
  | nil => exact pure
  | cons link links ih =>
    refine (operand h link.2).bind fun r s' _ => ?_
    refine (still .compareObjects).bind fun holds s'' _ => ?_
    cases holds
    · exact pure
    · exact ih

theorem comparison (h : Follows W ev ev') {n : Node} :
    Tracks W d (Eval.comparison ev span n) (Eval.comparison ev' span n) s := by
  refine (operand h _).bind fun l s' _ => ?_
  exact (compareLinks h _).bind fun _ _ _ => still .allocAtom

theorem range (h : Follows W ev ev') {start stop : Node} :
    Tracks W d (Eval.range ev start stop) (Eval.range ev' start stop) s := by
  refine (operand h start).bind fun a s' _ => ?_
  refine (operand h stop).bind fun b s' _ => ?_
  refine (still .expectInt).bind fun first s' _ => ?_
  exact (still .expectInt).bind fun _ _ _ => still .allocAtom

theorem condition (h : Follows W ev ev') {test : Node} :
    Tracks W d (Eval.condition ev test) (Eval.condition ev' test) s := by
  refine (operand h test).bind fun o s' _ => look ?_
  split
  · exact pure
  · exact raise

theorem conditional (h : Follows W ev ev') {test yes : Node} {no : Option Node} :
    Tracks W d (Eval.conditional ev test yes no) (Eval.conditional ev' test yes no) s := by
  refine (condition h).bind fun holds s' _ => ?_
  cases holds with
  | true => exact operand h yes
  | false =>
    cases no with
    | none => exact still .allocNone
    | some n => exact operand h n

/-! ### Statements -/

theorem endCall {result : ObjectId} :
    Tracks W d
      (do
        if ← read (·.env.currentFrame?.isNone) then Eval.raise { kind := .notInsideFunction, span }
        else
          modifyEnv (leaveFunction · result)
          Eval.allocNone)
      (do
        if ← read (·.env.currentFrame?.isNone) then Eval.raise { kind := .notInsideFunction, span }
        else
          modifyEnv (leaveFunction · result)
          Eval.allocNone) s := by
  refine look ?_
  split
  · exact raise
  · refine (mark Environment.unmarked_leaveFunction fun _ => .leaveFunction).bind fun _ s'' _ => ?_
    exact still .allocNone

theorem returnFrom (h : Follows W ev ev') {value : Option Node} :
    Tracks W d (Eval.returnFrom ev span value) (Eval.returnFrom ev' span value) s := by
  refine look ?_
  split
  · exact raise
  · cases value with
    | none => exact (still .allocNone).bind fun _ _ _ => endCall
    | some n => exact (operand h n).bind fun _ _ _ => endCall

theorem breakFrom (h : Follows W ev ev') {value : Option Node} :
    Tracks W d (Eval.breakFrom ev span value) (Eval.breakFrom ev' span value) s := by
  refine look ?_
  split
  · exact raise
  · have hvalue : Tracks W d (Eval.operand? ev value) (Eval.operand? ev' value) s := by
      cases value with
      | none => exact pure
      | some n => exact (operand h n).bind fun _ _ _ => pure
    refine hvalue.bind fun result s' _ => look ?_
    split
    · exact raise
    · refine (mark Environment.unmarked_leaveLoop .leaveLoop).bind fun _ s'' _ => ?_
      exact still .allocNone

theorem continueFrom :
    Tracks W d (Eval.continueFrom span) (Eval.continueFrom span) s := by
  refine look ?_
  cases hl : s.env.currentLoop? with
  | none => exact raise
  | some l =>
    refine (mark Environment.unmarked_skipFrom fun he => .continueLoop he hl).bind fun _ s' _ => ?_
    exact still .allocNone

theorem markCurrent {f : Scope → Scope} (hf : ∀ x, (f x).unmarked = x.unmarked) :
    Tracks W 1 (modifyEnv (·.modifyScope s.env.currentIndex f))
      (modifyEnv (·.modifyScope s.env.currentIndex f)) s :=
  mark (Environment.unmarked_modifyScope_of_marks hf) fun _ => .modifyCurrent

/-- The scope that statements run in is the innermost one, before and after each of them. -/
theorem runStatements (h : Follows W ev ev') {index : Nat} (hs : s.env.currentIndex = index)
    (ns : List Node) :
    Tracks W 1 (Eval.runStatements ev index ns) (Eval.runStatements ev' index ns) s := by
  induction ns generalizing s with
  | nil => exact pure
  | cons n ns ih =>
    refine (operand h n).bind fun o t ht => ?_
    have hindex : t.env.currentIndex = index := ht.balanced.currentIndex_eq.trans hs
    subst hindex
    refine bind (markCurrent fun _ => rfl) fun _ u hu => look ?_
    split
    · exact pure
    · exact ih hu.balanced.currentIndex_eq

theorem statements (h : Follows W ev ev') (ns : List Node) :
    Tracks W 1 (Eval.statements ev ns) (Eval.statements ev' ns) s := by
  refine look (bind (markCurrent fun _ => rfl) fun _ t ht => ?_)
  have hindex : t.env.currentIndex = s.env.currentIndex := ht.balanced.currentIndex_eq
  refine (runStatements h hindex ns).bind fun _ u hu => look ?_
  have hindex' : s.env.currentIndex = u.env.currentIndex :=
    (hu.balanced.currentIndex_eq.trans hindex).symm
  rw [hindex']
  refine bind (markCurrent fun _ => rfl) fun _ _ _ => ?_
  split
  · exact pure
  · exact still .allocNone

/-! ### What is opened and closed -/

/-- Stacks that were opened, used and closed. -/
theorem bracket {α β : Type} {op : Eval Unit} {x y : Eval α} {t : State} (close : α → Eval β)
    (hop : op s = .ok () t) (hopen : s.env.Extends t.env) (hW : W.holds s.env → W.holds t.env)
    (hx : Tracks W 1 x y t)
    (hclose : ∀ a u, W.holds s.env → t.env.Keeps 1 u.env →
      ∃ b v, close a u = .ok b v ∧ s.env.Keeps 0 v.env) :
    Tracks W d (op >>= fun _ => x >>= close) (op >>= fun _ => y >>= close) s := by
  intro hs
  obtain ⟨heq, hend⟩ := hx (hW hs)
  simp only [Bind.bind, EStateM.bind, hop, heq]
  cases hr : y t with
  | error stop u =>
    rw [hr] at hend
    exact ⟨trivial, hend.1, hopen.trans hend.2⟩
  | ok a u =>
    rw [hr] at hend
    obtain ⟨b, v, hv, hkeeps⟩ := hclose a u hs hend
    simp only [hv]
    exact ⟨trivial, hkeeps.mono (Nat.zero_le d)⟩

theorem block (h : Follows W ev ev') (ns : List Node) :
    Tracks W d (Eval.block ev ns) (Eval.block ev' ns) s := by
  unfold Eval.block
  split
  · exact still .allocNone
  · refine bracket _ rfl .enter W.block (statements h ns) fun o u hs hu => ?_
    refine ⟨o, _, rfl, hu.balanced.leaveBlock (W.rooted hs), fun he => ?_⟩
    exact (hu.confined he.enter).leaveBlock hu.balanced

/-- The loop is closed whatever its value. -/
theorem closeLoop {u : State} {fs : List Decl} (hs : s.env.Rooted)
    (hu : (s.env.loopOpened fs).Keeps 1 u.env) :
    ∃ o v, Eval.closeLoop u = .ok o v ∧ s.env.Keeps 0 v.env := by
  have hclosed : s.env.Keeps 0 (u.env.popLoop.2.leave u.heap.store).1 :=
    ⟨hu.balanced.leaveLoop hs, fun he => (hu.confined he.loopOpened).leaveLoopScope hu.balanced⟩
  cases hresult : u.env.loops.back?.bind (·.result) with
  | none =>
    simp only [Eval.closeLoop, Bind.bind, EStateM.bind, Eval.read, hresult]
    exact ⟨_, _, rfl, hclosed⟩
  | some o =>
    simp only [Eval.closeLoop, Bind.bind, EStateM.bind, Eval.read, hresult]
    exact ⟨_, _, rfl, hclosed⟩

theorem stepItem (h : Follows W ev ev') {iterator body : Node} {p : Place} {item : ObjectId} :
    Tracks W 1
      (do
        Eval.store p item iterator.span
        let _ ← Eval.statements ev body.statements
        return !(← Eval.isBroken))
      (do
        Eval.store p item iterator.span
        let _ ← Eval.statements ev' body.statements
        return !(← Eval.isBroken)) s := by
  refine store.bind fun _ t _ => ?_
  refine (statements h body.statements).bind fun _ u _ => ?_
  exact (still .isBroken).bind fun _ _ _ => pure

theorem iterate (h : Follows W ev ev') {iterator body : Node} {fresh : Option Place}
    {item : ObjectId} :
    Tracks W 1 (Eval.iterate ev iterator body fresh item)
      (Eval.iterate ev' iterator body fresh item) s := by
  refine (still .isBroken).bind fun isBroken t _ => ?_
  split
  · exact pure
  · refine (still .checkInterrupt).bind fun _ t _ => ?_
    cases fresh with
    | none => exact (place h iterator).bind fun _ _ _ => stepItem h
    | some p => exact stepItem h

theorem forRange {step step' : ObjectId → Eval Bool}
    (hstep : ∀ o s, Tracks W 1 (step o) (step' o) s) {n : Nat} {i : Int} :
    Tracks W 1 (Eval.forRange step n i) (Eval.forRange step' n i) s := by
  induction n generalizing i s with
  | zero => exact pure
  | succ n ih =>
    refine (still .allocAtom).bind fun item t _ => ?_
    refine (hstep item t).bind fun goesOn u _ => ?_
    split
    · exact ih
    · exact pure

theorem forElements {step step' : ObjectId → Eval Bool}
    (hstep : ∀ o s, Tracks W 1 (step o) (step' o) s) {os : List ObjectId} :
    Tracks W 1 (Eval.forElements step os) (Eval.forElements step' os) s := by
  induction os generalizing s with
  | nil => exact pure
  | cons o os ih =>
    refine (still .copy).bind fun item t _ => ?_
    refine (hstep item t).bind fun goesOn u _ => ?_
    split
    · exact ih
    · exact pure

theorem freshIterator {n : Node} : Tracks W d (Eval.freshIterator n) (Eval.freshIterator n) s := by
  cases n with
  | var span ident => exact declare.bind fun _ _ _ => pure
  | _ => exact pure

theorem whileHolds (h : Follows W ev ev') {test body : Node} {n : Nat} :
    Tracks W 1 (Eval.whileHolds ev test body n) (Eval.whileHolds ev' test body n) s := by
  induction n generalizing s with
  | zero => exact still .throw_exhausted
  | succ n ih =>
    refine (still .isBroken).bind fun isBroken t _ => ?_
    split
    · exact pure
    · refine (still .checkInterrupt).bind fun _ t _ => ?_
      refine (condition h).bind fun holds t _ => ?_
      split
      · exact (statements h body.statements).bind fun _ _ _ => ih
      · exact pure

theorem whileLoop (h : Follows W ev ev') {test body : Node} {limit : Nat} :
    Tracks W d (Eval.whileLoop ev limit test body) (Eval.whileLoop ev' limit test body) s :=
  bracket _ rfl .loopOpened W.loop (whileHolds h) fun _ _ hs hu => closeLoop (W.rooted hs) hu

/-- The part of a loop over items that begins with its opening. -/
theorem openedLoop {ns : List Node} {iterator : Node} {x y : Option Place → Eval Unit}
    (hxy : ∀ fresh t, Tracks W 1 (x fresh) (y fresh) t) :
    Tracks W d
      (do
        openLoop ns
        let fresh ← Eval.freshIterator iterator
        x fresh
        Eval.closeLoop)
      (do
        openLoop ns
        let fresh ← Eval.freshIterator iterator
        y fresh
        Eval.closeLoop) s := by
  have hloop : Tracks W d
      (openLoop ns >>= fun _ => (Eval.freshIterator iterator >>= x) >>= fun _ => Eval.closeLoop)
      (openLoop ns >>= fun _ => (Eval.freshIterator iterator >>= y) >>= fun _ =>
        Eval.closeLoop) s :=
    bracket _ rfl .loopOpened W.loop (freshIterator.bind fun fresh t _ => hxy fresh t)
      fun _ _ hs hu => closeLoop (W.rooted hs) hu
  simpa only [bind_assoc] using hloop

theorem forLoop (h : Follows W ev ev') {iterator iterable body : Node} :
    Tracks W d (Eval.forLoop ev iterator iterable body)
      (Eval.forLoop ev' iterator iterable body) s := by
  refine (operand h iterable).bind fun o t _ => ?_
  refine (still .itemsOf).bind fun xs t _ => ?_
  cases xs with
  | range r => exact openedLoop fun _ _ => forRange fun _ _ => iterate h
  | elements os => exact openedLoop fun _ _ => forElements fun _ _ => iterate h

/-! ### Calls -/

theorem callee (h : Follows W ev ev') (n : Node) :
    Tracks W d (Eval.callee ev n) (Eval.callee ev' n) s := by
  cases n with
  | var span ident =>
    refine look ?_
    split
    · exact operand h _
    · exact raise
  | _ => exact operand h _

theorem bindFixed (ps : List Param) (os : List ObjectId) :
    Tracks W d (Eval.bindFixed ps os) (Eval.bindFixed ps os) s := by
  induction ps generalizing os s with
  | nil => exact pure
  | cons p ps ih =>
    cases os with
    | nil => exact pure
    | cons o os => exact define.bind fun _ _ _ => ih os

theorem bindRest {decl : Decl} {rest : List ObjectId} :
    Tracks W d (Eval.bindRest decl rest) (Eval.bindRest decl rest) s := by
  unfold Eval.bindRest
  split
  · exact (still .alloc).bind fun _ _ _ => define
  · exact pure

theorem closeCall {u : State} {decl : Decl} {value : ObjectId} (hs : s.env.Rooted)
    (hu : (s.env.callOpened decl).Keeps 1 u.env) :
    ∃ o v, Eval.closeCall value u = .ok o v ∧ s.env.Keeps 0 v.env := by
  have hclosed : s.env.Keeps 0 (u.env.popFrame.2.leave u.heap.store).1 :=
    ⟨hu.balanced.leaveCall hs, fun he => (hu.confined he.callOpened).leaveCall hu.balanced⟩
  cases hframe : u.env.frames.back? with
  | none =>
    simp only [Eval.closeCall, Bind.bind, EStateM.bind, Eval.read, hframe]
    exact ⟨_, _, rfl, hclosed⟩
  | some f =>
    rcases f with ⟨d, isReturned, result, scopeDepth, loopDepth⟩
    simp only [Eval.closeCall, Bind.bind, EStateM.bind, Eval.read, hframe]
    cases isReturned with
    | false => exact ⟨_, _, rfl, hclosed⟩
    | true => cases result <;> exact ⟨_, _, rfl, hclosed⟩

/-- A call is opened whole, or leaves the state as it was. -/
theorem openCall_eq {decl : Decl} (hs : s.env.Rooted) :
    openCall decl span s =
      match s.env.depthError? span with
      | none => .ok () { s with env := s.env.callOpened decl }
      | some e => .error (.raised e) s := by
  have hpos := hs.size_pos
  have hleave : (s.env.enter .function []).leave s.heap.store = (s.env, s.heap.store) := by
    simp [Environment.leave, Environment.enter, Store.releaseAll, hpos]
  have hclosed : leaveScope { s with env := s.env.enter .function [] } = .ok () s := by
    show EStateM.Result.ok () _ = _
    simp only [hleave]
  show (match s.env.depthError? span with
    | none => modifyEnv (·.pushFrame decl)
    | some e => do leaveScope; Eval.raise e) { s with env := s.env.enter .function [] } = _
  cases s.env.depthError? span with
  | none => rfl
  | some e =>
    simp only [Bind.bind, EStateM.bind, hclosed]
    rfl

theorem invoke (h : Follows W ev ev') {decl : Decl} {args : List ObjectId} :
    Tracks W d (Eval.invoke ev decl args span) (Eval.invoke ev' decl args span) s := by
  refine (still .ofExcept).bind fun _ t _ => ?_
  intro ht
  have hopen : openCall decl span t = _ := openCall_eq (W.rooted ht)
  cases hdepth : t.env.depthError? span with
  | some e =>
    simp only [hdepth] at hopen
    simp only [Bind.bind, EStateM.bind, hopen]
    exact ⟨trivial, ht, .refl⟩
  | none =>
    simp only [hdepth] at hopen
    have hbody : ∀ u, Tracks W 1
        (do
          Eval.bindFixed decl.fixed args
          Eval.bindRest decl (args.drop decl.fixed.length)
          ev decl.body)
        (do
          Eval.bindFixed decl.fixed args
          Eval.bindRest decl (args.drop decl.fixed.length)
          ev' decl.body)
        u :=
      fun u => (bindFixed decl.fixed args).bind fun _ _ _ => bindRest.bind fun _ _ _ => operand h _
    have hcall := bracket (d := d) Eval.closeCall hopen .callOpened W.call (hbody _)
      fun value u hs hu => closeCall (W.rooted hs) hu
    simpa only [bind_assoc] using hcall ht

theorem callFunction (h : Follows W ev ev') {decl : Decl} {args : List Node} :
    Tracks W d (Eval.callFunction ev decl args span) (Eval.callFunction ev' decl args span) s :=
  (operands h args).bind fun _ _ _ => invoke h

theorem call (h : Follows W ev ev') {f : Node} {args : List Node} :
    Tracks W d (Eval.call ev span f args) (Eval.call ev' span f args) s := by
  refine (callee h f).bind fun o t _ => look ?_
  split
  · exact (operands (fun n _ => reference h n) args).bind fun _ _ _ => still .callBuiltin
  · exact callFunction h
  · exact raise

/-! ### Nodes -/

theorem form (h : Follows W ev ev') {limit : Nat} (n : Node) :
    Tracks W d (Eval.form ev limit n) (Eval.form ev' limit n) s := by
  cases n with
  | none | record => exact still .allocNone
  | bool | literal => exact still .allocAtom
  | emptyList => exact still .alloc
  | list _ items | tuple _ items => exact (operands h items).bind fun _ _ _ => still .alloc
  | range => exact range h
  | var => exact still .name
  | subscript => exact subscript h
  | assign => exact assign h
  | binary => exact binary h
  | compare span op lhs rhs =>
    exact (comparison h : Tracks W d (Eval.comparison ev span (.compare span op lhs rhs)) _ s)
  | call => exact call h
  | function => exact still .functionObject
  | self => exact still .selfFunction
  | ret => exact returnFrom h
  | cond => exact conditional h
  | forLoop => exact forLoop h
  | whileLoop => exact whileLoop h
  | breakLoop => exact breakFrom h
  | continueLoop => exact continueFrom
  | letVar => exact letVar h
  | block _ ns => exact block h ns

theorem guarded {α : Type} {accepts : State → Bool} {alarm : Stop} {x y : Eval α}
    (haccepts : ∀ t : State, W.holds t.env → accepts t = true) (h : Tracks W d x y s) :
    Tracks W d (Eval.guarded accepts alarm x) y s := by
  intro hs
  obtain ⟨heq, hend⟩ := h hs
  simp only [Eval.guarded, haccepts s hs, if_true, heq]
  cases hr : y s with
  | error stop t =>
    rw [hr] at hend
    simp only [haccepts t hend.1, if_true]
    exact ⟨trivial, hend⟩
  | ok a t =>
    rw [hr] at hend
    simp only [haccepts t (W.balanced hs hend.balanced), if_true]
    exact ⟨trivial, hend⟩

/-- An observer that accepts all stacks on which an evaluation can go on has nothing to do. -/
theorem watched {accepts : State → Bool} {alarm : Stop}
    (haccepts : ∀ t : State, W.holds t.env → accepts t = true) (fuel : Nat) :
    Follows W (Eval.watched accepts alarm fuel) (Eval.node fuel) := by
  induction fuel with
  | zero => exact fun _ _ => guarded haccepts (still .throw_exhausted)
  | succ fuel ih =>
    intro n s
    refine guarded haccepts ?_
    refine (still .checkInterrupt).bind fun _ t _ => ?_
    exact (still .trace).bind fun _ _ _ => form ih n

end Tracks
end Scripting.Eval
