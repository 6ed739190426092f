import Mathlib.Tactic.Common
import Scripting.Proofs.Eval.Places
import Scripting.Proofs.Renaming.Parallel

/-! Chains of comparisons: a chain means that all its links hold, and it is evaluated from the left
only as far as that is needed to know. -/
namespace Scripting

/-- One link of a chain: an operator with the operand behind it, and where the comparison stands. -/
structure Link where
  span : Option Span := none
  op : CompareOp
  operand : Node

namespace Node

/-- The tree of a chain. Comparisons nest to the left. -/
def linked (first : Node) (links : List Link) : Node :=
  links.foldl (fun lhs x => .compare x.span x.op lhs x.operand) first

def isCompare : Node → Bool
  | .compare .. => true
  | _ => false

theorem chain_linked {first : Node} {links : List Link} :
    (first.linked links).chain =
      (first.chain.1, first.chain.2 ++ links.map fun x => (x.op, x.operand)) := by
  induction links generalizing first with
  | nil => simp [linked]
  | cons x links ih =>
    rw [linked, List.foldl_cons, ← linked, ih]
    simp [chain]

theorem chain_of_not_isCompare {n : Node} (h : n.isCompare = false) : n.chain = (n, []) := by
  cases n with
  | compare => cases h
  | _ => rfl

end Node

namespace CompareOp

/-- Values can fail to be comparable in two ways: they are of different kinds, or of one kind
without an order and the operator asks for it. -/
theorem apply_error {op : CompareOp} {v w : Value} {same : Unit → Bool}
    {span : Option Span} {e : Error} (h : op.apply v w same span = .error e) :
    v.kind ≠ w.kind ∧ e.kind = .typeMismatch ∨
      v.kind = w.kind ∧ e.kind = .invalidOperator ∧ op ≠ .eq ∧ op ≠ .ne := by
  have hunordered : apply.unordered op same span v w = .error e := by
    unfold apply at h
    split at h
    · split at h
      · cases h
      · exact h
    · exact h
  unfold apply.unordered at hunordered
  split at hunordered
  · next hkinds =>
    cases hunordered
    exact .inl ⟨hkinds, rfl⟩
  · next hkinds =>
    refine .inr ⟨not_not.mp hkinds, ?_⟩
    cases op <;> cases hunordered <;> simp [Error.hinted]

end CompareOp

namespace Eval

variable {ev : Node → Eval ObjectId} {span : Option Span} {s s' t : State} {l l' r o : ObjectId}
  {links before : List Link} {x : Link} {stop : Stop}

/-- Whether a chain holds, with the last operand that was evaluated. The next operand is evaluated,
and compared with the one before, only if the chain to its left holds. -/
def chainTruth (ev : Node → Eval ObjectId) (span : Option Span) : Node → Eval (Bool × ObjectId)
  | .compare _ op lhs rhs => do
    let left ← chainTruth ev span lhs
    if left.1 then
      let r ← ev rhs
      let holds ← compareObjects op left.2 r span
      pure (holds, r)
    else pure left
  | first => do
    let o ← ev first
    pure (true, o)

/-- One more link, if all before it hold. -/
def follow (ev : Node → Eval ObjectId) (span : Option Span) (left : Bool × ObjectId)
    (link : CompareOp × Node) : Eval (Bool × ObjectId) :=
  if left.1 then do
    let r ← ev link.2
    let holds ← compareObjects link.1 left.2 r span
    pure (holds, r)
  else pure left

theorem chainTruth_eq (n : Node) : chainTruth ev span n =
    ev n.chain.1 >>= fun o => n.chain.2.foldlM (follow ev span) (true, o) := by
  induction n using Node.chain.induct with
  | case1 sp op lhs rhs first links hchain ih =>
    rw [hchain] at ih
    simp only [chainTruth, Node.chain, hchain, ih, List.foldlM_append, List.foldlM_cons,
      List.foldlM_nil, bind_assoc, bind_pure]
    rfl
  | case2 n hn =>
    rw [chainTruth.eq_2 ev span n hn, Node.chain.eq_2 n hn]
    rfl

theorem foldlM_follow_false (links : List (CompareOp × Node)) :
    links.foldlM (follow ev span) (false, l) = pure (false, l) := by
  induction links with
  | nil => rfl
  | cons link links ih => simp [follow, ih]

theorem compareLinks_eq (links : List (CompareOp × Node)) : compareLinks ev span l links =
    links.foldlM (follow ev span) (true, l) >>= fun x => pure x.1 := by
  induction links generalizing l with
  | nil => rfl
  | cons link links ih =>
    simp only [compareLinks, List.foldlM_cons, follow, if_true, bind_assoc, pure_bind]
    refine congrArg _ (funext fun r => congrArg _ (funext fun holds => ?_))
    cases holds with
    | true => exact ih
    | false => simp [foldlM_follow_false]

/-- A comparison tells whether its chain holds. -/
theorem comparison_eq (n : Node) :
    comparison ev span n = chainTruth ev span n >>= fun x => allocAtom (.bool x.1) := by
  simp only [comparison, compareLinks_eq, chainTruth_eq, bind_assoc, pure_bind]

/-! ### The course of a chain -/

/-- Comparing changes nothing. -/
theorem compareObjects_cases (op : CompareOp) (l r : ObjectId) (span : Option Span) (s : State) :
    (∃ b, compareObjects op l r span s = .ok b s) ∨
      ∃ e : Error, compareObjects op l r span s = .error (.raised e) s ∧
        ((s.heap.store.value l).kind ≠ (s.heap.store.value r).kind ∧ e.kind = .typeMismatch ∨
          (s.heap.store.value l).kind = (s.heap.store.value r).kind ∧ e.kind = .invalidOperator ∧
            op ≠ .eq ∧ op ≠ .ne) := by
  simp only [compareObjects, Bind.bind, EStateM.bind, Eval.read]
  cases hresult : op.apply (s.heap.store.value l) (s.heap.store.value r)
      (fun _ => s.heap.store.equalValues (s.heap.store.value l) (s.heap.store.value r)) span with
  | ok b => exact .inl ⟨b, rfl⟩
  | error e => exact .inr ⟨e, rfl, CompareOp.apply_error hresult⟩

/-- From one operand on, links of a chain that hold: each operand is evaluated once, from the state
in which the one before it left off, and then compared with it. -/
inductive Chained (ev : Node → Eval ObjectId) (span : Option Span) :
    ObjectId → State → List Link → ObjectId → State → Prop
  | nil {l : ObjectId} {s : State} : Chained ev span l s [] l s
  | cons {l r l' : ObjectId} {s t s' : State} {x : Link} {links : List Link}
      (hr : ev x.operand s = .ok r t) (hlink : compareObjects x.op l r span t = .ok true t)
      (hrest : Chained ev span r t links l' s') : Chained ev span l s (x :: links) l' s'

/-- The first link of a chain that does not hold, all links before it holding: nothing is evaluated
after its operand. -/
def Broken (ev : Node → Eval ObjectId) (span : Option Span) (l : ObjectId) (s : State)
    (links : List Link) (r : ObjectId) (s' : State) : Prop :=
  ∃ before x after l' t, links = before ++ x :: after ∧ Chained ev span l s before l' t ∧
    ev x.operand t = .ok r s' ∧ compareObjects x.op l' r span s' = .ok false s'

/-- The first link of a chain whose operand has no value or cannot be compared, all links before it
holding: nothing is evaluated after that. -/
def Stopped (ev : Node → Eval ObjectId) (span : Option Span) (l : ObjectId) (s : State)
    (links : List Link) (stop : Stop) (s' : State) : Prop :=
  ∃ before x after l' t, links = before ++ x :: after ∧ Chained ev span l s before l' t ∧
    (ev x.operand t = .error stop s' ∨
      ∃ r, ev x.operand t = .ok r s' ∧ compareObjects x.op l' r span s' = .error stop s')

/-- The rest of a chain, after an operand. -/
def chainFrom (ev : Node → Eval ObjectId) (span : Option Span) (l : ObjectId) (links : List Link) :
    Eval (Bool × ObjectId) :=
  (links.map fun x => (x.op, x.operand)).foldlM (follow ev span) (true, l)

theorem chainTruth_linked {first : Node} (hfirst : first.isCompare = false) :
    chainTruth ev span (first.linked links) = ev first >>= fun o => chainFrom ev span o links := by
  rw [chainTruth_eq, Node.chain_linked, Node.chain_of_not_isCompare hfirst]
  rfl

theorem chainFrom_cons : chainFrom ev span l (x :: links) =
    ev x.operand >>= fun r => compareObjects x.op l r span >>= fun holds =>
      if holds then chainFrom ev span r links else pure (false, r) := by
  simp only [chainFrom, List.map_cons, List.foldlM_cons, follow, if_true, bind_assoc, pure_bind]
  refine congrArg _ (funext fun r => congrArg _ (funext fun holds => ?_))
  cases holds with
  | true => rfl
  | false => exact foldlM_follow_false _

/-- After links that hold, a chain goes on with the others. -/
theorem Chained.chainFrom_append {after : List Link} (h : Chained ev span l s before l' t) :
    chainFrom ev span l (before ++ after) s = chainFrom ev span l' after t := by
  induction h with
  | nil => rfl
  | cons hr hlink _ ih =>
    rw [List.cons_append, chainFrom_cons, bind_ok hr, bind_ok hlink]
    exact ih

theorem Chained.eq (h : Chained ev span l s links o s') :
    chainFrom ev span l links s = .ok (true, o) s' := by
  rw [← List.append_nil links, h.chainFrom_append]
  rfl

theorem Broken.eq (h : Broken ev span l s links o s') :
    chainFrom ev span l links s = .ok (false, o) s' := by
  obtain ⟨before, x, after, l', t, rfl, hbefore, hr, hlink⟩ := h
  rw [hbefore.chainFrom_append, chainFrom_cons, bind_ok hr, bind_ok hlink]
  rfl

theorem Stopped.eq (h : Stopped ev span l s links stop s') :
    chainFrom ev span l links s = .error stop s' := by
  obtain ⟨before, x, after, l', t, rfl, hbefore, hstop | ⟨r, hr, hlink⟩⟩ := h
  · rw [hbefore.chainFrom_append, chainFrom_cons, bind_error hstop]
  · rw [hbefore.chainFrom_append, chainFrom_cons, bind_ok hr, bind_error hlink]

/-- Every chain holds, is broken or is stopped. -/
theorem chained_or (ev : Node → Eval ObjectId) (span : Option Span)
    (links : List Link) (l : ObjectId) (s : State) :
    (∃ o s', Chained ev span l s links o s') ∨ (∃ o s', Broken ev span l s links o s') ∨
      ∃ stop s', Stopped ev span l s links stop s' := by
  induction links generalizing l s with
  | nil => exact .inl ⟨l, s, .nil⟩
  | cons x links ih =>
    cases hr : ev x.operand s with
    | error stop t => exact .inr (.inr ⟨stop, t, [], x, links, l, s, rfl, .nil, .inl hr⟩)
    | ok r t =>
      rcases compareObjects_cases x.op l r span t with ⟨_ | _, hlink⟩ | ⟨e, hlink, -⟩
      · exact .inr (.inl ⟨r, t, [], x, links, l, s, rfl, .nil, hr, hlink⟩)
      · rcases ih r t with ⟨o, s', hrest⟩ | ⟨o, s', before, y, after, l', t', rfl, hbefore, hend⟩ |
          ⟨stop, s', before, y, after, l', t', rfl, hbefore, hend⟩
        · exact .inl ⟨o, s', .cons hr hlink hrest⟩
        · exact .inr
            (.inl ⟨o, s', x :: before, y, after, l', t', rfl, .cons hr hlink hbefore, hend⟩)
        · exact .inr
            (.inr ⟨stop, s', x :: before, y, after, l', t', rfl, .cons hr hlink hbefore, hend⟩)
      · exact .inr (.inr ⟨_, t, [], x, links, l, s, rfl, .nil, .inr ⟨r, hr, hlink⟩⟩)

/-- What the links of a chain have done if it ends so. -/
def ChainEnds (ev : Node → Eval ObjectId) (span : Option Span) (l : ObjectId) (s : State)
    (links : List Link) : EStateM.Result Stop State (Bool × ObjectId) → Prop
  | .ok (true, o) s' => Chained ev span l s links o s'
  | .ok (false, o) s' => Broken ev span l s links o s'
  | .error stop s' => Stopped ev span l s links stop s'

theorem chainFrom_eq_iff {result : EStateM.Result Stop State (Bool × ObjectId)} :
    chainFrom ev span l links s = result ↔ ChainEnds ev span l s links result := by
  constructor
  · rintro rfl
    rcases chained_or ev span links l s with ⟨o, s', h⟩ | ⟨o, s', h⟩ | ⟨stop, s', h⟩ <;>
      rw [h.eq] <;> exact h
  · intro h
    rcases result with ⟨⟨_ | _, o⟩, s'⟩ | ⟨stop, s'⟩
    · exact Broken.eq h
    · exact Chained.eq h
    · exact Stopped.eq h

/-- How the evaluation of a chain can go, whatever its operands do. -/
structure Conjoins (ev : Node → Eval ObjectId) (span : Option Span) (first : Node)
    (links : List Link) (x : Eval (Bool × ObjectId)) : Prop where
  /-- It holds exactly if every link does. -/
  holds : ∀ s o s', x s = .ok (true, o) s' ↔
    ∃ l t, ev first s = .ok l t ∧ Chained ev span l t links o s'
  /-- It does not hold exactly if some link is the first that does not. -/
  breaks : ∀ s o s', x s = .ok (false, o) s' ↔
    ∃ l t, ev first s = .ok l t ∧ Broken ev span l t links o s'
  /-- It ends in the first error of an operand or a link. -/
  stops : ∀ s stop s', x s = .error stop s' ↔
    ev first s = .error stop s' ∨ ∃ l t, ev first s = .ok l t ∧ Stopped ev span l t links stop s'
  /-- A link has no value for kinds that differ, or that have no order where one is asked for. -/
  link : ∀ op l r s stop s', compareObjects op l r span s = .error stop s' →
    s' = s ∧ ∃ e : Error, stop = .raised e ∧
      ((s.heap.store.value l).kind ≠ (s.heap.store.value r).kind ∧ e.kind = .typeMismatch ∨
        (s.heap.store.value l).kind = (s.heap.store.value r).kind ∧ e.kind = .invalidOperator ∧
          op ≠ .eq ∧ op ≠ .ne)

theorem conjoins_chainTruth {first : Node} (hfirst : first.isCompare = false) :
    Conjoins ev span first links (chainTruth ev span (first.linked links)) := by
  rw [chainTruth_linked hfirst]
  refine ⟨fun s o s' => ?_, fun s o s' => ?_, fun s stop s' => ?_, fun op l r s stop s' h => ?_⟩
  · cases hl : ev first s with
    | error stop t => simp [bind_error hl]
    | ok l t => simp [bind_ok hl, chainFrom_eq_iff, ChainEnds]
  · cases hl : ev first s with
    | error stop t => simp [bind_error hl]
    | ok l t => simp [bind_ok hl, chainFrom_eq_iff, ChainEnds]
  · cases hl : ev first s with
    | error stop t => simp [bind_error hl]
    | ok l t => simp [bind_ok hl, chainFrom_eq_iff, ChainEnds]
  · rcases compareObjects_cases op l r span s with ⟨b, hb⟩ | ⟨e, he, hkind⟩
    · cases hb.symm.trans h
    · cases he.symm.trans h
      exact ⟨rfl, e, rfl, hkind⟩

end Eval

open Eval

/-- A chain of comparisons `e₀ op₁ e₁ … opₙ eₙ` gives whether all its links hold, found from the
left: each operand is evaluated at most once and only if all links before it hold, and all that the
chain does is what these operands do. -/
theorem comparison_chains (fuel : Nat) {first : Node} (hfirst : first.isCompare = false)
    {links : List Link} (hlinks : links ≠ []) :
    let n := first.linked links
    node (fuel + 1) n = (do
      checkInterrupt n.span
      trace n
      let x ← chainTruth (node fuel) n.span n
      allocAtom (.bool x.1)) ∧
    Conjoins (node fuel) n.span first links (chainTruth (node fuel) n.span n) := by
  intro n
  refine ⟨?_, conjoins_chainTruth hfirst⟩
  obtain ⟨init, x, hn⟩ := List.eq_nil_or_concat links |>.resolve_left hlinks
  have hcompare : n = .compare x.span x.op (first.linked init) x.operand := by
    simp [n, hn, Node.linked]
  rw [hcompare]
  simp only [node, form, comparison_eq, Node.span]

/-- `1 < 2 < 2 < x`, where `x` is no variable. -/
def falling : List Link :=
  [{ op := .lt, operand := .literal none (.int 2) },
    { op := .lt, operand := .literal none (.int 2) },
    { op := .lt, operand := .var none ⟨"x", none⟩ }]

theorem comparison_chains_falling :
    ((node 2 (.var none ⟨"x", none⟩)).value? {} = none) ∧
    ∃ s', chainTruth (node 2) none (Node.linked (.literal none (.int 1)) falling) {} =
      .ok (false, 2) s' ∧
      (∃ l t, node 2 (.literal none (.int 1)) {} = .ok l t ∧
        Broken (node 2) none l t falling 2 s') ∧
      ((node 3 (Node.linked (.literal none (.int 1)) falling) >>= valueOf).value? {}).bind
        Value.bool? = some false := by
  obtain ⟨-, hconjoins⟩ :=
    @comparison_chains 2 (.literal none (.int 1)) rfl falling (by simp [falling])
  have hbroken := eq_ok_of_value? (s := {}) (a := (false, 2))
    (x := chainTruth (node 2) none (Node.linked (.literal none (.int 1)) falling))
      (by decide +kernel)
  exact ⟨by decide +kernel, _, hbroken, (hconjoins.breaks _ _ _).mp hbroken, by decide +kernel⟩

end Scripting
