import Mathlib.Logic.Relation
import Mathlib.Tactic.Common
import Scripting.Proofs.Eval.Termination
import Scripting.Proofs.Host.Loops

/-! Loops over ranges and over the vectors of their integers. Such a vector is made of new objects,
so a loop over it goes through the same integers as one over the range, and both end alike. -/
namespace Scripting

open Relation Eval

/-! ### Objects that come -/

/-- Nothing has happened but that some objects were made. -/
structure State.Gains (s t : State) (n : Nat) : Prop where
  same : t = { s with heap := t.heap, log := t.log }
  keeps : s.heap.Keeps t.heap
  next : t.heap.store.next = s.heap.store.next + n
  orderly : s.heap.store.Orderly → t.heap.store.Orderly

namespace State.Gains

variable {s t u : State} {m n : Nat}

theorem noted (log : Array LogEvent) : s.Gains { s with log } 0 :=
  ⟨rfl, ⟨Nat.le_refl _, fun _ => rfl⟩, rfl, id⟩

theorem atom (a : Atom) : s.Gains (s.withHeap (s.heap.alloc (.atom a)).2) 1 :=
  ⟨rfl, .alloc, Heap.next_alloc, fun h => h.push (by simp [Value.elements])⟩

theorem trans (h : s.Gains t m) (h' : t.Gains u n) : s.Gains u (m + n) where
  same := by rw [h'.same, h.same]
  keeps := h.keeps.trans h'.keeps
  next := by rw [h'.next, h.next, Nat.add_assoc]
  orderly := fun hs => h'.orderly (h.orderly hs)

theorem isInterrupted (h : s.Gains t n) : t.isInterrupted = s.isInterrupted := by rw [h.same]

theorem builtins (h : s.Gains t n) : t.builtins = s.builtins := by rw [h.same]

theorem value {o : ObjectId} (h : s.Gains t n) (ho : s.heap.store.Has o) :
    t.heap.store.value o = s.heap.store.value o := h.keeps.value ho.lt_next

theorem has {o : ObjectId} (h : s.Gains t n) (ho : s.heap.store.Has o) : t.heap.store.Has o := by
  rw [Store.Has, h.keeps.get? ho.lt_next]
  exact ho

theorem grows {known : ObjectId → Prop} (h : s.Gains t n) : s.heap.store.Grows known t.heap.store :=
  ⟨h.keeps.1, h.has, fun ho ha => (h.value ho).trans ha, fun ho _ => h.value ho⟩

end State.Gains

/-- States to which objects have come since they were the same up to numbers are still so. -/
theorem State.Renamed.gains {D : Decl → Prop} {R : Pairing} {s t u v : State} {m n : Nat}
    (hst : s.Renamed D R t) (hu : s.Gains u m) (hv : t.Gains v n) :
    u.Renamed D R v ∧ R.Grows s.heap.store t.heap.store R u.heap.store v.heap.store := by
  have hgrow : R.Grows s.heap.store t.heap.store R u.heap.store v.heap.store :=
    ⟨fun _ _ => id, .inl, hu.grows, hv.grows⟩
  refine ⟨hst.change hgrow ?_ ?_ (by rw [hu.same]) (by rw [hv.same]), hgrow⟩
  · exact hst.store.congr (fun o ho => ⟨hu.has ho, hu.value ho⟩)
      (fun o ho => ⟨hv.has ho, hv.value ho⟩)
      (hu.orderly hst.store.left) (hv.orderly hst.store.right)
  · rw [hu.same, hv.same]
    exact hst.env

/-! ### The two iterables -/

/-- Where the parts of a range, and of a vector made of it, stand in the source. -/
structure RangeSpans where
  range : Option Span := none
  first : Option Span := none
  last : Option Span := none
  call : Option Span := none
  name : Option Span := none
  ident : Option Span := none

/-- `a..b` -/
def Node.ofRange (p : RangeSpans) (a b : Int64) : Node :=
  .range p.range (.literal p.first (.int a)) (.literal p.last (.int b))

/-- `vector(a..b)` -/
def Node.ofVector (p : RangeSpans) (a b : Int64) : Node :=
  .call p.call (.var p.name ⟨"vector", p.ident⟩) [.ofRange p a b]

namespace Eval

variable {s t : State} {o : ObjectId} {span : Option Span} {a : Int64}

/-- The rule of a form applies, unless the host interrupts. -/
theorem node_eq (fuel : Nat) (n : Node) (hs : s.isInterrupted = false) :
    ∃ t, node (fuel + 1) n s = form (node fuel) fuel n t ∧ s.Gains t 0 := by
  obtain ⟨log, htrace⟩ := @trace_eq s n
  exact ⟨_, by rw [node, bind_ok (checkInterrupt_eq hs), bind_ok htrace], .noted log⟩

theorem node_literal (fuel : Nat) (span : Option Span) (a : Int64) (hs : s.isInterrupted = false) :
    ∃ o t, node (fuel + 1) (.literal span (.int a)) s = .ok o t ∧ s.Gains t 1 ∧ t.heap.store.Has o ∧
      t.heap.store.value o = .atom (.int a) := by
  obtain ⟨t, ht, hgains⟩ := node_eq fuel (.literal span (.int a)) hs
  exact ⟨_, _, ht, hgains.trans (.atom _), Store.has_push.mpr (.inl rfl), Heap.value_alloc⟩

theorem expectInt_eq (h : s.heap.store.value o = .atom (.int a)) :
    expectInt o span s = .ok a s := by
  rw [expectInt, bind_ok valueOf_eq, h]
  rfl

theorem node_ofRange (fuel : Nat) (p : RangeSpans) (a b : Int64) (hs : s.isInterrupted = false) :
    ∃ o t, node (fuel + 2) (.ofRange p a b) s = .ok o t ∧ s.Gains t 3 ∧
      t.heap.store.value o = .atom (.range ⟨a, b⟩) := by
  obtain ⟨t, ht, hgains⟩ := node_eq (fuel + 1) (.ofRange p a b) hs
  obtain ⟨o₁, t₁, ho₁, hgains₁, hhas₁, hvalue₁⟩ :=
    node_literal fuel p.first a (hgains.isInterrupted.trans hs)
  have hgains' := hgains.trans hgains₁
  obtain ⟨o₂, t₂, ho₂, hgains₂, -, hvalue₂⟩ :=
    node_literal fuel p.last b (hgains'.isInterrupted.trans hs)
  refine ⟨_, _, ?_, (hgains'.trans hgains₂).trans (.atom (.range ⟨a, b⟩)), Heap.value_alloc⟩
  rw [ht]
  simp only [Node.ofRange, form, Eval.range]
  rw [bind_ok ho₁, bind_ok ho₂, bind_ok (expectInt_eq ((hgains₂.value hhas₁).trans hvalue₁)),
    bind_ok (expectInt_eq hvalue₂)]
  rfl

/-- The builtin that makes a vector of a range. -/
def vectorBuiltin : Builtin := ⟨"vector", [.range], .vector⟩

theorem node_vectorName (fuel : Nat) (span ident : Option Span) (hs : s.isInterrupted = false)
    (hbuiltins : s.builtins = .standard) :
    ∃ o t, node (fuel + 1) (.var span ⟨"vector", ident⟩) s = .ok o t ∧ s.Gains t 1 ∧
      t.heap.store.value o = .atom (.builtin vectorBuiltin) := by
  obtain ⟨t, ht, hgains⟩ := node_eq fuel (.var span ⟨"vector", ident⟩) hs
  have hread : Eval.read (·.builtins.find? "vector") t = .ok (some vectorBuiltin) t := by
    have hfind : t.builtins.find? "vector" = some vectorBuiltin := by
      rw [hgains.builtins, hbuiltins]
      rfl
    rw [← hfind]
    rfl
  refine ⟨_, _, ?_, hgains.trans (.atom (.builtin vectorBuiltin)), Heap.value_alloc⟩
  rw [ht]
  simp only [form, name]
  rw [bind_ok hread]
  rfl

/-- All that is left to do is to make the vector. -/
theorem node_ofVector (fuel : Nat) (p : RangeSpans) (a b : Int64) (hs : s.isInterrupted = false)
    (hbuiltins : s.builtins = .standard) :
    ∃ o t, node (fuel + 3) (.ofVector p a b) s = rangeVector o p.call t ∧ s.Gains t 4 ∧
      t.heap.store.value o = .atom (.range ⟨a, b⟩) := by
  obtain ⟨t, ht, hgains⟩ := node_eq (fuel + 2) (.ofVector p a b) hs
  have hstandard := hgains.builtins.trans hbuiltins
  obtain ⟨f, t₁, hf, hgains₁, hvalue₁⟩ :=
    node_vectorName (fuel + 1) p.name p.ident (hgains.isInterrupted.trans hs) hstandard
  have hgains' := hgains.trans hgains₁
  obtain ⟨o, t₂, ho, hgains₂, hvalue₂⟩ := node_ofRange fuel p a b (hgains'.isInterrupted.trans hs)
  refine ⟨o, t₂, ?_, hgains'.trans hgains₂, hvalue₂⟩
  have hcallee : callee (node (fuel + 2)) (.var p.name ⟨"vector", p.ident⟩) t = .ok f t₁ := by
    have hknown : t.builtins.contains "vector" = true := by
      rw [hstandard]
      rfl
    simp only [callee, Bind.bind, EStateM.bind, Eval.read, hknown, Bool.true_or, if_true]
    exact hf
  have hargs : operands (reference (node (fuel + 2))) [.ofRange p a b] t₁ = .ok [o] t₂ := by
    simp only [operands, Node.ofRange, reference]
    rw [← Node.ofRange, bind_ok ho]
    rfl
  have hkinds : Eval.read (fun s => [o].map fun o => (s.heap.store.value o).kind) t₂ =
      .ok [.range] t₂ := by
    simp only [Eval.read, List.map_cons, List.map_nil, hvalue₂]
    rfl
  rw [ht]
  simp only [Node.ofVector, form, call]
  rw [bind_ok hcallee, bind_ok valueOf_eq, hvalue₁]
  dsimp only
  rw [bind_ok hargs, callBuiltin, bind_ok hkinds]
  rfl

/-- The vector that is made of a range is made of new objects. -/
theorem rangeVector_eq {R : Pairing} {r : IntRange} (span : Option Span)
    (ht : t.Renamed (fun _ => True) R t) (ho : t.heap.store.value o = .atom (.range r))
    (hr : r.length ≤ maxSequenceLength) :
    ∃ o' u es S, rangeVector o span t = .ok o' u ∧ t.Gains u (.vector (rangeTrees r) : Tree).nodes ∧
      u.heap.store.value o' = .vector es ∧ Private (fun _ => True) R S u u es.toList es.toList ∧
      Unfolds u es.toList (rangeTrees r) := by
  have hbuild : rangeVector o span t = build (.vector (rangeTrees r)) t := by
    rw [rangeVector, bind_ok valueOf_eq, ho]
    simp only [IntRange.boundedLength?, if_pos hr]
  have hallowed : (Tree.vector (rangeTrees r)).Every (Atom.Allowed fun _ => True) := by
    refine Tree.everyOf_iff.mpr fun t ht => ?_
    obtain ⟨k, -, rfl⟩ := List.mem_map.mp ht
    trivial
  obtain ⟨S, hgrow, hst, hpair⟩ := build_renamed _ hallowed ht
  obtain ⟨hadds, hnew⟩ := t.heap.adds_build _ hallowed
  have hprivate := Private.of_adds ht hgrow hst (.cons hpair .nil) hadds (by simpa using hnew) hadds
    (by simpa using hnew)
  obtain ⟨es, hes, hts⟩ :=
    hst.store.left.closed.tree?_vector (hst.store.has hpair).1 (Heap.tree?_build _ _)
  exact ⟨(t.heap.build (.vector (rangeTrees r))).1,
    t.withHeap (t.heap.build (.vector (rangeTrees r))).2, es, S, hbuild,
    ⟨rfl, (t.heap.laid_build _).2.2.2, (t.heap.laid_build _).2.1, fun _ => hst.store.left⟩, hes,
    hprivate.inside hes hes, hts⟩

/-- A range of too many integers is refused before any of them is made. -/
theorem rangeVector_refused {r : IntRange} (span : Option Span)
    (ho : s.heap.store.value o = .atom (.range r)) (hr : maxSequenceLength < r.length) :
    ∃ e : Error, e.kind = .valueOutOfRange ∧ rangeVector o span s = .error (.raised e) s := by
  rw [rangeVector, bind_ok valueOf_eq, ho]
  simp only [IntRange.boundedLength?, if_neg (Nat.not_le.mpr hr)]
  exact ⟨_, rfl, rfl⟩

/-! ### The two loops -/

/-- A loop over a range, once the range has been found. -/
theorem node_loop_ofRange (fuel : Nat) (span : Option Span) (p : RangeSpans) (a b : Int64)
    (iterator body : Node) (hs : s.isInterrupted = false) :
    ∃ o t, s.Gains t 3 ∧ t.heap.store.value o = .atom (.range ⟨a, b⟩) ∧
      node (fuel + 4) (.forLoop span iterator (.ofRange p a b) body) s =
        loopFrom (node (fuel + 3)) iterator (.ofRange p a b) body o t := by
  obtain ⟨t, ht, hgains⟩ := node_eq (fuel + 3) (.forLoop span iterator (.ofRange p a b) body) hs
  obtain ⟨o, u, ho, hgains', hvalue⟩ :=
    node_ofRange (fuel + 1) p a b (hgains.isInterrupted.trans hs)
  exact ⟨o, u, hgains.trans hgains', hvalue, ht.trans (bind_ok ho)⟩

/-- A loop over the vector of a range, once the range has been found. -/
theorem node_loop_ofVector (fuel : Nat) (span : Option Span) (p : RangeSpans) (a b : Int64)
    (iterator body : Node) (hs : s.isInterrupted = false) (hbuiltins : s.builtins = .standard) :
    ∃ o t, s.Gains t 4 ∧ t.heap.store.value o = .atom (.range ⟨a, b⟩) ∧
      node (fuel + 4) (.forLoop span iterator (.ofVector p a b) body) s =
        (rangeVector o p.call >>=
          loopFrom (node (fuel + 3)) iterator (.ofVector p a b) body) t := by
  obtain ⟨t, ht, hgains⟩ := node_eq (fuel + 3) (.forLoop span iterator (.ofVector p a b) body) hs
  obtain ⟨o, u, ho, hgains', hvalue⟩ :=
    node_ofVector fuel p a b (hgains.isInterrupted.trans hs) (hgains.builtins.trans hbuiltins)
  refine ⟨o, u, hgains.trans hgains', hvalue, ht.trans ?_⟩
  show (node (fuel + 3) (.ofVector p a b) >>=
    loopFrom (node (fuel + 3)) iterator (.ofVector p a b) body) t = _
  simp only [Bind.bind, EStateM.bind, ho]

/-- A loop over a range and one over private objects with the trees of its integers end alike. -/
theorem ended_loopFrom {R S : Pairing} {fuel : Nat}
    {iterator body iterable iterable' : Node} {o' : ObjectId} {r : IntRange} {es : Array ObjectId}
    (hst : s.Renamed (fun _ => True) R t)
    (ho : s.heap.store.value o = .atom (.range r)) (ho' : t.heap.store.value o' = .vector es)
    (hes : Private (fun _ => True) R S t t es.toList es.toList)
    (hts : Unfolds t es.toList (rangeTrees r)) :
    Ended (fun _ => True) R s t Paired (loopFrom (node fuel) iterator iterable body o s)
      (loopFrom (node fuel) iterator iterable' body o' t) := by
  rw [loopFrom_range ho, loopFrom_vector ho']
  have hsame : around iterator body (fun fresh =>
        forElements (iterate (node fuel) iterator body fresh) es.toList) t =
      around iterator body (fun fresh =>
        forRange (iterate (node fuel) iterator body fresh) r.length r.start.toInt) t := by
    refine bind_congr_of_ok rfl fun fresh u hu => bind_congr_of_ok ?_ fun _ _ _ => rfl
    obtain ⟨R', S', hes', hts', -, hsteady⟩ :=
      hes.onward (parallel_beginLoop iterator body t t hes.base) hu hts
    dsimp only
    rw [forElements_eq (stepping_iterate hsteady) hes' hts', forRange_eq]
    rfl
  rw [hsame]
  refine Parallel.bind (parallel_beginLoop iterator body)
    (fun R' fresh _ _ ⟨hfresh, hsteady⟩ => ?_) s t hst
  cases hfresh
  exact (Parallel.forRange (stepping_iterate hsteady)).andThen fun _ _ _ => .closeLoop

theorem node_interrupted (fuel : Nat) (n : Node) (hs : s.isInterrupted = true) :
    node (fuel + 1) n s = .error (.raised { kind := .interrupted, span := n.span }) s := by
  have hcheck : checkInterrupt n.span s =
      .error (.raised { kind := .interrupted, span := n.span }) s := by
    simp only [checkInterrupt, Bind.bind, EStateM.bind, Eval.read, hs]
    rfl
  exact bind_error hcheck

end Eval

/-- It makes no difference whether a loop goes through a range or through the vector of its
integers: the values are the same up to the numbers of objects, or the errors are, and so are the
states, with their output and all that is bound. A range of too many integers makes no vector: the
loop over it fails before its body runs and before any integer is made, when there are only the
builtin, the two ends and the range. -/
theorem range_loops_agree {s : State} (hs : s.WellFormed) (fuel : Nat) (span : Option Span)
    (p : RangeSpans) (a b : Int64) (iterator body : Node) :
    ((b.toInt - a.toInt).toNat ≤ maxSequenceLength ∨ s.isInterrupted = true →
      Ended (fun _ => True) s.inReach s s Paired
        (node (fuel + 4) (.forLoop span iterator (.ofRange p a b) body) s)
        (node (fuel + 4) (.forLoop span iterator (.ofVector p a b) body) s)) ∧
    (maxSequenceLength < (b.toInt - a.toInt).toNat → s.isInterrupted = false →
      ∃ e t, e.kind = .valueOutOfRange ∧ s.Gains t 4 ∧
        node (fuel + 4) (.forLoop span iterator (.ofVector p a b) body) s =
          .error (.raised e) t) := by
  have hR := hs.renamed
  cases hinterrupted : s.isInterrupted with
  | true =>
    refine ⟨fun _ => ?_, nofun⟩
    rw [node_interrupted _ _ hinterrupted, node_interrupted _ _ hinterrupted]
    exact ⟨rfl, s.inReach, .refl, hR⟩
  | false =>
    obtain ⟨o, t, ht, hvalue, hrange⟩ :=
      node_loop_ofRange fuel span p a b iterator body hinterrupted
    obtain ⟨o', t', ht', hvalue', hvector⟩ :=
      node_loop_ofVector fuel span p a b iterator body hinterrupted hs.builtins
    constructor
    · intro hlength
      have hshort := hlength.resolve_right nofun
      obtain ⟨v, u, es, S, hv, hu, hes, hprivate, hts⟩ :=
        rangeVector_eq p.call (hR.gains ht' ht').1 hvalue' hshort
      obtain ⟨hst, hgrow⟩ := hR.gains ht (ht'.trans hu)
      rw [hrange, hvector, bind_ok hv]
      exact .after hgrow (ended_loopFrom hst hvalue hes hprivate hts)
    · intro hlength _
      obtain ⟨e, hkind, he⟩ := rangeVector_refused p.call hvalue' hlength
      exact ⟨e, t', hkind, ht', by rw [hvector, bind_error he]⟩

/-- A variable that is bound to a vector of two numbers. -/
def pairBound : Host :=
  ((Host.eval (.letVar none ⟨"v", none⟩ none
    (some (.list none [.literal none (.int 1), .literal none (.int 2)])))).run
      (Moment.start {} .standard).host).2

/-- A body that makes the vector longer. -/
def appendItem : Node :=
  .block none
    [.call none (.var none ⟨"append", none⟩) [.var none ⟨"v", none⟩, .var none ⟨"x", none⟩]]

/-- A loop that appends what it goes through to a vector. -/
def appending (iterable : Node) : Node := .forLoop none (.var none ⟨"x", none⟩) iterable appendItem

theorem range_loops_agree_appending :
    pairBound.state.WellFormed ∧
      (((node 7 (appending (.ofVector {} 3 5))).after pairBound.state).heap.store.value 2).length? =
        some 4 ∧
      Ended (fun _ => True) pairBound.state.inReach pairBound.state pairBound.state Paired
        (node 7 (appending (.ofRange {} 3 5)) pairBound.state)
        (node 7 (appending (.ofVector {} 3 5)) pairBound.state) ∧
      ∃ e t, e.kind = .valueOutOfRange ∧ pairBound.state.Gains t 4 ∧
        node 7 (appending (.ofVector {} Int64.minValue Int64.maxValue)) pairBound.state =
          .error (.raised e) t := by
  have hformed : pairBound.state.WellFormed := (Host.Evaluates.eval .start _).proper.wellFormed
  obtain ⟨hagree, -⟩ := range_loops_agree hformed 3 none {} 3 5 (.var none ⟨"x", none⟩) appendItem
  obtain ⟨-, hfails⟩ :=
    range_loops_agree hformed 3 none {} Int64.minValue Int64.maxValue
      (.var none ⟨"x", none⟩) appendItem
  exact ⟨hformed, by decide +kernel, hagree (.inl (by decide)),
    hfails (by decide +kernel) (by decide +kernel)⟩

end Scripting
