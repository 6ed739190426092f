import Mathlib.Data.List.Forall2
import Mathlib.Tactic.Common
import Scripting.Proofs.Eval.Step
import Scripting.Proofs.Renaming.Parallel
import Scripting.Proofs.Store.Copies

/-! Calls of builtins: what signatures let through, that no builtin of the prelude asks for an
argument it has not got, and what printing writes. -/
namespace Scripting

/-! ### Signatures -/

theorem firstMismatch?_eq_none_iff {expected found : List Kind}
    (h : expected.length ≤ found.length) :
    firstMismatch? expected found = none ↔ expected <+: found := by
  induction expected generalizing found with
  | nil => simp [firstMismatch?]
  | cons e expected ih =>
    cases found with
    | nil => simp at h
    | cons f found =>
      have hlength : expected.length ≤ found.length := by simpa using h
      rw [List.cons_prefix_cons, ← ih hlength]
      by_cases he : e = f <;> simp [firstMismatch?, he]

/-- A signature lets through arguments that begin with its fixed kinds; more follow only if it is
variadic. -/
theorem checkSignature_eq_ok_iff {signature found : List Kind} {span : Option Span} :
    checkSignature signature found span = .ok () ↔ fixedKinds signature <+: found ∧
      (isVariadic signature = true ∨ found.length = (fixedKinds signature).length) := by
  simp only [checkSignature]
  by_cases hfew : found.length < (fixedKinds signature).length
  · refine iff_of_false (by simp [hfew]) fun h => ?_
    have := h.1.length_le
    omega
  · have hprefix := firstMismatch?_eq_none_iff (Nat.le_of_not_lt hfew)
    rw [if_neg hfew]
    split
    · next hmany =>
      refine iff_of_false (by simp) fun h => ?_
      rcases h.2 with hvariadic | heq
      · exact hmany.2 hvariadic
      · omega
    · next hmany =>
      have hrest : isVariadic signature = true ∨ found.length = (fixedKinds signature).length := by
        by_cases hvariadic : isVariadic signature = true
        · exact .inl hvariadic
        · refine .inr ?_
          have := not_and.mp hmany
          by_contra hne
          exact this (by omega) hvariadic
      simp only [hrest, and_true, ← hprefix]
      split
      · next heq => simp [heq]
      · next heq => simp [heq]

theorem checkSignature_variadic (fixed found : List Kind) (span : Option Span) :
    checkSignature (fixed ++ [.args]) (fixed ++ found) span = .ok () :=
  checkSignature_eq_ok_iff.mpr ⟨by simp [fixedKinds], .inl (by simp [isVariadic])⟩

namespace Builtin

def print : Builtin := ⟨"print", [.args], .print⟩

def println : Builtin := ⟨"println", [.args], .println⟩

def printf : Builtin := ⟨"printf", [.string, .args], .printf⟩

def format : Builtin := ⟨"format", [.string, .args], .format⟩

def abs : Builtin := ⟨"abs", [.int], .abs⟩

def append : Builtin := ⟨"append", [.vector, .args], .append⟩

def vector : Builtin := ⟨"vector", [.range], .vector⟩

end Builtin

theorem Builtins.prelude_eq : Builtins.prelude =
    [.print, .println, .printf, .format, .abs, .append, .vector] := rfl

namespace Eval

variable {b : Builtin} {args : List ObjectId} {span : Option Span} {s : State} {o : ObjectId}

/-- The kinds of arguments, as a signature sees them. -/
def kindsOf (s : State) (args : List ObjectId) : List Kind :=
  args.map fun o => (s.heap.store.value o).kind

theorem callBuiltin_of_ok (h : checkSignature b.signature (kindsOf s args) span = .ok ()) :
    callBuiltin b args span s = applyPrimitive b.primitive args span s := by
  simp only [callBuiltin, Bind.bind, EStateM.bind, Eval.read]
  rw [kindsOf] at h
  rw [h]
  rfl

theorem callBuiltin_of_error {e : Error}
    (h : checkSignature b.signature (kindsOf s args) span = .error e) :
    callBuiltin b args span s = .error (.raised e) s := by
  simp only [callBuiltin, Bind.bind, EStateM.bind, Eval.read]
  rw [kindsOf] at h
  rw [h]
  rfl

/-! ### Arguments that are not there -/

/-- The first argument. Where there is none, the call stops as told. -/
def firstOr (outside : Stop) : List ObjectId → Eval ObjectId
  | [] => throw outside
  | o :: _ => pure o

/-- The arguments from the second on. -/
def restOr (outside : Stop) : List ObjectId → Eval (List ObjectId)
  | [] => throw outside
  | _ :: os => pure os

/-- Rendering, told how to stop where an argument is asked for that is not there. -/
def renderOr (outside : Stop) (args : List ObjectId) (span : Option Span) : Eval String := do
  let template ← firstOr outside args
  match ← valueOf template with
  | .atom (.string s) =>
    let rest ← restOr outside args
    let texts ← textsOf (rest.take (placeholders s.toList))
    match fillTemplate "" s.toList texts with
    | some text => pure text
    | none =>
      raise (.hinted .tooFewArguments span "more `\x7b\x7d` placeholders than arguments")
  | _ => illegalCall span

/-- Applying a builtin, told how to stop where an argument is asked for that is not there. -/
def applyPrimitiveOr (outside : Stop) (p : Primitive) (args : List ObjectId) (span : Option Span) :
    Eval ObjectId :=
  match p with
  | .printf => do
    let text ← renderOr outside args span
    write text
    allocAtom (.int (.ofNat text.length))
  | .format => do allocAtom (.string (← renderOr outside args span))
  | .abs => do
    let o ← firstOr outside args
    match (← valueOf o).int? with
    | some n => allocAtom (.int (← ofExcept (exactInt n.toInt.natAbs span)))
    | none => illegalCall span
  | .append =>
    if args.length < 2 then raise (.hinted .tooFewArguments span "nothing to append")
    else do
      let items ← restOr outside args
      let copies ← copyAll items
      let target ← firstOr outside args
      match ← valueOf target with
      | .vector es =>
        setValue target (.vector (es ++ copies))
        copy target
      | _ => illegalCall span
  | .vector => do
    let o ← firstOr outside args
    rangeVector o span
  | p => applyPrimitive p args span

/-- Calling a builtin, told how to stop where an argument is asked for that is not there. -/
def callBuiltinOr (outside : Stop) (b : Builtin) (args : List ObjectId) (span : Option Span) :
    Eval ObjectId := do
  let kinds ← read fun s => args.map fun o => (s.heap.store.value o).kind
  ofExcept (checkSignature b.signature kinds span)
  applyPrimitiveOr outside b.primitive args span

/-- The builtins themselves stop as for an illegal call. -/
theorem applyPrimitiveOr_illegal (p : Primitive) (args : List ObjectId) (span : Option Span) :
    applyPrimitiveOr (.raised { kind := .illegalCall, span }) p args span =
      applyPrimitive p args span := by
  cases p with
  | append => rcases args with _ | ⟨_, _ | ⟨_, _⟩⟩ <;> rfl
  | printf | format | abs | vector => cases args <;> rfl
  | _ => rfl

/-- With a first argument at hand no builtin asks in vain. -/
theorem applyPrimitiveOr_cons (outside : Stop) (p : Primitive) (o : ObjectId) (args : List ObjectId)
    (span : Option Span) :
    applyPrimitiveOr outside p (o :: args) span = applyPrimitive p (o :: args) span := by
  cases p with
  | append => cases args <;> rfl
  | _ => rfl

/-- What a signature of the prelude lets through has every argument that is asked for. -/
theorem callBuiltinOr_eq (outside : Stop) (hb : b ∈ Builtins.prelude) (args : List ObjectId)
    (span : Option Span) : callBuiltinOr outside b args span = callBuiltin b args span := by
  cases args with
  | cons o args => simp only [callBuiltinOr, callBuiltin, applyPrimitiveOr_cons]
  | nil =>
    rw [Builtins.prelude_eq] at hb
    simp only [List.mem_cons, List.not_mem_nil, or_false] at hb
    rcases hb with rfl | rfl | rfl | rfl | rfl | rfl | rfl <;> rfl

end Eval

/-! ### Texts -/

namespace Store

open Relation

/-- An object that is there, and nothing inside it is inside itself: it can be printed and
copied. -/
def Grounded (s : Store) (o : ObjectId) : Prop :=
  s.Has o ∧ ∀ q, ReflTransGen s.Contains o q → ¬ TransGen s.Contains q q

/-- What printing an object shows. -/
def Shows (s : Store) (o : ObjectId) (text : String) : Prop :=
  ∃ x, s.tree? o = some x ∧ x.text = text

theorem Closed.exists_trees {s : Store} {os : List ObjectId} (h : s.Closed)
    (hos : ∀ o ∈ os, s.Grounded o) :
    ∃ xs, List.Forall₂ (fun o x => s.tree? o = some x) os xs := by
  induction os with
  | nil => exact ⟨[], .nil⟩
  | cons o os ih =>
    obtain ⟨ho, hacyclic⟩ := hos o (by simp)
    obtain ⟨x, hx⟩ := h.exists_tree ho hacyclic
    obtain ⟨xs, hxs⟩ := ih fun q hq => hos q (List.mem_cons_of_mem _ hq)
    exact ⟨x :: xs, .cons hx hxs⟩

theorem Closed.exists_texts {s : Store} {os : List ObjectId} (h : s.Closed)
    (hos : ∀ o ∈ os, s.Grounded o) :
    ∃ texts, List.Forall₂ s.Shows os texts := by
  obtain ⟨xs, hxs⟩ := h.exists_trees hos
  exact ⟨xs.map Tree.text, List.forall₂_map_right_iff.mpr (hxs.imp fun _ x hx => ⟨x, hx, rfl⟩)⟩

/-- Objects that hold only older ones are not inside themselves. -/
theorem grounded_of_older {s : Store}
    (h : ∀ c < s.next, ∀ o ∈ (s.value c).elements, o < c ∧ s.Has o) :
    s.Closed ∧ ∀ o, s.Has o → s.Grounded o := by
  have hstep : ∀ c o, s.Contains c o → o < c ∧ s.Has o := by
    intro c o hin
    refine h c ?_ o hin
    by_contra hge
    rw [Contains, value_of_next_le (Nat.le_of_not_lt hge)] at hin
    simp [Value.elements, Value.none] at hin
  have hpath : ∀ {c o}, TransGen s.Contains c o → o < c := by
    intro c o hin
    induction hin with
    | single hin => exact (hstep _ _ hin).1
    | tail _ hin ih => exact Nat.lt_trans (hstep _ _ hin).1 ih
  exact ⟨fun c o hin => (hstep c o hin).2,
    fun o ho => ⟨ho, fun q _ hq => Nat.lt_irrefl q (hpath hq)⟩⟩

end Store

/-- The text has been written, unless the sink is closed, and that is all. -/
structure State.Wrote (s : State) (text : String) (s' : State) : Prop where
  sink : s'.sink = if s.sink.isClosed then s.sink else { s.sink with text := s.sink.text ++ text }
  log : s.sink.isClosed = false → s'.log = s.log
  others : s' = { s with sink := s'.sink, log := s'.log }

namespace State.Wrote

variable {s s' s'' : State} {a b : String}

theorem nothing (s : State) : s.Wrote "" s := ⟨by simp, fun _ => rfl, rfl⟩

theorem isClosed (h : s.Wrote a s') : s'.sink.isClosed = s.sink.isClosed := by
  rw [h.sink]
  split <;> rfl

theorem heap (h : s.Wrote a s') : s'.heap = s.heap := by
  rw [h.others]

theorem trans (h : s.Wrote a s') (h' : s'.Wrote b s'') : s.Wrote (a ++ b) s'' where
  sink := by
    rw [h'.sink, h.isClosed, h.sink]
    split
    · rfl
    · rw [String.append_assoc]
  log := fun hopen => (h'.log (h.isClosed.trans hopen)).trans (h.log hopen)
  others := by
    rw [h'.others, h.others]

end State.Wrote

/-- The text has been written, the number of its characters is in a new object, and that is all. -/
structure State.Printed (s : State) (text : String) (o : ObjectId) (s' : State) : Prop where
  wrote : s.Wrote text (s'.withHeap s.heap)
  heap : s'.heap = (s.heap.alloc (.atom (.int (.ofNat text.length)))).2
  new : o = s.heap.store.next
  count : text.length < 2 ^ 63 → ∃ n, s'.heap.store.value o = .atom (.int n) ∧ n.toInt = text.length

theorem State.Wrote.printed {s s' : State} {text : String} (h : s.Wrote text s') :
    s.Printed text s'.heap.store.next
      (s'.withHeap (s'.heap.alloc (.atom (.int (.ofNat text.length)))).2) where
  wrote := by
    rw [← h.heap]
    exact h
  heap := by rw [← h.heap, State.withHeap]
  new := by rw [h.heap]
  count := fun hlt => ⟨_, Heap.value_alloc, Int64.toInt_ofNat_of_lt hlt⟩

namespace Eval

variable {s : State} {o : ObjectId} {os : List ObjectId} {text : String} {texts : List String}

theorem textOf_eq (h : s.heap.store.Shows o text) : textOf o s = .ok text s := by
  obtain ⟨x, hx, rfl⟩ := h
  rw [textOf, bind_ok (treeOf_eq hx)]
  rfl

theorem textsOf_eq (h : List.Forall₂ s.heap.store.Shows os texts) : textsOf os s = .ok texts s := by
  induction h with
  | nil => rfl
  | cons ho _ ih =>
    rw [textsOf, bind_ok (textOf_eq ho), bind_ok ih]
    rfl

theorem write_eq (text : String) (s : State) :
    ∃ s', write text s = .ok () s' ∧ s.Wrote text s' := by
  cases hempty : text.isEmpty with
  | true =>
    refine ⟨s, by rw [write, if_pos hempty]; rfl, ?_⟩
    rw [String.isEmpty_iff.mp hempty]
    exact .nothing s
  | false =>
    have hsplit : write text s = (if s.sink.isClosed then record (.outputFailed Sink.refusal)
        else modify fun s => { s with sink := { s.sink with text := s.sink.text ++ text } }) s := by
      rw [write, if_neg (by simp [hempty])]
      rfl
    rw [hsplit]
    by_cases hclosed : s.sink.isClosed
    · rw [if_pos hclosed]
      exact ⟨_, rfl, by simp [hclosed], by simp [hclosed], rfl⟩
    · rw [if_neg hclosed]
      exact ⟨_, rfl, by simp [hclosed], fun _ => rfl, rfl⟩

theorem writeAll_eq (h : List.Forall₂ s.heap.store.Shows os texts) (n : Nat) :
    ∃ s', writeAll os n s = .ok (n + (String.join texts).length) s' ∧
      s.Wrote (String.join texts) s' := by
  induction os generalizing s texts n with
  | nil =>
    cases h
    exact ⟨s, rfl, .nothing s⟩
  | cons o os ih =>
    obtain ⟨text, texts, ho, hos, rfl⟩ := List.forall₂_cons_left_iff.mp h
    obtain ⟨s₁, hwrite, hwrote⟩ := write_eq text s
    -- writing leaves the objects as they are, so the rest shows what it did
    obtain ⟨s₂, hrest, hwrotes⟩ := ih (hwrote.heap ▸ hos) (n + text.length)
    refine ⟨s₂, ?_, ?_⟩
    · rw [writeAll, bind_ok (textOf_eq ho), bind_ok hwrite, hrest, String.join_cons,
        String.length_append, Nat.add_assoc]
    · rw [String.join_cons]
      exact hwrote.trans hwrotes

theorem allocAtom_eq (a : Atom) (s : State) :
    allocAtom a s = .ok s.heap.store.next (s.withHeap (s.heap.alloc (.atom a)).2) := rfl

theorem callBuiltin_print (h : List.Forall₂ s.heap.store.Shows os texts) (span : Option Span) :
    ∃ o s', callBuiltin .print os span s = .ok o s' ∧ s.Printed (String.join texts) o s' := by
  obtain ⟨s₁, hwrite, hwrote⟩ := writeAll_eq h 0
  refine ⟨_, _, ?_, hwrote.printed⟩
  rw [callBuiltin_of_ok (checkSignature_variadic [] _ span)]
  change (writeAll os 0 >>= fun n => allocAtom (.int (.ofNat n))) s = _
  rw [bind_ok hwrite, Nat.zero_add, allocAtom_eq]

theorem callBuiltin_println (h : List.Forall₂ s.heap.store.Shows os texts) (span : Option Span) :
    ∃ o s', callBuiltin .println os span s = .ok o s' ∧
      s.Printed (String.join texts ++ "\n") o s' := by
  obtain ⟨s₁, hwrite, hwrote⟩ := writeAll_eq h 0
  obtain ⟨s₂, hline, hended⟩ := write_eq "\n" s₁
  refine ⟨_, _, ?_, (hwrote.trans hended).printed⟩
  rw [callBuiltin_of_ok (checkSignature_variadic [] _ span)]
  change (writeAll os 0 >>= fun n => write "\n" >>= fun _ =>
    allocAtom (.int (.ofNat (n + 1)))) s = _
  rw [bind_ok hwrite, bind_ok hline, Nat.zero_add, allocAtom_eq, String.length_append]
  rfl

end Eval
end Scripting
