import Mathlib.Tactic.Common
import Scripting.Proofs.Builtin.Effects
import Scripting.Proofs.Eval.Places
import Scripting.Proofs.Operator.Repetition

/-! How long the strings and vectors are that one step builds. Repetition and the elements of a
range are held to the limit on lengths. Sums, templates and growing vectors are not, so that a step
can go beyond it. -/
namespace Scripting

/-! ### Lengths -/

/-- The length of a string or a vector. -/
def Value.extent? : Value → Option Nat
  | .atom (.string s) => some s.length
  | .vector es => some es.size
  | _ => Option.none

def Tree.extent? : Tree → Option Nat
  | .atom (.string s) => some s.length
  | .vector ts => some ts.length
  | _ => Option.none

theorem Store.extent?_of_tree? {s : Store} {o : ObjectId} {x : Tree} (h : s.tree? o = some x) :
    (s.value o).extent? = x.extent? := by
  rw [Store.tree?] at h
  cases hdepth : s.objects.size with
  | zero =>
    rw [hdepth] at h
    cases h
  | succ depth =>
    rw [hdepth, Store.unfold_succ_iff] at h
    obtain ⟨a, hv, rfl⟩ | ⟨es, xs, hv, -, rfl⟩ | ⟨es, xs, hv, hxs, rfl⟩ := h
    · rw [hv]
      cases a <;> rfl
    · rw [hv]
      rfl
    · rw [hv]
      exact congrArg some (by simpa using hxs.length_eq)

theorem Heap.size_buildAll (h : Heap) (xs : List Tree) :
    (h.buildAll #[] xs).1.size = xs.length := by
  have hlaid := (h.laidAll_buildAll xs).2.1
  simpa using (hlaid.unfold xs (Nat.le_refl _)).length_eq

/-- A template has as many characters when it is filled as its pieces and the texts have. -/
theorem length_fill (first : List Char) {rest : List (List Char)} {texts : List String}
    (h : texts.length = rest.length) :
    (fill first rest texts).length =
      first.length + (rest.map List.length).sum + (texts.map String.length).sum := by
  have hjoin : ∀ {rest : List (List Char)} {texts : List String}, texts.length = rest.length →
      (String.join (List.zipWith (fun t p => t ++ String.ofList p) texts rest)).length =
        (rest.map List.length).sum + (texts.map String.length).sum := by
    intro rest
    induction rest with
    | nil =>
      intro texts h
      rw [List.length_eq_zero_iff.mp h]
      rfl
    | cons p rest ih =>
      intro texts h
      cases texts with
      | nil => cases h
      | cons t texts =>
        have hrest := ih (Nat.succ.inj h)
        simp only [List.zipWith_cons_cons, String.join_cons, String.length_append,
          String.length_ofList, List.map_cons, List.sum_cons, hrest]
        omega
  rw [fill, String.length_append, String.length_ofList, hjoin h, Nat.add_assoc]

/-! ### Steps that build -/

/-- A step that may build a string or a vector. -/
inductive Construction where
  | operator (op : BinaryOp) (l r : ObjectId)
  | format (args : List ObjectId)
  | append (args : List ObjectId)
  | vector (args : List ObjectId)

namespace Construction

/-- What a binary operation does once its operands are evaluated, or what a builtin does. -/
def run (c : Construction) (span : Option Span) : Eval ObjectId :=
  match c with
  | .operator op l r => do
    let v ← Eval.compute op (← Eval.valueOf l) (← Eval.valueOf r) span
    Eval.alloc v
  | .format args => Eval.callBuiltin .format args span
  | .append args => Eval.callBuiltin .append args span
  | .vector args => Eval.callBuiltin .vector args span

/-- The objects whose values the step has built. Appending also builds the vector that grows. -/
def built (c : Construction) (o : ObjectId) : List ObjectId :=
  match c with
  | .append args => o :: args.head?.toList
  | _ => [o]

/-- Whether the step looks at the length of what it builds. -/
def isChecked : Construction → Bool
  | .operator op _ _ => op = .mul
  | .vector _ => true
  | .format _ | .append _ => false

/-- How long the string or the vector is that the step has to build. -/
inductive Builds (s : Store) : Construction → Nat → Prop
  | repetition {l r : ObjectId} {t : String} {n : Int64} (hl : s.value l = .atom (.string t))
      (hr : s.value r = .atom (.int n)) (hn : 0 ≤ n.toInt) :
      Builds s (.operator .mul l r) (t.length * n.toInt.toNat)
  | repetitionLeft {l r : ObjectId} {t : String} {n : Int64} (hl : s.value l = .atom (.int n))
      (hr : s.value r = .atom (.string t)) (hn : 0 ≤ n.toInt) :
      Builds s (.operator .mul l r) (t.length * n.toInt.toNat)
  | text {l r : ObjectId} {t u : String} (hl : s.value l = .atom (.string t))
      (hr : s.value r = .atom (.string u)) : Builds s (.operator .add l r) (t.length + u.length)
  | elements {l r : ObjectId} {es fs : Array ObjectId} (hl : s.value l = .vector es)
      (hr : s.value r = .vector fs) : Builds s (.operator .add l r) (es.size + fs.size)
  | filled {template : ObjectId} {args : List ObjectId} {text : String} {first : List Char}
      {rest : List (List Char)} {texts : List String}
        (htemplate : s.value template = .atom (.string text))
      (hcut : Cut text.toList first rest) (hargs : rest.length ≤ args.length)
      (htexts : List.Forall₂ s.Shows (args.take rest.length) texts) :
      Builds s (.format (template :: args))
        (first.length + (rest.map List.length).sum + (texts.map String.length).sum)
  | grown {target item : ObjectId} {items : List ObjectId} {es : Array ObjectId}
      (htarget : s.value target = .vector es) :
      Builds s (.append (target :: item :: items)) (es.size + (items.length + 1))
  | range {o : ObjectId} {r : IntRange} (ho : s.value o = .atom (.range r)) :
      Builds s (.vector [o]) r.length

/-- The step builds nothing that is too long, and where it would have to it is refused and nothing
happens. -/
structure KeepsLimit (c : Construction) (span : Option Span) (s : State) : Prop where
  short : ∀ o s', c.run span s = .ok o s' → ∀ q ∈ c.built o, ∀ n,
    (s'.heap.store.value q).extent? = some n → n ≤ maxSequenceLength
  refused : ∀ n, c.Builds s.heap.store n → maxSequenceLength < n →
    ∃ e, e.kind = .valueOutOfRange ∧ c.run span s = .error (.raised e) s

end Construction

/-! ### Operators -/

namespace Eval

variable {s s' : State} {op : BinaryOp} {a b : Atom} {l r v : Value} {span : Option Span} {n : Nat}

theorem value_of_alloc {o : ObjectId} (h : alloc v s = .ok o s') : s'.heap.store.value o = v := by
  cases h
  exact Heap.value_alloc

/-- A string comes only from a repetition or from two strings. -/
theorem compute_eq_string {t : String} (h : Atom.compute op a b span = .ok (.string t)) :
    (op = .mul ∧ ∃ u k, (a = .string u ∧ b = .int k ∨ a = .int k ∧ b = .string u) ∧
      repeatString u k span = .ok t) ∨
    (op = .add ∧ ∃ u w, a = .string u ∧ b = .string w ∧ t = u ++ w) := by
  have hmap : ∀ {α : Type} {x : Except Error α} {f : α → Atom}, x.map f = .ok (.string t) →
      ∃ y, x = .ok y ∧ f y = .string t := by
    intro α x f hx
    cases x with
    | error e => cases hx
    | ok y => exact ⟨y, rfl, Except.ok.inj hx⟩
  unfold Atom.compute at h
  split at h
  case h_5 u k | h_6 k u =>
    split at h
    · next hop =>
      obtain ⟨y, hy, heq⟩ := hmap h
      cases heq
      exact .inl ⟨hop, u, k, by simp, hy⟩
    · cases h
  case h_7 u w =>
    split at h
    · next hop =>
      cases h
      exact .inr ⟨hop, u, w, rfl, rfl, rfl⟩
    · cases h
  case h_8 => split at h <;> cases h
  case h_9 => split at h <;> cases h
  all_goals
    obtain ⟨y, -, heq⟩ := hmap h
    cases heq

theorem length_of_repeatString {t u : String} {k : Int64} (h : repeatString u k span = .ok t) :
    0 ≤ k.toInt ∧ t.length = u.length * k.toInt.toNat := by
  unfold repeatString at h
  split at h
  · cases h
  · next hneg =>
    split at h
    · cases h
      refine ⟨Int.not_lt.mp fun hlt => hneg (Int64.lt_iff_toInt_lt.mpr hlt), length_repeated u _⟩
    · cases h

/-- Copies are as many as what is copied, if they can be made. -/
theorem copyAll_of_length (os : List ObjectId) (s : State) :
    (∃ es t, copyAll os s = .ok es t ∧ es.size = os.length) ∨
      copyAll os s = .error .exhausted s := by
  rcases copyAll_cases os s with ⟨xs, hxs, hcopies⟩ | hnone
  · exact .inl ⟨_, _, hcopies, by rw [Heap.size_buildAll, hxs.length_eq]⟩
  · exact .inr hnone

end Eval

namespace Construction

open Eval

variable {s s' : State} {c : Construction} {op : BinaryOp} {l r o q : ObjectId} {v : Value}
  {span : Option Span} {n : Nat} {args : List ObjectId}

theorem builds_of_compute
    (h : compute op (s.heap.store.value l) (s.heap.store.value r) span s = .ok v s')
    (hn : v.extent? = some n) : Builds s.heap.store (.operator op l r) n := by
  cases hl : s.heap.store.value l with
  | tuple es =>
    rw [hl] at h
    simp only [compute] at h
    split at h <;> cases h
  | vector es =>
    cases hr : s.heap.store.value r with
    | vector fs =>
      rw [hl, hr] at h
      simp only [compute] at h
      split at h
      · next hop =>
        subst hop
        rcases copyAll_of_length (es ++ fs).toList s with ⟨copies, t, hcopies, hsize⟩ | hnone
        · rw [bind_ok hcopies] at h
          cases h
          cases hn
          rw [hsize, Array.length_toList, Array.size_append]
          exact .elements hl hr
        · rw [bind_error hnone] at h
          cases h
      · cases h
    | _ =>
      rw [hl, hr] at h
      simp only [compute] at h
      split at h <;> cases h
  | atom a =>
    cases hr : s.heap.store.value r with
    | atom b =>
      rw [hl, hr] at h
      cases hc : Atom.compute op a b span with
      | error e =>
        simp only [compute, hc] at h
        cases h
      | ok d =>
        simp only [compute, hc] at h
        cases h
        cases d with
        | string t =>
          cases hn
          rcases compute_eq_string hc with
            ⟨rfl, u, k, ⟨rfl, rfl⟩ | ⟨rfl, rfl⟩, hrepeat⟩ | ⟨rfl, u, w, rfl, rfl, rfl⟩
          · obtain ⟨hk, hlength⟩ := length_of_repeatString hrepeat
            rw [hlength]
            exact .repetition hl hr hk
          · obtain ⟨hk, hlength⟩ := length_of_repeatString hrepeat
            rw [hlength]
            exact .repetitionLeft hl hr hk
          · rw [String.length_append]
            exact .text hl hr
        | _ => cases hn
    | _ =>
      rw [hl, hr] at h
      simp only [compute] at h
      split at h <;> cases h

theorem builds_of_operator (h : (operator op l r).run span s = .ok o s')
    (hn : (s'.heap.store.value o).extent? = some n) : Builds s.heap.store (.operator op l r) n := by
  rw [run, bind_ok valueOf_eq, bind_ok valueOf_eq] at h
  obtain ⟨v, t, hcompute, halloc⟩ := exists_of_bind_eq_ok h
  rw [value_of_alloc halloc] at hn
  exact builds_of_compute hcompute hn

end Construction

/-! ### Builtins -/

namespace Eval

variable {s s' t : State} {b : Builtin} {args : List ObjectId} {span : Option Span} {o : ObjectId}

theorem signature_of_ok (h : callBuiltin b args span s = .ok o s') :
    checkSignature b.signature (kindsOf s args) span = .ok () := by
  cases hsignature : checkSignature b.signature (kindsOf s args) span with
  | error e =>
    rw [callBuiltin_of_error hsignature] at h
    cases h
  | ok => rfl

/-- Objects have texts all together, or finding them does not end. -/
theorem exists_texts_or (os : List ObjectId) (s : State) :
    (∃ texts, List.Forall₂ s.heap.store.Shows os texts) ∨ textsOf os s = .error .exhausted s := by
  induction os with
  | nil => exact .inl ⟨[], .nil⟩
  | cons o os ih =>
    cases ho : s.heap.store.tree? o with
    | none =>
      have hnone : textOf o s = .error .exhausted s := by
        rw [textOf, bind_error (show treeOf o s = .error .exhausted s by simp only [treeOf, ho])]
      exact .inr (by rw [textsOf, bind_error hnone])
    | some x =>
      have hshows : s.heap.store.Shows o x.text := ⟨x, ho, rfl⟩
      rcases ih with ⟨texts, htexts⟩ | hnone
      · exact .inl ⟨x.text :: texts, .cons hshows htexts⟩
      · exact .inr (by rw [textsOf, bind_ok (textOf_eq hshows), bind_error hnone])

/-- Only the arguments for which there is a placeholder need to have texts. -/
theorem render_of_shows {template : ObjectId} {text : String} {first : List Char}
    {rest : List (List Char)} {texts : List String}
    (htemplate : s.heap.store.value template = .atom (.string text))
    (hcut : Cut text.toList first rest)
    (htexts : List.Forall₂ s.heap.store.Shows (args.take rest.length) texts) (span : Option Span) :
    render (template :: args) span s =
      if rest.length ≤ texts.length then .ok (fill first rest texts) s
      else .error (.raised (unfilled span)) s := by
  rw [render, bind_ok valueOf_eq, htemplate]
  simp only [placeholders_eq, hcut.eq_cut, bind_ok (textsOf_eq htexts), fillTemplate_eq]
  by_cases hle : rest.length ≤ texts.length
  · simp only [if_pos hle, String.empty_append]
    rfl
  · simp only [if_neg hle]
    rfl

/-- Appending to a vector grows it by copies and copies it, or does not end. -/
theorem append_cases {target : ObjectId} {es : Array ObjectId}
    (hv : s.heap.store.value target = .vector es) (item : ObjectId) (items : List ObjectId)
    (span : Option Span) :
    (∃ xs x, List.Forall₂ (fun o x => s.heap.store.tree? o = some x) (item :: items) xs ∧
      (s.heap.grow target es xs).store.tree? target = some x ∧
      append (target :: item :: items) span s = .ok ((s.heap.grow target es xs).build x).1
        (s.withHeap ((s.heap.grow target es xs).build x).2)) ∨
    ∃ t, append (target :: item :: items) span s = .error .exhausted t := by
  rcases copyAll_cases (item :: items) s with ⟨xs, hxs, -⟩ | hnone
  · rw [append_eq_copy hv hxs]
    rcases copy_cases (s := s.withHeap (s.heap.grow target es xs)) (o := target) with
      ⟨x, hx, hcopy⟩ | hcopy
    · exact .inl ⟨xs, x, hxs, hx, hcopy⟩
    · exact .inr ⟨_, hcopy⟩
  · exact .inr ⟨s, by rw [append, bind_error hnone]⟩

theorem length_take_texts {rest : List (List Char)} {texts : List String}
    (h : List.Forall₂ s.heap.store.Shows (args.take rest.length) texts) :
    texts.length = min rest.length args.length := by
  rw [← h.length_eq, List.length_take]

end Eval

namespace Construction

open Eval

variable {s s' : State} {c : Construction} {o q : ObjectId} {span : Option Span} {n : Nat}
  {args : List ObjectId}

theorem builds_of_format (h : (format args).run span s = .ok o s')
    (hn : (s'.heap.store.value o).extent? = some n) : Builds s.heap.store (.format args) n := by
  rw [run, callBuiltin_of_ok (signature_of_ok h)] at h
  obtain ⟨text, t, hrender, halloc⟩ := exists_of_bind_eq_ok h
  rw [value_of_alloc halloc] at hn
  cases hn
  cases args with
  | nil => cases hrender
  | cons template args =>
    cases hvalue : s.heap.store.value template with
    | atom a =>
      cases a with
      | string source =>
        have hcut := cut_spec source.toList
        rcases exists_texts_or (args.take (cut source.toList).2.length) s with
          ⟨texts, htexts⟩ | hnone
        · have hlength := length_take_texts htexts
          rw [render_of_shows hvalue hcut htexts] at hrender
          split at hrender
          · cases hrender
            rw [length_fill _ (by omega)]
            exact .filled hvalue hcut (by omega) htexts
          · cases hrender
        · rw [render, bind_ok valueOf_eq, hvalue] at hrender
          simp only [placeholders_eq, bind_error hnone] at hrender
          cases hrender
      | _ =>
        rw [render, bind_ok valueOf_eq, hvalue] at hrender
        cases hrender
    | _ =>
      rw [render, bind_ok valueOf_eq, hvalue] at hrender
      cases hrender

/-- The vector and its copy have the elements that were there and one more for each item. -/
theorem builds_of_append (h : (append args).run span s = .ok o s') (hq : q ∈ (append args).built o)
    (hn : (s'.heap.store.value q).extent? = some n) : Builds s.heap.store (.append args) n := by
  have hsignature := signature_of_ok h
  obtain ⟨hkinds, -⟩ := checkSignature_eq_ok_iff.mp hsignature
  rw [run, callBuiltin_of_ok hsignature] at h
  cases args with
  | nil => cases h
  | cons target items =>
    cases items with
    | nil => cases h
    | cons item items =>
      -- the signature was checked before anything was copied, so the target was a vector then
      have hkind : Kind.vector = (s.heap.store.value target).kind :=
        (List.cons_prefix_cons.mp hkinds).1
      have hv := Value.eq_vector_of_kind hkind.symm
      generalize (s.heap.store.value target).elements = es at hv
      rcases append_cases hv item items span with ⟨xs, x, hxs, hx, happend⟩ | ⟨t, hnone⟩
      · cases h.symm.trans happend
        have hhas := Store.has_of_value_vector hv
        have htarget : ((s.heap.grow target es xs).store.value target).extent? =
            some (es.size + (items.length + 1)) := by
          rw [Heap.value_grow_target hhas]
          simp only [Value.extent?, Array.size_append, Heap.size_buildAll, ← hxs.length_eq,
            List.length_cons]
        have hextent : (((s.heap.grow target es xs).build x).2.store.value q).extent? =
            some (es.size + (items.length + 1)) := by
          rcases List.mem_cons.mp hq with rfl | hq
          · rw [Store.extent?_of_tree? ((s.heap.grow target es xs).tree?_build x), ← htarget,
              Store.extent?_of_tree? hx]
          · rw [List.mem_singleton.mp hq, ← htarget]
            have hold : target < (s.heap.grow target es xs).store.next :=
              Nat.lt_of_lt_of_le hhas.lt_next (Heap.next_grow ▸ Nat.le_add_right ..)
            rw [((s.heap.grow target es xs).laid_build x).2.2.2.value hold]
        cases hextent.symm.trans hn
        exact .grown hv
      · cases h.symm.trans hnone

theorem builds_of_vector (h : (vector args).run span s = .ok o s')
    (hn : (s'.heap.store.value o).extent? = some n) : Builds s.heap.store (.vector args) n := by
  have hsignature := signature_of_ok h
  rw [run, callBuiltin_of_ok hsignature] at h
  obtain ⟨-, hvariadic | hlength⟩ := checkSignature_eq_ok_iff.mp hsignature
  · cases hvariadic
  · have hone : args.length = 1 := by simpa [kindsOf, fixedKinds, Builtin.vector] using hlength
    obtain ⟨p, rfl⟩ := List.length_eq_one_iff.mp hone
    simp only [Builtin.vector, applyPrimitive, rangeVector, bind_ok valueOf_eq] at h
    cases hv : s.heap.store.value p with
    | atom a =>
      rw [hv] at h
      cases a with
      | range r =>
        dsimp only at h
        cases hbounded : r.boundedLength? with
        | none =>
          rw [hbounded] at h
          cases h
        | some k =>
          rw [hbounded] at h
          cases h
          have hextent : ((s.heap.build (.vector (rangeTrees r))).2.store.value
              (s.heap.build (.vector (rangeTrees r))).1).extent? = some r.length := by
            rw [Store.extent?_of_tree? (s.heap.tree?_build _)]
            simp [Tree.extent?, rangeTrees]
          cases hextent.symm.trans hn
          exact .range hv
      | _ => cases h
    | _ =>
      rw [hv] at h
      cases h

/-- What a step has built is as long as it has to be. -/
theorem builds_of_ok (h : c.run span s = .ok o s') (hq : q ∈ c.built o)
    (hn : (s'.heap.store.value q).extent? = some n) : c.Builds s.heap.store n := by
  cases c with
  | append args => exact builds_of_append h hq hn
  | operator op l r =>
    rw [List.mem_singleton.mp hq] at hn
    exact builds_of_operator h hn
  | format args =>
    rw [List.mem_singleton.mp hq] at hn
    exact builds_of_format h hn
  | vector args =>
    rw [List.mem_singleton.mp hq] at hn
    exact builds_of_vector h hn

/-! ### The limit -/

theorem run_operator_of_error {l r : ObjectId} {op : BinaryOp} {stop : Stop}
    (h : compute op (s.heap.store.value l) (s.heap.store.value r) span s = .error stop s) :
    (operator op l r).run span s = .error stop s := by
  rw [run, bind_ok valueOf_eq, bind_ok valueOf_eq, bind_error h]

theorem refused_of_rejects {l r : ObjectId} {op : BinaryOp}
    (h : Rejects op (s.heap.store.value l) (s.heap.store.value r) .valueOutOfRange) :
    ∃ e, e.kind = .valueOutOfRange ∧ (operator op l r).run span s = .error (.raised e) s := by
  obtain ⟨e, hkind, he⟩ := h span s
  exact ⟨e, hkind, run_operator_of_error he⟩

/-- A step that looks at the length refuses to build what is too long. -/
theorem refused_of_isChecked (hc : c.isChecked = true) (h : c.Builds s.heap.store n)
    (hlong : maxSequenceLength < n) :
    ∃ e, e.kind = .valueOutOfRange ∧ c.run span s = .error (.raised e) s := by
  cases h with
  | repetition hl hr hn =>
    refine refused_of_rejects ?_
    rw [hl, hr]
    exact (notRepeated_tooLong hn hlong).1
  | repetitionLeft hl hr hn =>
    refine refused_of_rejects ?_
    rw [hl, hr]
    exact (notRepeated_tooLong hn hlong).2
  | @range o r ho =>
    have hsignature : checkSignature Builtin.vector.signature (kindsOf s [o]) span = .ok () := by
      rw [kindsOf, List.map_singleton, ho]
      rfl
    have hbounded : r.boundedLength? = none := if_neg (Nat.not_le.mpr hlong)
    refine ⟨.hinted .valueOutOfRange span s!"{r.text} has too many elements", rfl, ?_⟩
    rw [run, callBuiltin_of_ok hsignature]
    simp only [Builtin.vector, applyPrimitive, rangeVector, bind_ok valueOf_eq, ho, hbounded]
    rfl
  | _ => cases hc

/-- A step that does not look at the length raises no error once there is something to build. -/
theorem not_raised_of_not_isChecked (hc : c.isChecked = false)
    (h : c.Builds s.heap.store n) (e : Error) :
    c.run span s ≠ .error (.raised e) s := by
  intro herror
  cases h with
  | text hl hr =>
    rw [run, bind_ok valueOf_eq, bind_ok valueOf_eq, hl, hr,
      bind_ok (yields_concat _ _ span s)] at herror
    cases herror
  | @elements l r es fs hl hr =>
    rw [run, bind_ok valueOf_eq, bind_ok valueOf_eq, hl, hr] at herror
    rcases copyAll_of_length (es ++ fs).toList s with ⟨copies, t, hcopies, -⟩ | hnone
    · have hcompute : compute .add (.vector es) (.vector fs) span s = .ok (.vector copies) t := by
        rw [compute, if_pos rfl, bind_ok hcopies]
        rfl
      rw [bind_ok hcompute] at herror
      cases herror
    · have hcompute : compute .add (.vector es) (.vector fs) span s = .error .exhausted s := by
        rw [compute, if_pos rfl, bind_error hnone]
      rw [bind_error hcompute] at herror
      cases herror
  | filled htemplate hcut hargs htexts =>
    have hlength := length_take_texts htexts
    have hrender := render_of_shows htemplate hcut htexts span
    rw [if_pos (by omega)] at hrender
    rw [run, callBuiltin_format_eq htemplate, bind_ok hrender] at herror
    cases herror
  | @grown target item items es htarget =>
    have hsignature : checkSignature Builtin.append.signature
        (kindsOf s (target :: item :: items)) span = .ok () := by
      rw [kindsOf, List.map_cons, htarget]
      exact checkSignature_variadic [.vector] _ span
    rw [run, callBuiltin_of_ok hsignature] at herror
    rcases append_cases htarget item items span with ⟨_, _, _, _, happend⟩ | ⟨t, hnone⟩
    · cases herror.symm.trans happend
    · cases herror.symm.trans hnone
  | _ => cases hc

end Construction

/-- A binary operation ends in such a step, and what a step builds is as long as its operands make
it. The step keeps the limit on lengths exactly if it looks at the length or what it has to build is
short enough. -/
theorem limit_kept_iff_checked_or_short (c : Construction) (span : Option Span) (s : State) :
    (∀ ev op lhs rhs, Eval.binary ev span op lhs rhs = (do
      let l ← ev lhs
      let r ← ev rhs
      (Construction.operator op l r).run span)) ∧
    (∀ o s', c.run span s = .ok o s' →
      ∀ q ∈ c.built o, ∀ n, (s'.heap.store.value q).extent? = some n → c.Builds s.heap.store n) ∧
    (c.KeepsLimit span s ↔
      c.isChecked = true ∨ ∀ n, c.Builds s.heap.store n → n ≤ maxSequenceLength) := by
  refine ⟨fun ev op lhs rhs => rfl, fun o s' h q hq n => Construction.builds_of_ok h hq, ?_, ?_⟩
  · intro h
    cases hc : c.isChecked with
    | true => exact .inl rfl
    | false =>
      refine .inr fun n hn => Nat.not_lt.mp fun hlong => ?_
      obtain ⟨e, -, he⟩ := h.refused n hn hlong
      exact Construction.not_raised_of_not_isChecked hc hn e he
  · intro h
    have hrefused : ∀ n, c.Builds s.heap.store n → maxSequenceLength < n →
        ∃ e, e.kind = .valueOutOfRange ∧ c.run span s = .error (.raised e) s := by
      intro n hn hlong
      rcases h with hc | hshort
      · exact Construction.refused_of_isChecked hc hn hlong
      · exact absurd hlong (Nat.not_lt.mpr (hshort n hn))
    -- a step that was refused has built nothing
    refine ⟨fun o s' hok q hq n hn => Nat.not_lt.mp fun hlong => ?_, hrefused⟩
    obtain ⟨e, -, he⟩ := hrefused n (Construction.builds_of_ok hok hq hn) hlong
    cases hok.symm.trans he

/-- Two strings. -/
def stringPair (t u : String) : State :=
  { heap := { store := { objects :=
    #[some { value := .atom (.string t) }, some { value := .atom (.string u) }] } } }

namespace Construction

open Eval

/-- A sum of strings that is one character too long is made all the same. -/
theorem sum_exceeds {t : String} (ht : t.length = maxSequenceLength) :
    (∀ q n, ((stringPair t "a").heap.store.value q).extent? = some n → n ≤ maxSequenceLength) ∧
      (∃ o s', (operator .add 0 1).run none (stringPair t "a") = .ok o s' ∧
        (s'.heap.store.value o).extent? = some (maxSequenceLength + 1)) ∧
      ¬ (operator .add 0 1).KeepsLimit none (stringPair t "a") := by
  have hleft : (stringPair t "a").heap.store.value 0 = .atom (.string t) := rfl
  have hright : (stringPair t "a").heap.store.value 1 = .atom (.string "a") := rfl
  have hbuilds : (operator .add 0 1).Builds (stringPair t "a").heap.store
      (maxSequenceLength + 1) := by
    rw [← ht]
    exact .text hleft hright
  refine ⟨?_, ?_, fun hkeeps => ?_⟩
  · rintro (_ | _ | q) n hn
    · rw [hleft] at hn
      cases hn
      exact Nat.le_of_eq ht
    · rw [hright] at hn
      cases hn
      decide
    · cases hn
  · have hrun : (operator .add 0 1).run none (stringPair t "a") =
        alloc (.atom (.string (t ++ "a"))) (stringPair t "a") := by
      rw [run, bind_ok valueOf_eq, bind_ok valueOf_eq, hleft, hright,
        bind_ok (yields_concat t "a" none _)]
    refine ⟨_, _, hrun, ?_⟩
    rw [value_of_alloc rfl, Value.extent?, String.length_append, ht]
    rfl
  · obtain ⟨e, -, he⟩ := hkeeps.refused _ hbuilds (Nat.lt_succ_self _)
    exact not_raised_of_not_isChecked rfl hbuilds e he

end Construction

/-- The longest string that may be, and one character more. -/
theorem sum_beyond_limit :
    let s := stringPair (repeated "a" maxSequenceLength) "a"
    (∀ q n, (s.heap.store.value q).extent? = some n → n ≤ maxSequenceLength) ∧
      (∃ o s', (Construction.operator .add 0 1).run none s = .ok o s' ∧
        (s'.heap.store.value o).extent? = some (maxSequenceLength + 1)) ∧
      ¬ (Construction.operator .add 0 1).KeepsLimit none s := by
  have hone : "a".length = 1 := rfl
  exact Construction.sum_exceeds (by rw [length_repeated, hone, Nat.one_mul])

end Scripting
