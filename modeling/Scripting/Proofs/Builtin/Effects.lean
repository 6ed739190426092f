import Mathlib.Tactic.Common
import Scripting.Proofs.Builtin.Templates
import Scripting.Proofs.Host.Copies

/-! What a call of a builtin of the prelude can do. A call that fails has changed nothing. A call
that succeeds has changed no object that was there, except that `append` grows its first argument by
copies. -/
namespace Scripting

open Relation

/-! ### Copies of several objects -/

namespace Store

variable {s t : Store} {items es : List ObjectId} {xs : List Tree}

/-- The objects `copies` of the store `t` are deep copies of the objects `items` of the store
`s`. -/
structure Copies (s : Store) (items : List ObjectId) (t : Store)
    (copies : List ObjectId) : Prop where
  trees : ∃ xs, List.Forall₂ (fun o x => s.tree? o = some x) items xs ∧
    List.Forall₂ (fun e x => t.tree? e = some x) copies xs
  /-- At each position of a copy there is a new object. -/
  new : ∀ (i : Nat) e is q, copies[i]? = some e → t.follow e is = some q →
    s.next ≤ q ∧ ¬ s.Has q ∧ t.Has q
  /-- No object is at two positions, of one copy or of two. -/
  single : ∀ (i j : Nat) e f is js q, copies[i]? = some e → copies[j]? = some f →
    t.follow e is = some q → t.follow f js = some q → i = j ∧ is = js

theorem LaidAll.copies (hlaid : t.LaidAll xs s.next es)
    (hitems : List.Forall₂ (fun o x => s.tree? o = some x) items xs)
    (hhas : ∀ q, s.next ≤ q → q < s.next + Tree.nodesOf xs → t.Has q)
    (hnext : s.next + Tree.nodesOf xs ≤ t.next) : s.Copies items t es where
  trees := ⟨xs, hitems, hlaid.unfold xs (Nat.le_trans (Nat.le_add_left ..) hnext)⟩
  new := by
    intro i e is q he hq
    obtain ⟨hle, hlt⟩ := hlaid.bounds xs he hq
    exact ⟨hle, fun hn => Nat.not_lt.mpr hle hn.lt_next, hhas q hle hlt⟩
  single := fun _ _ _ _ _ _ _ he hf hq hq' => hlaid.follow_unique xs he hf hq hq'

end Store

/-! ### Growing a vector -/

namespace Heap

variable {h : Heap} {target q : ObjectId} {es : Array ObjectId} {xs : List Tree}

/-- Every number that building uses is an object's. -/
theorem has_buildAll (h : Heap) (xs : List Tree) (hle : h.store.next ≤ q)
    (hlt : q < (h.buildAll #[] xs).2.store.next) : (h.buildAll #[] xs).2.store.Has q := by
  refine (buildAll_induct (M := fun k => ∀ q, h.store.next ≤ q → q < k.store.next → k.store.Has q)
    (R := fun _ => True) (P := fun _ => True)
      (fun k v hk _ _ => ⟨fun q hle hlt => ?_, trivial⟩) h #[] xs
    (fun q hle hlt => absurd hlt (Nat.not_lt.mpr hle)) (Tree.everyOf_true xs) (by simp)).1 q hle hlt
  rcases Nat.lt_succ_iff_lt_or_eq.mp (next_alloc (v := v) ▸ hlt) with hold | rfl
  · exact Store.has_push.mpr (.inr (hk q hle hold))
  · exact Store.has_push.mpr (.inl rfl)

/-- The heap with trees built, and a vector that has got them after the given elements. -/
def grow (h : Heap) (target : ObjectId) (es : Array ObjectId) (xs : List Tree) : Heap :=
  { (h.buildAll #[] xs).2 with
    store := (h.buildAll #[] xs).2.store.setValue target (.vector (es ++ (h.buildAll #[] xs).1)) }

theorem laidAll_buildAll (h : Heap) (xs : List Tree) :
    (h.buildAll #[] xs).2.store.next = h.store.next + Tree.nodesOf xs ∧
      (h.buildAll #[] xs).2.store.LaidAll xs h.store.next (h.buildAll #[] xs).1.toList ∧
      Keeps h (h.buildAll #[] xs).2 := by
  obtain ⟨copies, hcopies, hnext, hlaid, hkeeps⟩ := h.laid_buildAll #[] xs
  rw [hcopies, Array.empty_append]
  exact ⟨hnext, hlaid, hkeeps⟩

theorem next_grow : (h.grow target es xs).store.next = h.store.next + Tree.nodesOf xs :=
  Store.next_setValue.trans (laidAll_buildAll h xs).1

theorem get?_grow (hq : q < h.store.next) : (h.grow target es xs).store.get? q =
    if q = target then (h.store.get? q).map
      ({ · with value := .vector (es ++ (h.buildAll #[] xs).1) })
    else h.store.get? q := by
  rw [← (laidAll_buildAll h xs).2.2.get? hq]
  exact Store.get?_modify

theorem value_grow_of_ne (hq : q < h.store.next) (hne : q ≠ target) :
    (h.grow target es xs).store.value q = h.store.value q := by
  simp only [Store.value, get?_grow hq, if_neg hne]

theorem value_grow_target (ht : h.store.Has target) :
    (h.grow target es xs).store.value target = .vector (es ++ (h.buildAll #[] xs).1) := by
  obtain ⟨x, hx⟩ := Option.isSome_iff_exists.mp ht
  simp [Store.value, get?_grow ht.lt_next, hx]

theorem laidAll_grow (ht : h.store.Has target) :
    (h.grow target es xs).store.LaidAll xs h.store.next (h.buildAll #[] xs).1.toList := by
  refine (laidAll_buildAll h xs).2.1.congr xs fun q hle _ => ?_
  have hne : q ≠ target := Nat.ne_of_gt (Nat.lt_of_lt_of_le ht.lt_next hle)
  exact Store.value_setValue.trans (if_neg fun heq => hne heq.1)

/-- What is inside the old elements is not the vector, so they mean what they did. -/
theorem unfold_grow {n : Nat} {e : ObjectId} (hclosed : h.store.Closed)
    (ht : h.store.Grounded target) (he : h.store.Contains target e) :
    (h.grow target es xs).store.unfold n e = h.store.unfold n e := by
  refine Store.unfold_congr fun q hq => ?_
  have hinside : TransGen h.store.Contains target q := .head' he hq
  obtain ⟨c, -, hc⟩ := TransGen.tail'_iff.mp hinside
  refine value_grow_of_ne (hclosed c q hc).lt_next ?_
  rintro rfl
  exact ht.2 q .refl hinside

/-- A vector means its old elements, and after them what it has got. -/
theorem tree?_grow (hclosed : h.store.Closed) (ht : h.store.Grounded target)
    (hes : h.store.value target = .vector es) {x : Tree} (hx : h.store.tree? target = some x) :
    ∃ ys, x = .vector ys ∧ (h.grow target es xs).store.tree? target =
      some (.vector (ys ++ xs)) := by
  obtain ⟨n, hn⟩ : ∃ n, h.store.next = n + 1 :=
    Nat.exists_eq_add_one.mpr (Nat.zero_lt_of_lt ht.1.lt_next)
  rw [Store.tree?, show h.store.objects.size = _ from hn, Store.unfold_succ_iff, hes] at hx
  obtain ⟨a, heq, -⟩ | ⟨fs, ys, heq, -, -⟩ | ⟨fs, ys, heq, hys, rfl⟩ := hx <;> cases heq
  refine ⟨ys, rfl, ?_⟩
  have hsize : (h.grow target es xs).store.objects.size = n + Tree.nodesOf xs + 1 :=
    next_grow.trans (by rw [hn, Nat.add_right_comm])
  have hcontains : ∀ e ∈ es.toList, h.store.Contains target e := by
    simp [Store.Contains, hes, Value.elements]
  rw [Store.tree?, hsize, Store.unfold_succ_iff, value_grow_target ht.1]
  refine .inr (.inr ⟨_, _, rfl, ?_, rfl⟩)
  rw [Array.toList_append]
  refine List.rel_append ?_ ((laidAll_grow ht.1).unfold xs (Nat.le_add_left ..))
  refine ((List.forall₂_and_left _ _).mpr ⟨hcontains, hys⟩).imp fun e y he => ?_
  exact Store.unfold_mono ((unfold_grow hclosed ht he.1).trans he.2) (Nat.le_add_right ..)

end Heap

/-! ### Outcomes -/

/-- The first of the objects has grown by copies of the others, as these were before. -/
def Store.Grown (s : Store) (args : List ObjectId) (t : Store) : Prop :=
  ∃ target items es copies, args = target :: items ∧ s.value target = .vector es ∧
    t.get? target = (s.get? target).map ({ · with value := .vector (es ++ copies) }) ∧
    s.Copies items t copies.toList

namespace Eval

variable {s s' : State} {b : Builtin} {args : List ObjectId} {span : Option Span} {o : ObjectId}

/-- What a call has done to the objects that were there. -/
structure Effect (s : State) (b : Builtin) (args : List ObjectId) (s' : State) : Prop where
  kept : ∀ q, s.heap.store.Has q → (b = .append → args.head? ≠ some q) →
    s'.heap.store.get? q = s.heap.store.get? q
  grown : b = .append → s.heap.store.Grown args s'.heap.store

/-- How a call ends. If it fails, the state is the one before it. -/
inductive Outcome (s : State) (b : Builtin) (args : List ObjectId) :
    EStateM.Result Stop State ObjectId → Prop where
  | failed (e : Error) : Outcome s b args (.error (.raised e) s)
  | done {o : ObjectId} {s' : State} (h : Effect s b args s') : Outcome s b args (.ok o s')

theorem Effect.of_keeps (hb : b ≠ .append) (h : s.heap.Keeps s'.heap) : Effect s b args s' :=
  ⟨fun _ hq _ => h.get? hq.lt_next, fun heq => absurd heq hb⟩

theorem Outcome.of_signature
    (h : checkSignature b.signature (kindsOf s args) span = .ok () →
      Outcome s b args (applyPrimitive b.primitive args span s)) :
    Outcome s b args (callBuiltin b args span s) := by
  cases hsignature : checkSignature b.signature (kindsOf s args) span with
  | error e =>
    rw [callBuiltin_of_error hsignature]
    exact .failed e
  | ok =>
    rw [callBuiltin_of_ok hsignature]
    exact h hsignature

theorem Outcome.of_printed {text : String} {r : EStateM.Result Stop State ObjectId}
    (hb : b ≠ .append) (h : ∃ o s', r = .ok o s' ∧ s.Printed text o s') : Outcome s b args r := by
  obtain ⟨o, s', rfl, hprinted⟩ := h
  refine .done (.of_keeps hb ?_)
  rw [hprinted.heap]
  exact .alloc

/-- Rendering changes nothing, and fails only as a script can. -/
theorem render_cases {texts : List String} (hargs : List.Forall₂ s.heap.store.Shows args texts)
    (span : Option Span) :
    (∃ text, render args span s = .ok text s) ∨ ∃ e, render args span s = .error (.raised e) s := by
  cases args with
  | nil => exact .inr ⟨_, rfl⟩
  | cons template args =>
    obtain ⟨-, texts, -, hrest, rfl⟩ := List.forall₂_cons_left_iff.mp hargs
    cases hv : s.heap.store.value template with
    | atom a =>
      cases a with
      | string text =>
        rw [render_eq hv hrest (cut_spec _) span]
        split
        · exact .inl ⟨_, rfl⟩
        · exact .inr ⟨_, rfl⟩
      | _ =>
        rw [render, bind_ok valueOf_eq, hv]
        exact .inr ⟨_, rfl⟩
    | _ =>
      rw [render, bind_ok valueOf_eq, hv]
      exact .inr ⟨_, rfl⟩

theorem outcome_printf {texts : List String} (hargs : List.Forall₂ s.heap.store.Shows args texts) :
    Outcome s .printf args (callBuiltin .printf args span s) := by
  refine .of_signature fun _ => ?_
  change Outcome s .printf args ((render args span >>= fun text =>
    write text >>= fun _ => allocAtom (.int (.ofNat text.length))) s)
  rcases render_cases hargs span with ⟨text, hrender⟩ | ⟨e, hrender⟩
  · obtain ⟨s₁, hwrite, hwrote⟩ := write_eq text s
    rw [bind_ok hrender, bind_ok hwrite]
    exact .of_printed (by simp [Builtin.printf, Builtin.append]) ⟨_, _, rfl, hwrote.printed⟩
  · rw [bind_error hrender]
    exact .failed e

theorem outcome_format {texts : List String} (hargs : List.Forall₂ s.heap.store.Shows args texts) :
    Outcome s .format args (callBuiltin .format args span s) := by
  refine .of_signature fun _ => ?_
  change Outcome s .format args ((render args span >>= fun text => allocAtom (.string text)) s)
  rcases render_cases hargs span with ⟨text, hrender⟩ | ⟨e, hrender⟩
  · rw [bind_ok hrender, allocAtom_eq]
    exact .done (.of_keeps (by simp [Builtin.format, Builtin.append]) .alloc)
  · rw [bind_error hrender]
    exact .failed e

theorem outcome_abs : Outcome s .abs args (callBuiltin .abs args span s) := by
  refine .of_signature fun _ => ?_
  cases args with
  | nil => exact .failed _
  | cons o args =>
    simp only [Builtin.abs, applyPrimitive, bind_ok valueOf_eq]
    cases (s.heap.store.value o).int? with
    | none => exact .failed _
    | some n =>
      dsimp only
      cases exactInt n.toInt.natAbs span with
      | error e => exact .failed e
      | ok k => exact .done (.of_keeps (by simp [Builtin.append]) .alloc)

theorem outcome_vector : Outcome s .vector args (callBuiltin .vector args span s) := by
  refine .of_signature fun _ => ?_
  cases args with
  | nil => exact .failed _
  | cons o args =>
    simp only [Builtin.vector, applyPrimitive, rangeVector, bind_ok valueOf_eq]
    cases s.heap.store.value o with
    | atom a =>
      cases a with
      | range r =>
        dsimp only
        cases r.boundedLength? with
        | none => exact .failed _
        | some _ =>
          have hkeeps := (s.heap.laid_build (.vector (rangeTrees r))).2.2.2
          exact .done (.of_keeps (by simp [Builtin.append]) hkeeps)
      | _ => exact .failed _
    | _ => exact .failed _

theorem treesOf_of_trees {xs : List Tree}
    (h : List.Forall₂ (fun o x => s.heap.store.tree? o = some x) args xs) :
    treesOf args s = .ok xs s := by
  induction h with
  | nil => rfl
  | cons ho _ ih =>
    rw [treesOf, bind_ok (treeOf_eq ho), bind_ok ih]
    rfl

/-- Copies are made first, then the vector grows, and at last it is copied. -/
theorem append_eq_copy {target item : ObjectId} {items : List ObjectId} {es : Array ObjectId}
    {xs : List Tree} (hv : s.heap.store.value target = .vector es)
    (hxs : List.Forall₂ (fun o x => s.heap.store.tree? o = some x) (item :: items) xs)
    (span : Option Span) :
    append (target :: item :: items) span s =
      copy target (s.withHeap (s.heap.grow target es xs)) := by
  have hcopies : copyAll (item :: items) s =
      .ok (s.heap.buildAll #[] xs).1 (s.withHeap (s.heap.buildAll #[] xs).2) := by
    rw [copyAll, bind_ok (treesOf_of_trees hxs)]
    rfl
  have hkept : (s.withHeap (s.heap.buildAll #[] xs).2).heap.store.value target = .vector es :=
    ((s.heap.laidAll_buildAll xs).2.2.value (Store.has_of_value_vector hv).lt_next).trans hv
  have hset : setValue target (.vector (es ++ (s.heap.buildAll #[] xs).1))
      (s.withHeap (s.heap.buildAll #[] xs).2) =
        .ok () (s.withHeap (s.heap.grow target es xs)) := rfl
  rw [append, bind_ok hcopies, bind_ok valueOf_eq, hkept]
  dsimp only
  rw [bind_ok hset]

theorem append_eq {target item : ObjectId} {items : List ObjectId} {es : Array ObjectId}
    {xs : List Tree} {x : Tree} (hv : s.heap.store.value target = .vector es)
    (hxs : List.Forall₂ (fun o x => s.heap.store.tree? o = some x) (item :: items) xs)
    (hx : (s.heap.grow target es xs).store.tree? target = some x) (span : Option Span) :
    append (target :: item :: items) span s =
      .ok ((s.heap.grow target es xs).build x).1
        (s.withHeap ((s.heap.grow target es xs).build x).2) := by
  have htree : treeOf target (s.withHeap (s.heap.grow target es xs)) =
      .ok x (s.withHeap (s.heap.grow target es xs)) := treeOf_eq hx
  rw [append_eq_copy hv hxs, copy, bind_ok htree]
  rfl

theorem effect_append {target : ObjectId} {items : List ObjectId} {es : Array ObjectId}
    {xs : List Tree} (x : Tree) (hv : s.heap.store.value target = .vector es)
    (hxs : List.Forall₂ (fun o x => s.heap.store.tree? o = some x) items xs) :
    Effect s .append (target :: items) (s.withHeap ((s.heap.grow target es xs).build x).2) := by
  have ht := Store.has_of_value_vector hv
  obtain ⟨-, -, -, hkeeps⟩ := (s.heap.grow target es xs).laid_build x
  have hnext := @Heap.next_grow s.heap target es xs
  have hget : ∀ {q}, q < s.heap.store.next →
      ((s.heap.grow target es xs).build x).2.store.get? q =
        (s.heap.grow target es xs).store.get? q :=
    fun hq => hkeeps.get? (Nat.lt_of_lt_of_le hq (hnext ▸ Nat.le_add_right ..))
  constructor
  case kept =>
    intro q hq hne
    have hqt : q ≠ target := fun heq => hne rfl (heq ▸ rfl)
    exact (hget hq.lt_next).trans ((Heap.get?_grow hq.lt_next).trans (if_neg hqt))
  case grown =>
    intro _
    refine ⟨target, items, es, (s.heap.buildAll #[] xs).1, rfl, hv, ?_, ?_⟩
    · exact (hget ht.lt_next).trans ((Heap.get?_grow ht.lt_next).trans (if_pos rfl))
    · refine Store.LaidAll.copies ?_ hxs ?_ (hnext ▸ hkeeps.next)
      · exact (Heap.laidAll_grow ht).congr xs fun q _ hq => hkeeps.value (hnext ▸ hq)
      · intro q hle hlt
        have hhas : (s.heap.grow target es xs).store.Has q :=
          Store.has_setValue.mpr (s.heap.has_buildAll xs hle ((s.heap.laidAll_buildAll xs).1 ▸ hlt))
        rw [Store.Has]
        exact (congrArg Option.isSome (hkeeps.get? hhas.lt_next)).trans hhas

theorem callBuiltin_append {target item : ObjectId} {items : List ObjectId} {es : Array ObjectId}
    (hclosed : s.heap.store.Closed) (hargs : ∀ o ∈ target :: item :: items, s.heap.store.Grounded o)
    (hv : s.heap.store.value target = .vector es) (span : Option Span) :
    ∃ o s', callBuiltin .append (target :: item :: items) span s = .ok o s' ∧
      Effect s .append (target :: item :: items) s' := by
  obtain ⟨ht, hitems⟩ := List.forall_mem_cons.mp hargs
  obtain ⟨xs, hxs⟩ := hclosed.exists_trees hitems
  obtain ⟨x, hx⟩ := hclosed.exists_tree ht.1 ht.2
  obtain ⟨ys, -, hys⟩ := @Heap.tree?_grow _ _ _ xs hclosed ht hv x hx
  have hsignature : checkSignature [.vector, .args] (kindsOf s (target :: item :: items)) span =
      .ok () := by
    rw [kindsOf, List.map_cons, hv]
    exact checkSignature_variadic [.vector] _ span
  exact ⟨_, _, (callBuiltin_of_ok hsignature).trans (append_eq hv hxs hys span),
    effect_append _ hv hxs⟩

theorem outcome_append (hclosed : s.heap.store.Closed)
    (hargs : ∀ o ∈ args, s.heap.store.Grounded o) :
    Outcome s .append args (callBuiltin .append args span s) := by
  refine .of_signature fun hsignature => ?_
  obtain ⟨hkinds, -⟩ := checkSignature_eq_ok_iff.mp hsignature
  cases args with
  | nil => exact .failed _
  | cons target items =>
    cases items with
    | nil => exact .failed _
    | cons item items =>
      -- without the signature, the copies would be there before the target is seen to be none
      have hkind : Kind.vector = (s.heap.store.value target).kind :=
        (List.cons_prefix_cons.mp hkinds).1
      obtain ⟨o, s', hcall, heffect⟩ :=
        callBuiltin_append hclosed hargs (Value.eq_vector_of_kind hkind.symm) span
      rw [← callBuiltin_of_ok hsignature, hcall]
      exact .done heffect

/-- Builtins stop as for an illegal call where an argument that they ask for is not there. However
they stopped, no call could tell: none asks for such an argument. Calls fail as a whole or not at
all, and appending fails only if there is no vector or nothing to append. -/
theorem calls_atomic (hb : b ∈ Builtins.prelude) (hclosed : s.heap.store.Closed)
    (hargs : ∀ o ∈ args, s.heap.store.Grounded o) (span : Option Span) :
    (∀ p os, applyPrimitiveOr (.raised { kind := .illegalCall, span }) p os span =
      applyPrimitive p os span) ∧
      (∀ outside, callBuiltinOr outside b args span = callBuiltin b args span) ∧
      Outcome s b args (callBuiltin b args span s) ∧
      ∀ target item items es, b = .append → args = target :: item :: items →
        s.heap.store.value target = .vector es → ∃ o s', callBuiltin b args span s = .ok o s' := by
  refine ⟨fun p os => applyPrimitiveOr_illegal p os span,
    fun outside => callBuiltinOr_eq outside hb args span, ?_, ?_⟩
  · obtain ⟨texts, htexts⟩ := hclosed.exists_texts hargs
    rw [Builtins.prelude_eq] at hb
    simp only [List.mem_cons, List.not_mem_nil, or_false] at hb
    rcases hb with rfl | rfl | rfl | rfl | rfl | rfl | rfl
    · exact .of_printed (by simp [Builtin.print, Builtin.append]) (callBuiltin_print htexts span)
    · exact .of_printed (by simp [Builtin.println, Builtin.append])
        (callBuiltin_println htexts span)
    · exact outcome_printf htexts
    · exact outcome_format htexts
    · exact outcome_abs
    · exact outcome_append hclosed hargs
    · exact outcome_vector
  · rintro target item items es rfl rfl hv
    obtain ⟨o, s', hcall, -⟩ := callBuiltin_append hclosed hargs hv span
    exact ⟨o, s', hcall⟩

/-- A vector inside a vector. -/
def nested : State := { heap := (Heap.build {} (.vector [.vector [.atom (.int 7)]])).2 }

theorem calls_atomic_nested :
    (∀ outside, callBuiltinOr outside .append [2, 2, 1] none = callBuiltin .append [2, 2, 1] none) ∧
      ∃ o s', callBuiltin .append [2, 2, 1] none nested = .ok o s' ∧
        Effect nested .append [2, 2, 1] s' := by
  obtain ⟨hclosed, hgrounded⟩ := Store.grounded_of_older (s := nested.heap.store) (by decide)
  have hargs : ∀ o ∈ [2, 2, 1], nested.heap.store.Has o := by decide
  obtain ⟨-, hinside, houtcome, happends⟩ := @calls_atomic nested .append [2, 2, 1]
    (by simp [Builtins.prelude_eq]) hclosed (fun o ho => hgrounded o (hargs o ho)) none
  obtain ⟨o, s', hcall⟩ := happends 2 2 [1] #[1] rfl rfl rfl
  refine ⟨hinside, o, s', hcall, ?_⟩
  rw [hcall] at houtcome
  cases houtcome with
  | done heffect => exact heffect

end Eval
end Scripting
