import Mathlib.Tactic.Common
import Scripting.Proofs.Builtin.Calls

/-! Templates are cut at their placeholders, and filled with one text at each cut. Formatting gives
what results, and printing writes it. -/
namespace Scripting

/-- The two characters that take an argument. -/
def placeholder : List Char := ['\x7b', '\x7d']

/-- A template cut at all its placeholders: the piece before the first one, and the piece after
each. Placeholders cannot overlap, so that there is only one way to cut. -/
structure Cut (template first : List Char) (rest : List (List Char)) : Prop where
  joined : template = first ++ rest.flatMap (placeholder ++ ·)
  bare : ∀ p ∈ first :: rest, ¬ placeholder <:+: p

/-- The pieces of a template, found from the left. -/
def cut : List Char → List Char × List (List Char)
  | '\x7b' :: '\x7d' :: rest => ([], (cut rest).1 :: (cut rest).2)
  | c :: rest => (c :: (cut rest).1, (cut rest).2)
  | [] => ([], [])

theorem cut_placeholder {template : List Char} :
    cut (placeholder ++ template) = ([], (cut template).1 :: (cut template).2) := rfl

/-- A character that starts no placeholder belongs to the first piece. -/
theorem cut_cons {c : Char} {template : List Char} (h : ¬ placeholder <+: c :: template) :
    cut (c :: template) = (c :: (cut template).1, (cut template).2) := by
  apply cut.eq_2
  rintro rest rfl rfl
  exact h (List.prefix_append placeholder rest)

theorem joined_cut (template : List Char) :
    template = (cut template).1 ++ (cut template).2.flatMap (placeholder ++ ·) := by
  induction template using cut.induct with
  | case1 rest ih =>
    conv_lhs => rw [ih]
    simp [cut, placeholder]
  | case2 c rest hnot ih =>
    conv_lhs => rw [ih]
    rw [cut.eq_2 c rest hnot, List.cons_append]
  | case3 => rfl

theorem bare_cut (template : List Char) :
    ∀ p ∈ (cut template).1 :: (cut template).2, ¬ placeholder <:+: p := by
  induction template using cut.induct with
  | case1 rest ih => exact List.forall_mem_cons.mpr ⟨by simp [cut, placeholder], ih⟩
  | case2 c rest hnot ih =>
    obtain ⟨hfirst, hrest⟩ := List.forall_mem_cons.mp ih
    rw [cut.eq_2 c rest hnot]
    refine List.forall_mem_cons.mpr ⟨fun hin => ?_, hrest⟩
    rcases List.infix_cons_iff.mp hin with hstart | hlater
    · obtain ⟨rfl, hnext⟩ := List.cons_prefix_cons.mp hstart
      have hprefix : ['\x7d'] <+: rest := by
        rw [joined_cut rest]
        exact hnext.trans (List.prefix_append ..)
      obtain ⟨rest', rfl⟩ := hprefix
      exact hnot rest' rfl rfl
    · exact hfirst hlater
  | case3 => simp [cut, placeholder]

theorem cut_spec (template : List Char) : Cut template (cut template).1 (cut template).2 :=
  ⟨joined_cut template, bare_cut template⟩

/-- A piece without placeholders, at the end or before a placeholder, is all of the first piece. -/
theorem cut_append {p tail : List Char} (hp : ¬ placeholder <:+: p)
    (htail : tail = [] ∨ placeholder <+: tail) :
    cut (p ++ tail) = (p ++ (cut tail).1, (cut tail).2) := by
  induction p with
  | nil => rfl
  | cons c p ih =>
    obtain ⟨hstart, hlater⟩ := not_or.mp fun h => hp (List.infix_cons_iff.mpr h)
    rw [List.cons_append, cut_cons, ih hlater]
    · rfl
    · intro hprefix
      obtain ⟨rfl, hnext⟩ := List.cons_prefix_cons.mp hprefix
      -- the closing brace would be the next character of the piece, or open the next placeholder
      cases p with
      | cons d p =>
        obtain ⟨rfl, -⟩ := List.cons_prefix_cons.mp hnext
        exact hstart (List.prefix_append placeholder p)
      | nil =>
        rcases htail with rfl | ⟨tail, rfl⟩
        · simp at hnext
        · simp [placeholder] at hnext

theorem Cut.eq_cut {template first : List Char} {rest : List (List Char)}
    (h : Cut template first rest) :
    cut template = (first, rest) := by
  obtain ⟨rfl, hbare⟩ := h
  induction rest generalizing first with
  | nil =>
    rw [List.flatMap_nil, cut_append (hbare first (by simp)) (.inl rfl)]
    simp [cut]
  | cons p rest ih =>
    rw [List.flatMap_cons, List.append_assoc,
      cut_append (hbare first (by simp)) (.inr (List.prefix_append ..)), cut_placeholder,
      ih fun q hq => hbare q (List.mem_cons_of_mem _ hq), List.append_nil]

/-- There is one way to cut a template. -/
theorem cut_iff {template first : List Char} {rest : List (List Char)} :
    Cut template first rest ↔ first = (cut template).1 ∧ rest = (cut template).2 := by
  constructor
  · intro h
    rw [h.eq_cut]
    exact ⟨rfl, rfl⟩
  · rintro ⟨rfl, rfl⟩
    exact cut_spec template

theorem placeholders_eq (template : List Char) :
    placeholders template = (cut template).2.length := by
  induction template using cut.induct with
  | case1 rest ih => simp [placeholders, cut, ih]
  | case2 c rest hnot ih => rw [placeholders.eq_2 c rest hnot, cut.eq_2 c rest hnot, ih]
  | case3 => rfl

/-- The pieces of a template with texts between them. -/
def fill (first : List Char) (rest : List (List Char)) (texts : List String) : String :=
  String.ofList first ++ String.join (List.zipWith (fun t p => t ++ String.ofList p) texts rest)

/-- A template is filled if there is a text for each placeholder. -/
theorem fillTemplate_eq (template : List Char) (texts : List String) (written : String) :
    fillTemplate written template texts =
      if (cut template).2.length ≤ texts.length then
        some (written ++ fill (cut template).1 (cut template).2 texts)
      else none := by
  induction template using cut.induct generalizing texts written with
  | case1 rest ih =>
    cases texts with
    | nil => simp [fillTemplate, cut]
    | cons t texts => simp [fillTemplate, cut, ih, fill, String.append_assoc]
  | case2 c rest hnot ih =>
    have hpush : written.push c ++ String.ofList (cut rest).1 =
        written ++ String.ofList (c :: (cut rest).1) := by
      rw [← String.toList_inj]
      simp
    rw [fillTemplate.eq_3 written texts c rest hnot, cut.eq_2 c rest hnot, ih]
    simp only [fill, ← String.append_assoc, hpush]
  | case3 => simp [fillTemplate, cut, fill]

/-- Texts without a placeholder are ignored. -/
theorem fill_take (first : List Char) (rest : List (List Char)) (texts : List String) :
    fill first rest (texts.take rest.length) = fill first rest texts := by
  suffices h : ∀ f : String → List Char → String,
      List.zipWith f (texts.take rest.length) rest = List.zipWith f texts rest by rw [fill, h, fill]
  intro f
  induction rest generalizing texts with
  | nil => simp
  | cons p rest ih =>
    cases texts with
    | nil => rfl
    | cons t texts => simp [ih]

namespace Eval

variable {s : State} {template : ObjectId} {text : String} {args : List ObjectId}
  {texts : List String} {first : List Char} {rest : List (List Char)}

/-- The error of a template with a placeholder left over. -/
def unfilled (span : Option Span) : Error :=
  .hinted .tooFewArguments span "more `\x7b\x7d` placeholders than arguments"

theorem render_eq (htemplate : s.heap.store.value template = .atom (.string text))
    (hargs : List.Forall₂ s.heap.store.Shows args texts) (hcut : Cut text.toList first rest)
    (span : Option Span) :
    render (template :: args) span s =
      if rest.length ≤ args.length then .ok (fill first rest texts) s
      else .error (.raised (unfilled span)) s := by
  have htexts := textsOf_eq (List.forall₂_take rest.length hargs)
  have hfill : fillTemplate "" text.toList (texts.take rest.length) =
      if rest.length ≤ args.length then some (fill first rest texts) else none := by
    rw [fillTemplate_eq, hcut.eq_cut, fill_take, List.length_take, ← hargs.length_eq]
    simp
  rw [render, bind_ok valueOf_eq, htemplate]
  simp only [placeholders_eq, hcut.eq_cut, bind_ok htexts, hfill]
  split <;> rfl

theorem checkSignature_template (htemplate : s.heap.store.value template = .atom (.string text))
    (span : Option Span) :
    checkSignature [.string, .args] (kindsOf s (template :: args)) span = .ok () := by
  rw [kindsOf, List.map_cons, htemplate]
  exact checkSignature_variadic [.string] _ span

theorem callBuiltin_format_eq (htemplate : s.heap.store.value template = .atom (.string text))
    (span : Option Span) :
    callBuiltin .format (template :: args) span s =
      (render (template :: args) span >>= fun rendered => allocAtom (.string rendered)) s :=
  callBuiltin_of_ok (checkSignature_template htemplate span)

theorem callBuiltin_printf_eq (htemplate : s.heap.store.value template = .atom (.string text))
    (span : Option Span) :
    callBuiltin .printf (template :: args) span s =
      (render (template :: args) span >>= fun rendered =>
        write rendered >>= fun _ => allocAtom (.int (.ofNat rendered.length))) s :=
  callBuiltin_of_ok (checkSignature_template htemplate span)

/-- The text is in a new object, and that is all. -/
structure Formatted (s : State) (text : String) (o : ObjectId) (s' : State) : Prop where
  state : s' = s.withHeap (s.heap.alloc (.atom (.string text))).2
  new : o = s.heap.store.next
  holds : s'.heap.store.value o = .atom (.string text)

theorem callBuiltin_format (htemplate : s.heap.store.value template = .atom (.string text))
    (hargs : List.Forall₂ s.heap.store.Shows args texts) (hcut : Cut text.toList first rest)
    (hle : rest.length ≤ args.length) (span : Option Span) :
    ∃ o s', callBuiltin .format (template :: args) span s = .ok o s' ∧
      Formatted s (fill first rest texts) o s' := by
  have hrender := render_eq htemplate hargs hcut span
  rw [if_pos hle] at hrender
  refine ⟨_, _, ?_, rfl, rfl, Heap.value_alloc⟩
  rw [callBuiltin_format_eq htemplate, bind_ok hrender, allocAtom_eq]

theorem callBuiltin_printf (htemplate : s.heap.store.value template = .atom (.string text))
    (hargs : List.Forall₂ s.heap.store.Shows args texts) (hcut : Cut text.toList first rest)
    (hle : rest.length ≤ args.length) (span : Option Span) :
    ∃ o s', callBuiltin .printf (template :: args) span s = .ok o s' ∧
      s.Printed (fill first rest texts) o s' := by
  have hrender := render_eq htemplate hargs hcut span
  rw [if_pos hle] at hrender
  obtain ⟨s₁, hwrite, hwrote⟩ := write_eq (fill first rest texts) s
  refine ⟨_, _, ?_, hwrote.printed⟩
  rw [callBuiltin_printf_eq htemplate, bind_ok hrender, bind_ok hwrite, allocAtom_eq]

theorem callBuiltin_unfilled (htemplate : s.heap.store.value template = .atom (.string text))
    (hargs : List.Forall₂ s.heap.store.Shows args texts) (hcut : Cut text.toList first rest)
    (hlt : args.length < rest.length) (span : Option Span) :
    callBuiltin .format (template :: args) span s = .error (.raised (unfilled span)) s ∧
      callBuiltin .printf (template :: args) span s = .error (.raised (unfilled span)) s := by
  have hrender := render_eq htemplate hargs hcut span
  rw [if_neg (Nat.not_le.mpr hlt)] at hrender
  rw [callBuiltin_format_eq htemplate, callBuiltin_printf_eq htemplate, bind_error hrender,
    bind_error hrender]
  exact ⟨rfl, rfl⟩

/-- What the builtins make of a template that is cut into pieces and of arguments that show the
texts. -/
structure Rendered (s : State) (template : ObjectId) (args : List ObjectId) (span : Option Span)
    (first : List Char) (rest : List (List Char)) (texts : List String) : Prop where
  format : rest.length ≤ args.length →
    ∃ o s', callBuiltin .format (template :: args) span s = .ok o s' ∧
      Formatted s (fill first rest texts) o s'
  printf : rest.length ≤ args.length →
    ∃ o s', callBuiltin .printf (template :: args) span s = .ok o s' ∧
      s.Printed (fill first rest texts) o s'
  unfilled : args.length < rest.length →
    callBuiltin .format (template :: args) span s = .error (.raised (unfilled span)) s ∧
      callBuiltin .printf (template :: args) span s = .error (.raised (unfilled span)) s
  print : ∃ o s', callBuiltin .print args span s = .ok o s' ∧ s.Printed (String.join texts) o s'
  println : ∃ o s', callBuiltin .println args span s = .ok o s' ∧
    s.Printed (String.join texts ++ "\n") o s'

/-- Whatever a template and its arguments are, the template is cut in one way and the arguments fill
it in order. -/
theorem templates_rendered (hclosed : s.heap.store.Closed)
    (htemplate : s.heap.store.value template = .atom (.string text))
    (hargs : ∀ o ∈ args, s.heap.store.Grounded o) (span : Option Span) :
    ∃ first rest texts, (∀ first' rest', Cut text.toList first' rest' ↔
      first' = first ∧ rest' = rest) ∧
      List.Forall₂ s.heap.store.Shows args texts ∧
        Rendered s template args span first rest texts := by
  obtain ⟨texts, htexts⟩ := hclosed.exists_texts hargs
  have hcut := cut_spec text.toList
  refine ⟨(cut text.toList).1, (cut text.toList).2, texts, fun _ _ => cut_iff, htexts, ?_⟩
  constructor
  case format => exact fun hle => callBuiltin_format htemplate htexts hcut hle span
  case printf => exact fun hle => callBuiltin_printf htemplate htexts hcut hle span
  case unfilled => exact fun hlt => callBuiltin_unfilled htemplate htexts hcut hlt span
  case print => exact callBuiltin_print htexts span
  case println => exact callBuiltin_println htexts span

/-- A template with braces of all kinds, a string that looks like a placeholder, and a vector. -/
def braces : State :=
  { heap := (Heap.buildAll {} #[] [.atom (.string "\x7b\x7b\x7d\x7bé\x7d\x7b\x7d\x7d"),
      .atom (.string "\x7b\x7d"), .vector [.atom (.int 7)]]).2 }

theorem templates_rendered_braces :
    ∃ first rest texts,
      (∀ first' rest', Cut "\x7b\x7b\x7d\x7bé\x7d\x7b\x7d\x7d".toList first' rest' ↔
        first' = first ∧ rest' = rest) ∧
      List.Forall₂ braces.heap.store.Shows [1, 3] texts ∧
        Rendered braces 0 [1, 3] none first rest texts := by
  obtain ⟨hclosed, hgrounded⟩ := Store.grounded_of_older (s := braces.heap.store) (by decide)
  have hargs : ∀ o ∈ [1, 3], braces.heap.store.Has o := by decide
  exact templates_rendered hclosed rfl (fun o ho => hgrounded o (hargs o ho)) none

end Eval
end Scripting
