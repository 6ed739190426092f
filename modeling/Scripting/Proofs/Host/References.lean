import Mathlib.Logic.Relation
import Mathlib.Tactic.Common
import Scripting.Proofs.Builtin.Calls
import Scripting.Proofs.Eval.Echoes
import Scripting.Proofs.Eval.Termination
import Scripting.Proofs.Host.Copies
import Scripting.Proofs.Host.Loops

/-! Two ways to evaluate a node. By reference, a variable or an element gives the object that is
stored there; by value, it gives a copy. In all else the two are one: they write the same, leave the
same state behind and fail for the same reasons. -/
namespace Scripting

open Relation Eval

/-- The node stands for a place that holds an object: a variable that no builtin hides, or an
element. -/
def State.denotes (s : State) : Node → Bool
  | .var _ ident => !s.builtins.contains ident.name && s.env.contains ident.name
  | .subscript .. => true
  | _ => false

/-- What kind of error an evaluation ended in, if its steps did not run out. -/
def Stop.kind? : Stop → Option ErrorKind
  | .raised e => some e.kind
  | .exhausted => none

namespace Eval

variable {ev : Node → Eval ObjectId} {n : Node} {s t : State} {o : ObjectId}
  {p : Place} {stop : Stop} {span : Option Span} {k limit : Nat}

/-! ### Places -/

theorem load_variable (slot : Slot) (span : Option Span) (s : State) :
    load (.variable slot) span s = match (Place.variable slot).content s with
    | some o => .ok o s
    | none => .error (.raised { kind := .uninitializedVariable, span }) s := by
  simp only [load, Bind.bind, EStateM.bind, read, Place.content]
  cases (s.env.variableAt? slot).bind (·.value) <;> rfl

theorem content_of_load (h : load p span s = .ok o t) : t = s ∧ p.content s = some o := by
  rcases p with slot | ⟨vector, index⟩
  · rw [load_variable] at h
    cases hc : (Place.variable slot).content s with
    | none =>
      rw [hc] at h
      cases h
    | some q =>
      rw [hc] at h
      cases h
      exact ⟨rfl, rfl⟩
  · obtain ⟨v, s', hread, h⟩ := exists_of_bind_eq_ok h
    cases hread
    cases hv : s.heap.store.value vector with
    | atom | tuple =>
      simp only [hv] at h
      cases h
    | vector es =>
      simp only [hv] at h
      cases hc : es[index]? with
      | none =>
        simp only [hc] at h
        cases h
      | some q =>
        simp only [hc] at h
        cases h
        refine ⟨rfl, ?_⟩
        simp only [Place.content, hv, hc]

/-- A variable that no builtin hides, with its place. -/
theorem exists_slot {ident : Ident} (h : s.denotes (.var span ident) = true) :
    s.builtins.find? ident.name = none ∧ ∃ slot, s.env.lookup ident.name = some slot := by
  obtain ⟨hbuiltin, hcontains⟩ := Bool.and_eq_true_iff.mp h
  refine ⟨?_, Option.isSome_iff_exists.mp hcontains⟩
  simpa [Builtins.contains] using hbuiltin

theorem variablePlace_eq {ident : Ident} {slot : Slot} (h : s.env.lookup ident.name = some slot) :
    variablePlace span ident s = .ok (.variable slot) s := by
  simp only [variablePlace, Bind.bind, EStateM.bind, read, h]
  rfl

theorem reference_variable {ident : Ident} {slot : Slot} (h : s.denotes (.var span ident) = true)
    (hslot : s.env.lookup ident.name = some slot) :
    reference ev (.var span ident) s = load (.variable slot) span s := by
  have hread : read (fun s : State =>
      !s.builtins.contains ident.name && s.env.contains ident.name) s = .ok true s :=
    congrArg (EStateM.Result.ok · s) h
  rw [reference, bind_ok hread, if_pos rfl, bind_ok (variablePlace_eq hslot)]

theorem name_variable {ident : Ident} {slot : Slot} (h : s.denotes (.var span ident) = true)
    (hslot : s.env.lookup ident.name = some slot) : name span ident s =
      match (Place.variable slot).content s with
      | some o => copy o s
      | none =>
        .error (.raised { kind := .uninitializedVariable, span := ident.span <|> span }) s := by
  obtain ⟨hbuiltin, -⟩ := exists_slot h
  have hcontains : s.env.contains ident.name = true := by simp [Environment.contains, hslot]
  simp only [name, Bind.bind, EStateM.bind, read, hbuiltin, hcontains, if_true,
    Environment.get, hslot, Place.content]
  cases (s.env.variableAt? slot).bind (·.value) <;> rfl

/-! ### The two ways side by side -/

theorem reference_of_not_denotes (h : s.denotes n = false) : reference ev n s = ev n s := by
  cases n with
  | var span ident =>
    have hread : read (fun s : State =>
        !s.builtins.contains ident.name && s.env.contains ident.name) s = .ok false s :=
      congrArg (EStateM.Result.ok · s) h
    rw [reference, bind_ok hread]
    rfl
  | subscript => cases h
  | _ => rfl

/-- What is found by reference is what is stored at the place that the node stands for. -/
theorem place_of_reference (h : s.denotes n = true) (ho : reference ev n s = .ok o t) :
    ∃ p, place ev n s = .ok p t ∧ p.content t = some o := by
  cases n with
  | var span ident =>
    obtain ⟨-, slot, hslot⟩ := exists_slot h
    rw [reference_variable h hslot] at ho
    obtain ⟨rfl, hcontent⟩ := content_of_load ho
    exact ⟨_, variablePlace_eq hslot, hcontent⟩
  | subscript span target index =>
    obtain ⟨vector, s₁, htarget, ho⟩ := exists_of_bind_eq_ok ho
    obtain ⟨p, s₂, hplace, ho⟩ := exists_of_bind_eq_ok ho
    obtain ⟨rfl, hcontent⟩ := content_of_load ho
    refine ⟨p, ?_, hcontent⟩
    rw [place, bind_ok htarget, hplace]
  | _ => cases h

/-- By value, what is found by reference is copied. -/
theorem form_of_reference_ok (h : s.denotes n = true) (ho : reference ev n s = .ok o t) :
    form ev limit n s = copy o t := by
  cases n with
  | var span ident =>
    obtain ⟨-, slot, hslot⟩ := exists_slot h
    rw [reference_variable h hslot] at ho
    obtain ⟨rfl, hcontent⟩ := content_of_load ho
    rw [form, name_variable h hslot, hcontent]
  | subscript span target index =>
    obtain ⟨vector, s₁, htarget, ho⟩ := exists_of_bind_eq_ok ho
    obtain ⟨p, s₂, hplace, ho⟩ := exists_of_bind_eq_ok ho
    rw [form, subscript, bind_ok htarget, bind_ok hplace, bind_ok ho]
  | _ => cases h

/-- What cannot be found by reference cannot be found by value, for a reason of the same kind. -/
theorem form_of_reference_error (limit : Nat) (h : s.denotes n = true)
    (he : reference ev n s = .error stop t) :
    ∃ stop', form ev limit n s = .error stop' t ∧ stop'.kind? = stop.kind? := by
  cases n with
  | var span ident =>
    obtain ⟨-, slot, hslot⟩ := exists_slot h
    rw [reference_variable h hslot, load_variable] at he
    rw [form, name_variable h hslot]
    cases hcontent : (Place.variable slot).content s with
    | some o =>
      rw [hcontent] at he
      cases he
    | none =>
      rw [hcontent] at he
      cases he
      exact ⟨_, rfl, rfl⟩
  | subscript span target index =>
    have hform : form ev limit (.subscript span target index) =
        reference ev (.subscript span target index) >>= copy := by
      simp only [form, subscript, reference, bind_assoc]
    refine ⟨stop, ?_, rfl⟩
    rw [hform, bind_error he]
  | _ => cases h

theorem node_noted (hflag : s.isInterrupted = false) (n : Node) (k : Nat) :
    ∃ s₁, s.Noted s₁ ∧ node (k + 1) n s = form (node k) k n s₁ := by
  obtain ⟨log, htrace⟩ := trace_eq (n := n) (s := s)
  refine ⟨{ s with log }, .log, ?_⟩
  rw [node, bind_ok (checkInterrupt_eq hflag), bind_ok htrace]

theorem denotes_noted (h : s.Noted t) : t.denotes n = s.denotes n := by
  rw [h]
  cases n <;> rfl

/-- How evaluation by value goes, given how evaluation by reference does with one step less. -/
theorem node_cases (hflag : s.isInterrupted = false) (h : s.denotes n = true) (k : Nat) :
    (∃ o t t₁, reference (node k) n s = .ok o t ∧ t.Noted t₁ ∧ node (k + 1) n s = copy o t₁) ∨
    (∃ e e' t t₁, reference (node k) n s = .error (.raised e) t ∧ t.Noted t₁ ∧ e'.kind = e.kind ∧
      node (k + 1) n s = .error (.raised e') t₁) ∨
    (¬ Finished (reference (node k) n s) ∧ ¬ Finished (node (k + 1) n s)) := by
  obtain ⟨s₁, hnoted, hnode⟩ := node_noted hflag n k
  have hechoes := Echoes.reference (fun n => Echoes.node (Nat.le_refl k) n) n
  have hdenotes : s₁.denotes n = true := (denotes_noted hnoted).trans h
  rw [hnode]
  by_cases hfinished : Finished (reference (node k) n s)
  · have hagree := hechoes.agree_of_finished hnoted hfinished
    cases hr : reference (node k) n s with
    | ok o t =>
      rw [hr] at hagree
      obtain ⟨t₁, hr₁, ht⟩ := hagree.ok_left
      exact .inl ⟨o, t, t₁, rfl, ht, form_of_reference_ok hdenotes hr₁⟩
    | error stop t =>
      rw [hr] at hagree
      obtain ⟨t₁, hr₁, ht⟩ := hagree.error_left
      obtain ⟨stop', hform, hkind⟩ := form_of_reference_error k hdenotes hr₁
      cases stop with
      | exhausted => exact absurd hr (hfinished t)
      | raised e =>
        cases stop' with
        | exhausted => cases hkind
        | raised e' => exact .inr (.inl ⟨e, e', t, t₁, rfl, ht, Option.some.inj hkind, hform⟩)
  · refine .inr (.inr ⟨hfinished, fun hform => hfinished ?_⟩)
    -- what ends by value ends by reference, with this log and so with any
    have hfinished₁ : Finished (reference (node k) n s₁) := by
      intro t hr₁
      obtain ⟨stop', hstop, hkind⟩ := form_of_reference_error k hdenotes hr₁
      cases stop' with
      | raised e' => cases hkind
      | exhausted => exact hform t hstop
    exact (hechoes.agree_of_finished hnoted.symm hfinished₁).finished hfinished₁

end Eval

/-- What two evaluations of a node have in common that both give an object, the first one by
reference and the second one by value. The states are the same but for the log, and for objects that
only the second one has. -/
structure SameMeaning (s : State) (n : Node) (fuel : Nat) (o : ObjectId) (t : State) (c : ObjectId)
    (u : State) : Prop where
  same : u = { t with heap := u.heap, log := u.log }
  keeps : t.heap.Keeps u.heap
  tree : ∃ x, t.heap.store.tree? o = some x ∧ u.heap.store.tree? c = some x
  text : ∃ text, textOf o t = .ok text t ∧ textOf c u = .ok text u
  /-- By reference, a place gives the object that is stored there. -/
  stored : s.denotes n = true → ∃ p, place (node fuel) n s = .ok p t ∧ p.content t = some o
  /-- By value, it gives objects that were made since the beginning. -/
  new : s.denotes n = true → ∀ q, ReflTransGen u.heap.store.Contains c q →
    s.heap.store.next ≤ q ∧ q < u.heap.store.next

/-- How two evaluations of a node end alike, the first one by reference and the second one by
value. -/
def EndAlike (s : State) (n : Node) (fuel : Nat) :
    EStateM.Result Stop State ObjectId → EStateM.Result Stop State ObjectId → Prop
  | .ok o t, .ok c u => SameMeaning s n fuel o t c u
  | .error (.raised e) t, .error (.raised e') u => e'.kind = e.kind ∧ u = { t with log := u.log }
  | _, _ => False

namespace State.WellFormed

variable {s t t₁ : State} {n : Node} {o : ObjectId} {k m : Nat}

/-- What is found by reference is not inside itself. -/
theorem exists_tree (hs : s.WellFormed) (ho : reference (node k) n s = .ok o t) :
    s.heap.store.next ≤ t.heap.store.next ∧ ∃ x, t.heap.store.tree? o = some x := by
  have hmirrored := mirrored_node (D := fun _ => True) (fun _ _ _ _ => trivial) k
  have hended := Parallel.reference hmirrored (n := n) (fun _ _ => trivial) s s hs.renamed
  rw [ho] at hended
  obtain ⟨R, hgrow, ht, hpair⟩ := hended
  have horderly := ht.store.left
  exact ⟨hgrow.left.next, horderly.acyclic.exists_tree horderly.closed (ht.store.has hpair).1⟩

theorem sameMeaning_copy (hs : s.WellFormed) (h : s.denotes n = true)
    (ho : reference (node k) n s = .ok o t) (hnoted : t.Noted t₁) :
    ∃ c u, copy o t₁ = .ok c u ∧ SameMeaning s n k o t c u := by
  obtain ⟨hnext, x, hx⟩ := hs.exists_tree ho
  have hheap : t₁.heap = t.heap := by rw [hnoted]
  have hcopy : copy o t₁ = build x t₁ := copy_eq (by rw [hheap]; exact hx)
  refine ⟨(t₁.heap.build x).1, t₁.withHeap (t₁.heap.build x).2, hcopy, ?_⟩
  have hbuilt := t₁.heap.tree?_build x
  exact
    { same := by rw [hnoted]; rfl
      keeps := by rw [← hheap]; exact (t₁.heap.laid_build x).2.2.2
      tree := ⟨x, hx, hbuilt⟩
      text := ⟨x.text, textOf_eq ⟨x, hx, rfl⟩, textOf_eq ⟨x, hbuilt, rfl⟩⟩
      stored := fun _ => place_of_reference h ho
      new := by
        intro _ q hq
        obtain ⟨hle, hlt⟩ := Heap.inside_build hq
        rw [hheap] at hle
        exact ⟨Nat.le_trans hnext hle, hlt⟩ }

theorem finished_iff (hs : s.WellFormed) (hflag : s.isInterrupted = false)
    (h : s.denotes n = true) (k : Nat) :
    Finished (reference (node k) n s) ↔ Finished (node (k + 1) n s) := by
  rcases node_cases hflag h k with
    ⟨o, t, t₁, ho, ht, hnode⟩ | ⟨e, e', t, t₁, he, -, -, hnode⟩ | ⟨hno, hno'⟩
  · obtain ⟨c, u, hcopy, -⟩ := hs.sameMeaning_copy h ho ht
    rw [ho, hnode, hcopy]
    exact ⟨fun _ => finished_ok, fun _ => finished_ok⟩
  · rw [he, hnode]
    exact ⟨fun _ => finished_raised, fun _ => finished_raised⟩
  · exact ⟨fun hyes => absurd hyes hno, fun hyes => absurd hyes hno'⟩

theorem endAlike_of_denotes (hs : s.WellFormed) (hflag : s.isInterrupted = false)
    (h : s.denotes n = true) (hk : Finished (reference (node k) n s))
    (hm : Finished (node (m + 1) n s)) :
    EndAlike s n k (reference (node k) n s) (node (m + 1) n s) := by
  have hreference := (hs.finished_iff hflag h m).mpr hm
  have hagree := Echoes.agree (x := fun k => reference (node k) n)
    (fun k m hkm => Echoes.reference (fun n => Echoes.node hkm n) n) hreference hk
  rcases node_cases hflag h m with
    ⟨o, t₁, t₂, ho, ht, hnode⟩ | ⟨e, e', t₁, t₂, he, ht, hkind, hnode⟩ | ⟨hno, -⟩
  · rw [ho] at hagree
    obtain ⟨t, hr, hnoted⟩ := hagree.ok_left
    obtain ⟨c, u, hcopy, hsame⟩ := hs.sameMeaning_copy h hr (hnoted.symm.trans ht)
    rw [hr, hnode, hcopy]
    exact hsame
  · rw [he] at hagree
    obtain ⟨t, hr, hnoted⟩ := hagree.error_left
    rw [hr, hnode]
    exact ⟨hkind, hnoted.symm.trans ht⟩
  · exact absurd hreference hno

/-- Where a node stands for no place, there is only one way to evaluate it. -/
theorem endAlike_of_not_denotes (hs : s.WellFormed) (h : s.denotes n = false)
    (hk : Finished (node k n s)) (hm : Finished (node m n s)) :
    EndAlike s n k (node k n s) (node m n s) := by
  have hagree := Echoes.agree (x := fun k => node k n) (fun k m hkm => Echoes.node hkm n) hk hm
  cases hr : node k n s with
  | ok o t =>
    rw [hr] at hagree
    obtain ⟨u, hu, hnoted⟩ := hagree.ok_left
    have ho : reference (node k) n s = .ok o t := (reference_of_not_denotes h).trans hr
    obtain ⟨-, x, hx⟩ := hs.exists_tree ho
    have hheap : u.heap = t.heap := by rw [hnoted]
    have hx' : u.heap.store.tree? o = some x := by
      rw [hheap]
      exact hx
    rw [hu]
    exact
      { same := by rw [hnoted]
        keeps := by rw [hheap]; exact ⟨Nat.le_refl _, fun _ => rfl⟩
        tree := ⟨x, hx, hx'⟩
        text := ⟨x.text, textOf_eq ⟨x, hx, rfl⟩, textOf_eq ⟨x, hx', rfl⟩⟩
        stored := by rw [h]; nofun
        new := by rw [h]; nofun }
  | error stop t =>
    rw [hr] at hagree
    obtain ⟨u, hu, hnoted⟩ := hagree.error_left
    cases stop with
    | exhausted => exact absurd hr (hk t)
    | raised e =>
      rw [hu]
      exact ⟨rfl, hnoted⟩

end State.WellFormed

/-- Evaluation by reference and evaluation by value come to an end together, however many steps it
takes, and then they end alike. -/
theorem reference_and_value_agree {s : State} (hs : s.WellFormed)
    (hflag : s.isInterrupted = false) (n : Node) :
    ((∃ fuel, Finished (reference (node fuel) n s)) ↔ ∃ fuel, Finished (node fuel n s)) ∧
    ∀ k m, Finished (reference (node k) n s) → Finished (node m n s) →
      EndAlike s n k (reference (node k) n s) (node m n s) := by
  cases h : s.denotes n with
  | false =>
    have hone : ∀ k, reference (node k) n s = node k n s := fun _ => reference_of_not_denotes h
    simp only [hone]
    exact ⟨trivial, fun k m hk hm => hs.endAlike_of_not_denotes h hk hm⟩
  | true =>
    have hsucc : ∀ {m}, Finished (node m n s) → ∃ j, m = j + 1 := by
      intro m hm
      cases m with
      | zero => exact absurd rfl (hm s)
      | succ j => exact ⟨j, rfl⟩
    refine ⟨⟨?_, ?_⟩, ?_⟩
    · rintro ⟨k, hk⟩
      exact ⟨k + 1, (hs.finished_iff hflag h k).mp hk⟩
    · rintro ⟨m, hm⟩
      obtain ⟨j, rfl⟩ := hsucc hm
      exact ⟨j, (hs.finished_iff hflag h j).mpr hm⟩
    · intro k m hk hm
      obtain ⟨j, rfl⟩ := hsucc hm
      exact hs.endAlike_of_denotes hflag h hk hm

/-- Binds a variable to a vector of two vectors. -/
def bindRows : Node :=
  let row (a b : Int64) : Node := .list none [.literal none (.int a), .literal none (.int b)]
  .letVar none ⟨"v", none⟩ none (some (.list none [row 1 2, row 3 4]))

def rowsBound : Host := ((Host.eval bindRows).run (Moment.start {} .standard).host).2

/-- The second of the inner vectors, with an index that is computed. -/
def secondRow : Node :=
  .subscript none (.var none ⟨"v", none⟩)
    (.binary none .sub (.literal none (.int 2)) (.literal none (.int 1)))

theorem reference_and_value_agree_rows :
    rowsBound.state.WellFormed ∧ rowsBound.state.isInterrupted = false ∧
      rowsBound.state.denotes secondRow = true ∧
      ∃ o t c u, reference (node 3) secondRow rowsBound.state = .ok o t ∧
        node 3 secondRow rowsBound.state = .ok c u ∧ o < rowsBound.state.heap.store.next ∧
        SameMeaning rowsBound.state secondRow 3 o t c u := by
  have hevaluates : rowsBound.Evaluates {} := .eval .start bindRows
  have hformed : rowsBound.state.WellFormed := hevaluates.proper.wellFormed
  have hflag : rowsBound.state.isInterrupted = false := by decide +kernel
  have hdenotes : rowsBound.state.denotes secondRow = true := by decide +kernel
  have hold : 5 < rowsBound.state.heap.store.next := by decide +kernel
  obtain ⟨t, hreference⟩ : ∃ t, reference (node 3) secondRow rowsBound.state = .ok 5 t :=
    ⟨_, eq_ok_of_value? (by decide +kernel)⟩
  obtain ⟨u, hvalue⟩ : ∃ u, node 3 secondRow rowsBound.state = .ok 13 u :=
    ⟨_, eq_ok_of_value? (by decide +kernel)⟩
  obtain ⟨-, hagree⟩ := reference_and_value_agree hformed hflag secondRow
  -- what the state is made of no longer matters
  generalize rowsBound.state = s at *
  have halike := hagree 3 3 (hreference ▸ finished_ok) (hvalue ▸ finished_ok)
  rw [hreference, hvalue] at halike
  exact ⟨hformed, hflag, hdenotes, 5, t, 13, u, hreference, hvalue, hold, halike⟩

end Scripting
