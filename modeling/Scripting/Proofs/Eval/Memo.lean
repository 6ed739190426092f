import Mathlib.Tactic.Common
import Scripting.Proofs.Eval.Decomposition
import Scripting.Proofs.Eval.Places
import Scripting.Proofs.Store.Sweeping

/-! The objects that declarations stand for. A declaration gets its object when it is first needed,
and stands for it until an evaluation ends after which nothing else holds the object. -/
namespace Scripting

namespace State

variable {s t : State} {k : Nat} {o : ObjectId} {x y : Nat × ObjectId} {held : List ObjectId}

/-- What is remembered is for each declaration one object of its own. -/
structure Memo (s : State) : Prop where
  payload : ∀ x ∈ s.functions, ∃ d : Decl, d.id = x.1 ∧ s.heap.store.value x.2 = .atom (.function d)
  single : ∀ x ∈ s.functions, ∀ y ∈ s.functions, x.1 = y.1 → x.2 = y.2

theorem Memo.eq_iff (h : s.Memo) (hx : x ∈ s.functions) (hy : y ∈ s.functions) :
    x.1 = y.1 ↔ x.2 = y.2 := by
  refine ⟨h.single x hx y hy, fun heq => ?_⟩
  obtain ⟨d, hd, hvalue⟩ := h.payload x hx
  obtain ⟨e, he, hvalue'⟩ := h.payload y hy
  rw [heq, hvalue'] at hvalue
  cases hvalue
  exact hd.symm.trans he

theorem Memo.lookup_iff (h : s.Memo) : s.functions.lookup k = some o ↔ (k, o) ∈ s.functions := by
  refine ⟨Step.mem_of_lookup, fun hin => ?_⟩
  cases hlookup : s.functions.lookup k with
  | none => exact absurd (List.lookup_eq_none_iff.mp hlookup _ hin) (by simp)
  | some p => exact congrArg some (h.single _ (Step.mem_of_lookup hlookup) _ hin rfl)

/-- Functions hold nothing. -/
theorem Memo.elements (h : s.Memo) (hx : x ∈ s.functions) :
    (s.heap.store.value x.2).elements = #[] := by
  obtain ⟨d, -, hvalue⟩ := h.payload x hx
  rw [hvalue]
  rfl

theorem Memo.has (h : s.Memo) (hx : x ∈ s.functions) : s.heap.store.Has x.2 := by
  obtain ⟨d, -, hvalue⟩ := h.payload x hx
  by_contra hn
  rw [Store.value_of_not_has hn] at hvalue
  cases hvalue

/-- Less may be remembered, of functions that stay as they are. -/
theorem Memo.mono (h : s.Memo) (hfs : ∀ x ∈ t.functions, x ∈ s.functions)
    (hvalue : ∀ x ∈ t.functions, ∀ d, s.heap.store.value x.2 = .atom (.function d) →
      t.heap.store.value x.2 = .atom (.function d)) : t.Memo where
  payload := by
    intro x hx
    obtain ⟨d, hd, hpayload⟩ := h.payload x (hfs x hx)
    exact ⟨d, hd, hvalue x hx d hpayload⟩
  single := fun x hx y hy => h.single x (hfs x hx) y (hfs y hy)

end State

/-! ### Changes -/

section

variable {s t : State} {x : Nat × ObjectId}

theorem Change.memo (h : Change s t) (hs : s.Memo) : t.Memo := by
  cases h with
  | @remember d hnone =>
    have hnew : ∀ x ∈ s.functions, d.id ≠ x.1 := fun x hx => by
      simpa using List.lookup_eq_none_iff.mp hnone x hx
    refine ⟨fun x hx => ?_, fun x hx y hy heq => ?_⟩
    · rcases List.mem_cons.mp hx with rfl | hx
      · exact ⟨d, rfl, by simp [Heap.alloc, Store.value_push]⟩
      · obtain ⟨e, he, hvalue⟩ := hs.payload x hx
        exact ⟨e, he, (Change.remember hnone).lasts.atom (hs.has hx) hvalue⟩
    · rcases List.mem_cons.mp hx with rfl | hx <;> rcases List.mem_cons.mp hy with rfl | hy
      · rfl
      · exact absurd heq (hnew y hy)
      · exact absurd heq.symm (hnew x hx)
      · exact hs.single x hx y hy heq
  | alloc => exact hs.mono (fun _ => id) fun x hx d => Change.alloc.lasts.atom (hs.has hx)
  | refill hes hsize =>
    exact hs.mono (fun _ => id) fun x hx d => (Change.refill hes hsize).lasts.atom (hs.has hx)
  | restack hstore hdepth =>
    exact hs.mono (fun _ => id) fun x hx d => (Change.restack hstore hdepth).lasts.atom (hs.has hx)
  | record | write | interrupt => exact ⟨hs.payload, hs.single⟩

theorem Change.next_le (h : Change s t) : s.heap.store.next ≤ t.heap.store.next := by
  cases h with
  | alloc | remember => simp [Heap.alloc, Store.next_push]
  | refill => simp [Store.next_setValue]
  | restack hstore => exact Nat.le_of_eq hstore.next.symm
  | record | write | interrupt => exact Nat.le_refl _

/-- What is newly remembered is a new object. -/
theorem Change.mem_functions (h : Change s t) (hx : x ∈ t.functions) :
    x ∈ s.functions ∨ s.heap.store.next ≤ x.2 := by
  cases h with
  | remember =>
    rcases List.mem_cons.mp hx with rfl | hx
    · exact .inr (Nat.le_refl _)
    · exact .inl hx
  | _ => exact .inl hx

theorem Changes.memo (h : Changes s t) (hs : s.Memo) : t.Memo := by
  induction h with
  | refl => exact hs
  | tail _ hstep ih => exact hstep.memo ih

theorem Changes.next_le (h : Changes s t) : s.heap.store.next ≤ t.heap.store.next := by
  induction h with
  | refl => exact Nat.le_refl _
  | tail _ hstep ih => exact Nat.le_trans ih hstep.next_le

theorem Changes.mem_functions (h : Changes s t) (hx : x ∈ t.functions) :
    x ∈ s.functions ∨ s.heap.store.next ≤ x.2 := by
  induction h with
  | refl => exact .inl hx
  | tail hchanges hstep ih =>
    rcases hstep.mem_functions hx with hx | hnext
    · exact ih hx
    · exact .inr (Nat.le_trans (Changes.next_le hchanges) hnext)

end

namespace Environment

variable {e : Environment} {s : Store}

theorem maxCallDepth_leaveMany (n : Nat) : (leaveMany n e s).1.maxCallDepth = e.maxCallDepth := by
  induction n generalizing e s with
  | zero => rfl
  | succ n ih => exact ih.trans sameDepth_leave.2

theorem maxCallDepth_restore {c : Checkpoint} : (e.restore s c).1.maxCallDepth = e.maxCallDepth :=
  maxCallDepth_leaveMany _

end Environment

namespace Eval

variable {α : Type} {x : Eval α} {s t : State} {k fuel : Nat} {n : Node} {o p : ObjectId}

theorem Makes.unwinding (h : Makes x) : Makes (Eval.unwinding x) := by
  intro s
  cases hx : x s with
  | ok a t =>
    have hend : Eval.unwinding x s = .ok a t := by simp only [Eval.unwinding, hx]
    rw [after_ok hend]
    exact h.ok hx
  | error stop t =>
    have hend : Eval.unwinding x s = .error stop (t.restore s.env.checkpoint) := by
      simp only [Eval.unwinding, hx]
    rw [after_error hend]
    refine .tail (after_error hx ▸ h s) ?_
    exact .restack Environment.recounts_restore Environment.maxCallDepth_restore

/-! ### What a node stands for -/

/-- An evaluation with an inspector, who sees each node with its state and its value, and stops with
an alarm where the value is not accepted. -/
def inspected (accepts : Node → State → ObjectId → Bool) (alarm : Stop) : Nat → Node → Eval ObjectId
  | 0, _ => throw .exhausted
  | fuel + 1, n => fun s =>
    match (do
      checkInterrupt n.span
      trace n
      form (inspected accepts alarm fuel) fuel n : Eval ObjectId) s with
    | .ok o t => if accepts n s o then .ok o t else .error alarm t
    | .error stop t => .error stop t

/-- An inspector who accepts all values that nodes have is not noticed. -/
theorem Goes.inspected {K : Lasting} {accepts : Node → State → ObjectId → Bool} {alarm : Stop}
    (haccepts : ∀ {fuel n s o t}, K.holds s t → Eval.node fuel n s = .ok o t → accepts n s o)
    (fuel : Nat) (n : Node) : Goes K (Eval.inspected accepts alarm fuel n) (Eval.node fuel n) := by
  induction fuel generalizing n with
  | zero => exact Congruent.goes (.same .throw_exhausted)
  | succ fuel ih =>
    intro s
    have hev : ∀ n, Congruent (fun _ => Goes K) (Eval.inspected accepts alarm fuel n)
        (Eval.node fuel n) :=
      fun n => .given (ih n)
    have hinner : Goes K
        (do
          Eval.checkInterrupt n.span
          Eval.trace n
          Eval.form (Eval.inspected accepts alarm fuel) fuel n)
        (Eval.node (fuel + 1) n) := (Congruent.visit hev (Congruent.whileHolds hev fuel) n).goes
    obtain ⟨hchanges, heq⟩ := hinner s
    refine ⟨hchanges, fun hs => ?_⟩
    simp only [Eval.inspected, heq hs]
    cases hnode : Eval.node (fuel + 1) n s with
    | error stop t => rfl
    | ok o t =>
      rw [after_ok hnode] at hs
      exact if_pos (haccepts hs hnode)

end Eval

/-- Whether a node stands for the function of a declaration: as the declaration itself, as a name
that is its name and nothing else's, or as the running function. -/
def Node.denotes (s : State) (k : Nat) : Node → Bool
  | .function _ id _ _ _ _ => id = k
  | .var _ ident =>
    (s.builtins.find? ident.name).isNone && !s.env.contains ident.name &&
      (s.env.findFunction ident.name).any (·.id = k)
  | .self _ => s.env.currentFrame?.any (·.decl.id = k)
  | _ => false

/-- Whether a node, if it stands for the function of a declaration, has the given object as its
value. -/
def Node.standsFor (k : Nat) (object : Option ObjectId) (n : Node) (s : State)
    (o : ObjectId) : Bool :=
  !n.denotes s k || object = some o

namespace Eval

variable {α : Type} {x : Eval α} {s t : State} {k fuel : Nat} {n : Node} {o p : ObjectId}

theorem checkInterrupt_eq_ok {span : Option Span} {u : Unit}
    (h : checkInterrupt span s = .ok u t) : t = s := by
  obtain ⟨isInterrupted, t', hread, h⟩ := exists_of_bind_eq_ok h
  cases hread
  cases hs : s.isInterrupted with
  | true =>
    simp only [hs] at h
    cases h
  | false =>
    simp only [hs] at h
    cases h
    rfl

theorem trace_eq_ok {u : Unit} (h : trace n s = .ok u t) : ∃ log, t = { s with log } := by
  obtain ⟨isTraced, t', hread, h⟩ := exists_of_bind_eq_ok h
  cases hread
  split at h
  · cases h
    exact ⟨s.log.push _, rfl⟩
  · cases h
    exact ⟨s.log, rfl⟩

/-- Nothing but the log changes before the rule of a form applies. -/
theorem form_of_node (h : node (fuel + 1) n s = .ok o t) :
    ∃ log, form (node fuel) fuel n { s with log } = .ok o t := by
  obtain ⟨_, t₁, hcheck, h⟩ := exists_of_bind_eq_ok h
  obtain ⟨_, t₂, htrace, h⟩ := exists_of_bind_eq_ok h
  obtain ⟨log, rfl⟩ := trace_eq_ok htrace
  rw [checkInterrupt_eq_ok hcheck] at h
  exact ⟨log, h⟩

/-- A node that stands for a function gives the object that its declaration stands for. -/
theorem functionObject_of_denotes (h : node fuel n s = .ok o t) (hn : n.denotes s k) :
    ∃ (d : Decl) (log : Array LogEvent), d.id = k ∧ functionObject d { s with log } = .ok o t := by
  cases fuel with
  | zero => cases h
  | succ fuel =>
    obtain ⟨log, h⟩ := form_of_node h
    cases n with
    | function _ id ident params result body => exact ⟨_, log, by simpa [Node.denotes] using hn, h⟩
    | self =>
      simp only [Node.denotes, Option.any_eq_true, decide_eq_true_eq] at hn
      obtain ⟨frame, hframe, hk⟩ := hn
      refine ⟨frame.decl, log, hk, ?_⟩
      obtain ⟨found, t', hread, h⟩ := exists_of_bind_eq_ok h
      cases hread
      simpa only [hframe] using h
    | var _ ident =>
      simp only [Node.denotes, Bool.and_eq_true, Option.isNone_iff_eq_none, Bool.not_eq_true',
        Option.any_eq_true, decide_eq_true_eq] at hn
      obtain ⟨⟨hbuiltin, hvariable⟩, d, hd, hk⟩ := hn
      refine ⟨d, log, hk, ?_⟩
      obtain ⟨_, _, hread, h⟩ := exists_of_bind_eq_ok h
      cases hread
      simp only [hbuiltin] at h
      obtain ⟨_, _, hread, h⟩ := exists_of_bind_eq_ok h
      cases hread
      simp only [hvariable] at h
      obtain ⟨_, _, hread, h⟩ := exists_of_bind_eq_ok h
      cases hread
      simpa only [hd] using h
    | _ => cases hn

theorem lookup_of_denotes (h : node fuel n s = .ok o t) (hn : n.denotes s k) :
    t.functions.lookup k = some o := by
  obtain ⟨d, log, rfl, h⟩ := functionObject_of_denotes h hn
  rw [functionObject_eq] at h
  cases h
  exact lookup_objectFor.trans (if_pos rfl)

/-- Until it ends, a declaration stands for nothing but what it stands for in the end. -/
def Lasting.until (k : Nat) (final : State) : Lasting where
  holds := fun _ t => ∀ o, t.functions.lookup k = some o → final.functions.lookup k = some o
  split := fun h _ htu => ⟨fun o ho => h o (htu.lookup ho), h⟩

/-- In an evaluation, every node that stands for the function of a declaration has one value, which
is the object that is remembered in the end. -/
theorem inspected_eq_node {alarm : Stop} (fuel : Nat) (n : Node) (s : State) (k : Nat) :
    inspected (Node.standsFor k (((node fuel n).after s).functions.lookup k)) alarm fuel n s =
      node fuel n s := by
  refine (Goes.inspected (K := Lasting.until k ((node fuel n).after s)) ?_ fuel n s).2 fun _ => id
  intro fuel n s o t hs hnode
  cases hn : n.denotes s k with
  | false => simp [Node.standsFor, hn]
  | true => simp [Node.standsFor, hs o (lookup_of_denotes hnode hn)]

end Eval

/-! ### What is forgotten -/

namespace Store

variable {s : Store} {roots more : List ObjectId} {c o : ObjectId}

/-- With fewer roots, no less is gone. -/
theorem Gone.anti (h : s.Gone (roots ++ more) o) : s.Gone roots o := by
  induction h with
  | intro hslot hroot _ ih => exact .intro hslot (fun hin => hroot (List.mem_append_left _ hin)) ih

/-- Roots that hold nothing keep no container. -/
theorem gone_append_iff (hempty : ∀ q ∈ more, (s.value q).elements = #[])
    (ho : o ∈ (s.value c).elements) :
    s.Gone (roots ++ more) c ↔ s.Gone roots c := by
  refine ⟨Gone.anti, fun h => ?_⟩
  induction h generalizing o with
  | intro hslot hroot _ ih =>
    refine .intro hslot (fun hin => ?_) fun c hc hin => ih c hc hin hin
    rcases List.mem_append.mp hin with hin | hin
    · exact hroot hin
    · simp [hempty _ hin] at ho

theorem mem_contained_reap :
    o ∈ (s.reap roots).contained ↔ ∃ c, o ∈ (s.value c).elements ∧ ¬ s.Gone roots c := by
  rw [mem_contained_iff]
  constructor
  · rintro ⟨c, hc, hin⟩
    refine ⟨c, by rwa [← trims_reap.value hc], fun hgone => ?_⟩
    simp [Has, get?_reap_of_gone hgone] at hc
  · rintro ⟨c, hin, hkept⟩
    have hhas : (s.reap roots).Has c := by
      rw [Has, get?_reap_of_not_gone hkept]
      exact has_of_mem_elements hin
    exact ⟨c, hhas, by rwa [trims_reap.value hhas]⟩

theorem mem_contained_reap_append (hempty : ∀ q ∈ more, (s.value q).elements = #[]) :
    o ∈ (s.reap (roots ++ more)).contained ↔ o ∈ (s.reap roots).contained := by
  simp only [mem_contained_reap]
  refine exists_congr fun c => and_congr_right fun hin => ?_
  rw [gone_append_iff hempty hin]

theorem unheld_append (hempty : ∀ q ∈ more, (s.value q).elements = #[]) (ho : o ∉ more) :
    s.Unheld (roots ++ more) o ↔ s.Unheld roots o := by
  rw [unheld_iff, unheld_iff, mem_contained_reap_append hempty, List.mem_append, or_iff_left ho]

end Store

namespace State

variable {s : State} {x : Nat × ObjectId} {held : List ObjectId}

theorem Memo.elements_of_mem (h : s.Memo) {o : ObjectId} (ho : o ∈ s.functions.map (·.2)) :
    (s.heap.store.value o).elements = #[] := by
  obtain ⟨x, hx, rfl⟩ := List.mem_map.mp ho
  exact h.elements hx

theorem functions_prune : (s.prune held).functions = s.neededFunctions held := by
  unfold prune
  split
  · next hempty => simp [neededFunctions, List.isEmpty_iff.mp hempty]
  · have hsub : (s.neededFunctions held).Sublist s.functions := List.filter_sublist
    dsimp only
    split
    · next hdropped => exact (hsub.eq_of_length_le (by omega)).symm
    · rfl

/-- Remembered stays what something else holds, be it a variable, a container in use or a host. -/
theorem Memo.mem_prune (h : s.Memo) (hexact : s.env.Exact s.heap.store) :
    x ∈ (s.prune held).functions ↔
      x ∈ s.functions ∧ ¬ s.heap.store.Unheld (held ++ s.env.roots) x.2 := by
  have hroots : held ++ s.roots = (held ++ s.env.roots) ++ s.functions.map (·.2) := by
    simp [roots]
  have hbound : 0 < (s.heap.store.reap (held ++ s.roots)).bindings x.2 →
      x.2 ∈ held ++ s.env.roots := by
    intro hpos
    have hcount : 0 < s.heap.store.bindings x.2 := by
      rcases Store.trims_reap (s := s.heap.store) (r := held ++ s.roots) x.2 with hsame | ⟨hnone, -⟩
      · simpa only [Store.bindings, hsame] using hpos
      · simp [Store.bindings, hnone] at hpos
    rw [hexact x.2, List.count_pos_iff] at hcount
    exact List.mem_append_right _ (Environment.mem_roots_iff.mpr (.inl hcount))
  rw [functions_prune, neededFunctions, List.mem_filter, Store.unheld_iff]
  refine and_congr_right fun _ => ?_
  rw [Bool.or_eq_true, decide_eq_true_eq, Store.contains_held]
  rw [hroots, Store.mem_contained_reap_append fun o => h.elements_of_mem, ← hroots]
  tauto

theorem Memo.prune (h : s.Memo) : (s.prune held).Memo := by
  obtain ⟨fs, log, hs, hfs⟩ := s.prune_eq held
  rw [hs]
  exact h.mono hfs fun _ _ _ => id

end State
end Scripting
