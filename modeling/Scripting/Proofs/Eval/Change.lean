import Mathlib.Logic.Relation
import Mathlib.Tactic.Common
import Scripting.Proofs.Eval.Routine

/-! The elementary changes of state that evaluations are made of, whatever state they start from and
however they end. -/
namespace Scripting

open Relation

/-- An elementary change of state. -/
inductive Change : State → State → Prop
  | alloc {s : State} {v : Value} : Change s { s with heap := (s.heap.alloc v).2 }
  /-- A vector gets elements, of which it had no more before. -/
  | refill {s : State} {o : ObjectId} {es fs : Array ObjectId}
      (hes : s.heap.store.value o = .vector es) (hsize : es.size ≤ fs.size) :
      Change s { s with heap := { s.heap with store := s.heap.store.setValue o (.vector fs) } }
  /-- The stacks change, and the counts of objects with them. -/
  | restack {s : State} {env : Environment} {store : Store} (hstore : s.heap.store.Recounts store)
      (hdepth : env.maxCallDepth = s.env.maxCallDepth) :
      Change s { s with env, heap := { s.heap with store } }
  /-- A declaration gets the object that it is to stand for. -/
  | remember {s : State} {d : Decl} (hnone : s.functions.lookup d.id = none) :
      Change s { s with
        heap := (s.heap.alloc (.atom (.function d))).2
        functions := (d.id, s.heap.store.next) :: s.functions }
  | record {s : State} {event : LogEvent} : Change s { s with log := s.log.push event }
  | write {s : State} {sink : Sink} : Change s { s with sink }
  | interrupt {s : State} : Change s { s with isInterrupted := true }

abbrev Changes : State → State → Prop := ReflTransGen Change

/-! ### What changes leave of a state -/

/-- Objects stay, with what they hold; only vectors may hold something else, and no less. -/
structure Store.Lasts (s t : Store) : Prop where
  has : ∀ {o}, s.Has o → t.Has o
  value : ∀ {o}, s.Has o → t.value o = s.value o ∨
    ∃ es fs, s.value o = .vector es ∧ t.value o = .vector fs ∧ es.size ≤ fs.size

namespace Store.Lasts

variable {s t u : Store} {o : ObjectId}

theorem of_same (hhas : ∀ {o}, s.Has o → t.Has o)
    (hvalue : ∀ {o}, s.Has o → t.value o = s.value o) :
    Lasts s t := ⟨hhas, fun ho => .inl (hvalue ho)⟩

theorem refl : Lasts s s := of_same id fun _ => rfl

theorem vector {es : Array ObjectId} (h : Lasts s t) (hes : s.value o = .vector es) :
    ∃ fs, t.value o = .vector fs ∧ es.size ≤ fs.size := by
  rcases h.value (has_of_value_vector hes) with hsame | ⟨es', fs, hes', hfs, hsize⟩
  · exact ⟨es, hsame.trans hes, Nat.le_refl _⟩
  · rw [hes] at hes'
    cases hes'
    exact ⟨fs, hfs, hsize⟩

theorem trans (h : Lasts s t) (h' : Lasts t u) : Lasts s u where
  has := fun ho => h'.has (h.has ho)
  value := by
    intro o ho
    rcases h.value ho with hsame | ⟨es, fs, hes, hfs, hsize⟩
    · rw [← hsame]
      exact h'.value (h.has ho)
    · obtain ⟨gs, hgs, hsize'⟩ := h'.vector hfs
      exact .inr ⟨es, gs, hes, hgs, Nat.le_trans hsize hsize'⟩

theorem atom {a : Atom} (h : Lasts s t) (ho : s.Has o) (ha : s.value o = .atom a) :
    t.value o = .atom a := by
  rcases h.value ho with hsame | ⟨es, -, hes, -⟩
  · exact hsame.trans ha
  · rw [ha] at hes
    cases hes

end Store.Lasts

namespace Change

variable {s t : State}

theorem lasts (h : Change s t) : s.heap.store.Lasts t.heap.store := by
  cases h with
  | alloc | remember =>
    refine .of_same (fun ho => Store.has_push.mpr (.inr ho)) fun ho => ?_
    exact (Store.value_push).trans (if_neg (Nat.ne_of_lt ho.lt_next))
  | @refill o es fs hes hsize =>
    refine ⟨Store.has_setValue.mpr, fun {p} hp => ?_⟩
    simp only [Store.value_setValue]
    by_cases hpo : p = o
    · subst hpo
      exact .inr ⟨es, fs, hes, if_pos ⟨rfl, hp⟩, hsize⟩
    · exact .inl (if_neg fun hn => hpo hn.1)
  | restack hstore => exact .of_same (fun {o} => (hstore.has o).mpr) fun {o} _ => hstore.value o
  | record | write | interrupt => exact .refl

/-- What a declaration stands for is settled when it is first needed. -/
theorem lookup {k : Nat} {o : ObjectId} (h : Change s t) (hk : s.functions.lookup k = some o) :
    t.functions.lookup k = some o := by
  cases h with
  | @remember d hnone =>
    have hne : k ≠ d.id := by
      rintro rfl
      rw [hnone] at hk
      cases hk
    simpa [List.lookup_cons, beq_eq_false_iff_ne.mpr hne] using hk
  | _ => exact hk

theorem maxCallDepth (h : Change s t) : t.env.maxCallDepth = s.env.maxCallDepth := by
  cases h with
  | restack _ hdepth => exact hdepth
  | _ => rfl

end Change

namespace Changes

variable {s t : State}

theorem lasts (h : Changes s t) : s.heap.store.Lasts t.heap.store := by
  induction h with
  | refl => exact .refl
  | tail _ hstep ih => exact ih.trans hstep.lasts

theorem lookup {k : Nat} {o : ObjectId} (h : Changes s t) (hk : s.functions.lookup k = some o) :
    t.functions.lookup k = some o := by
  induction h with
  | refl => exact hk
  | tail _ hstep ih => exact hstep.lookup ih

theorem maxCallDepth (h : Changes s t) : t.env.maxCallDepth = s.env.maxCallDepth := by
  induction h with
  | refl => rfl
  | tail _ hstep ih => exact hstep.maxCallDepth.trans ih

end Changes

/-- The state in which an evaluation ends, with a value or without. -/
def Eval.after {α : Type} (x : Eval α) (s : State) : State :=
  match x s with
  | .ok _ t => t
  | .error _ t => t

/-! ### Routines -/

mutual

/-- A tree is built by one allocation after the other. -/
theorem changes_build {s : State} {h : Heap} (hs : Changes s { s with heap := h }) :
    (x : Tree) → Changes s { s with heap := (h.build x).2 }
  | .atom _ => hs.tail .alloc
  | .tuple xs => (changes_buildAll hs #[] xs).tail .alloc
  | .vector xs => (changes_buildAll hs #[] xs).tail .alloc

theorem changes_buildAll {s : State} {h : Heap} (hs : Changes s { s with heap := h })
    (done : Array ObjectId) : (xs : List Tree) → Changes s { s with heap := (h.buildAll done xs).2 }
  | [] => hs
  | x :: xs => changes_buildAll (changes_build hs x) _ xs

end

namespace Eval

variable {α β : Type} {x : Eval α} {f : α → Eval β} {s t : State} {o : ObjectId}
  {span : Option Span}

theorem after_ok {a : α} (h : x s = .ok a t) : x.after s = t := by simp only [after, h]

theorem after_error {stop : Stop} (h : x s = .error stop t) : x.after s = t := by
  simp only [after, h]

/-- An evaluation that makes elementary changes only. -/
def Makes (x : Eval α) : Prop := ∀ s, Changes s (x.after s)

namespace Makes

theorem ok {a : α} (h : Makes x) (hx : x s = .ok a t) : Changes s t := by
  have hs := h s
  rwa [after_ok hx] at hs

theorem bind (hx : Makes x) (hf : ∀ a, Makes (f a)) : Makes (x >>= f) := by
  intro s
  have hs := hx s
  simp only [after, Bind.bind, EStateM.bind] at hs ⊢
  cases hr : x s with
  | error stop t =>
    rw [hr] at hs
    exact hs
  | ok a t =>
    rw [hr] at hs
    exact hs.trans (hf a t)

end Makes

theorem Routine.makes {m : Manner} (h : Routine m x) : Makes x := by
  induction h with
  | bind _ _ ihx ihf => exact ihx.bind ihf
  | alloc => exact fun _ => .single .alloc
  | @build x => exact fun s => changes_build (h := s.heap) .refl x
  | @buildAll xs => exact fun s => changes_buildAll (h := s.heap) .refl #[] xs
  | functionObject =>
    -- The object is made before it is remembered.
    intro s
    rw [after_ok functionObject_eq]
    unfold objectFor
    split
    · exact .refl
    · next hnone => exact .single (.remember hnone)
  | @refill o f hf =>
    intro s
    simp only [after, Eval.refill, Eval.valueOf, Bind.bind, EStateM.bind, Eval.read]
    cases hfs : f (s.heap.store.value o) with
    | error e => exact .refl
    | ok fs =>
      obtain ⟨es, hes, hsize⟩ := hf _ fs hfs
      exact .single (.refill hes hsize)
  | record => exact fun _ => .single .record
  | output => exact fun _ => .single .write
  | interrupt => exact fun _ => .single .interrupt
  | @walk o =>
    intro s
    simp only [after, Eval.treeOf]
    cases s.heap.store.tree? o <;> exact .refl
  | restack _ hdepth hstore =>
    exact fun s => .single (.restack (hstore _ _) (hdepth s.env s.heap.store).2)
  | reframe _ hdepth => exact fun s => .single (.restack .refl (hdepth s.env))
  | pure | raise | read | exhausted => exact fun _ => .refl

end Eval
end Scripting
