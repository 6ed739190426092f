import Mathlib.Tactic.Common
import Scripting.Proofs.Host.Moment

/-! Passes of the collector between any two turns: they take only what nobody can reach, and what
they took stays out of reach. -/
namespace Scripting

theorem Table.slots_insert {t : Table} {i : Nat} {o q : ObjectId}
    (h : (t.insert o).2.slots[i]? = some (some q)) : q = o ∨ t.slots[i]? = some (some q) := by
  unfold insert at h
  split at h
  · simp only [Array.getElem?_setIfInBounds] at h
    split at h
    · split at h <;> simp_all
    · exact .inr h
  · simp only [Array.getElem?_push] at h
    split at h
    · simp_all
    · exact .inr h

/-- Steps register only what they make. -/
theorem Step.registered {c c' : Config} {i : Nat} {q : ObjectId} (h : Step c c')
    (hq : c'.state.heap.table.slots[i]? = some (some q)) :
    c.state.heap.table.slots[i]? = some (some q) ∨ q = c.store.next ∧ c'.store.Has q := by
  cases h with
  | alloc | memoize =>
    obtain rfl | hold := Table.slots_insert hq
    · exact .inr ⟨rfl, Step.has_alloc.mpr (.inl rfl)⟩
    · exact .inl hold
  | _ => exact .inl hq

namespace Moment

variable {m m' : Moment} {which : HeapName} {limit : Option Nat} {o : ObjectId} {i : Nat}

/-- The object is in a slot of a table. -/
def Registered (m : Moment) (which : HeapName) (i : Nat) (o : ObjectId) : Prop :=
  (m.host.heap which).table.slots[i]? = some (some o)

instance : Decidable (m.Registered which i o) := inferInstanceAs (Decidable (_ = _))

/-- Only objects that were made are registered. -/
def Made (m : Moment) : Prop := ∀ which i o, m.Registered which i o → o < m.host.store.next

theorem registered_setHeap {heap : Heap} {w : HeapName} {U : List ObjectId}
    (h : (Moment.mk (m.host.setHeap heap which) U).Registered w i o) :
    heap.table.slots[i]? = some (some o) ∨ m.Registered w i o := by
  cases which <;> cases w
  · exact .inl h
  · exact .inr h
  · exact .inr h
  · exact .inl h

/-- A change of a heap that registers nothing. -/
theorem Made.setHeap {heap : Heap} {U : List ObjectId} (hm : m.Made) (which : HeapName)
    (hlater : m.host.store.Later (m.host.setHeap heap which).store)
    (h : ∀ i o, heap.table.slots[i]? = some (some o) → m.Registered which i o) :
    (Moment.mk (m.host.setHeap heap which) U).Made := by
  intro w i o ho
  refine Nat.lt_of_lt_of_le ?_ hlater.next
  obtain hnew | hold := registered_setHeap ho
  · exact hm _ i o (h i o hnew)
  · exact hm w i o hold

/-- Another state for the same spare table. -/
theorem Made.steps {k : Host} {T U V : List ObjectId} (hm : m.Made)
    (hspare : k.spare = m.host.spare) (h : Steps ⟨m.host.state, T⟩ ⟨k.state, U⟩) :
    (Moment.mk k V).Made := by
  have hmain : ∀ {c : Config}, Steps ⟨m.host.state, T⟩ c →
      ∀ (i : Nat) (o : ObjectId), c.state.heap.table.slots[i]? = some (some o) →
        o < c.store.next := by
    intro c hsteps
    induction hsteps with
    | refl => exact fun i o => hm .main i o
    | tail hss hs ih =>
      intro i o ho
      obtain hold | ⟨-, hnew⟩ := hs.registered ho
      · exact Nat.lt_of_lt_of_le (ih i o hold) hs.later.next
      · exact hnew.lt_next
  intro w i o ho
  cases w with
  | main => exact hmain h i o ho
  | spare =>
    refine Nat.lt_of_lt_of_le (hm .spare i o ?_) h.later.next
    rw [Registered, Host.heap, ← hspare]
    exact ho

theorem Made.quiet {k l : Host} {U : List ObjectId} (hm : (Moment.mk k U).Made) (h : k.Quiet l) :
    (Moment.mk l U).Made := by
  obtain ⟨sink, log, hstate, -, hspare⟩ := h
  refine Made.steps (m := ⟨k, U⟩) (T := []) (U := []) hm hspare ?_
  rw [hstate]
  exact .single .note

end Moment

theorem Host.spare_eval {h : Host} {n : Node} : ((Host.eval n).run h).2.spare = h.spare := by
  simp only [run_eval, run_act]
  split <;> rfl

theorem Heap.slots_of_slots_remove {h : Heap} {i : Nat} {o q : ObjectId}
    (hslot : (h.remove o).2.table.slots[i]? = some (some q)) :
    h.table.slots[i]? = some (some q) := by
  unfold remove at hslot
  split at hslot
  · exact hslot
  · split at hslot
    · simp only [vacate, Table.vacate, Array.getElem?_setIfInBounds] at hslot
      split at hslot
      · split at hslot <;> cases hslot
      · exact hslot
    · exact hslot

open Moment in
theorem Turn.made {m m' : Moment} (h : Turn m m') (hs : m.config.Sound)
    (hm : m.Made) : m'.Made := by
  obtain ⟨hsound, hlater⟩ := h.follows hs
  cases h with
  | step h => exact hm.steps rfl (.single h)
  | eval => exact hm.steps Host.spare_eval (steps_eval hs)
  | run =>
    next n =>
    obtain ⟨k, hrun, -, -, -, -, hspare⟩ := Host.run_run (h := m.host) (n := n)
    refine hm.steps ?_ (steps_run hs)
    rw [hrun]
    exact hspare.trans Host.spare_eval
  | copy | drop | dropPlace | register => exact hm
  | keep =>
    next name o ho =>
    cases name <;> exact hm
  | keepPlace =>
    next name p hp =>
    cases name <;> exact hm
  | alloc hv =>
    next which v =>
    intro w i o ho
    obtain hnew | hold := registered_setHeap ho
    · obtain rfl | hold := Table.slots_insert hnew
      · rw [Host.store_heap]
        exact (hsound.held m.host.store.next (by simp [Config.holdings, config])).lt_next
      · exact Nat.lt_of_lt_of_le (hm which i o hold) hlater.next
    · exact Nat.lt_of_lt_of_le (hm w i o hold) hlater.next
  | write => exact hm.setHeap .main hlater fun i o ho => ho
  | assign ho => exact hm.steps rfl (.single (.assign (sound_cons hs ho)))
  | define ho => exact hm.steps rfl (Steps.define (sound_cons hs ho))
  | leave => exact hm.steps (T := []) rfl (.single (.leave hs.exact.leave.1))
  | restore => exact hm.steps rfl (Steps.restore _ hs)
  | remove => exact hm.setHeap _ hlater fun i o ho => Heap.slots_of_slots_remove ho
  | pause | resume => exact hm.setHeap _ hlater fun i o ho => ho
  | sweep => exact hm.setHeap _ hlater fun i o ho => Heap.slots_of_slots_sweep ho
  | stop =>
    refine Made.quiet (hm.setHeap _ ?_ fun i o ho => ?_) Host.quiet_stop
    · exact (Follows.relabel hs Heap.relabels_clear).later
    · simp [Heap.clear] at ho

theorem Turns.made {c : EvalContext} {b : Builtins} {m : Moment}
    (h : Turns (.start c b) m) : m.Made := by
  induction h with
  | refl =>
    intro w i o ho
    cases w <;> simp [Moment.Registered, Moment.start, Host.start, Host.heap] at ho
  | tail hs ht ih => exact ht.made (Turns.sound hs) ih

namespace Moment

variable {m m' : Moment} {which : HeapName} {limit : Option Nat} {o : ObjectId} {i : Nat}

theorem store_swept :
    (m.swept which limit).host.store = ((m.host.heap which).sweep m.roots limit).2.store := by
  cases which <;> rfl

theorem registered_swept :
    (m.swept which limit).Registered which i o ↔
      ((m.host.heap which).sweep m.roots limit).2.table.slots[i]? = some (some o) := by
  cases which <;> rfl

theorem get?_swept (m : Moment) (which : HeapName) (limit : Option Nat) (o : ObjectId) :
    (m.swept which limit).host.store.get? o = m.host.store.get? o ∨
      (m.swept which limit).host.store.get? o = none ∧
        (m.host.store.slot? o = none ∨ m.host.store.Unheld m.roots o) := by
  rw [store_swept, ← Host.store_heap m.host which]
  exact Heap.get?_sweep ..

theorem has_swept_of_mem {p : ObjectId} (hp : (m.swept which limit).host.store.Has p)
    (hin : o ∈ (m.host.store.value p).elements) (ho : m.host.store.Has o) :
    (m.swept which limit).host.store.Has o := by
  rw [store_swept] at hp ⊢
  rw [← Host.store_heap m.host which] at hin ho
  exact Heap.has_sweep_of_mem hp (Heap.value_sweep hp ▸ hin) ho

/-- What is not there after a pass is never in reach again. -/
theorem unreachable_of_swept (hs : m.config.Sound) (hmade : o < m.host.store.next)
    (ho : ¬ (m.swept which limit).host.store.Has o) (h : Turns (m.swept which limit) m') :
    ¬ m'.host.store.Has o ∧ ¬ m'.Reach o := by
  have hpass : m.Follows (m.swept which limit) := .sweep hs
  have hrest := h.follows hpass.sound
  have hgone : ¬ m'.host.store.Has o :=
    hrest.later.not_has (Nat.lt_of_lt_of_le hmade hpass.later.next) ho
  exact ⟨hgone, fun hreach => hgone (has_of_reach hrest.sound hreach)⟩

end Moment

open Moment in
/-- Whatever came before and comes after a pass of a collector: what the pass takes out of the table
has no holder but the table, and nobody can reach it ever again; what is in reach is not taken; and
an object that is still there is as it was. With an object go those that it alone held. -/
theorem sweep_safe {c : EvalContext} {b : Builtins} {m m' : Moment} (which : HeapName)
    (limit : Option Nat) (hbefore : Turns (.start c b) m)
    (hafter : Turns (m.swept which limit) m') :
    (∀ i o, m.Registered which i o → ¬ (m.swept which limit).Registered which i o →
      m.host.store.Unheld m.roots o ∧ ¬ m'.host.store.Has o ∧ ¬ m'.Reach o) ∧
    (∀ o, m.Reach o →
      m.host.store.Has o ∧ (m.swept which limit).host.store.get? o = m.host.store.get? o ∧
        ∀ i, m.Registered which i o → (m.swept which limit).Registered which i o) ∧
    (∀ o, (m.swept which limit).host.store.Has o →
      (m.swept which limit).host.store.get? o = m.host.store.get? o) ∧
    (∀ o, m.host.store.Has o → ¬ (m.swept which limit).host.store.Has o →
      (m.host.store.slot? o = none ∨ m.host.store.Unheld m.roots o) ∧
        (∀ c, o ∈ (m.host.store.value c).elements → ¬ (m.swept which limit).host.store.Has c) ∧
        ¬ m'.Reach o) := by
  have hs := hbefore.sound
  refine ⟨fun i o hreg hgone => ?_, fun o ho => ⟨has_of_reach hs ho, ?_, fun i hreg => ?_⟩,
    fun o ho => ?_, fun o ho hgone => ⟨?_, fun p hp hin => ?_, ?_⟩⟩
  · rw [registered_swept] at hgone
    obtain ⟨hunheld, hnone⟩ := Heap.unheld_of_slots_sweep hreg hgone
    rw [← store_swept] at hnone
    exact ⟨Host.store_heap m.host which ▸ hunheld,
      unreachable_of_swept hs (hbefore.made which i o hreg) hnone hafter⟩
  · rw [store_swept, ← Host.store_heap m.host which]
    exact Heap.get?_sweep_of_reach (Host.store_heap m.host which ▸ ho)
  · by_contra hgone
    rw [registered_swept] at hgone
    have hunheld := (Heap.unheld_of_slots_sweep hreg hgone).1
    exact hunheld.not_reach (Host.store_heap m.host which ▸ ho)
  · obtain hsame | ⟨hnone, -⟩ := get?_swept m which limit o
    · exact hsame
    · simp [Store.Has, hnone] at ho
  · obtain hsame | ⟨-, hwhy⟩ := get?_swept m which limit o
    · rw [Store.Has, hsame] at hgone
      exact absurd ho hgone
    · exact hwhy
  · exact hgone (has_swept_of_mem hin hp ho)
  · exact (unreachable_of_swept hs ho.lt_next hgone hafter).2

/-- Code in progress may let go of all that it holds. -/
theorem Turns.letGo {h : Host} (T : List ObjectId) : Turns ⟨h, T⟩ ⟨h, []⟩ := by
  induction T with
  | nil => exact .refl
  | cons o T ih => exact .head (.step (m := ⟨h, o :: T⟩) .drop) ih

/-- A variable is bound to a vector of one number, and the value of the declaration is forgotten. -/
def listBound : Moment :=
  { (Moment.start {} .standard).giving (Host.eval (.letVar none ⟨"v", none⟩ none
      (some (.list none [.literal none (.int 1)])))) with temps := [] }

/-- After a pass the variable is bound anew, and another pass comes upon what it had. -/
def listRebound : Moment :=
  ({ (listBound.swept .main none).giving (Host.eval (.assign none (.var none ⟨"v", none⟩)
      (.literal none (.int 3)))) with temps := [] } : Moment).swept .main none

/-- The first pass frees the value of the declaration and keeps the number inside the vector. -/
theorem sweep_safe_listBound :
    listBound.Registered .main 2 2 ∧ ¬ (listBound.swept .main none).Registered .main 2 2 ∧
      listBound.Registered .main 0 0 ∧ 0 ∈ (listBound.host.store.value 1).elements ∧
      (listBound.swept .main none).Registered .main 0 0 ∧
      (listBound.swept .main none).host.store.get? 0 = listBound.host.store.get? 0 ∧
      ¬ listRebound.host.store.Has 2 ∧ ¬ listRebound.Reach 2 := by
  have hbefore : Turns (.start {} .standard) listBound := .head .eval (Turns.letGo _)
  have hafter : Turns (listBound.swept .main none) listRebound :=
    .tail (.head .eval (Turns.letGo _)) .sweep
  obtain ⟨hfreed, hkept, -, -⟩ := sweep_safe .main none hbefore hafter
  have hgarbage : listBound.Registered .main 2 2 := by decide +kernel
  have hgone : ¬ (listBound.swept .main none).Registered .main 2 2 := by decide +kernel
  have hregistered : listBound.Registered .main 0 0 := by decide +kernel
  have hcontained : 0 ∈ (listBound.host.store.value 1).elements := by decide +kernel
  have hreach : listBound.Reach 0 := .inside (.root (by decide +kernel)) hcontained
  obtain ⟨-, hsame, hstays⟩ := hkept 0 hreach
  obtain ⟨-, hnever, hunreachable⟩ := hfreed 2 2 hgarbage hgone
  exact ⟨hgarbage, hgone, hregistered, hcontained, hstays 0 hregistered, hsame, hnever,
    hunreachable⟩

end Scripting
