import Mathlib.Tactic.Common
import Scripting.Proofs.Eval.Congruence

/-! What evaluations do not depend on: nothing looks at the log, and more steps than are needed make
no difference. So an evaluation that comes to its end does the same again with another log and with
more steps. -/
namespace Scripting

/-- The second state is the first one, with other notes in the log. -/
def State.Noted (s t : State) : Prop := t = { s with log := t.log }

namespace State.Noted

variable {s t u : State}

theorem refl : s.Noted s := rfl

theorem log {log : Array LogEvent} : s.Noted { s with log } := rfl

theorem symm (h : s.Noted t) : t.Noted s := by
  rw [h]
  rfl

theorem trans (h : s.Noted t) (h' : t.Noted u) : s.Noted u := by
  rw [h', h]
  rfl

end State.Noted

namespace Eval

variable {α β : Type} {x y : Eval α} {f g : α → Eval β}
  {ev ev' : Node → Eval ObjectId} {s t : State}

/-- Two results that are the same but for the log. -/
def Agree : EStateM.Result Stop State α → EStateM.Result Stop State α → Prop
  | .ok a s, .ok b t => a = b ∧ s.Noted t
  | .error e s, .error e' t => e = e' ∧ s.Noted t
  | _, _ => False

/-- From states that are the same but for the log, the second evaluation does what the first one
does, unless the first one runs out of steps. -/
def Echoes (x y : Eval α) : Prop :=
  ∀ s t, s.Noted t → (∃ u, x s = .error .exhausted u) ∨ Agree (x s) (y t)

/-- An evaluation that does not look at the log. -/
abbrev Blind (x : Eval α) : Prop := Echoes x x

namespace Echoes

theorem bind (h : Echoes x y) (hf : ∀ a, Echoes (f a) (g a)) : Echoes (x >>= f) (y >>= g) := by
  intro s t hst
  simp only [Bind.bind, EStateM.bind]
  rcases h s t hst with ⟨u, hu⟩ | hagree
  · rw [hu]
    exact .inl ⟨u, rfl⟩
  · cases hx : x s <;> cases hy : y t <;> rw [hx, hy] at hagree
    · obtain ⟨rfl, hnoted⟩ := hagree
      exact hf _ _ _ hnoted
    · exact hagree.elim
    · exact hagree.elim
    · exact .inr hagree

theorem throw_exhausted : Echoes (throw .exhausted) y := fun s _ _ => .inl ⟨s, rfl⟩

end Echoes

/-! ### Routines -/

theorem Blind.step {m : State → α × State} (h : ∀ s log, (m { s with log }).1 = (m s).1 ∧
    (m s).2.Noted (m { s with log }).2) : Blind (MonadStateOf.modifyGet m : Eval α) := by
  intro s t hst
  obtain ⟨hvalue, hnoted⟩ := h s t.log
  rw [← hst] at hvalue hnoted
  exact .inr ⟨hvalue.symm, hnoted⟩

theorem Routine.blind {m : Manner} (h : Routine m x) : Blind x := by
  induction h with
  | bind _ _ ihx ihf => exact ihx.bind ihf
  | pure | raise => exact fun _ _ hst => .inr ⟨rfl, hst⟩
  | exhausted => exact Echoes.throw_exhausted
  | read hr =>
    intro s t hst
    refine .inr ⟨?_, hst⟩
    rw [hst]
    exact (hr s t.log).symm
  | @functionObject d =>
    intro s t hst
    obtain ⟨log, rfl⟩ : ∃ log, t = { s with log } := ⟨t.log, hst⟩
    rw [functionObject_eq, functionObject_eq]
    unfold objectFor
    cases s.functions.lookup d.id <;> exact .inr ⟨rfl, rfl⟩
  | @refill o f =>
    intro s t hst
    obtain ⟨log, rfl⟩ : ∃ log, t = { s with log } := ⟨t.log, hst⟩
    simp only [Eval.refill, Eval.valueOf, Bind.bind, EStateM.bind, Eval.read]
    cases f (s.heap.store.value o) <;> exact .inr ⟨rfl, rfl⟩
  | @walk o =>
    intro s t hst
    obtain ⟨log, rfl⟩ : ∃ log, t = { s with log } := ⟨t.log, hst⟩
    simp only [Eval.treeOf]
    cases s.heap.store.tree? o with
    | none => exact .inl ⟨s, rfl⟩
    | some x => exact .inr ⟨rfl, hst⟩
  | _ => exact Blind.step fun _ _ => ⟨rfl, rfl⟩

/-! ### Forms -/

theorem Congruent.echoes (h : Congruent (fun _ => Echoes) x y) : Echoes x y := by
  induction h with
  | given h => exact h
  | same h => exact h.blind
  | bind _ _ ihx ihf => exact ihx.bind ihf

namespace Echoes

theorem reference (h : ∀ n, Echoes (ev n) (ev' n)) (n : Node) :
    Echoes (Eval.reference ev n) (Eval.reference ev' n) :=
  (Congruent.reference (fun n => .given (h n)) n).echoes

/-- A loop may be allowed to run longer, too. -/
theorem whileHolds (h : ∀ n, Echoes (ev n) (ev' n)) {k m : Nat} (hkm : k ≤ m) (test body : Node) :
    Echoes (Eval.whileHolds ev test body k) (Eval.whileHolds ev' test body m) := by
  induction k generalizing m with
  | zero => exact throw_exhausted
  | succ k ih =>
    obtain ⟨m, rfl⟩ : ∃ j, m = j + 1 := ⟨m - 1, by omega⟩
    exact (Congruent.whileHolds_succ (fun n => .given (h n)) (.given (ih (by omega)))).echoes

/-- Any number of further steps makes no difference to an evaluation that ends without them. -/
theorem node {k m : Nat} (hkm : k ≤ m) (n : Node) : Echoes (Eval.node k n) (Eval.node m n) := by
  induction k generalizing m n with
  | zero => exact throw_exhausted
  | succ k ih =>
    obtain ⟨m, rfl⟩ : ∃ j, m = j + 1 := ⟨m - 1, by omega⟩
    have hev : ∀ n, Echoes (Eval.node k n) (Eval.node m n) := fun n => ih (by omega) n
    exact (Congruent.visit (fun n => .given (hev n))
      (fun test body => .given (whileHolds hev (by omega) test body)) n).echoes

end Echoes

/-! ### Evaluations that end -/

/-- The steps did not run out. -/
def Finished (r : EStateM.Result Stop State α) : Prop := ∀ t, r ≠ .error .exhausted t

theorem finished_ok {v : α} : Finished (.ok v s) := by
  intro t h
  cases h

theorem finished_raised {e : Error} :
    Finished (.error (.raised e) s : EStateM.Result Stop State α) := by
  intro t h
  cases h

section

variable {a b c : EStateM.Result Stop State α}

theorem Agree.symm (h : Agree a b) : Agree b a := by
  cases a <;> cases b
  · exact ⟨h.1.symm, h.2.symm⟩
  · exact h.elim
  · exact h.elim
  · exact ⟨h.1.symm, h.2.symm⟩

theorem Agree.trans (h : Agree a b) (h' : Agree b c) : Agree a c := by
  cases a <;> cases b <;> cases c <;> first | exact h.elim | exact h'.elim | skip
  · exact ⟨h.1.trans h'.1, h.2.trans h'.2⟩
  · exact ⟨h.1.trans h'.1, h.2.trans h'.2⟩

theorem Agree.ok_left {v : α} (h : Agree (.ok v s) b) : ∃ t, b = .ok v t ∧ s.Noted t := by
  cases b with
  | error => exact h.elim
  | ok w t =>
    obtain ⟨rfl, hnoted⟩ := h
    exact ⟨t, rfl, hnoted⟩

theorem Agree.error_left {stop : Stop} (h : Agree (.error stop s) b) :
    ∃ t, b = .error stop t ∧ s.Noted t := by
  cases b with
  | ok => exact h.elim
  | error stop' t =>
    obtain ⟨rfl, hnoted⟩ := h
    exact ⟨t, rfl, hnoted⟩

theorem Agree.finished (h : Agree a b) (ha : Finished a) : Finished b := by
  rintro t rfl
  obtain ⟨s, rfl, -⟩ := h.symm.error_left
  exact ha s rfl

end

namespace Echoes

theorem agree_of_finished (h : Echoes x y) (hst : s.Noted t) (hs : Finished (x s)) :
    Agree (x s) (y t) := by
  rcases h s t hst with ⟨u, hu⟩ | hagree
  · exact absurd hu (hs u)
  · exact hagree

/-- Evaluations that end do the same, however many steps each of them was allowed. -/
theorem agree {x : Nat → Eval α} {k m : Nat} (h : ∀ k m, k ≤ m → Echoes (x k) (x m))
    (hk : Finished (x k s)) (hm : Finished (x m s)) : Agree (x k s) (x m s) := by
  have hleft := (h k (max k m) (Nat.le_max_left k m)).agree_of_finished .refl hk
  have hright := (h m (max k m) (Nat.le_max_right k m)).agree_of_finished .refl hm
  exact hleft.trans hright.symm

end Echoes
end Eval
end Scripting
