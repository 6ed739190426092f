import Mathlib.Logic.Relation
import Mathlib.Tactic.Common
import Scripting.Proofs.Eval.Observing
import Scripting.Proofs.Host.Stacks
import Scripting.Proofs.Host.Twins

/-! The states that scripts with the standard builtins get into, also in the middle of an
evaluation. -/
namespace Scripting

open Relation

/-- What can be relied on wherever a script with the standard builtins is evaluated. -/
structure State.Proper (s : State) : Prop where
  sound : Config.Sound ⟨s, []⟩
  unshared : Config.Unshared ⟨s, []⟩
  mirrored : ∃ R, s.Renamed (fun _ => True) R s
  rooted : s.env.Rooted
  nested : s.env.WellNested
  builtins : s.builtins = .standard

theorem Steps.builtins {c c' : Config} (h : Steps c c') : c'.state.builtins = c.state.builtins := by
  induction h with
  | refl => rfl
  | tail _ hstep ih => exact hstep.builtins.trans ih

namespace Host

variable {c : EvalContext} {h : Host}

theorem Evaluates.nested (hh : h.Evaluates c) : h.env.Rooted ∧ h.env.WellNested := by
  have hbalanced : ∀ {h k : Host}, h.env.Rooted ∧ h.env.WellNested → h.env.Balanced k.env →
      k.env.Rooted ∧ k.env.WellNested :=
    fun hh hk => ⟨hk.toExtends.rooted hh.1, hk.wellNested hh.2⟩
  exact hh.kept (P := fun e _ => e.Rooted ∧ e.WellNested)
    ⟨rfl, Environment.wellNested_of_global rfl rfl⟩
    (fun _ _ _ ih => hbalanced ih (balanced_eval ih.1)) fun _ _ _ ih =>
      hbalanced ih (balanced_run ih.1)

theorem Evaluates.builtins (hh : h.Evaluates c) : h.state.builtins = .standard :=
  hh.kept (P := fun _ b => b = .standard) rfl
    (fun _ _ hh ih => (Steps.builtins (steps_eval hh.clean.sound)).trans ih)
    fun _ _ hh ih => (Steps.builtins (steps_run hh.clean.sound)).trans ih

theorem Evaluates.proper (hh : h.Evaluates c) : h.state.Proper :=
  ⟨hh.clean.sound, hh.clean.unshared, hh.twins, hh.nested.1, hh.nested.2, hh.builtins⟩

end Host

/-- An evaluation comes by this state, asked for by a host that only evaluates. -/
def Reached (c : EvalContext) (s : State) : Prop :=
  ∃ (h : Host) (fuel : Nat) (n : Node), h.Evaluates c ∧ Eval.Sees fuel n h.state s

theorem Host.Evaluates.reached {c : EvalContext} {h : Host} (hh : h.Evaluates c) :
    Reached c h.state :=
  ⟨h, 0, default, hh, Eval.sees_self _ _ _⟩

theorem Reached.proper {c : EvalContext} {s : State} (hs : Reached c s) : s.Proper := by
  obtain ⟨h, fuel, n, hh, hsees⟩ := hs
  obtain ⟨hsound, hunshared, ⟨R, hR⟩, hrooted, hnested, hbuiltins⟩ := hh.proper
  obtain ⟨U, hsteps⟩ := hsees.steps hsound
  have hdropped : Steps ⟨h.state, []⟩ ⟨s, []⟩ := hsteps.trans (by
    have hdrop : Steps ⟨s, U ++ []⟩ ⟨s, []⟩ := Steps.dropList
    rwa [List.append_nil] at hdrop)
  obtain ⟨hrooted', hnested'⟩ := hsees.nested ⟨hrooted, hnested⟩
  exact ⟨hdropped.sound hsound, hunshared.steps hsound hdropped, hsees.renamed hR,
    hrooted', hnested', hdropped.builtins.trans hbuiltins⟩

/-! ### Well-formed states -/

/-- Every object stands for itself. -/
theorem Environment.renamed_eq (e : Environment) : e.Renamed (fun _ => True) (· = ·) e := by
  have hsame : ∀ a : Option ObjectId, Option.Rel (· = ·) a a := by
    intro a
    cases a with
    | none => exact .none
    | some o => exact .some rfl
  refine ⟨List.forall₂_same.mpr fun x _ => ?_, List.forall₂_same.mpr fun f _ => ?_,
    List.forall₂_same.mpr fun l _ => ?_, rfl⟩
  · exact ⟨rfl, List.forall₂_same.mpr fun v _ => ⟨rfl, hsame _⟩, rfl,
      fun _ _ => trivial, rfl, hsame _⟩
  · exact ⟨rfl, trivial, rfl, hsame _, rfl, rfl⟩
  · exact ⟨rfl, rfl, hsame _⟩

/-- What the stacks hold stands for itself, if they stand for themselves. -/
theorem Environment.Renamed.of_root {D : Decl → Prop} {R : Pairing} {e : Environment} {o : ObjectId}
    (h : e.Renamed D R e) (ho : o ∈ e.roots) : R o o := by
  have hself : ∀ {a : Option ObjectId}, Option.Rel R a a → a = some o → R o o := by
    rintro _ ha rfl
    cases ha
    assumption
  obtain ⟨x, hx, ⟨v, hv, hvo⟩ | hlast⟩ | ⟨f, hf, hfo⟩ | ⟨l, hl, hlo⟩ := Environment.mem_roots.mp ho
  · have hvars := (List.forall₂_same.mp h.scopes x (Array.mem_toList_iff.mpr hx)).vars
    exact hself (List.forall₂_same.mp hvars v (Array.mem_toList_iff.mpr hv)).value hvo
  · exact hself (List.forall₂_same.mp h.scopes x (Array.mem_toList_iff.mpr hx)).last hlast
  · exact hself (List.forall₂_same.mp h.frames f (Array.mem_toList_iff.mpr hf)).result hfo
  · exact hself (List.forall₂_same.mp h.loops l (Array.mem_toList_iff.mpr hl)).result hlo

namespace State

variable {s : State}

/-- The objects that a script can get at, each paired with itself. -/
def inReach (s : State) : Pairing :=
  Pairing.among (· = ·) (s.heap.store.Reach s.roots) (s.heap.store.Reach s.roots)

/-- A state that scripts with the standard builtins can be evaluated in: objects are there and not
inside themselves, the objects remembered for a function are of one function, and no builtin in
reach tells how often an object is bound. -/
structure WellFormed (s : State) : Prop where
  orderly : s.heap.store.Orderly
  roots : ∀ o ∈ s.roots, s.heap.store.Has o
  memo : ∀ x ∈ s.functions, ∀ y ∈ s.functions, x.1 = y.1 → ∃ d : Decl, d.id = x.1 ∧
    s.heap.store.value x.2 = .atom (.function d) ∧ s.heap.store.value y.2 = .atom (.function d)
  plain : ∀ o a, s.heap.store.Reach s.roots o → s.heap.store.value o = .atom a →
    a.Allowed fun _ => True
  builtins : s.builtins = .standard

theorem WellFormed.renamed (h : s.WellFormed) : s.Renamed (fun _ => True) s.inReach s where
  store := by
    refine ⟨?_, ?_, ?_, h.orderly, h.orderly⟩
    · rintro o _ ⟨rfl, ho, -⟩
      have hhas : s.heap.store.Has o := by
        cases ho with
        | root ho => exact h.roots o ho
        | inside _ ho => exact h.orderly.closed _ o ho
      exact ⟨hhas, hhas⟩
    · rintro o _ ⟨rfl, ho, -⟩
      have hself : ∀ e ∈ (s.heap.store.value o).elements.toList, s.inReach e e := fun e he =>
        have hin : s.heap.store.Reach s.roots e := .inside ho (Array.mem_toList_iff.mp he)
        ⟨rfl, hin, hin⟩
      cases hv : s.heap.store.value o with
      | atom a => exact .atom (h.plain o a ho hv)
      | tuple es =>
        exact .tuple (List.forall₂_same.mpr (by simpa only [hv, Value.elements] using hself))
      | vector es =>
        exact .vector (List.forall₂_same.mpr (by simpa only [hv, Value.elements] using hself))
    · rintro o _ o' _ ⟨rfl, -⟩ ⟨rfl, -⟩
      exact .inl Iff.rfl
  env := (Environment.renamed_eq _).among (fun _ ho => .root (List.mem_append_left _ ho))
    fun _ ho => .root (List.mem_append_left _ ho)
  memo := by
    intro d _
    have habsent : s.functions.lookup d.id = none → ∀ o, (d.id, o) ∉ s.functions :=
      fun hnone o ho =>
      absurd (List.lookup_eq_none_iff.mp hnone _ ho) (by simp)
    refine ⟨fun o p ho hp => ?_, fun hnone o ho => absurd ho (habsent hnone o),
      fun hnone o ho => absurd ho (habsent hnone o)⟩
    obtain ⟨e, hid, hov, hpv⟩ := h.memo _ ho _ hp rfl
    exact ⟨e, trivial, hid, hov, hpv⟩
  builtins := rfl
  plain := by
    rw [h.builtins]
    decide
  sink := rfl
  isInterrupted := rfl
  isTraced := rfl

theorem Proper.wellFormed (h : s.Proper) : s.WellFormed := by
  obtain ⟨R, hR⟩ := h.mirrored
  have hmemo : ∀ x ∈ s.functions, ∀ y ∈ s.functions, x.1 = y.1 → ∃ d : Decl, d.id = x.1 ∧
      s.heap.store.value x.2 = .atom (.function d) ∧
        s.heap.store.value y.2 = .atom (.function d) := by
    intro x hx y hy hxy
    obtain ⟨d, -, hid, hxv, hyv⟩ :=
      (hR.memo { (default : Decl) with id := x.1 } trivial).both x.2 y.2 hx (hxy ▸ hy)
    exact ⟨d, hid, hxv, hyv⟩
  refine ⟨hR.store.left, (Config.sound_iff.mp h.sound).1, hmemo, fun o a ho ha => ?_, h.builtins⟩
  have hknown : ∀ q, s.heap.store.Reach s.roots q → R q q ∨ s.heap.store.IsFunction q := by
    intro q hq
    induction hq with
    | root hq =>
      rcases List.mem_append.mp hq with hq | hq
      · exact .inl (hR.env.of_root hq)
      · obtain ⟨x, hx, rfl⟩ := List.mem_map.mp hq
        obtain ⟨d, -, hxv, -⟩ := hmemo x hx x hx rfl
        exact .inr ⟨d, hxv⟩
    | @inside c q _ hin ih =>
      rcases ih with hc | ⟨d, hd⟩
      · exact .inl (List.forall₂_same.mp (hR.store.value hc).elements q
          (Array.mem_toList_iff.mpr hin))
      · rw [hd] at hin
        simp [Value.elements] at hin
  rcases hknown o ho with hoo | ⟨d, hd⟩
  · have hvalue := hR.store.value hoo
    rw [ha] at hvalue
    cases hvalue
    assumption
  · rw [hd] at ha
    cases ha
    trivial

end State

end Scripting
