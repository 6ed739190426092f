import Mathlib.Tactic.Common
import Scripting.Proofs.Store.Acyclic
import Scripting.Proofs.Store.Tables

/-! When a pass has nothing to free, everything that is registered is in reach. -/
namespace Scripting

/-! ### Scans -/

theorem Scan.size_le_run {isFree : ObjectId → Bool} {limit : Option Nat}
    {l : List (Option ObjectId)} {i : Nat} {k : Scan} :
    k.chosen.size ≤ (Scan.run isFree limit l i k).chosen.size := by
  induction l generalizing i k with
  | nil => exact Nat.le_refl _
  | cons entry l ih =>
    simp only [Scan.run]
    split
    · exact Nat.le_refl _
    · cases entry with
      | none => exact ih
      | some o =>
        refine Nat.le_trans ?_ ih
        simp only
        split <;> simp

/-- A scan that chooses nothing, and was not cut short from the start, has seen nothing free. -/
theorem Scan.not_free_of_run {isFree : ObjectId → Bool} {limit : Option Nat}
    {l : List (Option ObjectId)} {i : Nat} {k : Scan} {o : ObjectId}
    (hlimit : limit.any (· ≤ k.chosen.size) = false)
    (hnone : (Scan.run isFree limit l i k).chosen.size = k.chosen.size) (ho : some o ∈ l) :
    isFree o = false := by
  induction l generalizing i k with
  | nil => simp at ho
  | cons entry l ih =>
    simp only [Scan.run, hlimit, Bool.false_eq_true, if_false] at hnone
    cases entry with
    | none =>
      simp only [List.mem_cons, reduceCtorEq, false_or] at ho
      exact ih hlimit hnone ho
    | some p =>
      simp only at hnone
      have hp : isFree p = false := by
        by_contra hfree
        rw [Bool.not_eq_false] at hfree
        simp only [hfree, if_true] at hnone
        have hmore := Nat.le_trans Scan.size_le_run (Nat.le_of_eq hnone)
        simp only [Array.size_push] at hmore
        omega
      rcases List.mem_cons.mp ho with heq | ho
      · cases heq
        exact hp
      · simp only [hp, Bool.false_eq_true, if_false] at hnone
        exact ih (k := ⟨k.scanned + 1, k.chosen⟩) hlimit hnone ho

theorem Scan.mem_run_of_mem {isFree : ObjectId → Bool} {limit : Option Nat}
    {l : List (Option ObjectId)} {i : Nat} {k : Scan} {x : Nat × ObjectId} (hx : x ∈ k.chosen) :
    x ∈ (Scan.run isFree limit l i k).chosen := by
  induction l generalizing i k with
  | nil => exact hx
  | cons entry l ih =>
    simp only [Scan.run]
    split
    · exact hx
    · cases entry with
      | none => exact ih hx
      | some o =>
        apply ih
        simp only
        split
        · exact Array.mem_push_of_mem _ hx
        · exact hx

/-- A scan without a limit chooses everything that is free. -/
theorem Scan.mem_run {isFree : ObjectId → Bool} {l : List (Option ObjectId)} {i j : Nat} {k : Scan}
    {o : ObjectId} (hj : l[j]? = some (some o)) (hfree : isFree o) :
    (i + j, o) ∈ (Scan.run isFree none l i k).chosen := by
  induction l generalizing i j k with
  | nil => simp at hj
  | cons entry l ih =>
    cases j with
    | zero =>
      cases hj
      simp only [Scan.run, Option.any_none, Bool.false_eq_true, if_false, hfree, if_true]
      exact Scan.mem_run_of_mem Array.mem_push_self
    | succ j =>
      rw [Nat.add_succ, ← Nat.succ_add]
      cases entry <;> exact ih (by simpa using hj)

namespace Store

variable {s : Store} {roots others : List ObjectId} {o : ObjectId}

/-! ### Holders outside of a table -/

/-- What nothing holds looks free to a pass. -/
theorem Unheld.free (hcounted : ∀ o, 0 < s.bindings o → o ∈ roots) (h : s.Unheld roots o) :
    (s.reap roots).bindings o = 0 ∧ ((s.reap roots).held roots).contains o = false := by
  obtain ⟨hroot, hcontained⟩ := unheld_iff.mp h
  constructor
  · rcases trims_reap (s := s) (r := roots) o with hsame | ⟨hgone, -⟩
    · have : s.bindings o = 0 := by
        by_contra hn
        exact hroot (hcounted o (Nat.pos_of_ne_zero hn))
      simpa only [bindings, hsame] using this
    · simp [bindings, hgone]
  · rw [← Bool.not_eq_true, contains_held]
    tauto

/-- What can be reached from roots, and from objects in some slot, is not gone. -/
theorem Reach.not_gone (hothers : ∀ o ∈ others, s.slot? o ≠ none)
    (h : s.Reach (roots ++ others) o) :
    ¬ s.Gone roots o := by
  induction h with
  | root hin =>
    rintro ⟨hslot, hroot, -⟩
    rcases List.mem_append.mp hin with hin | hin
    · exact hroot hin
    · exact hothers _ hin hslot
  | inside hc hin ih =>
    rintro ⟨-, -, hinside⟩
    exact ih (hinside _ (has_of_mem_elements hin) hin)

theorem Reach.not_unheld (hothers : ∀ o ∈ others, s.slot? o ≠ none)
    (h : s.Reach (roots ++ others) o) (ho : o ∉ others) : ¬ s.Unheld roots o := by
  rintro ⟨hroot, hinside⟩
  cases h with
  | root hin =>
    rcases List.mem_append.mp hin with hin | hin
    · exact hroot hin
    · exact ho hin
  | inside hc hin => exact hc.not_gone hothers (hinside _ (has_of_mem_elements hin) hin)

theorem exists_of_not_unheld (h : ¬ s.Unheld roots o) :
    o ∈ roots ∨ ∃ c, s.Has c ∧ s.Contains c o ∧ ¬ s.Gone roots c := by
  by_contra hn
  push Not at hn
  exact h ⟨hn.1, fun c hc hin => hn.2 c hc hin⟩

/-- If only roots and slots elsewhere keep what is in no slot here, they reach all that is there. -/
theorem Acyclic.reach (h : s.Acyclic)
    (hheld : ∀ o, s.slot? o ≠ none → o ∉ others → ¬ s.Unheld roots o) (ho : s.Has o)
    (hgone : ¬ s.Gone roots o) : s.Reach (roots ++ others) o := by
  refine h.induction (P := fun o => ¬ s.Gone roots o → s.Reach (roots ++ others) o) ?_ o ho hgone
  intro o ho ih hgone
  by_cases hother : o ∈ others
  · exact .root (List.mem_append_right _ hother)
  · have hunheld : ¬ s.Unheld roots o := by
      by_cases hslot : s.slot? o = none
      · exact fun hu => hgone ⟨hslot, hu.1, hu.2⟩
      · exact hheld o hslot hother
    rcases exists_of_not_unheld hunheld with hroot | ⟨c, hc, hin, hkept⟩
    · exact .root (List.mem_append_left _ hroot)
    · exact .inside (ih c hc hin hkept) hin

end Store

/-! ### Passes -/

/-- The given objects are those in slots of other tables. -/
structure Heap.Shares (h : Heap) (others : List ObjectId) : Prop where
  slotted : ∀ o, h.store.slot? o ≠ none ↔ o ∈ others ∨ ∃ i, h.table.Holds i o
  apart : ∀ i o, h.table.Holds i o → o ∉ others

theorem Tidy.shares {ι : Type} {s : Store} {tables : ι → Table} {w : ι} {others : List ObjectId}
    (h : Tidy s tables) (hothers : ∀ o, o ∈ others ↔ ∃ w', w' ≠ w ∧ ∃ i, (tables w').Holds i o) :
    (Heap.mk s (tables w)).Shares others where
  slotted := by
    intro o
    rw [hothers]
    constructor
    · intro hslot
      obtain ⟨i, hi⟩ := Option.ne_none_iff_exists'.mp hslot
      obtain ⟨w', hw'⟩ := h.owner i o hi
      by_cases hw : w' = w
      · subst hw
        exact .inr ⟨i, hw'⟩
      · exact .inl ⟨w', hw, i, hw'⟩
    · rintro (⟨w', -, i, hi⟩ | ⟨i, hi⟩)
      · simp [h.slot w' i o hi]
      · simp [h.slot w i o hi]
  apart := by
    intro i o hi hin
    obtain ⟨w', hw, j, hj⟩ := (hothers o).mp hin
    exact hw (h.apart w' w j i o hj hi)

namespace Heap

variable {h : Heap} {roots others : List ObjectId} {limit : Option Nat} {o : ObjectId} {i : Nat}

theorem Shares.slot_ne_none (hs : h.Shares others) (ho : o ∈ others) : h.store.slot? o ≠ none :=
  (hs.slotted o).mpr (.inl ho)

/-- A pass leaves alone what can be reached from outside of its table. -/
theorem Shares.get?_sweep (hs : h.Shares others) (ho : h.store.Reach (roots ++ others) o) :
    (h.sweep roots limit).2.store.get? o = h.store.get? o := by
  cases hp : h.table.isPaused with
  | true => simp [sweep, hp]
  | false =>
    obtain ⟨xs, hxs, -, -, heq⟩ := exists_sweep roots limit hp
    rw [heq]
    have hvacated : ∀ q, h.store.Reach (roots ++ others) q →
        ((Heap.mk (h.store.reap roots) h.table).vacateAll xs).store.get? q = h.store.get? q := by
      intro q hq
      have hnot : q ∉ xs.map (·.2) := by
        intro hin
        obtain ⟨x, hx, rfl⟩ := List.mem_map.mp hin
        obtain ⟨hslot, hunheld⟩ := hxs x hx
        exact hq.not_unheld (fun _ => hs.slot_ne_none) (hs.apart _ _ hslot) hunheld
      rw [get?_vacateAll, if_neg hnot]
      exact Store.get?_reap_of_not_gone (hq.not_gone fun _ => hs.slot_ne_none)
    have hreach : ((Heap.mk (h.store.reap roots) h.table).vacateAll xs).store.Reach
        (roots ++ others) o := ho.congr fun q hq => by simp only [Store.value, hvacated q hq]
    rw [Store.get?_reap_of_not_gone]
    · exact hvacated o ho
    · refine hreach.not_gone fun q hq => ?_
      rw [Store.slot?, hvacated q (.root (List.mem_append_right _ hq))]
      exact hs.slot_ne_none hq

theorem Shares.holds_sweep (hs : h.Shares others) (hi : h.table.Holds i o)
    (ho : h.store.Reach (roots ++ others) o) : (h.sweep roots limit).2.table.Holds i o := by
  by_contra hn
  exact ho.not_unheld (fun _ => hs.slot_ne_none) (hs.apart i o hi) (unheld_of_slots_sweep hi hn).1

theorem contains_of_sweep {c : ObjectId} (hc : (h.sweep roots limit).2.store.Contains c o) :
    h.store.Contains c o := by
  have hhas := Store.has_of_mem_elements hc
  rwa [Store.Contains, value_sweep hhas] at hc

theorem Shares.reach_sweep (hs : h.Shares others) :
    (h.sweep roots limit).2.store.Reach (roots ++ others) o ↔
      h.store.Reach (roots ++ others) o := by
  constructor
  · intro ho
    induction ho with
    | root hin => exact .root hin
    | inside hc hin ih => exact .inside ih (contains_of_sweep hin)
  · exact fun ho => ho.congr fun q hq => by simp only [Store.value, hs.get?_sweep hq]

/-- A pass that frees nothing finds nothing to free. -/
theorem not_unheld_of_freed (hf : h.Filed) (hp : h.table.isPaused = false) (hlimit : limit ≠ some 0)
    (hcounted : ∀ o, 0 < h.store.bindings o → o ∈ roots) (hnone : (h.sweep roots limit).1.freed = 0)
    (hi : h.table.Holds i o) : ¬ h.store.Unheld roots o := by
  intro hunheld
  obtain ⟨hbindings, hheld⟩ := hunheld.free hcounted
  have hstart : limit.any (· ≤ ({} : Scan).chosen.size) = false := by
    cases limit with
    | none => rfl
    | some n => simpa using hlimit
  have hmem : some o ∈ h.table.slots.toList := by
    simpa using Array.mem_of_getElem? hi
  rw [hf.sweep_eq_chosen hp] at hnone
  have hfree := Scan.not_free_of_run hstart hnone hmem
  simp [isFree, hbindings, hheld] at hfree

/-- A pass without a limit frees whatever is registered here or nowhere and held by nothing else. -/
theorem not_has_sweep (hf : h.Filed) (hp : h.table.isPaused = false)
    (hcounted : ∀ o, 0 < h.store.bindings o → o ∈ roots) (hunheld : h.store.Unheld roots o)
    (hslot : h.store.slot? o = none ∨ ∃ i, h.table.Holds i o) :
    ¬ (h.sweep roots none).2.store.Has o := by
  intro hhas
  rw [hf.sweep_eq_chosen hp] at hhas
  rcases hslot with hslot | ⟨i, hi⟩
  · have hreaped := has_vacateAll.mp (Store.trims_reap.has hhas).1
    simp [Store.Has, Store.get?_reap_of_gone (.intro hslot hunheld.1 hunheld.2)] at hreaped
  · obtain ⟨hbindings, hheld⟩ := hunheld.free hcounted
    have hchosen : (i, o) ∈
        (Scan.run (h.isFree roots) none h.table.slots.toList 0 {}).chosen.toList := by
      rw [Array.mem_toList_iff, ← Nat.zero_add i]
      exact Scan.mem_run (by simpa [Table.Holds] using hi) (by simp [isFree, hbindings, hheld])
    have hgone := gone_vacateAll (List.mem_map.mpr ⟨_, hchosen, rfl⟩) hunheld
    simp [Store.Has, Store.get?_reap_of_gone hgone] at hhas

/-- Once a pass frees nothing, all that is registered is in reach from outside. -/
theorem Shares.reach_of_freed (hs : h.Shares others) (hf : h.Filed) (hacyclic : h.store.Acyclic)
    (hp : h.table.isPaused = false) (hlimit : limit ≠ some 0)
    (hcounted : ∀ o, 0 < h.store.bindings o → o ∈ roots) (hnone : (h.sweep roots limit).1.freed = 0)
    (hi : h.table.Holds i o) : h.store.Reach (roots ++ others) o := by
  have hslot : h.store.slot? o ≠ none := (hs.slotted o).mpr (.inr ⟨i, hi⟩)
  apply hacyclic.reach
  · intro q hq hother
    obtain ⟨j, hj⟩ := ((hs.slotted q).mp hq).resolve_left hother
    exact not_unheld_of_freed hf hp hlimit hcounted hnone hj
  · obtain ⟨j, hj⟩ := Option.ne_none_iff_exists'.mp hslot
    exact Store.has_of_slot? hj
  · rintro ⟨hgone, -, -⟩
    exact hslot hgone

/-! ### Counts -/

theorem length_vacant_vacateAll (xs : List (Nat × ObjectId)) :
    (h.vacateAll xs).table.vacant.length = h.table.vacant.length + xs.length ∧
      (h.vacateAll xs).table.slots.size = h.table.slots.size ∧
      (h.vacateAll xs).table.pauses = h.table.pauses := by
  induction xs generalizing h with
  | nil => exact ⟨rfl, rfl, rfl⟩
  | cons x xs ih =>
    obtain ⟨hlength, hsize, hpauses⟩ := ih (h := h.vacate x.1 x.2)
    rw [vacateAll, List.foldl_cons, ← vacateAll, hlength, hsize, hpauses]
    simp only [vacate, Table.vacate, List.length_cons, Array.size_setIfInBounds, and_self, and_true]
    omega

/-- What a pass frees is no longer registered. -/
theorem live_sweep (hneat : (h.sweep roots limit).2.table.Neat) :
    (h.sweep roots limit).1.freed + (h.sweep roots limit).2.table.live = h.table.live ∧
      (h.sweep roots limit).2.table.isPaused = h.table.isPaused := by
  cases hp : h.table.isPaused with
  | true => simp [sweep, hp]
  | false =>
    have hle := hneat.length_vacant_le
    obtain ⟨xs, -, -, hfreed, heq⟩ := exists_sweep roots limit hp
    rw [hfreed]
    rw [heq] at hle ⊢
    obtain ⟨hlength, hsize, hpauses⟩ :=
      length_vacant_vacateAll (h := ⟨h.store.reap roots, h.table⟩) xs
    simp only [Table.live, Table.isPaused, hlength, hsize, hpauses] at hle hp ⊢
    exact ⟨by omega, hp⟩

end Heap
end Scripting
