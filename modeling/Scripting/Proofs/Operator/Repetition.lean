import Mathlib.Tactic.Common
import Scripting.Proofs.Operator.Integers

/-! A string times a count. The count must not be negative and the result not too long; what comes
out is the string written over and over. -/
namespace Scripting

/-! ### Repeated strings -/

theorem repeated_zero (s : String) : repeated s 0 = "" := by
  unfold repeated
  split <;> rfl

theorem repeated_succ (s : String) (n : Nat) : repeated s (n + 1) = repeated s n ++ s := by
  unfold repeated
  split
  · next hempty =>
    rw [String.isEmpty_iff.mp hempty]
    rfl
  · rfl

theorem length_repeated (s : String) (n : Nat) : (repeated s n).length = s.length * n := by
  induction n with
  | zero => simp [repeated_zero]
  | succ n ih => rw [repeated_succ, String.length_append, ih, Nat.mul_succ]

/-- The characters of the string come again and again. -/
theorem getElem?_repeated (s : String) {n i : Nat} (hi : i < s.length * n) :
    (repeated s n).toList[i]? = s.toList[i % s.length]? := by
  induction n with
  | zero => simp at hi
  | succ n ih =>
    rw [repeated_succ, String.toList_append]
    by_cases hlt : i < s.length * n
    · rw [List.getElem?_append_left (by rwa [String.length_toList, length_repeated]), ih hlt]
    · -- in the last round the position is what is left of the length
      have hround : i % s.length = i - s.length * n := by
        obtain ⟨j, rfl⟩ := Nat.exists_eq_add_of_le (Nat.not_lt.mp hlt)
        rw [Nat.mul_succ] at hi
        rw [Nat.mul_add_mod, Nat.mod_eq_of_lt (by omega)]
        omega
      rw [List.getElem?_append_right (by rw [String.length_toList, length_repeated]; omega), hround,
        String.length_toList, length_repeated]

theorem repeated_add (s : String) (m n : Nat) :
    repeated s (m + n) = repeated s m ++ repeated s n := by
  induction n with
  | zero => simp [repeated_zero]
  | succ n ih => rw [← Nat.add_assoc, repeated_succ, ih, repeated_succ, String.append_assoc]

/-! ### Outcomes -/

namespace Eval

variable {s t : String} {m n : Int64} {kind : ErrorKind}

/-- The string times the count is `t`, on whichever side the count stands. -/
def Repeats (s : String) (n : Int64) (t : String) : Prop :=
  Yields .mul (.atom (.string s)) (.atom (.int n)) (.atom (.string t)) ∧
    Yields .mul (.atom (.int n)) (.atom (.string s)) (.atom (.string t))

/-- The string times the count is refused, on whichever side the count stands. -/
def NotRepeated (s : String) (n : Int64) (kind : ErrorKind) : Prop :=
  Rejects .mul (.atom (.string s)) (.atom (.int n)) kind ∧
    Rejects .mul (.atom (.int n)) (.atom (.string s)) kind

theorem Repeats.not_notRepeated (h : Repeats s n t) : ¬ NotRepeated s n kind :=
  fun hnot => h.1.not_rejects hnot.1

theorem Repeats.unique {u : String} (h : Repeats s n t) (h' : Repeats s n u) : t = u := by
  cases h.1.unique h'.1
  rfl

theorem repeats_of_ok (h : ∀ span, repeatString s n span = .ok t) : Repeats s n t := by
  have hcompute : ∀ span, Atom.compute .mul (.string s) (.int n) span = .ok (.string t) := by
    intro span
    simp only [Atom.compute, h]
    rfl
  exact ⟨yields_of_ok hcompute, yields_of_ok hcompute⟩

theorem notRepeated_of_error {e : Option Span → Error} (hkind : ∀ span, (e span).kind = kind)
    (h : ∀ span, repeatString s n span = .error (e span)) : NotRepeated s n kind := by
  have hcompute : ∀ span, Atom.compute .mul (.string s) (.int n) span = .error (e span) := by
    intro span
    simp only [Atom.compute, h]
    rfl
  exact ⟨rejects_of_error hkind hcompute, rejects_of_error hkind hcompute⟩

theorem notRepeated_negative (hn : n.toInt < 0) : NotRepeated s n .negativeRepeat := by
  have hneg : n < 0 := Int64.lt_iff_toInt_lt.mpr hn
  apply notRepeated_of_error
    (e := fun span => .hinted .negativeRepeat span s!"repeat count is {n.toInt}")
  · intro span
    rfl
  · intro span
    simp only [repeatString, if_pos hneg]

theorem not_negative (hn : 0 ≤ n.toInt) : ¬ n < 0 := by
  intro hneg
  have hlt : n.toInt < 0 := Int64.lt_iff_toInt_lt.mp hneg
  omega

theorem notRepeated_tooLong (hn : 0 ≤ n.toInt)
    (hlong : maxSequenceLength < s.length * n.toInt.toNat) :
    NotRepeated s n .valueOutOfRange := by
  apply notRepeated_of_error (e := fun span =>
    .hinted .valueOutOfRange span s!"repeated string would exceed {maxSequenceLength} chars")
  · intro span
    rfl
  · intro span
    simp only [repeatString, if_neg (not_negative hn), if_neg (Nat.not_le.mpr hlong)]

theorem repeats_repeated (hn : 0 ≤ n.toInt)
    (hshort : s.length * n.toInt.toNat ≤ maxSequenceLength) :
    Repeats s n (repeated s n.toInt.toNat) := by
  apply repeats_of_ok
  intro span
  simp only [repeatString, if_neg (not_negative hn), if_pos hshort]

/-- What becomes of a repetition, in all its cases. -/
theorem repetition_cases (s : String) (n : Int64) :
    n.toInt < 0 ∧ NotRepeated s n .negativeRepeat ∨
      (0 ≤ n.toInt ∧ maxSequenceLength < s.length * n.toInt.toNat) ∧
        NotRepeated s n .valueOutOfRange ∨
      (0 ≤ n.toInt ∧ s.length * n.toInt.toNat ≤ maxSequenceLength) ∧
        Repeats s n (repeated s n.toInt.toNat) := by
  by_cases hneg : n.toInt < 0
  · exact .inl ⟨hneg, notRepeated_negative hneg⟩
  · have hn : 0 ≤ n.toInt := by omega
    by_cases hshort : s.length * n.toInt.toNat ≤ maxSequenceLength
    · exact .inr (.inr ⟨⟨hn, hshort⟩, repeats_repeated hn hshort⟩)
    · have hlong := Nat.not_le.mp hshort
      exact .inr (.inl ⟨⟨hn, hlong⟩, notRepeated_tooLong hn hlong⟩)

/-- What is repeated so often can also be repeated less often. -/
theorem Repeats.fewer {k : Int64} (h : Repeats s k t) (hn : 0 ≤ n.toInt) (hle : n.toInt ≤ k.toInt) :
    t = repeated s k.toInt.toNat ∧ Repeats s n (repeated s n.toInt.toNat) := by
  rcases repetition_cases s k with ⟨-, hno⟩ | ⟨-, hno⟩ | ⟨⟨-, hshort⟩, hyes⟩
  · exact absurd hno h.not_notRepeated
  · exact absurd hno h.not_notRepeated
  · refine ⟨h.unique hyes, repeats_repeated hn (Nat.le_trans ?_ hshort)⟩
    exact Nat.mul_le_mul_left _ (by omega)

theorem yields_concat (u v : String) :
    Yields .add (.atom (.string u)) (.atom (.string v)) (.atom (.string (u ++ v))) :=
  yields_of_ok fun _ => rfl

end Eval

open Eval

/-- What a string times a count is. -/
structure RepetitionLaws (s : String) (n : Int64) : Prop where
  /-- It does not matter which of the two stands first. -/
  swapped : ∀ span state, compute .mul (.atom (.string s)) (.atom (.int n)) span state =
    compute .mul (.atom (.int n)) (.atom (.string s)) span state
  negative : NotRepeated s n .negativeRepeat ↔ n.toInt < 0
  tooLong : NotRepeated s n .valueOutOfRange ↔
    0 ≤ n.toInt ∧ maxSequenceLength < s.length * n.toInt.toNat
  repeats : 0 ≤ n.toInt → s.length * n.toInt.toNat ≤ maxSequenceLength →
    ∃ t, Repeats s n t ∧ t.length = s.length * n.toInt.toNat ∧
      ∀ i < t.length, t.toList[i]? = s.toList[i % s.length]?
  /-- A sum of counts makes a concatenation. -/
  adds : ∀ m k t, 0 ≤ m.toInt → 0 ≤ n.toInt → k.toInt = m.toInt + n.toInt → Repeats s k t →
    ∃ u v, Repeats s m u ∧ Repeats s n v ∧
      Yields .add (.atom (.string u)) (.atom (.string v)) (.atom (.string t))
  zero : Repeats s 0 ""
  empty : 0 ≤ n.toInt → Repeats "" n ""

/-- Repetition is exact for every string and every count for which the result is short enough, and
is refused for all others, however large the product of length and count is. -/
theorem repetition_exact (s : String) (n : Int64) : RepetitionLaws s n where
  swapped := fun _ _ => rfl
  negative := by
    constructor
    · intro h
      rcases repetition_cases s n with ⟨hneg, -⟩ | ⟨-, hno⟩ | ⟨-, hyes⟩
      · exact hneg
      · cases h.1.unique hno.1
      · exact absurd h hyes.not_notRepeated
    · exact notRepeated_negative
  tooLong := by
    constructor
    · intro h
      rcases repetition_cases s n with ⟨-, hno⟩ | ⟨hlong, -⟩ | ⟨-, hyes⟩
      · cases h.1.unique hno.1
      · exact hlong
      · exact absurd h hyes.not_notRepeated
    · rintro ⟨hn, hlong⟩
      exact notRepeated_tooLong hn hlong
  repeats := by
    intro hn hshort
    refine ⟨_, repeats_repeated hn hshort, length_repeated s _, ?_⟩
    intro i hi
    rw [length_repeated] at hi
    exact getElem?_repeated s hi
  adds := by
    intro m k t hm hn hk h
    obtain ⟨rfl, hu⟩ := h.fewer hm (by omega)
    obtain ⟨-, hv⟩ := h.fewer hn (by omega)
    refine ⟨_, _, hu, hv, ?_⟩
    have hcount : k.toInt.toNat = m.toInt.toNat + n.toInt.toNat := by omega
    rw [hcount, repeated_add]
    exact yields_concat _ _
  zero := by
    have h := repeats_repeated (s := s) (n := 0) (by decide) (by simp [Int64.toInt_zero])
    rwa [Int64.toInt_zero, Int.toNat_zero, repeated_zero] at h
  empty := by
    intro hn
    exact repeats_repeated hn (by simp)

end Scripting
