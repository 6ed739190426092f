import Mathlib.Data.Int.Bitwise
import Mathlib.Tactic.Common
import Scripting.Eval.Operator

/-! Operators on integers of 64 bits. Each gives what it means for integers of any size, or is
refused because that does not fit or does not exist; only a shift to the left drops bits. -/
namespace Scripting

/-- The values that 64 bits can hold. -/
def Representable (n : Int) : Prop := -2 ^ 63 ≤ n ∧ n < 2 ^ 63

theorem representable_toInt (a : Int64) : Representable a.toInt := ⟨a.le_toInt, a.toInt_lt⟩

/-- What an operator means for integers of any size. Their bits are those of two's complement, in
which a negative integer has ones without end. -/
def BinaryOp.meaning : BinaryOp → Int → Int → Int
  | .add, a, b => a + b
  | .sub, a, b => a - b
  | .mul, a, b => a * b
  | .div, a, b => a.tdiv b
  | .mod, a, b => a.tmod b
  | .shiftLeft, a, b => a * 2 ^ b.toNat
  | .shiftRight, a, b => a.fdiv (2 ^ b.toNat)
  | .bitAnd, a, b => a.land b
  | .bitXor, a, b => a.xor b
  | .bitOr, a, b => a.lor b
  | .logAnd, _, _ | .logOr, _, _ => 0

/-! ### Quotients -/

/-- Only the least integer divided by minus one is too large. -/
theorem representable_tdiv_iff {m n : Int} (hm : Representable m) (hn : n ≠ 0) :
    Representable (m.tdiv n) ↔ ¬ (m = -2 ^ 63 ∧ n = -1) := by
  have hle := Int.natAbs_tdiv_le_natAbs m n
  obtain ⟨hlow, hhigh⟩ := hm
  unfold Representable
  constructor
  · rintro ⟨-, hlt⟩ ⟨rfl, rfl⟩
    exact absurd hlt (by decide)
  · intro hnot
    by_cases hone : n = -1
    · rw [hone, Int.tdiv_neg, Int.tdiv_one]
      omega
    · -- a divisor of two or more at least halves what is there
      refine ⟨by omega, ?_⟩
      by_contra hge
      have hmin : m = -2 ^ 63 := by omega
      have hhalf : (m.tdiv n).natAbs = m.natAbs / n.natAbs := Int.natAbs_tdiv m n
      rcases Nat.lt_or_ge 1 n.natAbs with hbig | hsmall
      · have : m.natAbs / n.natAbs ≤ m.natAbs / 2 := Nat.div_le_div_left hbig (by decide)
        omega
      · have hn' : n = 1 := by omega
        rw [hn', Int.tdiv_one] at hge
        omega

/-- A remainder goes with the sign of the dividend. -/
theorem tmod_eq_zero_or_sign (m n : Int) : m.tmod n = 0 ∨ (m.tmod n).sign = m.sign := by
  rw [Int.sign_tmod]
  split
  · next hdvd => exact .inl (Int.tmod_eq_zero_of_dvd hdvd)
  · exact .inr rfl

theorem natAbs_tmod_lt (m : Int) {n : Int} (hn : n ≠ 0) : (m.tmod n).natAbs < n.natAbs := by
  rw [Int.natAbs_tmod]
  exact Nat.mod_lt _ (by omega)

/-! ### Bits -/

/-- Of each pair of bits "or" takes one and "and" the other, so their sum is that of the pair. -/
theorem and_add_or (m n : Nat) :
    (m &&& n) + (m ||| n) = m + n ∧ (m ^^^ n) + (m &&& n) = m ||| n := by
  induction m using Nat.strongRecOn generalizing n with
  | ind m ih =>
    by_cases hm : m = 0
    · simp [hm]
    · obtain ⟨hsum, hxor⟩ := ih (m / 2) (by omega) (n / 2)
      rw [← Nat.and_div_two, ← Nat.or_div_two] at hsum hxor
      rw [← Nat.xor_div_two] at hxor
      have hand := @Nat.and_mod_two_eq_one m n
      have hor := @Nat.or_mod_two_eq_one m n
      have hodd := @Nat.xor_mod_two_eq_one m n
      omega

theorem toInt_and_add_or (a b : Int64) :
    (a &&& b).toInt + (a ||| b).toInt = a.toInt + b.toInt ∧
      (a ^^^ b).toInt = (a ||| b).toInt - (a &&& b).toInt := by
  have hbits := and_add_or a.toBitVec.toNat b.toBitVec.toNat
  simp only [← Int64.toInt_toBitVec, Int64.toBitVec_and, Int64.toBitVec_or, Int64.toBitVec_xor,
    BitVec.toInt_eq_msb_cond, BitVec.msb_and, BitVec.msb_or, BitVec.msb_xor, BitVec.toNat_and,
    BitVec.toNat_or, BitVec.toNat_xor]
  cases a.toBitVec.msb <;> cases b.toBitVec.msb <;> simp <;> omega

/-- The bits of an integer are the 64 bits that hold it, with the sign before them. -/
theorem testBit_toInt (a : Int64) (i : Nat) :
    a.toInt.testBit i = if i < 64 then a.toBitVec.getLsbD i else a.toBitVec.msb := by
  have hlt := a.toBitVec.isLt
  rw [← Int64.toInt_toBitVec, BitVec.toInt_eq_msb_cond]
  cases hmsb : a.toBitVec.msb with
  | false =>
    have hbit : (Int.ofNat a.toBitVec.toNat).testBit i = a.toBitVec.getLsbD i := rfl
    rw [if_neg (by simp)]
    refine hbit.trans ?_
    split
    · rfl
    · exact BitVec.getLsbD_of_ge _ _ (by omega)
  | true =>
    have hneg : ((a.toBitVec.toNat : Int) - (2 ^ 64 : Nat)) =
        Int.negSucc (2 ^ 64 - (a.toBitVec.toNat + 1)) := by
      omega
    rw [if_pos rfl, hneg, Int.testBit, Nat.testBit_two_pow_sub_succ hlt]
    by_cases hi : i < 64 <;> simp [hi, BitVec.getLsbD]

theorem testBit_and (a b : Int64) (i : Nat) :
    (a &&& b).toInt.testBit i = (a.toInt.testBit i && b.toInt.testBit i) := by
  simp only [testBit_toInt, Int64.toBitVec_and, BitVec.getLsbD_and, BitVec.msb_and]
  split <;> rfl

theorem testBit_or (a b : Int64) (i : Nat) :
    (a ||| b).toInt.testBit i = (a.toInt.testBit i || b.toInt.testBit i) := by
  simp only [testBit_toInt, Int64.toBitVec_or, BitVec.getLsbD_or, BitVec.msb_or]
  split <;> rfl

theorem testBit_xor (a b : Int64) (i : Nat) :
    (a ^^^ b).toInt.testBit i = (a.toInt.testBit i ^^ b.toInt.testBit i) := by
  simp only [testBit_toInt, Int64.toBitVec_xor, BitVec.getLsbD_xor, BitVec.msb_xor]
  split <;> rfl

/-- Integers with the same bits are the same. -/
theorem eq_of_testBit_eq {m n : Int} (h : ∀ i, m.testBit i = n.testBit i) : m = n := by
  have hends : ∀ k l : Nat, ∃ i, k.testBit i = false ∧ l.testBit i = false := fun k l =>
    ⟨max k l, Nat.testBit_lt_two_pow (Nat.lt_of_le_of_lt (Nat.le_max_left k l) Nat.lt_two_pow_self),
      Nat.testBit_lt_two_pow (Nat.lt_of_le_of_lt (Nat.le_max_right k l) Nat.lt_two_pow_self)⟩
  rcases m with k | k <;> rcases n with l | l
  · exact congrArg Int.ofNat (Nat.eq_of_testBit_eq h)
  · obtain ⟨i, hk, hl⟩ := hends k l
    simpa [Int.testBit, hk, hl] using h i
  · obtain ⟨i, hk, hl⟩ := hends k l
    simpa [Int.testBit, hk, hl] using h i
  · exact congrArg Int.negSucc (Nat.eq_of_testBit_eq fun i => by simpa [Int.testBit] using h i)

/-! ### Shifts -/

theorem toNat_smod {b : Int64} (hlow : 0 ≤ b.toInt) (hhigh : b.toInt < 64) :
    (b.toBitVec.smod 64).toNat = b.toInt.toNat := by
  have hint : (b.toBitVec.smod 64).toInt = b.toInt := by
    rw [BitVec.toInt_smod, Int64.toInt_toBitVec]
    exact Int.fmod_eq_of_lt hlow hhigh
  have hcond := BitVec.toInt_eq_toNat_cond (b.toBitVec.smod 64)
  have hlt := (b.toBitVec.smod 64).isLt
  split at hcond <;> omega

theorem toInt_shiftLeft (a : Int64) {b : Int64} (hlow : 0 ≤ b.toInt) (hhigh : b.toInt < 64) :
    (a <<< b).toInt = (a.toInt * 2 ^ b.toInt.toNat).bmod (2 ^ 64) := by
  rw [← Int64.toInt_toBitVec, Int64.toBitVec_shiftLeft, BitVec.shiftLeft_eq', toNat_smod hlow hhigh,
    BitVec.toInt_shiftLeft, ← Int64.toInt_toBitVec a, BitVec.toInt_eq_toNat_bmod, Int.bmod_mul_bmod,
    Nat.shiftLeft_eq]
  norm_cast

theorem toInt_shiftRight (a : Int64) {b : Int64} (hlow : 0 ≤ b.toInt) (hhigh : b.toInt < 64) :
    (a >>> b).toInt = a.toInt.fdiv (2 ^ b.toInt.toNat) := by
  rw [← Int64.toInt_toBitVec, Int64.toBitVec_shiftRight, BitVec.sshiftRight', toNat_smod hlow hhigh,
    BitVec.toInt_sshiftRight, Int64.toInt_toBitVec, Int.shiftRight_eq_div_pow,
    Int.fdiv_eq_ediv_of_nonneg _ (Int.pow_nonneg (by decide))]
  norm_cast

/-! ### Outcomes -/

namespace Eval

/-- An operator gives a value, and nothing else happens. -/
def Yields (op : BinaryOp) (l r v : Value) : Prop := ∀ span s, compute op l r span s = .ok v s

/-- An operator is refused with an error of some kind, and nothing else happens. -/
def Rejects (op : BinaryOp) (l r : Value) (kind : ErrorKind) : Prop :=
  ∀ span s, ∃ e : Error, e.kind = kind ∧ compute op l r span s = .error (.raised e) s

section

variable {op : BinaryOp} {l r v w : Value} {a b c : Atom} {kind kind' : ErrorKind}

theorem Yields.unique (h : Yields op l r v) (h' : Yields op l r w) : v = w := by
  have hvw := (h none default).symm.trans (h' none default)
  cases hvw
  rfl

theorem Yields.not_rejects (h : Yields op l r v) : ¬ Rejects op l r kind := by
  intro hrejects
  obtain ⟨e, -, he⟩ := hrejects none default
  rw [h] at he
  cases he

theorem Rejects.unique (h : Rejects op l r kind) (h' : Rejects op l r kind') : kind = kind' := by
  obtain ⟨e, rfl, he⟩ := h none default
  obtain ⟨e', rfl, he'⟩ := h' none default
  rw [he] at he'
  cases he'
  rfl

theorem yields_of_ok (h : ∀ span, Atom.compute op a b span = .ok c) :
    Yields op (.atom a) (.atom b) (.atom c) := by
  intro span s
  simp only [compute, h]
  rfl

theorem rejects_of_error {e : Option Span → Error} (hkind : ∀ span, (e span).kind = kind)
    (h : ∀ span, Atom.compute op a b span = .error (e span)) :
    Rejects op (.atom a) (.atom b) kind := by
  refine fun span s => ⟨e span, hkind span, ?_⟩
  simp only [compute, h]
  rfl

end

variable {op : BinaryOp} {a b : Int64} {m n : Int} {kind : ErrorKind} {span : Option Span}

/-- An operator gives the integer `n`. -/
def Computes (op : BinaryOp) (a b : Int64) (n : Int) : Prop :=
  ∃ k : Int64, k.toInt = n ∧ Yields op (.atom (.int a)) (.atom (.int b)) (.atom (.int k))

/-- An operator is refused for two integers. -/
def Refuses (op : BinaryOp) (a b : Int64) (kind : ErrorKind) : Prop :=
  Rejects op (.atom (.int a)) (.atom (.int b)) kind

/-- An operator gives the integer `n`, unless 64 bits cannot hold it. -/
def Exactly (op : BinaryOp) (a b : Int64) (n : Int) : Prop :=
  (Representable n → Computes op a b n) ∧ (¬ Representable n → Refuses op a b .valueOutOfRange)

theorem computes_of_ok {k : Int64} (h : ∀ span, intCompute op a b span = .ok k) :
    Computes op a b k.toInt := by
  refine ⟨k, rfl, yields_of_ok fun span => ?_⟩
  simp only [Atom.compute, h]
  rfl

theorem refuses_of_error {e : Option Span → Error} (hkind : ∀ span, (e span).kind = kind)
    (h : ∀ span, intCompute op a b span = .error (e span)) : Refuses op a b kind := by
  refine rejects_of_error hkind fun span => ?_
  simp only [Atom.compute, h]
  rfl

theorem Computes.unique (h : Computes op a b m) (h' : Computes op a b n) : m = n := by
  obtain ⟨k, rfl, hk⟩ := h
  obtain ⟨l, rfl, hl⟩ := h'
  cases hk.unique hl
  rfl

theorem Computes.not_refuses (h : Computes op a b n) : ¬ Refuses op a b kind := by
  obtain ⟨k, -, hk⟩ := h
  exact hk.not_rejects

/-! ### Operators -/

theorem exactInt_of_representable (h : Representable n) : exactInt n span = .ok (.ofInt n) := by
  have hrange : Int64.minValue.toInt ≤ n ∧ n ≤ Int64.maxValue.toInt :=
    ⟨h.1, Int.lt_add_one_iff.mp h.2⟩
  simp only [exactInt, exactInt?, if_pos hrange]

theorem exactInt_of_not_representable (h : ¬ Representable n) :
    exactInt n span = .error { kind := .valueOutOfRange, span } := by
  have hrange : ¬ (Int64.minValue.toInt ≤ n ∧ n ≤ Int64.maxValue.toInt) :=
    fun hn => h ⟨hn.1, Int.lt_add_one_iff.mpr hn.2⟩
  simp only [exactInt, exactInt?, if_neg hrange]

/-- An operator that is nothing but a check of its result. -/
theorem exactly_of_exactInt (h : ∀ span, intCompute op a b span = exactInt n span) :
    Exactly op a b n := by
  constructor
  · intro hn
    have hcomputes : Computes op a b (Int64.ofInt n).toInt :=
      computes_of_ok fun span => (h span).trans (exactInt_of_representable hn)
    rwa [Int64.toInt_ofInt_of_le hn.1 hn.2] at hcomputes
  · exact fun hn => refuses_of_error (fun _ => rfl) fun span =>
      (h span).trans (exactInt_of_not_representable hn)

theorem toInt_ne_zero (hb : b ≠ 0) : b.toInt ≠ 0 := fun h => hb (Int64.toInt_inj.mp h)

theorem exactly_div (hb : b ≠ 0) : Exactly .div a b (a.toInt.tdiv b.toInt) :=
  exactly_of_exactInt fun span => by simp only [intCompute, if_neg hb]

/-- There is a remainder where there is a quotient. -/
theorem computes_mod (hb : b ≠ 0) (hfits : Representable (a.toInt.tdiv b.toInt)) :
    Computes .mod a b (a.toInt.tmod b.toInt) := by
  rw [← Int64.toInt_mod]
  refine computes_of_ok fun span => ?_
  simp only [intCompute, if_neg hb, exactInt_of_representable hfits]
  rfl

theorem refuses_mod (hb : b ≠ 0) (hfits : ¬ Representable (a.toInt.tdiv b.toInt)) :
    Refuses .mod a b .valueOutOfRange := by
  refine refuses_of_error (e := fun span => { kind := .valueOutOfRange, span }) (fun _ => rfl)
    fun span => ?_
  simp only [intCompute, if_neg hb, exactInt_of_not_representable hfits]
  rfl

theorem refuses_zero (hop : op = .div ∨ op = .mod) (hb : b = 0) :
    Refuses op a b .divisionByZero := by
  refine refuses_of_error (e := fun span => { kind := .divisionByZero, span }) (fun _ => rfl)
    fun span => ?_
  rcases hop with rfl | rfl <;> simp only [intCompute, if_pos hb]

/-- What becomes of a division, in all its cases. -/
theorem division_cases (hop : op = .div ∨ op = .mod) (a b : Int64) :
    b = 0 ∧ Refuses op a b .divisionByZero ∨
      b ≠ 0 ∧ (a.toInt = -2 ^ 63 ∧ b.toInt = -1) ∧ Refuses op a b .valueOutOfRange ∨
      b ≠ 0 ∧ ¬ (a.toInt = -2 ^ 63 ∧ b.toInt = -1) ∧
        Computes op a b (op.meaning a.toInt b.toInt) := by
  by_cases hb : b = 0
  · exact .inl ⟨hb, refuses_zero hop hb⟩
  · have hfits := representable_tdiv_iff (representable_toInt a) (toInt_ne_zero hb)
    by_cases hleast : a.toInt = -2 ^ 63 ∧ b.toInt = -1
    · have hnot : ¬ Representable (a.toInt.tdiv b.toInt) := fun h => hfits.mp h hleast
      refine .inr (.inl ⟨hb, hleast, ?_⟩)
      rcases hop with rfl | rfl
      · exact (exactly_div hb).2 hnot
      · exact refuses_mod hb hnot
    · have hyes := hfits.mpr hleast
      refine .inr (.inr ⟨hb, hleast, ?_⟩)
      rcases hop with rfl | rfl
      · exact (exactly_div hb).1 hyes
      · exact computes_mod hb hyes

theorem Computes.eq_of_division (h : Computes op a b n) (hop : op = .div ∨ op = .mod) :
    n = op.meaning a.toInt b.toInt := by
  rcases division_cases hop a b with ⟨-, hno⟩ | ⟨-, -, hno⟩ | ⟨-, -, hyes⟩
  · exact absurd hno h.not_refuses
  · exact absurd hno h.not_refuses
  · exact h.unique hyes

theorem shiftDistance_of (hb : 0 ≤ b.toInt ∧ b.toInt < 64) : shiftDistance b span = .ok b := by
  have hrange : 0 ≤ b ∧ b < 64 := ⟨Int64.le_iff_toInt_le.mpr hb.1, Int64.lt_iff_toInt_lt.mpr hb.2⟩
  simp only [shiftDistance, if_pos hrange]

theorem refuses_shift (hop : op = .shiftLeft ∨ op = .shiftRight)
    (hb : ¬ (0 ≤ b.toInt ∧ b.toInt < 64)) :
    Refuses op a b .valueOutOfRange := by
  have hrange : ¬ (0 ≤ b ∧ b < 64) :=
    fun h => hb ⟨Int64.le_iff_toInt_le.mp h.1, Int64.lt_iff_toInt_lt.mp h.2⟩
  refine refuses_of_error
    (e := fun span => .hinted .valueOutOfRange span s!"shift by {b.toInt} is outside 0..64")
    (fun _ => rfl) fun span => ?_
  rcases hop with rfl | rfl <;> simp only [intCompute, shiftDistance, if_neg hrange] <;> rfl

theorem computes_shiftLeft (hb : 0 ≤ b.toInt ∧ b.toInt < 64) :
    Computes .shiftLeft a b ((a.toInt * 2 ^ b.toInt.toNat).bmod (2 ^ 64)) := by
  rw [← toInt_shiftLeft a hb.1 hb.2]
  refine computes_of_ok fun span => ?_
  simp only [intCompute, shiftDistance_of hb]
  rfl

theorem computes_shiftRight (hb : 0 ≤ b.toInt ∧ b.toInt < 64) :
    Computes .shiftRight a b (a.toInt.fdiv (2 ^ b.toInt.toNat)) := by
  rw [← toInt_shiftRight a hb.1 hb.2]
  refine computes_of_ok fun span => ?_
  simp only [intCompute, shiftDistance_of hb]
  rfl

theorem computes_and (a b : Int64) : Computes .bitAnd a b (a &&& b).toInt :=
  computes_of_ok fun _ => rfl

theorem computes_or (a b : Int64) : Computes .bitOr a b (a ||| b).toInt :=
  computes_of_ok fun _ => rfl

theorem computes_xor (a b : Int64) : Computes .bitXor a b (a ^^^ b).toInt :=
  computes_of_ok fun _ => rfl

theorem refuses_logical (hop : op = .logAnd ∨ op = .logOr) : Refuses op a b .typeMismatch := by
  refine refuses_of_error (e := op.unsupported .int) (fun _ => ?_) fun span => ?_
  · rcases hop with rfl | rfl <;> rfl
  · rcases hop with rfl | rfl <;> rfl

/-- What is computed is what the operator means, except that bits may be shifted out to the left. -/
theorem Computes.eq_meaning (h : Computes op a b n) (hop : op ≠ .shiftLeft) :
    n = op.meaning a.toInt b.toInt := by
  have hexact : ∀ {m : Int}, Exactly op a b m → n = m := by
    intro m hm
    by_cases hfits : Representable m
    · exact h.unique (hm.1 hfits)
    · exact absurd (hm.2 hfits) h.not_refuses
  cases op with
  | add | sub | mul => exact hexact (exactly_of_exactInt fun _ => rfl)
  | div => exact h.eq_of_division (.inl rfl)
  | mod => exact h.eq_of_division (.inr rfl)
  | shiftLeft => exact absurd rfl hop
  | shiftRight =>
    by_cases hb : 0 ≤ b.toInt ∧ b.toInt < 64
    · exact h.unique (computes_shiftRight hb)
    · exact absurd (refuses_shift (.inr rfl) hb) h.not_refuses
  | bitAnd =>
    rw [h.unique (computes_and a b)]
    exact eq_of_testBit_eq fun i => by rw [testBit_and, BinaryOp.meaning, Int.testBit_land]
  | bitXor =>
    rw [h.unique (computes_xor a b)]
    exact eq_of_testBit_eq fun i => by rw [testBit_xor, BinaryOp.meaning, Int.testBit_lxor]
  | bitOr =>
    rw [h.unique (computes_or a b)]
    exact eq_of_testBit_eq fun i => by rw [testBit_or, BinaryOp.meaning, Int.testBit_lor]
  | logAnd => exact absurd (refuses_logical (.inl rfl)) h.not_refuses
  | logOr => exact absurd (refuses_logical (.inr rfl)) h.not_refuses

end Eval

open Eval

/-- What the operators do with two integers of 64 bits. -/
structure IntegerLaws (a b : Int64) : Prop where
  add : Exactly .add a b (a.toInt + b.toInt)
  sub : Exactly .sub a b (a.toInt - b.toInt)
  mul : Exactly .mul a b (a.toInt * b.toInt)
  byZero : ∀ op, op = .div ∨ op = .mod → (Refuses op a b .divisionByZero ↔ b.toInt = 0)
  /-- The one quotient that does not fit has no remainder either. -/
  tooLarge : ∀ op, op = .div ∨ op = .mod →
    (Refuses op a b .valueOutOfRange ↔ a.toInt = -2 ^ 63 ∧ b.toInt = -1)
  divides : b.toInt ≠ 0 → ¬ (a.toInt = -2 ^ 63 ∧ b.toInt = -1) →
    ∃ q r, Computes .div a b q ∧ Computes .mod a b r ∧ a.toInt = b.toInt * q + r ∧
      r.natAbs < b.toInt.natAbs ∧ (r = 0 ∨ r.sign = a.toInt.sign)
  /-- Bits that are shifted out to the left are lost. -/
  shiftLeft : 0 ≤ b.toInt ∧ b.toInt < 64 →
    Computes .shiftLeft a b ((a.toInt * 2 ^ b.toInt.toNat).bmod (2 ^ 64))
  /-- Rounding is downwards. -/
  shiftRight : 0 ≤ b.toInt ∧ b.toInt < 64 →
    Computes .shiftRight a b (a.toInt.fdiv (2 ^ b.toInt.toNat))
  tooFar : ¬ (0 ≤ b.toInt ∧ b.toInt < 64) →
    Refuses .shiftLeft a b .valueOutOfRange ∧ Refuses .shiftRight a b .valueOutOfRange
  bits : ∃ m n k, Computes .bitAnd a b m ∧ Computes .bitOr a b n ∧ Computes .bitXor a b k ∧
    (∀ i, m.testBit i = (a.toInt.testBit i && b.toInt.testBit i) ∧
      n.testBit i = (a.toInt.testBit i || b.toInt.testBit i) ∧
      k.testBit i = (a.toInt.testBit i ^^ b.toInt.testBit i)) ∧
    m + n = a.toInt + b.toInt ∧ k = n - m
  logical : Refuses .logAnd a b .typeMismatch ∧ Refuses .logOr a b .typeMismatch
  /-- Nothing else wraps around. -/
  meant : ∀ op n, op ≠ .shiftLeft → Computes op a b n → n = op.meaning a.toInt b.toInt

/-- Operators on integers are exact, or are refused for a reason that the operands give. -/
theorem integers_exact_or_refused (a b : Int64) : IntegerLaws a b where
  add := exactly_of_exactInt fun _ => rfl
  sub := exactly_of_exactInt fun _ => rfl
  mul := exactly_of_exactInt fun _ => rfl
  byZero := by
    intro op hop
    refine ⟨fun h => ?_, fun hb => refuses_zero hop (Int64.toInt_inj.mp hb)⟩
    rcases division_cases hop a b with ⟨hb, -⟩ | ⟨-, -, hno⟩ | ⟨-, -, hyes⟩
    · rw [hb]
      rfl
    · cases Rejects.unique h hno
    · exact absurd h hyes.not_refuses
  tooLarge := by
    intro op hop
    rcases division_cases hop a b with ⟨hb, hno⟩ | ⟨-, hleast, hno⟩ | ⟨-, hnot, hyes⟩
    · refine ⟨fun h => ?_, fun h => ?_⟩
      · cases Rejects.unique h hno
      · rw [hb] at h
        exact absurd h.2 (by decide)
    · exact ⟨fun _ => hleast, fun _ => hno⟩
    · exact ⟨fun h => absurd h hyes.not_refuses, fun h => absurd h hnot⟩
  divides := by
    intro hb hnot
    have hfits := (representable_tdiv_iff (representable_toInt a) hb).mpr hnot
    have hb' : b ≠ 0 := fun h => hb (by rw [h]; rfl)
    refine ⟨_, _, (exactly_div hb').1 hfits, computes_mod hb' hfits, ?_, natAbs_tmod_lt _ hb,
      tmod_eq_zero_or_sign _ _⟩
    rw [Int.tmod_def]
    omega
  shiftLeft := computes_shiftLeft
  shiftRight := computes_shiftRight
  tooFar := fun hb => ⟨refuses_shift (.inl rfl) hb, refuses_shift (.inr rfl) hb⟩
  bits := by
    obtain ⟨hsum, hxor⟩ := toInt_and_add_or a b
    exact ⟨_, _, _, computes_and a b, computes_or a b, computes_xor a b,
      fun i => ⟨testBit_and a b i, testBit_or a b i, testBit_xor a b i⟩, hsum, hxor⟩
  logical := ⟨refuses_logical (.inl rfl), refuses_logical (.inr rfl)⟩
  meant := fun _ _ hop h => h.eq_meaning hop

end Scripting
