import RankOne.Value
import RankOne.Proofs.Unpacking.Pattern
import Mathlib.Algebra.BigOperators.Ring.Finset

/-!
# The digits of a pattern

In every width for which an encoding has bits, bit `i` of the pattern of a scalar is digit `i` of
one integer, rounded down for negative integers as well. That integer is the least non-negative
representative of the scalar, less the order when the top byte of the encoding is not empty. It is
the representative nearest to zero except from the 248th power of two up to half of the order,
where a positive scalar has a top byte that is not empty. An integer that fits the width is read
back from its pattern.
-/

namespace RankOne

/-- Bit `i` of a pattern as a number. -/
def bitAt (bs : List Bool) (i : ℕ) : ℤ := (bs.getD i false).toNat

theorem bitAt_of_lt {bs : List Bool} {i : ℕ} (hi : i < bs.length) :
    bitAt bs i = bs[i].toNat := by
  rw [bitAt, List.getD_eq_getElem _ _ hi]

/-! ## Digits of integers -/

/-- Digits below the width depend on the remainder only. -/
theorem digit_emod (n : ℤ) {width i : ℕ} (hi : i < width) :
    n % 2 ^ width / 2 ^ i % 2 = n / 2 ^ i % 2 := by
  obtain ⟨k, rfl⟩ : ∃ k, width = i + (k + 1) := ⟨width - i - 1, by omega⟩
  have hpow : (2 : ℤ) ^ (i + (k + 1)) = 2 ^ i * (2 * 2 ^ k) := by rw [pow_add, pow_succ']
  have hne : (2 : ℤ) ^ i ≠ 0 := by positivity
  have hsplit : n % 2 ^ (i + (k + 1)) + 2 ^ i * (2 * (2 ^ k * (n / 2 ^ (i + (k + 1))))) = n := by
    have h := Int.emod_add_mul_ediv n (2 ^ (i + (k + 1)))
    rw [hpow] at h ⊢
    linarith
  conv_rhs => rw [← hsplit, Int.add_mul_ediv_left _ _ hne, Int.add_mul_emod_self_left]

/-- The weighted sum of the bits, the last one with a negative weight. -/
theorem patternToInt_eq_sum {bs : List Bool} {k : ℕ} (h : bs.length = k + 1) :
    patternToInt bs = ∑ i ∈ Finset.range k, 2 ^ i * bitAt bs i - 2 ^ k * bitAt bs k := by
  induction bs generalizing k with
  | nil => cases h
  | cons b bs ih =>
    cases bs with
    | nil =>
      obtain rfl : k = 0 := (Nat.succ.inj h).symm
      simp [patternToInt, bitAt]
    | cons c cs =>
      obtain ⟨j, rfl⟩ : ∃ j, k = j + 1 := ⟨cs.length, (Nat.succ.inj h).symm⟩
      have hrest := ih (Nat.succ.inj h)
      have hstep : patternToInt (b :: c :: cs) = b.toNat + 2 * patternToInt (c :: cs) := rfl
      have hfirst : bitAt (b :: c :: cs) 0 = b.toNat := rfl
      have hlater : ∀ i, bitAt (b :: c :: cs) (i + 1) = bitAt (c :: cs) i := fun _ => rfl
      have hsum : ∑ i ∈ Finset.range j, 2 ^ (i + 1) * bitAt (c :: cs) i =
          2 * ∑ i ∈ Finset.range j, 2 ^ i * bitAt (c :: cs) i := by
        rw [Finset.mul_sum]
        exact Finset.sum_congr rfl fun i _ => by rw [pow_succ', mul_assoc]
      rw [hstep, hrest, Finset.sum_range_succ', hlater, hfirst, pow_succ', pow_zero]
      simp only [hlater]
      rw [hsum]
      ring

/-! ## The pattern of a scalar -/

/-- Each bit is a digit of the integer whose pattern is taken, in every width alike. -/
theorem bitAt_twosComplement (a : Scalar) {width i : ℕ} (hi : i < width) :
    bitAt (twosComplement width a) i = patternSource a / 2 ^ i % 2 := by
  have hlen := length_twosComplement width a
  have hlt : i < (twosComplement width a).length := hlen.symm ▸ hi
  have hmod := patternToInt_emod (twosComplement width a)
  rw [hlen, patternToNat_twosComplement] at hmod
  rw [bitAt_of_lt hlt, ← patternToInt_bit hlt, ← digit_emod _ hi, hmod, digit_emod _ hi]

theorem patternSource_eq_ite (a : Scalar) :
    patternSource a = if a.val < 2 ^ 248 then (a.val : ℤ) else a.val - order := by
  have hneg := Scalar.negative_iff a
  unfold patternSource
  by_cases h : a.val < 2 ^ 248
  · rw [if_neg (by rw [hneg]; omega), if_pos h]
  · rw [if_pos (by rw [hneg]; omega), if_neg h]

/-- The top byte and the nearest representative disagree about the sign of the scalars from the
248th power of two up to half of the order, and about no others. -/
theorem patternSource_eq_toInt_iff (a : Scalar) :
    patternSource a = a.toInt ↔ ¬(2 ^ 248 ≤ a.val ∧ a.val ≤ order / 2) := by
  have hpos := order_pos
  have hhalf : 2 ^ 248 ≤ order / 2 := by decide
  rw [patternSource_eq_ite]
  rcases Scalar.toInt_cases a with ⟨heq, _⟩ | ⟨heq, _⟩ <;> rw [heq] <;> split <;> omega

/-- Past the bits of an encoding there is no pattern; up to there, there is one. -/
theorem patternOf_eq (a : Scalar) {width : ℕ} (h : width ≤ 256) :
    patternOf width a = .ok (twosComplement width a) := by
  have hle : (width : ℤ) ≤ 8 * Scalar.size := by
    show (width : ℤ) ≤ 256
    omega
  rw [patternOf, if_pos hle, Int.toNat_natCast]

/-- A value that is read as a scalar is an integer modulo the order. -/
theorem Value.val_of_scalar {v : Value} {a : Scalar} (h : v.scalar = .ok a) :
    ∃ n, v.whole = .ok n ∧ (a.val : ℤ) = n % order := by
  cases v with
  | integer n =>
    obtain rfl := Except.ok.inj h
    exact ⟨n, rfl, Scalar.val_intCast n⟩
  | truth b =>
    obtain rfl := Except.ok.inj h
    exact ⟨b.toNat, rfl, rfl⟩
  | element n =>
    obtain rfl := Except.ok.inj h
    exact ⟨n, rfl, rfl⟩
  | _ => cases h

/-- What the patterns of a value that is read as a scalar spell. -/
structure SpelledByDigits (v : Value) (a : Scalar) : Prop where
  residue : ∃ n, v.whole = .ok n ∧ (a.val : ℤ) = n % order
  source_eq : patternSource a = if a.val < 2 ^ 248 then (a.val : ℤ) else a.val - order
  source_nearest : patternSource a = a.toInt ↔ ¬(2 ^ 248 ≤ a.val ∧ a.val ≤ order / 2)
  digits : ∀ width : ℕ, width ≤ 256 → ∃ bits, (v.scalar >>= patternOf width) = .ok bits ∧
    bits.length = width ∧ ∀ i < width, bitAt bits i = patternSource a / 2 ^ i % 2
  read_back : ∀ width : ℕ, 2 ≤ width → width ≤ 248 →
    -2 ^ (width - 1) ≤ a.toInt → a.toInt < 2 ^ (width - 1) →
    ∃ bits, (v.scalar >>= patternOf width) = .ok bits ∧
      ∑ i ∈ Finset.range (width - 1), 2 ^ i * bitAt bits i -
        2 ^ (width - 1) * bitAt bits (width - 1) = a.toInt

/-- The pattern of any value that is read as a scalar consists of the digits of one integer in every
width, and an integer that fits the width is read back from it. -/
theorem spelledByDigits_of_scalar {v : Value} {a : Scalar} (hv : v.scalar = .ok a) :
    SpelledByDigits v a := by
  have hpattern : ∀ width : ℕ, width ≤ 256 →
      (v.scalar >>= patternOf width) = .ok (twosComplement width a) := by
    intro width hwidth
    rw [hv]
    exact patternOf_eq a hwidth
  constructor
  case residue => exact Value.val_of_scalar hv
  case source_eq => exact patternSource_eq_ite a
  case source_nearest => exact patternSource_eq_toInt_iff a
  case digits =>
    intro width hwidth
    exact ⟨_, hpattern width hwidth, length_twosComplement width a,
      fun i hi => bitAt_twosComplement a hi⟩
  case read_back =>
    intro width htwo hmax hlo hhi
    have hlen : (twosComplement width a).length = width - 1 + 1 := by
      rw [length_twosComplement]
      omega
    refine ⟨_, hpattern width (by omega), ?_⟩
    rw [← patternToInt_eq_sum hlen]
    exact patternToInt_twosComplement htwo hmax ⟨hlo, hhi⟩

/-- The least integer of eight bits, and a scalar that the top byte makes negative although it is
positive. -/
theorem spelledByDigits_of_scalar_least :
    (Value.integer (-128)).scalar = .ok (-128) ∧
      (∃ bits, ((Value.integer (-128)).scalar >>= patternOf 8) = .ok bits ∧
        ∑ i ∈ Finset.range 7, 2 ^ i * bitAt bits i - 2 ^ 7 * bitAt bits 7 = -128) ∧
      (Value.integer (2 ^ 248)).scalar = .ok (.twoTo 248) ∧
      patternSource (.twoTo 248) = 2 ^ 248 - order := by
  have hscalar : (Value.integer (2 ^ 248)).scalar = .ok (.twoTo 248) := by decide +kernel
  have hleast := spelledByDigits_of_scalar (v := .integer (-128)) (a := -128) rfl
  have hband := spelledByDigits_of_scalar hscalar
  refine ⟨rfl, ?_, hscalar, ?_⟩
  · exact hleast.read_back 8 (by decide) (by decide) (by decide) (by decide)
  · rw [hband.source_eq]
    decide +kernel

end RankOne
