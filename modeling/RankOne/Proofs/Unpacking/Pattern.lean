import RankOne.Unpacking.Pattern
import RankOne.Proofs.Scalar.Encoding
import Mathlib.Data.Nat.Bitwise

/-!
# Patterns and the integers that they spell

A pattern of so many bits spells a number modulo that power of two: a non-negative one when all bits
count positively, and the one nearest to zero when the last bit counts negatively. Complementing and
increasing a pattern negates the number. The pattern of a scalar spells the scalar's integer when it
fits the width, and no other pattern of that width does.
-/

namespace RankOne

/-- The number that a pattern spells when all of its bits count positively. -/
def patternToNat : List Bool → ℕ
  | [] => 0
  | b :: bs => b.toNat + 2 * patternToNat bs

theorem patternToNat_lt (bs : List Bool) : patternToNat bs < 2 ^ bs.length := by
  induction bs with
  | nil => decide
  | cons b bs ih =>
    have hb := Bool.toNat_lt b
    rw [patternToNat, List.length_cons, pow_succ]
    omega

theorem length_increment (bs : List Bool) : (increment bs).length = bs.length := by
  induction bs with
  | nil => rfl
  | cons b bs ih => cases b <;> simp [increment, ih]

theorem patternToNat_increment (bs : List Bool) :
    patternToNat (increment bs) = (patternToNat bs + 1) % 2 ^ bs.length := by
  induction bs with
  | nil => rfl
  | cons b bs ih =>
    have hlt := patternToNat_lt bs
    cases b with
    | false =>
      rw [increment, patternToNat, patternToNat, List.length_cons, pow_succ, Nat.mod_eq_of_lt]
      · simp only [Bool.toNat_true, Bool.toNat_false]
        omega
      · simp only [Bool.toNat_false]
        omega
    | true =>
      have hsum : true.toNat + 2 * patternToNat bs + 1 = 2 * (patternToNat bs + 1) := by
        simp only [Bool.toNat_true]
        omega
      rw [increment, patternToNat, patternToNat, ih, hsum, List.length_cons, pow_succ,
        Nat.mul_comm (2 ^ bs.length) 2, Nat.mul_mod_mul_left, Bool.toNat_false, Nat.zero_add]

theorem patternToNat_not (bs : List Bool) :
    patternToNat (bs.map not) + patternToNat bs + 1 = 2 ^ bs.length := by
  induction bs with
  | nil => rfl
  | cons b bs ih =>
    rw [List.map_cons, patternToNat, patternToNat, List.length_cons, pow_succ, ← ih]
    cases b
    · simp only [Bool.not_false, Bool.toNat_true, Bool.toNat_false]
      omega
    · simp only [Bool.not_true, Bool.toNat_true, Bool.toNat_false]
      omega

theorem length_lowBits (width n : ℕ) : (lowBits width n).length = width := by
  rw [lowBits, List.length_map, List.length_range]

theorem lowBits_succ (width n : ℕ) :
    lowBits (width + 1) n = n.testBit 0 :: lowBits width (n / 2) := by
  unfold lowBits
  rw [List.range_succ_eq_map, List.map_cons, List.map_map]
  congr 1
  apply List.map_congr_left
  intro i _
  exact Nat.testBit_succ n i

theorem patternToNat_lowBits (width n : ℕ) : patternToNat (lowBits width n) = n % 2 ^ width := by
  induction width generalizing n with
  | zero => rw [pow_zero, Nat.mod_one]; rfl
  | succ width ih =>
    have hbit : (n.testBit 0).toNat = n % 2 := by
      rw [Nat.testBit_zero]
      rcases Nat.mod_two_eq_zero_or_one n with h | h <;> simp [h]
    rw [lowBits_succ, patternToNat, ih, hbit, pow_succ, Nat.mul_comm (2 ^ width) 2, Nat.mod_mul]

/-! ## Patterns with a sign -/

/-- The last bit of a pattern, which tells the sign. -/
def signBit (bs : List Bool) : Bool := bs.getLastD false

theorem patternToInt_eq (bs : List Bool) :
    patternToInt bs = patternToNat bs - (signBit bs).toNat * 2 ^ bs.length := by
  induction bs with
  | nil => rfl
  | cons b bs ih =>
    cases bs with
    | nil => cases b <;> rfl
    | cons c cs =>
      have hsign : signBit (b :: c :: cs) = signBit (c :: cs) := rfl
      have hstep : patternToInt (b :: c :: cs) = b.toNat + 2 * patternToInt (c :: cs) := rfl
      have hnat : patternToNat (b :: c :: cs) = b.toNat + 2 * patternToNat (c :: cs) := rfl
      have hlen : (b :: c :: cs).length = (c :: cs).length + 1 := rfl
      rw [hstep, ih, hsign, hnat, hlen, pow_succ]
      push_cast
      ring

theorem two_mul_patternToNat {bs : List Bool} (h : bs ≠ []) :
    2 * patternToNat bs < 2 ^ bs.length ∧ signBit bs = false ∨
      2 ^ bs.length ≤ 2 * patternToNat bs ∧ signBit bs = true := by
  induction bs with
  | nil => exact absurd rfl h
  | cons b bs ih =>
    cases bs with
    | nil => cases b <;> simp [patternToNat, signBit]
    | cons c cs =>
      have hsign : signBit (b :: c :: cs) = signBit (c :: cs) := rfl
      have hb := Bool.toNat_lt b
      rw [hsign, patternToNat, List.length_cons, pow_succ]
      rcases ih (List.cons_ne_nil c cs) with ⟨hlt, hs⟩ | ⟨hle, hs⟩
      · have heven : 2 ^ (c :: cs).length % 2 = 0 := by rw [List.length_cons, pow_succ]; omega
        exact Or.inl ⟨by omega, hs⟩
      · exact Or.inr ⟨by omega, hs⟩

/-- A pattern of a positive width spells an integer of that width, and its last bit tells whether
the integer is negative. -/
theorem patternToInt_bounds {bs : List Bool} {width : ℕ} (h : bs.length = width + 1) :
    -2 ^ width ≤ patternToInt bs ∧ patternToInt bs < 2 ^ width ∧
      (signBit bs = false ↔ 0 ≤ patternToInt bs) := by
  have hcases := two_mul_patternToNat (List.ne_nil_of_length_eq_add_one h)
  have hlt := patternToNat_lt bs
  have hint := patternToInt_eq bs
  have hnonneg : (0 : ℤ) ≤ patternToNat bs := Int.natCast_nonneg _
  rw [h, pow_succ] at hlt hcases hint
  zify at hlt hcases
  rcases hcases with ⟨hsmall, hs⟩ | ⟨hlarge, hs⟩
  · rw [hs, Bool.toNat_false, Nat.cast_zero, zero_mul, sub_zero] at hint
    refine ⟨by linarith, by linarith, ?_⟩
    rw [hs, hint]
    exact iff_of_true rfl hnonneg
  · rw [hs, Bool.toNat_true, Nat.cast_one, one_mul] at hint
    refine ⟨by linarith, by linarith, ?_⟩
    rw [hs]
    exact iff_of_false (by decide) (by linarith)

theorem patternToNat_injective {bs cs : List Bool} (hlen : bs.length = cs.length)
    (h : patternToNat bs = patternToNat cs) : bs = cs := by
  induction bs generalizing cs with
  | nil => exact (List.length_eq_zero_iff.mp hlen.symm).symm
  | cons b bs ih =>
    cases cs with
    | nil => cases hlen
    | cons c cs =>
      rw [patternToNat, patternToNat] at h
      have hb := Bool.toNat_lt b
      have hc := Bool.toNat_lt c
      have hnat : b.toNat = c.toNat := by omega
      have hbc : b = c := by
        rw [Bool.eq_iff_iff, ← Bool.toNat_eq_one, ← Bool.toNat_eq_one, hnat]
      have htail : bs = cs := ih (Nat.succ.inj hlen) (by omega)
      rw [hbc, htail]

/-- Modulo the power of two, the sign makes no difference. -/
theorem patternToInt_emod (bs : List Bool) : patternToInt bs % 2 ^ bs.length = patternToNat bs := by
  have hlt : (patternToNat bs : ℤ) < 2 ^ bs.length := by exact_mod_cast patternToNat_lt bs
  rw [patternToInt_eq, Int.sub_mul_emod_self_right,
    Int.emod_eq_of_lt (Int.natCast_nonneg _) hlt]

/-- Different patterns of one width spell different integers. -/
theorem patternToInt_injective {bs cs : List Bool} (hlen : bs.length = cs.length)
    (h : patternToInt bs = patternToInt cs) : bs = cs := by
  apply patternToNat_injective hlen
  have hb := patternToInt_emod bs
  rw [hlen, h, patternToInt_emod] at hb
  exact_mod_cast hb.symm

/-- The bits of a pattern are those of its integer: the integer is halved and rounded down. -/
theorem patternToInt_bit {bs : List Bool} {i : ℕ} (hi : i < bs.length) :
    patternToInt bs / 2 ^ i % 2 = bs[i].toNat := by
  induction bs generalizing i with
  | nil => cases hi
  | cons b bs ih =>
    have hb := Bool.toNat_lt b
    cases bs with
    | nil =>
      obtain rfl : i = 0 := Nat.lt_one_iff.mp hi
      cases b <;> rfl
    | cons c cs =>
      have hstep : patternToInt (b :: c :: cs) = b.toNat + 2 * patternToInt (c :: cs) := rfl
      cases i with
      | zero =>
        rw [hstep, pow_zero, Int.ediv_one]
        show _ = (b.toNat : ℤ)
        omega
      | succ i =>
        have hhalf : patternToInt (b :: c :: cs) / 2 = patternToInt (c :: cs) := by omega
        rw [pow_succ', ← Int.ediv_ediv_of_nonneg (by decide), hhalf]
        exact ih (Nat.lt_of_succ_lt_succ hi)

/-! ## The pattern of a scalar -/

/-- The integer whose pattern is taken: a set top byte makes it negative. -/
def patternSource (a : Scalar) : ℤ := if a.negative then (a.val : ℤ) - order else a.val

theorem length_twosComplement (width : ℕ) (a : Scalar) :
    (twosComplement width a).length = width := by
  unfold twosComplement
  split
  · rw [length_increment, List.length_map, length_lowBits]
  · rw [length_lowBits]

/-- The pattern of a scalar spells its source modulo the power of two of the width. -/
theorem patternToNat_twosComplement (width : ℕ) (a : Scalar) :
    (patternToNat (twosComplement width a) : ℤ) = patternSource a % 2 ^ width := by
  unfold twosComplement patternSource
  split
  · rename_i hneg
    have hpos : 0 < a.val :=
      lt_of_lt_of_le (Nat.two_pow_pos 248) ((Scalar.negative_iff a).mp hneg)
    have hlt := a.isLt
    have hval : (-a).val = order - a.val := Nat.mod_eq_of_lt (by omega)
    have hnot := patternToNat_not (lowBits width (order - a.val))
    rw [length_lowBits, patternToNat_lowBits] at hnot
    have hsum : (patternToNat ((lowBits width (order - a.val)).map not) + 1 : ℤ) =
        (a.val - order) + 2 ^ width * (1 + (order - a.val : ℕ) / 2 ^ width) := by
      have hdiv := Nat.div_add_mod (order - a.val) (2 ^ width)
      zify [hlt.le] at hnot hdiv ⊢
      linarith
    rw [hval, patternToNat_increment, List.length_map, length_lowBits]
    push_cast
    rw [hsum, Int.add_mul_emod_self_left]
  · rw [patternToNat_lowBits]
    norm_cast

/-- The integer has a pattern of the width with a sign. -/
def Fits (width : ℕ) (n : ℤ) : Prop := -2 ^ (width - 1) ≤ n ∧ n < 2 ^ (width - 1)

instance (width : ℕ) (n : ℤ) : Decidable (Fits width n) := inferInstanceAs (Decidable (_ ∧ _))

theorem two_pow_le_maxWidth {width : ℕ} (hmax : width ≤ maxWidth) :
    (2 : ℤ) ^ (width - 1) ≤ 2 ^ 247 := by
  have h : width - 1 ≤ 247 := by change width ≤ 248 at hmax; omega
  exact pow_le_pow_right₀ (by norm_num) h

/-- Within the supported widths the top byte tells the sign. -/
theorem patternSource_eq {width : ℕ} (hmax : width ≤ maxWidth) {a : Scalar}
    (h : Fits width a.toInt) : patternSource a = a.toInt := by
  have hpow := two_pow_le_maxWidth hmax
  have horder : (2 : ℤ) ^ 252 < order := by exact_mod_cast Scalar.two_pow_lt_order
  have hneg := Scalar.negative_iff a
  unfold Fits at h
  unfold patternSource
  rcases Scalar.toInt_cases a with ⟨heq, _⟩ | ⟨heq, _⟩
  · have hsmall : ¬2 ^ 248 ≤ a.val := by zify; linarith
    rw [if_neg (mt hneg.mp hsmall), heq]
  · have hlarge : 2 ^ 248 ≤ a.val := by zify; linarith
    rw [if_pos (hneg.mpr hlarge), heq]

/-- The pattern of a scalar that fits the width spells the scalar's integer. -/
theorem patternToInt_twosComplement {width : ℕ} (htwo : 2 ≤ width) (hmax : width ≤ maxWidth)
    {a : Scalar} (h : Fits width a.toInt) : patternToInt (twosComplement width a) = a.toInt := by
  obtain ⟨k, rfl⟩ : ∃ k, width = k + 1 := ⟨width - 1, by omega⟩
  have hbounds := patternToInt_bounds (length_twosComplement (k + 1) a)
  have hmod := patternToInt_emod (twosComplement (k + 1) a)
  rw [length_twosComplement, patternToNat_twosComplement, patternSource_eq hmax h] at hmod
  have hdvd := Int.ModEq.dvd hmod
  have hfits : -2 ^ k ≤ a.toInt ∧ a.toInt < 2 ^ k := h
  have hzero := Int.eq_zero_of_abs_lt_dvd hdvd (by
    rw [abs_lt, pow_succ]
    constructor <;> linarith)
  linarith

/-! ## The check of the width -/

theorem bitLength_le_iff (n k : ℕ) : bitLength n ≤ k ↔ n < 2 ^ k := by
  unfold bitLength
  split
  · rename_i h
    rw [h]
    exact iff_of_true (Nat.zero_le k) (Nat.two_pow_pos k)
  · rename_i h
    rw [Nat.add_one_le_iff, Nat.log2_lt h]

/-- A scalar is refused when its integer does not fit. -/
theorem requireFit_eq {width : ℕ} (htwo : 2 ≤ width) (hmax : width ≤ maxWidth) (a : Scalar) :
    requireFit width a = .ok () ∧ Fits width a.toInt ∨
      requireFit width a = .error (.tooWide (bitLength a.toInt.natAbs - 1) width) ∧
        ¬Fits width a.toInt := by
  have hmax' : width ≤ 248 := hmax
  have hshift : ¬(maxShift : ℤ) < (width : ℤ) - 1 := by
    have hreach : 248 ≤ maxShift := by decide
    omega
  have hneeded : (neededWidth a.toInt : ℤ) ≤ width ↔ Fits width a.toInt := by
    have hiff := bitLength_le_iff
      (if 0 ≤ a.toInt then a.toInt.toNat else (-a.toInt - 1).toNat) (width - 1)
    have hpred : (neededWidth a.toInt : ℤ) ≤ width ↔
        bitLength (if 0 ≤ a.toInt then a.toInt.toNat else (-a.toInt - 1).toNat) ≤ width - 1 := by
      unfold neededWidth
      omega
    have hpos : (0 : ℤ) < 2 ^ (width - 1) := by positivity
    rw [hpred, hiff]
    unfold Fits
    zify
    split
    · rename_i hnonneg
      rw [Int.toNat_of_nonneg hnonneg]
      constructor
      · intro hlt
        exact ⟨by linarith, hlt⟩
      · exact And.right
    · rename_i hneg
      rw [Int.toNat_of_nonneg (by omega)]
      constructor
      · intro hlt
        exact ⟨by linarith, by linarith⟩
      · intro h
        obtain ⟨hlo, _⟩ := h
        linarith
  rw [requireFit, if_neg (by omega), if_neg hshift]
  by_cases hfits : Fits width a.toInt
  · exact Or.inl ⟨if_pos (hneeded.mpr hfits), hfits⟩
  · exact Or.inr ⟨if_neg (mt hneeded.mp hfits), hfits⟩

end RankOne
