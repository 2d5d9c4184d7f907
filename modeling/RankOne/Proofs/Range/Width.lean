import RankOne.Proofs.Range.Verdict
import Mathlib.Algebra.Order.Ring.Abs

/-!
# What the bound on the bits promises

The options of a range statement bound the bits of the bounds and of the secret, and the width of
the pattern is made from that number. Integers within the bound never wrap around the order, so a
circuit that succeeds compares them as integers. But the gap between two integers of opposite signs
may have one bit more than they have. Far outside the range the product of the gaps can then be
below everything that the pattern holds, and a strict unpacking refuses it. This does not happen
inside the range, nor for a single bit; from two bits on there is a secret that is refused.
-/

namespace RankOne.Range

/-- The number has at most so many binary digits, its sign apart. -/
def HasBits (n : ℕ) (k : ℤ) : Prop := bitLength k.natAbs ≤ n

instance (n : ℕ) (k : ℤ) : Decidable (HasBits n k) := inferInstanceAs (Decidable (_ ≤ _))

theorem hasBits_iff (n : ℕ) (k : ℤ) : HasBits n k ↔ |k| < 2 ^ n := by
  rw [HasBits, bitLength_le_iff, Int.abs_eq_natAbs]
  exact_mod_cast Iff.rfl

/-! ## The product of two gaps -/

section

variable {n : ℕ} {a b x : ℤ}

/-- The gap may need one bit more than the two numbers have. -/
theorem abs_gap_le (ha : HasBits n a) (hx : HasBits n x) : |a - x| ≤ 2 ^ (n + 1) - 2 := by
  rw [hasBits_iff] at ha hx
  have hgap := abs_sub a x
  rw [pow_succ]
  omega

/-- Downwards the product is bounded by two gaps of full length. -/
theorem neg_sq_le_gaps (ha : HasBits n a) (hb : HasBits n b) (hx : HasBits n x) :
    -(2 ^ (n + 1) - 2) ^ 2 ≤ (a - x) * (x - b) := by
  have hlower := abs_gap_le ha hx
  have hupper := abs_gap_le hx hb
  have hproduct : |(a - x) * (x - b)| ≤ (2 ^ (n + 1) - 2) ^ 2 := by
    rw [abs_mul, sq]
    exact mul_le_mul hlower hupper (abs_nonneg _) ((abs_nonneg _).trans hlower)
  exact (abs_le.mp hproduct).1

/-- Upwards the product is largest half-way between the bounds and never needs the bit to spare. -/
theorem gaps_lt (ha : HasBits n a) (hb : HasBits n b) : (a - x) * (x - b) < 2 ^ (2 * n + 1) := by
  have hdistance := abs_gap_le hb ha
  have hsquare : (b - a) ^ 2 ≤ (2 ^ (n + 1) - 2) ^ 2 := by
    rw [← sq_abs (b - a)]
    exact pow_le_pow_left₀ (abs_nonneg _) hdistance 2
  have hmiddle : 4 * ((a - x) * (x - b)) = (b - a) ^ 2 - (2 * x - a - b) ^ 2 := by ring
  have hnonneg : 0 ≤ (2 * x - a - b) ^ 2 := sq_nonneg _
  have hpow : (2 ^ (n + 1) - 2 : ℤ) ^ 2 = 2 * 2 ^ (2 * n + 1) - 4 * (2 * 2 ^ n - 1) := by ring
  have hpos : (1 : ℤ) ≤ 2 ^ n := one_le_pow₀ (by decide)
  have hpos' : (0 : ℤ) < 2 ^ (2 * n + 1) := by positivity
  linarith

end

/-! ## Integers within the bound -/

/-- Bounds in order and a secret, all of them within the bound on the bits. -/
structure Within (o : Options) (a b x : ℤ) : Prop where
  lower : HasBits o.valueBits a
  upper : HasBits o.valueBits b
  secret : HasBits o.valueBits x
  le : a ≤ b

/-- The circuit succeeds and its verdict is the comparison of the integers. -/
def Compares (o : Options) (a b x : ℤ) : Prop :=
  ∃ C, outcome (circuit o (.integer x) (.integer a) (.integer b)) = .ok C ∧
    (C.satisfied = true ↔ a ≤ x ∧ x ≤ b)

section

variable {o : Options} {a b x : ℤ}

/-- No product of gaps comes near half the order. -/
theorem two_mul_pow_lt_order (o : Options) : (2 : ℤ) * 2 ^ (2 * o.valueBits + 2) < order := by
  have hpow : (2 : ℤ) ^ (2 * o.valueBits + 2) ≤ 2 ^ 248 :=
    pow_le_pow_right₀ (by decide) o.fits
  have horder : (2 : ℤ) ^ 252 < order := by exact_mod_cast Scalar.two_pow_lt_order
  linarith

/-- A number within the bound is the integer of its scalar. -/
theorem toInt_ofInt {k : ℤ} (h : HasBits o.valueBits k) : (Scalar.ofInt k).toInt = k := by
  obtain ⟨hlo, hhi⟩ := abs_lt.mp ((hasBits_iff _ k).mp h)
  have hpow : (2 : ℤ) ^ o.valueBits ≤ 2 ^ (2 * o.valueBits + 2) :=
    pow_le_pow_right₀ (by decide) (by omega)
  have horder := two_mul_pow_lt_order o
  exact Scalar.toInt_intCast (by linarith) (by linarith)

theorem integerProduct_ofInt (h : Within o a b x) :
    integerProduct (.ofInt a) (.ofInt b) (.ofInt x) = (a - x) * (x - b) := by
  rw [integerProduct, toInt_ofInt h.lower, toInt_ofInt h.upper, toInt_ofInt h.secret]

/-- The product of the gaps does not wrap around the order, whether it fits or not. -/
theorem toInt_product_ofInt (h : Within o a b x) :
    (product (.ofInt a) (.ofInt b) (.ofInt x)).toInt = (a - x) * (x - b) := by
  have hlo := neg_sq_le_gaps h.lower h.upper h.secret
  have hhi := gaps_lt (x := x) h.lower h.upper
  have horder := two_mul_pow_lt_order o
  have hsquare : (2 ^ (o.valueBits + 1) - 2 : ℤ) ^ 2 =
      2 ^ (2 * o.valueBits + 2) - 4 * (2 * 2 ^ o.valueBits - 1) := by ring
  have hpow : (2 : ℤ) ^ (2 * o.valueBits + 2) = 2 * 2 ^ (2 * o.valueBits + 1) := by ring
  have hpos : (1 : ℤ) ≤ 2 ^ o.valueBits := one_le_pow₀ (by decide)
  have hpos' : (0 : ℤ) < 2 ^ (2 * o.valueBits + 1) := by positivity
  rw [product_eq, integerProduct_ofInt h]
  exact Scalar.toInt_intCast (by linarith) (by linarith)

/-- The width can only be too small downwards. -/
theorem fits_gaps_iff (h : Within o a b x) :
    Fits o.width ((a - x) * (x - b)) ↔ -2 ^ (o.width - 1) ≤ (a - x) * (x - b) :=
  and_iff_left (gaps_lt h.lower h.upper)

theorem toInt_le (h : Within o a b x) : (Scalar.ofInt a).toInt ≤ (Scalar.ofInt b).toInt := by
  rw [toInt_ofInt h.lower, toInt_ofInt h.upper]
  exact h.le

/-- The product is at least zero exactly inside the range. -/
theorem gaps_nonneg_iff (h : Within o a b x) : 0 ≤ (a - x) * (x - b) ↔ a ≤ x ∧ x ≤ b := by
  have hiff : 0 ≤ integerProduct (.ofInt a) (.ofInt b) (.ofInt x) ↔
      (Scalar.ofInt a).toInt ≤ (Scalar.ofInt x).toInt ∧
        (Scalar.ofInt x).toInt ≤ (Scalar.ofInt b).toInt := integerProduct_nonneg_iff (toInt_le h)
  rw [integerProduct_ofInt h, toInt_ofInt h.lower, toInt_ofInt h.upper,
    toInt_ofInt h.secret] at hiff
  exact hiff

theorem compares_of_fits (h : Within o a b x)
    (hfits : o.strict = true → -2 ^ (o.width - 1) ≤ (a - x) * (x - b)) : Compares o a b x := by
  have hproduct := toInt_product_ofInt h
  have hpasses : o.strict = true →
      Fits o.width (product (.ofInt a) (.ofInt b) (.ofInt x)).toInt := by
    intro hstrict
    rw [hproduct]
    exact (fits_gaps_iff h).mpr (hfits hstrict)
  obtain ⟨C, hC, -, -, -, hsatisfied⟩ := outcome_of_fits o (v := .integer x) (a := .integer a)
    (b := .integer b) rfl rfl (toInt_le h) rfl hpasses
  refine ⟨C, hC, ?_⟩
  rw [hsatisfied, hproduct, window_iff, fits_gaps_iff h, gaps_nonneg_iff h, and_iff_right_iff_imp]
  -- Inside the range the product is not negative, so it fits without being checked.
  intro hinside
  have hnonneg := (gaps_nonneg_iff h).mpr hinside
  have hpos : (0 : ℤ) < 2 ^ (o.width - 1) := by positivity
  linarith

theorem refused_of_not_fits (h : Within o a b x) (hstrict : o.strict = true)
    (hbelow : (a - x) * (x - b) < -2 ^ (o.width - 1)) :
    ∃ k, outcome (circuit o (.integer x) (.integer a) (.integer b)) =
      .error (.tooWide k o.width) := by
  have hnot : ¬Fits o.width (product (.ofInt a) (.ofInt b) (.ofInt x)).toInt := by
    rw [toInt_product_ofInt h, fits_gaps_iff h]
    exact not_le.mpr hbelow
  exact ⟨_, outcome_of_not_fits o (v := .integer x) (a := .integer a) (b := .integer b) rfl rfl
    (toInt_le h) rfl hstrict hnot⟩

theorem compares_iff (h : Within o a b x) :
    Compares o a b x ↔ (o.strict = true → -2 ^ (o.width - 1) ≤ (a - x) * (x - b)) := by
  refine ⟨?_, compares_of_fits h⟩
  intro hcompares hstrict
  by_contra hbelow
  obtain ⟨k, hrefused⟩ := refused_of_not_fits h hstrict (not_le.mp hbelow)
  obtain ⟨C, hC, -⟩ := hcompares
  rw [hrefused] at hC
  cases hC

end

/-! ## How far the promise is kept -/

/-- The greatest number within the bound. -/
def greatest (o : Options) : ℤ := 2 ^ o.valueBits - 1

theorem within_greatest (o : Options) : Within o (greatest o) (greatest o) (-greatest o) := by
  have hpos : (1 : ℤ) ≤ 2 ^ o.valueBits := one_le_pow₀ (by decide)
  have hbits : HasBits o.valueBits (greatest o) := by
    rw [hasBits_iff, greatest, abs_of_nonneg (by linarith)]
    linarith
  have hbits' : HasBits o.valueBits (-greatest o) := by
    rw [hasBits_iff, abs_neg, ← hasBits_iff]
    exact hbits
  exact ⟨hbits, hbits, hbits', le_refl _⟩

/-- Both gaps have full length, so the product needs more than the width from two bits on. -/
theorem gaps_greatest_lt (o : Options) (htwo : 2 ≤ o.valueBits) :
    (greatest o - -greatest o) * (-greatest o - greatest o) < -2 ^ (o.width - 1) := by
  have hfour : (2 : ℤ) ^ 2 ≤ 2 ^ o.valueBits := pow_le_pow_right₀ (by decide) htwo
  have hpow : (2 : ℤ) ^ (o.width - 1) = 2 * (2 ^ o.valueBits * 2 ^ o.valueBits) := by
    show (2 : ℤ) ^ (2 * o.valueBits + 1) = _
    ring
  unfold greatest
  rw [hpow]
  nlinarith

/-- With a single bit the gaps are at most two. -/
theorem neg_two_pow_le_gaps {o : Options} {a b x : ℤ} (h : Within o a b x)
    (hone : o.valueBits = 1) : -2 ^ (o.width - 1) ≤ (a - x) * (x - b) := by
  have hbound := neg_sq_le_gaps h.lower h.upper h.secret
  rw [hone] at hbound
  rw [Options.width, hone]
  norm_num at hbound ⊢
  linarith

theorem compares_all_iff (o : Options) :
    (∀ a b x, Within o a b x → Compares o a b x) ↔ (o.strict = true → o.valueBits = 1) := by
  constructor
  · intro hall hstrict
    have hpositive := o.positive
    by_contra hne
    have hfits := (compares_iff (within_greatest o)).mp (hall _ _ _ (within_greatest o)) hstrict
    have hbelow := gaps_greatest_lt o (by omega)
    omega
  · intro hone a b x h
    exact compares_of_fits h fun hstrict => neg_two_pow_le_gaps h (hone hstrict)

/-- For integers within the bound on the bits, a circuit compares the integers unless the product of
the gaps is checked and is below what the pattern holds; it then refuses the secret, which is not in
the range. So the bound keeps its promise only without the check or for a single bit. -/
theorem compares_iff_product_fits (o : Options) :
    (∀ a b x, Within o a b x →
      (Compares o a b x ↔ (o.strict = true → -2 ^ (o.width - 1) ≤ (a - x) * (x - b))) ∧
      (¬Compares o a b x → ∃ k, outcome (circuit o (.integer x) (.integer a) (.integer b)) =
        .error (.tooWide k o.width)) ∧
      (a ≤ x → x ≤ b → Compares o a b x)) ∧
    ((∀ a b x, Within o a b x → Compares o a b x) ↔ (o.strict = true → o.valueBits = 1)) := by
  refine ⟨?_, compares_all_iff o⟩
  intro a b x h
  refine ⟨compares_iff h, ?_, ?_⟩
  · intro hnot
    rw [compares_iff h, Classical.not_imp, not_le] at hnot
    obtain ⟨hstrict, hbelow⟩ := hnot
    exact refused_of_not_fits h hstrict hbelow
  · intro hlow hhigh
    have hnonneg := (gaps_nonneg_iff h).mpr ⟨hlow, hhigh⟩
    have hpos : (0 : ℤ) < 2 ^ (o.width - 1) := by positivity
    exact compares_of_fits h fun _ => by linarith

/-- With two bits, minus three is refused as a secret for the range from three to three. -/
theorem compares_iff_product_fits_two_bits :
    let o : Options := ⟨2, .linear, true, by decide, by decide⟩
    Within o 3 3 (-3) ∧ ¬Compares o 3 3 (-3) ∧
      ∃ k, outcome (circuit o (.integer (-3)) (.integer 3) (.integer 3)) =
        .error (.tooWide k 6) := by
  intro o
  have hwithin : Within o 3 3 (-3) := ⟨by decide, by decide, by decide, by decide⟩
  obtain ⟨hiff, hrefused, -⟩ := (compares_iff_product_fits o).1 3 3 (-3) hwithin
  have hnot : ¬Compares o 3 3 (-3) := by
    rw [hiff]
    decide
  exact ⟨hwithin, hnot, hrefused hnot⟩

end RankOne.Range
