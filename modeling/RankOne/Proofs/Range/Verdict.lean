import RankOne.Proofs.Range.Outcome

/-!
# What a satisfied range statement means

For every vector of values the rows decide exactly whether the product of the gaps, as a scalar,
lies in the window. Over the integers this is the question whether the secret lies between the
bounds as long as the product of the integers fits the width. A product that does not fit can wrap
around the order into the window.
-/

namespace RankOne.Range

variable (o : Options) {v a b : Value} {low high secret : Scalar}

/-- The system of a range circuit is fixed by the bounds. The vectors that satisfy it are the
witnesses that the circuit computes for the secrets whose product lies in the window, and they are
determined by the entry for the secret. -/
theorem satisfying_vectors (ha : a.scalar = .ok low) (hb : b.scalar = .ok high)
    (hle : low.toInt ≤ high.toInt) :
    ∃ (I : Shape) (i : ℕ), (∃ v C, outcome (circuit o v a b) = .ok C) ∧
      (∀ v C, outcome (circuit o v a b) = .ok C → C.accepted = I ∧ C.indexOf secretVar = .ok i) ∧
      I.SolvedBy i (fun s => Window o (product low high s).toInt)
        fun s => circuit (lenient o) (.ofScalar s) a b := by
  let T := statement o low high
  refine ⟨shapeOf T.gates, T.names.position secretVar, ?_, ?_, ?_⟩
  · have hzero : (product low high low).toInt = 0 := by
      rw [product, sub_self, zero_mul]
      rfl
    have hfits : Fits o.width (product low high low).toInt := by
      rw [hzero]
      exact ((window_iff o 0).mp ⟨le_rfl, by positivity⟩).1
    obtain ⟨C, hC, -⟩ := outcome_of_fits o ha hb hle (Value.scalar_ofScalar low) fun _ => hfits
    exact ⟨_, C, hC⟩
  · intro v C hC
    obtain ⟨s, hv, hfits⟩ := secret_of_outcome o ha hb hle hC
    exact T.accepted_of_adds (adds_circuit o ha hb hle hv hfits) hC
  · exact T.solvedBy fun s => adds_lenient o ha hb hle (Value.scalar_ofScalar s)

theorem satisfying_vectors_two_five :
    (Value.integer 2).scalar = .ok 2 ∧ (Value.integer 5).scalar = .ok 5 ∧
      (2 : Scalar).toInt ≤ (5 : Scalar).toInt ∧
      ∃ (I : Shape) (i : ℕ),
        (∃ v C, outcome (circuit .standard v (.integer 2) (.integer 5)) = .ok C) ∧
        (∀ v C, outcome (circuit .standard v (.integer 2) (.integer 5)) = .ok C →
          C.accepted = I ∧ C.indexOf secretVar = .ok i) ∧
        I.SolvedBy i (fun s => Window .standard (product 2 5 s).toInt)
          fun s => circuit (lenient .standard) (.ofScalar s) (.integer 2) (.integer 5) :=
  ⟨rfl, rfl, by decide, satisfying_vectors .standard rfl rfl (by decide)⟩

/-! ## Integers -/

/-- The product of the gaps as integers. -/
def integerProduct (low high secret : Scalar) : ℤ :=
  (low.toInt - secret.toInt) * (secret.toInt - high.toInt)

theorem product_eq (low high secret : Scalar) :
    product low high secret = (integerProduct low high secret : ℤ) := by
  unfold product integerProduct
  push_cast
  rw [Scalar.intCast_toInt, Scalar.intCast_toInt, Scalar.intCast_toInt]

/-- Between bounds that are in order, both gaps are at most zero; elsewhere one of them is above
zero and the other one below. -/
theorem integerProduct_nonneg_iff (hle : low.toInt ≤ high.toInt) :
    0 ≤ integerProduct low high secret ↔
      low.toInt ≤ secret.toInt ∧ secret.toInt ≤ high.toInt := by
  unfold integerProduct
  rcases lt_or_ge secret.toInt low.toInt with hbelow | hlow
  · have hneg : (low.toInt - secret.toInt) * (secret.toInt - high.toInt) < 0 :=
      mul_neg_of_pos_of_neg (by omega) (by omega)
    constructor <;> intro h <;> omega
  rcases lt_or_ge high.toInt secret.toInt with habove | hhigh
  · have hneg : (low.toInt - secret.toInt) * (secret.toInt - high.toInt) < 0 :=
      mul_neg_of_neg_of_pos (by omega) (by omega)
    constructor <;> intro h <;> omega
  · have hnonneg : 0 ≤ (low.toInt - secret.toInt) * (secret.toInt - high.toInt) :=
      mul_nonneg_of_nonpos_of_nonpos (by omega) (by omega)
    exact iff_of_true hnonneg ⟨hlow, hhigh⟩

theorem two_pow_lt_order (o : Options) : (2 : ℤ) * 2 ^ (o.width - 1) < order := by
  have hpow : (2 : ℤ) ^ (o.width - 1) ≤ 2 ^ 247 := two_pow_le_maxWidth o.fits
  have horder : (2 : ℤ) ^ 252 < order := by exact_mod_cast Scalar.two_pow_lt_order
  linarith

/-- A product that fits as an integer is the integer of the product. -/
theorem toInt_product (hfits : Fits o.width (integerProduct low high secret)) :
    (product low high secret).toInt = integerProduct low high secret := by
  have hpow := two_pow_lt_order o
  obtain ⟨hlo, hhi⟩ := hfits
  rw [product_eq]
  apply Scalar.toInt_intCast <;> omega

/-- The window in terms of the product of the integers: what counts is its remainder. -/
theorem window_product_iff :
    Window o (product low high secret).toInt ↔
      integerProduct low high secret % order < 2 ^ (o.width - 1) := by
  have hpow := two_pow_lt_order o
  have hsmall : 2 * 2 ^ (o.width - 1) ≤ order + 1 := by
    have h : ((2 * 2 ^ (o.width - 1) : ℕ) : ℤ) < (order : ℕ) := by push_cast; exact hpow
    omega
  have hiff := Scalar.toInt_lt_iff (product low high secret) hsmall
  have hval := Scalar.val_intCast (integerProduct low high secret)
  rw [← product_eq] at hval
  unfold Window
  rw [← hval]
  push_cast at hiff
  rw [hiff]
  exact_mod_cast Iff.rfl

/-- When the product of the integers fits the width, a range circuit succeeds and its verdict is
the comparison of the integers. -/
theorem satisfied_iff_between (hv : v.scalar = .ok secret) (ha : a.scalar = .ok low)
    (hb : b.scalar = .ok high) (hle : low.toInt ≤ high.toInt)
    (hfits : Fits o.width (integerProduct low high secret)) :
    ∃ C, outcome (circuit o v a b) = .ok C ∧
      (C.satisfied = true ↔ low.toInt ≤ secret.toInt ∧ secret.toInt ≤ high.toInt) := by
  have htoInt := toInt_product o hfits
  have hfits' : Fits o.width (product low high secret).toInt := by
    rw [htoInt]
    exact hfits
  obtain ⟨C, hC, -, -, -, hsatisfied⟩ := outcome_of_fits o ha hb hle hv fun _ => hfits'
  refine ⟨C, hC, ?_⟩
  rw [hsatisfied, htoInt, window_iff, ← integerProduct_nonneg_iff hle]
  exact and_iff_right hfits

theorem satisfied_three_between_two_five :
    ∃ C, outcome (circuit .standard (.integer 3) (.integer 2) (.integer 5)) = .ok C ∧
      C.satisfied = true := by
  have hthree : (Value.integer 3).scalar = .ok 3 := rfl
  have htwo : (Value.integer 2).scalar = .ok 2 := rfl
  have hfive : (Value.integer 5).scalar = .ok 5 := rfl
  have hfits : Fits Options.standard.width (integerProduct 2 5 3) := by decide
  obtain ⟨C, hC, hsatisfied⟩ :=
    satisfied_iff_between .standard hthree htwo hfive (by decide) hfits
  exact ⟨C, hC, hsatisfied.mpr (by decide)⟩

/-- A range circuit gives a satisfied system when the remainder of the product of the integers is
below the bound of the window, and only then. -/
theorem satisfied_iff_remainder (hv : v.scalar = .ok secret) (ha : a.scalar = .ok low)
    (hb : b.scalar = .ok high) :
    (∃ C, outcome (circuit o v a b) = .ok C ∧ C.satisfied = true) ↔
      low.toInt ≤ high.toInt ∧ integerProduct low high secret % order < 2 ^ (o.width - 1) := by
  rw [← window_product_iff]
  rcases lt_or_ge high.toInt low.toInt with hgt | hle
  · have hrefused := outcome_of_bounds_refused o v (readBounds_of_reversed ha hb hgt)
    rw [hrefused]
    constructor
    · intro h
      obtain ⟨C, hC, -⟩ := h
      cases hC
    · intro h
      obtain ⟨hle, -⟩ := h
      exact absurd hle (not_le.mpr hgt)
  -- A product that a strict unpacking refuses is outside the window in any case.
  by_cases hfits : o.strict = true → Fits o.width (product low high secret).toInt
  · obtain ⟨C, hC, -, -, -, hsatisfied⟩ := outcome_of_fits o ha hb hle hv hfits
    constructor
    · intro h
      obtain ⟨C', hC', hsatisfied'⟩ := h
      obtain rfl : C = C' := Except.ok.inj (hC.symm.trans hC')
      exact ⟨hle, hsatisfied.mp hsatisfied'⟩
    · intro h
      obtain ⟨-, hwindow⟩ := h
      exact ⟨C, hC, hsatisfied.mpr hwindow⟩
  · obtain ⟨hstrict, hnot⟩ := Classical.not_imp.mp hfits
    rw [outcome_of_not_fits o ha hb hle hv hstrict hnot]
    constructor
    · intro h
      obtain ⟨C, hC, -⟩ := h
      cases hC
    · intro h
      obtain ⟨-, hwindow⟩ := h
      exact absurd ((window_iff o _).mp hwindow).1 hnot

/-- A secret outside the range gets a satisfied system exactly when the product of the integers
wraps around the order into the window. -/
theorem forged_iff (hv : v.scalar = .ok secret) (ha : a.scalar = .ok low)
    (hb : b.scalar = .ok high) :
    (∃ C, outcome (circuit o v a b) = .ok C ∧ C.satisfied = true ∧
        ¬(low.toInt ≤ secret.toInt ∧ secret.toInt ≤ high.toInt)) ↔
      low.toInt ≤ high.toInt ∧ integerProduct low high secret < 0 ∧
        integerProduct low high secret % order < 2 ^ (o.width - 1) := by
  have hsatisfied := satisfied_iff_remainder o hv ha hb
  constructor
  · intro h
    obtain ⟨C, hC, hverdict, hout⟩ := h
    obtain ⟨hle, hremainder⟩ := hsatisfied.mp ⟨C, hC, hverdict⟩
    rw [← integerProduct_nonneg_iff hle, not_le] at hout
    exact ⟨hle, hout, hremainder⟩
  · intro h
    obtain ⟨hle, hneg, hremainder⟩ := h
    obtain ⟨C, hC, hverdict⟩ := hsatisfied.mpr ⟨hle, hremainder⟩
    refine ⟨C, hC, hverdict, ?_⟩
    rw [← integerProduct_nonneg_iff hle]
    exact not_le.mpr hneg

/-- A square root of minus one. -/
def rootOfMinusOne : ℤ :=
  3034649101460298094273452163494570791663566989388331537498831373842135895065

/-- The gaps between it and zero have the product one, so it passes as equal to zero. -/
theorem forged_rootOfMinusOne :
    ∃ C, outcome (circuit .standard (.integer rootOfMinusOne) (.integer 0) (.integer 0)) = .ok C ∧
      C.satisfied = true ∧
      ¬((0 : Scalar).toInt ≤ (Scalar.ofInt rootOfMinusOne).toInt ∧
        (Scalar.ofInt rootOfMinusOne).toInt ≤ (0 : Scalar).toInt) :=
  (forged_iff .standard (v := .integer rootOfMinusOne) (a := .integer 0) (b := .integer 0)
    rfl rfl rfl).mpr (by decide)

end RankOne.Range
