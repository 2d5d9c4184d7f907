import RankOne.Proofs.Scalar.Field

/-!
# The representative nearest to zero

`toInt` is the only integer within half the order of zero that stands for a scalar. An integer
expression in the representatives is therefore the representative of the same expression in the
scalars as long as its value stays that small.
-/

namespace RankOne.Scalar

theorem intCast_natCast (n : ℕ) : ((n : ℤ) : Scalar) = (n : Scalar) := Int.cast_natCast n

theorem order_odd : order % 2 = 1 := by decide

theorem two_pow_lt_order : 2 ^ 252 < order := by decide

/-- Two integers stand for the same scalar when they differ by a multiple of the order. -/
theorem intCast_eq_iff (m n : ℤ) : (m : Scalar) = n ↔ (order : ℤ) ∣ n - m := by
  constructor
  · intro h
    have hz := congrArg toZMod h
    rw [intCast_def, intCast_def, toZMod_ofInt, toZMod_ofInt] at hz
    exact (ZMod.intCast_eq_intCast_iff_dvd_sub m n order).mp hz
  · intro h
    have hz := (ZMod.intCast_eq_intCast_iff_dvd_sub m n order).mpr h
    apply toZMod_injective
    rw [intCast_def, intCast_def, toZMod_ofInt, toZMod_ofInt]
    exact hz

/-- The representative is the least non-negative one, or that one less the order. -/
theorem toInt_cases (a : Scalar) :
    a.toInt = a.val ∧ 2 * a.val < order ∨ a.toInt = a.val - order ∧ order < 2 * a.val := by
  have hodd := order_odd
  unfold toInt centred
  split
  · rename_i h
    exact Or.inr ⟨rfl, by omega⟩
  · rename_i h
    exact Or.inl ⟨rfl, by omega⟩

theorem intCast_toInt (a : Scalar) : (a.toInt : Scalar) = a := by
  rcases toInt_cases a with ⟨h, _⟩ | ⟨h, _⟩
  · rw [h, intCast_natCast, natCast_val]
  · rw [h, Int.cast_sub, intCast_natCast, intCast_natCast, natCast_val, order_eq_zero, sub_zero]

theorem neg_order_lt_toInt (a : Scalar) : -(order : ℤ) < 2 * a.toInt := by
  rcases toInt_cases a with ⟨h, _⟩ | ⟨h, hlt⟩ <;> have hv := a.isLt <;> omega

theorem toInt_lt_order (a : Scalar) : 2 * a.toInt < order := by
  rcases toInt_cases a with ⟨h, _⟩ | ⟨h, hlt⟩ <;> have hv := a.isLt <;> omega

/-- No other integer within half the order of zero stands for the same scalar. -/
theorem toInt_intCast {n : ℤ} (hlo : -(order : ℤ) < 2 * n) (hhi : 2 * n < order) :
    (n : Scalar).toInt = n := by
  have hcast := intCast_toInt (n : Scalar)
  have h₁ := neg_order_lt_toInt (n : Scalar)
  have h₂ := toInt_lt_order (n : Scalar)
  have hdvd := (intCast_eq_iff _ _).mp hcast
  have hzero := Int.eq_zero_of_abs_lt_dvd hdvd (by rw [abs_lt]; omega)
  omega

theorem toInt_injective : Function.Injective toInt := by
  intro a b h
  rw [← intCast_toInt a, ← intCast_toInt b, h]

/-- A scalar is small and not negative when its least non-negative representative is small. -/
theorem toInt_lt_iff (a : Scalar) {m : ℕ} (hm : 2 * m ≤ order + 1) :
    0 ≤ a.toInt ∧ a.toInt < m ↔ a.val < m := by
  have hv := a.isLt
  rcases toInt_cases a with ⟨h, _⟩ | ⟨h, hlt⟩ <;> omega

/-- The least non-negative representative of an integer is its remainder. -/
theorem val_intCast (n : ℤ) : ((n : Scalar).val : ℤ) = n % order := by
  have hpos : (0 : ℤ) < order := by have h := order_pos; omega
  have hnonneg : (0 : ℤ) ≤ n % order := Int.emod_nonneg n hpos.ne'
  have hlt : n % order < order := Int.emod_lt_of_pos n hpos
  have hval : (n : Scalar).val = (n % order).toNat % order := rfl
  rw [hval, Nat.mod_eq_of_lt (by omega), Int.toNat_of_nonneg hnonneg]

end RankOne.Scalar
