import RankOne.Proofs.Scalar.Prime
import Mathlib.Algebra.Ring.InjSurj
import Mathlib.Data.ZMod.Basic
import Mathlib.Tactic.Ring

/-!
# The ring of scalars

The scalars with their reduced operations are the integers modulo `order`, so they form a
commutative ring, and one without zero divisors because `order` is prime. Natural numbers and
integers are read as scalars by `ofNat` and `ofInt`.
-/

namespace RankOne.Scalar

def toZMod (a : Scalar) : ZMod order := (a.val : ZMod order)

theorem toZMod_injective : Function.Injective toZMod := by
  intro a b h
  have hmod := (ZMod.natCast_eq_natCast_iff' a.val b.val order).mp h
  rw [Nat.mod_eq_of_lt a.isLt, Nat.mod_eq_of_lt b.isLt] at hmod
  exact ext hmod

theorem toZMod_ofNat (n : ℕ) : (ofNat n).toZMod = n := by
  unfold toZMod
  rw [val_ofNat, ZMod.natCast_mod]

theorem toZMod_ofInt (n : ℤ) : (ofInt n).toZMod = n := by
  have hpos : (0 : ℤ) ≤ n % order := Int.emod_nonneg n (by have h := order_pos; omega)
  rw [ofInt, toZMod_ofNat, ← Int.cast_natCast, Int.toNat_of_nonneg hpos, ZMod.intCast_mod]

theorem toZMod_add (a b : Scalar) : (a + b).toZMod = a.toZMod + b.toZMod := by
  show (ofNat (a.val + b.val)).toZMod = _
  rw [toZMod_ofNat, Nat.cast_add]
  rfl

theorem toZMod_mul (a b : Scalar) : (a * b).toZMod = a.toZMod * b.toZMod := by
  show (ofNat (a.val * b.val)).toZMod = _
  rw [toZMod_ofNat, Nat.cast_mul]
  rfl

theorem toZMod_neg (a : Scalar) : (-a).toZMod = -a.toZMod := by
  show (ofNat (order - a.val)).toZMod = _
  rw [toZMod_ofNat, Nat.cast_sub a.isLt.le, ZMod.natCast_self, zero_sub]
  rfl

theorem toZMod_sub (a b : Scalar) : (a - b).toZMod = a.toZMod - b.toZMod := by
  show (ofNat (a.val + (order - b.val))).toZMod = _
  rw [toZMod_ofNat, Nat.cast_add, Nat.cast_sub b.isLt.le, ZMod.natCast_self, zero_sub,
    ← sub_eq_add_neg]
  rfl

instance : NatCast Scalar := ⟨ofNat⟩
instance : IntCast Scalar := ⟨ofInt⟩
instance : SMul ℕ Scalar := ⟨fun n a => ofNat n * a⟩
instance : SMul ℤ Scalar := ⟨fun n a => ofInt n * a⟩
instance : Pow Scalar ℕ := ⟨fun a n => npowRec n a⟩

theorem toZMod_nsmul (n : ℕ) (a : Scalar) : (n • a).toZMod = n • a.toZMod := by
  show (ofNat n * a).toZMod = _
  rw [toZMod_mul, toZMod_ofNat, nsmul_eq_mul]

theorem toZMod_zsmul (n : ℤ) (a : Scalar) : (n • a).toZMod = n • a.toZMod := by
  show (ofInt n * a).toZMod = _
  rw [toZMod_mul, toZMod_ofInt, zsmul_eq_mul]

theorem toZMod_pow (a : Scalar) (n : ℕ) : (a ^ n).toZMod = a.toZMod ^ n := by
  induction n with
  | zero => exact (toZMod_ofNat 1).trans (by rw [Nat.cast_one, pow_zero])
  | succ n ih =>
    have hstep : a ^ (n + 1) = a ^ n * a := rfl
    rw [hstep, toZMod_mul, ih, pow_succ]

instance : CommRing Scalar :=
  Function.Injective.commRing toZMod toZMod_injective
    ((toZMod_ofNat 0).trans Nat.cast_zero) ((toZMod_ofNat 1).trans Nat.cast_one)
    toZMod_add toZMod_mul toZMod_neg toZMod_sub toZMod_nsmul toZMod_zsmul toZMod_pow
    toZMod_ofNat toZMod_ofInt

instance : Nontrivial Scalar := ⟨0, 1, by decide⟩

instance : NoZeroDivisors Scalar := by
  constructor
  intro a b h
  have hz : a.toZMod * b.toZMod = 0 := by
    rw [← toZMod_mul, h]
    exact (toZMod_ofNat 0).trans Nat.cast_zero
  have hzero : toZMod 0 = 0 := (toZMod_ofNat 0).trans Nat.cast_zero
  rcases mul_eq_zero.mp hz with ha | hb
  · exact Or.inl (toZMod_injective (ha.trans hzero.symm))
  · exact Or.inr (toZMod_injective (hb.trans hzero.symm))

/-! ## Numbers as scalars -/

theorem natCast_def (n : ℕ) : (n : Scalar) = ofNat n := rfl

theorem intCast_def (n : ℤ) : (n : Scalar) = ofInt n := rfl

theorem natCast_val (a : Scalar) : (a.val : Scalar) = a := ofNat_val a

theorem order_eq_zero : (order : Scalar) = 0 := by
  apply ext
  exact Nat.mod_self order

theorem twoTo_eq (i : ℕ) : twoTo i = 2 ^ i := by
  have htwo : (2 : Scalar) = ((2 : ℕ) : Scalar) := rfl
  rw [htwo, ← Nat.cast_pow, natCast_def, twoTo, Nat.shiftLeft_eq, Nat.one_mul]

end RankOne.Scalar
