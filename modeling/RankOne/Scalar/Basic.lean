/-!
# The scalar field

Scalars are the residues modulo `order`. Every operation reduces its result, so two scalars are
equal exactly when their least non-negative representatives are. `toInt` gives the other usual
representative, the one nearest to zero. That `order` is prime is not used here: the arithmetic
is the arithmetic of a ring of residues.
-/

namespace RankOne

/-- The number of scalars: 27742317777372353535851937790883648493 more than the 252nd power of
two. -/
def order : Nat := (1 <<< 252) + 27742317777372353535851937790883648493

theorem order_pos : 0 < order := by decide

/-- A residue, given by its least non-negative representative. -/
structure Scalar where
  val : Nat
  isLt : val < order
deriving DecidableEq

/-- The representative nearest to zero of a number in `[0, order)`; any other number keeps its
place relative to the same midpoint. -/
def centred (n : Int) : Int :=
  if n > order / 2 then n - order else n

namespace Scalar

def ofNat (n : Nat) : Scalar := ⟨n % order, Nat.mod_lt n order_pos⟩

/-- The residue of an integer, negative ones included. -/
def ofInt (n : Int) : Scalar := ofNat (n % order).toNat

instance : Zero Scalar := ⟨ofNat 0⟩
instance : One Scalar := ⟨ofNat 1⟩
instance : Add Scalar := ⟨fun a b => ofNat (a.val + b.val)⟩
instance : Sub Scalar := ⟨fun a b => ofNat (a.val + (order - b.val))⟩
instance : Neg Scalar := ⟨fun a => ofNat (order - a.val)⟩
instance : Mul Scalar := ⟨fun a b => ofNat (a.val * b.val)⟩

/-- The integer in `(-order/2, order/2]` that a scalar stands for. -/
def toInt (a : Scalar) : Int := centred a.val

/-- Two to the power `i`, for powers whose digits can be written out. -/
def twoTo (i : Nat) : Scalar := ofNat (1 <<< i)

/-- Repeated squaring: the exponent may have hundreds of digits. -/
def power (a : Scalar) (n : Nat) : Scalar :=
  if n = 0 then 1
  else
    let rest := power (a * a) (n / 2)
    if n % 2 = 1 then a * rest else rest
termination_by n
decreasing_by omega

/-- The inverse of two: `order` is odd. -/
def half : Scalar := ofNat ((order + 1) / 2)

/-- Two to an integer power; a negative power is a power of the inverse of two. -/
def twoPower : Int → Scalar
  | .ofNat n => power (ofNat 2) n
  | .negSucc n => power half (n + 1)

@[ext] theorem ext {a b : Scalar} (h : a.val = b.val) : a = b := by
  cases a
  cases b
  cases h
  rfl

theorem val_ofNat (n : Nat) : (ofNat n).val = n % order := rfl

theorem ofNat_val (a : Scalar) : ofNat a.val = a := ext (Nat.mod_eq_of_lt a.isLt)

theorem two_mul_half : ofNat 2 * half = 1 := by decide

end Scalar

end RankOne
