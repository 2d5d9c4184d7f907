import RankOne.Scalar.Basic

/-!
# Byte encoding of scalars

A scalar is written as 32 bytes, least significant byte first. Writing is total; reading accepts
exactly what writing produces, so a scalar has one written form. `encodeInteger` is the same
layout for integers that are not reduced first, which may not fit.
-/

namespace RankOne

abbrev Bytes := List UInt8

/-- The number of bytes in an encoded scalar. -/
def Scalar.size : Nat := 32

/-- The number whose digits to base 256 are the bytes, least significant first. -/
def bytesValue : Bytes → Nat
  | [] => 0
  | b :: bs => b.toNat + 256 * bytesValue bs

/-- The lowest `k` digits of `n` to base 256, least significant first. -/
def lowBytes : Nat → Nat → Bytes
  | 0, _ => []
  | k + 1, n => UInt8.ofNat (n % 256) :: lowBytes k (n / 256)

/-- Why bytes are not the encoding of a scalar. -/
inductive EncodingFault where
  | length (got : Nat)
  | nonCanonical
deriving DecidableEq

/-- Why an integer has no 32-byte form. -/
inductive IntegerFault where
  | negative
  | tooBig
deriving DecidableEq

def encodeInteger (n : Int) : Except IntegerFault Bytes :=
  if n < 0 then .error .negative
  else if n.toNat < 1 <<< (8 * Scalar.size) then .ok (lowBytes Scalar.size n.toNat)
  else .error .tooBig

/-- Whether the most significant byte of an encoding is non-zero. -/
def topByteSet (data : Bytes) : Bool := data.getLast?.any (· ≠ 0)

namespace Scalar

def encode (a : Scalar) : Bytes := lowBytes size a.val

/-- Reads an encoding; any other length and any value from `order` on is refused. -/
def decode (data : Bytes) : Except EncodingFault Scalar :=
  if data.length = size then
    if h : bytesValue data < order then .ok ⟨bytesValue data, h⟩ else .error .nonCanonical
  else .error (.length data.length)

/-- Small integers leave the top byte of their encoding empty and the negatives of small
integers do not, so the top byte tells the sign of a scalar that is small either way. -/
def negative (a : Scalar) : Bool := topByteSet a.encode

end Scalar

theorem length_lowBytes (k n : Nat) : (lowBytes k n).length = k := by
  induction k generalizing n with
  | zero => rfl
  | succ k ih => simp [lowBytes, ih]

end RankOne
