import RankOne.Value
import RankOne.Proofs.Scalar.Encoding
import Mathlib.Data.Nat.Digits.Defs

/-!
# The written form and the nearest integer

Outside the arithmetic a scalar stands as 32 bytes or as an integer. The bytes are the digits of its
least non-negative representative to base 256, least significant first. The integer is the only
one of its class in `(-order/2, order/2]`. From either form the scalar is read back.

The two readings treat what lies outside differently. Bytes are never reduced: they are read if and
only if they are the written form of a scalar, and numbers from the order on are refused although
they have a residue. Integers are always reduced, and one outside the interval comes back as the
other integer of its class that lies inside.
-/

namespace RankOne

theorem bytesValue_eq_ofDigits (data : Bytes) :
    bytesValue data = Nat.ofDigits 256 (data.map UInt8.toNat) := by
  induction data with
  | nil => rfl
  | cons b bs ih => rw [bytesValue, ih, List.map_cons, Nat.ofDigits_cons]

/-- An element of the field is written as it is handed in. -/
theorem Value.encode_ofScalar (a : Scalar) : (Value.ofScalar a).encode = .ok a.encode := by
  have hfits : a.val < 1 <<< (8 * Scalar.size) := a.isLt.trans (by decide)
  have hinteger : encodeInteger a.val = .ok a.encode := by
    rw [encodeInteger, if_neg (by omega), Int.toNat_natCast, if_pos hfits]
    rfl
  show (encodeInteger a.val).mapError Fault.integer = .ok a.encode
  rw [hinteger]
  rfl

namespace Scalar

/-! ## Bytes -/

/-- Which bytes are read and why the others are not. What is read is written as the same bytes, so
no others are read as the same scalar. -/
structure ReadCanonically (data : Bytes) : Prop where
  accepted_iff : (∃ a, decode data = .ok a) ↔
    data.length = 32 ∧ Nat.ofDigits 256 (data.map UInt8.toNat) < order
  length_refused : data.length ≠ 32 → decode data = .error (.length data.length)
  number_refused : data.length = 32 → order ≤ Nat.ofDigits 256 (data.map UInt8.toNat) →
    decode data = .error .nonCanonical
  rewritten : ∀ a, decode data = .ok a → (Value.ofScalar a).encode = .ok data
  unique : ∀ a other, decode data = .ok a → decode other = .ok a → other = data

theorem readCanonically (data : Bytes) : ReadCanonically data := by
  have hvalue := bytesValue_eq_ofDigits data
  constructor
  case accepted_iff =>
    rw [← hvalue]
    constructor
    · rintro ⟨a, ha⟩
      exact written_of_decode ha
    · intro hwritten
      exact ⟨ofBytes data, decode_of_written hwritten⟩
  case length_refused =>
    intro (hlen : data.length ≠ size)
    rw [decode, if_neg hlen]
  case number_refused =>
    intro (hlen : data.length = size) hlarge
    rw [decode, if_pos hlen, dif_neg (by omega)]
  case rewritten =>
    intro a ha
    rw [Value.encode_ofScalar, encode_of_decode ha]
  case unique =>
    intro a other ha hother
    rw [← encode_of_decode ha, encode_of_decode hother]

/-! ## Integers -/

/-- Reduction keeps the integers of the interval and no others. The order is odd, so twice an
integer is never equal to it. -/
theorem toInt_intCast_iff (n : ℤ) :
    (n : Scalar).toInt = n ↔ -(order : ℤ) < 2 * n ∧ 2 * n ≤ order := by
  have hodd := order_odd
  constructor
  · intro h
    have hlo := neg_order_lt_toInt (n : Scalar)
    have hhi := toInt_lt_order (n : Scalar)
    rw [h] at hlo hhi
    exact ⟨hlo, hhi.le⟩
  · rintro ⟨hlo, hhi⟩
    exact toInt_intCast hlo (by omega)

/-! ## Both forms -/

/-- What a scalar is written as and which integer it stands for, and that both are read back. -/
structure RoundTrips (a : Scalar) : Prop where
  written : (Value.ofScalar a).encode = .ok a.encode
  length_eq : a.encode.length = 32
  digits : Nat.ofDigits 256 (a.encode.map UInt8.toNat) = a.val
  decoded : decode a.encode = .ok a
  nearest : (Value.ofScalar a).nearest = .ok a.toInt
  above : -(order : ℤ) < 2 * a.toInt
  below : 2 * a.toInt ≤ order
  reduced : (Value.integer a.toInt).scalar = .ok a

theorem roundTrips (a : Scalar) : a.RoundTrips := by
  constructor
  case written => exact Value.encode_ofScalar a
  case length_eq => exact length_encode a
  case digits => rw [← bytesValue_eq_ofDigits, bytesValue_encode]
  case decoded => exact decode_encode a
  case nearest => rfl
  case above => exact neg_order_lt_toInt a
  case below => exact (toInt_lt_order a).le
  case reduced => exact congrArg Except.ok (intCast_toInt a)

/-- Every scalar has one written form and one nearest integer and comes back from both. The bytes
that are read are the written forms, and the integers that come back are those of the interval. -/
theorem forms_canonical :
    (∀ a : Scalar, a.RoundTrips) ∧ (∀ data : Bytes, ReadCanonically data) ∧
      ∀ n : ℤ, ((Value.integer n).scalar >>= fun a => (Value.ofScalar a).nearest) = .ok n ↔
        -(order : ℤ) < 2 * n ∧ 2 * n ≤ order := by
  refine ⟨roundTrips, readCanonically, ?_⟩
  intro n
  have hreduced : ((Value.integer n).scalar >>= fun a => (Value.ofScalar a).nearest) =
      .ok (n : Scalar).toInt := rfl
  rw [hreduced, Except.ok.injEq]
  exact toInt_intCast_iff n

/-- The midpoint is the last integer that comes back, and the order is the first number whose 32
bytes are refused. -/
theorem forms_canonical_boundary :
    ((Value.integer (order / 2)).scalar >>= fun a => (Value.ofScalar a).nearest) =
        .ok (order / 2) ∧
      ((Value.integer (order / 2 + 1)).scalar >>= fun a => (Value.ofScalar a).nearest) ≠
        .ok (order / 2 + 1) ∧
      decode (lowBytes 32 (order - 1)) = .ok (-1) ∧
      decode (lowBytes 32 order) = .error .nonCanonical ∧
      decode (lowBytes 31 0) = .error (.length 31) := by
  obtain ⟨hscalars, hbytes, hintegers⟩ := forms_canonical
  have hodd := order_odd
  have horder : Nat.ofDigits 256 ((lowBytes 32 order).map UInt8.toNat) = order := by
    rw [← bytesValue_eq_ofDigits, bytesValue_lowBytes]
    exact Nat.mod_eq_of_lt (by decide)
  refine ⟨(hintegers _).mpr (by omega), ?_, (hscalars (-1)).decoded,
    (hbytes _).number_refused (length_lowBytes 32 order) horder.ge,
    (hbytes _).length_refused (by decide)⟩
  intro hkept
  have hinside := (hintegers _).mp hkept
  omega

end Scalar

end RankOne
