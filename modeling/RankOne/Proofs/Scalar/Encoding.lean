import RankOne.Scalar.Encoding
import RankOne.Proofs.Scalar.Centred

/-!
# One written form for each scalar

Writing and reading digits to base 256 are inverse to each other on byte strings of one length and
the numbers that fit it. Reading an encoding therefore gives back the scalar that was written, and
whatever is read was written.
-/

namespace RankOne

theorem bytesValue_lowBytes (k n : ℕ) : bytesValue (lowBytes k n) = n % 256 ^ k := by
  induction k generalizing n with
  | zero => rw [pow_zero, Nat.mod_one]; rfl
  | succ k ih =>
    have hbyte : (UInt8.ofNat (n % 256)).toNat = n % 256 := by
      rw [UInt8.toNat_ofNat']
      omega
    rw [lowBytes, bytesValue, ih, hbyte, pow_succ, Nat.mul_comm (256 ^ k) 256, Nat.mod_mul]

theorem lowBytes_bytesValue (bs : Bytes) : lowBytes bs.length (bytesValue bs) = bs := by
  induction bs with
  | nil => rfl
  | cons b bs ih =>
    have hb := b.toNat_lt
    have hmod : (b.toNat + 256 * bytesValue bs) % 256 = b.toNat := by omega
    have hdiv : (b.toNat + 256 * bytesValue bs) / 256 = bytesValue bs := by omega
    rw [List.length_cons, bytesValue, lowBytes, hmod, hdiv, ih, UInt8.ofNat_toNat]

namespace Scalar

theorem length_encode (a : Scalar) : a.encode.length = size := length_lowBytes size a.val

theorem bytesValue_encode (a : Scalar) : bytesValue a.encode = a.val := by
  rw [encode, bytesValue_lowBytes]
  exact Nat.mod_eq_of_lt (a.isLt.trans (by decide))

theorem decode_encode (a : Scalar) : decode a.encode = .ok a := by
  have hlt : bytesValue a.encode < order := by
    rw [bytesValue_encode]
    exact a.isLt
  rw [decode, if_pos (length_encode a), dif_pos hlt]
  exact congrArg Except.ok (ext (bytesValue_encode a))

theorem encode_of_decode {data : Bytes} {a : Scalar} (h : decode data = .ok a) :
    a.encode = data := by
  unfold decode at h
  split at h
  · rename_i hlen
    split at h
    · have ha := Except.ok.inj h
      rw [← ha, encode, ← hlen]
      exact lowBytes_bytesValue data
    · cases h
  · cases h

theorem encode_injective : Function.Injective encode := by
  intro a b h
  have ha := decode_encode a
  rw [h, decode_encode] at ha
  exact (Except.ok.inj ha).symm

/-- The scalar that bytes spell, however many they are. -/
def ofBytes (d : Bytes) : Scalar := ofNat (bytesValue d)

theorem ofBytes_encode (a : Scalar) : ofBytes a.encode = a := by
  rw [ofBytes, bytesValue_encode, ofNat_val]

end Scalar

/-- The bytes are the written form of a number below the order. -/
def Written (d : Bytes) : Prop := d.length = Scalar.size ∧ bytesValue d < order

instance (d : Bytes) : Decidable (Written d) := inferInstanceAs (Decidable (_ ∧ _))

theorem written_encode (a : Scalar) : Written a.encode := by
  constructor
  · exact a.length_encode
  · rw [Scalar.bytesValue_encode]
    exact a.isLt

namespace Scalar

theorem decode_of_written {d : Bytes} (h : Written d) : decode d = .ok (ofBytes d) := by
  obtain ⟨hlen, hlt⟩ := h
  rw [decode, if_pos hlen, dif_pos hlt]
  exact congrArg Except.ok (ext (Nat.mod_eq_of_lt hlt).symm)

/-- Whatever is read was written. -/
theorem written_of_decode {d : Bytes} {a : Scalar} (h : decode d = .ok a) : Written d := by
  rw [← encode_of_decode h]
  exact written_encode a

/-! ## The top byte -/

theorem getLast?_lowBytes (k n : ℕ) :
    (lowBytes (k + 1) n).getLast? = some (UInt8.ofNat (n / 256 ^ k % 256)) := by
  induction k generalizing n with
  | zero => rw [pow_zero, Nat.div_one]; rfl
  | succ k ih =>
    have hcons : (lowBytes (k + 1 + 1) n).getLast? = (lowBytes (k + 1) (n / 256)).getLast? := by
      rw [lowBytes, lowBytes, List.getLast?_cons_cons]
    rw [hcons, ih, Nat.div_div_eq_div_mul, pow_succ, Nat.mul_comm 256]

/-- The top byte is empty exactly below the 248th power of two. -/
theorem negative_iff (a : Scalar) : a.negative = true ↔ 2 ^ 248 ≤ a.val := by
  have hlt : a.val < 2 ^ 253 := a.isLt.trans (by decide)
  have hlast : a.encode.getLast? = some (UInt8.ofNat (a.val / 256 ^ 31 % 256)) :=
    getLast?_lowBytes 31 a.val
  have hbyte : (UInt8.ofNat (a.val / 256 ^ 31 % 256)).toNat = a.val / 2 ^ 248 := by
    rw [UInt8.toNat_ofNat']
    omega
  rw [negative, topByteSet, hlast, Option.any_some, decide_eq_true_iff, ne_eq, ← UInt8.toNat_inj,
    hbyte]
  show ¬a.val / 2 ^ 248 = 0 ↔ _
  omega

end Scalar

end RankOne
