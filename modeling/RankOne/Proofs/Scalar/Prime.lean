import RankOne.Scalar.Basic
import Mathlib.GroupTheory.OrderOfElement
import Mathlib.FieldTheory.Finite.Basic
import Mathlib.Tactic.NormNum.Prime
import Mathlib.Tactic.ReduceModChar

/-!
# The order is prime

A number `n` is prime if some residue has an order that is large against the square root of `n`
modulo each of its prime factors. The order is certified by powers: one power is one, and certain
others differ from one by something invertible. The certificate for `order` is a chain of numbers,
each of which serves as the order of a residue modulo the one before.
-/

namespace RankOne

/-- The order `f` of the `r`-th power of `a` would divide `p - 1` for the least prime factor `p`
of `n`, but `p` is at most the square root of `n` if `n` is composite. -/
theorem prime_of_order {n f r : ℕ} (a : ZMod n) (hn : 1 < n) (hf : n < f * f)
    (hone : a ^ (f * r) = 1)
    (hunit : ∀ q, q.Prime → q ∣ f → ∃ c, (a ^ (f / q * r) - 1) * c = 1) : n.Prime := by
  by_contra hcomposite
  let p := n.minFac
  have hp : p.Prime := Nat.minFac_prime (by omega)
  have : Fact p.Prime := ⟨hp⟩
  have hpn : p ∣ n := Nat.minFac_dvd n
  have hpp : p * p ≤ n := by
    have h := Nat.minFac_sq_le_self (by omega) hcomposite
    rwa [sq] at h
  have hfpos : 0 < f := by
    rcases Nat.eq_zero_or_pos f with h | h
    · rw [h] at hf; omega
    · exact h
  let g := ZMod.castHom hpn (ZMod p)
  have hpow : (g a ^ r) ^ f = 1 := by
    rw [← pow_mul, Nat.mul_comm r f, ← map_pow, hone, map_one]
  have hord : orderOf (g a ^ r) = f := by
    apply orderOf_eq_of_pow_and_pow_div_prime hfpos hpow
    intro q hq hqf hqone
    obtain ⟨c, hc⟩ := hunit q hq hqf
    have hzero : g (a ^ (f / q * r) - 1) = 0 := by
      rw [map_sub, map_pow, map_one, Nat.mul_comm, pow_mul, hqone, sub_self]
    have hmap := congrArg g hc
    rw [map_mul, hzero, zero_mul, map_one] at hmap
    exact zero_ne_one hmap
  have hne : g a ^ r ≠ 0 := by
    intro h
    rw [h, zero_pow hfpos.ne'] at hpow
    exact zero_ne_one hpow
  have hdvd : f ∣ p - 1 := by
    rw [← hord]
    exact orderOf_dvd_of_pow_eq_one (ZMod.pow_card_sub_one_eq_one hne)
  have hfp : f ≤ p - 1 := Nat.le_of_dvd (by have h := hp.two_le; omega) hdvd
  have hff : f * f ≤ p * p := Nat.mul_le_mul (by omega) (by omega)
  omega

/-- The case of a prime order: a single difference has to be invertible. -/
theorem prime_of_prime_order {n f r : ℕ} (a c : ZMod n) (hn : 1 < n) (hprime : f.Prime)
    (hf : n < f * f) (hone : a ^ (f * r) = 1) (hunit : (a ^ r - 1) * c = 1) : n.Prime := by
  apply prime_of_order a hn hf hone
  intro q hq hqf
  have hqf' : q = f := (Nat.prime_dvd_prime_iff_eq hq hprime).mp hqf
  subst hqf'
  refine ⟨c, ?_⟩
  rw [Nat.div_self hq.pos, Nat.one_mul]
  exact hunit

/-- The last link has no prime factor of its predecessor that is large enough, but two of them
are together. -/
theorem chain_prime₅ : Nat.Prime 1257559732178653 := by
  apply prime_of_order (f := 531581 * 1224481) (r := 1932) 2 (by norm_num) (by norm_num)
  · reduce_mod_char
  · intro q hq hqf
    have h₁ : Nat.Prime 531581 := by norm_num
    have h₂ : Nat.Prime 1224481 := by norm_num
    rcases (Nat.Prime.dvd_mul hq).mp hqf with h | h
    · rw [(Nat.prime_dvd_prime_iff_eq hq h₁).mp h]
      exact ⟨212927577457398, by norm_num; reduce_mod_char⟩
    · rw [(Nat.prime_dvd_prime_iff_eq hq h₂).mp h]
      exact ⟨790900187493841, by norm_num; reduce_mod_char⟩

theorem chain_prime₄ : Nat.Prime 4434155615661930479 :=
  prime_of_prime_order (r := 3526) 2 1010501025739283171 (by norm_num) chain_prime₅
    (by norm_num) (by reduce_mod_char) (by reduce_mod_char)

theorem chain_prime₃ : Nat.Prime 172054593956031949258510691 :=
  prime_of_prime_order (r := 38802110) 2 154275350521713489305385904 (by norm_num) chain_prime₄
    (by norm_num) (by reduce_mod_char) (by reduce_mod_char)

theorem chain_prime₂ : Nat.Prime 19757330305831588566944191468367130476339 :=
  prime_of_prime_order (r := 114831751082918) 2 16371654433361644093796961727196399386194
    (by norm_num) chain_prime₃ (by norm_num) (by reduce_mod_char) (by reduce_mod_char)

theorem chain_prime₁ : Nat.Prime 276602624281642239937218680557139826668747 :=
  prime_of_prime_order (r := 14) 2 94074944912245044309966580483695483989395 (by norm_num)
    chain_prime₂ (by norm_num) (by reduce_mod_char) (by reduce_mod_char)

theorem order_eq :
    order = 7237005577332262213973186563042994240857116359379907606001950938285454250989 := rfl

theorem order_prime : order.Prime := by
  rw [order_eq]
  exact prime_of_prime_order (r := 26163907866482859529727157400808004) 2
    2233364593245673852815932892735013076939656528578070433728021143254617821614 (by norm_num)
    chain_prime₁ (by norm_num) (by reduce_mod_char) (by reduce_mod_char)

instance : Fact order.Prime := ⟨order_prime⟩

end RankOne
