import RankOne.Unpacking.Basic
import RankOne.Proofs.Session.Statement
import RankOne.Proofs.Unpacking.Pattern

/-!
# What the rows of an unpacking say

The rows of either style hold exactly when the bit variables spell a pattern whose integer stands
for the unpacked variable, and all other helpers have the values that belong to that pattern. The
integer of a pattern is small against the order, so there is such a pattern only for a variable
whose integer fits the width, and then only the one that two's complement gives.
-/

namespace RankOne.Unpacking

variable {ρ : String → Scalar} {x : String}

/-! ## Bits -/

/-- The values of the bits from bit `i` on. -/
def bitWritesFrom (x : String) (i : ℕ) (bits : List Bool) : List (String × Scalar) :=
  (bits.zipIdx i).map fun b => (bitVar x b.2, if b.1 then 1 else 0)

theorem agrees_bitWritesFrom_cons {i : ℕ} {b : Bool} {bs : List Bool} :
    Agrees ρ (bitWritesFrom x i (b :: bs)) ↔
      ρ (bitVar x i) = (if b then 1 else 0) ∧ Agrees ρ (bitWritesFrom x (i + 1) bs) := agrees_cons

/-- Boolean rows say that the variables spell some pattern. -/
theorem booleans_iff (i n : ℕ) :
    (∀ j ∈ List.range' i n, (Gate.boolean (bitVar x j)).Holds ρ) ↔
      ∃ bs : List Bool, bs.length = n ∧ Agrees ρ (bitWritesFrom x i bs) := by
  induction n generalizing i with
  | zero =>
    rw [List.range'_zero]
    exact iff_of_true (List.forall_mem_nil _) ⟨[], rfl, List.forall_mem_nil _⟩
  | succ n ih =>
    rw [List.range'_succ, List.forall_mem_cons, ih]
    constructor
    · intro h
      obtain ⟨hbit, bs, hlen, hbs⟩ := h
      rcases hbit with hzero | hone
      · exact ⟨false :: bs, congrArg Nat.succ hlen, agrees_bitWritesFrom_cons.mpr ⟨hzero, hbs⟩⟩
      · exact ⟨true :: bs, congrArg Nat.succ hlen, agrees_bitWritesFrom_cons.mpr ⟨hone, hbs⟩⟩
    · intro h
      obtain ⟨bs, hlen, hbs⟩ := h
      cases bs with
      | nil => cases hlen
      | cons b bs =>
        obtain ⟨hbit, hrest⟩ := agrees_bitWritesFrom_cons.mp hbs
        refine ⟨?_, bs, Nat.succ.inj hlen, hrest⟩
        cases b
        · exact Or.inl hbit
        · exact Or.inr hbit

variable (u : Unpacking)

/-- What the bits from bit `i` on contribute. -/
def weighted : ℕ → List Bool → Scalar
  | _, [] => 0
  | i, b :: bs => (if b then u.weight i else 0) + weighted (i + 1) bs

theorem top_add_one : u.top + 1 = u.width := by
  have h := u.two_le
  unfold top
  omega

/-- The weighted bits up to the last one stand for the integer that they spell. -/
theorem weighted_eq {i : ℕ} {bs : List Bool} (h : i + bs.length = u.width) :
    u.weighted i bs = 2 ^ i * (patternToInt bs : Scalar) := by
  have htop := u.top_add_one
  induction bs generalizing i with
  | nil => rw [weighted, patternToInt, Int.cast_zero, mul_zero]
  | cons b bs ih =>
    rw [List.length_cons] at h
    have hrest := ih (i := i + 1) (by omega)
    cases bs with
    | nil =>
      have hi : i = u.top := by rw [List.length_nil] at h; omega
      rw [weighted, weighted, weight, if_pos hi, Scalar.twoTo_eq, patternToInt]
      cases b <;> simp
    | cons c cs =>
      have hi : i ≠ u.top := by rw [List.length_cons] at h; omega
      have hstep : patternToInt (b :: c :: cs) = b.toNat + 2 * patternToInt (c :: cs) := rfl
      rw [weighted, hrest, hstep, weight, if_neg hi, Scalar.twoTo_eq]
      cases b <;> push_cast <;> simp <;> ring

theorem eval_weights {i : ℕ} {bs : List Bool} (hbs : Agrees ρ (bitWritesFrom x i bs)) :
    Combination.eval ρ ((List.range' i bs.length).map fun j => (bitVar x j, u.weight j)) =
      u.weighted i bs := by
  induction bs generalizing i with
  | nil => rfl
  | cons b bs ih =>
    obtain ⟨hbit, hrest⟩ := agrees_bitWritesFrom_cons.mp hbs
    rw [List.length_cons, List.range'_succ, List.map_cons, Combination.eval_cons, ih hrest, hbit,
      weighted]
    cases b <;> simp

def weightedBits (x : String) : Combination String :=
  (List.range u.width).map fun i => (bitVar x i, u.weight i)

/-- The last row of either style, which compares the variable with the sum of the weighted bits. -/
def reconstruction (x : String) : Gate Scalar :=
  match u.style with
  | .linear => .combination (u.weightedBits x) x
  | .chained => .equal x (totalVar x u.width)

/-- For the values that belong to any pattern all rows hold but perhaps the last one. -/
theorem linearGates_eq_concat {bits : List Bool} (hlen : bits.length = u.width)
    (h : Agrees ρ (bitWrites x bits)) :
    ∃ gs, u.linearGates x = gs ++ [.combination (u.weightedBits x) x] ∧ (∀ g ∈ gs, g.Holds ρ) ∧
      ((Gate.combination (u.weightedBits x) x).Holds ρ ↔ u.weighted 0 bits = ρ x) := by
  have hbooleans := (booleans_iff 0 u.width).mpr ⟨bits, hlen, h⟩
  have hsum : Combination.eval ρ (u.weightedBits x) = u.weighted 0 bits := by
    rw [weightedBits, List.range_eq_range', ← hlen]
    exact u.eval_weights h
  refine ⟨_, rfl, ?_, ?_⟩
  · rw [bitVars, List.map_map, List.forall_mem_map, List.range_eq_range']
    exact hbooleans
  · rw [Gate.Holds, hsum]

theorem linearGates_iff :
    (∀ g ∈ u.linearGates x, g.Holds ρ) ↔
      ∃ bs : List Bool, bs.length = u.width ∧ Agrees ρ (bitWrites x bs) ∧
        u.weighted 0 bs = ρ x := by
  constructor
  · intro h
    unfold linearGates bitVars at h
    rw [List.forall_mem_append, List.forall_mem_singleton, List.map_map, List.forall_mem_map,
      List.range_eq_range'] at h
    obtain ⟨hbooleans, hsum⟩ := h
    obtain ⟨bs, hlen, hbs⟩ := (booleans_iff 0 u.width).mp hbooleans
    rw [Gate.Holds, ← hlen, u.eval_weights hbs] at hsum
    exact ⟨bs, hlen, hbs, hsum⟩
  · intro h
    obtain ⟨bs, hlen, hbs, hsum⟩ := h
    obtain ⟨gs, hgates, hall, hlast⟩ := u.linearGates_eq_concat hlen hbs
    rw [hgates, List.forall_mem_append, List.forall_mem_singleton]
    exact ⟨hall, hlast.mpr hsum⟩

/-! ## Weights, weighted bits and totals as variables -/

/-- Doubling from one gives the powers of two. -/
theorem powers_iff {f : ℕ → Scalar} (n : ℕ) :
    (f 0 = 1 ∧ ∀ i ∈ List.range n, f i * .ofNat 2 = f (i + 1)) ↔
      ∀ i ∈ List.range (n + 1), f i = Scalar.twoTo i := by
  have htwo : Scalar.ofNat 2 = (2 : Scalar) := rfl
  simp only [List.mem_range, Scalar.twoTo_eq, htwo]
  constructor
  · rintro ⟨hzero, hdouble⟩ i hi
    induction i with
    | zero => rw [hzero, pow_zero]
    | succ i ih => rw [← hdouble i (by omega), ih (by omega), pow_succ]
  · intro h
    constructor
    · rw [h 0 (by omega), pow_zero]
    · intro i hi
      rw [h i (by omega), h (i + 1) (by omega), pow_succ]

theorem weightGates_iff :
    (∀ g ∈ u.weightGates x, g.Holds ρ) ↔ Agrees ρ (u.weightWrites x) := by
  have hpowers := powers_iff (f := fun i => ρ (powerVar x i)) u.top
  unfold weightGates weightWrites
  rw [agrees_append, ← u.top_add_one]
  unfold Agrees
  rw [List.forall_mem_map, List.forall_mem_append, List.forall_mem_cons, List.forall_mem_map,
    List.forall_mem_singleton, List.forall_mem_singleton]
  show (ρ (powerVar x 0) = 1 ∧ ∀ i ∈ List.range u.top, ρ (powerVar x i) * .ofNat 2 =
    ρ (powerVar x (i + 1))) ∧ ρ (powerVar x u.top) * -1 = ρ (negPowerVar x) ↔
    (∀ i ∈ List.range (u.top + 1), ρ (powerVar x i) = Scalar.twoTo i) ∧
      ρ (negPowerVar x) = -Scalar.twoTo u.top
  rw [hpowers]
  apply and_congr_right
  intro h
  rw [h u.top (List.mem_range.mpr (Nat.lt_succ_self _)), mul_neg_one]
  exact eq_comm

theorem weightVar_eq (h : Agrees ρ (u.weightWrites x)) {i : ℕ} (hi : i < u.width) :
    ρ (u.weightVar x i) = u.weight i := by
  unfold weightWrites at h
  obtain ⟨hpowers, hneg⟩ := agrees_append.mp h
  unfold weightVar weight
  split
  · rename_i htop
    rw [htop]
    exact hneg _ List.mem_cons_self
  · exact hpowers _ (List.mem_map_of_mem (List.mem_range.mpr hi))

theorem weightVars_eq (h : Agrees ρ (u.weightWrites x)) {bits : List Bool}
    (hlen : bits.length = u.width) :
    ∀ i ∈ List.range' 0 bits.length, ρ (u.weightVar x i) = u.weight i := by
  intro i hi
  have hlt : i < u.width := by rw [← hlen]; simpa using hi
  exact u.weightVar_eq h hlt

/-- Given bits and weights, the rows of the weighted bits and of the totals fix both. -/
theorem sums_iff {i : ℕ} {t : Scalar} {bs : List Bool}
    (hweights : ∀ j ∈ List.range' i bs.length, ρ (u.weightVar x j) = u.weight j)
    (hbs : Agrees ρ (bitWritesFrom x i bs)) (ht : ρ (totalVar x i) = t) :
    (∀ j ∈ List.range' i bs.length,
      ρ (bitVar x j) * ρ (u.weightVar x j) = ρ (termVar x j) ∧
        ρ (totalVar x j) + ρ (termVar x j) = ρ (totalVar x (j + 1))) ↔
      Agrees ρ (u.sumWrites x i t bs) := by
  induction bs generalizing i t with
  | nil => exact iff_of_true (List.forall_mem_nil _) (List.forall_mem_nil _)
  | cons b bs ih =>
    rw [List.length_cons, List.range'_succ, List.forall_mem_cons] at hweights ⊢
    obtain ⟨hbit, hrest⟩ := agrees_bitWritesFrom_cons.mp hbs
    have hterm : ρ (bitVar x i) * ρ (u.weightVar x i) = if b then u.weight i else 0 := by
      rw [hbit, hweights.1]
      cases b <;> simp
    rw [sumWrites, agrees_cons, agrees_cons, hterm, ht, and_assoc]
    constructor
    · intro h
      obtain ⟨hterm', htotal, hall⟩ := h
      rw [← hterm'] at htotal
      exact ⟨hterm'.symm, htotal.symm, (ih hweights.2 hrest htotal.symm).mp hall⟩
    · intro h
      obtain ⟨hterm', htotal, hall⟩ := h
      change ρ (termVar x i) = _ at hterm'
      change ρ (totalVar x (i + 1)) = _ at htotal
      rw [hterm', htotal]
      exact ⟨rfl, rfl, (ih hweights.2 hrest htotal).mpr hall⟩

theorem total_eq {i : ℕ} {t : Scalar} {bs : List Bool} (ht : ρ (totalVar x i) = t)
    (h : Agrees ρ (u.sumWrites x i t bs)) :
    ρ (totalVar x (i + bs.length)) = t + u.weighted i bs := by
  induction bs generalizing i t with
  | nil => rw [List.length_nil, Nat.add_zero, ht, weighted, add_zero]
  | cons b bs ih =>
    rw [sumWrites, agrees_cons, agrees_cons] at h
    rw [List.length_cons, Nat.add_comm bs.length 1, ← Nat.add_assoc, ih h.2.1 h.2.2, weighted,
      add_assoc]

theorem sumGates_iff :
    (∀ g ∈ (List.range u.width).flatMap (u.sumGates x), g.Holds ρ) ↔
      (∀ i ∈ List.range' 0 u.width, (Gate.boolean (bitVar x i)).Holds ρ) ∧
      ∀ i ∈ List.range' 0 u.width,
        ρ (bitVar x i) * ρ (u.weightVar x i) = ρ (termVar x i) ∧
          ρ (totalVar x i) + ρ (termVar x i) = ρ (totalVar x (i + 1)) := by
  rw [List.forall_mem_flatMap, List.range_eq_range', ← forall₂_and]
  apply forall₂_congr
  intro i _
  unfold sumGates
  rw [List.forall_mem_cons, List.forall_mem_cons, List.forall_mem_singleton]
  rfl

theorem chainedGates_eq_concat {bits : List Bool} (hlen : bits.length = u.width)
    (h : Agrees ρ (bitWrites x bits ++ u.weightWrites x ++ [(totalVar x 0, 0)] ++
      u.sumWrites x 0 0 bits)) :
    ∃ gs, u.chainedGates x = gs ++ [.equal x (totalVar x u.width)] ∧ (∀ g ∈ gs, g.Holds ρ) ∧
      ((Gate.equal x (totalVar x u.width)).Holds ρ ↔ u.weighted 0 bits = ρ x) := by
  simp only [agrees_append, agrees_cons] at h
  obtain ⟨⟨⟨hbits, hweights⟩, hzero, -⟩, hsums⟩ := h
  have hbooleans := (booleans_iff 0 u.width).mpr ⟨bits, hlen, hbits⟩
  have hrows := (u.sums_iff (u.weightVars_eq hweights hlen) hbits hzero).mpr hsums
  have htotal := u.total_eq hzero hsums
  rw [hlen] at hrows
  rw [Nat.zero_add, zero_add, hlen] at htotal
  refine ⟨_, rfl, ?_, ?_⟩
  · rw [List.forall_mem_append, List.forall_mem_append, List.forall_mem_singleton,
      u.weightGates_iff, u.sumGates_iff]
    exact ⟨⟨hweights, hzero⟩, hbooleans, hrows⟩
  · show ρ x = ρ (totalVar x u.width) ↔ _
    rw [htotal]
    exact eq_comm

theorem chainedGates_iff :
    (∀ g ∈ u.chainedGates x, g.Holds ρ) ↔
      ∃ bs : List Bool, bs.length = u.width ∧
        Agrees ρ (bitWrites x bs ++ u.weightWrites x ++ [(totalVar x 0, 0)] ++
          u.sumWrites x 0 0 bs) ∧ u.weighted 0 bs = ρ x := by
  constructor
  · intro h
    unfold chainedGates at h
    rw [List.forall_mem_append, List.forall_mem_append, List.forall_mem_append,
      List.forall_mem_singleton, List.forall_mem_singleton, u.weightGates_iff, u.sumGates_iff,
      booleans_iff] at h
    obtain ⟨⟨⟨hweights, hzero⟩, ⟨bs, hlen, hbs⟩, hsums⟩, hequal⟩ := h
    change ρ (totalVar x 0) = 0 at hzero
    change ρ x = ρ (totalVar x u.width) at hequal
    rw [← hlen] at hsums hequal
    have hwrites := (u.sums_iff (u.weightVars_eq hweights hlen) hbs hzero).mp hsums
    have htotal := u.total_eq hzero hwrites
    rw [Nat.zero_add, zero_add, ← hequal] at htotal
    simp only [agrees_append, agrees_cons]
    exact ⟨bs, hlen, ⟨⟨⟨hbs, hweights⟩, hzero, List.forall_mem_nil _⟩, hwrites⟩, htotal.symm⟩
  · intro h
    obtain ⟨bs, hlen, hwrites, hsum⟩ := h
    obtain ⟨gs, hgates, hall, hlast⟩ := u.chainedGates_eq_concat hlen hwrites
    rw [hgates, List.forall_mem_append, List.forall_mem_singleton]
    exact ⟨hall, hlast.mpr hsum⟩

/-! ## Both styles -/

theorem gates_iff_exists :
    (∀ g ∈ u.gates x, g.Holds ρ) ↔
      ∃ bs : List Bool, bs.length = u.width ∧ Agrees ρ (u.writes x bs) ∧
        (patternToInt bs : Scalar) = ρ x := by
  have hstyle : (∀ g ∈ u.gates x, g.Holds ρ) ↔ ∃ bs : List Bool, bs.length = u.width ∧
      Agrees ρ (u.writes x bs) ∧ u.weighted 0 bs = ρ x := by
    unfold gates writes
    cases u.style with
    | linear => exact u.linearGates_iff
    | chained => exact u.chainedGates_iff
  rw [hstyle]
  apply exists_congr
  intro bs
  apply and_congr_right
  intro hlen
  rw [u.weighted_eq (by rw [Nat.zero_add, hlen]), pow_zero, one_mul]

/-- The integer of a pattern is the one nearest to zero of the scalar that it stands for. -/
theorem toInt_patternToInt {bs : List Bool} (hlen : bs.length = u.width) :
    ((patternToInt bs : ℤ) : Scalar).toInt = patternToInt bs ∧ Fits u.width (patternToInt bs) := by
  have hbounds := patternToInt_bounds (hlen.trans u.top_add_one.symm)
  have hpow : (2 : ℤ) ^ u.top ≤ 2 ^ 247 := two_pow_le_maxWidth u.le_max
  have horder : (2 : ℤ) ^ 252 < order := by exact_mod_cast Scalar.two_pow_lt_order
  constructor
  · apply Scalar.toInt_intCast <;> linarith [hbounds.1, hbounds.2.1]
  · exact ⟨hbounds.1, hbounds.2.1⟩

/-- The pattern that is given for a scalar stands for it just when the scalar fits the width. -/
theorem twosComplement_spells_iff (a : Scalar) :
    (patternToInt (twosComplement u.width a) : Scalar) = a ↔ Fits u.width a.toInt := by
  constructor
  · intro h
    obtain ⟨htoInt, hfits⟩ := u.toInt_patternToInt (length_twosComplement u.width a)
    rw [h] at htoInt
    exact htoInt ▸ hfits
  · intro h
    rw [patternToInt_twosComplement u.two_le u.le_max h, Scalar.intCast_toInt]

/-- The rows hold when the variable fits the width and every helper has the value that belongs to
the variable's pattern. -/
theorem gates_iff :
    (∀ g ∈ u.gates x, g.Holds ρ) ↔
      Fits u.width (ρ x).toInt ∧ Agrees ρ (u.writes x (twosComplement u.width (ρ x))) := by
  rw [gates_iff_exists]
  constructor
  · intro h
    obtain ⟨bs, hlen, hwrites, hsum⟩ := h
    obtain ⟨htoInt, hfits⟩ := u.toInt_patternToInt hlen
    rw [hsum] at htoInt
    rw [← htoInt] at hfits
    -- Patterns of one length that stand for one integer are the same.
    have hpattern : twosComplement u.width (ρ x) = bs := by
      apply patternToInt_injective ((length_twosComplement _ _).trans hlen.symm)
      rw [patternToInt_twosComplement u.two_le u.le_max hfits, htoInt]
    rw [hpattern]
    exact ⟨hfits, hwrites⟩
  · intro h
    obtain ⟨hfits, hwrites⟩ := h
    exact ⟨_, length_twosComplement _ _, hwrites, (u.twosComplement_spells_iff _).mpr hfits⟩

/-! ## The pattern that is given -/

theorem pattern_of_fits {u : Unpacking} {a : Scalar}
    (h : u.strict = true → Fits u.width a.toInt) :
    u.pattern a = .ok (twosComplement u.width a) := by
  unfold pattern
  cases hstrict : u.strict with
  | false => rfl
  | true =>
    rcases requireFit_eq u.two_le u.le_max a with ⟨hok, -⟩ | ⟨-, hnot⟩
    · simp only [if_true, hok]
      rfl
    · exact absurd (h hstrict) hnot

theorem pattern_of_not_fits {u : Unpacking} {a : Scalar} (hstrict : u.strict = true)
    (h : ¬Fits u.width a.toInt) :
    u.pattern a = .error (.tooWide (bitLength a.toInt.natAbs - 1) u.width) := by
  unfold pattern
  rcases requireFit_eq u.two_le u.le_max a with ⟨-, hfits⟩ | ⟨herror, -⟩
  · exact absurd hfits h
  · simp only [hstrict, if_true, herror]
    rfl

section

/-- The same unpacking with or without the refusal of values that do not fit. -/
def withStrict (strict : Bool) : Unpacking := { u with strict := strict }

variable (strict : Bool) (x : String)

theorem gates_withStrict : (u.withStrict strict).gates x = u.gates x := by
  unfold gates
  cases hstyle : u.style with
  | linear => simp only [withStrict, hstyle]; rfl
  | chained => simp only [withStrict, hstyle]; rfl

theorem sumWrites_withStrict (i : ℕ) (t : Scalar) (bs : List Bool) :
    (u.withStrict strict).sumWrites x i t bs = u.sumWrites x i t bs := by
  induction bs generalizing i t with
  | nil => rfl
  | cons b bs ih =>
    rw [sumWrites, sumWrites, ih]
    rfl

theorem writes_withStrict (bits : List Bool) :
    (u.withStrict strict).writes x bits = u.writes x bits := by
  unfold writes
  rw [sumWrites_withStrict]
  rfl

end

/-! ## Single bits and the sign -/

theorem agrees_bitWrites {bits : List Bool} (h : Agrees ρ (u.writes x bits)) :
    Agrees ρ (bitWrites x bits) := by
  unfold writes at h
  cases hstyle : u.style with
  | linear =>
    rw [hstyle] at h
    exact h
  | chained =>
    rw [hstyle] at h
    simp only [agrees_append] at h
    exact h.1.1.1

theorem bitVar_eq {bits : List Bool} (hlen : bits.length = u.width)
    (h : Agrees ρ (u.writes x bits)) {i : ℕ} (hi : i < u.width) :
    ρ (bitVar x i) = if bits[i] then 1 else 0 := by
  have hmem : (bits[i], i) ∈ bits.zipIdx := by
    rw [List.mem_zipIdx_iff_getElem?, List.getElem?_eq_getElem]
  exact u.agrees_bitWrites h _ (List.mem_map_of_mem hmem)

theorem signVar_eq {bits : List Bool} (hlen : bits.length = u.width)
    (h : Agrees ρ (u.writes x bits)) : ρ (u.signVar x) = if signBit bits then 1 else 0 := by
  have htop := u.top_add_one
  have hlast : signBit bits = bits[u.top] := by
    have hne : bits ≠ [] := List.ne_nil_of_length_pos (by omega)
    have hindex : bits.length - 1 = u.top := by omega
    rw [signBit, List.getLastD_eq_getLast?, List.getLast?_eq_some_getLast hne,
      List.getLast_eq_getElem]
    simp only [hindex, Option.getD_some]
  rw [hlast]
  exact u.bitVar_eq hlen h (by omega)

/-- The last bit tells the sign of a variable that fits. -/
theorem sign_eq_zero_iff {a : Scalar} (hfits : Fits u.width a.toInt)
    (h : Agrees ρ (u.writes x (twosComplement u.width a))) :
    ρ (u.signVar x) = 0 ↔ 0 ≤ a.toInt := by
  have hlen := length_twosComplement u.width a
  have hbounds := patternToInt_bounds (hlen.trans u.top_add_one.symm)
  rw [u.signVar_eq hlen h, ← patternToInt_twosComplement u.two_le u.le_max hfits, ← hbounds.2.2]
  cases signBit (twosComplement u.width a) <;> simp

end RankOne.Unpacking
