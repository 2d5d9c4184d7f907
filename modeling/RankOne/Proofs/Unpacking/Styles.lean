import RankOne.Proofs.Unpacking.Helpers

/-!
# What the styles of an unpacking share

Both styles give the bits the same values. For the values that an unpacking gives to its helpers,
every row holds but perhaps the last one, which compares the variable with the integer that the bits
spell.
-/

namespace RankOne.Unpacking

variable {ρ : String → Scalar} {x : String} (u : Unpacking)

/-- All rows but the last one hold for the values that belong to any pattern, and the last one holds
when the pattern spells the variable. -/
theorem gates_eq_concat {bits : List Bool} (hlen : bits.length = u.width)
    (h : Agrees ρ (u.writes x bits)) :
    ∃ gs, u.gates x = gs ++ [u.reconstruction x] ∧ (∀ g ∈ gs, g.Holds ρ) ∧
      ((u.reconstruction x).Holds ρ ↔ (patternToInt bits : Scalar) = ρ x) := by
  have hweighted : u.weighted 0 bits = (patternToInt bits : Scalar) := by
    rw [u.weighted_eq (by rw [Nat.zero_add, hlen]), pow_zero, one_mul]
  rw [← hweighted]
  unfold writes at h
  unfold gates reconstruction
  cases hstyle : u.style with
  | linear =>
    rw [hstyle] at h
    exact u.linearGates_eq_concat hlen h
  | chained =>
    rw [hstyle] at h
    exact u.chainedGates_eq_concat hlen h

/-! ## Bits -/

theorem bitWrites_subset (x : String) (bits : List Bool) :
    bitWrites x bits ⊆ u.writes x bits := by
  unfold writes
  cases u.style with
  | linear => exact List.Subset.refl _
  | chained => simp

theorem map_name_bitHelpers (x : String) : u.bitHelpers.map (Helper.name x) = u.bitVars x := by
  rw [bitHelpers, bitVars, List.map_map]
  rfl

end RankOne.Unpacking
