import RankOne.Proofs.Range.Outcome

/-!
# The check of the width

A range circuit may check that the product of the gaps fits the width of the pattern. The check does
nothing else: for a product that fits, the circuit has the outcome that it has without the check, and
for one that does not fit, the system that it would give without the check is not satisfied. This is
about all scalars, also about those whose top byte is set although their integer is not negative: the
pattern of such a scalar is that of another number, but no pattern stands for a scalar that does not
fit.
-/

namespace RankOne

/-- A set top byte means a negative integer only for scalars that fit some supported width. -/
theorem not_fits_of_topByte {width : ℕ} (hmax : width ≤ maxWidth) {a : Scalar}
    (hneg : a.negative = true) (hnonneg : 0 ≤ a.toInt) : ¬Fits width a.toInt := by
  intro hfits
  have hsource := patternSource_eq hmax hfits
  have hlt := a.isLt
  rw [patternSource, if_pos hneg] at hsource
  omega

namespace Range

variable {v a b : Value} {low high s : Scalar}

/-- The same options, and a product that does not fit is refused. -/
def guarded (o : Options) : Options := { o with strict := true }

section

variable (o : Options) (ha : a.scalar = .ok low) (hb : b.scalar = .ok high)
  (hle : low.toInt ≤ high.toInt) (hv : v.scalar = .ok s)

include ha hb hle hv

/-- Without the check a circuit succeeds, and a product that does not fit leaves its system
unsatisfied. -/
theorem outcome_lenient :
    ∃ C, outcome (circuit (lenient o) v a b) = .ok C ∧
      (¬Fits o.width (product low high s).toInt → C.satisfied = false) := by
  obtain ⟨C, hC, -, -, -, hsatisfied⟩ :=
    outcome_of_fits (lenient o) ha hb hle hv fun hstrict => nomatch hstrict
  refine ⟨C, hC, ?_⟩
  intro hnot
  have hwindow : ¬Window o (product low high s).toInt := fun h => hnot ((window_iff o _).mp h).1
  exact Bool.eq_false_iff.mpr (mt hsatisfied.mp hwindow)

/-- A product that passes the check leaves no trace of it. -/
theorem outcome_guarded_of_fits (hfits : Fits o.width (product low high s).toInt) :
    outcome (circuit (guarded o) v a b) = outcome (circuit (lenient o) v a b) :=
  outcome_congr (adds_circuit (guarded o) ha hb hle hv fun _ => hfits)
    (adds_lenient (guarded o) ha hb hle hv)

theorem outcome_guarded_of_not_fits (hnot : ¬Fits o.width (product low high s).toInt) :
    outcome (circuit (guarded o) v a b) =
      .error (.tooWide (bitLength (product low high s).toInt.natAbs - 1) o.width) :=
  outcome_of_not_fits (guarded o) ha hb hle hv rfl hnot

/-- The check refuses the products that do not fit, whose systems would not be satisfied, and
changes nothing for all others. Among the refused ones are those with a set top byte that are not
negative. -/
theorem guarded_refuses_unsatisfied :
    ∃ C, outcome (circuit (lenient o) v a b) = .ok C ∧
      ((∃ k w, outcome (circuit (guarded o) v a b) = .error (.tooWide k w)) ↔
        ¬Fits o.width (product low high s).toInt) ∧
      (¬Fits o.width (product low high s).toInt → C.satisfied = false) ∧
      (Fits o.width (product low high s).toInt →
        outcome (circuit (guarded o) v a b) = .ok C) ∧
      ((product low high s).negative = true → 0 ≤ (product low high s).toInt →
        ¬Fits o.width (product low high s).toInt) := by
  obtain ⟨C, hC, hunsatisfied⟩ := outcome_lenient o ha hb hle hv
  have hsame : Fits o.width (product low high s).toInt →
      outcome (circuit (guarded o) v a b) = .ok C :=
    fun hfits => (outcome_guarded_of_fits o ha hb hle hv hfits).trans hC
  refine ⟨C, hC, ?_, hunsatisfied, hsame, not_fits_of_topByte o.fits⟩
  constructor
  · rintro ⟨k, w, hrefused⟩ hfits
    rw [hsame hfits] at hrefused
    cases hrefused
  · intro hnot
    exact ⟨_, _, outcome_guarded_of_not_fits o ha hb hle hv hnot⟩

end

/-- A secret inside the range whose product is the least one with a set top byte. -/
theorem guarded_refuses_unsatisfied_topByte :
    (Value.integer (2 ^ 124)).scalar = .ok (.ofInt (2 ^ 124)) ∧
      (Value.integer 0).scalar = .ok 0 ∧
      (Value.integer (2 ^ 125)).scalar = .ok (.ofInt (2 ^ 125)) ∧
      (0 : Scalar).toInt ≤ (Scalar.ofInt (2 ^ 125)).toInt ∧
      ∃ C, outcome (circuit (lenient .standard) (.integer (2 ^ 124)) (.integer 0)
          (.integer (2 ^ 125))) = .ok C ∧ C.satisfied = false ∧
        ∃ k w, outcome (circuit (guarded .standard) (.integer (2 ^ 124)) (.integer 0)
          (.integer (2 ^ 125))) = .error (.tooWide k w) := by
  have hle : (0 : Scalar).toInt ≤ (Scalar.ofInt (2 ^ 125)).toInt := by decide
  obtain ⟨C, hC, hrefused, hunsatisfied, -, htop⟩ :=
    guarded_refuses_unsatisfied .standard (v := .integer (2 ^ 124)) (a := .integer 0)
      (b := .integer (2 ^ 125)) rfl rfl hle rfl
  have hnot := htop (by decide) (by decide)
  exact ⟨rfl, rfl, rfl, hle, C, hC, hunsatisfied hnot, hrefused.mpr hnot⟩

end Range

end RankOne
