import RankOne.Range.Basic
import RankOne.Proofs.Unpacking.Styles

/-!
# What the rows of a range statement say

The rows hold exactly when the product of the gaps is at least zero and fits the width, and every
helper has the value that belongs to the secret. This is about the product as a scalar; nothing
keeps the gaps small, so the integers may tell another story.
-/

namespace RankOne.Range

variable (o : Options)

/-- The integers that the unpacked product of a satisfied statement can stand for. -/
def Window (n : ℤ) : Prop := 0 ≤ n ∧ n < 2 ^ (o.width - 1)

/-- The product of the gaps. -/
def product (low high secret : Scalar) : Scalar := (low - secret) * (secret - high)

/-- The values of the helpers of a statement about a secret. -/
def helperWrites (x : String) (low high secret : Scalar) : List (String × Scalar) :=
  gapWrites x low high secret ++
    o.unpacking.writes (productVar x) (twosComplement o.width (product low high secret))

theorem window_iff (n : ℤ) : Window o n ↔ Fits o.width n ∧ 0 ≤ n := by
  have hpow : (0 : ℤ) < 2 ^ (o.width - 1) := by positivity
  unfold Window Fits
  constructor
  · intro h
    obtain ⟨hlo, hhi⟩ := h
    exact ⟨⟨by linarith, hhi⟩, hlo⟩
  · intro h
    obtain ⟨⟨_, hhi⟩, hlo⟩ := h
    exact ⟨hlo, hhi⟩

theorem gates_iff (a b x : String) (ρ : String → Scalar) :
    (∀ g ∈ gates o a b x, g.Holds ρ) ↔
      Window o (product (ρ a) (ρ b) (ρ x)).toInt ∧
        Agrees ρ (helperWrites o x (ρ a) (ρ b) (ρ x)) := by
  have hunpacking := o.unpacking.gates_iff (ρ := ρ) (x := productVar x)
  unfold gates helperWrites gapWrites
  rw [List.forall_mem_append, List.forall_mem_append, List.forall_mem_singleton, hunpacking,
    window_iff, agrees_append]
  simp only [List.forall_mem_cons, agrees_cons, true_and]
  show ((ρ a - ρ x = ρ (lowerGapVar x) ∧ ρ x - ρ b = ρ (upperGapVar x) ∧
    ρ (lowerGapVar x) * ρ (upperGapVar x) = ρ (productVar x) ∧ _) ∧ _) ∧
    ρ (o.unpacking.signVar (productVar x)) = 0 ↔ _
  constructor
  · intro h
    obtain ⟨⟨⟨hlower, hupper, hproduct, -⟩, hfits, hwrites⟩, hsign⟩ := h
    have heq : ρ (productVar x) = product (ρ a) (ρ b) (ρ x) := by
      rw [← hproduct, ← hlower, ← hupper, product]
    rw [heq] at hfits hwrites
    have hnonneg := (o.unpacking.sign_eq_zero_iff hfits hwrites).mp hsign
    exact ⟨⟨hfits, hnonneg⟩, ⟨hlower.symm, hupper.symm, heq, List.forall_mem_nil _⟩, hwrites⟩
  · intro h
    obtain ⟨⟨hfits, hnonneg⟩, ⟨hlower, hupper, heq, -⟩, hwrites⟩ := h
    have hsign := (o.unpacking.sign_eq_zero_iff hfits hwrites).mpr hnonneg
    change ρ (productVar x) = product (ρ a) (ρ b) (ρ x) at heq
    rw [← heq] at hfits hwrites
    have hproduct : ρ (lowerGapVar x) * ρ (upperGapVar x) = ρ (productVar x) := by
      rw [hlower, hupper, heq, product]
    exact ⟨⟨⟨hlower.symm, hupper.symm, hproduct, List.forall_mem_nil _⟩, hfits, hwrites⟩, hsign⟩

/-! ## The whole statement -/

section

variable (low high s : Scalar)

/-- The names of a whole statement apart from the helpers of the unpacking. -/
def ownNames : List String :=
  [unit, lowerVar, upperVar, secretVar, lowerGapVar secretVar, upperGapVar secretVar,
    productVar secretVar]

theorem nodup_ownNames : ownNames.Nodup := by decide

theorem length_le_of_mem_ownNames : ∀ y ∈ ownNames, y.length ≤ (productVar secretVar).length := by
  decide

def constants : List (Gate Scalar) := [.constant lowerVar low, .constant upperVar high]

def values : List (String × Scalar) :=
  [(lowerVar, low), (upperVar, high)] ++ helperWrites o secretVar low high s

theorem map_fst_values :
    ((unit, 1) :: values o low high s).map Prod.fst =
      ownNames ++ o.unpacking.helpers.map (Unpacking.Helper.name (productVar secretVar)) := by
  have hwrites := o.unpacking.map_fst_writes (productVar secretVar)
    (length_twosComplement o.width (product low high s))
  simp only [values, helperWrites, gapWrites, List.map_cons, List.map_append, List.map_nil, hwrites]
  rfl

theorem nodup_values : (((unit, 1) :: values o low high s).map Prod.fst).Nodup := by
  have hhelpers : (o.unpacking.helpers.map (Unpacking.Helper.name (productVar secretVar))).Nodup :=
    o.unpacking.nodup_helpers.map (Unpacking.Helper.name_injective _)
  rw [map_fst_values, List.nodup_append]
  refine ⟨nodup_ownNames, hhelpers, ?_⟩
  intro y hy z hz hyz
  obtain ⟨h, _, rfl⟩ := List.mem_map.mp hz
  have hle := length_le_of_mem_ownNames y hy
  have hlt := h.length_lt_name (productVar secretVar)
  rw [hyz] at hle
  exact absurd hle (Nat.not_le.mpr hlt)

theorem mentions_values (y : String) :
    y ∈ (Session.ofGates (constants low high ++ gates o lowerVar upperVar secretVar)).names ↔
      y ∈ ((unit, 1) :: values o low high s).map Prod.fst := by
  have hunpacking := o.unpacking.mentions_gates_iff (x := productVar secretVar) (y := y)
  have hsign := o.unpacking.signVar_mem (x := productVar secretVar)
  rw [Session.mem_ofGates, map_fst_values, List.mem_append]
  generalize o.unpacking.helpers.map (Unpacking.Helper.name (productVar secretVar)) = hs at *
  simp only [constants, gates, ownNames, mentions_append, mentions_cons, mentions_nil,
    Gate.names_constant, Gate.names_subtract, Gate.names_multiply, List.mem_cons, List.not_mem_nil]
  constructor
  · grind
  · grind

theorem solved (ρ : String → Scalar) :
    (∀ g ∈ constants low high ++ gates o lowerVar upperVar secretVar, g.Holds ρ) ↔
      Window o (product low high (ρ secretVar)).toInt ∧
        Agrees ρ (values o low high (ρ secretVar)) := by
  have hgates := gates_iff o lowerVar upperVar secretVar ρ
  unfold values constants
  simp only [List.forall_mem_append, List.forall_mem_cons, agrees_append, agrees_cons, hgates]
  show ((ρ lowerVar = low ∧ ρ upperVar = high ∧ _) ∧ _) ↔ _
  constructor
  · intro h
    obtain ⟨⟨hlow, hhigh, -⟩, hwindow, hwrites⟩ := h
    rw [hlow, hhigh] at hwindow hwrites
    exact ⟨hwindow, ⟨hlow, hhigh, List.forall_mem_nil _⟩, hwrites⟩
  · intro h
    obtain ⟨hwindow, ⟨hlow, hhigh, -⟩, hwrites⟩ := h
    change ρ lowerVar = low at hlow
    change ρ upperVar = high at hhigh
    rw [hlow, hhigh]
    exact ⟨⟨rfl, rfl, List.forall_mem_nil _⟩, hwindow, hwrites⟩

/-- The statement about a secret between two constants. -/
def statement : Statement where
  gates := constants low high ++ gates o lowerVar upperVar secretVar
  secret := secretVar
  values := values o low high
  property := fun s => Window o (product low high s).toInt
  nodup := nodup_values o low high
  mentions := fun s y => mentions_values o low high s y
  secret_mem := fun s => by simp [values, helperWrites, gapWrites]
  solved := fun ρ _ => solved o low high ρ

/-! ## The rows for any secret -/

/-- The rows of the gaps and of their product. -/
def gapGates (a b x : String) : List (Gate Scalar) :=
  [.subtract a x (lowerGapVar x), .subtract x b (upperGapVar x),
    .multiply (lowerGapVar x) (upperGapVar x) (productVar x)]

/-- For the values of any secret all rows hold but perhaps the last two. The last row of the
unpacking fails when the product does not fit. The row of the sign reads the last bit of the
pattern, not the sign of the product. -/
theorem gates_eq_concat {ρ : String → Scalar} (h : Agrees ρ (values o low high s)) :
    ∃ gs, (statement o low high).gates = gs ++ [o.unpacking.reconstruction (productVar secretVar)] ++
        [.constant (o.unpacking.signVar (productVar secretVar)) 0] ∧
      (∀ g ∈ gs, g.Holds ρ) ∧
      ((o.unpacking.reconstruction (productVar secretVar)).Holds ρ ↔
        Fits o.width (product low high s).toInt) ∧
      ((Gate.constant (o.unpacking.signVar (productVar secretVar)) 0).Holds ρ ↔
        signBit (twosComplement o.width (product low high s)) = false) := by
  simp only [values, helperWrites, gapWrites, agrees_append, agrees_cons] at h
  obtain ⟨⟨hlow, hhigh, -⟩, ⟨hsecret, hlower, hupper, hproduct, -⟩, hwrites⟩ := h
  have hlen := length_twosComplement o.width (product low high s)
  obtain ⟨gs, hgates, hall, hlast⟩ := o.unpacking.gates_eq_concat hlen hwrites
  have hconstants : ∀ g ∈ constants low high, g.Holds ρ := by
    simp [constants, Gate.Holds, hlow, hhigh]
  have hgaps : ∀ g ∈ gapGates lowerVar upperVar secretVar, g.Holds ρ := by
    simp [gapGates, Gate.Holds, hlow, hhigh, hsecret, hlower, hupper, hproduct]
  refine ⟨constants low high ++ (gapGates lowerVar upperVar secretVar ++ gs), ?_, ?_, ?_, ?_⟩
  · simp only [statement, gates, gapGates, hgates, List.append_assoc]
  · rw [List.forall_mem_append, List.forall_mem_append]
    exact ⟨hconstants, hgaps, hall⟩
  · rw [hlast, hproduct]
    exact o.unpacking.twosComplement_spells_iff _
  · rw [Gate.Holds, o.unpacking.signVar_eq hlen hwrites]
    cases signBit (twosComplement o.width (product low high s)) <;> simp

end

end RankOne.Range
