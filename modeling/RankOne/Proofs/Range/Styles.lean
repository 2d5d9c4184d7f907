import RankOne.Proofs.Range.Outcome
import RankOne.Proofs.Session.History

/-!
# Range circuits in either style

The two styles of an unpacking are interchangeable in a range circuit. Whether the circuit fails and
why does not depend on the style, nor does the verdict, nor the number of violated rows, nor the
value of a name that both systems have. This includes products that do not fit the width.
-/

namespace RankOne.Range

/-- The same options in another style. -/
def inStyle (o : Options) (style : Style) : Options := { o with style := style }

/-! ## Violated rows -/

section

variable (o : Options) (low high s : Scalar)

/-- A statement about a secret fails in at most two rows: the last one of the unpacking, if the
product does not fit, and the row of the sign, if the last bit is set. -/
theorem failing_statement :
    failing (listed ((unit, 1) :: (statement o low high).values s)) (statement o low high).gates =
      (if Fits o.width (product low high s).toInt then 0 else 1) +
        if signBit (twosComplement o.width (product low high s)) = false then 0 else 1 := by
  obtain ⟨gs, hgates, hall, hfits, hsign⟩ :=
    gates_eq_concat o low high s ((statement o low high).agrees_listed s)
  rw [hgates, failing_append, failing_append, failing_eq_zero hall, failing_singleton,
    failing_singleton, Nat.zero_add, if_congr hfits rfl rfl, if_congr hsign rfl rfl]

end

/-! ## Names and values in both styles -/

/-- The names that the statement has in either style. -/
def sharedNames (o : Options) : List String :=
  ownNames ++ o.unpacking.bitVars (productVar secretVar)

section

variable (o : Options) (low high s : Scalar)

theorem map_fst_linear :
    ((unit, 1) :: values (inStyle o .linear) low high s).map Prod.fst = sharedNames o := by
  have hhelpers : (inStyle o .linear).unpacking.helpers = o.unpacking.bitHelpers := rfl
  rw [map_fst_values, hhelpers, Unpacking.map_name_bitHelpers, sharedNames]

/-- The linear style has just the shared names. -/
theorem mem_linear_iff (y : String) :
    y ∈ (statement (inStyle o .linear) low high).names ↔ y ∈ sharedNames o := by
  rw [← map_fst_linear o low high 0]
  exact mentions_values _ low high 0 y

theorem values_linear_subset :
    values (inStyle o .linear) low high s ⊆ values (inStyle o .chained) low high s := by
  have hbits : (inStyle o .linear).unpacking.writes (productVar secretVar)
        (twosComplement o.width (product low high s)) ⊆
      (inStyle o .chained).unpacking.writes (productVar secretVar)
        (twosComplement o.width (product low high s)) :=
    (inStyle o .chained).unpacking.bitWrites_subset _ _
  unfold values helperWrites
  rw [← List.append_assoc, ← List.append_assoc, List.append_subset]
  exact ⟨List.subset_append_left _ _, List.subset_append_of_subset_right _ hbits⟩

/-- The chained style gives the shared names the same values. -/
theorem listed_inStyle {y : String} (hy : y ∈ sharedNames o) :
    listed ((unit, 1) :: values (inStyle o .linear) low high s) y =
      listed ((unit, 1) :: values (inStyle o .chained) low high s) y := by
  rw [← map_fst_linear o low high s] at hy
  exact listed_of_subset (List.cons_subset_cons _ (values_linear_subset o low high s))
    (nodup_values _ low high s) (nodup_values _ low high s) hy

theorem mem_chained {y : String} (hy : y ∈ sharedNames o) :
    y ∈ (statement (inStyle o .chained) low high).names := by
  refine (mentions_values _ low high 0 y).mpr ?_
  rw [← map_fst_linear o low high 0] at hy
  exact List.map_subset _ (List.cons_subset_cons _ (values_linear_subset o low high 0)) hy

end

/-! ## Outcomes -/

/-- Two checked range systems say the same: they have the same verdict and as many violated rows,
and a name of both has the same value in both, which is so for the names of the statement and for
the bits. -/
structure SameContent (o : Options) (C C' : CheckedSystem) : Prop where
  satisfied_eq : C.satisfied = C'.satisfied
  violated : ∃ rows rows',
    C.accepted.violatedRows C.system.witness C.system.inputs = .ok rows ∧
      C'.accepted.violatedRows C'.system.witness C'.system.inputs = .ok rows' ∧
      rows.length = rows'.length
  shared_iff : ∀ y, y ∈ C.system.names ∧ y ∈ C'.system.names ↔ y ∈ sharedNames o
  entry_eq : ∀ y ∈ sharedNames o, ∃ i j d, C.indexOf y = .ok i ∧ C'.indexOf y = .ok j ∧
    C.system.witness[i]? = some d ∧ C'.system.witness[j]? = some d

variable {v a b : Value} {low high s : Scalar}

theorem sameContent_of_fits (o : Options) (ha : a.scalar = .ok low) (hb : b.scalar = .ok high)
    (hle : low.toInt ≤ high.toInt) (hv : v.scalar = .ok s)
    (hfits : o.strict = true → Fits o.width (product low high s).toInt) :
    ∃ C C', outcome (circuit (inStyle o .linear) v a b) = .ok C ∧
      outcome (circuit (inStyle o .chained) v a b) = .ok C' ∧ SameContent o C C' := by
  let T := statement (inStyle o .linear) low high
  let T' := statement (inStyle o .chained) low high
  obtain ⟨C, hC, -, hnames, hwitness, hsatisfied⟩ :=
    outcome_of_fits (inStyle o .linear) ha hb hle hv hfits
  obtain ⟨C', hC', -, hnames', hwitness', hsatisfied'⟩ :=
    outcome_of_fits (inStyle o .chained) ha hb hle hv hfits
  refine ⟨C, C', hC, hC', ?_, ?_, ?_, ?_⟩
  · exact Bool.eq_iff_iff.mpr (hsatisfied.trans hsatisfied'.symm)
  · have hrows := Session.violatedRows_of_adds
      (adds_circuit (inStyle o .linear) ha hb hle hv hfits) hC
    have hrows' := Session.violatedRows_of_adds
      (adds_circuit (inStyle o .chained) ha hb hle hv hfits) hC'
    refine ⟨_, _, hrows, hrows', ?_⟩
    rw [length_falseRows, length_falseRows, failing_statement, failing_statement]
    rfl
  · intro y
    rw [hnames, hnames', ← Names.mem_def, ← Names.mem_def]
    constructor
    · intro hy
      exact (mem_linear_iff o low high y).mp hy.1
    · intro hy
      exact ⟨(mem_linear_iff o low high y).mpr hy, mem_chained o low high hy⟩
  · intro y hy
    have hmem : y ∈ T.names := (mem_linear_iff o low high y).mpr hy
    have hmem' : y ∈ T'.names := mem_chained o low high hy
    have hentry := T.getElem?_layout s hmem
    have hentry' := T'.getElem?_layout s hmem'
    rw [← hwitness] at hentry
    rw [← hwitness'] at hentry'
    have hvalue : listed ((unit, 1) :: T.values s) y = listed ((unit, 1) :: T'.values s) y :=
      listed_inStyle o low high s hy
    rw [hvalue] at hentry
    have hindex := CheckedSystem.indexOf_eq hnames hmem
    have hindex' := CheckedSystem.indexOf_eq hnames' hmem'
    exact ⟨_, _, _, hindex, hindex', hentry, hentry'⟩

/-- Whatever a range circuit is given, in both styles it fails for the same reason or its systems
say the same. -/
theorem styles_agree (o : Options) (v a b : Value) :
    (∃ f, outcome (circuit (inStyle o .linear) v a b) = .error f ∧
      outcome (circuit (inStyle o .chained) v a b) = .error f) ∨
    ∃ C C', outcome (circuit (inStyle o .linear) v a b) = .ok C ∧
      outcome (circuit (inStyle o .chained) v a b) = .ok C' ∧ SameContent o C C' := by
  cases hbounds : readBounds a b with
  | error f =>
    exact Or.inl ⟨f, outcome_of_bounds_refused _ v hbounds, outcome_of_bounds_refused _ v hbounds⟩
  | ok bounds =>
    obtain ⟨low, high⟩ := bounds
    obtain ⟨ha, hb, hle⟩ := scalars_of_readBounds hbounds
    cases hv : v.scalar with
    | error f =>
      exact Or.inl ⟨f, outcome_of_refused _ ha hb hle hv, outcome_of_refused _ ha hb hle hv⟩
    | ok s =>
      by_cases hfits : o.strict = true → Fits o.width (product low high s).toInt
      · exact Or.inr (sameContent_of_fits o ha hb hle hv hfits)
      · obtain ⟨hstrict, hnot⟩ := Classical.not_imp.mp hfits
        exact Or.inl ⟨_, outcome_of_not_fits (inStyle o .linear) ha hb hle hv hstrict hnot,
          outcome_of_not_fits (inStyle o .chained) ha hb hle hv hstrict hnot⟩

end RankOne.Range
