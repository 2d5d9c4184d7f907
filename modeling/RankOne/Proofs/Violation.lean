import RankOne.Proofs.Refusal
import RankOne.Proofs.Session.History

/-!
# The rows that a computed witness violates

A circuit that succeeds has computed a witness, and its system may be satisfied or not. If it is
not, the witness violates the row that states the property, and every row that builds a helper
holds. So a violated row of another kind would be a defect of the construction. Without the check of
the width there is one more row that may fail, the last one of the unpacking: it does so just when
the product does not fit.
-/

namespace RankOne

/-- Row `k` of the system is that of the gate. -/
def System.HasRow (S : System) (k : ℕ) (g : Gate Scalar) : Prop :=
  S.rows[k]? = some (g.row.map S.names.idxOf)

namespace CheckedSystem

/-- The witness violates no row but row `k`, if any, which is that of the gate. -/
structure FailsOnlyAt (C : CheckedSystem) (k : ℕ) (g : Gate Scalar) : Prop where
  accepted_eq : C.accepted = C.system.toShape
  row : C.system.HasRow k g
  violated : C.accepted.violatedRows C.system.witness C.system.inputs = .ok [] ∨
    C.accepted.violatedRows C.system.witness C.system.inputs = .ok [k]

/-- The witness violates no row but row `k` and the next one, if any, which are those of the gates.
It violates row `k` just under the condition. -/
structure FailsOnlyAmong (C : CheckedSystem) (k : ℕ) (g g' : Gate Scalar) (condition : Prop) :
    Prop where
  accepted_eq : C.accepted = C.system.toShape
  row : C.system.HasRow k g
  next_row : C.system.HasRow (k + 1) g'
  violated : ∃ rows, C.accepted.violatedRows C.system.witness C.system.inputs = .ok rows ∧
    rows.Sublist [k, k + 1] ∧ (k ∈ rows ↔ condition)

end CheckedSystem

/-! ## Circuits by their gates -/

namespace Session

variable {c : Build Unit} {gs : List (Gate Scalar)} {ws : List (String × Scalar)}
  {C : CheckedSystem}

theorem rowCount_of_adds (hadds : Adds c fresh gs ws) (hC : outcome c = .ok C) :
    C.system.rowCount = gs.length + 1 := by
  obtain ⟨-, last, hrows⟩ := rows_of_adds hadds hC
  simp [System.rowCount, hrows]

theorem hasRow_of_adds (hadds : Adds c fresh gs ws) (hC : outcome c = .ok C) {k : ℕ}
    {g : Gate Scalar} (hg : gs[k]? = some g) : C.system.HasRow k g := by
  obtain ⟨-, last, hrows⟩ := rows_of_adds hadds hC
  obtain ⟨hk, -⟩ := List.getElem?_eq_some_iff.mp hg
  rw [System.HasRow, hrows, List.getElem?_append_left (by rwa [List.length_map]),
    List.getElem?_map, hg]
  rfl

/-- When all gates but the last one hold for the values, the row of the last one may fail, which is
the row before the closing row. -/
theorem failsOnlyAt_of_adds {g : Gate Scalar} (hadds : Adds c fresh (gs ++ [g]) ws)
    (hholds : ∀ g' ∈ gs, g'.Holds (listed ((unit, 1) :: ws))) (hC : outcome c = .ok C) :
    gs.length + 2 = C.system.rowCount ∧ C.FailsOnlyAt gs.length g := by
  have hcount := rowCount_of_adds hadds hC
  have hviolated := violatedRows_of_adds hadds hC
  rw [List.length_append, List.length_singleton] at hcount
  rw [falseRows_concat, falseRows_eq_nil hholds, List.nil_append] at hviolated
  refine ⟨hcount.symm, (rows_of_adds hadds hC).1, ?_, ?_⟩
  · exact hasRow_of_adds hadds hC List.getElem?_concat_length
  · rw [hviolated]
    split
    · exact Or.inl rfl
    · exact Or.inr rfl

theorem failsOnlyAmong_of_adds {g g' : Gate Scalar} {condition : Prop}
    (hadds : Adds c fresh (gs ++ [g] ++ [g']) ws)
    (hholds : ∀ g'' ∈ gs, g''.Holds (listed ((unit, 1) :: ws)))
    (hcondition : g.Holds (listed ((unit, 1) :: ws)) ↔ ¬condition) (hC : outcome c = .ok C) :
    gs.length + 3 = C.system.rowCount ∧ C.FailsOnlyAmong gs.length g g' condition := by
  have hlength : (gs ++ [g]).length = gs.length + 1 := by
    rw [List.length_append, List.length_singleton]
  have hcount := rowCount_of_adds hadds hC
  rw [List.length_append, List.length_singleton, hlength] at hcount
  have hfirst : (gs ++ [g] ++ [g'])[gs.length]? = some g := by simp
  have hsecond : (gs ++ [g] ++ [g'])[gs.length + 1]? = some g' :=
    hlength ▸ List.getElem?_concat_length
  refine ⟨hcount.symm, (rows_of_adds hadds hC).1, hasRow_of_adds hadds hC hfirst,
    hasRow_of_adds hadds hC hsecond, _, violatedRows_of_adds hadds hC, ?_, ?_⟩
  · rw [falseRows_concat, falseRows_concat, falseRows_eq_nil hholds, List.nil_append, hlength]
    split <;> split <;> simp
  · rw [mem_falseRows, hfirst]
    simp [hcondition]

end Session

/-! ## Membership circuits -/

namespace Membership

variable {v : Value} {elements : List Value} {C : CheckedSystem}

theorem read_of_outcome (hC : outcome (circuit v elements) = .ok C) :
    ∃ es s, Read elements es ∧ es ≠ [] ∧ v.scalar = .ok s := by
  have hnot : ∀ f, ¬Refused v elements f := by
    intro f hf
    rw [outcome_of_reason hf] at hC
    cases hC
  have hne : elements ≠ [] := fun h => hnot _ (.empty h)
  have hall : ∀ e ∈ elements, e.Admitted := by
    by_contra h
    obtain ⟨before, e, after, hsplit, hbefore, he⟩ := Value.exists_first_refused h
    exact hnot _ (.element hsplit hbefore he)
  have hv : v.Admitted := by
    by_contra h
    exact hnot _ (.secret hne hall h)
  obtain ⟨es, hes⟩ := Value.exists_read hall
  obtain ⟨s, hs⟩ := hv
  exact ⟨es, s, hes, hes.ne_nil_iff.mp hne, hs⟩

theorem failsOnlyAt_lastProduct (hC : outcome (circuit v elements) = .ok C) :
    ∃ k, k + 2 = C.system.rowCount ∧
      C.FailsOnlyAt k (.constant (runningVar secretVar (elements.length - 1)) 0) := by
  obtain ⟨es, s, hread, hne, hv⟩ := read_of_outcome hC
  have hadds := adds_circuit hread hne hv
  obtain ⟨gs, hgates, hholds⟩ := gates_eq_concat hne ((statement es hne).agrees_listed s)
  rw [hgates] at hadds
  rw [hread.length_eq]
  exact ⟨gs.length, Session.failsOnlyAt_of_adds hadds hholds hC⟩

end Membership

/-! ## Range circuits -/

namespace Range

variable {o : Options} {v a b : Value} {C : CheckedSystem}

theorem read_of_outcome (hC : outcome (circuit o v a b) = .ok C) :
    ∃ low high s, a.scalar = .ok low ∧ b.scalar = .ok high ∧ low.toInt ≤ high.toInt ∧
      v.scalar = .ok s ∧ (o.strict = true → Fits o.width (product low high s).toInt) := by
  cases hbounds : readBounds a b with
  | error f =>
    rw [outcome_of_bounds_refused o v hbounds] at hC
    cases hC
  | ok bounds =>
    obtain ⟨ha, hb, hle⟩ := scalars_of_readBounds hbounds
    obtain ⟨s, hv, hfits⟩ := secret_of_outcome o ha hb hle hC
    exact ⟨_, _, s, ha, hb, hle, hv, hfits⟩

/-- A circuit that succeeds adds rows that hold, and after them the last row of the unpacking and
the row of the sign. -/
theorem adds_of_outcome (hC : outcome (circuit o v a b) = .ok C) :
    ∃ low high s, a.scalar = .ok low ∧ b.scalar = .ok high ∧ v.scalar = .ok s ∧
      (o.strict = true → Fits o.width (product low high s).toInt) ∧ ∃ gs ws,
        Session.Adds (circuit o v a b) Session.fresh
          (gs ++ [o.unpacking.reconstruction (productVar secretVar)] ++
            [.constant (o.unpacking.signVar (productVar secretVar)) 0]) ws ∧
        (∀ g ∈ gs, g.Holds (listed ((unit, 1) :: ws))) ∧
        ((o.unpacking.reconstruction (productVar secretVar)).Holds (listed ((unit, 1) :: ws)) ↔
          Fits o.width (product low high s).toInt) := by
  obtain ⟨low, high, s, ha, hb, hle, hv, hfits⟩ := read_of_outcome hC
  have hadds := adds_circuit o ha hb hle hv hfits
  obtain ⟨gs, hgates, hholds, hreconstruction, -⟩ :=
    gates_eq_concat o low high s ((statement o low high).agrees_listed s)
  rw [hgates] at hadds
  exact ⟨low, high, s, ha, hb, hv, hfits, gs, _, hadds, hholds, hreconstruction⟩

theorem failsOnlyAt_sign (hstrict : o.strict = true) (hC : outcome (circuit o v a b) = .ok C) :
    ∃ k, k + 2 = C.system.rowCount ∧
      C.FailsOnlyAt k (.constant (o.unpacking.signVar (productVar secretVar)) 0) := by
  obtain ⟨low, high, s, -, -, -, hfits, gs, ws, hadds, hholds, hreconstruction⟩ :=
    adds_of_outcome hC
  refine ⟨_, Session.failsOnlyAt_of_adds hadds ?_ hC⟩
  rw [List.forall_mem_append, List.forall_mem_singleton]
  exact ⟨hholds, hreconstruction.mpr (hfits hstrict)⟩

theorem failsOnlyAmong_reconstruction_sign (hC : outcome (circuit o v a b) = .ok C) :
    ∃ low high s k, a.scalar = .ok low ∧ b.scalar = .ok high ∧ v.scalar = .ok s ∧
      k + 3 = C.system.rowCount ∧
      C.FailsOnlyAmong k (o.unpacking.reconstruction (productVar secretVar))
        (.constant (o.unpacking.signVar (productVar secretVar)) 0)
        (¬Fits o.width (product low high s).toInt) := by
  obtain ⟨low, high, s, ha, hb, hv, -, gs, ws, hadds, hholds, hreconstruction⟩ :=
    adds_of_outcome hC
  refine ⟨low, high, s, _, ha, hb, hv, Session.failsOnlyAmong_of_adds hadds hholds ?_ hC⟩
  rw [hreconstruction, not_not]

end Range

/-- What a witness violates is the property and never the construction. A membership circuit can
fail only in the row that makes the last product zero, and a range circuit that checks the width
only in the row that makes the sign zero. A range circuit of any kind can fail only in that row and
in the last row of the unpacking, and in the latter just when the product does not fit. -/
theorem violations_state_property :
    (∀ (v : Value) (elements : List Value) (C : CheckedSystem),
      outcome (Membership.circuit v elements) = .ok C →
      ∃ k, k + 2 = C.system.rowCount ∧ C.FailsOnlyAt k
        (.constant (Membership.runningVar Membership.secretVar (elements.length - 1)) 0)) ∧
    (∀ (o : Range.Options) (v a b : Value) (C : CheckedSystem), o.strict = true →
      outcome (Range.circuit o v a b) = .ok C →
      ∃ k, k + 2 = C.system.rowCount ∧ C.FailsOnlyAt k
        (.constant (o.unpacking.signVar (Range.productVar Range.secretVar)) 0)) ∧
    ∀ (o : Range.Options) (v a b : Value) (C : CheckedSystem),
      outcome (Range.circuit o v a b) = .ok C →
      ∃ low high s k, a.scalar = .ok low ∧ b.scalar = .ok high ∧ v.scalar = .ok s ∧
        k + 3 = C.system.rowCount ∧
        C.FailsOnlyAmong k (o.unpacking.reconstruction (Range.productVar Range.secretVar))
          (.constant (o.unpacking.signVar (Range.productVar Range.secretVar)) 0)
          (¬Fits o.width (Range.product low high s).toInt) :=
  ⟨fun _ _ _ hC => Membership.failsOnlyAt_lastProduct hC,
    fun _ _ _ _ _ hstrict hC => Range.failsOnlyAt_sign hstrict hC,
    fun _ _ _ _ _ hC => Range.failsOnlyAmong_reconstruction_sign hC⟩

/-- A secret that is no element, one outside a range, and one inside a range whose product does not
fit the width. -/
theorem violations_state_property_unsatisfied :
    (∃ C, outcome (Membership.circuit (.integer 4) [.integer 1, .integer 2]) = .ok C ∧
      C.satisfied = false ∧ ∃ k, k + 2 = C.system.rowCount ∧ C.FailsOnlyAt k
        (.constant (Membership.runningVar Membership.secretVar 1) 0)) ∧
    (∃ C, outcome (Range.circuit .standard (.integer 7) (.integer 2) (.integer 5)) = .ok C ∧
      C.satisfied = false ∧ ∃ k, k + 2 = C.system.rowCount ∧ C.FailsOnlyAt k
        (.constant (Range.Options.standard.unpacking.signVar
          (Range.productVar Range.secretVar)) 0)) ∧
    ∃ C, outcome (Range.circuit (Range.lenient .standard) (.integer (2 ^ 124)) (.integer 0)
        (.integer (2 ^ 125))) = .ok C ∧
      ∃ rows k, C.accepted.violatedRows C.system.witness C.system.inputs = .ok rows ∧
        k + 3 = C.system.rowCount ∧ k ∈ rows := by
  have hread : Membership.Read [.integer 1, .integer 2] [1, 2] := .cons rfl (.cons rfl .nil)
  obtain ⟨C, hC, -, -, -, hmember⟩ :=
    Membership.outcome_of_read (v := .integer 4) (s := 4) hread (List.cons_ne_nil _ _) rfl
  obtain ⟨C', hC', -, -, -, hbetween⟩ :=
    Range.outcome_of_fits .standard (v := .integer 7) (a := .integer 2) (b := .integer 5) rfl rfl
      (by decide) rfl (fun _ => by decide)
  obtain ⟨C'', hC'', -⟩ :=
    Range.outcome_of_fits (Range.lenient .standard) (v := .integer (2 ^ 124)) (a := .integer 0)
      (b := .integer (2 ^ 125)) rfl rfl (by decide) rfl fun hstrict => nomatch hstrict
  obtain ⟨hmembership, hrange, hany⟩ := violations_state_property
  refine ⟨⟨C, hC, ?_, hmembership _ _ C hC⟩, ⟨C', hC', ?_, hrange _ _ _ _ C' rfl hC'⟩, C'', hC'', ?_⟩
  · exact Bool.eq_false_iff.mpr fun h => absurd (hmember.mp h) (by decide)
  · exact Bool.eq_false_iff.mpr fun h => absurd (hbetween.mp h).1 (by decide)
  · obtain ⟨low, high, s, k, ha, hb, hv, hcount, hfails⟩ := hany _ _ _ _ C'' hC''
    obtain rfl := Except.ok.inj ha
    obtain rfl := Except.ok.inj hb
    obtain rfl := Except.ok.inj hv
    obtain ⟨rows, hrows, -, hmem⟩ := hfails.violated
    exact ⟨rows, k, hrows, hcount, hmem.mpr (by decide)⟩

end RankOne
