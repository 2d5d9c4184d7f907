import RankOne.Proofs.Session.Layout
import RankOne.Proofs.Violation

/-!
# What the secret does not change

A circuit makes its rows from the public values alone. So two secrets give the same system but for
the witness, and whether the width is checked makes no difference either. Anyone who has the public
values, and not the secret, can build the same rows over the same indices: publish the values, impose
the rows, and only the closing row is missing.
-/

namespace RankOne

/-! ## Public parts -/

namespace CheckedSystem

/-- The two systems are the same but for the witness and the verdict on it. -/
structure SamePublicPart (C C' : CheckedSystem) : Prop where
  accepted_eq : C.accepted = C'.accepted
  names_eq : C.system.names = C'.system.names
  rows_eq : C.system.rows = C'.system.rows
  inputs_eq : C.system.inputs = C'.system.inputs
  rowCount_eq : C.system.rowCount = C'.system.rowCount
  variableCount_eq : C.system.variableCount = C'.system.variableCount
  nonZero_eq : C.system.nonZero = C'.system.nonZero

/-- The operation leaves in a fresh session the names of the system, at the same indices, and the
entries of its matrices up to those of the closing row. -/
def RebuiltBy (C : CheckedSystem) (c : Build Unit) : Prop :=
  ∃ s, c Session.fresh = .ok () s ∧ s.closed = false ∧ s.names.toList = C.system.names ∧
    (∀ x ∈ s.names, C.indexOf x = .ok (s.names.position x)) ∧
    ∀ m, C.accepted.matrix m = entries m s.rows ++
      [⟨s.rows.length, (if m = .C then 0 else s.names.size : ℕ), (1 : Scalar).encode⟩]

end CheckedSystem

namespace Session

variable {c c' : Build Unit} {gs : List (Gate Scalar)} {ws ws' : List (String × Scalar)}
  {C C' : CheckedSystem}

/-- Circuits that add the same gates differ in the witness only. -/
theorem samePublicPart_of_adds (hadds : Adds c fresh gs ws) (hadds' : Adds c' fresh gs ws')
    (hC : outcome c = .ok C) (hC' : outcome c' = .ok C') : C.SamePublicPart C' := by
  obtain ⟨hS, haccepted⟩ := system_of_adds hadds hC
  obtain ⟨hS', haccepted'⟩ := system_of_adds hadds' hC'
  have hnames : C.system.names = C'.system.names := by rw [hS, hS']; rfl
  have hrows : C.system.rows = C'.system.rows := by rw [hS, hS']; rfl
  constructor
  case accepted_eq => rw [haccepted, haccepted', hS, hS']; rfl
  case names_eq => exact hnames
  case rows_eq => exact hrows
  case inputs_eq => rw [hS, hS']; rfl
  case rowCount_eq => exact congrArg List.length hrows
  case variableCount_eq => exact congrArg List.length hnames
  case nonZero_eq => exact congrArg nonZeroCount hrows

/-- Whatever adds the gates of a circuit to a fresh session rebuilds its system. -/
theorem rebuiltBy_of_adds (hadds : Adds c fresh gs ws) (hadds' : Adds c' fresh gs ws')
    (hC : outcome c = .ok C) : C.RebuiltBy c' := by
  obtain ⟨hS, haccepted⟩ := system_of_adds hadds hC
  obtain ⟨_, s, hrun, hext⟩ := hadds'
  have hregular : s.Regular := hext.grows.regular regular_fresh
  have hnames : s.names = (ofGates gs).names := hext.names_eq
  have hgates : s.gates = (ofGates gs).gates := hext.gates_eq
  have hsystem : C.system = s.system C.system.witness := by
    rw [hS, system, system, hnames, hgates]
  have hrows : s.rows = s.gateRows := by
    have hopen : s.closing? = none := hext.closing_eq
    rw [rows, hopen]
    exact List.append_nil _
  have hlist : C.system.names = s.names.toList := by rw [hsystem]; rfl
  refine ⟨s, hrun, hext.closed_eq, hlist.symm, ?_, ?_⟩
  · exact fun x hx => CheckedSystem.indexOf_eq hlist hx
  · intro m
    rw [haccepted, hsystem, hrows]
    exact matrix_system hregular _ m

end Session

/-! ## Range circuits -/

namespace Range

/-- The rows of a statement depend on the number of bits and the style. -/
theorem gates_eq_of_options {o o' : Options} (hbits : o.valueBits = o'.valueBits)
    (hstyle : o.style = o'.style) (low high : Scalar) :
    (statement o low high).gates = (statement o' low high).gates := by
  have hlenient : lenient o = lenient o' := by
    unfold lenient
    congr 1
  rw [← gates_lenient o, ← gates_lenient o', hlenient]

variable {o o' : Options} {v v' a b : Value} {C C' : CheckedSystem}

theorem same_and_rebuilt (hbits : o.valueBits = o'.valueBits) (hstyle : o.style = o'.style)
    (hC : outcome (circuit o v a b) = .ok C) (hC' : outcome (circuit o' v' a b) = .ok C') :
    C.SamePublicPart C' ∧ C.RebuiltBy (publicPart o' a b) := by
  obtain ⟨low, high, s, ha, hb, hle, hv, hfits⟩ := read_of_outcome hC
  obtain ⟨low', high', s', ha', hb', -, hv', hfits'⟩ := read_of_outcome hC'
  obtain rfl := Except.ok.inj (ha.symm.trans ha')
  obtain rfl := Except.ok.inj (hb.symm.trans hb')
  have hadds := adds_circuit o ha hb hle hv hfits
  rw [gates_eq_of_options hbits hstyle] at hadds
  have hadds' := adds_circuit o' ha hb hle hv' hfits'
  exact ⟨Session.samePublicPart_of_adds hadds hadds' hC hC',
    Session.rebuiltBy_of_adds hadds (adds_publicPart o' ha hb) hC⟩

end Range

/-! ## Membership circuits -/

namespace Membership

variable {v v' : Value} {elements : List Value} {C C' : CheckedSystem}

theorem same_and_rebuilt (hC : outcome (circuit v elements) = .ok C)
    (hC' : outcome (circuit v' elements) = .ok C') :
    C.SamePublicPart C' ∧ C.RebuiltBy (opening elements) := by
  obtain ⟨es, s, hread, hne, hv⟩ := read_of_outcome hC
  obtain ⟨_, s', _, _, hv'⟩ := read_of_outcome hC'
  have hadds := adds_circuit hread hne hv
  have hadds' := adds_circuit hread hne hv'
  exact ⟨Session.samePublicPart_of_adds hadds hadds' hC hC',
    Session.rebuiltBy_of_adds hadds (adds_opening hread hne) hC⟩

end Membership

/-- Circuits about the same public values have the same public part whatever their secrets are, and
it can be rebuilt from the public values. For a range it does not matter either whether the width is
checked. -/
theorem publicPart_independent_of_secret :
    (∀ (o o' : Range.Options) (v v' a b : Value) (C C' : CheckedSystem),
      o.valueBits = o'.valueBits → o.style = o'.style →
      outcome (Range.circuit o v a b) = .ok C → outcome (Range.circuit o' v' a b) = .ok C' →
      C.SamePublicPart C' ∧ C.RebuiltBy (Range.publicPart o' a b)) ∧
    ∀ (v v' : Value) (elements : List Value) (C C' : CheckedSystem),
      outcome (Membership.circuit v elements) = .ok C →
      outcome (Membership.circuit v' elements) = .ok C' →
      C.SamePublicPart C' ∧ C.RebuiltBy (Membership.opening elements) :=
  ⟨fun _ _ _ _ _ _ _ _ hbits hstyle hC hC' => Range.same_and_rebuilt hbits hstyle hC hC',
    fun _ _ _ _ _ hC hC' => Membership.same_and_rebuilt hC hC'⟩

/-- A secret inside a range and one outside, of which only the first one is checked for its width,
and a secret that is an element and one that is not. -/
theorem publicPart_independent_of_secret_unsatisfied :
    (∃ C C', outcome (Range.circuit .standard (.integer 3) (.integer 2) (.integer 5)) = .ok C ∧
      outcome (Range.circuit (Range.lenient .standard) (.integer 7) (.integer 2) (.integer 5)) =
        .ok C' ∧
      C.satisfied = true ∧ C'.satisfied = false ∧ C.SamePublicPart C' ∧
      C.RebuiltBy (Range.publicPart (Range.lenient .standard) (.integer 2) (.integer 5))) ∧
    ∃ C C', outcome (Membership.circuit (.integer 1) [.integer 1, .integer 2]) = .ok C ∧
      outcome (Membership.circuit (.integer 4) [.integer 1, .integer 2]) = .ok C' ∧
      C.satisfied = true ∧ C'.satisfied = false ∧ C.SamePublicPart C' ∧
      C.RebuiltBy (Membership.opening [.integer 1, .integer 2]) := by
  have hread : Membership.Read [.integer 1, .integer 2] [1, 2] := .cons rfl (.cons rfl .nil)
  obtain ⟨hrange, hmembership⟩ := publicPart_independent_of_secret
  constructor
  · obtain ⟨C, hC, -, -, -, hbetween⟩ :=
      Range.outcome_of_fits .standard (v := .integer 3) (a := .integer 2) (b := .integer 5) rfl rfl
        (by decide) rfl fun _ => by decide
    obtain ⟨C', hC', -, -, -, hbetween'⟩ :=
      Range.outcome_of_fits (Range.lenient .standard) (v := .integer 7) (a := .integer 2)
        (b := .integer 5) rfl rfl (by decide) rfl fun hstrict => nomatch hstrict
    obtain ⟨hsame, hrebuilt⟩ :=
      hrange .standard (Range.lenient .standard) _ _ _ _ C C' rfl rfl hC hC'
    refine ⟨C, C', hC, hC', hbetween.mpr ⟨by decide, by decide⟩, ?_, hsame, hrebuilt⟩
    exact Bool.eq_false_iff.mpr fun h => absurd (hbetween'.mp h).1 (by decide)
  · obtain ⟨C, hC, -, -, -, hmember⟩ :=
      Membership.outcome_of_read (v := .integer 1) (s := 1) hread (List.cons_ne_nil _ _) rfl
    obtain ⟨C', hC', -, -, -, hmember'⟩ :=
      Membership.outcome_of_read (v := .integer 4) (s := 4) hread (List.cons_ne_nil _ _) rfl
    obtain ⟨hsame, hrebuilt⟩ := hmembership _ _ _ C C' hC hC'
    refine ⟨C, C', hC, hC', hmember.mpr (by decide), ?_, hsame, hrebuilt⟩
    exact Bool.eq_false_iff.mpr fun h => absurd (hmember'.mp h) (by decide)

end RankOne
