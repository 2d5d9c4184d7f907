import RankOne.Proofs.Names
import RankOne.Proofs.System.Evaluation

/-!
# What a closed session states

Closing a session whose gates mention no name without an index gives a well-formed system. A
vector of values, one for each index, gives every name of the session a value, and it satisfies the
system exactly when it gives `unit` the value one and every gate's equation holds.
-/

namespace RankOne

namespace Session

/-- Every name that a gate mentions has an index, and so has `unit`. -/
structure Covered (s : Session) : Prop where
  unit_mem : unit ∈ s.names
  mentioned : ∀ g ∈ s.gates, ∀ x ∈ g.names, x ∈ s.names

/-- The system that a session closes to, for a witness laid out as the given values. -/
def system (s : Session) (values : List Bytes) : System :=
  ⟨s.names.toList, s.gates.map (fun g => g.row.map s.names.position) ++ [closingRow s.names],
    values, []⟩

variable {s : Session}

theorem close_of_open (hopen : s.closed = false) {values : List Bytes}
    (hvalues : s.witness.layOut s.names = .ok values) :
    close s = .ok (s.system values) { s with closing? := some (closingRow s.names) } := by
  simp only [close, hopen, hvalues]
  rfl

theorem places_map_position (t : Names) (g : Gate Scalar) :
    (g.row.map t.position).places = g.names.map t.position := by
  simp [Row.places, Row.map, Gate.names, List.map_map, Function.comp_def]

/-- The rows of gates stay within the variables. -/
theorem within_row (h : s.Covered) {g : Gate Scalar} (hg : g ∈ s.gates) :
    (g.row.map s.names.position).Within s.names.size := by
  intro j hj
  rw [places_map_position] at hj
  obtain ⟨x, hx, rfl⟩ := List.mem_map.mp hj
  exact Names.position_lt (h.mentioned g hg x hx)

theorem system_wellFormed (h : s.Covered) (values : List Bytes) : (s.system values).WellFormed where
  rows_ne_nil := List.append_ne_nil_of_right_ne_nil _ (List.cons_ne_nil _ _)
  names_ne_nil := List.ne_nil_of_mem h.unit_mem
  inputs_eq_nil := rfl
  within := by
    intro r hr j hj
    show j < s.names.size + 1
    rcases List.mem_append.mp hr with hg | hclosing
    · obtain ⟨g, hmem, rfl⟩ := List.mem_map.mp hg
      have hlt := within_row h hmem j hj
      omega
    · rw [List.mem_singleton.mp hclosing] at hj
      have hunit := Names.position_lt h.unit_mem
      have hplaces : j = s.names.size ∨ j = s.names.position unit := by
        simpa [closingRow, Row.places] using hj
      omega

theorem getD_concat_one {vs : List Scalar} {t : Names} (hvs : vs.length = t.size) {x : String}
    (hx : x ∈ t) : (vs ++ [1]).getD (t.position x) 0 = t.valuation vs x := by
  have hlt : t.position x < vs.length := hvs ▸ Names.position_lt hx
  rw [List.getD_append _ _ _ _ hlt]
  rfl

/-- The row of a gate says about a vector what the gate says about the values of names. -/
theorem holds_row_map {vs : List Scalar} {t : Names} (hvs : vs.length = t.size)
    (hunit : t.valuation vs unit = 1) {g : Gate Scalar} (hg : ∀ x ∈ g.names, x ∈ t) :
    (g.row.map t.position).Holds ((vs ++ [1]).getD · 0) ↔ g.Holds (t.valuation vs) := by
  rw [Row.holds_map, ← Gate.holds_row hunit]
  apply Row.holds_congr
  intro x hx
  exact getD_concat_one hvs (hg x hx)

/-- The closing row compares `unit` with the constant. -/
theorem holds_closingRow {vs : List Scalar} {t : Names} (hvs : vs.length = t.size)
    (hunit : unit ∈ t) :
    (closingRow t).Holds ((vs ++ [1]).getD · 0) ↔ t.valuation vs unit = 1 := by
  have hconstant : (vs ++ [1]).getD t.size 0 = 1 := by
    rw [← hvs, List.getD_append_right _ _ _ _ (Nat.le_refl _), Nat.sub_self]
    rfl
  have hone := getD_concat_one hvs hunit
  simp only [Row.Holds, closingRow, Combination.eval_cons, Combination.eval_nil, hconstant, hone,
    one_mul, add_zero]
  exact eq_comm

/-- The vector satisfies the system of a session when `unit` is one and all gates hold. -/
theorem holdsFor_system (h : s.Covered) (values : List Bytes) {vs : List Scalar}
    (hvs : vs.length = s.names.size) :
    (s.system values).toShape.holdsFor (vs.map Scalar.encode) [] =
      .ok (decide (s.names.valuation vs unit = 1 ∧
        ∀ g ∈ s.gates, g.Holds (s.names.valuation vs))) := by
  rw [System.holdsFor_toShape (system_wellFormed h values) hvs]
  congr 1
  apply decide_eq_decide.mpr
  show (∀ r ∈ s.gates.map (fun g => g.row.map s.names.position) ++ [closingRow s.names], _) ↔ _
  rw [List.forall_mem_append, List.forall_mem_map, List.forall_mem_singleton,
    holds_closingRow hvs h.unit_mem, and_comm]
  apply and_congr_right
  intro hunit
  apply forall₂_congr
  intro g hg
  exact holds_row_map hvs hunit (h.mentioned g hg)

end Session

end RankOne
