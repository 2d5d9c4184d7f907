import RankOne.SelfCheck
import RankOne.Proofs.Gate.Equation
import RankOne.Proofs.Shape.Admission

/-!
# Rows of a closed system and rows of its shape

The entries that are read off the rows of a system are those of the rows, so the shape of a system
holds for a vector in exactly the rows that hold for it. A system whose rows stay within its
variables and the constant passes the check of its shape. Systems are evaluated without limits; on a
machine that can hold their rows and names nothing changes.
-/

namespace RankOne

/-- Every place of the row is one of so many columns. -/
def Row.Within (columns : ℕ) (r : Row ℕ) : Prop := ∀ j ∈ r.places, j < columns

theorem Row.fst_mem_places {ι : Type} {r : Row ι} {m : Matrix} {t : ι × Scalar}
    (h : t ∈ r.terms m) : t.1 ∈ r.places := by
  unfold places
  apply List.mem_map_of_mem
  rw [List.mem_append, List.mem_append]
  cases m with
  | A => exact Or.inl (Or.inl h)
  | B => exact Or.inl (Or.inr h)
  | C => exact Or.inr h

/-! ## Entries -/

theorem entries_concat (m : Matrix) (rows : List (Row ℕ)) (r : Row ℕ) :
    entries m (rows ++ [r]) =
      entries m rows ++ (r.terms m).map fun t => ⟨rows.length, t.1, t.2.encode⟩ := by
  simp [entries, List.zipIdx_append]

theorem mem_entries {m : Matrix} {rows : List (Row ℕ)} {e : Entry} (h : e ∈ entries m rows) :
    ∃ (k : ℕ) (hk : k < rows.length), ∃ t ∈ rows[k].terms m, e = ⟨k, t.1, t.2.encode⟩ := by
  simp only [entries, List.mem_flatMap, List.mem_map] at h
  obtain ⟨⟨r, k⟩, hr, t, ht, he⟩ := h
  obtain ⟨hk, hrk⟩ := List.getElem?_eq_some_iff.mp (List.mem_zipIdx_iff_getElem?.mp hr)
  refine ⟨k, hk, t, ?_, he.symm⟩
  rw [hrk]
  exact ht

theorem entry_inside {m : Matrix} {rows : List (Row ℕ)} {columns : ℕ}
    (hwithin : ∀ r ∈ rows, r.Within columns) {e : Entry} (he : e ∈ entries m rows) :
    e.Inside rows.length columns := by
  obtain ⟨k, hk, t, ht, rfl⟩ := mem_entries he
  have hcol := hwithin rows[k] (List.getElem_mem hk) t.1 (Row.fst_mem_places ht)
  constructor
  · constructor
    · exact Int.natCast_nonneg k
    · exact Int.ofNat_lt.mpr hk
  · constructor
    · exact Int.natCast_nonneg t.1
    · exact Int.ofNat_lt.mpr hcol

theorem rowSum_terms (z : ℕ → Scalar) (k : ℕ) (c : Combination ℕ) :
    rowSum z (c.map fun t => ⟨k, t.1, t.2.encode⟩) k = c.eval z := by
  induction c with
  | nil => rfl
  | cons t c ih =>
    rw [List.map_cons, rowSum_cons, ih, if_pos rfl, Scalar.bytesValue_encode, Scalar.ofNat_val,
      Combination.eval_cons]
    rfl

/-- The entries of row `k` add up to the value of the row's side of that matrix. -/
theorem rowSum_entries (z : ℕ → Scalar) (m : Matrix) (rows : List (Row ℕ)) {k : ℕ}
    (hk : k < rows.length) : rowSum z (entries m rows) k = (rows[k].terms m).eval z := by
  induction rows using List.reverseRecOn with
  | nil => simp at hk
  | append_singleton rows r ih =>
    rw [entries_concat, rowSum_append]
    by_cases hlast : k = rows.length
    · -- the rows before have smaller numbers
      have hbefore : rowSum z (entries m rows) k = 0 := by
        apply rowSum_eq_zero
        intro e he
        obtain ⟨i, hi, t, _, rfl⟩ := mem_entries he
        show (i : ℤ) ≠ k
        omega
      subst hlast
      rw [hbefore, zero_add, rowSum_terms, List.getElem_concat_length rfl]
    · have hlt : k < rows.length := by
        rw [List.length_append, List.length_singleton] at hk
        omega
      have hafter : rowSum z ((r.terms m).map fun t => ⟨rows.length, t.1, t.2.encode⟩) k = 0 := by
        apply rowSum_eq_zero
        intro e he
        obtain ⟨t, _, rfl⟩ := List.mem_map.mp he
        show (rows.length : ℤ) ≠ k
        omega
      rw [hafter, add_zero, ih hlt, List.getElem_append_left hlt]

/-! ## The shape of a system -/

namespace System

theorem matrix_toShape (S : System) (m : Matrix) : S.toShape.matrix m = entries m S.rows := by
  cases m <;> rfl

/-- Dimensions and rows as a session leaves them. -/
structure WellFormed (S : System) : Prop where
  rows_ne_nil : S.rows ≠ []
  names_ne_nil : S.names ≠ []
  inputs_eq_nil : S.inputs = []
  within : ∀ r ∈ S.rows, r.Within (S.variableCount + 1)

variable {S : System}

theorem rowHolds_toShape (z : ℕ → Scalar) {k : ℕ} (hk : k < S.rows.length) :
    S.toShape.RowHolds z k ↔ S.rows[k].Holds z := by
  have h := fun m => rowSum_entries z m S.rows hk
  show rowSum z (entries .A S.rows) k * rowSum z (entries .B S.rows) k =
    rowSum z (entries .C S.rows) k ↔ _
  rw [h, h, h]
  rfl

theorem admissible_toShape (h : S.WellFormed) : S.toShape.Admissible := by
  have hr : 0 < S.rows.length := List.length_pos_of_ne_nil h.rows_ne_nil
  have hn : 0 < S.names.length := List.length_pos_of_ne_nil h.names_ne_nil
  have hinside : ∀ m, ∀ e ∈ S.toShape.matrix m, e.Inside S.rowCount (S.variableCount + 1) := by
    intro m e he
    rw [matrix_toShape] at he
    exact entry_inside h.within he
  constructor
  case rowCount_pos => exact Int.natCast_pos.mpr hr
  case variableCount_pos => exact Int.natCast_pos.mpr hn
  case inputCount_nonneg => exact Int.natCast_nonneg S.inputs.length
  case row_inside => exact fun m e he => (hinside m e he).1
  case column_inside =>
    intro m e he
    have hcolumns : S.toShape.variableCount + 1 + S.toShape.inputCount =
        ((S.variableCount + 1 : ℕ) : ℤ) := by
      simp [toShape, h.inputs_eq_nil]
    rw [hcolumns]
    exact (hinside m e he).2
  case coefficient_written =>
    intro m e he
    rw [matrix_toShape] at he
    obtain ⟨k, hk, t, -, rfl⟩ := mem_entries he
    exact written_encode t.2

theorem accept_eq (h : S.WellFormed) : S.accept = .ok S.toShape :=
  Shape.check_of_admissible none (admissible_toShape h)

/-- Encoded values of the variables can be assigned; there are no inputs. -/
theorem assignable_toShape (h : S.WellFormed) {vs : List Scalar}
    (hvs : vs.length = S.variableCount) : S.toShape.Assignable (vs.map Scalar.encode) [] := by
  constructor
  case values_length => exact congrArg Nat.cast ((List.length_map _).trans hvs)
  case inputs_length => exact congrArg (fun us : List Bytes => (us.length : ℤ)) h.inputs_eq_nil.symm
  case values_written => exact List.forall_mem_map.mpr fun v _ => written_encode v
  case inputs_written => exact List.forall_mem_nil _

theorem violatedRows_toShape (h : S.WellFormed) {vs : List Scalar}
    (hvs : vs.length = S.variableCount) :
    S.toShape.violatedRows (vs.map Scalar.encode) [] =
      .ok ((List.range S.rowCount).filter fun k =>
        ¬S.toShape.RowHolds ((vs ++ [1]).getD · 0) k) := by
  have hvector : Shape.assigned (vs.map Scalar.encode) [] = vs ++ [1] := by
    simp [Shape.assigned, Function.comp_def, Scalar.ofBytes_encode]
  rw [Shape.violatedRows_of_assignable (admissible_toShape h) (assignable_toShape h hvs), hvector]
  rfl

/-- The vector satisfies the shape when every row holds for it. -/
theorem holdsFor_toShape (h : S.WellFormed) {vs : List Scalar}
    (hvs : vs.length = S.variableCount) :
    S.toShape.holdsFor (vs.map Scalar.encode) [] =
      .ok (decide (∀ r ∈ S.rows, r.Holds ((vs ++ [1]).getD · 0))) := by
  rw [Shape.holdsFor_of_violatedRows (violatedRows_toShape h hvs)]
  congr 1
  rw [Bool.eq_iff_iff, List.isEmpty_iff, List.filter_eq_nil_iff, decide_eq_true_iff]
  simp only [List.mem_range, decide_eq_true_eq, not_not]
  rw [List.forall_mem_iff_getElem]
  constructor
  · intro hall k hk
    exact (rowHolds_toShape _ hk).mp (hall k hk)
  · intro hall k hk
    exact (rowHolds_toShape _ hk).mpr (hall k hk)

/-- A machine that has memory for lists of the rows and of the names accepts and evaluates the shape
of a system as if it had no limits. -/
theorem toShape_on_machine (h : S.WellFormed) {M : Machine} (hrows : S.rowCount < M.capacity)
    (hnames : S.variableCount < M.capacity) :
    S.toShape.check M = S.accept ∧ ∀ values inputs,
      S.toShape.violatedRowsWithin M values inputs = S.toShape.violatedRows values inputs := by
  have hle := M.capacity_le
  have hreach : longestList ≤ wordReach := by decide
  have hword : ∀ n : ℕ, n < M.capacity → IsWord n := by
    intro n hn
    unfold IsWord
    omega
  have hinputs : S.toShape.inputCount = (0 : ℕ) :=
    congrArg (fun us : List Bytes => (us.length : ℤ)) h.inputs_eq_nil
  constructor
  · rw [accept_eq h]
    exact Shape.check_of_admissible M (admissible_toShape h)
  · apply Shape.violatedRowsWithin_eq_violatedRows (hword _ hrows)
    case hroom => exact Int.ofNat_lt.mpr hrows
    case hvariables => exact M.writes_of_isWord (hword _ hnames)
    case hinputs =>
      rw [hinputs]
      exact M.writes_of_isWord (hword 0 M.capacity_pos)

end System

end RankOne
