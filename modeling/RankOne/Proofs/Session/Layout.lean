import RankOne.Proofs.Session.History

/-!
# The layout of a closed system

The entries of each matrix come row after row, in the order in which the rows were appended, and
each of them lies inside the dimensions of the system and has a canonical coefficient. Only the last
row refers to the column after the variables: it compares `unit` with the constant that stands there.
Whatever a session has been through before it is closed, its system passes the check of its shape,
and its witness can be evaluated on it.
-/

namespace RankOne

/-! ## Entries -/

theorem pairwise_entries (m : Matrix) (rows : List (Row ℕ)) :
    (entries m rows).Pairwise fun e e' => e.row ≤ e'.row := by
  induction rows using List.reverseRecOn with
  | nil => exact List.Pairwise.nil
  | append_singleton rows r ih =>
    rw [entries_concat, List.pairwise_append, List.pairwise_map]
    refine ⟨ih, List.pairwise_of_forall fun _ _ => le_refl _, ?_⟩
    intro e he e' he'
    obtain ⟨k, hk, t, -, rfl⟩ := mem_entries he
    obtain ⟨t', -, rfl⟩ := List.mem_map.mp he'
    show (k : ℤ) ≤ rows.length
    omega

/-- The entries with the number of the last row are those of that row. -/
theorem filter_last_entries (m : Matrix) (rows : List (Row ℕ)) (r : Row ℕ) :
    (entries m (rows ++ [r])).filter (fun e : Entry => e.row = (rows.length : ℤ)) =
      (r.terms m).map fun t => ⟨rows.length, t.1, t.2.encode⟩ := by
  have hbefore : (entries m rows).filter (fun e : Entry => e.row = (rows.length : ℤ)) = [] := by
    rw [List.filter_eq_nil_iff]
    intro e he
    obtain ⟨k, hk, t, -, rfl⟩ := mem_entries he
    show ¬decide ((k : ℤ) = rows.length) = true
    rw [decide_eq_true_iff]
    omega
  have hlast : ((r.terms m).map fun t => (⟨rows.length, t.1, t.2.encode⟩ : Entry)).filter
      (fun e : Entry => e.row = (rows.length : ℤ)) =
        (r.terms m).map fun t => ⟨rows.length, t.1, t.2.encode⟩ := by
    rw [List.filter_eq_self]
    intro e he
    obtain ⟨t, -, rfl⟩ := List.mem_map.mp he
    exact decide_eq_true rfl
  rw [entries_concat, List.filter_append, hbefore, hlast, List.nil_append]

/-- The entries with the number of a row are those of that row. -/
theorem filter_entries (m : Matrix) {rows : List (Row ℕ)} {k : ℕ} {r : Row ℕ}
    (hr : rows[k]? = some r) :
    (entries m rows).filter (fun e : Entry => e.row = (k : ℤ)) =
      (r.terms m).map fun t => ⟨k, t.1, t.2.encode⟩ := by
  induction rows using List.reverseRecOn with
  | nil => cases hr
  | append_singleton rows r' ih =>
    obtain ⟨hk, -⟩ := List.getElem?_eq_some_iff.mp hr
    rw [List.length_append, List.length_singleton] at hk
    by_cases hlast : k = rows.length
    · subst hlast
      rw [List.getElem?_concat_length, Option.some.injEq] at hr
      rw [filter_last_entries, hr]
    · have hafter : ((r'.terms m).map fun t => (⟨rows.length, t.1, t.2.encode⟩ : Entry)).filter
          (fun e : Entry => e.row = (k : ℤ)) = [] := by
        rw [List.filter_eq_nil_iff]
        intro e he
        obtain ⟨t, -, rfl⟩ := List.mem_map.mp he
        show ¬decide ((rows.length : ℤ) = k) = true
        rw [decide_eq_true_iff]
        omega
      rw [List.getElem?_append_left (by omega)] at hr
      rw [entries_concat, List.filter_append, hafter, List.append_nil, ih hr]

theorem length_entries (m : Matrix) (rows : List (Row ℕ)) :
    (entries m rows).length = entryCount m rows := by
  induction rows using List.reverseRecOn with
  | nil => rfl
  | append_singleton rows r ih =>
    rw [entries_concat, List.length_append, ih, List.length_map, entryCount, entryCount,
      List.flatMap_append, List.length_append, List.flatMap_singleton]

/-! ## Systems -/

/-- The entries of row `k` are the terms of the row, matrix by matrix and in their order. -/
def Shape.RowIs (I : Shape) (k : ℕ) (r : Row ℕ) : Prop :=
  ∀ m, (I.matrix m).filter (fun e : Entry => e.row = (k : ℤ)) =
    (r.terms m).map fun t => ⟨k, t.1, t.2.encode⟩

theorem System.rowIs_toShape {S : System} {k : ℕ} {r : Row ℕ} (hr : S.rows[k]? = some r) :
    S.toShape.RowIs k r := by
  intro m
  rw [matrix_toShape]
  exact filter_entries m hr

/-- Everything that is promised of a closed system, in terms of the matrices, the dimensions and the
witness that are handed on. -/
structure System.Orderly (S : System) : Prop where
  row_lt : ∀ m, ∀ e ∈ S.toShape.matrix m, 0 ≤ e.row ∧ e.row < S.rowCount
  row_le : ∀ m, (S.toShape.matrix m).Pairwise fun e e' => e.row ≤ e'.row
  coefficient : ∀ m, ∀ e ∈ S.toShape.matrix m, Written e.coefficient
  column_lt : ∀ m, ∀ e ∈ S.toShape.matrix m, 0 ≤ e.column ∧
    (e.column < S.variableCount ∨
      e.column = S.variableCount ∧ e.row = S.rowCount - 1 ∧ (m = .A ∨ m = .B))
  /-- The last row compares `unit`, which has the index zero, with the constant. -/
  last : ∀ m, (S.toShape.matrix m).filter (fun e : Entry => e.row = (S.rowCount : ℤ) - 1) =
    [⟨(S.rowCount : ℤ) - 1, (if m = .C then 0 else S.variableCount : ℕ), (1 : Scalar).encode⟩]
  witness_length : S.witness.length = S.variableCount
  witness_written : ∀ d ∈ S.witness, Written d
  accepted : S.accept = .ok S.toShape
  evaluated : ∃ rows, S.toShape.violatedRows S.witness S.inputs = .ok rows

namespace Session

variable {s : Session}

/-- The rows of the gates, by the indices of the names. -/
def gateRows (s : Session) : List (Row ℕ) := s.gates.map fun g => g.row.map s.names.position

/-- The number of the last row of the system. -/
theorem rowCount_sub_one (s : Session) (values : List Bytes) :
    ((s.system values).rowCount : ℤ) - 1 = s.gateRows.length := by
  have hrows : (s.system values).rowCount = s.gateRows.length + 1 := List.length_append
  omega

/-- The columns of the entries in the rows of gates are those of variables. -/
theorem column_lt_of_mem_gateRows (h : s.Covered) {m : Matrix} {e : Entry}
    (he : e ∈ entries m s.gateRows) : 0 ≤ e.column ∧ e.column < s.names.size := by
  refine (entry_inside ?_ he).2
  rw [gateRows, List.forall_mem_map]
  exact fun g hg => within_row h hg

/-- The closing row refers to the constant on its left and on its right, and to `unit` on the
other side. -/
theorem terms_closingRow (hs : s.Regular) (m : Matrix) :
    (closingRow s.names).terms m = [(if m = .C then 0 else s.names.size, 1)] := by
  cases m with
  | A => rfl
  | B => rfl
  | C =>
    show [(s.names.position unit, (1 : Scalar))] = _
    rw [hs.unit_first]
    rfl

theorem matrix_system (hs : s.Regular) (values : List Bytes) (m : Matrix) :
    (s.system values).toShape.matrix m =
      entries m s.gateRows ++ [⟨s.gateRows.length, (if m = .C then 0 else s.names.size : ℕ),
        (1 : Scalar).encode⟩] := by
  have hrows : (s.system values).rows = s.gateRows ++ [closingRow s.names] := rfl
  rw [System.matrix_toShape, hrows, entries_concat, terms_closingRow hs]
  rfl

/-- Outside the closing row all columns are those of variables, and there the constant stands in
the column after them. -/
theorem column_lt_of_mem (hs : s.Regular) (values : List Bytes) {m : Matrix} {e : Entry}
    (he : e ∈ (s.system values).toShape.matrix m) :
    0 ≤ e.column ∧ (e.column < (s.system values).variableCount ∨
      e.column = (s.system values).variableCount ∧
        e.row = ((s.system values).rowCount : ℤ) - 1 ∧ (m = .A ∨ m = .B)) := by
  have hpos : 0 < s.names.size := (Nat.zero_le _).trans_lt (Names.position_lt hs.unit_mem)
  have hcount : (s.system values).variableCount = s.names.size := rfl
  rw [matrix_system hs, List.mem_append, List.mem_singleton] at he
  rw [rowCount_sub_one, hcount]
  rcases he with hgate | rfl
  · obtain ⟨hlo, hlt⟩ := column_lt_of_mem_gateRows hs.toCovered hgate
    exact ⟨hlo, Or.inl hlt⟩
  · cases m with
    | A => exact ⟨Int.natCast_nonneg _, Or.inr ⟨rfl, rfl, Or.inl rfl⟩⟩
    | B => exact ⟨Int.natCast_nonneg _, Or.inr ⟨rfl, rfl, Or.inr rfl⟩⟩
    | C => exact ⟨le_refl _, Or.inl (Int.ofNat_lt.mpr hpos)⟩

theorem filter_last_system (hs : s.Regular) (values : List Bytes) (m : Matrix) :
    ((s.system values).toShape.matrix m).filter
        (fun e : Entry => e.row = ((s.system values).rowCount : ℤ) - 1) =
      [⟨((s.system values).rowCount : ℤ) - 1,
        (if m = .C then 0 else (s.system values).variableCount : ℕ), (1 : Scalar).encode⟩] := by
  have hrows : (s.system values).rows = s.gateRows ++ [closingRow s.names] := rfl
  rw [rowCount_sub_one, System.matrix_toShape, hrows, filter_last_entries, terms_closingRow hs]
  rfl

/-- A session that can be closed gives an orderly system. -/
theorem orderly_of_close (hs : s.Regular) {S : System} {s' : Session} (h : close s = .ok S s') :
    S.Orderly := by
  obtain ⟨hlen, hcanonical, hone, -⟩ := witness_of_close hs h
  obtain ⟨-, -, rfl⟩ := eq_of_close h
  let values := (s.names.arrange (listed s.witness.toList)).map Scalar.encode
  have hstates : (s.system values).States s.gates := system_states hs values
  have hwell : (s.system values).WellFormed := system_wellFormed hs.toCovered values
  constructor
  case row_lt =>
    intro m e he
    rw [System.matrix_toShape] at he
    exact (entry_inside hwell.within he).1
  case row_le =>
    intro m
    rw [System.matrix_toShape]
    exact pairwise_entries m _
  case coefficient =>
    intro m e he
    rw [System.matrix_toShape] at he
    obtain ⟨k, hk, t, -, rfl⟩ := mem_entries he
    exact written_encode t.2
  case column_lt => exact fun m e he => column_lt_of_mem hs values he
  case last => exact filter_last_system hs values
  case witness_length => exact hlen
  case witness_written =>
    intro d hd
    obtain ⟨a, -, rfl⟩ := List.mem_map.mp hd
    exact written_encode a
  case accepted => exact hstates.accepted
  case evaluated => exact ⟨_, hstates.violated values hlen hcanonical hone⟩

/-- Whatever steps have been taken, and whichever of them have failed, a session that can be closed
gives an orderly system. -/
theorem orderly_of_history (ts : List Step) {S : System} {s : Session}
    (hclose : close (reached ts) = .ok S s) : S.Orderly :=
  orderly_of_close (regular_reached (eq_of_close hclose).1) hclose

/-- A weight is refused after two names, a closing for want of values, and a value that comes twice. -/
theorem orderly_of_history_refused :
    ∃ S s, close (reached [.gate (.combination [("a", .integer (-1)), ("b", .absent)] "c"),
        .close, .publish "a" (.integer 3), .gate (.boolean "b"), .assign "b" (.truth true),
        .publish "a" (.integer 4)]) = .ok S s ∧ S.Orderly := by
  obtain ⟨S, s, hclose⟩ : ∃ S s, close (reached [
      .gate (.combination [("a", .integer (-1)), ("b", .absent)] "c"),
      .close, .publish "a" (.integer 3), .gate (.boolean "b"), .assign "b" (.truth true),
      .publish "a" (.integer 4)]) = .ok S s := ⟨_, _, rfl⟩
  exact ⟨S, s, hclose, orderly_of_history _ hclose⟩

end Session

end RankOne
