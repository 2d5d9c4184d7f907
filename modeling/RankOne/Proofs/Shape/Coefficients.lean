import RankOne.Proofs.Shape.Admission
import RankOne.Proofs.Scalar.Field
import Mathlib.Algebra.BigOperators.Ring.Finset

/-!
# The matrices that entries stand for

A list of entries stands for the matrix whose coefficient at a place is the sum of all the entries
for that place. The sum that evaluation keeps for a row is the product of that row of the matrix
with the vector, so what an admitted shape reports depends on its matrices and not on the entries
they are written with: entries may change places in their list, and entries for one place may be
replaced by one.
-/

namespace RankOne

/-- The coefficient at a place: the sum of the entries for it. -/
def coefficientAt (entries : List Entry) (k j : ℕ) : Scalar :=
  ((entries.filter fun e => e.row = (k : ℤ) ∧ e.column = (j : ℤ)).map fun e =>
    Scalar.ofBytes e.coefficient).sum

theorem coefficientAt_cons (e : Entry) (entries : List Entry) (k j : ℕ) :
    coefficientAt (e :: entries) k j =
      (if e.row = k ∧ e.column = j then Scalar.ofBytes e.coefficient else 0) +
        coefficientAt entries k j := by
  unfold coefficientAt
  by_cases h : e.row = k ∧ e.column = j
  · rw [List.filter_cons_of_pos (by simpa using h), if_pos h, List.map_cons, List.sum_cons]
  · rw [List.filter_cons_of_neg (by simpa using h), if_neg h, zero_add]

/-- One entry, multiplied out over all columns. -/
theorem sum_entry {columns : ℕ} {e : Entry} (h : 0 ≤ e.column ∧ e.column < columns) (a : Scalar)
    (z : ℕ → Scalar) (k : ℕ) :
    ∑ j ∈ Finset.range columns, (if e.row = k ∧ e.column = j then a else 0) * z j =
      if e.row = k then a * z e.column.toNat else 0 := by
  by_cases hrow : e.row = k
  · have hplace : ∀ j : ℕ, (if e.row = k ∧ e.column = j then a else 0) * z j =
        if e.column.toNat = j then a * z j else 0 := by
      intro j
      have hiff : e.row = k ∧ e.column = j ↔ e.column.toNat = j := by omega
      rw [ite_mul, zero_mul]
      exact if_congr hiff rfl rfl
    have hmem : e.column.toNat ∈ Finset.range columns := by
      rw [Finset.mem_range]
      omega
    rw [if_pos hrow, Finset.sum_congr rfl fun j _ => hplace j, Finset.sum_ite_eq, if_pos hmem]
  · rw [if_neg hrow]
    apply Finset.sum_eq_zero
    intro j _
    rw [if_neg fun h => hrow h.1, zero_mul]

/-- The sum kept for a row is the product of that row of the matrix with the vector. -/
theorem rowSum_eq_sum {columns : ℕ} {entries : List Entry}
    (h : ∀ e ∈ entries, 0 ≤ e.column ∧ e.column < columns) (z : ℕ → Scalar) (k : ℕ) :
    rowSum z entries k = ∑ j ∈ Finset.range columns, coefficientAt entries k j * z j := by
  induction entries with
  | nil =>
    symm
    apply Finset.sum_eq_zero
    intro j _
    exact zero_mul (z j)
  | cons e entries ih =>
    rw [List.forall_mem_cons] at h
    rw [rowSum_cons, ih h.2]
    simp only [coefficientAt_cons, add_mul, Finset.sum_add_distrib]
    rw [sum_entry h.1]
    rfl

/-! ## Other entries for the same matrix -/

/-- Two entries for one place as one, which is canonical whatever they were. -/
def Entry.merge (e e' : Entry) : Entry :=
  ⟨e.row, e.column, (Scalar.ofBytes e.coefficient + Scalar.ofBytes e'.coefficient).encode⟩

/-- The first list becomes the second by putting entries into another order and by merging entries
for one place, any number of times. -/
inductive Regrouped : List Entry → List Entry → Prop
  | perm {es es' : List Entry} (h : es.Perm es') : Regrouped es es'
  | merge {e e' : Entry} (es : List Entry) (hrow : e.row = e'.row)
      (hcolumn : e.column = e'.column) : Regrouped (e :: e' :: es) (e.merge e' :: es)
  | trans {es es' es'' : List Entry} (h : Regrouped es es') (h' : Regrouped es' es'') :
      Regrouped es es''

namespace Regrouped

variable {es es' : List Entry}

theorem coefficientAt_eq (h : Regrouped es es') (k j : ℕ) :
    coefficientAt es' k j = coefficientAt es k j := by
  induction h with
  | perm h => exact ((h.filter _).map _).sum_eq.symm
  | @merge e e' es hrow hcolumn =>
    rw [coefficientAt_cons, coefficientAt_cons, coefficientAt_cons, ← hrow, ← hcolumn, ← add_assoc]
    congr 1
    show (if e.row = k ∧ e.column = j then Scalar.ofBytes (Scalar.encode _) else 0) = _
    rw [Scalar.ofBytes_encode]
    split
    · rfl
    · exact (add_zero 0).symm
  | trans _ _ ih ih' => exact ih'.trans ih

/-- What all entries of the first list have in common, and a merged entry has with the two it is
made of, all entries of the second have in common. -/
theorem forall_mem {P : Entry → Prop} (hmerge : ∀ e e', P e → P (e.merge e'))
    (h : Regrouped es es') (hP : ∀ e ∈ es, P e) : ∀ e ∈ es', P e := by
  induction h with
  | perm h => exact fun e he => hP e (h.mem_iff.mpr he)
  | merge es _ _ =>
    rw [List.forall_mem_cons, List.forall_mem_cons] at hP
    rw [List.forall_mem_cons]
    exact ⟨hmerge _ _ hP.1, hP.2.2⟩
  | trans _ _ ih ih' => exact ih' (ih hP)

end Regrouped

namespace Shape

/-- The dimensions are the same, and each matrix has been regrouped. -/
structure RegroupedTo (S S' : Shape) : Prop where
  rowCount_eq : S'.rowCount = S.rowCount
  variableCount_eq : S'.variableCount = S.variableCount
  inputCount_eq : S'.inputCount = S.inputCount
  matrix : ∀ m, Regrouped (S.matrix m) (S'.matrix m)

variable {S S' : Shape} {values inputs : List Bytes}

/-- A shape that is admitted is admitted however its entries are grouped. -/
theorem RegroupedTo.admissible (h : S.RegroupedTo S') (hS : S.Admissible) : S'.Admissible := by
  constructor
  case rowCount_pos => exact h.rowCount_eq ▸ hS.rowCount_pos
  case variableCount_pos => exact h.variableCount_eq ▸ hS.variableCount_pos
  case inputCount_nonneg => exact h.inputCount_eq ▸ hS.inputCount_nonneg
  case row_inside =>
    intro m
    rw [h.rowCount_eq]
    exact (h.matrix m).forall_mem (fun e e' he => he) (hS.row_inside m)
  case column_inside =>
    intro m
    rw [h.variableCount_eq, h.inputCount_eq]
    exact (h.matrix m).forall_mem (fun e e' he => he) (hS.column_inside m)
  case coefficient_written =>
    intro m
    exact (h.matrix m).forall_mem (fun e e' _ => written_encode _) (hS.coefficient_written m)

theorem RegroupedTo.assignable (h : S.RegroupedTo S') (ha : S.Assignable values inputs) :
    S'.Assignable values inputs := by
  constructor
  case values_length => exact h.variableCount_eq ▸ ha.values_length
  case inputs_length => exact h.inputCount_eq ▸ ha.inputs_length
  case values_written => exact ha.values_written
  case inputs_written => exact ha.inputs_written

theorem Admissible.column_lt (hS : S.Admissible) (m : Matrix) :
    ∀ e ∈ S.matrix m, 0 ≤ e.column ∧ e.column < S.columns.toNat := by
  intro e he
  have hcolumn : 0 ≤ e.column ∧ e.column < S.columns := hS.column_inside m e he
  omega

/-- Regrouping keeps the sum of every row, as it keeps the matrix. -/
theorem RegroupedTo.rowSum_eq (h : S.RegroupedTo S') (hS : S.Admissible) (m : Matrix)
    (z : ℕ → Scalar) (k : ℕ) : rowSum z (S'.matrix m) k = rowSum z (S.matrix m) k := by
  have hcolumns : S'.columns = S.columns := by
    rw [columns, columns, h.variableCount_eq, h.inputCount_eq]
  rw [rowSum_eq_sum ((h.admissible hS).column_lt m), rowSum_eq_sum (hS.column_lt m), hcolumns]
  apply Finset.sum_congr rfl
  intro j _
  rw [(h.matrix m).coefficientAt_eq]

theorem RegroupedTo.rowHolds_iff (h : S.RegroupedTo S') (hS : S.Admissible) (z : ℕ → Scalar)
    (k : ℕ) : S'.RowHolds z k ↔ S.RowHolds z k := by
  have hsum := fun m => h.rowSum_eq hS m z k
  show rowSum z (S'.matrix .A) k * rowSum z (S'.matrix .B) k = rowSum z (S'.matrix .C) k ↔ _
  rw [hsum, hsum, hsum]
  rfl

/-! ## Reports -/

theorem RegroupedTo.violatedRowsWithin_eq (h : S.RegroupedTo S') (L : Limits) (hS : S.Admissible)
    (ha : S.Assignable values inputs) :
    S'.violatedRowsWithin L values inputs = S.violatedRowsWithin L values inputs := by
  rw [violatedRowsWithin_of_assignable L hS ha,
    violatedRowsWithin_of_assignable L (h.admissible hS) (h.assignable ha), h.rowCount_eq]
  simp only [h.rowHolds_iff hS]

/-- What is to be reported of a shape at a vector: the rows whose product of sums is not the third
sum, each once and in increasing order, and whether there is none. A sum is that of all the entries
of the row, and as such the product of the row of the matrix with the vector. -/
structure Evaluates (S : Shape) (z : ℕ → Scalar) (violated : List ℕ) (holds : Bool) : Prop where
  increasing : violated.Pairwise (· < ·)
  mem_iff : ∀ k : ℕ, k ∈ violated ↔
    k < S.rowCount ∧ rowSum z S.A k * rowSum z S.B k ≠ rowSum z S.C k
  holds_iff : holds = true ↔
    ∀ k : ℕ, k < S.rowCount → rowSum z S.A k * rowSum z S.B k = rowSum z S.C k
  product_eq : ∀ m k, rowSum z (S.matrix m) k =
    ∑ j ∈ Finset.range S.columns.toNat, coefficientAt (S.matrix m) k j * z j
  empty_row : ∀ m (k : ℕ), (∀ e ∈ S.matrix m, e.row ≠ k) → rowSum z (S.matrix m) k = 0

theorem evaluates_filter (hS : S.Admissible) (z : ℕ → Scalar) {violated : List ℕ}
    (h : violated = (List.range S.rowCount.toNat).filter fun k => ¬S.RowHolds z k) :
    S.Evaluates z violated violated.isEmpty := by
  have hpos := hS.rowCount_pos
  have hmem : ∀ k : ℕ, k ∈ violated ↔ k < S.rowCount ∧ ¬S.RowHolds z k := by
    intro k
    have hlt : k < S.rowCount.toNat ↔ (k : ℤ) < S.rowCount := by omega
    rw [h, List.mem_filter, List.mem_range, decide_eq_true_iff, hlt]
  constructor
  case increasing => exact h ▸ List.pairwise_lt_range.filter _
  case mem_iff => exact hmem
  case holds_iff =>
    rw [List.isEmpty_iff, List.eq_nil_iff_forall_not_mem]
    simp only [hmem, not_and, not_not]
    rfl
  case product_eq => exact fun m k => rowSum_eq_sum (hS.column_lt m) z k
  case empty_row => exact fun m k hrow => rowSum_eq_zero hrow

/-- A shape that passes its check is evaluated, at vectors that can be assigned, to the rows in which
the product of the matrices with the vector fails, if the machine has memory for the rows; where it
has, the answer is the same without limits. Otherwise the number of rows decides what is raised.
However the entries are regrouped, the shape passes the check and the outcome is the same. -/
theorem evaluation_exact (M : Machine) (hcheck : S.check M = .ok S)
    (ha : S.Assignable values inputs) :
    (S.rowCount < M.capacity → ∃ violated holds,
      S.violatedRowsWithin M values inputs = .ok violated ∧
        S.holdsForWithin M values inputs = .ok holds ∧
        S.violatedRows values inputs = .ok violated ∧
        S.Evaluates ((assigned values inputs).getD · 0) violated holds) ∧
      (M.capacity ≤ S.rowCount →
        S.violatedRowsWithin M values inputs = .error (shortage S.rowCount) ∧
          S.holdsForWithin M values inputs = .error (shortage S.rowCount)) ∧
      ∀ S', S.RegroupedTo S' → S'.check M = .ok S' ∧
        S'.violatedRowsWithin M values inputs = S.violatedRowsWithin M values inputs ∧
        S'.holdsForWithin M values inputs = S.holdsForWithin M values inputs := by
  obtain ⟨-, hS⟩ := ((check_exact M S).1 S).mp hcheck
  have hrun := violatedRowsWithin_of_assignable M hS ha
  rw [Limits.reserve, M.reserve_of_pos hS.rowCount_pos] at hrun
  refine ⟨?_, ?_, ?_⟩
  · intro hroom
    rw [if_pos hroom] at hrun
    refine ⟨_, _, hrun, ?_, violatedRows_of_assignable hS ha, evaluates_filter hS _ rfl⟩
    rw [holdsForWithin, hrun]
    rfl
  · intro hfull
    rw [if_neg (not_lt.mpr hfull)] at hrun
    refine ⟨hrun, ?_⟩
    rw [holdsForWithin, hrun]
    rfl
  · intro S' hregroup
    have hsame := hregroup.violatedRowsWithin_eq M hS ha
    refine ⟨check_of_admissible M (hregroup.admissible hS), hsame, ?_⟩
    rw [holdsForWithin, holdsForWithin, hsame]

/-- Two entries for one place that add up to one, across the order, and the same shape with the one
entry they make: the variable is stated to be the input in the first row, nothing in the second. -/
theorem evaluation_exact_merged :
    let e : Entry := ⟨0, 0, (-1 : Scalar).encode⟩
    let e' : Entry := ⟨0, 0, (Scalar.ofNat 2).encode⟩
    let one : Entry := ⟨0, 1, (1 : Scalar).encode⟩
    let input : Entry := ⟨0, 2, (1 : Scalar).encode⟩
    let values := [(Scalar.ofNat 5).encode]
    let inputs := [(Scalar.ofNat 4).encode]
    let S : Shape := ⟨2, 1, 1, [e, e'], [one], [input]⟩
    let S' : Shape := ⟨2, 1, 1, [e.merge e'], [one], [input]⟩
    ∃ violated, S.violatedRowsWithin Machine.standard values inputs = .ok violated ∧
      S'.violatedRowsWithin Machine.standard values inputs = .ok violated ∧
      0 ∈ violated ∧ 1 ∉ violated := by
  intro e e' one input values inputs S S'
  have hcheck : S.check Machine.standard = .ok S := by decide +kernel
  have ha : S.Assignable values inputs := by
    constructor
    · rfl
    · rfl
    · exact List.forall_mem_singleton.mpr (written_encode _)
    · exact List.forall_mem_singleton.mpr (written_encode _)
  have hregroup : S.RegroupedTo S' := by
    constructor
    · rfl
    · rfl
    · rfl
    · intro m
      cases m with
      | A =>
        show Regrouped [e, e'] [e.merge e']
        exact .merge [] rfl rfl
      | B =>
        show Regrouped [one] [one]
        exact .perm (.refl _)
      | C =>
        show Regrouped [input] [input]
        exact .perm (.refl _)
  obtain ⟨hanswer, -, hother⟩ := evaluation_exact Machine.standard hcheck ha
  obtain ⟨violated, holds, hrun, -, -, heval⟩ := hanswer (by decide)
  refine ⟨violated, hrun, ?_, ?_, ?_⟩
  · rw [← hrun]
    exact (hother S' hregroup).2.1
  · exact (heval.mem_iff 0).mpr ⟨by decide, by decide +kernel⟩
  · intro hmem
    exact absurd ((heval.mem_iff 1).mp hmem).2 (by decide +kernel)

end Shape

end RankOne
