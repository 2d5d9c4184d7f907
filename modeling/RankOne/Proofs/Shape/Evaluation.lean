import RankOne.Shape.Evaluation
import RankOne.Proofs.Scalar.Encoding
import Mathlib.Algebra.BigOperators.Group.List.Basic
import Mathlib.Data.List.Sort

/-!
# Sparse evaluation is the product of matrix and vector

The sums that are kept while the entries are read are, row by row, the sums of what the entries of
that row contribute; a row that is not kept has the sum zero. The rows that are reported are
therefore those of all rows whose equation fails, in increasing order.
-/

namespace RankOne

/-- The entry refers to one of so many rows and to one of so many columns. -/
def Entry.Inside (rows columns : ℕ) (e : Entry) : Prop :=
  (0 ≤ e.row ∧ e.row < rows) ∧ 0 ≤ e.column ∧ e.column < columns

/-- The sum of what the entries of a row contribute, at a vector given by its places. -/
def rowSum (z : ℕ → Scalar) (entries : List Entry) (k : ℕ) : Scalar :=
  ((entries.filter fun e => e.row = (k : ℤ)).map fun e =>
    Scalar.ofNat (bytesValue e.coefficient) * z e.column.toNat).sum

theorem rowSum_cons (z : ℕ → Scalar) (e : Entry) (entries : List Entry) (k : ℕ) :
    rowSum z (e :: entries) k =
      (if e.row = k then Scalar.ofNat (bytesValue e.coefficient) * z e.column.toNat else 0) +
        rowSum z entries k := by
  unfold rowSum
  by_cases h : e.row = k
  · rw [List.filter_cons_of_pos (by simpa using h), if_pos h, List.map_cons, List.sum_cons]
  · rw [List.filter_cons_of_neg (by simpa using h), if_neg h, zero_add]

theorem rowSum_append (z : ℕ → Scalar) (es es' : List Entry) (k : ℕ) :
    rowSum z (es ++ es') k = rowSum z es k + rowSum z es' k := by
  unfold rowSum
  rw [List.filter_append, List.map_append, List.sum_append]

theorem rowSum_eq_zero {z : ℕ → Scalar} {entries : List Entry} {k : ℕ}
    (h : ∀ e ∈ entries, e.row ≠ k) : rowSum z entries k = 0 := by
  unfold rowSum
  rw [List.filter_eq_nil_iff.mpr (by simpa using h)]
  rfl

/-! ## The sums of a matrix -/

theorem accumulate_eq {rows : ℕ} {z : Array Scalar} (sums : Sums) {e : Entry}
    (h : e.Inside rows z.size) :
    accumulate rows z sums e = .ok (sums.insert e.row.toNat (sums.getD e.row.toNat 0 +
      Scalar.ofNat (bytesValue e.coefficient) * z.getD e.column.toNat 0)) := by
  obtain ⟨⟨hr, hr'⟩, hc, hc'⟩ := h
  rw [accumulate, place_of_lt hr hr', place_of_lt hc hc']
  rfl

/-- Reading the entries adds each one's contribution to the sum of its row, and keeps no sum for
any other place. -/
theorem foldlM_accumulate {rows : ℕ} {z : Array Scalar} (entries : List Entry) (sums : Sums)
    (h : ∀ e ∈ entries, e.Inside rows z.size) :
    ∃ sums' : Sums, entries.foldlM (accumulate rows z) sums = .ok sums' ∧
      (∀ k, sums'.getD k 0 = sums.getD k 0 + rowSum (z.getD · 0) entries k) ∧
      ∀ k, k ∈ sums' → k ∈ sums ∨ k < rows := by
  induction entries generalizing sums with
  | nil =>
    refine ⟨sums, rfl, ?_, fun k hk => Or.inl hk⟩
    intro k
    rw [rowSum_eq_zero (by simp), add_zero]
  | cons e entries ih =>
    have he := h e List.mem_cons_self
    obtain ⟨sums', hrun, hsum, hmem⟩ :=
      ih (sums.insert e.row.toNat (sums.getD e.row.toNat 0 +
        Scalar.ofNat (bytesValue e.coefficient) * z.getD e.column.toNat 0))
        fun e' he' => h e' (List.mem_cons_of_mem e he')
    have hrow : (e.row.toNat : ℤ) = e.row := Int.toNat_of_nonneg he.1.1
    refine ⟨sums', ?_, ?_, ?_⟩
    · rw [List.foldlM_cons, accumulate_eq sums he]
      exact hrun
    · intro k
      rw [hsum, Std.TreeMap.getD_insert, rowSum_cons]
      by_cases hk : e.row.toNat = k
      · subst hk
        rw [if_pos (by simp), if_pos hrow.symm, add_assoc]
      · have hk' : e.row ≠ k := by omega
        rw [if_neg (by simpa using hk), if_neg hk', zero_add]
    · intro k hk
      rcases hmem k hk with hin | hlt
      · rcases Std.TreeMap.mem_insert.mp hin with heq | hold
        · have hrk : e.row.toNat = k := by simpa using heq
          have hlt := he.1.2
          exact Or.inr (by omega)
        · exact Or.inl hold
      · exact Or.inr hlt

theorem matrixProduct_eq {rows : ℕ} {z : Array Scalar} {entries : List Entry}
    (h : ∀ e ∈ entries, e.Inside rows z.size) :
    ∃ sums : Sums, matrixProduct rows entries z = .ok sums ∧
      (∀ k, sums.getD k 0 = rowSum (z.getD · 0) entries k) ∧ ∀ k, k ∈ sums → k < rows := by
  obtain ⟨sums, hrun, hsum, hmem⟩ := foldlM_accumulate entries ∅ h
  refine ⟨sums, hrun, ?_, ?_⟩
  · intro k
    rw [hsum k, Std.TreeMap.getD_emptyc, zero_add]
  · intro k hk
    rcases hmem k hk with hin | hlt
    · exact absurd hin Std.TreeMap.not_mem_emptyc
    · exact hlt

/-! ## The rows that fail -/

/-- The places that a sum is kept for, in increasing order, with a test that no other place
passes: the places below a bound that pass it. -/
theorem keys_filter_eq {sums : Sums} {rows : ℕ} {p : ℕ → Bool} (hmem : ∀ k ∈ sums, k < rows)
    (hp : ∀ k, p k = true → k ∈ sums) : sums.keys.filter p = (List.range rows).filter p := by
  have hsorted : sums.keys.Pairwise (· < ·) := by
    apply List.Pairwise.imp _ Std.TreeMap.ordered_keys
    intro a b hab
    exact Std.compare_eq_lt.mp hab
  apply List.Pairwise.eq_of_mem_iff (hsorted.filter p) (List.pairwise_lt_range.filter p)
  intro k
  rw [List.mem_filter, List.mem_filter, List.mem_range, Std.TreeMap.mem_keys]
  constructor
  · intro h
    obtain ⟨hk, hpk⟩ := h
    exact ⟨hmem k hk, hpk⟩
  · intro h
    obtain ⟨_, hpk⟩ := h
    exact ⟨hp k hpk, hpk⟩

namespace Shape

/-- The equation of row `k` of a shape at a vector given by its places. -/
def RowHolds (S : Shape) (z : ℕ → Scalar) (k : ℕ) : Prop :=
  rowSum z S.A k * rowSum z S.B k = rowSum z S.C k

instance (S : Shape) (z : ℕ → Scalar) (k : ℕ) : Decidable (S.RowHolds z k) :=
  inferInstanceAs (Decidable (_ = _))

theorem violatedRowsWithin_eq {S : Shape} {L : Limits} {values inputs : List Bytes}
    {z : Array Scalar} {rows : ℕ} (hz : S.vector L values inputs = .ok z)
    (hrows : L.reserve S.rowCount = .ok rows)
    (hinside : ∀ m, ∀ e ∈ S.matrix m, e.Inside rows z.size) :
    S.violatedRowsWithin L values inputs =
      .ok ((List.range rows).filter fun k => ¬S.RowHolds (z.getD · 0) k) := by
  obtain ⟨a, ha, hasum, hamem⟩ := matrixProduct_eq (hinside .A)
  obtain ⟨b, hb, hbsum, hbmem⟩ := matrixProduct_eq (hinside .B)
  obtain ⟨c, hc, hcsum, hcmem⟩ := matrixProduct_eq (hinside .C)
  have hrun : S.violatedRowsWithin L values inputs = .ok ((a ∪ b ∪ c).keys.filter fun k =>
      a.getD k 0 * b.getD k 0 ≠ c.getD k 0) := by
    change matrixProduct rows S.A z = _ at ha
    change matrixProduct rows S.B z = _ at hb
    change matrixProduct rows S.C z = _ at hc
    simp only [violatedRowsWithin, hz, hrows, ha, hb, hc, bind, Except.bind, pure, Except.pure]
  rw [hrun]
  congr 1
  have htest : (fun k => decide (a.getD k 0 * b.getD k 0 ≠ c.getD k 0)) =
      fun k => decide ¬S.RowHolds (z.getD · 0) k := by
    funext k
    rw [hasum, hbsum, hcsum]
    rfl
  rw [← htest]
  apply keys_filter_eq
  · intro k hk
    rcases Std.TreeMap.mem_union_iff.mp hk with hk | hk
    · rcases Std.TreeMap.mem_union_iff.mp hk with hk | hk
      · exact hamem k hk
      · exact hbmem k hk
    · exact hcmem k hk
  · intro k hk
    -- a row without entries states that zero times zero is zero
    by_contra hnot
    rw [Std.TreeMap.mem_union_iff, Std.TreeMap.mem_union_iff, not_or, not_or] at hnot
    obtain ⟨⟨hka, -⟩, hkc⟩ := hnot
    rw [decide_eq_true_iff, Std.TreeMap.getD_eq_fallback hka, Std.TreeMap.getD_eq_fallback hkc,
      zero_mul] at hk
    exact hk rfl

end Shape

end RankOne
