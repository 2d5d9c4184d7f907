import RankOne.Proofs.Shape.Evaluation
import RankOne.Proofs.Shape.Limits

/-!
# Which shapes are admitted

A shape passes its check, unchanged, exactly when its dimensions are possible, every entry lies
inside them and every coefficient is the written form of a scalar. Of any other shape the first
violation is reported, in the order of the matrices and of their entries. An admitted shape can be
evaluated without an index that refers to nothing, and the only vectors that are refused are those of
another length and those with something in them that is no encoding.

Neither is the whole truth on a machine with limits. The check has no upper bound for the number of
rows, while the evaluation makes lists with a place for every row: from the capacity of the machine
on it runs out of memory, and rows that no word can count are not even asked for. A dimension or an
index with more digits than are written out cannot be reported at all, so in its place the attempt
to report it fails.
-/

namespace RankOne

/-! ## Lists that are read until something is wrong -/

/-- The element is in the list, and all elements before it have the property. -/
def Reached {α : Type} (P : α → Prop) (xs : List α) (x : α) : Prop :=
  ∃ before after, xs = before ++ x :: after ∧ ∀ y ∈ before, P y

section Reached

variable {α ε : Type} {P : α → Prop}

theorem forall_or_reached (P : α → Prop) (xs : List α) :
    (∀ x ∈ xs, P x) ∨ ∃ x, Reached P xs x ∧ ¬P x := by
  induction xs with
  | nil => exact Or.inl (List.forall_mem_nil P)
  | cons x xs ih =>
    by_cases hx : P x
    · rcases ih with hall | ⟨y, ⟨before, after, rfl, hbefore⟩, hy⟩
      · exact Or.inl (List.forall_mem_cons.mpr ⟨hx, hall⟩)
      · exact Or.inr ⟨y, ⟨x :: before, after, rfl, List.forall_mem_cons.mpr ⟨hx, hbefore⟩⟩, hy⟩
    · exact Or.inr ⟨x, ⟨[], xs, rfl, List.forall_mem_nil P⟩, hx⟩

theorem forM_eq_ok {f : α → Except ε Unit} {xs : List α} (h : ∀ x ∈ xs, f x = .ok ()) :
    xs.forM f = .ok () := by
  induction xs with
  | nil => rfl
  | cons x xs ih =>
    rw [List.forall_mem_cons] at h
    have hstep : (x :: xs).forM f = (f x >>= fun _ => xs.forM f) := rfl
    rw [hstep, h.1]
    exact ih h.2

theorem forM_eq_error {f : α → Except ε Unit} {xs : List α} {x : α} {e : ε}
    (hpass : ∀ y, P y → f y = .ok ()) (hx : Reached P xs x) (he : f x = .error e) :
    xs.forM f = .error e := by
  obtain ⟨before, after, rfl, hbefore⟩ := hx
  have hrun : before.forM f = .ok () := forM_eq_ok fun y hy => hpass y (hbefore y hy)
  have happend : (before ++ x :: after).forM f =
      (before.forM f >>= fun _ => f x >>= fun _ => after.forM f) := List.forM_append
  rw [happend, hrun, he]
  rfl

end Reached

theorem mapM_decode_eq_ok {ds : List Bytes} (h : ∀ d ∈ ds, Written d) :
    ds.mapM Scalar.decode = .ok (ds.map Scalar.ofBytes) := by
  induction ds with
  | nil => rfl
  | cons d ds ih =>
    rw [List.forall_mem_cons] at h
    rw [List.mapM_cons, Scalar.decode_of_written h.1, ih h.2]
    rfl

theorem mapM_decode_eq_error {ds : List Bytes} {d : Bytes} {f : EncodingFault}
    (hd : Reached Written ds d) (hf : Scalar.decode d = .error f) :
    ds.mapM Scalar.decode = .error f := by
  obtain ⟨before, after, rfl, hbefore⟩ := hd
  rw [List.mapM_append, mapM_decode_eq_ok hbefore, List.mapM_cons, hf]
  rfl

/-- Byte strings that are not all written forms: the first of them that is none is not decoded. -/
theorem forall_written_or_reached (ds : List Bytes) :
    (∀ d ∈ ds, Written d) ∨ ∃ d f, Reached Written ds d ∧ Scalar.decode d = .error f := by
  rcases forall_or_reached Written ds with hall | ⟨d, hd, hnot⟩
  · exact Or.inl hall
  · cases hf : Scalar.decode d with
    | ok a => exact absurd (Scalar.written_of_decode hf) hnot
    | error f => exact Or.inr ⟨d, f, hd, hf⟩

/-- A result that is known in two cases, one of which occurs, is characterised by them. -/
theorem exact_of_cases {α ε : Type} {r : Except ε α} {a : α} {P : Prop} {Q : ε → Prop}
    (hok : P → r = .ok a) (herror : ∀ e, Q e → r = .error e) (hcases : P ∨ ∃ e, Q e) :
    (∀ a', r = .ok a' ↔ a' = a ∧ P) ∧ ∀ e, r = .error e ↔ Q e := by
  rcases hcases with hP | ⟨e, he⟩
  · have hnone : ∀ e, ¬Q e := by
      intro e he
      have hr := hok hP
      rw [herror e he] at hr
      cases hr
    rw [hok hP]
    constructor
    · intro a'
      rw [Except.ok.injEq, and_iff_left hP]
      exact eq_comm
    · exact fun e => iff_of_false nofun (hnone e)
  · have hnot : ¬P := by
      intro hP
      have hr := hok hP
      rw [herror e he] at hr
      cases hr
    have hr := herror e he
    constructor
    · intro a'
      rw [hr]
      exact iff_of_false nofun fun h => hnot h.2
    · intro e'
      constructor
      · intro hr'
        rw [hr] at hr'
        exact Except.error.inj hr' ▸ he
      · exact herror e'

namespace Shape

/-! ## The check -/

/-- The dimensions are possible, and every entry lies inside them with a canonical coefficient. -/
structure Admissible (S : Shape) : Prop where
  rowCount_pos : 0 < S.rowCount
  variableCount_pos : 0 < S.variableCount
  inputCount_nonneg : 0 ≤ S.inputCount
  row_inside : ∀ m, ∀ e ∈ S.matrix m, 0 ≤ e.row ∧ e.row < S.rowCount
  column_inside : ∀ m, ∀ e ∈ S.matrix m,
    0 ≤ e.column ∧ e.column < S.variableCount + 1 + S.inputCount
  coefficient_written : ∀ m, ∀ e ∈ S.matrix m, Written e.coefficient

def Possible (S : Shape) : Prop := 0 < S.rowCount ∧ 0 < S.variableCount ∧ 0 ≤ S.inputCount

/-- The entry lies inside the dimensions and has a canonical coefficient. -/
structure Admits (S : Shape) (e : Entry) : Prop where
  row_inside : 0 ≤ e.row ∧ e.row < S.rowCount
  column_inside : 0 ≤ e.column ∧ e.column < S.columns
  coefficient_written : Written e.coefficient

/-- The dimensions are possible, and every entry that comes before this one is admitted. -/
structure Reaches (S : Shape) (m : Matrix) (e : Entry) : Prop where
  possible : S.Possible
  reached : Reached (fun p => S.Admits p.2) S.listed (m, e)

/-- What is wrong with a shape and comes before anything else that is. Of an entry, the row comes
before the column, and the column before the coefficient. -/
inductive FirstViolation (S : Shape) : Malformation → Prop
  | dimensions (h : ¬S.Possible) :
      FirstViolation S (.dimensions S.rowCount S.variableCount S.inputCount)
  | row {m : Matrix} {e : Entry} (h : S.Reaches m e) (hrow : ¬(0 ≤ e.row ∧ e.row < S.rowCount)) :
      FirstViolation S (.row m e.row)
  | column {m : Matrix} {e : Entry} (h : S.Reaches m e) (hrow : 0 ≤ e.row ∧ e.row < S.rowCount)
      (hcolumn : ¬(0 ≤ e.column ∧ e.column < S.columns)) : FirstViolation S (.column m e.column)
  | coefficient {m : Matrix} {e : Entry} {f : EncodingFault} (h : S.Reaches m e)
      (hrow : 0 ≤ e.row ∧ e.row < S.rowCount) (hcolumn : 0 ≤ e.column ∧ e.column < S.columns)
      (hf : Scalar.decode e.coefficient = .error f) : FirstViolation S (.coefficient m f)

variable {S : Shape}

theorem mem_listed {p : Matrix × Entry} : p ∈ S.listed ↔ p.2 ∈ S.matrix p.1 := by
  obtain ⟨m, e⟩ := p
  cases m <;> simp [listed, matrix]

theorem admissible_iff : S.Admissible ↔ S.Possible ∧ ∀ p ∈ S.listed, S.Admits p.2 := by
  constructor
  · intro h
    refine ⟨⟨h.rowCount_pos, h.variableCount_pos, h.inputCount_nonneg⟩, ?_⟩
    intro p hp
    have he := mem_listed.mp hp
    exact ⟨h.row_inside _ _ he, h.column_inside _ _ he, h.coefficient_written _ _ he⟩
  · rintro ⟨⟨hrows, hvariables, hinputs⟩, hall⟩
    have hentry : ∀ m, ∀ e ∈ S.matrix m, S.Admits e := fun m e he =>
      hall (m, e) (mem_listed.mpr he)
    exact ⟨hrows, hvariables, hinputs, fun m e he => (hentry m e he).row_inside,
      fun m e he => (hentry m e he).column_inside,
      fun m e he => (hentry m e he).coefficient_written⟩

section check

variable (L : Limits)

theorem checkEntry_of_admits (m : Matrix) {e : Entry} (h : S.Admits e) :
    S.checkEntry L m e = .ok () := by
  rw [checkEntry, if_neg (not_not.mpr h.row_inside), if_neg (not_not.mpr h.column_inside),
    Scalar.decode_of_written h.coefficient_written]

theorem check_of_possible (h : S.Possible) :
    S.check L = (do S.listed.forM fun p => S.checkEntry L p.1 p.2; return S) := by
  have hpossible : ¬(S.rowCount ≤ 0 ∨ S.variableCount ≤ 0 ∨ S.inputCount < 0) := by
    unfold Possible at h
    omega
  exact if_neg hpossible

theorem check_of_admissible (h : S.Admissible) : S.check L = .ok S := by
  obtain ⟨hpossible, hall⟩ := admissible_iff.mp h
  rw [check_of_possible L hpossible,
    forM_eq_ok fun p hp => checkEntry_of_admits L p.1 (hall p hp)]
  rfl

theorem check_of_reaches {m : Matrix} {e : Entry} {f : Fault} (h : S.Reaches m e)
    (hf : S.checkEntry L m e = .error f) : S.check L = .error f := by
  rw [check_of_possible L h.possible,
    forM_eq_error (fun p hp => checkEntry_of_admits L p.1 hp) h.reached hf]
  rfl

theorem check_of_firstViolation {cause : Malformation} (h : S.FirstViolation cause) :
    S.check L = .error (L.report cause) := by
  cases h with
  | dimensions h =>
    have himpossible : S.rowCount ≤ 0 ∨ S.variableCount ≤ 0 ∨ S.inputCount < 0 := by
      unfold Possible at h
      omega
    exact if_pos himpossible
  | row h hrow =>
    apply check_of_reaches L h
    rw [checkEntry, if_pos hrow]
  | column h hrow hcolumn =>
    apply check_of_reaches L h
    rw [checkEntry, if_neg (not_not.mpr hrow), if_pos hcolumn]
  | coefficient h hrow hcolumn hf =>
    apply check_of_reaches L h
    rw [checkEntry, if_neg (not_not.mpr hrow), if_neg (not_not.mpr hcolumn), hf]

end check

theorem admissible_or_firstViolation (S : Shape) :
    S.Admissible ∨ ∃ cause, S.FirstViolation cause := by
  by_cases hpossible : S.Possible
  · rcases forall_or_reached (fun p => S.Admits p.2) S.listed with hall | ⟨⟨m, e⟩, hreached, hnot⟩
    · exact Or.inl (admissible_iff.mpr ⟨hpossible, hall⟩)
    · have hreaches : S.Reaches m e := ⟨hpossible, hreached⟩
      refine Or.inr ?_
      by_cases hrow : 0 ≤ e.row ∧ e.row < S.rowCount
      · by_cases hcolumn : 0 ≤ e.column ∧ e.column < S.columns
        · cases hd : Scalar.decode e.coefficient with
          | ok a => exact absurd ⟨hrow, hcolumn, Scalar.written_of_decode hd⟩ hnot
          | error f => exact ⟨_, .coefficient hreaches hrow hcolumn hd⟩
        · exact ⟨_, .column hreaches hrow hcolumn⟩
      · exact ⟨_, .row hreaches hrow⟩
  · exact Or.inr ⟨_, .dimensions hpossible⟩

theorem check_exact (L : Limits) (S : Shape) :
    (∀ S', S.check L = .ok S' ↔ S' = S ∧ S.Admissible) ∧
      ∀ f, S.check L = .error f ↔ ∃ cause, S.FirstViolation cause ∧ f = L.report cause := by
  apply exact_of_cases (check_of_admissible L)
  · rintro _ ⟨cause, h, rfl⟩
    exact check_of_firstViolation L h
  · exact (admissible_or_firstViolation S).imp_right fun ⟨cause, h⟩ => ⟨_, cause, h, rfl⟩

/-! ## The vectors -/

/-- As many values and inputs as the shape has variables and inputs, all of them written forms of
scalars. -/
structure Assignable (S : Shape) (values inputs : List Bytes) : Prop where
  values_length : (values.length : ℤ) = S.variableCount
  inputs_length : (inputs.length : ℤ) = S.inputCount
  values_written : ∀ d ∈ values, Written d
  inputs_written : ∀ d ∈ inputs, Written d

/-- What keeps vectors from being assigned and comes before anything else that does. The lengths come
first, and the values before the inputs. -/
inductive FirstMismatch (S : Shape) (values inputs : List Bytes) : Malformation → Prop
  | variableCount (h : (values.length : ℤ) ≠ S.variableCount) :
      FirstMismatch S values inputs (.variableCount S.variableCount values.length)
  | inputCount (hv : (values.length : ℤ) = S.variableCount)
      (h : (inputs.length : ℤ) ≠ S.inputCount) :
      FirstMismatch S values inputs (.inputCount S.inputCount inputs.length)
  | variableEncoding {d : Bytes} {f : EncodingFault} (hv : (values.length : ℤ) = S.variableCount)
      (hi : (inputs.length : ℤ) = S.inputCount) (h : Reached Written values d)
      (hf : Scalar.decode d = .error f) : FirstMismatch S values inputs (.variableEncoding f)
  | inputEncoding {d : Bytes} {f : EncodingFault} (hv : (values.length : ℤ) = S.variableCount)
      (hi : (inputs.length : ℤ) = S.inputCount) (hvalues : ∀ d ∈ values, Written d)
      (h : Reached Written inputs d) (hf : Scalar.decode d = .error f) :
      FirstMismatch S values inputs (.inputEncoding f)

/-- The vector that is assigned: the values, the constant one, the inputs. -/
def assigned (values inputs : List Bytes) : List Scalar :=
  values.map Scalar.ofBytes ++ 1 :: inputs.map Scalar.ofBytes

variable {values inputs : List Bytes}

section vector

variable (L : Limits)

theorem vector_of_assignable (h : S.Assignable values inputs) :
    S.vector L values inputs = .ok (assigned values inputs).toArray := by
  rw [vector, if_neg (not_not.mpr h.values_length), if_neg (not_not.mpr h.inputs_length),
    mapM_decode_eq_ok h.values_written, mapM_decode_eq_ok h.inputs_written]
  rfl

theorem vector_of_firstMismatch {cause : Malformation} (h : S.FirstMismatch values inputs cause) :
    S.vector L values inputs = .error (L.report cause) := by
  cases h with
  | variableCount h => rw [vector, if_pos h]
  | inputCount hv h => rw [vector, if_neg (not_not.mpr hv), if_pos h]
  | variableEncoding hv hi h hf =>
    rw [vector, if_neg (not_not.mpr hv), if_neg (not_not.mpr hi), mapM_decode_eq_error h hf]
    rfl
  | inputEncoding hv hi hvalues h hf =>
    rw [vector, if_neg (not_not.mpr hv), if_neg (not_not.mpr hi), mapM_decode_eq_ok hvalues,
      mapM_decode_eq_error h hf]
    rfl

end vector

theorem assignable_or_firstMismatch (S : Shape) (values inputs : List Bytes) :
    S.Assignable values inputs ∨ ∃ cause, S.FirstMismatch values inputs cause := by
  by_cases hv : (values.length : ℤ) = S.variableCount
  · by_cases hi : (inputs.length : ℤ) = S.inputCount
    · rcases forall_written_or_reached values with hvalues | ⟨d, f, hd, hf⟩
      · rcases forall_written_or_reached inputs with hinputs | ⟨d, f, hd, hf⟩
        · exact Or.inl ⟨hv, hi, hvalues, hinputs⟩
        · exact Or.inr ⟨_, .inputEncoding hv hi hvalues hd hf⟩
      · exact Or.inr ⟨_, .variableEncoding hv hi hd hf⟩
    · exact Or.inr ⟨_, .inputCount hv hi⟩
  · exact Or.inr ⟨_, .variableCount hv⟩

/-! ## Evaluation -/

/-- No entry refers to a row or to a place of the vector that is not there. -/
theorem entries_inside (hS : S.Admissible) (h : S.Assignable values inputs) (m : Matrix) {e : Entry}
    (he : e ∈ S.matrix m) : e.Inside S.rowCount.toNat (assigned values inputs).toArray.size := by
  have hr := hS.row_inside m e he
  have hc := hS.column_inside m e he
  have hv := h.values_length
  have hi := h.inputs_length
  have hsize : (assigned values inputs).toArray.size = values.length + 1 + inputs.length := by
    simp only [assigned, List.size_toArray, List.length_append, List.length_cons, List.length_map]
    omega
  rw [hsize]
  unfold Entry.Inside
  omega

/-- Vectors that can be assigned are evaluated to the rows whose equation fails, if there is a list
with a place for every row. -/
theorem violatedRowsWithin_of_assignable (L : Limits) (hS : S.Admissible)
    (ha : S.Assignable values inputs) :
    S.violatedRowsWithin L values inputs = (fun rows => (List.range rows).filter fun k =>
      ¬S.RowHolds ((assigned values inputs).getD · 0) k) <$> L.reserve S.rowCount := by
  have hz := vector_of_assignable L ha
  cases hrows : L.reserve S.rowCount with
  | error f =>
    rw [violatedRowsWithin, hz, hrows]
    rfl
  | ok rows =>
    obtain rfl := Limits.eq_toNat_of_reserve hrows
    rw [violatedRowsWithin_eq hz hrows fun m e he => entries_inside hS ha m he]
    simp

theorem violatedRows_of_assignable (hS : S.Admissible) (ha : S.Assignable values inputs) :
    S.violatedRows values inputs = .ok ((List.range S.rowCount.toNat).filter fun k =>
      ¬S.RowHolds ((assigned values inputs).getD · 0) k) :=
  violatedRowsWithin_of_assignable none hS ha

theorem violatedRowsWithin_of_firstMismatch (L : Limits) {cause : Malformation}
    (h : S.FirstMismatch values inputs cause) :
    S.violatedRowsWithin L values inputs = .error (L.report cause) := by
  rw [violatedRowsWithin, vector_of_firstMismatch L h]
  rfl

theorem holdsFor_of_violatedRows {rows : List ℕ} (h : S.violatedRows values inputs = .ok rows) :
    S.holdsFor values inputs = .ok rows.isEmpty := by
  show (fun rows => rows.isEmpty) <$> S.violatedRows values inputs = _
  rw [h]
  rfl

/-! ## On a machine -/

theorem not_assignable_of_firstMismatch {cause : Malformation}
    (h : S.FirstMismatch values inputs cause) : ¬S.Assignable values inputs := by
  intro ha
  have hz := vector_of_assignable none ha
  rw [vector_of_firstMismatch none h] at hz
  cases hz

/-- All dimensions and indices can be written out. -/
structure WrittenOut (S : Shape) (M : Machine) : Prop where
  rowCount : M.Writes S.rowCount
  variableCount : M.Writes S.variableCount
  inputCount : M.Writes S.inputCount
  row : ∀ m, ∀ e ∈ S.matrix m, M.Writes e.row
  column : ∀ m, ∀ e ∈ S.matrix m, M.Writes e.column

theorem Reaches.mem {m : Matrix} {e : Entry} (h : S.Reaches m e) : e ∈ S.matrix m := by
  obtain ⟨before, after, hlisted, -⟩ := h.reached
  have hmem : (m, e) ∈ S.listed := hlisted ▸ List.mem_append_right before List.mem_cons_self
  exact mem_listed.mp hmem

theorem WrittenOut.report_eq {M : Machine} (h : S.WrittenOut M) {cause : Malformation}
    (hcause : S.FirstViolation cause) : M.report cause = .malformed cause := by
  rw [M.report_eq_malformed_iff, eq_self, true_and]
  cases hcause with
  | dimensions => simp [Malformation.shown, h.rowCount, h.variableCount, h.inputCount]
  | @row m e hreaches => exact List.forall_mem_singleton.mpr (h.row m e hreaches.mem)
  | @column m e hreaches => exact List.forall_mem_singleton.mpr (h.column m e hreaches.mem)
  | coefficient => exact List.forall_mem_nil _

theorem FirstMismatch.report_eq {M : Machine} {cause : Malformation}
    (h : S.FirstMismatch values inputs cause) (hvariables : M.Writes S.variableCount)
    (hinputs : M.Writes S.inputCount) : M.report cause = .malformed cause := by
  rw [M.report_eq_malformed_iff, eq_self, true_and]
  cases h <;> simp [Malformation.shown, hvariables, hinputs]

/-- Where there is memory for the rows and the dimensions can be written out, any shape is evaluated
as it is without limits. -/
theorem violatedRowsWithin_eq_violatedRows {M : Machine} (hword : IsWord S.rowCount)
    (hroom : S.rowCount < M.capacity) (hvariables : M.Writes S.variableCount)
    (hinputs : M.Writes S.inputCount) (values inputs : List Bytes) :
    S.violatedRowsWithin M values inputs = S.violatedRows values inputs := by
  have hreserve : Limits.reserve M S.rowCount = .ok S.rowCount.toNat := by
    rw [Limits.reserve, Machine.reserve, if_neg (not_not.mpr hword), if_pos hroom]
  have hvector : S.vector M values inputs = S.vector none values inputs := by
    rcases assignable_or_firstMismatch S values inputs with ha | ⟨cause, h⟩
    · rw [vector_of_assignable M ha, vector_of_assignable none ha]
    · rw [vector_of_firstMismatch M h, vector_of_firstMismatch none h]
      exact congrArg Except.error (h.report_eq hvariables hinputs)
  rw [violatedRows, violatedRowsWithin, violatedRowsWithin, hvector, hreserve]
  rfl

/-- What a machine makes of vectors for an admitted shape. There is an answer if they can be assigned
and there is memory for the rows. If they cannot, the first mismatch is reported, as a malformation
whenever the dimensions can be written out; if only the memory is missing, the number of rows decides
how that ends. -/
structure Answers {α : Type} (S : Shape) (M : Machine) (values inputs : List Bytes)
    (r : Except Fault α) : Prop where
  answered_iff : (∃ a, r = .ok a) ↔ S.Assignable values inputs ∧ S.rowCount < M.capacity
  error_iff : ∀ f, r = .error f ↔
    (∃ cause, S.FirstMismatch values inputs cause ∧ f = M.report cause) ∨
      S.Assignable values inputs ∧ M.capacity ≤ S.rowCount ∧ f = shortage S.rowCount
  malformed_iff : M.Writes S.variableCount → M.Writes S.inputCount →
    ((∃ cause, r = .error (.malformed cause)) ↔ ¬S.Assignable values inputs)

theorem answers_of_cases {α : Type} {M : Machine} {r : Except Fault α} {a : α}
    (hanswer : S.Assignable values inputs → S.rowCount < M.capacity → r = .ok a)
    (hshort : S.Assignable values inputs → M.capacity ≤ S.rowCount →
      r = .error (shortage S.rowCount))
    (hmismatch : ∀ cause, S.FirstMismatch values inputs cause → r = .error (M.report cause)) :
    S.Answers M values inputs r := by
  have hexact : (∀ a', r = .ok a' ↔
      a' = a ∧ S.Assignable values inputs ∧ S.rowCount < M.capacity) ∧ ∀ f, r = .error f ↔
        (∃ cause, S.FirstMismatch values inputs cause ∧ f = M.report cause) ∨
          S.Assignable values inputs ∧ M.capacity ≤ S.rowCount ∧ f = shortage S.rowCount := by
    apply exact_of_cases (fun h => hanswer h.1 h.2)
    · rintro _ (⟨cause, h, rfl⟩ | ⟨ha, hfull, rfl⟩)
      · exact hmismatch cause h
      · exact hshort ha hfull
    · rcases assignable_or_firstMismatch S values inputs with ha | ⟨cause, h⟩
      · rcases lt_or_ge S.rowCount M.capacity with hroom | hfull
        · exact Or.inl ⟨ha, hroom⟩
        · exact Or.inr ⟨_, Or.inr ⟨ha, hfull, rfl⟩⟩
      · exact Or.inr ⟨_, Or.inl ⟨cause, h, rfl⟩⟩
  obtain ⟨hok, herror⟩ := hexact
  constructor
  case answered_iff => simp only [hok, exists_eq_left]
  case error_iff => exact herror
  case malformed_iff =>
    intro hvariables hinputs
    constructor
    · rintro ⟨cause, hr⟩
      rcases (herror _).mp hr with ⟨cause', h, -⟩ | ⟨-, -, h⟩
      · exact not_assignable_of_firstMismatch h
      · exact absurd h.symm (shortage_ne_malformed _ _)
    · intro hnot
      rcases assignable_or_firstMismatch S values inputs with ha | ⟨cause, h⟩
      · exact absurd ha hnot
      · exact ⟨cause, h.report_eq hvariables hinputs ▸ hmismatch cause h⟩

theorem answers_map {α : Type} (M : Machine) (hS : S.Admissible) (values inputs : List Bytes)
    (g : List ℕ → α) : S.Answers M values inputs (g <$> S.violatedRowsWithin M values inputs) := by
  have hrun := fun ha : S.Assignable values inputs => violatedRowsWithin_of_assignable M hS ha
  rw [Limits.reserve, M.reserve_of_pos hS.rowCount_pos] at hrun
  apply answers_of_cases
  case hanswer =>
    intro ha hroom
    rw [hrun ha, if_pos hroom]
    rfl
  case hshort =>
    intro ha hfull
    rw [hrun ha, if_neg (not_lt.mpr hfull)]
    rfl
  case hmismatch =>
    intro cause h
    rw [violatedRowsWithin_of_firstMismatch M h]
    rfl

/-- On every machine the check passes the admissible shapes as they are, and of any other shape it
reports the first violation, as a malformation whenever all dimensions and indices can be written
out. For an admissible shape and any vectors, the evaluation answers, reports the first mismatch or
has no memory for the rows, each exactly when it should. -/
theorem admission_exact (M : Machine) (S : Shape) :
    (∀ S', S.check M = .ok S' ↔ S' = S ∧ S.Admissible) ∧
      (∀ f, S.check M = .error f ↔ ∃ cause, S.FirstViolation cause ∧ f = M.report cause) ∧
      (S.WrittenOut M → ((∃ cause, S.check M = .error (.malformed cause)) ↔ ¬S.Admissible)) ∧
      (S.Admissible → ∀ values inputs : List Bytes,
        S.Answers M values inputs (S.violatedRowsWithin M values inputs) ∧
          S.Answers M values inputs (S.holdsForWithin M values inputs)) := by
  obtain ⟨hok, herror⟩ := check_exact M S
  refine ⟨hok, herror, ?_, ?_⟩
  · intro hwritten
    constructor
    · rintro ⟨cause, hcause⟩ hS
      rw [(hok S).mpr ⟨rfl, hS⟩] at hcause
      cases hcause
    · intro hnot
      rcases admissible_or_firstViolation S with hS | ⟨cause, hcause⟩
      · exact absurd hS hnot
      · exact ⟨cause, (herror _).mpr ⟨cause, hcause, (hwritten.report_eq hcause).symm⟩⟩
  · intro hS values inputs
    have hrows := answers_map M hS values inputs id
    rw [id_map] at hrows
    exact ⟨hrows, answers_map M hS values inputs List.isEmpty⟩

/-- With one variable and no entries: no row is impossible, 2 ^ 61 rows and 10 ^ 30 rows are admitted
and evaluated as far as memory and words go, and a row count of 5001 digits cannot be reported. -/
theorem admission_exact_vast :
    let M := Machine.standard
    let S : ℤ → Shape := fun n => ⟨n, 1, 0, [], [], []⟩
    let values := [(0 : Scalar).encode]
    ((S 2305843009213693952).check M = .ok (S 2305843009213693952) ∧
      (S 2305843009213693952).violatedRowsWithin M values [] = .error .outOfMemory) ∧
    ((S 1000000000000000000000000000000).check M = .ok (S 1000000000000000000000000000000) ∧
      (S 1000000000000000000000000000000).violatedRowsWithin M values [] =
        .error .rowCountTooLarge ∧
      (S 1000000000000000000000000000000).holdsForWithin M values [] = .error .rowCountTooLarge ∧
      ∃ cause, (S 1000000000000000000000000000000).holdsForWithin M [] [] =
        .error (.malformed cause)) ∧
    (∃ cause, (S 0).check M = .error (.malformed cause)) ∧
    (S (-10 ^ 5000)).check M = .error (.digitsTooMany 4300) := by
  intro M S values
  have hempty : ∀ n m, (S n).matrix m = [] := by
    intro n m
    cases m <;> rfl
  have hS : ∀ n, 0 < n → (S n).Admissible := by
    intro n hn
    constructor
    case rowCount_pos => exact hn
    case variableCount_pos => exact Int.zero_lt_one
    case inputCount_nonneg => exact Int.le_refl 0
    all_goals
      intro m e he
      rw [hempty] at he
      cases he
  have hassign : ∀ n, (S n).Assignable values [] := by
    intro n
    constructor
    · rfl
    · rfl
    · exact List.forall_mem_singleton.mpr (written_encode 0)
    · exact List.forall_mem_nil _
  have hlong : ∀ d k : ℕ, d ≤ k → Nat.pow 10 d ≤ Int.natAbs (-10 ^ k) := by
    intro d k hdk
    rw [Int.natAbs_neg, Int.natAbs_pow]
    exact Nat.pow_le_pow_right (by decide) hdk
  have hone : M.Writes 1 := M.writes_of_isWord (by decide)
  have hzero : M.Writes 0 := M.writes_of_isWord (by decide)
  refine ⟨?_, ?_, ?_, ?_⟩
  · obtain ⟨hok, -, -, heval⟩ := admission_exact M (S 2305843009213693952)
    have hadmitted := hS 2305843009213693952 (by decide)
    refine ⟨(hok _).mpr ⟨rfl, hadmitted⟩, ?_⟩
    exact ((heval hadmitted values []).1.error_iff _).mpr (Or.inr ⟨hassign _, by decide, rfl⟩)
  · obtain ⟨hok, -, -, heval⟩ := admission_exact M (S 1000000000000000000000000000000)
    have hadmitted := hS 1000000000000000000000000000000 (by decide)
    obtain ⟨hrows, hholds⟩ := heval hadmitted values []
    have hshort : M.capacity ≤ (S 1000000000000000000000000000000).rowCount := by decide
    refine ⟨(hok _).mpr ⟨rfl, hadmitted⟩, (hrows.error_iff _).mpr (Or.inr ⟨hassign _, hshort, rfl⟩),
      (hholds.error_iff _).mpr (Or.inr ⟨hassign _, hshort, rfl⟩), ?_⟩
    refine ((heval hadmitted [] []).2.malformed_iff hone hzero).mpr ?_
    intro hnone
    exact absurd hnone.values_length (by decide)
  · obtain ⟨-, -, hmalformed, -⟩ := admission_exact M (S 0)
    refine (hmalformed ?_).mpr fun h => absurd h.rowCount_pos (lt_irrefl 0)
    constructor
    case rowCount => exact hzero
    case variableCount => exact hone
    case inputCount => exact hzero
    all_goals
      intro m e he
      rw [hempty] at he
      cases he
  · obtain ⟨-, herror, -, -⟩ := admission_exact M (S (-10 ^ 5000))
    refine (herror _).mpr ⟨_, .dimensions ?_, ?_⟩
    · rintro ⟨hpos, -⟩
      have hlarge : (0 : ℤ) < 10 ^ 5000 := Int.pow_pos (by decide)
      exact absurd hpos (not_lt.mpr (Int.neg_nonpos_of_nonneg hlarge.le))
    · symm
      rw [M.report_eq_digitsTooMany_iff]
      exact ⟨rfl, _, List.mem_cons_self, hlong 4300 5000 (by decide)⟩

end Shape

end RankOne
