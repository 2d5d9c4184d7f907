import RankOne.Proofs.Session.Layout
import RankOne.Proofs.Violation

/-!
# The layout of a membership system

For `n` elements the circuit first binds each of them, in one row and with one variable each. Then
each element adds two variables: its difference and the running product, except that the first
element adds the secret in place of a product, because the first difference is the first product. It
adds two rows as well, except for the first one, which has no product to compute. So every index and
every row number is a linear function of the number of the element.
-/

namespace RankOne

/-- Row `k` of the accepted shape is that of the gate, by the indices of the names. -/
def CheckedSystem.Imposes (C : CheckedSystem) (k : ℕ) (g : Gate Scalar) : Prop :=
  C.accepted.RowIs k (g.row.map C.system.names.idxOf)

theorem Session.imposes_of_adds {c : Build Unit} {gs : List (Gate Scalar)}
    {ws : List (String × Scalar)} {C : CheckedSystem} (hadds : Adds c fresh gs ws)
    (hC : outcome c = .ok C) {k : ℕ} {g : Gate Scalar} (hg : gs[k]? = some g) : C.Imposes k g := by
  rw [CheckedSystem.Imposes, (rows_of_adds hadds hC).1]
  exact System.rowIs_toShape (hasRow_of_adds hadds hC hg)

/-- A closed session has an entry for each term of its gates, and one more in each matrix. -/
theorem Session.length_entries_system (s : Session) (values : List Bytes) (m : Matrix) :
    (entries m (s.system values).rows).length =
      (s.gates.flatMap fun g => g.row.terms m).length + 1 := by
  have hclosing : ((closingRow s.names).terms m).length = 1 := by cases m <;> rfl
  have hterms : ∀ g : Gate Scalar,
      ((g.row.map s.names.position).terms m).length = (g.row.terms m).length := by
    intro g
    cases m <;> exact List.length_map _
  rw [length_entries, entryCount, system, List.flatMap_append, List.length_append,
    List.flatMap_singleton, hclosing, List.flatMap_map, List.length_flatMap, List.length_flatMap]
  simp only [hterms]

namespace Membership

/-! ## Lists laid end to end -/

section

variable {α : Type} {h : ℕ → List α} {i n : ℕ}

theorem getElem?_flatMap_range (hi : i < n) {j : ℕ} (hj : j < (h i).length) :
    ((List.range n).flatMap h)[((List.range i).flatMap h).length + j]? = (h i)[j]? := by
  obtain ⟨m, rfl⟩ : ∃ m, n = (i + 1) + m := ⟨n - (i + 1), by omega⟩
  rw [List.range_add, List.flatMap_append, List.range_succ, List.flatMap_append,
    List.flatMap_singleton, List.append_assoc, List.getElem?_append_right (Nat.le_add_right _ _),
    Nat.add_sub_cancel_left, List.getElem?_append_left hj]

/-- The first list is one shorter than the others. -/
theorem length_flatMap_range {b : ℕ} (hlength : ∀ i, (h i).length = if i = 0 then b else b + 1)
    (n : ℕ) : ((List.range n).flatMap h).length = (b + 1) * n - 1 := by
  induction n with
  | zero => rfl
  | succ n ih =>
    rw [List.range_succ, List.flatMap_append, List.length_append, ih, List.flatMap_singleton,
      hlength, Nat.mul_succ]
    rcases Nat.eq_zero_or_pos n with hn | hn
    · simp [hn]
    · have hpos : 0 < (b + 1) * n := Nat.mul_pos b.succ_pos hn
      rw [if_neg hn.ne']
      omega

end

/-! ## The order of the names -/

/-- The table holds the names of these variables, in this order. -/
def Lists (t : Names) (vs : List Variable) : Prop := t.toList = vs.map Variable.name

namespace Lists

variable {t : Names} {vs : List Variable} {v : Variable}

theorem mem_iff (h : Lists t vs) : v.name ∈ t ↔ v ∈ vs := by
  rw [Names.mem_def, h, List.mem_map_of_injective Variable.name_injective]

theorem old (h : Lists t vs) (hv : v ∈ vs) : Lists (t.insert v.name) vs := by
  rw [Lists, Names.toList_insert, if_pos (h.mem_iff.mpr hv)]
  exact h

theorem new (h : Lists t vs) (hv : v ∉ vs) : Lists (t.insert v.name) (vs ++ [v]) := by
  rw [Lists, Names.toList_insert, if_neg (mt h.mem_iff.mp hv), h, List.map_append]
  rfl

theorem constant (h : Lists t vs) (hone : .one ∈ vs) (hv : v ∈ vs) (k : Scalar) :
    Lists (t.insertAll (Gate.constant v.name k).names) vs :=
  ((h.old hone).old hone).old hv

/-- A table that has been through a loop, in which each round adds to what the rounds before it
have added. -/
theorem loop {xs : ℕ → List String} {own : ℕ → List Variable} (h : Lists t vs) (n : ℕ)
    (hstep : ∀ i < n, ∀ t, Lists t (vs ++ (List.range i).flatMap own) →
      Lists (t.insertAll (xs i)) (vs ++ (List.range i).flatMap own ++ own i)) :
    Lists (t.insertAll ((List.range n).flatMap xs)) (vs ++ (List.range n).flatMap own) := by
  induction n with
  | zero => simpa [Names.insertAll_nil] using h
  | succ n ih =>
    have hbefore := ih fun i hi => hstep i (hi.trans n.lt_succ_self)
    rw [List.range_succ, List.flatMap_append, List.flatMap_append, List.flatMap_singleton,
      List.flatMap_singleton, Names.insertAll_append, ← List.append_assoc]
    exact hstep n n.lt_succ_self _ hbefore

theorem position_eq (h : Lists t vs) {k : ℕ} (hk : vs[k]? = some v) :
    v.name ∈ t ∧ t.position v.name = k := by
  have hname : t.toList[k]? = some v.name := by
    rw [h, List.getElem?_map, hk]
    rfl
  obtain ⟨hlt, heq⟩ := List.getElem?_eq_some_iff.mp hname
  refine ⟨h.mem_iff.mpr (List.mem_of_getElem? hk), ?_⟩
  rw [← heq]
  exact t.nodup.idxOf_getElem k hlt

end Lists

/-- The variables that are known once so many elements have been bound. -/
def bound (n : ℕ) : List Variable := [.one] ++ (List.range n).flatMap fun i => [.member i]

/-- The variables that the rows of an element are the first to mention. -/
def introduced (i : ℕ) : List Variable := [if i = 0 then .secret else .difference i, running i]

theorem length_bound (n : ℕ) : (bound n).length = n + 1 := by
  rw [bound, ← List.map_eq_flatMap, List.length_append, List.length_map, List.length_range,
    List.length_singleton, Nat.add_comm]

theorem length_introduced (n : ℕ) : ((List.range n).flatMap introduced).length = 2 * n := by
  induction n with
  | zero => rfl
  | succ n ih =>
    rw [List.range_succ, List.flatMap_append, List.length_append, ih, List.flatMap_singleton]
    rfl

section

variable {i n : ℕ} {v : Variable} {t : Names}

theorem getElem?_bound (hi : i < n) : (bound n)[1 + i]? = some (.member i) := by
  rw [bound, ← List.map_eq_flatMap, Nat.add_comm, List.singleton_append, List.getElem?_cons_succ,
    List.getElem?_map, List.getElem?_range hi]
  rfl

theorem mem_bound : v ∈ bound n ↔ v = .one ∨ ∃ i < n, v = .member i := by simp [bound]

theorem mem_introduced :
    v ∈ (List.range i).flatMap introduced ↔
      ∃ j < i, (v = if j = 0 then .secret else .difference j) ∨ v = running j := by
  simp [introduced]

/-- Binding an element mentions one new name. -/
theorem lists_binding (h : Lists t (bound i)) (e : Scalar) :
    Lists (t.insertAll (Gate.constant (memberVar i) e).names) (bound i ++ [.member i]) := by
  have hone : Variable.one ∈ bound i := by simp [mem_bound]
  have hnew : Variable.member i ∉ bound i := by simp [mem_bound]
  exact ((h.old hone).old hone).new hnew

theorem names_element (i : ℕ) :
    (elementGates secretVar (memberVar i) i).flatMap Gate.names =
      (([.secret, .member i, .one, .difference i] : List Variable) ++
        if i = 0 then [] else [running (i - 1), .difference i, running i]).map Variable.name := by
  rw [elementGates, runningVar_eq, runningVar_eq]
  split <;> rfl

/-- The row of the first element mentions the secret and the first difference. -/
theorem lists_first (hpos : 0 < n) (h : Lists t (bound n)) :
    Lists (t.insertAll ((elementGates secretVar (memberVar 0) 0).flatMap Gate.names))
      (bound n ++ introduced 0) := by
  have hone : Variable.one ∈ bound n := by simp [mem_bound]
  have hmember : Variable.member 0 ∈ bound n := by simp [mem_bound, hpos]
  have hsecret : Variable.secret ∉ bound n := by simp [mem_bound]
  have hdifference : Variable.difference 0 ∉ bound n ++ [.secret] := by simp [mem_bound]
  have hnames := (((h.new hsecret).old (List.mem_append_left _ hmember)).old
    (List.mem_append_left _ hone)).new hdifference
  rw [List.append_assoc] at hnames
  rw [names_element, if_pos rfl]
  exact hnames

/-- The rows of a later element mention its difference and the product up to it. The secret has been
mentioned by the first element, and the product so far by the element before. -/
theorem lists_later (hi : i < n) (hlater : i ≠ 0)
    (h : Lists t (bound n ++ (List.range i).flatMap introduced)) :
    Lists (t.insertAll ((elementGates secretVar (memberVar i) i).flatMap Gate.names))
      (bound n ++ (List.range i).flatMap introduced ++ introduced i) := by
  let vs := bound n ++ (List.range i).flatMap introduced
  have hone : Variable.one ∈ vs := List.mem_append_left _ (by simp [mem_bound])
  have hmember : Variable.member i ∈ vs := List.mem_append_left _ (by simp [mem_bound, hi])
  have hsecret : Variable.secret ∈ vs :=
    List.mem_append_right _ (mem_introduced.mpr ⟨0, Nat.pos_of_ne_zero hlater, Or.inl rfl⟩)
  have hbefore : running (i - 1) ∈ vs :=
    List.mem_append_right _ (mem_introduced.mpr ⟨i - 1, by omega, Or.inr rfl⟩)
  have hdifference : Variable.difference i ∉ vs := by
    rw [List.mem_append, mem_bound, mem_introduced]
    grind [running]
  have hrunning : running i ∉ vs ++ [.difference i] := by
    rw [List.mem_append, List.mem_append, mem_bound, mem_introduced]
    grind [running]
  have hsubtraction := (((Lists.old h hsecret).old hmember).old hone).new hdifference
  have hnames := ((hsubtraction.old (List.mem_append_left _ hbefore)).old
    (List.mem_append_right _ (List.mem_singleton.mpr rfl))).new hrunning
  rw [List.append_assoc] at hnames
  rw [names_element, if_neg hlater, introduced, if_neg hlater]
  simp only [List.map_cons, List.map_nil, List.cons_append, List.nil_append,
    Names.insertAll_cons, Names.insertAll_nil]
  exact hnames

/-- The rows of every element mention two new names. -/
theorem lists_element (hi : i < n) (h : Lists t (bound n ++ (List.range i).flatMap introduced)) :
    Lists (t.insertAll ((elementGates secretVar (memberVar i) i).flatMap Gate.names))
      (bound n ++ (List.range i).flatMap introduced ++ introduced i) := by
  by_cases hfirst : i = 0
  · subst hfirst
    rw [List.range_zero, List.flatMap_nil, List.append_nil] at h ⊢
    exact lists_first hi h
  · exact lists_later hi hfirst h

end

theorem flatMap_names_constants (es : List Scalar) :
    (constants es).flatMap Gate.names =
      (List.range es.length).flatMap fun i => (Gate.constant (memberVar i) 0).names := by
  have hmembers : ((members es.length).zip es).map Prod.fst = members es.length :=
    List.map_fst_zip (length_members es.length).le
  rw [constants, List.flatMap_map]
  show ((members es.length).zip es).flatMap (fun p => [unit, unit, p.1]) = _
  rw [← List.flatMap_map Prod.fst (fun x => [unit, unit, x]), hmembers, members, List.flatMap_map]
  rfl

/-- The names of the system in the order of their indices. -/
theorem lists_statement {es : List Scalar} (hne : es ≠ []) :
    Lists (statement es hne).names
      (bound es.length ++ (List.range es.length).flatMap introduced) := by
  have hpos : 0 < es.length := List.length_pos_iff.mpr hne
  have hbound : Lists (Session.fresh.names.insertAll ((constants es).flatMap Gate.names))
      (bound es.length) := by
    have hfresh : Lists Session.fresh.names [.one] := rfl
    rw [flatMap_names_constants]
    exact hfresh.loop es.length fun i _ t h => lists_binding h 0
  have helements := hbound.loop es.length fun i hi t h => lists_element hi h
  have hone : Variable.one ∈ bound es.length ++ (List.range es.length).flatMap introduced :=
    List.mem_append_left _ (by simp [mem_bound])
  have hlast : running (es.length - 1) ∈
      bound es.length ++ (List.range es.length).flatMap introduced :=
    List.mem_append_right _ (mem_introduced.mpr ⟨es.length - 1, by omega, Or.inr rfl⟩)
  show Lists (Session.fresh.names.insertAll
    ((constants es ++ gates secretVar (members es.length)).flatMap Gate.names)) _
  rw [gates_members, List.flatMap_append, List.flatMap_append, List.flatMap_assoc,
    Names.insertAll_append, Names.insertAll_append, List.flatMap_singleton, runningVar_eq]
  exact helements.constant hone hlast 0

/-! ## The rows -/

theorem length_elementGates (i : ℕ) :
    (elementGates secretVar (memberVar i) i).length = if i = 0 then 1 else 2 := by
  rw [elementGates]
  split <;> rfl

theorem length_constants (es : List Scalar) : (constants es).length = es.length := by
  rw [constants, List.length_map, List.length_zip, length_members, Nat.min_self]

theorem getElem?_constants {es : List Scalar} {i : ℕ} {e : Scalar} (he : es[i]? = some e) :
    (constants es)[i]? = some (.constant (memberVar i) e) := by
  obtain ⟨hi, -⟩ := List.getElem?_eq_some_iff.mp he
  have hmember : (members es.length)[i]? = some (memberVar i) := by
    rw [members, List.getElem?_map, List.getElem?_range hi]
    rfl
  have hpair : ((members es.length).zip es)[i]? = some (memberVar i, e) :=
    List.getElem?_zip_eq_some.mpr ⟨hmember, he⟩
  rw [constants, List.getElem?_map, hpair]
  rfl

/-- The gates of the statement, in three parts. -/
theorem gates_statement {es : List Scalar} (hne : es ≠ []) :
    (statement es hne).gates = constants es ++
      ((List.range es.length).flatMap fun i => elementGates secretVar (memberVar i) i) ++
        [.constant (runningVar secretVar (es.length - 1)) 0] := by
  show constants es ++ gates secretVar (members es.length) = _
  rw [gates_members, List.append_assoc]

section

variable {es : List Scalar} {i : ℕ}

theorem getElem?_gates_constant (hne : es ≠ []) {e : Scalar} (he : es[i]? = some e) :
    (statement es hne).gates[i]? = some (.constant (memberVar i) e) := by
  obtain ⟨hi, -⟩ := List.getElem?_eq_some_iff.mp he
  rw [gates_statement, List.append_assoc,
    List.getElem?_append_left (by rw [length_constants]; exact hi), getElem?_constants he]

/-- The rows of element `i` start at row `n + 2 * i - 1`, and those of the first one at row `n`. -/
theorem getElem?_gates_element (hne : es ≠ []) (hi : i < es.length) {j : ℕ}
    (hj : j < if i = 0 then 1 else 2) :
    (statement es hne).gates[es.length + (2 * i - 1 + j)]? =
      (elementGates secretVar (memberVar i) i)[j]? := by
  have hbefore := length_flatMap_range length_elementGates i
  have hafter := length_flatMap_range length_elementGates es.length
  have hlt : 2 * i - 1 + j < 2 * es.length - 1 := by
    split at hj <;> omega
  rw [gates_statement, List.append_assoc,
    List.getElem?_append_right (by rw [length_constants]; omega), length_constants,
    Nat.add_sub_cancel_left, List.getElem?_append_left (by omega), ← hbefore]
  exact getElem?_flatMap_range hi (by rw [length_elementGates]; exact hj)

theorem getElem?_gates_zero (hne : es ≠ []) :
    (statement es hne).gates[3 * es.length - 1]? =
      some (.constant (runningVar secretVar (es.length - 1)) 0) := by
  have hpos : 0 < es.length := List.length_pos_iff.mpr hne
  have hloop := length_flatMap_range length_elementGates es.length
  have hbefore : (constants es ++ (List.range es.length).flatMap fun i =>
      elementGates secretVar (memberVar i) i).length = 3 * es.length - 1 := by
    rw [List.length_append, length_constants]
    omega
  rw [gates_statement, ← hbefore, List.getElem?_concat_length]

theorem length_gates (hne : es ≠ []) : (statement es hne).gates.length = 3 * es.length := by
  have hpos : 0 < es.length := List.length_pos_iff.mpr hne
  have hloop := length_flatMap_range length_elementGates es.length
  rw [gates_statement, List.length_append, List.length_append, length_constants,
    List.length_singleton]
  omega

/-- Every row has one term in each matrix, but a subtraction has two in the first one. -/
theorem length_terms_gates (hne : es ≠ []) (m : Matrix) :
    ((statement es hne).gates.flatMap fun g => g.row.terms m).length =
      if m = .A then 4 * es.length else 3 * es.length := by
  have hpos : 0 < es.length := List.length_pos_iff.mpr hne
  have hconstants : ((constants es).flatMap fun g => g.row.terms m).length = es.length := by
    have hone : (constants es).map (fun g => (g.row.terms m).length) =
        (constants es).map fun _ => 1 := by
      rw [constants, List.map_map, List.map_map]
      cases m <;> rfl
    rw [List.length_flatMap, hone, List.map_const', List.sum_replicate, length_constants,
      smul_eq_mul, Nat.mul_one]
  have helements := length_flatMap_range (b := if m = .A then 2 else 1)
    (h := fun i => (elementGates secretVar (memberVar i) i).flatMap fun g => g.row.terms m) (by
      intro i
      rw [elementGates]
      cases m <;> split <;> rfl) es.length
  have hzero : ∀ x, ((Gate.constant x 0).row.terms m).length = 1 := by
    intro x
    cases m <;> rfl
  rw [gates_statement, List.flatMap_append, List.flatMap_append, List.length_append,
    List.length_append, hconstants, List.flatMap_assoc, helements, List.flatMap_singleton, hzero]
  split <;> omega

end

/-! ## The system -/

structure Dimensions (es : List Scalar) (C : CheckedSystem) : Prop where
  rowCount : C.accepted.rowCount = 3 * es.length + 1
  variableCount : C.accepted.variableCount = 3 * es.length + 1
  nonZero : C.system.nonZero = 4 * es.length + 1
  length_A : C.accepted.A.length = 4 * es.length + 1
  length_B : C.accepted.B.length = 3 * es.length + 1
  length_C : C.accepted.C.length = 3 * es.length + 1

structure Indices (es : List Scalar) (C : CheckedSystem) : Prop where
  unit : C.indexOf unit = .ok 0
  member : ∀ i < es.length, C.indexOf (memberVar i) = .ok (1 + i)
  secret : C.indexOf secretVar = .ok (es.length + 1)
  first_difference : C.indexOf (differenceVar secretVar 0) = .ok (es.length + 2)
  difference : ∀ i, 1 ≤ i → i < es.length →
    C.indexOf (differenceVar secretVar i) = .ok (es.length + 1 + 2 * i)
  product : ∀ i, 1 ≤ i → i < es.length →
    C.indexOf (runningVar secretVar i) = .ok (es.length + 2 + 2 * i)

/-- A row is known by its entries in the matrices that are handed on. -/
structure RowNumbers (es : List Scalar) (C : CheckedSystem) : Prop where
  binding : ∀ i e, es[i]? = some e → C.Imposes i (.constant (memberVar i) e)
  first_subtraction : C.Imposes es.length
    (.subtract secretVar (memberVar 0) (differenceVar secretVar 0))
  subtraction : ∀ i, 1 ≤ i → i < es.length → C.Imposes (es.length + 2 * i - 1)
    (.subtract secretVar (memberVar i) (differenceVar secretVar i))
  /-- The product before the first one is the first difference. -/
  multiplication : ∀ i, 1 ≤ i → i < es.length → C.Imposes (es.length + 2 * i)
    (.multiply (runningVar secretVar (i - 1)) (differenceVar secretVar i) (runningVar secretVar i))
  zero : C.Imposes (3 * es.length - 1) (.constant (runningVar secretVar (es.length - 1)) 0)
  closing : C.accepted.RowIs (3 * es.length)
    ⟨[(3 * es.length + 1, 1)], [(3 * es.length + 1, 1)], [(0, 1)]⟩

/-- Where everything is in the system of a membership circuit, in terms of the number of
elements. -/
structure Layout (es : List Scalar) (C : CheckedSystem) : Prop where
  dimensions : Dimensions es C
  indices : Indices es C
  rows : RowNumbers es C

section

variable {v : Value} {elements : List Value} {es : List Scalar} {s : Scalar} {i : ℕ}
  {C : CheckedSystem}

theorem size_names (hne : es ≠ []) : (statement es hne).names.size = 3 * es.length + 1 := by
  rw [Names.size, lists_statement hne, List.length_map, List.length_append, length_bound,
    length_introduced]
  omega

theorem position_unit (hne : es ≠ []) : (statement es hne).names.position unit = 0 :=
  ((lists_statement hne).position_eq (v := .one) rfl).2

section

variable (hread : Read elements es) (hne : es ≠ []) (hv : v.scalar = .ok s)
  (hC : outcome (circuit v elements) = .ok C)

include hread hne hv hC

theorem names_of_read : C.system.names = (statement es hne).names.toList := by
  obtain ⟨C', hC', -, hnames, -⟩ := outcome_of_read hread hne hv
  obtain rfl : C = C' := Except.ok.inj (hC.symm.trans hC')
  exact hnames

theorem length_entries_of_read (m : Matrix) :
    (entries m C.system.rows).length =
      if m = .A then 4 * es.length + 1 else 3 * es.length + 1 := by
  obtain ⟨hS, -⟩ := Session.system_of_adds (adds_circuit hread hne hv) hC
  have hterms := length_terms_gates hne m
  have hentries := Session.length_entries_system (Session.ofGates (statement es hne).gates)
    C.system.witness m
  rw [hS, hentries]
  show ((statement es hne).gates.flatMap fun g => g.row.terms m).length + 1 = _
  rw [hterms]
  split <;> rfl

theorem dimensions_of_read : Dimensions es C := by
  have hadds := adds_circuit hread hne hv
  obtain ⟨-, haccepted⟩ := Session.system_of_adds hadds hC
  have hlength := length_entries_of_read hread hne hv hC
  have hrows : C.system.rowCount = 3 * es.length + 1 := by
    rw [Session.rowCount_of_adds hadds hC, length_gates]
  have hvariables : C.system.variableCount = 3 * es.length + 1 := by
    rw [System.variableCount, names_of_read hread hne hv hC]
    exact size_names hne
  have hnonZero : C.system.nonZero = 4 * es.length + 1 := by
    rw [System.nonZero, nonZeroCount, ← length_entries, ← length_entries, ← length_entries,
      hlength, hlength, hlength, if_pos rfl, if_neg (by decide), if_neg (by decide)]
    omega
  rw [← Nat.cast_inj (R := ℤ)] at hrows hvariables
  constructor
  case rowCount => exact haccepted ▸ hrows
  case variableCount => exact haccepted ▸ hvariables
  case nonZero => exact hnonZero
  case length_A => exact haccepted ▸ hlength .A
  case length_B => exact haccepted ▸ hlength .B
  case length_C => exact haccepted ▸ hlength .C

theorem indexOf_member (hi : i < es.length) : C.indexOf (memberVar i) = .ok (1 + i) := by
  have hentry : (bound es.length ++ (List.range es.length).flatMap introduced)[1 + i]? =
      some (.member i) := by
    rw [List.getElem?_append_left (by rw [length_bound]; omega), getElem?_bound hi]
  obtain ⟨hmem, hposition⟩ := (lists_statement hne).position_eq hentry
  rw [← hposition]
  exact CheckedSystem.indexOf_eq (names_of_read hread hne hv hC) hmem

theorem indexOf_introduced (hi : i < es.length) {j : ℕ} {u : Variable}
    (hu : (introduced i)[j]? = some u) : C.indexOf u.name = .ok (es.length + 1 + (2 * i + j)) := by
  obtain ⟨hj, -⟩ := List.getElem?_eq_some_iff.mp hu
  have hentry : (bound es.length ++ (List.range es.length).flatMap introduced)[
      es.length + 1 + (2 * i + j)]? = some u := by
    rw [List.getElem?_append_right (by rw [length_bound]; omega), length_bound,
      Nat.add_sub_cancel_left, ← length_introduced i, getElem?_flatMap_range hi hj, hu]
  obtain ⟨hmem, hposition⟩ := (lists_statement hne).position_eq hentry
  rw [← hposition]
  exact CheckedSystem.indexOf_eq (names_of_read hread hne hv hC) hmem

theorem indices_of_read : Indices es C := by
  have hpos : 0 < es.length := List.length_pos_iff.mpr hne
  have hintroduced : ∀ i < es.length, ∀ j u, (introduced i)[j]? = some u →
      C.indexOf u.name = .ok (es.length + 1 + (2 * i + j)) :=
    fun i hi j u hu => indexOf_introduced hread hne hv hC hi hu
  constructor
  case unit =>
    have hmem := ((lists_statement hne).position_eq (k := 0) (v := .one) rfl).1
    rw [← position_unit hne]
    exact CheckedSystem.indexOf_eq (names_of_read hread hne hv hC) hmem
  case member => exact fun i hi => indexOf_member hread hne hv hC hi
  case secret => exact hintroduced 0 hpos 0 _ rfl
  case first_difference => exact hintroduced 0 hpos 1 _ rfl
  case difference =>
    intro i hfirst hi
    have hu : (introduced i)[0]? = some (.difference i) := by
      rw [introduced, if_neg (by omega)]
      rfl
    exact hintroduced i hi 0 _ hu
  case product =>
    intro i hfirst hi
    have hu : (introduced i)[1]? = some (running i) := rfl
    rw [runningVar_eq, hintroduced i hi 1 _ hu]
    congr 1
    omega

theorem rowIs_closing : C.accepted.RowIs (3 * es.length)
    ⟨[(3 * es.length + 1, 1)], [(3 * es.length + 1, 1)], [(0, 1)]⟩ := by
  obtain ⟨hS, haccepted⟩ := Session.system_of_adds (adds_circuit hread hne hv) hC
  have hrows : C.system.rows =
      (statement es hne).gates.map (fun g => g.row.map (statement es hne).names.position) ++
        [Session.closingRow (statement es hne).names] := by
    rw [hS]
    rfl
  have hlast : C.system.rows[3 * es.length]? =
      some (Session.closingRow (statement es hne).names) := by
    rw [hrows, ← length_gates hne, ← List.length_map, List.getElem?_concat_length]
  rw [Session.closingRow, size_names, position_unit] at hlast
  rw [haccepted]
  exact System.rowIs_toShape hlast

theorem rowNumbers_of_read : RowNumbers es C := by
  have hpos : 0 < es.length := List.length_pos_iff.mpr hne
  have himposes : ∀ k g, (statement es hne).gates[k]? = some g → C.Imposes k g :=
    fun k g hg => Session.imposes_of_adds (adds_circuit hread hne hv) hC hg
  constructor
  case binding => exact fun i e he => himposes _ _ (getElem?_gates_constant hne he)
  case first_subtraction =>
    exact himposes _ _ (getElem?_gates_element hne hpos (j := 0) Nat.one_pos)
  case subtraction =>
    intro i hfirst hi
    have hrow := getElem?_gates_element hne hi (j := 0) (by split <;> omega)
    have hnumber : es.length + 2 * i - 1 = es.length + (2 * i - 1 + 0) := by omega
    rw [elementGates, if_neg (by omega)] at hrow
    rw [hnumber]
    exact himposes _ _ hrow
  case multiplication =>
    intro i hfirst hi
    have hrow := getElem?_gates_element hne hi (j := 1) (by split <;> omega)
    have hnumber : es.length + 2 * i = es.length + (2 * i - 1 + 1) := by omega
    rw [elementGates, if_neg (by omega)] at hrow
    rw [hnumber]
    exact himposes _ _ hrow
  case zero => exact himposes _ _ (getElem?_gates_zero hne)
  case closing => exact rowIs_closing hread hne hv hC

end

/-- Whatever the elements and the secret are, as long as they are read, everything has its place by
the number of elements alone. -/
theorem layout_of_read (hread : Read elements es) (hne : elements ≠ []) (hv : v.scalar = .ok s) :
    ∃ C, outcome (circuit v elements) = .ok C ∧ Layout es C := by
  have hne' : es ≠ [] := hread.ne_nil_iff.mp hne
  obtain ⟨C, hC, -⟩ := outcome_of_read hread hne' hv
  refine ⟨C, hC, ?_, ?_, ?_⟩
  · exact dimensions_of_read hread hne' hv hC
  · exact indices_of_read hread hne' hv hC
  · exact rowNumbers_of_read hread hne' hv hC

/-- Three elements, of which two are the same, and a secret that is none of them: the last product
is the variable with index nine, and row seven computes it. -/
theorem layout_of_read_repeated :
    ∃ C, outcome (circuit (.integer 5) [.integer 2, .integer (-3), .integer 2]) = .ok C ∧
      Layout [2, .ofInt (-3), 2] C ∧ C.indexOf (runningVar secretVar 2) = .ok 9 ∧
      C.Imposes 7 (.multiply (runningVar secretVar 1) (differenceVar secretVar 2)
        (runningVar secretVar 2)) := by
  have hread : Read [.integer 2, .integer (-3), .integer 2] [2, .ofInt (-3), 2] :=
    .cons rfl (.cons rfl (.cons rfl .nil))
  obtain ⟨C, hC, hlayout⟩ :=
    layout_of_read (v := .integer 5) (s := 5) hread (List.cons_ne_nil _ _) rfl
  exact ⟨C, hC, hlayout, hlayout.indices.product 2 (by decide) (by decide),
    hlayout.rows.multiplication 2 (by decide) (by decide)⟩

end

end Membership

end RankOne
