import RankOne.Proofs.Session.Growth
import RankOne.Proofs.Session.Statement

/-!
# The system that a history leads to

A history is any list of steps on a fresh session, failed ones included. If the session can be
closed at the end, its system has a row for each gate that a step has added, and the closing row
after them. For a vector of canonical encodings, the violated rows are those of the gates that are
false for the values that the vector gives to names, as long as it gives the value one to `unit`;
otherwise the closing row is violated.
-/

namespace RankOne

/-- The numbers of the gates that do not hold, in increasing order. -/
def falseRows (ρ : String → Scalar) (gs : List (Gate Scalar)) : List ℕ :=
  (gs.zipIdx.filter fun g => ¬g.1.Holds ρ).map Prod.snd

theorem mem_falseRows {ρ : String → Scalar} {gs : List (Gate Scalar)} {k : ℕ} :
    k ∈ falseRows ρ gs ↔ ∃ g, gs[k]? = some g ∧ ¬g.Holds ρ := by
  simp only [falseRows, List.mem_map, List.mem_filter, decide_eq_true_eq, Prod.exists,
    exists_eq_right, List.mem_zipIdx_iff_getElem?]

theorem isEmpty_falseRows (ρ : String → Scalar) (gs : List (Gate Scalar)) :
    (falseRows ρ gs).isEmpty = decide (∀ g ∈ gs, g.Holds ρ) := by
  rw [Bool.eq_iff_iff, List.isEmpty_iff, decide_eq_true_iff, List.eq_nil_iff_forall_not_mem]
  simp only [mem_falseRows, not_exists, not_and, not_not]
  constructor
  · intro h g hg
    obtain ⟨k, hk⟩ := List.mem_iff_getElem?.mp hg
    exact h k g hk
  · intro h k g hk
    exact h g (List.mem_of_getElem? hk)

theorem falseRows_eq_nil {ρ : String → Scalar} {gs : List (Gate Scalar)}
    (h : ∀ g ∈ gs, g.Holds ρ) : falseRows ρ gs = [] := by
  rw [← List.isEmpty_iff, isEmpty_falseRows, decide_eq_true_iff]
  exact h

theorem falseRows_concat (ρ : String → Scalar) (gs : List (Gate Scalar)) (g : Gate Scalar) :
    falseRows ρ (gs ++ [g]) = falseRows ρ gs ++ if g.Holds ρ then [] else [gs.length] := by
  unfold falseRows
  rw [List.zipIdx_append, List.filter_append, List.map_append, List.zipIdx_singleton, Nat.zero_add]
  congr 1
  by_cases hg : g.Holds ρ <;> simp [hg]

theorem falseRows_congr {ρ ρ' : String → Scalar} {gs : List (Gate Scalar)}
    (h : ∀ g ∈ gs, ∀ x ∈ g.names, ρ x = ρ' x) : falseRows ρ gs = falseRows ρ' gs := by
  unfold falseRows
  congr 1
  apply List.filter_congr
  rintro ⟨g, k⟩ hg
  have hmem : g ∈ gs := List.mem_of_getElem? (List.mem_zipIdx_iff_getElem?.mp hg)
  exact decide_eq_decide.mpr (not_congr (Gate.holds_congr (h g hmem)))

theorem length_falseRows (ρ : String → Scalar) (gs : List (Gate Scalar)) :
    (falseRows ρ gs).length = failing ρ gs := by
  have hgates : gs.zipIdx.map Prod.fst = gs := List.zipIdx_map_fst 0 gs
  conv_rhs => rw [← hgates, failing, List.countP_map]
  rw [falseRows, List.length_map, ← List.countP_eq_length_filter]
  rfl

/-! ## Systems that state gates -/

/-- The value that a vector of encodings gives to a name: the entry at its index, decoded. -/
def System.reading (S : System) (w : List Bytes) (x : String) : Scalar :=
  match w[S.names.idxOf x]? with
  | some d => (Scalar.decode d).toOption.getD 0
  | none => 0

/-- The system has a row for each of the gates, in order, and a last row that says that `unit` is
one. The other rows say about a vector what the gates say about the values it gives to names. -/
structure System.States (S : System) (gs : List (Gate Scalar)) : Prop where
  accepted : S.accept = .ok S.toShape
  rowCount_eq : S.rowCount = gs.length + 1
  violated : ∀ w : List Bytes, w.length = S.variableCount → Canonical w →
    w[0]? = some (1 : Scalar).encode →
    S.toShape.violatedRows w [] = .ok (falseRows (S.reading w) gs)
  unit_violated : ∀ w : List Bytes, w.length = S.variableCount → Canonical w →
    w[0]? ≠ some (1 : Scalar).encode →
    ∃ rows, S.toShape.violatedRows w [] = .ok rows ∧ gs.length ∈ rows
  verdict : ∀ w : List Bytes, w.length = S.variableCount → Canonical w →
    S.toShape.holdsFor w [] =
      .ok (decide (w[0]? = some (1 : Scalar).encode ∧ ∀ g ∈ gs, g.Holds (S.reading w)))

namespace Session

/-- What every session keeps that started as a fresh one. -/
structure Regular (s : Session) : Prop extends s.Covered where
  unit_first : s.names.position unit = 0
  unit_value : (unit, 1) ∈ s.witness.toList

theorem regular_fresh : fresh.Regular where
  unit_mem := List.mem_singleton.mpr rfl
  mentioned := List.forall_mem_nil _
  unit_first := by decide
  unit_value := List.mem_singleton.mpr rfl

theorem Extends.grows {s s' : Session} {gs : List (Gate Scalar)} {ws : List (String × Scalar)}
    (h : s.Extends gs ws s') : s.Grows gs s' where
  names_eq := ⟨_, h.names_eq⟩
  mentioned := by
    intro g hg x hx
    rw [h.names_eq, Names.mem_insertAll]
    exact Or.inr (List.mem_flatMap.mpr ⟨g, hg, hx⟩)
  gates_eq := h.gates_eq
  values_prefix := h.witness_eq ▸ List.prefix_append _ _
  closing_eq := h.closing_eq

theorem Grows.regular {s s' : Session} {gs : List (Gate Scalar)} (h : s.Grows gs s')
    (hs : s.Regular) : s'.Regular where
  unit_mem := h.mem_names hs.unit_mem
  mentioned := by
    rw [h.gates_eq, List.forall_mem_append]
    exact ⟨fun g hg x hx => h.mem_names (hs.mentioned g hg x hx), h.mentioned⟩
  unit_first := (h.position_eq hs.unit_mem).trans hs.unit_first
  unit_value := h.values_prefix.subset hs.unit_value

section

variable {s : Session} {vs : List Scalar}

theorem reading_system (s : Session) (values : List Bytes) (vs : List Scalar) :
    (s.system values).reading (vs.map Scalar.encode) = s.names.valuation vs := by
  funext x
  show (match (vs.map Scalar.encode)[s.names.position x]? with
    | some d => (Scalar.decode d).toOption.getD 0
    | none => 0) = vs.getD (s.names.position x) 0
  rw [List.getElem?_map, List.getD_eq_getElem?_getD]
  cases vs[s.names.position x]? with
  | none => rfl
  | some a =>
    show (Scalar.decode a.encode).toOption.getD 0 = a
    rw [Scalar.decode_encode]
    rfl

/-- Among the rows before the closing row, those of the false gates are violated. -/
theorem filter_rowHolds (h : s.Covered) (values : List Bytes) (hvs : vs.length = s.names.size)
    (hunit : s.names.valuation vs unit = 1) :
    ((List.range s.gates.length).filter fun k =>
      ¬(s.system values).toShape.RowHolds ((vs ++ [1]).getD · 0) k) =
      falseRows (s.names.valuation vs) s.gates := by
  have hindices : s.gates.zipIdx.map Prod.snd = List.range s.gates.length := by
    rw [List.zipIdx_map_snd, List.range_eq_range']
  unfold falseRows
  rw [← hindices, List.filter_map]
  congr 1
  apply List.filter_congr
  rintro ⟨g, k⟩ hg
  have hindex := List.mem_zipIdx_iff_getElem?.mp hg
  obtain ⟨hk, hgk⟩ := List.getElem?_eq_some_iff.mp hindex
  have hlt : k < (s.system values).rows.length := by
    simp only [system, List.length_append, List.length_map]
    omega
  have hrow : (s.system values).rows[k] = g.row.map s.names.position := by
    simp only [system]
    rw [List.getElem_append_left (by rw [List.length_map]; exact hk), List.getElem_map, hgk]
  have hmem : g ∈ s.gates := List.mem_of_getElem? hindex
  have hiff : (s.system values).toShape.RowHolds ((vs ++ [1]).getD · 0) k ↔
      g.Holds (s.names.valuation vs) := by
    rw [System.rowHolds_toShape _ hlt, hrow]
    exact holds_row_map hvs hunit (h.mentioned g hmem)
  exact decide_eq_decide.mpr (not_congr hiff)

theorem closingRow_holds_iff (h : s.Covered) (values : List Bytes)
    (hvs : vs.length = s.names.size) :
    (s.system values).toShape.RowHolds ((vs ++ [1]).getD · 0) s.gates.length ↔
      s.names.valuation vs unit = 1 := by
  have hlt : s.gates.length < (s.system values).rows.length := by
    simp only [system, List.length_append, List.length_map, List.length_singleton]
    omega
  have hrow : (s.system values).rows[s.gates.length] = closingRow s.names := by
    simp only [system]
    rw [List.getElem_append_right (by rw [List.length_map]), List.getElem_singleton]
  rw [System.rowHolds_toShape _ hlt, hrow]
  exact holds_closingRow hvs h.unit_mem

/-- The first entry of a vector belongs to `unit`. -/
theorem first_entry_iff (h : s.Regular) (hvs : vs.length = s.names.size) :
    (vs.map Scalar.encode)[0]? = some (1 : Scalar).encode ↔ s.names.valuation vs unit = 1 := by
  have hentry := getElem?_encode hvs h.unit_mem
  rw [h.unit_first] at hentry
  rw [hentry, Option.some.injEq]
  exact Scalar.encode_injective.eq_iff

/-- The system that a session closes to states the gates of the session. -/
theorem system_states (h : s.Regular) (values : List Bytes) : (s.system values).States s.gates where
  accepted := System.accept_eq (system_wellFormed h.toCovered values)
  rowCount_eq := by simp [System.rowCount, system]
  violated := by
    intro w hlen hw hone
    obtain ⟨vs, rfl⟩ := hw.exists_scalars
    have hvs : vs.length = s.names.size := by rw [List.length_map] at hlen; exact hlen
    have hunit := (first_entry_iff h hvs).mp hone
    have hcount : (s.system values).rowCount = s.gates.length + 1 := by
      simp [System.rowCount, system]
    have hlast := (closingRow_holds_iff h.toCovered values hvs).mpr hunit
    rw [System.violatedRows_toShape (system_wellFormed h.toCovered values) hvs, hcount,
      List.range_succ, List.filter_append, filter_rowHolds h.toCovered values hvs hunit,
      reading_system, List.filter_cons_of_neg (by simpa using hlast), List.filter_nil,
      List.append_nil]
  unit_violated := by
    intro w hlen hw hne
    obtain ⟨vs, rfl⟩ := hw.exists_scalars
    have hvs : vs.length = s.names.size := by rw [List.length_map] at hlen; exact hlen
    have hunit := mt (first_entry_iff h hvs).mpr hne
    have hlast := mt (closingRow_holds_iff h.toCovered values hvs).mp hunit
    refine ⟨_, System.violatedRows_toShape (system_wellFormed h.toCovered values) hvs, ?_⟩
    rw [List.mem_filter, List.mem_range, decide_eq_true_iff]
    refine ⟨?_, hlast⟩
    simp [System.rowCount, system]
  verdict := by
    intro w hlen hw
    obtain ⟨vs, rfl⟩ := hw.exists_scalars
    have hvs : vs.length = s.names.size := by rw [List.length_map] at hlen; exact hlen
    rw [holdsFor_system h.toCovered values hvs, reading_system]
    congr 1
    exact decide_eq_decide.mpr (and_congr_left' (first_entry_iff h hvs).symm)

end

/-! ## Closing -/

/-- A witness that is laid out has values for exactly the names with an index. -/
theorem mem_iff_of_layOut {w : Witness} {t : Names} {values : List Bytes}
    (h : w.layOut t = .ok values) (x : String) : x ∈ t ↔ x ∈ w.names := by
  by_cases hboth : t.toList.filter (· ∉ w.names) = [] ∧ w.names.filter (· ∉ t) = []
  · obtain ⟨hmissing, hunknown⟩ := hboth
    rw [List.filter_eq_nil_iff] at hmissing hunknown
    constructor
    · intro hx
      simpa using hmissing x hx
    · intro hx
      simpa using hunknown x hx
  · rw [Witness.layOut, if_neg hboth] at h
    cases h

/-- A session that closes is open, has values for exactly its names, and gives its system. -/
theorem eq_of_close {s s' : Session} {S : System} (h : close s = .ok S s') :
    s.closed = false ∧ (∀ x, x ∈ s.names ↔ x ∈ s.witness.names) ∧
      S = s.system ((s.names.arrange (listed s.witness.toList)).map Scalar.encode) := by
  cases hopen : s.closed with
  | true =>
    simp only [close, hopen, if_true] at h
    cases h
  | false =>
    cases hvalues : s.witness.layOut s.names with
    | error f =>
      simp only [close, hopen, hvalues] at h
      cases h
    | ok values =>
      have hnames := mem_iff_of_layOut hvalues
      rw [close_of_open hopen hvalues] at h
      rw [Witness.layOut_eq hnames] at hvalues
      obtain rfl := Except.ok.inj hvalues
      cases h
      exact ⟨rfl, hnames, rfl⟩

theorem canonical_map_encode (vs : List Scalar) : Canonical (vs.map Scalar.encode) := by
  intro d hd
  obtain ⟨a, _, rfl⟩ := List.mem_map.mp hd
  exact ⟨a, Scalar.decode_encode a⟩

/-- The witness of a system has an encoding for each variable, which is that of the value that the
session had for it. -/
theorem witness_of_close {s s' : Session} {S : System} (hs : s.Regular)
    (h : close s = .ok S s') :
    S.witness.length = S.variableCount ∧ Canonical S.witness ∧
      S.witness[0]? = some (1 : Scalar).encode ∧
      ∀ x ∈ s.names, S.reading S.witness x = listed s.witness.toList x := by
  obtain ⟨-, -, rfl⟩ := eq_of_close h
  let vs := s.names.arrange (listed s.witness.toList)
  have hvs : vs.length = s.names.size := Names.length_arrange _ _
  have hvalue : ∀ x ∈ s.names, s.names.valuation vs x = listed s.witness.toList x :=
    fun x hx => Names.valuation_arrange _ _ hx
  have hunit : s.names.valuation vs unit = 1 :=
    (hvalue unit hs.unit_mem).trans (listed_of_mem s.witness.nodup hs.unit_value)
  refine ⟨?_, canonical_map_encode vs, (first_entry_iff hs hvs).mpr hunit, ?_⟩
  · exact (List.length_map _).trans hvs
  · intro x hx
    have hreading := congrFun (reading_system s (vs.map Scalar.encode) vs) x
    exact hreading.trans (hvalue x hx)

/-! ## Finishing -/

/-- What a session gives when it is closed and its system is accepted as one from outside. -/
def checked (s : Session) : Except Fault CheckedSystem :=
  (finish (m := Id) (fun S => pure S.accept) s).result

theorem open_of_checked {s : Session} {C : CheckedSystem} (h : s.checked = .ok C) :
    s.closed = false := by
  unfold checked finish at h
  cases hclose : close s with
  | error f s' =>
    rw [hclose] at h
    cases h
  | ok S s' => exact (eq_of_close hclose).1

/-- A session that gives a checked system closes to that system, which is accepted as it is, and the
verdict is whether its witness violates no row. -/
theorem close_of_checked {s : Session} (hs : s.Regular) {C : CheckedSystem}
    (h : s.checked = .ok C) :
    ∃ s' rows, close s = .ok C.system s' ∧ C.accepted = C.system.toShape ∧
      C.accepted.violatedRows C.system.witness C.system.inputs = .ok rows ∧
      C.satisfied = rows.isEmpty := by
  cases hclose : close s with
  | error f s' =>
    rw [checked, finish, hclose] at h
    cases h
  | ok S s' =>
    obtain ⟨-, -, hS⟩ := eq_of_close hclose
    have haccepted : S.accept = .ok S.toShape := by
      rw [hS]
      exact (system_states hs _).accepted
    have hresult : (selfCheck S S.toShape).2 = .ok C := by
      rw [← h, checked, finish, hclose]
      simp only [haccepted, pure_bind]
      rfl
    cases hrows : S.toShape.violatedRows S.witness S.inputs with
    | error f =>
      rw [selfCheck, hrows] at hresult
      cases hresult
    | ok rows =>
      rw [selfCheck_eq hrows] at hresult
      obtain rfl := Except.ok.inj hresult
      exact ⟨s', rows, rfl, rfl, hrows, rfl⟩

/-- The witness of a session violates the rows of the gates that are false for the values given. -/
theorem violatedRows_of_close {s s' : Session} {S : System} (hs : s.Regular)
    (h : close s = .ok S s') :
    S.toShape.violatedRows S.witness S.inputs =
      .ok (falseRows (listed s.witness.toList) s.gates) := by
  obtain ⟨hlen, hcanonical, hone, hvalues⟩ := witness_of_close hs h
  obtain ⟨-, -, hS⟩ := eq_of_close h
  have hstates : S.States s.gates := hS ▸ system_states hs _
  have hinputs : S.inputs = [] := by
    rw [hS]
    rfl
  have hrows : falseRows (S.reading S.witness) s.gates =
      falseRows (listed s.witness.toList) s.gates :=
    falseRows_congr fun g hg x hx => hvalues x (hs.mentioned g hg x hx)
  rw [hinputs, hstates.violated S.witness hlen hcanonical hone, hrows]

/-- The rows that the witness of a session violates are those of the gates that are false for the
values given, and the system is satisfied when there are none. -/
theorem violatedRows_of_checked {s : Session} (hs : s.Regular) {C : CheckedSystem}
    (h : s.checked = .ok C) :
    C.accepted.violatedRows C.system.witness C.system.inputs =
        .ok (falseRows (listed s.witness.toList) s.gates) ∧
      C.satisfied = (falseRows (listed s.witness.toList) s.gates).isEmpty := by
  obtain ⟨s', rows, hclose, haccepted, hviolated, hsatisfied⟩ := close_of_checked hs h
  have hfalse := violatedRows_of_close hs hclose
  rw [← haccepted, hviolated] at hfalse
  obtain rfl := Except.ok.inj hfalse
  exact ⟨hviolated, hsatisfied⟩

/-- The system of a session is satisfied when all gates hold for the values given. -/
theorem satisfied_iff_of_checked {s : Session} (hs : s.Regular) {C : CheckedSystem}
    (h : s.checked = .ok C) :
    C.satisfied = true ↔ ∀ g ∈ s.gates, g.Holds (listed s.witness.toList) := by
  rw [(violatedRows_of_checked hs h).2, isEmpty_falseRows, decide_eq_true_iff]

/-- What a circuit leads to when it adds gates and values. -/
theorem checked_of_adds {c : Build Unit} {gs : List (Gate Scalar)} {ws : List (String × Scalar)}
    (hadds : Adds c fresh gs ws) {C : CheckedSystem} (hC : outcome c = .ok C) :
    ∃ s : Session, s.Regular ∧ s.checked = .ok C ∧ s.gates = gs ∧
      s.witness.toList = (unit, 1) :: ws := by
  obtain ⟨_, s, hrun, hext⟩ := hadds
  refine ⟨s, hext.grows.regular regular_fresh, ?_, hext.gates_eq, hext.witness_eq⟩
  rw [← hC]
  simp only [outcome, assemble, hrun]
  rfl

/-- A circuit that adds gates and values violates the rows of the gates that are false for them. -/
theorem violatedRows_of_adds {c : Build Unit} {gs : List (Gate Scalar)}
    {ws : List (String × Scalar)} (hadds : Adds c fresh gs ws) {C : CheckedSystem}
    (hC : outcome c = .ok C) :
    C.accepted.violatedRows C.system.witness C.system.inputs =
      .ok (falseRows (listed ((unit, 1) :: ws)) gs) := by
  obtain ⟨s, hregular, hchecked, hgates, hwitness⟩ := checked_of_adds hadds hC
  rw [(violatedRows_of_checked hregular hchecked).1, hwitness, hgates]

/-- The system of a circuit is made from its gates; only the witness depends on the values. -/
theorem system_of_adds {c : Build Unit} {gs : List (Gate Scalar)} {ws : List (String × Scalar)}
    (hadds : Adds c fresh gs ws) {C : CheckedSystem} (hC : outcome c = .ok C) :
    C.system = (ofGates gs).system C.system.witness ∧ C.accepted = C.system.toShape := by
  obtain ⟨_, s, hrun, hext⟩ := hadds
  have hchecked : s.checked = .ok C := by
    rw [← hC]
    simp only [outcome, assemble, hrun]
    rfl
  obtain ⟨_, _, hclose, haccepted, -⟩ :=
    close_of_checked (hext.grows.regular regular_fresh) hchecked
  obtain ⟨-, -, hS⟩ := eq_of_close hclose
  have hnames : s.names = (ofGates gs).names := hext.names_eq
  have hgates : s.gates = (ofGates gs).gates := hext.gates_eq
  refine ⟨?_, haccepted⟩
  rw [hS, system, hnames, hgates]
  rfl

/-- The rows of a circuit are those of its gates, by the indices of the names, and the closing
row. -/
theorem rows_of_adds {c : Build Unit} {gs : List (Gate Scalar)} {ws : List (String × Scalar)}
    (hadds : Adds c fresh gs ws) {C : CheckedSystem} (hC : outcome c = .ok C) :
    C.accepted = C.system.toShape ∧ ∃ last,
      C.system.rows = gs.map (fun g => g.row.map C.system.names.idxOf) ++ [last] := by
  obtain ⟨hS, haccepted⟩ := system_of_adds hadds hC
  refine ⟨haccepted, closingRow (ofGates gs).names, ?_⟩
  rw [hS]
  rfl

/-! ## Histories -/

/-- The session that a history leads to. -/
def reached (ts : List Step) : Session := ts.foldl (fun s t => t.after s) fresh

theorem reached_append (ts ts' : List Step) :
    reached (ts ++ ts') = ts'.foldl (fun s t => t.after s) (reached ts) := List.foldl_append

/-- As long as the session is still open, a history has added the gates of all its steps. -/
theorem grows_foldl (ts : List Step) {s : Session}
    (hopen : (ts.foldl (fun s t => t.after s) s).closed = false) :
    s.Grows (ts.flatMap Step.gates) (ts.foldl (fun s t => t.after s) s) := by
  induction ts generalizing s with
  | nil => exact Grows.refl s
  | cons t ts ih =>
    have hrest := ih (s := t.after s) hopen
    have hfirst := Step.grows_after (hrest.closed_eq.symm.trans hopen)
    exact hfirst.trans hrest

theorem gates_reached {ts : List Step} (hopen : (reached ts).closed = false) :
    (reached ts).gates = ts.flatMap Step.gates := (grows_foldl ts hopen).gates_eq

theorem regular_reached {ts : List Step} (hopen : (reached ts).closed = false) :
    (reached ts).Regular := (grows_foldl ts hopen).regular regular_fresh

/-- A history that leaves the session open found it open at every step. -/
theorem open_before {ts ts' : List Step} (hopen : (reached (ts ++ ts')).closed = false) :
    (reached ts).closed = false := by
  rw [reached_append] at hopen
  exact (grows_foldl ts' hopen).closed_eq.symm.trans hopen

/-- A gate that is accepted is the one at the number that is given back for it. -/
theorem getElem?_of_gate {before after : List Step} {g : Gate Value} {k : ℕ} {s : Session}
    (hrun : gate g (reached before) = .ok k s)
    (hopen : (reached (before ++ .gate g :: after)).closed = false) :
    ∃ g', g.read = .ok g' ∧
      ((before ++ .gate g :: after).flatMap Step.gates)[k]? = some g' := by
  have hbefore := open_before hopen
  cases hread : g.read with
  | error r =>
    simp only [gate, hread] at hrun
    cases hrun
  | ok g' =>
    have hgates : (Step.gate g).gates = [g'] := by
      show readable g = _
      unfold readable
      rw [hread]
    simp only [gate, hread] at hrun
    rw [append_of_open hbefore] at hrun
    cases hrun
    refine ⟨g', rfl, ?_⟩
    rw [List.flatMap_append, List.flatMap_cons, hgates, gates_reached hbefore]
    simp

/-- The system of a history that closes states the gates that the steps have added. A row has the
number that was given back for its gate. -/
theorem states_gates (ts : List Step) {S : System} {s : Session}
    (hclose : close (reached ts) = .ok S s) :
    S.States (ts.flatMap Step.gates) ∧
      ∀ (before after : List Step) (g : Gate Value) (k : ℕ) (t : Session),
        ts = before ++ .gate g :: after → gate g (reached before) = .ok k t →
        ∃ g', g.read = .ok g' ∧ (ts.flatMap Step.gates)[k]? = some g' := by
  obtain ⟨hopen, -, hS⟩ := eq_of_close hclose
  constructor
  · rw [hS, ← gates_reached hopen]
    exact system_states (regular_reached hopen) _
  · intro before after g k t hts hrun
    subst hts
    exact getElem?_of_gate hrun hopen

/-- A square, with a step that is refused and mentions a name all the same. -/
theorem states_gates_square :
    ∃ S s, close (reached [.publish "n" (.integer 9), .gate (.scale "a" .absent "b"),
        .gate (.multiply "a" "a" "n"), .assign "a" (.integer 3)]) = .ok S s ∧
      S.States [.constant "n" (.ofInt 9), .multiply "a" "a" "n"] := by
  obtain ⟨S, s, hclose⟩ : ∃ S s, close (reached [.publish "n" (.integer 9),
      .gate (.scale "a" .absent "b"), .gate (.multiply "a" "a" "n"),
      .assign "a" (.integer 3)]) = .ok S s := ⟨_, _, rfl⟩
  exact ⟨S, s, hclose, (states_gates _ hclose).1⟩

end Session

end RankOne
