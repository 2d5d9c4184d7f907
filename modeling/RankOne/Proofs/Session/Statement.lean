import RankOne.Proofs.Session.Run

/-!
# Statements and their solutions

A statement is a list of gates about a secret in which nothing is left open: values of names satisfy
the gates exactly when the secret has a certain property and every other variable has the value
that is listed for that secret. A circuit that imposes the gates of a statement and gives the listed
values succeeds, with a system that depends on the gates alone. The vectors that satisfy the system
are the witnesses of the secrets with the property, and no others.
-/

namespace RankOne

/-! ## Listed values -/

/-- The value that is listed for a name, or zero. -/
def listed (ws : List (String × Scalar)) (x : String) : Scalar := (ws.lookup x).getD 0

/-- Every listed name has the value that is listed for it. -/
def Agrees (ρ : String → Scalar) (ws : List (String × Scalar)) : Prop := ∀ w ∈ ws, ρ w.1 = w.2

theorem listed_of_mem {ws : List (String × Scalar)} (h : (ws.map Prod.fst).Nodup)
    {w : String × Scalar} (hw : w ∈ ws) : listed ws w.1 = w.2 := by
  induction ws with
  | nil => cases hw
  | cons v ws ih =>
    rw [List.map_cons, List.nodup_cons] at h
    unfold listed at ih ⊢
    rcases List.mem_cons.mp hw with rfl | hmem
    · rw [List.lookup_cons_self]
      rfl
    · have hne : (w.1 == v.1) = false := by
        apply beq_eq_false_iff_ne.mpr
        intro heq
        exact h.1 (heq ▸ List.mem_map_of_mem hmem)
      rw [List.lookup_cons, hne]
      exact ih h.2 hmem

/-- A value that is listed in a longer list is the same one there. -/
theorem listed_of_subset {ws ws' : List (String × Scalar)} (hsub : ws ⊆ ws')
    (hnodup : (ws.map Prod.fst).Nodup) (hnodup' : (ws'.map Prod.fst).Nodup) {x : String}
    (hx : x ∈ ws.map Prod.fst) : listed ws x = listed ws' x := by
  obtain ⟨w, hw, rfl⟩ := List.mem_map.mp hx
  rw [listed_of_mem hnodup hw, listed_of_mem hnodup' (hsub hw)]

theorem agrees_cons {ρ : String → Scalar} {w : String × Scalar} {ws : List (String × Scalar)} :
    Agrees ρ (w :: ws) ↔ ρ w.1 = w.2 ∧ Agrees ρ ws := List.forall_mem_cons

theorem agrees_append {ρ : String → Scalar} {ws ws' : List (String × Scalar)} :
    Agrees ρ (ws ++ ws') ↔ Agrees ρ ws ∧ Agrees ρ ws' := List.forall_mem_append

theorem agrees_iff {ρ : String → Scalar} {ws : List (String × Scalar)}
    (h : (ws.map Prod.fst).Nodup) : Agrees ρ ws ↔ ∀ x ∈ ws.map Prod.fst, ρ x = listed ws x := by
  rw [List.forall_mem_map]
  apply forall₂_congr
  intro w hw
  rw [listed_of_mem h hw]

/-- The witness is laid out when it has values for exactly the names with an index. -/
theorem Witness.layOut_eq {w : Witness} {t : Names} (h : ∀ x, x ∈ t ↔ x ∈ w.names) :
    w.layOut t = .ok ((t.arrange (listed w.toList)).map Scalar.encode) := by
  have hmissing : t.toList.filter (· ∉ w.names) = [] := by
    rw [List.filter_eq_nil_iff]
    intro x hx
    simpa using (h x).mp hx
  have hunknown : w.names.filter (· ∉ t) = [] := by
    rw [List.filter_eq_nil_iff]
    intro x hx
    simpa using (h x).mpr hx
  rw [layOut, if_pos ⟨hmissing, hunknown⟩, Names.arrange, List.map_map]
  rfl

/-! ## The outcome of a circuit -/

/-- What a circuit gives when its system is accepted as one from outside would be. -/
def outcome (c : Build Unit) : Except Fault CheckedSystem :=
  (assemble (m := Id) (fun S => pure S.accept) c).2

theorem selfCheck_eq {S : System} {I : Shape} {failing : List ℕ}
    (h : I.violatedRows S.witness S.inputs = .ok failing) :
    (selfCheck S I).2 = .ok ⟨S, I, failing.isEmpty⟩ := by
  unfold selfCheck
  rw [h]
  cases failing <;> rfl

theorem outcome_of_close {c : Build Unit} {u : Unit} {s s' : Session} {S : System} {I : Shape}
    (hrun : c Session.fresh = .ok u s) (hclose : Session.close s = .ok S s')
    (haccept : S.accept = .ok I) : outcome c = (selfCheck S I).2 := by
  simp only [outcome, assemble, finish, hrun, hclose, haccept, pure_bind]
  rfl

/-- Circuits that add the same gates and the same values have the same outcome. -/
theorem outcome_congr {c c' : Build Unit} {gs : List (Gate Scalar)} {ws : List (String × Scalar)}
    (h : Session.Adds c Session.fresh gs ws) (h' : Session.Adds c' Session.fresh gs ws) :
    outcome c = outcome c' := by
  obtain ⟨_, s, hrun, hext⟩ := h
  obtain ⟨_, s', hrun', hext'⟩ := h'
  obtain rfl : s = s' := hext.unique hext'
  simp only [outcome, assemble, hrun, hrun']

theorem outcome_of_fails {c : Build Unit} {f : Fault} (h : Session.Fails c Session.fresh f) :
    outcome c = .error f := by
  obtain ⟨s, hrun⟩ := h
  simp only [outcome, assemble, hrun]
  rfl

/-- What an opening adds, followed by values of the other variables. -/
theorem adds_then_perform {opening : Build Unit} {gs : List (Gate Scalar)}
    {ws ws' : List (String × Scalar)} (hopening : Session.Adds opening Session.fresh gs ws)
    (hnodup : (((unit, 1) :: (ws ++ ws')).map Prod.fst).Nodup) :
    Session.Adds (opening >>= fun _ => (Script.done ws').perform) Session.fresh gs (ws ++ ws') := by
  have hperform : ∀ (_ : Unit) t, Session.fresh.Extends gs ws t →
      Session.Adds (Script.done ws').perform t [] ws' := by
    intro _ t hext
    apply Session.adds_perform ws' hext.closed_eq
    rw [hext.witness_names, List.append_assoc, ← List.map_append]
    exact hnodup
  have h := Session.Adds.bind hopening hperform
  rw [List.append_nil] at h
  exact h

/-- A fault that is noticed after the opening and some values is the outcome. -/
theorem outcome_of_failed {opening : Build Unit} {gs : List (Gate Scalar)}
    {ws ws' : List (String × Scalar)} (f : Fault)
    (hopening : Session.Adds opening Session.fresh gs ws)
    (hnodup : (((unit, 1) :: (ws ++ ws')).map Prod.fst).Nodup) :
    outcome (opening >>= fun _ => ((Script.failed f).after ws').perform) = .error f := by
  apply outcome_of_fails
  apply Session.Fails.after hopening
  intro _ t hext
  apply Session.fails_perform _ _ hext.closed_eq
  rw [hext.witness_names, List.append_assoc, ← List.map_append]
  exact hnodup

/-- The session in which the gates have been appended to a fresh one. -/
def Session.ofGates (gs : List (Gate Scalar)) : Session where
  names := fresh.names.insertAll (gs.flatMap Gate.names)
  witness := fresh.witness
  gates := gs
  closing? := none

/-- Some gate mentions the name. -/
def Mentions (gs : List (Gate Scalar)) (x : String) : Prop := ∃ g ∈ gs, x ∈ g.names

@[simp] theorem mentions_nil {x : String} : ¬Mentions [] x := by simp [Mentions]

@[simp] theorem mentions_cons {g : Gate Scalar} {gs : List (Gate Scalar)} {x : String} :
    Mentions (g :: gs) x ↔ x ∈ g.names ∨ Mentions gs x := by simp [Mentions]

@[simp] theorem mentions_append {gs gs' : List (Gate Scalar)} {x : String} :
    Mentions (gs ++ gs') x ↔ Mentions gs x ∨ Mentions gs' x := by
  simp [Mentions, or_and_right, exists_or]

theorem Session.mem_ofGates {gs : List (Gate Scalar)} {x : String} :
    x ∈ (ofGates gs).names ↔ x = unit ∨ Mentions gs x := by
  have hfresh : x ∈ fresh.names ↔ x = unit := by
    show x ∈ [unit] ↔ _
    exact List.mem_singleton
  show x ∈ fresh.names.insertAll (gs.flatMap Gate.names) ↔ _
  rw [Names.mem_insertAll, hfresh, List.mem_flatMap]
  rfl

theorem Session.ofGates_covered (gs : List (Gate Scalar)) : (ofGates gs).Covered where
  unit_mem := mem_ofGates.mpr (Or.inl rfl)
  mentioned := fun g hg _ hx => mem_ofGates.mpr (Or.inr ⟨g, hg, hx⟩)

/-- The matrices that a list of gates gives, whatever the values are. -/
def shapeOf (gs : List (Gate Scalar)) : Shape := ((Session.ofGates gs).system []).toShape

theorem holdsFor_shapeOf (gs : List (Gate Scalar)) {vs : List Scalar}
    (hvs : vs.length = (Session.ofGates gs).names.size) :
    (shapeOf gs).holdsFor (vs.map Scalar.encode) [] =
      .ok (decide ((Session.ofGates gs).names.valuation vs unit = 1 ∧
        ∀ g ∈ gs, g.Holds ((Session.ofGates gs).names.valuation vs))) :=
  Session.holdsFor_system (Session.ofGates_covered gs) [] hvs

/-- A circuit that adds gates and values about the same names gives the system of its gates. -/
theorem outcome_eq {c : Build Unit} {gs : List (Gate Scalar)} {ws : List (String × Scalar)}
    (hadds : Session.Adds c Session.fresh gs ws)
    (hnames : ∀ x, x ∈ (Session.ofGates gs).names ↔ x ∈ ((unit, 1) :: ws).map Prod.fst) :
    ∃ C, outcome c = .ok C ∧ C.accepted = shapeOf gs ∧
      C.system.names = (Session.ofGates gs).names.toList ∧
      C.system.witness =
        ((Session.ofGates gs).names.arrange (listed ((unit, 1) :: ws))).map Scalar.encode ∧
      (shapeOf gs).holdsFor C.system.witness [] = .ok C.satisfied := by
  obtain ⟨_, s, hrun, hext⟩ := hadds
  let vs := (Session.ofGates gs).names.arrange (listed ((unit, 1) :: ws))
  let S := (Session.ofGates gs).system (vs.map Scalar.encode)
  have hvs : vs.length = S.variableCount := Names.length_arrange _ _
  have hnames' : s.names = (Session.ofGates gs).names := hext.names_eq
  have hwitness : s.witness.toList = (unit, 1) :: ws := hext.witness_eq
  have hgates : s.gates = gs := hext.gates_eq
  have hlay : s.witness.layOut s.names = .ok (vs.map Scalar.encode) := by
    show _ = Except.ok (((Session.ofGates gs).names.arrange _).map Scalar.encode)
    rw [← hwitness, ← hnames']
    apply Witness.layOut_eq
    intro x
    rw [hnames', hnames x, ← hwitness]
    rfl
  have hclose := Session.close_of_open hext.closed_eq hlay
  have hS : s.system (vs.map Scalar.encode) = S := by
    unfold Session.system
    rw [hnames', hgates]
    rfl
  rw [hS] at hclose
  have hwell : S.WellFormed := Session.system_wellFormed (Session.ofGates_covered gs) _
  obtain ⟨failing, hfailing⟩ : ∃ failing, S.toShape.violatedRows S.witness S.inputs = .ok failing :=
    ⟨_, System.violatedRows_toShape hwell hvs⟩
  refine ⟨⟨S, S.toShape, failing.isEmpty⟩, ?_, rfl, rfl, rfl, ?_⟩
  · rw [outcome_of_close hrun hclose (System.accept_eq hwell)]
    exact selfCheck_eq hfailing
  · exact Shape.holdsFor_of_violatedRows hfailing

/-! ## Vectors of encodings -/

/-- Every entry is the encoding of a scalar. -/
def Canonical (w : List Bytes) : Prop := ∀ d ∈ w, ∃ a, Scalar.decode d = .ok a

theorem Canonical.exists_scalars {w : List Bytes} (h : Canonical w) :
    ∃ vs : List Scalar, w = vs.map Scalar.encode := by
  induction w with
  | nil => exact ⟨[], rfl⟩
  | cons d w ih =>
    obtain ⟨a, ha⟩ := h d List.mem_cons_self
    obtain ⟨vs, hvs⟩ := ih fun d' hd' => h d' (List.mem_cons_of_mem d hd')
    exact ⟨a :: vs, by rw [List.map_cons, Scalar.encode_of_decode ha, ← hvs]⟩

theorem map_encode_injective {vs vs' : List Scalar}
    (h : vs.map Scalar.encode = vs'.map Scalar.encode) : vs = vs' :=
  (List.map_injective_iff.mpr Scalar.encode_injective) h

/-- The entry at the index of a name is the encoding of the name's value. -/
theorem getElem?_encode {t : Names} {vs : List Scalar} (hvs : vs.length = t.size) {x : String}
    (hx : x ∈ t) :
    (vs.map Scalar.encode)[t.position x]? = some (t.valuation vs x).encode := by
  have hlt : t.position x < vs.length := hvs ▸ Names.position_lt hx
  rw [List.getElem?_map, List.getElem?_eq_getElem hlt, Names.valuation,
    List.getD_eq_getElem _ _ hlt]
  rfl

theorem CheckedSystem.indexOf_eq {C : CheckedSystem} {t : Names} (h : C.system.names = t.toList)
    {x : String} (hx : x ∈ t) : C.indexOf x = .ok (t.position x) := by
  have hlt : t.toList.idxOf x < t.toList.length := Names.position_lt hx
  have hindex : t.toList.idxOf? x = some (t.position x) := by
    rw [List.idxOf?_eq_some_iff]
    refine ⟨hlt, List.getElem_idxOf hlt, ?_⟩
    intro j hj heq
    have hj' : t.toList.idxOf x = j := by
      rw [← heq]
      exact t.nodup.idxOf_getElem j (hj.trans hlt)
    exact absurd hj' hj.ne'
  rw [indexOf, h, hindex]

/-- The vectors that satisfy a shape are the witnesses that a circuit computes for the secrets with
a property, and the entry for the secret determines them. -/
structure Shape.SolvedBy (I : Shape) (i : ℕ) (property : Scalar → Prop)
    (honest : Scalar → Build Unit) : Prop where
  verdict : ∀ w : List Bytes, w.length = I.variableCount → Canonical w →
    ∃ d s b, w[i]? = some d ∧ Scalar.decode d = .ok s ∧ I.holdsFor w [] = .ok b ∧
      (b = true ↔ property s ∧ ∃ C, outcome (honest s) = .ok C ∧ C.system.witness = w)
  unique : ∀ w w' : List Bytes, w.length = I.variableCount → w'.length = I.variableCount →
    Canonical w → Canonical w' → I.holdsFor w [] = .ok true → I.holdsFor w' [] = .ok true →
    w[i]? = w'[i]? → w = w'

/-! ## Statements -/

/-- Gates about a secret with everything that their solutions are made of. -/
structure Statement where
  gates : List (Gate Scalar)
  secret : String
  /-- The values of all variables but `unit`, for a value of the secret. -/
  values : Scalar → List (String × Scalar)
  /-- What the gates say about the secret. -/
  property : Scalar → Prop
  nodup : ∀ s, (((unit, 1) :: values s).map Prod.fst).Nodup
  mentions : ∀ s x, x ∈ (Session.ofGates gates).names ↔ x ∈ ((unit, 1) :: values s).map Prod.fst
  secret_mem : ∀ s, (secret, s) ∈ values s
  solved : ∀ ρ : String → Scalar, ρ unit = 1 →
    ((∀ g ∈ gates, g.Holds ρ) ↔ property (ρ secret) ∧ Agrees ρ (values (ρ secret)))

namespace Statement

variable (T : Statement)

def names : Names := (Session.ofGates T.gates).names

/-- The witness for a value of the secret. -/
def layout (s : Scalar) : List Bytes :=
  (T.names.arrange (listed ((unit, 1) :: T.values s))).map Scalar.encode

theorem secret_mem_names : T.secret ∈ T.names :=
  (T.mentions 0 T.secret).mpr (List.mem_cons_of_mem _ (List.mem_map_of_mem (T.secret_mem 0)))

theorem agrees_listed (s : Scalar) : Agrees (listed ((unit, 1) :: T.values s)) (T.values s) :=
  fun _ hw => listed_of_mem (T.nodup s) (List.mem_cons_of_mem _ hw)

/-- The witness has at the index of a name the value that is listed for it. -/
theorem getElem?_layout (s : Scalar) {x : String} (hx : x ∈ T.names) :
    (T.layout s)[T.names.position x]? = some (listed ((unit, 1) :: T.values s) x).encode := by
  have hlen : (T.names.arrange (listed ((unit, 1) :: T.values s))).length = T.names.size :=
    Names.length_arrange _ _
  rw [layout, getElem?_encode hlen hx, Names.valuation_arrange _ _ hx]

/-- The values of the names are the listed ones when the vector is the witness. -/
theorem agrees_iff_layout {vs : List Scalar} (hvs : vs.length = T.names.size) (s : Scalar) :
    Agrees (T.names.valuation vs) ((unit, 1) :: T.values s) ↔
      vs.map Scalar.encode = T.layout s := by
  rw [agrees_iff (T.nodup s)]
  constructor
  · intro h
    have heq : vs = T.names.arrange (listed ((unit, 1) :: T.values s)) :=
      (T.names.arrange_eq_iff hvs _).mpr fun x hx => h x ((T.mentions s x).mp hx)
    exact congrArg (List.map Scalar.encode) heq
  · intro h x hx
    have heq := map_encode_injective h
    exact (T.names.arrange_eq_iff hvs _).mp heq x ((T.mentions s x).mpr hx)

/-- A vector satisfies the gates when its secret has the property and it is the witness of that
secret. -/
theorem holdsFor_iff {vs : List Scalar} (hvs : vs.length = T.names.size) :
    (shapeOf T.gates).holdsFor (vs.map Scalar.encode) [] = .ok true ↔
      T.property (T.names.valuation vs T.secret) ∧
        vs.map Scalar.encode = T.layout (T.names.valuation vs T.secret) := by
  rw [holdsFor_shapeOf T.gates hvs, Except.ok.injEq, decide_eq_true_iff, ← T.agrees_iff_layout hvs,
    agrees_cons]
  show T.names.valuation vs unit = 1 ∧ (∀ g ∈ T.gates, g.Holds (T.names.valuation vs)) ↔ _
  constructor
  · intro h
    obtain ⟨hunit, hgates⟩ := h
    obtain ⟨hproperty, hagrees⟩ := (T.solved _ hunit).mp hgates
    exact ⟨hproperty, hunit, hagrees⟩
  · intro h
    obtain ⟨hproperty, hunit, hagrees⟩ := h
    exact ⟨hunit, (T.solved _ hunit).mpr ⟨hproperty, hagrees⟩⟩

/-- The exact set of vectors that satisfy the gates. -/
theorem solutions {w : List Bytes} (hlen : w.length = T.names.size) (hw : Canonical w) :
    ∃ s verdict, w[T.names.position T.secret]? = some s.encode ∧
      (shapeOf T.gates).holdsFor w [] = .ok verdict ∧
      (verdict = true ↔ T.property s ∧ w = T.layout s) := by
  obtain ⟨vs, rfl⟩ := hw.exists_scalars
  have hvs : vs.length = T.names.size := by rw [List.length_map] at hlen; exact hlen
  have hholds := holdsFor_shapeOf T.gates hvs
  have hiff := T.holdsFor_iff hvs
  rw [hholds, Except.ok.injEq] at hiff
  exact ⟨_, _, getElem?_encode hvs T.secret_mem_names, hholds, hiff⟩

/-- A circuit that adds the gates and the listed values for a secret succeeds, and its system is
satisfied when the secret has the property. -/
theorem outcome_of_adds {c : Build Unit} {s : Scalar}
    (hadds : Session.Adds c Session.fresh T.gates (T.values s)) :
    ∃ C, outcome c = .ok C ∧ C.accepted = shapeOf T.gates ∧ C.system.names = T.names.toList ∧
      C.system.witness = T.layout s ∧ (C.satisfied = true ↔ T.property s) := by
  obtain ⟨C, hC, haccepted, hnames, hwitness, hholds⟩ := outcome_eq hadds (T.mentions s)
  refine ⟨C, hC, haccepted, hnames, hwitness, ?_⟩
  let vs := T.names.arrange (listed ((unit, 1) :: T.values s))
  have hvs : vs.length = T.names.size := Names.length_arrange _ _
  have hsecret : T.names.valuation vs T.secret = s := by
    rw [Names.valuation_arrange _ _ T.secret_mem_names]
    exact listed_of_mem (T.nodup s) (List.mem_cons_of_mem _ (T.secret_mem s))
  have hiff := T.holdsFor_iff hvs
  rw [hsecret] at hiff
  rw [hwitness] at hholds
  change (shapeOf T.gates).holdsFor (vs.map Scalar.encode) [] = .ok C.satisfied at hholds
  rw [hholds, Except.ok.injEq] at hiff
  rw [hiff]
  exact and_iff_left rfl

/-- The accepted shape and the index of the secret do not depend on the secret. -/
theorem accepted_of_adds {c : Build Unit} {s : Scalar}
    (hadds : Session.Adds c Session.fresh T.gates (T.values s)) {C : CheckedSystem}
    (hC : outcome c = .ok C) :
    C.accepted = shapeOf T.gates ∧ C.indexOf T.secret = .ok (T.names.position T.secret) := by
  obtain ⟨C', hC', haccepted, hnames, -⟩ := T.outcome_of_adds hadds
  obtain rfl : C = C' := Except.ok.inj (hC.symm.trans hC')
  exact ⟨haccepted, CheckedSystem.indexOf_eq hnames T.secret_mem_names⟩

/-- A circuit that adds what is listed for a secret computes the vectors that satisfy the gates. -/
theorem solvedBy {honest : Scalar → Build Unit}
    (hadds : ∀ s, Session.Adds (honest s) Session.fresh T.gates (T.values s)) :
    (shapeOf T.gates).SolvedBy (T.names.position T.secret) T.property honest where
  verdict := by
    intro w hlen hw
    obtain ⟨s, b, hentry, hholds, hiff⟩ := T.solutions (Int.ofNat.inj hlen) hw
    refine ⟨s.encode, s, b, hentry, Scalar.decode_encode s, hholds, ?_⟩
    obtain ⟨C, hC, -, -, hwitness, -⟩ := T.outcome_of_adds (hadds s)
    rw [hiff, ← hwitness]
    apply and_congr_right
    intro _
    constructor
    · intro heq
      exact ⟨C, hC, heq.symm⟩
    · intro h
      obtain ⟨C', hC', hwitness'⟩ := h
      obtain rfl : C = C' := Except.ok.inj (hC.symm.trans hC')
      exact hwitness'.symm
  unique := by
    intro w w' hlen hlen' hw hw' hholds hholds' hentry
    obtain ⟨s, b, hs, hb, hiff⟩ := T.solutions (Int.ofNat.inj hlen) hw
    obtain ⟨s', b', hs', hb', hiff'⟩ := T.solutions (Int.ofNat.inj hlen') hw'
    have htrue : b = true := Except.ok.inj (hb.symm.trans hholds)
    have htrue' : b' = true := Except.ok.inj (hb'.symm.trans hholds')
    have heq : s = s' := by
      rw [hs, hs'] at hentry
      exact Scalar.encode_injective (Option.some.inj hentry)
    rw [(hiff.mp htrue).2, (hiff'.mp htrue').2, heq]

end Statement

end RankOne
