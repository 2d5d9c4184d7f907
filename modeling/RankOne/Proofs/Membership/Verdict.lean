import RankOne.Proofs.Membership.Variables

/-!
# What a satisfied membership statement means

With elements that are all read, and at least one of them, the circuit publishes the elements and
imposes its rows whatever the secret is, and it succeeds unless the secret is refused. A vector of
values satisfies its system when it is the witness of a secret that equals an element.
-/

namespace RankOne.Membership

variable {v : Value} {elements : List Value} {es : List Scalar} {s : Scalar}

/-! ## The statement -/

theorem agrees_zip_iff {ρ : String → Scalar} {xs : List String} (hlen : xs.length = es.length) :
    Agrees ρ (xs.zip es) ↔ xs.map ρ = es := by
  induction xs generalizing es with
  | nil =>
    rw [List.eq_nil_of_length_eq_zero hlen.symm]
    exact iff_of_true (List.forall_mem_nil _) rfl
  | cons x xs ih =>
    cases es with
    | nil => cases hlen
    | cons e es =>
      rw [List.zip_cons_cons, agrees_cons, ih (Nat.succ.inj hlen), List.map_cons, List.cons.injEq]

theorem length_members (n : ℕ) : (members n).length = n := by
  rw [members, List.length_map, List.length_range]

theorem members_ne_nil (hne : es ≠ []) : members es.length ≠ [] := by
  apply List.ne_nil_of_length_pos
  rw [length_members]
  exact List.length_pos_iff.mpr hne

theorem holds_constants_iff (ρ : String → Scalar) (es : List Scalar) :
    (∀ g ∈ constants es, g.Holds ρ) ↔ (members es.length).map ρ = es := by
  rw [← agrees_zip_iff (length_members es.length), constants, List.forall_mem_map]
  rfl

theorem solved (hne : es ≠ []) (ρ : String → Scalar) :
    (∀ g ∈ constants es ++ gates secretVar (members es.length), g.Holds ρ) ↔
      ρ secretVar ∈ es ∧ Agrees ρ (values es (ρ secretVar)) := by
  rw [List.forall_mem_append, holds_constants_iff, gates_iff (members_ne_nil hne), values,
    agrees_append, agrees_cons, agrees_zip_iff (length_members es.length)]
  constructor
  · intro h
    obtain ⟨hmembers, hmem, hwrites⟩ := h
    rw [hmembers] at hmem hwrites
    exact ⟨hmem, hmembers, rfl, hwrites⟩
  · intro h
    obtain ⟨hmem, hmembers, -, hwrites⟩ := h
    rw [hmembers]
    exact ⟨rfl, hmem, hwrites⟩

/-- The statement that a secret is one of the constants. -/
def statement (es : List Scalar) (hne : es ≠ []) : Statement where
  gates := constants es ++ gates secretVar (members es.length)
  secret := secretVar
  values := values es
  property := (· ∈ es)
  nodup := nodup_values es
  mentions := mentions_values hne
  secret_mem := fun _ => List.mem_append_right _ List.mem_cons_self
  solved := fun ρ _ => solved hne ρ

/-- For the values of any secret all rows hold but perhaps the last one. -/
theorem gates_eq_concat (hne : es ≠ []) {ρ : String → Scalar} (h : Agrees ρ (values es s)) :
    ∃ gs, (statement es hne).gates =
        gs ++ [.constant (runningVar secretVar (es.length - 1)) 0] ∧ ∀ g ∈ gs, g.Holds ρ := by
  rw [values, agrees_append, agrees_cons, agrees_zip_iff (length_members es.length)] at h
  obtain ⟨hmembers, hsecret, hwrites⟩ := h
  change ρ secretVar = s at hsecret
  have hchain := chain_iff (ρ := ρ) secretVar (members es.length) (i := 0) (fun _ => rfl)
    fun h => absurd rfl h
  rw [hsecret, hmembers] at hchain
  have hholds := List.forall_mem_append.mpr
    ⟨(holds_constants_iff ρ es).mpr hmembers, hchain.mpr hwrites⟩
  refine ⟨_, ?_, hholds⟩
  simp only [statement, gates, length_members, List.append_assoc]

/-! ## The circuit -/

/-- Every value is read as the scalar at the same place. -/
def Read (elements : List Value) (es : List Scalar) : Prop :=
  List.Forall₂ (fun v e => v.scalar = .ok e) elements es

/-- What the circuit does before it looks at the secret. -/
def opening (elements : List Value) : Build Unit := do
  Session.publishAll ((members elements.length).zip elements)
  discard (impose secretVar (members elements.length))

theorem circuit_eq (hne : elements ≠ []) (v : Value) :
    circuit v elements = opening elements >>= fun _ => fill secretVar v elements := by
  have hempty : elements.isEmpty = false := by simpa using hne
  simp only [circuit, opening, hempty, Bool.false_eq_true, if_false, bind_assoc]
  rfl

theorem adds_impose {t : Session} (hopen : t.closed = false) {xs : List String} (hne : xs ≠ []) :
    Session.Adds (impose secretVar xs) t (gates secretVar xs) [] := by
  have hempty : xs.isEmpty = false := by simpa using hne
  have h := Session.Adds.bind (Session.adds_appendAll (gates secretVar xs) hopen)
    fun _ t' _ => Session.Adds.pure (runningVar secretVar (xs.length - 1)) t'
  rw [List.append_nil, List.append_nil] at h
  simp only [impose, hempty, Bool.false_eq_true, if_false]
  exact h

theorem fresh_members (n : ℕ) : (Session.fresh.witness.names ++ members n).Nodup := by
  have hvariables : (Variable.one :: (List.range n).map Variable.member).Nodup :=
    (List.nodup_append.mp (nodup_allVariables n)).1
  have hnames := hvariables.map Variable.name_injective
  rw [List.map_cons, List.map_map] at hnames
  exact hnames

theorem adds_opening (hread : Read elements es) (hne : es ≠ []) :
    Session.Adds (opening elements) Session.fresh
      (constants es ++ gates secretVar (members es.length)) ((members es.length).zip es) := by
  have hlen : elements.length = es.length := hread.length_eq
  have hpublish := Session.adds_publishAll (s := Session.fresh) rfl
    (length_members elements.length) hread (fresh_members elements.length)
  rw [hlen] at hpublish
  have hrows : ∀ (_ : Unit) t,
      Session.fresh.Extends (constants es) ((members es.length).zip es) t →
      Session.Adds (discard (impose secretVar (members es.length))) t
        (gates secretVar (members es.length)) [] :=
    fun _ _ hext => Session.Adds.discard (adds_impose hext.closed_eq (members_ne_nil hne))
  have h := Session.Adds.bind hpublish hrows
  rw [List.append_nil] at h
  unfold opening
  rw [hlen]
  exact h

theorem elementScript_eq (hread : Read elements es) (secret : String) (s : Scalar) (i : ℕ)
    (product : Scalar) :
    elementScript secret s i product elements = .done (elementWrites secret s i product es) := by
  induction hread generalizing i product with
  | nil => rfl
  | cons hv _ ih =>
    simp only [elementScript, hv, ih]
    rfl

theorem script_eq {secret : String} (hread : Read elements es) (hne : elements ≠ [])
    (hv : v.scalar = .ok s) :
    script secret v elements = .done ((secret, s) :: elementWrites secret s 0 1 es) := by
  have hempty : elements.isEmpty = false := by simpa using hne
  simp only [script, hempty, Bool.false_eq_true, if_false, hv, elementScript_eq hread]
  rfl

theorem script_of_refused {secret : String} {f : Fault} (hne : elements ≠ [])
    (hv : v.scalar = .error f) : script secret v elements = (Script.failed f).after [] := by
  have hempty : elements.isEmpty = false := by simpa using hne
  simp only [script, hempty, Bool.false_eq_true, if_false, hv]
  rfl

theorem Read.ne_nil_iff (hread : Read elements es) : elements ≠ [] ↔ es ≠ [] := by
  rw [← List.length_pos_iff, ← List.length_pos_iff, hread.length_eq]

section

variable (hread : Read elements es) (hne : es ≠ [])

include hread

theorem adds_circuit (hv : v.scalar = .ok s) :
    Session.Adds (circuit v elements) Session.fresh (statement es hne).gates
      ((statement es hne).values s) := by
  have hne' := hread.ne_nil_iff.mpr hne
  have hopening := adds_opening hread hne
  simp only [circuit_eq hne', fill, script_eq hread hne' hv]
  exact adds_then_perform hopening (nodup_values es s)

theorem outcome_of_read (hv : v.scalar = .ok s) :
    ∃ C, outcome (circuit v elements) = .ok C ∧
      C.accepted = shapeOf (statement es hne).gates ∧
      C.system.names = (statement es hne).names.toList ∧
      C.system.witness = (statement es hne).layout s ∧ (C.satisfied = true ↔ s ∈ es) :=
  (statement es hne).outcome_of_adds (adds_circuit hread hne hv)

include hne in
theorem outcome_of_refused {f : Fault} (hv : v.scalar = .error f) :
    outcome (circuit v elements) = .error f := by
  have hne' := hread.ne_nil_iff.mpr hne
  have hopening := adds_opening hread hne
  have hnodup : (((unit, 1) :: ((members es.length).zip es ++ [])).map Prod.fst).Nodup := by
    rw [List.append_nil, List.map_cons, List.map_fst_zip (length_members es.length).le]
    exact fresh_members es.length
  simp only [circuit_eq hne', fill, script_of_refused hne' hv]
  exact outcome_of_failed f hopening hnodup

end

/-- The system of a membership circuit is fixed by the elements. The vectors that satisfy it are
the witnesses that the circuit computes for the secrets among the elements, and the verdict on any
secret is whether it is one of them. -/
theorem member_vectors (hread : Read elements es) (hne : elements ≠ []) :
    ∃ (I : Shape) (i : ℕ),
      (∀ v C, outcome (circuit v elements) = .ok C →
        C.accepted = I ∧ C.indexOf secretVar = .ok i) ∧
      I.SolvedBy i (· ∈ es) (fun s => circuit (.ofScalar s) elements) ∧
      ∀ v s, v.scalar = .ok s →
        ∃ C, outcome (circuit v elements) = .ok C ∧ (C.satisfied = true ↔ s ∈ es) := by
  have hne' : es ≠ [] := hread.ne_nil_iff.mp hne
  let T := statement es hne'
  refine ⟨shapeOf T.gates, T.names.position secretVar, ?_, ?_, ?_⟩
  · intro v C hC
    cases hv : v.scalar with
    | error f =>
      rw [outcome_of_refused hread hne' hv] at hC
      cases hC
    | ok s =>
      exact T.accepted_of_adds (adds_circuit hread hne' hv) hC
  · exact T.solvedBy fun s => adds_circuit hread hne' (Value.scalar_ofScalar s)
  · intro v s hv
    obtain ⟨C, hC, -, -, -, hsatisfied⟩ := outcome_of_read hread hne' hv
    exact ⟨C, hC, hsatisfied⟩

/-- The same element twice, once by a negative number. -/
theorem member_vectors_repeated :
    Read [.integer 3, .integer (3 - order)] [3, 3] ∧
      [Value.integer 3, .integer (3 - order)] ≠ [] ∧
      ∃ (I : Shape) (i : ℕ),
        (∀ v C, outcome (circuit v [.integer 3, .integer (3 - order)]) = .ok C →
          C.accepted = I ∧ C.indexOf secretVar = .ok i) ∧
        I.SolvedBy i (· ∈ [3, 3])
          (fun s => circuit (.ofScalar s) [.integer 3, .integer (3 - order)]) ∧
        ∀ v s, v.scalar = .ok s →
          ∃ C, outcome (circuit v [.integer 3, .integer (3 - order)]) = .ok C ∧
            (C.satisfied = true ↔ s ∈ [3, 3]) := by
  have hread : Read [.integer 3, .integer (3 - order)] [3, 3] := .cons rfl (.cons rfl .nil)
  have hne : [Value.integer 3, .integer (3 - order)] ≠ [] := List.cons_ne_nil _ _
  exact ⟨hread, hne, member_vectors hread hne⟩

end RankOne.Membership
