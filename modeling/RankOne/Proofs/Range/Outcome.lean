import RankOne.Proofs.Range.Solutions

/-!
# What a range circuit gives

With bounds that are read and in order, the circuit publishes the bounds and imposes its rows
whatever the secret is. It succeeds unless the secret is refused or the product is too wide for a
strict unpacking.
-/

namespace RankOne.Range

variable {o : Options} {v a b : Value} {low high s : Scalar}

theorem readBounds_eq (ha : a.scalar = .ok low) (hb : b.scalar = .ok high)
    (hle : low.toInt ≤ high.toInt) : readBounds a b = .ok (low, high) := by
  have hnot : ¬low.toInt > high.toInt := not_lt.mpr hle
  simp only [readBounds, ha, hb]
  show (if low.toInt > high.toInt then _ else _) = _
  rw [if_neg hnot]
  rfl

theorem readBounds_of_reversed (ha : a.scalar = .ok low) (hb : b.scalar = .ok high)
    (hgt : high.toInt < low.toInt) :
    readBounds a b = .error (.boundsReversed low.toInt high.toInt) := by
  simp only [readBounds, ha, hb]
  show (if low.toInt > high.toInt then _ else _) = _
  rw [if_pos hgt]
  rfl

/-- Bounds that are accepted are scalars that are in order. -/
theorem scalars_of_readBounds (h : readBounds a b = .ok (low, high)) :
    a.scalar = .ok low ∧ b.scalar = .ok high ∧ low.toInt ≤ high.toInt := by
  cases ha : a.scalar with
  | error f =>
    rw [readBounds, ha] at h
    cases h
  | ok low' =>
    cases hb : b.scalar with
    | error f =>
      rw [readBounds, ha, hb] at h
      cases h
    | ok high' =>
      rcases le_or_gt low'.toInt high'.toInt with hle | hgt
      · rw [readBounds_eq ha hb hle] at h
        cases h
        exact ⟨rfl, rfl, hle⟩
      · rw [readBounds_of_reversed ha hb hgt] at h
        cases h

/-! ## Before the secret -/

/-- What can be built without the secret: the bounds are published and the rows imposed. -/
def publicPart (o : Options) (a b : Value) : Build Unit := do
  Session.publishAll [(lowerVar, a), (upperVar, b)]
  discard (impose o lowerVar upperVar secretVar)

/-- What the circuit does before it looks at the secret. -/
def opening (o : Options) (a b : Value) : Build Unit := do
  discard (MonadExcept.ofExcept (readBounds a b))
  Session.publishAll [(lowerVar, a), (upperVar, b)]
  discard (impose o lowerVar upperVar secretVar)

theorem circuit_eq (o : Options) (v a b : Value) :
    circuit o v a b = opening o a b >>= fun _ => fill o secretVar a b v := by
  simp only [circuit, opening, bind_assoc]

theorem adds_impose {t : Session} (hopen : t.closed = false) (o : Options) (x y z : String) :
    Session.Adds (impose o x y z) t (gates o x y z) [] := by
  have h := Session.Adds.bind (Session.adds_appendAll (gates o x y z) hopen)
    fun _ t' _ => Session.Adds.pure (productVar z) t'
  rw [List.append_nil, List.append_nil] at h
  exact h

/-- The values that are known before the secret is. -/
def openingWrites (low high : Scalar) : List (String × Scalar) :=
  [(lowerVar, low), (upperVar, high)]

theorem adds_publicPart (o : Options) (ha : a.scalar = .ok low) (hb : b.scalar = .ok high) :
    Session.Adds (publicPart o a b) Session.fresh
      (constants low high ++ gates o lowerVar upperVar secretVar) (openingWrites low high) := by
  have hfresh : (Session.fresh.witness.names ++ [lowerVar, upperVar]).Nodup := by decide
  have hvalues : List.Forall₂ (fun v a => v.scalar = .ok a) [a, b] [low, high] :=
    .cons ha (.cons hb .nil)
  have hpublish : Session.Adds (Session.publishAll [(lowerVar, a), (upperVar, b)]) Session.fresh
      (constants low high) (openingWrites low high) :=
    Session.adds_publishAll rfl rfl hvalues hfresh
  have hrows : ∀ (_ : Unit) t, Session.fresh.Extends (constants low high) (openingWrites low high) t →
      Session.Adds (discard (impose o lowerVar upperVar secretVar)) t
        (gates o lowerVar upperVar secretVar) [] :=
    fun _ _ hext => Session.Adds.discard (adds_impose hext.closed_eq o _ _ _)
  have h := Session.Adds.bind hpublish hrows
  rw [List.append_nil] at h
  exact h

theorem adds_opening (o : Options) (ha : a.scalar = .ok low) (hb : b.scalar = .ok high)
    (hle : low.toInt ≤ high.toInt) :
    Session.Adds (opening o a b) Session.fresh
      (constants low high ++ gates o lowerVar upperVar secretVar) (openingWrites low high) := by
  have hread := Session.Adds.discard
    (Session.adds_ofExcept (readBounds_eq ha hb hle) Session.fresh)
  apply Session.Adds.bind hread
  intro _ t hext
  obtain rfl : t = Session.fresh := hext.unique (Session.Extends.refl _)
  exact adds_publicPart o ha hb

/-! ## The secret -/

theorem script_of_fits (x : String) (hbounds : readBounds a b = .ok (low, high))
    (hv : v.scalar = .ok s) (hfits : o.strict = true → Fits o.width (product low high s).toInt) :
    script o x a b v = .done (helperWrites o x low high s) := by
  have hpattern := Unpacking.pattern_of_fits (u := o.unpacking) hfits
  unfold product at hpattern
  simp only [script, hbounds, hv, hpattern]
  rfl

theorem script_of_not_fits (x : String) (hbounds : readBounds a b = .ok (low, high))
    (hv : v.scalar = .ok s) (hstrict : o.strict = true)
    (hnot : ¬Fits o.width (product low high s).toInt) :
    script o x a b v =
      (Script.failed (.tooWide (bitLength (product low high s).toInt.natAbs - 1) o.width)).after
        (gapWrites x low high s) := by
  have hpattern := Unpacking.pattern_of_not_fits (u := o.unpacking) hstrict hnot
  unfold product at hpattern ⊢
  simp only [script, hbounds, hv, hpattern]
  rfl

theorem script_of_refused {f : Fault} (x : String) (hbounds : readBounds a b = .ok (low, high))
    (hv : v.scalar = .error f) : script o x a b v = (Script.failed f).after [] := by
  simp only [script, hbounds, hv]
  rfl

/-! ## The whole circuit -/

section

variable (o : Options) (ha : a.scalar = .ok low) (hb : b.scalar = .ok high)
  (hle : low.toInt ≤ high.toInt)

include ha hb hle

theorem adds_circuit (hv : v.scalar = .ok s)
    (hfits : o.strict = true → Fits o.width (product low high s).toInt) :
    Session.Adds (circuit o v a b) Session.fresh (statement o low high).gates
      ((statement o low high).values s) := by
  have hscript := script_of_fits secretVar (readBounds_eq ha hb hle) hv hfits
  have hopening := adds_opening o ha hb hle
  simp only [circuit_eq, fill, hscript]
  exact adds_then_perform hopening (nodup_values o low high s)

theorem outcome_of_fits (hv : v.scalar = .ok s)
    (hfits : o.strict = true → Fits o.width (product low high s).toInt) :
    ∃ C, outcome (circuit o v a b) = .ok C ∧
      C.accepted = shapeOf (statement o low high).gates ∧
      C.system.names = (statement o low high).names.toList ∧
      C.system.witness = (statement o low high).layout s ∧
      (C.satisfied = true ↔ Window o (product low high s).toInt) :=
  (statement o low high).outcome_of_adds (adds_circuit o ha hb hle hv hfits)

theorem outcome_of_not_fits (hv : v.scalar = .ok s) (hstrict : o.strict = true)
    (hnot : ¬Fits o.width (product low high s).toInt) :
    outcome (circuit o v a b) =
      .error (.tooWide (bitLength (product low high s).toInt.natAbs - 1) o.width) := by
  have hscript := script_of_not_fits secretVar (readBounds_eq ha hb hle) hv hstrict hnot
  have hopening := adds_opening o ha hb hle
  simp only [circuit_eq, fill, hscript]
  exact outcome_of_failed _ hopening nodup_ownNames

theorem outcome_of_refused {f : Fault} (hv : v.scalar = .error f) :
    outcome (circuit o v a b) = .error f := by
  have hscript := script_of_refused (o := o) secretVar (readBounds_eq ha hb hle) hv
  have hopening := adds_opening o ha hb hle
  have hnodup : [unit, lowerVar, upperVar].Nodup := by decide
  simp only [circuit_eq, fill, hscript]
  exact outcome_of_failed f hopening hnodup

/-- A circuit that succeeds was given a secret whose product fits, if that is asked for. -/
theorem secret_of_outcome {C : CheckedSystem} (h : outcome (circuit o v a b) = .ok C) :
    ∃ s, v.scalar = .ok s ∧ (o.strict = true → Fits o.width (product low high s).toInt) := by
  cases hv : v.scalar with
  | error f =>
    rw [outcome_of_refused o ha hb hle hv] at h
    cases h
  | ok s =>
    refine ⟨s, rfl, ?_⟩
    intro hstrict
    by_contra hnot
    rw [outcome_of_not_fits o ha hb hle hv hstrict hnot] at h
    cases h

end

theorem outcome_of_bounds_refused (o : Options) (v : Value) {f : Fault}
    (hbounds : readBounds a b = .error f) : outcome (circuit o v a b) = .error f := by
  apply outcome_of_fails
  refine ⟨Session.fresh, ?_⟩
  unfold circuit
  rw [hbounds]
  rfl

/-! ## Without the check of the width -/

/-- The same options, but a product that does not fit is not refused. -/
def lenient (o : Options) : Options := { o with strict := false }

theorem gates_lenient (o : Options) (low high : Scalar) :
    (statement (lenient o) low high).gates = (statement o low high).gates := by
  have hunpacking : (lenient o).unpacking = o.unpacking.withStrict false := rfl
  simp only [statement, gates, hunpacking, Unpacking.gates_withStrict]
  rfl

theorem values_lenient (o : Options) (low high s : Scalar) :
    (statement (lenient o) low high).values s = (statement o low high).values s := by
  have hunpacking : (lenient o).unpacking = o.unpacking.withStrict false := rfl
  simp only [statement, values, helperWrites, hunpacking, Unpacking.writes_withStrict]
  rfl

/-- A circuit without the check is about the same gates and gives the same values. -/
theorem adds_lenient (o : Options) (ha : a.scalar = .ok low) (hb : b.scalar = .ok high)
    (hle : low.toInt ≤ high.toInt) (hv : v.scalar = .ok s) :
    Session.Adds (circuit (lenient o) v a b) Session.fresh (statement o low high).gates
      ((statement o low high).values s) := by
  have h := adds_circuit (lenient o) ha hb hle hv fun hstrict => nomatch hstrict
  rw [gates_lenient, values_lenient] at h
  exact h

end RankOne.Range
