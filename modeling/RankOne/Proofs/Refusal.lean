import RankOne.Proofs.Membership.Verdict
import RankOne.Proofs.Range.Outcome

/-!
# Why circuits are refused

A range circuit and a membership circuit fail for reasons that lie in the values handed in, in a
fixed order, and succeed otherwise. The rows and the values are made separately, but they are about
the same names, and each name is given one value: no circuit is refused for a name that has two
values or none, for a session that is closed, for a system that is malformed, or for an index.
-/

namespace RankOne

/-! ## Values that are refused -/

namespace Value

/-- The value stands for a scalar. -/
def Admitted (v : Value) : Prop := ∃ a, v.scalar = .ok a

theorem scalar_of_not_admitted {v : Value} (h : ¬v.Admitted) :
    v.scalar = .error (.notAScalar v.kind) := by
  cases v with
  | integer n => exact absurd ⟨_, rfl⟩ h
  | truth b => exact absurd ⟨_, rfl⟩ h
  | element n => exact absurd ⟨_, rfl⟩ h
  | _ => rfl

theorem exists_read {vs : List Value} (h : ∀ v ∈ vs, v.Admitted) :
    ∃ es, Membership.Read vs es := by
  induction vs with
  | nil => exact ⟨[], .nil⟩
  | cons v vs ih =>
    rw [List.forall_mem_cons] at h
    obtain ⟨⟨a, ha⟩, hvs⟩ := h
    obtain ⟨es, hes⟩ := ih hvs
    exact ⟨a :: es, .cons ha hes⟩

/-- Among values that are not all admitted there is a first one that is not. -/
theorem exists_first_refused {vs : List Value} (h : ¬∀ v ∈ vs, v.Admitted) :
    ∃ before v after, vs = before ++ v :: after ∧ (∀ w ∈ before, w.Admitted) ∧ ¬v.Admitted := by
  induction vs with
  | nil => exact absurd (List.forall_mem_nil _) h
  | cons v vs ih =>
    by_cases hv : v.Admitted
    · rw [List.forall_mem_cons, and_iff_right hv] at h
      obtain ⟨before, w, after, hvs, hbefore, hw⟩ := ih h
      refine ⟨v :: before, w, after, ?_, ?_, hw⟩
      · rw [hvs, List.cons_append]
      · exact List.forall_mem_cons.mpr ⟨hv, hbefore⟩
    · exact ⟨[], v, vs, rfl, List.forall_mem_nil _, hv⟩

end Value

/-- The fault says what is wrong with the values that were handed in. All other faults are about
sessions, systems, shapes, indices or options. -/
def Fault.OfValues : Fault → Prop
  | .notAScalar _ | .boundsReversed _ _ | .tooWide _ _ | .noElements => True
  | _ => False

/-- A circuit fails for these reasons and succeeds otherwise, and all of the reasons lie in the
values handed in. -/
structure RefusedFor (c : Build Unit) (Reason : Fault → Prop) : Prop where
  fault_iff : ∀ f, outcome c = .error f ↔ Reason f
  succeeds : (¬∃ f, Reason f) → ∃ C, outcome c = .ok C
  ofValues : ∀ f, outcome c = .error f → f.OfValues

theorem refusedFor_of_cases {c : Build Unit} {Reason : Fault → Prop}
    (hfails : ∀ f, Reason f → outcome c = .error f)
    (hcases : (∃ f, Reason f) ∨ ∃ C, outcome c = .ok C)
    (hvalues : ∀ f, Reason f → f.OfValues) : RefusedFor c Reason := by
  have hiff : ∀ f, outcome c = .error f ↔ Reason f := by
    intro f
    refine ⟨?_, hfails f⟩
    intro hf
    rcases hcases with ⟨f', hreason⟩ | ⟨C, hC⟩
    · rw [hfails f' hreason, Except.error.injEq] at hf
      exact hf ▸ hreason
    · rw [hC] at hf
      cases hf
  refine ⟨hiff, ?_, fun f hf => hvalues f ((hiff f).mp hf)⟩
  intro hnone
  rcases hcases with hreason | hC
  · exact absurd hreason hnone
  · exact hC

/-! ## Range circuits -/

namespace Range

/-- The reasons for which a range circuit is refused; each of them includes that the ones before it
do not apply. -/
inductive Refused (o : Options) (v a b : Value) : Fault → Prop where
  | lower (ha : ¬a.Admitted) : Refused o v a b (.notAScalar a.kind)
  | upper (ha : a.Admitted) (hb : ¬b.Admitted) : Refused o v a b (.notAScalar b.kind)
  | reversed {low high : Scalar} (ha : a.scalar = .ok low) (hb : b.scalar = .ok high)
      (hgt : high.toInt < low.toInt) : Refused o v a b (.boundsReversed low.toInt high.toInt)
  | secret {low high : Scalar} (ha : a.scalar = .ok low) (hb : b.scalar = .ok high)
      (hle : low.toInt ≤ high.toInt) (hv : ¬v.Admitted) : Refused o v a b (.notAScalar v.kind)
  | tooWide {low high s : Scalar} (ha : a.scalar = .ok low) (hb : b.scalar = .ok high)
      (hle : low.toInt ≤ high.toInt) (hv : v.scalar = .ok s) (hstrict : o.strict = true)
      (hnot : ¬Fits o.width (product low high s).toInt) :
      Refused o v a b (.tooWide (bitLength (product low high s).toInt.natAbs - 1) o.width)

variable {o : Options} {v a b : Value} {f : Fault}

theorem readBounds_of_lower (ha : a.scalar = .error f) : readBounds a b = .error f := by
  rw [readBounds, ha]
  rfl

theorem readBounds_of_upper {low : Scalar} (ha : a.scalar = .ok low) (hb : b.scalar = .error f) :
    readBounds a b = .error f := by
  rw [readBounds, ha, hb]
  rfl

theorem outcome_of_reason (h : Refused o v a b f) : outcome (circuit o v a b) = .error f := by
  cases h with
  | lower ha =>
    exact outcome_of_bounds_refused o v (readBounds_of_lower (Value.scalar_of_not_admitted ha))
  | upper ha hb =>
    obtain ⟨low, hlow⟩ := ha
    exact outcome_of_bounds_refused o v
      (readBounds_of_upper hlow (Value.scalar_of_not_admitted hb))
  | reversed ha hb hgt => exact outcome_of_bounds_refused o v (readBounds_of_reversed ha hb hgt)
  | secret ha hb hle hv =>
    exact outcome_of_refused o ha hb hle (Value.scalar_of_not_admitted hv)
  | tooWide ha hb hle hv hstrict hnot => exact outcome_of_not_fits o ha hb hle hv hstrict hnot

theorem refused_or_ok (o : Options) (v a b : Value) :
    (∃ f, Refused o v a b f) ∨ ∃ C, outcome (circuit o v a b) = .ok C := by
  by_cases ha : a.Admitted
  · by_cases hb : b.Admitted
    · obtain ⟨low, hlow⟩ := ha
      obtain ⟨high, hhigh⟩ := hb
      rcases lt_or_ge high.toInt low.toInt with hgt | hle
      · exact Or.inl ⟨_, .reversed hlow hhigh hgt⟩
      by_cases hv : v.Admitted
      · obtain ⟨s, hs⟩ := hv
        by_cases hfits : o.strict = true → Fits o.width (product low high s).toInt
        · obtain ⟨C, hC, -⟩ := outcome_of_fits o hlow hhigh hle hs hfits
          exact Or.inr ⟨C, hC⟩
        · obtain ⟨hstrict, hnot⟩ := Classical.not_imp.mp hfits
          exact Or.inl ⟨_, .tooWide hlow hhigh hle hs hstrict hnot⟩
      · exact Or.inl ⟨_, .secret hlow hhigh hle hv⟩
    · exact Or.inl ⟨_, .upper ha hb⟩
  · exact Or.inl ⟨_, .lower ha⟩

theorem refusedFor (o : Options) (v a b : Value) :
    RefusedFor (circuit o v a b) (Refused o v a b) := by
  apply refusedFor_of_cases
  case hfails => exact fun f h => outcome_of_reason h
  case hcases => exact refused_or_ok o v a b
  case hvalues =>
    intro f h
    cases h <;> trivial

end Range

/-! ## Membership circuits -/

namespace Membership

/-- The reasons for which a membership circuit is refused; each of them includes that the ones
before it do not apply. -/
inductive Refused (v : Value) (elements : List Value) : Fault → Prop where
  | empty (h : elements = []) : Refused v elements .noElements
  | element {before after : List Value} {e : Value} (h : elements = before ++ e :: after)
      (hbefore : ∀ w ∈ before, w.Admitted) (he : ¬e.Admitted) :
      Refused v elements (.notAScalar e.kind)
  | secret (hne : elements ≠ []) (hall : ∀ e ∈ elements, e.Admitted) (hv : ¬v.Admitted) :
      Refused v elements (.notAScalar v.kind)

variable {v : Value} {elements : List Value} {f : Fault}

theorem outcome_of_empty (v : Value) : outcome (circuit v []) = .error .noElements :=
  outcome_of_fails ⟨Session.fresh, rfl⟩

/-- The elements are published in order, and the first one that is refused ends that. -/
theorem outcome_of_element_refused {before after : List Value} {e : Value} {es : List Scalar}
    (hbefore : Read before es) (he : e.scalar = .error f) :
    outcome (circuit v (before ++ e :: after)) = .error f := by
  have hne : before ++ e :: after ≠ [] := List.append_ne_nil_of_right_ne_nil _ (List.cons_ne_nil _ _)
  have hpublish : Session.Fails (Session.publishAll ((members (before ++ e :: after).length).zip
      (before ++ e :: after))) Session.fresh f :=
    Session.fails_publishAll rfl (length_members _) hbefore he (fresh_members _)
  rw [circuit_eq hne]
  exact outcome_of_fails (Session.Fails.bind (Session.Fails.bind hpublish _) _)

theorem outcome_of_reason (h : Refused v elements f) :
    outcome (circuit v elements) = .error f := by
  cases h with
  | empty h =>
    rw [h]
    exact outcome_of_empty v
  | element h hbefore he =>
    obtain ⟨es, hes⟩ := Value.exists_read hbefore
    rw [h]
    exact outcome_of_element_refused hes (Value.scalar_of_not_admitted he)
  | secret hne hall hv =>
    obtain ⟨es, hes⟩ := Value.exists_read hall
    exact outcome_of_refused hes (hes.ne_nil_iff.mp hne) (Value.scalar_of_not_admitted hv)

theorem refused_or_ok (v : Value) (elements : List Value) :
    (∃ f, Refused v elements f) ∨ ∃ C, outcome (circuit v elements) = .ok C := by
  by_cases hempty : elements = []
  · exact Or.inl ⟨_, .empty hempty⟩
  by_cases hall : ∀ e ∈ elements, e.Admitted
  · by_cases hv : v.Admitted
    · obtain ⟨es, hes⟩ := Value.exists_read hall
      obtain ⟨s, hs⟩ := hv
      obtain ⟨C, hC, -⟩ := outcome_of_read hes (hes.ne_nil_iff.mp hempty) hs
      exact Or.inr ⟨C, hC⟩
    · exact Or.inl ⟨_, .secret hempty hall hv⟩
  · obtain ⟨before, e, after, hsplit, hbefore, he⟩ := Value.exists_first_refused hall
    exact Or.inl ⟨_, .element hsplit hbefore he⟩

theorem refusedFor (v : Value) (elements : List Value) :
    RefusedFor (circuit v elements) (Refused v elements) := by
  apply refusedFor_of_cases
  case hfails => exact fun f h => outcome_of_reason h
  case hcases => exact refused_or_ok v elements
  case hvalues =>
    intro f h
    cases h <;> trivial

end Membership

/-- Range circuits, in either style and of any width, and membership circuits, of any number of
elements, are refused for what is wrong with the values handed in, and for nothing else. -/
theorem circuits_refused_for_values :
    (∀ (o : Range.Options) (v a b : Value),
      RefusedFor (Range.circuit o v a b) (Range.Refused o v a b)) ∧
    ∀ (v : Value) (elements : List Value),
      RefusedFor (Membership.circuit v elements) (Membership.Refused v elements) :=
  ⟨Range.refusedFor, Membership.refusedFor⟩

end RankOne
