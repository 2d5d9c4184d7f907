import RankOne.Proofs.Session.AppendOnly
import RankOne.Proofs.Session.Composition
import RankOne.Proofs.Violation

/-!
# What a refused filling leaves behind

The fillings of bits, ranges and memberships give several values one after the other, and a value
once given stays. A filling of bits looks at everything before it gives the first value, so when it
is refused for its values the session is as it was. The other two do so in part. A filling of a
range gives the secret, the gaps and the product before the unpacking finds the product too wide. A
filling of a membership reads each element when its turn comes, and the values for the elements
before a refused one are there by then. Both have given the secret its value, so no filling for the
same secret succeeds in that session again.
-/

namespace RankOne

/-- The fault is that a value is too wide. -/
def Fault.OfWidth : Fault → Prop
  | .tooWide _ _ => True
  | _ => False

theorem Script.writes_after_failed (f : Fault) (ws : List (String × Scalar)) :
    ((Script.failed f).after ws).writes = ws := List.append_nil ws

namespace Session

variable {α β : Type} {s s' : Session} {f : Fault}

/-! ## Fillings that are refused -/

/-- When the operation is refused for its values, the session is as it was. -/
def AllOrNothing (c : Build α) : Prop :=
  ∀ (s s' : Session) (f : Fault), c s = .error f s' → f.OfValues → s' = s

/-- These values have been given and nothing else has been done, and none of the calls succeeds from
now on, whatever steps come before it. -/
structure HalfFilled (s : Session) (ws : List (String × Scalar)) (s' : Session)
    (Call : Build Unit → Prop) : Prop where
  given : s.Extends [] ws s'
  no_retry : ∀ (later : List Step) (c : Build Unit), Call c →
    ∃ f, Fails c (later.foldl (fun s t => t.after s) s') f

theorem HalfFilled.ne {ws : List (String × Scalar)} {Call : Build Unit → Prop}
    (h : s.HalfFilled ws s' Call) (hws : ws ≠ []) : s' ≠ s := by
  rintro rfl
  exact hws (List.append_right_eq_self.mp h.given.witness_eq.symm)

theorem error_of_bind {c : Build α} {d : α → Build β} (h : (c >>= d) s = .error f s') :
    c s = .error f s' ∨ ∃ a t, c s = .ok a t ∧ d a t = .error f s' := by
  change EStateM.bind c d s = _ at h
  unfold EStateM.bind at h
  cases hc : c s with
  | error f' t =>
    rw [hc] at h
    cases h
    exact Or.inl rfl
  | ok a t =>
    rw [hc] at h
    exact Or.inr ⟨a, t, rfl, h⟩

theorem error_of_map {c : Build α} {g : α → β} (h : (g <$> c) s = .error f s') :
    c s = .error f s' := by
  change EStateM.map g c s = _ at h
  unfold EStateM.map at h
  cases hc : c s with
  | error f' t =>
    rw [hc] at h
    cases h
    rfl
  | ok a t =>
    rw [hc] at h
    cases h

/-- A scalar is not refused for what it is. -/
theorem not_ofValues_of_assign {x : String} {a : Scalar}
    (h : assign x (Value.ofScalar a) s = .error f s') : ¬f.OfValues := by
  unfold assign at h
  split at h
  · cases h
    exact id
  · by_cases hx : x ∈ s.witness.names
    · rw [Witness.assign, dif_pos hx] at h
      cases h
      exact id
    · rw [Witness.assign, dif_neg hx, Value.scalar_ofScalar] at h
      cases h

theorem not_ofValues_of_assignAll {ws : List (String × Scalar)}
    (h : (ws.forM fun w => assign w.1 (Value.ofScalar w.2)) s = .error f s') : ¬f.OfValues := by
  induction ws generalizing s with
  | nil => cases h
  | cons w ws ih =>
    rcases error_of_bind h with hfirst | ⟨_, t, -, hrest⟩
    · exact not_ofValues_of_assign hfirst
    · exact ih hrest

/-- A script that is refused for values has been refused by its fault, after all its values. -/
theorem perform_refused {p : Script} (h : p.perform s = .error f s') (hf : f.OfValues) :
    p.fault? = some f ∧ s.Extends [] p.writes s' := by
  rcases error_of_bind h with hwrites | ⟨_, t, hassign, hfault⟩
  · exact absurd hf (not_ofValues_of_assignAll hwrites)
  · have hext := extends_of_assignAll hassign
    cases hp : p.fault? with
    | none =>
      rw [hp] at hfault
      cases hfault
    | some f' =>
      rw [hp] at hfault
      cases hfault
      exact ⟨rfl, hext⟩

/-- A script that needs to give a value to a name that has one does not run to its end. -/
theorem fails_perform_of_valued {p : Script} {x : String} (hx : x ∈ s.witness.names)
    (hp : p.fault? = none → x ∈ p.writes.map Prod.fst) : ∃ f, Fails p.perform s f := by
  cases hrun : p.perform s with
  | error f s' => exact ⟨f, s', hrun⟩
  | ok r s' =>
    obtain ⟨hfault, hext⟩ := extends_of_perform hrun
    have hnodup : (s.witness.names ++ p.writes.map Prod.fst).Nodup :=
      hext.witness_names ▸ s'.witness.nodup
    exact absurd rfl ((List.nodup_append.mp hnodup).2.2 x hx x (hp hfault))

end Session

/-! ## Values stay -/

namespace Session

variable {s s' : Session}

theorem values_prefix_foldl (ts : List Step) (s : Session) :
    s.witness.toList <+: (ts.foldl (fun s t => t.after s) s).witness.toList := by
  induction ts generalizing s with
  | nil => exact List.prefix_refl _
  | cons t ts ih => exact (t.values_prefix_after s).trans (ih (t.after s))

/-- Scripts that all give a value to the same name, once it has been given one. -/
theorem halfFilled_of_extends {ws : List (String × Scalar)} {x : String} {Call : Build Unit → Prop}
    (hext : s.Extends [] ws s') (hx : x ∈ ws.map Prod.fst)
    (hcalls : ∀ c, Call c → ∃ p : Script, c = p.perform ∧
      (p.fault? = none → x ∈ p.writes.map Prod.fst)) : s.HalfFilled ws s' Call where
  given := hext
  no_retry := by
    intro later c hc
    obtain ⟨p, rfl, hp⟩ := hcalls c hc
    have hgiven : x ∈ s'.witness.names := by
      rw [hext.witness_names]
      exact List.mem_append_right _ hx
    have hlater := ((values_prefix_foldl later s').map Prod.fst).subset hgiven
    exact fails_perform_of_valued hlater hp

end Session

/-! ## Bits -/

/-- All that can be wrong with a value is found out before anything is given. -/
theorem Unpacking.allOrNothing_fill (u : Unpacking) (x : String) (v : Value) :
    Session.AllOrNothing (u.fill x v) := by
  intro s s' f h hf
  unfold fill at h
  cases hv : v.scalar with
  | error f' =>
    rw [hv] at h
    cases h
    rfl
  | ok a =>
    cases hpattern : u.pattern a with
    | error f' =>
      rw [hv] at h
      simp only [MonadExcept.ofExcept, pure_bind, hpattern] at h
      cases h
      rfl
    | ok bits =>
      rw [hv] at h
      simp only [MonadExcept.ofExcept, pure_bind, hpattern] at h
      rcases Session.error_of_bind h with hgiven | ⟨_, t, -, hreturn⟩
      · obtain ⟨hfault, -⟩ := Session.perform_refused hgiven hf
        cases hfault
      · cases hreturn

/-! ## Ranges -/

namespace Range

variable {o : Options} {x : String} {v a b : Value} {f : Fault}

/-- What is given before the product is found too wide. Nothing is given if anything else is
wrong. -/
theorem script_of_reason (x : String) (h : Refused o v a b f) :
    ¬f.OfWidth ∧ script o x a b v = .failed f ∨
      ∃ low high secret, a.scalar = .ok low ∧ b.scalar = .ok high ∧ v.scalar = .ok secret ∧
        f = .tooWide (bitLength (product low high secret).toInt.natAbs - 1) o.width ∧
        script o x a b v = (Script.failed f).after (gapWrites x low high secret) := by
  cases h with
  | lower ha =>
    refine Or.inl ⟨id, ?_⟩
    simp only [script, readBounds_of_lower (Value.scalar_of_not_admitted ha)]
  | upper ha hb =>
    obtain ⟨low, hlow⟩ := ha
    refine Or.inl ⟨id, ?_⟩
    simp only [script, readBounds_of_upper hlow (Value.scalar_of_not_admitted hb)]
  | reversed ha hb hgt =>
    refine Or.inl ⟨id, ?_⟩
    simp only [script, readBounds_of_reversed ha hb hgt]
  | secret ha hb hle hv =>
    refine Or.inl ⟨id, ?_⟩
    exact script_of_refused x (readBounds_eq ha hb hle) (Value.scalar_of_not_admitted hv)
  | tooWide ha hb hle hv hstrict hnot =>
    exact Or.inr ⟨_, _, _, ha, hb, hv, rfl,
      script_of_not_fits x (readBounds_eq ha hb hle) hv hstrict hnot⟩

theorem refused_of_fault (h : (script o x a b v).fault? = some f) : Refused o v a b f := by
  rcases refused_or_ok o v a b with ⟨f', hreason⟩ | ⟨C, hC⟩
  · have hfault : (script o x a b v).fault? = some f' := by
      rcases script_of_reason x hreason with ⟨-, hscript⟩ | ⟨_, _, _, -, -, -, -, hscript⟩ <;>
        rw [hscript] <;> rfl
    rw [h] at hfault
    exact Option.some.inj hfault ▸ hreason
  · obtain ⟨low, high, secret, ha, hb, hle, hv, hfits⟩ := read_of_outcome hC
    rw [script_of_fits x (readBounds_eq ha hb hle) hv hfits] at h
    cases h

/-- A script that runs to its end gives the secret its value. -/
theorem secret_mem_writes (h : (script o x a b v).fault? = none) :
    x ∈ (script o x a b v).writes.map Prod.fst := by
  obtain ⟨_, _, _, -, -, -, hall⟩ := script_complete h
  rw [hall]
  exact List.mem_cons_self

/-- How a filling that is refused ends: with the session as it was, unless the product is too
wide. -/
inductive Aborted (o : Options) (x : String) (a b v : Value) (s : Session) :
    Fault → Session → Prop where
  | untouched {f : Fault} (hreason : Refused o v a b f) (hearly : ¬f.OfWidth) :
      Aborted o x a b v s f s
  | halfFilled {low high secret : Scalar} {s' : Session} (ha : a.scalar = .ok low)
      (hb : b.scalar = .ok high) (hv : v.scalar = .ok secret)
      (hreason : Refused o v a b
        (.tooWide (bitLength (product low high secret).toInt.natAbs - 1) o.width))
      (hleft : s.HalfFilled (gapWrites x low high secret) s'
        fun c => ∃ o a b v, c = fill o x a b v) :
      Aborted o x a b v s
        (.tooWide (bitLength (product low high secret).toInt.natAbs - 1) o.width) s'

theorem aborted_of_error {s s' : Session} (h : fill o x a b v s = .error f s')
    (hf : f.OfValues) : Aborted o x a b v s f s' := by
  obtain ⟨hfault, hext⟩ := Session.perform_refused h hf
  have hreason := refused_of_fault hfault
  rcases script_of_reason x hreason with ⟨hearly, hscript⟩ |
    ⟨low, high, secret, ha, hb, hv, rfl, hscript⟩
  · rw [hscript] at hext
    obtain rfl : s' = s := hext.unique (Session.Extends.refl s)
    exact .untouched hreason hearly
  · rw [hscript, Script.writes_after_failed] at hext
    refine .halfFilled ha hb hv hreason ?_
    -- the secret comes first, and every other filling for it would have to give it a value again
    apply Session.halfFilled_of_extends hext (x := x) List.mem_cons_self
    rintro c ⟨o', a', b', v', rfl⟩
    exact ⟨_, rfl, secret_mem_writes⟩

end Range

/-! ## Memberships -/

namespace Membership

variable {secret : String} {v : Value} {elements : List Value} {f : Fault}

theorem elementScript_of_refused {before after : List Value} {e : Value} {es : List Scalar}
    (hread : Read before es) (he : e.scalar = .error f) (secret : String) (s : Scalar) (i : ℕ)
    (product : Scalar) :
    elementScript secret s i product (before ++ e :: after) =
      (Script.failed f).after (elementWrites secret s i product es) := by
  induction hread generalizing i product with
  | nil => simp only [List.nil_append, elementScript, he]; rfl
  | cons hv _ ih =>
    simp only [List.cons_append, elementScript, hv, ih]
    simp only [Script.after, elementWrites, List.append_assoc]

/-- How a filling that is refused ends: with the session as it was, unless it is refused for an
element. The secret is read before the elements. -/
inductive Aborted (secret : String) (v : Value) (elements : List Value) (s : Session) :
    Fault → Session → Prop where
  | empty (h : elements = []) : Aborted secret v elements s .noElements s
  | secret (hne : elements ≠ []) (hv : ¬v.Admitted) :
      Aborted secret v elements s (.notAScalar v.kind) s
  | halfFilled {a : Scalar} {before after : List Value} {e : Value} {es : List Scalar}
      {s' : Session} (hv : v.scalar = .ok a) (hsplit : elements = before ++ e :: after)
      (hread : Read before es) (he : ¬e.Admitted)
      (hleft : s.HalfFilled ((secret, a) :: elementWrites secret a 0 1 es) s'
        fun c => ∃ v elements, c = fill secret v elements) :
      Aborted secret v elements s (.notAScalar e.kind) s'

/-- A script that runs to its end gives the secret its value. -/
theorem secret_mem_writes (h : (script secret v elements).fault? = none) :
    secret ∈ (script secret v elements).writes.map Prod.fst := by
  obtain ⟨_, _, -, -, -, hall⟩ := script_complete h
  rw [hall]
  exact List.mem_cons_self

/-- The secret and the values for the elements before the one that is refused are given. -/
theorem script_of_element_refused {a : Scalar} {before after : List Value} {e : Value}
    {es : List Scalar} (hv : v.scalar = .ok a) (hread : Read before es) (he : ¬e.Admitted) :
    script secret v (before ++ e :: after) =
      (Script.failed (.notAScalar e.kind)).after
        ((secret, a) :: elementWrites secret a 0 1 es) := by
  have hempty : (before ++ e :: after).isEmpty = false := by simp
  have hrest : elementScript secret a 0 1 (before ++ e :: after) = _ :=
    elementScript_of_refused hread (Value.scalar_of_not_admitted he) secret a 0 1
  simp only [script, hempty, Bool.false_eq_true, if_false, hv, hrest]
  rfl

theorem aborted_of_error {s s' : Session} (h : fill secret v elements s = .error f s')
    (hf : f.OfValues) : Aborted secret v elements s f s' := by
  obtain ⟨hfault, hext⟩ := Session.perform_refused h hf
  by_cases hempty : elements = []
  · subst hempty
    obtain rfl : s' = s := hext.unique (Session.Extends.refl s)
    obtain rfl : Fault.noElements = f := Option.some.inj hfault
    exact .empty rfl
  by_cases hv : v.Admitted
  · obtain ⟨a, ha⟩ := hv
    by_cases hall : ∀ e ∈ elements, e.Admitted
    · obtain ⟨es, hread⟩ := Value.exists_read hall
      rw [script_eq hread hempty ha] at hfault
      cases hfault
    · obtain ⟨before, e, after, rfl, hbefore, he⟩ := Value.exists_first_refused hall
      obtain ⟨es, hread⟩ := Value.exists_read hbefore
      rw [script_of_element_refused ha hread he] at hfault hext
      rw [Script.writes_after_failed] at hext
      obtain rfl : Fault.notAScalar e.kind = f := Option.some.inj hfault
      refine .halfFilled ha rfl hread he ?_
      apply Session.halfFilled_of_extends hext (x := secret) List.mem_cons_self
      rintro c ⟨v', elements', rfl⟩
      exact ⟨_, rfl, secret_mem_writes⟩
  · rw [script_of_refused hempty (Value.scalar_of_not_admitted hv)] at hfault hext
    obtain rfl : s' = s := hext.unique (Session.Extends.refl s)
    obtain rfl : Fault.notAScalar v.kind = f := Option.some.inj hfault
    exact .secret hempty hv

end Membership

/-! ## All fillings -/

namespace Step

/-- The step gives a variable and its helpers their values. -/
def Fills : Step → Prop
  | fillBits _ _ _ | fillRange _ _ _ _ _ | fillMember _ _ _ => True
  | _ => False

/-- For a filling that is refused with this fault: what is wrong was found out before any value was
given. -/
def FailsEarly : Step → Fault → Prop
  | fillRange _ _ _ _ _, f => ¬f.OfWidth
  | fillMember _ v elements, _ => elements = [] ∨ ¬v.Admitted
  | _, _ => True

/-- How a filling that is refused for its values ends. -/
inductive Aborted (s : Session) : Step → Fault → Session → Prop where
  | bits {u : Unpacking} {x : String} {v : Value} {f : Fault} : Aborted s (.fillBits u x v) f s
  | range {o : Range.Options} {x : String} {a b v : Value} {f : Fault} {s' : Session}
      (h : Range.Aborted o x a b v s f s') : Aborted s (.fillRange o x a b v) f s'
  | member {secret : String} {v : Value} {elements : List Value} {f : Fault} {s' : Session}
      (h : Membership.Aborted secret v elements s f s') :
      Aborted s (.fillMember secret v elements) f s'

/-- A filling that is refused for its values leaves the session as it was if what is wrong was found
out early: always for bits, unless the product is too wide for a range, and unless an element is
refused for a membership. In these two cases the values that do not depend on what is wrong have
been given, the secret's among them, and no filling for the same secret succeeds in this session
again. -/
theorem unchanged_iff_failsEarly {t : Step} {s s' : Session} {f : Fault} (ht : t.Fills)
    (h : t.run s = .error f s') (hf : f.OfValues) :
    (s' = s ↔ t.FailsEarly f) ∧ Aborted s t f s' := by
  cases t with
  | fillBits u x v =>
    obtain rfl := Unpacking.allOrNothing_fill u x v s s' f (Session.error_of_map h) hf
    exact ⟨iff_of_true rfl trivial, .bits⟩
  | fillRange o x a b v =>
    have haborted := Range.aborted_of_error (Session.error_of_map h) hf
    refine ⟨?_, .range haborted⟩
    cases haborted with
    | untouched _ hearly => exact iff_of_true rfl hearly
    | halfFilled _ _ _ _ hleft =>
      exact iff_of_false (hleft.ne (List.cons_ne_nil _ _)) (not_not.mpr trivial)
  | fillMember secret v elements =>
    have haborted := Membership.aborted_of_error (Session.error_of_map h) hf
    refine ⟨?_, .member haborted⟩
    cases haborted with
    | empty hempty => exact iff_of_true rfl (Or.inl hempty)
    | secret _ hv => exact iff_of_true rfl (Or.inr hv)
    | halfFilled hv hsplit _ _ hleft =>
      refine iff_of_false (hleft.ne (List.cons_ne_nil _ _)) ?_
      rintro (hempty | hnot)
      · rw [hsplit] at hempty
        exact List.append_ne_nil_of_right_ne_nil _ (List.cons_ne_nil _ _) hempty
      · exact hnot ⟨_, hv⟩
  | _ => exact ht.elim

/-- A product of twenty that does not fit four bits, and an element that is a text. What has been
given by then are the secret with its gaps and the product, and the secret with one difference.
Values that fit and elements that are read do not help afterwards. -/
theorem unchanged_iff_failsEarly_retry :
    (∃ s f, (Step.fillRange ⟨1, .linear, true, by decide, by decide⟩ "x" (.integer 0) (.integer 9)
        (.integer 5)).run Session.fresh = .error (.tooWide 4 4) s ∧ s.witness.size = 5 ∧
      Session.Fails (Range.fill ⟨1, .linear, true, by decide, by decide⟩ "x" (.integer 0)
        (.integer 2) (.integer 1)) s f) ∧
    ∃ s f, (Step.fillMember "s" (.integer 3) [.integer 3, .text "2"]).run Session.fresh =
        .error (.notAScalar "str") s ∧ s.witness.size = 3 ∧
      Session.Fails (Membership.fill "s" (.integer 3) [.integer 3, .integer 2]) s f := by
  constructor
  · obtain ⟨s, hs, hsize⟩ : ∃ s, (Step.fillRange ⟨1, .linear, true, by decide, by decide⟩ "x"
        (.integer 0) (.integer 9) (.integer 5)).run Session.fresh = .error (.tooWide 4 4) s ∧
          s.witness.size = 5 := ⟨_, rfl, rfl⟩
    have htrue : (Step.fillRange ⟨1, .linear, true, by decide, by decide⟩ "x" (.integer 0)
        (.integer 9) (.integer 5)).Fills := trivial
    obtain ⟨-, haborted⟩ := unchanged_iff_failsEarly htrue hs trivial
    generalize hf : Fault.tooWide 4 4 = f at haborted
    cases haborted with
    | range h =>
      cases h with
      | untouched _ hearly =>
        subst hf
        exact absurd trivial hearly
      | halfFilled _ _ _ _ hleft =>
        obtain ⟨f', hfails⟩ := hleft.no_retry [] _ ⟨_, _, _, _, rfl⟩
        exact ⟨s, f', hf ▸ hs, hsize, hfails⟩
  · obtain ⟨s, hs, hsize⟩ : ∃ s, (Step.fillMember "s" (.integer 3) [.integer 3, .text "2"]).run
        Session.fresh = .error (.notAScalar "str") s ∧ s.witness.size = 3 := ⟨_, rfl, rfl⟩
    have htrue : (Step.fillMember "s" (.integer 3) [.integer 3, .text "2"]).Fills := trivial
    obtain ⟨-, haborted⟩ := unchanged_iff_failsEarly htrue hs trivial
    generalize hf : Fault.notAScalar "str" = f at haborted
    cases haborted with
    | member h =>
      cases h with
      | empty h => cases h
      | secret _ hv => exact absurd ⟨3, rfl⟩ hv
      | halfFilled _ _ _ _ hleft =>
        obtain ⟨f', hfails⟩ := hleft.no_retry [] _ ⟨_, _, rfl⟩
        exact ⟨s, f', hf ▸ hs, hsize, hfails⟩

end Step

end RankOne
