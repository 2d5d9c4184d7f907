import RankOne.Proofs.Session.Composition

/-!
# Values in any order

Values may be given before, between or after the gates that use them. Two runs that refer to the
same names in the same order, append the same gates in the same order and give the same values in
any order close to the same system, or neither of them closes. The witness is laid out by the table
of names, so the order in which the values were given shows in nothing but the message of a session
that has a value for an unknown name.
-/

namespace RankOne

/-! ## Values in another order -/

namespace Witness

variable {w w' : Witness} {t : Names}

theorem layOut_of_not_covered (h : ¬∀ x, x ∈ t ↔ x ∈ w.names) :
    w.layOut t = .error (.incomplete w.size t.size (t.toList.filter (· ∉ w.names))
      (w.names.filter (· ∉ t))) := by
  have hnot : ¬(t.toList.filter (· ∉ w.names) = [] ∧ w.names.filter (· ∉ t) = []) :=
    fun hboth => h (Session.mem_iff_of_layOut (if_pos hboth))
  exact if_neg hnot

/-- The values are laid out in the order of the names, whatever order they were given in. -/
theorem layOut_of_perm (h : w.toList.Perm w'.toList) (t : Names) :
    (∃ values, w.layOut t = .ok values ∧ w'.layOut t = .ok values) ∨
      ∃ missing unknown unknown', List.Perm unknown unknown' ∧
        w.layOut t = .error (.incomplete w.size t.size missing unknown) ∧
        w'.layOut t = .error (.incomplete w.size t.size missing unknown') := by
  have hnames : w.names.Perm w'.names := h.map Prod.fst
  have hmem : (∀ x, x ∈ t ↔ x ∈ w.names) ↔ ∀ x, x ∈ t ↔ x ∈ w'.names :=
    forall_congr' fun x => by rw [hnames.mem_iff]
  by_cases hcovered : ∀ x, x ∈ t ↔ x ∈ w.names
  · left
    have hvalues : t.arrange (listed w.toList) = t.arrange (listed w'.toList) :=
      List.map_congr_left fun x hx =>
        listed_of_subset h.subset w.nodup w'.nodup ((hcovered x).mp hx)
    exact ⟨_, layOut_eq hcovered, hvalues ▸ layOut_eq (hmem.mp hcovered)⟩
  · right
    have hmissing : t.toList.filter (· ∉ w'.names) = t.toList.filter (· ∉ w.names) :=
      List.filter_congr fun x _ => decide_eq_decide.mpr (not_congr hnames.mem_iff.symm)
    have hsize : w'.size = w.size := h.length_eq.symm
    have hother := layOut_of_not_covered (mt hmem.mpr hcovered)
    rw [hmissing, hsize] at hother
    exact ⟨_, _, _, hnames.filter _, layOut_of_not_covered hcovered, hother⟩

end Witness

namespace Session

/-! ## What an operation adds when it succeeds -/

variable {α β : Type}

/-- Whenever the operation succeeds, it has added exactly these gates and values. -/
def Yields (c : Build α) (gs : List (Gate Scalar)) (ws : List (String × Scalar)) : Prop :=
  ∀ (s s' : Session) (a : α), c s = .ok a s' → s.Extends gs ws s'

namespace Yields

variable {c : Build α} {gs gs' : List (Gate Scalar)} {ws ws' : List (String × Scalar)}

theorem pure (a : α) : Yields (Pure.pure a) [] [] := by
  intro s s' b h
  cases h
  exact Extends.refl s

theorem throw (f : Fault) : Yields (MonadExcept.throw f : Build α) [] [] :=
  fun _ _ _ h => nomatch h

theorem map (hc : Yields c gs ws) (f : α → β) : Yields (f <$> c) gs ws := by
  intro s s' b h
  obtain ⟨a, hrun⟩ := ok_of_map h
  exact hc s s' a hrun

theorem bind (hc : Yields c gs ws) {d : α → Build β} (hd : ∀ a, Yields (d a) gs' ws') :
    Yields (c >>= d) (gs ++ gs') (ws ++ ws') := by
  intro s s' b h
  obtain ⟨a, t, hrun, hrest⟩ := ok_of_bind h
  exact (hc s t a hrun).trans (hd a t s' b hrest)

theorem discard (hc : Yields c gs ws) : Yields (discard c) gs ws := hc.map _

/-- What comes after adds nothing. -/
theorem then_nothing (hc : Yields c gs ws) {d : α → Build β} (hd : ∀ a, Yields (d a) [] []) :
    Yields (c >>= d) gs ws := by
  have h := hc.bind hd
  rw [List.append_nil, List.append_nil] at h
  exact h

end Yields

/-! ## Gates -/

theorem yields_append (g : Gate Scalar) : Yields (append g) [g] [] := by
  intro s s' k h
  cases hopen : s.closed with
  | true =>
    rw [append_of_closed hopen] at h
    cases h
  | false =>
    obtain ⟨_, t, hrun, hext⟩ := adds_append hopen g
    rw [hrun] at h
    cases h
    exact hext

theorem yields_appendAll (gs : List (Gate Scalar)) : Yields (appendAll gs) gs [] := by
  induction gs with
  | nil => exact Yields.pure ()
  | cons g gs ih => exact (yields_append g).discard.bind fun _ => ih

/-- Gates that are appended before an answer is given. -/
theorem yields_appendAll_answer (gs : List (Gate Scalar)) (a : α) :
    Yields (appendAll gs >>= fun _ => Pure.pure a) gs [] :=
  (yields_appendAll gs).then_nothing fun _ => Yields.pure a

theorem yields_gate (g : Gate Value) : Yields (gate g) (readable g) [] := by
  unfold gate readable
  cases g.read with
  | ok g => exact yields_append g
  | error r => exact fun _ _ _ h => nomatch h

/-! ## Values -/

/-- What is written for something that is read first. -/
def whenRead (e : Except Fault α) (ws : α → List (String × Scalar)) : List (String × Scalar) :=
  match e with
  | .ok a => ws a
  | .error _ => []

theorem yields_ofExcept_bind {e : Except Fault α} {d : α → Build β}
    {ws : α → List (String × Scalar)} (hd : ∀ a, Yields (d a) [] (ws a)) :
    Yields (MonadExcept.ofExcept e >>= d) [] (whenRead e ws) := by
  cases e with
  | ok a => exact hd a
  | error f => exact fun _ _ _ h => nomatch h

theorem yields_assign (x : String) (v : Value) :
    Yields (assign x v) [] (whenRead v.scalar fun a => [(x, a)]) := by
  intro s s' r h
  obtain ⟨a, hv, hext⟩ := extends_of_assign h
  rw [hv]
  exact hext

theorem yields_value (x : String) : Yields (value x) [] [] := by
  intro s s' a h
  unfold value at h
  split at h
  · cases h
    exact Extends.refl s
  · cases h

theorem yields_publish (x : String) (v : Value) :
    Yields (publish x v) (readable (.constant x v)) (whenRead v.scalar fun a => [(x, a)]) := by
  have h := (yields_gate (.constant x v)).discard.bind fun _ => yields_assign x v
  rw [List.append_nil] at h
  exact h

theorem yields_perform (p : Script) : Yields p.perform [] p.writes :=
  fun _ _ _ h => (extends_of_perform h).2

/-! ## Names outside gates -/

/-- The second session is the first one after these names have been referred to, with these gates and
values added. Names may be referred to outside a gate. -/
structure Takes (s : Session) (xs : List String) (gs : List (Gate Scalar))
    (ws : List (String × Scalar)) (s' : Session) : Prop where
  names_eq : s'.names = s.names.insertAll xs
  gates_eq : s'.gates = s.gates ++ gs
  witness_eq : s'.witness.toList = s.witness.toList ++ ws
  closing_eq : s'.closing? = s.closing?

namespace Takes

variable {s s' s'' : Session} {xs xs' : List String} {gs gs' : List (Gate Scalar)}
  {ws ws' : List (String × Scalar)}

theorem refl (s : Session) : s.Takes [] [] [] s :=
  ⟨rfl, (List.append_nil _).symm, (List.append_nil _).symm, rfl⟩

theorem trans (h : s.Takes xs gs ws s') (h' : s'.Takes xs' gs' ws' s'') :
    s.Takes (xs ++ xs') (gs ++ gs') (ws ++ ws') s'' where
  names_eq := by rw [h'.names_eq, h.names_eq, Names.insertAll_append]
  gates_eq := by rw [h'.gates_eq, h.gates_eq, List.append_assoc]
  witness_eq := by rw [h'.witness_eq, h.witness_eq, List.append_assoc]
  closing_eq := h'.closing_eq.trans h.closing_eq

end Takes

theorem Extends.takes {s s' : Session} {gs : List (Gate Scalar)} {ws : List (String × Scalar)}
    (h : s.Extends gs ws s') : s.Takes (gs.flatMap Gate.names) gs ws s' :=
  ⟨h.names_eq, h.gates_eq, h.witness_eq, h.closing_eq⟩

theorem takes_of_index {s s' : Session} {x : String} {i : Nat} (h : index x s = .ok i s') :
    s.Takes [x] [] [] s' := by
  cases h
  exact ⟨rfl, (List.append_nil _).symm, (List.append_nil _).symm, rfl⟩

end Session

/-! ## Steps -/

namespace Step

open Session (Yields Takes whenRead)

/-- The names that a step refers to when it succeeds, in order. -/
def names : Step → List String
  | index x => [x]
  | t => t.gates.flatMap Gate.names

/-- The values that a step gives when it succeeds, in order. -/
def writes : Step → List (String × Scalar)
  | assign x v => whenRead v.scalar fun a => [(x, a)]
  | publish x v => whenRead v.scalar fun a => [(x, a)]
  | fillBits u x v => whenRead v.scalar fun a => whenRead (u.pattern a) (u.writes x)
  | fillRange o x a b v => (Range.script o x a b v).writes
  | fillMember secret v elements => (Membership.script secret v elements).writes
  | _ => []

theorem yields_fillBits (u : Unpacking) (x : String) (v : Value) :
    Yields (u.fill x v) [] (fillBits u x v).writes :=
  Session.yields_ofExcept_bind fun _ => Session.yields_ofExcept_bind fun _ =>
    (Session.yields_perform _).then_nothing fun _ => Yields.pure _

theorem yields_imposeMember (secret : String) (elements : List String) :
    Yields (Membership.impose secret elements) (imposeMember secret elements).gates [] := by
  unfold Membership.impose gates
  cases elements with
  | nil => exact Yields.throw .noElements
  | cons x xs => exact Session.yields_appendAll_answer _ _

/-- A step that succeeds, and that does not close the session, takes its names, its gates and its
values. -/
theorem takes_of_run {t : Step} (ht : t ≠ .close) {s s' : Session} {r : Reply}
    (h : t.run s = .ok r s') : s.Takes t.names t.gates t.writes s' := by
  cases t with
  | index x =>
    obtain ⟨i, hrun⟩ := Session.ok_of_map h
    exact Session.takes_of_index hrun
  | value x => exact ((Session.yields_value x).map _ _ _ _ h).takes
  | gate g => exact ((Session.yields_gate g).map _ _ _ _ h).takes
  | assign x v => exact ((Session.yields_assign x v).map _ _ _ _ h).takes
  | publish x v => exact ((Session.yields_publish x v).map _ _ _ _ h).takes
  | imposeBits u x => exact ((Session.yields_appendAll_answer _ _).map _ _ _ _ h).takes
  | fillBits u x v => exact ((yields_fillBits u x v).map _ _ _ _ h).takes
  | imposeRange o a b x => exact ((Session.yields_appendAll_answer _ _).map _ _ _ _ h).takes
  | fillRange o x a b v => exact ((Session.yields_perform _).map _ _ _ _ h).takes
  | imposeMember secret elements => exact ((yields_imposeMember secret elements).map _ _ _ _ h).takes
  | fillMember secret v elements => exact ((Session.yields_perform _).map _ _ _ _ h).takes
  | close => exact absurd rfl ht

/-- A run in which every step succeeds takes what the steps take, one after the other. -/
theorem takes_of_runAll {ts : List Step} (hts : close ∉ ts) {s s' : Session}
    (h : Step.runAll ts s = .ok () s') :
    s.Takes (ts.flatMap names) (ts.flatMap gates) (ts.flatMap writes) s' := by
  induction ts generalizing s with
  | nil =>
    cases h
    exact Takes.refl _
  | cons t ts ih =>
    rw [List.mem_cons, not_or] at hts
    obtain ⟨ht, hrest⟩ := hts
    obtain ⟨r, s₁, hrun, hrunAll⟩ := runAll_cons h
    exact (takes_of_run (Ne.symm ht) hrun).trans (ih hrest hrunAll)

end Step

namespace Session

/-! ## Closing -/

/-- The two sessions close to the same system, or neither of them closes, because they do not have
values for exactly their names. Names that have a value and no index may be listed in another
order. -/
def CloseAlike (s s' : Session) : Prop :=
  (∃ S t t', close s = .ok S t ∧ close s' = .ok S t') ∨
    ∃ size count missing unknown unknown', List.Perm unknown unknown' ∧
      close s = .error (.incomplete size count missing unknown) s ∧
      close s' = .error (.incomplete size count missing unknown') s'

theorem close_of_not_laidOut {s : Session} (hopen : s.closed = false) {f : Fault}
    (h : s.witness.layOut s.names = .error f) : close s = .error f s := by
  simp only [close, hopen, h]
  rfl

theorem closeAlike_of_perm {s s' : Session} (hopen : s.closed = false) (hopen' : s'.closed = false)
    (hnames : s.names = s'.names) (hgates : s.gates = s'.gates)
    (hwitness : s.witness.toList.Perm s'.witness.toList) : s.CloseAlike s' := by
  rcases Witness.layOut_of_perm hwitness s.names with
    ⟨values, hvalues, hvalues'⟩ | ⟨missing, unknown, unknown', hunknown, hfault, hfault'⟩
  · rw [hnames] at hvalues'
    have hsystem : s.system values = s'.system values := by
      rw [system, system, hnames, hgates]
    have hclose' := close_of_open hopen' hvalues'
    rw [← hsystem] at hclose'
    exact Or.inl ⟨_, _, _, close_of_open hopen hvalues, hclose'⟩
  · rw [hnames] at hfault'
    refine Or.inr ⟨_, _, missing, unknown, unknown', hunknown, close_of_not_laidOut hopen hfault, ?_⟩
    rw [hnames]
    exact close_of_not_laidOut hopen' hfault'

/-- Two runs in which no step fails close alike when they refer to the same names and append the
same gates in the same order, and give the same values in any order, before, between or after the
gates. -/
theorem closeAlike_of_permuted_values {ts ts' : List Step} {s s' : Session}
    (hts : .close ∉ ts) (hts' : .close ∉ ts')
    (hnames : ts.flatMap Step.names = ts'.flatMap Step.names)
    (hgates : ts.flatMap Step.gates = ts'.flatMap Step.gates)
    (hvalues : (ts.flatMap Step.writes).Perm (ts'.flatMap Step.writes))
    (hrun : Step.runAll ts fresh = .ok () s) (hrun' : Step.runAll ts' fresh = .ok () s') :
    s.CloseAlike s' := by
  have htakes := Step.takes_of_runAll hts hrun
  have htakes' := Step.takes_of_runAll hts' hrun'
  apply closeAlike_of_perm
  · exact congrArg Option.isSome htakes.closing_eq
  · exact congrArg Option.isSome htakes'.closing_eq
  · rw [htakes.names_eq, htakes'.names_eq, hnames]
  · rw [htakes.gates_eq, htakes'.gates_eq, hgates]
  · rw [htakes.witness_eq, htakes'.witness_eq]
    exact hvalues.append_left _

/-- A range statement filled after its rows, and before them with a bound that gets its value in the
end. -/
theorem closeAlike_of_permuted_values_range :
    let o : Range.Options := ⟨1, .linear, true, by decide, by decide⟩
    let fill : Step := .fillRange o "x" (.integer 2) (.integer 5) (.integer 3)
    let impose : Step := .imposeRange o "A" "B" "x"
    ∃ s s' S t t',
      Step.runAll [.publish "A" (.integer 2), .publish "B" (.integer 5), impose, fill] fresh =
        .ok () s ∧
      Step.runAll [.assign "B" (.integer 5), fill, .gate (.constant "A" (.integer 2)),
        .gate (.constant "B" (.integer 5)), impose, .assign "A" (.integer 2)] fresh = .ok () s' ∧
      close s = .ok S t ∧ close s' = .ok S t' := by
  intro o fill impose
  let ts : List Step := [.publish "A" (.integer 2), .publish "B" (.integer 5), impose, fill]
  let ts' : List Step := [.assign "B" (.integer 5), fill, .gate (.constant "A" (.integer 2)),
    .gate (.constant "B" (.integer 5)), impose, .assign "A" (.integer 2)]
  have hts : .close ∉ ts := by simp [ts, fill, impose]
  have hts' : .close ∉ ts' := by simp [ts', fill, impose]
  have hnames : ts.flatMap Step.names = ts'.flatMap Step.names := by decide +kernel
  have hvalues : (ts.flatMap Step.writes).Perm (ts'.flatMap Step.writes) := by decide +kernel
  have hcloses : (match Step.runAll ts fresh with
      | .ok _ s => (match close s with
        | .ok _ _ => true
        | .error _ _ => false)
      | .error _ _ => false) = true := by decide +kernel
  have hruns : (match Step.runAll ts' fresh with
      | .ok _ _ => true
      | .error _ _ => false) = true := by decide +kernel
  cases hrun : Step.runAll ts fresh with
  | error f s =>
    rw [hrun] at hcloses
    cases hcloses
  | ok r s =>
    cases hrun' : Step.runAll ts' fresh with
    | error f s' =>
      rw [hrun'] at hruns
      cases hruns
    | ok r' s' =>
      have halike := closeAlike_of_permuted_values hts hts' hnames rfl hvalues hrun hrun'
      rcases halike with ⟨S, t, t', hclose, hclose'⟩ | ⟨_, _, _, _, _, _, hclose, _⟩
      · exact ⟨s, s', S, t, t', rfl, rfl, hclose, hclose'⟩
      · simp only [hrun, hclose, Bool.false_eq_true] at hcloses

end Session

end RankOne
