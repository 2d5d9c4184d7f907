import RankOne.Proofs.Session.History
import RankOne.Proofs.Range.Outcome
import RankOne.Proofs.Membership.Verdict

/-!
# Statements that share a session

Any number of range and membership statements can be built in one session, with any names for their
variables and in any order. A helper of one statement may have the name of a variable of another
one only if no value is given to it twice, and then both are about the same value. So as long as no
step fails, the verdict on the whole is that on each statement by itself.
-/

namespace RankOne

/-! ## Operations that succeed -/

namespace Session

variable {α β : Type} {s s' : Session}

theorem ok_of_bind {c : Build α} {d : α → Build β} {b : β} (h : (c >>= d) s = .ok b s') :
    ∃ a t, c s = .ok a t ∧ d a t = .ok b s' := by
  change EStateM.bind c d s = _ at h
  unfold EStateM.bind at h
  cases hc : c s with
  | error f t =>
    rw [hc] at h
    cases h
  | ok a t =>
    rw [hc] at h
    exact ⟨a, t, rfl, h⟩

theorem ok_of_map {c : Build α} {f : α → β} {b : β} (h : (f <$> c) s = .ok b s') :
    ∃ a, c s = .ok a s' := by
  change EStateM.map f c s = _ at h
  unfold EStateM.map at h
  cases hc : c s with
  | error f t =>
    rw [hc] at h
    cases h
  | ok a t =>
    rw [hc] at h
    cases h
    exact ⟨a, rfl⟩

/-- A value that is accepted has been read and is added to the others. -/
theorem extends_of_assign {x : String} {v : Value} {r : Unit} (h : assign x v s = .ok r s') :
    ∃ a, v.scalar = .ok a ∧ s.Extends [] [(x, a)] s' := by
  unfold assign at h
  split at h
  · cases h
  · cases hw : s.witness.assign x v with
    | error f =>
      rw [hw] at h
      cases h
    | ok w =>
      rw [hw] at h
      cases h
      obtain ⟨a, hv, htoList⟩ := toList_of_assign hw
      exact ⟨a, hv, rfl, (List.append_nil _).symm, htoList, rfl⟩

theorem publish_ok {x : String} {v : Value} {r : Unit} (h : publish x v s = .ok r s') :
    ∃ a, v.scalar = .ok a ∧ (x, a) ∈ s'.witness.toList := by
  obtain ⟨_, t, -, hassign⟩ := ok_of_bind h
  obtain ⟨a, hv, hext⟩ := extends_of_assign hassign
  rw [hext.witness_eq]
  exact ⟨a, hv, List.mem_append_right _ List.mem_cons_self⟩

theorem extends_of_assignAll {ws : List (String × Scalar)} {r : Unit}
    (h : (ws.forM fun w => assign w.1 (Value.ofScalar w.2)) s = .ok r s') :
    s.Extends [] ws s' := by
  induction ws generalizing s with
  | nil =>
    cases h
    exact Extends.refl _
  | cons w ws ih =>
    obtain ⟨_, t, hassign, hrest⟩ := ok_of_bind h
    obtain ⟨a, ha, hext⟩ := extends_of_assign hassign
    rw [Value.scalar_ofScalar] at ha
    obtain rfl := Except.ok.inj ha
    exact hext.trans (ih hrest)

/-- A script that runs to its end has no fault, and all its values are added. -/
theorem extends_of_perform {p : Script} {r : Unit} (h : p.perform s = .ok r s') :
    p.fault? = none ∧ s.Extends [] p.writes s' := by
  obtain ⟨_, t, hassign, hfault⟩ := ok_of_bind h
  have hext := extends_of_assignAll hassign
  cases hp : p.fault? with
  | some f =>
    rw [hp] at hfault
    cases hfault
  | none =>
    rw [hp] at hfault
    cases hfault
    exact ⟨rfl, hext⟩

/-- Values that are given without a fault are among those that the session has. -/
theorem perform_ok {p : Script} {r : Unit} (h : p.perform s = .ok r s') :
    p.fault? = none ∧ ∀ w ∈ p.writes, w ∈ s'.witness.toList := by
  obtain ⟨hfault, hext⟩ := extends_of_perform h
  rw [hext.witness_eq]
  exact ⟨hfault, fun w hw => List.mem_append_right _ hw⟩

end Session

/-! ## Steps that succeed -/

namespace Step

/-- Runs steps in order, up to the first one that fails. -/
def runAll (ts : List Step) : Build Unit := ts.forM fun t => discard t.run

theorem runAll_cons {t : Step} {ts : List Step} {s s'' : Session}
    (h : runAll (t :: ts) s = .ok () s'') :
    ∃ r s', t.run s = .ok r s' ∧ runAll ts s' = .ok () s'' := by
  obtain ⟨_, s', hdiscard, hrest⟩ := Session.ok_of_bind h
  obtain ⟨r, hrun⟩ := Session.ok_of_map hdiscard
  exact ⟨r, s', hrun, hrest⟩

theorem after_of_run {t : Step} {s s' : Session} {r : Reply} (h : t.run s = .ok r s') :
    t.after s = s' := by
  unfold after
  rw [h]

/-- Each of the steps has succeeded on the way to the last session. -/
theorem runAll_eq_ok {ts : List Step} {s s' : Session} (h : runAll ts s = .ok () s') :
    ts.foldl (fun s t => t.after s) s = s' ∧
      ∀ t ∈ ts, ∃ (rest : List Step) (s₁ s₂ : Session) (r : Reply), t.run s₁ = .ok r s₂ ∧
        rest.foldl (fun s t => t.after s) s₂ = s' := by
  induction ts generalizing s with
  | nil =>
    cases h
    exact ⟨rfl, List.forall_mem_nil _⟩
  | cons t ts ih =>
    obtain ⟨r, s₂, hrun, hrest⟩ := runAll_cons h
    obtain ⟨hlast, hall⟩ := ih hrest
    refine ⟨?_, ?_⟩
    · rw [List.foldl_cons, after_of_run hrun, hlast]
    · rw [List.forall_mem_cons]
      exact ⟨⟨ts, s, s₂, r, hrun, hlast⟩, hall⟩

/-- What is a value after one of the steps is a value in the end. -/
theorem values_of_runAll {ts : List Step} {s s' : Session} (h : runAll ts s = .ok () s')
    (hopen : s'.closed = false) {t : Step} (ht : t ∈ ts) :
    ∃ s₁ s₂ r, t.run s₁ = .ok r s₂ ∧ s₂.witness.toList ⊆ s'.witness.toList := by
  obtain ⟨-, hall⟩ := runAll_eq_ok h
  obtain ⟨rest, s₁, s₂, r, hrun, hlast⟩ := hall t ht
  have hgrows := Session.grows_foldl rest (hlast.symm ▸ hopen)
  rw [hlast] at hgrows
  exact ⟨s₁, s₂, r, hrun, hgrows.values_prefix.subset⟩

end Step

/-! ## Values that were given -/

theorem Witness.value_of_get? {w : Witness} {x : String} {a : Scalar} (h : w.get? x = some a) :
    w.value x = .ok a := by
  unfold value
  rw [h]

/-- The value of a name, once it has one. -/
theorem Witness.listed_of_value {w : Witness} {x : String} {a : Scalar} (h : w.value x = .ok a) :
    listed w.toList x = a := by
  unfold value at h
  unfold listed
  cases hx : w.get? x with
  | none =>
    rw [hx] at h
    cases h
  | some b =>
    rw [hx] at h
    change w.toList.lookup x = some b at hx
    rw [hx]
    exact Except.ok.inj h

/-- The values in the list are those of the witness that contains it. -/
theorem Witness.agrees_of_subset {w : Witness} {ws : List (String × Scalar)}
    (h : ∀ p ∈ ws, p ∈ w.toList) : Agrees (listed w.toList) ws :=
  fun p hp => listed_of_mem w.nodup (h p hp)

namespace Range

variable {o : Options} {x : String} {v a b : Value}

/-- A script without a fault has read everything and gives all values. -/
theorem script_complete (h : (script o x a b v).fault? = none) :
    ∃ low high s, a.scalar = .ok low ∧ b.scalar = .ok high ∧ v.scalar = .ok s ∧
      (script o x a b v).writes = helperWrites o x low high s := by
  cases hbounds : readBounds a b with
  | error f =>
    simp only [script, hbounds] at h
    cases h
  | ok bounds =>
    obtain ⟨low, high⟩ := bounds
    obtain ⟨ha, hb, -⟩ := scalars_of_readBounds hbounds
    cases hv : v.scalar with
    | error f =>
      rw [script_of_refused x hbounds hv] at h
      cases h
    | ok s =>
      refine ⟨low, high, s, ha, hb, rfl, ?_⟩
      by_cases hfits : o.strict = true → Fits o.width (product low high s).toInt
      · rw [script_of_fits x hbounds hv hfits]
        rfl
      · obtain ⟨hstrict, hnot⟩ := Classical.not_imp.mp hfits
        rw [script_of_not_fits x hbounds hv hstrict hnot] at h
        cases h

end Range

namespace Membership

variable {secret : String} {v : Value} {elements : List Value}

theorem read_of_elementScript {s product : Scalar} {i : ℕ}
    (h : (elementScript secret s i product elements).fault? = none) :
    ∃ es, Read elements es := by
  induction elements generalizing i product with
  | nil => exact ⟨[], .nil⟩
  | cons w ws ih =>
    unfold elementScript at h
    cases hw : w.scalar with
    | error f =>
      rw [hw] at h
      cases h
    | ok e =>
      rw [hw] at h
      obtain ⟨es, hes⟩ := ih h
      exact ⟨e :: es, .cons hw hes⟩

/-- A script without a fault has read everything and gives all values. -/
theorem script_complete (h : (script secret v elements).fault? = none) :
    ∃ s es, v.scalar = .ok s ∧ Read elements es ∧ es ≠ [] ∧
      (script secret v elements).writes = (secret, s) :: elementWrites secret s 0 1 es := by
  have hne : elements ≠ [] := by
    rintro rfl
    cases h
  cases hv : v.scalar with
  | error f =>
    rw [script_of_refused hne hv] at h
    cases h
  | ok s =>
    have hempty : elements.isEmpty = false := by simpa using hne
    have hscript : script secret v elements =
        (elementScript secret s 0 1 elements).after [(secret, s)] := by
      simp only [script, hempty, Bool.false_eq_true, if_false, hv]
    rw [hscript] at h
    obtain ⟨es, hread⟩ := read_of_elementScript h
    refine ⟨s, es, rfl, hread, hread.ne_nil_iff.mp hne, ?_⟩
    rw [script_eq hread hne hv]
    rfl

end Membership

/-! ## Statements in a session -/

/-- A statement that is imposed once and filled once in a session. The values are those that the
filling is given; the names of the bounds and of the elements are those that the rows refer to. -/
inductive Use where
  | range (o : Range.Options) (lower upper x : String) (v a b : Value)
  | member (secret : String) (elements : List String) (v : Value) (values : List Value)

namespace Use

def impose : Use → Step
  | range o lower upper x _ _ _ => .imposeRange o lower upper x
  | member secret elements _ _ => .imposeMember secret elements

def fill : Use → Step
  | range o _ _ x v a b => .fillRange o x a b v
  | member secret _ v values => .fillMember secret v values

/-- The bounds or elements have in the session the values that the filling was given for them. -/
def Bound (s : Session) : Use → Prop
  | range _ lower upper _ _ a b =>
    s.witness.value lower = a.scalar ∧ s.witness.value upper = b.scalar
  | member _ elements _ values =>
    List.Forall₂ (fun x v => s.witness.value x = v.scalar) elements values

/-- What the statement says about the values that it was given. -/
def Valid : Use → Prop
  | range o _ _ _ v a b => ∃ low high s, a.scalar = .ok low ∧ b.scalar = .ok high ∧
      v.scalar = .ok s ∧ Range.Window o (Range.product low high s).toInt
  | member _ _ v values => ∃ s, v.scalar = .ok s ∧ ∃ e ∈ values, e.scalar = .ok s

variable {s : Session}

theorem map_listed_of_bound {elements : List String} {values : List Value} {es : List Scalar}
    (hbound : List.Forall₂ (fun x v => s.witness.value x = v.scalar) elements values)
    (hread : Membership.Read values es) :
    elements.map (listed s.witness.toList) = es := by
  induction hbound generalizing es with
  | nil =>
    cases hread
    rfl
  | cons hx _ ih =>
    cases hread with
    | cons hv hrest => rw [List.map_cons, ih hrest, Witness.listed_of_value (hx.trans hv)]

theorem exists_scalar_iff {values : List Value} {es : List Scalar}
    (hread : Membership.Read values es) (a : Scalar) :
    (∃ e ∈ values, e.scalar = .ok a) ↔ a ∈ es := by
  induction hread with
  | nil => simp
  | cons hv _ ih => rw [List.exists_mem_cons_iff, ih, hv, Except.ok.injEq, List.mem_cons, eq_comm]

/-- Once a statement has been filled, its rows hold for the values of the session when it is valid.
It does not matter which other names have values. -/
theorem holds_iff_valid {u : Use} {s₁ s₂ : Session} {r : Reply} (hfill : u.fill.run s₁ = .ok r s₂)
    (hvalues : s₂.witness.toList ⊆ s.witness.toList) (hbound : u.Bound s) :
    (∀ g ∈ u.impose.gates, g.Holds (listed s.witness.toList)) ↔ u.Valid := by
  cases u with
  | range o lower upper x v a b =>
    obtain ⟨_, hrun⟩ := Session.ok_of_map hfill
    obtain ⟨hfault, hwrites⟩ := Session.perform_ok hrun
    -- What the filling has written is still there, since no name is given a second value.
    obtain ⟨low, high, secret, ha, hb, hv, hscript⟩ := Range.script_complete hfault
    obtain ⟨hlower, hupper⟩ := hbound
    have hlow := Witness.listed_of_value (hlower.trans ha)
    have hhigh := Witness.listed_of_value (hupper.trans hb)
    have hagrees : Agrees (listed s.witness.toList) (Range.helperWrites o x low high secret) := by
      apply Witness.agrees_of_subset
      rw [← hscript]
      exact fun w hw => hvalues (hwrites w hw)
    have hsecret : listed s.witness.toList x = secret := hagrees (x, secret) List.mem_cons_self
    show (∀ g ∈ Range.gates o lower upper x, g.Holds _) ↔ _
    rw [Range.gates_iff, hlow, hhigh, hsecret, and_iff_left hagrees]
    constructor
    · exact fun hwindow => ⟨low, high, secret, ha, hb, hv, hwindow⟩
    · rintro ⟨low', high', secret', ha', hb', hv', hwindow⟩
      obtain rfl := Except.ok.inj (ha.symm.trans ha')
      obtain rfl := Except.ok.inj (hb.symm.trans hb')
      obtain rfl := Except.ok.inj (hv.symm.trans hv')
      exact hwindow
  | member secret elements v values =>
    obtain ⟨_, hrun⟩ := Session.ok_of_map hfill
    obtain ⟨hfault, hwrites⟩ := Session.perform_ok hrun
    obtain ⟨a, es, hv, hread, hne, hscript⟩ := Membership.script_complete hfault
    have helements := map_listed_of_bound hbound hread
    have hnames : elements ≠ [] := by
      rintro rfl
      exact hne helements.symm
    have hagrees : Agrees (listed s.witness.toList)
        ((secret, a) :: Membership.elementWrites secret a 0 1 es) := by
      apply Witness.agrees_of_subset
      rw [← hscript]
      exact fun w hw => hvalues (hwrites w hw)
    obtain ⟨hsecret, hrest⟩ := agrees_cons.mp hagrees
    show (∀ g ∈ if elements = [] then [] else Membership.gates secret elements, g.Holds _) ↔ _
    rw [if_neg hnames, Membership.gates_iff hnames, helements, hsecret, and_iff_left hrest,
      ← exists_scalar_iff hread]
    constructor
    · exact fun hmem => ⟨a, hv, hmem⟩
    · rintro ⟨a', hv', hmem⟩
      obtain rfl := Except.ok.inj (hv.symm.trans hv')
      exact hmem

theorem gates_fill (u : Use) : u.fill.gates = [] := by
  cases u <;> rfl

/-- A published constant that was accepted holds. -/
theorem holds_publish {x : String} {v : Value} {s₁ s₂ : Session} {r : Reply}
    (hrun : (Step.publish x v).run s₁ = .ok r s₂)
    (hvalues : s₂.witness.toList ⊆ s.witness.toList) :
    ∀ g ∈ (Step.publish x v).gates, g.Holds (listed s.witness.toList) := by
  obtain ⟨_, hpublish⟩ := Session.ok_of_map hrun
  obtain ⟨a, hv, hmem⟩ := Session.publish_ok hpublish
  have hgates : (Step.publish x v).gates = [.constant x a] := by
    show Session.readable (.constant x v) = _
    simp only [Session.readable, Gate.read, hv]
  rw [hgates, List.forall_mem_singleton]
  exact listed_of_mem s.witness.nodup (hvalues hmem)

/-- Statements that share a session are judged one by one. They may be imposed and filled in any
order, among published constants and steps that add no gate, as long as no step fails, every bound
and every element ends up with the value that was given for it, and the session can be closed. -/
theorem satisfied_iff_valid (us : List Use) (others : List Step) {ts : List Step} {s : Session}
    {C : CheckedSystem} (hts : ts.Perm (us.map impose ++ us.map fill ++ others))
    (hothers : ∀ t ∈ others, t.gates = [] ∨ ∃ x v, t = .publish x v)
    (hrun : Step.runAll ts Session.fresh = .ok () s) (hbound : ∀ u ∈ us, u.Bound s)
    (hC : s.checked = .ok C) : C.satisfied = true ↔ ∀ u ∈ us, u.Valid := by
  have hopen := Session.open_of_checked hC
  have hreached : Session.reached ts = s := (Step.runAll_eq_ok hrun).1
  have hregular : s.Regular := hreached ▸ Session.regular_reached (hreached.symm ▸ hopen)
  have hgates : s.gates = ts.flatMap Step.gates :=
    hreached ▸ Session.gates_reached (hreached.symm ▸ hopen)
  have hmem : ∀ t, t ∈ ts ↔ (t ∈ us.map impose ∨ t ∈ us.map fill) ∨ t ∈ others := by
    intro t
    rw [hts.mem_iff, List.mem_append, List.mem_append]
  -- Fillings add no gate and published constants hold, so only what is imposed is left to judge.
  have huse : ∀ u ∈ us, (∀ g ∈ u.impose.gates, g.Holds (listed s.witness.toList)) ↔ u.Valid := by
    intro u hu
    have hfill : u.fill ∈ ts := (hmem _).mpr (Or.inl (Or.inr (List.mem_map_of_mem hu)))
    obtain ⟨s₁, s₂, r, hstep, hvalues⟩ := Step.values_of_runAll hrun hopen hfill
    exact holds_iff_valid hstep hvalues (hbound u hu)
  rw [Session.satisfied_iff_of_checked hregular hC, hgates, List.forall_mem_flatMap]
  constructor
  · intro h u hu
    have himpose : u.impose ∈ ts := (hmem _).mpr (Or.inl (Or.inl (List.mem_map_of_mem hu)))
    exact (huse u hu).mp (h _ himpose)
  · intro h t ht
    rcases (hmem t).mp ht with (himpose | hfill) | hother
    · obtain ⟨u, hu, rfl⟩ := List.mem_map.mp himpose
      exact (huse u hu).mpr (h u hu)
    · obtain ⟨u, -, rfl⟩ := List.mem_map.mp hfill
      rw [gates_fill]
      exact List.forall_mem_nil _
    · rcases hothers t hother with hnone | ⟨x, v, rfl⟩
      · rw [hnone]
        exact List.forall_mem_nil _
      · obtain ⟨s₁, s₂, r, hstep, hvalues⟩ := Step.values_of_runAll hrun hopen ht
        exact holds_publish hstep hvalues

/-- A gap of a range statement is an element of a membership statement. -/
theorem satisfied_iff_valid_shared_gap :
    let o : Range.Options := ⟨1, .linear, true, by decide, by decide⟩
    let us : List Use := [.range o "A" "B" "x" (.integer 3) (.integer 2) (.integer 5),
      .member "y" ["A", "x_lower_gap"] (.integer (-1)) [.integer 2, .integer (-1)]]
    let others : List Step := [.publish "A" (.integer 2), .publish "B" (.integer 5)]
    ∃ s C, Step.runAll (others ++ (us.map impose ++ us.map fill)) Session.fresh = .ok () s ∧
      s.checked = .ok C ∧ C.satisfied = true ∧ ∀ u ∈ us, u.Valid := by
  intro o us others
  let ts := others ++ (us.map impose ++ us.map fill)
  have hts : ts.Perm (us.map impose ++ us.map fill ++ others) := List.perm_append_comm
  have hothers : ∀ t ∈ others, t.gates = [] ∨ ∃ x v, t = .publish x v := by
    simp [others]
  have hcheck : (match Step.runAll ts Session.fresh with
      | .ok _ s => (s.witness.get? "A", s.witness.get? "B", s.witness.get? "x_lower_gap",
        s.checked.toOption.map (·.satisfied))
      | .error _ _ => (none, none, none, none)) = (some 2, some 5, some (-1), some true) := by
    decide +kernel
  cases hrun : Step.runAll ts Session.fresh with
  | error f s =>
    rw [hrun] at hcheck
    cases hcheck
  | ok r s =>
    rw [hrun] at hcheck
    simp only [Prod.mk.injEq] at hcheck
    obtain ⟨hlower, hupper, hgap, hsatisfied⟩ := hcheck
    cases hC : s.checked with
    | error f =>
      rw [hC] at hsatisfied
      cases hsatisfied
    | ok C =>
      rw [hC] at hsatisfied
      have hverdict : C.satisfied = true := Option.some.inj hsatisfied
      have hbound : ∀ u ∈ us, u.Bound s := by
        rw [List.forall_mem_cons, List.forall_mem_singleton]
        have hlow := Witness.value_of_get? hlower
        exact ⟨⟨hlow, Witness.value_of_get? hupper⟩,
          .cons hlow (.cons (Witness.value_of_get? hgap) .nil)⟩
      have hiff := satisfied_iff_valid us others hts hothers hrun hbound hC
      exact ⟨s, C, rfl, hC, hverdict, hiff.mp hverdict⟩

end Use

end RankOne
