import RankOne.Session.Step
import RankOne.Proofs.Session.Closing

/-!
# What a step leaves behind

A step may fail half-way, and the session then keeps what had been done by that time. Whether it
succeeds or fails, a step adds names after the names, values after the values and gates after the
gates. Which gates these are depends on the step alone as long as the session is open: what can
still fail once a gate has been appended is the assignment of a value.
-/

namespace RankOne

namespace Session

variable {α β : Type}

/-- The session after an operation, whether the operation succeeds or fails. -/
def leaves (c : Build α) (s : Session) : Session :=
  match c s with
  | .ok _ s' => s'
  | .error _ s' => s'

theorem leaves_bind (c : Build α) (d : α → Build β) (s : Session) :
    leaves (c >>= d) s =
      match c s with
      | .ok a s' => leaves (d a) s'
      | .error _ s' => s' := by
  show leaves (EStateM.bind c d) s = _
  unfold leaves EStateM.bind
  cases c s <;> rfl

theorem leaves_map (f : α → β) (c : Build α) (s : Session) : leaves (f <$> c) s = leaves c s := by
  show leaves (EStateM.map f c) s = _
  unfold leaves EStateM.map
  cases c s <;> rfl

/-- The second session is the first one with names, values and these gates added. -/
structure Grows (s : Session) (gs : List (Gate Scalar)) (s' : Session) : Prop where
  names_eq : ∃ xs, s'.names = s.names.insertAll xs
  mentioned : ∀ g ∈ gs, ∀ x ∈ g.names, x ∈ s'.names
  gates_eq : s'.gates = s.gates ++ gs
  values_prefix : s.witness.toList <+: s'.witness.toList
  closing_eq : s'.closing? = s.closing?

namespace Grows

variable {s s' s'' : Session} {gs gs' : List (Gate Scalar)}

theorem refl (s : Session) : s.Grows [] s :=
  ⟨⟨[], rfl⟩, List.forall_mem_nil _, (List.append_nil _).symm, List.prefix_refl _, rfl⟩

/-- Only names have been added. -/
theorem of_names (s : Session) (xs : List String) :
    s.Grows [] { s with names := s.names.insertAll xs } :=
  ⟨⟨xs, rfl⟩, List.forall_mem_nil _, (List.append_nil _).symm, List.prefix_refl _, rfl⟩

theorem mem_names (h : s.Grows gs s') {x : String} (hx : x ∈ s.names) : x ∈ s'.names := by
  obtain ⟨xs, hxs⟩ := h.names_eq
  rw [hxs, Names.mem_insertAll]
  exact Or.inl hx

theorem position_eq (h : s.Grows gs s') {x : String} (hx : x ∈ s.names) :
    s'.names.position x = s.names.position x := by
  obtain ⟨xs, hxs⟩ := h.names_eq
  rw [hxs, Names.position_insertAll _ _ hx]

theorem closed_eq (h : s.Grows gs s') : s'.closed = s.closed := by
  unfold closed
  rw [h.closing_eq]

theorem trans (h : s.Grows gs s') (h' : s'.Grows gs' s'') : s.Grows (gs ++ gs') s'' where
  names_eq := by
    obtain ⟨xs, hxs⟩ := h.names_eq
    obtain ⟨ys, hys⟩ := h'.names_eq
    exact ⟨xs ++ ys, by rw [hys, hxs, Names.insertAll_append]⟩
  mentioned := by
    rw [List.forall_mem_append]
    exact ⟨fun g hg x hx => h'.mem_names (h.mentioned g hg x hx), h'.mentioned⟩
  gates_eq := by rw [h'.gates_eq, h.gates_eq, List.append_assoc]
  values_prefix := h.values_prefix.trans h'.values_prefix
  closing_eq := h'.closing_eq.trans h.closing_eq

end Grows

/-- The gates that are left of some when they are appended to a session. -/
def taken (s : Session) (gs : List (Gate Scalar)) : List (Gate Scalar) :=
  if s.closed then [] else gs

@[simp] theorem taken_nil (s : Session) : s.taken [] = [] := ite_self _

theorem taken_of_open {s : Session} (h : s.closed = false) (gs : List (Gate Scalar)) :
    s.taken gs = gs := by
  rw [taken, h]
  rfl

theorem taken_of_closed {s : Session} (h : s.closed = true) (gs : List (Gate Scalar)) :
    s.taken gs = [] := by
  rw [taken, h]
  rfl

/-- On every session the operation adds these gates, or none of them if the session is closed. -/
def Appends (c : Build α) (gs : List (Gate Scalar)) : Prop :=
  ∀ s : Session, s.Grows (s.taken gs) (leaves c s)

namespace Appends

variable {c : Build α} {gs : List (Gate Scalar)}

theorem of_unchanged (h : ∀ s, leaves c s = s) : Appends c [] := by
  intro s
  rw [h s, taken_nil]
  exact Grows.refl s

theorem pure (a : α) : Appends (Pure.pure a) [] := of_unchanged fun _ => rfl

theorem throw (f : Fault) : Appends (MonadExcept.throw f : Build α) [] := of_unchanged fun _ => rfl

theorem ofExcept (e : Except Fault α) : Appends (MonadExcept.ofExcept e) [] := by
  cases e with
  | ok a => exact pure a
  | error f => exact throw f

theorem map (hc : Appends c gs) (f : α → β) : Appends (f <$> c) gs := by
  intro s
  rw [leaves_map]
  exact hc s

theorem discard (hc : Appends c gs) : Appends (discard c) gs := hc.map _

/-- What comes after the gates adds no more of them. -/
theorem bind (hc : Appends c gs) {d : α → Build β} (hd : ∀ a, Appends (d a) []) :
    Appends (c >>= d) gs := by
  intro s
  have hs := hc s
  rw [leaves_bind]
  unfold leaves at hs
  cases hrun : c s with
  | error f s' =>
    rw [hrun] at hs
    exact hs
  | ok a s' =>
    rw [hrun] at hs
    have h := hs.trans (hd a s')
    rw [taken_nil, List.append_nil] at h
    exact h

end Appends

/-! ## Operations -/

theorem appends_mention (xs : List String) : Appends (mention xs) [] := by
  intro s
  rw [taken_nil]
  exact Grows.of_names s xs

theorem appends_index (x : String) : Appends (index x) [] := by
  intro s
  rw [taken_nil]
  exact Grows.of_names s [x]

theorem appends_value (x : String) : Appends (value x) [] := by
  apply Appends.of_unchanged
  intro s
  unfold leaves value
  cases s.witness.value x <;> rfl

theorem Grows.of_append (s : Session) (g : Gate Scalar) :
    s.Grows [g] { s with names := s.names.insertAll g.names, gates := s.gates ++ [g] } where
  names_eq := ⟨g.names, rfl⟩
  mentioned := by
    rw [List.forall_mem_singleton]
    exact fun x hx => (Names.mem_insertAll _ _ _).mpr (Or.inr hx)
  gates_eq := rfl
  values_prefix := List.prefix_refl _
  closing_eq := rfl

theorem appends_append (g : Gate Scalar) : Appends (append g) [g] := by
  intro s
  cases h : s.closed with
  | true =>
    rw [leaves, append_of_closed h, taken_of_closed h]
    exact Grows.of_names s g.names
  | false =>
    rw [leaves, append_of_open h, taken_of_open h]
    exact Grows.of_append s g

theorem appends_appendAll (gs : List (Gate Scalar)) : Appends (appendAll gs) gs := by
  induction gs with
  | nil => exact Appends.pure ()
  | cons g gs ih =>
    intro s
    show s.Grows _ (leaves (discard (append g) >>= fun _ => appendAll gs) s)
    rw [leaves_bind]
    cases h : s.closed with
    | true =>
      have hrun : (discard (append g) : Build Unit) s =
          .error .closed { s with names := s.names.insertAll g.names } := by
        show EStateM.map _ (append g) s = _
        rw [EStateM.map, append_of_closed h]
      rw [hrun, taken_of_closed h]
      exact Grows.of_names s g.names
    | false =>
      have hrun : (discard (append g) : Build Unit) s =
          .ok () { s with names := s.names.insertAll g.names, gates := s.gates ++ [g] } := by
        show EStateM.map _ (append g) s = _
        rw [EStateM.map, append_of_open h]
      have hfirst := Grows.of_append s g
      have hopen := hfirst.closed_eq.trans h
      have hrest := ih { s with names := s.names.insertAll g.names, gates := s.gates ++ [g] }
      rw [taken_of_open hopen] at hrest
      rw [hrun, taken_of_open h]
      exact hfirst.trans hrest

/-- The gate that is left of one whose constants come from a caller, if they are read. -/
def readable (g : Gate Value) : List (Gate Scalar) :=
  match g.read with
  | .ok g => [g]
  | .error _ => []

theorem appends_gate (g : Gate Value) : Appends (gate g) (readable g) := by
  unfold gate readable
  cases g.read with
  | ok g => exact appends_append g
  | error r => exact (appends_mention r.names).bind fun _ => Appends.throw r.fault

/-- A value that has been given stands last. -/
theorem toList_of_assign {w w' : Witness} {x : String} {v : Value} (h : w.assign x v = .ok w') :
    ∃ a, v.scalar = .ok a ∧ w'.toList = w.toList ++ [(x, a)] := by
  unfold Witness.assign at h
  split at h
  · cases h
  · cases hv : v.scalar with
    | error f =>
      rw [hv] at h
      cases h
    | ok a =>
      rw [hv] at h
      exact ⟨a, rfl, congrArg Witness.toList (Except.ok.inj h).symm⟩

theorem appends_assign (x : String) (v : Value) : Appends (assign x v) [] := by
  intro s
  rw [taken_nil]
  unfold leaves assign
  cases s.closed with
  | true => exact Grows.refl s
  | false =>
    cases hw : s.witness.assign x v with
    | error f => exact Grows.refl s
    | ok w =>
      obtain ⟨a, _, htoList⟩ := toList_of_assign hw
      have hprefix : s.witness.toList <+: w.toList := htoList ▸ List.prefix_append _ _
      exact ⟨⟨[], rfl⟩, List.forall_mem_nil _, (List.append_nil _).symm, hprefix, rfl⟩

theorem appends_publish (x : String) (v : Value) :
    Appends (publish x v) (readable (.constant x v)) :=
  (appends_gate _).discard.bind fun _ => appends_assign x v

theorem appends_perform (p : Script) : Appends p.perform [] := by
  have hwrites : ∀ ws : List (String × Scalar),
      Appends (ws.forM fun w => assign w.1 (Value.ofScalar w.2)) [] := by
    intro ws
    induction ws with
    | nil => exact Appends.pure ()
    | cons w ws ih => exact (appends_assign w.1 _).bind fun _ => ih
  apply (hwrites p.writes).bind
  intro _
  cases p.fault? with
  | none => exact Appends.pure ()
  | some f => exact Appends.throw f

end Session

/-! ## Steps -/

namespace Step

open Session (Appends leaves readable)

/-- The gates that a step adds to an open session. -/
def gates : Step → List (Gate Scalar)
  | gate g => readable g
  | publish x v => readable (.constant x v)
  | imposeBits u x => u.gates x
  | imposeRange o a b x => Range.gates o a b x
  | imposeMember secret elements =>
    if elements = [] then [] else Membership.gates secret elements
  | _ => []

theorem appends_fillBits (u : Unpacking) (x : String) (v : Value) : Appends (u.fill x v) [] :=
  (Appends.ofExcept _).bind fun _ => (Appends.ofExcept _).bind fun _ =>
    (Session.appends_perform _).bind fun _ => Appends.pure _

theorem appends_imposeMember (secret : String) (elements : List String) :
    Appends (Membership.impose secret elements) (imposeMember secret elements).gates := by
  unfold Membership.impose gates
  cases elements with
  | nil => exact Appends.throw .noElements
  | cons x xs => exact (Session.appends_appendAll _).bind fun _ => Appends.pure _

/-- Every step but the closing of the session appends its gates. -/
theorem appends_run {t : Step} (ht : t ≠ .close) : Appends t.run t.gates := by
  cases t with
  | index x => exact (Session.appends_index x).map _
  | value x => exact (Session.appends_value x).map _
  | gate g => exact (Session.appends_gate g).map _
  | assign x v => exact (Session.appends_assign x v).map _
  | publish x v => exact (Session.appends_publish x v).map _
  | imposeBits u x =>
    exact ((Session.appends_appendAll (u.gates x)).bind fun _ => Appends.pure _).map _
  | fillBits u x v => exact (appends_fillBits u x v).map _
  | imposeRange o a b x =>
    exact ((Session.appends_appendAll (Range.gates o a b x)).bind fun _ => Appends.pure _).map _
  | fillRange o x a b v => exact (Session.appends_perform _).map _
  | imposeMember secret elements => exact (appends_imposeMember secret elements).map _
  | fillMember secret v elements => exact (Session.appends_perform _).map _
  | close => exact absurd rfl ht

theorem after_eq (t : Step) (s : Session) : t.after s = leaves t.run s := by
  unfold after leaves
  cases t.run s <;> rfl

/-- Closing changes nothing unless it succeeds. -/
theorem after_close (s : Session) : close.after s = s ∨ (close.after s).closed = true := by
  have hafter : close.after s = leaves Session.close s :=
    (after_eq close s).trans (Session.leaves_map _ _ s)
  rw [hafter]
  unfold leaves Session.close
  cases s.closed with
  | true => exact Or.inl rfl
  | false =>
    cases s.witness.layOut s.names with
    | error f => exact Or.inl rfl
    | ok values => exact Or.inr rfl

/-- A step that leaves a session open has found it open and has added its gates. -/
theorem grows_after {t : Step} {s : Session} (hopen : (t.after s).closed = false) :
    s.Grows t.gates (t.after s) := by
  by_cases ht : t = .close
  · subst ht
    rcases after_close s with hsame | hclosed
    · rw [hsame]
      exact Session.Grows.refl s
    · rw [hclosed] at hopen
      cases hopen
  · have hgrows := appends_run ht s
    rw [← after_eq] at hgrows
    have hs : s.closed = false := hgrows.closed_eq.symm.trans hopen
    rw [Session.taken_of_open hs] at hgrows
    exact hgrows

end Step

end RankOne
