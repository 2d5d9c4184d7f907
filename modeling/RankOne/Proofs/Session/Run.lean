import RankOne.Session.Basic
import RankOne.Proofs.Session.Closing

/-!
# What a run adds to a session

An operation on an open session that succeeds adds gates at the end of the gates and values at the
end of the witness, and refers to the names of its gates in order. What a sequence of operations
adds is what they add one after the other. A session that has only been added to is determined by
the two lists.
-/

namespace RankOne

theorem Value.scalar_ofScalar (a : Scalar) : (Value.ofScalar a).scalar = .ok a :=
  congrArg Except.ok (Scalar.ofNat_val a)

namespace Session

/-- The second session is the first one with some gates and some witness values added. -/
structure Extends (s : Session) (gs : List (Gate Scalar)) (ws : List (String × Scalar))
    (s' : Session) : Prop where
  names_eq : s'.names = s.names.insertAll (gs.flatMap Gate.names)
  gates_eq : s'.gates = s.gates ++ gs
  witness_eq : s'.witness.toList = s.witness.toList ++ ws
  closing_eq : s'.closing? = s.closing?

namespace Extends

variable {s s' s'' : Session} {gs gs' : List (Gate Scalar)} {ws ws' : List (String × Scalar)}

theorem refl (s : Session) : s.Extends [] [] s :=
  ⟨rfl, (List.append_nil _).symm, (List.append_nil _).symm, rfl⟩

theorem trans (h : s.Extends gs ws s') (h' : s'.Extends gs' ws' s'') :
    s.Extends (gs ++ gs') (ws ++ ws') s'' where
  names_eq := by rw [h'.names_eq, h.names_eq, List.flatMap_append, Names.insertAll_append]
  gates_eq := by rw [h'.gates_eq, h.gates_eq, List.append_assoc]
  witness_eq := by rw [h'.witness_eq, h.witness_eq, List.append_assoc]
  closing_eq := by rw [h'.closing_eq, h.closing_eq]

theorem closed_eq (h : s.Extends gs ws s') : s'.closed = s.closed := by
  unfold closed
  rw [h.closing_eq]

theorem witness_names (h : s.Extends gs ws s') :
    s'.witness.names = s.witness.names ++ ws.map Prod.fst := by
  unfold Witness.names
  rw [h.witness_eq, List.map_append]

/-- A session is determined by what has been added to get to it. -/
theorem unique {t t' : Session} (h : s.Extends gs ws t) (h' : s.Extends gs ws t') : t = t' := by
  have hnames := h.names_eq.trans h'.names_eq.symm
  have hgates := h.gates_eq.trans h'.gates_eq.symm
  have hwitness := h.witness_eq.trans h'.witness_eq.symm
  have hclosing := h.closing_eq.trans h'.closing_eq.symm
  obtain ⟨names, ⟨values, _⟩, gates, closing⟩ := t
  obtain ⟨names', ⟨values', _⟩, gates', closing'⟩ := t'
  obtain rfl : names = names' := hnames
  obtain rfl : gates = gates' := hgates
  obtain rfl : values = values' := hwitness
  obtain rfl : closing = closing' := hclosing
  rfl

end Extends

/-- The operation succeeds on the session and adds exactly these gates and values. -/
def Adds {α : Type} (c : Build α) (s : Session) (gs : List (Gate Scalar))
    (ws : List (String × Scalar)) : Prop :=
  ∃ a s', c s = .ok a s' ∧ s.Extends gs ws s'

section

variable {s : Session} {gs gs' : List (Gate Scalar)} {ws ws' : List (String × Scalar)}

theorem Adds.pure {α : Type} (a : α) (s : Session) : Adds (Pure.pure a) s [] [] :=
  ⟨a, s, rfl, Extends.refl s⟩

theorem Adds.bind {α β : Type} {c : Build α} {d : α → Build β} (hc : Adds c s gs ws)
    (hd : ∀ a s', s.Extends gs ws s' → Adds (d a) s' gs' ws') :
    Adds (c >>= d) s (gs ++ gs') (ws ++ ws') := by
  obtain ⟨a, s', hrun, hext⟩ := hc
  obtain ⟨b, s'', hrun', hext'⟩ := hd a s' hext
  refine ⟨b, s'', ?_, hext.trans hext'⟩
  show EStateM.bind c d s = _
  rw [EStateM.bind, hrun]
  exact hrun'

theorem adds_ofExcept {α : Type} {e : Except Fault α} {a : α} (h : e = .ok a) (s : Session) :
    Adds (MonadExcept.ofExcept e : Build α) s [] [] := by
  rw [h]
  exact Adds.pure a s

theorem Adds.discard {α : Type} {c : Build α} (hc : Adds c s gs ws) :
    Adds (discard c) s gs ws := by
  obtain ⟨a, s', hrun, hext⟩ := hc
  refine ⟨(), s', ?_, hext⟩
  show EStateM.map _ c s = _
  rw [EStateM.map, hrun]

/-! ## Gates -/

theorem adds_append (hopen : s.closed = false) (g : Gate Scalar) : Adds (append g) s [g] [] := by
  refine ⟨_, _, append_of_open hopen g, ?_⟩
  constructor
  · exact congrArg s.names.insertAll (List.flatMap_singleton _ _).symm
  · rfl
  · exact (List.append_nil _).symm
  · rfl

theorem adds_appendAll (gs : List (Gate Scalar)) (hopen : s.closed = false) :
    Adds (appendAll gs) s gs [] := by
  induction gs generalizing s with
  | nil => exact Adds.pure () s
  | cons g gs ih =>
    have hrest : ∀ (_ : Unit) s', s.Extends [g] [] s' → Adds (appendAll gs) s' gs [] :=
      fun _ _ hext => ih (hext.closed_eq.trans hopen)
    have hall := Adds.bind (Adds.discard (adds_append hopen g)) hrest
    exact hall

/-! ## Values -/

theorem adds_assign (hopen : s.closed = false) {x : String} {v : Value} {a : Scalar}
    (hv : v.scalar = .ok a) (hx : x ∉ s.witness.names) : Adds (assign x v) s [] [(x, a)] := by
  refine ⟨(), { s with witness := s.witness.insert x a hx }, ?_, ?_⟩
  · simp only [assign, hopen, Bool.false_eq_true, if_false, Witness.assign, dif_neg hx, hv]
    rfl
  · exact ⟨rfl, (List.append_nil _).symm, rfl, rfl⟩

theorem adds_publish (hopen : s.closed = false) {x : String} {v : Value} {a : Scalar}
    (hv : v.scalar = .ok a) (hx : x ∉ s.witness.names) :
    Adds (publish x v) s [.constant x a] [(x, a)] := by
  have hgate : gate (.constant x v) = append (.constant x a) := by
    simp only [gate, Gate.read, hv]
  have hassign : ∀ (_ : Unit) s', s.Extends [.constant x a] [] s' →
      Adds (assign x v) s' [] [(x, a)] := by
    intro _ s' hext
    apply adds_assign (hext.closed_eq.trans hopen) hv
    rw [hext.witness_names, List.map_nil, List.append_nil]
    exact hx
  have hboth := Adds.bind (Adds.discard (adds_append hopen (.constant x a))) hassign
  unfold publish
  rw [hgate]
  exact hboth

theorem fresh_head {w : Witness} {x : String} {xs : List String}
    (h : (w.names ++ x :: xs).Nodup) : x ∉ w.names := by
  intro hx
  exact (List.nodup_append.mp h).2.2 x hx x List.mem_cons_self rfl

theorem Extends.fresh_tail {s' : Session} {gs : List (Gate Scalar)} {x : String} {a : Scalar}
    {xs : List String} (hext : s.Extends gs [(x, a)] s') (h : (s.witness.names ++ x :: xs).Nodup) :
    (s'.witness.names ++ xs).Nodup := by
  rw [hext.witness_names, List.append_assoc]
  exact h

/-- Publishing several values, none of which is refused, under new names. -/
theorem adds_publishAll {xs : List String} {vs : List Value} {as : List Scalar}
    (hopen : s.closed = false) (hlen : xs.length = vs.length)
    (hvs : List.Forall₂ (fun v a => v.scalar = .ok a) vs as)
    (hfresh : (s.witness.names ++ xs).Nodup) :
    Adds (publishAll (xs.zip vs)) s ((xs.zip as).map fun p => .constant p.1 p.2) (xs.zip as) := by
  induction hvs generalizing s xs with
  | nil =>
    rw [List.zip_nil_right, List.zip_nil_right]
    exact Adds.pure () s
  | @cons v a vs as hv hvs ih =>
    cases xs with
    | nil => cases hlen
    | cons x xs =>
      have hrest : ∀ (_ : Unit) s', s.Extends [.constant x a] [(x, a)] s' →
          Adds (publishAll (xs.zip vs)) s' ((xs.zip as).map fun p => .constant p.1 p.2)
            (xs.zip as) := fun _ _ hext =>
        ih (hext.closed_eq.trans hopen) (Nat.succ.inj hlen) (hext.fresh_tail hfresh)
      have hall := Adds.bind (adds_publish hopen hv (fresh_head hfresh)) hrest
      exact hall

theorem adds_assignAll (ws : List (String × Scalar)) (hopen : s.closed = false)
    (hfresh : (s.witness.names ++ ws.map Prod.fst).Nodup) :
    Adds (ws.forM fun w => assign w.1 (Value.ofScalar w.2)) s [] ws := by
  induction ws generalizing s with
  | nil => exact Adds.pure () s
  | cons w ws ih =>
    have hrest : ∀ (_ : Unit) s', s.Extends [] [w] s' →
        Adds (ws.forM fun w => assign w.1 (Value.ofScalar w.2)) s' [] ws :=
      fun _ _ hext => ih (hext.closed_eq.trans hopen) (hext.fresh_tail hfresh)
    have hall := Adds.bind
      (adds_assign hopen (Value.scalar_ofScalar w.2) (fresh_head hfresh)) hrest
    exact hall

theorem adds_perform (ws : List (String × Scalar)) (hopen : s.closed = false)
    (hfresh : (s.witness.names ++ ws.map Prod.fst).Nodup) :
    Adds (Script.done ws).perform s [] ws := by
  have hdone := Adds.bind (adds_assignAll ws hopen hfresh) fun _ s' _ => Adds.pure () s'
  rw [List.append_nil, List.append_nil] at hdone
  exact hdone

/-! ## Operations that fail -/

/-- The operation fails on the session, for this reason. -/
def Fails {α : Type} (c : Build α) (s : Session) (f : Fault) : Prop := ∃ s', c s = .error f s'

theorem Fails.bind {α β : Type} {c : Build α} {f : Fault} (hc : Fails c s f) (d : α → Build β) :
    Fails (c >>= d) s f := by
  obtain ⟨s', hrun⟩ := hc
  refine ⟨s', ?_⟩
  show EStateM.bind c d s = _
  rw [EStateM.bind, hrun]

theorem Fails.after {α β : Type} {c : Build α} {d : α → Build β} {f : Fault}
    (hc : Adds c s gs ws) (hd : ∀ a s', s.Extends gs ws s' → Fails (d a) s' f) :
    Fails (c >>= d) s f := by
  obtain ⟨a, s', hrun, hext⟩ := hc
  obtain ⟨s'', hrun'⟩ := hd a s' hext
  refine ⟨s'', ?_⟩
  show EStateM.bind c d s = _
  rw [EStateM.bind, hrun]
  exact hrun'

/-- A constant that is refused is not published. -/
theorem fails_publish {x : String} {v : Value} {f : Fault} (hv : v.scalar = .error f)
    (s : Session) : Fails (publish x v) s f := by
  have hgate : Fails (gate (.constant x v)) s f := by
    refine ⟨{ s with names := s.names.insertAll [x] }, ?_⟩
    simp only [gate, Gate.read, hv]
    rfl
  obtain ⟨s', hrun⟩ := hgate
  refine Fails.bind ⟨s', ?_⟩ _
  show EStateM.map _ (gate (.constant x v)) s = _
  rw [EStateM.map, hrun]

/-- Publishing several values under new names fails at the first one that is refused. -/
theorem fails_publishAll {xs : List String} {vs vs' : List Value} {v : Value} {as : List Scalar}
    {f : Fault} (hopen : s.closed = false) (hlen : xs.length = (vs ++ v :: vs').length)
    (hvs : List.Forall₂ (fun v a => v.scalar = .ok a) vs as) (hv : v.scalar = .error f)
    (hfresh : (s.witness.names ++ xs).Nodup) :
    Fails (publishAll (xs.zip (vs ++ v :: vs'))) s f := by
  induction hvs generalizing s xs with
  | nil =>
    cases xs with
    | nil => cases hlen
    | cons x xs => exact Fails.bind (fails_publish hv s) _
  | cons hw _ ih =>
    cases xs with
    | nil => cases hlen
    | cons x xs =>
      exact Fails.after (adds_publish hopen hw (fresh_head hfresh)) fun _ _ hext =>
        ih (hext.closed_eq.trans hopen) (Nat.succ.inj hlen) (hext.fresh_tail hfresh)

theorem fails_perform (ws : List (String × Scalar)) (f : Fault) (hopen : s.closed = false)
    (hfresh : (s.witness.names ++ ws.map Prod.fst).Nodup) :
    Fails ((Script.failed f).after ws).perform s f := by
  have hwrites : ((Script.failed f).after ws).writes = ws := List.append_nil _
  unfold Script.perform
  rw [hwrites]
  exact Fails.after (adds_assignAll ws hopen hfresh) fun _ s' _ => ⟨s', rfl⟩

end

end Session

end RankOne
