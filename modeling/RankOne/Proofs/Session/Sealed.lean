import RankOne.Proofs.Session.History

/-!
# Sessions that have been closed

A closed session takes no gate and no value, and it cannot be closed again, so its rows and its
witness stay what they were. Its table of names does not stay: a gate refers to its names, and its
constants are read, before the session is looked at. So a gate that is refused leaves its names
behind, and a constant that is refused is reported in place of the session being closed. The new
names come after the old ones and move no column.
-/

namespace RankOne

theorem Row.map_congr {ι κ : Type} {f f' : ι → κ} {r : Row ι} (h : ∀ i ∈ r.places, f i = f' i) :
    r.map f = r.map f' := by
  have hside : ∀ m, (r.terms m).map (fun t => (f t.1, t.2)) =
      (r.terms m).map fun t => (f' t.1, t.2) := by
    intro m
    apply List.map_congr_left
    intro t ht
    rw [h t.1 (fst_mem_places ht)]
  rw [map, map, Row.mk.injEq]
  exact ⟨hside .A, hside .B, hside .C⟩

theorem Names.insertAll_eq_self_iff (t : Names) (xs : List String) :
    t.insertAll xs = t ↔ ∀ x ∈ xs, x ∈ t := by
  constructor
  · intro h x hx
    rw [← h, mem_insertAll]
    exact Or.inr hx
  · intro h
    induction xs with
    | nil => rfl
    | cons x xs ih =>
      rw [List.forall_mem_cons] at h
      obtain ⟨hx, hxs⟩ := h
      have hinsert : t.insert x = t := dif_pos hx
      show (t.insert x).insertAll xs = t
      rw [hinsert]
      exact ih hxs

namespace Session

/-- The session with these names referred to and nothing else done. -/
def withNames (s : Session) (xs : List String) : Session :=
  { s with names := s.names.insertAll xs }

theorem withNames_withNames (s : Session) (xs ys : List String) :
    (s.withNames xs).withNames ys = s.withNames (xs ++ ys) := by
  unfold withNames
  rw [Names.insertAll_append]

theorem withNames_eq_self_iff (s : Session) (xs : List String) :
    s.withNames xs = s ↔ ∀ x ∈ xs, x ∈ s.names := by
  rw [← Names.insertAll_eq_self_iff]
  constructor
  · exact congrArg Session.names
  · intro h
    rw [withNames, h]

/-- Gates have the same rows in any table that keeps the indices of the names so far. -/
theorem map_row_congr {s : Session} (hs : s.Covered) {t : Names}
    (h : ∀ x ∈ s.names, t.position x = s.names.position x) :
    s.gates.map (fun g => g.row.map t.position) =
      s.gates.map fun g => g.row.map s.names.position := by
  apply List.map_congr_left
  intro g hg
  apply Row.map_congr
  intro x hx
  exact h x (hs.mentioned g hg x hx)

/-- New names come after the old ones, so the rows do not change. -/
theorem rows_withNames {s : Session} (hs : s.Covered) (xs : List String) :
    (s.withNames xs).rows = s.rows :=
  congrArg (· ++ s.closing?.toList)
    (map_row_congr hs fun _ hx => Names.position_insertAll s.names xs hx)

/-! ## Operations on a closed session -/

variable {α β : Type}

/-- On a closed session the operation does nothing but refer to these names. -/
def OnlyMentions (c : Build α) (xs : List String) : Prop :=
  ∀ s : Session, s.closed = true → leaves c s = s.withNames xs

namespace OnlyMentions

variable {c : Build α} {xs : List String}

theorem pure (a : α) : OnlyMentions (Pure.pure a) [] := fun _ _ => rfl

theorem throw (f : Fault) : OnlyMentions (MonadExcept.throw f : Build α) [] := fun _ _ => rfl

theorem ofExcept (e : Except Fault α) : OnlyMentions (MonadExcept.ofExcept e) [] := by
  cases e with
  | ok a => exact pure a
  | error f => exact throw f

theorem map (hc : OnlyMentions c xs) (f : α → β) : OnlyMentions (f <$> c) xs := by
  intro s hs
  rw [leaves_map]
  exact hc s hs

/-- What comes after refers to no more names. -/
theorem bind (hc : OnlyMentions c xs) {d : α → Build β} (hd : ∀ a, OnlyMentions (d a) []) :
    OnlyMentions (c >>= d) xs := by
  intro s hs
  have hleaves := hc s hs
  rw [leaves_bind]
  unfold leaves at hleaves
  cases hrun : c s with
  | error f s' =>
    rw [hrun] at hleaves
    exact hleaves
  | ok a s' =>
    rw [hrun] at hleaves
    obtain rfl : s' = s.withNames xs := hleaves
    exact hd a _ hs

end OnlyMentions

/-- On a closed session the operation fails for this reason, once it has referred to these names. -/
def Refuses (c : Build α) (f : Fault) (xs : List String) : Prop :=
  ∀ s : Session, s.closed = true → c s = .error f (s.withNames xs)

namespace Refuses

variable {c : Build α} {f : Fault} {xs : List String}

theorem onlyMentions (h : Refuses c f xs) : OnlyMentions c xs := by
  intro s hs
  rw [leaves, h s hs]

theorem fails (h : Refuses c f xs) {s : Session} (hs : s.closed = true) : Fails c s f :=
  ⟨_, h s hs⟩

theorem bind (h : Refuses c f xs) (d : α → Build β) : Refuses (c >>= d) f xs := by
  intro s hs
  show EStateM.bind c d s = _
  rw [EStateM.bind, h s hs]

theorem discard (h : Refuses c f xs) : Refuses (discard c) f xs := by
  intro s hs
  show EStateM.map _ c s = _
  rw [EStateM.map, h s hs]

end Refuses

theorem refuses_append (g : Gate Scalar) : Refuses (append g) .closed g.names :=
  fun _ hs => append_of_closed hs g

theorem refuses_assign (x : String) (v : Value) : Refuses (assign x v) .closed [] := by
  intro s hs
  rw [assign, if_pos hs]
  rfl

theorem refuses_close : Refuses close .closed [] := by
  intro s hs
  rw [close, if_pos hs]
  rfl

end Session

/-- The names that a gate refers to before it is refused by a closed session. -/
def Gate.mentioned (g : Gate Value) : List String :=
  match g.read with
  | .ok g => g.names
  | .error r => r.names

/-- Why a closed session refuses a gate: a constant that is refused is reported first. -/
def Gate.refusal (g : Gate Value) : Fault :=
  match g.read with
  | .ok _ => .closed
  | .error r => r.fault

namespace Session

theorem refuses_gate (g : Gate Value) : Refuses (gate g) g.refusal g.mentioned := by
  unfold gate Gate.refusal Gate.mentioned
  cases g.read with
  | ok g => exact refuses_append g
  | error r => exact fun _ _ => rfl

theorem refuses_publish (x : String) (v : Value) :
    Refuses (publish x v) (Gate.constant x v).refusal (Gate.constant x v).mentioned :=
  (refuses_gate _).discard.bind _

/-- The names of the first gate, which is as far as gates that are appended in order get. -/
def firstNames : List (Gate Scalar) → List String
  | [] => []
  | g :: _ => g.names

theorem onlyMentions_appendAll (gs : List (Gate Scalar)) :
    OnlyMentions (appendAll gs) (firstNames gs) := by
  cases gs with
  | nil => exact OnlyMentions.pure ()
  | cons g gs => exact ((refuses_append g).discard.bind fun _ => appendAll gs).onlyMentions

theorem onlyMentions_perform (p : Script) : OnlyMentions p.perform [] := by
  have hwrites : ∀ ws : List (String × Scalar),
      OnlyMentions (ws.forM fun w => assign w.1 (Value.ofScalar w.2)) [] := by
    intro ws
    cases ws with
    | nil => exact OnlyMentions.pure ()
    | cons w ws => exact ((refuses_assign w.1 _).bind _).onlyMentions
  apply (hwrites p.writes).bind
  intro _
  cases p.fault? with
  | none => exact OnlyMentions.pure ()
  | some f => exact OnlyMentions.throw f

end Session

/-! ## Steps on a closed session -/

namespace Step

open Session (OnlyMentions)

/-- The names that a step refers to on a closed session. -/
def mentioned : Step → List String
  | index x => [x]
  | gate g => g.mentioned
  | publish x v => (Gate.constant x v).mentioned
  | t => Session.firstNames t.gates

theorem onlyMentions_fillBits (u : Unpacking) (x : String) (v : Value) :
    OnlyMentions (u.fill x v) [] :=
  (OnlyMentions.ofExcept _).bind fun _ => (OnlyMentions.ofExcept _).bind fun _ =>
    (Session.onlyMentions_perform _).bind fun _ => OnlyMentions.pure _

theorem onlyMentions_imposeMember (secret : String) (elements : List String) :
    OnlyMentions (Membership.impose secret elements) (imposeMember secret elements).mentioned := by
  unfold Membership.impose mentioned gates
  cases elements with
  | nil => exact OnlyMentions.throw .noElements
  | cons x xs => exact (Session.onlyMentions_appendAll _).bind fun _ => OnlyMentions.pure _

/-- No step does anything to a closed session but refer to names. -/
theorem onlyMentions_run (t : Step) : OnlyMentions t.run t.mentioned := by
  cases t with
  | index x => exact OnlyMentions.map (fun _ _ => rfl) _
  | value x =>
    refine OnlyMentions.map ?_ _
    intro s _
    unfold Session.leaves Session.value
    cases s.witness.value x <;> rfl
  | gate g => exact (Session.refuses_gate g).onlyMentions.map _
  | assign x v => exact (Session.refuses_assign x v).onlyMentions.map _
  | publish x v => exact (Session.refuses_publish x v).onlyMentions.map _
  | imposeBits u x =>
    exact ((Session.onlyMentions_appendAll _).bind fun _ => OnlyMentions.pure _).map _
  | fillBits u x v => exact (onlyMentions_fillBits u x v).map _
  | imposeRange o a b x =>
    exact ((Session.onlyMentions_appendAll _).bind fun _ => OnlyMentions.pure _).map _
  | fillRange o x a b v => exact (Session.onlyMentions_perform _).map _
  | imposeMember secret elements => exact (onlyMentions_imposeMember secret elements).map _
  | fillMember secret v elements => exact (Session.onlyMentions_perform _).map _
  | close => exact Session.refuses_close.onlyMentions.map _

theorem after_of_closed (t : Step) {s : Session} (hs : s.closed = true) :
    t.after s = s.withNames t.mentioned := by
  rw [after_eq]
  exact onlyMentions_run t s hs

end Step

namespace Session

/-- What a whole history does to a closed session. -/
theorem foldl_after_of_closed (ts : List Step) {s : Session} (hs : s.closed = true) :
    ts.foldl (fun s t => t.after s) s = s.withNames (ts.flatMap Step.mentioned) := by
  induction ts generalizing s with
  | nil => rfl
  | cons t ts ih =>
    have hrest := ih (s := s.withNames t.mentioned) hs
    rw [List.foldl_cons, Step.after_of_closed t hs, hrest, withNames_withNames, List.flatMap_cons]

/-- What is left of a closed session after steps that refer to these names. -/
structure Retired (s : Session) (xs : List String) (t : Session) : Prop where
  names_eq : t.names = s.names.insertAll xs
  witness_eq : t.witness = s.witness
  gates_eq : t.gates = s.gates
  closing_eq : t.closing? = s.closing?
  rows_eq : t.rows = s.rows
  gate_refused : ∀ g, Fails (gate g) t g.refusal
  publish_refused : ∀ x v, Fails (publish x v) t (Gate.constant x v).refusal
  assign_refused : ∀ x v, Fails (assign x v) t .closed
  close_refused : Fails close t .closed

theorem retired_withNames {s : Session} (hs : s.Covered) (hclosed : s.closed = true)
    (xs : List String) : s.Retired xs (s.withNames xs) where
  names_eq := rfl
  witness_eq := rfl
  gates_eq := rfl
  closing_eq := rfl
  rows_eq := rows_withNames hs xs
  gate_refused := fun g => (refuses_gate g).fails hclosed
  publish_refused := fun x v => (refuses_publish x v).fails hclosed
  assign_refused := fun x v => (refuses_assign x v).fails hclosed
  close_refused := refuses_close.fails hclosed

/-- Closing keeps everything and adds the closing row. -/
theorem session_of_close {s s' : Session} {S : System} (h : close s = .ok S s') :
    s' = { s with closing? := some (closingRow s.names) } ∧ s'.rows = S.rows := by
  obtain ⟨hopen, hnames, -⟩ := eq_of_close h
  have hrun := close_of_open hopen (Witness.layOut_eq hnames)
  rw [h] at hrun
  cases hrun
  exact ⟨rfl, rfl⟩

/-- Once a session has been closed, whatever steps follow, its rows are those of its system and its
witness stays. Gates, values and another closing are refused, although a constant may be refused
before. The table of names is the only thing that changes, and it changes when a step refers to a
new name. -/
theorem retired_of_close (before after : List Step) {S : System} {s : Session}
    (hclose : close (reached before) = .ok S s) :
    s.Retired (after.flatMap Step.mentioned) (after.foldl (fun s t => t.after s) s) ∧
      (after.foldl (fun s t => t.after s) s).rows = S.rows ∧
      (after.foldl (fun s t => t.after s) s = s ↔
        ∀ x ∈ after.flatMap Step.mentioned, x ∈ s.names) := by
  obtain ⟨hs, hrows⟩ := session_of_close hclose
  have hclosed : s.closed = true := by
    rw [hs]
    rfl
  have hcovered : s.Covered := by
    obtain ⟨hunit, hmentioned⟩ := (regular_reached (eq_of_close hclose).1).toCovered
    rw [hs]
    exact ⟨hunit, hmentioned⟩
  have hretired := retired_withNames hcovered hclosed (after.flatMap Step.mentioned)
  rw [foldl_after_of_closed after hclosed]
  exact ⟨hretired, hretired.rows_eq.trans hrows, withNames_eq_self_iff s _⟩

/-- A product on a closed session leaves three names behind, and a text is refused as a constant. -/
theorem retired_of_close_product :
    ∃ S s, close (reached []) = .ok S s ∧
      [Step.gate (.multiply "p" "q" "r")].foldl (fun s t => t.after s) s ≠ s ∧
      Fails (gate (.scale "one" (.text "2") "one")) s (.notAScalar "str") := by
  obtain ⟨S, s, hclose⟩ : ∃ S s, close (reached []) = .ok S s := ⟨_, _, rfl⟩
  obtain ⟨-, -, hsame⟩ := retired_of_close [] [.gate (.multiply "p" "q" "r")] hclose
  obtain ⟨hretired, -, -⟩ := retired_of_close [] [] hclose
  refine ⟨S, s, hclose, ?_, hretired.gate_refused _⟩
  rw [ne_eq, hsame]
  intro hall
  have hmem : "p" ∈ s.names := hall "p" (by decide)
  rw [(session_of_close hclose).1] at hmem
  exact absurd hmem (by decide)

end Session

end RankOne
