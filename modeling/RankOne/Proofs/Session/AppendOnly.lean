import RankOne.Proofs.Session.Sealed

/-!
# Sessions grow by whole rows

Whatever a step does and however it ends, the names, the values, the rows and with them the entries
of the matrices stay where they are, and new ones come after them. An operation that fails adds no
row, with one exception: a value can be refused once the row that pins its variable is there, and
then it is the whole row that stays. The names that an operation refers to stay in any case.
-/

namespace RankOne

theorem Names.prefix_insertAll (t : Names) (xs : List String) :
    t.toList <+: (t.insertAll xs).toList := by
  induction xs generalizing t with
  | nil => exact List.prefix_refl _
  | cons x xs ih =>
    have hinsert : t.toList <+: (t.insert x).toList := by
      rw [toList_insert]
      split
      · exact List.prefix_refl _
      · exact List.prefix_append _ _
    exact hinsert.trans (ih (t.insert x))

theorem Witness.get?_of_prefix {w w' : Witness} (h : w.toList <+: w'.toList) {x : String}
    {a : Scalar} (hx : w.get? x = some a) : w'.get? x = some a := by
  obtain ⟨rest, hrest⟩ := h
  unfold get? at hx ⊢
  rw [← hrest, List.lookup_append, hx]
  rfl

/-- Rows that come later have their entries after those of the rows before. -/
theorem entries_prefix (m : Matrix) {rows rows' : List (Row ℕ)} (h : rows <+: rows') :
    entries m rows <+: entries m rows' := by
  obtain ⟨later, rfl⟩ := h
  induction later using List.reverseRecOn with
  | nil => rw [List.append_nil]
  | append_singleton later r ih =>
    rw [← List.append_assoc, entries_concat]
    exact ih.trans (List.prefix_append _ _)

namespace Session

/-- What the first session holds, the second one holds in the same places. -/
structure Preserves (s s' : Session) : Prop where
  names_prefix : s.names.toList <+: s'.names.toList
  position_eq : ∀ x ∈ s.names, s'.names.position x = s.names.position x
  value_eq : ∀ x a, s.witness.get? x = some a → s'.witness.get? x = some a
  rows_prefix : s.rows <+: s'.rows
  entries_prefix : ∀ m, entries m s.rows <+: entries m s'.rows
  closed_of_closed : s.closed = true → s'.closed = true

variable {s s' s'' : Session}

theorem Preserves.refl (s : Session) : s.Preserves s :=
  ⟨List.prefix_refl _, fun _ _ => rfl, fun _ _ hx => hx, List.prefix_refl _,
    fun _ => List.prefix_refl _, id⟩

theorem Preserves.trans (h : s.Preserves s') (h' : s'.Preserves s'') : s.Preserves s'' where
  names_prefix := h.names_prefix.trans h'.names_prefix
  position_eq := by
    intro x hx
    have hx' : x ∈ s'.names := h.names_prefix.subset hx
    rw [h'.position_eq x hx', h.position_eq x hx]
  value_eq := fun x a hx => h'.value_eq x a (h.value_eq x a hx)
  rows_prefix := h.rows_prefix.trans h'.rows_prefix
  entries_prefix := fun m => (h.entries_prefix m).trans (h'.entries_prefix m)
  closed_of_closed := fun hs => h'.closed_of_closed (h.closed_of_closed hs)

/-! ## Steps -/

theorem closing_eq_none (hopen : s.closed = false) : s.closing? = none := by
  unfold closed at hopen
  cases hclosing : s.closing? with
  | none => rfl
  | some r =>
    rw [hclosing] at hopen
    cases hopen

/-- Gates that are added to an open session have their rows after those of the gates before. -/
theorem Grows.rows_eq {gs : List (Gate Scalar)} (h : s.Grows gs s') (hs : s.Covered)
    (hopen : s.closed = false) :
    s'.rows = s.rows ++ gs.map fun g => g.row.map s'.names.position := by
  have hold := map_row_congr hs fun x hx => h.position_eq hx
  rw [rows, rows, h.gates_eq, h.closing_eq, closing_eq_none hopen, List.map_append, hold]
  simp

theorem Grows.preserves {gs : List (Gate Scalar)} (h : s.Grows (s.taken gs) s') (hs : s.Covered) :
    s.Preserves s' := by
  have hrows : s.rows <+: s'.rows := by
    cases hopen : s.closed with
    | false => exact ⟨_, (h.rows_eq hs hopen).symm⟩
    | true =>
      -- nothing but names can have been added, and they move no column
      rw [taken_of_closed hopen] at h
      obtain ⟨xs, hxs⟩ := h.names_eq
      have hsame : s'.rows = (s.withNames xs).rows := by
        rw [rows, rows, h.gates_eq, h.closing_eq, hxs, List.append_nil]
        rfl
      rw [hsame, rows_withNames hs]
  constructor
  case names_prefix =>
    obtain ⟨xs, hxs⟩ := h.names_eq
    rw [hxs]
    exact s.names.prefix_insertAll xs
  case position_eq => exact fun x hx => h.position_eq hx
  case value_eq => exact fun x a hx => Witness.get?_of_prefix h.values_prefix hx
  case rows_prefix => exact hrows
  case entries_prefix => exact fun m => RankOne.entries_prefix m hrows
  case closed_of_closed => exact fun hclosed => h.closed_eq.trans hclosed

/-- Closing keeps everything there is and adds its row. -/
theorem preserves_of_close {S : System} (h : close s = .ok S s') : s.Preserves s' := by
  obtain ⟨hopen, -, -⟩ := eq_of_close h
  obtain ⟨rfl, -⟩ := session_of_close h
  have hclosing := closing_eq_none hopen
  have hrows : s.rows <+: rows { s with closing? := some (closingRow s.names) } := by
    refine ⟨[closingRow s.names], ?_⟩
    rw [rows, rows, hclosing]
    simp
  exact ⟨List.prefix_refl _, fun _ _ => rfl, fun _ _ hx => hx, hrows,
    fun m => RankOne.entries_prefix m hrows, fun _ => rfl⟩

/-- A session that is not closed after all has not been touched. -/
theorem eq_of_close_error {f : Fault} (h : close s = .error f s') : s' = s := by
  unfold close at h
  split at h
  · cases h
    rfl
  · split at h
    · cases h
      rfl
    · cases h

end Session

namespace Step

open Session

variable {s : Session}

/-- A step adds its gates, if the session is open, or it closes the session. -/
theorem after_cases (t : Step) (s : Session) :
    s.Grows (s.taken t.gates) (t.after s) ∨ ∃ S, Session.close s = .ok S (t.after s) := by
  by_cases ht : t = .close
  · subst ht
    have hafter : close.after s = leaves Session.close s :=
      (after_eq close s).trans (leaves_map _ _ s)
    have hgates : close.gates = [] := rfl
    rw [hafter, leaves, hgates, taken_nil]
    cases hclose : Session.close s with
    | ok S s' => exact Or.inr ⟨S, rfl⟩
    | error f s' =>
      obtain rfl := eq_of_close_error hclose
      exact Or.inl (Grows.refl _)
  · have hgrows := appends_run ht s
    rw [← after_eq] at hgrows
    exact Or.inl hgrows

/-- A step keeps what the session holds, and what every session keeps that started as a fresh one,
whether it succeeds or fails. -/
theorem preserves_after (hs : s.Regular) (t : Step) :
    s.Preserves (t.after s) ∧ (t.after s).Regular := by
  rcases after_cases t s with hgrows | ⟨S, hclose⟩
  · exact ⟨hgrows.preserves hs.toCovered, hgrows.regular hs⟩
  · refine ⟨preserves_of_close hclose, ?_⟩
    rw [(session_of_close hclose).1]
    exact ⟨⟨hs.unit_mem, hs.mentioned⟩, hs.unit_first, hs.unit_value⟩

/-- No step takes a value away. -/
theorem values_prefix_after (t : Step) (s : Session) :
    s.witness.toList <+: (t.after s).witness.toList := by
  rcases after_cases t s with hgrows | ⟨S, hclose⟩
  · exact hgrows.values_prefix
  · rw [(session_of_close hclose).1]

end Step

namespace Session

variable {s s' : Session}

theorem preserves_foldl (hs : s.Regular) (ts : List Step) :
    s.Preserves (ts.foldl (fun s t => t.after s) s) ∧
      (ts.foldl (fun s t => t.after s) s).Regular := by
  induction ts generalizing s with
  | nil => exact ⟨Preserves.refl _, hs⟩
  | cons t ts ih =>
    obtain ⟨hstep, hregular⟩ := Step.preserves_after hs t
    obtain ⟨hrest, hlast⟩ := ih hregular
    exact ⟨hstep.trans hrest, hlast⟩

/-! ## Operations -/

/-- Neither the rows nor the witness have changed, nor has the session been closed. -/
structure KeepsRows (s s' : Session) : Prop where
  rows_eq : s'.rows = s.rows
  entries_eq : ∀ m, entries m s'.rows = entries m s.rows
  witness_eq : s'.witness = s.witness
  closed_eq : s'.closed = s.closed

theorem keepsRows_withNames (hs : s.Covered) (xs : List String) : s.KeepsRows (s.withNames xs) where
  rows_eq := rows_withNames hs xs
  entries_eq := fun m => by rw [rows_withNames hs xs]
  witness_eq := rfl
  closed_eq := rfl

/-- The second session is the first one with one more row. The new entries are those of that row and
bear its number. -/
structure AddsRow (s : Session) (r : Row ℕ) (s' : Session) : Prop where
  rows_eq : s'.rows = s.rows ++ [r]
  entries_eq : ∀ m, entries m s'.rows =
    entries m s.rows ++ (r.terms m).map fun t => ⟨s.rows.length, t.1, t.2.encode⟩
  witness_eq : s'.witness = s.witness
  closed_eq : s'.closed = s.closed

theorem gate_cases (g : Gate Value) (s : Session) :
    (∃ g', g.read = .ok g' ∧ s.closed = false ∧ gate g s = .ok s.gates.length
        { s with names := s.names.insertAll g'.names, gates := s.gates ++ [g'] }) ∨
      ∃ f, gate g s = .error f (s.withNames g.mentioned) := by
  unfold gate Gate.mentioned
  cases g.read with
  | error r => exact Or.inr ⟨r.fault, rfl⟩
  | ok g' =>
    cases hopen : s.closed with
    | true => exact Or.inr ⟨.closed, append_of_closed hopen g'⟩
    | false => exact Or.inl ⟨g', rfl, rfl, append_of_open hopen g'⟩

/-- A gate that is taken has been read, and its number is that of the row it adds. -/
theorem addsRow_of_gate (hs : s.Covered) {g : Gate Value} {k : ℕ} (h : gate g s = .ok k s') :
    k = s.rows.length ∧
      ∃ g', g.read = .ok g' ∧ s.AddsRow (g'.row.map s'.names.position) s' := by
  rcases gate_cases g s with ⟨g', hread, hopen, hrun⟩ | ⟨f, hrun⟩
  · rw [h] at hrun
    cases hrun
    have hrows := (Grows.of_append s g').rows_eq hs hopen
    rw [List.map_singleton] at hrows
    have hlength : s.gates.length = s.rows.length := by
      rw [rows, closing_eq_none hopen]
      simp
    refine ⟨hlength, g', hread, hrows, ?_, rfl, rfl⟩
    intro m
    rw [hrows, entries_concat]
  · rw [h] at hrun
    cases hrun

theorem keepsRows_of_gate (hs : s.Covered) {g : Gate Value} {f : Fault}
    (h : gate g s = .error f s') : s.KeepsRows s' := by
  rcases gate_cases g s with ⟨g', -, -, hrun⟩ | ⟨f', hrun⟩
  · rw [h] at hrun
    cases hrun
  · rw [h] at hrun
    cases hrun
    exact keepsRows_withNames hs g.mentioned

theorem eq_of_assign_error {x : String} {v : Value} {f : Fault} (h : assign x v s = .error f s') :
    s' = s := by
  unfold assign at h
  split at h
  · cases h
    rfl
  · split at h
    · cases h
    · cases h
      rfl

theorem publish_eq (x : String) (v : Value) (s : Session) :
    publish x v s =
      match gate (.constant x v) s with
      | .ok _ t => assign x v t
      | .error f t => .error f t := by
  show EStateM.bind (EStateM.map _ (gate (.constant x v))) _ s = _
  unfold EStateM.bind EStateM.map
  cases gate (.constant x v) s <;> rfl

/-- A value that is not published leaves the rows alone, or a row that pins the variable to it. -/
theorem keepsRows_or_addsRow_of_publish (hs : s.Covered) {x : String} {v : Value} {f : Fault}
    (h : publish x v s = .error f s') :
    s.KeepsRows s' ∨ ∃ k, v.scalar = .ok k ∧
      s.AddsRow ((Gate.constant x k).row.map s'.names.position) s' := by
  rw [publish_eq] at h
  cases hgate : gate (.constant x v) s with
  | error f' t =>
    rw [hgate] at h
    cases h
    exact Or.inl (keepsRows_of_gate hs hgate)
  | ok i t =>
    -- the row is there already, and what has failed is the assignment after it
    rw [hgate] at h
    obtain rfl := eq_of_assign_error h
    obtain ⟨-, g, hread, hadds⟩ := addsRow_of_gate hs hgate
    cases hv : v.scalar with
    | error f' =>
      simp only [Gate.read, hv] at hread
      cases hread
    | ok k =>
      simp only [Gate.read, hv] at hread
      obtain rfl := Except.ok.inj hread
      exact Or.inr ⟨k, rfl, hadds⟩

/-- What the operations do to a session: a reference gives a name its index, a gate adds its row or
nothing, and whatever fails adds no value. -/
structure WholeRows (s : Session) : Prop where
  index_known : ∀ x ∈ s.names, index x s = .ok (s.names.position x) s
  index_new : ∀ x, x ∉ s.names → ∃ s', index x s = .ok s.names.size s' ∧
    s'.names.toList = s.names.toList ++ [x] ∧ s.KeepsRows s'
  gate_taken : ∀ g k s', gate g s = .ok k s' →
    k = s.rows.length ∧ ∃ g', g.read = .ok g' ∧ s.AddsRow (g'.row.map s'.names.position) s'
  gate_refused : ∀ g f s', gate g s = .error f s' → s.KeepsRows s'
  assign_refused : ∀ x v f s', assign x v s = .error f s' → s' = s
  close_refused : ∀ f s', close s = .error f s' → s' = s
  publish_refused : ∀ x v f s', publish x v s = .error f s' →
    s.KeepsRows s' ∨ ∃ k, v.scalar = .ok k ∧
      s.AddsRow ((Gate.constant x k).row.map s'.names.position) s'

theorem wholeRows (hs : s.Covered) : s.WholeRows where
  index_known := by
    intro x hx
    have hinsert : s.names.insert x = s.names := dif_pos hx
    rw [index, hinsert]
  index_new := by
    intro x hx
    have hlist : (s.names.insert x).toList = s.names.toList ++ [x] := by
      rw [Names.toList_insert, if_neg hx]
    have hposition : s.names.position x = s.names.size := List.idxOf_eq_length hx
    refine ⟨s.withNames [x], ?_, hlist, keepsRows_withNames hs [x]⟩
    rw [index, hposition]
    rfl
  gate_taken := fun _ _ _ h => addsRow_of_gate hs h
  gate_refused := fun _ _ _ h => keepsRows_of_gate hs h
  assign_refused := fun _ _ _ _ h => eq_of_assign_error h
  close_refused := fun _ _ h => eq_of_close_error h
  publish_refused := fun _ _ _ _ h => keepsRows_or_addsRow_of_publish hs h

/-- After any history, failed and refused steps included, and in whatever follows it: the names are
different and stay in their places with `unit` as the first of them, no value changes, and the rows
and the entries so far are the first ones of those to come. What is added is added in whole rows. -/
theorem append_only (ts : List Step) :
    (reached ts).names.toList.Nodup ∧ (reached ts).names.toList[0]? = some unit ∧
      (reached ts).witness.get? unit = some 1 ∧ (reached ts).WholeRows ∧
      ∀ later : List Step, (reached ts).Preserves (reached (ts ++ later)) := by
  obtain ⟨hfresh, hregular⟩ := preserves_foldl regular_fresh ts
  change fresh.Preserves (reached ts) at hfresh
  change (reached ts).Regular at hregular
  have hunit : (reached ts).witness.get? unit = some 1 := hfresh.value_eq unit 1 rfl
  refine ⟨(reached ts).names.nodup, ?_, hunit, wholeRows hregular.toCovered, ?_⟩
  · obtain ⟨rest, hrest⟩ := hfresh.names_prefix
    rw [← hrest]
    rfl
  · intro later
    rw [reached_append]
    exact (preserves_foldl hregular later).1

/-- A name that is published a second time is pinned a second time, by a whole row, and keeps the
value that it was given first. -/
theorem append_only_published_twice :
    let s := reached [.publish "n" (.integer 9)]
    ∃ f s', publish "n" (.integer 4) s = .error f s' ∧
      s.AddsRow ((Gate.constant "n" (.ofInt 4)).row.map s'.names.position) s' := by
  intro s
  obtain ⟨-, -, -, hwhole, -⟩ := append_only [.publish "n" (.integer 9)]
  obtain ⟨f, s', hrun, hrows⟩ : ∃ f s', publish "n" (.integer 4) s = .error f s' ∧
      s'.rows ≠ s.rows := ⟨_, _, rfl, by decide⟩
  refine ⟨f, s', hrun, ?_⟩
  rcases hwhole.publish_refused _ _ _ _ hrun with hkeeps | ⟨k, hk, hadds⟩
  · exact absurd hkeeps.rows_eq hrows
  · obtain rfl := Except.ok.inj hk
    exact hadds

end Session

end RankOne
