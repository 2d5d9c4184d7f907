import RankOne.Proofs.Session.AppendOnly
import RankOne.Proofs.Session.Interleaving

/-!
# Attempts to close a session

An open session can be closed when it has values for exactly the names that it has referred to.
Otherwise the attempt fails and reports both differences, and it changes nothing. So attempts that
fail can be left out of a history: no later step can tell, and neither can a later closing. A
closing that succeeds lays the values out in the order of the names and adds one row to those of the
session.
-/

namespace RankOne

namespace Witness

variable {w : Witness} {x : String}

theorem value_of_mem (hx : x ∈ w.names) : w.value x = .ok (listed w.toList x) := by
  cases hget : w.get? x with
  | none =>
    obtain ⟨p, hp, rfl⟩ := List.mem_map.mp hx
    have hne : (p.1 != p.1) = true := List.lookup_eq_none_iff.mp hget p hp
    rw [bne_self_eq_false] at hne
    cases hne
  | some a =>
    have hlisted : listed w.toList x = a := congrArg (Option.getD · 0) hget
    rw [value, hget, hlisted]

end Witness

namespace Session

/-! ## One attempt -/

/-- The system lays out the names and the values of the session, in one order, and has one row more
than the session had. The session that is left gives the same indices and values. -/
structure LaysOut (S : System) (s s' : Session) : Prop where
  names_eq : S.names = s.names.toList
  witness_length : S.witness.length = S.variableCount
  rowCount_eq : S.rowCount = s.rows.length + 1
  entry : ∀ x ∈ S.names, ∃ i d a, index x s' = .ok i s' ∧ S.names[i]? = some x ∧
    S.witness[i]? = some d ∧ Scalar.decode d = .ok a ∧ value x s = .ok a s ∧ value x s' = .ok a s'

/-- What an attempt to close an open session leads to. -/
structure ClosesExactly (s : Session) : Prop where
  incomplete_iff :
    (∃ valueCount nameCount missing unknown s',
      close s = .error (.incomplete valueCount nameCount missing unknown) s') ↔
        ¬∀ x, x ∈ s.names ↔ x ∈ s.witness.names
  refused : ∀ f s', close s = .error f s' → s' = s ∧
    f = .incomplete s.witness.size s.names.size (s.names.toList.filter (· ∉ s.witness.names))
      (s.witness.names.filter (· ∉ s.names))
  closed : ∀ S s', close s = .ok S s' → LaysOut S s s'

variable {s : Session}

theorem laysOut_of_close {S : System} {s' : Session} (h : close s = .ok S s') :
    LaysOut S s s' := by
  obtain ⟨hopen, hnames, hS⟩ := eq_of_close h
  obtain ⟨hs', hrows⟩ := session_of_close h
  have hlength := Names.length_arrange s.names (listed s.witness.toList)
  have hsnames : s'.names = s.names := by rw [hs']
  have hswitness : s'.witness = s.witness := by rw [hs']
  have hvalue : ∀ x ∈ s.names, s.witness.value x = .ok (listed s.witness.toList x) :=
    fun x hx => Witness.value_of_mem ((hnames x).mp hx)
  constructor
  case names_eq => rw [hS]; rfl
  case witness_length =>
    rw [hS]
    exact (List.length_map _).trans hlength
  case rowCount_eq =>
    rw [System.rowCount, ← hrows, hs', rows, rows, closing_eq_none hopen]
    simp
  case entry =>
    intro x hx
    rw [hS] at hx
    change x ∈ s.names at hx
    have hentry := getElem?_encode hlength hx
    rw [Names.valuation_arrange _ _ hx] at hentry
    refine ⟨s.names.position x, _, listed s.witness.toList x, ?_, ?_, ?_, Scalar.decode_encode _,
      ?_, ?_⟩
    · have hinsert : s'.names.insert x = s'.names := dif_pos (hsnames ▸ hx)
      rw [← hsnames, index, hinsert]
    · rw [hS]
      exact List.getElem?_idxOf hx
    · rw [hS]
      exact hentry
    · rw [value, hvalue x hx]
    · rw [value, hswitness, hvalue x hx]

/-- The two ways in which an attempt to close an open session can end. -/
theorem close_cases (hopen : s.closed = false) :
    (∀ x, x ∈ s.names ↔ x ∈ s.witness.names) ∧ (∃ S s', close s = .ok S s') ∨
      (¬∀ x, x ∈ s.names ↔ x ∈ s.witness.names) ∧
        close s = .error (.incomplete s.witness.size s.names.size
          (s.names.toList.filter (· ∉ s.witness.names))
          (s.witness.names.filter (· ∉ s.names))) s := by
  by_cases hcovered : ∀ x, x ∈ s.names ↔ x ∈ s.witness.names
  · exact Or.inl ⟨hcovered, _, _, close_of_open hopen (Witness.layOut_eq hcovered)⟩
  · exact Or.inr ⟨hcovered, close_of_not_laidOut hopen (Witness.layOut_of_not_covered hcovered)⟩

theorem closesExactly (hopen : s.closed = false) : s.ClosesExactly := by
  constructor
  case incomplete_iff =>
    rcases close_cases hopen with ⟨hcovered, S, t, hclose⟩ | ⟨hnot, hclose⟩
    · refine iff_of_false ?_ (not_not.mpr hcovered)
      rintro ⟨_, _, _, _, _, herror⟩
      rw [hclose] at herror
      cases herror
    · exact iff_of_true ⟨_, _, _, _, _, hclose⟩ hnot
  case refused =>
    intro f s' h
    rcases close_cases hopen with ⟨-, S, t, hclose⟩ | ⟨-, hclose⟩
    · rw [hclose] at h
      cases h
    · rw [hclose] at h
      cases h
      exact ⟨rfl, rfl⟩
  case closed => exact fun S s' h => laysOut_of_close h

end Session

/-! ## Histories with attempts -/

/-- A step of a history, or an attempt to close the session. -/
inductive Event where
  | step (t : Step)
  | attempt

namespace Event

def toStep : Event → Step
  | step t => t
  | attempt => .close

/-- The step, if it is no attempt. -/
def step? : Event → Option Step
  | step t => some t
  | attempt => none

end Event

namespace Session

/-- Every attempt fails where it is made. -/
def AttemptsFail (es : List Event) : Prop :=
  ∀ before after, es = before ++ .attempt :: after →
    ∃ f s, close (reached (before.map Event.toStep)) = .error f s

theorem AttemptsFail.left {es es' : List Event} (h : AttemptsFail (es ++ es')) :
    AttemptsFail es := by
  intro before after hsplit
  apply h before (after ++ es')
  rw [hsplit, List.append_assoc, List.cons_append]

theorem reached_concat (ts : List Step) (t : Step) :
    reached (ts ++ [t]) = t.after (reached ts) := reached_append ts [t]

/-- Attempts that fail leave no trace in the session. -/
theorem reached_eq_of_attemptsFail {es : List Event} (h : AttemptsFail es) :
    reached (es.map Event.toStep) = reached (es.filterMap Event.step?) := by
  induction es using List.reverseRecOn with
  | nil => rfl
  | append_singleton es e ih =>
    have hbefore := ih h.left
    rw [List.map_append, List.map_singleton, reached_concat, List.filterMap_append]
    cases e with
    | step t => exact (congrArg t.after hbefore).trans (reached_concat _ t).symm
    | attempt =>
      obtain ⟨f, s, hclose⟩ := h es [] rfl
      have hafter : Step.after .close (reached (es.map Event.toStep)) = s := by
        rw [Step.after_eq]
        show leaves (Reply.system <$> close) _ = s
        rw [leaves_map, leaves, hclose]
      rw [Event.toStep, hafter, eq_of_close_error hclose, hbefore]
      exact congrArg reached (List.append_nil _).symm

/-- An attempt to close an open session fails, for want of values or of names, just when the names
with values are not those that have been referred to, and then the session is as it was. If it does
not fail, the system lays out what the session holds. Attempts that fail can be left out of a
history: every step after them has the same result, closings included, and leaves the same
session. -/
theorem closing_exact_and_inert :
    (∀ s : Session, s.closed = false → s.ClosesExactly) ∧
      ∀ es : List Event, AttemptsFail es →
        reached (es.map Event.toStep) = reached (es.filterMap Event.step?) ∧
          ∀ before t after, es = before ++ .step t :: after →
            t.run (reached (before.map Event.toStep)) =
              t.run (reached (before.filterMap Event.step?)) := by
  refine ⟨fun s hopen => closesExactly hopen, ?_⟩
  intro es hfail
  refine ⟨reached_eq_of_attemptsFail hfail, ?_⟩
  intro before t after hsplit
  rw [hsplit] at hfail
  rw [reached_eq_of_attemptsFail hfail.left]

/-- Two attempts while a variable has no value; the closing after it has been given one succeeds. -/
theorem closing_exact_and_inert_late_value :
    ∃ S s, close (reached [.gate (.boolean "b"), .assign "b" (.truth true)]) = .ok S s ∧
      LaysOut S (reached [.gate (.boolean "b"), .assign "b" (.truth true)]) s ∧
      reached [.gate (.boolean "b"), .close, .close, .assign "b" (.truth true)] =
        reached [.gate (.boolean "b"), .assign "b" (.truth true)] := by
  obtain ⟨hexact, hinert⟩ := closing_exact_and_inert
  have hfail : AttemptsFail [.step (.gate (.boolean "b")), .attempt, .attempt,
      .step (.assign "b" (.truth true))] := by
    intro before after hsplit
    rcases before with _ | ⟨c, _ | ⟨d, _ | ⟨e, _ | ⟨e', before⟩⟩⟩⟩ <;> simp at hsplit
    · obtain ⟨rfl, -⟩ := hsplit
      exact ⟨_, _, rfl⟩
    · obtain ⟨rfl, rfl, -⟩ := hsplit
      exact ⟨_, _, rfl⟩
  obtain ⟨hsession, -⟩ := hinert _ hfail
  obtain ⟨S, s, hclose⟩ : ∃ S s,
      close (reached [.gate (.boolean "b"), .assign "b" (.truth true)]) = .ok S s := ⟨_, _, rfl⟩
  exact ⟨S, s, hclose, (hexact _ rfl).closed S s hclose, hsession⟩

end Session

end RankOne
