import RankOne.Backend.Transparent
import RankOne.Proofs.Session.History

/-!
# From the self-check to the backend

A session that is finished is checked with the shape that its backend accepted. With a backend that
accepts systems as they are accepted by default, this is the shape of the rows of the session, so
the verdict is about the gates and the values of the session. It is what the shape says of the
witness, a notice warns of it exactly when it is bad, and a bad one ends the submission before the
backend is called for the first time. What is submitted is verified by a backend that verifies by
evaluation.
-/

namespace RankOne

theorem increasing_falseRows (ρ : String → Scalar) (gs : List (Gate Scalar)) :
    (falseRows ρ gs).Pairwise (· < ·) := by
  have hsublist : (falseRows ρ gs).Sublist (gs.zipIdx.map Prod.snd) :=
    List.filter_sublist.map Prod.snd
  rw [List.zipIdx_map_snd] at hsublist
  exact List.Pairwise.sublist hsublist List.pairwise_lt_range'

/-! ## Backends that accept what is accepted by default -/

variable {m : Type → Type} [Monad m]

/-- The answer of the backend on a system is that of the check. It may do something of its own before
it gives it, such as keeping a record. -/
def Backend.Inherits (b : Backend m) : Prop :=
  ∀ S : System, ∃ effect : m Unit, b.accept S = (do effect; pure S.accept)

theorem inherits_transparent : Transparent.backend.Inherits :=
  fun S => ⟨Transparent.note (.build S.rowCount S.variableCount S.inputs.length), rfl⟩

namespace Session

/-- The session finished without a backend. -/
def finished (s : Session) : Closing := finish (m := Id) (fun S => pure S.accept) s

/-- A backend that accepts what is accepted by default leads to the same closing. -/
theorem finish_of_inherits [LawfulMonad m] {b : Backend m} (hb : b.Inherits) (s : Session) :
    ∃ effect : m Unit, finish b.accept s = (do effect; pure s.finished) := by
  unfold finished finish
  cases close s with
  | error f s' =>
    refine ⟨pure (), ?_⟩
    rw [pure_bind]
    rfl
  | ok S s' =>
    obtain ⟨effect, haccept⟩ := hb S
    refine ⟨effect, ?_⟩
    simp only [haccept, bind_assoc, pure_bind]
    cases S.accept <;> rfl

theorem finished_of_close {s s' : Session} {S : System} {rows : List ℕ}
    (hclose : close s = .ok S s') (haccept : S.accept = .ok S.toShape)
    (hrows : S.toShape.violatedRows S.witness S.inputs = .ok rows) :
    s.finished = ⟨s', S.notice :: if rows = [] then [] else [.violated rows S.rowCount],
      .ok ⟨S, S.toShape, rows.isEmpty⟩⟩ := by
  unfold finished finish
  rw [hclose]
  simp only [haccept, pure_bind, selfCheck, hrows]
  cases rows <;> rfl

end Session

/-! ## Submission -/

/-- The verdict on a checked system, the notices given on the way and the rows that its witness
violates belong together, and the verdict decides whether a backend is called. A submission is
verified by the backend that made it, from what it consists of. -/
structure CheckedSystem.Judged (C : CheckedSystem) (notices : List Notice) (rows : List ℕ) :
    Prop where
  violated : C.accepted.violatedRows C.system.witness C.system.inputs = .ok rows
  increasing : rows.Pairwise (· < ·)
  holdsFor : C.accepted.holdsFor C.system.witness C.system.inputs = .ok C.satisfied
  satisfied_iff : C.satisfied = true ↔ rows = []
  warned_iff : (∃ n ∈ notices, n.level = .warning) ↔ C.satisfied = false
  warning : ∀ n ∈ notices, n.level = .warning → n.message =
    "witness does not satisfy " ++ toString rows.length ++ " of " ++ toString C.system.rowCount ++
      " constraints (first: " ++ Text.bracketed ((rows.take 5).map toString) ++ ")"
  refused : rows ≠ [] → ∀ {m : Type → Type} [Monad m] (b : Backend m) (label : Bytes),
    b.submit C label = pure (.error .violatedWitness)
  refused_iff : ∀ (label : Bytes) (calls : List Call),
    Transparent.backend.submit C label calls = (.error .violatedWitness, calls) ↔ rows ≠ []
  submitted : rows = [] → ∀ {m : Type → Type} [Monad m] (b : Backend m) (label : Bytes),
    b.submit C label = (do
      let (commitment, key) ← b.setup C.accepted
      let proof ← b.prove C.accepted key C.system.witness C.system.inputs label
      pure (.ok ⟨commitment, key, proof, label⟩))
  checked : ∀ {m : Type → Type} [Monad m] (b : Backend m) (p : Submission b) (inputs : List Bytes),
    b.check p inputs = b.verify p.proof p.commitment inputs p.label p.key
  verified : rows = [] → ∀ (label : Bytes) (calls : List Call), ∃ p calls',
    Transparent.backend.submit C label calls = (.ok p, calls') ∧
      (Transparent.backend.check p [] calls').1 = .ok true

/-- The transparent backend is asked to set up the shape and to prove it, once each. -/
theorem submit_transparent {C : CheckedSystem} (h : C.satisfied = true) (label : Bytes)
    (calls : List Call) :
    Transparent.backend.submit C label calls =
      (.ok ⟨C.accepted.variableCount, C.accepted, (label, C.system.witness), label⟩,
        calls ++ [.setup C.accepted.rowCount] ++
          [.prove label C.system.witness.length C.system.inputs.length]) := by
  rw [Backend.submit, if_pos h]
  rfl

/-- The transparent backend compares the labels and evaluates the witness. -/
theorem check_transparent (p : Submission Transparent.backend) (inputs : List Bytes)
    (calls : List Call) :
    (Transparent.backend.check p inputs calls).1 =
      if p.proof.1 = p.label then p.key.holdsFor p.proof.2 inputs else .ok false := by
  have hrun : Transparent.backend.check p inputs calls =
      (if p.proof.1 = p.label then (pure (p.key.holdsFor p.proof.2 inputs) : Recorded _)
        else pure (.ok false)) (calls ++ [.verify p.label inputs.length p.commitment]) := rfl
  rw [hrun]
  split <;> rfl

theorem judged {S : System} {rows : List ℕ} (hinputs : S.inputs = [])
    (hincreasing : rows.Pairwise (· < ·))
    (hrows : S.toShape.violatedRows S.witness S.inputs = .ok rows) :
    CheckedSystem.Judged ⟨S, S.toShape, rows.isEmpty⟩
      (S.notice :: if rows = [] then [] else [.violated rows S.rowCount]) rows := by
  have hholds := Shape.holdsFor_of_violatedRows hrows
  have hrefused : rows ≠ [] → ∀ {m : Type → Type} [Monad m] (b : Backend m) (label : Bytes),
      b.submit ⟨S, S.toShape, rows.isEmpty⟩ label = pure (.error .violatedWitness) :=
    fun hne => fun _ _ => if_neg (mt List.isEmpty_iff.mp hne)
  constructor
  case violated => exact hrows
  case increasing => exact hincreasing
  case holdsFor => exact hholds
  case satisfied_iff => exact List.isEmpty_iff
  case warned_iff =>
    cases rows with
    | nil => simp [System.notice, Notice.level]
    | cons k rows => simp [Notice.level]
  case warning =>
    intro n hn hlevel
    rcases List.mem_cons.mp hn with rfl | hn
    · cases hlevel
    · split at hn
      · cases hn
      · rw [List.mem_singleton.mp hn]
        rfl
  case refused => exact hrefused
  case refused_iff =>
    intro label calls
    constructor
    · rintro hrun rfl
      rw [submit_transparent rfl] at hrun
      cases hrun
    · intro hne
      rw [hrefused hne]
      rfl
  case submitted =>
    intro hnil m _ b label
    exact if_pos (List.isEmpty_iff.mpr hnil)
  case checked => exact fun _ _ _ => rfl
  case verified =>
    rintro rfl label calls
    refine ⟨_, _, submit_transparent rfl label calls, ?_⟩
    -- verification evaluates for no inputs, and a closed system has none
    rw [check_transparent, if_pos rfl, ← hinputs]
    exact hholds

namespace Session

/-- Whatever closes is accepted, and its witness can be evaluated. -/
theorem finished_of_regular {s s' : Session} {S : System} (hs : s.Regular)
    (hclose : close s = .ok S s') :
    S.inputs = [] ∧ S.toShape.violatedRows S.witness S.inputs =
        .ok (falseRows (listed s.witness.toList) s.gates) ∧
      s.finished = ⟨s', S.notice :: if falseRows (listed s.witness.toList) s.gates = [] then []
        else [.violated (falseRows (listed s.witness.toList) s.gates) S.rowCount],
        .ok ⟨S, S.toShape, (falseRows (listed s.witness.toList) s.gates).isEmpty⟩⟩ := by
  obtain ⟨-, -, hS⟩ := eq_of_close hclose
  have hinputs : S.inputs = [] := by
    rw [hS]
    rfl
  have haccept : S.accept = .ok S.toShape := by
    rw [hS]
    exact (system_states hs _).accepted
  have hrows := violatedRows_of_close hs hclose
  exact ⟨hinputs, hrows, finished_of_close hclose haccept hrows⟩

/-- After any history, a session that can be finished gives a system that is judged by the gates
that are false for its values. With a backend that accepts what is accepted by default the same
system is judged in the same way. -/
theorem judged_of_finished (ts : List Step) {C : CheckedSystem}
    (h : (reached ts).finished.result = .ok C) :
    C.Judged (reached ts).finished.notices
        (falseRows (listed (reached ts).witness.toList) (reached ts).gates) ∧
      ∀ {m : Type → Type} [Monad m] [LawfulMonad m] (b : Backend m), b.Inherits →
        ∃ effect : m Unit, finish b.accept (reached ts) =
          (do effect; pure (reached ts).finished) := by
  refine ⟨?_, fun b hb => finish_of_inherits hb _⟩
  have hs := regular_reached (open_of_checked h)
  obtain ⟨S, s', hclose⟩ : ∃ S s', close (reached ts) = .ok S s' := by
    obtain ⟨s', -, hclose, -⟩ := close_of_checked hs h
    exact ⟨_, s', hclose⟩
  obtain ⟨hinputs, hrows, hfinished⟩ := finished_of_regular hs hclose
  rw [hfinished] at h ⊢
  obtain rfl := Except.ok.inj h
  exact judged hinputs (increasing_falseRows _ _) hrows

/-- A number that is stated to be the square of three: nine is submitted and verified, and ten is
refused before the backend is called. -/
theorem judged_of_finished_square :
    let square := fun n : ℤ => [Step.gate (.multiply "a" "a" "n"), .assign "a" (.integer 3),
      .assign "n" (.integer n)]
    (∃ C, (reached (square 9)).finished.result = .ok C ∧ ∀ label, ∃ p calls,
      Transparent.backend.submit C label [] = (.ok p, calls) ∧
        (Transparent.backend.check p [] calls).1 = .ok true) ∧
      ∃ C, (reached (square 10)).finished.result = .ok C ∧ C.satisfied = false ∧
        (∃ effect, finish Transparent.backend.accept (reached (square 10)) =
          (do effect; pure (reached (square 10)).finished)) ∧
        ∀ label, Transparent.backend.submit C label = pure (.error .violatedWitness) := by
  intro square
  have hfinished : ∀ n, ∃ C, (reached (square n)).finished.result = .ok C := by
    intro n
    obtain ⟨S, s', hclose⟩ : ∃ S s', close (reached (square n)) = .ok S s' := ⟨_, _, rfl⟩
    have hs := regular_reached (eq_of_close hclose).1
    rw [(finished_of_regular hs hclose).2.2]
    exact ⟨_, rfl⟩
  constructor
  · obtain ⟨C, hC⟩ := hfinished 9
    obtain ⟨hjudged, -⟩ := judged_of_finished _ hC
    exact ⟨C, hC, fun label => hjudged.verified (by decide) label []⟩
  · obtain ⟨C, hC⟩ := hfinished 10
    obtain ⟨hjudged, hinherited⟩ := judged_of_finished _ hC
    have hviolated : falseRows (listed (reached (square 10)).witness.toList)
        (reached (square 10)).gates ≠ [] := by decide
    refine ⟨C, hC, ?_, hinherited _ inherits_transparent, hjudged.refused hviolated _⟩
    exact Bool.eq_false_iff.mpr (mt hjudged.satisfied_iff.mp hviolated)

end Session

end RankOne
