import RankOne.Session.Basic
import RankOne.Shape.Evaluation

/-!
# The self-check of a closed system

Finishing a session closes it, has a shape accepted for its system, and evaluates the witness on
that shape. What happens on the way is reported as notices: a violated row is no fault, but it is
noticed, and the checked system remembers it.
-/

namespace RankOne

/-- A closed system, the shape that was accepted for it, and whether the witness satisfies that
shape. -/
structure CheckedSystem where
  system : System
  accepted : Shape
  satisfied : Bool

/-- The index of a variable of the system. -/
def CheckedSystem.indexOf (C : CheckedSystem) (x : String) : Except Fault Nat :=
  match C.system.names.idxOf? x with
  | some i => .ok i
  | none => .error .unknownVariable

inductive Level where
  | debug
  | warning
deriving DecidableEq

inductive Notice where
  | closed (rowCount variableCount nonZero : Nat)
  /-- The rows that the witness violates, out of so many. -/
  | violated (rows : List Nat) (rowCount : Nat)
deriving DecidableEq

namespace Notice

def level : Notice → Level
  | closed _ _ _ => .debug
  | violated _ _ => .warning

/-- The wording of a notice, which lists at most five of the violated rows. -/
def message : Notice → String
  | closed c v n => s!"finalized r1cs: {c} constraints, {v} variables, {n} non-zero entries"
  | violated rows c =>
    let count := rows.length
    s!"witness does not satisfy {count} of {c} constraints (first: " ++
      Text.bracketed ((rows.take 5).map toString) ++ ")"

end Notice

def System.notice (S : System) : Notice := .closed S.rowCount S.variableCount S.nonZero

/-- The shape of the system, checked as one from outside would be. All of it is in memory. -/
def System.accept (S : System) : Except Fault Shape := S.toShape.check none

/-- Evaluates the witness of a system on the shape accepted for it. -/
def selfCheck (S : System) (accepted : Shape) : List Notice × Except Fault CheckedSystem :=
  match accepted.violatedRows S.witness S.inputs with
  | .error f => ([], .error f)
  | .ok [] => ([], .ok ⟨S, accepted, true⟩)
  | .ok rows => ([.violated rows S.rowCount], .ok ⟨S, accepted, false⟩)

/-- The outcome of finishing a session. -/
structure Closing where
  session : Session
  notices : List Notice
  result : Except Fault CheckedSystem

/-- Closes a session, has its system accepted, and checks the witness. The session stays closed
when the system is not accepted. -/
def finish {m : Type → Type} [Monad m] (accept : System → m (Except Fault Shape))
    (s : Session) : m Closing :=
  match Session.close s with
  | .error f s' => pure ⟨s', [], .error f⟩
  | .ok S s' => do
    match ← accept S with
    | .error f => pure ⟨s', [S.notice], .error f⟩
    | .ok accepted =>
      let (notices, result) := selfCheck S accepted
      pure ⟨s', S.notice :: notices, result⟩

/-- Builds a circuit in a fresh session and finishes it. -/
def assemble {m : Type → Type} [Monad m] (accept : System → m (Except Fault Shape))
    (circuit : Build Unit) : m (List Notice × Except Fault CheckedSystem) :=
  match circuit Session.fresh with
  | .error f _ => pure ([], .error f)
  | .ok _ s => do
    let c ← finish accept s
    pure (c.notices, c.result)

end RankOne
