import RankOne.System
import RankOne.Witness

/-!
# Building sessions

A session collects gates, names and witness values until it is closed. Names are created by the
first reference to them, and values may be given before or after the gates that use them.
Operations run in order and an operation that fails stops the ones after it; whatever had been
done by then stays done, so the state after a failure matters as much as the failure.

The rows of a session are its gates with every name replaced by its index, and one more row once
it is closed. An index never changes, so neither does a row.
-/

namespace RankOne

structure Session where
  names : Names
  witness : Witness
  gates : List (Gate Scalar)
  /-- The row that was added when the session was closed. -/
  closing? : Option (Row Nat)

/-- An operation on a session. The state that a failing operation leaves behind is kept. -/
abbrev Build := EStateM Fault Session

namespace Session

/-- An open session without gates, in which the variable `unit` has index zero and value one. -/
def fresh : Session where
  names := Names.empty.insert unit
  witness := Witness.empty.insert unit 1 (by decide)
  gates := []
  closing? := none

def closed (s : Session) : Bool := s.closing?.isSome

/-- The rows so far, by the indices of the names. -/
def rows (s : Session) : List (Row Nat) :=
  s.gates.map (fun g => g.row.map s.names.position) ++ s.closing?.toList

/-- Refers to names, without any other effect. Names may be created even on a closed session. -/
def mention (xs : List String) : Build Unit := fun s =>
  .ok () { s with names := s.names.insertAll xs }

/-- The index of a name, which is created if it is new. -/
def index (x : String) : Build Nat := fun s =>
  .ok (s.names.position x) { s with names := s.names.insert x }

/-- Appends a gate and gives the number of its row. Its names are mentioned first. -/
def append (g : Gate Scalar) : Build Nat := do
  mention g.names
  fun s =>
    if s.closed then .error .closed s
    else .ok s.gates.length { s with gates := s.gates ++ [g] }

theorem append_of_open {s : Session} (h : s.closed = false) (g : Gate Scalar) :
    append g s = .ok s.gates.length
      { s with names := s.names.insertAll g.names, gates := s.gates ++ [g] } := by
  have hc : s.closing?.isSome = false := h
  simp [append, mention, bind, EStateM.bind, closed, hc]

/-- A closed session takes no gate, but it takes the names of the gate. -/
theorem append_of_closed {s : Session} (h : s.closed = true) (g : Gate Scalar) :
    append g s = .error .closed { s with names := s.names.insertAll g.names } := by
  have hc : s.closing?.isSome = true := h
  simp [append, mention, bind, EStateM.bind, closed, hc]

/-- Appends a gate whose constants come from a caller. A refused constant is reported before a
closed session is. -/
def gate (g : Gate Value) : Build Nat :=
  match g.read with
  | .ok g => append g
  | .error r => do
    mention r.names
    throw r.fault

/-- Appends gates that are known to be readable, in order. -/
def appendAll (gs : List (Gate Scalar)) : Build Unit := gs.forM fun g => discard (append g)

def assign (x : String) (v : Value) : Build Unit := fun s =>
  if s.closed then .error .closed s
  else
    match s.witness.assign x v with
    | .ok w => .ok () { s with witness := w }
    | .error f => .error f s

def value (x : String) : Build Scalar := fun s =>
  match s.witness.value x with
  | .ok a => .ok a s
  | .error f => .error f s

/-- Pins a variable to a public constant and gives it that value. -/
def publish (x : String) (v : Value) : Build Unit := do
  discard (gate (.constant x v))
  assign x v

def publishAll (bindings : List (String × Value)) : Build Unit :=
  bindings.forM fun p => publish p.1 p.2

/-- The last row of every system, which pins the variable `unit` to the constant of the instance
in the column after the variables. -/
def closingRow (t : Names) : Row Nat :=
  ⟨[(t.size, 1)], [(t.size, 1)], [(t.position unit, 1)]⟩

/-- Closes a session whose witness covers exactly its variables; otherwise nothing changes. -/
def close : Build System := fun s =>
  if s.closed then .error .closed s
  else
    match s.witness.layOut s.names with
    | .error f => .error f s
    | .ok values =>
      let s' := { s with closing? := some (closingRow s.names) }
      .ok ⟨s.names.toList, s'.rows, values, []⟩ s'

end Session

/-- Witness values in the order in which they are to be given, and the fault that keeps the rest
of them from being known, if any. -/
structure Script where
  writes : List (String × Scalar)
  fault? : Option Fault

namespace Script

def failed (f : Fault) : Script := ⟨[], some f⟩

def done (writes : List (String × Scalar)) : Script := ⟨writes, none⟩

/-- More values, to be given before all others. -/
def after (s : Script) (writes : List (String × Scalar)) : Script :=
  ⟨writes ++ s.writes, s.fault?⟩

/-- Gives the values one by one and then reports the fault. -/
def perform (s : Script) : Build Unit := do
  s.writes.forM fun w => Session.assign w.1 (Value.ofScalar w.2)
  match s.fault? with
  | none => pure ()
  | some f => throw f

end Script

end RankOne
