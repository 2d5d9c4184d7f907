import RankOne.Shape.Place

/-!
# Limits of the machine

Dimensions and indices are integers of any size, and the machine on which a shape is evaluated is not
made for all of them. A list with a place for every row takes memory, and an index in a report is
written out in digits. Where the limits are depends on the machine and on its settings; what happens
beyond them does not.
-/

namespace RankOne

/-- A place of a list takes eight bytes, and the bytes are counted by a signed word. -/
def longestList : Nat := 1 <<< 60

structure Machine where
  /-- There is memory for lists with fewer places than this. -/
  capacity : Nat
  /-- Integers are written with at most so many digits; with any number if it is absent. -/
  digits? : Option Nat
  capacity_pos : 0 < capacity
  capacity_le : capacity ≤ longestList
  /-- A lower limit than this cannot be set. -/
  digits_ge : ∀ d ∈ digits?, 640 ≤ d

namespace Machine

/-- All the memory that can be addressed, and the digits that are written without a setting. -/
def standard : Machine where
  capacity := longestList
  digits? := some 4300
  capacity_pos := by decide
  capacity_le := Nat.le_refl _
  digits_ge := by simp

variable (M : Machine)

/-- The integer can be written out. -/
def Writes (n : Int) : Prop := ∀ d ∈ M.digits?, n.natAbs < Nat.pow 10 d

/-- Reports a malformation, which fails if an integer in it cannot be written out. -/
def report (cause : Malformation) : Fault :=
  match M.digits? with
  | none => .malformed cause
  | some d =>
    if ∀ n ∈ cause.shown, n.natAbs < Nat.pow 10 d then .malformed cause else .digitsTooMany d

/-- The length of a list of zeros with so many places; it is empty for a negative number. The number
is read as a word before memory is looked for. -/
def reserve (n : Int) : Except Fault Nat :=
  if ¬IsWord n then .error .rowCountTooLarge
  else if n < M.capacity then .ok n.toNat
  else .error .outOfMemory

end Machine

/-- The limits within which a shape is checked and evaluated: those of a machine, or none for a shape
whose rows and variables are in memory already. -/
abbrev Limits := Option Machine

namespace Limits

def report (L : Limits) (cause : Malformation) : Fault :=
  match L with
  | none => .malformed cause
  | some M => M.report cause

def reserve (L : Limits) (n : Int) : Except Fault Nat :=
  match L with
  | none => .ok n.toNat
  | some M => M.reserve n

end Limits

end RankOne
