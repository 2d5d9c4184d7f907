import RankOne.Shape.Basic
import RankOne.Shape.Place
import Std.Data.TreeMap

/-!
# Evaluation of a shape

The products of the matrices with an assigned vector are computed from the entries one after the
other, and the rows whose equation fails are listed. Only rows with entries are kept track of:
any other row states that zero times zero is zero.

A shape that passed `Shape.check` never refers outside the vector or the rows. One that did not
may: a negative index then counts from the end, and an index that is outside either way is a
fault. The number of rows is a claim of the shape in any case. Room is made for so many sums before
the first entry is looked at, and the limits of the machine decide whether there is any.
-/

namespace RankOne

/-- The entries of a vector by place; a place that is not kept holds zero. -/
abbrev Sums := Std.TreeMap Nat Scalar

/-- Adds one entry's contribution to the sum of its row. The row is looked up first. -/
def accumulate (rows : Nat) (z : Array Scalar) (sums : Sums) (e : Entry) : Except Fault Sums := do
  let k ← place e.row rows
  let j ← place e.column z.size
  return sums.insert k (sums.getD k 0 + Scalar.ofNat (bytesValue e.coefficient) * z.getD j 0)

/-- The product of a matrix of so many rows with a vector. -/
def matrixProduct (rows : Nat) (entries : List Entry) (z : Array Scalar) : Except Fault Sums :=
  entries.foldlM (accumulate rows z) ∅

namespace Shape

/-- The vector assigned by encoded values of the variables and encoded inputs. -/
def vector (S : Shape) (L : Limits) (values inputs : List Bytes) : Except Fault (Array Scalar) :=
  if values.length ≠ S.variableCount then
    .error (L.report (.variableCount S.variableCount values.length))
  else if inputs.length ≠ S.inputCount then
    .error (L.report (.inputCount S.inputCount inputs.length))
  else do
    let vs ← (values.mapM Scalar.decode).mapError fun f => L.report (.variableEncoding f)
    let us ← (inputs.mapM Scalar.decode).mapError fun f => L.report (.inputEncoding f)
    return (vs ++ 1 :: us).toArray

/-- The rows whose equation the vector violates, in increasing order. -/
def violatedRowsWithin (S : Shape) (L : Limits) (values inputs : List Bytes) :
    Except Fault (List Nat) := do
  let z ← S.vector L values inputs
  let rows ← L.reserve S.rowCount
  let a ← matrixProduct rows S.A z
  let b ← matrixProduct rows S.B z
  let c ← matrixProduct rows S.C z
  return (a ∪ b ∪ c).keys.filter fun k => a.getD k 0 * b.getD k 0 ≠ c.getD k 0

def holdsForWithin (S : Shape) (L : Limits) (values inputs : List Bytes) : Except Fault Bool := do
  let violated ← S.violatedRowsWithin L values inputs
  return violated.isEmpty

/-! ## Shapes of what is in memory

Every dimension of a system that a session has built is the length of a list that is in memory, so
its shape is evaluated without limits. -/

def violatedRows (S : Shape) (values inputs : List Bytes) : Except Fault (List Nat) :=
  S.violatedRowsWithin none values inputs

def holdsFor (S : Shape) (values inputs : List Bytes) : Except Fault Bool :=
  S.holdsForWithin none values inputs

end Shape

end RankOne
