import RankOne.Gate
import RankOne.Shape.Basic

/-!
# Closed systems

A closed system holds the rows of a session, the names of the variables in the order of their
indices, and the encoded witness in the same order. Its matrices are read off the rows, and every
dimension is a length.
-/

namespace RankOne

/-- The entries of a matrix, row after row, each with the number of its row. -/
def entries (m : Matrix) (rows : List (Row Nat)) : List Entry :=
  rows.zipIdx.flatMap fun r =>
    (r.1.terms m).map fun t => ⟨r.2, t.1, t.2.encode⟩

/-- The number of entries of a matrix. -/
def entryCount (m : Matrix) (rows : List (Row Nat)) : Nat :=
  (rows.flatMap fun r => r.terms m).length

/-- The number of entries of the fullest matrix. -/
def nonZeroCount (rows : List (Row Nat)) : Nat :=
  max (entryCount .A rows) (max (entryCount .B rows) (entryCount .C rows))

structure System where
  names : List String
  rows : List (Row Nat)
  witness : List Bytes
  inputs : List Bytes

namespace System

def rowCount (S : System) : Nat := S.rows.length

def variableCount (S : System) : Nat := S.names.length

def nonZero (S : System) : Nat := nonZeroCount S.rows

/-- The system without its witness and its names, not checked. -/
def toShape (S : System) : Shape where
  rowCount := S.rowCount
  variableCount := S.variableCount
  inputCount := S.inputs.length
  A := entries .A S.rows
  B := entries .B S.rows
  C := entries .C S.rows

end System

end RankOne
