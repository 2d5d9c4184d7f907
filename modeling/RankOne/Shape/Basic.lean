import RankOne.Shape.Limits

/-!
# Shapes of constraint systems

A shape states, for each of its rows `k`, that `(A z)_k * (B z)_k = (C z)_k`, for a vector `z`
that holds the variables, then the constant one, then the inputs. The matrices are given by
their entries; several entries for one place add up. `Shape.check` is the gate through which a
shape from outside has to pass; a shape that has not passed it can still be evaluated. What is wrong
with a shape is reported within the limits of the machine.
-/

namespace RankOne

structure Entry where
  row : Int
  column : Int
  coefficient : Bytes
deriving DecidableEq

structure Shape where
  rowCount : Int
  variableCount : Int
  inputCount : Int
  A : List Entry
  B : List Entry
  C : List Entry
deriving DecidableEq

namespace Shape

/-- The length of the vector that the matrices are applied to. -/
def columns (S : Shape) : Int := S.variableCount + 1 + S.inputCount

def matrix (S : Shape) : Matrix → List Entry
  | .A => S.A
  | .B => S.B
  | .C => S.C

/-- All entries in the order in which they are looked at, each with its matrix. -/
def listed (S : Shape) : List (Matrix × Entry) :=
  S.A.map (Matrix.A, ·) ++ S.B.map (Matrix.B, ·) ++ S.C.map (Matrix.C, ·)

def checkEntry (S : Shape) (L : Limits) (m : Matrix) (e : Entry) : Except Fault Unit :=
  if ¬(0 ≤ e.row ∧ e.row < S.rowCount) then .error (L.report (.row m e.row))
  else if ¬(0 ≤ e.column ∧ e.column < S.columns) then .error (L.report (.column m e.column))
  else
    match Scalar.decode e.coefficient with
    | .ok _ => .ok ()
    | .error f => .error (L.report (.coefficient m f))

/-- Passes a shape on unchanged if its dimensions are possible and every entry lies inside them
and has a canonical coefficient; otherwise reports the first violation. -/
def check (S : Shape) (L : Limits) : Except Fault Shape :=
  if S.rowCount ≤ 0 ∨ S.variableCount ≤ 0 ∨ S.inputCount < 0 then
    .error (L.report (.dimensions S.rowCount S.variableCount S.inputCount))
  else do
    S.listed.forM fun p => S.checkEntry L p.1 p.2
    return S

end Shape

end RankOne
