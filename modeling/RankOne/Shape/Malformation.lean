import RankOne.Scalar.Encoding

/-!
# Malformed shapes

The reasons for which dimensions, entries or assigned vectors are refused, and their wording.
Indices and dimensions are integers: they are shown as they were given.
-/

namespace RankOne

def EncodingFault.message : EncodingFault → String
  | .length got =>
    let size := Scalar.size
    s!"field element must be {size} bytes, got {got}"
  | .nonCanonical => "non-canonical field element encoding"

/-- The three matrices of a system. -/
inductive Matrix where
  | A
  | B
  | C
deriving DecidableEq

def Matrix.label : Matrix → String
  | .A => "A"
  | .B => "B"
  | .C => "C"

inductive Malformation where
  | dimensions (rowCount variableCount inputCount : Int)
  | row (matrix : Matrix) (index : Int)
  | column (matrix : Matrix) (index : Int)
  | coefficient (matrix : Matrix) (fault : EncodingFault)
  | variableCount (expected : Int) (got : Nat)
  | inputCount (expected : Int) (got : Nat)
  | variableEncoding (fault : EncodingFault)
  | inputEncoding (fault : EncodingFault)
  /-- A backend declines the shape for a reason of its own. -/
  | refused (reason : String)
deriving DecidableEq

/-- The integers that are shown as they were given. The lengths of byte strings and vectors are not
among them. -/
def Malformation.shown : Malformation → List Int
  | .dimensions c v i => [c, v, i]
  | .row _ k | .column _ k => [k]
  | .variableCount n _ | .inputCount n _ => [n]
  | .coefficient _ _ | .variableEncoding _ | .inputEncoding _ | .refused _ => []

def Malformation.message : Malformation → String
  | .dimensions c v i => s!"invalid dimensions: {c} constraints, {v} variables, {i} inputs"
  | .row m k => m.label ++ s!": row {k} out of range"
  | .column m k => m.label ++ s!": column {k} out of range"
  | .coefficient m f => "bad " ++ m.label ++ " coefficient encoding: " ++ f.message
  | .variableCount n got => s!"expected {n} variables, got {got}"
  | .inputCount n got => s!"expected {n} inputs, got {got}"
  | .variableEncoding f => "bad variable encoding: " ++ f.message
  | .inputEncoding f => "bad input encoding: " ++ f.message
  | .refused reason => reason

end RankOne
