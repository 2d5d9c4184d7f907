import RankOne.Backend.Basic

/-!
# The transparent backend

A backend without any secrecy, for exercising a submission: its proof is the witness together
with the label, and verification evaluates the witness again. It keeps a record of the calls made
to it, the earliest first.
-/

namespace RankOne

inductive Call where
  | build (rowCount variableCount inputCount : Nat)
  | setup (rowCount : Int)
  | prove (label : Bytes) (witness inputs : Nat)
  | verify (label : Bytes) (inputs : Nat) (commitment : Int)
deriving DecidableEq

/-- Computations that record calls. -/
abbrev Recorded := StateM (List Call)

namespace Transparent

def note (c : Call) : Recorded Unit := modify (· ++ [c])

/-- Commits to a shape by its number of variables; the key is the shape itself. -/
def backend : Backend Recorded where
  Commitment := Int
  Key := Shape
  Proof := Bytes × List Bytes
  accept S := do
    note (.build S.rowCount S.variableCount S.inputs.length)
    return S.accept
  setup shape := do
    note (.setup shape.rowCount)
    return (shape.variableCount, shape)
  prove _ _ witness inputs label := do
    note (.prove label witness.length inputs.length)
    return (label, witness)
  verify proof commitment inputs label shape := do
    note (.verify label inputs.length commitment)
    if proof.1 = label then return shape.holdsFor proof.2 inputs else return .ok false

end Transparent

end RankOne
