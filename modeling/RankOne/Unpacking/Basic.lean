import RankOne.Session.Basic
import RankOne.Unpacking.Pattern

/-!
# Unpacking a variable into bits

An unpacking ties a variable to boolean helper variables that hold its two's complement pattern:
each bit has a weight, the last one a negative weight, and the weighted bits add up to the
variable. In the linear style one row states the sum. In the chained style the weights, the
weighted bits and the partial sums are variables of their own, with a row for each.

The sum says what it should as long as the integer fits the width; past that the bits describe
another number. A strict unpacking therefore refuses values that do not fit.
-/

namespace RankOne

inductive Style where
  | linear
  | chained
deriving DecidableEq

def Style.name : Style → String
  | .linear => "linear_combination"
  | .chained => "chained"

def Style.ofName (name : String) : Except Fault Style :=
  if name = Style.linear.name then .ok .linear
  else if name = Style.chained.name then .ok .chained
  else .error (.unknownStyle name)

structure Unpacking where
  style : Style
  width : Nat
  /-- Whether a value that does not fit is refused. -/
  strict : Bool
  two_le : 2 ≤ width
  le_max : width ≤ maxWidth

namespace Unpacking

def new (style : Style) (width : Int) (strict : Bool) : Except Fault Unpacking :=
  if h : 2 ≤ width ∧ width ≤ maxWidth then
    .ok ⟨style, width.toNat, strict, by omega, by omega⟩
  else .error (.widthOutOfBounds width)

/-! ## Helper variables -/

def bitVar (x : String) (i : Nat) : String := s!"{x}_bit{i}"
def powerVar (x : String) (i : Nat) : String := s!"{x}_power{i}"
def termVar (x : String) (i : Nat) : String := s!"{x}_term{i}"
def totalVar (x : String) (i : Nat) : String := s!"{x}_total{i}"
def negPowerVar (x : String) : String := s!"{x}_neg_power"

/-- The index of the last bit, the one with the negative weight. -/
def top (u : Unpacking) : Nat := u.width - 1

def bitVars (u : Unpacking) (x : String) : List String :=
  (List.range u.width).map (bitVar x)

/-- The variable for the last bit, which tells the sign. -/
def signVar (u : Unpacking) (x : String) : String := bitVar x u.top

/-! ## Rows -/

/-- What a set bit contributes. -/
def weight (u : Unpacking) (i : Nat) : Scalar :=
  if i = u.top then -Scalar.twoTo i else Scalar.twoTo i

/-- The variable that holds the weight of a bit in the chained style. -/
def weightVar (u : Unpacking) (x : String) (i : Nat) : String :=
  if i = u.top then negPowerVar x else powerVar x i

def linearGates (u : Unpacking) (x : String) : List (Gate Scalar) :=
  (u.bitVars x).map Gate.boolean ++
    [.combination ((List.range u.width).map fun i => (bitVar x i, u.weight i)) x]

/-- The rows that build the weights, by doubling from one. -/
def weightGates (u : Unpacking) (x : String) : List (Gate Scalar) :=
  .constant (powerVar x 0) 1 ::
    (List.range u.top).map (fun i => .scale (powerVar x i) (.ofNat 2) (powerVar x (i + 1))) ++
    [.scale (powerVar x u.top) (-1) (negPowerVar x)]

/-- The rows that weigh a bit and add it to the total of the bits before it. -/
def sumGates (u : Unpacking) (x : String) (i : Nat) : List (Gate Scalar) :=
  [.boolean (bitVar x i),
    .multiply (bitVar x i) (u.weightVar x i) (termVar x i),
    .add (totalVar x i) (termVar x i) (totalVar x (i + 1))]

def chainedGates (u : Unpacking) (x : String) : List (Gate Scalar) :=
  u.weightGates x ++ [.constant (totalVar x 0) 0] ++
    (List.range u.width).flatMap (u.sumGates x) ++ [.equal x (totalVar x u.width)]

def gates (u : Unpacking) (x : String) : List (Gate Scalar) :=
  match u.style with
  | .linear => u.linearGates x
  | .chained => u.chainedGates x

/-- Imposes the rows that tie `x` to its bits, and names the bits. -/
def impose (u : Unpacking) (x : String) : Build (List String) := do
  Session.appendAll (u.gates x)
  return u.bitVars x

/-! ## Witness values -/

def bitWrites (x : String) (bits : List Bool) : List (String × Scalar) :=
  bits.zipIdx.map fun b => (bitVar x b.2, if b.1 then 1 else 0)

def weightWrites (u : Unpacking) (x : String) : List (String × Scalar) :=
  (List.range u.width).map (fun i => (powerVar x i, Scalar.twoTo i)) ++
    [(negPowerVar x, -Scalar.twoTo u.top)]

/-- The weighted bits and the totals after them, from bit `i` on and a total before it. -/
def sumWrites (u : Unpacking) (x : String) :
    Nat → Scalar → List Bool → List (String × Scalar)
  | _, _, [] => []
  | i, total, b :: bs =>
    let term := if b then u.weight i else 0
    (termVar x i, term) :: (totalVar x (i + 1), total + term) ::
      u.sumWrites x (i + 1) (total + term) bs

/-- The values of all helpers, for a given pattern. -/
def writes (u : Unpacking) (x : String) (bits : List Bool) : List (String × Scalar) :=
  match u.style with
  | .linear => bitWrites x bits
  | .chained =>
    bitWrites x bits ++ u.weightWrites x ++ [(totalVar x 0, 0)] ++ u.sumWrites x 0 0 bits

/-- The pattern of a scalar, which a strict unpacking refuses if it does not fit. -/
def pattern (u : Unpacking) (a : Scalar) : Except Fault (List Bool) := do
  if u.strict then requireFit u.width a
  return twosComplement u.width a

/-- Gives the helpers of `x` their values for the case that `x` has the given one. -/
def fill (u : Unpacking) (x : String) (v : Value) : Build (List Bool) := do
  let a ← MonadExcept.ofExcept v.scalar
  let bits ← MonadExcept.ofExcept (u.pattern a)
  (Script.done (u.writes x bits)).perform
  return bits

end Unpacking

end RankOne
