import RankOne.Range.Options

/-!
# Range statements

The statement that `x` lies in `[a, b]`. With the gaps `a - x` and `x - b`, both are at most zero
inside the range and they have opposite signs outside it, so their product is at least zero
exactly inside. The product is unpacked and its sign bit pinned to zero. What this says about the
integers holds as long as the product fits the width of the pattern.
-/

namespace RankOne.Range

def lowerGapVar (x : String) : String := s!"{x}_lower_gap"
def upperGapVar (x : String) : String := s!"{x}_upper_gap"
def productVar (x : String) : String := s!"{x}_range_product"

/-- The two bounds as scalars, unless the lower one is above the upper one as integers. -/
def readBounds (a b : Value) : Except Fault (Scalar × Scalar) := do
  let low ← a.scalar
  let high ← b.scalar
  if low.toInt > high.toInt then throw (.boundsReversed low.toInt high.toInt)
  return (low, high)

/-! ## Rows -/

def gates (o : Options) (a b x : String) : List (Gate Scalar) :=
  [.subtract a x (lowerGapVar x), .subtract x b (upperGapVar x),
    .multiply (lowerGapVar x) (upperGapVar x) (productVar x)] ++
  o.unpacking.gates (productVar x) ++
  [.constant (o.unpacking.signVar (productVar x)) 0]

/-- Imposes the rows of the statement and names the product. -/
def impose (o : Options) (a b x : String) : Build String := do
  Session.appendAll (gates o a b x)
  return productVar x

/-! ## Witness values -/

def gapWrites (x : String) (low high secret : Scalar) : List (String × Scalar) :=
  [(x, secret), (lowerGapVar x, low - secret), (upperGapVar x, secret - high),
    (productVar x, (low - secret) * (secret - high))]

/-- The values of the secret and of all helpers. The bounds are read first, then the secret. A
product that does not fit is noticed after the gaps and the product are known. -/
def script (o : Options) (x : String) (a b v : Value) : Script :=
  match readBounds a b with
  | .error f => .failed f
  | .ok (low, high) =>
    match v.scalar with
    | .error f => .failed f
    | .ok secret =>
      let product := (low - secret) * (secret - high)
      let rest :=
        match o.unpacking.pattern product with
        | .error f => Script.failed f
        | .ok bits => .done (o.unpacking.writes (productVar x) bits)
      rest.after (gapWrites x low high secret)

def fill (o : Options) (x : String) (a b v : Value) : Build Unit := (script o x a b v).perform

/-! ## The whole statement -/

def lowerVar : String := "A"
def upperVar : String := "B"
def secretVar : String := "x"

/-- Builds the statement in a session: public bounds, rows, values. -/
def circuit (o : Options) (v a b : Value) : Build Unit := do
  discard (MonadExcept.ofExcept (readBounds a b))
  Session.publishAll [(lowerVar, a), (upperVar, b)]
  discard (impose o lowerVar upperVar secretVar)
  fill o secretVar a b v

end RankOne.Range
