import RankOne.Session.Basic

/-!
# Membership statements

The statement that a secret is one of several public elements. The product of the differences
between the secret and each element is zero exactly when one of them is. The running product is
built one multiplication at a time, starting from the first difference, and pinned to zero.
-/

namespace RankOne.Membership

def differenceVar (secret : String) (i : Nat) : String := s!"{secret}_diff{i}"

/-- The variable for the product of the differences up to `i`; the first product is the first
difference itself. -/
def runningVar (secret : String) (i : Nat) : String :=
  if i = 0 then differenceVar secret 0 else s!"{secret}_product{i}"

/-! ## Rows -/

/-- The rows for one element. -/
def elementGates (secret element : String) (i : Nat) : List (Gate Scalar) :=
  let difference := differenceVar secret i
  let subtraction := Gate.subtract secret element difference
  if i = 0 then [subtraction]
  else [subtraction, .multiply (runningVar secret (i - 1)) difference (runningVar secret i)]

def gates (secret : String) (elements : List String) : List (Gate Scalar) :=
  (elements.zipIdx.flatMap fun e => elementGates secret e.1 e.2) ++
    [.constant (runningVar secret (elements.length - 1)) 0]

/-- Imposes the rows of the statement and names the last product. -/
def impose (secret : String) (elements : List String) : Build String := do
  if elements.isEmpty then throw .noElements
  Session.appendAll (gates secret elements)
  return runningVar secret (elements.length - 1)

/-! ## Witness values -/

/-- The differences and products from element `i` on, with the product before it, which is one
before the first element. Elements are read one by one. -/
def elementScript (secret : String) (s : Scalar) : Nat → Scalar → List Value → Script
  | _, _, [] => .done []
  | i, product, v :: vs =>
    match v.scalar with
    | .error f => .failed f
    | .ok e =>
      let difference := s - e
      let next := if i = 0 then difference else product * difference
      let own :=
        if i = 0 then [(differenceVar secret i, difference)]
        else [(differenceVar secret i, difference), (runningVar secret i, next)]
      (elementScript secret s (i + 1) next vs).after own

/-- The values of the secret and of all helpers. An element that is refused is noticed after the
values that do not depend on it. -/
def script (secret : String) (v : Value) (elements : List Value) : Script :=
  if elements.isEmpty then .failed .noElements
  else
    match v.scalar with
    | .error f => .failed f
    | .ok s => (elementScript secret s 0 1 elements).after [(secret, s)]

def fill (secret : String) (v : Value) (elements : List Value) : Build Unit :=
  (script secret v elements).perform

/-! ## The whole statement -/

def memberVar (i : Nat) : String := s!"set[{i}]"
def secretVar : String := "secret"

/-- Builds the statement in a session: public elements, rows, values. -/
def circuit (v : Value) (elements : List Value) : Build Unit := do
  if elements.isEmpty then throw .noElements
  let members := (List.range elements.length).map memberVar
  Session.publishAll (members.zip elements)
  discard (impose secretVar members)
  fill secretVar v elements

end RankOne.Membership
