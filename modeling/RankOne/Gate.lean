import RankOne.Value

/-!
# Gates

A gate is an equation between named variables, and each gate is one row of a constraint system:
`(left) * (right) = (out)`, where the three sides are linear combinations. The variable `unit`
stands for the constant one in them, so that every side is a combination of variables.

A gate whose constants come from a caller is read into one with scalar constants. A constant that
is refused leaves no gate, but the names before it have been mentioned, and `Refusal` keeps them.
-/

namespace RankOne

/-- The variable whose value is one. -/
def unit : String := "one"

/-- Coefficients at places; a place may occur more than once and its coefficients add up. -/
abbrev Combination (ι : Type) := List (ι × Scalar)

structure Row (ι : Type) where
  left : Combination ι
  right : Combination ι
  out : Combination ι
deriving DecidableEq

namespace Row

def map {ι κ : Type} (f : ι → κ) (r : Row ι) : Row κ where
  left := r.left.map fun t => (f t.1, t.2)
  right := r.right.map fun t => (f t.1, t.2)
  out := r.out.map fun t => (f t.1, t.2)

/-- Every place that the row mentions, in the order left, right, out. -/
def places {ι : Type} (r : Row ι) : List ι := (r.left ++ r.right ++ r.out).map Prod.fst

/-- The terms of the row that belong to one of the matrices. -/
def terms {ι : Type} (r : Row ι) : Matrix → Combination ι
  | .A => r.left
  | .B => r.right
  | .C => r.out

end Row

inductive Gate (κ : Type) where
  /-- The product of `x` and `y` is `z`. -/
  | multiply (x y z : String)
  /-- The product of `x` and the constant is `z`. -/
  | scale (x : String) (k : κ) (z : String)
  /-- The sum of `x` and `y` is `z`. -/
  | add (x y z : String)
  /-- The difference of `x` and `y` is `z`. -/
  | subtract (x y z : String)
  /-- The variable is zero or one. -/
  | boolean (x : String)
  | equal (x y : String)
  /-- The variable has a constant value. -/
  | constant (x : String) (k : κ)
  /-- The weighted sum of the terms is `z`. -/
  | combination (terms : List (String × κ)) (z : String)

/-- The names mentioned before a refused constant, and why it was refused. -/
structure Refusal where
  names : List String
  fault : Fault

namespace Gate

def row : Gate Scalar → Row String
  | multiply x y z => ⟨[(x, 1)], [(y, 1)], [(z, 1)]⟩
  | scale x k z => ⟨[(x, 1)], [(unit, k)], [(z, 1)]⟩
  | add x y z => ⟨[(x, 1), (y, 1)], [(unit, 1)], [(z, 1)]⟩
  | subtract x y z => ⟨[(x, 1), (y, -1)], [(unit, 1)], [(z, 1)]⟩
  | boolean x => ⟨[(x, 1)], [(x, 1), (unit, -1)], []⟩
  | equal x y => ⟨[(x, 1)], [(unit, 1)], [(y, 1)]⟩
  | constant x k => ⟨[(unit, k)], [(unit, 1)], [(x, 1)]⟩
  | combination terms z => ⟨terms, [(unit, 1)], [(z, 1)]⟩

/-- The names that a gate mentions, in the order of the sides of its row. -/
def names (g : Gate Scalar) : List String := g.row.places

/-- Reads weights in order, up to the first one that is refused. -/
def readTerms : List (String × Value) → Except Refusal (Combination String)
  | [] => .ok []
  | (x, v) :: rest =>
    match v.scalar with
    | .error f => .error ⟨[x], f⟩
    | .ok a =>
      match readTerms rest with
      | .error r => .error ⟨x :: r.names, r.fault⟩
      | .ok terms => .ok ((x, a) :: terms)

/-- Reads the constants of a gate. The variable that a constant belongs to is mentioned before
the constant is read, the variable for the result after it. -/
def read : Gate Value → Except Refusal (Gate Scalar)
  | multiply x y z => .ok (.multiply x y z)
  | scale x v z =>
    match v.scalar with
    | .error f => .error ⟨[x], f⟩
    | .ok k => .ok (.scale x k z)
  | add x y z => .ok (.add x y z)
  | subtract x y z => .ok (.subtract x y z)
  | boolean x => .ok (.boolean x)
  | equal x y => .ok (.equal x y)
  | constant x v =>
    match v.scalar with
    | .error f => .error ⟨[x], f⟩
    | .ok k => .ok (.constant x k)
  | combination ts z =>
    match readTerms ts with
    | .error r => .error r
    | .ok terms => .ok (.combination terms z)

end Gate

end RankOne
