import RankOne.Names
import RankOne.Value

/-!
# Witness values

A witness gives values to names, in the order in which they were given and never twice. It is
independent of the table of names until `layOut` lays it out by index, which needs the two to
hold the same names.
-/

namespace RankOne

structure Witness where
  toList : List (String × Scalar)
  nodup : (toList.map Prod.fst).Nodup

namespace Witness

def empty : Witness := ⟨[], List.nodup_nil⟩

def size (w : Witness) : Nat := w.toList.length

def names (w : Witness) : List String := w.toList.map Prod.fst

def get? (w : Witness) (x : String) : Option Scalar := w.toList.lookup x

def value (w : Witness) (x : String) : Except Fault Scalar :=
  match w.get? x with
  | some a => .ok a
  | none => .error (.noValue x)

/-- Adds a value for a name that has none. -/
def insert (w : Witness) (x : String) (a : Scalar) (h : x ∉ w.names) : Witness :=
  ⟨w.toList ++ [(x, a)], by
    rw [List.map_append, List.nodup_append]
    refine ⟨w.nodup, by simp, ?_⟩
    intro y hy z hz hyz
    have hzx : z = x := by simpa using hz
    rw [hyz, hzx] at hy
    exact h hy⟩

/-- Gives a name its value. A second value for a name is refused before it is looked at. -/
def assign (w : Witness) (x : String) (v : Value) : Except Fault Witness :=
  if h : x ∈ w.names then .error (.duplicate x)
  else do
    let a ← v.scalar
    return w.insert x a h

/-- The encoded values in the order of the names' indices. -/
def layOut (w : Witness) (t : Names) : Except Fault (List Bytes) :=
  let valued := w.names
  let missing := t.toList.filter (· ∉ valued)
  let unknown := valued.filter (· ∉ t)
  if missing = [] ∧ unknown = [] then
    .ok (t.toList.map fun x => ((w.get? x).getD 0).encode)
  else .error (.incomplete w.size t.size missing unknown)

theorem names_insert (w : Witness) (x : String) (a : Scalar) (h : x ∉ w.names) :
    (w.insert x a h).names = w.names ++ [x] := by
  simp [names, insert]

end Witness

end RankOne
