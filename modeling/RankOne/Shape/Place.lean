import RankOne.Fault

/-!
# Places

An index refers to one of so many places. Indices are integers of any size, but a place is looked
up by a signed word of 64 bits: an index that refers to no place fails for one of two reasons,
and which of them it is depends on whether the index is such a word.
-/

namespace RankOne

/-- One more than the greatest signed word. -/
def wordReach : Nat := 1 <<< 63

/-- The number is a signed word of 64 bits. -/
def IsWord (n : Int) : Prop := -(wordReach : Int) ≤ n ∧ n < wordReach

instance (n : Int) : Decidable (IsWord n) :=
  inferInstanceAs (Decidable (-(wordReach : Int) ≤ n ∧ n < wordReach))

/-- The place of an index among `size` places, counted from the end when it is negative. -/
def place (index : Int) (size : Nat) : Except Fault Nat :=
  let i := if index < 0 then index + size else index
  if 0 ≤ i ∧ i < size then .ok i.toNat
  else .error (if IsWord index then .entryOutOfReach else .indexTooLarge)

/-- An index that lies inside is its own place. -/
theorem place_of_lt {index : Int} {size : Nat} (h0 : 0 ≤ index) (h : index < size) :
    place index size = .ok index.toNat := by
  have hneg : ¬index < 0 := by omega
  simp [place, hneg, h0, h]

/-- What an index refers to is one of the places. -/
theorem lt_of_place {index : Int} {size k : Nat} (h : place index size = .ok k) : k < size := by
  simp only [place] at h
  generalize (if index < 0 then index + (size : Int) else index) = i at h
  split at h
  · rename_i hi
    have hk : i.toNat = k := Except.ok.inj h
    omega
  · cases h

end RankOne
