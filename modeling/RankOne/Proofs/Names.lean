import RankOne.Names
import RankOne.Scalar.Basic
import Mathlib.Data.List.GetD

/-!
# Tables of names

A vector with one entry for each index gives every name of a table a value, and every assignment of
values to names gives such a vector. Numbered names with one stem are pairwise different, because a
number can be read back from its digits.
-/

namespace RankOne

theorem toString_injective {i j : ℕ} (h : toString i = toString j) : i = j := by
  have hdigits : Nat.toDigits 10 i = Nat.toDigits 10 j := by
    have hletters := congrArg String.toList h
    simpa using hletters
  rw [← Nat.ofDigitChars_ten_toDigits (n := i), hdigits, Nat.ofDigitChars_ten_toDigits]

theorem numbered_injective {stem : String} {i j : ℕ} (h : stem ++ toString i = stem ++ toString j) :
    i = j := toString_injective ((String.append_right_inj stem).mp h)

namespace Names

theorem insertAll_nil (t : Names) : t.insertAll [] = t := rfl

theorem insertAll_cons (t : Names) (x : String) (xs : List String) :
    t.insertAll (x :: xs) = (t.insert x).insertAll xs := rfl

theorem insertAll_append (t : Names) (xs ys : List String) :
    t.insertAll (xs ++ ys) = (t.insertAll xs).insertAll ys := List.foldl_append

/-- The value that a vector gives to a name. -/
def valuation (t : Names) (vs : List Scalar) (x : String) : Scalar := vs.getD (t.position x) 0

/-- The vector that gives every name its value. -/
def arrange (t : Names) (ρ : String → Scalar) : List Scalar := t.toList.map ρ

theorem length_arrange (t : Names) (ρ : String → Scalar) : (t.arrange ρ).length = t.size :=
  List.length_map _

theorem valuation_arrange (t : Names) (ρ : String → Scalar) {x : String} (h : x ∈ t) :
    t.valuation (t.arrange ρ) x = ρ x := by
  have hlt : t.toList.idxOf x < t.toList.length := position_lt h
  have hlt' : t.toList.idxOf x < (t.toList.map ρ).length := by rw [List.length_map]; exact hlt
  rw [valuation, arrange, position, List.getD_eq_getElem _ _ hlt', List.getElem_map,
    List.getElem_idxOf]

theorem arrange_valuation (t : Names) {vs : List Scalar} (h : vs.length = t.size) :
    t.arrange (t.valuation vs) = vs := by
  apply List.ext_getElem
  · rw [length_arrange, h]
  · intro i hi hi'
    have hi'' : i < t.toList.length := by rw [length_arrange] at hi; exact hi
    have hmap : (t.arrange (t.valuation vs))[i] = t.valuation vs (t.toList[i]) := List.getElem_map _
    rw [hmap, valuation, position, t.nodup.idxOf_getElem i hi'', List.getD_eq_getElem _ _ hi']

theorem arrange_eq_iff (t : Names) {vs : List Scalar} (h : vs.length = t.size)
    (ρ : String → Scalar) : vs = t.arrange ρ ↔ ∀ x ∈ t, t.valuation vs x = ρ x := by
  constructor
  · rintro rfl x hx
    exact valuation_arrange t ρ hx
  · intro hall
    rw [← arrange_valuation t h]
    exact List.map_congr_left hall

end Names

end RankOne
