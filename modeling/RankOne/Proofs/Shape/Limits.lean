import RankOne.Shape.Limits
import Mathlib.Data.Int.Notation
import Mathlib.Data.Nat.Notation
import Mathlib.Logic.Basic

/-!
# What the limits of a machine forbid

A list with a place for each of a positive number of rows is made if there is memory for it. If there
is none, how the attempt ends depends on the number alone. A report is what it should be if every
integer in it can be written out, which holds for every signed word.
-/

namespace RankOne

/-- Rows that are counted by a word run out of memory, and more of them cannot be asked for. -/
def shortage (n : ℤ) : Fault := if n < wordReach then .outOfMemory else .rowCountTooLarge

theorem shortage_ne_malformed (n : ℤ) (cause : Malformation) : shortage n ≠ .malformed cause := by
  unfold shortage
  split <;> exact nofun

namespace Machine

variable (M : Machine)

theorem reserve_of_pos {n : ℤ} (h : 0 < n) :
    M.reserve n = if n < M.capacity then .ok n.toNat else .error (shortage n) := by
  have hle := M.capacity_le
  have hreach : longestList ≤ wordReach := by decide
  unfold reserve
  by_cases hword : IsWord n
  · have hshortage : shortage n = .outOfMemory := if_pos hword.2
    rw [if_neg (not_not.mpr hword), hshortage]
  · have hlarge : ¬n < wordReach := by
      unfold IsWord at hword
      omega
    have hshortage : shortage n = .rowCountTooLarge := if_neg hlarge
    have hroom : ¬n < M.capacity := by omega
    rw [if_pos hword, if_neg hroom, hshortage]

/-- A malformation is reported as it is if all its integers can be written out, and otherwise not at
all. -/
theorem report_eq_malformed_iff (cause cause' : Malformation) :
    M.report cause = .malformed cause' ↔ cause = cause' ∧ ∀ n ∈ cause.shown, M.Writes n := by
  unfold report Writes
  cases M.digits? with
  | none => simp
  | some d =>
    simp only [Option.mem_some_iff, forall_eq']
    split
    · rename_i h
      rw [Fault.malformed.injEq, and_iff_left h]
    · rename_i h
      simp only [h, reduceCtorEq, and_false]

theorem report_eq_digitsTooMany_iff (cause : Malformation) (d : ℕ) :
    M.report cause = .digitsTooMany d ↔
      M.digits? = some d ∧ ∃ n ∈ cause.shown, Nat.pow 10 d ≤ n.natAbs := by
  unfold report
  cases M.digits? with
  | none => simp
  | some d' =>
    dsimp only
    split
    · rename_i h
      constructor
      · nofun
      · rintro ⟨hd, n, hn, hlarge⟩
        obtain rfl := Option.some.inj hd
        exact absurd (h n hn) (Nat.not_lt.mpr hlarge)
    · rename_i h
      simp only [not_forall, Nat.not_lt, exists_prop] at h
      rw [Fault.digitsTooMany.injEq, Option.some.injEq]
      constructor
      · rintro rfl
        exact ⟨rfl, h⟩
      · exact fun hd => hd.1

theorem writes_of_isWord {n : ℤ} (h : IsWord n) : M.Writes n := by
  intro d hd
  have hd := M.digits_ge d hd
  have hpow : Nat.pow 10 19 ≤ Nat.pow 10 d := Nat.pow_le_pow_right (by decide) (by omega)
  have hreach : wordReach < Nat.pow 10 19 := by decide
  obtain ⟨hlow, hhigh⟩ := h
  omega

end Machine

/-- Whatever the limits are, a list that is made has the length that was asked for. -/
theorem Limits.eq_toNat_of_reserve {L : Limits} {n : ℤ} {rows : ℕ} (h : L.reserve n = .ok rows) :
    rows = n.toNat := by
  cases L with
  | none => exact (Except.ok.inj h).symm
  | some M =>
    simp only [reserve, Machine.reserve] at h
    split at h
    · cases h
    · split at h
      · exact (Except.ok.inj h).symm
      · cases h

end RankOne
