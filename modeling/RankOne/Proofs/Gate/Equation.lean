import RankOne.Gate
import RankOne.Proofs.Scalar.Field
import Mathlib.Algebra.BigOperators.Group.List.Basic

/-!
# Gates as equations

A row holds at values of its places when the product of its first two sides is the third. A gate
states an equation between values of names, and its row says the same wherever the variable `unit`
has the value one. Only the names that a gate mentions matter to it.
-/

namespace RankOne

def Combination.eval {ι : Type} (z : ι → Scalar) (c : Combination ι) : Scalar :=
  (c.map fun t => t.2 * z t.1).sum

namespace Combination

variable {ι κ : Type}

@[simp] theorem eval_nil (z : ι → Scalar) : eval z [] = 0 := rfl

@[simp] theorem eval_cons (z : ι → Scalar) (t : ι × Scalar) (c : Combination ι) :
    eval z (t :: c) = t.2 * z t.1 + eval z c := List.sum_cons

theorem eval_map (f : ι → κ) (z : κ → Scalar) (c : Combination ι) :
    eval z (c.map fun t => (f t.1, t.2)) = eval (z ∘ f) c := by
  unfold eval
  rw [List.map_map]
  rfl

theorem eval_congr {z z' : ι → Scalar} {c : Combination ι}
    (h : ∀ i ∈ c.map Prod.fst, z i = z' i) : eval z c = eval z' c := by
  unfold eval
  congr 1
  apply List.map_congr_left
  intro t ht
  rw [h t.1 (List.mem_map_of_mem ht)]

end Combination

namespace Row

variable {ι κ : Type}

def Holds (z : ι → Scalar) (r : Row ι) : Prop :=
  r.left.eval z * r.right.eval z = r.out.eval z

instance (z : ι → Scalar) (r : Row ι) : Decidable (r.Holds z) :=
  inferInstanceAs (Decidable (_ = _))

theorem holds_map (f : ι → κ) (z : κ → Scalar) (r : Row ι) :
    (r.map f).Holds z ↔ r.Holds (z ∘ f) := by
  unfold Holds map
  rw [Combination.eval_map, Combination.eval_map, Combination.eval_map]

theorem holds_congr {z z' : ι → Scalar} {r : Row ι} (h : ∀ i ∈ r.places, z i = z' i) :
    r.Holds z ↔ r.Holds z' := by
  simp only [places, List.map_append, List.mem_append] at h
  unfold Holds
  rw [Combination.eval_congr fun i hi => h i (Or.inl (Or.inl hi)),
    Combination.eval_congr fun i hi => h i (Or.inl (Or.inr hi)),
    Combination.eval_congr fun i hi => h i (Or.inr hi)]

end Row

namespace Gate

section

variable (x y z : String) (k : Scalar)

@[simp] theorem names_multiply : (multiply x y z : Gate Scalar).names = [x, y, z] := rfl
@[simp] theorem names_scale : (scale x k z).names = [x, unit, z] := rfl
@[simp] theorem names_add : (add x y z : Gate Scalar).names = [x, y, unit, z] := rfl
@[simp] theorem names_subtract : (subtract x y z : Gate Scalar).names = [x, y, unit, z] := rfl
@[simp] theorem names_boolean : (boolean x : Gate Scalar).names = [x, x, unit] := rfl
@[simp] theorem names_equal : (equal x y : Gate Scalar).names = [x, unit, y] := rfl
@[simp] theorem names_constant : (constant x k).names = [unit, unit, x] := rfl

@[simp] theorem names_combination (terms : Combination String) :
    (combination terms z).names = terms.map Prod.fst ++ [unit, z] := by
  simp [names, row, Row.places]

end

/-- The equation that a gate states about the values of its names. -/
def Holds (ρ : String → Scalar) : Gate Scalar → Prop
  | multiply x y z => ρ x * ρ y = ρ z
  | scale x k z => ρ x * k = ρ z
  | add x y z => ρ x + ρ y = ρ z
  | subtract x y z => ρ x - ρ y = ρ z
  | boolean x => ρ x = 0 ∨ ρ x = 1
  | equal x y => ρ x = ρ y
  | constant x k => ρ x = k
  | combination terms z => Combination.eval ρ terms = ρ z

instance (ρ : String → Scalar) (g : Gate Scalar) : Decidable (g.Holds ρ) := by
  cases g <;> unfold Holds <;> infer_instance

/-- The boolean row is the one place where zero divisors would matter. -/
theorem holds_row {ρ : String → Scalar} (hunit : ρ unit = 1) (g : Gate Scalar) :
    g.row.Holds ρ ↔ g.Holds ρ := by
  cases g with
  | boolean x =>
    have hfactor : ρ x * (ρ x - 1) = 0 ↔ ρ x = 0 ∨ ρ x = 1 := by rw [mul_eq_zero, sub_eq_zero]
    rw [Holds, ← hfactor]
    simp [Row.Holds, row, hunit, sub_eq_add_neg]
  | constant x k => simp [Row.Holds, row, Holds, hunit, eq_comm]
  | _ => simp [Row.Holds, row, Holds, hunit, sub_eq_add_neg]

theorem holds_congr {ρ ρ' : String → Scalar} {g : Gate Scalar} (h : ∀ x ∈ g.names, ρ x = ρ' x) :
    g.Holds ρ ↔ g.Holds ρ' := by
  cases g with
  | combination terms z =>
    rw [names_combination] at h
    have hterms : Combination.eval ρ terms = Combination.eval ρ' terms :=
      Combination.eval_congr fun x hx => h x (List.mem_append_left _ hx)
    have hz : ρ z = ρ' z := h z (by simp)
    simp only [Holds, hterms, hz]
  | _ =>
    simp only [names_multiply, names_scale, names_add, names_subtract, names_boolean, names_equal,
      names_constant, List.forall_mem_cons] at h
    simp only [Holds, h]

end Gate

/-! ## Counting the gates that fail -/

/-- The number of gates that do not hold. -/
def failing (ρ : String → Scalar) (gs : List (Gate Scalar)) : ℕ := gs.countP fun g => ¬g.Holds ρ

section

variable {ρ : String → Scalar}

theorem failing_append (gs gs' : List (Gate Scalar)) :
    failing ρ (gs ++ gs') = failing ρ gs + failing ρ gs' := List.countP_append

theorem failing_singleton (g : Gate Scalar) : failing ρ [g] = if g.Holds ρ then 0 else 1 := by
  rw [failing, List.countP_singleton]
  by_cases hg : g.Holds ρ <;> simp [hg]

theorem failing_eq_zero {gs : List (Gate Scalar)} (h : ∀ g ∈ gs, g.Holds ρ) :
    failing ρ gs = 0 := by
  rw [failing, List.countP_eq_zero]
  simpa using h

end

end RankOne
