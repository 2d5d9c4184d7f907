import RankOne.Membership
import RankOne.Proofs.Session.Statement

/-!
# What the rows of a membership statement say

Each row of the chain fixes one variable, so the last running product is the product of all
differences. The last row makes it zero, and without zero divisors one of the differences is.
-/

namespace RankOne.Membership

variable {ρ : String → Scalar}

/-- The values of the helpers from element `i` on, for a product before it. -/
def elementWrites (secret : String) (s : Scalar) :
    ℕ → Scalar → List Scalar → List (String × Scalar)
  | _, _, [] => []
  | i, product, e :: es =>
    let difference := s - e
    let next := if i = 0 then difference else product * difference
    let own :=
      if i = 0 then [(differenceVar secret i, difference)]
      else [(differenceVar secret i, difference), (runningVar secret i, next)]
    own ++ elementWrites secret s (i + 1) next es

/-! ## The chain -/

/-- The rows for one element fix its difference and the product up to it. -/
theorem elementGates_iff {secret element : String} {i : ℕ} {product : Scalar}
    (hfirst : i = 0 → product = 1) (hbefore : i ≠ 0 → ρ (runningVar secret (i - 1)) = product) :
    (∀ g ∈ elementGates secret element i, g.Holds ρ) ↔
      ρ (differenceVar secret i) = ρ secret - ρ element ∧
        ρ (runningVar secret i) = product * (ρ secret - ρ element) := by
  unfold elementGates
  by_cases hi : i = 0
  · have hrunning : runningVar secret i = differenceVar secret i := by
      rw [hi]
      rfl
    rw [if_pos hi, List.forall_mem_singleton, hrunning, hfirst hi, one_mul, and_self]
    exact eq_comm
  · rw [if_neg hi, List.forall_mem_cons, List.forall_mem_singleton]
    show ρ secret - ρ element = ρ (differenceVar secret i) ∧
      ρ (runningVar secret (i - 1)) * ρ (differenceVar secret i) = ρ (runningVar secret i) ↔ _
    rw [hbefore hi]
    constructor
    · intro h
      obtain ⟨hdifference, hproduct⟩ := h
      rw [← hdifference] at hproduct
      exact ⟨hdifference.symm, hproduct.symm⟩
    · intro h
      obtain ⟨hdifference, hproduct⟩ := h
      rw [hdifference]
      exact ⟨rfl, hproduct.symm⟩

theorem agrees_elementWrites_cons {secret : String} {s e product : Scalar} {es : List Scalar}
    {i : ℕ} (hfirst : i = 0 → product = 1) :
    Agrees ρ (elementWrites secret s i product (e :: es)) ↔
      (ρ (differenceVar secret i) = s - e ∧ ρ (runningVar secret i) = product * (s - e)) ∧
        Agrees ρ (elementWrites secret s (i + 1) (product * (s - e)) es) := by
  by_cases hi : i = 0
  · have hrunning : runningVar secret i = differenceVar secret i := by
      rw [hi]
      rfl
    rw [elementWrites, if_pos hi, if_pos hi, hrunning, hfirst hi, one_mul, and_self]
    exact agrees_cons
  · rw [elementWrites, if_neg hi, if_neg hi, and_assoc]
    show Agrees ρ ((_, _) :: (_, _) :: _) ↔ _
    rw [agrees_cons, agrees_cons]
    rfl

/-- The rows from element `i` on fix all helpers from there on. -/
theorem chain_iff (secret : String) (elements : List String) {i : ℕ} {product : Scalar}
    (hfirst : i = 0 → product = 1) (hbefore : i ≠ 0 → ρ (runningVar secret (i - 1)) = product) :
    (∀ g ∈ (elements.zipIdx i).flatMap fun e => elementGates secret e.1 e.2, g.Holds ρ) ↔
      Agrees ρ (elementWrites secret (ρ secret) i product (elements.map ρ)) := by
  -- The running variable before element `i` holds the product of the differences before it.
  induction elements generalizing i product with
  | nil => exact iff_of_true (List.forall_mem_nil _) (List.forall_mem_nil _)
  | cons x xs ih =>
    rw [List.zipIdx_cons, List.flatMap_cons, List.forall_mem_append,
      elementGates_iff hfirst hbefore, List.map_cons, agrees_elementWrites_cons hfirst]
    apply and_congr_right
    intro hall
    obtain ⟨-, hrunning⟩ := hall
    exact ih (fun h => absurd h (Nat.succ_ne_zero i)) fun _ => hrunning

/-- The product after the last element. -/
theorem running_last {secret : String} {s product : Scalar} {es : List Scalar} {i : ℕ}
    (hne : es ≠ []) (hfirst : i = 0 → product = 1)
    (h : Agrees ρ (elementWrites secret s i product es)) :
    ρ (runningVar secret (i + es.length - 1)) = product * (es.map (s - ·)).prod := by
  induction es generalizing i product with
  | nil => exact absurd rfl hne
  | cons e es ih =>
    obtain ⟨⟨-, hrunning⟩, hrest⟩ := (agrees_elementWrites_cons hfirst).mp h
    cases es with
    | nil => simpa using hrunning
    | cons e' es =>
      have hlast := ih (List.cons_ne_nil _ _) (fun h => absurd h (Nat.succ_ne_zero i)) hrest
      have hindex : i + (e :: e' :: es).length - 1 = i + 1 + (e' :: es).length - 1 := by
        simp only [List.length_cons]
        omega
      rw [hindex, hlast, List.map_cons (l := e' :: es), List.prod_cons, mul_assoc]

/-- The product of the differences is zero when the secret is one of the elements. -/
theorem prod_differences_eq_zero_iff (s : Scalar) (es : List Scalar) :
    (es.map (s - ·)).prod = 0 ↔ s ∈ es := by
  rw [List.prod_eq_zero_iff, List.mem_map]
  constructor
  · intro h
    obtain ⟨e, he, hzero⟩ := h
    rw [sub_eq_zero.mp hzero]
    exact he
  · intro hs
    exact ⟨s, hs, sub_self s⟩

theorem gates_iff {secret : String} {elements : List String} (hne : elements ≠ []) :
    (∀ g ∈ gates secret elements, g.Holds ρ) ↔
      ρ secret ∈ elements.map ρ ∧
        Agrees ρ (elementWrites secret (ρ secret) 0 1 (elements.map ρ)) := by
  have hne' : elements.map ρ ≠ [] := mt List.map_eq_nil_iff.mp hne
  have hchain := chain_iff (ρ := ρ) secret elements (i := 0) (fun _ => rfl)
    fun h => absurd rfl h
  unfold gates
  rw [List.forall_mem_append, List.forall_mem_singleton, hchain, and_comm]
  apply and_congr_left
  intro h
  have hlast := running_last hne' (fun _ => rfl) h
  rw [Nat.zero_add, List.length_map, one_mul] at hlast
  show ρ (runningVar secret (elements.length - 1)) = 0 ↔ _
  rw [hlast, prod_differences_eq_zero_iff]

end RankOne.Membership
