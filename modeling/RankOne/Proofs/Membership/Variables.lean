import RankOne.Proofs.Membership.Solutions

/-!
# The variables of a membership statement

A statement about so many elements has a variable for each element and each difference, one for the
secret, and one for each running product but the first, which is the first difference. Different
variables have different names.
-/

namespace RankOne.Membership

inductive Variable where
  | one
  | member (i : ℕ)
  | secret
  | difference (i : ℕ)
  | product (i : ℕ)
deriving DecidableEq

namespace Variable

def name : Variable → String
  | one => unit
  | member i => memberVar i
  | secret => secretVar
  | difference i => differenceVar secretVar i
  | product i => s!"{secretVar}_product{i}"

theorem name_member (i : ℕ) : (member i).name = "set[" ++ toString i ++ "]" := rfl

theorem name_difference (i : ℕ) : (difference i).name = "secret_diff" ++ toString i := rfl

theorem name_product (i : ℕ) : (product i).name = "secret_product" ++ toString i := rfl

theorem name_injective : Function.Injective name := by
  intro v v' heq
  have hone : one.name = "one" := rfl
  have hsecret : secret.name = "secret" := rfl
  have hletters := congrArg String.toList heq
  cases v <;> cases v' <;>
    simp [hone, hsecret, name_member, name_difference, name_product] at hletters ⊢
  case member i j => exact numbered_injective ((String.append_left_inj "]").mp heq)
  case difference i j => exact numbered_injective heq
  case product i j => exact numbered_injective heq

end Variable

/-- The variable for the product of the differences up to `i`. -/
def running (i : ℕ) : Variable := if i = 0 then .difference 0 else .product i

theorem runningVar_eq (i : ℕ) : runningVar secretVar i = (running i).name := by
  unfold runningVar running
  split <;> rfl

/-- The variables that belong to element `i`. -/
def helpers (i : ℕ) : List Variable :=
  if i = 0 then [.difference 0] else [.difference i, .product i]

/-- The variables of a statement about so many elements, in the order of their indices. -/
def allVariables (n : ℕ) : List Variable :=
  .one :: (List.range n).map .member ++ .secret :: (List.range n).flatMap helpers

theorem mem_helpers {i : ℕ} {v : Variable} :
    v ∈ helpers i ↔ v = .difference i ∨ v = running i := by
  unfold helpers running
  split
  · rename_i hi
    simp [hi]
  · simp

theorem nodup_helpers (i : ℕ) : (helpers i).Nodup := by
  unfold helpers
  split <;> simp

theorem disjoint_helpers {i j : ℕ} (h : i ≠ j) : (helpers i).Disjoint (helpers j) := by
  intro v hi hj
  unfold helpers at hi hj
  grind

theorem nodup_allVariables (n : ℕ) : (allVariables n).Nodup := by
  have hmembers : (Variable.one :: (List.range n).map Variable.member).Nodup := by
    rw [List.nodup_cons]
    exact ⟨by simp, List.nodup_range.map fun i j h => Variable.member.inj h⟩
  have hhelpers : ((List.range n).flatMap helpers).Nodup := by
    rw [List.nodup_flatMap]
    exact ⟨fun i _ => nodup_helpers i, List.nodup_range.imp fun h => disjoint_helpers h⟩
  have hsecret : (Variable.secret :: (List.range n).flatMap helpers).Nodup := by
    rw [List.nodup_cons]
    exact ⟨by grind [helpers], hhelpers⟩
  unfold allVariables
  rw [List.nodup_append]
  exact ⟨hmembers, hsecret, by grind [helpers]⟩

/-! ## The names that are given values and the names that are mentioned -/

def members (n : ℕ) : List String := (List.range n).map memberVar

/-- The values of all variables but `unit`, for a value of the secret. -/
def values (es : List Scalar) (s : Scalar) : List (String × Scalar) :=
  (members es.length).zip es ++ (secretVar, s) :: elementWrites secretVar s 0 1 es

theorem map_fst_elementWrites (s : Scalar) (i : ℕ) (product : Scalar) (es : List Scalar) :
    (elementWrites secretVar s i product es).map Prod.fst =
      ((List.range' i es.length).flatMap helpers).map Variable.name := by
  induction es generalizing i product with
  | nil => rfl
  | cons e es ih =>
    rw [elementWrites, List.map_append, ih, List.length_cons, List.range'_succ, List.flatMap_cons,
      List.map_append]
    congr 1
    by_cases hi : i = 0
    · rw [if_pos hi, helpers, if_pos hi, hi]
      rfl
    · have hrunning : runningVar secretVar i = (Variable.product i).name := by
        rw [runningVar_eq, running, if_neg hi]
      rw [if_neg hi, if_neg hi, hrunning, helpers, if_neg hi]
      rfl

theorem map_fst_values (es : List Scalar) (s : Scalar) :
    ((unit, 1) :: values es s).map Prod.fst = (allVariables es.length).map Variable.name := by
  have hmembers : ((members es.length).zip es).map Prod.fst =
      ((List.range es.length).map Variable.member).map Variable.name := by
    rw [List.map_fst_zip (by simp [members]), members, List.map_map]
    rfl
  rw [List.map_cons, values, List.map_append, hmembers, List.map_cons, map_fst_elementWrites,
    allVariables, ← List.range_eq_range', List.map_append, List.map_cons, List.map_cons]
  rfl

theorem nodup_values (es : List Scalar) (s : Scalar) :
    (((unit, 1) :: values es s).map Prod.fst).Nodup := by
  rw [map_fst_values]
  exact (nodup_allVariables es.length).map Variable.name_injective

/-- The rows that publish the elements. -/
def constants (es : List Scalar) : List (Gate Scalar) :=
  ((members es.length).zip es).map fun p => .constant p.1 p.2

theorem gates_members (n : ℕ) :
    gates secretVar (members n) =
      ((List.range n).flatMap fun i => elementGates secretVar (memberVar i) i) ++
        [.constant (runningVar secretVar (n - 1)) 0] := by
  have hindices : (members n).zipIdx = (List.range n).map fun i => (memberVar i, i) := by
    apply List.ext_getElem
    · simp [members]
    · intro i hi hi'
      simp [members]
  rw [gates, hindices, List.flatMap_map, members, List.length_map, List.length_range]

/-- The name is one of the variables of a statement about so many elements. -/
def Owns (n : ℕ) (y : String) : Prop := ∃ v ∈ allVariables n, v.name = y

section

variable {n i : ℕ}

theorem owns_unit : Owns n unit := ⟨.one, by simp [allVariables], rfl⟩

theorem owns_secret : Owns n secretVar := ⟨.secret, by simp [allVariables], rfl⟩

theorem owns_member (hi : i < n) : Owns n (memberVar i) :=
  ⟨.member i, by simp [allVariables, hi], rfl⟩

theorem owns_helper (hi : i < n) {v : Variable} (hv : v ∈ helpers i) : Owns n v.name := by
  have hmem : v ∈ (List.range n).flatMap helpers :=
    List.mem_flatMap.mpr ⟨i, List.mem_range.mpr hi, hv⟩
  exact ⟨v, List.mem_append_right _ (List.mem_cons_of_mem _ hmem), rfl⟩

theorem owns_difference (hi : i < n) : Owns n (differenceVar secretVar i) :=
  owns_helper hi (mem_helpers.mpr (Or.inl rfl))

theorem owns_running (hi : i < n) : Owns n (runningVar secretVar i) := by
  rw [runningVar_eq]
  exact owns_helper hi (mem_helpers.mpr (Or.inr rfl))

theorem owns_elementGates (hi : i < n) :
    ∀ g ∈ elementGates secretVar (memberVar i) i, ∀ y ∈ g.names, Owns n y := by
  have hmember := owns_member hi
  have hdifference := owns_difference hi
  have hrunning := owns_running hi
  have hbefore : Owns n (runningVar secretVar (i - 1)) := owns_running (by omega)
  unfold elementGates
  split <;> simp [owns_unit, owns_secret, hmember, hdifference, hrunning, hbefore]

theorem owns_constants (es : List Scalar) :
    ∀ g ∈ constants es, ∀ y ∈ g.names, Owns es.length y := by
  unfold constants
  rw [List.forall_mem_map]
  intro p hp
  obtain ⟨i, hi, heq⟩ := List.mem_map.mp (List.of_mem_zip hp).1
  have hmember : Owns es.length p.1 := heq ▸ owns_member (List.mem_range.mp hi)
  simp [owns_unit, hmember]

theorem owns_gates (hpos : 0 < n) :
    ∀ g ∈ gates secretVar (members n), ∀ y ∈ g.names, Owns n y := by
  have hlast : Owns n (runningVar secretVar (n - 1)) := owns_running (by omega)
  rw [gates_members, List.forall_mem_append, List.forall_mem_flatMap, List.forall_mem_singleton]
  constructor
  · intro i hi
    exact owns_elementGates (List.mem_range.mp hi)
  · simp [owns_unit, hlast]

theorem subtraction_mem (hi : i < n) :
    .subtract secretVar (memberVar i) (differenceVar secretVar i) ∈
      gates secretVar (members n) := by
  have hrow : Gate.subtract secretVar (memberVar i) (differenceVar secretVar i) ∈
      elementGates secretVar (memberVar i) i := by
    unfold elementGates
    split <;> simp
  rw [gates_members]
  exact List.mem_append_left _ (List.mem_flatMap.mpr ⟨i, List.mem_range.mpr hi, hrow⟩)

theorem multiplication_mem (hi : i < n) (hne : i ≠ 0) :
    .multiply (runningVar secretVar (i - 1)) (differenceVar secretVar i)
      (runningVar secretVar i) ∈ gates secretVar (members n) := by
  have hrow : Gate.multiply (runningVar secretVar (i - 1)) (differenceVar secretVar i)
      (runningVar secretVar i) ∈ elementGates secretVar (memberVar i) i := by
    unfold elementGates
    rw [if_neg hne]
    simp
  rw [gates_members]
  exact List.mem_append_left _ (List.mem_flatMap.mpr ⟨i, List.mem_range.mpr hi, hrow⟩)

theorem mentions_helper (hi : i < n) {v : Variable} (hv : v ∈ helpers i) :
    Mentions (gates secretVar (members n)) v.name := by
  have hsubtraction := subtraction_mem hi
  rcases mem_helpers.mp hv with rfl | rfl
  · exact ⟨_, hsubtraction, by simp [Variable.name]⟩
  · by_cases hne : i = 0
    · rw [running, if_pos hne, ← hne]
      exact ⟨_, hsubtraction, by simp [Variable.name]⟩
    · exact ⟨_, multiplication_mem hi hne, by simp [runningVar_eq]⟩

theorem mentions_of_owns (hpos : 0 < n) {y : String} (h : Owns n y) :
    y = unit ∨ Mentions (gates secretVar (members n)) y := by
  obtain ⟨v, hv, rfl⟩ := h
  simp only [allVariables, List.mem_append, List.mem_cons, List.mem_map, List.mem_range,
    List.mem_flatMap] at hv
  rcases hv with (rfl | ⟨i, hi, rfl⟩) | rfl | ⟨i, hi, hv⟩
  · exact Or.inl rfl
  · exact Or.inr ⟨_, subtraction_mem hi, by simp [Variable.name]⟩
  · exact Or.inr ⟨_, subtraction_mem hpos, by simp [Variable.name]⟩
  · exact Or.inr (mentions_helper hi hv)

end

/-- The rows mention the variables that are given values, and no others. -/
theorem mentions_values {es : List Scalar} (hne : es ≠ []) (s : Scalar) (y : String) :
    y ∈ (Session.ofGates (constants es ++ gates secretVar (members es.length))).names ↔
      y ∈ ((unit, 1) :: values es s).map Prod.fst := by
  have hpos : 0 < es.length := List.length_pos_iff.mpr hne
  rw [Session.mem_ofGates, map_fst_values, mentions_append, List.mem_map]
  constructor
  · intro hall
    rcases hall with rfl | ⟨g, hg, hy⟩ | ⟨g, hg, hy⟩
    · exact owns_unit
    · exact owns_constants es g hg y hy
    · exact owns_gates hpos g hg y hy
  · intro h
    rcases mentions_of_owns hpos h with hunit | hmentions
    · exact Or.inl hunit
    · exact Or.inr (Or.inr hmentions)

end RankOne.Membership
