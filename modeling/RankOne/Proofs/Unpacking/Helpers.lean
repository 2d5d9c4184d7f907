import RankOne.Proofs.Unpacking.Solutions

/-!
# The helper variables of an unpacking

An unpacking of a variable mentions the variable, `unit` and its helpers, and gives each helper one
value. The name of a helper extends the name of the variable, and different helpers have different
names.
-/

namespace RankOne.Unpacking

inductive Helper where
  | bit (i : ℕ)
  | power (i : ℕ)
  | negPower
  | term (i : ℕ)
  | total (i : ℕ)
deriving DecidableEq

namespace Helper

def name (x : String) : Helper → String
  | bit i => bitVar x i
  | power i => powerVar x i
  | negPower => negPowerVar x
  | term i => termVar x i
  | total i => totalVar x i

/-- What follows the variable in the name of a helper. -/
def label : Helper → String
  | bit i => "_bit" ++ toString i
  | power i => "_power" ++ toString i
  | negPower => "_neg_power"
  | term i => "_term" ++ toString i
  | total i => "_total" ++ toString i

theorem name_eq (x : String) (h : Helper) : h.name x = x ++ h.label := by
  cases h with
  | negPower => rfl
  | _ i => exact String.append_assoc

theorem label_injective : Function.Injective label := by
  intro h h' heq
  have hletters := congrArg String.toList heq
  -- Helpers of different kinds differ in one of the first letters of their labels.
  cases h <;> cases h' <;> simp [label] at hletters ⊢ <;> exact numbered_injective heq

theorem name_injective (x : String) : Function.Injective (name x) := by
  intro h h' heq
  rw [name_eq, name_eq] at heq
  exact label_injective ((String.append_right_inj x).mp heq)

theorem length_lt_name (x : String) (h : Helper) : x.length < (h.name x).length := by
  have hlabel : 0 < h.label.length := by
    cases h with
    | negPower => decide
    | _ i =>
      rw [label, String.length_append]
      exact Nat.add_pos_left (by decide) _
  rw [name_eq, String.length_append]
  exact Nat.lt_add_of_pos_right hlabel

end Helper

variable (u : Unpacking) (x : String)

/-! ## The helpers that have values -/

def bitHelpers : List Helper := (List.range u.width).map .bit

def weightHelpers : List Helper := (List.range u.width).map .power ++ [.negPower]

def sumHelpers : List Helper :=
  .total 0 :: (List.range u.width).flatMap fun i => [.term i, .total (i + 1)]

/-- The helpers in the order in which they are given their values. -/
def helpers : List Helper :=
  match u.style with
  | .linear => u.bitHelpers
  | .chained => u.bitHelpers ++ u.weightHelpers ++ u.sumHelpers

theorem nodup_sumHelpers : u.sumHelpers.Nodup := by
  have hpairs : ((List.range u.width).flatMap fun i => [Helper.term i, .total (i + 1)]).Nodup := by
    rw [List.nodup_flatMap]
    constructor
    · intro i _
      simp
    · apply List.nodup_range.imp
      intro i j hij
      simp [Function.onFun, hij.symm]
  rw [sumHelpers, List.nodup_cons]
  exact ⟨by simp, hpairs⟩

theorem nodup_helpers : u.helpers.Nodup := by
  have hbits : u.bitHelpers.Nodup := List.nodup_range.map fun i j h => Helper.bit.inj h
  have hpowers : ((List.range u.width).map Helper.power).Nodup :=
    List.nodup_range.map fun i j h => Helper.power.inj h
  have hweights : u.weightHelpers.Nodup := by
    rw [weightHelpers, List.nodup_append]
    exact ⟨hpowers, List.nodup_singleton _, by simp⟩
  unfold helpers
  cases u.style with
  | linear => exact hbits
  | chained =>
    have hbitsWeights : (u.bitHelpers ++ u.weightHelpers).Nodup := by
      rw [List.nodup_append]
      exact ⟨hbits, hweights, by grind [bitHelpers, weightHelpers]⟩
    show (u.bitHelpers ++ u.weightHelpers ++ u.sumHelpers).Nodup
    rw [List.nodup_append]
    exact ⟨hbitsWeights, u.nodup_sumHelpers, by grind [bitHelpers, weightHelpers, sumHelpers]⟩

theorem map_fst_sumWrites (i : ℕ) (t : Scalar) (bs : List Bool) :
    (u.sumWrites x i t bs).map Prod.fst =
      (List.range' i bs.length).flatMap fun j => [termVar x j, totalVar x (j + 1)] := by
  induction bs generalizing i t with
  | nil => rfl
  | cons b bs ih =>
    rw [sumWrites, List.map_cons, List.map_cons, ih, List.length_cons, List.range'_succ,
      List.flatMap_cons]
    rfl

theorem map_fst_bitWrites (bits : List Bool) :
    (bitWrites x bits).map Prod.fst = (List.range bits.length).map (bitVar x) := by
  have hindices : bits.zipIdx.map Prod.snd = List.range bits.length := by
    rw [List.zipIdx_map_snd, List.range_eq_range']
  rw [bitWrites, List.map_map, ← hindices, List.map_map]
  rfl

/-- The names that are given values are those of the helpers. -/
theorem map_fst_writes {bits : List Bool} (h : bits.length = u.width) :
    (u.writes x bits).map Prod.fst = u.helpers.map (Helper.name x) := by
  have hbits : (bitWrites x bits).map Prod.fst = u.bitHelpers.map (Helper.name x) := by
    rw [map_fst_bitWrites, h, bitHelpers, List.map_map]
    rfl
  unfold writes helpers
  cases u.style with
  | linear => exact hbits
  | chained =>
    have hweights : (u.weightWrites x).map Prod.fst = u.weightHelpers.map (Helper.name x) := by
      rw [weightWrites, weightHelpers, List.map_append, List.map_append, List.map_map, List.map_map]
      rfl
    have hsums : ([(totalVar x 0, 0)] ++ u.sumWrites x 0 0 bits).map Prod.fst =
        u.sumHelpers.map (Helper.name x) := by
      rw [List.map_append, map_fst_sumWrites, h, sumHelpers, List.range_eq_range', List.map_cons,
        List.map_cons, List.map_flatMap]
      rfl
    show (bitWrites x bits ++ u.weightWrites x ++ [(totalVar x 0, 0)] ++
      u.sumWrites x 0 0 bits).map Prod.fst = _
    rw [List.append_assoc _ [(totalVar x 0, 0)], List.map_append, List.map_append, hbits, hweights,
      hsums, ← List.map_append, ← List.map_append]

/-! ## The names that the rows mention -/

/-- The name is `unit`, the unpacked variable or the name of a helper. -/
def Owns (y : String) : Prop := y = unit ∨ y = x ∨ ∃ h ∈ u.helpers, h.name x = y

variable {u x}

theorem owns_unit : u.Owns x unit := Or.inl rfl

theorem owns_self : u.Owns x x := Or.inr (Or.inl rfl)

theorem owns_helper {h : Helper} (hmem : h ∈ u.helpers) : u.Owns x (h.name x) :=
  Or.inr (Or.inr ⟨h, hmem, rfl⟩)

theorem bit_mem {i : ℕ} (hi : i < u.width) : Helper.bit i ∈ u.helpers := by
  unfold helpers
  cases u.style <;> simp [bitHelpers, hi]

theorem signVar_mem : u.signVar x ∈ u.helpers.map (Helper.name x) := by
  have htop := u.top_add_one
  exact List.mem_map_of_mem (bit_mem (i := u.top) (by omega))

theorem owns_bit {i : ℕ} (hi : i < u.width) : u.Owns x (bitVar x i) := owns_helper (bit_mem hi)

theorem owns_linearGates : ∀ g ∈ u.linearGates x, ∀ y ∈ g.names, u.Owns x y := by
  have hbits : ∀ i < u.width, u.Owns x (bitVar x i) := fun i hi => owns_bit hi
  simpa [linearGates, bitVars, or_imp, forall_and, owns_unit, owns_self] using hbits

section

variable (hstyle : u.style = .chained)

include hstyle

theorem helpers_chained : u.helpers = u.bitHelpers ++ u.weightHelpers ++ u.sumHelpers := by
  rw [helpers, hstyle]

theorem owns_power {i : ℕ} (hi : i < u.width) : u.Owns x (powerVar x i) := by
  have hmem : Helper.power i ∈ u.helpers := by simp [helpers_chained hstyle, weightHelpers, hi]
  exact owns_helper hmem

theorem owns_negPower : u.Owns x (negPowerVar x) := by
  have hmem : Helper.negPower ∈ u.helpers := by simp [helpers_chained hstyle, weightHelpers]
  exact owns_helper hmem

theorem owns_weight {i : ℕ} (hi : i < u.width) : u.Owns x (u.weightVar x i) := by
  unfold weightVar
  split
  · exact owns_negPower hstyle
  · exact owns_power hstyle hi

theorem owns_term {i : ℕ} (hi : i < u.width) : u.Owns x (termVar x i) := by
  have hmem : Helper.term i ∈ u.helpers := by simp [helpers_chained hstyle, sumHelpers, hi]
  exact owns_helper hmem

theorem owns_total {i : ℕ} (hi : i ≤ u.width) : u.Owns x (totalVar x i) := by
  have hmem : Helper.total i ∈ u.helpers := by
    cases i with
    | zero => simp [helpers_chained hstyle, sumHelpers]
    | succ i => simp [helpers_chained hstyle, sumHelpers, Nat.lt_of_succ_le hi]
  exact owns_helper hmem

theorem owns_weightGates : ∀ g ∈ u.weightGates x, ∀ y ∈ g.names, u.Owns x y := by
  have htop := u.top_add_one
  have hpower : ∀ i ≤ u.top, u.Owns x (powerVar x i) := fun i hi => owns_power hstyle (by omega)
  have hdouble : ∀ i < u.top, u.Owns x (powerVar x i) ∧ u.Owns x (powerVar x (i + 1)) :=
    fun i hi => ⟨hpower i hi.le, hpower (i + 1) hi⟩
  simpa [weightGates, or_imp, forall_and, owns_unit, owns_negPower hstyle, hpower] using hdouble

theorem owns_sumGates {i : ℕ} (hi : i < u.width) :
    ∀ g ∈ u.sumGates x i, ∀ y ∈ g.names, u.Owns x y := by
  have hbit : u.Owns x (bitVar x i) := owns_bit hi
  have hweight : u.Owns x (u.weightVar x i) := owns_weight hstyle hi
  have hterm : u.Owns x (termVar x i) := owns_term hstyle hi
  have hbefore : u.Owns x (totalVar x i) := owns_total hstyle hi.le
  have hafter : u.Owns x (totalVar x (i + 1)) := owns_total hstyle hi
  simp [sumGates, hbit, hweight, hterm, hbefore, hafter, owns_unit]

theorem owns_chainedGates : ∀ g ∈ u.chainedGates x, ∀ y ∈ g.names, u.Owns x y := by
  have hfirst : u.Owns x (totalVar x 0) := owns_total hstyle (Nat.zero_le _)
  have hlast : u.Owns x (totalVar x u.width) := owns_total hstyle (Nat.le_refl _)
  unfold chainedGates
  simp only [List.forall_mem_append, List.forall_mem_singleton, List.forall_mem_flatMap]
  refine ⟨⟨⟨owns_weightGates hstyle, ?_⟩, ?_⟩, ?_⟩
  · simp [owns_unit, hfirst]
  · intro i hi
    exact owns_sumGates hstyle (List.mem_range.mp hi)
  · simp [owns_unit, owns_self, hlast]

end

theorem owns_gates : ∀ g ∈ u.gates x, ∀ y ∈ g.names, u.Owns x y := by
  unfold gates
  split
  · exact owns_linearGates
  · rename_i hstyle
    exact owns_chainedGates hstyle

theorem mentions_linearGates {h : Helper} (hmem : h ∈ u.bitHelpers) :
    Mentions (u.linearGates x) (h.name x) := by
  obtain ⟨i, hi, rfl⟩ := List.mem_map.mp hmem
  have hrow : Gate.boolean (bitVar x i) ∈ u.linearGates x :=
    List.mem_append_left _ (List.mem_map_of_mem (List.mem_map_of_mem hi))
  exact ⟨_, hrow, List.mem_cons_self⟩

theorem mem_weightGates {g : Gate Scalar} (hg : g ∈ u.weightGates x) : g ∈ u.chainedGates x := by
  simp [chainedGates, hg]

theorem mem_sumGates {g : Gate Scalar} {i : ℕ} (hi : i < u.width) (hg : g ∈ u.sumGates x i) :
    g ∈ u.chainedGates x := by
  have hsum : ∃ j < u.width, g ∈ u.sumGates x j := ⟨i, hi, hg⟩
  simp [chainedGates, hsum]

theorem mentions_chainedGates {h : Helper}
    (hmem : h ∈ u.bitHelpers ++ u.weightHelpers ++ u.sumHelpers) :
    Mentions (u.chainedGates x) (h.name x) := by
  have htop := u.top_add_one
  simp only [List.mem_append, bitHelpers, weightHelpers, sumHelpers, List.mem_map, List.mem_range,
    List.mem_cons, List.mem_flatMap, List.not_mem_nil, or_false] at hmem
  rcases hmem with (⟨i, hi, rfl⟩ | ⟨i, hi, rfl⟩ | rfl) | rfl | ⟨i, hi, rfl | rfl⟩
  · have hrow : Gate.boolean (bitVar x i) ∈ u.chainedGates x := mem_sumGates hi (by simp [sumGates])
    exact ⟨_, hrow, by simp [Helper.name]⟩
  · cases i with
    | zero => exact ⟨_, mem_weightGates List.mem_cons_self, by simp [Helper.name]⟩
    | succ i =>
      have hlt : i ∈ List.range u.top := List.mem_range.mpr (by omega)
      have hrow : Gate.scale (powerVar x i) (.ofNat 2) (powerVar x (i + 1)) ∈ u.weightGates x :=
        List.mem_cons_of_mem _ (List.mem_append_left _ (List.mem_map.mpr ⟨i, hlt, rfl⟩))
      exact ⟨_, mem_weightGates hrow, by simp [Helper.name]⟩
  · have hrow : Gate.scale (powerVar x u.top) (-1) (negPowerVar x) ∈ u.weightGates x := by
      simp [weightGates]
    exact ⟨_, mem_weightGates hrow, by simp [Helper.name]⟩
  · have hrow : Gate.constant (totalVar x 0) 0 ∈ u.chainedGates x := by simp [chainedGates]
    exact ⟨_, hrow, by simp [Helper.name]⟩
  · have hrow : Gate.multiply (bitVar x i) (u.weightVar x i) (termVar x i) ∈ u.chainedGates x :=
      mem_sumGates hi (by simp [sumGates])
    exact ⟨_, hrow, by simp [Helper.name]⟩
  · have hrow : Gate.add (totalVar x i) (termVar x i) (totalVar x (i + 1)) ∈ u.chainedGates x :=
      mem_sumGates hi (by simp [sumGates])
    exact ⟨_, hrow, by simp [Helper.name]⟩

/-- The rows mention `unit`, the unpacked variable and the helpers, and nothing else. -/
theorem mentions_gates_iff {y : String} :
    y = unit ∨ Mentions (u.gates x) y ↔
      y = unit ∨ y = x ∨ y ∈ u.helpers.map (Helper.name x) := by
  rw [List.mem_map]
  constructor
  · intro hall
    rcases hall with hy | ⟨g, hg, hy⟩
    · exact Or.inl hy
    · exact owns_gates g hg y hy
  · intro hall
    rcases hall with rfl | rfl | ⟨h, hmem, rfl⟩
    · exact Or.inl rfl
    · right
      unfold gates
      cases u.style with
      | linear => exact ⟨_, List.mem_append_right _ List.mem_cons_self, by simp⟩
      | chained => exact ⟨_, List.mem_append_right _ List.mem_cons_self, by simp⟩
    · right
      unfold helpers at hmem
      unfold gates
      cases hstyle : u.style <;> rw [hstyle] at hmem
      · exact mentions_linearGates hmem
      · exact mentions_chainedGates hmem

end RankOne.Unpacking
