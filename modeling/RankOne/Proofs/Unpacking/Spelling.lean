import RankOne.Proofs.Session.History
import RankOne.Proofs.Unpacking.Helpers
import Mathlib.Algebra.BigOperators.Group.Finset.Basic

/-!
# What an unpacked variable and its helpers spell

In any system in which an unpacking has been imposed, whatever else has been added before or after,
the vectors that satisfy the system give the bits of the variable the two's complement of its
integer, and every other helper its one value. Conversely the values that an unpacking gives to the
helpers of a variable that fits the width satisfy every row that it has imposed.
-/

namespace RankOne

namespace Unpacking

/-! ## Names -/

theorem Helper.name_ne (h : Helper) (x : String) : h.name x ≠ x := by
  intro heq
  have hlt := h.length_lt_name x
  rw [heq] at hlt
  exact absurd hlt (Nat.lt_irrefl _)

theorem Helper.name_ne_unit (h : Helper) (x : String) : h.name x ≠ unit := by
  intro heq
  have hmem : '_' ∈ (h.name x).toList := by
    rw [h.name_eq, String.toList_append]
    apply List.mem_append_right
    cases h <;> simp [Helper.label]
  rw [heq] at hmem
  exact absurd hmem (by decide)

/-! ## Helpers -/

variable {ρ : String → Scalar} {x : String} (u : Unpacking)

/-- The values give the helpers of a variable what they are meant to hold: the bits are those of
the variable's integer, the last one tells its sign, and in the chained style there are the powers
of two, the negative weight of the last bit, the weighted bits and the sums of these. -/
structure Spells (x : String) (ρ : String → Scalar) : Prop where
  fits : Fits u.width (ρ x).toInt
  bit : ∀ i < u.width, ρ (bitVar x i) = ((ρ x).toInt / 2 ^ i % 2 : ℤ)
  sign : ρ (u.signVar x) = 1 ↔ (ρ x).toInt < 0
  power : u.style = .chained → ∀ i < u.width, ρ (powerVar x i) = 2 ^ i
  negPower : u.style = .chained → ρ (negPowerVar x) = -2 ^ (u.width - 1)
  term : u.style = .chained → ∀ i < u.width,
    ρ (termVar x i) = ρ (bitVar x i) * if i = u.width - 1 then -2 ^ i else 2 ^ i
  total : u.style = .chained → ∀ i ≤ u.width,
    ρ (totalVar x i) = ∑ j ∈ Finset.range i, ρ (termVar x j)

/-- The bits of a variable that fits the width. -/
theorem bitVar_eq_of_fits {a : Scalar} (hfits : Fits u.width a.toInt)
    (h : Agrees ρ (u.writes x (twosComplement u.width a))) {i : ℕ} (hi : i < u.width) :
    ρ (bitVar x i) = (a.toInt / 2 ^ i % 2 : ℤ) := by
  have hlen := length_twosComplement u.width a
  have hlt : i < (twosComplement u.width a).length := by rw [hlen]; exact hi
  have hbit := patternToInt_bit hlt
  rw [patternToInt_twosComplement u.two_le u.le_max hfits] at hbit
  rw [u.bitVar_eq hlen h hi, hbit]
  cases (twosComplement u.width a)[i] <;> simp

theorem signVar_eq_one_iff {a : Scalar} (hfits : Fits u.width a.toInt)
    (h : Agrees ρ (u.writes x (twosComplement u.width a))) :
    ρ (u.signVar x) = 1 ↔ a.toInt < 0 := by
  have hzero := u.sign_eq_zero_iff hfits h
  have hsign := u.signVar_eq (length_twosComplement u.width a) h
  rw [← not_le, ← hzero, hsign]
  cases signBit (twosComplement u.width a) <;> simp

theorem weight_eq {i : ℕ} :
    u.weight i = if i = u.width - 1 then -2 ^ i else 2 ^ i := by
  rw [weight, Scalar.twoTo_eq]
  rfl

section

variable (hgates : ∀ g ∈ u.chainedGates x, g.Holds ρ)

include hgates

theorem agrees_weightWrites : Agrees ρ (u.weightWrites x) :=
  u.weightGates_iff.mp fun g hg => hgates g (mem_weightGates hg)

theorem termVar_eq {i : ℕ} (hi : i < u.width) :
    ρ (termVar x i) = ρ (bitVar x i) * if i = u.width - 1 then -2 ^ i else 2 ^ i := by
  have hrow : (Gate.multiply (bitVar x i) (u.weightVar x i) (termVar x i)).Holds ρ :=
    hgates _ (mem_sumGates hi (by simp [sumGates]))
  have hweight := u.weightVar_eq (u.agrees_weightWrites hgates) hi
  rw [Gate.Holds, hweight, weight_eq] at hrow
  exact hrow.symm

/-- Each total adds one weighted bit to the total before it. -/
theorem totalVar_eq {i : ℕ} (hi : i ≤ u.width) :
    ρ (totalVar x i) = ∑ j ∈ Finset.range i, ρ (termVar x j) := by
  induction i with
  | zero => exact hgates (.constant (totalVar x 0) 0) (by simp [chainedGates])
  | succ i ih =>
    have hrow : (Gate.add (totalVar x i) (termVar x i) (totalVar x (i + 1))).Holds ρ :=
      hgates _ (mem_sumGates hi (by simp [sumGates]))
    rw [Finset.sum_range_succ, ← ih (Nat.le_of_succ_le hi)]
    exact hrow.symm

end

theorem spells_of_gates (h : ∀ g ∈ u.gates x, g.Holds ρ) : u.Spells x ρ := by
  obtain ⟨hfits, hwrites⟩ := u.gates_iff.mp h
  have hchained : u.style = .chained → ∀ g ∈ u.chainedGates x, g.Holds ρ := by
    intro hstyle
    unfold gates at h
    rw [hstyle] at h
    exact h
  constructor
  case fits => exact hfits
  case bit => exact fun i hi => u.bitVar_eq_of_fits hfits hwrites hi
  case sign => exact u.signVar_eq_one_iff hfits hwrites
  case power =>
    intro hstyle i hi
    have hpowers := (agrees_append.mp (u.agrees_weightWrites (hchained hstyle))).1
    have hpower := hpowers _ (List.mem_map_of_mem (List.mem_range.mpr hi))
    rw [Scalar.twoTo_eq] at hpower
    exact hpower
  case negPower =>
    intro hstyle
    have hneg := (agrees_append.mp (u.agrees_weightWrites (hchained hstyle))).2 _
      List.mem_cons_self
    rw [Scalar.twoTo_eq] at hneg
    exact hneg
  case term => exact fun hstyle i hi => u.termVar_eq (hchained hstyle) hi
  case total => exact fun hstyle i hi => u.totalVar_eq (hchained hstyle) hi

/-! ## Values -/

/-- An unpacking of a value that fits succeeds where no helper has a value, and gives each helper
the one that belongs to the pattern. -/
theorem adds_fill {t : Session} (hopen : t.closed = false)
    (hfree : ∀ h ∈ u.helpers, h.name x ∉ t.witness.names) {v : Value} {a : Scalar}
    (hv : v.scalar = .ok a) (hfits : Fits u.width a.toInt) :
    Session.Adds (u.fill x v) t [] (u.writes x (twosComplement u.width a)) := by
  have hfresh : (t.witness.names ++
      (u.writes x (twosComplement u.width a)).map Prod.fst).Nodup := by
    rw [u.map_fst_writes x (length_twosComplement u.width a), List.nodup_append]
    refine ⟨t.witness.nodup, u.nodup_helpers.map (Helper.name_injective x), ?_⟩
    intro y hy z hz hyz
    obtain ⟨h, hmem, rfl⟩ := List.mem_map.mp hz
    exact hfree h hmem (hyz ▸ hy)
  have hpattern : u.pattern a = .ok (twosComplement u.width a) := pattern_of_fits fun _ => hfits
  have hfill : u.fill x v = (do
      (Script.done (u.writes x (twosComplement u.width a))).perform
      return twosComplement u.width a) := by
    simp only [fill, hv]
    show (do
      let bits ← MonadExcept.ofExcept (u.pattern a)
      (Script.done (u.writes x bits)).perform
      return bits) = _
    rw [hpattern]
    rfl
  have h := Session.Adds.bind (Session.adds_perform _ hopen hfresh)
    fun _ t' _ => Session.Adds.pure (twosComplement u.width a) t'
  rw [List.append_nil, List.append_nil] at h
  rw [hfill]
  exact h

/-! ## Systems in which an unpacking has been imposed -/

section

variable {before after : List Step}

theorem flatMap_gates_around (before after : List Step) (t : Step) :
    (before ++ t :: after).flatMap Step.gates =
      before.flatMap Step.gates ++ (t.gates ++ after.flatMap Step.gates) := by
  rw [List.flatMap_append, List.flatMap_cons]

/-- The rows that are numbered while an unpacking is imposed are its own. -/
theorem mem_gates_of_number {k : ℕ} {g : Gate Scalar}
    (hopen : (Session.reached (before ++ .imposeBits u x :: after)).closed = false)
    (hlo : (Session.reached before).gates.length ≤ k)
    (hhi : k < (Session.reached (before ++ [.imposeBits u x])).gates.length)
    (hk : ((before ++ .imposeBits u x :: after).flatMap Step.gates)[k]? = some g) :
    g ∈ u.gates x := by
  have hbefore := Session.gates_reached (Session.open_before hopen)
  have hopen' : (Session.reached (before ++ [.imposeBits u x])).closed = false := by
    apply Session.open_before
    rw [List.append_assoc]
    exact hopen
  have hafter := Session.gates_reached hopen'
  rw [hbefore] at hlo
  rw [hafter, flatMap_gates_around, List.length_append, List.flatMap_nil, List.append_nil] at hhi
  rw [flatMap_gates_around, List.getElem?_append_right hlo,
    List.getElem?_append_left (by omega)] at hk
  exact List.mem_of_getElem? hk

/-- A vector for a system that gives `unit` the value one, the variable a given value, and the
helpers the values that an unpacking of it gives them. The other entries may be anything. -/
structure Carries (S : System) (x : String) (a : Scalar) (w : List Bytes) : Prop where
  length_eq : w.length = S.variableCount
  canonical : Canonical w
  unit_eq : w[0]? = some (1 : Scalar).encode
  value_eq : S.reading w x = a
  helpers_eq : Agrees (S.reading w) (u.writes x (twosComplement u.width a))

/-- The names of a variable and of its helpers are apart from each other and from `unit`, so a
vector can carry any value, unless the variable is `unit` itself. -/
theorem exists_carries {s : Session} (hs : s.Regular) (values : List Bytes)
    (hnames : ∀ y, y = x ∨ y ∈ u.helpers.map (Helper.name x) → y ∈ s.names) {a : Scalar}
    (hunit : x = unit → a = 1) : ∃ w, u.Carries (s.system values) x a w := by
  let ws := u.writes x (twosComplement u.width a)
  let ρ := fun y => if y = unit then 1 else if y = x then a else listed ws y
  let vs := s.names.arrange ρ
  have hvs : vs.length = s.names.size := Names.length_arrange _ _
  have hreading : ∀ y ∈ s.names, (s.system values).reading (vs.map Scalar.encode) y = ρ y := by
    intro y hy
    rw [Session.reading_system]
    exact Names.valuation_arrange _ _ hy
  have hfst := u.map_fst_writes x (length_twosComplement u.width a)
  refine ⟨vs.map Scalar.encode, ?_, Session.canonical_map_encode vs, ?_, ?_, ?_⟩
  · exact (List.length_map _).trans hvs
  · exact (Session.first_entry_iff hs hvs).mpr (Names.valuation_arrange _ _ hs.unit_mem)
  · rw [hreading x (hnames x (Or.inl rfl))]
    show (if x = unit then 1 else if x = x then a else _) = a
    split
    · rename_i hx
      exact (hunit hx).symm
    · rw [if_pos rfl]
  · intro w hw
    have hmem : w.1 ∈ u.helpers.map (Helper.name x) := hfst ▸ List.mem_map_of_mem hw
    rw [hreading w.1 (hnames w.1 (Or.inr hmem))]
    obtain ⟨h, -, hname⟩ := List.mem_map.mp hmem
    have hne : w.1 ≠ unit := hname ▸ h.name_ne_unit x
    have hne' : w.1 ≠ x := hname ▸ h.name_ne x
    show (if w.1 = unit then 1 else if w.1 = x then a else listed ws w.1) = w.2
    rw [if_neg hne, if_neg hne']
    refine listed_of_mem ?_ hw
    rw [hfst]
    exact u.nodup_helpers.map (Helper.name_injective x)

/-- In a system in which an unpacking has been imposed on a variable, every vector that satisfies
the system spells the variable. For every value that fits the width, an unpacking gives values to
the helpers wherever they have none, and a vector that has these values, and the value itself at the
variable, violates none of the rows that were imposed. -/
theorem satisfying_vectors_spell (x : String) (before after : List Step) {S : System} {s : Session}
    (hclose : Session.close (Session.reached (before ++ .imposeBits u x :: after)) = .ok S s) :
    (∀ y, y = x ∨ y ∈ u.helpers.map (Helper.name x) → y ∈ S.names) ∧
    (∀ w : List Bytes, w.length = S.variableCount → Canonical w →
      S.toShape.holdsFor w [] = .ok true → u.Spells x (S.reading w)) ∧
    ∀ (v : Value) (a : Scalar), v.scalar = .ok a → Fits u.width a.toInt →
      (∀ t : Session, t.closed = false → (∀ h ∈ u.helpers, h.name x ∉ t.witness.names) →
        Session.Adds (u.fill x v) t [] (u.writes x (twosComplement u.width a))) ∧
      ((x = unit → a = 1) → ∃ w, u.Carries S x a w) ∧
      ∀ w, u.Carries S x a w → ∃ rows, S.toShape.violatedRows w [] = .ok rows ∧
        ∀ k, (Session.reached before).gates.length ≤ k →
          k < (Session.reached (before ++ [.imposeBits u x])).gates.length → k ∉ rows := by
  obtain ⟨hstates, -⟩ := Session.states_gates _ hclose
  obtain ⟨hopen, -, hS⟩ := Session.eq_of_close hclose
  have hregular := Session.regular_reached hopen
  have hmem : ∀ g ∈ u.gates x, g ∈ (before ++ .imposeBits u x :: after).flatMap Step.gates := by
    intro g hg
    rw [flatMap_gates_around]
    exact List.mem_append_right _ (List.mem_append_left _ hg)
  have hnames : ∀ y, y = x ∨ y ∈ u.helpers.map (Helper.name x) →
      y ∈ (Session.reached (before ++ .imposeBits u x :: after)).names := by
    intro y hy
    rcases u.mentions_gates_iff.mpr (Or.inr hy) with rfl | ⟨g, hg, hyg⟩
    · exact hregular.unit_mem
    · refine hregular.mentioned g ?_ y hyg
      rw [Session.gates_reached hopen]
      exact hmem g hg
  refine ⟨?_, ?_, ?_⟩
  · rw [hS]
    exact hnames
  · intro w hlen hw hholds
    rw [hstates.verdict w hlen hw, Except.ok.injEq, decide_eq_true_iff] at hholds
    exact u.spells_of_gates fun g hg => hholds.2 g (hmem g hg)
  · intro v a hv hfits
    refine ⟨fun t ht hfree => u.adds_fill ht hfree hv hfits, ?_, ?_⟩
    · rw [hS]
      exact u.exists_carries hregular _ hnames
    · intro w hw
      refine ⟨_, hstates.violated w hw.length_eq hw.canonical hw.unit_eq, ?_⟩
      intro k hlo hhi hk
      obtain ⟨g, hg, hfalse⟩ := mem_falseRows.mp hk
      have hown := u.mem_gates_of_number hopen hlo hhi hg
      have hwrites := hw.helpers_eq
      rw [← hw.value_eq] at hfits hwrites
      exact hfalse (u.gates_iff.mpr ⟨hfits, hwrites⟩ g hown)

/-- Minus three in three bits. -/
theorem satisfying_vectors_spell_minus_three :
    let u : Unpacking := ⟨.chained, 3, true, by decide, by decide⟩
    ∃ S s, Session.close (Session.reached [.index "k", .imposeBits u "v",
        .gate (.scale "v" (.integer 2) "k"), .fillBits u "v" (.integer (-3)),
        .assign "v" (.integer (-3)), .assign "k" (.integer (-6))]) = .ok S s ∧
      u.Spells "v" (S.reading S.witness) := by
  intro u
  have hcheck : (match Session.close (Session.reached [.index "k", .imposeBits u "v",
        .gate (.scale "v" (.integer 2) "k"), .fillBits u "v" (.integer (-3)),
        .assign "v" (.integer (-3)), .assign "k" (.integer (-6))]) with
      | .ok S _ => S.toShape.holdsFor S.witness []
      | .error f _ => .error f) = .ok true := by decide +kernel
  cases hclose : Session.close (Session.reached [.index "k", .imposeBits u "v",
      .gate (.scale "v" (.integer 2) "k"), .fillBits u "v" (.integer (-3)),
      .assign "v" (.integer (-3)), .assign "k" (.integer (-6))]) with
  | error f s =>
    rw [hclose] at hcheck
    cases hcheck
  | ok S s =>
    rw [hclose] at hcheck
    obtain ⟨hopen, -⟩ := Session.eq_of_close hclose
    obtain ⟨hlen, hcanonical, -⟩ :=
      Session.witness_of_close (Session.regular_reached hopen) hclose
    have hall := u.satisfying_vectors_spell "v" [.index "k"] _ hclose
    exact ⟨S, s, rfl, hall.2.1 S.witness hlen hcanonical hcheck⟩

end

end Unpacking

end RankOne
