import VowpalWabbit.Continuous.PmfToPdf
import Mathlib.Tactic.Positivity

/-! # The leaves around a continuous action

    `learn` finds the leaf of the action by a quotient, and corrects the number by two tests
    against the ends of the leaf. The upper end of the range is in no leaf by these tests, so
    that its number becomes `num_actions`, one more than the last. With a bandwidth the lower
    limit is back among the leaves, without one it is not.

    The machine integers are as the code has them: beyond `2 ^ 31` leaves the last leaf is
    negative as an `int`, and the limits say little about the action.
-/

open Cpp VW.Trees

namespace VW.Continuous

open Outcome

/-- The lower end of the leaf after the first `i`. -/
def PmfToPdf.leaf_start (data : PmfToPdf) (i : ℤ) : ℚ := data.min_value + i * data.unit_range

/-- The leaf of an action, from 1. The upper end of the range is in the last leaf. -/
def InLeaf (data : PmfToPdf) (i : Nat) (a : ℚ) : Prop :=
  1 ≤ i ∧ i ≤ data.num_actions ∧ data.leaf_start (i - 1) ≤ a ∧
    (a < data.leaf_start i ∨ i = data.num_actions ∧ a = data.max_value)

/-- The two actions are leaves around the leaf of `a`. -/
def ValidLeaves (data : PmfToPdf) (a : ℚ) (lo hi : Nat) : Prop :=
  1 ≤ lo ∧ lo ≤ hi ∧ hi ≤ data.num_actions ∧ (∀ i, InLeaf data i a → lo ≤ i ∧ i ≤ hi) ∧
    hi - lo ≤ 2 * data.tree_bandwidth

/-- The label that the base learner learns from has two valid leaves. -/
def LearnsValidLeaves (data : PmfToPdf) (a : ℚ) : Prop :=
  ∀ (W : Type) (base : BaseLearner W) (s : State W) (elm : ContinuousLabelElm) (rest : List ContinuousLabelElm),
    s.ec.cb_cont = elm :: rest → elm.action = a →
    ∃ s' first last weight, learn data base s = .returned () s' ∧
      s'.learned = s.learned ++ [⟨[first, last], weight⟩] ∧ ValidLeaves data a first.action last.action

/-! ## A call of `learn` -/

section Learn

variable {W : Type} {data : PmfToPdf} {base : BaseLearner W} {s : State W} {elm : ContinuousLabelElm}
  {rest : List ContinuousLabelElm}

/-- The example is as before, and the base learner has learned from the discrete label. -/
theorem learn_run (hlabel : s.ec.cb_cont = elm :: rest) {limits : Nat × Nat}
    (hlimits : local_values data elm.action = .ok limits) :
    ∃ s', learn data base s = .returned () s' ∧ s'.ec = s.ec ∧
      s'.learned = s.learned ++ [⟨discrete_label data elm limits, s.temp_lbl_cb.weight⟩] := by
  simp only [learn, Call.bind_run, Call.get, hlabel, Call.lift, hlimits]
  exact ⟨_, rfl, rfl, rfl⟩

theorem learn_undefined (hlabel : s.ec.cb_cont = elm :: rest) {failure : Failure}
    (hlimits : local_values data elm.action = .error failure) : ∀ s', learn data base s ≠ .returned () s' := by
  simp only [learn, Call.bind_run, Call.get, hlabel, Call.lift, hlimits]
  cases failure <;> simp

end Learn

theorem learnsValidLeaves_iff_limits {data : PmfToPdf} {a : ℚ} :
    LearnsValidLeaves data a ↔ ∃ lo hi, local_values data a = .ok (lo, hi) ∧
      ValidLeaves data a (lo + 1) (hi + 1) := by
  constructor
  · intro hall
    let elm : ContinuousLabelElm := ⟨a, 0, 1⟩
    let base : BaseLearner Unit := ⟨fun _ _ => ([], ()), fun _ _ => ([], ())⟩
    let s : State Unit := ⟨(), ⟨[elm], ⟨[], 1⟩, none, [], []⟩, ⟨[], 1⟩, [], []⟩
    obtain ⟨s', first, last, weight, hrun, hlearned, hvalid⟩ := hall Unit base s elm [] rfl rfl
    cases hlimits : local_values data a with
    | error failure => exact absurd hrun (@learn_undefined Unit data base s elm [] rfl failure hlimits s')
    | ok limits =>
      obtain ⟨s'', hrun', -, hlearned'⟩ := @learn_run Unit data base s elm [] rfl limits hlimits
      cases hrun.symm.trans hrun'
      have hcosts := hlearned.symm.trans hlearned'
      simp only [discrete_label, s, List.nil_append, List.cons.injEq, and_true] at hcosts
      obtain ⟨⟨rfl, rfl⟩, -⟩ := hcosts
      exact ⟨limits.1, limits.2, rfl, hvalid⟩
  · intro ⟨lo, hi, hlimits, hvalid⟩ W base s elm rest hlabel haction
    obtain ⟨s', hrun, -, hlearned⟩ := @learn_run W data base s elm rest hlabel (lo, hi) (haction ▸ hlimits)
    exact ⟨s', _, _, _, hrun, hlearned, hvalid⟩

/-! ## The leaf of an action -/

section Index

variable {data : PmfToPdf} {a : ℚ}

theorem leaf_start_zero : data.leaf_start 0 = data.min_value := by simp [PmfToPdf.leaf_start]

theorem leaf_start_num_actions : data.leaf_start data.num_actions = data.max_value := by
  have hfill := @num_actions_mul_unit_range data
  simp [PmfToPdf.leaf_start, hfill]

/-- The number before the leaf of `a`. -/
def index (data : PmfToPdf) (a : ℚ) : ℤ := ⌊(a - data.min_value) / data.unit_range⌋

theorem leaf_start_le_iff (h : data.min_value < data.max_value) (i : ℤ) : data.leaf_start i ≤ a ↔
    i ≤ index data a := by
  rw [index, Int.le_floor, le_div_iff₀ (unit_range_pos h), PmfToPdf.leaf_start, add_comm, le_sub_iff_add_le]

theorem lt_leaf_start_iff (h : data.min_value < data.max_value) (i : ℤ) : a < data.leaf_start i ↔
    index data a < i := by
  rw [← not_le, leaf_start_le_iff h, not_le]

theorem index_nonneg (h : data.min_value < data.max_value) (hlow : data.min_value ≤ a) : 0 ≤ index data a := by
  rwa [← leaf_start_le_iff h, leaf_start_zero]

theorem num_actions_le_index_iff (h : data.min_value < data.max_value) :
    (data.num_actions : ℤ) ≤ index data a ↔ data.max_value ≤ a := by
  rw [← leaf_start_le_iff h, leaf_start_num_actions]

theorem index_le (h : data.min_value < data.max_value) (hhigh : a ≤ data.max_value) :
    index data a ≤ data.num_actions := by
  have hnext : data.leaf_start (data.num_actions + 1) = data.max_value + data.unit_range := by
    rw [← leaf_start_num_actions]
    simp only [PmfToPdf.leaf_start, Int.cast_add, Int.cast_one, add_mul, one_mul, add_assoc]
  have hlt : a < data.leaf_start (data.num_actions + 1) := by
    rw [hnext]
    exact lt_of_le_of_lt hhigh (lt_add_of_pos_right _ (unit_range_pos h))
  exact Int.lt_add_one_iff.mp ((lt_leaf_start_iff h _).mp hlt)

/-- The only leaf of an action in the range. -/
theorem inLeaf_iff (h : data.min_value < data.max_value) (hlow : data.min_value ≤ a)
    (hhigh : a ≤ data.max_value) (i : Nat) :
    InLeaf data i a ↔ (i : ℤ) = min (index data a + 1) data.num_actions := by
  have hnonneg := index_nonneg h hlow
  have hle := index_le h hhigh
  have htop := @num_actions_le_index_iff data a h
  have hpos := data.num_actions_pos
  have heq : a = data.max_value ↔ data.max_value ≤ a := ⟨fun h => h.ge, fun h => le_antisymm hhigh h⟩
  rw [InLeaf, leaf_start_le_iff h, lt_leaf_start_iff h, heq, ← htop]
  omega

end Index

/-! ## The limits -/

theorem int32_bind {A : Type} {x : ℤ} {f : ℤ → Outcome A} {r : A} :
    (int32 x >>= f) = .ok r ↔ (-2 ^ 31 ≤ x ∧ x < 2 ^ 31) ∧ f x = .ok r := by
  unfold int32
  split
  · next h => exact ⟨fun hf => ⟨h, hf⟩, fun hf => hf.2⟩
  · next h =>
    constructor
    · intro hf
      cases hf
    · intro hf
      exact absurd hf.1 h

/-- What the limits are, once the leaf has a number `i` in the code. -/
def Limits (data : PmfToPdf) (i : ℤ) (lo hi : Nat) : Prop :=
  (-2 ^ 31 ≤ i - as_int data.tree_bandwidth ∧ i - as_int data.tree_bandwidth < 2 ^ 31) ∧
    lo = as_uint32 (max 0 (i - as_int data.tree_bandwidth)) ∧
    hi = min (data.num_actions - 1) (as_uint32 (i + data.tree_bandwidth))

theorem limits_eq_ok {data : PmfToPdf} {i : ℤ} {lo hi : Nat} :
    (int32 (i - as_int data.tree_bandwidth) >>= fun least =>
      pure (as_uint32 (max 0 least),
        min (data.num_actions - 1) (as_uint32 (i + data.tree_bandwidth)))) = .ok (lo, hi) ↔
    Limits data i lo hi := by
  rw [int32_bind, Limits, pure_eq, Except.ok.injEq, Prod.mk.injEq, eq_comm, @eq_comm _ hi]

/-- The first number is not too high, so that only the second test can correct it. -/
theorem local_values_eq_ok {data : PmfToPdf} {a : ℚ} (h : data.min_value < data.max_value) {lo hi : Nat} :
    local_values data a = .ok (lo, hi) ↔
      (-2 ^ 31 ≤ index data a ∧ index data a < 2 ^ 31) ∧
      (-2 ^ 31 ≤ min (as_int (data.num_actions - 1)) (index data a) + 1 ∧
        min (as_int (data.num_actions - 1)) (index data a) + 1 < 2 ^ 31) ∧
      Limits data (if index data a < min (as_int (data.num_actions - 1)) (index data a) + 1
        then min (as_int (data.num_actions - 1)) (index data a)
        else min (as_int (data.num_actions - 1)) (index data a) + 1) lo hi := by
  have hbelow : ∀ i : ℤ, (data.min_value + i * data.unit_range ≤ a) = (i ≤ index data a) :=
    fun i => propext (leaf_start_le_iff h i)
  have habove : ∀ i : ℤ, (a < data.min_value + i * data.unit_range) = (index data a < i) :=
    fun i => propext (lt_leaf_start_iff h i)
  have hindex : ⌊(a - data.min_value) / data.unit_range⌋ = index data a := rfl
  have hfirst : min (as_int (data.num_actions - 1)) (index data a) ≤ index data a := min_le_right _ _
  simp only [local_values, int32_bind, hindex, hbelow, habove]
  refine and_congr_right fun _ => and_congr_right fun hnext => ?_
  generalize min (as_int (data.num_actions - 1)) (index data a) = first at hfirst hnext ⊢
  rw [if_neg (by simpa using hfirst)]
  by_cases hin : index data a < first + 1
  · rw [pure_eq, ok_bind, if_neg (by simp [hin]), if_pos hin]
    exact limits_eq_ok
  · rw [pure_eq, ok_bind, if_pos (by simp [hin]), if_neg hin]
    rw [int32_bind, and_iff_right hnext]
    exact limits_eq_ok

section Integers

variable {data : PmfToPdf} {a : ℚ} {lo hi : Nat} {i : ℤ}

theorem as_int_of_lt {x : Nat} (h : x < 2 ^ 31) : as_int x = x := if_pos h

theorem as_int_of_ge {x : Nat} (h : 2 ^ 31 ≤ x) : as_int x = x - 2 ^ 32 := if_neg (not_lt.mpr h)

theorem as_uint32_cast (x : ℤ) : (as_uint32 x : ℤ) = x % 2 ^ 32 :=
  Int.toNat_of_nonneg (Int.emod_nonneg _ (by decide))

/-- With at most `2 ^ 31` leaves the number of the leaf is that of the quotient, also past the last leaf. -/
theorem local_values_of_le (h : data.min_value < data.max_value) (hlow : data.min_value ≤ a)
    (hhigh : a ≤ data.max_value)
    (hnum : data.num_actions ≤ 2 ^ 31) :
    local_values data a = .ok (lo, hi) ↔ (index data a < 2 ^ 31 ∧ min (index data a + 1) data.num_actions < 2 ^ 31) ∧
      Limits data (index data a) lo hi := by
  have hpos := data.num_actions_pos
  have hnonneg := index_nonneg h hlow
  have hle := index_le h hhigh
  rw [local_values_eq_ok h, as_int_of_lt (by omega), Nat.cast_sub hpos]
  have hcorrected : (if index data a < min ((data.num_actions : ℤ) - (1 : Nat)) (index data a) + 1
      then min ((data.num_actions : ℤ) - (1 : Nat)) (index data a)
      else min ((data.num_actions : ℤ) - (1 : Nat)) (index data a) + 1) = index data a := by
    split <;> omega
  rw [hcorrected, ← and_assoc]
  refine and_congr_left fun _ => ?_
  omega

/-- With more leaves the number is that of an `int` that has wrapped, whatever the action. -/
theorem local_values_of_gt (h : data.min_value < data.max_value) (hlow : data.min_value ≤ a)
    (hnum : 2 ^ 31 < data.num_actions) :
    local_values data a = .ok (lo, hi) ↔ index data a < 2 ^ 31 ∧ Limits data (data.num_actions - 2 ^ 32) lo hi := by
  have hfits := data.num_actions_fits
  have hnonneg := index_nonneg h hlow
  rw [local_values_eq_ok h, as_int_of_ge (by omega), Nat.cast_sub (by omega)]
  have hcorrected : (if index data a < min ((data.num_actions : ℤ) - (1 : Nat) - 2 ^ 32) (index data a) + 1
      then min ((data.num_actions : ℤ) - (1 : Nat) - 2 ^ 32) (index data a)
      else min ((data.num_actions : ℤ) - (1 : Nat) - 2 ^ 32) (index data a) + 1) = data.num_actions - 2 ^ 32 := by
    split <;> omega
  rw [hcorrected, ← and_assoc]
  refine and_congr_left fun _ => ?_
  omega

/-- The limits with a bandwidth that is an `int`. -/
theorem limits_of_lt (hb : data.tree_bandwidth < 2 ^ 31) :
    Limits data i lo hi ↔ (-2 ^ 31 ≤ i - data.tree_bandwidth ∧ i - data.tree_bandwidth < 2 ^ 31) ∧
      (lo : ℤ) = max 0 (i - data.tree_bandwidth) ∧
      (hi : ℤ) = min ((data.num_actions : ℤ) - 1) ((i + data.tree_bandwidth) % 2 ^ 32) := by
  have hpos := data.num_actions_pos
  have hlo := as_uint32_cast (max 0 (i - data.tree_bandwidth))
  have hhi := as_uint32_cast (i + data.tree_bandwidth)
  rw [Limits, as_int_of_lt hb]
  refine and_congr_right fun hrange => ?_
  omega

/-- The limits with a bandwidth that is negative as an `int`. -/
theorem limits_of_ge (hb : 2 ^ 31 ≤ data.tree_bandwidth) :
    Limits data i lo hi ↔ (-2 ^ 31 ≤ i - data.tree_bandwidth + 2 ^ 32 ∧ i - data.tree_bandwidth + 2 ^ 32 < 2 ^ 31) ∧
      (lo : ℤ) = max 0 (i - data.tree_bandwidth + 2 ^ 32) ∧
      (hi : ℤ) = min ((data.num_actions : ℤ) - 1) ((i + data.tree_bandwidth) % 2 ^ 32) := by
  have hpos := data.num_actions_pos
  have hlo := as_uint32_cast (max 0 (i - data.tree_bandwidth + 2 ^ 32))
  have hhi := as_uint32_cast (i + data.tree_bandwidth)
  rw [Limits, as_int_of_ge hb, ← sub_add]
  refine and_congr_right fun hrange => ?_
  omega

theorem validLeaves_iff (h : data.min_value < data.max_value) (hlow : data.min_value ≤ a)
    (hhigh : a ≤ data.max_value) :
    ValidLeaves data a (lo + 1) (hi + 1) ↔ hi < data.num_actions ∧ hi ≤ lo + 2 * data.tree_bandwidth ∧
      (lo : ℤ) ≤ min (index data a) (data.num_actions - 1) ∧ min (index data a) (data.num_actions - 1) ≤ hi := by
  have hnonneg := index_nonneg h hlow
  simp only [ValidLeaves, inLeaf_iff h hlow hhigh]
  constructor
  · intro ⟨_, _, hlast, hleaf, hwidth⟩
    have hat := hleaf (min (index data a + 1) data.num_actions).toNat (by omega)
    omega
  · intro ⟨hlast, hwidth, hfirst, hsecond⟩
    refine ⟨by omega, by omega, by omega, fun i hi => by omega, by omega⟩

end Integers

/-- Where the limits of `learn` are leaves around the action: with the numbers of the leaves within
    an `int`, an action that is below the upper end, or a bandwidth; with more leaves, where the
    limits happen to be around the action. -/
def FindsLeaves (data : PmfToPdf) (a : ℚ) : Prop :=
  data.num_actions ≤ 2 ^ 31 ∧ data.tree_bandwidth < 2 ^ 31 ∧
      (a < data.max_value ∧ a < data.leaf_start (2 ^ 31 - 1) ∨
        a = data.max_value ∧ 1 ≤ data.tree_bandwidth ∧ data.num_actions < 2 ^ 31) ∨
  2 ^ 31 < data.num_actions ∧ a < data.leaf_start (2 ^ 31) ∧
      a < data.leaf_start (data.num_actions + data.tree_bandwidth - 2 ^ 32 + 1) ∧
      (data.tree_bandwidth + 2 ^ 31 ≤ data.num_actions ∨
        2 ^ 31 ≤ data.tree_bandwidth ∧ data.leaf_start (data.num_actions - data.tree_bandwidth) ≤ a)

/-- The two actions that are passed on are leaves around the action exactly then. -/
theorem learnsValidLeaves_iff (data : PmfToPdf) (a : ℚ) (h : data.min_value < data.max_value)
    (hlow : data.min_value ≤ a)
    (hhigh : a ≤ data.max_value) : LearnsValidLeaves data a ↔ FindsLeaves data a := by
  have hpos := data.num_actions_pos
  have hfits := data.num_actions_fits
  have hbfits := data.tree_bandwidth_fits
  have hnonneg := index_nonneg h hlow
  have hle := index_le h hhigh
  have heq : a = data.max_value ↔ (data.num_actions : ℤ) ≤ index data a := by
    rw [num_actions_le_index_iff h]
    exact ⟨fun h => h.ge, fun h => le_antisymm hhigh h⟩
  have hlt : a < data.max_value ↔ index data a < data.num_actions := by
    rw [← not_le, ← num_actions_le_index_iff h, not_le]
  simp only [learnsValidLeaves_iff_limits, validLeaves_iff h hlow hhigh, FindsLeaves, lt_leaf_start_iff h,
    leaf_start_le_iff h, heq, hlt]
  rcases le_or_gt data.num_actions (2 ^ 31) with hnum | hnum
  · simp only [local_values_of_le h hlow hhigh hnum]
    rcases lt_or_ge data.tree_bandwidth (2 ^ 31) with hb | hb
    · simp only [limits_of_lt hb]
      constructor
      · intro ⟨lo, hi, hlimits, hvalid⟩
        omega
      · intro hcond
        refine ⟨(max 0 (index data a - data.tree_bandwidth)).toNat,
          (min ((data.num_actions : ℤ) - 1) (index data a + data.tree_bandwidth)).toNat, ?_, ?_⟩ <;> omega
    · -- the lower limit is above the leaf
      simp only [limits_of_ge hb]
      constructor
      · intro ⟨lo, hi, hlimits, hvalid⟩
        omega
      · intro hcond
        omega
  · simp only [local_values_of_gt h hlow hnum]
    rcases lt_or_ge data.tree_bandwidth (2 ^ 31) with hb | hb
    · simp only [limits_of_lt hb]
      constructor
      · intro ⟨lo, hi, hlimits, hvalid⟩
        omega
      · intro hcond
        refine ⟨0, data.num_actions + data.tree_bandwidth - 2 ^ 32, ?_, ?_⟩ <;> omega
    · simp only [limits_of_ge hb]
      constructor
      · intro ⟨lo, hi, hlimits, hvalid⟩
        omega
      · intro hcond
        refine ⟨data.num_actions - data.tree_bandwidth,
          data.num_actions + data.tree_bandwidth - 2 ^ 32, ?_, ?_⟩ <;> omega

/-- Four leaves from 0 to 4, without a bandwidth. -/
def four_leaves : PmfToPdf where
  num_actions := 4
  tree_bandwidth := 0
  bandwidth := 0
  min_value := 0
  max_value := 4
  first_only := false
  num_actions_pos := by decide
  num_actions_fits := by decide
  tree_bandwidth_fits := by decide
  bandwidth_nonneg := by decide

/-- A label for action 1, with four leaves. -/
theorem learnsValidLeaves_iff_four : LearnsValidLeaves four_leaves 1 ↔ FindsLeaves four_leaves 1 :=
  learnsValidLeaves_iff four_leaves 1 (by decide) (by decide) (by decide)

/-- At the upper end of the range the lower limit is a fifth leaf. -/
theorem four_leaves_fifth : ¬ LearnsValidLeaves four_leaves 4 := by
  rw [learnsValidLeaves_iff_limits]
  rintro ⟨lo, hi, hlimits, hvalid⟩
  have hfifth : local_values four_leaves 4 = .ok (4, 3) := by decide +kernel
  cases hlimits.symm.trans hfifth
  exact absurd hvalid.2.1 (by decide)

end VW.Continuous
