import VowpalWabbit.Framework.StepFunctions
import VowpalWabbit.Trees.Example
import Mathlib.Data.Rat.Floor

/-! # Turning a predicted leaf into a density

    `reductions/pmf_to_pdf.cc`. The range from `min_value` to `max_value` is cut into
    `num_actions` leaves of equal width. The learner below predicts a leaf, and the reduction
    writes the segments of a density that is constant within `bandwidth` of the centre of that
    leaf. To learn from a continuous action it hands the learner below the first and the last
    of the leaves around that action.

    Numbers are rational, so that there is no rounding, and the integers are machine integers: a
    signed result outside of 32 bits is undefined.
-/

open Cpp Steps VW.Trees Call

namespace VW.Continuous

export Trees (CbClass CbLabel)

structure ActionScore where
  action : Nat
  score : ℚ

abbrev PdfSegment : Type := Segment ℚ

structure ContinuousLabelElm where
  action : ℚ
  cost : ℚ
  pdf_value : ℚ

/-- The options of `pmf_to_pdf_reduction`, as its set-up leaves them. -/
structure PmfToPdf where
  num_actions : Nat
  tree_bandwidth : Nat
  bandwidth : ℚ
  min_value : ℚ
  max_value : ℚ
  first_only : Bool
  num_actions_pos : 0 < num_actions
  num_actions_fits : num_actions < 2 ^ 32
  tree_bandwidth_fits : tree_bandwidth < 2 ^ 32
  bandwidth_nonneg : 0 ≤ bandwidth

/-- `unit_range`, the width of a leaf. -/
def PmfToPdf.unit_range (data : PmfToPdf) : ℚ := (data.max_value - data.min_value) / data.num_actions

/-- `centre`, the middle of a leaf. -/
def PmfToPdf.centre (data : PmfToPdf) (action : Nat) : ℚ :=
  data.min_value + action * data.unit_range + data.unit_range / 2

/-- `b`, the bandwidth or else half a leaf. -/
def PmfToPdf.b (data : PmfToPdf) : ℚ := if data.bandwidth = 0 then data.unit_range / 2 else data.bandwidth

/-- What the reduction reads and writes of an example. -/
structure Example where
  cb_cont : List ContinuousLabelElm
  cb : CbLabel ℚ
  chosen_action : Option ℚ
  a_s : List ActionScore
  pdf : List PdfSegment

/-- A base learner with weights `W`, which changes the action scores of an example. -/
structure BaseLearner (W : Type) where
  learn : Example → W → List ActionScore × W
  predict : Example → W → List ActionScore × W

/-- The weights of the base learner, the example, the temporaries of the reduction, and the labels
    that the base learner has learned from. -/
structure State (W : Type) where
  weights : W
  ec : Example
  temp_lbl_cb : CbLabel ℚ
  temp_pred_a_s : List ActionScore
  learned : List (CbLabel ℚ)

/-! ## Machine integers -/

/-- A value of type `int`. -/
def int32 (x : ℤ) : Outcome ℤ := if -2 ^ 31 ≤ x ∧ x < 2 ^ 31 then .ok x else Outcome.undefined

/-- An unsigned number as an `int`. -/
def as_int (x : Nat) : ℤ := if x < 2 ^ 31 then x else x - 2 ^ 32

/-- An `int` as an unsigned number. -/
def as_uint32 (x : ℤ) : Nat := (x % 2 ^ 32).toNat

/-- `static_cast<uint32_t>` of a float. -/
def float_to_uint32 (x : ℚ) : Outcome Nat := if -1 < x ∧ x < 2 ^ 32 then .ok ⌊x⌋₊ else Outcome.undefined

/-! ## The density -/

/-- `pdf_lim.push_back` of a limit that is not the last one already. -/
def push_new (pdf_lim : List ℚ) (val : ℚ) : List ℚ :=
  if pdf_lim.getLast? = some val then pdf_lim else pdf_lim ++ [val]

/-- The loop that writes the limits. With the rounds used up it goes on for ever. -/
def limits (data : PmfToPdf) (centre b : ℚ) (n : Nat) : Nat → Nat → Nat → List ℚ → Outcome (List ℚ)
  | 0, l, r, pdf_lim => if l < n ∨ r < n then Outcome.undefined else .ok pdf_lim
  | fuel + 1, l, r, pdf_lim =>
    if l < n ∨ r < n then
      if b ≤ centre then
        if l = n ∨ centre + b < centre - b then
          limits data centre b n fuel l (r + 1) (pdf_lim ++ [min (centre + b) data.max_value])
        else if r = n ∨ centre - b < centre + b then
          limits data centre b n fuel (l + 1) r (push_new pdf_lim (max (centre - b) data.min_value))
        else limits data centre b n fuel (l + 1) (r + 1) (push_new pdf_lim (max (centre - b) data.min_value))
      else
        limits data centre b n fuel (l + 1) (r + 1) (pdf_lim ++ [min (centre + b) data.max_value])
    else .ok pdf_lim

/-- The loop that writes the segments between the limits. -/
def segments (data : PmfToPdf) (centre b score : ℚ) (n : Nat) : Nat → List ℚ → List PdfSegment
  | l, left :: right :: rest =>
    if l < n ∧ ((centre - data.min_value < b ∧ left = data.min_value) ∨ left = centre - b) then
      let actual_b := min data.max_value (centre + b) - max data.min_value (centre - b)
      ⟨left, right, score / actual_b⟩ :: segments data centre b score n (l + 1) (right :: rest)
    else ⟨left, right, 0⟩ :: segments data centre b score n l (right :: rest)
  | _, _ => []

/-- `transform_prediction`, the new value of `ec.pred.pdf`. -/
def transform_prediction (data : PmfToPdf) (temp_pred_a_s : List ActionScore) : Outcome (List PdfSegment) :=
  match temp_pred_a_s with
  | [] => Outcome.undefined
  | first :: _ => do
    let n := temp_pred_a_s.length
    let centre := data.centre first.action
    let b := data.b
    let pdf_lim := if centre - b ≠ data.min_value then [data.min_value] else []
    let pdf_lim ← limits data centre b n (2 * n) 0 0 pdf_lim
    let pdf_lim := if pdf_lim.getLast? ≠ some data.max_value then pdf_lim ++ [data.max_value] else pdf_lim
    pure (segments data centre b first.score n 0 pdf_lim)

/-! ## Prediction and learning -/

section Reduction

variable {W : Type} (data : PmfToPdf) (base : BaseLearner W)

/-- The swap of `ec.l.cb` with `temp_lbl_cb`. -/
def State.swap_label (s : State W) : State W :=
  { s with ec := { s.ec with cb := s.temp_lbl_cb }, temp_lbl_cb := s.ec.cb }

/-- The swap of `ec.pred.a_s` with `temp_pred_a_s`. -/
def State.swap_prediction (s : State W) : State W :=
  { s with ec := { s.ec with a_s := s.temp_pred_a_s }, temp_pred_a_s := s.ec.a_s }

def set_ec (f : Example → Example) : Call (State W) Unit := Call.modify fun s => { s with ec := f s.ec }

/-- `_p_base->predict(ec)`. -/
def BaseLearner.predicts : Call (State W) Unit := Call.modify fun s =>
  let answer := base.predict s.ec s.weights
  { s with ec := { s.ec with a_s := answer.1 }, weights := answer.2 }

/-- `_p_base->learn(ec)`. -/
def BaseLearner.learns : Call (State W) Unit := Call.modify fun s =>
  let answer := base.learn s.ec s.weights
  { s with ec := { s.ec with a_s := answer.1 }, weights := answer.2, learned := s.learned ++ [s.ec.cb] }

/-- A swap guard for the rest of the scope. -/
def swap_guard (swap : State W → State W) (x : Call (State W) Unit) : Call (State W) Unit := do
  modify swap
  scope_exit swap x

/-- The leaf of an action that was chosen. -/
def discretize (chosen_action : ℚ) : Outcome Nat := do
  let ac := (chosen_action - data.min_value) / data.unit_range
  let action ← float_to_uint32 ⌊ac⌋
  pure (min (data.num_actions - 1) action)

def predict : Call (State W) Unit := swap_guard State.swap_label do
  let s ← get
  match s.ec.chosen_action, data.first_only with
  | some chosen_action, true => do
    let action ← lift (discretize data chosen_action)
    modify fun s => { s with temp_pred_a_s := [⟨action, 1⟩] }
  | _, _ => swap_guard State.swap_prediction base.predicts
  let s ← get
  let pdf ← lift (transform_prediction data s.temp_pred_a_s)
  set_ec fun ec => { ec with pdf := pdf }

/-- `local_min_value` and `local_max_value` of `learn`. -/
def local_values (action_cont : ℚ) : Outcome (Nat × Nat) := do
  let unit_range := data.unit_range
  let ac := (action_cont - data.min_value) / unit_range
  let floor_ac ← int32 ⌊ac⌋
  let action_segment_index := min (as_int (data.num_actions - 1)) floor_ac
  let next ← int32 (action_segment_index + 1)
  let cond1 : Bool := data.min_value + action_segment_index * unit_range ≤ action_cont
  let cond2 : Bool := action_cont < data.min_value + next * unit_range
  let action_segment_index ← if !cond1 then int32 (action_segment_index - 1) else pure action_segment_index
  let action_segment_index ← if !cond2 then int32 (action_segment_index + 1) else pure action_segment_index
  let b := data.tree_bandwidth
  let least ← int32 (action_segment_index - as_int b)
  pure (as_uint32 (max 0 least), min (data.num_actions - 1) (as_uint32 (action_segment_index + b)))

/-- The label that `learn` hands on. -/
def discrete_label (elm : ContinuousLabelElm) (limits : Nat × Nat) : List (CbClass ℚ) :=
  let continuous_range := data.max_value - data.min_value
  let actual_bandwidth : Nat := if data.tree_bandwidth = 0 then 1 else 2 * data.tree_bandwidth % 2 ^ 32
  let probability := elm.pdf_value * actual_bandwidth * continuous_range / data.num_actions
  [⟨elm.cost, limits.1 + 1, probability, 0⟩, ⟨elm.cost, limits.2 + 1, probability, 0⟩]

def learn : Call (State W) Unit := do
  let s ← get
  match s.ec.cb_cont with
  | [] => undefined
  | elm :: _ => do
    let limits ← lift (local_values data elm.action)
    swap_guard State.swap_label do
      set_ec fun ec => { ec with cb := { ec.cb with costs := discrete_label data elm limits } }
      swap_guard State.swap_prediction base.learns

end Reduction

/-! ## Set-up -/

/-- `tree_bandwidth`, the bandwidth in leaves. -/
def discretize_bandwidth (bandwidth leaf_width : ℚ) : Outcome Nat := do
  if bandwidth ≤ leaf_width / 2 then pure 0
  -- a quotient by 0 does not fit
  else if leaf_width = 0 then Outcome.undefined
  else do
    let leaves ← float_to_uint32 (bandwidth / leaf_width)
    -- `fmod` is 0
    if (leaves : ℚ) * leaf_width = bandwidth then pure leaves else pure ((leaves + 1) % 2 ^ 32)

/-- What the options say. -/
structure Supplied where
  num_actions : Nat
  num_actions_fits : num_actions < 2 ^ 32
  min_value : Option ℚ
  max_value : Option ℚ
  bandwidth : Option ℚ
  first_only : Bool

theorem discretize_bandwidth_fits {bandwidth leaf_width : ℚ} {tree_bandwidth : Nat}
    (h : discretize_bandwidth bandwidth leaf_width = .ok tree_bandwidth) : tree_bandwidth < 2 ^ 32 := by
  unfold discretize_bandwidth at h
  split at h
  · cases h
    decide
  split at h
  · cases h
  obtain ⟨leaves, hleaves, h⟩ := Outcome.bind_eq_ok.mp h
  unfold float_to_uint32 at hleaves
  split at hleaves
  case isFalse => cases hleaves
  case isTrue hin =>
    cases hleaves
    split at h
    · cases h
      exact (Nat.floor_lt' (by decide)).mpr (by exact_mod_cast hin.2)
    · cases h
      exact Nat.mod_lt _ (by decide)

/-- `pmf_to_pdf_setup`. -/
def setup (supplied : Supplied) : Outcome (Option PmfToPdf) :=
  if hnum : supplied.num_actions = 0 then .ok none
  else match supplied.min_value, supplied.max_value with
    | some min_value, some max_value =>
      let leaf_width := (max_value - min_value) / supplied.num_actions
      let bandwidth := supplied.bandwidth.getD (leaf_width / 2)
      if hbandwidth : 0 ≤ bandwidth then
        match htree : discretize_bandwidth bandwidth leaf_width with
        | .ok tree_bandwidth => .ok (some
          { num_actions := supplied.num_actions
            tree_bandwidth := tree_bandwidth
            bandwidth := bandwidth
            min_value := min_value
            max_value := max_value
            first_only := supplied.first_only
            num_actions_pos := Nat.pos_of_ne_zero hnum
            num_actions_fits := supplied.num_actions_fits
            tree_bandwidth_fits := discretize_bandwidth_fits htree
            bandwidth_nonneg := hbandwidth })
        | .error failure => .error failure
      else Outcome.throw_ "error: Bandwidth must be positive"
    | _, _ => Outcome.throw_ "Min and max values must be supplied with cb_continuous"

/-! ## The leaves -/

section Leaves

variable {data : PmfToPdf}

theorem num_actions_cast_pos : (0 : ℚ) < data.num_actions := Nat.cast_pos.mpr data.num_actions_pos

theorem unit_range_pos (h : data.min_value < data.max_value) : 0 < data.unit_range :=
  div_pos (sub_pos.mpr h) num_actions_cast_pos

/-- The leaves fill the range. -/
theorem num_actions_mul_unit_range : data.num_actions * data.unit_range = data.max_value - data.min_value :=
  mul_div_cancel₀ _ num_actions_cast_pos.ne'

theorem b_pos (h : data.min_value < data.max_value) : 0 < data.b := by
  unfold PmfToPdf.b
  split
  · exact half_pos (unit_range_pos h)
  · next hne => exact lt_of_le_of_ne data.bandwidth_nonneg (Ne.symm hne)

theorem min_value_lt_centre (h : data.min_value < data.max_value) (action : Nat) :
    data.min_value < data.centre action := by
  have hunit := unit_range_pos h
  have hleft : (0 : ℚ) ≤ action * data.unit_range := mul_nonneg (Nat.cast_nonneg _) hunit.le
  unfold PmfToPdf.centre
  linarith

theorem centre_lt_max_value (h : data.min_value < data.max_value) {action : Nat}
    (haction : action < data.num_actions) :
    data.centre action < data.max_value := by
  have hunit := unit_range_pos h
  have hle : ((action : ℚ) + 1) * data.unit_range ≤ data.num_actions * data.unit_range :=
    mul_le_mul_of_nonneg_right (by exact_mod_cast haction) hunit.le
  rw [num_actions_mul_unit_range, add_mul, one_mul] at hle
  unfold PmfToPdf.centre
  linarith

end Leaves

end VW.Continuous
