import VowpalWabbit.Framework.Tables
import VowpalWabbit.MultiModel.Offsets
import VowpalWabbit.Estimators.ConfidenceSequence

/-! # Epsilon-decaying exploration

    `reductions/epsilon_decay.cc`. The models are ordered by age, the champion
    is the last one. Row `i` of the table of estimators belongs to model `i`;
    column `j` of it has the statistics since model `j` came up. Each model has
    its own slot in the weights, which moves along with it.

    The learners below the reduction are a parameter, and so are the powers that
    give the decay of epsilon and the horizon of a challenger.
-/

open Cpp VW.Estimators VW.MultiModel

namespace VW.EpsilonDecay

structure CbClass where
  cost : ℚ
  probability : ℚ

structure ActionScore where
  action : Nat
  score : ℚ

/-- The costs of the label of an example. -/
abbrev Example := List CbClass

/-- The settings, and the functions that the numbers need. -/
structure Options where
  num : Numerics
  min_scope : Nat
  min_champ_examples : Nat
  initial_epsilon : ℚ
  constant_epsilon : Bool
  challenger_epsilon : Bool
  reward_as_cost : Bool
  /-- `decayed_epsilon`. -/
  decayed_epsilon : ℚ → Nat → ℚ
  /-- `pow(champ_update_count, (i + 1 + shift_model_bounds) / (model_count + shift_model_bounds))`. -/
  horizon : Nat → Nat → Nat → ℚ

structure EpsilonDecayData (V : Type) where
  conf_seq_estimators : Table ConfidenceSequenceRobust
  _weight_indices : List Nat
  _weights : DenseParameters V
  _feature_width : Nat
  _model_count : Nat

/-- The learners below: `predict` and `learn` with an epsilon, when one was given,
    and an offset change the weights and leave the scores of the actions. -/
abbrev Learner (V : Type) := Option ℚ → Nat → (Nat → V) → (Nat → V) × List ActionScore

variable {V : Type} [Zero V] (opts : Options)

namespace EpsilonDecayData

variable (d : EpsilonDecayData V)

/-- The constructor. -/
def initial (model_count feature_width : Nat) (weights : DenseParameters V) : EpsilonDecayData V :=
  { conf_seq_estimators := (List.range model_count).map fun i =>
      List.replicate (i + 1) ConfidenceSequenceRobust.initial
    _weight_indices := List.range model_count
    _weights := weights
    _feature_width := feature_width
    _model_count := model_count }

def model_count : Nat := d.conf_seq_estimators.length

/-- The action with the highest score, or the first one when none is positive. -/
def best_action (a_s : List ActionScore) : Nat :=
  (a_s.foldl (fun best a => if a.score > best.score then a else best) ⟨0, 0⟩).action

/-- The share of a model in the logged action. -/
def predicted_probability (model_ind : Nat) (a : ActionScore) (a_s : List ActionScore) : ℚ :=
  if model_ind + 1 ≠ d.model_count ∧ opts.challenger_epsilon = false then
    if a.action = best_action a_s then 1 else 0
  else a.score

/-- The turn of one model in `update_weights`. -/
def update_model (base : Learner V) (labelled_action : Nat) (logged : CbClass) (r : ℚ)
    (model_ind : Nat) : EpsilonDecayData V :=
  let epsilon := if opts.constant_epsilon then none else
    some (opts.decayed_epsilon opts.initial_epsilon
      (((d.conf_seq_estimators.get model_ind model_ind).map (·.update_count)).getD 0))
  let (data, a_s) := base epsilon (d._weight_indices.getD model_ind 0) d._weights.data
  let d := { d with _weights := { d._weights with data } }
  match a_s.find? (·.action == labelled_action) with
  | none => d
  | some a =>
    let p_pred := d.predicted_probability opts model_ind a a_s
    let w := if logged.probability > 0 then p_pred / logged.probability else 0
    { d with
      conf_seq_estimators := for_range (model_ind + 1) (fun t estimator_ind =>
        t.update model_ind estimator_ind (·.update opts.num w r)) d.conf_seq_estimators }

/-- The models from `n - 1` down to the first one. -/
def update_models (base : Learner V) (labelled_action : Nat) (logged : CbClass) (r : ℚ) :
    Nat → EpsilonDecayData V → EpsilonDecayData V
  | 0, d => d
  | n + 1, d =>
    update_models base labelled_action logged r n (d.update_model opts base labelled_action logged r n)

def update_weights (base : Learner V) (examples : List Example) : EpsilonDecayData V :=
  match examples.findIdx? (!·.isEmpty) with
  | none => d
  | some labelled_action =>
    match (examples.getD labelled_action []).head? with
    | none => d
    | some logged =>
      let r := if opts.reward_as_cost then logged.cost else -logged.cost
      let r := if r < 0 ∨ r > 1 then max 0 (min r 1) else r
      update_models opts base labelled_action logged r d.model_count d

/-! ## Shifting models -/

/-- `promote_model`, for the models below `n`. -/
def promote_model (swap_dist : Nat) : Nat → EpsilonDecayData V → EpsilonDecayData V
  | 0, d => d
  | model_ind + 1, d =>
    promote_model swap_dist model_ind
      { d with
        conf_seq_estimators := for_range (model_ind + 1) (fun t estimator_ind =>
          t.move (·.moved_from opts.num) model_ind estimator_ind (model_ind + swap_dist)
            (estimator_ind + swap_dist)) d.conf_seq_estimators
        _weight_indices := Cpp.swap_at d._weight_indices (model_ind + swap_dist) model_ind }

/-- The loop over the estimators of one model, from `n + swap_dist - 1` down to `swap_dist`. -/
def rebalance_model (swap_dist curr_mod : Nat) :
    Nat → Table ConfidenceSequenceRobust → Table ConfidenceSequenceRobust
  | 0, t => t
  | n + 1, t =>
    rebalance_model swap_dist curr_mod n
      (t.move (·.moved_from opts.num) curr_mod n curr_mod (n + swap_dist))

/-- `rebalance_greater_models`, for `n = model_ind + 1`. -/
def rebalance_greater_models (n swap_dist model_count : Nat) : EpsilonDecayData V :=
  { d with
    conf_seq_estimators := for_range (model_count - (n + swap_dist)) (fun t i =>
      rebalance_model opts swap_dist (n + swap_dist + i) (n + 1 - swap_dist) t)
      d.conf_seq_estimators }

def clear_weights_and_estimators (swap_dist model_count : Nat) : EpsilonDecayData V :=
  { d with
    conf_seq_estimators := for_range model_count (fun t model_ind =>
      for_range (min (t.getD model_ind []).length swap_dist) (fun t estimator_ind =>
        t.update model_ind estimator_ind (·.reset_stats)) t) d.conf_seq_estimators
    _weights := for_range swap_dist (fun weights ind =>
      clear_innermost_offset weights (d._weight_indices.getD ind 0) d._feature_width d._model_count)
      d._weights }

/-- `shift_model`, for `n = model_ind + 1`. -/
def shift_model (n swap_dist model_count : Nat) : EpsilonDecayData V :=
  let d :=
    if 0 < n then
      (d.promote_model opts swap_dist n).rebalance_greater_models opts n swap_dist model_count
    else d
  d.clear_weights_and_estimators swap_dist model_count

/-! ## Bounds -/

/-- The test of `check_estimator_bounds` for a challenger. -/
def beats_champion (i : Nat) : Bool :=
  match d.conf_seq_estimators.get i i, d.conf_seq_estimators.get (d.model_count - 1) i with
  | some challenger, some champion =>
    decide (challenger.lower_bound opts.num > champion.upper_bound opts.num) &&
      decide (challenger.update_count ≥ opts.min_champ_examples)
  | _, _ => false

/-- The test of `check_horizon_bounds` for a challenger. -/
def exceeds_horizon (i : Nat) : Bool :=
  match d.conf_seq_estimators.get i i,
    d.conf_seq_estimators.get (d.model_count - 1) (d.model_count - 1) with
  | some challenger, some champion =>
    decide (challenger.update_count > opts.min_scope) &&
      decide ((challenger.update_count : ℚ) > opts.horizon champion.update_count i d.model_count)
  | _, _ => false

/-- The challenger that a loop from `final_model_idx - 1` down stops at. -/
def last_challenger (test : Nat → Bool) : Option Nat := (List.range (d.model_count - 1)).reverse.find? test

def check_estimator_bounds : EpsilonDecayData V :=
  match d.last_challenger (d.beats_champion opts) with
  | none => d
  | some i => d.shift_model opts (i + 1) (d.model_count - 1 - i) d.model_count

def check_horizon_bounds : EpsilonDecayData V :=
  match d.last_challenger (d.exceeds_horizon opts) with
  | none => d
  | some i => d.shift_model opts i 1 d.model_count

def learn (base : Learner V) (examples : List Example) : EpsilonDecayData V :=
  ((d.update_weights opts base examples).check_estimator_bounds opts).check_horizon_bounds opts

end EpsilonDecayData

end VW.EpsilonDecay
