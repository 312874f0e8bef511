import VowpalWabbit.Slim.Model

/-! # Predictions in slim

    The three functions `predict` of `vw_predict`. With a wildcard in the interactions the
    object compiles them for the namespaces that it has seen; this is the only member that a
    prediction changes.
-/

open Cpp

namespace VW.Slim

open Coded

def E_VW_PREDICT_ERR_NOT_A_CB_MODEL : Int := 5
def E_VW_PREDICT_ERR_NO_MODEL_LOADED : Int := 6
def E_VW_PREDICT_ERR_NO_A_CSOAA_MODEL : Int := 7
def E_VW_PREDICT_ERR_EXPLORATION_FAILED : Int := 8

/-- `VW::example_predict`. -/
structure Example (V : Type) extends ExampleNamespaces V where
  ft_offset : BitVec 64

variable {V : Type}

/-- The functions of the exploration library: each gives a code and the probabilities that it
    leaves, and the last one also the action that was chosen. -/
structure Exploration (V : Type) where
  generate_epsilon_greedy : V → Nat → List V → Int × List V
  generate_softmax : V → List V → List V → Int × List V
  generate_bag : List Nat → List V → Int × List V
  enforce_minimum_probability : V → Bool → List V → Int × List V
  sample_after_normalizing : List Byte → List V → Int × List V × Nat

/-! ## Scores -/

section Scores

variable [Zero V] [One V] [Add V] [Mul V]

/-- `inline_predict`, with all features. -/
def inline_predict (fuel : Nat) (weights : Weights V) (interactions : List (List NamespaceIndex))
    (ex : Example V) : Option V := do
  let linear := ex.indices.flatMap fun ns =>
    (ex.feature_space ns).items.map fun f => (f.1, f.2 + ex.ft_offset)
  let (_, interacted) ← generate_interactions fuel interactions [] false
    (to_predict ex.toExampleNamespaces ex.ft_offset)
  pure ((linear ++ interacted).foldl (fun p f => p + f.1 * weights.get f.2) 0)

/-- The score for given interactions. -/
def predict_with (fuel : Nat) (interactions : List (List NamespaceIndex)) (ex : Example V) :
    Coded (VwPredict V) V := do
  let loaded ← reads (·.weights)
  let weights ← present loaded
  present (inline_predict fuel weights interactions ex)

/-- The constant feature is added to the example. -/
def add_constant (ex : Example V) : Coded (VwPredict V) (Example V) := do
  let set ← reads (·.no_constant)
  let no_constant ← present set
  if no_constant then pure ex
  else do
    let set ← reads (·.feature_scale_bits)
    let feature_scale_bits ← present set
    let namespaces := copy_namespace ex.toExampleNamespaces CONSTANT_NAMESPACE
      [(1, (CONSTANT <<< feature_scale_bits) + ex.ft_offset)]
    pure { ex with toExampleNamespaces := namespaces }

def predict (fuel : Nat) (ex : Example V) : Coded (VwPredict V) V := do
  let model_loaded ← reads (·.model_loaded)
  if !model_loaded then fail E_VW_PREDICT_ERR_NO_MODEL_LOADED
  else do
    let ex ← add_constant ex
    let interactions ← reads (·.interactions)
    let contains_wildcard ← reads (·.contains_wildcard)
    if contains_wildcard then do
      let data ← reads (·.generate_interactions)
      let data ← present
        (data.update_interactions_if_new_namespace_seen .combinations false fuel interactions ex.indices)
      modify fun object => { object with generate_interactions := data }
      predict_with fuel data.generated_interactions ex
    else predict_with fuel interactions ex

/-- The shared features are copied to an action. -/
def copy_shared (shared action : Example V) : Example V :=
  { action with
    toExampleNamespaces := shared.indices.foldl
      (fun ex ns => copy_namespace ex ns (shared.feature_space ns).items) action.toExampleNamespaces }

/-- `predict(shared, actions, num_actions, out_scores)`. -/
def predict_csoaa (fuel : Nat) (shared : Example V) (actions : List (Example V)) :
    Coded (VwPredict V) (List V) := do
  let model_loaded ← reads (·.model_loaded)
  if !model_loaded then fail E_VW_PREDICT_ERR_NO_MODEL_LOADED
  else do
    let command_line_arguments ← reads (·.command_line_arguments)
    if !contains command_line_arguments (text "--csoaa_ldf") then Coded.fail E_VW_PREDICT_ERR_NO_A_CSOAA_MODEL
    else for_each (fun action => predict fuel (copy_shared shared action)) actions

end Scores

/-! ## Decisions -/

def resize [Zero V] (n : Nat) (l : List V) : List V := l.take n ++ List.replicate (n - l.length) 0

/-- `RETURN_EXPLORATION_ON_FAIL`; the code goes into the upper half. -/
def explored {S A : Type} (result : Int × A) : Coded S A :=
  if result.1 ≠ 0 then fail (E_VW_PREDICT_ERR_EXPLORATION_FAILED + result.1 * 2 ^ 16)
  else pure result.2

/-- The place of the first smallest element. -/
def min_element [LT V] [DecidableLT V] : List V → Nat
  | [] => 0
  | v :: rest =>
    match rest[min_element rest]? with
    | none => 0
    | some w => if w < v then min_element rest + 1 else 0

def count_action (top_actions : List Nat) (top_action : Nat) : Option (List Nat) :=
  top_actions[top_action]?.map fun n => top_actions.set top_action (n + 1)

/-- The first element and another one change places. -/
def iter_swap {A : Type} (l : List A) (i : Nat) : Option (List A) :=
  match l[0]?, l[i]? with
  | some a, some b => some ((l.set 0 b).set i a)
  | _, _ => none

section Decisions

variable [Zero V] [One V] [Add V] [Mul V] [LT V] [DecidableLT V]

/-- The loop over the sub-models. -/
def bag_loop (fuel : Nat) (shared : Example V) (actions : List (Example V)) :
    List Nat → List Nat → List V → Coded (VwPredict V) (List Nat × List V)
  | [], top_actions, scores => pure (top_actions, scores)
  | i :: rest, top_actions, _ => do
    let scores ← predict_csoaa fuel shared (actions.map fun action => { action with ft_offset := BitVec.ofNat 64 i })
    let top_actions ← present (count_action top_actions (min_element scores))
    bag_loop fuel shared actions rest top_actions scores

def scaled_example (ex : Example V) (ft_index_scale : BitVec 64) : Example V :=
  { ex with toExampleNamespaces := feature_scale_guard ex.toExampleNamespaces ft_index_scale }

/-- The exploration distribution, and the scores. -/
def generate_pdf (exploration : Exploration V) (fuel : Nat) (shared : Example V) (actions : List (Example V))
    (pdf : List V) : VwPredictExploration → Coded (VwPredict V) (List V × List V)
  | .epsilon_greedy => do
    let scores ← predict_csoaa fuel shared actions
    let set ← reads (·.epsilon)
    let epsilon ← present set
    let pdf ← explored (exploration.generate_epsilon_greedy epsilon (min_element scores) pdf)
    pure (pdf, scores)
  | .softmax => do
    let scores ← predict_csoaa fuel shared actions
    let set ← reads (·.lambda)
    let lambda ← present set
    let pdf ← explored (exploration.generate_softmax lambda scores pdf)
    pure (pdf, scores)
  | .bag => do
    let set ← reads (·.feature_scale_bits)
    let feature_scale_bits ← present set
    let feature_scale := 1#64 <<< feature_scale_bits
    let set ← reads (·.bag_size)
    let bag_size ← present set
    let (top_actions, scores) ← bag_loop fuel (scaled_example shared feature_scale)
      (actions.map (scaled_example · feature_scale)) (List.range bag_size) (List.replicate actions.length 0) []
    let pdf ← explored (exploration.generate_bag top_actions pdf)
    let set ← reads (·.minimum_epsilon)
    let minimum_epsilon ← present set
    let pdf ← if 0 < minimum_epsilon then
        explored (exploration.enforce_minimum_probability minimum_epsilon true pdf)
      else pure pdf
    pure (pdf, scores)

/-- `sort_by_scores`: the probabilities in the order of the scores, and the ranking. -/
def sort_by_scores (pdf scores : List V) : Option (List V × List Nat) :=
  if scores.length < pdf.length then none
  else
    let zipped_values := ((pdf.zip scores).zipIdx).insertionSort fun l r => ¬ r.1.2 < l.1.2
    some (zipped_values.map (·.1.1), zipped_values.map (·.2))

/-- `predict(event_id, shared, actions, num_actions, pdf, ranking)`. -/
def predict_cb (exploration : Exploration V) (fuel : Nat) (event_id : List Byte) (shared : Example V)
    (actions : List (Example V)) (pdf : List V) : Coded (VwPredict V) (List V × List Nat) := do
  let model_loaded ← reads (·.model_loaded)
  if !model_loaded then fail E_VW_PREDICT_ERR_NO_MODEL_LOADED
  else do
    let command_line_arguments ← reads (·.command_line_arguments)
    if !is_cb_explore_adf command_line_arguments then fail E_VW_PREDICT_ERR_NOT_A_CB_MODEL
    else do
      let set ← reads (·.exploration)
      let kind ← present set
      let (pdf, scores) ← generate_pdf exploration fuel shared actions (resize actions.length pdf) kind
      let (pdf, ranking) ← present (sort_by_scores pdf scores)
      let (pdf, chosen_action_idx) ← explored (exploration.sample_after_normalizing event_id pdf)
      if chosen_action_idx ≠ 0 then do
        let ranking ← present (iter_swap ranking chosen_action_idx)
        let pdf ← present (iter_swap pdf chosen_action_idx)
        pure (pdf, ranking)
      else pure (pdf, ranking)

end Decisions

/-! ## Calls of the object -/

/-- A call of one of the functions `predict`. -/
inductive Prediction (V : Type) where
  | score (ex : Example V)
  | scores (shared : Example V) (actions : List (Example V))
  | decision (event_id : List Byte) (shared : Example V) (actions : List (Example V)) (pdf : List V)

/-- What it gives. -/
inductive Answer (V : Type) where
  | score (score : V)
  | scores (out_scores : List V)
  | decision (pdf : List V) (ranking : List Nat)
  deriving DecidableEq

/-- A call of the object. -/
inductive ApiCall (V : Type) where
  | load (model : List Byte)
  | predict (prediction : Prediction V)

section Calls

variable [Zero V] [One V] [Add V] [Mul V] [LT V] [DecidableLT V]

def answer (exploration : Exploration V) (fuel : Nat) : Prediction V → Coded (VwPredict V) (Answer V)
  | .score ex => Answer.score <$> predict fuel ex
  | .scores shared actions => Answer.scores <$> predict_csoaa fuel shared actions
  | .decision event_id shared actions pdf =>
    (fun result => Answer.decision result.1 result.2) <$> predict_cb exploration fuel event_id shared actions pdf

/-- One prediction after the other, whether they succeed or not. -/
def answers (exploration : Exploration V) (fuel : Nat) :
    List (Prediction V) → VwPredict V → Outcome (List (Except Int (Answer V)) × VwPredict V)
  | [], object => .ok ([], object)
  | prediction :: rest, object => do
    let (r, object) ← answer exploration fuel prediction object
    let (rs, object) ← answers exploration fuel rest object
    pure (r :: rs, object)

/-- The object after a call. -/
def api_call [Neg V] (numbers : Numbers V) (exploration : Exploration V) (fuel : Nat) (object : VwPredict V) :
    ApiCall V → Outcome (VwPredict V)
  | .load model => (load numbers model object).map (·.2)
  | .predict prediction => (answer exploration fuel prediction object).map (·.2)

end Calls

end VW.Slim
