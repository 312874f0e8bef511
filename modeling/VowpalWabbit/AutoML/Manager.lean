import VowpalWabbit.AutoML.Oracle
import VowpalWabbit.MultiModel.Widths
import VowpalWabbit.Estimators.ConfidenceSequence

/-! # The configuration manager

    `interaction_config_manager` of `core/automl_impl.h`, and the steps of
    `automl` that change it. A live slot has an estimator of its own, one for
    the champion over the same examples, the index of a configuration and the
    interactions that it stands for; slot 0 is the champion. The weights of a slot
    are those at its innermost offset.

    The estimator is a parameter, as it is in the source, and so are the learners
    below.
-/

open Cpp VW.MultiModel

namespace VW.AutoML

/-- What is used of `estimator_impl`. -/
structure EstimatorImpl (E : Type) where
  initial : E
  reset_stats : E → E
  update : E → ℚ → ℚ → E
  lower_bound : E → ℚ
  upper_bound : E → ℚ
  update_count : E → Nat
  /-- What is left behind by a move. -/
  moved_from : E → E
  update_count_initial : update_count initial = 0
  update_count_reset : ∀ e, update_count (reset_stats e) = 0
  update_count_update : ∀ e w r, update_count (update e w r) = update_count e + 1

/-- `confidence_sequence_robust` is such an estimator. -/
def confidence_sequence_robust (num : Estimators.Numerics) :
    EstimatorImpl Estimators.ConfidenceSequenceRobust where
  initial := .initial
  reset_stats := .reset_stats
  update e w r := e.update num w r
  lower_bound e := e.lower_bound num
  upper_bound e := e.upper_bound num
  update_count e := e.update_count
  moved_from e := e.moved_from num
  update_count_initial := rfl
  update_count_reset _ := rfl
  update_count_update _ _ _ := rfl

structure AmlEstimator (E : Type) where
  _estimator : E
  config_index : Nat
  eligible_to_inactivate : Bool
  live_interactions : InteractionVec

/-- A live slot: `std::pair<aml_estimator, estimator_impl>`. -/
abbrev LiveSlot (E : Type) := AmlEstimator E × E

/-- The settings of the manager, besides those of its oracle. -/
structure ManagerSettings (P R E : Type) extends Settings P R where
  estimator : EstimatorImpl E
  max_live_configs : Nat
  priority_challengers : Nat
  ccb_on : Bool
  reward_as_cost : Bool

structure CbClass where
  cost : ℚ
  probability : ℚ

/-- The learners below: with an offset and the interactions of the example, they
    change the weights and rank an action first. -/
abbrev Learner (V : Type) := Nat → InteractionVec → (Nat → V) → (Nat → V) × Nat

structure InteractionConfigManager {P R E : Type} (S : ManagerSettings P R E) (V : Type) where
  total_champ_switches : BitVec 64
  total_learn_count : BitVec 64
  weights : DenseParameters V
  feature_width : Nat
  _config_oracle : ConfigOracle S.toSettings
  ns_counter : NsCounter
  estimators : List (LiveSlot E)

variable {P R E V : Type} {S : ManagerSettings P R E}

def better (S : ManagerSettings P R E) (challenger other : E) : Bool :=
  decide (S.estimator.lower_bound challenger > S.estimator.upper_bound other)

/-- Dummy return false. -/
def worse : Bool := false

/-- A pair of new estimators. -/
def new_slot (S : ManagerSettings P R E) : LiveSlot E :=
  (⟨S.estimator.initial, 0, false, []⟩, S.estimator.initial)

namespace InteractionConfigManager

/-- The constructor. -/
def initial (weights : DenseParameters V) (feature_width : Nat) (random_state : R) :
    InteractionConfigManager S V :=
  { total_champ_switches := 0
    total_learn_count := 0
    weights
    feature_width
    _config_oracle := .starting random_state
    ns_counter := .empty
    estimators := [new_slot S] }

variable (m : InteractionConfigManager S V)

/-! ## Scheduling -/

/-- The slot that `swap_eligible_to_inactivate` swaps with. -/
def find_swappable (live_slot : LiveSlot E) : Option Nat :=
  m.estimators.zipIdx.findIdx? fun (other, other_live_slot) =>
    !other.1.eligible_to_inactivate && other_live_slot != 0 &&
      better S live_slot.1._estimator other.1._estimator

/-- `estimators[live_slot].first.eligible_to_inactivate = eligible`. -/
def set_eligible (live_slot : Nat) (eligible : Bool) : Outcome (InteractionConfigManager S V) := do
  let estimators ← update_nth m.estimators live_slot fun slot =>
    ({ slot.1 with eligible_to_inactivate := eligible }, slot.2)
  return { m with estimators }

def swap_eligible_to_inactivate (live_slot : Nat) :
    Outcome (Bool × InteractionConfigManager S V) := do
  let slot ← nth m.estimators live_slot
  match m.find_swappable slot with
  | none => return (false, m)
  | some other_live_slot =>
    let m ← m.set_eligible live_slot false
    let m ← m.set_eligible other_live_slot true
    return (true, m)

/-- `configs[estimators[live_slot].first.config_index].state = Inactive`. -/
def inactivate (live_slot : Nat) : Outcome (InteractionConfigManager S V) := do
  let slot ← nth m.estimators live_slot
  let oracle ← m._config_oracle.set_state slot.1.config_index .Inactive
  return { m with _config_oracle := oracle }

def apply_config_at_slot (live_slot config_index : Nat) :
    Outcome (InteractionConfigManager S V) := do
  -- Allocate a new estimator if there is none.
  let estimators :=
    if m.estimators.length ≤ live_slot then
      let slot := new_slot S
      m.estimators ++
        [({ slot.1 with eligible_to_inactivate := decide (live_slot > S.priority_challengers) }, slot.2)]
    else m.estimators
  let estimators ← update_nth estimators live_slot fun slot =>
    ({ slot.1 with _estimator := S.estimator.reset_stats slot.1._estimator, config_index },
      S.estimator.reset_stats slot.2)
  let oracle ← m._config_oracle.set_state config_index .Live
  return { m with estimators, _config_oracle := oracle }

/-- The interactions of a slot are generated again. -/
def update_interactions (live_slot : Nat) : Outcome (InteractionConfigManager S V) := do
  let slot ← nth m.estimators live_slot
  let config ← nth m._config_oracle.configs slot.1.config_index
  let interactions ← apply_config_to_interactions S.ccb_on m.ns_counter S.interaction_type config
  return { m with
    estimators := m.estimators.set live_slot ({ slot.1 with live_interactions := interactions }, slot.2) }

/-- The queue, with the removed configurations skipped, and filled again if it is
    empty; and whether there is something in it. -/
def refill_queue : Outcome (Bool × InteractionConfigManager S V) := do
  let oracle ← m._config_oracle.skip_removed m._config_oracle.index_queue.popped
  if oracle.index_queue.popped.isEmpty then
    let (filled, oracle) ← oracle.repopulate_index_queue m.ns_counter
    return (filled, { m with _config_oracle := oracle })
  else return (true, { m with _config_oracle := oracle })

/-- The next configuration of the queue goes into the slot, with the champion's weights. -/
def apply_next_config [DecidableEq V] (live_slot : Nat) : Outcome (InteractionConfigManager S V) := do
  let (config_index, oracle) ← m._config_oracle.choose
  let m ← apply_config_at_slot { m with _config_oracle := oracle } live_slot
    config_index
  let m := { m with
    weights := move_innermost_offsets m.weights 0 live_slot m.feature_width S.max_live_configs false }
  m.update_interactions live_slot

/-- The part of `schedule` for a slot that needs a new configuration. -/
def replace_config [DecidableEq V] (live_slot : Nat) (is_live : Bool) :
    Outcome (InteractionConfigManager S V) := do
  let (filled, m) ← m.refill_queue
  if !filled then return m
  else do
    -- Only inactivate current config if lease is reached
    let m ← (if is_live then m.inactivate live_slot else .ok m)
    m.apply_next_config live_slot

/-- The loop body of `schedule`. -/
def schedule_slot [DecidableEq V] (live_slot : Nat) : Outcome (InteractionConfigManager S V) :=
  match m.estimators[live_slot]? with
  | none => m.replace_config live_slot false
  | some slot => do
    let config ← nth m._config_oracle.configs slot.1.config_index
    if config.state = .Removed ∨ S.estimator.update_count slot.1._estimator ≥ config.lease.toNat then
      if config.state = .Live then
        let configs ← update_nth m._config_oracle.configs slot.1.config_index fun config =>
          { config with lease := config.lease * 2 }
        let m := { m with _config_oracle := { m._config_oracle with configs } }
        if !slot.1.eligible_to_inactivate then return m
        else do
          let (swapped, m) ← m.swap_eligible_to_inactivate live_slot
          if swapped then return m else m.replace_config live_slot true
      else m.replace_config live_slot false
    else return m

def schedule [DecidableEq V] : Outcome (InteractionConfigManager S V) :=
  (List.range S.max_live_configs).foldlM (fun m live_slot => m.schedule_slot live_slot) m

/-! ## Champions -/

/-- The winning challenger, if there is one, after challengers that are worse were removed. -/
def find_winner : Outcome (Option Nat × InteractionConfigManager S V) :=
  (List.range m.estimators.length).foldlM (fun (winner, m) live_slot => do
    if live_slot = 0 then return (winner, m)
    else do
      let slot ← nth m.estimators live_slot
      if better S slot.1._estimator slot.2 then return (some live_slot, m)
      else if worse then do
        let oracle ← m._config_oracle.set_state slot.1.config_index .Removed
        return (winner, { m with _config_oracle := oracle })
      else return (winner, m)) (none, m)

/-- The slots after a switch. The statistics are handed over along with the roles;
    interactions and configurations stay. -/
def switch_slots (champ old_champ : LiveSlot E) : List (LiveSlot E) :=
  [(champ.1, S.estimator.moved_from champ.2),
    (⟨champ.2, old_champ.1.config_index, old_champ.1.eligible_to_inactivate,
      old_champ.1.live_interactions⟩, champ.1._estimator)]

def apply_new_champ (winning_challenger_slot : Nat) : Outcome (InteractionConfigManager S V) := do
  let oracle := m._config_oracle.clear_queue
  let m ← m.set_eligible winning_challenger_slot false
  let m ← (if S.priority_challengers > 1 then m.set_eligible 0 false else .ok m)
  let champ ← nth m.estimators winning_challenger_slot
  let old_champ ← nth m.estimators 0
  let oracle ← oracle.keep_best_two champ.1.config_index
  let champ : LiveSlot E := ({ champ.1 with config_index := 0 }, champ.2)
  let old_champ : LiveSlot E := ({ old_champ.1 with config_index := 1 }, old_champ.2)
  let oracle ← oracle.gen_configs champ.1.live_interactions m.ns_counter
  return { m with estimators := switch_slots (S := S) champ old_champ, _config_oracle := oracle }

/-- The weights of the winner and of the old champion, on the way to slots 0 and 1. -/
def switch_weights [DecidableEq V] (winning_challenger_slot : Nat) : InteractionConfigManager S V :=
  let weights := move_innermost_offsets m.weights winning_challenger_slot 0 m.feature_width
    S.max_live_configs true
  let weights :=
    if winning_challenger_slot ≠ 1 then
      move_innermost_offsets weights winning_challenger_slot 1 m.feature_width S.max_live_configs false
    else weights
  { m with weights }

def check_for_new_champ [DecidableEq V] : Outcome (InteractionConfigManager S V) := do
  let (winner, m) ← m.find_winner
  match winner with
  | none => return m
  | some winning_challenger_slot =>
    let m := { m with total_champ_switches := m.total_champ_switches + 1 }
    (m.switch_weights winning_challenger_slot).apply_new_champ winning_challenger_slot

/-! ## Examples -/

def process_example (ec : List Example) : Outcome (InteractionConfigManager S V) := do
  let (new_ns_seen, ns_counter) := count_namespaces ec m.ns_counter
  let m := { m with ns_counter }
  if !new_ns_seen then return m
  else do
    -- Regenerate interactions if new namespaces are seen
    let m ← (List.range m.estimators.length).foldlM
      (fun m live_slot => update_interactions m live_slot) m
    let config ← nth m._config_oracle.configs 0
    if config.state = .New then
      let oracle ← m._config_oracle.set_state 0 .Live
      let champ ← nth m.estimators 0
      let oracle ← oracle.gen_configs champ.1.live_interactions m.ns_counter
      return { m with _config_oracle := oracle }
    else return m

/-- `do_learning`: the action that is ranked first, and the manager. -/
def do_learning (base : Learner V) (live_slot : Nat) : Outcome (Nat × InteractionConfigManager S V) := do
  let slot ← nth m.estimators live_slot
  let (data, action) := base live_slot slot.1.live_interactions m.weights.data
  return (action, { m with weights := { m.weights with data } })

def offset_learn (base : Learner V) (logged : CbClass) (labelled_action : Nat)
    (debug_reverse_learning_order : Bool) : Outcome (InteractionConfigManager S V) := do
  let w := if logged.probability > 0 then 1 / logged.probability else 0
  let r := if S.reward_as_cost then logged.cost else -logged.cost
  let size := m.estimators.length
  -- Learn and update estimators of challengers
  let m ← (List.range (size - 1)).foldlM (fun m i => do
    let live_slot := if debug_reverse_learning_order then size - (i + 1) else i + 1
    let (action, m) ← do_learning m base live_slot
    let estimators ← update_nth m.estimators live_slot fun slot =>
      ({ slot.1 with
          _estimator := S.estimator.update slot.1._estimator
            (if action = labelled_action then w else 0) r }, slot.2)
    return { m with estimators }) m
  -- Learn and get action of champ
  let (action, m) ← m.do_learning base 0
  (List.range (size - 1)).foldlM (fun m i => do
    let estimators ← update_nth m.estimators (i + 1) fun slot =>
      (slot.1, S.estimator.update slot.2 (if action = labelled_action then w else 0) r)
    return { m with estimators }) m

def one_step [DecidableEq V] (base : Learner V) (ec : List Example) (logged : CbClass)
    (labelled_action : Nat) (debug_reverse_learning_order : Bool) :
    Outcome (InteractionConfigManager S V) := do
  let m := { m with total_learn_count := m.total_learn_count + 1 }
  let m ← m.process_example ec
  let m ← m.schedule
  let m ← m.offset_learn base logged labelled_action debug_reverse_learning_order
  m.check_for_new_champ

end InteractionConfigManager

end VW.AutoML
