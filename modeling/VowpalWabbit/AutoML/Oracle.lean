import VowpalWabbit.AutoML.Config
import VowpalWabbit.Framework.Vectors

/-! # Oracles

    `config_oracle` of `core/automl_impl.h`, for the five implementations that
    there are: the table of configurations, the queue of those that wait for a
    slot, and how new configurations come from the champion.

    A set that was moved from is empty, and so is one that was moved onto
    itself.
-/

open Cpp

namespace VW.AutoML

/-- The implementations, by the names of `--oracle_type`. -/
inductive OracleType where
  | one_diff
  | rand
  | champdupe
  | one_diff_inclusion
  | qbase_cubic
  deriving DecidableEq, Repr

/-- What `automl_setup` decides once for an oracle. Priorities are compared in
    pairs with the index; `calc_priority` reads the first namespace of each element.
    A random number in `[0, 1)` is only used times the size of a vector, as an index. -/
structure Settings (P R : Type) where
  queue_order : Comparator (P × Nat)
  calc_priority : NsBasedConfig → NsCounter → Outcome P
  calc_priority_safe : ∀ config ns_counter, Removable config.elements →
    Outcome.Safe (calc_priority config ns_counter) fun _ => True
  random_index : R → Nat → Nat × R
  random_index_lt : ∀ r n, 0 < n → (random_index r n).1 < n
  default_lease : BitVec 64
  oracle_type : OracleType
  interaction_type : InteractionType
  conf_type : ConfigType
  interaction_type_both : interaction_type = .both ↔ oracle_type = .qbase_cubic
  conf_type_eq : conf_type = match oracle_type with
    | .one_diff_inclusion | .qbase_cubic => .Interaction
    | _ => .Exclusion

variable {P R : Type}

/-- Configurations are not sets of exclusions where both kinds of interactions are made. -/
theorem Settings.conf_type_of_both (S : Settings P R) (h : S.interaction_type = .both) :
    S.conf_type = .Interaction := by
  obtain ⟨_, _, _, _, _, _, oracle_type, interaction_type, conf_type, hboth, htype⟩ := S
  obtain rfl : oracle_type = .qbase_cubic := hboth.mp h
  exact htype

/-- `config_oracle`, with the members of `_impl`. -/
structure ConfigOracle (S : Settings P R) where
  index_queue : PriorityQueue S.queue_order
  configs : List NsBasedConfig
  valid_config_size : Nat
  last_seen_ns_count : Nat
  total_space : InteractionVec
  random_state : R

def insert_if_is_allowed_to_remove (new_elements : SetNsList) (interaction : List NamespaceIndex) :
    Outcome SetNsList :=
  if interaction.length = 2 ∨ interaction.length = 3 then
    if interaction.all is_allowed_to_remove then .ok (new_elements.insert interaction)
    else .ok new_elements
  else Outcome.throw_ UNKNOWN_INTERACTION_TYPE

/-- `gen_ns_groupings_at` of all oracles but `one_diff`: the interaction changes sides. -/
def gen_ns_groupings_at (all_interactions : InteractionVec) (num : Nat) (copy_champ : SetNsList) :
    Outcome SetNsList := do
  let interaction ← nth all_interactions num
  if !copy_champ.contains interaction then insert_if_is_allowed_to_remove copy_champ interaction
  else return copy_champ.erase interaction

/-- `one_diff_impl::gen_ns_groupings_at`; `exclusion` is what the iterator has to come. -/
def one_diff_gen_ns_groupings_at (champ_interactions : InteractionVec) (num : Nat)
    (exclusion : List (List NamespaceIndex)) (new_elements : SetNsList) :
    Outcome (List (List NamespaceIndex) × SetNsList) :=
  match champ_interactions[num]? with
  | some interaction => do
    -- Add one exclusion.
    let new_elements ← insert_if_is_allowed_to_remove new_elements interaction
    return (exclusion, new_elements)
  | none =>
    -- Remove one exclusion.
    match exclusion with
    | [] => .ok ([], new_elements)
    | x :: exclusion => .ok (exclusion, new_elements.erase x)

/-- `ns_based_config::reset`, and its constructor: what is stored under new elements. -/
def NsBasedConfig.reset (elements : SetNsList) (lease : BitVec 64) (conf_type : ConfigType) :
    NsBasedConfig :=
  { elements, lease, state := .New, conf_type }

namespace ConfigOracle

variable {S : Settings P R}

/-- `insert_starting_configuration` on a new oracle. -/
def starting (random_state : R) : ConfigOracle S :=
  { index_queue := .empty
    configs := [.reset .empty S.default_lease S.conf_type]
    valid_config_size := 1
    last_seen_ns_count := 0
    total_space := []
    random_state }

variable (o : ConfigOracle S)

/-- `index_queue.push(std::make_pair(priority, i))`. -/
def push_index (priority : P) (i : Nat) : ConfigOracle S :=
  { o with index_queue := (PriorityQueue.stable_push S.queue_order).push (priority, i) o.index_queue }

/-- The end of `insert_config`: the configuration at `valid_config_size` is ready. -/
def queue_config (ns_counter : NsCounter) : Outcome (Bool × ConfigOracle S) := do
  let config ← nth o.configs o.valid_config_size
  let priority ← S.calc_priority config ns_counter
  let o := o.push_index priority o.valid_config_size
  return (true, { o with valid_config_size := o.valid_config_size + 1 })

/-- `configs[i].elements == new_elements`. -/
def find_config (new_elements : SetNsList) : Option Nat :=
  o.configs.findIdx? fun config => config.elements.elements == new_elements.elements

/-- The place at `valid_config_size`, a stale one or a new one, gets the elements. -/
def store_config (new_elements : SetNsList) (conf_type : ConfigType) : ConfigOracle S :=
  let config := NsBasedConfig.reset new_elements S.default_lease conf_type
  { o with
    configs :=
      if o.valid_config_size < o.configs.length then o.configs.set o.valid_config_size config
      else o.configs ++ [config] }

/-- `configs[valid_config_size].reset(std::move(configs[i].elements), ...)`. -/
def reuse_config (i : Nat) (conf_type : ConfigType) : Outcome (ConfigOracle S) := do
  let stale ← nth o.configs i
  let configs := o.configs.set i { stale with elements := .empty }
  let elements := if i = o.valid_config_size then .empty else stale.elements
  let configs ← update_nth configs o.valid_config_size fun _ =>
    .reset elements S.default_lease conf_type
  return { o with configs }

def insert_config (new_elements : SetNsList) (ns_counter : NsCounter) (conf_type : ConfigType)
    (allow_dups : Bool) : Outcome (Bool × ConfigOracle S) :=
  match if allow_dups then none else o.find_config new_elements with
  | some i =>
    if i < o.valid_config_size then .ok (false, o)
    else do
      let o ← o.reuse_config i conf_type
      o.queue_config ns_counter
  | none => (o.store_config new_elements conf_type).queue_config ns_counter

/-! ## Generating configurations -/

/-- `auto champ = std::move(configs[0].elements)`. -/
def take_champ : Outcome (SetNsList × ConfigOracle S) := do
  let champ ← nth o.configs 0
  return (champ.elements, { o with configs := o.configs.set 0 { champ with elements := .empty } })

/-- `configs[0].elements = std::move(champ)`. -/
def restore_champ (champ : SetNsList) : Outcome (ConfigOracle S) := do
  let configs ← update_nth o.configs 0 fun config => { config with elements := champ }
  return { o with configs }

/-- `gen_configs` of `one_diff`. -/
def gen_one_diff (champ_interactions : InteractionVec) (ns_counter : NsCounter) :
    Outcome (ConfigOracle S) := do
  let (champ_excl, o) ← o.take_champ
  let (_, o) ← (List.range (champ_interactions.length + champ_excl.elements.length)).foldlM
    (fun (exclusion, o) num => do
      let (exclusion, copy_champ) ←
        one_diff_gen_ns_groupings_at champ_interactions num exclusion champ_excl
      let (_, o) ← insert_config o copy_champ ns_counter S.conf_type false
      return (exclusion, o)) (champ_excl.elements, o)
  o.restore_champ champ_excl

/-- `gen_configs` of `one_diff_inclusion`. -/
def gen_one_diff_inclusion (ns_counter : NsCounter) : Outcome (ConfigOracle S) := do
  let (champ_incl, o) ← o.take_champ
  let all_interactions :=
    if S.interaction_type = .quadratic then gen_quadratic_interactions ns_counter .empty
    else gen_cubic_interactions ns_counter .empty
  let o ← (List.range all_interactions.length).foldlM (fun o num => do
    let copy_champ ← gen_ns_groupings_at all_interactions num champ_incl
    let (_, o) ← insert_config o copy_champ ns_counter S.conf_type false
    return o) o
  o.restore_champ champ_incl

/-- `gen_configs` of `champdupe`. -/
def gen_champdupe (ns_counter : NsCounter) : Outcome (ConfigOracle S) :=
  if o.configs.length = 1 then
    (List.range 2).foldlM (fun o current => do
      let champ ← nth o.configs 0
      let (_, o) ←
        if current % 2 ≠ 0 then
          insert_config o champ.elements ns_counter S.conf_type true
        else insert_config o .empty ns_counter .Interaction true
      return o) o
  else .ok o

/-- The interactions over which `rand` and `qbase_cubic` choose. -/
def update_total_space (ns_counter : NsCounter) : ConfigOracle S :=
  if o.last_seen_ns_count ≠ ns_counter.entries.length then
    { o with
      last_seen_ns_count := ns_counter.entries.length
      total_space := match S.interaction_type with
        | .quadratic => gen_quadratic_interactions ns_counter .empty
        | .cubic | .both => gen_cubic_interactions ns_counter .empty }
  else o

/-- The vector begins with as many zeros as there are indices; these are put in
    between by the swaps. -/
def shuffled_indexes (n : Nat) (random_state : R) : Outcome (List Nat × R) :=
  (List.range n).foldlM (fun (indexes, random_state) i => do
    let (j, random_state) := S.random_index random_state indexes.length
    let indexes ← swap_nth indexes j i
    return (indexes, random_state)) (List.replicate n 0 ++ List.range n, random_state)

/-- `gen_configs` of `rand` and `qbase_cubic`. -/
def gen_random (ns_counter : NsCounter) : Outcome (ConfigOracle S) := do
  let o := o.update_total_space ns_counter
  let (indexes, random_state) ← shuffled_indexes (S := S) o.total_space.length o.random_state
  indexes.foldlM (fun o index => do
    let champ ← nth o.configs 0
    let copy_champ ← gen_ns_groupings_at o.total_space index champ.elements
    let (_, o) ← insert_config o copy_champ ns_counter S.conf_type false
    return o) { o with random_state }

def gen_configs (champ_interactions : InteractionVec) (ns_counter : NsCounter) :
    Outcome (ConfigOracle S) :=
  match S.oracle_type with
  | .one_diff => o.gen_one_diff champ_interactions ns_counter
  | .one_diff_inclusion => o.gen_one_diff_inclusion ns_counter
  | .champdupe => o.gen_champdupe ns_counter
  | .rand | .qbase_cubic => o.gen_random ns_counter

/-! ## Champions and the queue -/

def keep_best_two (winner_config_index : Nat) : Outcome (ConfigOracle S) := do
  let configs ← swap_nth o.configs 0 winner_config_index
  let configs ←
    (if winner_config_index ≠ 1 then swap_nth configs 1 winner_config_index else .ok configs)
  if S.oracle_type = .champdupe then
    let configs ← update_nth configs 2 ({ · with state := .Inactive })
    return { o with configs }
  else return { o with configs, valid_config_size := 2 }

def choose : Outcome (Nat × ConfigOracle S) :=
  match h : o.index_queue.popped with
  | [] => Outcome.undefined
  | top :: popped =>
    .ok (top.2, { o with index_queue := ⟨popped, by
      have hdesc := o.index_queue.descending
      rw [h] at hdesc
      exact (List.pairwise_cons.mp hdesc).2⟩ })

/-- The loop of `schedule` that skips removed configurations, on the entries that it
    has to go through. -/
def skip_removed : List (P × Nat) → ConfigOracle S → Outcome (ConfigOracle S)
  | [], o => .ok o
  | top :: rest, o => do
    let config ← nth o.configs top.2
    if config.state = .Removed then
      let (_, o) ← o.choose
      skip_removed rest o
    else return o

def clear_queue : ConfigOracle S := { o with index_queue := .empty }

/-- Whether there are configurations to choose from afterwards, and the oracle. -/
def repopulate_index_queue (ns_counter : NsCounter) : Outcome (Bool × ConfigOracle S) := do
  let o ← (List.range o.valid_config_size).foldlM (fun o i => do
    let config ← nth o.configs i
    if config.state = .New ∨ config.state = .Inactive then
      let priority ← S.calc_priority config ns_counter
      return push_index o priority i
    else return o) o
  return (!o.index_queue.popped.isEmpty, o)

/-- `configs[i].state = state`. -/
def set_state (i : Nat) (state : ConfigState) : Outcome (ConfigOracle S) := do
  let configs ← update_nth o.configs i ({ · with state })
  return { o with configs }

end ConfigOracle

end VW.AutoML
