import VowpalWabbit.AutoML.Sizes
import VowpalWabbit.ModelUtils.RoundTrip
import VowpalWabbit.IoBuf.Runs

/-! # The manager in a model file

    `automl_iomodel.cc`: what `write_model_field` writes of the manager, and how
    `read_model_field` makes a manager of it. The interactions of the slots are not
    written; they are made again, and come out as they were.

    The overloads for the parts call each other for the members, one after the
    other, as those for nested pairs do.
-/

open Cpp VW.MultiModel VW.ModelUtils

namespace VW.AutoML

open List Outcome NsBasedConfig PriorityQueue

variable {P R E V : Type}

/-! ## Plain values -/

/-- The object representation of an unsigned integer. -/
def uint_pod (n v : Nat) : Pod n := ⟨le_bytes n v, length_le_bytes n v⟩

def pod_uint {n : Nat} (v : Pod n) : Nat := of_le_bytes v.1

theorem pod_uint_uint_pod {n v : Nat} (h : v < 256 ^ n) : pod_uint (uint_pod n v) = v :=
  of_le_bytes_le_bytes n v h

def namespace_pod (ns : NamespaceIndex) : Pod 1 := uint_pod 1 ns.toNat

def pod_namespace (v : Pod 1) : NamespaceIndex := BitVec.ofNat 8 (pod_uint v)

theorem pod_namespace_namespace_pod (ns : NamespaceIndex) : pod_namespace (namespace_pod ns) = ns := by
  unfold pod_namespace namespace_pod
  rw [pod_uint_uint_pod ns.isLt]
  exact BitVec.ofNat_toNat 8 ns

theorem interaction_pods (interaction : List NamespaceIndex) :
    (interaction.map namespace_pod).map pod_namespace = interaction := by
  rw [map_map, show pod_namespace ∘ namespace_pod = id from funext pod_namespace_namespace_pod,
    map_id]

def count_pod (count : BitVec 64) : Pod 8 := uint_pod 8 count.toNat

def pod_count (v : Pod 8) : BitVec 64 := BitVec.ofNat 64 (pod_uint v)

theorem pod_count_count_pod (count : BitVec 64) : pod_count (count_pod count) = count := by
  unfold pod_count count_pod
  rw [pod_uint_uint_pod count.isLt]
  exact BitVec.ofNat_toNat 64 count

def bool_pod (b : Bool) : Pod 1 := uint_pod 1 b.toNat

def pod_bool (v : Pod 1) : Bool := decide (pod_uint v ≠ 0)

theorem pod_bool_bool_pod (b : Bool) : pod_bool (bool_pod b) = b := by
  cases b <;> decide

/-- The numbers of the enumerators. -/
def ConfigState.number : ConfigState → Nat
  | .New => 0
  | .Live => 1
  | .Inactive => 2
  | .Removed => 3

/-- A number that is none of an enumerator is not modelled. -/
def ConfigState.of_number : Nat → Outcome ConfigState
  | 0 => .ok .New
  | 1 => .ok .Live
  | 2 => .ok .Inactive
  | 3 => .ok .Removed
  | _ => undefined

def ConfigType.number : ConfigType → Nat
  | .Exclusion => 0
  | .Interaction => 1

def ConfigType.of_number : Nat → Outcome ConfigType
  | 0 => .ok .Exclusion
  | 1 => .ok .Interaction
  | _ => undefined

/-! ## The fields -/

theorem byte_fits : 0 < 1 ∧ 1 < 2 ^ 63 := by decide

theorem word_fits : 0 < 4 ∧ 4 < 2 ^ 63 := by decide

def uint64_field : FieldType true (Pod 8) := .pod 8 (by decide)

/-- `std::set<std::vector<namespace_index>>`. -/
abbrev RawElements := OrderedSet (namespace_order.lex.toComparator.on (List.map pod_namespace))

/-- `ns_based_config`: the elements, the lease, the state and the type. -/
abbrev RawConfig := RawElements × Pod 8 × Pod 4 × Pod 4

def config_field : FieldType true RawConfig :=
  .pair (p := true) (q := true) (.set _ (.vector (.pod 1 byte_fits)))
    (.pair (p := true) (q := true) uint64_field
      (.pair (p := true) (q := true) (.pod 4 word_fits) (.pod 4 word_fits)))

def NsBasedConfig.raw (config : NsBasedConfig) : RawConfig :=
  (config.elements.encoded interaction_pods, count_pod config.lease, uint_pod 4 config.state.number,
    uint_pod 4 config.conf_type.number)

def NsBasedConfig.of_raw (raw : RawConfig) : Outcome NsBasedConfig := do
  let state ← ConfigState.of_number (pod_uint raw.2.2.1)
  let conf_type ← ConfigType.of_number (pod_uint raw.2.2.2)
  return { elements := raw.1.decoded, lease := pod_count raw.2.1, state, conf_type }

/-- `std::map<namespace_index, uint64_t>`. -/
abbrev RawCounter := OrderedMap (namespace_order.toComparator.on pod_namespace) (Pod 8)

def counter_field : FieldType true RawCounter := .map _ (.pod 1 byte_fits) uint64_field

def raw_counter (ns_counter : NsCounter) : RawCounter :=
  ns_counter.encoded pod_namespace_namespace_pod count_pod

/-- How priorities and estimators are model fields. An estimator has fewer than
    `2 ^ 32` elements in its containers. -/
structure Stored (P E : Type) where
  priority : P → Pod 4
  of_priority : Pod 4 → P
  of_priority_priority : ∀ p, of_priority (priority p) = p
  Raw : Type
  estimator_field : FieldType true Raw
  estimator : E → Raw
  of_estimator : Raw → E
  estimator_fits : ∀ e, SizesFit estimator_field (estimator e)

section Fields

variable (F : Stored P E)

/-- `std::pair<aml_estimator, estimator_impl>`: the estimator of the slot, the index of
    its configuration and whether it is eligible, and the estimator for the champion. -/
abbrev Stored.RawSlot := (F.Raw × Pod 8 × Pod 1) × F.Raw

def slot_field : FieldType true F.RawSlot :=
  .pair (p := true) (q := true)
    (.pair (p := true) (q := true) F.estimator_field
      (.pair (p := true) (q := true) uint64_field (.pod 1 byte_fits)))
    F.estimator_field

def raw_slot (slot : LiveSlot E) : F.RawSlot :=
  ((F.estimator slot.1._estimator, uint_pod 8 slot.1.config_index,
    bool_pod slot.1.eligible_to_inactivate), F.estimator slot.2)

/-- The interactions are not in the file. -/
def of_raw_slot (raw : F.RawSlot) : LiveSlot E :=
  (⟨F.of_estimator raw.1.1, pod_uint raw.1.2.1, pod_bool raw.1.2.2, []⟩, F.of_estimator raw.2)

/-- An entry of the queue: `std::pair<float, uint64_t>`. -/
def raw_entry (entry : P × Nat) : Pod 4 × Pod 8 := (F.priority entry.1, uint_pod 8 entry.2)

def of_raw_entry (raw : Pod 4 × Pod 8) : P × Nat := (F.of_priority raw.1, pod_uint raw.2)

/-- `std::priority_queue<std::pair<float, uint64_t>>`. -/
abbrev RawQueue (order : Comparator (P × Nat)) := PriorityQueue (order.on (of_raw_entry F))

def queue_field (order : Comparator (P × Nat)) : FieldType false (RawQueue F order) :=
  .priority_queue _ (stable_push _) (.pair (p := true) (q := true) (.pod 4 word_fits) uint64_field)

def raw_queue {order : Comparator (P × Nat)} (queue : PriorityQueue order) : RawQueue F order :=
  (queue.popped.map (raw_entry F)).foldl (fun raw entry => (stable_push _).push entry raw)
    .empty

end Fields

/-! ## Writing and reading -/

namespace InteractionConfigManager

variable {S : ManagerSettings P R E} (F : Stored P E)

/-- What `write_model_field` writes, in order; the champion is always in slot 0. -/
def fields (m : InteractionConfigManager S V) (upstream_name : String) : List Field :=
  [⟨_, _, uint64_field, count_pod m.total_learn_count, upstream_name ++ "_count"⟩,
    ⟨_, _, uint64_field, uint_pod 8 0, upstream_name ++ "_champ"⟩,
    ⟨_, _, uint64_field, uint_pod 8 m._config_oracle.valid_config_size,
      upstream_name ++ "_valid_config_size"⟩,
    ⟨_, _, counter_field, raw_counter m.ns_counter, upstream_name ++ "_ns_counter"⟩,
    ⟨_, _, .vector config_field, m._config_oracle.configs.map raw,
      upstream_name ++ "_configs"⟩,
    ⟨_, _, .vector (slot_field F), m.estimators.map (raw_slot F), upstream_name ++ "_estimators"⟩,
    ⟨_, _, queue_field F S.queue_order, raw_queue F m._config_oracle.index_queue,
      upstream_name ++ "_index_queue"⟩]

/-- `write_model_field`: the number of bytes, and the output. -/
def write_model_field (m : InteractionConfigManager S V) (upstream_name : String) (o : Output) :
    Outcome (Nat × Output) := do
  let (bytes, o) ← write_fields (m.fields F upstream_name) o
  return (bytes.sum, o)

/-- `read_model_field`: the number of bytes, and the manager. The table and the slots
    are cleared first, and the interactions of the slots are generated at the end. -/
def read_model_field (A : Allocator) (m : InteractionConfigManager S V) (b : IoBuf) :
    Outcome (Nat × InteractionConfigManager S V × IoBuf) := do
  let (k₁, total_learn_count, b) ←
    ModelUtils.read_model_field A uint64_field (count_pod m.total_learn_count) b
  let (k₂, _, b) ← ModelUtils.read_model_field A uint64_field (uint_pod 8 0) b
  let (k₃, valid_config_size, b) ←
    ModelUtils.read_model_field A uint64_field (uint_pod 8 m._config_oracle.valid_config_size) b
  let (k₄, ns_counter, b) ← ModelUtils.read_model_field A counter_field (raw_counter m.ns_counter) b
  let (k₅, configs, b) ← ModelUtils.read_model_field A (.vector config_field) [] b
  let (k₆, estimators, b) ← ModelUtils.read_model_field A (.vector (slot_field F)) [] b
  let (k₇, index_queue, b) ← ModelUtils.read_model_field A (queue_field F S.queue_order)
    (raw_queue F m._config_oracle.index_queue) b
  let configs ← configs.mapM of_raw
  let m : InteractionConfigManager S V := { m with
    total_learn_count := pod_count total_learn_count
    ns_counter := ns_counter.decoded pod_count
    estimators := estimators.map (of_raw_slot F)
    _config_oracle := { m._config_oracle with
      valid_config_size := pod_uint valid_config_size, configs, index_queue := index_queue.decoded } }
  let m ← (List.range m.estimators.length).foldlM
    (fun m live_slot => InteractionConfigManager.update_interactions m live_slot) m
  return (k₁ + k₂ + k₃ + k₄ + k₅ + k₆ + k₇, m, b)

end InteractionConfigManager

/-! ## What the fields stand for -/

theorem of_number_state (state : ConfigState) : ConfigState.of_number state.number = .ok state := by
  cases state <;> rfl

theorem of_number_type (conf_type : ConfigType) : ConfigType.of_number conf_type.number = .ok conf_type := by
  cases conf_type <;> rfl

theorem of_raw_raw (config : NsBasedConfig) : of_raw config.raw = .ok config := by
  have hstate : config.state.number < 256 ^ 4 := by cases config.state <;> decide
  have htype : config.conf_type.number < 256 ^ 4 := by cases config.conf_type <;> decide
  unfold of_raw raw
  rw [pod_uint_uint_pod hstate, of_number_state, ok_bind, pod_uint_uint_pod htype,
    of_number_type, ok_bind, OrderedSet.decoded_encoded, pod_count_count_pod]
  rfl

theorem mapM_of_raw (configs : List NsBasedConfig) :
    (configs.map raw).mapM of_raw = .ok configs := by
  induction configs with
  | nil => rfl
  | cons config configs ih =>
    rw [map_cons, mapM_cons, of_raw_raw, ok_bind, ih, ok_bind]
    rfl

section Fields

variable (F : Stored P E)

/-- The slot as it comes out of a file. -/
def restored_slot (slot : LiveSlot E) : LiveSlot E :=
  ({ slot.1 with _estimator := F.of_estimator (F.estimator slot.1._estimator), live_interactions := [] },
    F.of_estimator (F.estimator slot.2))

theorem of_raw_slot_raw_slot {slot : LiveSlot E} (h : slot.1.config_index < 256 ^ 8) :
    of_raw_slot F (raw_slot F slot) = restored_slot F slot := by
  unfold of_raw_slot raw_slot restored_slot
  rw [pod_uint_uint_pod h, pod_bool_bool_pod]

theorem raw_queue_perm {order : Comparator (P × Nat)} (queue : PriorityQueue order) :
    (raw_queue F queue).popped.Perm (queue.popped.map (raw_entry F)) := by
  have hperm := popped_foldl_push (stable_push (order.on (of_raw_entry F)))
    .empty (queue.popped.map (raw_entry F))
  rwa [show (empty : RawQueue F order).popped = [] from rfl, nil_append] at hperm

end Fields

/-! ## The sizes fit -/

theorem Removable.fits {config : NsBasedConfig} (h : Removable config.elements) :
    SizesFit config_field config.raw := by
  have hlength := h.length_le
  refine ⟨⟨?_, ?_⟩, trivial, trivial, trivial⟩
  · show (config.elements.elements.map _).length < 2 ^ 32
    rw [length_map]
    exact hlength.trans_lt (by decide)
  · intro raw hraw
    obtain ⟨interaction, hinteraction, rfl⟩ := mem_map.mp hraw
    refine ⟨?_, fun _ _ => trivial⟩
    rw [length_map]
    rcases (h interaction hinteraction).1 with hlen | hlen <;> rw [hlen] <;> decide

theorem counter_fits (ns_counter : NsCounter) : SizesFit counter_field (raw_counter ns_counter) := by
  have hlength := length_keys_le ns_counter
  refine ⟨?_, fun _ _ => ⟨trivial, trivial⟩⟩
  show (ns_counter.entries.map _).length < 2 ^ 32
  unfold OrderedMap.keys at hlength
  rw [length_map] at hlength ⊢
  exact hlength.trans_lt (by decide)

namespace InteractionConfigManager

variable {S : ManagerSettings P R E} (F : Stored P E)

/-- `automl_setup` throws when there are more slots than `MAX_CONFIGS`. -/
def MAX_CONFIGS : Nat := 129

variable {m : InteractionConfigManager S V}

theorem Sized.fits (h : m.Sized) (hrange : m.InRange) (hmax : S.max_live_configs ≤ MAX_CONFIGS)
    (upstream_name : String) : ∀ f ∈ m.fields F upstream_name, SizesFit f.type f.value := by
  have htable : MAX_TABLE < 2 ^ 32 := by decide
  have hslots : max 1 S.max_live_configs < 2 ^ 32 := by
    unfold MAX_CONFIGS at hmax
    omega
  have hqueue : m.queued.length < 2 ^ 32 := by
    have hle : m.queued.length ≤ m.valid := length_le_of_lt h.queue_nodup hrange.queue
    exact ((hle.trans hrange.oracle.valid_le).trans h.configs).trans_lt htable
  intro f hf
  simp only [fields, mem_cons, not_mem_nil, or_false] at hf
  rcases hf with rfl | rfl | rfl | rfl | rfl | rfl | rfl
  · exact trivial
  · exact trivial
  · exact trivial
  · exact counter_fits m.ns_counter
  · refine ⟨?_, ?_⟩
    · rw [length_map]
      exact h.configs.trans_lt htable
    · intro raw hraw
      obtain ⟨config, hconfig, rfl⟩ := mem_map.mp hraw
      exact (hrange.oracle.removable config hconfig).fits
  · refine ⟨?_, ?_⟩
    · rw [length_map]
      exact h.slots.trans_lt hslots
    · intro raw hraw
      obtain ⟨slot, _, rfl⟩ := mem_map.mp hraw
      exact ⟨⟨F.estimator_fits _, trivial, trivial⟩, F.estimator_fits _⟩
  · refine ⟨?_, fun _ _ => ⟨trivial, trivial⟩⟩
    rw [(raw_queue_perm F m._config_oracle.index_queue).length_eq, length_map]
    unfold queued at hqueue
    rwa [length_map] at hqueue

variable {upstream_name : String}

theorem fields_named (m : InteractionConfigManager S V)
    (hname : has_template upstream_name = false) :
    ∀ f ∈ m.fields F upstream_name, has_template f.name = false := by
  intro f hf
  simp only [fields, mem_cons, not_mem_nil, or_false] at hf
  rcases hf with rfl | rfl | rfl | rfl | rfl | rfl | rfl <;> exact has_template_append hname (by decide)

/-! ## Interactions again -/

/-- The slots with interactions that are those of their configurations. -/
theorem generate_interactions_returns {m : InteractionConfigManager S V} {final : List (LiveSlot E)}
    (hlength : final.length = m.estimators.length)
    (hslots : ∀ (j : Nat) (slot : LiveSlot E), final[j]? = some slot → ∃ old : LiveSlot E,
      m.estimators[j]? = some old ∧ old.1.config_index = slot.1.config_index ∧
      ({ old.1 with live_interactions := slot.1.live_interactions }, old.2) = slot)
    (hfollow : ∀ slot ∈ final, m.Follows slot) :
    Outcome.Returns ((range m.estimators.length).foldlM
      (fun m live_slot => update_interactions m live_slot) m)
      fun m' => m' = { m with estimators := final } := by
  -- the slots below `n` are done
  let Q : Nat → InteractionConfigManager S V → Prop := fun n m' => ∃ estimators,
    m' = { m with estimators } ∧ ∀ j, estimators[j]? = if j < n then final[j]? else m.estimators[j]?
  have hstart : Q 0 m := ⟨m.estimators, rfl, fun j => (if_neg (Nat.not_lt_zero j)).symm⟩
  apply (foldlM_range_returns Q hstart ?_).mono
  · rintro _ ⟨estimators, rfl, hget⟩
    congr 1
    apply ext_getElem?
    intro j
    rw [hget]
    split
    case isTrue => rfl
    case isFalse hj =>
      have hle := Nat.le_of_not_lt hj
      rw [getElem?_eq_none hle, getElem?_eq_none (hlength ▸ hle)]
  · rintro i hi _ ⟨estimators, rfl, hget⟩
    have hslot := getElem?_eq_getElem (hlength ▸ hi : i < final.length)
    generalize final[i] = slot at hslot
    obtain ⟨old, hold, hindex, hupdated⟩ := hslots i slot hslot
    obtain ⟨config, hconfig, happly⟩ := hfollow slot (mem_of_getElem? hslot)
    have hget_i : estimators[i]? = some old := by
      rw [hget, if_neg (Nat.lt_irrefl i), hold]
    have hconfig' : m._config_oracle.configs[old.1.config_index]? = some config := by
      rw [hindex]
      exact hconfig
    refine ⟨{ m with estimators := estimators.set i slot }, ?_, _, rfl, ?_⟩
    · unfold update_interactions
      rw [nth_eq_ok.mpr hget_i, ok_bind, nth_eq_ok.mpr hconfig', ok_bind]
      rw [happly, ok_bind, hupdated]
      rfl
    · intro j
      rcases Nat.lt_trichotomy j i with hj | rfl | hj
      · rw [getElem?_set_ne hj.ne', hget, if_pos hj, if_pos (Nat.lt_succ_of_lt hj)]
      · rw [getElem?_set_self (List.getElem?_eq_some_iff.mp hget_i).1, if_pos (Nat.lt_succ_self j),
          hslot]
      · rw [getElem?_set_ne hj.ne, hget, if_neg (by omega), if_neg (by omega)]

/-! ## The manager comes back -/

/-- What a manager and its copy out of a file have in common. -/
structure Restored (m m' : InteractionConfigManager S V) : Prop where
  live_interactions : m'.estimators.map (fun slot => slot.1.live_interactions) =
    m.estimators.map fun slot => slot.1.live_interactions
  live_indices : m'.live_indices = m.live_indices
  configs : m'.configs = m.configs
  valid : m'.valid = m.valid
  ns_counter : m'.ns_counter = m.ns_counter
  total_learn_count : m'.total_learn_count = m.total_learn_count
  queued : m'.queued.Perm m.queued

/-- A copy of the slots, with their interactions. -/
def copied_slots (m : InteractionConfigManager S V) : List (LiveSlot E) :=
  m.estimators.map fun slot => ({ (restored_slot F slot).1 with
    live_interactions := slot.1.live_interactions }, (restored_slot F slot).2)

/-- Reading the fields of a manager into a new one. -/
theorem read_fields_returns (hrange : m.InRange) (hsized : m.Sized) (hfollow : m.AllFollow)
    {A : Allocator} {ks : List Nat} {b : IoBuf} {rest : List Byte}
    (hback : ReadsBack A (m.fields F upstream_name) ks b rest) (weights : DenseParameters V)
    (feature_width : Nat) (random_state : R) :
    Outcome.Returns (read_model_field F A (initial (S := S) weights feature_width random_state) b)
      fun r => r.1 = ks.sum ∧ m.Restored r.2.1 ∧ r.2.2.stream = rest := by
  have hvalid : m.valid < 256 ^ 8 :=
    (hrange.oracle.valid_le.trans hsized.configs).trans_lt (by decide)
  obtain ⟨k₁, ks₁, count, b₁, rfl, hread₁, hcount, hback⟩ := hback.cons
  obtain ⟨k₂, ks₂, champ, b₂, rfl, hread₂, _, hback⟩ := hback.cons
  obtain ⟨k₃, ks₃, valid, b₃, rfl, hread₃, hvalid_eq, hback⟩ := hback.cons
  obtain ⟨k₄, ks₄, counter, b₄, rfl, hread₄, hcounter, hback⟩ := hback.cons
  obtain ⟨k₅, ks₅, configs, b₅, rfl, hread₅, hconfigs, hback⟩ := hback.cons
  obtain ⟨k₆, ks₆, slots, b₆, rfl, hread₆, hslots, hback⟩ := hback.cons
  obtain ⟨k₇, ks₇, queue, b₇, rfl, hread₇, hqueue, hback⟩ := hback.cons
  obtain ⟨rfl, _, hstream⟩ := hback
  obtain rfl := eq_of_equal uint64_field rfl _ _ hcount
  obtain rfl := eq_of_equal uint64_field rfl _ _ hvalid_eq
  obtain rfl := eq_of_equal counter_field rfl _ _ hcounter
  obtain rfl := eq_of_equal (.vector config_field) rfl _ _ hconfigs
  obtain rfl := eq_of_equal (.vector (slot_field F)) rfl _ _ hslots
  have hlive : ∀ slot ∈ m.estimators, slot.1.config_index < 256 ^ 8 := fun slot hslot =>
    (hrange.live _ (mem_map_of_mem hslot)).trans hvalid
  have hrestored : (m.estimators.map (raw_slot F)).map (of_raw_slot F) =
      m.estimators.map (restored_slot F) := by
    rw [map_map]
    exact map_congr_left fun slot hslot => of_raw_slot_raw_slot F (hlive slot hslot)
  have hns : (raw_counter m.ns_counter).decoded pod_count = m.ns_counter :=
    OrderedMap.decoded_encoded _ pod_count_count_pod _
  -- the manager before its interactions are generated
  let start : InteractionConfigManager S V := initial weights feature_width random_state
  let copy : InteractionConfigManager S V :=
    { start with
      total_learn_count := m.total_learn_count
      ns_counter := m.ns_counter
      estimators := m.estimators.map (restored_slot F)
      _config_oracle := { start._config_oracle with
        valid_config_size := m.valid, configs := m.configs, index_queue := queue.decoded } }
  have hgenerate := @generate_interactions_returns _ _ _ _ _ copy (m.copied_slots F) (by
    unfold copied_slots
    rw [length_map]
    exact (length_map _).symm) (by
    intro j slot hslot
    obtain ⟨old, hold, rfl⟩ := Option.map_eq_some_iff.mp ((getElem?_map ..).symm.trans hslot)
    refine ⟨restored_slot F old, ?_, rfl, rfl⟩
    rw [getElem?_map, hold]
    rfl) (by
    intro slot hslot
    obtain ⟨old, hold, rfl⟩ := mem_map.mp hslot
    exact hfollow old hold)
  obtain ⟨m', hrun, rfl⟩ := hgenerate
  refine ⟨(k₁ + k₂ + k₃ + k₄ + k₅ + k₆ + k₇, { copy with estimators := m.copied_slots F }, b₇), ?_,
    ?_, ?_, hstream⟩
  · -- what a plain value was before does not matter, and the other members were empty
    have hread₁' : ModelUtils.read_model_field A uint64_field (count_pod start.total_learn_count) b =
      .ok (k₁, count_pod m.total_learn_count, b₁) := hread₁
    have hread₂' : ModelUtils.read_model_field A uint64_field (uint_pod 8 0) b₁ = .ok (k₂, champ, b₂) :=
      hread₂
    have hread₃' : ModelUtils.read_model_field A uint64_field
      (uint_pod 8 start._config_oracle.valid_config_size) b₂ = .ok (k₃, uint_pod 8 m.valid, b₃) := hread₃
    have hread₄' : ModelUtils.read_model_field A counter_field (raw_counter start.ns_counter) b₃ =
      .ok (k₄, raw_counter m.ns_counter, b₄) := hread₄
    have hread₅' : ModelUtils.read_model_field A (.vector config_field) [] b₄ =
      .ok (k₅, m._config_oracle.configs.map raw, b₅) := hread₅
    have hread₆' : ModelUtils.read_model_field A (.vector (slot_field F)) [] b₅ =
      .ok (k₆, m.estimators.map (raw_slot F), b₆) := hread₆
    have hread₇' : ModelUtils.read_model_field A (queue_field F S.queue_order)
      (raw_queue F start._config_oracle.index_queue) b₆ = .ok (k₇, queue, b₇) := hread₇
    unfold read_model_field
    rw [hread₁', ok_bind]
    dsimp only
    rw [hread₂', ok_bind]
    dsimp only
    rw [hread₃', ok_bind]
    dsimp only
    rw [hread₄', ok_bind]
    dsimp only
    rw [hread₅', ok_bind]
    dsimp only
    rw [hread₆', ok_bind]
    dsimp only
    rw [hread₇', ok_bind]
    dsimp only
    rw [mapM_of_raw, ok_bind, hrestored, hns, pod_count_count_pod, pod_uint_uint_pod hvalid]
    have hrun' := congrArg (fun x => x >>= fun m' =>
      (.ok (k₁ + k₂ + k₃ + k₄ + k₅ + k₆ + k₇, m', b₇) : Outcome (Nat × InteractionConfigManager S V × IoBuf)))
      hrun
    exact hrun'
  · simp only [sum_cons, sum_nil]
    omega
  · constructor
    · show (m.copied_slots F).map _ = _
      unfold copied_slots
      rw [map_map]
      rfl
    · show (m.copied_slots F).map _ = _
      unfold copied_slots
      rw [map_map]
      rfl
    · rfl
    · rfl
    · rfl
    · rfl
    · have hperm := (hqueue.trans (raw_queue_perm F m._config_oracle.index_queue)).map fun raw => pod_uint raw.2
      show (queue.popped.map _).map _ |>.Perm _
      rw [map_map]
      refine hperm.trans ?_
      rw [map_map]
      unfold queued
      apply List.Perm.of_eq
      apply map_congr_left
      intro entry hentry
      exact pod_uint_uint_pod ((hrange.queue _ (mem_map_of_mem hentry)).trans hvalid)

/-- In every run the interactions of each slot are those of its configuration; and a new
    manager that reads what was written of the manager has the same ones in each slot. -/
theorem live_interactions_survive [DecidableEq V] (hmax : S.max_live_configs ≤ MAX_CONFIGS)
    {may_schedule : InteractionConfigManager S V → Prop} {m : InteractionConfigManager S V}
    (h : Reachable may_schedule m) {upstream_name : String} (hname : has_template upstream_name = false)
    (o : Output) :
    m.AllFollow ∧ ∃ k o' bytes, m.write_model_field F upstream_name o = .ok (k, o') ∧
      o'.written = o.written ++ bytes ∧
      ∀ (A : Allocator) (b : IoBuf) (rest : List Byte) (weights : DenseParameters V)
        (feature_width : Nat) (random_state : R), b.Wf A → b.stream = bytes ++ rest →
        A.Provides (2 * bytes.length) →
        Outcome.Returns (read_model_field F A (initial (S := S) weights feature_width random_state) b)
          fun r => r.1 = k ∧ m.Restored r.2.1 ∧ r.2.2.stream = rest := by
  obtain ⟨hrunning, hfollow, hsized⟩ := h.kept kept_sized
  have hrange := hrunning.in_range
  refine ⟨hfollow, ?_⟩
  obtain ⟨ks, o', bytes, hwrite, hwritten, hback⟩ := model_fields_round_trip (m.fields F upstream_name)
    (hsized.fits F hrange hmax upstream_name) (m.fields_named F hname) o
  refine ⟨ks.sum, o', bytes, ?_, hwritten, ?_⟩
  · unfold write_model_field
    rw [hwrite]
    rfl
  · intro A b rest weights feature_width random_state hb hstream hmem
    exact read_fields_returns F hrange hsized hfollow (hback A b rest hb hstream hmem) weights
      feature_width random_state

end InteractionConfigManager

/-! ## A sample -/

/-- Settings with priorities of four bytes. -/
def saved_settings : ManagerSettings (Pod 4) Unit Nat where
  queue_order := ((LinearComparator.of_key pod_uint fun x y h => by
    apply Subtype.ext
    rw [← le_bytes_of_le_bytes x.1, ← le_bytes_of_le_bytes y.1, x.2, y.2]
    exact congrArg (le_bytes 4) h).prod (.of_key id fun _ _ h => h)).toComparator
  calc_priority _ _ := .ok (uint_pod 4 0)
  calc_priority_safe _ _ _ := trivial
  random_index _ _ := (0, ())
  random_index_lt _ _ hn := hn
  default_lease := 4000
  oracle_type := .one_diff
  interaction_type := .quadratic
  conf_type := .Exclusion
  interaction_type_both := sample_settings.interaction_type_both
  conf_type_eq := rfl
  estimator := counting_estimator
  max_live_configs := 2
  priority_challengers := 0
  ccb_on := false
  reward_as_cost := false

def stored_counts : Stored (Pod 4) Nat where
  priority p := p
  of_priority p := p
  of_priority_priority _ := rfl
  Raw := Pod 8
  estimator_field := uint64_field
  estimator := uint_pod 8
  of_estimator := pod_uint
  estimator_fits _ := trivial

open InteractionConfigManager

/-- Two namespaces are seen, and a challenger is scheduled. -/
theorem live_interactions_survive_two_slots :
    ∃ m : InteractionConfigManager saved_settings Nat, Reachable (fun _ => True) m ∧
      m.live_indices = [0, 3] ∧ m.AllFollow ∧
      ∃ k o' bytes, m.write_model_field stored_counts "_automl_config_manager" {} = .ok (k, o') ∧
        o'.written = bytes ∧ ∀ (b : IoBuf), b.Wf flat_memory → b.stream = bytes →
          flat_memory.Provides (2 * bytes.length) → ∃ r, read_model_field stored_counts flat_memory
            (initial ⟨fun p => p, 8, 0⟩ 2 ()) b = .ok r ∧ m.Restored r.2.1 := by
  obtain ⟨m, hm, hlive⟩ := exists_of_map_eq_ok
    (x := (initial (S := saved_settings) (V := Nat) ⟨fun p => p, 8, 0⟩ 2 ()).process_example
      [[97, 98]] >>= fun m => m.schedule) (f := fun m => m.live_indices) (b := [0, 3]) rfl
  obtain ⟨m₁, hm₁, hschedule⟩ := bind_eq_ok.mp hm
  have hreach : Reachable (fun _ => True) m :=
    .step (.step (.initial _ _ _) (.process_example _ hm₁)) (.schedule trivial hschedule)
  obtain ⟨hfollow, k, o', bytes, hwrite, hwritten, hread⟩ := live_interactions_survive stored_counts
    (by decide) hreach (show has_template "_automl_config_manager" = false by decide) {}
  refine ⟨m, hreach, hlive, hfollow, k, o', bytes, hwrite, hwritten, ?_⟩
  intro b hb hstream hmem
  obtain ⟨r, hr, _, hrestored, _⟩ := hread flat_memory b [] ⟨fun p => p, 8, 0⟩ 2 () hb
    (by rw [hstream, append_nil]) hmem
  exact ⟨r, hr, hrestored⟩

end VW.AutoML
