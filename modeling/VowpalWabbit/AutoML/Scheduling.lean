import VowpalWabbit.AutoML.Insertion
import VowpalWabbit.AutoML.Manager

/-! # What scheduling does

    `schedule` goes over the slots. For each it may touch leases and flags, fill
    the queue again, and apply the next configuration of the queue: three
    relations that say all there is to a step, and that it has defined behaviour
    as long as all indices are in range.
-/

open Cpp VW.MultiModel

namespace VW.AutoML

open List Outcome Option ConfigOracle

variable {P R E V : Type} {S : ManagerSettings P R E}

namespace InteractionConfigManager

variable (m : InteractionConfigManager S V)

def configs : List NsBasedConfig := m._config_oracle.configs

def valid : Nat := m._config_oracle.valid_config_size

def queued : List Nat := m._config_oracle.index_queue.popped.map Prod.snd

/-- The configurations of the live slots. -/
def live_indices : List Nat := m.estimators.map fun slot => slot.1.config_index

/-- All indices can be used. -/
structure InRange : Prop where
  oracle : m._config_oracle.WellFormed
  live : ∀ i ∈ m.live_indices, i < m.valid
  queue : ∀ i ∈ m.queued, i < m.valid
  nonempty : m.estimators ≠ []

/-- A configuration that could be queued. -/
def Waiting (i : Nat) : Prop :=
  i < m.valid ∧ ∃ config, m.configs[i]? = some config ∧ (config.state = .New ∨ config.state = .Inactive)

/-- There is nothing to schedule. -/
def Exhausted : Prop := m.queued = [] ∧ ∀ i, ¬ m.Waiting i

/-! ## The queue -/

/-- The queue has changed, and nothing else. -/
structure Refilled (filled : Bool) (m' : InteractionConfigManager S V) : Prop where
  eq : ∃ queue, m' = { m with _config_oracle := { m._config_oracle with index_queue := queue } }
  mem : ∀ i ∈ m'.queued, i ∈ m.queued ∨ m.Waiting i
  nodup : m.queued.Nodup → m'.queued.Nodup
  filled_eq : filled = true → m'.queued ≠ []
  empty_eq : filled = false → m'.Exhausted

end InteractionConfigManager

namespace ConfigOracle

variable {S : Settings P R}

variable {o : ConfigOracle S}

/-- The top of the queue is taken. -/
theorem choose_spec {top : P × Nat} {rest : List (P × Nat)}
    (h : o.index_queue.popped = top :: rest) :
    ∃ queue, o.choose = .ok (top.2, { o with index_queue := queue }) ∧ queue.popped = rest := by
  unfold choose
  split
  case h_1 hnil =>
    rw [h] at hnil
    cases hnil
  case h_2 top' rest' hcons =>
    obtain ⟨rfl, rfl⟩ := cons.inj (hcons.symm.trans h)
    exact ⟨_, rfl, rfl⟩

/-- What is left after some entries were skipped. -/
theorem skip_removed_safe {entries : List (P × Nat)}
    (h : o.index_queue.popped = entries) (hrange : ∀ top ∈ entries, top.2 < o.configs.length) :
    Safe (skip_removed entries o) fun o' => ∃ queue, o' = { o with index_queue := queue } ∧
      queue.popped.Sublist o.index_queue.popped := by
  induction entries generalizing o with
  | nil => exact .ok ⟨o.index_queue, rfl, List.Sublist.refl _⟩
  | cons top rest ih =>
    unfold skip_removed
    apply (nth_safe (hrange top mem_cons_self)).bind
    intro config _
    split
    case isFalse => exact .ok ⟨o.index_queue, rfl, List.Sublist.refl _⟩
    case isTrue =>
      obtain ⟨queue, hchoose, hrest⟩ := choose_spec h
      rw [hchoose, ok_bind]
      have hskip := ih (o := { o with index_queue := queue }) hrest
        fun t ht => hrange t (mem_cons_of_mem top ht)
      apply hskip.mono
      rintro _ ⟨queue', rfl, hsub⟩
      refine ⟨queue', rfl, hsub.trans ?_⟩
      rw [hrest, h]
      exact sublist_cons_self top rest

/-- The indices whose state lets them be queued. -/
def waiting_indices (configs : List NsBasedConfig) (n : Nat) : List Nat :=
  (range n).filter fun i => (configs[i]?.map fun config =>
    decide (config.state = .New ∨ config.state = .Inactive)).getD false

theorem repopulate_index_queue_safe (ns_counter : NsCounter) (h : o.WellFormed) :
    Safe (o.repopulate_index_queue ns_counter) fun r =>
      ∃ queue, r = (!queue.popped.isEmpty, { o with index_queue := queue }) ∧
        (queue.popped.map Prod.snd).Perm (waiting_indices o.configs o.valid_config_size ++
          o.index_queue.popped.map Prod.snd) := by
  unfold repopulate_index_queue
  let Q : Nat → ConfigOracle S → Prop := fun n o' => ∃ queue, o' = { o with index_queue := queue } ∧
    (queue.popped.map Prod.snd).Perm (waiting_indices o.configs n ++ o.index_queue.popped.map Prod.snd)
  refine .bind (foldlM_range_safe Q ⟨o.index_queue, rfl, List.Perm.refl _⟩ ?_) ?_
  · rintro i hi _ ⟨queue, rfl, hperm⟩
    apply (nth_safe (l := o.configs) (hi.trans_le h.valid_le)).bind
    intro config hconfig
    have hnext : waiting_indices o.configs (i + 1) = waiting_indices o.configs i ++
        if config.state = .New ∨ config.state = .Inactive then [i] else [] := by
      unfold waiting_indices
      rw [range_succ, filter_append, filter_singleton, hconfig, map_some,
        getD_some]
      by_cases hstate : config.state = .New ∨ config.state = .Inactive
      · rw [decide_eq_true hstate, if_pos hstate, cond_true]
      · rw [decide_eq_false hstate, if_neg hstate, cond_false]
    split
    case isTrue hstate =>
      apply (S.calc_priority_safe config ns_counter
        (h.removable config (mem_of_getElem? hconfig))).bind
      intro priority _
      refine .ok ⟨_, rfl, ?_⟩
      rw [hnext, if_pos hstate]
      refine (((PriorityQueue.stable_push S.queue_order).perm _ _).map Prod.snd).trans ?_
      rw [append_assoc]
      exact (List.Perm.cons i hperm).trans perm_middle.symm
    case isFalse hstate =>
      refine .ok ⟨queue, rfl, ?_⟩
      rwa [hnext, if_neg hstate, append_nil]
  · rintro _ ⟨queue, rfl, hperm⟩
    exact .ok ⟨queue, rfl, hperm⟩

end ConfigOracle

namespace InteractionConfigManager

variable {m m' : InteractionConfigManager S V} {i live_slot config_index : Nat}

theorem mem_waiting_indices :
    i ∈ waiting_indices m._config_oracle.configs m._config_oracle.valid_config_size ↔
      m.Waiting i := by
  unfold waiting_indices Waiting configs valid
  rw [mem_filter, mem_range]
  apply and_congr_right
  intro _
  cases m._config_oracle.configs[i]? with
  | none => simp
  | some config => simp

theorem refill_queue_safe (h : m.InRange) :
    Safe m.refill_queue fun r => m.Refilled r.1 r.2 := by
  unfold refill_queue
  have hrange : ∀ top ∈ m._config_oracle.index_queue.popped,
      top.2 < m._config_oracle.configs.length := by
    intro top htop
    exact (h.queue _ (mem_map_of_mem htop)).trans_le h.oracle.valid_le
  apply (skip_removed_safe rfl hrange).bind
  rintro _ ⟨queue, rfl, hsub⟩
  have hsub' := hsub.map Prod.snd
  split
  case isFalse hfilled =>
    refine .ok ⟨⟨queue, rfl⟩, fun i hi => Or.inl (hsub'.subset hi), hsub'.nodup, ?_, ?_⟩
    · intro _ hnil
      apply hfilled
      rw [List.isEmpty_iff]
      exact map_eq_nil_iff.mp hnil
    · intro hfalse
      cases hfalse
  case isTrue hempty =>
    rw [List.isEmpty_iff] at hempty
    apply (repopulate_index_queue_safe (o := { m._config_oracle with index_queue := queue })
      m.ns_counter ⟨h.oracle.1, h.oracle.2⟩).bind
    rintro _ ⟨queue', rfl, hperm⟩
    dsimp only at hperm ⊢
    rw [hempty, map_nil, append_nil] at hperm
    refine .ok ⟨⟨queue', rfl⟩, ?_, ?_, ?_, ?_⟩
    · intro i hi
      exact Or.inr (mem_waiting_indices.mp (hperm.mem_iff.mp hi))
    · intro _
      exact hperm.nodup_iff.mpr (nodup_range.filter _)
    · intro hfilled hnil
      rw [map_eq_nil_iff.mp hnil] at hfilled
      cases hfilled
    · intro hfilled
      have hnil : queue'.popped = [] := by simpa using hfilled
      refine ⟨congrArg (List.map Prod.snd) hnil, ?_⟩
      intro i hi
      rw [hnil] at hperm
      have hmem := (mem_waiting_indices (m := m)).mpr hi
      rw [← hperm.mem_iff] at hmem
      cases hmem

/-! ## Changing slots -/

/-- The configurations are the same, up to leases and states. -/
def Restated (state : Nat → ConfigState → ConfigState) (configs configs' : List NsBasedConfig) :
    Prop :=
  ∃ lease : Nat → BitVec 64 → BitVec 64, ∀ i, configs'[i]? = configs[i]?.map fun config : NsBasedConfig =>
    { config with lease := lease i config.lease, state := state i config.state }

theorem Restated.refl (configs : List NsBasedConfig) :
    Restated (fun _ state => state) configs configs := by
  refine ⟨fun _ lease => lease, ?_⟩
  intro i
  cases configs[i]? <;> rfl

theorem Restated.trans {state state' : Nat → ConfigState → ConfigState}
    {configs configs₁ configs₂ : List NsBasedConfig} (h : Restated state configs configs₁)
    (h' : Restated state' configs₁ configs₂) :
    Restated (fun i s => state' i (state i s)) configs configs₂ := by
  obtain ⟨lease, hget⟩ := h
  obtain ⟨lease', hget'⟩ := h'
  refine ⟨fun i l => lease' i (lease i l), ?_⟩
  intro i
  rw [hget' i, hget i, Option.map_map]
  rfl

variable {config : NsBasedConfig}

/-- One configuration gets another state. -/
theorem Restated.set_state {configs : List NsBasedConfig} (h : configs[i]? = some config)
    (state : ConfigState) :
    Restated (fun j s => if j = i then state else s) configs
      (configs.set i { config with state }) := by
  refine ⟨fun _ lease => lease, ?_⟩
  intro j
  by_cases hj : j = i
  · subst hj
    rw [getElem?_set_self (List.getElem?_eq_some_iff.mp h).1, h]
    simp
  · rw [getElem?_set_ne (Ne.symm hj)]
    cases configs[j]? with
    | none => rfl
    | some c => simp [hj]

/-- One configuration gets another lease. -/
theorem Restated.set_lease {configs : List NsBasedConfig} {i : Nat} {config : NsBasedConfig}
    (h : configs[i]? = some config) (lease : BitVec 64) :
    Restated (fun _ s => s) configs (configs.set i { config with lease }) := by
  refine ⟨fun j l => if j = i then lease else l, ?_⟩
  intro j
  by_cases hj : j = i
  · subst hj
    rw [getElem?_set_self (List.getElem?_eq_some_iff.mp h).1, h]
    simp
  · rw [getElem?_set_ne (Ne.symm hj)]
    cases configs[j]? with
    | none => rfl
    | some c => simp [hj]

section Restated

variable {state : Nat → ConfigState → ConfigState} {configs configs' : List NsBasedConfig}

theorem Restated.length_eq (h : Restated state configs configs') :
    configs'.length = configs.length := by
  obtain ⟨lease, hget⟩ := h
  apply Nat.le_antisymm
  · by_contra hlt
    have hsome := getElem?_eq_getElem (Nat.lt_of_not_le hlt)
    rw [hget, getElem?_eq_none (Nat.le_refl _)] at hsome
    cases hsome
  · by_contra hlt
    have hnone := hget configs'.length
    rw [getElem?_eq_none (Nat.le_refl _), getElem?_eq_getElem (Nat.lt_of_not_le hlt)] at hnone
    cases hnone

/-- What a configuration of the new table was. -/
theorem Restated.get (h : Restated state configs configs') (hi : configs[i]? = some config) :
    ∃ config', configs'[i]? = some config' ∧
      config'.elements = config.elements ∧ config'.conf_type = config.conf_type ∧
      config'.state = state i config.state := by
  obtain ⟨lease, hget⟩ := h
  refine ⟨{ config with lease := lease i config.lease, state := state i config.state }, ?_, rfl, rfl, rfl⟩
  rw [hget i, hi]
  rfl

theorem Restated.get' (h : Restated state configs configs') {config' : NsBasedConfig}
    (hi : configs'[i]? = some config') : ∃ config, configs[i]? = some config ∧
      config'.elements = config.elements ∧ config'.conf_type = config.conf_type ∧
      config'.state = state i config.state := by
  obtain ⟨lease, hget⟩ := h
  rw [hget i] at hi
  obtain ⟨config, hconfig, rfl⟩ := map_eq_some_iff.mp hi
  exact ⟨config, hconfig, rfl, rfl, rfl⟩

theorem Restated.removable (h : Restated state configs configs')
    (hremovable : ∀ config ∈ configs, Removable config.elements) :
    ∀ config ∈ configs', Removable config.elements := by
  intro config' hconfig'
  obtain ⟨i, hi⟩ := mem_iff_getElem?.mp hconfig'
  obtain ⟨config, hconfig, helements, _⟩ := h.get' hi
  rw [helements]
  exact hremovable config (mem_of_getElem? hconfig)

end Restated

section Changes

variable (m : InteractionConfigManager S V)

/-- Leases and flags have changed; the flag of the champion was not set. -/
structure Touched (m' : InteractionConfigManager S V) : Prop where
  eq : ∃ configs estimators,
    m' = { m with _config_oracle := { m._config_oracle with configs }, estimators }
  configs_eq : Restated (fun _ state => state) m.configs m'.configs
  slots : ∃ flag : Nat → Bool → Bool, (∀ b, flag 0 b = true → b = true) ∧
    ∀ j, m'.estimators[j]? = m.estimators[j]?.map fun slot : LiveSlot E =>
      ({ slot.1 with eligible_to_inactivate := flag j slot.1.eligible_to_inactivate }, slot.2)

/-- The state of a configuration after `config_index` went into a slot, where
    another one may have been inactivated. -/
def state_applied (inactivated : Option Nat) (config_index i : Nat) (state : ConfigState) : ConfigState :=
  if i = config_index then .Live else if inactivated = some i then .Inactive else state

/-- The configuration of a slot. -/
def current (live_slot : Nat) : Option Nat := m.estimators[live_slot]?.map (·.1.config_index)

/-- The top of the queue has gone into a slot, and `inactivated` out of it. -/
structure Applied (live_slot : Nat) (inactivated : Option Nat) (config_index : Nat)
    (m' : InteractionConfigManager S V) : Prop where
  size_le : live_slot ≤ m.estimators.length
  eq : ∃ weights configs index_queue estimators,
    m' = { m with
      weights, _config_oracle := { m._config_oracle with configs, index_queue }, estimators }
  queue_eq : m.queued = config_index :: m'.queued
  configs_eq : Restated (state_applied inactivated config_index) m.configs m'.configs
  slots : ∃ slot : LiveSlot E, m'.estimators = put m.estimators live_slot slot ∧
    slot.1.config_index = config_index ∧
    S.estimator.update_count slot.1._estimator = 0 ∧ S.estimator.update_count slot.2 = 0 ∧
    ∃ config, m'.configs[config_index]? = some config ∧
      apply_config_to_interactions S.ccb_on m.ns_counter S.interaction_type config
        = .ok slot.1.live_interactions

end Changes

/-! ## A slot gets a configuration -/

theorem update_interactions_safe {m : InteractionConfigManager S V} {live_slot : Nat}
    {slot : LiveSlot E} {config : NsBasedConfig} (hslot : m.estimators[live_slot]? = some slot)
    (hconfig : m.configs[slot.1.config_index]? = some config) :
    Safe (m.update_interactions live_slot) fun m' => ∃ interactions,
      apply_config_to_interactions S.ccb_on m.ns_counter S.interaction_type config = .ok interactions ∧
      m' = { m with estimators :=
        m.estimators.set live_slot ({ slot.1 with live_interactions := interactions }, slot.2) } := by
  unfold update_interactions
  apply (nth_safe (List.getElem?_eq_some_iff.mp hslot).1).bind
  intro slot' hslot'
  obtain rfl : slot' = slot := some.inj (hslot'.symm.trans hslot)
  apply (nth_safe (l := m._config_oracle.configs) (List.getElem?_eq_some_iff.mp hconfig).1).bind
  intro config' hconfig'
  obtain rfl : config' = config := some.inj (hconfig'.symm.trans hconfig)
  have happly : Safe (apply_config_to_interactions S.ccb_on m.ns_counter S.interaction_type
      config') fun _ => True := by
    unfold apply_config_to_interactions config_interactions
    split <;> trivial
  apply happly.self.bind
  intro interactions hinteractions
  exact .ok ⟨interactions, hinteractions, rfl⟩

theorem set_state_safe {S : Settings P R} {o : ConfigOracle S} (hi : i < o.configs.length)
    (state : ConfigState) : Safe (o.set_state i state) fun o' =>
      ∃ configs, o' = { o with configs } ∧
        Restated (fun j s => if j = i then state else s) o.configs configs := by
  unfold set_state
  apply (update_nth_safe _ hi).bind
  rintro _ ⟨config, hconfig, rfl⟩
  exact .ok ⟨_, rfl, Restated.set_state hconfig state⟩

/-- A slot gets a configuration; a slot behind the last one is new. -/
theorem apply_config_at_slot_safe
    (hlt : config_index < m.configs.length) (hsize : live_slot ≤ m.estimators.length) :
    Safe (m.apply_config_at_slot live_slot config_index) fun m' => ∃ slot configs,
      m' = { m with
        _config_oracle := { m._config_oracle with configs }
        estimators := put m.estimators live_slot slot } ∧
      Restated (fun j s => if j = config_index then .Live else s) m.configs configs ∧
      slot.1.config_index = config_index ∧ S.estimator.update_count slot.1._estimator = 0 ∧
      S.estimator.update_count slot.2 = 0 := by
  unfold apply_config_at_slot
  split
  case isTrue hge =>
    obtain rfl : live_slot = m.estimators.length := Nat.le_antisymm hsize hge
    apply (update_nth_safe _ (by simp)).bind
    rintro _ ⟨slot, _, rfl⟩
    apply (set_state_safe (o := m._config_oracle) hlt .Live).bind
    rintro _ ⟨configs, rfl, hconfigs⟩
    refine .ok ⟨({ slot.1 with
      _estimator := S.estimator.reset_stats slot.1._estimator, config_index },
      S.estimator.reset_stats slot.2), configs, ?_, hconfigs, rfl, S.estimator.update_count_reset _,
      S.estimator.update_count_reset _⟩
    unfold put
    rw [if_neg (Nat.lt_irrefl _), set_append_right _ _ (Nat.le_refl _), Nat.sub_self]
    rfl
  case isFalse hnew =>
    have hslot := Nat.lt_of_not_le hnew
    apply (update_nth_safe _ hslot).bind
    rintro _ ⟨slot, _, rfl⟩
    apply (set_state_safe (o := m._config_oracle) hlt .Live).bind
    rintro _ ⟨configs, rfl, hconfigs⟩
    refine .ok ⟨({ slot.1 with
      _estimator := S.estimator.reset_stats slot.1._estimator, config_index },
      S.estimator.reset_stats slot.2), configs, ?_, hconfigs, rfl, S.estimator.update_count_reset _,
      S.estimator.update_count_reset _⟩
    unfold put
    rw [if_pos hslot]

theorem apply_next_config_safe [DecidableEq V]
    (hrange : ∀ i ∈ m.queued, i < m.configs.length) (hqueue : m.queued ≠ [])
    (hsize : live_slot ≤ m.estimators.length) :
    Safe (m.apply_next_config live_slot) fun m' =>
      ∃ config_index, m.Applied live_slot none config_index m' := by
  unfold apply_next_config
  obtain ⟨config_index, rest, hqueued⟩ := exists_cons_of_ne_nil hqueue
  obtain ⟨top, popped, hpopped, rfl, hrest⟩ := map_eq_cons_iff.mp hqueued
  obtain ⟨queue, hchoose, hqueue'⟩ := choose_spec hpopped
  have hlt : top.2 < m.configs.length := hrange _ (by rw [hqueued]; exact mem_cons_self)
  rw [hchoose, ok_bind]
  dsimp only
  generalize hm₁ : ({ m with _config_oracle := { m._config_oracle with index_queue := queue } } :
    InteractionConfigManager S V) = m₁
  have hestimators : m₁.estimators = m.estimators := by rw [← hm₁]
  have hconfigs₁ : m₁.configs = m.configs := by rw [← hm₁]; rfl
  have hns : m₁.ns_counter = m.ns_counter := by rw [← hm₁]
  rw [← hestimators] at hsize
  rw [← hconfigs₁] at hlt
  apply (apply_config_at_slot_safe hlt hsize).bind
  rintro _ ⟨slot, configs, rfl, hconfigs, hindex, hcount, hcount'⟩
  obtain ⟨config, hconfig, _⟩ := hconfigs.get (getElem?_eq_getElem hlt)
  have hget : (put m₁.estimators live_slot slot)[live_slot]? = some slot := by
    rw [getElem?_put hsize, if_pos rfl]
  refine .mono (@update_interactions_safe _ _ _ _ _ _ _ _ config hget ?_) ?_
  · rw [hindex]
    exact hconfig
  rintro _ ⟨interactions, hinteractions, rfl⟩
  refine ⟨top.2, ?_⟩
  constructor
  · rwa [← hestimators]
  · subst hm₁
    exact ⟨_, _, _, _, rfl⟩
  · subst hm₁
    rw [hqueued]
    show _ = top.2 :: queue.popped.map Prod.snd
    rw [hqueue', hrest]
  · rw [← hconfigs₁]
    exact hconfigs
  · refine ⟨({ slot.1 with live_interactions := interactions }, slot.2), ?_, hindex, hcount, hcount',
      config, hconfig, ?_⟩
    · rw [← hestimators]
      exact set_put hsize slot _
    · rw [← hns]
      exact hinteractions

/-! ## One slot -/

theorem Refilled.in_range {filled : Bool}
    (h : m.Refilled filled m') (hrange : m.InRange) : m'.InRange := by
  have hmem := h.mem
  obtain ⟨queue, rfl⟩ := h.eq
  refine ⟨⟨hrange.oracle.1, hrange.oracle.2⟩, hrange.live, ?_, hrange.nonempty⟩
  intro i hi
  rcases hmem i hi with hi | hi
  · exact hrange.queue i hi
  · exact hi.1

/-- Filling the queue finds nothing when there is nothing. -/
theorem Refilled.not_exhausted (h : m.Refilled true m') :
    ¬ m.Exhausted := by
  rintro ⟨hnil, hwaiting⟩
  obtain ⟨i, rest, hqueued⟩ := exists_cons_of_ne_nil (h.filled_eq rfl)
  rcases h.mem i (by rw [hqueued]; exact mem_cons_self) with hi | hi
  · rw [hnil] at hi
    cases hi
  · exact hwaiting i hi

theorem inactivate_safe
    (hcurrent : m.current live_slot = some config_index) (hlt : config_index < m.configs.length) :
    Safe (m.inactivate live_slot) fun m' => ∃ configs,
      m' = { m with _config_oracle := { m._config_oracle with configs } } ∧
      Restated (fun j s => if j = config_index then .Inactive else s) m.configs configs := by
  obtain ⟨slot, hslot, rfl⟩ := map_eq_some_iff.mp hcurrent
  unfold inactivate
  apply (nth_safe (List.getElem?_eq_some_iff.mp hslot).1).bind
  intro slot' hslot'
  obtain rfl : slot' = slot := some.inj (hslot'.symm.trans hslot)
  apply (set_state_safe (o := m._config_oracle) hlt .Inactive).bind
  rintro _ ⟨configs, rfl, hconfigs⟩
  exact .ok ⟨configs, rfl, hconfigs⟩

/-- Inactivating a configuration is part of applying another one. -/
theorem Applied.inactivated {configs : List NsBasedConfig}
    (h : Applied { m with _config_oracle := { m._config_oracle with configs } } live_slot none
      config_index m')
    (hconfigs : Restated (fun j s => if j = i then .Inactive else s) m.configs configs) :
    m.Applied live_slot (some i) config_index m' where
  size_le := h.size_le
  eq := by
    obtain ⟨weights, configs', queue, estimators, rfl⟩ := h.eq
    exact ⟨weights, configs', queue, estimators, rfl⟩
  queue_eq := h.queue_eq
  configs_eq := by
    have hboth := hconfigs.trans h.configs_eq
    have hstate : (fun j s => state_applied none config_index j (if j = i then .Inactive else s)) =
        state_applied (some i) config_index := by
      funext j s
      unfold state_applied
      simp [eq_comm]
    rwa [hstate] at hboth
  slots := h.slots

theorem replace_config_safe [DecidableEq V]
    {is_live : Bool} (hrange : m.InRange)
    (hsize : live_slot ≤ m.estimators.length ∨ m.Exhausted)
    (hlive : is_live = true → live_slot < m.estimators.length) :
    Safe (m.replace_config live_slot is_live) fun m' => m.Refilled false m' ∨
      ∃ m₁ config_index, m.Refilled true m₁ ∧
        m₁.Applied live_slot (if is_live then m.current live_slot else none) config_index m' := by
  unfold replace_config
  apply (refill_queue_safe hrange).bind
  rintro ⟨filled, m₁⟩ hrefilled
  dsimp only at hrefilled ⊢
  cases filled with
  | false => exact .ok (Or.inl hrefilled)
  | true =>
    have hsize := hsize.resolve_right hrefilled.not_exhausted
    have hrange₁ := hrefilled.in_range hrange
    have hqueue₁ : ∀ i ∈ m₁.queued, i < m₁.configs.length := fun i hi =>
      (hrange₁.queue i hi).trans_le hrange₁.oracle.valid_le
    have hestimators : m₁.estimators = m.estimators := by
      obtain ⟨queue, rfl⟩ := hrefilled.eq
      rfl
    rw [← hestimators] at hsize
    cases is_live with
    | false =>
      apply (apply_next_config_safe hqueue₁ (hrefilled.filled_eq rfl) hsize).mono
      rintro m' ⟨config_index, happlied⟩
      exact Or.inr ⟨m₁, config_index, hrefilled, happlied⟩
    | true =>
      obtain ⟨slot, hslot⟩ : ∃ slot, m.estimators[live_slot]? = some slot :=
        ⟨_, getElem?_eq_getElem (hlive rfl)⟩
      have hcurrent : m.current live_slot = some slot.1.config_index := by
        unfold current
        rw [hslot]
        rfl
      have hcurrent₁ : m₁.current live_slot = some slot.1.config_index := by
        unfold current at hcurrent ⊢
        rw [hestimators, hcurrent]
      have hlt : slot.1.config_index < m₁.configs.length := by
        apply (hrange₁.live _ ?_).trans_le hrange₁.oracle.valid_le
        unfold live_indices
        rw [hestimators]
        exact mem_map_of_mem (mem_of_getElem? hslot)
      apply (inactivate_safe hcurrent₁ hlt).bind
      rintro _ ⟨configs, rfl, hconfigs⟩
      have hqueue₂ : ∀ i ∈ m₁.queued, i < configs.length := by
        rw [hconfigs.length_eq]
        exact hqueue₁
      refine .mono (apply_next_config_safe hqueue₂ (hrefilled.filled_eq rfl) hsize) ?_
      rintro m' ⟨config_index, happlied⟩
      rw [if_pos rfl, hcurrent]
      exact Or.inr ⟨m₁, config_index, hrefilled, happlied.inactivated hconfigs⟩

/-! ## Leases and flags -/

theorem Touched.trans {m₁ m₂ : InteractionConfigManager S V} (h : m.Touched m₁)
    (h' : m₁.Touched m₂) : m.Touched m₂ where
  eq := by
    obtain ⟨_, _, rfl⟩ := h.eq
    obtain ⟨configs, estimators, rfl⟩ := h'.eq
    exact ⟨configs, estimators, rfl⟩
  configs_eq := h.configs_eq.trans h'.configs_eq
  slots := by
    obtain ⟨flag, hchamp, hget⟩ := h.slots
    obtain ⟨flag', hchamp', hget'⟩ := h'.slots
    refine ⟨fun j b => flag' j (flag j b), fun b hb => hchamp b (hchamp' _ hb), ?_⟩
    intro j
    rw [hget' j, hget j, Option.map_map]
    rfl

/-- Only leases have changed. -/
theorem Touched.of_configs {configs : List NsBasedConfig}
    (h : Restated (fun _ s => s) m.configs configs) :
    m.Touched { m with _config_oracle := { m._config_oracle with configs } } where
  eq := ⟨configs, m.estimators, rfl⟩
  configs_eq := h
  slots := by
    refine ⟨fun _ b => b, fun _ hb => hb, ?_⟩
    intro j
    exact map_id'.symm

theorem Touched.refl (m : InteractionConfigManager S V) : m.Touched m := .of_configs (Restated.refl _)

theorem set_eligible_safe {eligible : Bool}
    (hlt : live_slot < m.estimators.length) (hchamp : live_slot = 0 → eligible = false) :
    Safe (m.set_eligible live_slot eligible) m.Touched := by
  unfold set_eligible
  apply (update_nth_safe _ hlt).bind
  rintro _ ⟨slot, hslot, rfl⟩
  refine .ok ⟨⟨_, _, rfl⟩, Restated.refl _, ?_⟩
  refine ⟨fun j b => if j = live_slot then eligible else b, ?_, ?_⟩
  · intro b hb
    dsimp only at hb
    split at hb
    case isTrue h =>
      rw [hchamp h.symm] at hb
      cases hb
    case isFalse => exact hb
  · intro j
    by_cases hj : j = live_slot
    · subst hj
      rw [getElem?_set_self hlt, hslot]
      simp
    · rw [getElem?_set_ne (Ne.symm hj)]
      simp only [hj, if_false]
      exact map_id'.symm

theorem Touched.length_eq (h : m.Touched m') :
    m'.estimators.length = m.estimators.length := by
  obtain ⟨flag, _, hget⟩ := h.slots
  have hmap : m'.estimators.map (fun slot => (slot.1.config_index, slot.2)) =
      m.estimators.map (fun slot => (slot.1.config_index, slot.2)) := by
    apply ext_getElem?
    intro j
    rw [getElem?_map, getElem?_map, hget j, Option.map_map]
    rfl
  simpa using congrArg length hmap

theorem swap_eligible_to_inactivate_safe
    (hlt : live_slot < m.estimators.length) :
    Safe (m.swap_eligible_to_inactivate live_slot) fun r => m.Touched r.2 := by
  unfold swap_eligible_to_inactivate
  apply (nth_safe hlt).bind
  intro slot _
  split
  case h_1 => exact .ok (Touched.refl m)
  case h_2 other hother =>
    obtain ⟨hother_lt, hother_ne⟩ : other < m.estimators.length ∧ other ≠ 0 := by
      obtain ⟨hlt, htest, _⟩ := findIdx?_eq_some_iff_getElem.mp hother
      rw [length_zipIdx] at hlt
      rw [getElem_zipIdx] at htest
      simp only [Bool.and_eq_true, bne_iff_ne, Nat.zero_add] at htest
      exact ⟨hlt, htest.1.2⟩
    apply (set_eligible_safe hlt fun _ => rfl).bind
    intro m₁ h₁
    apply (set_eligible_safe (h₁.length_eq ▸ hother_lt) fun h => absurd h hother_ne).bind
    intro m₂ h₂
    exact .ok (h₁.trans h₂)

/-! ## The loop body -/

/-- What `schedule` can do for a slot. A live configuration leaves its slot only when
    the slot is eligible. -/
inductive SlotScheduled (m : InteractionConfigManager S V) (live_slot : Nat) :
    InteractionConfigManager S V → Prop where
  | touched {m' : InteractionConfigManager S V} (hlt : live_slot < m.estimators.length)
      (h : m.Touched m') : SlotScheduled m live_slot m'
  | empty {m₁ m' : InteractionConfigManager S V} (h : m.Touched m₁) (hempty : m₁.Refilled false m') :
      SlotScheduled m live_slot m'
  | applied {m₁ m₂ m' : InteractionConfigManager S V} {inactivated : Option Nat} {config_index : Nat}
      (h : m.Touched m₁) (hfilled : m₁.Refilled true m₂)
      (happlied : m₂.Applied live_slot inactivated config_index m')
      (hlive : ∀ slot, m.estimators[live_slot]? = some slot →
        ∀ config, m.configs[slot.1.config_index]? = some config → config.state = .Live →
          inactivated = some slot.1.config_index ∧ slot.1.eligible_to_inactivate = true)
      (hinactivated : inactivated = none ∨ inactivated = m.current live_slot) :
      SlotScheduled m live_slot m'

theorem Touched.current_eq (h : m.Touched m') (live_slot : Nat) :
    m'.current live_slot = m.current live_slot := by
  obtain ⟨flag, _, hget⟩ := h.slots
  unfold current
  rw [hget live_slot, Option.map_map]
  rfl

theorem Touched.live_indices_eq (h : m.Touched m') :
    m'.live_indices = m.live_indices := by
  apply ext_getElem?
  intro j
  have hcurrent := h.current_eq j
  unfold current at hcurrent
  unfold live_indices
  rw [getElem?_map, getElem?_map, hcurrent]

theorem Touched.in_range (h : m.Touched m') (hrange : m.InRange) :
    m'.InRange := by
  have hlive := h.live_indices_eq
  have hlength := h.configs_eq.length_eq
  have hremovable := h.configs_eq.removable hrange.oracle.removable
  have hsize := h.length_eq
  obtain ⟨configs, estimators, rfl⟩ := h.eq
  constructor
  · constructor
    · exact hrange.oracle.valid_le.trans_eq hlength.symm
    · exact hremovable
  · intro i hi
    rw [hlive] at hi
    exact hrange.live i hi
  · exact hrange.queue
  · intro hnil
    rw [hnil] at hsize
    exact hrange.nonempty (length_eq_zero_iff.mp hsize.symm)

theorem schedule_slot_safe [DecidableEq V]
    (hrange : m.InRange) (hsize : live_slot ≤ m.estimators.length ∨ m.Exhausted) :
    Safe (m.schedule_slot live_slot) (m.SlotScheduled live_slot) := by
  unfold schedule_slot
  split
  case h_1 hnone =>
    apply (replace_config_safe hrange hsize (fun h => by cases h)).mono
    rintro m' (hempty | ⟨m₁, config_index, hfilled, happlied⟩)
    · exact .empty (Touched.refl m) hempty
    · refine .applied (Touched.refl m) hfilled happlied ?_ (Or.inl rfl)
      intro slot hslot
      rw [hnone] at hslot
      cases hslot
  case h_2 slot hslot =>
    have hlt := (List.getElem?_eq_some_iff.mp hslot).1
    have hlt_config : slot.1.config_index < m.configs.length :=
      (hrange.live _ (mem_map_of_mem (mem_of_getElem? hslot))).trans_le hrange.oracle.valid_le
    apply (nth_safe (l := m._config_oracle.configs) hlt_config).bind
    intro config hconfig
    have hcurrent : m.current live_slot = some slot.1.config_index := by
      unfold current
      rw [hslot]
      rfl
    split
    case isFalse => exact .ok (.touched hlt (Touched.refl m))
    split
    case isFalse hnot_live =>
      apply (replace_config_safe hrange (Or.inl hlt.le) (fun h => by cases h)).mono
      rintro m' (hempty | ⟨m₁, config_index, hfilled, happlied⟩)
      · exact .empty (Touched.refl m) hempty
      · refine .applied (Touched.refl m) hfilled happlied ?_ (Or.inl rfl)
        intro slot' hslot' config' hconfig' hstate
        obtain rfl : slot' = slot := some.inj (hslot'.symm.trans hslot)
        obtain rfl : config' = config := some.inj (hconfig'.symm.trans hconfig)
        exact absurd hstate hnot_live
    case isTrue hlive =>
      apply (update_nth_safe (l := m._config_oracle.configs) _ hlt_config).bind
      rintro _ ⟨config', hconfig', rfl⟩
      have htouched := Touched.of_configs (@Restated.set_lease m.configs _ _ hconfig' (config'.lease * 2))
      split
      case isTrue => exact .ok (.touched hlt htouched)
      case isFalse heligible =>
        dsimp only
        refine .bind (swap_eligible_to_inactivate_safe hlt) ?_
        rintro ⟨swapped, m₁⟩ hswap
        have hboth := htouched.trans hswap
        dsimp only
        split
        case isTrue => exact .ok (.touched hlt hboth)
        case isFalse =>
          have hlt₁ : live_slot < m₁.estimators.length := hboth.length_eq ▸ hlt
          apply (replace_config_safe (hboth.in_range hrange) (Or.inl hlt₁.le) fun _ => hlt₁).mono
          rintro m' (hempty | ⟨m₂, config_index, hfilled, happlied⟩)
          · exact .empty hboth hempty
          · rw [if_pos rfl, hboth.current_eq] at happlied
            refine .applied hboth hfilled happlied ?_ (Or.inr rfl)
            intro slot' hslot' _ _ _
            obtain rfl : slot' = slot := some.inj (hslot'.symm.trans hslot)
            exact ⟨hcurrent, by simpa using heligible⟩

end InteractionConfigManager

end VW.AutoML
