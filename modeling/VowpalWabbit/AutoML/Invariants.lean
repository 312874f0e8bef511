import VowpalWabbit.AutoML.Steps

/-! # The table of configurations over whole runs

    Once a namespace has been seen, slots, queue and table agree: live slots have
    configurations of their own, the champion is in front, and what waits is not
    live. This is kept by every step (`table_invariant`).

    Before that there is one configuration, in state `New`, and the champion's slot
    has it. If `schedule` comes first, it gives that configuration to the next slot
    as well (`early_schedule_shares`).
-/

open Cpp VW.MultiModel

namespace VW.AutoML

open List Outcome Option

variable {P R E V : Type} {S : ManagerSettings P R E}

namespace InteractionConfigManager

/-! ## The invariant -/

/-- Live slots and queue agree with the table. -/
structure TableInvariant (m : InteractionConfigManager S V) : Prop where
  live : ∀ i ∈ m.live_indices, i < m.valid ∧
    ∃ config, m.configs[i]? = some config ∧ config.state = .Live
  live_nodup : m.live_indices.Nodup
  champ : m.live_indices.head? = some 0
  queue_nodup : m.queued.Nodup
  queue : ∀ i ∈ m.queued, i < m.valid ∧
    ∃ config, m.configs[i]? = some config ∧ config.state ≠ .Live

/-- Along with what the steps need to keep it. -/
structure Invariant (m : InteractionConfigManager S V) : Prop where
  range : m.InRange
  live : ∀ i ∈ m.live_indices, ∃ config, m.configs[i]? = some config ∧ config.state = .Live
  live_nodup : m.live_indices.Nodup
  champ : ∃ slot, m.estimators[0]? = some slot ∧ slot.1.config_index = 0 ∧
    slot.1.eligible_to_inactivate = false
  queue_nodup : m.queued.Nodup
  queue_not_live : ∀ i ∈ m.queued, ∃ config, m.configs[i]? = some config ∧ config.state ≠ .Live
  size_le : m.estimators.length ≤ max 1 S.max_live_configs
  champdupe : S.oracle_type = .champdupe → 2 < m.configs.length

/-- Before the first namespace. -/
structure Fresh (m : InteractionConfigManager S V) : Prop where
  configs : ∃ config, m.configs = [config] ∧ config.state = .New ∧ config.elements = .empty
  valid : m.valid = 1
  queue : m.queued = []
  slots : ∃ slot, m.estimators = [slot] ∧ slot.1.config_index = 0 ∧
    slot.1.eligible_to_inactivate = false

variable {m m' : InteractionConfigManager S V} {i k live_slot config_index : Nat} {own other : Nat → Nat}
  {old_champ : LiveSlot E}

theorem Invariant.table (h : m.Invariant) : m.TableInvariant where
  live i hi := ⟨h.range.live i hi, h.live i hi⟩
  live_nodup := h.live_nodup
  champ := by
    obtain ⟨slot, hslot, hindex, _⟩ := h.champ
    unfold live_indices
    rw [head?_eq_getElem?, getElem?_map, hslot, map_some, hindex]
  queue_nodup := h.queue_nodup
  queue i hi := ⟨h.range.queue i hi, h.queue_not_live i hi⟩

theorem Fresh.in_range (h : m.Fresh) : m.InRange := by
  obtain ⟨config, hconfigs, _, helements⟩ := h.configs
  obtain ⟨slot, hslots, hindex, _⟩ := h.slots
  have hconfigs : m._config_oracle.configs = [config] := hconfigs
  have hvalid : m._config_oracle.valid_config_size = 1 := h.valid
  refine ⟨⟨?_, ?_⟩, ?_, ?_, ?_⟩
  · rw [hconfigs, hvalid]
    exact Nat.le_refl 1
  · intro c hc
    rw [hconfigs, mem_singleton] at hc
    rw [hc, helements]
    exact Removable.empty
  · intro i hi
    unfold live_indices at hi
    rw [hslots] at hi
    obtain rfl := mem_singleton.mp hi
    dsimp only
    rw [hindex, h.valid]
    exact Nat.one_pos
  · intro i hi
    rw [h.queue] at hi
    cases hi
  · rw [hslots]
    exact cons_ne_nil _ _

/-- Two slots do not have the same configuration. -/
theorem Invariant.current_injective (h : m.Invariant) {j : Nat}
    (hi : m.current i = some k) (hj : m.current j = some k) : i = j := by
  have hi' : m.live_indices[i]? = some k := by
    unfold live_indices
    rwa [getElem?_map]
  have hj' : m.live_indices[j]? = some k := by
    unfold live_indices
    rwa [getElem?_map]
  have hlt := (List.getElem?_eq_some_iff.mp hi').1
  exact (getElem?_inj hlt h.live_nodup).mp (hi'.trans hj'.symm)

/-! ## Scheduling -/

theorem Touched.invariant (ht : m.Touched m')
    (h : m.Invariant) : m'.Invariant := by
  have hrange := ht.in_range h.range
  have hlive := ht.live_indices_eq
  have hlength := ht.configs_eq.length_eq
  have hsize := ht.length_eq
  have hqueued : m'.queued = m.queued := by
    obtain ⟨configs, estimators, rfl⟩ := ht.eq
    rfl
  refine ⟨hrange, ?_, ?_, ?_, ?_, ?_, ?_, ?_⟩
  · intro i hi
    rw [hlive] at hi
    obtain ⟨config, hconfig, hstate⟩ := h.live i hi
    obtain ⟨config', hconfig', _, _, hstate'⟩ := ht.configs_eq.get hconfig
    exact ⟨config', hconfig', hstate'.trans hstate⟩
  · rw [hlive]
    exact h.live_nodup
  · obtain ⟨slot, hslot, hindex, heligible⟩ := h.champ
    obtain ⟨flag, hchamp, hget⟩ := ht.slots
    refine ⟨({ slot.1 with eligible_to_inactivate := flag 0 slot.1.eligible_to_inactivate }, slot.2),
      ?_, hindex, ?_⟩
    · rw [hget, hslot]
      rfl
    · -- the flag of the champion was not set
      rw [heligible, Bool.eq_false_iff]
      intro hflag
      cases hchamp false hflag
  · rw [hqueued]
    exact h.queue_nodup
  · intro i hi
    rw [hqueued] at hi
    obtain ⟨config, hconfig, hstate⟩ := h.queue_not_live i hi
    obtain ⟨config', hconfig', _, _, hstate'⟩ := ht.configs_eq.get hconfig
    exact ⟨config', hconfig', by rwa [hstate']⟩
  · rw [hsize]
    exact h.size_le
  · rw [hlength]
    exact h.champdupe

variable {filled : Bool}

theorem Refilled.invariant (hr : m.Refilled filled m') (h : m.Invariant) : m'.Invariant := by
  have hrange := hr.in_range h.range
  have hmem := hr.mem
  have hnodup := hr.nodup h.queue_nodup
  obtain ⟨queue, rfl⟩ := hr.eq
  refine ⟨hrange, h.live, h.live_nodup, h.champ, hnodup, ?_, h.size_le, h.champdupe⟩
  intro i hi
  rcases hmem i hi with hi | ⟨_, config, hconfig, hstate⟩
  · exact h.queue_not_live i hi
  · refine ⟨config, hconfig, ?_⟩
    rcases hstate with hstate | hstate <;> rw [hstate] <;> decide

theorem nodup_put {l : List Nat} {x : Nat} (h : l.Nodup) (hx : x ∉ l) : (put l i x).Nodup := by
  unfold put
  split
  · exact h.set hx
  · exact nodup_append.mpr ⟨h, nodup_singleton x, by
      intro a ha b hb
      rw [mem_singleton.mp hb]
      rintro rfl
      exact hx ha⟩

variable {inactivated : Option Nat}

/-- The configurations after one was applied. -/
theorem Applied.get (ha : m.Applied live_slot inactivated config_index m')
    {config : NsBasedConfig} (hconfig : m.configs[i]? = some config) :
    ∃ config', m'.configs[i]? = some config' ∧
      config'.state = state_applied inactivated config_index i config.state := by
  obtain ⟨config', hconfig', _, _, hstate⟩ := ha.configs_eq.get hconfig
  exact ⟨config', hconfig', hstate⟩

theorem Applied.in_range (ha : m.Applied live_slot inactivated config_index m') (h : m.InRange) :
    m'.InRange := by
  obtain ⟨slot, hput, hindex, _⟩ := ha.slots
  have hlength := ha.configs_eq.length_eq
  have hremovable := ha.configs_eq.removable h.oracle.removable
  have hqueue := ha.queue_eq
  have hsize := ha.size_le
  obtain ⟨weights, configs, queue, estimators, rfl⟩ := ha.eq
  refine ⟨⟨?_, hremovable⟩, ?_, ?_, ?_⟩
  · exact h.oracle.valid_le.trans_eq hlength.symm
  · intro i hi
    unfold live_indices at hi
    rw [hput, map_put] at hi
    rcases mem_put hi with rfl | hi
    · rw [hindex]
      exact h.queue _ (hqueue ▸ mem_cons_self)
    · exact h.live i hi
  · intro i hi
    exact h.queue i (hqueue ▸ mem_cons_of_mem _ hi)
  · intro hnil
    rw [hput] at hnil
    have hlen := length_put hsize slot
    rw [hnil, length_nil] at hlen
    omega

theorem Applied.invariant (ha : m.Applied live_slot inactivated config_index m') (h : m.Invariant)
    (hpos : live_slot ≠ 0) (hlt : live_slot < S.max_live_configs)
    (hinactivated : inactivated = m.current live_slot) : m'.Invariant := by
  have hrange := ha.in_range h.range
  obtain ⟨slot, hput, hindex, _⟩ := ha.slots
  have hsize := ha.size_le
  have hqueue := ha.queue_eq
  have hmem : config_index ∈ m.queued := hqueue ▸ mem_cons_self
  obtain ⟨hnot_mem, hnodup⟩ := nodup_cons.mp (hqueue ▸ h.queue_nodup)
  -- what is queued is not live
  have hnot_live : ∀ i ∈ m.queued, i ∉ m.live_indices := by
    intro i hi hlive
    obtain ⟨config, hconfig, hstate⟩ := h.queue_not_live i hi
    obtain ⟨config', hconfig', hstate'⟩ := h.live i hlive
    obtain rfl : config' = config := some.inj (hconfig'.symm.trans hconfig)
    exact hstate hstate'
  have hlive' : m'.live_indices = put m.live_indices live_slot config_index := by
    unfold live_indices
    rw [hput, map_put, hindex]
  refine ⟨hrange, ?_, ?_, ?_, hnodup, ?_, ?_, ?_⟩
  · intro i hi
    obtain ⟨j, hj⟩ := mem_iff_getElem?.mp hi
    have hsize' : live_slot ≤ m.live_indices.length := by
      unfold live_indices
      rwa [length_map]
    rw [hlive', getElem?_put hsize'] at hj
    split at hj
    case isTrue =>
      obtain rfl : config_index = i := some.inj hj
      obtain ⟨config, hconfig, _⟩ := h.queue_not_live _ hmem
      obtain ⟨config', hconfig', hstate⟩ := ha.get hconfig
      exact ⟨config', hconfig', hstate.trans (if_pos rfl)⟩
    case isFalse hne =>
      have hi_live : i ∈ m.live_indices := mem_of_getElem? hj
      obtain ⟨config, hconfig, hlive⟩ := h.live i hi_live
      obtain ⟨config', hconfig', hstate⟩ := ha.get hconfig
      refine ⟨config', hconfig', ?_⟩
      have hcurrent : m.current j = some i := by
        unfold live_indices at hj
        rwa [getElem?_map] at hj
      rw [hstate, state_applied, if_neg, if_neg, hlive]
      · intro hsame
        exact hne (h.current_injective hcurrent (hinactivated ▸ hsame))
      · rintro rfl
        exact hnot_live _ hmem hi_live
  · rw [hlive']
    exact nodup_put h.live_nodup (hnot_live _ hmem)
  · obtain ⟨champ, hchamp, hchamp_index, heligible⟩ := h.champ
    refine ⟨champ, ?_, hchamp_index, heligible⟩
    rw [hput, getElem?_put hsize, if_neg (Ne.symm hpos), hchamp]
  · intro i hi
    have hi' : i ∈ m.queued := hqueue ▸ mem_cons_of_mem _ hi
    obtain ⟨config, hconfig, hstate⟩ := h.queue_not_live i hi'
    obtain ⟨config', hconfig', hstate'⟩ := ha.get hconfig
    refine ⟨config', hconfig', ?_⟩
    have hne : i ≠ config_index := by
      rintro rfl
      exact hnot_mem hi
    rw [hstate', state_applied, if_neg hne]
    split
    · decide
    · exact hstate
  · rw [hput, length_put hsize]
    have := h.size_le
    omega
  · rw [ha.configs_eq.length_eq]
    exact h.champdupe

theorem Refilled.current_eq (h : m.Refilled filled m') (live_slot : Nat) :
    m'.current live_slot = m.current live_slot := by
  obtain ⟨queue, rfl⟩ := h.eq
  rfl

/-- The champion's slot is not the one that changes. -/
theorem SlotScheduled.invariant
    (hs : m.SlotScheduled live_slot m') (h : m.Invariant) (hlt : live_slot < S.max_live_configs) :
    m'.Invariant := by
  cases hs with
  | touched _ ht => exact ht.invariant h
  | empty ht hempty => exact hempty.invariant (ht.invariant h)
  | @applied m₁ m₂ _ inactivated config_index ht hfilled happlied hlive hinactivated =>
    have hcurrent : m₂.current live_slot = m.current live_slot := by
      rw [hfilled.current_eq, ht.current_eq]
    -- the configuration of a live slot is live
    have hslot : ∀ slot, m.estimators[live_slot]? = some slot →
        inactivated = some slot.1.config_index ∧ slot.1.eligible_to_inactivate = true := by
      intro slot hslot
      obtain ⟨config, hconfig, hstate⟩ :=
        h.live _ (mem_map_of_mem (mem_of_getElem? hslot))
      exact hlive slot hslot config hconfig hstate
    apply happlied.invariant (hfilled.invariant (ht.invariant h)) _ hlt
    · rw [hcurrent]
      rcases hinactivated with rfl | hinactivated
      · cases hget : m.estimators[live_slot]? with
        | none => unfold current; rw [hget]; rfl
        | some slot => cases (hslot slot hget).1
      · exact hinactivated
    · rintro rfl
      obtain ⟨champ, hchamp, _, heligible⟩ := h.champ
      rw [(hslot champ hchamp).2] at heligible
      cases heligible

/-- No slot is left out, unless there is nothing for the later ones either. -/
theorem SlotScheduled.no_gap
    (hs : m.SlotScheduled live_slot m') :
    live_slot + 1 ≤ m'.estimators.length ∨ m'.Exhausted := by
  cases hs with
  | touched hlt ht =>
    left
    rw [ht.length_eq]
    exact hlt
  | empty ht hempty => exact Or.inr (hempty.empty_eq rfl)
  | applied ht hfilled happlied =>
    left
    obtain ⟨slot, hput, _⟩ := happlied.slots
    rw [hput, length_put happlied.size_le]
    exact Nat.le_max_right _ _

theorem schedule_invariant [DecidableEq V] (h : m.Invariant) :
    Safe m.schedule Invariant := by
  unfold schedule
  let Q : Nat → InteractionConfigManager S V → Prop := fun n m' =>
    m'.Invariant ∧ (n ≤ m'.estimators.length ∨ m'.Exhausted)
  refine Safe.mono (foldlM_range_safe Q ⟨h, Or.inl (Nat.zero_le _)⟩ ?_) fun _ hQ => hQ.1
  rintro live_slot hlt m₁ ⟨h₁, hsize⟩
  apply (schedule_slot_safe h₁.range hsize).mono
  intro m₂ hs
  exact ⟨hs.invariant h₁ hlt, hs.no_gap⟩

/-! ## Learning -/

theorem Learned.live_indices_eq
    (hl : Learned own other m m') : m'.live_indices = m.live_indices := by
  apply ext_getElem?
  intro j
  unfold live_indices
  rw [getElem?_map, getElem?_map]
  cases hget : m.estimators[j]? with
  | none =>
    have hnone : m'.estimators[j]? = none := by
      rw [List.getElem?_eq_none_iff, hl.length_eq]
      exact List.getElem?_eq_none_iff.mp hget
    rw [hnone]
  | some slot =>
    obtain ⟨e, e', hget', _⟩ := hl.slots j slot hget
    rw [hget']
    rfl

theorem Learned.in_range
    (hl : Learned own other m m') (h : m.InRange) : m'.InRange := by
  have hlive := hl.live_indices_eq
  have hsize := hl.length_eq
  obtain ⟨data, estimators, rfl⟩ := hl.eq
  refine ⟨h.oracle, ?_, h.queue, ?_⟩
  · intro i hi
    rw [hlive] at hi
    exact h.live i hi
  · rintro hnil
    rw [hnil] at hsize
    exact h.nonempty (length_eq_zero_iff.mp hsize.symm)

theorem Learned.invariant
    (hl : Learned own other m m') (h : m.Invariant) : m'.Invariant := by
  have hrange := hl.in_range h.range
  have hlive := hl.live_indices_eq
  have hsize := hl.length_eq
  have hslots := hl.slots
  obtain ⟨data, estimators, rfl⟩ := hl.eq
  refine ⟨hrange, ?_, ?_, ?_, h.queue_nodup, h.queue_not_live, ?_, h.champdupe⟩
  · intro i hi
    rw [hlive] at hi
    exact h.live i hi
  · rw [hlive]
    exact h.live_nodup
  · obtain ⟨champ, hchamp, hindex, heligible⟩ := h.champ
    obtain ⟨e, e', hget, _⟩ := hslots 0 champ hchamp
    exact ⟨_, hget, hindex, heligible⟩
  · rw [hsize]
    exact h.size_le

/-! ## Examples -/

/-- New interactions change nothing that the table is about. -/
theorem Refreshed.slots_eq (hr : m.Refreshed m') (j : Nat) :
    m'.estimators[j]?.map (fun slot => (slot.1.config_index, slot.1.eligible_to_inactivate)) =
      m.estimators[j]?.map (fun slot => (slot.1.config_index, slot.1.eligible_to_inactivate)) := by
  obtain ⟨interactions, hget⟩ := hr.slots
  rw [hget, Option.map_map]
  rfl

theorem Refreshed.live_indices_eq (hr : m.Refreshed m') :
    m'.live_indices = m.live_indices := by
  apply ext_getElem?
  intro j
  have hboth := congrArg (Option.map Prod.fst) (hr.slots_eq j)
  rw [Option.map_map, Option.map_map] at hboth
  unfold live_indices
  rw [getElem?_map, getElem?_map]
  exact hboth

theorem Refreshed.length_eq (hr : m.Refreshed m') :
    m'.estimators.length = m.estimators.length := by
  have hlive := congrArg length hr.live_indices_eq
  unfold live_indices at hlive
  rwa [length_map, length_map] at hlive

theorem Refreshed.in_range (hr : m.Refreshed m')
    (h : m.InRange) : m'.InRange := by
  have hlive := hr.live_indices_eq
  have hsize := hr.length_eq
  obtain ⟨estimators, rfl⟩ := hr.eq
  refine ⟨h.oracle, ?_, h.queue, ?_⟩
  · intro i hi
    rw [hlive] at hi
    exact h.live i hi
  · rintro hnil
    rw [hnil] at hsize
    exact h.nonempty (length_eq_zero_iff.mp hsize.symm)

theorem Refreshed.champ (hr : m.Refreshed m')
    {champ : LiveSlot E} (hchamp : m.estimators[0]? = some champ) :
    ∃ champ', m'.estimators[0]? = some champ' ∧ champ'.1.config_index = champ.1.config_index ∧
      champ'.1.eligible_to_inactivate = champ.1.eligible_to_inactivate := by
  obtain ⟨interactions, hget⟩ := hr.slots
  refine ⟨({ champ.1 with live_interactions := interactions 0 }, champ.2), ?_, rfl, rfl⟩
  rw [hget, hchamp]
  rfl

theorem Refreshed.invariant (hr : m.Refreshed m')
    (h : m.Invariant) : m'.Invariant := by
  have hrange := hr.in_range h.range
  have hlive := hr.live_indices_eq
  have hsize := hr.length_eq
  obtain ⟨champ, hchamp, hindex, heligible⟩ := h.champ
  obtain ⟨champ', hchamp', hindex', heligible'⟩ := hr.champ hchamp
  obtain ⟨estimators, rfl⟩ := hr.eq
  refine ⟨hrange, ?_, ?_, ⟨champ', hchamp', hindex'.trans hindex, heligible'.trans heligible⟩,
    h.queue_nodup, h.queue_not_live, ?_, h.champdupe⟩
  · intro i hi
    rw [hlive] at hi
    exact h.live i hi
  · rw [hlive]
    exact h.live_nodup
  · rw [hsize]
    exact h.size_le

/-! ## New configurations -/

/-- Slots that were live before new configurations came, with nothing else in the queue. -/
theorem Invariant.of_generated {o : ConfigOracle S.toSettings}
    {n : Nat} (hgen : ConfigOracle.Generated n o m._config_oracle) (hqueue : o.index_queue.popped = [])
    (hlive : ∀ i ∈ m.live_indices, i < o.valid_config_size ∧
      ∃ config, o.configs[i]? = some config ∧ config.state = .Live)
    (hnodup : m.live_indices.Nodup)
    (hchamp : ∃ slot, m.estimators[0]? = some slot ∧ slot.1.config_index = 0 ∧
      slot.1.eligible_to_inactivate = false)
    (hsize : m.estimators.length ≤ max 1 S.max_live_configs)
    (hdupe : S.oracle_type = .champdupe → 2 < m.configs.length) : m.Invariant := by
  have hqueued : m.queued.Perm
      (range' o.valid_config_size (m.valid - o.valid_config_size)) := by
    have hperm := hgen.queue_perm
    rwa [hqueue, map_nil, append_nil] at hperm
  have hmem : ∀ i ∈ m.queued, o.valid_config_size ≤ i ∧ i < m.valid := by
    intro i hi
    have := mem_range'_1.mp (hqueued.mem_iff.mp hi)
    omega
  have hvalid : o.valid_config_size ≤ m.valid := hgen.valid_le
  refine ⟨⟨hgen.well_formed, ?_, fun i hi => (hmem i hi).2, ?_⟩, ?_, hnodup, hchamp, ?_, ?_, hsize, hdupe⟩
  · exact fun i hi => (hlive i hi).1.trans_le hvalid
  · intro hnil
    obtain ⟨slot, hslot, _⟩ := hchamp
    rw [hnil] at hslot
    cases hslot
  · intro i hi
    obtain ⟨hlt, config, hconfig, hstate⟩ := hlive i hi
    exact ⟨config, (hgen.kept i hlt).trans hconfig, hstate⟩
  · exact hqueued.nodup_iff.mpr nodup_range'
  · intro i hi
    obtain ⟨config, hconfig, hstate⟩ := hgen.fresh i (hmem i hi).1 (hmem i hi).2
    exact ⟨config, hconfig, by rw [hstate]; decide⟩

/-- The first namespaces start the search. -/
theorem Fresh.processed {ec : List Example}
    (hp : m.Processed ec m') (h : m.Fresh) :
    if (count_namespaces ec m.ns_counter).1 then m'.Invariant else m'.Fresh := by
  obtain ⟨config, hconfigs, hstate, helements⟩ := h.configs
  obtain ⟨slot, hslots, hindex, heligible⟩ := h.slots
  cases hp with
  | known hnew =>
    rw [hnew]
    exact ⟨h.configs, h.valid, h.queue, h.slots⟩
  | refreshed _ _ hconfig hnot =>
    rw [hconfigs] at hconfig
    obtain rfl := some.inj hconfig
    exact absurd hstate hnot
  | @generated m₁ configs config' champ oracle hnew hrefreshed _ _ hrestated hchamp hproduced =>
    rw [if_pos hnew]
    have hlive := hrefreshed.live_indices_eq
    have hlength := hrefreshed.length_eq
    have hvalid : m._config_oracle.valid_config_size = 1 := h.valid
    have hlive_m : m.live_indices = [0] := by
      unfold live_indices
      rw [hslots]
      exact congrArg (fun i => [i]) hindex
    obtain ⟨champ', hchamp', hindex', heligible'⟩ := hrefreshed.champ (show m.estimators[0]? = some slot by
      rw [hslots]
      rfl)
    obtain ⟨hconfigs_eq, hvalid_eq, hqueue_eq⟩ := ConfigOracle.refreshed_eq
      ({ m._config_oracle with configs } : ConfigOracle S.toSettings) m₁.ns_counter
    apply Invariant.of_generated hproduced.generated
    · rw [hqueue_eq]
      exact map_eq_nil_iff.mp h.queue
    · intro i hi
      have hi' : i ∈ m.live_indices := hlive ▸ hi
      rw [hlive_m] at hi'
      obtain rfl := mem_singleton.mp hi'
      rw [hvalid_eq, hconfigs_eq]
      have hzero : m.configs[0]? = some config := by rw [hconfigs]; rfl
      obtain ⟨config₁, hconfig₁, _, _, hlive₁⟩ := hrestated.get hzero
      exact ⟨hvalid ▸ Nat.one_pos, config₁, hconfig₁, hlive₁⟩
    · show m₁.live_indices.Nodup
      rw [hlive]
      show m.live_indices.Nodup
      rw [hlive_m]
      exact nodup_singleton 0
    · exact ⟨champ', hchamp', hindex'.trans hindex, heligible'.trans heligible⟩
    · show m₁.estimators.length ≤ _
      rw [hlength]
      rw [hslots]
      exact Nat.le_max_left _ _
    · intro hdupe
      have hthree := hproduced.champdupe hdupe (by
        rw [hrestated.length_eq, hconfigs]
        rfl)
      have hle := hproduced.generated.well_formed.valid_le
      show 2 < oracle.configs.length
      have hthree : oracle.valid_config_size = m._config_oracle.valid_config_size + 2 := hthree
      omega

theorem Invariant.processed {ec : List Example}
    (hp : m.Processed ec m') (h : m.Invariant) : m'.Invariant := by
  have hcount : ∀ ns_counter, Invariant { m with ns_counter } := fun ns_counter =>
    ⟨⟨h.range.1, h.range.2, h.range.3, h.range.4⟩, h.live, h.live_nodup, h.champ, h.queue_nodup,
      h.queue_not_live, h.size_le, h.champdupe⟩
  cases hp with
  | known hnew => exact hcount _
  | refreshed _ hrefreshed _ _ => exact hrefreshed.invariant (hcount _)
  | generated _ _ hconfig hstate =>
    -- the champion is live
    obtain ⟨slot, hslot, hindex, _⟩ := h.champ
    obtain ⟨config', hconfig', hlive⟩ := h.live 0
      (mem_map.mpr ⟨slot, mem_of_getElem? hslot, hindex⟩)
    obtain rfl := some.inj (hconfig'.symm.trans hconfig)
    rw [hstate] at hlive
    cases hlive

/-! ## Champion switches -/

variable {champ : LiveSlot E}

theorem Switched.live_indices_eq (hs : m.Switched k champ old_champ m') :
    m'.live_indices = [0, 1] := by
  obtain ⟨eligible, _, hslots⟩ := hs.slots
  unfold live_indices
  rw [hslots]
  rfl

/-- The configuration of a challenger is not that of the champion. -/
theorem Invariant.challenger_index (h : m.Invariant)
    {slot : LiveSlot E} (hk : k ≠ 0) (hslot : m.estimators[k]? = some slot) :
    0 < slot.1.config_index := by
  obtain ⟨champ, hchamp, hindex, _⟩ := h.champ
  apply Nat.pos_of_ne_zero
  intro hzero
  apply hk
  apply h.current_injective (k := 0)
  · unfold current
    rw [hslot, map_some, hzero]
  · unfold current
    rw [hchamp, map_some, hindex]

/-- The oracle from which the new champion's challengers come. -/
theorem Switched.best_two (hs : m.Switched k champ old_champ m') (hk : k ≠ 0) (h : m.Invariant) :
    ∃ o : ConfigOracle S.toSettings, o.Produced champ.1.live_interactions m.ns_counter m'._config_oracle ∧
      2 ≤ o.valid_config_size ∧ o.index_queue.popped = [] ∧ o.configs.length = m.configs.length ∧
      o.configs[0]? = m.configs[champ.1.config_index]? ∧ o.configs[1]? = m.configs[0]? := by
  obtain ⟨o, hbest, hproduced⟩ := hs.oracle
  have hpos := h.challenger_index hk hs.champ_eq
  have hlt : champ.1.config_index < m._config_oracle.valid_config_size := h.range.live _
    (mem_map_of_mem (mem_of_getElem? hs.champ_eq))
  have hlength := hbest.length_eq
  have hfirst := hbest.first
  have hsecond := hbest.second
  obtain ⟨configs, rfl⟩ := hbest.eq
  refine ⟨_, hproduced, ?_, rfl, hlength, hfirst, hsecond⟩
  show 2 ≤ (if _ then _ else _)
  split
  · show 2 ≤ m._config_oracle.valid_config_size
    omega
  · exact Nat.le_refl 2

/-- The two live configurations after a switch. -/
theorem Switched.configs_eq (hs : m.Switched k champ old_champ m') (hk : k ≠ 0) (h : m.Invariant) :
    m'.configs[0]? = m.configs[champ.1.config_index]? ∧ m'.configs[1]? = m.configs[0]? := by
  obtain ⟨o, hproduced, hvalid, _, _, hfirst, hsecond⟩ := hs.best_two hk h
  obtain ⟨hconfigs_eq, hvalid_eq, _⟩ := o.refreshed_eq m.ns_counter
  have hkept := hproduced.generated.kept
  rw [hconfigs_eq, hvalid_eq] at hkept
  exact ⟨(hkept 0 (by omega)).trans hfirst, (hkept 1 (by omega)).trans hsecond⟩

theorem Switched.invariant (hs : m.Switched k champ old_champ m') (hk : k ≠ 0) (h : m.Invariant) :
    m'.Invariant := by
  have hlive' := hs.live_indices_eq
  obtain ⟨o, hproduced, hvalid, hqueue, hlength, hfirst, hsecond⟩ := hs.best_two hk h
  obtain ⟨hconfigs_eq, hvalid_eq, hqueue_eq⟩ := o.refreshed_eq m.ns_counter
  obtain ⟨config, hconfig, hstate⟩ := h.live champ.1.config_index
    (mem_map_of_mem (mem_of_getElem? hs.champ_eq))
  obtain ⟨slot, hslot, hindex, _⟩ := h.champ
  obtain ⟨old, hold, hold_state⟩ := h.live 0
    (mem_map.mpr ⟨slot, mem_of_getElem? hslot, hindex⟩)
  obtain ⟨eligible, _, hslots⟩ := hs.slots
  apply Invariant.of_generated hproduced.generated
  · rw [hqueue_eq]
    exact hqueue
  · intro i hi
    rw [hlive'] at hi
    rw [hvalid_eq, hconfigs_eq]
    simp only [mem_cons, not_mem_nil, or_false] at hi
    rcases hi with rfl | rfl
    · exact ⟨by omega, config, hfirst.trans hconfig, hstate⟩
    · exact ⟨by omega, old, hsecond.trans hold, hold_state⟩
  · rw [hlive']
    decide
  · rw [hslots]
    exact ⟨_, rfl, rfl, rfl⟩
  · rw [hslots]
    have hk_lt := (List.getElem?_eq_some_iff.mp hs.champ_eq).1
    have hsize := h.size_le
    show 2 ≤ _
    omega
  · intro hdupe
    have hle := hproduced.generated.length_le
    rw [hconfigs_eq, hlength] at hle
    exact (h.champdupe hdupe).trans_le hle

/-- The state in which the winner is switched in. -/
def switching [DecidableEq V] (m : InteractionConfigManager S V) (k : Nat) :
    InteractionConfigManager S V :=
  switch_weights { m with total_champ_switches := m.total_champ_switches + 1 } k

theorem Invariant.switching [DecidableEq V] (h : m.Invariant)
    (k : Nat) : (m.switching k).Invariant :=
  ⟨⟨h.range.1, h.range.2, h.range.3, h.range.4⟩, h.live, h.live_nodup, h.champ, h.queue_nodup,
    h.queue_not_live, h.size_le, h.champdupe⟩

/-- Either nobody wins, or the slots are switched. -/
theorem check_for_new_champ_safe [DecidableEq V] (h : m.Invariant) :
    Safe m.check_for_new_champ fun m' => m' = m ∨ ∃ k champ old_champ, k ≠ 0 ∧
      better S champ.1._estimator champ.2 = true ∧ (m.switching k).Switched k champ old_champ m' := by
  unfold check_for_new_champ
  apply (find_winner_safe m).bind
  rintro ⟨winner, _⟩ ⟨rfl, hwinner⟩
  cases winner with
  | none => exact Safe.ok (Or.inl rfl)
  | some k =>
    rename_i m
    obtain ⟨hk, champ, hchamp, hbetter⟩ := hwinner k rfl
    obtain ⟨old_champ, hold, _⟩ := h.champ
    have hinv := h.switching k
    have hpos := h.challenger_index hk hchamp
    have hlt := h.range.live champ.1.config_index (mem_map_of_mem (mem_of_getElem? hchamp))
    apply (apply_new_champ_safe (m := m.switching k) hk hchamp hold hinv.range.oracle hpos hlt
      hinv.champdupe).mono
    intro m' hs
    exact Or.inr ⟨k, champ, old_champ, hk, hbetter, hs⟩

theorem check_for_new_champ_invariant [DecidableEq V]
    (h : m.Invariant) : Safe m.check_for_new_champ Invariant := by
  apply (check_for_new_champ_safe h).mono
  rintro m' (rfl | ⟨k, champ, old_champ, hk, _, hs⟩)
  · exact h
  · exact hs.invariant hk (h.switching k)

/-! ## Runs -/

/-- A step of `automl`; `schedule` may be restricted to some states. -/
inductive Step [DecidableEq V] (may_schedule : InteractionConfigManager S V → Prop)
    (m : InteractionConfigManager S V) : InteractionConfigManager S V → Prop where
  | count : Step may_schedule m { m with total_learn_count := m.total_learn_count + 1 }
  | process_example {m' : InteractionConfigManager S V} (ec : List Example)
      (h : m.process_example ec = .ok m') : Step may_schedule m m'
  | schedule {m' : InteractionConfigManager S V} (hmay : may_schedule m) (h : m.schedule = .ok m') :
      Step may_schedule m m'
  | offset_learn {m' : InteractionConfigManager S V} (base : Learner V) (logged : CbClass)
      (labelled_action : Nat) (reverse : Bool)
      (h : m.offset_learn base logged labelled_action reverse = .ok m') : Step may_schedule m m'
  | check_for_new_champ {m' : InteractionConfigManager S V} (h : m.check_for_new_champ = .ok m') :
      Step may_schedule m m'

/-- The states of runs, with the steps in any order. -/
inductive Reachable [DecidableEq V] (may_schedule : InteractionConfigManager S V → Prop) :
    InteractionConfigManager S V → Prop where
  | initial (weights : DenseParameters V) (feature_width : Nat) (random_state : R) :
      Reachable may_schedule (initial weights feature_width random_state)
  | step {m m' : InteractionConfigManager S V} (h : Reachable may_schedule m)
      (hstep : Step may_schedule m m') : Reachable may_schedule m'

/-- One step of learning stays within the runs. -/
theorem Reachable.one_step [DecidableEq V] {may_schedule : InteractionConfigManager S V → Prop}
    {m m' : InteractionConfigManager S V} (h : Reachable may_schedule m) {base : Learner V}
    {ec : List Example} {logged : CbClass} {labelled_action : Nat} {reverse : Bool}
    (hmay : ∀ m₁, process_example { m with total_learn_count := m.total_learn_count + 1 } ec =
      .ok m₁ → may_schedule m₁)
    (hstep : m.one_step base ec logged labelled_action reverse = .ok m') :
    Reachable may_schedule m' := by
  obtain ⟨m₁, hprocess, hstep⟩ := bind_eq_ok.mp hstep
  obtain ⟨m₂, hschedule, hstep⟩ := bind_eq_ok.mp hstep
  obtain ⟨m₃, hlearn, hcheck⟩ := bind_eq_ok.mp hstep
  have hprocessed : Reachable may_schedule m₁ := (h.step .count).step (.process_example ec hprocess)
  have hscheduled := hprocessed.step (.schedule (hmay m₁ hprocess) hschedule)
  exact (hscheduled.step (.offset_learn base logged labelled_action reverse hlearn)).step
    (.check_for_new_champ hcheck)

/-- A namespace has been seen. -/
def Discovered (m : InteractionConfigManager S V) : Prop := m.ns_counter.keys ≠ []

theorem fresh_initial (weights : DenseParameters V) (feature_width : Nat) (random_state : R) :
    (initial (S := S) weights feature_width random_state).Fresh where
  configs := ⟨_, rfl, rfl, rfl⟩
  valid := rfl
  queue := rfl
  slots := ⟨_, rfl, rfl, rfl⟩

theorem Fresh.learned
    (hl : Learned own other m m') (h : m.Fresh) : m'.Fresh := by
  obtain ⟨slot, hslots, hindex, heligible⟩ := h.slots
  have hlength := hl.length_eq
  obtain ⟨e, e', hget, _⟩ := hl.slots 0 slot (by rw [hslots]; rfl)
  obtain ⟨data, estimators, rfl⟩ := hl.eq
  refine ⟨h.configs, h.valid, h.queue, ({ slot.1 with _estimator := e }, e'), ?_, hindex, heligible⟩
  rw [hslots] at hlength
  obtain ⟨slot', hslot'⟩ := length_eq_one_iff.mp hlength
  rw [hslot'] at hget
  rw [hslot', some.inj hget]

/-- The champion has nobody to lose to. -/
theorem Fresh.check_for_new_champ [DecidableEq V] (h : m.Fresh) :
    Safe m.check_for_new_champ fun m' => m' = m := by
  unfold InteractionConfigManager.check_for_new_champ
  apply (find_winner_safe m).bind
  rintro ⟨winner, _⟩ ⟨rfl, hwinner⟩
  cases winner with
  | none => exact Safe.ok rfl
  | some k =>
    obtain ⟨hk, champ, hchamp, _⟩ := hwinner k rfl
    obtain ⟨slot, hslots, _⟩ := h.slots
    rw [hslots] at hchamp
    have := (List.getElem?_eq_some_iff.mp hchamp).1
    simp only [length_singleton] at this
    omega

/-- The two phases of a run in which scheduling waits for a namespace. -/
inductive Phase (m : InteractionConfigManager S V) : Prop where
  | fresh (h : m.Fresh) (hnone : ¬ m.Discovered)
  | searching (h : m.Invariant)

/-- Every step has defined behaviour and leads to one of the two phases. -/
theorem Phase.steps_safe [DecidableEq V] (h : m.Phase) :
    (∀ ec, Safe (m.process_example ec) Phase) ∧
    (m.Discovered → Safe m.schedule Phase) ∧
    (∀ base logged labelled_action reverse,
      Safe (m.offset_learn base logged labelled_action reverse) Phase) ∧
    Safe m.check_for_new_champ Phase := by
  cases h with
  | fresh h hnone =>
    have hrange := h.in_range
    refine ⟨?_, fun hdisc => absurd hdisc hnone, ?_, ?_⟩
    · intro ec
      apply (process_example_safe ec hrange (by rw [h.valid]; exact Nat.one_pos)).mono
      intro m' hp
      have hnext := h.processed hp
      cases hnew : (count_namespaces ec m.ns_counter).1 with
      | true =>
        rw [if_pos hnew] at hnext
        exact .searching hnext
      | false =>
        rw [if_neg (by rw [hnew]; decide)] at hnext
        refine .fresh hnext ?_
        have hkeys := count_namespaces_keys hnew
        cases hp with
        | known =>
          intro hdisc
          apply hnone
          intro hnil
          exact hdisc (hkeys.trans hnil)
        | refreshed hnew' => rw [hnew] at hnew'; cases hnew'
        | generated hnew' => rw [hnew] at hnew'; cases hnew'
    · intro base logged labelled_action reverse
      apply (offset_learn_safe base logged labelled_action reverse hrange.nonempty).mono
      intro m' hl
      refine .fresh (h.learned hl) ?_
      obtain ⟨data, estimators, rfl⟩ := hl.eq
      exact hnone
    · apply h.check_for_new_champ.mono
      rintro _ rfl
      exact .fresh h hnone
  | searching h =>
    have hpos : 0 < m.valid := by
      obtain ⟨slot, hslot, hindex, _⟩ := h.champ
      exact (Nat.zero_le _).trans_lt (h.range.live _ (mem_map_of_mem (mem_of_getElem? hslot)))
    refine ⟨?_, fun _ => (schedule_invariant h).mono fun _ => .searching, ?_,
      (check_for_new_champ_invariant h).mono fun _ => .searching⟩
    · intro ec
      exact (process_example_safe ec h.range hpos).mono fun m' hp => .searching (h.processed hp)
    · intro base logged labelled_action reverse
      exact (offset_learn_safe base logged labelled_action reverse h.range.nonempty).mono
        fun m' hl => .searching (hl.invariant h)

theorem Reachable.phase [DecidableEq V]
    (h : Reachable Discovered m) : m.Phase := by
  induction h with
  | initial weights feature_width random_state =>
    exact .fresh (fresh_initial weights feature_width random_state) (fun hdisc => hdisc rfl)
  | @step m m' _ hstep ih =>
    obtain ⟨hexample, hschedule, hlearn, hcheck⟩ := ih.steps_safe
    cases hstep with
    | count =>
      cases ih with
      | fresh h hnone => exact .fresh ⟨h.1, h.2, h.3, h.4⟩ hnone
      | searching h =>
        exact .searching ⟨⟨h.range.1, h.range.2, h.range.3, h.range.4⟩, h.live, h.live_nodup, h.champ,
          h.queue_nodup, h.queue_not_live, h.size_le, h.champdupe⟩
    | process_example ec hrun => exact (hexample ec).of_ok hrun
    | schedule hmay hrun => exact (hschedule hmay).of_ok hrun
    | offset_learn base logged labelled_action reverse hrun =>
      exact (hlearn base logged labelled_action reverse).of_ok hrun
    | check_for_new_champ hrun => exact hcheck.of_ok hrun

/-- In a run in which scheduling waits for the first namespace, the table, the slots
    and the queue agree from that namespace on, whatever the oracle. -/
theorem table_invariant [DecidableEq V] {m : InteractionConfigManager S V} (h : Reachable Discovered m)
    (hdisc : m.Discovered) : m.TableInvariant := by
  cases h.phase with
  | fresh _ hnone => exact absurd hdisc hnone
  | searching hinv => exact hinv.table

end InteractionConfigManager

/-! ## Sample runs -/

/-- An estimator that counts its updates, and finds every challenger better. -/
def counting_estimator : EstimatorImpl Nat where
  initial := 0
  reset_stats _ := 0
  update e _ _ := e + 1
  lower_bound e := e
  upper_bound _ := 0
  update_count e := e
  moved_from e := e
  update_count_initial := rfl
  update_count_reset _ := rfl
  update_count_update _ _ _ := rfl

def calc_priority_empty (_ : NsBasedConfig) (_ : NsCounter) : Outcome Nat := .ok 0

/-- Two slots, and an oracle with the default settings. -/
def sample_settings : ManagerSettings Nat Unit Nat where
  queue_order := ((LinearComparator.of_key id fun _ _ h => h).prod
    (.of_key id fun _ _ h => h)).toComparator
  calc_priority := calc_priority_empty
  calc_priority_safe _ _ _ := trivial
  random_index _ _ := (0, ())
  random_index_lt _ _ hn := hn
  default_lease := 4000
  oracle_type := .one_diff
  interaction_type := .quadratic
  conf_type := .Exclusion
  interaction_type_both := by decide
  conf_type_eq := rfl
  estimator := counting_estimator
  max_live_configs := 2
  priority_challengers := 0
  ccb_on := false
  reward_as_cost := false

def sample_start : InteractionConfigManager sample_settings Nat :=
  .initial ⟨fun p => p, 8, 0⟩ 2 ()

/-- A call whose result, seen through a function, is known. -/
theorem exists_of_map_eq_ok {A B : Type} {x : Outcome A} {f : A → B} {b : B} (h : x.map f = .ok b) :
    ∃ a, x = .ok a ∧ f a = b := by
  cases x with
  | error e => cases h
  | ok a => exact ⟨a, rfl, Except.ok.inj h⟩

open InteractionConfigManager

/-- After one example with two namespaces. -/
theorem table_invariant_sample :
    ∃ m : InteractionConfigManager sample_settings Nat, Reachable Discovered m ∧ m.Discovered ∧
      m.TableInvariant := by
  obtain ⟨m, hm, hkeys⟩ := exists_of_map_eq_ok
    (x := sample_start.process_example [[97, 98]]) (f := fun m => m.ns_counter.keys) (b := [97, 98]) rfl
  have hdisc : m.Discovered := by
    unfold Discovered
    rw [hkeys]
    exact cons_ne_nil _ _
  have hreach : Reachable Discovered m := .step (.initial _ _ _) (.process_example _ hm)
  exact ⟨m, hreach, hdisc, table_invariant hreach hdisc⟩

/-- The configuration of the champion is not live at the start; and when scheduling
    comes before the first namespace, two slots share it. -/
theorem early_schedule_shares :
    ¬ sample_start.TableInvariant ∧
    ∃ m : InteractionConfigManager sample_settings Nat, Reachable (fun _ => True) m ∧
      m.live_indices = [0, 0] ∧ ¬ m.TableInvariant := by
  constructor
  · intro h
    obtain ⟨_, config, hconfig, hstate⟩ := h.live 0 mem_cons_self
    obtain rfl := some.inj hconfig
    cases hstate
  · obtain ⟨m, hm, hlive⟩ := exists_of_map_eq_ok
      (x := sample_start.schedule) (f := fun m => m.live_indices) (b := [0, 0]) rfl
    refine ⟨m, .step (.initial _ _ _) (.schedule trivial hm), hlive, ?_⟩
    intro h
    have hnodup := h.live_nodup
    rw [hlive] at hnodup
    revert hnodup
    decide

end VW.AutoML
