import VowpalWabbit.AutoML.Invariants

/-! # The interactions of the live slots

    The interactions of a slot are kept beside the namespaces and the configuration
    that they are made from. In every run, with the steps in any order, they are
    what `apply_config_to_interactions` would give (`live_interactions_follow`).
-/

open Cpp VW.MultiModel

namespace VW.AutoML

open List Outcome

variable {P R E V : Type} {S : ManagerSettings P R E}

namespace InteractionConfigManager

/-- Every slot has the interactions of its configuration. -/
def AllFollow (m : InteractionConfigManager S V) : Prop := ∀ slot ∈ m.estimators, m.Follows slot

/-! ## Single steps -/

variable {m m' : InteractionConfigManager S V} {filled : Bool} {live_slot : Nat} {own other : Nat → Nat}
  {ec : List Example}

/-- The same interactions for a configuration that says the same. -/
theorem Follows.transfer {slot slot' : LiveSlot E}
    (h : m.Follows slot) (hkeys : m'.ns_counter.keys = m.ns_counter.keys)
    (hconfigs : ∀ config, m.configs[slot.1.config_index]? = some config →
      ∃ config', m'.configs[slot'.1.config_index]? = some config' ∧
        config'.elements = config.elements ∧ config'.conf_type = config.conf_type)
    (hinteractions : slot'.1.live_interactions = slot.1.live_interactions) : m'.Follows slot' := by
  obtain ⟨config, hconfig, happly⟩ := h
  obtain ⟨config', hconfig', helements, htype⟩ := hconfigs config hconfig
  refine ⟨config', hconfig', ?_⟩
  rw [apply_config_to_interactions_congr S.ccb_on S.interaction_type hkeys helements htype, happly,
    hinteractions]

theorem Touched.all_follow (ht : m.Touched m')
    (h : m.AllFollow) : m'.AllFollow := by
  have hconfigs := ht.configs_eq
  obtain ⟨flag, _, hget⟩ := ht.slots
  have hkeys : m'.ns_counter.keys = m.ns_counter.keys := by
    obtain ⟨_, _, rfl⟩ := ht.eq
    rfl
  intro slot' hslot'
  obtain ⟨j, hj⟩ := mem_iff_getElem?.mp hslot'
  rw [hget] at hj
  obtain ⟨slot, hslot, rfl⟩ := Option.map_eq_some_iff.mp hj
  apply (h slot (mem_of_getElem? hslot)).transfer hkeys _ rfl
  intro config hconfig
  obtain ⟨config', hconfig', helements, htype, _⟩ := hconfigs.get hconfig
  exact ⟨config', hconfig', helements, htype⟩

theorem Refilled.all_follow
    (hr : m.Refilled filled m') (h : m.AllFollow) : m'.AllFollow := by
  obtain ⟨queue, rfl⟩ := hr.eq
  exact h

variable {inactivated : Option Nat} {config_index : Nat}

theorem Applied.all_follow (ha : m.Applied live_slot inactivated config_index m')
    (h : m.AllFollow) : m'.AllFollow := by
  obtain ⟨new_slot, hput, hindex, _, _, config, hconfig, happly⟩ := ha.slots
  have hns : m'.ns_counter = m.ns_counter := by
    obtain ⟨_, _, _, _, rfl⟩ := ha.eq
    rfl
  intro slot' hslot'
  rw [hput] at hslot'
  rcases mem_put hslot' with rfl | hslot
  · rw [← hindex] at hconfig
    refine ⟨config, hconfig, ?_⟩
    rw [hns]
    exact happly
  · apply (h slot' hslot).transfer (by rw [hns]) _ rfl
    intro config hconfig
    obtain ⟨config', hconfig', helements, htype, _⟩ := ha.configs_eq.get hconfig
    exact ⟨config', hconfig', helements, htype⟩

theorem SlotScheduled.all_follow
    (hs : m.SlotScheduled live_slot m') (h : m.AllFollow) : m'.AllFollow := by
  cases hs with
  | touched _ ht => exact ht.all_follow h
  | empty ht hempty => exact hempty.all_follow (ht.all_follow h)
  | applied ht hfilled happlied _ _ =>
    exact happlied.all_follow (hfilled.all_follow (ht.all_follow h))

theorem Learned.all_follow
    (hl : Learned own other m m') (h : m.AllFollow) : m'.AllFollow := by
  have hslots := hl.slots
  have hlength := hl.length_eq
  obtain ⟨data, estimators, rfl⟩ := hl.eq
  intro slot' hslot'
  obtain ⟨j, hj⟩ := mem_iff_getElem?.mp hslot'
  have hlt : j < m.estimators.length := hlength ▸ (List.getElem?_eq_some_iff.mp hj).1
  obtain ⟨e, e', hget, _⟩ := hslots j _ (getElem?_eq_getElem hlt)
  obtain rfl := Option.some.inj (hj.symm.trans hget)
  apply (h _ (getElem_mem hlt)).transfer rfl _ rfl
  intro config hconfig
  exact ⟨config, hconfig, rfl, rfl⟩

/-- New configurations do not touch those of live slots. -/
theorem Processed.all_follow
    (hp : m.Processed ec m') (hrange : m.InRange) (h : m.AllFollow) : m'.AllFollow := by
  cases hp with
  | known hnew =>
    intro slot hslot
    apply (h slot hslot).transfer (count_namespaces_keys hnew) _ rfl
    intro config hconfig
    exact ⟨config, hconfig, rfl, rfl⟩
  | refreshed _ hrefreshed _ _ => exact hrefreshed.follows
  | @generated m₁ configs config champ oracle _ hrefreshed _ _ hrestated _ hproduced =>
    have hlive := hrefreshed.live_indices_eq
    have hfollows := hrefreshed.follows
    obtain ⟨hconfigs_eq, hvalid_eq, _⟩ := ConfigOracle.refreshed_eq
      ({ m._config_oracle with configs } : ConfigOracle S.toSettings) m₁.ns_counter
    intro slot hslot
    refine Follows.transfer (hfollows slot hslot) rfl ?_ rfl
    intro config hconfig
    have hmem : slot.1.config_index ∈ m.live_indices := by
      have hmem' : slot.1.config_index ∈ m₁.live_indices := mem_map_of_mem hslot
      rw [hlive] at hmem'
      exact hmem'
    have hlt := hrange.live _ hmem
    have hconfig₀ : m.configs[slot.1.config_index]? = some config := by
      obtain ⟨estimators, rfl⟩ := hrefreshed.eq
      exact hconfig
    obtain ⟨config', hconfig', helements, htype, _⟩ := hrestated.get hconfig₀
    refine ⟨config', ?_, helements, htype⟩
    have hkept := hproduced.generated.kept slot.1.config_index (by rw [hvalid_eq]; exact hlt)
    rw [hconfigs_eq] at hkept
    exact hkept.trans hconfig'

/-- The winner and the old champion keep their interactions, and their configurations
    move along. -/
theorem Switched.all_follow {k : Nat}
    {champ old_champ : LiveSlot E} (hs : m.Switched k champ old_champ m') (hk : k ≠ 0)
    (hinv : m.Invariant) (h : m.AllFollow) : m'.AllFollow := by
  obtain ⟨hfirst, hsecond⟩ := hs.configs_eq hk hinv
  obtain ⟨slot, hslot, hindex, _⟩ := hinv.champ
  obtain rfl : slot = old_champ := Option.some.inj (hslot.symm.trans hs.old_champ_eq)
  have hkeys : m'.ns_counter.keys = m.ns_counter.keys := by
    obtain ⟨oracle, heq⟩ := hs.eq
    rw [heq]
  obtain ⟨eligible, _, hslots⟩ := hs.slots
  intro slot' hslot'
  rw [hslots] at hslot'
  simp only [switch_slots, mem_cons, not_mem_nil, or_false] at hslot'
  rcases hslot' with rfl | rfl
  · refine Follows.transfer (h champ (mem_of_getElem? hs.champ_eq)) hkeys ?_ rfl
    intro config hconfig
    exact ⟨config, hfirst.trans hconfig, rfl, rfl⟩
  · refine Follows.transfer (h slot (mem_of_getElem? hslot)) hkeys ?_ rfl
    intro config hconfig
    rw [hindex] at hconfig
    exact ⟨config, hsecond.trans hconfig, rfl, rfl⟩

/-! ## Scheduling before the first namespace -/

/-- There is one configuration, and it has been scheduled. -/
structure Lone (m : InteractionConfigManager S V) : Prop where
  range : m.InRange
  length_eq : m.configs.length = 1
  started : ∀ config, m.configs[0]? = some config → config.state ≠ .New

/-- An index in range is that of the one configuration. -/
theorem InRange.index_eq (h : m.InRange)
    (hlength : m.configs.length = 1) {i : Nat} (hi : i < m.valid) : i = 0 := by
  have hle : m.valid ≤ m.configs.length := h.oracle.valid_le
  omega

theorem Applied.lone (ha : m.Applied live_slot inactivated config_index m') (hrange : m.InRange)
    (hlength : m.configs.length = 1) : m'.Lone := by
  refine ⟨ha.in_range hrange, ha.configs_eq.length_eq.trans hlength, ?_⟩
  intro config hconfig
  obtain ⟨old, _, _, _, hstate⟩ := ha.configs_eq.get' hconfig
  have hindex : config_index = 0 :=
    hrange.index_eq hlength (hrange.queue _ (ha.queue_eq ▸ mem_cons_self))
  rw [hstate, hindex, state_applied, if_pos rfl]
  decide

theorem Touched.lone (ht : m.Touched m') (h : m.Lone) :
    m'.Lone := by
  refine ⟨ht.in_range h.range, ht.configs_eq.length_eq.trans h.length_eq, ?_⟩
  intro config hconfig
  obtain ⟨old, hold, _, _, hstate⟩ := ht.configs_eq.get' hconfig
  rw [hstate]
  exact h.started old hold

theorem Refilled.lone
    (hr : m.Refilled filled m') (h : m.Lone) : m'.Lone := by
  have hrange := hr.in_range h.range
  obtain ⟨queue, rfl⟩ := hr.eq
  exact ⟨hrange, h.length_eq, h.started⟩

theorem Refilled.configs_eq
    (hr : m.Refilled filled m') : m'.configs = m.configs := by
  obtain ⟨queue, rfl⟩ := hr.eq
  rfl

theorem SlotScheduled.lone
    (hs : m.SlotScheduled live_slot m') (h : m.Lone) : m'.Lone := by
  cases hs with
  | touched _ ht => exact ht.lone h
  | empty ht hempty => exact hempty.lone (ht.lone h)
  | applied ht hfilled happlied _ _ =>
    have h₂ := hfilled.lone (ht.lone h)
    exact happlied.lone h₂.range h₂.length_eq

theorem Touched.fresh (ht : m.Touched m') (h : m.Fresh) :
    m'.Fresh := by
  obtain ⟨config, hconfigs, hstate, helements⟩ := h.configs
  obtain ⟨slot, hslots, hindex, heligible⟩ := h.slots
  have hlength := ht.length_eq
  have hrestated := ht.configs_eq
  obtain ⟨flag, hchamp, hget⟩ := ht.slots
  have hzero := hget 0
  obtain ⟨configs, estimators, rfl⟩ := ht.eq
  refine ⟨?_, h.valid, h.queue, ?_⟩
  · obtain ⟨config', hconfig', helements', _, hstate'⟩ := hrestated.get
      (show m.configs[0]? = some config by rw [hconfigs]; rfl)
    have hlen : configs.length = 1 := by
      have := hrestated.length_eq
      rw [hconfigs] at this
      exact this
    obtain ⟨c, hc⟩ := length_eq_one_iff.mp hlen
    rw [hc] at hconfig'
    obtain rfl := Option.some.inj hconfig'
    exact ⟨c, hc, hstate'.trans hstate, helements'.trans helements⟩
  · rw [hslots] at hlength hzero
    obtain ⟨s, hs⟩ := length_eq_one_iff.mp hlength
    dsimp only at hs hzero
    rw [hs] at hzero
    obtain rfl := Option.some.inj hzero
    refine ⟨_, hs, hindex, ?_⟩
    show flag 0 slot.1.eligible_to_inactivate = false
    rw [heligible, Bool.eq_false_iff]
    intro hflag
    cases hchamp false hflag

/-- The new configuration is what the queue is filled with. -/
theorem SlotScheduled.fresh
    (hs : m.SlotScheduled live_slot m') (h : m.Fresh) : m'.Fresh ∨ m'.Lone := by
  have hone : ∀ m₁ : InteractionConfigManager S V, m₁.Fresh → m₁.configs.length = 1 := by
    intro m₁ h₁
    obtain ⟨config, hconfigs, _⟩ := h₁.configs
    rw [hconfigs]
    rfl
  cases hs with
  | touched _ ht => exact Or.inl (ht.fresh h)
  | @empty m₁ _ ht hempty =>
    have h₁ := ht.fresh h
    obtain ⟨config, hconfigs, hstate, _⟩ := h₁.configs
    have hwaiting : m'.Waiting 0 := by
      have hvalid : m'.valid = m₁.valid := by
        obtain ⟨queue, rfl⟩ := hempty.eq
        rfl
      refine ⟨?_, config, ?_, Or.inl hstate⟩
      · rw [hvalid, h₁.valid]
        exact Nat.one_pos
      · rw [hempty.configs_eq, hconfigs]
        rfl
    exact absurd hwaiting ((hempty.empty_eq rfl).2 0)
  | @applied m₁ m₂ _ inactivated config_index ht hfilled happlied _ _ =>
    have h₁ := ht.fresh h
    have hrange := hfilled.in_range h₁.in_range
    exact Or.inr (happlied.lone hrange (by rw [hfilled.configs_eq, hone m₁ h₁]))

/-! ## Every order of steps -/

/-- With a single configuration nobody can take the champion's place. -/
theorem Lone.check_for_new_champ [DecidableEq V] (h : m.Lone)
    (hrun : m.check_for_new_champ = .ok m') : m' = m := by
  unfold InteractionConfigManager.check_for_new_champ at hrun
  obtain ⟨⟨winner, m₁⟩, hfind, hrun⟩ := bind_eq_ok.mp hrun
  obtain ⟨heq, hwinner⟩ := (find_winner_safe m).of_ok hfind
  obtain rfl : m = m₁ := heq.symm
  dsimp only at hrun hwinner
  cases winner with
  | none => exact (Except.ok.inj hrun).symm
  | some k =>
    obtain ⟨hk, champ, hchamp, _⟩ := hwinner k rfl
    have hk_lt : k < m.estimators.length := (List.getElem?_eq_some_iff.mp hchamp).1
    dsimp only at hrun
    unfold apply_new_champ at hrun
    obtain ⟨m₁, hflag, hrun⟩ := bind_eq_ok.mp hrun
    obtain ⟨m₂, hflag', hrun⟩ := bind_eq_ok.mp hrun
    obtain ⟨slot, hslot, hrun⟩ := bind_eq_ok.mp hrun
    obtain ⟨old_champ, _, hrun⟩ := bind_eq_ok.mp hrun
    obtain ⟨oracle, hkeep, _⟩ := bind_eq_ok.mp hrun
    -- the flags do not change the configuration of the slot
    have h₁ : Touched _ m₁ := (set_eligible_safe (m := m.switching k) hk_lt fun h => absurd h hk).of_ok hflag
    have h₂ : Touched m₁ m₂ := by
      split at hflag'
      · have hpos : 0 < m₁.estimators.length := by
          rw [h₁.length_eq]
          exact (Nat.zero_le k).trans_lt hk_lt
        exact (set_eligible_safe hpos fun _ => rfl).of_ok hflag'
      · rw [← Except.ok.inj hflag']
        exact Touched.refl m₁
    have hindex : slot.1.config_index = 0 := by
      apply h.range.index_eq h.length_eq
      apply h.range.live
      have hmem : slot.1.config_index ∈ m₂.live_indices :=
        mem_map_of_mem (mem_of_getElem? (nth_eq_ok.mp hslot))
      rw [h₂.live_indices_eq, h₁.live_indices_eq] at hmem
      exact hmem
    have hlength : (m._config_oracle.clear_queue).configs.length = 1 := h.length_eq
    rw [hindex] at hkeep
    exact absurd ((ConfigOracle.keep_best_two_zero hlength).symm.trans hkeep) (by
      intro hok
      cases hok)

theorem Lone.processed
    (hp : m.Processed ec m') (h : m.Lone) : m'.Lone := by
  have hrange : ∀ ns_counter, InRange { m with ns_counter } := fun ns_counter =>
    ⟨h.range.1, h.range.2, h.range.3, h.range.4⟩
  cases hp with
  | known => exact ⟨hrange _, h.length_eq, h.started⟩
  | refreshed _ hrefreshed _ _ =>
    have hnext := hrefreshed.in_range (hrange _)
    obtain ⟨estimators, rfl⟩ := hrefreshed.eq
    exact ⟨hnext, h.length_eq, h.started⟩
  | generated _ _ hconfig hstate => exact absurd hstate (h.started _ hconfig)

theorem Lone.learned
    (hl : Learned own other m m') (h : m.Lone) : m'.Lone := by
  have hnext := hl.in_range h.range
  obtain ⟨data, estimators, rfl⟩ := hl.eq
  exact ⟨hnext, h.length_eq, h.started⟩

/-- The phases of a run: before any namespace and any schedule, after a schedule that
    came first, and after the namespaces came first. -/
inductive Running (m : InteractionConfigManager S V) : Prop where
  | fresh (h : m.Fresh)
  | lone (h : m.Lone)
  | searching (h : m.Invariant)

theorem Running.in_range (h : m.Running) : m.InRange := by
  cases h with
  | fresh h => exact h.in_range
  | lone h => exact h.range
  | searching h => exact h.range

theorem Running.slot_scheduled
    (hs : m.SlotScheduled live_slot m') (hlt : live_slot < S.max_live_configs) (h : m.Running) :
    m'.Running := by
  cases h with
  | fresh h =>
    rcases hs.fresh h with h' | h'
    · exact .fresh h'
    · exact .lone h'
  | lone h => exact .lone (hs.lone h)
  | searching h => exact .searching (hs.invariant h hlt)

theorem Running.learned
    (hl : Learned own other m m') (h : m.Running) : m'.Running := by
  cases h with
  | fresh h => exact .fresh (h.learned hl)
  | lone h => exact .lone (h.learned hl)
  | searching h => exact .searching (hl.invariant h)

theorem Running.processed
    (hp : m.Processed ec m') (h : m.Running) : m'.Running := by
  cases h with
  | fresh h =>
    have hnext := h.processed hp
    split at hnext
    · exact .searching hnext
    · exact .fresh hnext
  | lone h => exact .lone (h.processed hp)
  | searching h => exact .searching (h.processed hp)

/-- What every step of a run keeps, if each of the four relations keeps it. -/
structure Kept (K : InteractionConfigManager S V → Prop) : Prop where
  initial : ∀ weights feature_width random_state, K (.initial weights feature_width random_state)
  count : ∀ m : InteractionConfigManager S V, K m → K { m with total_learn_count := m.total_learn_count + 1 }
  processed : ∀ m m' ec, m.Running → Processed m ec m' → K m → K m'
  slot_scheduled : ∀ m m' live_slot, m.Running → live_slot < S.max_live_configs →
    SlotScheduled m live_slot m' → K m → K m'
  learned : ∀ m m' own other, Learned own other m m' → K m → K m'
  switching : ∀ [DecidableEq V] m k, K m → K (m.switching k)
  switched : ∀ m m' k champ old_champ, k ≠ 0 → m.Invariant → Switched m k champ old_champ m' →
    K m → K m'

/-- In a run, with the steps in any order. -/
theorem Reachable.kept [DecidableEq V] {K : InteractionConfigManager S V → Prop} (hK : Kept K)
    {may_schedule : InteractionConfigManager S V → Prop}
    (h : Reachable may_schedule m) : m.Running ∧ K m := by
  induction h with
  | initial weights feature_width random_state =>
    exact ⟨.fresh (fresh_initial weights feature_width random_state),
      hK.initial weights feature_width random_state⟩
  | @step m m' _ hstep ih =>
    obtain ⟨hrunning, hkept⟩ := ih
    have hrange := hrunning.in_range
    cases hstep with
    | count =>
      refine ⟨?_, hK.count m hkept⟩
      cases hrunning with
      | fresh h => exact .fresh ⟨h.1, h.2, h.3, h.4⟩
      | lone h => exact .lone ⟨⟨h.range.1, h.range.2, h.range.3, h.range.4⟩, h.length_eq, h.started⟩
      | searching h =>
        exact .searching ⟨⟨h.range.1, h.range.2, h.range.3, h.range.4⟩, h.live, h.live_nodup, h.champ,
          h.queue_nodup, h.queue_not_live, h.size_le, h.champdupe⟩
    | process_example ec hrun =>
      have hpos : 0 < m.valid := by
        obtain ⟨slot, rest, hcons⟩ := exists_cons_of_ne_nil hrange.nonempty
        apply (Nat.zero_le slot.1.config_index).trans_lt
        apply hrange.live
        unfold live_indices
        rw [hcons]
        exact mem_cons_self
      have hp := (process_example_safe ec hrange hpos).of_ok hrun
      exact ⟨hrunning.processed hp, hK.processed m m' ec hrunning hp hkept⟩
    | schedule _ hrun =>
      unfold schedule at hrun
      let Q : Nat → InteractionConfigManager S V → Prop := fun n m' =>
        (m'.Running ∧ K m') ∧ (n ≤ m'.estimators.length ∨ m'.Exhausted)
      refine (Outcome.Safe.of_ok (foldlM_range_safe Q ⟨⟨hrunning, hkept⟩, Or.inl (Nat.zero_le _)⟩ ?_) hrun).1
      rintro live_slot hlt m₁ ⟨⟨hrunning₁, hkept₁⟩, hsize⟩
      apply (schedule_slot_safe hrunning₁.in_range hsize).mono
      intro m₂ hs
      exact ⟨⟨hrunning₁.slot_scheduled hs hlt, hK.slot_scheduled m₁ m₂ live_slot hrunning₁ hlt hs hkept₁⟩,
        hs.no_gap⟩
    | offset_learn base logged labelled_action reverse hrun =>
      have hl := (offset_learn_safe base logged labelled_action reverse hrange.nonempty).of_ok hrun
      exact ⟨hrunning.learned hl, hK.learned m m' _ _ hl hkept⟩
    | check_for_new_champ hrun =>
      cases hrunning with
      | fresh h =>
        obtain rfl := h.check_for_new_champ.of_ok hrun
        exact ⟨.fresh h, hkept⟩
      | lone h =>
        obtain rfl := h.check_for_new_champ hrun
        exact ⟨.lone h, hkept⟩
      | searching h =>
        rcases (check_for_new_champ_safe h).of_ok hrun with rfl | ⟨k, champ, old_champ, hk, _, hs⟩
        · exact ⟨.searching h, hkept⟩
        · exact ⟨.searching (hs.invariant hk (h.switching k)),
            hK.switched _ m' k champ old_champ hk (h.switching k) hs (hK.switching m k hkept)⟩

/-- Before the first namespace there are no interactions. -/
theorem config_interactions_empty {config : NsBasedConfig} (hempty : config.elements = .empty)
    (hboth : config.conf_type = .Exclusion → S.interaction_type ≠ .both) :
    config_interactions .empty S.interaction_type config = .ok [] := by
  unfold config_interactions
  rw [hempty]
  cases htype : config.conf_type with
  | Exclusion =>
    cases hinteraction : S.interaction_type with
    | quadratic => rfl
    | cubic => rfl
    | both => exact absurd hinteraction (hboth htype)
  | Interaction => cases S.interaction_type <;> rfl

theorem all_follow_initial (weights : DenseParameters V) (feature_width : Nat) (random_state : R) :
    (initial (S := S) weights feature_width random_state).AllFollow := by
  intro slot hslot
  obtain rfl := mem_singleton.mp hslot
  refine ⟨.reset .empty S.default_lease S.conf_type, rfl, ?_⟩
  have hboth : S.conf_type = .Exclusion → S.interaction_type ≠ .both := by
    intro hexclusion hboth
    rw [S.conf_type_of_both hboth] at hexclusion
    cases hexclusion
  have hnone := @config_interactions_empty _ _ _ S (.reset .empty S.default_lease S.conf_type) rfl hboth
  unfold apply_config_to_interactions
  rw [show (initial (S := S) weights feature_width random_state).ns_counter = .empty from rfl, hnone,
    ok_bind]
  cases S.ccb_on <;> rfl

theorem kept_all_follow : Kept (AllFollow (S := S) (V := V)) where
  initial := all_follow_initial
  count _ h := h
  processed _ _ _ hrunning hp h := hp.all_follow hrunning.in_range h
  slot_scheduled _ _ _ _ _ hs h := hs.all_follow h
  learned _ _ _ _ hl h := hl.all_follow h
  switching _ _ h := h
  switched _ _ _ _ _ hk hinv hs h := hs.all_follow hk hinv h

end InteractionConfigManager

end VW.AutoML
