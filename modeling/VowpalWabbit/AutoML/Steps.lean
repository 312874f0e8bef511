import VowpalWabbit.AutoML.Scheduling

/-! # What the other steps do

    The champion switch, the examples and learning, each with one relation that
    says what it can do, given that all indices are in range. A switch has defined
    behaviour only when the table has room for two configurations.
-/

open Cpp VW.MultiModel

namespace VW.AutoML

open List Outcome

variable {P R E V : Type}

namespace ConfigOracle

variable {S : Settings P R}

/-- The winner is in front of the old champion, and everything else may be overwritten. -/
structure BestTwo (o : ConfigOracle S) (winner : Nat) (o' : ConfigOracle S) : Prop where
  eq : ∃ configs, o' = { o with
    configs, valid_config_size := if S.oracle_type = .champdupe then o.valid_config_size else 2 }
  length_eq : o'.configs.length = o.configs.length
  first : o'.configs[0]? = o.configs[winner]?
  second : o'.configs[1]? = o.configs[0]?
  elements : ∀ config ∈ o'.configs, ∃ old ∈ o.configs, config.elements = old.elements
  third : S.oracle_type = .champdupe → ∃ config, o'.configs[2]? = some config ∧ config.state = .Inactive

theorem keep_best_two_safe {o : ConfigOracle S} {winner : Nat} (hpos : 0 < winner)
    (hlt : winner < o.configs.length) (hdupe : S.oracle_type = .champdupe → 2 < o.configs.length) :
    Safe (o.keep_best_two winner) (o.BestTwo winner) := by
  unfold keep_best_two
  have h0 : 0 < o.configs.length := hpos.trans hlt
  apply (swap_nth_safe h0 hlt).bind
  rintro _ rfl
  have hfirst : ∀ j, (Cpp.swap_at o.configs 0 winner)[j]? = if j = winner then o.configs[0]?
      else if j = 0 then o.configs[winner]? else o.configs[j]? := Cpp.getElem?_swap_at h0 hlt
  have hlength := Cpp.length_swap_at o.configs 0 winner
  have hperm := Cpp.perm_swap_at o.configs 0 winner
  -- the old champion goes to the second place unless it is there
  have hsecond : Safe (if winner ≠ 1 then swap_nth (Cpp.swap_at o.configs 0 winner) 1 winner
      else .ok (Cpp.swap_at o.configs 0 winner)) fun configs => configs.Perm o.configs ∧
        configs[0]? = o.configs[winner]? ∧ configs[1]? = o.configs[0]? := by
    split
    case isTrue hne =>
      have h1 : 1 < (Cpp.swap_at o.configs 0 winner).length := by omega
      apply (swap_nth_safe h1 (hlength ▸ hlt)).mono
      rintro _ rfl
      refine ⟨(Cpp.perm_swap_at _ _ _).trans hperm, ?_, ?_⟩
      · rw [Cpp.getElem?_swap_at h1 (hlength ▸ hlt), if_neg hpos.ne, if_neg (by decide), hfirst,
          if_neg hpos.ne, if_pos rfl]
      · rw [Cpp.getElem?_swap_at h1 (hlength ▸ hlt), if_neg (Ne.symm hne), if_pos rfl, hfirst, if_pos rfl]
    case isFalse heq =>
      obtain rfl : winner = 1 := not_not.mp heq
      refine .ok ⟨hperm, ?_, ?_⟩
      · rw [hfirst, if_neg (by decide), if_pos rfl]
      · rw [hfirst, if_pos rfl]
  apply hsecond.bind
  intro configs ⟨hperm', hzero, hone⟩
  have helements : ∀ config ∈ configs, ∃ old ∈ o.configs, config.elements = old.elements :=
    fun config hconfig => ⟨config, hperm'.mem_iff.mp hconfig, rfl⟩
  split
  case isTrue hdupe' =>
    have h2 : 2 < configs.length := hperm'.length_eq ▸ hdupe hdupe'
    apply (update_nth_safe _ h2).bind
    rintro _ ⟨third, hthird, rfl⟩
    refine .ok ⟨⟨_, by rw [if_pos hdupe']⟩, ?_, ?_, ?_, ?_, ?_⟩
    · exact (length_set).trans hperm'.length_eq
    · exact (getElem?_set_ne (by decide)).trans hzero
    · exact (getElem?_set_ne (by decide)).trans hone
    · intro config hconfig
      rcases mem_or_eq_of_mem_set hconfig with hconfig | rfl
      · exact helements config hconfig
      · exact helements third (mem_of_getElem? hthird)
    · intro _
      exact ⟨_, getElem?_set_self h2, rfl⟩
  case isFalse hdupe' =>
    exact .ok ⟨⟨configs, by rw [if_neg hdupe']⟩, hperm'.length_eq, hzero, hone, helements,
      fun h => absurd h hdupe'⟩

/-- Without a second configuration there is no second place. -/
theorem keep_best_two_zero {o : ConfigOracle S} (h : o.configs.length = 1) :
    o.keep_best_two 0 = undefined := by
  have hswap : swap_nth o.configs 0 0 = .ok (Cpp.swap_at o.configs 0 0) := by
    unfold swap_nth
    rw [if_pos ⟨by omega, by omega⟩]
  have hswap' : swap_nth (Cpp.swap_at o.configs 0 0) 1 0 = undefined := by
    unfold swap_nth
    rw [if_neg]
    rw [Cpp.length_swap_at, h]
    omega
  unfold keep_best_two
  rw [hswap, ok_bind, if_pos (by decide), hswap', undefined_bind]

end ConfigOracle

namespace InteractionConfigManager

variable {S : ManagerSettings P R E}

/-! ## The champion -/

/-- No configuration is removed, so that only the winner matters. -/
theorem find_winner_safe (m : InteractionConfigManager S V) :
    Safe m.find_winner fun r => r.2 = m ∧ ∀ k, r.1 = some k → k ≠ 0 ∧
      ∃ slot, m.estimators[k]? = some slot ∧ better S slot.1._estimator slot.2 = true := by
  unfold find_winner
  apply foldlM_safe (fun r : Option Nat × InteractionConfigManager S V => r.2 = m ∧
    ∀ k, r.1 = some k → k ≠ 0 ∧
      ∃ slot, m.estimators[k]? = some slot ∧ better S slot.1._estimator slot.2 = true)
  · exact ⟨rfl, fun k h => by cases h⟩
  · rintro live_slot hlive ⟨winner, _⟩ ⟨rfl, hwinner⟩
    dsimp only
    split
    case isTrue => exact .ok ⟨rfl, hwinner⟩
    case isFalse hne =>
      apply (nth_safe (mem_range.mp hlive)).bind
      intro slot hslot
      split
      case isTrue hbetter =>
        refine .ok ⟨rfl, ?_⟩
        intro k hk
        obtain rfl : live_slot = k := Option.some.inj hk
        exact ⟨hne, slot, hslot, hbetter⟩
      case isFalse => exact .ok ⟨rfl, hwinner⟩

/-- The winner of slot `k` has become the champion. -/
structure Switched (m : InteractionConfigManager S V) (k : Nat) (champ old_champ : LiveSlot E)
    (m' : InteractionConfigManager S V) : Prop where
  champ_eq : m.estimators[k]? = some champ
  old_champ_eq : m.estimators[0]? = some old_champ
  eq : ∃ oracle, m' = { m with estimators := m'.estimators, _config_oracle := oracle }
  slots : ∃ eligible, (eligible = true → old_champ.1.eligible_to_inactivate = true) ∧
    m'.estimators = switch_slots (S := S)
      ({ champ.1 with eligible_to_inactivate := false, config_index := 0 }, champ.2)
      ({ old_champ.1 with eligible_to_inactivate := eligible, config_index := 1 }, old_champ.2)
  oracle : ∃ o, m._config_oracle.clear_queue.BestTwo champ.1.config_index o ∧
    o.Produced champ.1.live_interactions m.ns_counter m'._config_oracle

variable {m : InteractionConfigManager S V}

theorem apply_new_champ_safe {k : Nat} {champ old_champ : LiveSlot E}
    (hk : k ≠ 0) (hchamp : m.estimators[k]? = some champ) (hold : m.estimators[0]? = some old_champ)
    (hwell : m._config_oracle.WellFormed) (hindex : 0 < champ.1.config_index)
    (hlt : champ.1.config_index < m._config_oracle.valid_config_size)
    (hdupe : S.oracle_type = .champdupe → 2 < m.configs.length) :
    Safe (m.apply_new_champ k) (m.Switched k champ old_champ) := by
  have hk_lt := (List.getElem?_eq_some_iff.mp hchamp).1
  unfold apply_new_champ
  -- the flags of the winner and of the old champion
  have hwinner : Safe (m.set_eligible k false) fun m₁ => ∃ estimators,
      m₁ = { m with estimators } ∧ estimators = m.estimators.set k
        ({ champ.1 with eligible_to_inactivate := false }, champ.2) := by
    unfold set_eligible
    apply (update_nth_safe _ hk_lt).bind
    rintro _ ⟨slot, hslot, rfl⟩
    obtain rfl : slot = champ := Option.some.inj (hslot.symm.trans hchamp)
    exact .ok ⟨_, rfl, rfl⟩
  apply hwinner.bind
  rintro _ ⟨estimators, rfl, hestimators⟩
  have hget_k : estimators[k]? = some ({ champ.1 with eligible_to_inactivate := false }, champ.2) := by
    rw [hestimators, getElem?_set_self hk_lt]
  have hget_0 : estimators[0]? = some old_champ := by
    rw [hestimators, getElem?_set_ne hk, hold]
  have hflags : Safe (if S.priority_challengers > 1 then
      ({ m with estimators } : InteractionConfigManager S V).set_eligible 0 false
      else .ok { m with estimators }) fun m₂ => ∃ estimators₂, m₂ = { m with estimators := estimators₂ } ∧
        estimators₂[k]? = some ({ champ.1 with eligible_to_inactivate := false }, champ.2) ∧
        ∃ eligible, (eligible = true → old_champ.1.eligible_to_inactivate = true) ∧
          estimators₂[0]? =
            some ({ old_champ.1 with eligible_to_inactivate := eligible }, old_champ.2) := by
    split
    case isTrue =>
      unfold set_eligible
      apply (update_nth_safe _ (List.getElem?_eq_some_iff.mp hget_0).1).bind
      rintro _ ⟨slot, hslot, rfl⟩
      obtain rfl : slot = old_champ := Option.some.inj (hslot.symm.trans hget_0)
      refine .ok ⟨_, rfl, ?_, false, (fun h => by cases h), ?_⟩
      · exact (getElem?_set_ne (Ne.symm hk)).trans hget_k
      · exact getElem?_set_self (List.getElem?_eq_some_iff.mp hget_0).1
    case isFalse => exact .ok ⟨estimators, rfl, hget_k, _, id, hget_0⟩
  apply hflags.bind
  rintro _ ⟨estimators₂, rfl, hget_k₂, eligible, heligible, hget_0₂⟩
  apply (nth_safe (List.getElem?_eq_some_iff.mp hget_k₂).1).bind
  intro slot hslot
  obtain rfl := Option.some.inj (hslot.symm.trans hget_k₂)
  apply (nth_safe (List.getElem?_eq_some_iff.mp hget_0₂).1).bind
  intro slot' hslot'
  obtain rfl := Option.some.inj (hslot'.symm.trans hget_0₂)
  have hlt' := hlt.trans_le hwell.valid_le
  apply (ConfigOracle.keep_best_two_safe (o := m._config_oracle.clear_queue) hindex hlt' hdupe).bind
  intro o ho
  have hwell_o : o.WellFormed ∧ 0 < o.valid_config_size := by
    have hlength := ho.length_eq
    have helements := ho.elements
    obtain ⟨configs, rfl⟩ := ho.eq
    have hvalid_le : m._config_oracle.valid_config_size ≤ m._config_oracle.configs.length := hwell.valid_le
    refine ⟨⟨?_, ?_⟩, ?_⟩
    · show (if _ then _ else _) ≤ configs.length
      rw [show configs.length = m._config_oracle.configs.length from hlength]
      split
      · exact hvalid_le
      · omega
    · intro config hconfig
      obtain ⟨old, hold, heq⟩ := helements config hconfig
      rw [heq]
      exact hwell.removable old hold
    · show 0 < (if _ then _ else _)
      split
      · exact hindex.trans hlt
      · decide
  apply (ConfigOracle.gen_configs_safe _ m.ns_counter hwell_o.1 hwell_o.2).bind
  intro oracle horacle
  exact .ok ⟨hchamp, hold, ⟨oracle, rfl⟩, ⟨eligible, heligible, rfl⟩, o, ho, horacle⟩

/-! ## Examples -/

/-- The interactions of a slot are those of its configuration. -/
def Follows (m : InteractionConfigManager S V) (slot : LiveSlot E) : Prop :=
  ∃ config, m.configs[slot.1.config_index]? = some config ∧
    apply_config_to_interactions S.ccb_on m.ns_counter S.interaction_type config
      = .ok slot.1.live_interactions

/-- All slots have new interactions. -/
structure Refreshed (m m' : InteractionConfigManager S V) : Prop where
  eq : ∃ estimators, m' = { m with estimators }
  slots : ∃ interactions : Nat → InteractionVec, ∀ j, m'.estimators[j]? = m.estimators[j]?.map
    fun slot : LiveSlot E => ({ slot.1 with live_interactions := interactions j }, slot.2)
  follows : ∀ slot ∈ m'.estimators, m'.Follows slot

theorem refresh_safe (hrange : m.InRange) :
    Safe ((List.range m.estimators.length).foldlM
      (fun m live_slot => update_interactions m live_slot) m) m.Refreshed := by
  -- the slots below `n` are done
  let Q : Nat → InteractionConfigManager S V → Prop := fun n m' => (∃ estimators, m' = { m with estimators }) ∧
    (∃ interactions : Nat → InteractionVec, ∀ j, m'.estimators[j]? = m.estimators[j]?.map
      fun slot : LiveSlot E => ({ slot.1 with live_interactions := interactions j }, slot.2)) ∧
    ∀ j < n, ∀ slot, m'.estimators[j]? = some slot → m'.Follows slot
  have hstart : Q 0 m := by
    refine ⟨⟨_, rfl⟩, ⟨fun j => (m.estimators[j]?.map (·.1.live_interactions)).getD [], ?_⟩,
      fun j hj => absurd hj (Nat.not_lt_zero j)⟩
    intro j
    dsimp only
    cases m.estimators[j]? <;> rfl
  have hloop : Safe ((List.range m.estimators.length).foldlM
      (fun m live_slot => update_interactions m live_slot) m) (Q m.estimators.length) := by
    apply foldlM_range_safe Q hstart
    rintro i hi _ ⟨⟨estimators, rfl⟩, ⟨interactions, hget⟩, hfollows⟩
    dsimp only at hget hfollows
    have hslot := getElem?_eq_getElem hi
    generalize m.estimators[i] = slot at hslot
    have hslot' : estimators[i]? = some ({ slot.1 with live_interactions := interactions i }, slot.2) := by
      rw [hget, hslot]
      rfl
    have hconfig_lt : slot.1.config_index < m.configs.length :=
      (hrange.live _ (mem_map_of_mem (mem_of_getElem? hslot))).trans_le hrange.oracle.valid_le
    refine .mono (update_interactions_safe hslot' (getElem?_eq_getElem hconfig_lt)) ?_
    rintro _ ⟨new_interactions, happly, rfl⟩
    have hlt := (List.getElem?_eq_some_iff.mp hslot').1
    refine ⟨⟨_, rfl⟩, ⟨fun j => if j = i then new_interactions else interactions j, ?_⟩, ?_⟩
    · intro j
      by_cases hj : j = i
      · subst hj
        simp only [if_pos]
        rw [getElem?_set_self hlt, hslot]
        rfl
      · simp only [if_neg hj]
        rw [getElem?_set_ne (Ne.symm hj), hget]
    · intro j hj slot' hslot''
      by_cases hji : j = i
      · subst hji
        rw [getElem?_set_self hlt] at hslot''
        obtain rfl := Option.some.inj hslot''
        exact ⟨_, getElem?_eq_getElem hconfig_lt, happly⟩
      · rw [getElem?_set_ne (Ne.symm hji)] at hslot''
        exact hfollows j (by omega) slot' hslot''
  apply hloop.mono
  rintro m' ⟨heq, hslots, hfollows⟩
  refine ⟨heq, hslots, ?_⟩
  intro slot hslot
  obtain ⟨j, hj⟩ := mem_iff_getElem?.mp hslot
  have hlt : j < m.estimators.length := by
    obtain ⟨interactions, hget⟩ := hslots
    rw [hget] at hj
    obtain ⟨old, hold, _⟩ := Option.map_eq_some_iff.mp hj
    exact (List.getElem?_eq_some_iff.mp hold).1
  exact hfollows j hlt slot hj

/-- What an example does. The first new namespace starts the search for configurations. -/
inductive Processed (m : InteractionConfigManager S V) (ec : List Example) :
    InteractionConfigManager S V → Prop where
  | known (h : (count_namespaces ec m.ns_counter).1 = false) :
      Processed m ec { m with ns_counter := (count_namespaces ec m.ns_counter).2 }
  | refreshed {m' : InteractionConfigManager S V} {config : NsBasedConfig}
      (h : (count_namespaces ec m.ns_counter).1 = true)
      (hrefreshed : Refreshed { m with ns_counter := (count_namespaces ec m.ns_counter).2 } m')
      (hconfig : m.configs[0]? = some config) (hstate : config.state ≠ .New) : Processed m ec m'
  | generated {m₁ : InteractionConfigManager S V} {configs : List NsBasedConfig}
      {config : NsBasedConfig} {champ : LiveSlot E} {oracle : ConfigOracle S.toSettings}
      (h : (count_namespaces ec m.ns_counter).1 = true)
      (hrefreshed : Refreshed { m with ns_counter := (count_namespaces ec m.ns_counter).2 } m₁)
      (hconfig : m.configs[0]? = some config) (hstate : config.state = .New)
      (hconfigs : Restated (fun j s => if j = 0 then .Live else s) m.configs configs)
      (hchamp : m₁.estimators[0]? = some champ)
      (hgen : ConfigOracle.Produced { m._config_oracle with configs } champ.1.live_interactions
        m₁.ns_counter oracle) :
      Processed m ec { m₁ with _config_oracle := oracle }

theorem process_example_safe (ec : List Example)
    (hrange : m.InRange) (hpos : 0 < m.valid) :
    Safe (m.process_example ec) (m.Processed ec) := by
  unfold process_example
  dsimp only
  cases hnew : (count_namespaces ec m.ns_counter).1 with
  | false => exact .ok (.known hnew)
  | true =>
    have hrange' : InRange { m with ns_counter := (count_namespaces ec m.ns_counter).2 } :=
      ⟨hrange.1, hrange.2, hrange.3, hrange.4⟩
    refine .bind (refresh_safe hrange') ?_
    intro m₁ hrefreshed
    obtain ⟨estimators, rfl⟩ := hrefreshed.eq
    have hlt : 0 < m.configs.length := hpos.trans_le hrange.oracle.valid_le
    apply (nth_safe (l := m._config_oracle.configs) hlt).bind
    intro config hconfig
    split
    case isFalse hstate => exact .ok (.refreshed hnew hrefreshed hconfig hstate)
    case isTrue hstate =>
      refine .bind (set_state_safe (o := m._config_oracle) hlt .Live) ?_
      rintro _ ⟨configs, rfl, hconfigs⟩
      have hsize : 0 < estimators.length := by
        apply length_pos_of_ne_nil
        rintro rfl
        obtain ⟨interactions, hget⟩ := hrefreshed.slots
        obtain ⟨slot, rest, hcons⟩ := exists_cons_of_ne_nil hrange.nonempty
        have hzero := hget 0
        dsimp only at hzero
        rw [hcons] at hzero
        cases hzero
      apply (nth_safe hsize).bind
      intro champ hchamp
      refine .bind (ConfigOracle.gen_configs_safe _ _ ?_ hpos) ?_
      · constructor
        · exact hrange.oracle.valid_le.trans_eq hconfigs.length_eq.symm
        · exact hconfigs.removable hrange.oracle.removable
      · intro oracle hgen
        exact .ok (.generated hnew hrefreshed hconfig hstate hconfigs hchamp hgen)

/-! ## Learning -/

/-- Only estimators and weights have changed: the own estimator of each slot by the
    first number of updates, that for the champion by the second one. -/
structure Learned (own other : Nat → Nat) (m m' : InteractionConfigManager S V) : Prop where
  eq : ∃ data estimators, m' = { m with weights := { m.weights with data }, estimators }
  length_eq : m'.estimators.length = m.estimators.length
  slots : ∀ j slot, m.estimators[j]? = some slot → ∃ e e',
    m'.estimators[j]? = some ({ slot.1 with _estimator := e }, e') ∧
    S.estimator.update_count e = S.estimator.update_count slot.1._estimator + own j ∧
    S.estimator.update_count e' = S.estimator.update_count slot.2 + other j

theorem Learned.refl (m : InteractionConfigManager S V) : Learned (fun _ => 0) (fun _ => 0) m m where
  eq := ⟨_, _, rfl⟩
  length_eq := rfl
  slots _ slot hslot := ⟨slot.1._estimator, slot.2, hslot, rfl, rfl⟩

theorem Learned.trans {own other own' other' : Nat → Nat} {m₁ m₂ : InteractionConfigManager S V}
    (h : Learned own other m m₁) (h' : Learned own' other' m₁ m₂) :
    Learned (fun j => own j + own' j) (fun j => other j + other' j) m m₂ where
  eq := by
    obtain ⟨_, _, rfl⟩ := h.eq
    obtain ⟨data, estimators, rfl⟩ := h'.eq
    exact ⟨data, estimators, rfl⟩
  length_eq := h'.length_eq.trans h.length_eq
  slots j slot hslot := by
    obtain ⟨e₁, e₁', hget₁, hown₁, hother₁⟩ := h.slots j slot hslot
    obtain ⟨e, e', hget, hown, hother⟩ := h'.slots j _ hget₁
    exact ⟨e, e', hget, by rw [hown, hown₁, Nat.add_assoc], by rw [hother, hother₁, Nat.add_assoc]⟩

theorem Learned.congr {own other own' other' : Nat → Nat} {m' : InteractionConfigManager S V}
    (h : Learned own other m m') (hown : ∀ j < m.estimators.length, own j = own' j)
    (hother : ∀ j < m.estimators.length, other j = other' j) : Learned own' other' m m' where
  eq := h.eq
  length_eq := h.length_eq
  slots j slot hslot := by
    have hlt := (List.getElem?_eq_some_iff.mp hslot).1
    rw [← hown j hlt, ← hother j hlt]
    exact h.slots j slot hslot

/-- Learning changes the weights only. -/
theorem do_learning_safe {live_slot : Nat} (base : Learner V)
    (hlt : live_slot < m.estimators.length) :
    Safe (m.do_learning base live_slot) fun r =>
      ∃ data, r.2 = { m with weights := { m.weights with data } } := by
  unfold do_learning
  apply (nth_safe hlt).bind
  intro slot _
  exact .ok ⟨_, rfl⟩

/-- An update of the estimators of one slot. -/
theorem Learned.update {i : Nat} {slot : LiveSlot E} {e e' : E}
    {own other : Nat} (hslot : m.estimators[i]? = some slot)
    (hown : S.estimator.update_count e = S.estimator.update_count slot.1._estimator + own)
    (hother : S.estimator.update_count e' = S.estimator.update_count slot.2 + other) :
    Learned (fun j => if j = i then own else 0) (fun j => if j = i then other else 0) m
      { m with estimators := m.estimators.set i ({ slot.1 with _estimator := e }, e') } where
  eq := ⟨m.weights.data, _, rfl⟩
  length_eq := length_set
  slots j slot' hslot' := by
    by_cases hj : j = i
    · subst hj
      obtain rfl : slot' = slot := Option.some.inj (hslot'.symm.trans hslot)
      refine ⟨e, e', getElem?_set_self (List.getElem?_eq_some_iff.mp hslot).1, ?_, ?_⟩
      · rw [if_pos rfl, hown]
      · rw [if_pos rfl, hother]
    · refine ⟨slot'.1._estimator, slot'.2, (getElem?_set_ne (Ne.symm hj)).trans hslot', ?_, ?_⟩
      · rw [if_neg hj, Nat.add_zero]
      · rw [if_neg hj, Nat.add_zero]

theorem Learned.weights (m : InteractionConfigManager S V) (data : Nat → V) :
    Learned (fun _ => 0) (fun _ => 0) m { m with weights := { m.weights with data } } where
  eq := ⟨data, m.estimators, rfl⟩
  length_eq := rfl
  slots _ slot hslot := ⟨slot.1._estimator, slot.2, hslot, rfl, rfl⟩

/-- The slots that the first loop has visited after `n` rounds. -/
def learned_slots (reverse : Bool) (size n j : Nat) : Nat :=
  if reverse then (if size - n ≤ j ∧ j < size then 1 else 0) else if 1 ≤ j ∧ j ≤ n then 1 else 0

theorem learned_slots_succ {reverse : Bool} {size n : Nat} (hn : n < size - 1) (j : Nat) :
    learned_slots reverse size n j +
        (if j = (if reverse then size - (n + 1) else n + 1) then 1 else 0) =
      learned_slots reverse size (n + 1) j := by
  unfold learned_slots
  cases reverse with
  | false =>
    simp only [Bool.false_eq_true, if_false]
    split_ifs <;> omega
  | true =>
    simp only [if_true]
    split_ifs <;> omega

/-- After an example each challenger and the champion in its pair have one more update. -/
theorem offset_learn_safe (base : Learner V) (logged : CbClass)
    (labelled_action : Nat) (reverse : Bool) (hsize : m.estimators ≠ []) :
    Safe (m.offset_learn base logged labelled_action reverse)
      (Learned (fun j => if j = 0 then 0 else 1) (fun j => if j = 0 then 0 else 1) m) := by
  unfold offset_learn
  dsimp only
  have hpos : 0 < m.estimators.length := length_pos_of_ne_nil hsize
  generalize (if logged.probability > 0 then 1 / logged.probability else 0 : ℚ) = w
  generalize (if S.reward_as_cost = true then logged.cost else -logged.cost) = r
  -- the challengers
  let Q : Nat → InteractionConfigManager S V → Prop := fun n m' =>
    Learned (learned_slots reverse m.estimators.length n) (fun _ => 0) m m'
  have hstart : Q 0 m := by
    apply (Learned.refl m).congr
    · intro j hj
      unfold learned_slots
      split_ifs <;> omega
    · exact fun _ _ => rfl
  refine .bind (foldlM_range_safe Q hstart ?_) ?_
  · intro i hi m₁ h₁
    have hlt : (if reverse then m.estimators.length - (i + 1) else i + 1) < m₁.estimators.length := by
      rw [h₁.length_eq]
      split <;> omega
    have hround := @learned_slots_succ reverse _ _ hi
    generalize (if reverse then m.estimators.length - (i + 1) else i + 1) = live_slot at hlt hround
    apply (do_learning_safe base hlt).bind
    rintro ⟨action, _⟩ ⟨data, rfl⟩
    apply (update_nth_safe _ hlt).bind
    rintro _ ⟨slot, hslot, rfl⟩
    have hupdate := Learned.update (m := { m₁ with weights := { m₁.weights with data } }) hslot
      (S.estimator.update_count_update slot.1._estimator (if action = labelled_action then w else 0) r)
      (Nat.add_zero _).symm
    refine .ok (((h₁.trans (.weights m₁ data)).trans hupdate).congr ?_ ?_)
    · intro j _
      rw [Nat.add_zero, hround]
    · intro j _
      split <;> rfl
  · intro m₁ h₁
    have hpos₁ : 0 < m₁.estimators.length := h₁.length_eq.symm ▸ hpos
    apply (do_learning_safe base hpos₁).bind
    rintro ⟨action, _⟩ ⟨data, rfl⟩
    have h₂ := h₁.trans (.weights m₁ data)
    generalize ({ m₁ with weights := { m₁.weights with data } } : InteractionConfigManager S V) = m₂ at h₂
    -- the champion in each pair
    let Q' : Nat → InteractionConfigManager S V → Prop := fun n m' =>
      Learned (fun _ => 0) (fun j => if 1 ≤ j ∧ j ≤ n then 1 else 0) m₂ m'
    have hstart' : Q' 0 m₂ := by
      apply (Learned.refl m₂).congr (fun _ _ => rfl)
      intro j hj
      split_ifs <;> omega
    refine .mono (foldlM_range_safe Q' hstart' ?_) ?_
    · intro i hi m₃ h₃
      have hlt : i + 1 < m₃.estimators.length := by
        rw [h₃.length_eq, h₂.length_eq]
        omega
      apply (update_nth_safe _ hlt).bind
      rintro _ ⟨slot, hslot, rfl⟩
      have hupdate := Learned.update hslot (Nat.add_zero _).symm
        (S.estimator.update_count_update slot.2 (if action = labelled_action then w else 0) r)
      refine .ok ((h₃.trans hupdate).congr ?_ ?_)
      · intro j _
        split <;> rfl
      · intro j _
        split_ifs <;> omega
    · intro m' h'
      apply (h₂.trans h').congr
      · intro j hj
        unfold learned_slots
        split_ifs <;> omega
      · intro j hj
        split_ifs <;> omega

end InteractionConfigManager

end VW.AutoML
