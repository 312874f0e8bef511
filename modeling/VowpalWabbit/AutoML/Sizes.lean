import VowpalWabbit.AutoML.LiveInteractions

/-! # How large the containers of the manager become

    There are 256 namespaces, so that there are finitely many pairs and triples of
    them. This bounds the elements of a configuration, the interactions of a slot,
    and with them the table, whose valid part is cut back before it grows again.
-/

open Cpp VW.MultiModel

namespace VW.AutoML

open List

variable {P R E V : Type}

/-! ## Namespaces, pairs and triples -/

/-- A list of numbers below `n` without duplicates. -/
theorem length_le_of_lt {l : List Nat} {n : Nat} (hnodup : l.Nodup) (hlt : ∀ x ∈ l, x < n) :
    l.length ≤ n := by
  have hsub : l.Subperm (range n) := hnodup.subperm fun x hx => mem_range.mpr (hlt x hx)
  have hle := hsub.length_le
  rwa [length_range] at hle

theorem length_keys_le (ns_counter : NsCounter) : ns_counter.keys.length ≤ 256 := by
  have hnodup : ns_counter.keys.Nodup := LinearComparator.nodup_elements (c := namespace_order)
    ⟨ns_counter.keys, ns_counter.ascending⟩
  have hkeys : (ns_counter.keys.map BitVec.toNat).Nodup :=
    hnodup.map fun _ _ h => BitVec.eq_of_toNat_eq h
  rw [← length_map (f := BitVec.toNat)]
  apply length_le_of_lt hkeys
  intro x hx
  obtain ⟨ns, _, rfl⟩ := mem_map.mp hx
  exact ns.isLt

/-- The number of pairs and triples. -/
def MAX_ELEMENTS : Nat := 256 ^ 2 + 256 ^ 3

/-- The place of a pair or of a triple among all of them. -/
def element_code (x : List NamespaceIndex) : Nat :=
  of_le_bytes x + if x.length = 3 then 256 ^ 2 else 0

theorem element_code_lt {x : List NamespaceIndex} (h : x.length = 2 ∨ x.length = 3) :
    element_code x < MAX_ELEMENTS := by
  have hlt := of_le_bytes_lt x
  unfold element_code MAX_ELEMENTS
  rcases h with h | h
  · rw [h] at hlt
    rw [if_neg (by omega)]
    omega
  · rw [h] at hlt
    rw [if_pos h]
    omega

theorem element_code_injective {x y : List NamespaceIndex} (hx : x.length = 2 ∨ x.length = 3)
    (hy : y.length = 2 ∨ y.length = 3) (h : element_code x = element_code y) : x = y := by
  have hltx := of_le_bytes_lt x
  have hlty := of_le_bytes_lt y
  have hboth : x.length = y.length ∧ of_le_bytes x = of_le_bytes y := by
    unfold element_code at h
    -- codes of pairs are below those of triples
    rcases hx with hx | hx <;> rcases hy with hy | hy <;> rw [hx] at hltx <;> rw [hy] at hlty <;>
      simp only [hx, hy] at h ⊢ <;> simp at h ⊢ <;> omega
  rw [← le_bytes_of_le_bytes x, ← le_bytes_of_le_bytes y, hboth.1, hboth.2]

theorem Removable.length_le {elements : SetNsList} (h : Removable elements) :
    elements.elements.length ≤ MAX_ELEMENTS := by
  have hnodup : elements.elements.Nodup := LinearComparator.nodup_elements (c := namespace_order.lex) elements
  have hcodes : (elements.elements.map element_code).Nodup := by
    apply List.Nodup.map_on _ hnodup
    intro x hx y hy
    exact element_code_injective (h x hx).1 (h y hy).1
  rw [← length_map (f := element_code)]
  apply length_le_of_lt hcodes
  intro code hcode
  obtain ⟨x, hx, rfl⟩ := mem_map.mp hcode
  exact element_code_lt (h x hx).1

/-! ## Interactions -/

theorem length_for_suffixes {K T : Type} {body : K → List K → List T} {n b : Nat} {ks : List K}
    (hks : ks.length ≤ n) (hbody : ∀ k l, l.length ≤ n → (body k l).length ≤ b) :
    (for_suffixes body ks).length ≤ ks.length * b := by
  induction ks with
  | nil => exact Nat.zero_le _
  | cons k ks ih =>
    have hrest : ks.length ≤ n := by
      rw [length_cons] at hks
      omega
    have hk := hbody k (k :: ks) hks
    have hih := ih hrest
    rw [for_suffixes, length_append, length_cons, Nat.add_mul, Nat.one_mul]
    omega

theorem length_gen_quadratic_le (ns_counter : NsCounter) (exclusions : SetNsList) :
    (gen_quadratic_interactions ns_counter exclusions).length ≤ 256 ^ 2 := by
  have hkeys := length_keys_le ns_counter
  have hle := @length_for_suffixes _ _ (fun idx1 from1 =>
    (from1.map fun idx2 => [idx1, idx2]).filter fun idx => !exclusions.contains idx) 256 256 _ hkeys (by
    intro k l hl
    exact (length_filter_le _ _).trans (by rwa [length_map]))
  unfold gen_quadratic_interactions
  omega

theorem length_gen_cubic_le (ns_counter : NsCounter) (exclusions : SetNsList) :
    (gen_cubic_interactions ns_counter exclusions).length ≤ 256 ^ 3 := by
  have hkeys := length_keys_le ns_counter
  have hle := @length_for_suffixes _ _ (fun idx1 from1 =>
    for_suffixes (fun idx2 from2 =>
      (from2.map fun idx3 => [idx1, idx2, idx3]).filter fun idx => !exclusions.contains idx) from1)
    256 (256 ^ 2) _ hkeys (by
    intro k l hl
    have hinner := @length_for_suffixes _ _ (fun idx2 from2 =>
      (from2.map fun idx3 => [k, idx2, idx3]).filter fun idx => !exclusions.contains idx) 256 256 _ hl (by
      intro k' l' hl'
      exact (length_filter_le _ _).trans (by rwa [length_map]))
    omega)
  unfold gen_cubic_interactions
  omega

/-- The bound for the interactions of a slot. -/
def MAX_INTERACTIONS : Nat := 2 * (MAX_ELEMENTS + 256 ^ 2) + 256

theorem length_interactions_le {ccb_on : Bool} {ns_counter : NsCounter}
    {interaction_type : InteractionType} {config : NsBasedConfig} {interactions : InteractionVec}
    (h : Removable config.elements)
    (happly : apply_config_to_interactions ccb_on ns_counter interaction_type config = .ok interactions) :
    interactions.length ≤ MAX_INTERACTIONS := by
  have hkeys := length_keys_le ns_counter
  have helements := h.length_le
  unfold apply_config_to_interactions at happly
  obtain ⟨l, hconfig, hsorted⟩ := Outcome.bind_eq_ok.mp happly
  have hl : l.length ≤ MAX_ELEMENTS + 256 ^ 2 := by
    have hquadratic := length_gen_quadratic_le ns_counter
    have hcubic := length_gen_cubic_le ns_counter config.elements
    unfold MAX_ELEMENTS at helements ⊢
    unfold config_interactions at hconfig
    split at hconfig
    · rw [← Except.ok.inj hconfig]
      exact (hquadratic _).trans (by omega)
    · rw [← Except.ok.inj hconfig]
      exact hcubic.trans (by omega)
    · cases hconfig
    · have hall := hquadratic .empty
      rw [← Except.ok.inj hconfig, length_append]
      omega
    · rw [← Except.ok.inj hconfig]
      omega
  have hccb : (if ccb_on then insert_ccb_interactions ns_counter l else l).length ≤
      2 * l.length + 256 := by
    split
    · unfold insert_ccb_interactions
      rw [length_append, length_append, length_map, length_map]
      omega
    · omega
  rw [← Except.ok.inj hsorted]
  unfold sort_interactions
  rw [length_insertionSort]
  exact hccb.trans (Nat.add_le_add_right (Nat.mul_le_mul_left 2 hl) 256)

/-! ## Sizes over whole runs -/

def MAX_TABLE : Nat := 2 + 2 ^ 26

theorem length_refreshed_le {S : Settings P R} {o : ConfigOracle S} (ns_counter : NsCounter)
    (hspace : o.total_space.length ≤ 256 ^ 3) :
    (o.refreshed ns_counter).total_space.length ≤ 256 ^ 3 := by
  have hquadratic := length_gen_quadratic_le ns_counter .empty
  have hcubic := length_gen_cubic_le ns_counter .empty
  have hupdated : (o.update_total_space ns_counter).total_space.length ≤ 256 ^ 3 := by
    unfold ConfigOracle.update_total_space
    split
    · dsimp only
      split
      · exact hquadratic.trans (by decide)
      · exact hcubic
      · exact hcubic
    · exact hspace
  unfold ConfigOracle.refreshed
  split
  · exact hupdated
  · exact hupdated
  · exact hspace

theorem candidates_le {S : Settings P R} {o : ConfigOracle S} {champ_interactions : InteractionVec}
    (ns_counter : NsCounter) (hremovable : ∀ config ∈ o.configs, Removable config.elements)
    (hspace : o.total_space.length ≤ 256 ^ 3) (hinteractions : champ_interactions.length ≤ MAX_INTERACTIONS) :
    o.candidates champ_interactions ns_counter ≤ 2 ^ 26 := by
  have hquadratic := length_gen_quadratic_le ns_counter .empty
  have hcubic := length_gen_cubic_le ns_counter .empty
  have hrefreshed := length_refreshed_le ns_counter hspace
  have hchamp : (o.configs[0]?.map fun champ => champ.elements.elements.length).getD 0 ≤ MAX_ELEMENTS := by
    cases hget : o.configs[0]? with
    | none => exact Nat.zero_le _
    | some champ => exact (hremovable champ (mem_of_getElem? hget)).length_le
  unfold MAX_INTERACTIONS MAX_ELEMENTS at *
  unfold ConfigOracle.candidates
  split
  · omega
  · split <;> omega
  · split <;> omega
  · omega
  · omega

namespace InteractionConfigManager

variable {S : ManagerSettings P R E}

/-- The sizes of what is saved. -/
structure Sized (m : InteractionConfigManager S V) : Prop where
  slots : m.estimators.length ≤ max 1 S.max_live_configs
  queue_nodup : m.queued.Nodup
  configs : m.configs.length ≤ MAX_TABLE
  space : m._config_oracle.total_space.length ≤ 256 ^ 3

variable {m m' : InteractionConfigManager S V}

theorem Touched.sized (ht : m.Touched m') (h : m.Sized) :
    m'.Sized := by
  have hslots := ht.length_eq
  have hlength := ht.configs_eq.length_eq
  obtain ⟨configs, estimators, rfl⟩ := ht.eq
  exact ⟨hslots ▸ h.slots, h.queue_nodup, hlength ▸ h.configs, h.space⟩

theorem Refilled.sized {filled : Bool}
    (hr : m.Refilled filled m') (h : m.Sized) : m'.Sized := by
  have hnodup := hr.nodup h.queue_nodup
  obtain ⟨queue, rfl⟩ := hr.eq
  exact ⟨h.slots, hnodup, h.configs, h.space⟩

theorem Applied.sized {live_slot config_index : Nat}
    {inactivated : Option Nat} (ha : m.Applied live_slot inactivated config_index m')
    (hlt : live_slot < S.max_live_configs) (h : m.Sized) : m'.Sized := by
  obtain ⟨slot, hput, _⟩ := ha.slots
  have hqueue := h.queue_nodup
  rw [ha.queue_eq] at hqueue
  have hlength := ha.configs_eq.length_eq
  have hspace : m'._config_oracle.total_space = m._config_oracle.total_space := by
    obtain ⟨_, _, _, _, rfl⟩ := ha.eq
    rfl
  refine ⟨?_, (nodup_cons.mp hqueue).2, hlength ▸ h.configs, hspace ▸ h.space⟩
  have hslots := h.slots
  rw [hput, length_put ha.size_le]
  omega

theorem SlotScheduled.sized {live_slot : Nat}
    (hs : m.SlotScheduled live_slot m') (hlt : live_slot < S.max_live_configs) (h : m.Sized) :
    m'.Sized := by
  cases hs with
  | touched _ ht => exact ht.sized h
  | empty ht hempty => exact hempty.sized (ht.sized h)
  | applied ht hfilled happlied _ _ => exact happlied.sized hlt (hfilled.sized (ht.sized h))

theorem Learned.sized {own other : Nat → Nat}
    (hl : Learned own other m m') (h : m.Sized) : m'.Sized := by
  have hslots := hl.length_eq
  obtain ⟨data, estimators, rfl⟩ := hl.eq
  exact ⟨hslots ▸ h.slots, h.queue_nodup, h.configs, h.space⟩

/-- The interactions of a slot, when they are those of its configuration. -/
theorem Follows.length_le {slot : LiveSlot E} (h : m.Follows slot)
    (hrange : m.InRange) : slot.1.live_interactions.length ≤ MAX_INTERACTIONS := by
  obtain ⟨config, hconfig, happly⟩ := h
  exact length_interactions_le (hrange.oracle.removable config (mem_of_getElem? hconfig)) happly

theorem Processed.sized {ec : List Example}
    (hp : m.Processed ec m') (hrunning : m.Running) (h : m.Sized) : m'.Sized := by
  have hnext := hrunning.processed hp
  cases hp with
  | known => exact ⟨h.slots, h.queue_nodup, h.configs, h.space⟩
  | refreshed _ hrefreshed _ _ =>
    have hslots := hrefreshed.length_eq
    obtain ⟨estimators, rfl⟩ := hrefreshed.eq
    exact ⟨hslots ▸ h.slots, h.queue_nodup, h.configs, h.space⟩
  | @generated m₁ configs config champ oracle hnew hrefreshed hconfig hstate hrestated hchamp hproduced =>
    have hrange := hrunning.in_range
    have hslots := hrefreshed.length_eq
    have hremovable := hrestated.removable hrange.oracle.removable
    -- only the first configuration is new while it is alone
    have hfresh : m.Fresh := by
      cases hrunning with
      | fresh h => exact h
      | lone h => exact absurd hstate (h.started _ hconfig)
      | searching h =>
        obtain ⟨slot, hslot, hindex, _⟩ := h.champ
        obtain ⟨config', hconfig', hlive⟩ := h.live 0
          (mem_map.mpr ⟨slot, mem_of_getElem? hslot, hindex⟩)
        obtain rfl := Option.some.inj (hconfig'.symm.trans hconfig)
        rw [hstate] at hlive
        cases hlive
    have hinvariant : Invariant { m₁ with _config_oracle := oracle } := by
      have hnext := hfresh.processed (.generated hnew hrefreshed hconfig hstate hrestated hchamp hproduced)
      rwa [if_pos hnew] at hnext
    have hrange₁ : m₁.InRange := hrefreshed.in_range ⟨hrange.1, hrange.2, hrange.3, hrange.4⟩
    have hinteractions :=
      (hrefreshed.follows champ (mem_of_getElem? hchamp)).length_le hrange₁
    have hcandidates := candidates_le (o := { m._config_oracle with configs }) m₁.ns_counter hremovable
      h.space hinteractions
    have hspace := length_refreshed_le (o := { m._config_oracle with configs }) m₁.ns_counter h.space
    obtain ⟨hconfigs_eq, hvalid_eq, _⟩ := ConfigOracle.refreshed_eq
      ({ m._config_oracle with configs } : ConfigOracle S.toSettings) m₁.ns_counter
    have hmax := hproduced.generated.length_max
    have hadd := hproduced.generated.valid_add
    rw [hconfigs_eq, hrestated.length_eq] at hmax
    have hvalid : m._config_oracle.valid_config_size = 1 := hfresh.valid
    rw [hvalid_eq, show ({ m._config_oracle with configs } : ConfigOracle _).valid_config_size = 1
      from hvalid] at hadd
    refine ⟨?_, hinvariant.queue_nodup, ?_, ?_⟩
    · exact (show m₁.estimators.length = _ from hslots) ▸ h.slots
    · have hconfigs := h.configs
      unfold MAX_TABLE at hconfigs ⊢
      show oracle.configs.length ≤ _
      omega
    · exact hproduced.generated.total_space_eq ▸ hspace

theorem Switched.sized {k : Nat} {champ old_champ : LiveSlot E}
    (hs : m.Switched k champ old_champ m') (hk : k ≠ 0) (hinv : m.Invariant) (hfollow : m.AllFollow)
    (h : m.Sized) : m'.Sized := by
  have hnext := hs.invariant hk hinv
  have hinteractions := (hfollow champ (mem_of_getElem? hs.champ_eq)).length_le hinv.range
  obtain ⟨o, hbest, hproduced⟩ := hs.oracle
  have hlength := hbest.length_eq
  have hremovable : ∀ config ∈ o.configs, Removable config.elements := by
    intro config hconfig
    obtain ⟨old, hold, helements⟩ := hbest.elements config hconfig
    rw [helements]
    exact hinv.range.oracle.removable old hold
  obtain ⟨configs, heq⟩ := hbest.eq
  have hspace_o : o.total_space.length ≤ 256 ^ 3 := by
    rw [heq]
    exact h.space
  have hcandidates := candidates_le m.ns_counter hremovable hspace_o hinteractions
  have hspace := length_refreshed_le m.ns_counter hspace_o
  obtain ⟨hconfigs_eq, hvalid_eq, _⟩ := o.refreshed_eq m.ns_counter
  have hmax := hproduced.generated.length_max
  have hadd := hproduced.generated.valid_add
  rw [hconfigs_eq] at hmax
  rw [hvalid_eq] at hadd
  refine ⟨hnext.size_le, hnext.queue_nodup, ?_, ?_⟩
  · have hconfigs := h.configs
    have hle : o.configs.length = m.configs.length := hlength
    have hvalid : m.valid ≤ m.configs.length := hinv.range.oracle.valid_le
    show m'._config_oracle.configs.length ≤ _
    by_cases hdupe : S.oracle_type = .champdupe
    · -- nothing is generated
      have hnone : o.candidates champ.1.live_interactions m.ns_counter = 0 := by
        have hthree := hinv.champdupe hdupe
        unfold ConfigOracle.candidates
        rw [hdupe]
        exact if_neg (by omega)
      have hvalid_o : o.valid_config_size = m.valid := by
        rw [heq, hdupe]
        rfl
      omega
    · have hvalid_o : o.valid_config_size = 2 := by
        rw [heq]
        exact if_neg hdupe
      unfold MAX_TABLE at hconfigs ⊢
      omega
  · exact hproduced.generated.total_space_eq ▸ hspace

theorem sized_initial (weights : DenseParameters V) (feature_width : Nat) (random_state : R) :
    (initial (S := S) weights feature_width random_state).Sized where
  slots := Nat.le_max_left _ _
  queue_nodup := nodup_nil
  configs := by
    show 1 ≤ 2 + 2 ^ 26
    omega
  space := Nat.zero_le _

theorem kept_sized : Kept fun m : InteractionConfigManager S V => m.AllFollow ∧ m.Sized where
  initial weights feature_width random_state :=
    ⟨all_follow_initial weights feature_width random_state,
      sized_initial weights feature_width random_state⟩
  count _ h := ⟨h.1, h.2.1, h.2.2, h.2.3, h.2.4⟩
  processed m m' ec hrunning hp h :=
    ⟨kept_all_follow.processed m m' ec hrunning hp h.1, hp.sized hrunning h.2⟩
  slot_scheduled m m' live_slot hrunning hlt hs h :=
    ⟨kept_all_follow.slot_scheduled m m' live_slot hrunning hlt hs h.1, hs.sized hlt h.2⟩
  learned m m' own other hl h := ⟨kept_all_follow.learned m m' own other hl h.1, hl.sized h.2⟩
  switching _ _ h := ⟨h.1, h.2.1, h.2.2, h.2.3, h.2.4⟩
  switched m m' k champ old_champ hk hinv hs h :=
    ⟨kept_all_follow.switched m m' k champ old_champ hk hinv hs h.1, hs.sized hk hinv h.1 h.2⟩

end InteractionConfigManager

end VW.AutoML
