import VowpalWabbit.AutoML.Oracle

/-! # What the oracles do to the table

    `insert_config` does one of three things, and `gen_configs` is a sequence of
    them: the valid configurations stay, new ones follow, and these are what
    joins the queue.
-/

open Cpp

namespace VW.AutoML

open List Outcome Nat

variable {P R : Type} {S : Settings P R}

/-! ## Sets -/

theorem Removable.empty : Removable .empty := by
  intro x hx
  cases hx

theorem Removable.insert_if {new_elements : SetNsList} (h : Removable new_elements)
    (interaction : List NamespaceIndex) :
    Safe (insert_if_is_allowed_to_remove new_elements interaction) Removable := by
  unfold insert_if_is_allowed_to_remove
  split
  case isFalse => exact .throw_ _
  case isTrue hlength =>
    split
    case isFalse => exact .ok h
    case isTrue hall =>
      apply Safe.ok
      intro x hx
      rcases (LinearComparator.mem_insert_iff _ _ _).mp hx with rfl | hx
      · exact ⟨hlength, hall⟩
      · exact h x hx

theorem Removable.erase {elements : SetNsList} (h : Removable elements) (x : List NamespaceIndex) :
    Removable (elements.erase x) := by
  intro y hy
  exact h y ((LinearComparator.mem_erase_iff _ _ _).mp hy).1

theorem gen_ns_groupings_at_safe {all_interactions : InteractionVec} {num : Nat}
    {copy_champ : SetNsList} (hnum : num < all_interactions.length) (h : Removable copy_champ) :
    Safe (gen_ns_groupings_at all_interactions num copy_champ) Removable := by
  unfold gen_ns_groupings_at
  apply (nth_safe hnum).bind
  intro interaction _
  split
  case isTrue => exact h.insert_if interaction
  case isFalse => exact .ok (h.erase interaction)

theorem one_diff_gen_ns_groupings_at_safe (champ_interactions : InteractionVec) (num : Nat)
    (exclusion : List (List NamespaceIndex)) {new_elements : SetNsList} (h : Removable new_elements) :
    Safe (one_diff_gen_ns_groupings_at champ_interactions num exclusion new_elements)
      fun r => Removable r.2 := by
  unfold one_diff_gen_ns_groupings_at
  split
  case h_1 interaction _ =>
    apply (h.insert_if interaction).bind
    intro elements helements
    exact .ok helements
  case h_2 =>
    split
    case h_1 => exact .ok h
    case h_2 x _ => exact .ok (h.erase x)

namespace ConfigOracle

/-! ## Inserting -/

/-- What the oracles rely on. -/
structure WellFormed (o : ConfigOracle S) : Prop where
  valid_le : o.valid_config_size ≤ o.configs.length
  removable : ∀ config ∈ o.configs, Removable config.elements

/-- The table after stale elements were moved from `i`. -/
def reused_configs (o : ConfigOracle S) (i : Nat) (stale : NsBasedConfig) (conf_type : ConfigType) :
    List NsBasedConfig :=
  (o.configs.set i { stale with elements := .empty }).set o.valid_config_size
    (.reset (if i = o.valid_config_size then .empty else stale.elements) S.default_lease conf_type)

/-- The table is `configs`, and the configuration at `valid_config_size` has joined the queue. -/
structure Queued (o : ConfigOracle S) (configs : List NsBasedConfig) (o' : ConfigOracle S) : Prop where
  configs_eq : o'.configs = configs
  valid_eq : o'.valid_config_size = o.valid_config_size + 1
  queue_perm : (o'.index_queue.popped.map Prod.snd).Perm
    (o.valid_config_size :: o.index_queue.popped.map Prod.snd)
  total_space_eq : o'.total_space = o.total_space

/-- The three things that `insert_config` can do. -/
inductive Inserted (o : ConfigOracle S) (new_elements : SetNsList) (conf_type : ConfigType)
    (allow_dups : Bool) : Bool → ConfigOracle S → Prop where
  /-- A valid configuration has the elements. -/
  | duplicate {i : Nat} (hdups : allow_dups = false) (hfind : o.find_config new_elements = some i)
      (hvalid : i < o.valid_config_size) : Inserted o new_elements conf_type allow_dups false o
  /-- A stale one has; its elements are moved. -/
  | reused {i : Nat} {stale : NsBasedConfig} {o' : ConfigOracle S} (hdups : allow_dups = false)
      (hfind : o.find_config new_elements = some i) (hvalid : o.valid_config_size ≤ i)
      (hstale : o.configs[i]? = some stale)
      (h : Queued o (o.reused_configs i stale conf_type) o') : Inserted o new_elements conf_type allow_dups true o'
  /-- None has. -/
  | stored {o' : ConfigOracle S} (hnone : allow_dups = false → o.find_config new_elements = none)
      (h : Queued o (o.store_config new_elements conf_type).configs o') :
      Inserted o new_elements conf_type allow_dups true o'

variable {o : ConfigOracle S} {new_elements : SetNsList} {i n : Nat}

theorem queue_config_safe (ns_counter : NsCounter)
    (hvalid : o.valid_config_size < o.configs.length)
    (hremovable : ∀ config ∈ o.configs, Removable config.elements) :
    Safe (o.queue_config ns_counter) fun r => r.1 = true ∧ Queued o o.configs r.2 := by
  unfold queue_config
  apply (nth_safe hvalid).bind
  intro config hconfig
  apply (S.calc_priority_safe config ns_counter
    (hremovable config (mem_of_getElem? hconfig))).bind
  intro priority _
  refine .ok ⟨rfl, rfl, rfl, ?_, rfl⟩
  exact ((PriorityQueue.stable_push S.queue_order).perm _ _).map Prod.snd

/-- A table in which one place has other elements. -/
theorem removable_set {configs : List NsBasedConfig}
    (h : ∀ config ∈ configs, Removable config.elements) {config : NsBasedConfig}
    (hconfig : Removable config.elements) (i : Nat) :
    ∀ c ∈ configs.set i config, Removable c.elements := by
  intro c hc
  rcases mem_or_eq_of_mem_set hc with hc | rfl
  · exact h c hc
  · exact hconfig

theorem store_config_spec (conf_type : ConfigType)
    (h : o.WellFormed) (hnew : Removable new_elements) :
    o.valid_config_size < (o.store_config new_elements conf_type).configs.length ∧
      ∀ config ∈ (o.store_config new_elements conf_type).configs, Removable config.elements := by
  unfold store_config
  split
  case isTrue hlt => exact ⟨by rwa [length_set], removable_set h.removable hnew _⟩
  case isFalse =>
    constructor
    · rw [length_append]
      exact lt_succ_of_le h.valid_le
    · intro config hconfig
      rcases mem_append.mp hconfig with hconfig | hconfig
      · exact h.removable config hconfig
      · rw [mem_singleton.mp hconfig]
        exact hnew

theorem find_config_lt
    (h : o.find_config new_elements = some i) : i < o.configs.length := by
  obtain ⟨hlt, _⟩ := findIdx?_eq_some_iff_getElem.mp h
  exact hlt

theorem removable_reused_configs {stale : NsBasedConfig}
    (conf_type : ConfigType) (h : o.WellFormed) (hstale : o.configs[i]? = some stale) :
    ∀ config ∈ o.reused_configs i stale conf_type, Removable config.elements := by
  apply removable_set
  · exact removable_set h.removable Removable.empty i
  · show Removable (if i = o.valid_config_size then .empty else stale.elements)
    split
    · exact Removable.empty
    · exact h.removable stale (mem_of_getElem? hstale)

theorem reuse_config_safe (conf_type : ConfigType) (h : o.WellFormed)
    (hvalid : o.valid_config_size ≤ i) (hi : i < o.configs.length) :
    Safe (o.reuse_config i conf_type) fun o' => ∃ stale, o.configs[i]? = some stale ∧
      o' = { o with configs := o.reused_configs i stale conf_type } ∧
      ∀ config ∈ o'.configs, Removable config.elements := by
  unfold reuse_config
  apply (nth_safe hi).bind
  intro stale hstale
  have hlt : o.valid_config_size < (o.configs.set i { stale with elements := .empty }).length := by
    rw [length_set]
    exact hvalid.trans_lt hi
  apply (update_nth_safe _ hlt).bind
  rintro configs ⟨_, _, rfl⟩
  exact .ok ⟨stale, hstale, rfl, removable_reused_configs conf_type h hstale⟩

theorem insert_config_safe (ns_counter : NsCounter)
    (conf_type : ConfigType) (allow_dups : Bool) (h : o.WellFormed) (hnew : Removable new_elements) :
    Safe (o.insert_config new_elements ns_counter conf_type allow_dups) fun r =>
      Inserted o new_elements conf_type allow_dups r.1 r.2 := by
  unfold insert_config
  split
  case h_1 i hfind =>
    have hdups : allow_dups = false := by
      by_contra hdups
      rw [if_pos (by simpa using hdups)] at hfind
      cases hfind
    subst hdups
    have hi := find_config_lt hfind
    split
    case isTrue hvalid => exact .ok (.duplicate rfl hfind hvalid)
    case isFalse hvalid =>
      have hle := Nat.le_of_not_lt hvalid
      apply (reuse_config_safe conf_type h hle hi).bind
      rintro _ ⟨stale, hstale, rfl, hremovable⟩
      have hlt : o.valid_config_size < (o.reused_configs i stale conf_type).length := by
        unfold reused_configs
        rw [length_set, length_set]
        exact hle.trans_lt hi
      apply (queue_config_safe ns_counter hlt hremovable).mono
      rintro ⟨_, o'⟩ ⟨rfl, hqueued⟩
      exact .reused rfl hfind hle hstale ⟨hqueued.1, hqueued.2, hqueued.3, hqueued.4⟩
  case h_2 hnone =>
    obtain ⟨hlt, hremovable⟩ := store_config_spec conf_type h hnew
    apply (queue_config_safe ns_counter hlt hremovable).mono
    rintro ⟨_, o'⟩ ⟨rfl, hqueued⟩
    refine .stored ?_ ⟨hqueued.1, hqueued.2, hqueued.3, hqueued.4⟩
    rintro rfl
    exact hnone

/-! ## Sequences of insertions -/

/-- At most `n` new configurations have come behind the valid ones. -/
structure Generated (n : Nat) (o o' : ConfigOracle S) : Prop where
  well_formed : o'.WellFormed
  valid_le : o.valid_config_size ≤ o'.valid_config_size
  valid_add : o'.valid_config_size ≤ o.valid_config_size + n
  length_le : o.configs.length ≤ o'.configs.length
  length_max : o'.configs.length ≤ max o.configs.length o'.valid_config_size
  kept : ∀ i < o.valid_config_size, o'.configs[i]? = o.configs[i]?
  fresh : ∀ i, o.valid_config_size ≤ i → i < o'.valid_config_size →
    ∃ config, o'.configs[i]? = some config ∧ config.state = .New
  queue_perm : (o'.index_queue.popped.map Prod.snd).Perm
    (range' o.valid_config_size (o'.valid_config_size - o.valid_config_size) ++
      o.index_queue.popped.map Prod.snd)
  total_space_eq : o'.total_space = o.total_space

theorem Generated.refl (h : o.WellFormed) : Generated 0 o o where
  well_formed := h
  valid_le := le_refl _
  valid_add := le_refl _
  length_le := le_refl _
  length_max := le_max_left _ _
  kept _ _ := rfl
  fresh _ hle hlt := absurd hlt (not_lt.mpr hle)
  queue_perm := by rw [Nat.sub_self]; exact List.Perm.refl _
  total_space_eq := rfl

theorem Generated.trans {m : Nat} {o₁ o₂ : ConfigOracle S} (h : Generated m o o₁)
    (h' : Generated n o₁ o₂) : Generated (m + n) o o₂ where
  well_formed := h'.well_formed
  valid_le := h.valid_le.trans h'.valid_le
  valid_add := by
    have := h.valid_add
    have := h'.valid_add
    omega
  length_le := h.length_le.trans h'.length_le
  length_max := by
    have := h.length_max
    have := h'.length_max
    have := h'.valid_le
    omega
  kept i hi := (h'.kept i (hi.trans_le h.valid_le)).trans (h.kept i hi)
  fresh i hle hlt := by
    by_cases hi : i < o₁.valid_config_size
    · rw [h'.kept i hi]
      exact h.fresh i hle hi
    · exact h'.fresh i (Nat.le_of_not_lt hi) hlt
  queue_perm := by
    have hle := h.valid_le
    have hle' := h'.valid_le
    have hsplit := @range'_append o.valid_config_size
      (o₁.valid_config_size - o.valid_config_size) (o₂.valid_config_size - o₁.valid_config_size) 1
    rw [Nat.one_mul, Nat.add_sub_cancel' hle,
      show o₁.valid_config_size - o.valid_config_size + (o₂.valid_config_size - o₁.valid_config_size)
        = o₂.valid_config_size - o.valid_config_size by omega] at hsplit
    refine h'.queue_perm.trans ((List.Perm.append_left _ h.queue_perm).trans ?_)
    rw [← hsplit, ← append_assoc]
    exact List.Perm.append_right _ perm_append_comm
  total_space_eq := h'.total_space_eq.trans h.total_space_eq

variable {o' : ConfigOracle S}

theorem Generated.mono {m : Nat} (h : Generated m o o') (hle : m ≤ n) : Generated n o o' :=
  { h with valid_add := h.valid_add.trans (Nat.add_le_add_left hle _) }

/-- One configuration has come, in a table whose other valid places are as they were. -/
theorem Queued.generated {o o' : ConfigOracle S} {configs : List NsBasedConfig}
    {config : NsBasedConfig} (h : Queued o configs o')
    (hremovable : ∀ config ∈ configs, Removable config.elements)
    (hlength : o.configs.length ≤ configs.length)
    (hmax : configs.length ≤ max o.configs.length (o.valid_config_size + 1))
    (hkept : ∀ i < o.valid_config_size, configs[i]? = o.configs[i]?)
    (hnew : configs[o.valid_config_size]? = some config) (hstate : config.state = .New) :
    Generated 1 o o' where
  well_formed := by
    constructor
    · rw [h.valid_eq, h.configs_eq]
      exact (List.getElem?_eq_some_iff.mp hnew).1
    · rwa [h.configs_eq]
  valid_le := by rw [h.valid_eq]; exact le_succ _
  valid_add := h.valid_eq.le
  length_le := by rwa [h.configs_eq]
  length_max := by rwa [h.configs_eq, h.valid_eq]
  kept := by rwa [h.configs_eq]
  fresh i hle hlt := by
    rw [h.valid_eq] at hlt
    obtain rfl : i = o.valid_config_size := by omega
    rw [h.configs_eq]
    exact ⟨config, hnew, hstate⟩
  queue_perm := by
    rw [h.valid_eq, Nat.add_sub_cancel_left]
    exact h.queue_perm
  total_space_eq := h.total_space_eq

theorem Inserted.generated {o o' : ConfigOracle S} {new_elements : SetNsList}
    {conf_type : ConfigType} {allow_dups inserted : Bool} (h : o.WellFormed)
    (hnew : Removable new_elements) (hins : Inserted o new_elements conf_type allow_dups inserted o') :
    Generated 1 o o' := by
  cases hins with
  | duplicate => exact (Generated.refl h).mono (zero_le 1)
  | @reused i stale _ hdups hfind hvalid hstale hqueued =>
    have hlength : (o.reused_configs i stale conf_type).length = o.configs.length := by
      unfold reused_configs
      rw [length_set, length_set]
    refine hqueued.generated (removable_reused_configs conf_type h hstale) hlength.ge
      (hlength.le.trans (le_max_left _ _)) ?_ (getElem?_set_self ?_) rfl
    · intro j hj
      unfold reused_configs
      rw [getElem?_set_ne hj.ne', getElem?_set_ne (hj.trans_le hvalid).ne']
    · rw [length_set]
      exact hvalid.trans_lt (find_config_lt hfind)
  | stored hnone hqueued =>
    obtain ⟨hlt, hremovable⟩ := store_config_spec conf_type h hnew
    have hle := h.valid_le
    by_cases hstale : o.valid_config_size < o.configs.length
    · have hconfigs : (o.store_config new_elements conf_type).configs =
          o.configs.set o.valid_config_size (.reset new_elements S.default_lease conf_type) :=
        if_pos hstale
      rw [hconfigs] at hqueued hlt hremovable
      refine hqueued.generated hremovable (by rw [length_set]) (by rw [length_set]; omega)
        ?_ (getElem?_set_self hstale) rfl
      intro j hj
      exact getElem?_set_ne hj.ne'
    · have hconfigs : (o.store_config new_elements conf_type).configs =
          o.configs ++ [.reset new_elements S.default_lease conf_type] := if_neg hstale
      have hvalid : o.valid_config_size = o.configs.length := by omega
      rw [hconfigs] at hqueued hlt hremovable
      refine hqueued.generated hremovable (by simp) (by simp [hvalid]) ?_
        (by rw [hvalid]; exact getElem?_concat_length) rfl
      intro j hj
      exact getElem?_append_left (hvalid ▸ hj)

/-- A loop in which each round inserts at most one configuration. -/
theorem foldlM_generated {T A : Type} (oracle : T → ConfigOracle S) {body : T → A → Outcome T}
    {l : List A} {t : T} (h : (oracle t).WellFormed)
    (hstep : ∀ a ∈ l, ∀ k t₁, Generated k (oracle t) (oracle t₁) →
      Safe (body t₁ a) fun t₂ => Generated 1 (oracle t₁) (oracle t₂)) :
    Safe (l.foldlM body t) fun t' => Generated l.length (oracle t) (oracle t') := by
  induction l generalizing t with
  | nil => exact .ok (Generated.refl h)
  | cons a l ih =>
    rw [foldlM_cons]
    apply (hstep a mem_cons_self 0 t (Generated.refl h)).bind
    intro t₁ h₁
    have hrest := ih h₁.well_formed fun b hb k t₂ h₂ =>
      hstep b (mem_cons_of_mem a hb) (1 + k) t₂ (h₁.trans h₂)
    apply hrest.mono
    intro t' h'
    exact (h₁.trans h').mono (by rw [length_cons]; omega)

/-- An insertion whose result is not looked at. -/
theorem insert_config_generated
    (ns_counter : NsCounter) (conf_type : ConfigType) (allow_dups : Bool) (h : o.WellFormed)
    (hnew : Removable new_elements) :
    Safe (o.insert_config new_elements ns_counter conf_type allow_dups) fun r =>
      Generated 1 o r.2 :=
  (insert_config_safe ns_counter conf_type allow_dups h hnew).mono fun _ hins => hins.generated h hnew

/-! ## The champion's elements -/

/-- The table while the champion's elements are out of it. -/
def without_champ (o : ConfigOracle S) (champ : NsBasedConfig) : ConfigOracle S :=
  { o with configs := o.configs.set 0 { champ with elements := .empty } }

/-- The table with the champion's elements back in it. -/
def with_champ (o : ConfigOracle S) (champ : NsBasedConfig) : ConfigOracle S :=
  { o with configs := o.configs.set 0 champ }

theorem take_champ_safe (hpos : 0 < o.configs.length) :
    Safe o.take_champ fun r => ∃ champ, o.configs[0]? = some champ ∧
      r = (champ.elements, o.without_champ champ) := by
  unfold take_champ
  apply (nth_safe hpos).bind
  intro champ hchamp
  exact .ok ⟨champ, hchamp, rfl⟩

theorem well_formed_without_champ (champ : NsBasedConfig) (h : o.WellFormed) :
    (o.without_champ champ).WellFormed where
  valid_le := by
    show _ ≤ (o.configs.set 0 _).length
    rw [length_set]
    exact h.valid_le
  removable := removable_set h.removable Removable.empty 0

variable {champ : NsBasedConfig}

/-- What was generated without the champion's elements was generated with them. -/
theorem restore_champ_safe (h : o.WellFormed) (hpos : 0 < o.valid_config_size)
    (hchamp : o.configs[0]? = some champ) (hgen : Generated n (o.without_champ champ) o') :
    Safe (o'.restore_champ champ.elements) fun r =>
      r = o'.with_champ champ ∧ Generated n o r := by
  have hpos' : 0 < o.configs.length := hpos.trans_le h.valid_le
  have hfirst : o'.configs[0]? = some { champ with elements := .empty } := by
    rw [hgen.kept 0 hpos]
    exact getElem?_set_self hpos'
  unfold restore_champ
  apply (update_nth_safe _ (List.getElem?_eq_some_iff.mp hfirst).1).bind
  rintro configs ⟨config, hconfig, rfl⟩
  obtain rfl : config = { champ with elements := .empty } := by
    rw [hfirst] at hconfig
    exact (Option.some.inj hconfig).symm
  refine .ok ⟨rfl, ?_⟩
  have hlength : (o.configs.set 0 { champ with elements := .empty }).length = o.configs.length :=
    length_set
  constructor
  · constructor
    · show _ ≤ (o'.configs.set 0 _).length
      rw [length_set]
      exact hgen.well_formed.valid_le
    · exact removable_set hgen.well_formed.removable (h.removable _ (mem_of_getElem? hchamp)) 0
  · exact hgen.valid_le
  · exact hgen.valid_add
  · show _ ≤ (o'.configs.set 0 _).length
    rw [length_set, ← hlength]
    exact hgen.length_le
  · show (o'.configs.set 0 _).length ≤ _
    rw [length_set, ← hlength]
    exact hgen.length_max
  · intro i hi
    cases i with
    | zero =>
      rw [hchamp]
      exact getElem?_set_self (List.getElem?_eq_some_iff.mp hfirst).1
    | succ i =>
      rw [getElem?_set_ne (succ_ne_zero i).symm, hgen.kept (i + 1) hi]
      exact getElem?_set_ne (succ_ne_zero i).symm
  · intro i hle hlt
    rw [getElem?_set_ne (hpos.trans_le hle).ne]
    exact hgen.fresh i hle hlt
  · exact hgen.queue_perm
  · exact hgen.total_space_eq

/-! ## The oracles -/

/-- The oracle with the space that it draws from. -/
def refreshed (o : ConfigOracle S) (ns_counter : NsCounter) : ConfigOracle S :=
  match S.oracle_type with
  | .rand | .qbase_cubic => o.update_total_space ns_counter
  | _ => o

theorem refreshed_eq (o : ConfigOracle S) (ns_counter : NsCounter) :
    (o.refreshed ns_counter).configs = o.configs ∧
    (o.refreshed ns_counter).valid_config_size = o.valid_config_size ∧
    (o.refreshed ns_counter).index_queue = o.index_queue := by
  unfold refreshed update_total_space
  split
  · split <;> exact ⟨rfl, rfl, rfl⟩
  · split <;> exact ⟨rfl, rfl, rfl⟩
  · exact ⟨rfl, rfl, rfl⟩

theorem well_formed_refreshed (h : o.WellFormed) (ns_counter : NsCounter) :
    (o.refreshed ns_counter).WellFormed := by
  obtain ⟨hconfigs, hvalid, _⟩ := o.refreshed_eq ns_counter
  constructor
  · rw [hconfigs, hvalid]
    exact h.valid_le
  · rw [hconfigs]
    exact h.removable

/-- The number of configurations that an oracle tries. -/
def candidates (o : ConfigOracle S) (champ_interactions : InteractionVec) (ns_counter : NsCounter) :
    Nat :=
  match S.oracle_type with
  | .one_diff =>
    champ_interactions.length + ((o.configs[0]?.map fun champ => champ.elements.elements.length).getD 0)
  | .one_diff_inclusion =>
    (if S.interaction_type = .quadratic then gen_quadratic_interactions ns_counter .empty
      else gen_cubic_interactions ns_counter .empty).length
  | .champdupe => if o.configs.length = 1 then 2 else 0
  | .rand | .qbase_cubic => 2 * (o.refreshed ns_counter).total_space.length

theorem gen_one_diff_safe (champ_interactions : InteractionVec) (ns_counter : NsCounter)
    (h : o.WellFormed) (hpos : 0 < o.valid_config_size) (hchamp : o.configs[0]? = some champ) :
    Safe (o.gen_one_diff champ_interactions ns_counter)
      (Generated (champ_interactions.length + champ.elements.elements.length) o) := by
  unfold gen_one_diff
  apply (take_champ_safe (hpos.trans_le h.valid_le)).bind
  rintro _ ⟨champ', hchamp', rfl⟩
  obtain rfl : champ' = champ := Option.some.inj (hchamp'.symm.trans hchamp)
  have hchamp_removable := h.removable _ (mem_of_getElem? hchamp)
  have hloop := @foldlM_generated _ _ S _ _ Prod.snd (fun t num => do
      let r ← one_diff_gen_ns_groupings_at champ_interactions num t.1 champ'.elements
      let r' ← insert_config t.2 r.2 ns_counter S.conf_type false
      return (r.1, r'.2)) (range (champ_interactions.length +
        champ'.elements.elements.length)) ((champ'.elements.elements, o.without_champ champ'))
        (well_formed_without_champ champ' h) (by
      intro num _ k t ht
      apply (one_diff_gen_ns_groupings_at_safe champ_interactions num t.1 hchamp_removable).bind
      intro r hr
      apply (insert_config_generated ns_counter S.conf_type false ht.well_formed hr).bind
      intro r' hr'
      exact .ok hr')
  rw [length_range] at hloop
  apply hloop.bind
  intro t ht
  exact (restore_champ_safe h hpos hchamp ht).mono fun r hr => hr.2

theorem gen_one_diff_inclusion_safe (ns_counter : NsCounter) (h : o.WellFormed)
    (hpos : 0 < o.valid_config_size) :
    Safe (o.gen_one_diff_inclusion ns_counter)
      (Generated (if S.interaction_type = .quadratic then gen_quadratic_interactions ns_counter .empty
        else gen_cubic_interactions ns_counter .empty).length o) := by
  unfold gen_one_diff_inclusion
  generalize (if S.interaction_type = .quadratic then gen_quadratic_interactions ns_counter .empty
    else gen_cubic_interactions ns_counter .empty) = all_interactions
  apply (take_champ_safe (hpos.trans_le h.valid_le)).bind
  rintro _ ⟨champ, hchamp, rfl⟩
  have hchamp_removable := h.removable _ (mem_of_getElem? hchamp)
  have hloop := @foldlM_generated _ _ S _ _ id (fun o num => do
      let copy_champ ← gen_ns_groupings_at all_interactions num champ.elements
      let r ← insert_config o copy_champ ns_counter S.conf_type false
      return r.2) (range all_interactions.length) (o.without_champ champ)
        (well_formed_without_champ champ h) (by
      intro num hnum k o₁ h₁
      apply (gen_ns_groupings_at_safe (mem_range.mp hnum) hchamp_removable).bind
      intro copy_champ hcopy
      apply (insert_config_generated ns_counter S.conf_type false h₁.well_formed hcopy).bind
      intro r hr
      exact .ok hr)
  rw [length_range] at hloop
  apply hloop.bind
  intro o₁ h₁
  exact (restore_champ_safe h hpos hchamp h₁).mono fun r hr => hr.2

/-- Without a check for duplicates the configuration is always new. -/
theorem insert_config_dups_safe
    (ns_counter : NsCounter) (conf_type : ConfigType) (h : o.WellFormed) (hnew : Removable new_elements) :
    Safe (o.insert_config new_elements ns_counter conf_type true) fun r =>
      Generated 1 o r.2 ∧ r.2.valid_config_size = o.valid_config_size + 1 := by
  apply (insert_config_safe ns_counter conf_type true h hnew).mono
  rintro ⟨inserted, o'⟩ hins
  refine ⟨hins.generated h hnew, ?_⟩
  cases hins with
  | duplicate hdups => cases hdups
  | reused hdups => cases hdups
  | stored _ hqueued => exact hqueued.valid_eq

/-- The first time there are two new configurations, and never again. -/
theorem gen_champdupe_safe (ns_counter : NsCounter) (h : o.WellFormed)
    (hpos : 0 < o.valid_config_size) :
    Safe (o.gen_champdupe ns_counter) fun o' =>
      Generated (if o.configs.length = 1 then 2 else 0) o o' ∧
      (o.configs.length = 1 → o'.valid_config_size = o.valid_config_size + 2) := by
  unfold gen_champdupe
  split
  case isFalse hne =>
    exact .ok ⟨Generated.refl h, fun h => absurd h hne⟩
  case isTrue =>
    let Q : Nat → ConfigOracle S → Prop := fun n o₁ =>
      Generated n o o₁ ∧ o₁.valid_config_size = o.valid_config_size + n
    refine .mono (foldlM_range_safe Q ⟨Generated.refl h, rfl⟩ ?_)
      fun _ hQ => ⟨hQ.1, fun _ => hQ.2⟩
    rintro current _ o₁ ⟨h₁, hvalid⟩
    have hpos₁ : 0 < o₁.configs.length := (hpos.trans_le h.valid_le).trans_le h₁.length_le
    apply (nth_safe hpos₁).bind
    intro champ hchamp
    have hremovable := h₁.well_formed.removable champ (mem_of_getElem? hchamp)
    split
    · apply (insert_config_dups_safe ns_counter _ h₁.well_formed hremovable).bind
      rintro r ⟨hr, hr_valid⟩
      exact .ok ⟨h₁.trans hr, by rw [hr_valid, hvalid, add_assoc]⟩
    · apply (insert_config_dups_safe ns_counter _ h₁.well_formed Removable.empty).bind
      rintro r ⟨hr, hr_valid⟩
      exact .ok ⟨h₁.trans hr, by rw [hr_valid, hvalid, add_assoc]⟩

/-- Every index is below the number of interactions. -/
theorem shuffled_indexes_safe (n : Nat) (random_state : R) :
    Safe (shuffled_indexes (S := S) n random_state) fun r =>
      r.1.length = n + n ∧ ∀ i ∈ r.1, i < n := by
  unfold shuffled_indexes
  have hstart : (replicate n 0 ++ range n).length = n + n ∧
      ∀ i ∈ replicate n 0 ++ range n, i < n := by
    constructor
    · simp
    · intro i hi
      rcases mem_append.mp hi with hi | hi
      · obtain ⟨hn, rfl⟩ := mem_replicate.mp hi
        omega
      · exact mem_range.mp hi
  apply foldlM_safe (fun t : List Nat × R => t.1.length = n + n ∧ ∀ i ∈ t.1, i < n) hstart
  rintro i hi ⟨indexes, random_state⟩ ⟨hlength, hlt⟩
  dsimp only at hlength hlt ⊢
  have hi := mem_range.mp hi
  have hj := S.random_index_lt random_state indexes.length (by omega)
  apply (swap_nth_safe hj (by omega)).bind
  rintro _ rfl
  refine .ok ⟨(length_swap_at _ _ _).trans hlength, ?_⟩
  intro k hk
  exact hlt k ((perm_swap_at _ _ _).mem_iff.mp hk)

theorem gen_random_safe (ns_counter : NsCounter) (h : o.WellFormed)
    (hpos : 0 < o.valid_config_size) (hspace : o.refreshed ns_counter = o.update_total_space ns_counter) :
    Safe (o.gen_random ns_counter)
      (Generated (2 * (o.refreshed ns_counter).total_space.length) (o.refreshed ns_counter)) := by
  unfold gen_random
  have hwell := well_formed_refreshed h ns_counter
  obtain ⟨_, hvalid, _⟩ := o.refreshed_eq ns_counter
  rw [← hspace]
  generalize o.refreshed ns_counter = o₁ at hwell hvalid
  apply (shuffled_indexes_safe o₁.total_space.length o₁.random_state).bind
  rintro ⟨indexes, random_state⟩ ⟨hlength, hlt⟩
  have hloop := @foldlM_generated _ _ _ _ _ id (fun o index => do
      let champ ← nth o.configs 0
      let copy_champ ← gen_ns_groupings_at o.total_space index champ.elements
      let r ← insert_config o copy_champ ns_counter S.conf_type false
      return r.2) indexes ({ o₁ with random_state }) ⟨hwell.1, hwell.2⟩ (by
    intro index hindex k o₂ h₂
    have hspace₂ : o₂.total_space = o₁.total_space := h₂.total_space_eq
    have hpos₂ : 0 < o₂.configs.length :=
      ((hpos.trans_eq hvalid.symm).trans_le hwell.valid_le).trans_le h₂.length_le
    apply (nth_safe hpos₂).bind
    intro champ hchamp
    have hindex₂ : index < o₂.total_space.length := by
      rw [hspace₂]
      exact hlt index hindex
    apply (gen_ns_groupings_at_safe hindex₂
      (h₂.well_formed.removable champ (mem_of_getElem? hchamp))).bind
    intro copy_champ hcopy
    apply (insert_config_generated ns_counter S.conf_type false h₂.well_formed hcopy).bind
    intro r hr
    exact .ok hr)
  apply hloop.mono
  intro o' h'
  rw [hlength, ← two_mul] at h'
  exact { h' with }

/-- What `gen_configs` leaves, whatever the oracle. -/
structure Produced (o : ConfigOracle S) (champ_interactions : InteractionVec) (ns_counter : NsCounter)
    (o' : ConfigOracle S) : Prop where
  generated : Generated (o.candidates champ_interactions ns_counter) (o.refreshed ns_counter) o'
  champdupe : S.oracle_type = .champdupe → o.configs.length = 1 →
    o'.valid_config_size = o.valid_config_size + 2

theorem gen_configs_safe (champ_interactions : InteractionVec)
    (ns_counter : NsCounter) (h : o.WellFormed) (hpos : 0 < o.valid_config_size) :
    Safe (o.gen_configs champ_interactions ns_counter)
      (o.Produced champ_interactions ns_counter) := by
  have hrandom : ∀ htype : S.oracle_type = .rand ∨ S.oracle_type = .qbase_cubic,
      Safe (o.gen_random ns_counter) (o.Produced champ_interactions ns_counter) := by
    intro htype
    have hrefreshed : o.refreshed ns_counter = o.update_total_space ns_counter := by
      unfold refreshed
      rcases htype with htype | htype <;> rw [htype]
    apply (gen_random_safe ns_counter h hpos hrefreshed).mono
    intro o' hgen
    constructor
    · unfold candidates
      rcases htype with htype | htype <;> rw [htype] <;> exact hgen
    · intro hdupe
      rcases htype with htype | htype <;> rw [htype] at hdupe <;> cases hdupe
  unfold gen_configs
  cases htype : S.oracle_type with
  | one_diff =>
    have hpos' : 0 < o.configs.length := hpos.trans_le h.valid_le
    apply (gen_one_diff_safe champ_interactions ns_counter h hpos
      (getElem?_eq_getElem hpos')).mono
    intro o' hgen
    constructor
    · unfold candidates refreshed
      rw [htype, getElem?_eq_getElem hpos']
      exact hgen
    · rw [htype]
      intro hdupe
      cases hdupe
  | rand => exact hrandom (Or.inl htype)
  | champdupe =>
    apply (gen_champdupe_safe ns_counter h hpos).mono
    rintro o' ⟨hgen, hvalid⟩
    constructor
    · unfold candidates refreshed
      rw [htype]
      exact hgen
    · exact fun _ => hvalid
  | one_diff_inclusion =>
    apply (gen_one_diff_inclusion_safe ns_counter h hpos).mono
    intro o' hgen
    constructor
    · unfold candidates refreshed
      rw [htype]
      exact hgen
    · rw [htype]
      intro hdupe
      cases hdupe
  | qbase_cubic => exact hrandom (Or.inr htype)

end ConfigOracle

end VW.AutoML
