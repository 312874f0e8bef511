import VowpalWabbit.Framework.Positions
import VowpalWabbit.Slates.Ccb
import VowpalWabbit.Slates.Reduction

/-! # The numberings of the slots

    The labels of the slots are translated with a pool for each slot, the positions of its
    actions among all actions. The numbers of the predictions are translated back by
    subtracting the number of actions that the slots before were given to rank. The second
    inverts the first exactly when the pools are consecutive blocks: when the slot ids of
    the actions do not decrease and every slot has an action.
-/

open Cpp Nat

namespace VW

open List Ccb Outcome

/-! ## What the CCB layer returns -/

variable {answers : List (List ActionScore)} {exclude_list : List Bool}

namespace Ccb

/-- After a slot its top action is excluded. -/
def exclude_top_action (exclude_list : List Bool) (answer : List ActionScore) : List Bool :=
  match answer with
  | [] => exclude_list
  | top :: _ => exclude_list.set top.action.toNat true

/-- For each slot a ranking of the actions that it can choose from. -/
inductive Ranked (n : Nat) : List Bool → List (List (BitVec 32)) → List (List ActionScore) → Prop where
  | nil {exclude_list : List Bool} : Ranked n exclude_list [] []
  | cons {exclude_list : List Bool} {explicit : List (BitVec 32)} {answer : List ActionScore}
      {explicits : List (List (BitVec 32))} {answers : List (List ActionScore)} :
      (answer.map (·.action.toNat)).Perm (available n explicit exclude_list) →
      Ranked n (exclude_top_action exclude_list answer) explicits answers →
      Ranked n exclude_list (explicit :: explicits) (answer :: answers)

theorem getD_foldl_set (n : Nat) (ids : List (BitVec 32)) (i : Nat) :
    ∀ {list : List Bool}, list.length = n →
      (ids.foldl (fun list id => if id.toNat < n then list.set id.toNat true else list) list).getD i false =
        (list.getD i false || decide (i < n ∧ ∃ id ∈ ids, id.toNat = i)) := by
  induction ids with
  | nil =>
    intro list _
    simp
  | cons id ids ih =>
    intro list hlength
    rw [foldl_cons, ih (by split <;> simp [hlength])]
    by_cases hid : id.toNat = i
    · by_cases hi : i < n
      · simp [hid, hi, hlength]
      · simp [hid, hi]
    · by_cases hid' : id.toNat < n
      · simp [hid, hid']
      · simp [hid, hid']

/-- The actions that a slot with a list of its own can choose from. -/
theorem selectable_included {n : Nat} {explicit : List (BitVec 32)} {i : Nat}
    (hexplicit : explicit ≠ []) (hi : i < n) :
    selectable (included n explicit) exclude_list i =
      (decide (∃ id ∈ explicit, id.toNat = i) && !exclude_list.getD i false) := by
  have hlength : ∀ (ids : List (BitVec 32)) (list : List Bool), list.length = n →
      (ids.foldl (fun list id => if id.toNat < n then list.set id.toNat true else list) list).length = n := by
    intro ids
    induction ids with
    | nil => exact fun _ h => h
    | cons id ids ih =>
      intro list h
      rw [foldl_cons]
      exact ih _ (by split <;> simp [h])
  have hempty : (included n explicit).isEmpty = false := by
    unfold included
    rw [if_neg hexplicit, ← Bool.not_eq_true, List.isEmpty_iff]
    intro h
    have := hlength explicit (replicate n false) length_replicate
    rw [h, length_nil] at this
    omega
  unfold selectable
  rw [hempty, Bool.false_or]
  unfold included
  rw [if_neg hexplicit, getD_foldl_set n explicit i length_replicate]
  simp [hi]

/-- Only actions of earlier slots are excluded, one for each. -/
theorem count_exclude_top_action (exclude_list : List Bool) (answer : List ActionScore) :
    (exclude_top_action exclude_list answer).count true ≤ exclude_list.count true + 1 := by
  cases answer with
  | nil => exact le_succ _
  | cons top answer =>
    unfold exclude_top_action
    dsimp only
    by_cases h : top.action.toNat < exclude_list.length
    · rw [count_set h]
      simp
    · rw [set_eq_of_length_le (Nat.not_lt.mp h)]
      exact le_succ _

theorem length_exclude_top_action (exclude_list : List Bool) (answer : List ActionScore) :
    (exclude_top_action exclude_list answer).length = exclude_list.length := by
  cases answer with
  | nil => rfl
  | cons top answer => exact length_set

/-- The ranking of slot `j` is made with at most `j` actions excluded. -/
theorem Ranked.at_slot {n : Nat} {explicits : List (List (BitVec 32))}
    (h : Ranked n exclude_list explicits answers) :
    ∀ {j : Nat} {explicit : List (BitVec 32)}, explicits[j]? = some explicit →
      ∃ answer exclude_list', answers[j]? = some answer ∧
        exclude_list'.length = exclude_list.length ∧
        exclude_list'.count true ≤ exclude_list.count true + j ∧
        (answer.map (·.action.toNat)).Perm (available n explicit exclude_list') := by
  induction h with
  | nil =>
    intro j explicit hj
    cases hj
  | @cons exclude_list explicit answer explicits answers hperm hrest ih =>
    intro j explicit' hj
    cases j with
    | zero =>
      cases hj
      exact ⟨answer, exclude_list, rfl, rfl, le_refl _, hperm⟩
    | succ j =>
      obtain ⟨answer', exclude_list', hanswer, hlength, hcount, hperm'⟩ := ih hj
      have hone := count_exclude_top_action exclude_list answer
      refine ⟨answer', exclude_list', hanswer, ?_, by omega, hperm'⟩
      rw [hlength, length_exclude_top_action]

/-- A slot without a list of its own can choose while there is an action that is not excluded. -/
theorem available_nil_ne_nil {n : Nat} (hlength : exclude_list.length = n)
    (hcount : exclude_list.count true < n) : available n [] exclude_list ≠ [] := by
  intro hnil
  apply Nat.ne_of_lt hcount
  rw [← hlength, count_eq_length]
  intro b hb
  obtain ⟨i, hi, rfl⟩ := getElem_of_mem hb
  rw [available, filter_eq_nil_iff] at hnil
  have hselectable := hnil i (mem_range.mpr (hlength ▸ hi))
  unfold selectable included at hselectable
  rw [if_pos rfl] at hselectable
  simpa [hi] using hselectable

end Ccb

namespace Slates

/-! ## The two translations -/

/-- Every number reported for a slot is the position that the action, which the base learner
    gave under its number among all actions, has among the actions of the slot. -/
def Inverted (slot_ids : List Nat) (answers reports : List (List ActionScore)) : Prop :=
  ∀ (j : Nat) (report : List ActionScore), reports[j]? = some report →
    ∀ (k : Nat) (reported : ActionScore), report[k]? = some reported →
      ∃ answer answered, answers[j]? = some answer ∧ answer[k]? = some answered ∧
        (positions slot_ids j)[reported.action.toNat]? = some answered.action.toNat

/-- The number of actions in the rankings of the slots before. -/
def size_before (answers : List (List ActionScore)) (j : Nat) : Nat :=
  ((answers.take j).map length).sum

theorem getElem?_to_slates_space (answers : List (List ActionScore)) :
    ∀ (size : Nat) (j : Nat), (to_slates_space (BitVec.ofNat 32 size) answers)[j]? =
      answers[j]?.map fun answer => answer.map fun action_score => { action_score with
        action := action_score.action - BitVec.ofNat 32 (size + size_before answers j) } := by
  induction answers with
  | nil => exact fun _ _ => rfl
  | cons answer answers ih =>
    intro size j
    rw [to_slates_space]
    cases j with
    | zero => rfl
    | succ j =>
      rw [getElem?_cons_succ, ← BitVec.ofNat_add, ih, getElem?_cons_succ]
      have hsize : size_before (answer :: answers) (j + 1) = answer.length + size_before answers j := by
        unfold size_before
        rw [take_succ_cons, map_cons, sum_cons]
      rw [hsize, add_assoc]

theorem inverted_iff {slot_ids : List Nat} :
    Inverted slot_ids answers (to_slates_space 0 answers) ↔
      ∀ (j : Nat) (answer : List ActionScore), answers[j]? = some answer → ∀ answered ∈ answer,
        (positions slot_ids j)[(answered.action - BitVec.ofNat 32 (size_before answers j)).toNat]? =
          some answered.action.toNat := by
  have hreports := getElem?_to_slates_space answers 0
  simp only [zero_add] at hreports
  unfold Inverted
  constructor
  · intro h j answer hanswer answered hmem
    obtain ⟨k, hk, rfl⟩ := getElem_of_mem hmem
    have hreport := hreports j
    rw [hanswer, Option.map_some] at hreport
    obtain ⟨answer', answered', hanswer', hanswered', hposition⟩ :=
      h j _ hreport k _ (by rw [getElem?_map, getElem?_eq_getElem hk, Option.map_some])
    rw [hanswer] at hanswer'
    cases hanswer'
    rw [getElem?_eq_getElem hk] at hanswered'
    cases hanswered'
    exact hposition
  · intro h j report hreport k reported hreported
    have hj := hreports j
    rw [show (0 : BitVec 32) = BitVec.ofNat 32 0 from rfl] at hreport
    rw [hj] at hreport
    obtain ⟨answer, hanswer, rfl⟩ := Option.map_eq_some_iff.mp hreport
    rw [getElem?_map] at hreported
    obtain ⟨answered, hanswered, rfl⟩ := Option.map_eq_some_iff.mp hreported
    exact ⟨answer, answered, hanswer, hanswered,
      h j answer hanswer answered (mem_of_getElem? hanswered)⟩

/-! ## The pools -/

section Pools

variable {slot_ids : List Nat}

/-- The pool of a slot, the numbers of its actions among all actions. -/
def pool (slot_ids : List Nat) (j : Nat) : List (BitVec 32) :=
  (positions slot_ids j).map (BitVec.ofNat 32)

theorem mem_pool (hbound : slot_ids.length ≤ 2 ^ 32) {i j : Nat} (hi : i < slot_ids.length) :
    (∃ id ∈ pool slot_ids j, id.toNat = i) ↔ i ∈ positions slot_ids j := by
  unfold pool
  constructor
  · rintro ⟨id, hid, rfl⟩
    obtain ⟨i, hmem, rfl⟩ := mem_map.mp hid
    have hlt := lt_of_mem_positions hmem
    rw [BitVec.toNat_ofNat, mod_eq_of_lt (by omega)]
    exact hmem
  · intro hmem
    refine ⟨BitVec.ofNat 32 i, mem_map_of_mem hmem, ?_⟩
    rw [BitVec.toNat_ofNat, mod_eq_of_lt (by omega)]

/-- A slot with actions of its own ranks them, when none of them is excluded. -/
theorem available_pool (hbound : slot_ids.length ≤ 2 ^ 32) {j : Nat} (hj : j ∈ slot_ids)
    (hexclude : ∀ i ∈ positions slot_ids j, exclude_list.getD i false = false) :
    (available slot_ids.length (pool slot_ids j) exclude_list).Perm (positions slot_ids j) := by
  have hpool : pool slot_ids j ≠ [] := by
    unfold pool
    rw [Ne, map_eq_nil_iff]
    exact positions_ne_nil.mpr hj
  unfold available
  rw [perm_ext_iff_of_nodup (nodup_range.filter _) (nodup_positions slot_ids j)]
  intro i
  rw [mem_filter, mem_range]
  constructor
  · rintro ⟨hi, hselectable⟩
    rw [selectable_included hpool hi, Bool.and_eq_true, decide_eq_true_eq, mem_pool hbound hi]
      at hselectable
    exact hselectable.1
  · intro hmem
    have hi := lt_of_mem_positions hmem
    refine ⟨hi, ?_⟩
    rw [selectable_included hpool hi, Bool.and_eq_true, decide_eq_true_eq, mem_pool hbound hi,
      hexclude i hmem]
    exact ⟨hmem, rfl⟩

/-- The base learner ranks the pools of the slots from the `first` one on. -/
theorem ranked_pools (hbound : slot_ids.length ≤ 2 ^ 32) {m : Nat} :
    ∀ {first : Nat} {exclude_list : List Bool} {answers : List (List ActionScore)},
      (∀ j, j < first + m → j ∈ slot_ids) →
      -- what is excluded belongs to earlier slots
      (∀ i, exclude_list.getD i false = true → ∃ j, j < first ∧ i ∈ positions slot_ids j) →
      Ranked slot_ids.length exclude_list ((range' first m).map (pool slot_ids)) answers →
      List.Forall₂ (fun answer j => (answer.map (·.action.toNat)).Perm (positions slot_ids j))
        answers (range' first m) := by
  induction m with
  | zero =>
    intro first exclude_list answers _ _ h
    cases h
    exact .nil
  | succ m ih =>
    intro first exclude_list answers hall hexclude h
    rw [range'_succ, map_cons] at h
    rw [range'_succ]
    cases h with
    | @cons _ _ answer _ answers hperm hrest =>
      have hfirst : first ∈ slot_ids := hall first (by omega)
      have hfree : ∀ i ∈ positions slot_ids first, exclude_list.getD i false = false := by
        intro i hi
        rw [← Bool.not_eq_true]
        intro htrue
        obtain ⟨j, hj, hmem⟩ := hexclude i htrue
        exact Nat.ne_of_lt hj (positions_disjoint hmem hi)
      have hanswer := hperm.trans (available_pool hbound hfirst hfree)
      refine .cons hanswer (ih (fun j hj => hall j (by omega)) ?_ hrest)
      intro i hi
      cases answer with
      | nil =>
        obtain ⟨j, hj, hmem⟩ := hexclude i hi
        exact ⟨j, by omega, hmem⟩
      | cons top answer =>
        by_cases htop : i = top.action.toNat
        · subst htop
          exact ⟨first, lt_succ_self _, hanswer.mem_iff.mp mem_cons_self⟩
        · unfold exclude_top_action at hi
          rw [getD_eq_getElem?_getD, getElem?_set_ne (Ne.symm htop),
            ← getD_eq_getElem?_getD] at hi
          obtain ⟨j, hj, hmem⟩ := hexclude i hi
          exact ⟨j, by omega, hmem⟩

/-- The number of actions ranked before a slot is that of the actions of the slots before. -/
theorem size_before_eq {m : Nat} :
    ∀ {first : Nat} {answers : List (List ActionScore)},
      List.Forall₂ (fun answer j => (answer.map (·.action.toNat)).Perm (positions slot_ids j))
        answers (range' first m) →
      ∀ {j : Nat}, j ≤ m → smaller slot_ids first + size_before answers j =
        smaller slot_ids (first + j) := by
  induction m with
  | zero =>
    intro first answers _ j hj
    rw [Nat.le_zero.mp hj]
    rfl
  | succ m ih =>
    intro first answers h j hj
    rw [range'_succ] at h
    cases h with
    | @cons answer _ answers _ hperm hrest =>
      cases j with
      | zero => rfl
      | succ j =>
        have hlength : answer.length = slot_ids.count first := by
          rw [← length_positions, ← hperm.length_eq, length_map]
        have hih := ih hrest (le_of_succ_le_succ hj)
        rw [smaller_succ] at hih
        unfold size_before at hih ⊢
        rw [take_succ_cons, map_cons, sum_cons, hlength, ← add_assoc, hih]
        congr 1
        omega

/-- Subtracting `start` gives the positions exactly in a block that begins there. -/
theorem getElem?_sub_iff_block {own : List Nat} {start : Nat} (hnodup : own.Nodup)
    (hown : ∀ i ∈ own, i < 2 ^ 32) (hstart : start + own.length ≤ 2 ^ 32) :
    (∀ i ∈ own, own[(BitVec.ofNat 32 i - BitVec.ofNat 32 start).toNat]? = some i) ↔
      own = List.range' start own.length := by
  constructor
  · intro h
    apply ext_getElem
    · rw [length_range']
    · intro r hr _
      have hposition := h own[r] (getElem_mem hr)
      obtain ⟨hr', heq⟩ := List.getElem?_eq_some_iff.mp hposition
      have hindex := (List.Nodup.getElem_inj_iff hnodup).mp heq
      have hlt := hown own[r] (getElem_mem hr)
      rw [getElem_range', one_mul]
      -- the difference is `r` modulo 2^32, and neither side wraps
      rw [BitVec.toNat_sub, BitVec.toNat_ofNat, BitVec.toNat_ofNat] at hindex
      omega
  · intro h i hi
    rw [h] at hi
    rw [mem_range'_1] at hi
    have hdifference : (BitVec.ofNat 32 i - BitVec.ofNat 32 start).toNat = i - start := by
      rw [BitVec.toNat_sub, BitVec.toNat_ofNat, BitVec.toNat_ofNat]
      omega
    rw [hdifference, h, getElem?_range' (by omega)]
    congr 1
    omega

variable {num_slots : Nat}

/-- Where every slot ranks its pool, the numbers are inverted exactly for blocks. -/
theorem inverted_iff_inBlocks (hbound : slot_ids.length ≤ 2 ^ 32)
    (hvalid : ∀ j ∈ slot_ids, j < num_slots)
    (h : List.Forall₂ (fun answer j => (answer.map (·.action.toNat)).Perm (positions slot_ids j))
      answers (List.range' 0 num_slots)) :
    Inverted slot_ids answers (to_slates_space 0 answers) ↔ InBlocks slot_ids := by
  have hslot : ∀ {j : Nat}, j < num_slots → ∃ answer, answers[j]? = some answer ∧
      (answer.map (·.action.toNat)).Perm (positions slot_ids j) ∧
      size_before answers j = smaller slot_ids j := by
    intro j hj
    have hlength : answers.length = num_slots := by rw [h.length_eq, length_range']
    have hsize := size_before_eq h hj.le
    rw [smaller_zero, zero_add, zero_add] at hsize
    have hperm := forall₂_iff_get.mp h
    have hj₁ : j < answers.length := by omega
    refine ⟨answers[j], getElem?_eq_getElem hj₁, ?_, hsize⟩
    have hj' := hperm.2 j (by omega) (by rw [length_range']; exact hj)
    simpa using hj'
  -- the condition on one slot, on the numbers of its ranking and on its own positions
  have hone : ∀ {j : Nat} {answer : List ActionScore},
      (answer.map (·.action.toNat)).Perm (positions slot_ids j) →
      ((∀ answered ∈ answer,
        (positions slot_ids j)[(answered.action - BitVec.ofNat 32 (smaller slot_ids j)).toNat]? =
          some answered.action.toNat) ↔
        positions slot_ids j = List.range' (smaller slot_ids j) (slot_ids.count j)) := by
    intro j answer hperm
    have hle := @smaller_add_count_le slot_ids j
    rw [← length_positions] at hle ⊢
    rw [← getElem?_sub_iff_block (nodup_positions slot_ids j)
      (fun i hi => (lt_of_mem_positions hi).trans_le hbound) (hle.trans hbound)]
    constructor
    · intro hall i hi
      obtain ⟨answered, hmem, rfl⟩ := mem_map.mp (hperm.mem_iff.mpr hi)
      rw [BitVec.ofNat_toNat, BitVec.setWidth_eq]
      exact hall answered hmem
    · intro hall answered hmem
      have hposition := hall answered.action.toNat
        (hperm.mem_iff.mp (mem_map_of_mem (f := fun a : ActionScore => a.action.toNat) hmem))
      rw [BitVec.ofNat_toNat, BitVec.setWidth_eq] at hposition
      exact hposition
  rw [inverted_iff]
  constructor
  · intro hall j hj
    obtain ⟨answer, hanswer, hperm, hsize⟩ := hslot (hvalid j hj)
    have hslot_all := hall j answer hanswer
    rw [hsize] at hslot_all
    exact (hone hperm).mp hslot_all
  · intro hblocks j answer hanswer
    have hj : j < num_slots := by
      have hlt := (List.getElem?_eq_some_iff.mp hanswer).1
      rw [h.length_eq, length_range'] at hlt
      exact hlt
    obtain ⟨answer', hanswer', hperm, hsize⟩ := hslot hj
    rw [hanswer] at hanswer'
    cases hanswer'
    rw [hsize]
    by_cases hmem : j ∈ slot_ids
    · exact (hone hperm).mpr (hblocks j hmem)
    · -- a slot without actions ranks none
      have hnil : positions slot_ids j = [] := by
        by_contra hne
        exact hmem (positions_ne_nil.mp hne)
      rw [hnil, perm_nil, map_eq_nil_iff] at hperm
      rw [hperm]
      intro answered h
      cases h

/-- A slot without actions ranks those of other slots. -/
theorem all_slots_of_inverted (henough : num_slots ≤ slot_ids.length)
    (hranked : Ranked slot_ids.length (replicate slot_ids.length false)
      ((range' 0 num_slots).map (pool slot_ids)) answers)
    (h : Inverted slot_ids answers (to_slates_space 0 answers)) :
    ∀ j < num_slots, j ∈ slot_ids := by
  intro j hj
  by_contra hnone
  have hnil : positions slot_ids j = [] := by
    by_contra hne
    exact hnone (positions_ne_nil.mp hne)
  have hpool : ((range' 0 num_slots).map (pool slot_ids))[j]? = some [] := by
    rw [getElem?_map, getElem?_range' hj, Option.map_some, zero_add, one_mul]
    unfold pool
    rw [hnil, map_nil]
  obtain ⟨answer, exclude_list, hanswer, hlength, hcount, hperm⟩ := hranked.at_slot hpool
  rw [length_replicate] at hlength
  rw [count_replicate] at hcount
  have hne := available_nil_ne_nil hlength (by simp at hcount; omega)
  cases answer with
  | nil => exact hne (nil_perm.mp hperm)
  | cons answered answer =>
    have hposition := inverted_iff.mp h j _ hanswer answered mem_cons_self
    rw [hnil] at hposition
    cases hposition

/-- Given rankings of what each slot can choose from, the numbers are inverted exactly when
    the slot ids do not decrease and every slot has an action. -/
theorem inverted_iff_sorted (hbound : slot_ids.length ≤ 2 ^ 32)
    (hvalid : ∀ j ∈ slot_ids, j < num_slots) (henough : num_slots ≤ slot_ids.length)
    (hranked : Ranked slot_ids.length (replicate slot_ids.length false)
      ((range' 0 num_slots).map (pool slot_ids)) answers) :
    Inverted slot_ids answers (to_slates_space 0 answers) ↔
      slot_ids.Pairwise (· ≤ ·) ∧ ∀ j < num_slots, j ∈ slot_ids := by
  have hnone_excluded : ∀ i, (replicate slot_ids.length false).getD i false = true →
      ∃ j, j < 0 ∧ i ∈ positions slot_ids j := by
    intro i hi
    rw [getD_eq_getElem?_getD, getElem?_replicate] at hi
    split at hi
    · cases hi
    · cases hi
  have hpools (hall : ∀ j < num_slots, j ∈ slot_ids) :=
    ranked_pools hbound (fun j hj => hall j (by omega)) hnone_excluded hranked
  constructor
  · intro h
    have hall := all_slots_of_inverted henough hranked h
    exact ⟨inBlocks_iff_sorted.mp ((inverted_iff_inBlocks hbound hvalid (hpools hall)).mp h), hall⟩
  · rintro ⟨hsorted, hall⟩
    exact (inverted_iff_inBlocks hbound hvalid (hpools hall)).mpr (inBlocks_iff_sorted.mpr hsorted)

end Pools

/-! ## The labels that the base learner gets -/

section Translations

variable {num_slots : Nat}

theorem modify_map_range {A : Type} (f : Nat → A) (n i : Nat) (g : A → A) :
    ((range n).map f).modify i g = (range n).map fun j => if j = i then g (f j) else f j := by
  apply ext_getElem?
  intro j
  rw [getElem?_modify, getElem?_map, getElem?_map]
  by_cases hj : j < n
  · rw [getElem?_range hj, Option.map_some, Option.map_some]
    by_cases hi : j = i
    · rw [if_pos hi]
      exact congrArg some (if_pos hi.symm)
    · rw [if_neg hi]
      exact congrArg some (if_neg (Ne.symm hi))
  · rw [getElem?_eq_none (by rw [length_range]; exact Nat.not_lt.mp hj)]
    rfl

/-- The actions fill the pools. -/
theorem translate_actions {actions rest : List Label} (hactions : ∀ l ∈ actions, l.type = .ACTION) :
    ∀ {t : Translation} {number : Nat} {pools : Nat → List (BitVec 32)} {ccb_labels : List CcbLabel},
      t.action_index = BitVec.ofNat 32 number →
      t.slot_action_pools = (range num_slots).map pools →
      translate_list num_slots t (actions ++ rest) = .ok ccb_labels →
      ∃ ccb_actions ccb_rest t', ccb_labels = ccb_actions ++ ccb_rest ∧
        (∀ l ∈ ccb_actions, l.type = CcbExampleType.ACTION) ∧
        ccb_actions.length = actions.length ∧
        t'.slot_index = t.slot_index ∧
        t'.slot_action_pools = (range num_slots).map (fun j => pools j ++
          (positions_from j number (actions.map (·.slot_id.toNat))).map (BitVec.ofNat 32)) ∧
        translate_list num_slots t' rest = .ok ccb_rest := by
  induction actions with
  | nil =>
    intro t number pools ccb_labels _ hpools h
    refine ⟨[], ccb_labels, t, rfl, ?_, rfl, rfl, ?_, h⟩
    · intro l hl
      cases hl
    · simp only [map_nil, positions_from, append_nil]
      exact hpools
  | cons action actions ih =>
    intro t number pools ccb_labels hnumber hpools h
    rw [forall_mem_cons] at hactions
    rw [cons_append, translate_list] at h
    obtain ⟨⟨t₁, ccb_label⟩, hlabel, h⟩ := bind_eq_ok.mp h
    obtain ⟨ccb_labels', hlist, h⟩ := bind_eq_ok.mp h
    cases h
    unfold translate_label at hlabel
    rw [hactions.1] at hlabel
    dsimp only at hlabel
    by_cases hid : num_slots ≤ action.slot_id.toNat
    · rw [if_pos hid] at hlabel
      cases hlabel
    · rw [if_neg hid] at hlabel
      cases hlabel
      -- the number goes to the pool of the slot id
      have hpools' := modify_map_range pools num_slots action.slot_id.toNat
        (· ++ [BitVec.ofNat 32 number])
      rw [← hpools, ← hnumber] at hpools'
      have hnext : t.action_index + 1 = BitVec.ofNat 32 (number + 1) := by
        rw [hnumber, BitVec.ofNat_add]
        rfl
      obtain ⟨ccb_actions, ccb_rest, t', rfl, htypes, hlength, hindex, hfilled, hrest⟩ :=
        ih hactions.2 hnext hpools' hlist
      refine ⟨_ :: ccb_actions, ccb_rest, t', rfl, ?_, ?_, hindex, ?_, hrest⟩
      · exact forall_mem_cons.mpr ⟨rfl, htypes⟩
      · rw [length_cons, length_cons, hlength]
      · rw [hfilled]
        apply map_congr_left
        intro j _
        rw [map_cons, positions_from]
        by_cases hj : j = action.slot_id.toNat
        · rw [if_pos hj, if_pos hj.symm, map_cons, hnumber, append_assoc,
            singleton_append]
        · rw [if_neg hj, if_neg (Ne.symm hj)]

/-- The slots get the pools one after the other. -/
theorem translate_slots {slots : List Label} (hslots : ∀ l ∈ slots, l.type = .SLOT) :
    ∀ {t : Translation} {pools : Nat → List (BitVec 32)} {ccb_labels : List CcbLabel},
      t.slot_action_pools = (range num_slots).map pools →
      translate_list num_slots t slots = .ok ccb_labels →
      (∀ l ∈ ccb_labels, l.type = CcbExampleType.SLOT) ∧
        ccb_labels.map (·.explicit_included_actions) =
          (range' t.slot_index slots.length).map pools := by
  induction slots with
  | nil =>
    intro t pools ccb_labels _ h
    cases h
    refine ⟨?_, rfl⟩
    intro l hl
    cases hl
  | cons slot slots ih =>
    intro t pools ccb_labels hpools h
    rw [forall_mem_cons] at hslots
    rw [translate_list] at h
    obtain ⟨⟨t₁, ccb_label⟩, hlabel, h⟩ := bind_eq_ok.mp h
    obtain ⟨ccb_labels', hlist, h⟩ := bind_eq_ok.mp h
    cases h
    unfold translate_label at hlabel
    rw [hslots.1] at hlabel
    obtain ⟨own, hown, hlabel⟩ := bind_eq_ok.mp hlabel
    obtain ⟨outcome, -, hlabel⟩ := bind_eq_ok.mp hlabel
    cases hlabel
    have hpools' : ({ t with slot_index := t.slot_index + 1 } : Translation).slot_action_pools =
        (range num_slots).map pools := hpools
    obtain ⟨htypes, hexplicit⟩ := ih hslots.2 hpools' hlist
    have hpool : own = pools t.slot_index := by
      unfold Cpp.nth at hown
      rw [hpools, getElem?_map] at hown
      by_cases hlt : t.slot_index < num_slots
      · rw [getElem?_range hlt] at hown
        cases hown
        rfl
      · rw [getElem?_eq_none (by rw [length_range]; exact Nat.not_lt.mp hlt)] at hown
        cases hown
    refine ⟨forall_mem_cons.mpr ⟨rfl, htypes⟩, ?_⟩
    rw [map_cons, hexplicit, length_cons, range'_succ, map_cons, hpool]

/-- A multi-example: the shared line, then the actions, then the slots. -/
structure WellFormed (heap : Heap) (examples : List Nat) (slot_ids : List Nat) (num_slots : Nat) :
    Prop where
  nodup : examples.Nodup
  lines : ∃ shared actions slots, labels heap examples = shared :: (actions ++ slots) ∧
    shared.type = .SHARED ∧ (∀ l ∈ actions, l.type = .ACTION) ∧ (∀ l ∈ slots, l.type = .SLOT) ∧
    actions.map (·.slot_id.toNat) = slot_ids ∧ slots.length = num_slots
  valid : ∀ j ∈ slot_ids, j < num_slots

end Translations

end Slates

/-- The number of actions among labels. -/
def Ccb.num_actions (ls : List CcbLabel) : Nat := ls.countP (·.type = .ACTION)

/-- The actions that the slots include, slot by slot. -/
def Ccb.explicit_lists (ls : List CcbLabel) : List (List (BitVec 32)) :=
  (ls.filter (·.type = .SLOT)).map (·.explicit_included_actions)

/-- The CCB layer has answered with a ranking for each slot. It does not for more slots than
    actions. -/
structure Ccb.Answered (ls : List CcbLabel) (answers : List (List ActionScore)) : Prop where
  enough : (ls.filter (·.type = .SLOT)).length ≤ num_actions ls
  ranked : Ranked (num_actions ls) (replicate (num_actions ls) false) (explicit_lists ls) answers

namespace Slates

variable {B : Type} {slot_ids : List Nat} {num_slots : Nat}

/-- The labels that the base learner gets. -/
theorem Translated.ccb_labels {examples : List Nat} {s s' : State B} (h : Translated examples s s')
    (hwf : WellFormed s.heap examples slot_ids num_slots) :
    num_actions (examples.map fun e => (s'.heap e).l.conditional_contextual_bandit) =
        slot_ids.length ∧
      explicit_lists (examples.map fun e => (s'.heap e).l.conditional_contextual_bandit) =
        (range' 0 num_slots).map (pool slot_ids) := by
  obtain ⟨shared, actions, slots, hlabels, hshared, hactions, hslots, hids, hnum⟩ := hwf.lines
  have hcount : slot_count (labels s.heap examples) = num_slots := by
    unfold slot_count
    rw [hlabels, countP_cons, countP_append, hshared]
    have hnone : actions.countP (fun l => decide (l.type = .SLOT)) = 0 := by
      rw [countP_eq_zero]
      intro l hl
      simp [hactions l hl]
    have hall : slots.countP (fun l => decide (l.type = .SLOT)) = slots.length := by
      rw [countP_eq_length]
      intro l hl
      simp [hslots l hl]
    rw [hnone, hall, hnum]
    simp
  have hccb := h.ccb
  rw [hcount, hlabels] at hccb
  rw [translate_list] at hccb
  obtain ⟨⟨t, ccb_shared⟩, hlabel, hccb⟩ := bind_eq_ok.mp hccb
  obtain ⟨ccb_rest, hlist, hccb⟩ := bind_eq_ok.mp hccb
  have hrest := Except.ok.inj hccb
  rw [← hrest]
  unfold translate_label at hlabel
  rw [hshared] at hlabel
  obtain ⟨ht, hshared'⟩ := Prod.mk.inj (Except.ok.inj hlabel)
  have hstart : t.action_index = BitVec.ofNat 32 0 ∧ t.slot_index = 0 ∧
      t.slot_action_pools = (range num_slots).map fun _ => [] := by
    rw [map_const', length_range, ← ht]
    split
    · exact ⟨rfl, rfl, rfl⟩
    · exact ⟨rfl, rfl, rfl⟩
  obtain ⟨ccb_actions, ccb_slots, t', rfl, htypes, hlength, hindex, hpools, hlist'⟩ :=
    translate_actions hactions hstart.1 hstart.2.2 hlist
  obtain ⟨htypes', hexplicit⟩ := translate_slots hslots hpools hlist'
  rw [hindex, hstart.2.1, hnum, hids] at hexplicit
  constructor
  · unfold num_actions
    have hall : ccb_actions.countP (fun l => decide (l.type = .ACTION)) = ccb_actions.length := by
      rw [countP_eq_length]
      intro l hl
      simp [htypes l hl]
    have hnone : ccb_slots.countP (fun l => decide (l.type = .ACTION)) = 0 := by
      rw [countP_eq_zero]
      intro l hl
      simp [htypes' l hl]
    rw [countP_cons, countP_append, hall, hnone, hlength, ← hids, length_map,
      ← hshared']
    simp
  · unfold explicit_lists
    have hnone : ccb_actions.filter (fun l => decide (l.type = .SLOT)) = [] := by
      rw [filter_eq_nil_iff]
      intro l hl
      simp [htypes l hl]
    have hall : ccb_slots.filter (fun l => decide (l.type = .SLOT)) = ccb_slots := by
      rw [filter_eq_self]
      intro l hl
      simp [htypes' l hl]
    rw [filter_cons_of_neg (by simp [← hshared']), filter_append, hnone, hall,
      nil_append, hexplicit]
    rfl

/-! ## The reduction -/

/-- When the base learner has answered with rankings, the reduction reports for every slot
    the positions among its own actions exactly when the slot ids of the actions do not
    decrease and every slot has an action. -/
theorem reports_own_positions_iff {base : BaseLearner B} {is_learn : Bool} {first : Nat}
    {rest : List Nat} {s s₁ s₂ : State B}
    (hwf : WellFormed s.heap (first :: rest) slot_ids num_slots)
    (hbound : slot_ids.length ≤ 2 ^ 32)
    (htranslate : translate (first :: rest) s = .returned () s₁)
    (hbase : call_base base is_learn (first :: rest) s₁ = .returned () s₂)
    (hanswered : Answered
      ((first :: rest).map fun e => (s₁.heap e).l.conditional_contextual_bandit)
      (s₂.heap first).pred.decision_scores) :
    ∃ s', learn_or_predict base is_learn (first :: rest) s = .returned () s' ∧
      (Inverted slot_ids (s₂.heap first).pred.decision_scores
          (s'.heap first).pred.decision_scores ↔
        slot_ids.Pairwise (· ≤ ·) ∧ ∀ j < num_slots, j ∈ slot_ids) := by
  have htranslated := translate_returned hwf.nodup htranslate
  obtain ⟨hactions, hexplicit⟩ := htranslated.ccb_labels hwf
  have hranked := hanswered.ranked
  have henough := hanswered.enough
  rw [← length_map (f := fun l : CcbLabel => l.explicit_included_actions)] at henough
  change (explicit_lists _).length ≤ _ at henough
  rw [hactions, hexplicit] at hranked
  rw [hactions, hexplicit, length_map, length_range'] at henough
  refine ⟨_, learn_or_predict_of_returned htranslate hbase, ?_⟩
  have hreports : ((restore (first :: rest) (translate_predictions first s₂)).heap
      first).pred.decision_scores =
      to_slates_space 0 (s₂.heap first).pred.decision_scores := by
    unfold restore translate_predictions
    rw [Heap.pred_write_all_slates, Heap.pred_set_pred, if_pos rfl]
  rw [hreports]
  exact inverted_iff_sorted hbound hwf.valid henough hranked

/-! ## Two multi-examples -/

/-- A shared line, actions with these slot ids and two slots, at consecutive addresses. -/
def two_slots (slot_ids : List (BitVec 32)) : Heap := fun address =>
  match address with
  | 0 => { l := { slates := { type := .SHARED } } }
  | address + 1 =>
    match slot_ids[address]? with
    | some slot_id => { l := { slates := { type := .ACTION, slot_id := slot_id } } }
    | none => { l := { slates := { type := .SLOT } } }

/-- A base learner that gives the slots these rankings. -/
def rank (answers : List (List (BitVec 32))) : BaseLearner Unit := fun _ examples (b, heap) =>
  match examples with
  | [] => .returned () (b, heap)
  | first :: _ => .returned () (b, heap.set_pred first { (heap first).pred with
      decision_scores := answers.map fun answer => answer.map fun action => ⟨action, 0⟩ })

/-- Two actions of the first slot before one of the second. -/
theorem reports_own_positions_iff_two_slots :
    ∃ s', learn_or_predict (rank [[1, 0], [2]]) false [0, 1, 2, 3, 4, 5] ⟨[], two_slots [0, 0, 1], ()⟩ =
        .returned () s' ∧
      Inverted [0, 0, 1] [[⟨1, 0⟩, ⟨0, 0⟩], [⟨2, 0⟩]] (s'.heap 0).pred.decision_scores := by
  have hwf : WellFormed (two_slots [0, 0, 1]) [0, 1, 2, 3, 4, 5] [0, 0, 1] 2 := by
    refine ⟨by decide, ⟨{ type := .SHARED }, [{ type := .ACTION, slot_id := 0 },
      { type := .ACTION, slot_id := 0 }, { type := .ACTION, slot_id := 1 }],
      [{ type := .SLOT }, { type := .SLOT }], by decide, rfl, by decide, by decide, rfl, rfl⟩, by decide⟩
  obtain ⟨s', hrun, hiff⟩ := @reports_own_positions_iff Unit [0, 0, 1] 2 (rank [[1, 0], [2]])
    false 0 [1, 2, 3, 4, 5] ⟨[], two_slots [0, 0, 1], ()⟩ _ _ hwf (by decide) rfl rfl
    ⟨by decide, .cons (by decide) (.cons (by decide) .nil)⟩
  exact ⟨s', hrun, hiff.mpr ⟨by decide, by decide⟩⟩

/-- The actions of two slots take turns: `2` is reported as the third of two actions. -/
theorem interleaved_actions_not_inverted :
    WellFormed (two_slots [0, 1, 0]) [0, 1, 2, 3, 4, 5] [0, 1, 0] 2 ∧
      ∃ s₁ s₂ s' : State Unit,
        translate [0, 1, 2, 3, 4, 5] ⟨[], two_slots [0, 1, 0], ()⟩ = .returned () s₁ ∧
        call_base (rank [[0, 2], [1]]) false [0, 1, 2, 3, 4, 5] s₁ = .returned () s₂ ∧
        Answered ([0, 1, 2, 3, 4, 5].map fun e => (s₁.heap e).l.conditional_contextual_bandit)
          (s₂.heap 0).pred.decision_scores ∧
        learn_or_predict (rank [[0, 2], [1]]) false [0, 1, 2, 3, 4, 5]
          ⟨[], two_slots [0, 1, 0], ()⟩ = .returned () s' ∧
        ¬ Inverted [0, 1, 0] (s₂.heap 0).pred.decision_scores (s'.heap 0).pred.decision_scores := by
  refine ⟨⟨by decide, ⟨{ type := .SHARED }, [{ type := .ACTION, slot_id := 0 },
      { type := .ACTION, slot_id := 1 }, { type := .ACTION, slot_id := 0 }],
      [{ type := .SLOT }, { type := .SLOT }], by decide, rfl, by decide, by decide, rfl, rfl⟩, by decide⟩,
    _, _, _, rfl, rfl, ⟨by decide, .cons (by decide) (.cons (by decide) .nil)⟩, rfl, ?_⟩
  intro h
  -- the second number of the first slot
  obtain ⟨answer, answered, -, -, hposition⟩ := h 0 [⟨0, 0⟩, ⟨2, 0⟩] (by decide) 1 ⟨2, 0⟩ (by decide)
  cases hposition

end Slates

end VW
