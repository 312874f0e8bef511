import VowpalWabbit.Slates.Rounds
import Mathlib.Data.List.Induction

/-! # The decisions of the slots

    A base learner that answers with a permutation of the positions that it was offered gives
    a ranking of the actions that a slot can choose from; the rounds together give what is
    called `Ranked`.
-/

open Cpp Call.Leaves

namespace VW.Ccb

open List Call

variable {B : Type}

/-! ## Base learners -/

/-- A base learner that never throws and answers with a permutation of the positions that it was
    offered, as far as an action can hold them, for the header in front of them. It leaves the
    header and the decisions of earlier slots as they are. -/
structure Permutes (base : BaseLearner B) : Prop where
  no_throw : ∀ is_learn cb_ex s what s', base is_learn cb_ex s ≠ .threw what s'
  answer : ∀ is_learn shared actions b heap, actions ≠ [] → actions.length ≤ 2 ^ 32 → ∃ b' heap',
    base is_learn (shared :: actions) (b, heap) = .returned () (b', heap') ∧
      ((heap' shared).pred.a_s.map (·.action.toNat)).Perm (range actions.length) ∧
      (heap' shared).l.cb = (heap shared).l.cb ∧
      ∀ ex, (heap' ex).pred.decision_scores = (heap ex).pred.decision_scores

/-- That is an answer with positions that were offered. -/
theorem Permutes.answers {base : BaseLearner B} (hbase : Permutes base) {is_learn : Bool} {bound : Nat}
    (hbound : bound ≤ 2 ^ 32) :
    Answers base is_learn bound fun n a_s => (a_s.map (·.action.toNat)).Perm (range n) := by
  intro shared actions b heap hne hle
  obtain ⟨b', heap', hcall, hperm, hheader, hkept⟩ :=
    hbase.answer is_learn shared actions b heap hne (Nat.le_trans hle hbound)
  refine ⟨b', heap', hcall, ?_, fun a ha => ?_, hperm, hheader, hkept⟩
  · intro hnil
    rw [hnil, map_nil] at hperm
    have hlength := hperm.length_eq
    rw [length_nil, length_range] at hlength
    exact hne (length_eq_zero_iff.mp hlength.symm)
  · exact mem_range.mp (hperm.subset (mem_map_of_mem ha))

/-- A permutation of the positions becomes one of what stands there. -/
theorem perm_original {positions : List Nat} {a_s : List ActionScore} (hbound : ∀ k ∈ positions, k < 2 ^ 32)
    (h : (a_s.map (·.action.toNat)).Perm (range positions.length)) :
    ((a_s.map (original positions)).map (·.action.toNat)).Perm positions := by
  have hmap : (a_s.map (original positions)).map (·.action.toNat) =
      (a_s.map (·.action.toNat)).map fun k => positions.getD k 0 % 2 ^ 32 := by
    rw [map_map, map_map]
    rfl
  have hrange : ((range positions.length).map fun k => positions.getD k 0 % 2 ^ 32) = positions := by
    refine ext_getElem (by rw [length_map, length_range]) fun k hk hk' => ?_
    rw [getElem_map, getElem_range, getD_eq_getElem?_getD, getElem?_eq_getElem hk']
    exact Nat.mod_eq_of_lt (hbound _ (getElem_mem hk'))
  rw [hmap]
  exact (h.map _).trans (List.Perm.of_eq hrange)

variable {n : Nat} {explicit : List (BitVec 32)} {excludes : List Bool} {decision : List ActionScore}
  {explicits : List (List (BitVec 32))} {decisions : List (List ActionScore)}

/-- So the decision lists what the slot can choose from. -/
theorem perm_of_decided
    (hbound : n ≤ 2 ^ 32)
    (h : DecidedFrom (fun n a_s => (a_s.map (·.action.toNat)).Perm (range n)) (available n explicit excludes)
      decision) :
    (decision.map (·.action.toNat)).Perm (available n explicit excludes) := by
  rcases h with ⟨hempty, rfl⟩ | ⟨a_s, hperm, rfl⟩
  · exact List.Perm.of_eq hempty.symm
  · refine perm_original (fun k hk => ?_) hperm
    exact Nat.lt_of_lt_of_le (mem_range.mp (mem_filter.mp hk).1) hbound

section Runs

variable {m : Parts} {excludes : List Bool} {scores : List (List ActionScore)}
  {base : BaseLearner B} {is_learn : Bool}

/-- All rounds: the decisions are ranked one after the other. -/
theorem rounds_finish (hbase : Permutes base) (examples : List Nat) (hshared : m.shared ∉ m.actions)
    (hbound : m.actions.length ≤ 2 ^ 32) (label : Nat → CcbLabel) (slot_ids : List Nat)
    (hlabel : ∀ slot_id ∈ slot_ids, m.stash[1 + m.actions.length + slot_id]? = some (label slot_id) ∧
      Readable is_learn (label slot_id)) {s : State B} (h : Round m excludes scores s) :
    ∃ s' decisions excludes', Call.for_each (learn_or_predict_slot base is_learn examples m.first) slot_ids s =
        .returned () s' ∧
      Ranked m.actions.length excludes (slot_ids.map fun slot_id => (label slot_id).explicit_included_actions)
        decisions ∧
      Round m excludes' (scores ++ decisions) s' := by
  induction slot_ids generalizing s excludes scores with
  | nil => exact ⟨s, [], excludes, rfl, .nil, by rwa [append_nil]⟩
  | cons slot_id slot_ids ih =>
    rw [forall_mem_cons] at hlabel
    obtain ⟨s₁, decision, hrun, hdecided, hround⟩ := learn_or_predict_slot_finishes (hbase.answers hbound) examples
      hshared hlabel.1.1 hlabel.1.2 h
    obtain ⟨s₂, decisions, excludes', hrest, hranked, hround'⟩ := ih hlabel.2 hround
    refine ⟨s₂, decision :: decisions, excludes', ?_, .cons (perm_of_decided hbound hdecided) hranked, ?_⟩
    · rw [Call.for_each, Call.bind_run, hrun]
      exact hrest
    · rwa [append_assoc, singleton_append] at hround'

theorem pred_foldl_set_cb (label : Heap → Nat → CbLabel) (exs : List Nat) (heap : Heap) (ex : Nat) :
    (exs.foldl (fun heap ex => heap.set_cb ex (label heap ex)) heap ex).pred = (heap ex).pred := by
  induction exs generalizing heap with
  | nil => rfl
  | cons ex' exs ih => rw [foldl_cons, ih, pred_set_cb]

/-- The guards leave the predictions. -/
theorem pred_delete_cb_labels (s : State B) (ex : Nat) : ((delete_cb_labels s).heap ex).pred = (s.heap ex).pred := by
  unfold delete_cb_labels
  cases s.data.shared with
  | none => rfl
  | some shared => exact pred_foldl_set_cb _ _ _ ex

theorem pred_restore_labels (examples : List Nat) (s : State B) (ex : Nat) :
    ((restore_labels examples s).heap ex).pred = (s.heap ex).pred := Heap.pred_write_all_ccb _ _ ex

/-- The call of an object that was left alone by the calls before, on a multi-example in any order. -/
theorem learn_or_predict_finishes (hbase : Permutes base) {examples : List Nat}
    (hnodup : examples.Nodup) {s : State B}
    (hknown : ∀ l ∈ labels s.heap examples, l.type ≠ .UNSET) {shared front : Nat}
    (hone : of_type s.heap examples .SHARED = [shared]) (hfront : examples[0]? = some front)
    (hbound : (of_type s.heap examples .ACTION).length ≤ 2 ^ 32)
    (henough : (of_type s.heap examples .SLOT).length ≤ (of_type s.heap examples .ACTION).length)
    (label : Nat → CcbLabel)
    (hlabel : ∀ k < (of_type s.heap examples .SLOT).length,
      (labels s.heap examples)[1 + (of_type s.heap examples .ACTION).length + k]? = some (label k) ∧
        Readable is_learn (label k))
    (hcb_ex : s.data.cb_ex = []) (hno_pred : s.data.no_pred = false) :
    ∃ s' decisions, learn_or_predict base is_learn examples s = .returned () s' ∧
      Ranked (of_type s.heap examples .ACTION).length (replicate (of_type s.heap examples .ACTION).length false)
        ((range (of_type s.heap examples .SLOT).length).map fun k => (label k).explicit_included_actions)
        decisions ∧
      (s'.heap front).pred.decision_scores = (s.heap front).pred.decision_scores ++ decisions := by
  obtain ⟨s₁, hbegins, hshared, hround⟩ := begins_of_enough is_learn front hnodup hknown hone henough
    hcb_ex hno_pred
  obtain ⟨s₂, decisions, excludes', hrun, hranked, hround'⟩ := rounds_finish hbase examples hshared hbound label
    (range (of_type s.heap examples .SLOT).length) (fun k hk => hlabel k (mem_range.mp hk)) hround
  refine ⟨restore_labels examples (delete_cb_labels s₂), decisions, ?_, hranked, ?_⟩
  · rw [learn_or_predict_of_begins hbegins hfront, hround.slots]
    unfold Call.scope_exit
    rw [hrun]
  · rw [pred_restore_labels, pred_delete_cb_labels]
    exact hround'.scores

end Runs

/-! ## What the decisions are like -/

/-- The actions at the top of decisions. -/
def tops (decisions : List (List ActionScore)) : List (BitVec 32) :=
  decisions.filterMap fun decision => decision.head?.map (·.action)

/-- A decision of a slot with these inclusions, after other decisions. -/
structure Allowed (n : Nat) (explicit : List (BitVec 32)) (earlier : List (List ActionScore))
    (decision : List ActionScore) : Prop where
  distinct : (decision.map (·.action)).Nodup
  bound : ∀ a ∈ decision, a.action.toNat < n
  included : ∀ a ∈ decision, explicit = [] ∨ a.action ∈ explicit
  not_taken : ∀ a ∈ decision, a.action ∉ tops earlier

/-- What can be selected is not excluded, and is included. -/
theorem mem_available {i : Nat}
    (h : i ∈ available n explicit excludes) :
    i < n ∧ excludes.getD i false = false ∧ (explicit = [] ∨ ∃ id ∈ explicit, id.toNat = i) := by
  obtain ⟨hi, hselectable⟩ := mem_filter.mp h
  have hi := mem_range.mp hi
  by_cases hexplicit : explicit = []
  · refine ⟨hi, ?_, .inl hexplicit⟩
    have hexcluded := (Bool.and_eq_true _ _ ▸ hselectable).2
    rwa [Bool.not_eq_true'] at hexcluded
  · rw [selectable_included hexplicit hi, Bool.and_eq_true, decide_eq_true_eq, Bool.not_eq_true'] at hselectable
    exact ⟨hi, hselectable.2, .inr hselectable.1⟩

/-- The exclusions after a decision. -/
theorem getD_exclude_top_action {i : Nat}
    (hi : i < excludes.length) (h : (exclude_top_action excludes decision).getD i false = false) :
    excludes.getD i false = false ∧ ∀ top ∈ decision.head?, top.action.toNat ≠ i := by
  cases decision with
  | nil => exact ⟨h, fun top htop => (nomatch htop)⟩
  | cons top rest =>
    rw [exclude_top_action, getD_eq_getElem?_getD, getElem?_set] at h
    by_cases htop : top.action.toNat = i
    · rw [if_pos htop, if_pos (htop ▸ hi)] at h
      cases h
    · rw [if_neg htop, ← getD_eq_getElem?_getD] at h
      refine ⟨h, fun top' htop' => ?_⟩
      obtain rfl := Option.some.inj htop'
      exact htop

theorem Ranked.length_eq (h : Ranked n excludes explicits decisions) :
    decisions.length = explicits.length := by
  induction h with
  | nil => rfl
  | cons hperm hrest ih => rw [length_cons, length_cons, ih]

/-- Ranked decisions are allowed, and have nothing of what was excluded. -/
theorem Ranked.allowed (h : Ranked n excludes explicits decisions) (hlength : excludes.length = n)
    {k : Nat} (hdecision : decisions[k]? = some decision)
    (hexplicit : explicits[k]? = some explicit) :
    Allowed n explicit (decisions.take k) decision ∧
      ∀ a ∈ decision, excludes.getD a.action.toNat false = false := by
  induction h generalizing k with
  | nil => cases hdecision
  | @cons excludes explicit' answer explicits answers hperm hrest ih =>
    cases k with
    | zero =>
      obtain rfl := Option.some.inj hdecision
      obtain rfl := Option.some.inj hexplicit
      have hmem : ∀ a ∈ answer, a.action.toNat ∈ available n explicit' excludes :=
        fun a ha => hperm.subset (mem_map_of_mem ha)
      refine ⟨⟨?_, fun a ha => (mem_available (hmem a ha)).1, fun a ha => ?_, fun a _ h => (nomatch h)⟩,
        fun a ha => (mem_available (hmem a ha)).2.1⟩
      · have hnodup : (answer.map (·.action.toNat)).Nodup :=
          hperm.nodup_iff.mpr (nodup_range.filter _)
        refine List.Nodup.of_map BitVec.toNat ?_
        rwa [map_map]
      · refine (mem_available (hmem a ha)).2.2.imp_right ?_
        rintro ⟨id, hid, heq⟩
        exact BitVec.eq_of_toNat_eq heq ▸ hid
    | succ k =>
      obtain ⟨hallowed, hexcluded⟩ :=
        ih ((length_exclude_top_action excludes answer).trans hlength) hdecision hexplicit
      have hfree : ∀ a ∈ decision, excludes.getD a.action.toNat false = false ∧
          ∀ top ∈ answer.head?, top.action.toNat ≠ a.action.toNat :=
        fun a ha => getD_exclude_top_action (hlength ▸ hallowed.bound a ha) (hexcluded a ha)
      refine ⟨{ hallowed with not_taken := fun a ha hmem => ?_ }, fun a ha => (hfree a ha).1⟩
      rw [take_succ_cons, tops, mem_filterMap] at hmem
      obtain ⟨earlier, hearlier, htop⟩ := hmem
      obtain ⟨top, htop, heq⟩ := Option.map_eq_some_iff.mp htop
      rcases mem_cons.mp hearlier with rfl | hearlier
      · exact (hfree a ha).2 top htop (congrArg BitVec.toNat heq)
      · refine hallowed.not_taken a ha (mem_filterMap.mpr ⟨earlier, hearlier, ?_⟩)
        rw [htop, Option.map_some, heq]

theorem nodup_tops
    (h : ∀ k decision, decisions[k]? = some decision → ∀ a ∈ decision, a.action ∉ tops (decisions.take k)) :
    (tops decisions).Nodup := by
  induction decisions using reverseRecOn with
  | nil => exact nodup_nil
  | append_singleton decisions decision ih =>
    rw [tops, filterMap_append]
    refine List.Nodup.append (ih fun k decision' hk a ha => ?_) ?_ ?_
    · have hlt : k < decisions.length := (List.getElem?_eq_some_iff.mp hk).1
      have hnot := h k decision' (by rw [getElem?_append_left hlt]; exact hk) a ha
      rwa [take_append_of_le_length (Nat.le_of_lt hlt)] at hnot
    · cases decision with
      | nil => exact nodup_nil
      | cons top rest => exact nodup_singleton _
    · intro action hearlier hlast
      have hnot := h decisions.length decision (by rw [getElem?_concat_length])
      rw [take_left] at hnot
      cases decision with
      | nil => cases hlast
      | cons top rest =>
        obtain rfl := mem_singleton.mp hlast
        exact hnot top mem_cons_self hearlier

theorem Ranked.nodup_tops
    (h : Ranked n (List.replicate n false) explicits decisions) : (tops decisions).Nodup := by
  refine Ccb.nodup_tops fun k decision hdecision a ha => ?_
  have hlt : k < explicits.length := h.length_eq ▸ (List.getElem?_eq_some_iff.mp hdecision).1
  exact (h.allowed length_replicate hdecision (getElem?_eq_getElem hlt)).1.not_taken a ha

/-! ## The examples in their order -/

/-- A multi-example in the order of the format: the shared example, the actions, the slots. An
    outcome that is learned from has a probability. -/
structure WellFormed (is_learn : Bool) (heap : Heap) (shared : Nat) (actions slots : List Nat) : Prop where
  nodup : (shared :: (actions ++ slots)).Nodup
  shared_type : (heap shared).l.conditional_contextual_bandit.type = .SHARED
  action_type : ∀ action ∈ actions, (heap action).l.conditional_contextual_bandit.type = .ACTION
  slot_type : ∀ slot ∈ slots, (heap slot).l.conditional_contextual_bandit.type = .SLOT
  enough : slots.length ≤ actions.length
  bound : actions.length ≤ 2 ^ 32
  readable : ∀ slot ∈ slots, Readable is_learn (heap slot).l.conditional_contextual_bandit

/-- The states between the calls of a reduction over a base learner. The examples and the base
    learner can be changed from outside. -/
inductive Reached (base : BaseLearner B) : State B → Prop where
  | start (no_pred : Bool) (heap : Heap) (b : B) : Reached base ⟨{ no_pred := no_pred }, heap, b⟩
  | returned {s s' : State B} {is_learn : Bool} {examples : List Nat} (h : Reached base s)
      (hrun : learn_or_predict base is_learn examples s = .returned () s') : Reached base s'
  | threw {s s' : State B} {is_learn : Bool} {examples : List Nat} {what : String} (h : Reached base s)
      (hrun : learn_or_predict base is_learn examples s = .threw what s') : Reached base s'
  | between {s : State B} (heap : Heap) (b : B) (h : Reached base s) :
      Reached base { s with heap := heap, base := b }

section Reach

variable {base : BaseLearner B} (is_learn : Bool)

/-- A call that does not throw. -/
abbrev Silent {A : Type} (x : Call (State B) A) : Prop := Quiet x (fun _ => True) fun _ _ => True

variable {A : Type}

theorem silent_at (xs : List A) (i : Nat) : Silent (at_ xs i : Call (State B) A) := by
  unfold at_
  cases xs[i]? with
  | none => exact Quiet.undefined
  | some x => exact Quiet.pure fun _ h => h

theorem silent_pointer (p : Option Nat) : Silent (pointer p : Call (State B) Nat) := by
  unfold pointer
  cases p with
  | none => exact Quiet.undefined
  | some address => exact Quiet.pure fun _ h => h

theorem silent_get : Silent (get : Call (State B) (State B)) := fun _ _ => trivial

theorem silent_set_data (f : CcbData → CcbData) : Silent (set_data f : Call (State B) Unit) := fun _ _ => trivial

theorem silent_set_heap (f : Heap → Heap) : Silent (set_heap f : Call (State B) Unit) := fun _ _ => trivial

theorem silent_pure (a : A) : Silent (pure a : Call (State B) A) := fun _ _ => trivial

theorem silent_mapM {A' : Type} {f : A → Call (State B) A'} (h : ∀ a, Silent (f a)) (xs : List A) :
    Silent (xs.mapM f) := by
  induction xs with
  | nil => exact silent_pure []
  | cons x xs ih =>
    rw [mapM_cons]
    exact (h x).bind fun y => ih.bind fun ys => silent_pure _

theorem silent_select_action (label : CcbLabel) (i : Nat) :
    Silent (select_action is_learn label i : Call (State B) Unit) := by
  refine silent_get.bind fun s => ?_
  split
  · refine (silent_at _ _).bind fun action => (silent_set_data _).bind fun _ => ?_
    split
    · refine (silent_at _ _).bind fun chosen => ?_
      split
      · exact (silent_set_data _).bind fun _ => silent_get.bind fun _ => silent_set_heap _
      · exact silent_pure ()
    · exact silent_pure ()
  · exact silent_pure ()

theorem silent_build_cb_example (label : CcbLabel) :
    Silent (build_cb_example is_learn label : Call (State B) Unit) := by
  refine silent_get.bind fun s => (silent_pointer _).bind fun shared => (silent_set_data _).bind fun _ => ?_
  exact (Quiet.for_each (silent_select_action is_learn label) _).bind fun _ => silent_set_heap _

theorem silent_exclude_chosen_action (examples : List Nat) :
    Silent (exclude_chosen_action examples : Call (State B) Unit) := by
  refine silent_get.bind fun s => ?_
  dsimp only
  split
  · exact silent_pure ()
  · exact silent_pure ()
  · split
    · exact silent_set_data _
    · exact Quiet.undefined

theorem silent_save_action_scores (first : Nat) :
    Silent (save_action_scores_and_exclude_top_action first : Call (State B) Unit) := by
  refine silent_get.bind fun s => (silent_pointer _).bind fun shared => ?_
  refine (silent_mapM (fun _ => (silent_at _ _).bind fun _ => silent_pure _) _).bind fun pred => ?_
  refine (silent_at _ _).bind fun top => (silent_set_data _).bind fun _ => ?_
  exact (silent_set_heap _).bind fun _ => silent_set_heap _

theorem silent_call_base (hbase : Permutes base) (cb_ex : List Nat) : Silent (call_base base is_learn cb_ex) := by
  intro s _
  unfold call_base
  rcases hrun : base is_learn cb_ex (s.base, s.heap) with ⟨⟨⟩, b, heap⟩ | ⟨what, b, heap⟩ | _
  · trivial
  · exact absurd hrun (hbase.no_throw _ _ _ _ _)
  · trivial

/-- A round does not throw, and leaves no examples of contextual bandits behind. -/
theorem learn_or_predict_slot_quiet (hbase : Permutes base) (examples : List Nat) (first slot_id : Nat) :
    Quiet (learn_or_predict_slot base is_learn examples first slot_id) (fun _ => True)
      fun _ s => s.data.cb_ex = [] := by
  have hclear : Quiet (set_data fun data => { data with cb_ex := [] } : Call (State B) Unit) (fun _ => True)
      fun _ s => s.data.cb_ex = [] := Quiet.modify fun _ _ => rfl
  refine silent_get.bind fun s => (silent_at _ _).bind fun label => ?_
  refine (silent_build_cb_example is_learn label).bind fun _ => silent_get.bind fun s => ?_
  split
  · refine (silent_call_base is_learn hbase _).bind fun _ => ?_
    split
    · refine (silent_exclude_chosen_action examples).bind fun _ => silent_get.bind fun s => ?_
      exact (silent_at _ _).bind fun action => (silent_set_heap _).bind fun _ => hclear
    · refine (silent_save_action_scores first).bind fun _ => silent_get.bind fun s => ?_
      exact (silent_at _ _).bind fun action => (silent_set_heap _).bind fun _ => hclear
  · exact (silent_set_heap _).bind fun _ => hclear

/-- No examples of contextual bandits are left behind. -/
abbrev LeavesNone {A : Type} (x : Call (State B) A) : Prop :=
  Leaves x (fun s => s.data.cb_ex = []) fun s => s.data.cb_ex = []

theorem leaves_none_rounds (hbase : Permutes base) (examples : List Nat) (first : Nat) (slot_ids : List Nat) :
    LeavesNone (Call.for_each (learn_or_predict_slot base is_learn examples first) slot_ids) :=
  for_each (fun slot_id s _ => by
    have hquiet := learn_or_predict_slot_quiet is_learn hbase examples first slot_id s trivial
    cases hrun : learn_or_predict_slot base is_learn examples first slot_id s with
    | returned a s' => rwa [hrun] at hquiet
    | threw what s' =>
      rw [hrun] at hquiet
      exact hquiet.elim
    | undefined => trivial) slot_ids

theorem leaves_none_get : LeavesNone (get : Call (State B) (State B)) := Leaves.get fun _ h => h

theorem leaves_none_set_heap (f : Heap → Heap) : LeavesNone (set_heap f : Call (State B) Unit) :=
  modify fun _ h => h

theorem leaves_none_set_data {f : CcbData → CcbData} (hf : ∀ data, (f data).cb_ex = data.cb_ex) :
    LeavesNone (set_data f : Call (State B) Unit) := modify fun s h => (hf s.data).trans h

theorem leaves_none_at (xs : List A) (i : Nat) : LeavesNone (at_ xs i : Call (State B) A) := by
  unfold at_
  cases xs[i]? with
  | none => exact undefined
  | some x => exact pure x fun _ h => h

theorem leaves_none_create_cb_labels : LeavesNone (create_cb_labels : Call (State B) Unit) := by
  refine leaves_none_get.bind fun s => ?_
  have hpointer : LeavesNone (pointer s.data.shared : Call (State B) Nat) := by
    unfold pointer
    cases s.data.shared with
    | none => exact undefined
    | some address => exact pure address fun _ h => h
  refine hpointer.bind fun shared => (leaves_none_set_heap _).bind fun _ => ?_
  exact (for_each (fun _ => leaves_none_set_heap _) _).bind fun _ => leaves_none_set_heap _

theorem leaves_none_split (examples : List Nat) :
    LeavesNone (split_multi_example_and_stash_labels examples : Call (State B) Bool) := by
  induction examples with
  | nil => exact pure true fun _ h => h
  | cons ex examples ih =>
    refine leaves_none_get.bind fun s => ?_
    dsimp only
    split
    · exact pure false fun _ h => h
    refine bind (leaves_none_set_data ?_) fun _ => ?_
    · intro data
      cases (s.heap ex).l.conditional_contextual_bandit.type <;> rfl
    refine bind (leaves_none_set_data ?_) fun _ => ?_
    · exact fun _ => rfl
    · exact (leaves_none_set_heap _).bind fun _ => ih

theorem leaves_none_learn_or_predict (hbase : Permutes base) (examples : List Nat) :
    LeavesNone (learn_or_predict base is_learn examples) := by
  refine bind (leaves_none_set_data (f := clear_all) fun _ => rfl) fun _ => ?_
  refine (leaves_none_split examples).bind fun split => ?_
  split
  swap
  · exact pure () fun _ h => h
  have hguarded : LeavesNone (learn_or_predict_guarded base is_learn examples) := by
    refine leaves_none_get.bind fun s => ?_
    split
    · exact throw_ _ fun _ h => h
    split
    · exact throw_ _ fun _ h => h
    have hslots : LeavesNone (learn_or_predict_slots base is_learn examples) := by
      refine bind (leaves_none_set_data ?_) fun _ => (leaves_none_at _ _).bind fun first => ?_
      · exact fun _ => rfl
      exact leaves_none_get.bind fun s => leaves_none_rounds is_learn hbase examples first _
    refine leaves_none_create_cb_labels.bind fun _ => hslots.scope_exit fun s h => ?_
    unfold delete_cb_labels
    cases s.data.shared with
    | none => exact h
    | some shared => exact h
  exact hguarded.scope_exit fun _ h => h

/-- Between two calls there are no examples of contextual bandits. -/
theorem Reached.cb_ex (hbase : Permutes base) {s : State B} (h : Reached base s) : s.data.cb_ex = [] := by
  induction h with
  | start no_pred heap b => rfl
  | @returned s s' is_learn examples h hrun ih =>
    have hleaves := leaves_none_learn_or_predict is_learn hbase examples s ih
    rwa [hrun] at hleaves
  | @threw s s' is_learn examples what h hrun ih =>
    have hleaves := leaves_none_learn_or_predict is_learn hbase examples s ih
    rwa [hrun] at hleaves
  | between heap b h ih => exact ih

end Reach

/-! ## Well-formed multi-examples -/

section Order

variable {base : BaseLearner B} {is_learn : Bool} {heap : Heap} {shared : Nat} {actions slots : List Nat}

theorem WellFormed.of_type (h : WellFormed is_learn heap shared actions slots) :
    of_type heap (shared :: (actions ++ slots)) .SHARED = [shared] ∧
      of_type heap (shared :: (actions ++ slots)) .ACTION = actions ∧
      of_type heap (shared :: (actions ++ slots)) .SLOT = slots := by
  have hall : ∀ {xs : List Nat} {type : CcbExampleType},
      (∀ ex ∈ xs, (heap ex).l.conditional_contextual_bandit.type = type) → ∀ type',
        Ccb.of_type heap xs type' = if type = type' then xs else [] := by
    intro xs type hxs type'
    unfold Ccb.of_type
    split
    · next heq => exact filter_eq_self.mpr fun ex hex => decide_eq_true ((hxs ex hex).trans heq)
    · next hne => exact filter_eq_nil_iff.mpr fun ex hex heq => hne ((hxs ex hex).symm.trans (of_decide_eq_true heq))
  have hsplit : ∀ type, Ccb.of_type heap (shared :: (actions ++ slots)) type =
      Ccb.of_type heap [shared] type ++ (Ccb.of_type heap actions type ++ Ccb.of_type heap slots type) := by
    intro type
    rw [of_type_cons, Ccb.of_type, Ccb.of_type, filter_append]
    rfl
  have hshared : ∀ ex ∈ [shared], (heap ex).l.conditional_contextual_bandit.type = .SHARED := by
    intro ex hex
    rw [mem_singleton.mp hex]
    exact h.shared_type
  refine ⟨?_, ?_, ?_⟩
  all_goals rw [hsplit, hall hshared, hall h.action_type, hall h.slot_type]
  · simp
  · simp
  · simp

theorem WellFormed.known (h : WellFormed is_learn heap shared actions slots) :
    ∀ l ∈ labels heap (shared :: (actions ++ slots)), l.type ≠ .UNSET := by
  intro l hl
  obtain ⟨ex, hex, rfl⟩ := mem_map.mp hl
  rcases mem_cons.mp hex with rfl | hex
  · rw [h.shared_type]
    exact (nomatch ·)
  rcases mem_append.mp hex with hex | hex
  · rw [h.action_type ex hex]
    exact (nomatch ·)
  · rw [h.slot_type ex hex]
    exact (nomatch ·)

/-- A base learner that ranks what it is offered makes decisions without repetitions: each lists
    different actions that its slot includes, and none that was at the top before. -/
theorem decisions_distinct (hbase : Permutes base) {s : State B} (hs : Reached base s)
    (hno_pred : s.data.no_pred = false)
    (hwell : WellFormed is_learn s.heap shared actions slots) :
    ∃ s' decisions, learn_or_predict base is_learn (shared :: (actions ++ slots)) s = .returned () s' ∧
      (s'.heap shared).pred.decision_scores = (s.heap shared).pred.decision_scores ++ decisions ∧
      decisions.length = slots.length ∧
      (∀ k slot decision, slots[k]? = some slot → decisions[k]? = some decision →
        Allowed actions.length (s.heap slot).l.conditional_contextual_bandit.explicit_included_actions
          (decisions.take k) decision) ∧
      (tops decisions).Nodup := by
  obtain ⟨hshared, hactions, hslots⟩ := hwell.of_type
  have hlabels : labels s.heap (shared :: (actions ++ slots)) =
      (s.heap shared).l.conditional_contextual_bandit :: (labels s.heap actions ++ labels s.heap slots) := by
    unfold labels
    rw [List.map_cons, map_append]
  -- the labels of the slots stand behind those of the shared example and of the actions
  have hlabel : ∀ k slot, slots[k]? = some slot →
      (labels s.heap (shared :: (actions ++ slots)))[1 + actions.length + k]? =
        some (s.heap slot).l.conditional_contextual_bandit := by
    intro k slot hslot
    rw [hlabels, show 1 + actions.length + k = (labels s.heap actions).length + k + 1 by
      rw [labels, length_map]; omega, getElem?_cons_succ, getElem?_append_right (Nat.le_add_right _ _),
      Nat.add_sub_cancel_left, labels, getElem?_map, hslot]
    rfl
  let label (k : Nat) : CcbLabel := (slots[k]?.map fun slot => (s.heap slot).l.conditional_contextual_bandit).getD {}
  have hslot_label : ∀ k slot, slots[k]? = some slot → label k = (s.heap slot).l.conditional_contextual_bandit := by
    intro k slot hslot
    show (slots[k]?.map _).getD _ = _
    rw [hslot]
    rfl
  have hfirst : (shared :: (actions ++ slots))[0]? = some shared := rfl
  obtain ⟨s', decisions, hrun, hranked, hscores⟩ :=
    learn_or_predict_finishes hbase hwell.nodup hwell.known hshared hfirst
    (by rw [hactions]; exact hwell.bound) (by rw [hactions, hslots]; exact hwell.enough) label
    (by
      rw [hactions, hslots]
      intro k hk
      have hslot := getElem?_eq_getElem hk
      rw [hlabel k _ hslot, hslot_label k _ hslot]
      exact ⟨rfl, hwell.readable _ (getElem_mem hk)⟩)
    (hs.cb_ex hbase) hno_pred
  rw [hactions, hslots] at hranked
  refine ⟨s', decisions, hrun, hscores, ?_, fun k slot decision hslot hdecision => ?_, hranked.nodup_tops⟩
  · rw [hranked.length_eq, length_map, length_range]
  · have hexplicit : ((List.range slots.length).map fun k => (label k).explicit_included_actions)[k]? =
        some (s.heap slot).l.conditional_contextual_bandit.explicit_included_actions := by
      rw [getElem?_map, getElem?_range (List.getElem?_eq_some_iff.mp hslot).1, Option.map_some,
        hslot_label k slot hslot]
    exact (hranked.allowed length_replicate hdecision hexplicit).1

end Order

/-! ## Two slots -/

/-- Ranks the actions as they are offered. -/
def rank_in_order : BaseLearner Unit := fun _ cb_ex s =>
  match cb_ex with
  | [] => .returned () s
  | shared :: actions =>
    .returned () (s.1, s.2.set_pred shared { (s.2 shared).pred with
      a_s := (range actions.length).map fun k => ⟨BitVec.ofNat 32 k, 0⟩ })

theorem permutes_rank_in_order : Permutes rank_in_order where
  no_throw is_learn cb_ex s what s' h := by
    cases cb_ex <;> cases h
  answer is_learn shared actions b heap _ hbound := by
    refine ⟨b, _, rfl, ?_, cb_set_pred heap shared shared _, fun ex => ?_⟩
    · rw [Heap.pred_set_pred, if_pos rfl, map_map]
      have hid : ∀ k ∈ range actions.length,
          ((fun a : ActionScore => a.action.toNat) ∘ fun k => ⟨BitVec.ofNat 32 k, 0⟩) k = id k := fun k hk =>
        Nat.mod_eq_of_lt (Nat.lt_of_lt_of_le (mem_range.mp hk) hbound)
      exact List.Perm.of_eq ((map_congr_left hid).trans (map_id _))
    · rw [Heap.pred_set_pred]
      split
      · next heq => rw [heq]
      · rfl

/-- A shared example, two actions and two slots; the second slot includes the first action only. -/
def two_slots : Heap := fun ex =>
  if ex = 0 then { l := { conditional_contextual_bandit := { type := .SHARED } } }
  else if ex ≤ 2 then { l := { conditional_contextual_bandit := { type := .ACTION } } }
  else if ex = 3 then { l := { conditional_contextual_bandit := { type := .SLOT } } }
  else { l := { conditional_contextual_bandit := { type := .SLOT, explicit_included_actions := [0] } } }

/-- The second slot is left with the second action when the first slot takes the first one. -/
theorem decisions_distinct_two_slots :
    ∃ s' decisions, learn_or_predict rank_in_order false [0, 1, 2, 3, 4]
      { data := {}, base := (), heap := two_slots } =
        .returned () s' ∧
      (s'.heap 0).pred.decision_scores = decisions ∧ decisions.length = 2 ∧ (tops decisions).Nodup := by
  have hwell : WellFormed false two_slots 0 [1, 2] [3, 4] :=
    { nodup := by decide
      shared_type := by decide
      action_type := by decide
      slot_type := by decide
      enough := by decide
      bound := by decide
      readable := fun slot _ hlearn => Bool.noConfusion hlearn }
  obtain ⟨s', decisions, hrun, hscores, hlength, -, hnodup⟩ :=
    decisions_distinct permutes_rank_in_order (Reached.start false two_slots ()) rfl hwell
  exact ⟨s', decisions, hrun, hscores, hlength, hnodup⟩

end VW.Ccb
