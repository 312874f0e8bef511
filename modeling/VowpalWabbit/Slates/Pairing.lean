import VowpalWabbit.Slates.Decisions

/-! # The labels of the slots

    A round takes the label of its slot from the stash, where labels stand in the order of the
    multi-example, at the place that it has when the shared example is followed by all actions
    and then by the slots. Nothing checks that order. The outcomes of the slots are checked
    when the labels are in the stash already, so that none is found to be without probabilities.
-/

open Cpp Nat

namespace VW.Ccb

open List

variable {B : Type}

/-! ## What is said of labels -/

/-- A label that says of a slot what its own label says. -/
structure SameSlot (label own : CcbLabel) : Prop where
  included : label.explicit_included_actions = own.explicit_included_actions
  outcome : label.outcome = own.outcome

/-- The label that a round uses. -/
def round_label (s : State B) (slot_id : Nat) : Option CcbLabel :=
  s.data.stored_labels[1 + s.data.actions.length + slot_id]?

/-- The outcome of a slot lists no probability. -/
def MissingProbability (heap : Heap) (examples : List Nat) : Prop :=
  ∃ slot ∈ of_type heap examples .SLOT,
    ∃ outcome ∈ (heap slot).l.conditional_contextual_bandit.outcome, outcome.probabilities = []

/-- Whatever the base learner and the reduction did before, a call throws or uses in each round
    the label of the slot. A slot without a probability is refused before the rounds begin. -/
structure PairsLabels (is_learn : Bool) (heap : Heap) (examples : List Nat) : Prop where
  own_label : ∀ (B : Type) (base : BaseLearner B) (data : CcbData) (b : B),
    (∃ what s', learn_or_predict base is_learn examples ⟨data, heap, b⟩ = .threw what s') ∨
      ∀ k slot s', (of_type heap examples .SLOT)[k]? = some slot →
        AtRound base is_learn examples ⟨data, heap, b⟩ k s' →
          ∃ label, round_label s' k = some label ∧ SameSlot label (heap slot).l.conditional_contextual_bandit
  refused : is_learn = true → MissingProbability heap examples →
    ∀ (B : Type) (base : BaseLearner B) (data : CcbData) (b : B),
      (∃ s', learn_or_predict base is_learn examples ⟨data, heap, b⟩ =
        .threw "ccb_adf_explore: badly formatted example - missing label probability" s') ∧
      ∀ s', ¬ Begins is_learn examples ⟨data, heap, b⟩ s'

/-- There are too many slots, or the labels of the slots, or labels like them, stand where those
    of the slots are expected; and no slot that is learned from is without a probability. -/
structure LabelsInPlace (is_learn : Bool) (heap : Heap) (examples : List Nat) : Prop where
  in_place : (of_type heap examples .ACTION).length < (of_type heap examples .SLOT).length ∨
    ∀ k slot ex, (of_type heap examples .SLOT)[k]? = some slot →
      examples[1 + (of_type heap examples .ACTION).length + k]? = some ex →
        SameSlot (heap ex).l.conditional_contextual_bandit (heap slot).l.conditional_contextual_bandit
  probabilities : ¬ (is_learn = true ∧ MissingProbability heap examples)

/-! ## How many there are -/

theorem length_eq_of_known {heap : Heap} {examples : List Nat}
    (hknown : ∀ l ∈ labels heap examples, l.type ≠ .UNSET) :
    examples.length = (of_type heap examples .SHARED).length + (of_type heap examples .ACTION).length +
      (of_type heap examples .SLOT).length := by
  induction examples with
  | nil => rfl
  | cons ex examples ih =>
    have hcons : labels heap (ex :: examples) =
        (heap ex).l.conditional_contextual_bandit :: labels heap examples := rfl
    rw [hcons, forall_mem_cons] at hknown
    have hrest := ih hknown.2
    simp only [of_type_cons heap ex examples, length_append, length_cons]
    have hone : (of_type heap [ex] .SHARED).length + (of_type heap [ex] .ACTION).length +
        (of_type heap [ex] .SLOT).length = 1 := by
      unfold of_type
      cases htype : (heap ex).l.conditional_contextual_bandit.type with
      | UNSET => exact absurd htype hknown.1
      | SHARED => simp [htype]
      | ACTION => simp [htype]
      | SLOT => simp [htype]
    omega

section Multi

variable {base : BaseLearner B} {is_learn : Bool} {heap : Heap} {examples : List Nat} {shared : Nat}

/-- Behind one shared example and the actions there is room for the slots. -/
theorem exists_in_place (hknown : ∀ l ∈ labels heap examples, l.type ≠ .UNSET)
    (hone : of_type heap examples .SHARED = [shared]) {k : Nat} (hk : k < (of_type heap examples .SLOT).length) :
    ∃ ex, examples[1 + (of_type heap examples .ACTION).length + k]? = some ex := by
  have hlength := length_eq_of_known hknown
  rw [hone, length_singleton] at hlength
  exact ⟨_, getElem?_eq_getElem (by omega)⟩

theorem labels_getElem? {i ex : Nat} (h : examples[i]? = some ex) :
    (labels heap examples)[i]? = some (heap ex).l.conditional_contextual_bandit := by
  unfold labels
  rw [getElem?_map, h]
  rfl

/-- Where all slots stand last, they stand in place. -/
theorem in_place_of_slots_last (hknown : ∀ l ∈ labels heap examples, l.type ≠ .UNSET)
    (hone : of_type heap examples .SHARED = [shared]) {before slots : List Nat}
    (hexamples : examples = before ++ slots)
    (hbefore : ∀ ex ∈ before, (heap ex).l.conditional_contextual_bandit.type ≠ .SLOT)
    (hslots : ∀ ex ∈ slots, (heap ex).l.conditional_contextual_bandit.type = .SLOT) {k slot ex : Nat}
    (hslot : (of_type heap examples .SLOT)[k]? = some slot)
    (hex : examples[1 + (of_type heap examples .ACTION).length + k]? = some ex) : ex = slot := by
  have hlast : of_type heap examples .SLOT = slots := by
    rw [hexamples, of_type, filter_append,
      filter_eq_nil_iff.mpr fun ex hex heq => hbefore ex hex (of_decide_eq_true heq),
      filter_eq_self.mpr fun ex hex => decide_eq_true (hslots ex hex), nil_append]
  have hlength := length_eq_of_known hknown
  rw [hone, hlast, length_singleton] at hlength
  have hbehind : 1 + (of_type heap examples .ACTION).length = before.length := by
    rw [hexamples, length_append] at hlength
    rw [hexamples]
    omega
  rw [hlast] at hslot
  rw [hbehind, hexamples, getElem?_append_right (Nat.le_add_right _ _), Nat.add_sub_cancel_left, hslot] at hex
  exact (Option.some.inj hex).symm

/-! ## The rounds that are reached -/

/-- What the rounds leave is what splitting the multi-example gave. -/
theorem AtRound.lasting (hnodup : examples.Nodup) {s s' : State B}
    (hknown : ∀ l ∈ labels s.heap examples, l.type ≠ .UNSET) {k : Nat} (h : AtRound base is_learn examples s k s') :
    s'.data.stored_labels = labels s.heap examples ∧ s'.data.actions = of_type s.heap examples .ACTION := by
  obtain ⟨s₁, hsplit, hinto⟩ := split_into (s := ⟨clear_all s.data, s.heap, s.base⟩) hnodup hknown
  have hlasting : s'.data.lasting = s₁.data.lasting := by
    induction h with
    | first h =>
      obtain ⟨s₁', s₂, hsplit', -, -, hcreate, rfl⟩ := h
      obtain ⟨-, rfl⟩ := Ending.returned.inj (hsplit.symm.trans hsplit')
      have hkeeps := keeps_create_cb_labels (B := B) s₁.data.lasting s₁ rfl
      rw [hcreate] at hkeeps
      exact hkeeps
    | @next k front s₁' s₂ h hfront hslot hrun ih =>
      have hkeeps := @keeps_learn_or_predict_slot B base is_learn examples front k s₁.data.lasting s₁' ih
      rw [hrun] at hkeeps
      exact hkeeps
  have hdata := hinto.data
  refine ⟨(congrArg CcbData.stored_labels hlasting).trans ?_, (congrArg CcbData.actions hlasting).trans ?_⟩
  · show s₁.data.stored_labels = _
    rw [hdata]
    rfl
  · show s₁.data.actions = _
    rw [hdata]
    rfl

/-- Rounds whose labels can be read lead to the next one. -/
theorem reaches_round {m : Parts} {Answer : Nat → List ActionScore → Prop}
    (hbase : Answers base is_learn m.actions.length Answer) (hfront : examples[0]? = some m.first)
    (hshared : m.shared ∉ m.actions) {s s₀ : State B} (hbegins : Begins is_learn examples s s₀)
    {excludes : List Bool}
    {scores : List (List ActionScore)} (hround : Round m excludes scores s₀) {k : Nat} (hk : k ≤ m.slots.length)
    (hlabel : ∀ j < k, ∃ label, m.stash[1 + m.actions.length + j]? = some label ∧ Readable is_learn label) :
    ∃ s' excludes' scores', AtRound base is_learn examples s k s' ∧ Round m excludes' scores' s' := by
  induction k with
  | zero => exact ⟨s₀, excludes, scores, .first hbegins, hround⟩
  | succ k ih =>
    obtain ⟨s₁, excludes₁, scores₁, hat, hround₁⟩ :=
      ih (le_of_succ_le hk) fun j hj => hlabel j (lt_succ_of_lt hj)
    obtain ⟨label, hstash, hreadable⟩ := hlabel k (lt_succ_self k)
    obtain ⟨s₂, decision, hrun, -, hround₂⟩ :=
      learn_or_predict_slot_finishes hbase examples hshared hstash hreadable hround₁
    refine ⟨s₂, _, _, .next hat hfront ?_ hrun, hround₂⟩
    rw [hround₁.slots]
    exact hk

/-! ## What is thrown -/

/-- Behind the checks only the base learner can throw. -/
theorem not_threw_of_begins (hbase : Permutes base) {s s' : State B}
    (h : Begins is_learn examples s s') {front : Nat}
    (hfront : examples[0]? = some front) (what : String) (t : State B) :
    learn_or_predict base is_learn examples s ≠ .threw what t := by
  intro hrun
  have hloop : Call.Quiet (Call.for_each (learn_or_predict_slot base is_learn examples front)
      (range s'.data.slots.length)) (fun _ => True) fun _ _ => True := by
    refine Call.Quiet.for_each (fun slot_id s _ => ?_) _
    have hslot := learn_or_predict_slot_quiet is_learn hbase examples front slot_id s trivial
    cases hrun : learn_or_predict_slot base is_learn examples front slot_id s with
    | returned a s' => trivial
    | threw what s' =>
      rw [hrun] at hslot
      exact hslot.elim
    | undefined => trivial
  have hdeleted : Call.Quiet (Call.scope_exit delete_cb_labels (Call.for_each
      (learn_or_predict_slot base is_learn examples front) (range s'.data.slots.length)))
      (fun _ => True) fun _ _ => True := hloop.scope_exit fun _ _ _ => trivial
  have hquiet : Call.Quiet (Call.scope_exit (restore_labels examples) (Call.scope_exit delete_cb_labels
      (Call.for_each (learn_or_predict_slot base is_learn examples front) (range s'.data.slots.length))))
      (fun _ => True) fun _ _ => True := hdeleted.scope_exit fun _ _ _ => trivial
  have hend := hquiet s' trivial
  rw [← learn_or_predict_of_begins h hfront, hrun] at hend
  exact hend

/-- The text about the number of actions. -/
def number_of_actions (actions slots : Nat) : String :=
  "ccb_adf_explore: badly formatted example - number of actions " ++ toString actions ++
    " must be greater than or equal to the number of slots " ++ toString slots

/-- A text that differs from another one within its first part. -/
theorem text_ne {p t : String} (i : Nat) (hi : i < p.toList.length) (hne : p.toList[i]? ≠ t.toList[i]?)
    (a q b : String) : p ++ a ++ q ++ b ≠ t := by
  rintro rfl
  rw [String.toList_append, String.toList_append, String.toList_append, append_assoc, append_assoc,
    getElem?_append_left hi] at hne
  exact hne rfl

/-- The two texts differ behind the dash. -/
theorem number_of_actions_ne (actions slots : Nat) :
    number_of_actions actions slots ≠ "ccb_adf_explore: badly formatted example - missing label probability" :=
  text_ne 43 (by decide +kernel) (by decide +kernel) _ _ _

theorem threw_of_too_many (base : BaseLearner B) (is_learn : Bool) (hnodup : examples.Nodup) {s : State B}
    (hknown : ∀ l ∈ labels s.heap examples, l.type ≠ .UNSET)
    (h : (of_type s.heap examples .ACTION).length < (of_type s.heap examples .SLOT).length) :
    ∃ s', learn_or_predict base is_learn examples s = .threw (number_of_actions
      (of_type s.heap examples .ACTION).length (of_type s.heap examples .SLOT).length) s' := by
  obtain ⟨s₁, hsplit, hinto⟩ := split_into (s := ⟨clear_all s.data, s.heap, s.base⟩) hnodup hknown
  have hactions : s₁.data.actions = of_type s.heap examples .ACTION := by
    rw [hinto.data]
    rfl
  have hslots : s₁.data.slots = of_type s.heap examples .SLOT := by
    rw [hinto.data]
    rfl
  have hguarded : learn_or_predict_guarded base is_learn examples s₁ = .threw (number_of_actions
      (of_type s.heap examples .ACTION).length (of_type s.heap examples .SLOT).length) s₁ := by
    unfold learn_or_predict_guarded
    rw [Call.get_bind_run, hactions, hslots, if_pos h]
    rfl
  refine ⟨restore_labels examples s₁, ?_⟩
  rw [learn_or_predict_of_split hsplit, if_pos rfl]
  unfold Call.scope_exit
  rw [hguarded]

/-- To rank in order is to answer with positions that were offered. -/
theorem answers_rank_in_order {bound : Nat} : Answers rank_in_order is_learn bound fun _ _ => True := by
  intro shared actions b heap hne _
  have hpred : ∀ ex, (heap.set_pred shared { (heap shared).pred with
      a_s := (range actions.length).map fun k => ⟨BitVec.ofNat 32 k, 0⟩ } ex).pred.decision_scores =
        (heap ex).pred.decision_scores := by
    intro ex
    rw [Heap.pred_set_pred]
    split
    · next heq => rw [heq]
    · rfl
  refine ⟨b, _, rfl, ?_, fun a ha => ?_, trivial, cb_set_pred heap shared shared _, hpred⟩
  · rw [Heap.pred_set_pred, if_pos rfl]
    intro hnil
    rw [map_eq_nil_iff, range_eq_nil, length_eq_zero_iff] at hnil
    exact hne hnil
  · rw [Heap.pred_set_pred, if_pos rfl, mem_map] at ha
    obtain ⟨k, hk, rfl⟩ := ha
    exact lt_of_le_of_lt (mod_le k _) (mem_range.mp hk)

/-! ## When labels are paired with slots -/

/-- The labels are paired with the slots exactly when those that are taken say what those of the
    slots say, and none that is learned from lacks a probability. -/
theorem pairs_labels_iff (hnodup : examples.Nodup) (hknown : ∀ l ∈ labels heap examples, l.type ≠ .UNSET)
    (hone : of_type heap examples .SHARED = [shared]) :
    PairsLabels is_learn heap examples ↔ LabelsInPlace is_learn heap examples := by
  obtain ⟨front, hfront⟩ : ∃ front, examples[0]? = some front := by
    cases examples with
    | nil => cases hone
    | cons ex examples => exact ⟨ex, rfl⟩
  constructor
  · intro h
    have hprobabilities : ¬ (is_learn = true ∧ MissingProbability heap examples) := by
      rintro ⟨hlearn, hmissing⟩
      obtain ⟨⟨s', hrun⟩, -⟩ := h.refused hlearn hmissing Unit rank_in_order {} ()
      rcases lt_or_ge (of_type heap examples .ACTION).length
        (of_type heap examples .SLOT).length with hmany | henough
      · obtain ⟨t, hthrew⟩ := threw_of_too_many rank_in_order is_learn (s := ⟨{}, heap, ()⟩) hnodup hknown hmany
        exact number_of_actions_ne _ _ (Ending.threw.inj (hthrew.symm.trans hrun)).1
      · obtain ⟨s₀, hbegins, -⟩ := begins_of_enough (s := ⟨{}, heap, ()⟩) is_learn front hnodup hknown hone henough
          rfl rfl
        exact not_threw_of_begins permutes_rank_in_order hbegins hfront _ _ hrun
    refine ⟨?_, hprobabilities⟩
    rcases lt_or_ge (of_type heap examples .ACTION).length (of_type heap examples .SLOT).length with hmany | henough
    · exact .inl hmany
    obtain ⟨s₀, hbegins, hshared, hround⟩ := begins_of_enough (s := ⟨{}, heap, ()⟩) is_learn front hnodup hknown hone
      henough rfl rfl
    refine .inr fun k => ?_
    -- up to the first label out of place all rounds are reached
    induction k using Nat.strong_induction_on with
    | h k ih =>
      intro slot ex hslot hex
      have hk : k < (of_type heap examples .SLOT).length := (List.getElem?_eq_some_iff.mp hslot).1
      obtain ⟨s', excludes', scores', hat, hround'⟩ := reaches_round (k := k) answers_rank_in_order hfront hshared
        hbegins hround (le_of_lt hk) fun j hj => by
          have hslot' := getElem?_eq_getElem (lt_trans hj hk)
          obtain ⟨ex', hex'⟩ := exists_in_place hknown hone (lt_trans hj hk)
          refine ⟨_, labels_getElem? hex', fun hlearn outcome houtcome hnil => hprobabilities ⟨hlearn, ?_⟩⟩
          rw [(ih j hj _ ex' hslot' hex').outcome] at houtcome
          exact ⟨_, getElem_mem _, outcome, houtcome, hnil⟩
      rcases h.own_label Unit rank_in_order {} () with ⟨what, t, hthrew⟩ | hrounds
      · exact absurd hthrew (not_threw_of_begins permutes_rank_in_order hbegins hfront what t)
      obtain ⟨label, hlabel, hsame⟩ := hrounds k slot s' hslot hat
      unfold round_label at hlabel
      rw [hround'.stored_labels, hround'.actions, labels_getElem? hex] at hlabel
      obtain rfl := Option.some.inj hlabel
      exact hsame
  · intro h
    refine ⟨fun B base data b => ?_, fun hlearn hmissing => absurd ⟨hlearn, hmissing⟩ h.probabilities⟩
    rcases h.in_place with hmany | hplace
    · obtain ⟨t, hthrew⟩ := threw_of_too_many base is_learn (s := ⟨data, heap, b⟩) hnodup hknown hmany
      exact .inl ⟨_, t, hthrew⟩
    · refine .inr fun k slot s' hslot hat => ?_
      obtain ⟨hstored, hactions⟩ := hat.lasting hnodup hknown
      obtain ⟨ex, hex⟩ := exists_in_place hknown hone (List.getElem?_eq_some_iff.mp hslot).1
      refine ⟨_, ?_, hplace k slot ex hslot hex⟩
      unfold round_label
      rw [hstored, hactions, labels_getElem? hex]

end Multi

/-- For the multi-example of two slots the labels are those of the slots. -/
theorem pairs_labels_two_slots : PairsLabels true two_slots [0, 1, 2, 3, 4] := by
  have hknown : ∀ l ∈ labels two_slots [0, 1, 2, 3, 4], l.type ≠ .UNSET := by decide
  have hone : of_type two_slots [0, 1, 2, 3, 4] .SHARED = [0] := by decide
  refine (pairs_labels_iff (by decide) hknown hone).mpr ⟨.inr fun k slot ex hslot hex => ?_, ?_⟩
  · have hlast : [0, 1, 2, 3, 4] = [0, 1, 2] ++ [3, 4] := rfl
    rw [in_place_of_slots_last hknown hone hlast (by decide) (by decide) hslot hex]
    exact ⟨rfl, rfl⟩
  · rintro ⟨-, slot, hslot, outcome, houtcome, -⟩
    have hnone : ∀ slot ∈ of_type two_slots [0, 1, 2, 3, 4] .SLOT,
        (two_slots slot).l.conditional_contextual_bandit.outcome = none := by decide
    rw [hnone slot hslot] at houtcome
    cases houtcome

/-! ## Two multi-examples that go wrong -/

/-- The slot, which includes the first action only, stands before the action. -/
def slot_before_action : Heap := fun ex =>
  if ex = 0 then { l := { conditional_contextual_bandit := { type := .SHARED } } }
  else if ex = 1 then
    { l := { conditional_contextual_bandit := { type := .SLOT, explicit_included_actions := [0] } } }
  else { l := { conditional_contextual_bandit := { type := .ACTION } } }

/-- The outcome of the slot has a cost and lists nothing. -/
def no_probability : Heap := fun ex =>
  if ex = 0 then { l := { conditional_contextual_bandit := { type := .SHARED } } }
  else if ex = 1 then { l := { conditional_contextual_bandit := { type := .ACTION } } }
  else { l := { conditional_contextual_bandit := { type := .SLOT, outcome := some {} } } }

/-- The slot is processed with the label of the action; the outcome is not refused. -/
theorem labels_not_paired :
    ¬ PairsLabels false slot_before_action [0, 1, 2] ∧ ¬ PairsLabels true no_probability [0, 1, 2] := by
  constructor
  · intro h
    obtain ⟨s₀, hbegins, -, hround⟩ := begins_of_enough (s := ⟨{}, slot_before_action, ()⟩) false 0
      (by decide : [0, 1, 2].Nodup) (by decide)
        (by decide : of_type slot_before_action _ .SHARED = [0]) (by decide) rfl
      rfl
    rcases h.own_label Unit rank_in_order {} () with ⟨what, t, hthrew⟩ | hrounds
    · exact not_threw_of_begins permutes_rank_in_order hbegins rfl what t hthrew
    obtain ⟨label, hlabel, hsame⟩ := hrounds 0 1 s₀ (by decide) (.first hbegins)
    unfold round_label at hlabel
    rw [hround.stored_labels, hround.actions] at hlabel
    have haction : some { type := .ACTION } = some label := hlabel
    obtain rfl := Option.some.inj haction
    exact absurd hsame.included (by decide)
  · intro h
    obtain ⟨s₀, hbegins, -⟩ := begins_of_enough (s := ⟨{}, no_probability, ()⟩) true 0
      (by decide : [0, 1, 2].Nodup) (by decide) (by decide : of_type no_probability _ .SHARED = [0])
        (by decide) rfl rfl
    have hmissing : MissingProbability no_probability [0, 1, 2] := ⟨2, by decide, {}, rfl, rfl⟩
    obtain ⟨⟨s', hrun⟩, -⟩ := h.refused rfl hmissing Unit rank_in_order {} ()
    exact not_threw_of_begins permutes_rank_in_order hbegins rfl _ _ hrun

end VW.Ccb
