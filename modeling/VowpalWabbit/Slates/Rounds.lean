import VowpalWabbit.Slates.Numbering
import VowpalWabbit.Slates.Restored

/-! # The rounds of the slots

    In a round the base learner is offered the actions that the inclusions of the slot leave
    and that were not at the top for an earlier slot. What it answers is taken for positions
    among these, and becomes a decision in the numbering of the multi-example. A base learner
    that answers with positions that it was offered brings every round to its end.
-/

open Cpp Call.Finishes

namespace VW.Ccb

open List Call Function

variable {B : Type}

/-! ## Selecting the actions -/

/-- The actions below `i` that can be selected. -/
def selected (include_list exclude_list : List Bool) (i : Nat) : List Nat :=
  (List.range i).filter (selectable include_list exclude_list)

theorem selected_succ (include_list exclude_list : List Bool) (i : Nat) :
    selected include_list exclude_list (i + 1) = selected include_list exclude_list i ++
      if selectable include_list exclude_list i then [i] else [] := by
  unfold selected
  rw [range_succ, filter_append]
  congr 1
  by_cases h : selectable include_list exclude_list i = true
  · rw [if_pos h, filter_cons_of_pos h, filter_nil]
  · rw [if_neg h, filter_cons_of_neg h, filter_nil]

theorem length_selected_le (include_list exclude_list : List Bool) (i : Nat) :
    (selected include_list exclude_list i).length ≤ i :=
  Nat.le_trans (length_filter_le _ _) (Nat.le_of_eq length_range)

/-- A multi-example that was split: its first example, and what the reduction holds of it. -/
structure Parts where
  first : Nat
  shared : Nat
  actions : List Nat
  slots : List Nat
  stash : List CcbLabel

/-- What does not change between the rounds. -/
structure Fixed (m : Parts) (s : State B) : Prop where
  shared : s.data.shared = some m.shared
  actions : s.data.actions = m.actions
  slots : s.data.slots = m.slots
  stored_labels : s.data.stored_labels = m.stash
  no_pred : s.data.no_pred = false
  action_with_label : m.actions ≠ [] → s.data.action_with_label < m.actions.length
  header : ec_is_example_header_cb (s.heap m.shared) = true

/-- The exclusions and the decisions so far. -/
structure Decided (m : Parts) (excludes : List Bool) (scores : List (List ActionScore)) (s : State B) : Prop
    extends Fixed m s where
  exclude_list : s.data.exclude_list = excludes
  scores : (s.heap m.first).pred.decision_scores = scores

/-- Between two rounds. -/
structure Round (m : Parts) (excludes : List Bool) (scores : List (List ActionScore)) (s : State B) : Prop
    extends Decided m excludes scores s where
  cb_ex : s.data.cb_ex = []

/-- While the actions are selected: those below `i` so far. -/
structure Selecting (m : Parts) (includes excludes : List Bool) (scores : List (List ActionScore)) (i : Nat)
    (s : State B) : Prop extends Decided m excludes scores s where
  include_list : s.data.include_list = includes
  cb_ex : s.data.cb_ex = m.shared :: (selected includes excludes i).map fun k => m.actions.getD k 0
  origin_index : s.data.origin_index = (selected includes excludes i).map (BitVec.ofNat 32)

variable {heap : Heap} {label : CcbLabel}

section Select

variable {m : Parts}
  {includes excludes : List Bool} {scores : List (List ActionScore)} {is_learn : Bool} {ccb_label : CcbLabel}
  {T : State B → Prop}

/-- An outcome that is read has a probability. -/
def Readable (is_learn : Bool) (ccb_label : CcbLabel) : Prop :=
  is_learn = true → ∀ outcome ∈ ccb_label.outcome, outcome.probabilities ≠ []

variable {A' : Type} {i : Nat}

theorem at_bind_run {A : Type} {xs : List A} {a : A} (h : xs[i]? = some a)
    (f : A → Call (State B) A') (s : State B) :
    ((at_ xs i : Call (State B) A) >>= f) s = f a s := by
  unfold at_
  rw [h]
  rfl

theorem pointer_bind_run {p : Option Nat} {address : Nat} (h : p = some address)
    (f : Nat → Call (State B) A') (s : State B) :
    ((pointer p : Call (State B) Nat) >>= f) s = f address s := by
  unfold pointer
  rw [h]
  rfl

@[simp] theorem set_data_bind_run (g : CcbData → CcbData) (f : Unit → Call (State B) A')
    (s : State B) : (set_data g >>= f) s = f () { s with data := g s.data } := rfl

@[simp] theorem set_heap_bind_run (g : Heap → Heap) (f : Unit → Call (State B) A') (s : State B) :
    (set_heap g >>= f) s = f () { s with heap := g s.heap } := rfl

theorem pred_set_cb (heap : Heap) (a b : Nat) (label : CbLabel) : (heap.set_cb a label b).pred = (heap b).pred :=
  Heap.field_update_same heap a b (·.pred) rfl

theorem cb_set_pred (heap : Heap) (a b : Nat) (pred : PolyPrediction) :
    (heap.set_pred a pred b).l.cb = (heap b).l.cb := Heap.field_update_same heap a b (·.l.cb) rfl

/-- Only the contextual bandit label matters for the header. -/
theorem header_congr {ec ec' : MultiExample} (h : ec.l.cb = ec'.l.cb) :
    ec_is_example_header_cb ec = ec_is_example_header_cb ec' := by
  unfold ec_is_example_header_cb
  rw [h]

theorem header_set_pred {a : Nat} {pred : PolyPrediction} {b : Nat} :
    ec_is_example_header_cb (heap.set_pred a pred b) = ec_is_example_header_cb (heap b) :=
  header_congr (cb_set_pred heap a b pred)

/-- To clear the scores of an example leaves the decisions. -/
theorem decision_scores_clear (heap : Heap) (a b : Nat) :
    (heap.set_pred a { (heap a).pred with a_s := [] } b).pred.decision_scores = (heap b).pred.decision_scores := by
  rw [Heap.pred_set_pred]
  split
  · next heq => rw [heq]
  · rfl

/-- The label of another example does not matter for the header. -/
theorem header_set_cb {a b : Nat} {label : CbLabel} (hne : a ≠ b) :
    ec_is_example_header_cb (heap.set_cb a label b) = ec_is_example_header_cb (heap b) := by
  unfold Heap.set_cb
  rw [update_of_ne hne.symm]

variable {s : State B}

/-- What one more action adds. -/
theorem Selecting.select (h : Selecting m includes excludes scores i s)
    (hselectable : selectable includes excludes i = true) {action : Nat}
    (haction : m.actions[i]? = some action) :
    Selecting m includes excludes scores (i + 1) { s with data := { s.data with
      cb_ex := s.data.cb_ex ++ [action], origin_index := s.data.origin_index ++ [BitVec.ofNat 32 i] } } := by
  have hnext : selected includes excludes (i + 1) = selected includes excludes i ++ [i] := by
    rw [selected_succ, if_pos hselectable]
  refine { h with cb_ex := ?_, origin_index := ?_ }
  · show s.data.cb_ex ++ [action] = _
    rw [h.cb_ex, hnext, map_append, cons_append, map_singleton, getD_eq_getElem?_getD, haction]
    rfl
  · show s.data.origin_index ++ [BitVec.ofNat 32 i] = _
    rw [h.origin_index, hnext, map_append, map_singleton]

/-- The label of the chosen action. -/
theorem Selecting.attach {k : Nat} (h : Selecting m includes excludes scores i s)
    (hk : k < m.actions.length) {action : Nat} (hne : action ≠ m.shared) (label : CbLabel) :
    Selecting m includes excludes scores i
      { s with data := { s.data with action_with_label := k }, heap := s.heap.set_cb action label } :=
  { h with
    action_with_label := fun _ => hk
    header := (header_set_cb hne).trans h.header
    scores := (congrArg PolyPrediction.decision_scores (pred_set_cb s.heap action m.first label)).trans h.scores }

theorem select_action_finishes (hshared : m.shared ∉ m.actions)
    (hreadable : Readable is_learn ccb_label) (hi : i < m.actions.length) :
    Call.Finishes (select_action is_learn ccb_label i) (Selecting (B := B) m includes excludes scores i)
      (fun _ => Selecting m includes excludes scores (i + 1)) T := by
  intro s h
  unfold select_action
  rw [get_bind_run, h.include_list, h.exclude_list]
  have haction : m.actions[i]? = some m.actions[i] := getElem?_eq_getElem hi
  have hne : m.actions[i] ≠ m.shared := fun heq => hshared (heq ▸ getElem_mem hi)
  by_cases hselectable : selectable includes excludes i = true
  · have hnext := h.select hselectable haction
    rw [if_pos hselectable, h.actions, at_bind_run haction, set_data_bind_run]
    rcases is_learn with _ | _
    · exact hnext
    · rcases houtcome : ccb_label.outcome with _ | outcome
      · exact hnext
      · -- the chosen action gets the label
        obtain ⟨chosen, rest, hprobabilities⟩ := exists_cons_of_ne_nil (hreadable rfl outcome houtcome)
        dsimp only
        rw [at_bind_run (by rw [hprobabilities]; rfl)]
        split
        · exact hnext.attach hi hne _
        · exact hnext
  · have hnext : selected includes excludes (i + 1) = selected includes excludes i := by
      rw [selected_succ, if_neg hselectable, append_nil]
    rw [if_neg hselectable]
    exact { h with cb_ex := hnext ▸ h.cb_ex, origin_index := hnext ▸ h.origin_index }

theorem build_cb_example_finishes (hshared : m.shared ∉ m.actions) (hreadable : Readable is_learn ccb_label) :
    Call.Finishes (build_cb_example is_learn ccb_label) (Round (B := B) m excludes scores)
      (fun _ => Selecting m (included m.actions.length ccb_label.explicit_included_actions) excludes scores
        m.actions.length) T := by
  intro s h
  unfold build_cb_example
  rw [get_bind_run, pointer_bind_run h.shared, set_data_bind_run, h.actions]
  refine bind (for_range
    (I := Selecting m (included m.actions.length ccb_label.explicit_included_actions)
    excludes scores)
    fun i hi => select_action_finishes hshared hreadable hi)
    (fun _ => ?_) _ ?_
  · -- the scores of the header are cleared
    exact modify fun s' h' => { h' with
      header := header_set_pred.trans h'.header
      scores := (decision_scores_clear s'.heap m.shared m.first).trans h'.scores }
  · exact { h with
      actions := rfl
      include_list := rfl
      origin_index := rfl
      cb_ex := by
        rw [h.cb_ex]
        rfl }

/-! ## The answer -/

/-- A call for each element that does not change the state. -/
theorem mapM_returned {A : Type} {f : A → Call (State B) A'} {g : A → A'} {xs : List A}
    (h : ∀ x ∈ xs, f x s = .returned (g x) s) : xs.mapM f s = .returned (xs.map g) s := by
  induction xs with
  | nil => rfl
  | cons x xs ih =>
    rw [mapM_cons, Call.bind_run, h x mem_cons_self]
    dsimp only
    rw [Call.bind_run, ih fun y hy => h y (mem_cons_of_mem x hy)]
    rfl

/-- The action that a position stands for. -/
def original (positions : List Nat) (a : ActionScore) : ActionScore :=
  { a with action := BitVec.ofNat 32 (positions.getD a.action.toNat 0) }

/-- What an answer is like: not empty, with positions that were offered, and as `Answer` says. The
    header and the decisions of earlier slots are left as they are. -/
structure Offered (Answer : Nat → List ActionScore → Prop) (shared n : Nat) (heap heap' : Heap) : Prop where
  nonempty : (heap' shared).pred.a_s ≠ []
  offered : ∀ a ∈ (heap' shared).pred.a_s, a.action.toNat < n
  answer : Answer n (heap' shared).pred.a_s
  header : (heap' shared).l.cb = (heap shared).l.cb
  decisions : ∀ ex, (heap' ex).pred.decision_scores = (heap ex).pred.decision_scores

/-- A base learner that answers so when it is offered at most `bound` actions. -/
def Answers (base : BaseLearner B) (is_learn : Bool) (bound : Nat) (Answer : Nat → List ActionScore → Prop) : Prop :=
  ∀ shared actions b heap, actions ≠ [] → actions.length ≤ bound → ∃ b' heap',
    base is_learn (shared :: actions) (b, heap) = .returned () (b', heap') ∧
      Offered Answer shared actions.length heap heap'

/-- The decision for a slot that can choose from these positions. -/
def DecidedFrom (Answer : Nat → List ActionScore → Prop) (positions : List Nat)
    (decision : List ActionScore) : Prop :=
  (positions = [] ∧ decision = []) ∨ ∃ a_s, Answer positions.length a_s ∧ decision = a_s.map (original positions)

theorem save_action_scores_finishes {a_s : List ActionScore}
    (h : Selecting m includes excludes scores m.actions.length s)
    (ha_s : (s.heap m.shared).pred.a_s = a_s)
    (hoffered : ∀ a ∈ a_s, a.action.toNat < (selected includes excludes m.actions.length).length)
    (hne : a_s ≠ []) :
    ∃ s', save_action_scores_and_exclude_top_action m.first s = .returned () s' ∧
      Decided m (exclude_top_action excludes (a_s.map (original (selected includes excludes m.actions.length))))
        (scores ++ [a_s.map (original (selected includes excludes m.actions.length))]) s' := by
  obtain ⟨top, rest, htop⟩ := exists_cons_of_ne_nil hne
  unfold save_action_scores_and_exclude_top_action
  -- every position is one of those that were offered
  have hat : ∀ x ∈ a_s, (do
      let action ← at_ s.data.origin_indices x.action.toNat
      pure ({ x with action := action } : ActionScore) : Call (State B) ActionScore) s =
        .returned (original (selected includes excludes m.actions.length) x) s := by
    intro x hx
    have hlt := hoffered x hx
    have hget : s.data.origin_indices[x.action.toNat]? =
        some (BitVec.ofNat 32 ((selected includes excludes m.actions.length).getD x.action.toNat 0)) := by
      rw [CcbData.origin_indices, h.origin_index, getElem?_append_left (by rwa [length_map]),
        getElem?_map, getD_eq_getElem?_getD, getElem?_eq_getElem hlt]
      rfl
    rw [at_bind_run hget]
    rfl
  rw [get_bind_run, pointer_bind_run h.shared, ha_s, Call.bind_run, mapM_returned hat]
  dsimp only
  rw [at_bind_run (by rw [htop]; rfl), set_data_bind_run, set_heap_bind_run]
  refine ⟨_, rfl, { h with exclude_list := ?_, header := ?_, scores := ?_ }⟩
  · exact header_set_pred.trans (header_set_pred.trans h.header)
  · show s.data.exclude_list.set _ true = _
    rw [h.exclude_list, htop]
    rfl
  · refine (decision_scores_clear _ m.shared m.first).trans ?_
    rw [Heap.pred_set_pred, if_pos rfl, h.scores]

/-! ## A round -/

variable {base : BaseLearner B}

/-- The end of a round in which a decision was made. -/
theorem clear_label_finishes (hshared : m.shared ∉ m.actions) (h : Decided m excludes scores s)
    (hne : m.actions ≠ []) :
    ∃ s', (do
      let s ← Call.get
      let action ← at_ s.data.actions s.data.action_with_label
      set_heap fun heap => heap.set_cb action { (heap action).l.cb with costs := [] }
      set_data fun data => { data with cb_ex := [] } : Call (State B) Unit) s = .returned () s' ∧
        Round m excludes scores s' := by
  have hlt := h.action_with_label hne
  have haction : s.data.actions[s.data.action_with_label]? = some m.actions[s.data.action_with_label] := by
    rw [h.actions]
    exact getElem?_eq_getElem hlt
  have hne' : m.actions[s.data.action_with_label] ≠ m.shared := fun heq => hshared (heq ▸ getElem_mem hlt)
  rw [get_bind_run, at_bind_run haction]
  exact ⟨_, rfl, { h with
    header := (header_set_cb hne').trans h.header
    scores := (congrArg PolyPrediction.decision_scores (pred_set_cb s.heap _ m.first _)).trans h.scores
    cb_ex := rfl }⟩

/-- One round: the decision is made from what the slot can choose from. -/
theorem learn_or_predict_slot_finishes {Answer : Nat → List ActionScore → Prop}
    (hbase : Answers base is_learn m.actions.length Answer) (examples : List Nat)
    (hshared : m.shared ∉ m.actions) {slot_id : Nat}
    (hlabel : m.stash[1 + m.actions.length + slot_id]? = some label)
    (hreadable : Readable is_learn label) (h : Round m excludes scores s) :
    ∃ s' decision, learn_or_predict_slot base is_learn examples m.first slot_id s = .returned () s' ∧
      DecidedFrom Answer (available m.actions.length label.explicit_included_actions excludes) decision ∧
      Round m (exclude_top_action excludes decision) (scores ++ [decision]) s' := by
  unfold learn_or_predict_slot
  rw [get_bind_run, at_bind_run (by rw [h.stored_labels, h.actions]; exact hlabel)]
  have hbuild := build_cb_example_finishes (T := fun _ => False) hshared hreadable s h
  rw [Call.bind_run]
  generalize build_cb_example is_learn label s = built at hbuild ⊢
  rcases built with ⟨⟨⟩, s₁⟩ | ⟨what, s₁⟩ | _
  swap
  · exact hbuild.elim
  swap
  · exact hbuild.elim
  have hselecting : Selecting m _ excludes scores m.actions.length s₁ := hbuild
  dsimp only
  rw [get_bind_run, hselecting.cb_ex]
  rcases hempty : selected (included m.actions.length label.explicit_included_actions) excludes m.actions.length with
    _ | ⟨k, rest⟩
  · -- no action is left
    have hnone : has_action s₁.heap [m.shared] = false := by
      show (!ec_is_example_header_cb (s₁.heap m.shared)) = false
      rw [hselecting.header]
      rfl
    rw [map_nil, hnone, if_neg Bool.false_ne_true]
    refine ⟨_, [], rfl, .inl ⟨hempty, rfl⟩, { hselecting with cb_ex := rfl, header := ?_, scores := ?_ }⟩
    · exact header_set_pred.trans hselecting.header
    · show (s₁.heap.set_pred m.first _ m.first).pred.decision_scores = _
      rw [Heap.pred_set_pred, if_pos rfl, hselecting.scores]
  · -- the base learner ranks what is left
    have hsome : has_action s₁.heap (m.shared :: (k :: rest).map fun k => m.actions.getD k 0) = true := rfl
    have hle : ((k :: rest).map fun k => m.actions.getD k 0).length ≤ m.actions.length := by
      rw [length_map, ← hempty]
      exact length_selected_le _ _ _
    obtain ⟨b', heap', hcall, hanswer⟩ :=
      hbase m.shared ((k :: rest).map fun k => m.actions.getD k 0) s₁.base s₁.heap
      (cons_ne_nil _ _) hle
    rw [length_map, ← hempty] at hanswer
    have hcalled : call_base base is_learn (m.shared :: (k :: rest).map fun k => m.actions.getD k 0) s₁ =
        .returned () { s₁ with base := b', heap := heap' } := by
      unfold call_base
      rw [hcall]
    have hanswered : Selecting m (included m.actions.length label.explicit_included_actions) excludes scores
        m.actions.length { s₁ with base := b', heap := heap' } :=
      { hselecting with
        header := (header_congr hanswer.header).trans hselecting.header
        scores := (hanswer.decisions m.first).trans hselecting.scores }
    obtain ⟨s₂, hsave, hdecided⟩ := save_action_scores_finishes hanswered rfl hanswer.offered hanswer.nonempty
    have hactions : m.actions ≠ [] := by
      intro hnil
      rw [hnil] at hempty
      cases hempty
    obtain ⟨s₃, hclear, hround⟩ := clear_label_finishes hshared hdecided hactions
    refine ⟨s₃, _, ?_, .inr ⟨_, hanswer.answer, rfl⟩, hround⟩
    rw [hsome, if_pos rfl, Call.bind_run, hcalled]
    dsimp only
    rw [hselecting.no_pred, if_neg Bool.false_ne_true, Call.bind_run, hsave]
    exact hclear

end Select

/-! ## A call -/

/-- The examples of a type, by their labels. -/
def of_type (heap : Heap) (examples : List Nat) (type : CcbExampleType) : List Nat :=
  examples.filter fun ex => (heap ex).l.conditional_contextual_bandit.type = type

/-- What splitting a multi-example does. -/
structure SplitInto (examples : List Nat) (s s' : State B) : Prop where
  base : s'.base = s.base
  data : s'.data = { s.data with
    shared := (of_type s.heap examples .SHARED).getLast?.or s.data.shared
    actions := s.data.actions ++ of_type s.heap examples .ACTION
    slots := s.data.slots ++ of_type s.heap examples .SLOT
    stored_labels := s.data.stored_labels ++ labels s.heap examples }
  pred : ∀ ex, (s'.heap ex).pred = (s.heap ex).pred
  moved : ∀ ex ∈ examples, (s'.heap ex).l.conditional_contextual_bandit = CcbLabel.moved_from
  others : ∀ ex, ex ∉ examples →
    (s'.heap ex).l.conditional_contextual_bandit = (s.heap ex).l.conditional_contextual_bandit

theorem of_type_set_ccb {ex : Nat} {examples : List Nat} (hex : ex ∉ examples)
    (type : CcbExampleType) :
    of_type (heap.set_ccb ex label) examples type = of_type heap examples type := by
  refine filter_congr fun ex' hex' => ?_
  have hne : ex' ≠ ex := by
    rintro rfl
    exact hex hex'
  rw [Heap.ccb_set_ccb, if_neg hne]

theorem of_type_cons (heap : Heap) (ex : Nat) (examples : List Nat) (type : CcbExampleType) :
    of_type heap (ex :: examples) type = of_type heap [ex] type ++ of_type heap examples type :=
  filter_append [ex] examples

/-- One example of a known type. -/
theorem split_one {ex : Nat} (examples : List Nat) {s : State B}
    (htype : (s.heap ex).l.conditional_contextual_bandit.type ≠ .UNSET) :
    split_multi_example_and_stash_labels (ex :: examples) s =
      split_multi_example_and_stash_labels examples {
        base := s.base
        heap := s.heap.set_ccb ex CcbLabel.moved_from
        data := { s.data with
          shared := (of_type s.heap [ex] .SHARED).getLast?.or s.data.shared
          actions := s.data.actions ++ of_type s.heap [ex] .ACTION
          slots := s.data.slots ++ of_type s.heap [ex] .SLOT
          stored_labels := s.data.stored_labels ++ [(s.heap ex).l.conditional_contextual_bandit] } } := by
  rw [split_multi_example_and_stash_labels, get_bind_run]
  cases hlabel : (s.heap ex).l.conditional_contextual_bandit.type with
  | UNSET => exact absurd hlabel htype
  | SHARED =>
    simp only [set_data_bind_run, set_heap_bind_run, of_type, hlabel, filter_cons, filter_nil]
    simp
  | ACTION =>
    simp only [set_data_bind_run, set_heap_bind_run, of_type, hlabel, filter_cons, filter_nil]
    simp
  | SLOT =>
    simp only [set_data_bind_run, set_heap_bind_run, of_type, hlabel, filter_cons, filter_nil]
    simp

theorem split_into {examples : List Nat} (hnodup : examples.Nodup) {s : State B}
    (hknown : ∀ l ∈ labels s.heap examples, l.type ≠ .UNSET) :
    ∃ s', split_multi_example_and_stash_labels examples s = .returned true s' ∧ SplitInto examples s s' := by
  induction examples generalizing s with
  | nil =>
    refine ⟨s, rfl, rfl, ?_, fun _ => rfl, fun ex hex => (nomatch hex), fun _ _ => rfl⟩
    simp [of_type, labels]
  | cons ex examples ih =>
    rw [nodup_cons] at hnodup
    have hcons : labels s.heap (ex :: examples) =
        (s.heap ex).l.conditional_contextual_bandit :: labels s.heap examples := rfl
    rw [hcons, forall_mem_cons] at hknown
    rw [split_one examples hknown.1]
    have hlabels : labels (s.heap.set_ccb ex CcbLabel.moved_from) examples = labels s.heap examples :=
      labels_set_ccb_of_not_mem hnodup.1
    obtain ⟨s', hrun, hinto⟩ :=
      ih (s := { base := s.base, heap := s.heap.set_ccb ex CcbLabel.moved_from, data := _ })
      hnodup.2 (by rw [hlabels]; exact hknown.2)
    refine ⟨s', hrun, hinto.base, ?_, fun ex' => ?_, fun ex' hex' => ?_, fun ex' hex' => ?_⟩
    · rw [hinto.data]
      simp only [of_type_set_ccb hnodup.1, hlabels, of_type_cons s.heap ex examples, hcons, getLast?_append,
        Option.or_assoc, append_assoc, singleton_append]
    · rw [hinto.pred, Heap.pred_set_ccb]
    · by_cases hmem : ex' ∈ examples
      · exact hinto.moved ex' hmem
      · obtain rfl := (mem_cons.mp hex').resolve_right hmem
        rw [hinto.others ex' hmem, Heap.ccb_set_ccb, if_pos rfl]
    · rw [mem_cons, not_or] at hex'
      rw [hinto.others ex' hex'.2, Heap.ccb_set_ccb, if_neg hex'.1]

/-- Before the labels of contextual bandits are created. -/
structure Prepared (m : Parts) (scores : List (List ActionScore)) (s : State B) : Prop where
  shared : s.data.shared = some m.shared
  actions : s.data.actions = m.actions
  slots : s.data.slots = m.slots
  stored_labels : s.data.stored_labels = m.stash
  no_pred : s.data.no_pred = false
  action_with_label : s.data.action_with_label = 0
  cb_ex : s.data.cb_ex = []
  scores : (s.heap m.first).pred.decision_scores = scores

section Call

variable {m : Parts} {scores : List (List ActionScore)} {base : BaseLearner B} {is_learn : Bool} {T : State B → Prop}

theorem Prepared.set_cb {s : State B} (h : Prepared m scores s) (ex : Nat) (label : CbLabel) :
    Prepared m scores { s with heap := s.heap.set_cb ex label } :=
  { h with scores := (congrArg PolyPrediction.decision_scores (pred_set_cb s.heap ex m.first label)).trans h.scores }

theorem cb_set_cb (heap : Heap) (a : Nat) (label : CbLabel) : (heap.set_cb a label a).l.cb = label := by
  unfold Heap.set_cb
  rw [update_self]

theorem header_of_costs {ec : MultiExample} (h : ec.l.cb.costs = [{}]) : ec_is_example_header_cb ec = true := by
  unfold ec_is_example_header_cb
  rw [h]
  rfl

/-- The label of the shared example makes it a header. -/
theorem create_cb_labels_finishes (hshared : m.shared ∉ m.actions) :
    Call.Finishes create_cb_labels (Prepared (B := B) m scores)
      (fun _ s => Prepared m scores s ∧ ec_is_example_header_cb (s.heap m.shared) = true) T := by
  intro s h
  unfold create_cb_labels
  rw [get_bind_run, pointer_bind_run h.shared, set_heap_bind_run]
  refine bind (for_each (Q := fun s => Prepared m scores s ∧
    (s.heap m.shared).l.cb.costs = [{}]) fun action haction => ?_) (fun _ => ?_) _ ?_
  · refine modify fun s' h' => ⟨h'.1.set_cb action _, ?_⟩
    have hne : m.shared ≠ action := by
      rintro rfl
      exact hshared (h.actions ▸ haction)
    show (Function.update s'.heap action _ m.shared).l.cb.costs = _
    rw [update_of_ne hne]
    exact h'.2
  · refine modify fun s' h' => ⟨h'.1.set_cb m.shared _, header_of_costs ?_⟩
    rw [cb_set_cb]
    exact h'.2
  · exact ⟨h.set_cb m.shared _, congrArg CbLabel.costs (cb_set_cb s.heap m.shared _)⟩

end Call

/-! ## The loop over the slots -/

/-- A call that starts in `s` gets to the loop over the slots, in `s'`. -/
def Begins (is_learn : Bool) (examples : List Nat) (s s' : State B) : Prop :=
  ∃ s₁ s₂, split_multi_example_and_stash_labels examples ⟨clear_all s.data, s.heap, s.base⟩ = .returned true s₁ ∧
    ¬ s₁.data.actions.length < s₁.data.slots.length ∧
    ¬ (is_learn ∧ s₁.data.slots.any fun slot =>
      (s₁.heap slot).l.conditional_contextual_bandit.outcome.any (·.probabilities.isEmpty)) ∧
    create_cb_labels s₁ = .returned () s₂ ∧
    s' = { s₂ with data := { s₂.data with exclude_list := List.replicate s₂.data.actions.length false } }

/-- A call that starts in `s` gets to round `k` of the loop, in the state that follows. -/
inductive AtRound (base : BaseLearner B) (is_learn : Bool) (examples : List Nat) (s : State B) :
    Nat → State B → Prop where
  | first {s' : State B} (h : Begins is_learn examples s s') : AtRound base is_learn examples s 0 s'
  | next {k front : Nat} {s₁ s₂ : State B} (h : AtRound base is_learn examples s k s₁)
      (hfront : examples[0]? = some front) (hslot : k < s₁.data.slots.length)
      (hrun : learn_or_predict_slot base is_learn examples front k s₁ = .returned () s₂) :
      AtRound base is_learn examples s (k + 1) s₂

section Loop

variable {base : BaseLearner B} {is_learn : Bool} {examples : List Nat} {s s' : State B} {shared front : Nat}

/-- The rest of the call is the loop behind two guards. -/
theorem learn_or_predict_of_begins (h : Begins is_learn examples s s') (hfront : examples[0]? = some front) :
    learn_or_predict base is_learn examples s =
      Call.scope_exit (restore_labels examples) (Call.scope_exit delete_cb_labels
        (Call.for_each (learn_or_predict_slot base is_learn examples front)
          (List.range s'.data.slots.length))) s' := by
  obtain ⟨s₁, s₂, hsplit, henough, hvalid, hcreate, rfl⟩ := h
  have hslots : learn_or_predict_slots base is_learn examples s₂ =
      Call.for_each (learn_or_predict_slot base is_learn examples front) (List.range s₂.data.slots.length)
        { s₂ with data := { s₂.data with exclude_list := List.replicate s₂.data.actions.length false } } := by
    unfold learn_or_predict_slots
    rw [set_data_bind_run, at_bind_run hfront, get_bind_run]
  have hguarded : learn_or_predict_guarded base is_learn examples s₁ =
      Call.scope_exit delete_cb_labels (learn_or_predict_slots base is_learn examples) s₂ := by
    unfold learn_or_predict_guarded
    rw [get_bind_run, if_neg henough, if_neg hvalid, Call.bind_run, hcreate]
  rw [learn_or_predict_of_split hsplit, if_pos rfl]
  unfold Call.scope_exit at hguarded ⊢
  rw [hguarded, hslots]

/-- What was moved out of the slots cannot fail the check of their outcomes. -/
theorem begins_of_enough (is_learn : Bool) (front : Nat) (hnodup : examples.Nodup)
    (hknown : ∀ l ∈ labels s.heap examples, l.type ≠ .UNSET)
    (hone : of_type s.heap examples .SHARED = [shared])
    (henough : (of_type s.heap examples .SLOT).length ≤ (of_type s.heap examples .ACTION).length)
    (hcb_ex : s.data.cb_ex = []) (hno_pred : s.data.no_pred = false) :
    ∃ s', Begins is_learn examples s s' ∧ shared ∉ of_type s.heap examples .ACTION ∧
      Round ⟨front, shared, of_type s.heap examples .ACTION, of_type s.heap examples .SLOT, labels s.heap examples⟩
        (List.replicate (of_type s.heap examples .ACTION).length false) (s.heap front).pred.decision_scores s' := by
  obtain ⟨s₁, hsplit, hinto⟩ := split_into (s := ⟨clear_all s.data, s.heap, s.base⟩) hnodup hknown
  have hshared : shared ∉ of_type s.heap examples .ACTION := by
    intro hmem
    have htype : shared ∈ of_type s.heap examples .SHARED := hone ▸ mem_singleton_self shared
    have haction := of_decide_eq_true (mem_filter.mp hmem).2
    rw [of_decide_eq_true (mem_filter.mp htype).2] at haction
    cases haction
  have hprepared : Prepared ⟨front, shared, of_type s.heap examples .ACTION, of_type s.heap examples .SLOT,
      labels s.heap examples⟩ (s.heap front).pred.decision_scores s₁ := by
    have hdata := hinto.data
    refine ⟨?_, ?_, ?_, ?_, ?_, ?_, ?_, congrArg _ (hinto.pred front)⟩
    · rw [hdata]
      rw [hone]
      rfl
    all_goals rw [hdata]
    · rfl
    · rfl
    · rfl
    · exact hno_pred
    · rfl
    · exact hcb_ex
  have hvalid : ¬ (is_learn ∧ s₁.data.slots.any fun slot =>
      (s₁.heap slot).l.conditional_contextual_bandit.outcome.any (·.probabilities.isEmpty)) := by
    rintro ⟨-, hany⟩
    rw [hprepared.slots, any_eq_true] at hany
    obtain ⟨slot, hslot, hoption⟩ := hany
    rw [hinto.moved slot (mem_filter.mp hslot).1] at hoption
    cases hoption
  have hcreate := create_cb_labels_finishes (T := fun _ => False) hshared s₁ hprepared
  generalize hrun : create_cb_labels s₁ = created at hcreate
  rcases created with ⟨⟨⟩, s₂⟩ | ⟨what, s₂⟩ | _
  swap
  · exact hcreate.elim
  swap
  · exact hcreate.elim
  obtain ⟨hprepared₂, hheader⟩ : Prepared _ _ s₂ ∧ ec_is_example_header_cb (s₂.heap shared) = true := hcreate
  refine ⟨_, ⟨s₁, s₂, hsplit, ?_, hvalid, hrun, rfl⟩, hshared, { hprepared₂ with
    header := hheader
    action_with_label := fun hne => ?_
    exclude_list := ?_ }⟩
  · rw [hprepared.actions, hprepared.slots]
    exact Nat.not_lt.mpr henough
  · show s₂.data.action_with_label < _
    rw [hprepared₂.action_with_label]
    exact length_pos_iff.mpr hne
  · show List.replicate s₂.data.actions.length false = _
    rw [hprepared₂.actions]

end Loop

end VW.Ccb
