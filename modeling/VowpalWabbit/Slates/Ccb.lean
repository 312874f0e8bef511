import VowpalWabbit.Slates.Labels

/-! # The reduction of conditional contextual bandits

    `ccb_explore_adf`: the labels of a multi-example are stashed and replaced by those of
    contextual bandits, the base learner is called once for each slot with the actions that
    are left for it, and two guards put the labels back.

    The members of `ccb_data` outlive a call, the pointers in them included. Features, tags
    and counts of features are left out.
-/

open Cpp Call

namespace VW.Ccb

structure CcbData where
  shared : Option Nat := none
  actions : List Nat := []
  slots : List Nat := []
  origin_index : List (BitVec 32) := []
  exclude_list : List Bool := []
  include_list : List Bool := []
  stored_labels : List CcbLabel := []
  action_with_label : Nat := 0
  cb_ex : List Nat := []
  no_pred : Bool := false

/-- The state of a call: the reduction, the examples and the base learner. -/
structure State (B : Type) where
  data : CcbData
  heap : Heap
  base : B

variable {B : Type}

/-- A change of the reduction alone. -/
def set_data (f : CcbData → CcbData) : Call (State B) Unit :=
  modify fun s => { s with data := f s.data }

/-- A change of the examples alone. -/
def set_heap (f : Heap → Heap) : Call (State B) Unit :=
  modify fun s => { s with heap := f s.heap }

/-- `vector[i]`, unchecked. -/
def at_ {A : Type} (xs : List A) (i : Nat) : Call (State B) A :=
  match xs[i]? with
  | some x => pure x
  | none => undefined

/-- The example a pointer points to. -/
def pointer (p : Option Nat) : Call (State B) Nat :=
  match p with
  | some address => pure address
  | none => undefined

def clear_all (data : CcbData) : CcbData :=
  { data with shared := none, actions := [], slots := [], action_with_label := 0, stored_labels := [] }

/-- `split_multi_example_and_stash_labels`: `false` at an example of no known type. -/
def split_multi_example_and_stash_labels : List Nat → Call (State B) Bool
  | [] => pure true
  | ex :: examples => do
    let s ← get
    let label := (s.heap ex).l.conditional_contextual_bandit
    match label.type with
    | .UNSET => pure false
    | type => do
      set_data fun data =>
        match type with
        | .SHARED => { data with shared := some ex }
        | .ACTION => { data with actions := data.actions ++ [ex] }
        | _ => { data with slots := data.slots ++ [ex] }
      -- the label is moved out
      set_data fun data => { data with stored_labels := data.stored_labels ++ [label] }
      set_heap fun heap => heap.set_ccb ex CcbLabel.moved_from
      split_multi_example_and_stash_labels examples

def create_cb_labels : Call (State B) Unit := do
  let s ← get
  let shared ← pointer s.data.shared
  set_heap fun heap => heap.set_cb shared { (heap shared).l.cb with costs := [{}] }
  for_each (fun action =>
    set_heap fun heap => heap.set_cb action { (heap action).l.cb with costs := [] }) s.data.actions
  set_heap fun heap => heap.set_cb shared { (heap shared).l.cb with weight := Single.one }

def delete_cb_labels (s : State B) : State B :=
  match s.data.shared with
  | none => s
  | some shared =>
    let clear (heap : Heap) (ex : Nat) : Heap :=
      heap.set_cb ex { (heap ex).l.cb with costs := [] }
    { s with heap := (shared :: s.data.actions).foldl clear s.heap }

/-- The restoring guard of `learn_or_predict`. -/
def restore_labels (examples : List Nat) (s : State B) : State B :=
  let restore (heap : Heap) (p : Nat × CcbLabel) : Heap := heap.set_ccb p.1 p.2
  { s with heap := (examples.zip s.data.stored_labels).foldl restore s.heap }

/-- `include_list` after the actions that a label includes. -/
def included (n : Nat) (explicit_includes : List (BitVec 32)) : List Bool :=
  if explicit_includes = [] then []
  else explicit_includes.foldl (fun list id => if id.toNat < n then list.set id.toNat true else list)
    (List.replicate n false)

/-- Action `i` is among those that a slot can choose from. -/
def selectable (include_list exclude_list : List Bool) (i : Nat) : Bool :=
  (include_list.isEmpty || include_list.getD i false) && !exclude_list.getD i false

/-- The indices of the actions that a slot can choose from. -/
def available (n : Nat) (explicit_includes : List (BitVec 32)) (exclude_list : List Bool) : List Nat :=
  (List.range n).filter (selectable (included n explicit_includes) exclude_list)

/-- One action of `build_cb_example`; `index` actions were selected before. -/
def select_action (is_learn : Bool) (ccb_label : CcbLabel) (i : Nat) : Call (State B) Unit := do
  let s ← get
  if selectable s.data.include_list s.data.exclude_list i then do
    let action ← at_ s.data.actions i
    -- `cb_ex` begins with the shared example
    set_data fun data => { data with
      cb_ex := data.cb_ex ++ [action], origin_index := data.origin_index ++ [BitVec.ofNat 32 i] }
    match is_learn, ccb_label.outcome with
    | true, some outcome => do
      let chosen ← at_ outcome.probabilities 0
      if i = chosen.action.toNat then do
        set_data fun data => { data with action_with_label := i }
        let s ← get
        let cost : CbClass := {
          action := BitVec.ofNat 32 s.data.origin_index.length, probability := chosen.score
          cost := outcome.cost }
        set_heap fun heap =>
          heap.set_cb action { (heap action).l.cb with costs := (heap action).l.cb.costs ++ [cost] }
      else pure ()
    | _, _ => pure ()
  else pure ()

/-- `build_cb_example`; `origin_index` holds the part that is filled. -/
def build_cb_example (is_learn : Bool) (ccb_label : CcbLabel) : Call (State B) Unit := do
  let s ← get
  let shared ← pointer s.data.shared
  set_data fun data => { data with
    cb_ex := data.cb_ex ++ [shared]
    include_list := included data.actions.length ccb_label.explicit_included_actions
    origin_index := [] }
  for_each (select_action is_learn ccb_label) (List.range s.data.actions.length)
  set_heap fun heap => heap.set_pred shared { (heap shared).pred with a_s := [] }

def ec_is_example_header_cb (ec : MultiExample) : Bool :=
  match ec.l.cb.costs with
  | [cost] => cost.probability = Single.neg_one
  | _ => false

def has_action (heap : Heap) (cb_ex : List Nat) : Bool :=
  match cb_ex with
  | [] => false
  | [ex] => !ec_is_example_header_cb (heap ex)
  | _ => true

/-- `origin_index`, with the zeros behind the part that is filled. -/
def CcbData.origin_indices (data : CcbData) : List (BitVec 32) :=
  data.origin_index ++ List.replicate (data.actions.length - data.origin_index.length) 0

def save_action_scores_and_exclude_top_action (first : Nat) : Call (State B) Unit := do
  let s ← get
  let shared ← pointer s.data.shared
  let pred ← (s.heap shared).pred.a_s.mapM fun action_score => do
    let action ← at_ s.data.origin_indices action_score.action.toNat
    pure ({ action_score with action := action } : ActionScore)
  let top ← at_ pred 0
  set_data fun data => { data with exclude_list := data.exclude_list.set top.action.toNat true }
  set_heap fun heap => heap.set_pred first
    { (heap first).pred with decision_scores := (heap first).pred.decision_scores ++ [pred] }
  set_heap fun heap => heap.set_pred shared { (heap shared).pred with a_s := [] }

def exclude_chosen_action (examples : List Nat) : Call (State B) Unit := do
  let s ← get
  let labeled (ex : Nat) : Bool :=
    match (s.heap ex).l.cb.costs with
    | [cost] => cost.cost ≠ FLT_MAX
    | _ => false
  match examples.findIdx? labeled with
  -- without one, and where the first example has it, nothing is excluded
  | none | some 0 => pure ()
  | some (i + 1) =>
    if i < s.data.exclude_list.length then
      set_data fun data => { data with exclude_list := data.exclude_list.set i true }
    else undefined

def call_base (base : BaseLearner B) (is_learn : Bool) (cb_ex : List Nat) : Call (State B) Unit :=
  fun s =>
    match base is_learn cb_ex (s.base, s.heap) with
    | .returned () (b, heap) => .returned () { s with base := b, heap := heap }
    | .threw what (b, heap) => .threw what { s with base := b, heap := heap }
    | .undefined => .undefined

/-- One round of the loop over the slots. -/
def learn_or_predict_slot (base : BaseLearner B) (is_learn : Bool) (examples : List Nat)
    (first slot_id : Nat) : Call (State B) Unit := do
  let s ← get
  let label ← at_ s.data.stored_labels (1 + s.data.actions.length + slot_id)
  build_cb_example is_learn label
  let s ← get
  if has_action s.heap s.data.cb_ex then do
    call_base base is_learn s.data.cb_ex
    if s.data.no_pred then exclude_chosen_action examples
    else save_action_scores_and_exclude_top_action first
    let s ← get
    let action ← at_ s.data.actions s.data.action_with_label
    set_heap fun heap => heap.set_cb action { (heap action).l.cb with costs := [] }
  else
    set_heap fun heap => heap.set_pred first
      { (heap first).pred with decision_scores := (heap first).pred.decision_scores ++ [[]] }
  set_data fun data => { data with cb_ex := [] }

/-- The part of `learn_or_predict` behind the second guard. -/
def learn_or_predict_slots (base : BaseLearner B) (is_learn : Bool) (examples : List Nat) :
    Call (State B) Unit := do
  set_data fun data => { data with exclude_list := List.replicate data.actions.length false }
  let first ← at_ examples 0
  let s ← get
  for_each (learn_or_predict_slot base is_learn examples first) (List.range s.data.slots.length)

/-- The part of `learn_or_predict` behind the first guard. -/
def learn_or_predict_guarded (base : BaseLearner B) (is_learn : Bool) (examples : List Nat) :
    Call (State B) Unit := do
  let s ← get
  if s.data.actions.length < s.data.slots.length then
    throw_ ("ccb_adf_explore: badly formatted example - number of actions " ++
      toString s.data.actions.length ++ " must be greater than or equal to the number of slots " ++
      toString s.data.slots.length)
  else do
    -- the labels of the slots have been moved out of them by now
    if is_learn ∧ s.data.slots.any (fun slot =>
        (s.heap slot).l.conditional_contextual_bandit.outcome.any (·.probabilities.isEmpty)) then
      throw_ "ccb_adf_explore: badly formatted example - missing label probability"
    else do
      create_cb_labels
      scope_exit delete_cb_labels (learn_or_predict_slots base is_learn examples)

def learn_or_predict (base : BaseLearner B) (is_learn : Bool) (examples : List Nat) :
    Call (State B) Unit := do
  set_data clear_all
  let split ← split_multi_example_and_stash_labels examples
  if split then
    scope_exit (restore_labels examples) (learn_or_predict_guarded base is_learn examples)
  else pure ()

end VW.Ccb
