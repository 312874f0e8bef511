import VowpalWabbit.Framework.Vectors
import VowpalWabbit.Slates.Labels

/-! # The reduction of slates

    `slates_data::learn_or_predict`: the labels are stashed, translated to labels of
    conditional contextual bandits, in which all slots share one numbering of the actions,
    and put back after the base learner has been called. The numbers in its predictions are
    then translated back.
-/

open Cpp Call

namespace VW.Slates

open List

/-- The state of a call: the stash, the examples and the base learner. -/
structure State (B : Type) where
  stashed_labels : List Label := []
  heap : Heap
  base : B

variable {B : Type}

/-! ## Labels -/

/-- The variables of the loop that translates the labels. -/
structure Translation where
  /-- `global_cost`, once `global_cost_found`. -/
  global_cost : Option Single := none
  action_index : BitVec 32 := 0
  slot_index : Nat := 0
  slot_action_pools : List (List (BitVec 32))

/-- The outcome of a slot with the probabilities of its label in the common numbering. -/
def translate_outcome (pool : List (BitVec 32)) (global_cost : Single)
    (probabilities : List ActionScore) : Outcome CcbOutcome := do
  let probabilities ← probabilities.mapM fun action_score => do
    let ccb_space_index ← nth pool action_score.action.toNat
    return { action_score with action := ccb_space_index }
  return { cost := global_cost, probabilities := probabilities }

/-- One round of the loop over the labels. -/
def translate_label (num_slots : Nat) (t : Translation) (slates_label : Label) :
    Outcome (Translation × CcbLabel) :=
  let ccb_label : CcbLabel := { CcbLabel.reset_to_default with weight := slates_label.weight }
  match slates_label.type with
  | .SHARED =>
    .ok (if slates_label.labeled then { t with global_cost := some slates_label.cost } else t,
      { ccb_label with type := .SHARED })
  | .ACTION =>
    if num_slots ≤ slates_label.slot_id.toNat then
      Outcome.throw_ "slot_id cannot be larger than or equal to the number of slots"
    else
      .ok ({ t with
          slot_action_pools :=
            t.slot_action_pools.modify slates_label.slot_id.toNat (· ++ [t.action_index])
          action_index := t.action_index + 1 },
        { ccb_label with type := .ACTION })
  | .SLOT => do
    let pool ← nth t.slot_action_pools t.slot_index
    let outcome ←
      (match t.global_cost with
      | none => .ok none
      | some global_cost => do
        let outcome ← translate_outcome pool global_cost slates_label.probabilities
        return some outcome)
    .ok ({ t with slot_index := t.slot_index + 1 },
      { ccb_label with type := .SLOT, explicit_included_actions := pool, outcome := outcome })
  | .UNSET => .ok (t, ccb_label)

/-! ## Predictions -/

/-- The predictions in the numberings of their slots. -/
def to_slates_space (size_so_far : BitVec 32) : List (List ActionScore) → List (List ActionScore)
  | [] => []
  | action_scores :: decision_scores =>
    action_scores.map (fun action_score =>
      { action_score with action := action_score.action - size_so_far }) ::
    to_slates_space (size_so_far + BitVec.ofNat 32 action_scores.length) decision_scores

/-! ## The reduction -/

/-- The labels are moved to the stash. -/
def stash (examples : List Nat) : Call (State B) Unit :=
  for_each (fun example_ => modify fun s => { s with
    stashed_labels := s.stashed_labels ++ [(s.heap example_).l.slates]
    heap := s.heap.set_slates example_ (s.heap example_).l.slates.moved_from }) examples

/-- The loop that gives the examples their labels for the base learner. -/
def translate_labels (num_slots : Nat) : Translation → List (Nat × Label) → Call (State B) Unit
  | _, [] => pure ()
  | t, (example_, slates_label) :: rest => do
    let (t, ccb_label) ← lift (translate_label num_slots t slates_label)
    modify fun s => { s with heap := s.heap.set_ccb example_ ccb_label }
    translate_labels num_slots t rest

def call_base (base : BaseLearner B) (is_learn : Bool) (examples : List Nat) :
    Call (State B) Unit :=
  fun s =>
    match base is_learn examples (s.base, s.heap) with
    | .returned () (b, heap) => .returned () { s with base := b, heap := heap }
    | .threw what (b, heap) => .threw what { s with base := b, heap := heap }
    | .undefined => .undefined

/-- The predictions of the base learner are translated. -/
def translate_predictions (first : Nat) (s : State B) : State B :=
  { s with heap := s.heap.set_pred first { (s.heap first).pred with
      decision_scores := to_slates_space 0 (s.heap first).pred.decision_scores } }

/-- The labels are moved back. -/
def restore (examples : List Nat) (s : State B) : State B :=
  { s with
    heap := Heap.write_all Heap.set_slates s.heap (examples.zip s.stashed_labels)
    stashed_labels := [] }

/-- The number of slots; the labels that were moved out keep their types. -/
def num_slots (heap : Heap) (examples : List Nat) : Nat :=
  examples.countP fun example_ => (heap example_).l.slates.type = .SLOT

/-- Up to the call of the base learner. -/
def translate (examples : List Nat) : Call (State B) Unit := do
  modify fun s => { s with stashed_labels := [] }
  stash examples
  let s ← get
  let num_slots := num_slots s.heap examples
  translate_labels num_slots { slot_action_pools := replicate num_slots [] }
    (examples.zip s.stashed_labels)

def learn_or_predict (base : BaseLearner B) (is_learn : Bool) (examples : List Nat) :
    Call (State B) Unit := do
  translate examples
  let first ← lift (nth examples 0)
  call_base base is_learn examples
  modify (translate_predictions first)
  modify (restore examples)

/-! ## What the parts do -/

section Parts

variable {examples : List Nat} {s s' : State B}

def labels (heap : Heap) (examples : List Nat) : List Label :=
  examples.map fun example_ => (heap example_).l.slates

/-- What `stash` does. -/
structure Stashed (examples : List Nat) (s s' : State B) : Prop where
  stashed_labels : s'.stashed_labels = s.stashed_labels ++ labels s.heap examples
  base : s'.base = s.base
  slates : ∀ e, (s'.heap e).l.slates =
    if e ∈ examples then (s.heap e).l.slates.moved_from else (s.heap e).l.slates
  pred : ∀ e, (s'.heap e).pred = (s.heap e).pred

theorem stash_spec (hnodup : examples.Nodup) :
    ∀ s : State B, ∃ s', stash examples s = .returned () s' ∧ Stashed examples s s' := by
  induction examples with
  | nil =>
    intro s
    refine ⟨s, rfl, ?_, rfl, fun e => ?_, fun _ => rfl⟩
    · rw [labels, map_nil, append_nil]
    · rw [if_neg not_mem_nil]
  | cons e₀ examples ih =>
    intro s
    rw [nodup_cons] at hnodup
    obtain ⟨s', hrun, hstashed⟩ := ih hnodup.2 { s with
      stashed_labels := s.stashed_labels ++ [(s.heap e₀).l.slates]
      heap := s.heap.set_slates e₀ (s.heap e₀).l.slates.moved_from }
    refine ⟨s', hrun, ?_, hstashed.base, fun e => ?_, fun e => ?_⟩
    · rw [hstashed.stashed_labels, append_assoc, singleton_append, labels, labels,
        map_cons]
      congr 2
      apply map_congr_left
      intro e he
      have hne : e ≠ e₀ := by
        rintro rfl
        exact hnodup.1 he
      rw [Heap.slates_set_slates, if_neg hne]
    · rw [hstashed.slates, Heap.slates_set_slates]
      by_cases he : e = e₀
      · subst he
        rw [if_neg hnodup.1, if_pos rfl, if_pos mem_cons_self]
      · rw [if_neg he]
        simp only [mem_cons, he, false_or]
    · rw [hstashed.pred, Heap.pred_set_slates]

/-- The labels of a multi-example for the base learner. -/
def translate_list (num_slots : Nat) : Translation → List Label → Outcome (List CcbLabel)
  | _, [] => .ok []
  | t, slates_label :: rest => do
    let (t, ccb_label) ← translate_label num_slots t slates_label
    let ccb_labels ← translate_list num_slots t rest
    return ccb_label :: ccb_labels

/-- The loop over the labels writes the translated labels. -/
theorem translate_labels_returned {num_slots : Nat} {ps : List (Nat × Label)} :
    ∀ {t : Translation} {s : State B},
      translate_labels num_slots t ps s = .returned () s' →
      ∃ ccb_labels, translate_list num_slots t (ps.map Prod.snd) = .ok ccb_labels ∧
        s' = { s with
          heap := Heap.write_all Heap.set_ccb s.heap ((ps.map Prod.fst).zip ccb_labels) } := by
  induction ps with
  | nil =>
    intro t s h
    cases h
    exact ⟨[], rfl, rfl⟩
  | cons p ps ih =>
    intro t s h
    obtain ⟨⟨t', ccb_label⟩, s₁, hlift, h⟩ := Call.bind_eq_returned.mp h
    obtain ⟨⟨⟩, s₂, hmodify, h⟩ := Call.bind_eq_returned.mp h
    cases htranslate : translate_label num_slots t p.2 with
    | error e =>
      unfold lift at hlift
      rw [htranslate] at hlift
      cases e with
      | exception what => cases hlift
      | undefined_behaviour => cases hlift
    | ok r =>
      unfold lift at hlift
      rw [htranslate] at hlift
      cases hlift
      cases hmodify
      obtain ⟨ccb_labels, hlist, hs'⟩ := ih h
      refine ⟨ccb_label :: ccb_labels, ?_, ?_⟩
      · rw [map_cons, translate_list, htranslate, Outcome.ok_bind]
        dsimp only
        rw [hlist]
        rfl
      · rw [hs']
        rfl

theorem length_translate_list {num_slots : Nat} {ls : List Label} :
    ∀ {t : Translation} {ccb_labels : List CcbLabel},
      translate_list num_slots t ls = .ok ccb_labels → ccb_labels.length = ls.length := by
  induction ls with
  | nil =>
    intro t ccb_labels h
    cases h
    rfl
  | cons l ls ih =>
    intro t ccb_labels h
    obtain ⟨⟨t', ccb_label⟩, -, h⟩ := Outcome.bind_eq_ok.mp h
    obtain ⟨rest, hrest, h⟩ := Outcome.bind_eq_ok.mp h
    cases h
    rw [length_cons, length_cons, ih hrest]

/-- The number of slots among labels. -/
def slot_count (ls : List Label) : Nat := ls.countP (·.type = .SLOT)

/-- What the reduction has done when it calls the base learner. -/
structure Translated (examples : List Nat) (s s' : State B) : Prop where
  stashed_labels : s'.stashed_labels = labels s.heap examples
  base : s'.base = s.base
  slates : ∀ e, (s'.heap e).l.slates =
    if e ∈ examples then (s.heap e).l.slates.moved_from else (s.heap e).l.slates
  pred : ∀ e, (s'.heap e).pred = (s.heap e).pred
  ccb : translate_list (slot_count (labels s.heap examples))
      { slot_action_pools := replicate (slot_count (labels s.heap examples)) [] }
      (labels s.heap examples) =
    .ok (examples.map fun e => (s'.heap e).l.conditional_contextual_bandit)

/-- The number of slots is counted after the labels were moved out. -/
theorem Stashed.num_slots_eq (h : Stashed examples s s') :
    num_slots s'.heap examples = slot_count (labels s.heap examples) := by
  unfold num_slots slot_count labels
  rw [countP_map]
  apply countP_congr
  intro e he
  rw [h.slates, if_pos he]
  rfl

/-- The translation is the loop over the labels that were stashed. -/
theorem translate_eq (hnodup : examples.Nodup) (s : State B) :
    ∃ s₁, Stashed examples { s with stashed_labels := [] } s₁ ∧
      s₁.stashed_labels = labels s.heap examples ∧
      translate examples s = translate_labels (slot_count (labels s.heap examples))
        { slot_action_pools := replicate (slot_count (labels s.heap examples)) [] }
        (examples.zip (labels s.heap examples)) s₁ := by
  obtain ⟨s₁, hrun, hstashed⟩ := stash_spec hnodup { s with stashed_labels := [] }
  have hlabels : s₁.stashed_labels = labels s.heap examples := by
    rw [hstashed.stashed_labels]
    rfl
  refine ⟨s₁, hstashed, hlabels, ?_⟩
  have hslots := hstashed.num_slots_eq
  dsimp only at hslots
  change (stash examples >>= _) { s with stashed_labels := [] } = _
  rw [bind_run, hrun]
  change translate_labels (num_slots s₁.heap examples) _ (examples.zip s₁.stashed_labels) s₁ = _
  rw [hslots, hlabels]

theorem translate_returned (hnodup : examples.Nodup)
    (h : translate examples s = .returned () s') : Translated examples s s' := by
  obtain ⟨s₁, hstashed, hlabels, htranslate⟩ := translate_eq hnodup s
  rw [htranslate] at h
  have hlength : (labels s.heap examples).length = examples.length := length_map _
  obtain ⟨ccb_labels, hlist, hs'⟩ := translate_labels_returned h
  rw [map_snd_zip hlength.le] at hlist
  rw [map_fst_zip hlength.ge] at hs'
  subst hs'
  constructor
  · exact hlabels
  · exact hstashed.base
  · intro e
    rw [Heap.slates_write_all_ccb, hstashed.slates]
  · intro e
    rw [Heap.pred_write_all_ccb, hstashed.pred]
  · rw [Heap.writes_set_ccb.map_write_all hnodup ((length_translate_list hlist).trans hlength)]
    exact hlist

section Runs

variable {base : BaseLearner B} {is_learn : Bool} {s₁ s₂ : State B} {what : String}

theorem learn_or_predict_of_threw (h : translate examples s = .threw what s₁) :
    learn_or_predict base is_learn examples s = .threw what s₁ := by
  unfold learn_or_predict
  rw [bind_run, h]

theorem learn_or_predict_of_undefined (h : translate examples s = .undefined) :
    learn_or_predict base is_learn examples s = .undefined := by
  unfold learn_or_predict
  rw [bind_run, h]

/-- After the translation everything depends on the base learner. -/
theorem learn_or_predict_of_translate {first : Nat} {rest : List Nat}
    (h : translate (first :: rest) s = .returned () s₁) :
    learn_or_predict base is_learn (first :: rest) s =
      (call_base base is_learn (first :: rest) >>= fun _ =>
        modify fun s => restore (first :: rest) (translate_predictions first s)) s₁ := by
  unfold learn_or_predict
  rw [bind_run, h]
  rfl

/-- What the reduction has after the base learner returned. -/
theorem learn_or_predict_of_returned {first : Nat} {rest : List Nat}
    (h : translate (first :: rest) s = .returned () s₁)
    (hbase : call_base base is_learn (first :: rest) s₁ = .returned () s₂) :
    learn_or_predict base is_learn (first :: rest) s =
      .returned () (restore (first :: rest) (translate_predictions first s₂)) := by
  rw [learn_or_predict_of_translate h, bind_run, hbase]
  rfl

end Runs

end Parts

end VW.Slates
