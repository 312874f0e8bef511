import VowpalWabbit.Slates.Labels

/-! # What SquareCB and RegCB learn from

    `cb_explore_adf_squarecb::learn` and `cb_explore_adf_regcb::learn_impl`. Both take the
    importance weight from the labels, by a loop over the examples, before the base learner
    sees them. The loop leaves out the last example: it was written for multi-examples that
    ended with an empty one.

    Examples are pointers into a memory. The base learner is any call that is given the
    pointers: it may change its own state and the examples, and throw.
-/

open Cpp Call Single

namespace VW.Explore

open List

/-! ## The source -/

/-- `VW::example`, an action with its features `F`. -/
structure ActionExample (F : Type) where
  features : F
  cb : CbLabel := {}
  a_s : List VW.ActionScore := []
  ft_offset : BitVec 64 := 0

/-- The counter of the explorer, the state of the base learner and the examples in memory. -/
structure LearnState (B F : Type) where
  counter : BitVec 64
  base : B
  memory : Nat → ActionExample F

/-- `base.learn(examples)`. -/
def LearnBase (B F : Type) : Type := List Nat → Call (B × (Nat → ActionExample F)) Unit

section

variable {B F : Type}

def set_offset (memory : Nat → ActionExample F) (ec : Nat) (offset : BitVec 64) : Nat → ActionExample F :=
  Function.update memory ec { memory ec with ft_offset := offset }

def set_cb_label (memory : Nat → ActionExample F) (ec : Nat) (ld : CbLabel) : Nat → ActionExample F :=
  Function.update memory ec { memory ec with cb := ld }

def set_scores (memory : Nat → ActionExample F) (ec : Nat) (preds : List VW.ActionScore) : Nat → ActionExample F :=
  Function.update memory ec { memory ec with a_s := preds }

/-- The loop of `multiline_learn_or_predict` that saves the offsets. -/
def save_offsets (offset : BitVec 64) : List Nat → (Nat → ActionExample F) →
    List (BitVec 64) × (Nat → ActionExample F)
  | [], memory => ([], memory)
  | ec :: examples, memory =>
    let rest := save_offsets offset examples (set_offset memory ec offset)
    ((memory ec).ft_offset :: rest.1, rest.2)

/-- The loop of its guard. -/
def restore_offsets (examples : List Nat) (saved_offsets : List (BitVec 64)) (memory : Nat → ActionExample F) :
    Nat → ActionExample F :=
  (examples.zip saved_offsets).foldl (fun memory p => set_offset memory p.1 p.2) memory

/-- `base.learn(examples)`, in the state of the explorer. -/
def LearnBase.learn (base : LearnBase B F) (examples : List Nat) : Call (LearnState B F) Unit := fun s =>
  match base examples (s.base, s.memory) with
  | .returned _ t => .returned () { s with base := t.1, memory := t.2 }
  | .threw what t => .threw what { s with base := t.1, memory := t.2 }
  | .undefined => .undefined

/-- `multiline_learn_or_predict<true>`. -/
def multiline_learn (base : LearnBase B F) (examples : List Nat) (offset : BitVec 64) :
    Call (LearnState B F) Unit := do
  let s ← get
  let saved := save_offsets offset examples s.memory
  modify fun s => { s with memory := saved.2 }
  scope_exit (fun s => { s with memory := restore_offsets examples saved.1 s.memory }) (base.learn examples)

/-- The body of the loop over the labels. -/
def no_importance_weighting (ld : CbLabel) : CbLabel :=
  match ld.costs with
  | [cost] => { ld with costs := [{ cost with probability := one }] }
  | _ => ld

/-- The `learn` of both explorers. -/
def learn_unweighted (base : LearnBase B F) (examples : List Nat) : Call (LearnState B F) Unit :=
  match examples with
  -- `examples[0]`
  | [] => undefined
  | first :: rest => do
    let s ← get
    let preds := (s.memory first).a_s
    modify fun s => { s with memory := set_scores s.memory first [] }
    -- `i < examples.size() - 1`
    for_each (fun ec => modify fun s =>
        { s with memory := set_cb_label s.memory ec (no_importance_weighting (s.memory ec).cb) })
      ((first :: rest).take ((first :: rest).length - 1))
    let s ← get
    multiline_learn base (first :: rest) (s.memory first).ft_offset
    modify fun s => { s with counter := s.counter + 1, memory := set_scores s.memory first preds }

/-- `cb_explore_adf_squarecb::learn`. -/
def squarecb_learn (base : LearnBase B F) (examples : List Nat) : Call (LearnState B F) Unit :=
  learn_unweighted base examples

/-- `cb_explore_adf_regcb::learn_impl`. -/
def regcb_learn_impl (base : LearnBase B F) (examples : List Nat) : Call (LearnState B F) Unit :=
  learn_unweighted base examples

end

/-- The two explorers. -/
inductive UnweightedExplorer where
  | squarecb
  | regcb

def UnweightedExplorer.learn {B F : Type} : UnweightedExplorer → LearnBase B F → List Nat →
    Call (LearnState B F) Unit
  | .squarecb => squarecb_learn
  | .regcb => regcb_learn_impl

/-! ## The purpose -/

section

variable {F : Type}

/-- What an example is apart from its predictions, which are on the first example only. -/
def ActionExample.content (e : ActionExample F) : F × CbLabel × BitVec 64 := (e.features, e.cb, e.ft_offset)

/-- A multi-example. The stack of reductions moves the offset of all its examples by the same amount. -/
structure ActionExamples (F : Type) where
  memory : Nat → ActionExample F
  examples : List Nat
  nonempty : examples ≠ []
  nodup : examples.Nodup
  offset : BitVec 64
  shared_offset : ∀ ec ∈ examples, (memory ec).ft_offset = offset

/-- The same actions in another order. -/
structure Reordered (x y : ActionExamples F) : Prop where
  perm : x.examples.Perm y.examples
  content : ∀ ec ∈ x.examples, (y.memory ec).content = (x.memory ec).content

/-- The memory after learning, from that before and from that the base learner leaves. -/
def put_back (x : ActionExamples F) (after : Nat → ActionExample F) : Nat → ActionExample F :=
  set_scores (restore_offsets x.examples (x.examples.map fun ec => (x.memory ec).ft_offset) after)
    (x.examples.head x.nonempty) (x.memory (x.examples.head x.nonempty)).a_s

/-- The explorer has the base learner learn once, from the examples in `seen`. It leaves what the base
    learner leaves, but for the offsets, which are those from before, for its own predictions and for
    its counter. -/
def LearnsFrom (explorer : UnweightedExplorer) (x : ActionExamples F) (seen : Nat → ActionExample F) : Prop :=
  ∀ (B : Type) (base : LearnBase B F) (counter : BitVec 64) (b : B),
    explorer.learn base x.examples ⟨counter, b, x.memory⟩ =
      match base x.examples (b, seen) with
      | .returned _ t => .returned () ⟨counter + 1, t.1, put_back x t.2⟩
      | .threw what t => .threw what ⟨counter, t.1,
          restore_offsets x.examples (x.examples.map fun ec => (x.memory ec).ft_offset) t.2⟩
      | .undefined => .undefined

/-- Every labelled action has the probability 1, and all else is as before. -/
structure Unweighted (x : ActionExamples F) (seen : Nat → ActionExample F) : Prop where
  labelled : ∀ ec ∈ x.examples, ∀ cost, (x.memory ec).cb.costs = [cost] →
    (seen ec).cb.costs = [{ cost with probability := one }]
  unlabelled : ∀ ec ∈ x.examples, (x.memory ec).cb.costs.length ≠ 1 → (seen ec).cb.costs = (x.memory ec).cb.costs
  weight : ∀ ec ∈ x.examples, (seen ec).cb.weight = (x.memory ec).cb.weight
  features : ∀ ec ∈ x.examples, (seen ec).features = (x.memory ec).features
  offset : ∀ ec ∈ x.examples, (seen ec).ft_offset = (x.memory ec).ft_offset

/-- In both orders the base learner learns from labels without importance weights, and from the same
    label and the same features for each action. -/
def IgnoresPosition (explorer : UnweightedExplorer) (x y : ActionExamples F) : Prop :=
  ∃ seen_x seen_y, LearnsFrom explorer x seen_x ∧ LearnsFrom explorer y seen_y ∧
    Unweighted x seen_x ∧ Unweighted y seen_y ∧
    ∀ ec ∈ x.examples, (seen_y ec).content = (seen_x ec).content

/-- The last action is a labelled one, with another probability than 1. -/
def EndsWeighted (x : ActionExamples F) : Prop :=
  ∃ cost, (x.memory (x.examples.getLast x.nonempty)).cb.costs = [cost] ∧ cost.probability ≠ one

end

/-! ## What one run does -/

section

variable {B F : Type}

variable {ec : Nat} {ld : CbLabel} {x : ActionExamples F}

variable {memory : Nat → ActionExample F} {offset : BitVec 64}

theorem set_offset_self (h : (memory ec).ft_offset = offset) :
    set_offset memory ec offset = memory := by
  unfold set_offset
  rw [← h]
  exact Function.update_eq_self ec memory

variable {examples : List Nat}

/-- Where all offsets are the same, saving them changes nothing. -/
theorem save_offsets_shared (h : ∀ ec ∈ examples, (memory ec).ft_offset = offset) :
    save_offsets offset examples memory = (examples.map fun ec => (memory ec).ft_offset, memory) := by
  induction examples with
  | nil => rfl
  | cons ec examples ih =>
    rw [forall_mem_cons] at h
    simp only [save_offsets, set_offset_self h.1, ih h.2, map_cons]

/-- The call of the base learner, where all offsets are the same. -/
theorem multiline_learn_run {s : LearnState B F} (base : LearnBase B F)
    (h : ∀ ec ∈ examples, (s.memory ec).ft_offset = offset) :
    multiline_learn base examples offset s =
      match base examples (s.base, s.memory) with
      | .returned _ t => .returned ()
          ⟨s.counter, t.1, restore_offsets examples (examples.map fun ec => (s.memory ec).ft_offset) t.2⟩
      | .threw what t => .threw what
          ⟨s.counter, t.1, restore_offsets examples (examples.map fun ec => (s.memory ec).ft_offset) t.2⟩
      | .undefined => .undefined := by
  unfold multiline_learn
  rw [get_bind_run, save_offsets_shared h, modify_bind_run]
  simp only [scope_exit, LearnBase.learn]
  cases base examples (s.base, s.memory) <;> rfl

/-- The memory after the loop over the labels. -/
def unweight_all (examples : List Nat) (memory : Nat → ActionExample F) : Nat → ActionExample F :=
  examples.foldl (fun memory ec => set_cb_label memory ec (no_importance_weighting (memory ec).cb)) memory

theorem unweight_all_cons (ec : Nat) (examples : List Nat) (memory : Nat → ActionExample F) :
    unweight_all (ec :: examples) memory =
      unweight_all examples (set_cb_label memory ec (no_importance_weighting (memory ec).cb)) := rfl

theorem unweight_loop_run (examples : List Nat) (s : LearnState B F) :
    for_each (fun ec => modify fun s : LearnState B F =>
        { s with memory := set_cb_label s.memory ec (no_importance_weighting (s.memory ec).cb) }) examples s =
      .returned () { s with memory := unweight_all examples s.memory } := by
  induction examples generalizing s with
  | nil => rfl
  | cons ec examples ih =>
    unfold for_each
    rw [modify_bind_run, ih]
    rfl

@[simp] theorem set_cb_label_same (memory : Nat → ActionExample F) (ec : Nat) (ld : CbLabel) :
    set_cb_label memory ec ld ec = { memory ec with cb := ld } := by
  simp [set_cb_label]

theorem set_cb_label_other {other : Nat} (h : other ≠ ec) :
    set_cb_label memory ec ld other = memory other := by
  simp [set_cb_label, h]

/-- The loop does not touch the other examples. -/
theorem unweight_all_of_not_mem (h : ec ∉ examples) :
    unweight_all examples memory ec = memory ec := by
  induction examples generalizing memory with
  | nil => rfl
  | cons e examples ih =>
    rw [mem_cons, not_or] at h
    rw [unweight_all_cons, ih h.2, set_cb_label_other h.1]

/-- It changes the label of each of its examples once. -/
theorem unweight_all_of_mem (hnodup : examples.Nodup) (h : ec ∈ examples) :
    unweight_all examples memory ec = { memory ec with cb := no_importance_weighting (memory ec).cb } := by
  induction examples generalizing memory with
  | nil => cases h
  | cons e examples ih =>
    rw [nodup_cons] at hnodup
    rw [unweight_all_cons]
    by_cases he : ec = e
    · subst he
      rw [unweight_all_of_not_mem hnodup.1, set_cb_label_same]
    · have hmem : ec ∈ examples := (mem_cons.mp h).resolve_left he
      rw [ih hnodup.2 hmem, set_cb_label_other he]

@[simp] theorem set_scores_same (memory : Nat → ActionExample F) (ec : Nat) (preds : List VW.ActionScore) :
    set_scores memory ec preds ec = { memory ec with a_s := preds } := by
  simp [set_scores]

/-- Setting the predictions changes nothing else. -/
theorem content_set_scores (memory : Nat → ActionExample F) (ec other : Nat) (preds : List VW.ActionScore) :
    (set_scores memory ec preds other).content = (memory other).content := by
  by_cases h : other = ec
  · subst h
    rw [set_scores_same]
    rfl
  · simp [set_scores, h]

/-- What the base learner sees. -/
def handed (x : ActionExamples F) : Nat → ActionExample F :=
  unweight_all x.examples.dropLast (set_scores x.memory (x.examples.head x.nonempty) [])

theorem handed_of_mem_dropLast (h : ec ∈ x.examples.dropLast) :
    (handed x ec).content =
      ((x.memory ec).features, no_importance_weighting (x.memory ec).cb, (x.memory ec).ft_offset) := by
  have hnodup : x.examples.dropLast.Nodup := x.nodup.sublist (dropLast_sublist _)
  have hcontent := content_set_scores x.memory (x.examples.head x.nonempty) ec []
  simp only [ActionExample.content, Prod.mk.injEq] at hcontent
  rw [handed, unweight_all_of_mem hnodup h]
  simp only [ActionExample.content, hcontent]

/-- The last example keeps its label. -/
theorem handed_getLast (x : ActionExamples F) :
    (handed x (x.examples.getLast x.nonempty)).content = (x.memory (x.examples.getLast x.nonempty)).content := by
  have hnot : x.examples.getLast x.nonempty ∉ x.examples.dropLast := by
    have hnodup := x.nodup
    rw [← dropLast_append_getLast x.nonempty, nodup_append] at hnodup
    intro h
    exact hnodup.2.2 _ h _ (mem_singleton_self _) rfl
  rw [handed, unweight_all_of_not_mem hnot, content_set_scores]

theorem mem_dropLast_or (h : ec ∈ x.examples) :
    ec ∈ x.examples.dropLast ∨ ec = x.examples.getLast x.nonempty := by
  rw [← dropLast_append_getLast x.nonempty, mem_append, mem_singleton] at h
  exact h

theorem handed_offset (h : ec ∈ x.examples) :
    (handed x ec).ft_offset = x.offset := by
  rw [← x.shared_offset ec h]
  rcases mem_dropLast_or h with hdrop | rfl
  · exact congrArg (fun c => c.2.2) (handed_of_mem_dropLast hdrop)
  · exact congrArg (fun c => c.2.2) (handed_getLast x)

/-- The base learner runs once, on these examples. -/
theorem learnsFrom_handed (explorer : UnweightedExplorer) (x : ActionExamples F) :
    LearnsFrom explorer x (handed x) := by
  intro B base counter b
  have hlearn : explorer.learn base x.examples = learn_unweighted base x.examples := by
    cases explorer <;> rfl
  have hne := x.nonempty
  obtain ⟨first, rest, hexamples⟩ := exists_cons_of_ne_nil hne
  have hhead : x.examples.head x.nonempty = first := by
    simp only [hexamples, head_cons]
  have hdrop : (first :: rest).take ((first :: rest).length - 1) = x.examples.dropLast := by
    rw [hexamples, dropLast_eq_take]
  have hoffset : ∀ ec ∈ first :: rest, (handed x ec).ft_offset = x.offset := by
    rw [← hexamples]
    exact fun ec => handed_offset
  have hfirst : (handed x first).ft_offset = x.offset := hoffset first mem_cons_self
  have hsaved : (first :: rest).map (fun ec => (handed x ec).ft_offset) =
      x.examples.map fun ec => (x.memory ec).ft_offset := by
    rw [hexamples]
    refine map_congr_left fun ec hec => ?_
    rw [hoffset ec hec, x.shared_offset ec (hexamples ▸ hec)]
  have hseen : unweight_all x.examples.dropLast (set_scores x.memory first []) = handed x := by
    rw [handed, hhead]
  rw [hlearn, hexamples]
  simp only [learn_unweighted, put_back]
  rw [get_bind_run, modify_bind_run, bind_run, hdrop, unweight_loop_run, hseen]
  dsimp only
  rw [get_bind_run, bind_run]
  dsimp only
  rw [hfirst, multiline_learn_run base hoffset]
  simp only [hsaved, hexamples]
  cases base (first :: rest) (b, handed x) <;> rfl

/-- What the base learner sees can be read off a base learner that throws it. -/
theorem LearnsFrom.unique {explorer : UnweightedExplorer}
    {seen seen' : Nat → ActionExample F} (h : LearnsFrom explorer x seen) (h' : LearnsFrom explorer x seen') :
    seen = seen' := by
  let probe : LearnBase (Nat → ActionExample F) F := fun _ s => .threw "" (s.2, s.2)
  have hrun := h _ probe 0 x.memory
  rw [h' _ probe 0 x.memory] at hrun
  simp only [probe, Ending.threw.injEq, LearnState.mk.injEq] at hrun
  exact hrun.2.2.1.symm

/-! ## The position of the labelled action -/

theorem no_importance_weighting_single {cost : CbClass} (h : ld.costs = [cost]) :
    no_importance_weighting ld = { ld with costs := [{ cost with probability := one }] } := by
  simp [no_importance_weighting, h]

theorem no_importance_weighting_other (h : ld.costs.length ≠ 1) :
    no_importance_weighting ld = ld := by
  unfold no_importance_weighting
  split
  case h_1 cost hcosts =>
    rw [hcosts] at h
    exact absurd rfl h
  case h_2 => rfl

/-- A label that has no other probability than 1 loses nothing. -/
theorem no_importance_weighting_one
    (h : ∀ cost, ld.costs = [cost] → cost.probability = one) : no_importance_weighting ld = ld := by
  by_cases hlength : ld.costs.length = 1
  · obtain ⟨cost, hcost⟩ := length_eq_one_iff.mp hlength
    have hone : { cost with probability := one } = cost := by rw [← h cost hcost]
    rw [no_importance_weighting_single hcost, hone, ← hcost]
  · exact no_importance_weighting_other hlength

/-- If the last action has no weight, then all labels are handed on without. -/
theorem handed_content (hx : ¬ EndsWeighted x) (h : ec ∈ x.examples) :
    (handed x ec).content =
      ((x.memory ec).features, no_importance_weighting (x.memory ec).cb, (x.memory ec).ft_offset) := by
  rcases mem_dropLast_or h with hdrop | rfl
  · exact handed_of_mem_dropLast hdrop
  · have hone : ∀ cost, (x.memory (x.examples.getLast x.nonempty)).cb.costs = [cost] →
        cost.probability = one := by
      intro cost hcost
      by_contra hne
      exact hx ⟨cost, hcost, hne⟩
    rw [handed_getLast, no_importance_weighting_one hone]
    rfl

theorem handed_unweighted (hx : ¬ EndsWeighted x) : Unweighted x (handed x) := by
  have hcontent : ∀ ec ∈ x.examples, (handed x ec).features = (x.memory ec).features ∧
      (handed x ec).cb = no_importance_weighting (x.memory ec).cb ∧
      (handed x ec).ft_offset = (x.memory ec).ft_offset := by
    intro ec hec
    simpa only [ActionExample.content, Prod.mk.injEq] using handed_content hx hec
  constructor
  case labelled =>
    intro ec hec cost hcost
    rw [(hcontent ec hec).2.1, no_importance_weighting_single hcost]
  case unlabelled =>
    intro ec hec hlength
    rw [(hcontent ec hec).2.1, no_importance_weighting_other hlength]
  case weight =>
    intro ec hec
    rw [(hcontent ec hec).2.1]
    unfold no_importance_weighting
    split <;> rfl
  case features => exact fun ec hec => (hcontent ec hec).1
  case offset => exact fun ec hec => (hcontent ec hec).2.2

/-- A weight on the last action is handed on. -/
theorem not_endsWeighted (h : Unweighted x (handed x)) : ¬ EndsWeighted x := by
  rintro ⟨cost, hcost, hne⟩
  have hlast := congrArg (fun c => c.2.1.costs) (handed_getLast x)
  have hone := h.labelled _ (getLast_mem x.nonempty) cost hcost
  simp only [ActionExample.content] at hlast
  rw [hlast, hcost, singleton_inj] at hone
  -- the label has the probability of the log, and it has the probability 1
  exact hne (congrArg CbClass.probability hone)

/-- The base learners of both explorers learn the same in both orders, without importance weights, exactly
    when neither order ends with a labelled action whose logged probability is not 1. -/
theorem ignores_position_iff (explorer : UnweightedExplorer) (x y : ActionExamples F) (h : Reordered x y) :
    IgnoresPosition explorer x y ↔ ¬ EndsWeighted x ∧ ¬ EndsWeighted y := by
  constructor
  · rintro ⟨seen_x, seen_y, hseen_x, hseen_y, hx, hy, -⟩
    rw [hseen_x.unique (learnsFrom_handed explorer x)] at hx
    rw [hseen_y.unique (learnsFrom_handed explorer y)] at hy
    exact ⟨not_endsWeighted hx, not_endsWeighted hy⟩
  · intro ⟨hx, hy⟩
    refine ⟨handed x, handed y, learnsFrom_handed explorer x, learnsFrom_handed explorer y,
      handed_unweighted hx, handed_unweighted hy, ?_⟩
    intro ec hec
    have hcontent := h.content ec hec
    simp only [ActionExample.content, Prod.mk.injEq] at hcontent
    rw [handed_content hx hec, handed_content hy (h.perm.mem_iff.mp hec), hcontent.1, hcontent.2.1, hcontent.2.2]

end

/-! ### Two actions -/

/-- An action without a label, and one that was played with probability one half. -/
def two_actions : Nat → ActionExample Unit
  | 1 => { features := (), cb := { costs := [{ cost := one, action := 2, probability := ⟨0x3f000000⟩ }] } }
  | _ => { features := () }

def labelled_first : ActionExamples Unit where
  memory := two_actions
  examples := [1, 0]
  nonempty := by decide
  nodup := by decide
  offset := 0
  shared_offset := by decide

def labelled_last : ActionExamples Unit where
  memory := two_actions
  examples := [0, 1]
  nonempty := by decide
  nodup := by decide
  offset := 0
  shared_offset := by decide

theorem reordered_two_actions : Reordered labelled_first labelled_last :=
  ⟨List.Perm.swap 0 1 [], fun _ _ => rfl⟩

theorem endsWeighted_labelled_last : EndsWeighted labelled_last := ⟨_, rfl, by decide⟩

/-- The two actions with a third one, without a label, at the end. -/
def labelled_inner (first second : Nat) (h : [first, second, 2].Perm [0, 1, 2]) : ActionExamples Unit where
  memory := two_actions
  examples := [first, second, 2]
  nonempty := cons_ne_nil _ _
  nodup := h.nodup_iff.mpr (by decide)
  offset := 0
  shared_offset := by
    intro ec _
    unfold two_actions
    split <;> rfl

/-- Two orders of examples, the last one without a label. -/
theorem ignores_position_iff_inner :
    IgnoresPosition .regcb (labelled_inner 0 1 (.refl _)) (labelled_inner 1 0 (.swap 0 1 _)) ↔
      ¬ EndsWeighted (labelled_inner 0 1 (.refl _)) ∧ ¬ EndsWeighted (labelled_inner 1 0 (.swap 0 1 _)) :=
  ignores_position_iff .regcb _ _ ⟨List.Perm.swap 1 0 [2], fun _ _ => rfl⟩

/-- With the labelled action at the end the base learner sees its importance weight. -/
theorem not_ignores_position_two_actions :
    Reordered labelled_first labelled_last ∧ ¬ IgnoresPosition .squarecb labelled_first labelled_last := by
  refine ⟨reordered_two_actions, ?_⟩
  rintro ⟨_, seen, _, hseen, _, hy, -⟩
  rw [hseen.unique (learnsFrom_handed .squarecb labelled_last)] at hy
  exact not_endsWeighted hy endsWeighted_labelled_last

end VW.Explore
