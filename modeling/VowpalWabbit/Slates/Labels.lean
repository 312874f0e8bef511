import VowpalWabbit.Framework.Calls
import VowpalWabbit.Framework.Single

/-! # Labels of contextual bandits

    The labels of slates, of conditional contextual bandits and of contextual bandits,
    and the parts of an example that their reductions work on. Examples live in a heap:
    a multi-example is a list of pointers, and a reduction may keep some of them.

    To move a label out of an example leaves a label behind. That of a slates label is
    the label without its probabilities; that of a CCB label has nothing of it.
-/

open Cpp

namespace VW

open Function

structure ActionScore where
  action : BitVec 32
  score : Single
  deriving DecidableEq

def FLT_MAX : Single := ⟨0x7f7fffff⟩

/-! ## Contextual bandits -/

structure CbClass where
  cost : Single := FLT_MAX
  action : BitVec 32 := 0
  probability : Single := Single.neg_one
  partial_prediction : Single := 0
  deriving DecidableEq

structure CbLabel where
  costs : List CbClass := []
  weight : Single := Single.one
  deriving DecidableEq

/-! ## Conditional contextual bandits -/

inductive CcbExampleType where
  | UNSET
  | SHARED
  | ACTION
  | SLOT
  deriving DecidableEq

structure CcbOutcome where
  cost : Single := 0
  probabilities : List ActionScore := []
  deriving DecidableEq

/-- `VW::ccb_label`, with its default values. -/
structure CcbLabel where
  type : CcbExampleType := .UNSET
  outcome : Option CcbOutcome := none
  explicit_included_actions : List (BitVec 32) := []
  weight : Single := 0
  deriving DecidableEq

/-- What the move constructor leaves behind: it swaps with a label of its own. -/
def CcbLabel.moved_from : CcbLabel := { type := .UNSET, outcome := none, weight := 0 }

def CcbLabel.reset_to_default : CcbLabel := { type := .UNSET, outcome := none, weight := Single.one }

/-! ## Slates -/

namespace Slates

inductive ExampleType where
  | UNSET
  | SHARED
  | ACTION
  | SLOT
  deriving DecidableEq

structure Label where
  type : ExampleType := .UNSET
  weight : Single := Single.one
  labeled : Bool := false
  cost : Single := 0
  slot_id : BitVec 32 := 0
  probabilities : List ActionScore := []
  deriving DecidableEq

/-- What the implicit move constructor leaves behind: the vector is moved, the rest copied. -/
def Label.moved_from (l : Label) : Label := { l with probabilities := [] }

end Slates

/-! ## Examples -/

/-- `VW::polylabel`, a class with a member for each type of label. -/
structure PolyLabel where
  cb : CbLabel := {}
  conditional_contextual_bandit : CcbLabel := {}
  slates : Slates.Label := {}

structure PolyPrediction where
  a_s : List ActionScore := []
  decision_scores : List (List ActionScore) := []

/-- `VW::example`, its label and its prediction. -/
structure MultiExample where
  l : PolyLabel := {}
  pred : PolyPrediction := {}

/-- The examples in memory, by their addresses. -/
abbrev Heap : Type := Nat → MultiExample

namespace Heap

def set_ccb (h : Heap) (address : Nat) (label : CcbLabel) : Heap :=
  update h address
    { h address with l := { (h address).l with conditional_contextual_bandit := label } }

def set_slates (h : Heap) (address : Nat) (label : Slates.Label) : Heap :=
  update h address { h address with l := { (h address).l with slates := label } }

def set_cb (h : Heap) (address : Nat) (label : CbLabel) : Heap :=
  update h address { h address with l := { (h address).l with cb := label } }

def set_pred (h : Heap) (address : Nat) (pred : PolyPrediction) : Heap :=
  update h address { h address with pred := pred }

variable (h : Heap) (a b : Nat)

/-- A field that the new value of an example leaves alone. -/
theorem field_update_same {A : Type} (field : MultiExample → A) {e : MultiExample} (he : field e = field (h a)) :
    field (update h a e b) = field (h b) := by
  by_cases hb : b = a
  · subst hb
    rw [update_self, he]
  · rw [update_of_ne hb]

theorem field_update {A : Type} (field : MultiExample → A) (e : MultiExample) :
    field (update h a e b) = if b = a then field e else field (h b) := by
  by_cases hb : b = a
  · subst hb
    rw [update_self, if_pos rfl]
  · rw [update_of_ne hb, if_neg hb]

@[simp] theorem slates_set_ccb (label : CcbLabel) : (h.set_ccb a label b).l.slates = (h b).l.slates :=
  field_update_same h a b (·.l.slates) rfl

@[simp] theorem pred_set_ccb (label : CcbLabel) : (h.set_ccb a label b).pred = (h b).pred :=
  field_update_same h a b (·.pred) rfl

@[simp] theorem pred_set_slates (label : Slates.Label) :
    (h.set_slates a label b).pred = (h b).pred := field_update_same h a b (·.pred) rfl

theorem pred_set_pred (pred : PolyPrediction) :
    (h.set_pred a pred b).pred = if b = a then pred else (h b).pred := field_update h a b (·.pred) _

theorem slates_set_slates (label : Slates.Label) :
    (h.set_slates a label b).l.slates = if b = a then label else (h b).l.slates :=
  field_update h a b (·.l.slates) _

theorem ccb_set_ccb (label : CcbLabel) : (h.set_ccb a label b).l.conditional_contextual_bandit =
    if b = a then label else (h b).l.conditional_contextual_bandit :=
  field_update h a b (·.l.conditional_contextual_bandit) _

variable {L : Type}

/-- A label that is written to one example after the other. -/
structure Writes (put : Heap → Nat → L → Heap) (get : MultiExample → L) : Prop where
  here : ∀ h a l, get (put h a l a) = l
  there : ∀ h a l b, b ≠ a → get (put h a l b) = get (h b)

theorem writes_set_ccb : Writes set_ccb (·.l.conditional_contextual_bandit) :=
  ⟨fun h a l => by rw [ccb_set_ccb, if_pos rfl], fun h a l b hb => by rw [ccb_set_ccb, if_neg hb]⟩

theorem writes_set_slates : Writes set_slates (·.l.slates) :=
  ⟨fun h a l => by rw [slates_set_slates, if_pos rfl],
    fun h a l b hb => by rw [slates_set_slates, if_neg hb]⟩

/-- Labels are written to examples, each to its own. -/
def write_all (put : Heap → Nat → L → Heap) (h : Heap) (ps : List (Nat × L)) : Heap :=
  ps.foldl (fun h p => put h p.1 p.2) h

variable {put : Heap → Nat → L → Heap} {get : MultiExample → L}

theorem Writes.write_all_of_not_mem (hw : Writes put get) {ps : List (Nat × L)} :
    ∀ {h : Heap} {b : Nat}, b ∉ ps.map Prod.fst → get (write_all put h ps b) = get (h b) := by
  induction ps with
  | nil => exact fun _ => rfl
  | cons p ps ih =>
    intro h b hb
    rw [List.map_cons, List.mem_cons, not_or] at hb
    show get (write_all put (put h p.1 p.2) ps b) = get (h b)
    rw [ih hb.2, hw.there _ _ _ _ hb.1]

/-- After that the examples have the labels. -/
theorem Writes.map_write_all (hw : Writes put get) {examples : List Nat} :
    ∀ {h : Heap} {labels : List L}, examples.Nodup → labels.length = examples.length →
      examples.map (fun e => get (write_all put h (examples.zip labels) e)) = labels := by
  induction examples with
  | nil =>
    intro h labels _ hlength
    rw [List.map_nil, List.length_eq_zero_iff.mp hlength]
  | cons e examples ih =>
    intro h labels hnodup hlength
    cases labels with
    | nil => cases hlength
    | cons l labels =>
      rw [List.nodup_cons] at hnodup
      have hlength' : labels.length = examples.length := Nat.succ.inj hlength
      rw [List.map_cons]
      congr 1
      · show get (write_all put (put h e l) (examples.zip labels) e) = l
        rw [hw.write_all_of_not_mem, hw.here]
        rw [List.map_fst_zip hlength'.ge]
        exact hnodup.1
      · exact ih hnodup.2 hlength'

/-- What no single write changes. -/
theorem write_all_keeps {A : Type} {see : MultiExample → A}
    (hsee : ∀ h a l b, see (put h a l b) = see (h b)) (ps : List (Nat × L)) :
    ∀ (h : Heap) (b : Nat), see (write_all put h ps b) = see (h b) := by
  induction ps with
  | nil => exact fun _ _ => rfl
  | cons p ps ih =>
    intro h b
    show see (write_all put (put h p.1 p.2) ps b) = see (h b)
    rw [ih, hsee]

theorem slates_write_all_ccb (ps : List (Nat × CcbLabel)) (h : Heap) (b : Nat) :
    (write_all set_ccb h ps b).l.slates = (h b).l.slates :=
  @write_all_keeps _ set_ccb _ (fun ex => ex.l.slates) (fun h a l b => slates_set_ccb h a b l) ps h b

theorem pred_write_all_slates (ps : List (Nat × Slates.Label)) (h : Heap) (b : Nat) :
    (write_all set_slates h ps b).pred = (h b).pred :=
  @write_all_keeps _ set_slates _ (fun ex => ex.pred) (fun h a l b => pred_set_slates h a b l) ps h b

theorem pred_write_all_ccb (ps : List (Nat × CcbLabel)) (h : Heap) (b : Nat) :
    (write_all set_ccb h ps b).pred = (h b).pred :=
  @write_all_keeps _ set_ccb _ (fun ex => ex.pred) (fun h a l b => pred_set_ccb h a b l) ps h b

end Heap

/-- A base learner over multi-examples, with a state `B` of its own: any call that is given
    pointers and may do to the examples in memory whatever it does, and throw. -/
def BaseLearner (B : Type) : Type := Bool → List Nat → Call (B × Heap) Unit

end VW
