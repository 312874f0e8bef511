import VowpalWabbit.Framework.Text
import VowpalWabbit.Slates.Labels

/-! # The driver of multi-line learners

    `multi_example_handler` collects the examples that come out of the parser. A newline or the
    end of a pass hands what was collected to the learner; a save command is carried out at
    once. What the learner and the workspace are asked to do is recorded.

    Examples that belong to the pool of the parser are cleaned when they are finished, and the
    handler reads their fields after that. The parser thread, which may fill such an example
    again at the same time, is not modelled.
-/

open Cpp

namespace VW.Driver

/-! ## Labels -/

structure CsClass where
  x : Single := 0
  class_index : BitVec 32 := 0

structure ContinuousLabelElm where
  cost : Single := 0
  pdf_value : Single := 0

/-- `polylabel`, with what decides about tests and headers. -/
structure PolyLabel extends VW.PolyLabel where
  simple : Single := FLT_MAX
  multi : BitVec 32 := BitVec.allOnes 32
  cs : List CsClass := []
  cb_cont : List ContinuousLabelElm := []
  /-- The event. -/
  cb_eval : CbLabel := {}
  multilabels : List (BitVec 32) := []
  /-- The event. -/
  cb_with_observations : CbLabel := {}

/-- `label_type_t`. -/
inductive LabelType where
  | SIMPLE
  | CB
  | CB_EVAL
  | CB_WITH_OBSERVATIONS
  | CS
  | MULTILABEL
  | MULTICLASS
  | CCB
  | SLATES
  | NOLABEL
  | CONTINUOUS
  deriving DecidableEq

def CbLabel.is_test_label (label : CbLabel) : Bool :=
  label.costs.all fun cost => !(decide (cost.cost ≠ FLT_MAX) && (0 : Single).lt cost.probability)

/-- `default_label` of the parser of a type of labels. -/
def default_label (label_type : LabelType) (l : PolyLabel) : PolyLabel :=
  match label_type with
  | .SIMPLE => { l with simple := FLT_MAX }
  | .CB => { l with cb := {} }
  | .CB_EVAL => { l with cb_eval := {} }
  | .CB_WITH_OBSERVATIONS => { l with cb_with_observations := {} }
  | .CS => { l with cs := [] }
  | .MULTILABEL => { l with multilabels := [] }
  | .MULTICLASS => { l with multi := BitVec.allOnes 32 }
  | .CCB => { l with conditional_contextual_bandit := CcbLabel.reset_to_default }
  | .SLATES => { l with slates := {} }
  | .NOLABEL => l
  | .CONTINUOUS => { l with cb_cont := [] }

/-- `test_label` of the parser of a type of labels. -/
def test_label (label_type : LabelType) (l : PolyLabel) : Bool :=
  match label_type with
  | .SIMPLE => decide (l.simple = FLT_MAX)
  | .CB => CbLabel.is_test_label l.cb
  | .CB_EVAL => CbLabel.is_test_label l.cb_eval
  | .CB_WITH_OBSERVATIONS => CbLabel.is_test_label l.cb_with_observations
  | .CS => l.cs.all fun cost => decide (cost.x = FLT_MAX)
  | .MULTILABEL => l.multilabels.isEmpty
  | .MULTICLASS => decide (l.multi = BitVec.allOnes 32)
  | .CCB => l.conditional_contextual_bandit.outcome.isNone
  | .SLATES => !l.slates.labeled
  | .NOLABEL => false
  | .CONTINUOUS => l.cb_cont.all fun cost => !(decide (cost.cost ≠ FLT_MAX) && (0 : Single).lt cost.pdf_value)

/-- `ec_is_example_header_cb`. -/
def is_header_cb (label : CbLabel) : Bool :=
  match label.costs with
  | [cost] => decide (cost.probability = Single.neg_one)
  | _ => false

/-- `-FLT_MAX`. -/
def NEG_FLT_MAX : Single := ⟨0xff7fffff⟩

def ec_is_example_header (label_type : LabelType) (l : PolyLabel) : Bool :=
  match label_type with
  | .CB => is_header_cb l.cb
  | .CB_WITH_OBSERVATIONS => is_header_cb l.cb_with_observations
  | .CCB => decide (l.conditional_contextual_bandit.type = .SHARED)
  | .CS =>
    match l.cs with
    | [cost] => decide (cost.class_index = 0) && decide (cost.x = NEG_FLT_MAX)
    | _ => false
  | _ => false

/-- A default label is one of a test and not of a header, whatever it was made of. Labels of
    type `NOLABEL`, which no multi-line learner has, are never those of tests. -/
theorem default_label_spec {label_type : LabelType} (h : label_type ≠ .NOLABEL) (l : PolyLabel) :
    test_label label_type (default_label label_type l) = true ∧
      ec_is_example_header label_type (default_label label_type l) = false := by
  cases label_type with
  | NOLABEL => exact absurd rfl h
  | SIMPLE => simp [test_label, default_label, ec_is_example_header]
  | MULTICLASS => simp [test_label, default_label, ec_is_example_header]
  | CB => exact ⟨rfl, rfl⟩
  | CB_EVAL => exact ⟨rfl, rfl⟩
  | CB_WITH_OBSERVATIONS => exact ⟨rfl, rfl⟩
  | CS => exact ⟨rfl, rfl⟩
  | MULTILABEL => exact ⟨rfl, rfl⟩
  | CCB => exact ⟨rfl, rfl⟩
  | SLATES => exact ⟨rfl, rfl⟩
  | CONTINUOUS => exact ⟨rfl, rfl⟩

/-! ## Examples -/

/-- `example`, what the driver looks at. -/
structure Example where
  indices : List Byte
  tag : List Byte
  l : PolyLabel
  end_pass : Bool
  is_newline : Bool
  /-- `is_from_pool`. -/
  from_pool : Bool

/-- `finish_example`: the example is emptied if it goes back to the pool. -/
def finish_example (ec : Example) : Example :=
  if ec.from_pool then { ec with indices := [], tag := [], end_pass := false, is_newline := false } else ec

def is_save_cmd (ec : Example) : Bool := decide (4 ≤ ec.tag.length) && decide (ec.tag.take 4 = text "save")

def example_is_newline_not_header (label_type : LabelType) (ec : Example) : Bool :=
  ec.is_newline && !ec_is_example_header label_type ec.l

/-! ## The handler -/

/-- What the learner and the workspace are asked to do. -/
inductive Event where
  | learn_multi_ex (ec_seq : List Example)
  | end_pass (ec : Example)
  | save (ec : Example) (final_regressor_name : List Byte)
  | finish_example (ec : Example)

/-- The examples that an event takes. -/
def Event.examples : Event → List Example
  | .learn_multi_ex ec_seq => ec_seq
  | .end_pass ec => [ec]
  | .save ec _ => [ec]
  | .finish_example ec => [ec]

/-- `multi_example_handler`, with what was done so far. -/
structure Handler where
  ec_seq : List Example := []
  events : List Event := []

/-- What the handler is run with. -/
structure Context where
  label_type : LabelType
  final_regressor_name : List Byte
  /-- Whether the learners have asked to stop early, by what was done so far. -/
  set_done : List Event → Bool

/-- `early_terminate`, which stays set. -/
def Context.early_terminate (c : Context) (events : List Event) : Bool := events.inits.any c.set_done

/-- The name of the file of a save command. -/
def save_name (c : Context) (ec : Example) : List Byte :=
  if 6 ≤ ec.tag.length ∧ ec.tag[4]? = some 95 then ec.tag.drop 5 else c.final_regressor_name

/-- Something is done. -/
def Handler.process (h : Handler) (event : Event) : Handler := { h with events := h.events ++ [event] }

def complete_multi_ex (c : Context) (h : Handler) (ec : Example) : Handler × Bool :=
  let is_test_ec := test_label c.label_type ec.l
  let is_newline := example_is_newline_not_header c.label_type ec && is_test_ec
  let h := if !is_newline && !ec.end_pass then { h with ec_seq := h.ec_seq ++ [ec] } else h
  (h, (is_newline || ec.end_pass) && !h.ec_seq.isEmpty)

/-- `try_complete_multi_ex`: the handler, the example, and whether the group is complete. -/
def try_complete_multi_ex (c : Context) (h : Handler) (ec : Example) : Handler × Example × Bool :=
  if 1 < ec.indices.length then
    let (h, complete) := complete_multi_ex c h ec
    (h, ec, complete)
  else if is_save_cmd ec then (h.process (.save ec (save_name c ec)), finish_example ec, false)
  else
    let (h, complete) := complete_multi_ex c h ec
    (h, ec, complete)

/-- The group is learned from. -/
def Handler.learn (h : Handler) : Handler :=
  { ec_seq := [], events := h.events ++ [.learn_multi_ex h.ec_seq] }

/-- `on_example`. An assertion that no examples are pending fails as undefined behaviour. -/
def on_example (c : Context) (h : Handler) (ec : Example) : Outcome Handler :=
  let (h, ec, complete) := try_complete_multi_ex c h ec
  let h := if complete then h.learn else h
  if ec.end_pass then
    if h.ec_seq.isEmpty then .ok (h.process (.end_pass ec)) else Outcome.undefined
  else if ec.is_newline then
    if h.ec_seq.isEmpty then .ok (h.process (.finish_example ec)) else Outcome.undefined
  else .ok h

def process_remaining (h : Handler) : Handler := if h.ec_seq.isEmpty then h else h.learn

/-- `process_examples`: the handler, and the examples left in the queue. -/
def process_examples (c : Context) : List Example → Handler → Outcome (Handler × List Example)
  | [], h => .ok (h, [])
  | ec :: examples, h =>
    if c.early_terminate h.events then .ok (h, ec :: examples)
    else do
      let h ← on_example c h ec
      process_examples c examples h

/-- `drain_examples`, up to the end of the learner. -/
def drain_examples (c : Context) (h : Handler) (examples : List Example) : Handler × List Example :=
  if c.early_terminate h.events then
    ({ h with events := h.events ++ examples.map .finish_example }, [])
  else (h, examples)

/-- `generic_driver`, of a multi-line learner. -/
def generic_driver (c : Context) (examples : List Example) : Outcome (Handler × List Example) := do
  let (h, examples) ← process_examples c examples {}
  return drain_examples c (process_remaining h) examples

end VW.Driver
