import VowpalWabbit.Framework.Calls
import Mathlib.Algebra.Order.Field.Basic

/-! # Examples and base learners under the tree reductions

    The tree reductions turn the label of an example into labels for the learner below them,
    one for each node that they ask about, and put it back. The learner below sees the example
    and the number of a node. It changes its own weights and, of the example, the prediction,
    the partial prediction and the loss.

    Numbers are elements of an ordered field, so that sums and products are exact.
-/

open Cpp

namespace VW.Trees

structure MulticlassLabel (R : Type) where
  label : Nat
  weight : R

structure CbClass (R : Type) where
  cost : R
  action : Nat
  probability : R
  partial_prediction : R

structure CbLabel (R : Type) where
  costs : List (CbClass R)
  weight : R

/-- The members of `polylabel` that the tree reductions touch. -/
structure PolyLabel (R : Type) where
  simple : R
  multi : MulticlassLabel R
  cb : CbLabel R
  multilabels : List Nat

/-- The members of `polyprediction` that the tree reductions touch. -/
structure PolyPrediction (R : Type) where
  scalar : R
  a_s : List (Nat × R)
  multiclass : Nat
  multilabels : List Nat

structure SimpleLabelReductionFeatures (R : Type) where
  weight : R
  initial : R

/-- What a tree reduction touches of an `example`. -/
structure Example (R : Type) where
  l : PolyLabel R
  weight : R
  pred : PolyPrediction R
  partial_prediction : R
  loss : R
  simple_label_reduction_features : SimpleLabelReductionFeatures R

/-- What a base learner may change of an example. -/
structure Answer (R : Type) where
  pred : PolyPrediction R
  partial_prediction : R
  loss : R

/-- A base learner with weights `W`. The number is that of the model that is asked. -/
structure BaseLearner (W R : Type) where
  learn : Nat → Example R → W → Answer R × W
  predict : Nat → Example R → W → Answer R × W

/-- A question to the base learner. -/
structure Asked (R : Type) where
  learns : Bool
  index : Nat
  label : R
  weight : R
  deriving DecidableEq

/-- The weights of the base learner, the example, and what the learner was asked so far. -/
structure State (W R : Type) where
  weights : W
  ec : Example R
  asked : List (Asked R)

variable {W R : Type}

/-- The example with the answer in it. -/
def Example.answered (ec : Example R) (answer : Answer R) : Example R :=
  { ec with pred := answer.pred, partial_prediction := answer.partial_prediction, loss := answer.loss }

def State.answered (s : State W R) (learns : Bool) (i : Nat) (answer : Answer R × W) : State W R where
  weights := answer.2
  ec := s.ec.answered answer.1
  asked := s.asked ++ [⟨learns, i, s.ec.l.simple, s.ec.weight⟩]

/-- `base.learn(ec, i)`. -/
def BaseLearner.learns (base : BaseLearner W R) (i : Nat) : Call (State W R) Unit :=
  Call.modify fun s => s.answered true i (base.learn i s.ec s.weights)

/-- `base.predict(ec, i)`. -/
def BaseLearner.predicts (base : BaseLearner W R) (i : Nat) : Call (State W R) Unit :=
  Call.modify fun s => s.answered false i (base.predict i s.ec s.weights)

/-- A change of the example. -/
def set_ec (f : Example R → Example R) : Call (State W R) Unit :=
  Call.modify fun s => { s with ec := f s.ec }

def get_ec : Call (State W R) (Example R) := do
  let s ← Call.get
  pure s.ec

/-- `ec.l.simple = {label}`. -/
def set_simple (label : R) : Call (State W R) Unit :=
  set_ec fun ec => { ec with l := { ec.l with simple := label } }

def set_weight (weight : R) : Call (State W R) Unit := set_ec fun ec => { ec with weight := weight }

section Field

variable [Field R]

scoped instance at_least_two : Nat.AtLeastTwo 2 := ⟨Nat.le_refl 2⟩

def FLT_MAX : R := (2 ^ 24 - 1) * 2 ^ 104

/-- `reset_to_default` of the reduction features of a simple label. -/
def reset_to_default : Call (State W R) Unit :=
  set_ec fun ec => { ec with simple_label_reduction_features := ⟨1, 0⟩ }

end Field

/-- Only models below `n` were asked. -/
def Below (n : Nat) (s : State W R) : Prop := ∀ a ∈ s.asked, a.index < n

section Below

variable {n i : Nat} {base : BaseLearner W R} {T : State W R → Prop}

theorem Below.answered {s : State W R} (h : Below n s) {learns : Bool} (hi : i < n) (answer : Answer R × W) :
    Below n (s.answered learns i answer) := by
  intro a ha
  rcases List.mem_append.mp ha with hold | hnew
  · exact h a hold
  · rw [List.mem_singleton.mp hnew]
    exact hi

theorem learns_below (hi : i < n) : (base.learns i).Finishes (Below n) (fun _ => Below n) T :=
  .modify fun _ hs => hs.answered hi _

theorem predicts_below (hi : i < n) : (base.predicts i).Finishes (Below n) (fun _ => Below n) T :=
  .modify fun _ hs => hs.answered hi _

theorem set_ec_below (f : Example R → Example R) :
    Call.Finishes (set_ec f) (Below n) (fun _ => Below (W := W) n) T :=
  .modify fun _ hs => hs

theorem get_ec_below : Call.Finishes get_ec (Below n) (fun _ => Below (W := W) (R := R) n) T := fun _ hs => hs

end Below

theorem get_ec_leaves {Q : State W R → Prop} : Call.Leaves get_ec Q Q := fun _ hs => hs

theorem set_ec_leaves {P Q : State W R → Prop} {f : Example R → Example R}
    (h : ∀ s, P s → Q { s with ec := f s.ec }) :
    Call.Leaves (set_ec f) P Q := fun s hs => h s hs

/-- The contextual bandit label and the weight of the example. -/
def Holds (cb : CbLabel R) (w : R) (s : State W R) : Prop := s.ec.l.cb = cb ∧ s.ec.weight = w

/-- Nothing is said of the state. -/
def Any {S : Type} (_ : S) : Prop := True

section Quiet

variable {P Q : State W R → Prop} {A : Type} {F : A → State W R → Prop} {T : State W R → Prop}

theorem get_ec_quiet : Call.Quiet get_ec Q fun _ => Q := fun _ hs => hs

theorem set_ec_quiet {f : Example R → Example R} (h : ∀ s, P s → Q { s with ec := f s.ec }) :
    Call.Quiet (set_ec f) P fun _ => Q := fun s hs => h s hs

variable {f : Example R → Call (State W R) A}

/-- What follows `get_ec` knows the example. -/
theorem get_ec_bind_quiet (h : ∀ s, P s → (f s.ec).Quiet (fun s' => s' = s) F) :
    (get_ec >>= f).Quiet P F := fun s hs => h s hs s rfl

theorem get_ec_bind_finishes (h : ∀ s, P s → (f s.ec).Finishes (fun s' => s' = s) F T) :
    (get_ec >>= f).Finishes P F T := fun s hs => h s hs s rfl

/-- What follows does not depend on the state. -/
theorem any_bind_finishes {B : Type} {x : Call (State W R) B} {f : B → Call (State W R) A}
    (hx : x.Finishes P (fun _ => Any) T) (hf : ∀ b, (f b).Finishes Any F T) : (x >>= f).Finishes P F T :=
  hx.bind hf

end Quiet

end VW.Trees
