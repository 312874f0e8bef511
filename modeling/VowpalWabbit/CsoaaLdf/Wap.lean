import VowpalWabbit.Slim.Widths

/-! # Weighted all pairs over label-dependent features

    The `wap` training of `reductions/csoaa_ldf.cc`: for each pair of examples the base learns
    on the earlier one, to which the features of the later one are added with opposite values,
    interactions included, in the WAP namespace. Afterwards both are put back.

    Arithmetic is exact. The examples of a sequence are different objects, addressed by their
    position; of the base it is read that it returns, and sets the partial prediction.
-/

open Cpp

namespace VW.CsoaaLdf

open List

def WAP_LDF_NAMESPACE : NamespaceIndex := 126

/-- The namespace of label features, `l`. -/
def LABEL_NAMESPACE : NamespaceIndex := 108

structure CsClass (R : Type) where
  x : R
  class_index : BitVec 32
  wap_value : R

/-- `VW::example`; `label` is `l.simple.label`, `initial` one of the reduction features, and
    `costs` is `l.cs.costs`. -/
structure Example (R : Type) extends ExampleNamespaces R where
  ft_offset : BitVec 64
  num_features : BitVec 64
  total_sum_feat_sq_calculated : Bool
  weight : R
  partial_prediction : R
  label : R
  initial : R
  costs : List (CsClass R)

/-- What `foreach_feature` reads of the workspace. -/
structure Settings where
  ignore_some_linear : Bool
  ignore_linear : NamespaceIndex → Bool
  interactions : List (List NamespaceIndex)
  extent_interactions : List (List ExtentTerm)
  permutations : Bool

abbrev LabelFeatureMap (R : Type) : Type := BitVec 64 → Option (Features R)

structure Ldf (R : Type) where
  label_features : LabelFeatureMap R
  ft_offset : BitVec 64

/-- The base learner: the partial prediction, and its state after it has learned. -/
structure Base (B R : Type) where
  learn : Example R → B → R × B

/-- A call of the base for `ec_seq[k1]`, less `ec_seq[k2]`; the examples as they stand. -/
structure Learned (R : Type) where
  k1 : Nat
  k2 : Nat
  ec1 : Example R
  ec2 : Example R

structure State (B R : Type) where
  ec_seq : List (Example R)
  base : B
  calls : List (Learned R)

variable {B R : Type}

/-! ## The features of an example -/

section Layout

variable [Zero R]

/-- The feature groups in memory. Iterators are only compared for equality; the WAP namespace,
    which grows, comes behind the others. -/
def address (feature_space : NamespaceIndex → Features R) (ns : NamespaceIndex) : Nat :=
  let others := Function.update feature_space WAP_LDF_NAMESPACE .empty
  if ns = WAP_LDF_NAMESPACE then Slim.address others 255 + (others 255).size else Slim.address others ns

theorem address_add_le (feature_space : NamespaceIndex → Features R) {ns : NamespaceIndex}
    (h : ns ≠ WAP_LDF_NAMESPACE) :
    address feature_space ns + (feature_space ns).size ≤ address feature_space WAP_LDF_NAMESPACE := by
  unfold address
  rw [if_neg h, if_pos rfl, ← Function.update_of_ne h Features.empty feature_space]
  by_cases hlast : ns = 255
  · rw [hlast]
  · have hlt : ns.toNat < (255 : NamespaceIndex).toNat := by
      have := ns.isLt
      have : ns.toNat ≠ 255 := fun heq => hlast (BitVec.eq_of_toNat_eq heq)
      show ns.toNat < 255
      omega
    exact (Slim.address_add_le _ hlt).trans (Nat.le_add_right _ _)

/-- What `generate_interactions` reads of an example. -/
def Example.to_predict (ec : Example R) : ExamplePredict R where
  feature_space := ec.feature_space
  ft_offset := ec.ft_offset
  address := address ec.feature_space
  separate := by
    intro ns ns' hne p hp q hq
    by_cases hns : ns = WAP_LDF_NAMESPACE
    · subst hns
      have := address_add_le ec.feature_space hne.symm
      omega
    by_cases hns' : ns' = WAP_LDF_NAMESPACE
    · subst hns'
      have := address_add_le ec.feature_space hne
      omega
    have hseparate := (Slim.to_predict ⟨[], Function.update ec.feature_space WAP_LDF_NAMESPACE .empty⟩ 0).separate
      ns ns' hne p (by simpa [Slim.to_predict, hns] using hp) q (by simpa [Slim.to_predict, hns'] using hq)
    unfold address
    rwa [if_neg hns, if_neg hns']

end Layout

section Code

variable [Field R]

/-- The loops of `foreach_feature` over the namespaces. -/
def linear_features (all : Settings) (ec : Example R) : List (R × FeatureIndex) :=
  let indices := ec.indices.filter fun ns => !(all.ignore_some_linear && all.ignore_linear ns)
  indices.flatMap fun ns => (ec.feature_space ns).items.map fun f => (f.1, f.2 + ec.ft_offset)

/-- `foreach_feature` over all namespaces and interactions: the calls of its function. -/
def foreach_feature (fuel : Nat) (all : Settings) (ec : Example R) : Option (List (R × FeatureIndex)) := do
  let (_, interacted) ← generate_interactions fuel all.interactions all.extent_interactions all.permutations
    ec.to_predict
  pure (linear_features all ec ++ interacted)

def append_example_namespace (ec : Example R) (ns : NamespaceIndex) (fs : Features R) : Example R :=
  { ec with
    toExampleNamespaces := Slim.append_example_namespace ec.toExampleNamespaces ns fs
    num_features := ec.num_features + BitVec.ofNat 64 fs.size
    total_sum_feat_sq_calculated := false }

def truncate_example_namespace (ec : Example R) (ns : NamespaceIndex) (fs : Features R) : Example R :=
  let del_target := ec.feature_space ns
  { ec with
    indices := if ec.indices.getLast? = some ns ∧ del_target.size = fs.size then ec.indices.dropLast else ec.indices
    feature_space := Function.update ec.feature_space ns
      (del_target.truncate_to_given (del_target.size - fs.size) fs.sum_feat_sq)
    num_features := ec.num_features - BitVec.ofNat 64 fs.size
    total_sum_feat_sq_calculated := false }

def append_example_namespace_from_memory (lfm : LabelFeatureMap R) (ec : Example R) (lab : BitVec 64) : Example R :=
  match lfm lab with
  | none => ec
  | some fs => append_example_namespace ec LABEL_NAMESPACE fs

def truncate_example_namespace_from_memory (lfm : LabelFeatureMap R) (ec : Example R) (lab : BitVec 64) :
    Example R :=
  match lfm lab with
  | none => ec
  | some fs => truncate_example_namespace ec LABEL_NAMESPACE fs

def subtract_feature (ec : Example R) (f : R × FeatureIndex) : Example R :=
  { ec with
    feature_space := Function.update ec.feature_space WAP_LDF_NAMESPACE
      ((ec.feature_space WAP_LDF_NAMESPACE).push_back_hash (-f.1) f.2 (WAP_LDF_NAMESPACE.setWidth 64)) }

/-- `subtract_example`, when these are the calls of `subtract_feature`. -/
def subtract_features (ec : Example R) (fs : List (R × FeatureIndex)) : Example R :=
  let wap_fs := { ec.feature_space WAP_LDF_NAMESPACE with sum_feat_sq := 0 }
  let ec := fs.foldl subtract_feature
    { ec with feature_space := Function.update ec.feature_space WAP_LDF_NAMESPACE wap_fs }
  { ec with
    indices := ec.indices ++ [WAP_LDF_NAMESPACE]
    num_features := ec.num_features + BitVec.ofNat 64 (ec.feature_space WAP_LDF_NAMESPACE).size
    total_sum_feat_sq_calculated := false }

def subtract_example (fuel : Nat) (all : Settings) (ec ecsub : Example R) : Option (Example R) :=
  (foreach_feature fuel all ecsub).map (subtract_features ec)

/-- `unsubtract_example`; otherwise it logs an internal error. -/
def unsubtract_example (ec : Example R) : Example R :=
  if ec.indices.getLast? = some WAP_LDF_NAMESPACE then
    { ec with
      indices := ec.indices.dropLast
      feature_space := Function.update ec.feature_space WAP_LDF_NAMESPACE .empty
      num_features := ec.num_features - BitVec.ofNat 64 (ec.feature_space WAP_LDF_NAMESPACE).size
      total_sum_feat_sq_calculated := false }
  else ec

variable [LinearOrder R]

/-- The values behind the first one, from the cost and the value before. -/
def wap_values (x wap_value : R) : Nat → List R → List R
  | _, [] => []
  | i, x' :: xs => (wap_value + (x' - x) / i) :: wap_values x' (wap_value + (x' - x) / i) (i + 1) xs

/-- `compute_wap_values`: the pointers are positions, and `costs[0]` of the sorted ones is read. -/
def compute_wap_values (costs : List (CsClass R)) : Option (List (CsClass R)) := do
  let x (i : Nat) : R := (costs.map (·.x)).getD i 0
  let sorted := (range costs.length).mergeSort fun a b => decide (x a ≤ x b)
  let first ← sorted.head?
  let values := 0 :: wap_values (x first) 0 1 (sorted.tail.map x)
  pure (costs.mapIdx fun i cost => { cost with wap_value := values.getD (sorted.idxOf i) 0 })

variable (fuel : Nat) (all : Settings) (data : Ldf R) (base : Base B R)

/-- The example that is learned on, before the subtraction. -/
def prepare (ec1 : Example R) (cost1 cost2 : CsClass R) : Example R :=
  { ec1 with
    initial := 0
    label := if cost1.x < cost2.x then -1 else 1
    weight := |cost2.wap_value - cost1.wap_value|
    partial_prediction := 0 }

/-- The base learns on `ec1` less `ec2`, and both are put back. -/
def learn_difference (k1 k2 : Nat) (ec1 ec2 : Example R) (cost1 cost2 : CsClass R) (s : State B R) :
    Option (State B R) := do
  let lab := cost2.class_index.setWidth 64
  let ec2 := append_example_namespace_from_memory data.label_features ec2 lab
  let subtracted ← subtract_example fuel all (prepare ec1 cost1 cost2) ec2
  let learned := { subtracted with ft_offset := data.ft_offset }
  let result := base.learn learned s.base
  let restored := unsubtract_example { learned with
    partial_prediction := result.1, ft_offset := ec1.ft_offset, weight := ec1.weight }
  pure {
    ec_seq := (s.ec_seq.set k1 restored).set k2
      (truncate_example_namespace_from_memory data.label_features ec2 lab)
    base := result.2
    calls := s.calls ++ [⟨k1, k2, learned, ec2⟩] }

/-- The pairs that are learned on. -/
def differ (cost1 cost2 : CsClass R) : Bool :=
  !(cost2.class_index == -1) && !decide (|cost2.wap_value - cost1.wap_value| < 1 / 10 ^ 6)

/-- A round of the inner loop. -/
def inner_round (k1 : Nat) (cost1 : CsClass R) (s : State B R) (k2 : Nat) : Option (State B R) := do
  let ec1 ← s.ec_seq[k1]?
  let ec2 ← s.ec_seq[k2]?
  let cost2 ← ec2.costs.head?
  if differ cost1 cost2 then learn_difference fuel all data base k1 k2 ec1 ec2 cost1 cost2 s
  else pure s

/-- The inner loop, with the label features of `ec1` and the guard. -/
def learn_first (k1 : Nat) (ec1 : Example R) (cost1 : CsClass R) (s : State B R) : Option (State B R) := do
  let lab := cost1.class_index.setWidth 64
  let appended := append_example_namespace_from_memory data.label_features ec1 lab
  let s ← (range' (k1 + 1) (s.ec_seq.length - (k1 + 1))).foldlM (inner_round fuel all data base k1 cost1)
    { s with ec_seq := s.ec_seq.set k1 appended }
  let ec1' ← s.ec_seq[k1]?
  let restored := { truncate_example_namespace_from_memory data.label_features ec1' lab with costs := ec1.costs }
  pure { s with ec_seq := s.ec_seq.set k1 restored }

/-- A round of the outer loop. -/
def outer_round (s : State B R) (k1 : Nat) : Option (State B R) := do
  let ec1 ← s.ec_seq[k1]?
  let cost1 ← ec1.costs.head?
  if cost1.class_index = -1 then pure s
  else learn_first fuel all data base k1 ec1 cost1 s

/-- The wap value of the first cost is set. -/
def set_wap_value (ec : Example R) (cost : CsClass R) : Example R := { ec with costs := ec.costs.set 0 cost }

def do_actual_learning_wap (b : B) (ec_seq : List (Example R)) : Option (State B R) := do
  let all_costs ← ec_seq.mapM fun ec => ec.costs.head?
  let costs ← compute_wap_values all_costs
  (range ec_seq.length).foldlM (outer_round fuel all data base)
    ⟨ec_seq.zipWith set_wap_value costs, b, []⟩

end Code

end VW.CsoaaLdf
