import VowpalWabbit.Framework.Outcome
import VowpalWabbit.Interactions.Generator
import VowpalWabbit.Interactions.Related

/-! # The weights of sub-models

    The bagged prediction of slim scales the indices of all features and adds the number of
    the sub-model. VW multiplies them by its total feature width when an example is set up,
    and the learners add the offset of the sub-model.
-/

open Cpp

namespace VW.Slim

variable {V : Type}

/-! ## Widths -/

def ceil_log_2 (v : Nat) : Nat :=
  if v = 0 then 0 else 1 + ceil_log_2 (v / 2)
termination_by v
decreasing_by omega

/-- The loop for `interleave_shifts`, in 64 bit. -/
def interleave_loop (feature_width_below : Nat) : Nat → Nat → Nat
  | 0, interleave_shifts => interleave_shifts
  | fuel + 1, interleave_shifts =>
    if 2 ^ interleave_shifts < feature_width_below then
      interleave_loop feature_width_below fuel (interleave_shifts + 1)
    else interleave_shifts

/-- `total_feature_width`. The shift is one of an `int`, which has 31 bits for it. -/
def total_feature_width (feature_width_below : Nat) (stride_shift : Nat) : Outcome (BitVec 32) :=
  let interleave_shifts := interleave_loop feature_width_below 64 0
  if 31 ≤ interleave_shifts then Outcome.undefined
  else .ok ((1#32 <<< interleave_shifts) >>> stride_shift)

/-! ## Examples -/

def CONSTANT_NAMESPACE : NamespaceIndex := 128

def CONSTANT : FeatureIndex := 11650396

/-- An example before anything is added: its namespaces are different, those that are not listed
    are empty, and that of the constant is not used. -/
structure RawExample (V : Type) [Zero V] extends ExampleNamespaces V where
  nodup : indices.Nodup
  absent : ∀ ns, ns ∉ indices → feature_space ns = Features.empty
  reserved : CONSTANT_NAMESPACE ∉ indices

/-- Another feature group for a namespace. -/
def set_features (ex : ExampleNamespaces V) (ns : NamespaceIndex) (f : Features V) : ExampleNamespaces V :=
  { ex with feature_space := Function.update ex.feature_space ns f }

/-- A namespace of an example, added to its end if it is new. -/
def ensure_namespace (ex : ExampleNamespaces V) (ns : NamespaceIndex) : ExampleNamespaces V :=
  if ns ∈ ex.indices then ex else { ex with indices := ex.indices ++ [ns] }

/-- The indices of a feature group, multiplied. -/
def scale_features (scale : BitVec 64) (f : Features V) : Features V :=
  { f with indices := f.indices.map (· * scale), size_eq := by rw [List.length_map]; exact f.size_eq }

/-- The loop over the namespaces of an example and their features. -/
def scale_indices (scale : BitVec 64) (ex : ExampleNamespaces V) : ExampleNamespaces V :=
  ex.indices.foldl (fun ex ns => set_features ex ns (scale_features scale (ex.feature_space ns))) ex

section Add

variable [Add V] [Mul V]

/-- `namespace_copy_guard`, with the features pushed. -/
def copy_namespace (ex : ExampleNamespaces V) (ns : NamespaceIndex) (fs : List (V × FeatureIndex)) :
    ExampleNamespaces V :=
  let ex := ensure_namespace ex ns
  set_features ex ns ((ex.feature_space ns).push_all fs)

def append_example_namespace (ex : ExampleNamespaces V) (ns : NamespaceIndex) (fs : Features V) :
    ExampleNamespaces V :=
  let ex := ensure_namespace ex ns
  set_features ex ns ((ex.feature_space ns).concat fs)

/-! ## Slim -/

def feature_scale_guard (ex : ExampleNamespaces V) (ft_index_scale : BitVec 64) : ExampleNamespaces V :=
  if 1 < ft_index_scale then scale_indices ft_index_scale ex else ex

/-- The example of a prediction: the shared features are copied, and the constant is added. -/
def slim_example [One V] (no_constant : Bool) (feature_scale_bits : Nat) (ft_offset : BitVec 64)
    (shared action : ExampleNamespaces V) : ExampleNamespaces V :=
  let ex := shared.indices.foldl (fun ex ns => copy_namespace ex ns (shared.feature_space ns).items) action
  if no_constant then ex
  else copy_namespace ex CONSTANT_NAMESPACE [(1, (CONSTANT <<< feature_scale_bits) + ft_offset)]

/-- The example of the bagged prediction of the sub-model `i`. -/
def bag_example [One V] (bag_size : Nat) (no_constant : Bool) (i : Nat) (shared action : ExampleNamespaces V) :
    ExampleNamespaces V :=
  let feature_scale_bits := ceil_log_2 bag_size
  let feature_scale := 1#64 <<< feature_scale_bits
  slim_example no_constant feature_scale_bits (BitVec.ofNat 64 i) (feature_scale_guard shared feature_scale)
    (feature_scale_guard action feature_scale)

/-! ## VW -/

def add_constant_feature [One V] (ex : ExampleNamespaces V) : ExampleNamespaces V :=
  set_features { ex with indices := ex.indices ++ [CONSTANT_NAMESPACE] } CONSTANT_NAMESPACE
    ((ex.feature_space CONSTANT_NAMESPACE).push_back 1 CONSTANT)

/-- `setup_example`, for the indices. -/
def setup_example [One V] (no_constant : Bool) (total_feature_width : BitVec 32) (stride_shift : Nat)
    (ex : ExampleNamespaces V) : ExampleNamespaces V :=
  let ex := if no_constant then ex else add_constant_feature ex
  let multiplier := total_feature_width.setWidth 64 <<< stride_shift
  if multiplier ≠ 1 then scale_indices multiplier ex else ex

def append_example_namespaces_from_example (target source : ExampleNamespaces V) : ExampleNamespaces V :=
  source.indices.foldl (fun target ns =>
    if ns = CONSTANT_NAMESPACE then target else append_example_namespace target ns (source.feature_space ns)) target

/-- The example that the learner of the sub-model is called with. -/
def vw_example [One V] (no_constant : Bool) (total_feature_width : BitVec 32) (stride_shift : Nat)
    (shared action : ExampleNamespaces V) : ExampleNamespaces V :=
  append_example_namespaces_from_example (setup_example no_constant total_feature_width stride_shift action)
    (setup_example no_constant total_feature_width stride_shift shared)

end Add

/-- `increment_offset`, from an offset of 0; below the sub-models there is the stride. -/
def vw_offset (stride_shift i : Nat) : BitVec 64 := (BitVec.ofNat 32 (2 ^ stride_shift * i)).setWidth 64

/-! ## The weights that are read -/

/-- The index into the weights of slim. -/
def slim_weight (num_bits : Nat) (index : FeatureIndex) : BitVec 64 := index &&& ((1#64 <<< num_bits) - 1#64)

/-- The index into the weights of VW, in strides. -/
def vw_weight (num_bits stride_shift : Nat) (index : FeatureIndex) : BitVec 64 :=
  (index &&& (((1#64 <<< num_bits) <<< stride_shift) - 1#64)) >>> stride_shift

/-- The feature groups in memory, one after the other. -/
def address (feature_space : NamespaceIndex → Features V) (ns : NamespaceIndex) : Nat :=
  ((List.range ns.toNat).map fun k => (feature_space (BitVec.ofNat 8 k)).size).sum

theorem address_add_le (feature_space : NamespaceIndex → Features V) {ns ns' : NamespaceIndex}
    (h : ns.toNat < ns'.toNat) : address feature_space ns + (feature_space ns).size ≤ address feature_space ns' := by
  have hsucc : address feature_space ns + (feature_space ns).size =
      ((List.range (ns.toNat + 1)).map fun k => (feature_space (BitVec.ofNat 8 k)).size).sum := by
    unfold address
    rw [List.range_succ, List.map_append, List.sum_append, List.map_singleton, List.sum_singleton,
      BitVec.ofNat_toNat, BitVec.setWidth_eq]
  rw [hsucc]
  exact ((List.range_sublist.mpr h).map _).sum_le_sum fun _ _ => Nat.zero_le _

/-- What is read of an example. -/
def to_predict (ex : ExampleNamespaces V) (ft_offset : BitVec 64) : ExamplePredict V where
  feature_space := ex.feature_space
  ft_offset := ft_offset
  address := address ex.feature_space
  separate := by
    intro ns ns' hne p hp q hq
    have hne' : ns.toNat ≠ ns'.toNat := fun h => hne (BitVec.eq_of_toNat_eq h)
    rcases Nat.lt_or_gt_of_ne hne' with h | h
    · have hle := address_add_le ex.feature_space h
      omega
    · have hle := address_add_le ex.feature_space h
      omega

end VW.Slim
