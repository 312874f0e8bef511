import VowpalWabbit.FeatureGroup.Operations
import Mathlib.Algebra.BigOperators.Group.List.Basic

/-! # Runs of operations on feature groups

    What a feature group is for: a list of features, each with the full name,
    by its hash, under which it was added (`Tagged`). A run applies operations
    to a feature group and to such a list side by side. `Reaches` is
    parameterized by a condition on the steps, so that results about all runs
    and about runs that avoid certain steps are stated in the same way.
-/

open Cpp

namespace VW

variable {V : Type}

/-- The operations that change one feature group. -/
inductive Op (V : Type) where
  | push_back (v : V) (i : FeatureIndex)
  | push_back_hash (v : V) (i : FeatureIndex) (hash : BitVec 64)
  | start_ns_extent (hash : BitVec 64)
  | end_ns_extent
  | truncate_to_given (i : Nat) (sum_feat_sq_of_removed_section : V)
  | truncate_to (i : Nat)
  | sort (parse_mask : BitVec 64) (dest_index_vec : List Nat)
  | unique_features (max : BitVec 32)
  | clear

section Apply

variable [Zero V] [Add V] [Sub V] [Mul V]

def Features.apply (f : Features V) : Op V → Features V
  | .push_back v i => f.push_back v i
  | .push_back_hash v i hash => f.push_back_hash v i hash
  | .start_ns_extent hash => f.start_ns_extent hash
  | .end_ns_extent => f.end_ns_extent
  | .truncate_to_given i sum => f.truncate_to_given i sum
  | .truncate_to i => f.truncate_to i
  | .sort _ dest_index_vec => f.sort dest_index_vec
  | .unique_features max => f.unique_features max
  | .clear => f.clear

end Apply

/-! ## Tagged features -/

/-- A feature with the hash under which it was added, if any. -/
abbrev TaggedFeature (V : Type) : Type := V × FeatureIndex × Option (BitVec 64)

/-- The features of a group, and the hash of the extent that is open. -/
structure Tagged (V : Type) where
  features : List (TaggedFeature V)
  opened : Option (BitVec 64)

/-- Of neighbours with equal indices, only the first is kept. -/
def distinct_after {α κ : Type} [DecidableEq κ] (index : α → κ) (last : α) : List α → List α
  | [] => []
  | x :: xs =>
    if index x ≠ index last then x :: distinct_after index x xs else distinct_after index last xs

/-- The rows that `unique_features` keeps; a negative limit is no limit. -/
def distinct {α κ : Type} [DecidableEq κ] (index : α → κ) (max : BitVec 32) (xs : List α) : List α :=
  match xs with
  | [] => []
  | x :: xs => (x :: distinct_after index x xs).take (max.signExtend 64).toNat

namespace Tagged

def empty : Tagged V := ⟨[], none⟩

def tags (t : Tagged V) : List (Option (BitVec 64)) := t.features.map fun x => x.2.2

def apply (t : Tagged V) : Op V → Tagged V
  -- A feature is added under the hash of the extent that is open.
  | .push_back v i => { t with features := t.features ++ [(v, i, t.opened)] }
  -- An open extent of another hash is closed.
  | .push_back_hash v i hash =>
    ⟨t.features ++ [(v, i, some hash)], if t.opened = some hash then t.opened else none⟩
  | .start_ns_extent hash => { t with opened := some hash }
  | .end_ns_extent => { t with opened := none }
  | .truncate_to_given i _ => { t with features := t.features.take i }
  | .truncate_to i => { t with features := t.features.take i }
  | .sort _ dest_index_vec =>
    { t with features := apply_permutation_in_place dest_index_vec t.features }
  | .unique_features max => { t with features := distinct (fun x => x.2.1) max t.features }
  | .clear => empty

def concat (t u : Tagged V) : Tagged V := { t with features := t.features ++ u.features }

end Tagged

/-! ## Runs -/

section Reaches

variable [CommRing V] [LT V]

/-- The sum of the squares of the values, exactly. -/
def sum_squares (values : List V) : V := (values.map fun v => v * v).sum

/-- The last extent is open. -/
def Features.IsOpen (f : Features V) : Prop :=
  ∃ back ∈ f.namespace_extents.getLast?, back.end_index = 0

/-- What an operation asserts, and what its documentation asks of the caller. -/
def Op.Allowed (f : Features V) : Op V → Prop
  | .start_ns_extent _ => ¬ f.IsOpen
  | .end_ns_extent => f.IsOpen
  | .truncate_to_given i sum => i ≤ f.size ∧ sum = sum_squares (f.values.drop i)
  | .truncate_to i => i ≤ f.size
  | .sort parse_mask dest_index_vec =>
    ¬ f.IsOpen ∧ f.SortPermutation parse_mask dest_index_vec
  | .unique_features _ => ¬ f.IsOpen
  | _ => True

/-- A condition on the steps of a run. -/
structure StepCondition (V : Type) where
  step : Features V → Op V → Prop
  concat : Features V → Features V → Prop

/-- Every step is within the condition. -/
def StepCondition.any : StepCondition V := ⟨fun _ _ => True, fun _ _ => True⟩

/-- The feature groups that runs within a condition reach from the empty one. -/
inductive Reaches (c : StepCondition V) : Features V → Tagged V → Prop where
  | empty : Reaches c .empty .empty
  | step {f : Features V} {t : Tagged V} (op : Op V) :
      Reaches c f t → op.Allowed f → c.step f op → Reaches c (f.apply op) (t.apply op)
  -- Both groups are complete.
  | concat {f g : Features V} {t u : Tagged V} :
      Reaches c f t → Reaches c g u → ¬ f.IsOpen → ¬ g.IsOpen → c.concat f g →
        Reaches c (f.concat g) (t.concat u)

end Reaches

end VW
