import VowpalWabbit.Features
import VowpalWabbit.Framework.Tables

/-! # Operations on feature groups

    `core/feature_group.cc` and `core/unique_sort.cc`. An extent whose end is
    zero is open: it grows until it is closed. The values are generic; the
    strings for audit mode are left out.

    `std::sort` leaves the order of equal elements open, so that a sort is
    given the permutation that was computed, and `SortPermutation` says which
    ones can be.
-/

open Cpp

namespace VW

/-! ## Extents -/

namespace Extents

/-- `end_ns_extent` on the list of extents. -/
def end_ns_extent (extents : List NamespaceExtent) (size : Nat) : List NamespaceExtent :=
  match extents.reverse with
  | [] => []
  | back :: rest =>
    -- An extent without features is removed.
    let ended :=
      if back.begin_index = size then rest else { back with end_index := size } :: rest
    match ended with
    | last :: prev :: before =>
      if prev.hash = last.hash then ({ prev with end_index := size } :: before).reverse
      else ended.reverse
    | _ => ended.reverse

/-- The extents after `push_back(v, i, hash)` on a group of `size` features. -/
def push_back (extents : List NamespaceExtent) (size : Nat) (hash : BitVec 64) :
    List NamespaceExtent :=
  let extents :=
    match extents.getLast? with
    | some back => if back.hash ≠ hash ∧ back.end_index = 0 then end_ns_extent extents size else extents
    | none => extents
  match extents.getLast? with
  | some back =>
    if back.hash = hash then
      -- An open extent takes the feature in when it is closed.
      if back.end_index ≠ 0 then
        extents.dropLast ++ [{ back with end_index := back.end_index + 1 }]
      else extents
    else extents ++ [⟨size, size + 1, hash⟩]
  | none => [⟨size, size + 1, hash⟩]

/-- The extents after a truncation to `i` features. -/
def truncate_to (extents : List NamespaceExtent) (i : Nat) : List NamespaceExtent :=
  match extents.reverse.dropWhile (fun extent => i ≤ extent.begin_index) with
  | [] => []
  | back :: rest => ((if i < back.end_index then { back with end_index := i } else back) :: rest).reverse

/-- The extents after a concatenation; `extent_offset` features come first. -/
def concat (extents other : List NamespaceExtent) (extent_offset : Nat) : List NamespaceExtent :=
  let shift (extent : NamespaceExtent) : NamespaceExtent :=
    ⟨extent.begin_index + extent_offset, extent.end_index + extent_offset, extent.hash⟩
  match extents.getLast?, other.head? with
  | some back, some front =>
    if back.hash = front.hash then
      -- The loop runs from `offset` to `size - offset`, with an offset of one.
      extents.dropLast
        ++ [{ back with end_index := back.end_index + (front.end_index - front.begin_index) }]
        ++ ((other.take (other.length - 1)).drop 1).map shift
    else extents ++ other.map shift
  | _, _ => extents ++ other.map shift

/-- What `push_many` appends between two extents. -/
def unused (count : Nat) : List (Bool × BitVec 64) := List.replicate count (false, 0)

def flatten_from (last_end : Nat) (extents : List NamespaceExtent) (size : Nat) :
    List (Bool × BitVec 64) :=
  match extents with
  | [] => if last_end < size then unused (size - last_end) else []
  | extent :: extents =>
    (if last_end < extent.begin_index then unused (extent.begin_index - last_end) else [])
      ++ List.replicate (extent.end_index - extent.begin_index) (true, extent.hash)
      ++ flatten_from extent.end_index extents size

/-- One entry for each feature: whether it is in an extent, and in which. -/
def flatten_namespace_extents (extents : List NamespaceExtent) (overall_feature_space_size : Nat) :
    List (Bool × BitVec 64) :=
  flatten_from 0 extents overall_feature_space_size

def unflatten_from (current : Bool × BitVec 64) (last_start i : Nat)
    (rest : List (Bool × BitVec 64)) : List NamespaceExtent :=
  match rest with
  | [] => if current.1 then [⟨last_start, i, current.2⟩] else []
  | next :: rest =>
    if current ≠ next then
      (if current.1 then [⟨last_start, i, current.2⟩] else []) ++ unflatten_from next i (i + 1) rest
    else unflatten_from current last_start (i + 1) rest

def unflatten_namespace_extents (flattened : List (Bool × BitVec 64)) : List NamespaceExtent :=
  match flattened with
  | [] => []
  | first :: rest => unflatten_from first 0 1 rest

end Extents

/-! ## Sorting -/

section Permutation

variable {α : Type}

/-- The inner loop of `apply_permutation_in_place`, along one cycle; a cycle is
    at most as long as the vector. -/
def follow_cycle (dest_index_vec : List Nat) (i : Nat) :
    Nat → Nat → Nat → List Bool × List α → List Bool × List α
  | 0, _, _, s => s
  | fuel + 1, prev_j, j, (done, vec) =>
    if i = j then (done, vec)
    else
      follow_cycle dest_index_vec i fuel j (dest_index_vec.getD j 0)
        (done.set j true, swap_at vec prev_j j)

/-- All vectors are permuted by the same swaps, which depend on the permutation
    only; this is what happens to one of them. -/
def apply_permutation_in_place (dest_index_vec : List Nat) (vec : List α) : List α :=
  ((List.range vec.length).foldl (fun (s : List Bool × List α) i =>
    if s.1.getD i true then s
    else
      follow_cycle dest_index_vec i vec.length i (dest_index_vec.getD i 0) (s.1.set i true, s.2))
    (List.replicate vec.length false, vec)).2

theorem length_follow_cycle (p : List Nat) (i fuel prev_j j : Nat)
    (s : List Bool × List α) : (follow_cycle p i fuel prev_j j s).2.length = s.2.length := by
  induction fuel generalizing prev_j j s with
  | zero => rfl
  | succ fuel ih =>
    rw [follow_cycle]
    split
    · rfl
    · rw [ih, length_swap_at]

theorem length_apply_permutation_in_place (p : List Nat) (vec : List α) :
    (apply_permutation_in_place p vec).length = vec.length := by
  unfold apply_permutation_in_place
  refine List.foldlRecOn (motive := fun (s : List Bool × List α) => s.2.length = vec.length) _ _ rfl
    fun s hs i _ => ?_
  split
  · exact hs
  · exact (length_follow_cycle p i vec.length i _ _).trans hs

end Permutation

/-! ## Duplicates -/

/-- The loop of `unique_features` over the rows of the group; a row is a value,
    an index and an entry of the flattened extents. It gives the last position
    that is kept. -/
def unique_loop {α κ : Type} [DecidableEq κ] (index : α → κ) (max : Nat) :
    Nat → Nat → Nat → List α → Nat × List α
  | 0, _, last_index, rows => (last_index, rows)
  | count + 1, i, last_index, rows =>
    match rows[i]?, rows[last_index]? with
    | some row, some last =>
      if index row ≠ index last then
        let last_index := last_index + 1
        let rows := if i ≠ last_index then rows.set last_index row else rows
        if max ≤ last_index + 1 then (last_index, rows)
        else unique_loop index max count (i + 1) last_index rows
      else unique_loop index max count (i + 1) last_index rows
    | _, _ => (last_index, rows)

/-! ## Feature groups -/

namespace Features

variable {V : Type}

/-- `push_back(v, i, hash)`. -/
def push_back_hash [Add V] [Mul V] (f : Features V) (v : V) (i : FeatureIndex) (hash : BitVec 64) :
    Features V where
  values := f.values ++ [v]
  indices := f.indices ++ [i]
  namespace_extents := Extents.push_back f.namespace_extents f.indices.length hash
  sum_feat_sq := f.sum_feat_sq + v * v
  size_eq := f.pushed_size_eq v i

def start_ns_extent (f : Features V) (hash : BitVec 64) : Features V :=
  { f with namespace_extents := f.namespace_extents ++ [⟨f.indices.length, 0, hash⟩] }

def end_ns_extent (f : Features V) : Features V :=
  { f with namespace_extents := Extents.end_ns_extent f.namespace_extents f.indices.length }

/-- `truncate_to(i, sum_feat_sq_of_removed_section)`. -/
def truncate_to_given [Sub V] (f : Features V) (i : Nat) (sum_feat_sq_of_removed_section : V) :
    Features V :=
  if i = f.size then f
  else
    { values := f.values.take i
      indices := f.indices.take i
      namespace_extents := Extents.truncate_to f.namespace_extents i
      sum_feat_sq := f.sum_feat_sq - sum_feat_sq_of_removed_section
      size_eq := by simp [f.size_eq] }

/-- The sum that `truncate_to(i)` computes over the section it removes. -/
def sum_of_removed_chunk [Zero V] [Add V] [Mul V] (removed : List V) : V :=
  match removed with
  | [] => 0
  -- Every value is multiplied by the first one of the section.
  | first :: _ => removed.foldl (fun sum v => sum + v * first) 0

def truncate_to [Zero V] [Add V] [Sub V] [Mul V] (f : Features V) (i : Nat) : Features V :=
  f.truncate_to_given i (sum_of_removed_chunk (f.values.drop i))

def concat [Add V] (f other : Features V) : Features V where
  values := f.values ++ other.values
  indices := f.indices ++ other.indices
  namespace_extents := Extents.concat f.namespace_extents other.namespace_extents f.indices.length
  sum_feat_sq := f.sum_feat_sq + other.sum_feat_sq
  size_eq := by simp [f.size_eq, other.size_eq]

/-- The comparison of `sort`; it masks the indices. -/
def comparator [LT V] (parse_mask : BitVec 64) (first second : V × FeatureIndex) : Prop :=
  (first.2 &&& parse_mask) < (second.2 &&& parse_mask) ∨
    (first.2 &&& parse_mask) = (second.2 &&& parse_mask) ∧ first.1 < second.1

/-- What `sort_permutation` may give: the positions in an order in which none
    comes after a greater one. -/
structure SortPermutation [LT V] (f : Features V) (parse_mask : BitVec 64) (p : List Nat) : Prop where
  perm : p.Perm (List.range f.size)
  sorted : p.Pairwise fun i j => ∀ x ∈ f.items[i]?, ∀ y ∈ f.items[j]?, ¬ comparator parse_mask y x

/-- `sort`, with the permutation that `sort_permutation` gives. -/
def sort (f : Features V) (dest_index_vec : List Nat) : Features V :=
  if f.indices = [] then f
  else
    { f with
      values := apply_permutation_in_place dest_index_vec f.values
      indices := apply_permutation_in_place dest_index_vec f.indices
      namespace_extents := Extents.unflatten_namespace_extents (apply_permutation_in_place dest_index_vec
        (Extents.flatten_namespace_extents f.namespace_extents f.indices.length))
      size_eq := by simp [length_apply_permutation_in_place, f.size_eq] }

def clear [Zero V] (_ : Features V) : Features V := empty

/-- The values, the indices and the flattened extents, in parallel. -/
def rows (f : Features V) : List (V × FeatureIndex × (Bool × BitVec 64)) :=
  f.values.zip (f.indices.zip
    (Extents.flatten_namespace_extents f.namespace_extents f.indices.length))

/-- The group with its rows replaced. -/
def with_rows (f : Features V) (rows : List (V × FeatureIndex × (Bool × BitVec 64))) : Features V :=
  { f with
    values := rows.map fun row => row.1
    indices := rows.map fun row => row.2.1
    namespace_extents := Extents.unflatten_namespace_extents (rows.map fun row => row.2.2)
    size_eq := by simp }

/-- `unique_features(fs, max)`; the limit is an `int`. -/
def unique_features [Zero V] [Add V] [Sub V] [Mul V] (f : Features V) (max : BitVec 32) :
    Features V :=
  if f.indices = [] then f
  else if max = 0 then f.clear
  else if max = 1 then f.truncate_to 1
  else
    -- A negative limit wraps around.
    let unique := unique_loop (fun row : V × FeatureIndex × (Bool × BitVec 64) => row.2.1)
      (max.signExtend 64).toNat (f.size - 1) 1 0 f.rows
    (f.with_rows unique.2).truncate_to (unique.1 + 1)

end Features

end VW
