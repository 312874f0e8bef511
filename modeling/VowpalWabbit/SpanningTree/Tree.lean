import Mathlib.Data.Nat.Log
import VowpalWabbit.Framework.Vectors

/-! # The tree of a cluster

    `build_tree` arranges the nodes `offset, ..., offset + source_count - 1` in a binary tree:
    a left part as large as a full tree can be, the root behind it, the rest at the right.
    Every node reaches the root by its parents.
-/

open Cpp

namespace VW.SpanningTree

/-- `floor(log(source_count) / log(2.0))`, which is computed in floating point: what the tree
    relies on. -/
structure FloorLog2 where
  height : Nat → Nat
  pos : ∀ n, 2 ≤ n → 1 ≤ height n
  pow_le : ∀ n, 1 ≤ n → 2 ^ height n ≤ n

/-- The exact one. -/
def FloorLog2.exact : FloorLog2 where
  height := Nat.log 2
  pos n h := Nat.log_pos (by decide) h
  pow_le n h := Nat.pow_log_le_self 2 (Nat.ne_of_gt h)

variable (floor_log2 : FloorLog2)

/-- `build_tree`: the root, `parent` and `kid_count`. -/
def build_tree (parent : List Int) (kid_count : List (BitVec 16)) (source_count offset : Nat) :
    Outcome (Nat × List Int × List (BitVec 16)) :=
  if source_count = 0 then
    -- the logarithm of 0
    Outcome.undefined
  else if source_count = 1 then do
    let kid_count ← update_nth kid_count offset fun _ => 0
    return (offset, parent, kid_count)
  else do
    let root := 2 ^ floor_log2.height source_count - 1
    let (left_child, parent, kid_count) ← build_tree parent kid_count root offset
    let oroot := root + offset
    let parent ← update_nth parent left_child fun _ => (oroot : Int)
    let right_count := source_count - root - 1
    if 0 < right_count then do
      let (right_child, parent, kid_count) ← build_tree parent kid_count right_count (oroot + 1)
      let parent ← update_nth parent right_child fun _ => (oroot : Int)
      let kid_count ← update_nth kid_count oroot fun _ => 2
      return (oroot, parent, kid_count)
    else do
      let kid_count ← update_nth kid_count oroot fun _ => 1
      return (oroot, parent, kid_count)
termination_by source_count
decreasing_by
  · have hle := floor_log2.pow_le source_count (by omega)
    omega
  · omega

/-! ## The nodes reach the root -/

/-- A node of a range reaches its root by the parents of nodes of the range. -/
inductive Reaches (parent : List Int) (root first last : Nat) : Nat → Prop where
  | root : Reaches parent root first last root
  | step {i j : Nat} (hi : first ≤ i ∧ i < last) (hroot : i ≠ root)
      (hparent : parent[i]? = some (j : Int)) (h : Reaches parent root first last j) :
      Reaches parent root first last i

variable {parent parent' : List Int} {root first last i : Nat}

/-- The parents of the nodes of the range other than the root matter. -/
theorem Reaches.congr (h : Reaches parent root first last i)
    (hsame : ∀ j, first ≤ j → j < last → j ≠ root → parent'[j]? = parent[j]?) :
    Reaches parent' root first last i := by
  induction h with
  | root => exact .root
  | step hi hroot hparent _ ih => exact .step hi hroot ((hsame _ hi.1 hi.2 hroot).trans hparent) ih

/-- What `build_tree` does with the entries of a range. -/
structure Built (parent : List Int) (kid_count : List (BitVec 16)) (source_count offset : Nat)
    (r : Nat × List Int × List (BitVec 16)) : Prop where
  root : offset ≤ r.1 ∧ r.1 < offset + source_count
  length : r.2.1.length = parent.length
  length_kid_count : r.2.2.length = kid_count.length
  outside : ∀ i, i < offset ∨ offset + source_count ≤ i → r.2.1[i]? = parent[i]?
  reaches : ∀ i, offset ≤ i → i < offset + source_count →
    Reaches r.2.1 r.1 offset (offset + source_count) i

end VW.SpanningTree
