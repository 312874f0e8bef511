import VowpalWabbit.Trees.Example
import VowpalWabbit.Framework.Loops
import Mathlib.Tactic

/-! # The CATS tree

    `reductions/cats_tree.cc`. The nodes are numbered by levels from the root 0. Learning does
    not train all nodes: it walks up from the leaves of the first and the last action, with the
    costs `_a` and `_b` of the two nodes it is at. All leaves between them cost `_cost_star`
    and all others nothing.

    The random draw that lets a small weight pass is a parameter; the code computes it from a
    fixed seed. Node numbers are natural numbers. The model so speaks of trees of at most `2 ^ 29`
    leaves, for which the source has the powers of two of its levels in an `int`.
-/

open Cpp VW.Trees

namespace VW.CatsTree

export Trees (BaseLearner CbClass CbLabel Example FLT_MAX)

structure TreeNode where
  id : Nat
  left_id : Nat := 0
  right_id : Nat := 0
  parent_id : Nat
  depth : Nat
  left_only : Bool
  right_only : Bool
  is_leaf : Bool
  deriving DecidableEq

structure MinDepthBinaryTree where
  nodes : List TreeNode
  num_leaf_nodes : Nat
  depth : Nat

/-! ## The tree -/

/-- Whether node `id` goes to the right only, or to the left only. -/
def right_only (num_leaf_nodes bandwidth id : Nat) : Bool := bandwidth ≠ 0 ∧ id = num_leaf_nodes / bandwidth / 2 - 1

def left_only (num_leaf_nodes bandwidth id : Nat) : Bool := bandwidth ≠ 0 ∧ id = num_leaf_nodes / bandwidth - 2

/-- A child that is a leaf so far. -/
def new_leaf (num_leaf_nodes bandwidth depth id parent_id : Nat) : TreeNode :=
  { id := id, parent_id := parent_id, depth := depth, left_only := left_only num_leaf_nodes bandwidth id
    right_only := right_only num_leaf_nodes bandwidth id, is_leaf := true }

/-- Node `i` gets its children. -/
def add_children (num_leaf_nodes bandwidth : Nat) (s : List TreeNode × Nat × Nat) (i : Nat) :
    List TreeNode × Nat × Nat :=
  let nodes := s.1.modify i fun node => { node with left_id := 2 * i + 1, right_id := 2 * i + 2, is_leaf := false }
  let depth := if s.2.2 ≤ 2 * i + 1 then s.2.1 + 1 else s.2.1
  let depth_const := if s.2.2 ≤ 2 * i + 1 then 2 ^ (s.2.1 + 2) - 1 else s.2.2
  (nodes ++ [new_leaf num_leaf_nodes bandwidth depth (2 * i + 1) i,
    new_leaf num_leaf_nodes bandwidth depth (2 * i + 2) i],
    depth, depth_const)

def build_tree (num_nodes bandwidth : Nat) : MinDepthBinaryTree :=
  if num_nodes = 0 then ⟨[], 0, 0⟩
  else
    let root : TreeNode :=
      { id := 0, parent_id := 0, depth := 0, left_only := false, right_only := false, is_leaf := true }
    let s := for_range (num_nodes - 1) (add_children num_nodes bandwidth) ([root], 0, 1)
    ⟨s.1, num_nodes, s.2.1⟩

def MinDepthBinaryTree.internal_node_count (t : MinDepthBinaryTree) : Nat := t.nodes.length - t.num_leaf_nodes

/-- `nodes[id]`. -/
def MinDepthBinaryTree.node {S : Type} (t : MinDepthBinaryTree) (id : Nat) : Call S TreeNode :=
  match t.nodes[id]? with
  | none => Call.undefined
  | some node => pure node

def MinDepthBinaryTree.get_sibling {S : Type} (t : MinDepthBinaryTree) (v v_parent : TreeNode) : Call S TreeNode :=
  t.node (if v.id = v_parent.left_id then v_parent.right_id else v_parent.left_id)

/-! ## Learning -/

structure NodeCost (R : Type) where
  node_id : Nat
  cost : R

variable {W R : Type} [Field R] [LinearOrder R]

/-- `_a` and `_b`. -/
abbrev NodeCosts (R : Type) : Type := NodeCost R × NodeCost R

/-- The leaf of an action, inside the tree. -/
def leaf_of (t : MinDepthBinaryTree) (action : Nat) : Nat :=
  let node_id := action + t.internal_node_count - 1
  if t.nodes.length ≤ node_id then t.nodes.length - 1 else node_id

/-- `return_cost`, for the node with the id. -/
def return_cost (cost_star : R) (ab : NodeCosts R) (id : Nat) : R :=
  if id < ab.1.node_id then 0
  else if id = ab.1.node_id then ab.1.cost
  else if id < ab.2.node_id then cost_star
  else if id = ab.2.node_id then ab.2.cost
  else 0

section Learn

variable (t : MinDepthBinaryTree) (random_draw : R) (base : BaseLearner W R)

def weight_th : R := 1 / 100000

/-- The cost of a node whose children cost `low` and `high`, after a prediction for the cheaper one or
    the other one. -/
def mix (right : Bool) (scalar low high : R) : R :=
  if right then low * (1 + |scalar|) / 2 + high * (1 - |scalar|) / 2
  else high * (1 + |scalar|) / 2 + low * (1 - |scalar|) / 2

/-- The base learner is trained at a node, and the node gets its cost. -/
def train (parent_id : Nat) (local_action cost_v cost_w : R) : Call (State W R) R := do
  base.learns parent_id
  base.predicts parent_id
  let ec ← get_ec
  let trained_action : R := if ec.pred.scalar < 0 then -1 else 1
  pure (mix (trained_action = local_action) ec.pred.scalar (min cost_v cost_w) (max cost_v cost_w))

/-- The cost of the parent of `v`, whose sibling is `w`. -/
def parent_cost (v w v_parent : TreeNode) (cost_v cost_w : R) : Call (State W R) R :=
  if cost_v = cost_w then pure cost_v
  else do
    let local_action : R := if (if cost_v < cost_w then v else w).id = v_parent.left_id then -1 else 1
    let weight := |cost_v - cost_w|
    set_simple local_action
    set_weight weight
    if weight < weight_th then
      if random_draw < weight then do
        set_weight weight_th
        train base v.parent_id local_action cost_v cost_w
      else pure cost_v
    else train base v.parent_id local_action cost_v cost_w

/-- One of the two nodes of a level. A parent that goes to one side only is left as it was. -/
def learn_node (cost_star : R) (ab : NodeCosts R) (n_c : NodeCost R) : Call (State W R) R := do
  let v ← t.node n_c.node_id
  let v_parent ← t.node v.parent_id
  if v_parent.right_only ∨ v_parent.left_only then pure n_c.cost
  else do
    let w ← t.get_sibling v v_parent
    parent_cost random_draw base v w v_parent n_c.cost (return_cost cost_star ab w.id)

def learn_level (cost_star : R) (ab : NodeCosts R) : Call (State W R) (NodeCosts R) := do
  let a ← t.node ab.1.node_id
  let b ← t.node ab.2.node_id
  let a_parent_cost ← learn_node t random_draw base cost_star ab ab.1
  if a.parent_id = b.parent_id then pure (⟨a.parent_id, a_parent_cost⟩, ⟨b.parent_id, ab.2.cost⟩)
  else do
    let b_parent_cost ← learn_node t random_draw base cost_star ab ab.2
    pure (⟨a.parent_id, a_parent_cost⟩, ⟨b.parent_id, b_parent_cost⟩)

def init_node_costs (ac : List (CbClass R)) : Option (R × NodeCosts R) :=
  match ac.head?, ac.getLast? with
  | some first, some last =>
    let cost_star := first.cost / first.probability
    some (cost_star, ⟨leaf_of t first.action, cost_star⟩, ⟨leaf_of t last.action, cost_star⟩)
  | _, _ => none

/-- The loop over the levels. -/
def learn_levels (cost_star : R) (ab : NodeCosts R) : Call (State W R) (NodeCosts R) :=
  (List.range t.depth).foldlM (fun ab _ => learn_level t random_draw base cost_star ab) ab

def learn : Call (State W R) Unit := do
  let ec ← get_ec
  let saved_weight := ec.weight
  set_ec fun ec => { ec with pred := ⟨0, [], 0, []⟩ }
  Call.scope_exit (fun s => { s with ec := { s.ec with pred := ec.pred } }) do
    match init_node_costs t ec.l.cb.costs with
    | none => Call.undefined
    | some (cost_star, ab) => do
      let _ ← learn_levels t random_draw base cost_star ab
      set_weight saved_weight

/-- The weight and the prediction of the example come back. -/
theorem learn_run {s s' : State W R} {cost_star : R} {ab ab' : NodeCosts R}
    (hinit : init_node_costs t s.ec.l.cb.costs = some (cost_star, ab))
    (hrun : learn_levels t random_draw base cost_star ab { s with ec := { s.ec with pred := ⟨0, [], 0, []⟩ } } =
      .returned ab' s') :
    learn t random_draw base s =
      .returned () { s' with ec := { s'.ec with weight := s.ec.weight, pred := s.ec.pred } } := by
  show Call.scope_exit (fun s' => { s' with ec := { s'.ec with pred := s.ec.pred } })
    (match init_node_costs t s.ec.l.cb.costs with
      | none => Call.undefined
      | some (cost_star, ab) => do
        let _ ← learn_levels t random_draw base cost_star ab
        set_weight s.ec.weight) { s with ec := { s.ec with pred := ⟨0, [], 0, []⟩ } } = _
  unfold Call.scope_exit
  rw [hinit]
  dsimp only
  rw [Call.bind_run, hrun]
  rfl

end Learn

/-! ## Prediction -/

section Predict

variable (t : MinDepthBinaryTree) (base : BaseLearner W R)

/-- The way down. -/
def descend : Nat → TreeNode → Call (State W R) TreeNode
  | 0, _ => Call.undefined
  | fuel + 1, cur_node =>
    if cur_node.is_leaf then pure cur_node
    else if cur_node.right_only then do
      let next ← t.node cur_node.right_id
      descend fuel next
    else if cur_node.left_only then do
      let next ← t.node cur_node.left_id
      descend fuel next
    else do
      set_ec fun ec => { ec with partial_prediction := 0, pred := { ec.pred with scalar := 0 } }
      base.predicts cur_node.id
      let ec ← get_ec
      let next ← t.node (if ec.pred.scalar < 0 then cur_node.left_id else cur_node.right_id)
      descend fuel next

/-- `cats_tree::predict`. -/
def predict_action (fuel : Nat) : Call (State W R) Nat :=
  if t.num_leaf_nodes = 0 then pure 0
  else do
    let ec ← get_ec
    let saved_label := ec.l.cb
    set_ec fun ec => { ec with l := { ec.l with cb := { ec.l.cb with costs := [] } } }
    set_simple FLT_MAX
    let root ← t.node 0
    let cur_node ← descend t base fuel root
    set_ec fun ec => { ec with l := { ec.l with cb := saved_label } }
    pure (cur_node.id - t.internal_node_count + 1)

def predict (fuel : Nat) : Call (State W R) Unit := do
  let multiclass ← predict_action t base fuel
  set_ec fun ec => { ec with pred := { ec.pred with multiclass := multiclass } }

end Predict

end VW.CatsTree
