import VowpalWabbit.Trees.Example
import VowpalWabbit.Framework.Loops
import Mathlib.Tactic

/-! # The offset tree

    `reductions/offset_tree.cc`. The leaves are the actions, and each round pairs the nodes that are
    left until one is left. A prediction asks all inner nodes and multiplies the scores on the way
    to each leaf. Learning walks up from the leaf of the action; the label becomes that of the side,
    and the weight is multiplied with the score of that side.

    Node numbers are natural numbers. The model so speaks of trees of at most `2 ^ 31` leaves, whose
    numbers are those of the source, which has them in a `uint32_t`.
-/

open Cpp VW.Trees

namespace VW.OffsetTree

open List Call

export Trees (BaseLearner CbClass CbLabel Example Holds)

structure TreeNode where
  id : Nat
  left_id : Nat
  right_id : Nat
  parent_id : Nat
  is_leaf : Bool

structure MinDepthBinaryTree where
  nodes : List TreeNode
  num_leaf_nodes : Nat
  root_idx : Nat

/-! ## The tree -/

/-- Two nodes get a parent. -/
def pair (left right : Nat) (s : List TreeNode × List Nat) : List TreeNode × List Nat :=
  let id := s.1.length
  let nodes := s.1.modify left fun node => { node with parent_id := id }
  let nodes := nodes.modify right fun node => { node with parent_id := id }
  (nodes ++ [⟨id, left, right, 0, false⟩], s.2 ++ [id])

/-- A round. An odd node is carried over. -/
def play_round : List Nat → List TreeNode × List Nat → List TreeNode × List Nat
  | left :: right :: tournaments, s => play_round tournaments (pair left right s)
  | [back], s => (s.1, s.2 ++ [back])
  | [], s => s

/-- The rounds, until one node is left. -/
def play_rounds : Nat → List Nat → List TreeNode → Option (List TreeNode × List Nat)
  | 0, _, _ => none
  | fuel + 1, tournaments, nodes =>
    if 1 < tournaments.length then
      let s := play_round tournaments (nodes, [])
      play_rounds fuel s.2 s.1
    else some (nodes, tournaments)

def build_tree (fuel num_nodes : Nat) : Option MinDepthBinaryTree :=
  if num_nodes = 0 then some ⟨[], 0, 0⟩
  else do
    let leaves := (range num_nodes).map fun i : Nat => TreeNode.mk i 0 0 0 true
    let (nodes, tournaments) ← play_rounds fuel (range num_nodes) leaves
    let root_idx ← tournaments.head?
    some ⟨nodes.modify (nodes.length - 1) fun node => { node with parent_id := root_idx }, num_nodes, root_idx⟩

def MinDepthBinaryTree.internal_node_count (t : MinDepthBinaryTree) : Nat := t.nodes.length - t.num_leaf_nodes

/-- `nodes[id]`. -/
def MinDepthBinaryTree.node {S : Type} (t : MinDepthBinaryTree) (id : Nat) : Call S TreeNode :=
  match t.nodes[id]? with
  | none => undefined
  | some node => pure node

/-- What is known of the nodes while some wait for a parent. -/
structure Linked (k : Nat) (waiting : List Nat) (nodes : List TreeNode) : Prop where
  leaves : k ≤ nodes.length
  id : ∀ n (v : TreeNode), nodes[n]? = some v → v.id = n
  leaf : ∀ n (v : TreeNode), nodes[n]? = some v → (v.is_leaf = true ↔ n < k)
  children : ∀ n (v : TreeNode), nodes[n]? = some v → k ≤ n → v.left_id < n ∧ v.right_id < n
  parent : ∀ n (v : TreeNode), nodes[n]? = some v → n ∈ waiting ∨ n < v.parent_id ∧ v.parent_id < nodes.length
  waiting : ∀ n ∈ waiting, n < nodes.length

variable {v : TreeNode} {n : Nat}

section Linked

variable {k left right : Nat} {waiting new : List Nat} {nodes : List TreeNode}

/-- A node after a pair was made: only its parent may be another one. -/
theorem get_pair (h : (pair left right (nodes, new)).1[n]? = some v) :
    (∃ old, nodes[n]? = some old ∧ v.id = old.id ∧ v.is_leaf = old.is_leaf ∧ v.left_id = old.left_id ∧
      v.right_id = old.right_id ∧ v.parent_id = if n = left ∨ n = right then nodes.length else old.parent_id) ∨
      n = nodes.length ∧ v = ⟨nodes.length, left, right, 0, false⟩ := by
  unfold pair at h
  dsimp only at h
  rcases Nat.lt_trichotomy n nodes.length with hlt | rfl | hgt
  · left
    rw [getElem?_append_left (by rw [length_modify, length_modify]; exact hlt), getElem?_modify,
      getElem?_modify, getElem?_eq_getElem hlt] at h
    refine ⟨nodes[n], getElem?_eq_getElem hlt, ?_⟩
    by_cases hright : right = n
    · by_cases hleft : left = n
      · simp only [hright, hleft, if_true, Option.map_eq_map, Option.map_some, Option.some.injEq] at h
        simp [← h, hright]
      · simp only [hright, hleft, if_true, if_false, Option.map_eq_map, Option.map_some, Option.some.injEq] at h
        simp [← h, hright]
    · by_cases hleft : left = n
      · simp only [hright, hleft, if_true, if_false, Option.map_eq_map, Option.map_some, Option.some.injEq] at h
        simp [← h, hleft]
      · simp only [hright, hleft, if_false, Option.map_eq_map, Option.map_some, Option.some.injEq] at h
        simp [← h, Ne.symm hright, Ne.symm hleft]
  · right
    rw [getElem?_append_right (by rw [length_modify, length_modify]), length_modify,
      length_modify, Nat.sub_self] at h
    exact ⟨rfl, (Option.some.inj h).symm⟩
  · rw [getElem?_eq_none (by simp; omega)] at h
    cases h

theorem length_pair : (pair left right (nodes, new)).1.length = nodes.length + 1 := by
  unfold pair
  rw [length_append, length_modify, length_modify]
  rfl

theorem Linked.pair (h : Linked k (left :: right :: waiting) nodes) :
    Linked k (waiting ++ [nodes.length]) (pair left right (nodes, new)).1 := by
  have hleft := h.waiting left mem_cons_self
  have hright := h.waiting right (mem_cons_of_mem _ mem_cons_self)
  have hleaves := h.leaves
  refine ⟨?_, fun n v hget => ?_, fun n v hget => ?_, fun n v hget hn => ?_, fun n v hget => ?_, fun n hn => ?_⟩
  · rw [length_pair]
    omega
  · rcases get_pair hget with ⟨old, hold, hid, -⟩ | ⟨rfl, rfl⟩
    · rw [hid, h.id n old hold]
    · rfl
  · rcases get_pair hget with ⟨old, hold, -, hleaf, -⟩ | ⟨rfl, rfl⟩
    · rw [hleaf, h.leaf n old hold]
    · exact iff_of_false Bool.false_ne_true (by omega)
  · rcases get_pair hget with ⟨old, hold, -, -, hl, hr, -⟩ | ⟨rfl, rfl⟩
    · rw [hl, hr]
      exact h.children n old hold hn
    · exact ⟨hleft, hright⟩
  · rw [length_pair]
    rcases get_pair hget with ⟨old, hold, -, -, -, -, hparent⟩ | ⟨rfl, rfl⟩
    · have hlt : n < nodes.length := (List.getElem?_eq_some_iff.mp hold).1
      by_cases hpaired : n = left ∨ n = right
      · rw [hparent, if_pos hpaired]
        exact .inr ⟨hlt, Nat.lt_succ_self _⟩
      · rw [hparent, if_neg hpaired]
        rcases h.parent n old hold with hmem | ⟨hbefore, hexists⟩
        · rw [mem_cons, mem_cons, ← or_assoc] at hmem
          exact .inl (mem_append_left _ (hmem.resolve_left hpaired))
        · exact .inr ⟨hbefore, Nat.lt_succ_of_lt hexists⟩
    · exact .inl (mem_append_right _ (mem_singleton_self _))
  · rw [length_pair]
    rcases mem_append.mp hn with hn | hn
    · exact Nat.lt_succ_of_lt (h.waiting n (mem_cons_of_mem _ (mem_cons_of_mem _ hn)))
    · rw [mem_singleton.mp hn]
      exact Nat.lt_succ_self _

/-- The order of the waiting nodes is of no importance. -/
theorem Linked.congr {waiting' : List Nat} (h : Linked k waiting nodes) (hmem : ∀ n, n ∈ waiting ↔ n ∈ waiting') :
    Linked k waiting' nodes where
  leaves := h.leaves
  id := h.id
  leaf := h.leaf
  children := h.children
  parent := fun n v hget => (h.parent n v hget).imp_left (hmem n).mp
  waiting := fun n hn => h.waiting n ((hmem n).mpr hn)

/-- A round halves the nodes that wait. -/
theorem Linked.play_round {tournaments : List Nat} (h : Linked k (tournaments ++ new) nodes) :
    Linked k (play_round tournaments (nodes, new)).2 (play_round tournaments (nodes, new)).1 ∧
      (play_round tournaments (nodes, new)).2.length = new.length + (tournaments.length + 1) / 2 := by
  induction tournaments using List.twoStepInduction generalizing nodes new with
  | nil => exact ⟨h, rfl⟩
  | singleton back =>
    refine ⟨h.congr fun n => ?_, ?_⟩
    · exact (@perm_append_comm _ [back] _).mem_iff
    · show (new ++ [back]).length = _
      rw [length_append, length_singleton]
  | cons_cons left right tournaments ih _ =>
    have hpaired : Linked k (tournaments ++ (new ++ [nodes.length]))
      (OffsetTree.pair left right (nodes, new)).1 := by
      rw [← append_assoc]
      exact Linked.pair h
    obtain ⟨hlinked, hlength⟩ := ih hpaired
    refine ⟨hlinked, hlength.trans ?_⟩
    simp only [length_append, length_cons, length_nil]
    omega

/-- The rounds end with one node. -/
theorem Linked.play_rounds {tournaments : List Nat} {fuel : Nat} (h : Linked k tournaments nodes)
    (hne : tournaments ≠ [])
    (hfuel : tournaments.length ≤ fuel) :
    ∃ nodes' root, play_rounds fuel tournaments nodes = some (nodes', [root]) ∧ Linked k [root] nodes' := by
  induction fuel generalizing tournaments nodes with
  | zero => exact absurd (length_eq_zero_iff.mp (Nat.le_zero.mp hfuel)) hne
  | succ fuel ih =>
    rw [play_rounds]
    have hpositive := length_pos_iff.mpr hne
    split
    · next hmany =>
      obtain ⟨hlinked, hlength⟩ := @Linked.play_round k [] nodes tournaments (by rw [append_nil]; exact h)
      rw [length_nil, Nat.zero_add] at hlength
      refine ih hlinked ?_ (by omega)
      rw [← length_pos_iff, hlength]
      omega
    · next hone =>
      obtain ⟨root, rfl⟩ := length_eq_one_iff.mp (show tournaments.length = 1 by omega)
      exact ⟨nodes, root, rfl, h⟩

end Linked

/-- The tree of `k` leaves. -/
structure Built (k : Nat) (t : MinDepthBinaryTree) : Prop where
  num_leaf_nodes : t.num_leaf_nodes = k
  leaves : k ≤ t.nodes.length
  id : ∀ n (v : TreeNode), t.nodes[n]? = some v → v.id = n
  leaf : ∀ n (v : TreeNode), t.nodes[n]? = some v → (v.is_leaf = true ↔ n < k)
  children : ∀ n (v : TreeNode), t.nodes[n]? = some v → k ≤ n → v.left_id < n ∧ v.right_id < n
  parent : ∀ n (v : TreeNode), t.nodes[n]? = some v →
    n < v.parent_id ∧ v.parent_id < t.nodes.length ∨ n + 1 = t.nodes.length ∧ v.parent_id = n

/-- The leaves, before the first round. -/
theorem get_leaves {k : Nat}
    (h : ((List.range k).map fun i : Nat => TreeNode.mk i 0 0 0 true)[n]? = some v) :
    n < k ∧ v = ⟨n, 0, 0, 0, true⟩ := by
  obtain ⟨hlt, hget⟩ := List.getElem?_eq_some_iff.mp h
  rw [length_map, length_range] at hlt
  rw [getElem_map, getElem_range] at hget
  exact ⟨hlt, hget.symm⟩

theorem Linked.start (k : Nat) :
    Linked k (List.range k) ((List.range k).map fun i : Nat => TreeNode.mk i 0 0 0 true) := by
  refine ⟨by simp, fun n v hget => ?_, fun n v hget => ?_, fun n v hget hn => ?_, fun n v hget => ?_, fun n hn => ?_⟩
  · rw [(get_leaves hget).2]
  · rw [(get_leaves hget).2]
    exact iff_of_true rfl (get_leaves hget).1
  · exact absurd (get_leaves hget).1 (by omega)
  · exact .inl (mem_range.mpr (get_leaves hget).1)
  · rw [length_map, length_range]
    exact mem_range.mp hn

variable {fuel : Nat}

/-- The rounds of a tree end, and the last node is left over: it has no parent with a larger number. -/
theorem play_rounds_run {k : Nat} (hk : 1 ≤ k) (hfuel : k ≤ fuel) :
    ∃ nodes, play_rounds fuel (range k) ((range k).map fun i : Nat => TreeNode.mk i 0 0 0 true) =
        some (nodes, [nodes.length - 1]) ∧ Linked k [nodes.length - 1] nodes ∧
      build_tree fuel k = some ⟨nodes.modify (nodes.length - 1) fun node =>
        { node with parent_id := nodes.length - 1 }, k,
        nodes.length - 1⟩ := by
  obtain ⟨nodes, root, hrun, hlinked⟩ := @Linked.play_rounds k _ _ fuel (Linked.start k)
    (by simp; omega) (by simpa using hfuel)
  have hpositive : 0 < nodes.length := Nat.lt_of_lt_of_le hk hlinked.leaves
  have hroot : root = nodes.length - 1 := by
    rcases hlinked.parent (nodes.length - 1) _ (getElem?_eq_getElem (by omega)) with hmem | hlater
    · exact (mem_singleton.mp hmem).symm
    · omega
  subst hroot
  refine ⟨nodes, hrun, hlinked, ?_⟩
  unfold build_tree
  rw [if_neg (by omega)]
  dsimp only
  rw [hrun]
  rfl

/-- A node of the tree: the last one is its own parent. -/
theorem get_rooted {nodes : List TreeNode} {root : Nat}
    (h : (nodes.modify root fun node => { node with parent_id := root })[n]? = some v) :
    ∃ old, nodes[n]? = some old ∧ v.id = old.id ∧ v.is_leaf = old.is_leaf ∧ v.left_id = old.left_id ∧
      v.right_id = old.right_id ∧ v.parent_id = if n = root then root else old.parent_id := by
  rw [getElem?_modify] at h
  obtain ⟨old, hold, hv⟩ := Option.map_eq_some_iff.mp h
  refine ⟨old, hold, ?_⟩
  by_cases hn : root = n
  · rw [if_pos hn] at hv
    simp [← hv, hn]
  · rw [if_neg hn] at hv
    simp [← hv, Ne.symm hn]

theorem build_tree_built {k fuel : Nat} (hk : 1 ≤ k) (hfuel : k ≤ fuel) :
    ∃ t, build_tree fuel k = some t ∧ Built k t := by
  obtain ⟨nodes, -, hlinked, hbuild⟩ := play_rounds_run hk hfuel
  have hpositive : 0 < nodes.length := Nat.lt_of_lt_of_le hk hlinked.leaves
  refine ⟨_, hbuild, ⟨rfl, ?_, fun n v h => ?_, fun n v h => ?_, fun n v h hn => ?_, fun n v h => ?_⟩⟩
  · rw [length_modify]
    exact hlinked.leaves
  · obtain ⟨old, hold, hid, -⟩ := get_rooted h
    rw [hid, hlinked.id n old hold]
  · obtain ⟨old, hold, -, hleaf, -⟩ := get_rooted h
    rw [hleaf, hlinked.leaf n old hold]
  · obtain ⟨old, hold, -, -, hl, hr, -⟩ := get_rooted h
    rw [hl, hr]
    exact hlinked.children n old hold hn
  · obtain ⟨old, hold, -, -, -, -, hparent⟩ := get_rooted h
    rw [length_modify]
    by_cases hn : n = nodes.length - 1
    · rw [hparent, if_pos hn]
      exact .inr ⟨by omega, hn.symm⟩
    · rw [hparent, if_neg hn]
      rcases hlinked.parent n old hold with hmem | hlater
      · exact absurd (mem_singleton.mp hmem) hn
      · exact .inl hlater

/-! ## Prediction -/

variable {W R : Type} [Field R] (t : MinDepthBinaryTree) (base : BaseLearner W R)

/-- The scores of the two sides of an inner node. -/
def predict_node (idx : Nat) : Call (State W R) (R × R) := do
  base.predicts idx
  let ec ← get_ec
  match ec.pred.a_s with
  | left :: right :: _ => pure (left.2, right.2)
  | _ => undefined

/-- Predictions for all internal nodes. -/
def predict_nodes : Call (State W R) (List (R × R)) :=
  (range t.internal_node_count).foldlM (fun prediction_buffer idx => do
    let p ← predict_node base idx
    pure (prediction_buffer ++ [p])) []

/-- `buffer_helper[id]`. -/
def buffer_at {S : Type} (prediction_buffer : List (R × R)) (id : Nat) : Call S (R × R) :=
  match prediction_buffer[id - t.num_leaf_nodes]? with
  | none => undefined
  | some p => pure p

/-- A child gets the score of its side: a leaf as its score, an inner node as a factor of its scores. -/
def score_child {S : Type} (id : Nat) (p : R) (s : List (R × R) × List R) : Call S (List (R × R) × List R) := do
  let child ← t.node id
  if child.is_leaf then
    if id < s.2.length then pure (s.1, s.2.set id p) else undefined
  else do
    let q ← buffer_at t s.1 id
    pure (s.1.set (id - t.num_leaf_nodes) (q.1 * p, q.2 * p), s.2)

/-- An inner node passes its scores on. -/
def score_node {S : Type} (s : List (R × R) × List R) (node : TreeNode) : Call S (List (R × R) × List R) := do
  let p ← buffer_at t s.1 node.id
  let s ← score_child t node.left_id p.1 s
  let p ← buffer_at t s.1 node.id
  score_child t node.right_id p.2 s

/-- `offset_tree::predict`, with the scores of the call before. -/
def predict_scores (scores : List R) : Call (State W R) (List R) :=
  let scores := scores.take t.num_leaf_nodes ++ replicate (t.num_leaf_nodes - scores.length) 0
  if t.num_leaf_nodes = 0 then pure scores
  else if t.num_leaf_nodes = 1 then pure (scores.set 0 1)
  else do
    let ec ← get_ec
    let saved_label := ec.l.cb
    set_ec fun ec => { ec with l := { ec.l with cb := { ec.l.cb with costs := [] } } }
    let prediction_buffer ← predict_nodes t base
    set_ec fun ec => { ec with l := { ec.l with cb := saved_label } }
    let s ← (t.nodes.reverse.takeWhile fun node => ¬ node.is_leaf).foldlM (score_node t) (prediction_buffer, scores)
    pure s.2

def copy_to_action_scores (scores : List R) : Call (State W R) Unit :=
  set_ec fun ec => { ec with pred := { ec.pred with a_s := scores.mapIdx fun idx score => (idx, score) } }

def clear_action_scores : Call (State W R) Unit := set_ec fun ec => { ec with pred := { ec.pred with a_s := [] } }

/-- `predict`. It returns the scores, which the reduction keeps. -/
def predict (scores : List R) : Call (State W R) (List R) := do
  clear_action_scores
  let scores ← predict_scores t base scores
  copy_to_action_scores scores
  pure scores

/-! ## Learning -/

/-- `ec.l.cb.costs[0].action = action`. -/
def set_action (action : Nat) : Call (State W R) Unit :=
  set_ec fun ec => { ec with l := { ec.l with
    cb := { ec.l.cb with costs := ec.l.cb.costs.modify 0 fun cost => { cost with action := action } } } }

/-- The model of a node. The number wraps around for the only node of a tree with one leaf. -/
def MinDepthBinaryTree.model (t : MinDepthBinaryTree) (id : Nat) : Nat := (id + 2 ^ 32 - t.num_leaf_nodes) % 2 ^ 32

/-- A node is trained, and the weight is multiplied with the score of the side. -/
def learn_node (node : TreeNode) (local_action : Nat) : Call (State W R) Unit := do
  set_action local_action
  base.learns (t.model node.id)
  base.predicts (t.model node.id)
  let ec ← get_ec
  match ec.pred.a_s[local_action - 1]? with
  | none => undefined
  | some a_s => set_weight (ec.weight * a_s.2)

/-- The loop of `offset_tree::learn`. -/
def ascend : Nat → TreeNode → Call (State W R) Unit
  | 0, _ => undefined
  | fuel + 1, node => do
    let parent ← t.node node.parent_id
    learn_node t base parent (if parent.left_id = node.id then 1 else 2)
    if parent.parent_id = parent.id then pure () else ascend fuel parent

/-- `offset_tree::learn`. -/
def learn_action (fuel : Nat) : Call (State W R) Unit := do
  let ec ← get_ec
  match ec.l.cb.costs.head? with
  | none => undefined
  | some cost => do
    let node ← t.node (cost.action - 1)
    ascend t base fuel node
    set_action cost.action
    set_weight ec.weight

def learn (fuel : Nat) (scores : List R) : Call (State W R) (List R) := do
  clear_action_scores
  let saved_scores ← predict_scores t base scores
  learn_action t base fuel
  copy_to_action_scores saved_scores
  pure saved_scores

/-! ## The label and the weight are put back -/

variable {node : TreeNode} {scores : List R} {s : List (R × R) × List R} {id local_action : Nat}

section Restored

variable {t : MinDepthBinaryTree} {base : BaseLearner W R} {cb : CbLabel R} {w : R}

omit [Field R] in
theorem predict_node_keeps {idx : Nat} :
    (predict_node base idx).Quiet (fun s => s.ec.weight = w) fun _ s => s.ec.weight = w := by
  unfold predict_node
  refine Quiet.bind (F := fun _ (s : State W R) => s.ec.weight = w) (fun _ hs => hs) fun _ =>
    get_ec_quiet.bind fun ec => ?_
  split
  · exact .pure fun _ hs => hs
  · exact .undefined

omit [Field R] in
theorem predict_nodes_keep : (predict_nodes t base).Quiet (fun s => s.ec.weight = w) fun _ s => s.ec.weight = w :=
  .foldlM (fun _ _ _ => predict_node_keeps.bind fun _ => .pure fun _ hs => hs) []

section Scores

variable {Q : State W R → Prop}

omit [Field R] in
theorem node_keeps : (t.node id).Quiet Q fun _ => Q := by
  unfold MinDepthBinaryTree.node
  split
  · exact .undefined
  · exact .pure fun _ hs => hs

omit [Field R] in
theorem buffer_at_keeps {prediction_buffer : List (R × R)} :
    (buffer_at t prediction_buffer id).Quiet Q fun _ => Q := by
  unfold buffer_at
  split
  · exact .undefined
  · exact .pure fun _ hs => hs

theorem score_child_keeps {p : R} : (score_child t id p s).Quiet Q fun _ => Q := by
  unfold score_child
  refine node_keeps.bind fun child => ?_
  split
  · split
    · exact .pure fun _ hs => hs
    · exact .undefined
  · exact buffer_at_keeps.bind fun q => .pure fun _ hs => hs

theorem score_node_keeps : (score_node t s node).Quiet Q fun _ => Q :=
  buffer_at_keeps.bind fun _ => score_child_keeps.bind fun _ => buffer_at_keeps.bind fun _ => score_child_keeps

end Scores

theorem predict_scores_keeps :
    (predict_scores t base scores).Quiet (Holds cb w) fun _ => Holds cb w := by
  unfold predict_scores
  split
  · exact .pure fun _ hs => hs
  · split
    · exact .pure fun _ hs => hs
    · refine get_ec_bind_quiet fun s hs => ?_
      refine Quiet.bind (F := fun _ (s : State W R) => s.ec.weight = w) (set_ec_quiet fun s' hs' => ?_) fun _ =>
        predict_nodes_keep.bind fun buffer => ?_
      · rw [hs']
        exact hs.2
      · refine Quiet.bind (F := fun _ => Holds cb w) (set_ec_quiet fun s' hs' => ⟨hs.1, hs'⟩) fun _ => ?_
        exact (Quiet.foldlM (fun node _ s => score_node_keeps) _).bind fun s => .pure fun _ hs => hs

theorem predict_keeps : (predict t base scores).Quiet (Holds cb w) fun _ => Holds cb w :=
  Quiet.bind (F := fun _ => Holds cb w) (set_ec_quiet fun _ hs => hs) fun _ => predict_scores_keeps.bind fun _ =>
    Quiet.bind (F := fun _ => Holds cb w) (set_ec_quiet fun _ hs => hs) fun _ => .pure fun _ hs => hs

/-- On the way up only the action of the first cost and the weight change. -/
def Acting (cb : CbLabel R) (s : State W R) : Prop :=
  ∃ action, s.ec.l.cb = { cb with costs := cb.costs.modify 0 fun cost => { cost with action := action } }

omit [Field R] in
theorem Acting.set_action {s : State W R} (h : Acting cb s) (action : Nat) :
    { s.ec.l.cb with costs := s.ec.l.cb.costs.modify 0 fun cost => { cost with action := action } } =
      { cb with costs := cb.costs.modify 0 fun cost => { cost with action := action } } := by
  obtain ⟨before, hcb⟩ := h
  rw [hcb]
  cases cb.costs with
  | nil => rfl
  | cons cost costs => rfl

theorem learn_node_keeps :
    (learn_node t base node local_action).Quiet (Acting cb) fun _ => Acting cb := by
  unfold learn_node
  refine Quiet.bind (F := fun _ => Acting cb) (fun s hs => ⟨local_action, Acting.set_action hs local_action⟩)
    fun _ => ?_
  refine Quiet.bind (F := fun _ => Acting cb) (fun _ hs => hs) fun _ => ?_
  refine Quiet.bind (F := fun _ => Acting cb) (fun _ hs => hs) fun _ => get_ec_quiet.bind fun ec => ?_
  split
  · exact .undefined
  · exact set_ec_quiet fun s hs => hs

theorem ascend_keeps : (ascend t base fuel node).Quiet (Acting cb) fun _ => Acting cb := by
  induction fuel generalizing node with
  | zero => exact .undefined
  | succ fuel ih =>
    unfold ascend
    refine node_keeps.bind fun parent => learn_node_keeps.bind fun _ => ?_
    split
    · exact .pure fun _ hs => hs
    · exact ih

theorem learn_action_keeps : (learn_action t base fuel).Quiet (Holds cb w) fun _ => Holds cb w := by
  unfold learn_action
  refine get_ec_bind_quiet fun s hs => ?_
  obtain ⟨hcb, hweight⟩ := hs
  rw [hcb]
  cases hcosts : cb.costs with
  | nil => exact .undefined
  | cons cost costs =>
    -- the first cost with its own action is the first cost
    have hself : { cb with costs := cb.costs.modify 0 fun c => { c with action := cost.action } } = cb := by
      rw [hcosts]
      show (⟨cost :: costs, cb.weight⟩ : CbLabel R) = cb
      rw [← hcosts]
    refine node_keeps.bind fun node => ?_
    refine Quiet.bind (F := fun _ => Acting cb) ?_ fun _ => ?_
    · refine ascend_keeps.mono (fun s' hs' => ⟨cost.action, ?_⟩) fun _ _ hs => hs
      rw [hs', hcb, hself]
    · refine Quiet.bind (F := fun _ (s : State W R) => s.ec.l.cb = cb) ?_ fun _ => ?_
      · intro s' hs'
        exact (Acting.set_action hs' cost.action).trans hself
      · exact fun s' hs' => ⟨hs', hweight⟩

theorem learn_keeps : (learn t base fuel scores).Quiet (Holds cb w) fun _ => Holds cb w :=
  Quiet.bind (F := fun _ => Holds cb w) (set_ec_quiet fun _ hs => hs) fun _ => predict_scores_keeps.bind fun _ =>
    learn_action_keeps.bind fun _ =>
      Quiet.bind (F := fun _ => Holds cb w) (set_ec_quiet fun _ hs => hs) fun _ => .pure fun _ hs => hs

end Restored

/-! ## Every call returns -/

section Returns

variable {k : Nat} {t : MinDepthBinaryTree} {base : BaseLearner W R} {T : State W R → Prop}

/-- The base learner scores both actions. -/
def TwoScores (base : BaseLearner W R) : Prop := ∀ n ec w, 2 ≤ (base.predict n ec w).1.pred.a_s.length

omit [Field R] in
theorem predict_node_run {idx : Nat} {s : State W R} {left right : Nat × R} {rest : List (Nat × R)}
    (hscores : (base.predict idx s.ec s.weights).1.pred.a_s = left :: right :: rest) :
    predict_node base idx s =
      .returned (left.2, right.2) (s.answered false idx (base.predict idx s.ec s.weights)) := by
  show (match (base.predict idx s.ec s.weights).1.pred.a_s with
    | left :: right :: _ => pure (left.2, right.2)
    | _ => undefined) (s.answered false idx (base.predict idx s.ec s.weights)) = _
  rw [hscores]
  rfl

omit [Field R] in
theorem predict_node_returns (h : TwoScores base) {idx : Nat} :
    (predict_node base idx).Finishes Any (fun _ => Any) T := by
  intro s _
  have htwo := h idx s.ec s.weights
  obtain ⟨left, right, rest, hscores⟩ : ∃ left right rest,
    (base.predict idx s.ec s.weights).1.pred.a_s = left :: right :: rest := by
    rcases hlist : (base.predict idx s.ec s.weights).1.pred.a_s with _ | ⟨left, _ | ⟨right, rest⟩⟩
    · rw [hlist] at htwo
      cases htwo
    · rw [hlist] at htwo
      exact absurd htwo (by simp)
    · exact ⟨left, right, rest, rfl⟩
  rw [predict_node_run hscores]
  trivial

omit [Field R] in
theorem predict_nodes_return (h : TwoScores base) : (predict_nodes t base).Finishes Any
    (fun prediction_buffer _ => prediction_buffer.length = t.internal_node_count) T := by
  refine (Finishes.foldlM_range (I := fun i (prediction_buffer : List (R × R)) (_ : State W R) =>
    prediction_buffer.length = i) (fun i _ prediction_buffer => ?_) []).mono (fun _ _ => rfl)
      (fun _ _ h => h) fun _ h => h
  refine Finishes.bind (F := fun _ _ => prediction_buffer.length = i) ?_ fun p => .pure fun _ hs => ?_
  · intro s hs
    have hend : Ending.Is (predict_node base i s) (fun _ => Any) T := predict_node_returns h s trivial
    cases hrun : predict_node base i s with
    | returned a s' => exact hs
    | threw what s' =>
      rw [hrun] at hend
      exact hend
    | undefined =>
      rw [hrun] at hend
      exact hend
  · rw [length_append, hs]
    rfl

omit [Field R] in
theorem node_run {S A : Type} (h : t.nodes[id]? = some v) (f : TreeNode → Call S A) :
    (t.node id >>= f) = f v := by
  funext s
  unfold MinDepthBinaryTree.node
  rw [h]
  rfl

/-- The sizes of the buffer and of the scores. -/
def Sized (t : MinDepthBinaryTree) (s : List (R × R) × List R) : Prop :=
  s.1.length = t.internal_node_count ∧ s.2.length = t.num_leaf_nodes

omit [Field R] in
theorem buffer_at_run {S A : Type} (h : Built k t) {id : Nat} (hk : k ≤ id) (hid : id < t.nodes.length)
    {s : List (R × R) × List R} (hs : Sized t s) :
    ∃ p, ∀ f : R × R → Call S A, (buffer_at t s.1 id >>= f) = f p := by
  have hlt : id - t.num_leaf_nodes < s.1.length := by
    rw [hs.1, MinDepthBinaryTree.internal_node_count, h.num_leaf_nodes]
    omega
  refine ⟨s.1[id - t.num_leaf_nodes], fun f => ?_⟩
  unfold buffer_at
  rw [getElem?_eq_getElem hlt]
  rfl

theorem score_child_run {S : Type} (h : Built k t) {id : Nat} (hid : id < t.nodes.length) (p : R)
    {s : List (R × R) × List R} (hs : Sized t s) :
    ∃ s', (score_child t id p s : Call S _) = pure s' ∧ Sized t s' := by
  have hget := getElem?_eq_getElem hid
  unfold score_child
  rw [node_run hget]
  by_cases hleaf : t.nodes[id].is_leaf = true
  · have hlt : id < s.2.length := by
      rw [hs.2, h.num_leaf_nodes]
      exact (h.leaf id _ hget).mp hleaf
    rw [if_pos hleaf, if_pos hlt]
    exact ⟨_, rfl, hs.1, by rw [length_set]; exact hs.2⟩
  · have hk : k ≤ id := Nat.le_of_not_lt fun hlt => hleaf ((h.leaf id _ hget).mpr hlt)
    rw [if_neg hleaf]
    obtain ⟨q, hq⟩ := @buffer_at_run R k t S _ h id hk hid s hs
    rw [hq]
    exact ⟨_, rfl, by rw [length_set]; exact hs.1, hs.2⟩

theorem score_node_run {S : Type} (h : Built k t) (hmem : node ∈ t.nodes)
    (hinner : node.is_leaf ≠ true) (hs : Sized t s) :
    ∃ s', (score_node t s node : Call S _) = pure s' ∧ Sized t s' := by
  obtain ⟨n, hget⟩ := getElem?_of_mem hmem
  have hlt := (List.getElem?_eq_some_iff.mp hget).1
  have hk : k ≤ n := Nat.le_of_not_lt fun hlt => hinner ((h.leaf n node hget).mpr hlt)
  have hid := h.id n node hget
  obtain ⟨hleft, hright⟩ := h.children n node hget hk
  unfold score_node
  rw [hid]
  obtain ⟨p, hp⟩ := @buffer_at_run R k t S (List (R × R) × List R) h n hk hlt s hs
  rw [hp]
  obtain ⟨s₁, hleft_run, hs₁⟩ := @score_child_run R _ k t S h node.left_id (by omega) p.1 s hs
  rw [hleft_run, pure_bind]
  obtain ⟨q, hq⟩ := @buffer_at_run R k t S (List (R × R) × List R) h n hk hlt s₁ hs₁
  rw [hq]
  exact score_child_run h (by omega) q.2 hs₁

theorem predict_scores_returns (h : Built k t) (hbase : TwoScores base) :
    (predict_scores t base scores).Finishes Any (fun _ => Any) T := by
  unfold predict_scores
  split
  · exact .pure fun _ hs => hs
  · split
    · exact .pure fun _ hs => hs
    · refine any_bind_finishes (fun _ _ => trivial) fun ec => ?_
      refine any_bind_finishes (fun _ _ => trivial) fun _ => ?_
      refine (predict_nodes_return hbase).bind fun prediction_buffer => ?_
      refine Finishes.bind (F := fun _ _ => prediction_buffer.length = t.internal_node_count) (fun _ hs => hs)
        fun _ => ?_
      -- the scores of the inner nodes, from the last one
      have hloop : ∀ (nodes : List TreeNode) (s : List (R × R) × List R),
          (∀ node ∈ nodes, node ∈ t.nodes ∧ node.is_leaf ≠ true) → Sized t s →
          ∃ s', (nodes.foldlM (score_node t) s : Call (State W R) _) = pure s' := by
        intro nodes
        induction nodes with
        | nil => exact fun s _ _ => ⟨s, rfl⟩
        | cons node nodes ih =>
          intro s hnodes hs
          rw [forall_mem_cons] at hnodes
          obtain ⟨s₁, hrun, hs₁⟩ := score_node_run (S := State W R) h hnodes.1.1 hnodes.1.2 hs
          rw [foldlM_cons, hrun, pure_bind]
          exact ih s₁ hnodes.2 hs₁
      intro s hs
      obtain ⟨s', hrun⟩ := hloop (t.nodes.reverse.takeWhile fun node => ¬ node.is_leaf) (prediction_buffer,
          scores.take t.num_leaf_nodes ++ replicate (t.num_leaf_nodes - scores.length) 0)
        (fun node hnode => ⟨mem_reverse.mp ((takeWhile_sublist _).subset hnode), by
          have hinner := all_eq_true.mp all_takeWhile node hnode
          simpa using hinner⟩)
        ⟨hs, by simp only [length_append, length_take, length_replicate]; omega⟩
      rw [hrun]
      trivial

theorem predict_returns (h : Built k t) (hbase : TwoScores base) :
    (predict t base scores).Finishes Any (fun _ => Any) T :=
  any_bind_finishes (fun _ _ => trivial) fun _ => (predict_scores_returns h hbase).bind fun _ =>
    any_bind_finishes (fun _ _ => trivial) fun _ => .pure fun _ hs => hs

/-- A node's turn: the base learner learns and scores both actions, so that the action's score is there. -/
theorem learn_node_finishes (hbase : TwoScores base) (hlocal : local_action ≤ 2)
    {P Q S F : State W R → Prop} (haction : (set_action local_action).Finishes P (fun _ => Q) T)
    (hlearns : (base.learns (t.model node.id)).Finishes Q (fun _ => S) T)
    (hpredicts : (base.predicts (t.model node.id)).Finishes S (fun _ => F) T)
    (hweight : ∀ s weight, F s → F { s with ec := { s.ec with weight := weight } }) :
    (learn_node t base node local_action).Finishes P (fun _ => F) T := by
  have hscored : (base.predicts (t.model node.id)).Finishes S
      (fun _ s => F s ∧ local_action - 1 < s.ec.pred.a_s.length) T := by
    refine fun s hs => ⟨hpredicts s hs, ?_⟩
    have htwo := hbase (t.model node.id) s.ec s.weights
    show local_action - 1 < (base.predict (t.model node.id) s.ec s.weights).1.pred.a_s.length
    omega
  unfold learn_node
  refine haction.bind fun _ => hlearns.bind fun _ => hscored.bind fun _ => get_ec_bind_finishes fun s hs => ?_
  intro s' hs'
  subst hs'
  rw [getElem?_eq_getElem hs.2]
  exact hweight _ _ hs.1

theorem learn_node_returns (hbase : TwoScores base) {node : TreeNode} {local_action : Nat}
    (hlocal : local_action ≤ 2) :
    (learn_node t base node local_action).Finishes Any (fun _ => Any) T :=
  learn_node_finishes hbase hlocal (Q := Any) (S := Any) (fun _ _ => trivial) (fun _ _ => trivial)
    (fun _ _ => trivial)
    fun _ _ _ => trivial

/-- The label and the weight of the example come back. -/
theorem learn_action_run {s s' : State W R} {cost : CbClass R}
    (hcost : s.ec.l.cb.costs.head? = some cost) (hget : t.nodes[cost.action - 1]? = some node)
    (hend : ascend t base fuel node s = .returned () s') :
    learn_action t base fuel s = .returned () { s' with ec := { s'.ec with
      l := { s'.ec.l with cb := { s'.ec.l.cb with
        costs := s'.ec.l.cb.costs.modify 0 fun c => { c with action := cost.action } } }
      weight := s.ec.weight } } := by
  show (match s.ec.l.cb.costs.head? with
    | none => undefined
    | some cost => do
      let node ← t.node (cost.action - 1)
      ascend t base fuel node
      set_action cost.action
      set_weight s.ec.weight) s = _
  rw [hcost]
  dsimp only
  rw [node_run hget, bind_run, hend]
  rfl

/-- The way up ends at the root. -/
theorem ascend_returns (h : Built k t) (hbase : TwoScores base) (hget : t.nodes[n]? = some node)
    (hfuel : t.nodes.length - n < fuel) :
    (ascend t base fuel node).Finishes Any (fun _ => Any) T := by
  induction fuel generalizing n node with
  | zero => exact absurd hfuel (Nat.not_lt_zero _)
  | succ fuel ih =>
    have hparent := h.parent n node hget
    have hexists : node.parent_id < t.nodes.length := by omega
    have hget' := getElem?_eq_getElem hexists
    have hid := h.id _ _ hget'
    unfold ascend
    rw [node_run hget', hid]
    refine (learn_node_returns hbase (by split <;> omega)).bind fun _ => ?_
    split
    · exact .pure fun _ hs => hs
    · next hroot =>
      have hlater := h.parent _ _ hget'
      refine ih hget' ?_
      omega

theorem learn_returns (h : Built k t) (hbase : TwoScores base) {fuel : Nat}
    (hfuel : t.nodes.length < fuel) {scores : List R}
    {cb : CbLabel R} {w : R} {cost : CbClass R} (hcost : cb.costs.head? = some cost)
    (hle : cost.action ≤ k) (hk : 1 ≤ k) :
    (learn t base fuel scores).Finishes (Holds cb w) (fun _ => Any) T := by
  have hleaves := h.leaves
  refine Finishes.bind (F := fun _ => Holds cb w) (fun _ hs => hs) fun _ => ?_
  refine Finishes.bind (F := fun _ => Holds cb w) (fun s hs => ?_) fun saved_scores => ?_
  · have hend : Ending.Is (predict_scores t base scores s) (fun _ => Any) T :=
      predict_scores_returns h hbase s trivial
    cases hrun : predict_scores t base scores s with
    | returned a s' => exact predict_scores_keeps.of_returned hs hrun
    | threw what s' =>
      rw [hrun] at hend
      exact hend
    | undefined =>
      rw [hrun] at hend
      exact hend
  · refine Finishes.bind (F := fun _ => Any) ?_ fun _ =>
      any_bind_finishes (fun _ _ => trivial) fun _ => .pure fun _ hs => hs
    unfold learn_action
    refine get_ec_bind_finishes fun s hs => ?_
    have hlt : cost.action - 1 < t.nodes.length := by omega
    rw [hs.1, hcost]
    dsimp only
    rw [node_run (getElem?_eq_getElem hlt)]
    refine Finishes.bind (F := fun _ => Any) ?_ fun _ => ?_
    · exact (ascend_returns h hbase (getElem?_eq_getElem hlt) (by omega)).mono (fun _ _ => trivial) (fun _ _ h => h)
        fun _ h => h
    · exact any_bind_finishes (fun _ _ => trivial) fun _ => fun _ _ => trivial

end Returns

end VW.OffsetTree
