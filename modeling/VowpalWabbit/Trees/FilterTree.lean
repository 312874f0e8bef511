import VowpalWabbit.Trees.CatsTree

/-! # The CATS tree simulates a filter tree

    A filter tree trains every inner node, from the lowest level up, between the costs that
    its two children return. With costs at the leaves `a` to `b` only, and the same at all of
    them, nearly all of these nodes see two equal costs; the walk of the CATS tree visits the
    others, in the same order.
-/

open Cpp VW.Trees Nat Function

namespace VW.CatsTree

open List MinDepthBinaryTree

/-! ## The tree that is built -/

/-- A node of the tree after `i` nodes got their children. -/
structure Placed (bandwidth i n : Nat) (node : TreeNode) : Prop where
  id : node.id = n
  parent_id : node.parent_id = (n - 1) / 2
  children : n < i → node.left_id = 2 * n + 1 ∧ node.right_id = 2 * n + 2 ∧ node.is_leaf = false
  leaf : i ≤ n → node.is_leaf = true
  both : bandwidth = 0 → node.right_only = false ∧ node.left_only = false

/-- The nodes, and the depth of the last one, after `i` nodes got their children. -/
structure Grown (bandwidth i : Nat) (s : List TreeNode × Nat × Nat) : Prop where
  length : s.1.length = 2 * i + 1
  nodes : ∀ n node, s.1[n]? = some node → Placed bandwidth i n node
  depth_const : s.2.2 = 2 ^ (s.2.1 + 1) - 1
  depth_le : 2 ^ s.2.1 ≤ 2 * i + 1
  lt_depth : 2 * i < 2 ^ (s.2.1 + 1)

/-- After a node got its children, every node is an old one or one of the two. -/
theorem add_children_cases {num_leaf_nodes bandwidth i n : Nat} {s : List TreeNode × Nat × Nat} {node : TreeNode}
    (hlength : s.1.length = 2 * i + 1) (hget : (add_children num_leaf_nodes bandwidth s i).1[n]? = some node) :
    (∃ old, s.1[n]? = some old ∧ node =
      if i = n then { old with left_id := 2 * i + 1, right_id := 2 * i + 2, is_leaf := false } else old) ∨
    (n = 2 * i + 1 ∨ n = 2 * i + 2) ∧
      node = new_leaf num_leaf_nodes bandwidth (add_children num_leaf_nodes bandwidth s i).2.1 n i := by
  unfold CatsTree.add_children at hget
  dsimp only at hget
  rcases lt_or_ge n (2 * i + 1) with hn | hn
  · rw [getElem?_append_left (by rw [length_modify, hlength]; exact hn), getElem?_modify] at hget
    obtain ⟨old, hold, hnode⟩ := Option.map_eq_some_iff.mp hget
    exact .inl ⟨old, hold, hnode.symm⟩
  · rw [getElem?_append_right (by rw [length_modify, hlength]; exact hn), length_modify, hlength] at hget
    rcases (by omega : n = 2 * i + 1 ∨ n = 2 * i + 2 ∨ 2 * i + 3 ≤ n) with rfl | rfl | hlater
    · rw [Nat.sub_self] at hget
      cases hget
      exact .inr ⟨.inl rfl, rfl⟩
    · rw [show 2 * i + 2 - (2 * i + 1) = 1 by omega] at hget
      cases hget
      exact .inr ⟨.inr rfl, rfl⟩
    · rw [getElem?_eq_none (by simp; omega)] at hget
      cases hget

/-- Before that there is the root only. -/
theorem root_cases {root node : TreeNode} {n : Nat} (hget : [root][n]? = some node) : n = 0 ∧ node = root := by
  cases n with
  | zero => exact ⟨rfl, (Option.some.inj hget).symm⟩
  | succ n => cases hget

theorem Grown.add_children {num_leaf_nodes bandwidth i : Nat} {s : List TreeNode × Nat × Nat}
    (h : Grown bandwidth i s) :
    Grown bandwidth (i + 1) (add_children num_leaf_nodes bandwidth s i) := by
  have hlength := h.length
  have hpow' : 2 ^ (s.2.1 + 2) = 2 * 2 ^ (s.2.1 + 1) := pow_succ'
  have hpositive : 0 < 2 ^ s.2.1 := Nat.two_pow_pos _
  have hle := h.depth_le
  have hlt := h.lt_depth
  have hconst := h.depth_const
  refine ⟨?_, fun n node hget => ?_, ?_, ?_, ?_⟩
  · unfold CatsTree.add_children
    rw [length_append, length_modify, hlength]
    rfl
  · rcases add_children_cases hlength hget with ⟨old, hold, rfl⟩ | ⟨hn, rfl⟩
    · have hplaced := h.nodes n old hold
      by_cases hi : i = n
      · rw [if_pos hi]
        subst hi
        exact ⟨hplaced.id, hplaced.parent_id, fun _ => ⟨rfl, rfl, rfl⟩,
          fun hle => absurd hle (by omega), hplaced.both⟩
      · rw [if_neg hi]
        exact ⟨hplaced.id, hplaced.parent_id, fun hlt => hplaced.children (by omega),
          fun hle => hplaced.leaf (by omega),
          hplaced.both⟩
    · refine ⟨rfl, (by omega : i = (n - 1) / 2), fun hlt => absurd hlt (by omega), fun _ => rfl, ?_⟩
      rintro rfl
      exact ⟨rfl, rfl⟩
  · show (if s.2.2 ≤ 2 * i + 1 then 2 ^ (s.2.1 + 2) - 1 else s.2.2) =
      2 ^ ((if s.2.2 ≤ 2 * i + 1 then s.2.1 + 1 else s.2.1) + 1) - 1
    split
    · rfl
    · exact hconst
  · show 2 ^ (if s.2.2 ≤ 2 * i + 1 then s.2.1 + 1 else s.2.1) ≤ 2 * (i + 1) + 1
    split <;> omega
  · show 2 * (i + 1) < 2 ^ ((if s.2.2 ≤ 2 * i + 1 then s.2.1 + 1 else s.2.1) + 1)
    split
    · show 2 * (i + 1) < 2 ^ (s.2.1 + 2)
      omega
    · omega

/-- The root. -/
def root_node : TreeNode :=
  { id := 0, parent_id := 0, depth := 0, left_only := false, right_only := false, is_leaf := true }

theorem grown_root {bandwidth : Nat} : Grown bandwidth 0 ([root_node], 0, 1) := by
  refine ⟨rfl, fun n node hget => ?_, rfl, by decide, by decide⟩
  obtain ⟨rfl, rfl⟩ := root_cases hget
  exact ⟨rfl, rfl, fun hlt => absurd hlt (by omega), fun _ => rfl, fun _ => ⟨rfl, rfl⟩⟩

/-- What is known of the tree. -/
theorem build_tree_grown {num_nodes bandwidth : Nat} (h : 0 < num_nodes) :
    ∃ depth_const, Grown bandwidth (num_nodes - 1)
      ((build_tree num_nodes bandwidth).nodes, (build_tree num_nodes bandwidth).depth, depth_const) := by
  unfold build_tree
  rw [if_neg (by omega)]
  exact ⟨_, for_range_invariant (fun i s => Grown bandwidth i s) grown_root fun i _ s hs => hs.add_children⟩

/-- What holds of the root, of a node that gets its children and of a new leaf holds of all nodes. -/
theorem build_tree_nodes {K bandwidth : Nat} {P : Nat → TreeNode → Prop} (hK : 0 < K) (hroot : P 0 root_node)
    (hparent : ∀ {i n old}, P n old → P n { old with left_id := 2 * i + 1, right_id := 2 * i + 2, is_leaf := false })
    (hnew : ∀ {i n depth}, n = 2 * i + 1 ∨ n = 2 * i + 2 → 2 ^ depth ≤ 2 * (i + 1) + 1 →
      2 * (i + 1) < 2 ^ (depth + 1) →
      P n (new_leaf K bandwidth depth n i)) :
    ∀ n node, (build_tree K bandwidth).nodes[n]? = some node → P n node := by
  unfold build_tree
  rw [if_neg (by omega)]
  refine (for_range_invariant (fun i (s : List TreeNode × Nat × Nat) => Grown bandwidth i s ∧
    ∀ n node, s.1[n]? = some node → P n node) ⟨grown_root, fun n node hget => ?_⟩ fun i _ s hs => ?_).2
  · obtain ⟨rfl, rfl⟩ := root_cases hget
    exact hroot
  · have hnext := (@Grown.add_children K _ _ _) hs.1
    refine ⟨hnext, fun n node hget => ?_⟩
    rcases add_children_cases hs.1.length hget with ⟨old, hold, rfl⟩ | ⟨hn, rfl⟩
    · split
      · exact hparent (hs.2 n old hold)
      · exact hs.2 n old hold
    · exact hnew hn hnext.depth_le hnext.lt_depth

/-- The nodes of a tree with bandwidth 0 and `2 ^ D` leaves. -/
structure Full (t : MinDepthBinaryTree) (D : Nat) : Prop where
  length : t.nodes.length = 2 ^ (D + 1) - 1
  num_leaf_nodes : t.num_leaf_nodes = 2 ^ D
  depth : t.depth = D
  node : ∀ n < 2 ^ (D + 1) - 1, ∃ v, t.nodes[n]? = some v ∧ v.id = n ∧ v.parent_id = (n - 1) / 2 ∧
    v.right_only = false ∧ v.left_only = false ∧ (n < 2 ^ D - 1 → v.left_id = 2 * n + 1 ∧ v.right_id = 2 * n + 2)

theorem build_tree_full (D : Nat) : Full (build_tree (2 ^ D) 0) D := by
  have hpositive : 0 < 2 ^ D := Nat.two_pow_pos D
  obtain ⟨depth_const, hgrown⟩ := (@build_tree_grown _ 0) hpositive
  have hlength := hgrown.length
  have hdepth_le := hgrown.depth_le
  have hlt_depth := hgrown.lt_depth
  dsimp only at hlength hdepth_le hlt_depth
  refine ⟨by omega, ?_, ?_, fun n hn => ?_⟩
  · unfold build_tree
    rw [if_neg (by omega)]
  · refine le_antisymm ?_ ?_
    · by_contra hnot
      have hle : 2 ^ (D + 1) ≤ 2 ^ (build_tree (2 ^ D) 0).depth := Nat.pow_le_pow_right Nat.two_pos (by omega)
      omega
    · by_contra hnot
      have hle : 2 ^ ((build_tree (2 ^ D) 0).depth + 1) ≤ 2 ^ D := Nat.pow_le_pow_right Nat.two_pos (by omega)
      have hone : 2 ≤ 2 ^ D := Nat.le_trans (by simp) (Nat.pow_le_pow_right Nat.two_pos (by omega : 1 ≤ D))
      omega
  · obtain ⟨v, hv⟩ : ∃ v, (build_tree (2 ^ D) 0).nodes[n]? = some v := ⟨_, getElem?_eq_getElem (by omega)⟩
    have hplaced := hgrown.nodes n v hv
    obtain ⟨hright, hleft⟩ := hplaced.both rfl
    refine ⟨v, hv, hplaced.id, hplaced.parent_id, hright, hleft, fun hinner => ?_⟩
    obtain ⟨hleft_id, hright_id, -⟩ := hplaced.children hinner
    exact ⟨hleft_id, hright_id⟩

/-! ## The filter tree -/

/-- A base learner that chooses right or left at a node, by the updates so far. -/
structure Choices (W R : Type) where
  right : Nat → W → Bool
  update : Nat → R → R → W → W

variable {p : Nat}

section Filter

variable {W R : Type} [Field R] [LinearOrder R]

/-- The base learner predicts 1 for right and -1 for left. -/
structure Agrees (base : BaseLearner W R) (c : Choices W R) : Prop where
  scalar : ∀ n ec w, (base.predict n ec w).1.pred.scalar = if c.right n w then 1 else -1
  predict : ∀ n ec w, (base.predict n ec w).2 = w
  learn : ∀ n ec w, (base.learn n ec w).2 = c.update n ec.l.simple ec.weight w

/-- A training: the weights of the base learner, the updates so far (node, label and weight), and the leaf
    that is reached from a node. -/
structure Training (W R : Type) where
  weights : W
  updates : List (Nat × R × R)
  leaf : Nat → Nat

/-- The update at a node whose children return `left` and `right`. -/
def train_at (c : Choices W R) (n : Nat) (left right : R) (s : W × List (Nat × R × R)) : W × List (Nat × R × R) :=
  if left = right then s
  else
    let label : R := if left < right then -1 else 1
    (c.update n label |left - right| s.1, s.2 ++ [(n, label, |left - right|)])

/-- A node is trained on the costs of the leaves that its children reach. Its own leaf is that of the child
    that the base learner then chooses. -/
def filter_node (c : Choices W R) (cost : Nat → R) (s : Training W R) (n : Nat) : Training W R :=
  let left := s.leaf (2 * n + 1)
  let right := s.leaf (2 * n + 2)
  let trained := train_at c n (cost left) (cost right) (s.weights, s.updates)
  { weights := trained.1, updates := trained.2
    leaf := update s.leaf n (if c.right n trained.1 then right else left) }

/-- A level, from the left. -/
def filter_level (c : Choices W R) (cost : Nat → R) (s : Training W R) (d : Nat) : Training W R :=
  for_range (2 ^ d) (fun s j => filter_node c cost s (2 ^ d - 1 + j)) s

/-- All inner nodes of a tree with `2 ^ D` leaves, from the lowest level up. -/
def filter_tree (c : Choices W R) (cost : Nat → R) (D : Nat) (s : Training W R) : Training W R :=
  for_range D (fun s i => filter_level c cost s (D - 1 - i)) s

/-- The leaves of the actions `a` to `b` cost `cost_star`, the others nothing. -/
def leaf_costs (D : Nat) (cost_star : R) (a b n : Nat) : R :=
  if a + (2 ^ D - 1) - 1 ≤ n ∧ n ≤ b + (2 ^ D - 1) - 1 then cost_star else 0

/-! ## One level -/

variable {c : Choices W R} {cost_star : R} {ab : NodeCosts R} {d : Nat}

/-- The two nodes of a level. -/
structure Walk (cost_star : R) (d : Nat) (ab : NodeCosts R) : Prop where
  first : 2 ^ d - 1 ≤ ab.1.node_id
  order : ab.1.node_id ≤ ab.2.node_id
  last : ab.2.node_id < 2 ^ (d + 1) - 1
  a_cost : ab.1.cost = 0 ∨ ab.1.cost = cost_star
  b_cost : ab.2.cost = 0 ∨ ab.2.cost = cost_star

omit [LinearOrder R] in
theorem Walk.return_cost (h : Walk cost_star d ab) (n : Nat) :
    return_cost cost_star ab n = 0 ∨ return_cost cost_star ab n = cost_star := by
  unfold CatsTree.return_cost
  split_ifs
  · exact .inl rfl
  · exact h.a_cost
  · exact .inr rfl
  · exact h.b_cost
  · exact .inl rfl

/-- The update of the parent of a node, and the cost that it returns. -/
def train_parent (c : Choices W R) (cost_star : R) (ab : NodeCosts R) (p : Nat) (s : W × List (Nat × R × R)) :
    W × List (Nat × R × R) :=
  train_at c p (return_cost cost_star ab (2 * p + 1)) (return_cost cost_star ab (2 * p + 2)) s

def returned_cost (c : Choices W R) (cost_star : R) (ab : NodeCosts R) (p : Nat) (s : W × List (Nat × R × R)) : R :=
  if c.right p (train_parent c cost_star ab p s).1 then return_cost cost_star ab (2 * p + 2)
  else return_cost cost_star ab (2 * p + 1)

/-- The walk at the parents. -/
def parents (c : Choices W R) (cost_star : R) (ab : NodeCosts R) (s : W × List (Nat × R × R)) :
    NodeCosts R × (W × List (Nat × R × R)) :=
  let a := (ab.1.node_id - 1) / 2
  let b := (ab.2.node_id - 1) / 2
  let s_a := train_parent c cost_star ab a s
  if a = b then ((⟨a, returned_cost c cost_star ab a s⟩, ⟨b, ab.2.cost⟩), s_a)
  else ((⟨a, returned_cost c cost_star ab a s⟩, ⟨b, returned_cost c cost_star ab b s_a⟩),
    train_parent c cost_star ab b s_a)

theorem Walk.parents (h : Walk cost_star (d + 1) ab) (s : W × List (Nat × R × R)) :
    Walk cost_star d (parents c cost_star ab s).1 := by
  have hfirst := h.first
  have horder := h.order
  have hlast := h.last
  have hpositive : 0 < 2 ^ d := Nat.two_pow_pos d
  have hreturned : ∀ p s, returned_cost c cost_star ab p s = 0 ∨ returned_cost c cost_star ab p s = cost_star := by
    intro p s
    unfold returned_cost
    split
    · exact h.return_cost _
    · exact h.return_cost _
  unfold CatsTree.parents
  dsimp only
  split
  · exact ⟨by dsimp only; omega, by dsimp only; omega, by dsimp only; omega, hreturned _ _, h.b_cost⟩
  · exact ⟨by dsimp only; omega, by dsimp only; omega, by dsimp only; omega, hreturned _ _, hreturned _ _⟩

/-- The training before node `p` of the level above. -/
def trained_below (c : Choices W R) (cost_star : R) (ab : NodeCosts R) (p : Nat) (s : W × List (Nat × R × R)) :
    W × List (Nat × R × R) :=
  if p ≤ (ab.1.node_id - 1) / 2 then s
  else if p ≤ (ab.2.node_id - 1) / 2 then train_parent c cost_star ab ((ab.1.node_id - 1) / 2) s
  else (parents c cost_star ab s).2

/-- Between two equal costs nothing is trained. -/
theorem train_parent_of_eq {cost : R} {s : W × List (Nat × R × R)}
    (hleft : return_cost cost_star ab (2 * p + 1) = cost)
    (hright : return_cost cost_star ab (2 * p + 2) = cost) :
    train_parent c cost_star ab p s = s ∧ returned_cost c cost_star ab p s = cost := by
  constructor
  · unfold train_parent train_at
    rw [hleft, hright, if_pos rfl]
  · unfold returned_cost
    rw [hleft, hright, ite_self]

/-- The node `p` of the level above is trained as the walk does, and returns what the walk says. -/
theorem train_next (h : Walk cost_star (d + 1) ab) (s : W × List (Nat × R × R)) :
    train_parent c cost_star ab p (trained_below c cost_star ab p s) = trained_below c cost_star ab (p + 1) s ∧
      returned_cost c cost_star ab p (trained_below c cost_star ab p s) =
        return_cost cost_star (parents c cost_star ab s).1 p := by
  have horder := h.order
  have hids : (parents c cost_star ab s).1.1.node_id = (ab.1.node_id - 1) / 2 ∧
      (parents c cost_star ab s).1.2.node_id = (ab.2.node_id - 1) / 2 := by
    unfold CatsTree.parents
    dsimp only
    split
    · exact ⟨rfl, rfl⟩
    · exact ⟨rfl, rfl⟩
  -- the cost of the parent of `a`, and that of the parent of `b` if it is another one
  have hcost_a : (parents c cost_star ab s).1.1.cost = returned_cost c cost_star ab ((ab.1.node_id - 1) / 2) s := by
    unfold CatsTree.parents
    dsimp only
    split <;> rfl
  rcases lt_trichotomy p ((ab.1.node_id - 1) / 2) with hlt | heq | hgt
  · -- left of both nodes
    have hbefore : trained_below c cost_star ab p s = s := if_pos (le_of_lt hlt)
    have hafter : trained_below c cost_star ab (p + 1) s = s := if_pos hlt
    have hzero : ∀ n, n < ab.1.node_id → return_cost cost_star ab n = 0 := fun n hn => if_pos hn
    obtain ⟨htrained, hreturned⟩ := train_parent_of_eq (c := c) (s := s)
      (hzero (2 * p + 1) (by omega)) (hzero (2 * p + 2) (by omega))
    rw [hbefore, hafter]
    refine ⟨htrained, hreturned.trans ?_⟩
    unfold CatsTree.return_cost
    rw [if_pos (by omega)]
  · have hbefore : trained_below c cost_star ab p s = s := if_pos (le_of_eq heq)
    rw [hbefore]
    constructor
    · unfold trained_below
      rw [if_neg (by omega), heq]
      by_cases hsame : (ab.1.node_id - 1) / 2 = (ab.2.node_id - 1) / 2
      · rw [if_neg (by omega)]
        unfold CatsTree.parents
        dsimp only
        rw [if_pos hsame]
      · rw [if_pos (by omega)]
    · unfold CatsTree.return_cost
      rw [if_neg (by omega), if_pos (by omega), hcost_a, heq]
  · have hbefore : trained_below c cost_star ab p s = if p ≤ (ab.2.node_id - 1) / 2
        then train_parent c cost_star ab ((ab.1.node_id - 1) / 2) s else (parents c cost_star ab s).2 :=
      if_neg (Nat.not_le.mpr hgt)
    have hafter : trained_below c cost_star ab (p + 1) s = if p + 1 ≤ (ab.2.node_id - 1) / 2
        then train_parent c cost_star ab ((ab.1.node_id - 1) / 2) s else (parents c cost_star ab s).2 :=
      if_neg (by omega)
    rcases lt_trichotomy p ((ab.2.node_id - 1) / 2) with hlt_b | heq_b | hgt_b
    · -- between the nodes
      have hstar : ∀ n, ab.1.node_id < n → n < ab.2.node_id → return_cost cost_star ab n = cost_star := by
        intro n hn hn'
        unfold CatsTree.return_cost
        rw [if_neg (by omega), if_neg (by omega), if_pos hn']
      obtain ⟨htrained, hreturned⟩ := train_parent_of_eq (c := c)
        (s := train_parent c cost_star ab ((ab.1.node_id - 1) / 2) s)
        (hstar (2 * p + 1) (by omega) (by omega)) (hstar (2 * p + 2) (by omega) (by omega))
      rw [hbefore, hafter, if_pos (le_of_lt hlt_b), if_pos (succ_le_of_lt hlt_b)]
      refine ⟨htrained, hreturned.trans ?_⟩
      unfold CatsTree.return_cost
      rw [if_neg (by omega), if_neg (by omega), if_pos (by omega)]
    · have hparents : parents c cost_star ab s =
          ((⟨(ab.1.node_id - 1) / 2, returned_cost c cost_star ab ((ab.1.node_id - 1) / 2) s⟩,
            ⟨(ab.2.node_id - 1) / 2, returned_cost c cost_star ab ((ab.2.node_id - 1) / 2)
              (train_parent c cost_star ab ((ab.1.node_id - 1) / 2) s)⟩),
            train_parent c cost_star ab ((ab.2.node_id - 1) / 2)
              (train_parent c cost_star ab ((ab.1.node_id - 1) / 2) s)) := by
        unfold CatsTree.parents
        dsimp only
        rw [if_neg (by omega)]
      rw [hbefore, hafter, if_pos (by omega), if_neg (by omega), hparents, heq_b]
      refine ⟨rfl, ?_⟩
      unfold CatsTree.return_cost
      dsimp only
      rw [if_neg (by omega), if_neg (by omega), if_neg (by omega), if_pos rfl]
    · -- right of both nodes
      have hzero : ∀ n, ab.2.node_id < n → return_cost cost_star ab n = 0 := by
        intro n hn
        unfold CatsTree.return_cost
        rw [if_neg (by omega), if_neg (by omega), if_neg (by omega), if_neg (by omega)]
      obtain ⟨htrained, hreturned⟩ := train_parent_of_eq (c := c) (s := (parents c cost_star ab s).2)
        (hzero (2 * p + 1) (by omega)) (hzero (2 * p + 2) (by omega))
      rw [hbefore, hafter, if_neg (by omega), if_neg (by omega)]
      refine ⟨htrained, hreturned.trans ?_⟩
      unfold CatsTree.return_cost
      rw [if_neg (by omega), if_neg (by omega), if_neg (by omega), if_neg (by omega)]

/-- The filter tree has trained the level above up to node `p`. -/
structure Trained (c : Choices W R) (cost : Nat → R) (cost_star : R) (d : Nat) (ab : NodeCosts R)
    (start : W × List (Nat × R × R)) (p : Nat) (s : Training W R) : Prop where
  trained : (s.weights, s.updates) = trained_below c cost_star ab p start
  children : ∀ n, 2 ^ (d + 1) - 1 ≤ n → n < 2 ^ (d + 2) - 1 → cost (s.leaf n) = return_cost cost_star ab n
  returned : ∀ n, 2 ^ d - 1 ≤ n → n < p → cost (s.leaf n) = return_cost cost_star (parents c cost_star ab start).1 n

variable {s : Training W R} {cost : Nat → R}

theorem Trained.filter_node {start : W × List (Nat × R × R)} (hwalk : Walk cost_star (d + 1) ab)
    (h : Trained c cost cost_star d ab start p s) (hle : 2 ^ d - 1 ≤ p)
    (hlt : p < 2 ^ (d + 1) - 1) :
    Trained c cost cost_star d ab start (p + 1) (filter_node c cost s p) := by
  have hpow' : 2 ^ (d + 2) = 2 * 2 ^ (d + 1) := pow_succ'
  have hpositive : 0 < 2 ^ d := Nat.two_pow_pos d
  obtain ⟨htrained, hreturned⟩ := train_next (c := c) hwalk (p := p) start
  rw [← h.trained] at htrained hreturned
  have hleft := h.children (2 * p + 1) (by omega) (by omega)
  have hright := h.children (2 * p + 2) (by omega) (by omega)
  have hat : train_at c p (cost (s.leaf (2 * p + 1))) (cost (s.leaf (2 * p + 2))) (s.weights, s.updates) =
      train_parent c cost_star ab p (s.weights, s.updates) := by
    rw [hleft, hright]
    rfl
  refine ⟨?_, fun n hn hn' => ?_, fun n hn hn' => ?_⟩
  · rw [← htrained, ← hat]
    rfl
  · show cost (update s.leaf p _ n) = _
    rw [update_of_ne (by omega)]
    exact h.children n hn hn'
  · rcases Nat.lt_succ_iff_lt_or_eq.mp hn' with hbelow | rfl
    · show cost (update s.leaf p _ n) = _
      rw [update_of_ne (by omega)]
      exact h.returned n hn hbelow
    · show cost (update s.leaf n _ n) = _
      rw [update_self, ← hreturned, hat, apply_ite cost, hleft, hright]
      rfl

/-- A level of the filter tree is a step of the walk. -/
theorem filter_level_walks (hwalk : Walk cost_star (d + 1) ab)
    (hcost : ∀ n, 2 ^ (d + 1) - 1 ≤ n → n < 2 ^ (d + 2) - 1 → cost (s.leaf n) = return_cost cost_star ab n) :
    ((filter_level c cost s d).weights, (filter_level c cost s d).updates) =
        (parents c cost_star ab (s.weights, s.updates)).2 ∧
      ∀ n, 2 ^ d - 1 ≤ n → n < 2 ^ (d + 1) - 1 → cost ((filter_level c cost s d).leaf n) =
        return_cost cost_star (parents c cost_star ab (s.weights, s.updates)).1 n := by
  have hfirst := hwalk.first
  have horder := hwalk.order
  have hlast := hwalk.last
  have hall : Trained c cost cost_star d ab (s.weights, s.updates) (2 ^ d - 1 + 2 ^ d)
    (filter_level c cost s d) := by
    unfold filter_level
    refine for_range_invariant (fun j => Trained c cost cost_star d ab (s.weights, s.updates) (2 ^ d - 1 + j)) ?_ ?_
    · exact ⟨(if_pos (by omega)).symm, hcost, fun n hn hn' => absurd hn' (by omega)⟩
    · intro j hj s hs
      have hlt : 2 ^ d - 1 + j < 2 ^ (d + 1) - 1 := by omega
      exact hs.filter_node hwalk (le_add_right _ j) hlt
  refine ⟨?_, fun n hn hn' => hall.returned n hn (by omega)⟩
  rw [hall.trained]
  unfold trained_below
  rw [if_neg (by omega), if_neg (by omega)]

end Filter

/-! ## The walk of the code -/

section Code

variable {W R : Type} [Field R] [LinearOrder R] [IsStrictOrderedRing R] {base : BaseLearner W R} {c : Choices W R}
variable (random_draw : R) {cost_star : R} {ab : NodeCosts R} {t : MinDepthBinaryTree} {D d : Nat}

/-- The updates among the questions to the base learner. -/
def learned (asked : List (Asked R)) : List (Nat × R × R) :=
  (asked.filter fun a => a.learns).map fun a => (a.index, a.label, a.weight)

/-- What the base learner has learned. -/
def trained (s : State W R) : W × List (Nat × R × R) := (s.weights, learned s.asked)

/-- With a prediction of 1 or -1 the mixture is one of the two costs. -/
theorem mix_eq (right chosen : Bool) (low high : R) :
    mix chosen (if right then 1 else -1) low high = if chosen then low else high := by
  have habs : |(if right then (1 : R) else -1)| = 1 := by
    cases right
    · simp
    · simp
  unfold mix
  rw [habs, one_add_one_eq_two, sub_self]
  cases chosen
  · simp
  · simp

theorem trained_action_eq (right : Bool) :
    (if (if right then (1 : R) else -1) < 0 then (-1 : R) else 1) = if right then 1 else -1 := by
  cases right
  · simp
  · simp [not_lt.mpr zero_le_one]

/-- A training at a node. -/
theorem train_run (h : Agrees base c) (p : Nat) (local_action cost_v cost_w : R) (s : State W R) :
    ∃ s', train base p local_action cost_v cost_w s = .returned
        (if (if c.right p (c.update p s.ec.l.simple s.ec.weight s.weights) then (1 : R) else -1) = local_action
          then min cost_v cost_w else max cost_v cost_w) s' ∧
      trained s' = (c.update p s.ec.l.simple s.ec.weight s.weights,
        learned s.asked ++ [(p, s.ec.l.simple, s.ec.weight)]) := by
  have hscalar := h.scalar p (s.answered true p (base.learn p s.ec s.weights)).ec
    (base.learn p s.ec s.weights).2
  have hpredict := h.predict p (s.answered true p (base.learn p s.ec s.weights)).ec
    (base.learn p s.ec s.weights).2
  rw [h.learn] at hscalar hpredict
  refine ⟨(s.answered true p (base.learn p s.ec s.weights)).answered false p
    (base.predict p (s.answered true p (base.learn p s.ec s.weights)).ec (base.learn p s.ec s.weights).2), ?_, ?_⟩
  · show Ending.returned
      (mix (decide ((if (base.predict p _ (base.learn p s.ec s.weights).2).1.pred.scalar < 0 then
        (-1 : R) else 1) = local_action)) (base.predict p _ (base.learn p s.ec s.weights).2).1.pred.scalar _ _) _ = _
    rw [h.learn, hscalar, trained_action_eq, mix_eq]
    simp only [decide_eq_true_eq]
    rw [← h.learn]
    rfl
  · show ((base.predict p _ (base.learn p s.ec s.weights).2).2, _) = _
    rw [h.learn, hpredict]
    unfold learned
    simp [State.answered]

/-- The parent of two nodes that cost `left` and `right`, when `v` is the left one or the right one. -/
theorem parent_cost_run (h : Agrees base c) {v w v_parent : TreeNode}
    {left right cost_v cost_w : R} (hparent : v.parent_id = p)
    (hleft_id : v_parent.left_id = 2 * p + 1)
    (hv : v.id = 2 * p + 1 ∧ w.id = 2 * p + 2 ∧ cost_v = left ∧ cost_w = right ∨
      v.id = 2 * p + 2 ∧ w.id = 2 * p + 1 ∧ cost_v = right ∧ cost_w = left)
    (hbig : left ≠ right → weight_th ≤ |left - right|) (s : State W R) :
    ∃ s', parent_cost random_draw base v w v_parent cost_v cost_w s = .returned
        (if c.right p (train_at c p left right (trained s)).1 then right else left) s' ∧
      trained s' = train_at c p left right (trained s) := by
  have hab : cost_v = cost_w ↔ left = right := by
    rcases hv with ⟨-, -, rfl, rfl⟩ | ⟨-, -, rfl, rfl⟩
    · exact Iff.rfl
    · exact eq_comm
  have hweight : |cost_v - cost_w| = |left - right| := by
    rcases hv with ⟨-, -, rfl, rfl⟩ | ⟨-, -, rfl, rfl⟩
    · rfl
    · exact abs_sub_comm _ _
  have hmin : min cost_v cost_w = min left right := by
    rcases hv with ⟨-, -, rfl, rfl⟩ | ⟨-, -, rfl, rfl⟩
    · rfl
    · exact min_comm _ _
  have hmax : max cost_v cost_w = max left right := by
    rcases hv with ⟨-, -, rfl, rfl⟩ | ⟨-, -, rfl, rfl⟩
    · rfl
    · exact max_comm _ _
  unfold parent_cost train_at
  by_cases heq : left = right
  · -- equal costs go up as they are
    rw [if_pos (hab.mpr heq), if_pos heq]
    refine ⟨s, ?_, rfl⟩
    rw [heq, ite_self]
    rcases hv with ⟨-, -, rfl, rfl⟩ | ⟨-, -, rfl, rfl⟩
    · rw [heq]
      rfl
    · rfl
  · rw [if_neg fun hsame => heq (hab.mp hsame), if_neg heq]
    have hlabel : (if (if cost_v < cost_w then v else w).id = v_parent.left_id then (-1 : R) else 1) =
        if left < right then -1 else 1 := by
      rcases hv with ⟨hv_id, hw_id, rfl, rfl⟩ | ⟨hv_id, hw_id, rfl, rfl⟩
      · by_cases hlt : cost_v < cost_w
        · rw [if_pos hlt, if_pos hlt, hv_id, hleft_id, if_pos rfl]
        · rw [if_neg hlt, if_neg hlt, hw_id, hleft_id, if_neg (by omega)]
      · by_cases hlt : cost_v < cost_w
        · rw [if_pos hlt, if_neg (not_lt.mpr hlt.le), hv_id, hleft_id, if_neg (by omega)]
        · have hlt' : cost_w < cost_v := lt_of_le_of_ne (not_lt.mp hlt) heq
          rw [if_neg hlt, if_pos hlt', hw_id, hleft_id, if_pos rfl]
    rw [hlabel, hweight]
    obtain ⟨s', hrun, htrained⟩ := train_run h p (if left < right then -1 else 1) cost_v cost_w
      { s with ec := { s.ec with
          l := { s.ec.l with simple := if left < right then -1 else 1 }, weight := |left - right| } }
    refine ⟨s', ?_, htrained⟩
    rw [if_neg (not_lt.mpr (hbig heq)), hparent]
    show train base p _ cost_v cost_w _ = _
    refine hrun.trans ?_
    rw [hmin, hmax]
    show Ending.returned _ s' = Ending.returned (if c.right p (c.update p _ _ s.weights) then right else left) s'
    -- the cheaper side is the one of the label
    have hcheaper : ∀ chosen : Bool, (if (if chosen then (1 : R) else -1) = (if left < right then -1 else 1)
        then min left right else max left right) = if chosen then right else left := by
      have hone : (-1 : R) ≠ 1 := fun h => by linarith
      intro chosen
      by_cases hlt : left < right
      · rw [if_pos hlt, min_eq_left hlt.le, max_eq_right hlt.le]
        cases chosen
        · simp
        · simp [hone.symm]
      · rw [if_neg hlt, min_eq_right (not_lt.mp hlt), max_eq_left (not_lt.mp hlt)]
        cases chosen
        · simp [hone]
        · simp
    rw [hcheaper]

theorem node_run {S B : Type} {n : Nat} {v : TreeNode} (h : t.nodes[n]? = some v) (f : TreeNode → Call S B) (s : S) :
    (t.node n >>= f) s = f v s := by
  unfold node
  rw [h]
  rfl

omit [IsStrictOrderedRing R] in
/-- Two costs of a walk that differ differ by `cost_star`. -/
theorem Walk.differ (h : Walk cost_star d ab) (hbig : weight_th ≤ |cost_star|) (m n : Nat)
    (hne : CatsTree.return_cost cost_star ab m ≠ CatsTree.return_cost cost_star ab n) :
    weight_th ≤ |CatsTree.return_cost cost_star ab m - CatsTree.return_cost cost_star ab n| := by
  rcases h.return_cost m with hm | hm
  · rcases h.return_cost n with hn | hn
    · exact absurd (hm.trans hn.symm) hne
    · rw [hm, hn, zero_sub, abs_neg]
      exact hbig
  · rcases h.return_cost n with hn | hn
    · rw [hm, hn, sub_zero]
      exact hbig
    · exact absurd (hm.trans hn.symm) hne

/-- One of the nodes of the walk. -/
theorem learn_node_run (h : Agrees base c) (ht : Full t D) (hd : d < D) (hwalk : Walk cost_star (d + 1) ab)
    (hbig : weight_th ≤ |cost_star|) {n_c : NodeCost R} (hle : 2 ^ (d + 1) - 1 ≤ n_c.node_id)
    (hlt : n_c.node_id < 2 ^ (d + 2) - 1) (hcost : return_cost cost_star ab n_c.node_id = n_c.cost) (s : State W R) :
    ∃ s', learn_node t random_draw base cost_star ab n_c s =
        .returned (returned_cost c cost_star ab ((n_c.node_id - 1) / 2) (trained s)) s' ∧
      trained s' = train_parent c cost_star ab ((n_c.node_id - 1) / 2) (trained s) := by
  have hpow' : 2 ^ (d + 2) = 2 * 2 ^ (d + 1) := pow_succ'
  have hpositive : 0 < 2 ^ d := Nat.two_pow_pos d
  have hleaves : 2 ^ (d + 1) ≤ 2 ^ D := Nat.pow_le_pow_right Nat.two_pos hd
  obtain ⟨v, hv, hv_id, hv_parent, -⟩ := ht.node n_c.node_id (by omega)
  obtain ⟨v_parent, hp, -, -, hright, hleft, hchildren⟩ := ht.node ((n_c.node_id - 1) / 2) (by omega)
  obtain ⟨hleft_id, hright_id⟩ := hchildren (by omega)
  unfold learn_node
  rw [node_run hv, hv_parent, node_run hp, hright, hleft]
  -- `v` is the left child or the right one
  rcases (by omega : n_c.node_id = 2 * ((n_c.node_id - 1) / 2) + 1 ∨ n_c.node_id = 2 * ((n_c.node_id - 1) / 2) + 2)
    with hside | hside
  · obtain ⟨w, hw, hw_id, -⟩ := ht.node (2 * ((n_c.node_id - 1) / 2) + 2) (by omega)
    have hsibling : (if v.id = v_parent.left_id then v_parent.right_id else v_parent.left_id) =
        2 * ((n_c.node_id - 1) / 2) + 2 := by
      rw [hv_id, hleft_id, if_pos hside, hright_id]
    unfold get_sibling
    rw [hsibling]
    simp only [Bool.false_eq_true, or_self, if_false]
    rw [node_run hw, hw_id]
    refine parent_cost_run random_draw h hv_parent hleft_id
      (.inl ⟨hv_id.trans hside, hw_id, ?_, rfl⟩) (hwalk.differ hbig _ _) s
    rw [← hside, hcost]
  · obtain ⟨w, hw, hw_id, -⟩ := ht.node (2 * ((n_c.node_id - 1) / 2) + 1) (by omega)
    have hsibling : (if v.id = v_parent.left_id then v_parent.right_id else v_parent.left_id) =
        2 * ((n_c.node_id - 1) / 2) + 1 := by
      rw [hv_id, hleft_id, if_neg (by omega)]
    unfold get_sibling
    rw [hsibling]
    simp only [Bool.false_eq_true, or_self, if_false]
    rw [node_run hw, hw_id]
    refine parent_cost_run random_draw h hv_parent hleft_id
      (.inr ⟨hv_id.trans hside, hw_id, ?_, rfl⟩) (hwalk.differ hbig _ _) s
    rw [← hside, hcost]

/-- A level of the code is a step of the walk. -/
theorem learn_level_run (h : Agrees base c) (ht : Full t D) (hd : d < D) (hwalk : Walk cost_star (d + 1) ab)
    (hbig : weight_th ≤ |cost_star|) (s : State W R) :
    ∃ s', learn_level t random_draw base cost_star ab s = .returned (parents c cost_star ab (trained s)).1 s' ∧
      trained s' = (parents c cost_star ab (trained s)).2 := by
  have hpow' : 2 ^ (d + 2) = 2 * 2 ^ (d + 1) := pow_succ'
  have hleaves : 2 ^ (d + 1) ≤ 2 ^ D := Nat.pow_le_pow_right Nat.two_pos hd
  have hpositive : 0 < 2 ^ (d + 1) := Nat.two_pow_pos (d + 1)
  have hfirst := hwalk.first
  have horder := hwalk.order
  have hlast : ab.2.node_id < 2 ^ (d + 2) - 1 := hwalk.last
  obtain ⟨a, ha, -, ha_parent, -⟩ := ht.node ab.1.node_id (by omega)
  obtain ⟨b, hb, -, hb_parent, -⟩ := ht.node ab.2.node_id (by omega)
  have hcost_a : return_cost cost_star ab ab.1.node_id = ab.1.cost := by
    unfold return_cost
    rw [if_neg (by omega), if_pos rfl]
  obtain ⟨s_a, hrun_a, htrained_a⟩ := learn_node_run random_draw h ht hd hwalk hbig hfirst (by omega) hcost_a s
  unfold learn_level parents
  rw [node_run ha, node_run hb, Call.bind_run, hrun_a, ha_parent, hb_parent]
  dsimp only
  by_cases hsame : (ab.1.node_id - 1) / 2 = (ab.2.node_id - 1) / 2
  · rw [if_pos hsame, if_pos hsame]
    exact ⟨s_a, rfl, htrained_a⟩
  · have hcost_b : return_cost cost_star ab ab.2.node_id = ab.2.cost := by
      unfold return_cost
      rw [if_neg (by omega), if_neg (by intro heq; exact hsame (by rw [heq])), if_neg (by omega), if_pos rfl]
    obtain ⟨s_b, hrun_b, htrained_b⟩ :=
      learn_node_run random_draw h ht hd hwalk hbig (by omega) hlast hcost_b s_a
    rw [if_neg hsame, if_neg hsame, Call.bind_run, hrun_b]
    rw [htrained_a] at htrained_b
    refine ⟨s_b, ?_, htrained_b⟩
    rw [htrained_a]
    rfl

/-- The walk from the leaves to the root, beside the training of all nodes. -/
theorem learn_levels_run (h : Agrees base c) (ht : Full t D) (hbig : weight_th ≤ |cost_star|) {cost : Nat → R}
    (hwalk : Walk cost_star D ab) {f : Training W R}
    (hleaves : ∀ n, 2 ^ D - 1 ≤ n → n < 2 ^ (D + 1) - 1 → cost (f.leaf n) = return_cost cost_star ab n)
    {s : State W R} (hs : trained s = (f.weights, f.updates)) :
    ∃ ab' s', learn_levels t random_draw base cost_star ab s = .returned ab' s' ∧
      trained s' = ((filter_tree c cost D f).weights, (filter_tree c cost D f).updates) := by
  -- after `i` levels
  have hlevels : ∀ i ≤ D, ∃ ab' s',
      (range i).foldlM (fun ab _ => learn_level t random_draw base cost_star ab) ab s = .returned ab' s' ∧
      Walk cost_star (D - i) ab' ∧
      trained s' = ((for_range i (fun f i => filter_level c cost f (D - 1 - i)) f).weights,
        (for_range i (fun f i => filter_level c cost f (D - 1 - i)) f).updates) ∧
      ∀ n, 2 ^ (D - i) - 1 ≤ n → n < 2 ^ (D - i + 1) - 1 →
        cost ((for_range i (fun f i => filter_level c cost f (D - 1 - i)) f).leaf n) =
          return_cost cost_star ab' n := by
    intro i
    induction i with
    | zero => exact fun _ => ⟨ab, s, rfl, hwalk, hs, hleaves⟩
    | succ i ih =>
      intro hi
      obtain ⟨ab', s', hrun, hwalk', htrained, hcost⟩ := ih (by omega)
      obtain ⟨d, hd⟩ : ∃ d, D - i = d + 1 := ⟨D - i - 1, by omega⟩
      rw [hd] at hwalk' hcost
      obtain ⟨s'', hrun', htrained'⟩ := learn_level_run random_draw h ht (by omega) hwalk' hbig s'
      obtain ⟨htraining, hreturned⟩ := filter_level_walks (c := c) hwalk' hcost
      rw [← htrained] at htraining hreturned
      refine ⟨(parents c cost_star ab' (trained s')).1, s'', ?_, ?_, ?_, ?_⟩
      · rw [range_succ, foldlM_append, Call.bind_run, hrun]
        show ((learn_level t random_draw base cost_star ab' >>= fun ab => pure ab) s') = _
        rw [Call.bind_run, hrun']
        rfl
      · rw [show D - (i + 1) = d by omega]
        exact hwalk'.parents _
      · rw [for_range_succ, show D - 1 - i = d by omega, htrained', htraining]
      · rw [for_range_succ, show D - 1 - i = d by omega, show D - (i + 1) = d by omega]
        exact hreturned
  obtain ⟨ab', s', hrun, -, htrained, -⟩ := hlevels D (le_refl D)
  unfold learn_levels
  rw [ht.depth]
  exact ⟨ab', s', hrun, htrained⟩

/-- The walk starts at leaves. -/
theorem leaf_of_full (ht : Full t D) {action : Nat} (hone : 1 ≤ action) (hle : action ≤ 2 ^ D) :
    leaf_of t action = action + (2 ^ D - 1) - 1 := by
  unfold leaf_of internal_node_count
  rw [ht.length, ht.num_leaf_nodes, show 2 ^ (D + 1) - 1 - 2 ^ D = 2 ^ D - 1 by omega]
  exact if_neg (by omega)

/-- Learning makes the updates of the filter tree with the costs of the label at its leaves, in the same order. -/
theorem learn_simulates (h : Agrees base c) (D : Nat) (s : State W R) (first last : CbClass R)
    (hfirst : s.ec.l.cb.costs.head? = some first) (hlast : s.ec.l.cb.costs.getLast? = some last)
    (hone : 1 ≤ first.action) (horder : first.action ≤ last.action) (hle : last.action ≤ 2 ^ D)
    (hbig : 1 / 100000 ≤ |first.cost / first.probability|) :
    ∃ s', learn (build_tree (2 ^ D) 0) random_draw base s = .returned () s' ∧
      s'.weights = (filter_tree c (leaf_costs D (first.cost / first.probability) first.action last.action) D
        ⟨s.weights, learned s.asked, id⟩).weights ∧
      learned s'.asked = (filter_tree c (leaf_costs D (first.cost / first.probability) first.action last.action) D
        ⟨s.weights, learned s.asked, id⟩).updates := by
  have ht := build_tree_full D
  have hleaf_a := leaf_of_full ht hone (by omega)
  have hleaf_b := leaf_of_full ht (show 1 ≤ last.action by omega) hle
  have hinit : init_node_costs (build_tree (2 ^ D) 0) s.ec.l.cb.costs = some (first.cost / first.probability,
      ⟨first.action + (2 ^ D - 1) - 1, first.cost / first.probability⟩,
      ⟨last.action + (2 ^ D - 1) - 1, first.cost / first.probability⟩) := by
    unfold init_node_costs
    rw [hfirst, hlast, ← hleaf_a, ← hleaf_b]
  have hwalk : Walk (first.cost / first.probability) D
      (⟨first.action + (2 ^ D - 1) - 1, first.cost / first.probability⟩,
      ⟨last.action + (2 ^ D - 1) - 1, first.cost / first.probability⟩) :=
    ⟨by dsimp only; omega, by dsimp only; omega, by dsimp only; omega, .inr rfl, .inr rfl⟩
  have hleaves : ∀ n, 2 ^ D - 1 ≤ n → n < 2 ^ (D + 1) - 1 →
      leaf_costs D (first.cost / first.probability) first.action last.action (id n) =
        return_cost (first.cost / first.probability)
          (⟨first.action + (2 ^ D - 1) - 1, first.cost / first.probability⟩,
          ⟨last.action + (2 ^ D - 1) - 1, first.cost / first.probability⟩) n := by
    intro n _ _
    unfold leaf_costs return_cost id
    dsimp only
    split_ifs <;> first | rfl | omega
  obtain ⟨ab', s', hrun, htrained⟩ := (@learn_levels_run _ _ _ _ _ base c) random_draw h ht hbig hwalk
    (f := ⟨s.weights, learned s.asked, id⟩) hleaves
    (s := { s with ec := { s.ec with pred := ⟨0, [], 0, []⟩ } }) rfl
  exact ⟨_, learn_run _ _ _ hinit hrun, congrArg Prod.fst htrained, congrArg Prod.snd htrained⟩

end Code

/-- A learner that sums up its labels at each node, and chooses right where the sum is positive. -/
def sums : Choices (List ℚ) ℚ where
  right n w := decide (0 < w.getD n 0)
  update n label weight w := w.modify n (· + label * weight)

def summing_learner : BaseLearner (List ℚ) ℚ where
  learn n ec w := (⟨⟨0, [], 0, []⟩, 0, 0⟩, sums.update n ec.l.simple ec.weight w)
  predict n _ w := (⟨⟨if sums.right n w then 1 else -1, [], 0, []⟩, 0, 0⟩, w)

/-- An example with cost 1 for the second and the third of four actions. -/
def two_of_four : State (List ℚ) ℚ :=
  ⟨[0, 2, 0], ⟨⟨0, ⟨0, 1⟩, ⟨[⟨1, 2, 1, 0⟩, ⟨1, 3, 1, 0⟩], 1⟩, []⟩, 1, ⟨0, [], 0, []⟩, 0, 0, ⟨1, 0⟩⟩, []⟩

/-- Both nodes of the lower level are trained, and then the root, as the first one still chooses right. -/
theorem learn_simulates_two_of_four :
    ∃ s', learn (build_tree (2 ^ 2) 0) 0 summing_learner two_of_four = .returned () s' ∧
      s'.weights = [1, 1, 1] ∧ learned s'.asked = [(1, -1, 1), (2, 1, 1), (0, 1, 1)] := by
  have hagrees : Agrees summing_learner sums := ⟨fun _ _ _ => rfl, fun _ _ _ => rfl, fun _ _ _ => rfl⟩
  obtain ⟨s', hrun, hweights, hupdates⟩ := learn_simulates 0 hagrees 2 two_of_four ⟨1, 2, 1, 0⟩ ⟨1, 3, 1, 0⟩
    rfl rfl (by decide) (by decide) (by decide) (by norm_num)
  exact ⟨s', hrun, hweights.trans (by decide +kernel), hupdates.trans (by decide +kernel)⟩

end VW.CatsTree
