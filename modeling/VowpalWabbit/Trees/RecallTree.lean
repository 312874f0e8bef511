import Mathlib.Algebra.Order.Field.Rat
import Mathlib.Algebra.BigOperators.Group.List.Basic

/-! # The recall tree

    `recall_tree.cc`, the part that learns. Every node keeps the labels of the examples that
    came through it, the most frequent first, and an example goes down from the root until
    the bound on the recall says that going on does not help.

    Arithmetic is exact; the logarithm, the square root and the base learner are given. Node
    numbers are natural numbers: the `uint32_t` of the source holds those of every tree that
    has a place in memory.
-/

namespace VW.RecallTree

/-! ## Data -/

structure NodePred where
  label : BitVec 32
  label_count : ℚ := 0
  deriving DecidableEq

structure Node where
  parent : Nat := 0
  recall_lbest : ℚ := 0
  internal : Bool := false
  depth : Nat := 0
  base_router : Nat := 0
  left : Nat := 0
  right : Nat := 0
  n : ℚ := 0
  entropy : ℚ := 0
  preds : List NodePred := []

/-- `recall_tree`. -/
structure Tree where
  node_only : Bool
  nodes : List Node := []
  max_candidates : Nat
  max_routers : Nat := 0
  max_depth : Nat
  bern_hyper : ℚ
  randomized_routing : Bool

/-- `b.nodes[cn]`, of a node that exists. -/
def Tree.node (b : Tree) (cn : Nat) : Node := b.nodes.getD cn {}

def Tree.set_node (b : Tree) (cn : Nat) (f : Node → Node) : Tree := { b with nodes := b.nodes.modify cn f }

/-- An example with its features `F` and its multiclass label, which has a weight of its own. -/
structure Example (F : Type) where
  features : F
  label : BitVec 32
  label_weight : ℚ
  weight : ℚ
  weight_nonneg : 0 ≤ weight

/-- `log` and `std::sqrt`. -/
structure Functions where
  log : ℚ → ℚ
  sqrt : ℚ → ℚ

/-- The base learner and the random numbers, with a state `W`. The learner sees the features, those of
    the node and a simple label. -/
structure Environment (F W : Type) where
  learn : F → List (BitVec 64) → ℚ → BitVec 64 → W → W
  predict : F → List (BitVec 64) → BitVec 64 → W → ℚ × W
  get_and_update_random : W → ℚ × W
  mask : BitVec 64
  stride_shift : Nat

/-! ## The tree -/

/-- The part of `init_tree` before the recursion: two new nodes become the children of `root`. -/
def add_children (root depth routers_used : Nat) (nodes : List Node) : List Node :=
  let left_child := nodes.length
  let right_child := nodes.length + 1
  let nodes := (nodes ++ [({} : Node), {}]).modify root fun node =>
    { node with base_router := routers_used, internal := true, left := left_child, right := right_child }
  let nodes := nodes.modify left_child fun node => { node with parent := root, depth := depth }
  nodes.modify right_child fun node => { node with parent := root, depth := depth }

/-- `init_tree(b, root, depth, routers_used)`, where `levels` is `max_depth + 1 - depth`. -/
def init_tree_from : Nat → Nat → Nat → List Node × Nat → List Node × Nat
  | 0, _, _, s => s
  | levels + 1, root, depth, (nodes, routers_used) =>
    let left_child := nodes.length
    let right_child := nodes.length + 1
    init_tree_from levels right_child (depth + 1)
      (init_tree_from levels left_child (depth + 1) (add_children root depth routers_used nodes, routers_used + 1))

def init_tree (b : Tree) : Tree :=
  let s := init_tree_from b.max_depth 0 1 (b.nodes ++ [({} : Node)], 0)
  { b with nodes := s.1, max_routers := s.2 }

/-- The tree that the setup makes of the options. -/
def setup (node_only : Bool) (max_candidates max_depth : Nat) (bern_hyper : ℚ) (randomized_routing : Bool) : Tree :=
  init_tree { node_only, max_candidates, max_depth, bern_hyper, randomized_routing }

/-! ## The statistics of a node -/

/-- `find`: the place of the label, or the end. -/
def find (preds : List NodePred) (label : BitVec 32) : Nat := preds.findIdx fun ls => ls.label = label

def find_or_create (preds : List NodePred) (label : BitVec 32) : List NodePred × Nat :=
  let ls := find preds label
  if ls = preds.length then (preds ++ [{ label := label }], preds.length) else (preds, ls)

def compute_recall_lbest (fn : Functions) (b : Tree) (n : Node) : Node :=
  if n.n ≤ 0 then n
  else
    let mass_at_k := ((n.preds.take b.max_candidates).map NodePred.label_count).sum
    let f := mass_at_k / n.n
    let stdf := fn.sqrt (f * (1 - f) / n.n)
    let diamf := 15 / (fn.sqrt 18 * n.n)
    { n with recall_lbest := max 0 (f - fn.sqrt b.bern_hyper * stdf - b.bern_hyper * diamf) }

def plogp (fn : Functions) (c n : ℚ) : ℚ := if c = 0 then 0 else c / n * fn.log (c / n)

def updated_entropy (fn : Functions) (node : Node) (label : BitVec 32) (weight : ℚ) : ℚ :=
  let c0 := match node.preds[find node.preds label]? with
    | some ls => ls.label_count
    | none => 0
  let deltac0 := weight
  let n := node.n
  let novernp1 := n / (deltac0 + n)
  let lognovernp1 := if novernp1 = 0 then 0 else fn.log novernp1
  let nminusc0overnp1 := (n - c0) / (n + deltac0)
  (node.entropy + plogp fn c0 n) * novernp1 - lognovernp1 * nminusc0overnp1 - plogp fn (c0 + deltac0) (n + deltac0)

/-- The loop that moves the entry at `ls` to the front while the one before it has a smaller count. -/
def bubble : Nat → List NodePred → List NodePred
  | 0, preds => preds
  | ls + 1, preds =>
    match preds[ls]?, preds[ls + 1]? with
    | some before, some this =>
      if before.label_count < this.label_count then bubble ls ((preds.set ls this).set (ls + 1) before) else preds
    | _, _ => preds

/-- `insert_example_at_node`, at this node. -/
def insert_at (fn : Functions) (b : Tree) (label : BitVec 32) (weight : ℚ) (node : Node) : Node :=
  let (preds, ls) := find_or_create node.preds label
  let entropy := updated_entropy fn { node with preds } label weight
  let preds := preds.modify ls fun p => { p with label_count := p.label_count + weight }
  compute_recall_lbest fn b { node with preds := bubble ls preds, entropy, n := node.n + weight }

/-! ## Learning -/

section

variable {F W : Type} (fn : Functions) (env : Environment F W)

def insert_example_at_node (b : Tree) (cn : Nat) (ec : Example F) : Tree :=
  b.set_node cn (insert_at fn b ec.label ec.weight)

/-- The index of a node feature. -/
def node_id_feature (cn : Nat) : BitVec 64 := ((868771#64 * BitVec.ofNat 64 cn) <<< env.stride_shift) &&& env.mask

/-- The loop of `add_node_id_feature`, from the node to the root. -/
def path_features (b : Tree) : Nat → Nat → List (BitVec 64)
  | 0, _ => []
  | fuel + 1, cn => if 0 < cn then node_id_feature env cn :: path_features b fuel (b.node cn).parent else []

/-- `add_node_id_feature`: what the namespace gets. -/
def node_id_features (b : Tree) (cn : Nat) : List (BitVec 64) :=
  if b.node_only then [node_id_feature env cn] else path_features env b b.nodes.length cn

def is_candidate (b : Tree) (cn : Nat) (ec : Example F) : Bool :=
  ((b.node cn).preds.take b.max_candidates).any fun ls => ls.label = ec.label

def descend (n : Node) (prediction : ℚ) : Nat := if prediction < 0 then n.left else n.right

def stop_recurse_check (b : Tree) (parent child : Nat) : Bool :=
  b.bern_hyper > 0 && (b.node parent).recall_lbest ≥ (b.node child).recall_lbest

def to_prob (x : ℚ) : ℚ := max 0 (min (1 / 2 * (1 + 2 * x)) 1)

/-- `train_node`: the router of the node learns where the example lowers the entropy, and predicts. -/
def train_node (b : Tree) (ec : Example F) (cn : Nat) (w : W) : ℚ × W :=
  let left := b.node (b.node cn).left
  let right := b.node (b.node cn).right
  let new_left := updated_entropy fn left ec.label ec.weight
  let new_right := updated_entropy fn right ec.label ec.weight
  let delta_left := left.n * (new_left - left.entropy) + ec.label_weight * new_left
  let delta_right := right.n * (new_right - right.entropy) + ec.label_weight * new_right
  let route_label := if delta_left < delta_right then -1 else 1
  let base_router := BitVec.ofNat 64 (b.node cn).base_router
  env.predict ec.features [] base_router (env.learn ec.features [] route_label base_router w)

/-- The turn at a node, with `randomized_routing` by chance. -/
def which_way (b : Tree) (ec : Example F) (cn : Nat) (w : W) : ℚ × W :=
  let (which, w) := train_node fn env b ec cn w
  if b.randomized_routing then
    let (draw, w) := env.get_and_update_random w
    (if draw > to_prob which then -1 else 1, w)
  else (which, w)

/-- The `while` loop of `learn`, which ends at a leaf or early. `none` is a run out of fuel. -/
def go_down : Nat → Tree → Nat → Example F → W → Option (Tree × Nat × W)
  | 0, _, _, _, _ => none
  | fuel + 1, b, cn, ec, w =>
    if (b.node cn).internal then
      let (which, w) := which_way fn env b ec cn w
      let newcn := descend (b.node cn) which
      let cond := stop_recurse_check b cn newcn
      let b := insert_example_at_node fn b cn ec
      if cond then some (insert_example_at_node fn b newcn ec, cn, w)
      else go_down fuel b newcn ec w
    else some (b, cn, w)

/-- The candidates learn, the label of the example against the others. -/
def learn_candidates (b : Tree) (cn : Nat) (ec : Example F) (w : W) : W :=
  let features := node_id_features env b cn
  let which (label : BitVec 32) : BitVec 64 := BitVec.ofNat 64 b.max_routers + label.zeroExtend 64 - 1
  let w := env.learn ec.features features 1 (which ec.label) w
  ((b.node cn).preds.take b.max_candidates).foldl (fun w ls =>
    if ls.label ≠ ec.label then env.learn ec.features features (-1) (which ls.label) w else w) w

def learn (training : Bool) (b : Tree) (ec : Example F) (w : W) : Option (Tree × W) :=
  if training && ec.label ≠ -1 then do
    let (b, cn, w) ← go_down fn env (b.nodes.length + 1) b 0 ec w
    let b := if !(b.node cn).internal then insert_example_at_node fn b cn ec else b
    let w := if is_candidate b cn ec then learn_candidates env b cn ec w else w
    some (b, w)
  else some (b, w)

/-- The learner is given one example after the other. -/
def learn_all (training : Bool) (b : Tree) (w : W) : List (Example F) → Option (Tree × W)
  | [] => some (b, w)
  | ec :: examples => do
    let (b, w) ← learn fn env training b ec w
    learn_all training b w examples

end

end VW.RecallTree
