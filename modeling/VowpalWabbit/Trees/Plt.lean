import VowpalWabbit.Trees.Example
import Mathlib.Data.Rat.Floor
import Mathlib.Data.Nat.Log

/-! # The probabilistic label tree

    `reductions/plt.cc`. The nodes of the tree are numbered by levels from the root 0, and the
    children of node `n` are the `kary` numbers from `kary * n + 1` on. The last `k` of the `t`
    nodes are the leaves of the labels. The weights of the base learner come with `sd->t`, which
    it shares.

    Prediction with a threshold is a depth-first search, and that of the `top_k` labels a
    best-first search with a heap; both keep their nodes in `node_queue`. Node numbers are those
    of the code as long as they fit, as are the parents, which it computes in single precision.
-/

open Cpp VW.Trees

namespace VW.LabelTree

export Trees (BaseLearner Example FLT_MAX PolyPrediction)

structure Node (R : Type) where
  n : Nat
  p : R

/-- The options and the size of the tree. -/
structure Plt (R : Type) where
  k : Nat
  kary : Nat
  t : Nat
  ti : Nat
  threshold : R
  top_k : Nat
  probabilities : Bool

/-- The rest of `plt`, and the nodes that were ever pushed on `node_queue`. -/
structure PltData (R : Type) where
  nodes_time : List R
  p_at : List R
  r_at : List R
  tp : Nat
  fp : Nat
  fn : Nat
  ec_count : Nat
  queued : List Nat

/-- `std::push_heap` and `std::pop_heap`, and the order that they keep. Which of several
    largest nodes is popped is up to the library. -/
structure Heap (R : Type) [LE R] where
  is_heap : List (Node R) → Prop
  push_heap : List (Node R) → List (Node R)
  pop_heap : List (Node R) → List (Node R)
  nil : is_heap []
  push {queue : List (Node R)} (x : Node R) : is_heap queue →
    is_heap (push_heap (queue ++ [x])) ∧ (push_heap (queue ++ [x])).Perm (queue ++ [x])
  pop {queue : List (Node R)} : is_heap queue → queue ≠ [] → ∃ rest x, pop_heap queue = rest ++ [x] ∧ is_heap rest ∧
    (rest ++ [x]).Perm queue ∧ ∀ y ∈ queue, y.p ≤ x.p

/-- The order in which an `unordered_set` is iterated. -/
structure SetOrder where
  iterate : List Nat → List Nat
  perm (xs : List Nat) : (iterate xs).Perm xs

variable {W R : Type}

/-- The state of the learner. -/
structure PltState (W R : Type) where
  run : State (R × W) R
  data : PltData R

/-- A call that leaves the data of the reduction alone. -/
def on_run {A : Type} (x : Call (State (R × W) R) A) : Call (PltState W R) A := fun s =>
  match x s.run with
  | .returned a run => .returned a { s with run := run }
  | .threw what run => .threw what { s with run := run }
  | .undefined => .undefined

def set_data (f : PltData R → PltData R) : Call (PltState W R) Unit := Call.modify fun s =>
    { s with data := f s.data }

def get_data : Call (PltState W R) (PltData R) := do
  let s ← Call.get
  pure s.data

def set_t (t : R) : Call (State (R × W) R) Unit := Call.modify fun s => { s with weights := (t, s.weights.2) }

/-! ## The size of the tree -/

/-- The number of nodes as `plt_setup` computes it from a power `a` of `kary`. -/
def tree_size (k kary : Nat) (a : ℚ) : ℚ :=
  let b := (k : ℚ) - a
  let c := (⌈b / (kary - 1)⌉ : ℚ)
  let d := (kary * a - 1) / (kary - 1)
  let e := (k : ℚ) - (a - c)
  e + d

/-- The tree with the size that it should have. -/
def plt_tree (k kary top_k : Nat) (threshold : R) (probabilities : Bool) : Plt R :=
  let t := ⌊tree_size k kary (kary ^ Nat.log kary k)⌋₊
  { k := k, kary := kary, t := t, ti := t - k, threshold := threshold, top_k := top_k, probabilities }

/-- `plt_setup`; the conversion of a size that is no `uint32_t` has no defined value. -/
def plt_setup (k kary top_k : Nat) (threshold : R) (probabilities : Bool) : Option (Plt R) :=
  let p := plt_tree k kary top_k threshold probabilities
  if p.t < 2 ^ 32 then some p else none

/-! ## Learning -/

/-- The nodes on the way from a node to the root, without the node. -/
def ancestors (kary : Nat) : Nat → Nat → List Nat
  | 0, _ => []
  | fuel + 1, tn => if 0 < tn then (tn - 1) / kary :: ancestors kary fuel ((tn - 1) / kary) else []

/-- `insert` of an `unordered_set`. -/
def insert (xs : List Nat) (x : Nat) : List Nat := if x ∈ xs then xs else xs ++ [x]

def get_nodes_to_update (p : Plt R) (order : SetOrder) (multilabels : List Nat) : List Nat × List Nat :=
  if multilabels = [] then ([], [0])
  else
    let positive_nodes := multilabels.foldl (fun nodes label =>
      let tn := (label + p.ti) % 2 ^ 32
      if tn < p.t then (tn :: ancestors p.kary tn tn).foldl insert nodes else nodes) []
    let negative_nodes := (order.iterate positive_nodes).foldl (fun nodes n =>
      if n < p.ti then
        ((List.range p.kary).map fun i => p.kary * n + i + 1).foldl (fun nodes n_child =>
          if n_child < p.t ∧ n_child ∉ positive_nodes then insert nodes n_child else nodes) nodes
      else nodes) []
    (order.iterate positive_nodes, order.iterate negative_nodes)

section Learn

variable [Field R] (p : Plt R) (order : SetOrder) (base : BaseLearner (R × W) R)

def learn_node (n : Nat) : Call (PltState W R) R := do
  let data ← get_data
  let ec ← on_run get_ec
  match data.nodes_time[n]? with
  | none => Call.undefined
  | some time => do
    on_run (set_t time)
    set_data fun data => { data with nodes_time := data.nodes_time.set n (time + ec.weight) }
    on_run (base.learns n)
    let ec ← on_run get_ec
    pure ec.loss

/-- The label and the prediction are moved out of the example. -/
def move_out : Call (State (R × W) R) (List Nat × PolyPrediction R) := do
  let ec ← get_ec
  set_ec fun ec => { ec with
    l := { ec.l with multilabels := [] }
    pred := { ec.pred with a_s := [], multilabels := [] } }
  pure (ec.l.multilabels, ec.pred)

/-- A pass over the positive and the negative nodes that adds up the losses. -/
def each_node (visit : Nat → Call (PltState W R) R) (nodes : List Nat × List Nat) : Call (PltState W R) R := do
  on_run (set_simple 1)
  on_run reset_to_default
  let loss ← nodes.1.foldlM (fun loss n => do
    let l ← visit n
    pure (loss + l)) 0
  on_run (set_simple (-1))
  nodes.2.foldlM (fun loss n => do
    let l ← visit n
    pure (loss + l)) loss

def learn : Call (PltState W R) Unit := do
  let (multilabels, pred) ← on_run move_out
  let s ← Call.get
  let t := s.run.weights.1
  let loss ← each_node (learn_node base) (get_nodes_to_update p order multilabels)
  on_run (set_t t)
  on_run (set_ec fun ec => { ec with loss := loss, pred := pred, l := { ec.l with multilabels := multilabels } })

end Learn

/-! ## Prediction -/

section Predict

variable [Field R] [LinearOrder R] (p : Plt R) (order : SetOrder) (sigmoid : R → R) (base : BaseLearner (R × W) R)

/-- The example is made a test example. -/
def set_test : Call (State (R × W) R) Unit := do
  set_simple FLT_MAX
  reset_to_default

def predict_node (n : Nat) : Call (PltState W R) R := do
  on_run set_test
  on_run (base.predicts n)
  let ec ← on_run get_ec
  pure (sigmoid ec.partial_prediction)

def evaluate_node (n : Nat) : Call (PltState W R) R := do
  on_run (base.predicts n)
  let ec ← on_run get_ec
  pure ec.loss

/-- A round of `multipredict`. -/
def multipredict_one (lo : Nat) (node_pred : List R) (c : Nat) : Call (State (R × W) R) (List R) := do
  base.predicts (lo + c)
  let ec ← get_ec
  pure (node_pred ++ [ec.partial_prediction])

/-- `base.multipredict`, without finalizing. -/
def multipredict (lo count : Nat) : Call (State (R × W) R) (List R) :=
  (List.range count).foldlM (multipredict_one base lo) []

/-- The children of a node, with their probabilities. -/
def predict_children (node : Node R) : Call (PltState W R) (List (Node R)) := do
  let n_child := p.kary * node.n + 1
  on_run set_test
  let node_pred ← on_run (multipredict base n_child p.kary)
  pure (node_pred.mapIdx fun i score => ⟨n_child + i, node.p * sigmoid score⟩)

/-- A label is predicted. -/
def push_label (pred : PolyPrediction R) (l : Nat) (cp : R) : PolyPrediction R :=
  { pred with
    a_s := if p.probabilities then pred.a_s ++ [(l, cp)] else pred.a_s
    multilabels := pred.multilabels ++ [l] }

def push_back (node_queue : List (Node R)) (node : Node R) : Call (PltState W R) (List (Node R)) := do
  set_data fun data => { data with queued := data.queued ++ [node.n] }
  pure (node_queue ++ [node])

/-- A child that is above the threshold is gone into, or its label is predicted. -/
def visit_child (s : List (Node R) × PolyPrediction R) (child : Node R) :
    Call (PltState W R) (List (Node R) × PolyPrediction R) :=
  if p.threshold < child.p then
    if child.n < p.ti then do
      let node_queue ← push_back s.1 child
      pure (node_queue, s.2)
    else pure (s.1, push_label p s.2 (child.n - p.ti) child.p)
  else pure s

/-- The loop of the prediction with a threshold. -/
def search : Nat → List (Node R) × PolyPrediction R → Call (PltState W R) (PolyPrediction R)
  | 0, _ => Call.undefined
  | fuel + 1, (node_queue, pred) =>
    match node_queue.getLast? with
    | none => pure pred
    | some node => do
      let children ← predict_children p sigmoid base node
      let s ← children.foldlM (visit_child p) (node_queue.dropLast, pred)
      search fuel s

/-- The root is gone into if it is above the threshold. -/
def push_root (cp_root : R) : Call (PltState W R) (List (Node R)) :=
  if p.threshold < cp_root then push_back [] ⟨0, cp_root⟩ else pure []

/-- The evaluation measures of the prediction with a threshold. -/
def evaluate_threshold (pred : PolyPrediction R) (true_labels : List Nat) : Call (PltState W R) Unit :=
  if true_labels = [] then pure ()
  else
    let tp := (pred.multilabels.filter fun l => l ∈ true_labels).length
    set_data fun data => { data with
      tp := data.tp + tp
      fp := data.fp + (pred.multilabels.length - tp)
      fn := data.fn + (true_labels.length - tp) }

/-- The prediction with a threshold. -/
def predict_threshold (fuel : Nat) (pred : PolyPrediction R) (true_labels : List Nat) :
    Call (PltState W R) (PolyPrediction R) := do
  let cp_root ← predict_node sigmoid base 0
  let node_queue ← push_root p cp_root
  let pred ← search p sigmoid base fuel (node_queue, pred)
  evaluate_threshold pred true_labels
  pure pred

variable (heap : Heap R)

/-- `push_back` and `push_heap`. -/
def push_node (node_queue : List (Node R)) (node : Node R) : Call (PltState W R) (List (Node R)) := do
  let node_queue ← push_back node_queue node
  pure (heap.push_heap node_queue)

/-- The loop of the prediction of the `top_k` labels. -/
def search_best : Nat → List (Node R) → PolyPrediction R → Call (PltState W R) (PolyPrediction R)
  | 0, _, _ => Call.undefined
  | fuel + 1, node_queue, pred =>
    if node_queue = [] then pure pred
    else
      let node_queue := heap.pop_heap node_queue
      match node_queue.getLast? with
      | none => Call.undefined
      | some node =>
        if node.n < p.ti then do
          let children ← predict_children p sigmoid base node
          let node_queue ← children.foldlM (push_node heap) node_queue.dropLast
          search_best fuel node_queue pred
        else
          let pred := push_label p pred (node.n - p.ti) node.p
          if p.top_k ≤ pred.multilabels.length then pure pred else search_best fuel node_queue.dropLast pred

/-- Precision and recall at `i + 1`. -/
def evaluate_at (pred : PolyPrediction R) (true_labels : List Nat) (tp_at : R) (i : Nat) : Call (PltState W R) R :=
  match pred.multilabels[i]? with
  | none => Call.undefined
  | some pred_label => do
    let tp_at := if pred_label ∈ true_labels then tp_at + 1 else tp_at
    set_data fun data => { data with
      p_at := data.p_at.modify i (· + tp_at / (i + 1))
      r_at := data.r_at.modify i (· + tp_at / true_labels.length) }
    pure tp_at

/-- Precision and recall of the prediction of the `top_k` labels. -/
def evaluate_top_k (pred : PolyPrediction R) (true_labels : List Nat) : Call (PltState W R) Unit :=
  if true_labels = [] then pure ()
  else do
    let _ ← (List.range p.top_k).foldlM (evaluate_at pred true_labels) 0
    pure ()

/-- The prediction of the `top_k` labels. -/
def predict_top_k (fuel : Nat) (pred : PolyPrediction R) (true_labels : List Nat) :
    Call (PltState W R) (PolyPrediction R) := do
  let cp_root ← predict_node sigmoid base 0
  let node_queue ← push_node heap [] ⟨0, cp_root⟩
  let pred ← search_best p sigmoid base heap fuel node_queue pred
  evaluate_top_k p pred true_labels
  pure pred

/-- The loss on true labels. -/
def evaluate_loss (multilabels : List Nat) : Call (PltState W R) R :=
  if multilabels = [] then pure 0
  else each_node (evaluate_node base) (get_nodes_to_update p order multilabels)

/-- The labels of the example that the tree has. -/
def true_labels (multilabels : List Nat) : List Nat := (multilabels.filter (· < p.k)).dedup

/-- `predict<threshold>`. -/
def predict_labels (fuel : Nat) (pred : PolyPrediction R) (true_labels : List Nat) :
    Call (PltState W R) (PolyPrediction R) :=
  if 0 < p.top_k then predict_top_k p sigmoid base heap fuel pred true_labels
  else predict_threshold p sigmoid base fuel pred true_labels

def predict (fuel : Nat) : Call (PltState W R) Unit := do
  let (multilabels, pred) ← on_run move_out
  let loss ← evaluate_loss p order base multilabels
  on_run (set_ec fun ec => { ec with loss := loss })
  let pred := { pred with a_s := if p.probabilities then [] else pred.a_s, multilabels := [] }
  let pred ← predict_labels p sigmoid base heap fuel pred (true_labels p multilabels)
  set_data fun data => { data with ec_count := data.ec_count + 1 }
  on_run (set_ec fun ec => { ec with pred := pred, l := { ec.l with multilabels := multilabels } })

end Predict

end VW.LabelTree
