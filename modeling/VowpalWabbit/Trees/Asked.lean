import VowpalWabbit.Trees.FilterTree
import VowpalWabbit.Trees.OffsetPaths

/-! # The nodes that learning asks about

    Learning walks up from the leaves of the label, and asks the base learner about inner nodes on
    the way. The walk of the offset tree ends at the root, which is its own parent. That of the CATS
    tree has as many rounds as the tree has levels: from a leaf above the lowest level it arrives
    early, and looks for a sibling of the root.
-/

open Cpp VW.Trees

namespace VW.Trees

open List

variable {W R : Type}

/-- What the base learner was asked: whether to learn, and for which model. -/
def State.asks (s : State W R) : List (Bool × Nat) := s.asked.map fun q => (q.learns, q.index)

/-- A visit of a node: it is trained, then asked for a prediction. -/
def visit (p : Nat) : List (Bool × Nat) := [(true, p), (false, p)]

/-- The questions so far. -/
def Asking (log : List (Bool × Nat)) (s : State W R) : Prop := s.asks = log

theorem learns_asking {base : BaseLearner W R} {log : List (Bool × Nat)} {T : State W R → Prop}
    (i : Nat) :
    (base.learns i).Finishes (Asking log) (fun _ => Asking (log ++ [(true, i)])) T := by
  refine .modify fun s hs => ?_
  rw [Asking, State.asks] at hs
  rw [Asking, State.asks, State.answered, map_append, hs]
  rfl

theorem predicts_asking {base : BaseLearner W R} {log : List (Bool × Nat)} {T : State W R → Prop}
    (i : Nat) :
    (base.predicts i).Finishes (Asking log) (fun _ => Asking (log ++ [(false, i)])) T := by
  refine .modify fun s hs => ?_
  rw [Asking, State.asks] at hs
  rw [Asking, State.asks, State.answered, map_append, hs]
  rfl

variable {ps : List Nat}

theorem mem_flatMap_visit {q : Bool × Nat} : q ∈ ps.flatMap visit ↔ q.2 ∈ ps := by
  obtain ⟨learns, p⟩ := q
  cases learns <;> simp [visit]

/-- Nodes that are visited once are asked once to learn and once to predict. -/
theorem nodup_flatMap_visit : (ps.flatMap visit).Nodup ↔ ps.Nodup := by
  induction ps with
  | nil => simp
  | cons p ps ih =>
    rw [flatMap_cons, nodup_append, ih, nodup_cons]
    constructor
    · intro ⟨_, hnodup, hne⟩
      refine ⟨fun hmem => ?_, hnodup⟩
      exact hne (true, p) mem_cons_self (true, p) (mem_flatMap_visit.mpr hmem) rfl
    · intro ⟨hnot, hnodup⟩
      refine ⟨by simp [visit], hnodup, fun a ha b hb heq => hnot ?_⟩
      subst heq
      have hp : a.2 = p := by
        rcases mem_cons.mp ha with rfl | ha
        · rfl
        · rw [mem_singleton.mp ha]
      rw [← hp]
      exact mem_flatMap_visit.mp hb

end VW.Trees

variable {action : Nat}

namespace VW.OffsetTree

open List

section Asked

variable {W R : Type} [Field R] {k : Nat} {t : MinDepthBinaryTree} {base : BaseLearner W R}

theorem learn_node_asking (hbase : TwoScores base) {node : TreeNode} {local_action : Nat}
    (hlocal : local_action ≤ 2)
    (log : List (Bool × Nat)) :
    (learn_node t base node local_action).Finishes (Asking log)
      (fun _ => Asking (log ++ visit (t.model node.id)))
      fun _ => False := by
  have hpredicts := @predicts_asking _ _ base (log ++ [(true, t.model node.id)]) (fun _ => False)
    (t.model node.id)
  rw [append_assoc] at hpredicts
  exact learn_node_finishes hbase hlocal (P := Asking log) (Q := Asking log) (fun _ hs => hs)
    (learns_asking _)
    hpredicts fun _ _ hs => hs

/-- Learning returns, after a visit of every inner node of the path, in order. -/
theorem learn_action_asks (h : Complete k t) (hk : 2 ≤ k) (hk32 : k < 2 ^ 32)
    (hbase : TwoScores base) {fuel : Nat}
    (hfuel : t.nodes.length < fuel) {s : State W R} {cost : CbClass R}
      (hcost : s.ec.l.cb.costs.head? = some cost)
    (hle : cost.action ≤ k) {path : List (Nat × Bool)}
    (hpath : Paired.Path k t.root_idx t.left t.right (cost.action - 1) path) :
    ∃ s', learn_action t base fuel s = .returned () s' ∧
      s'.asks = s.asks ++ (path.map fun step => step.1 - k).flatMap visit := by
  have hlength := h.length
  have hroot := h.root
  obtain ⟨node, hget, -⟩ := h.get (n := cost.action - 1) (by omega) (by omega)
  rw [flatMap_map]
  have hrun : (ascend t base fuel node).Finishes (Asking s.asks)
      (fun _ => Asking (s.asks ++ path.flatMap fun step => visit (step.1 - k))) fun _ => False := by
    refine ascend_along h (by omega) (fun log node step hid hinner hle => ?_) hget (by omega)
      (by omega) hpath s.asks
    have hvisit : (learn_node t base node (if step.2 then 1 else 2)).Finishes (Asking log)
        (fun _ => Asking (log ++ visit (t.model node.id))) fun _ => False :=
      learn_node_asking hbase (by split <;> omega) log
    rwa [hid, h.model hk32 hinner hle] at hvisit
  obtain ⟨_, s', hend, hasks⟩ := hrun.returns (s := s) rfl
  refine ⟨{ s' with ec := { s'.ec with
    l := { s'.ec.l with cb := { s'.ec.l.cb with
      costs := s'.ec.l.cb.costs.modify 0 fun c => { c with action := cost.action } } }
    weight := s.ec.weight } }, ?_, hasks⟩
  exact learn_action_run hcost hget hend

/-- Learning on an action asks only models of ancestors of its leaf, once to learn and once to
    predict. -/
def AsksAncestors (R : Type) [Field R] (k action : Nat) : Prop :=
  ∀ t, build_tree k k = some t → ∀ (W : Type) (base : BaseLearner W R), TwoScores base →
    ∀ (fuel : Nat),
    t.nodes.length < fuel → ∀ (s : State W R) (cost : CbClass R), s.ec.l.cb.costs.head? =
      some cost → cost.action = action →
      ∃ s' new, learn_action t base fuel s = .returned () s' ∧ s'.asks = s.asks ++ new ∧ new.Nodup ∧
        ∀ q ∈ new, q.2 < t.internal_node_count ∧ t.Ancestor k (action - 1) (q.2 + k)

theorem asksAncestors_of_two (hk : 2 ≤ k) (hk32 : k < 2 ^ 32) (hle : action ≤ k) :
    AsksAncestors R k action := by
  intro t ht W base hbase fuel hfuel s cost hcost haction
  subst haction
  have h := build_tree_complete (by omega) (Nat.le_refl k) ht
  have hlength := h.length
  have hroot := h.root
  have hcount : t.internal_node_count = k - 1 := by
    rw [MinDepthBinaryTree.internal_node_count, h.built.num_leaf_nodes]
    omega
  obtain ⟨path, hpath⟩ := h.tree.exists_path (n := cost.action - 1) (by omega)
  obtain ⟨hascending, hinner⟩ := hpath.ascending h.tree
  obtain ⟨s', hrun, hasks⟩ := learn_action_asks h hk hk32 hbase hfuel hcost hle hpath
  refine ⟨s', _, hrun, hasks, ?_, fun q hq => ?_⟩
  · -- the path climbs, so that no model comes twice
    rw [nodup_flatMap_visit]
    have hclimb := (pairwise_cons.mp hascending).2
    rw [pairwise_map] at hclimb
    rw [List.Nodup, pairwise_map]
    refine hclimb.imp_of_mem fun {a b} ha hb hlt heq => ?_
    have hka := (hinner a ha).1
    have hkb := (hinner b hb).1
    omega
  · obtain ⟨step, hstep, hq⟩ := mem_map.mp (mem_flatMap_visit.mp hq)
    obtain ⟨hk, hle⟩ := hinner step hstep
    rw [← hq, Nat.sub_add_cancel hk, hcount]
    exact ⟨by omega, (hpath.mem_iff h.tree step.1).mp (mem_map_of_mem hstep)⟩

/-- With one action the root has no model, and its number wraps around. -/
theorem not_asksAncestors_one (haction : action = 1) : ¬ AsksAncestors R 1 action := by
  subst haction
  intro hall
  let base : BaseLearner Unit R :=
    ⟨fun _ _ w => (⟨⟨0, [(0, 0), (0, 0)], 0, []⟩, 0, 0⟩, w),
      fun _ _ w => (⟨⟨0, [(0, 0), (0, 0)], 0, []⟩, 0, 0⟩, w)⟩
  obtain ⟨s', new, hrun, hasks, -, hnew⟩ := hall ⟨[⟨0, 0, 0, 0, true⟩], 1, 0⟩ rfl Unit base
    (fun _ _ _ => Nat.le_refl 2) 2
    (by decide) ⟨(), ⟨⟨0, ⟨0, 1⟩, ⟨[⟨1, 1, 1, 0⟩], 1⟩, []⟩, 1, ⟨0, [], 0, []⟩, 0, 0, ⟨1, 0⟩⟩, []⟩
      ⟨1, 1, 1, 0⟩ rfl rfl
  have hs' : s'.asks = visit (2 ^ 32 - 1) := by
    have hend : Ending.returned () _ = Ending.returned () s' := hrun
    rw [← (Ending.returned.inj hend).2]
    rfl
  have hmem : (true, 2 ^ 32 - 1) ∈ new := by
    rw [hs'] at hasks
    rw [show new = visit (2 ^ 32 - 1) from hasks.symm]
    exact mem_cons_self
  exact absurd (hnew _ hmem).1 (by decide)

end Asked

end VW.OffsetTree

namespace VW.CatsTree

open List Function

/-! ## The nodes of a tree with any number of leaves -/

/-- The parent, by the numbers. -/
def up (n : Nat) : Nat := (n - 1) / 2

/-- Which nodes go to one side only. -/
structure Sided (num_leaf_nodes bandwidth n : Nat) (node : TreeNode) : Prop where
  root : n = 0 → node.right_only = false ∧ node.left_only = false
  inner : 0 < n → node.right_only = right_only num_leaf_nodes bandwidth n ∧ node.left_only =
    left_only num_leaf_nodes bandwidth n

/-- The nodes, by their numbers. -/
structure Numbered (K bandwidth : Nat) (t : MinDepthBinaryTree) : Prop where
  length : t.nodes.length = 2 * K - 1
  num_leaf_nodes : t.num_leaf_nodes = K
  depth_le : 2 ^ t.depth ≤ 2 * K - 1
  lt_depth : 2 * K - 1 < 2 ^ (t.depth + 1)
  node : ∀ n < 2 * K - 1, ∃ v, t.nodes[n]? = some v ∧ v.id = n ∧ v.parent_id = up n ∧
    (n < K - 1 → v.left_id = 2 * n + 1 ∧ v.right_id = 2 * n + 2 ∧ v.is_leaf = false) ∧
      (K - 1 ≤ n → v.is_leaf = true) ∧
    Sided K bandwidth n v

theorem build_tree_numbered {K bandwidth : Nat} (hK : 1 ≤ K) :
    Numbered K bandwidth (build_tree K bandwidth) := by
  obtain ⟨depth_const, hgrown⟩ := @build_tree_grown K bandwidth hK
  have hlength := hgrown.length
  have hdepth_le := hgrown.depth_le
  have hlt_depth := hgrown.lt_depth
  dsimp only at hlength hdepth_le hlt_depth
  have hsided := (@build_tree_nodes K bandwidth (Sided K bandwidth)) hK
    ⟨fun _ => ⟨rfl, rfl⟩, fun h => absurd h (Nat.lt_irrefl 0)⟩ (fun h => ⟨h.root, h.inner⟩)
    fun hn _ _ => ⟨fun h => absurd h (by omega), fun _ => ⟨rfl, rfl⟩⟩
  refine ⟨by omega, ?_, by omega, by omega, fun n hn => ?_⟩
  · unfold build_tree
    rw [if_neg (by omega)]
  · obtain ⟨v, hv⟩ : ∃ v, (build_tree K bandwidth).nodes[n]? = some v :=
      ⟨_, getElem?_eq_getElem (by omega)⟩
    have hplaced := hgrown.nodes n v hv
    exact ⟨v, hv, hplaced.id, hplaced.parent_id, hplaced.children, hplaced.leaf, hsided n v hv⟩

/-- The proper ancestors of a node. -/
def MinDepthBinaryTree.Ancestor (t : MinDepthBinaryTree) : Nat → Nat → Prop :=
  Relation.TransGen fun child node =>
    ∃ v, t.nodes[node]? = some v ∧ v.is_leaf = false ∧ (v.left_id = child ∨ v.right_id = child)

variable {i : Nat}

section Climb

variable {K bandwidth n : Nat} {t : MinDepthBinaryTree}

theorem up_le (n : Nat) : up n ≤ n := by
  unfold up
  omega

theorem up_iterate_le (n i : Nat) : up^[i] n ≤ n := by
  induction i generalizing n with
  | zero => exact Nat.le_refl n
  | succ i ih =>
    rw [iterate_succ_apply]
    exact Nat.le_trans (ih (up n)) (up_le n)

/-- The parent of another node than the root is above it. -/
theorem Numbered.ancestor_up (h : Numbered K bandwidth t) (hn : n < 2 * K - 1) (hpositive : 0 < n) :
    t.Ancestor n (up n) := by
  obtain ⟨v, hv, -, -, hchildren, -⟩ := h.node (up n) (by have := up_le n; omega)
  obtain ⟨hleft, hright, hinner⟩ := hchildren (by unfold up; omega)
  refine .single ⟨v, hv, hinner, ?_⟩
  rw [hleft, hright]
  unfold up
  omega

theorem Numbered.ancestor_iterate (h : Numbered K bandwidth t) (hn : n < 2 * K - 1)
    (hpositive : 0 < up^[i] n) : t.Ancestor n (up^[i + 1] n) := by
  induction i generalizing n with
  | zero => exact h.ancestor_up hn hpositive
  | succ i ih =>
    have hle := up_le n
    rw [iterate_succ_apply] at hpositive ⊢
    have hn_positive : 0 < n := by
      rcases Nat.eq_zero_or_pos n with rfl | hn_positive
      · have hle := up_iterate_le (up 0) i
        rw [show up 0 = 0 from rfl] at hle hpositive
        omega
      · exact hn_positive
    exact .trans (h.ancestor_up hn hn_positive) (ih (by omega) hpositive)

/-- The depth falls by one with each step. -/
theorem up_iterate_range {d i : Nat} (hi : i ≤ d) (hlow : 2 ^ d ≤ n + 1)
    (hhigh : n + 1 < 2 ^ (d + 1)) :
    2 ^ (d - i) ≤ up^[i] n + 1 ∧ up^[i] n + 1 < 2 ^ (d - i + 1) := by
  induction i generalizing n d with
  | zero => exact ⟨hlow, hhigh⟩
  | succ i ih =>
    obtain ⟨d, rfl⟩ : ∃ e, d = e + 1 := ⟨d - 1, by omega⟩
    rw [iterate_succ_apply, show d + 1 - (i + 1) = d - i by omega]
    refine ih (by omega) ?_ ?_ <;> unfold up <;> omega

end Climb

/-! ## What a round asks -/

section Rounds

variable {W R : Type} [Field R] [LinearOrder R] {K bandwidth : Nat} {t : MinDepthBinaryTree}
  (random_draw : R)
  (base : BaseLearner W R) {log : List (Bool × Nat)}

/-- Some of these nodes were visited, in this order. -/
def Visiting (log : List (Bool × Nat)) (nodes : List Nat) (s : State W R) : Prop :=
  ∃ ps : List Nat, ps.Sublist nodes ∧ Asking (log ++ ps.flatMap visit) s

/-- A part of a round asks nothing or visits a node. -/
theorem train_asks (p : Nat) (local_action cost_v cost_w : R) :
    (train base p local_action cost_v cost_w).Finishes (Asking log)
      (fun _ => Asking (log ++ visit p)) fun _ => False := by
  unfold train
  refine (learns_asking p).bind fun _ => (predicts_asking p).bind fun _ => ?_
  rw [append_assoc]
  exact .bind (F := fun _ => Asking (log ++ visit p)) (fun _ hs => hs) fun _ =>
    .pure fun _ hs => hs

theorem parent_cost_asks (v w v_parent : TreeNode) (cost_v cost_w : R) :
    (parent_cost random_draw base v w v_parent cost_v cost_w).Finishes (Asking log)
      (fun _ s => Asking log s ∨ Asking (log ++ visit v.parent_id) s) fun _ => False := by
  have htrain := @train_asks _ _ _ _ base log v.parent_id
  unfold parent_cost
  split
  · exact .pure fun _ hs => .inl hs
  · refine .bind (F := fun _ => Asking log) (fun _ hs => hs) fun _ => ?_
    refine .bind (F := fun _ => Asking log) (fun _ hs => hs) fun _ => ?_
    split
    · split
      · refine .bind (F := fun _ => Asking log) (fun _ hs => hs) fun _ => ?_
        exact (htrain _ _ _).mono (fun _ h => h) (fun _ _ h => .inr h) fun _ h => h
      · exact .pure fun _ hs => .inl hs
    · exact (htrain _ _ _).mono (fun _ h => h) (fun _ _ h => .inr h) fun _ h => h

variable {ab : NodeCosts R} {cost_star : R}

theorem learn_node_asks (h : Numbered K bandwidth t) (hK : 2 ≤ K) {n_c : NodeCost R}
    (hn : n_c.node_id < 2 * K - 1) :
    (learn_node t random_draw base cost_star ab n_c).Finishes (Asking log)
      (fun _ s => Asking log s ∨ Asking (log ++ visit (up n_c.node_id)) s) fun _ => False := by
  obtain ⟨v, hv, -, hparent, -⟩ := h.node n_c.node_id hn
  obtain ⟨v_parent, hp, -, -, hchildren, -⟩ :=
    h.node (up n_c.node_id) (by have := up_le n_c.node_id; omega)
  obtain ⟨hleft, hright, -⟩ := hchildren (by unfold up; omega)
  intro s hs
  unfold learn_node
  rw [node_run hv, hparent, node_run hp]
  split
  · exact .inl hs
  · obtain ⟨w, hw⟩ : ∃ w,
      t.nodes[if v.id = v_parent.left_id then v_parent.right_id else v_parent.left_id]? =
      some w := by
      refine ⟨_, getElem?_eq_getElem ?_⟩
      rw [h.length, hleft, hright]
      unfold up
      split <;> omega
    unfold MinDepthBinaryTree.get_sibling
    rw [node_run hw, ← hparent]
    exact parent_cost_asks random_draw base v w v_parent _ _ s hs

/-- The parents of a level: one if the two nodes have the same. -/
def parents_at (a b : Nat) : List Nat := if up a = up b then [up a] else [up a, up b]

/-- A round goes to the parents, and visits some of them. -/
theorem learn_level_asks (h : Numbered K bandwidth t) (hK : 2 ≤ K) (ha : ab.1.node_id < 2 * K - 1)
    (hb : ab.2.node_id < 2 * K - 1) :
    (learn_level t random_draw base cost_star ab).Finishes (Asking log)
      (fun ab' s => ab'.1.node_id = up ab.1.node_id ∧ ab'.2.node_id = up ab.2.node_id ∧
        Visiting log (parents_at ab.1.node_id ab.2.node_id) s) fun _ => False := by
  obtain ⟨a, hget_a, -, hparent_a, -⟩ := h.node _ ha
  obtain ⟨b, hget_b, -, hparent_b, -⟩ := h.node _ hb
  -- what was asked for the first node, as a list of at most one node
  have hfirst : (learn_node t random_draw base cost_star ab ab.1).Finishes (Asking log)
      (fun _ s => Visiting log [up ab.1.node_id] s) fun _ => False :=
    (learn_node_asks random_draw base h hK ha).mono (fun _ h => h) (fun _ s hs => hs.elim
      (fun hs => ⟨[], nil_sublist _, by simpa using hs⟩)
      fun hs => ⟨[up ab.1.node_id], List.Sublist.refl _, by simpa using hs⟩) fun _ h => h
  intro s hs
  unfold learn_level parents_at
  rw [node_run hget_a, node_run hget_b, hparent_a, hparent_b]
  refine hfirst.bind (fun a_parent_cost => ?_) s hs
  by_cases hsame : up ab.1.node_id = up ab.2.node_id
  · rw [if_pos hsame, if_pos hsame]
    exact .pure fun s hs => ⟨rfl, rfl, hs⟩
  · rw [if_neg hsame, if_neg hsame]
    intro s₁ ⟨ps, hps, hs₁⟩
    refine (learn_node_asks random_draw base h hK hb).bind (fun b_parent_cost => ?_) s₁ hs₁
    refine .pure fun s₂ hs₂ => ⟨rfl, rfl, ?_⟩
    rcases hs₂ with hs₂ | hs₂
    · exact ⟨ps, hps.trans (by simp), hs₂⟩
    · refine ⟨ps ++ [up ab.2.node_id], hps.append (List.Sublist.refl _), ?_⟩
      simpa [append_assoc] using hs₂

/-- The first `i` rounds. -/
def rounds (t : MinDepthBinaryTree) (cost_star : R) (i : Nat) (ab : NodeCosts R) :
    Call (State W R) (NodeCosts R) :=
  (range i).foldlM (fun ab _ => learn_level t random_draw base cost_star ab) ab

theorem rounds_succ :
    rounds random_draw base t cost_star (i + 1) ab =
      rounds random_draw base t cost_star i ab >>= fun ab =>
        learn_level t random_draw base cost_star ab := by
  rw [rounds, range_succ, foldlM_append]
  simp only [foldlM_cons, foldlM_nil, bind_pure]
  rfl

/-- The parents that the first `i` rounds meet. -/
def met (a b i : Nat) : List Nat := (List.range i).flatMap fun j => parents_at (up^[j] a) (up^[j] b)

theorem rounds_ask (h : Numbered K bandwidth t) {cost_star : R} {ab : NodeCosts R}
    (ha : ab.1.node_id < 2 * K - 1) (hb : ab.2.node_id < 2 * K - 1) {i : Nat} (hK : 0 < i → 2 ≤ K) :
    (rounds random_draw base t cost_star i ab).Finishes (Asking log)
      (fun ab' s => ab'.1.node_id = up^[i] ab.1.node_id ∧ ab'.2.node_id = up^[i] ab.2.node_id ∧
        Visiting log (met ab.1.node_id ab.2.node_id i) s) fun _ => False := by
  refine (Call.Finishes.foldlM_range (I := fun i ab' s => ab'.1.node_id = up^[i] ab.1.node_id ∧
    ab'.2.node_id = up^[i] ab.2.node_id ∧ Visiting log (met ab.1.node_id ab.2.node_id i) s)
      (fun i hi ab' => ?_) ab).mono (fun s hs => ⟨rfl, rfl, [], ?_, ?_⟩) (fun _ _ h => h)
    fun _ h => h
  · intro s ⟨hab₁, hab₂, ps, hps, hs⟩
    have hle₁ := up_iterate_le ab.1.node_id i
    have hle₂ := up_iterate_le ab.2.node_id i
    refine (learn_level_asks random_draw base h (hK (by omega)) (by omega) (by omega)).mono
      (fun _ h => h)
      (fun ab'' s' hs' => ?_) (fun _ h => h) s hs
    obtain ⟨hab₁', hab₂', ps', hps', hs'⟩ := hs'
    rw [hab₁, hab₂] at hps'
    refine ⟨?_, ?_, ps ++ ps', ?_, ?_⟩
    · rw [hab₁', hab₁, iterate_succ_apply']
    · rw [hab₂', hab₂, iterate_succ_apply']
    · rw [met, range_succ, flatMap_append]
      exact hps.append (by simpa using hps')
    · rw [flatMap_append, ← append_assoc]
      exact hs'
  · exact nil_sublist _
  · simpa using hs

end Rounds

/-! ## Which nodes are met -/

theorem mem_met {a b x : Nat} : x ∈ met a b i ↔ ∃ j < i, x = up^[j + 1] a ∨ x = up^[j + 1] b := by
  simp only [met, mem_flatMap, mem_range, parents_at, iterate_succ_apply']
  constructor
  · rintro ⟨j, hj, hx⟩
    split at hx
    · exact ⟨j, hj, .inl (mem_singleton.mp hx)⟩
    · exact ⟨j, hj, by simpa using hx⟩
  · rintro ⟨j, hj, hx⟩
    refine ⟨j, hj, ?_⟩
    split
    · next hsame => rcases hx with hx | hx <;> simp [hx, hsame]
    · simpa using hx

/-- From two leaves of the same level no node is met twice. -/
theorem met_nodup {a b d : Nat} (ha : 2 ^ d ≤ a + 1) (ha' : a + 1 < 2 ^ (d + 1))
    (hb : 2 ^ d ≤ b + 1)
    (hb' : b + 1 < 2 ^ (d + 1)) : (met a b d).Nodup := by
  have hrange : ∀ j < d, ∀ x ∈ parents_at (up^[j] a) (up^[j] b), 2 ^ (d - (j + 1)) ≤ x + 1 ∧ x + 1 <
    2 ^ (d - j) := by
    intro j hj x hx
    have hx' : x ∈ met a b (j + 1) := mem_flatMap.mpr ⟨j, mem_range.mpr (Nat.lt_succ_self j), hx⟩
    have heither : x = up^[j + 1] a ∨ x = up^[j + 1] b := by
      unfold parents_at at hx
      rw [iterate_succ_apply', iterate_succ_apply']
      split at hx
      · exact .inl (mem_singleton.mp hx)
      · simpa using hx
    rw [show d - j = d - (j + 1) + 1 by omega]
    rcases heither with rfl | rfl
    · exact up_iterate_range (by omega) ha ha'
    · exact up_iterate_range (by omega) hb hb'
  rw [met, nodup_flatMap]
  refine ⟨fun j _ => ?_, ?_⟩
  · unfold parents_at
    split
    · exact nodup_singleton _
    · simpa
  · refine pairwise_lt_range.imp_of_mem fun {j j'} hj hj' hlt x hx hx' => ?_
    rw [mem_range] at hj hj'
    have hlow := (hrange j hj x hx).1
    have hhigh := (hrange j' hj' x hx').2
    have hpow : 2 ^ (d - j') ≤ 2 ^ (d - (j + 1)) := Nat.pow_le_pow_right Nat.two_pos (by omega)
    omega

/-! ## Learning -/

section Learn

variable {W R : Type} [Field R] [LinearOrder R] {K bandwidth : Nat} {t : MinDepthBinaryTree}

/-- The nodes of a round whose sibling is looked up. -/
def siblings_asked (t : MinDepthBinaryTree) (ab : NodeCosts R) : List Nat :=
  let parent_id := fun n : Nat => (t.nodes[n]?.map TreeNode.parent_id).getD 0
  let set_d := if parent_id ab.1.node_id = parent_id ab.2.node_id then [ab.1.node_id] else
    [ab.1.node_id, ab.2.node_id]
  set_d.filter fun n =>
    (t.nodes[parent_id n]?.map fun v_parent =>
    !(v_parent.right_only || v_parent.left_only)).getD false

/-- The example inside `learn`. -/
def State.unpredicted (s : State W R) : State W R :=
  { s with ec := { s.ec with pred := ⟨0, [], 0, []⟩ } }

/-- Learning on a label, from its first action to its last one, asks only about ancestors of the
    leaves of these, once to learn and once to predict, and no round looks for a sibling of the
    root. -/
def AsksAncestors (R : Type) [Field R] [LinearOrder R] (K bandwidth first last : Nat) : Prop :=
  ∀ (W : Type) (base : BaseLearner W R) (random_draw : R) (s : State W R) (f l : CbClass R),
    s.ec.l.cb.costs.head? = some f → s.ec.l.cb.costs.getLast? = some l → f.action = first →
      l.action = last →
    (∃ s' new, learn (build_tree K bandwidth) random_draw base s = .returned () s' ∧
      s'.asks = s.asks ++ new ∧ new.Nodup ∧
      ∀ q ∈ new, q.2 < (build_tree K bandwidth).internal_node_count ∧
        ((build_tree K bandwidth).Ancestor (K - 1 + (first - 1)) q.2 ∨
          (build_tree K bandwidth).Ancestor (K - 1 + (last - 1)) q.2)) ∧
    ∀ cost_star ab, init_node_costs (build_tree K bandwidth) s.ec.l.cb.costs =
      some (cost_star, ab) →
      ∀ i < (build_tree K bandwidth).depth, ∀ ab' s',
        rounds random_draw base (build_tree K bandwidth) cost_star i ab (State.unpredicted s) =
          .returned ab' s' →
          0 ∉ siblings_asked (build_tree K bandwidth) ab'

theorem Numbered.depth_eq (h : Numbered K bandwidth t) (hK : 1 ≤ K) : Nat.clog 2 K = t.depth := by
  have hle := h.depth_le
  have hlt := h.lt_depth
  rw [Nat.pow_succ'] at hlt
  refine Nat.le_antisymm (Nat.clog_le_of_le_pow (by omega)) ?_
  by_contra hnot
  have hpow : 2 ^ (Nat.clog 2 K + 1) ≤ 2 ^ t.depth := Nat.pow_le_pow_right Nat.two_pos (by omega)
  have hclog : K ≤ 2 ^ Nat.clog 2 K := Nat.le_pow_clog (by decide) K
  rw [Nat.pow_succ'] at hpow
  omega

theorem Numbered.leaf_of (h : Numbered K bandwidth t) (hone : 1 ≤ action) (hle : action ≤ K) :
    leaf_of t action = K - 1 + (action - 1) := by
  unfold CatsTree.leaf_of MinDepthBinaryTree.internal_node_count
  rw [h.length, h.num_leaf_nodes, if_neg (by omega)]
  omega

omit [LinearOrder R] in
/-- Where the walk starts. -/
theorem init_node_costs_eq (h : Numbered K bandwidth t) {costs : List (CbClass R)} {f l : CbClass R}
    (hf : costs.head? = some f) (hl : costs.getLast? = some l) (hf_one : 1 ≤ f.action)
      (hf_le : f.action ≤ K)
    (hl_one : 1 ≤ l.action) (hl_le : l.action ≤ K) :
    init_node_costs t costs =
      some (f.cost / f.probability, ⟨K - 1 + (f.action - 1), f.cost / f.probability⟩,
      ⟨K - 1 + (l.action - 1), f.cost / f.probability⟩) := by
  unfold init_node_costs
  rw [hf, hl, ← h.leaf_of hf_one hf_le, ← h.leaf_of hl_one hl_le]

theorem asksAncestors_of_lowest {first last : Nat} (hK : 1 ≤ K) (hf_one : 1 ≤ first)
    (hf_le : first ≤ K)
    (hl_one : 1 ≤ last) (hl_le : last ≤ K) (hf : 2 ^ Nat.clog 2 K < K + first)
      (hl : 2 ^ Nat.clog 2 K < K + last) :
    AsksAncestors R K bandwidth first last := by
  have h := @build_tree_numbered K bandwidth hK
  intro W base draw s f l hhead hgetLast hfirst hlast
  subst hfirst hlast
  set t := build_tree K bandwidth
  rw [h.depth_eq hK] at hf hl
  have hlt := h.lt_depth
  have hinit := init_node_costs_eq h hhead hgetLast hf_one hf_le hl_one hl_le
  have hK_two : 0 < t.depth → 2 ≤ K := by
    intro hdepth
    have hpow : 2 ^ 1 ≤ 2 ^ t.depth := Nat.pow_le_pow_right Nat.two_pos hdepth
    omega
  set a := K - 1 + (f.action - 1) with ha
  set b := K - 1 + (l.action - 1) with hb
  have hrange_a := fun i (hi : i ≤ t.depth) =>
    up_iterate_range hi (show 2 ^ t.depth ≤ a + 1 by omega) (by omega)
  have hrange_b := fun i (hi : i ≤ t.depth) =>
    up_iterate_range hi (show 2 ^ t.depth ≤ b + 1 by omega) (by omega)
  have hnodup : (met a b t.depth).Nodup := met_nodup (by omega) (by omega) (by omega) (by omega)
  have hpositive : ∀ i < t.depth, ∀ n, 2 ^ (t.depth - i) ≤ n + 1 → 0 < n := by
    intro i hi n hn
    have hpow : 2 ^ 1 ≤ 2 ^ (t.depth - i) := Nat.pow_le_pow_right Nat.two_pos (by omega)
    omega
  refine ⟨?_, fun cost_star ab hab i hi ab' s' hrun hmem => ?_⟩
  · obtain ⟨ab', s', hrun, -, -, ps, hps, hasks⟩ :=
      (@rounds_ask _ _ _ _ _ _ _ draw base s.asks h (f.cost / f.probability)
      (⟨a, f.cost / f.probability⟩, ⟨b, f.cost / f.probability⟩) (show a < 2 * K - 1 by omega)
      (show b < 2 * K - 1 by omega) t.depth hK_two).returns (s := State.unpredicted s) rfl
    dsimp only at hps
    refine ⟨_, _, learn_run _ _ _ hinit hrun, hasks, ?_, fun q hq => ?_⟩
    · rw [nodup_flatMap_visit]
      exact hnodup.sublist hps
    · obtain ⟨j, hj, hq⟩ := mem_met.mp (hps.subset (mem_flatMap_visit.mp hq))
      rw [MinDepthBinaryTree.internal_node_count, h.length, h.num_leaf_nodes]
      have hup : ∀ n, n < 2 * K - 1 → 0 < n → up n < 2 * K - 1 - K := by
        intro n hn hpos
        unfold up
        omega
      rcases hq with hq | hq
      · have hle := up_iterate_le a j
        have hpos := hpositive j hj _ (hrange_a j (by omega)).1
        rw [hq]
        refine ⟨?_, .inl (h.ancestor_iterate (by omega) hpos)⟩
        rw [iterate_succ_apply']
        exact hup _ (by omega) hpos
      · have hle := up_iterate_le b j
        have hpos := hpositive j hj _ (hrange_b j (by omega)).1
        rw [hq]
        refine ⟨?_, .inr (h.ancestor_iterate (by omega) hpos)⟩
        rw [iterate_succ_apply']
        exact hup _ (by omega) hpos
  · rw [hinit] at hab
    cases hab
    obtain ⟨ab'', s'', hrun', hid_a, hid_b, -⟩ := (@rounds_ask _ _ _ _ _ _ _ draw base s.asks h
      (f.cost / f.probability) (⟨a, f.cost / f.probability⟩, ⟨b, f.cost / f.probability⟩)
        (show a < 2 * K - 1 by omega)
      (show b < 2 * K - 1 by omega) i fun _ => hK_two (by omega)).returns (s :=
        State.unpredicted s) rfl
    rw [hrun] at hrun'
    cases hrun'
    have hpos_a := hpositive i hi _ (hrange_a i (by omega)).1
    have hpos_b := hpositive i hi _ (hrange_b i (by omega)).1
    have hnode := (mem_filter.mp hmem).1
    dsimp only at hid_a hid_b
    rw [← hid_a] at hpos_a
    rw [← hid_b] at hpos_b
    split at hnode
    · have heq := mem_singleton.mp hnode
      omega
    · have heq : 0 = ab'.1.node_id ∨ 0 = ab'.2.node_id := by simpa using hnode
      omega

/-- A base learner that predicts 0. -/
def silent : BaseLearner Unit R where
  learn _ _ w := (⟨⟨0, [], 0, []⟩, 0, 0⟩, w)
  predict _ _ w := (⟨⟨0, [], 0, []⟩, 0, 0⟩, w)

/-- A label of two actions with cost 1, in an example. -/
def labelled (first last : Nat) : State Unit R :=
  ⟨(), ⟨⟨0, ⟨0, 1⟩, ⟨[⟨1, first, 1, 0⟩, ⟨1, last, 1, 0⟩], 1⟩, []⟩, 1, ⟨0, [], 0, []⟩, 0, 0, ⟨1, 0⟩⟩,
    []⟩

theorem up_iterate_zero {n : Nat} (h : n + 1 < 2 ^ (i + 1)) : up^[i] n = 0 := by
  induction i generalizing n with
  | zero =>
    rw [iterate_zero_apply]
    omega
  | succ i ih =>
    rw [iterate_succ_apply]
    apply ih
    unfold up
    omega

/-- The leaves are on the two lowest levels. -/
theorem Numbered.leaf_level (h : Numbered K bandwidth t) (hK : 2 ≤ K) :
    1 ≤ t.depth ∧ 2 ^ (t.depth - 1) ≤ K - 1 := by
  have hle := h.depth_le
  have hlt := h.lt_depth
  have hdepth : t.depth ≠ 0 := by
    intro hzero
    rw [hzero] at hlt
    omega
  obtain ⟨d, hd⟩ : ∃ d, t.depth = d + 1 := ⟨t.depth - 1, by omega⟩
  rw [hd, Nat.pow_succ'] at hle
  rw [hd, Nat.add_sub_cancel]
  omega

/-- From a leaf above the lowest level the walk is at the root in the last round. -/
theorem not_asksAncestors_of_first {first last : Nat} (hK : 2 ≤ K) (hf_one : 1 ≤ first)
    (hf_le : first ≤ K)
    (hl_one : 1 ≤ last) (hl_le : last ≤ K) (hf : K + first ≤ 2 ^ Nat.clog 2 K) :
    ¬ AsksAncestors R K bandwidth first last := by
  intro hall
  have h := @build_tree_numbered K bandwidth (show 1 ≤ K by omega)
  rw [h.depth_eq (by omega)] at hf
  obtain ⟨hdepth, -⟩ := h.leaf_level hK
  obtain ⟨-, hsibling⟩ :=
    hall Unit silent 0 (labelled first last) ⟨1, first, 1, 0⟩ ⟨1, last, 1, 0⟩ rfl rfl rfl rfl
  have hinit := @init_node_costs_eq R _ K bandwidth _ h (labelled (R := R) first last).ec.l.cb.costs
    ⟨1, first, 1, 0⟩
    ⟨1, last, 1, 0⟩ rfl rfl hf_one hf_le hl_one hl_le
  obtain ⟨ab', s', hrun, hid_a, hid_b, -⟩ := (@rounds_ask _ _ _ _ _ _ _ 0 silent [] h ((1 : R) / 1)
    (⟨K - 1 + (first - 1), 1 / 1⟩, ⟨K - 1 + (last - 1), 1 / 1⟩)
      (show K - 1 + (first - 1) < 2 * K - 1 by omega)
    (show K - 1 + (last - 1) < 2 * K - 1 by omega) ((build_tree K bandwidth).depth - 1) fun _ =>
      hK).returns
      (s := State.unpredicted (labelled first last)) rfl
  refine hsibling _ _ hinit ((build_tree K bandwidth).depth - 1) (by omega) ab' s' hrun ?_
  have hroot : ab'.1.node_id = 0 := by
    rw [hid_a]
    refine up_iterate_zero ?_
    dsimp only
    rw [Nat.sub_add_cancel hdepth]
    omega
  obtain ⟨v, hv, -, hparent, -, -, hsided⟩ := h.node 0 (by omega)
  obtain ⟨hright, hleft⟩ := hsided.root rfl
  rw [siblings_asked, mem_filter]
  refine ⟨?_, ?_⟩
  · split <;> simp [hroot]
  · simp [hv, hparent, show up 0 = 0 from rfl, hright, hleft]

end Learn

/-! ## Two leaves of different levels -/

section Contrary

variable {R : Type} [Field R] [LinearOrder R] [IsStrictOrderedRing R] {K bandwidth : Nat}
  {t : MinDepthBinaryTree}
  {m : R}

/-- A base learner that predicts the other side than it was trained for, so that the larger cost
    goes up. -/
def contrary : BaseLearner Unit R where
  learn _ _ w := (⟨⟨0, [], 0, []⟩, 0, 0⟩, w)
  predict _ ec w := (⟨⟨-ec.l.simple, [], 0, []⟩, 0, 0⟩, w)

theorem contrary_train (p : Nat) {local_action : R} (hlocal : local_action = 1 ∨ local_action = -1)
    {s : State Unit R}
    (hs : s.ec.l.simple = local_action) :
    ∃ s', train contrary p local_action 1 0 s = .returned 1 s' ∧ s'.asks = s.asks ++ visit p := by
  have hrun : ∃ s', train contrary p local_action 1 0 s = .returned (mix
      (decide ((if -s.ec.l.simple < 0 then (-1 : R) else 1) = local_action)) (-s.ec.l.simple)
        (min 1 0) (max 1 0)) s' ∧
      s'.asks = s.asks ++ visit p := by
    refine ⟨_, rfl, ?_⟩
    simp only [State.asks, State.answered, map_append, append_assoc]
    rfl
  obtain ⟨s', hend, hasks⟩ := hrun
  refine ⟨s', ?_, hasks⟩
  rw [hend, hs]
  have hone : (0 : R) < 1 := one_pos
  have hne : (1 : R) ≠ -1 := by
    intro heq
    have : (1 : R) + 1 = 0 := by linear_combination heq
    linarith
  rcases hlocal with rfl | rfl
  · rw [if_pos (by linarith), decide_eq_false (Ne.symm hne)]
    simp [mix, hone.le]
  · rw [if_neg (by linarith), decide_eq_false hne]
    simp [mix, hone.le]

/-- The sibling of a node whose parent has two sides. -/
def sibling (n : Nat) : Nat := if n = 2 * up n + 1 then 2 * up n + 2 else 2 * up n + 1

/-- A node with cost 1 leaves its parent the cost 1, and visits it if the sibling costs nothing. -/
theorem contrary_node (h : Numbered K bandwidth t) (hK : 2 ≤ K) {ab : NodeCosts R}
    (hab : ab.1.cost = 1 ∧ ab.2.cost = 1)
    {n_c : NodeCost R} (hn : n_c.node_id < 2 * K - 1) (hcost : n_c.cost = 1) (s : State Unit R) :
    ∃ s', learn_node t m contrary 1 ab n_c s = .returned 1 s' ∧
      (up n_c.node_id = 0 → return_cost 1 ab (sibling n_c.node_id) = 0 →
        s'.asks = s.asks ++ visit 0) := by
  obtain ⟨v, hv, hid, hparent, -⟩ := h.node n_c.node_id hn
  obtain ⟨v_parent, hp, -, -, hchildren, -, hsided⟩ :=
    h.node (up n_c.node_id) (by have := up_le n_c.node_id; omega)
  obtain ⟨hleft, hright, -⟩ := hchildren (by unfold up; omega)
  have hsibling : (if v.id = v_parent.left_id then v_parent.right_id else v_parent.left_id) =
    sibling n_c.node_id := by
    rw [hid, hleft, hright, sibling]
  obtain ⟨w, hw, hw_id, -⟩ := h.node (sibling n_c.node_id) (by
    unfold sibling up
    split <;> omega)
  -- all costs are 0 or 1
  have hcosts : return_cost 1 ab w.id = 1 ∨ return_cost 1 ab w.id = 0 := by
    unfold return_cost
    rw [hab.1, hab.2]
    split_ifs <;> simp
  unfold learn_node
  rw [node_run hv, hparent, node_run hp]
  split
  · next hside =>
    refine ⟨s, by rw [hcost]; rfl, fun hroot _ => ?_⟩
    obtain ⟨hright_only, hleft_only⟩ := hsided.root hroot
    rw [hright_only, hleft_only] at hside
    simp at hside
  · unfold MinDepthBinaryTree.get_sibling
    rw [hsibling, node_run hw, hcost]
    unfold parent_cost
    rcases hcosts with hw_cost | hw_cost
    · rw [hw_cost, if_pos rfl]
      refine ⟨s, rfl, fun _ hzero => ?_⟩
      rw [hw_id, hzero] at hw_cost
      exact absurd hw_cost zero_ne_one
    · have hbig : ¬ |(1 : R) - 0| < weight_th := by
        rw [sub_zero, abs_one, weight_th, not_lt, div_le_one (by norm_num)]
        norm_num
      rw [hw_cost, if_neg one_ne_zero, if_neg hbig]
      set local_action : R := if (if (1 : R) < 0 then v else w).id =
        v_parent.left_id then -1 else 1 with hlocal
      have hlocal_eq : local_action = 1 ∨ local_action = -1 := by
        rw [hlocal]
        exact (ite_eq_or_eq _ _ _).symm
      obtain ⟨s', hend, hasks⟩ := @contrary_train R _ _ _ v.parent_id local_action hlocal_eq
        { s with ec := { s.ec with l := { s.ec.l with simple := local_action }, weight := |(1 : R) - 0| } } rfl
      refine ⟨s', hend, fun hroot _ => ?_⟩
      rw [hasks, hparent, hroot]
      rfl

/-- A round of the contrary learner keeps the costs 1. The root is visited last when the last node
    of the round is below it and has a sibling that costs nothing. -/
theorem contrary_level (h : Numbered K bandwidth t) (hK : 2 ≤ K) {a b : Nat} (ha : a < 2 * K - 1)
    (hb : b < 2 * K - 1)
    (s : State Unit R) :
    ∃ s', learn_level t m contrary 1 (⟨a, 1⟩, ⟨b, 1⟩) s = .returned (⟨up a, 1⟩, ⟨up b, 1⟩) s' ∧
      (up a = up b → up a = 0 → return_cost 1 (⟨a, 1⟩, ⟨b, 1⟩) (sibling a) = (0 : R) →
        s'.asks = s.asks ++ visit 0) ∧
      (up a ≠ up b → up b = 0 → return_cost 1 (⟨a, 1⟩, ⟨b, 1⟩) (sibling b) = (0 : R) →
        ∃ log, s'.asks = log ++ visit 0) := by
  obtain ⟨v_a, hget_a, -, hparent_a, -⟩ := h.node a ha
  obtain ⟨v_b, hget_b, -, hparent_b, -⟩ := h.node b hb
  have hab : (⟨a, 1⟩ : NodeCost R).cost = 1 ∧ (⟨b, 1⟩ : NodeCost R).cost = 1 := ⟨rfl, rfl⟩
  obtain ⟨s_a, hrun_a, hasks_a⟩ :=
    @contrary_node R _ _ _ K bandwidth t m h hK (⟨a, 1⟩, ⟨b, 1⟩) hab ⟨a, 1⟩ ha rfl s
  obtain ⟨s_b, hrun_b, hasks_b⟩ :=
    @contrary_node R _ _ _ K bandwidth t m h hK (⟨a, 1⟩, ⟨b, 1⟩) hab ⟨b, 1⟩ hb rfl s_a
  unfold learn_level
  rw [node_run hget_a, node_run hget_b, hparent_a, hparent_b, Call.bind_run, hrun_a]
  dsimp only
  by_cases hsame : up a = up b
  · rw [if_pos hsame]
    exact ⟨s_a, rfl, fun _ hroot hcost => hasks_a hroot hcost, fun hne => absurd hsame hne⟩
  · rw [if_neg hsame, Call.bind_run, hrun_b]
    exact ⟨s_b, rfl, fun heq => absurd heq hsame,
      fun _ hroot hcost => ⟨s_a.asks, hasks_b hroot hcost⟩⟩

theorem contrary_rounds (h : Numbered K bandwidth t) (hK : 2 ≤ K) {a b : Nat} (ha : a < 2 * K - 1)
    (hb : b < 2 * K - 1)
    (i : Nat) (s : State Unit R) :
    ∃ s', rounds m contrary t 1 i (⟨a, 1⟩, ⟨b, 1⟩) s =
      .returned (⟨up^[i] a, 1⟩, ⟨up^[i] b, 1⟩) s' := by
  induction i with
  | zero => exact ⟨s, rfl⟩
  | succ i ih =>
    obtain ⟨s₁, hrun⟩ := ih
    have hle_a := up_iterate_le a i
    have hle_b := up_iterate_le b i
    obtain ⟨s₂, hrun₂, -⟩ := contrary_level (m := m) (a := up^[i] a) (b := up^[i] b) h hK (by omega)
      (by omega) s₁
    refine ⟨s₂, ?_⟩
    rw [rounds_succ, Call.bind_run, hrun, iterate_succ_apply', iterate_succ_apply']
    exact hrun₂

/-- From a leaf of the lowest level and one above it the root is visited in the last round and in
    the one before. -/
theorem not_asksAncestors_of_last {first last : Nat} (hK : 2 ≤ K) (hf_one : 1 ≤ first)
    (hf_le : first ≤ K)
    (hl_one : 1 ≤ last) (hl_le : last ≤ K) (hf : 2 ^ Nat.clog 2 K < K + first)
      (hl : K + last ≤ 2 ^ Nat.clog 2 K) :
    ¬ AsksAncestors R K bandwidth first last := by
  intro hall
  have h := @build_tree_numbered K bandwidth (show 1 ≤ K by omega)
  rw [h.depth_eq (by omega)] at hf hl
  obtain ⟨hdepth, hlow⟩ := h.leaf_level hK
  have hlt := h.lt_depth
  obtain ⟨hone, -⟩ := hall Unit contrary 0 (labelled first last) ⟨1, first, 1, 0⟩
    ⟨1, last, 1, 0⟩ rfl rfl rfl rfl
  have hinit := @init_node_costs_eq R _ K bandwidth _ h (labelled (R := R) first last).ec.l.cb.costs
    ⟨1, first, 1, 0⟩
    ⟨1, last, 1, 0⟩ rfl rfl hf_one hf_le hl_one hl_le
  dsimp only at hinit
  rw [div_one] at hinit
  generalize build_tree K bandwidth = t at *
  obtain ⟨a, ha⟩ : ∃ a, a = K - 1 + (first - 1) := ⟨_, rfl⟩
  obtain ⟨b, hb⟩ : ∃ b, b = K - 1 + (last - 1) := ⟨_, rfl⟩
  rw [← ha, ← hb] at hinit
  obtain ⟨d, hd⟩ : ∃ d, t.depth = d + 2 := by
    refine ⟨t.depth - 2, ?_⟩
    by_contra hnot
    have hone : t.depth = 1 := by omega
    rw [hone] at hl
    omega
  rw [hd] at hf hl hlow hlt
  rw [show d + 2 - 1 = d + 1 by omega] at hlow
  have hpow : 2 ^ (d + 2) = 2 * 2 ^ (d + 1) := Nat.pow_succ'
  have hpow' : 2 ^ (d + 2 + 1) = 2 * 2 ^ (d + 2) := Nat.pow_succ'
  -- before the last two rounds, one node is two levels below the root, the other one below it
  have hrange_a := @up_iterate_range a (d + 2) d (by omega) (by omega) (by omega)
  have hrange_b := @up_iterate_range b (d + 1) d (by omega) (by omega) (by omega)
  rw [show d + 2 - d = 2 by omega] at hrange_a
  rw [show d + 1 - d = 1 by omega] at hrange_b
  have hle_a := up_iterate_le a d
  obtain ⟨s₁, hrun₁⟩ := contrary_rounds (m := (0 : R)) (a := a) (b := b) h hK (by omega)
    (by omega) d
    (State.unpredicted (labelled first last))
  generalize up^[d] a = a' at *
  generalize up^[d] b = b' at *
  obtain ⟨s₂, hrun₂, -, hasks₂⟩ := contrary_level (m := (0 : R)) (a := a') (b := b') h hK (by omega)
    (by omega) s₁
  obtain ⟨s₃, hrun₃, hasks₃, -⟩ := contrary_level (m := (0 : R)) (a := up a') (b := up b') h hK
    (by unfold up; omega) (by unfold up; omega) s₂
  have hrun : rounds 0 contrary t 1 t.depth (⟨a, 1⟩, ⟨b, 1⟩)
    (State.unpredicted (labelled first last)) =
      .returned (⟨up (up a'), 1⟩, ⟨up (up b'), 1⟩) s₃ := by
    rw [hd, rounds_succ, rounds_succ, Call.bind_run, Call.bind_run, hrun₁]
    dsimp only
    rw [hrun₂]
    exact hrun₃
  obtain ⟨s', new, hlearn, hasks, hnodup, -⟩ := hone
  rw [learn_run _ _ _ hinit hrun] at hlearn
  cases hlearn
  -- the root is visited for the upper node, and then for the lower one
  obtain ⟨log, hlog⟩ := hasks₂ (by unfold up; omega) (by unfold up; omega) (by
    unfold return_cost sibling up
    dsimp only
    split_ifs <;> first | rfl | omega)
  have hlast := hasks₃ (by unfold up; omega) (by unfold up; omega) (by
    unfold return_cost sibling up
    dsimp only
    split_ifs <;> first | rfl | omega)
  have hnew : new = log ++ visit 0 ++ visit 0 := by
    rw [← hlog, ← hlast]
    exact hasks.symm
  rw [hnew] at hnodup
  simp [visit, nodup_append] at hnodup

end Contrary

end VW.CatsTree

namespace VW.Trees

/-- The offset tree asks only about ancestors when it has an inner node, and the CATS tree when both
    leaves of the label are on the lowest level. -/
theorem learners_ask_ancestors_iff {R : Type} [Field R] [LinearOrder R] [IsStrictOrderedRing R]
    {K bandwidth first last : Nat}
    (hK : 1 ≤ K) (hK32 : K < 2 ^ 32) (hf_one : 1 ≤ first) (hf_le : first ≤ K) (hl_one : 1 ≤ last)
      (hl_le : last ≤ K) :
    (OffsetTree.AsksAncestors R K first ↔ 2 ≤ K) ∧
      (CatsTree.AsksAncestors R K bandwidth first last ↔
        2 ^ Nat.clog 2 K < K + first ∧ 2 ^ Nat.clog 2 K < K + last) := by
  constructor
  · constructor
    · intro h
      by_contra hnot
      obtain rfl : K = 1 := by omega
      exact OffsetTree.not_asksAncestors_one (by omega) h
    · intro hK_two
      exact OffsetTree.asksAncestors_of_two hK_two hK32 hf_le
  · constructor
    · intro h
      -- a tree with one leaf has no round
      have hK_two : ∀ n, 1 ≤ n → K + n ≤ 2 ^ Nat.clog 2 K → 2 ≤ K := by
        intro n hn hle
        by_contra hnot
        obtain rfl : K = 1 := by omega
        rw [Nat.clog_one_right] at hle
        omega
      by_contra hnot
      rw [not_and_or, not_lt, not_lt] at hnot
      rcases Nat.lt_or_ge (2 ^ Nat.clog 2 K) (K + first) with hf | hf
      · have hl := hnot.resolve_left (by omega)
        exact CatsTree.not_asksAncestors_of_last
          (hK_two last hl_one hl) hf_one hf_le hl_one hl_le hf hl h
      · exact CatsTree.not_asksAncestors_of_first
          (hK_two first hf_one hf) hf_one hf_le hl_one hl_le hf h
    · intro ⟨hf, hl⟩
      exact CatsTree.asksAncestors_of_lowest hK hf_one hf_le hl_one hl_le hf hl

/-- Four actions. -/
theorem learners_ask_ancestors_iff_four :
    (OffsetTree.AsksAncestors ℚ 4 1 ↔ 2 ≤ 4) ∧
      (CatsTree.AsksAncestors ℚ 4 0 1 2 ↔ 2 ^ Nat.clog 2 4 < 4 + 1 ∧ 2 ^ Nat.clog 2 4 < 4 + 2) :=
  learners_ask_ancestors_iff (by decide) (by decide) (by decide) (by decide) (by decide) (by decide)

/-- One action under the offset tree; the first of three actions under the CATS tree. -/
theorem outside_ancestors : ¬ OffsetTree.AsksAncestors ℚ 1 1 ∧ ¬ CatsTree.AsksAncestors ℚ 3 0 1 1 :=
  ⟨OffsetTree.not_asksAncestors_one rfl, CatsTree.not_asksAncestors_of_first (by decide) (by decide)
    (by decide) (by decide)
    (by decide) (by decide +kernel)⟩

end VW.Trees
