import VowpalWabbit.Trees.FilterTree
import VowpalWabbit.Trees.OffsetTree
import VowpalWabbit.Trees.PltExact
import VowpalWabbit.Tournament.Weights

/-! # Tree reductions give the example back

    Each of the tree reductions puts labels and weights of its own into the example before it asks
    the learner below. Afterwards the label of the example should be what it was, and its weight.
-/

open Cpp VW.Trees

/-! ## The CATS tree -/

variable {fuel n : Nat}

namespace VW.CatsTree

open Nat

variable {W R : Type} [Field R] [LinearOrder R] {t : MinDepthBinaryTree} {draw : R}
  {base : BaseLearner W R}
variable {cb : CbLabel R} {w : R}

variable {ab : NodeCosts R} {cost_star : R} {cur_node : TreeNode}

section Keeps

variable {Q : State W R → Prop}

omit [Field R] [LinearOrder R] in
theorem node_keeps {id : Nat} : (t.node id).Quiet Q fun _ => Q := by
  unfold MinDepthBinaryTree.node
  split
  · exact .undefined
  · exact .pure fun _ hs => hs

theorem train_keeps {p : Nat} {local_action cost_v cost_w : R} :
    (train base p local_action cost_v cost_w).Quiet (fun s => s.ec.l.cb = cb) fun _ s =>
      s.ec.l.cb = cb :=
  fun _ hs => hs

theorem parent_cost_keeps {v w v_parent : TreeNode} {cost_v cost_w : R} :
    (parent_cost draw base v w v_parent cost_v cost_w).Quiet (fun s => s.ec.l.cb = cb)
      fun _ s => s.ec.l.cb = cb := by
  unfold parent_cost
  split
  · exact .pure fun _ hs => hs
  · dsimp only
    refine .bind (F := fun _ (s : State W R) => s.ec.l.cb = cb) (fun _ hs => hs)
      fun _ => ?_
    refine .bind (F := fun _ (s : State W R) => s.ec.l.cb = cb) (fun _ hs => hs)
      fun _ => ?_
    split
    · split
      · exact .bind (F := fun _ (s : State W R) => s.ec.l.cb = cb) (fun _ hs => hs)
          fun _ => train_keeps
      · exact .pure fun _ hs => hs
    · exact train_keeps

theorem learn_node_keeps {n_c : NodeCost R} :
    (learn_node t draw base cost_star ab n_c).Quiet (fun s => s.ec.l.cb = cb) fun _ s =>
      s.ec.l.cb = cb := by
  unfold learn_node
  refine node_keeps.bind fun v => node_keeps.bind fun v_parent => ?_
  split
  · exact .pure fun _ hs => hs
  · exact node_keeps.bind fun _ => parent_cost_keeps

theorem learn_level_keeps :
    (learn_level t draw base cost_star ab).Quiet (fun s => s.ec.l.cb = cb) fun _ s =>
      s.ec.l.cb = cb := by
  unfold learn_level
  refine node_keeps.bind fun a => node_keeps.bind fun b => learn_node_keeps.bind fun cost => ?_
  split
  · exact .pure fun _ hs => hs
  · exact learn_node_keeps.bind fun _ => .pure fun _ hs => hs

theorem learn_keeps : (learn t draw base).Quiet (Trees.Holds cb w) fun _ => Trees.Holds cb w := by
  unfold learn
  refine get_ec_bind_quiet fun s hs => ?_
  refine .bind (F := fun _ (s : State W R) => s.ec.l.cb = cb) (fun s' hs' => ?_)
    fun _ => ?_
  · rw [hs']
    exact hs.1
  · refine .scope_exit (F := fun _ => Trees.Holds cb w) ?_ fun _ _ hs => hs
    split
    · exact .undefined
    · refine (Call.Quiet.foldlM (fun _ _ _ => learn_level_keeps) _).bind fun _ => ?_
      exact fun s' hs' => ⟨hs', hs.2⟩

omit [Field R] in
theorem descend_keeps [Field R] :
    (descend t base fuel cur_node).Quiet (fun s => s.ec.weight = w) fun _ s => s.ec.weight = w := by
  induction fuel generalizing cur_node with
  | zero => exact .undefined
  | succ fuel ih =>
    unfold descend
    split
    · exact .pure fun _ hs => hs
    · split
      · exact node_keeps.bind fun _ => ih
      · split
        · exact node_keeps.bind fun _ => ih
        · refine .bind (F := fun _ (s : State W R) => s.ec.weight = w) (fun _ hs => hs)
            fun _ => ?_
          refine .bind (F := fun _ (s : State W R) => s.ec.weight = w) (fun _ hs => hs)
            fun _ => ?_
          exact get_ec_quiet.bind fun _ => node_keeps.bind fun _ => ih

theorem predict_keeps :
    (predict t base fuel).Quiet (Trees.Holds cb w) fun _ => Trees.Holds cb w := by
  unfold predict
  refine .bind (F := fun _ => Trees.Holds cb w) ?_ fun _ => fun _ hs => hs
  unfold predict_action
  split
  · exact .pure fun _ hs => hs
  · refine get_ec_bind_quiet fun s hs => ?_
    dsimp only
    refine .bind (F := fun _ (s : State W R) => s.ec.weight = w) (fun s' hs' => ?_)
      fun _ => ?_
    · rw [hs']
      exact hs.2
    · refine .bind (F := fun _ (s : State W R) => s.ec.weight = w) (fun _ hs => hs)
        fun _ => ?_
      refine node_keeps.bind fun root => descend_keeps.bind fun cur_node => ?_
      exact .bind (F := fun _ => Trees.Holds cb w) (fun s' hs' => ⟨hs.1, hs'⟩) fun _ =>
        .pure fun _ hs => hs

end Keeps

section Returns

variable {num_nodes bandwidth : Nat} {T : State W R → Prop}

/-- What a node of a tree with at least one leaf leads to. -/
structure Node (t : MinDepthBinaryTree) (i n : Nat) (v : TreeNode) : Prop where
  get : t.nodes[n]? = some v
  id : v.id = n
  parent : v.parent_id ≤ n
  inner : v.is_leaf = false → n < i
  children : n < i → v.left_id = 2 * n + 1 ∧ v.right_id = 2 * n + 2
  below_parent : n ≠ 0 → v.parent_id < i

theorem exists_node (h : 0 < num_nodes) {n : Nat}
    (hn : n < (build_tree num_nodes bandwidth).nodes.length) :
    ∃ v, Node (build_tree num_nodes bandwidth) (num_nodes - 1) n v := by
  obtain ⟨depth_const, hgrown⟩ := @build_tree_grown num_nodes bandwidth h
  have hlength := hgrown.length
  dsimp only at hlength
  obtain ⟨v, hv⟩ : ∃ v, (build_tree num_nodes bandwidth).nodes[n]? = some v :=
    ⟨_, List.getElem?_eq_getElem hn⟩
  have hplaced := hgrown.nodes n v hv
  refine ⟨v, hv, hplaced.id, ?_, fun hinner => ?_, fun hlt => ?_, fun hne => ?_⟩
  · rw [hplaced.parent_id]
    omega
  · refine Nat.lt_of_not_le fun hle => ?_
    rw [hplaced.leaf hle] at hinner
    cases hinner
  · obtain ⟨hleft, hright, -⟩ := hplaced.children hlt
    exact ⟨hleft, hright⟩
  · rw [hplaced.parent_id]
    omega

theorem nodes_length (h : 0 < num_nodes) :
    (build_tree num_nodes bandwidth).nodes.length = 2 * (num_nodes - 1) + 1 := by
  obtain ⟨depth_const, hgrown⟩ := @build_tree_grown num_nodes bandwidth h
  exact hgrown.length

/-- A tree with levels has an inner node. -/
theorem inner_of_depth (h : 0 < num_nodes) (hdepth : 0 < (build_tree num_nodes bandwidth).depth) :
    1 < num_nodes := by
  obtain ⟨depth_const, hgrown⟩ := @build_tree_grown num_nodes bandwidth h
  have hle := hgrown.depth_le
  dsimp only at hle
  have htwo : 2 ^ 1 ≤ 2 ^ (build_tree num_nodes bandwidth).depth :=
    Nat.pow_le_pow_right Nat.two_pos hdepth
  omega

theorem parent_cost_returns {v w v_parent : TreeNode} {cost_v cost_w : R} :
    (parent_cost draw base v w v_parent cost_v cost_w).Finishes Any (fun _ => Any) T := by
  unfold parent_cost
  split
  · exact .pure fun _ _ => trivial
  · refine any_bind_finishes (fun _ _ => trivial) fun _ => ?_
    refine any_bind_finishes (fun _ _ => trivial) fun _ => ?_
    split
    · split
      · exact any_bind_finishes (fun _ _ => trivial) fun _ => fun _ _ => trivial
      · exact .pure fun _ _ => trivial
    · exact fun _ _ => trivial

theorem learn_node_returns (h : 1 < num_nodes) {cost_star : R} {ab : NodeCosts R} {n_c : NodeCost R}
    (hn : n_c.node_id < (build_tree num_nodes bandwidth).nodes.length) :
    (learn_node (build_tree num_nodes bandwidth) draw base cost_star ab n_c).Finishes Any
      (fun _ => Any) T := by
  have hpositive : 0 < num_nodes := lt_of_succ_lt h
  have hlength := @nodes_length num_nodes bandwidth hpositive
  obtain ⟨v, hv⟩ := exists_node hpositive hn
  have hparent := hv.parent
  obtain ⟨v_parent, hp⟩ := @exists_node num_nodes bandwidth hpositive v.parent_id (by omega)
  have hinner : v.parent_id < num_nodes - 1 := by
    by_cases hroot : n_c.node_id = 0
    · omega
    · exact hv.below_parent hroot
  obtain ⟨hleft, hright⟩ := hp.children hinner
  unfold learn_node
  intro s hs
  rw [node_run hv.get, node_run hp.get]
  split
  · trivial
  · -- the sibling is a child of the parent
    unfold MinDepthBinaryTree.get_sibling
    obtain ⟨w, hw⟩ : ∃ w, Node (build_tree num_nodes bandwidth) (num_nodes - 1)
        (if v.id = v_parent.left_id then v_parent.right_id else v_parent.left_id) w := by
      refine exists_node hpositive ?_
      split <;> omega
    rw [node_run hw.get]
    exact parent_cost_returns s hs

theorem learn_level_returns (h : 1 < num_nodes) :
    (learn_level (build_tree num_nodes bandwidth) draw base cost_star ab).Finishes
      (fun _ => ab.1.node_id < (build_tree num_nodes bandwidth).nodes.length ∧
        ab.2.node_id < (build_tree num_nodes bandwidth).nodes.length)
      (fun ab _ => ab.1.node_id < (build_tree num_nodes bandwidth).nodes.length ∧
        ab.2.node_id < (build_tree num_nodes bandwidth).nodes.length) T := by
  intro s ⟨ha, hb⟩
  have hpositive : 0 < num_nodes := lt_of_succ_lt h
  obtain ⟨a, hnode_a⟩ := exists_node hpositive ha
  obtain ⟨b, hnode_b⟩ := exists_node hpositive hb
  have hparent_a := hnode_a.parent
  have hparent_b := hnode_b.parent
  unfold learn_level
  rw [node_run hnode_a.get, node_run hnode_b.get]
  refine Call.Finishes.bind (P := Any) (F := fun _ => Any) (T := T) (learn_node_returns h ha)
    (fun cost => ?_) s trivial
  split
  · exact .pure fun _ _ => ⟨by dsimp only; omega, by dsimp only; omega⟩
  · exact (learn_node_returns h hb).bind fun cost' => .pure fun _ _ =>
      ⟨by dsimp only; omega, by dsimp only; omega⟩

theorem learn_returns (h : 0 < num_nodes) {s : State W R} (hcosts : s.ec.l.cb.costs ≠ []) :
    ∃ s', learn (build_tree num_nodes bandwidth) draw base s = .returned () s' := by
  have hlength := @nodes_length num_nodes bandwidth h
  obtain ⟨first, rest, hlist⟩ := List.exists_cons_of_ne_nil hcosts
  have hfinishes : (learn (build_tree num_nodes bandwidth) draw base).Finishes
      (fun s' => s'.ec.l.cb.costs = s.ec.l.cb.costs) (fun _ => Any) fun _ => False := by
    unfold learn
    refine get_ec_bind_finishes fun s' hs' => ?_
    refine any_bind_finishes (fun _ _ => trivial) fun _ => ?_
    refine .scope_exit (F := fun _ => Any) (T := fun _ => False) ?_
      (fun _ _ _ => trivial) fun _ h => h
    have hleaf : ∀ action, leaf_of (build_tree num_nodes bandwidth) action <
      (build_tree num_nodes bandwidth).nodes.length := by
      intro action
      unfold leaf_of
      dsimp only
      split <;> omega
    obtain ⟨last, hlast⟩ : ∃ last, s.ec.l.cb.costs.getLast? = some last :=
      ⟨_, List.getLast?_eq_some_getLast hcosts⟩
    have hfirst : s.ec.l.cb.costs.head? = some first := by rw [hlist, List.head?_cons]
    have hinit : init_node_costs (build_tree num_nodes bandwidth) s'.ec.l.cb.costs =
      some (first.cost / first.probability,
        ⟨leaf_of (build_tree num_nodes bandwidth) first.action, first.cost / first.probability⟩,
        ⟨leaf_of (build_tree num_nodes bandwidth) last.action,
          first.cost / first.probability⟩) := by
      unfold init_node_costs
      rw [hs', hfirst, hlast]
    rw [hinit]
    refine .bind (F := fun _ => Any) ?_ fun _ => fun _ _ => trivial
    refine (Call.Finishes.foldlM (F := fun (ab : NodeCosts R) (_ : State W R) =>
      ab.1.node_id < (build_tree num_nodes bandwidth).nodes.length ∧
        ab.2.node_id < (build_tree num_nodes bandwidth).nodes.length) (fun d hd ab => ?_) _).mono
      (fun _ _ => ⟨hleaf _, hleaf _⟩) (fun _ _ _ => trivial) fun _ h => h
    exact learn_level_returns (inner_of_depth h (Nat.zero_lt_of_lt (List.mem_range.mp hd)))
  obtain ⟨_, s', hrun, -⟩ := hfinishes.returns rfl
  exact ⟨s', hrun⟩

theorem descend_returns (h : 0 < num_nodes)
    (hnode : Node (build_tree num_nodes bandwidth) (num_nodes - 1) n cur_node)
    (hfuel : (build_tree num_nodes bandwidth).nodes.length < fuel + n) :
    (descend (build_tree num_nodes bandwidth) base fuel cur_node).Finishes Any
      (fun _ => Any) T := by
  have hlength := @nodes_length num_nodes bandwidth h
  induction fuel generalizing n cur_node with
  | zero =>
    have hlt := (List.getElem?_eq_some_iff.mp hnode.get).1
    omega
  | succ fuel ih =>
    unfold descend
    by_cases hleaf : cur_node.is_leaf = true
    · rw [if_pos hleaf]
      exact .pure fun _ _ => trivial
    · rw [if_neg hleaf]
      have hinner := hnode.inner (Bool.eq_false_iff.mpr hleaf)
      obtain ⟨hleft, hright⟩ := hnode.children hinner
      obtain ⟨left, hleft_node⟩ := @exists_node num_nodes bandwidth h cur_node.left_id (by omega)
      obtain ⟨right, hright_node⟩ := @exists_node num_nodes bandwidth h cur_node.right_id (by omega)
      have hgo_left := ih hleft_node (by omega)
      have hgo_right := ih hright_node (by omega)
      split
      · intro s hs
        rw [node_run hright_node.get]
        exact hgo_right s hs
      · split
        · intro s hs
          rw [node_run hleft_node.get]
          exact hgo_left s hs
        · refine any_bind_finishes (fun _ _ => trivial) fun _ => ?_
          refine any_bind_finishes (fun _ _ => trivial) fun _ => ?_
          refine any_bind_finishes (fun _ _ => trivial) fun ec => ?_
          intro s hs
          split
          · rw [node_run hleft_node.get]
            exact hgo_left s hs
          · rw [node_run hright_node.get]
            exact hgo_right s hs

theorem predict_returns (h : 0 < num_nodes)
    (hfuel : (build_tree num_nodes bandwidth).nodes.length < fuel) (s : State W R) :
    ∃ s', predict (build_tree num_nodes bandwidth) base fuel s = .returned () s' := by
  have hlength := @nodes_length num_nodes bandwidth h
  have hfinishes : (predict (build_tree num_nodes bandwidth) base fuel).Finishes Any (fun _ => Any)
    fun _ => False := by
    unfold predict
    refine .bind (F := fun _ => Any) ?_ fun _ => fun _ _ => trivial
    unfold predict_action
    split
    · exact .pure fun _ _ => trivial
    · refine any_bind_finishes (fun _ _ => trivial) fun ec => ?_
      refine any_bind_finishes (fun _ _ => trivial) fun _ => ?_
      refine any_bind_finishes (fun _ _ => trivial) fun _ => ?_
      obtain ⟨root, hroot⟩ := @exists_node num_nodes bandwidth h 0 (by omega)
      intro s hs
      rw [node_run hroot.get]
      refine Call.Finishes.bind (P := Any) (F := fun _ => Any) (descend_returns h hroot (by omega))
        (fun cur_node => ?_) s hs
      exact fun _ _ => trivial
  obtain ⟨_, s', hrun, -⟩ := hfinishes.returns (s := s) trivial
  exact ⟨s', hrun⟩

end Returns

end VW.CatsTree

/-! ## The label tree -/

namespace VW.LabelTree

open List

section Keeps

variable {W R : Type} [Field R] {p : Plt R} {order : SetOrder} {sigmoid : R → R}
  {base : BaseLearner (R × W) R} {w : R}

/-- The weight of the example. -/
def Weighs (w : R) (s : PltState W R) : Prop := s.run.ec.weight = w

/-- The labels and the weight of the example. -/
def Labelled (multilabels : List Nat) (w : R) (s : PltState W R) : Prop :=
  s.run.ec.l.multilabels = multilabels ∧ s.run.ec.weight = w

omit [Field R] in
theorem on_run_keeps {A : Type} {x : Call (State (R × W) R) A}
    (h : x.Quiet (fun run => run.ec.weight = w) fun _ run => run.ec.weight = w) :
    (on_run x).Quiet (Weighs w) fun _ => Weighs w := by
  intro s hs
  have hend := h s.run hs
  unfold on_run
  cases hrun : x s.run with
  | returned a run =>
    rw [hrun] at hend
    exact hend
  | threw what run =>
    rw [hrun] at hend
    exact hend.elim
  | undefined => trivial

theorem learn_node_keeps : (learn_node base n).Quiet (Weighs w) fun _ => Weighs w := by
  unfold learn_node
  refine .bind (F := fun _ => Weighs w) (fun _ hs => hs) fun data => ?_
  refine (on_run_keeps get_ec_quiet).bind fun ec => ?_
  split
  · exact .undefined
  · exact fun _ hs => hs

omit [Field R] in
theorem evaluate_node_keeps :
    (evaluate_node base n).Quiet (Weighs w) fun _ => Weighs w := fun _ hs => hs

theorem each_node_keeps {visit : Nat → Call (PltState W R) R}
    (hvisit : ∀ n, (visit n).Quiet (Weighs w) fun _ => Weighs w)
    (nodes : List Nat × List Nat) : (each_node visit nodes).Quiet (Weighs w) fun _ => Weighs w := by
  have hpass : ∀ (ns : List Nat) (loss : R), (ns.foldlM (fun loss n => do
      let l ← visit n
      pure (loss + l)) loss).Quiet (Weighs w) fun _ => Weighs w := fun ns loss =>
    .foldlM (fun n _ _ => (hvisit n).bind fun _ => .pure fun _ hs => hs) loss
  refine .bind (F := fun _ => Weighs w) (on_run_keeps fun _ hs => hs) fun _ => ?_
  refine .bind (F := fun _ => Weighs w) (on_run_keeps fun _ hs => hs) fun _ =>
    (hpass _ _).bind fun loss => ?_
  exact .bind (F := fun _ => Weighs w) (on_run_keeps fun _ hs => hs) fun _ => hpass _ _

/-- What is left to do of the learning when the labels have been moved out. -/
theorem learn_keeps {multilabels : List Nat} :
    (learn p order base).Quiet (Labelled multilabels w) fun _ => Labelled multilabels w := by
  intro s ⟨hlabels, hweight⟩
  subst hlabels
  refine Call.Quiet.bind (P := Weighs w) (F := fun _ => Weighs w)
    (G := fun _ => Labelled s.run.ec.l.multilabels w)
    (each_node_keeps (fun n => learn_node_keeps)
      (get_nodes_to_update p order s.run.ec.l.multilabels)) (fun loss => ?_)
    { s with run := { s.run with ec := { s.run.ec with
      l := { s.run.ec.l with multilabels := [] }, pred :=
        { s.run.ec.pred with a_s := [], multilabels := [] } } } } hweight
  exact fun s' hs' => ⟨rfl, hs'⟩

section Predict

variable [LinearOrder R] {heap : Heap R}

omit [LinearOrder R] in
theorem evaluate_loss_keeps (multilabels : List Nat) :
    (evaluate_loss p order base multilabels).Quiet (Weighs w) fun _ => Weighs w := by
  unfold evaluate_loss
  split
  · exact .pure fun _ hs => hs
  · exact each_node_keeps (fun n => evaluate_node_keeps) _

omit [LinearOrder R] in
theorem predict_children_keeps {node : Node R} :
    (predict_children p sigmoid base node).Quiet (Weighs w) fun _ => Weighs w := by
  unfold predict_children
  refine .bind (F := fun _ => Weighs w) (on_run_keeps fun _ hs => hs) fun _ => ?_
  refine .bind (F := fun _ => Weighs w) (on_run_keeps ?_) fun _ => .pure fun _ hs => hs
  exact .foldlM (fun c _ node_pred => fun _ hs => hs) []

omit [Field R] in
theorem visit_child_keeps {s : List (Node R) × PolyPrediction R} {child : Node R} :
    (visit_child p s child : Call (PltState W R) _).Quiet (Weighs w) fun _ => Weighs w := by
  unfold visit_child
  split
  · split
    · exact fun _ hs => hs
    · exact .pure fun _ hs => hs
  · exact .pure fun _ hs => hs

theorem search_keeps {s : List (Node R) × PolyPrediction R} :
    (search p sigmoid base fuel s).Quiet (Weighs w) fun _ => Weighs w := by
  induction fuel generalizing s with
  | zero => exact .undefined
  | succ fuel ih =>
    unfold search
    split
    · exact .pure fun _ hs => hs
    · exact predict_children_keeps.bind fun children =>
        (Call.Quiet.foldlM (fun _ _ _ => visit_child_keeps) _).bind fun _ => ih

variable {pred : PolyPrediction R} {labels : List Nat}

theorem predict_threshold_keeps :
    (predict_threshold p sigmoid base fuel pred labels).Quiet (Weighs w) fun _ => Weighs w := by
  unfold predict_threshold
  refine .bind (F := fun _ => Weighs w) (fun _ hs => hs) fun cp_root => ?_
  refine .bind (F := fun _ => Weighs w) ?_ fun node_queue =>
    search_keeps.bind fun pred => ?_
  · unfold push_root
    split
    · exact fun _ hs => hs
    · exact .pure fun _ hs => hs
  · refine .bind (F := fun _ => Weighs w) ?_ fun _ => .pure fun _ hs => hs
    unfold evaluate_threshold
    split
    · exact .pure fun _ hs => hs
    · exact fun _ hs => hs

theorem search_best_keeps {node_queue : List (Node R)} :
    (search_best p sigmoid base heap fuel node_queue pred).Quiet (Weighs w) fun _ => Weighs w := by
  induction fuel generalizing node_queue pred with
  | zero => exact .undefined
  | succ fuel ih =>
    unfold search_best
    dsimp only
    split
    · exact .pure fun _ hs => hs
    · split
      · exact .undefined
      · split
        · exact predict_children_keeps.bind fun children =>
            (Call.Quiet.foldlM (fun _ _ _ => fun _ hs => hs) _).bind fun _ => ih
        · split
          · exact .pure fun _ hs => hs
          · exact ih

theorem predict_top_k_keeps :
    (predict_top_k p sigmoid base heap fuel pred labels).Quiet (Weighs w) fun _ => Weighs w := by
  unfold predict_top_k
  refine .bind (F := fun _ => Weighs w) (fun _ hs => hs) fun cp_root => ?_
  refine .bind (F := fun _ => Weighs w) (fun _ hs => hs) fun node_queue =>
    search_best_keeps.bind fun pred => ?_
  refine .bind (F := fun _ => Weighs w) ?_ fun _ => .pure fun _ hs => hs
  unfold evaluate_top_k
  split
  · exact .pure fun _ hs => hs
  · refine .bind (F := fun _ => Weighs w) (.foldlM (fun i _ tp_at => ?_) 0) fun _ =>
      .pure fun _ hs => hs
    unfold evaluate_at
    split
    · exact .undefined
    · exact fun _ hs => hs

theorem predict_keeps {multilabels : List Nat} :
    (predict p order sigmoid base heap fuel).Quiet (Labelled multilabels w) fun _ =>
      Labelled multilabels w := by
  intro s ⟨hlabels, hweight⟩
  subst hlabels
  refine Call.Quiet.bind (P := Weighs w) (F := fun _ => Weighs w)
    (G := fun _ => Labelled s.run.ec.l.multilabels w)
    (evaluate_loss_keeps s.run.ec.l.multilabels) (fun loss => ?_)
    { s with run := { s.run with ec := { s.run.ec with
      l := { s.run.ec.l with multilabels := [] }, pred :=
        { s.run.ec.pred with a_s := [], multilabels := [] } } } } hweight
  refine Call.Quiet.bind (F := fun _ => Weighs w) (fun _ hs => hs) fun _ => ?_
  refine .bind (F := fun _ => Weighs w) ?_ fun pred => fun s' hs' => ⟨rfl, hs'⟩
  unfold predict_labels
  split
  · exact predict_top_k_keeps
  · exact predict_threshold_keeps

end Predict

end Keeps

section Returns

variable {W R : Type} [Field R] {p : Plt R} {order : SetOrder} {sigmoid : R → R}
  {base : BaseLearner (R × W) R}

/-- There is a time for every node. -/
def Timed (p : Plt R) (s : PltState W R) : Prop := s.data.nodes_time.length = p.t

theorem learn_node_returns {n : Nat} (hn : n < p.t) {T : PltState W R → Prop} :
    (learn_node base n).Finishes (Timed p) (fun _ => Timed p) T := by
  intro s hs
  have hlt : n < s.data.nodes_time.length := by
    rw [hs]
    exact hn
  unfold learn_node
  have hdata : get_data s = .returned s.data s := rfl
  have hec : on_run (W := W) get_ec s = .returned s.run.ec s := rfl
  rw [Call.bind_run, hdata]
  dsimp only
  rw [Call.bind_run, hec]
  dsimp only
  rw [getElem?_eq_getElem hlt]
  exact length_set.trans hs

theorem each_node_returns {visit : Nat → Call (PltState W R) R} {nodes : List Nat × List Nat}
    {T : PltState W R → Prop}
    (hvisit : ∀ n < p.t, (visit n).Finishes (Timed p) (fun _ => Timed p) T)
      (hpositive : ∀ n ∈ nodes.1, n < p.t)
    (hnegative : ∀ n ∈ nodes.2, n < p.t) :
      (each_node visit nodes).Finishes (Timed p) (fun _ => Timed p) T := by
  have hpass : ∀ (ns : List Nat) (loss : R), (∀ n ∈ ns, n < p.t) → (ns.foldlM (fun loss n => do
      let l ← visit n
      pure (loss + l)) loss).Finishes (Timed p) (fun _ => Timed p) T := fun ns loss hns =>
    .foldlM (F := fun _ => Timed p)
      (fun n hn _ => (hvisit n (hns n hn)).bind fun _ => .pure fun _ hs => hs) loss
  refine .bind (F := fun _ => Timed p) (fun _ hs => hs) fun _ => ?_
  refine .bind (F := fun _ => Timed p) (fun _ hs => hs) fun _ =>
    (hpass _ _ hpositive).bind fun loss => ?_
  exact .bind (F := fun _ => Timed p) (fun _ hs => hs) fun _ => hpass _ _ hnegative

theorem learn_returns (ht : 0 < p.t) {s : PltState W R} (hs : Timed p s) :
    ∃ s', learn p order base s = .returned () s' := by
  obtain ⟨hpositive, hnegative⟩ := (@get_nodes_to_update_lt _ _ order) ht s.run.ec.l.multilabels
  have hmoved : Timed p { s with run := { s.run with ec := { s.run.ec with
      l := { s.run.ec.l with multilabels := [] }, pred :=
        { s.run.ec.pred with a_s := [], multilabels := [] } } } } := hs
  obtain ⟨loss, s₁, hrun, -⟩ :=
    (each_node_returns (fun n hn => (@learn_node_returns _ _ _ _ base _) hn) hpositive hnegative :
    Call.Finishes _ _ _ fun _ => False).returns hmoved
  refine ⟨{ s₁ with run := { s₁.run with
      weights := (s.run.weights.1, s₁.run.weights.2)
      ec := { s₁.run.ec with
        loss := loss, pred := { s.run.ec.pred with }, l :=
          { s₁.run.ec.l with multilabels := s.run.ec.l.multilabels } } } }, ?_⟩
  unfold learn
  show (each_node (learn_node base) (get_nodes_to_update p order s.run.ec.l.multilabels) >>= _) _ =
    _
  rw [Call.bind_run, hrun]
  rfl

variable [LinearOrder R]

/-- A node with the product of halves. -/
def halved (kary : Nat) (q : Node R) : Node R := ⟨q.n, product kary (fun _ => 1 / 2) q.n⟩

omit [LinearOrder R] in
theorem halved_children {kary : Nat} {prob : Nat → R} {q : Node R} :
    (children_of kary prob q).map (halved kary) = children_of kary (fun _ => 1 / 2)
      (halved kary q) := by
  unfold children_of
  rw [map_map]
  refine map_congr_left fun i hi => ?_
  have hparent := parent_child (n := q.n) (mem_range.mp hi)
  show Node.mk (kary * q.n + 1 + i) (product kary (fun _ => 1 / 2) (kary * q.n + 1 + i)) =
    Node.mk (kary * q.n + 1 + i) (product kary (fun _ => 1 / 2) q.n * (1 / 2))
  rw [product_of_parent hparent]

/-- With any answers the same nodes are reached, whatever their probabilities. -/
theorem halved_best (hkary : 0 < p.kary) : BestInvariant p sigmoid (fun _ _ => True)
    fun queue labels => Frontier p.kary p.ti (fun _ => 1 / 2) (fun _ => True)
      (queue.map (halved p.kary)) labels where
  root _ _ := frontier_root
  perm h hperm := h.perm (hperm.map (halved p.kary))
  expand {q rest labels answers} _ h hq := by
    have hexpanded := h.expand hkary (fun _ _ _ _ => trivial) hq
      (children_of p.kary (fun _ => 1 / 2) (halved p.kary q)) []
        (fun c hc => by rwa [append_nil] at hc)
      (by rw [append_nil]; exact children_of_nodup) (fun c hc => absurd hc not_mem_nil)
      fun c hc _ => by rwa [append_nil]
    rwa [map_nil, append_nil, ← (@halved_children _ _ _ (fun i => sigmoid (answers i)) _),
      ← map_append] at hexpanded
  emit h hq _ := h.emit hq trivial

theorem predict_returns {heap : Heap R} {k : Nat} (hk : 2 ≤ k) (hkary : 2 ≤ p.kary)
    (hsized : Sized k p.kary p.t p.ti) (hp : p.k = k) {s : PltState W R}
    (hs : Asks (p.kary * p.ti + 1) s)
    (hlabels : p.top_k ≤ k ∨ ∀ l ∈ s.run.ec.l.multilabels, k ≤ l)
    (hfuel : potential p.kary p.ti 0 < fuel) :
    ∃ s', predict p order sigmoid base heap fuel s = .returned () s' := by
  have hti := hsized.inner_pos hk
  have hlast := (@Sized.mul_inner_eq _ p.ti) hkary
  have hnodes := hsized.nodes
  have henough := hsized.enough
  obtain ⟨pred, s₁, hpred, hasks, hpredict⟩ := (@predict_run _ _ _ _ _ order sigmoid base heap)
    (by omega : 0 < p.t) (by omega : p.t ≤ p.kary * p.ti + 1) hs
  rw [hpredict fuel]
  unfold predict_labels
  by_cases htop_k : 0 < p.top_k
  · rw [if_pos htop_k]
    obtain ⟨pred', s₂, queue, hrun, hfrontier, -, hdone, hasks'⟩ :=
      (@predict_top_k_run _ _ _ _ _ sigmoid base heap) (halved_best (by omega))
        (fun _ _ _ => trivial) htop_k hfuel hpred (true_labels p s.run.ec.l.multilabels) hasks
    have hcount : true_labels p s.run.ec.l.multilabels = [] ∨
        p.top_k ≤ pred'.multilabels.length := by
      rcases hlabels with hle | hnone
      · right
        rcases hdone with hall | rfl
        · exact le_of_eq hall.symm
        · have hleaves := hfrontier.leaf_count_le (by omega)
          unfold leaf_count at hleaves
          omega
      · left
        rw [true_labels_eq_nil, hp]
        exact hnone
    obtain ⟨_, s₃, hevaluate, -⟩ :=
      (evaluate_top_k_asks hcount : Call.Finishes _ _ _ fun _ => False).returns hasks'
    rw [Call.bind_run, hrun, Call.bind_run, hevaluate]
    exact ⟨_, rfl⟩
  · rw [if_neg htop_k]
    obtain ⟨pred', s₂, hrun, -⟩ :=
      (@predict_threshold_run _ _ _ _ _ sigmoid base (fun _ _ => True) fun _ _ => True)
        ⟨fun _ _ _ => trivial, fun _ _ _ => trivial, fun _ _ _ => trivial⟩
        (fun _ _ _ => trivial) hti hfuel hpred (true_labels p s.run.ec.l.multilabels) hasks
    rw [Call.bind_run, hrun]
    exact ⟨_, rfl⟩

end Returns

end VW.LabelTree

/-! ## All tree reductions -/

namespace VW.Trees

variable {R : Type}

/-- Whenever the call returns, the label and the weight are what they were. -/
def GivesBack {S A L : Type} (call : Nat → Call S A) (label : S → L) (weight : S → R) : Prop :=
  ∀ fuel s a s', call fuel s = .returned a s' → label s' = label s ∧ weight s' = weight s

/-- The call returns. -/
def Returns {S A : Type} (call : Nat → Call S A) (P : S → Prop) : Prop :=
  ∀ s, P s → ∃ m, ∀ fuel ≥ m, ∃ a s', call fuel s = .returned a s'

/-- The tree reductions, with their sizes. -/
inductive TreeReduction where
  | ect (k errors : Nat)
  | offset_tree (num_actions : Nat)
  | cats_tree (num_actions bandwidth : Nat)
  | plt (k kary top_k : Nat)

variable (R) [Field R] [LinearOrder R]

/-- Learning and prediction return, on labels within the range, and give the example back. The
    learner below the offset tree scores two actions. -/
def TreeReduction.Restores : TreeReduction → Prop
  | ect k errors => ∀ (e : Tournament.Ect),
      Ends (fun fuel => Tournament.create_circuit fuel k errors) e →
    ∀ (W : Type) (class_boundary : R) (base : BaseLearner W R),
      let P (s : State W R) : Prop := s.asked = [] ∧ 1 ≤ s.ec.l.multi.label ∧ s.ec.l.multi.label ≤ k
      GivesBack (Tournament.learn e class_boundary base) (fun s => s.ec.l.multi)
        (fun s => s.ec.weight) ∧
      GivesBack (Tournament.predict e class_boundary base) (fun s => s.ec.l.multi)
        (fun s => s.ec.weight) ∧
      Returns (Tournament.learn e class_boundary base) P ∧
        Returns (Tournament.predict e class_boundary base) P
  | offset_tree num_actions => ∀ (t : OffsetTree.MinDepthBinaryTree),
      Ends (fun fuel => OffsetTree.build_tree fuel num_actions) t →
    ∀ (W : Type) (base : BaseLearner W R) (scores : List R),
      let P (s : State W R) : Prop := OffsetTree.TwoScores base ∧
        ∃ cost, s.ec.l.cb.costs.head? = some cost ∧ 1 ≤ cost.action ∧ cost.action ≤ num_actions
      GivesBack (fun fuel => OffsetTree.learn t base fuel scores) (fun s => s.ec.l.cb)
        (fun s => s.ec.weight) ∧
      GivesBack (fun _ => OffsetTree.predict t base scores) (fun s => s.ec.l.cb)
        (fun s => s.ec.weight) ∧
      Returns (fun fuel => OffsetTree.learn t base fuel scores) P ∧
        Returns (fun _ => OffsetTree.predict t base scores) P
  | cats_tree num_actions bandwidth => ∀ (W : Type) (random_draw : R) (base : BaseLearner W R),
      let t := CatsTree.build_tree num_actions bandwidth
      let P (s : State W R) : Prop := s.ec.l.cb.costs ≠ [] ∧ ∀ cost ∈ s.ec.l.cb.costs,
        1 ≤ cost.action ∧ cost.action ≤ num_actions
      GivesBack (fun _ => CatsTree.learn t random_draw base) (fun s => s.ec.l.cb)
        (fun s => s.ec.weight) ∧
      GivesBack (CatsTree.predict t base) (fun s => s.ec.l.cb) (fun s => s.ec.weight) ∧
      Returns (fun _ => CatsTree.learn t random_draw base) P ∧ Returns (CatsTree.predict t base) P
  | plt k kary top_k =>
      ∀ (W : Type) (threshold : R) (probabilities : Bool) (order : LabelTree.SetOrder)
      (sigmoid : R → R)
      (base : BaseLearner (R × W) R) (heap : LabelTree.Heap R),
      let p := LabelTree.plt_tree k kary top_k threshold probabilities
      let P (s : LabelTree.PltState W R) : Prop :=
        2 ≤ k ∧ 2 ≤ kary ∧ s.data.nodes_time.length = p.t ∧
        s.run.asked = [] ∧ s.data.queued = [] ∧ (top_k ≤ k ∨ ∀ l ∈ s.run.ec.l.multilabels, k ≤ l)
      GivesBack (fun _ => LabelTree.learn p order base) (fun s => s.run.ec.l.multilabels)
        (fun s => s.run.ec.weight) ∧
      GivesBack (LabelTree.predict p order sigmoid base heap) (fun s => s.run.ec.l.multilabels)
        (fun s => s.run.ec.weight) ∧
      Returns (fun _ => LabelTree.learn p order base) P ∧
        Returns (LabelTree.predict p order sigmoid base heap) P

/-- There are no queries between tournaments. -/
def TreeReduction.NoQueries : TreeReduction → Prop
  | ect k errors => errors = 0 ∨ k ≤ 1
  | _ => True

variable {R}

theorem ect_restores {k errors : Nat} (h : errors = 0 ∨ k ≤ 1) :
    (TreeReduction.ect k errors).Restores R := by
  intro e hcreated W boundary base P
  -- one label or none, or at least two
  by_cases hk : 2 ≤ k
  · obtain ⟨e', rfl, rfl, hbuilt, hends⟩ := Tournament.create_circuit_built k errors hk
    obtain rfl := hcreated.unique hends
    have hheight : e.tree_height = 0 := by
      rw [hbuilt.tree_height, h.resolve_right (by omega)]
      rfl
    refine ⟨fun fuel s a s' hrun => Tournament.learn_keeps (.inr hheight) hrun,
      fun fuel s a s' hrun => Tournament.predict_keeps.of_returned ⟨rfl, rfl⟩ hrun,
      fun s hs => ⟨e.circuit.size,
        fun fuel hfuel => ⟨(), Tournament.learn_returns hbuilt hfuel hs.1⟩⟩,
      fun s hs => ⟨e.circuit.size,
        fun fuel hfuel => ⟨(), Tournament.predict_returns hbuilt hfuel hs.1⟩⟩⟩
  · have he : e.k = k := by
      obtain ⟨m, hm⟩ := hcreated
      have hrun := hm m (le_refl m)
      unfold Tournament.create_circuit at hrun
      dsimp only at hrun
      split at hrun
      · cases hrun
        rfl
      · obtain ⟨circuit, -, hrun⟩ := Option.bind_eq_some_iff.mp hrun
        cases hrun
        rfl
    have hone : ∀ s, P s → e.k = 1 := fun s hs => by omega
    refine ⟨fun fuel s a s' hrun => Tournament.learn_keeps (.inl (by omega)) hrun,
      fun fuel s a s' hrun => Tournament.predict_keeps.of_returned ⟨rfl, rfl⟩ hrun,
      fun s hs => ⟨0, fun fuel _ => ⟨(), ?_⟩⟩, fun s hs => ⟨0, fun fuel _ => ⟨(), ?_⟩⟩⟩
    · unfold Tournament.learn Tournament.ect_train
      rw [if_pos (hone s hs)]
      exact ⟨_, by
        show (if s.ec.l.multi.label = 2 ^ 32 - 1 then _ else _ : Call (State W R) Unit) s = _
        split <;> rfl⟩
    · unfold Tournament.predict Tournament.ect_predict
      rw [if_pos (hone s hs)]
      exact ⟨_, rfl⟩

theorem offset_tree_restores (num_actions : Nat) :
    (TreeReduction.offset_tree num_actions).Restores R := by
  intro t hbuilt W base scores P
  have htree : 1 ≤ num_actions → OffsetTree.Built num_actions t := by
    intro hpositive
    obtain ⟨m, hm⟩ := hbuilt
    obtain ⟨t', hrun, hbuilt'⟩ :=
      (@OffsetTree.build_tree_built _ (max m num_actions)) hpositive (le_max_right _ _)
    have hend : OffsetTree.build_tree (max m num_actions) num_actions = some t :=
      hm _ (le_max_left _ _)
    rw [hend] at hrun
    cases hrun
    exact hbuilt'
  refine ⟨fun fuel s a s' hrun => OffsetTree.learn_keeps.of_returned ⟨rfl, rfl⟩ hrun,
    fun fuel s a s' hrun => OffsetTree.predict_keeps.of_returned ⟨rfl, rfl⟩ hrun, fun s hs => ?_,
      fun s hs => ?_⟩
  · obtain ⟨hbase, cost, hcost, hone, hle⟩ := hs
    refine ⟨t.nodes.length + 1, fun fuel hfuel => ?_⟩
    obtain ⟨a, s', hrun, -⟩ :=
      (OffsetTree.learn_returns (htree (by omega)) hbase hfuel hcost hle (by omega) :
      (OffsetTree.learn t base fuel scores).Finishes _ _ fun _ => False).returns (s := s) ⟨rfl, rfl⟩
    exact ⟨a, s', hrun⟩
  · obtain ⟨hbase, cost, hcost, hone, hle⟩ := hs
    refine ⟨0, fun fuel _ => ?_⟩
    obtain ⟨a, s', hrun, -⟩ := (OffsetTree.predict_returns (htree (by omega)) hbase :
      (OffsetTree.predict t base scores).Finishes _ _ fun _ => False).returns (s := s) trivial
    exact ⟨a, s', hrun⟩

theorem cats_tree_restores (num_actions bandwidth : Nat) :
    (TreeReduction.cats_tree num_actions bandwidth).Restores R := by
  intro W draw base t P
  have hpositive : ∀ s, P s → 0 < num_actions := by
    intro s ⟨hne, hactions⟩
    obtain ⟨cost, hcost⟩ := List.exists_mem_of_ne_nil _ hne
    have hrange := hactions cost hcost
    omega
  refine ⟨fun fuel s a s' hrun => CatsTree.learn_keeps.of_returned ⟨rfl, rfl⟩ hrun,
    fun fuel s a s' hrun => CatsTree.predict_keeps.of_returned ⟨rfl, rfl⟩ hrun, fun s hs => ?_,
      fun s hs => ?_⟩
  · exact ⟨0, fun fuel _ => ⟨(), CatsTree.learn_returns (hpositive s hs) hs.1⟩⟩
  · exact ⟨t.nodes.length + 1,
      fun fuel hfuel => ⟨(), CatsTree.predict_returns (hpositive s hs) hfuel s⟩⟩

theorem plt_restores [IsStrictOrderedRing R] (k kary top_k : Nat) :
    (TreeReduction.plt k kary top_k).Restores R := by
  intro W threshold probabilities order sigmoid base heap p P
  refine ⟨fun fuel s a s' hrun => LabelTree.learn_keeps.of_returned ⟨rfl, rfl⟩ hrun,
    fun fuel s a s' hrun => LabelTree.predict_keeps.of_returned ⟨rfl, rfl⟩ hrun, fun s hs => ?_,
      fun s hs => ?_⟩
  · obtain ⟨hk, hkary, htimes, -⟩ := hs
    have hsized : LabelTree.Sized k kary p.t p.ti := LabelTree.plt_tree_sized hk hkary
    have hnodes := hsized.nodes
    exact ⟨0, fun fuel _ => ⟨(), LabelTree.learn_returns (by omega) htimes⟩⟩
  · obtain ⟨hk, hkary, -, hasked, hqueued, hlabels⟩ := hs
    have hsized : LabelTree.Sized k kary p.t p.ti := LabelTree.plt_tree_sized hk hkary
    have hasks : LabelTree.Asks (p.kary * p.ti + 1) s := by
      refine ⟨fun a ha => ?_, fun m hm => ?_⟩
      · rw [hasked] at ha
        cases ha
      · rw [hqueued] at hm
        cases hm
    exact ⟨LabelTree.potential p.kary p.ti 0 + 1, fun fuel hfuel =>
      ⟨(), LabelTree.predict_returns hk hkary hsized rfl hasks hlabels hfuel⟩⟩

/-- A query is what keeps a tree reduction from giving the example back. -/
theorem restores_iff [IsStrictOrderedRing R] (r : TreeReduction) : r.Restores R ↔ r.NoQueries := by
  cases r with
  | ect k errors =>
    refine ⟨fun hrestores => ?_, ect_restores⟩
    by_contra hqueries
    obtain ⟨herrors, hk⟩ := not_or.mp hqueries
    obtain ⟨e, rfl, rfl, hbuilt, hends⟩ := Tournament.create_circuit_built k errors (by omega)
    obtain ⟨s', hrun, hweight⟩ :=
      (@Tournament.learn_loses_weight _ _ _ _ _ ((0 : R))) hbuilt herrors
    obtain ⟨hlearn, -⟩ := hrestores e hends Unit 0 (Tournament.loses_once e 0)
    exact hweight (hlearn _ _ _ _ hrun).2
  | offset_tree num_actions => exact iff_of_true (offset_tree_restores num_actions) trivial
  | cats_tree num_actions bandwidth =>
      exact iff_of_true (cats_tree_restores num_actions bandwidth) trivial
  | plt k kary top_k => exact iff_of_true (plt_restores k kary top_k) trivial

/-- Three classes and no error. -/
theorem restores_iff_ect : (TreeReduction.ect 3 0).Restores ℚ ↔ (TreeReduction.ect 3 0).NoQueries :=
  restores_iff (TreeReduction.ect 3 0)

/-- With two labels and one error there is a query. -/
theorem ect_not_restored : ¬ (TreeReduction.ect 2 1).Restores ℚ := by
  intro hrestores
  obtain ⟨e, -, herrors, hbuilt, hends⟩ := Tournament.create_circuit_built 2 1 (by decide)
  obtain ⟨s', hrun, hweight⟩ :=
    (@Tournament.learn_loses_weight _ _ _ _ _ ((0 : ℚ))) hbuilt (by omega)
  obtain ⟨hlearn, -⟩ := hrestores e hends Unit 0 (Tournament.loses_once e 0)
  exact hweight (hlearn _ _ _ _ hrun).2

end VW.Trees
