import VowpalWabbit.Trees.OffsetTree
import VowpalWabbit.Framework.PairedTrees

/-! # The offset tree as a tree

    The rounds of the offset tree give every node but the last one a parent, and the last one is the
    root. The scores of a prediction are the products of the scores on the way from the root, and
    learning walks the way up.
-/

open Cpp VW.Trees

namespace VW.OffsetTree

open List MinDepthBinaryTree Call

/-! ## The tree that is built -/

/-- Besides what `Linked` says: the nodes are counted, and parents and children agree. -/
structure Played (k : Nat) (waiting : List Nat) (nodes : List TreeNode) : Prop where
  count : nodes.length + waiting.length = 2 * k
  nodup : waiting.Nodup
  sides : ∀ n (v : TreeNode), nodes[n]? = some v → k ≤ n → v.left_id ≠ v.right_id ∧
    v.left_id ∉ waiting ∧ v.right_id ∉ waiting
  below : ∀ n (v : TreeNode), nodes[n]? = some v → k ≤ n → ∀ c (w : TreeNode), c = v.left_id ∨ c = v.right_id →
    nodes[c]? = some w → w.parent_id = n
  above : ∀ n (v : TreeNode), nodes[n]? = some v → n ∉ waiting → ∃ p, nodes[v.parent_id]? = some p ∧
    k ≤ v.parent_id ∧
    (p.left_id = n ∨ p.right_id = n)

section Played

variable {k left right : Nat} {waiting new : List Nat} {nodes : List TreeNode}

/-- A node stays when a pair is made, with its children. -/
theorem get_pair_of_get {n : Nat} {old : TreeNode} (h : nodes[n]? = some old) :
    ∃ v, (pair left right (nodes, new)).1[n]? = some v ∧ v.left_id = old.left_id ∧ v.right_id = old.right_id := by
  have hlt := (List.getElem?_eq_some_iff.mp h).1
  have hlt' : n < (pair left right (nodes, new)).1.length := by
    rw [length_pair]
    omega
  have hget := getElem?_eq_getElem hlt'
  refine ⟨_, hget, ?_⟩
  rcases get_pair hget with ⟨old', hold, -, -, hleft, hright, -⟩ | ⟨hn, -⟩
  · rw [h] at hold
    cases hold
    exact ⟨hleft, hright⟩
  · omega

theorem get_pair_new :
    (pair left right (nodes, new)).1[nodes.length]? =
    some ⟨nodes.length, left, right, 0, false⟩ := by
  unfold pair
  rw [getElem?_append_right (by rw [length_modify, length_modify]), length_modify,
    length_modify, Nat.sub_self]
  rfl

theorem Played.pair (hlinked : Linked k (left :: right :: waiting) nodes)
    (h : Played k (left :: right :: waiting) nodes) :
    Played k (waiting ++ [nodes.length]) (pair left right (nodes, new)).1 := by
  have hleft := hlinked.waiting left mem_cons_self
  have hright := hlinked.waiting right (mem_cons_of_mem _ mem_cons_self)
  have hleaves := hlinked.leaves
  have hcount := h.count
  obtain ⟨hleft_new, hright_new, hnodup⟩ : left ∉ right :: waiting ∧ right ∉ waiting ∧ waiting.Nodup :=
    ⟨(nodup_cons.mp h.nodup).1, nodup_cons.mp (nodup_cons.mp h.nodup).2⟩
  rw [mem_cons, not_or] at hleft_new
  have hold_waiting : ∀ n ∈ waiting, n < nodes.length := fun n hn =>
    hlinked.waiting n (mem_cons_of_mem _ (mem_cons_of_mem _ hn))
  have hnot_waiting : ∀ n < nodes.length, n ∉ waiting → n ∉ waiting ++ [nodes.length] := by
    intro n hlt hn hmem
    rcases mem_append.mp hmem with hmem | hmem
    · exact hn hmem
    · exact absurd (mem_singleton.mp hmem) (by omega)
  refine ⟨?_, ?_, fun n v hget hn => ?_, fun n v hget hn c w hc hw => ?_, fun n v hget hn => ?_⟩
  · rw [length_pair, length_append, length_singleton]
    simp only [length_cons] at hcount
    omega
  · rw [nodup_append]
    refine ⟨hnodup, nodup_singleton _, fun a ha b hb => ?_⟩
    have hlt := hold_waiting a ha
    rw [mem_singleton.mp hb]
    omega
  · rcases get_pair hget with ⟨old, hold, -, -, hl, hr, -⟩ | ⟨rfl, rfl⟩
    · obtain ⟨hne, hleft_old, hright_old⟩ := h.sides n old hold hn
      obtain ⟨hlt_left, hlt_right⟩ := hlinked.children n old hold hn
      have hlt := (List.getElem?_eq_some_iff.mp hold).1
      rw [hl, hr]
      refine ⟨hne, hnot_waiting _ (by omega) fun hmem => ?_, hnot_waiting _ (by omega) fun hmem => ?_⟩
      · exact hleft_old (mem_cons_of_mem _ (mem_cons_of_mem _ hmem))
      · exact hright_old (mem_cons_of_mem _ (mem_cons_of_mem _ hmem))
    · exact ⟨hleft_new.1, hnot_waiting left hleft hleft_new.2, hnot_waiting right hright hright_new⟩
  · rcases get_pair hget with ⟨old, hold, -, -, hl, hr, -⟩ | ⟨rfl, rfl⟩
    · rw [hl, hr] at hc
      obtain ⟨-, hleft_old, hright_old⟩ := h.sides n old hold hn
      obtain ⟨hlt_left, hlt_right⟩ := hlinked.children n old hold hn
      have hlt := (List.getElem?_eq_some_iff.mp hold).1
      rcases get_pair hw with ⟨old_child, hold_child, -, -, -, -, hparent⟩ | ⟨rfl, -⟩
      · -- a child of an old node does not wait, so that it is none of the pair
        have hnot : ¬ (c = left ∨ c = right) := by
          rintro (rfl | rfl) <;> rcases hc with hc | hc <;> simp [hc] at hleft_old hright_old
        rw [hparent, if_neg hnot]
        exact h.below n old hold hn c old_child hc hold_child
      · rcases hc with hc | hc <;> omega
    · rcases get_pair hw with ⟨old_child, hold_child, -, -, -, -, hparent⟩ | ⟨rfl, -⟩
      · rw [hparent, if_pos hc]
      · rcases hc with hc | hc <;> simp at hc <;> omega
  · rcases get_pair hget with ⟨old, hold, -, -, -, -, hparent⟩ | ⟨rfl, -⟩
    · by_cases hpaired : n = left ∨ n = right
      · rw [if_pos hpaired] at hparent
        rw [hparent]
        exact ⟨_, get_pair_new, hleaves, hpaired.imp Eq.symm Eq.symm⟩
      · rw [if_neg hpaired] at hparent
        rw [not_or] at hpaired
        have hwaiting : n ∉ left :: right :: waiting := by
          rw [mem_cons, mem_cons, not_or, not_or]
          exact ⟨hpaired.1, hpaired.2, fun hmem => hn (mem_append_left _ hmem)⟩
        obtain ⟨p, hp, hk, hchild⟩ := h.above n old hold hwaiting
        obtain ⟨p', hp', hl, hr⟩ := @get_pair_of_get left right new nodes _ _ hp
        rw [hparent]
        exact ⟨p', hp', hk, by rwa [hl, hr]⟩
    · exact absurd (mem_append_right _ (mem_singleton_self _)) hn

theorem Played.congr {waiting' : List Nat} (h : Played k waiting nodes) (hperm : waiting.Perm waiting') :
    Played k waiting' nodes where
  count := by rw [← hperm.length_eq]; exact h.count
  nodup := hperm.nodup_iff.mp h.nodup
  sides := fun n v hget hn => by
    rw [← hperm.mem_iff, ← hperm.mem_iff]
    exact h.sides n v hget hn
  below := h.below
  above := fun n v hget hn => h.above n v hget fun hmem => hn (hperm.mem_iff.mp hmem)

theorem Played.play_round {tournaments : List Nat} (hlinked : Linked k (tournaments ++ new) nodes)
    (h : Played k (tournaments ++ new) nodes) :
    Played k (play_round tournaments (nodes, new)).2 (play_round tournaments (nodes, new)).1 := by
  induction tournaments using List.twoStepInduction generalizing nodes new with
  | nil => exact h
  | singleton back => exact h.congr (@perm_append_comm _ [back] _)
  | cons_cons left right tournaments ih _ =>
    have hpaired : Played k (tournaments ++ (new ++ [nodes.length]))
      (OffsetTree.pair left right (nodes, new)).1 := by
      rw [← append_assoc]
      exact Played.pair hlinked h
    refine ih ?_ hpaired
    rw [← append_assoc]
    exact Linked.pair hlinked

theorem Played.play_rounds {tournaments : List Nat} {fuel : Nat} (hlinked : Linked k tournaments nodes)
    (h : Played k tournaments nodes) {nodes' : List TreeNode} {left_over : List Nat}
    (hrun : play_rounds fuel tournaments nodes = some (nodes', left_over)) :
    Linked k left_over nodes' ∧ Played k left_over nodes' := by
  induction fuel generalizing tournaments nodes with
  | zero => cases hrun
  | succ fuel ih =>
    rw [play_rounds] at hrun
    split at hrun
    · have hlinked' : Linked k (tournaments ++ []) nodes := by rwa [append_nil]
      have h' : Played k (tournaments ++ []) nodes := by rwa [append_nil]
      exact ih (Linked.play_round hlinked').1 (Played.play_round hlinked' h') hrun
    · cases hrun
      exact ⟨hlinked, h⟩

end Played

/-- The members of a node, by its number. -/
def MinDepthBinaryTree.left (t : MinDepthBinaryTree) (n : Nat) : Nat := (t.nodes[n]?.map TreeNode.left_id).getD 0

def MinDepthBinaryTree.right (t : MinDepthBinaryTree) (n : Nat) : Nat := (t.nodes[n]?.map TreeNode.right_id).getD 0

def MinDepthBinaryTree.parent (t : MinDepthBinaryTree) (n : Nat) : Nat := (t.nodes[n]?.map TreeNode.parent_id).getD 0

/-- What `build_tree` makes: a tree of all its nodes, with the last one as its only root. -/
structure Complete (k : Nat) (t : MinDepthBinaryTree) : Prop where
  built : Built k t
  length : t.nodes.length = 2 * k - 1
  root : t.root_idx = 2 * k - 2
  tree : Paired.Tree k t.root_idx t.left t.right t.parent

theorem Played.start {k : Nat} :
    Played k (range k) ((range k).map fun i : Nat => TreeNode.mk i 0 0 0 true) := by
  refine ⟨?_, nodup_range, fun n v hget hn => ?_, fun n v hget hn => ?_, fun n v hget hn => ?_⟩
  · rw [length_map, length_range]
    omega
  · exact absurd (get_leaves hget).1 (by omega)
  · exact absurd (get_leaves hget).1 (by omega)
  · exact absurd (mem_range.mpr (get_leaves hget).1) hn

variable {fuel : Nat}

theorem build_tree_complete {k : Nat} {t : MinDepthBinaryTree} (hk : 1 ≤ k) (hfuel : k ≤ fuel)
    (ht : build_tree fuel k = some t) : Complete k t := by
  have hbuilt : Built k t := by
    obtain ⟨t', ht', hbuilt⟩ := build_tree_built hk hfuel
    rw [ht] at ht'
    cases ht'
    exact hbuilt
  obtain ⟨nodes, hrun, -, hbuild⟩ := play_rounds_run hk hfuel
  obtain ⟨hlinked, hplayed⟩ := Played.play_rounds (Linked.start k) Played.start hrun
  rw [ht] at hbuild
  cases hbuild
  have hcount := hplayed.count
  simp only [length_singleton] at hcount
  -- the nodes before the last one are as the rounds made them
  set root := nodes.length - 1 with hroot
  set modified := nodes.modify root fun node => { node with parent_id := root } with hmodified
  have hlength : modified.length = nodes.length := length_modify ..
  have hget : ∀ n < nodes.length, ∃ v old, modified[n]? = some v ∧ nodes[n]? = some old ∧ v.left_id = old.left_id ∧
      v.right_id = old.right_id ∧ v.parent_id = if n = root then root else old.parent_id := by
    intro n hn
    have hv := getElem?_eq_getElem (show n < modified.length by omega)
    obtain ⟨old, hold, -, -, hrest⟩ := get_rooted hv
    exact ⟨_, old, hv, hold, hrest⟩
  have hinner : ∀ n, k ≤ n → n ≤ root → ∃ old : TreeNode, nodes[n]? = some old ∧
      (mk modified k root).left n = old.left_id ∧
      (mk modified k root).right n = old.right_id := by
    intro n hk hn
    obtain ⟨v, old, hv, hold, hl, hr, -⟩ := hget n (by omega)
    refine ⟨old, hold, ?_, ?_⟩
    · simp [left, hv, hl]
    · simp [right, hv, hr]
  have hparent : ∀ n < root, ∃ old : TreeNode, nodes[n]? = some old ∧
      (mk modified k root).parent n = old.parent_id := by
    intro n hn
    obtain ⟨v, old, hv, hold, -, -, hp⟩ := hget n (by omega)
    refine ⟨old, hold, ?_⟩
    rw [if_neg (by omega)] at hp
    simp [parent, hv, hp]
  have hchild : ∀ n, k ≤ n → n ≤ root → ∀ c, c < n → ∀ old : TreeNode, nodes[n]? = some old →
      c = old.left_id ∨ c = old.right_id → (mk modified k root).parent c = n := by
    intro n hk hn c hc old hold hside
    obtain ⟨old_child, hold_child, hp⟩ := hparent c (by omega)
    rw [hp]
    exact hplayed.below n old hold hk c old_child hside hold_child
  have habove : ∀ n < root, n < (mk modified k root).parent n ∧
      (mk modified k root).parent n ≤ root := by
    intro n hn
    obtain ⟨old, hold, hp⟩ := hparent n hn
    rcases hlinked.parent n old hold with hmem | hlater
    · exact absurd (mem_singleton.mp hmem) (by omega)
    · omega
  have hside : ∀ n < root, k ≤ (mk modified k root).parent n ∧
      ((mk modified k root).left ((mk modified k root).parent n) = n ∨
        (mk modified k root).right ((mk modified k root).parent n) = n) := by
    intro n hn
    have hle := (habove n hn).2
    obtain ⟨old, hold, hp⟩ := hparent n hn
    obtain ⟨p, hget_parent, hk, hsides⟩ := hplayed.above n old hold fun hmem => by
      exact absurd (mem_singleton.mp hmem) (by omega)
    rw [hp] at hle ⊢
    obtain ⟨p', hp', hl, hr⟩ := hinner old.parent_id hk hle
    rw [hget_parent] at hp'
    cases hp'
    exact ⟨hk, by rwa [hl, hr]⟩
  refine ⟨hbuilt, by rw [hlength]; omega, show root = 2 * k - 2 by omega,
    ⟨fun n hk hn => ?_, fun n hk hn => ?_, fun n hk hn => ?_, fun n hk hn => ?_, fun n hk hn => ?_,
    fun n hn => (habove n hn).1, fun n hn => (habove n hn).2, fun n hn => (hside n hn).1, fun n hn => (hside n hn).2⟩⟩
  · obtain ⟨old, hold, hl, -⟩ := hinner n hk hn
    rw [hl]
    exact (hlinked.children n old hold hk).1
  · obtain ⟨old, hold, -, hr⟩ := hinner n hk hn
    rw [hr]
    exact (hlinked.children n old hold hk).2
  · obtain ⟨old, hold, hl, hr⟩ := hinner n hk hn
    rw [hl, hr]
    exact (hplayed.sides n old hold hk).1
  · obtain ⟨old, hold, hl, -⟩ := hinner n hk hn
    rw [hl]
    exact hchild n hk hn _ (hlinked.children n old hold hk).1 old hold (.inl rfl)
  · obtain ⟨old, hold, -, hr⟩ := hinner n hk hn
    rw [hr]
    exact hchild n hk hn _ (hlinked.children n old hold hk).2 old hold (.inr rfl)

/-! ## Predictions -/

variable {n : Nat}

section Scores

variable {W R : Type} [Field R] {k : Nat} {t : MinDepthBinaryTree} (f : Nat → R × R)

/-- The product of the scores on the way from the root. -/
noncomputable abbrev MinDepthBinaryTree.share (t : MinDepthBinaryTree) (k n : Nat) : R :=
  Paired.share f k t.root_idx t.left t.right n

/-- What the two arrays hold while the scores of the nodes that are `done` have reached them. -/
structure Scored (k : Nat) (t : MinDepthBinaryTree) (done : Nat → Prop) (s : List (R × R) × List R) : Prop where
  inner_done : ∀ n, k ≤ n → n ≤ t.root_idx → done n →
    s.1[n - k]? = some ((f n).1 * t.share f k n, (f n).2 * t.share f k n)
  inner_waiting : ∀ n, k ≤ n → n ≤ t.root_idx → ¬ done n → s.1[n - k]? = some (f n)
  leaf : ∀ n < k, done n → s.2[n]? = some (t.share f k n)
  scores : s.2.length = k

variable {f}

omit [Field R] in
theorem Complete.get (h : Complete k t) (hn : n ≤ t.root_idx) (hk : 1 ≤ k) :
    ∃ v, t.nodes[n]? = some v ∧ v.id = n ∧ (v.is_leaf = true ↔ n < k) ∧ v.left_id = t.left n ∧
      v.right_id = t.right n ∧
      v.parent_id = t.parent n := by
  have hlength := h.length
  have hroot := h.root
  have hget := getElem?_eq_getElem (show n < t.nodes.length by omega)
  refine ⟨_, hget, h.built.id n _ hget, h.built.leaf n _ hget, ?_, ?_, ?_⟩
  · simp [left, hget]
  · simp [right, hget]
  · simp [parent, hget]

omit [Field R] in
theorem Complete.parent_root (h : Complete k t) (hk : 1 ≤ k) : t.parent t.root_idx = t.root_idx := by
  have hlength := h.length
  have hroot := h.root
  obtain ⟨v, hget, -, -, -, -, hparent⟩ := h.get (Nat.le_refl t.root_idx) hk
  have hv := h.built.parent t.root_idx v hget
  omega

variable {s : List (R × R) × List R} {done : Nat → Prop} {S : Type}

/-- A child gets its scores. -/
theorem Scored.child (h : Complete k t) (hk : 1 ≤ k) (hs : Scored f k t done s) {c : Nat}
    (hc : c ≤ t.root_idx) (hwaits : ¬ done c) :
    ∃ s', (score_child t c (t.share f k c) s : Call S _) = pure s' ∧ Scored f k t (fun n => done n ∨ n = c) s' := by
  obtain ⟨v, hget, -, hleaf, -⟩ := h.get hc hk
  unfold score_child
  rw [node_run hget]
  by_cases hlt : c < k
  · rw [if_pos (hleaf.mpr hlt), if_pos (by rw [hs.scores]; exact hlt)]
    refine ⟨_, rfl, fun n hn hle hdone => ?_, fun n hn hle hdone => ?_, fun n hn hdone => ?_, ?_⟩
    · exact hs.inner_done n hn hle (hdone.resolve_right (by omega))
    · exact hs.inner_waiting n hn hle fun hn => hdone (.inl hn)
    · rw [getElem?_set]
      by_cases hcn : c = n
      · subst hcn
        rw [if_pos rfl, if_pos (by rw [hs.scores]; exact hlt)]
      · rw [if_neg hcn]
        exact hs.leaf n hn (hdone.resolve_right (Ne.symm hcn))
    · rw [length_set]
      exact hs.scores
  · have hinner := hs.inner_waiting c (by omega) hc hwaits
    rw [if_neg (fun hl => hlt (hleaf.mp hl))]
    unfold buffer_at
    rw [h.built.num_leaf_nodes, hinner]
    refine ⟨_, rfl, fun n hn hle hdone => ?_, fun n hn hle hdone => ?_, fun n hn hdone => ?_, hs.scores⟩
    · rw [getElem?_set]
      by_cases hcn : c = n
      · subst hcn
        rw [if_pos rfl, if_pos (List.getElem?_eq_some_iff.mp hinner).1]
      · rw [if_neg (by omega)]
        exact hs.inner_done n hn hle (hdone.resolve_right (Ne.symm hcn))
    · rw [not_or] at hdone
      rw [getElem?_set, if_neg (by omega)]
      exact hs.inner_waiting n hn hle hdone.1
    · exact hs.leaf n hn (hdone.resolve_right (by omega))

/-- A node passes its scores on to its two children. -/
theorem Scored.node (h : Complete k t) (hk : 1 ≤ k) (hs : Scored f k t done s) {v : TreeNode}
    (hget : t.nodes[n]? = some v) (hn : k ≤ n) (hdone : done n) (hleft : ¬ done (t.left n))
    (hright : ¬ done (t.right n)) :
    ∃ s', (score_node t s v : Call S _) = pure s' ∧
      Scored f k t (fun m => (done m ∨ m = t.left n) ∨ m = t.right n) s' := by
  have hle : n ≤ t.root_idx := by
    have hlt := (List.getElem?_eq_some_iff.mp hget).1
    have hlength := h.length
    have hroot := h.root
    omega
  obtain ⟨v', hget', hid, -, hl, hr, -⟩ := h.get hle hk
  rw [hget] at hget'
  cases hget'
  have hlt_left := h.tree.left_lt n hn hle
  have hlt_right := h.tree.right_lt n hn hle
  obtain ⟨hshare_left, hshare_right⟩ := Paired.share_children f h.tree hn hle
  obtain ⟨s₁, hrun₁, hs₁⟩ := Scored.child (S := S) h hk hs (show t.left n ≤ t.root_idx by omega) hleft
  obtain ⟨s₂, hrun₂, hs₂⟩ := Scored.child (S := S) h hk hs₁ (show t.right n ≤ t.root_idx by omega) (by
    rw [not_or]
    exact ⟨hright, Ne.symm (h.tree.sides n hn hle)⟩)
  refine ⟨s₂, ?_, hs₂⟩
  unfold score_node buffer_at
  rw [hid, hl, hr, h.built.num_leaf_nodes, hs.inner_done n hn hle hdone]
  show (score_child t (t.left n) ((f n).1 * t.share f k n) s >>= _ : Call S _) = _
  rw [← hshare_left, hrun₁, pure_bind]
  rw [hs₁.inner_done n hn hle (.inl hdone)]
  show (score_child t (t.right n) ((f n).2 * t.share f k n) s₁ : Call S _) = _
  rw [← hshare_right, hrun₂]

omit [Field R] in
/-- The scan meets the inner nodes, the last one first. -/
theorem Complete.scanned (h : Complete k t) :
    (t.nodes.reverse.takeWhile fun node => ¬ node.is_leaf) = (t.nodes.drop k).reverse := by
  have hleaf : ∀ v ∈ t.nodes.take k, v.is_leaf = true := by
    intro v hv
    obtain ⟨n, hn, hget⟩ := mem_take_iff_getElem.mp hv
    have hget' := getElem?_eq_getElem (show n < t.nodes.length by omega)
    rw [← hget]
    exact (h.built.leaf n _ hget').mpr (by omega)
  have hinner : ∀ v ∈ (t.nodes.drop k).reverse, (fun node : TreeNode => decide ¬ node.is_leaf = true) v = true := by
    intro v hv
    obtain ⟨n, hn, hget⟩ := mem_drop_iff_getElem.mp (mem_reverse.mp hv)
    have hget' := getElem?_eq_getElem (show k + n < t.nodes.length by omega)
    rw [decide_eq_true_eq, ← hget, h.built.leaf (k + n) _ hget']
    omega
  have hstop : (t.nodes.take k).reverse.takeWhile (fun node => ¬ node.is_leaf) = [] := by
    cases hrest : (t.nodes.take k).reverse with
    | nil => rfl
    | cons v rest =>
      have hmem : v ∈ t.nodes.take k := by
        rw [← mem_reverse, hrest]
        exact mem_cons_self
      rw [takeWhile_cons_of_neg]
      simpa using hleaf v hmem
  conv_lhs => rw [← take_append_drop k t.nodes, reverse_append]
  rw [takeWhile_append_of_pos hinner, hstop, append_nil]

/-- The scan brings every leaf the product of the scores on its way. -/
theorem Scored.scan (h : Complete k t) (hk : 2 ≤ k)
    (hs : Scored f k t (fun n => n = t.root_idx) s) :
    ∃ s', ((t.nodes.drop k).reverse.foldlM (score_node t) s : Call S _) = pure s' ∧
      s'.2.length = k ∧ ∀ n < k, s'.2[n]? = some (t.share f k n) := by
  have hlength := h.length
  have hroot := h.root
  -- after the scan of the nodes from `j` on, the children of these have their scores
  have hfrom : ∀ d ≤ k - 1, ∃ s',
    ((t.nodes.drop (t.nodes.length - d)).reverse.foldlM (score_node t) s : Call S _) = pure s' ∧
      Scored f k t (fun n => n = t.root_idx ∨ n < t.root_idx ∧ t.nodes.length - d ≤ t.parent n) s' := by
    intro d
    induction d with
    | zero =>
      intro _
      refine ⟨s, ?_, ?_⟩
      · rw [Nat.sub_zero, drop_length]
        rfl
      · have hdone : (fun n => n = t.root_idx ∨ n < t.root_idx ∧ t.nodes.length - 0 ≤ t.parent n) =
          fun n => n = t.root_idx := by
          funext n
          refine propext ⟨fun hn => hn.resolve_right fun hn => ?_, .inl⟩
          have hle := h.tree.parent_le n hn.1
          omega
        rwa [hdone]
    | succ d ih =>
      intro hd
      obtain ⟨s₁, hrun, hs₁⟩ := ih (by omega)
      obtain ⟨n, hn⟩ : ∃ n, n + 1 = t.nodes.length - d := ⟨t.nodes.length - d - 1, by omega⟩
      have hlt : n < t.nodes.length := by omega
      have hle : n ≤ t.root_idx := by omega
      have hinner : k ≤ n := by omega
      have hlt_left := h.tree.left_lt n hinner hle
      have hlt_right := h.tree.right_lt n hinner hle
      have hparent_left := h.tree.parent_left n hinner hle
      have hparent_right := h.tree.parent_right n hinner hle
      obtain ⟨s₂, hrun₂, hs₂⟩ := Scored.node (S := S) h (by omega) hs₁ (getElem?_eq_getElem hlt) hinner
        (by
          rcases Nat.lt_or_eq_of_le hle with hlt | heq
          · have hlater := h.tree.lt_parent n hlt
            exact .inr ⟨hlt, by omega⟩
          · exact .inl heq)
        (by omega) (by omega)
      refine ⟨s₂, ?_, ?_⟩
      · rw [show t.nodes.length - (d + 1) = n by omega, drop_eq_getElem_cons hlt, reverse_cons,
          foldlM_append, hn, hrun, pure_bind, foldlM_cons, hrun₂, pure_bind, foldlM_nil]
      · have hdone : (fun m => ((m = t.root_idx ∨ m < t.root_idx ∧ t.nodes.length - d ≤ t.parent m) ∨ m = t.left n) ∨
            m = t.right n) = fun m => m = t.root_idx ∨ m < t.root_idx ∧ t.nodes.length - (d + 1) ≤ t.parent m := by
          funext m
          refine propext ⟨?_, ?_⟩
          · rintro (((hm | hm) | hm) | hm)
            · exact .inl hm
            · exact .inr ⟨hm.1, by omega⟩
            · subst hm
              exact .inr ⟨by omega, by omega⟩
            · subst hm
              exact .inr ⟨by omega, by omega⟩
          · rintro (hm | ⟨hm, hparent⟩)
            · exact .inl (.inl (.inl hm))
            · rcases Nat.lt_or_ge (t.parent m) (n + 1) with hnow | hbefore
              · have heq : t.parent m = n := by omega
                have hchild := h.tree.child m hm
                rw [heq] at hchild
                rcases hchild with hchild | hchild
                · exact .inl (.inr hchild.symm)
                · exact .inr hchild.symm
              · exact .inl (.inl (.inr ⟨hm, by omega⟩))
        rwa [hdone] at hs₂
  obtain ⟨s', hrun, hs'⟩ := hfrom (k - 1) (Nat.le_refl _)
  rw [show t.nodes.length - (k - 1) = k by omega] at hrun hs'
  refine ⟨s', hrun, hs'.scores, fun n hn => ?_⟩
  have hlt : n < t.root_idx := by omega
  exact hs'.leaf n hn (.inr ⟨hlt, h.tree.inner n hlt⟩)

/-- The base learner gives the inner node `n` the scores `f n`. -/
def Gives (base : BaseLearner W R) (k : Nat) (f : Nat → R × R) : Prop :=
  ∀ idx ec w, ∃ left right rest, (base.predict idx ec w).1.pred.a_s =
    (left, (f (k + idx)).1) :: (right, (f (k + idx)).2) :: rest

variable {base : BaseLearner W R}

omit [Field R] in
theorem predict_node_gives (hbase : Gives base k f) {idx : Nat} :
    (predict_node base idx).Finishes Any (fun p _ => p = f (k + idx)) fun _ => False := by
  intro s _
  obtain ⟨left, right, rest, hscores⟩ := hbase idx s.ec s.weights
  rw [predict_node_run hscores]
  rfl

omit [Field R] in
theorem predict_nodes_give (hbase : Gives base k f) :
    (predict_nodes t base).Finishes Any
      (fun buffer _ => buffer = (range t.internal_node_count).map fun idx => f (k + idx)) fun _ => False := by
  refine (Finishes.foldlM_range (I := fun i (buffer : List (R × R)) (_ : State W R) =>
    buffer = (range i).map fun idx => f (k + idx)) (fun i _ buffer => ?_) []).mono (fun _ _ => rfl) (fun _ _ h => h)
    fun _ h => h
  intro s hbuffer
  obtain ⟨p, s', hrun, hp⟩ := (@predict_node_gives _ _ k f base hbase i).returns (s := s) trivial
  rw [bind_run, hrun]
  rw [hbuffer, hp, range_succ, map_append]
  rfl

/-- The result: the product of the scores on the way to each leaf. -/
def PathScores (f : Nat → R × R) (k : Nat) (t : MinDepthBinaryTree) (scores : List R) : Prop :=
  scores.length = k ∧ ∀ n < k, scores[n]? = some (t.share f k n)

theorem predict_scores_run (h : Complete k t) (hk : 2 ≤ k) (hbase : Gives base k f) {scores : List R} :
    (predict_scores t base scores).Finishes Any (fun scores _ => PathScores f k t scores) fun _ => False := by
  have hlength := h.length
  have hroot := h.root
  unfold predict_scores
  rw [h.built.num_leaf_nodes, if_neg (by omega), if_neg (by omega)]
  refine any_bind_finishes (fun _ _ => trivial) fun ec => ?_
  refine any_bind_finishes (fun _ _ => trivial) fun _ => ?_
  refine (predict_nodes_give hbase).bind fun buffer => ?_
  refine .bind (F := fun _ _ => buffer = (range t.internal_node_count).map fun idx => f (k + idx))
    (fun _ hs => hs) fun _ => ?_
  intro s hbuffer
  have hcount : t.internal_node_count = k - 1 := by
    rw [internal_node_count, h.built.num_leaf_nodes]
    omega
  -- before the scan only the root has its scores, and they are those of the base learner
  have hstart : Scored f k t (fun n => n = t.root_idx)
    (buffer, scores.take k ++ replicate (k - scores.length) 0) := by
    have hget : ∀ n, k ≤ n → n ≤ t.root_idx → buffer[n - k]? = some (f n) := by
      intro n hn hle
      rw [hbuffer, getElem?_map, getElem?_range (by omega), Option.map_some, show k + (n - k) = n by omega]
    refine ⟨fun n hn hle hdone => ?_, fun n hn hle _ => hget n hn hle, fun n hn hdone => ?_, ?_⟩
    · subst hdone
      rw [hget _ hn hle, share, Paired.share_eq f h.tree Paired.Path.root]
      simp [Paired.product]
    · omega
    · simp only [length_append, length_take, length_replicate]
      omega
  obtain ⟨s', hrun, hs'⟩ := Scored.scan (S := State W R) h hk hstart
  rw [h.scanned, hrun]
  exact hs'

theorem predict_run (h : Complete k t) (hk : 2 ≤ k) (hbase : Gives base k f) (scores : List R) (s : State W R) :
    ∃ result s', predict t base scores s = .returned result s' ∧ PathScores f k t result ∧
      s'.ec.pred.a_s = result.mapIdx fun idx score => (idx, score) := by
  refine Finishes.returns (P := Any) (F := fun result (s' : State W R) => PathScores f k t result ∧
    s'.ec.pred.a_s = result.mapIdx fun idx score => (idx, score)) ?_ trivial
  refine any_bind_finishes (fun _ _ => trivial) fun _ =>
    (predict_scores_run h hk hbase).bind fun result => ?_
  exact .bind (F := fun _ s' => PathScores f k t result ∧
    s'.ec.pred.a_s = result.mapIdx fun idx score => (idx, score)) (fun _ hs => ⟨hs, rfl⟩) fun _ =>
      .pure fun _ hs => hs

/-- The scores of the leaves are a distribution where those of each node are. -/
theorem PathScores.distribution [LinearOrder R] [IsStrictOrderedRing R] (h : Complete k t)
    (hk : 1 ≤ k) {scores : List R}
    (hscores : PathScores f k t scores)
    (hf : ∀ n, k ≤ n → n ≤ t.root_idx → 0 ≤ (f n).1 ∧ 0 ≤ (f n).2 ∧ (f n).1 + (f n).2 = 1) :
    (∀ p ∈ scores, 0 ≤ p) ∧ scores.sum = 1 := by
  have hroot := h.root
  have heq : scores = (range k).map (t.share f k) := by
    refine ext_getElem? fun n => ?_
    rcases Nat.lt_or_ge n k with hlt | hge
    · rw [hscores.2 n hlt, getElem?_map, getElem?_range hlt]
      rfl
    · rw [getElem?_eq_none (by rw [hscores.1]; exact hge), getElem?_eq_none (by simpa using hge)]
  constructor
  · intro p hp
    rw [heq] at hp
    obtain ⟨n, hn, rfl⟩ := mem_map.mp hp
    obtain ⟨path, hpath⟩ := h.tree.exists_path (n := n) (by have hlt := mem_range.mp hn; omega)
    rw [share, Paired.share_eq f h.tree hpath]
    refine Paired.product_nonneg fun step hstep => ?_
    obtain ⟨hk, hle⟩ := (hpath.ascending h.tree).2 step hstep
    exact ⟨(hf step.1 hk hle).1, (hf step.1 hk hle).2.1⟩
  · rw [heq, ← Paired.sum_leaves f h.tree (by omega) fun n hn hle => (hf n hn hle).2.2]
    rfl

end Scores

/-! ## Learning -/

section Learn

variable {W R : Type} [Field R] {k : Nat} {t : MinDepthBinaryTree}

/-- The base learner, with a record of the models that were trained and of the action they were trained on. -/
def recording (base : BaseLearner W R) : BaseLearner (W × List (Nat × Option Nat)) R where
  learn := fun i ec w =>
    let r := base.learn i ec w.1
    (r.1, r.2, w.2 ++ [(i, ec.l.cb.costs.head?.map Trees.CbClass.action)])
  predict := fun i ec w =>
    let r := base.predict i ec w.1
    (r.1, r.2, w.2)

/-- A step to a node trains the model of the node on the side the step comes from. -/
def trained (k : Nat) (step : Nat × Bool) : Nat × Option Nat := (step.1 - k, some (if step.2 then 1 else 2))

/-- This was recorded. -/
def Logged (log : List (Nat × Option Nat)) (s : State (W × List (Nat × Option Nat)) R) : Prop := s.weights.2 = log

/-- There is a cost, and this was recorded. -/
def Recorded (log : List (Nat × Option Nat)) (s : State (W × List (Nat × Option Nat)) R) : Prop :=
  s.ec.l.cb.costs ≠ [] ∧ Logged log s

variable {base : BaseLearner W R} {log : List (Nat × Option Nat)}

variable {node : TreeNode}

theorem learn_node_records (hbase : TwoScores base) {local_action : Nat}
    (hlocal : local_action ≤ 2) :
    (learn_node t (recording base) node local_action).Finishes (Recorded log)
      (fun _ => Recorded (log ++ [(t.model node.id, some local_action)])) fun _ => False := by
  refine learn_node_finishes (fun n ec w => hbase n ec w.1) hlocal
    (Q := fun s => s.ec.l.cb.costs.head?.map Trees.CbClass.action = some local_action ∧ s.weights.2 = log)
    (S := Recorded (log ++ [(t.model node.id, some local_action)])) (fun s hs => ?_)
      (fun s hs => ?_) (fun _ hs => hs)
    fun _ _ hs => hs
  · obtain ⟨cost, costs, hcosts⟩ := exists_cons_of_ne_nil hs.1
    refine ⟨?_, hs.2⟩
    show (s.ec.l.cb.costs.modify 0 _).head?.map Trees.CbClass.action = _
    rw [hcosts]
    rfl
  · obtain ⟨haction, hlog⟩ := hs
    refine ⟨fun hnil => ?_, ?_⟩
    · have hnone : s.ec.l.cb.costs = [] := hnil
      rw [hnone] at haction
      cases haction
    · show s.weights.2 ++ [(t.model node.id, s.ec.l.cb.costs.head?.map Trees.CbClass.action)] = _
      rw [hlog, haction]

variable {path : List (Nat × Bool)}

/-- The way up follows the path: what the visit of a node adds to a record, the climb adds for all
    nodes of the path. -/
theorem ascend_along {V X : Type} {base : BaseLearner V R} (h : Complete k t) (hk : 1 ≤ k)
    {J : List X → State V R → Prop} {g : Nat × Bool → List X}
    (hnode : ∀ log (node : TreeNode) (step : Nat × Bool), node.id = step.1 → k ≤ step.1 → step.1 ≤ t.root_idx →
      (learn_node t base node (if step.2 then 1 else 2)).Finishes (J log)
        (fun _ => J (log ++ g step)) fun _ => False)
    (hget : t.nodes[n]? = some node) (hn : n < t.root_idx) (hfuel : t.root_idx - n ≤ fuel)
    (hpath : Paired.Path k t.root_idx t.left t.right n path) (log : List X) :
    (ascend t base fuel node).Finishes (J log) (fun _ => J (log ++ path.flatMap g)) fun _ => False := by
  induction fuel generalizing n node path log with
  | zero => omega
  | succ fuel ih =>
    obtain ⟨v, hv, hid, -, -, -, hparent⟩ := h.get (Nat.le_of_lt hn) hk
    rw [hget] at hv
    cases hv
    have hlater := h.tree.lt_parent n hn
    have hle := h.tree.parent_le n hn
    have hinner := h.tree.inner n hn
    obtain ⟨parent, hget', hid', -, hleft, -, hparent'⟩ := h.get hle hk
    obtain ⟨above, habove, rfl⟩ := hpath.step h.tree hn
    have hstep := hnode log parent (t.parent n, decide (t.left (t.parent n) = n)) hid' hinner hle
    simp only [decide_eq_true_eq] at hstep
    unfold ascend
    rw [hparent, node_run hget', hleft, hid]
    refine hstep.bind fun _ => ?_
    rw [hparent', hid', flatMap_cons, ← append_assoc]
    by_cases hend : t.parent n = t.root_idx
    · rw [hend, h.parent_root hk, if_pos rfl]
      rw [hend] at habove
      rw [habove.of_root h.tree rfl, flatMap_nil, append_nil]
      exact .pure fun _ hs => hs
    · have hlt : t.parent n < t.root_idx := by omega
      have hlater' := h.tree.lt_parent _ hlt
      rw [if_neg (by omega)]
      exact ih hget' hlt (by omega) habove _

omit [Field R] in
theorem Complete.model (h : Complete k t) (hk32 : k < 2 ^ 32) (hn : k ≤ n) (hle : n ≤ t.root_idx) :
    t.model n = n - k := by
  have hroot := h.root
  unfold MinDepthBinaryTree.model
  rw [h.built.num_leaf_nodes]
  omega

/-- The way up trains the models of the nodes of the path, in order. -/
theorem ascend_records (h : Complete k t) (hk : 2 ≤ k) (hk32 : k < 2 ^ 32)
    (hbase : TwoScores base) (hget : t.nodes[n]? = some node) (hn : n < t.root_idx)
    (hfuel : t.root_idx - n ≤ fuel) (hpath : Paired.Path k t.root_idx t.left t.right n path) :
    (ascend t (recording base) fuel node).Finishes (Recorded log)
      (fun _ => Recorded (log ++ path.map (trained k))) fun _ => False := by
  rw [map_eq_flatMap]
  refine ascend_along h (by omega) (fun log node step hid hinner hle => ?_) hget hn hfuel hpath log
  have hvisit : (learn_node t (recording base) node (if step.2 then 1 else 2)).Finishes (Recorded log)
      (fun _ => Recorded (log ++ [(t.model node.id, some (if step.2 then 1 else 2))])) fun _ => False :=
    learn_node_records hbase (by split <;> omega)
  rwa [hid, h.model hk32 hinner hle] at hvisit

/-- A prediction trains nothing. -/
theorem predict_scores_records {scores : List R} :
    (predict_scores t (recording base) scores).Quiet (Logged log) fun _ => Logged log := by
  have hnode : ∀ idx, (predict_node (recording base) idx).Quiet (Logged log) fun _ => Logged log := by
    intro idx
    unfold predict_node
    refine Quiet.bind (F := fun _ => Logged log) (fun _ hs => hs)
      fun _ => get_ec_quiet.bind fun ec => ?_
    split
    · exact .pure fun _ hs => hs
    · exact .undefined
  have hnodes : (predict_nodes t (recording base)).Quiet (Logged log) fun _ => Logged log :=
    .foldlM (fun idx _ _ => (hnode idx).bind fun _ => .pure fun _ hs => hs) []
  unfold predict_scores
  split
  · exact .pure fun _ hs => hs
  · split
    · exact .pure fun _ hs => hs
    · refine get_ec_quiet.bind fun ec => Quiet.bind (F := fun _ => Logged log) (fun _ hs => hs) fun _ => ?_
      refine hnodes.bind fun buffer => ?_
      refine Quiet.bind (F := fun _ => Logged log) (fun _ hs => hs) fun _ => ?_
      exact (Quiet.foldlM (fun node _ s => score_node_keeps) _).bind fun s => .pure fun _ hs => hs

variable {cost : CbClass R}

theorem learn_action_records (h : Complete k t) (hk : 2 ≤ k) (hk32 : k < 2 ^ 32)
    (hbase : TwoScores base) (hfuel : t.nodes.length < fuel) {cb : CbLabel R}
    (hcost : cb.costs.head? = some cost) (hle : cost.action ≤ k)
    (hpath : Paired.Path k t.root_idx t.left t.right (cost.action - 1) path) :
    (learn_action t (recording base) fuel).Finishes (fun s => s.ec.l.cb = cb ∧ Logged log s)
      (fun _ => Logged (log ++ path.map (trained k))) fun _ => False := by
  have hlength := h.length
  have hroot := h.root
  unfold learn_action
  refine get_ec_bind_finishes fun s hs => ?_
  obtain ⟨hcb, hlog⟩ := hs
  obtain ⟨node, hget, -⟩ := h.get (n := cost.action - 1) (by omega) (by omega)
  rw [hcb, hcost]
  dsimp only
  rw [node_run hget]
  have hcosts : cb.costs ≠ [] := by
    intro hnil
    rw [hnil] at hcost
    cases hcost
  refine .bind (F := fun _ => Recorded (log ++ path.map (trained k))) ?_ fun _ => ?_
  · refine (ascend_records h hk hk32 hbase hget (by omega) (by omega) hpath).mono (fun s' hs' => ?_) (fun _ _ h => h)
      fun _ h => h
    rw [hs']
    exact ⟨by rw [hcb]; exact hcosts, hlog⟩
  · exact .bind (F := fun _ => Logged (log ++ path.map (trained k))) (fun _ hs => hs.2) fun _ =>
      fun _ hs => hs

theorem learn_records (h : Complete k t) (hk : 2 ≤ k) (hk32 : k < 2 ^ 32) (hbase : TwoScores base)
    (hfuel : t.nodes.length < fuel) {s : State (W × List (Nat × Option Nat)) R}
    (hcost : s.ec.l.cb.costs.head? = some cost) (hle : cost.action ≤ k)
    (hpath : Paired.Path k t.root_idx t.left t.right (cost.action - 1) path) (scores : List R) :
    ∃ result s', learn t (recording base) fuel scores s = .returned result s' ∧
      s'.weights.2 = s.weights.2 ++ path.map (trained k) := by
  refine Finishes.returns (P := fun s' => s' = s)
    (F := fun _ => Logged (s.weights.2 ++ path.map (trained k))) ?_ rfl
  refine Finishes.bind (F := fun _ s' => s'.ec.l.cb = s.ec.l.cb ∧ s'.ec.weight = s.ec.weight ∧
    Logged s.weights.2 s') (fun s' hs' => ?_) fun _ => ?_
  · rw [hs']
    exact ⟨rfl, rfl, rfl⟩
  refine .bind (F := fun _ s' => s'.ec.l.cb = s.ec.l.cb ∧ Logged s.weights.2 s')
    (fun s' hs' => ?_) fun result => ?_
  · have hend : Ending.Is (predict_scores t (recording base) scores s') (fun _ => Any) fun _ => False :=
      predict_scores_returns h.built (fun n ec w => hbase n ec w.1) s' trivial
    cases hrun : predict_scores t (recording base) scores s' with
    | returned a s₁ =>
      have hholds : Holds s.ec.l.cb s.ec.weight s₁ := predict_scores_keeps.of_returned ⟨hs'.1, hs'.2.1⟩ hrun
      exact ⟨hholds.1, predict_scores_records.of_returned hs'.2.2 hrun⟩
    | threw what s₁ =>
      rw [hrun] at hend
      exact hend
    | undefined =>
      rw [hrun] at hend
      exact hend
  · refine (learn_action_records h hk hk32 hbase hfuel hcost hle hpath).bind fun _ => ?_
    exact .bind (F := fun _ => Logged (s.weights.2 ++ path.map (trained k))) (fun _ hs => hs) fun _ =>
      .pure fun _ hs => hs

end Learn

/-! ## The whole tree -/

/-- The proper ancestors of a node. -/
def MinDepthBinaryTree.Ancestor (t : MinDepthBinaryTree) (k : Nat) : Nat → Nat → Prop :=
  Relation.TransGen fun child node => k ≤ node ∧ node ≤ t.root_idx ∧ (t.left node = child ∨ t.right node = child)

/-- Predictions are the products of the scores on the paths, and learning climbs the path of the action once.
    Fewer than 2^32 leaves have their models numbered without wrapping around. -/
theorem tree_predicts_path_products {W R : Type} [Field R] [LinearOrder R] [IsStrictOrderedRing R]
    {k fuel : Nat} (hk : 2 ≤ k)
    (hk32 : k < 2 ^ 32) (hfuel : k ≤ fuel) :
    ∃ t, build_tree fuel k = some t ∧
      (t.num_leaf_nodes = k ∧ t.nodes.length = 2 * k - 1 ∧ t.internal_node_count = k - 1 ∧
        t.root_idx < t.nodes.length ∧
        ∀ n (v : TreeNode), t.nodes[n]? = some v → v.id = n ∧ (v.is_leaf = true ↔ n < k) ∧
          (v.parent_id = n ↔ n = t.root_idx)) ∧
      (∀ n < t.nodes.length, ∃! path, Paired.Path k t.root_idx t.left t.right n path) ∧
      (∀ (base : BaseLearner W R) (f : Nat → R × R), Gives base k f → ∀ (scores : List R) (s : State W R),
        ∃ result s', predict t base scores s = .returned result s' ∧
          s'.ec.pred.a_s = result.mapIdx (fun idx score => (idx, score)) ∧ result.length = k ∧
          (∀ a path, a < k → Paired.Path k t.root_idx t.left t.right a path →
            result[a]? = some (Paired.product f path)) ∧
          ((∀ n, k ≤ n → n ≤ t.root_idx → 0 ≤ (f n).1 ∧ 0 ≤ (f n).2 ∧ (f n).1 + (f n).2 = 1) →
            (∀ p ∈ result, 0 ≤ p) ∧ result.sum = 1)) ∧
      ∀ (base : BaseLearner W R), TwoScores base → ∀ (fuel' : Nat), t.nodes.length < fuel' → ∀ (scores : List R)
        (s : State (W × List (Nat × Option Nat)) R) (cost : CbClass R) (path : List (Nat × Bool)),
        s.ec.l.cb.costs.head? = some cost → 1 ≤ cost.action → cost.action ≤ k →
        Paired.Path k t.root_idx t.left t.right (cost.action - 1) path →
        (∃ result s', learn t (recording base) fuel' scores s = .returned result s' ∧
          s'.weights.2 = s.weights.2 ++ path.map (trained k)) ∧
        (path.map Prod.fst).Pairwise (· < ·) ∧
        ∀ m, m ∈ path.map Prod.fst ↔ t.Ancestor k (cost.action - 1) m := by
  obtain ⟨t, ht, -⟩ := build_tree_built (show 1 ≤ k by omega) hfuel
  have h := build_tree_complete (by omega) hfuel ht
  have hlength := h.length
  have hroot := h.root
  refine ⟨t, ht, ⟨h.built.num_leaf_nodes, hlength, ?_, by omega, fun n v hget => ?_⟩, fun n hn => ?_,
    fun base f hbase scores s => ?_, fun base hbase fuel' hfuel' scores s cost path hcost hpos hle hpath => ?_⟩
  · rw [internal_node_count, h.built.num_leaf_nodes]
    omega
  · have hlt := (List.getElem?_eq_some_iff.mp hget).1
    have hparent := h.built.parent n v hget
    exact ⟨h.built.id n v hget, h.built.leaf n v hget, by omega⟩
  · obtain ⟨path, hpath⟩ := h.tree.exists_path (n := n) (by omega)
    exact ⟨path, hpath, fun path' hpath' => hpath'.unique h.tree hpath⟩
  · obtain ⟨result, s', hrun, hscores, ha_s⟩ := predict_run h hk hbase scores s
    refine ⟨result, s', hrun, ha_s, hscores.1, fun a path ha hpath => ?_, hscores.distribution h (by omega)⟩
    rw [hscores.2 a ha, share, Paired.share_eq f h.tree hpath]
  · exact ⟨learn_records h hk hk32 hbase hfuel' hcost hle hpath scores,
      (pairwise_cons.mp (hpath.ascending h.tree).1).2,
      hpath.mem_iff h.tree⟩

/-- A base learner that gives a fourth to the left everywhere. -/
def quarters : BaseLearner Unit ℚ where
  learn _ _ w := (⟨⟨0, [], 0, []⟩, 0, 0⟩, w)
  predict _ _ w := (⟨⟨0, [(1, 1 / 4), (2, 3 / 4)], 0, []⟩, 0, 0⟩, w)

/-- An example with a cost for the second action. -/
def second_action {W : Type} (weights : W) : State W ℚ :=
  ⟨weights, ⟨⟨0, ⟨0, 1⟩, ⟨[⟨1, 2, 1, 0⟩], 1⟩, []⟩, 1, ⟨0, [], 0, []⟩, 0, 0, ⟨1, 0⟩⟩, []⟩

/-- The tree with three leaves carries the odd one over, so that the path of the second action has two nodes. -/
theorem tree_predicts_path_products_three :
    ∃ t, build_tree 3 3 = some t ∧
      (∃ result s', predict t quarters [] (second_action ()) = .returned result s' ∧
        result.length = 3 ∧ result[1]? = some (3 / 4 * (1 / 4)) ∧ result.sum = 1) ∧
      ∃ result s', learn t (recording quarters) 6 [] (second_action ((), [])) = .returned result s' ∧
        s'.weights.2 = [(0, some 2), (1, some 1)] := by
  obtain ⟨t, ht, ⟨-, hlength, -⟩, -, hpredict, hlearn⟩ :=
    @tree_predicts_path_products Unit ℚ _ _ _ 3 3 (by decide) (by decide) (Nat.le_refl 3)
  have hpath : Paired.Path 3 t.root_idx t.left t.right 1 [(3, false), (4, true)] := by
    cases ht
    exact .right (n := 3) (Nat.le_refl 3) (.left (n := 4) (Nat.le_succ 3) .root)
  obtain ⟨result, s', hrun, -, hthree, hproducts, hsum⟩ := hpredict quarters (fun _ => (1 / 4, 3 / 4))
    (fun _ _ _ => ⟨1, 2, [], rfl⟩) [] (second_action ())
  obtain ⟨⟨result', s'', hrun', hlog⟩, -⟩ :=
    hlearn quarters (fun _ _ _ => Nat.le_refl 2) 6 (by rw [hlength]; decide) []
    (second_action ((), [])) ⟨1, 2, 1, 0⟩ [(3, false), (4, true)] rfl (by decide) (by decide) hpath
  refine ⟨t, ht, ⟨result, s', hrun, hthree, (hproducts 1 _ (by decide) hpath).trans (by decide +kernel), ?_⟩,
    result', s'', hrun', hlog⟩
  exact (hsum fun n _ _ => by norm_num).2

end VW.OffsetTree
