import VowpalWabbit.Trees.RecallTree
import Mathlib.Algebra.Order.BigOperators.Group.List
import Mathlib.Data.List.Induction
import Mathlib.Data.List.Nodup
import Mathlib.Data.List.Pairwise
import Mathlib.Tactic.Linarith
import Mathlib.Tactic.Ring

/-! # The statistics of the recall tree

    At every node the labels are distinct and in the order of their counts, and the counts
    sum up to `n`. An example is counted at a node only after it was counted at the parent,
    so that no count is below the sum of the counts at the children.

    Between the rounds of the descent the parent of the next node is one example ahead of its
    children (`Ahead`).
-/

namespace VW.RecallTree

open List NodePred

/-! ## One list of labels -/

def count_of (preds : List NodePred) (label : BitVec 32) : ℚ :=
  ((preds.filter fun p => p.label = label).map label_count).sum

/-- What the predictions of a node keep. -/
structure Ranked (preds : List NodePred) : Prop where
  distinct : (preds.map NodePred.label).Nodup
  order : preds.Pairwise fun p q => q.label_count ≤ p.label_count
  nonneg : ∀ p ∈ preds, 0 ≤ p.label_count

section

variable {preds front back : List NodePred} {label : BitVec 32} {weight : ℚ} {p : NodePred}

theorem count_of_append (xs ys : List NodePred) (label : BitVec 32) :
    count_of (xs ++ ys) label = count_of xs label + count_of ys label := by
  simp [count_of]

theorem count_of_cons (p : NodePred) (ps : List NodePred) (label : BitVec 32) :
    count_of (p :: ps) label = (if p.label = label then p.label_count else 0) + count_of ps label := by
  by_cases h : p.label = label <;> simp [count_of, h]

theorem count_of_perm {xs ys : List NodePred} (h : xs.Perm ys) (label : BitVec 32) :
    count_of xs label = count_of ys label := ((h.filter _).map _).sum_eq

theorem modify_append {T : Type} (f : T → T) (front : List T) (x : T) (back : List T) :
    (front ++ x :: back).modify front.length f = front ++ f x :: back := by
  induction front with
  | nil => rfl
  | cons y front ih => simp [ih]

/-- Moving an entry to its place among those before it. -/
theorem bubble_spec (p : NodePred) (back : List NodePred) (hback : ∀ q ∈ back, q.label_count ≤ p.label_count) :
    ∀ front : List NodePred, (front ++ back).Pairwise (fun p q => q.label_count ≤ p.label_count) →
      (bubble front.length (front ++ p :: back)).Perm (front ++ p :: back) ∧
      (bubble front.length (front ++ p :: back)).Pairwise fun p q => q.label_count ≤ p.label_count := by
  intro front
  induction front using reverseRecOn generalizing back with
  | nil =>
    intro horder
    exact ⟨.refl _, pairwise_cons.mpr ⟨hback, horder⟩⟩
  | append_singleton front before ih =>
    intro horder
    have hlength : (front ++ [before]).length = front.length + 1 := by simp
    have hbefore : (front ++ [before] ++ p :: back)[front.length]? = some before := by simp
    have hthis : (front ++ [before] ++ p :: back)[front.length + 1]? = some p := by simp
    rw [hlength]
    unfold bubble
    rw [hbefore, hthis]
    dsimp only
    by_cases hless : before.label_count < p.label_count
    · -- the two are swapped, and the loop goes on one place before
      have hswap : ((front ++ [before] ++ p :: back).set front.length p).set (front.length + 1) before =
          front ++ p :: (before :: back) := by simp
      have hrest : (front ++ before :: back).Pairwise fun p q => q.label_count ≤ p.label_count := by
        simpa using horder
      have hbelow : ∀ q ∈ before :: back, q.label_count ≤ p.label_count :=
        forall_mem_cons.mpr ⟨hless.le, hback⟩
      obtain ⟨hperm, hpairwise⟩ := ih (before :: back) hbelow hrest
      rw [if_pos hless, hswap]
      refine ⟨hperm.trans ?_, hpairwise⟩
      simp only [append_assoc, singleton_append]
      exact (List.Perm.swap _ _ _).append_left front
    · rw [if_neg hless]
      refine ⟨.refl _, ?_⟩
      rw [pairwise_append] at horder ⊢
      refine ⟨horder.1, pairwise_cons.mpr ⟨hback, horder.2.1⟩, ?_⟩
      intro x hx y hy
      have hle : p.label_count ≤ x.label_count := by
        rcases mem_append.mp hx with hx | hx
        · have hfront := (pairwise_append.mp horder.1).2.2 x hx before (mem_singleton_self _)
          exact (not_lt.mp hless).trans hfront
        · rw [mem_singleton.mp hx]
          exact not_lt.mp hless
      rcases mem_cons.mp hy with rfl | hy
      · exact hle
      · exact (hback y hy).trans hle

/-- `find` stops at the first entry with the label, or at the end. -/
theorem find_or_create_spec (preds : List NodePred) (label : BitVec 32) :
    ∃ front p back, find_or_create preds label = (front ++ p :: back, front.length) ∧ p.label = label ∧
      (front ++ p :: back = preds ∨
        (label ∉ preds.map NodePred.label ∧ p.label_count = 0 ∧ back = [] ∧ front = preds)) := by
  unfold find_or_create find
  by_cases h : preds.findIdx (fun ls => ls.label = label) = preds.length
  · refine ⟨preds, { label := label }, [], by simp [h], rfl, .inr ⟨?_, rfl, rfl, rfl⟩⟩
    rw [findIdx_eq_length] at h
    rintro hmem
    obtain ⟨p, hp, rfl⟩ := mem_map.mp hmem
    have := h p hp
    simp at this
  · have hlt : preds.findIdx (fun ls => ls.label = label) < preds.length :=
      Nat.lt_of_le_of_ne (findIdx_le_length) h
    have hlabel := findIdx_getElem (w := hlt)
    refine ⟨preds.take (preds.findIdx fun ls => ls.label = label), preds[preds.findIdx fun ls => ls.label = label],
      preds.drop (preds.findIdx (fun ls => ls.label = label) + 1), ?_, by simpa using hlabel, .inl ?_⟩
    · rw [if_neg h, length_take_of_le hlt.le]
      congr 1
      rw [← drop_eq_getElem_cons hlt, take_append_drop]
    · rw [← drop_eq_getElem_cons hlt, take_append_drop]

/-- The predictions after `insert_example_at_node`. -/
def insert_preds (preds : List NodePred) (label : BitVec 32) (weight : ℚ) : List NodePred :=
  bubble (find_or_create preds label).2
    ((find_or_create preds label).1.modify (find_or_create preds label).2
      fun p => { p with label_count := p.label_count + weight })

/-- They are the old ones with one count changed, in order. -/
theorem insert_preds_perm (h : Ranked preds) (hweight : 0 ≤ weight) :
    ∃ front p back, p.label = label ∧
      (front ++ p :: back = preds ∨
        (label ∉ preds.map NodePred.label ∧ p.label_count = 0 ∧ back = [] ∧ front = preds)) ∧
      (insert_preds preds label weight).Perm (front ++ { p with label_count := p.label_count + weight } :: back) ∧
      (insert_preds preds label weight).Pairwise fun p q => q.label_count ≤ p.label_count := by
  obtain ⟨front, p, back, hfind, hlabel, hpreds⟩ := find_or_create_spec preds label
  have hmodify : (front ++ p :: back).modify front.length
    (fun p => { p with label_count := p.label_count + weight }) =
      front ++ { p with label_count := p.label_count + weight } :: back := modify_append _ front p back
  have horder : (front ++ back).Pairwise (fun p q => q.label_count ≤ p.label_count) ∧
      ∀ q ∈ back, q.label_count ≤ p.label_count := by
    rcases hpreds with rfl | ⟨-, -, rfl, rfl⟩
    · have hsub : (front ++ back).Sublist (front ++ p :: back) := (sublist_cons_self p back).append_left front
      exact ⟨h.order.sublist hsub, (pairwise_cons.mp (pairwise_append.mp h.order).2.1).1⟩
    · rw [append_nil]
      exact ⟨h.order, fun q hq => absurd hq not_mem_nil⟩
  have hback : ∀ q ∈ back, q.label_count ≤ p.label_count + weight := by
    intro q hq
    linarith [horder.2 q hq]
  obtain ⟨hperm, hpairwise⟩ :=
    bubble_spec { p with label_count := p.label_count + weight } back hback front horder.1
  refine ⟨front, p, back, hlabel, hpreds, ?_, ?_⟩
  · unfold insert_preds
    rw [hfind]
    rw [hmodify]
    exact hperm
  · unfold insert_preds
    rw [hfind]
    rw [hmodify]
    exact hpairwise

theorem insert_preds_ranked (h : Ranked preds) (hweight : 0 ≤ weight) :
    Ranked (insert_preds preds label weight) := by
  obtain ⟨front, p, back, hlabel, hpreds, hperm, hpairwise⟩ := @insert_preds_perm preds label weight h hweight
  refine ⟨?_, hpairwise, ?_⟩
  · rw [(hperm.map _).nodup_iff, map_append, map_cons]
    rcases hpreds with rfl | ⟨hnew, -, rfl, rfl⟩
    · simpa using h.distinct
    · rw [map_nil, ← concat_eq_append, nodup_concat]
      exact ⟨hlabel ▸ hnew, h.distinct⟩
  · intro q hq
    have hmem := hperm.subset hq
    have hp : 0 ≤ p.label_count := by
      rcases hpreds with rfl | ⟨-, hzero, -, -⟩
      · exact h.nonneg p (by simp)
      · exact hzero.ge
    have hothers : ∀ r, r ∈ front ∨ r ∈ back → 0 ≤ r.label_count := by
      intro r hr
      refine h.nonneg r ?_
      rcases hpreds with rfl | ⟨-, -, rfl, rfl⟩
      · rw [mem_append, mem_cons]
        tauto
      · simpa using hr
    rcases mem_append.mp hmem with hfront | hrest
    · exact hothers q (.inl hfront)
    · rcases mem_cons.mp hrest with rfl | hback
      · exact add_nonneg hp hweight
      · exact hothers q (.inr hback)

theorem count_of_insert_preds (h : Ranked preds) (hweight : 0 ≤ weight) (l : BitVec 32) :
    count_of (insert_preds preds label weight) l = count_of preds l + if l = label then weight else 0 := by
  obtain ⟨front, p, back, rfl, hpreds, hperm, -⟩ := @insert_preds_perm preds label weight h hweight
  rw [count_of_perm hperm, count_of_append, count_of_cons]
  rcases hpreds with rfl | ⟨-, hzero, rfl, rfl⟩
  · rw [count_of_append, count_of_cons]
    by_cases hl : p.label = l
    · simp only [hl, if_true]
      ring
    · simp only [hl, if_neg (Ne.symm hl), if_false]
      ring
  · rw [hzero]
    by_cases hl : p.label = l
    · simp [hl, count_of]
    · simp [hl, Ne.symm hl, count_of]

theorem sum_insert_preds (h : Ranked preds) (hweight : 0 ≤ weight) :
    ((insert_preds preds label weight).map label_count).sum =
      (preds.map label_count).sum + weight := by
  obtain ⟨front, p, back, -, hpreds, hperm, -⟩ := @insert_preds_perm preds label weight h hweight
  rw [(hperm.map _).sum_eq]
  rcases hpreds with rfl | ⟨-, hzero, rfl, rfl⟩
  · simp only [map_append, map_cons, sum_append, sum_cons]
    ring
  · simp [hzero]

end

/-! ## One node -/

/-- The predictions are ranked, and `n` is the sum of the counts. -/
structure NodeStatistics (node : Node) : Prop where
  ranked : Ranked node.preds
  n_eq : node.n = (node.preds.map label_count).sum

/-- Nodes with the same place in the tree. -/
structure SamePlace (x y : Node) : Prop where
  internal : x.internal = y.internal
  left : x.left = y.left
  right : x.right = y.right

section

variable {fn : Functions} {b : Tree} {label : BitVec 32} {weight : ℚ} {node : Node}

theorem compute_recall_lbest_spec (fn : Functions) (b : Tree) (n : Node) :
    ∃ recall_lbest, compute_recall_lbest fn b n = { n with recall_lbest := recall_lbest } := by
  unfold compute_recall_lbest
  split
  · exact ⟨n.recall_lbest, rfl⟩
  · exact ⟨_, rfl⟩

/-- What an example changes at a node. -/
theorem insert_at_spec (fn : Functions) (b : Tree) (label : BitVec 32) (weight : ℚ) (node : Node) :
    (insert_at fn b label weight node).preds = insert_preds node.preds label weight ∧
      (insert_at fn b label weight node).n = node.n + weight ∧
        SamePlace (insert_at fn b label weight node) node := by
  unfold insert_at
  dsimp only
  obtain ⟨recall_lbest, heq⟩ := compute_recall_lbest_spec fn b { node with
    preds := insert_preds node.preds label weight,
    entropy := updated_entropy fn { node with preds := (find_or_create node.preds label).1 } label weight,
    n := node.n + weight }
  unfold insert_preds at heq
  rw [heq]
  exact ⟨rfl, rfl, rfl, rfl, rfl⟩

theorem NodeStatistics.insert (h : NodeStatistics node) (hweight : 0 ≤ weight) :
    NodeStatistics (insert_at fn b label weight node) := by
  obtain ⟨hpreds, hn, -⟩ := insert_at_spec fn b label weight node
  constructor
  · rw [hpreds]
    exact insert_preds_ranked h.ranked hweight
  · rw [hpreds, hn, sum_insert_preds h.ranked hweight, h.n_eq]

end

/-! ## The shape of the tree -/

def node_at (nodes : List Node) (cn : Nat) : Node := nodes.getD cn {}

def IsChild (nodes : List Node) (parent child : Nat) : Prop :=
  (node_at nodes parent).internal = true ∧
    (child = (node_at nodes parent).left ∨ child = (node_at nodes parent).right)

/-- Children come after their parent, and have no other. -/
structure Shape (nodes : List Node) : Prop where
  below : ∀ x c, IsChild nodes x c → x < c ∧ c < nodes.length
  apart : ∀ x, (node_at nodes x).internal = true → (node_at nodes x).left ≠ (node_at nodes x).right
  unique : ∀ x y c, IsChild nodes x c → IsChild nodes y c → x = y

section

variable {nodes nodes' : List Node} {root : Nat}

theorem node_at_of_ge {cn : Nat} (h : nodes.length ≤ cn) : node_at nodes cn = {} := by
  simp [node_at, getElem?_eq_none h]

/-- A change of one node. -/
theorem node_at_modify (f : Node → Node) (i cn : Nat) :
    node_at (nodes.modify i f) cn = if i = cn ∧ cn < nodes.length then f
      (node_at nodes cn) else node_at nodes cn := by
  unfold node_at
  by_cases hlt : cn < nodes.length
  · by_cases hi : i = cn
    · simp [hi, hlt, getD_eq_getElem?_getD]
    · simp [hi, getD_eq_getElem?_getD]
  · simp [hlt, getD_eq_getElem?_getD]

theorem node_at_append_fresh (cn : Nat) : node_at (nodes ++ [({} : Node), {}]) cn = node_at nodes cn := by
  unfold node_at
  simp only [getD_eq_getElem?_getD]
  by_cases h : cn < nodes.length
  · rw [getElem?_append_left h]
  · rw [getElem?_append_right (Nat.le_of_not_lt h), getElem?_eq_none (Nat.le_of_not_lt h)]
    -- the two nodes at the end are fresh ones
    rcases hi : cn - nodes.length with _ | _ | _ <;> rfl

/-- Only the place in the tree counts for its shape. -/
theorem Shape.congr (h : Shape nodes) (hlength : nodes'.length = nodes.length)
    (hsame : ∀ cn, SamePlace (node_at nodes' cn) (node_at nodes cn)) : Shape nodes' := by
  have hchild : ∀ x c, IsChild nodes' x c ↔ IsChild nodes x c := by
    intro x c
    rw [IsChild, IsChild, (hsame x).internal, (hsame x).left, (hsame x).right]
  constructor
  · intro x c hc
    rw [hlength]
    exact h.below x c ((hchild x c).mp hc)
  · intro x hx
    rw [(hsame x).left, (hsame x).right]
    exact h.apart x ((hsame x).internal ▸ hx)
  · exact fun x y c hx hy => h.unique x y c ((hchild x c).mp hx) ((hchild y c).mp hy)

/-- A leaf that gets two new nodes as its children. -/
theorem Shape.grow (h : Shape nodes) (hroot : root < nodes.length) (hlength : nodes'.length = nodes.length + 2)
    (hinternal : ∀ cn, (node_at nodes' cn).internal = true ↔ cn = root ∨ (node_at nodes cn).internal = true)
    (hchildren : (node_at nodes' root).left = nodes.length ∧ (node_at nodes' root).right = nodes.length + 1)
    (hleaf : (node_at nodes root).internal = false)
    (hsame : ∀ cn, cn ≠ root → (node_at nodes cn).internal = true →
      SamePlace (node_at nodes' cn) (node_at nodes cn)) :
    Shape nodes' := by
  -- a child is one of the new nodes, of `root`, or a child from before
  have hchild : ∀ x c, IsChild nodes' x c →
      (x = root ∧ (c = nodes.length ∨ c = nodes.length + 1)) ∨ (x ≠ root ∧ IsChild nodes x c) := by
    intro x c ⟨hx, hc⟩
    by_cases hxroot : x = root
    · subst hxroot
      rw [hchildren.1, hchildren.2] at hc
      exact .inl ⟨rfl, hc⟩
    · have hold := ((hinternal x).mp hx).resolve_left hxroot
      have hplace := hsame x hxroot hold
      rw [hplace.left, hplace.right] at hc
      exact .inr ⟨hxroot, hold, hc⟩
  constructor
  · intro x c hc
    rcases hchild x c hc with ⟨rfl, hc⟩ | ⟨-, hc⟩
    · omega
    · have := h.below x c hc
      omega
  · intro x hx
    by_cases hxroot : x = root
    · subst hxroot
      rw [hchildren.1, hchildren.2]
      omega
    · have hold := ((hinternal x).mp hx).resolve_left hxroot
      rw [(hsame x hxroot hold).left, (hsame x hxroot hold).right]
      exact h.apart x hold
  · intro x y c hx hy
    rcases hchild x c hx with ⟨rfl, hcx⟩ | ⟨-, hcx⟩ <;> rcases hchild y c hy with ⟨rfl, hcy⟩ | ⟨-, hcy⟩
    · rfl
    · have := h.below y c hcy
      omega
    · have := h.below x c hcx
      omega
    · exact h.unique x y c hcx hcy

section AddChildren

variable {depth routers_used : Nat}

theorem length_add_children (nodes : List Node) :
    (add_children root depth routers_used nodes).length = nodes.length + 2 := by
  simp [add_children]

theorem node_at_root_add_children (hroot : root < nodes.length) :
    node_at (add_children root depth routers_used nodes) root = { node_at nodes root with
      base_router := routers_used, internal := true, left := nodes.length, right := nodes.length + 1 } := by
  unfold add_children
  rw [node_at_modify, if_neg (by omega), node_at_modify, if_neg (by omega), node_at_modify, node_at_append_fresh,
    if_pos ⟨rfl, by simp; omega⟩]

/-- The other nodes are as before, up to the parent and the depth of the new ones. -/
theorem node_at_add_children {cn : Nat} (h : cn ≠ root) :
    ∃ parent depth', node_at (add_children root depth routers_used nodes) cn =
      { node_at nodes cn with parent := parent, depth := depth' } := by
  unfold add_children
  have hroot : ∀ f, node_at ((nodes ++ [({} : Node), {}]).modify root f) cn = node_at nodes cn := by
    intro f
    rw [node_at_modify, node_at_append_fresh, if_neg (fun hr => h hr.1.symm)]
  rw [node_at_modify, node_at_modify, hroot]
  split <;> split <;> exact ⟨_, _, rfl⟩

theorem node_at_old_add_children {cn : Nat} (h : cn ≠ root) (hlt : cn < nodes.length) :
    node_at (add_children root depth routers_used nodes) cn = node_at nodes cn := by
  unfold add_children
  rw [node_at_modify, if_neg (by omega), node_at_modify, if_neg (by omega), node_at_modify, node_at_append_fresh,
    if_neg (fun hr => h hr.1.symm)]

theorem shape_add_children (h : Shape nodes) (hroot : root < nodes.length)
    (hleaf : (node_at nodes root).internal = false) : Shape (add_children root depth routers_used nodes) := by
  refine h.grow hroot (length_add_children nodes) ?_ ?_ hleaf ?_
  · intro cn
    by_cases hcn : cn = root
    · subst hcn
      simp [node_at_root_add_children hroot]
    · obtain ⟨_, _, heq⟩ := @node_at_add_children nodes root depth routers_used cn hcn
      simp [heq, hcn]
  · rw [node_at_root_add_children hroot]
    exact ⟨rfl, rfl⟩
  · intro cn hcn _
    obtain ⟨_, _, heq⟩ := @node_at_add_children nodes root depth routers_used cn hcn
    rw [heq]
    exact ⟨rfl, rfl, rfl⟩

end AddChildren

/-- Nothing has been counted. -/
def Uncounted (nodes : List Node) : Prop := ∀ cn, (node_at nodes cn).preds = [] ∧ (node_at nodes cn).n = 0

/-- What building a part of the tree leaves. -/
structure Built (nodes : List Node) (root : Nat) (nodes' : List Node) : Prop where
  shape : Shape nodes'
  length : nodes.length ≤ nodes'.length
  uncounted : Uncounted nodes'
  others : ∀ cn, cn < nodes.length → cn ≠ root → node_at nodes' cn = node_at nodes cn

theorem init_tree_from_built : ∀ (levels root depth : Nat) (nodes : List Node) (routers_used : Nat), Shape nodes →
    Uncounted nodes → root < nodes.length → (node_at nodes root).internal = false →
    Built nodes root (init_tree_from levels root depth (nodes, routers_used)).1 := by
  intro levels
  induction levels with
  | zero =>
    intro root depth nodes routers_used hshape huncounted _ _
    exact ⟨hshape, Nat.le_refl _, huncounted, fun _ _ _ => rfl⟩
  | succ levels ih =>
    intro root depth nodes routers_used hshape huncounted hroot hleaf
    have hgrown := @shape_add_children nodes root depth routers_used hshape hroot hleaf
    have hlength := @length_add_children root depth routers_used nodes
    have hcounts : Uncounted (add_children root depth routers_used nodes) := by
      intro cn
      by_cases hcn : cn = root
      · subst hcn
        rw [node_at_root_add_children hroot]
        exact huncounted cn
      · obtain ⟨_, _, heq⟩ := @node_at_add_children nodes root depth routers_used cn hcn
        rw [heq]
        exact huncounted cn
    have hnew : ∀ cn, nodes.length ≤ cn →
        (node_at (add_children root depth routers_used nodes) cn).internal = false := by
      intro cn hcn
      obtain ⟨_, _, heq⟩ := @node_at_add_children nodes root depth routers_used cn (by omega)
      rw [heq, node_at_of_ge hcn]
    show Built nodes root (init_tree_from levels (nodes.length + 1) (depth + 1) (init_tree_from levels nodes.length
      (depth + 1) (add_children root depth routers_used nodes, routers_used + 1))).1
    have hleft := ih nodes.length (depth + 1) _ (routers_used + 1) hgrown hcounts (by omega) (hnew _ (Nat.le_refl _))
    generalize init_tree_from levels nodes.length (depth + 1)
      (add_children root depth routers_used nodes, routers_used + 1) = built at hleft ⊢
    obtain ⟨nodes', routers_used'⟩ := built
    dsimp only at hleft ⊢
    have hinner : (node_at nodes' (nodes.length + 1)).internal = false := by
      rw [hleft.others _ (by omega) (by omega)]
      exact hnew _ (by omega)
    have hmore := hleft.length
    have hright := ih (nodes.length + 1)
      (depth + 1) nodes' routers_used' hleft.shape hleft.uncounted (by omega) hinner
    refine ⟨hright.shape, ?_, hright.uncounted, ?_⟩
    · have := hright.length
      omega
    · intro cn hlt hcn
      rw [hright.others cn (by omega) (by omega), hleft.others cn (by omega) (by omega),
        node_at_old_add_children hcn hlt]

theorem setup_built (node_only : Bool) (max_candidates max_depth : Nat) (bern_hyper : ℚ)
    (randomized_routing : Bool) :
    Shape (setup node_only max_candidates max_depth bern_hyper randomized_routing).nodes ∧
      0 < (setup node_only max_candidates max_depth bern_hyper randomized_routing).nodes.length ∧
      Uncounted (setup node_only max_candidates max_depth bern_hyper randomized_routing).nodes := by
  have hsingle : ∀ cn, node_at [({} : Node)] cn = {} := by
    intro cn
    rcases cn with _ | cn <;> rfl
  have hshape : Shape [({} : Node)] := by
    constructor
    · intro x c ⟨hx, _⟩
      rw [hsingle] at hx
      cases hx
    · intro x hx
      rw [hsingle] at hx
      cases hx
    · intro x y c ⟨hx, _⟩
      rw [hsingle] at hx
      cases hx
  have hcounts : Uncounted [({} : Node)] := by
    intro cn
    rw [hsingle]
    exact ⟨rfl, rfl⟩
  have hbuilt := init_tree_from_built max_depth 0 1 [({} : Node)] 0 hshape hcounts (by decide) rfl
  exact ⟨hbuilt.shape, hbuilt.length, hbuilt.uncounted⟩

end

/-! ## One example on its way down -/

section

variable {F W : Type} {fn : Functions} {env : Environment F W} {b : Tree} {cn child : Nat} {ec : Example F}

theorem node_insert (fn : Functions) (b : Tree) (cn c : Nat) (ec : Example F) :
    node_at (insert_example_at_node fn b cn ec).nodes c =
      if cn = c ∧ c < b.nodes.length then insert_at fn b ec.label ec.weight (node_at b.nodes c)
      else node_at b.nodes c := node_at_modify _ _ _

theorem length_insert (fn : Functions) (b : Tree) (cn : Nat) (ec : Example F) :
    (insert_example_at_node fn b cn ec).nodes.length = b.nodes.length := length_modify _ _ _

theorem samePlace_insert (fn : Functions) (b : Tree) (cn c : Nat) (ec : Example F) :
    SamePlace (node_at (insert_example_at_node fn b cn ec).nodes c) (node_at b.nodes c) := by
  rw [node_insert]
  split
  · exact (insert_at_spec fn b ec.label ec.weight _).2.2
  · exact ⟨rfl, rfl, rfl⟩

/-- What is kept in all rounds: the shape, and the statistics of each node for itself. -/
structure Sound (b : Tree) : Prop where
  shape : Shape b.nodes
  nodes : ∀ cn, NodeStatistics (node_at b.nodes cn)

theorem Sound.insert (h : Sound b) (cn : Nat) (ec : Example F) : Sound (insert_example_at_node fn b cn ec) := by
  constructor
  · exact h.shape.congr (length_insert fn b cn ec) fun c => samePlace_insert fn b cn c ec
  · intro c
    rw [node_insert]
    split
    · exact (h.nodes c).insert ec.weight_nonneg
    · exact h.nodes c

/-- The count of a label at a node. -/
def count_at (nodes : List Node) (cn : Nat) (label : BitVec 32) : ℚ := count_of (node_at nodes cn).preds label

theorem count_at_insert (h : Sound b) (hcn : cn < b.nodes.length) (c : Nat) (label : BitVec 32) :
    count_at (insert_example_at_node fn b cn ec).nodes c label =
      count_at b.nodes c label + if c = cn ∧ label = ec.label then ec.weight else 0 := by
  unfold count_at
  rw [node_insert]
  by_cases hc : c = cn
  · subst hc
    rw [if_pos ⟨rfl, hcn⟩, (insert_at_spec fn b ec.label ec.weight _).1,
      count_of_insert_preds (h.nodes c).ranked ec.weight_nonneg]
    simp
  · rw [if_neg fun hr => hc hr.1.symm, if_neg fun hr => hc hr.1, add_zero]

open Classical in
/-- The counts of every node cover those of its children, and of the parent of `cn` also the example. -/
def Ahead (b : Tree) (cn : Nat) (ec : Example F) : Prop :=
  ∀ x, (node_at b.nodes x).internal = true → ∀ label,
    count_at b.nodes (node_at b.nodes x).left label + count_at b.nodes (node_at b.nodes x).right label +
      (if IsChild b.nodes x cn ∧ label = ec.label then ec.weight else 0) ≤ count_at b.nodes x label

/-- The counts of every node cover those of its children. -/
def Covers (nodes : List Node) : Prop :=
  ∀ x, (node_at nodes x).internal = true → ∀ label,
    count_at nodes (node_at nodes x).left label + count_at nodes (node_at nodes x).right label ≤
      count_at nodes x label

open Classical in
/-- Counting at `cn` counts once among the children of its parent. -/
theorem children_insert (h : Sound b) (hcn : cn < b.nodes.length) {x : Nat}
    (hx : (node_at b.nodes x).internal = true) (label : BitVec 32) :
    count_at (insert_example_at_node fn b cn ec).nodes (node_at b.nodes x).left label +
        count_at (insert_example_at_node fn b cn ec).nodes (node_at b.nodes x).right label =
      count_at b.nodes (node_at b.nodes x).left label + count_at b.nodes (node_at b.nodes x).right label +
        if IsChild b.nodes x cn ∧ label = ec.label then ec.weight else 0 := by
  have hapart := h.shape.apart x hx
  rw [count_at_insert h hcn, count_at_insert h hcn]
  by_cases hlabel : label = ec.label
  · simp only [hlabel, and_true, IsChild, hx, true_and]
    by_cases hleft : cn = (node_at b.nodes x).left
    · have hright : ¬ (node_at b.nodes x).right = cn := fun hr => hapart (hleft.symm.trans hr.symm)
      rw [if_pos hleft.symm, if_neg hright, if_pos (.inl hleft)]
      ring
    · by_cases hright : cn = (node_at b.nodes x).right
      · rw [if_neg (Ne.symm hleft), if_pos hright.symm, if_pos (.inr hright)]
        ring
      · rw [if_neg (Ne.symm hleft), if_neg (Ne.symm hright), if_neg (by tauto)]
        ring
  · simp [hlabel]

/-- Counting at a node makes it one example ahead of its children. -/
theorem Ahead.insert (h : Sound b) (hahead : Ahead b cn ec) (hcn : cn < b.nodes.length)
    (hchild : IsChild b.nodes cn child) : Ahead (insert_example_at_node fn b cn ec) child ec := by
  intro x hx label
  have hplace := samePlace_insert fn b cn x ec
  have hinternal : (node_at b.nodes x).internal = true := hplace.internal ▸ hx
  -- `child` has no other parent than `cn`
  have hparent : IsChild (insert_example_at_node fn b cn ec).nodes x child ↔ x = cn := by
    rw [IsChild, hplace.internal, hplace.left, hplace.right]
    constructor
    · exact fun hc => h.shape.unique x cn child hc hchild
    · rintro rfl
      exact hchild
  have hle := hahead x hinternal label
  rw [hplace.left, hplace.right, children_insert h hcn hinternal, count_at_insert h hcn]
  simp only [hparent]
  linarith

/-- Counting at the last node. -/
theorem Ahead.insert_last (h : Sound b) (hahead : Ahead b cn ec) (hcn : cn < b.nodes.length) :
    Covers (insert_example_at_node fn b cn ec).nodes := by
  intro x hx label
  have hplace := samePlace_insert fn b cn x ec
  have hinternal : (node_at b.nodes x).internal = true := hplace.internal ▸ hx
  have hle := hahead x hinternal label
  have hweight := ec.weight_nonneg
  rw [hplace.left, hplace.right, children_insert h hcn hinternal, count_at_insert h hcn]
  refine hle.trans ?_
  split <;> linarith

/-- No node is the parent of the root. -/
theorem Covers.ahead_root (h : Covers b.nodes) (hshape : Shape b.nodes) (ec : Example F) : Ahead b 0 ec := by
  intro x hx label
  have hroot : ¬ IsChild b.nodes x 0 := fun hc => absurd (hshape.below x 0 hc).1 (Nat.not_lt_zero x)
  rw [if_neg fun hr => hroot hr.1, add_zero]
  exact h x hx label

/-- The descent ends at an inner node with all counted, or at a leaf where the example is still to be counted. -/
theorem go_down_spec : ∀ (fuel : Nat) (b : Tree) (cn : Nat) (w : W), Sound b → Ahead b cn ec → cn < b.nodes.length →
    b.nodes.length - cn < fuel → ∃ b' cn' w', go_down fn env fuel b cn ec w = some (b', cn', w') ∧ Sound b' ∧
      b'.nodes.length = b.nodes.length ∧ cn' < b'.nodes.length ∧
      (((node_at b'.nodes cn').internal = true ∧ Covers b'.nodes) ∨
        ((node_at b'.nodes cn').internal = false ∧ Ahead b' cn' ec)) := by
  intro fuel
  induction fuel with
  | zero => exact fun _ _ _ _ _ _ hfuel => absurd hfuel (Nat.not_lt_zero _)
  | succ fuel ih =>
    intro b cn w h hahead hcn hfuel
    unfold go_down
    by_cases hinternal : (b.node cn).internal = true
    · rw [if_pos hinternal]
      obtain ⟨which, w₁⟩ := which_way fn env b ec cn w
      dsimp only
      have hchild : IsChild b.nodes cn (descend (b.node cn) which) := by
        refine ⟨hinternal, ?_⟩
        unfold descend
        split
        · exact .inl rfl
        · exact .inr rfl
      obtain ⟨hlt, hbound⟩ := h.shape.below cn _ hchild
      have hinserted : Sound (insert_example_at_node fn b cn ec) := h.insert cn ec
      have hlength := length_insert fn b cn ec
      have hnext : Ahead (insert_example_at_node fn b cn ec) (descend (b.node cn) which) ec :=
        hahead.insert h hcn hchild
      by_cases hcond : stop_recurse_check b cn (descend (b.node cn) which) = true
      · rw [if_pos hcond]
        refine ⟨_, cn, w₁, rfl, hinserted.insert _ ec, ?_, ?_, .inl ⟨?_, ?_⟩⟩
        · rw [length_insert, hlength]
        · rw [length_insert, hlength]
          exact hcn
        · rw [(samePlace_insert fn _ _ cn ec).internal, (samePlace_insert fn b cn cn ec).internal]
          exact hinternal
        · exact hnext.insert_last hinserted (by omega)
      · rw [if_neg hcond]
        obtain ⟨b', cn', w', hrun, hsound, hlen, hrest⟩ := ih _ _ w₁ hinserted hnext (by omega) (by omega)
        exact ⟨b', cn', w', hrun, hsound, hlen.trans hlength, hrest⟩
    · rw [if_neg hinternal]
      exact ⟨b, cn, w, rfl, h, rfl, hcn, .inr ⟨Bool.not_eq_true _ ▸ hinternal, hahead⟩⟩

/-- The invariant between examples. -/
structure Counted (b : Tree) : Prop extends Sound b where
  covers : Covers b.nodes
  root : 0 < b.nodes.length

theorem learn_counted (training : Bool) (h : Counted b) (w : W) :
    ∃ b' w', learn fn env training b ec w = some (b', w') ∧ Counted b' := by
  unfold learn
  split
  · obtain ⟨b', cn', w', hrun, hsound, hlength, hcn', hend⟩ := @go_down_spec F W fn env ec (b.nodes.length + 1) b 0 w
      h.toSound (h.covers.ahead_root h.shape ec) h.root (by omega)
    have hroot : 0 < b'.nodes.length := by
      rw [hlength]
      exact h.root
    rw [hrun]
    rcases hend with ⟨hinner, hcovers⟩ | ⟨hleaf, hahead⟩
    · have hinner' : (b'.node cn').internal = true := hinner
      simp only [Option.bind_eq_bind, Option.bind_some, hinner', Bool.not_true, Bool.false_eq_true, if_false]
      exact ⟨b', _, rfl, hsound, hcovers, hroot⟩
    · have hleaf' : (b'.node cn').internal = false := hleaf
      simp only [Option.bind_eq_bind, Option.bind_some, hleaf', Bool.not_false, if_true]
      refine ⟨_, _, rfl, hsound.insert cn' ec, hahead.insert_last hsound hcn', ?_⟩
      rw [length_insert]
      exact hroot
  · exact ⟨b, w, rfl, h⟩

theorem learn_all_counted (training : Bool) (examples : List (Example F)) (h : Counted b) (w : W) :
    ∃ b' w', learn_all fn env training b w examples = some (b', w') ∧ Counted b' := by
  induction examples generalizing b w with
  | nil => exact ⟨b, w, rfl, h⟩
  | cons ec examples ih =>
    obtain ⟨b₁, w₁, hrun, hcounted⟩ := @learn_counted F W fn env b ec training h w
    obtain ⟨b', w', hrest, hend⟩ := ih hcounted w₁
    refine ⟨b', w', ?_, hend⟩
    unfold learn_all
    simp only [hrun, Option.bind_eq_bind, Option.bind_some]
    exact hrest

theorem setup_counted (node_only : Bool) (max_candidates max_depth : Nat) (bern_hyper : ℚ)
    (randomized_routing : Bool) :
    Counted (setup node_only max_candidates max_depth bern_hyper randomized_routing) := by
  obtain ⟨hshape, hroot, huncounted⟩ := setup_built node_only max_candidates max_depth bern_hyper randomized_routing
  refine ⟨⟨hshape, ?_⟩, ?_, hroot⟩
  · intro cn
    obtain ⟨hpreds, hn⟩ := huncounted cn
    constructor
    · rw [hpreds]
      exact ⟨nodup_nil, List.Pairwise.nil, fun p hp => absurd hp not_mem_nil⟩
    · rw [hpreds, hn]
      rfl
  · intro x _ label
    simp only [count_at, (huncounted _).1]
    simp [count_of]

end

/-! ## All examples -/

/-- The statistics of a tree. Of the labels at a node the first `max_candidates` are the most frequent ones. -/
structure Statistics (b : Tree) : Prop where
  distinct : ∀ cn, ((b.node cn).preds.map NodePred.label).Nodup
  order : ∀ cn, (b.node cn).preds.Pairwise fun p q => q.label_count ≤ p.label_count
  n_eq : ∀ cn, (b.node cn).n = ((b.node cn).preds.map label_count).sum
  children : ∀ cn, (b.node cn).internal = true → ∀ label,
    count_of (b.node (b.node cn).left).preds label + count_of (b.node (b.node cn).right).preds label ≤
      count_of (b.node cn).preds label
  candidates : ∀ cn max_candidates, ∀ p ∈ (b.node cn).preds.take max_candidates,
    ∀ q ∈ (b.node cn).preds.drop max_candidates, q.label_count ≤ p.label_count

/-- Whatever the base learner predicts and the random numbers are, learning ends, with these statistics. -/
theorem recall_tree_statistics {F W : Type} (fn : Functions) (env : Environment F W) (node_only : Bool)
    (max_candidates max_depth : Nat) (bern_hyper : ℚ) (randomized_routing training : Bool) (w : W)
    (examples : List (Example F)) :
    ∃ b w', learn_all fn env training (setup node_only max_candidates max_depth bern_hyper randomized_routing) w
      examples = some (b, w') ∧ Statistics b := by
  obtain ⟨b, w', hrun, hcounted⟩ := @learn_all_counted F W fn env _ training examples
    (setup_counted node_only max_candidates max_depth bern_hyper randomized_routing) w
  refine ⟨b, w', hrun, fun cn => (hcounted.nodes cn).ranked.distinct, fun cn => (hcounted.nodes cn).ranked.order,
    fun cn => (hcounted.nodes cn).n_eq, hcounted.covers, ?_⟩
  intro cn k p hp q hq
  have horder := (hcounted.nodes cn).ranked.order
  rw [← take_append_drop k (node_at b.nodes cn).preds] at horder
  exact (pairwise_append.mp horder).2.2 p hp q hq

end VW.RecallTree
