import VowpalWabbit.Trees.Asked

/-! # The bandwidth of the CATS tree

    With `2 ^ D` leaves and a bandwidth of `2 ^ h`, two nodes go to one side only: the first node
    `h + 1` levels above the leaves goes to the right, and the last one there to the left. Prediction
    so keeps away from the `2 ^ h` leaves at either end.

    Learning leaves the cost of such a node as that of the node that it came from. This is the child
    that prediction takes when the walk of the label comes from there, and otherwise it is right
    only if the two children cost the same. The nodes are taken by level and position, so that the
    parent of position `q` is at `q / 2`.
-/

open Cpp VW.Trees

namespace VW.CatsTree

open List Nat

/-! ## Positions -/

/-- The node at position `q` of the level `i` above the leaves. -/
def place (D i q : Nat) : Nat := 2 ^ (D - i) - 1 + q

/-- The other child of the same parent. -/
def mate (q : Nat) : Nat := if q % 2 = 0 then q + 1 else q - 1

section Positions

variable {D i q : Nat}

theorem up_place (hi : i < D) : up (place D i q) = place D (i + 1) (q / 2) := by
  obtain ⟨d, hd⟩ : ∃ d, D - i = d + 1 := ⟨D - i - 1, by omega⟩
  have hpos : 0 < 2 ^ d := Nat.two_pow_pos d
  unfold up place
  rw [show D - (i + 1) = d by omega, hd]
  omega

theorem up_iterate_place (hi : i ≤ D) : up^[i] (place D 0 q) = place D i (q / 2 ^ i) := by
  induction i with
  | zero => simp
  | succ i ih =>
    rw [Function.iterate_succ_apply', ih (by omega), up_place (by omega), Nat.div_div_eq_div_mul,
      Nat.pow_succ]

theorem place_lt (hi : i ≤ D) (hq : q < 2 ^ (D - i)) : place D i q < 2 * 2 ^ D - 1 := by
  have hle : 2 ^ (D - i) ≤ 2 ^ D := Nat.pow_le_pow_right Nat.two_pos (by omega)
  unfold place
  omega

theorem two_pow_sub_pos (hi : i ≤ D) : 2 ^ D = 2 ^ (D - i) * 2 ^ i := by
  rw [← Nat.pow_add, Nat.sub_add_cancel hi]

theorem two_pow_sub (hi : i < D) : 2 ^ (D - i) = 2 * 2 ^ (D - (i + 1)) := by
  rw [← Nat.pow_succ', show (D - (i + 1)).succ = D - i by omega]

theorem two_le_two_pow_sub (hi : i < D) : 2 ≤ 2 ^ (D - i) := by
  have hpos := Nat.two_pow_pos (D - (i + 1))
  rw [two_pow_sub hi]
  omega

/-- The leaf below stays in the level. -/
theorem div_lt_level (hi : i ≤ D) (hq : q < 2 ^ D) : q / 2 ^ i < 2 ^ (D - i) := by
  rw [Nat.div_lt_iff_lt_mul (Nat.two_pow_pos i), ← two_pow_sub_pos hi]
  exact hq

end Positions

/-- The numbers of a level are between powers of two. -/
theorem two_pow_unique {a b n : Nat} (ha : 2 ^ a ≤ n) (ha' : n < 2 ^ (a + 1)) (hb : 2 ^ b ≤ n)
    (hb' : n < 2 ^ (b + 1)) :
    a = b := by
  have hlt : ∀ {a b : Nat}, 2 ^ a ≤ n → n < 2 ^ (b + 1) → a ≤ b := by
    intro a b hle hlt
    by_contra hnot
    have hpow : 2 ^ (b + 1) ≤ 2 ^ a := Nat.pow_le_pow_right Nat.two_pos (by omega)
    omega
  exact Nat.le_antisymm (hlt ha hb') (hlt hb ha')

/-! ## The nodes that go to one side -/

section Forced

variable {D h i q : Nat}

theorem right_only_place (hh : h + 2 ≤ D) (hi : i ≤ D) (hq : q < 2 ^ (D - i)) :
    right_only (2 ^ D) (2 ^ h) (place D i q) = true ↔ i = h + 1 ∧ q = 0 := by
  have hdiv : 2 ^ D / 2 ^ h / 2 = 2 ^ (D - (h + 1)) := by
    rw [Nat.div_div_eq_div_mul, ← Nat.pow_succ, Nat.pow_div (by omega) Nat.two_pos]
  have hne : 2 ^ h ≠ 0 := Nat.ne_of_gt (Nat.two_pow_pos h)
  have hpos' := Nat.two_pow_pos (D - (h + 1))
  unfold right_only place
  rw [hdiv, decide_eq_true_eq, and_iff_right hne]
  constructor
  · intro heq
    have hlevel := @two_pow_unique (D - i) (D - (h + 1)) (2 ^ (D - i) + q) (by omega) (by omega)
      (by omega) (by omega)
    rw [hlevel] at heq
    omega
  · rintro ⟨rfl, rfl⟩
    rfl

theorem left_only_place (hh : h + 2 ≤ D) (hi : i ≤ D) (hq : q < 2 ^ (D - i)) :
    left_only (2 ^ D) (2 ^ h) (place D i q) = true ↔ i = h + 1 ∧ q = 2 ^ (D - (h + 1)) - 1 := by
  have hdiv : 2 ^ D / 2 ^ h = 2 * 2 ^ (D - (h + 1)) := by
    rw [Nat.pow_div (by omega) Nat.two_pos, ← Nat.pow_succ',
      show (D - (h + 1)).succ = D - h by omega]
  have hne : 2 ^ h ≠ 0 := Nat.ne_of_gt (Nat.two_pow_pos h)
  have htwo : 2 ≤ 2 ^ (D - (h + 1)) := two_le_two_pow_sub (by omega)
  unfold left_only place
  rw [hdiv, decide_eq_true_eq, and_iff_right hne]
  constructor
  · intro heq
    have hlevel := @two_pow_unique (D - i) (D - (h + 1)) (2 ^ (D - i) + q) (by omega) (by omega)
      (by omega) (by omega)
    rw [hlevel] at heq hq
    omega
  · rintro ⟨rfl, rfl⟩
    omega

/-- A node by its level and position. -/
structure AtPlace (D h i q : Nat) (v : TreeNode) : Prop where
  id : v.id = place D i q
  parent_id : v.parent_id = up (place D i q)
  leaf : i = 0 → v.is_leaf = true
  inner : 0 < i → v.is_leaf = false ∧ v.left_id = place D (i - 1) (2 * q) ∧ v.right_id =
    place D (i - 1) (2 * q + 1)
  right_only : v.right_only = true ↔ i = h + 1 ∧ q = 0
  left_only : v.left_only = true ↔ i = h + 1 ∧ q = 2 ^ (D - (h + 1)) - 1

theorem Numbered.at_place {t : MinDepthBinaryTree} (ht : Numbered (2 ^ D) (2 ^ h) t)
    (hh : h + 2 ≤ D) (hi : i ≤ D)
    (hq : q < 2 ^ (D - i)) : ∃ v, t.nodes[place D i q]? = some v ∧ AtPlace D h i q v := by
  obtain ⟨v, hv, hid, hparent, hinner, hleaf, hsided⟩ := ht.node (place D i q) (place_lt hi hq)
  refine ⟨v, hv, hid, hparent, ?_, ?_, ?_, ?_⟩
  · rintro rfl
    exact hleaf (by simp [place])
  · intro hlevel
    have hpow : 2 ^ (D - (i - 1)) = 2 * 2 ^ (D - i) := by
      rw [← Nat.pow_succ', show (D - i).succ = D - (i - 1) by omega]
    have hle : 2 ^ (D - (i - 1)) ≤ 2 ^ D := Nat.pow_le_pow_right Nat.two_pos (by omega)
    obtain ⟨hleft, hright, hnot⟩ := hinner (by unfold place; omega)
    refine ⟨hnot, ?_, ?_⟩
    · rw [hleft]
      unfold place
      omega
    · rw [hright]
      unfold place
      omega
  all_goals
    rcases Nat.eq_zero_or_pos (place D i q) with hroot | hpositive
    · -- the root is above that level
      have hzero : D - i = 0 := by
        by_contra hne
        have hpow : 2 ^ 1 ≤ 2 ^ (D - i) := Nat.pow_le_pow_right Nat.two_pos (by omega)
        unfold place at hroot
        omega
      obtain ⟨hright, hleft⟩ := hsided.root hroot
      simp only [hright, hleft, Bool.false_eq_true, false_iff]
      omega
    · obtain ⟨hright, hleft⟩ := hsided.inner hpositive
      first
        | rw [hright]; exact right_only_place hh hi hq
        | rw [hleft]; exact left_only_place hh hi hq

end Forced

/-! ## Prediction -/

variable {v : TreeNode}

section Predict

theorem numbered (D h : Nat) : Numbered (2 ^ D) (2 ^ h) (build_tree (2 ^ D) (2 ^ h)) :=
  build_tree_numbered Nat.one_le_two_pow

variable {W R : Type} [Field R] [LinearOrder R] {D h : Nat} {t : MinDepthBinaryTree}
  (base : BaseLearner W R)

/-- The nodes that the way down reaches: above the level below the forced nodes all, and then all
    but those below its first and its last node. -/
def Reached (D h i q : Nat) : Prop := i ≤ h → 2 ^ (h - i) ≤ q ∧ q + 2 ^ (h - i) < 2 ^ (D - i)

theorem Reached.child {i q : Nat} (hh : h + 2 ≤ D) (hi : i < D) (hq : q < 2 ^ (D - (i + 1)))
    (hreached : Reached D h (i + 1) q) (right : Bool) (hright : i = h → q = 0 → right = true)
    (hleft : i = h → q = 2 ^ (D - (h + 1)) - 1 → right = false) :
    Reached D h i (if right then 2 * q + 1 else 2 * q) := by
  intro hle
  have hpow : 2 ^ (D - i) = 2 * 2 ^ (D - (i + 1)) := two_pow_sub (by omega)
  rcases Nat.eq_or_lt_of_le hle with rfl | hlt
  · -- the two forced nodes keep away from the ends
    rw [Nat.sub_self, Nat.pow_zero, hpow]
    cases right
    · have hne : q ≠ 0 := fun hzero => absurd (hright rfl hzero) (by decide)
      simp only [Bool.false_eq_true, if_false]
      omega
    · have hne : q ≠ 2 ^ (D - (i + 1)) - 1 := fun hlast => absurd (hleft rfl hlast) (by decide)
      simp only [if_true]
      omega
  · obtain ⟨hlow, hhigh⟩ := hreached hlt
    have hpow' : 2 ^ (h - i) = 2 * 2 ^ (h - (i + 1)) := by
      rw [← Nat.pow_succ', show (h - (i + 1)).succ = h - i by omega]
    rw [hpow, hpow']
    split <;> omega

/-- The way down ends at a leaf that is at least `2 ^ h` leaves away from both ends. -/
theorem descend_reached (ht : Numbered (2 ^ D) (2 ^ h) t) (hh : h + 2 ≤ D) {i q : Nat}
    (hi : i ≤ D) (hq : q < 2 ^ (D - i)) (hreached : Reached D h i q)
    (hv : t.nodes[place D i q]? = some v) {fuel : Nat} (hfuel : i < fuel) :
    (descend t base fuel v).Finishes Any (fun u _ => ∃ leaf, 2 ^ h ≤ leaf ∧ leaf + 2 ^ h < 2 ^ D ∧
      u.id = place D 0 leaf)
      fun _ => False := by
  induction i generalizing q v fuel with
  | zero =>
    obtain ⟨fuel, rfl⟩ : ∃ n, fuel = n + 1 := ⟨fuel - 1, by omega⟩
    obtain ⟨v', hv', hplace⟩ := ht.at_place hh hi hq
    rw [hv] at hv'
    cases hv'
    unfold descend
    rw [if_pos (hplace.leaf rfl)]
    obtain ⟨hlow, hhigh⟩ := hreached (Nat.zero_le h)
    exact .pure fun _ _ => ⟨q, hlow, hhigh, hplace.id⟩
  | succ i ih =>
    obtain ⟨fuel, rfl⟩ : ∃ n, fuel = n + 1 := ⟨fuel - 1, by omega⟩
    obtain ⟨v', hv', hplace⟩ := ht.at_place hh hi hq
    rw [hv] at hv'
    cases hv'
    obtain ⟨hinner, hleft_id, hright_id⟩ := hplace.inner (succ_pos i)
    rw [Nat.add_sub_cancel] at hleft_id hright_id
    have hpow : 2 ^ (D - i) = 2 * 2 ^ (D - (i + 1)) := two_pow_sub (by omega)
    -- one step down, to a side that the node does not exclude
    have hstep : ∀ (right : Bool) (id : Nat), id = (if right then v.right_id else v.left_id) →
        (i = h → q = 0 → right = true) → (i = h → q = 2 ^ (D - (h + 1)) - 1 → right = false) →
        (t.node id >>= descend t base fuel).Finishes Any
          (fun u _ => ∃ leaf, 2 ^ h ≤ leaf ∧ leaf + 2 ^ h < 2 ^ D ∧ u.id = place D 0 leaf) fun _ =>
            False := by
      intro right id hid hright hleft
      have hchild := hreached.child hh (lt_of_succ_le hi) hq right hright hleft
      have hlt : (if right then 2 * q + 1 else 2 * q) < 2 ^ (D - i) := by
        rw [hpow]
        split <;> omega
      obtain ⟨u, hu, -⟩ := ht.at_place hh (le_of_succ_le hi) hlt
      have hid' : id = place D i (if right then 2 * q + 1 else 2 * q) := by
        rw [hid, hleft_id, hright_id]
        cases right <;> rfl
      intro s hs
      rw [hid', node_run hu]
      exact ih (le_of_succ_le hi) hlt hchild hu (by omega) s hs
    have hforced_right := hplace.right_only
    have hforced_left := hplace.left_only
    unfold descend
    rw [if_neg (by rw [hinner]; decide)]
    by_cases hright : v.right_only = true
    · rw [if_pos hright]
      have hq_zero := (hforced_right.mp hright).2
      have hlast : 2 ≤ 2 ^ (D - (h + 1)) := two_le_two_pow_sub (by omega)
      exact hstep true _ rfl (fun _ _ => rfl) fun _ hq_last => absurd hq_last (by omega)
    · rw [if_neg hright]
      have hnot_right : ¬ (i = h ∧ q = 0) :=
        fun ⟨hlevel, hzero⟩ => hright (hforced_right.mpr ⟨by omega, hzero⟩)
      by_cases hleft : v.left_only = true
      · rw [if_pos hleft]
        exact hstep false _ rfl (fun hlevel hzero => absurd ⟨hlevel, hzero⟩ hnot_right)
          fun _ _ => rfl
      · rw [if_neg hleft]
        have hnot_left : ¬ (i = h ∧ q = 2 ^ (D - (h + 1)) - 1) := fun ⟨hlevel, hlast⟩ =>
          hleft (hforced_left.mpr ⟨by omega, hlast⟩)
        refine any_bind_finishes (fun _ _ => trivial) fun _ => ?_
        refine any_bind_finishes (fun _ _ => trivial) fun _ => ?_
        refine any_bind_finishes (fun _ _ => trivial) fun ec => ?_
        refine hstep (decide (¬ ec.pred.scalar < 0)) _ ?_
          (fun hlevel hzero => absurd ⟨hlevel, hzero⟩ hnot_right)
          fun hlevel hlast => absurd ⟨hlevel, hlast⟩ hnot_left
        by_cases hscalar : ec.pred.scalar < 0
        · simp [hscalar]
        · simp [hscalar]

/-- Every route of predictions returns an action that is at least `2 ^ h` actions away from both
    ends. -/
def PredictsInside (R : Type) [Field R] [LinearOrder R] (K bandwidth : Nat) : Prop :=
  ∀ (W : Type) (base : BaseLearner W R) (fuel : Nat), (build_tree K bandwidth).depth < fuel →
    ∀ s : State W R,
    ∃ action s', predict_action (build_tree K bandwidth) base fuel s = .returned action s' ∧
      bandwidth + 1 ≤ action ∧ action ≤ K - bandwidth

theorem Numbered.depth_of_pow (ht : Numbered (2 ^ D) (2 ^ h) t) : t.depth = D := by
  rw [← ht.depth_eq Nat.one_le_two_pow, clog_pow 2 D (by decide)]

theorem predictsInside (hh : h + 2 ≤ D) : PredictsInside R (2 ^ D) (2 ^ h) := by
  have ht := numbered D h
  have hleaves : (build_tree (2 ^ D) (2 ^ h)).num_leaf_nodes ≠ 0 := by
    rw [ht.num_leaf_nodes]
    exact Nat.ne_of_gt (Nat.two_pow_pos D)
  intro W base fuel hfuel s
  rw [ht.depth_of_pow] at hfuel
  have hroot_place : place D D 0 = 0 := by simp [place]
  obtain ⟨root, hroot, -⟩ := ht.at_place hh (Nat.le_refl D) (q := 0) (Nat.two_pow_pos _)
  have hdescend := descend_reached base ht hh (Nat.le_refl D) (Nat.two_pow_pos _)
    (fun hle => absurd hle (by omega)) hroot hfuel
  rw [hroot_place] at hroot
  have hrun : (predict_action (build_tree (2 ^ D) (2 ^ h)) base fuel).Finishes Any
      (fun action _ => 2 ^ h + 1 ≤ action ∧ action ≤ 2 ^ D - 2 ^ h) fun _ => False := by
    unfold predict_action
    rw [if_neg hleaves]
    refine any_bind_finishes (fun _ _ => trivial) fun ec => ?_
    refine any_bind_finishes (fun _ _ => trivial) fun _ => ?_
    refine any_bind_finishes (fun _ _ => trivial) fun _ => ?_
    intro s hs
    rw [node_run hroot]
    refine hdescend.bind (fun u => ?_) s hs
    intro s ⟨leaf, hlow, hhigh, hid⟩
    have haction : u.id - (build_tree (2 ^ D) (2 ^ h)).internal_node_count + 1 = leaf + 1 := by
      rw [hid, MinDepthBinaryTree.internal_node_count, ht.length, ht.num_leaf_nodes]
      unfold place
      rw [Nat.sub_zero]
      omega
    show 2 ^ h + 1 ≤ u.id - (build_tree (2 ^ D) (2 ^ h)).internal_node_count + 1 ∧
      u.id - (build_tree (2 ^ D) (2 ^ h)).internal_node_count + 1 ≤ 2 ^ D - 2 ^ h
    rw [haction]
    omega
  obtain ⟨action, s', hend, hinside⟩ := hrun.returns (s := s) trivial
  exact ⟨action, s', hend, hinside⟩

end Predict

/-! ## A round below the level of these nodes -/

section Costs

variable {R : Type} [Field R] {c ca cb : R} {x y q : Nat}

/-- The cost that the node at position `q` has beside two nodes at the positions `x` and `y` of its
    level. -/
def cost_at (c : R) (x : Nat) (ca : R) (y : Nat) (cb : R) (q : Nat) : R :=
  if q < x then 0 else if q = x then ca else if q < y then c else if q = y then cb else 0

theorem cost_at_before (h : q < x) : cost_at c x ca y cb q = 0 := if_pos h

theorem cost_at_first (h : q = x) : cost_at c x ca y cb q = ca := by
  unfold cost_at
  rw [if_neg (by omega), if_pos h]

theorem cost_at_between (h : x < q) (h' : q < y) : cost_at c x ca y cb q = c := by
  unfold cost_at
  rw [if_neg (by omega), if_neg (by omega), if_pos h']

theorem cost_at_second (h : x < y) (h' : q = y) : cost_at c x ca y cb q = cb := by
  unfold cost_at
  rw [if_neg (by omega), if_neg (by omega), if_neg (by omega), if_pos h']

theorem cost_at_behind (h : x < q) (h' : y < q) : cost_at c x ca y cb q = 0 := by
  unfold cost_at
  rw [if_neg (by omega), if_neg (by omega), if_neg (by omega), if_neg (by omega)]

end Costs

section Round

variable {W R : Type} [Field R] [LinearOrder R] {D h : Nat} {t : MinDepthBinaryTree} {draw : R}
  {base : BaseLearner W R} {Q : Bool → R → R → R → Prop}

omit [LinearOrder R] in
theorem return_cost_place {c : R} {ab : NodeCosts R} {i x y q : Nat}
    (ha : ab.1.node_id = place D i x)
    (hb : ab.2.node_id = place D i y) : return_cost c ab (place D i q) =
      cost_at c x ab.1.cost y ab.2.cost q := by
  unfold return_cost cost_at
  rw [ha, hb]
  unfold place
  simp only [Nat.add_lt_add_iff_left, Nat.add_left_cancel_iff]

/-- What a base learner makes of the costs of two siblings: of `cost_v`, which is that of the right
    one if `right`, and `cost_w` the cost of the parent. -/
def Settles (random_draw : R) (base : BaseLearner W R) (Q : Bool → R → R → R → Prop) : Prop :=
  ∀ (v w v_parent : TreeNode) (cost_v cost_w : R) (right : Bool),
    (v.id = v_parent.left_id ↔ right = false) →
    (w.id = v_parent.left_id ↔ right = true) →
      (parent_cost random_draw base v w v_parent cost_v cost_w).Finishes Any
        (fun cost _ => Q right cost_v cost_w cost)
        fun _ => False

/-- Whether a small weight keeps the base learner from being trained. -/
def Filtered (random_draw weight : R) : Prop := |weight| < weight_th ∧ ¬ random_draw < |weight|

/-- The parent is one that goes to one side only. -/
def Forced (D h i q : Nat) : Prop := i = h ∧ (q / 2 = 0 ∨ q / 2 = 2 ^ (D - (h + 1)) - 1)

theorem half_lt {i q : Nat} (hi : i < D) (hq : q < 2 ^ (D - i)) : q / 2 < 2 ^ (D - (i + 1)) := by
  have hpow : 2 ^ (D - i) = 2 * 2 ^ (D - (i + 1)) := two_pow_sub (by omega)
  omega

variable {ab : NodeCosts R} {n_c : NodeCost R}

theorem learn_node_forced (ht : Numbered (2 ^ D) (2 ^ h) t) (hh : h + 2 ≤ D) {c : R} {i q : Nat}
    (hi : i < D) (hq : q < 2 ^ (D - i)) (hid : n_c.node_id = place D i q)
    (hforced : Forced D h i q) (s : State W R) :
    learn_node t draw base c ab n_c s = .returned n_c.cost s := by
  obtain ⟨v, hv, hv_place⟩ := ht.at_place hh (Nat.le_of_lt hi) hq
  obtain ⟨v_parent, hp, hp_place⟩ := ht.at_place hh (show i + 1 ≤ D from hi) (half_lt hi hq)
  rw [← hid] at hv
  unfold learn_node
  rw [node_run hv, hv_place.parent_id, up_place hi, node_run hp]
  obtain ⟨rfl, hside⟩ := hforced
  rw [if_pos]
  · rfl
  · exact hside.imp (fun hzero => hp_place.right_only.mpr ⟨rfl, hzero⟩) fun hlast =>
      hp_place.left_only.mpr ⟨rfl, hlast⟩

theorem learn_node_settled (ht : Numbered (2 ^ D) (2 ^ h) t) (hh : h + 2 ≤ D)
    (hbase : Settles draw base Q) {c : R} {i q : Nat} (hi : i < D) (hq : q < 2 ^ (D - i))
    (hid : n_c.node_id = place D i q) (hfree : ¬ Forced D h i q) :
    (learn_node t draw base c ab n_c).Finishes Any
      (fun cost _ => Q (decide (q % 2 = 1)) n_c.cost (return_cost c ab (place D i (mate q))) cost)
        fun _ => False := by
  obtain ⟨v, hv, hv_place⟩ := ht.at_place hh (Nat.le_of_lt hi) hq
  obtain ⟨v_parent, hp, hp_place⟩ := ht.at_place hh (show i + 1 ≤ D from hi) (half_lt hi hq)
  have hmate : mate q < 2 ^ (D - i) := by
    have hpow : 2 ^ (D - i) = 2 * 2 ^ (D - (i + 1)) := two_pow_sub (by omega)
    unfold mate
    split <;> omega
  obtain ⟨w, hw, hw_place⟩ := ht.at_place hh (Nat.le_of_lt hi) hmate
  obtain ⟨-, hleft_id, hright_id⟩ := hp_place.inner (succ_pos i)
  rw [Nat.add_sub_cancel] at hleft_id hright_id
  have hv_left : v.id = v_parent.left_id ↔ decide (q % 2 = 1) = false := by
    rw [hv_place.id, hleft_id, decide_eq_false_iff_not]
    unfold place
    omega
  have hw_left : w.id = v_parent.left_id ↔ decide (q % 2 = 1) = true := by
    rw [hw_place.id, hleft_id, decide_eq_true_eq]
    unfold place mate
    split <;> omega
  have hsibling : (if v.id = v_parent.left_id then v_parent.right_id else v_parent.left_id) =
    place D i (mate q) := by
    by_cases hodd : q % 2 = 1
    · rw [if_neg (by rw [hv_left, decide_eq_false_iff_not]; exact fun hnot => hnot hodd), hleft_id]
      unfold place mate
      rw [if_neg (by omega)]
      omega
    · rw [if_pos (by rw [hv_left, decide_eq_false_iff_not]; exact hodd), hright_id]
      unfold place mate
      rw [if_pos (by omega)]
      omega
  have hfree' : ¬ (v_parent.right_only = true ∨ v_parent.left_only = true) := by
    rw [hp_place.right_only, hp_place.left_only]
    rintro (⟨hlevel, hzero⟩ | ⟨hlevel, hlast⟩)
    · exact hfree ⟨by omega, .inl hzero⟩
    · exact hfree ⟨by omega, .inr hlast⟩
  intro s hs
  rw [← hid] at hv
  unfold learn_node
  rw [node_run hv, hv_place.parent_id, up_place hi, node_run hp, if_neg hfree']
  unfold MinDepthBinaryTree.get_sibling
  rw [hsibling, node_run hw, hw_place.id]
  exact hbase v w v_parent _ _ _ hv_left hw_left s hs

/-- What a round makes of the two costs. -/
structure Round (D h i : Nat) (Q : Bool → R → R → R → Prop) (c : R) (x y : Nat)
    (ab ab' : NodeCosts R) : Prop where
  a_id : ab'.1.node_id = place D (i + 1) (x / 2)
  b_id : ab'.2.node_id = place D (i + 1) (y / 2)
  a_forced : Forced D h i x → ab'.1.cost = ab.1.cost
  a_free : ¬ Forced D h i x → Q (decide (x % 2 = 1)) ab.1.cost
    (cost_at c x ab.1.cost y ab.2.cost (mate x)) ab'.1.cost
  b_forced : x / 2 ≠ y / 2 → Forced D h i y → ab'.2.cost = ab.2.cost
  b_free : x / 2 ≠ y / 2 → ¬ Forced D h i y →
    Q (decide (y % 2 = 1)) ab.2.cost (cost_at c x ab.1.cost y ab.2.cost (mate y)) ab'.2.cost
  b_same : x / 2 = y / 2 → ab'.2.cost = ab.2.cost

theorem learn_level_round (ht : Numbered (2 ^ D) (2 ^ h) t) (hh : h + 2 ≤ D)
    (hbase : Settles draw base Q) {c : R}
    {ab : NodeCosts R} {i x y : Nat} (hi : i < D) (hx : x < 2 ^ (D - i)) (hy : y < 2 ^ (D - i))
    (ha : ab.1.node_id = place D i x) (hb : ab.2.node_id = place D i y) :
    (learn_level t draw base c ab).Finishes Any (fun ab' _ => Round D h i Q c x y ab ab') fun _ =>
      False := by
  obtain ⟨a, hget_a, ha_place⟩ := ht.at_place hh (Nat.le_of_lt hi) hx
  obtain ⟨b, hget_b, hb_place⟩ := ht.at_place hh (Nat.le_of_lt hi) hy
  -- what is known of the cost of one parent
  have hnode : ∀ {n_c : NodeCost R} {q : Nat}, q < 2 ^ (D - i) → n_c.node_id = place D i q →
      (learn_node t draw base c ab n_c).Finishes Any
        (fun cost _ => (Forced D h i q → cost = n_c.cost) ∧
        (¬ Forced D h i q → Q (decide (q % 2 = 1)) n_c.cost
          (cost_at c x ab.1.cost y ab.2.cost (mate q)) cost))
        fun _ => False := by
    intro n_c q hq hid
    by_cases hforced : Forced D h i q
    · intro s hs
      rw [learn_node_forced ht hh hi hq hid hforced]
      exact ⟨fun _ => rfl, fun hnot => absurd hforced hnot⟩
    · refine (learn_node_settled ht hh hbase hi hq hid hforced).mono (fun _ h => h)
        (fun cost s hcost => ?_) fun _ h => h
      rw [return_cost_place ha hb] at hcost
      exact ⟨fun hyes => absurd hyes hforced, fun _ => hcost⟩
  have hsame : a.parent_id = b.parent_id ↔ x / 2 = y / 2 := by
    rw [ha_place.parent_id, hb_place.parent_id, up_place hi, up_place hi]
    unfold place
    omega
  intro s hs
  rw [← ha] at hget_a
  rw [← hb] at hget_b
  unfold learn_level
  rw [node_run hget_a, node_run hget_b]
  refine (hnode hx ha).bind (fun a_parent_cost => ?_) s hs
  have ha_id : a.parent_id = place D (i + 1) (x / 2) := ha_place.parent_id.trans (up_place hi)
  have hb_id : b.parent_id = place D (i + 1) (y / 2) := hb_place.parent_id.trans (up_place hi)
  by_cases hone : a.parent_id = b.parent_id
  · rw [if_pos hone]
    have hone' := hsame.mp hone
    exact .pure fun s hcost =>
      ⟨ha_id, hb_id, hcost.1, hcost.2, fun hne => absurd hone' hne, fun hne => absurd hone' hne,
      fun _ => rfl⟩
  · rw [if_neg hone]
    intro s hcost_a
    refine Call.Finishes.bind (hnode hy hb) (fun b_parent_cost => ?_) s trivial
    exact .pure fun s hcost =>
      ⟨ha_id, hb_id, hcost_a.1, hcost_a.2, fun _ => hcost.1, fun _ => hcost.2,
      fun heq => absurd (hsame.mpr heq) hone⟩

/-- The rounds below the forced nodes keep what each of them keeps. -/
theorem rounds_keep (ht : Numbered (2 ^ D) (2 ^ h) t) (hh : h + 2 ≤ D)
    (hbase : Settles draw base Q) {c : R}
    {x y : Nat} (hx : x < 2 ^ D) (hy : y < 2 ^ D) {I : Nat → NodeCosts R → Prop} {ab : NodeCosts R}
    (ha : ab.1.node_id = place D 0 x) (hb : ab.2.node_id = place D 0 y) (hstart : I 0 ab)
    (hstep : ∀ i < h, ∀ ab ab', I i ab → Round D h i Q c (x / 2 ^ i) (y / 2 ^ i) ab ab' →
      I (i + 1) ab') {i : Nat} (hi : i ≤ h) :
    (rounds draw base t c i ab).Finishes Any
      (fun ab' _ => ab'.1.node_id = place D i (x / 2 ^ i) ∧ ab'.2.node_id = place D i (y / 2 ^ i) ∧
        I i ab') fun _ => False := by
  refine (Call.Finishes.foldlM_range (I := fun i ab' (_ : State W R) =>
    ab'.1.node_id = place D i (x / 2 ^ i) ∧
    ab'.2.node_id = place D i (y / 2 ^ i) ∧ I i ab') (fun i hlt ab' => ?_) ab).mono (fun s hs => ?_)
      (fun _ _ h => h)
    fun _ h => h
  · intro s ⟨ha', hb', hI⟩
    refine (learn_level_round ht hh hbase (by omega) (div_lt_level (by omega) hx)
      (div_lt_level (by omega) hy) ha' hb').mono
      (fun _ h => h) (fun ab'' s hround => ⟨?_, ?_, hstep i (by omega) ab' ab'' hI hround⟩)
        (fun _ h => h) s trivial
    · rw [hround.a_id, Nat.div_div_eq_div_mul, Nat.pow_succ]
    · rw [hround.b_id, Nat.div_div_eq_div_mul, Nat.pow_succ]
  · exact ⟨by simpa using ha, by simpa using hb, hstart⟩

end Round

/-! ## What base learners make of two costs -/

section Bases

variable {W R : Type} [Field R] [LinearOrder R] {draw : R} {base : BaseLearner W R}

variable {P : R → Prop}

theorem train_predicting (hbase : ∀ n ec w, P (base.predict n ec w).1.pred.scalar) (p : Nat)
    (local_action cost_v cost_w : R) :
    (train base p local_action cost_v cost_w).Finishes Any (fun cost _ => ∃ scalar, P scalar ∧
      cost = mix (decide ((if scalar < 0 then (-1 : R) else 1) = local_action)) scalar
        (min cost_v cost_w) (max cost_v cost_w))
      fun _ => False := by
  intro s _
  exact ⟨_, hbase p _ _, rfl⟩

variable [IsStrictOrderedRing R]

/-- Equal costs and small weights leave the cost as it is. Otherwise it is a mixture, in which the
    costs change places when the base learner predicts the dearer side. -/
theorem settles_predicting (hbase : ∀ n ec w, P (base.predict n ec w).1.pred.scalar) :
    Settles draw base fun right cost_v cost_w cost =>
      (cost_v = cost_w ∨ Filtered draw (cost_v - cost_w)) ∧ cost = cost_v ∨
        ¬ (cost_v = cost_w ∨ Filtered draw (cost_v - cost_w)) ∧ ∃ scalar, P scalar ∧
          cost = mix (decide (0 ≤ scalar ↔ (cost_v < cost_w ↔ right = true))) scalar
            (min cost_v cost_w) (max cost_v cost_w) := by
  intro v w v_parent cost_v cost_w right hv hw
  have hlabel : ∀ scalar : R, ((if scalar < 0 then (-1 : R) else 1) =
      if (if cost_v < cost_w then v else w).id = v_parent.left_id then -1 else 1) ↔
        (0 ≤ scalar ↔ (cost_v < cost_w ↔ right = true)) := by
    intro scalar
    have hone : (-1 : R) ≠ 1 := fun h => by linarith
    rw [← not_lt]
    by_cases hlt : cost_v < cost_w <;> by_cases hneg : scalar < 0 <;> cases right <;>
      simp [hlt, hneg, hv, hw, hone, hone.symm]
  -- the two places that train
  have htrain : ¬ (cost_v = cost_w ∨ Filtered draw (cost_v - cost_w)) →
      (train base v.parent_id
        (if (if cost_v < cost_w then v else w).id = v_parent.left_id then -1 else 1) cost_v
        cost_w).Finishes
        Any (fun cost _ => (cost_v = cost_w ∨ Filtered draw (cost_v - cost_w)) ∧ cost = cost_v ∨
          ¬ (cost_v = cost_w ∨ Filtered draw (cost_v - cost_w)) ∧ ∃ scalar, P scalar ∧
            cost = mix (decide (0 ≤ scalar ↔ (cost_v < cost_w ↔ right = true))) scalar
              (min cost_v cost_w) (max cost_v cost_w))
        fun _ => False := by
    intro hnot
    refine (train_predicting hbase _ _ _ _).mono (fun _ h => h)
      (fun cost s hcost => .inr ⟨hnot, ?_⟩) fun _ h => h
    obtain ⟨scalar, hP, hmix⟩ := hcost
    refine ⟨scalar, hP, hmix.trans ?_⟩
    rw [decide_eq_decide.mpr (hlabel scalar)]
  unfold parent_cost
  by_cases heq : cost_v = cost_w
  · rw [if_pos heq]
    exact .pure fun _ _ => .inl ⟨.inl heq, rfl⟩
  · rw [if_neg heq]
    refine any_bind_finishes (fun _ _ => trivial) fun _ => ?_
    refine any_bind_finishes (fun _ _ => trivial) fun _ => ?_
    by_cases hsmall : |cost_v - cost_w| < weight_th
    · rw [if_pos hsmall]
      by_cases hdraw : draw < |cost_v - cost_w|
      · rw [if_pos hdraw]
        refine any_bind_finishes (fun _ _ => trivial) fun _ => ?_
        exact htrain fun hor => hor.elim heq fun hfiltered => hfiltered.2 hdraw
      · rw [if_neg hdraw]
        exact .pure fun _ _ => .inl ⟨.inr ⟨hsmall, hdraw⟩, rfl⟩
    · rw [if_neg hsmall]
      exact htrain fun hor => hor.elim heq fun hfiltered => hsmall hfiltered.1

/-- Any base learner keeps a cost that its sibling has too, or that differs too little. -/
theorem settles_any (base : BaseLearner W R) : Settles draw base fun _ cost_v cost_w cost =>
    cost_v = cost_w ∨ Filtered draw (cost_v - cost_w) → cost = cost_v := by
  intro v w v_parent cost_v cost_w right hv hw
  refine (settles_predicting (P := fun _ => True) (fun _ _ _ => trivial) v w v_parent cost_v cost_w
    right hv hw).mono
    (fun _ h => h) (fun cost s hcost hor => ?_) fun _ h => h
  exact hcost.elim And.right fun hnot => absurd hor hnot.1

/-- A base learner that predicts 0 takes the mean. -/
theorem settles_silent : Settles (W := Unit) draw silent fun _ cost_v cost_w cost =>
    cost = cost_v ∨ cost = (cost_v + cost_w) / 2 := by
  intro v w v_parent cost_v cost_w right hv hw
  refine (settles_predicting (P := fun scalar => scalar = (0 : R))
    (fun _ _ _ => rfl) v w v_parent cost_v cost_w right hv
    hw).mono (fun _ h => h) (fun cost s hcost => ?_) fun _ h => h
  refine hcost.imp And.right ?_
  rintro ⟨-, scalar, rfl, rfl⟩
  have hsum : min cost_v cost_w + max cost_v cost_w = cost_v + cost_w := min_add_max cost_v cost_w
  unfold mix
  rw [abs_zero, add_zero, sub_zero, mul_one, mul_one, ← hsum]
  split
  · ring
  · ring

/-- A base learner that always predicts right, or always left. -/
def one_sided (right : Bool) : BaseLearner Unit R where
  learn _ _ w := (⟨⟨if right then 1 else -1, [], 0, []⟩, 0, 0⟩, w)
  predict _ _ w := (⟨⟨if right then 1 else -1, [], 0, []⟩, 0, 0⟩, w)

theorem mix_one_sided (cheaper side : Bool) (low high : R) :
    mix cheaper (if side then 1 else -1) low high = if cheaper then low else high := by
  have habs : |(if side then (1 : R) else -1)| = 1 := by
    split <;> simp
  unfold mix
  rw [habs]
  split
  · ring
  · ring

/-- Such a base learner takes the cost of its side. -/
theorem settles_one_sided (side : Bool) :
    Settles draw (one_sided side) fun right cost_v cost_w cost =>
    cost_v = cost_w ∨ ¬ Filtered draw (cost_v - cost_w) →
      cost = if right = side then cost_v else cost_w := by
  intro v w v_parent cost_v cost_w right hv hw
  refine (settles_predicting (P := fun scalar => scalar = if side then (1 : R) else -1)
    (fun _ _ _ => rfl) v w v_parent
    cost_v cost_w right hv hw).mono (fun _ h => h) (fun cost s hcost hor => ?_) fun _ h => h
  rcases hcost with ⟨hsame, rfl⟩ | ⟨hnot, scalar, rfl, rfl⟩
  · have heq : cost = cost_w := hor.elim id fun hfree => hsame.elim id fun hfiltered =>
      absurd hfiltered hfree
    rw [← heq, ite_self]
  · have hpos : (0 : R) ≤ 1 := zero_le_one
    have hneg : ¬ (0 : R) ≤ -1 := by norm_num
    rw [mix_one_sided]
    rcases lt_or_ge cost_v cost_w with hlt | hge
    · rw [min_eq_left hlt.le, max_eq_right hlt.le]
      cases side <;> cases right <;> simp [hlt, hpos, hneg]
    · rw [min_eq_right hge, max_eq_left hge]
      cases side <;> cases right <;> simp [not_lt.mpr hge, hpos, hneg]

end Bases

/-! ## What the rounds below keep -/

section Keep

variable {W R : Type} [Field R] [LinearOrder R] {D h i x y : Nat} {draw : R} {c : R}
  {ab ab' : NodeCosts R}

/-- The leaf at an end of the subtree of the node at position `q`, `i` levels above. -/
def end_leaf (side : Bool) (i q : Nat) : Nat := q * 2 ^ i + if side then 2 ^ i - 1 else 0

theorem end_leaf_succ (side : Bool) (i q : Nat) :
    end_leaf side (i + 1) q = end_leaf side i (2 * q + if side then 1 else 0) := by
  have hpos := Nat.two_pow_pos i
  have hmul : (2 * q + 1) * 2 ^ i = q * 2 ^ (i + 1) + 2 ^ i := by
    rw [Nat.pow_succ']
    ring
  have hmul' : 2 * q * 2 ^ i = q * 2 ^ (i + 1) := by
    rw [Nat.pow_succ']
    ring
  unfold end_leaf
  cases side
  · simp only [Bool.false_eq_true, if_false, Nat.add_zero]
    rw [hmul']
  · simp only [if_true]
    rw [hmul]
    omega

theorem even_of_mod (hmod : x % 2 ^ h = 0) (hi : i < h) : x / 2 ^ i % 2 = 0 := by
  have hbit : (x % 2 ^ h).testBit i = x.testBit i := by
    rw [testBit_mod_two_pow]
    simp [hi]
  rw [hmod, zero_testBit, testBit_eq_decide_div_mod_eq] at hbit
  have hnot := decide_eq_false_iff_not.mp hbit.symm
  omega

theorem odd_of_mod (hmod : y % 2 ^ h = 2 ^ h - 1) (hi : i < h) : y / 2 ^ i % 2 = 1 := by
  have hbit : (y % 2 ^ h).testBit i = y.testBit i := by
    rw [testBit_mod_two_pow]
    simp [hi]
  rw [hmod, testBit_two_pow_sub_one, testBit_eq_decide_div_mod_eq, decide_eq_true hi] at hbit
  exact of_decide_eq_true hbit.symm

/-- Positions that differ `h` levels above differ below. -/
theorem half_lt_half (hlt : x / 2 ^ h < y / 2 ^ h) (hi : i < h) :
    x / 2 ^ i / 2 < y / 2 ^ i / 2 := by
  rw [Nat.div_div_eq_div_mul, Nat.div_div_eq_div_mul, ← Nat.pow_succ]
  by_contra hnot
  have hle : y / 2 ^ (i + 1) / 2 ^ (h - (i + 1)) ≤ x / 2 ^ (i + 1) / 2 ^ (h - (i + 1)) :=
    Nat.div_le_div_right (Nat.not_lt.mp hnot)
  rw [Nat.div_div_eq_div_mul, Nat.div_div_eq_div_mul, ← Nat.pow_add,
    show i + 1 + (h - (i + 1)) = h by omega] at hle
  omega

theorem not_forced (hi : i < h) (q : Nat) : ¬ Forced D h i q :=
  fun hforced => absurd hforced.1 (Nat.ne_of_lt hi)

variable {Q : Bool → R → R → R → Prop}

omit [LinearOrder R] in
theorem cost_at_mate_first {ca cb : R} (heven : x % 2 = 0) (hlt : x / 2 < y / 2) :
    cost_at c x ca y cb (mate x) = c := by
  rw [show mate x = x + 1 from if_pos heven]
  exact cost_at_between (by omega) (by omega)

omit [LinearOrder R] in
theorem cost_at_mate_second {ca cb : R} (hodd : y % 2 = 1) (hlt : x / 2 < y / 2) :
    cost_at c x ca y cb (mate y) = c := by
  rw [show mate y = y - 1 from if_neg (by omega)]
  exact cost_at_between (by omega) (by omega)

omit [LinearOrder R] in
/-- The first node is a left child, and its sibling is inside the range. -/
theorem keeps_first (hQ : ∀ right cost_v cost, Q right cost_v cost_v cost → cost = cost_v)
    (hmod : x % 2 ^ h = 0)
    (hlt : x / 2 ^ h < y / 2 ^ h) (hi : i < h) (hcost : ab.1.cost = c)
    (hround : Round D h i Q c (x / 2 ^ i) (y / 2 ^ i) ab ab') : ab'.1.cost = c := by
  have hmate := @cost_at_mate_first _ _ (x / 2 ^ i) (y / 2 ^ i) c ab.1.cost ab.2.cost
    (even_of_mod hmod hi) (half_lt_half hlt hi)
  have hfree := hround.a_free (not_forced hi _)
  rw [hmate, hcost] at hfree
  exact hQ _ _ _ hfree

omit [LinearOrder R] in
/-- The second node is a right child, and its sibling is inside the range. -/
theorem keeps_second (hQ : ∀ right cost_v cost, Q right cost_v cost_v cost → cost = cost_v)
    (hmod : y % 2 ^ h = 2 ^ h - 1)
    (hlt : x / 2 ^ h < y / 2 ^ h) (hi : i < h) (hcost : ab.2.cost = c)
    (hround : Round D h i Q c (x / 2 ^ i) (y / 2 ^ i) ab ab') : ab'.2.cost = c := by
  have hmate := @cost_at_mate_second _ _ (x / 2 ^ i) (y / 2 ^ i) c ab.1.cost ab.2.cost
    (odd_of_mod hmod hi) (half_lt_half hlt hi)
  have hfree := hround.b_free (Nat.ne_of_lt (half_lt_half hlt hi)) (not_forced hi _)
  rw [hmate, hcost] at hfree
  exact hQ _ _ _ hfree

/-- Costs that are filtered, or that are 0, stay. -/
theorem keeps_filtered (hfiltered : c = 0 ∨ Filtered draw c) (hi : i < h)
    (hcost : ab.1.cost = c ∧ ab.2.cost = c)
    (hround : Round D h i (fun _ cost_v cost_w cost => cost_v = cost_w ∨
      Filtered draw (cost_v - cost_w) → cost = cost_v)
      c (x / 2 ^ i) (y / 2 ^ i) ab ab') : ab'.1.cost = c ∧ ab'.2.cost = c := by
  obtain ⟨ha, hb⟩ := hcost
  have hkeeps : ∀ q, c = cost_at c (x / 2 ^ i) ab.1.cost (y / 2 ^ i) ab.2.cost q ∨
      Filtered draw (c - cost_at c (x / 2 ^ i) ab.1.cost (y / 2 ^ i) ab.2.cost q) := by
    intro q
    have hzero : c = 0 ∨ Filtered draw (c - 0) := by rwa [sub_zero]
    unfold cost_at
    rw [ha, hb]
    split_ifs
    · exact hzero
    · exact .inl rfl
    · exact .inl rfl
    · exact .inl rfl
    · exact hzero
  have ha' := hround.a_free (not_forced hi _)
  refine ⟨(ha' (by rw [ha] at hkeeps ⊢; exact hkeeps _)).trans ha, ?_⟩
  by_cases hsame : x / 2 ^ i / 2 = y / 2 ^ i / 2
  · rw [hround.b_same hsame, hb]
  · have hb' := hround.b_free hsame (not_forced hi _)
    exact (hb' (by rw [hb] at hkeeps ⊢; exact hkeeps _)).trans hb

variable [IsStrictOrderedRing R]

/-- A cost that is a share of `c`. -/
def Share (c cost : R) : Prop := ∃ k, 0 < k ∧ cost = k * c

theorem keeps_share (hi : i < h) (hcost : Share c ab.1.cost ∧ Share c ab.2.cost)
    (hround : Round D h i (fun _ cost_v cost_w cost => cost = cost_v ∨ cost = (cost_v + cost_w) / 2)
      c (x / 2 ^ i) (y / 2 ^ i) ab ab') : Share c ab'.1.cost ∧ Share c ab'.2.cost := by
  obtain ⟨ha, hb⟩ := hcost
  have hsibling : ∀ q, ∃ k, 0 ≤ k ∧ cost_at c (x / 2 ^ i) ab.1.cost (y / 2 ^ i) ab.2.cost q =
    k * c := by
    obtain ⟨ka, hka, ha⟩ := ha
    obtain ⟨kb, hkb, hb⟩ := hb
    intro q
    unfold cost_at
    split_ifs
    · exact ⟨0, le_refl 0, (zero_mul c).symm⟩
    · exact ⟨ka, hka.le, ha⟩
    · exact ⟨1, zero_le_one, (one_mul c).symm⟩
    · exact ⟨kb, hkb.le, hb⟩
    · exact ⟨0, le_refl 0, (zero_mul c).symm⟩
  have hmean : ∀ {cost_v cost : R} (q : Nat), Share c cost_v → (cost = cost_v ∨
      cost = (cost_v + cost_at c (x / 2 ^ i) ab.1.cost (y / 2 ^ i) ab.2.cost q) / 2) →
        Share c cost := by
    rintro cost_v cost q hv (rfl | rfl)
    · exact hv
    · obtain ⟨kv, hkv, rfl⟩ := hv
      obtain ⟨kw, hkw, hw⟩ := hsibling q
      refine ⟨(kv + kw) / 2, by linarith, ?_⟩
      rw [hw]
      ring
  refine ⟨hmean _ ha (hround.a_free (not_forced hi _)), ?_⟩
  by_cases hsame : x / 2 ^ i / 2 = y / 2 ^ i / 2
  · rw [hround.b_same hsame]
    exact hb
  · exact hmean _ hb (hround.b_free hsame (not_forced hi _))

def leaf_cost (c : R) (x y leaf : Nat) : R := if x ≤ leaf ∧ leaf ≤ y then c else 0

omit [LinearOrder R] [IsStrictOrderedRing R] in
/-- All nodes of a level get the cost of one of their children if the two nodes do. -/
theorem cost_at_half {ca cb ca' cb' : R} {s : Nat} (hs : s ≤ 1)
    (ha : ca' = cost_at c x ca y cb (2 * (x / 2) + s))
    (hb : x / 2 ≠ y / 2 → cb' = cost_at c x ca y cb (2 * (y / 2) + s)) (q : Nat) :
    cost_at c (x / 2) ca' (y / 2) cb' q = cost_at c x ca y cb (2 * q + s) := by
  rcases Nat.lt_trichotomy q (x / 2) with hlt | rfl | hgt
  · rw [cost_at_before hlt, cost_at_before (by omega)]
  · rw [← ha, cost_at_first rfl]
  · rcases Nat.lt_trichotomy q (y / 2) with hlt_y | rfl | hgt_y
    · rw [cost_at_between hgt hlt_y, cost_at_between (by omega) (by omega)]
    · rw [← hb (Nat.ne_of_lt hgt), cost_at_second hgt rfl]
    · rw [cost_at_behind hgt hgt_y, cost_at_behind (by omega) (by omega)]

omit [IsStrictOrderedRing R] in
/-- With a base learner that predicts one side, every node costs as much as the leaf at that end of
    its subtree. -/
theorem keeps_end_leaf (side : Bool) (hfree : ¬ Filtered draw c) (hxy : x ≤ y) (hi : i < h)
    (hcost : ∀ q, cost_at c (x / 2 ^ i) ab.1.cost (y / 2 ^ i) ab.2.cost q = leaf_cost c x y
      (end_leaf side i q))
    (hround : Round D h i (fun right cost_v cost_w cost =>
      cost_v = cost_w ∨ ¬ Filtered draw (cost_v - cost_w) →
        cost = if right = side then cost_v else cost_w)
      c (x / 2 ^ i) (y / 2 ^ i) ab ab') (q : Nat) :
    cost_at c (x / 2 ^ (i + 1)) ab'.1.cost (y / 2 ^ (i + 1)) ab'.2.cost q = leaf_cost c x y
      (end_leaf side (i + 1) q) := by
  have hle : x / 2 ^ i ≤ y / 2 ^ i := Nat.div_le_div_right hxy
  -- the costs are 0 or `c`, so that no weight is filtered
  have htwo : ∀ q, cost_at c (x / 2 ^ i) ab.1.cost (y / 2 ^ i) ab.2.cost q = 0 ∨
      cost_at c (x / 2 ^ i) ab.1.cost (y / 2 ^ i) ab.2.cost q = c := by
    intro q
    rw [hcost]
    unfold leaf_cost
    split
    · exact .inr rfl
    · exact .inl rfl
  have htrains : ∀ {v w : R}, (v = 0 ∨ v = c) → (w = 0 ∨ w = c) → v = w ∨
    ¬ Filtered draw (v - w) := by
    rintro v w (rfl | rfl) (rfl | rfl)
    · exact .inl rfl
    · right
      rwa [Filtered, zero_sub, abs_neg]
    · right
      rwa [sub_zero]
    · exact .inl rfl
  -- the cost of a parent is that of the child on this side
  have hside : ∀ {z : Nat} {cost_v cost : R}, cost_v = cost_at c (x / 2 ^ i) ab.1.cost
    (y / 2 ^ i) ab.2.cost z →
      (cost_v = cost_at c (x / 2 ^ i) ab.1.cost (y / 2 ^ i) ab.2.cost (mate z) ∨
        ¬ Filtered draw (cost_v - cost_at c (x / 2 ^ i) ab.1.cost (y / 2 ^ i) ab.2.cost (mate z)) →
          cost = if decide (z % 2 = 1) = side then cost_v
            else cost_at c (x / 2 ^ i) ab.1.cost (y / 2 ^ i) ab.2.cost (mate z)) →
      cost = cost_at c (x / 2 ^ i) ab.1.cost (y / 2 ^ i) ab.2.cost
        (2 * (z / 2) + if side then 1 else 0) := by
    intro z cost_v cost hv hsettled
    rw [hsettled (htrains (by rw [hv]; exact htwo z) (htwo _)), hv]
    by_cases hodd : z % 2 = 1
    · cases side
      · rw [if_neg (by simp [hodd]), mate, if_neg (by omega)]
        congr 1
        simp
        omega
      · rw [if_pos (by simp [hodd])]
        congr 1
        simp
        omega
    · cases side
      · rw [if_pos (by simp [hodd])]
        congr 1
        simp
        omega
      · rw [if_neg (by simp [hodd]), mate, if_pos (by omega)]
        congr 1
        simp
        omega
  have ha : ab.1.cost = cost_at c (x / 2 ^ i) ab.1.cost (y / 2 ^ i) ab.2.cost (x / 2 ^ i) :=
    (cost_at_first rfl).symm
  rw [Nat.pow_succ, ← Nat.div_div_eq_div_mul, ← Nat.div_div_eq_div_mul, end_leaf_succ, ← hcost]
  refine cost_at_half (by split <;> omega) (hside ha (hround.a_free (not_forced hi _)))
    (fun hne => ?_) q
  have hb : ab.2.cost = cost_at c (x / 2 ^ i) ab.1.cost (y / 2 ^ i) ab.2.cost (y / 2 ^ i) :=
    (cost_at_second (lt_of_le_of_ne hle fun heq => hne (by rw [heq])) rfl).symm
  exact hside hb (hround.b_free hne (not_forced hi _))

end Keep

/-! ## Learning beside prediction -/

/-- The depth of a node, by its number. -/
theorem depth_range {K bandwidth n : Nat} (hK : 1 ≤ K)
    (hv : (build_tree K bandwidth).nodes[n]? = some v) :
    2 ^ v.depth ≤ n + 1 ∧ n + 1 < 2 ^ (v.depth + 1) := by
  refine build_tree_nodes (P := fun n node => 2 ^ node.depth ≤ n + 1 ∧ n + 1 < 2 ^ (node.depth + 1))
    hK (by decide) (fun h => h) (fun {i n depth} hn hle hlt => ?_) n v hv
  show 2 ^ depth ≤ n + 1 ∧ n + 1 < 2 ^ (depth + 1)
  have hpow : 2 ^ (depth + 1) = 2 * 2 ^ depth := Nat.pow_succ'
  have hpositive : depth ≠ 0 := by
    rintro rfl
    omega
  obtain ⟨d, rfl⟩ : ∃ d, depth = d + 1 := ⟨_, (succ_pred hpositive).symm⟩
  rcases hn with rfl | rfl <;> omega

section Learning

variable {R : Type} [Field R] [LinearOrder R] [IsStrictOrderedRing R] {D h lo hi x y : Nat}
  {draw : R} {c : R}

/-- Learning on the actions `lo` to `hi` with the cost `c` gives every node that goes to one side
    only, in the round that goes to its level, the cost of the child that prediction takes. -/
def LearnsAsPredicts (R : Type) [Field R] [LinearOrder R] (K bandwidth lo hi : Nat)
    (c random_draw : R) : Prop :=
  ∀ (W : Type) (base : BaseLearner W R) (s : State W R) (f l : CbClass R),
    s.ec.l.cb.costs.head? = some f → s.ec.l.cb.costs.getLast? = some l → f.action = lo →
      l.action = hi →
      f.cost / f.probability = c → ∀ cost_star ab,
        init_node_costs (build_tree K bandwidth) s.ec.l.cb.costs = some (cost_star, ab) →
          ∀ i < (build_tree K bandwidth).depth, ∃ ab₁ s₁ ab₂ s₂,
            rounds random_draw base (build_tree K bandwidth) cost_star i ab (State.unpredicted s) =
              .returned ab₁ s₁ ∧
              learn_level (build_tree K bandwidth) random_draw base cost_star ab₁ s₁ =
                .returned ab₂ s₂ ∧
                ∀ v ∈ (build_tree K bandwidth).nodes, (v.right_only = true ∨ v.left_only = true) →
                  v.depth + (i + 1) = (build_tree K bandwidth).depth →
                    return_cost cost_star ab₂ v.id =
                      return_cost cost_star ab₁ (if v.right_only then v.right_id else v.left_id)

/-- The costs below the forced nodes are those that learning leaves there. -/
structure Meets (c : R) (x : Nat) (ca : R) (y : Nat) (cb : R) (M : Nat) : Prop where
  left : x = 0 → ca = cost_at c x ca y cb 1
  right_of_a : y = M - 1 → M - 2 ≤ x → ca = cost_at c x ca y cb (M - 2)
  right_of_b : y = M - 1 → x < M - 2 → cb = cost_at c x ca y cb (M - 2)

omit [LinearOrder R] in
theorem Round.meets_iff {Q : Bool → R → R → R → Prop} {ab ab' : NodeCosts R}
    (hround : Round D h h Q c x y ab ab')
    (hh : h + 2 ≤ D) (hxy : x ≤ y) (hy : y < 2 ^ (D - h)) :
    (cost_at c (x / 2) ab'.1.cost (y / 2) ab'.2.cost 0 = cost_at c x ab.1.cost y ab.2.cost 1 ∧
      cost_at c (x / 2) ab'.1.cost (y / 2) ab'.2.cost (2 ^ (D - (h + 1)) - 1) =
        cost_at c x ab.1.cost y ab.2.cost (2 ^ (D - h) - 2)) ↔
      Meets c x ab.1.cost y ab.2.cost (2 ^ (D - h)) := by
  have hpow : 2 ^ (D - h) = 2 * 2 ^ (D - (h + 1)) := two_pow_sub (by omega)
  have ha_forced := hround.a_forced
  have hb_forced := hround.b_forced
  unfold Forced at ha_forced hb_forced
  rw [hpow] at hy ⊢
  have hleft : cost_at c (x / 2) ab'.1.cost (y / 2) ab'.2.cost 0 =
    cost_at c x ab.1.cost y ab.2.cost 1 ↔
      (x = 0 → ab.1.cost = cost_at c x ab.1.cost y ab.2.cost 1) := by
    rcases (by omega : x = 0 ∨ x = 1 ∨ 2 ≤ x) with rfl | rfl | hge
    · rw [← ha_forced ⟨rfl, .inl rfl⟩]
      simp [cost_at]
    · rw [← ha_forced ⟨rfl, .inl rfl⟩]
      simp [cost_at]
    · rw [cost_at_before (by omega), cost_at_before (by omega)]
      simp only [true_iff]
      omega
  have hright : cost_at c (x / 2) ab'.1.cost (y / 2) ab'.2.cost (2 ^ (D - (h + 1)) - 1) =
      cost_at c x ab.1.cost y ab.2.cost (2 * 2 ^ (D - (h + 1)) - 2) ↔
        (y = 2 * 2 ^ (D - (h + 1)) - 1 → (2 * 2 ^ (D - (h + 1)) - 2 ≤ x →
          ab.1.cost = cost_at c x ab.1.cost y ab.2.cost (2 * 2 ^ (D - (h + 1)) - 2)) ∧
            (x < 2 * 2 ^ (D - (h + 1)) - 2 →
            ab.2.cost = cost_at c x ab.1.cost y ab.2.cost (2 * 2 ^ (D - (h + 1)) - 2))) := by
    generalize 2 ^ (D - (h + 1)) = M at *
    rcases (by omega : y < 2 * M - 2 ∨ y = 2 * M - 2 ∨ y = 2 * M - 1) with hlt | heq | heq
    · -- both are beyond the range
      rw [cost_at_behind (by omega) (by omega), cost_at_behind (by omega) (by omega)]
      exact ⟨fun _ hlast => absurd hlast (by omega), fun _ => rfl⟩
    · -- the child is the second node itself
      refine ⟨fun _ hlast => absurd hlast (by omega), fun _ => ?_⟩
      by_cases hsame : x / 2 = y / 2
      · have hx : x = y := by omega
        have ha := ha_forced ⟨rfl, .inr (by omega)⟩
        rw [cost_at_first (by omega), cost_at_first (by omega), ha]
      · have hb := hb_forced hsame ⟨rfl, .inr (by omega)⟩
        rw [cost_at_second (by omega) (by omega), cost_at_second (by omega) (by omega), hb]
    · rw [forall_prop_of_true heq]
      by_cases hsame : x / 2 = y / 2
      · have ha := ha_forced ⟨rfl, .inr (by omega)⟩
        rw [cost_at_first (by omega), ha]
        exact ⟨fun heq => ⟨fun _ => heq, fun hlt => absurd hlt (by omega)⟩,
          fun hboth => hboth.1 (by omega)⟩
      · have hb := hb_forced hsame ⟨rfl, .inr (by omega)⟩
        rw [cost_at_second (by omega) (by omega), hb]
        exact ⟨fun heq => ⟨fun hge => absurd hge (by omega), fun _ => heq⟩,
          fun hboth => hboth.2 (by omega)⟩
  rw [hleft, hright]
  exact ⟨fun hboth => ⟨hboth.1, fun hlast => (hboth.2 hlast).1, fun hlast => (hboth.2 hlast).2⟩,
    fun hmeets => ⟨hmeets.left, fun hlast => ⟨hmeets.right_of_a hlast, hmeets.right_of_b hlast⟩⟩⟩

/-- The two nodes that go to one side only, and their children on that side. -/
theorem forced_nodes (hh : h + 2 ≤ D) {i : Nat} (hv : v ∈ (build_tree (2 ^ D) (2 ^ h)).nodes)
    (hforced : v.right_only = true ∨ v.left_only = true) (hdepth : v.depth + (i + 1) = D) :
    i = h ∧ (v.id = place D (h + 1) 0 ∧ (if v.right_only then v.right_id else v.left_id) =
      place D h 1 ∨
      v.id = place D (h + 1) (2 ^ (D - (h + 1)) - 1) ∧
        (if v.right_only then v.right_id else v.left_id) = place D h (2 ^ (D - h) - 2)) := by
  have ht := numbered D h
  obtain ⟨n, hn⟩ := mem_iff_getElem?.mp hv
  obtain ⟨hlow, hhigh⟩ := depth_range Nat.one_le_two_pow hn
  rw [show v.depth = D - (i + 1) by omega] at hlow hhigh
  rw [Nat.pow_succ'] at hhigh
  obtain ⟨v', hv', hplace⟩ :=
    ht.at_place hh (show i + 1 ≤ D by omega) (q := n + 1 - 2 ^ (D - (i + 1))) (by omega)
  have hn_place : place D (i + 1) (n + 1 - 2 ^ (D - (i + 1))) = n := by
    unfold place
    omega
  rw [hn_place, hn] at hv'
  cases hv'
  have hright_only := hplace.right_only
  have hleft_only := hplace.left_only
  obtain ⟨-, hleft_id, hright_id⟩ := hplace.inner (succ_pos i)
  rw [Nat.add_sub_cancel] at hleft_id hright_id
  have hpow : 2 ^ (D - h) = 2 * 2 ^ (D - (h + 1)) := two_pow_sub (by omega)
  by_cases hright : v.right_only = true
  · obtain ⟨hlevel, hzero⟩ := hright_only.mp hright
    have hi : i = h := by omega
    subst hi
    refine ⟨rfl, .inl ⟨?_, ?_⟩⟩
    · rw [hplace.id, hzero]
    · rw [if_pos hright, hright_id, hzero]
  · obtain ⟨hlevel, hlast⟩ := hleft_only.mp (hforced.resolve_left hright)
    have hi : i = h := by omega
    subst hi
    refine ⟨rfl, .inr ⟨?_, ?_⟩⟩
    · rw [hplace.id, hlast]
    · rw [if_neg hright, hleft_id, hlast, hpow]
      congr 1
      omega

/-- These nodes are there. -/
theorem exists_forced (hh : h + 2 ≤ D) :
    (∃ v ∈ (build_tree (2 ^ D) (2 ^ h)).nodes, v.right_only = true ∧ v.depth + (h + 1) = D ∧
      v.id = place D (h + 1) 0 ∧
      v.right_id = place D h 1) ∧
    ∃ v ∈ (build_tree (2 ^ D) (2 ^ h)).nodes, v.right_only = false ∧ v.left_only = true ∧ v.depth +
      (h + 1) = D ∧
      v.id = place D (h + 1) (2 ^ (D - (h + 1)) - 1) ∧ v.left_id = place D h (2 ^ (D - h) - 2) := by
  have ht := numbered D h
  have hpow : 2 ^ (D - h) = 2 * 2 ^ (D - (h + 1)) := two_pow_sub (by omega)
  have htwo : 2 ≤ 2 ^ (D - (h + 1)) := two_le_two_pow_sub (by omega)
  have hdepth : ∀ {q : Nat} {v : TreeNode}, q < 2 ^ (D - (h + 1)) →
      (build_tree (2 ^ D) (2 ^ h)).nodes[place D (h + 1) q]? = some v → v.depth + (h + 1) = D := by
    intro q v hq hv
    obtain ⟨hlow, hhigh⟩ := depth_range Nat.one_le_two_pow hv
    have hlevel := @two_pow_unique v.depth (D - (h + 1)) (place D (h + 1) q + 1) hlow hhigh
      (by unfold place; omega) (by rw [Nat.pow_succ']; unfold place; omega)
    omega
  constructor
  · obtain ⟨v, hv, hplace⟩ :=
      ht.at_place hh (show h + 1 ≤ D by omega) (Nat.two_pow_pos (D - (h + 1)))
    have hright := hplace.right_only.mpr ⟨rfl, rfl⟩
    exact ⟨v, mem_of_getElem? hv, hright, hdepth (by omega) hv, hplace.id,
      (hplace.inner (succ_pos h)).2.2⟩
  · obtain ⟨v, hv, hplace⟩ :=
      ht.at_place hh (show h + 1 ≤ D by omega) (q := 2 ^ (D - (h + 1)) - 1) (by omega)
    have hleft := hplace.left_only.mpr ⟨rfl, rfl⟩
    have hright : v.right_only = false := by
      rw [Bool.eq_false_iff]
      exact fun hright => absurd (hplace.right_only.mp hright).2 (by omega)
    refine ⟨v, mem_of_getElem? hv, hright, hleft, hdepth (by omega) hv, hplace.id, ?_⟩
    rw [(hplace.inner (succ_pos h)).2.1, hpow]
    congr 1
    omega

/-- Where the walk of the label starts. -/
def start (D lo hi : Nat) (c : R) : NodeCosts R :=
  (⟨place D 0 (lo - 1), c⟩, ⟨place D 0 (hi - 1), c⟩)

omit [LinearOrder R] in
theorem init_start {costs : List (CbClass R)} {f l : CbClass R} (hhead : costs.head? = some f)
    (hlast : costs.getLast? = some l) (hlo : 1 ≤ f.action) (hlohi : f.action ≤ l.action)
      (hhi : l.action ≤ 2 ^ D) :
    init_node_costs (build_tree (2 ^ D) (2 ^ h)) costs =
      some (f.cost / f.probability, start D f.action l.action (f.cost / f.probability)) :=
  init_node_costs_eq (build_tree_numbered Nat.one_le_two_pow) hhead hlast hlo (by omega)
    (by omega) hhi

/-- If the costs below the two nodes meet what learning leaves there in every run, learning does as
    prediction. -/
theorem learnsAsPredicts_of_meets (hh : h + 2 ≤ D) (hlo : 1 ≤ lo) (hlohi : lo ≤ hi)
    (hhi : hi ≤ 2 ^ D)
    (hmeets : ∀ (W : Type) (base : BaseLearner W R) (s : State W R) (ab : NodeCosts R)
      (s' : State W R),
      rounds draw base (build_tree (2 ^ D) (2 ^ h)) c h (start D lo hi c) s = .returned ab s' →
        Meets c ((lo - 1) / 2 ^ h) ab.1.cost ((hi - 1) / 2 ^ h) ab.2.cost (2 ^ (D - h))) :
    LearnsAsPredicts R (2 ^ D) (2 ^ h) lo hi c draw := by
  have ht := numbered D h
  intro W base s f l hhead hlast hf hl hc cost_star ab hinit i hi_depth
  have hstart := init_start (D := D) (h := h) hhead hlast (by omega) (by omega) (by omega)
  rw [hf, hl, hc, hinit] at hstart
  obtain ⟨rfl, rfl⟩ : cost_star = c ∧ ab = start D lo hi c := by simpa using hstart
  rw [ht.depth_of_pow] at hi_depth ⊢
  have hplace : ∀ q, q < 2 ^ D → place D 0 q < 2 * 2 ^ D - 1 :=
    fun q hq => place_lt (Nat.zero_le D) hq
  have hK : 2 ≤ 2 ^ D := by
    calc 2 = 2 ^ 1 := rfl
      _ ≤ 2 ^ D := Nat.pow_le_pow_right Nat.two_pos (by omega)
  obtain ⟨ab₁, s₁, hrun₁, hid_a, hid_b, -⟩ :=
    (@rounds_ask _ _ _ _ _ _ _ draw base s.asks ht cost_star (start D lo hi cost_star)
    (hplace (lo - 1) (by omega)) (hplace (hi - 1) (by omega)) i fun _ => hK).returns (s :=
      State.unpredicted s) rfl
  have hid_a' : ab₁.1.node_id = place D i ((lo - 1) / 2 ^ i) :=
    hid_a.trans (up_iterate_place (by omega))
  have hid_b' : ab₁.2.node_id = place D i ((hi - 1) / 2 ^ i) :=
    hid_b.trans (up_iterate_place (by omega))
  have hrange_a : (lo - 1) / 2 ^ i < 2 ^ (D - i) := div_lt_level (by omega) (by omega)
  have hrange_b : (hi - 1) / 2 ^ i < 2 ^ (D - i) := div_lt_level (by omega) (by omega)
  -- what any base learner makes of two costs does not matter for the forced nodes
  have hbase := @settles_any W R _ _ draw _ base
  obtain ⟨ab₂, s₂, hrun₂, hround⟩ :=
    (learn_level_round ht hh hbase (c := cost_star) hi_depth hrange_a hrange_b hid_a'
    hid_b').returns (s := s₁) trivial
  refine ⟨ab₁, s₁, ab₂, s₂, hrun₁, hrun₂, fun v hv hforced hdepth => ?_⟩
  obtain ⟨rfl, hv⟩ := forced_nodes hh hv hforced hdepth
  obtain ⟨hleft, hright⟩ :=
    (hround.meets_iff hh (Nat.div_le_div_right (by omega)) hrange_b).mpr (hmeets W base _ _ _ hrun₁)
  rcases hv with ⟨hid, hchild⟩ | ⟨hid, hchild⟩
  · rw [hid, hchild, return_cost_place hround.a_id hround.b_id,
      return_cost_place hid_a' hid_b', hleft]
  · rw [hid, hchild, return_cost_place hround.a_id hround.b_id,
      return_cost_place hid_a' hid_b', hright]

/-- An example with the label. -/
def ranged (c : R) (lo hi : Nat) : State Unit R :=
  ⟨(), ⟨⟨0, ⟨0, 1⟩, ⟨[⟨c, lo, 1, 0⟩, ⟨c, hi, 1, 0⟩], 1⟩, []⟩, 1, ⟨0, [], 0, []⟩, 0, 0, ⟨1, 0⟩⟩, []⟩

omit [IsStrictOrderedRing R] in
/-- Conversely, with every base learner the costs meet what learning leaves, in a state with all
    that the rounds below keep. -/
theorem LearnsAsPredicts.meets {Q : Bool → R → R → R → Prop} {base : BaseLearner Unit R}
    {I : Nat → NodeCosts R → Prop}
    (hall : LearnsAsPredicts R (2 ^ D) (2 ^ h) lo hi c draw) (hh : h + 2 ≤ D) (hlo : 1 ≤ lo)
      (hlohi : lo ≤ hi)
    (hhi : hi ≤ 2 ^ D) (hbase : Settles draw base Q) (hstart : I 0 (start D lo hi c))
    (hstep : ∀ i < h, ∀ ab ab', I i ab →
      Round D h i Q c ((lo - 1) / 2 ^ i) ((hi - 1) / 2 ^ i) ab ab' → I (i + 1) ab') :
    ∃ ab, I h ab ∧ Meets c ((lo - 1) / 2 ^ h) ab.1.cost ((hi - 1) / 2 ^ h) ab.2.cost
      (2 ^ (D - h)) := by
  have ht := numbered D h
  have hinit := init_start (D := D) (h := h) (f := ⟨c, lo, 1, 0⟩) (l := ⟨c, hi, 1, 0⟩)
    (show (ranged c lo hi).ec.l.cb.costs.head? = _ from rfl) rfl hlo hlohi hhi
  rw [show (⟨c, lo, 1, 0⟩ : CbClass R).cost / (⟨c, lo, 1, 0⟩ : CbClass R).probability =
    c from div_one c] at hinit
  obtain ⟨ab₁, s₁, ab₂, s₂, hrun₁, hrun₂, hnodes⟩ :=
    hall Unit base (ranged c lo hi) ⟨c, lo, 1, 0⟩ ⟨c, hi, 1, 0⟩ rfl rfl rfl rfl
    (div_one c) _ _ hinit h (by rw [ht.depth_of_pow]; omega)
  have hlo_lt : lo - 1 < 2 ^ D := by omega
  have hhi_lt : hi - 1 < 2 ^ D := by omega
  have hrounds := @rounds_keep _ _ _ _ _ _ _ _ _ _ ht hh hbase c _ _ hlo_lt hhi_lt I
    (start D lo hi c) rfl rfl
    hstart hstep _ (Nat.le_refl h)
  obtain ⟨ab₁', s₁', hrun₁', hid_a, hid_b, hI⟩ :=
    hrounds.returns (s := State.unpredicted (ranged c lo hi)) trivial
  rw [hrun₁] at hrun₁'
  cases hrun₁'
  have hrange_a : (lo - 1) / 2 ^ h < 2 ^ (D - h) := div_lt_level (by omega) (by omega)
  have hrange_b : (hi - 1) / 2 ^ h < 2 ^ (D - h) := div_lt_level (by omega) (by omega)
  obtain ⟨ab₂', s₂', hrun₂', hround⟩ :=
    (learn_level_round ht hh hbase (c := c) (by omega) hrange_a hrange_b hid_a
    hid_b).returns (s := s₁) trivial
  rw [hrun₂] at hrun₂'
  cases hrun₂'
  refine ⟨ab₁, hI, (hround.meets_iff hh (Nat.div_le_div_right (by omega)) hrange_b).mp ⟨?_, ?_⟩⟩
  · obtain ⟨⟨v, hv, hright, hdepth, hid, hchild⟩, -⟩ := exists_forced hh
    have hcost := hnodes v hv (.inl hright) (by rw [ht.depth_of_pow]; exact hdepth)
    rwa [if_pos hright, hid, hchild, return_cost_place hround.a_id hround.b_id,
      return_cost_place hid_a hid_b] at hcost
  · obtain ⟨-, v, hv, hright, hleft, hdepth, hid, hchild⟩ := exists_forced hh
    have hcost := hnodes v hv (.inr hleft) (by rw [ht.depth_of_pow]; exact hdepth)
    rwa [if_neg (by rw [hright]; decide), hid, hchild, return_cost_place hround.a_id hround.b_id,
      return_cost_place hid_a hid_b] at hcost

/-! ## Which ranges are kept -/

/-- The range keeps away from the first leaves, or covers the first two blocks of leaves from the
    first leaf on, or ends behind the first block with a cost that is filtered. -/
def LeftKept (bandwidth lo hi : Nat) (c random_draw : R) : Prop :=
  bandwidth < lo ∨ lo = 1 ∧ 2 * bandwidth ≤ hi ∨ Filtered random_draw c ∧ bandwidth < hi

/-- The range keeps away from the last leaves, or ends with the last leaf and starts before the last
    two blocks, or starts in the last block but one, or before the last block with a cost that is
    filtered. -/
def RightKept (K bandwidth lo hi : Nat) (c random_draw : R) : Prop :=
  hi ≤ K - bandwidth ∨ hi = K ∧ lo ≤ K - 2 * bandwidth ∨ K - 2 * bandwidth < lo ∧
    lo ≤ K - bandwidth ∨
    Filtered random_draw c ∧ lo ≤ K - bandwidth

/-- The costs that no base learner changes below the forced nodes. -/
theorem kept_costs (hh : h + 2 ≤ D) (hx : x < 2 ^ D) (hy : y < 2 ^ D) {W : Type}
    {base : BaseLearner W R} {s s' : State W R}
    {ab : NodeCosts R} (hrun : rounds draw base (build_tree (2 ^ D) (2 ^ h)) c h
      (⟨place D 0 x, c⟩, ⟨place D 0 y, c⟩) s =
      .returned ab s') :
    (x / 2 ^ h < y / 2 ^ h → (x % 2 ^ h = 0 → ab.1.cost = c) ∧
      (y % 2 ^ h = 2 ^ h - 1 → ab.2.cost = c)) ∧
      (c = 0 ∨ Filtered draw c → ab.1.cost = c ∧ ab.2.cost = c) := by
  have ht := numbered D h
  let I : Nat → NodeCosts R → Prop := fun _ ab =>
    (x / 2 ^ h < y / 2 ^ h → (x % 2 ^ h = 0 → ab.1.cost = c) ∧
      (y % 2 ^ h = 2 ^ h - 1 → ab.2.cost = c)) ∧
      (c = 0 ∨ Filtered draw c → ab.1.cost = c ∧ ab.2.cost = c)
  have hstart : I 0 (⟨place D 0 x, c⟩, ⟨place D 0 y, c⟩) :=
    ⟨fun _ => ⟨fun _ => rfl, fun _ => rfl⟩, fun _ => ⟨rfl, rfl⟩⟩
  have hkeep := rounds_keep (c := c) (I := I) ht hh
    (@settles_any W R _ _ draw _ base) hx hy rfl rfl hstart
    (fun i hi ab ab' hI hround => ⟨fun hlt => ⟨fun hmod => ?_, fun hmod => ?_⟩,
      fun hfiltered => ?_⟩) (Nat.le_refl h)
  · obtain ⟨ab', s'', hrun', -, -, hI⟩ := hkeep.returns (s := s) trivial
    rw [hrun] at hrun'
    cases hrun'
    exact hI
  · exact keeps_first (fun _ _ _ hcost => hcost (.inl rfl)) hmod hlt hi ((hI.1 hlt).1 hmod) hround
  · exact keeps_second (fun _ _ _ hcost => hcost (.inl rfl)) hmod hlt hi ((hI.1 hlt).2 hmod) hround
  · exact keeps_filtered hfiltered hi (hI.2 hfiltered) hround

/-- The blocks of leaves below the nodes at the level of the children of the forced nodes. -/
structure Blocks (D h n q : Nat) : Prop where
  first : q = 0 ↔ n < 2 ^ h
  second : q < 2 ↔ n < 2 * 2 ^ h
  last_but_one : q < 2 ^ (D - h) - 2 ↔ n < 2 ^ D - 2 * 2 ^ h
  last : q < 2 ^ (D - h) - 1 ↔ n < 2 ^ D - 2 ^ h
  all : q < 2 ^ (D - h) ↔ n < 2 ^ D

theorem blocks (hh : h + 2 ≤ D) (n : Nat) : Blocks D h n (n / 2 ^ h) := by
  have hpos := Nat.two_pow_pos h
  have hmul : 2 ^ D = 2 ^ (D - h) * 2 ^ h := two_pow_sub_pos (by omega)
  have hdiv : ∀ k, n / 2 ^ h < k ↔ n < k * 2 ^ h := fun k => Nat.div_lt_iff_lt_mul hpos
  refine ⟨?_, hdiv 2, ?_, ?_, ?_⟩
  · rw [← Nat.lt_one_iff, hdiv, Nat.one_mul]
  · rw [hdiv, Nat.sub_mul, ← hmul]
  · rw [hdiv, Nat.sub_mul, ← hmul, Nat.one_mul]
  · rw [hdiv, ← hmul]

theorem four_blocks (hh : h + 2 ≤ D) : 4 ≤ 2 ^ (D - h) ∧ 4 * 2 ^ h ≤ 2 ^ D := by
  constructor
  · calc 4 = 2 ^ 2 := rfl
      _ ≤ 2 ^ (D - h) := Nat.pow_le_pow_right Nat.two_pos (by omega)
  · calc 4 * 2 ^ h = 2 ^ (h + 2) := by rw [Nat.pow_add, Nat.mul_comm]
      _ ≤ 2 ^ D := Nat.pow_le_pow_right Nat.two_pos hh

theorem learnsAsPredicts_of_kept (hh : h + 2 ≤ D) (hlo : 1 ≤ lo) (hlohi : lo ≤ hi)
    (hhi : hi ≤ 2 ^ D)
    (hkept : c = 0 ∨ LeftKept (2 ^ h) lo hi c draw ∧ RightKept (2 ^ D) (2 ^ h) lo hi c draw) :
    LearnsAsPredicts R (2 ^ D) (2 ^ h) lo hi c draw := by
  refine learnsAsPredicts_of_meets hh hlo hlohi hhi fun W base s ab s' hrun => ?_
  have hpos := Nat.two_pow_pos h
  obtain ⟨hfour, hfour'⟩ := four_blocks hh
  obtain ⟨hends, hsame⟩ := kept_costs hh (x := lo - 1) (y := hi - 1) (by omega) (by omega) hrun
  obtain ⟨hx_first, hx_second, hx_but_one, hx_last, hx_all⟩ := blocks hh (lo - 1)
  obtain ⟨hy_first, hy_second, hy_but_one, hy_last, hy_all⟩ := blocks hh (hi - 1)
  have hle : (lo - 1) / 2 ^ h ≤ (hi - 1) / 2 ^ h := Nat.div_le_div_right (by omega)
  rcases hkept with rfl | ⟨hleft, hright⟩
  · -- nothing costs anything
    obtain ⟨ha, hb⟩ := hsame (.inl rfl)
    have hzero : ∀ q, cost_at 0 ((lo - 1) / 2 ^ h) ab.1.cost
      ((hi - 1) / 2 ^ h) ab.2.cost q = 0 := by
      intro q
      unfold cost_at
      rw [ha, hb]
      split_ifs <;> rfl
    exact ⟨fun _ => by rw [hzero, ha], fun _ _ => by rw [hzero, ha], fun _ _ => by rw [hzero, hb]⟩
  · have hmultiple : ∀ k, hi = k * 2 ^ h → (hi - 1) % 2 ^ h = 2 ^ h - 1 := by
      rintro k rfl
      have hk : k ≠ 0 := by
        rintro rfl
        omega
      obtain ⟨k, rfl⟩ : ∃ n, k = n + 1 := ⟨k - 1, by omega⟩
      rw [show (k + 1) * 2 ^ h - 1 = 2 ^ h - 1 + 2 ^ h * k by
        rw [Nat.succ_mul, Nat.mul_comm]; omega, add_mul_mod_self_left,
        mod_eq_of_lt (by omega)]
    refine ⟨fun hzero => ?_, fun hlast hge => ?_, fun hlast hlt => ?_⟩
    · rcases hleft with hlt | ⟨rfl, hge⟩ | ⟨hfiltered, hlt⟩
      · exact absurd (hx_first.mp hzero) (by omega)
      · have hbelow : (1 - 1) / 2 ^ h < (hi - 1) / 2 ^ h := by
          have hne : (hi - 1) / 2 ^ h ≠ 0 := fun heq => absurd (hy_first.mp heq) (by omega)
          rw [Nat.zero_div]
          omega
        have ha := (hends hbelow).1 (by simp)
        by_cases hsecond : (hi - 1) / 2 ^ h = 1
        · have hhi_eq : hi = 2 * 2 ^ h := by
            have hlt := hy_second.mp (by omega)
            omega
          rw [cost_at_second (by omega) hsecond.symm, ha, (hends hbelow).2 (hmultiple 2 hhi_eq)]
        · rw [cost_at_between (by omega) (by omega), ha]
      · obtain ⟨ha, hb⟩ := hsame (.inr hfiltered)
        have hne : (hi - 1) / 2 ^ h ≠ 0 := fun heq => absurd (hy_first.mp heq) (by omega)
        by_cases hsecond : 1 < (hi - 1) / 2 ^ h
        · rw [cost_at_between (by omega) hsecond, ha]
        · rw [cost_at_second (by omega) (by omega), ha, hb]
    · -- the range does not start in the last block
      have hstart : (lo - 1) / 2 ^ h = 2 ^ (D - h) - 2 := by
        have hnot : ¬ hi ≤ 2 ^ D - 2 ^ h := fun hle => absurd (hy_last.mpr (by omega)) (by omega)
        have hnot' : ¬ lo ≤ 2 ^ D - 2 * 2 ^ h :=
          fun hle => absurd (hx_but_one.mpr (by omega)) (by omega)
        have hlo_le : lo ≤ 2 ^ D - 2 ^ h := by
          rcases hright with hright | hright | hright | hright
          · exact absurd hright hnot
          · exact absurd hright.2 hnot'
          · exact hright.2
          · exact hright.2
        have hlt := hx_last.mpr (by omega)
        omega
      exact (cost_at_first hstart.symm).symm
    · have hb : ab.2.cost = c := by
        rcases hright with hright | hright | hright | hright
        · exact absurd (hy_last.mpr (by omega)) (by omega)
        · refine (hends (by omega)).2 (hmultiple (2 ^ (D - h)) ?_)
          rw [hright.1]
          exact two_pow_sub_pos (by omega)
        · exact absurd (hx_but_one.mp hlt) (by omega)
        · exact (hsame (.inr hright.1)).2
      rw [hb, cost_at_between hlt (by omega)]

/-- With a base learner that predicts one side, the costs at the level of the children are those of
    the ends of their blocks. -/
theorem LearnsAsPredicts.meets_end_leaf (hall : LearnsAsPredicts R (2 ^ D) (2 ^ h) lo hi c draw)
    (hh : h + 2 ≤ D)
    (hlo : 1 ≤ lo) (hlohi : lo ≤ hi) (hhi : hi ≤ 2 ^ D) (hfree : ¬ Filtered draw c) (side : Bool) :
    ∃ ab : NodeCosts R, (∀ q,
      cost_at c ((lo - 1) / 2 ^ h) ab.1.cost ((hi - 1) / 2 ^ h) ab.2.cost q =
        leaf_cost c (lo - 1) (hi - 1) (end_leaf side h q)) ∧
      Meets c ((lo - 1) / 2 ^ h) ab.1.cost ((hi - 1) / 2 ^ h) ab.2.cost (2 ^ (D - h)) := by
  refine hall.meets hh hlo hlohi hhi (settles_one_sided side)
    (I := fun i ab => ∀ q, cost_at c ((lo - 1) / 2 ^ i) ab.1.cost ((hi - 1) / 2 ^ i) ab.2.cost q =
      leaf_cost c (lo - 1) (hi - 1) (end_leaf side i q)) (fun q => ?_)
    fun i hi ab ab' hcost hround => keeps_end_leaf side hfree (by omega) hi hcost hround
  unfold cost_at leaf_cost end_leaf start
  simp only [Nat.pow_zero, Nat.div_one, Nat.mul_one, Nat.sub_self, ite_self, Nat.add_zero]
  split_ifs <;> first | rfl | omega

/-- With a base learner that predicts 0 no cost of the range gets lost. -/
theorem LearnsAsPredicts.meets_share (hall : LearnsAsPredicts R (2 ^ D) (2 ^ h) lo hi c draw)
    (hh : h + 2 ≤ D)
    (hlo : 1 ≤ lo) (hlohi : lo ≤ hi) (hhi : hi ≤ 2 ^ D) :
    ∃ ab : NodeCosts R, (Share c ab.1.cost ∧ Share c ab.2.cost) ∧
      Meets c ((lo - 1) / 2 ^ h) ab.1.cost ((hi - 1) / 2 ^ h) ab.2.cost (2 ^ (D - h)) :=
  hall.meets hh hlo hlohi hhi settles_silent
    (I := fun _ ab => Share c ab.1.cost ∧ Share c ab.2.cost)
    ⟨⟨1, one_pos, (one_mul c).symm⟩, ⟨1, one_pos, (one_mul c).symm⟩⟩ fun _ hi _ _ hcost hround =>
      keeps_share hi hcost hround

omit [LinearOrder R] [IsStrictOrderedRing R] in
theorem leaf_cost_inside {leaf : Nat} (hx : x ≤ leaf) (hy : leaf ≤ y) : leaf_cost c x y leaf = c :=
  if_pos ⟨hx, hy⟩

omit [LinearOrder R] [IsStrictOrderedRing R] in
theorem leaf_cost_before {leaf : Nat} (hx : leaf < x) : leaf_cost c x y leaf = 0 :=
  if_neg fun h => by omega

omit [LinearOrder R] [IsStrictOrderedRing R] in
theorem leaf_cost_behind {leaf : Nat} (hy : y < leaf) : leaf_cost c x y leaf = 0 :=
  if_neg fun h => by omega

theorem Share.ne_zero {cost : R} (h : Share c cost) (hc : c ≠ 0) : cost ≠ 0 := by
  obtain ⟨k, hk, rfl⟩ := h
  exact mul_ne_zero hk.ne' hc

theorem leftKept_of_learnsAsPredicts (hall : LearnsAsPredicts R (2 ^ D) (2 ^ h) lo hi c draw)
    (hh : h + 2 ≤ D)
    (hlo : 1 ≤ lo) (hlohi : lo ≤ hi) (hhi : hi ≤ 2 ^ D) (hc : c ≠ 0) :
      LeftKept (2 ^ h) lo hi c draw := by
  by_contra hnot
  obtain ⟨hle, hnot⟩ := not_or.mp hnot
  obtain ⟨hcover, hfiltered⟩ := not_or.mp hnot
  have hx : (lo - 1) / 2 ^ h = 0 := (blocks hh (lo - 1)).first.mpr (by omega)
  rcases Nat.lt_or_ge (2 ^ h) hi with hbehind | hinside
  · -- a base learner that predicts the side where the first block does not cost `c`
    have hfree : ¬ Filtered draw c := fun h => hfiltered ⟨h, hbehind⟩
    rcases Nat.lt_or_ge 1 lo with hlater | hone
    · obtain ⟨ab, hcost, hmeets⟩ := hall.meets_end_leaf hh hlo hlohi hhi hfree false
      have heq := hmeets.left hx
      have ha := ((cost_at_first rfl).symm.trans (hcost _) : ab.1.cost = _)
      rw [hcost, ha, hx] at heq
      rw [leaf_cost_before (by unfold end_leaf; simp; omega),
        leaf_cost_inside (by unfold end_leaf; simp; omega)
        (by unfold end_leaf; simp; omega)] at heq
      exact hc heq.symm
    · have hlt : hi < 2 * 2 ^ h := by
        by_contra hge
        exact hcover ⟨by omega, by omega⟩
      obtain ⟨ab, hcost, hmeets⟩ := hall.meets_end_leaf hh hlo hlohi hhi hfree true
      have heq := hmeets.left hx
      have ha := ((cost_at_first rfl).symm.trans (hcost _) : ab.1.cost = _)
      rw [hcost, ha, hx] at heq
      rw [leaf_cost_inside (by omega) (by unfold end_leaf; simp; omega),
        leaf_cost_behind (by unfold end_leaf; simp; omega)] at heq
      exact hc heq
  · obtain ⟨ab, hshare, hmeets⟩ := hall.meets_share hh hlo hlohi hhi
    have hy : (hi - 1) / 2 ^ h = 0 := (blocks hh (hi - 1)).first.mpr (by omega)
    have heq := hmeets.left hx
    rw [hx, hy] at heq
    exact hshare.1.ne_zero hc (heq.trans (by simp [cost_at]))

theorem rightKept_of_learnsAsPredicts (hall : LearnsAsPredicts R (2 ^ D) (2 ^ h) lo hi c draw)
    (hh : h + 2 ≤ D)
    (hlo : 1 ≤ lo) (hlohi : lo ≤ hi) (hhi : hi ≤ 2 ^ D) (hc : c ≠ 0) :
    RightKept (2 ^ D) (2 ^ h) lo hi c draw := by
  by_contra hnot
  obtain ⟨hbehind, hnot⟩ := not_or.mp hnot
  obtain ⟨hcover, hnot⟩ := not_or.mp hnot
  obtain ⟨hbut_one, hfiltered⟩ := not_or.mp hnot
  obtain ⟨hfour, hfour'⟩ := four_blocks hh
  have hmul : 2 ^ D = 2 ^ (D - h) * 2 ^ h := two_pow_sub_pos (by omega)
  have hy : (hi - 1) / 2 ^ h = 2 ^ (D - h) - 1 := by
    have hlt := (blocks hh (hi - 1)).all.mpr (by omega)
    have hge : ¬ (hi - 1) / 2 ^ h < 2 ^ (D - h) - 1 :=
      fun hlt => absurd ((blocks hh (hi - 1)).last.mp hlt) (by omega)
    omega
  rcases Nat.lt_or_ge (2 ^ D - 2 ^ h) lo with hlast | hbefore
  · -- the range is inside the last block
    have hx : (lo - 1) / 2 ^ h = 2 ^ (D - h) - 1 := by
      have hlt := (blocks hh (lo - 1)).all.mpr (by omega)
      have hge : ¬ (lo - 1) / 2 ^ h < 2 ^ (D - h) - 1 :=
        fun hlt => absurd ((blocks hh (lo - 1)).last.mp hlt) (by omega)
      omega
    obtain ⟨ab, hshare, hmeets⟩ := hall.meets_share hh hlo hlohi hhi
    have heq := hmeets.right_of_a hy (by omega)
    rw [hx, hy] at heq
    exact hshare.1.ne_zero hc (heq.trans (cost_at_before (by omega)))
  · have hfree : ¬ Filtered draw c := fun h => hfiltered ⟨h, hbefore⟩
    have hx : (lo - 1) / 2 ^ h < 2 ^ (D - h) - 2 := by
      refine (blocks hh (lo - 1)).last_but_one.mpr ?_
      have hle : ¬ 2 ^ D - 2 * 2 ^ h < lo := fun hlt => hbut_one ⟨hlt, hbefore⟩
      omega
    obtain ⟨ab, hcost, hmeets⟩ := hall.meets_end_leaf hh hlo hlohi hhi hfree true
    have heq := hmeets.right_of_b hy hx
    have hb := ((cost_at_second (by omega) rfl).symm.trans (hcost _) : ab.2.cost = _)
    rw [hcost, hb, hy] at heq
    have hlast : end_leaf true h (2 ^ (D - h) - 1) = 2 ^ D - 1 := by
      unfold end_leaf
      rw [if_pos rfl, Nat.sub_mul, ← hmul]
      omega
    have hbut_one_leaf : end_leaf true h (2 ^ (D - h) - 2) = 2 ^ D - 2 ^ h - 1 := by
      unfold end_leaf
      rw [if_pos rfl, Nat.sub_mul, ← hmul]
      omega
    rw [hlast, hbut_one_leaf, leaf_cost_behind (by omega),
      leaf_cost_inside (by omega) (by omega)] at heq
    exact hc heq.symm

/-- Prediction keeps away from the leaves at both ends. Learning gives the nodes that go to one side
    only the costs of the children that prediction takes if and only if the range is one of those
    that are kept, or costs nothing. -/
theorem bandwidth_kept_iff {random_draw c : R} {D h lo hi : Nat} (hh : 4 * 2 ^ h ≤ 2 ^ D)
    (hlo : 1 ≤ lo) (hlohi : lo ≤ hi)
    (hhi : hi ≤ 2 ^ D) :
    PredictsInside R (2 ^ D) (2 ^ h) ∧ (LearnsAsPredicts R (2 ^ D) (2 ^ h) lo hi c random_draw ↔
      c = 0 ∨ LeftKept (2 ^ h) lo hi c random_draw ∧
        RightKept (2 ^ D) (2 ^ h) lo hi c random_draw) := by
  have hlevels : h + 2 ≤ D := by
    rw [show 4 * 2 ^ h = 2 ^ (h + 2) by rw [Nat.pow_add, Nat.mul_comm]] at hh
    exact (Nat.pow_le_pow_iff_right (by decide)).mp hh
  refine ⟨predictsInside hlevels, fun hall => ?_, learnsAsPredicts_of_kept hlevels hlo hlohi hhi⟩
  by_cases hc : c = 0
  · exact .inl hc
  · exact .inr ⟨leftKept_of_learnsAsPredicts hall hlevels hlo hlohi hhi hc,
      rightKept_of_learnsAsPredicts hall hlevels hlo hlohi hhi hc⟩

end Learning

/-- With four leaves and bandwidth 1, learning is right for the first two actions with cost 1. -/
theorem bandwidth_kept_iff_first_two :
    PredictsInside ℚ (2 ^ 2) (2 ^ 0) ∧ (LearnsAsPredicts ℚ (2 ^ 2) (2 ^ 0) 1 2 1 0 ↔
      (1 : ℚ) = 0 ∨ LeftKept (2 ^ 0) 1 2 1 (0 : ℚ) ∧ RightKept (2 ^ 2) (2 ^ 0) 1 2 1 (0 : ℚ)) :=
  bandwidth_kept_iff (by decide) (by decide) (by decide) (by decide)

/-- The first action alone, with four leaves and bandwidth 1: its cost goes to the node that
    prediction leaves to the right. -/
theorem not_learnsAsPredicts_first : ¬ LearnsAsPredicts ℚ 4 1 1 1 1 0 := by
  intro hall
  have hkept := leftKept_of_learnsAsPredicts (D := 2) (h := 0) hall (by decide) (by decide)
    (by decide) (by decide) one_ne_zero
  rcases hkept with hlt | ⟨-, hle⟩ | ⟨-, hlt⟩
  · exact absurd hlt (by decide)
  · exact absurd hle (by decide)
  · exact absurd hlt (by decide)

end VW.CatsTree
