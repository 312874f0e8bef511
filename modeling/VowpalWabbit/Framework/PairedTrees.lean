import Mathlib.Tactic

/-! # Binary trees whose nodes are numbered from the leaves on

    The nodes are the numbers up to `root`. Those below `k` are leaves, every other node is made of
    two smaller ones, and every node but `root` is one of the two that its parent is made of. A path
    leads from a node to the root, and names at each node above the side it came from.

    A pair of factors at each inner node gives each node the product of the factors on its path.
    Where the factors of each pair add up to 1, so do the products of the leaves.
-/

namespace Paired

open List Nat

/-- The nodes up to `root` form a tree with the leaves below `k`. -/
structure Tree (k root : Nat) (left right parent : Nat → Nat) : Prop where
  left_lt : ∀ n, k ≤ n → n ≤ root → left n < n
  right_lt : ∀ n, k ≤ n → n ≤ root → right n < n
  sides : ∀ n, k ≤ n → n ≤ root → left n ≠ right n
  parent_left : ∀ n, k ≤ n → n ≤ root → parent (left n) = n
  parent_right : ∀ n, k ≤ n → n ≤ root → parent (right n) = n
  lt_parent : ∀ n, n < root → n < parent n
  parent_le : ∀ n, n < root → parent n ≤ root
  inner : ∀ n, n < root → k ≤ parent n
  child : ∀ n, n < root → left (parent n) = n ∨ right (parent n) = n

/-- The way from a node up to the root: the nodes above it, with `true` where it comes from the left. -/
inductive Path (k root : Nat) (left right : Nat → Nat) : Nat → List (Nat × Bool) → Prop where
  | root : Path k root left right root []
  | left {n : Nat} {above : List (Nat × Bool)} (hk : k ≤ n) (h : Path k root left right n above) :
      Path k root left right (left n) ((n, true) :: above)
  | right {n : Nat} {above : List (Nat × Bool)} (hk : k ≤ n) (h : Path k root left right n above) :
      Path k root left right (right n) ((n, false) :: above)

section Tree

variable {k root n : Nat} {left right parent : Nat → Nat} {path : List (Nat × Bool)}

theorem Path.le_root (t : Tree k root left right parent) (h : Path k root left right n path) : n ≤ root := by
  induction h with
  | root => exact le_refl root
  | left hk _ ih => exact le_of_lt (lt_of_lt_of_le (t.left_lt _ hk ih) ih)
  | right hk _ ih => exact le_of_lt (lt_of_lt_of_le (t.right_lt _ hk ih) ih)

/-- The first step of a path goes to the parent. -/
theorem Path.step (t : Tree k root left right parent) (h : Path k root left right n path) (hn : n < root) :
    ∃ above, Path k root left right (parent n) above ∧ path = (parent n, decide (left (parent n) = n)) :: above := by
  cases h with
  | root => exact absurd hn (lt_irrefl root)
  | @left m above hk h =>
    refine ⟨above, ?_, ?_⟩
    · rwa [t.parent_left m hk (h.le_root t)]
    · rw [t.parent_left m hk (h.le_root t), decide_eq_true rfl]
  | @right m above hk h =>
    refine ⟨above, ?_, ?_⟩
    · rwa [t.parent_right m hk (h.le_root t)]
    · rw [t.parent_right m hk (h.le_root t), decide_eq_false (t.sides m hk (h.le_root t))]

theorem Path.of_parent (t : Tree k root left right parent) (hn : n < root) {above : List (Nat × Bool)}
    (h : Path k root left right (parent n) above) :
    Path k root left right n ((parent n, decide (left (parent n) = n)) :: above) := by
  by_cases hleft : left (parent n) = n
  · rw [decide_eq_true hleft]
    have hpath := Path.left (t.inner n hn) h
    rwa [hleft] at hpath
  · rw [decide_eq_false hleft]
    have hpath := Path.right (t.inner n hn) h
    rwa [(t.child n hn).resolve_left hleft] at hpath

theorem Path.of_root (t : Tree k root left right parent) (h : Path k root left right n path) (hn : n = root) :
    path = [] := by
  cases h with
  | root => rfl
  | @left m above hk h =>
    have hlt := t.left_lt m hk (h.le_root t)
    have hle := h.le_root t
    omega
  | @right m above hk h =>
    have hlt := t.right_lt m hk (h.le_root t)
    have hle := h.le_root t
    omega

/-- Every node is connected with the root. -/
theorem Tree.exists_path (t : Tree k root left right parent) (hn : n ≤ root) :
    ∃ path, Path k root left right n path := by
  -- by the number of nodes after `n`, as the parent comes later
  induction hm : root - n using Nat.strong_induction_on generalizing n with
  | _ m ih =>
    rcases lt_or_eq_of_le hn with hlt | rfl
    · have hparent := t.lt_parent n hlt
      have hle := t.parent_le n hlt
      obtain ⟨above, habove⟩ := ih (root - parent n) (by omega) hle rfl
      exact ⟨_, Path.of_parent t hlt habove⟩
    · exact ⟨[], .root⟩

/-- There is one way up. -/
theorem Path.unique (t : Tree k root left right parent) {path' : List (Nat × Bool)}
    (h : Path k root left right n path)
    (h' : Path k root left right n path') : path = path' := by
  induction hm : root - n using Nat.strong_induction_on generalizing n path path' with
  | _ m ih =>
    rcases lt_or_eq_of_le (h.le_root t) with hlt | rfl
    · obtain ⟨above, habove, rfl⟩ := h.step t hlt
      obtain ⟨above', habove', rfl⟩ := h'.step t hlt
      have hparent := t.lt_parent n hlt
      rw [ih (root - parent n) (by omega) habove habove' rfl]
    · rw [h.of_root t rfl, h'.of_root t rfl]

/-- A path meets larger and larger inner nodes. -/
theorem Path.ascending (t : Tree k root left right parent) (h : Path k root left right n path) :
    (n :: path.map Prod.fst).Pairwise (· < ·) ∧ ∀ step ∈ path, k ≤ step.1 ∧ step.1 ≤ root := by
  induction h with
  | root => simp
  | @left m above hk h ih =>
    have hlt := t.left_lt m hk (h.le_root t)
    constructor
    · rw [map_cons, pairwise_cons]
      refine ⟨fun a ha => ?_, ih.1⟩
      rcases mem_cons.mp ha with rfl | ha
      · exact hlt
      · exact lt_trans hlt (rel_of_pairwise_cons ih.1 ha)
    · rw [forall_mem_cons]
      exact ⟨⟨hk, h.le_root t⟩, ih.2⟩
  | @right m above hk h ih =>
    have hlt := t.right_lt m hk (h.le_root t)
    constructor
    · rw [map_cons, pairwise_cons]
      refine ⟨fun a ha => ?_, ih.1⟩
      rcases mem_cons.mp ha with rfl | ha
      · exact hlt
      · exact lt_trans hlt (rel_of_pairwise_cons ih.1 ha)
    · rw [forall_mem_cons]
      exact ⟨⟨hk, h.le_root t⟩, ih.2⟩

/-- A path meets exactly the ancestors. -/
theorem Path.mem_iff (t : Tree k root left right parent) (h : Path k root left right n path) (m : Nat) :
    m ∈ path.map Prod.fst ↔ Relation.TransGen (fun child node => k ≤ node ∧ node ≤ root ∧
      (left node = child ∨ right node = child)) n m := by
  constructor
  · induction h with
    | root => exact fun hm => absurd hm not_mem_nil
    | @left a above hk h ih =>
      intro hm
      have hstep : k ≤ a ∧ a ≤ root ∧ (left a = left a ∨ right a = left a) := ⟨hk, h.le_root t, .inl rfl⟩
      rcases mem_cons.mp hm with rfl | hm
      · exact .single hstep
      · exact .head hstep (ih hm)
    | @right a above hk h ih =>
      intro hm
      have hstep : k ≤ a ∧ a ≤ root ∧ (left a = right a ∨ right a = right a) := ⟨hk, h.le_root t, .inr rfl⟩
      rcases mem_cons.mp hm with rfl | hm
      · exact .single hstep
      · exact .head hstep (ih hm)
  · intro hm
    induction hm using Relation.TransGen.head_induction_on generalizing path with
    | @single a hstep =>
      obtain ⟨hk, hle, rfl | rfl⟩ := hstep
      · obtain ⟨above, -, rfl⟩ := h.step t (lt_of_lt_of_le (t.left_lt m hk hle) hle)
        rw [t.parent_left m hk hle]
        exact mem_cons_self
      · obtain ⟨above, -, rfl⟩ := h.step t (lt_of_lt_of_le (t.right_lt m hk hle) hle)
        rw [t.parent_right m hk hle]
        exact mem_cons_self
    | @head a c hstep _ ih =>
      obtain ⟨hk, hle, rfl | rfl⟩ := hstep
      · obtain ⟨above, habove, rfl⟩ := h.step t (lt_of_lt_of_le (t.left_lt c hk hle) hle)
        rw [t.parent_left c hk hle] at habove
        exact mem_cons_of_mem _ (ih habove)
      · obtain ⟨above, habove, rfl⟩ := h.step t (lt_of_lt_of_le (t.right_lt c hk hle) hle)
        rw [t.parent_right c hk hle] at habove
        exact mem_cons_of_mem _ (ih habove)

/-! ## Products along paths -/

variable {R : Type*} [CommSemiring R] (f : Nat → R × R)

def factor (step : Nat × Bool) : R := if step.2 then (f step.1).1 else (f step.1).2

/-- The product of the factors on a path. -/
def product (path : List (Nat × Bool)) : R := (path.map (factor f)).prod

open Classical in
/-- The product of the factors on the path of a node. -/
noncomputable def share (k root : Nat) (left right : Nat → Nat) (n : Nat) : R :=
  if h : ∃ path, Path k root left right n path then product f h.choose else 0

theorem share_eq (t : Tree k root left right parent) (h : Path k root left right n path) :
    share f k root left right n = product f path := by
  have hexists : ∃ path, Path k root left right n path := ⟨path, h⟩
  unfold share
  rw [dif_pos hexists, Path.unique t hexists.choose_spec h]

/-- Two children share what their parent has. -/
theorem share_children (t : Tree k root left right parent) (hk : k ≤ n) (hn : n ≤ root) :
    share f k root left right (left n) = (f n).1 * share f k root left right n ∧
      share f k root left right (right n) = (f n).2 * share f k root left right n := by
  obtain ⟨path, h⟩ := t.exists_path hn
  rw [share_eq f t h, share_eq f t (Path.left hk h), share_eq f t (Path.right hk h)]
  simp [product, factor]

/-- The nodes below `m` whose parent is not below `m`. -/
def top (root m : Nat) (parent : Nat → Nat) : Finset Nat := {n ∈ Finset.range m | n = root ∨ m ≤ parent n}

/-- An inner node gives way to its two children. -/
theorem top_step (t : Tree k root left right parent) (hk : k ≤ n) (hn : n ≤ root) :
    top root n parent = insert (left n) (insert (right n) ((top root (n + 1) parent).erase n)) := by
  have hleft := t.left_lt n hk hn
  have hright := t.right_lt n hk hn
  have hparent_left := t.parent_left n hk hn
  have hparent_right := t.parent_right n hk hn
  ext i
  simp only [top, Finset.mem_filter, Finset.mem_range, Finset.mem_insert, Finset.mem_erase]
  constructor
  · intro ⟨hlt, hi⟩
    have hparent : n ≤ parent i := hi.resolve_left (by omega)
    rcases lt_or_eq_of_le hparent with hlater | heq
    · exact .inr (.inr ⟨by omega, by omega, .inr hlater⟩)
    · have hchild := t.child i (by omega)
      rw [← heq] at hchild
      exact hchild.elim (fun h => .inl h.symm) fun h => .inr (.inl h.symm)
  · rintro (rfl | rfl | ⟨hne, hlt, hi⟩)
    · exact ⟨hleft, .inr (by omega)⟩
    · exact ⟨hright, .inr (by omega)⟩
    · exact ⟨by omega, hi.imp_right fun h => by omega⟩

/-- The products of the leaves add up to 1 where the factors of each node do. -/
theorem sum_leaves (t : Tree k root left right parent) (hroot : k ≤ root + 1)
    (hf : ∀ n, k ≤ n → n ≤ root → (f n).1 + (f n).2 = 1) :
    ∑ i ∈ Finset.range k, share f k root left right i = 1 := by
  -- from the root down to the leaves, node by node
  have htop : ∀ d, d ≤ root + 1 - k →
      ∑ i ∈ top root (root + 1 - d) parent, share f k root left right i = 1 := by
    intro d
    induction d with
    | zero =>
      intro _
      have honly : top root (root + 1 - 0) parent = {root} := by
        ext i
        simp only [top, Finset.mem_filter, Finset.mem_range, Finset.mem_singleton]
        constructor
        · intro ⟨hlt, hi⟩
          by_contra hne
          have hle := t.parent_le i (by omega)
          omega
        · intro hi
          exact ⟨by omega, .inl hi⟩
      rw [honly, Finset.sum_singleton, share_eq f t Path.root]
      rfl
    | succ d ih =>
      intro hd
      have hstep := ih (by omega)
      obtain ⟨n, hn⟩ : ∃ n, n + 1 = root + 1 - d := ⟨root - d, by omega⟩
      have hk : k ≤ n := by omega
      have hle : n ≤ root := by omega
      have hleft := t.left_lt n hk hle
      have hright := t.right_lt n hk hle
      rw [← hn] at hstep
      have hmem : n ∈ top root (n + 1) parent := by
        rw [top, Finset.mem_filter, Finset.mem_range]
        refine ⟨lt_succ_self n, ?_⟩
        rcases lt_or_eq_of_le hle with hlt | heq
        · exact .inr (t.lt_parent n hlt)
        · exact .inl heq
      have hnew : ∀ i, parent i = n → i < n → i ∉ (top root (n + 1) parent).erase n := by
        intro i hi hlt
        simp only [top, Finset.mem_erase, Finset.mem_filter, Finset.mem_range]
        omega
      have hnew_right := hnew (right n) (t.parent_right n hk hle) hright
      have hnew_left : left n ∉ insert (right n) ((top root (n + 1) parent).erase n) := by
        rw [Finset.mem_insert, not_or]
        exact ⟨t.sides n hk hle, hnew (left n) (t.parent_left n hk hle) hleft⟩
      have hshare := share_children f t hk hle
      calc ∑ i ∈ top root (root + 1 - (d + 1)) parent, share f k root left right i
          = ∑ i ∈ top root n parent, share f k root left right i := by
            rw [show root + 1 - (d + 1) = n by omega]
        _ = (f n).1 * share f k root left right n + ((f n).2 * share f k root left right n +
              ∑ i ∈ (top root (n + 1) parent).erase n, share f k root left right i) := by
            rw [top_step t hk hle, Finset.sum_insert hnew_left, Finset.sum_insert hnew_right, hshare.1, hshare.2]
        _ = ((f n).1 + (f n).2) * share f k root left right n +
              ∑ i ∈ (top root (n + 1) parent).erase n, share f k root left right i := by ring
        _ = 1 := by rw [hf n hk hle, one_mul, Finset.add_sum_erase _ _ hmem, hstep]
  have hleaves : top root k parent = Finset.range k := by
    rw [top, Finset.filter_eq_self]
    intro i hi
    have hlt := Finset.mem_range.mp hi
    by_cases heq : i = root
    · exact .inl heq
    · exact .inr (t.inner i (by omega))
  have hall := htop (root + 1 - k) (le_refl _)
  rwa [show root + 1 - (root + 1 - k) = k by omega, hleaves] at hall

/-- Products of factors that are not negative are not negative. -/
theorem product_nonneg {K : Type*} [CommSemiring K] [PartialOrder K] [IsOrderedRing K] {f : Nat → K × K}
    (h : ∀ step ∈ path, 0 ≤ (f step.1).1 ∧ 0 ≤ (f step.1).2) : 0 ≤ product f path := by
  refine prod_nonneg fun p hp => ?_
  obtain ⟨step, hstep, rfl⟩ := mem_map.mp hp
  unfold factor
  split
  · exact (h step hstep).1
  · exact (h step hstep).2

end Tree

end Paired
