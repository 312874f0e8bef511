import VowpalWabbit.Trees.Plt
import VowpalWabbit.Framework.Frontiers
import Mathlib.Tactic

/-! # The searches of the label tree

    The nodes that a search can reach are those up to `kary * ti`, the last child of the last
    inner node. The invariant of both searches: the nodes of the queue and of the predicted
    labels are not above each other, and every leaf whose way from the root is open is
    predicted or is below a node of the queue.
-/

open Cpp VW.Trees Nat

namespace VW.LabelTree

open List

/-! ## The tree -/

/-- The nodes by their parents. -/
def forest (kary : Nat) : Forest Nat where
  parent n := if n = 0 then none else some ((n - 1) / kary)
  rank n := n
  rank_lt {x y} h := by
    by_cases hy : y = 0
    · rw [if_pos hy] at h
      cases h
    · rw [if_neg hy] at h
      have hx := Option.some.inj h
      have hle := div_le_self (y - 1) kary
      omega

theorem parent_child {kary n i : Nat} (hi : i < kary) : (forest kary).parent (kary * n + 1 + i) = some n := by
  have hne : kary * n + 1 + i ≠ 0 := by omega
  show (if _ then none else some ((kary * n + 1 + i - 1) / kary)) = some n
  rw [if_neg hne, show kary * n + 1 + i - 1 = kary * n + i by omega, mul_add_div (by omega), div_eq_of_lt hi,
    add_zero]

/-- The children of a node are the numbers `kary * n + 1 + i`. -/
theorem exists_child {kary n c : Nat} (hkary : 0 < kary) (h : (forest kary).parent c = some n) :
    ∃ i < kary, c = kary * n + 1 + i := by
  have hne : c ≠ 0 := by
    rintro rfl
    cases h
  have hn : (c - 1) / kary = n := by
    have h : (if c = 0 then none else some ((c - 1) / kary)) = some n := h
    rw [if_neg hne] at h
    exact Option.some.inj h
  refine ⟨(c - 1) % kary, mod_lt _ hkary, ?_⟩
  have hdiv := div_add_mod (c - 1) kary
  rw [hn] at hdiv
  omega

theorem above_root {kary : Nat} (n : Nat) : (forest kary).Above 0 n := by
  induction n using Nat.strong_induction_on with
  | _ n ih =>
    by_cases hn : n = 0
    · subst hn
      exact Forest.Above.refl 0
    · have hparent : (forest kary).parent n = some ((n - 1) / kary) := if_neg hn
      have hlt := (forest kary).rank_lt hparent
      exact (ih _ hlt).trans (Forest.above_parent hparent)

/-- Above a node up to the last child there are inner nodes only. -/
theorem eq_of_leaf {kary ti q x : Nat} (h : (forest kary).Above q x) (hq : ti ≤ q)
    (hx : x ≤ kary * ti) : q = x := by
  by_cases hzero : x = 0
  · have hle : q ≤ x := h.rank_le
    omega
  · have hparent : (forest kary).parent x = some ((x - 1) / kary) := if_neg hzero
    refine (h.eq_or_parent hparent).resolve_right fun habove => ?_
    have hle : q ≤ (x - 1) / kary := habove.rank_le
    have hlt : (x - 1) / kary < ti := Nat.div_lt_of_lt_mul (by omega)
    omega

section Product

variable {R : Type} [Field R]

/-- The product of the probabilities from the root to a node. -/
def product (kary : Nat) (prob : Nat → R) (n : Nat) : R :=
  if n = 0 then prob 0 else product kary prob ((n - 1) / kary) * prob n
termination_by n
decreasing_by
  have hle := div_le_self (n - 1) kary
  omega

variable {kary : Nat} {prob : Nat → R}

theorem product_zero : product kary prob 0 = prob 0 := by
  rw [product, if_pos rfl]

theorem product_of_parent {x y : Nat} (h : (forest kary).parent y = some x) :
    product kary prob y = product kary prob x * prob y := by
  by_cases hy : y = 0
  · subst hy
    cases h
  · have h : (if y = 0 then none else some ((y - 1) / kary)) = some x := h
    rw [if_neg hy] at h
    rw [product, if_neg hy, Option.some.inj h]

variable [LinearOrder R] [IsStrictOrderedRing R]

theorem product_pos (hprob : ∀ n, 0 < prob n ∧ prob n < 1) (n : Nat) : 0 < product kary prob n := by
  induction n using Nat.strong_induction_on with
  | _ n ih =>
    by_cases hn : n = 0
    · subst hn
      rw [product_zero]
      exact (hprob 0).1
    · have hparent : (forest kary).parent n = some ((n - 1) / kary) := if_neg hn
      rw [product_of_parent hparent]
      exact mul_pos (ih _ ((forest kary).rank_lt hparent)) (hprob n).1

/-- Products decrease on the way down. -/
theorem product_le_of_above (hprob : ∀ n, 0 < prob n ∧ prob n < 1) {a n : Nat} (h : (forest kary).Above a n) :
    product kary prob n ≤ product kary prob a := by
  induction h with
  | refl => exact le_refl _
  | tail _ hstep ih =>
    rw [product_of_parent hstep]
    exact le_trans (mul_le_of_le_one_right (le_of_lt (product_pos hprob _)) (le_of_lt (hprob _).2)) ih

end Product

/-! ## The invariant -/

section Invariant

variable {R : Type} [Field R]

/-- What holds during a search that goes into the nodes of `open_`. -/
structure Frontier (kary ti : Nat) (prob : Nat → R) (open_ : Nat → Prop) (queue : List (Node R))
    (labels : List Nat) :
    Prop where
  exact_ : ∀ q ∈ queue, q.p = product kary prob q.n
  inside : ∀ q ∈ queue, q.n ≤ kary * ti
  antichain : (forest kary).Antichain (queue.map Node.n ++ labels.map (· + ti))
  leaves : ∀ l ∈ labels, l + ti ≤ kary * ti ∧ open_ (l + ti)
  covers : ∀ x, ti ≤ x → x ≤ kary * ti → open_ x → x - ti ∈ labels ∨ ∃ q ∈ queue, (forest kary).Above q.n x

/-- The children of a node, with their probabilities. -/
def children_of (kary : Nat) (prob : Nat → R) (node : Node R) : List (Node R) :=
  (range kary).map fun i => ⟨kary * node.n + 1 + i, node.p * prob (kary * node.n + 1 + i)⟩

variable {kary ti : Nat} {prob : Nat → R} {open_ : Nat → Prop} {queue rest : List (Node R)}
  {labels : List Nat} {q : Node R}

theorem mem_children_of {c : Node R} (h : c ∈ children_of kary prob q) :
    (forest kary).parent c.n = some q.n ∧ c.p = q.p * prob c.n := by
  obtain ⟨i, hi, rfl⟩ := mem_map.mp h
  exact ⟨parent_child (mem_range.mp hi), rfl⟩

theorem exists_mem_children_of (hkary : 0 < kary) {n : Nat} (h : (forest kary).parent n = some q.n) :
    ∃ c ∈ children_of kary prob q, c.n = n := by
  obtain ⟨i, hi, rfl⟩ := exists_child hkary h
  exact ⟨_, mem_map_of_mem (mem_range.mpr hi), rfl⟩

theorem children_of_nodup : ((children_of kary prob q).map Node.n).Nodup := by
  unfold children_of
  rw [map_map]
  refine List.Nodup.map ?_ nodup_range
  intro i j hij
  have hij : kary * q.n + 1 + i = kary * q.n + 1 + j := hij
  omega

/-- The order of the queue is of no importance. -/
theorem Frontier.perm {queue' : List (Node R)} (h : Frontier kary ti prob open_ queue labels)
    (hperm : queue.Perm queue') :
    Frontier kary ti prob open_ queue' labels where
  exact_ := fun q hq => h.exact_ q (hperm.mem_iff.mpr hq)
  inside := fun q hq => h.inside q (hperm.mem_iff.mpr hq)
  antichain := h.antichain.perm ((hperm.map Node.n).append_right _)
  leaves := h.leaves
  covers := fun x hti hx hopen => (h.covers x hti hx hopen).imp_right fun ⟨q, hq, habove⟩ =>
    ⟨q, hperm.mem_iff.mp hq, habove⟩

/-- An inner node is replaced by its open children, or by the labels of those that are leaves. -/
theorem Frontier.expand (hkary : 0 < kary) (hopen : ∀ x y, (forest kary).Above x y → open_ y → open_ x)
    (h : Frontier kary ti prob open_ (q :: rest) labels) (hq : q.n < ti) (kept new : List (Node R))
    (hchildren : ∀ c ∈ kept ++ new, c ∈ children_of kary prob q) (hnodup : ((kept ++ new).map Node.n).Nodup)
    (hnew : ∀ c ∈ new, ti ≤ c.n ∧ open_ c.n)
    (hall : ∀ c ∈ children_of kary prob q, open_ c.n → c ∈ kept ++ new) :
    Frontier kary ti prob open_ (kept ++ rest) (labels ++ new.map fun c => c.n - ti) := by
  have hexact := h.exact_ q mem_cons_self
  have hchild_inside : ∀ c ∈ children_of kary prob q, c.n ≤ kary * ti := by
    intro c hc
    obtain ⟨i, hi, rfl⟩ := mem_map.mp hc
    rw [mem_range] at hi
    have hle : kary * (q.n + 1) ≤ kary * ti := mul_le_mul_left kary hq
    rw [mul_add, mul_one] at hle
    show kary * q.n + 1 + i ≤ kary * ti
    omega
  have hback : (new.map fun c => c.n - ti).map (· + ti) = new.map Node.n := by
    rw [map_map]
    refine map_congr_left fun c hc => ?_
    exact Nat.sub_add_cancel (hnew c hc).1
  refine ⟨fun c hc => ?_, fun c hc => ?_, ?_, fun l hl => ?_, fun x hti hx hx_open => ?_⟩
  · rcases mem_append.mp hc with hc | hc
    · obtain ⟨hparent, hp⟩ := mem_children_of (hchildren c (mem_append_left _ hc))
      rw [hp, hexact, product_of_parent hparent]
    · exact h.exact_ c (mem_cons_of_mem _ hc)
  · rcases mem_append.mp hc with hc | hc
    · exact hchild_inside c (hchildren c (mem_append_left _ hc))
    · exact h.inside c (mem_cons_of_mem _ hc)
  · rw [map_append, map_append, hback]
    have hexpanded := (@Forest.Antichain.expand _ _ _ ((kept ++ new).map Node.n) _) h.antichain hnodup fun n hn => by
      obtain ⟨c, hc, rfl⟩ := mem_map.mp hn
      exact (mem_children_of (hchildren c hc)).1
    refine hexpanded.perm ?_
    rw [map_append, append_assoc, append_assoc]
    refine List.Perm.append_left _ ?_
    rw [← append_assoc]
    exact perm_append_comm
  · rcases mem_append.mp hl with hl | hl
    · exact h.leaves l hl
    · obtain ⟨c, hc, rfl⟩ := mem_map.mp hl
      rw [Nat.sub_add_cancel (hnew c hc).1]
      exact ⟨hchild_inside c (hchildren c (mem_append_right _ hc)), (hnew c hc).2⟩
  · rcases h.covers x hti hx hx_open with hl | ⟨r, hr, habove⟩
    · exact .inl (mem_append_left _ hl)
    · rcases mem_cons.mp hr with rfl | hr
      · rcases habove.eq_or_child with heq | ⟨n, hparent, habove⟩
        · omega
        · -- a leaf below the node is below an open child of it
          obtain ⟨c, hc, rfl⟩ := (@exists_mem_children_of _ _ _ prob _) hkary hparent
          rcases mem_append.mp (hall c hc (hopen _ _ habove hx_open)) with hkept | hnew_mem
          · exact .inr ⟨c, mem_append_left _ hkept, habove⟩
          · have heq := eq_of_leaf habove (hnew c hnew_mem).1 hx
            refine .inl (mem_append_right _ ?_)
            rw [← heq]
            exact mem_map_of_mem hnew_mem
      · exact .inr ⟨r, mem_append_right _ hr, habove⟩

/-- A leaf becomes a label. -/
theorem Frontier.emit (h : Frontier kary ti prob open_ (q :: rest) labels) (hq : ti ≤ q.n) (hq_open : open_ q.n) :
    Frontier kary ti prob open_ rest (labels ++ [q.n - ti]) := by
  have hinside := h.inside q mem_cons_self
  refine ⟨fun c hc => h.exact_ c (mem_cons_of_mem _ hc), fun c hc => h.inside c (mem_cons_of_mem _ hc), ?_,
    fun l hl => ?_, fun x hti hx hx_open => ?_⟩
  · refine h.antichain.perm ?_
    rw [map_append, map_cons, map_cons, map_nil, Nat.sub_add_cancel hq, ← append_assoc]
    exact (perm_append_singleton q.n _).symm
  · rcases mem_append.mp hl with hl | hl
    · exact h.leaves l hl
    · rw [mem_singleton.mp hl, Nat.sub_add_cancel hq]
      exact ⟨hinside, hq_open⟩
  · rcases h.covers x hti hx hx_open with hl | ⟨r, hr, habove⟩
    · exact .inl (mem_append_left _ hl)
    · rcases mem_cons.mp hr with rfl | hr
      · rw [eq_of_leaf habove hq hx]
        exact .inl (mem_append_right _ (mem_singleton_self _))
      · exact .inr ⟨r, hr, habove⟩

theorem Frontier.nodup (h : Frontier kary ti prob open_ queue labels) : labels.Nodup :=
  List.Nodup.of_map _ (nodup_append.mp h.antichain.nodup).2.1

/-- When the queue is empty the labels are those of the open leaves. -/
theorem Frontier.mem_iff (h : Frontier kary ti prob open_ [] labels) (l : Nat) :
    l ∈ labels ↔ l + ti ≤ kary * ti ∧ open_ (l + ti) := by
  refine ⟨h.leaves l, fun ⟨hl, hopen⟩ => ?_⟩
  rcases h.covers (l + ti) (le_add_left _ _) hl hopen with hmem | ⟨q, hq, -⟩
  · rwa [Nat.add_sub_cancel] at hmem
  · cases hq

theorem frontier_root : Frontier kary ti prob open_ [⟨0, product kary prob 0⟩] [] where
  exact_ := fun q hq => by rw [mem_singleton.mp hq]
  inside := fun q hq => by
    rw [mem_singleton.mp hq]
    exact zero_le _
  antichain := pairwise_singleton _ _
  leaves := fun l hl => nomatch hl
  covers := fun x _ _ _ => .inr ⟨_, mem_singleton_self _, above_root x⟩

end Invariant

/-! ## What is left to look at -/

/-- A bound on the nodes below a node. -/
def potential (kary ti n : Nat) : Nat := (kary + 1) ^ (ti - n)

/-- The same for a queue. -/
def potential_sum {R : Type} (kary ti : Nat) (queue : List (Node R)) : Nat :=
  (queue.map fun q => potential kary ti q.n).sum

/-- The children of an inner node are less than the node. -/
theorem potential_children {R : Type} [Field R] {kary ti : Nat} {prob : Nat → R} {q : Node R} (hq : q.n < ti)
    (kept : List (Node R)) (hlength : kept.length ≤ kary) (hkept : ∀ c ∈ kept, c ∈ children_of kary prob q) :
    potential_sum kary ti kept < potential kary ti q.n := by
  have hbound : ∀ c ∈ kept.map fun q => potential kary ti q.n, c ≤ (kary + 1) ^ (ti - (q.n + 1)) := by
    intro w hw
    obtain ⟨c, hc, rfl⟩ := mem_map.mp hw
    have hlt : q.n < c.n := (forest kary).rank_lt (mem_children_of (hkept c hc)).1
    exact Nat.pow_le_pow_right (Nat.succ_pos _) (by omega)
  have hsum := sum_le_card_nsmul _ _ hbound
  rw [length_map, smul_eq_mul] at hsum
  have hpow : potential kary ti q.n = (kary + 1) ^ (ti - (q.n + 1)) * (kary + 1) := by
    unfold potential
    rw [← Nat.pow_succ, show (ti - (q.n + 1)).succ = ti - q.n by omega]
  have hpositive : 0 < (kary + 1) ^ (ti - (q.n + 1)) := Nat.pow_pos (Nat.succ_pos _)
  unfold potential_sum
  rw [hpow]
  nlinarith

end VW.LabelTree
