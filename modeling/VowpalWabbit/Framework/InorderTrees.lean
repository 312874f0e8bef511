import Mathlib.Order.Interval.Finset.Nat
import Mathlib.Tactic.Linarith

/-! # Binary trees numbered in order

    The nodes of a range of numbers are a binary tree in order: a root, at its left the tree of
    the numbers below it, at its right that of the numbers above it. The tree is known by the
    parents of its nodes and by how many children each of them has.

    A left part is never empty unless the right part is.
-/

namespace Inorder

open Nat Finset

variable {parent kids : Nat → Nat → Prop}

/-- The numbers from `first` up to `last` are a tree of this depth. -/
inductive Spans (parent kids : Nat → Nat → Prop) : (first last root depth : Nat) → Prop
  | leaf {i : Nat} (hkids : kids i 0) : Spans parent kids i (i + 1) i 0
  | left {first root child depth : Nat} (hleft : Spans parent kids first root child depth)
      (hparent : parent child root) (hkids : kids root 1) : Spans parent kids first (root + 1) root (depth + 1)
  | both {first last root child child' depth depth' : Nat} (hleft : Spans parent kids first root child depth)
      (hright : Spans parent kids (root + 1) last child' depth') (hparent : parent child root)
      (hparent' : parent child' root) (hkids : kids root 2) :
        Spans parent kids first last root (max depth depth' + 1)

/-- The way up from a node, of `n` steps. -/
inductive Climbs (parent : Nat → Nat → Prop) : (n i j : Nat) → Prop
  | refl {i : Nat} : Climbs parent 0 i i
  | step {n i j k : Nat} (h : Climbs parent n i j) (hparent : parent j k) : Climbs parent (n + 1) i k

variable {i : Nat}

namespace Spans

variable {first last root depth : Nat}

theorem root_mem (h : Spans parent kids first last root depth) : first ≤ root ∧ root < last := by
  induction h with
  | leaf => omega
  | left _ _ _ ih => omega
  | both _ _ _ _ _ ih ih' => omega

/-- Every node but the root has a parent in the range. -/
theorem parent_mem (h : Spans parent kids first last root depth) (hi : first ≤ i ∧ i < last)
    (hroot : i ≠ root) : ∃ j, first ≤ j ∧ j < last ∧ j ≠ i ∧ parent i j := by
  induction h with
  | leaf => omega
  | @left first root child depth hleft hparent _ ih =>
    have hmem := hleft.root_mem
    by_cases hchild : i = child
    · subst hchild
      exact ⟨root, by omega, by omega, by omega, hparent⟩
    · obtain ⟨j, hj, hj', hne, hij⟩ := ih (by omega) hchild
      exact ⟨j, hj, by omega, hne, hij⟩
  | @both first last root child child' depth depth' hleft hright hparent hparent' _ ih ih' =>
    have hmem := hleft.root_mem
    have hmem' := hright.root_mem
    rcases lt_or_gt_of_ne hroot with hlt | hgt
    · by_cases hchild : i = child
      · subst hchild
        exact ⟨root, by omega, by omega, by omega, hparent⟩
      · obtain ⟨j, hj, hj', hne, hij⟩ := ih (by omega) hchild
        exact ⟨j, hj, by omega, hne, hij⟩
    · by_cases hchild : i = child'
      · subst hchild
        exact ⟨root, by omega, by omega, by omega, hparent'⟩
      · obtain ⟨j, hj, hj', hne, hij⟩ := ih' (by omega) hchild
        exact ⟨j, by omega, hj', hne, hij⟩

/-- The root is reached in as many steps as the tree is deep. -/
theorem climbs (h : Spans parent kids first last root depth) (hi : first ≤ i ∧ i < last) :
    ∃ n ≤ depth, Climbs parent n i root := by
  induction h with
  | @leaf j hkids =>
    obtain rfl : i = j := by omega
    exact ⟨0, le_refl 0, .refl⟩
  | @left first root child depth hleft hparent _ ih =>
    by_cases hroot : i = root
    · subst hroot
      exact ⟨0, zero_le _, .refl⟩
    · obtain ⟨n, hn, hclimbs⟩ := ih (by omega)
      exact ⟨n + 1, succ_le_succ hn, hclimbs.step hparent⟩
  | @both first last root child child' depth depth' hleft hright hparent hparent' _ ih ih' =>
    rcases lt_trichotomy i root with hlt | heq | hgt
    · obtain ⟨n, hn, hclimbs⟩ := ih (by omega)
      exact ⟨n + 1, by omega, hclimbs.step hparent⟩
    · subst heq
      exact ⟨0, zero_le _, .refl⟩
    · obtain ⟨n, hn, hclimbs⟩ := ih' (by omega)
      exact ⟨n + 1, by omega, hclimbs.step hparent'⟩

/-- The parents of the nodes other than the root matter, and how many children the nodes have. -/
theorem mono {parent' kids' : Nat → Nat → Prop} (h : Spans parent kids first last root depth)
    (hparent : ∀ i j, first ≤ i → i < last → i ≠ root → parent i j → parent' i j)
    (hkids : ∀ i n, first ≤ i → i < last → kids i n → kids' i n) : Spans parent' kids' first last root depth := by
  induction h with
  | leaf hkids₀ => exact .leaf (hkids _ _ (by omega) (by omega) hkids₀)
  | left hleft hparent₁ hkids₁ ih =>
    have hmem := hleft.root_mem
    refine .left (ih (fun i j hi hi' _ => ?_) fun i n hi hi' => ?_) ?_ ?_
    · exact hparent i j hi (by omega) (by omega)
    · exact hkids i n hi (by omega)
    · exact hparent _ _ (by omega) (by omega) (by omega) hparent₁
    · exact hkids _ _ (by omega) (by omega) hkids₁
  | both hleft hright hparent₁ hparent₂ hkids₂ ih ih' =>
    have hmem := hleft.root_mem
    have hmem' := hright.root_mem
    refine .both (ih (fun i j hi hi' _ => ?_) fun i n hi hi' => ?_)
      (ih' (fun i j hi hi' _ => ?_) fun i n hi hi' => ?_) ?_ ?_ ?_
    · exact hparent i j hi (by omega) (by omega)
    · exact hkids i n hi (by omega)
    · exact hparent i j (by omega) hi' (by omega)
    · exact hkids i n (by omega) hi'
    · exact hparent _ _ (by omega) (by omega) (by omega) hparent₁
    · exact hparent _ _ (by omega) (by omega) (by omega) hparent₂
    · exact hkids _ _ (by omega) (by omega) hkids₂

end Spans

/-- The tree of a node in a tree: from outside of it no way leads into it, and its root has its
    parent outside. -/
structure Part (parent kids : Nat → Nat → Prop) (first last root i f l d : Nat) : Prop where
  spans : Spans parent kids f l i d
  first_le : first ≤ f
  le_last : l ≤ last
  above : i ≠ root → ∀ k, parent i k → k < f ∨ l ≤ k
  outside : ∀ j, first ≤ j → j < last → j ≠ root → (j < f ∨ l ≤ j) → ∀ k, parent j k → k < f ∨ l ≤ k

section Functional

variable {first last root depth : Nat} (hfunctional : ∀ ⦃i j k : Nat⦄, parent i j → parent i k → j = k)

include hfunctional

/-- A part of a subtree is a part of the tree, when no way leads into the subtree either. -/
theorem Part.grow {a b child f l d : Nat} (h : Part parent kids a b child i f l d) (hparent : parent child root)
    (hroot : root < a ∨ b ≤ root) (hfirst : first ≤ a) (hlast : b ≤ last)
    (hothers : ∀ j, first ≤ j → j < last → j ≠ root → (j < a ∨ b ≤ j) → ∀ k, parent j k → k < a ∨ b ≤ k) :
    Part parent kids first last root i f l d := by
  have hf := h.first_le
  have hl := h.le_last
  refine ⟨h.spans, le_trans hfirst hf, le_trans hl hlast, fun _ k hk => ?_, fun j hj hj' hne hout k hk => ?_⟩
  · by_cases hchild : i = child
    · subst hchild
      have := hfunctional hk hparent
      omega
    · exact h.above hchild k hk
  · by_cases hin : a ≤ j ∧ j < b
    · by_cases hchild : j = child
      · subst hchild
        have := hfunctional hk hparent
        omega
      · exact h.outside j hin.1 hin.2 hchild hout k hk
    · have := hothers j hj hj' hne (by omega) k hk
      omega

/-- Every node is the root of a tree of its own. -/
theorem Spans.part (h : Spans parent kids first last root depth) (hi : first ≤ i ∧ i < last) :
    ∃ f l d, Part parent kids first last root i f l d := by
  induction h with
  | @leaf j hkids =>
    obtain rfl : i = j := by omega
    exact ⟨i, i + 1, 0, .leaf hkids, le_refl _, le_refl _, fun hne => absurd rfl hne, fun j _ _ _ _ => by omega⟩
  | @left first root child depth hleft hparent hkids ih =>
    by_cases hroot : i = root
    · subst hroot
      exact ⟨first, i + 1, depth + 1, .left hleft hparent hkids, le_refl _, le_refl _,
        fun hne => absurd rfl hne, fun j _ _ _ _ => by omega⟩
    · obtain ⟨f, l, d, hpart⟩ := ih (by omega)
      exact ⟨f, l, d, hpart.grow hfunctional hparent (by omega) (by omega) (by omega) fun j _ _ _ _ => by omega⟩
  | @both first last root child child' depth depth' hleft hright hparent hparent' hkids ih ih' =>
    have hmem := hleft.root_mem
    have hmem' := hright.root_mem
    -- the parents of one part are in it, or the root
    have hstays : ∀ j k, first ≤ j → j < root → parent j k → k ≤ root := by
      intro j k hj hj' hk
      by_cases hchild : j = child
      · subst hchild
        exact le_of_eq (hfunctional hk hparent)
      · obtain ⟨k', _, hk', _, hjk⟩ := hleft.parent_mem ⟨hj, hj'⟩ hchild
        exact (hfunctional hk hjk ▸ hk').le
    have hstays' : ∀ j k, root < j → j < last → parent j k → root ≤ k := by
      intro j k hj hj' hk
      by_cases hchild : j = child'
      · subst hchild
        exact le_of_eq (hfunctional hk hparent').symm
      · obtain ⟨k', hk', _, _, hjk⟩ := hright.parent_mem ⟨hj, hj'⟩ hchild
        exact (lt_of_succ_le (hfunctional hk hjk ▸ hk')).le
    rcases lt_trichotomy i root with hlt | heq | hgt
    · obtain ⟨f, l, d, hpart⟩ := ih (by omega)
      refine ⟨f, l, d, hpart.grow hfunctional hparent (by omega) (by omega) (by omega) fun j hj hj' _ _ k hk => ?_⟩
      exact .inr (hstays' j k (by omega) hj' hk)
    · subst heq
      exact ⟨first, last, _, .both hleft hright hparent hparent' hkids, le_refl _, le_refl _,
        fun hne => absurd rfl hne, fun j _ _ _ _ => by omega⟩
    · obtain ⟨f, l, d, hpart⟩ := ih' (by omega)
      refine ⟨f, l, d, hpart.grow hfunctional hparent' (by omega) (by omega) (by omega) fun j hj hj' _ _ k hk => ?_⟩
      exact .inl (lt_succ_of_le (hstays j k hj (by omega) hk))

/-- The root has as many children as it is said to have, and at most one on each side. -/
theorem Spans.children (h : Spans parent kids first last root depth) : ∃ cs : Finset Nat,
    cs.card ≤ 2 ∧ kids root cs.card ∧
    (∀ c, first ≤ c → c < last → c ≠ root → (parent c root ↔ c ∈ cs)) ∧
    (∀ c ∈ cs, first ≤ c ∧ c < last ∧ c ≠ root) ∧
    ∀ c ∈ cs, ∀ c' ∈ cs, (c < root ↔ c' < root) → c = c' := by
  cases h with
  | leaf hkids =>
    exact ⟨∅, zero_le 2, hkids, fun c _ _ _ => by omega, fun c hc => absurd hc (notMem_empty c),
      fun c hc => absurd hc (notMem_empty c)⟩
  | @left _ _ child _ hleft hparent hkids =>
    have hmem := hleft.root_mem
    refine ⟨{child}, by simp, by simpa using hkids, fun c hc hc' hne => ?_, fun c hc => ?_, fun c hc c' hc' _ => ?_⟩
    · rw [mem_singleton]
      constructor
      · intro hparent'
        by_contra hchild
        obtain ⟨k, _, hk, _, hck⟩ := hleft.parent_mem ⟨hc, by omega⟩ hchild
        have := hfunctional hparent' hck
        omega
      · rintro rfl
        exact hparent
    · rw [mem_singleton] at hc
      omega
    · rw [mem_singleton] at hc hc'
      rw [hc, hc']
  | @both _ _ _ child child' _ _ hleft hright hparent hparent' hkids =>
    have hmem := hleft.root_mem
    have hmem' := hright.root_mem
    have hne : child ≠ child' := by omega
    refine ⟨{child, child'}, card_le_two, ?_, fun c hc hc' hroot => ?_, fun c hc => ?_, fun c hc c' hc' hside => ?_⟩
    · rw [card_pair hne]
      exact hkids
    · rw [mem_insert, mem_singleton]
      constructor
      · intro hcroot
        by_contra hneither
        rw [not_or] at hneither
        rcases lt_or_gt_of_ne hroot with hlt | hgt
        · obtain ⟨k, _, hk, _, hck⟩ := hleft.parent_mem ⟨hc, hlt⟩ hneither.1
          have := hfunctional hcroot hck
          omega
        · obtain ⟨k, hk, _, _, hck⟩ := hright.parent_mem ⟨hgt, hc'⟩ hneither.2
          have := hfunctional hcroot hck
          omega
      · rintro (rfl | rfl)
        · exact hparent
        · exact hparent'
    · rw [mem_insert, mem_singleton] at hc
      omega
    · rw [mem_insert, mem_singleton] at hc hc'
      omega

section Rooted

variable (h : Spans parent kids first last root depth)
  (hdomain : ∀ ⦃i j : Nat⦄, parent i j → first ≤ i ∧ i < last ∧ i ≠ root)

include h hdomain

/-- The children of a node: there are as many as it is said to have, at most one on each side. -/
theorem Spans.children_of (hi : first ≤ i ∧ i < last) : ∃ cs : Finset Nat,
    (∀ c, c ∈ cs ↔ parent c i) ∧ cs.card ≤ 2 ∧ kids i cs.card ∧
    (∀ c ∈ cs, c ≠ i) ∧ ∀ c ∈ cs, ∀ c' ∈ cs, (c < i ↔ c' < i) → c = c' := by
  obtain ⟨f, l, d, hpart⟩ := h.part hfunctional hi
  have hmem := hpart.spans.root_mem
  obtain ⟨cs, hcard, hkids, hparent, hrange, hside⟩ := hpart.spans.children hfunctional
  refine ⟨cs, fun c => ⟨fun hc => ?_, fun hc => ?_⟩, hcard, hkids, fun c hc => (hrange c hc).2.2, hside⟩
  · obtain ⟨hc₁, hc₂, hc₃⟩ := hrange c hc
    exact (hparent c hc₁ hc₂ hc₃).mpr hc
  · obtain ⟨hc₁, hc₂, hc₃⟩ := hdomain hc
    have hne : c ≠ i := by
      rintro rfl
      obtain ⟨k, _, _, hk, hck⟩ := h.parent_mem ⟨hc₁, hc₂⟩ hc₃
      exact hk (hfunctional hck hc)
    by_cases hin : f ≤ c ∧ c < l
    · exact (hparent c hin.1 hin.2 hne).mp hc
    · have := hpart.outside c hc₁ hc₂ hc₃ (by omega) i hc
      omega

/-- What is below the child on one side of a node is on that side. -/
theorem Spans.in_order {c j n : Nat} (hparent : parent c i) (hclimbs : Climbs parent n j c) :
    (c < i → j < i) ∧ (i < c → i < j) := by
  obtain ⟨hc₁, hc₂, hc₃⟩ := hdomain hparent
  obtain ⟨f, l, d, hpart⟩ := h.part hfunctional ⟨hc₁, hc₂⟩
  have hmem := hpart.spans.root_mem
  have habove := hpart.above hc₃ i hparent
  -- the way up has stayed in the tree of the child
  have hin : ∀ {n m k : Nat}, Climbs parent n m k → f ≤ k ∧ k < l → f ≤ m ∧ m < l := by
    intro n m k hway
    induction hway with
    | refl => exact id
    | @step _ _ m _ _ hlast ih =>
      intro hk
      apply ih
      by_contra hout
      obtain ⟨h₁, h₂, h₃⟩ := hdomain hlast
      have := hpart.outside m h₁ h₂ h₃ (by omega) _ hlast
      omega
  have := hin hclimbs hmem
  omega

end Rooted

end Functional

end Inorder
