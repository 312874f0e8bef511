import Mathlib.Data.List.Perm.Basic

/-! # Searching a tree by a frontier

    A search keeps a frontier of nodes that it has reached and not looked at. To look at a node
    is to replace it by its children. No node of the frontier is above another one, and what a
    node of the frontier was above, its children are.
-/

namespace Cpp

/-- A forest, by the parents. -/
structure Forest (N : Type) where
  parent : N → Option N
  rank : N → Nat
  rank_lt {x y : N} : parent y = some x → rank x < rank y

namespace Forest

variable {N : Type} (F : Forest N)

/-- `a` is `n` or above it. -/
def Above (a n : N) : Prop := Relation.ReflTransGen (fun x y => F.parent y = some x) a n

/-- Neither is above the other. -/
def Apart (x y : N) : Prop := ¬ F.Above x y ∧ ¬ F.Above y x

variable {F}

theorem Above.refl (x : N) : F.Above x x := Relation.ReflTransGen.refl

theorem Above.trans {x y z : N} (h : F.Above x y) (h' : F.Above y z) : F.Above x z :=
  Relation.ReflTransGen.trans h h'

theorem above_parent {x y : N} (h : F.parent y = some x) : F.Above x y := Relation.ReflTransGen.single h

theorem Above.rank_le {x y : N} (h : F.Above x y) : F.rank x ≤ F.rank y := by
  induction h with
  | refl => exact Nat.le_refl _
  | tail _ hstep ih => exact Nat.le_trans ih (Nat.le_of_lt (F.rank_lt hstep))

/-- Above a node is the node itself or what is above its parent. -/
theorem Above.eq_or_parent {a x y : N} (h : F.Above a y) (hparent : F.parent y = some x) : a = y ∨ F.Above a x := by
  rcases Relation.ReflTransGen.cases_tail h with heq | ⟨z, habove, hstep⟩
  · exact .inl heq.symm
  · rw [hparent] at hstep
    cases hstep
    exact .inr habove

/-- Below a node is the node itself or what is below one of its children. -/
theorem Above.eq_or_child {a y : N} (h : F.Above a y) : a = y ∨ ∃ c, F.parent c = some a ∧ F.Above c y :=
  Relation.ReflTransGen.cases_head h

/-- When the nodes `Y` and those above them are exactly `S`: the parents stay in `S`, and every node
    of `S` is one of `Y` or the parent of one of `S`. -/
theorem above_closure_iff {S Y : N → Prop} {bound : Nat} (hbound : ∀ x, S x → F.rank x ≤ bound) :
    (∀ x, (∃ y, Y y ∧ F.Above x y) ↔ S x) ↔
      (∀ y, Y y → S y) ∧ (∀ x y, S x → F.parent x = some y → S y) ∧ ∀ y, S y → Y y ∨ ∃ x, S x ∧
        F.parent x = some y := by
  constructor
  · intro hall
    refine ⟨fun y hy => (hall y).mp ⟨y, hy, Above.refl y⟩, fun x y hx hparent => ?_, fun y hy => ?_⟩
    · obtain ⟨z, hz, habove⟩ := (hall x).mpr hx
      exact (hall y).mp ⟨z, hz, (above_parent hparent).trans habove⟩
    · obtain ⟨z, hz, habove⟩ := (hall y).mpr hy
      rcases habove.eq_or_child with rfl | ⟨c, hparent, hbelow⟩
      · exact .inl hz
      · exact .inr ⟨c, (hall c).mp ⟨z, hz, hbelow⟩, hparent⟩
  · intro ⟨hstart, hup, hreached⟩ x
    constructor
    · intro ⟨y, hy, habove⟩
      have hsy := hstart y hy
      clear hy
      induction habove using Relation.ReflTransGen.head_induction_on with
      | refl => exact hsy
      | head hparent _ ih => exact hup _ _ ih hparent
    · -- going down from a node of `S` the rank grows, up to the bound
      intro hx
      induction hleft : bound - F.rank x using Nat.strongRecOn generalizing x with
      | ind left ih =>
        rcases hreached x hx with hy | ⟨c, hc, hparent⟩
        · exact ⟨x, hy, Above.refl x⟩
        · have hlt := F.rank_lt hparent
          have hle := hbound c hc
          obtain ⟨y, hy, habove⟩ := ih (bound - F.rank c) (by omega) c hc rfl
          exact ⟨y, hy, (above_parent hparent).trans habove⟩

theorem Apart.symm {x y : N} (h : F.Apart x y) : F.Apart y x := ⟨h.2, h.1⟩

theorem Apart.ne {x y : N} (h : F.Apart x y) : x ≠ y := by
  rintro rfl
  exact h.1 (Above.refl x)

/-- What is apart from a node is apart from its children. -/
theorem Apart.child {q c r : N} (h : F.Apart q r) (hparent : F.parent c = some q) : F.Apart c r := by
  refine ⟨fun hbelow => h.1 ((above_parent hparent).trans hbelow), fun habove => ?_⟩
  rcases habove.eq_or_parent hparent with rfl | habove
  · exact h.1 (above_parent hparent)
  · exact h.2 habove

/-- The children of a node are apart. -/
theorem apart_siblings {q c d : N} (hc : F.parent c = some q) (hd : F.parent d = some q)
    (hne : c ≠ d) : F.Apart c d := by
  -- a sibling above would be above the parent too
  have hnot : ∀ {c d : N}, F.parent c = some q → F.parent d = some q → c ≠ d → ¬ F.Above c d := by
    intro c d hc hd hne habove
    rcases habove.eq_or_parent hd with heq | habove
    · exact hne heq
    · exact absurd (F.rank_lt hc) (Nat.not_lt.mpr habove.rank_le)
  exact ⟨hnot hc hd hne, hnot hd hc hne.symm⟩

variable (F)

/-- No node of the list is above another one. -/
def Antichain (xs : List N) : Prop := xs.Pairwise F.Apart

variable {F}

theorem Antichain.perm {xs ys : List N} (h : F.Antichain xs) (hperm : xs.Perm ys) : F.Antichain ys :=
  (hperm.pairwise_iff fun h => Apart.symm h).mp h

theorem Antichain.nodup {xs : List N} (h : F.Antichain xs) : xs.Nodup := List.Pairwise.imp (fun h => Apart.ne h) h

/-- A node is replaced by children of it. -/
theorem Antichain.expand {q : N} {children rest : List N} (h : F.Antichain (q :: rest)) (hnodup : children.Nodup)
    (hparent : ∀ c ∈ children, F.parent c = some q) : F.Antichain (children ++ rest) := by
  obtain ⟨hq, hrest⟩ := List.pairwise_cons.mp h
  refine List.pairwise_append.mpr ⟨?_, hrest, fun c hc r hr => (hq r hr).child (hparent c hc)⟩
  refine List.Pairwise.imp_of_mem ?_ hnodup
  intro c d hc hd hne
  exact apart_siblings (hparent c hc) (hparent d hd) hne

end Forest

end Cpp
