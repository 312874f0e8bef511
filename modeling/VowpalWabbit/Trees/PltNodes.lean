import VowpalWabbit.Trees.PltExact
import VowpalWabbit.Framework.SingleDivision
import VowpalWabbit.Framework.Loops

/-! # The nodes that a label tree trains, in machine numbers

    `get_nodes_to_update` of `reductions/plt.cc` with the arithmetic of the code: the leaf of a
    label is a sum that wraps, the parent of a node is a quotient of floats rounded down, and the
    children are counted by a 32-bit number. A large label can so become an inner node, and in a
    tree of more than `2 ^ 24` nodes the parents can be wrong.

    Both the parents of the tree and the rounded ones make a forest, and the nodes that the code
    inserts are those above the leaves in the second one.
-/

open Cpp VW.Trees Nat

namespace VW.LabelTree.Machine

open List

variable {R : Type}

/-- `static_cast<uint32_t>(std::floor(static_cast<float>(tn - 1) / p.kary))`. -/
def parent (kary tn : Nat) : Nat := Single.quotient (tn - 1) kary

/-- The loop to the root. -/
def climb (kary : Nat) : Nat → Nat → Option (List Nat)
  | 0, tn => if 0 < tn then none else some []
  | fuel + 1, tn =>
    if 0 < tn then do
      let way ← climb kary fuel (parent kary tn)
      some (parent kary tn :: way)
    else some []

/-- The loop over the children of `n`, from the `i`-th on. -/
def visit_children (p : Plt R) (positive_nodes : List Nat) (n : Nat) : Nat → Nat → List Nat → Option (List Nat)
  | 0, _, _ => none
  | fuel + 1, i, nodes =>
    if i ≤ p.kary then
      let n_child := (p.kary * n + i) % 2 ^ 32
      visit_children p positive_nodes n fuel ((i + 1) % 2 ^ 32)
        (if n_child < p.t ∧ n_child ∉ positive_nodes then insert nodes n_child else nodes)
    else some nodes

/-- What a label adds to the positive nodes. -/
def insert_label (p : Plt R) (fuel : Nat) (nodes : List Nat) (label : Nat) : Option (List Nat) :=
  let tn := (label + p.ti) % 2 ^ 32
  if tn < p.t then do
    let way ← climb p.kary fuel tn
    some ((tn :: way).foldl insert nodes)
  else some nodes

/-- What a positive node adds to the negative nodes. -/
def insert_children (p : Plt R) (positive_nodes : List Nat) (fuel : Nat) (nodes : List Nat)
    (n : Nat) : Option (List Nat) :=
  if n < p.ti then visit_children p positive_nodes n fuel 1 nodes else some nodes

def get_nodes_to_update (p : Plt R) (order : SetOrder) (multilabels : List Nat) (fuel : Nat) :
    Option (List Nat × List Nat) :=
  if multilabels = [] then some ([], [0])
  else do
    let positive_nodes ← multilabels.foldlM (insert_label p fuel) []
    let negative_nodes ← (order.iterate positive_nodes).foldlM (insert_children p positive_nodes fuel) []
    some (order.iterate positive_nodes, order.iterate negative_nodes)

/-! ## What the nodes should be -/

/-- The leaf of a label, or above one. -/
def TruePositive (p : Plt R) (multilabels : List Nat) (n : Nat) : Prop :=
  ∃ l ∈ multilabels, l < p.k ∧ (forest p.kary).Above n (l + p.ti)

/-- The positive nodes are the leaves of the labels and the nodes above them, the negative ones
    their other children. -/
structure Exactly (p : Plt R) (multilabels : List Nat) (nodes : List Nat × List Nat) : Prop where
  positive : ∀ n, n ∈ nodes.1 ↔ TruePositive p multilabels n
  negative : ∀ n, n ∈ nodes.2 ↔ multilabels = [] ∧ n = 0 ∨
    ∃ m, m ∈ nodes.1 ∧ m < p.ti ∧ (∃ i, 1 ≤ i ∧ i ≤ p.kary ∧ n = p.kary * m + i) ∧ n < p.t ∧ n ∉ nodes.1
  disjoint : ∀ n ∈ nodes.1, n ∉ nodes.2
  below : ∀ n, n ∈ nodes.1 ∨ n ∈ nodes.2 → n < p.t

/-- The set-up gives a tree for which the nodes are right, in whatever order sets are read. -/
def UpdatesExactly (k kary top_k : Nat) (threshold : R) (probabilities : Bool) (multilabels : List Nat) : Prop :=
  ∃ p, plt_setup k kary top_k threshold probabilities = some p ∧
    ∀ order, ∃ nodes, Ends (get_nodes_to_update p order multilabels) nodes ∧ Exactly p multilabels nodes

/-! ## The loops -/

/-- The rounded parents are smaller, so that they make a forest. -/
theorem parent_lt {kary n : Nat} (hkary : 2 ≤ kary) (hfits : kary < 2 ^ 32) (hn : 0 < n) (hlt : n < 2 ^ 32) :
    parent kary n < n := by
  have hle := Single.quotient_le (show n - 1 < 2 ^ 32 by omega) hfits hkary
  unfold parent
  omega

/-- The nodes by their rounded parents. -/
def rounded (kary : Nat) (hkary : 2 ≤ kary) (hfits : kary < 2 ^ 32) : Forest Nat where
  parent n := if 0 < n ∧ n < 2 ^ 32 then some (parent kary n) else none
  rank n := n
  rank_lt {x y} h := by
    by_cases hy : 0 < y ∧ y < 2 ^ 32
    · rw [if_pos hy] at h
      rw [← Option.some.inj h]
      exact parent_lt hkary hfits hy.1 hy.2
    · rw [if_neg hy] at h
      cases h

section Loops

variable {kary : Nat} {hkary : 2 ≤ kary} {hfits : kary < 2 ^ 32}

theorem rounded_parent_eq {n : Nat} (hn : 0 < n) (hlt : n < 2 ^ 32) :
    (rounded kary hkary hfits).parent n = some (parent kary n) := if_pos ⟨hn, hlt⟩

theorem rounded_parent_iff {n m : Nat} :
    (rounded kary hkary hfits).parent n = some m ↔ (0 < n ∧ n < 2 ^ 32) ∧ parent kary n = m := by
  show (if 0 < n ∧ n < 2 ^ 32 then some (parent kary n) else none) = some m ↔ _
  by_cases h : 0 < n ∧ n < 2 ^ 32
  · simp [h]
  · simp

/-- The loop to the root ends, and its nodes are those above the first one. -/
theorem climb_run (n : Nat) (hlt : n < 2 ^ 32) : ∃ way, (∀ fuel ≥ n, climb kary fuel n = some way) ∧
    ∀ m, m ∈ n :: way ↔ (rounded kary hkary hfits).Above m n := by
  induction n using Nat.strong_induction_on with
  | _ n ih =>
    rcases Nat.eq_zero_or_pos n with hzero | hpos
    · refine ⟨[], fun fuel _ => ?_, fun m => ?_⟩
      · cases fuel <;> simp [climb, hzero]
      · rw [mem_singleton, hzero]
        constructor
        · rintro rfl
          exact Forest.Above.refl 0
        · intro habove
          have hle : m ≤ 0 := habove.rank_le
          omega
    · have hparent := parent_lt hkary hfits hpos hlt
      obtain ⟨way, hway, hmem⟩ := ih (parent kary n) hparent (by omega)
      refine ⟨parent kary n :: way, fun fuel hfuel => ?_, fun m => ?_⟩
      · obtain ⟨fuel, rfl⟩ : ∃ f, fuel = f + 1 := ⟨fuel - 1, by omega⟩
        simp only [climb, if_pos hpos, hway fuel (by omega)]
        rfl
      · have hup := @rounded_parent_eq kary hkary hfits n hpos hlt
        rw [mem_cons, hmem]
        constructor
        · rintro (rfl | habove)
          · exact Forest.Above.refl m
          · exact habove.trans (Forest.above_parent hup)
        · intro habove
          exact habove.eq_or_parent hup

/-- A loop whose rounds end and insert the nodes of `Q`. -/
theorem ends_inserts {A : Type} {run : Nat → List Nat → A → Option (List Nat)} {Q : A → Nat → Prop} {l : List A}
    (h : ∀ nodes, ∀ a ∈ l, ∃ nodes', Ends (fun fuel => run fuel nodes a) nodes' ∧ ∀ m, m ∈ nodes' ↔
      m ∈ nodes ∨ Q a m)
    (nodes : List Nat) : ∃ nodes', Ends (fun fuel => l.foldlM (run fuel) nodes) nodes' ∧
      ∀ m, m ∈ nodes' ↔ m ∈ nodes ∨ ∃ a ∈ l, Q a m := by
  induction l generalizing nodes with
  | nil => exact ⟨nodes, Ends.pure nodes, fun m => by simp⟩
  | cons a l ih =>
    obtain ⟨mid, hmid, hadds⟩ := h nodes a mem_cons_self
    obtain ⟨out, hout, hrest⟩ := ih (fun nodes b hb => h nodes b (mem_cons_of_mem a hb)) mid
    refine ⟨out, ?_, fun m => ?_⟩
    · simp only [foldlM_cons]
      exact hmid.bind hout
    · rw [hrest, hadds]
      simp [or_assoc]

end Loops

section Insertions

variable {p : Plt R}

theorem insert_label_run (hkary : 2 ≤ p.kary) (hfits : p.kary < 2 ^ 32) (nodes : List Nat) (label : Nat) :
    ∃ nodes', Ends (fun fuel => insert_label p fuel nodes label) nodes' ∧ ∀ m, m ∈ nodes' ↔ m ∈ nodes ∨
      (label + p.ti) % 2 ^ 32 < p.t ∧ (rounded p.kary hkary hfits).Above m ((label + p.ti) % 2 ^ 32) := by
  unfold insert_label
  by_cases hlt : (label + p.ti) % 2 ^ 32 < p.t
  · obtain ⟨way, hway, hmem⟩ := @climb_run p.kary hkary hfits ((label + p.ti) % 2 ^ 32) (mod_lt _ (by decide))
    refine ⟨((label + p.ti) % 2 ^ 32 :: way).foldl insert nodes, ⟨(label + p.ti) % 2 ^ 32, fun fuel hfuel => ?_⟩,
      fun m => ?_⟩
    · simp only [if_pos hlt, hway fuel hfuel]
      rfl
    · rw [mem_foldl_insert, hmem, and_iff_right hlt]
  · refine ⟨nodes, ⟨0, fun fuel _ => ?_⟩, fun m => ?_⟩
    · simp only [if_neg hlt]
    · exact ⟨.inl, fun h => h.elim id fun h => absurd h.1 hlt⟩

/-- The loop over the children ends, unless `kary` is the largest number. -/
theorem visit_children_run (hlast : p.kary < 2 ^ 32 - 1) (positive_nodes : List Nat) (n : Nat) (rounds i : Nat)
    (hi : i + rounds = p.kary + 1) (nodes : List Nat) : ∃ nodes',
      (∀ fuel > rounds, visit_children p positive_nodes n fuel i nodes = some nodes') ∧
      ∀ m, m ∈ nodes' ↔ m ∈ nodes ∨ (∃ j, i ≤ j ∧ j ≤ p.kary ∧ m = (p.kary * n + j) % 2 ^ 32) ∧
        m < p.t ∧ m ∉ positive_nodes := by
  induction rounds generalizing i nodes with
  | zero =>
    refine ⟨nodes, fun fuel hfuel => ?_, fun m => ?_⟩
    · obtain ⟨fuel, rfl⟩ : ∃ f, fuel = f + 1 := ⟨fuel - 1, by omega⟩
      rw [visit_children, if_neg (by omega)]
    · constructor
      · exact .inl
      · rintro (h | ⟨⟨j, hij, hj, -⟩, -⟩)
        · exact h
        · omega
  | succ rounds ih =>
    obtain ⟨nodes', hrun, hmem⟩ := ih (i + 1) (by omega)
      (if (p.kary * n + i) % 2 ^ 32 < p.t ∧ (p.kary * n + i) % 2 ^ 32 ∉ positive_nodes
        then insert nodes ((p.kary * n + i) % 2 ^ 32) else nodes)
    refine ⟨nodes', fun fuel hfuel => ?_, fun m => ?_⟩
    · obtain ⟨fuel, rfl⟩ : ∃ f, fuel = f + 1 := ⟨fuel - 1, by omega⟩
      rw [visit_children, if_pos (by omega), mod_eq_of_lt (show i + 1 < 2 ^ 32 by omega)]
      exact hrun fuel (by omega)
    · -- the first of the children, or one after it
      have hsplit : (∃ j, i ≤ j ∧ j ≤ p.kary ∧ m = (p.kary * n + j) % 2 ^ 32) ↔
          m = (p.kary * n + i) % 2 ^ 32 ∨ ∃ j, i + 1 ≤ j ∧ j ≤ p.kary ∧ m = (p.kary * n + j) % 2 ^ 32 := by
        constructor
        · intro ⟨j, hij, hj, hm⟩
          rcases eq_or_lt_of_le hij with rfl | hlt
          · exact .inl hm
          · exact .inr ⟨j, hlt, hj, hm⟩
        · rintro (hm | ⟨j, hij, hj, hm⟩)
          · exact ⟨i, le_refl _, by omega, hm⟩
          · exact ⟨j, by omega, hj, hm⟩
      rw [hmem, hsplit]
      by_cases hnew : (p.kary * n + i) % 2 ^ 32 < p.t ∧ (p.kary * n + i) % 2 ^ 32 ∉ positive_nodes
      · rw [if_pos hnew, mem_insert]
        constructor
        · rintro ((h | rfl) | h)
          · exact .inl h
          · exact .inr ⟨.inl rfl, hnew⟩
          · exact .inr ⟨.inr h.1, h.2⟩
        · rintro (h | ⟨rfl | h, hin⟩)
          · exact .inl (.inl h)
          · exact .inl (.inr rfl)
          · exact .inr ⟨h, hin⟩
      · rw [if_neg hnew]
        constructor
        · rintro (h | h)
          · exact .inl h
          · exact .inr ⟨.inr h.1, h.2⟩
        · rintro (h | ⟨rfl | h, hin⟩)
          · exact .inl h
          · exact absurd hin hnew
          · exact .inr ⟨h, hin⟩

/-- With the largest `kary` the counter wraps before it is past the last child. -/
theorem visit_children_endless (hlast : p.kary = 2 ^ 32 - 1) (positive_nodes : List Nat)
    (n fuel i : Nat) (hi : i < 2 ^ 32)
    (nodes : List Nat) : visit_children p positive_nodes n fuel i nodes = none := by
  induction fuel generalizing i nodes with
  | zero => rfl
  | succ fuel ih =>
    rw [visit_children, if_pos (by omega)]
    exact ih _ (mod_lt _ (by decide)) _

theorem insert_children_run (hlast : p.kary < 2 ^ 32 - 1) (positive_nodes nodes : List Nat) (n : Nat) :
    ∃ nodes', Ends (fun fuel => insert_children p positive_nodes fuel nodes n) nodes' ∧ ∀ m, m ∈ nodes' ↔ m ∈ nodes ∨
      n < p.ti ∧ (∃ j, 1 ≤ j ∧ j ≤ p.kary ∧ m = (p.kary * n + j) % 2 ^ 32) ∧ m < p.t ∧ m ∉ positive_nodes := by
  unfold insert_children
  by_cases hinner : n < p.ti
  · obtain ⟨nodes', hrun, hmem⟩ := visit_children_run hlast positive_nodes n p.kary 1 (add_comm 1 _) nodes
    refine ⟨nodes', ⟨p.kary + 1, fun fuel hfuel => ?_⟩, fun m => ?_⟩
    · simp only [if_pos hinner]
      exact hrun fuel hfuel
    · rw [hmem, and_iff_right hinner]
  · refine ⟨nodes, ⟨0, fun fuel _ => ?_⟩, fun m => ?_⟩
    · simp only [if_neg hinner]
    · exact ⟨.inl, fun h => h.elim id fun h => absurd h.1 hinner⟩

/-- The nodes that the code begins with: the sums that are nodes of the tree. -/
def Start (p : Plt R) (multilabels : List Nat) (n : Nat) : Prop :=
  ∃ l ∈ multilabels, (l + p.ti) % 2 ^ 32 = n ∧ n < p.t

/-- What the code inserts into the positive nodes. -/
def Inserted (hkary : 2 ≤ p.kary) (hfits : p.kary < 2 ^ 32) (multilabels : List Nat) (n : Nat) : Prop :=
  ∃ tn, Start p multilabels tn ∧ (rounded p.kary hkary hfits).Above n tn

theorem positive_nodes_run (hkary : 2 ≤ p.kary) (hfits : p.kary < 2 ^ 32) (multilabels : List Nat) :
    ∃ positive_nodes, Ends (fun fuel => multilabels.foldlM (insert_label p fuel) []) positive_nodes ∧
      ∀ n, n ∈ positive_nodes ↔ Inserted hkary hfits multilabels n := by
  obtain ⟨positive_nodes, hends, hmem⟩ :=
    ends_inserts (fun nodes l _ => insert_label_run hkary hfits nodes l) (l := multilabels) []
  refine ⟨positive_nodes, hends, fun n => ?_⟩
  rw [hmem]
  constructor
  · rintro (h | ⟨l, hl, hlt, habove⟩)
    · exact absurd h not_mem_nil
    · exact ⟨_, ⟨l, hl, rfl, hlt⟩, habove⟩
  · rintro ⟨tn, ⟨l, hl, rfl, hlt⟩, habove⟩
    exact .inr ⟨l, hl, hlt, habove⟩

/-- A run on labels, while the counter of the children does not wrap. -/
theorem get_nodes_to_update_run (hkary : 2 ≤ p.kary) (hfits : p.kary < 2 ^ 32)
    (hlast : p.kary < 2 ^ 32 - 1) {multilabels : List Nat}
    (hlabels : multilabels ≠ []) (order : SetOrder) :
    ∃ nodes, Ends (get_nodes_to_update p order multilabels) nodes ∧
      (∀ n, n ∈ nodes.1 ↔ Inserted hkary hfits multilabels n) ∧
      ∀ n, n ∈ nodes.2 ↔ ∃ m, m ∈ nodes.1 ∧ m < p.ti ∧ (∃ j, 1 ≤ j ∧ j ≤ p.kary ∧ n = (p.kary * m + j) % 2 ^ 32) ∧
        n < p.t ∧ n ∉ nodes.1 := by
  obtain ⟨positive_nodes, hpositive, hmem⟩ := positive_nodes_run hkary hfits multilabels
  obtain ⟨negative_nodes, hnegative, hmem'⟩ :=
    ends_inserts (fun nodes n _ => insert_children_run hlast positive_nodes nodes n)
      (l := order.iterate positive_nodes) []
  have hperm : ∀ n, n ∈ order.iterate positive_nodes ↔ n ∈ positive_nodes := fun n => (order.perm _).mem_iff
  refine ⟨(order.iterate positive_nodes, order.iterate negative_nodes), ?_, fun n => ?_, fun n => ?_⟩
  · unfold get_nodes_to_update
    simp only [if_neg hlabels]
    exact hpositive.bind (hnegative.bind (Ends.pure _))
  · rw [hperm, hmem]
  · rw [(order.perm _).mem_iff, hmem']
    simp [hperm]

end Insertions

/-! ## When the nodes are right -/

/-- The rounded parents stay among the true positive nodes and reach the inner ones, and no label
    wraps to another node. -/
structure RoundsInside (p : Plt R) (multilabels : List Nat) : Prop where
  wrapped : ∀ l ∈ multilabels, 2 ^ 32 ≤ l + p.ti → TruePositive p multilabels (l + p.ti - 2 ^ 32)
  closed : ∀ n, TruePositive p multilabels n → 0 < n → TruePositive p multilabels (parent p.kary n)
  reached : ∀ n, TruePositive p multilabels n → n < p.ti →
    (∃ l ∈ multilabels, l + p.ti = 2 ^ 32 + n) ∨ ∃ c, TruePositive p multilabels c ∧ 0 < c ∧ parent p.kary c = n

section Tree

variable {p : Plt R} {multilabels : List Nat}

theorem TruePositive.lt (h : Sized p.k p.kary p.t p.ti) {n : Nat} (hn : TruePositive p multilabels n) : n < p.t := by
  obtain ⟨l, -, hl, habove⟩ := hn
  have hle : n ≤ l + p.ti := habove.rank_le
  have hnodes := h.nodes
  omega

theorem TruePositive.root {n : Nat} (hn : TruePositive p multilabels n) : TruePositive p multilabels 0 := by
  obtain ⟨l, hmem, hl, -⟩ := hn
  exact ⟨l, hmem, hl, above_root _⟩

/-- No label is below the inner nodes. -/
theorem leaf_le (h : Sized p.k p.kary p.t p.ti) (hkary : 2 ≤ p.kary) {l : Nat} (hl : l < p.k) :
    l + p.ti ≤ p.kary * p.ti := by
  have henough := h.enough
  rw [Sized.mul_inner_eq hkary]
  omega

theorem start_iff (h : Sized p.k p.kary p.t p.ti) (hsize : p.t < 2 ^ 32) (hlabels : ∀ l ∈ multilabels, l < 2 ^ 32)
    (n : Nat) : Start p multilabels n ↔
      (∃ l ∈ multilabels, l < p.k ∧ n = l + p.ti) ∨ ∃ l ∈ multilabels, l + p.ti = 2 ^ 32 + n := by
  have hnodes := h.nodes
  constructor
  · intro ⟨l, hmem, hmod, hlt⟩
    have hl := hlabels l hmem
    rcases lt_or_ge (l + p.ti) (2 ^ 32) with hsmall | hlarge
    · rw [mod_eq_of_lt hsmall] at hmod
      exact .inl ⟨l, hmem, by omega, hmod.symm⟩
    · exact .inr ⟨l, hmem, by omega⟩
  · rintro (⟨l, hmem, hl, rfl⟩ | ⟨l, hmem, hwrap⟩)
    · exact ⟨l, hmem, mod_eq_of_lt (by omega), by omega⟩
    · have hl := hlabels l hmem
      exact ⟨l, hmem, by omega, by omega⟩

theorem roundsInside_iff (h : Sized p.k p.kary p.t p.ti) (hkary : 2 ≤ p.kary) (hfits : p.kary < 2 ^ 32)
    (hsize : p.t < 2 ^ 32) (hlabels : ∀ l ∈ multilabels, l < 2 ^ 32) :
    RoundsInside p multilabels ↔ ∀ n, Inserted hkary hfits multilabels n ↔ TruePositive p multilabels n := by
  have hbound : ∀ n, TruePositive p multilabels n → (rounded p.kary hkary hfits).rank n ≤ p.t :=
    fun n hn => (hn.lt h).le
  have hleaf : ∀ l ∈ multilabels, l < p.k → TruePositive p multilabels (l + p.ti) :=
    fun l hmem hl => ⟨l, hmem, hl, Forest.Above.refl _⟩
  have hclosure := (rounded p.kary hkary hfits).above_closure_iff (Y := Start p multilabels) hbound
  refine Iff.trans ?_ hclosure.symm
  constructor
  · intro hinside
    refine ⟨fun n hn => ?_, fun n m hn hparent => ?_, fun n hn => ?_⟩
    · rcases (start_iff h hsize hlabels n).mp hn with ⟨l, hmem, hl, rfl⟩ | ⟨l, hmem, hwrap⟩
      · exact hleaf l hmem hl
      · have hin := hinside.wrapped l hmem (by omega)
        rwa [hwrap, Nat.add_sub_cancel_left] at hin
    · obtain ⟨⟨hpos, -⟩, rfl⟩ := rounded_parent_iff.mp hparent
      exact hinside.closed n hn hpos
    · rw [start_iff h hsize hlabels]
      rcases lt_or_ge n p.ti with hinner | hout
      · rcases hinside.reached n hn hinner with hwrap | ⟨c, hc, hpos, hparent⟩
        · exact .inl (.inr hwrap)
        · have hlt := hc.lt h
          exact .inr ⟨c, hc, rounded_parent_iff.mpr ⟨⟨hpos, by omega⟩, hparent⟩⟩
      · -- a leaf is only above itself
        obtain ⟨l, hmem, hl, habove⟩ := hn
        exact .inl (.inl ⟨l, hmem, hl, eq_of_leaf habove hout (leaf_le h hkary hl)⟩)
  · intro ⟨hstart, hup, hreached⟩
    constructor
    · intro l hmem hwrap
      exact hstart _ ((start_iff h hsize hlabels _).mpr (.inr ⟨l, hmem, by omega⟩))
    · intro n hn hpos
      have hlt := hn.lt h
      exact hup n _ hn (rounded_parent_eq hpos (by omega))
    · intro n hn hinner
      rcases hreached n hn with hs | ⟨c, hc, hparent⟩
      · rcases (start_iff h hsize hlabels n).mp hs with ⟨l, -, -, rfl⟩ | hwrap
        · omega
        · exact .inl hwrap
      · obtain ⟨⟨hpos, -⟩, hparent⟩ := rounded_parent_iff.mp hparent
        exact .inr ⟨c, hc, hpos, hparent⟩

/-- The children that wrap are children of the root. -/
theorem wrapped_child_iff (h : Sized p.k p.kary p.t p.ti) (hk : 2 ≤ p.k) (hkary : 2 ≤ p.kary)
    (hsize : p.t < 2 ^ 32) {S : Nat → Prop}
    (hroot : ∀ n, S n → S 0) (n : Nat) :
    (∃ m, S m ∧ m < p.ti ∧ (∃ j, 1 ≤ j ∧ j ≤ p.kary ∧ n = (p.kary * m + j) % 2 ^ 32) ∧ n < p.t ∧ ¬ S n) ↔
      ∃ m, S m ∧ m < p.ti ∧ (∃ j, 1 ≤ j ∧ j ≤ p.kary ∧ n = p.kary * m + j) ∧ n < p.t ∧ ¬ S n := by
  constructor
  · intro ⟨m, hm, hinner, ⟨j, hj, hle, hn⟩, hlt, hnot⟩
    rcases lt_or_ge (p.kary * m + j) (2 ^ 32) with hsmall | hlarge
    · rw [mod_eq_of_lt hsmall] at hn
      exact ⟨m, hm, hinner, ⟨j, hj, hle, hn⟩, hlt, hnot⟩
    · have hlast : p.kary * m + p.kary ≤ p.kary * p.ti := by
        calc p.kary * m + p.kary = p.kary * (m + 1) := (mul_succ _ _).symm
          _ ≤ p.kary * p.ti := mul_le_mul_left _ hinner
      have hleast := h.least
      have hnodes := h.nodes
      rw [@Sized.mul_inner_eq p.kary p.ti hkary] at hlast
      have hpos : n ≠ 0 := by
        rintro rfl
        exact hnot (hroot m hm)
      refine ⟨0, hroot m hm, h.inner_pos hk, ⟨n, by omega, by omega, by omega⟩, hlt, hnot⟩
  · intro ⟨m, hm, hinner, ⟨j, hj, hle, hn⟩, hlt, hnot⟩
    exact ⟨m, hm, hinner, ⟨j, hj, hle, by rw [← hn, mod_eq_of_lt (by omega)]⟩, hlt, hnot⟩

/-- With the largest `kary` the loop over the children of the root does not end. -/
theorem get_nodes_to_update_endless (hlast : p.kary = 2 ^ 32 - 1) (hti : 0 < p.ti) (order : SetOrder)
    {positive_nodes : List Nat}
    (hpositive : Ends (fun fuel => multilabels.foldlM (insert_label p fuel) []) positive_nodes)
    (hroot : 0 ∈ positive_nodes) (hlabels : multilabels ≠ []) (nodes : List Nat × List Nat) :
    ¬ Ends (get_nodes_to_update p order multilabels) nodes := by
  intro ⟨m, hm⟩
  obtain ⟨m', hm'⟩ := hpositive
  have hrun := hm (max m m') (by omega)
  have hfirst : multilabels.foldlM (insert_label p (max m m')) [] = some positive_nodes := hm' _ (by omega)
  unfold get_nodes_to_update at hrun
  rw [if_neg hlabels, hfirst] at hrun
  have hnone : ∀ (l nodes : List Nat), 0 ∈ l →
    l.foldlM (insert_children p positive_nodes (max m m')) nodes = none := by
    intro l
    induction l with
    | nil => simp
    | cons n l ih =>
      intro nodes hmem
      rw [foldlM_cons]
      unfold insert_children
      split
      · rw [visit_children_endless hlast positive_nodes n _ 1 (by decide)]
        rfl
      · next hout =>
        have hne : n ≠ 0 := by omega
        exact ih nodes ((mem_cons.mp hmem).resolve_left (Ne.symm hne))
  rw [Option.bind_eq_bind, Option.bind_some, hnone _ _ ((order.perm _).mem_iff.mpr hroot)] at hrun
  cases hrun

/-- Every number is below the root, also by the rounded parents. -/
theorem rounded_above_root (hkary : 2 ≤ p.kary) (hfits : p.kary < 2 ^ 32) (n : Nat) (hn : n < 2 ^ 32) :
    (rounded p.kary hkary hfits).Above 0 n := by
  induction n using Nat.strong_induction_on with
  | _ n ih =>
    rcases Nat.eq_zero_or_pos n with rfl | hpos
    · exact Forest.Above.refl 0
    · have hlt := parent_lt hkary hfits hpos hn
      exact (ih _ hlt (by omega)).trans (Forest.above_parent (rounded_parent_eq hpos hn))

/-- When the code inserts no positive node it ends, with no nodes at all. -/
theorem get_nodes_to_update_none (hkary : 2 ≤ p.kary) (hfits : p.kary < 2 ^ 32) (hlabels : multilabels ≠ [])
    (hnone : ∀ n, ¬ Inserted hkary hfits multilabels n) (order : SetOrder) :
    Ends (get_nodes_to_update p order multilabels) ([], []) := by
  obtain ⟨positive_nodes, hends, hmem⟩ := positive_nodes_run hkary hfits multilabels
  have hnil : positive_nodes = [] := eq_nil_iff_forall_not_mem.mpr fun n hn => hnone n ((hmem n).mp hn)
  have hiterate : order.iterate [] = [] := (order.perm []).eq_nil
  rw [hnil] at hends
  unfold get_nodes_to_update
  simp only [if_neg hlabels]
  refine hends.bind ?_
  simp only [hiterate, foldlM_nil]
  exact ⟨0, fun fuel _ => by simp [hiterate]⟩

/-- Nodes that are as the code inserts them are right if these are the true ones. -/
theorem exactly_of_run (h : Sized p.k p.kary p.t p.ti) (hk : 2 ≤ p.k) (hkary : 2 ≤ p.kary) (hsize : p.t < 2 ^ 32)
    (hlabels : multilabels ≠ []) {nodes : List Nat × List Nat}
    (hpositive : ∀ n, n ∈ nodes.1 ↔ TruePositive p multilabels n)
    (hnegative : ∀ n, n ∈ nodes.2 ↔ ∃ m, m ∈ nodes.1 ∧ m < p.ti ∧
      (∃ j, 1 ≤ j ∧ j ≤ p.kary ∧ n = (p.kary * m + j) % 2 ^ 32) ∧ n < p.t ∧ n ∉ nodes.1) :
    Exactly p multilabels nodes := by
  have hroot : ∀ n, n ∈ nodes.1 → 0 ∈ nodes.1 := fun n hn => (hpositive 0).mpr ((hpositive n).mp hn).root
  constructor
  · exact hpositive
  · intro n
    rw [hnegative, wrapped_child_iff h hk hkary hsize hroot]
    exact ⟨.inr, fun hor => hor.resolve_left fun hnil => hlabels hnil.1⟩
  · intro n hin hnot
    obtain ⟨m, -, -, -, -, hout⟩ := (hnegative n).mp hnot
    exact hout hin
  · rintro n (hn | hn)
    · exact ((hpositive n).mp hn).lt h
    · obtain ⟨m, -, -, -, hlt, -⟩ := (hnegative n).mp hn
      exact hlt

/-- Without labels the root is the only node. -/
theorem exactly_nil (ht : 0 < p.t) : Exactly p [] ([], [0]) := by
  constructor
  · intro n
    simp [TruePositive]
  · intro n
    simp
  · simp
  · simpa using ht

theorem exactly_iff (h : Sized p.k p.kary p.t p.ti) (hk : 2 ≤ p.k) (hkary : 2 ≤ p.kary) (hfits : p.kary < 2 ^ 32)
    (hsize : p.t < 2 ^ 32) (hsmall : ∀ l ∈ multilabels, l < 2 ^ 32) :
    (∀ order, ∃ nodes, Ends (get_nodes_to_update p order multilabels) nodes ∧ Exactly p multilabels nodes) ↔
      (p.kary < 2 ^ 32 - 1 ∨ ∀ l ∈ multilabels, p.k ≤ l) ∧ RoundsInside p multilabels := by
  have hnodes := h.nodes
  have hti := h.inner_pos hk
  by_cases hlabels : multilabels = []
  · subst hlabels
    refine ⟨fun _ => ⟨.inr (by simp), ⟨by simp, ?_, ?_⟩⟩, fun _ order => ⟨_, Ends.pure _, exactly_nil (by omega)⟩⟩
    · simp [TruePositive]
    · simp [TruePositive]
  rw [roundsInside_iff h hkary hfits hsize hsmall]
  rcases lt_or_ge p.kary (2 ^ 32 - 1) with hcounts | hwraps
  · constructor
    · intro hall
      refine ⟨.inl hcounts, fun n => ?_⟩
      obtain ⟨nodes, hends, hexact⟩ := hall ⟨id, List.Perm.refl⟩
      obtain ⟨nodes', hends', hpositive, -⟩ :=
        get_nodes_to_update_run hkary hfits hcounts hlabels ⟨id, List.Perm.refl⟩
      obtain rfl := hends.unique hends'
      rw [← hpositive, hexact.positive]
    · intro ⟨_, hinserted⟩ order
      obtain ⟨nodes, hends, hpositive, hnegative⟩ := get_nodes_to_update_run hkary hfits hcounts hlabels order
      exact ⟨nodes, hends,
        exactly_of_run h hk hkary hsize hlabels
        (fun n => (hpositive n).trans (hinserted n)) hnegative⟩
  · have hlast : p.kary = 2 ^ 32 - 1 := by omega
    constructor
    · intro hall
      obtain ⟨nodes, hends, hexact⟩ := hall ⟨id, List.Perm.refl⟩
      obtain ⟨positive_nodes, hpositive, hmem⟩ := positive_nodes_run hkary hfits multilabels
      -- the call ends, so that the root is not inserted, and then nothing is
      have hnone : ∀ n, ¬ Start p multilabels n := by
        intro n hn
        have hlt : n < p.t := hn.choose_spec.2.2
        have hroot : 0 ∈ positive_nodes := (hmem 0).mpr ⟨n, hn, rounded_above_root hkary hfits n (by omega)⟩
        exact get_nodes_to_update_endless hlast hti _ hpositive hroot hlabels nodes hends
      have hlarge : ∀ l ∈ multilabels, p.k ≤ l := by
        intro l hl
        by_contra hlt
        exact hnone (l + p.ti) ((start_iff h hsize hsmall _).mpr (.inl ⟨l, hl, by omega, rfl⟩))
      refine ⟨.inr hlarge, fun n => ⟨?_, ?_⟩⟩
      · intro ⟨tn, hstart, _⟩
        exact absurd hstart (hnone tn)
      · intro ⟨l, hl, hlt, _⟩
        exact absurd (hlarge l hl) (Nat.not_le.mpr hlt)
    · intro ⟨hor, hinserted⟩ order
      have hlarge := hor.resolve_left (Nat.not_lt.mpr hwraps)
      have hnone : ∀ n, ¬ TruePositive p multilabels n :=
        fun n hn => by
          obtain ⟨l, hl, hlt, -⟩ := hn
          exact absurd (hlarge l hl) (Nat.not_le.mpr hlt)
      refine ⟨_, get_nodes_to_update_none hkary hfits hlabels (fun n hn => hnone n ((hinserted n).mp hn)) order, ?_⟩
      refine exactly_of_run h hk hkary hsize hlabels (fun n => ?_) (fun n => ?_)
      · simp [hnone n]
      · simp

/-- Above that a parent can be its neighbour. -/
example : parent 2 (2 ^ 24 + 4) = 2 ^ 23 + 2 ∧ (2 ^ 24 + 4 - 1) / 2 = 2 ^ 23 + 1 := by decide +kernel

end Tree

end VW.LabelTree.Machine
