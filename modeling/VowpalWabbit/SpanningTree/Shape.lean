import VowpalWabbit.SpanningTree.Tree
import VowpalWabbit.Framework.InorderTrees

/-! # The shape of the tree of a cluster

    The nodes of the tree are numbered in order, and it is as low as a binary tree can be. The
    numbers of nodes are of type `int`, which limits how many there are.
-/

open Cpp Inorder Nat

namespace VW.SpanningTree

open List Outcome

/-! ## The tree of a range -/

/-- The entry of `parent`. -/
def entry (parent : List Int) (i j : Nat) : Prop := parent[i]? = some (j : Int)

/-- The entry of `kid_count`. -/
def kid (kid_count : List (BitVec 16)) (i n : Nat) : Prop := kid_count[i]? = some (BitVec.ofNat 16 n)

/-- The entries of a range become a tree in order, and no other entries change. -/
structure Spanned (parent : List Int) (kid_count : List (BitVec 16)) (source_count offset : Nat)
    (r : Nat × List Int × List (BitVec 16)) : Prop where
  length : r.2.1.length = parent.length
  length_kid_count : r.2.2.length = kid_count.length
  outside : ∀ i, i < offset ∨ offset + source_count ≤ i → r.2.1[i]? = parent[i]? ∧ r.2.2[i]? = kid_count[i]?
  root_entry : r.2.1[r.1]? = parent[r.1]?
  spans : ∃ depth ≤ Nat.log 2 source_count,
    Spans (entry r.2.1) (kid r.2.2) offset (offset + source_count) r.1 depth

/-- A tree in order is built of any number of nodes; `low` bounds its depth if it does so for the two parts. -/
theorem build_tree_in_order (floor_log2 : FloorLog2) {low : Nat → Nat}
    (hlow : ∀ n m, 2 ≤ n → m + 1 = 2 ^ floor_log2.height n ∨ m = n - 2 ^ floor_log2.height n → low m + 1 ≤ low n)
    (sources : Nat) : ∀ {parent : List Int} {kid_count : List (BitVec 16)} {offset : Nat}, 0 < sources →
      offset + sources ≤ parent.length → offset + sources ≤ kid_count.length →
      (build_tree floor_log2 parent kid_count sources offset).Returns fun r =>
        r.2.1.length = parent.length ∧ r.2.2.length = kid_count.length ∧
        (∀ i, i < offset ∨ offset + sources ≤ i → r.2.1[i]? = parent[i]? ∧ r.2.2[i]? = kid_count[i]?) ∧
        r.2.1[r.1]? = parent[r.1]? ∧
        ∃ depth ≤ low sources, Spans (entry r.2.1) (kid r.2.2) offset (offset + sources) r.1 depth := by
  induction sources using Nat.strong_induction_on with
  | _ sources ih =>
    intro parent kid_count offset hpos hparent hkid
    rw [build_tree, if_neg (ne_of_gt hpos)]
    by_cases hone : sources = 1
    · subst hone
      rw [if_pos rfl, update_nth_of_lt (by omega)]
      refine ⟨_, rfl, rfl, length_set, fun i hi => ⟨rfl, ?_⟩, rfl, 0, zero_le _, .leaf ?_⟩
      · exact getElem?_set_ne (by omega)
      · exact getElem?_set_self (by omega)
    · rw [if_neg hone]
      have hheight := floor_log2.pos sources (by omega)
      have hpow := floor_log2.pow_le sources (by omega)
      have htwo : 2 ^ 1 ≤ 2 ^ floor_log2.height sources := Nat.pow_le_pow_right (by decide) hheight
      have hlow_count := fun m => hlow sources m (by omega)
      dsimp only
      generalize hroot : 2 ^ floor_log2.height sources - 1 = left_count
      -- the left part
      obtain ⟨⟨left_child, parent₁, kid_count₁⟩, hleft, hspanned⟩ := ih left_count (by omega)
        (show 0 < left_count by omega) (show offset + left_count ≤ parent.length by omega)
        (show offset + left_count ≤ kid_count.length by omega)
      obtain ⟨hlength, hlength_kid, houtside, -, depth, hdepth, hspans⟩ := hspanned
      rw [add_comm offset left_count] at hspans
      have hchild := hspans.root_mem
      dsimp only at hlength hlength_kid houtside hchild
      rw [hleft, ok_bind]
      dsimp only
      rw [update_nth_of_lt (by omega), ok_bind]
      have hset : entry (parent₁.set left_child ((left_count + offset : Nat) : Int)) left_child
        (left_count + offset) :=
        getElem?_set_self (by omega)
      have hlow_left := hlow_count left_count (.inl (by omega))
      by_cases hright : 0 < sources - left_count - 1
      · rw [if_pos hright]
        -- the right part
        obtain ⟨⟨right_child, parent₂, kid_count₂⟩, hrun, hspanned'⟩ := ih (sources - left_count - 1)
          (by omega) hright
          (show left_count + offset + 1 + (sources - left_count - 1) ≤
            (parent₁.set left_child ((left_count + offset : Nat) : Int)).length by
              rw [length_set]
              omega)
          (show left_count + offset + 1 + (sources - left_count - 1) ≤ kid_count₁.length by omega)
        obtain ⟨hlength', hlength_kid', houtside', -, depth', hdepth', hspans'⟩ := hspanned'
        have hchild' := hspans'.root_mem
        have hlast : left_count + offset + 1 + (sources - left_count - 1) = offset + sources := by omega
        dsimp only at hlength' hlength_kid' houtside' hchild'
        rw [length_set] at hlength'
        rw [hrun, ok_bind]
        dsimp only
        rw [update_nth_of_lt (by omega), ok_bind, update_nth_of_lt (by omega), ok_bind]
        have hset' : entry (parent₂.set right_child ((left_count + offset : Nat) : Int)) right_child
            (left_count + offset) := getElem?_set_self (by omega)
        have hset_kid : kid (kid_count₂.set (left_count + offset) 2) (left_count + offset) 2 :=
          getElem?_set_self (by omega)
        refine ⟨_, rfl, ?_, ?_, fun i hi => ⟨?_, ?_⟩, ?_, max depth depth' + 1, ?_, ?_⟩
        · exact length_set.trans (hlength'.trans hlength)
        · exact length_set.trans (hlength_kid'.trans hlength_kid)
        · dsimp only
          rw [getElem?_set_ne (by omega), (houtside' i (by omega)).1, getElem?_set_ne (by omega),
            (houtside i (by omega)).1]
        · dsimp only
          rw [getElem?_set_ne (by omega), (houtside' i (by omega)).2, (houtside i (by omega)).2]
        · dsimp only
          rw [getElem?_set_ne (by omega), (houtside' _ (by omega)).1, getElem?_set_ne (by omega),
            (houtside _ (by omega)).1]
        · have hlow_right := hlow_count (sources - left_count - 1) (.inr (by omega))
          omega
        · dsimp only
          rw [hlast] at hspans'
          have hset_left : entry (parent₂.set right_child ((left_count + offset : Nat) : Int)) left_child
              (left_count + offset) := by
            show _ = _
            rw [getElem?_set_ne (by omega), (houtside' _ (by omega)).1]
            exact hset
          refine .both ?_ ?_ hset_left hset' hset_kid
          · refine hspans.mono (fun i j hi hi' hne hij => ?_) fun i n hi hi' hin => ?_
            · show _ = _
              rw [getElem?_set_ne (by omega), (houtside' i (by omega)).1, getElem?_set_ne (by omega)]
              exact hij
            · show _ = _
              rw [getElem?_set_ne (by omega), (houtside' i (by omega)).2]
              exact hin
          · refine hspans'.mono (fun i j hi hi' hne hij => ?_) fun i n hi hi' hin => ?_
            · show _ = _
              rw [getElem?_set_ne (by omega)]
              exact hij
            · show _ = _
              rw [getElem?_set_ne (by omega)]
              exact hin
      · rw [if_neg hright, update_nth_of_lt (by omega), ok_bind]
        have hset_kid : kid (kid_count₁.set (left_count + offset) 1) (left_count + offset) 1 :=
          getElem?_set_self (by omega)
        have hlast : offset + sources = left_count + offset + 1 := by omega
        refine ⟨_, rfl, ?_, ?_, fun i hi => ⟨?_, ?_⟩, ?_, depth + 1, by omega, ?_⟩
        · exact length_set.trans hlength
        · exact length_set.trans hlength_kid
        · dsimp only
          rw [getElem?_set_ne (by omega), (houtside i (by omega)).1]
        · dsimp only
          rw [getElem?_set_ne (by omega), (houtside i (by omega)).2]
        · dsimp only
          rw [getElem?_set_ne (by omega), (houtside _ (by omega)).1]
        · dsimp only
          rw [hlast]
          refine .left ?_ hset hset_kid
          refine hspans.mono (fun i j hi hi' hne hij => ?_) fun i n hi hi' hin => ?_
          · show _ = _
            rw [getElem?_set_ne (by omega)]
            exact hij
          · show _ = _
            rw [getElem?_set_ne (by omega)]
            exact hin

variable {parent : List Int} {kid_count : List (BitVec 16)} {offset : Nat}

theorem build_tree_spans (sources : Nat) (hpos : 0 < sources)
    (hparent : offset + sources ≤ parent.length) (hkid : offset + sources ≤ kid_count.length) :
    (build_tree .exact parent kid_count sources offset).Returns (Spanned parent kid_count sources offset) := by
  have hlog : ∀ n m, 2 ≤ n → m + 1 = 2 ^ Nat.log 2 n ∨ m = n - 2 ^ Nat.log 2 n → Nat.log 2 m + 1 ≤ Nat.log 2 n := by
    intro n m hn hm
    have hpow_lt := lt_pow_succ_log_self (b := 2) (by decide) n
    rw [pow_succ] at hpow_lt
    exact log_lt_of_lt_pow' (ne_of_gt (log_pos (by decide) hn)) (by omega)
  exact (build_tree_in_order .exact hlog sources hpos hparent hkid).mono
    fun r ⟨hlength, hlength_kid, houtside, hroot, hspans⟩ => ⟨hlength, hlength_kid, houtside, hroot, hspans⟩

/-! ## Numbers of type `int` -/

/-- A number that the code computes as an `int`. -/
def in_int (v : Nat) : Outcome Nat := if v < 2 ^ 31 then .ok v else Outcome.undefined

theorem in_int_eq_ok {v w : Nat} : in_int v = .ok w ↔ v < 2 ^ 31 ∧ v = w := by
  unfold in_int
  split
  · next h =>
    constructor
    · intro heq
      exact ⟨h, Except.ok.inj heq⟩
    · rintro ⟨-, rfl⟩
      rfl
  · next h =>
    constructor
    · intro heq
      cases heq
    · rintro ⟨hlt, -⟩
      exact absurd hlt h

theorem in_int_of_lt {v : Nat} (h : v < 2 ^ 31) : in_int v = .ok v := in_int_eq_ok.mpr ⟨h, rfl⟩

variable (floor_log2 : FloorLog2)

/-- `build_tree`, with the numbers of nodes of type `int`. -/
def build_tree_in_int (parent : List Int) (kid_count : List (BitVec 16)) (source_count offset : Nat) :
    Outcome (Nat × List Int × List (BitVec 16)) :=
  if source_count = 0 then undefined
  else if source_count = 1 then do
    let kid_count ← update_nth kid_count offset fun _ => 0
    return (offset, parent, kid_count)
  else do
    -- `1 << height`
    let _ ← in_int (2 ^ floor_log2.height source_count)
    let root := 2 ^ floor_log2.height source_count - 1
    let (left_child, parent, kid_count) ← build_tree_in_int parent kid_count root offset
    let _ ← in_int (root + offset)
    let oroot := root + offset
    let parent ← update_nth parent left_child fun _ => (oroot : Int)
    let right_count := source_count - root - 1
    if 0 < right_count then do
      let _ ← in_int (oroot + 1)
      let (right_child, parent, kid_count) ← build_tree_in_int parent kid_count right_count (oroot + 1)
      let parent ← update_nth parent right_child fun _ => (oroot : Int)
      let kid_count ← update_nth kid_count oroot fun _ => 2
      return (oroot, parent, kid_count)
    else do
      let kid_count ← update_nth kid_count oroot fun _ => 1
      return (oroot, parent, kid_count)
termination_by source_count
decreasing_by
  · have hle := floor_log2.pow_le source_count (by omega)
    omega
  · omega

/-- Where all numbers fit, the type makes no difference. -/
theorem build_tree_in_int_eq (sources : Nat) : ∀ {parent : List Int} {kid_count : List (BitVec 16)} {offset : Nat},
    sources < 2 ^ 31 → offset + sources ≤ 2 ^ 31 →
      build_tree_in_int floor_log2 parent kid_count sources offset =
        build_tree floor_log2 parent kid_count sources offset := by
  induction sources using Nat.strong_induction_on with
  | _ sources ih =>
    intro parent kid_count offset hcount hlast
    rw [build_tree_in_int, build_tree]
    by_cases hzero : sources = 0
    · rw [if_pos hzero, if_pos hzero]
    · rw [if_neg hzero, if_neg hzero]
      by_cases hone : sources = 1
      · rw [if_pos hone, if_pos hone]
      · have hpow := floor_log2.pow_le sources (by omega)
        rw [if_neg hone, if_neg hone, in_int_of_lt (by omega), ok_bind]
        dsimp only
        rw [ih _ (by omega) (by omega) (by omega), in_int_of_lt (by omega)]
        congr 1
        funext ⟨left_child, parent₁, kid_count₁⟩
        rw [ok_bind]
        congr 1
        funext parent₂
        split
        · next hright =>
          rw [in_int_of_lt (by omega), ok_bind, ih _ (by omega) (by omega) (by omega)]
        · rfl

/-- The tree is built only if all numbers of nodes fit. -/
theorem fits_of_build_tree_in_int (sources : Nat) :
    ∀ {parent : List Int} {kid_count : List (BitVec 16)} {offset : Nat}
    {r : Nat × List Int × List (BitVec 16)}, offset < 2 ^ 31 →
      build_tree_in_int .exact parent kid_count sources offset = .ok r →
        sources < 2 ^ 31 ∧ offset + sources ≤ 2 ^ 31 := by
  induction sources using Nat.strong_induction_on with
  | _ sources ih =>
    intro parent kid_count offset r hoffset hrun
    rw [build_tree_in_int] at hrun
    by_cases hzero : sources = 0
    · rw [if_pos hzero] at hrun
      cases hrun
    · rw [if_neg hzero] at hrun
      by_cases hone : sources = 1
      · omega
      · have hexact : FloorLog2.exact.height sources = Nat.log 2 sources := rfl
        rw [if_neg hone, hexact, bind_eq_ok] at hrun
        obtain ⟨_, hpower, hrun⟩ := hrun
        have hpower := (in_int_eq_ok.mp hpower).1
        have hcount : sources < 2 ^ 31 := by
          have hlog : Nat.log 2 sources < 31 := (Nat.pow_lt_pow_iff_right (by decide)).mp hpower
          calc sources < 2 ^ (Nat.log 2 sources + 1) := lt_pow_succ_log_self (by decide) _
            _ ≤ 2 ^ 31 := Nat.pow_le_pow_right (by decide) hlog
        refine ⟨hcount, ?_⟩
        dsimp only at hrun
        obtain ⟨⟨left_child, parent₁, kid_count₁⟩, -, hrun⟩ := bind_eq_ok.mp hrun
        obtain ⟨_, horoot, hrun⟩ := bind_eq_ok.mp hrun
        have horoot := (in_int_eq_ok.mp horoot).1
        obtain ⟨parent₂, -, hrun⟩ := bind_eq_ok.mp hrun
        split at hrun
        · obtain ⟨_, hoffset', hrun⟩ := bind_eq_ok.mp hrun
          have hoffset' := (in_int_eq_ok.mp hoffset').1
          obtain ⟨⟨right_child, parent₃, kid_count₃⟩, hright, -⟩ := bind_eq_ok.mp hrun
          have := ih _ (by omega) hoffset' hright
          omega
        · omega

/-! ## The tree -/

/-- The parent of a node of the range other than the root. -/
def IsParent (parent : List Int) (source_count offset root i j : Nat) : Prop :=
  (offset ≤ i ∧ i < offset + source_count ∧ i ≠ root) ∧ parent[i]? = some (j : Int)

theorem reaches_of_climbs {sources root n i j : Nat}
    (h : Climbs (IsParent parent sources offset root) n i j)
    (hj : Reaches parent root offset (offset + sources) j) :
    Reaches parent root offset (offset + sources) i := by
  induction h with
  | refl => exact hj
  | step _ hparent ih => exact ih (.step ⟨hparent.1.1, hparent.1.2.1⟩ hparent.1.2.2 hparent.2 hj)

/-- In a tree in order every node reaches the root. -/
theorem build_tree_spec (sources : Nat) {parent : List Int} {kid_count : List (BitVec 16)} {offset : Nat}
    (hpos : 0 < sources) (hparent : offset + sources ≤ parent.length)
    (hkid : offset + sources ≤ kid_count.length) : (build_tree floor_log2 parent kid_count sources offset).Returns
      (Built parent kid_count sources offset) := by
  have hless : ∀ n m, 2 ≤ n → m + 1 = 2 ^ floor_log2.height n ∨ m = n - 2 ^ floor_log2.height n →
    id m + 1 ≤ id n := by
    intro n m hn hm
    have hpow := floor_log2.pow_le n (by omega)
    have hpositive := Nat.two_pow_pos (floor_log2.height n)
    simp only [id]
    omega
  refine (build_tree_in_order floor_log2 hless sources hpos hparent hkid).mono fun r h => ?_
  obtain ⟨hlength, hlength_kid, houtside, -, depth, -, hspans⟩ := h
  have hspans : Spans (IsParent r.2.1 sources offset r.1) (kid r.2.2) offset (offset + sources) r.1 depth :=
    hspans.mono (fun i j hi hi' hne hij => ⟨⟨hi, hi', hne⟩, hij⟩) fun _ _ _ _ hin => hin
  refine ⟨hspans.root_mem, hlength, hlength_kid, fun i hi => (houtside i hi).1, fun i hi hi' => ?_⟩
  obtain ⟨n, -, hclimbs⟩ := hspans.climbs ⟨hi, hi'⟩
  exact reaches_of_climbs hclimbs .root

/-- What `build_tree` is for. -/
structure Spanning (parent : List Int) (kid_count : List (BitVec 16)) (source_count offset : Nat)
    (r : Nat × List Int × List (BitVec 16)) : Prop where
  length : r.2.1.length = parent.length ∧ r.2.2.length = kid_count.length
  /-- Only entries of the range are written. -/
  outside : ∀ i, i < offset ∨ offset + source_count ≤ i → r.2.1[i]? = parent[i]? ∧ r.2.2[i]? = kid_count[i]?
  root : offset ≤ r.1 ∧ r.1 < offset + source_count
  has_parent : ∀ i, offset ≤ i → i < offset + source_count → i ≠ r.1 →
    ∃ j, offset ≤ j ∧ j < offset + source_count ∧ r.2.1[i]? = some (j : Int)
  /-- The root is reached from every node, in few steps. -/
  climbs : ∀ i, offset ≤ i → i < offset + source_count →
    ∃ n ≤ Nat.log 2 source_count, Climbs (IsParent r.2.1 source_count offset r.1) n i r.1
  /-- A node has at most one child on each side, and `kid_count` children. -/
  kids : ∀ i, offset ≤ i → i < offset + source_count → ∃ cs : Finset Nat,
    (∀ c, c ∈ cs ↔ IsParent r.2.1 source_count offset r.1 c i) ∧ cs.card ≤ 2 ∧
    r.2.2[i]? = some (BitVec.ofNat 16 cs.card) ∧ (∀ c ∈ cs, c ≠ i) ∧
    ∀ c ∈ cs, ∀ c' ∈ cs, (c < i ↔ c' < i) → c = c'
  /-- What is below a child is on the side of the child. -/
  in_order : ∀ i c j n, IsParent r.2.1 source_count offset r.1 c i →
    Climbs (IsParent r.2.1 source_count offset r.1) n j c → (c < i → j < i) ∧ (i < c → i < j)

theorem Spanned.spanning {sources : Nat} {r : Nat × List Int × List (BitVec 16)}
    (h : Spanned parent kid_count sources offset r) :
    Spanning parent kid_count sources offset r := by
  obtain ⟨depth, hdepth, hspans⟩ := h.spans
  have hspans : Spans (IsParent r.2.1 sources offset r.1) (kid r.2.2) offset (offset + sources) r.1 depth :=
    hspans.mono (fun i j hi hi' hne hij => ⟨⟨hi, hi', hne⟩, hij⟩) fun _ _ _ _ hin => hin
  have hfunctional : ∀ ⦃i j k : Nat⦄, IsParent r.2.1 sources offset r.1 i j →
      IsParent r.2.1 sources offset r.1 i k → j = k := by
    intro i j k hj hk
    have heq : (j : Int) = k := Option.some.inj (hj.2.symm.trans hk.2)
    exact Int.ofNat_inj.mp heq
  have hdomain : ∀ ⦃i j : Nat⦄, IsParent r.2.1 sources offset r.1 i j →
      offset ≤ i ∧ i < offset + sources ∧ i ≠ r.1 := fun i j hij => hij.1
  refine ⟨⟨h.length, h.length_kid_count⟩, h.outside, hspans.root_mem, fun i hi hi' hne => ?_, fun i hi hi' => ?_,
    fun i hi hi' => ?_, fun i c j n hc hclimbs => hspans.in_order hfunctional hdomain hc hclimbs⟩
  · obtain ⟨j, hj, hj', -, hij⟩ := hspans.parent_mem ⟨hi, hi'⟩ hne
    exact ⟨j, hj, hj', hij.2⟩
  · obtain ⟨n, hn, hclimbs⟩ := hspans.climbs ⟨hi, hi'⟩
    exact ⟨n, hn.trans hdepth, hclimbs⟩
  · exact hspans.children_of hfunctional hdomain ⟨hi, hi'⟩

/-- A tree is built of the nodes of a range exactly when their number and their numbers are of
    type `int`. -/
theorem builds_spanning_tree_iff (parent : List Int) (kid_count : List (BitVec 16)) (source_count offset : Nat)
    (hcount : 1 ≤ source_count) (hoffset : offset < 2 ^ 31) (hparent : offset + source_count ≤ parent.length)
    (hkid : offset + source_count ≤ kid_count.length) :
    (build_tree_in_int .exact parent kid_count source_count offset).Returns
        (Spanning parent kid_count source_count offset) ↔
      source_count < 2 ^ 31 ∧ offset + source_count ≤ 2 ^ 31 := by
  constructor
  · rintro ⟨r, hrun, -⟩
    exact fits_of_build_tree_in_int source_count hoffset hrun
  · rintro ⟨hfits, hlast⟩
    rw [build_tree_in_int_eq _ source_count hfits hlast]
    exact (build_tree_spans source_count hcount hparent hkid).mono fun r hr => hr.spanning

/-- Six nodes, from place 1 on. -/
theorem builds_spanning_tree_six : (build_tree_in_int .exact (List.replicate 7 0) (List.replicate 7 0) 6 1).Returns
    (Spanning (replicate 7 0) (replicate 7 0) 6 1) :=
  (builds_spanning_tree_iff (replicate 7 0) (replicate 7 0) 6 1 (by decide) (by decide) (by simp)
    (by simp)).mpr (by decide)

/-- Of `2 ^ 31` nodes no tree is built. -/
theorem too_many_nodes : ∃ (parent : List Int) (kid_count : List (BitVec 16)), parent.length = 2 ^ 31 ∧
    kid_count.length = 2 ^ 31 ∧ ∀ r, build_tree_in_int .exact parent kid_count (2 ^ 31) 0 ≠ .ok r := by
  refine ⟨replicate (2 ^ 31) 0, replicate (2 ^ 31) 0, length_replicate, length_replicate, ?_⟩
  intro r hrun
  have hfits := fits_of_build_tree_in_int (2 ^ 31) (by decide) hrun
  exact absurd hfits.1 (lt_irrefl _)

end VW.SpanningTree
