import VowpalWabbit.Features
import VowpalWabbit.Framework.Loops
import VowpalWabbit.Framework.Merging

/-! # Comparisons of the memory tree

    `over_lap`, `hamming_loss` and `diag_kronecker_product_test` of
    `reductions/memory_tree.cc`. Each of them sorts two lists with a function that compares
    by a signed difference, and then goes over both with comparisons of unsigned numbers.
    The two orders agree as long as the labels, or the bytes of the namespaces, are on one
    side of the sign. Where they do not, a common element from the smaller side is found only
    when the cursors leave the larger side together.
-/

open Cpp Nat Outcome

namespace VW.MemoryTree

open List Features

/-! ## Both orders -/

section

variable {w : Nat} {xs ys : List (BitVec w)}

/-- The elements that are negative as signed numbers. -/
def high (xs : List (BitVec w)) : List (BitVec w) := xs.filter BitVec.msb

def low (xs : List (BitVec w)) : List (BitVec w) := xs.filter fun x => !x.msb

/-- In the order of the signed numbers. -/
def SignedOrder (xs : List (BitVec w)) : Prop := xs.Pairwise fun x y => x.toInt ≤ y.toInt

/-- A list in which nothing with a property follows on something without it. -/
theorem filter_append_filter {α : Type} {R : α → α → Prop} {p : α → Bool} {l : List α}
    (hp : ∀ x y, R x y → p y = true → p x = true) (h : l.Pairwise R) :
      l.filter p ++ l.filter (fun x => !p x) = l := by
  induction l with
  | nil => rfl
  | cons x l ih =>
    obtain ⟨hx, hl⟩ := pairwise_cons.mp h
    cases hpx : p x with
    | true => rw [filter_cons_of_pos hpx, filter_cons_of_neg (by simp [hpx]), cons_append, ih hl]
    | false =>
      have hnone : l.filter p = [] := by
        refine filter_eq_nil_iff.mpr fun y hy hpy => ?_
        rw [hp x y (hx y hy) hpy] at hpx
        cases hpx
      rw [filter_cons_of_neg (by simp [hpx]), hnone, nil_append, filter_cons_of_pos (by simp [hpx])]
      refine congrArg _ (filter_eq_self.mpr fun y hy => ?_)
      simpa using filter_eq_nil_iff.mp hnone y hy

variable {x y : BitVec w}

theorem msb_of_toInt_le (h : x.toInt ≤ y.toInt) (hy : y.msb = true) : x.msb = true := by
  by_contra hx
  rw [BitVec.toInt_eq_msb_cond, BitVec.toInt_eq_msb_cond, if_pos hy, if_neg hx] at h
  have := y.isLt
  omega

theorem toNat_lt_of_msb (hx : x.msb = false) (hy : y.msb = true) : x.toNat < y.toNat := by
  rw [BitVec.msb_eq_decide, decide_eq_false_iff_not] at hx
  rw [BitVec.msb_eq_decide, decide_eq_true_iff] at hy
  omega

/-- Within one side both orders agree. -/
theorem toNat_le_of_toInt_le (h : x.toInt ≤ y.toInt) (hmsb : x.msb = y.msb) : x.toNat ≤ y.toNat := by
  rw [BitVec.toInt_eq_msb_cond, BitVec.toInt_eq_msb_cond, hmsb] at h
  split at h <;> omega

theorem SignedOrder.pieces (h : SignedOrder xs) :
    high xs ++ low xs = xs ∧ Ascending BitVec.toNat (high xs) ∧ Ascending BitVec.toNat (low xs) := by
  refine ⟨filter_append_filter (fun x y hxy hy => msb_of_toInt_le hxy hy) h, ?_, ?_⟩
  · refine (h.filter _).imp_of_mem fun {x y} hx hy hxy => toNat_le_of_toInt_le hxy ?_
    rw [(mem_filter.mp hx).2, (mem_filter.mp hy).2]
  · refine (h.filter _).imp_of_mem fun {x y} hx hy hxy => toNat_le_of_toInt_le hxy ?_
    have hx' := (mem_filter.mp hx).2
    have hy' := (mem_filter.mp hy).2
    simp only [Bool.not_eq_true'] at hx' hy'
    rw [hx', hy']

theorem low_lt_high : ∀ l ∈ low xs, ∀ h ∈ high ys, l.toNat < h.toNat :=
  fun _ hl _ hh => toNat_lt_of_msb (by simpa using (mem_filter.mp hl).2) (mem_filter.mp hh).2

/-- The elements that the cursors meet at. -/
def found (xs ys : List (BitVec w)) : Multiset (BitVec w) := ((common BitVec.toNat xs ys).map Prod.fst : List _)

theorem toNat_injective : Function.Injective (BitVec.toNat (w := w)) := fun _ _ => BitVec.eq_of_toNat_eq

theorem found_ascending (hxs : Ascending BitVec.toNat xs) (hys : Ascending BitVec.toNat ys) :
    found xs ys = (xs : Multiset (BitVec w)) ∩ ys := common_eq_inter toNat_injective hxs hys

theorem count_high (xs : List (BitVec w)) (a : BitVec w) : (high xs).count a = if a.msb then xs.count a else 0 := by
  split
  · next h => exact count_filter h
  · next h => exact count_eq_zero.mpr fun hmem => h (mem_filter.mp hmem).2

theorem count_low (xs : List (BitVec w)) (a : BitVec w) : (low xs).count a = if a.msb then 0 else xs.count a := by
  split
  · next h => exact count_eq_zero.mpr fun hmem => by simpa [h] using (mem_filter.mp hmem).2
  · next h => exact count_filter (by simpa using h)

/-- Cursors that leave the high sides together find all common elements. -/
theorem found_of_aligned (hxs : SignedOrder xs) (hys : SignedOrder ys)
    (h : Aligned BitVec.toNat (high xs) (high ys)) :
    found xs ys = (xs : Multiset (BitVec w)) ∩ ys := by
  obtain ⟨hx, hxhigh, hxlow⟩ := hxs.pieces
  obtain ⟨hy, hyhigh, hylow⟩ := hys.pieces
  have hrest := (rest_eq_iff_aligned toNat_injective hxhigh hyhigh).mpr h
  have hpieces : common BitVec.toNat (high xs ++ low xs) (high ys ++ low ys) = _ := common_pieces hrest
  rw [hx, hy] at hpieces
  rw [found, hpieces, map_append, ← Multiset.coe_add]
  refine (congrArg₂ _ (found_ascending hxhigh hyhigh) (found_ascending hxlow hylow)).trans ?_
  refine Multiset.ext.mpr fun a => ?_
  simp only [Multiset.count_add, Multiset.count_inter, Multiset.coe_count, count_high, count_low]
  split <;> simp

/-- The others find those of the high sides. -/
theorem found_of_not_aligned (hxs : SignedOrder xs) (hys : SignedOrder ys)
    (h : ¬ Aligned BitVec.toNat (high xs) (high ys)) :
    found xs ys = ((xs : Multiset (BitVec w)) ∩ ys).filter (·.msb = true) := by
  obtain ⟨hx, hxhigh, -⟩ := hxs.pieces
  obtain ⟨hy, hyhigh, -⟩ := hys.pieces
  have hrest := mt (rest_eq_iff_aligned toNat_injective hxhigh hyhigh).mp h
  have hpieces : common BitVec.toNat (high xs ++ low xs) (high ys ++ low ys) = _ :=
    common_pieces_of_rest low_lt_high low_lt_high hrest
  rw [hx, hy] at hpieces
  rw [found, hpieces]
  refine (found_ascending hxhigh hyhigh).trans (Multiset.ext.mpr fun a => ?_)
  simp only [Multiset.count_filter, Multiset.count_inter, Multiset.coe_count, count_high]
  split <;> simp

/-- So do those of which one goes over a list in the other order. -/
theorem found_of_ascending (hxs : SignedOrder xs) (hys : Ascending BitVec.toNat ys) (hhigh : high xs ≠ []) :
    found xs ys = ((xs : Multiset (BitVec w)) ∩ ys).filter (·.msb = true) := by
  obtain ⟨hx, hxhigh, -⟩ := hxs.pieces
  have hpiece : common BitVec.toNat (high xs ++ low xs) ys = _ := common_first_piece hhigh hys low_lt_high
  rw [hx] at hpiece
  rw [found, hpiece]
  refine (found_ascending hxhigh hys).trans (Multiset.ext.mpr fun a => ?_)
  simp only [Multiset.count_filter, Multiset.count_inter, Multiset.coe_count, count_high]
  split <;> simp

end

/-! ## Labels -/

abbrev Label : Type := BitVec 32

def compare_label (a b : Label) : Int := (a - b).toInt

/-- The loop of `over_lap`; the indices are of 32 bit. -/
def over_lap_loop (array_1 array_2 : List Label) : Nat → BitVec 32 → BitVec 32 → BitVec 32 → Option (BitVec 32)
  | 0, _, _, _ => none
  | fuel + 1, num_overlap, idx1, idx2 =>
    match array_1[idx1.toNat]?, array_2[idx2.toNat]? with
    | some c1, some c2 =>
      if c1 < c2 then over_lap_loop array_1 array_2 fuel num_overlap (idx1 + 1) idx2
      else if c2 < c1 then over_lap_loop array_1 array_2 fuel num_overlap idx1 (idx2 + 1)
      else over_lap_loop array_1 array_2 fuel (num_overlap + 1) (idx1 + 1) (idx2 + 1)
    | _, _ => some num_overlap

/-- Both arrays are sorted in place, which changes the order of their labels only. -/
def over_lap (array_1 array_2 : List Label) (fuel : Nat) : Outcome (Option (BitVec 32)) :=
  if array_1 = [] ∨ array_2 = [] then .ok (some 0)
  else do
    let array_1 ← qsort compare_label array_1
    let array_2 ← qsort compare_label array_2
    .ok (over_lap_loop array_1 array_2 fuel 0 0 0)

/-- `static_cast<uint32_t>(array_1.size() + array_2.size() - 2 * overlap)`, where the product is one of 32 bit. -/
def hamming_loss (array_1 array_2 : List Label) (fuel : Nat) : Outcome (Option (BitVec 32)) := do
  let overlap ← over_lap array_1 array_2 fuel
  .ok (overlap.map fun overlap =>
    (BitVec.ofNat 64 array_1.length + BitVec.ofNat 64 array_2.length - (2 * overlap).setWidth 64).setWidth 32)

/-- Labels less than `2^31` apart. -/
def Near (xs : List Label) : Prop := ∀ x ∈ xs, ∀ y ∈ xs, x.toNat - y.toNat < 2 ^ 31

/-- The labels from `2^31` on are more than that above the other ones. -/
def Apart (xs : List Label) : Prop := ∀ x ∈ xs, ∀ y ∈ xs, x.msb = false → y.msb = true → 2 ^ 31 < y.toNat - x.toNat

theorem compare_label_cases (a b : Label) :
    (compare_label a b < 0 ↔ a.toNat < b.toNat ∧ b.toNat - a.toNat ≤ 2 ^ 31 ∨ 2 ^ 31 ≤ a.toNat - b.toNat) ∧
    (0 < compare_label a b ↔ b.toNat < a.toNat ∧ a.toNat - b.toNat < 2 ^ 31 ∨ 2 ^ 31 < b.toNat - a.toNat) := by
  unfold compare_label
  rw [BitVec.toInt_eq_toNat_cond, BitVec.toNat_sub]
  split <;> omega

variable {xs ys : List Label}

theorem agrees_of_near (h : Near xs) : Agrees compare_label (fun x => (x.toNat : Int)) xs := by
  intro a ha b hb
  have hab := h a ha b hb
  have hba := h b hb a ha
  rw [(compare_label_cases a b).1, (compare_label_cases a b).2]
  dsimp only
  omega

theorem agrees_of_apart (h : Apart xs) : Agrees compare_label BitVec.toInt xs := by
  intro a ha b hb
  have hab := h a ha b hb
  have hba := h b hb a ha
  rw [(compare_label_cases a b).1, (compare_label_cases a b).2, BitVec.toInt_eq_msb_cond, BitVec.toInt_eq_msb_cond]
  simp only [BitVec.msb_eq_decide, decide_eq_true_eq, decide_eq_false_iff_not] at hab hba ⊢
  split <;> split <;> omega

/-- Only such labels are ordered by `compare_label`. -/
theorem consistent_compare_label_iff : Cpp.Consistent compare_label xs ↔ Near xs ∨ Apart xs := by
  constructor
  · intro h
    by_contra hne
    simp only [not_or, Near, Apart, not_forall] at hne
    obtain ⟨⟨y, hy, x, hx, hfar⟩, l, hl, g, hg, hlow, hhigh, hnear⟩ := hne
    rw [BitVec.msb_eq_decide, decide_eq_false_iff_not] at hlow
    rw [BitVec.msb_eq_decide, decide_eq_true_iff] at hhigh
    have hyx := (h y hy x hx).1
    have hyl := (h y hy l hl).1
    have htrans := (h y hy x hx).2 l hl
    have hcycle := (h l hl g hg).2 y hy
    simp only [← not_lt, (compare_label_cases _ _).2, (compare_label_cases _ _).1] at hyx hyl htrans hcycle
    have := y.isLt
    have := g.isLt
    -- `y` stands before `x`, so it stands before `l`, which stands before `g`, and that before `y`.
    omega
  · rintro (h | h)
    · exact (agrees_of_near h).consistent
    · exact (agrees_of_apart h).consistent

section Loop

variable {array_1 array_2 : List Label}

/-- The loop counts the common elements while the indices do not overflow. -/
theorem over_lap_loop_eq (h₁ : array_1.length < 2 ^ 32) (h₂ : array_2.length < 2 ^ 32) :
    ∀ (fuel i j : Nat) (num_overlap : BitVec 32), i ≤ array_1.length → j ≤ array_2.length →
      array_1.length - i + (array_2.length - j) < fuel →
      over_lap_loop array_1 array_2 fuel num_overlap (BitVec.ofNat 32 i) (BitVec.ofNat 32 j) =
        some (num_overlap + BitVec.ofNat 32 (common BitVec.toNat (array_1.drop i) (array_2.drop j)).length) := by
  intro fuel
  induction fuel with
  | zero => exact fun i j num _ _ h => absurd h (not_lt_zero _)
  | succ fuel ih =>
    intro i j num hi hj hfuel
    have hi' : (BitVec.ofNat 32 i).toNat = i := mod_eq_of_lt (by omega)
    have hj' : (BitVec.ofNat 32 j).toNat = j := mod_eq_of_lt (by omega)
    have hsucc : ∀ n : Nat, BitVec.ofNat 32 n + 1 = BitVec.ofNat 32 (n + 1) := fun n => (BitVec.ofNat_add n 1).symm
    unfold over_lap_loop
    rw [hi', hj']
    by_cases hilt : i < array_1.length
    · by_cases hjlt : j < array_2.length
      · rw [getElem?_eq_getElem hilt, getElem?_eq_getElem hjlt, hsucc, hsucc]
        dsimp only
        rw [drop_eq_getElem_cons hilt, drop_eq_getElem_cons hjlt]
        split
        · next hlt =>
          rw [ih (i + 1) j num hilt hj (by omega), common_of_lt _ _ hlt, ← drop_eq_getElem_cons hjlt]
        · next hle =>
          split
          · next hgt =>
            rw [ih i (j + 1) num hi hjlt (by omega), common_of_gt _ _ hgt, ← drop_eq_getElem_cons hilt]
          · next hge =>
            rw [ih (i + 1) (j + 1) (num + 1) hilt hjlt (by omega),
              common_of_eq _ _ (le_antisymm (Nat.not_lt.mp hge) (Nat.not_lt.mp hle)), length_cons,
              BitVec.ofNat_add, BitVec.add_assoc, BitVec.add_comm 1]
            rfl
      · rw [getElem?_eq_none (Nat.not_lt.mp hjlt), drop_of_length_le (Nat.not_lt.mp hjlt), common_nil_right]
        simp
    · rw [getElem?_eq_none (Nat.not_lt.mp hilt), drop_of_length_le (Nat.not_lt.mp hilt), common_nil_left]
      simp

/-- No index of 32 bit is behind both arrays. -/
theorem over_lap_loop_of_le (h₁ : 2 ^ 32 ≤ array_1.length) (h₂ : 2 ^ 32 ≤ array_2.length) :
    ∀ (fuel : Nat) (num_overlap idx1 idx2 : BitVec 32),
      over_lap_loop array_1 array_2 fuel num_overlap idx1 idx2 = none := by
  intro fuel
  induction fuel with
  | zero => exact fun _ _ _ => rfl
  | succ fuel ih =>
    intro num idx1 idx2
    unfold over_lap_loop
    rw [getElem?_eq_getElem (idx1.isLt.trans_le h₁), getElem?_eq_getElem (idx2.isLt.trans_le h₂)]
    dsimp only
    rw [ih, ih, ih, ite_self, ite_self]

end Loop

/-- No label below `2^31` is in both lists. -/
def NoneLow {w : Nat} (xs ys : List (BitVec w)) : Prop := ∀ x ∈ xs, x ∈ ys → x.msb = true

theorem card_filter_inter_iff {w : Nat} {xs ys : List (BitVec w)} :
    (((xs : Multiset (BitVec w)) ∩ ys).filter (·.msb = true)).card =
      ((xs : Multiset (BitVec w)) ∩ ys).card ↔ NoneLow xs ys := by
  constructor
  · intro h x hx hy
    have heq := Multiset.eq_of_le_of_card_le (Multiset.filter_le _ _) h.ge
    exact Multiset.filter_eq_self.mp heq x (Multiset.mem_inter.mpr ⟨hx, hy⟩)
  · intro h
    rw [Multiset.filter_eq_self.mpr fun x hx => h x (Multiset.mem_inter.mp hx).1 (Multiset.mem_inter.mp hx).2]

/-- Both orders are the same, or what is lost is not there, or nothing is lost. -/
def Counted (xs ys : List Label) : Prop :=
  Near xs ∧ Near ys ∨ NoneLow xs ys ∨ Apart xs ∧ Apart ys ∧ Aligned BitVec.toNat (high xs) (high ys)

theorem high_ne_nil_of_apart (h : ¬ Near xs) : high xs ≠ [] := by
  intro hnil
  refine h fun x hx y hy => ?_
  have hlow := filter_eq_nil_iff.mp hnil x hx
  rw [BitVec.msb_eq_decide, decide_eq_true_iff] at hlow
  omega

/-- The sorted lists have as many common elements that are found as there are exactly when they are `Counted`. -/
theorem card_found_iff {xs' ys' : List Label} (hxs : Cpp.Consistent compare_label xs)
    (hys : Cpp.Consistent compare_label ys) (hxs' : qsort compare_label xs = .ok xs')
    (hys' : qsort compare_label ys = .ok ys') :
    (found xs' ys').card = ((xs : Multiset Label) ∩ ys).card ↔ Counted xs ys := by
  have sorted : ∀ {key : Label → Int} {l l' : List Label}, Agrees compare_label key l →
    qsort compare_label l = .ok l' →
      l'.Perm l ∧ l'.Pairwise fun x y => key x ≤ key y := by
    intro key l l' hagrees hl
    obtain ⟨m, hm, hsorted⟩ := hagrees.qsort_eq_ok
    cases hl.symm.trans hm
    exact hsorted
  have near : ∀ {l l' : List Label}, Near l → qsort compare_label l = .ok l' → l'.Perm l ∧
    Ascending BitVec.toNat l' :=
    fun h hl => (sorted (agrees_of_near h) hl).imp_right fun h => h.imp fun hxy => Int.ofNat_le.mp hxy
  have apart : ∀ {l l' : List Label}, Apart l → qsort compare_label l = .ok l' → l'.Perm l ∧ SignedOrder l' :=
    fun h hl => sorted (agrees_of_apart h) hl
  by_cases hnear : Near xs ∧ Near ys
  · obtain ⟨hpx, hx⟩ := near hnear.1 hxs'
    obtain ⟨hpy, hy⟩ := near hnear.2 hys'
    rw [found_ascending hx hy, Multiset.coe_eq_coe.mpr hpx, Multiset.coe_eq_coe.mpr hpy]
    exact iff_of_true rfl (.inl hnear)
  have hnone : ∀ {card : Nat}, ¬ (Apart xs ∧ Apart ys ∧ Aligned BitVec.toNat (high xs) (high ys)) →
      card = (((xs : Multiset Label) ∩ ys).filter (·.msb = true)).card →
      (card = ((xs : Multiset Label) ∩ ys).card ↔ Counted xs ys) := by
    rintro card hal rfl
    rw [card_filter_inter_iff]
    exact ⟨fun h => .inr (.inl h), fun h => (h.resolve_left hnear).resolve_right hal⟩
  by_cases hapart : Apart xs ∧ Apart ys
  · obtain ⟨hpx, hx⟩ := apart hapart.1 hxs'
    obtain ⟨hpy, hy⟩ := apart hapart.2 hys'
    have hperm : Aligned BitVec.toNat (high xs') (high ys') ↔ Aligned BitVec.toNat (high xs) (high ys) :=
      Aligned.perm (hpx.filter _) (hpy.filter _)
    by_cases hal : Aligned BitVec.toNat (high xs) (high ys)
    · rw [found_of_aligned hx hy (hperm.mpr hal), Multiset.coe_eq_coe.mpr hpx, Multiset.coe_eq_coe.mpr hpy]
      exact iff_of_true rfl (.inr (.inr ⟨hapart.1, hapart.2, hal⟩))
    · refine hnone (fun h => hal h.2.2) ?_
      rw [found_of_not_aligned hx hy (mt hperm.mp hal), Multiset.coe_eq_coe.mpr hpx, Multiset.coe_eq_coe.mpr hpy]
  -- One list is in the order of the unsigned numbers, and the other one is not.
  rw [consistent_compare_label_iff] at hxs hys
  refine hnone (fun h => hapart ⟨h.1, h.2.1⟩) ?_
  by_cases hx : Near xs
  · have hy : ¬ Near ys := fun hy => hnear ⟨hx, hy⟩
    obtain ⟨hpx, hx⟩ := near hx hxs'
    obtain ⟨hpy, hys⟩ := apart (hys.resolve_left hy) hys'
    have hhigh : high ys' ≠ [] := fun h => high_ne_nil_of_apart hy ((hpy.filter _).symm.trans (h ▸ .refl _)).eq_nil
    have hcard : (found xs' ys').card = (found ys' xs').card := by
      rw [found, found, Multiset.coe_card, Multiset.coe_card, length_map, length_map, length_common_comm]
    rw [hcard, found_of_ascending hys hx hhigh, Multiset.coe_eq_coe.mpr hpx, Multiset.coe_eq_coe.mpr hpy,
      Multiset.inter_comm]
  · have hy : Near ys := hys.resolve_right fun hy => hapart ⟨hxs.resolve_left hx, hy⟩
    obtain ⟨hpx, hxs⟩ := apart (hxs.resolve_left hx) hxs'
    obtain ⟨hpy, hy⟩ := near hy hys'
    have hhigh : high xs' ≠ [] := fun h => high_ne_nil_of_apart hx ((hpx.filter _).symm.trans (h ▸ .refl _)).eq_nil
    rw [found_of_ascending hxs hy hhigh, Multiset.coe_eq_coe.mpr hpx, Multiset.coe_eq_coe.mpr hpy]

/-- Both functions return the size of a set: of the intersection, and of what is in one list only. -/
def CountsLabels (xs ys : List Label) : Prop :=
  ∃ m, ∀ fuel ≥ m, ∃ overlap loss, over_lap xs ys fuel = .ok (some overlap) ∧
    overlap.toNat = ((xs : Multiset Label) ∩ ys).card ∧ hamming_loss xs ys fuel = .ok (some loss) ∧
    loss.toNat = ((xs : Multiset Label) - ys + (ys - xs)).card

/-- The condition for it. -/
structure Comparable (xs ys : List Label) : Prop where
  loss_lt : ((xs : Multiset Label) - ys + (ys - xs)).card < 2 ^ 32
  labels : xs = [] ∨ ys = [] ∨ xs.length < 2 ^ 32 ∧ ys.length < 2 ^ 32 ∧ Cpp.Consistent compare_label xs ∧
    Cpp.Consistent compare_label ys ∧ Counted xs ys

theorem card_symmDiff (xs ys : List Label) :
    ((xs : Multiset Label) - ys + (ys - xs)).card + 2 * ((xs : Multiset Label) ∩ ys).card =
      xs.length + ys.length := by
  have hx := congrArg Multiset.card (Multiset.sub_add_inter (xs : Multiset Label) ys)
  have hy := congrArg Multiset.card (Multiset.sub_add_inter (ys : Multiset Label) xs)
  rw [Multiset.inter_comm] at hy
  simp only [Multiset.card_add, Multiset.coe_card] at hx hy ⊢
  omega

/-- The loss is that of the overlap, modulo `2^32`. -/
theorem hamming_loss_of_over_lap {fuel : Nat} {overlap : BitVec 32}
    (h : over_lap xs ys fuel = .ok (some overlap)) (hcard : overlap.toNat = ((xs : Multiset Label) ∩ ys).card) :
    ∃ loss, hamming_loss xs ys fuel = .ok (some loss) ∧
      loss.toNat = ((xs : Multiset Label) - ys + (ys - xs)).card % 2 ^ 32 := by
  refine ⟨_, by rw [hamming_loss, h]; rfl, ?_⟩
  have hsymm := card_symmDiff xs ys
  have htwo : (2 : BitVec 32).toNat = 2 := rfl
  simp only [BitVec.toNat_setWidth, BitVec.toNat_sub, BitVec.toNat_add, BitVec.toNat_ofNat, BitVec.toNat_mul, htwo]
  omega

theorem over_lap_of_empty (h : xs = [] ∨ ys = []) (fuel : Nat) :
    over_lap xs ys fuel = .ok (some 0) ∧ ((xs : Multiset Label) ∩ ys).card = 0 := by
  refine ⟨if_pos h, ?_⟩
  rcases h with rfl | rfl <;> simp

/-- What `over_lap` returns of sorted lists. -/
theorem over_lap_of_sorted {xs' ys' : List Label} (hne : ¬ (xs = [] ∨ ys = [])) (hx : xs.length < 2 ^ 32)
    (hy : ys.length < 2 ^ 32) (hxs : qsort compare_label xs = .ok xs') (hys : qsort compare_label ys = .ok ys')
    {fuel : Nat} (hfuel : xs.length + ys.length < fuel) :
    ∃ overlap, over_lap xs ys fuel = .ok (some overlap) ∧ overlap.toNat = (found xs' ys').card := by
  have hx' := (qsort_eq_ok hxs).2.length_eq
  have hy' := (qsort_eq_ok hys).2.length_eq
  have hloop := over_lap_loop_eq (by omega) (by omega) fuel 0 0 0 (zero_le xs'.length) (zero_le ys'.length)
    (by omega)
  refine ⟨0#32 + BitVec.ofNat 32 (common BitVec.toNat (xs'.drop 0) (ys'.drop 0)).length, ?_, ?_⟩
  · rw [over_lap, if_neg hne, hxs, ok_bind, hys, ok_bind]
    exact congrArg _ hloop
  · have hle := (common_sublist xs' ys' : ((common BitVec.toNat xs' ys').map _).Sublist xs').length_le
    rw [length_map] at hle
    rw [BitVec.zero_add, BitVec.toNat_ofNat, found, Multiset.coe_card, length_map, drop_zero, drop_zero]
    exact mod_eq_of_lt (by omega)

theorem counts_of_comparable (h : Comparable xs ys) : CountsLabels xs ys := by
  refine ⟨xs.length + ys.length + 1, fun fuel hfuel => ?_⟩
  suffices hoverlap : ∃ overlap, over_lap xs ys fuel = .ok (some overlap) ∧
      overlap.toNat = ((xs : Multiset Label) ∩ ys).card by
    obtain ⟨overlap, hoverlap, hcard⟩ := hoverlap
    obtain ⟨loss, hloss, hmod⟩ := hamming_loss_of_over_lap hoverlap hcard
    exact ⟨overlap, loss, hoverlap, hcard, hloss, hmod.trans (mod_eq_of_lt h.loss_lt)⟩
  by_cases hempty : xs = [] ∨ ys = []
  · obtain ⟨hrun, hcard⟩ := over_lap_of_empty hempty fuel
    exact ⟨0, hrun, hcard.symm⟩
  · rw [not_or] at hempty
    obtain ⟨hx, hy, hxs, hys, hcounted⟩ := (h.labels.resolve_left hempty.1).resolve_left hempty.2
    have hxs' : qsort compare_label xs = .ok _ := if_pos hxs
    have hys' : qsort compare_label ys = .ok _ := if_pos hys
    obtain ⟨overlap, hrun, hcard⟩ := over_lap_of_sorted (not_or.mpr hempty) hx hy hxs' hys' hfuel
    exact ⟨overlap, hrun, hcard.trans ((card_found_iff hxs hys hxs' hys').mpr hcounted)⟩

/-- The condition is also necessary, except for a list that is shorter than `2^32` beside one that is not. -/
theorem comparable_of_counts (hlength : xs.length < 2 ^ 32 ↔ ys.length < 2 ^ 32)
    (h : CountsLabels xs ys) : Comparable xs ys := by
  obtain ⟨m, h⟩ := h
  obtain ⟨overlap, loss, hrun, hcard, -, hloss⟩ := h (max m (xs.length + ys.length + 1)) (le_max_left _ _)
  refine ⟨hloss ▸ loss.isLt, ?_⟩
  by_contra hempty
  rw [← or_assoc, not_or] at hempty
  obtain ⟨hempty, hlabels⟩ := hempty
  rw [over_lap, if_neg hempty] at hrun
  obtain ⟨xs', hxs, hrun'⟩ := Outcome.bind_eq_ok.mp hrun
  obtain ⟨ys', hys, hloop⟩ := Outcome.bind_eq_ok.mp hrun'
  by_cases hx : xs.length < 2 ^ 32
  · have hy := hlength.mp hx
    obtain ⟨overlap', hrun', hfound⟩ := over_lap_of_sorted hempty hx hy hxs hys
      (lt_of_succ_le (le_max_right m (xs.length + ys.length + 1)))
    rw [over_lap, if_neg hempty, hrun] at hrun'
    cases hrun'
    have hconsistent := (qsort_eq_ok hxs).1
    have hconsistent' := (qsort_eq_ok hys).1
    exact hlabels ⟨hx, hy, hconsistent, hconsistent',
      (card_found_iff hconsistent hconsistent' hxs hys).mp (hfound.symm.trans hcard)⟩
  · -- No run ends.
    have hx' := (qsort_eq_ok hxs).2.length_eq
    have hy' := (qsort_eq_ok hys).2.length_eq
    rw [over_lap_loop_of_le (by omega) (by omega)] at hloop
    cases hloop

/-! ## Products of examples -/

/-- A comparison of two `char`, which are signed. -/
def cmpfunc (a b : BitVec 8) : Int := a.toInt - b.toInt

theorem agrees_cmpfunc (xs : List (BitVec 8)) : Agrees cmpfunc BitVec.toInt xs := by
  intro a _ b _
  unfold cmpfunc
  omega

/-- What the comparison reads of `VW::example`; the sum is what `get_total_sum_feat_sq` returns. -/
structure Example (V : Type) where
  indices : List (BitVec 8)
  feature_space : BitVec 8 → Features V
  total_sum_feat_sq : V

section

variable {V : Type}

def copy_example_data (dst src : Example V) : Example V where
  indices := src.indices
  feature_space c := if c ∈ src.indices then src.feature_space c else dst.feature_space c
  total_sum_feat_sq := src.total_sum_feat_sq

variable [Zero V] [Add V] [Mul V] [Div V] (pow_half : V → V)

/-- The product and the new sum. -/
def diag_kronecker_prod_fs_test (f1 f2 : Features V) (total_sum_feat_sq norm_sq1 norm_sq2 : V) : Features V × V :=
  if f2.indices.length = 0 then (empty, total_sum_feat_sq)
  else
    let denominator := pow_half (norm_sq1 * norm_sq2)
    (common (fun item => item.2.toNat) f1.items f2.items).foldl
      (fun prod item =>
        (prod.1.push_back (item.1.1 * item.2.1 / denominator) item.1.2, prod.2 + item.1.1 * item.2.1 / denominator))
      (empty, total_sum_feat_sq)

/-- The loop body for a namespace of both examples. -/
def multiply_namespace (ec1 ec2 ec : Example V) (c : BitVec 8) : Example V :=
  let prod := diag_kronecker_prod_fs_test pow_half (ec1.feature_space c) (ec2.feature_space c) ec.total_sum_feat_sq
    ec1.total_sum_feat_sq ec2.total_sum_feat_sq
  { ec with feature_space := Function.update ec.feature_space c prod.1, total_sum_feat_sq := prod.2 }

/-- The index lists of `ec1` and `ec2` are sorted in place. -/
def diag_kronecker_product_test (ec1 ec2 ec : Example V) : Outcome (Example V) := do
  let indices1 ← qsort cmpfunc ec1.indices
  let indices2 ← qsort cmpfunc ec2.indices
  .ok ((common BitVec.toNat indices1 indices2).foldl (fun ec c => multiply_namespace pow_half ec1 ec2 ec c.1)
    { copy_example_data ec ec1 with total_sum_feat_sq := 0 })

/-- One product for each index of both groups. -/
structure IsProduct (denominator : V) (f1 f2 f : Features V) : Prop where
  nodup : f.indices.Nodup
  mem_iff : ∀ v i, (v, i) ∈ f.items ↔
    ∃ v1 v2, (v1, i) ∈ f1.items ∧ (v2, i) ∈ f2.items ∧ v = v1 * v2 / denominator

/-- The features of each namespace ascend strictly. -/
def Example.Sorted (ec : Example V) : Prop :=
  ∀ c ∈ ec.indices, (ec.feature_space c).items.Pairwise fun x y => x.2.toNat < y.2.toNat

omit [Zero V] [Div V] in
theorem foldl_push_back (f : V × FeatureIndex → V × FeatureIndex → V)
    (l : List ((V × FeatureIndex) × (V × FeatureIndex))) : ∀ prod : Features V × V,
      (l.foldl (fun prod item => (prod.1.push_back (f item.1 item.2) item.1.2, prod.2 + f item.1 item.2)) prod).1 =
        prod.1.push_all (l.map fun item => (f item.1 item.2, item.1.2)) := by
  induction l with
  | nil => exact fun prod => rfl
  | cons item l ih => exact fun prod => ih _

theorem prod_fs_eq (f1 f2 : Features V) (total norm_sq1 norm_sq2 : V) :
    (diag_kronecker_prod_fs_test pow_half f1 f2 total norm_sq1 norm_sq2).1 =
      empty.push_all ((common (fun item => item.2.toNat) f1.items f2.items).map fun item =>
        (item.1.1 * item.2.1 / pow_half (norm_sq1 * norm_sq2), item.1.2)) := by
  unfold diag_kronecker_prod_fs_test
  split
  · next h =>
    have hempty : f2.items = [] := by
      rw [items, length_eq_zero_iff.mp h, zip_nil_right]
    rw [hempty, common_nil_right]
    rfl
  · exact foldl_push_back (fun x y => x.1 * y.1 / pow_half (norm_sq1 * norm_sq2)) _ _

omit [Div V] in
theorem items_push_all (l : List (V × FeatureIndex)) : (empty.push_all l).items = l := by
  rw [items, push_all_values, push_all_indices]
  exact (zip_of_prod rfl rfl).symm

theorem isProduct_prod_fs {f1 f2 : Features V} (h1 : f1.items.Pairwise fun x y => x.2.toNat < y.2.toNat)
    (h2 : f2.items.Pairwise fun x y => x.2.toNat < y.2.toNat) (total norm_sq1 norm_sq2 : V) :
    IsProduct (pow_half (norm_sq1 * norm_sq2)) f1 f2
      (diag_kronecker_prod_fs_test pow_half f1 f2 total norm_sq1 norm_sq2).1 := by
  rw [prod_fs_eq]
  constructor
  · rw [← map_snd_items, items_push_all, map_map]
    have hsub : ((common (fun item : V × FeatureIndex => item.2.toNat) f1.items f2.items).map
      Prod.fst).Sublist f1.items :=
      common_sublist f1.items f2.items
    have hsub' := hsub.map Prod.snd
    rw [map_map] at hsub'
    refine List.Nodup.sublist hsub' (pairwise_map.mpr (h1.imp fun hlt heq => ?_))
    rw [heq] at hlt
    exact lt_irrefl _ hlt
  · intro v i
    rw [items_push_all, mem_map]
    constructor
    · rintro ⟨⟨x, y⟩, hmem, heq⟩
      obtain ⟨hx, hy, hkey⟩ := (mem_common_iff h1 h2).mp hmem
      obtain ⟨rfl, rfl⟩ := Prod.mk.injEq .. ▸ heq
      have hindex : x.2 = y.2 := BitVec.eq_of_toNat_eq hkey
      exact ⟨x.1, y.1, hx, hindex ▸ hy, rfl⟩
    · rintro ⟨v1, v2, h1', h2', rfl⟩
      exact ⟨((v1, i), (v2, i)), (mem_common_iff h1 h2).mpr ⟨h1', h2', rfl⟩, rfl⟩

/-- The feature groups after the loop: those of the namespaces that were found are products. -/
theorem foldl_multiply (ec1 ec2 : Example V) (l : List (BitVec 8 × BitVec 8)) : ∀ ec : Example V,
    (l.foldl (fun ec c => multiply_namespace pow_half ec1 ec2 ec c.1) ec).indices = ec.indices ∧
    ∀ c, (c ∈ l.map Prod.fst → ∃ total,
      (l.foldl (fun ec c => multiply_namespace pow_half ec1 ec2 ec c.1) ec).feature_space c =
        (diag_kronecker_prod_fs_test pow_half (ec1.feature_space c) (ec2.feature_space c) total
          ec1.total_sum_feat_sq ec2.total_sum_feat_sq).1) ∧
      (c ∉ l.map Prod.fst →
        (l.foldl (fun ec c => multiply_namespace pow_half ec1 ec2 ec c.1) ec).feature_space c =
          ec.feature_space c) := by
  induction l with
  | nil => exact fun ec => ⟨rfl, fun c => ⟨fun h => absurd h not_mem_nil, fun _ => rfl⟩⟩
  | cons p l ih =>
    intro ec
    obtain ⟨hindices, hspace⟩ := ih (multiply_namespace pow_half ec1 ec2 ec p.1)
    refine ⟨hindices, fun c => ?_⟩
    rw [foldl_cons, map_cons, mem_cons]
    by_cases hc : c ∈ l.map Prod.fst
    · exact ⟨fun _ => (hspace c).1 hc, fun h => absurd (.inr hc) h⟩
    · rw [(hspace c).2 hc]
      constructor
      · rintro (rfl | h)
        · exact ⟨ec.total_sum_feat_sq, Function.update_self _ _ _⟩
        · exact absurd h hc
      · exact fun h => Function.update_of_ne (fun heq => h (.inl heq)) _ _

/-- The products are formed in the namespaces of both examples, and the other groups are left as they were copied. -/
def FormsProducts (ec1 ec2 ec : Example V) : Prop :=
  ∃ ec', diag_kronecker_product_test pow_half ec1 ec2 ec = .ok ec' ∧ ∀ c,
    (c ∈ ec1.indices ∧ c ∈ ec2.indices → IsProduct (pow_half (ec1.total_sum_feat_sq * ec2.total_sum_feat_sq))
      (ec1.feature_space c) (ec2.feature_space c) (ec'.feature_space c)) ∧
    (¬ (c ∈ ec1.indices ∧ c ∈ ec2.indices) → ec'.feature_space c = (copy_example_data ec ec1).feature_space c)

/-- The namespaces of the example have no features but these products. -/
def HoldsProducts (ec1 ec2 ec : Example V) : Prop :=
  FormsProducts pow_half ec1 ec2 ec ∧ ∀ ec', diag_kronecker_product_test pow_half ec1 ec2 ec = .ok ec' →
    ∀ c ∈ ec'.indices, c ∉ ec2.indices → (ec'.feature_space c).items = []

/-- The greatest byte from 128 on is the same in both examples, or both have none, or each common
    namespace below 128 has nothing else to form than its features in the first example. -/
def NamespacesMeet (ec1 ec2 : Example V) : Prop :=
  Aligned BitVec.toNat (high ec1.indices) (high ec2.indices) ∨ ∀ c ∈ ec1.indices, c ∈ ec2.indices → c.msb = false →
    IsProduct (pow_half (ec1.total_sum_feat_sq * ec2.total_sum_feat_sq)) (ec1.feature_space c) (ec2.feature_space c)
      (ec1.feature_space c)

/-- The namespaces that the loop finds, and what it returns. -/
theorem product_test_eq (ec1 ec2 ec : Example V) (h1 : ec1.Sorted) (h2 : ec2.Sorted) :
    ∃ ec', diag_kronecker_product_test pow_half ec1 ec2 ec = .ok ec' ∧ ec'.indices = ec1.indices ∧ ∀ c,
      (c ∈ ec1.indices → c ∈ ec2.indices →
        Aligned BitVec.toNat (high ec1.indices) (high ec2.indices) ∨ c.msb = true →
        IsProduct (pow_half (ec1.total_sum_feat_sq * ec2.total_sum_feat_sq)) (ec1.feature_space c)
          (ec2.feature_space c) (ec'.feature_space c)) ∧
      (¬ (c ∈ ec1.indices ∧ c ∈ ec2.indices ∧
        (Aligned BitVec.toNat (high ec1.indices) (high ec2.indices) ∨ c.msb = true)) →
        ec'.feature_space c = (copy_example_data ec ec1).feature_space c) := by
  obtain ⟨l1, hl1, hp1, hs1⟩ := (agrees_cmpfunc ec1.indices).qsort_eq_ok
  obtain ⟨l2, hl2, hp2, hs2⟩ := (agrees_cmpfunc ec2.indices).qsort_eq_ok
  have hmem : ∀ c, c ∈ (common BitVec.toNat l1 l2).map Prod.fst ↔ c ∈ ec1.indices ∧ c ∈ ec2.indices ∧
      (Aligned BitVec.toNat (high ec1.indices) (high ec2.indices) ∨ c.msb = true) := by
    intro c
    have hperm : Aligned BitVec.toNat (high l1) (high l2) ↔ Aligned BitVec.toNat (high ec1.indices)
      (high ec2.indices) :=
      Aligned.perm (hp1.filter _) (hp2.filter _)
    rw [← hperm, ← hp1.mem_iff, ← hp2.mem_iff]
    by_cases hal : Aligned BitVec.toNat (high l1) (high l2)
    · have hfound := congrArg (c ∈ ·) (found_of_aligned hs1 hs2 hal)
      rw [Multiset.mem_inter] at hfound
      exact (Iff.of_eq hfound).trans ⟨fun h => ⟨h.1, h.2, .inl hal⟩, fun h => ⟨h.1, h.2.1⟩⟩
    · have hfound := congrArg (c ∈ ·) (found_of_not_aligned hs1 hs2 hal)
      rw [Multiset.mem_filter, Multiset.mem_inter] at hfound
      exact (Iff.of_eq hfound).trans
        ⟨fun h => ⟨h.1.1, h.1.2, .inr h.2⟩, fun h => ⟨⟨h.1, h.2.1⟩, h.2.2.resolve_left hal⟩⟩
  obtain ⟨hindices, hspace⟩ := foldl_multiply pow_half ec1 ec2 (common BitVec.toNat l1 l2)
    { copy_example_data ec ec1 with total_sum_feat_sq := 0 }
  refine ⟨_, by rw [diag_kronecker_product_test, hl1, ok_bind, hl2, ok_bind], hindices, fun c => ?_⟩
  constructor
  · intro hc1 hc2 hfind
    obtain ⟨total, htotal⟩ := (hspace c).1 ((hmem c).mpr ⟨hc1, hc2, hfind⟩)
    rw [htotal]
    exact isProduct_prod_fs pow_half (h1 c hc1) (h2 c hc2) total _ _
  · exact fun h => (hspace c).2 (mt (hmem c).mp h)

theorem formsProducts_iff (ec1 ec2 ec : Example V) (h1 : ec1.Sorted) (h2 : ec2.Sorted) :
    FormsProducts pow_half ec1 ec2 ec ↔ NamespacesMeet pow_half ec1 ec2 := by
  obtain ⟨ec', hrun, -, hspace⟩ := product_test_eq pow_half ec1 ec2 ec h1 h2
  constructor
  · rintro ⟨ec'', hrun', hforms⟩
    cases hrun.symm.trans hrun'
    by_cases hal : Aligned BitVec.toNat (high ec1.indices) (high ec2.indices)
    · exact .inl hal
    · refine .inr fun c hc1 hc2 hmsb => ?_
      have hform := (hforms c).1 ⟨hc1, hc2⟩
      have hcopy : (copy_example_data ec ec1).feature_space c = ec1.feature_space c := if_pos hc1
      rwa [(hspace c).2 (by simp [hal, hmsb]), hcopy] at hform
  · intro hmeet
    refine ⟨ec', hrun, fun c => ⟨fun ⟨hc1, hc2⟩ => ?_, fun h => (hspace c).2 fun h' => h ⟨h'.1, h'.2.1⟩⟩⟩
    by_cases hfind : Aligned BitVec.toNat (high ec1.indices) (high ec2.indices) ∨ c.msb = true
    · exact (hspace c).1 hc1 hc2 hfind
    · have hcopy : (copy_example_data ec ec1).feature_space c = ec1.feature_space c := if_pos hc1
      rw [(hspace c).2 fun h => hfind h.2.2, hcopy]
      rw [not_or] at hfind
      exact hmeet.resolve_left hfind.1 c hc1 hc2 (by simpa using hfind.2)

theorem holdsProducts_iff (ec1 ec2 ec : Example V) (h1 : ec1.Sorted) (h2 : ec2.Sorted) :
    HoldsProducts pow_half ec1 ec2 ec ↔ NamespacesMeet pow_half ec1 ec2 ∧
      ∀ c ∈ ec1.indices, c ∉ ec2.indices → (ec1.feature_space c).items = [] := by
  obtain ⟨ec', hrun, hindices, hspace⟩ := product_test_eq pow_half ec1 ec2 ec h1 h2
  rw [HoldsProducts, formsProducts_iff pow_half ec1 ec2 ec h1 h2]
  refine and_congr_right fun _ => ?_
  have hleft : ∀ c ∈ ec1.indices, c ∉ ec2.indices → ec'.feature_space c = ec1.feature_space c := by
    intro c hc1 hc2
    rw [(hspace c).2 fun h => hc2 h.2.1]
    exact if_pos hc1
  constructor
  · intro h c hc1 hc2
    rw [← hleft c hc1 hc2]
    exact h ec' hrun c (hindices ▸ hc1) hc2
  · intro h ec'' hrun' c hc hc2
    cases hrun.symm.trans hrun'
    rw [hindices] at hc
    rw [hleft c hc hc2]
    exact h c hc hc2

/-- `over_lap` and `hamming_loss` count the common and the other labels exactly when the labels are
    `Comparable`; and the products of two examples are formed exactly when their namespaces meet.
    What else the example holds is what it was copied from: the features of the namespaces that only
    the first one has. -/
theorem memory_tree_comparisons_iff (xs ys : List Label) (ec1 ec2 ec : Example V) (h1 : ec1.Sorted)
    (h2 : ec2.Sorted) :
    (Comparable xs ys → CountsLabels xs ys) ∧
    ((xs.length < 2 ^ 32 ↔ ys.length < 2 ^ 32) → CountsLabels xs ys → Comparable xs ys) ∧
    (FormsProducts pow_half ec1 ec2 ec ↔ NamespacesMeet pow_half ec1 ec2) ∧
    (HoldsProducts pow_half ec1 ec2 ec ↔ NamespacesMeet pow_half ec1 ec2 ∧
      ∀ c ∈ ec1.indices, c ∉ ec2.indices → (ec1.feature_space c).items = []) :=
  ⟨counts_of_comparable, comparable_of_counts, formsProducts_iff pow_half ec1 ec2 ec h1 h2,
    holdsProducts_iff pow_half ec1 ec2 ec h1 h2⟩

end

/-- The square roots of squares. -/
def exact_root (x : Rat) : Rat := (Nat.sqrt x.num.toNat : Nat)

/-- An example with one feature in the namespace `a` and the constant. -/
def letter_and_constant : Example Rat :=
  ⟨[97, 128], fun c => if c = 97 then empty.push_back 2 3 else empty, 4⟩

/-- Labels in common, and examples with a letter and the constant. -/
theorem memory_tree_comparisons_meet : CountsLabels [1, 2] [2] ∧
    FormsProducts exact_root letter_and_constant letter_and_constant letter_and_constant := by
  have hsorted : letter_and_constant.Sorted := by
    intro c _
    unfold letter_and_constant
    dsimp only
    split
    · exact pairwise_singleton _ _
    · exact List.Pairwise.nil
  obtain ⟨hcounts, -, hforms, -⟩ := memory_tree_comparisons_iff exact_root [1, 2] [2] letter_and_constant
    letter_and_constant letter_and_constant hsorted hsorted
  have hnear : Near [1, 2] ∧ Near [2] := by simp [Near]
  refine ⟨hcounts ⟨by decide, .inr (.inr ⟨by simp, by simp, by decide, by decide, .inl hnear⟩)⟩, ?_⟩
  exact hforms.mpr (.inl fun _ _ _ => rfl)

/-- The label 0 of both lists is not found: the first list is sorted as `2^32 - 1, 0`. -/
theorem not_counts_labels_wrapped : ¬ CountsLabels [4294967295, 0] [0] := by
  rintro ⟨m, h⟩
  obtain ⟨overlap, loss, hrun, hcard, -⟩ := h (m + 4) (le_add_right m 4)
  have hconsistent : Cpp.Consistent compare_label [4294967295, 0] := by decide
  have hsort : qsort compare_label [4294967295, 0] = .ok [4294967295, 0] := by
    rw [qsort, if_pos hconsistent]
    exact congrArg Except.ok (by decide)
  have hsort' : qsort compare_label [0] = .ok [0] := if_pos (by decide)
  rw [over_lap, if_neg (by decide), hsort, ok_bind, hsort', ok_bind] at hrun
  cases hrun
  exact absurd hcard (by decide)

end VW.MemoryTree
