import VowpalWabbit.Framework.Lowering
import Mathlib.Algebra.BigOperators.Ring.List
import Mathlib.Data.List.Sort

/-! # Minimum probabilities

    `enforce_minimum_probability` of the exploration library, over exact
    rationals. It sorts the probabilities, goes through them once to find the
    entries that stay above the minimum and lowers these by a common amount.
-/

open Cpp

namespace VW.Explore

open List

/-! ## The source -/

def S_EXPLORATION_OK : Int := 0
def E_EXPLORATION_BAD_RANGE : Int := 1
def E_EXPLORATION_BAD_EPSILON : Int := 4

/-- The `float` that `0.999f` stands for. -/
def nearly_one : ℚ := 16760439 / 16777216

/-- The locals of the loop over the sorted probabilities. -/
structure Scan where
  idx : Nat
  running_sum : ℚ
  rho_idx : Nat
  rho_sum : ℚ

/-- One round of the loop. -/
def Scan.step (support_size : Nat) (minimum_probability : ℚ) (s : Scan) (prob : ℚ) : Scan :=
  let running_sum := s.running_sum + prob
  if prob > (((support_size - s.idx - 1 : Nat) : ℚ) * minimum_probability + running_sum - 1)
      / ((s.idx : ℚ) + 1) + minimum_probability then
    { idx := s.idx + 1, running_sum, rho_idx := s.idx, rho_sum := running_sum }
  else
    { s with idx := s.idx + 1, running_sum }

/-- The loop, which ends early at a zero that is not considered. -/
def Scan.run (support_size : Nat) (minimum_probability : ℚ) (consider_zero_valued_elements : Bool) :
    Scan → List ℚ → Scan
  | s, [] => s
  | s, prob :: sorted_probs =>
    if !consider_zero_valued_elements && prob == 0 then
      s
    else
      Scan.run support_size minimum_probability consider_zero_valued_elements
        (s.step support_size minimum_probability prob) sorted_probs

/-- The amount that the entries above the minimum are lowered by. -/
def Scan.tau (support_size : Nat) (minimum_probability : ℚ) (s : Scan) : ℚ :=
  (((support_size - s.rho_idx : Nat) - 1) * minimum_probability + s.rho_sum - 1) / ((s.rho_idx : ℚ) + 1)

/-- The entries that are updated. -/
def considered (consider_zero_valued_elements : Bool) (prob : ℚ) : Bool :=
  consider_zero_valued_elements || decide (prob > 0)

def support_size (consider_zero_valued_elements : Bool) (pmf : List ℚ) : Nat :=
  if consider_zero_valued_elements then pmf.length else pmf.length - pmf.count 0

/-- `enforce_minimum_probability`: the code that it returns and the new values of
    the range. -/
def enforce_minimum_probability (uniform_epsilon : ℚ) (consider_zero_valued_elements : Bool)
    (pmf : List ℚ) : Int × List ℚ :=
  if pmf.isEmpty then
    (E_EXPLORATION_BAD_RANGE, pmf)
  else if uniform_epsilon = 0 then
    (S_EXPLORATION_OK, pmf)
  else if uniform_epsilon < 0 ∨ uniform_epsilon > 1 then
    (E_EXPLORATION_BAD_EPSILON, pmf)
  else
    let support_size := support_size consider_zero_valued_elements pmf
    if uniform_epsilon > nearly_one then
      (S_EXPLORATION_OK, pmf.map fun prob =>
        if considered consider_zero_valued_elements prob then 1 / (support_size : ℚ) else prob)
    else
      let minimum_probability := uniform_epsilon / support_size
      let sorted_probs := pmf.insertionSort (· ≥ ·)
      let init : Scan := { idx := 0, running_sum := 0, rho_idx := 0, rho_sum := sorted_probs.headD 0 }
      let scan := Scan.run support_size minimum_probability consider_zero_valued_elements
        init sorted_probs
      let tau := scan.tau support_size minimum_probability
      (S_EXPLORATION_OK, pmf.map fun prob =>
        if considered consider_zero_valued_elements prob then
          max (prob - tau) minimum_probability
        else prob)

example : enforce_minimum_probability (3 / 10) true [1, 0, 0] = (0, [4 / 5, 1 / 10, 1 / 10]) := by
  decide +kernel

example : enforce_minimum_probability (3 / 5) false [9 / 10, 1 / 10, 0] = (0, [7 / 10, 3 / 10, 0]) := by
  decide +kernel

/-! ## The loop -/

variable {size : Nat} {m p : ℚ} {seen sorted_probs pmf : List ℚ} {s : Scan}

/-- What the loop knows about the probabilities seen so far. -/
structure Scanned (size : Nat) (m : ℚ) (seen : List ℚ) (s : Scan) : Prop where
  idx : s.idx = seen.length
  running_sum : s.running_sum = seen.sum
  split : ∃ front back, seen = front ++ back ∧ FloorSplit size m front back ∧
    front.length = s.rho_idx + 1 ∧ front.sum = s.rho_sum

/-- The right side of the test of a round, without the minimum. -/
theorem test_eq_level (hidx : s.idx = seen.length) (hsum : s.running_sum = seen.sum)
    (hsize : seen.length + 1 ≤ size) :
    (((size - s.idx - 1 : Nat) : ℚ) * m + (s.running_sum + p) - 1) / ((s.idx : ℚ) + 1)
      = level size m (seen ++ [p]) := by
  have hcast : ((size - s.idx - 1 : Nat) : ℚ) = size - (seen.length + 1) := by
    rw [hidx, Nat.sub_sub, Nat.cast_sub hsize]
    push_cast
    ring
  unfold level
  rw [hcast, hidx, hsum, sum_append, sum_singleton, length_append,
    length_singleton]
  push_cast
  ring

theorem Scanned.step (h : Scanned size m seen s) (hle : ∀ y ∈ seen, p ≤ y)
    (hsize : seen.length + 1 ≤ size) : Scanned size m (seen ++ [p]) (s.step size m p) := by
  have htest := test_eq_level (m := m) (p := p) h.idx h.running_sum hsize
  have hlength : s.idx + 1 = (seen ++ [p]).length := by
    rw [h.idx, length_append, length_singleton]
  have hsum : s.running_sum + p = (seen ++ [p]).sum := by
    rw [h.running_sum, sum_append, sum_singleton]
  obtain ⟨front, back, hseen, hsplit, hrho, hrho_sum⟩ := h.split
  unfold Scan.step
  simp only [htest]
  split
  case isTrue habove =>
    have hsplit' : FloorSplit size m (seen ++ [p]) [] := by
      apply FloorSplit.all_above hle
      linarith
    exact ⟨hlength, hsum, seen ++ [p], [], (append_nil _).symm, hsplit', hlength.symm, hsum.symm⟩
  case isFalse hbelow =>
    have hback : ∀ y ∈ back, p ≤ y := fun y hy => hle y (hseen ▸ mem_append_right front hy)
    have hsplit' : FloorSplit size m front (back ++ [p]) := by
      apply hsplit.snoc_below hback
      rw [← hseen]
      linarith
    refine ⟨hlength, hsum, front, back ++ [p], ?_, hsplit', hrho, hrho_sum⟩
    rw [hseen, append_assoc]

/-- The first round takes the first probability in any case. -/
theorem Scanned.first (hm : size * m < 1) (hsize : 1 ≤ size) (rho_sum : ℚ) :
    Scanned size m [p] (Scan.step size m ⟨0, 0, 0, rho_sum⟩ p) := by
  have htest := @test_eq_level size m p [] ⟨0, 0, 0, rho_sum⟩ rfl rfl hsize
  have hlevel : level size m [p] < p - m := by
    unfold level
    simp only [length_singleton, sum_singleton, Nat.cast_one, div_one]
    linarith
  have hnone : ∀ y ∈ ([] : List ℚ), p ≤ y := by simp
  have hsplit : FloorSplit size m ([] ++ [p]) [] := FloorSplit.all_above hnone hlevel
  unfold Scan.step
  simp only [htest]
  rw [if_pos]
  · exact ⟨rfl, by simp, [p], [], rfl, hsplit, rfl, by simp⟩
  · simp only [nil_append]
    linarith

theorem Scanned.rounds {rest : List ℚ} (h : Scanned size m seen s)
    (hsorted : (seen ++ rest).Pairwise (· ≥ ·)) (hsize : (seen ++ rest).length ≤ size) :
    Scanned size m (seen ++ rest) (rest.foldl (Scan.step size m) s) := by
  induction rest generalizing seen s with
  | nil => rwa [append_nil]
  | cons p rest ih =>
    have hle : ∀ y ∈ seen, p ≤ y := fun y hy =>
      (pairwise_append.mp hsorted).2.2 y hy p mem_cons_self
    have hroom : seen.length + 1 ≤ size := by
      rw [length_append, length_cons] at hsize
      omega
    rw [append_cons] at hsorted hsize ⊢
    exact ih (h.step hle hroom) hsorted hsize

/-- The loop goes through the probabilities before the first zero that is not
    considered. -/
theorem run_eq_foldl (consider : Bool) (s : Scan) (probs : List ℚ) :
    Scan.run size m consider s probs
      = (probs.takeWhile fun p => !(!consider && p == 0)).foldl (Scan.step size m) s := by
  induction probs generalizing s with
  | nil => rfl
  | cons p probs ih =>
    unfold Scan.run
    rw [takeWhile_cons]
    split
    case isTrue hzero => simp [hzero]
    case isFalse hgo => simp [hgo, ih]

/-! ## The considered entries -/

/-- In a descending list the entries that are not considered are the last ones. -/
theorem takeWhile_eq_considered (consider : Bool) {probs : List ℚ}
    (hsorted : probs.Pairwise (· ≥ ·)) (hnonneg : ∀ p ∈ probs, 0 ≤ p) :
    (probs.takeWhile fun p => !(!consider && p == 0)) = probs.filter (considered consider) := by
  induction probs with
  | nil => rfl
  | cons p probs ih =>
    have hp := hnonneg p mem_cons_self
    have hprobs : ∀ q ∈ probs, 0 ≤ q := fun q hq => hnonneg q (mem_cons_of_mem p hq)
    rw [pairwise_cons] at hsorted
    rw [takeWhile_cons, filter_cons, ih hsorted.2 hprobs]
    cases consider with
    | true => simp [considered]
    | false =>
      rcases hp.eq_or_lt with rfl | hpos
      · -- all that follows a zero is zero
        have hnone : probs.filter (considered false) = [] := by
          apply filter_eq_nil_iff.mpr
          intro q hq
          have hq0 : q ≤ 0 := hsorted.1 q hq
          simpa [considered] using hq0
        simp [considered, hnone]
      · simp [considered, hpos, hpos.ne']

theorem length_considered (consider : Bool) (hnonneg : ∀ p ∈ pmf, 0 ≤ p) :
    (pmf.filter (considered consider)).length = support_size consider pmf := by
  cases consider with
  | true => simp [support_size, considered]
  | false =>
    have hcount : ∀ p ∈ pmf, (considered false p) = (!(p == 0)) := by
      intro p hp
      rcases (hnonneg p hp).eq_or_lt with rfl | hpos
      · simp [considered]
      · simp [considered, hpos, hpos.ne']
    have hlength := length_eq_countP_add_countP (p := fun q : ℚ => q == 0) (l := pmf)
    rw [filter_congr hcount, ← countP_eq_length_filter]
    simp only [support_size, Bool.false_eq_true, if_false, count] at hlength ⊢
    have hnot : (pmf.countP fun p => !(p == 0)) = pmf.countP fun p => decide ¬(p == 0) = true := by
      apply countP_congr
      intro p _
      simp
    omega

/-! ## What the new values are -/

/-- The old values and the new ones: they are as many, the new ones sum to one,
    and what `p` becomes is at least the minimum when `p` is considered, stays
    zero when it is not, is not more than `p` when that is on the minimum or
    above, and is in the order of the old values. -/
structure Enforced (uniform_epsilon : ℚ) (consider_zero_valued_elements : Bool)
    (pmf out : List ℚ) : Prop where
  length : out.length = pmf.length
  sum : out.sum = 1
  floor : ∀ x ∈ pmf.zip out, considered consider_zero_valued_elements x.1 = true →
    uniform_epsilon / support_size consider_zero_valued_elements pmf ≤ x.2
  zeros : consider_zero_valued_elements = false → ∀ x ∈ pmf.zip out, x.1 = 0 → x.2 = 0
  not_raised : 1 ≤ pmf.sum → ∀ x ∈ pmf.zip out,
    uniform_epsilon / support_size consider_zero_valued_elements pmf ≤ x.1 → x.2 ≤ x.1
  order : ∀ x ∈ pmf.zip out, ∀ y ∈ pmf.zip out, x.1 ≤ y.1 → x.2 ≤ y.2

/-- The sums over all entries are those over the considered ones. -/
theorem sum_considered (consider : Bool) (f : ℚ → ℚ) (hnonneg : ∀ p ∈ pmf, 0 ≤ p) :
    (pmf.map fun p => if considered consider p then f p else p).sum
      = ((pmf.filter (considered consider)).map f).sum := by
  induction pmf with
  | nil => rfl
  | cons p pmf ih =>
    have hp := hnonneg p mem_cons_self
    rw [map_cons, sum_cons, ih fun q hq => hnonneg q (mem_cons_of_mem p hq),
      filter_cons]
    split
    case isTrue => rw [map_cons, sum_cons]
    case isFalse hnot =>
      have hp0 : p = 0 := by
        simp only [considered, Bool.or_eq_true, decide_eq_true_eq, not_or, not_lt] at hnot
        exact le_antisymm hnot.2 hp
      rw [hp0, zero_add]

variable {uniform_epsilon : ℚ} {consider : Bool}

/-- After the loop the considered entries are split at the minimum, and `tau` is
    the level of the split. -/
theorem scan_splits (hlt : uniform_epsilon < 1) (hnonneg : ∀ p ∈ pmf, 0 ≤ p)
    (hsome : ∃ p ∈ pmf, considered consider p = true) (rho_sum : ℚ) :
    ∃ front back, (front ++ back).Perm (pmf.filter (considered consider)) ∧
      FloorSplit (support_size consider pmf) (uniform_epsilon / support_size consider pmf)
        front back ∧
      (Scan.run (support_size consider pmf) (uniform_epsilon / support_size consider pmf) consider
        ⟨0, 0, 0, rho_sum⟩ (pmf.insertionSort (· ≥ ·))).tau (support_size consider pmf)
          (uniform_epsilon / support_size consider pmf)
        = level (support_size consider pmf) (uniform_epsilon / support_size consider pmf) front := by
  have hlength := length_considered consider hnonneg
  generalize support_size consider pmf = size at *
  have hperm : (pmf.insertionSort (· ≥ ·)).Perm pmf := perm_insertionSort _ pmf
  have hsorted : (pmf.insertionSort (· ≥ ·)).Pairwise (· ≥ ·) := pairwise_insertionSort _ pmf
  have hloop := takeWhile_eq_considered consider hsorted fun p hp => hnonneg p (hperm.mem_iff.mp hp)
  have hfilter := hperm.filter (considered consider)
  have hdescending := hsorted.filter (considered consider)
  rw [run_eq_foldl, hloop]
  generalize (pmf.insertionSort (· ≥ ·)).filter (considered consider) = probs at *
  have hsize : probs.length = size := hfilter.length_eq.trans hlength
  obtain ⟨q, hq, hqc⟩ := hsome
  have hmem : q ∈ probs := hfilter.mem_iff.mpr (mem_filter.mpr ⟨hq, hqc⟩)
  have hpos : 1 ≤ size := by
    rw [← hsize]
    exact length_pos_of_mem hmem
  have hm : (size : ℚ) * (uniform_epsilon / size) < 1 := by
    rw [mul_div_cancel₀]
    · exact hlt
    · exact_mod_cast (by omega : size ≠ 0)
  obtain ⟨p, rest, rfl⟩ : ∃ p rest, probs = p :: rest := exists_cons_of_ne_nil (ne_nil_of_mem hmem)
  have hscanned : Scanned size (uniform_epsilon / size) ([p] ++ rest)
      (rest.foldl (Scan.step size (uniform_epsilon / size))
        (Scan.step size (uniform_epsilon / size) ⟨0, 0, 0, rho_sum⟩ p)) :=
    (Scanned.first hm hpos rho_sum).rounds hdescending hsize.le
  rw [foldl_cons]
  generalize rest.foldl _ _ = s at *
  obtain ⟨front, back, hseen, hsplit, hrho, hrho_sum⟩ := hscanned.split
  have hparts : p :: rest = front ++ back := hseen
  refine ⟨front, back, hparts ▸ hfilter, hsplit, ?_⟩
  have hle : s.rho_idx ≤ size := by
    rw [hparts, length_append] at hsize
    omega
  unfold Scan.tau level
  rw [hrho, hrho_sum, Nat.cast_sub hle]
  push_cast
  ring

theorem mem_zip_map {A B : Type} {l : List A} {f : A → B} {x : A × B} (h : x ∈ l.zip (l.map f)) :
    x.1 ∈ l ∧ x.2 = f x.1 := by
  rw [zip_map_right] at h
  obtain ⟨y, hy, rfl⟩ := mem_map.mp h
  have hsame : y.2 = y.1 := by
    obtain ⟨i, hi, hget⟩ := mem_iff_getElem.mp hy
    rw [getElem_zip] at hget
    rw [← hget]
  exact ⟨(of_mem_zip hy).1, congrArg f hsame⟩

/-- Values lowered by `tau` are as they should be when they sum to one and, for
    a sum of at least one before, `tau` is not negative. -/
theorem Enforced.of_lowered {tau : ℚ} (hnonneg : ∀ p ∈ pmf, 0 ≤ p)
    (hminimum : 0 < uniform_epsilon / support_size consider pmf)
    (hsum : ((pmf.filter (considered consider)).map fun p =>
      max (p - tau) (uniform_epsilon / support_size consider pmf)).sum = 1)
    (htau : 1 ≤ pmf.sum → 0 ≤ tau) :
    Enforced uniform_epsilon consider pmf (pmf.map fun p =>
      if considered consider p then max (p - tau) (uniform_epsilon / support_size consider pmf)
      else p) := by
  have hnot : ∀ {p : ℚ}, 0 ≤ p → ¬considered consider p = true → consider = false ∧ p = 0 := by
    intro p hp hnot
    simp only [considered, Bool.or_eq_true, decide_eq_true_eq, not_or, not_lt,
      Bool.not_eq_true] at hnot
    exact ⟨hnot.1, le_antisymm hnot.2 hp⟩
  constructor
  case length => rw [length_map]
  case sum => rw [sum_considered consider _ hnonneg, hsum]
  case floor =>
    intro x hx hc
    rw [(mem_zip_map hx).2, if_pos hc]
    exact le_max_right _ _
  case zeros =>
    intro hfalse x hx hzero
    have hout : ¬considered consider x.1 = true := by
      simp [considered, hfalse, hzero]
    rw [(mem_zip_map hx).2, if_neg hout, hzero]
  case not_raised =>
    intro hone x hx hle
    have hc : considered consider x.1 = true := by
      have hpos := hminimum.trans_le hle
      simp [considered, hpos]
    rw [(mem_zip_map hx).2, if_pos hc]
    exact lowered_le (htau hone) hle
  case order =>
    intro x hx y hy hxy
    obtain ⟨hx, hxout⟩ := mem_zip_map hx
    obtain ⟨hy, hyout⟩ := mem_zip_map hy
    rw [hxout, hyout]
    by_cases hcx : considered consider x.1 = true
    · -- what is not less than a considered entry is considered
      have hcy : considered consider y.1 = true := by
        simp only [considered, Bool.or_eq_true, decide_eq_true_eq] at hcx ⊢
        exact hcx.imp_right fun h => h.trans_le hxy
      rw [if_pos hcx, if_pos hcy]
      exact lowered_le_lowered hxy
    · rw [if_neg hcx, (hnot (hnonneg _ hx) hcx).2]
      split
      case isTrue => exact hminimum.le.trans (le_max_right _ _)
      case isFalse => exact hnonneg _ hy

theorem nearly_one_lt : nearly_one < 1 := by
  unfold nearly_one
  norm_num

/-- The new values are the old ones lowered to sum to one above the minimum. -/
theorem enforce_minimum_probability_enforces {uniform_epsilon : ℚ} {consider : Bool}
    (hpos : 0 < uniform_epsilon) (hle : uniform_epsilon ≤ nearly_one)
    (hnonneg : ∀ p ∈ pmf, 0 ≤ p) (hsome : ∃ p ∈ pmf, considered consider p = true) :
    ∃ out, enforce_minimum_probability uniform_epsilon consider pmf = (S_EXPLORATION_OK, out) ∧
      Enforced uniform_epsilon consider pmf out := by
  have hlt := hle.trans_lt nearly_one_lt
  obtain ⟨front, back, hparts, hsplit, htau⟩ :=
    scan_splits hlt hnonneg hsome ((pmf.insertionSort (· ≥ ·)).headD 0)
  have hsize : front.length + back.length = support_size consider pmf := by
    rw [← length_considered consider hnonneg, ← hparts.length_eq, length_append]
  have hempty : pmf.isEmpty = false := by
    obtain ⟨q, hq, _⟩ := hsome
    rw [isEmpty_eq_false_iff]
    exact ne_nil_of_mem hq
  have hrange : ¬(uniform_epsilon < 0 ∨ uniform_epsilon > 1) := by
    rintro (h | h) <;> linarith
  unfold enforce_minimum_probability
  simp only [hempty, Bool.false_eq_true, if_false, if_neg hpos.ne', if_neg hrange,
    if_neg hle.not_gt, htau]
  refine ⟨_, rfl, ?_⟩
  apply Enforced.of_lowered hnonneg
  · apply div_pos hpos
    have hfront := length_pos_iff.mpr hsplit.nonempty
    exact_mod_cast (by omega : 0 < support_size consider pmf)
  · rw [← (hparts.map _).sum_eq]
    exact hsplit.sum_lowered hsize
  · intro hsum
    have hall := sum_considered consider id hnonneg
    simp only [id, ite_self, map_id'] at hall
    rw [map_id] at hall
    apply hsplit.level_nonneg hsize
    rwa [hparts.sum_eq, ← hall]

/-- One of two considered entries ends on the minimum, the zero stays. -/
theorem enforce_minimum_probability_three :
    ∃ out, enforce_minimum_probability (3 / 5) false [9 / 10, 1 / 10, 0] = (S_EXPLORATION_OK, out) ∧
      Enforced (3 / 5) false [9 / 10, 1 / 10, 0] out := by
  apply enforce_minimum_probability_enforces
  · norm_num
  · unfold nearly_one
    norm_num
  · intro p hp
    simp only [mem_cons, not_mem_nil, or_false] at hp
    rcases hp with rfl | rfl | rfl <;> norm_num
  · exact ⟨9 / 10, mem_cons_self, by decide +kernel⟩

end VW.Explore
