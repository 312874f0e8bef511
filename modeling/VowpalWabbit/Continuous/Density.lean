import VowpalWabbit.Continuous.PmfToPdf

/-! # The density of a predicted leaf

    The limits are written by a loop that treats a centre below `b` on its own, and takes it that
    such a segment begins at `min_value`. This is right for a range above 0. For a range that
    begins below 0 the centre can be below `b` while `centre - b` is in the range; then the
    segment around the centre gets no mass. In all other cases the segments are the plateau
    around the centre.
-/

open Cpp Steps

namespace VW.Continuous

section Limits

variable {data : PmfToPdf} {centre b : ℚ} {n : Nat}

/-- A single action whose centre is `b` or more: both limits are written. -/
theorem limits_above (hb : 0 < b) (hle : b ≤ centre) (pdf_lim : List ℚ) :
    limits data centre b 1 2 0 0 pdf_lim =
      .ok (push_new pdf_lim (max (centre - b) data.min_value) ++ [min (centre + b) data.max_value]) := by
  have hupper : ¬ centre + b < centre - b := by linarith
  have hlower : centre - b < centre + b := by linarith
  simp [limits, hle, hupper, hlower]

/-- A single action whose centre is below `b`: the upper limit is written. -/
theorem limits_below (hlt : centre < b) (pdf_lim : List ℚ) :
    limits data centre b 1 2 0 0 pdf_lim = .ok (pdf_lim ++ [min (centre + b) data.max_value]) := by
  simp [limits, not_le.mpr hlt]

/-- The first limits, with the lower limit of a segment that ends at most in the middle of the range. -/
def lower_limits (data : PmfToPdf) (centre b : ℚ) : List ℚ :=
  if data.min_value < centre - b then [data.min_value, centre - b] else [data.min_value]

/-- A centre that is `b` or more, or whose segment reaches the lower end. -/
theorem limits_single (hb : 0 < b) (hgood : ¬ (centre < b ∧ data.min_value ≤ centre - b)) :
    limits data centre b 1 2 0 0 (if centre - b ≠ data.min_value then [data.min_value] else []) =
      .ok (lower_limits data centre b ++ [min (centre + b) data.max_value]) := by
  rcases lt_or_ge centre b with hlt | hle
  · have hbelow : centre - b < data.min_value := not_le.mp fun h => hgood ⟨hlt, h⟩
    rw [limits_below hlt, if_pos hbelow.ne, lower_limits, if_neg hbelow.not_gt]
  · rw [limits_above hb hle]
    rcases lt_trichotomy data.min_value (centre - b) with hin | heq | hout
    · simp [lower_limits, push_new, hin, hin.le, hin.ne, hin.ne']
    · simp [lower_limits, push_new, ← heq]
    · simp [lower_limits, push_new, hout.le, hout.ne, hout.not_gt]

/-- The segments between the limits of a single action. -/
theorem segments_single (score : ℚ) :
    segments data centre b score 1 0 (lower_limits data centre b ++ [min (centre + b) data.max_value] ++
      if centre + b < data.max_value then [data.max_value] else []) =
    plateau data.min_value data.max_value (centre - b) (centre + b)
      (score / (min data.max_value (centre + b) - max data.min_value (centre - b))) := by
  by_cases hin : data.min_value < centre - b
  · have hnot : ¬ centre - data.min_value < b := by linarith
    by_cases htop : centre + b < data.max_value
    · simp [lower_limits, plateau, segments, hin, hin.le, hin.ne, hnot, htop, htop.le]
    · simp [lower_limits, plateau, segments, hin, hin.le, hin.ne, hnot, htop, not_lt.mp htop]
  · have hat : centre - data.min_value < b ∨ data.min_value = centre - b := by
      rcases lt_or_eq_of_le (not_lt.mp hin) with hlt | heq
      · exact .inl (by linarith)
      · exact .inr heq.symm
    by_cases htop : centre + b < data.max_value
    · simp [lower_limits, plateau, segments, hin, hat, not_lt.mp hin, htop, htop.le]
    · simp [lower_limits, plateau, segments, hin, hat, not_lt.mp hin, htop, not_lt.mp htop]

/-- A segment gets the mass only if it begins at the lower limit, or at the lower end. -/
theorem segments_zero {score : ℚ} (hin : data.min_value ≤ centre - b) {lims : List ℚ}
    (hnot : centre - b ∉ lims) (l : Nat) :
    ∀ s ∈ segments data centre b score n l lims, s.value = 0 := by
  have hlow : ¬ centre - data.min_value < b := by linarith
  induction lims with
  | nil => simp [segments]
  | cons left rest ih =>
    obtain ⟨hne, hrest⟩ := not_or.mp (mt List.mem_cons.mpr hnot)
    cases rest with
    | nil => simp [segments]
    | cons right rest =>
      have hleft : ¬ (l < n ∧ ((centre - data.min_value < b ∧ left = data.min_value) ∨ left = centre - b)) := by
        simp [hlow, Ne.symm hne]
      simp only [segments, if_neg hleft, List.mem_cons]
      intro s hs
      rcases hs with heq | hmem
      · rw [heq]
      · exact ih hrest s hmem

end Limits

section Single

variable {data : PmfToPdf} {action : Nat} {score : ℚ}

/-- A prediction of one action, with what its limits are. -/
theorem transform_prediction_eq {lims : List ℚ}
    (hlims : limits data (data.centre action) data.b 1 2 0 0
      (if data.centre action - data.b ≠ data.min_value then [data.min_value] else []) = .ok lims) :
    transform_prediction data [⟨action, score⟩] = .ok (segments data (data.centre action) data.b score 1 0
      (if lims.getLast? ≠ some data.max_value then lims ++ [data.max_value] else lims)) := by
  simp only [transform_prediction]
  change (limits data (data.centre action) data.b 1 2 0 0 _ >>= _) = _
  rw [hlims]
  rfl

/-- The centre is `b` or more, or its segment reaches the lower end: the plateau around the centre. -/
theorem transform_prediction_plateau (h : data.min_value < data.max_value)
    (hgood : ¬ (data.centre action < data.b ∧ data.min_value ≤ data.centre action - data.b)) :
    transform_prediction data [⟨action, score⟩] =
      .ok (plateau data.min_value data.max_value (data.centre action - data.b)
      (data.centre action + data.b) (score / (min data.max_value (data.centre action + data.b) -
        max data.min_value (data.centre action - data.b)))) := by
  have hlast : ∀ lims,
    (if (lims ++ [min (data.centre action + data.b) data.max_value]).getLast? ≠ some data.max_value
      then lims ++ [min (data.centre action + data.b) data.max_value] ++ [data.max_value]
      else lims ++ [min (data.centre action + data.b) data.max_value]) =
      lims ++ [min (data.centre action + data.b) data.max_value] ++
        if data.centre action + data.b < data.max_value then [data.max_value] else [] := by
    intro lims
    by_cases htop : data.centre action + data.b < data.max_value
    · simp [htop, htop.le, htop.ne]
    · simp [htop, not_lt.mp htop]
  rw [transform_prediction_eq (limits_single (b_pos h) hgood), hlast,
    segments_single]

/-- The centre is below `b` and its segment is inside: no segment has a value. -/
theorem transform_prediction_lost (h : data.min_value < data.max_value)
    (haction : action < data.num_actions) (hlt : data.centre action < data.b)
    (hin : data.min_value ≤ data.centre action - data.b) :
    ∃ pdf, transform_prediction data [⟨action, score⟩] = .ok pdf ∧ integral pdf = 0 := by
  have hb := b_pos h
  have hhigh := centre_lt_max_value h haction
  refine ⟨_, transform_prediction_eq (limits_below hlt _), integral_zero (segments_zero hin ?_ 0)⟩
  -- the lower limit is not among the limits
  have hupper : data.centre action - data.b < min (data.centre action + data.b) data.max_value :=
    lt_min (by linarith) (by linarith)
  have htop : data.centre action - data.b < data.max_value := by linarith
  have hfirst : data.centre action - data.b ∉
      (if data.centre action - data.b ≠ data.min_value then [data.min_value] else []) := by
    split
    · next hne => simpa using hne
    · simp
  have hwritten : data.centre action - data.b ∉
      (if data.centre action - data.b ≠ data.min_value then [data.min_value] else []) ++
        [min (data.centre action + data.b) data.max_value] := by
    intro hmem
    rcases List.mem_append.mp hmem with hmem | hmem
    · exact hfirst hmem
    · exact hupper.ne (List.mem_singleton.mp hmem)
  generalize (if data.centre action - data.b ≠ data.min_value then [data.min_value] else []) ++
    [min (data.centre action + data.b) data.max_value] = lims at hwritten ⊢
  split
  · intro hmem
    rcases List.mem_append.mp hmem with hmem | hmem
    · exact hwritten hmem
    · exact htop.ne (List.mem_singleton.mp hmem)
  · exact hwritten

/-- The density is right, for a positive score, except for a centre below `b` with its segment in the range. -/
theorem transform_prediction_uniform_iff (data : PmfToPdf) (action : Nat) (score : ℚ)
    (h : data.min_value < data.max_value) (haction : action < data.num_actions) :
    (∃ pdf, transform_prediction data [⟨action, score⟩] = .ok pdf ∧
      Uniform data.min_value data.max_value (data.centre action - data.b) (data.centre action + data.b) score pdf) ↔
    0 < score ∧ ¬ (data.centre action < data.b ∧ data.min_value ≤ data.centre action - data.b) := by
  have hb := b_pos h
  have hlow := min_value_lt_centre h action
  have hhigh := centre_lt_max_value h haction
  constructor
  · intro ⟨pdf, hpdf, huniform⟩
    have hscore : 0 < score := huniform.pos h (by linarith) (by linarith) (by linarith)
    refine ⟨hscore, fun ⟨hlt, hin⟩ => ?_⟩
    obtain ⟨pdf', hpdf', hzero⟩ := @transform_prediction_lost data action score h haction hlt hin
    cases hpdf.symm.trans hpdf'
    rw [huniform.mass] at hzero
    exact hscore.ne' hzero
  · intro ⟨hscore, hgood⟩
    exact ⟨_, transform_prediction_plateau h hgood,
      plateau_uniform (by linarith) (by linarith) (by linarith) h hscore⟩

end Single

/-- Two leaves from 0 to 4 and a bandwidth of 1. -/
def zero_to_four : PmfToPdf where
  num_actions := 2
  tree_bandwidth := 1
  bandwidth := 1
  min_value := 0
  max_value := 4
  first_only := false
  num_actions_pos := by decide
  num_actions_fits := by decide
  tree_bandwidth_fits := by decide
  bandwidth_nonneg := by decide

/-- The first action of the range from 0 to 4. -/
theorem transform_prediction_uniform_iff_first :
    (∃ pdf, transform_prediction zero_to_four [⟨0, 1⟩] = .ok pdf ∧
      Uniform 0 4 (zero_to_four.centre 0 - zero_to_four.b)
      (zero_to_four.centre 0 + zero_to_four.b) 1 pdf) ↔
    (0 : ℚ) < 1 ∧ ¬ (zero_to_four.centre 0 < zero_to_four.b ∧ 0 ≤ zero_to_four.centre 0 - zero_to_four.b) :=
  transform_prediction_uniform_iff zero_to_four 0 1 (by decide) (by decide)

/-- The same two leaves from -4 to 0. -/
def four_below_zero : PmfToPdf where
  num_actions := 2
  tree_bandwidth := 1
  bandwidth := 1
  min_value := -4
  max_value := 0
  first_only := false
  num_actions_pos := by decide
  num_actions_fits := by decide
  tree_bandwidth_fits := by decide
  bandwidth_nonneg := by decide

/-- Below 0 the leaf gets no mass. -/
theorem four_below_zero_not_uniform : ¬ ∃ pdf, transform_prediction four_below_zero [⟨1, 1⟩] = .ok pdf ∧
    Uniform (-4) 0 (four_below_zero.centre 1 - four_below_zero.b)
      (four_below_zero.centre 1 + four_below_zero.b) 1 pdf := by
  rintro ⟨pdf, hpdf, huniform⟩
  have hzero : transform_prediction four_below_zero [⟨1, 1⟩] = .ok [⟨-4, 0, 0⟩] := by decide +kernel
  cases hpdf.symm.trans hzero
  have hmass : (0 : ℚ) = 1 := by simpa using huniform.mass
  exact absurd hmass (by decide)

end VW.Continuous
