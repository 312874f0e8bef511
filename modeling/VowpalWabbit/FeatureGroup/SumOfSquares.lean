import VowpalWabbit.FeatureGroup.Rows

/-! # The cached sum of squares

    `sum_feat_sq` is kept up to date by every operation on a feature group. A
    truncation that computes the sum of the section it removes multiplies each
    value by the first one of the section, and the removal of duplicates
    computes it when the rows have been moved already. `sum_condition` says
    when the result is the right one all the same; a run keeps the sum exactly
    as long as its steps are within it.
-/

open Cpp

namespace VW

open List Features

variable {V : Type} [CommRing V]

/-! ## Sums -/

theorem sum_squares_append (xs ys : List V) :
    sum_squares (xs ++ ys) = sum_squares xs + sum_squares ys := by
  unfold sum_squares
  rw [map_append, sum_append]

theorem sum_squares_perm {xs ys : List V} (h : xs.Perm ys) : sum_squares xs = sum_squares ys :=
  (h.map _).sum_eq

theorem sum_squares_take_drop (values : List V) (i : Nat) :
    sum_squares (values.take i) + sum_squares (values.drop i) = sum_squares values := by
  rw [← sum_squares_append, take_append_drop]

/-- What the truncation computes for the section it removes. -/
theorem sum_of_removed_chunk_cons (first : V) (rest : List V) :
    sum_of_removed_chunk (first :: rest)
      = ((first :: rest).map fun v => v * first).sum := by
  have hfold : ∀ (values : List V) (sum : V),
      values.foldl (fun sum v => sum + v * first) sum = sum + (values.map fun v => v * first).sum := by
    intro values
    induction values with
    | nil =>
      intro sum
      simp
    | cons v values ih =>
      intro sum
      rw [foldl_cons, ih, map_cons, sum_cons, add_assoc]
  show (first :: rest).foldl (fun sum v => sum + v * first) 0 = _
  rw [hfold, zero_add]

/-! ## The invariant and the condition -/

def Features.SumInvariant (f : Features V) : Prop := f.sum_feat_sq = sum_squares f.values

/-- The differences to the first value of the removed section cancel out. -/
def TruncatedSum (removed : List V) : Prop :=
  ∀ first ∈ removed.head?, (removed.map fun v => v * (v - first)).sum = 0

/-- The removed duplicates weigh as much as the values behind the rows that are
    kept, each multiplied by the first of these. -/
def UniqueSum (f : Features V) (max : BitVec 32) : Prop :=
  let kept := distinct (fun x => x.2) max f.items
  ∀ first ∈ (f.values.drop kept.length).head?,
    sum_squares (kept.map Prod.fst) + ((f.values.drop kept.length).map fun v => v * first).sum
      = sum_squares f.values

/-- The steps that keep the sum. -/
def sum_condition : StepCondition V where
  step f op :=
    match op with
    | .truncate_to i => TruncatedSum (f.values.drop i)
    | .unique_features max => max ≠ 0 → UniqueSum f max
    | _ => True
  concat _ _ := True

theorem truncatedSum_iff (removed : List V) :
    TruncatedSum removed ↔ sum_of_removed_chunk removed = sum_squares removed := by
  cases removed with
  | nil =>
    constructor
    · intro _
      rfl
    · intro _ first hfirst
      cases hfirst
  | cons first rest =>
    have hsub : ((first :: rest).map fun v => v * (v - first)).sum
        = sum_squares (first :: rest) - ((first :: rest).map fun v => v * first).sum := by
      generalize first :: rest = values
      unfold sum_squares
      induction values with
      | nil => simp
      | cons v values ih =>
        rw [map_cons, map_cons, map_cons, sum_cons, sum_cons, sum_cons,
          ih]
        ring
    rw [sum_of_removed_chunk_cons]
    constructor
    · intro h
      have := h first rfl
      rw [hsub, sub_eq_zero] at this
      exact this.symm
    · intro h first' hfirst
      cases hfirst
      rw [hsub, h, sub_self]

/-! ## Steps -/

namespace Features

theorem sum_truncate_to_given (f : Features V) (i : Nat) (sum : V) :
    (f.truncate_to_given i sum).SumInvariant ↔
      (if i = f.size then f.sum_feat_sq else f.sum_feat_sq - sum) = sum_squares (f.values.take i) := by
  unfold truncate_to_given SumInvariant
  by_cases heq : i = f.size
  · rw [if_pos heq, if_pos heq, heq]
    unfold size
    rw [take_length]
  · rw [if_neg heq, if_neg heq]

variable {f : Features V}

theorem sum_truncate_to (h : f.SumInvariant) (i : Nat) :
    (f.truncate_to i).SumInvariant ↔ TruncatedSum (f.values.drop i) := by
  unfold truncate_to
  rw [sum_truncate_to_given, truncatedSum_iff, h, ← sum_squares_take_drop f.values i]
  by_cases heq : i = f.size
  · -- Nothing is removed.
    have hdrop : f.values.drop i = [] := drop_eq_nil_of_le (by rw [heq]; exact le_refl _)
    rw [if_pos heq, hdrop]
    simp [sum_squares, sum_of_removed_chunk]
  · rw [if_neg heq]
    constructor
    · intro hsum
      linear_combination -hsum
    · intro hsum
      linear_combination -hsum

omit [CommRing V] in
theorem items_eq_rows (h : f.Closed) : f.items = f.rows.map fun row => (row.1, row.2.1) := by
  have hzip : f.rows.map (fun row => (row.1, row.2.1))
      = (f.rows.map fun row => row.1).zip (f.rows.map fun row => row.2.1) := by
    rw [zip_map']
  rw [hzip, map_value_rows h, map_index_rows h]
  rfl

/-- The removal of duplicates, when the limit is neither zero nor one. -/
theorem sum_unique_loop (h : f.SumInvariant) (hclosed : f.Closed) (hne : f.indices ≠ [])
    {max : BitVec 32} (h0 : max ≠ 0) (h1 : max ≠ 1) :
    (f.unique_features max).SumInvariant ↔ UniqueSum f max := by
  have hrows : f.rows ≠ [] := by
    intro hnil
    have := map_index_rows hclosed
    rw [hnil] at this
    exact hne this.symm
  obtain ⟨hlast, hspec⟩ := @unique_loop_distinct _ _ _
    (fun row : V × FeatureIndex × (Bool × BitVec 64) => row.2.1) _ h0 h1 _ hrows
  rw [length_rows hclosed] at hlast hspec
  set kept := distinct (fun row : V × FeatureIndex × (Bool × BitVec 64) => row.2.1) max f.rows with hkept
  have hitems : distinct (fun x : V × FeatureIndex => x.2) max f.items
      = kept.map fun row => (row.1, row.2.1) := by
    rw [items_eq_rows hclosed]
    exact distinct_map _ _ (fun _ => rfl) max f.rows
  have hvalues : (distinct (fun x : V × FeatureIndex => x.2) max f.items).map Prod.fst
      = kept.map fun row => row.1 := by
    rw [hitems, map_map]
    rfl
  have hlength : (distinct (fun x : V × FeatureIndex => x.2) max f.items).length = kept.length := by
    rw [hitems, length_map]
  -- The values after the loop: those that are kept, and the old ones behind them.
  have hmoved : (f.with_rows (unique_loop
      (fun row : V × FeatureIndex × (Bool × BitVec 64) => row.2.1) (max.signExtend 64).toNat
        (f.size - 1) 1 0 f.rows).2).values
      = kept.map (fun row => row.1) ++ f.values.drop kept.length := by
    show (map _ _) = _
    rw [hspec, map_append, map_drop, map_value_rows hclosed]
  unfold unique_features
  rw [if_neg hne, if_neg h0, if_neg h1]
  simp only
  rw [hlast]
  unfold truncate_to
  rw [sum_truncate_to_given, hmoved, take_append_of_le_length (by rw [length_map]),
    take_of_length_le (by rw [length_map]),
    drop_append_of_le_length (by rw [length_map]),
    drop_eq_nil_of_le (by rw [length_map]), nil_append]
  have hsub : kept.Sublist f.rows := distinct_sublist max f.rows
  have hle : kept.length ≤ f.size := by
    rw [← length_rows hclosed]
    exact hsub.length_le
  have hsize : (f.with_rows (unique_loop
      (fun row : V × FeatureIndex × (Bool × BitVec 64) => row.2.1) (max.signExtend 64).toNat
        (f.size - 1) 1 0 f.rows).2).size = f.size := by
    show length (values _) = _
    rw [hmoved, length_append, length_map, length_drop]
    show kept.length + (f.size - kept.length) = f.size
    omega
  have hsum : (f.with_rows (unique_loop
      (fun row : V × FeatureIndex × (Bool × BitVec 64) => row.2.1) (max.signExtend 64).toNat
        (f.size - 1) 1 0 f.rows).2).sum_feat_sq = sum_squares f.values := h
  unfold UniqueSum
  simp only [hvalues, hlength, hsize, hsum]
  by_cases hall : kept.length = f.size
  · -- There are no duplicates.
    have hsame : kept = f.rows := hsub.eq_of_length (by rw [hall, length_rows hclosed])
    have hdrop : f.values.drop kept.length = [] :=
      drop_eq_nil_of_le (by rw [hall]; exact le_refl _)
    rw [if_pos hall, hdrop, hsame, map_value_rows hclosed]
    constructor
    · intro _ first hfirst
      cases hfirst
    · intro _
      rfl
  · obtain ⟨first, rest, hdrop⟩ : ∃ first rest, f.values.drop kept.length = first :: rest :=
      exists_cons_of_ne_nil fun hnil => by
        have := drop_eq_nil_iff.mp hnil
        exact hall (le_antisymm hle this)
    rw [if_neg hall, hdrop, sum_of_removed_chunk_cons]
    constructor
    · intro hs first' hfirst
      cases hfirst
      linear_combination -hs
    · intro hs
      have := hs first rfl
      linear_combination -this

theorem sum_unique_features (h : f.SumInvariant) (hclosed : f.Closed) (max : BitVec 32) :
    (f.unique_features max).SumInvariant ↔ (max ≠ 0 → UniqueSum f max) := by
  by_cases hempty : f.indices = []
  · have hvalues : f.values = [] := by
      apply length_eq_zero_iff.mp
      rw [f.size_eq, hempty]
      rfl
    have hunique : f.unique_features max = f := by
      unfold unique_features
      rw [if_pos hempty]
    rw [hunique]
    constructor
    · intro _ _ first hfirst
      rw [hvalues, drop_nil] at hfirst
      cases hfirst
    · intro _
      exact h
  · by_cases h0 : max = 0
    · have hunique : f.unique_features max = empty := by
        unfold unique_features
        rw [if_neg hempty, if_pos h0]
        rfl
      rw [hunique]
      constructor
      · intro _ hne
        exact absurd h0 hne
      · intro _
        rfl
    · rw [imp_iff_right h0]
      by_cases h1 : max = 1
      · -- Only the first feature is kept.
        have hunique : f.unique_features max = f.truncate_to 1 := by
          unfold unique_features
          rw [if_neg hempty, if_neg h0, if_pos h1]
        obtain ⟨v, values, hvalues⟩ : ∃ v values, f.values = v :: values := by
          apply exists_cons_of_ne_nil
          intro hnil
          apply hempty
          apply length_eq_zero_iff.mp
          rw [← f.size_eq, hnil]
          rfl
        obtain ⟨i, indices, hindices⟩ : ∃ i indices, f.indices = i :: indices :=
          exists_cons_of_ne_nil hempty
        have hkept : distinct (fun x : V × FeatureIndex => x.2) max f.items = [(v, i)] := by
          unfold items
          rw [hvalues, hindices, zip_cons_cons, distinct, h1]
          rfl
        rw [hunique, sum_truncate_to h, truncatedSum_iff]
        unfold UniqueSum
        simp only [hkept]
        rw [← sum_squares_take_drop f.values 1, hvalues]
        show sum_of_removed_chunk values = sum_squares values ↔
          ∀ first ∈ values.head?, sum_squares [v] + (values.map fun v => v * first).sum
            = sum_squares [v] + sum_squares values
        cases values with
        | nil =>
          constructor
          · intro _ first hfirst
            cases hfirst
          · intro _
            rfl
        | cons first rest =>
          rw [sum_of_removed_chunk_cons]
          constructor
          · intro hs first' hfirst
            cases hfirst
            rw [hs]
          · intro hs
            exact add_left_cancel (hs first rfl)
      · exact sum_unique_loop h hclosed hempty h0 h1

/-- One step: the sum is right afterwards exactly within the condition. -/
theorem sum_apply [LT V] (h : f.SumInvariant) (hwf : f.WellFormed) {op : Op V}
    (hop : op.Allowed f) : (f.apply op).SumInvariant ↔ sum_condition.step f op := by
  have hpush : ∀ v : V, f.sum_feat_sq + v * v = sum_squares (f.values ++ [v]) := by
    intro v
    rw [sum_squares_append, h]
    simp [sum_squares]
  cases op with
  | push_back v i => exact iff_of_true (hpush v) trivial
  | push_back_hash v i hash => exact iff_of_true (hpush v) trivial
  | start_ns_extent hash => exact iff_of_true h trivial
  | end_ns_extent => exact iff_of_true h trivial
  | truncate_to_given i sum =>
    obtain ⟨hi, hsum⟩ := hop
    apply iff_of_true _ trivial
    show (f.truncate_to_given i sum).SumInvariant
    rw [sum_truncate_to_given, h, ← sum_squares_take_drop f.values i, hsum]
    by_cases heq : i = f.size
    · have hdrop : f.values.drop i = [] := drop_eq_nil_of_le (by rw [heq]; exact le_refl _)
      rw [if_pos heq, hdrop]
      simp [sum_squares]
    · rw [if_neg heq, add_sub_cancel_right]
  | truncate_to i => exact sum_truncate_to h i
  | sort parse_mask p =>
    apply iff_of_true _ trivial
    show (f.sort p).SumInvariant
    unfold sort
    split
    · exact h
    · show f.sum_feat_sq = sum_squares (apply_permutation_in_place p f.values)
      rw [sum_squares_perm (apply_permutation_in_place_perm p f.values)]
      exact h
  | unique_features max => exact sum_unique_features h (hwf.closed hop) max
  | clear => exact iff_of_true rfl trivial

end Features

/-! ## Runs -/

/-- The sum is right in every state that steps within the condition reach, and
    the next step keeps it so exactly if it is within the condition, too. -/
theorem reaches_sum_feat_sq [LT V] {f : Features V} {t : Tagged V} (h : Reaches sum_condition f t) :
    f.SumInvariant ∧
      ∀ op : Op V, op.Allowed f → ((f.apply op).SumInvariant ↔ sum_condition.step f op) := by
  have hsum : f.SumInvariant := by
    induction h with
    | empty => rfl
    | step op hf hop hc ih => exact (sum_apply ih hf.wellFormed hop).mpr hc
    | @concat f g _ _ _ _ _ _ _ ihf ihg =>
      show f.sum_feat_sq + g.sum_feat_sq = sum_squares (f.values ++ g.values)
      rw [sum_squares_append, ihf, ihg]
  exact ⟨hsum, fun op hop => sum_apply hsum h.wellFormed hop⟩

/-- Two features are added and the second one is removed. -/
theorem reaches_sum_feat_sq_truncated :
    (((empty (V := Int)).push_back 2 7).push_back 3 8 |>.truncate_to 1).SumInvariant := by
  have hrun : Reaches (V := Int) sum_condition
      ((((empty.apply (.push_back 2 7)).apply (.push_back 3 8)).apply (.truncate_to 1))) _ :=
    .step (.truncate_to 1) (.step (.push_back 3 8) (.step (.push_back 2 7) .empty trivial trivial)
      trivial trivial) (show 1 ≤ 2 by decide) (by intro first hfirst; cases hfirst; decide)
  exact (reaches_sum_feat_sq hrun).1

/-- Of the values one, two and three the last two are removed; the sum is then
    four and not one. -/
theorem truncate_to_breaks_sum :
    ¬ ∀ (f : Features Int) (t : Tagged Int), Reaches .any f t → f.SumInvariant := by
  intro hall
  have hrun : Reaches (V := Int) .any
      ((((empty.apply (.push_back 1 7)).apply (.push_back 2 8)).apply (.push_back 3 9)).apply
        (.truncate_to 1)) _ :=
    .step (.truncate_to 1) (.step (.push_back 3 9) (.step (.push_back 2 8)
      (.step (.push_back 1 7) .empty trivial trivial) trivial trivial) trivial trivial)
      (show 1 ≤ 3 by decide) trivial
  have := hall _ _ hrun
  revert this
  unfold SumInvariant
  decide

end VW
