import VowpalWabbit.Interactions.Statistics

/-! # Permutations of extents

    With permutations an interaction should have a feature for every ordered
    tuple of features. The expansion over extents skips the extents before that
    of the previous equal term with permutations as it does without, so that a
    term that is equal to the one before and names two extents or more loses
    tuples.
-/

open Tuples

namespace VW

open List ExamplePredict

variable {V : Type}

theorem same_loop_true : (FeaturesRange.same_loop true : FeaturesRange V → FeaturesRange V → Bool) =
    fun _ _ => false := by
  funext r r'
  simp [FeaturesRange.same_loop]

theorem flatMap_ordered_tuples (combinations : List (List (FeaturesRange V))) :
    (combinations.flatMap (tuples (FeaturesRange.same_loop true) (·.features))) =
      combinations.flatMap (ordered_tuples (·.features)) := by
  rw [same_loop_true]
  exact flatMap_congr fun c _ => tuples_false _ c

/-- The number of tuples from some combinations of extents. -/
theorem length_flatMap_ordered_tuples (combinations : List (List (FeaturesRange V))) :
    (combinations.flatMap (ordered_tuples (·.features))).length =
      weight (fun r : FeaturesRange V => r.features.length) combinations := by
  rw [length_flatMap, weight]
  simp only [length_ordered_tuples]

variable {ec : ExamplePredict V} {terms : List ExtentTerm}

theorem positive_hash_extents (hclosed : ec.ExtentsClosed) (hnone : ∀ term ∈ terms, ec.hash_extents term ≠ []) :
    Positive ec.hash_extents (·.features.length) terms := fun term hterm =>
  ⟨hnone term hterm, fun _ hr =>
    length_pos_iff.mpr (features_ne_nil_of_mem hclosed hr)⟩

variable [CommRing V]

/-- What is generated with permutations. -/
theorem generate_extent_permutations (hclosed : ec.ExtentsClosed) (hlen : 2 ≤ terms.length)
    (hwild : ∀ term ∈ terms, term.1 ≠ WILDCARD_NAMESPACE) :
    ∃ features, features.Perm (((tuples equal_terms ec.hash_extents terms).flatMap
        (ordered_tuples (·.features))).map (combine_features ec.ft_offset)) ∧
      ∃ m, ∀ fuel ≥ m, generate_interactions fuel [] [terms] true ec =
        some (features.length, features) := by
  obtain ⟨features, hperm, hrun⟩ := generate_interactions_perm true ec [] [terms]
    (fun _ _ => hclosed) (by simp) (by simpa using hlen) (by simpa using hwild)
  refine ⟨features, ?_, hrun⟩
  simp only [flatMap_nil, nil_append, flatMap_cons, append_nil] at hperm
  rwa [flatMap_ordered_tuples] at hperm

theorem foldl_mul_eq {α : Type} (f : α → V) (l : List α) (acc : V) :
    l.foldl (fun p a => p * f a) acc = acc * (l.map f).prod := by
  induction l generalizing acc with
  | nil => simp
  | cons a l ih => rw [foldl_cons, ih, map_cons, prod_cons, mul_assoc]

/-- The features of all ordered tuples have the sum of squares of the closed form. -/
theorem sum_squares_sections (ec : ExamplePredict V) (terms : List ExtentTerm) :
    sum_squares (((terms.map ec.extent_features).sections.map
      (combine_features ec.ft_offset)).map Prod.fst) =
        weight (fun f => f.1 * f.1) (ordered_tuples ec.extent_features terms) := by
  rw [sum_squares_combine_features, weight_map]
  exact weight_perm _ (ordered_tuples_perm_sections _ terms).symm

/-- The number of all ordered tuples. -/
theorem length_sections (ec : ExamplePredict V) (terms : List ExtentTerm) :
    ((terms.map ec.extent_features).sections.map (combine_features ec.ft_offset)).length =
      weight (·.features.length) (ordered_tuples ec.hash_extents terms) := by
  rw [length_map, ← (ordered_tuples_perm_sections _ terms).length_eq, length_ordered_tuples,
    weight_ordered_tuples]
  simp only [extent_features, place_items, length_flatMap]

variable [DecidableEq V]

/-- One feature for each ordered tuple of features of the terms, and their sum of
    squares computed right. -/
def PermutationsComplete (ec : ExamplePredict V) (terms : List ExtentTerm) : Prop :=
  ∃ features,
    (∃ m, ∀ fuel ≥ m, generate_interactions fuel [] [terms] true ec =
      some (features.length, features)) ∧
    features.Perm ((terms.map ec.extent_features).sections.map (combine_features ec.ft_offset)) ∧
    eval_sum_ft_squared_of_generated_ft true [] [terms] ec = sum_squares (features.map Prod.fst)

/-- The closed form for permutations is the sum over all ordered tuples. -/
theorem eval_permutations_eq (ec : ExamplePredict V) (terms : List ExtentTerm) :
    eval_sum_ft_squared_of_generated_ft true [] [terms] ec =
      weight (fun f => f.1 * f.1) (ordered_tuples ec.extent_features terms) := by
  have hterm (t : ExtentTerm) : calc_sum_ft_squared_for_extent ec t =
      ((ec.extent_features t).map fun f => f.1 * f.1).sum := by
    rw [calc_sum_ft_squared_for_extent_eq, sum_squares, extent_values, map_map]
    rfl
  simp only [eval_sum_ft_squared_of_generated_ft, calculate_count_and_sum_ft_sq_for_permutations,
    if_true, foldl_nil, foldl_cons, zero_add, foldl_mul_eq, one_mul, hterm,
    weight_ordered_tuples]

variable {features : List (V × FeatureIndex)}

theorem permutationsComplete_of_perm
    (hrun : ∃ m, ∀ fuel ≥ m, generate_interactions fuel [] [terms] true ec =
      some (features.length, features)) (hperm : features.Perm
      ((terms.map ec.extent_features).sections.map (combine_features ec.ft_offset))) :
    PermutationsComplete ec terms := by
  refine ⟨features, hrun, hperm, ?_⟩
  rw [eval_permutations_eq, sum_squares_perm (hperm.map _), sum_squares_sections]

/-! ## When all ordered tuples are generated -/

/-- A term that names no extent: there is nothing to generate. -/
theorem permutationsComplete_of_empty (hclosed : ec.ExtentsClosed)
    (hempty : ∃ term ∈ terms, ec.hash_extents term = []) :
    PermutationsComplete ec terms := by
  have hordered : ordered_tuples ec.extent_features terms = [] := by
    rw [← tuples_false]
    refine tuples_eq_nil _ _ (fun _ _ h => absurd h Bool.false_ne_true) ?_
    obtain ⟨term, hterm, hnil⟩ := hempty
    exact ⟨term, hterm, by simp [extent_features, place_items, hnil]⟩
  have hperm : ([] : List (V × FeatureIndex)).Perm
      ((terms.map ec.extent_features).sections.map (combine_features ec.ft_offset)) := by
    have hsections := ordered_tuples_perm_sections ec.extent_features terms
    rw [hordered] at hsections
    exact hsections.map _
  refine permutationsComplete_of_perm ⟨0, fun fuel _ => ?_⟩ hperm
  have h := (has_empty_extent_interaction_iff hclosed terms).mpr hempty
  simp [generate_interactions, process_each, process_extent_interaction, h, add_result]

theorem permutationsComplete_of_no_repeats (hclosed : ec.ExtentsClosed) (hlen : 2 ≤ terms.length)
    (hwild : ∀ term ∈ terms, term.1 ≠ WILDCARD_NAMESPACE)
    (hrep : NoRepeats ec.hash_extents terms) : PermutationsComplete ec terms := by
  obtain ⟨features, hperm, hrun⟩ := generate_extent_permutations hclosed hlen hwild
  have htuples : tuples equal_terms ec.hash_extents terms = ordered_tuples ec.hash_extents terms := by
    match terms, hlen with
    | t :: ts, _ =>
      rw [← tuples_false, tuples, tuples_from_of_no_repeats _ hrep suffix_rfl, tuples]
  refine permutationsComplete_of_perm hrun (hperm.trans (List.Perm.map _ ?_))
  rw [htuples]
  exact (ordered_tuples_parts _ _ terms).trans (ordered_tuples_perm_sections _ terms)

/-! ## When some are lost -/

theorem PermutationsComplete.length_eq (h : PermutationsComplete ec terms)
    (hrun : ∃ m, ∀ fuel ≥ m, generate_interactions fuel [] [terms] true ec =
      some (features.length, features)) :
    features.length = weight (·.features.length) (ordered_tuples ec.hash_extents terms) := by
  obtain ⟨features', ⟨m', hrun'⟩, hperm, -⟩ := h
  obtain ⟨m, hrun⟩ := hrun
  -- Both runs are the same with enough fuel for both.
  have heq := (hrun (max m m') (le_max_left m m')).symm.trans (hrun' _ (le_max_right m m'))
  obtain rfl : features = features' := (Prod.mk.inj (Option.some.inj heq)).2
  rw [hperm.length_eq, length_sections]

/-- An interaction with a wildcard is skipped. -/
theorem not_permutationsComplete_of_wildcard (hclosed : ec.ExtentsClosed)
    (hnone : ∀ term ∈ terms, ec.hash_extents term ≠ [])
    (hwild : ∃ term ∈ terms, term.1 = WILDCARD_NAMESPACE) : ¬ PermutationsComplete ec terms := by
  intro h
  have hany : (terms.any fun term => term.1 == WILDCARD_NAMESPACE) = true := by
    simpa using hwild
  have hrun : ∃ m, ∀ fuel ≥ m, generate_interactions fuel [] [terms] true ec =
      some (([] : List (V × FeatureIndex)).length, []) := by
    refine ⟨0, fun fuel _ => ?_⟩
    simp [generate_interactions, process_each, process_extent_interaction, hany, add_result]
  have hpos := (positive_hash_extents hclosed hnone).weight_pos
  exact absurd (h.length_eq hrun) hpos.ne

/-- An equal term after another that names two extents loses tuples. -/
theorem not_permutationsComplete_of_repeats (hclosed : ec.ExtentsClosed) (hlen : 2 ≤ terms.length)
    (hnone : ∀ term ∈ terms, ec.hash_extents term ≠ [])
    (hwild : ∀ term ∈ terms, term.1 ≠ WILDCARD_NAMESPACE)
    (hrep : ¬ NoRepeats ec.hash_extents terms) : ¬ PermutationsComplete ec terms := by
  intro h
  obtain ⟨features, hperm, hrun⟩ := generate_extent_permutations hclosed hlen hwild
  have hcount := h.length_eq hrun
  rw [hperm.length_eq, length_map, length_flatMap_ordered_tuples] at hcount
  exact absurd hcount (weight_tuples_lt (positive_hash_extents hclosed hnone) hrep).ne

/-- All ordered tuples are generated exactly if a term names no extent, or no term
    is a wildcard and none that is equal to the one before it names two extents
    or more. -/
theorem permutationsComplete_iff (ec : ExamplePredict V) (hclosed : ec.ExtentsClosed)
    (terms : List ExtentTerm) (hlen : 2 ≤ terms.length) :
    PermutationsComplete ec terms ↔
      (∃ term ∈ terms, ec.hash_extents term = []) ∨
      ((∀ term ∈ terms, term.1 ≠ WILDCARD_NAMESPACE) ∧ NoRepeats ec.hash_extents terms) := by
  constructor
  · intro h
    by_cases hempty : ∃ term ∈ terms, ec.hash_extents term = []
    · exact Or.inl hempty
    · have hnone : ∀ term ∈ terms, ec.hash_extents term ≠ [] := by
        intro term hterm hnil
        exact hempty ⟨term, hterm, hnil⟩
      right
      by_cases hwild : ∃ term ∈ terms, term.1 = WILDCARD_NAMESPACE
      · exact absurd h (not_permutationsComplete_of_wildcard hclosed hnone hwild)
      · have hwild' : ∀ term ∈ terms, term.1 ≠ WILDCARD_NAMESPACE := by
          intro term hterm heq
          exact hwild ⟨term, hterm, heq⟩
        refine ⟨hwild', ?_⟩
        by_contra hrep
        exact not_permutationsComplete_of_repeats hclosed hlen hnone hwild' hrep h
  · intro h
    rcases h with hempty | ⟨hwild, hrep⟩
    · exact permutationsComplete_of_empty hclosed hempty
    · exact permutationsComplete_of_no_repeats hclosed hlen hwild hrep

/-- A term twice, whose name has one extent. -/
theorem permutationsComplete_iff_one_extent :
    PermutationsComplete
      (.of_features 97 (⟨[2, 3], [7, 9], [⟨0, 2, 5⟩], 13, rfl⟩ : Features Int))
      [(97, 5), (97, 5)] := by
  have hclosed : Extents.Closed [⟨0, 2, 5⟩] 2 := ⟨by decide, by decide⟩
  refine (permutationsComplete_iff _ (extentsClosed_of_features hclosed) _ (by decide)).mpr ?_
  exact Or.inr ⟨by simp [WILDCARD_NAMESPACE], by simp [NoRepeats]; decide⟩

/-- A term twice, whose name has two extents: of the four ordered pairs of
    features, that of the second and the first is missing. -/
theorem permutations_lose_pair :
    ¬ ∀ (ec : ExamplePredict Int), ec.ExtentsClosed → ∀ terms : List ExtentTerm, 2 ≤ terms.length →
      (∀ term ∈ terms, term.1 ≠ WILDCARD_NAMESPACE) → PermutationsComplete ec terms := by
  intro hall
  have hclosed : Extents.Closed [⟨0, 1, 5⟩, ⟨1, 2, 5⟩] 2 := ⟨by decide, by decide⟩
  have hec : (of_features 97
      (⟨[2, 3], [7, 9], [⟨0, 1, 5⟩, ⟨1, 2, 5⟩], 13, rfl⟩ : Features Int)).ExtentsClosed :=
    extentsClosed_of_features hclosed
  refine not_permutationsComplete_of_repeats hec (by decide) ?_ ?_ ?_
    (hall _ hec [(97, 5), (97, 5)] (by decide) ?_)
  · simp only [mem_cons, not_mem_nil, or_false, or_self, forall_eq]
    decide
  · simp [WILDCARD_NAMESPACE]
  · intro hrep
    have h := (isChain_cons_cons.mp hrep).1 rfl
    revert h
    decide
  · simp [WILDCARD_NAMESPACE]

end VW
