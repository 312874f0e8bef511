import VowpalWabbit.Interactions.Expansion

/-! # Namespaces in several extents

    The features of a full name can come in any number of extents. An interaction
    over full names generates the same features as one over namespaces that hold
    all features of a name, up to the order in which the features of equal terms
    are combined.
-/

open Tuples

namespace VW

open List

variable {V : Type}

section Agree

variable [Mul V] [One V]

/-- Both lists hold a feature for each of the same choices of features of the
    terms, when the order of the choices for equal terms does not count. -/
def SameUpToFactors (offset : BitVec 64) (terms : List ExtentTerm)
    (features features' : List (V × FeatureIndex)) : Prop :=
  ∃ choices choices' : List (List (V × FeatureIndex)),
    (∀ x ∈ choices ++ choices', x.length = terms.length) ∧
    features.Perm (choices.map (combine_features offset)) ∧
    features'.Perm (choices'.map (combine_features offset)) ∧
    (choices.map (factors terms)).Perm (choices'.map (factors terms))

end Agree

/-- Every name has a namespace of its own. -/
theorem tuples_own_namespace {own : ExtentTerm → NamespaceIndex} {terms : List ExtentTerm}
    (hown : ∀ t ∈ terms, ∀ t' ∈ terms, own t = own t' → t = t')
    (items : NamespaceIndex → List (V × FeatureIndex)) :
    tuples (term_loop false) items (terms.map own) =
      tuples equal_terms (fun t => items (own t)) terms := by
  cases terms with
  | nil => rfl
  | cons t ts =>
    simp only [map_cons, tuples, tuples_from_places]
    refine tuples_from_congr _ _ ts _ t (fun a ha b hb => ?_) fun b _ => rfl
    have hiff : own a = own b ↔ a = b :=
      ⟨hown a ha b (mem_cons_of_mem t hb), fun h => h ▸ rfl⟩
    simp [term_loop, hiff]

theorem length_of_mem_tuples {T : Type} [DecidableEq T] {items : T → List (V × FeatureIndex)}
    {terms : List T} {x : List (V × FeatureIndex)} (hx : x ∈ tuples equal_terms items terms) :
    x.length = terms.length := by
  cases terms with
  | nil => simpa [tuples] using hx
  | cons t ts => exact length_of_mem_tuples_from _ _ hx

/-- An interaction over full names, whose features come in extents in `ec` and in
    a namespace for each name in `ec'`. If the order of the features is the same
    as well, the features that are generated are the same. -/
theorem extent_interaction_splits [CommMagma V] [One V] (ec ec' : ExamplePredict V)
    (hclosed : ec.ExtentsClosed) (hoffset : ec'.ft_offset = ec.ft_offset) (terms : List ExtentTerm)
    (hlen : 2 ≤ terms.length)
    (hwild : ∀ term ∈ terms, term.1 ≠ WILDCARD_NAMESPACE) (own : ExtentTerm → NamespaceIndex)
    (hown : ∀ t ∈ terms, ∀ t' ∈ terms, own t = own t' → t = t')
    (hparts : ∀ t ∈ terms, (ec.extent_features t).Perm (ec'.namespace_features (own t))) :
    ∃ features features',
      (∃ m, ∀ fuel ≥ m, generate_interactions fuel [] [terms] false ec =
        some (features.length, features)) ∧
      (∃ m, ∀ fuel ≥ m, generate_interactions fuel [terms.map own] [] false ec' =
        some (features'.length, features')) ∧
      SameUpToFactors ec.ft_offset terms features features' ∧
      ((∀ t ∈ terms, ec.extent_features t = ec'.namespace_features (own t)) →
        features.Perm features') := by
  obtain ⟨features, hperm, hrun⟩ := generate_interactions_perm false ec [] [terms]
    (fun _ _ => hclosed) (by simp) (by simpa using hlen) (by simpa using hwild)
  obtain ⟨features', hperm', hrun'⟩ := generate_interactions_perm false ec' [terms.map own] []
    (by simp) (by simpa using hlen) (by simp) (by simp)
  -- The choices: for the extents of a name as for one list of its features.
  have hfeatures : features.Perm ((tuples equal_terms ec.extent_features terms).map
      (combine_features ec.ft_offset)) := by
    simp only [flatMap_nil, nil_append, flatMap_cons, append_nil] at hperm
    exact hperm.trans ((extent_combinations_perm hclosed hlen).map _)
  have hfeatures' : features'.Perm ((tuples equal_terms
      (fun t => ec'.namespace_features (own t)) terms).map (combine_features ec.ft_offset)) := by
    simp only [flatMap_nil, flatMap_cons, append_nil, hoffset,
      tuples_own_namespace hown] at hperm'
    exact hperm'
  refine ⟨features, features', hrun, hrun', ⟨_, _, ?_, hfeatures, hfeatures',
    factors_tuples_perm _ hparts⟩, fun heq => ?_⟩
  · intro x hx
    rcases mem_append.mp hx with hx | hx
    · exact length_of_mem_tuples hx
    · exact length_of_mem_tuples hx
  · have hsame : tuples equal_terms ec.extent_features terms =
        tuples equal_terms (fun t => ec'.namespace_features (own t)) terms := by
      obtain ⟨t, ts, rfl⟩ := exists_cons_of_length_pos (Nat.lt_of_succ_lt hlen)
      simp only [tuples, heq t mem_cons_self]
      exact tuples_from_congr _ _ ts _ t (fun _ _ _ _ => rfl)
        fun b hb => heq b (mem_cons_of_mem t hb)
    rw [hsame] at hfeatures
    exact hfeatures.trans hfeatures'.symm

/-- A name in two extents, and the same features the other way round. -/
theorem extent_interaction_splits_two_extents :
    ∃ features features' : List (Int × FeatureIndex),
      (∃ m, ∀ fuel ≥ m, generate_interactions fuel [] [[(97, 5), (97, 5)]] false
        (.of_features 97 (⟨[2, 3], [7, 9], [⟨0, 1, 5⟩, ⟨1, 2, 5⟩], 13, rfl⟩ : Features Int)) =
          some (features.length, features)) ∧
      (∃ m, ∀ fuel ≥ m, generate_interactions fuel [[98, 98]] [] false
        (.of_features 98 (⟨[3, 2], [9, 7], [], 13, rfl⟩ : Features Int)) =
          some (features'.length, features')) ∧
      SameUpToFactors 0 [(97, 5), (97, 5)] features features' := by
  have hclosed : Extents.Closed [⟨0, 1, 5⟩, ⟨1, 2, 5⟩] 2 := ⟨by decide, by decide⟩
  have hperm : ∀ t ∈ [((97, 5) : ExtentTerm), (97, 5)],
      ((.of_features 97 (⟨[2, 3], [7, 9], [⟨0, 1, 5⟩, ⟨1, 2, 5⟩], 13, rfl⟩ : Features Int)
        : ExamplePredict Int).extent_features t).Perm
      ((.of_features 98 ⟨[3, 2], [9, 7], [], 13, rfl⟩ : ExamplePredict Int).namespace_features 98) := by
    simp only [mem_cons, not_mem_nil, or_false, or_self, forall_eq]
    decide
  obtain ⟨features, features', hrun, hrun', hsame, -⟩ := extent_interaction_splits
    (.of_features 97 (⟨[2, 3], [7, 9], [⟨0, 1, 5⟩, ⟨1, 2, 5⟩], 13, rfl⟩ : Features Int))
    (.of_features 98 ⟨[3, 2], [9, 7], [], 13, rfl⟩) (extentsClosed_of_features hclosed) rfl
    [(97, 5), (97, 5)] (by decide) (by simp [WILDCARD_NAMESPACE]) (fun _ => 98) (by simp) hperm
  exact ⟨features, features', hrun, hrun', hsame⟩

end VW
