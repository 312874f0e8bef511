import VowpalWabbit.CsoaaLdf.Wap
import VowpalWabbit.FeatureGroup.Rows
import VowpalWabbit.Framework.Fuel
import VowpalWabbit.Interactions.Expansion
import VowpalWabbit.Slim.Addresses

/-! # Linear scores of examples

    What `foreach_feature` gives for an example, and what an example with a subtracted one in
    its WAP namespace has more; label features that are appended, removed and appended again.
-/

open Cpp

namespace VW

open List ExamplePredict

/-! ## Interactions that leave a namespace out -/

section Congr

variable {V : Type} {ec ec' : ExamplePredict V}

theorem any_congr_mem {T : Type} {l : List T} {p q : T → Bool} (h : ∀ x ∈ l, p x = q x) : l.any p = l.any q := by
  rw [Bool.eq_iff_iff, any_eq_true, any_eq_true]
  exact exists_congr fun x => and_congr_right fun hx => by rw [h x hx]

/-- Two examples are the same for a namespace. -/
def SameNamespace (ec ec' : ExamplePredict V) (ns : NamespaceIndex) : Prop :=
  ec.feature_space ns = ec'.feature_space ns ∧ ec.address ns = ec'.address ns

theorem SameNamespace.hash_extents {term : ExtentTerm} (h : SameNamespace ec ec' term.1) :
    ec.hash_extents term = ec'.hash_extents term := by
  unfold ExamplePredict.hash_extents ExamplePredict.extent_range
  rw [h.1, h.2]

theorem expansion_loop_congr {terms : List ExtentTerm} (h : ∀ term ∈ terms, SameNamespace ec ec' term.1) (fuel : Nat)
    (stack : List (ExpansionStackItem V)) :
    expansion_loop ec terms fuel stack = expansion_loop ec' terms fuel stack := by
  induction fuel generalizing stack with
  | zero => cases stack <;> rfl
  | succ fuel ih =>
    cases stack with
    | nil => rfl
    | cons top stack =>
      have hitem : expand_item ec terms top = expand_item ec' terms top := by
        unfold expand_item
        cases hterm : terms[top.current_term]? with
        | none => rfl
        | some term =>
          cases terms[top.prev_term]? with
          | none => rfl
          | some prev =>
            dsimp only
            rw [(h term (mem_of_getElem? hterm)).hash_extents]
      unfold expansion_loop
      rw [hitem]
      simp only [ih]

theorem process_extent_congr [Mul V] [One V] {terms : List ExtentTerm}
    (h : ∀ term ∈ terms, SameNamespace ec ec' term.1) (fuel : Nat) (permutations : Bool) :
    process_extent_interaction fuel permutations ec terms =
      process_extent_interaction fuel permutations ec' terms := by
  have hempty : ec.has_empty_extent_interaction terms = ec'.has_empty_extent_interaction terms := by
    unfold has_empty_extent_interaction
    exact any_congr_mem fun term hterm => by rw [(h term hterm).1]
  have hcombinations : generate_generic_extent_combination_iterative fuel ec terms =
      generate_generic_extent_combination_iterative fuel ec' terms := by
    unfold generate_generic_extent_combination_iterative
    cases terms with
    | nil => rfl
    | cons term terms =>
      dsimp only
      rw [(h term mem_cons_self).hash_extents, expansion_loop_congr h]
  unfold process_extent_interaction
  rw [hempty, hcombinations]

theorem process_char_congr [Mul V] [One V] {terms : List NamespaceIndex}
    (h : ∀ ns ∈ terms, SameNamespace ec ec' ns) (fuel : Nat) (permutations : Bool) :
    process_char_interaction fuel permutations ec terms = process_char_interaction fuel permutations ec' terms := by
  have hempty : ec.has_empty_interaction terms = ec'.has_empty_interaction terms := by
    unfold has_empty_interaction term_is_empty
    exact any_congr_mem fun ns hns => by rw [(h ns hns).1]
  have hranges : terms.map ec.namespace_range = terms.map ec'.namespace_range := by
    refine map_congr_left fun ns hns => ?_
    unfold namespace_range
    rw [(h ns hns).1, (h ns hns).2]
  unfold process_char_interaction
  rw [hempty, hranges]

/-- Namespaces that no interaction uses do not matter. -/
theorem generate_interactions_congr [Mul V] [One V] {interactions : List (List NamespaceIndex)}
    {extent_interactions : List (List ExtentTerm)} (hoffset : ec.ft_offset = ec'.ft_offset)
    (h : ∀ terms ∈ interactions, ∀ ns ∈ terms, SameNamespace ec ec' ns)
    (h' : ∀ terms ∈ extent_interactions, ∀ term ∈ terms, SameNamespace ec ec' term.1) (fuel : Nat)
    (permutations : Bool) :
    generate_interactions fuel interactions extent_interactions permutations ec =
      generate_interactions fuel interactions extent_interactions permutations ec' := by
  unfold generate_interactions
  rw [hoffset, map_congr_left fun terms hterms => process_char_congr (h terms hterms) fuel permutations,
    map_congr_left fun terms hterms => process_extent_congr (h' terms hterms) fuel permutations]

end Congr

end VW

namespace VW.CsoaaLdf

open List

variable {R : Type} [Field R]

/-! ## Linear scores -/

/-- The calls of `vec_add`. -/
def linear_score (weights : FeatureIndex → R) (mask : BitVec 64) (fs : List (R × FeatureIndex)) : R :=
  (fs.map fun f => weights (f.2 &&& mask) * f.1).sum

/-- The sum of weight times value over the features and the interactions of an example. -/
def Scores (all : Settings) (weights : FeatureIndex → R) (mask : BitVec 64) (ec : Example R) (score : R) : Prop :=
  Settles (fun fuel => foreach_feature fuel all ec) fun fs => linear_score weights mask fs = score

/-- No interaction uses the WAP namespace; a wildcard would stand for it as well. The options are
    checked for two namespaces at least. -/
structure Settings.Apart (all : Settings) : Prop where
  interactions : ∀ terms ∈ all.interactions, 2 ≤ terms.length ∧
    ∀ ns ∈ terms, ns ≠ WAP_LDF_NAMESPACE ∧ ns ≠ WILDCARD_NAMESPACE
  extent_interactions : ∀ terms ∈ all.extent_interactions, 2 ≤ terms.length ∧
    ∀ term ∈ terms, term.1 ≠ WAP_LDF_NAMESPACE ∧ term.1 ≠ WILDCARD_NAMESPACE

/-- The features of the WAP namespace are left out. -/
def Settings.ignores (all : Settings) : Bool := all.ignore_some_linear && all.ignore_linear WAP_LDF_NAMESPACE

variable {all : Settings} {weights : FeatureIndex → R} {mask : BitVec 64} {ec earlier handed : Example R} {r : R}

theorem linear_score_append (fs fs' : List (R × FeatureIndex)) :
    linear_score weights mask (fs ++ fs') = linear_score weights mask fs + linear_score weights mask fs' := by
  unfold linear_score
  rw [map_append, sum_append]

theorem generate_settles (hall : all.Apart) (hclosed : ∀ ns, (ec.feature_space ns).Closed) :
    Settles (fun fuel => generate_interactions fuel all.interactions all.extent_interactions all.permutations
      ec.to_predict) fun _ => True := by
  obtain ⟨features, -, m, hrun⟩ := generate_interactions_perm all.permutations ec.to_predict all.interactions
    all.extent_interactions (fun _ _ => hclosed) (fun terms h => (hall.interactions terms h).1)
    (fun terms h => (hall.extent_interactions terms h).1)
    fun terms h term hterm => ((hall.extent_interactions terms h).2 term hterm).2
  exact ⟨_, trivial, m, hrun⟩

theorem foreach_settles (hall : all.Apart) (hclosed : ∀ ns, (ec.feature_space ns).Closed) :
    Settles (fun fuel => foreach_feature fuel all ec) fun _ => True :=
  (generate_settles hall hclosed).bind fun _ _ => .of_some trivial

/-- The WAP namespace comes last, with more features than the others have. -/
structure Extends (earlier handed : Example R) : Prop where
  indices : handed.indices = earlier.indices ++ [WAP_LDF_NAMESPACE]
  unused : WAP_LDF_NAMESPACE ∉ earlier.indices
  feature_space : ∀ ns, ns ≠ WAP_LDF_NAMESPACE → handed.feature_space ns = earlier.feature_space ns
  ft_offset : handed.ft_offset = earlier.ft_offset

theorem Extends.generate_eq (h : Extends earlier handed) (hall : all.Apart) (fuel : Nat) :
    generate_interactions fuel all.interactions all.extent_interactions all.permutations handed.to_predict =
      generate_interactions fuel all.interactions all.extent_interactions all.permutations earlier.to_predict := by
  have hothers : Function.update handed.feature_space WAP_LDF_NAMESPACE .empty =
      Function.update earlier.feature_space WAP_LDF_NAMESPACE .empty := by
    funext ns
    by_cases hns : ns = WAP_LDF_NAMESPACE
    · rw [hns, Function.update_self, Function.update_self]
    · rw [Function.update_of_ne hns, Function.update_of_ne hns, h.feature_space ns hns]
  have hsame : ∀ ns, ns ≠ WAP_LDF_NAMESPACE → SameNamespace handed.to_predict earlier.to_predict ns := by
    refine fun ns hns => ⟨h.feature_space ns hns, ?_⟩
    show address handed.feature_space ns = address earlier.feature_space ns
    unfold address
    rw [if_neg hns, if_neg hns, hothers]
  exact generate_interactions_congr h.ft_offset (fun terms hterms ns hns =>
    hsame ns ((hall.interactions terms hterms).2 ns hns).1) (fun terms hterms term hterm =>
      hsame term.1 ((hall.extent_interactions terms hterms).2 term hterm).1) fuel all.permutations

omit [Field R] in
theorem Extends.linear_eq (h : Extends earlier handed) :
    linear_features all handed = linear_features all earlier ++ if all.ignores then []
      else (handed.feature_space WAP_LDF_NAMESPACE).items.map fun f => (f.1, f.2 + handed.ft_offset) := by
  unfold linear_features
  rw [h.indices, filter_append, flatMap_append]
  congr 1
  · refine flatMap_congr fun ns hns => ?_
    have hne : ns ≠ WAP_LDF_NAMESPACE := fun heq => h.unused (heq ▸ mem_of_mem_filter hns)
    rw [h.feature_space ns hne, h.ft_offset]
  · unfold Settings.ignores
    rw [filter_cons, filter_nil]
    cases all.ignore_some_linear && all.ignore_linear WAP_LDF_NAMESPACE with
    | true => rfl
    | false => exact flatMap_singleton _ _

/-- What the features of the WAP namespace add to the score. -/
theorem Extends.scores (h : Extends earlier handed) (weights : FeatureIndex → R) (mask : BitVec 64)
    (hall : all.Apart)
    (hclosed : ∀ ns, (earlier.feature_space ns).Closed) : ∃ r, Scores all weights mask earlier r ∧
      Scores all weights mask handed (r + if all.ignores then 0 else linear_score weights mask
        ((handed.feature_space WAP_LDF_NAMESPACE).items.map fun f => (f.1, f.2 + handed.ft_offset))) := by
  obtain ⟨g, -, m, hrun⟩ := generate_settles hall hclosed
  beta_reduce at hrun
  refine ⟨linear_score weights mask (linear_features all earlier ++ g.2), ⟨_, rfl, m, fun fuel hfuel => ?_⟩,
    ⟨linear_features all handed ++ g.2, ?_, m, fun fuel hfuel => ?_⟩⟩
  · unfold foreach_feature
    beta_reduce
    rw [hrun fuel hfuel]
    rfl
  · beta_reduce
    rw [h.linear_eq, linear_score_append, linear_score_append, linear_score_append]
    split
    · show _ + 0 + _ = _
      ring
    · ring
  · unfold foreach_feature
    beta_reduce
    rw [h.generate_eq hall, hrun fuel hfuel]
    rfl

end VW.CsoaaLdf
