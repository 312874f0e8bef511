import VowpalWabbit.Interactions.Expansion
import VowpalWabbit.FeatureGroup.SumOfSquares

/-! # The sum of squares of generated features

    `eval_sum_ft_squared_of_generated_ft` goes through the terms of an
    interaction, one block of equal terms after the other. For a block it
    computes a complete homogeneous sum, by one pass over the values. Over exact
    arithmetic the product over the blocks is the sum of the squares of the
    features that are generated, without permutations.
-/

open Tuples

namespace VW

open List ExamplePredict

variable {V : Type}

theorem tuples_map_fst {V T : Type} [DecidableEq T] (items : T → List (V × FeatureIndex)) (ts : List T) :
    (tuples equal_terms items ts).map (map Prod.fst) =
      tuples equal_terms (fun t => (items t).map Prod.fst) ts := by
  cases ts with
  | nil => rfl
  | cons t ts => exact (tuples_from_map _ items Prod.fst ts (items t) t).symm

variable [CommRing V]

/-! ## One block -/

/-- The results that the values so far give, from order `j` on. -/
def homogeneous_results (xs : List V) (j n : Nat) : List V :=
  (range' j n).map fun k => homogeneous k xs

theorem add_products_homogeneous (xs : List V) (x : V) (n : Nat) : ∀ j,
    add_products x (homogeneous j (xs ++ [x])) (homogeneous_results xs (j + 1) n) =
      homogeneous_results (xs ++ [x]) (j + 1) n := by
  induction n with
  | zero => exact fun j => rfl
  | succ n ih =>
    intro j
    have hstep : homogeneous (j + 1) xs + homogeneous j (xs ++ [x]) * x =
        homogeneous (j + 1) (xs ++ [x]) := (homogeneous_append j xs x).symm
    simp only [homogeneous_results, range'_succ, map_cons, add_products, hstep]
    rw [← homogeneous_results, ih (j + 1)]
    rfl

theorem add_value_homogeneous (xs : List V) (value : V) (n : Nat) :
    add_value (homogeneous_results xs 1 n) value =
      homogeneous_results (xs ++ [value * value]) 1 n := by
  cases n with
  | zero => rfl
  | succ n =>
    have hfirst : homogeneous 1 xs + value * value = homogeneous 1 (xs ++ [value * value]) := by
      rw [homogeneous_one, homogeneous_one, sum_append, sum_singleton]
    have hrest := add_products_homogeneous xs (value * value) n 1
    simp only [homogeneous_results, range'_succ, map_cons, add_value, hfirst] at hrest ⊢
    rw [hrest]

/-- One pass over the values gives the complete homogeneous sum of their squares. -/
theorem block_sum_eq {order : Nat} (horder : order ≠ 0) (values : List V) :
    block_sum order values = homogeneous order (values.map fun v => v * v) := by
  have hfold (values : List V) : values.foldl add_value (replicate order 0) =
      homogeneous_results (values.map fun v => v * v) 1 order := by
    induction values using reverseRecOn with
    | nil =>
      refine (eq_replicate_iff.mpr ⟨by simp [homogeneous_results], fun b hb => ?_⟩).symm
      obtain ⟨k, hk, rfl⟩ := mem_map.mp hb
      obtain ⟨k', rfl⟩ := Nat.exists_eq_succ_of_ne_zero (n := k) (by
        have := (mem_range'_1.mp hk).1
        omega)
      rfl
    | append_singleton values v ih =>
      rw [foldl_append, ih, map_append]
      exact add_value_homogeneous _ v order
  rw [block_sum, hfold]
  have hlt : order - 1 < order := by omega
  simp [homogeneous_results, getD_eq_getElem?_getD, hlt]
  congr 1
  omega

/-! ## All blocks -/

section Terms

variable {T : Type} [DecidableEq T] [DecidableEq V] {values : T → List V} {calc_sum : T → V}

theorem combination_loop_skip (skip : Nat) (sum : V) (inter : List T) :
    combination_loop values calc_sum skip sum inter =
      combination_loop values calc_sum 0 sum (inter.drop skip) := by
  induction skip generalizing inter with
  | zero => rfl
  | succ skip ih =>
    cases inter with
    | nil => rfl
    | cons t inter => exact ih inter

/-- A sum that is zero stays zero. -/
theorem combination_loop_zero (skip : Nat) (inter : List T) : combination_loop values calc_sum skip 0 inter = 0 := by
  rw [combination_loop_skip]
  cases inter.drop skip with
  | nil => rfl
  | cons t inter =>
    unfold combination_loop
    simp only [zero_mul, if_true, ite_self]

/-- A list is made of blocks of equal terms. -/
theorem blocks_induction {P : List T → Prop} (nil : P []) (block : ∀ term k rest,
      (∀ t' ∈ rest.head?, equal_terms term t' = false) → P rest → P (term :: (replicate k term ++ rest)))
    (inter : List T) : P inter := by
  induction hn : inter.length using Nat.strong_induction_on generalizing inter with
  | _ n ih =>
    cases inter with
    | nil => exact nil
    | cons term inter =>
      have hsplit : inter = replicate (inter.takeWhile (· = term)).length term ++ inter.dropWhile (· = term) := by
        conv_lhs => rw [← takeWhile_append_dropWhile (p := (· = term)) (l := inter)]
        congr 1
        refine eq_replicate_iff.mpr ⟨rfl, fun b hb => ?_⟩
        simpa using all_eq_true.mp (all_takeWhile (p := (· = term)) (l := inter)) b hb
      have hlength := (dropWhile_sublist (l := inter) (· = term)).length_le
      rw [hsplit]
      refine block _ _ _ (fun t' ht' => ?_) (ih _ ?_ _ rfl)
      · have hhead := head?_dropWhile_not (fun t => decide (t = term)) inter
        rw [Option.mem_def.mp ht'] at hhead
        simpa [eq_comm] using hhead
      · rw [← hn, length_cons]
        omega

/-- What the loop multiplies with for a block. -/
def block_value (values : T → List V) (calc_sum : T → V) (term : T) (k : Nat) : V :=
  if k = 0 then calc_sum term else homogeneous (k + 1) ((values term).map fun v => v * v)

/-- The loop, one block further. -/
theorem combination_loop_block {term : T} {rest : List T} (k : Nat)
    (hrest : ∀ t' ∈ rest.head?, equal_terms term t' = false) (sum : V) :
    combination_loop values calc_sum 0 sum (term :: (replicate k term ++ rest)) =
      combination_loop values calc_sum 0 (sum * block_value values calc_sum term k) rest := by
  have hstop (x : V) (skip : Nat) (inter : List T) :
      (if x = 0 then x else combination_loop values calc_sum skip x inter) =
        combination_loop values calc_sum skip x inter := by
    split
    case isTrue hzero => rw [hzero, combination_loop_zero]
    case isFalse => rfl
  have hhead : rest.head? ≠ some term := fun hhead => by simpa using hrest term hhead
  rw [combination_loop]
  simp only [hstop]
  cases k with
  | zero =>
    rw [replicate_zero, nil_append, if_pos hhead]
    rfl
  | succ k =>
    -- The block is jumped over, and `k + 1` terms of it are left.
    have htake : (replicate k term ++ rest).takeWhile (· = term) = replicate k term := by
      rw [takeWhile_append_of_pos fun t ht => by simp [eq_of_mem_replicate ht]]
      cases rest with
      | nil => simp
      | cons t' rest => simp [takeWhile_cons_of_neg, show t' ≠ term from fun heq => hhead (congrArg some heq)]
    rw [if_neg (not_not.mpr (by rfl)), replicate_succ, cons_append, drop_one, tail_cons, htake, length_replicate,
      Nat.add_comm 2 k, block_sum_eq (Nat.succ_ne_zero _), combination_loop_skip]
    show combination_loop values calc_sum 0 _ ((replicate k term ++ rest).drop k) = _
    rw [drop_left' length_replicate]
    rfl

/-- With right sums, the loop computes the sum over the tuples of squares. -/
theorem combination_loop_eq (inter : List T)
    (hcalc : ∀ t ∈ inter, calc_sum t = sum_squares (values t)) (sum : V) :
    combination_loop values calc_sum 0 sum inter =
      sum * weight (fun v => v * v) (tuples equal_terms values inter) := by
  induction inter using blocks_induction generalizing sum with
  | nil => simp [combination_loop, tuples, weight]
  | block term k rest hrest ih =>
    have hblock : block_value values calc_sum term k =
        homogeneous (k + 1) ((values term).map fun v => v * v) := by
      unfold block_value
      split
      case isTrue hk =>
        rw [hk, homogeneous_one]
        exact hcalc term mem_cons_self
      case isFalse => rfl
    rw [combination_loop_block k hrest, ih fun t ht => hcalc t (mem_cons_of_mem _ (mem_append_right _ ht)), hblock,
      mul_assoc, tuples, weight_tuples_from_run _ _ _ (by simp) k rest hrest]

/-- A term without values other than zero, and with the sum for them, leaves nothing. -/
theorem combination_loop_of_zero {t : T} {inter : List T} (ht : t ∈ inter) (hzero : ∀ v ∈ values t, v * v = 0)
    (hcalc : calc_sum t = 0) (sum : V) : combination_loop values calc_sum 0 sum inter = 0 := by
  induction inter using blocks_induction generalizing sum with
  | nil => cases ht
  | block term k rest hrest ih =>
    rw [combination_loop_block k hrest]
    rcases mem_append.mp (show t ∈ replicate (k + 1) term ++ rest from ht) with hblock | hmem
    · obtain rfl := eq_of_mem_replicate hblock
      have hvalue : block_value values calc_sum t k = 0 := by
        unfold block_value
        split
        case isTrue => exact hcalc
        case isFalse => exact homogeneous_of_zero (forall_mem_map.mpr hzero) k
      rw [hvalue, mul_zero, combination_loop_zero]
    · exact ih hmem _

/-- Where a sum is wrong, the other terms have only values that are zero. -/
def OnlyWrong (values : T → List V) (calc_sum : T → V) : Prop :=
  ∀ a, calc_sum a ≠ sum_squares (values a) → ∀ b, b ≠ a → sum_squares (values b) = 0 ∧ calc_sum b = 0

/-- A wrong sum is not read for an interaction of its term with itself, and
    with other terms nothing is left. -/
theorem OnlyWrong.combination_loop_eq (h : OnlyWrong values calc_sum)
    (hzero : ∀ t, sum_squares (values t) = 0 → ∀ v ∈ values t, v * v = 0) {inter : List T}
    (hlen : 2 ≤ inter.length) :
    combination_loop values calc_sum 0 1 inter =
      combination_loop values (fun t => sum_squares (values t)) 0 1 inter := by
  by_cases hright : ∀ t ∈ inter, calc_sum t = sum_squares (values t)
  · rw [VW.combination_loop_eq inter hright, VW.combination_loop_eq inter fun _ _ => rfl]
  push Not at hright
  obtain ⟨a, -, ha⟩ := hright
  by_cases hother : ∃ b ∈ inter, b ≠ a
  · obtain ⟨b, hb, hne⟩ := hother
    obtain ⟨hsum, hcalc⟩ := h a ha b hne
    rw [combination_loop_of_zero hb (hzero b hsum) hcalc, combination_loop_of_zero hb (hzero b hsum) hsum]
  · push Not at hother
    obtain ⟨k, hk⟩ := Nat.exists_eq_add_of_le' hlen
    rw [eq_replicate_iff.mpr ⟨hk, hother⟩, ← append_nil (replicate _ a), replicate_succ, cons_append,
      combination_loop_block _ (by simp), combination_loop_block _ (by simp)]
    rfl

end Terms

/-! ## Generated features -/

theorem foldl_cross_fst (fs : List (V × FeatureIndex)) (f : V × FeatureIndex) :
    (fs.foldl cross f).1 = f.1 * (fs.map Prod.fst).prod := by
  induction fs generalizing f with
  | nil => simp
  | cons g fs ih => simp [ih, cross, interaction_value, mul_assoc]

/-- The value of a generated feature is the product of the values. -/
theorem combine_features_fst (offset : BitVec 64) (x : List (V × FeatureIndex)) :
    (combine_features offset x).1 = (x.map Prod.fst).prod := by
  cases x with
  | nil => rfl
  | cons f fs => simp [combine_features, shifted, foldl_cross_fst]

theorem sum_squares_flatMap {α : Type} (l : List α) (f : α → List V) :
    sum_squares (l.flatMap f) = (l.map fun a => sum_squares (f a)).sum := by
  induction l with
  | nil => rfl
  | cons a l ih => rw [flatMap_cons, sum_squares_append, ih, map_cons, sum_cons]

theorem prod_map_mul_self (l : List V) : l.prod * l.prod = (l.map fun v => v * v).prod := by
  induction l with
  | nil => simp
  | cons v l ih =>
    rw [map_cons, prod_cons, prod_cons, ← ih]
    ring

theorem sum_squares_combine_features (offset : BitVec 64) (xs : List (List (V × FeatureIndex))) :
    sum_squares ((xs.map (combine_features offset)).map Prod.fst) =
      weight (fun v => v * v) (xs.map (map Prod.fst)) := by
  unfold sum_squares weight
  simp only [map_map, Function.comp_def, combine_features_fst, prod_map_mul_self]

/-- The features of an interaction without permutations, through the extents or
    not, and the loop over its terms. -/
theorem sum_squares_tuples {T : Type} [DecidableEq T] [DecidableEq V] (offset : BitVec 64)
    {items : T → List (V × FeatureIndex)} {calc_sum : T → V} {inter : List T}
    (hcalc : ∀ t ∈ inter, calc_sum t = sum_squares ((items t).map Prod.fst)) :
    sum_squares (((tuples equal_terms items inter).map (combine_features offset)).map Prod.fst) =
      combination_loop (fun t => (items t).map Prod.fst) calc_sum 0 1 inter := by
  rw [sum_squares_combine_features, tuples_map_fst, combination_loop_eq inter hcalc, one_mul]

theorem foldl_add_eq {α : Type} (f : α → V) (l : List α) (acc : V) :
    l.foldl (fun sum a => sum + f a) acc = acc + (l.map f).sum := by
  induction l generalizing acc with
  | nil => simp
  | cons a l ih =>
    rw [foldl_cons, ih, map_cons, sum_cons, add_assoc]

theorem calc_sum_ft_squared_for_extent_eq (ec : ExamplePredict V) (term : ExtentTerm) :
    calc_sum_ft_squared_for_extent ec term = sum_squares (ec.extent_values term) := by
  rw [calc_sum_ft_squared_for_extent, foldl_add_eq, zero_add, sum_squares]

variable [DecidableEq V] {ec : ExamplePredict V} {interactions : List (List NamespaceIndex)}
  {extent_interactions : List (List ExtentTerm)}

/-- What the loops give with the sums of the values. -/
def ExamplePredict.exact_sum (ec : ExamplePredict V) (interactions : List (List NamespaceIndex))
    (extent_interactions : List (List ExtentTerm)) : V :=
  (interactions.map (combination_loop ec.namespace_values
    (fun ns => sum_squares (ec.namespace_values ns)) 0 1)).sum +
    (extent_interactions.map (combination_loop ec.extent_values (calc_sum_ft_squared_for_extent ec) 0 1)).sum

/-- Without permutations, the features that are generated have the exact sum. -/
theorem generated_sum_squares (hclosed : ec.ExtentsClosed) (hlen : ∀ ns ∈ interactions, 2 ≤ ns.length)
    (hlen' : ∀ terms ∈ extent_interactions, 2 ≤ terms.length)
    (hwild : ∀ terms ∈ extent_interactions, ∀ term ∈ terms, term.1 ≠ WILDCARD_NAMESPACE) :
    ∃ features, (∃ m, ∀ fuel ≥ m, generate_interactions fuel interactions extent_interactions false ec =
        some (features.length, features)) ∧
      sum_squares (features.map Prod.fst) = ec.exact_sum interactions extent_interactions := by
  obtain ⟨features, hperm, hrun⟩ := generate_interactions_perm false ec interactions
    extent_interactions (fun _ _ => hclosed) hlen hlen' hwild
  refine ⟨features, hrun, ?_⟩
  have hloop : (term_loop false : NamespaceIndex → NamespaceIndex → Bool) = equal_terms := by
    funext a b
    simp [term_loop]
  -- The features of one interaction of each kind.
  have hchar (ns : List NamespaceIndex) : sum_squares (((tuples (term_loop false)
      ec.namespace_features ns).map (combine_features ec.ft_offset)).map Prod.fst) =
      combination_loop ec.namespace_values (fun ns => sum_squares (ec.namespace_values ns)) 0 1 ns := by
    have hvalues : ec.namespace_values = fun t => (ec.namespace_features t).map Prod.fst := by
      funext t
      exact (Features.map_fst_items _).symm
    rw [hloop, hvalues]
    exact sum_squares_tuples ec.ft_offset fun _ _ => rfl
  have hextent (terms : List ExtentTerm) (hterms : terms ∈ extent_interactions) :
      sum_squares ((((tuples equal_terms ec.hash_extents terms).flatMap
        (tuples (FeaturesRange.same_loop false) (·.features))).map
          (combine_features ec.ft_offset)).map Prod.fst) =
      combination_loop ec.extent_values (calc_sum_ft_squared_for_extent ec) 0 1 terms := by
    have hparts := extent_combinations_perm hclosed (hlen' terms hterms)
    rw [sum_squares_perm ((hparts.map _).map _)]
    exact sum_squares_tuples ec.ft_offset fun t _ => calc_sum_ft_squared_for_extent_eq ec t
  rw [sum_squares_perm (hperm.map _), map_append, sum_squares_append, map_flatMap,
    map_flatMap, sum_squares_flatMap, sum_squares_flatMap, map_congr_left fun ns _ => hchar ns,
    map_congr_left hextent]
  rfl

/-- A term that comes again comes next. -/
def Grouped {T : Type} : List T → Prop
  | [] => True
  | t :: ts => (t ∈ ts → ts.head? = some t) ∧ Grouped ts

/-- For all interactions in which equal terms are contiguous, the statistics are those of the features
    that are generated. -/
def ExamplePredict.StatisticsExact (ec : ExamplePredict V) : Prop :=
  ∀ (interactions : List (List NamespaceIndex)) (extent_interactions : List (List ExtentTerm)),
    (∀ ns ∈ interactions, 2 ≤ ns.length ∧ Grouped ns) →
    (∀ terms ∈ extent_interactions, 2 ≤ terms.length ∧ Grouped terms ∧ ∀ term ∈ terms, term.1 ≠ WILDCARD_NAMESPACE) →
    ∃ num_features features,
      (∃ m, ∀ fuel ≥ m, generate_interactions fuel interactions extent_interactions false ec =
        some (num_features, features)) ∧
      eval_sum_ft_squared_of_generated_ft false interactions extent_interactions ec =
        sum_squares (features.map Prod.fst)

/-- An interaction that is generated as its sums say. -/
theorem ExamplePredict.StatisticsExact.interaction (h : ec.StatisticsExact) (hclosed : ec.ExtentsClosed)
    {ns : List NamespaceIndex} (hlen : 2 ≤ ns.length) (hgrouped : Grouped ns) :
    combination_loop ec.namespace_values (calc_sum_ft_squared_for_namespace ec) 0 1 ns =
      combination_loop ec.namespace_values (fun ns => sum_squares (ec.namespace_values ns)) 0 1 ns := by
  obtain ⟨n, features, ⟨m, hrun⟩, heval⟩ := h [ns] [] (by simpa using ⟨hlen, hgrouped⟩) (by simp)
  obtain ⟨features', ⟨m', hrun'⟩, hsum⟩ := @generated_sum_squares _ _ _ ec [ns] [] hclosed
    (by simpa using hlen) (by simp) (by simp)
  have heq := (hrun (max m m') (Nat.le_max_left m m')).symm.trans (hrun' (max m m') (Nat.le_max_right m m'))
  simp only [Option.some.injEq, Prod.mk.injEq] at heq
  rw [heq.2, hsum] at heval
  simpa [eval_sum_ft_squared_of_generated_ft, calculate_count_and_sum_ft_sq_for_combinations,
    exact_sum] using heval

/-- Two different namespaces, the second one `k + 1` times. -/
theorem ExamplePredict.StatisticsExact.pair (h : ec.StatisticsExact) (hclosed : ec.ExtentsClosed)
    {a b : NamespaceIndex} (hne : b ≠ a) (k : Nat) : calc_sum_ft_squared_for_namespace ec a *
        block_value ec.namespace_values (calc_sum_ft_squared_for_namespace ec) b k =
      sum_squares (ec.namespace_values a) *
        block_value ec.namespace_values (fun ns => sum_squares (ec.namespace_values ns)) b k := by
  have hgrouped : Grouped (b :: replicate k b) := by
    induction k with
    | zero => exact ⟨fun hb => absurd hb not_mem_nil, trivial⟩
    | succ k ih => exact ⟨fun _ => rfl, ih⟩
  have hloop (calc_sum : NamespaceIndex → V) :
      combination_loop ec.namespace_values calc_sum 0 1 (a :: b :: replicate k b) =
        calc_sum a * block_value ec.namespace_values calc_sum b k := by
    have hfirst := @combination_loop_block _ _ _ _ _ ec.namespace_values calc_sum a (b :: replicate k b) 0
      (by simp [hne.symm]) 1
    have hsecond := @combination_loop_block _ _ _ _ _ ec.namespace_values calc_sum b [] k
      (by simp) (1 * block_value ec.namespace_values calc_sum a 0)
    rw [append_nil] at hsecond
    exact hfirst.trans (hsecond.trans (congrArg (· * _) (one_mul (calc_sum a))))
  have heq := @interaction _ _ _ _ h hclosed (a :: b :: replicate k b) (by simp)
    ⟨fun hmem => by simp [hne.symm] at hmem, hgrouped⟩
  rwa [hloop, hloop] at heq

section Ordered

variable [LinearOrder V] [IsStrictOrderedRing V] {values : List V}

omit [DecidableEq V] in
theorem homogeneous_squares_pos {v : V} (hv : v ∈ values) (hne : v * v ≠ 0) (k : Nat) :
    0 < homogeneous k (values.map fun v => v * v) :=
  homogeneous_pos (forall_mem_map.mpr fun v _ => mul_self_nonneg v) (mem_map_of_mem hv)
    (lt_of_le_of_ne (mul_self_nonneg v) hne.symm) k

omit [DecidableEq V] in
theorem eq_zero_of_sum_squares (h : sum_squares values = 0) (v : V) (hv : v ∈ values) : v * v = 0 := by
  by_contra hne
  have hpos := homogeneous_squares_pos hv hne 1
  rw [homogeneous_one] at hpos
  exact hpos.ne' h

theorem ExamplePredict.StatisticsExact.others_zero (h : ec.StatisticsExact) (hclosed : ec.ExtentsClosed)
    {a b : NamespaceIndex} (hne : b ≠ a)
    (ha : calc_sum_ft_squared_for_namespace ec a ≠ sum_squares (ec.namespace_values a)) :
    sum_squares (ec.namespace_values b) = 0 := by
  by_contra hb
  have hpair := h.pair hclosed hne 1
  obtain ⟨v, hv, hsquare⟩ : ∃ v ∈ ec.namespace_values b, v * v ≠ 0 := by
    by_contra hall
    push Not at hall
    exact hb (sum_eq_zero (forall_mem_map.mpr hall))
  exact ha (mul_right_cancel₀ (homogeneous_squares_pos hv hsquare 2).ne' hpair)

/-- The statistics are exact if and only if a wrong sum is that of the only namespace with a feature other
    than zero, and that for the others is zero. -/
theorem statistics_exact_iff (hclosed : ec.ExtentsClosed) : ec.StatisticsExact ↔
    ∀ a, ¬ (ec.feature_space a).SumInvariant → ∀ b, b ≠ a →
      sum_squares (ec.feature_space b).values = 0 ∧ (ec.feature_space b).sum_feat_sq = 0 := by
  constructor
  · intro h a ha b hne
    have hzero : sum_squares (ec.namespace_values b) = 0 := h.others_zero hclosed hne ha
    refine ⟨hzero, ?_⟩
    by_contra hb
    -- Both sums are wrong, so neither namespace has a feature that counts.
    have hsum := h.others_zero hclosed hne.symm (fun heq => hb (heq.trans hzero))
    have hpair := h.pair hclosed hne 0
    rw [hsum, zero_mul] at hpair
    rcases mul_eq_zero.mp hpair with hcached | hcached
    · exact ha (hcached.trans hsum.symm)
    · exact hb hcached
  · intro h interactions extent_interactions hlen hlen'
    obtain ⟨features, hrun, hsum⟩ := generated_sum_squares hclosed (fun ns hns => (hlen ns hns).1)
      (fun terms hterms => (hlen' terms hterms).1) fun terms hterms => (hlen' terms hterms).2.2
    refine ⟨_, features, hrun, ?_⟩
    have honly : OnlyWrong ec.namespace_values (calc_sum_ft_squared_for_namespace ec) := h
    rw [hsum, exact_sum, ← map_congr_left fun ns hns =>
      honly.combination_loop_eq (fun t => eq_zero_of_sum_squares) (hlen ns hns).1]
    simp only [eval_sum_ft_squared_of_generated_ft, calculate_count_and_sum_ft_sq_for_combinations,
      foldl_add_eq, Bool.false_eq_true, if_false, zero_add]

end Ordered

/-- A full name in two extents, with itself. -/
theorem statistics_exact_two_extents :
    (of_features 97
      (⟨[2, 3], [7, 9], [⟨0, 1, 5⟩, ⟨1, 2, 5⟩], 13, rfl⟩ : Features Int)).StatisticsExact ∧
    eval_sum_ft_squared_of_generated_ft false [[97, 97]] [[(97, 5), (97, 5)]] (.of_features 97
      (⟨[2, 3], [7, 9], [⟨0, 1, 5⟩, ⟨1, 2, 5⟩], 13, rfl⟩ : Features Int)) = 266 := by
  have hclosed : Extents.Closed [⟨0, 1, 5⟩, ⟨1, 2, 5⟩] 2 := ⟨by decide, by decide⟩
  refine ⟨(statistics_exact_iff (extentsClosed_of_features hclosed)).mpr fun a ha => absurd ?_ ha, by decide⟩
  unfold Features.SumInvariant of_features
  dsimp only
  split <;> decide

/-- Sorted features of which two are the same, and another namespace. -/
def duplicates : NamespaceIndex → Features Int := fun ns =>
  if ns = 97 then (⟨[1, 1, 2], [3, 3, 5], [], 6, rfl⟩ : Features Int).unique_features (-1)
  else if ns = 98 then ⟨[1], [7], [], 1, by decide⟩ else .empty

theorem lt_size_duplicates {ns : NamespaceIndex} {p : Nat} (hp : p < (duplicates ns).size) :
    ns = 97 ∧ p < 2 ∨ ns = 98 ∧ p < 1 := by
  unfold duplicates at hp
  split at hp
  case isTrue h => exact .inl ⟨h, hp⟩
  case isFalse =>
    split at hp
    case isTrue h => exact .inr ⟨h, hp⟩
    case isFalse => exact absurd hp (Nat.not_lt_zero p)

def with_duplicates : ExamplePredict Int where
  feature_space := duplicates
  ft_offset := 0
  address ns := if ns = 97 then 0 else 2
  separate := by
    intro ns ns' hne p hp q hq
    rcases lt_size_duplicates hp with ⟨rfl, hp⟩ | ⟨rfl, hp⟩ <;>
      rcases lt_size_duplicates hq with ⟨rfl, hq⟩ | ⟨rfl, hq⟩
    · exact absurd rfl hne
    · simp
      omega
    · simp
      omega
    · exact absurd rfl hne

/-- The values 1 and 2 are left, with the sum 2. -/
theorem statistics_of_duplicates : ¬ with_duplicates.StatisticsExact := by
  intro h
  have hclosed : with_duplicates.ExtentsClosed := by
    intro ns
    show Extents.Closed (duplicates ns).namespace_extents _
    unfold duplicates
    split
    · exact Extents.closed_nil _
    · split <;> exact Extents.closed_nil _
  have hpair := h.pair hclosed (show (98 : NamespaceIndex) ≠ 97 by decide) 0
  revert hpair
  decide

end VW
