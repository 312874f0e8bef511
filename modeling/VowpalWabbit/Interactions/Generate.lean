import VowpalWabbit.Interactions.Predict
import VowpalWabbit.FeatureGroup.Extents

/-! # Generating the interactions of an example

    `generate_interactions` of `core/interactions_predict.h` over an example,
    and `eval_sum_ft_squared_of_generated_ft` of `core/interactions.cc`, which
    computes the sum of the squares of the generated features without
    generating them.
-/

open Cpp

namespace VW

abbrev NamespaceIndex : Type := BitVec 8

/-- `VW::extent_term`: the namespace and the hash of the full name. -/
abbrev ExtentTerm : Type := NamespaceIndex × BitVec 64

def WILDCARD_NAMESPACE : NamespaceIndex := 58

/-- What is read of `VW::example_predict`. The values of a feature group stand
    in an array of their own: `address` is where it begins, in elements. -/
structure ExamplePredict (V : Type) where
  feature_space : NamespaceIndex → Features V
  ft_offset : BitVec 64
  address : NamespaceIndex → Nat
  separate : ∀ ns ns', ns ≠ ns' → ∀ p < (feature_space ns).size, ∀ q < (feature_space ns').size,
    address ns + p ≠ address ns' + q

variable {V : Type}

namespace ExamplePredict

/-- From `audit_begin()` to `audit_end()`. -/
def namespace_range (ec : ExamplePredict V) (ns : NamespaceIndex) : FeaturesRange V :=
  ⟨ec.address ns, (ec.feature_space ns).items⟩

/-- What an `ns_extent_iterator` points to. -/
def extent_range (ec : ExamplePredict V) (ns : NamespaceIndex) (extent : NamespaceExtent) :
    FeaturesRange V :=
  ⟨ec.address ns + extent.begin_index,
    ((ec.feature_space ns).items.take extent.end_index).drop extent.begin_index⟩

/-- From `hash_extents_begin` to `hash_extents_end`. -/
def hash_extents (ec : ExamplePredict V) (term : ExtentTerm) : List (FeaturesRange V) :=
  ((ec.feature_space term.1).namespace_extents.filter (·.hash == term.2)).map
    (ec.extent_range term.1)

def term_is_empty (ec : ExamplePredict V) (term : NamespaceIndex) : Bool :=
  (ec.feature_space term).values.isEmpty

def has_empty_interaction (ec : ExamplePredict V) (terms : List NamespaceIndex) : Bool :=
  terms.any ec.term_is_empty

/-- `has_empty_interaction` for extents. -/
def has_empty_extent_interaction (ec : ExamplePredict V) (terms : List ExtentTerm) : Bool :=
  terms.any fun idx => !(ec.feature_space idx.1).namespace_extents.any fun extent =>
    idx.2 == extent.hash && decide (0 < extent.end_index - extent.begin_index)

end ExamplePredict

/-- An example with one namespace. -/
def ExamplePredict.of_features [Zero V] (ns : NamespaceIndex) (f : Features V) : ExamplePredict V where
  feature_space := fun ns' => if ns' = ns then f else .empty
  ft_offset := 0
  address := fun _ => 0
  separate := by
    intro a b hne p hp q hq
    have hempty (c : NamespaceIndex) (n : Nat)
        (h : n < (if c = ns then f else Features.empty).size) : c = ns := by
      by_contra hc
      rw [if_neg hc] at h
      exact absurd h (Nat.not_lt_zero n)
    exact absurd ((hempty a p hp).trans (hempty b q hq).symm) hne

/-! ## Combinations of extents -/

/-- `extent_interaction_expansion_stack_item`. -/
structure ExpansionStackItem (V : Type) where
  current_term : Nat
  prev_term : Nat
  offset : Nat
  so_far : List (FeaturesRange V)

/-- What one round does with the item from the top of the stack: the
    combinations that are dispatched, and the items that are pushed. -/
def expand_item (ec : ExamplePredict V) (terms : List ExtentTerm) (top : ExpansionStackItem V) :
    Option (List (List (FeaturesRange V)) × List (ExpansionStackItem V)) :=
  match terms[top.current_term]?, terms[top.prev_term]? with
  | some current_term, some prev_term =>
    let offset := if prev_term = current_term then top.offset else 0
    let extents := (ec.hash_extents current_term).drop offset
    if top.current_term = terms.length - 1 then
      some (extents.map fun it => top.so_far ++ [it], [])
    else
      some ([], extents.zipIdx.map fun (it, i) =>
        ⟨top.current_term + 1, top.current_term, offset + i, top.so_far ++ [it]⟩)
  | _, _ => none

/-- The rounds until the stack is empty; `none` when the fuel does not last. -/
def expansion_loop (ec : ExamplePredict V) (terms : List ExtentTerm) :
    Nat → List (ExpansionStackItem V) → Option (List (List (FeaturesRange V)))
  | _, [] => some []
  | 0, _ :: _ => none
  | fuel + 1, top :: in_process_frames =>
    match expand_item ec terms top with
    | none => none
    -- The item that was pushed last is on top.
    | some (combinations, pushed) =>
      (expansion_loop ec terms fuel (pushed.reverse ++ in_process_frames)).map (combinations ++ ·)

/-- `generate_generic_extent_combination_iterative`: the combinations it
    dispatches, in this order. -/
def generate_generic_extent_combination_iterative (fuel : Nat) (ec : ExamplePredict V)
    (terms : List ExtentTerm) : Option (List (List (FeaturesRange V))) :=
  match terms with
  | [] => none
  | current_term :: _ =>
    expansion_loop ec terms fuel
      ((ec.hash_extents current_term).zipIdx.map fun (it, i) => ⟨1, 0, i, [it]⟩).reverse

/-! ## All interactions -/

section Generate

variable [Mul V] [One V]

/-- The loops over pairs and triples are special cases. -/
def process_interaction (fuel : Nat) (permutations : Bool) (ranges : List (FeaturesRange V)) :
    Option (Nat × List (KernelCall V)) :=
  match ranges with
  | [first, second] => some (process_quadratic_interaction first second permutations)
  | [first, second, third] => some (process_cubic_interaction first second third permutations)
  | _ => process_generic_interaction fuel ranges permutations

/-- `num_features += ...`, with the calls that are made on the way. -/
def add_result (acc result : Option (Nat × List (KernelCall V))) :
    Option (Nat × List (KernelCall V)) := do
  let (num_features, calls) ← acc
  let (n, made) ← result
  pure (num_features + n, calls ++ made)

/-- One interaction after the other. -/
def process_each (results : List (Option (Nat × List (KernelCall V)))) :
    Option (Nat × List (KernelCall V)) :=
  results.foldl add_result (some (0, []))

/-- One round of the loop over `interactions`. -/
def process_char_interaction (fuel : Nat) (permutations : Bool) (ec : ExamplePredict V)
    (ns : List NamespaceIndex) : Option (Nat × List (KernelCall V)) :=
  if ec.has_empty_interaction ns then some (0, [])
  else process_interaction fuel permutations (ns.map ec.namespace_range)

/-- One round of the loop over `extent_interactions`. -/
def process_extent_interaction (fuel : Nat) (permutations : Bool) (ec : ExamplePredict V)
    (ns : List ExtentTerm) : Option (Nat × List (KernelCall V)) :=
  if ec.has_empty_extent_interaction ns then some (0, [])
  else if ns.any (fun term => term.1 == WILDCARD_NAMESPACE) then some (0, [])
  else do
    let combinations ← generate_generic_extent_combination_iterative fuel ec ns
    process_each (combinations.map (process_interaction fuel permutations))

/-- The number of features, and the features that are passed on. -/
def generate_interactions (fuel : Nat) (interactions : List (List NamespaceIndex))
    (extent_interactions : List (List ExtentTerm)) (permutations : Bool) (ec : ExamplePredict V) :
    Option (Nat × List (V × FeatureIndex)) := do
  let (num_features, calls) ← process_each
    (interactions.map (process_char_interaction fuel permutations ec) ++
      extent_interactions.map (process_extent_interaction fuel permutations ec))
  pure (num_features, calls.flatMap (inner_kernel ec.ft_offset))

end Generate

/-! ## The sum of squares without the features -/

section Eval

variable [Zero V] [One V] [Add V] [Mul V]

/-- `for_each_value` of a namespace and of a full name: the values visited. -/
def ExamplePredict.namespace_values (ec : ExamplePredict V) (term : NamespaceIndex) : List V :=
  (ec.feature_space term).values

def ExamplePredict.extent_values (ec : ExamplePredict V) (term : ExtentTerm) : List V :=
  ((ec.hash_extents term).flatMap (·.features)).map Prod.fst

/-- `calc_sum_ft_squared_for_term`. -/
def calc_sum_ft_squared_for_namespace (ec : ExamplePredict V) (term : NamespaceIndex) : V :=
  (ec.feature_space term).sum_feat_sq

def calc_sum_ft_squared_for_extent (ec : ExamplePredict V) (term : ExtentTerm) : V :=
  (ec.extent_values term).foldl (fun sum_feat_sq value => sum_feat_sq + value * value) 0

def calculate_count_and_sum_ft_sq_for_permutations {T : Type} (calc_sum_ft_squared_for_term : T → V)
    (interactions : List (List T)) : V :=
  interactions.foldl (fun sum_feat_sq_in_inter_outer interaction =>
    sum_feat_sq_in_inter_outer +
      interaction.foldl (fun sum term => sum * calc_sum_ft_squared_for_term term) 1) 0

/-- `results[j] += results[j - 1] * x`, for each `j` after the first. -/
def add_products (x prev : V) : List V → List V
  | [] => []
  | r :: results => (r + prev * x) :: add_products x (r + prev * x) results

/-- What happens to the results for one value. -/
def add_value (results : List V) (value : V) : List V :=
  let x := value * value
  match results with
  | [] => []
  | r :: results => (r + x) :: add_products x (r + x) results

/-- `results[order_of_inter - 1]` after all values. -/
def block_sum (order_of_inter : Nat) (values : List V) : V :=
  (values.foldl add_value (List.replicate order_of_inter 0)).getD (order_of_inter - 1) 0

variable {T : Type} [DecidableEq T] [DecidableEq V]

/-- The loop over the terms of an interaction; `skip` terms of a block that is
    done are jumped over. -/
def combination_loop (values : T → List V) (calc_sum_ft_squared_for_term : T → V) :
    Nat → V → List T → V
  | _, sum, [] => sum
  | skip + 1, sum, _ :: inter => combination_loop values calc_sum_ft_squared_for_term skip sum inter
  | 0, sum, term :: inter =>
    if inter.head? ≠ some term then
      -- Neighbour namespaces are different.
      let sum := sum * calc_sum_ft_squared_for_term term
      if sum = 0 then sum else combination_loop values calc_sum_ft_squared_for_term 0 sum inter
    else
      let order_of_inter := 2 + ((inter.drop 1).takeWhile (· = term)).length
      let sum := sum * block_sum order_of_inter (values term)
      if sum = 0 then sum
      else combination_loop values calc_sum_ft_squared_for_term (order_of_inter - 1) sum inter

def calculate_count_and_sum_ft_sq_for_combinations (values : T → List V)
    (calc_sum_ft_squared_for_term : T → V) (interactions : List (List T)) : V :=
  interactions.foldl (fun sum_feat_sq_in_inter_outer inter =>
    sum_feat_sq_in_inter_outer + combination_loop values calc_sum_ft_squared_for_term 0 1 inter) 0

def eval_sum_ft_squared_of_generated_ft (permutations : Bool)
    (interactions : List (List NamespaceIndex)) (extent_interactions : List (List ExtentTerm))
    (ec : ExamplePredict V) : V :=
  if permutations then
    0 + calculate_count_and_sum_ft_sq_for_permutations (calc_sum_ft_squared_for_namespace ec)
        interactions +
      calculate_count_and_sum_ft_sq_for_permutations (calc_sum_ft_squared_for_extent ec)
        extent_interactions
  else
    0 + calculate_count_and_sum_ft_sq_for_combinations ec.namespace_values
        (calc_sum_ft_squared_for_namespace ec) interactions +
      calculate_count_and_sum_ft_sq_for_combinations ec.extent_values
        (calc_sum_ft_squared_for_extent ec) extent_interactions

end Eval

end VW
