import VowpalWabbit.Framework.Loops
import VowpalWabbit.Framework.Sorting
import VowpalWabbit.Interactions.Generate

/-! # Compiling interactions

    `core/interactions.h`: an interaction with wildcards stands for all
    interactions in which each wildcard is replaced by a namespace that was seen.
    The choices for the wildcards are generated by loops over counters, then the
    fixed terms are put in their places, and duplicates are removed.

    The loops have no bound in the source: they are given fuel, and are `none`
    without enough of it, and also when they would read past the end of a set.
-/

open Cpp

namespace VW

/-- The order of `namespace_index`, an `unsigned char`. -/
def namespace_order : LinearComparator NamespaceIndex :=
  .of_key BitVec.toNat fun _ _ h => BitVec.eq_of_toNat_eq h

/-- The order of `extent_term`, a `std::pair`. -/
def extent_order : LinearComparator ExtentTerm :=
  namespace_order.prod (.of_key BitVec.toNat fun _ _ h => BitVec.eq_of_toNat_eq h)

def CCB_SLOT_NAMESPACE : NamespaceIndex := 139

/-- From ' ' to '~', and the namespace of CCB slots. -/
def is_interaction_ns (ns : NamespaceIndex) : Bool :=
  (decide (32 ≤ ns.toNat) && decide (ns.toNat ≤ 126)) || ns == CCB_SLOT_NAMESPACE

def contains_wildcard (interaction : List NamespaceIndex) : Bool :=
  interaction.contains WILDCARD_NAMESPACE

/-- `contains_wildcard` for terms: the wildcard character stands for the hash too. -/
def extent_contains_wildcard (interaction : List ExtentTerm) : Bool :=
  interaction.contains (WILDCARD_NAMESPACE, WILDCARD_NAMESPACE.zeroExtend 64)

section Generators

variable {T : Type}

/-- `indices_to_values_ignore_last_index`: the elements at the first `n` indices. -/
def indices_to_values_ignore_last_index (indices : Nat → Nat) (n : Nat) (values : List T) :
    Option (List T) :=
  (List.range n).mapM fun i => values[indices i]?

def indices_to_values_one_based (indices : Nat → Nat) (n : Nat) (values : List T) :
    Option (List T) :=
  (List.range n).mapM fun i => values[indices i - 1]?

/-- One round of the loop over the indices: an index that is past the end moves
    the next one on, and it and those before it start there again. -/
def carry_index (last_index : Nat) (indices : Nat → Nat) (i : Nat) : Nat → Nat :=
  if last_index < indices i then
    let next := indices (i + 1) + 1
    fun k => if k ≤ i + 1 then next else indices k
  else indices

def combinations_loop (namespaces : List T) (num_to_pick : Nat) :
    Nat → (Nat → Nat) → Option (List (List T))
  | 0, _ => none
  | fuel + 1, indices =>
    let last_index := namespaces.length - 1
    let indices := for_range num_to_pick (carry_index last_index) indices
    -- The last index signals the end.
    if 0 < indices num_to_pick then some []
    else do
      let values ← indices_to_values_ignore_last_index indices num_to_pick namespaces
      let result ← combinations_loop namespaces num_to_pick fuel
        (Function.update indices 0 (indices 0 + 1))
      pure (values :: result)

def generate_namespace_combinations_with_repetition (fuel : Nat) (namespaces : List T)
    (num_to_pick : Nat) : Option (List (List T)) :=
  combinations_loop namespaces num_to_pick fuel fun _ => 0

/-- `next_index` counts from one. -/
def permutations_loop (namespaces : List T) (num_to_pick : Nat) :
    Nat → (Nat → Nat) → Nat → Option (List (List T))
  | 0, _, _ => none
  | fuel + 1, one_based_chosen_indices, next_index =>
    if one_based_chosen_indices (next_index - 1) = namespaces.length then
      if next_index - 1 = 0 then some []
      else permutations_loop namespaces num_to_pick fuel one_based_chosen_indices (next_index - 1)
    else do
      let chosen := one_based_chosen_indices (next_index - 1) + 1
      -- The indices after it start with one again.
      let one_based_chosen_indices := fun k =>
        if k < next_index - 1 then one_based_chosen_indices k
        else if k = next_index - 1 then chosen else 1
      let values ← indices_to_values_one_based one_based_chosen_indices num_to_pick namespaces
      let result ← permutations_loop namespaces num_to_pick fuel one_based_chosen_indices num_to_pick
      pure (values :: result)

def generate_namespace_permutations_with_repetition (fuel : Nat) (namespaces : List T)
    (num_to_pick : Nat) : Option (List (List T)) :=
  permutations_loop namespaces num_to_pick fuel
    (fun i => if i < num_to_pick - 1 then 1 else 0) num_to_pick

/-- The two functions that can be given as `generate_func`. -/
inductive GenerateFunc where
  | combinations
  | permutations
  deriving DecidableEq, Repr

def GenerateFunc.run (generate_func : GenerateFunc) (fuel : Nat) (namespaces : List T)
    (num_to_pick : Nat) : Option (List (List T)) :=
  match generate_func with
  | .combinations => generate_namespace_combinations_with_repetition fuel namespaces num_to_pick
  | .permutations => generate_namespace_permutations_with_repetition fuel namespaces num_to_pick

end Generators

/-- The fixed terms are inserted where they stand in the interaction, one after
    the other. -/
def insert_fixed {T : Type} (is_wildcard : T → Bool) (interaction : List T) (res : List T) : List T :=
  interaction.zipIdx.foldl (fun res (term, i) =>
    if is_wildcard term then res else res.insertIdx i term) res

def num_wildcards {T : Type} (is_wildcard : T → Bool) (interaction : List T) : Nat :=
  (interaction.filter is_wildcard).length

/-! ## Pairs -/

def expand_quadratics_wildcard_interactions (leave_duplicate_interactions : Bool)
    (new_example_indices : List NamespaceIndex) : List (List NamespaceIndex) :=
  let inner (interactions : OrderedSet namespace_order.lex.toComparator) (idx1 idx2 : NamespaceIndex) :=
    let interactions := (interactions.insert [idx1, idx2]).insert [idx2, idx2]
    if leave_duplicate_interactions then interactions.insert [idx2, idx1] else interactions
  (new_example_indices.zipIdx.foldl (fun interactions (idx1, i) =>
    (new_example_indices.drop i).foldl (fun interactions idx2 => inner interactions idx1 idx2)
      (interactions.insert [idx1, idx1])) OrderedSet.empty).elements

/-! ## Sorting and duplicates -/

section Filter

variable {T : Type} [DecidableEq T]

/-- The loop of `must_be_left_sorted`. -/
def left_sorted_loop (diff_ns_found pair_found : Bool) : List T → Bool
  | a :: b :: oi =>
    if a = b then
      if diff_ns_found then true else left_sorted_loop diff_ns_found true (b :: oi)
    else
      if pair_found then true else left_sorted_loop true pair_found (b :: oi)
  | _ => false

def must_be_left_sorted (oi : List T) : Bool :=
  if oi.length ≤ 1 then true else left_sorted_loop false false oi

def sort_and_filter_duplicate_interactions (c : LinearComparator T) (vec : List (List T))
    (filter_duplicates : Bool) : List (List T) :=
  -- Interaction value sort and original position.
  let vec_sorted := vec.zipIdx.map fun (inter, i) => (c.sort inter, i)
  let vec_sorted :=
    if filter_duplicates then
      let unique := LinearComparator.unique Prod.fst (c.lex.stable_sort Prod.fst vec_sorted)
      -- Restore the original order.
      (LinearComparator.of_key id fun _ _ h => h).stable_sort Prod.snd unique
    else vec_sorted
  vec_sorted.map fun (sorted, i) =>
    if must_be_left_sorted sorted then sorted else vec.getD i []

end Filter

/-! ## All interactions -/

/-- Shorter interactions come first. -/
def sort_interactions_comparator (a b : List NamespaceIndex) : Bool :=
  if a.length ≠ b.length then decide (a.length < b.length) else namespace_order.lex_lt a b

def compile_interaction (generate_func : GenerateFunc) (leave_duplicate_interactions : Bool)
    (fuel : Nat) (interaction indices : List NamespaceIndex) : Option (List (List NamespaceIndex)) := do
  let is_wildcard : NamespaceIndex → Bool := (· == WILDCARD_NAMESPACE)
  let num_wildcards := num_wildcards is_wildcard interaction
  -- Quadratic fast path or generic generation function.
  let result ←
    if num_wildcards = 2 then
      some (expand_quadratics_wildcard_interactions leave_duplicate_interactions indices)
    else generate_func.run fuel indices num_wildcards
  pure (result.map (insert_fixed is_wildcard interaction))

def compile_extent_interaction (generate_func : GenerateFunc) (fuel : Nat)
    (interaction all_seen_extents : List ExtentTerm) : Option (List (List ExtentTerm)) := do
  let is_wildcard : ExtentTerm → Bool := (·.1 == WILDCARD_NAMESPACE)
  let result ← generate_func.run fuel all_seen_extents (num_wildcards is_wildcard interaction)
  pure (result.map (insert_fixed is_wildcard interaction))

def compile_interactions (generate_func : GenerateFunc) (leave_duplicate_interactions : Bool)
    (fuel : Nat) (interactions : List (List NamespaceIndex)) (indices : List NamespaceIndex) :
    Option (List (List NamespaceIndex)) := do
  let compiled ← interactions.mapM fun inter =>
    if contains_wildcard inter then
      compile_interaction generate_func leave_duplicate_interactions fuel inter indices
    else some [inter]
  let final_interactions := compiled.flatten.insertionSort
    fun a b => sort_interactions_comparator b a = false
  pure (sort_and_filter_duplicate_interactions namespace_order final_interactions
    (!leave_duplicate_interactions))

def compile_extent_interactions (generate_func : GenerateFunc) (leave_duplicate_interactions : Bool)
    (fuel : Nat) (interactions : List (List ExtentTerm)) (indices : List ExtentTerm) :
    Option (List (List ExtentTerm)) := do
  let compiled ← interactions.mapM fun inter =>
    if extent_contains_wildcard inter then compile_extent_interaction generate_func fuel inter indices
    else some [inter]
  pure (sort_and_filter_duplicate_interactions extent_order compiled.flatten
    (!leave_duplicate_interactions))

end VW
