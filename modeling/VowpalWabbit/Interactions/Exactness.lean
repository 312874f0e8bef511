import VowpalWabbit.Interactions.Wildcards

/-! # Compiling is exact

    Compiling a list of interactions ends, with the interactions they stand for:
    each of them once, or one for each set of namespaces.
-/

open Cpp Tuples

namespace VW

open List LinearComparator

section Generators

variable {T : Type}

variable {seen : List T}

/-- Both generators end when there is something to choose from. -/
theorem GenerateFunc.run_ends (generate_func : GenerateFunc) (hne : seen ≠ []) {n : Nat}
    (hn : n ≠ 0) : ∃ X, Ends (generate_func.run · seen n) X ∧
      (generate_func = .combinations →
        (X.map Multiset.ofList).Perm ((repeated n seen).map Multiset.ofList)) ∧
      (generate_func = .permutations →
        X.Perm (ordered_tuples (fun _ => seen) (replicate n ()))) := by
  cases generate_func with
  | combinations =>
    refine ⟨_, generate_namespace_combinations_eq hne n, fun _ => ?_, fun h => by cases h⟩
    rw [map_map]
    have hrev : (repeated n seen).map (Multiset.ofList ∘ reverse) =
        (repeated n seen).map Multiset.ofList :=
      map_congr_left fun t _ => Multiset.coe_eq_coe.mpr (reverse_perm t)
    rw [hrev]
  | permutations =>
    exact ⟨_, generate_namespace_permutations_eq hne hn, fun h => (by cases h), fun _ => List.Perm.refl _⟩

variable {spec : List T}

/-- An interaction without wildcards stands for itself. -/
theorem obtainable_of_fixed {is_wildcard : T → Bool} (seen : List T)
    (h : ∀ s ∈ spec, is_wildcard s = false) : obtainable is_wildcard seen spec = [spec] := by
  unfold obtainable
  induction spec with
  | nil => rfl
  | cons s spec ih =>
    have hs := h s mem_cons_self
    rw [map_cons, sections, ih fun t ht => h t (mem_cons_of_mem s ht)]
    simp [choices, hs]

variable [DecidableEq T] (is_wildcard : T → Bool)

/-- What an interaction may be compiled to: all interactions that it stands for,
    or one for each set of terms. -/
def CompilesTo (full : Bool) (seen spec : List T) (out : List (List T)) : Prop :=
  if full then out.Perm (obtainable is_wildcard seen spec)
  else (out.map Multiset.ofList).Perm ((obtainable is_wildcard seen spec).map Multiset.ofList).dedup

theorem compilesTo_of_tuples {full : Bool} (hseen : seen.Nodup) {X : List (List T)}
    (hfull : full = true → X.Perm (ordered_tuples (fun _ => seen)
      (replicate (num_wildcards is_wildcard spec) ())))
    (honce : full = false → (X.map Multiset.ofList).Perm
      ((repeated (num_wildcards is_wildcard spec) seen).map Multiset.ofList)) :
    CompilesTo is_wildcard full seen spec (X.map (insert_fixed is_wildcard spec)) := by
  cases full with
  | true => exact map_insert_fixed_tuples is_wildcard seen spec (hfull rfl)
  | false => exact map_insert_fixed_repeated is_wildcard hseen spec (honce rfl)

theorem compilesTo_fixed (full : Bool) (seen : List T) (h : ∀ s ∈ spec, is_wildcard s = false) :
    CompilesTo is_wildcard full seen spec [spec] := by
  unfold CompilesTo
  rw [obtainable_of_fixed seen h]
  cases full with
  | true => exact List.Perm.refl _
  | false => exact List.Perm.refl _

/-- The sets of terms of compiled interactions are those that the interactions
    stand for. -/
theorem mem_map_of_compilesTo {full : Bool} {out : List (List T)}
    (h : CompilesTo is_wildcard full seen spec out) (m : Multiset T) :
    m ∈ out.map Multiset.ofList ↔ m ∈ (obtainable is_wildcard seen spec).map Multiset.ofList := by
  unfold CompilesTo at h
  cases full with
  | true => exact (h.map Multiset.ofList).mem_iff
  | false => exact h.mem_iff.trans mem_dedup

end Generators

/-! ## One interaction -/

def is_wildcard (ns : NamespaceIndex) : Bool := ns == WILDCARD_NAMESPACE

def extent_is_wildcard (term : ExtentTerm) : Bool := term.1 == WILDCARD_NAMESPACE

/-- Whether an interaction with that many wildcards is compiled to all interactions
    it stands for: pairs are, when duplicates are left, whichever the generator is. -/
def leaves_all (generate_func : GenerateFunc) (leave_duplicate_interactions : Bool) (n : Nat) : Bool :=
  if n = 2 then leave_duplicate_interactions else decide (generate_func = .permutations)

theorem num_wildcards_ne_zero {T : Type} {is_wildcard : T → Bool} {inter : List T} {s : T}
    (hs : s ∈ inter) (hw : is_wildcard s = true) : num_wildcards is_wildcard inter ≠ 0 := by
  unfold num_wildcards
  have hmem : s ∈ inter.filter is_wildcard := mem_filter.mpr ⟨hs, hw⟩
  exact Nat.pos_iff_ne_zero.mp (length_pos_of_mem hmem)

/-- The choices for the wildcards, from the fast path or from the generator. -/
theorem choices_end (generate_func : GenerateFunc) (leave : Bool)
    (indices : OrderedSet namespace_order.toComparator) (hne : indices.elements ≠ []) {n : Nat}
    (hn : n ≠ 0) : ∃ X,
      Ends (fun fuel =>
        if n = 2 then
          some (expand_quadratics_wildcard_interactions leave indices.elements)
        else generate_func.run fuel indices.elements n) X ∧
      (leaves_all generate_func leave n = true →
        X.Perm (ordered_tuples (fun _ => indices.elements) (replicate n ()))) ∧
      (leaves_all generate_func leave n = false →
        (X.map Multiset.ofList).Perm ((repeated n indices.elements).map Multiset.ofList)) := by
  have hnodup := nodup_elements indices
  unfold leaves_all
  by_cases htwo : n = 2
  · -- Pairs do not need the generator.
    subst htwo
    refine ⟨_, Ends.pure _, fun hleave => ?_, fun hleave => ?_⟩
    · obtain rfl : leave = true := hleave
      exact expand_quadratics_leave hnodup
    · obtain rfl : leave = false := hleave
      exact (expand_quadratics_filter hnodup).map _
  · simp only [htwo, if_false]
    obtain ⟨X, hX, hcombinations, hpermutations⟩ := generate_func.run_ends hne hn
    refine ⟨X, hX, fun hall => hpermutations (of_decide_eq_true hall), fun hall => ?_⟩
    have hnot := of_decide_eq_false hall
    cases generate_func with
    | combinations => exact hcombinations rfl
    | permutations => exact absurd rfl hnot

theorem compile_interaction_eq (generate_func : GenerateFunc) (leave : Bool)
    (fuel : Nat) (inter indices : List NamespaceIndex) :
    compile_interaction generate_func leave fuel inter indices =
      (if num_wildcards is_wildcard inter = 2 then
        some (expand_quadratics_wildcard_interactions leave indices)
      else generate_func.run fuel indices (num_wildcards is_wildcard inter)) >>= fun result =>
        some (result.map (insert_fixed is_wildcard inter)) := by
  unfold compile_interaction
  by_cases htwo : num_wildcards is_wildcard inter = 2
  · rw [if_pos htwo]
    exact if_pos htwo
  · rw [if_neg htwo]
    exact if_neg htwo

theorem compile_interaction_compilesTo (generate_func : GenerateFunc)
    (leave : Bool) (indices : OrderedSet namespace_order.toComparator)
    (hne : indices.elements ≠ []) (inter : List NamespaceIndex) : ∃ out,
      Ends (fun fuel => if contains_wildcard inter then
        compile_interaction generate_func leave fuel inter indices.elements
        else some [inter]) out ∧
      CompilesTo is_wildcard (leaves_all generate_func leave
        (num_wildcards is_wildcard inter)) indices.elements inter out := by
  by_cases hw : contains_wildcard inter = true
  · have hmem : WILDCARD_NAMESPACE ∈ inter := contains_iff_mem.mp hw
    have hn : num_wildcards is_wildcard inter ≠ 0 := num_wildcards_ne_zero hmem rfl
    obtain ⟨X, hX, hall, honce⟩ :=
      choices_end generate_func leave indices hne hn
    simp only [hw, if_true, compile_interaction_eq]
    exact ⟨_, hX.map (map (insert_fixed is_wildcard inter)),
      compilesTo_of_tuples is_wildcard (nodup_elements indices) hall honce⟩
  · simp only [hw]
    refine ⟨[inter], Ends.pure _, compilesTo_fixed is_wildcard _ _ fun s hs => ?_⟩
    unfold is_wildcard
    rw [beq_eq_false_iff_ne]
    intro hs'
    exact hw (contains_iff_mem.mpr (hs' ▸ hs))

/-! ## All interactions -/

theorem flatten_perm {A B : Type} {f : A → List B} {l : List A} {parts : List (List B)}
    (h : List.Forall₂ (fun a part => part.Perm (f a)) l parts) : parts.flatten.Perm (l.flatMap f) := by
  induction h with
  | nil => exact List.Perm.refl _
  | cons hpart _ ih =>
    rw [flatten_cons, flatMap_cons]
    exact hpart.append ih

/-- The interactions one after the other, sorted, then without duplicates. -/
theorem compile_interactions_ends (generate_func : GenerateFunc)
    (leave : Bool) (interactions : List (List NamespaceIndex))
    (indices : OrderedSet namespace_order.toComparator) (hne : indices.elements ≠ []) :
    ∃ parts final_interactions, List.Forall₂ (fun inter part => CompilesTo is_wildcard
        (leaves_all generate_func leave (num_wildcards is_wildcard inter))
        indices.elements inter part) interactions parts ∧
      final_interactions.Perm parts.flatten ∧
      Ends (compile_interactions generate_func leave · interactions
        indices.elements) (sort_and_filter_duplicate_interactions namespace_order
          final_interactions (!leave)) := by
  obtain ⟨parts, hparts, hcompiles⟩ := Ends.mapM (l := interactions) fun inter _ =>
    compile_interaction_compilesTo generate_func leave indices hne inter
  exact ⟨parts, _, hcompiles, perm_insertionSort _ parts.flatten, hparts.map _⟩

/-- The generator is run for the wildcards, whatever their hash is. -/
theorem compile_extent_interactions_ends (generate_func : GenerateFunc)
    (leave : Bool) (interactions : List (List ExtentTerm))
    (indices : OrderedSet extent_order.toComparator) (hne : indices.elements ≠ []) :
    ∃ final_interactions,
      Ends (compile_extent_interactions generate_func leave · interactions
        indices.elements) (sort_and_filter_duplicate_interactions extent_order
          final_interactions (!leave)) := by
  have hround (inter : List ExtentTerm) : ∃ out,
      Ends (fun fuel => if extent_contains_wildcard inter then
        compile_extent_interaction generate_func fuel inter indices.elements else some [inter]) out ∧
      True := by
    by_cases hw : extent_contains_wildcard inter = true
    · have hmem := contains_iff_mem.mp hw
      have hn : num_wildcards extent_is_wildcard inter ≠ 0 := num_wildcards_ne_zero hmem rfl
      obtain ⟨X, hX, -, -⟩ := generate_func.run_ends hne hn
      simp only [hw, if_true]
      exact ⟨_, hX.map (map (insert_fixed extent_is_wildcard inter)), trivial⟩
    · simp only [hw]
      exact ⟨[inter], Ends.pure _, trivial⟩
  obtain ⟨parts, hparts, -⟩ := Ends.mapM (l := interactions) fun inter _ => hround inter
  exact ⟨parts.flatten, hparts.map _⟩

/-- The sets of namespaces that are obtained, in all parts together. -/
theorem mem_flatten_of_compilesTo {T : Type} [DecidableEq T] {is_wildcard : T → Bool}
    {full : List T → Bool} {seen : List T} {specs : List (List T)} {parts : List (List (List T))}
    (h : List.Forall₂ (fun spec part => CompilesTo is_wildcard (full spec) seen spec part) specs parts)
    (m : Multiset T) : m ∈ parts.flatten.map Multiset.ofList ↔
      m ∈ (specs.flatMap (obtainable is_wildcard seen)).map Multiset.ofList := by
  induction h with
  | nil => rfl
  | cons hpart _ ih =>
    rw [flatten_cons, flatMap_cons, map_append, map_append, mem_append,
      mem_append, ih, mem_map_of_compilesTo is_wildcard hpart]

/-- What is left of the sets of namespaces when only what the generator repeats is
    removed. -/
def generated_sets (generate_func : GenerateFunc) (seen inter : List NamespaceIndex) :
    List (Multiset NamespaceIndex) :=
  let sets := (obtainable is_wildcard seen inter).map Multiset.ofList
  if leaves_all generate_func true (num_wildcards is_wildcard inter) then sets else sets.dedup

theorem generated_sets_perm {generate_func : GenerateFunc} {seen inter : List NamespaceIndex}
    {part : List (List NamespaceIndex)} (h : CompilesTo is_wildcard (leaves_all generate_func true
      (num_wildcards is_wildcard inter)) seen inter part) :
    (part.map Multiset.ofList).Perm (generated_sets generate_func seen inter) := by
  unfold generated_sets
  unfold CompilesTo at h
  split at h
  · rename_i hall
    simp only [hall, if_true]
    exact h.map _
  · rename_i hall
    simp only [hall]
    exact h

/-- Compiling ends. With the filter there is one interaction for each set of
    namespaces that can be obtained; without it and with permutations, each
    interaction that can be obtained, with equal namespaces put together; without it
    and with combinations, one for each set, except that the pairs of namespaces are
    ordered. The fast path for pairs is the generator that goes with the filter. -/
theorem compile_interactions_exact (generate_func : GenerateFunc)
    (leave_duplicate_interactions : Bool) (interactions : List (List NamespaceIndex))
    (indices : OrderedSet namespace_order.toComparator) (hne : indices.elements ≠ []) :
    (∃ out, Ends (compile_interactions generate_func leave_duplicate_interactions · interactions
        indices.elements) out ∧
      (leave_duplicate_interactions = false → (out.map Multiset.ofList).Perm
        ((interactions.flatMap (obtainable is_wildcard indices.elements)).map
          Multiset.ofList).dedup) ∧
      (leave_duplicate_interactions = true → (out.map Multiset.ofList).Perm
        (interactions.flatMap (generated_sets generate_func indices.elements))) ∧
      (leave_duplicate_interactions = true → generate_func = .permutations → out.Perm
        ((interactions.flatMap (obtainable is_wildcard indices.elements)).map
          (grouped namespace_order)))) ∧
    (∃ pairs, Ends (generate_namespace_permutations_with_repetition · indices.elements 2) pairs ∧
      (expand_quadratics_wildcard_interactions true indices.elements).Perm pairs) ∧
    (∃ pairs, Ends (generate_namespace_combinations_with_repetition · indices.elements 2) pairs ∧
      ((expand_quadratics_wildcard_interactions false indices.elements).map Multiset.ofList).Perm
        (pairs.map Multiset.ofList)) := by
  have hnodup := nodup_elements indices
  refine ⟨?_, ?_, ?_⟩
  · obtain ⟨parts, final_interactions, hcompiles, hperm, hends⟩ := compile_interactions_ends
      generate_func leave_duplicate_interactions interactions indices hne
    refine ⟨_, hends, fun hleave => ?_, fun hleave => ?_, fun hleave hgen => ?_⟩
    · subst hleave
      refine (sort_and_filter_perm namespace_order final_interactions).trans ?_
      refine (perm_ext_iff_of_nodup (nodup_dedup _) (nodup_dedup _)).mpr fun m => ?_
      rw [mem_dedup, mem_dedup, ← mem_flatten_of_compilesTo hcompiles]
      exact (hperm.map _).mem_iff
    · subst hleave
      rw [Bool.not_true, sort_and_filter_leave, map_map]
      have hsets : final_interactions.map (Multiset.ofList ∘ grouped namespace_order) =
          final_interactions.map Multiset.ofList :=
        map_congr_left fun inter _ => coe_grouped namespace_order inter
      rw [hsets]
      refine (hperm.map _).trans ?_
      rw [map_flatten]
      refine flatten_perm (forall₂_map_right_iff.mpr (hcompiles.imp fun inter part h => ?_))
      exact generated_sets_perm h
    · subst hleave hgen
      rw [Bool.not_true, sort_and_filter_leave]
      refine (hperm.trans (flatten_perm ?_)).map _
      exact hcompiles.imp fun inter part h => by simpa [CompilesTo, leaves_all] using h
  · obtain ⟨pairs, hpairs, -, hpermutations⟩ :=
      GenerateFunc.run_ends .permutations hne (n := 2) (by decide)
    exact ⟨pairs, hpairs, (expand_quadratics_leave hnodup).trans (hpermutations rfl).symm⟩
  · obtain ⟨pairs, hpairs, hcombinations, -⟩ :=
      GenerateFunc.run_ends .combinations hne (n := 2) (by decide)
    exact ⟨pairs, hpairs, ((expand_quadratics_filter hnodup).map _).trans (hcombinations rfl).symm⟩

/-- The namespaces 'a' and 'b', for the interaction of three wildcards. -/
def two_namespaces : OrderedSet namespace_order.toComparator := (OrderedSet.empty.insert 97).insert 98

/-- `:::` over two namespaces. -/
theorem compile_interactions_exact_cubic : two_namespaces.elements ≠ [] ∧
    ∃ out, Ends (compile_interactions .combinations false · [[58, 58, 58]] two_namespaces.elements)
        out ∧
      (out.map Multiset.ofList).Perm
        ((obtainable is_wildcard two_namespaces.elements [58, 58, 58]).map Multiset.ofList).dedup := by
  refine ⟨by decide, ?_⟩
  obtain ⟨⟨out, hends, hout, -, -⟩, -, -⟩ :=
    compile_interactions_exact .combinations false [[58, 58, 58]] two_namespaces (by decide)
  exact ⟨out, hends, by simpa using hout rfl⟩

/-- Putting equal namespaces together loses the interaction 'bab' of "b:b". -/
theorem compile_interactions_groups :
    ¬ ∀ (interactions : List (List NamespaceIndex))
      (indices : OrderedSet namespace_order.toComparator), indices.elements ≠ [] →
      ∃ out, Ends (compile_interactions .permutations true · interactions indices.elements) out ∧
        ∀ inter, inter ∈ out ↔
          inter ∈ interactions.flatMap (obtainable is_wildcard indices.elements) := by
  intro h
  obtain ⟨out, hends, hmem⟩ := h [[98, 58, 98]] (OrderedSet.empty.insert 97) (by decide)
  have hends' : Ends (compile_interactions .permutations true · [[98, 58, 98]] [97])
      [[97, 98, 98]] := by
    refine ⟨5, fun fuel hfuel => ?_⟩
    obtain ⟨k, rfl⟩ := Nat.exists_eq_add_of_le' hfuel
    rfl
  obtain rfl := hends.unique hends'
  exact absurd ((hmem [98, 97, 98]).mpr (by decide)) (by decide)

end VW
