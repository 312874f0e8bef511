import VowpalWabbit.Interactions.Exactness

/-! # The interactions generator

    `interactions_generator` of `core/interactions.h`, and the part of
    `transform_single_ex` of `reductions/generate_interactions.cc` that uses it:
    the compiled interactions are kept from example to example, and are compiled
    again when a namespace or an extent is new.

    What is new is found from the sizes of the sets. A new extent clears the
    interactions of namespaces, which are not compiled again then: they are right
    in every state exactly when there is no new extent that could do harm.
-/

open Cpp Tuples

namespace VW

open List LinearComparator

/-- What the generator reads of an example. -/
structure ExampleNamespaces (V : Type) where
  indices : List NamespaceIndex
  feature_space : NamespaceIndex → Features V

structure InteractionsGenerator where
  generated_interactions : List (List NamespaceIndex)
  generated_extent_interactions : List (List ExtentTerm)
  all_seen_namespaces : OrderedSet namespace_order.toComparator
  all_seen_extents : OrderedSet extent_order.toComparator

namespace InteractionsGenerator

def init : InteractionsGenerator := ⟨[], [], .empty, .empty⟩

def update_interactions_if_new_namespace_seen (generate_func : GenerateFunc)
    (leave_duplicate_interactions : Bool) (fuel : Nat) (interactions : List (List NamespaceIndex))
    (new_example_indices : List NamespaceIndex) (data : InteractionsGenerator) :
    Option InteractionsGenerator :=
  let prev_count := data.all_seen_namespaces.elements.length
  let all_seen_namespaces := insert_range data.all_seen_namespaces new_example_indices
  let data := { data with all_seen_namespaces := all_seen_namespaces }
  if prev_count ≠ all_seen_namespaces.elements.length then
    -- No interactions with reserved namespaces.
    let indices_to_interact : OrderedSet namespace_order.toComparator :=
      insert_range .empty (all_seen_namespaces.elements.filter is_interaction_ns)
    if 0 < indices_to_interact.elements.length then do
      let generated_interactions ← compile_interactions generate_func leave_duplicate_interactions
        fuel interactions indices_to_interact.elements
      some { data with generated_interactions := generated_interactions }
    else some { data with generated_interactions := [] }
  else some data

/-- A reserved namespace has its character as hash; 0 is the hash of the default one. -/
def extent_takes_part (hash : BitVec 64) : Bool :=
  hash == 0 || decide (255 ≤ hash.toNat) ||
    (decide (hash.toNat < 255) && is_interaction_ns (hash.truncate 8))

/-- The extents of an example that are inserted into the set. -/
def example_extents {V : Type} (indices : List NamespaceIndex)
    (feature_space : NamespaceIndex → Features V) : List ExtentTerm :=
  indices.flatMap fun ns_index =>
    ((feature_space ns_index).namespace_extents.filter fun extent => extent_takes_part extent.hash).map
      fun extent => (ns_index, extent.hash)

def update_extent_interactions_if_new_namespace_seen {V : Type} (generate_func : GenerateFunc)
    (leave_duplicate_interactions : Bool) (fuel : Nat) (interactions : List (List ExtentTerm))
    (indices : List NamespaceIndex) (feature_space : NamespaceIndex → Features V)
    (data : InteractionsGenerator) : Option InteractionsGenerator :=
  let prev_count := data.all_seen_extents.elements.length
  let all_seen_extents :=
    insert_range data.all_seen_extents (example_extents indices feature_space)
  let data := { data with all_seen_extents := all_seen_extents }
  if prev_count ≠ all_seen_extents.elements.length then
    -- The other list is cleared.
    let data := { data with generated_interactions := [] }
    if all_seen_extents.elements ≠ [] then do
      let generated_extent_interactions ← compile_extent_interactions generate_func
        leave_duplicate_interactions fuel interactions all_seen_extents.elements
      some { data with generated_extent_interactions := generated_extent_interactions }
    else some data
  else some data

end InteractionsGenerator

open InteractionsGenerator

/-- How the interactions of a learner are compiled; none of it changes in a run. -/
structure GeneratorOptions where
  generate_func : GenerateFunc
  generate_func_extents : GenerateFunc
  leave_duplicate_interactions : Bool
  interactions : List (List NamespaceIndex)
  extent_interactions : List (List ExtentTerm)

section Runs

variable {V : Type} (options : GeneratorOptions)

/-- What `transform_single_ex` does before the example is learned. -/
def transform_single_ex (fuel : Nat) (data : InteractionsGenerator) (ec : ExampleNamespaces V) :
    Option InteractionsGenerator :=
  data.update_interactions_if_new_namespace_seen options.generate_func
    options.leave_duplicate_interactions fuel options.interactions ec.indices >>= fun data =>
      data.update_extent_interactions_if_new_namespace_seen options.generate_func_extents
        options.leave_duplicate_interactions fuel options.extent_interactions ec.indices
          ec.feature_space

/-- One example after the other. -/
def transform_examples (fuel : Nat) (examples : List (ExampleNamespaces V)) :
    Option InteractionsGenerator :=
  examples.foldlM (transform_single_ex options fuel) init

/-! ## What the lists should be -/

def namespaces_seen (examples : List (ExampleNamespaces V)) :
    OrderedSet namespace_order.toComparator :=
  insert_range .empty (examples.flatMap (·.indices))

/-- All namespaces seen that take part in interactions. -/
def interaction_namespaces (examples : List (ExampleNamespaces V)) :
    OrderedSet namespace_order.toComparator :=
  insert_range .empty ((examples.flatMap (·.indices)).filter is_interaction_ns)

/-- All extents seen that take part in interactions. -/
def extents_seen (examples : List (ExampleNamespaces V)) : OrderedSet extent_order.toComparator :=
  insert_range .empty
    (examples.flatMap fun ec => example_extents ec.indices ec.feature_space)

/-- Nothing is compiled before something was seen. -/
def IsCompilation {T : Type} (compile : Nat → List T → Option (List (List T))) (seen : List T)
    (out : List (List T)) : Prop :=
  if seen = [] then out = [] else Ends (compile · seen) out

def InteractionsUpToDate (examples : List (ExampleNamespaces V)) (data : InteractionsGenerator) :
    Prop :=
  IsCompilation (fun fuel => compile_interactions options.generate_func
    options.leave_duplicate_interactions fuel options.interactions)
    (interaction_namespaces examples).elements data.generated_interactions

def ExtentInteractionsUpToDate (examples : List (ExampleNamespaces V))
    (data : InteractionsGenerator) : Prop :=
  IsCompilation (fun fuel => compile_extent_interactions options.generate_func_extents
    options.leave_duplicate_interactions fuel options.extent_interactions)
    (extents_seen examples).elements data.generated_extent_interactions

variable {options}

variable {T : Type} {data : InteractionsGenerator}

theorem IsCompilation.unique {compile : Nat → List T → Option (List (List T))}
    {seen : List T} {out out' : List (List T)} (h : IsCompilation compile seen out)
    (h' : IsCompilation compile seen out') : out = out' := by
  unfold IsCompilation at h h'
  split at h
  · rename_i hempty
    rw [if_pos hempty] at h'
    rw [h, h']
  · rename_i hne
    rw [if_neg hne] at h'
    exact h.unique h'

/-! ## One example -/

theorem insert_range_append {c : LinearComparator T} (s : OrderedSet c.toComparator)
    (l l' : List T) : insert_range s (l ++ l') =
      insert_range (insert_range s l) l' := foldl_append

theorem namespaces_seen_append (examples : List (ExampleNamespaces V)) (ec : ExampleNamespaces V) :
    namespaces_seen (examples ++ [ec]) =
      insert_range (namespaces_seen examples) ec.indices := by
  unfold namespaces_seen
  rw [flatMap_append, insert_range_append, flatMap_singleton]

theorem extents_seen_append (examples : List (ExampleNamespaces V)) (ec : ExampleNamespaces V) :
    extents_seen (examples ++ [ec]) = insert_range (extents_seen examples)
      (example_extents ec.indices ec.feature_space) := by
  unfold extents_seen
  rw [flatMap_append, insert_range_append, flatMap_singleton]

theorem mem_namespaces_seen (examples : List (ExampleNamespaces V)) (ns : NamespaceIndex) :
    ns ∈ (namespaces_seen examples).elements ↔ ∃ ec ∈ examples, ns ∈ ec.indices := by
  unfold namespaces_seen
  rw [mem_insert_range_iff]
  simp [OrderedSet.empty]

theorem mem_interaction_namespaces (examples : List (ExampleNamespaces V)) (ns : NamespaceIndex) :
    ns ∈ (interaction_namespaces examples).elements ↔
      (∃ ec ∈ examples, ns ∈ ec.indices) ∧ is_interaction_ns ns = true := by
  unfold interaction_namespaces
  rw [mem_insert_range_iff]
  simp [OrderedSet.empty]

theorem mem_extents_seen (examples : List (ExampleNamespaces V)) (term : ExtentTerm) :
    term ∈ (extents_seen examples).elements ↔
      ∃ ec ∈ examples, term ∈ example_extents ec.indices ec.feature_space := by
  unfold extents_seen
  rw [mem_insert_range_iff]
  simp [OrderedSet.empty]

/-- The namespaces to interact are found from all namespaces. -/
theorem indices_to_interact_eq (examples : List (ExampleNamespaces V)) :
    insert_range .empty
      ((namespaces_seen examples).elements.filter is_interaction_ns) =
        interaction_namespaces examples := by
  refine eq_of_mem_iff fun ns => ?_
  rw [mem_insert_range_iff, mem_filter, mem_namespaces_seen,
    mem_interaction_namespaces]
  simp [OrderedSet.empty]

variable (options) in
/-- The first update brings the interactions of namespaces up to date. -/
theorem update_interactions_ends {examples : List (ExampleNamespaces V)} (ec : ExampleNamespaces V)
    (hseen : data.all_seen_namespaces = namespaces_seen examples) : ∃ data',
      Ends (data.update_interactions_if_new_namespace_seen options.generate_func
        options.leave_duplicate_interactions · options.interactions ec.indices) data' ∧
      data'.all_seen_namespaces = namespaces_seen (examples ++ [ec]) ∧
      data'.all_seen_extents = data.all_seen_extents ∧
      data'.generated_extent_interactions = data.generated_extent_interactions ∧
      (InteractionsUpToDate options examples data →
        InteractionsUpToDate options (examples ++ [ec]) data') := by
  have happend := namespaces_seen_append examples ec
  unfold update_interactions_if_new_namespace_seen
  simp only [hseen, ← happend, indices_to_interact_eq]
  by_cases hnew : (namespaces_seen examples).elements.length =
      (namespaces_seen (examples ++ [ec])).elements.length
  · -- Nothing is new: the set is the same.
    simp only [hnew, ne_eq, not_true_eq_false, if_false]
    refine ⟨_, Ends.pure _, rfl, rfl, rfl, fun hup => ?_⟩
    rw [happend, insert_range_eq_iff] at hnew
    have hsame : interaction_namespaces (examples ++ [ec]) = interaction_namespaces examples := by
      refine eq_of_mem_iff fun ns => ?_
      rw [mem_interaction_namespaces, mem_interaction_namespaces, ← mem_namespaces_seen,
        ← mem_namespaces_seen, happend, mem_insert_range_iff]
      exact and_congr_left fun _ => or_iff_right_of_imp (hnew ns)
    unfold InteractionsUpToDate at hup ⊢
    rw [hsame]
    exact hup
  · simp only [hnew, ne_eq, not_false_eq_true, if_true]
    unfold InteractionsUpToDate IsCompilation
    by_cases hempty : (interaction_namespaces (examples ++ [ec])).elements = []
    · simp only [hempty, length_nil, Nat.lt_irrefl, if_false, if_true]
      exact ⟨_, Ends.pure _, rfl, rfl, rfl, fun _ => rfl⟩
    · simp only [hempty, length_pos_iff.mpr hempty, if_true, if_false]
      obtain ⟨_, _, -, -, hends⟩ := compile_interactions_ends options.generate_func
        options.leave_duplicate_interactions options.interactions _ hempty
      exact ⟨_, hends.map _, rfl, rfl, rfl, fun _ => hends⟩

/-- The example has no extent that was not seen. -/
def NoNewExtent (examples : List (ExampleNamespaces V)) (ec : ExampleNamespaces V) : Prop :=
  ∀ term ∈ example_extents ec.indices ec.feature_space, term ∈ (extents_seen examples).elements

/-- The second update brings the interactions of extents up to date. -/
theorem update_extent_interactions_ends {examples : List (ExampleNamespaces V)} (ec : ExampleNamespaces V)
    (hseen : data.all_seen_extents = extents_seen examples)
    (hup : ExtentInteractionsUpToDate options examples data) : ∃ data',
      Ends (data.update_extent_interactions_if_new_namespace_seen options.generate_func_extents
        options.leave_duplicate_interactions · options.extent_interactions ec.indices
          ec.feature_space) data' ∧
      data'.all_seen_namespaces = data.all_seen_namespaces ∧
      data'.all_seen_extents = extents_seen (examples ++ [ec]) ∧
      ExtentInteractionsUpToDate options (examples ++ [ec]) data' ∧
      (NoNewExtent examples ec → data'.generated_interactions = data.generated_interactions) ∧
      (¬ NoNewExtent examples ec → data'.generated_interactions = []) := by
  have happend := extents_seen_append examples ec
  have hnew_iff := insert_range_eq_iff (extents_seen examples)
    (example_extents ec.indices ec.feature_space)
  rw [← happend] at hnew_iff
  unfold update_extent_interactions_if_new_namespace_seen
  simp only [hseen, ← happend]
  by_cases hnew : NoNewExtent examples ec
  · simp only [hnew_iff.mpr hnew, ne_eq, not_true_eq_false, if_false]
    refine ⟨_, Ends.pure _, rfl, rfl, ?_, fun _ => rfl, fun h => absurd hnew h⟩
    have hsame : extents_seen (examples ++ [ec]) = extents_seen examples := by
      refine eq_of_mem_iff fun term => ?_
      rw [happend, mem_insert_range_iff]
      exact or_iff_right_of_imp (hnew term)
    unfold ExtentInteractionsUpToDate at hup ⊢
    rw [hsame]
    exact hup
  · have hlen := mt hnew_iff.mp hnew
    have hne : (extents_seen (examples ++ [ec])).elements ≠ [] := by
      intro hempty
      refine hnew fun term hterm => ?_
      have hmem := (mem_insert_range_iff (extents_seen examples) _ term).mpr
        (Or.inl hterm)
      rw [← happend, hempty] at hmem
      exact absurd hmem not_mem_nil
    simp only [hlen, hne, ne_eq, not_false_eq_true, if_true]
    obtain ⟨_, hends⟩ := compile_extent_interactions_ends options.generate_func_extents
      options.leave_duplicate_interactions options.extent_interactions _ hne
    refine ⟨_, hends.map _, rfl, rfl, ?_, fun h => absurd h hnew, fun _ => rfl⟩
    unfold ExtentInteractionsUpToDate IsCompilation
    rw [if_neg hne]
    exact hends

/-- What holds after every run. -/
structure Consistent (options : GeneratorOptions) (examples : List (ExampleNamespaces V))
    (data : InteractionsGenerator) : Prop where
  namespaces : data.all_seen_namespaces = namespaces_seen examples
  extents : data.all_seen_extents = extents_seen examples
  extent_interactions : ExtentInteractionsUpToDate options examples data

theorem consistent_init : Consistent options ([] : List (ExampleNamespaces V)) init :=
  ⟨rfl, rfl, rfl⟩

/-- One example: the interactions of namespaces stay up to date unless an extent is
    new, which clears them. -/
theorem transform_single_ex_ends {examples : List (ExampleNamespaces V)} (h : Consistent options examples data)
    (ec : ExampleNamespaces V) : ∃ data',
      Ends (transform_single_ex options · data ec) data' ∧
      Consistent options (examples ++ [ec]) data' ∧
      (NoNewExtent examples ec → InteractionsUpToDate options examples data →
        InteractionsUpToDate options (examples ++ [ec]) data') ∧
      (¬ NoNewExtent examples ec → data'.generated_interactions = []) := by
  obtain ⟨mid, hmid, hnamespaces, hextents, hlist, hup⟩ :=
    update_interactions_ends options ec h.namespaces
  have hextent_up : ExtentInteractionsUpToDate options examples mid := by
    unfold ExtentInteractionsUpToDate
    rw [hlist]
    exact h.extent_interactions
  obtain ⟨data', hdata', hnamespaces', hextents', hextent_up', hkeep, hclear⟩ :=
    update_extent_interactions_ends ec (hextents.trans h.extents) hextent_up
  refine ⟨data', hmid.bind hdata', ⟨hnamespaces'.trans hnamespaces, hextents', hextent_up'⟩,
    fun hnew hprev => ?_, hclear⟩
  unfold InteractionsUpToDate
  rw [hkeep hnew]
  exact hup hprev

/-! ## Runs -/

theorem transform_examples_append (fuel : Nat) (examples : List (ExampleNamespaces V))
    (ec : ExampleNamespaces V) : transform_examples options fuel (examples ++ [ec]) =
      transform_examples options fuel examples >>= fun data =>
        transform_single_ex options fuel data ec := by
  unfold transform_examples
  rw [foldlM_append]
  refine congrArg _ (funext fun data => ?_)
  rw [foldlM_cons]
  exact bind_pure _

variable (options) in
/-- Every run ends, and keeps what is consistent. -/
theorem transform_examples_ends (examples : List (ExampleNamespaces V)) : ∃ data,
    Ends (transform_examples options · examples) data ∧ Consistent options examples data := by
  induction examples using reverseRecOn with
  | nil => exact ⟨init, Ends.pure _, consistent_init⟩
  | append_singleton examples ec ih =>
    obtain ⟨data, hdata, hconsistent⟩ := ih
    obtain ⟨data', hdata', hconsistent', -, -⟩ := transform_single_ex_ends hconsistent ec
    refine ⟨data', ?_, hconsistent'⟩
    simp only [transform_examples_append]
    exact hdata.bind hdata'

/-- The last example of a run. -/
theorem transform_examples_last {examples : List (ExampleNamespaces V)} {ec : ExampleNamespaces V}
    {data' : InteractionsGenerator} (hdata : Ends (transform_examples options · examples) data)
    (hdata' : Ends (transform_examples options · (examples ++ [ec])) data') :
    (NoNewExtent examples ec → InteractionsUpToDate options examples data →
      InteractionsUpToDate options (examples ++ [ec]) data') ∧
    (¬ NoNewExtent examples ec → data'.generated_interactions = []) := by
  obtain ⟨before, hbefore, hconsistent⟩ := transform_examples_ends options examples
  obtain rfl := hdata.unique hbefore
  obtain ⟨after, hafter, -, hkeep, hclear⟩ := transform_single_ex_ends hconsistent ec
  simp only [transform_examples_append] at hdata'
  obtain rfl := hdata'.unique (hbefore.bind hafter)
  exact ⟨hkeep, hclear⟩

theorem obtainable_ne_nil (is_wildcard : T → Bool) {seen : List T} (hne : seen ≠ [])
    (spec : List T) : obtainable is_wildcard seen spec ≠ [] := by
  unfold obtainable
  induction spec with
  | nil => exact cons_ne_nil _ _
  | cons s spec ih =>
    obtain ⟨t, ht⟩ := exists_mem_of_ne_nil _ ih
    have hchoice : ∃ a, a ∈ choices is_wildcard seen s := by
      unfold choices
      split
      · exact exists_mem_of_ne_nil _ hne
      · exact ⟨s, mem_singleton_self s⟩
    obtain ⟨a, ha⟩ := hchoice
    have hmem : a :: t ∈ ((s :: spec).map (choices is_wildcard seen)).sections :=
      mem_sections.mpr (List.Forall₂.cons ha (mem_sections.mp ht))
    exact ne_nil_of_mem hmem

/-- Something is compiled when there are interactions. -/
theorem compile_interactions_ne_nil {generate_func : GenerateFunc}
    {leave : Bool} {interactions : List (List NamespaceIndex)}
    (hinteractions : interactions ≠ []) {indices : OrderedSet namespace_order.toComparator}
    (hne : indices.elements ≠ []) {out : List (List NamespaceIndex)}
    (hout : Ends (compile_interactions generate_func leave · interactions
      indices.elements) out) : out ≠ [] := by
  obtain ⟨parts, final_interactions, hcompiles, hperm, hends⟩ := compile_interactions_ends
    generate_func leave interactions indices hne
  obtain rfl := hout.unique hends
  obtain ⟨inter, hinter⟩ := exists_mem_of_ne_nil _ hinteractions
  obtain ⟨t, ht⟩ := exists_mem_of_ne_nil _ (obtainable_ne_nil is_wildcard hne inter)
  have hmem : Multiset.ofList t ∈
      (interactions.flatMap (obtainable is_wildcard indices.elements)).map Multiset.ofList :=
    mem_map_of_mem (mem_flatMap_of_mem hinter ht)
  rw [← mem_flatten_of_compilesTo hcompiles, ← (hperm.map _).mem_iff,
    ← mem_sort_and_filter namespace_order final_interactions (!leave)] at hmem
  intro hnil
  rw [hnil] at hmem
  exact absurd hmem not_mem_nil

/-- The cleared list is right when there is nothing to compile. -/
theorem interactionsUpToDate_nil_iff {examples : List (ExampleNamespaces V)}
    (hnil : data.generated_interactions = []) :
    InteractionsUpToDate options examples data ↔
      options.interactions = [] ∨ (interaction_namespaces examples).elements = [] := by
  unfold InteractionsUpToDate IsCompilation
  rw [hnil]
  by_cases hempty : (interaction_namespaces examples).elements = []
  · simp [hempty]
  · rw [if_neg hempty]
    simp only [hempty, or_false]
    constructor
    · intro hends
      by_contra hinteractions
      exact compile_interactions_ne_nil hinteractions hempty hends rfl
    · intro hinteractions
      rw [hinteractions]
      exact ⟨0, fun fuel _ => by cases options.leave_duplicate_interactions <;> rfl⟩

/-- Both lists are what compiling gives for all that was seen, and have no
    duplicates when those are removed. -/
structure UpToDate (options : GeneratorOptions) (examples : List (ExampleNamespaces V))
    (data : InteractionsGenerator) : Prop where
  interactions : InteractionsUpToDate options examples data
  extent_interactions : ExtentInteractionsUpToDate options examples data
  nodup : options.leave_duplicate_interactions = false →
    (data.generated_interactions.map Multiset.ofList).Nodup ∧
      (data.generated_extent_interactions.map Multiset.ofList).Nodup

/-- No example of the run has a new extent while there is something to compile for
    the namespaces. -/
def HarmlessExtents (options : GeneratorOptions) (examples : List (ExampleNamespaces V)) : Prop :=
  ∀ seen ec, seen ++ [ec] <+: examples →
    options.interactions = [] ∨ (interaction_namespaces (seen ++ [ec])).elements = [] ∨
      NoNewExtent seen ec

theorem upToDate_of_lists {examples : List (ExampleNamespaces V)}
    (hinteractions : InteractionsUpToDate options examples data)
    (hextents : ExtentInteractionsUpToDate options examples data) : UpToDate options examples data := by
  refine ⟨hinteractions, hextents, fun hleave => ⟨?_, ?_⟩⟩
  · unfold InteractionsUpToDate IsCompilation at hinteractions
    split at hinteractions
    · rw [hinteractions]
      exact nodup_nil
    · rename_i hne
      obtain ⟨_, _, -, -, hends⟩ := compile_interactions_ends options.generate_func
        options.leave_duplicate_interactions options.interactions _ hne
      rw [hinteractions.unique hends, hleave]
      exact nodup_sort_and_filter _ _
  · unfold ExtentInteractionsUpToDate IsCompilation at hextents
    split at hextents
    · rw [hextents]
      exact nodup_nil
    · rename_i hne
      obtain ⟨_, hends⟩ := compile_extent_interactions_ends options.generate_func_extents
        options.leave_duplicate_interactions options.extent_interactions _ hne
      rw [hextents.unique hends, hleave]
      exact nodup_sort_and_filter _ _

/-- The interactions of namespaces are up to date after a run without harmful extents. -/
theorem interactionsUpToDate_of_harmless {examples : List (ExampleNamespaces V)}
    (hharmless : HarmlessExtents options examples)
    (hdata : Ends (transform_examples options · examples) data) :
    InteractionsUpToDate options examples data := by
  induction examples using reverseRecOn generalizing data with
  | nil =>
    obtain rfl := hdata.unique (Ends.pure init)
    exact rfl
  | append_singleton examples ec ih =>
    obtain ⟨before, hbefore, -⟩ := transform_examples_ends options examples
    obtain ⟨hkeep, hclear⟩ := transform_examples_last hbefore hdata
    by_cases hnew : NoNewExtent examples ec
    · refine hkeep hnew (ih (fun seen ec' hpre => ?_) hbefore)
      exact hharmless seen ec' (hpre.trans (prefix_append examples [ec]))
    · refine (interactionsUpToDate_nil_iff (hclear hnew)).mpr ?_
      rcases hharmless examples ec (prefix_refl _) with h | h | h
      · exact Or.inl h
      · exact Or.inr h
      · exact absurd h hnew

/-- In a run, both lists are right after every example exactly when no example has a
    new extent while there are interactions of namespaces to generate. The list of
    the extents is right in any case, and right lists depend only on what was
    seen. -/
theorem generator_up_to_date_iff (options : GeneratorOptions) (examples : List (ExampleNamespaces V)) :
    ((∀ seen, seen <+: examples → ∃ data, Ends (transform_examples options · seen) data ∧
        UpToDate options seen data) ↔ HarmlessExtents options examples) ∧
    (∃ data, Ends (transform_examples options · examples) data ∧
      ExtentInteractionsUpToDate options examples data) ∧
    (∀ (examples' : List (ExampleNamespaces V)) (data data' : InteractionsGenerator),
      UpToDate options examples data → UpToDate options examples' data' →
      (∀ ns, (∃ ec ∈ examples, ns ∈ ec.indices) ↔ ∃ ec ∈ examples', ns ∈ ec.indices) →
      (∀ term, (∃ ec ∈ examples, term ∈ example_extents ec.indices ec.feature_space) ↔
        ∃ ec ∈ examples', term ∈ example_extents ec.indices ec.feature_space) →
      data.generated_interactions = data'.generated_interactions ∧
        data.generated_extent_interactions = data'.generated_extent_interactions) := by
  refine ⟨⟨fun h => ?_, fun h => ?_⟩, ?_, ?_⟩
  · -- A new extent leaves an empty list, which is right only with nothing to compile.
    intro seen ec hpre
    by_cases hnew : NoNewExtent seen ec
    · exact Or.inr (Or.inr hnew)
    · obtain ⟨before, hbefore, -⟩ := transform_examples_ends options seen
      obtain ⟨data, hdata, hup⟩ := h (seen ++ [ec]) hpre
      have hnil := (transform_examples_last hbefore hdata).2 hnew
      rcases (interactionsUpToDate_nil_iff hnil).mp hup.interactions with hempty | hempty
      · exact Or.inl hempty
      · exact Or.inr (Or.inl hempty)
  · intro seen hpre
    obtain ⟨data, hdata, hconsistent⟩ := transform_examples_ends options seen
    have hharmless : HarmlessExtents options seen :=
      fun seen' ec hpre' => h seen' ec (hpre'.trans hpre)
    exact ⟨data, hdata, upToDate_of_lists (interactionsUpToDate_of_harmless hharmless hdata)
      hconsistent.extent_interactions⟩
  · obtain ⟨data, hdata, hconsistent⟩ := transform_examples_ends options examples
    exact ⟨data, hdata, hconsistent.extent_interactions⟩
  · intro examples' data data' hup hup' hnamespaces hextents
    have hsame : interaction_namespaces examples = interaction_namespaces examples' := by
      refine eq_of_mem_iff fun ns => ?_
      rw [mem_interaction_namespaces, mem_interaction_namespaces, hnamespaces]
    have hsame' : extents_seen examples = extents_seen examples' := by
      refine eq_of_mem_iff fun term => ?_
      rw [mem_extents_seen, mem_extents_seen, hextents]
    have hinteractions := hup.interactions
    have hextent_interactions := hup.extent_interactions
    unfold InteractionsUpToDate at hinteractions
    unfold ExtentInteractionsUpToDate at hextent_interactions
    rw [hsame] at hinteractions
    rw [hsame'] at hextent_interactions
    exact ⟨hinteractions.unique hup'.interactions,
      hextent_interactions.unique hup'.extent_interactions⟩

end Runs

/-- The namespace 'a' with one feature, in an extent. -/
def extent_example : ExampleNamespaces Int where
  indices := [97]
  feature_space := fun ns => if ns = 97 then ⟨[1], [5], [⟨0, 1, 1000⟩], 1, rfl⟩ else .empty

/-- All pairs of namespaces, and all pairs of extents. -/
def pairs_and_extents : GeneratorOptions :=
  ⟨.combinations, .combinations, false, [[58, 58]], [[(58, 58), (58, 58)]]⟩

/-- The first example with an extent clears the pair of its namespace. -/
theorem new_extent_clears_interactions :
    ¬ ∀ (options : GeneratorOptions) (examples : List (ExampleNamespaces Int)),
      ∃ data, Ends (transform_examples options · examples) data ∧ UpToDate options examples data := by
  intro h
  obtain ⟨data, hdata, hup⟩ := h pairs_and_extents [extent_example]
  have hrun : Ends (transform_examples pairs_and_extents · [extent_example])
      ⟨[], [[(97, 1000), (97, 1000)]], OrderedSet.empty.insert 97, OrderedSet.empty.insert (97, 1000)⟩ := by
    refine ⟨6, fun fuel hfuel => ?_⟩
    obtain ⟨k, rfl⟩ := Nat.exists_eq_add_of_le' hfuel
    rfl
  obtain rfl := hdata.unique hrun
  rcases (interactionsUpToDate_nil_iff rfl).mp hup.interactions with hempty | hempty
  · cases hempty
  · exact absurd hempty (by decide)

end VW
