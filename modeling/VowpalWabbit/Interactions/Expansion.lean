import VowpalWabbit.Interactions.Generate
import VowpalWabbit.Interactions.Generic
import VowpalWabbit.Framework.TupleSums

/-! # What is generated for an example

    The expansion of an interaction over extents works on a stack of partial
    combinations. It is shown that it dispatches the tuples of a nested loop over
    the extents of the terms, and from this what `generate_interactions` passes
    on for each interaction.
-/

open Tuples List.Perm

namespace VW

open List FeaturesRange ExamplePredict

variable {V : Type}

/-! ## The stack of partial combinations -/

variable {α : Type}

section Expansion

variable (ec : ExamplePredict V) (terms : List ExtentTerm)

/-- Equal terms in a row are combined without regard to their order. -/
abbrev equal_terms {T : Type} [DecidableEq T] (t t' : T) : Bool := decide (t = t')

/-- Starting with the items on top of the stack, the rounds dispatch the target,
    in some order, and go on with the rest of the stack. -/
def Expands (items : List (ExpansionStackItem V)) (target : List (List (FeaturesRange V))) : Prop :=
  ∃ (m : Nat) (combinations : List (List (FeaturesRange V))), combinations.Perm target ∧
    ∀ fuel stack, expansion_loop ec terms (fuel + m) (items ++ stack) =
      (expansion_loop ec terms fuel stack).map (combinations ++ ·)

variable {ec terms}

theorem Expands.nil : Expands ec terms [] [] :=
  ⟨0, [], List.Perm.refl _, fun fuel stack => by simp⟩

theorem Expands.append {items items' : List (ExpansionStackItem V)}
    {target target' : List (List (FeaturesRange V))} (h : Expands ec terms items target)
    (h' : Expands ec terms items' target') :
    Expands ec terms (items ++ items') (target ++ target') := by
  obtain ⟨m, combinations, hperm, hrun⟩ := h
  obtain ⟨m', combinations', hperm', hrun'⟩ := h'
  refine ⟨m' + m, combinations ++ combinations', hperm.append hperm', fun fuel stack => ?_⟩
  rw [← Nat.add_assoc, append_assoc, hrun, hrun']
  simp [Function.comp_def]

variable {target : List (List (FeaturesRange V))}

theorem Expands.of_perm {items : List (ExpansionStackItem V)}
    {target' : List (List (FeaturesRange V))} (h : Expands ec terms items target)
    (hperm : target.Perm target') : Expands ec terms items target' := by
  obtain ⟨m, combinations, hcomb, hrun⟩ := h
  exact ⟨m, combinations, hcomb.trans hperm, hrun⟩

/-- Items that are pushed one after the other come back in the other order. -/
theorem Expands.pushed (l : List α) (item : α → ExpansionStackItem V)
    (target : α → List (List (FeaturesRange V)))
    (h : ∀ a ∈ l, Expands ec terms [item a] (target a)) :
    Expands ec terms (l.map item).reverse (l.flatMap target) := by
  induction l with
  | nil => exact .nil
  | cons a l ih =>
    rw [map_cons, reverse_cons, flatMap_cons]
    refine .of_perm (.append (ih fun b hb => h b (mem_cons_of_mem a hb))
      (h a mem_cons_self)) perm_append_comm

theorem Expands.round {top : ExpansionStackItem V} {combinations : List (List (FeaturesRange V))}
    {pushed : List (ExpansionStackItem V)}
    (hitem : expand_item ec terms top = some (combinations, pushed))
    (h : Expands ec terms pushed.reverse target) :
    Expands ec terms [top] (combinations ++ target) := by
  obtain ⟨m, rest, hperm, hrun⟩ := h
  refine ⟨m + 1, combinations ++ rest, hperm.append_left combinations, fun fuel stack => ?_⟩
  rw [← Nat.add_assoc, singleton_append, expansion_loop, hitem]
  simp [hrun, Function.comp_def]

/-- The rest of the extents of a term, by position. -/
theorem heads_drop_zipIdx (l : List (FeaturesRange V)) (offset : Nat) :
    heads (l.drop offset) =
      (l.drop offset).zipIdx.map fun (it, i) => (it, l.drop (offset + i)) := by
  have h := heads_eq_zipIdx (l.drop offset) 0
  simp only [drop_zero, drop_drop] at h
  exact h

theorem getElem?_of_drop {k : Nat} {t t' : ExtentTerm} {ts : List ExtentTerm}
    (hdrop : terms.drop k = t :: t' :: ts) : terms[k]? = some t ∧ terms[k + 1]? = some t' := by
  rw [← head?_drop, ← head?_drop, ← tail_drop, hdrop]
  exact ⟨rfl, rfl⟩

/-- The extents of a term that is reached with an offset. -/
theorem drop_offset (E : ExtentTerm → List (FeaturesRange V)) (t t' : ExtentTerm) (offset : Nat) :
    (E t').drop (if t = t' then offset else 0) = if t = t' then (E t).drop offset else E t' := by
  split
  case isTrue h => rw [h]
  case isFalse => rfl

/-- An item stands for the tuples that go on from it. -/
theorem expands_item (ts : List ExtentTerm) : ∀ (k : Nat) (t t' : ExtentTerm) (offset : Nat)
    (so_far : List (FeaturesRange V)), terms.drop k = t :: t' :: ts →
    Expands ec terms [⟨k + 1, k, offset, so_far⟩] ((tuples_from equal_terms ec.hash_extents
      ((ec.hash_extents t').drop (if t = t' then offset else 0)) t' ts).map (so_far ++ ·)) := by
  induction ts with
  | nil =>
    intro k t t' offset so_far hdrop
    obtain ⟨hk, hk'⟩ := getElem?_of_drop hdrop
    have hlen : k + 1 = terms.length - 1 := by
      have h := congrArg length hdrop
      simp only [length_drop, length_cons, length_nil] at h
      omega
    have hitem : expand_item ec terms ⟨k + 1, k, offset, so_far⟩ =
        some (((ec.hash_extents t').drop (if t = t' then offset else 0)).map
          fun it => so_far ++ [it], []) := by
      simp only [expand_item, hk, hk', ← hlen, if_true]
    refine .of_perm (.round hitem Expands.nil) (of_eq ?_)
    simp [tuples_from, Function.comp_def]
  | cons t'' ts ih =>
    intro k t t' offset so_far hdrop
    obtain ⟨hk, hk'⟩ := getElem?_of_drop hdrop
    have hdrop' : terms.drop (k + 1) = t' :: t'' :: ts := by
      rw [← tail_drop, hdrop, tail_cons]
    have hlen : k + 1 ≠ terms.length - 1 := by
      have h := congrArg length hdrop
      simp only [length_drop, length_cons] at h
      omega
    have hitem : expand_item ec terms ⟨k + 1, k, offset, so_far⟩ =
        some ([], ((ec.hash_extents t').drop (if t = t' then offset else 0)).zipIdx.map fun (it, i) =>
          ⟨k + 1 + 1, k + 1, (if t = t' then offset else 0) + i, so_far ++ [it]⟩) := by
      simp only [expand_item, hk, hk', hlen, if_false]
    refine .of_perm (.round hitem (.pushed _ _ _ fun a _ =>
      ih (k + 1) t' t'' _ _ hdrop')) (of_eq ?_)
    simp only [nil_append, tuples_from, heads_drop_zipIdx, flatMap_map, map_flatMap,
      map_map, drop_offset _ t' t'', decide_eq_true_eq]
    refine flatMap_congr fun a _ => map_congr_left fun c _ => ?_
    simp

/-- What is dispatched: the tuples of extents of the terms. -/
theorem generate_generic_extent_combination_iterative_perm (ec : ExamplePredict V)
    {terms : List ExtentTerm} (hlen : 2 ≤ terms.length) :
    ∃ (m : Nat) (combinations : List (List (FeaturesRange V))),
      combinations.Perm (tuples equal_terms ec.hash_extents terms) ∧
      ∀ fuel ≥ m, generate_generic_extent_combination_iterative fuel ec terms =
        some combinations := by
  match terms, hlen with
  | t :: t' :: ts, _ =>
    have hexpand : Expands ec (t :: t' :: ts) _ _ := .pushed (ec.hash_extents t).zipIdx
      (fun (it, i) => ⟨1, 0, i, [it]⟩) _ fun a _ => expands_item ts 0 t t' a.2 [a.1] rfl
    obtain ⟨m, combinations, hperm, hrun⟩ := hexpand
    refine ⟨m, combinations, hperm.trans (of_eq ?_), fun fuel hfuel => ?_⟩
    · have hheads := heads_drop_zipIdx (ec.hash_extents t) 0
      simp only [drop_zero, Nat.zero_add] at hheads
      simp only [tuples, tuples_from, hheads, flatMap_map, drop_offset, decide_eq_true_eq]
      rfl
    · obtain ⟨fuel', rfl⟩ := Nat.exists_eq_add_of_le' hfuel
      have h := hrun fuel' []
      rw [append_nil] at h
      rw [generate_generic_extent_combination_iterative, h, expansion_loop]
      simp

end Expansion

/-! ## The features of one interaction -/

section Features

variable [Mul V] [One V]

/-- The feature that is passed on for some features, one of each range. -/
def combine_features (offset : BitVec 64) : List (V × FeatureIndex) → V × FeatureIndex
  | [] => (1, offset)
  | f :: fs => shifted offset (fs.foldl cross f)

theorem combined_eq (offset : BitVec 64) (t : List ((V × FeatureIndex) × Nat)) :
    combined offset t = combine_features offset (t.map Prod.fst) := by
  cases t with
  | nil => rfl
  | cons f fs => rfl

end Features

/-- The loops over positions, as loops over the rests of the ranges. -/
theorem nested_loop_features (permutations : Bool) (rs : List (FeaturesRange V)) :
    ∀ (r : FeaturesRange V) (start : Nat), (permutations = false → SameRanges (r :: rs)) →
      (nested_loop permutations r rs start).map (map Prod.fst) =
        tuples_from (same_loop permutations) (·.features) (r.features.drop start) r rs := by
  induction rs with
  | nil =>
    intro r start _
    simp only [nested_loop, tuples_from, map_map]
    rw [← zipIdx_map_fst 0 r.features, ← map_drop, map_map]
    simp [Function.comp_def]
  | cons r' rs ih =>
    intro r start hsame
    have hsame' (h : permutations = false) := isChain_cons_cons.mp (hsame h)
    simp only [nested_loop, tuples_from, heads_eq_zipIdx, flatMap_map, map_flatMap,
      map_map]
    refine flatMap_congr fun f _ => ?_
    -- Where the inner loop starts, as a rest of its range.
    have hstart : r'.features.drop (loop_start (r.same_loop permutations r') f.2) =
        if r.same_loop permutations r' then r.features.drop f.2 else r'.features := by
      unfold loop_start
      split
      case isTrue h =>
        simp only [same_loop, Bool.and_eq_true, beq_iff_eq, Bool.not_eq_true'] at h
        rw [(hsame' h.1).1 h.2]
      case isFalse => rfl
    rw [← hstart, ← ih r' _ fun h => (hsame' h).2, map_map]
    rfl

variable {ranges : List (FeaturesRange V)}

theorem nested_loops_features {permutations : Bool} (hne : ranges ≠ [])
    (hsame : permutations = false → SameRanges ranges) :
    (nested_loops permutations ranges).map (map Prod.fst) =
      tuples (same_loop permutations) (·.features) ranges := by
  cases ranges with
  | nil => exact absurd rfl hne
  | cons r rs => exact nested_loop_features permutations rs r 0 hsame

/-- With enough fuel, calls are made that pass on the given features, in some
    order, and these are counted. -/
def Yields [Mul V] (offset : BitVec 64) (run : Nat → Option (Nat × List (KernelCall V)))
    (features : List (V × FeatureIndex)) : Prop :=
  ∃ (m : Nat) (calls : List (KernelCall V)), (calls.flatMap (inner_kernel offset)).Perm features ∧
    ∀ fuel ≥ m, run fuel = some (features.length, calls)

variable {offset : BitVec 64} {run : Nat → Option (Nat × List (KernelCall V))}
  {features : List (V × FeatureIndex)}

theorem Yields.of_perm [Mul V] {features' : List (V × FeatureIndex)}
    (h : Yields offset run features) (hperm : features.Perm features') :
    Yields offset run features' := by
  obtain ⟨m, calls, hcalls, heq⟩ := h
  exact ⟨m, calls, hcalls.trans hperm, fun fuel hfuel => hperm.length_eq ▸ heq fuel hfuel⟩

theorem Yields.congr [Mul V] {run' : Nat → Option (Nat × List (KernelCall V))}
    (h : Yields offset run features) (hrun : ∀ fuel, run' fuel = run fuel) :
    Yields offset run' features := by
  obtain ⟨m, calls, hcalls, heq⟩ := h
  exact ⟨m, calls, hcalls, fun fuel hfuel => (hrun fuel).trans (heq fuel hfuel)⟩

theorem yields_nothing [Mul V] (offset : BitVec 64) :
    Yields offset (fun _ => some (0, [])) ([] : List (V × FeatureIndex)) :=
  ⟨0, [], List.Perm.refl _, fun _ _ => rfl⟩

/-- Several runs, one after the other. -/
theorem foldl_add_result_yields [Mul V] {run : α → Nat → Option (Nat × List (KernelCall V))}
    {features : α → List (V × FeatureIndex)} (l : List α)
    (h : ∀ a ∈ l, Yields offset (run a) (features a))
    {before : Nat → Option (Nat × List (KernelCall V))} {first : List (V × FeatureIndex)}
    (hbefore : Yields offset before first) :
    Yields offset (fun fuel => (l.map fun a => run a fuel).foldl add_result (before fuel))
      (first ++ l.flatMap features) := by
  induction l generalizing before first with
  | nil => simpa using hbefore
  | cons a l ih =>
    have hstep : Yields offset (fun fuel => add_result (before fuel) (run a fuel))
        (first ++ features a) := by
      obtain ⟨m, calls, hcalls, hrun⟩ := hbefore
      obtain ⟨m', calls', hcalls', hrun'⟩ := h a mem_cons_self
      refine ⟨max m m', calls ++ calls', ?_, ?_⟩
      · rw [flatMap_append]
        exact hcalls.append hcalls'
      intro fuel hfuel
      show add_result (before fuel) (run a fuel) = _
      rw [hrun fuel (le_trans (le_max_left m m') hfuel),
        hrun' fuel (le_trans (le_max_right m m') hfuel), length_append]
      rfl
    have hrest := ih (fun b hb => h b (mem_cons_of_mem a hb)) hstep
    rw [flatMap_cons, ← append_assoc]
    exact hrest

theorem process_each_yields [Mul V] {run : α → Nat → Option (Nat × List (KernelCall V))}
    {features : α → List (V × FeatureIndex)} (l : List α)
    (h : ∀ a ∈ l, Yields offset (run a) (features a)) :
    Yields offset (fun fuel => process_each (l.map fun a => run a fuel)) (l.flatMap features) :=
  foldl_add_result_yields l h (yields_nothing offset)

section Yields

variable [CommMagma V] [One V]

theorem process_interaction_yields (permutations : Bool) (offset : BitVec 64)
    (hlen : 2 ≤ ranges.length) (hne : ∀ r ∈ ranges, r.features ≠ [])
    (hsame : permutations = false → SameRanges ranges) :
    Yields offset (fun fuel => process_interaction fuel permutations ranges)
      ((tuples (same_loop permutations) (·.features) ranges).map
        (combine_features offset)) := by
  have hfeatures : (interaction_calls permutations ranges).flatMap (inner_kernel offset) =
      (tuples (same_loop permutations) (·.features) ranges).map
        (combine_features offset) := by
    rw [interaction_calls_flatMap permutations offset hlen, ← nested_loops_features
      (fun h => by simp [h] at hlen) hsame, map_map]
    exact map_congr_left fun t _ => combined_eq offset t
  obtain ⟨m, hgeneric⟩ := process_generic_interaction_eq permutations hlen hne hsame
  refine ⟨m, interaction_calls permutations ranges, of_eq hfeatures, fun fuel hfuel => ?_⟩
  rw [← hfeatures, ← call_features_eq]
  -- The special cases make the calls of the general one.
  unfold process_interaction
  split
  · rw [process_quadratic_interaction_eq]
  · rw [process_cubic_interaction_eq]
  · exact hgeneric fuel hfuel

end Yields

/-! ## The ranges of an example -/

variable {ns : NamespaceIndex}

namespace ExamplePredict

/-- The extents of every feature group are closed. -/
def ExtentsClosed (ec : ExamplePredict V) : Prop :=
  ∀ ns, Extents.Closed (ec.feature_space ns).namespace_extents (ec.feature_space ns).size

variable {ec : ExamplePredict V} {term : ExtentTerm} {r : FeaturesRange V}

theorem namespace_range_begin_it {ns' : NamespaceIndex} (hne : (ec.feature_space ns).items ≠ [])
    (hne' : (ec.feature_space ns').items ≠ []) :
    (ec.namespace_range ns).begin_it = (ec.namespace_range ns').begin_it ↔ ns = ns' := by
  constructor
  · intro h
    by_contra hns
    have hpos := length_pos_iff.mpr hne
    have hpos' := length_pos_iff.mpr hne'
    rw [Features.length_items] at hpos hpos'
    exact ec.separate ns ns' hns 0 hpos 0 hpos' h
  · intro h
    rw [h]

theorem mem_hash_extents :
    r ∈ ec.hash_extents term ↔ ∃ extent ∈ (ec.feature_space term.1).namespace_extents,
      extent.hash = term.2 ∧ ec.extent_range term.1 extent = r := by
  simp [hash_extents, and_assoc]

theorem length_extent_range {extent : NamespaceExtent}
    (hend : extent.end_index ≤ (ec.feature_space ns).size) :
    (ec.extent_range ns extent).features.length = extent.end_index - extent.begin_index := by
  simp only [extent_range, length_drop, length_take, Features.length_items]
  omega

/-- No two extents begin at the same place. -/
theorem nodup_begin_index {extents : List NamespaceExtent} {size : Nat}
    (h : Extents.Closed extents size) : (extents.map (·.begin_index)).Nodup := by
  refine pairwise_map.mpr (h.ordered.imp_of_mem ?_)
  intro e e' he _ hle
  have hlt := (h.bounds e he).1
  omega

theorem nodup_hash_extents (hclosed : ec.ExtentsClosed) (term : ExtentTerm) :
    (ec.hash_extents term).Nodup := by
  have hnodup := nodup_begin_index (hclosed term.1)
  refine List.Nodup.map_on ?_ (hnodup.of_map.filter _)
  intro e he e' he' heq
  refine inj_on_of_nodup_map hnodup (mem_of_mem_filter he) (mem_of_mem_filter he') ?_
  exact Nat.add_left_cancel (congrArg begin_it heq)

/-- The begin of an extent determines its namespace and its hash. -/
theorem hash_extents_begin_it (hclosed : ec.ExtentsClosed)
    {term' : ExtentTerm} {r' : FeaturesRange V} (hr : r ∈ ec.hash_extents term)
    (hr' : r' ∈ ec.hash_extents term') : r.begin_it = r'.begin_it ↔ term = term' ∧ r = r' := by
  obtain ⟨e, he, hhash, rfl⟩ := mem_hash_extents.mp hr
  obtain ⟨e', he', hhash', rfl⟩ := mem_hash_extents.mp hr'
  have hbounds := (hclosed term.1).bounds e he
  have hbounds' := (hclosed term'.1).bounds e' he'
  constructor
  · intro h
    have hns : term.1 = term'.1 := by
      by_contra hns
      exact ec.separate _ _ hns e.begin_index (by omega) e'.begin_index (by omega) h
    rw [← hns] at he' h
    have hee : e = e' := inj_on_of_nodup_map (nodup_begin_index (hclosed term.1)) he he'
      (Nat.add_left_cancel h)
    exact ⟨Prod.ext hns (by rw [← hhash, ← hhash', hee]), by rw [hee, hns]⟩
  · intro h
    rw [h.2]

theorem features_ne_nil_of_mem (hclosed : ec.ExtentsClosed) (hr : r ∈ ec.hash_extents term) : r.features ≠ [] := by
  obtain ⟨e, he, -, rfl⟩ := mem_hash_extents.mp hr
  have hbounds := (hclosed term.1).bounds e he
  apply ne_nil_of_length_pos
  rw [length_extent_range hbounds.2]
  omega

/-- A term is empty exactly if it names no extent. -/
theorem has_empty_extent_interaction_iff (hclosed : ec.ExtentsClosed)
    (terms : List ExtentTerm) :
    ec.has_empty_extent_interaction terms = true ↔ ∃ term ∈ terms, ec.hash_extents term = [] := by
  have hpos (ns : NamespaceIndex) (e : NamespaceExtent)
      (he : e ∈ (ec.feature_space ns).namespace_extents) : e.begin_index < e.end_index :=
    ((hclosed ns).bounds e he).1
  unfold has_empty_extent_interaction
  rw [any_eq_true]
  refine exists_congr fun term => and_congr_right fun _ => ?_
  simp only [hash_extents, Bool.not_eq_true', any_eq_false, map_eq_nil_iff,
    filter_eq_nil_iff, Bool.and_eq_true, beq_iff_eq, decide_eq_true_eq]
  refine forall_congr' fun e => forall_congr' fun he => not_congr ?_
  have := hpos term.1 e he
  exact ⟨fun h => h.1.symm, fun h => ⟨h.symm, by omega⟩⟩

theorem separated_hash_extents (hclosed : ec.ExtentsClosed)
    (terms : List ExtentTerm) :
    Separated (same_loop false) ec.hash_extents terms := by
  refine ⟨fun t _ => nodup_hash_extents hclosed t, fun t _ t' _ e he e' he' => ?_⟩
  rw [← hash_extents_begin_it hclosed he he']
  simp [same_loop]

end ExamplePredict

/-! ## The features of an example -/

theorem sameRanges_of_forall (h : ∀ r ∈ ranges, ∀ r' ∈ ranges, r.begin_it = r'.begin_it → r = r') :
    SameRanges ranges := by
  refine (pairwise_of_forall_mem_list fun r hr r' hr' heq => ?_).isChain
  rw [h r hr r' hr' heq]

/-- Equal terms in a row are looped over together, without permutations. -/
def term_loop {T : Type} [DecidableEq T] (permutations : Bool) (t t' : T) : Bool :=
  !permutations && decide (t = t')

def ExamplePredict.namespace_features (ec : ExamplePredict V) (ns : NamespaceIndex) :
    List (V × FeatureIndex) := (ec.feature_space ns).items

/-- The features of a full name, from all its extents. -/
def ExamplePredict.extent_features (ec : ExamplePredict V) : ExtentTerm → List (V × FeatureIndex) :=
  place_items (·.features) ec.hash_extents

/-- Without permutations the extents of a full name are as good as one list of
    its features. -/
theorem extent_combinations_perm {ec : ExamplePredict V} (hclosed : ec.ExtentsClosed)
    {terms : List ExtentTerm} (hlen : 2 ≤ terms.length) :
    ((tuples equal_terms ec.hash_extents terms).flatMap
      (tuples (same_loop false) (·.features))).Perm
        (tuples equal_terms ec.extent_features terms) := by
  have hne : terms ≠ [] := by
    intro h
    simp [h] at hlen
  classical
  exact flatMap_tuples_parts (separated_hash_extents hclosed terms) hne

theorem extentsClosed_of_features [Zero V] {f : Features V}
    (h : Extents.Closed f.namespace_extents f.size) :
    (of_features ns f).ExtentsClosed := by
  intro ns'
  unfold of_features
  by_cases hns : ns' = ns
  · simpa [hns] using h
  · simpa [hns, Features.empty] using Extents.closed_nil _

section Example

variable [CommMagma V] [One V]

theorem process_char_interaction_yields (permutations : Bool) (ec : ExamplePredict V)
    {ns : List NamespaceIndex} (hlen : 2 ≤ ns.length) :
    Yields ec.ft_offset (fun fuel => process_char_interaction fuel permutations ec ns)
      ((tuples (term_loop permutations) ec.namespace_features ns).map
        (combine_features ec.ft_offset)) := by
  have hloop (a b : NamespaceIndex) : term_loop permutations a b = true → a = b := by
    simp [term_loop]
  have hempty : ec.has_empty_interaction ns = true ↔ ∃ a ∈ ns, ec.namespace_features a = [] := by
    unfold has_empty_interaction
    rw [any_eq_true]
    refine exists_congr fun a => and_congr_right fun _ => ?_
    rw [term_is_empty, List.isEmpty_iff, ← Features.map_fst_items,
      map_eq_nil_iff, namespace_features]
  by_cases h : ec.has_empty_interaction ns = true
  · rw [tuples_eq_nil _ _ hloop (hempty.mp h)]
    exact (yields_nothing ec.ft_offset).congr fun fuel => by simp [process_char_interaction, h]
  · have hne (a : NamespaceIndex) (ha : a ∈ ns) : ec.namespace_features a ≠ [] :=
      fun hnil => h (hempty.mpr ⟨a, ha, hnil⟩)
    have hbegin (a : NamespaceIndex) (ha : a ∈ ns) (b : NamespaceIndex) (hb : b ∈ ns) :
        (ec.namespace_range a).begin_it = (ec.namespace_range b).begin_it ↔ a = b :=
      namespace_range_begin_it (hne a ha) (hne b hb)
    have hranges : tuples (same_loop permutations) (·.features)
        (ns.map ec.namespace_range) = tuples (term_loop permutations) ec.namespace_features ns := by
      match ns, hlen with
      | a :: ns, _ =>
        simp only [map_cons, tuples, tuples_from_places]
        refine tuples_from_congr _ _ ns _ a (fun b hb c hc => ?_) fun b _ => rfl
        have hiff := hbegin b hb c (mem_cons_of_mem a hc)
        simp only [same_loop, term_loop, ← hiff]
        rfl
    rw [← hranges]
    refine (process_interaction_yields permutations ec.ft_offset (by simpa using hlen) ?_ ?_).congr
      fun fuel => by simp [process_char_interaction, h]
    · intro r hr
      obtain ⟨a, ha, rfl⟩ := mem_map.mp hr
      exact hne a ha
    · intro _
      refine sameRanges_of_forall fun r hr r' hr' heq => ?_
      obtain ⟨a, ha, rfl⟩ := mem_map.mp hr
      obtain ⟨b, hb, rfl⟩ := mem_map.mp hr'
      rw [(hbegin a ha b hb).mp heq]

/-- The features of an interaction over extents: those of all combinations of
    extents. -/
theorem process_extent_interaction_yields (permutations : Bool) {ec : ExamplePredict V}
    (hclosed : ec.ExtentsClosed) {terms : List ExtentTerm} (hlen : 2 ≤ terms.length)
    (hwild : ∀ term ∈ terms, term.1 ≠ WILDCARD_NAMESPACE) :
    Yields ec.ft_offset (fun fuel => process_extent_interaction fuel permutations ec terms)
      (((tuples equal_terms ec.hash_extents terms).flatMap
        (tuples (same_loop permutations) (·.features))).map
          (combine_features ec.ft_offset)) := by
  have hsame (a b : ExtentTerm) : equal_terms a b = true → a = b := by simp
  have hwild' : (terms.any fun term => term.1 == WILDCARD_NAMESPACE) = false := by
    simpa using fun a b => hwild (a, b)
  by_cases h : ec.has_empty_extent_interaction terms = true
  · rw [tuples_eq_nil _ _ hsame ((has_empty_extent_interaction_iff hclosed terms).mp h)]
    exact (yields_nothing ec.ft_offset).congr fun fuel => by simp [process_extent_interaction, h]
  · obtain ⟨m, combinations, hperm, hexpand⟩ :=
      generate_generic_extent_combination_iterative_perm ec hlen
    have hmem (c : List (FeaturesRange V)) (hc : c ∈ combinations) :
        c.length = terms.length ∧ ∀ r ∈ c, ∃ term ∈ terms, r ∈ ec.hash_extents term := by
      have hc' := hperm.subset hc
      match terms, hlen with
      | t :: ts, _ => exact ⟨length_of_mem_tuples_from _ _ hc',
          mem_items_of_mem_tuples_from hsame suffix_rfl hc'⟩
    -- Each combination is processed on its own.
    have heach (c : List (FeaturesRange V)) (hc : c ∈ combinations) :
        Yields ec.ft_offset (fun fuel => process_interaction fuel permutations c)
          ((tuples (same_loop permutations) (·.features) c).map
            (combine_features ec.ft_offset)) := by
      apply process_interaction_yields
      · rw [(hmem c hc).1]
        exact hlen
      · intro r hr
        obtain ⟨term, -, hr'⟩ := (hmem c hc).2 r hr
        exact features_ne_nil_of_mem hclosed hr'
      · intro _
        refine sameRanges_of_forall fun r hr r' hr' heq => ?_
        obtain ⟨term, -, hterm⟩ := (hmem c hc).2 r hr
        obtain ⟨term', -, hterm'⟩ := (hmem c hc).2 r' hr'
        exact ((hash_extents_begin_it hclosed hterm hterm').mp heq).2
    obtain ⟨m', calls, hcalls, hrun⟩ := process_each_yields combinations heach
    have hall : (combinations.flatMap fun c =>
        (tuples (same_loop permutations) (·.features) c).map
          (combine_features ec.ft_offset)).Perm
        (((tuples equal_terms ec.hash_extents terms).flatMap
          (tuples (same_loop permutations) (·.features))).map
            (combine_features ec.ft_offset)) := by
      rw [map_flatMap]
      exact hperm.flatMap_right _
    refine Yields.of_perm ⟨max m m', calls, hcalls, fun fuel hfuel => ?_⟩ hall
    simp only [process_extent_interaction, h, hwild', Bool.false_eq_true, if_false,
      hexpand fuel (le_trans (le_max_left m m') hfuel)]
    exact hrun fuel (le_trans (le_max_right m m') hfuel)

/-- What is passed on for an example, in some order. -/
theorem generate_interactions_perm (permutations : Bool) (ec : ExamplePredict V)
    (interactions : List (List NamespaceIndex)) (extent_interactions : List (List ExtentTerm))
    (hclosed : ∀ terms ∈ extent_interactions, ec.ExtentsClosed)
    (hlen : ∀ ns ∈ interactions, 2 ≤ ns.length)
    (hlen' : ∀ terms ∈ extent_interactions, 2 ≤ terms.length)
    (hwild : ∀ terms ∈ extent_interactions, ∀ term ∈ terms, term.1 ≠ WILDCARD_NAMESPACE) :
    ∃ features, features.Perm
        ((interactions.flatMap fun ns =>
          (tuples (term_loop permutations) ec.namespace_features ns).map
            (combine_features ec.ft_offset)) ++
        extent_interactions.flatMap fun terms =>
          ((tuples equal_terms ec.hash_extents terms).flatMap
            (tuples (same_loop permutations) (·.features))).map
              (combine_features ec.ft_offset)) ∧
      ∃ m, ∀ fuel ≥ m, generate_interactions fuel interactions extent_interactions permutations ec =
        some (features.length, features) := by
  have hchar := process_each_yields interactions fun ns hns =>
    process_char_interaction_yields permutations ec (hlen ns hns)
  obtain ⟨m, calls, hcalls, hrun⟩ := foldl_add_result_yields extent_interactions
    (fun terms hterms => process_extent_interaction_yields permutations
      (hclosed terms hterms) (hlen' terms hterms) (hwild terms hterms)) hchar
  refine ⟨_, hcalls, m, fun fuel hfuel => ?_⟩
  have h := hrun fuel hfuel
  rw [← hcalls.length_eq] at h
  unfold process_each at h
  beta_reduce at h
  unfold generate_interactions process_each
  rw [foldl_append, h]
  rfl

end Example

end VW
