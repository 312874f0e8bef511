import VowpalWabbit.Interactions.Generate

/-! # Interactions of two examples with related indices

    What is generated reads the indices of the features in the hashes alone. Where two
    examples have the same values, and indices that are related feature by feature, so are
    the features that are generated for them, if the relation is kept by what is done with
    indices.
-/

open Cpp Relator Function

namespace VW

open List

variable {V : Type}

/-- A relation of indices that the hashes of interactions keep. -/
structure HashRelation (R : FeatureIndex → FeatureIndex → Prop) : Prop where
  zero : R 0 0
  xor : ∀ {x x' y y'}, R x x' → R y y' → R (x ^^^ y) (x' ^^^ y')
  mul : ∀ {x x'}, R x x' → R (FNV_PRIME * x) (FNV_PRIME * x')

section Relations

variable (R : FeatureIndex → FeatureIndex → Prop)

def RelatedFeature (f g : V × FeatureIndex) : Prop := f.1 = g.1 ∧ R f.2 g.2

structure RelatedRange (r r' : FeaturesRange V) : Prop where
  begin_it : r.begin_it = r'.begin_it
  features : List.Forall₂ (RelatedFeature R) r.features r'.features

structure RelatedCall (call call' : KernelCall V) : Prop where
  features : List.Forall₂ (RelatedFeature R) call.features call'.features
  ft_value : call.ft_value = call'.ft_value
  halfhash : R call.halfhash call'.halfhash

/-- What an interaction gives. -/
def RelatedResult (result result' : Nat × List (KernelCall V)) : Prop :=
  result.1 = result'.1 ∧ List.Forall₂ (RelatedCall R) result.2 result'.2

structure RelatedData (data data' : FeatureGenData V) : Prop where
  hash : R data.hash data'.hash
  x : data.x = data'.x
  self_interaction : data.self_interaction = data'.self_interaction
  range : RelatedRange R data.range data'.range
  current : data.current = data'.current

structure RelatedState (s s' : GenericState V) : Prop where
  state_data : ∀ k, RelatedData R (s.state_data k) (s'.state_data k)
  cur_data : s.cur_data = s'.cur_data
  num_features : s.num_features = s'.num_features
  calls : List.Forall₂ (RelatedCall R) s.calls s'.calls

end Relations

variable {R : FeatureIndex → FeatureIndex → Prop}

/-! ## Pairs and triples -/

/-- Features with their positions. -/
theorem related_zipIdx {l l' : List (V × FeatureIndex)} (h : List.Forall₂ (RelatedFeature R) l l') :
    ∀ k, List.Forall₂ (fun f g : (V × FeatureIndex) × Nat => RelatedFeature R f.1 g.1 ∧ f.2 = g.2)
      (l.zipIdx k) (l'.zipIdx k) := by
  induction h with
  | nil => exact fun _ => .nil
  | cons head _ ih => exact fun k => .cons ⟨head, rfl⟩ (ih (k + 1))

theorem related_quadratic [Mul V] (hR : HashRelation R) {first first' second second' : FeaturesRange V}
    (h₁ : RelatedRange R first first') (h₂ : RelatedRange R second second') (permutations : Bool) :
    RelatedResult R (process_quadratic_interaction first second permutations)
      (process_quadratic_interaction first' second' permutations) := by
  unfold process_quadratic_interaction
  rw [h₁.begin_it, h₂.begin_it]
  refine rel_foldl (P := RelatedResult R) ?_ ⟨rfl, .nil⟩ (related_zipIdx h₁.features 0)
  rintro ⟨n, calls⟩ ⟨n', calls'⟩ ⟨hn, hcalls⟩ ⟨f, i⟩ ⟨g, j⟩ ⟨hf, hi⟩
  obtain rfl : n = n' := hn
  obtain rfl : i = j := hi
  have hrest := forall₂_drop (loop_start (!permutations && first'.begin_it == second'.begin_it) i) h₂.features
  exact ⟨congrArg (n + ·) hrest.length_eq,
    rel_append hcalls (.cons ⟨hrest, hf.1, hR.mul hf.2⟩ .nil)⟩

theorem related_cubic [Mul V] (hR : HashRelation R) {first first' second second' third third' : FeaturesRange V}
    (h₁ : RelatedRange R first first') (h₂ : RelatedRange R second second') (h₃ : RelatedRange R third third')
    (permutations : Bool) :
    RelatedResult R (process_cubic_interaction first second third permutations)
      (process_cubic_interaction first' second' third' permutations) := by
  unfold process_cubic_interaction
  rw [h₁.begin_it, h₂.begin_it, h₃.begin_it]
  refine rel_foldl (P := RelatedResult R) ?_ ⟨rfl, .nil⟩ (related_zipIdx h₁.features 0)
  rintro acc acc' hacc ⟨f, i⟩ ⟨g, j⟩ ⟨hf, hi⟩
  obtain rfl : i = j := hi
  refine rel_foldl (P := RelatedResult R) ?_ hacc
    (forall₂_drop _ (related_zipIdx h₂.features 0))
  rintro ⟨n, calls⟩ ⟨n', calls'⟩ ⟨hn, hcalls⟩ ⟨f₂, i₂⟩ ⟨g₂, j₂⟩ ⟨hf₂, hi₂⟩
  obtain rfl : n = n' := hn
  obtain rfl : i₂ = j₂ := hi₂
  have hrest := forall₂_drop (loop_start (!permutations && second'.begin_it == third'.begin_it) i₂) h₃.features
  refine ⟨congrArg (n + ·) hrest.length_eq, rel_append hcalls (.cons ⟨hrest, ?_, ?_⟩ .nil)⟩
  · exact congrArg₂ interaction_value hf.1 hf₂.1
  · exact hR.mul (hR.xor (hR.mul hf.2) hf₂.2)

/-! ## Interactions of any length -/

theorem related_update {data data' : Nat → FeatureGenData V} (h : ∀ k, RelatedData R (data k) (data' k)) (k : Nat)
    {d d' : FeatureGenData V} (hd : RelatedData R d d') :
    ∀ j, RelatedData R (update data k d j) (update data' k d' j) := by
  intro j
  by_cases hj : j = k
  · subst hj
    rw [update_self, update_self]
    exact hd
  · rw [update_of_ne hj, update_of_ne hj]
    exact h j

/-- Where the machine goes back to does not depend on indices. -/
theorem related_go_back : ∀ (cur : Nat) {data data' : Nat → FeatureGenData V},
    (∀ k, RelatedData R (data k) (data' k)) →
    Option.Rel (fun a b => (∀ k, RelatedData R (a.1 k) (b.1 k)) ∧ a.2 = b.2) (go_back data cur)
      (go_back data' cur) := by
  intro cur
  induction cur with
  | zero => exact fun _ => .none
  | succ cur ih =>
    intro data data' h
    have hd : RelatedData R { data cur with current := (data cur).current + 1 }
        { data' cur with current := (data' cur).current + 1 } :=
      ⟨(h cur).hash, (h cur).x, (h cur).self_interaction, (h cur).range, congrArg (· + 1) (h cur).current⟩
    have hupdate := related_update h cur hd
    have hgo : ((data cur).current + 1 == (data cur).range.features.length) =
        ((data' cur).current + 1 == (data' cur).range.features.length) := by
      rw [(h cur).current, (h cur).range.features.length_eq]
    unfold go_back
    dsimp only
    rw [hgo]
    split
    · exact ih hupdate
    · exact .some ⟨hupdate, rfl⟩

section Generic

variable [Mul V]

theorem related_generic_step (hR : HashRelation R) (permutations : Bool) (last : Nat) {s s' : GenericState V}
    (h : RelatedState R s s') :
    Option.Rel (fun a b => RelatedState R a.1 b.1 ∧ a.2 = b.2) (generic_step permutations last s)
      (generic_step permutations last s') := by
  obtain ⟨data, cur, n, calls⟩ := s
  obtain ⟨data', cur', n', calls'⟩ := s'
  obtain ⟨hdata, hcur, hn, hcalls⟩ := h
  dsimp only at hdata hcur hn hcalls
  subst hcur hn
  unfold generic_step
  dsimp only
  split
  · -- the record after this one takes the hash of the feature that stands here
    have hfeatures := (hdata cur).range.features
    rw [(hdata cur).current]
    rcases hf : (data cur).range.features[(data' cur).current]? with _ | f
    · have hf' : (data' cur).range.features[(data' cur).current]? = none := by
        rw [List.getElem?_eq_none_iff, ← hfeatures.length_eq]
        exact List.getElem?_eq_none_iff.mp hf
      rw [hf']
      exact .none
    · obtain ⟨hlt, hget⟩ := List.getElem?_eq_some_iff.mp hf
      have hlt' := hfeatures.length_eq ▸ hlt
      have hrelated := hfeatures.get hlt hlt'
      rw [getElem?_eq_getElem hlt']
      simp only [get_eq_getElem, hget] at hrelated
      refine .some ⟨⟨related_update hdata (cur + 1) ⟨?_, ?_, (hdata _).self_interaction, (hdata _).range, ?_⟩,
        rfl, rfl, hcalls⟩, rfl⟩
      · dsimp only
        split
        · exact hR.mul hrelated.2
        · exact hR.mul (hR.xor (hdata cur).hash hrelated.2)
      · dsimp only
        rw [hrelated.1, (hdata cur).x]
      · dsimp only
        rw [(hdata (cur + 1)).self_interaction]
  · have hrest := forall₂_drop (if permutations then 0 else (data' last).current) (hdata cur).range.features
    rw [(hdata last).current]
    have hgo := related_go_back cur hdata
    generalize go_back data cur = went at hgo ⊢
    generalize go_back data' cur = went' at hgo ⊢
    cases hgo with
    | none => exact .none
    | @some a b hab =>
      obtain ⟨data₁, cur₁, more₁⟩ := a
      obtain ⟨data₂, cur₂, more₂⟩ := b
      obtain ⟨hdata₁, heq⟩ := hab
      cases heq
      refine .some ⟨⟨hdata₁, rfl, congrArg (n + ·) hrest.length_eq, rel_append hcalls (.cons ?_ .nil)⟩, rfl⟩
      exact ⟨hrest, (hdata last).x, (hdata last).hash⟩

theorem related_generic_loop (hR : HashRelation R) (permutations : Bool) (last : Nat) :
    ∀ (fuel : Nat) {s s' : GenericState V}, RelatedState R s s' →
      Option.Rel (RelatedState R) (generic_loop permutations last fuel s)
        (generic_loop permutations last fuel s') := by
  intro fuel
  induction fuel with
  | zero => exact fun _ => .none
  | succ fuel ih =>
    intro s s' h
    have hstep := related_generic_step hR permutations last h
    unfold generic_loop
    generalize generic_step permutations last s = r at hstep ⊢
    generalize generic_step permutations last s' = r' at hstep ⊢
    cases hstep with
    | none => exact .none
    | @some a b hab =>
      obtain ⟨t, more⟩ := a
      obtain ⟨t', more'⟩ := b
      obtain ⟨hstate, rfl⟩ := hab
      dsimp only
      split
      · exact ih hstate
      · exact .some hstate

end Generic

variable {ranges' ranges : List (FeaturesRange V)}

theorem related_prepare [One V] (hR : HashRelation R) (permutations : Bool)
    (h : List.Forall₂ (RelatedRange R) ranges ranges') (k : Nat) :
    RelatedData R (prepare_state_data permutations ranges k) (prepare_state_data permutations ranges' k) := by
  have hget : ∀ j : Nat, (ranges[j]?.map fun r => r.begin_it) = ranges'[j]?.map fun r => r.begin_it := by
    intro j
    have hmap : ranges.map (fun r => r.begin_it) = ranges'.map fun r => r.begin_it := by
      induction h with
      | nil => rfl
      | cons head _ ih => rw [map_cons, map_cons, head.begin_it, ih]
    rw [← getElem?_map, ← getElem?_map, hmap]
  have hrange : RelatedRange R (ranges.getD k ⟨0, []⟩) (ranges'.getD k ⟨0, []⟩) := by
    induction h generalizing k with
    | nil => exact ⟨rfl, .nil⟩
    | @cons r r' rs rs' head tail ih =>
      cases k with
      | zero => exact head
      | succ k => exact ih k fun j => by simpa using hget (j + 1)
  refine ⟨hR.zero, rfl, ?_, hrange, rfl⟩
  unfold prepare_state_data
  rw [hget k, hget (k - 1)]

/-- What an interaction gives, if anything. -/
def RelatedResult? (R : FeatureIndex → FeatureIndex → Prop) (result result' : Option (Nat × List (KernelCall V))) :
    Prop :=
  Option.Rel (RelatedResult R) result result'

theorem related_generic [Mul V] [One V] (hR : HashRelation R) (permutations : Bool) (fuel : Nat)
    (h : List.Forall₂ (RelatedRange R) ranges ranges') :
    RelatedResult? R (process_generic_interaction fuel ranges permutations)
      (process_generic_interaction fuel ranges' permutations) := by
  have hstart : RelatedState R ⟨prepare_state_data permutations ranges, 0, 0, []⟩
      ⟨prepare_state_data permutations ranges', 0, 0, []⟩ :=
    ⟨related_prepare hR permutations h, rfl, rfl, .nil⟩
  have hloop := related_generic_loop hR permutations (ranges'.length - 1) fuel hstart
  unfold process_generic_interaction
  rw [h.length_eq]
  generalize generic_loop permutations (ranges'.length - 1) fuel
    (⟨prepare_state_data permutations ranges, 0, 0, []⟩ : GenericState V) = r at hloop ⊢
  generalize generic_loop permutations (ranges'.length - 1) fuel
    (⟨prepare_state_data permutations ranges', 0, 0, []⟩ : GenericState V) = r' at hloop ⊢
  cases hloop with
  | none => exact .none
  | some hab => exact .some ⟨hab.num_features, hab.calls⟩

theorem related_process [Mul V] [One V] (hR : HashRelation R) (permutations : Bool) (fuel : Nat)
    (h : List.Forall₂ (RelatedRange R) ranges ranges') :
    RelatedResult? R (process_interaction fuel permutations ranges)
      (process_interaction fuel permutations ranges') := by
  -- pairs and triples are processed by loops of their own
  match ranges, ranges', h with
  | _, _, .nil => exact related_generic hR permutations fuel .nil
  | _, _, .cons h₁ .nil => exact related_generic hR permutations fuel (.cons h₁ .nil)
  | _, _, .cons h₁ (.cons h₂ .nil) => exact .some (related_quadratic hR h₁ h₂ permutations)
  | _, _, .cons h₁ (.cons h₂ (.cons h₃ .nil)) => exact .some (related_cubic hR h₁ h₂ h₃ permutations)
  | _, _, .cons h₁ (.cons h₂ (.cons h₃ (.cons h₄ hs))) =>
    exact related_generic hR permutations fuel (.cons h₁ (.cons h₂ (.cons h₃ (.cons h₄ hs))))

/-! ## All interactions -/

/-- Two examples with the same values at the same places, and related indices. -/
structure RelatedExample (R : FeatureIndex → FeatureIndex → Prop) (ec ec' : ExamplePredict V) : Prop where
  address : ec.address = ec'.address
  items : ∀ ns, List.Forall₂ (RelatedFeature R) (ec.feature_space ns).items (ec'.feature_space ns).items

theorem related_add {acc acc' result result' : Option (Nat × List (KernelCall V))} (h : RelatedResult? R acc acc')
    (hresult : RelatedResult? R result result') :
    RelatedResult? R (add_result acc result) (add_result acc' result') := by
  cases h with
  | none => exact .none
  | some h =>
    cases hresult with
    | none => exact .none
    | some hresult => exact .some ⟨congrArg₂ (· + ·) h.1 hresult.1, rel_append h.2 hresult.2⟩

theorem related_char [Mul V] [One V] (hR : HashRelation R) (permutations : Bool) (fuel : Nat)
    {ec ec' : ExamplePredict V}
    (h : RelatedExample R ec ec') (ns : List NamespaceIndex) :
    RelatedResult? R (process_char_interaction fuel permutations ec ns)
      (process_char_interaction fuel permutations ec' ns) := by
  have hempty : ec.has_empty_interaction ns = ec'.has_empty_interaction ns := by
    unfold ExamplePredict.has_empty_interaction
    congr 1
    funext term
    have hlength := (h.items term).length_eq
    rw [Features.length_items, Features.length_items] at hlength
    unfold Features.size at hlength
    unfold ExamplePredict.term_is_empty
    rw [Bool.eq_iff_iff, isEmpty_iff_length_eq_zero, isEmpty_iff_length_eq_zero, hlength]
  unfold process_char_interaction
  rw [hempty]
  split
  · exact .some ⟨rfl, .nil⟩
  · refine related_process hR permutations fuel ?_
    exact rel_map (fun term _ heq => heq ▸ ⟨congrFun h.address term, h.items term⟩)
      (forall₂_same.mpr fun _ _ => rfl)

/-- The features that are generated for both. -/
theorem related_generate [Mul V] [One V] (hR : HashRelation R) (permutations : Bool) (fuel : Nat)
    {ec ec' : ExamplePredict V}
    (h : RelatedExample R ec ec') (interactions : List (List NamespaceIndex))
    {S : FeatureIndex → FeatureIndex → Prop}
    (hS : ∀ {x x'}, R x x' → S (x + ec.ft_offset) (x' + ec'.ft_offset)) :
    Option.Rel (fun a b => a.1 = b.1 ∧ List.Forall₂ (RelatedFeature S) a.2 b.2)
      (generate_interactions fuel interactions [] permutations ec)
      (generate_interactions fuel interactions [] permutations ec') := by
  have hcalls : RelatedResult? R (process_each (interactions.map (process_char_interaction fuel permutations ec)))
      (process_each (interactions.map (process_char_interaction fuel permutations ec'))) := by
    unfold process_each
    have hnone : RelatedResult R ((0, []) : Nat × List (KernelCall V)) (0, []) := ⟨rfl, .nil⟩
    have hstep : LiftFun (RelatedResult? R) (LiftFun (RelatedResult? R) (RelatedResult? R)) (add_result (V := V))
        add_result := fun _ _ hacc _ _ hresult => related_add hacc hresult
    refine rel_foldl hstep (.some hnone) ?_
    exact rel_map (fun ns _ heq => heq ▸ related_char hR permutations fuel h ns)
      (forall₂_same.mpr fun _ _ => rfl)
  unfold generate_interactions
  simp only [map_nil, append_nil]
  generalize process_each (interactions.map (process_char_interaction fuel permutations ec)) = r at hcalls ⊢
  generalize process_each (interactions.map (process_char_interaction fuel permutations ec')) = r' at hcalls ⊢
  cases hcalls with
  | none => exact .none
  | some hab =>
    refine .some ⟨hab.1, rel_flatMap hab.2 fun call call' hcall => ?_⟩
    -- the hash of a call and the offset of the example are added to each index
    refine rel_map (fun f g hf => ⟨?_, ?_⟩) hcall.features
    · exact congrArg₂ interaction_value hcall.ft_value hf.1
    · exact hS (hR.xor hf.2 hcall.halfhash)

end VW
