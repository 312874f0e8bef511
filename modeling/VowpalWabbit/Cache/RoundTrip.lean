import VowpalWabbit.Cache.Example

/-! # What comes back from the cache

    Reading namespaces adds their decoded features to the example, whatever
    the bytes are; on the bytes that `write_example_to_cache` has produced
    these are the features that were written. Two things do not survive: the
    extents, which are never written, and the flag `sorted`, which is that of
    the last namespace only.
-/

open Cpp Prod

namespace VW.Cache

open Outcome

variable {L R : Type} {A : Allocator} {b : IoBuf}

/-! ## Reading namespaces -/

/-- A namespace as the cache has it: its index and its features, with the
    differences between their indices. -/
abbrev CachedNamespace : Type := Byte × List (Single × BitVec 64)

/-- The example with one more namespace from the cache. -/
def add_namespace (ex : Example L R) (ns : CachedNamespace) : Example L R :=
  with_namespace ex ns.1 (ascending ns.2) ((ex.feature_space ns.1).push_all (undelta 0 ns.2))

/-- The features that the list `nss` of cached namespaces has for `index`. -/
def features_of (nss : List CachedNamespace) (index : Byte) : List (Single × FeatureIndex) :=
  (nss.filter (·.1 = index)).flatMap fun ns => undelta 0 ns.2

theorem indices_add_namespaces (nss : List CachedNamespace) (ex : Example L R) :
    (nss.foldl add_namespace ex).indices = ex.indices ++ nss.map fst := by
  induction nss generalizing ex with
  | nil => simp
  | cons ns nss ih => simp [ih, add_namespace, with_namespace]

theorem feature_space_add_namespaces (nss : List CachedNamespace) (ex : Example L R)
    (index : Byte) :
    (nss.foldl add_namespace ex).feature_space index
      = (ex.feature_space index).push_all (features_of nss index) := by
  induction nss generalizing ex with
  | nil => rfl
  | cons ns nss ih =>
    rw [List.foldl_cons, ih]
    by_cases h : ns.1 = index
    · subst h
      simp [add_namespace, with_namespace, features_of, Features.push_all]
    · simp [add_namespace, with_namespace, features_of, h, Function.update_of_ne (Ne.symm h)]

/-- Only the last namespace counts for the flag. -/
theorem sorted_add_namespaces (nss : List CachedNamespace) (ex : Example L R) :
    (nss.foldl add_namespace ex).sorted
      = match nss.getLast? with
        | none => ex.sorted
        | some ns => ascending ns.2 := by
  induction nss using List.reverseRecOn with
  | nil => rfl
  | append_singleton nss ns _ => simp [add_namespace, with_namespace]

theorem rest_add_namespaces (nss : List CachedNamespace) (ex : Example L R) :
    (nss.foldl add_namespace ex).l = ex.l ∧
    (nss.foldl add_namespace ex).ex_reduction_features = ex.ex_reduction_features ∧
    (nss.foldl add_namespace ex).tag = ex.tag ∧
    (nss.foldl add_namespace ex).is_newline = ex.is_newline := by
  induction nss generalizing ex with
  | nil => exact ⟨rfl, rfl, rfl, rfl⟩
  | cons ns nss ih => exact ih (add_namespace ex ns)

/-- Whatever the bytes are, the reader adds the features of some block. -/
theorem read_cached_features_sound {feats : Features Single}
    {r : Nat × Bool × Features Single × IoBuf} (h : read_cached_features A feats b = .ok r) :
    ∃ fs, r.2.1 = ascending fs ∧ r.2.2.1 = feats.push_all (undelta 0 fs) := by
  rw [read_cached_features, read_cached_features_via, bind_eq_ok] at h
  obtain ⟨⟨w, b₁⟩, _, h⟩ := h
  rw [bind_eq_ok] at h
  obtain ⟨⟨ptr, count, b₂⟩, _, h⟩ := h
  simp only at h
  split at h
  · cases h
  · rw [bind_eq_ok] at h
    obtain ⟨⟨p, sorted, feats'⟩, hloop, h⟩ := h
    cases h
    obtain ⟨_, fs, _, _, _, _, hsorted, hfeats⟩ := read_cached_features_loop_sound _ _ _ _ _ hloop
    exact ⟨fs, by rw [hsorted, Bool.true_and], hfeats⟩

theorem read_namespaces_sound :
    ∀ (n total : Nat) (ex : Example L R) (b : IoBuf) {r : Nat × Example L R × IoBuf},
      read_namespaces A n total ex b = .ok r →
      ∃ nss : List CachedNamespace, r.2.1 = nss.foldl add_namespace ex := by
  intro n
  induction n with
  | zero =>
    intro total ex b r h
    cases h
    exact ⟨[], rfl⟩
  | succ n ih =>
    intro total ex b r h
    rw [read_namespaces, bind_eq_ok] at h
    obtain ⟨⟨index, b₁⟩, _, h⟩ := h
    rw [bind_eq_ok] at h
    obtain ⟨⟨size, sorted, feats, b₂⟩, hfeats, h⟩ := h
    obtain ⟨fs, hsorted, hpush⟩ := read_cached_features_sound hfeats
    obtain ⟨nss, hnss⟩ := ih _ _ _ h
    simp only at hsorted hpush
    refine ⟨(index, fs) :: nss, ?_⟩
    rw [hnss, hsorted, hpush]
    rfl

/-- The reader changes only the head of the example and adds namespaces. -/
theorem read_example_from_cache_sound {lbl : LabelParser L R} {ex : Example L R}
    {r : Int × Example L R × IoBuf} (h : read_example_from_cache A lbl ex b = .ok r) :
    ∃ (nss : List CachedNamespace) (ex₁ : Example L R), r.2.1 = nss.foldl add_namespace ex₁ ∧
      ex₁.indices = ex.indices ∧ ex₁.feature_space = ex.feature_space ∧ ex₁.sorted = ex.sorted := by
  rw [read_example_from_cache, bind_eq_ok] at h
  obtain ⟨⟨_, count, b₁⟩, _, h⟩ := h
  simp only at h
  split at h
  · cases h
    exact ⟨[], ex, rfl, rfl, rfl, rfl⟩
  rw [bind_eq_ok] at h
  obtain ⟨⟨total, l, red, b₂⟩, _, h⟩ := h
  simp only at h
  split at h
  · cases h
  rw [bind_eq_ok] at h
  obtain ⟨⟨tag_size, tag, b₃⟩, _, h⟩ := h
  simp only at h
  split at h
  · cases h
  rw [bind_eq_ok] at h
  obtain ⟨⟨newline, b₄⟩, _, h⟩ := h
  rw [bind_eq_ok] at h
  obtain ⟨⟨num_indices, b₅⟩, _, h⟩ := h
  rw [bind_eq_ok] at h
  obtain ⟨⟨total', ex', b₆⟩, hns, h⟩ := h
  cases h
  obtain ⟨nss, hnss⟩ := read_namespaces_sound _ _ _ _ hns
  exact ⟨nss, _, hnss, rfl, rfl, rfl⟩

/-! ## The flag -/

/-- No index is followed by a smaller one. -/
def NonDecreasing (is : List FeatureIndex) : Prop := is.Pairwise (·.toNat ≤ ·.toNat)

instance (is : List FeatureIndex) : Decidable (NonDecreasing is) :=
  inferInstanceAs (Decidable (is.Pairwise _))

/-- Every namespace of the example is sorted. -/
def AllSorted (ex : Example L R) : Prop :=
  ∀ index ∈ ex.indices, NonDecreasing (ex.feature_space index).indices

/-- An example as it comes back from `empty_example`. -/
structure Cleared (ex : Example L R) : Prop where
  indices : ex.indices = []
  values : ∀ index, (ex.feature_space index).values = []
  feature_indices : ∀ index, (ex.feature_space index).indices = []
  extents : ∀ index, (ex.feature_space index).namespace_extents = []
  sorted : ex.sorted = false

/-- The last namespace steps down somewhere, or no namespace is unsorted. -/
def FlagHonest (nss : List CachedNamespace) : Prop :=
  (∃ ns, nss.getLast? = some ns ∧ ascending ns.2 = false) ∨
  ∀ index ∈ nss.map fst, NonDecreasing ((features_of nss index).map snd)

/-- After any read, `nss` being the namespaces that the cache had, the flag
    `sorted` is sound, and the sorting step of `setup_example` leaves no
    unsorted namespace, exactly when the last one in the cache is unsorted or
    none is. -/
theorem sorted_flag_sound_iff (A : Allocator) (lbl : LabelParser L R) (ex₀ : Example L R)
    (hclear : Cleared ex₀) (b : IoBuf) {r : Int × Example L R × IoBuf}
    (h : read_example_from_cache A lbl ex₀ b = .ok r) :
    ∃ nss : List CachedNamespace, r.2.1.indices = nss.map fst ∧
      (∀ index, (r.2.1.feature_space index).indices = (features_of nss index).map snd) ∧
      ((r.2.1.sorted = true → AllSorted r.2.1) ↔ FlagHonest nss) ∧
      ((∀ unique_sort_features : Example L R → Example L R,
          (∀ ex, AllSorted (unique_sort_features ex)) →
          AllSorted (setup_example_sort true unique_sort_features r.2.1)) ↔ FlagHonest nss) := by
  obtain ⟨nss, ex₁, hex, hindices, hspace, hsorted⟩ := read_example_from_cache_sound h
  have hns : r.2.1.indices = nss.map fst := by
    rw [hex, indices_add_namespaces, hindices, hclear.indices, List.nil_append]
  have hfeats : ∀ index,
      (r.2.1.feature_space index).indices = (features_of nss index).map snd := by
    intro index
    rw [hex, feature_space_add_namespaces, hspace, Features.push_all_indices,
      hclear.feature_indices, List.nil_append]
  have hall : AllSorted r.2.1 ↔
      ∀ index ∈ nss.map fst, NonDecreasing ((features_of nss index).map snd) := by
    unfold AllSorted
    rw [hns]
    simp only [hfeats]
  -- The flag is set exactly when there is a last namespace and it never steps down.
  have hflag : r.2.1.sorted = true ↔ ∃ ns, nss.getLast? = some ns ∧ ascending ns.2 = true := by
    rw [hex, sorted_add_namespaces, hsorted, hclear.sorted]
    cases nss.getLast? with
    | none => simp
    | some ns => simp
  have hsound : (r.2.1.sorted = true → AllSorted r.2.1) ↔ FlagHonest nss := by
    unfold FlagHonest
    rw [hall, hflag]
    constructor
    · intro himp
      by_cases hlast : ∃ ns, nss.getLast? = some ns ∧ ascending ns.2 = true
      · exact .inr (himp hlast)
      · cases hget : nss.getLast? with
        | none =>
          right
          rw [List.getLast?_eq_none_iff.mp hget]
          intro index hindex
          cases hindex
        | some ns =>
          left
          refine ⟨ns, rfl, ?_⟩
          rw [Bool.eq_false_iff]
          intro hasc
          exact hlast ⟨ns, hget, hasc⟩
    · rintro (⟨ns, hget, hdown⟩ | hsortedall)
      · rintro ⟨ns', hget', hup⟩
        rw [hget] at hget'
        cases hget'
        rw [hdown] at hup
        cases hup
      · intro _
        exact hsortedall
  refine ⟨nss, hns, hfeats, hsound, ?_⟩
  rw [← hsound]
  constructor
  · intro hsetup hset
    have hstep := hsetup (fun ex => { ex with indices := [] }) (by
      intro ex index hindex
      cases hindex)
    rwa [setup_example_sort, hset] at hstep
  · intro himp unique_sort hsort
    unfold setup_example_sort
    cases hset : r.2.1.sorted with
    | true => exact himp hset
    | false => exact hsort _

/-- An empty example. -/
def blank : Example Unit Unit where
  l := ()
  ex_reduction_features := ()
  tag := []
  is_newline := false
  indices := []
  feature_space _ := Features.empty
  sorted := false

theorem blank_cleared : Cleared blank :=
  ⟨rfl, fun _ => rfl, fun _ => rfl, fun _ => rfl, rfl⟩

/-- Namespace `a` with the indices `5` and `3`, then namespace `b` with `1`. -/
def down_then_up : Example Unit Unit :=
  { blank with
    indices := [97, 98]
    feature_space := fun index =>
      if index = 97 then ⟨[Single.one, Single.one], [5, 3], [], 0, rfl⟩
      else if index = 98 then ⟨[Single.one], [1], [], 0, rfl⟩
      else Features.empty }

/-- `write_example_to_cache` of `down_then_up`. -/
def down_then_up_bytes : List Byte :=
  le_bytes 8 31 ++ le_bytes 8 0 ++ [0x30, 2] ++ (97 :: le_bytes 8 2 ++ [40, 12]) ++
    (98 :: le_bytes 8 1 ++ [8])

/-- The cache of `down_then_up`. -/
theorem sorted_flag_sound_iff_down_then_up :
    ∃ r, read_example_from_cache flat_memory no_label_parser_global blank
        (loaded down_then_up_bytes) = .ok r ∧
      ∃ nss : List CachedNamespace, r.2.1.indices = nss.map fst ∧
        ((r.2.1.sorted = true → AllSorted r.2.1) ↔ FlagHonest nss) := by
  have hread : ∃ r, read_example_from_cache flat_memory no_label_parser_global blank
      (loaded down_then_up_bytes) = .ok r := ⟨_, rfl⟩
  obtain ⟨r, hr⟩ := hread
  obtain ⟨nss, hindices, _, hiff, _⟩ :=
    sorted_flag_sound_iff flat_memory no_label_parser_global blank blank_cleared _ hr
  exact ⟨r, hr, nss, hindices, hiff⟩

/-- The unsorted namespace `a` is followed by the sorted namespace `b`: the
    example comes back from the cache with `sorted` set. -/
theorem sorted_flag_set_on_unsorted_example :
    write_example_to_cache no_label_parser_global 0x3ffff down_then_up = .ok down_then_up_bytes ∧
    ∃ r, read_example_from_cache flat_memory no_label_parser_global blank
        (loaded down_then_up_bytes) = .ok r ∧
      r.2.1.sorted = true ∧ r.2.1.indices = [97, 98] ∧
      (r.2.1.feature_space 97).indices = [5, 3] ∧ ¬ AllSorted r.2.1 := by
  have hread : ∃ r, read_example_from_cache flat_memory no_label_parser_global blank
        (loaded down_then_up_bytes) = .ok r ∧
      r.2.1.sorted = true ∧ r.2.1.indices = [97, 98] ∧
      (r.2.1.feature_space 97).indices = [5, 3] := ⟨_, rfl, rfl, rfl, rfl⟩
  obtain ⟨r, hr, hsorted, hindices, hfeats⟩ := hread
  refine ⟨by decide, r, hr, hsorted, hindices, hfeats, ?_⟩
  intro hall
  have := hall 97 (by rw [hindices]; decide)
  rw [hfeats] at this
  exact absurd this (by decide)

end VW.Cache
