import VowpalWabbit.FeatureGroup.Rows

/-! # Extents and the names of features

    A feature is in an extent exactly if it was added under a name, and then in
    one of that name. The code merges extents of the same name without looking
    whether they touch: in `push_back`, in `end_ns_extent` and in `concat`, and
    `concat` then leaves out the last extent of the other group.
    `extent_condition` says which steps are not concerned; runs within it
    represent the tagged features (`reaches_represents`).
-/

open Cpp Or Nat

namespace VW

open List Extents

variable {i : Nat}

namespace Extents

/-! ## Steps on lists of tags -/

section Covers

variable {extents : List NamespaceExtent} {tags : List (Option (BitVec 64))}

/-- A feature without a name. -/
theorem Covers.append_none (h : Covers extents tags) : Covers extents (tags ++ [none]) := by
  refine ⟨h.closed.mono (by simp), fun p hash => ?_⟩
  rw [h.covered, getElem?_append]
  split
  · rfl
  · rename_i hge
    rw [getElem?_eq_none (Nat.le_of_not_lt hge)]
    rcases Nat.eq_zero_or_pos (p - tags.length) with h0 | hpos
    · rw [h0]
      simp
    · rw [getElem?_eq_none (show [none].length ≤ p - tags.length from hpos)]

theorem getElem?_append_replicate (tags : List (Option (BitVec 64))) (n p : Nat) (hash name : BitVec 64) :
    (tags ++ replicate n (some name))[p]? = some (some hash) ↔
      tags[p]? = some (some hash) ∨ (tags.length ≤ p ∧ p < tags.length + n ∧ name = hash) := by
  rcases lt_or_ge p tags.length with hlt | hge
  · rw [getElem?_append_left hlt]
    constructor
    · exact inl
    · intro h
      rcases h with h | h
      · exact h
      · omega
  · rw [getElem?_append_right hge, getElem?_eq_none hge, getElem?_replicate]
    constructor
    · intro h
      split at h
      · simp only [Option.some.injEq] at h
        exact inr ⟨hge, by omega, h⟩
      · cases h
    · intro h
      rcases h with h | ⟨-, hlt, heq⟩
      · cases h
      · rw [if_pos (by omega), heq]

/-- A new extent behind the others. -/
theorem Covers.append_extent (h : Covers extents tags) {n : Nat} (hn : 0 < n) (name : BitVec 64) :
    Covers (extents ++ [⟨tags.length, tags.length + n, name⟩]) (tags ++ replicate n (some name)) := by
  constructor
  · rw [length_append, length_replicate]
    apply closed_append_iff.mpr
    exact ⟨h.closed, Nat.lt_add_of_pos_right hn, le_refl _⟩
  · intro p hash
    rw [covered_append, covered_singleton, h.covered, getElem?_append_replicate]

/-- The last extent grows, if nothing is behind it. -/
theorem Covers.grow {e : NamespaceExtent} (h : Covers (extents ++ [e]) tags)
    (hend : e.end_index = tags.length) (n : Nat) :
    Covers (extents ++ [{ e with end_index := tags.length + n }])
      (tags ++ replicate n (some e.hash)) := by
  obtain ⟨hinit, hlt, hle⟩ := closed_append_iff.mp h.closed
  constructor
  · rw [length_append, length_replicate]
    apply closed_append_iff.mpr
    refine ⟨hinit, ?_, le_refl _⟩
    show e.begin_index < tags.length + n
    omega
  · intro p hash
    have hcovered := h.covered p hash
    rw [covered_append, covered_singleton] at hcovered
    rw [covered_append, covered_singleton, getElem?_append_replicate, ← hcovered]
    constructor
    · intro hc
      rcases hc with hc | ⟨h1, h2, h3⟩
      · exact inl (inl hc)
      · rcases lt_or_ge p tags.length with hp | hp
        · exact inl (inr ⟨h1, by omega, h3⟩)
        · exact inr ⟨hp, h2, h3⟩
    · intro hc
      rcases hc with (hc | ⟨h1, h2, h3⟩) | ⟨h1, h2, h3⟩
      · exact inl hc
      · exact inr ⟨h1, by simp only; omega, h3⟩
      · exact inr ⟨by simp only; omega, h2, h3⟩

theorem Covers.truncate_to (h : Covers extents tags) (hi : i ≤ tags.length) :
    Covers (truncate_to extents i) (tags.take i) := by
  constructor
  · rw [length_take, min_eq_left hi]
    exact closed_truncate_to h.closed i
  · intro p hash
    rw [covered_truncate_to h.closed, h.covered, getElem?_take]
    constructor
    · intro hp
      rw [if_pos hp.2]
      exact hp.1
    · intro hp
      split at hp
      · exact ⟨hp, by assumption⟩
      · cases hp

theorem covered_map_shift (m p : Nat) (hash : BitVec 64) :
    Covered (extents.map (shift m)) p hash ↔ m ≤ p ∧ Covered extents (p - m) hash := by
  constructor
  · intro h
    obtain ⟨e, he, h1, h2, h3⟩ := h
    obtain ⟨a, ha, rfl⟩ := mem_map.mp he
    have h1' : a.begin_index + m ≤ p := h1
    have h2' : p < a.end_index + m := h2
    exact ⟨by omega, a, ha, by omega, by omega, h3⟩
  · intro h
    obtain ⟨hm, a, ha, h1, h2, h3⟩ := h
    refine ⟨shift m a, mem_map_of_mem ha, ?_, ?_, h3⟩
    · show a.begin_index + m ≤ p
      omega
    · show p < a.end_index + m
      omega

end Covers

/-! ## Conditions -/

/-- The last extent is not joined with one of the same name that it does not touch. -/
def EndsInPlace (extents : List NamespaceExtent) (size : Nat) : Prop :=
  ∀ before prev back, extents = before ++ [prev, back] →
    if back.begin_index = size then
      -- The extent is dropped, and the two before it are looked at.
      ∀ before' prev', before = before' ++ [prev'] → prev'.hash ≠ prev.hash
    else prev.hash = back.hash → prev.end_index = back.begin_index

/-- An extent grows at the end of the group only. -/
def GrowsInPlace (extents : List NamespaceExtent) (size : Nat) (hash : BitVec 64) : Prop :=
  ∀ back ∈ extents.getLast?, back.hash = hash → back.end_index ≠ 0 → back.end_index = size

def PushesInPlace (extents : List NamespaceExtent) (size : Nat) (hash : BitVec 64) : Prop :=
  GrowsInPlace extents size hash ∧
  -- An open extent of another name is ended first.
  ∀ back ∈ extents.getLast?, back.hash ≠ hash → back.end_index = 0 →
    EndsInPlace extents size ∧ GrowsInPlace (end_ns_extent extents size) size hash

/-- A truncation does not cut off the beginning of an open extent. -/
def KeepsOpen (extents : List NamespaceExtent) (i : Nat) : Prop :=
  ∀ back ∈ extents.getLast?, back.end_index = 0 → back.begin_index < i

/-- Extents of the same name touch, and no other ones follow. -/
def JoinsInPlace (extents other : List NamespaceExtent) (size : Nat) : Prop :=
  ∀ back ∈ extents.getLast?, ∀ front ∈ other.head?, back.hash = front.hash →
    back.end_index = size ∧ front.begin_index = 0 ∧ other.length = 1

/-! ## The extents of a group that is being built -/

/-- The extents stand for the tags; an open one takes in what was added since. -/
inductive Represents : List NamespaceExtent → Option (BitVec 64) → List (Option (BitVec 64)) → Prop where
  | closed {extents : List NamespaceExtent} {tags : List (Option (BitVec 64))} :
      Covers extents tags → Represents extents none tags
  | opened {extents : List NamespaceExtent} {tags : List (Option (BitVec 64))} (name : BitVec 64)
      (n : Nat) : Covers extents tags →
      Represents (extents ++ [⟨tags.length, 0, name⟩]) (some name)
        (tags ++ replicate n (some name))

theorem covers_push_back {extents : List NamespaceExtent} {tags : List (Option (BitVec 64))}
    (h : Covers extents tags) {hash : BitVec 64} (hgrow : GrowsInPlace extents tags.length hash) :
    Covers (push_back extents tags.length hash) (tags ++ [some hash]) := by
  rcases push_back_closed h.closed hash with ⟨before, back, rfl, hhash, heq⟩ | ⟨-, heq⟩
  · have hend : back.end_index = tags.length := by
      apply hgrow back (by simp) hhash
      exact h.closed.end_ne_zero (mem_append_right _ (mem_singleton_self back))
    rw [heq, hend, ← hhash]
    exact h.grow hend 1
  · rw [heq]
    exact h.append_extent one_pos hash

theorem covers_end_ns_extent {extents : List NamespaceExtent} {tags : List (Option (BitVec 64))}
    (h : Covers extents tags) {name : BitVec 64} {n : Nat}
    (hends : EndsInPlace (extents ++ [⟨tags.length, 0, name⟩]) (tags.length + n)) :
    Covers (end_ns_extent (extents ++ [⟨tags.length, 0, name⟩]) (tags.length + n))
      (tags ++ replicate n (some name)) := by
  rcases Nat.eq_zero_or_pos n with rfl | hn
  · -- Nothing was added.
    rw [add_zero] at hends ⊢
    rw [replicate_zero, append_nil]
    rcases end_ns_extent_empty extents tags.length name with heq | ⟨before, prev, last, rfl, hhash, -⟩
    · rw [heq]
      exact h
    · exfalso
      have := hends (before ++ [prev]) last ⟨tags.length, 0, name⟩ (by simp)
      rw [if_pos rfl] at this
      exact this before prev rfl hhash
  · rcases end_ns_extent_of_lt extents name (Nat.lt_add_of_pos_right hn) with
      heq | ⟨before, prev, rfl, hhash, heq⟩
    · rw [heq]
      exact h.append_extent hn name
    · have htouch : prev.end_index = tags.length := by
        have := hends before prev ⟨tags.length, 0, name⟩ (by simp)
        rw [if_neg (by simp only; omega)] at this
        exact this hhash
      rw [heq, ← hhash]
      exact h.grow htouch n

variable {name : Option (BitVec 64)}

theorem Represents.push_back_none {extents : List NamespaceExtent}
    {tags : List (Option (BitVec 64))} (h : Represents extents name tags) :
    Represents extents name (tags ++ [name]) := by
  cases h with
  | closed h => exact .closed h.append_none
  | opened name n h =>
    rw [append_assoc, ← replicate_succ']
    exact .opened name (n + 1) h

theorem Represents.push_back {extents : List NamespaceExtent} {tags : List (Option (BitVec 64))}
    (h : Represents extents name tags) {hash : BitVec 64}
    (hpush : PushesInPlace extents tags.length hash) :
    Represents (push_back extents tags.length hash) (if name = some hash then name else none)
      (tags ++ [some hash]) := by
  cases h with
  | closed h =>
    rw [if_neg (by simp)]
    exact .closed (covers_push_back h hpush.1)
  | opened name n h =>
    rename_i extents tags
    by_cases hsame : name = hash
    · subst hsame
      rw [if_pos rfl, push_back_opened, append_assoc, ← replicate_succ']
      exact .opened name (n + 1) h
    · rw [if_neg (by simpa using hsame)]
      have hlen : (tags ++ replicate n (some name)).length = tags.length + n := by simp
      obtain ⟨hends, hgrow⟩ := hpush.2 ⟨tags.length, 0, name⟩ (by simp) hsame rfl
      rw [hlen] at hends hgrow
      have hended := covers_end_ns_extent h hends
      rw [hlen, push_back_opened_other h.closed (le_add_right _ _) hsame]
      apply Represents.closed
      have := @covers_push_back _ _ hended hash (by rw [hlen]; exact hgrow)
      rw [hlen] at this
      exact this

theorem Represents.truncate_to {extents : List NamespaceExtent} {tags : List (Option (BitVec 64))}
    (h : Represents extents name tags) (hi : i ≤ tags.length) (hopen : KeepsOpen extents i) :
    Represents (truncate_to extents i) name (tags.take i) := by
  cases h with
  | closed h => exact .closed (h.truncate_to hi)
  | opened name n h =>
    rename_i extents tags
    have hlt : tags.length < i := hopen ⟨tags.length, 0, name⟩ (by simp) rfl
    rw [length_append, length_replicate] at hi
    rw [truncate_to_append, if_neg (Nat.not_le.mpr hlt), if_neg (not_lt_zero i),
      take_append, take_of_length_le hlt.le, take_replicate]
    exact .opened name _ h

theorem covers_concat {extents other : List NamespaceExtent} {tags others : List (Option (BitVec 64))}
    (h : Covers extents tags) (hother : Covers other others)
    (hjoin : JoinsInPlace extents other tags.length) :
    Covers (concat extents other tags.length) (tags ++ others) := by
  refine ⟨by rw [length_append]; exact closed_concat h.closed hother.closed, fun p hash => ?_⟩
  have happend : (tags ++ others)[p]? = some (some hash) ↔
      tags[p]? = some (some hash) ∨ (tags.length ≤ p ∧ others[p - tags.length]? = some (some hash)) := by
    rcases lt_or_ge p tags.length with hlt | hge
    · rw [getElem?_append_left hlt]
      constructor
      · exact inl
      · intro hp
        rcases hp with hp | hp
        · exact hp
        · omega
    · rw [getElem?_append_right hge, getElem?_eq_none hge]
      constructor
      · intro hp
        exact inr ⟨hge, hp⟩
      · intro hp
        rcases hp with hp | hp
        · cases hp
        · exact hp.2
  rw [happend]
  rcases concat_cases extents other tags.length with
    ⟨-, heq⟩ | ⟨before, back, front, rest, rfl, rfl, hhash, heq⟩
  · rw [heq, covered_append, covered_map_shift, h.covered, hother.covered]
  · -- One extent is joined with the last one, and there is no other.
    obtain ⟨hend, hbegin, hlen⟩ := hjoin back (by simp) front rfl hhash
    have hrest : rest = [] := by
      rw [length_cons] at hlen
      exact length_eq_zero_iff.mp (by omega)
    subst hrest
    have hcovered := h.covered p hash
    have hcovered' := hother.covered (p - tags.length) hash
    rw [covered_append, covered_singleton] at hcovered
    rw [covered_singleton] at hcovered'
    rw [heq, dropLast_nil, map_nil, append_nil, covered_append, covered_singleton,
      ← hcovered, ← hcovered']
    constructor
    · intro hp
      rcases hp with hp | ⟨h1, h2, h3⟩
      · exact inl (inl hp)
      · rcases lt_or_ge p tags.length with hlt | hge
        · exact inl (inr ⟨h1, by omega, h3⟩)
        · refine inr ⟨hge, by omega, ?_, hhash ▸ h3⟩
          simp only at h2
          omega
    · intro hp
      rcases hp with (hp | ⟨h1, h2, h3⟩) | ⟨h0, h1, h2, h3⟩
      · exact inl hp
      · refine inr ⟨h1, ?_, h3⟩
        simp only
        omega
      · have hback := (closed_append_iff.mp h.closed).2
        refine inr ⟨?_, ?_, hhash.trans h3⟩
        · simp only
          omega
        · simp only
          omega

end Extents

/-! ## Groups -/

variable {V : Type}

/-- The steps that put every feature into the extent of its name. -/
def extent_condition : StepCondition V where
  step f op :=
    match op with
    | .push_back_hash _ _ hash => PushesInPlace f.namespace_extents f.size hash
    | .end_ns_extent => EndsInPlace f.namespace_extents f.size
    | .truncate_to_given i _ => i = f.size ∨ KeepsOpen f.namespace_extents i
    | .truncate_to i => i = f.size ∨ KeepsOpen f.namespace_extents i
    | _ => True
  concat f g := JoinsInPlace f.namespace_extents g.namespace_extents f.size

/-- A feature group stands for tagged features. -/
structure Features.Represents (f : Features V) (t : Tagged V) : Prop where
  values : f.values = t.features.map fun x => x.1
  indices : f.indices = t.features.map fun x => x.2.1
  extents : Extents.Represents f.namespace_extents t.opened t.tags

variable {f : Features V} {t : Tagged V}

namespace Features

theorem Represents.length_tags (h : f.Represents t) : t.tags.length = f.size := by
  unfold Tagged.tags size
  rw [h.values, length_map, length_map]

/-- Without an open extent, the extents are complete. -/
theorem Represents.covers (h : f.Represents t) (hopen : ¬ f.IsOpen) :
    t.opened = none ∧ Extents.Covers f.namespace_extents t.tags := by
  have hext := h.extents
  unfold IsOpen at hopen
  generalize f.namespace_extents = extents at hext hopen ⊢
  generalize t.opened = name at hext ⊢
  generalize t.tags = tags at hext ⊢
  cases hext with
  | closed h => exact ⟨rfl, h⟩
  | opened name n h =>
    rename_i extents tags
    exact absurd ⟨⟨tags.length, 0, name⟩, by simp, rfl⟩ hopen

theorem Represents.closed (h : f.Represents t) (hopen : ¬ f.IsOpen) : f.Closed := by
  unfold Closed
  rw [← h.length_tags]
  exact (h.covers hopen).2.closed

theorem Represents.truncate_to_given [Sub V] (h : f.Represents t) (hi : i ≤ f.size)
    (hcut : i = f.size ∨ KeepsOpen f.namespace_extents i) (sum : V) :
    (f.truncate_to_given i sum).Represents { t with features := t.features.take i } := by
  unfold Features.truncate_to_given
  by_cases heq : i = f.size
  · -- Nothing is removed.
    have htake : t.features.take i = t.features := by
      apply take_of_length_le
      rw [heq, ← h.length_tags]
      unfold Tagged.tags
      rw [length_map]
    rw [if_pos heq, htake]
    exact h
  · rw [if_neg heq]
    have hopen : KeepsOpen f.namespace_extents i := by
      rcases hcut with hcut | hcut
      · exact absurd hcut heq
      · exact hcut
    constructor
    · show f.values.take i = _
      rw [h.values, map_take]
    · show f.indices.take i = _
      rw [h.indices, map_take]
    · have htags : (Tagged.mk (t.features.take i) t.opened).tags = t.tags.take i := map_take
      rw [htags]
      exact h.extents.truncate_to (by rw [h.length_tags]; exact hi) hopen

/-- The rows of a complete group are its tagged features. -/
theorem Represents.rows (h : f.Represents t) (hopen : ¬ f.IsOpen) :
    f.rows.map (fun row => (row.1, row.2.1, Extents.to_tag row.2.2)) = t.features := by
  have hclosed := h.closed hopen
  have htags : f.rows.map (fun row => Extents.to_tag row.2.2) = t.tags := by
    calc f.rows.map (fun row => Extents.to_tag row.2.2)
        = (f.rows.map fun row => row.2.2).map Extents.to_tag := by
          rw [map_map]
          rfl
      _ = t.tags := by
          rw [map_flattened_rows hclosed, ← f.size_eq]
          show (flatten_namespace_extents f.namespace_extents f.size).map _ = _
          rw [← h.length_tags]
          exact (h.covers hopen).2.flatten
  have hsplit : ∀ l : List (TaggedFeature V),
      l = (l.map fun x => x.1).zip ((l.map fun x => x.2.1).zip (l.map fun x => x.2.2)) := by
    intro l
    rw [zip_map', zip_map']
    exact (map_id l).symm
  rw [hsplit t.features, ← h.values, ← h.indices]
  show _ = f.values.zip (f.indices.zip t.tags)
  rw [← htags, ← map_value_rows hclosed, ← map_index_rows hclosed, zip_map', zip_map']

theorem Represents.with_rows (f : Features V) (rows : List (V × FeatureIndex × (Bool × BitVec 64))) :
    (f.with_rows rows).Represents
      ⟨rows.map fun row => (row.1, row.2.1, Extents.to_tag row.2.2), none⟩ := by
  constructor
  · show rows.map _ = _
    rw [map_map]
    rfl
  · show rows.map _ = _
    rw [map_map]
    rfl
  · apply Extents.Represents.closed
    have := covers_unflatten (rows.map fun row => row.2.2)
    rw [map_map] at this
    unfold Tagged.tags
    rw [map_map]
    exact this

theorem Represents.sort (h : f.Represents t) (hopen : ¬ f.IsOpen) (p : List Nat) :
    (f.sort p).Represents { t with features := apply_permutation_in_place p t.features } := by
  obtain ⟨hnone, hcovers⟩ := h.covers hopen
  unfold Features.sort
  by_cases hempty : f.indices = []
  · have hfeatures : t.features = [] := by
      have := h.indices
      rw [hempty] at this
      exact map_eq_nil_iff.mp this.symm
    have hperm : apply_permutation_in_place p t.features = t.features := by
      rw [hfeatures]
      rfl
    rw [if_pos hempty, hperm]
    exact h
  · rw [if_neg hempty]
    constructor
    · show apply_permutation_in_place p f.values = _
      rw [h.values, apply_permutation_in_place_map]
    · show apply_permutation_in_place p f.indices = _
      rw [h.indices, apply_permutation_in_place_map]
    · have htags : (Tagged.mk (apply_permutation_in_place p t.features) t.opened).tags
          = apply_permutation_in_place p t.tags := (apply_permutation_in_place_map _ p _).symm
      rw [htags, ← hcovers.flatten, apply_permutation_in_place_map]
      rw [hnone, h.length_tags]
      show Extents.Represents (unflatten_namespace_extents (apply_permutation_in_place p
        (flatten_namespace_extents f.namespace_extents f.indices.length))) none _
      rw [← f.size_eq]
      exact .closed (covers_unflatten _)

section Apply

variable [CommRing V]

theorem Represents.unique_features (h : f.Represents t) (hopen : ¬ f.IsOpen) (max : BitVec 32) :
    (f.unique_features max).Represents
      { t with features := distinct (fun x => x.2.1) max t.features } := by
  obtain ⟨hnone, hcovers⟩ := h.covers hopen
  have hclosed := h.closed hopen
  unfold Features.unique_features
  by_cases hempty : f.indices = []
  · have hfeatures : t.features = [] := by
      have := h.indices
      rw [hempty] at this
      exact map_eq_nil_iff.mp this.symm
    have hkept : distinct (fun x : TaggedFeature V => x.2.1) max t.features = t.features := by
      rw [hfeatures]
      rfl
    rw [if_pos hempty, hkept]
    exact h
  · rw [if_neg hempty]
    obtain ⟨x, xs, hfeatures⟩ : ∃ x xs, t.features = x :: xs := by
      apply exists_cons_of_ne_nil
      intro hnil
      have := h.indices
      rw [hnil] at this
      exact hempty this
    by_cases h0 : max = 0
    · have hkept : distinct (fun x : TaggedFeature V => x.2.1) max t.features = [] := by
        rw [hfeatures, h0]
        rfl
      rw [if_pos h0, hkept, hnone]
      exact ⟨rfl, rfl, .closed covers_nil⟩
    · rw [if_neg h0]
      by_cases h1 : max = 1
      · have hkept : distinct (fun x : TaggedFeature V => x.2.1) max t.features
            = t.features.take 1 := by
          rw [hfeatures, h1]
          rfl
        have hsize : 1 ≤ f.size := by
          rw [← h.length_tags]
          unfold Tagged.tags
          rw [length_map, hfeatures, length_cons]
          exact le_add_left _ _
        rw [if_pos h1, hkept]
        apply h.truncate_to_given hsize
        right
        intro back hback hend
        exact absurd ⟨back, hback, hend⟩ hopen
      · rw [if_neg h1]
        have hrows := h.rows hopen
        have hne : f.rows ≠ [] := by
          intro hnil
          rw [hnil, hfeatures] at hrows
          cases hrows
        obtain ⟨hlast, hspec⟩ := @unique_loop_distinct _ _ _
          (fun row : V × FeatureIndex × (Bool × BitVec 64) => row.2.1) _ h0 h1 _ hne
        rw [length_rows hclosed] at hlast hspec
        set kept := distinct (fun row : V × FeatureIndex × (Bool × BitVec 64) => row.2.1) max f.rows
        have hkept : distinct (fun x : TaggedFeature V => x.2.1) max t.features
            = kept.map fun row => (row.1, row.2.1, Extents.to_tag row.2.2) := by
          rw [← hrows]
          exact distinct_map _ _ (fun _ => rfl) max f.rows
        simp only
        rw [hlast, hspec, hkept, hnone]
        -- The rows that are kept stand in front, and the others are cut off.
        have hmoved := Represents.with_rows f (kept ++ f.rows.drop kept.length)
        have hsize : kept.length ≤ (f.with_rows (kept ++ f.rows.drop kept.length)).size := by
          show _ ≤ (map _ _).length
          rw [length_map, length_append]
          exact le_add_right _ _
        have hkeeps : KeepsOpen
            (f.with_rows (kept ++ f.rows.drop kept.length)).namespace_extents kept.length := by
          intro back hback hend
          exact absurd ⟨back, hback, hend⟩ (not_isOpen_of_closed (closed_with_rows f _))
        have htake : ((kept ++ f.rows.drop kept.length).map fun row =>
            (row.1, row.2.1, Extents.to_tag row.2.2)).take kept.length
            = kept.map fun row => (row.1, row.2.1, Extents.to_tag row.2.2) := by
          rw [← map_take, take_left]
        have hcut := hmoved.truncate_to_given hsize (inr hkeeps)
        simp only [htake] at hcut
        exact hcut _

theorem Represents.apply [LT V] (h : f.Represents t) {op : Op V} (hop : op.Allowed f)
    (hc : extent_condition.step f op) : (f.apply op).Represents (t.apply op) := by
  have htags : ∀ (x : TaggedFeature V) (name : Option (BitVec 64)),
      (Tagged.mk (t.features ++ [x]) name).tags = t.tags ++ [x.2.2] := fun _ _ => map_append
  cases op with
  | push_back v i =>
    refine ⟨?_, ?_, ?_⟩
    · show f.values ++ [v] = _
      rw [h.values, Tagged.apply, map_append]
      rfl
    · show f.indices ++ [i] = _
      rw [h.indices, Tagged.apply, map_append]
      rfl
    · rw [Tagged.apply, htags]
      exact h.extents.push_back_none
  | push_back_hash v i hash =>
    refine ⟨?_, ?_, ?_⟩
    · show f.values ++ [v] = _
      rw [h.values, Tagged.apply, map_append]
      rfl
    · show f.indices ++ [i] = _
      rw [h.indices, Tagged.apply, map_append]
      rfl
    · rw [Tagged.apply, htags]
      show Extents.Represents (Extents.push_back f.namespace_extents f.indices.length hash) _ _
      rw [← f.size_eq]
      show Extents.Represents (Extents.push_back f.namespace_extents f.size hash) _ _
      rw [← h.length_tags]
      exact h.extents.push_back (by rw [h.length_tags]; exact hc)
  | start_ns_extent hash =>
    obtain ⟨-, hcovers⟩ := h.covers hop
    refine ⟨h.values, h.indices, ?_⟩
    show Extents.Represents (f.namespace_extents ++ [⟨f.indices.length, 0, hash⟩]) (some hash) t.tags
    rw [← f.size_eq]
    show Extents.Represents (f.namespace_extents ++ [⟨f.size, 0, hash⟩]) (some hash) t.tags
    rw [← h.length_tags]
    have := Represents.opened hash 0 hcovers
    rw [replicate_zero, append_nil] at this
    exact this
  | end_ns_extent =>
    refine ⟨h.values, h.indices, ?_⟩
    show Extents.Represents (Extents.end_ns_extent f.namespace_extents f.indices.length) none t.tags
    rw [← f.size_eq]
    show Extents.Represents (Extents.end_ns_extent f.namespace_extents f.size) none t.tags
    have hends : EndsInPlace f.namespace_extents f.size := hc
    rw [← h.length_tags] at hends ⊢
    obtain ⟨back, hback, hzero⟩ := hop
    have hext := h.extents
    generalize f.namespace_extents = extents at hext hends hback ⊢
    generalize t.opened = name at hext
    generalize t.tags = tags at hext hends ⊢
    cases hext with
    | closed hcovers =>
      exact absurd hzero (hcovers.closed.end_ne_zero (mem_of_getLast? hback))
    | opened name n hcovers =>
      rw [length_append, length_replicate] at hends ⊢
      exact .closed (covers_end_ns_extent hcovers hends)
  | truncate_to_given i sum => exact h.truncate_to_given hop.1 hc sum
  | truncate_to i => exact h.truncate_to_given hop hc _
  | sort parse_mask p => exact h.sort hop.1 p
  | unique_features max => exact h.unique_features hop max
  | clear => exact ⟨rfl, rfl, .closed covers_nil⟩

end Apply

end Features

/-! ## Runs -/

theorem Reaches.represents [CommRing V] [LT V] (h : Reaches extent_condition f t) :
    f.Represents t := by
  induction h with
  | empty => exact ⟨rfl, rfl, .closed covers_nil⟩
  | step op _ hop hc ih => exact ih.apply hop hc
  | @concat f g t u _ _ hf hg hc ihf ihg =>
    obtain ⟨hnone, hcovers⟩ := ihf.covers hf
    obtain ⟨-, hcovers'⟩ := ihg.covers hg
    refine ⟨?_, ?_, ?_⟩
    · show f.values ++ g.values = _
      rw [ihf.values, ihg.values, Tagged.concat, map_append]
    · show f.indices ++ g.indices = _
      rw [ihf.indices, ihg.indices, Tagged.concat, map_append]
    · have htags : (t.concat u).tags = t.tags ++ u.tags := map_append
      show Extents.Represents (Extents.concat f.namespace_extents g.namespace_extents
        f.indices.length) t.opened _
      rw [htags, hnone, ← f.size_eq]
      show Extents.Represents (Extents.concat f.namespace_extents g.namespace_extents f.size) none _
      have hjoin : JoinsInPlace f.namespace_extents g.namespace_extents f.size := hc
      rw [← ihf.length_tags] at hjoin ⊢
      exact .closed (covers_concat hcovers hcovers' hjoin)

/-- What the extents of a complete group are for. -/
structure Features.ExtentsExact (f : Features V) (t : Tagged V) : Prop where
  features : f.items = t.features.map fun x => (x.1, x.2.1)
  ordered : f.namespace_extents.Pairwise fun e₁ e₂ => e₁.end_index ≤ e₂.begin_index
  bounds : ∀ e ∈ f.namespace_extents, e.begin_index < e.end_index ∧ e.end_index ≤ f.size
  tagged : ∀ p hash,
    (∃ e ∈ f.namespace_extents, e.begin_index ≤ p ∧ p < e.end_index ∧ e.hash = hash) ↔
      t.tags[p]? = some (some hash)

/-- In every state that steps within the condition reach, and in which no extent
    is open, a feature is in an extent exactly if it was added under its hash. -/
theorem reaches_extents_exact [CommRing V] [LT V] {f : Features V} {t : Tagged V}
    (h : Reaches extent_condition f t) (hopen : ¬ f.IsOpen) : f.ExtentsExact t := by
  have hrep := h.represents
  obtain ⟨-, hcovers⟩ := hrep.covers hopen
  refine ⟨?_, hcovers.closed.ordered, ?_, hcovers.covered⟩
  · unfold Features.items
    rw [hrep.values, hrep.indices, zip_map']
  · rw [← hrep.length_tags]
    exact hcovers.closed.bounds

/-- A feature in an extent, and one behind it. -/
theorem reaches_extents_exact_pair :
    ((((Features.empty (V := Int)).start_ns_extent 5).push_back 1 7).end_ns_extent.push_back 2 8).ExtentsExact
      ⟨[(1, 7, some 5), (2, 8, none)], none⟩ := by
  have hends : EndsInPlace [⟨0, 0, 5⟩] 1 := by
    intro before prev back heq
    have := congrArg length heq
    simp at this
  have hrun : Reaches (V := Int) extent_condition
      ((((Features.empty.apply (.start_ns_extent 5)).apply (.push_back 1 7)).apply
        .end_ns_extent).apply (.push_back 2 8)) ⟨[(1, 7, some 5), (2, 8, none)], none⟩ :=
    .step (.push_back 2 8) (.step .end_ns_extent (.step (.push_back 1 7) (.step (.start_ns_extent 5)
      .empty (by intro h; obtain ⟨back, hback, -⟩ := h; cases hback) trivial) trivial trivial)
      ⟨⟨0, 0, 5⟩, rfl, rfl⟩ hends) trivial trivial
  apply reaches_extents_exact hrun
  intro h
  obtain ⟨back, hback, hend⟩ := h
  cases hback
  exact absurd hend (by decide)

/-- A feature is added under a hash, one without, and one more under the hash:
    the extent then holds the second feature and not the third. -/
theorem push_back_mixes_extents :
    ¬ ∀ (f : Features Int) (t : Tagged Int), Reaches .any f t → ¬ f.IsOpen → f.ExtentsExact t := by
  intro hall
  have hrun : Reaches (V := Int) .any
      (((Features.empty.apply (.push_back_hash 1 7 5)).apply (.push_back 1 8)).apply
        (.push_back_hash 1 9 5)) ⟨[(1, 7, some 5), (1, 8, none), (1, 9, some 5)], none⟩ :=
    .step (.push_back_hash 1 9 5) (.step (.push_back 1 8) (.step (.push_back_hash 1 7 5) .empty
      trivial trivial) trivial trivial) trivial trivial
  have hexact := hall _ _ hrun (by
    intro h
    obtain ⟨back, hback, hend⟩ := h
    cases hback
    exact absurd hend (by decide))
  have hsecond := (hexact.tagged 1 5).mp ⟨⟨0, 2, 5⟩, by decide, by decide, by decide, rfl⟩
  exact absurd hsecond (by decide)

end VW
