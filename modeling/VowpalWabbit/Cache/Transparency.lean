import VowpalWabbit.Cache.RoundTrip

/-! # When the cache is transparent

    Training from the cache in later passes should see the examples of the
    first pass. `Indistinguishable` says so, and the main theorem gives the
    exact condition. The extents of a namespace are what breaks it in
    practice: nothing writes them.
-/

open Cpp Outcome.Returns

namespace VW.Cache

open List

variable {L R : Type} {A : Allocator} {b : IoBuf}

/-! ## Reading back the parts -/

variable {rest : List Byte}

theorem read_cached_tag_returns (hb : b.Wf A) {tag : List Byte} (tag₀ : List Byte)
    (hstream : b.stream = cache_tag tag ++ rest) (hmem : A.Provides (2 * (8 + tag.length))) :
    Outcome.Returns (read_cached_tag A tag₀ b) fun r =>
      r.1 = tag.length + 8 ∧ r.2.1 = tag ∧ r.2.2.Wf A ∧ r.2.2.stream = rest := by
  have hlt := hmem.lt
  rw [cache_tag, append_assoc] at hstream
  have hlen : 8 ≤ b.stream.length := by
    rw [hstream, length_append, length_le_bytes]
    omega
  apply (IoBuf.read_value_returns hb "tag size" (hmem.mono (by omega)) hlen).bind
  intro (tag_size, b₁) ⟨hsize, hleaves⟩
  simp only at hsize hleaves
  rw [hstream, of_le_bytes_take_word (by omega)] at hsize
  rw [hstream, drop_left' (length_le_bytes 8 _)] at hleaves
  subst hsize
  apply (IoBuf.buf_read_returns hleaves.wf (hmem.mono (by omega) : A.Provides (2 * tag.length))).bind
  intro (ptr, count, b₂) (hd : IoBuf.Delivers A b₁ ptr count b₂ _ _)
  rw [hleaves.stream_eq, take_left, drop_left] at hd
  have hcount := hd.count_eq
  simp only
  rw [if_neg (by omega), load_bytes_complete hd.holds]
  exact ok ⟨Nat.mod_eq_of_lt (by omega), rfl, hd.wf, hd.stream_eq⟩

theorem read_byte_returns (hb : b.Wf A) {c : Byte} (debug_name : String)
    (hstream : b.stream = c :: rest) (hmem : A.Provides 2) :
    Outcome.Returns (b.read_value A 1 debug_name) fun r =>
      BitVec.ofNat 8 r.1 = c ∧ r.1 = c.toNat ∧ r.2.Wf A ∧ r.2.stream = rest := by
  have hlen : 1 ≤ b.stream.length := by
    rw [hstream, length_cons]
    omega
  apply (IoBuf.read_value_returns hb debug_name hmem hlen).mono
  intro (v, b₁) ⟨hv, hleaves⟩
  simp only at hv hleaves
  have hv' : v = c.toNat := by
    rw [hv, hstream]
    simp [of_le_bytes]
  refine ⟨?_, hv', hleaves.wf, ?_⟩
  · show BitVec.ofNat 8 v = c
    rw [hv', BitVec.ofNat_toNat, BitVec.setWidth_eq]
  · rw [hleaves.stream_eq, hstream]
    rfl

theorem read_cached_index_returns (hb : b.Wf A) {index : Byte}
    (hstream : b.stream = index :: rest) (hmem : A.Provides 2) :
    Outcome.Returns (read_cached_index A b) fun r =>
      r.1 = index ∧ r.2.Wf A ∧ r.2.stream = rest := by
  apply (read_byte_returns hb "index" hstream hmem).bind
  intro (v, b₁) ⟨hv, _, hwf, hrest⟩
  exact ok ⟨hv, hwf, hrest⟩

/-- A namespace as it is written. -/
def namespace_bytes (feature_space : Byte → Features Single) (mask : BitVec 64) (index : Byte) :
    List Byte :=
  index :: (le_bytes 8 (cache_features_loop mask 0 (feature_space index).items).length ++
    cache_features_loop mask 0 (feature_space index).items)

/-- The namespace that these bytes stand for. -/
def cached (feature_space : Byte → Features Single) (mask : BitVec 64) (index : Byte) :
    CachedNamespace :=
  (index, coded mask 0 (feature_space index).items)

theorem cache_namespaces_eq {feature_space : Byte → Features Single} (mask : BitVec 64)
    {indices : List Byte} (hfits : ∀ index ∈ indices, (feature_space index).Fits) :
    cache_namespaces feature_space mask indices
      = .ok (indices.flatMap (namespace_bytes feature_space mask)) := by
  induction indices with
  | nil => rfl
  | cons index indices ih =>
    have hhere := (cache_features_eq _ (hfits index (mem_cons_self)) mask).2
    have hrest := ih (fun i hi => hfits i (mem_cons_of_mem _ hi))
    rw [cache_namespaces, hhere, hrest]
    rfl

theorem read_namespaces_returns (feature_space : Byte → Features Single) (mask : BitVec 64) :
    ∀ (indices : List Byte) (total : Nat) (ex : Example L R) (b : IoBuf) (rest : List Byte),
      b.Wf A → b.stream = indices.flatMap (namespace_bytes feature_space mask) ++ rest →
      A.Provides (2 * (indices.flatMap (namespace_bytes feature_space mask)).length) →
      Outcome.Returns (read_namespaces A indices.length total ex b) fun r =>
        r.2.1 = (indices.map (cached feature_space mask)).foldl add_namespace ex ∧
        r.2.2.Wf A ∧ r.2.2.stream = rest := by
  intro indices
  induction indices with
  | nil =>
    intro total ex b rest hb hstream _
    exact ok ⟨rfl, hb, hstream⟩
  | cons index indices ih =>
    intro total ex b rest hb hstream hmem
    rw [flatMap_cons, length_append, namespace_bytes, length_cons,
      length_append, length_le_bytes] at hmem
    rw [flatMap_cons, namespace_bytes, cons_append, cons_append, append_assoc]
      at hstream
    apply (read_cached_index_returns hb hstream (hmem.mono (by omega))).bind
    intro (i, b₁) ⟨hi, hwf₁, hstream₁⟩
    simp only at hi hwf₁ hstream₁
    subst hi
    have hblock := read_cached_features_coded hwf₁ (ex.feature_space i)
      (cache_features_loop_code mask 0 (feature_space i).items) hstream₁ (hmem.mono (by omega))
    apply hblock.bind
    intro (size, sorted, feats, b₂) ⟨_, hsorted, hfeats, hleaves⟩
    simp only at hsorted hfeats hleaves
    subst hsorted
    subst hfeats
    exact ih _ _ _ _ hleaves.wf hleaves.stream_eq (hmem.mono (by omega))

/-! ## Reading back an example -/

/-- The cache functions of the label type are inverse to each other: what
    `cache_label` writes is read as the same label and reduction features, and
    nothing behind it is touched. -/
def LabelRoundTrips (lbl : LabelParser L R) (ex ex₀ : Example L R) : Prop :=
  ∀ (A : Allocator) (b : IoBuf) (rest : List Byte), b.Wf A →
    b.stream = lbl.cache_label ex.l ex.ex_reduction_features ++ rest →
    A.Provides (2 * (lbl.cache_label ex.l ex.ex_reduction_features).length) →
    Outcome.Returns
      (lbl.read_cached_label (lbl.default_label ex₀.l) ex₀.ex_reduction_features b)
      fun r => r.1 ≠ 0 ∧ r.2.1 = ex.l ∧ r.2.2.1 = ex.ex_reduction_features ∧
        r.2.2.2.Wf A ∧ r.2.2.2.stream = rest

/-- The bytes of a whole example. -/
theorem write_example_to_cache_eq (lbl : LabelParser L R) (mask : BitVec 64)
    {ex : Example L R} (hfits : ∀ index ∈ ex.indices, (ex.feature_space index).Fits) :
    write_example_to_cache lbl mask ex
      = .ok (le_bytes 8 (cache_head lbl ex ++
            ex.indices.flatMap (namespace_bytes ex.feature_space mask)).length ++
          (cache_head lbl ex ++
            ex.indices.flatMap (namespace_bytes ex.feature_space mask))) := by
  rw [write_example_to_cache, cache_namespaces_eq mask hfits]
  rfl

/-- The reader returns the example with the namespaces whose number fits in a byte. -/
theorem read_example_from_cache_returns (lbl : LabelParser L R) (mask : BitVec 64)
    {ex ex₀ : Example L R} (hlabel : LabelRoundTrips lbl ex ex₀) (hb : b.Wf A) {size : Nat}
    (hstream : b.stream = le_bytes 8 size ++ (cache_head lbl ex ++
      ex.indices.flatMap (namespace_bytes ex.feature_space mask)) ++ rest)
    (hmem : A.Provides (2 * (8 + (cache_head lbl ex ++
      ex.indices.flatMap (namespace_bytes ex.feature_space mask)).length))) :
    Outcome.Returns (read_example_from_cache A lbl ex₀ b) fun r =>
      r.2.1 = ((ex.indices.take (ex.indices.length % 256)).map
          (cached ex.feature_space mask)).foldl add_namespace
        { ex₀ with l := ex.l
                   ex_reduction_features := ex.ex_reduction_features
                   tag := ex.tag
                   is_newline := ex.is_newline } ∧
      (ex.indices.length < 256 → r.2.2.stream = rest) := by
  -- What is read of the namespaces, and what is left when their number wrapped.
  have hsplit : ex.indices.flatMap (namespace_bytes ex.feature_space mask)
      = (ex.indices.take (ex.indices.length % 256)).flatMap (namespace_bytes ex.feature_space mask)
        ++ (ex.indices.drop (ex.indices.length % 256)).flatMap
          (namespace_bytes ex.feature_space mask) := by
    rw [← flatMap_append, take_append_drop]
  have hlen : (cache_head lbl ex).length
      = (lbl.cache_label ex.l ex.ex_reduction_features).length + (8 + ex.tag.length) + 2 := by
    simp only [cache_head, cache_tag, length_append, length_le_bytes, length_singleton]
  rw [length_append, hlen, hsplit, length_append] at hmem
  apply (IoBuf.buf_read_returns hb (hmem.mono (by omega) : A.Provides (2 * 8))).bind
  intro (ptr, count, b₁) (hd : IoBuf.Delivers A b ptr count b₁ _ _)
  rw [hstream, append_assoc, take_left' (length_le_bytes 8 _),
    drop_left' (length_le_bytes 8 _)] at hd
  have hcount : count = 8 := by rw [hd.count_eq, length_le_bytes]
  simp only
  rw [if_neg (by omega)]
  have hs₁ := hd.stream_eq
  simp only [cache_head, append_assoc, singleton_append] at hs₁
  apply (hlabel A b₁ _ hd.wf hs₁ (hmem.mono (by omega))).bind
  intro (total, l, red, b₂) ⟨htotal, hl, hred, hwf₂, hs₂⟩
  simp only at htotal hl hred hwf₂ hs₂
  subst hl hred
  simp only
  rw [if_neg htotal]
  apply (read_cached_tag_returns hwf₂ ex₀.tag hs₂ (hmem.mono (by omega))).bind
  intro (tag_size, tag, b₃) ⟨htag, htag', hwf₃, hs₃⟩
  simp only at htag htag' hwf₃ hs₃
  subst htag'
  simp only
  rw [if_neg (by omega)]
  apply (read_byte_returns hwf₃ "newline_indicator" hs₃ (hmem.mono (by omega))).bind
  intro (newline, b₄) ⟨hnewline, _, hwf₄, hs₄⟩
  simp only at hnewline hwf₄ hs₄
  apply (read_byte_returns hwf₄ "num_indices" hs₄ (hmem.mono (by omega))).bind
  intro (num_indices, b₅) ⟨_, hnum, hwf₅, hs₅⟩
  simp only at hnum hwf₅ hs₅
  rw [BitVec.toNat_ofNat] at hnum
  have hn : num_indices = (ex.indices.take (ex.indices.length % 256)).length := by
    rw [hnum, length_take]
    have := Nat.mod_le ex.indices.length 256
    omega
  subst hn
  have hflag : (BitVec.ofNat 8 newline == NEWLINE_EXAMPLE_INDICATOR) = ex.is_newline := by
    rw [hnewline]
    cases ex.is_newline with
    | true => rfl
    | false => rfl
  rw [hsplit, append_assoc] at hs₅
  rw [hflag]
  apply (read_namespaces_returns ex.feature_space mask _ _ _ b₅ _ hwf₅ hs₅
    (hmem.mono (by omega))).bind
  intro (total', ex', b₆) ⟨hex, _, hs₆⟩
  simp only at hex hs₆
  refine ok ⟨hex, ?_⟩
  intro hlt
  simp only
  rw [hs₆, Nat.mod_eq_of_lt hlt, drop_length]
  rfl

/-! ## Indistinguishable examples -/

/-- The two examples give the learner the same features, those of the second
    one with their indices masked. -/
structure Indistinguishable (mask : BitVec 64) (ex ex' : Example L R) : Prop where
  l : ex'.l = ex.l
  ex_reduction_features : ex'.ex_reduction_features = ex.ex_reduction_features
  tag : ex'.tag = ex.tag
  is_newline : ex'.is_newline = ex.is_newline
  indices : ex'.indices = ex.indices
  values : ∀ index ∈ ex.indices,
    (ex'.feature_space index).values = (ex.feature_space index).values
  feature_indices : ∀ index ∈ ex.indices,
    (ex'.feature_space index).indices = (ex.feature_space index).indices.map (· &&& mask)
  extents : ∀ index ∈ ex.indices,
    (ex'.feature_space index).namespace_extents = (ex.feature_space index).namespace_extents

/-- What the cache can carry. -/
structure Cacheable (mask : BitVec 64) (ex : Example L R) : Prop where
  /-- Their number is written as one byte. -/
  few_namespaces : ex.indices.length < 256
  no_extents : ∀ index ∈ ex.indices, (ex.feature_space index).namespace_extents = []
  /-- A namespace that is listed twice is written, and read, twice. -/
  listed_once : ∀ index ∈ ex.indices, 1 < ex.indices.count index →
    (ex.feature_space index).values = []
  deltas_fit : ∀ index ∈ ex.indices, ∀ d ∈ deltas mask 0 (ex.feature_space index).indices,
    DeltaFits d

theorem features_of_cached (feature_space : Byte → Features Single) (mask : BitVec 64)
    (indices : List Byte) (index : Byte) :
    features_of (indices.map (cached feature_space mask)) index
      = (replicate (indices.count index)
          (undelta 0 (coded mask 0 (feature_space index).items))).flatten := by
  induction indices with
  | nil => rfl
  | cons i indices ih =>
    unfold features_of at ih ⊢
    by_cases h : i = index
    · subst h
      simp only [map_cons, cached, filter_cons, decide_true, if_true, flatMap_cons,
        count_cons_self, replicate_succ, flatten_cons]
      exact congrArg _ ih
    · rw [count_cons_of_ne h]
      simp only [map_cons, cached, filter_cons, h, decide_false]
      exact ih

/-- Copies of a list make up the list itself only if there is one, or it is empty. -/
theorem flatten_replicate_eq_self {α : Type} {k : Nat} (hk : 0 < k) (xs : List α) :
    (replicate k xs).flatten = xs ↔ (1 < k → xs = []) := by
  obtain ⟨k, rfl⟩ := Nat.exists_eq_succ_of_ne_zero (Nat.pos_iff_ne_zero.mp hk)
  rw [replicate_succ, flatten_cons]
  constructor
  · intro h hk1
    have hnil := append_right_eq_self.mp h
    obtain ⟨k, rfl⟩ := Nat.exists_eq_succ_of_ne_zero (by omega : k ≠ 0)
    rw [replicate_succ, flatten_cons] at hnil
    exact (append_eq_nil_iff.mp hnil).1
  · intro h
    by_cases hk1 : 1 < k + 1
    · rw [h hk1]
      simp
    · have hk0 : k = 0 := by omega
      subst hk0
      simp

/-- One namespace, written and read `k` times: the values and the indices
    are those of the original under the conditions of `Cacheable`. -/
theorem features_round_trip_iff (feats : Features Single) (mask : BitVec 64) {k : Nat}
    (hk : 0 < k) :
    ((replicate k (undelta 0 (coded mask 0 feats.items))).flatten.map Prod.fst = feats.values ∧
      (replicate k (undelta 0 (coded mask 0 feats.items))).flatten.map Prod.snd
        = feats.indices.map (· &&& mask)) ↔
    (1 < k → feats.values = []) ∧ ∀ d ∈ deltas mask 0 feats.indices, DeltaFits d := by
  have hfst : (undelta 0 (coded mask 0 feats.items)).map Prod.fst = feats.values := by
    rw [map_fst_undelta, map_fst_coded, feats.map_fst_items]
  have hsnd : (undelta 0 (coded mask 0 feats.items)).map Prod.snd = feats.indices.map (· &&& mask) ↔
      ∀ d ∈ deltas mask 0 feats.indices, DeltaFits d := by
    rw [← feats.map_snd_items, map_map]
    exact undelta_coded_iff mask 0 feats.items
  rw [map_flatten, map_flatten, map_replicate, map_replicate, hfst,
    flatten_replicate_eq_self hk]
  apply and_congr_right
  intro honce
  by_cases hk1 : 1 < k
  · -- Listed twice, so there is nothing in it.
    have hindices : feats.indices = [] := by
      rw [← length_eq_zero_iff, ← feats.size_eq, honce hk1]
      rfl
    have hitems : feats.items = [] := by
      rw [Features.items, hindices, zip_nil_right]
    rw [hindices, hitems]
    simp [coded, undelta, deltas]
  · have hk0 : k = 1 := by omega
    rw [hk0, replicate_one, flatten_singleton]
    exact hsnd

/-- What `write_example_to_cache` writes is read without an error, and gives
    an example that the learner cannot tell from the one that was written
    exactly when that one is `Cacheable`. -/
theorem cache_transparent_iff (lbl : LabelParser L R) (mask : BitVec 64)
    (ex ex₀ : Example L R) (hfits : ∀ index ∈ ex.indices, (ex.feature_space index).Fits)
    (hlabel : LabelRoundTrips lbl ex ex₀) (hclear : Cleared ex₀) :
    ∃ bytes, write_example_to_cache lbl mask ex = .ok bytes ∧
      ∀ (A : Allocator) (b : IoBuf) (rest : List Byte), b.Wf A → b.stream = bytes ++ rest →
        A.Provides (2 * bytes.length) →
        Outcome.Returns (read_example_from_cache A lbl ex₀ b) fun r =>
          (Indistinguishable mask ex r.2.1 ↔ Cacheable mask ex) ∧
          (Cacheable mask ex → r.2.2.stream = rest) := by
  refine ⟨_, write_example_to_cache_eq lbl mask hfits, ?_⟩
  intro A b rest hb hstream hmem
  rw [length_append, length_le_bytes] at hmem
  apply (read_example_from_cache_returns lbl mask hlabel hb hstream hmem).mono
  intro (n, ex', b') ⟨hex, hrest⟩
  simp only at hex hrest ⊢
  obtain ⟨hl, hred, htag, hnewline⟩ := rest_add_namespaces
    ((ex.indices.take (ex.indices.length % 256)).map (cached ex.feature_space mask))
    { ex₀ with l := ex.l
               ex_reduction_features := ex.ex_reduction_features
               tag := ex.tag
               is_newline := ex.is_newline }
  rw [← hex] at hl hred htag hnewline
  have hindices : ex'.indices = ex.indices.take (ex.indices.length % 256) := by
    rw [hex, indices_add_namespaces, hclear.indices, nil_append, map_map]
    exact map_id _
  have hspace : ∀ index, ex'.feature_space index = (ex₀.feature_space index).push_all
      (features_of ((ex.indices.take (ex.indices.length % 256)).map
        (cached ex.feature_space mask)) index) := by
    intro index
    rw [hex, feature_space_add_namespaces]
  -- Once all the namespaces are read, each of them is as often in the cache as it is listed.
  have hfeats : ex.indices.length < 256 → ∀ index ∈ ex.indices,
      ((ex'.feature_space index).values = (ex.feature_space index).values ∧
        (ex'.feature_space index).indices = (ex.feature_space index).indices.map (· &&& mask)) ↔
      (1 < ex.indices.count index → (ex.feature_space index).values = []) ∧
        ∀ d ∈ deltas mask 0 (ex.feature_space index).indices, DeltaFits d := by
    intro hlt index hindex
    rw [hspace, Nat.mod_eq_of_lt hlt, take_length, features_of_cached,
      Features.push_all_values, Features.push_all_indices, hclear.values, hclear.feature_indices,
      nil_append, nil_append]
    exact features_round_trip_iff _ mask (count_pos_iff.mpr hindex)
  have hextents : ∀ index, (ex'.feature_space index).namespace_extents = [] := by
    intro index
    rw [hspace, Features.push_all_namespace_extents, hclear.extents]
  constructor
  · constructor
    · intro h
      have hlt : ex.indices.length < 256 := by
        have hlen := congrArg length (hindices.symm.trans h.indices)
        rw [length_take] at hlen
        have := Nat.mod_lt ex.indices.length (by decide : 256 > 0)
        omega
      have hboth := fun index hindex =>
        (hfeats hlt index hindex).mp ⟨h.values index hindex, h.feature_indices index hindex⟩
      exact {
        few_namespaces := hlt
        no_extents := fun index hindex => (h.extents index hindex).symm.trans (hextents index)
        listed_once := fun index hindex => (hboth index hindex).1
        deltas_fit := fun index hindex => (hboth index hindex).2 }
    · intro h
      have hboth := fun index hindex => (hfeats h.few_namespaces index hindex).mpr
        ⟨h.listed_once index hindex, h.deltas_fit index hindex⟩
      exact {
        l := hl
        ex_reduction_features := hred
        tag := htag
        is_newline := hnewline
        indices := by
          rw [hindices, Nat.mod_eq_of_lt h.few_namespaces, take_length]
        values := fun index hindex => (hboth index hindex).1
        feature_indices := fun index hindex => (hboth index hindex).2
        extents := fun index hindex => (hextents index).trans (h.no_extents index hindex).symm }
  · intro h
    exact hrest h.few_namespaces

theorem no_label_round_trips (ex ex₀ : Example Unit Unit) :
    LabelRoundTrips no_label_parser_global ex ex₀ := by
  intro A b rest hb hstream _
  exact ok ⟨Nat.one_ne_zero, rfl, rfl, hb, hstream⟩

theorem one_feature_size_eq : [Single.one].length = [(7 : FeatureIndex)].length := rfl

/-- Namespace `a` with the feature `7:1`, all of it in the given extents. -/
def one_feature (extents : List NamespaceExtent) : Example Unit Unit :=
  { blank with
    tag := [116]
    indices := [97]
    feature_space := fun _ => ⟨[Single.one], [7], extents, 0, one_feature_size_eq⟩ }

theorem one_feature_fits (extents : List NamespaceExtent) :
    ∀ index ∈ (one_feature extents).indices, ((one_feature extents).feature_space index).Fits := by
  intro index _
  show 8 * 1 < 2 ^ 63
  decide

/-- `write_example_to_cache` of `one_feature`, whatever its extents are. -/
def one_feature_bytes : List Byte :=
  le_bytes 8 21 ++ le_bytes 8 1 ++ [116, 0x30, 1] ++ (97 :: le_bytes 8 1 ++ [56])

/-- An example with one feature and no extents. -/
theorem cache_transparent_iff_one_feature :
    ∃ bytes, write_example_to_cache no_label_parser_global 0x3ffff (one_feature []) = .ok bytes ∧
      ∀ b : IoBuf, b.Wf flat_memory → b.stream = bytes → bytes.length ≤ 29 →
        Outcome.Returns (read_example_from_cache flat_memory no_label_parser_global blank b)
          fun r => Indistinguishable 0x3ffff (one_feature []) r.2.1 := by
  obtain ⟨bytes, hwrite, hread⟩ := cache_transparent_iff no_label_parser_global 0x3ffff
    (one_feature []) blank (one_feature_fits []) (no_label_round_trips _ _) blank_cleared
  refine ⟨bytes, hwrite, ?_⟩
  intro b hb hstream hlen
  apply (hread flat_memory b [] hb (by rw [hstream, append_nil])
    (flat_memory_provides (by omega))).mono
  intro r ⟨hiff, _⟩
  refine hiff.mpr ⟨by decide, fun _ _ => rfl, ?_, ?_⟩
  · intro index hindex hcount
    rw [mem_singleton.mp hindex] at hcount
    exact absurd hcount (by decide)
  · intro index _ d hd
    rw [mem_singleton.mp hd]
    exact ⟨by decide, by decide⟩

/-- The feature is in an extent of hash `42` when it is written, and in none
    when it is read back. -/
theorem extents_lost_in_cache :
    write_example_to_cache no_label_parser_global 0x3ffff (one_feature [⟨0, 1, 42⟩])
      = .ok one_feature_bytes ∧
    ∃ r, read_example_from_cache flat_memory no_label_parser_global blank
        (loaded one_feature_bytes) = .ok r ∧
      (r.2.1.feature_space 97).indices = [7] ∧
      (r.2.1.feature_space 97).namespace_extents = [] ∧
      ¬ Indistinguishable 0x3ffff (one_feature [⟨0, 1, 42⟩]) r.2.1 := by
  have hread : ∃ r, read_example_from_cache flat_memory no_label_parser_global blank
        (loaded one_feature_bytes) = .ok r ∧
      (r.2.1.feature_space 97).indices = [7] ∧
      (r.2.1.feature_space 97).namespace_extents = [] := ⟨_, rfl, rfl, rfl⟩
  obtain ⟨r, hr, hindices, hextents⟩ := hread
  refine ⟨by decide, r, hr, hindices, hextents, ?_⟩
  intro h
  have := h.extents 97 (mem_singleton_self 97)
  rw [hextents] at this
  cases this

end VW.Cache
