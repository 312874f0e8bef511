import VowpalWabbit.Cache.Encoding
import VowpalWabbit.IoBuf.Runs
import VowpalWabbit.Validate

/-! # Feature blocks in a cache file

    The block that `cache_features` writes is read back from any buffer that
    has it next in its stream. For arbitrary bytes, the decoder stays inside
    the block it is given exactly when the block is a sequence of whole
    features and its size does not make the address arithmetic wrap.
-/

open Cpp Varint

namespace VW

open List Features

namespace IoBuf

/-- A read that the loaded bytes can serve. -/
theorem buf_read_loaded {A : Allocator} {b : IoBuf} {n : Nat}
    (h : ptr_add b.head n ≤ b.buffer.end_) :
    b.buf_read A n TEXT = .ok (b.head, n, { b with head := ptr_add b.head n }) := by
  have haligned : TEXT.is_aligned b.head = true := by
    simp [DesiredAlign.is_aligned, TEXT, Nat.mod_one]
  rw [buf_read, buf_read_loop, if_pos h, if_pos haligned]

end IoBuf

namespace Cache

/-! ## Views of the buffer -/

variable {buffer : InternalBuffer} {bs : List Byte} {ptr : Nat}

/-- The decoder sees the block in either view. -/
theorem whole_buffer_holds (h : Holds buffer.load ptr bs) :
    Holds (whole_buffer buffer ptr bs.length) ptr bs := h

theorem block_only_holds (h : Holds buffer.load ptr bs) :
    Holds (block_only buffer ptr bs.length) ptr bs := by
  intro i hi
  rw [block_only, if_pos ⟨Nat.le_add_right _ _, Nat.add_lt_add_left hi ptr⟩]
  exact h i hi

/-- What the decoder can see in the block-only view lies in the block. -/
theorem holds_of_block_only {n : Nat} (h : Holds (block_only buffer ptr n) ptr bs) :
    bs.length ≤ n ∧ Holds buffer.load ptr bs := by
  have hin : ∀ i (hi : i < bs.length), i < n ∧ buffer.load (ptr + i) = .ok bs[i] := by
    intro i hi
    have hload := h i hi
    rw [block_only] at hload
    split at hload
    · exact ⟨by omega, hload⟩
    · cases hload
  constructor
  · by_contra hlt
    have := (hin n (by omega)).1
    omega
  · intro i hi
    exact (hin i hi).2

theorem of_le_bytes_take_word {w : Nat} (hw : w < 2 ^ 64) (s : List Byte) :
    of_le_bytes ((le_bytes 8 w ++ s).take 8) = w := by
  rw [take_left' (length_le_bytes 8 w)]
  exact of_le_bytes_le_bytes 8 w hw

/-! ## Reading a coded block -/

variable {A : Allocator} {b : IoBuf}

/-- `read_cached_features` after its two reads have got all they asked for. -/
theorem read_cached_features_via_eq (view : View) (feats : Features Single) {w : Nat}
    {b₁ b₂ : IoBuf} (hword : b.read_value A 8 "feature count" = .ok (w, b₁))
    (hblock : b₁.buf_read A w TEXT = .ok (ptr, w, b₂)) :
    read_cached_features_via view A feats b = (do
      let (read_head, sorted, feats) ←
        read_cached_features_loop (view b₂.buffer ptr w) (ptr_add ptr w) w ptr 0 true feats
      return ((8 + w) % 2 ^ 64, sorted, feats, b₂.set read_head)) := by
  rw [read_cached_features_via, hword]
  simp only [Outcome.ok_bind, hblock]
  rw [if_neg (lt_irrefl w)]

variable {fs : List (Single × BitVec 64)}

/-- The decoder on a coded block, once the block has been delivered. -/
theorem read_cached_features_via_coded {view : View}
    (hview : ∀ {buffer : InternalBuffer} {ptr : Nat} {bs : List Byte},
      Holds buffer.load ptr bs → Holds (view buffer ptr bs.length) ptr bs)
    (feats : Features Single) {block rest : List Byte} (hblock : BlockCode block fs)
    {b₁ b₂ : IoBuf} (hword : b.read_value A 8 "feature count" = .ok (block.length, b₁))
    (hread : b₁.buf_read A block.length TEXT = .ok (ptr, block.length, b₂))
    (hd : IoBuf.Delivers A b₁ ptr block.length b₂ block rest) :
    read_cached_features_via view A feats b
      = .ok (8 + block.length, ascending fs, feats.push_all (undelta 0 fs), b₂) := by
  have hfits : ptr + block.length ≤ 2 ^ 63 := by
    rw [hd.head_eq]
    exact (hd.wf.ordered.2.1.trans hd.wf.ordered.2.2).trans hd.wf.fits
  have hend : ptr_add ptr block.length = ptr + block.length := ptr_add_of_lt (by omega)
  rw [read_cached_features_via_eq view feats hword hread, hend,
    read_cached_features_loop_complete hblock block.length ptr 0 true feats (le_refl _)
      (hview hd.holds)]
  simp only [Outcome.ok_bind, Outcome.pure_eq, Bool.true_and]
  rw [Nat.mod_eq_of_lt (by omega), hd.head_eq, IoBuf.set_head]

/-- A coded block is read back from any buffer that has it next. -/
theorem read_cached_features_coded (hb : b.Wf A) (feats : Features Single)
    {block rest : List Byte} (hblock : BlockCode block fs)
    (hstream : b.stream = le_bytes 8 block.length ++ block ++ rest)
    (hmem : A.Provides (2 * (8 + block.length))) :
    Outcome.Returns (read_cached_features A feats b) fun r =>
      r.1 = 8 + block.length ∧ r.2.1 = ascending fs ∧
      r.2.2.1 = feats.push_all (undelta 0 fs) ∧ IoBuf.Leaves A b r.2.2.2 rest := by
  have hlt := hmem.lt
  have hlen : b.stream.length = 8 + (block.length + rest.length) := by
    rw [hstream, length_append, length_append, length_le_bytes, Nat.add_assoc]
  obtain ⟨⟨w, b₁⟩, hword, hw, hleaves⟩ := IoBuf.read_value_returns hb "feature count"
    (hmem.mono (by omega)) (by omega : 8 ≤ b.stream.length)
  simp only at hw hleaves
  rw [hstream, append_assoc] at hw hleaves
  rw [of_le_bytes_take_word (by omega)] at hw
  rw [drop_left' (length_le_bytes 8 _)] at hleaves
  subst hw
  obtain ⟨⟨ptr, count, b₂⟩, hread, hd⟩ := IoBuf.buf_read_returns hleaves.wf
    (hmem.mono (by omega) : A.Provides (2 * block.length))
  simp only at hd
  rw [hleaves.stream_eq, take_left, drop_left] at hd
  have hcount : count = block.length := hd.count_eq
  subst hcount
  exact ⟨_, read_cached_features_via_coded whole_buffer_holds feats hblock hword hread hd, rfl, rfl,
    rfl, hleaves.trans hd.leaves⟩

/-! ## The round trip -/

/-- Everything `cache_features` writes can be read back: the values always, in
    order, from exactly the bytes written, which stay within the space that
    was reserved; the masked indices exactly when every difference between
    consecutive ones has a zig-zag code of 62 bits. With at most 61 bits,
    which is all that dense weights admit, they all have. -/
theorem cache_features_round_trip (sparse : Bool) (num_bits : BitVec 32) (mask : BitVec 64)
    (hbits : validate_num_bits sparse num_bits = .ok ()) (hmask : parse_mask num_bits = .ok mask)
    (feats : Features Single) (hfits : feats.Fits) :
    ∃ block, cache_features feats mask = .ok (le_bytes 8 block.length ++ block) ∧
      8 + block.length ≤ (cache_features_storage feats + 8).toNat ∧
      ∀ (A : Allocator) (b : IoBuf) (rest : List Byte), b.Wf A →
        b.stream = le_bytes 8 block.length ++ block ++ rest →
        A.Provides (2 * (8 + block.length)) →
        Outcome.Returns (read_cached_features A empty b) fun r =>
          r.1 = 8 + block.length ∧ IoBuf.Leaves A b r.2.2.2 rest ∧
          r.2.2.1.values = feats.values ∧
          (r.2.2.1.indices = feats.indices.map (· &&& mask) ↔
            ∀ d ∈ deltas mask 0 feats.indices, DeltaFits d) ∧
          (sparse = false ∨ num_bits.toNat ≤ 61 →
            r.2.2.1.indices = feats.indices.map (· &&& mask)) := by
  obtain ⟨hspace, hwrite⟩ := cache_features_eq feats hfits mask
  refine ⟨cache_features_loop mask 0 feats.items, hwrite, hspace, ?_⟩
  intro A b rest hb hstream hmem
  have hread := read_cached_features_coded hb empty
    (cache_features_loop_code mask 0 feats.items) hstream hmem
  apply hread.mono
  rintro ⟨total, sorted, feats', b'⟩ ⟨htotal, _, hfeats, hleaves⟩
  simp only at htotal hfeats hleaves ⊢
  have hvalues : feats'.values = feats.values := by
    rw [hfeats, push_all_values, map_fst_undelta, map_fst_coded, feats.map_fst_items]
    rfl
  have hindices : feats'.indices = feats.indices.map (· &&& mask) ↔
      ∀ d ∈ deltas mask 0 feats.indices, DeltaFits d := by
    rw [hfeats, push_all_indices, ← feats.map_snd_items, map_map]
    exact undelta_coded_iff mask 0 feats.items
  refine ⟨htotal, hleaves, hvalues, hindices, ?_⟩
  intro hsmall
  have hle : num_bits.toNat ≤ 61 := by
    rcases hsmall with rfl | hle
    · exact le_of_validate_num_bits hbits
    · exact hle
  apply hindices.mpr
  apply deltas_fit_of_lt _ (by decide)
  intro i
  rw [toNat_and_parse_mask hmask]
  have hpow : 2 ^ num_bits.toNat ≤ 2 ^ 61 := Nat.pow_le_pow_right (by decide) hle
  exact lt_of_lt_of_le (Nat.mod_lt _ (Nat.two_pow_pos _)) hpow

/-- A buffer that holds nothing but the given bytes, all of them loaded. -/
def loaded (bs : List Byte) : IoBuf where
  buffer := { begin_ := 16, end_ := 16 + bs.length, end_array := 16 + bs.length, mem := bs }
  head := 16
  current := 0
  input_files := []

theorem loaded_stream (bs : List Byte) : (loaded bs).stream = bs := by
  simp [loaded, IoBuf.stream, IoBuf.unread, IoBuf.pending, InternalBuffer.bytes_at]

theorem loaded_wf (hpos : 0 < bs.length) (hfits : 16 + bs.length ≤ 2 ^ 63) :
    (loaded bs).Wf flat_memory where
  ordered := ⟨le_refl _, Nat.le_add_right _ _, le_refl _⟩
  mem_length := (Nat.add_sub_cancel_left 16 bs.length).symm
  capacity_pos := Nat.lt_add_of_pos_right hpos
  fits := hfits
  aligned := (by decide : 2 ^ 4 ∣ 16)
  faithful := by
    intro f hf
    cases hf

/-- Features `7:1`, `3:0.5` and `3:-1` under 18 bits. -/
def sample_features : Features Single :=
  ⟨[Single.one, ⟨0x3f000000⟩, Single.neg_one], [7, 3, 3], [], 0, rfl⟩

/-- A sample block and the byte after it. -/
theorem cache_features_round_trip_sample :
    ∃ block, cache_features sample_features 0x3ffff = .ok (le_bytes 8 block.length ++ block) ∧
      ∃ r, read_cached_features flat_memory empty
          (loaded (le_bytes 8 block.length ++ block ++ [10])) = .ok r ∧
        r.2.2.1.values = sample_features.values ∧ r.2.2.1.indices = [7, 3, 3] ∧
        r.2.2.2.stream = [10] := by
  obtain ⟨block, hwrite, hspace, hread⟩ := cache_features_round_trip false 18 0x3ffff rfl rfl
    sample_features (by unfold Fits; decide)
  have hstorage : (cache_features_storage sample_features + 8).toNat = 45 := by decide
  rw [hstorage] at hspace
  have hlen : (le_bytes 8 block.length ++ block ++ [10]).length = 8 + block.length + 1 := by
    simp only [length_append, length_le_bytes, length_singleton]
  obtain ⟨r, hr, _, hleaves, hvalues, _, hindices⟩ := hread flat_memory
    (loaded (le_bytes 8 block.length ++ block ++ [10])) [10]
    (loaded_wf (by omega) (by omega)) (loaded_stream _) (flat_memory_provides (by omega))
  exact ⟨block, hwrite, r, hr, hvalues, hindices (.inl rfl), hleaves.stream_eq⟩

/-- With sparse weights 62 bits are admitted, and then the index `2 ^ 61` is
    read back as `0`. -/
theorem cache_features_loses_bits_of_sparse_index :
    validate_num_bits true 62 = .ok () ∧ parse_mask 62 = .ok 0x3fffffffffffffff ∧
      ∃ feats : Features Single, feats.Fits ∧ feats.indices = [0x2000000000000000] ∧
        cache_features feats 0x3fffffffffffffff = .ok (le_bytes 8 1 ++ [0]) ∧
        ∃ b r, b.Wf flat_memory ∧ b.stream = le_bytes 8 1 ++ [0] ∧
          read_cached_features flat_memory empty b = .ok r ∧ r.2.2.1.indices = [0] ∧
          r.2.2.1.indices ≠ feats.indices.map (· &&& 0x3fffffffffffffff) := by
  refine ⟨rfl, by decide, ⟨[Single.one], [0x2000000000000000], [], 0, rfl⟩,
    by unfold Fits; decide, rfl, by decide, loaded (le_bytes 8 1 ++ [0]), ?_⟩
  have hcode : BlockCode [0] [(Single.one, 0)] :=
    cache_features_loop_code 0 0 [(Single.one, 0)]
  have hwf : (loaded (le_bytes 8 1 ++ [0])).Wf flat_memory := loaded_wf (by decide) (by decide)
  have hstream : (loaded (le_bytes 8 1 ++ [0])).stream = le_bytes 8 1 ++ [0] ++ [] := by
    rw [loaded_stream, append_nil]
  obtain ⟨r, hr, _, _, hfeats, _⟩ := read_cached_features_coded hwf empty hcode hstream
    (flat_memory_provides (by decide))
  have hindices : r.2.2.1.indices = [0] := by
    rw [hfeats, push_all_indices]
    decide
  refine ⟨r, hwf, loaded_stream _, hr, hindices, ?_⟩
  rw [hindices]
  decide

end Cache

end VW
