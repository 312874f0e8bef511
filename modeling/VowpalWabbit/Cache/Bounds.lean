import VowpalWabbit.Cache.Blocks

/-! # Arbitrary bytes as a feature block

    The decoder has no end to its integers: it follows their continuation bits
    out of the block, and so it does with the value after the last integer.
    The size of the block is not bounded either, and a size of `2 ^ 63` or
    more can make `buf_read` wrap around the address space. `StaysInBlock` is
    what one expects, and the theorem says when it is what happens.
-/

open Cpp Varint

namespace VW.Cache

open List IoBuf

/-- Reading a block of `w` bytes from a buffer that goes on with `s` either
    throws, or consumes exactly these bytes and looks at no others. -/
def StaysInBlock (A : Allocator) (feats : Features Single) (b : IoBuf) (w : Nat) (s : List Byte) :
    Prop :=
  Outcome.Safe (read_cached_features A feats b) fun r =>
    (∃ block, block.length = w ∧ s = block ++ r.2.2.2.stream) ∧
    read_cached_features_via block_only A feats b = .ok r

variable {A : Allocator} {b : IoBuf} {w : Nat} {s : List Byte}

/-! ## Where the condition holds -/

/-- Blocks that are not all there make the reader throw, the others are delivered. -/
theorem read_cached_features_via_cases (hb : b.Wf A) (hw : w < 2 ^ 63)
    (hstream : b.stream = le_bytes 8 w ++ s) (feats : Features Single) :
    (∃ what, ∀ view, read_cached_features_via view A feats b = Outcome.throw_ what) ∨
    w ≤ s.length ∧ ∃ ptr b₁ b₂, b.read_value A 8 "feature count" = .ok (w, b₁) ∧
      b₁.buf_read A w TEXT = .ok (ptr, w, b₂) ∧
      Delivers A b₁ ptr w b₂ (s.take w) (s.drop w) := by
  have hsafe := read_value_safe hb (by decide : 8 < 2 ^ 63) "feature count"
  rcases hword : b.read_value A 8 "feature count" with (what | _) | ⟨v, b₁⟩
  · left
    refine ⟨what, ?_⟩
    intro view
    rw [read_cached_features_via, hword]
    rfl
  · rw [hword] at hsafe
    exact absurd hsafe id
  obtain ⟨_, hv, hleaves⟩ := hsafe.of_ok hword
  simp only at hv hleaves
  rw [hstream, of_le_bytes_take_word (by omega)] at hv
  rw [hstream, drop_left' (length_le_bytes 8 w)] at hleaves
  subst hv
  have hsafe₁ := buf_read_safe hleaves.wf hw
  rcases hread : b₁.buf_read A v TEXT with (what | _) | ⟨ptr, count, b₂⟩
  · left
    refine ⟨what, ?_⟩
    intro view
    rw [read_cached_features_via, hword]
    simp only [Outcome.ok_bind, hread]
    rfl
  · rw [hread] at hsafe₁
    exact absurd hsafe₁ id
  have hd := hsafe₁.of_ok hread
  simp only at hd
  rw [hleaves.stream_eq] at hd
  have hcount : count = min v s.length := by
    rw [hd.count_eq, length_take]
  by_cases hlt : count < v
  · left
    refine ⟨RAN_OUT_OF_CACHE, ?_⟩
    intro view
    rw [read_cached_features_via, hword]
    simp only [Outcome.ok_bind, hread]
    rw [if_pos hlt]
  · right
    have hc : count = v := by omega
    subst hc
    exact ⟨by omega, ptr, b₁, b₂, rfl, hread, hd⟩

theorem stays_in_block_of_code (hb : b.Wf A) (hw : w < 2 ^ 63)
    (hstream : b.stream = le_bytes 8 w ++ s) (feats : Features Single)
    (hcode : s.length < w ∨ ∃ fs, BlockCode (s.take w) fs) : StaysInBlock A feats b w s := by
  rcases read_cached_features_via_cases hb hw hstream feats with
    ⟨what, hthrow⟩ | ⟨hle, ptr, b₁, b₂, hword, hread, hd⟩
  · rw [StaysInBlock, read_cached_features, hthrow]
    exact Outcome.Safe.throw_ what
  · rcases hcode with hlt | ⟨fs, hblock⟩
    · omega
    · have hlen : (s.take w).length = w := length_take_of_le hle
      have hvia : ∀ {view : View}, (∀ {buffer : InternalBuffer} {ptr : Nat} {bs : List Byte},
          Holds buffer.load ptr bs → Holds (view buffer ptr bs.length) ptr bs) →
          read_cached_features_via view A feats b = .ok (8 + w, ascending fs,
            feats.push_all (undelta 0 fs), b₂) := by
        intro view hview
        have := read_cached_features_via_coded (A := A) (b := b) hview feats hblock
          (by rw [hlen]; exact hword) (by rw [hlen]; exact hread) (by rw [hlen]; exact hd)
        rwa [hlen] at this
      rw [StaysInBlock, read_cached_features, hvia whole_buffer_holds]
      refine Outcome.Safe.ok ⟨⟨s.take w, hlen, ?_⟩, hvia block_only_holds⟩
      rw [hd.stream_eq, take_append_drop]

/-! ## Where it does not -/

/-! The decoder itself never throws. -/

theorem load_noThrow (buffer : InternalBuffer) (ptr : Nat) : (buffer.load ptr).NoThrow := by
  unfold InternalBuffer.load
  split
  · exact .undefined
  · split
    · exact .undefined
    · exact .ok _

variable {load : Nat → Outcome Byte}

theorem read_cached_feature_noThrow (hload : ∀ p, (load p).NoThrow) (read_head : Nat) :
    (read_cached_feature load read_head).NoThrow := by
  have hint : ∀ left count p num,
      (variable_length_int_decode_loop load left count p num).NoThrow := by
    intro left
    induction left with
    | zero =>
      intro count p num
      exact .undefined
    | succ left ih =>
      intro count p num
      apply (hload p).bind
      intro c
      split
      · exact ih _ _ _
      · exact .ok _
  have hbytes : ∀ n p, (load_bytes load p n).NoThrow := by
    intro n
    induction n with
    | zero =>
      intro p
      exact .ok _
    | succ n ih =>
      intro p
      apply (hload p).bind
      intro c
      apply (ih (p + 1)).bind
      intro cs
      exact .ok _
  apply (hint 10 0 read_head 0).bind
  intro (p, num)
  simp only
  split
  · exact .ok _
  · split
    · apply (hbytes 4 p).bind
      intro f
      exact .ok _
    · exact .ok _

theorem read_cached_features_loop_noThrow (hload : ∀ p, (load p).NoThrow) (end_ fuel : Nat) :
    ∀ read_head last sorted feats,
      (read_cached_features_loop load end_ fuel read_head last sorted feats).NoThrow := by
  induction fuel with
  | zero =>
    intro read_head last sorted feats
    unfold read_cached_features_loop
    split
    · exact .undefined
    · exact .ok _
  | succ fuel ih =>
    intro read_head last sorted feats
    unfold read_cached_features_loop
    split
    · apply (read_cached_feature_noThrow hload read_head).bind
      intro r
      exact ih _ _ _ _
    · exact .ok _

/-- A `read_value` that the loaded bytes can serve. -/
theorem read_value_loaded (hb : b.Wf A) {size : Nat} (h : b.head + size ≤ b.buffer.end_)
    (debug_name : String) :
    b.read_value A size debug_name
      = .ok (of_le_bytes (b.stream.take size), { b with head := b.head + size }) := by
  have hfits := hb.fits
  have hord := hb.ordered.2.2
  have hadd : ptr_add b.head size = b.head + size := ptr_add_of_lt (by omega)
  have hd := take_loaded hb h
  rw [read_value, buf_read_loaded (by rw [hadd]; exact h), hadd]
  simp only [Outcome.ok_bind]
  rw [if_neg (lt_irrefl size), ← hd.bytes]
  rfl

/-- All the bytes loaded, the decoder can stay in the block only if they code one. -/
theorem code_of_stays_in_block (feats : Features Single) (hle : w ≤ s.length)
    (hs : 24 + s.length ≤ 2 ^ 63)
    (h : StaysInBlock flat_memory feats (loaded (le_bytes 8 w ++ s)) w s) :
    ∃ fs, BlockCode (s.take w) fs := by
  have hlen : (le_bytes 8 w ++ s).length = 8 + s.length := by
    rw [length_append, length_le_bytes]
  generalize hb₀ : loaded (le_bytes 8 w ++ s) = b₀ at h
  have hend : b₀.buffer.end_ = 24 + s.length := by
    rw [← hb₀]
    show 16 + (le_bytes 8 w ++ s).length = _
    omega
  have hhead : b₀.head = 16 := by rw [← hb₀, loaded]
  have hstream : b₀.stream = le_bytes 8 w ++ s := by rw [← hb₀, loaded_stream]
  have hwf : b₀.Wf flat_memory := by
    rw [← hb₀]
    exact loaded_wf (by omega) (by omega)
  have hword := read_value_loaded hwf (by omega : b₀.head + 8 ≤ b₀.buffer.end_) "feature count"
  have hd₁ := take_loaded hwf (by omega : b₀.head + 8 ≤ b₀.buffer.end_)
  rw [hstream, of_le_bytes_take_word (by omega)] at hword
  rw [hstream, drop_left' (length_le_bytes 8 w)] at hd₁
  generalize hb₁ : ({ b₀ with head := b₀.head + 8 } : IoBuf) = b₁ at hword hd₁
  have hin : b₁.head + w ≤ b₁.buffer.end_ := by
    rw [← hb₁]
    simp only [hhead, hend]
    omega
  have hd₂ := take_loaded hd₁.wf hin
  rw [hd₁.stream_eq] at hd₂
  have hadd : ptr_add b₁.head w = b₁.head + w := by
    have := hd₁.wf.fits
    have := hd₁.wf.ordered.2.2
    exact ptr_add_of_lt (by omega)
  have hread : b₁.buf_read flat_memory w TEXT
      = .ok (b₁.head, w, { b₁ with head := b₁.head + w }) := by
    rw [buf_read_loaded (by rw [hadd]; exact hin), hadd]
  -- The reads are served, so the decoder has accepted the block through the
  -- view that shows it nothing else.
  have hwhole := read_cached_features_via_eq whole_buffer feats hword hread
  have hreturns : (read_cached_features flat_memory feats b₀).NoThrow := by
    rw [read_cached_features, hwhole]
    apply (read_cached_features_loop_noThrow (load_noThrow _) _ _ _ _ _ _).bind
    intro r
    exact .ok _
  obtain ⟨r, _, _, hvia⟩ := h.returns hreturns
  rw [read_cached_features_via_eq block_only feats hword hread, Outcome.bind_eq_ok] at hvia
  obtain ⟨⟨p, sorted, feats'⟩, hloop, _⟩ := hvia
  obtain ⟨block, fs, hblock, hholds, rfl, hle', _, _⟩ := read_cached_features_loop_sound _ _ _ _ _ hloop
  obtain ⟨hlen', hholds⟩ := holds_of_block_only hholds
  rw [hadd] at hle'
  have hsame : block = s.take w := by
    apply hholds.ext hd₂.holds
    rw [length_take]
    omega
  exact ⟨fs, hsame ▸ hblock⟩

/-- A buffer at the very end of the lower half of the address space: the size
    has been loaded, the rest is still in the file. -/
def at_end (w : Nat) (s : List Byte) : IoBuf where
  buffer := { begin_ := 2 ^ 63 - 16, end_ := 2 ^ 63, end_array := 2 ^ 63,
              mem := le_bytes 8 0 ++ le_bytes 8 w }
  head := 2 ^ 63 - 8
  current := 0
  input_files := [chunked 0 s]

theorem at_end_wf (w : Nat) (s : List Byte) : (at_end w s).Wf flat_memory where
  ordered := by
    unfold Ordered at_end
    simp only
    omega
  mem_length := by
    unfold at_end
    simp only [length_append, length_le_bytes]
    omega
  capacity_pos := by
    simp [at_end]
  fits := by
    simp [at_end]
  aligned := ⟨2 ^ 59 - 1, by simp [at_end, flat_memory]⟩
  faithful := by
    intro f hf
    rw [at_end, mem_singleton] at hf
    rw [hf]
    exact chunked_faithful 0 s

theorem at_end_stream (w : Nat) (s : List Byte) : (at_end w s).stream = le_bytes 8 w ++ s := by
  simp [at_end, stream, unread, pending, InternalBuffer.bytes_at, chunked]

/-- A size of `2 ^ 63` or more wraps around: the reader returns at once. -/
theorem not_stays_in_block_of_wrap (feats : Features Single) (hw : 2 ^ 63 ≤ w) (hlt : w < 2 ^ 64)
    (s : List Byte) : ¬ StaysInBlock flat_memory feats (at_end w s) w s := by
  intro h
  have hwf := at_end_wf w s
  have hhead : (at_end w s).head = 2 ^ 63 - 8 := rfl
  have hend : (at_end w s).buffer.end_ = 2 ^ 63 := rfl
  have hstream := at_end_stream w s
  have hpending : (at_end w s).pending = s := by
    simp [at_end, pending, chunked]
  generalize at_end w s = b₀ at *
  have hword := read_value_loaded hwf (by omega : b₀.head + 8 ≤ b₀.buffer.end_) "feature count"
  rw [hstream, of_le_bytes_take_word hlt] at hword
  -- The head is at `2 ^ 63` now, and `2 ^ 63 + w` is taken modulo `2 ^ 64`.
  generalize hb₁ : ({ b₀ with head := b₀.head + 8 } : IoBuf) = b₁ at hword
  have hhead₁ : b₁.head = 2 ^ 63 := by
    rw [← hb₁]
    show b₀.head + 8 = _
    omega
  have hbuffer₁ : b₁.buffer = b₀.buffer := by rw [← hb₁]
  have hwrap : ptr_add b₁.head w = w - 2 ^ 63 := by
    rw [ptr_add, hhead₁]
    omega
  have hread : b₁.buf_read flat_memory w TEXT
      = .ok (b₁.head, w, { b₁ with head := ptr_add b₁.head w }) := by
    apply buf_read_loaded
    rw [hwrap, hbuffer₁, hend]
    omega
  have hloop : ∀ load, read_cached_features_loop load (ptr_add b₁.head w) w b₁.head 0 true feats
      = .ok (b₁.head, true, feats) := by
    intro load
    obtain ⟨k, rfl⟩ := Nat.exists_eq_succ_of_ne_zero (by omega : w ≠ 0)
    rw [read_cached_features_loop, if_neg (by omega)]
  have hwhole := read_cached_features_via_eq whole_buffer feats hword hread
  rw [hloop] at hwhole
  obtain ⟨⟨block, hlen, hs⟩, _⟩ := h.of_ok hwhole
  have hrest : (({ b₁ with head := ptr_add b₁.head w } : IoBuf).set b₁.head).stream = s := by
    have hpend₁ : b₁.pending = s := by
      rw [← hb₁]
      exact hpending
    show b₁.buffer.bytes_at b₁.head (b₁.buffer.end_ - b₁.head) ++ b₁.pending = s
    rw [hhead₁, hbuffer₁, hend, Nat.sub_self, InternalBuffer.bytes_at, take_zero, hpend₁,
      nil_append]
  simp only at hs
  rw [hrest] at hs
  have := congrArg length hs
  rw [length_append] at this
  omega

/-- The reader stays inside the block, in every buffer that presents it,
    exactly when the size does not reach `2 ^ 63`, and the block is cut off by
    the end of the data or is a sequence of whole features. -/
theorem cached_block_bounded_iff (w : BitVec 64) (s : List Byte) (hs : 24 + s.length ≤ 2 ^ 63)
    (feats : Features Single) :
    (∀ (A : Allocator) (b : IoBuf), b.Wf A → b.stream = le_bytes 8 w.toNat ++ s →
      StaysInBlock A feats b w.toNat s) ↔
    w.toNat < 2 ^ 63 ∧ (s.length < w.toNat ∨ ∃ fs, BlockCode (s.take w.toNat) fs) := by
  constructor
  · intro h
    have hw : w.toNat < 2 ^ 63 := by
      by_contra hge
      exact not_stays_in_block_of_wrap feats (by omega) w.isLt s
        (h flat_memory _ (at_end_wf _ s) (at_end_stream _ s))
    refine ⟨hw, ?_⟩
    by_cases hle : s.length < w.toNat
    · exact .inl hle
    · right
      apply code_of_stays_in_block feats (by omega) hs
      have hlen : (le_bytes 8 w.toNat ++ s).length = 8 + s.length := by
        rw [length_append, length_le_bytes]
      exact h flat_memory _ (loaded_wf (by omega) (by omega)) (loaded_stream _)
  · rintro ⟨hw, hcode⟩ A b hb hstream
    exact stays_in_block_of_code hb hw hstream feats hcode

/-- A block of one feature. -/
theorem cached_block_bounded_iff_single_feature :
    StaysInBlock flat_memory Features.empty (loaded (le_bytes 8 1 ++ [4, 9])) 1 [4, 9] := by
  have hcode : BlockCode [4] [(Single.one, kept 0xffffffffffffffff)] :=
    cache_features_loop_code 0xffffffffffffffff 1 [(Single.one, 0)]
  have hstays := (cached_block_bounded_iff 1 [4, 9] (by decide) Features.empty).mpr
    ⟨by decide, .inr ⟨_, hcode⟩⟩
  exact hstays flat_memory _ (loaded_wf (by decide) (by decide)) (loaded_stream _)

/-- A block of one byte whose continuation bit is set: the decoder returns
    normally, having consumed the byte behind the block as well. -/
theorem read_cached_features_runs_past_block :
    (loaded (le_bytes 8 1 ++ [0x80, 0x01])).Wf flat_memory ∧
    (∃ r, read_cached_features flat_memory Features.empty (loaded (le_bytes 8 1 ++ [0x80, 0x01]))
        = .ok r ∧ r.2.2.1.indices = [16] ∧ r.2.2.2.stream = []) ∧
    ¬ StaysInBlock flat_memory Features.empty (loaded (le_bytes 8 1 ++ [0x80, 0x01])) 1
        [0x80, 0x01] := by
  have hread : ∃ r, read_cached_features flat_memory Features.empty
      (loaded (le_bytes 8 1 ++ [0x80, 0x01])) = .ok r ∧ r.2.2.1.indices = [16] ∧
      r.2.2.2.stream = [] := ⟨_, rfl, rfl, rfl⟩
  refine ⟨loaded_wf (by decide) (by decide), hread, ?_⟩
  intro h
  obtain ⟨r, hr, _, hrest⟩ := hread
  obtain ⟨⟨block, hlen, hs⟩, _⟩ := h.of_ok hr
  rw [hrest, append_nil] at hs
  rw [← hs] at hlen
  cases hlen

end VW.Cache
