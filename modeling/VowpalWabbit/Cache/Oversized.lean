import VowpalWabbit.IoBuf.Oversized
import VowpalWabbit.Cache.Example
import VowpalWabbit.Cache.Bounds

/-! # Length words that promise too much

    A tag and the features of a namespace come with their lengths, which may be anything in a
    corrupt file. A length for which fewer bytes are there is an error. Where the request is
    harmless it is found out; where it wraps around, `buf_read` answers that all is there: the
    bytes of the tag are those from beyond the buffer, and the features are taken to be none.
-/

open Cpp Cpp.Outcome

namespace VW.Cache

open List IoBuf

variable {A : Allocator} {b b₀ : IoBuf} {n : Nat}

/-- What one may expect of a request for `n` bytes at `b`, the sizes that were read as words before
    it included. -/
structure ReadsHarmless (A : Allocator) (b : IoBuf) (n : Nat) : Prop where
  /-- At most `n` bytes, in the filled part of the buffer. -/
  buf_read : Ends (¬A.Provides (2 * b.stream.length)) (b.buf_read A n TEXT) fun (ptr, count, b') =>
    count ≤ n ∧ b'.buffer.begin_ ≤ ptr ∧ ptr + count ≤ b'.buffer.end_ ∧
      b'.buffer.begin_ ≤ b'.head ∧ b'.head ≤ b'.buffer.end_
  /-- A tag that is too long is not read; its caller throws when nothing was. -/
  read_cached_tag : b.stream.length < n → ∀ b₀, b₀.read_value A 8 "tag size" = .ok (n, b) →
    ∀ tag, Safe (read_cached_tag A tag b₀) fun r => r.1 = 0 ∧ r.2.1 = tag
  /-- Features that are too long are an error. -/
  read_cached_features : b.stream.length < n → ∀ b₀, b₀.read_value A 8 "feature count" = .ok (n, b) →
    ∀ feats, Throws (read_cached_features A feats b₀)

/-- A harmless request hands out a part of the filled buffer. -/
theorem in_filled_part {ptr count : Nat} {b' : IoBuf}
    (h : Delivers A b ptr count b' (b.stream.take n) (b.stream.drop n)) :
    count ≤ n ∧ b'.buffer.begin_ ≤ ptr ∧ ptr + count ≤ b'.buffer.end_ ∧
      b'.buffer.begin_ ≤ b'.head ∧ b'.head ≤ b'.buffer.end_ := by
  obtain ⟨h1, h2, -⟩ := h.wf.ordered
  have hcount := h.count_eq
  have hhead := h.head_eq
  rw [length_take] at hcount
  exact ⟨by omega, h.begin_le, by omega, h1, h2⟩

theorem tag_rejected {E : Prop} (hread : Ends E (b.buf_read A n TEXT)
      fun r => Delivers A b r.1 r.2.1 r.2.2 (b.stream.take n) (b.stream.drop n))
    (hshort : b.stream.length < n) (hword : b₀.read_value A 8 "tag size" = .ok (n, b)) (tag : List Byte) :
    Safe (read_cached_tag A tag b₀) fun r => r.1 = 0 ∧ r.2.1 = tag := by
  unfold read_cached_tag
  rw [hword, ok_bind]
  have hsafe : Safe (b.buf_read A n TEXT) fun r => r.2.1 < n := by
    rcases hx : b.buf_read A n TEXT with (what | _) | r
    · trivial
    · rw [hx] at hread
      exact hread
    · rw [hx] at hread
      have hcount := Delivers.count_eq hread
      rw [length_take] at hcount
      show r.2.1 < n
      omega
  refine hsafe.bind fun r hr => ?_
  obtain ⟨ptr, count, b'⟩ := r
  show Safe (if count < n then _ else _) _
  rw [if_pos hr]
  exact Safe.ok ⟨rfl, rfl⟩

theorem features_rejected {E : Prop} (hread : Ends E (b.buf_read A n TEXT)
      fun r => Delivers A b r.1 r.2.1 r.2.2 (b.stream.take n) (b.stream.drop n))
    (hshort : b.stream.length < n) (hword : b₀.read_value A 8 "feature count" = .ok (n, b))
    (feats : Features Single) : Throws (read_cached_features A feats b₀) := by
  unfold read_cached_features read_cached_features_via
  rw [hword, ok_bind]
  refine hread.bind_throws fun r hr => ?_
  obtain ⟨ptr, count, b'⟩ := r
  have hcount := hr.count_eq
  rw [length_take] at hcount
  show Throws (if count < n then _ else _)
  rw [if_pos (by simp only at hcount; omega)]
  exact ⟨_, rfl⟩

/-- A size that wraps around makes the decoder find no features, and no error. -/
theorem features_of_wraps (hn : n < 2 ^ 64) (hread : Returns (b.buf_read A n TEXT) (Wraps A n))
    (hword : b₀.read_value A 8 "feature count" = .ok (n, b)) (feats : Features Single) :
    Returns (read_cached_features A feats b₀) fun r => r.2.2.1 = feats := by
  obtain ⟨_, hread, b₁, hwf, hwraps, rfl⟩ := hread
  have hfits := hwf.fits
  obtain ⟨-, h2, h3⟩ := hwf.ordered
  have hend : ptr_add b₁.head n ≤ b₁.head := by
    unfold ptr_add
    omega
  obtain ⟨k, rfl⟩ : ∃ k, n = k + 1 := ⟨n - 1, by omega⟩
  have heq := read_cached_features_via_eq whole_buffer feats hword hread
  rw [read_cached_features_loop, if_neg (by omega)] at heq
  exact ⟨_, heq, rfl⟩

/-- A request is harmless in all that is made of it exactly when its end is an address, at the head
    and wherever the buffer is moved to. -/
theorem reads_harmless_iff (hb : b.Wf A) (hn : n < 2 ^ 64) : ReadsHarmless A b n ↔ Harmless A b n := by
  obtain ⟨hgood, hbad⟩ := buf_read_any hb hn
  constructor
  · intro h
    by_contra hharmful
    obtain ⟨_, hread, b₁, hwf, hwraps, rfl⟩ := hbad hharmful
    have hbuf := h.buf_read
    rw [hread] at hbuf
    have hend : b₁.head + n ≤ b₁.buffer.end_ := hbuf.2.2.1
    have hfits := hwf.fits
    have hord := hwf.ordered.2.2
    omega
  · intro h
    have hread := hgood h
    exact ⟨hread.mono id fun _ hr => in_filled_part hr,
      fun hshort _ hword tag => tag_rejected hread hshort hword tag,
      fun hshort _ hword feats => features_rejected hread hshort hword feats⟩

/-- Five bytes of a buffer that has two. -/
theorem reads_harmless_past_the_end :
    (loaded [4, 9]).Wf flat_memory ∧ 5 < 2 ^ 64 ∧ ReadsHarmless flat_memory (loaded [4, 9]) 5 := by
  have hwf : (loaded [4, 9]).Wf flat_memory := loaded_wf (by decide) (by decide)
  exact ⟨hwf, by decide, (reads_harmless_iff hwf (by decide)).mpr (harmless_of_lt hwf (by decide))⟩

/-- A length word whose bits are all set, before two bytes: no features are read, and no error is
    raised. -/
theorem all_ones_word_accepted :
    ∃ b, (loaded (le_bytes 8 (2 ^ 64 - 1) ++ [4, 9])).read_value flat_memory 8 "feature count" =
        .ok (2 ^ 64 - 1, b) ∧ b.Wf flat_memory ∧ b.stream.length < 2 ^ 64 - 1 ∧
      Returns (read_cached_features flat_memory Features.empty (loaded (le_bytes 8 (2 ^ 64 - 1) ++ [4, 9])))
        (fun r => r.2.2.1 = Features.empty) ∧
      ¬ReadsHarmless flat_memory b (2 ^ 64 - 1) := by
  have hlength : (le_bytes 8 (2 ^ 64 - 1) ++ [4, 9]).length = 10 := by simp
  have hwf₀ : (loaded (le_bytes 8 (2 ^ 64 - 1) ++ [4, 9])).Wf flat_memory := loaded_wf (by omega) (by omega)
  have hfit : (loaded (le_bytes 8 (2 ^ 64 - 1) ++ [4, 9])).head + 8 ≤
      (loaded (le_bytes 8 (2 ^ 64 - 1) ++ [4, 9])).buffer.end_ := by
    show 16 + 8 ≤ 16 + (le_bytes 8 (2 ^ 64 - 1) ++ [4, 9]).length
    omega
  have hstream := loaded_stream (le_bytes 8 (2 ^ 64 - 1) ++ [4, 9])
  have hword := read_value_loaded hwf₀ hfit "feature count"
  have hd := take_loaded hwf₀ hfit
  rw [hstream, of_le_bytes_take_word (by decide)] at hword
  rw [hstream, take_left' (length_le_bytes 8 _), drop_left' (length_le_bytes 8 _)] at hd
  have hharmful : ¬Harmless flat_memory
      { loaded (le_bytes 8 (2 ^ 64 - 1) ++ [4, 9]) with head := 16 + 8 } (2 ^ 64 - 1) := by
    intro h
    have haddress : 16 + 8 + (2 ^ 64 - 1) < 2 ^ 64 := h.1
    omega
  have hread := (buf_read_any hd.wf (by decide)).2 hharmful
  refine ⟨_, hword, hd.wf, ?_, features_of_wraps (by decide) hread hword _, fun h => ?_⟩
  · rw [hd.stream_eq]
    decide
  · exact hharmful ((reads_harmless_iff hd.wf (by decide)).mp h)

end VW.Cache
