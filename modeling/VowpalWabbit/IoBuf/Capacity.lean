import VowpalWabbit.IoBuf.Values

/-! # How far the allocation reaches

    A read that finds too few bytes still hands out a pointer, and a caller
    who does not look at the count may use more behind it than was read. What
    it finds there depends on the size of the allocation. `fill` doubles it
    when it is full, so that after a read of `n` bytes it is the least doubling
    that holds them, however the files deliver their bytes.
-/

open Cpp

namespace VW

open InternalBuffer

namespace IoBuf

/-- `c`, doubled until it reaches `n`. -/
def grow (c n : Nat) : Nat :=
  if 0 < c ∧ c < n then grow (2 * c) n else c
  termination_by n - c

variable {n c : Nat}

theorem grow_of_le (h : n ≤ c) : grow c n = c := by
  rw [grow, if_neg (by omega)]

theorem grow_of_lt (hc : 0 < c) (h : c < n) : grow c n = grow (2 * c) n := by
  rw [grow, if_pos ⟨hc, h⟩]

/-- There is a file left to ask for more bytes. -/
def is_open (b : IoBuf) : Prop := b.current < b.input_files.length

instance (b : IoBuf) : Decidable b.is_open := inferInstanceAs (Decidable (_ < _))

/-- The size of the allocation after a read of `n` bytes. One that comes to the
    end of the files has made room for a byte more than there was. -/
def capacity_after (opened : Prop) [Decidable opened] (capacity available n : Nat) : Nat :=
  if n ≤ available then grow capacity n
  else if opened then grow capacity (available + 1)
  else capacity

/-- An allocation that is large enough stays as it is. -/
theorem capacity_after_of_lt (opened : Prop) [Decidable opened] {available : Nat}
    (ha : available < c) (hn : n ≤ c) : capacity_after opened c available n = c := by
  unfold capacity_after
  rw [grow_of_le hn, grow_of_le (by omega), ite_self, ite_self]

variable {A : Allocator} {b b' : IoBuf}

@[simp] theorem capacity_shift_to_front (b : IoBuf) (align : DesiredAlign) :
    (b.shift_to_front align).buffer.capacity = b.buffer.capacity := by
  unfold shift_to_front InternalBuffer.shift_to_front
  dsimp only
  split
  · rfl
  · rfl

theorem make_room_capacity (h : b.make_room A = .ok b') :
    b'.buffer.capacity =
      if b.buffer.end_array = b.buffer.end_ then 2 * b.buffer.capacity else b.buffer.capacity := by
  unfold make_room at h
  split at h
  · rename_i hfull
    unfold realloc at h
    split at h
    · cases h
    · cases h
      rw [if_pos hfull]
      simp only [capacity]
      omega
  · rename_i hroom
    cases h
    rw [if_neg hroom]

theorem fill_capacity {num_read : Nat} (h : b.fill A = .ok (num_read, b')) :
    b'.buffer.capacity =
      if b.buffer.end_array = b.buffer.end_ then 2 * b.buffer.capacity else b.buffer.capacity := by
  unfold fill at h
  rw [Outcome.bind_eq_ok] at h
  obtain ⟨b₁, hmake, h⟩ := h
  rw [← make_room_capacity hmake]
  split at h
  · cases h
  · split at h
    · cases h
    · split at h
      · cases h
        rfl
      · cases h
        rfl

/-- A search for more bytes doubles an allocation that is full. -/
theorem refill_capacity {more : Bool} (hb : b.Wf A) (hhead : b.head = b.buffer.begin_)
    (h : b.refill A = .ok (more, b')) :
    (b'.buffer.capacity =
      if b.is_open ∧ b.unread.length = b.buffer.capacity then 2 * b.buffer.capacity
      else b.buffer.capacity) ∧
    (more = true → b.is_open ∧ b'.is_open) := by
  obtain ⟨h1, h2, h3⟩ := hb.ordered
  have hfull : b.unread.length = b.buffer.capacity ↔ b.buffer.end_array = b.buffer.end_ := by
    rw [hb.length_unread, hhead, capacity]
    omega
  unfold refill at h
  split at h
  · rename_i hopen
    rw [Outcome.bind_eq_ok] at h
    obtain ⟨⟨num_read, b₁⟩, hfill, h⟩ := h
    have hcap := fill_capacity hfill
    obtain ⟨_, _, hcur, hlen, _⟩ := (fill_spec hb hopen).2 num_read b₁ hfill
    have hcond : (b.is_open ∧ b.unread.length = b.buffer.capacity) ↔
        b.buffer.end_array = b.buffer.end_ := by
      rw [hfull]
      exact and_iff_right hopen
    simp only [hcond]
    simp only at h
    split at h
    · cases h
      refine ⟨hcap, fun _ => ⟨hopen, ?_⟩⟩
      unfold is_open
      rw [hcur, hlen]
      exact hopen
    · cases h
      refine ⟨hcap, fun hmore => ⟨hopen, ?_⟩⟩
      simp only [decide_eq_true_eq] at hmore
      exact hmore
  · rename_i hclosed
    cases h
    rw [if_neg (fun h => hclosed h.1)]
    refine ⟨rfl, fun hmore => ?_⟩
    simp only [decide_eq_true_eq] at hmore
    exact absurd (Nat.lt_of_succ_lt hmore) hclosed

/-- What a read of `n` bytes leaves of the allocation. -/
structure Allocated (b : IoBuf) (n ptr : Nat) (b' : IoBuf) : Prop where
  capacity_eq : b'.buffer.capacity =
    capacity_after b.is_open b.buffer.capacity b.stream.length n
  /-- A read that finds all it looks for leaves a file that was open open. -/
  is_open_iff : n ≤ b.stream.length → (b'.is_open ↔ b.is_open)
  /-- One that does not hands out what has moved to the front. -/
  at_front : b.stream.length < n → ptr = b'.buffer.begin_

theorem Wf.length_unread_le_capacity (hb : b.Wf A) : b.unread.length ≤ b.buffer.capacity := by
  obtain ⟨h1, h2, h3⟩ := hb.ordered
  rw [hb.length_unread, capacity]
  omega

theorem Wf.pos_capacity (hb : b.Wf A) : 0 < b.buffer.capacity := by
  have := hb.capacity_pos
  rw [capacity]
  omega

theorem length_unread_le_stream (b : IoBuf) : b.unread.length ≤ b.stream.length := by
  rw [stream, List.length_append]
  omega

/-- One doubling does not change what the allocation grows to, if it was full
    and the read goes on. -/
theorem capacity_after_double {unread available : Nat} (hc : 0 < c) (hn : unread < n)
    (hun : unread ≤ available) :
    capacity_after True (if unread = c then 2 * c else c) available n
      = capacity_after True c available n := by
  split
  · rename_i hfull
    unfold capacity_after
    split
    · rw [grow_of_lt hc (by omega : c < n)]
    · rw [if_pos trivial, if_pos trivial, grow_of_lt hc (by omega : c < available + 1)]
  · rfl

/-- At the end of the files a full allocation has been doubled once more. -/
theorem capacity_after_end {unread : Nat} (opened : Prop) [Decidable opened] (hc : 0 < c)
    (hn : unread < n) (hle : unread ≤ c) :
    (if opened ∧ unread = c then 2 * c else c) = capacity_after opened c unread n := by
  unfold capacity_after
  simp only [not_le.mpr hn, if_false]
  by_cases hopen : opened
  · simp only [hopen, true_and, if_true]
    split
    · rename_i hfull
      rw [grow_of_lt hc (by omega), grow_of_le (by omega)]
    · rw [grow_of_le (by omega)]
  · simp only [hopen, false_and, if_false]

theorem buf_read_loop_allocated (hn : n < 2 ^ 63) (fuel : Nat) :
    ∀ b : IoBuf, b.Wf A → ∀ ptr count b',
      buf_read_loop A n TEXT fuel b = .ok (ptr, count, b') → Allocated b n ptr b' := by
  induction fuel with
  | zero =>
    intro b _ ptr count b' h
    cases h
  | succ fuel ih =>
    intro b hb ptr count b' h
    obtain ⟨h1, h2, h3⟩ := hb.ordered
    have hfits := hb.fits
    have hlen := hb.length_unread
    have hcap := hb.length_unread_le_capacity
    have hle := length_unread_le_stream b
    have haligned : ∀ ptr, TEXT.is_aligned ptr = true := by
      intro ptr
      simp [TEXT, DesiredAlign.is_aligned, Nat.mod_one]
    rw [buf_read_loop, ptr_add_of_lt (by omega)] at h
    split at h
    · -- The bytes are loaded, and nothing is allocated.
      rw [if_pos (haligned _)] at h
      cases h
      refine ⟨?_, fun _ => Iff.rfl, fun hshort => by omega⟩
      rw [capacity_after, if_pos (by omega), grow_of_le (by omega)]
    · obtain ⟨hwf, hun, hhead, hfiles, hcur, _, _⟩ := shift_if_spec hb (alignable_TEXT A)
      have hshift : (if b.head ≠ b.buffer.begin_ then b.shift_to_front TEXT else b).buffer.capacity
          = b.buffer.capacity := by
        split
        · exact capacity_shift_to_front b TEXT
        · rfl
      simp only at h
      set b₁ := if b.head ≠ b.buffer.begin_ then b.shift_to_front TEXT else b
      have hstream : b₁.stream = b.stream := by simp only [stream, hun, pending, hfiles, hcur]
      have hopen : b₁.is_open ↔ b.is_open := by simp only [is_open, hfiles, hcur]
      rw [Outcome.bind_eq_ok] at h
      obtain ⟨⟨more, b₂⟩, hrefill, h⟩ := h
      obtain ⟨hcap₂, hmore⟩ := refill_capacity hwf hhead hrefill
      obtain ⟨hwf₂, hstream₂, _, hdone, hbegin₂, _, _⟩ := (refill_spec hwf).2 more b₂ hrefill
      rw [hun, hshift] at hcap₂
      simp only [hopen] at hcap₂
      cases more with
      | true =>
        obtain ⟨hopen₁, hopen₂⟩ := hmore rfl
        have hopen₀ := hopen.mp hopen₁
        obtain ⟨hcap', hopen', hfront'⟩ := ih b₂ hwf₂ ptr count b' h
        rw [hstream₂, hstream] at hcap' hopen' hfront'
        refine ⟨?_, fun hfull => ?_, hfront'⟩
        · simp only [hopen₀, true_and] at hcap₂
          simp only [hopen₂, hopen₀] at hcap' ⊢
          rw [hcap', hcap₂, capacity_after_double hb.pos_capacity (by omega) hle]
        · exact (hopen' hfull).trans (iff_of_true hopen₂ hopen₀)
      | false =>
        obtain ⟨hun₂, hall⟩ := hdone rfl
        have hall₀ : b.stream.length = b.unread.length := by
          rw [← hstream, ← hstream₂, hall, hun₂, hun]
        rw [if_neg (by simp), final_read, haligned] at h
        cases h
        refine ⟨?_, fun hfull => by omega, fun _ => by rw [hbegin₂, hhead, Nat.sub_self]; rfl⟩
        show b₂.buffer.capacity = _
        rw [hcap₂, hall₀]
        exact capacity_after_end b.is_open hb.pos_capacity (by omega) hcap

/-- `buf_read` as a whole: the bytes it hands out, and where they lie. -/
theorem buf_read_ends (hb : b.Wf A) (hn : n < 2 ^ 63) :
    Outcome.Ends (¬ A.Provides (2 * n)) (b.buf_read A n TEXT) fun r =>
      Delivers A b r.1 r.2.1 r.2.2 (b.stream.take n) (b.stream.drop n) ∧
      Allocated b n r.1 r.2.2 := by
  obtain ⟨hE, hO⟩ := buf_read_spec hb hn (alignable_TEXT A)
  cases hread : b.buf_read A n TEXT with
  | error e =>
    have hoom := hE e hread
    obtain ⟨_, _, _, rfl⟩ := id hoom
    intro hmem
    exact not_out_of_memory hmem hoom
  | ok r =>
    obtain ⟨ptr, count, b'⟩ := r
    exact ⟨(hO ptr count b' hread).1, buf_read_loop_allocated hn _ b hb ptr count b' hread⟩

end IoBuf

end VW
