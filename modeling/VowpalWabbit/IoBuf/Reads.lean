import VowpalWabbit.IoBuf.Stream

/-! # Specifications of `buf_read` and `readto`

    One specification lemma for each read: what it returns is a prefix of the
    stream, what stays is the rest, and the only exception is a failed
    `realloc`. The induction is on the bound of the recursion; the stream is
    its invariant, and every retry uses up a byte of a file or a file.
-/

open Cpp Nat

namespace VW

open List

/-- Requests of up to `m` bytes are granted. -/
def Allocator.Provides (A : Allocator) (m : Nat) : Prop := ∀ k ≤ m, A.realloc k ≠ none

variable {n : Nat}

theorem Allocator.Provides.mono {A : Allocator} {m : Nat} (h : A.Provides n) (hle : m ≤ n) :
    A.Provides m := by
  intro k hk
  exact h k (hk.trans hle)

/-- Memory for twice the bytes is less than the address space. -/
theorem Allocator.Provides.lt {A : Allocator} (h : A.Provides (2 * n)) : n < 2 ^ 63 := by
  cases hp : A.realloc (2 * n) with
  | none => exact absurd hp (h _ (le_refl _))
  | some p =>
    have := A.realloc_fits hp
    omega

namespace IoBuf

variable {A : Allocator} {b b' : IoBuf}

theorem not_out_of_memory {limit : Nat} {e : Failure}
    (h : A.Provides limit) : ¬ out_of_memory A limit e := by
  rintro ⟨n, hn, hr, _⟩
  exact h n hn hr

/-! ## Looking for more bytes -/

theorem next_file_spec (hb : b.Wf A) (hdone : b.current < b.input_files.length →
      b.pending = (b.input_files.drop (b.current + 1)).flatMap Reader.data) :
    b.next_file.2.Wf A ∧ b.next_file.2.unread = b.unread ∧ b.next_file.2.stream = b.stream ∧
    (b.next_file.1 = true → b.next_file.2.retries < b.retries) ∧
    (b.next_file.1 = false → b.next_file.2.pending = []) := by
  have hpend : b.next_file.2.pending = b.pending := by
    by_cases hcur : b.current < b.input_files.length
    · exact (hdone hcur).symm
    · have h1 : b.input_files.drop b.current = [] := drop_eq_nil_of_le (by omega)
      have h2 : b.input_files.drop (b.current + 1) = [] := drop_eq_nil_of_le (by omega)
      simp [next_file, pending, h1, h2]
  refine ⟨⟨hb.ordered, hb.mem_length, hb.capacity_pos, hb.fits, hb.aligned, hb.faithful⟩, rfl,
    ?_, fun h => ?_, fun h => ?_⟩
  · rw [stream, hpend]
    rfl
  · simp only [next_file, decide_eq_true_eq] at h
    simp only [next_file, retries, undelivered]
    omega
  · simp only [next_file, decide_eq_false_iff_not, not_lt] at h
    simp [next_file, pending, drop_eq_nil_of_le h]

theorem refill_spec (hb : b.Wf A) :
    (∀ e, b.refill A = .error e → out_of_memory A (2 * b.buffer.size) e) ∧
    ∀ more b', b.refill A = .ok (more, b') →
      b'.Wf A ∧ b'.stream = b.stream ∧
      (more = true → b'.retries < b.retries) ∧
      (more = false → b'.unread = b.unread ∧ b'.stream = b'.unread) ∧
      b'.head = b'.buffer.begin_ + (b.head - b.buffer.begin_) ∧
      b'.verify_hash = b.verify_hash ∧ b'.hash = b.hash := by
  by_cases hcur : b.current < b.input_files.length
  · obtain ⟨hoom, hok⟩ := fill_spec hb hcur
    cases hfill : b.fill A with
    | error e =>
      have heq : b.refill A = .error e := by simp [refill, hcur, hfill]
      rw [heq]
      refine ⟨fun e' he => ?_, fun more b' h => by cases h⟩
      cases he
      exact hoom e hfill
    | ok res =>
      obtain ⟨num_read, b₁⟩ := res
      obtain ⟨hwf, hstr, hc, hlen, hund, hzero, hbeg, hvh, hh⟩ := hok num_read b₁ hfill
      by_cases hpos : 0 < num_read
      · have heq : b.refill A = .ok (true, b₁) := by simp [refill, hcur, hfill, hpos]
        rw [heq]
        refine ⟨fun e' he => (by cases he), fun more b' h => ?_⟩
        cases h
        refine ⟨hwf, hstr, fun _ => ?_, fun h => by simp at h, hbeg, hvh, hh⟩
        simp only [retries, hc, hlen]
        omega
      · have h0 : num_read = 0 := by omega
        obtain ⟨hun, hpend⟩ := hzero h0
        have heq : b.refill A = .ok b₁.next_file := by simp [refill, hcur, hfill, hpos]
        obtain ⟨hwf', hun', hstr', hret, hdone⟩ := next_file_spec hwf (fun _ => hpend)
        rw [heq]
        refine ⟨fun e' he => (by cases he), fun more b' h => ?_⟩
        have hm : b₁.next_file.1 = more := congrArg Prod.fst (Except.ok.inj h)
        have hb' : b₁.next_file.2 = b' := congrArg Prod.snd (Except.ok.inj h)
        subst hb'
        refine ⟨hwf', hstr'.trans hstr, fun h => ?_, fun h => ⟨hun'.trans hun, ?_⟩, hbeg, hvh, hh⟩
        · have hlt := hret (hm.trans h)
          have hle : b₁.retries = b.retries := by
            simp only [retries, hc, hlen]
            omega
          omega
        · rw [stream, hdone (hm.trans h), append_nil]
  · have heq : b.refill A = .ok b.next_file := by simp [refill, hcur]
    obtain ⟨hwf', hun', hstr', hret, hdone⟩ := next_file_spec hb (fun h => absurd h hcur)
    rw [heq]
    refine ⟨fun e' he => (by cases he), fun more b' h => ?_⟩
    have hm : b.next_file.1 = more := congrArg Prod.fst (Except.ok.inj h)
    have hb' : b.next_file.2 = b' := congrArg Prod.snd (Except.ok.inj h)
    subst hb'
    refine ⟨hwf', hstr', fun h => hret (hm.trans h), fun h => ⟨hun', ?_⟩, ?_, rfl, rfl⟩
    · rw [stream, hdone (hm.trans h), append_nil]
    · exact (add_sub_of_le hb.ordered.1).symm

/-! ## `buf_read` -/

/-- Taking `n` of the loaded bytes. -/
theorem take_loaded (hb : b.Wf A) (h : b.head + n ≤ b.buffer.end_) :
    Delivers A b b.head n { b with head := b.head + n } (b.stream.take n) (b.stream.drop n) := by
  obtain ⟨h1, h2, h3⟩ := hb.ordered
  have hlen := hb.length_unread
  have hle : n ≤ b.unread.length := by omega
  have htake : b.stream.take n = b.unread.take n := by
    rw [stream, take_append_of_le_length hle]
  have hdrop : b.stream.drop n = b.unread.drop n ++ b.pending := by
    rw [stream, drop_append_of_le_length hle]
  refine ⟨⟨⟨?_, h, h3⟩, hb.mem_length, hb.capacity_pos, hb.fits, hb.aligned, hb.faithful⟩,
    ?_, ?_, h1, rfl, ?_, rfl, rfl⟩
  · show b.buffer.begin_ ≤ b.head + n
    omega
  · rw [htake]
    exact bytes_at_head hb n hle
  · rw [htake, length_take, min_eq_left hle]
  · rw [hdrop, stream, unread_advance b n h1]
    rfl

/-- Taking all there is, when the files are used up. -/
theorem take_rest (hb : b.Wf A) (hdone : b.stream = b.unread) :
    Delivers A b b.head (b.buffer.end_ - b.head) { b with head := b.buffer.end_ } b.stream [] := by
  obtain ⟨h1, h2, h3⟩ := hb.ordered
  have hpend : b.pending = [] := by
    rw [stream] at hdone
    exact append_right_eq_self.mp hdone
  refine ⟨⟨⟨h1.trans h2, le_refl _, h3⟩, hb.mem_length, hb.capacity_pos, hb.fits, hb.aligned,
    hb.faithful⟩, ?_, ?_, h1, ?_, ?_, rfl, rfl⟩
  · rw [hdone]
    rfl
  · rw [hdone, hb.length_unread]
  · show b.head + (b.buffer.end_ - b.head) = b.buffer.end_
    omega
  · rw [stream, unread_head_end]
    exact hpend

theorem Delivers.of_stream (b₀ : IoBuf) {ptr count : Nat} {bs rest : List Byte}
    (h : Delivers A b ptr count b' bs rest)
    (hhash : b.verify_hash = b₀.verify_hash ∧ b.hash = b₀.hash) :
    Delivers A b₀ ptr count b' bs rest :=
  ⟨h.wf, h.bytes, h.count_eq, h.begin_le, h.head_eq, h.stream_eq,
    h.hash_eq.1.trans hhash.1, h.hash_eq.2.trans hhash.2⟩

variable {align : DesiredAlign}

/-- A head that is not aligned is behind the position the data is moved to. -/
theorem Placed.guard {align : DesiredAlign} (ha : b.Placed A align) (hb : b.Wf A)
    (hal : align.is_aligned b.head ≠ true) : b.buffer.begin_ + align.offset < b.head := by
  refine lt_of_le_of_ne ha.behind fun h => hal ?_
  rw [← h]
  exact ha.aligned_front hb.aligned

theorem buf_read_loop_spec (hn : n < 2 ^ 63) (fuel : Nat) :
    ∀ b : IoBuf, b.Wf A → b.Placed A align → b.retries < fuel →
      (∀ e, buf_read_loop A n align fuel b = .error e →
        out_of_memory A (2 * (n + align.offset)) e) ∧
      ∀ ptr count b', buf_read_loop A n align fuel b = .ok (ptr, count, b') →
        Delivers A b ptr count b' (b.stream.take n) (b.stream.drop n) ∧
        align.is_aligned ptr = true := by
  induction fuel with
  | zero => intro b _ _ h; exact absurd h (not_lt_zero _)
  | succ fuel ih =>
    intro b hb ha hfuel
    obtain ⟨h1, h2, h3⟩ := hb.ordered
    have hfits := hb.fits
    have hmod : ptr_add b.head n = b.head + n := ptr_add_of_lt (by omega)
    by_cases hfast : b.head + n ≤ b.buffer.end_
    · -- The bytes are loaded: they are taken where they are, or after a move.
      by_cases hal : align.is_aligned b.head = true
      · have heq : buf_read_loop A n align (fuel + 1) b
            = .ok (b.head, n, { b with head := b.head + n }) := by
          simp [buf_read_loop, hmod, hfast, hal]
        rw [heq]
        refine ⟨fun e he => (by cases he), fun ptr count b' h => ?_⟩
        cases h
        exact ⟨take_loaded hb hfast, hal⟩
      · have hguard := ha.guard hb hal
        obtain ⟨hwf, hun, hhead, hbeg⟩ := shift_placed_spec hb ha
        have hlen := hb.length_unread
        have hlen' := hwf.length_unread
        have hord' := hwf.ordered
        have hfast' : (b.shift_to_front align).head + n ≤ (b.shift_to_front align).buffer.end_ := by
          rw [hun] at hlen'
          unfold Ordered at hord'
          omega
        have hmod' : ptr_add (b.shift_to_front align).head n
            = (b.shift_to_front align).head + n := by
          have := hwf.fits
          unfold Ordered at hord'
          exact ptr_add_of_lt (by omega)
        have hstr : (b.shift_to_front align).stream = b.stream := by
          rw [stream, hun]
          rfl
        have heq : buf_read_loop A n align (fuel + 1) b
            = .ok ((b.shift_to_front align).head, n,
                { b.shift_to_front align with head := (b.shift_to_front align).head + n }) := by
          simp [buf_read_loop, hmod, hfast, hal, hguard, hmod']
        rw [heq]
        refine ⟨fun e he => (by cases he), fun ptr count b' h => ?_⟩
        cases h
        refine ⟨?_, ?_⟩
        · have := (take_loaded hwf hfast').of_stream b ⟨rfl, rfl⟩
          rwa [hstr] at this
        · rw [hhead]
          exact ha.aligned_front hwf.aligned
    · -- Out of bytes: move the rest to the front, look for more, try again.
      obtain ⟨hwf, hun, hhead, hfiles, hc, hvh, hh⟩ := shift_if_placed_spec hb ha
      set b₁ := if b.head ≠ b.buffer.begin_ then b.shift_to_front align else b with hb₁
      have hstr : b₁.stream = b.stream := by simp only [stream, hun, pending, hfiles, hc]
      have hret : b₁.retries = b.retries := by simp only [retries, undelivered, hfiles, hc]
      have heq : buf_read_loop A n align (fuel + 1) b = (b₁.refill A >>= fun r =>
          if r.1 then buf_read_loop A n align fuel r.2 else r.2.final_read align) := by
        simp [buf_read_loop, hmod, hfast, hb₁]
      obtain ⟨hoom, hok⟩ := refill_spec hwf
      have hsize : b₁.buffer.size = b.unread.length + align.offset := by
        have hord := hwf.ordered.2.1
        rw [← hun, hwf.length_unread, InternalBuffer.size]
        omega
      rw [heq]
      cases hrefill : b₁.refill A with
      | error e =>
        constructor
        · intro e' he
          cases he
          exact out_of_memory_mono (by rw [hsize, hb.length_unread]; omega) (hoom e hrefill)
        · intro ptr count b' h
          cases h
      | ok res =>
        obtain ⟨more, b₂⟩ := res
        obtain ⟨hwf₂, hstr₂, htrue, hfalse, hbeg₂, hvh₂, hh₂⟩ := hok more b₂ hrefill
        have hhash : b₂.verify_hash = b.verify_hash ∧ b₂.hash = b.hash :=
          ⟨hvh₂.trans hvh, hh₂.trans hh⟩
        -- The head is at the front, wherever the buffer lies now.
        have hhead₂ : b₂.head = b₂.buffer.begin_ + align.offset := by
          rw [hbeg₂, hhead, Nat.add_sub_cancel_left]
        have hal₂ : align.is_aligned b₂.head = true := by
          rw [hhead₂]
          exact ha.aligned_front hwf₂.aligned
        cases more with
        | true =>
          have hplaced₂ : b₂.Placed A align := ⟨ha.toProvided, hhead₂.ge⟩
          obtain ⟨hE, hO⟩ := ih b₂ hwf₂ hplaced₂ (by have := htrue rfl; omega)
          simp only [Outcome.ok_bind, if_true]
          refine ⟨hE, fun ptr count b' h => ?_⟩
          obtain ⟨hd, hal⟩ := hO ptr count b' h
          rw [hstr₂, hstr] at hd
          exact ⟨hd.of_stream _ hhash, hal⟩
        | false =>
          obtain ⟨hun₂, hdone⟩ := hfalse rfl
          have hshort : b.stream.length ≤ n := by
            rw [← hstr, ← hstr₂, hdone, hun₂, hun, hb.length_unread]
            omega
          have hfin : b₂.final_read align
              = .ok (b₂.head, b₂.buffer.end_ - b₂.head, { b₂ with head := b₂.buffer.end_ }) := by
            simp [final_read, hal₂]
          simp only [Outcome.ok_bind, Bool.false_eq_true, if_false, hfin]
          refine ⟨fun e he => (by cases he), fun ptr count b' h => ?_⟩
          cases h
          refine ⟨?_, hal₂⟩
          have := (take_rest hwf₂ hdone).of_stream _ hhash
          rw [hstr₂, hstr] at this
          rwa [take_of_length_le hshort, drop_eq_nil_of_le hshort]

/-- `buf_read` hands out the next `n` bytes of the stream, or what is left of
    it, at an aligned address; the only exception is a failed `realloc`. -/
theorem buf_read_placed_spec (hb : b.Wf A) (hn : n < 2 ^ 63) (ha : b.Placed A align) :
    (∀ e, b.buf_read A n align = .error e → out_of_memory A (2 * (n + align.offset)) e) ∧
    ∀ ptr count b', b.buf_read A n align = .ok (ptr, count, b') →
      Delivers A b ptr count b' (b.stream.take n) (b.stream.drop n) ∧
      align.is_aligned ptr = true :=
  buf_read_loop_spec hn (b.retries + 1) b hb ha (lt_succ_self _)

/-- At an alignment without an offset that is so from any buffer, and the `realloc` is of at
    most `2 * n` bytes. -/
theorem buf_read_spec (hb : b.Wf A) (hn : n < 2 ^ 63) (ha : Alignable A align) :
    (∀ e, b.buf_read A n align = .error e → out_of_memory A (2 * n) e) ∧
    ∀ ptr count b', b.buf_read A n align = .ok (ptr, count, b') →
      Delivers A b ptr count b' (b.stream.take n) (b.stream.drop n) ∧
      align.is_aligned ptr = true := by
  have h := buf_read_placed_spec hb hn (ha.placed hb)
  rwa [ha.1, add_zero] at h

/-! ### Alignments with an offset -/

/-- A head before the offset of the front, from which the data would go to the right: the read
    finds its bytes loaded, or there is nothing to move, and room for the offset. -/
def Shifts (align : DesiredAlign) (n : Nat) (b : IoBuf) : Prop :=
  b.buffer.begin_ < b.head → b.head < b.buffer.begin_ + align.offset →
    b.buffer.end_ < b.head + n →
    b.head = b.buffer.end_ ∧ b.buffer.begin_ + align.offset ≤ b.buffer.end_array

def cannot_be_aligned : Failure := .exception "io_buf cannot be aligned to desired alignment"

section Offset

variable {align : DesiredAlign} {n : Nat} (ha : Provided A align)

include ha

theorem Provided.not_aligned (hb : b.Wf A) (hlt : b.head < b.buffer.begin_ + align.offset) :
    align.is_aligned b.head ≠ true := by
  intro hal
  have hmod : b.buffer.begin_ % align.align = 0 :=
    mod_eq_zero_of_dvd (ha.dvd.trans hb.aligned)
  have hle := hb.ordered.1
  have hoffset := ha.offset_lt
  obtain ⟨k, hk⟩ := Nat.exists_eq_add_of_le hle
  rw [DesiredAlign.is_aligned, beq_iff_eq, hk, add_mod, hmod, zero_add, mod_mod,
    mod_eq_of_lt (by omega)] at hal
  omega

/-- From the front of the buffer nothing is moved, and the head stays where it is. -/
theorem Provided.throws (h0 : align.offset ≠ 0) (hn : n < 2 ^ 63) (fuel : Nat) :
    ∀ b : IoBuf, b.Wf A → b.head = b.buffer.begin_ → b.retries < fuel →
      ∃ e, buf_read_loop A n align fuel b = .error e ∧
        (out_of_memory A (2 * n) e ∨ e = cannot_be_aligned) := by
  induction fuel with
  | zero => exact fun b _ _ h => absurd h (not_lt_zero _)
  | succ fuel ih =>
    intro b hb hfront hfuel
    have hfits := hb.fits
    obtain ⟨h1, h2, h3⟩ := hb.ordered
    have hmod : ptr_add b.head n = b.head + n := ptr_add_of_lt (by omega)
    by_cases hfast : b.head + n ≤ b.buffer.end_
    · refine ⟨cannot_be_aligned, ?_, .inr rfl⟩
      have hal := ha.not_aligned hb (by omega)
      rw [buf_read_loop, if_pos (by omega), if_neg hal, if_neg (by omega)]
      rfl
    · obtain ⟨hoom, hok⟩ := refill_spec hb
      have heq : buf_read_loop A n align (fuel + 1) b = (b.refill A >>= fun r =>
          if r.1 then buf_read_loop A n align fuel r.2 else r.2.final_read align) := by
        rw [buf_read_loop, if_neg (by omega), if_neg (not_not.mpr hfront)]
      rw [heq]
      cases hrefill : b.refill A with
      | error e =>
        refine ⟨e, rfl, .inl (out_of_memory_mono ?_ (hoom e hrefill))⟩
        rw [InternalBuffer.size]
        omega
      | ok res =>
        obtain ⟨more, b₂⟩ := res
        obtain ⟨hwf₂, -, htrue, -, hbeg₂, -⟩ := hok more b₂ hrefill
        have hfront₂ : b₂.head = b₂.buffer.begin_ := by omega
        cases more with
        | true => exact ih b₂ hwf₂ hfront₂ (by have := htrue rfl; omega)
        | false =>
          have hal := ha.not_aligned hwf₂ (by omega)
          refine ⟨cannot_be_aligned, ?_, .inr rfl⟩
          show b₂.final_read align = _
          rw [final_read, if_pos (by simpa using hal)]
          rfl

/-- A buffer from which all has been read begins anew at the offset. -/
theorem Provided.from_offset (hb : b.Wf A) (hlt : b.buffer.begin_ < b.head)
    (hend : b.head = b.buffer.end_) (hoffset : b.head < b.buffer.begin_ + align.offset)
    (hroom : b.buffer.begin_ + align.offset ≤ b.buffer.end_array) (hn : n < 2 ^ 63)
    (hpos : 0 < n) :
    ∃ b₁ : IoBuf, b₁.Placed A align ∧ b₁.Wf A ∧ b₁.stream = b.stream ∧
      b₁.verify_hash = b.verify_hash ∧ b₁.hash = b.hash ∧
      b₁.buf_read A n align = b.buf_read A n align := by
  let b₁ := { b with
    buffer := { b.buffer with end_ := b.buffer.begin_ + align.offset }
    head := b.buffer.begin_ + align.offset }
  have hpad : InternalBuffer.required_padding b.buffer.begin_ align = align.offset :=
    ha.required_padding hb
  have hfits := hb.fits
  have hshift : b.shift_to_front align = b₁ := by
    simp [shift_to_front, InternalBuffer.shift_to_front, hpad, hend, b₁]
  have hshift₁ : b₁.shift_to_front align = b₁ := by
    simp [shift_to_front, InternalBuffer.shift_to_front, hpad, b₁]
  have hunread : b.unread = [] := by simp [unread, InternalBuffer.bytes_at, hend]
  refine ⟨b₁, ⟨ha, le_refl _⟩, ⟨⟨le_add_right _ _, le_refl _, hroom⟩, hb.mem_length,
    hb.capacity_pos, hb.fits, hb.aligned, hb.faithful⟩, ?_, rfl, rfl, ?_⟩
  · rw [stream, stream, hunread, unread_head_end b₁]
    rfl
  · -- both go on from the offset
    have hloop (c : IoBuf) (hslow : ¬ ptr_add c.head n ≤ c.buffer.end_)
        (hne : c.head ≠ c.buffer.begin_) (hc : c.shift_to_front align = b₁) (fuel : Nat) :
        buf_read_loop A n align (fuel + 1) c = (b₁.refill A >>= fun r =>
          if r.1 then buf_read_loop A n align fuel r.2 else r.2.final_read align) := by
      rw [buf_read_loop, if_neg hslow, if_pos hne, hc]
    have hhead : b₁.head = b.buffer.begin_ + align.offset := rfl
    have hend₁ : b₁.buffer.end_ = b.buffer.begin_ + align.offset := rfl
    have hbegin : b₁.buffer.begin_ = b.buffer.begin_ := rfl
    unfold buf_read
    rw [hloop b (by rw [ptr_add_of_lt (by omega)]; omega) (by omega) hshift,
      hloop b₁ (by rw [ptr_add_of_lt (by omega)]; omega) (by omega) hshift₁]
    rfl

/-- A read at an alignment with an offset throws or hands out the next bytes, unless the data
    would have to go to the right. -/
theorem Provided.buf_read_spec (hb : b.Wf A) (hn : n < 2 ^ 63) (hshifts : b.Shifts align n) :
    (∀ e, b.buf_read A n align = .error e →
      out_of_memory A (2 * (n + align.offset)) e ∨ e = cannot_be_aligned) ∧
    ∀ ptr count b', b.buf_read A n align = .ok (ptr, count, b') →
      Delivers A b ptr count b' (b.stream.take n) (b.stream.drop n) ∧
      align.is_aligned ptr = true := by
  by_cases hbehind : b.buffer.begin_ + align.offset ≤ b.head
  · obtain ⟨hE, hO⟩ := buf_read_placed_spec hb hn (⟨ha, hbehind⟩ : b.Placed A align)
    exact ⟨fun e he => .inl (hE e he), hO⟩
  have hlt := Nat.lt_of_not_le hbehind
  have hfits := hb.fits
  obtain ⟨h1, h2, h3⟩ := hb.ordered
  by_cases hfront : b.head = b.buffer.begin_
  · obtain ⟨e, heq, he⟩ := ha.throws (by omega) hn _ b hb hfront (lt_succ_self b.retries)
    rw [buf_read, heq]
    refine ⟨fun e' he' => ?_, fun ptr count b' h => by cases h⟩
    cases he'
    exact he.imp_left (out_of_memory_mono (by omega))
  by_cases hfast : b.head + n ≤ b.buffer.end_
  · have hmod : ptr_add b.head n = b.head + n := ptr_add_of_lt (by omega)
    have hal := ha.not_aligned hb hlt
    rw [buf_read, buf_read_loop, if_pos (by omega), if_neg hal, if_neg (by omega)]
    refine ⟨fun e he => .inr ?_, fun ptr count b' h => by cases h⟩
    cases he
    rfl
  · obtain ⟨hend, hroom⟩ := hshifts (by omega) hlt (by omega)
    obtain ⟨b₁, hplaced, hwf, hstream, hvh, hh, hread⟩ :=
      ha.from_offset hb (by omega) hend hlt hroom hn (by omega)
    obtain ⟨hE, hO⟩ := buf_read_placed_spec hwf hn hplaced
    rw [← hread]
    refine ⟨fun e he => .inl (hE e he), fun ptr count b' h => ?_⟩
    obtain ⟨hd, hal⟩ := hO ptr count b' h
    rw [hstream] at hd
    exact ⟨hd.of_stream b ⟨hvh, hh⟩, hal⟩

end Offset

theorem buf_read_ok (hb : b.Wf A) (hn : n < 2 ^ 63) (ha : Alignable A align)
    (hmem : A.Provides (2 * n)) :
    ∃ ptr count b', b.buf_read A n align = .ok (ptr, count, b') ∧
      Delivers A b ptr count b' (b.stream.take n) (b.stream.drop n) := by
  obtain ⟨hE, hO⟩ := buf_read_spec hb hn ha
  cases h : b.buf_read A n align with
  | error e => exact absurd (hE e h) (not_out_of_memory hmem)
  | ok r =>
    obtain ⟨ptr, count, b'⟩ := r
    exact ⟨ptr, count, b', rfl, (hO ptr count b' h).1⟩

/-! ## `readto` -/

/-- What `readto` is to return: everything up to and including the first
    `terminal`, or everything. -/
def upto (terminal : Byte) (bs : List Byte) : List Byte :=
  bs.take ((bs.takeWhile (· ≠ terminal)).length + 1)

theorem takeWhile_append_of_lt {p : Byte → Bool} {xs ys : List Byte}
    (h : (xs.takeWhile p).length < xs.length) :
    (xs ++ ys).takeWhile p = xs.takeWhile p := by
  rw [takeWhile_append, if_neg (Nat.ne_of_lt h)]

theorem readto_loop_spec (terminal : Byte) (fuel : Nat) :
    ∀ b : IoBuf, b.Wf A → b.retries < fuel →
      (∀ e, readto_loop A terminal fuel b = .error e →
        out_of_memory A (2 * b.stream.length) e) ∧
      ∀ ptr count b', readto_loop A terminal fuel b = .ok (ptr, count, b') →
        Delivers A b ptr count b' (upto terminal b.stream)
          (b.stream.drop (upto terminal b.stream).length) := by
  induction fuel with
  | zero => intro b _ h; exact absurd h (not_lt_zero _)
  | succ fuel ih =>
    intro b hb hfuel
    obtain ⟨h1, h2, h3⟩ := hb.ordered
    have hlen := hb.length_unread
    have hscan : b.scan terminal = (b.unread.takeWhile (· ≠ terminal)).length := rfl
    have hle : b.scan terminal ≤ b.unread.length := by
      rw [hscan]
      exact (takeWhile_sublist _).length_le
    by_cases hfound : b.head + b.scan terminal ≠ b.buffer.end_
    · -- The terminal is among the loaded bytes.
      have hlt : b.scan terminal < b.unread.length := by omega
      have hupto : upto terminal b.stream = b.stream.take (b.scan terminal + 1) := by
        rw [upto, stream, takeWhile_append_of_lt (by rwa [← hscan]), hscan]
      have hcount : (b.stream.take (b.scan terminal + 1)).length = b.scan terminal + 1 := by
        rw [length_take, stream, length_append]
        omega
      have heq : readto_loop A terminal (fuel + 1) b = .ok (b.head, b.scan terminal + 1,
          { b with head := b.head + (b.scan terminal + 1) }) := by
        simp [readto_loop, hfound, add_assoc]
      rw [heq, hupto, hcount]
      constructor
      · intro e he
        cases he
      · intro ptr count b' h
        cases h
        exact take_loaded hb (by omega)
    · -- Not found: the search starts again with more bytes.
      have hall : b.scan terminal = b.unread.length := by omega
      obtain ⟨hwf, hun, hhead, hfiles, hc, hvh, hh⟩ := shift_if_spec hb (alignable_TEXT A)
      set b₁ := if b.head ≠ b.buffer.begin_ then b.shift_to_front TEXT else b with hb₁
      have hstr : b₁.stream = b.stream := by simp only [stream, hun, pending, hfiles, hc]
      have hret : b₁.retries = b.retries := by simp only [retries, undelivered, hfiles, hc]
      have hset : (if b.head ≠ b.buffer.begin_ then
          { b.shift_to_front TEXT with head := (b.shift_to_front TEXT).buffer.begin_ } else b)
            = b₁ := by
        by_cases hne : b.head = b.buffer.begin_
        · simp [hb₁, hne]
        · have := (shift_to_front_spec hb (alignable_TEXT A)).2.2
          simp [hb₁, hne, ← this]
      have heq : readto_loop A terminal (fuel + 1) b = (b₁.refill A >>= fun r =>
          if r.1 then readto_loop A terminal fuel r.2
          else .ok (r.2.head, r.2.buffer.end_ - r.2.head,
            { r.2 with head := r.2.buffer.end_ })) := by
        rw [readto_loop]
        simp only [hfound, if_false, hset]
      obtain ⟨hoom, hok⟩ := refill_spec hwf
      have hsize : b₁.buffer.size = b.unread.length := by
        rw [← hun, hwf.length_unread, InternalBuffer.size, hhead]
      rw [heq]
      cases hrefill : b₁.refill A with
      | error e =>
        constructor
        · intro e' he
          cases he
          exact out_of_memory_mono (by rw [hsize, stream, length_append]; omega)
            (hoom e hrefill)
        · intro ptr count b' h
          cases h
      | ok res =>
        obtain ⟨more, b₂⟩ := res
        obtain ⟨hwf₂, hstr₂, htrue, hfalse, hbeg₂, hvh₂, hh₂⟩ := hok more b₂ hrefill
        have hhash : b₂.verify_hash = b.verify_hash ∧ b₂.hash = b.hash :=
          ⟨hvh₂.trans hvh, hh₂.trans hh⟩
        cases more with
        | true =>
          obtain ⟨hE, hO⟩ := ih b₂ hwf₂ (by have := htrue rfl; omega)
          simp only [Outcome.ok_bind, if_true]
          constructor
          · rwa [hstr₂, hstr] at hE
          · intro ptr count b' h
            have hd := hO ptr count b' h
            rw [hstr₂, hstr] at hd
            exact hd.of_stream _ hhash
        | false =>
          obtain ⟨hun₂, hdone⟩ := hfalse rfl
          have hstream : b.stream = b.unread := by
            rw [← hstr, ← hstr₂, hdone, hun₂, hun]
          have hupto : upto terminal b.stream = b.stream := by
            rw [upto, hstream, ← hscan, hall]
            exact take_of_length_le (le_succ _)
          simp only [Outcome.ok_bind, Bool.false_eq_true, if_false]
          constructor
          · intro e he
            cases he
          · intro ptr count b' h
            cases h
            have hd := (take_rest hwf₂ hdone).of_stream _ hhash
            rw [hstr₂, hstr] at hd
            rwa [hupto, drop_length]

/-- `readto` hands out the stream up to and including the next `terminal`, or
    all of it; the only exception is a failed `realloc`. -/
theorem readto_spec (hb : b.Wf A) (terminal : Byte) :
    (∀ e, b.readto A terminal = .error e → out_of_memory A (2 * b.stream.length) e) ∧
    ∀ ptr count b', b.readto A terminal = .ok (ptr, count, b') →
      Delivers A b ptr count b' (upto terminal b.stream)
        (b.stream.drop (upto terminal b.stream).length) :=
  readto_loop_spec terminal (b.retries + 1) b hb (lt_succ_self _)

end IoBuf

end VW
