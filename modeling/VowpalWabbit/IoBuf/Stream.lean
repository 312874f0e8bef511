import VowpalWabbit.IoBuf.Basic
import Mathlib.Tactic

/-! # Reads refine a byte stream

    What an `io_buf` is for: `stream b` is the sequence of bytes still to
    come, the loaded ones followed by those of the files. Every operation of
    the read side is specified by what it does to this sequence, and `Wf` is
    the invariant it keeps.
-/

open Cpp Nat

namespace VW

open List InternalBuffer

/-! ## Memory lemmas -/

namespace InternalBuffer

theorem length_bytes_at (b : InternalBuffer) (ptr n : Nat) :
    (b.bytes_at ptr n).length = min n (b.mem.length - (ptr - b.begin_)) := by
  simp [bytes_at]

@[simp] theorem store_begin (b : InternalBuffer) (dst : Nat) (bs : List Byte) :
    (b.store dst bs).begin_ = b.begin_ := rfl

@[simp] theorem store_end (b : InternalBuffer) (dst : Nat) (bs : List Byte) :
    (b.store dst bs).end_ = b.end_ := rfl

@[simp] theorem store_end_array (b : InternalBuffer) (dst : Nat) (bs : List Byte) :
    (b.store dst bs).end_array = b.end_array := rfl

theorem length_store (b : InternalBuffer) (dst : Nat) (bs : List Byte)
    (h : dst - b.begin_ + bs.length ≤ b.mem.length) :
    (b.store dst bs).mem.length = b.mem.length := by
  simp [store]
  omega

/-- Appending to a window that ends where the store begins. -/
theorem bytes_at_store_end (b : InternalBuffer) (ptr dst : Nat) (bs : List Byte)
    (hptr : b.begin_ ≤ ptr) (hle : ptr ≤ dst)
    (hfit : dst - b.begin_ + bs.length ≤ b.mem.length) :
    (b.store dst bs).bytes_at ptr (dst - ptr + bs.length) = b.bytes_at ptr (dst - ptr) ++ bs := by
  have hlen : (b.mem.take (dst - b.begin_)).length = dst - b.begin_ := by
    simp; omega
  have hd : ptr - b.begin_ ≤ (b.mem.take (dst - b.begin_)).length := by omega
  have hwin : (b.mem.drop (ptr - b.begin_)).take (dst - ptr)
      = (b.mem.take (dst - b.begin_)).drop (ptr - b.begin_) := by
    rw [drop_take]
    congr 1
    omega
  have hwl : ((b.mem.take (dst - b.begin_)).drop (ptr - b.begin_) ++ bs).length
      = dst - ptr + bs.length := by
    simp; omega
  simp only [bytes_at, store, append_assoc]
  rw [drop_append_of_le_length hd, ← append_assoc, ← hwl, take_left, hwin]

/-- Reading back what was stored. -/
theorem bytes_at_store (b : InternalBuffer) (dst : Nat) (bs : List Byte)
    (h : dst - b.begin_ ≤ b.mem.length) : (b.store dst bs).bytes_at dst bs.length = bs := by
  have hlen : (b.mem.take (dst - b.begin_)).length = dst - b.begin_ := by
    rw [length_take, min_eq_left h]
  simp only [bytes_at, store, append_assoc]
  rw [drop_left' hlen, take_left]

end InternalBuffer

namespace IoBuf

/-! ## The abstraction and the invariant -/

/-- The loaded bytes that have not been read. -/
def unread (b : IoBuf) : List Byte := b.buffer.bytes_at b.head (b.buffer.end_ - b.head)

/-- The bytes of the current file and of those after it. -/
def pending (b : IoBuf) : List Byte := (b.input_files.drop b.current).flatMap Reader.data

/-- The bytes still to come. -/
def stream (b : IoBuf) : List Byte := b.unread ++ b.pending

/-- The order of the pointers that the header of `io_buf.h` draws. -/
def Ordered (b : IoBuf) : Prop :=
  b.buffer.begin_ ≤ b.head ∧ b.head ≤ b.buffer.end_ ∧ b.buffer.end_ ≤ b.buffer.end_array

/-- Invariant of the read side. -/
structure Wf (A : Allocator) (b : IoBuf) : Prop where
  ordered : b.Ordered
  mem_length : b.buffer.mem.length = b.buffer.end_array - b.buffer.begin_
  capacity_pos : b.buffer.begin_ < b.buffer.end_array
  fits : b.buffer.end_array ≤ 2 ^ 63
  aligned : 2 ^ A.align_exp ∣ b.buffer.begin_
  faithful : ∀ f ∈ b.input_files, f.Faithful

variable {A : Allocator} {b b' : IoBuf}

theorem Wf.length_unread (hb : b.Wf A) : b.unread.length = b.buffer.end_ - b.head := by
  obtain ⟨h1, h2, h3⟩ := hb.ordered
  have hm := hb.mem_length
  rw [unread, length_bytes_at]
  omega

theorem unread_head_end (b : IoBuf) : ({ b with head := b.buffer.end_ } : IoBuf).unread = [] := by
  simp [unread, InternalBuffer.bytes_at]

/-- Advancing the head inside the loaded bytes reads them. -/
theorem unread_advance (b : IoBuf) (n : Nat) (hbegin : b.buffer.begin_ ≤ b.head) :
    ({ b with head := b.head + n } : IoBuf).unread = b.unread.drop n := by
  simp only [unread, InternalBuffer.bytes_at, drop_take, drop_drop]
  congr 1
  · omega
  · congr 1
    omega

theorem bytes_at_head (hb : b.Wf A) (n : Nat) (h : n ≤ b.unread.length) :
    b.buffer.bytes_at b.head n = b.unread.take n := by
  rw [hb.length_unread] at h
  simp only [unread, InternalBuffer.bytes_at, take_take, min_eq_left h]

/-- A call of the read side handed out `bs`, which lie at `[ptr, ptr + count)`,
    and left `rest` to come. -/
structure Delivers (A : Allocator) (b : IoBuf) (ptr count : Nat) (b' : IoBuf)
    (bs rest : List Byte) : Prop where
  wf : b'.Wf A
  bytes : b'.buffer.bytes_at ptr count = bs
  count_eq : count = bs.length
  begin_le : b'.buffer.begin_ ≤ ptr
  head_eq : ptr + count = b'.head
  stream_eq : b'.stream = rest
  hash_eq : b'.verify_hash = b.verify_hash ∧ b'.hash = b.hash

/-! ## Opening a buffer -/

/-- The exception of a failed `realloc` of at most `limit` bytes. -/
def out_of_memory (A : Allocator) (limit : Nat) (e : Failure) : Prop :=
  ∃ n ≤ limit, A.realloc n = none ∧
    e = .exception s!"realloc of {n} failed in resize().  out of memory?"

theorem out_of_memory_mono {limit limit' : Nat} {e : Failure} (hle : limit ≤ limit')
    (h : out_of_memory A limit e) : out_of_memory A limit' e := by
  obtain ⟨n, hn, hr, he⟩ := h
  exact ⟨n, hn.trans hle, hr, he⟩

theorem open_spec (A : Allocator) (files : List Reader) (hf : ∀ f ∈ files, f.Faithful)
    (h : open_ A files = .ok b) :
    b.Wf A ∧ b.stream = files.flatMap Reader.data ∧ b.buffer.capacity = INITIAL_BUFF_SIZE := by
  simp only [open_, realloc] at h
  cases hr : A.realloc INITIAL_BUFF_SIZE with
  | none => simp [hr, Outcome.throw_] at h
  | some temp =>
    simp only [hr, InternalBuffer.size, Nat.sub_zero, take_zero, nil_append,
      Outcome.ok_bind, Outcome.pure_eq, Except.ok.injEq] at h
    subst h
    have hfit := A.realloc_fits hr
    have hpos : 0 < INITIAL_BUFF_SIZE := by decide
    refine ⟨⟨⟨le_refl _, ?_, ?_⟩, ?_, ?_, hfit, A.realloc_aligned hr, hf⟩, ?_, ?_⟩
    · exact le_add_right _ _
    · exact le_add_right _ _
    · simp
    · exact Nat.lt_add_of_pos_right hpos
    · simp [stream, unread, pending, InternalBuffer.bytes_at]
    · simp [InternalBuffer.capacity]

/-! ## Moving the data to the front -/

/-- An alignment the buffer can be brought to by moving its data to the front:
    no offset, and a divisor of the allocator's own alignment. -/
def Alignable (A : Allocator) (align : DesiredAlign) : Prop :=
  align.offset = 0 ∧ align.align ∣ 2 ^ A.align_exp

theorem alignable_TEXT (A : Allocator) : Alignable A TEXT := ⟨rfl, one_dvd _⟩

/-- An alignment the allocator provides for, with an offset below it. -/
structure Provided (A : Allocator) (align : DesiredAlign) : Prop where
  dvd : align.align ∣ 2 ^ A.align_exp
  offset_lt : align.offset < align.align

/-- A read at `align` can be made from here: the head is not before the position the data is
    moved to. -/
structure Placed (A : Allocator) (align : DesiredAlign) (b : IoBuf) : Prop extends
    Provided A align where
  behind : b.buffer.begin_ + align.offset ≤ b.head

variable {align : DesiredAlign} {files : List Reader} {c : Nat} {f : Reader}

theorem Alignable.placed (ha : Alignable A align) (hb : b.Wf A) :
    b.Placed A align := by
  have hpos : 0 < align.align := Nat.pos_of_dvd_of_pos ha.2 (Nat.two_pow_pos _)
  refine ⟨⟨ha.2, ?_⟩, ?_⟩
  · rw [ha.1]
    exact hpos
  · rw [ha.1]
    exact hb.ordered.1

/-- The front is at the offset from the address of the block. -/
theorem Provided.required_padding (ha : Provided A align) (hb : b.Wf A) :
    InternalBuffer.required_padding b.buffer.begin_ align = align.offset := by
  have hmod : b.buffer.begin_ % align.align = 0 :=
    mod_eq_zero_of_dvd (ha.dvd.trans hb.aligned)
  have hlt := ha.offset_lt
  simp only [InternalBuffer.required_padding, hmod, Nat.sub_zero]
  split_ifs with h1 h2
  · rw [Nat.add_mod_left, Nat.mod_eq_of_lt hlt]
  · omega
  · omega

theorem Provided.aligned_front (ha : Provided A align) {ptr : Nat}
    (hbegin : 2 ^ A.align_exp ∣ ptr) : align.is_aligned (ptr + align.offset) = true := by
  have hmod : ptr % align.align = 0 := mod_eq_zero_of_dvd (ha.dvd.trans hbegin)
  rw [DesiredAlign.is_aligned, beq_iff_eq, add_mod, hmod, zero_add,
    Nat.mod_eq_of_lt ha.offset_lt, Nat.mod_eq_of_lt ha.offset_lt]

/-- The unread bytes move to the front as they are. -/
theorem shift_placed_spec (hb : b.Wf A) (ha : b.Placed A align) :
    (b.shift_to_front align).Wf A ∧ (b.shift_to_front align).unread = b.unread ∧
    (b.shift_to_front align).head = (b.shift_to_front align).buffer.begin_ + align.offset ∧
    (b.shift_to_front align).buffer.begin_ = b.buffer.begin_ := by
  obtain ⟨h1, h2, h3⟩ := hb.ordered
  have hm := hb.mem_length
  have hlen := hb.length_unread
  have hpad := ha.required_padding hb
  have hdst := ha.behind
  by_cases hlt : b.head < b.buffer.end_
  · have heq : b.shift_to_front align =
        { b with buffer := { b.buffer.store (b.buffer.begin_ + align.offset) b.unread with
                               end_ := b.buffer.begin_ + align.offset + (b.buffer.end_ - b.head) }
                 head := b.buffer.begin_ + align.offset } := by
      simp [shift_to_front, InternalBuffer.shift_to_front, hpad, hlt, hdst, unread]
    rw [heq]
    have hstore := b.buffer.length_store (b.buffer.begin_ + align.offset) b.unread (by omega)
    refine ⟨⟨⟨?_, ?_, ?_⟩, ?_, hb.capacity_pos, hb.fits, hb.aligned, hb.faithful⟩,
      ?_, rfl, rfl⟩
    · exact le_add_right _ _
    · exact le_add_right _ _
    · show b.buffer.begin_ + align.offset + (b.buffer.end_ - b.head) ≤ b.buffer.end_array
      omega
    · exact hstore.trans hm
    · have hback := b.buffer.bytes_at_store (b.buffer.begin_ + align.offset) b.unread (by omega)
      rw [hlen] at hback
      simpa [unread, InternalBuffer.bytes_at] using hback
  · have hend : b.buffer.end_ - b.head = 0 := by omega
    have heq : b.shift_to_front align =
        { b with buffer := { b.buffer with end_ := b.buffer.begin_ + align.offset }
                 head := b.buffer.begin_ + align.offset } := by
      simp [shift_to_front, InternalBuffer.shift_to_front, hpad, hlt, hend]
    rw [heq]
    refine ⟨⟨⟨?_, le_refl _, ?_⟩, hm, hb.capacity_pos, hb.fits, hb.aligned, hb.faithful⟩,
      ?_, rfl, rfl⟩
    · exact le_add_right _ _
    · show b.buffer.begin_ + align.offset ≤ b.buffer.end_array
      omega
    · simp [unread, InternalBuffer.bytes_at, hend]

/-- Without an offset this is the first byte of the buffer. -/
theorem shift_to_front_spec (hb : b.Wf A) (ha : Alignable A align) :
    (b.shift_to_front align).Wf A ∧ (b.shift_to_front align).unread = b.unread ∧
    (b.shift_to_front align).head = (b.shift_to_front align).buffer.begin_ := by
  obtain ⟨hwf, hun, hhead, _⟩ := shift_placed_spec hb (ha.placed hb)
  rw [ha.1, add_zero] at hhead
  exact ⟨hwf, hun, hhead⟩

/-- The move both reads make before they look for more bytes. -/
theorem shift_if_placed_spec (hb : b.Wf A) (ha : b.Placed A align) :
    let b' := if b.head ≠ b.buffer.begin_ then b.shift_to_front align else b
    b'.Wf A ∧ b'.unread = b.unread ∧ b'.head = b'.buffer.begin_ + align.offset ∧
    b'.input_files = b.input_files ∧ b'.current = b.current ∧
    b'.verify_hash = b.verify_hash ∧ b'.hash = b.hash := by
  by_cases h : b.head = b.buffer.begin_
  · have hbehind := ha.behind
    have h0 : align.offset = 0 := by omega
    simp [h, h0, hb]
  · obtain ⟨hwf, hun, hhead, _⟩ := shift_placed_spec hb ha
    simp only [ne_eq, h, not_false_eq_true, if_true]
    exact ⟨hwf, hun, hhead, rfl, rfl, rfl, rfl⟩

theorem shift_if_spec (hb : b.Wf A) (ha : Alignable A align) :
    let b' := if b.head ≠ b.buffer.begin_ then b.shift_to_front align else b
    b'.Wf A ∧ b'.unread = b.unread ∧ b'.head = b'.buffer.begin_ ∧
    b'.input_files = b.input_files ∧ b'.current = b.current ∧
    b'.verify_hash = b.verify_hash ∧ b'.hash = b.hash := by
  have h := shift_if_placed_spec hb (ha.placed hb)
  simp only [ha.1, add_zero] at h
  exact h

/-! ## Loading more bytes -/

theorem make_room_spec (hb : b.Wf A) :
    (∀ e, b.make_room A = .error e → out_of_memory A (2 * b.buffer.size) e) ∧
    ∀ b', b.make_room A = .ok b' →
      b'.Wf A ∧ b'.unread = b.unread ∧ b'.buffer.end_ < b'.buffer.end_array ∧
      b'.input_files = b.input_files ∧ b'.current = b.current ∧
      b'.head = b'.buffer.begin_ + (b.head - b.buffer.begin_) ∧
      b'.verify_hash = b.verify_hash ∧ b'.hash = b.hash := by
  obtain ⟨h1, h2, h3⟩ := hb.ordered
  have hm := hb.mem_length
  have hpos := hb.capacity_pos
  by_cases hfull : b.buffer.end_array = b.buffer.end_
  · cases hr : A.realloc (b.buffer.capacity * 2) with
    | none =>
      have heq : b.make_room A = Outcome.throw_
          s!"realloc of {b.buffer.capacity * 2} failed in resize().  out of memory?" := by
        simp [make_room, hfull, realloc, hr]
      have hle : b.buffer.capacity * 2 ≤ 2 * b.buffer.size := by
        rw [InternalBuffer.capacity, InternalBuffer.size, hfull]
        omega
      rw [heq]
      constructor
      · intro e he
        cases he
        exact ⟨_, hle, hr, rfl⟩
      · intro b' h
        cases h
    | some temp =>
      have hcap : b.buffer.capacity = b.buffer.mem.length := by
        rw [hm, InternalBuffer.capacity]
      have hsize : b.buffer.size = b.buffer.mem.length := by
        rw [hm, hfull, InternalBuffer.size]
      rw [hcap] at hr
      have hfit := A.realloc_fits hr
      have hcapval : b.buffer.mem.length = b.buffer.end_ - b.buffer.begin_ := by omega
      have heq : b.make_room A = .ok
          { b with buffer := { begin_ := temp
                               end_ := temp + b.buffer.mem.length
                               end_array := temp + b.buffer.mem.length * 2
                               mem := b.buffer.mem ++
                                 replicate b.buffer.mem.length 0 }
                   head := temp + (b.head - b.buffer.begin_) } := by
        have hroom : b.buffer.mem.length * 2 - b.buffer.mem.length = b.buffer.mem.length := by
          omega
        simp only [make_room, hfull, if_true, realloc, hcap, hr, Outcome.ok_bind,
          Outcome.pure_eq, hsize, take_length, hroom]
      rw [heq]
      refine ⟨fun e he => (by cases he), fun b' h => ?_⟩
      cases h
      refine ⟨⟨⟨?_, ?_, ?_⟩, ?_, ?_, hfit, A.realloc_aligned hr, hb.faithful⟩,
        ?_, ?_, rfl, rfl, rfl, rfl, rfl⟩
      · exact le_add_right _ _
      · show temp + (b.head - b.buffer.begin_) ≤ temp + b.buffer.mem.length
        omega
      · show temp + b.buffer.mem.length ≤ temp + b.buffer.mem.length * 2
        omega
      · simp only [length_append, length_replicate]
        omega
      · show temp < temp + b.buffer.mem.length * 2
        omega
      · simp only [unread, InternalBuffer.bytes_at, Nat.add_sub_cancel_left]
        rw [drop_append_of_le_length (by omega), take_append_of_le_length]
        · congr 1
          omega
        · simp only [length_drop]
          omega
      · show temp + b.buffer.mem.length < temp + b.buffer.mem.length * 2
        omega
  · have heq : b.make_room A = .ok b := by simp [make_room, hfull]
    rw [heq]
    refine ⟨fun e he => (by cases he), fun b' h => ?_⟩
    cases h
    exact ⟨hb, rfl, by omega, rfl, rfl, by omega, rfl, rfl⟩

/-- A reader returns a prefix of its data, and nothing only when it has none. -/
theorem Reader.read_spec {r : Reader} (r' : Reader) (hr : r.Faithful) {n : Nat} (hn : 0 < n) :
    (r.read n = none → r.data = []) ∧
    ∀ bs, r.read n = some (bs, r') →
      bs ++ r'.data = r.data ∧ bs.length ≤ n ∧ r'.Faithful ∧ (bs = [] → r.data = []) := by
  unfold Reader.read
  cases hd : r.data with
  | nil =>
    cases r.pick [].length n with
    | none => simp
    | some k =>
      refine ⟨fun _ => rfl, fun bs h => ?_⟩
      simp only [length_nil, zero_le, min_eq_right, take_nil, drop_nil,
        Option.some.injEq, Prod.mk.injEq] at h
      obtain ⟨rfl, rfl⟩ := h
      exact ⟨rfl, zero_le _, hr, fun _ => rfl⟩
  | cons x xs =>
    obtain ⟨k, hk, hp⟩ := hr (x :: xs).length n (by simp) hn
    simp only [hp]
    refine ⟨fun h => by simp at h, fun bs h => ?_⟩
    simp only [Option.some.injEq, Prod.mk.injEq] at h
    obtain ⟨rfl, rfl⟩ := h
    refine ⟨take_append_drop _ _, ?_, hr, fun h => ?_⟩
    · simp only [length_take]
      omega
    · have hlen := congrArg length h
      simp only [length_take, length_cons, length_nil] at hlen
      omega

theorem drop_current (h : files[c]? = some f) :
    files.drop c = f :: files.drop (c + 1) := by
  obtain ⟨hlt, hf⟩ := List.getElem?_eq_some_iff.mp h
  rw [drop_eq_getElem_cons hlt, hf]

theorem drop_set_current (f' : Reader)
    (h : files[c]? = some f) : (files.set c f').drop c = f' :: files.drop (c + 1) := by
  obtain ⟨hlt, _⟩ := List.getElem?_eq_some_iff.mp h
  rw [drop_set, if_neg (lt_irrefl c), Nat.sub_self, drop_eq_getElem_cons hlt]
  rfl

theorem length_flatMap_set (f' : Reader)
    (h : files[c]? = some f) :
    ((files.set c f').flatMap Reader.data).length + f.data.length
      = (files.flatMap Reader.data).length + f'.data.length := by
  induction files generalizing c with
  | nil => simp at h
  | cons g gs ih =>
    cases c with
    | zero =>
      simp only [getElem?_cons_zero, Option.some.injEq] at h
      subst h
      simp only [set_cons_zero, flatMap_cons, length_append]
      omega
    | succ c =>
      simp only [getElem?_cons_succ] at h
      have := ih h
      simp only [set_cons_succ, flatMap_cons, length_append]
      omega

/-- Loading `bs` into a buffer that has room for them. -/
theorem load_spec (hb : b.Wf A) {f' : Reader} {bs : List Byte}
    (hf : b.input_files[b.current]? = some f) (hdata : bs ++ f'.data = f.data)
    (hfit : bs.length ≤ b.buffer.end_array - b.buffer.end_) (hfaith : f'.Faithful) :
    let b' := { b with buffer := { b.buffer.store b.buffer.end_ bs with
                                     end_ := b.buffer.end_ + bs.length }
                       input_files := b.input_files.set b.current f' }
    b'.Wf A ∧ b'.unread = b.unread ++ bs ∧ b'.stream = b.stream ∧
    b'.undelivered.length + bs.length = b.undelivered.length := by
  obtain ⟨h1, h2, h3⟩ := hb.ordered
  have hm := hb.mem_length
  have hroom : b.buffer.end_ - b.buffer.begin_ + bs.length ≤ b.buffer.mem.length := by omega
  have hunread : ({ b with buffer := { b.buffer.store b.buffer.end_ bs with
                                         end_ := b.buffer.end_ + bs.length }
                           input_files := b.input_files.set b.current f' } : IoBuf).unread
      = b.unread ++ bs := by
    rw [unread, unread, ← b.buffer.bytes_at_store_end b.head b.buffer.end_ bs h1 h2 hroom]
    rw [show b.buffer.end_ + bs.length - b.head = b.buffer.end_ - b.head + bs.length by omega]
    rfl
  refine ⟨⟨⟨h1, ?_, ?_⟩, ?_, hb.capacity_pos, hb.fits, hb.aligned, ?_⟩, hunread, ?_, ?_⟩
  · show b.head ≤ b.buffer.end_ + bs.length
    omega
  · show b.buffer.end_ + bs.length ≤ b.buffer.end_array
    omega
  · exact (b.buffer.length_store b.buffer.end_ bs hroom).trans hm
  · intro g hg
    rcases mem_or_eq_of_mem_set hg with hg | rfl
    · exact hb.faithful g hg
    · exact hfaith
  · rw [stream, hunread, stream]
    simp only [pending, drop_set_current f' hf, drop_current hf, flatMap_cons,
      append_assoc, ← hdata]
  · have hset := length_flatMap_set f' hf
    have hlen := congrArg length hdata
    simp only [length_append] at hlen
    simp only [undelivered]
    omega

/-- `fill` moves bytes from the current file to the end of the unread ones; it
    reports none only when the file is used up. -/
theorem fill_spec (hb : b.Wf A) (hcur : b.current < b.input_files.length) :
    (∀ e, b.fill A = .error e → out_of_memory A (2 * b.buffer.size) e) ∧
    ∀ num_read b', b.fill A = .ok (num_read, b') →
      b'.Wf A ∧ b'.stream = b.stream ∧ b'.current = b.current ∧
      b'.input_files.length = b.input_files.length ∧
      b'.undelivered.length + num_read = b.undelivered.length ∧
      (num_read = 0 → b'.unread = b.unread ∧
        b'.pending = (b'.input_files.drop (b'.current + 1)).flatMap Reader.data) ∧
      b'.head = b'.buffer.begin_ + (b.head - b.buffer.begin_) ∧
      b'.verify_hash = b.verify_hash ∧ b'.hash = b.hash := by
  obtain ⟨hoom, hok⟩ := make_room_spec hb
  cases hmake : b.make_room A with
  | error e =>
    have heq : b.fill A = .error e := by simp [fill, hmake]
    rw [heq]
    refine ⟨fun e' he => ?_, fun k b' h => by cases h⟩
    cases he
    exact hoom e hmake
  | ok b₁ =>
    obtain ⟨hwf, hun, hroom, hfiles, hc, hbeg, hvh, hh⟩ := hok b₁ hmake
    have hf : b₁.input_files[b₁.current]? = some (b.input_files.get ⟨b.current, hcur⟩) := by
      simp [hfiles, hc, hcur]
    have hfaith := hwf.faithful _ (mem_of_getElem? hf)
    have hpos : 0 < b₁.buffer.end_array - b₁.buffer.end_ := by omega
    have hstream : b₁.stream = b.stream := by
      simp only [stream, hun, pending, hfiles, hc]
    have hund : b₁.undelivered = b.undelivered := by simp only [undelivered, hfiles]
    set f := b.input_files.get ⟨b.current, hcur⟩
    cases hread : f.read (b₁.buffer.end_array - b₁.buffer.end_) with
    | none =>
      have hdata := (Reader.read_spec f hfaith hpos).1 hread
      have heq : b.fill A = .ok (0, b₁) := by
        simp [fill, hmake, hf, hread, not_lt.mpr hroom.le]
      rw [heq]
      refine ⟨fun e' he => (by cases he), fun k b' h => ?_⟩
      cases h
      refine ⟨hwf, hstream, hc, by rw [hfiles], by rw [hund, add_zero], fun _ => ⟨hun, ?_⟩,
        hbeg, hvh, hh⟩
      rw [pending, drop_current hf, flatMap_cons, hdata, nil_append]
    | some res =>
      obtain ⟨bs, f'⟩ := res
      obtain ⟨hdata, hle, hfaith', hnil⟩ := (Reader.read_spec f' hfaith hpos).2 bs hread
      have heq : b.fill A = .ok (bs.length,
          { b₁ with buffer := { b₁.buffer.store b₁.buffer.end_ bs with
                                  end_ := b₁.buffer.end_ + bs.length }
                    input_files := b₁.input_files.set b₁.current f' }) := by
        simp [fill, hmake, hf, hread, not_lt.mpr hroom.le]
      obtain ⟨hwf', hun', hstr', hund'⟩ := load_spec hwf hf hdata hle hfaith'
      rw [heq]
      refine ⟨fun e' he => (by cases he), fun k b' h => ?_⟩
      cases h
      refine ⟨hwf', hstr'.trans hstream, hc, by simp [hfiles], by rw [hund', hund], fun h0 => ?_,
        hbeg, hvh, hh⟩
      have hbs : bs = [] := length_eq_zero_iff.mp h0
      have hfd := hnil hbs
      refine ⟨by rw [hun', hbs, append_nil, hun], ?_⟩
      have hf'd : f'.data = [] := by
        rw [hfd, hbs] at hdata
        simpa using hdata
      have hdrop : (b₁.input_files.set b₁.current f').drop (b₁.current + 1)
          = b₁.input_files.drop (b₁.current + 1) := by
        rw [drop_set, if_pos (lt_succ_self _)]
      simp only [pending, drop_set_current f' hf, flatMap_cons, hf'd, nil_append, hdrop]

end IoBuf

end VW
