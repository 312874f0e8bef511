import VowpalWabbit.Framework.Outcome
import VowpalWabbit.Framework.Bytes

/-! # The i/o buffer

    `VW::io_buf` of `core/include/vw/core/io_buf.h` and `core/src/io_buf.cc`,
    read side. The buffer is one allocation `[begin_, end_array)` whose loaded
    part is `[begin_, end_)`; `head` is the position up to which it has been
    read. Pointers are 64-bit addresses, and `head + n` is computed modulo
    `2 ^ 64`, as the machine does.

    Two things come from outside: the C library's `realloc`, which is an
    `Allocator` here, and the files, which are `Reader`s that may hand out
    their bytes in any pieces they like.
-/

open Cpp Outcome

namespace VW

/-! ## What the buffer gets from outside -/

/-- The C library's `realloc`, as far as one growing buffer can see it: where
    a block of the given size is put, `none` when memory has run out. An
    `io_buf` never asks for the same size twice, so a function of the size is
    no restriction. -/
structure Allocator where
  realloc : Nat → Option Nat
  /-- Every block is aligned to `2 ^ align_exp` (`alignof(std::max_align_t)`). -/
  align_exp : Nat
  realloc_aligned : ∀ {n p : Nat}, realloc n = some p → 2 ^ align_exp ∣ p
  /-- No object is larger than `PTRDIFF_MAX`, and blocks lie in the lower half
      of the address space. -/
  realloc_fits : ∀ {n p : Nat}, realloc n = some p → p + n ≤ 2 ^ 63

/-- `VW::io::reader`: the bytes it has not delivered yet, and how many of them
    it delivers when it is asked for `num_bytes` with `remaining` of them left
    (`none` is a negative return value). -/
structure Reader where
  data : List Byte
  pick : (remaining num_bytes : Nat) → Option Nat

/-- `reader::read`: never more than was asked for, never more than there is. -/
def Reader.read (r : Reader) (num_bytes : Nat) : Option (List Byte × Reader) :=
  match r.pick r.data.length num_bytes with
  | none => none
  | some k =>
    let k := min k (min num_bytes r.data.length)
    some (r.data.take k, { r with data := r.data.drop k })

/-- The reader delivers something until its data is used up. -/
def Reader.Faithful (r : Reader) : Prop :=
  ∀ remaining num_bytes, 0 < remaining → 0 < num_bytes →
    ∃ k, 0 < k ∧ r.pick remaining num_bytes = some k

/-! ## The buffer -/

/-- `ptr + n` on 64-bit addresses. -/
def ptr_add (ptr n : Nat) : Nat := (ptr + n) % 2 ^ 64

theorem ptr_add_of_lt {ptr n : Nat} (h : ptr + n < 2 ^ 64) : ptr_add ptr n = ptr + n :=
  Nat.mod_eq_of_lt h

structure DesiredAlign where
  align : Nat := 1
  offset : Nat := 0
  deriving DecidableEq, Repr

def DesiredAlign.is_aligned (a : DesiredAlign) (ptr : Nat) : Bool :=
  ptr % a.align == a.offset

def TEXT : DesiredAlign := {}

/-- `io_buf::internal_buffer`; the byte at address `begin_ + i` is `mem[i]`. -/
structure InternalBuffer where
  begin_ : Nat
  end_ : Nat
  end_array : Nat
  mem : List Byte

namespace InternalBuffer

def capacity (b : InternalBuffer) : Nat := b.end_array - b.begin_

def size (b : InternalBuffer) : Nat := b.end_ - b.begin_

/-- The bytes `[ptr, ptr + n)`. -/
def bytes_at (b : InternalBuffer) (ptr n : Nat) : List Byte :=
  (b.mem.drop (ptr - b.begin_)).take n

/-- Overwrite the memory from address `dst` on. -/
def store (b : InternalBuffer) (dst : Nat) (bs : List Byte) : InternalBuffer :=
  { b with mem := b.mem.take (dst - b.begin_) ++ bs ++ b.mem.drop (dst - b.begin_ + bs.length) }

/-- `realloc`: the loaded bytes are kept, the rest is set to zero. -/
def realloc (A : Allocator) (new_capacity : Nat) (b : InternalBuffer) : Outcome InternalBuffer :=
  match A.realloc new_capacity with
  | none =>
    throw_ s!"realloc of {new_capacity} failed in resize().  out of memory?"
  | some temp =>
    .ok { begin_ := temp
          end_ := temp + b.size
          end_array := temp + new_capacity
          mem := b.mem.take b.size ++ List.replicate (new_capacity - b.size) 0 }

/-- The padding `shift_to_front` leaves before the data. -/
def required_padding (begin_address : Nat) (align : DesiredAlign) : Nat :=
  if align.align ≠ 1 then
    if begin_address % align.align ≠ align.offset then
      (align.align - begin_address % align.align + align.offset) % align.align
    else 0
  else 0

/-- `shift_to_front`: the new buffer and the new head. -/
def shift_to_front (b : InternalBuffer) (head : Nat) (align : DesiredAlign) :
    InternalBuffer × Nat :=
  let dst := b.begin_ + required_padding b.begin_ align
  let space_left := b.end_ - head
  -- The move is skipped when the data would have to go right.
  let b := if dst ≤ head ∧ head < b.end_ then b.store dst (b.bytes_at head space_left) else b
  ({ b with end_ := dst + space_left }, dst)

end InternalBuffer

/-- `VW::io_buf` in read mode. -/
structure IoBuf where
  buffer : InternalBuffer
  head : Nat
  /-- Index of the file currently read. -/
  current : Nat
  input_files : List Reader
  verify_hash : Bool := false
  hash : BitVec 32 := 0

namespace IoBuf

def INITIAL_BUFF_SIZE : Nat := 2 ^ 16

/-- The constructor, followed by one `add_file` for each file. -/
def open_ (A : Allocator) (files : List Reader) : Outcome IoBuf := do
  let buffer ← InternalBuffer.realloc A INITIAL_BUFF_SIZE ⟨0, 0, 0, []⟩
  return { buffer := buffer, head := buffer.begin_, current := 0, input_files := files }

def shift_to_front (align : DesiredAlign) (b : IoBuf) : IoBuf :=
  { b with buffer := (b.buffer.shift_to_front b.head align).1
           head := (b.buffer.shift_to_front b.head align).2 }

/-- The reallocation at the start of `fill`: twice the space, the head at the
    same offset, once the loaded values have reached the allocated space. -/
def make_room (A : Allocator) (b : IoBuf) : Outcome IoBuf :=
  if b.buffer.end_array = b.buffer.end_ then do
    let buffer ← b.buffer.realloc A (b.buffer.capacity * 2)
    return { b with buffer := buffer, head := buffer.begin_ + (b.head - b.buffer.begin_) }
  else .ok b

/-- `fill` on the current file: how many bytes were loaded. -/
def fill (A : Allocator) (b : IoBuf) : Outcome (Nat × IoBuf) := do
  let b ← b.make_room A
  -- A negative room would be passed to `read` as a huge size.
  if b.buffer.end_array < b.buffer.end_ then undefined
  else
    match b.input_files[b.current]? with
    | none => undefined
    | some f =>
      match f.read (b.buffer.end_array - b.buffer.end_) with
      | none => return (0, b)
      | some (bs, f) =>
        let buffer := b.buffer.store b.buffer.end_ bs
        return (bs.length,
          { b with buffer := { buffer with end_ := buffer.end_ + bs.length }
                   input_files := b.input_files.set b.current f })

/-- `++_current < _input_files.size()`. -/
def next_file (b : IoBuf) : Bool × IoBuf :=
  (b.current + 1 < b.input_files.length, { b with current := b.current + 1 })

/-- How `buf_read` and `readto` look for more bytes: from the current file,
    or else from the next one; `true` when they try again. -/
def refill (A : Allocator) (b : IoBuf) : Outcome (Bool × IoBuf) :=
  if b.current < b.input_files.length then do
    let (num_read, b) ← b.fill A
    if 0 < num_read then return (true, b) else return b.next_file
  else return b.next_file

/-- The bytes the files have not delivered yet. -/
def undelivered (b : IoBuf) : List Byte := b.input_files.flatMap Reader.data

/-- Bound on the number of times a read can come back for more. -/
def retries (b : IoBuf) : Nat := b.undelivered.length + (b.input_files.length - b.current)

/-- The last branch of `buf_read`: return what is left. -/
def final_read (align : DesiredAlign) (b : IoBuf) : Outcome (Nat × Nat × IoBuf) :=
  if !align.is_aligned b.head then
    throw_ "io_buf cannot be aligned to desired alignment"
  else
    .ok (b.head, b.buffer.end_ - b.head, { b with head := b.buffer.end_ })

/-- `buf_read`, with a bound on the depth of its recursion. The result is the
    pointer, the number of bytes behind it, and the buffer afterwards. -/
def buf_read_loop (A : Allocator) (n : Nat) (align : DesiredAlign) :
    Nat → IoBuf → Outcome (Nat × Nat × IoBuf)
  | 0, _ => undefined
  | fuel + 1, b =>
    if ptr_add b.head n ≤ b.buffer.end_ then
      if align.is_aligned b.head then
        .ok (b.head, n, { b with head := ptr_add b.head n })
      else if b.buffer.begin_ + align.offset < b.head then
        let b := b.shift_to_front align
        .ok (b.head, n, { b with head := ptr_add b.head n })
      else throw_ "io_buf cannot be aligned to desired alignment"
    else do
      let b := if b.head ≠ b.buffer.begin_ then b.shift_to_front align else b
      let (more, b) ← b.refill A
      if more then buf_read_loop A n align fuel b else b.final_read align

def buf_read (A : Allocator) (n : Nat) (align : DesiredAlign) (b : IoBuf) :
    Outcome (Nat × Nat × IoBuf) :=
  buf_read_loop A n align (b.retries + 1) b

/-- Distance from the head to the first `terminal` in the loaded bytes, or to
    their end. -/
def scan (b : IoBuf) (terminal : Byte) : Nat :=
  ((b.buffer.bytes_at b.head (b.buffer.end_ - b.head)).takeWhile (· ≠ terminal)).length

/-- `readto`, with a bound on the depth of its recursion. -/
def readto_loop (A : Allocator) (terminal : Byte) :
    Nat → IoBuf → Outcome (Nat × Nat × IoBuf)
  | 0, _ => undefined
  | fuel + 1, b =>
    let n := b.scan terminal
    if b.head + n ≠ b.buffer.end_ then
      .ok (b.head, n + 1, { b with head := b.head + n + 1 })
    else do
      let b :=
        if b.head ≠ b.buffer.begin_ then
          let b := b.shift_to_front TEXT
          { b with head := b.buffer.begin_ }
        else b
      let (more, b) ← b.refill A
      if more then readto_loop A terminal fuel b
      else .ok (b.head, b.buffer.end_ - b.head, { b with head := b.buffer.end_ })

def readto (A : Allocator) (terminal : Byte) (b : IoBuf) : Outcome (Nat × Nat × IoBuf) :=
  readto_loop A terminal (b.retries + 1) b

end IoBuf

end VW
