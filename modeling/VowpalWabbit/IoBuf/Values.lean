import VowpalWabbit.IoBuf.Reads

/-! # Single values

    `read_value` takes one trivially copyable value out of the stream, and
    `load` is a plain access through a pointer that `buf_read` has handed out.
    An access outside the allocation has no defined behaviour; one inside it,
    but behind the bytes that were asked for, goes unnoticed.
-/

open Cpp

namespace VW

open List Outcome InternalBuffer

/-- `*ptr`. -/
def InternalBuffer.load (b : InternalBuffer) (ptr : Nat) : Outcome Byte :=
  if ptr < b.begin_ then undefined
  else
    match b.mem[ptr - b.begin_]? with
    | none => undefined
    | some c => .ok c

/-- `memcpy` of `n` bytes out of the buffer. -/
def load_bytes (load : Nat → Outcome Byte) : (ptr n : Nat) → Outcome (List Byte)
  | _, 0 => .ok []
  | ptr, n + 1 => do
    let c ← load ptr
    let cs ← load_bytes load (ptr + 1) n
    return c :: cs

/-- The memory at `[ptr, ptr + bs.length)` holds `bs`. -/
def Holds (load : Nat → Outcome Byte) (ptr : Nat) (bs : List Byte) : Prop :=
  ∀ i (h : i < bs.length), load (ptr + i) = .ok bs[i]

variable {n : Nat}

section Holds

variable {load : Nat → Outcome Byte} {ptr : Nat}

theorem holds_nil : Holds load ptr [] := by
  intro i h
  exact absurd h (Nat.not_lt_zero i)

theorem holds_cons {c : Byte} {cs : List Byte} :
    Holds load ptr (c :: cs) ↔ load ptr = .ok c ∧ Holds load (ptr + 1) cs := by
  constructor
  · intro h
    constructor
    · exact h 0 (by simp)
    · intro i hi
      have := h (i + 1) (by simpa using hi)
      rw [Nat.add_assoc, Nat.add_comm 1 i]
      exact this
  · rintro ⟨h0, h⟩ i hi
    cases i with
    | zero => exact h0
    | succ i =>
      have := h i (by simpa using hi)
      rw [Nat.add_assoc, Nat.add_comm 1 i] at this
      exact this

theorem holds_append {xs ys : List Byte} :
    Holds load ptr (xs ++ ys) ↔ Holds load ptr xs ∧ Holds load (ptr + xs.length) ys := by
  induction xs generalizing ptr with
  | nil => simp [holds_nil]
  | cons x xs ih =>
    rw [cons_append, holds_cons, holds_cons, ih, length_cons,
      Nat.add_comm xs.length 1, ← Nat.add_assoc, and_assoc]

/-- A stretch of memory holds only one string of a given length. -/
theorem Holds.ext {xs ys : List Byte} (hx : Holds load ptr xs) (hy : Holds load ptr ys)
    (hlen : xs.length = ys.length) : xs = ys := by
  apply ext_getElem hlen
  intro i hi hi'
  have := (hx i hi).symm.trans (hy i hi')
  exact Except.ok.inj this

variable {bs : List Byte}

theorem load_bytes_complete (h : Holds load ptr bs) : load_bytes load ptr bs.length = .ok bs := by
  induction bs generalizing ptr with
  | nil => rfl
  | cons c cs ih =>
    obtain ⟨hload, hrest⟩ := holds_cons.mp h
    rw [length_cons, load_bytes, hload, ok_bind, ih hrest]
    rfl

theorem load_bytes_sound (h : load_bytes load ptr n = .ok bs) :
    bs.length = n ∧ Holds load ptr bs := by
  induction n generalizing bs ptr with
  | zero =>
    cases h
    exact ⟨rfl, holds_nil⟩
  | succ n ih =>
    rw [load_bytes, bind_eq_ok] at h
    obtain ⟨c, hload, h⟩ := h
    rw [bind_eq_ok] at h
    obtain ⟨cs, hcs, h⟩ := h
    cases h
    obtain ⟨hlen, hholds⟩ := ih hcs
    exact ⟨congrArg (· + 1) hlen, holds_cons.mpr ⟨hload, hholds⟩⟩

end Holds

variable {buffer : InternalBuffer}

/-- A copy out of the buffer is defined as long as it stays in the allocation. -/
theorem load_bytes_inside {ptr : Nat} (hbegin : buffer.begin_ ≤ ptr)
    (hend : ptr - buffer.begin_ + n ≤ buffer.mem.length) :
    ∃ bs, load_bytes buffer.load ptr n = .ok bs := by
  induction n generalizing ptr with
  | zero => exact ⟨[], rfl⟩
  | succ n ih =>
    obtain ⟨bs, hbs⟩ := ih (by omega : buffer.begin_ ≤ ptr + 1) (by omega)
    have hlt : ptr - buffer.begin_ < buffer.mem.length := by omega
    have hload : buffer.load ptr = .ok buffer.mem[ptr - buffer.begin_] := by
      rw [load, if_neg (by omega), getElem?_eq_getElem hlt]
    refine ⟨buffer.mem[ptr - buffer.begin_] :: bs, ?_⟩
    rw [load_bytes, hload, ok_bind, hbs]
    rfl

theorem load_bytes_outside {ptr : Nat} (hbegin : buffer.begin_ ≤ ptr)
    (hptr : ptr - buffer.begin_ ≤ buffer.mem.length)
    (hend : buffer.mem.length < ptr - buffer.begin_ + n) :
    load_bytes buffer.load ptr n = undefined := by
  induction n generalizing ptr with
  | zero => omega
  | succ n ih =>
    by_cases hlast : ptr - buffer.begin_ = buffer.mem.length
    · have hload : buffer.load ptr = undefined := by
        rw [load, if_neg (by omega), getElem?_eq_none (by omega)]
      rw [load_bytes, hload]
      rfl
    · have hlt : ptr - buffer.begin_ < buffer.mem.length := by omega
      have hload : buffer.load ptr = .ok buffer.mem[ptr - buffer.begin_] := by
        rw [load, if_neg (by omega), getElem?_eq_getElem hlt]
      rw [load_bytes, hload, ok_bind, ih (by omega) (by omega) (by omega)]
      rfl

namespace IoBuf

def set (ptr : Nat) (b : IoBuf) : IoBuf := { b with head := ptr }

/-- The text of the exception `read_value` throws. -/
def read_value_error (debug_name : String) (size : Nat) : String :=
  if debug_name ≠ "" then
    "Failed to read cache value: " ++ debug_name ++ ", with size: " ++ toString size
  else "Failed to read cache value with size: " ++ toString size

/-- `read_value<T>` for a `T` of `size` bytes. -/
def read_value (A : Allocator) (size : Nat) (debug_name : String) (b : IoBuf) :
    Outcome (Nat × IoBuf) := do
  let (read_head, count, b) ← b.buf_read A size TEXT
  if count < size then throw_ (read_value_error debug_name size)
  else return (of_le_bytes (b.buffer.bytes_at read_head size), b)

/-- A call left `rest` to be read and did not touch the running hash. -/
structure Leaves (A : Allocator) (b b' : IoBuf) (rest : List Byte) : Prop where
  wf : b'.Wf A
  stream_eq : b'.stream = rest
  hash_eq : b'.verify_hash = b.verify_hash ∧ b'.hash = b.hash

variable {A : Allocator} {b b' : IoBuf} {ptr count : Nat} {bs rest : List Byte}

theorem Delivers.leaves (h : Delivers A b ptr count b' bs rest) : Leaves A b b' rest :=
  ⟨h.wf, h.stream_eq, h.hash_eq⟩

theorem Leaves.trans {b₁ b₂ : IoBuf} {rest₁ : List Byte} (h₁ : Leaves A b b₁ rest₁)
    (h₂ : Leaves A b₁ b₂ rest) : Leaves A b b₂ rest :=
  ⟨h₂.wf, h₂.stream_eq, h₂.hash_eq.1.trans h₁.hash_eq.1, h₂.hash_eq.2.trans h₁.hash_eq.2⟩

/-- The bytes a call hands out can be loaded through its pointer. -/
theorem Delivers.holds (h : Delivers A b ptr count b' bs rest) : Holds b'.buffer.load ptr bs := by
  intro i hi
  have hget : (b'.buffer.bytes_at ptr count)[i]? = some bs[i] := by
    rw [h.bytes, getElem?_eq_getElem hi]
  have hlt : i < count := by
    rw [h.count_eq]
    exact hi
  have hbegin := h.begin_le
  rw [bytes_at, getElem?_take_of_lt hlt, getElem?_drop] at hget
  have hoff : ptr + i - b'.buffer.begin_ = ptr - b'.buffer.begin_ + i := by omega
  rw [load, if_neg (by omega), hoff, hget]

theorem set_head (b : IoBuf) : b.set b.head = b := rfl

/-- Whatever goes wrong in `buf_read` is an exception. -/
theorem buf_read_safe (hb : b.Wf A) (hn : n < 2 ^ 63) :
    Outcome.Safe (b.buf_read A n TEXT) fun r =>
      Delivers A b r.1 r.2.1 r.2.2 (b.stream.take n) (b.stream.drop n) := by
  obtain ⟨hE, hO⟩ := buf_read_spec hb hn (alignable_TEXT A)
  cases hread : b.buf_read A n TEXT with
  | error e =>
    obtain ⟨_, _, _, rfl⟩ := hE e hread
    trivial
  | ok r => exact (hO r.1 r.2.1 r.2.2 hread).1

theorem buf_read_returns (hb : b.Wf A) (hmem : A.Provides (2 * n)) :
    Outcome.Returns (b.buf_read A n TEXT) fun r =>
      Delivers A b r.1 r.2.1 r.2.2 (b.stream.take n) (b.stream.drop n) := by
  obtain ⟨ptr, count, b', hread, hd⟩ :=
    buf_read_ok hb (hmem.lt) (alignable_TEXT A) hmem
  exact ⟨(ptr, count, b'), hread, hd⟩

theorem read_value_safe (hb : b.Wf A) {size : Nat} (hsize : size < 2 ^ 63) (debug_name : String) :
    Outcome.Safe (b.read_value A size debug_name) fun r =>
      size ≤ b.stream.length ∧ r.1 = of_le_bytes (b.stream.take size) ∧
      Leaves A b r.2 (b.stream.drop size) := by
  apply (buf_read_safe hb hsize).bind
  intro (ptr, count, b') (hd : Delivers A b ptr count b' _ _)
  have hcount : count = min size b.stream.length := by
    rw [hd.count_eq, length_take]
  show Outcome.Safe (if count < size then _ else _) _
  split
  · exact Outcome.Safe.throw_ _
  · have hc : count = size := by omega
    apply Outcome.Safe.ok
    refine ⟨by omega, ?_, hd.leaves⟩
    rw [← hd.bytes, hc]

theorem read_value_returns (hb : b.Wf A) {size : Nat} (debug_name : String)
    (hmem : A.Provides (2 * size)) (hlen : size ≤ b.stream.length) :
    Outcome.Returns (b.read_value A size debug_name) fun r =>
      r.1 = of_le_bytes (b.stream.take size) ∧ Leaves A b r.2 (b.stream.drop size) := by
  apply (buf_read_returns hb hmem).bind
  intro (ptr, count, b') (hd : Delivers A b ptr count b' _ _)
  have hcount : count = size := by
    rw [hd.count_eq, length_take]
    omega
  show Outcome.Returns (if count < size then _ else _) _
  rw [if_neg (by omega)]
  apply Outcome.Returns.ok
  constructor
  · rw [← hd.bytes, hcount]
  · exact hd.leaves

end IoBuf

end VW
