import VowpalWabbit.IoBuf.Runs

/-! # The write side of the i/o buffer

    `buf_write` hands out the next `n` bytes of the buffer. When they do not fit it flushes,
    or, with nothing to flush, doubles the buffer, and tries again. `flush` writes to the first
    output file; without an output file it does nothing, and then a buffer that holds bytes
    already is never flushed and never grown: the recursion has no end.

    A session is a sequence of requests, each filled by the caller, and of flushes. Where every
    request can be served, the regions handed out between two flushes are disjoint, and what was
    filled in is what the output file gets, or what `copy_to` copies.
-/

open Cpp Refinement Nat

namespace VW

open List Outcome InternalBuffer

/-! ## The buffer in write mode -/

/-- `VW::io::writer`: the bytes it has received, how often it was flushed, and how many of
    `num_bytes` more it takes (`none` is a negative return value). -/
structure Writer where
  received : List Byte
  flushes : Nat
  takes : (received : List Byte) → (num_bytes : Nat) → Option Nat

namespace Writer

def write (bs : List Byte) (w : Writer) : Option Nat × Writer :=
  match w.takes w.received bs.length with
  | none => (none, w)
  | some k => (some (min k bs.length), { w with received := w.received ++ bs.take k })

/-- It takes the next `num_bytes` bytes whole. -/
def Accepts (w : Writer) (num_bytes : Nat) : Prop :=
  ∃ k, w.takes w.received num_bytes = some k ∧ num_bytes ≤ k

end Writer

/-- `VW::io_buf` in write mode. -/
structure OutBuf where
  buffer : InternalBuffer
  head : Nat
  output_files : List Writer

namespace OutBuf

/-- The constructor, followed by one `add_file` for each file. -/
def open_ (A : Allocator) (files : List (List Byte → Nat → Option Nat)) : Outcome OutBuf := do
  let buffer ← realloc A IoBuf.INITIAL_BUFF_SIZE ⟨0, 0, 0, []⟩
  return ⟨buffer, buffer.begin_, files.map (Writer.mk [] 0)⟩

def unflushed_bytes_count (b : OutBuf) : Nat := b.head - b.buffer.begin_

/-- The bytes that have not been flushed. -/
def unflushed (b : OutBuf) : List Byte := b.buffer.bytes_at b.buffer.begin_ b.unflushed_bytes_count

def flush (b : OutBuf) : Outcome OutBuf :=
  match b.output_files with
  | [] => .ok b
  | w :: ws =>
    let (bytes_written, w) := w.write b.unflushed
    if bytes_written = some b.unflushed_bytes_count then
      .ok { b with head := b.buffer.begin_, output_files := { w with flushes := w.flushes + 1 } :: ws }
    else throw_ "Failed to write example"

/-- Twice the space, for a buffer with nothing in it. -/
def grow (A : Allocator) (b : OutBuf) : Outcome OutBuf := do
  let buffer ← b.buffer.realloc A (2 * b.buffer.capacity)
  return { b with buffer := buffer, head := buffer.begin_ }

/-- `buf_write`, with a bound on the depth of its recursion: the pointer, and the buffer
    afterwards. -/
def buf_write (A : Allocator) (n : Nat) : Nat → OutBuf → Outcome (Nat × OutBuf)
  | 0, _ => undefined
  | fuel + 1, b =>
    if ptr_add b.head n ≤ b.buffer.end_array then .ok (b.head, { b with head := ptr_add b.head n })
    else do
      -- Time to dump the file, or else the array is short.
      let b ← (if b.head ≠ b.buffer.begin_ then b.flush else b.grow A)
      buf_write A n fuel b

/-- `copy_to`: the number of bytes that are copied, and the bytes. -/
def copy_to (max_size : Nat) (b : OutBuf) : Nat × List Byte :=
  let to_copy := min b.unflushed_bytes_count max_size
  (to_copy, b.buffer.bytes_at b.buffer.begin_ to_copy)

/-! ## The invariant -/

/-- Invariant of the write side; nothing is ever loaded. -/
structure Wf (b : OutBuf) : Prop where
  begin_le : b.buffer.begin_ ≤ b.head
  head_le : b.head ≤ b.buffer.end_array
  end_eq : b.buffer.end_ = b.buffer.begin_
  mem_length : b.buffer.mem.length = b.buffer.capacity
  capacity_pos : 0 < b.buffer.capacity
  fits : b.buffer.end_array ≤ 2 ^ 63

/-- What the output file has received. -/
def received (b : OutBuf) : List Byte :=
  match b.output_files with
  | [] => []
  | w :: _ => w.received

/-- How often the output file was flushed. -/
def flushes (b : OutBuf) : Nat :=
  match b.output_files with
  | [] => 0
  | w :: _ => w.flushes

variable {A : Allocator} {b b' b₁ : OutBuf} {n : Nat}

theorem Wf.length_unflushed (hb : b.Wf) : b.unflushed.length = b.unflushed_bytes_count := by
  have hhead := hb.head_le
  have hmem := hb.mem_length
  rw [unflushed, length_bytes_at, hmem]
  unfold unflushed_bytes_count capacity
  omega

theorem unflushed_eq_nil (h : b.head = b.buffer.begin_) : b.unflushed = [] := by
  simp [unflushed, unflushed_bytes_count, bytes_at, h]

/-! ## Flushing and growing -/

/-- The output file takes nothing or too little. -/
def WriteFails (b : OutBuf) : Prop := ∃ w ∈ b.output_files.head?, ¬w.Accepts b.unflushed_bytes_count

/-- The bytes have gone to the output file. -/
structure Flushed (b b' : OutBuf) : Prop where
  accepted : ¬b.WriteFails
  buffer_eq : b'.buffer = b.buffer
  head_eq : b'.head = b.buffer.begin_
  received_eq : b'.received = b.received ++ b.unflushed
  flushes_eq : b'.flushes = b.flushes + 1
  output_files_ne : b'.output_files ≠ []

theorem flush_nil (h : b.output_files = []) : b.flush = .ok b := by
  unfold flush
  rw [h]

theorem flush_spec (hb : b.Wf) (h : b.output_files ≠ []) :
    Ends b.WriteFails b.flush fun b' => Flushed b b' := by
  obtain ⟨w, ws, hfiles⟩ := exists_cons_of_ne_nil h
  have hlength := hb.length_unflushed
  have hfails : (∀ k, w.takes w.received b.unflushed_bytes_count = some k → ¬b.unflushed_bytes_count ≤ k) →
      b.WriteFails := by
    intro hshort
    refine ⟨w, by rw [hfiles]; rfl, ?_⟩
    rintro ⟨k, hk, hle⟩
    exact hshort k hk hle
  unfold flush
  rw [hfiles]
  cases htakes : w.takes w.received b.unflushed_bytes_count with
  | none =>
    have hwrite : w.write b.unflushed = (none, w) := by
      rw [Writer.write, hlength, htakes]
    simp only [hwrite]
    exact hfails fun k hk => absurd (htakes.symm.trans hk) (Option.some_ne_none k).symm
  | some k =>
    have hwrite : w.write b.unflushed = (some (min k b.unflushed_bytes_count),
        { w with received := w.received ++ b.unflushed.take k }) := by
      rw [Writer.write, hlength, htakes]
    simp only [hwrite, Option.some.injEq]
    by_cases hk : b.unflushed_bytes_count ≤ k
    · rw [if_pos (min_eq_right hk)]
      refine Ends.ok ⟨?_, rfl, rfl, ?_, ?_, by simp⟩
      · rintro ⟨w', hw', hrefuses⟩
        rw [hfiles] at hw'
        cases hw'
        exact hrefuses ⟨k, htakes, hk⟩
      · simp only [received, hfiles]
        rw [take_of_length_le (hlength.le.trans hk)]
      · simp only [flushes, hfiles]
    · rw [if_neg (by omega)]
      refine hfails fun k' hk' => ?_
      rwa [← Option.some.inj (htakes.symm.trans hk')]

theorem flush_of_accepts (hb : b.Wf) (h : b.output_files ≠ []) (hfails : ¬b.WriteFails) :
    ∃ b', b.flush = .ok b' ∧ Flushed b b' :=
  (flush_spec hb h).returns hfails

theorem Flushed.wf (h : Flushed b b') (hb : b.Wf) : b'.Wf := by
  obtain ⟨-, hbuffer, hhead, -, -, -⟩ := h
  have hcapacity := hb.capacity_pos
  unfold capacity at hcapacity
  constructor
  · rw [hbuffer, hhead]
  · rw [hbuffer, hhead]; omega
  · rw [hbuffer]; exact hb.end_eq
  · rw [hbuffer]; exact hb.mem_length
  · rw [hbuffer]; exact hb.capacity_pos
  · rw [hbuffer]; exact hb.fits

/-- The buffer is a new and empty one of twice the size at `p`. -/
structure Grown (b : OutBuf) (p : Nat) (b' : OutBuf) : Prop where
  wf : b'.Wf
  begin_eq : b'.buffer.begin_ = p
  head_eq : b'.head = p
  capacity_eq : b'.buffer.capacity = 2 * b.buffer.capacity
  output_files_eq : b'.output_files = b.output_files

theorem grow_none (h : A.realloc (2 * b.buffer.capacity) = none) : Throws (b.grow A) := by
  unfold grow realloc
  rw [h]
  exact ⟨_, rfl⟩

theorem grow_some {p : Nat} (hb : b.Wf) (h : A.realloc (2 * b.buffer.capacity) = some p) :
    ∃ b', b.grow A = .ok b' ∧ Grown b p b' := by
  have hsize : b.buffer.size = 0 := by rw [InternalBuffer.size, hb.end_eq, Nat.sub_self]
  have hpos := hb.capacity_pos
  unfold grow realloc
  rw [h]
  refine ⟨_, rfl, ⟨le_refl _, le_add_right _ _, ?_, ?_, ?_, A.realloc_fits h⟩, rfl, rfl, ?_, rfl⟩
  · simp only [hsize, add_zero]
  · simp [capacity, hsize]
  · simp only [capacity, Nat.add_sub_cancel_left] at hpos ⊢
    omega
  · simp [capacity]

/-! ## One request -/

/-- A buffer of `capacity` bytes that is doubled until it holds `n` bytes is put at `p` on the way. -/
def GrowsTo (A : Allocator) (capacity n p : Nat) : Prop :=
  ∃ k, 2 ^ k * capacity < n ∧ (∀ j < k, A.realloc (2 ^ (j + 1) * capacity) ≠ none) ∧
    A.realloc (2 ^ (k + 1) * capacity) = some p

/-- The request can be served: the address `head + n` exists, and if the buffer has to be flushed
    there is a file to flush it to; wherever it grows to, the address is one again. -/
def CanWrite (A : Allocator) (b : OutBuf) (n : Nat) : Prop :=
  b.head + n < 2 ^ 64 ∧ (b.head + n ≤ b.buffer.end_array ∨
    (b.head = b.buffer.begin_ ∨ b.output_files ≠ []) ∧
      (b.head ≠ b.buffer.begin_ ∧ b.WriteFails ∨ ∀ p, GrowsTo A b.buffer.capacity n p → p + n < 2 ^ 64))

/-- What a request that does not return was refused by: the output file, or the allocator. -/
def Refused (A : Allocator) (b : OutBuf) : Prop :=
  b.head ≠ b.buffer.begin_ ∧ b.WriteFails ∨ ∃ k, A.realloc (2 ^ (k + 1) * b.buffer.capacity) = none

/-- The request ends, and what it hands out lies in the buffer. -/
def Serves (A : Allocator) (b : OutBuf) (n : Nat) : Prop :=
  ∃ fuel, Ends (Refused A b) (b.buf_write A n fuel)
    fun r => r.2.buffer.begin_ ≤ r.1 ∧ r.1 + n ≤ r.2.buffer.end_array

/-- The bytes handed out come behind all that was written. -/
structure Hands (b : OutBuf) (n ptr : Nat) (b' : OutBuf) : Prop where
  wf : b'.Wf
  begin_le : b'.buffer.begin_ ≤ ptr
  head_eq : ptr + n = b'.head
  content : b'.received ++ b'.buffer.bytes_at b'.buffer.begin_ (ptr - b'.buffer.begin_) = b.received ++ b.unflushed
  flushes_le : b.flushes ≤ b'.flushes
  output_files_iff : b'.output_files = [] ↔ b.output_files = []
  /-- Without a flush they come behind the head, unless the buffer was empty. -/
  same_block : b'.flushes = b.flushes →
    b.head = b.buffer.begin_ ∨ ptr = b.head ∧ b'.buffer.begin_ = b.buffer.begin_

theorem Hands.in_buffer {ptr : Nat} (h : Hands b n ptr b') :
    b'.buffer.begin_ ≤ ptr ∧ ptr + n ≤ b'.buffer.end_array :=
  ⟨h.begin_le, h.head_eq.le.trans h.wf.head_le⟩

theorem Hands.of_flushed {ptr : Nat} (hf : Flushed b b₁) (hne : b.output_files ≠ []) (h : Hands b₁ n ptr b') :
    Hands b n ptr b' := by
  obtain ⟨-, hbuffer, hhead, hreceived, hflushes, hfiles⟩ := hf
  have hempty : b₁.unflushed = [] := unflushed_eq_nil (hhead.trans (congrArg _ hbuffer.symm))
  have hle := h.flushes_le
  refine ⟨h.wf, h.begin_le, h.head_eq, ?_, by omega, ?_, fun heq => ?_⟩
  · rw [h.content, hempty, append_nil, hreceived]
  · exact ⟨fun hnil => absurd (h.output_files_iff.mp hnil) hfiles, fun hnil => absurd hnil hne⟩
  · omega

theorem Hands.of_grown {p ptr : Nat} (hg : Grown b p b₁) (hhead : b.head = b.buffer.begin_) (h : Hands b₁ n ptr b') :
    Hands b n ptr b' := by
  have hreceived : b₁.received = b.received := by
    unfold received
    rw [hg.output_files_eq]
  have hflushes : b₁.flushes = b.flushes := by
    unfold flushes
    rw [hg.output_files_eq]
  have hempty : b₁.unflushed = [] := unflushed_eq_nil (hg.head_eq.trans hg.begin_eq.symm)
  refine ⟨h.wf, h.begin_le, h.head_eq, ?_, hflushes ▸ h.flushes_le, ?_, fun _ => .inl hhead⟩
  · rw [h.content, hempty, hreceived, unflushed_eq_nil hhead]
  · rw [h.output_files_iff, hg.output_files_eq]

/-- A request that fits is served at once. -/
theorem buf_write_fits (fuel : Nat) (h : ptr_add b.head n ≤ b.buffer.end_array) :
    b.buf_write A n (fuel + 1) = .ok (b.head, { b with head := ptr_add b.head n }) := by
  rw [buf_write, if_pos h]

theorem hands_of_fits (hb : b.Wf) (h : b.head + n ≤ b.buffer.end_array) :
    Hands b n b.head { b with head := ptr_add b.head n } := by
  have hfits := hb.fits
  have hadd : ptr_add b.head n = b.head + n := ptr_add_of_lt (by omega)
  refine ⟨⟨?_, ?_, hb.end_eq, hb.mem_length, hb.capacity_pos, hb.fits⟩, hb.begin_le, hadd.symm, rfl, le_refl _,
    Iff.rfl, fun _ => .inr ⟨rfl, rfl⟩⟩
  · exact hb.begin_le.trans (hadd ▸ le_add_right _ _)
  · exact hadd ▸ h

/-- More depth does not change how a request ends. -/
theorem buf_write_mono : ∀ {fuel fuel' : Nat} {b : OutBuf}, fuel ≤ fuel' → b.buf_write A n fuel ≠ undefined →
    b.buf_write A n fuel' = b.buf_write A n fuel := by
  intro fuel
  induction fuel with
  | zero => exact fun _ h => absurd rfl h
  | succ fuel ih =>
    intro fuel' b hle h
    obtain ⟨fuel', rfl⟩ : ∃ k, fuel' = k + 1 := ⟨fuel' - 1, by omega⟩
    rw [buf_write] at h
    rw [buf_write, buf_write]
    by_cases hfit : ptr_add b.head n ≤ b.buffer.end_array
    · rw [if_pos hfit, if_pos hfit]
    · rw [if_neg hfit] at h
      rw [if_neg hfit, if_neg hfit]
      cases hb₁ : (if b.head ≠ b.buffer.begin_ then b.flush else b.grow A) with
      | error e => rfl
      | ok b₁ =>
        rw [hb₁, ok_bind] at h
        exact ih (by omega) h

/-- A request that does not fit grows an empty buffer. -/
theorem buf_write_grows (fuel : Nat) (h : ¬ptr_add b.head n ≤ b.buffer.end_array)
    (hhead : b.head = b.buffer.begin_) :
    b.buf_write A n (fuel + 1) = (do let b ← b.grow A; b.buf_write A n fuel) := by
  rw [buf_write, if_neg h, if_neg (not_not.mpr hhead)]

/-- It flushes one that holds bytes. -/
theorem buf_write_flushes (fuel : Nat) (h : ¬ptr_add b.head n ≤ b.buffer.end_array)
    (hhead : b.head ≠ b.buffer.begin_) :
    b.buf_write A n (fuel + 1) = (do let b ← b.flush; b.buf_write A n fuel) := by
  rw [buf_write, if_neg h, if_pos hhead]

theorem Wf.end_array_eq (hb : b.Wf) : b.buffer.end_array = b.buffer.begin_ + b.buffer.capacity := by
  have hbegin := hb.begin_le
  have hhead := hb.head_le
  unfold capacity
  omega

/-- The growth of the doubled buffer is that of the buffer. -/
theorem GrowsTo.of_double {capacity p : Nat} (h : A.realloc (2 * capacity) ≠ none)
    (hgrows : GrowsTo A (2 * capacity) n p) : GrowsTo A capacity n p := by
  have hpow : ∀ k, 2 ^ k * (2 * capacity) = 2 ^ (k + 1) * capacity := fun k => by rw [pow_succ, mul_assoc]
  obtain ⟨k, hk, hbefore, hlast⟩ := hgrows
  refine ⟨k + 1, hpow k ▸ hk, fun j hj => ?_, hpow (k + 1) ▸ hlast⟩
  cases j with
  | zero => simpa using h
  | succ j => exact hpow (j + 1) ▸ hbefore j (by omega)

/-- Doubling ends: the request fits at last, or the allocator has refused. -/
theorem buf_write_grown {m : Nat} : ∀ {b : OutBuf}, b.Wf → b.head = b.buffer.begin_ → b.head + n < 2 ^ 64 →
    2 ^ 63 < 2 ^ m * b.buffer.capacity → (∀ p, GrowsTo A b.buffer.capacity n p → p + n < 2 ^ 64) →
      Ends (∃ k, A.realloc (2 ^ (k + 1) * b.buffer.capacity) = none) (b.buf_write A n (m + 1))
        fun r => Hands b n r.1 r.2 := by
  induction m with
  | zero =>
    intro b hb _ _ hbound _
    have hend := hb.end_array_eq
    have hfits := hb.fits
    omega
  | succ m ih =>
    intro b hb hhead haddress hbound hgrows
    have hend := hb.end_array_eq
    have hadd := ptr_add_of_lt haddress
    by_cases hfit : ptr_add b.head n ≤ b.buffer.end_array
    · rw [buf_write_fits _ hfit]
      exact Ends.ok (hands_of_fits hb (hadd ▸ hfit))
    · rw [buf_write_grows _ hfit hhead]
      have hroom : b.buffer.capacity < n := by omega
      cases hr : A.realloc (2 * b.buffer.capacity) with
      | none =>
        obtain ⟨what, hwhat⟩ := grow_none hr
        rw [hwhat]
        exact ⟨0, by simpa using hr⟩
      | some p =>
        obtain ⟨b₁, hgrow, hgrown⟩ := grow_some hb hr
        have hcapacity := hgrown.capacity_eq
        have hp : p + n < 2 ^ 64 := hgrows p ⟨0, by simpa using hroom, by simp, by simpa using hr⟩
        rw [hgrow, ok_bind]
        refine (ih hgrown.wf (hgrown.head_eq.trans hgrown.begin_eq.symm) (hgrown.head_eq ▸ hp) ?_ ?_).mono ?_
          fun r hr => hr.of_grown hgrown hhead
        · rw [hcapacity, ← mul_assoc, ← pow_succ]
          exact hbound
        · intro q hq
          exact hgrows q ((hcapacity ▸ hq).of_double (by rw [hr]; exact Option.some_ne_none p))
        · rintro ⟨k, hk⟩
          refine ⟨k + 1, ?_⟩
          rwa [hcapacity, ← mul_assoc, ← pow_succ] at hk

/-- A request that can be served is answered, and what it hands out comes behind what was written. -/
theorem buf_write_hands (hb : b.Wf) (h : CanWrite A b n) :
    ∃ fuel, Ends (Refused A b) (b.buf_write A n fuel) fun r => Hands b n r.1 r.2 := by
  obtain ⟨haddress, hcan⟩ := h
  have hpos := hb.capacity_pos
  have hbound : 2 ^ 63 < 2 ^ 64 * b.buffer.capacity := by omega
  by_cases hfit : b.head + n ≤ b.buffer.end_array
  · exact ⟨1, by
      rw [buf_write_fits 0 (ptr_add_of_lt haddress ▸ hfit)]
      exact Ends.ok (hands_of_fits hb hfit)⟩
  have hnofit : ¬ptr_add b.head n ≤ b.buffer.end_array := ptr_add_of_lt haddress ▸ hfit
  obtain ⟨hspace, hcan⟩ := hcan.resolve_left hfit
  by_cases hhead : b.head = b.buffer.begin_
  · have hgrows := hcan.resolve_left fun hfails => hfails.1 hhead
    exact ⟨65, (buf_write_grown hb hhead haddress hbound hgrows).mono Or.inr fun _ hr => hr⟩
  · have hfiles := hspace.resolve_left hhead
    refine ⟨66, ?_⟩
    rw [buf_write_flushes 65 hnofit hhead]
    refine ((flush_spec hb hfiles).mono (fun hfails => Or.inl ⟨hhead, hfails⟩) fun _ h₁ => h₁).bind
      fun b₁ h₁ => ?_
    have hgrows := hcan.resolve_left fun hfails => h₁.accepted hfails.2
    rw [← h₁.buffer_eq] at hgrows hbound
    have hbegin := hb.begin_le
    have hhead₁ := h₁.head_eq
    refine (buf_write_grown (h₁.wf hb) (h₁.buffer_eq ▸ hhead₁) (by omega) hbound hgrows).mono (fun h => Or.inr ?_)
      fun _ hr => hr.of_flushed h₁ hfiles
    rwa [h₁.buffer_eq] at h

/-! ## Requests that are not served -/

/-- Neither undefined, nor outside of the buffer. -/
theorem Serves.safe (h : Serves A b n) :
    ∃ fuel, Safe (b.buf_write A n fuel) fun r => r.1 + n ≤ r.2.buffer.end_array := by
  obtain ⟨fuel, h⟩ := h
  refine ⟨fuel, ?_⟩
  rcases hx : b.buf_write A n fuel with (what | _) | r
  · trivial
  · rw [hx] at h
    exact h
  · rw [hx] at h
    exact h.2

/-- A request whose end wraps around is taken to fit. -/
theorem wrapped_unsafe (hb : b.Wf) (hn : n < 2 ^ 64) (h : 2 ^ 64 ≤ b.head + n) (fuel : Nat) :
    ¬Safe (b.buf_write A n fuel) fun r => r.1 + n ≤ r.2.buffer.end_array := by
  have hhead := hb.head_le
  have hfits := hb.fits
  cases fuel with
  | zero => exact id
  | succ fuel =>
    have hwraps : ptr_add b.head n ≤ b.buffer.end_array := by
      unfold ptr_add
      omega
    rw [buf_write_fits fuel hwraps]
    intro hsafe
    have : b.head + n ≤ b.buffer.end_array := hsafe
    omega

/-- A request that is not served by the doubled buffer is not served. -/
theorem unsafe_of_grown (hb : b.Wf) (hn : n < 2 ^ 64) (hhead : b.head = b.buffer.begin_) {q : Nat}
    (hroom : b.buffer.capacity < n) (hr : A.realloc (2 * b.buffer.capacity) = some q)
    (h : ∀ b₁ fuel, Grown b q b₁ → ¬Safe (b₁.buf_write A n fuel) fun r => r.1 + n ≤ r.2.buffer.end_array)
    (fuel : Nat) : ¬Safe (b.buf_write A n fuel) fun r => r.1 + n ≤ r.2.buffer.end_array := by
  by_cases hwraps : 2 ^ 64 ≤ b.head + n
  · exact wrapped_unsafe hb hn hwraps fuel
  · have hend := hb.end_array_eq
    have hnofit : ¬ptr_add b.head n ≤ b.buffer.end_array := by
      rw [ptr_add_of_lt (by omega)]
      omega
    obtain ⟨b₁, hgrow, hgrown⟩ := grow_some hb hr
    cases fuel with
    | zero => exact id
    | succ fuel =>
      rw [buf_write_grows fuel hnofit hhead, hgrow, ok_bind]
      exact h b₁ fuel hgrown

/-- Nor is one served that wraps around wherever the buffer grows to. -/
theorem grown_unsafe (hn : n < 2 ^ 64) {p k : Nat} (hp : 2 ^ 64 ≤ p + n) :
    ∀ {b : OutBuf} (fuel : Nat), b.Wf → b.head = b.buffer.begin_ → 2 ^ k * b.buffer.capacity < n →
      (∀ j < k, A.realloc (2 ^ (j + 1) * b.buffer.capacity) ≠ none) →
      A.realloc (2 ^ (k + 1) * b.buffer.capacity) = some p →
        ¬Safe (b.buf_write A n fuel) fun r => r.1 + n ≤ r.2.buffer.end_array := by
  induction k with
  | zero =>
    intro b fuel hb hhead hroom _ hlast
    refine unsafe_of_grown hb hn hhead (by simpa using hroom) (by simpa using hlast) (fun b₁ fuel hgrown => ?_) fuel
    exact wrapped_unsafe hgrown.wf hn (hgrown.head_eq ▸ hp) fuel
  | succ k ih =>
    intro b fuel hb hhead hroom hbefore hlast
    obtain ⟨q, hq⟩ := Option.ne_none_iff_exists'.mp (hbefore 0 (succ_pos k))
    rw [zero_add, pow_one] at hq
    have hsmall : b.buffer.capacity ≤ 2 ^ (k + 1) * b.buffer.capacity := Nat.le_mul_of_pos_left _ (Nat.two_pow_pos _)
    refine unsafe_of_grown hb hn hhead (hsmall.trans_lt hroom) hq (fun b₁ fuel hgrown => ?_) fuel
    have hpow : ∀ j, 2 ^ j * b₁.buffer.capacity = 2 ^ (j + 1) * b.buffer.capacity := fun j => by
      rw [hgrown.capacity_eq, pow_succ, mul_assoc]
    refine ih fuel hgrown.wf (hgrown.head_eq.trans hgrown.begin_eq.symm) ((hpow k).symm ▸ hroom) (fun j hj => ?_)
      ((hpow (k + 1)).symm ▸ hlast)
    exact (hpow (j + 1)).symm ▸ hbefore (j + 1) (by omega)

/-- Without a file to flush to, a request that does not fit behind other bytes recurses without end. -/
theorem buf_write_endless (hfiles : b.output_files = []) (hhead : b.head ≠ b.buffer.begin_)
    (h : ¬ptr_add b.head n ≤ b.buffer.end_array) (fuel : Nat) : b.buf_write A n fuel = undefined := by
  induction fuel with
  | zero => rfl
  | succ fuel ih => rw [buf_write_flushes fuel h hhead, flush_nil hfiles, ok_bind, ih]

/-- A request is served exactly when it can be. -/
theorem serves_iff (hb : b.Wf) (hn : n < 2 ^ 64) : Serves A b n ↔ CanWrite A b n := by
  constructor
  · intro hserves
    obtain ⟨fuel, hsafe⟩ := hserves.safe
    have haddress : b.head + n < 2 ^ 64 :=
      Nat.lt_of_not_le fun hwraps => wrapped_unsafe hb hn hwraps fuel hsafe
    refine ⟨haddress, or_iff_not_imp_left.mpr fun hfit => ?_⟩
    have hnofit : ¬ptr_add b.head n ≤ b.buffer.end_array := ptr_add_of_lt haddress ▸ hfit
    by_cases hhead : b.head = b.buffer.begin_
    · refine ⟨.inl hhead, .inr fun p ⟨k, hk, hbefore, hlast⟩ => ?_⟩
      exact Nat.lt_of_not_le fun hp => grown_unsafe hn hp fuel hb hhead hk hbefore hlast hsafe
    · have hfiles : b.output_files ≠ [] := by
        intro hfiles
        rw [buf_write_endless hfiles hhead hnofit] at hsafe
        exact hsafe
      refine ⟨.inr hfiles, or_iff_not_imp_left.mpr fun hfails p ⟨k, hk, hbefore, hlast⟩ => ?_⟩
      obtain ⟨b₁, hflush, h₁⟩ := flush_of_accepts hb hfiles fun h => hfails ⟨hhead, h⟩
      refine Nat.lt_of_not_le fun hp => ?_
      cases fuel with
      | zero => exact hsafe
      | succ fuel =>
        rw [buf_write_flushes fuel hnofit hhead, hflush, ok_bind] at hsafe
        rw [← h₁.buffer_eq] at hk hbefore hlast
        exact grown_unsafe hn hp fuel (h₁.wf hb) (h₁.buffer_eq ▸ h₁.head_eq) hk hbefore hlast hsafe
  · intro hcan
    obtain ⟨fuel, hends⟩ := buf_write_hands hb hcan
    exact ⟨fuel, hends.mono id fun r hr => hr.in_buffer⟩

/-! ## Sessions -/

/-- What a request was given, and the block it was given it from. -/
structure Region where
  flushes : Nat
  begin_ : Nat
  end_array : Nat
  ptr : Nat
  size : Nat

def Region.Contains (r : Region) (address : Nat) : Prop := r.ptr ≤ address ∧ address < r.ptr + r.size

/-- The buffer, what it has handed out, and what the caller has filled in. -/
structure Session where
  buf : OutBuf
  regions : List Region
  written : List Byte

/-- The calls of the write side; a request is filled with `data`. -/
inductive WriteCall where
  | buf_write (data : List Byte)
  | flush

/-- Sessions whose requests can all be served. -/
def write_system (A : Allocator) : System Session WriteCall where
  step s l s' :=
    match l with
    | .buf_write data => CanWrite A s.buf data.length ∧ ∃ fuel ptr b,
        s.buf.buf_write A data.length fuel = .ok (ptr, b) ∧
        s' = ⟨{ b with buffer := b.buffer.store ptr data },
          s.regions ++ [⟨b.flushes, b.buffer.begin_, b.buffer.end_array, ptr, data.length⟩], s.written ++ data⟩
    | .flush => ∃ b, s.buf.flush = .ok b ∧ s' = { s with buf := b }

/-- What a session promises at any time. -/
structure Kept (A : Allocator) (s : Session) : Prop where
  /-- The next request is served where it can be. -/
  serves : ∀ n < 2 ^ 64, Serves A s.buf n ↔ CanWrite A s.buf n
  /-- What was handed out lay in the buffer. -/
  inside : ∀ r ∈ s.regions, r.begin_ ≤ r.ptr ∧ r.ptr + r.size ≤ r.end_array
  /-- Between two flushes the regions are disjoint. -/
  disjoint : s.regions.Pairwise fun r r' =>
    r.flushes = r'.flushes → ∀ address, ¬(r.Contains address ∧ r'.Contains address)
  /-- After a flush the output file has received all that was filled in, in order. -/
  flushed : s.buf.output_files ≠ [] → Ends s.buf.WriteFails s.buf.flush fun b => b.received = s.written
  /-- Without an output file it is there to be copied. -/
  copied : s.buf.output_files = [] →
    ∀ max_size, s.buf.copy_to max_size = (min s.written.length max_size, s.written.take max_size)

/-- Invariant of the sessions. -/
structure Inv (s : Session) : Prop where
  wf : s.buf.Wf
  content : s.buf.received ++ s.buf.unflushed = s.written
  inside : ∀ r ∈ s.regions, r.begin_ ≤ r.ptr ∧ r.ptr + r.size ≤ r.end_array
  flushes_le : ∀ r ∈ s.regions, r.flushes ≤ s.buf.flushes
  /-- What was handed out since the last flush lies between the begin and the head. -/
  behind : ∀ r ∈ s.regions, r.flushes = s.buf.flushes → ∀ address, r.Contains address →
    s.buf.buffer.begin_ ≤ address ∧ address < s.buf.head
  disjoint : s.regions.Pairwise fun r r' =>
    r.flushes = r'.flushes → ∀ address, ¬(r.Contains address ∧ r'.Contains address)

variable {s s' : Session} {data : List Byte} {ptr : Nat}

/-- The bytes of a filled request are the last of the unflushed ones. -/
theorem content_fill (h : Hands b data.length ptr b') :
    b'.received ++ ({ b' with buffer := b'.buffer.store ptr data } : OutBuf).unflushed =
      b.received ++ b.unflushed ++ data := by
  have hhead := h.head_eq
  have hbegin := h.begin_le
  have hle := h.wf.head_le
  have hmem := h.wf.mem_length
  unfold capacity at hmem
  have hcount : b'.head - b'.buffer.begin_ = ptr - b'.buffer.begin_ + data.length := by omega
  unfold unflushed unflushed_bytes_count
  simp only [store_begin, hcount]
  rw [bytes_at_store_end _ _ _ _ (le_refl _) hbegin (by omega), ← append_assoc, h.content]
  rfl

theorem Hands.filled (h : Hands b data.length ptr b') :
    ({ b' with buffer := b'.buffer.store ptr data } : OutBuf).Wf := by
  have hhead := h.head_eq
  have hbegin := h.begin_le
  have hle := h.wf.head_le
  have hmem := h.wf.mem_length
  refine ⟨h.wf.begin_le, h.wf.head_le, h.wf.end_eq, ?_, h.wf.capacity_pos, h.wf.fits⟩
  unfold capacity at hmem
  exact (length_store _ _ _ (by omega)).trans h.wf.mem_length

/-- What was handed out before, and not flushed since, comes before the new region. -/
theorem Inv.before (hs : Inv s) {n : Nat} (h : Hands s.buf n ptr b') {r : Region} (hr : r ∈ s.regions)
    (hflushes : r.flushes = b'.flushes) {address : Nat} (ha : r.Contains address) :
    b'.buffer.begin_ ≤ address ∧ address < ptr := by
  have hle := hs.flushes_le r hr
  have hsame : b'.flushes = s.buf.flushes := le_antisymm (hflushes ▸ hle) h.flushes_le
  obtain ⟨hbegin, hhead⟩ := hs.behind r hr (hflushes.trans hsame) address ha
  rcases h.same_block hsame with hempty | ⟨hptr, hblock⟩
  · omega
  · omega

theorem Inv.buf_write (hs : Inv s) (h : Hands s.buf data.length ptr b') :
    Inv ⟨{ b' with buffer := b'.buffer.store ptr data },
      s.regions ++ [⟨b'.flushes, b'.buffer.begin_, b'.buffer.end_array, ptr, data.length⟩], s.written ++ data⟩ := by
  have hhead := h.head_eq
  have hbegin := h.begin_le
  refine ⟨h.filled, ?_, ?_, ?_, ?_, ?_⟩
  · exact (content_fill h).trans (congrArg (· ++ data) hs.content)
  · intro r hr
    rcases mem_append.mp hr with hr | hr
    · exact hs.inside r hr
    · cases mem_singleton.mp hr
      exact h.in_buffer
  · intro r hr
    rcases mem_append.mp hr with hr | hr
    · exact (hs.flushes_le r hr).trans h.flushes_le
    · cases mem_singleton.mp hr
      exact le_refl _
  · intro r hr hflushes address ha
    show b'.buffer.begin_ ≤ address ∧ address < b'.head
    rcases mem_append.mp hr with hr | hr
    · have := hs.before h hr hflushes ha
      omega
    · cases mem_singleton.mp hr
      obtain ⟨hle, hlt⟩ : ptr ≤ address ∧ address < ptr + data.length := ha
      omega
  · refine pairwise_append.mpr ⟨hs.disjoint, pairwise_singleton _ _, fun r hr r' hr' hflushes address => ?_⟩
    cases mem_singleton.mp hr'
    rintro ⟨ha, hle, -⟩
    have hlt := (hs.before h hr hflushes ha).2
    exact absurd hlt (Nat.not_lt.mpr hle)

theorem Inv.flush (hs : Inv s) (h : s.buf.flush = .ok b') : Inv { s with buf := b' } := by
  by_cases hfiles : s.buf.output_files = []
  · rw [flush_nil hfiles] at h
    cases h
    exact hs
  · have hspec := flush_spec hs.wf hfiles
    rw [h] at hspec
    have hflushed : Flushed s.buf b' := hspec
    have hflushes := hflushed.flushes_eq
    have hempty : b'.unflushed = [] := unflushed_eq_nil (hflushed.head_eq.trans (congrArg _ hflushed.buffer_eq.symm))
    refine ⟨hflushed.wf hs.wf, ?_, hs.inside, fun r hr => ?_, fun r hr heq => ?_, hs.disjoint⟩
    · show b'.received ++ b'.unflushed = s.written
      rw [hempty, append_nil, hflushed.received_eq, hs.content]
    · show r.flushes ≤ b'.flushes
      have := hs.flushes_le r hr
      omega
    · -- no region was handed out since
      have heq : r.flushes = b'.flushes := heq
      have := hs.flushes_le r hr
      omega

theorem Inv.step {l : WriteCall} (hs : Inv s) (h : (write_system A).step s l s') : Inv s' := by
  cases l with
  | buf_write data =>
    obtain ⟨hcan, fuel, ptr, b, hwrite, rfl⟩ := h
    obtain ⟨fuel', hends⟩ := buf_write_hands hs.wf hcan
    have hdefined : s.buf.buf_write A data.length fuel' ≠ undefined := by
      intro hundefined
      rw [hundefined] at hends
      exact hends
    -- both depths are enough
    have hmax := buf_write_mono (le_max_left fuel fuel') (by rw [hwrite]; exact nofun)
    rw [buf_write_mono (le_max_right fuel fuel') hdefined, hwrite] at hmax
    rw [hmax] at hends
    exact hs.buf_write hends
  | flush =>
    obtain ⟨b, hflush, rfl⟩ := h
    exact hs.flush hflush

/-- A new buffer, before any request. -/
def Session.start (b : OutBuf) : Session := ⟨b, [], []⟩

theorem inv_start {files : List (List Byte → Nat → Option Nat)} (h : open_ A files = .ok b) :
    Inv (Session.start b) := by
  unfold open_ realloc at h
  cases hr : A.realloc IoBuf.INITIAL_BUFF_SIZE with
  | none =>
    rw [hr] at h
    cases h
  | some p =>
    rw [hr] at h
    cases h
    have hwf : Wf ⟨⟨p, p + 0, p + IoBuf.INITIAL_BUFF_SIZE, replicate IoBuf.INITIAL_BUFF_SIZE 0⟩, p,
        files.map (Writer.mk [] 0)⟩ := by
      refine ⟨le_refl _, le_add_right _ _, rfl, ?_, ?_, A.realloc_fits hr⟩
      · simp [capacity]
      · simp [capacity, IoBuf.INITIAL_BUFF_SIZE]
    have hnone : ∀ (P : Region → Prop), ∀ r ∈ ([] : List Region), P r := fun _ _ hr => absurd hr not_mem_nil
    refine ⟨hwf, ?_, hnone _, hnone _, hnone _, Pairwise.nil⟩
    cases files with
    | nil => exact unflushed_eq_nil rfl
    | cons f files => exact unflushed_eq_nil rfl

theorem Inv.kept (hs : Inv s) : Kept A s where
  serves _ hn := serves_iff hs.wf hn
  inside := hs.inside
  disjoint := hs.disjoint
  flushed hfiles := (flush_spec hs.wf hfiles).mono id fun b hb => hb.received_eq.trans hs.content
  copied hfiles max_size := by
    have hreceived : s.buf.received = [] := by
      unfold received
      rw [hfiles]
    have hcontent : s.buf.unflushed = s.written := by
      have hcontent := hs.content
      rwa [hreceived, nil_append] at hcontent
    have hlength := hs.wf.length_unflushed
    rw [hcontent] at hlength
    refine Prod.ext (congrArg (min · max_size) hlength.symm) ?_
    show s.buf.buffer.bytes_at s.buf.buffer.begin_ (min s.buf.unflushed_bytes_count max_size) = _
    rw [← hcontent]
    unfold unflushed bytes_at
    rw [take_take, min_comm]

/-- In a session whose requests can all be served, every request is, the regions handed out between
    two flushes are disjoint parts of the buffer, and what was filled in is what a flush delivers or,
    without an output file, what can be copied. -/
theorem sessions_deliver (A : Allocator) (files : List (List Byte → Nat → Option Nat)) (b : OutBuf)
    (hopen : open_ A files = .ok b) (calls : List WriteCall) (s : Session)
    (hrun : Run (write_system A) (Session.start b) calls s) : Kept A s :=
  (hrun.invariant Inv (fun _ _ _ hs h => hs.step h) (inv_start hopen)).kept

/-- Bytes for a file that takes all it is given, in two requests and a flush. -/
theorem sessions_deliver_two_requests :
    ∃ b s, open_ flat_memory [fun _ n => some n] = .ok b ∧
      Run (write_system flat_memory) (Session.start b) [.buf_write [1, 2], .flush, .buf_write [3]] s ∧
      s.written = [1, 2, 3] ∧ Kept flat_memory s := by
  obtain ⟨b, hopen⟩ : ∃ b, open_ flat_memory [fun _ n => some n] = .ok b := ⟨_, rfl⟩
  have hrun : ∃ s, Run (write_system flat_memory) (Session.start b) [.buf_write [1, 2], .flush, .buf_write [3]] s ∧
      s.written = [1, 2, 3] := by
    cases hopen
    refine ⟨_, .cons ⟨⟨by decide, .inl (by decide)⟩, 1, _, _, rfl, rfl⟩
      (.cons ⟨_, rfl, rfl⟩ (.cons ⟨⟨by decide, .inl (by decide)⟩, 1, _, _, rfl, rfl⟩ (.nil _))), rfl⟩
  obtain ⟨s, hrun, hwritten⟩ := hrun
  exact ⟨b, s, hopen, hrun, hwritten, sessions_deliver _ _ b hopen _ s hrun⟩

/-- Without an output file, a byte and then a request of the size of the buffer: the request has
    no end. -/
theorem second_request_endless :
    ∃ b s, open_ flat_memory [] = .ok b ∧
      Run (write_system flat_memory) (Session.start b) [.buf_write [7]] s ∧
      (∀ fuel, s.buf.buf_write flat_memory IoBuf.INITIAL_BUFF_SIZE fuel = undefined) ∧
      ¬Serves flat_memory s.buf IoBuf.INITIAL_BUFF_SIZE := by
  obtain ⟨b, hopen⟩ : ∃ b, open_ flat_memory [] = .ok b := ⟨_, rfl⟩
  have hrun : ∃ s, Run (write_system flat_memory) (Session.start b) [.buf_write [7]] s ∧
      s.buf.output_files = [] ∧ s.buf.head ≠ s.buf.buffer.begin_ ∧
        ¬ptr_add s.buf.head IoBuf.INITIAL_BUFF_SIZE ≤ s.buf.buffer.end_array := by
    cases hopen
    refine ⟨_, .cons ⟨⟨by decide, .inl (by decide)⟩, 1, _, _, rfl, rfl⟩ (.nil _), rfl, ?_, ?_⟩
    · decide
    · decide
  obtain ⟨s, hrun, hfiles, hhead, hfit⟩ := hrun
  have hendless := buf_write_endless (A := flat_memory) hfiles hhead hfit
  refine ⟨b, s, hopen, hrun, hendless, fun hserves => ?_⟩
  obtain ⟨fuel, hsafe⟩ := hserves.safe
  rw [hendless fuel] at hsafe
  exact hsafe

end OutBuf

end VW
