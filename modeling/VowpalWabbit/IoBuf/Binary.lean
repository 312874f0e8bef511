import VowpalWabbit.IoBuf.Capacity
import VowpalWabbit.Hash

/-! # Binary fields

    The functions through which models are written and read. Every chunk that
    passes goes into a running hash when `verify_hash` is on. The writing side
    of an `io_buf` is an `Output`, the bytes that have been put into it so far.
-/

open Cpp

namespace VW

open List

/-- The running hash after a chunk has passed. -/
def chain (verify : Bool) (hash : BitVec 32) (data : List Byte) : BitVec 32 :=
  if verify ∧ 0 < data.length then uniform_hash data hash else hash

/-- The running hash after chunks have passed. -/
def chain_all (verify : Bool) (hash : BitVec 32) (chunks : List (List Byte)) : BitVec 32 :=
  chunks.foldl (chain verify) hash

/-! ## Writing -/

/-- An `io_buf` in write mode. -/
structure Output where
  written : List Byte := []
  verify_hash : Bool := false
  hash : BitVec 32 := 0

namespace Output

/-- `bin_write_fixed`; it returns the number of bytes it was given. -/
def bin_write_fixed (data : List Byte) (o : Output) : Output :=
  if 0 < data.length then
    { o with written := o.written ++ data
             hash := if o.verify_hash then uniform_hash data o.hash else o.hash }
  else o

theorem written_bin_write_fixed (data : List Byte) (o : Output) :
    (o.bin_write_fixed data).written = o.written ++ data := by
  unfold bin_write_fixed
  split
  · rfl
  · rename_i h
    rw [length_eq_zero_iff.mp (by omega : data.length = 0), append_nil]

@[simp] theorem verify_hash_bin_write_fixed (data : List Byte) (o : Output) :
    (o.bin_write_fixed data).verify_hash = o.verify_hash := by
  unfold bin_write_fixed
  split
  · rfl
  · rfl

theorem hash_bin_write_fixed (data : List Byte) (o : Output) :
    (o.bin_write_fixed data).hash = chain o.verify_hash o.hash data := by
  unfold bin_write_fixed chain
  by_cases hdata : 0 < data.length
  · cases o.verify_hash with
    | true => simp [hdata]
    | false => simp [hdata]
  · simp [hdata]

/-- `o'` is `o` after the chunks have been written to it. -/
structure Wrote (o o' : Output) (chunks : List (List Byte)) : Prop where
  written_eq : o'.written = o.written ++ chunks.flatten
  verify_hash_eq : o'.verify_hash = o.verify_hash
  hash_eq : o'.hash = chain_all o.verify_hash o.hash chunks

theorem wrote_bin_write_fixed (data : List Byte) (o : Output) :
    Wrote o (o.bin_write_fixed data) [data] := by
  refine ⟨?_, verify_hash_bin_write_fixed data o, hash_bin_write_fixed data o⟩
  rw [written_bin_write_fixed, flatten_singleton]

theorem Wrote.trans {o o₁ o₂ : Output} {cs ds : List (List Byte)} (h₁ : Wrote o o₁ cs)
    (h₂ : Wrote o₁ o₂ ds) : Wrote o o₂ (cs ++ ds) := by
  refine ⟨?_, h₂.verify_hash_eq.trans h₁.verify_hash_eq, ?_⟩
  · rw [h₂.written_eq, h₁.written_eq, flatten_append, append_assoc]
  · rw [h₂.hash_eq, h₁.hash_eq, h₁.verify_hash_eq, chain_all, chain_all, chain_all,
      foldl_append]

/-- `verify_hash(verify)`; switching it off resets the hash. -/
def set_verify_hash (verify : Bool) (o : Output) : Output :=
  { o with verify_hash := verify, hash := if verify then o.hash else 0 }

def checked_hash (o : Output) : Outcome (BitVec 32) :=
  if o.verify_hash then .ok o.hash else Outcome.throw_ "HASH WAS NOT CALCULATED"

end Output

/-! ## Reading -/

namespace IoBuf

/-- `bin_read_fixed`: the bytes that were there, at most `len` of them. -/
def bin_read_fixed (A : Allocator) (len : Nat) (b : IoBuf) : Outcome (List Byte × IoBuf) :=
  if 0 < len then do
    let (p, len, b) ← b.buf_read A len TEXT
    let data := b.buffer.bytes_at p len
    return (data, { b with hash := if b.verify_hash then uniform_hash data b.hash else b.hash })
  else return ([], b)

/-- `verify_hash(verify)`; switching it off resets the hash. -/
def set_verify_hash (verify : Bool) (b : IoBuf) : IoBuf :=
  { b with verify_hash := verify, hash := if verify then b.hash else 0 }

def checked_hash (b : IoBuf) : Outcome (BitVec 32) :=
  if b.verify_hash then .ok b.hash else Outcome.throw_ "HASH WAS NOT CALCULATED"

variable {A : Allocator} {b : IoBuf}

/-- The call read `data` and left `rest`; the hash went over the data. -/
structure Reads (A : Allocator) (b b' : IoBuf) (data rest : List Byte) : Prop where
  wf : b'.Wf A
  stream_eq : b'.stream = rest
  verify_hash_eq : b'.verify_hash = b.verify_hash
  hash_eq : b'.hash = chain b.verify_hash b.hash data

/-- The hash is no part of the invariant. -/
theorem Wf.with_hash (hb : b.Wf A) (h : BitVec 32) : ({ b with hash := h } : IoBuf).Wf A :=
  ⟨hb.ordered, hb.mem_length, hb.capacity_pos, hb.fits, hb.aligned, hb.faithful⟩

variable {rest data : List Byte} {b' : IoBuf}

/-- The hash that `bin_read_fixed` leaves. -/
theorem reads_of_delivers {ptr count : Nat} (hd : Delivers A b ptr count b' data rest)
    (hpos : data = [] → b.verify_hash = false) :
    Reads A b
      { b' with hash := if b'.verify_hash then uniform_hash data b'.hash else b'.hash } data rest := by
  obtain ⟨hverify, hhash⟩ := hd.hash_eq
  refine ⟨hd.wf.with_hash _, hd.stream_eq, hverify, ?_⟩
  rw [hverify, hhash, chain]
  by_cases hdata : data = []
  · simp [hdata, hpos hdata]
  · simp [length_pos_iff.mpr hdata]

/-- The allocation after a read of `n` bytes that were there. -/
structure Grown (b : IoBuf) (n : Nat) (b' : IoBuf) : Prop where
  capacity_eq : b'.buffer.capacity = grow b.buffer.capacity n
  is_open_iff : b'.is_open ↔ b.is_open

theorem Allocated.grown {n ptr : Nat} (h : Allocated b n ptr b') (hn : n ≤ b.stream.length) :
    Grown b n b' := by
  constructor
  · rw [h.capacity_eq, capacity_after, if_pos hn]
  · exact h.is_open_iff hn

variable {len : Nat}

theorem bin_read_fixed_ends (hb : b.Wf A) (hfit : len < 2 ^ 63) (hlen : data.length = len)
    (hstream : b.stream = data ++ rest) :
    Outcome.Ends (¬ A.Provides (2 * len)) (b.bin_read_fixed A len) fun r =>
      r.1 = data ∧ Reads A b r.2 data rest ∧ Grown b len r.2 := by
  unfold bin_read_fixed
  split
  · rename_i hpos
    apply (buf_read_ends hb hfit).bind
    intro (p, count, b') ⟨(hd : Delivers A b p count b' _ _), halloc⟩
    have hall : len ≤ b.stream.length := by
      rw [hstream, length_append]
      omega
    rw [hstream, take_left' hlen, drop_left' hlen] at hd
    apply Outcome.Ends.ok
    rw [hd.bytes]
    refine ⟨rfl, reads_of_delivers hd ?_, (halloc.grown hall).1, (halloc.grown hall).2⟩
    intro hnil
    rw [hnil] at hlen
    exact absurd hlen (by simp; omega)
  · rename_i hzero
    have hnil : data = [] := length_eq_zero_iff.mp (by omega)
    subst hnil
    refine Outcome.Ends.ok ⟨rfl, ⟨hb, hstream, rfl, by simp [chain]⟩, ?_, Iff.rfl⟩
    exact (grow_of_le (by omega)).symm

theorem bin_read_fixed_returns (hb : b.Wf A) (hmem : A.Provides (2 * len))
    (hlen : data.length = len) (hstream : b.stream = data ++ rest) :
    Outcome.Returns (b.bin_read_fixed A len) fun r => r.1 = data ∧ Reads A b r.2 data rest := by
  apply ((bin_read_fixed_ends hb hmem.lt hlen hstream).returns (not_not.mpr hmem)).mono
  intro r ⟨hdata, hreads, _⟩
  exact ⟨hdata, hreads⟩

/-- A read that comes to the end of the files returns what there was. -/
theorem bin_read_fixed_short (hb : b.Wf A) (hfit : len < 2 ^ 63) (hshort : b.stream.length < len) :
    Outcome.Ends (¬ A.Provides (2 * len)) (b.bin_read_fixed A len) fun r => r.1.length < len := by
  unfold bin_read_fixed
  rw [if_pos (by omega)]
  apply (buf_read_ends hb hfit).bind
  intro (p, count, b') ⟨(hd : Delivers A b p count b' _ _), _⟩
  apply Outcome.Ends.ok
  rw [hd.bytes, length_take]
  omega

/-- The calls read the chunks one after the other and left `rest`. -/
structure ReadsAll (A : Allocator) (b b' : IoBuf) (chunks : List (List Byte)) (rest : List Byte) :
    Prop where
  wf : b'.Wf A
  stream_eq : b'.stream = rest
  verify_hash_eq : b'.verify_hash = b.verify_hash
  hash_eq : b'.hash = chain_all b.verify_hash b.hash chunks

theorem ReadsAll.refl (hb : b.Wf A) : ReadsAll A b b [] b.stream := ⟨hb, rfl, rfl, rfl⟩

theorem Reads.all (h : Reads A b b' data rest) : ReadsAll A b b' [data] rest :=
  ⟨h.wf, h.stream_eq, h.verify_hash_eq, h.hash_eq⟩

theorem ReadsAll.trans {b₁ b₂ : IoBuf} {cs ds : List (List Byte)} {rest₁ : List Byte}
    (h₁ : ReadsAll A b b₁ cs rest₁) (h₂ : ReadsAll A b₁ b₂ ds rest) :
    ReadsAll A b b₂ (cs ++ ds) rest := by
  refine ⟨h₂.wf, h₂.stream_eq, h₂.verify_hash_eq.trans h₁.verify_hash_eq, ?_⟩
  rw [h₂.hash_eq, h₁.hash_eq, h₁.verify_hash_eq, chain_all, chain_all, chain_all, foldl_append]

end IoBuf

end VW
