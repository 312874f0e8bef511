import VowpalWabbit.IoBuf.Values
import VowpalWabbit.Features
import VowpalWabbit.Framework.Single

/-! # The example cache

    `cache_parser/src/parse_example_cache.cc`. After the first pass the parsed
    examples are read back from a binary cache. The features of a namespace
    are a block: its size, then for each feature the zig-zag coded difference
    to the index before it, shifted left by two flag bits and written in base
    128, and the value where it is neither `1` nor `-1`.

    The decoder goes through raw pointers. It takes the function that loads a
    byte as a parameter, so that one can also ask what happens when it is
    denied the bytes outside the block.
-/

open Cpp

namespace VW

namespace Cache

def INTS_SIZE : BitVec 64 := 11
def NEG_ONE : BitVec 64 := 1
def GENERAL : BitVec 64 := 2
def NEWLINE_EXAMPLE_INDICATOR : Byte := 0x31
def NON_NEWLINE_EXAMPLE_INDICATOR : Byte := 0x30

/-- The exception of `read_cached_features` and `read_example_from_cache`. -/
def RAN_OUT_OF_CACHE : String := "Ran out of cache while reading example. File may be truncated."

/-! ## Integers -/

/-- The loop of `variable_length_int_encode`; nine turns leave at most one bit
    of a 64-bit number. -/
def variable_length_int_encode_loop : Nat → BitVec 64 → List Byte
  | 0, num => [(num &&& 127).setWidth 8]
  | fuel + 1, num =>
    if 128 ≤ num.toNat then
      ((num &&& 127) ||| 128).setWidth 8 :: variable_length_int_encode_loop fuel (num >>> 7)
    else [(num &&& 127).setWidth 8]

def variable_length_int_encode (num : BitVec 64) : List Byte :=
  variable_length_int_encode_loop 9 num

/-- The loop of `variable_length_int_decode`, `left` digits before the shift
    `7 * count` reaches the width of the type. -/
def variable_length_int_decode_loop (load : Nat → Outcome Byte) :
    (left count read_head : Nat) → BitVec 64 → Outcome (Nat × BitVec 64)
  | 0, _, _, _ => Outcome.undefined
  | left + 1, count, read_head, num => do
    let c ← load read_head
    if c &&& 128 ≠ 0 then
      variable_length_int_decode_loop load left (count + 1) (read_head + 1)
        (num ||| (c &&& 127).setWidth 64 <<< (7 * count))
    else return (read_head + 1, num ||| c.setWidth 64 <<< (7 * count))

/-- The read head afterwards, and the number. -/
def variable_length_int_decode (load : Nat → Outcome Byte) (read_head : Nat) :
    Outcome (Nat × BitVec 64) :=
  variable_length_int_decode_loop load 10 0 read_head 0

/-- An `int64_t` is given by its two's complement bits. -/
def zig_zag_decode (n : BitVec 64) : BitVec 64 := (n >>> 1) ^^^ -(n &&& 1)

def zig_zag_encode (n : BitVec 64) : BitVec 64 := (n <<< 1) ^^^ n.sshiftRight 63

/-! ## Writing the features of a namespace -/

/-- The bytes one feature takes, when the one before it has the masked index `last`. -/
def cache_feature (mask last : BitVec 64) (value : Single) (index : FeatureIndex) : List Byte :=
  let diff := zig_zag_encode ((index &&& mask) - last) <<< 2
  if value = Single.one then variable_length_int_encode diff
  else if value = Single.neg_one then variable_length_int_encode (diff ||| NEG_ONE)
  else variable_length_int_encode (diff ||| GENERAL) ++ value.bytes

/-- The loop of `cache_features`. -/
def cache_features_loop (mask : BitVec 64) :
    (last : BitVec 64) → List (Single × FeatureIndex) → List Byte
  | _, [] => []
  | last, (value, index) :: fs =>
    cache_feature mask last value index ++ cache_features_loop mask (index &&& mask) fs

/-- `storage` of `cache_features`: the space it reserves for the block. -/
def cache_features_storage (feats : Features Single) : BitVec 64 :=
  feats.values.foldl
    (fun storage feat =>
      if feat ≠ Single.one ∧ feat ≠ Single.neg_one then storage + 4 else storage)
    (BitVec.ofNat 64 feats.size * INTS_SIZE)

/-- `cache_features`: what it adds to the output. Writing past the space that
    `buf_write` was asked for has no defined behaviour. -/
def cache_features (feats : Features Single) (mask : BitVec 64) : Outcome (List Byte) :=
  let block := cache_features_loop mask 0 feats.items
  if (cache_features_storage feats + 8).toNat < 8 + block.length then Outcome.undefined
  else .ok (le_bytes 8 block.length ++ block)

/-! ## Reading the features of a namespace -/

/-- One turn of the loop of `read_cached_features`: the read head afterwards,
    the value and the difference to the index before. -/
def read_cached_feature (load : Nat → Outcome Byte) (read_head : Nat) :
    Outcome (Nat × Single × BitVec 64) := do
  let (read_head, feat_idx) ← variable_length_int_decode load read_head
  let s_diff := zig_zag_decode (feat_idx >>> 2)
  if feat_idx &&& NEG_ONE ≠ 0 then return (read_head, Single.neg_one, s_diff)
  else if feat_idx &&& GENERAL ≠ 0 then do
    let f ← load_bytes load read_head 4
    return (read_head + 4, Single.of_bytes f, s_diff)
  else return (read_head, Single.one, s_diff)

/-- The loop of `read_cached_features`. Every turn consumes a byte, so the
    size of the block bounds their number. -/
def read_cached_features_loop (load : Nat → Outcome Byte) (end_ : Nat) :
    Nat → Nat → BitVec 64 → Bool → Features Single → Outcome (Nat × Bool × Features Single)
  | 0, read_head, _, sorted, feats =>
    if read_head < end_ then Outcome.undefined else .ok (read_head, sorted, feats)
  | fuel + 1, read_head, last, sorted, feats =>
    if read_head < end_ then do
      let (read_head, feat_value, s_diff) ← read_cached_feature load read_head
      let feat_idx := last + s_diff
      read_cached_features_loop load end_ fuel read_head feat_idx
        (if s_diff.slt 0 then false else sorted) (feats.push_back feat_value feat_idx)
    else .ok (read_head, sorted, feats)

/-- A way to look at the buffer while the block `[ptr, ptr + n)` is decoded. -/
abbrev View : Type := InternalBuffer → (ptr n : Nat) → Nat → Outcome Byte

/-- The view the code has: the whole allocation. -/
def whole_buffer : View := fun buffer _ _ => buffer.load

/-- Only the bytes of the block, everything else is out of bounds. -/
def block_only : View := fun buffer ptr n addr =>
  if ptr ≤ addr ∧ addr < ptr + n then buffer.load addr else Outcome.undefined

/-- `read_cached_features` through a view: the number of bytes it reports,
    the flag `sorted`, the features and the buffer. -/
def read_cached_features_via (view : View) (A : Allocator) (feats : Features Single) (b : IoBuf) :
    Outcome (Nat × Bool × Features Single × IoBuf) := do
  let (storage, b) ← b.read_value A 8 "feature count"
  let (read_head, count, b) ← b.buf_read A storage TEXT
  if count < storage then Outcome.throw_ RAN_OUT_OF_CACHE
  else do
    let (read_head, sorted, feats) ←
      read_cached_features_loop (view b.buffer read_head storage) (ptr_add read_head storage)
        storage read_head 0 true feats
    return ((8 + storage) % 2 ^ 64, sorted, feats, b.set read_head)

def read_cached_features (A : Allocator) (feats : Features Single) (b : IoBuf) :
    Outcome (Nat × Bool × Features Single × IoBuf) :=
  read_cached_features_via whole_buffer A feats b

end Cache

end VW
