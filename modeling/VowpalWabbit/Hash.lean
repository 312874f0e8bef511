import VowpalWabbit.Framework.Bytes

/-! # The hash function

    `uniform_hash` of `common/hash.h`, which is MurmurHash3 for 32 bits. It
    hashes feature names, and it is the running checksum of model files.
-/

open Cpp

namespace VW

namespace Hash

/-- `rotl32` for `0 < r < 32`. -/
def rotl32 (x : BitVec 32) (r : Nat) : BitVec 32 := (x <<< r) ||| (x >>> (32 - r))

def fmix (h : BitVec 32) : BitVec 32 :=
  let h := h ^^^ (h >>> 16)
  let h := h * 0x85ebca6b
  let h := h ^^^ (h >>> 13)
  let h := h * 0xc2b2ae35
  h ^^^ (h >>> 16)

def c1 : BitVec 32 := 0xcc9e2d51
def c2 : BitVec 32 := 0x1b873593

def get_block (p0 p1 p2 p3 : Byte) : BitVec 32 :=
  p0.setWidth 32 ||| p1.setWidth 32 <<< 8 ||| p2.setWidth 32 <<< 16 ||| p3.setWidth 32 <<< 24

/-- What the body and the tail do to a block before it goes into the state. -/
def scramble (k1 : BitVec 32) : BitVec 32 := rotl32 (k1 * c1) 15 * c2

/-- The body, four bytes at a time, and then the tail. -/
def murmur_blocks (h1 : BitVec 32) : List Byte → BitVec 32
  | p0 :: p1 :: p2 :: p3 :: data =>
    murmur_blocks (rotl32 (h1 ^^^ scramble (get_block p0 p1 p2 p3)) 13 * 5 + 0xe6546b64) data
  | [t0, t1, t2] =>
    h1 ^^^ scramble (t2.setWidth 32 <<< 16 ^^^ t1.setWidth 32 <<< 8 ^^^ t0.setWidth 32)
  | [t0, t1] => h1 ^^^ scramble (t1.setWidth 32 <<< 8 ^^^ t0.setWidth 32)
  | [t0] => h1 ^^^ scramble (t0.setWidth 32)
  | [] => h1

def murmurhash_x86_32 (data : List Byte) (seed : BitVec 32) : BitVec 32 :=
  fmix (murmur_blocks seed data ^^^ BitVec.ofNat 32 data.length)

end Hash

def uniform_hash (data : List Byte) (seed : BitVec 32) : BitVec 32 :=
  Hash.murmurhash_x86_32 data seed

-- A reference value of MurmurHash3.
example : uniform_hash [0x21, 0x43, 0x65] 0 = 0x7e4a8634 := by decide

end VW
