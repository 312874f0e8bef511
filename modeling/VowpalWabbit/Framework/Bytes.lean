import Mathlib.Data.List.Basic
import Mathlib.Tactic.Ring

/-! # Little-endian byte strings

    The object representation of an unsigned integer on a little-endian
    machine: `le_bytes n v` is what `memcpy` copies out of an `n`-byte integer
    of value `v`, and `of_le_bytes` is the value it puts back.
-/

namespace Cpp

/-- An octet. -/
abbrev Byte : Type := BitVec 8

scoped instance byte_lawful : LawfulBEq Byte := inferInstance

scoped instance bytes_lawful : LawfulBEq (List Byte) := inferInstance

/-- The `n` little-endian bytes of `v` (`v` modulo `256 ^ n`). -/
def le_bytes : Nat → Nat → List Byte
  | 0, _ => []
  | n + 1, v => BitVec.ofNat 8 v :: le_bytes n (v / 256)

/-- The value of a little-endian byte string. -/
def of_le_bytes : List Byte → Nat
  | [] => 0
  | b :: bs => b.toNat + 256 * of_le_bytes bs

@[simp] theorem length_le_bytes (n v : Nat) : (le_bytes n v).length = n := by
  induction n generalizing v with
  | zero => rfl
  | succ n ih => simp [le_bytes, ih]

theorem of_le_bytes_lt (bs : List Byte) : of_le_bytes bs < 256 ^ bs.length := by
  induction bs with
  | nil => simp [of_le_bytes]
  | cons b bs ih =>
    simp only [of_le_bytes, List.length_cons, pow_succ]
    omega

/-- Reading back what was written gives the value, when it fits. -/
theorem of_le_bytes_le_bytes (n v : Nat) (h : v < 256 ^ n) :
    of_le_bytes (le_bytes n v) = v := by
  induction n generalizing v with
  | zero =>
    have : v = 0 := by simpa using h
    simp [le_bytes, of_le_bytes, this]
  | succ n ih =>
    have hdiv : v / 256 < 256 ^ n := by
      rw [Nat.div_lt_iff_lt_mul (by decide)]
      simpa [pow_succ] using h
    simp only [le_bytes, of_le_bytes, ih _ hdiv, BitVec.toNat_ofNat]
    omega

/-- Writing out what was read gives the bytes. -/
theorem le_bytes_of_le_bytes (bs : List Byte) :
    le_bytes bs.length (of_le_bytes bs) = bs := by
  induction bs with
  | nil => rfl
  | cons b bs ih =>
    have hdiv : (b.toNat + 256 * of_le_bytes bs) / 256 = of_le_bytes bs := by omega
    have hhead : BitVec.ofNat 8 (b.toNat + 256 * of_le_bytes bs) = b := by
      apply BitVec.eq_of_toNat_eq
      simp only [BitVec.toNat_ofNat]
      omega
    simp only [of_le_bytes, List.length_cons, le_bytes, hdiv, ih, hhead]

end Cpp
