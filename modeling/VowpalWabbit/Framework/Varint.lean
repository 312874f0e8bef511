import VowpalWabbit.Framework.Bytes
import Mathlib.Tactic

/-! # Base-128 integers and sign bits

    A variable-length integer is a string of 7-bit digits, least significant
    first; the top bit of a byte says that another one follows. `value` gives
    the number a string stands for, `Terminated` says that a string is exactly
    one such integer, and `encode` writes one.

    The second part has the two masks that zig-zag coding is made of: the sign
    of a word spread over all its bits, and its lowest bit spread likewise.
-/

open Cpp

namespace Varint

open BitVec

/-! ## Base 128 -/

/-- The number that the 7-bit digits stand for. -/
def value : List Byte → Nat
  | [] => 0
  | c :: cs => c.toNat % 128 + 128 * value cs

/-- One whole integer: the top bit is set in every byte but the last. -/
inductive Terminated : List Byte → Prop where
  | last {c : Byte} : c.toNat < 128 → Terminated [c]
  | more {c : Byte} {cs : List Byte} : 128 ≤ c.toNat → Terminated cs → Terminated (c :: cs)

/-- Write `n` in at most `k + 1` bytes. -/
def encode : Nat → Nat → List Byte
  | 0, n => [BitVec.ofNat 8 (n % 128)]
  | k + 1, n =>
    if 128 ≤ n then BitVec.ofNat 8 (n % 128 + 128) :: encode k (n / 128)
    else [BitVec.ofNat 8 n]

theorem length_encode_le (k n : Nat) : (encode k n).length ≤ k + 1 := by
  induction k generalizing n with
  | zero => simp [encode]
  | succ k ih =>
    unfold encode
    split
    · simpa using ih (n / 128)
    · simp

theorem terminated_encode (k n : Nat) : Terminated (encode k n) := by
  induction k generalizing n with
  | zero =>
    apply Terminated.last
    simp only [toNat_ofNat]
    omega
  | succ k ih =>
    unfold encode
    split
    · apply Terminated.more _ (ih _)
      simp only [toNat_ofNat]
      omega
    · apply Terminated.last
      simp only [toNat_ofNat]
      omega

/-- `k + 1` digits are enough for a number below `128 ^ (k + 1)`. -/
theorem value_encode (k n : Nat) (h : n < 128 ^ (k + 1)) : value (encode k n) = n := by
  induction k generalizing n with
  | zero =>
    simp only [encode, value, toNat_ofNat]
    omega
  | succ k ih =>
    unfold encode
    split
    · have hdiv : n / 128 < 128 ^ (k + 1) := by
        rw [Nat.div_lt_iff_lt_mul (by decide), ← pow_succ]
        exact h
      simp only [value, ih _ hdiv, toNat_ofNat]
      omega
    · simp only [value, toNat_ofNat]
      omega

theorem Terminated.length_pos {cs : List Byte} (h : Terminated cs) : 0 < cs.length := by
  cases h with
  | last _ => simp
  | more _ _ => simp

variable {w : Nat}

/-- Digits that do not overlap are joined by addition. -/
theorem or_shiftLeft {num x : BitVec w} {s : Nat} (h : num.toNat < 2 ^ s) :
    num ||| x <<< s = BitVec.ofNat w (num.toNat + x.toNat * 2 ^ s) := by
  have hdisjoint : num &&& x <<< s = 0#w := by
    apply eq_of_getLsbD_eq
    intro i _
    rw [getLsbD_and, getLsbD_shiftLeft, getLsbD_zero]
    by_cases his : i < s
    · simp [his]
    · have hbit : num.getLsbD i = false := by
        apply Nat.testBit_lt_two_pow
        exact lt_of_lt_of_le h (Nat.pow_le_pow_right (by decide) (by omega))
      simp [hbit]
  rw [← add_eq_or_of_and_eq_zero _ _ hdisjoint]
  apply eq_of_toNat_eq
  rw [toNat_add, toNat_shiftLeft, toNat_ofNat, Nat.shiftLeft_eq, Nat.add_mod_mod]

/-! ## Sign bits -/

/-- The arithmetic shift that leaves only copies of the sign. -/
theorem sshiftRight_last (x : BitVec (w + 1)) :
    x.sshiftRight w = if x.msb then allOnes (w + 1) else 0#(w + 1) := by
  apply eq_of_getElem_eq
  intro i hi
  rw [getElem_sshiftRight, msb_eq_getLsbD_last, Nat.add_sub_cancel]
  split
  · rename_i h
    have h0 : i = 0 := by omega
    subst h0
    rw [← getLsbD_eq_getElem]
    cases x.getLsbD w with
    | true => simp
    | false => simp
  · cases x.getLsbD w with
    | true => rw [if_pos rfl, getElem_allOnes]
    | false => simp

/-- The lowest bit, spread over the whole word. -/
theorem neg_and_one (x : BitVec (w + 1)) :
    -(x &&& 1#(w + 1)) = if x.getLsbD 0 then allOnes (w + 1) else 0#(w + 1) := by
  have hbit : x &&& 1#(w + 1) = if x.getLsbD 0 then 1#(w + 1) else 0#(w + 1) := by
    apply eq_of_getElem_eq
    intro i hi
    cases hx : x.getLsbD 0 with
    | true =>
      simp only [getElem_and, if_true, getElem_one]
      grind
    | false =>
      simp only [getElem_and, getElem_one]
      grind
  rw [hbit]
  split
  · exact neg_one_eq_allOnes
  · simp

end Varint
