import VowpalWabbit.Framework.Outcome
import VowpalWabbit.Framework.Single

/-! # Checks on the number of weight bits

    `core/src/vw_validate.cc`, and the parse mask that `core/src/parser.cc`
    derives from the number of bits.
-/

open Cpp

namespace VW

/-- `validate_num_bits`; with sparse weights a large value only gets a warning. -/
def validate_num_bits (sparse : Bool) (num_bits : BitVec 32) : Outcome Unit :=
  if 61 < num_bits.toNat then
    if sparse then .ok ()
    else Outcome.throw_ "Only 61 or fewer bits allowed.  If this is a serious limit, speak up."
  else .ok ()

/-- `(static_cast<uint64_t>(1) << num_bits) - 1`. -/
def parse_mask (num_bits : BitVec 32) : Outcome (BitVec 64) :=
  if num_bits.toNat < 64 then .ok ((1#64 <<< num_bits.toNat) - 1) else Outcome.undefined

theorem le_of_validate_num_bits {num_bits : BitVec 32}
    (h : validate_num_bits false num_bits = .ok ()) : num_bits.toNat ≤ 61 := by
  by_contra hlt
  rw [validate_num_bits, if_pos (by omega)] at h
  cases h

/-- A masked index has the low `num_bits` bits. -/
theorem toNat_and_parse_mask {num_bits : BitVec 32} {mask : BitVec 64}
    (h : parse_mask num_bits = .ok mask) (i : BitVec 64) :
    (i &&& mask).toNat = i.toNat % 2 ^ num_bits.toNat := by
  unfold parse_mask at h
  split at h
  · rename_i hlt
    cases h
    have hpow : 2 ^ num_bits.toNat < 2 ^ 64 := Nat.pow_lt_pow_right (by decide) hlt
    have hpos := Nat.two_pow_pos num_bits.toNat
    have hmask : ((1#64 <<< num_bits.toNat) - 1).toNat = 2 ^ num_bits.toNat - 1 := by
      rw [BitVec.toNat_sub, BitVec.toNat_shiftLeft, Nat.shiftLeft_eq]
      simp
      omega
    rw [BitVec.toNat_and, hmask, Nat.and_two_pow_sub_one_eq_mod]
  · cases h

end VW
