import VowpalWabbit.Framework.Bytes
import Mathlib.Data.Nat.Log

/-! # Single-precision numbers

    The `binary32` format by its bit patterns. Every finite number is a whole
    multiple of `2 ^ -149`, so the exact result of an operation is a fraction
    in that unit, and the operation is that fraction rounded to the nearest
    number, to the even one on a tie.
-/

namespace Cpp

/-- A `float`, by its bit pattern. -/
structure Single where
  bits : BitVec 32
  deriving DecidableEq, Repr

namespace Single

/-- `1.f`; no other bit pattern compares equal to it. -/
def one : Single := ⟨0x3f800000⟩

def neg_one : Single := ⟨0xbf800000⟩

def infinity : Single := ⟨0x7f800000⟩

/-- The quiet NaN that an invalid operation gives. -/
def nan : Single := ⟨0x7fc00000⟩

instance : Zero Single := ⟨⟨0⟩⟩

/-- The pattern without its sign. -/
def magnitude (v : Single) : Nat := v.bits.toNat % 2 ^ 31

def negative (v : Single) : Bool := 2 ^ 31 ≤ v.bits.toNat

def is_nan (v : Single) : Bool := infinity.magnitude < v.magnitude

def is_infinite (v : Single) : Bool := v.magnitude = infinity.magnitude

def with_sign (neg : Bool) (magnitude : Nat) : Single :=
  ⟨BitVec.ofNat 32 (if neg then 2 ^ 31 + magnitude else magnitude)⟩

/-- A magnitude in units of `2 ^ -149`. -/
def units (magnitude : Nat) : Nat :=
  if magnitude < 2 ^ 23 then magnitude
  else (2 ^ 23 + magnitude % 2 ^ 23) * 2 ^ (magnitude / 2 ^ 23 - 1)

/-- A finite number in units of `2 ^ -149`. -/
def signed_units (v : Single) : Int :=
  if v.negative then -(units v.magnitude) else units v.magnitude

/-- `num / den` rounded to the nearest integer, to the even one on a tie. -/
def round_half_even (num den : Nat) : Nat :=
  let q := num / den
  let r := num % den
  if den < 2 * r ∨ (den = 2 * r ∧ q % 2 = 1) then q + 1 else q

/-- The magnitude nearest to `num / den` units. -/
def round_units (num den : Nat) : Nat :=
  let shift := Nat.log2 (num / den) - 23
  min (shift * 2 ^ 23 + round_half_even num (den * 2 ^ shift)) infinity.magnitude

instance : Add Single where
  add v w :=
    if v.is_nan || w.is_nan then nan
    else if v.is_infinite then
      if w.is_infinite && v.negative != w.negative then nan else v
    else if w.is_infinite then w
    else
      let sum := v.signed_units + w.signed_units
      -- An exact zero is negative only when both operands are.
      with_sign (if sum = 0 then v.negative && w.negative else sum < 0)
        (round_units sum.natAbs 1)

instance : Mul Single where
  mul v w :=
    let neg := v.negative != w.negative
    if v.is_nan || w.is_nan then nan
    else if v.is_infinite || w.is_infinite then
      if v.magnitude = 0 ∨ w.magnitude = 0 then nan else with_sign neg infinity.magnitude
    else with_sign neg (round_units (units v.magnitude * units w.magnitude) (2 ^ 149))

/-- `v < w`. -/
def lt (v w : Single) : Bool :=
  !v.is_nan && !w.is_nan &&
    (if v.negative then -(v.magnitude : Int) else v.magnitude) <
      (if w.negative then -(w.magnitude : Int) else w.magnitude)

def bytes (v : Single) : List Byte := le_bytes 4 v.bits.toNat

def of_bytes (bs : List Byte) : Single := ⟨BitVec.ofNat 32 (of_le_bytes bs)⟩

theorem length_bytes (v : Single) : v.bytes.length = 4 := length_le_bytes _ _

theorem of_bytes_bytes (v : Single) : of_bytes v.bytes = v := by
  have hlt : v.bits.toNat < 256 ^ 4 := v.bits.isLt
  rw [of_bytes, bytes, of_le_bytes_le_bytes _ _ hlt, BitVec.ofNat_toNat, BitVec.setWidth_eq]

end Single

end Cpp
