import VowpalWabbit.Framework.Outcome
import VowpalWabbit.Framework.Bytes

/-! # Strings of characters

    A `std::string` is the list of its bytes; a C string is what stands in
    front of the first `\0` in a piece of memory. Classification of characters
    is that of the "C" locale.
-/

namespace Cpp

/-- The bytes of a string literal. -/
def text (s : String) : List Byte := s.toList.map fun c => BitVec.ofNat 8 c.toNat

def is_digit (c : Byte) : Bool := 48 ≤ c.toNat && c.toNat ≤ 57

def is_space (c : Byte) : Bool := c.toNat = 32 || (9 ≤ c.toNat && c.toNat ≤ 13)

/-- The number written by a string of digits. -/
def digits_value (cs : List Byte) : Nat := cs.foldl (fun n c => 10 * n + (c.toNat - 48)) 0

/-- The C string at the front of a piece of memory; without a `\0` in it the
    search for one leaves the memory. -/
def c_string (memory : List Byte) : Outcome (List Byte) :=
  if 0 ∈ memory then .ok (memory.takeWhile (· ≠ 0)) else Outcome.undefined

/-- `memcpy` to the front of a piece of memory. -/
def overwrite (memory data : List Byte) : List Byte := data ++ memory.drop data.length

theorem length_overwrite {memory data : List Byte} (h : data.length ≤ memory.length) :
    (overwrite memory data).length = memory.length := by
  rw [overwrite, List.length_append, List.length_drop]
  omega

/-- A string stored with a `\0` behind it is found again, up to a `\0` of its own. -/
theorem c_string_terminated (s rest : List Byte) :
    c_string (s ++ 0 :: rest) = .ok (s.takeWhile (· ≠ 0)) := by
  rw [c_string, if_pos (List.mem_append_right s List.mem_cons_self)]
  congr 1
  induction s with
  | nil => rfl
  | cons c cs ih =>
    rw [List.cons_append, List.takeWhile_cons, List.takeWhile_cons, ih]

end Cpp
