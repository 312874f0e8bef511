import VowpalWabbit.Framework.Text

/-! # Versions

    `core/include/vw/core/version.h`, `core/src/version.cc` and the versions of
    `core/include/vw/core/vw_versions.h` at which the header of a model changed.
-/

open Cpp

namespace VW

structure VersionStruct where
  major : Int
  minor : Int
  rev : Int
  deriving DecidableEq, Repr

namespace VersionStruct

def lt (v w : VersionStruct) : Bool :=
  v.major < w.major || (v.major == w.major && v.minor < w.minor) ||
    (v.major == w.major && v.minor == w.minor && v.rev < w.rev)

def ge (v w : VersionStruct) : Bool := !v.lt w

def le (v w : VersionStruct) : Bool := !w.lt v

def to_string (v : VersionStruct) : String :=
  toString v.major ++ "." ++ toString v.minor ++ "." ++ toString v.rev

/-- The conversion `%d`. A number that is no `int` has no defined behaviour. -/
def scan_int (str : List Byte) : Outcome (Option (Int × List Byte)) :=
  let str := str.dropWhile is_space
  let (neg, str) :=
    match str with
    | c :: cs => if c = 45 then (true, cs) else if c = 43 then (false, cs) else (false, str)
    | [] => (false, [])
  let digits := str.takeWhile is_digit
  let value : Int := if neg then -(digits_value digits) else digits_value digits
  if digits = [] then .ok none
  else if -2 ^ 31 ≤ value ∧ value < 2 ^ 31 then .ok (some (value, str.dropWhile is_digit))
  else Outcome.undefined

/-- `sscanf(str, "%d.%d.%d", ...)`. What is not converted stays uninitialised. -/
def from_string (str : List Byte) : Outcome VersionStruct := do
  match ← scan_int str with
  | some (major, 46 :: str) =>
    match ← scan_int str with
    | some (minor, 46 :: str) =>
      match ← scan_int str with
      | some (rev, _) => return ⟨major, minor, rev⟩
      | none => Outcome.undefined
    | _ => Outcome.undefined
  | _ => Outcome.undefined

end VersionStruct

def VERSION : VersionStruct := ⟨9, 11, 2⟩

def LAST_COMPATIBLE_VERSION : VersionStruct := ⟨7, 6, 0⟩
def VERSION_FILE_WITH_RANK_IN_HEADER : VersionStruct := ⟨7, 8, 0⟩
def VERSION_FILE_WITH_INTERACTIONS : VersionStruct := ⟨7, 10, 2⟩
def VERSION_FILE_WITH_INTERACTIONS_IN_FO : VersionStruct := ⟨7, 10, 3⟩
def VERSION_FILE_WITH_HEADER_HASH : VersionStruct := ⟨8, 0, 1⟩
def VERSION_FILE_WITH_HEADER_CHAINED_HASH : VersionStruct := ⟨8, 0, 2⟩
def VERSION_FILE_WITH_HEADER_ID : VersionStruct := ⟨8, 0, 3⟩

theorem from_string_VERSION : VersionStruct.from_string (text VERSION.to_string) = .ok VERSION := by
  decide

end VW
