import VowpalWabbit.Framework.Text
import VowpalWabbit.Framework.SingleRounding

/-! # Numbers as text

    What `operator<<` prints and `operator>>` reads in the "C" locale: integers
    in decimal, and floating-point numbers in the style `%g` with a given
    precision. A number is read from a token as a whole. Printing with nine
    digits or more and reading back gives the same single-precision number.
-/

namespace Cpp

open List Nat Single

/-! ## Printing -/

/-- A natural number in decimal. -/
def decimal (n : Nat) : List Byte := text (toString n)

/-- An integer in decimal. -/
def print_integer (i : Int) : List Byte :=
  if i < 0 then 45 :: decimal i.natAbs else decimal i.natAbs

/-- The digits without the zeros at their end. -/
def strip_zeros (ds : List Byte) : List Byte := (ds.reverse.dropWhile (· = 48)).reverse

/-- A point stands only in front of digits. -/
def with_fraction (int frac : List Byte) : List Byte :=
  if strip_zeros frac = [] then int else int ++ 46 :: strip_zeros frac

/-- An exponent has a sign and at least two digits. -/
def print_exponent (x : Int) : List Byte :=
  101 :: (if x < 0 then 45 else 43) ::
    (if x.natAbs < 10 then 48 :: decimal x.natAbs else decimal x.natAbs)

namespace Single

/-- The exponent of the first decimal digit of `u` units. -/
def decimal_exponent (u : Nat) : Int :=
  if 2 ^ 149 ≤ u then log 10 (u / 2 ^ 149) else -(clog 10 ((2 ^ 149 + u - 1) / u) : Int)

/-- `precision` digits and the exponent of the first one, for `u` units; the
    digits may be rounded up to a further one. -/
def significand (precision u : Nat) : Nat × Int :=
  let x := decimal_exponent u
  let d := round_half_even (u * 10 ^ ((precision : Int) - 1 - x).toNat)
    (2 ^ 149 * 10 ^ (x - ((precision : Int) - 1)).toNat)
  if d = 10 ^ precision then (10 ^ (precision - 1), x + 1) else (d, x)

/-- The style `%g` of a positive number. -/
def print_significand (precision d : Nat) (x : Int) : List Byte :=
  let ds := decimal d
  if -4 ≤ x ∧ x < precision then
    if 0 ≤ x then with_fraction (ds.take (x.toNat + 1)) (ds.drop (x.toNat + 1))
    else with_fraction [48] (replicate ((-x).toNat - 1) 48 ++ ds)
  else with_fraction (ds.take 1) (ds.drop 1) ++ print_exponent x

/-- The conversion `%.*g`. -/
def print (precision : Nat) (v : Single) : List Byte :=
  (if v.negative then [45] else []) ++
    (if v.is_nan then text "nan"
     else if v.is_infinite then text "inf"
     else if units v.magnitude = 0 then [48]
     else print_significand precision (significand precision (units v.magnitude)).1
      (significand precision (units v.magnitude)).2)

end Single

/-! ## Reading -/

/-- A sign, if there is one. -/
def scan_sign (s : List Byte) : Bool × List Byte :=
  match s with
  | [] => (false, [])
  | c :: cs => if c = 45 then (true, cs) else if c = 43 then (false, cs) else (false, c :: cs)

/-- A token that is an integer as a whole: its sign and its magnitude. -/
def scan_integer (token : List Byte) : Option (Bool × Nat) :=
  let (neg, s) := scan_sign (token.dropWhile is_space)
  if s.takeWhile is_digit ≠ [] ∧ s.dropWhile is_digit = [] then
    some (neg, digits_value (s.takeWhile is_digit))
  else none

/-- An unsigned type takes a negative number modulo `2 ^ w`. -/
def scan_unsigned (w : Nat) (token : List Byte) : Option (BitVec w) :=
  match scan_integer token with
  | none => none
  | some (neg, n) =>
    if 2 ^ w ≤ n then none
    else some (if neg then -(BitVec.ofNat w n) else BitVec.ofNat w n)

def scan_signed (w : Nat) (token : List Byte) : Option (BitVec w) :=
  match scan_integer token with
  | none => none
  | some (neg, n) =>
    let value : Int := if neg then -n else n
    if -2 ^ (w - 1) ≤ value ∧ value < 2 ^ (w - 1) then some (BitVec.ofInt w value) else none

/-- An exponent, if there is one with digits in it. -/
def scan_exponent (s : List Byte) : Int × List Byte :=
  match s with
  | [] => (0, [])
  | c :: cs =>
    if c = 101 ∨ c = 69 then
      let (neg, t) := scan_sign cs
      if t.takeWhile is_digit = [] then (0, c :: cs)
      else
        (if neg then -(digits_value (t.takeWhile is_digit) : Int)
          else digits_value (t.takeWhile is_digit), t.dropWhile is_digit)
    else (0, c :: cs)

/-- The digits behind a point. -/
def scan_fraction (s : List Byte) : List Byte × List Byte :=
  match s with
  | [] => ([], [])
  | c :: cs => if c = 46 then (cs.takeWhile is_digit, cs.dropWhile is_digit) else ([], c :: cs)

/-- A decimal number: its digits as an integer, how many of them stand behind
    the point, the exponent, and what follows. -/
def scan_decimal (s : List Byte) : Option (Nat × Nat × Int × List Byte) :=
  let int := s.takeWhile is_digit
  let (frac, s) := scan_fraction (s.dropWhile is_digit)
  if int ++ frac = [] then none
  else
    let (exponent, rest) := scan_exponent s
    some (digits_value (int ++ frac), frac.length, exponent, rest)

/-- `mantissa * 10 ^ (exponent - fraction)`, rounded. -/
def Single.of_decimal (neg : Bool) (mantissa fraction : Nat) (exponent : Int) : Single :=
  let e := exponent - fraction
  .with_sign neg (round_units (mantissa * 10 ^ e.toNat * 2 ^ 149) (10 ^ (-e).toNat))

/-- A token that is a decimal number as a whole; one that is too large is an
    error, and so are the names of infinities and NaNs. -/
def scan_float (token : List Byte) : Option Single :=
  let (neg, s) := scan_sign (token.dropWhile is_space)
  match scan_decimal s with
  | some (mantissa, fraction, exponent, []) =>
    let v := of_decimal neg mantissa fraction exponent
    if v.is_infinite then none else some v
  | _ => none

/-! ### `strtof` -/

def to_lower (c : Byte) : Byte := if 65 ≤ c.toNat ∧ c.toNat ≤ 90 then c + 32 else c

/-- The text begins with `word`, in upper or lower case. -/
def begins_with (word : String) (s : List Byte) : Bool :=
  (s.take word.length).map to_lower == text word

def is_hex_digit (c : Byte) : Bool := is_digit c || (97 ≤ (to_lower c).toNat && (to_lower c).toNat ≤ 102)

/-- What may stand in the brackets behind `nan`. -/
def is_nan_char (c : Byte) : Bool :=
  is_digit c || (97 ≤ (to_lower c).toNat && (to_lower c).toNat ≤ 122) || c = 95

/-- What `strtof` leaves behind a `nan`. -/
def after_nan (s : List Byte) : List Byte :=
  match s with
  | [] => []
  | c :: cs =>
    if c = 40 then
      match cs.dropWhile is_nan_char with
      | d :: ds => if d = 41 then ds else c :: cs
      | [] => c :: cs
    else c :: cs

/-- What `strtof` leaves behind a binary exponent, if there is one. -/
def after_binary_exponent (s : List Byte) : List Byte :=
  match s with
  | [] => []
  | c :: cs =>
    if to_lower c = 112 ∧ (scan_sign cs).2.takeWhile is_digit ≠ [] then
      (scan_sign cs).2.dropWhile is_digit
    else c :: cs

/-- What `strtof` leaves behind the digits after `0x`, if there are any. -/
def after_hex (s : List Byte) : Option (List Byte) :=
  let t := s.dropWhile is_hex_digit
  match t with
  | [] => if s = [] then none else some []
  | c :: cs =>
    if c = 46 then
      if s.takeWhile is_hex_digit = [] ∧ cs.takeWhile is_hex_digit = [] then none
      else some (after_binary_exponent (cs.dropWhile is_hex_digit))
    else if s.takeWhile is_hex_digit = [] then none
    else some (after_binary_exponent (c :: cs))

/-- What `strtof` leaves of a C string; all of it, when it is no number. -/
def strtof_rest (str : List Byte) : List Byte :=
  let s := (scan_sign (str.dropWhile is_space)).2
  if begins_with "infinity" s then s.drop 8
  else if begins_with "inf" s then s.drop 3
  else if begins_with "nan" s then after_nan (s.drop 3)
  else if begins_with "0x" s then (after_hex (s.drop 2)).getD (s.drop 1)
  else
    match scan_decimal s with
    | some (_, _, _, rest) => rest
    | none => str

/-! ## Digits -/

/-- All characters are digits. -/
def Digits (ds : List Byte) : Prop := ∀ c ∈ ds, is_digit c = true

theorem decimal_eq (n : Nat) :
    decimal n = (toDigits 10 n).map fun c => BitVec.ofNat 8 c.toNat := by
  rw [decimal, text, toString_eq_ofList_toDigits, String.toList_ofList]

theorem toNat_digit {c : Char} (h : c.isDigit = true) :
    (BitVec.ofNat 8 c.toNat).toNat = c.toNat ∧ 48 ≤ c.toNat ∧ c.toNat ≤ 57 := by
  have hc : 48 ≤ c.toNat ∧ c.toNat ≤ 57 := by
    simp only [Char.isDigit, ge_iff_le, Bool.and_eq_true, decide_eq_true_eq] at h
    exact ⟨h.1, h.2⟩
  rw [BitVec.toNat_ofNat]
  omega

theorem digits_decimal (n : Nat) : Digits (decimal n) := by
  intro c hc
  rw [decimal_eq, mem_map] at hc
  obtain ⟨d, hd, rfl⟩ := hc
  obtain ⟨heq, hlo, hhi⟩ := toNat_digit (isDigit_of_mem_toDigits (by decide) (by decide) hd)
  rw [is_digit, heq]
  simp [hlo, hhi]

theorem digits_value_decimal (n : Nat) : digits_value (decimal n) = n := by
  have hfold : ∀ (cs : List Char) (m : Nat), (∀ c ∈ cs, c.isDigit = true) →
      (cs.map fun c => BitVec.ofNat 8 c.toNat).foldl (fun n (c : Byte) => 10 * n + (c.toNat - 48)) m
        = ofDigitChars 10 cs m := by
    intro cs
    induction cs with
    | nil =>
      intro m _
      rw [ofDigitChars_nil]
      rfl
    | cons c cs ih =>
      intro m h
      rw [map_cons, foldl_cons, ih _ fun d hd => h d (mem_cons_of_mem _ hd),
        (toNat_digit (h c mem_cons_self)).1, ofDigitChars_cons]
      rfl
  rw [digits_value, decimal_eq, hfold _ _ fun c hc =>
    isDigit_of_mem_toDigits (by decide) (by decide) hc]
  exact ofDigitChars_toDigits (by decide) (by decide)

theorem decimal_ne_nil (n : Nat) : decimal n ≠ [] := by
  rw [decimal_eq, ne_eq, map_eq_nil_iff]
  exact toDigits_ne_nil

variable {k : Nat}

theorem length_decimal {n : Nat} (hlo : 10 ^ k ≤ n) (hhi : n < 10 ^ (k + 1)) :
    (decimal n).length = k + 1 := by
  rw [decimal_eq, length_map]
  apply le_antisymm
  · exact (length_toDigits_le_iff (by decide) (succ_pos k)).mpr hhi
  · rcases Nat.eq_zero_or_pos k with rfl | hk
    · exact length_toDigits_pos
    · by_contra hlt
      have := (length_toDigits_le_iff (n := n) (b := 10) (by decide) hk).mp (by omega)
      omega

theorem digits_value_append (xs ys : List Byte) :
    digits_value (xs ++ ys) = digits_value xs * 10 ^ ys.length + digits_value ys := by
  have hfold : ∀ (ys : List Byte) (m : Nat),
      ys.foldl (fun n c => 10 * n + (c.toNat - 48)) m
        = m * 10 ^ ys.length + ys.foldl (fun n c => 10 * n + (c.toNat - 48)) 0 := by
    intro ys
    induction ys with
    | nil => simp
    | cons c cs ih =>
      intro m
      rw [foldl_cons, foldl_cons, ih, ih (10 * 0 + _), length_cons]
      ring
  rw [digits_value, foldl_append, hfold]
  rfl

theorem digits_value_replicate (k : Nat) : digits_value (List.replicate k 48) = 0 := by
  induction k with
  | zero => rfl
  | succ k ih =>
    rw [replicate_succ', digits_value_append, ih]
    rfl

/-- The zeros that are stripped can be put back. -/
theorem strip_zeros_append (ds : List Byte) :
    ∃ k, ds = strip_zeros ds ++ replicate k 48 := by
  have h := takeWhile_append_dropWhile (p := fun c : Byte => decide (c = 48)) (l := ds.reverse)
  refine ⟨(ds.reverse.takeWhile (· = 48)).length, ?_⟩
  have hzeros : ds.reverse.takeWhile (· = 48)
      = replicate (ds.reverse.takeWhile (· = 48)).length 48 := by
    apply eq_replicate_of_mem
    intro c hc
    have hall := all_takeWhile (p := fun c : Byte => decide (c = 48)) (l := ds.reverse)
    simpa using all_eq_true.mp hall c hc
  calc ds = ds.reverse.reverse := (reverse_reverse ds).symm
    _ = (ds.reverse.takeWhile (· = 48) ++ ds.reverse.dropWhile (· = 48)).reverse := by rw [h]
    _ = strip_zeros ds ++ (ds.reverse.takeWhile (· = 48)).reverse := by
      rw [reverse_append]
      rfl
    _ = _ := by rw [hzeros, reverse_replicate, length_replicate]

theorem Digits.append {xs ys : List Byte} (hx : Digits xs) (hy : Digits ys) : Digits (xs ++ ys) := by
  intro c hc
  rcases mem_append.mp hc with h | h
  · exact hx c h
  · exact hy c h

theorem digits_zero : Digits [48] := by
  intro c hc
  rw [mem_singleton.mp hc]
  decide

variable {ds : List Byte}

theorem Digits.strip_zeros (h : Digits ds) : Digits (strip_zeros ds) := by
  obtain ⟨k, hk⟩ := strip_zeros_append ds
  intro c hc
  apply h
  rw [hk]
  exact mem_append_left _ hc

theorem Digits.take (h : Digits ds) (n : Nat) : Digits (ds.take n) :=
  fun c hc => h c (mem_of_mem_take hc)

theorem Digits.drop (h : Digits ds) (n : Nat) : Digits (ds.drop n) :=
  fun c hc => h c (mem_of_mem_drop hc)

/-- The digits of a number with a point after `n` of them. -/
theorem decimal_split (d n : Nat) :
    ∃ z, d = digits_value ((decimal d).take n ++ strip_zeros ((decimal d).drop n)) * 10 ^ z ∧
      (decimal d).length - n = (strip_zeros ((decimal d).drop n)).length + z := by
  obtain ⟨z, hz⟩ := strip_zeros_append ((decimal d).drop n)
  refine ⟨z, ?_, ?_⟩
  · have hvalue := digits_value_decimal d
    rw [← take_append_drop n (decimal d), hz, ← append_assoc, digits_value_append,
      digits_value_replicate, length_replicate, add_zero] at hvalue
    exact hvalue.symm
  · have := congrArg length hz
    rw [length_drop, length_append, length_replicate] at this
    exact this

/-! ## Scanning what was printed -/

/-- No digit comes next. -/
def Stops (s : List Byte) : Prop := ∀ c ∈ s.head?, is_digit c = false

theorem takeWhile_digits {ds rest : List Byte} (h : Digits ds) (hrest : Stops rest) :
    (ds ++ rest).takeWhile is_digit = ds ∧ (ds ++ rest).dropWhile is_digit = rest := by
  rw [takeWhile_append_of_pos h, dropWhile_append_of_pos h]
  cases rest with
  | nil => exact ⟨append_nil ds, rfl⟩
  | cons c cs =>
    have hc : is_digit c = false := hrest c rfl
    rw [takeWhile_cons, dropWhile_cons, hc]
    exact ⟨append_nil ds, rfl⟩

/-- A digit is neither a sign nor a space. -/
theorem scan_sign_digits {rest : List Byte} (h : Digits ds) (hne : ds ≠ []) :
    (ds ++ rest).dropWhile is_space = ds ++ rest ∧ scan_sign (ds ++ rest) = (false, ds ++ rest) := by
  cases ds with
  | nil => exact absurd rfl hne
  | cons c cs =>
    have hc := h c mem_cons_self
    simp only [is_digit, Bool.and_eq_true, decide_eq_true_eq] at hc
    have hspace : is_space c = false := by
      simp only [is_space, Bool.or_eq_false_iff, Bool.and_eq_false_iff, decide_eq_false_iff_not]
      omega
    have hminus : c ≠ 45 := by
      rintro rfl
      exact absurd hc.1 (by decide)
    have hplus : c ≠ 43 := by
      rintro rfl
      exact absurd hc.1 (by decide)
    rw [cons_append, dropWhile_cons, hspace, scan_sign, if_neg hminus, if_neg hplus]
    exact ⟨rfl, rfl⟩

/-- A number behind an optional minus. -/
theorem scan_sign_printed (neg : Bool) {ds rest : List Byte} (h : Digits ds) (hne : ds ≠ []) :
    scan_sign (((if neg then [45] else []) ++ (ds ++ rest)).dropWhile is_space) = (neg, ds ++ rest) := by
  cases neg with
  | true => rfl
  | false =>
    show scan_sign ((ds ++ rest).dropWhile is_space) = _
    rw [(scan_sign_digits h hne).1, (scan_sign_digits h hne).2]

theorem scan_integer_decimal (neg : Bool) (n : Nat) :
    scan_integer ((if neg then [45] else []) ++ decimal n) = some (neg, n) := by
  have hsign := @scan_sign_printed neg _ [] (digits_decimal n) (decimal_ne_nil n)
  have hscan := @takeWhile_digits _ [] (digits_decimal n) (fun c hc => by cases hc)
  rw [append_nil] at hsign hscan
  unfold scan_integer
  simp only [hsign, hscan.1, hscan.2]
  rw [if_pos ⟨decimal_ne_nil n, trivial⟩, digits_value_decimal]

theorem scan_unsigned_decimal {w : Nat} (v : BitVec w) :
    scan_unsigned w (decimal v.toNat) = some v := by
  have hscan : scan_integer (decimal v.toNat) = some (false, v.toNat) :=
    scan_integer_decimal false v.toNat
  unfold scan_unsigned
  rw [hscan]
  simp only
  rw [if_neg (Nat.not_le.mpr v.isLt)]
  simp

theorem scan_signed_print {w : Nat} (v : BitVec w) :
    scan_signed w (print_integer v.toInt) = some v := by
  have hscan : scan_integer (print_integer v.toInt) = some (decide (v.toInt < 0), v.toInt.natAbs) := by
    rw [← scan_integer_decimal]
    congr 1
    unfold print_integer
    by_cases hneg : v.toInt < 0
    · simp [hneg]
    · simp [hneg]
  have hvalue : (if decide (v.toInt < 0) then -(v.toInt.natAbs : Int) else v.toInt.natAbs)
      = v.toInt := by
    by_cases hneg : v.toInt < 0
    · rw [decide_eq_true hneg, if_pos rfl]
      omega
    · rw [decide_eq_false hneg, if_neg Bool.false_ne_true]
      omega
  have hlo := BitVec.le_toInt v
  have hhi := BitVec.toInt_lt (x := v)
  unfold scan_signed
  rw [hscan]
  simp only [hvalue]
  rw [if_pos ⟨hlo, hhi⟩, BitVec.ofInt_toInt]

/-! ### Floating-point numbers -/

theorem scan_exponent_print (x : Int) : scan_exponent (print_exponent x) = (x, []) := by
  set ds := if x.natAbs < 10 then 48 :: decimal x.natAbs else decimal x.natAbs with hds
  have hdigits : Digits ds := by
    rw [hds]
    split
    · exact digits_zero.append (digits_decimal _)
    · exact digits_decimal _
  have hne : ds ≠ [] := by
    rw [hds]
    split
    · exact cons_ne_nil _ _
    · exact decimal_ne_nil _
  have hvalue : digits_value ds = x.natAbs := by
    rw [hds]
    split
    · rw [← singleton_append, digits_value_append, digits_value_decimal]
      have : digits_value [48] = 0 := by decide
      rw [this]
      omega
    · exact digits_value_decimal _
  have hsign : scan_sign ((if x < 0 then 45 else 43) :: ds) = (decide (x < 0), ds) := by
    by_cases hneg : x < 0
    · rw [if_pos hneg, decide_eq_true hneg]
      rfl
    · rw [if_neg hneg, decide_eq_false hneg]
      rfl
  obtain ⟨htake, hdrop⟩ := @takeWhile_digits _ [] hdigits (fun c hc => by cases hc)
  rw [append_nil] at htake hdrop
  show scan_exponent (101 :: (if x < 0 then 45 else 43) :: ds) = _
  rw [scan_exponent, if_pos (Or.inl rfl), hsign]
  simp only [htake, hdrop, hvalue]
  rw [if_neg hne]
  by_cases hneg : x < 0
  · simp only [hneg, decide_true, if_true, Prod.mk.injEq, and_true]
    omega
  · simp only [hneg, decide_false, Bool.false_eq_true, if_false, Prod.mk.injEq, and_true]
    omega

/-- What `%g` puts behind the digits: nothing, or an exponent. -/
def Tail (s : List Byte) : Prop := ∀ c ∈ s.head?, is_digit c = false ∧ c ≠ 46

theorem tail_nil : Tail [] := fun c hc => by cases hc

theorem tail_exponent (x : Int) : Tail (print_exponent x) := by
  intro c hc
  cases hc
  decide

theorem scan_decimal_printed {int frac tail : List Byte} (hint : Digits int) (hne : int ≠ [])
    (hfrac : Digits frac) (htail : Tail tail) :
    scan_decimal (with_fraction int frac ++ tail) =
      some (digits_value (int ++ strip_zeros frac), (strip_zeros frac).length,
        (scan_exponent tail).1, (scan_exponent tail).2) := by
  have hstop : Stops tail := fun c hc => (htail c hc).1
  unfold scan_decimal with_fraction
  split
  · rename_i hnil
    obtain ⟨htake, hdrop⟩ := takeWhile_digits hint hstop
    have hscan : scan_fraction tail = ([], tail) := by
      cases tail with
      | nil => rfl
      | cons c cs => rw [scan_fraction, if_neg (htail c rfl).2]
    simp only [htake, hdrop, hscan, hnil, append_nil, length_nil]
    rw [if_neg hne]
  · have hpoint : Stops (46 :: strip_zeros frac ++ tail) := by
      intro c hc
      cases hc
      decide
    obtain ⟨htake, hdrop⟩ := takeWhile_digits hint hpoint
    obtain ⟨htake', hdrop'⟩ := takeWhile_digits hfrac.strip_zeros hstop
    have hscan : scan_fraction (46 :: strip_zeros frac ++ tail) = (strip_zeros frac, tail) := by
      rw [cons_append, scan_fraction, if_pos rfl, htake', hdrop']
    rw [append_assoc]
    simp only [htake, hdrop, hscan]
    rw [if_neg (append_ne_nil_of_left_ne_nil hne _)]

/-- The text of a number begins with digits. -/
theorem with_fraction_begins {int : List Byte} (frac tail : List Byte) :
    ∃ rest, with_fraction int frac ++ tail = int ++ rest := by
  unfold with_fraction
  split
  · exact ⟨tail, rfl⟩
  · exact ⟨46 :: strip_zeros frac ++ tail, append_assoc _ _ _⟩

variable {v : Single}

namespace Single

/-- What stands in the text of a number: digits whose value, scaled by the
    exponent, is that of the significand. -/
theorem print_significand_spec {d : Nat} (x : Int) (hlo : 10 ^ k ≤ d) (hhi : d < 10 ^ (k + 1)) :
    (∃ ds rest, Digits ds ∧ ds ≠ [] ∧ print_significand (k + 1) d x = ds ++ rest) ∧
    ∃ (m f : Nat) (e : Int) (z : Nat),
      scan_decimal (print_significand (k + 1) d x) = some (m, f, e, []) ∧
      d = m * 10 ^ z ∧ e - (f : Int) = x - k + z := by
  have hlen := length_decimal hlo hhi
  have hdigits := digits_decimal d
  have hvalue := digits_value_decimal d
  unfold print_significand
  split
  · rename_i hfixed
    split
    · -- The point stands behind the digit of the units.
      have hne : (decimal d).take (x.toNat + 1) ≠ [] := by
        rw [ne_eq, take_eq_nil_iff]
        rintro (h | h)
        · omega
        · exact decimal_ne_nil d h
      constructor
      · obtain ⟨rest, hrest⟩ := with_fraction_begins ((decimal d).drop (x.toNat + 1)) []
        rw [append_nil] at hrest
        exact ⟨_, rest, hdigits.take _, hne, hrest⟩
      · obtain ⟨z, hd, hz⟩ := decimal_split d (x.toNat + 1)
        have hscan := scan_decimal_printed (hdigits.take (x.toNat + 1)) hne
          (hdigits.drop (x.toNat + 1)) tail_nil
        rw [append_nil] at hscan
        refine ⟨_, _, _, z, hscan, hd, ?_⟩
        rw [hlen] at hz
        show (0 : Int) - _ = _
        omega
    · -- Zeros stand between the point and the digits.
      rename_i hneg
      have hfrac : Digits (replicate ((-x).toNat - 1) 48 ++ decimal d) := by
        apply Digits.append _ hdigits
        intro c hc
        rw [eq_of_mem_replicate hc]
        decide
      constructor
      · obtain ⟨rest, hrest⟩ := @with_fraction_begins [48]
          (replicate ((-x).toNat - 1) 48 ++ decimal d) []
        rw [append_nil] at hrest
        exact ⟨_, rest, digits_zero, cons_ne_nil _ _, hrest⟩
      · obtain ⟨z, hz⟩ := strip_zeros_append (replicate ((-x).toNat - 1) 48 ++ decimal d)
        have hscan := scan_decimal_printed digits_zero (cons_ne_nil _ _) hfrac tail_nil
        rw [append_nil] at hscan
        refine ⟨_, _, _, z, hscan, ?_, ?_⟩
        · have hall : digits_value (replicate ((-x).toNat - 1) 48 ++ decimal d) = d := by
            rw [digits_value_append, digits_value_replicate, hvalue]
            omega
          rw [hz, digits_value_append, digits_value_replicate, length_replicate] at hall
          have h48 : digits_value [48] = 0 := by decide
          rw [digits_value_append, h48, zero_mul, zero_add]
          omega
        · have := congrArg length hz
          rw [length_append, length_append, hlen, length_replicate,
            length_replicate] at this
          show (0 : Int) - _ = _
          omega
  · -- One digit, the point, the other digits, the exponent.
    have hne : (decimal d).take 1 ≠ [] := by
      rw [ne_eq, take_eq_nil_iff]
      rintro (h | h)
      · omega
      · exact decimal_ne_nil d h
    constructor
    · obtain ⟨rest, hrest⟩ := with_fraction_begins ((decimal d).drop 1) (print_exponent x)
      exact ⟨_, rest, hdigits.take _, hne, hrest⟩
    · obtain ⟨z, hd, hz⟩ := decimal_split d 1
      have hscan := scan_decimal_printed (hdigits.take 1) hne (hdigits.drop 1) (tail_exponent x)
      rw [scan_exponent_print] at hscan
      refine ⟨_, _, _, z, hscan, hd, ?_⟩
      rw [hlen] at hz
      omega

/-- The first digit stands at the exponent. -/
theorem decimal_exponent_spec {u : Nat} (hu : 0 < u) :
    (10 : ℚ) ^ decimal_exponent u ≤ u / 2 ^ 149 ∧ (u : ℚ) / 2 ^ 149 < 10 ^ (decimal_exponent u + 1) := by
  unfold decimal_exponent
  split
  · rename_i hge
    have hdiv : u / 2 ^ 149 ≠ 0 := (div_pos hge (by norm_num)).ne'
    have hlo : 10 ^ log 10 (u / 2 ^ 149) * 2 ^ 149 ≤ u :=
      (le_div_iff_mul_le (by norm_num)).mp (pow_log_le_self 10 hdiv)
    have hhi : u < 10 ^ (log 10 (u / 2 ^ 149) + 1) * 2 ^ 149 :=
      (div_lt_iff_lt_mul (by norm_num)).mp (lt_pow_succ_log_self (by norm_num) _)
    constructor
    · rw [le_div_iff₀ (by norm_num), zpow_natCast]
      exact_mod_cast hlo
    · rw [div_lt_iff₀ (by norm_num)]
      exact_mod_cast hhi
  · rename_i hlt
    set c := (2 ^ 149 + u - 1) / u with hc
    have hcu := div_add_mod (2 ^ 149 + u - 1) u
    have hmod := mod_lt (2 ^ 149 + u - 1) hu
    rw [← hc] at hcu
    have hc2 : 1 < c := by
      rw [hc]
      apply (le_div_iff_mul_le hu).mpr
      omega
    obtain ⟨e, he⟩ : ∃ e, clog 10 c = e + 1 :=
      exists_eq_succ_of_ne_zero (clog_pos (by norm_num) hc2).ne'
    have hle : c ≤ 10 ^ (e + 1) := he ▸ le_pow_clog (by norm_num) c
    have hlt' : 10 ^ e < c := by
      have := pow_pred_clog_lt_self (b := 10) (by norm_num) hc2
      rw [he] at this
      exact this
    have hlo : 2 ^ 149 ≤ 10 ^ (e + 1) * u := by
      have := mul_le_mul_right u hle
      have hcomm : u * c = c * u := mul_comm _ _
      omega
    have hhi : 10 ^ e * u < 2 ^ 149 := by
      have := mul_le_mul_right u (succ_le_of_lt hlt')
      have hcomm : u * c = c * u := mul_comm _ _
      rw [succ_mul] at this
      omega
    rw [he]
    have hlo' : (2 : ℚ) ^ 149 ≤ 10 ^ (e + 1) * u := by exact_mod_cast hlo
    have hhi' : (10 : ℚ) ^ e * u < 2 ^ 149 := by exact_mod_cast hhi
    constructor
    · rw [zpow_neg, zpow_natCast, inv_le_iff_one_le_mul₀' (by positivity), ← mul_div_assoc,
        le_div_iff₀ (by norm_num), one_mul]
      exact hlo'
    · have hexp : -((e + 1 : Nat) : Int) + 1 = -(e : Int) := by push_cast; ring
      rw [hexp, zpow_neg, zpow_natCast, div_lt_iff₀ (by norm_num), ← div_eq_inv_mul,
        lt_div_iff₀ (by positivity), mul_comm]
      exact hhi'

/-- The value of `d` with its first digit at the exponent `x`, in units. -/
def significand_units (k d : Nat) (x : Int) : ℚ := d * 10 ^ (x - k) * 2 ^ 149

/-- The digits are as many as were asked for, and their value is close. -/
theorem significand_spec {u : Nat} (hu : 0 < u) :
    (10 ^ k ≤ (significand (k + 1) u).1 ∧ (significand (k + 1) u).1 < 10 ^ (k + 1)) ∧
    |significand_units k (significand (k + 1) u).1 (significand (k + 1) u).2 - u| * (2 * 10 ^ k) ≤ u := by
  set x := decimal_exponent u with hx
  obtain ⟨hlo, hhi⟩ := decimal_exponent_spec hu
  rw [← hx] at hlo hhi
  set num := u * 10 ^ ((k : Int) - x).toNat with hnum
  set den := 2 ^ 149 * 10 ^ (x - (k : Int)).toNat with hden
  set d := round_half_even num den with hd
  have hdenpos : 0 < den := by positivity
  have hfrac : (num : ℚ) / den = u / 2 ^ 149 * 10 ^ ((k : Int) - x) := by
    have hsplit : (10 : ℚ) ^ ((k : Int) - x)
        = 10 ^ ((k : Int) - x).toNat / 10 ^ (x - (k : Int)).toNat := by
      rw [← zpow_natCast, ← zpow_natCast, ← zpow_sub₀ (by norm_num)]
      congr 1
      omega
    rw [hnum, hden, hsplit]
    push_cast
    field_simp
    norm_num
  obtain ⟨herr, hfloor, hceil⟩ := @round_half_even_error num _ hdenpos
  rw [← hd, hfrac] at herr
  -- There are `k + 1` digits in front of the point of the scaled fraction.
  have hdlo : 10 ^ k ≤ num / den := by
    apply (le_div_iff_mul_le hdenpos).mpr
    have : ((10 ^ k : Nat) : ℚ) ≤ num / den := by
      rw [hfrac]
      calc ((10 ^ k : Nat) : ℚ) = 10 ^ x * 10 ^ ((k : Int) - x) := by
            rw [← zpow_add₀ (by norm_num), add_sub_cancel, zpow_natCast]
            push_cast
            rfl
        _ ≤ _ := by gcongr
    rw [le_div_iff₀ (by exact_mod_cast hdenpos)] at this
    exact_mod_cast this
  have hdhi : num / den < 10 ^ (k + 1) := by
    apply (div_lt_iff_lt_mul hdenpos).mpr
    have : (num : ℚ) / den < (10 ^ (k + 1) : Nat) := by
      rw [hfrac]
      calc (u : ℚ) / 2 ^ 149 * 10 ^ ((k : Int) - x) < 10 ^ (x + 1) * 10 ^ ((k : Int) - x) := by gcongr
        _ = ((10 ^ (k + 1) : Nat) : ℚ) := by
            rw [← zpow_add₀ (by norm_num), show x + 1 + ((k : Int) - x) = ((k + 1 : Nat) : Int) by
              push_cast; ring, zpow_natCast]
            push_cast
            rfl
    rw [div_lt_iff₀ (by exact_mod_cast hdenpos)] at this
    exact_mod_cast this
  -- The error of the digits is half of the last one.
  have hclose : |significand_units k d x - u| * (2 * 10 ^ k) ≤ u := by
    have hinv : (10 : ℚ) ^ (x - (k : Int)) * 10 ^ ((k : Int) - x) = 1 := by
      rw [← zpow_add₀ (by norm_num), show x - (k : Int) + (k - x) = 0 by ring, zpow_zero]
    have hfactor : significand_units k d x - u
        = (d - u / 2 ^ 149 * 10 ^ ((k : Int) - x)) * (10 ^ (x - (k : Int)) * 2 ^ 149) := by
      unfold significand_units
      have : (u : ℚ) / 2 ^ 149 * 10 ^ ((k : Int) - x) * (10 ^ (x - (k : Int)) * 2 ^ 149) = (u : ℚ) := by
        calc (u : ℚ) / 2 ^ 149 * 10 ^ ((k : Int) - x) * (10 ^ (x - (k : Int)) * 2 ^ 149)
            = u / 2 ^ 149 * 2 ^ 149 * (10 ^ (x - (k : Int)) * 10 ^ ((k : Int) - x)) := by ring
          _ = (u : ℚ) := by rw [hinv, mul_one, div_mul_cancel₀ _ (by norm_num)]
      linear_combination this
    have hpow : (10 : ℚ) ^ (x - (k : Int)) * 10 ^ k = 10 ^ x := by
      rw [← zpow_natCast, ← zpow_add₀ (by norm_num), sub_add_cancel]
    rw [hfactor, abs_mul, abs_of_pos (by positivity : (0 : ℚ) < 10 ^ (x - (k : Int)) * 2 ^ 149)]
    calc |(d : ℚ) - u / 2 ^ 149 * 10 ^ ((k : Int) - x)| * (10 ^ (x - (k : Int)) * 2 ^ 149) * (2 * 10 ^ k)
        ≤ 1 / 2 * (10 ^ (x - (k : Int)) * 2 ^ 149) * (2 * 10 ^ k) := by gcongr
      _ = 10 ^ x * 2 ^ 149 := by rw [← hpow]; ring
      _ ≤ u := by
          rw [← le_div_iff₀ (by norm_num)]
          exact hlo
  have hsig : significand (k + 1) u = if d = 10 ^ (k + 1) then (10 ^ k, x + 1) else (d, x) := by
    unfold significand
    simp only [Nat.add_sub_cancel]
    rw [hd, hnum, hden, hx]
    push_cast
    simp only [add_sub_cancel_right]
  rw [hsig]
  split
  · rename_i hround
    refine ⟨⟨le_refl _, Nat.pow_lt_pow_right (by norm_num) (Nat.lt_succ_self k)⟩, ?_⟩
    have hsame : significand_units k (10 ^ k) (x + 1) = significand_units k d x := by
      unfold significand_units
      rw [hround, show x + 1 - (k : Int) = x - k + 1 by ring, zpow_add_one₀ (by norm_num)]
      push_cast
      ring
    rw [hsame]
    exact hclose
  · rename_i hne
    refine ⟨⟨by omega, ?_⟩, hclose⟩
    omega

/-- A finite number as text: an optional minus, and a decimal number close to
    the magnitude. -/
theorem print_spec (k : Nat) (hv : v.magnitude < infinity.magnitude) :
    ∃ ds rest, Digits ds ∧ ds ≠ [] ∧
      print (k + 1) v = (if v.negative then [45] else []) ++ (ds ++ rest) ∧
      ∃ (m f : Nat) (e : Int), scan_decimal (ds ++ rest) = some (m, f, e, []) ∧
        |(m : ℚ) * 10 ^ (e - f) * 2 ^ 149 - units v.magnitude| * (2 * 10 ^ k)
          ≤ (units v.magnitude : ℚ) := by
  have hnan : v.is_nan = false := by
    unfold is_nan
    exact decide_eq_false (Nat.not_lt.mpr hv.le)
  have hinf : v.is_infinite = false := by
    unfold is_infinite
    exact decide_eq_false hv.ne
  rcases Nat.eq_zero_or_pos (units v.magnitude) with h0 | hpos
  · refine ⟨[48], [], digits_zero, cons_ne_nil _ _, ?_, 0, 0, 0, by decide, ?_⟩
    · unfold print
      rw [hnan, hinf, if_neg Bool.false_ne_true, if_neg Bool.false_ne_true, if_pos h0]
      rfl
    · rw [h0]
      norm_num
  · obtain ⟨⟨hlo, hhi⟩, hclose⟩ := significand_spec (k := k) hpos
    set d := (significand (k + 1) (units v.magnitude)).1 with hd
    set x := (significand (k + 1) (units v.magnitude)).2 with hx
    obtain ⟨⟨ds, rest, hds, hne, hprint⟩, m, f, e, z, hscan, hdm, he⟩ :=
      print_significand_spec x hlo hhi
    refine ⟨ds, rest, hds, hne, ?_, m, f, e, ?_, ?_⟩
    · unfold print
      rw [hnan, hinf, if_neg Bool.false_ne_true, if_neg Bool.false_ne_true, if_neg hpos.ne', ← hd,
        ← hx, hprint]
    · rw [← hprint]
      exact hscan
    · -- The zeros that were stripped are made up for by the exponent.
      have hvalue : (m : ℚ) * 10 ^ (e - f) * 2 ^ 149 = significand_units k d x := by
        unfold significand_units
        rw [he, hdm, zpow_add₀ (by norm_num), zpow_natCast]
        push_cast
        ring
      rw [hvalue]
      exact hclose

theorem with_sign_magnitude (v : Single) : with_sign v.negative v.magnitude = v := by
  have hbits : (if v.negative then 2 ^ 31 + v.magnitude else v.magnitude) = v.bits.toNat := by
    unfold negative magnitude
    by_cases hneg : 2 ^ 31 ≤ v.bits.toNat
    · rw [decide_eq_true hneg, if_pos rfl]
      omega
    · rw [decide_eq_false hneg, if_neg Bool.false_ne_true]
      omega
  unfold with_sign
  rw [hbits, BitVec.ofNat_toNat, BitVec.setWidth_eq]

/-- A decimal number close to `v` is read as `v`. -/
theorem of_decimal_of_close {m f : Nat} {e : Int} (hv : v.magnitude < infinity.magnitude)
    (hclose : |(m : ℚ) * 10 ^ (e - f) * 2 ^ 149 - units v.magnitude| * 2 ^ 27
      ≤ (units v.magnitude : ℚ)) : of_decimal v.negative m f e = v := by
  have hfrac : ((m * 10 ^ (e - (f : Int)).toNat * 2 ^ 149 : Nat) : ℚ) / (10 ^ (-(e - (f : Int))).toNat : Nat)
      = m * 10 ^ (e - (f : Int)) * 2 ^ 149 := by
    have hsplit : (10 : ℚ) ^ (e - (f : Int))
        = 10 ^ (e - (f : Int)).toNat / 10 ^ (-(e - (f : Int))).toNat := by
      rw [← zpow_natCast, ← zpow_natCast, ← zpow_sub₀ (by norm_num)]
      congr 1
      omega
    rw [hsplit]
    push_cast
    ring
  unfold of_decimal
  simp only
  rw [round_units_of_close hv (Nat.pow_pos (by norm_num)) (hfrac ▸ hclose)]
  exact with_sign_magnitude v

end Single

/-- Nine digits are enough to tell single-precision numbers apart. -/
theorem scan_float_print (hk : 8 ≤ k) (hv : v.magnitude < infinity.magnitude) :
    scan_float (v.print (k + 1)) = some v := by
  obtain ⟨ds, rest, hds, hne, hprint, m, f, e, hscan, hclose⟩ := print_spec k hv
  have hsign := @scan_sign_printed v.negative _ rest hds hne
  have hpow : (2 : ℚ) ^ 27 ≤ 2 * 10 ^ k := by
    calc (2 : ℚ) ^ 27 ≤ 2 * 10 ^ 8 := by norm_num
      _ ≤ 2 * 10 ^ k := by gcongr; norm_num
  have hback : of_decimal v.negative m f e = v := by
    apply of_decimal_of_close hv
    calc _ ≤ |(m : ℚ) * 10 ^ (e - f) * 2 ^ 149 - units v.magnitude| * (2 * 10 ^ k) := by gcongr
      _ ≤ _ := hclose
  have hinf : v.is_infinite = false := by
    unfold is_infinite
    exact decide_eq_false hv.ne
  unfold scan_float
  rw [hprint, hsign]
  simp only [hscan]
  rw [hback, hinf, if_neg Bool.false_ne_true]

end Cpp
