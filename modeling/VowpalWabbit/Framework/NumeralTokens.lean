import VowpalWabbit.Framework.Numerals

/-! # Printed numbers as tokens

    A number that was printed has no white space in it, and `strtof` reads all of it.
-/

namespace Cpp

open List Or

/-- The characters of printed numbers: digits, signs, the point, and the letter of the
    exponent. -/
def number_char (c : Byte) : Bool := is_digit c || c = 43 || c = 45 || c = 46 || c = 101

theorem number_char_spec {c : Byte} (h : number_char c = true) :
    is_space c = false ∧ c ≠ 0 ∧ to_lower c ≠ 120 := by
  have hrange : c.toNat = 43 ∨ c.toNat = 45 ∨ c.toNat = 46 ∨ c.toNat = 101 ∨
      (48 ≤ c.toNat ∧ c.toNat ≤ 57) := by
    unfold number_char is_digit at h
    simp only [Bool.or_eq_true, Bool.and_eq_true, decide_eq_true_eq] at h
    rcases h with (((h | rfl) | rfl) | rfl) | rfl
    · exact inr (inr (inr (inr h)))
    · exact inl rfl
    · exact inr (inl rfl)
    · exact inr (inr (inl rfl))
    · exact inr (inr (inr (inl rfl)))
  refine ⟨?_, ?_, ?_⟩
  · unfold is_space
    simp only [Bool.or_eq_false_iff, Bool.and_eq_false_iff, decide_eq_false_iff_not]
    omega
  · rintro rfl
    simp at hrange
  · unfold to_lower
    rw [if_neg (by omega)]
    rintro rfl
    simp at hrange

theorem Digits.number_chars {ds : List Byte} (h : Digits ds) : ∀ c ∈ ds, number_char c = true := by
  intro c hc
  unfold number_char
  rw [h c hc]
  rfl

theorem number_chars_with_fraction {int frac : List Byte} (hint : Digits int) (hfrac : Digits frac) :
    ∀ c ∈ with_fraction int frac, number_char c = true := by
  unfold with_fraction
  split
  · exact hint.number_chars
  · intro c hc
    rcases mem_append.mp hc with hc | hc
    · exact hint.number_chars c hc
    · rcases mem_cons.mp hc with rfl | hc
      · rfl
      · exact hfrac.strip_zeros.number_chars c hc

theorem number_chars_exponent (x : Int) : ∀ c ∈ print_exponent x, number_char c = true := by
  have hdigits : Digits (if x.natAbs < 10 then 48 :: decimal x.natAbs else decimal x.natAbs) := by
    split
    · exact digits_zero.append (digits_decimal _)
    · exact digits_decimal _
  intro c hc
  unfold print_exponent at hc
  rcases mem_cons.mp hc with rfl | hc
  · rfl
  · rcases mem_cons.mp hc with rfl | hc
    · split
      · rfl
      · rfl
    · exact hdigits.number_chars c hc

theorem number_chars_significand (precision d : Nat) (x : Int) :
    ∀ c ∈ Single.print_significand precision d x, number_char c = true := by
  have hdigits := digits_decimal d
  unfold Single.print_significand
  split
  · split
    · exact number_chars_with_fraction (hdigits.take _) (hdigits.drop _)
    · refine number_chars_with_fraction digits_zero (Digits.append ?_ hdigits)
      intro c hc
      rw [eq_of_mem_replicate hc]
      decide
  · intro c hc
    rcases mem_append.mp hc with hc | hc
    · exact number_chars_with_fraction (hdigits.take _) (hdigits.drop _) c hc
    · exact number_chars_exponent x c hc

/-- The text of a number: an optional minus, and a decimal number as a whole. -/
structure Numeral (s : List Byte) : Prop where
  chars : ∀ c ∈ s, number_char c = true
  form : ∃ (neg : Bool) (ds rest : List Byte), Digits ds ∧ ds ≠ [] ∧
    s = (if neg then [45] else []) ++ (ds ++ rest) ∧
    ∃ (m f : Nat) (e : Int), scan_decimal (ds ++ rest) = some (m, f, e, [])

theorem numeral_integer (neg : Bool) (n : Nat) :
    Numeral ((if neg then [45] else []) ++ decimal n) := by
  have hdigits := digits_decimal n
  constructor
  · intro c hc
    rcases mem_append.mp hc with hc | hc
    · cases neg with
      | true =>
        rw [mem_singleton.mp hc]
        rfl
      | false => cases hc
    · exact hdigits.number_chars c hc
  · refine ⟨neg, decimal n, [], hdigits, decimal_ne_nil n, by rw [append_nil], ?_⟩
    have hscan := @scan_decimal_printed _ [] [] hdigits (decimal_ne_nil n)
      (fun c hc => absurd hc not_mem_nil) tail_nil
    exact ⟨_, _, _, hscan⟩

theorem numeral_decimal (n : Nat) : Numeral (decimal n) := numeral_integer false n

theorem numeral_print_integer (i : Int) : Numeral (print_integer i) := by
  unfold print_integer
  split
  · exact numeral_integer true i.natAbs
  · exact numeral_integer false i.natAbs

theorem numeral_print (k : Nat) {v : Single} (hv : v.magnitude < Single.infinity.magnitude) :
    Numeral (v.print (k + 1)) := by
  obtain ⟨ds, rest, hds, hne, hprint, m, f, e, hscan, -⟩ := Single.print_spec k hv
  refine ⟨?_, v.negative, ds, rest, hds, hne, hprint, m, f, e, hscan⟩
  have hnan : v.is_nan = false := decide_eq_false (Nat.not_lt.mpr hv.le)
  have hinf : v.is_infinite = false := decide_eq_false hv.ne
  intro c hc
  unfold Single.print at hc
  rw [hnan, hinf, if_neg Bool.false_ne_true, if_neg Bool.false_ne_true] at hc
  rcases mem_append.mp hc with hc | hc
  · split at hc
    · rw [mem_singleton.mp hc]
      rfl
    · cases hc
  · split at hc
    · rw [mem_singleton.mp hc]
      rfl
    · exact number_chars_significand _ _ _ c hc

namespace Numeral

variable {s : List Byte}

theorem ne_nil (h : Numeral s) : s ≠ [] := by
  obtain ⟨neg, ds, rest, -, hne, rfl, -⟩ := h.form
  intro hnil
  exact hne (append_eq_nil_iff.mp (append_eq_nil_iff.mp hnil).2).1

theorem no_space (h : Numeral s) : ∀ c ∈ s, is_space c = false :=
  fun c hc => (number_char_spec (h.chars c hc)).1

theorem no_nul (h : Numeral s) : 0 ∉ s := fun hc => (number_char_spec (h.chars 0 hc)).2.1 rfl

/-- `strtof` does not stop before the end. -/
theorem strtof_rest_eq (h : Numeral s) : strtof_rest s = [] := by
  obtain ⟨neg, ds, rest, hds, hne, rfl, m, f, e, hscan⟩ := h.form
  have hsign := @scan_sign_printed neg _ rest hds hne
  obtain ⟨c, ds, rfl⟩ := exists_cons_of_ne_nil hne
  have hc := hds c mem_cons_self
  have hrange : 48 ≤ c.toNat ∧ c.toNat ≤ 57 := by
    simpa [is_digit] using hc
  have hlower : to_lower c = c := by
    unfold to_lower
    rw [if_neg (by omega)]
  -- A digit begins no name, and what follows it is no `x`.
  have hletter (word : String) (d : Byte) (ws : List Byte) (hword : text word = d :: ws)
      (hd : 58 ≤ d.toNat) : begins_with word (c :: ds ++ rest) = false := by
    unfold begins_with
    rw [hword, beq_eq_false_iff_ne]
    intro heq
    have hpos : word.length ≠ 0 := by
      intro hzero
      rw [hzero] at heq
      cases heq
    obtain ⟨n, hn⟩ := Nat.exists_eq_succ_of_ne_zero hpos
    rw [hn, cons_append, take_succ_cons, map_cons, hlower] at heq
    have hfst : c = d := (cons.inj heq).1
    rw [hfst] at hrange
    omega
  have hhex : begins_with "0x" (c :: ds ++ rest) = false := by
    unfold begins_with
    rw [beq_eq_false_iff_ne]
    intro heq
    have htext : text "0x" = [48, 120] := by decide
    have hlength : "0x".length = 2 := rfl
    rw [htext, hlength] at heq
    cases hrest : ds ++ rest with
    | nil =>
      rw [cons_append, hrest] at heq
      exact absurd (congrArg length heq) (by simp)
    | cons d more =>
      rw [cons_append, hrest] at heq
      have hmem : d ∈ (if neg then [45] else []) ++ (c :: ds ++ rest) := by
        rw [cons_append, hrest]
        simp
      have hx := (number_char_spec (h.chars d hmem)).2.2
      exact hx (cons.inj (cons.inj heq).2).1
  unfold strtof_rest
  simp only [hsign]
  rw [hletter "infinity" 105 _ rfl (by decide), hletter "inf" 105 _ rfl (by decide),
    hletter "nan" 110 _ rfl (by decide), hhex]
  simp only [Bool.false_eq_true, if_false, hscan]

/-- Only a number has a minus and a digit in front. -/
theorem begins (h : Numeral s) : ∃ c cs, s = c :: cs ∧
    (c ≠ 45 ∨ ∃ d ds, cs = d :: ds ∧ d ≠ 45) := by
  obtain ⟨neg, ds, rest, hds, hne, rfl, -⟩ := h.form
  obtain ⟨c, ds, rfl⟩ := exists_cons_of_ne_nil hne
  have hc : c ≠ 45 := by
    rintro rfl
    exact absurd (hds 45 mem_cons_self) (by decide)
  cases neg with
  | true => exact ⟨45, c :: ds ++ rest, rfl, inr ⟨c, ds ++ rest, rfl, hc⟩⟩
  | false => exact ⟨c, ds ++ rest, rfl, inl hc⟩

end Numeral

end Cpp
