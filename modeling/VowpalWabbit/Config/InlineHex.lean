import VowpalWabbit.Config.Namespaces

/-! # Inline hex

    `decode_inline_hex` against a scan for a backslash, an `x` and two hexadecimal digits. The
    digits are read by `strtoul`, which skips blanks, takes a sign, and stops at a `\0`.
-/

open Cpp

namespace VW.Config

open List

/-- The bytes that the escapes denote. -/
def denoted : List Byte → List Byte
  | c :: d :: a :: b :: arg =>
    if c = 92 ∧ d = 120 then
      match xdigit a, xdigit b with
      | some m, some n => BitVec.ofNat 8 (16 * m + n) :: denoted arg
      | _, _ => c :: denoted (d :: a :: b :: arg)
    else c :: denoted (d :: a :: b :: arg)
  | arg => arg

/-- Two characters that `strtoul` takes for a number although they are not two digits. -/
def Misread (a b : Byte) : Prop :=
  a = 0 ∨ a ≠ 0 ∧ b = 0 ∧ (xdigit a).isSome ∨ b ≠ 0 ∧ (is_space a ∨ a = 43 ∨ a = 45) ∧ (xdigit b).isSome

/-- No backslash and `x` stand before such characters. -/
def NoMisread (arg : List Byte) : Prop := ∀ a b post, 92 :: 120 :: a :: b :: post <:+ arg → ¬ Misread a b

/-- The value of two characters that are taken for a number. -/
def accepted (a b : Byte) : Option Byte :=
  match strtoul ([a, b].takeWhile (· ≠ 0)) with
  | (value, []) => some value
  | _ => none

/-! ## `strtoul` -/

variable {c : Byte}

theorem xdigit_bounds {d : Nat} (h : xdigit c = some d) :
    d < 16 ∧ is_space c = false ∧ c ≠ 43 ∧ c ≠ 45 ∧ c ≠ 92 ∧ c ≠ 0 := by
  have hc : 48 ≤ c.toNat ∧ d < 16 ∧ c.toNat ≠ 92 := by
    unfold xdigit is_digit at h
    simp only [Bool.and_eq_true, decide_eq_true_eq] at h
    split at h
    · cases h
      omega
    · split at h
      · cases h
        omega
      · split at h
        · cases h
          omega
        · cases h
  have hne : ∀ b : Byte, b.toNat < 48 ∨ b.toNat = 92 → c ≠ b := by
    rintro b hb rfl
    omega
  refine ⟨hc.2.1, ?_, hne 43 (by decide), hne 45 (by decide), hne 92 (by decide), hne 0 (by decide)⟩
  simp only [is_space, Bool.or_eq_false_iff, Bool.and_eq_false_iff, decide_eq_false_iff_not]
  omega

/-- What follows the blanks and the sign is a number, as a whole. -/
def whole (f : Nat → Byte) (unsigned : List Byte) : Option Byte :=
  match unsigned, scan_xdigits 0 unsigned with
  | _ :: _, (value, []) => some (f value)
  | _, _ => none

theorem whole_one (f : Nat → Byte) (b : Byte) : whole f [b] = (xdigit b).map f := by
  unfold whole scan_xdigits
  cases xdigit b with
  | none => rfl
  | some d => simp [scan_xdigits]

theorem whole_two (f : Nat → Byte) (a b : Byte) :
    whole f [a, b] = (xdigit a).bind fun m => (xdigit b).map fun n => f (16 * m + n) := by
  unfold whole scan_xdigits
  cases xdigit a with
  | none => rfl
  | some m =>
    unfold scan_xdigits
    cases xdigit b with
    | none => simp
    | some n => simp [scan_xdigits]

variable {s : List Byte}

theorem number_eq_whole {unsigned : List Byte} (hs : s ≠ []) (f : Nat → Byte) :
    (match (if (scan_xdigits 0 unsigned).2.length = unsigned.length then (0, s)
        else (f (scan_xdigits 0 unsigned).1, (scan_xdigits 0 unsigned).2)) with
      | (value, []) => some value
      | _ => none) = whole f unsigned := by
  obtain ⟨c, cs, rfl⟩ := exists_cons_of_ne_nil hs
  unfold whole
  cases unsigned with
  | nil => rfl
  | cons d ds =>
    rcases scan_xdigits 0 (d :: ds) with ⟨value, rest⟩
    cases rest with
    | nil => rfl
    | cons r rs =>
      by_cases hlength : (r :: rs).length = (d :: ds).length
      · rw [if_pos hlength]
      · rw [if_neg hlength]

variable {a b : Byte} {t : List Byte}

theorem accepted_unsigned (htake : [a, b].takeWhile (· ≠ 0) = s) (hs : s ≠ [])
    (hdrop : s.dropWhile is_space = t) (hsign : ∀ c ∈ t.head?, c ≠ 45 ∧ c ≠ 43) :
    accepted a b = whole (BitVec.ofNat 8) t := by
  have hminus : ¬ t.head? = some 45 := fun h => (hsign 45 h).1 rfl
  have hplus : ¬ t.head? = some 43 := fun h => (hsign 43 h).2 rfl
  rw [← number_eq_whole hs, accepted, htake]
  unfold strtoul
  simp only [hdrop, hminus, hplus, or_self, if_false]

theorem accepted_signed (htake : [a, b].takeWhile (· ≠ 0) = s) (hs : s ≠ [])
    (hdrop : s.dropWhile is_space = c :: t) (hsign : c = 45 ∨ c = 43) :
    accepted a b = whole (fun n => if c = 45 then -(BitVec.ofNat 8 n) else BitVec.ofNat 8 n) t := by
  rw [← number_eq_whole hs, accepted, htake]
  unfold strtoul
  simp only [hdrop, head?_cons, Option.some.injEq, hsign, if_true, drop_succ_cons, drop_zero]

theorem accepted_zero (b : Byte) : accepted 0 b = some 0 := rfl

theorem take_two (ha : a ≠ 0) (hb : b ≠ 0) : [a, b].takeWhile (· ≠ 0) = [a, b] := by
  rw [takeWhile_cons_of_pos (by simpa using ha), takeWhile_cons_of_pos (by simpa using hb)]
  rfl

theorem take_one (ha : a ≠ 0) : [a, 0].takeWhile (· ≠ 0) = [a] := by
  rw [takeWhile_cons_of_pos (by simpa using ha)]
  rfl

theorem drop_one (a : Byte) : [a].dropWhile is_space = if is_space a then [] else [a] := by
  cases h : is_space a <;> simp [h]

/-- One character is a number if it is a digit. -/
theorem accepted_one (htake : [a, b].takeWhile (· ≠ 0) = s) (hs : s ≠ [])
    (hdrop : s.dropWhile is_space = [c].dropWhile is_space) :
    accepted a b = (xdigit c).map (BitVec.ofNat 8) := by
  rw [drop_one] at hdrop
  split at hdrop
  · next hspace =>
    rw [accepted_unsigned htake hs hdrop (by simp)]
    cases hd : xdigit c with
    | none => rfl
    | some d => exact absurd (xdigit_bounds hd).2.1 (by simp [hspace])
  · by_cases hsign : c = 45 ∨ c = 43
    · rw [accepted_signed htake hs hdrop hsign]
      cases hd : xdigit c with
      | none => rfl
      | some d =>
        obtain ⟨-, -, hplus, hminus, -⟩ := xdigit_bounds hd
        exact absurd hsign (not_or.mpr ⟨hminus, hplus⟩)
    · rw [accepted_unsigned htake hs hdrop (by simpa [not_or] using hsign), whole_one]

theorem accepted_of_zero (ha : a ≠ 0) : accepted a 0 = (xdigit a).map (BitVec.ofNat 8) :=
  accepted_one (take_one ha) (cons_ne_nil a []) rfl

/-- A blank or a sign before a digit. -/
theorem accepted_lenient (hb : b ≠ 0) (ha : is_space a = true ∨ a = 43 ∨ a = 45) :
    accepted a b = (xdigit b).map fun n => if a = 45 then -(BitVec.ofNat 8 n) else BitVec.ofNat 8 n := by
  have hne : a ≠ 0 := by
    rintro rfl
    revert ha
    decide
  by_cases hspace : is_space a = true
  · have hminus : a ≠ 45 := by
      rintro rfl
      cases hspace
    simp only [hminus, if_false]
    exact accepted_one (take_two hne hb) (cons_ne_nil a [b]) (dropWhile_cons_of_pos hspace)
  · rw [accepted_signed (take_two hne hb) (cons_ne_nil a [b]) (dropWhile_cons_of_neg hspace)
      (ha.resolve_left hspace).symm, whole_one]

theorem accepted_of_strict (ha : a ≠ 0) (hb : b ≠ 0)
    (hlenient : ¬ (is_space a = true ∨ a = 43 ∨ a = 45)) :
    accepted a b = (xdigit a).bind fun m => (xdigit b).map fun n => BitVec.ofNat 8 (16 * m + n) := by
  rw [not_or, not_or] at hlenient
  rw [accepted_unsigned (take_two ha hb) (cons_ne_nil a [b]) (dropWhile_cons_of_neg hlenient.1)
    (by simpa using ⟨hlenient.2.2, hlenient.2.1⟩), whole_two]

/-- Two digits are accepted as what they denote. -/
theorem accepted_digits {m n : Nat} (ha : xdigit a = some m) (hb : xdigit b = some n) :
    accepted a b = some (BitVec.ofNat 8 (16 * m + n)) ∧ ¬ Misread a b := by
  obtain ⟨-, hspace, hplus, hminus, -, hne⟩ := xdigit_bounds ha
  have hne' := (xdigit_bounds hb).2.2.2.2.2
  have hstrict : ¬ (is_space a = true ∨ a = 43 ∨ a = 45) := by
    rintro (h | h | h)
    · rw [hspace] at h
      cases h
    · exact hplus h
    · exact hminus h
  constructor
  · rw [accepted_of_strict hne hne' hstrict, ha, hb]
    rfl
  · rintro (h | ⟨-, h, -⟩ | ⟨-, h, -⟩)
    · exact hne h
    · exact hne' h
    · exact hstrict h

/-- Nothing else is a backslash. -/
theorem accepted_misread (h : Misread a b) : ∃ value, accepted a b = some value ∧ value ≠ 92 := by
  have hsmall : ∀ n < 16, BitVec.ofNat 8 n ≠ 92 ∧ -(BitVec.ofNat 8 n) ≠ 92 := by decide
  rcases h with rfl | ⟨ha, rfl, hd⟩ | ⟨hb, hlenient, hd⟩
  · exact ⟨0, accepted_zero b, by decide⟩
  · obtain ⟨d, hd⟩ := Option.isSome_iff_exists.mp hd
    exact ⟨_, by rw [accepted_of_zero ha, hd]; rfl, (hsmall d (xdigit_bounds hd).1).1⟩
  · obtain ⟨d, hd⟩ := Option.isSome_iff_exists.mp hd
    refine ⟨_, by rw [accepted_lenient hb hlenient, hd]; rfl, ?_⟩
    have := hsmall d (xdigit_bounds hd).1
    split
    · exact this.2
    · exact this.1

theorem accepted_none (hdigits : ¬ ((xdigit a).isSome ∧ (xdigit b).isSome)) (h : ¬ Misread a b) :
    accepted a b = none := by
  unfold Misread at h
  by_cases ha : a = 0
  · exact absurd (.inl ha) h
  by_cases hb : b = 0
  · subst hb
    rw [accepted_of_zero ha]
    cases hd : xdigit a with
    | none => rfl
    | some d => exact absurd (.inr (.inl ⟨ha, rfl, by rw [hd]; rfl⟩)) h
  by_cases hlenient : is_space a = true ∨ a = 43 ∨ a = 45
  · rw [accepted_lenient hb hlenient]
    cases hd : xdigit b with
    | none => rfl
    | some d => exact absurd (.inr (.inr ⟨hb, hlenient, by rw [hd]; rfl⟩)) h
  · rw [accepted_of_strict ha hb hlenient]
    cases hd : xdigit a with
    | none => rfl
    | some m =>
      cases hn : xdigit b with
      | none => rfl
      | some n => exact absurd ⟨by rw [hd]; rfl, by rw [hn]; rfl⟩ hdigits

/-! ## The scan -/

theorem decode_escape (a b : Byte) (arg : List Byte) : decode_inline_hex (92 :: 120 :: a :: b :: arg) =
    match accepted a b with
    | some value => value :: decode_inline_hex arg
    | none => 92 :: decode_inline_hex (120 :: a :: b :: arg) := by
  rw [decode_inline_hex, if_pos ⟨rfl, rfl⟩]
  unfold accepted
  rcases strtoul ([a, b].takeWhile (· ≠ 0)) with ⟨value, rest⟩
  cases rest <;> rfl

variable {arg : List Byte}

theorem noMisread_cons : NoMisread (c :: arg) ↔
    (∀ a b post, c = 92 → arg = 120 :: a :: b :: post → ¬ Misread a b) ∧ NoMisread arg := by
  constructor
  · intro h
    refine ⟨?_, fun a b post hsuffix => h a b post (hsuffix.trans (suffix_cons c arg))⟩
    rintro a b post rfl rfl
    exact h a b post suffix_rfl
  · rintro ⟨hhead, htail⟩ a b post hsuffix
    rcases suffix_cons_iff.mp hsuffix with heq | hsuffix
    · obtain ⟨rfl, rfl⟩ := cons.inj heq
      exact hhead a b post rfl rfl
    · exact htail a b post hsuffix

theorem noMisread_of_ne (h : c ≠ 92) : NoMisread (c :: arg) ↔ NoMisread arg := by
  rw [noMisread_cons]
  exact and_iff_right fun _ _ _ hc => absurd hc h

/-- Escapes are decoded to what they denote exactly without misread characters. -/
theorem decode_eq_denoted_iff (arg : List Byte) : decode_inline_hex arg = denoted arg ↔ NoMisread arg := by
  induction arg using denoted.induct with
  | case1 c d a b arg hescape m n hn hm ih =>
    obtain ⟨rfl, rfl⟩ := hescape
    obtain ⟨haccepted, hread⟩ := accepted_digits hm hn
    have ha := (xdigit_bounds hm).2.2.2.2.1
    have hb := (xdigit_bounds hn).2.2.2.2.1
    rw [decode_escape, haccepted, denoted, if_pos ⟨rfl, rfl⟩, hm, hn, noMisread_cons, noMisread_of_ne (by decide),
      noMisread_of_ne ha, noMisread_of_ne hb, ← ih]
    simp only [cons.injEq, true_and]
    refine (and_iff_right ?_).symm
    rintro _ _ _ - ⟨rfl, rfl, rfl⟩
    exact hread
  | case2 c d a b arg hescape hdigits ih =>
    obtain ⟨rfl, rfl⟩ := hescape
    have hdenoted : denoted (92 :: 120 :: a :: b :: arg) = 92 :: denoted (120 :: a :: b :: arg) := by
      rw [denoted, if_pos ⟨rfl, rfl⟩]
      split
      · next m n hm hn => exact absurd hn (hdigits m n hm)
      · rfl
    have hnot : ¬ ((xdigit a).isSome ∧ (xdigit b).isSome) := by
      rintro ⟨hm, hn⟩
      obtain ⟨m, hm⟩ := Option.isSome_iff_exists.mp hm
      obtain ⟨n, hn⟩ := Option.isSome_iff_exists.mp hn
      exact hdigits m n hm hn
    rw [decode_escape, hdenoted]
    by_cases hmisread : Misread a b
    · obtain ⟨value, haccepted, hne⟩ := accepted_misread hmisread
      rw [haccepted]
      refine iff_of_false (fun h => hne (cons.inj h).1) fun h => ?_
      exact h a b arg suffix_rfl hmisread
    · rw [accepted_none hnot hmisread, noMisread_cons, ← ih]
      simp only [cons.injEq, true_and]
      refine (and_iff_right ?_).symm
      rintro _ _ _ - ⟨rfl, rfl, rfl⟩
      exact hmisread
  | case3 c d a b arg hescape ih =>
    rw [decode_inline_hex, if_neg hescape, denoted, if_neg hescape, noMisread_cons, ← ih]
    simp only [cons.injEq, true_and]
    refine (and_iff_right ?_).symm
    rintro _ _ _ hc ⟨hd, -⟩
    exact absurd ⟨hc, hd⟩ hescape
  | case4 arg hshort =>
    rw [decode_inline_hex.eq_2 arg hshort, denoted.eq_2 arg hshort]
    refine iff_of_true rfl fun a b post hsuffix => ?_
    have hlength := hsuffix.length_le
    rcases arg with _ | ⟨c, _ | ⟨d, _ | ⟨a', _ | ⟨b', rest⟩⟩⟩⟩
    case cons.cons.cons.cons => exact absurd rfl (hshort c d a' b' rest)
    all_goals
      simp only [length_cons, length_nil] at hlength
      omega

/-! ## Round trip -/

def hex_digit (n : Nat) : Byte := if n < 10 then BitVec.ofNat 8 (48 + n) else BitVec.ofNat 8 (87 + n)

/-- `\xHH` for each byte. -/
def encode_hex (s : List Byte) : List Byte :=
  s.flatMap fun c => [92, 120, hex_digit (c.toNat / 16), hex_digit (c.toNat % 16)]

theorem xdigit_hex_digit : ∀ n < 16, xdigit (hex_digit n) = some n := by decide

theorem decode_encode_hex (s : List Byte) : decode_inline_hex (encode_hex s) = s := by
  induction s with
  | nil => rfl
  | cons c s ih =>
    have hhigh := xdigit_hex_digit (c.toNat / 16) (by omega)
    have hlow := xdigit_hex_digit (c.toNat % 16) (by omega)
    rw [encode_hex, flatMap_cons]
    simp only [cons_append, nil_append]
    rw [decode_escape, (accepted_digits hhigh hlow).1]
    show _ :: decode_inline_hex (encode_hex s) = _
    rw [ih, Nat.div_add_mod, BitVec.ofNat_toNat, BitVec.setWidth_eq]

/-- No backslash and `x` stand before two digits. -/
def NoEscape (arg : List Byte) : Prop :=
  ∀ a b post, 92 :: 120 :: a :: b :: post <:+ arg → ¬ ((xdigit a).isSome ∧ (xdigit b).isSome)

theorem denoted_of_no_escape (h : NoEscape arg) : denoted arg = arg := by
  induction arg using denoted.induct with
  | case1 c d a b arg hescape m n hn hm ih =>
    obtain ⟨rfl, rfl⟩ := hescape
    exact absurd ⟨by rw [hm]; rfl, by rw [hn]; rfl⟩ (h a b arg suffix_rfl)
  | case2 c d a b arg hescape hdigits ih =>
    rw [denoted, if_pos hescape, ih fun a b post hs => h a b post (hs.trans (suffix_cons c _))]
    split
    · next m n hm hn => exact absurd hn (hdigits m n hm)
    · rfl
  | case3 c d a b arg hescape ih =>
    rw [denoted, if_neg hescape, ih fun a b post hs => h a b post (hs.trans (suffix_cons c _))]
  | case4 arg hshort => exact denoted.eq_2 arg hshort

/-- The escapes of a string are decoded to what they denote, and a string without any is left as it
    is, exactly when no characters are misread; what writes each byte as an escape is always
    decoded. -/
theorem inline_hex_exact_iff (arg : List Byte) :
    (decode_inline_hex arg = denoted arg ↔ NoMisread arg) ∧ decode_inline_hex (encode_hex arg) = arg ∧
      (NoEscape arg → (decode_inline_hex arg = arg ↔ NoMisread arg)) := by
  refine ⟨decode_eq_denoted_iff arg, decode_encode_hex arg, fun h => ?_⟩
  rw [← decode_eq_denoted_iff arg, denoted_of_no_escape h]

/-- An escape that is cut short stays. -/
theorem inline_hex_exact_short : decode_inline_hex (text "\\x4") = text "\\x4" := by
  have hlong : ∀ {a b : Byte} {post : List Byte}, ¬ 92 :: 120 :: a :: b :: post <:+ text "\\x4" := by
    intro a b post hsuffix
    have hlength := hsuffix.length_le
    simp [text] at hlength
    omega
  exact ((inline_hex_exact_iff (text "\\x4")).2.2 fun _ _ _ h => absurd h hlong).mpr fun _ _ _ h => absurd h hlong

/-- `\x 5` has no two digits, but becomes the byte 5. -/
theorem not_inline_hex_blank : decode_inline_hex (text "\\x 5") ≠ denoted (text "\\x 5") := by decide

end VW.Config
