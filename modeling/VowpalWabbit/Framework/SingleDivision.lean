import VowpalWabbit.Framework.SingleRounding

/-! # Unsigned numbers and quotients in single precision

    An unsigned number becomes a float by rounding, and a quotient of two floats is the exact
    quotient rounded. `units_round_units` says what rounding does to a fraction that does not
    overflow: with `shift` bits too many, it is a multiple of `2 ^ shift`. From it come the value
    of a quotient of two unsigned numbers, and that by 2 or more it is at most the number.
-/

namespace Cpp.Single

open Nat

/-- An unsigned number as a float. -/
def of_nat (n : Nat) : Single := with_sign false (round_units (n * 2 ^ 149) 1)

instance : Div Single where
  div v w :=
    let neg := v.negative != w.negative
    if v.is_nan || w.is_nan then nan
    else if v.is_infinite then if w.is_infinite then nan else with_sign neg infinity.magnitude
    else if w.is_infinite then with_sign neg 0
    else if w.magnitude = 0 then if v.magnitude = 0 then nan else with_sign neg infinity.magnitude
    else with_sign neg (round_units (units v.magnitude * 2 ^ 149) (units w.magnitude))

/-- `std::floor` of a number that is finite and not negative, as an unsigned number. -/
def floor (v : Single) : Nat := units v.magnitude / 2 ^ 149

/-- The exponent of the last place of a fraction. -/
def shift (num den : Nat) : Nat := Nat.log2 (num / den) - 23

section Units

variable {num den : Nat}

theorem units_scaled {shift f : Nat} (hle : f ≤ 2 ^ 24) (hge : 0 < shift → 2 ^ 23 ≤ f) :
    units (shift * 2 ^ 23 + f) = f * 2 ^ shift := by
  unfold units
  rcases lt_or_ge f (2 ^ 23) with hsmall | hlarge
  · have hzero : shift = 0 := by
      by_contra hne
      exact absurd (hge (pos_of_ne_zero hne)) (not_le.mpr hsmall)
    rw [hzero, if_pos (by omega)]
    simp
  · rw [if_neg (by omega)]
    rcases lt_or_eq_of_le hle with hlt | heq
    · rw [show (shift * 2 ^ 23 + f) % 2 ^ 23 = f - 2 ^ 23 by omega,
        show (shift * 2 ^ 23 + f) / 2 ^ 23 - 1 = shift by omega,
        Nat.add_sub_cancel' hlarge]
    · -- a carry into the exponent
      rw [heq, show (shift * 2 ^ 23 + 2 ^ 24) % 2 ^ 23 = 0 by omega,
        show (shift * 2 ^ 23 + 2 ^ 24) / 2 ^ 23 - 1 = shift + 1 by omega, pow_succ]
      ring

/-- The digits that are kept. -/
theorem div_shift_lt : num / (den * 2 ^ shift num den) < 2 ^ 24 := by
  rw [← Nat.div_div_eq_div_mul, Nat.div_lt_iff_lt_mul (Nat.two_pow_pos _), ← Nat.pow_add]
  rcases Nat.eq_zero_or_pos (num / den) with hzero | hpos
  · rw [hzero]
    exact Nat.two_pow_pos _
  · refine (log2_lt (Nat.ne_of_gt hpos)).mp ?_
    unfold shift
    omega

theorem le_div_shift (h : 0 < shift num den) : 2 ^ 23 ≤ num / (den * 2 ^ shift num den) := by
  have hpos : num / den ≠ 0 := by
    intro hzero
    rw [shift, hzero] at h
    exact absurd h (by decide)
  rw [← Nat.div_div_eq_div_mul, Nat.le_div_iff_mul_le (Nat.two_pow_pos _), ← Nat.pow_add]
  refine Nat.le_trans (Nat.pow_le_pow_right (by decide) ?_) (log2_self_le hpos)
  unfold shift at h ⊢
  omega

theorem round_half_even_le {num den : Nat} : round_half_even num den ≤ num / den + 1 := by
  unfold round_half_even
  simp only
  split <;> omega

theorem le_round_half_even {num den : Nat} : num / den ≤ round_half_even num den := by
  unfold round_half_even
  simp only
  split <;> omega

/-- A fraction that does not overflow is rounded to a multiple of its last place. -/
theorem units_round_units (hfits : num / den < 2 ^ 200) :
    units (round_units num den) = round_half_even num (den * 2 ^ shift num den) * 2 ^ shift num den := by
  have hlt := @div_shift_lt num den
  have hle := @round_half_even_le num (den * 2 ^ shift num den)
  have hge := @le_round_half_even num (den * 2 ^ shift num den)
  have hshift : shift num den ≤ 176 := by
    rcases Nat.eq_zero_or_pos (num / den) with hzero | hpos
    · rw [shift, hzero]
      decide
    · have hlog := (log2_lt (Nat.ne_of_gt hpos)).mpr hfits
      unfold shift
      omega
  have hinf : infinity.magnitude = 255 * 2 ^ 23 := by decide
  have hround : round_units num den = shift num den * 2 ^ 23 + round_half_even num (den * 2 ^ shift num den) := by
    unfold round_units
    rw [hinf]
    exact Nat.min_eq_left (by unfold shift at *; omega)
  rw [hround]
  exact units_scaled (by omega) fun hpos => Nat.le_trans (le_div_shift hpos) hge

/-- A multiple of the last place that is below the fraction stays below. -/
theorem le_units_round_units (hfits : num / den < 2 ^ 200) {m : Nat} (h : m * 2 ^ shift num den ≤ num / den) :
    m * 2 ^ shift num den ≤ units (round_units num den) := by
  rw [units_round_units hfits]
  refine Nat.mul_le_mul_right _ (Nat.le_trans ?_ le_round_half_even)
  rw [← Nat.div_div_eq_div_mul, Nat.le_div_iff_mul_le (Nat.two_pow_pos _)]
  exact h

/-- A power of two below the fraction stays below. -/
theorem two_pow_le_units_round_units (hfits : num / den < 2 ^ 200) {e : Nat} (h : 2 ^ e ≤ num / den) :
    2 ^ e ≤ units (round_units num den) := by
  have hpos : num / den ≠ 0 := Nat.ne_of_gt (Nat.lt_of_lt_of_le (Nat.two_pow_pos e) h)
  rcases Nat.le_total (shift num den) e with hle | hle
  · have hsplit : 2 ^ e = 2 ^ (e - shift num den) * 2 ^ shift num den := by
      rw [← Nat.pow_add, Nat.sub_add_cancel hle]
    rw [hsplit] at h ⊢
    exact le_units_round_units hfits h
  · have hone : 1 * 2 ^ shift num den ≤ num / den := by
      rw [Nat.one_mul]
      refine Nat.le_trans (Nat.pow_le_pow_right (by decide) ?_) (log2_self_le hpos)
      unfold shift
      omega
    refine Nat.le_trans (Nat.pow_le_pow_right (by decide) hle) ?_
    have hunits := le_units_round_units hfits hone
    rwa [Nat.one_mul] at hunits

theorem two_pow_shift_le (h : 0 < shift num den) : 2 ^ 23 * 2 ^ shift num den ≤ num / den := by
  have hle := le_div_shift h
  rwa [← Nat.div_div_eq_div_mul, Nat.le_div_iff_mul_le (Nat.two_pow_pos _)] at hle

/-- The relative error is `2 ^ -23` at most, and a unit for the smallest numbers. -/
theorem units_round_units_le (hfits : num / den < 2 ^ 200) :
    2 ^ 23 * units (round_units num den) ≤ (2 ^ 23 + 1) * (num / den) + 2 ^ 23 := by
  have hround := @round_half_even_le num (den * 2 ^ shift num den)
  have hdown : num / (den * 2 ^ shift num den) * 2 ^ shift num den ≤ num / den := by
    rw [← Nat.div_div_eq_div_mul]
    exact div_mul_le_self _ _
  have hunits : units (round_units num den) ≤ num / den + 2 ^ shift num den := by
    rw [units_round_units hfits]
    refine Nat.le_trans (Nat.mul_le_mul_right _ hround) ?_
    rw [Nat.add_mul, Nat.one_mul]
    exact Nat.add_le_add_right hdown _
  rcases Nat.eq_zero_or_pos (shift num den) with hzero | hpos
  · rw [hzero, Nat.pow_zero] at hunits
    omega
  · have hplace := two_pow_shift_le hpos
    omega

theorem shift_le {k : Nat} (h : num / den < 2 ^ (k + 24)) : shift num den ≤ k := by
  rcases Nat.eq_zero_or_pos (num / den) with hzero | hpos
  · rw [shift, hzero]
    exact Nat.zero_le _
  · have hlog := (log2_lt (Nat.ne_of_gt hpos)).mpr h
    unfold shift
    omega

end Units

/-! ## Numbers that are not negative -/

section Positive

theorem magnitude_with_sign {m : Nat} (h : m < 2 ^ 31) : (with_sign false m).magnitude = m := by
  have hbits : (with_sign false m).bits.toNat = m := by
    simp only [with_sign, Bool.false_eq_true, if_false, BitVec.toNat_ofNat]
    omega
  rw [magnitude, hbits, mod_eq_of_lt h]

theorem negative_with_sign {m : Nat} (h : m < 2 ^ 31) : (with_sign false m).negative = false := by
  have hbits : (with_sign false m).bits.toNat = m := by
    simp only [with_sign, Bool.false_eq_true, if_false, BitVec.toNat_ofNat]
    omega
  simpa [negative, hbits] using h

/-- A fraction that does not overflow is rounded to a number that is finite. -/
theorem round_units_lt {num den : Nat} (hfits : num / den < 2 ^ 200) : round_units num den < infinity.magnitude := by
  have hlt := @div_shift_lt num den
  have hle := @round_half_even_le num (den * 2 ^ shift num den)
  have hshift : shift num den ≤ 176 := shift_le hfits
  have hinf : infinity.magnitude = 255 * 2 ^ 23 := by decide
  refine lt_of_le_of_lt (min_le_left _ _) ?_
  rw [hinf]
  unfold shift at hle hlt hshift
  omega

/-- A float that is finite and not negative. -/
structure Positive (v : Single) : Prop where
  finite : v.magnitude < infinity.magnitude
  sign : v.negative = false

theorem positive_with_sign {num den : Nat} (hfits : num / den < 2 ^ 200) :
    Positive (with_sign false (round_units num den)) ∧
      units (with_sign false (round_units num den)).magnitude = units (round_units num den) := by
  have hlt := round_units_lt hfits
  have hsmall : round_units num den < 2 ^ 31 := lt_trans hlt (by decide)
  rw [magnitude_with_sign hsmall]
  exact ⟨⟨by rwa [magnitude_with_sign hsmall], negative_with_sign hsmall⟩, rfl⟩

theorem of_nat_fits {n : Nat} (h : n < 2 ^ 32) : n * 2 ^ 149 / 1 < 2 ^ 200 := by omega

theorem positive_of_nat {n : Nat} (h : n < 2 ^ 32) : Positive (of_nat n) := (positive_with_sign (of_nat_fits h)).1

theorem units_of_nat {n : Nat} (h : n < 2 ^ 32) : units (of_nat n).magnitude = units (round_units (n * 2 ^ 149) 1) :=
  (positive_with_sign (of_nat_fits h)).2

theorem two_pow_le_units_of_nat {n e : Nat} (h : n < 2 ^ 32) (he : 2 ^ e ≤ n) :
    2 ^ e * 2 ^ 149 ≤ units (of_nat n).magnitude := by
  rw [units_of_nat h, ← Nat.pow_add]
  refine two_pow_le_units_round_units (of_nat_fits h) ?_
  rw [Nat.div_one, Nat.pow_add]
  exact mul_le_mul_right _ he

theorem units_of_nat_le {n : Nat} (h : n < 2 ^ 32) :
    2 ^ 23 * units (of_nat n).magnitude ≤ (2 ^ 23 + 1) * (n * 2 ^ 149) + 2 ^ 23 := by
  have hle := units_round_units_le (of_nat_fits h)
  rwa [← units_of_nat h, Nat.div_one] at hle

theorem div_eq {v w : Single} (hv : Positive v) (hw : Positive w) (hne : w.magnitude ≠ 0) :
    v / w = with_sign false (round_units (units v.magnitude * 2 ^ 149) (units w.magnitude)) := by
  have hvnan : v.is_nan = false := by simpa [is_nan] using hv.finite.le
  have hwnan : w.is_nan = false := by simpa [is_nan] using hw.finite.le
  have hvinf : v.is_infinite = false := by simpa [is_infinite] using hv.finite.ne
  have hwinf : w.is_infinite = false := by simpa [is_infinite] using hw.finite.ne
  show (if v.is_nan || w.is_nan then nan else _) = _
  simp [hvnan, hwnan, hvinf, hwinf, hne, hv.sign, hw.sign]

/-- The quotient of two unsigned numbers, rounded down. -/
def quotient (n d : Nat) : Nat := (of_nat n / of_nat d).floor

section Quotient

variable {n d : Nat}

theorem quotient_fits (hn : n < 2 ^ 32) (hd : d < 2 ^ 32) (hpos : 0 < d) :
    units (of_nat n).magnitude * 2 ^ 149 / units (of_nat d).magnitude < 2 ^ 200 := by
  have hle := units_of_nat_le hn
  have hone : 2 ^ 0 * 2 ^ 149 ≤ units (of_nat d).magnitude := two_pow_le_units_of_nat hd hpos
  rw [Nat.pow_zero, Nat.one_mul] at hone
  calc units (of_nat n).magnitude * 2 ^ 149 / units (of_nat d).magnitude
      ≤ units (of_nat n).magnitude * 2 ^ 149 / 2 ^ 149 := div_le_div_left hone (Nat.two_pow_pos _)
    _ = units (of_nat n).magnitude := Nat.mul_div_cancel _ (Nat.two_pow_pos _)
    _ < 2 ^ 200 := by omega

theorem quotient_eq (hn : n < 2 ^ 32) (hd : d < 2 ^ 32) (hpos : 0 < d) :
    quotient n d =
      units (round_units (units (of_nat n).magnitude * 2 ^ 149) (units (of_nat d).magnitude)) /
        2 ^ 149 := by
  have hone : 2 ^ 0 * 2 ^ 149 ≤ units (of_nat d).magnitude := two_pow_le_units_of_nat hd hpos
  have hne : (of_nat d).magnitude ≠ 0 := by
    intro hzero
    rw [hzero] at hone
    exact absurd hone (by decide)
  rw [quotient, div_eq (positive_of_nat hn) (positive_of_nat hd) hne, floor,
    (positive_with_sign (quotient_fits hn hd hpos)).2]

/-- A quotient by 2 or more is no more than the number. -/
theorem quotient_le (hn : n < 2 ^ 32) (hd : d < 2 ^ 32) (htwo : 2 ≤ d) : quotient n d ≤ n := by
  have hle := units_of_nat_le hn
  have hden : 2 ^ 1 * 2 ^ 149 ≤ units (of_nat d).magnitude := two_pow_le_units_of_nat hd (by omega)
  have hround := units_round_units_le (quotient_fits hn hd (by omega))
  have hhalf : units (of_nat n).magnitude * 2 ^ 149 / units (of_nat d).magnitude ≤
    units (of_nat n).magnitude / 2 := by
    calc units (of_nat n).magnitude * 2 ^ 149 / units (of_nat d).magnitude
        ≤ units (of_nat n).magnitude * 2 ^ 149 / (2 ^ 1 * 2 ^ 149) := div_le_div_left hden (by decide)
      _ = units (of_nat n).magnitude / 2 := by rw [Nat.mul_div_mul_right _ _ (Nat.two_pow_pos _), Nat.pow_one]
  rw [quotient_eq hn hd (by omega)]
  omega

end Quotient

end Positive

end Cpp.Single
