import VowpalWabbit.Framework.Single
import Mathlib.Tactic

/-! # Rounding to single precision

    A fraction that is close to a single-precision number is rounded to it.
    `round_units_of_near` says how close is enough: a relative error of
    `2 ^ -27` stays clear of the middle to either neighbour, also below a power
    of two, where the neighbours are half as far apart.
-/

namespace Cpp.Single

open Nat

variable {num den : Nat}

/-- A fraction nearer to `f` than one half is rounded to `f`. -/
theorem round_half_even_of_near {f : Nat} (hhi : 2 * num < 2 * (f * den) + den)
    (hlo : 2 * (f * den) < 2 * num + den) : round_half_even num den = f := by
  have hdiv := div_add_mod num den
  unfold round_half_even
  rcases lt_or_ge num (f * den) with hlt | hge
  · -- The fraction is below `f`, and rounded up.
    have hf : f ≠ 0 := by
      rintro rfl
      omega
    have hq : num / den = f - 1 := by
      have hsplit : f * den = (f - 1) * den + den := by
        obtain ⟨g, rfl⟩ := exists_eq_succ_of_ne_zero hf
        rw [succ_mul, succ_sub_one]
      apply Nat.div_eq_of_lt_le
      · omega
      · rw [add_mul]
        omega
    have hr : den * (f - 1) + num % den = num := by rw [← hq]; exact hdiv
    have hprod : f * den = den * (f - 1) + den := by
      obtain ⟨g, rfl⟩ := exists_eq_succ_of_ne_zero hf
      rw [succ_mul, succ_sub_one, mul_comm]
    rw [hq, if_pos (Or.inl (by omega))]
    omega
  · have hq : num / den = f := by
      apply Nat.div_eq_of_lt_le
      · exact hge
      · rw [add_mul]
        omega
    have hr : f * den + num % den = num := by rw [mul_comm, ← hq]; exact hdiv
    rw [hq, if_neg]
    omega

variable {m : Nat}

theorem units_of_lt (hm : m < 2 ^ 24) : units m = m := by
  unfold units
  split
  · rfl
  · have hdiv : m / 2 ^ 23 = 1 := by omega
    rw [hdiv, Nat.sub_self, Nat.pow_zero, Nat.mul_one]
    omega

/-- The exponent by which the fraction is scaled. -/
theorem log2_div {k : Nat} (hden : 0 < den) (hlo : 2 ^ k * den ≤ num)
    (hhi : num < 2 ^ (k + 1) * den) : Nat.log2 (num / den) = k := by
  have hle : 2 ^ k ≤ num / den := (le_div_iff_mul_le hden).mpr hlo
  have hpos := Nat.two_pow_pos k
  rw [log2_eq_iff (by omega)]
  exact ⟨hle, (div_lt_iff_lt_mul hden).mpr hhi⟩

/-- What `round_units` gives once the exponent is known. -/
theorem round_units_eq {shift f : Nat} (hshift : Nat.log2 (num / den) - 23 = shift)
    (hround : round_half_even num (den * 2 ^ shift) = f)
    (hfinite : shift * 2 ^ 23 + f < infinity.magnitude) :
    round_units num den = shift * 2 ^ 23 + f := by
  unfold round_units
  simp only [hshift, hround]
  exact min_eq_left hfinite.le

theorem round_units_of_near (hm : m < infinity.magnitude) (hden : 0 < den)
    (hlo : (2 ^ 27 - 1) * (units m * den) ≤ 2 ^ 27 * num)
    (hhi : 2 ^ 27 * num ≤ (2 ^ 27 + 1) * (units m * den)) : round_units num den = m := by
  rcases lt_or_ge m (2 ^ 24) with hsmall | hlarge
  · -- The numbers are the whole multiples of the unit.
    rw [units_of_lt hsmall] at hlo hhi
    have hF : m * den ≤ (2 ^ 24 - 1) * den := mul_le_mul_right den (by omega)
    have hshift : Nat.log2 (num / den) - 23 = 0 := by
      have hlt : num / den < 2 ^ 24 := by
        rw [div_lt_iff_lt_mul hden]
        omega
      rcases Nat.eq_zero_or_pos (num / den) with h0 | hpos
      · rw [h0]
        decide
      · have := (log2_lt (by omega)).mpr hlt
        omega
    have hround : round_half_even num (den * 2 ^ 0) = m := by
      rw [Nat.pow_zero, Nat.mul_one]
      apply round_half_even_of_near
      · omega
      · omega
    have hres := round_units_eq hshift hround (by omega)
    rw [hres]
    omega
  · -- A number `f * 2 ^ e` with `f` in `[2 ^ 23, 2 ^ 24)`.
    obtain ⟨e, f, hmf, hf1, hf2, hu⟩ : ∃ e f, m = (e + 1) * 2 ^ 23 + f ∧ 2 ^ 23 ≤ f ∧ f < 2 ^ 24 ∧
        units m = f * 2 ^ (e + 1) := by
      refine ⟨m / 2 ^ 23 - 2, 2 ^ 23 + m % 2 ^ 23, by omega, by omega, by omega, ?_⟩
      unfold units
      rw [if_neg (by omega)]
      congr 2
      omega
    set G := den * 2 ^ (e + 1) with hG
    set F := f * G with hFdef
    have hGpos : 0 < G := Nat.mul_pos hden (Nat.two_pow_pos _)
    have hunits : units m * den = F := by
      rw [hu, hFdef, hG]
      ring
    rw [hunits] at hlo hhi
    have hF2 : F ≤ (2 ^ 24 - 1) * G := mul_le_mul_right G (by omega)
    have hp24 : 2 ^ (23 + (e + 1) + 1) * den = 2 ^ 24 * G := by
      rw [hG]
      ring
    have hp23 : 2 ^ (23 + (e + 1)) * den = 2 ^ 23 * G := by
      rw [hG]
      ring
    rcases lt_or_ge num (2 ^ 23 * G) with hbelow | habove
    · -- Only a power of two has fractions below it that are rounded to it.
      have hf : f = 2 ^ 23 := by
        by_contra hne
        have hF1 : (2 ^ 23 + 1) * G ≤ F := mul_le_mul_right G (by omega)
        omega
      have hF1 : F = 2 ^ 23 * G := by rw [hFdef, hf]
      have hhalf : G = 2 * (den * 2 ^ e) := by
        rw [hG]
        ring
      have hp22 : 2 ^ (23 + e) * den = 2 ^ 23 * (den * 2 ^ e) := by ring
      have hp22' : 2 ^ (23 + e + 1) * den = 2 ^ 24 * (den * 2 ^ e) := by ring
      have hshift : Nat.log2 (num / den) - 23 = e := by
        rw [log2_div hden (k := 23 + e) (by omega) (by omega)]
        omega
      have hround : round_half_even num (den * 2 ^ e) = 2 ^ 24 := by
        apply round_half_even_of_near
        · omega
        · omega
      have hres := round_units_eq hshift hround (by omega)
      rw [hres]
      omega
    · have hshift : Nat.log2 (num / den) - 23 = e + 1 := by
        rw [log2_div hden (k := 23 + (e + 1)) (by omega) (by omega)]
        omega
      have hround : round_half_even num G = f := by
        apply round_half_even_of_near
        · show 2 * num < 2 * F + G
          omega
        · show 2 * F < 2 * num + G
          omega
      have hres := round_units_eq hshift hround (by omega)
      rw [hres]
      omega

/-! ## Fractions -/

/-- The error of rounding to an integer, and where the integer lies. -/
theorem round_half_even_error {num den : Nat} (hden : 0 < den) :
    |(round_half_even num den : ℚ) - num / den| ≤ 1 / 2 ∧
    num / den ≤ round_half_even num den ∧ round_half_even num den ≤ num / den + 1 := by
  have hdiv := div_add_mod num den
  have hmod := mod_lt num hden
  have hpos : (0 : ℚ) < den := by exact_mod_cast hden
  have hcast : (num : ℚ) = den * (num / den : Nat) + (num % den : Nat) := by exact_mod_cast hdiv.symm
  have hmodq : ((num % den : Nat) : ℚ) < den := by exact_mod_cast hmod
  have hfrac : (num : ℚ) / den = (num / den : Nat) + (num % den : Nat) / den := by
    rw [hcast]
    field_simp
  unfold round_half_even
  simp only
  split
  · rename_i hup
    have hge : (den : ℚ) ≤ 2 * (num % den : Nat) := by
      have : den ≤ 2 * (num % den) := by omega
      exact_mod_cast this
    refine ⟨?_, by omega, by omega⟩
    have h1 : (1 / 2 : ℚ) ≤ (num % den : Nat) / den := by
      rw [le_div_iff₀ hpos]
      linarith
    have h2 : ((num % den : Nat) : ℚ) / den ≤ 1 := by
      rw [div_le_one hpos]
      exact hmodq.le
    rw [hfrac, abs_le]
    push_cast
    constructor
    · linarith
    · linarith
  · rename_i hdown
    have hle : 2 * ((num % den : Nat) : ℚ) ≤ den := by
      have : 2 * (num % den) ≤ den := by omega
      exact_mod_cast this
    refine ⟨?_, by omega, by omega⟩
    have h1 : ((num % den : Nat) : ℚ) / den ≤ 1 / 2 := by
      rw [div_le_iff₀ hpos]
      linarith
    have h2 : (0 : ℚ) ≤ (num % den : Nat) / den := by positivity
    rw [hfrac, abs_le]
    constructor
    · linarith
    · linarith

/-- `round_units_of_near` for the value of the fraction. -/
theorem round_units_of_close (hm : m < infinity.magnitude) (hden : 0 < den)
    (h : |(num : ℚ) / den - units m| * 2 ^ 27 ≤ units m) : round_units num den = m := by
  have hpos : (0 : ℚ) < den := by exact_mod_cast hden
  have hnum : (num : ℚ) = num / den * den := by field_simp
  rw [← le_div_iff₀ (by norm_num), abs_le] at h
  obtain ⟨hlo, hhi⟩ := h
  apply round_units_of_near hm hden
  · have : ((2 ^ 27 - 1 : Nat) : ℚ) * (units m * den) ≤ 2 ^ 27 * num := by
      rw [hnum]
      have hmul := mul_le_mul_of_nonneg_right hlo hpos.le
      push_cast
      linarith
    exact_mod_cast this
  · have : (2 ^ 27 * num : ℚ) ≤ ((2 ^ 27 + 1 : Nat) : ℚ) * (units m * den) := by
      rw [hnum]
      have hmul := mul_le_mul_of_nonneg_right hhi hpos.le
      push_cast
      linarith
    exact_mod_cast this

end Cpp.Single
