import Mathlib.Algebra.Order.BigOperators.Group.List
import Mathlib.Algebra.Order.Field.Basic
import Mathlib.Tactic.FieldSimp
import Mathlib.Tactic.Linarith

/-! # Step functions on an interval

    A step function is given by its segments, from left to right, with a value each. `Tiles`
    is that the segments follow one another without gaps from one end to the other, and none
    is empty. `Uniform left right lo hi total` says that the segments are a density of mass
    `total` on `left` to `right` that is positive exactly between `lo` and `hi`, as far as
    these lie inside, and constant there. `plateau` is the step function with that shape, and
    it is `Uniform` when its value is the mass over the width that is left inside.
-/

namespace Steps

open List

/-- A segment and the value on it. -/
structure Segment (R : Type) where
  left : R
  right : R
  value : R
  deriving DecidableEq

variable {R : Type}

/-- The segments lead from `left` to `right`. -/
def Tiles [LT R] (left right : R) : List (Segment R) → Prop
  | [] => left = right
  | segment :: rest => segment.left = left ∧ segment.left < segment.right ∧ Tiles segment.right right rest

def integral [Field R] (segments : List (Segment R)) : R := (segments.map fun s => s.value * (s.right - s.left)).sum

/-- The closed segments with a positive value. -/
def Positive [Zero R] [LE R] [LT R] (segments : List (Segment R)) (x : R) : Prop :=
  ∃ s ∈ segments, 0 < s.value ∧ s.left ≤ x ∧ x ≤ s.right

/-- A density of mass `total` that is constant between `lo` and `hi`, and 0 elsewhere. -/
structure Uniform [Field R] [LinearOrder R] (left right lo hi total : R) (segments : List (Segment R)) : Prop where
  tiles : Tiles left right segments
  nonneg : ∀ s ∈ segments, 0 ≤ s.value
  mass : integral segments = total
  positive : ∀ x, Positive segments x ↔ lo ≤ x ∧ x ≤ hi ∧ left ≤ x ∧ x ≤ right
  constant : ∀ s ∈ segments, ∀ t ∈ segments, 0 < s.value → 0 < t.value → s.value = t.value

/-- The value `v` between `lo` and `hi`, as far as they lie inside, and 0 elsewhere. -/
def plateau [Zero R] [LinearOrder R] (left right lo hi v : R) : List (Segment R) :=
  (if left < lo then [⟨left, lo, 0⟩] else []) ++ ⟨max left lo, min right hi, v⟩ ::
    if hi < right then [⟨hi, right, 0⟩] else []

section Rules

variable {left mid right lo hi v total : R} {xs ys segments : List (Segment R)}

theorem Tiles.append [LT R] (hxs : Tiles left mid xs) (hys : Tiles mid right ys) : Tiles left right (xs ++ ys) := by
  induction xs generalizing left with
  | nil =>
    have hends : left = mid := hxs
    rw [hends]
    exact hys
  | cons segment rest ih =>
    obtain ⟨hleft, hlt, hrest⟩ := hxs
    exact ⟨hleft, hlt, ih hrest⟩

theorem Tiles.lt [LT R] (h : Tiles left right segments) : ∀ s ∈ segments, s.left < s.right := by
  induction segments generalizing left with
  | nil => simp
  | cons segment rest ih =>
    obtain ⟨-, hlt, hrest⟩ := h
    intro s hs
    rcases mem_cons.mp hs with heq | hmem
    · rw [heq]
      exact hlt
    · exact ih hrest s hmem

section Integrals

variable [Field R]

@[simp] theorem integral_nil : integral ([] : List (Segment R)) = 0 := rfl

@[simp] theorem integral_cons (s : Segment R) (rest : List (Segment R)) :
    integral (s :: rest) = s.value * (s.right - s.left) + integral rest := by
  simp [integral]

@[simp] theorem integral_append : integral (xs ++ ys) = integral xs + integral ys := by
  simp [integral]

/-- Segments with the value 0 have no mass. -/
theorem integral_zero (h : ∀ s ∈ segments, s.value = 0) : integral segments = 0 := by
  induction segments with
  | nil => rfl
  | cons s rest ih =>
    rw [integral_cons, h s mem_cons_self, ih fun t ht => h t (mem_cons_of_mem _ ht), zero_mul, add_zero]

end Integrals

section Ordered

variable [Field R] [LinearOrder R]

/-- The mass of a density on an interval that is met is positive. -/
theorem Uniform.pos [IsStrictOrderedRing R] (h : Uniform left right lo hi total segments)
    (hin : left < right) (hmeets : lo ≤ hi)
    (hlo : lo ≤ right) (hhi : left ≤ hi) : 0 < total := by
  have hat : Positive segments (max left lo) :=
    (h.positive _).mpr ⟨le_max_right _ _, max_le hhi hmeets, le_max_left _ _, max_le hin.le hlo⟩
  obtain ⟨s, hs, hvalue, -, -⟩ := hat
  have hmass : 0 < s.value * (s.right - s.left) := mul_pos hvalue (sub_pos.mpr (h.tiles.lt s hs))
  -- the mass of a positive segment is part of the integral
  have hle : s.value * (s.right - s.left) ≤ integral segments := by
    refine single_le_sum (fun x hx => ?_) _ (mem_map_of_mem hs)
    obtain ⟨t, ht, hx⟩ := mem_map.mp hx
    rw [← hx]
    exact mul_nonneg (h.nonneg t ht) (sub_nonneg.mpr (h.tiles.lt t ht).le)
  rw [← h.mass]
  exact lt_of_lt_of_le hmass hle

theorem plateau_tiles (hlo : lo < right) (hhi : left < hi) (hlt : lo < hi) (hin : left < right) :
    Tiles left right (plateau left right lo hi v) := by
  have hmid : max left lo < min right hi := max_lt (lt_min hin hhi) (lt_min hlo hlt)
  refine @Tiles.append R left (max left lo) right _ _ _ ?_ ⟨rfl, hmid, ?_⟩
  · by_cases h : left < lo
    · simp [h, max_eq_right h.le, Tiles]
    · simp [h, max_eq_left (not_lt.mp h), Tiles]
  · by_cases h : hi < right
    · simp [h, min_eq_right h.le, Tiles]
    · simp [h, min_eq_left (not_lt.mp h), Tiles]

theorem mem_plateau {s : Segment R} (h : s ∈ plateau left right lo hi v) :
    s = ⟨max left lo, min right hi, v⟩ ∨ s.value = 0 := by
  simp only [plateau, mem_append, mem_cons] at h
  rcases h with h | h | h
  · split at h
    · rw [mem_singleton.mp h]
      exact .inr rfl
    · exact absurd h not_mem_nil
  · exact .inl h
  · split at h
    · rw [mem_singleton.mp h]
      exact .inr rfl
    · exact absurd h not_mem_nil

theorem plateau_integral : integral (plateau left right lo hi v) = v * (min right hi - max left lo) := by
  unfold plateau
  rw [integral_append, integral_cons]
  split <;> split <;> simp

theorem plateau_uniform [IsStrictOrderedRing R] (hlo : lo < right) (hhi : left < hi) (hlt : lo < hi)
    (hin : left < right) (htotal : 0 < total) :
    Uniform left right lo hi total (plateau left right lo hi (total / (min right hi - max left lo))) := by
  have hmid : max left lo < min right hi := max_lt (lt_min hin hhi) (lt_min hlo hlt)
  have hwidth : 0 < min right hi - max left lo := sub_pos.mpr hmid
  have hvalue : 0 < total / (min right hi - max left lo) := div_pos htotal hwidth
  -- the only segment with a positive value is the middle one
  have honly : ∀ s ∈ plateau left right lo hi (total / (min right hi - max left lo)), 0 < s.value →
      s = ⟨max left lo, min right hi, total / (min right hi - max left lo)⟩ := by
    intro s hs hpos
    rcases mem_plateau hs with h | h
    · exact h
    · rw [h] at hpos
      exact absurd hpos (lt_irrefl 0)
  constructor
  · exact plateau_tiles hlo hhi hlt hin
  · intro s hs
    rcases mem_plateau hs with h | h
    · rw [h]
      exact hvalue.le
    · exact h.ge
  · rw [plateau_integral, div_mul_cancel₀ _ hwidth.ne']
  · intro x
    have hmem : (⟨max left lo, min right hi, total / (min right hi - max left lo)⟩ : Segment R) ∈
        plateau left right lo hi (total / (min right hi - max left lo)) := by
      simp [plateau]
    constructor
    · rintro ⟨s, hs, hpos, hleft, hright⟩
      rw [honly s hs hpos] at hleft hright
      exact ⟨(max_le_iff.mp hleft).2, (le_min_iff.mp hright).2, (max_le_iff.mp hleft).1, (le_min_iff.mp hright).1⟩
    · intro ⟨h1, h2, h3, h4⟩
      exact ⟨_, hmem, hvalue, max_le h3 h1, le_min h4 h2⟩
  · intro s hs t ht hspos htpos
    rw [honly s hs hspos, honly t ht htpos]

end Ordered

end Rules

end Steps
