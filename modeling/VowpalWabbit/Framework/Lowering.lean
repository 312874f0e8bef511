import Mathlib.Algebra.Order.BigOperators.Group.List
import Mathlib.Algebra.Order.Field.Basic
import Mathlib.Tactic.Linarith
import Mathlib.Tactic.Ring

/-! # Lowering a list to a given sum above a floor

    The elements of a descending list are lowered by one amount, the level, but
    not below a floor. A split of the list into the elements that stay above the
    floor and those that end on it determines the level for which the result
    sums to one, and going through the list once finds such a split.
-/

namespace Cpp

open List

variable {K : Type} [Field K] [LinearOrder K] [IsStrictOrderedRing K]

/-- What the elements of `front` are lowered by when the others of `size`
    elements are put on the floor. -/
def level (size : Nat) (floor : K) (front : List K) : K :=
  ((size - front.length) * floor + front.sum - 1) / front.length

theorem level_mul_length (size : Nat) (floor : K) {front : List K} (h : front ≠ []) :
    level size floor front * front.length = (size - front.length) * floor + front.sum - 1 := by
  have hlength : (front.length : K) ≠ 0 := by
    simpa using h
  unfold level
  rw [div_mul_cancel₀ _ hlength]

/-- The elements of `front` stay above the floor, those of `back` end on it. -/
structure FloorSplit (size : Nat) (floor : K) (front back : List K) : Prop where
  nonempty : front ≠ []
  above : ∀ x ∈ front, level size floor front < x - floor
  below : ∀ x ∈ back, x - floor ≤ level size floor front

namespace FloorSplit

variable {size : Nat} {floor x : K} {front back : List K}

/-- A smaller element that is above the level it would give makes all elements
    seen so far stay above the floor. -/
theorem all_above {seen : List K} (hle : ∀ y ∈ seen, x ≤ y)
    (hx : level size floor (seen ++ [x]) < x - floor) : FloorSplit size floor (seen ++ [x]) [] where
  nonempty := by simp
  above := by
    intro y hy
    have hxy : x ≤ y := by
      rcases mem_append.mp hy with hy | hy
      · exact hle y hy
      · exact (mem_singleton.mp hy).ge
    linarith
  below := by simp

/-- When nothing is on the floor yet, an element that is not above the level it
    would give is not above the level without it. -/
theorem not_above_front (h : front ≠ []) (hx : x - floor ≤ level size floor (front ++ [x])) :
    x - floor ≤ level size floor front := by
  have hlength : (0 : K) < front.length := by
    exact_mod_cast length_pos_iff.mpr h
  have hlevel := level_mul_length size floor h
  have hsnoc : front ++ [x] ≠ [] := by simp
  have hlevel' := level_mul_length size floor hsnoc
  simp only [length_append, length_singleton, Nat.cast_add, Nat.cast_one,
    sum_append, sum_singleton] at hlevel'
  -- the level with the element is the mean of the level without it and the element
  have hmean : level size floor (front ++ [x]) * (front.length + 1)
      = level size floor front * front.length + (x - floor) := by
    rw [hlevel', hlevel]
    ring
  have hmul : (x - floor) * front.length ≤ level size floor front * front.length := by
    have hscaled : (x - floor) * (front.length + 1)
        ≤ level size floor (front ++ [x]) * (front.length + 1) := by
      apply mul_le_mul_of_nonneg_right hx
      linarith
    linarith
  exact le_of_mul_le_mul_right hmul hlength

/-- An element that is not above the level it would give goes to the floor. -/
theorem snoc_below (h : FloorSplit size floor front back) (hle : ∀ y ∈ back, x ≤ y)
    (hx : x - floor ≤ level size floor (front ++ back ++ [x])) :
    FloorSplit size floor front (back ++ [x]) where
  nonempty := h.nonempty
  above := h.above
  below := by
    intro y hy
    rcases mem_append.mp hy with hy | hy
    · exact h.below y hy
    · obtain rfl := mem_singleton.mp hy
      cases back with
      | nil =>
        rw [append_nil] at hx
        exact not_above_front h.nonempty hx
      | cons z back =>
        have hz := h.below z mem_cons_self
        have hyz := hle z mem_cons_self
        linarith

theorem sum_front (h : ∀ x ∈ front, level size floor front < x - floor) {t : K}
    (ht : level size floor front = t) :
    (front.map fun x => max (x - t) floor).sum = front.sum - front.length * t := by
  subst ht
  have hmap : (front.map fun x => max (x - level size floor front) floor)
      = front.map fun x => x - level size floor front := by
    apply map_congr_left
    intro x hx
    have := h x hx
    apply max_eq_left
    linarith
  rw [hmap]
  clear hmap h
  generalize level size floor front = t
  induction front with
  | nil => simp
  | cons y front ih =>
    rw [map_cons, sum_cons, ih, sum_cons, length_cons]
    push_cast
    ring

theorem sum_back {t : K} (h : ∀ x ∈ back, x - floor ≤ t) :
    (back.map fun x => max (x - t) floor).sum = back.length * floor := by
  have hmap : (back.map fun x => max (x - t) floor) = back.map fun _ => floor := by
    apply map_congr_left
    intro x hx
    have := h x hx
    apply max_eq_right
    linarith
  rw [hmap, map_const', sum_replicate, nsmul_eq_mul]

/-- The lowered elements sum to one. -/
theorem sum_lowered (h : FloorSplit size floor front back)
    (hsize : front.length + back.length = size) :
    ((front ++ back).map fun x => max (x - level size floor front) floor).sum = 1 := by
  have hlevel := level_mul_length size floor h.nonempty
  rw [map_append, sum_append, sum_front h.above rfl, sum_back h.below,
    mul_comm (front.length : K), hlevel, ← hsize]
  push_cast
  ring

/-- The elements are lowered indeed when they sum to at least one. -/
theorem level_nonneg (h : FloorSplit size floor front back)
    (hsize : front.length + back.length = size) (hsum : 1 ≤ (front ++ back).sum) :
    0 ≤ level size floor front := by
  by_contra hneg
  have hneg : level size floor front < 0 := not_le.mp hneg
  have hback : back.sum ≤ back.length * floor := by
    have hle := sum_le_card_nsmul back floor fun x hx => by
      have := h.below x hx
      linarith
    rwa [nsmul_eq_mul] at hle
  have hlevel := level_mul_length size floor h.nonempty
  have hlength : (0 : K) < front.length := by
    exact_mod_cast length_pos_iff.mpr h.nonempty
  have hlt : level size floor front * front.length < 0 := mul_neg_of_neg_of_pos hneg hlength
  rw [sum_append] at hsum
  rw [hlevel, ← hsize] at hlt
  push_cast at hlt
  linarith

end FloorSplit

/-- Lowering keeps the order. -/
theorem lowered_le_lowered {x y t floor : K} (h : x ≤ y) : max (x - t) floor ≤ max (y - t) floor :=
  max_le_max (sub_le_sub_right h t) le_rfl

theorem lowered_le {x t floor : K} (ht : 0 ≤ t) (hx : floor ≤ x) : max (x - t) floor ≤ x :=
  max_le (sub_le_self x ht) hx

end Cpp
