import VowpalWabbit.Framework.Loops
import Mathlib.Tactic

/-! # Weights of several models in one array

    `core/multi_model_utils.h` on `dense_parameters`. The array holds groups of
    `total_feature_width` rows of `stride` weights; within a group the rows of
    the innermost reduction lie next to each other. The reduction to one of
    them packs its rows to the front of the array, in place.

    The three functions have the same loops, which are one loop over the
    positions of the packed array (`Layout.sweep_eq`).
-/

open Cpp

namespace VW.MultiModel

open Nat

/-- `VW::dense_parameters`; a weight is addressed by its position in the array. -/
structure DenseParameters (V : Type) where
  data : Nat → V
  raw_length : Nat
  stride_shift : Nat

variable {V : Type}

def DenseParameters.stride (weights : DenseParameters V) : Nat := 2 ^ weights.stride_shift

/-- The three nested loops that all functions of the file share: over the
    groups, over the rows of the outer reductions, and over the weights of a
    row. The body is given the index of the group and the two offsets. -/
def sweep (weights : DenseParameters V) (total_feature_width innermost_feature_width_size : Nat)
    (body : (Nat → V) → Nat → Nat → Nat → Nat → V) : Nat → V :=
  let step := total_feature_width * weights.stride
  for_range ((weights.raw_length + step - 1) / step) (fun weights_arr group =>
    for_range (total_feature_width / innermost_feature_width_size) (fun weights_arr outer_offset =>
      for_range weights.stride (fun weights_arr stride_offset =>
        body weights_arr (group * step) outer_offset stride_offset) weights_arr) weights_arr)
    weights.data

theorem DenseParameters.stride_pos (weights : DenseParameters V) : 0 < weights.stride :=
  Nat.two_pow_pos _

/-- The three loops as one, for an array of whole groups. -/
theorem sweep_eq_for_range (weights : DenseParameters V) {total groups : Nat} (htotal : 0 < total)
    (hlength : weights.raw_length = groups * total * weights.stride) (inner : Nat)
    (body : (Nat → V) → Nat → Nat → Nat → Nat → V) :
    sweep weights total inner body =
      for_range (groups * (total / inner) * weights.stride) (fun weights_arr k =>
        body weights_arr (k / weights.stride / (total / inner) * (total * weights.stride))
          (k / weights.stride % (total / inner)) (k % weights.stride)) weights.data := by
  have hstep : 0 < total * weights.stride := Nat.mul_pos htotal weights.stride_pos
  have hgroups : (weights.raw_length + total * weights.stride - 1) / (total * weights.stride)
      = groups := by
    rw [hlength, Nat.mul_assoc, Nat.add_sub_assoc hstep, Nat.mul_comm, mul_add_div hstep,
      div_eq_of_lt (sub_lt hstep Nat.one_pos), Nat.add_zero]
  unfold sweep
  show for_range ((weights.raw_length + total * weights.stride - 1) / (total * weights.stride)) _ _
    = _
  rw [hgroups]
  generalize total / inner = outer
  calc for_range groups (fun weights_arr group =>
          for_range outer (fun weights_arr outer_offset =>
            for_range weights.stride (fun weights_arr stride_offset =>
              body weights_arr (group * (total * weights.stride)) outer_offset stride_offset)
              weights_arr) weights_arr) weights.data
      = for_range groups (fun weights_arr group =>
          for_range (outer * weights.stride) (fun weights_arr k =>
            body weights_arr (group * (total * weights.stride)) (k / weights.stride)
              (k % weights.stride)) weights_arr) weights.data := by
        apply for_range_congr
        intro group _ weights_arr
        exact for_range_nested outer weights.stride
          (fun weights_arr => body weights_arr (group * (total * weights.stride))) weights_arr
    _ = for_range (groups * (outer * weights.stride)) (fun weights_arr k =>
          body weights_arr (k / (outer * weights.stride) * (total * weights.stride))
            (k % (outer * weights.stride) / weights.stride)
            (k % (outer * weights.stride) % weights.stride)) weights.data :=
        for_range_nested groups (outer * weights.stride)
          (fun weights_arr group k =>
            body weights_arr (group * (total * weights.stride)) (k / weights.stride)
              (k % weights.stride)) weights.data
    _ = _ := by
        rw [← Nat.mul_assoc]
        apply for_range_congr
        intro k _ weights_arr
        rw [Nat.mul_comm outer weights.stride, ← Nat.div_div_eq_div_mul, mod_mul_right_div_self,
          mod_mul_right_mod]

section Reduce

variable [Zero V] [DecidableEq V]

def clear_innermost_offset (weights : DenseParameters V)
    (offset total_feature_width innermost_feature_width_size : Nat) : DenseParameters V :=
  { weights with
    data := sweep weights total_feature_width innermost_feature_width_size
      fun weights_arr index outer_offset stride_offset =>
        Function.update weights_arr
          (index + outer_offset * innermost_feature_width_size * weights.stride
            + offset * weights.stride + stride_offset) 0 }

/-- The body of the loop that moves the selected rows. -/
def move_weight (stride offset innermost_feature_width_size : Nat) (weights_arr : Nat → V)
    (index outer_offset stride_offset : Nat) : Nat → V :=
  -- `cb_ind` is a `uint32_t`.
  let cb_ind := index / innermost_feature_width_size % 2 ^ 32
  let old_ind := index + outer_offset * innermost_feature_width_size * stride + offset * stride
    + stride_offset
  let new_ind := cb_ind + outer_offset * stride + stride_offset
  if weights_arr old_ind ≠ 0 then
    let weights_arr := Function.update weights_arr new_ind (weights_arr old_ind)
    if index ≠ 0 ∨ outer_offset ≠ 0 then Function.update weights_arr old_ind 0 else weights_arr
  else weights_arr

def reduce_innermost_model_weights (weights : DenseParameters V)
    (offset total_feature_width innermost_feature_width_size : Nat) : DenseParameters V :=
  let weights := for_range innermost_feature_width_size (fun weights inner_feature_widths =>
    if inner_feature_widths ≠ offset then
      clear_innermost_offset weights inner_feature_widths total_feature_width
        innermost_feature_width_size
    else weights) weights
  { weights with
    data := sweep weights total_feature_width innermost_feature_width_size
      (move_weight weights.stride offset innermost_feature_width_size) }

end Reduce

/-! ## Layout -/

/-- An array of whole groups, all sizes powers of two. -/
structure Layout where
  groups : Nat
  outer_bits : Nat
  inner_bits : Nat
  stride_shift : Nat

namespace Layout

def inner (l : Layout) : Nat := 2 ^ l.inner_bits

def outer (l : Layout) : Nat := 2 ^ l.outer_bits

def stride (l : Layout) : Nat := 2 ^ l.stride_shift

def total (l : Layout) : Nat := l.outer * l.inner

/-- How many rows the packed array has. -/
def rows (l : Layout) : Nat := l.groups * l.outer

/-- The weights of an array with this layout. -/
def parameters (l : Layout) (data : Nat → V) : DenseParameters V :=
  ⟨data, l.groups * l.total * l.stride, l.stride_shift⟩

/-- Where the weight of position `k` of the packed array is stored before. -/
def source (l : Layout) (offset k : Nat) : Nat :=
  (k / l.stride * l.inner + offset) * l.stride + k % l.stride

/-- Where the code writes it. -/
def target (l : Layout) (k : Nat) : Nat :=
  k / l.stride / l.outer * (l.outer * l.stride) % 2 ^ 32 + k / l.stride % l.outer * l.stride
    + k % l.stride

variable (l : Layout)

theorem inner_pos : 0 < l.inner := Nat.two_pow_pos _

theorem outer_pos : 0 < l.outer := Nat.two_pow_pos _

theorem stride_pos : 0 < l.stride := Nat.two_pow_pos _

theorem total_pos : 0 < l.total := Nat.mul_pos l.outer_pos l.inner_pos

theorem total_div_inner : l.total / l.inner = l.outer := Nat.mul_div_cancel _ l.inner_pos

/-- A row of the packed array, by its group and its place in it. -/
theorem row_eq (k : Nat) :
    k / l.stride = k / l.stride / l.outer * l.outer + k / l.stride % l.outer := by
  have := div_add_mod (k / l.stride) l.outer
  rw [Nat.mul_comm] at this
  exact this.symm

/-- The index that the code computes for the old place of a weight. -/
theorem old_index_eq (offset k : Nat) :
    k / l.stride / l.outer * (l.total * l.stride) + k / l.stride % l.outer * l.inner * l.stride
      + offset * l.stride + k % l.stride = l.source offset k := by
  unfold source total
  calc _ = ((k / l.stride / l.outer * l.outer + k / l.stride % l.outer) * l.inner + offset) * l.stride
          + k % l.stride := by ring
    _ = _ := by rw [← l.row_eq k]

theorem source_div (offset k : Nat) (hoff : offset < l.inner) :
    l.source offset k / l.stride / l.inner = k / l.stride ∧
    l.source offset k / l.stride % l.inner = offset ∧ l.source offset k % l.stride = k % l.stride := by
  have hs := mod_lt k l.stride_pos
  have hrow : l.source offset k / l.stride = l.inner * (k / l.stride) + offset := by
    unfold source
    rw [Nat.mul_comm _ l.stride, mul_add_div l.stride_pos, div_eq_of_lt hs, add_zero,
      Nat.mul_comm]
  refine ⟨?_, ?_, ?_⟩
  · rw [hrow, mul_add_div l.inner_pos, div_eq_of_lt hoff, add_zero]
  · rw [hrow, mul_add_mod, mod_eq_of_lt hoff]
  · unfold source
    rw [Nat.mul_comm _ l.stride, mul_add_mod, mod_eq_of_lt hs]

theorem source_injective {offset : Nat} (hoff : offset < l.inner) {j k : Nat}
    (h : l.source offset j = l.source offset k) : j = k := by
  have hj := l.source_div offset j hoff
  have hk := l.source_div offset k hoff
  have hrow : j / l.stride = k / l.stride := by rw [← hj.1, ← hk.1, h]
  have hcol : j % l.stride = k % l.stride := by rw [← hj.2.2, ← hk.2.2, h]
  rw [← div_add_mod j l.stride, ← div_add_mod k l.stride, hrow, hcol]

/-- The weights that are kept are those in the rows of the selected model. -/
theorem exists_source_iff {offset : Nat} (hoff : offset < l.inner) (x : Nat) :
    (∃ k < l.rows * l.stride, l.source offset k = x) ↔
      x < l.groups * l.total * l.stride ∧ x / l.stride % l.inner = offset := by
  have hlen : l.groups * l.total = l.inner * l.rows := by
    unfold total rows
    ring
  constructor
  · rintro ⟨k, hk, rfl⟩
    obtain ⟨hrow, hmod, -⟩ := l.source_div offset k hoff
    refine ⟨?_, hmod⟩
    rw [← div_lt_iff_lt_mul l.stride_pos, hlen, Nat.mul_comm]
    apply lt_mul_of_div_lt _ l.inner_pos
    rw [hrow]
    exact (div_lt_iff_lt_mul l.stride_pos).mpr hk
  · rintro ⟨hx, hmod⟩
    have hs := mod_lt x l.stride_pos
    refine ⟨x / l.stride / l.inner * l.stride + x % l.stride, ?_, ?_⟩
    · rw [hlen, ← div_lt_iff_lt_mul l.stride_pos] at hx
      have hrow := Nat.div_lt_of_lt_mul hx
      calc x / l.stride / l.inner * l.stride + x % l.stride
          < x / l.stride / l.inner * l.stride + l.stride := Nat.add_lt_add_left hs _
        _ = (x / l.stride / l.inner + 1) * l.stride := by ring
        _ ≤ l.rows * l.stride := mul_le_mul_right _ hrow
    · unfold source
      have hdiv : (x / l.stride / l.inner * l.stride + x % l.stride) / l.stride
          = x / l.stride / l.inner := by
        rw [Nat.mul_comm, mul_add_div l.stride_pos, div_eq_of_lt hs, add_zero]
      have hcol : (x / l.stride / l.inner * l.stride + x % l.stride) % l.stride = x % l.stride := by
        rw [Nat.mul_comm, mul_add_mod, mod_eq_of_lt hs]
      rw [hdiv, hcol, Nat.mul_comm _ l.inner, ← hmod, div_add_mod, Nat.mul_comm,
        div_add_mod]

/-- The loops of a sweep, as one loop over the packed array. -/
theorem sweep_eq (data : Nat → V) (body : (Nat → V) → Nat → Nat → Nat → Nat → V) :
    sweep (l.parameters data) l.total l.inner body =
      for_range (l.rows * l.stride) (fun weights_arr k =>
        body weights_arr (k / l.stride / l.outer * (l.total * l.stride)) (k / l.stride % l.outer)
          (k % l.stride)) data := by
  have hflat := sweep_eq_for_range (l.parameters data) l.total_pos rfl l.inner body
  rw [total_div_inner] at hflat
  exact hflat

end Layout

end VW.MultiModel
