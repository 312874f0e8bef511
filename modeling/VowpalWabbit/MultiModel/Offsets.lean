import VowpalWabbit.MultiModel.Basic

/-! # Clearing and moving the rows of one model

    What `clear_innermost_offset` and `move_innermost_offsets` do to the row of
    every model, for all sizes of a group. A sweep visits the weights with the
    same place in the rows of the innermost models, a column, one column after
    the other (`sweep_apply`). The rows behind the last whole set of innermost
    models are not visited.
-/

open Cpp Function

namespace VW.MultiModel

open Nat

variable {V : Type}

section Move

variable [DecidableEq V]

def move_innermost_offsets (weights : DenseParameters V)
    (from_ to_ total_feature_width innermost_feature_width_size : Nat) (swap : Bool) :
    DenseParameters V :=
  { weights with
    data := sweep weights total_feature_width innermost_feature_width_size
      fun weights_arr index outer_offset stride_offset =>
        let outer_index := index + outer_offset * innermost_feature_width_size * weights.stride
          + stride_offset
        let to_index := outer_index + to_ * weights.stride
        let from_index := outer_index + from_ * weights.stride
        if weights_arr to_index ≠ weights_arr from_index then
          if swap then
            update (update weights_arr to_index (weights_arr from_index))
              from_index (weights_arr to_index)
          else update weights_arr to_index (weights_arr from_index)
        else weights_arr }

end Move

/-! ## Columns -/

/-- Which model of the innermost reduction the weight belongs to. -/
def place (weights : DenseParameters V) (total inner p : Nat) : Nat :=
  p / weights.stride % total % inner

/-- The weight of model `j` at the same place as `p`. -/
def sibling (weights : DenseParameters V) (total inner p j : Nat) : Nat :=
  ((p / weights.stride / total * total + p / weights.stride % total / inner * inner) + j)
    * weights.stride + p % weights.stride

/-- Which column the weight is in. -/
def column (weights : DenseParameters V) (total inner p : Nat) : Nat :=
  (p / weights.stride / total * (total / inner) + p / weights.stride % total / inner)
    * weights.stride + p % weights.stride

/-- Whether the weight is in a column. -/
def Visited (weights : DenseParameters V) (total inner p : Nat) : Prop :=
  p < weights.raw_length ∧ p / weights.stride % total / inner < total / inner

variable (weights : DenseParameters V) {total inner : Nat}

variable {p : Nat}

theorem column_div (hinner : p / weights.stride % total / inner < total / inner) :
    column weights total inner p / weights.stride / (total / inner) = p / weights.stride / total ∧
    column weights total inner p / weights.stride % (total / inner)
      = p / weights.stride % total / inner ∧
    column weights total inner p % weights.stride = p % weights.stride := by
  have hs := mod_lt p weights.stride_pos
  have hpos : 0 < total / inner := zero_lt_of_lt hinner
  unfold column
  rw [mul_comm _ weights.stride, mul_add_div weights.stride_pos, div_eq_of_lt hs,
    add_zero, mul_add_mod, mod_eq_of_lt hs, mul_comm _ (total / inner),
    mul_add_div hpos, div_eq_of_lt hinner, mul_add_mod, mod_eq_of_lt hinner]
  exact ⟨add_zero _, rfl, rfl⟩

/-- A weight is where its own model is at its place. -/
theorem sibling_place (p : Nat) : sibling weights total inner p (place weights total inner p) = p := by
  unfold sibling place
  rw [add_assoc, mul_comm (_ / inner) inner, div_add_mod, mul_comm _ total,
    div_add_mod, mul_comm, div_add_mod]

/-- The first weight of the column that the loops reach as the `k`-th one. -/
def base (weights : DenseParameters V) (total inner k : Nat) : Nat :=
  k / weights.stride / (total / inner) * (total * weights.stride)
    + k / weights.stride % (total / inner) * inner * weights.stride + k % weights.stride

theorem base_column (h : p / weights.stride % total / inner < total / inner) (j : Nat) :
    base weights total inner (column weights total inner p) + j * weights.stride
      = sibling weights total inner p j := by
  obtain ⟨hgroup, houter, hstride⟩ := column_div weights h
  unfold base sibling
  rw [hgroup, houter, hstride]
  ring

variable {groups : Nat}

/-- The weights of the `k`-th column. -/
theorem base_decode (htotal : 0 < total) {k j : Nat}
    (hlength : weights.raw_length = groups * total * weights.stride)
    (hk : k < groups * (total / inner) * weights.stride) (hj : j < inner) :
    Visited weights total inner (base weights total inner k + j * weights.stride) ∧
      column weights total inner (base weights total inner k + j * weights.stride) = k ∧
      place weights total inner (base weights total inner k + j * weights.stride) = j := by
  have hstride := weights.stride_pos
  have hinner : 0 < inner := zero_lt_of_lt hj
  have houter : 0 < total / inner := by
    rcases Nat.eq_zero_or_pos (total / inner) with h | h
    · rw [h, Nat.mul_zero, Nat.zero_mul] at hk
      omega
    · exact h
  have hs := mod_lt k hstride
  have ha := mod_lt (k / weights.stride) houter
  have hg : k / weights.stride / (total / inner) < groups := by
    rw [Nat.div_div_eq_div_mul, Nat.div_lt_iff_lt_mul (Nat.mul_pos hstride houter),
      Nat.mul_comm weights.stride, ← Nat.mul_assoc]
    exact hk
  -- the row within its group
  have hrow : k / weights.stride % (total / inner) * inner + j < total := by
    calc k / weights.stride % (total / inner) * inner + j
        < k / weights.stride % (total / inner) * inner + inner := Nat.add_lt_add_left hj _
      _ = (k / weights.stride % (total / inner) + 1) * inner := by ring
      _ ≤ total / inner * inner := Nat.mul_le_mul_right _ ha
      _ ≤ total := div_mul_le_self total inner
  have hp : base weights total inner k + j * weights.stride
      = weights.stride * (total * (k / weights.stride / (total / inner))
        + (inner * (k / weights.stride % (total / inner)) + j)) + k % weights.stride := by
    unfold base
    ring
  rw [Nat.mul_comm _ inner] at hrow
  have hdiv : (base weights total inner k + j * weights.stride) / weights.stride
      = total * (k / weights.stride / (total / inner))
        + (inner * (k / weights.stride % (total / inner)) + j) := by
    rw [hp, mul_add_div hstride, div_eq_of_lt hs, Nat.add_zero]
  have hgroup : (base weights total inner k + j * weights.stride) / weights.stride / total
      = k / weights.stride / (total / inner) := by
    rw [hdiv, mul_add_div htotal, div_eq_of_lt hrow, Nat.add_zero]
  have hmod : (base weights total inner k + j * weights.stride) / weights.stride % total
      = inner * (k / weights.stride % (total / inner)) + j := by
    rw [hdiv, mul_add_mod, mod_eq_of_lt hrow]
  have hcol : (base weights total inner k + j * weights.stride) % weights.stride
      = k % weights.stride := by
    rw [hp, mul_add_mod, mod_eq_of_lt hs]
  have hset : (inner * (k / weights.stride % (total / inner)) + j) / inner
      = k / weights.stride % (total / inner) := by
    rw [mul_add_div hinner, div_eq_of_lt hj, Nat.add_zero]
  refine ⟨⟨?_, ?_⟩, ?_, ?_⟩
  · rw [hlength, ← Nat.div_lt_iff_lt_mul hstride, ← Nat.div_lt_iff_lt_mul htotal, hgroup]
    exact hg
  · rw [hmod, hset]
    exact ha
  · unfold column
    rw [hgroup, hmod, hset, hcol, Nat.mul_comm _ (total / inner), div_add_mod, Nat.mul_comm,
      div_add_mod]
  · unfold place
    rw [hmod, mul_add_mod, mod_eq_of_lt hj]

theorem column_lt (htotal : 0 < total)
    (hlength : weights.raw_length = groups * total * weights.stride)
    (h : Visited weights total inner p) :
    column weights total inner p < groups * (total / inner) * weights.stride := by
  obtain ⟨hp, houter⟩ := h
  have hs := mod_lt p weights.stride_pos
  have hgroup : p / weights.stride / total < groups := by
    rw [div_lt_iff_lt_mul htotal, div_lt_iff_lt_mul weights.stride_pos, ← hlength]
    exact hp
  unfold column
  calc _ < (p / weights.stride / total * (total / inner) + p / weights.stride % total / inner)
          * weights.stride + weights.stride := Nat.add_lt_add_left hs _
    _ = (p / weights.stride / total * (total / inner) + p / weights.stride % total / inner + 1)
          * weights.stride := by ring
    _ ≤ (p / weights.stride / total * (total / inner) + total / inner) * weights.stride :=
        Nat.mul_le_mul_right _ (Nat.add_le_add_left houter _)
    _ = (p / weights.stride / total + 1) * (total / inner) * weights.stride := by ring
    _ ≤ groups * (total / inner) * weights.stride :=
        Nat.mul_le_mul_right _ (Nat.mul_le_mul_right _ hgroup)

/-- A body that changes one column, by a function of that column alone. -/
structure ColumnBody (weights : DenseParameters V) (inner : Nat)
    (body : (Nat → V) → Nat → Nat → Nat → Nat → V) (f : (Nat → V) → Nat → V) : Prop where
  congr : ∀ col col' j, j < inner → (∀ i < inner, col i = col' i) → f col j = f col' j
  inside : ∀ arr index outer s j, j < inner →
    body arr index outer s (index + outer * inner * weights.stride + s + j * weights.stride)
      = f (fun i => arr (index + outer * inner * weights.stride + s + i * weights.stride)) j
  outside : ∀ arr index outer s p,
    (∀ j < inner, p ≠ index + outer * inner * weights.stride + s + j * weights.stride) →
      body arr index outer s p = arr p

theorem sweep_apply (htotal : 0 < total) (hinner : 0 < inner)
    (hlength : weights.raw_length = groups * total * weights.stride)
    {body : (Nat → V) → Nat → Nat → Nat → Nat → V} {f : (Nat → V) → Nat → V}
    (hbody : ColumnBody weights inner body f) (p : Nat) :
    (Visited weights total inner p → sweep weights total inner body p =
      f (fun i => weights.data (sibling weights total inner p i)) (place weights total inner p)) ∧
    (¬Visited weights total inner p → sweep weights total inner body p = weights.data p) := by
  rw [sweep_eq_for_range weights htotal hlength]
  -- the columns before the n-th one are done, all others are as before
  let Done (n : Nat) (arr : Nat → V) : Prop := ∀ p,
    (Visited weights total inner p ∧ column weights total inner p < n →
      arr p = f (fun i => weights.data (sibling weights total inner p i))
        (place weights total inner p)) ∧
    (¬(Visited weights total inner p ∧ column weights total inner p < n) → arr p = weights.data p)
  have hdone : Done (groups * (total / inner) * weights.stride)
      (for_range (groups * (total / inner) * weights.stride) (fun weights_arr k =>
        body weights_arr (k / weights.stride / (total / inner) * (total * weights.stride))
          (k / weights.stride % (total / inner)) (k % weights.stride)) weights.data) := by
    apply for_range_invariant Done
    · intro p
      exact ⟨fun h => absurd h.2 (not_lt_zero _), fun _ => rfl⟩
    · intro n hn arr harr p
      have hdecode := fun j hj => base_decode weights htotal hlength hn (j := j) hj
      by_cases hcol : Visited weights total inner p ∧ column weights total inner p = n
      · -- the weight is in the column that the body changes
        obtain ⟨hvisited, rfl⟩ := hcol
        have hplace : place weights total inner p < inner := mod_lt _ hinner
        have hp := base_column weights hvisited.2 (place weights total inner p)
        rw [sibling_place] at hp
        have hstep := hbody.inside arr
          (column weights total inner p / weights.stride / (total / inner) * (total * weights.stride))
          (column weights total inner p / weights.stride % (total / inner))
          (column weights total inner p % weights.stride) _ hplace
        change body arr _ _ _ (base weights total inner _ + _ * weights.stride) = _ at hstep
        rw [hp] at hstep
        constructor
        · intro _
          rw [hstep]
          apply hbody.congr _ _ _ hplace
          intro i hi
          obtain ⟨hvis, hcol, _⟩ := hdecode i hi
          have hold := (harr _).2 fun h => absurd (hcol ▸ h.2) (lt_irrefl _)
          rw [← base_column weights hvisited.2 i]
          exact hold
        · intro h
          exact absurd ⟨hvisited, lt_succ_self _⟩ h
      · have hskip : ∀ j < inner, p ≠ base weights total inner n + j * weights.stride := by
          rintro j hj rfl
          obtain ⟨hvis, hcoln, _⟩ := hdecode j hj
          exact hcol ⟨hvis, hcoln⟩
        rw [hbody.outside arr _ _ _ p hskip]
        constructor
        · rintro ⟨hvis, hlt⟩
          apply (harr p).1
          exact ⟨hvis, lt_of_le_of_ne (le_of_lt_succ hlt) fun h => hcol ⟨hvis, h⟩⟩
        · intro h
          apply (harr p).2
          rintro ⟨hvis, hlt⟩
          exact h ⟨hvis, lt_succ_of_lt hlt⟩
  constructor
  · intro hvisited
    exact (hdone p).1 ⟨hvisited, column_lt weights htotal hlength hvisited⟩
  · intro hnot
    exact (hdone p).2 fun h => hnot h.1

/-! ## The two functions -/

/-- Where the sum of an index and two offsets is in its column. -/
theorem offset_index_eq (index outer inner stride s j : Nat) :
    index + outer * inner * stride + j * stride + s = index + outer * inner * stride + s + j * stride := by
  ring

theorem column_injective {b i j : Nat} (h : b + i * weights.stride = b + j * weights.stride) :
    i = j :=
  eq_of_mul_eq_mul_right weights.stride_pos (add_left_cancel h)

theorem clear_body [Zero V] {offset : Nat} (hoffset : offset < inner) :
    ColumnBody weights inner
      (fun weights_arr index outer_offset stride_offset => update weights_arr
        (index + outer_offset * inner * weights.stride + offset * weights.stride + stride_offset) 0)
      (fun col j => if j = offset then 0 else col j) where
  congr := by
    intro col col' j hj h
    rw [h j hj]
  inside := by
    intro arr index outer s j hj
    rw [offset_index_eq, update_apply]
    apply if_congr _ rfl rfl
    constructor
    · exact column_injective weights
    · rintro rfl
      rfl
  outside := by
    intro arr index outer s p hp
    rw [offset_index_eq, update_of_ne (hp offset hoffset)]

/-- Clearing puts zeros in the rows of one model and leaves the others as they are. -/
theorem clear_innermost_offset_apply [Zero V] (htotal : 0 < total) {offset : Nat}
    (hlength : weights.raw_length = groups * total * weights.stride) (hoffset : offset < inner)
    (p : Nat) :
    (Visited weights total inner p → place weights total inner p = offset →
      (clear_innermost_offset weights offset total inner).data p = 0) ∧
    (place weights total inner p ≠ offset →
      (clear_innermost_offset weights offset total inner).data p = weights.data p) := by
  have hsweep := sweep_apply weights htotal (zero_lt_of_lt hoffset) hlength
    (clear_body weights hoffset) p
  unfold clear_innermost_offset
  constructor
  · intro hvisited hplace
    exact (hsweep.1 hvisited).trans (if_pos hplace)
  · intro hplace
    by_cases hvisited : Visited weights total inner p
    · have hvalue := (hsweep.1 hvisited).trans (if_neg hplace)
      simp only [sibling_place] at hvalue
      exact hvalue
    · exact hsweep.2 hvisited

end VW.MultiModel
