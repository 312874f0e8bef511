import VowpalWabbit.MultiModel.Basic

/-! # The reduction to one model

    The packing goes row by row in ascending order. A row is read behind the
    place where it is written, so no row is lost on the way
    (`packed_of_target`). What can go wrong is stated as `Reducible`: the first
    row is not erased at its old place, a row that is in place already is
    erased, and the place of a group is computed in 32 bits.
-/

open Cpp

namespace VW.MultiModel

open Function Nat Layout

variable {V : Type}

/-! ## The result of the loops -/

section Sweep

variable [Zero V] (l : Layout)

/-- A loop that writes zeros. -/
theorem for_range_zeros (n : Nat) (place : Nat → Nat) (weights_arr : Nat → V) (x : Nat) :
    for_range n (fun weights_arr k => Function.update weights_arr (place k) 0) weights_arr x =
      if ∃ k < n, place k = x then 0 else weights_arr x := by
  induction n with
  | zero => simp
  | succ n ih =>
    rw [for_range_succ]
    by_cases hx : x = place n
    · rw [hx, update_self, if_pos ⟨n, lt_succ_self n, rfl⟩]
    · rw [update_of_ne hx, ih]
      apply if_congr _ rfl rfl
      constructor
      · rintro ⟨k, hk, rfl⟩
        exact ⟨k, lt_succ_of_lt hk, rfl⟩
      · rintro ⟨k, hk, rfl⟩
        rcases Nat.lt_succ_iff_lt_or_eq.mp hk with hk | rfl
        · exact ⟨k, hk, rfl⟩
        · exact absurd rfl hx

theorem clear_innermost_offset_eq {offset : Nat} (hoff : offset < l.inner) (data : Nat → V) :
    clear_innermost_offset (l.parameters data) offset l.total l.inner =
      l.parameters fun x =>
        if x < l.groups * l.total * l.stride ∧ x / l.stride % l.inner = offset then 0 else data x := by
  unfold clear_innermost_offset
  rw [l.sweep_eq]
  have hbody : ∀ k, k / l.stride / l.outer * (l.total * l.stride)
      + k / l.stride % l.outer * l.inner * (l.parameters data).stride
      + offset * (l.parameters data).stride + k % l.stride = l.source offset k :=
    l.old_index_eq offset
  simp only [hbody]
  congr 1
  funext x
  rw [for_range_zeros]
  exact if_congr (l.exists_source_iff hoff x) rfl rfl

/-- The weights that are left when all other models are cleared. -/
def cleared (offset : Nat) (data : Nat → V) (x : Nat) : V :=
  if x < l.groups * l.total * l.stride ∧ x / l.stride % l.inner ≠ offset then 0 else data x

theorem clear_others_eq (offset : Nat) (data : Nat → V) :
    for_range l.inner (fun weights inner_feature_widths =>
      if inner_feature_widths ≠ offset then
        clear_innermost_offset weights inner_feature_widths l.total l.inner
      else weights) (l.parameters data) = l.parameters (cleared l offset data) := by
  have hinv := @for_range_invariant _ (fun weights inner_feature_widths =>
      if inner_feature_widths ≠ offset then
        clear_innermost_offset weights inner_feature_widths l.total l.inner
      else weights) (l.parameters data)
    (fun n weights => weights = l.parameters fun x =>
      if x < l.groups * l.total * l.stride ∧ x / l.stride % l.inner < n ∧
        x / l.stride % l.inner ≠ offset then 0 else data x)
    (by simp) l.inner ?step
  case step =>
    rintro i hi _ rfl
    by_cases hne : i = offset
    · -- The selected model is passed over.
      rw [if_neg (by simpa using hne)]
      congr 1
      funext x
      apply if_congr _ rfl rfl
      constructor
      · rintro ⟨hx, hlt, hother⟩
        exact ⟨hx, lt_succ_of_lt hlt, hother⟩
      · rintro ⟨hx, hlt, hother⟩
        refine ⟨hx, ?_, hother⟩
        omega
    · rw [if_pos hne, clear_innermost_offset_eq l hi]
      congr 1
      funext x
      by_cases hx : x < l.groups * l.total * l.stride
      · by_cases hi' : x / l.stride % l.inner = i
        · rw [if_pos ⟨hx, hi'⟩, if_pos ⟨hx, by omega, by omega⟩]
        · rw [if_neg fun h => hi' h.2]
          apply if_congr _ rfl rfl
          constructor
          · rintro ⟨_, hlt, hother⟩
            exact ⟨hx, lt_succ_of_lt hlt, hother⟩
          · rintro ⟨_, hlt, hother⟩
            exact ⟨hx, by omega, hother⟩
      · rw [if_neg fun h => hx h.1, if_neg fun h => hx h.1, if_neg fun h => hx h.1]
  rw [hinv]
  congr 1
  funext x
  apply if_congr _ rfl rfl
  have hlt := mod_lt (x / l.stride) l.inner_pos
  constructor
  · rintro ⟨hx, -, hother⟩
    exact ⟨hx, hother⟩
  · rintro ⟨hx, hother⟩
    exact ⟨hx, hlt, hother⟩

variable [DecidableEq V]

/-- The step of the packing, for one position of the packed array. -/
def pack (offset : Nat) (weights_arr : Nat → V) (k : Nat) : Nat → V :=
  if weights_arr (l.source offset k) ≠ 0 then
    let weights_arr' := update weights_arr (l.target k) (weights_arr (l.source offset k))
    if l.stride ≤ k then update weights_arr' (l.source offset k) 0 else weights_arr'
  else weights_arr

theorem reduce_eq (offset : Nat) (data : Nat → V) :
    reduce_innermost_model_weights (l.parameters data) offset l.total l.inner =
      l.parameters (for_range (l.rows * l.stride) (pack l offset) (cleared l offset data)) := by
  unfold reduce_innermost_model_weights
  rw [clear_others_eq]
  simp only
  rw [l.sweep_eq]
  show l.parameters _ = _
  congr 1
  apply for_range_congr
  intro k _ weights_arr
  show move_weight l.stride offset l.inner weights_arr _ _ _ = _
  unfold move_weight pack
  have hnew : k / l.stride / l.outer * (l.total * l.stride) / l.inner
      = k / l.stride / l.outer * (l.outer * l.stride) := by
    unfold total
    rw [show k / l.stride / l.outer * (l.outer * l.inner * l.stride)
      = k / l.stride / l.outer * (l.outer * l.stride) * l.inner by ring]
    exact Nat.mul_div_cancel _ l.inner_pos
  -- Only the row of position zero is at the first place of the first group.
  have hfirst : (k / l.stride / l.outer * (l.total * l.stride) ≠ 0 ∨ k / l.stride % l.outer ≠ 0) ↔
      l.stride ≤ k := by
    have hrow := l.row_eq k
    have hpos : 0 < l.total * l.stride := Nat.mul_pos l.total_pos l.stride_pos
    constructor
    · intro h
      by_contra hlt
      have hzero : k / l.stride = 0 := div_eq_of_lt (Nat.lt_of_not_le hlt)
      simp [hzero] at h
    · intro hle
      by_contra h
      push Not at h
      obtain ⟨hgroup, houter⟩ := h
      have hg : k / l.stride / l.outer = 0 := by
        rcases Nat.mul_eq_zero.mp hgroup with h | h
        · exact h
        · omega
      rw [hg, houter] at hrow
      have := Nat.div_pos hle l.stride_pos
      omega
  simp only [l.old_index_eq, hnew]
  by_cases hzero : weights_arr (l.source offset k) ≠ 0
  · rw [if_pos hzero, if_pos hzero]
    exact if_congr hfirst rfl rfl
  · rw [if_neg hzero, if_neg hzero]

/-! ## Where the weights go -/

/-- The rows before position `n` of the packed array have left place `x`; those
    of the first row are not erased. -/
def Moved (offset n x : Nat) : Prop := ∃ k, l.stride ≤ k ∧ k < n ∧ l.source offset k = x

variable {l} {offset : Nat} {data : Nat → V}

omit [DecidableEq V] in
theorem cleared_source (hoff : offset < l.inner) (k : Nat) :
    cleared l offset data (l.source offset k) = data (l.source offset k) := by
  unfold cleared
  rw [if_neg]
  rintro ⟨-, h⟩
  exact h (l.source_div offset k hoff).2.1

theorem le_source (k : Nat) : k ≤ l.source offset k := by
  unfold source
  calc k = k / l.stride * l.stride + k % l.stride := by
        rw [mul_comm]
        exact (div_add_mod k l.stride).symm
    _ ≤ (k / l.stride * l.inner + offset) * l.stride + k % l.stride := by
        apply Nat.add_le_add_right
        apply Nat.mul_le_mul_right
        calc k / l.stride ≤ k / l.stride * l.inner := Nat.le_mul_of_pos_right _ l.inner_pos
          _ ≤ k / l.stride * l.inner + offset := le_add_right _ _

/-- Behind the first row, only a single model has its rows in place already. -/
theorem lt_source (hinner : l.inner ≠ 1) {k : Nat} (hk : l.stride ≤ k) : k < l.source offset k := by
  have hrow : 0 < k / l.stride := Nat.div_pos hk l.stride_pos
  have h2 : 2 ≤ l.inner := by
    have := l.inner_pos
    omega
  unfold source
  calc k = k / l.stride * l.stride + k % l.stride := by
        rw [Nat.mul_comm]
        exact (div_add_mod k l.stride).symm
    _ < (k / l.stride + 1) * l.stride + k % l.stride := by
        apply Nat.add_lt_add_right
        exact Nat.mul_lt_mul_of_pos_right (lt_succ_self _) l.stride_pos
    _ ≤ (k / l.stride * l.inner + offset) * l.stride + k % l.stride := by
        apply Nat.add_le_add_right
        apply Nat.mul_le_mul_right
        calc k / l.stride + 1 ≤ k / l.stride * 2 := by omega
          _ ≤ k / l.stride * l.inner := Nat.mul_le_mul_left _ h2
          _ ≤ k / l.stride * l.inner + offset := Nat.le_add_right _ _

/-- A position by its group, its row in the group and its place in the row. -/
theorem position_eq (k : Nat) :
    k / l.stride / l.outer * (l.outer * l.stride) + k / l.stride % l.outer * l.stride + k % l.stride
      = k := by
  calc _ = (k / l.stride / l.outer * l.outer + k / l.stride % l.outer) * l.stride + k % l.stride := by
        ring
    _ = k / l.stride * l.stride + k % l.stride := by rw [← l.row_eq k]
    _ = k := by rw [mul_comm, div_add_mod]

theorem target_le (k : Nat) : l.target k ≤ k := by
  conv_rhs => rw [← position_eq (l := l) k]
  unfold target
  apply Nat.add_le_add_right
  apply Nat.add_le_add_right
  exact mod_le _ _

theorem target_eq {k : Nat} (h : k / l.stride / l.outer * (l.outer * l.stride) < 2 ^ 32) :
    l.target k = k := by
  conv_rhs => rw [← position_eq (l := l) k]
  unfold target
  rw [mod_eq_of_lt h]

theorem not_moved_source (hoff : offset < l.inner) (k : Nat) :
    ¬ Moved l offset k (l.source offset k) := by
  rintro ⟨j, -, hj, h⟩
  have := l.source_injective hoff h
  omega

/-- The state of the array after `n` positions of the packed one. -/
def packed (l : Layout) (offset : Nat) (data : Nat → V) (n : Nat) : Nat → V :=
  for_range n (pack l offset) (cleared l offset data)

theorem packed_succ (n : Nat) :
    packed l offset data (n + 1) = pack l offset (packed l offset data n) n := for_range_succ _ _ _

open Classical in
/-- A place to which nothing is moved keeps its weight until that is moved. -/
theorem packed_of_not_target (hoff : offset < l.inner) (n : Nat) {x : Nat}
    (h : ∀ k < n, l.target k = x → data (l.source offset k) = 0) :
    packed l offset data n x = if Moved l offset n x then 0 else cleared l offset data x := by
  induction n generalizing x with
  | zero =>
    rw [if_neg]
    · rfl
    · rintro ⟨k, -, hk, -⟩
      exact absurd hk (Nat.not_lt_zero k)
  | succ n ih =>
    -- The weight that is moved next has not been touched: all targets lie before it.
    have hnext : packed l offset data n (l.source offset n) = data (l.source offset n) := by
      rw [ih, if_neg (not_moved_source hoff n), cleared_source hoff]
      intro k hk heq
      have h1 := target_le (l := l) k
      have h2 := @le_source l offset n
      omega
    have hprev := ih fun k hk => h k (lt_succ_of_lt hk)
    have hmoved : Moved l offset (n + 1) x ↔
        Moved l offset n x ∨ (l.stride ≤ n ∧ l.source offset n = x) := by
      constructor
      · rintro ⟨k, hk, hlt, heq⟩
        rcases Nat.lt_succ_iff_lt_or_eq.mp hlt with hlt | rfl
        · exact Or.inl ⟨k, hk, hlt, heq⟩
        · exact Or.inr ⟨hk, heq⟩
      · rintro (⟨k, hk, hlt, heq⟩ | ⟨hk, heq⟩)
        · exact ⟨k, hk, lt_succ_of_lt hlt, heq⟩
        · exact ⟨n, hk, lt_succ_self n, heq⟩
    rw [packed_succ]
    unfold pack
    rw [hnext]
    by_cases hzero : data (l.source offset n) = 0
    · rw [if_neg (not_not.mpr hzero), hprev]
      by_cases hx : l.source offset n = x
      · -- Whether or not it counts as moved, the weight is zero.
        subst hx
        rw [cleared_source hoff, hzero]
        simp
      · apply if_congr _ rfl rfl
        rw [hmoved]
        constructor
        · exact Or.inl
        · rintro (h | ⟨-, h⟩)
          · exact h
          · exact absurd h hx
    · have hne : x ≠ l.target n := by
        rintro rfl
        exact hzero (h n (lt_succ_self n) rfl)
      rw [if_pos hzero]
      by_cases hfirst : l.stride ≤ n
      · rw [if_pos hfirst]
        by_cases hx : x = l.source offset n
        · rw [hx, update_self, if_pos ⟨n, hfirst, lt_succ_self n, rfl⟩]
        · rw [update_of_ne hx, update_of_ne hne, hprev]
          apply if_congr _ rfl rfl
          rw [hmoved]
          constructor
          · exact Or.inl
          · rintro (h | ⟨-, h⟩)
            · exact h
            · exact absurd h.symm hx
      · rw [if_neg hfirst, update_of_ne hne, hprev]
        apply if_congr _ rfl rfl
        rw [hmoved]
        constructor
        · exact Or.inl
        · rintro (h | ⟨h, -⟩)
          · exact h
          · exact absurd h hfirst

/-- What a step reads. -/
theorem packed_source (hoff : offset < l.inner) (n : Nat) :
    packed l offset data n (l.source offset n) = data (l.source offset n) := by
  rw [packed_of_not_target hoff, if_neg (not_moved_source hoff n), cleared_source hoff]
  intro k hk heq
  have h1 := target_le (l := l) k
  have h2 := @le_source l offset n
  omega

/-- A weight that is moved stays where it was moved to, unless another one is
    moved there. -/
theorem packed_of_target (hoff : offset < l.inner) (hinner : l.inner ≠ 1) {k n : Nat} (hk : k < n)
    (hne : data (l.source offset k) ≠ 0)
    (hlast : ∀ j, k < j → j < n → l.target j = l.target k → data (l.source offset j) = 0) :
    packed l offset data n (l.target k) = data (l.source offset k) := by
  induction n with
  | zero => exact absurd hk (Nat.not_lt_zero k)
  | succ n ih =>
    rw [packed_succ]
    unfold pack
    rw [packed_source hoff n]
    rcases Nat.lt_succ_iff_lt_or_eq.mp hk with hlt | rfl
    · have hprev := ih hlt fun j h1 h2 => hlast j h1 (lt_succ_of_lt h2)
      by_cases hzero : data (l.source offset n) = 0
      · rw [if_neg (not_not.mpr hzero)]
        exact hprev
      · have htarget : l.target k ≠ l.target n := fun h =>
          hzero (hlast n hlt (lt_succ_self n) h.symm)
        have hsource : l.target k ≠ l.source offset n := by
          have h1 := target_le (l := l) k
          have h2 := @le_source l offset n
          omega
        rw [if_pos hzero]
        split
        · rw [update_of_ne hsource, update_of_ne htarget, hprev]
        · rw [update_of_ne htarget, hprev]
    · rw [if_pos hne]
      split
      · rename_i hfirst
        have hsource : l.target k ≠ l.source offset k := by
          have h1 := target_le (l := l) k
          have h2 := @lt_source l offset hinner _ hfirst
          omega
        rw [update_of_ne hsource, update_self]
      · rw [update_self]

/-! ## When the reduction keeps the selected model -/

/-- The rows of the selected model, packed, and nothing else. -/
def KeepsChampion (l : Layout) (offset : Nat) (data reduced : Nat → V) : Prop :=
  (∀ group < l.groups, ∀ slot < l.outer, ∀ i < l.stride,
    reduced ((group * l.outer + slot) * l.stride + i)
      = data (((group * l.outer + slot) * l.inner + offset) * l.stride + i)) ∧
  ∀ x, l.rows * l.stride ≤ x → x < l.groups * l.total * l.stride → reduced x = 0

/-- What the packing relies on. -/
structure Reducible (l : Layout) (offset : Nat) (data : Nat → V) : Prop where
  /-- The rows of a single model are in place, and erased as if they were not. -/
  single : l.inner = 1 → ∀ k, l.stride ≤ k → k < l.rows * l.stride → data k = 0
  /-- The first row is not erased at its old place; another one must be moved there. -/
  first_row : offset ≠ 0 → ∀ i < l.stride, offset * l.stride + i < l.groups * l.total * l.stride →
    data (offset * l.stride + i) = 0 ∨
      offset < l.rows ∧ data ((offset * l.inner + offset) * l.stride + i) ≠ 0
  /-- The place of a group is a 32-bit number. -/
  narrow : ∀ group < l.groups, ∀ slot < l.outer, ∀ i < l.stride,
    2 ^ 32 ≤ group * (l.outer * l.stride) →
      data (((group * l.outer + slot) * l.inner + offset) * l.stride + i) = 0

/-- A statement about all rows, as one about the positions of the packed array. -/
theorem forall_position_iff {P : Nat → Nat → Nat → Prop} :
    (∀ group < l.groups, ∀ slot < l.outer, ∀ i < l.stride,
      P group ((group * l.outer + slot) * l.stride + i)
        (((group * l.outer + slot) * l.inner + offset) * l.stride + i)) ↔
    ∀ k < l.rows * l.stride, P (k / l.stride / l.outer) k (l.source offset k) := by
  constructor
  · intro h k hk
    have hrow : k / l.stride / l.outer < l.groups := by
      rw [Nat.div_div_eq_div_mul, Nat.div_lt_iff_lt_mul (Nat.mul_pos l.stride_pos l.outer_pos),
        mul_comm l.stride, ← mul_assoc]
      exact hk
    have := h _ hrow _ (mod_lt (k / l.stride) l.outer_pos) _ (mod_lt k l.stride_pos)
    rw [← l.row_eq k, mul_comm (k / l.stride) l.stride, div_add_mod] at this
    exact this
  · intro h group hgroup slot hslot i hi
    have hdiv : ((group * l.outer + slot) * l.stride + i) / l.stride = group * l.outer + slot := by
      rw [mul_comm, mul_add_div l.stride_pos, div_eq_of_lt hi, add_zero]
    have hmod : ((group * l.outer + slot) * l.stride + i) % l.stride = i := by
      rw [mul_comm, mul_add_mod, mod_eq_of_lt hi]
    have hgroup' : (group * l.outer + slot) / l.outer = group := by
      rw [mul_comm, mul_add_div l.outer_pos, div_eq_of_lt hslot, add_zero]
    have hlt : (group * l.outer + slot) * l.stride + i < l.rows * l.stride := by
      calc (group * l.outer + slot) * l.stride + i
          < (group * l.outer + slot) * l.stride + l.stride := Nat.add_lt_add_left hi _
        _ = (group * l.outer + slot + 1) * l.stride := by ring
        _ ≤ (group * l.outer + l.outer) * l.stride :=
            Nat.mul_le_mul_right _ (Nat.add_le_add_left hslot _)
        _ = (group + 1) * l.outer * l.stride := by ring
        _ ≤ l.rows * l.stride :=
            Nat.mul_le_mul_right _ (Nat.mul_le_mul_right _ hgroup)
    have := h _ hlt
    unfold source at this
    rw [hdiv, hmod, hgroup'] at this
    exact this

omit [Zero V] [DecidableEq V] in
theorem keepsChampion_iff [Zero V] {reduced : Nat → V} :
    KeepsChampion l offset data reduced ↔
      (∀ k < l.rows * l.stride, reduced k = data (l.source offset k)) ∧
      ∀ x, l.rows * l.stride ≤ x → x < l.groups * l.total * l.stride → reduced x = 0 :=
  and_congr_left' (forall_position_iff (P := fun _ k x => reduced k = data x))

/-- The champion's weights behind position `2 ^ 32` are zero. -/
def Narrow (l : Layout) (offset : Nat) (data : Nat → V) : Prop :=
  ∀ k < l.rows * l.stride, 2 ^ 32 ≤ k / l.stride / l.outer * (l.outer * l.stride) →
    data (l.source offset k) = 0

variable {i : Nat}

theorem source_of_lt_stride (hi : i < l.stride) : l.source offset i = offset * l.stride + i := by
  unfold source
  rw [div_eq_of_lt hi, mod_eq_of_lt hi, Nat.zero_mul, zero_add]

open Classical in
/-- The packed array, when every weight goes to its own place. -/
theorem packed_eq (hoff : offset < l.inner) (hinner : l.inner ≠ 1) (hnarrow : Narrow l offset data)
    (x : Nat) :
    packed l offset data (l.rows * l.stride) x =
      if x < l.rows * l.stride ∧ data (l.source offset x) ≠ 0 then data (l.source offset x)
      else if Moved l offset (l.rows * l.stride) x then 0 else cleared l offset data x := by
  have htarget : ∀ k < l.rows * l.stride, data (l.source offset k) ≠ 0 → l.target k = k := by
    intro k hk hne
    apply target_eq
    by_contra hge
    exact hne (hnarrow k hk (Nat.le_of_not_lt hge))
  by_cases hx : x < l.rows * l.stride ∧ data (l.source offset x) ≠ 0
  · rw [if_pos hx]
    have hown := htarget x hx.1 hx.2
    conv_lhs => rw [← hown]
    apply packed_of_target hoff hinner hx.1 hx.2
    intro j hj hlt heq
    by_contra hne
    rw [hown, htarget j hlt hne] at heq
    omega
  · rw [if_neg hx]
    apply packed_of_not_target hoff
    intro k hk heq
    by_contra hne
    rw [htarget k hk hne] at heq
    exact hx ⟨heq ▸ hk, heq ▸ hne⟩

omit [DecidableEq V] in
/-- What is left behind in a place where nothing is moved to: the weight of the
    first row. -/
theorem left_behind (hoff : offset < l.inner) {x : Nat} (hx : x < l.groups * l.total * l.stride)
    (hmoved : ¬ Moved l offset (l.rows * l.stride) x) (hne : cleared l offset data x ≠ 0) :
    ∃ i < l.stride, x = offset * l.stride + i ∧ data x ≠ 0 := by
  unfold cleared at hne
  split at hne
  · exact absurd rfl hne
  · rename_i hmod
    have hsel : x / l.stride % l.inner = offset := by
      by_contra h
      exact hmod ⟨hx, h⟩
    obtain ⟨k, hk, rfl⟩ := (l.exists_source_iff hoff x).mpr ⟨hx, hsel⟩
    have hfirst : k < l.stride := by
      by_contra hle
      exact hmoved ⟨k, Nat.le_of_not_lt hle, hk, rfl⟩
    exact ⟨k, hfirst, source_of_lt_stride hfirst, hne⟩

theorem lt_packed_iff (hi : i < l.stride) (row : Nat) :
    row * l.stride + i < l.rows * l.stride ↔ row < l.rows := by
  rw [← Nat.div_lt_iff_lt_mul l.stride_pos, mul_comm, mul_add_div l.stride_pos,
    div_eq_of_lt hi, add_zero]

theorem source_row (hi : i < l.stride) (row : Nat) :
    l.source offset (row * l.stride + i) = (row * l.inner + offset) * l.stride + i := by
  unfold source
  rw [mul_comm row, mul_add_div l.stride_pos, div_eq_of_lt hi, add_zero,
    mul_add_mod, mod_eq_of_lt hi]

/-- Several models: the first row is the only one that can be left behind. -/
theorem keeps_of_first_row (hoff : offset < l.inner) (hinner : l.inner ≠ 1)
    (hnarrow : Narrow l offset data)
    (hfirst : offset ≠ 0 → ∀ i < l.stride, offset * l.stride + i < l.groups * l.total * l.stride →
      data (offset * l.stride + i) = 0 ∨
        offset < l.rows ∧ data ((offset * l.inner + offset) * l.stride + i) ≠ 0) :
    KeepsChampion l offset data (packed l offset data (l.rows * l.stride)) := by
  classical
  have hlen : l.rows * l.stride ≤ l.groups * l.total * l.stride := by
    apply Nat.mul_le_mul_right
    exact Nat.mul_le_mul_left _ (Nat.le_mul_of_pos_right _ l.inner_pos)
  rw [keepsChampion_iff]
  constructor
  · intro k hk
    rw [packed_eq hoff hinner hnarrow]
    by_cases hne : data (l.source offset k) = 0
    · rw [if_neg fun h => h.2 hne, hne]
      by_cases hmoved : Moved l offset (l.rows * l.stride) k
      · rw [if_pos hmoved]
      · rw [if_neg hmoved]
        by_contra hleft
        obtain ⟨i, hi, rfl, hdata⟩ := left_behind hoff (Nat.lt_of_lt_of_le hk hlen) hmoved hleft
        rw [source_row hi] at hne
        by_cases h0 : offset = 0
        · rw [h0, Nat.zero_mul, Nat.zero_add, Nat.zero_mul] at hne
          rw [h0, Nat.zero_mul] at hdata
          exact hdata hne
        · rcases hfirst h0 i hi (Nat.lt_of_lt_of_le hk hlen) with h | ⟨-, h⟩
          · exact hdata h
          · exact h hne
    · rw [if_pos ⟨hk, hne⟩]
  · intro x hge hlt
    rw [packed_eq hoff hinner hnarrow, if_neg fun h => absurd h.1 (Nat.not_lt.mpr hge)]
    by_cases hmoved : Moved l offset (l.rows * l.stride) x
    · rw [if_pos hmoved]
    · rw [if_neg hmoved]
      by_contra hleft
      obtain ⟨i, hi, rfl, hdata⟩ := left_behind hoff hlt hmoved hleft
      have hrow : ¬ offset < l.rows := fun h => absurd ((lt_packed_iff hi offset).mpr h) (Nat.not_lt.mpr hge)
      by_cases h0 : offset = 0
      · -- The array has a row, so that the first one is part of the packed array.
        have hgroups : l.groups ≠ 0 := by
          intro h
          rw [h, Nat.zero_mul, Nat.zero_mul] at hlt
          exact Nat.not_lt_zero _ hlt
        apply hrow
        rw [h0]
        exact Nat.mul_pos (Nat.pos_of_ne_zero hgroups) l.outer_pos
      · rcases hfirst h0 i hi hlt with h | ⟨h, -⟩
        · exact hdata h
        · exact hrow h

theorem first_row_of_keeps (hoff : offset < l.inner) (hinner : l.inner ≠ 1)
    (hnarrow : Narrow l offset data)
    (hkeeps : KeepsChampion l offset data (packed l offset data (l.rows * l.stride)))
    (hi : i < l.stride) (hlt : offset * l.stride + i < l.groups * l.total * l.stride) :
    data (offset * l.stride + i) = 0 ∨
      offset < l.rows ∧ data ((offset * l.inner + offset) * l.stride + i) ≠ 0 := by
  classical
  rw [keepsChampion_iff] at hkeeps
  by_contra hcon
  push Not at hcon
  obtain ⟨hdata, hsource⟩ := hcon
  have hplace : l.source offset i = offset * l.stride + i := source_of_lt_stride hi
  -- The weight is still there at the end.
  have hleft : packed l offset data (l.rows * l.stride) (offset * l.stride + i)
      = data (offset * l.stride + i) := by
    rw [packed_eq hoff hinner hnarrow, if_neg, if_neg, ← hplace, cleared_source hoff]
    · rintro ⟨k, hk, -, heq⟩
      rw [← hplace] at heq
      have := l.source_injective hoff heq
      omega
    · rw [lt_packed_iff hi, source_row hi]
      rintro ⟨hrow, hne⟩
      exact hne (hsource hrow)
  by_cases hrow : offset < l.rows
  · have := hkeeps.1 _ ((lt_packed_iff hi offset).mpr hrow)
    rw [hleft, source_row hi, hsource hrow] at this
    exact hdata this
  · have := hkeeps.2 _ (Nat.le_of_not_lt fun h => hrow ((lt_packed_iff hi offset).mp h)) hlt
    rw [hleft] at this
    exact hdata this

/-- Places in the first `2 ^ 32` positions are the only ones written to. -/
theorem target_lt (hwidth : l.total * l.stride ≤ 2 ^ 32) (k : Nat) : l.target k < 2 ^ 32 := by
  have hgroup : l.outer * l.stride ≤ 2 ^ 32 := by
    calc l.outer * l.stride ≤ l.total * l.stride :=
          Nat.mul_le_mul_right _ (Nat.le_mul_of_pos_right _ l.inner_pos)
      _ ≤ 2 ^ 32 := hwidth
  have hpow : l.outer * l.stride = 2 ^ (l.outer_bits + l.stride_shift) := (Nat.pow_add 2 _ _).symm
  have hdvd : l.outer * l.stride ∣ 2 ^ 32 := by
    rw [hpow] at hgroup ⊢
    exact Nat.pow_dvd_pow 2 ((Nat.pow_le_pow_iff_right (by norm_num)).mp hgroup)
  obtain ⟨c, hc⟩ := hdvd
  have hmod : k / l.stride / l.outer * (l.outer * l.stride) % 2 ^ 32
      = (l.outer * l.stride) * (k / l.stride / l.outer % c) := by
    rw [hc, Nat.mul_comm (k / l.stride / l.outer), mul_mod_mul_left]
  have hcpos : 0 < c := by
    rcases Nat.eq_zero_or_pos c with rfl | h
    · rw [Nat.mul_zero] at hc
      norm_num at hc
    · exact h
  have hslot := mod_lt (k / l.stride) l.outer_pos
  have hcol := mod_lt k l.stride_pos
  have hbase := mod_lt (k / l.stride / l.outer) hcpos
  unfold target
  rw [hmod]
  calc l.outer * l.stride * (k / l.stride / l.outer % c) + k / l.stride % l.outer * l.stride
        + k % l.stride
      < l.outer * l.stride * (k / l.stride / l.outer % c) + k / l.stride % l.outer * l.stride
        + l.stride := Nat.add_lt_add_left hcol _
    _ = l.outer * l.stride * (k / l.stride / l.outer % c) + (k / l.stride % l.outer + 1) * l.stride := by
        ring
    _ ≤ l.outer * l.stride * (k / l.stride / l.outer % c) + l.outer * l.stride :=
        Nat.add_le_add_left (Nat.mul_le_mul_right _ hslot) _
    _ = l.outer * l.stride * (k / l.stride / l.outer % c + 1) := by ring
    _ ≤ l.outer * l.stride * c := Nat.mul_le_mul_left _ hbase
    _ = 2 ^ 32 := hc.symm

theorem narrow_of_keeps (hoff : offset < l.inner) (hwidth : l.total * l.stride ≤ 2 ^ 32)
    (hkeeps : KeepsChampion l offset data (packed l offset data (l.rows * l.stride))) :
    Narrow l offset data := by
  classical
  rw [keepsChampion_iff] at hkeeps
  intro k hk hbase
  have hlen : l.rows * l.stride ≤ l.groups * l.total * l.stride := by
    apply Nat.mul_le_mul_right
    exact Nat.mul_le_mul_left _ (Nat.le_mul_of_pos_right _ l.inner_pos)
  have hbig : 2 ^ 32 ≤ k := by
    calc 2 ^ 32 ≤ k / l.stride / l.outer * (l.outer * l.stride) := hbase
      _ ≤ k := by
          conv_rhs => rw [← position_eq (l := l) k]
          omega
  rw [← hkeeps.1 k hk, packed_of_not_target hoff]
  · by_cases hmoved : Moved l offset (l.rows * l.stride) k
    · rw [if_pos hmoved]
    · rw [if_neg hmoved]
      by_contra hleft
      obtain ⟨i, hi, heq, -⟩ := left_behind hoff (Nat.lt_of_lt_of_le hk hlen) hmoved hleft
      have : k < l.total * l.stride := by
        calc k = offset * l.stride + i := heq
          _ < (offset + 1) * l.stride := by rw [Nat.succ_mul]; omega
          _ ≤ l.inner * l.stride := Nat.mul_le_mul_right _ hoff
          _ ≤ l.total * l.stride :=
              Nat.mul_le_mul_right _ (Nat.le_mul_of_pos_left _ l.outer_pos)
      omega
  · intro j _ heq
    have := target_lt hwidth j
    omega

/-! ### A single model -/

theorem source_single (hinner : l.inner = 1) (k : Nat) : l.source 0 k = k := by
  unfold source
  rw [hinner, mul_one, add_zero, mul_comm, div_add_mod]

theorem keeps_single (hinner : l.inner = 1)
    (hzero : ∀ k, l.stride ≤ k → k < l.rows * l.stride → data k = 0) :
    KeepsChampion l 0 data (packed l 0 data (l.rows * l.stride)) := by
  have hoff : 0 < l.inner := l.inner_pos
  have hcleared : cleared l 0 data = data := by
    funext x
    rw [← source_single hinner x]
    exact cleared_source hoff x
  -- No step changes anything.
  have hpacked : ∀ n ≤ l.rows * l.stride, packed l 0 data n = data := by
    intro n
    induction n with
    | zero => exact fun _ => hcleared
    | succ n ih =>
      intro hn
      rw [packed_succ, ih (le_of_succ_le hn)]
      unfold pack
      rw [source_single hinner]
      by_cases hfirst : l.stride ≤ n
      · rw [if_neg (not_not.mpr (hzero n hfirst hn))]
      · have htarget : l.target n = n := by
          apply target_eq
          rw [div_eq_of_lt (Nat.lt_of_not_le hfirst), Nat.zero_div, Nat.zero_mul]
          norm_num
        rw [if_neg hfirst, htarget, update_eq_self]
        split <;> rfl
  rw [keepsChampion_iff, hpacked _ (le_refl _)]
  constructor
  · intro k _
    rw [source_single hinner]
  · intro x hge hlt
    have hlen : l.groups * l.total * l.stride = l.rows * l.stride := by
      unfold total rows
      rw [hinner, mul_one]
    omega

theorem single_of_keeps (hinner : l.inner = 1)
    (hkeeps : KeepsChampion l 0 data (packed l 0 data (l.rows * l.stride)))
    (k : Nat) (hk : l.stride ≤ k) (hlt : k < l.rows * l.stride) : data k = 0 := by
  have hoff : 0 < l.inner := l.inner_pos
  rw [keepsChampion_iff] at hkeeps
  -- Downwards from the last position: behind it, no step does anything.
  induction hn : l.rows * l.stride - k using Nat.strong_induction_on generalizing k with
  | _ m ih =>
    have hlater : ∀ n, k < n → n ≤ l.rows * l.stride →
        packed l 0 data n = packed l 0 data (k + 1) := by
      intro n
      induction n with
      | zero => exact fun h => absurd h (not_lt_zero k)
      | succ n ihn =>
        intro hkn hle
        rcases Nat.lt_succ_iff_lt_or_eq.mp hkn with h | rfl
        · have hnext : data n = 0 :=
            ih (l.rows * l.stride - n) (by omega) n (by omega) hle rfl
          rw [packed_succ, ← ihn h (le_of_succ_le hle)]
          unfold pack
          rw [packed_source hoff, source_single hinner, if_neg (not_not.mpr hnext)]
        · rfl
    have hkept := hkeeps.1 k hlt
    rw [hlater _ hlt (le_refl _), packed_succ, source_single hinner] at hkept
    unfold pack at hkept
    rw [packed_source hoff, source_single hinner, if_pos hk] at hkept
    by_contra hne
    rw [if_pos hne, update_self] at hkept
    exact hne hkept.symm

/-! ### The reduction -/

omit [DecidableEq V] in
theorem narrow_iff :
    (∀ group < l.groups, ∀ slot < l.outer, ∀ i < l.stride,
      2 ^ 32 ≤ group * (l.outer * l.stride) →
        data (((group * l.outer + slot) * l.inner + offset) * l.stride + i) = 0) ↔
      Narrow l offset data :=
  forall_position_iff (P := fun group _ x => 2 ^ 32 ≤ group * (l.outer * l.stride) → data x = 0)

/-- The reduction keeps exactly the champion when `Reducible` holds, and, as long
    as a group has at most `2 ^ 32` weights, only then. -/
theorem reduce_keeps_champion (l : Layout) {offset : Nat} (hoff : offset < l.inner)
    (data : Nat → V) :
    (Reducible l offset data → KeepsChampion l offset data
      (reduce_innermost_model_weights (l.parameters data) offset l.total l.inner).data) ∧
    (l.total * l.stride ≤ 2 ^ 32 →
      KeepsChampion l offset data
        (reduce_innermost_model_weights (l.parameters data) offset l.total l.inner).data →
      Reducible l offset data) := by
  rw [reduce_eq]
  show (_ → KeepsChampion l offset data (packed l offset data (l.rows * l.stride))) ∧
    (_ → KeepsChampion l offset data (packed l offset data (l.rows * l.stride)) → _)
  by_cases hinner : l.inner = 1
  · have h0 : offset = 0 := by omega
    subst h0
    constructor
    · rintro ⟨hsingle, -, -⟩
      exact keeps_single hinner (hsingle hinner)
    · intro _ hkeeps
      have hzero := single_of_keeps hinner hkeeps
      refine ⟨fun _ => hzero, fun h => absurd rfl h, narrow_iff.mpr fun k hk hbase => ?_⟩
      rw [source_single hinner]
      apply hzero k _ hk
      -- A later group is behind the first row.
      by_contra hlt
      rw [div_eq_of_lt (Nat.lt_of_not_le hlt), Nat.zero_div, Nat.zero_mul] at hbase
      norm_num at hbase
  · constructor
    · rintro ⟨-, hfirst, hnarrow⟩
      exact keeps_of_first_row hoff hinner (narrow_iff.mp hnarrow) hfirst
    · intro hwidth hkeeps
      have hnarrow := narrow_of_keeps hoff hwidth hkeeps
      exact ⟨fun h => absurd h hinner,
        fun _ i hi hlt => first_row_of_keeps hoff hinner hnarrow hkeeps hi hlt,
        narrow_iff.mpr hnarrow⟩

end Sweep

/-! ### Two models -/

/-- Two groups of two models with rows of one weight. -/
def two_models : Layout := ⟨2, 0, 1, 0⟩

/-- The first model is selected; its rows are packed. -/
theorem reduce_keeps_champion_first :
    KeepsChampion two_models 0 (fun x => if x = 0 then (5 : Int) else if x = 1 then 7 else 0)
      (reduce_innermost_model_weights (two_models.parameters
        (fun x => if x = 0 then (5 : Int) else if x = 1 then 7 else 0)) 0 two_models.total
          two_models.inner).data := by
  apply (reduce_keeps_champion two_models (by decide) _).1
  refine ⟨fun h => absurd h (by decide), fun h => absurd rfl h, ?_⟩
  intro group hgroup slot hslot i hi hbase
  have hgroup' : group < 2 := hgroup
  have hone : two_models.outer * two_models.stride = 1 := by decide
  rw [hone] at hbase
  omega

/-- The second model is selected, and its row is zero in the second group: the
    row of the first group is left behind in its place. -/
theorem reduce_leaves_first_row :
    ¬ KeepsChampion two_models 1 (fun x => if x = 0 then (5 : Int) else if x = 1 then 7 else 0)
      (reduce_innermost_model_weights (two_models.parameters
        (fun x => if x = 0 then (5 : Int) else if x = 1 then 7 else 0)) 1 two_models.total
          two_models.inner).data := by
  intro h
  have hrow := h.1 1 (by decide) 0 (by decide) 0 (by decide)
  revert hrow
  decide

end VW.MultiModel
