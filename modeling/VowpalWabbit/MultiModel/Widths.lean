import VowpalWabbit.MultiModel.Offsets

/-! # Feature widths and addresses

    Which weight a learner reads. The learners of the stack multiply their
    widths from the bottom up, so that a learner adds its choice times the width
    of all learners below it to the offset of an example; the feature hashes are
    multiplied by the total width, a power of two.
-/

namespace VW.MultiModel

open Nat

/-- The widths around one reduction that has `inner` models: the product of the
    widths of the learners below it, and of those above it. -/
structure Stack where
  below : Nat
  inner : Nat
  above : Nat
  num_bits : Nat
  stride_shift : Nat

namespace Stack

variable (s : Stack)

def stride : Nat := 2 ^ s.stride_shift

/-- `feature_width_below` of the learner on top of the stack; the one at the bottom
    has the stride as its width. -/
def feature_width_below : Nat := s.stride * s.below * s.inner * s.above

/-- `interleave_shifts` of `parse_sources`: the loop stops at the first power of two
    that is not below the width. -/
def interleave_shifts : Nat := Nat.clog 2 s.feature_width_below

def total_feature_width : Nat := 2 ^ s.interleave_shifts >>> s.stride_shift

def raw_length : Nat := 2 ^ s.num_bits * s.stride

def parameters {V : Type} (data : Nat → V) : DenseParameters V :=
  ⟨data, s.raw_length, s.stride_shift⟩

/-- What the learners add to the offset of an example: those above choose `a`, the
    reduction `slot`, and those below `u`. -/
def offset (a slot u : Nat) : Nat := (a * s.inner + slot) * s.below + u

end Stack

/-- Where the weight array is read for a hash, with the index multiplied by the total
    width, the offset of the learners, and the mask of the array. -/
def lookup (total num_bits stride_shift hash offset k : Nat) : Nat :=
  ((hash * total + offset) * 2 ^ stride_shift + k) % (2 ^ num_bits * 2 ^ stride_shift)

namespace Stack

variable (s : Stack)

def address (hash a slot u k : Nat) : Nat :=
  lookup s.total_feature_width s.num_bits s.stride_shift hash (s.offset a slot u) k

/-- All sizes are positive and a feature has room in the array. -/
structure Fits : Prop where
  below : 0 < s.below
  inner : 0 < s.inner
  above : 0 < s.above
  room : s.total_feature_width ≤ 2 ^ s.num_bits

variable {s}

theorem stride_pos : 0 < s.stride := Nat.two_pow_pos _

/-- The total width is a power of two that has room for the rows of all learners. -/
theorem total_feature_width_eq (h : s.Fits) :
    ∃ n, s.total_feature_width = 2 ^ n ∧ s.above * s.inner * s.below ≤ 2 ^ n := by
  have hle : s.feature_width_below ≤ 2 ^ s.interleave_shifts := le_pow_clog Nat.one_lt_two _
  have hrows : s.stride * (s.above * s.inner * s.below) ≤ 2 ^ s.interleave_shifts := by
    calc s.stride * (s.above * s.inner * s.below) = s.feature_width_below := by
          unfold feature_width_below
          ring
      _ ≤ _ := hle
  have hpos : 0 < s.above * s.inner * s.below := Nat.mul_pos (Nat.mul_pos h.above h.inner) h.below
  have hshift : s.stride_shift ≤ s.interleave_shifts := by
    rw [← Nat.pow_le_pow_iff_right Nat.one_lt_two]
    exact (Nat.le_mul_of_pos_right _ hpos).trans hrows
  obtain ⟨n, hn⟩ := Nat.exists_eq_add_of_le hshift
  refine ⟨n, ?_, ?_⟩
  · unfold total_feature_width
    rw [shiftRight_eq_div_pow, hn, Nat.pow_add, Nat.mul_div_cancel_left _ (Nat.two_pow_pos _)]
  · rw [hn, Nat.pow_add] at hrows
    exact Nat.le_of_mul_le_mul_left hrows stride_pos

theorem total_pos (h : s.Fits) : 0 < s.total_feature_width := by
  obtain ⟨n, hn, _⟩ := total_feature_width_eq h
  rw [hn]
  exact Nat.two_pow_pos n

/-- The array is made of whole groups. -/
theorem exists_groups (h : s.Fits) :
    ∃ groups, 0 < groups ∧ 2 ^ s.num_bits = groups * s.total_feature_width := by
  obtain ⟨n, hn, _⟩ := total_feature_width_eq h
  have hroom := h.room
  rw [hn, Nat.pow_le_pow_iff_right Nat.one_lt_two] at hroom
  obtain ⟨g, hg⟩ := Nat.exists_eq_add_of_le hroom
  refine ⟨2 ^ g, Nat.two_pow_pos g, ?_⟩
  rw [hn, hg, Nat.pow_add, Nat.mul_comm]

theorem offset_lt {a slot u : Nat} (ha : a < s.above) (hslot : slot < s.inner) (hu : u < s.below) :
    s.offset a slot u < s.above * s.inner * s.below := by
  unfold offset
  calc (a * s.inner + slot) * s.below + u < (a * s.inner + slot) * s.below + s.below :=
        Nat.add_lt_add_left hu _
    _ = (a * s.inner + slot + 1) * s.below := by ring
    _ ≤ (a * s.inner + s.inner) * s.below := Nat.mul_le_mul_right _ (Nat.add_le_add_left hslot _)
    _ = (a + 1) * s.inner * s.below := by ring
    _ ≤ s.above * s.inner * s.below := Nat.mul_le_mul_right _ (Nat.mul_le_mul_right _ ha)

/-- Where in the array a lookup goes. -/
theorem lookup_div {total num_bits stride_shift groups : Nat} (htotal : 0 < total)
    (hgroups : 2 ^ num_bits = groups * total) (hash : Nat) {offset k : Nat} (hoffset : offset < total)
    (hk : k < 2 ^ stride_shift) :
    lookup total num_bits stride_shift hash offset k < 2 ^ num_bits * 2 ^ stride_shift ∧
    lookup total num_bits stride_shift hash offset k / 2 ^ stride_shift / total = hash % groups ∧
    lookup total num_bits stride_shift hash offset k / 2 ^ stride_shift % total = offset ∧
    lookup total num_bits stride_shift hash offset k % 2 ^ stride_shift = k := by
  have hstride : 0 < 2 ^ stride_shift := Nat.two_pow_pos _
  have hrow : (hash * total + offset) % 2 ^ num_bits = hash % groups * total + offset := by
    rw [hgroups, Nat.mul_comm groups, Nat.mul_comm hash, mod_mul, mul_add_mod,
      mod_eq_of_lt hoffset, mul_add_div htotal, div_eq_of_lt hoffset, Nat.add_zero,
      Nat.add_comm, Nat.mul_comm]
  have hlookup : lookup total num_bits stride_shift hash offset k
      = 2 ^ stride_shift * (hash % groups * total + offset) + k := by
    unfold lookup
    rw [Nat.mul_comm (2 ^ num_bits), mod_mul, Nat.mul_comm _ (2 ^ stride_shift), mul_add_mod,
      mod_eq_of_lt hk, mul_add_div hstride, div_eq_of_lt hk, Nat.add_zero, hrow,
      Nat.add_comm]
  have hdiv : lookup total num_bits stride_shift hash offset k / 2 ^ stride_shift
      = total * (hash % groups) + offset := by
    rw [hlookup, mul_add_div hstride, div_eq_of_lt hk, Nat.add_zero, Nat.mul_comm]
  refine ⟨mod_lt _ (Nat.mul_pos (Nat.two_pow_pos _) hstride), ?_, ?_, ?_⟩
  · rw [hdiv, mul_add_div htotal, div_eq_of_lt hoffset, Nat.add_zero]
  · rw [hdiv, mul_add_mod, mod_eq_of_lt hoffset]
  · rw [hlookup, mul_add_mod, mod_eq_of_lt hk]

/-- When no learner below needs more than one row, the rows of a slot are those that the
    functions on innermost offsets take for it. -/
theorem address_place {V : Type} {data : Nat → V} (h : s.Fits) (hbelow : s.below = 1)
    (hash : Nat) {a slot k : Nat} (ha : a < s.above) (hslot : slot < s.inner) (hk : k < s.stride) :
    Visited (s.parameters data) s.total_feature_width s.inner (s.address hash a slot 0 k) ∧
      place (s.parameters data) s.total_feature_width s.inner (s.address hash a slot 0 k) = slot := by
  obtain ⟨n, hn, hrows⟩ := total_feature_width_eq h
  obtain ⟨groups, _, hgroups⟩ := exists_groups h
  have hoffset : s.offset a slot 0 = a * s.inner + slot := by
    unfold offset
    rw [hbelow, mul_one, add_zero]
  have hlt : s.offset a slot 0 < s.total_feature_width := by
    rw [hn]
    exact (offset_lt ha hslot h.below).trans_le hrows
  obtain ⟨hlength, _, hrow, _⟩ := lookup_div (total_pos h) hgroups hash hlt hk
  have houter : a < s.total_feature_width / s.inner := by
    rw [hbelow, mul_one] at hrows
    rw [hn]
    exact ha.trans_le ((le_div_iff_mul_le h.inner).mpr hrows)
  refine ⟨⟨hlength, ?_⟩, ?_⟩
  · show s.address hash a slot 0 k / 2 ^ s.stride_shift % s.total_feature_width / s.inner < _
    rw [show s.address hash a slot 0 k / 2 ^ s.stride_shift % s.total_feature_width = _ from hrow,
      hoffset, mul_comm, mul_add_div h.inner, div_eq_of_lt hslot, add_zero]
    exact houter
  · show s.address hash a slot 0 k / 2 ^ s.stride_shift % s.total_feature_width % s.inner = slot
    rw [show s.address hash a slot 0 k / 2 ^ s.stride_shift % s.total_feature_width = _ from hrow,
      hoffset, mul_comm, mul_add_mod, mod_eq_of_lt hslot]

theorem parameters_length {V : Type} {data : Nat → V} {groups : Nat}
    (hgroups : 2 ^ s.num_bits = groups * s.total_feature_width) :
    (s.parameters data).raw_length
      = groups * s.total_feature_width * (s.parameters data).stride := by
  show 2 ^ s.num_bits * s.stride = _
  rw [hgroups]
  rfl

end Stack

end VW.MultiModel
