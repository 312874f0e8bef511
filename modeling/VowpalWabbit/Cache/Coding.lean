import VowpalWabbit.Cache.Basic
import VowpalWabbit.Framework.Varint

/-! # The coding of feature blocks

    `FeatureCode` and `BlockCode` say which byte strings code which features,
    without reference to the decoder. The decoder is complete for them, it
    finds every code it is given, and sound, whatever it accepts is a code;
    and what `cache_features` writes is one.
-/

open Cpp Varint

namespace VW.Cache

open List Outcome BitVec Nat

variable {load : Nat → Outcome Byte}

/-! ## Integers -/

theorem and_128_ne_zero (c : Byte) : c &&& 128 ≠ 0 ↔ 128 ≤ c.toNat := by
  revert c
  decide +kernel

theorem toNat_and_127 (num : BitVec 64) : (num &&& 127).toNat = num.toNat % 128 := by
  rw [toNat_and]
  exact and_two_pow_sub_one_eq_mod num.toNat 7

theorem low_digit (num : BitVec 64) :
    (num &&& 127).setWidth 8 = BitVec.ofNat 8 (num.toNat % 128) := by
  apply eq_of_toNat_eq
  rw [toNat_setWidth, toNat_and_127, toNat_ofNat]

theorem variable_length_int_encode_loop_eq (fuel : Nat) (num : BitVec 64) :
    variable_length_int_encode_loop fuel num = Varint.encode fuel num.toNat := by
  induction fuel generalizing num with
  | zero =>
    rw [variable_length_int_encode_loop, Varint.encode, low_digit]
  | succ fuel ih =>
    rw [variable_length_int_encode_loop, Varint.encode]
    split
    · have hor : ∀ x < 128, x ||| 128 = x + 128 := by decide
      have hdigit : ((num &&& 127) ||| 128).setWidth 8 = BitVec.ofNat 8 (num.toNat % 128 + 128) := by
        apply eq_of_toNat_eq
        rw [toNat_setWidth, toNat_or, toNat_and_127, toNat_ofNat]
        have := hor (num.toNat % 128) (mod_lt _ (by decide))
        exact congrArg (· % 2 ^ 8) this
      have hshift : (num >>> 7).toNat = num.toNat / 128 := by
        rw [toNat_ushiftRight, shiftRight_eq_div_pow]
      rw [hdigit, ih, hshift]
    · rename_i hlt
      rw [low_digit, mod_eq_of_lt (by omega)]

theorem terminated_variable_length_int_encode (num : BitVec 64) :
    Terminated (variable_length_int_encode num) := by
  rw [variable_length_int_encode, variable_length_int_encode_loop_eq]
  exact terminated_encode _ _

theorem length_variable_length_int_encode_le (num : BitVec 64) :
    (variable_length_int_encode num).length ≤ 10 := by
  rw [variable_length_int_encode, variable_length_int_encode_loop_eq]
  exact length_encode_le _ _

theorem value_variable_length_int_encode (num : BitVec 64) :
    BitVec.ofNat 64 (value (variable_length_int_encode num)) = num := by
  rw [variable_length_int_encode, variable_length_int_encode_loop_eq, value_encode]
  · simp
  · have := num.isLt
    omega

variable {cs : List Byte}

theorem variable_length_int_decode_loop_complete (hcs : Terminated cs) :
    ∀ (left count read_head : Nat) (num : BitVec 64), cs.length ≤ left →
      num.toNat < 2 ^ (7 * count) → Holds load read_head cs →
      variable_length_int_decode_loop load left count read_head num
        = .ok (read_head + cs.length, BitVec.ofNat 64 (num.toNat + value cs * 2 ^ (7 * count))) := by
  induction hcs with
  | @last c hc =>
    intro left count read_head num hleft hnum hholds
    obtain ⟨left, rfl⟩ := exists_eq_succ_of_ne_zero (Nat.pos_iff_ne_zero.mp hleft)
    obtain ⟨hload, _⟩ := holds_cons.mp hholds
    have hbit : ¬ c &&& 128 ≠ 0 := by
      rw [and_128_ne_zero]
      omega
    have hvalue : value [c] = (c.setWidth 64).toNat := by
      rw [toNat_setWidth, value, value]
      omega
    rw [variable_length_int_decode_loop, hload, ok_bind, if_neg hbit, or_shiftLeft hnum,
      hvalue]
    rfl
  | @more c cs hc _ ih =>
    intro left count read_head num hleft hnum hholds
    obtain ⟨left, rfl⟩ := exists_eq_succ_of_ne_zero
      (Nat.pos_iff_ne_zero.mp (zero_lt_of_lt hleft))
    obtain ⟨hload, hrest⟩ := holds_cons.mp hholds
    have hdigit : ((c &&& 127).setWidth 64).toNat = c.toNat % 128 := by
      have : (c &&& 127).toNat = c.toNat % 128 := and_two_pow_sub_one_eq_mod c.toNat 7
      rw [toNat_setWidth, this]
      omega
    -- the digits read so far stay below the place of the next one
    have hpow : 2 ^ (7 * (count + 1)) = 128 * 2 ^ (7 * count) := by
      rw [Nat.mul_add, pow_add]
      omega
    have hnum' : (BitVec.ofNat 64 (num.toNat + c.toNat % 128 * 2 ^ (7 * count))).toNat
        < 2 ^ (7 * (count + 1)) := by
      rw [toNat_ofNat, hpow]
      apply lt_of_le_of_lt (mod_le _ _)
      have : c.toNat % 128 * 2 ^ (7 * count) ≤ 127 * 2 ^ (7 * count) :=
        Nat.mul_le_mul_right _ (by omega)
      omega
    rw [variable_length_int_decode_loop, hload, ok_bind,
      if_pos ((and_128_ne_zero c).mpr hc), or_shiftLeft hnum, hdigit,
      ih left (count + 1) (read_head + 1) _ (le_of_succ_le_succ hleft) hnum' hrest]
    congr 2
    · rw [length_cons]
      omega
    · apply eq_of_toNat_eq
      rw [toNat_ofNat, toNat_ofNat, toNat_ofNat, mod_add_mod, hpow, value]
      congr 1
      ring

variable {read_head : Nat}

/-- What the decoder of integers returns when a whole integer lies at the read head. -/
theorem variable_length_int_decode_complete (hcs : Terminated cs) (hlen : cs.length ≤ 10)
    (hholds : Holds load read_head cs) :
    variable_length_int_decode load read_head
      = .ok (read_head + cs.length, BitVec.ofNat 64 (value cs)) := by
  rw [variable_length_int_decode,
    variable_length_int_decode_loop_complete hcs 10 0 read_head 0 hlen (by decide) hholds]
  simp

theorem variable_length_int_decode_loop_sound :
    ∀ (left count read_head : Nat) (num : BitVec 64) {r : Nat × BitVec 64},
      variable_length_int_decode_loop load left count read_head num = .ok r →
      ∃ cs, Terminated cs ∧ cs.length ≤ left ∧ Holds load read_head cs := by
  intro left
  induction left with
  | zero =>
    intro count read_head num r h
    cases h
  | succ left ih =>
    intro count read_head num r h
    rw [variable_length_int_decode_loop, bind_eq_ok] at h
    obtain ⟨c, hload, h⟩ := h
    split at h
    · rename_i hc
      obtain ⟨cs, hcs, hlen, hholds⟩ := ih _ _ _ h
      exact ⟨c :: cs, .more ((and_128_ne_zero c).mp hc) hcs, succ_le_succ hlen,
        holds_cons.mpr ⟨hload, hholds⟩⟩
    · rename_i hc
      rw [and_128_ne_zero] at hc
      exact ⟨[c], .last (by omega), by simp, holds_cons.mpr ⟨hload, holds_nil⟩⟩

variable {read_head' : Nat}

/-- The decoder of integers accepts only whole integers of at most ten digits. -/
theorem variable_length_int_decode_sound {num : BitVec 64}
    (h : variable_length_int_decode load read_head = .ok (read_head', num)) :
    ∃ cs, Terminated cs ∧ cs.length ≤ 10 ∧ Holds load read_head cs ∧
      read_head' = read_head + cs.length ∧ num = BitVec.ofNat 64 (value cs) := by
  obtain ⟨cs, hcs, hlen, hholds⟩ := variable_length_int_decode_loop_sound _ _ _ _ h
  rw [variable_length_int_decode_complete hcs hlen hholds] at h
  cases h
  exact ⟨cs, hcs, hlen, hholds, rfl, rfl⟩

/-! ## Features -/

/-- What follows the number `num` of a feature, and the value it gives. -/
def ValueCode (num : BitVec 64) (f : List Byte) (v : Single) : Prop :=
  if num &&& NEG_ONE ≠ 0 then f = [] ∧ v = Single.neg_one
  else if num &&& GENERAL ≠ 0 then f.length = 4 ∧ v = Single.of_bytes f
  else f = [] ∧ v = Single.one

/-- `c` codes a feature of value `v` whose index differs by `d` from the one before. -/
inductive FeatureCode : List Byte → Single → BitVec 64 → Prop where
  | intro {digits f : List Byte} {v : Single} :
      Terminated digits → digits.length ≤ 10 →
      ValueCode (BitVec.ofNat 64 (value digits)) f v →
      FeatureCode (digits ++ f) v (zig_zag_decode (BitVec.ofNat 64 (value digits) >>> 2))

/-- A block is the codes of its features, one after the other. -/
inductive BlockCode : List Byte → List (Single × BitVec 64) → Prop where
  | nil : BlockCode [] []
  | cons {c cs : List Byte} {v : Single} {d : BitVec 64} {fs : List (Single × BitVec 64)} :
      FeatureCode c v d → BlockCode cs fs → BlockCode (c ++ cs) ((v, d) :: fs)

variable {d : BitVec 64} {v : Single} {c : List Byte}

theorem FeatureCode.length_pos (h : FeatureCode c v d) : 0 < c.length := by
  obtain ⟨hdigits, _, _⟩ := h
  have := hdigits.length_pos
  rw [length_append]
  omega

theorem read_cached_feature_complete (hc : FeatureCode c v d) (hholds : Holds load read_head c) :
    read_cached_feature load read_head = .ok (read_head + c.length, v, d) := by
  obtain ⟨hdigits, hlen, hvalue⟩ := hc
  rename_i digits f
  obtain ⟨hd, hf⟩ := holds_append.mp hholds
  rw [read_cached_feature, variable_length_int_decode_complete hdigits hlen hd]
  simp only [ok_bind]
  unfold ValueCode at hvalue
  split
  · rename_i hneg
    rw [if_pos hneg] at hvalue
    obtain ⟨rfl, rfl⟩ := hvalue
    rw [append_nil]
    rfl
  · rename_i hneg
    rw [if_neg hneg] at hvalue
    split
    · rename_i hgen
      rw [if_pos hgen] at hvalue
      obtain ⟨hf4, rfl⟩ := hvalue
      have hload := load_bytes_complete hf
      rw [hf4] at hload
      rw [hload, length_append, hf4, Nat.add_assoc]
      rfl
    · rename_i hgen
      rw [if_neg hgen] at hvalue
      obtain ⟨rfl, rfl⟩ := hvalue
      rw [append_nil]
      rfl

theorem read_cached_feature_sound
    (h : read_cached_feature load read_head = .ok (read_head', v, d)) :
    ∃ c, FeatureCode c v d ∧ Holds load read_head c ∧ read_head' = read_head + c.length := by
  rw [read_cached_feature, bind_eq_ok] at h
  obtain ⟨⟨p, num⟩, hint, h⟩ := h
  obtain ⟨digits, hdigits, hlen, hholds, rfl, rfl⟩ := variable_length_int_decode_sound hint
  -- Given the bytes of the value, the feature is coded by the digits and them.
  have hcode : ∀ f, ValueCode (BitVec.ofNat 64 (value digits)) f v →
      d = zig_zag_decode (BitVec.ofNat 64 (value digits) >>> 2) →
      Holds load (read_head + digits.length) f → read_head' = read_head + digits.length + f.length →
      ∃ c, FeatureCode c v d ∧ Holds load read_head c ∧ read_head' = read_head + c.length := by
    rintro f hvalue rfl hf hhead
    refine ⟨digits ++ f, .intro hdigits hlen hvalue, holds_append.mpr ⟨hholds, hf⟩, ?_⟩
    rw [hhead, length_append, Nat.add_assoc]
  simp only at h
  split at h
  · rename_i hneg
    cases h
    apply hcode []
    · rw [ValueCode, if_pos hneg]
      exact ⟨rfl, rfl⟩
    · rfl
    · exact holds_nil
    · rfl
  · rename_i hneg
    split at h
    · rename_i hgen
      rw [bind_eq_ok] at h
      obtain ⟨f, hload, h⟩ := h
      cases h
      obtain ⟨hf4, hf⟩ := load_bytes_sound hload
      apply hcode f
      · rw [ValueCode, if_neg hneg, if_pos hgen]
        exact ⟨hf4, rfl⟩
      · rfl
      · exact hf
      · rw [hf4]
    · rename_i hgen
      cases h
      apply hcode []
      · rw [ValueCode, if_neg hneg, if_neg hgen]
        exact ⟨rfl, rfl⟩
      · rfl
      · exact holds_nil
      · rfl

/-! ## Blocks -/

/-- The features, with their differences summed up from `last` on. -/
def undelta : BitVec 64 → List (Single × BitVec 64) → List (Single × FeatureIndex)
  | _, [] => []
  | last, (v, d) :: fs => (v, last + d) :: undelta (last + d) fs

/-- No difference is negative. -/
def ascending (fs : List (Single × BitVec 64)) : Bool := fs.all fun p => !p.2.slt 0

/-- How the flag `sorted` is carried over one feature. -/
theorem and_ascending_cons (sorted : Bool) (v : Single) (d : BitVec 64)
    (fs : List (Single × BitVec 64)) :
    (sorted && ascending ((v, d) :: fs)) = ((if d.slt 0 then false else sorted) && ascending fs) := by
  unfold ascending
  rw [all_cons]
  cases d.slt 0 with
  | true => simp
  | false => simp

theorem map_fst_undelta (last : BitVec 64) (fs : List (Single × BitVec 64)) :
    (undelta last fs).map Prod.fst = fs.map Prod.fst := by
  induction fs generalizing last with
  | nil => rfl
  | cons p fs ih => simp [undelta, ih]

/-- On a block that is coded the loop stops at its end with its features. -/
theorem read_cached_features_loop_complete {block : List Byte} {fs : List (Single × BitVec 64)}
    (hblock : BlockCode block fs) :
    ∀ (fuel read_head : Nat) (last : BitVec 64) (sorted : Bool) (feats : Features Single),
      block.length ≤ fuel → Holds load read_head block →
      read_cached_features_loop load (read_head + block.length) fuel read_head last sorted feats
        = .ok (read_head + block.length, sorted && ascending fs,
            feats.push_all (undelta last fs)) := by
  induction hblock with
  | nil =>
    intro fuel read_head last sorted feats _ _
    cases fuel with
    | zero => simp [read_cached_features_loop, ascending, undelta]
    | succ fuel => simp [read_cached_features_loop, ascending, undelta]
  | @cons c cs v d fs hc _ ih =>
    intro fuel read_head last sorted feats hfuel hholds
    obtain ⟨hhere, hrest⟩ := holds_append.mp hholds
    have hpos := hc.length_pos
    rw [length_append] at hfuel ⊢
    obtain ⟨fuel, rfl⟩ := exists_eq_succ_of_ne_zero (by omega : fuel ≠ 0)
    have hnext := ih fuel (read_head + c.length) (last + d) (if d.slt 0 then false else sorted)
      (feats.push_back v (last + d)) (by omega) hrest
    rw [read_cached_features_loop, if_pos (by omega), read_cached_feature_complete hc hhere]
    simp only [ok_bind]
    rw [← Nat.add_assoc, hnext]
    rw [and_ascending_cons]
    rfl

/-- Whatever the loop accepts is a coded block, which ends at or behind the
    end that was asked for. -/
theorem read_cached_features_loop_sound {end_ : Nat} :
    ∀ (fuel read_head : Nat) (last : BitVec 64) (sorted : Bool) (feats : Features Single)
      {read_head' : Nat} {sorted' : Bool} {feats' : Features Single},
      read_cached_features_loop load end_ fuel read_head last sorted feats
        = .ok (read_head', sorted', feats') →
      ∃ block fs, BlockCode block fs ∧ Holds load read_head block ∧
        read_head' = read_head + block.length ∧ end_ ≤ read_head' ∧
        sorted' = (sorted && ascending fs) ∧ feats' = feats.push_all (undelta last fs) := by
  intro fuel
  induction fuel with
  | zero =>
    intro read_head last sorted feats read_head' sorted' feats' h
    rw [read_cached_features_loop] at h
    split at h
    · cases h
    · cases h
      exact ⟨[], [], .nil, holds_nil, rfl, by omega, by simp [ascending], rfl⟩
  | succ fuel ih =>
    intro read_head last sorted feats read_head' sorted' feats' h
    rw [read_cached_features_loop] at h
    split at h
    · rw [bind_eq_ok] at h
      obtain ⟨⟨p, v, d⟩, hfeature, h⟩ := h
      obtain ⟨c, hc, hhere, rfl⟩ := read_cached_feature_sound hfeature
      obtain ⟨block, fs, hblock, hrest, hhead, hend, hsorted, hfeats⟩ := ih _ _ _ _ h
      refine ⟨c ++ block, (v, d) :: fs, .cons hc hblock, holds_append.mpr ⟨hhere, hrest⟩, ?_,
        hend, ?_, hfeats⟩
      · rw [hhead, length_append, Nat.add_assoc]
      · rw [hsorted, and_ascending_cons]
    · cases h
      exact ⟨[], [], .nil, holds_nil, rfl, by omega, by simp [ascending], rfl⟩

end VW.Cache
