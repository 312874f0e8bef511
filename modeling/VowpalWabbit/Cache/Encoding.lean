import VowpalWabbit.Cache.Coding

/-! # What the cache writer produces

    `cache_features` writes a coded block. The features come out of the code
    with their values, and with their indices as long as the differences
    between consecutive ones survive the shift by the two flag bits. The block
    fits in the space that was reserved for it.
-/

open Cpp Varint Single

namespace VW

open List BitVec

namespace Cache

/-! ## Differences -/

theorem zig_zag_decode_eq (m : BitVec 64) :
    zig_zag_decode m = if m.getLsbD 0 then ~~~(m >>> 1) else m >>> 1 := by
  have hmask : -(m &&& 1) = _ := neg_and_one m
  rw [zig_zag_decode, hmask]
  split
  · exact xor_allOnes
  · exact xor_zero

theorem zig_zag_encode_eq (n : BitVec 64) :
    zig_zag_encode n = if n.msb then ~~~(n <<< 1) else n <<< 1 := by
  rw [zig_zag_encode, sshiftRight_last]
  split
  · exact xor_allOnes
  · exact xor_zero

theorem zig_zag_decode_encode (n : BitVec 64) : zig_zag_decode (zig_zag_encode n) = n := by
  have henc := zig_zag_encode_eq n
  cases hmsb : n.msb with
  | true =>
    have := msb_eq_true_iff_two_mul_ge.mp hmsb
    rw [if_pos hmsb] at henc
    rw [zig_zag_decode_eq, henc, if_pos (by simp)]
    bv_omega
  | false =>
    have := msb_eq_false_iff_two_mul_lt.mp hmsb
    rw [if_neg (by simp [hmsb])] at henc
    rw [zig_zag_decode_eq, henc, if_neg (by simp)]
    bv_omega

theorem zig_zag_encode_decode (m : BitVec 64) : zig_zag_encode (zig_zag_decode m) = m := by
  have hmsb : (m >>> 1).msb = false := by
    rw [msb_eq_false_iff_two_mul_lt]
    bv_omega
  have hlow : m.getLsbD 0 = decide (m.toNat % 2 = 1) := by
    rw [getLsbD, Nat.testBit_zero]
  have hdec := zig_zag_decode_eq m
  by_cases hodd : m.toNat % 2 = 1
  · rw [if_pos (by rw [hlow]; simpa using hodd)] at hdec
    rw [zig_zag_encode_eq, hdec, if_pos (by rw [msb_not, hmsb]; rfl)]
    bv_omega
  · rw [if_neg (by rw [hlow]; simpa using hodd)] at hdec
    rw [zig_zag_encode_eq, hdec, if_neg (by rw [hmsb]; decide)]
    bv_omega

theorem toNat_zig_zag_encode (n : BitVec 64) :
    (zig_zag_encode n).toNat
      = if n.toInt < 0 then (-2 * n.toInt - 1).toNat else (2 * n.toInt).toNat := by
  have hmsb := msb_eq_toInt (x := n)
  have hint := toInt_eq_toNat_cond n
  rw [zig_zag_encode_eq]
  by_cases h : n.toInt < 0
  · rw [if_pos h, if_pos (by simpa [h] using hmsb)]
    bv_omega
  · rw [if_neg h, if_neg (by simpa [h] using hmsb)]
    bv_omega

/-- What is left of a difference after the shift by the flag bits. -/
def kept (d : BitVec 64) : BitVec 64 := zig_zag_decode (zig_zag_encode d <<< 2 >>> 2)

/-- The difference has a zig-zag code of 62 bits. -/
def DeltaFits (d : BitVec 64) : Prop := -2 ^ 61 ≤ d.toInt ∧ d.toInt < 2 ^ 61

theorem kept_eq_iff (d : BitVec 64) : kept d = d ↔ DeltaFits d := by
  have hcode := toNat_zig_zag_encode d
  have hshift : (zig_zag_encode d <<< 2 >>> 2).toNat = (zig_zag_encode d).toNat % 2 ^ 62 := by
    bv_omega
  have hkept : kept d = d ↔ (zig_zag_encode d).toNat < 2 ^ 62 := by
    constructor
    · intro h
      have hsame : zig_zag_encode d <<< 2 >>> 2 = zig_zag_encode d := by
        rw [← zig_zag_encode_decode (zig_zag_encode d <<< 2 >>> 2)]
        exact congrArg zig_zag_encode h
      rw [hsame] at hshift
      omega
    · intro h
      rw [Nat.mod_eq_of_lt h] at hshift
      rw [kept, eq_of_toNat_eq hshift, zig_zag_decode_encode]
  rw [hkept, hcode, DeltaFits]
  split
  · omega
  · omega

/-! ## What is written -/


/-- The features with the differences as they come out of the cache. -/
def coded (mask : BitVec 64) : BitVec 64 → List (Single × FeatureIndex) → List (Single × BitVec 64)
  | _, [] => []
  | last, (v, i) :: fs => (v, kept ((i &&& mask) - last)) :: coded mask (i &&& mask) fs

/-- The differences between consecutive masked indices. -/
def deltas (mask : BitVec 64) : BitVec 64 → List FeatureIndex → List (BitVec 64)
  | _, [] => []
  | last, i :: is => ((i &&& mask) - last) :: deltas mask (i &&& mask) is

/-! The flags are the two bits that the shift has made room for. -/

theorem getLsbD_NEG_ONE (i : Nat) : NEG_ONE.getLsbD i = decide (i = 0) := by
  have : NEG_ONE = twoPow 64 0 := by decide
  rw [this, getLsbD_twoPow]
  simp [eq_comm]

theorem getLsbD_GENERAL (i : Nat) : GENERAL.getLsbD i = decide (i = 1) := by
  have : GENERAL = twoPow 64 1 := by decide
  rw [this, getLsbD_twoPow]
  simp [eq_comm]

theorem and_eq_zero_iff_of_bit {x flag : BitVec 64} {k : Nat}
    (hflag : ∀ i, flag.getLsbD i = decide (i = k)) : x &&& flag = 0 ↔ x.getLsbD k = false := by
  constructor
  · intro h
    have := congrArg (fun y => getLsbD y k) h
    simpa [hflag] using this
  · intro h
    apply eq_of_getLsbD_eq
    intro i _
    by_cases hik : i = k
    · simp [hik, h]
    · simp [hflag, hik]

theorem and_NEG_ONE_eq_zero_iff (x : BitVec 64) : x &&& NEG_ONE = 0 ↔ x.getLsbD 0 = false :=
  and_eq_zero_iff_of_bit getLsbD_NEG_ONE

theorem and_GENERAL_eq_zero_iff (x : BitVec 64) : x &&& GENERAL = 0 ↔ x.getLsbD 1 = false :=
  and_eq_zero_iff_of_bit getLsbD_GENERAL

theorem or_flag_shiftRight (z : BitVec 64) {flag : BitVec 64} {k : Nat} (hk : k < 2)
    (hflag : ∀ i, flag.getLsbD i = decide (i = k)) :
    (z <<< 2 ||| flag) >>> 2 = z <<< 2 >>> 2 := by
  apply eq_of_getLsbD_eq
  intro i _
  have hne : 2 + i ≠ k := by omega
  rw [getLsbD_ushiftRight, getLsbD_ushiftRight, getLsbD_or, hflag]
  simp [hne]

theorem cache_feature_code (mask last : BitVec 64) (v : Single) (i : FeatureIndex) :
    FeatureCode (cache_feature mask last v i) v (kept ((i &&& mask) - last)) := by
  -- The code of a number, given the value bytes that its flags announce.
  have hcode : ∀ num f, ValueCode num f v →
      FeatureCode (variable_length_int_encode num ++ f) v (zig_zag_decode (num >>> 2)) := by
    intro num f hvalue
    have hnum := value_variable_length_int_encode num
    have := FeatureCode.intro (f := f) (v := v) (terminated_variable_length_int_encode num)
      (length_variable_length_int_encode_le num) (by rw [hnum]; exact hvalue)
    rwa [hnum] at this
  unfold cache_feature kept
  generalize zig_zag_encode ((i &&& mask) - last) = z
  by_cases hone : v = one
  · have h0 : z <<< 2 &&& NEG_ONE = 0 := by
      rw [and_NEG_ONE_eq_zero_iff]
      simp
    have h1 : z <<< 2 &&& GENERAL = 0 := by
      rw [and_GENERAL_eq_zero_iff]
      simp
    rw [if_pos hone]
    have := hcode (z <<< 2) [] (by
      rw [ValueCode, if_neg (not_not.mpr h0), if_neg (not_not.mpr h1)]
      exact ⟨rfl, hone⟩)
    rwa [append_nil] at this
  rw [if_neg hone]
  by_cases hneg : v = neg_one
  · have h0 : (z <<< 2 ||| NEG_ONE) &&& NEG_ONE ≠ 0 := by
      rw [Ne, and_NEG_ONE_eq_zero_iff, getLsbD_or, getLsbD_NEG_ONE]
      simp
    rw [if_pos hneg]
    have := hcode (z <<< 2 ||| NEG_ONE) [] (by
      rw [ValueCode, if_pos h0]
      exact ⟨rfl, hneg⟩)
    rwa [append_nil, or_flag_shiftRight z (by decide) getLsbD_NEG_ONE] at this
  · have h0 : (z <<< 2 ||| GENERAL) &&& NEG_ONE = 0 := by
      rw [and_NEG_ONE_eq_zero_iff, getLsbD_or, getLsbD_GENERAL]
      simp
    have h1 : (z <<< 2 ||| GENERAL) &&& GENERAL ≠ 0 := by
      rw [Ne, and_GENERAL_eq_zero_iff, getLsbD_or, getLsbD_GENERAL]
      simp
    rw [if_neg hneg]
    have := hcode (z <<< 2 ||| GENERAL) v.bytes (by
      rw [ValueCode, if_neg (not_not.mpr h0), if_pos h1]
      exact ⟨v.length_bytes, v.of_bytes_bytes.symm⟩)
    rwa [or_flag_shiftRight z (by decide) getLsbD_GENERAL] at this

theorem cache_features_loop_code (mask last : BitVec 64) (fs : List (Single × FeatureIndex)) :
    BlockCode (cache_features_loop mask last fs) (coded mask last fs) := by
  induction fs generalizing last with
  | nil => exact .nil
  | cons p fs ih => exact .cons (cache_feature_code mask last p.1 p.2) (ih _)

theorem map_fst_coded (mask last : BitVec 64) (fs : List (Single × FeatureIndex)) :
    (coded mask last fs).map Prod.fst = fs.map Prod.fst := by
  induction fs generalizing last with
  | nil => rfl
  | cons p fs ih => rw [coded, map_cons, ih, map_cons]

/-- The indices come back exactly when every difference fits. -/
theorem undelta_coded_iff (mask last : BitVec 64) (fs : List (Single × FeatureIndex)) :
    (undelta last (coded mask last fs)).map Prod.snd = fs.map (fun p => p.2 &&& mask) ↔
      ∀ d ∈ deltas mask last (fs.map Prod.snd), DeltaFits d := by
  induction fs generalizing last with
  | nil => simp [coded, undelta, deltas]
  | cons p fs ih =>
    obtain ⟨v, i⟩ := p
    have hhead : last + kept ((i &&& mask) - last) = i &&& mask
        ↔ kept ((i &&& mask) - last) = (i &&& mask) - last := by
      constructor
      · intro h
        bv_omega
      · intro h
        bv_omega
    simp only [coded, undelta, map_cons, cons.injEq, deltas, forall_mem_cons,
      ← kept_eq_iff]
    constructor
    · rintro ⟨h, hrest⟩
      rw [h] at hrest
      exact ⟨hhead.mp h, by simpa only [kept_eq_iff] using (ih _).mp hrest⟩
    · rintro ⟨h, hrest⟩
      have h' := hhead.mpr h
      rw [h']
      exact ⟨rfl, (ih _).mpr (by simpa only [kept_eq_iff] using hrest)⟩

theorem deltas_fit_of_lt {mask : BitVec 64} (hmask : ∀ i : BitVec 64, (i &&& mask).toNat < 2 ^ 61)
    {last : BitVec 64} (hlast : last.toNat < 2 ^ 61) (is : List FeatureIndex) :
    ∀ d ∈ deltas mask last is, DeltaFits d := by
  induction is generalizing last with
  | nil =>
    intro d hd
    cases hd
  | cons i is ih =>
    intro d hd
    rcases mem_cons.mp hd with rfl | hd
    · have hi := hmask i
      have hint := toInt_eq_toNat_cond ((i &&& mask) - last)
      rw [toNat_sub] at hint
      unfold DeltaFits
      omega
    · exact ih (hmask i) d hd

/-! ## The space that is reserved -/

/-- A value that takes four bytes of its own. -/
def is_general (v : Single) : Bool := v ≠ Single.one ∧ v ≠ Single.neg_one

theorem length_cache_feature_le (mask last : BitVec 64) (v : Single) (i : FeatureIndex) :
    (cache_feature mask last v i).length ≤ 11 + if is_general v then 4 else 0 := by
  have hint := length_variable_length_int_encode_le
  unfold cache_feature is_general
  by_cases hone : v = one
  · rw [if_pos hone]
    have := hint (zig_zag_encode ((i &&& mask) - last) <<< 2)
    omega
  rw [if_neg hone]
  by_cases hneg : v = neg_one
  · rw [if_pos hneg]
    have := hint (zig_zag_encode ((i &&& mask) - last) <<< 2 ||| NEG_ONE)
    omega
  · rw [if_neg hneg, length_append, v.length_bytes, if_pos (by simp [hone, hneg])]
    have := hint (zig_zag_encode ((i &&& mask) - last) <<< 2 ||| GENERAL)
    omega

theorem length_cache_features_loop_le (mask last : BitVec 64) (fs : List (Single × FeatureIndex)) :
    (cache_features_loop mask last fs).length
      ≤ 11 * fs.length + 4 * (fs.map Prod.fst).countP is_general := by
  induction fs generalizing last with
  | nil => simp [cache_features_loop]
  | cons p fs ih =>
    have hrest := ih (p.2 &&& mask)
    have hhead := length_cache_feature_le mask last p.1 p.2
    rw [cache_features_loop, length_append, length_cons, map_cons, countP_cons]
    split at hhead
    · rename_i h
      rw [if_pos h]
      omega
    · rename_i h
      rw [if_neg h]
      omega

theorem toNat_storage_loop (vs : List Single) (storage : BitVec 64)
    (h : storage.toNat + 4 * vs.length < 2 ^ 64) :
    (vs.foldl (fun storage feat =>
      if feat ≠ one ∧ feat ≠ neg_one then storage + 4 else storage) storage).toNat
      = storage.toNat + 4 * vs.countP is_general := by
  induction vs generalizing storage with
  | nil => simp
  | cons v vs ih =>
    rw [length_cons] at h
    rw [foldl_cons, countP_cons]
    by_cases hv : v ≠ one ∧ v ≠ neg_one
    · have hadd : (storage + 4).toNat = storage.toNat + 4 := by bv_omega
      rw [if_pos hv, ih _ (by omega), if_pos (by simpa [is_general] using hv)]
      omega
    · rw [if_neg hv, ih _ (by omega), if_neg (by simpa [is_general] using hv)]
      omega

/-- The reserved space, without overflow. -/
theorem toNat_cache_features_storage (feats : Features Single) (h : feats.Fits) :
    (cache_features_storage feats).toNat
      = 11 * feats.size + 4 * feats.values.countP is_general := by
  unfold Features.Fits at h
  have hsize : feats.size = feats.indices.length := feats.size_eq
  have hmul : (BitVec.ofNat 64 feats.size * INTS_SIZE).toNat = 11 * feats.size := by
    have hints : INTS_SIZE.toNat = 11 := rfl
    rw [toNat_mul, toNat_ofNat, hints]
    omega
  rw [cache_features_storage, toNat_storage_loop, hmul]
  rw [hmul]
  have : feats.values.length = feats.size := rfl
  omega

/-- `cache_features` stays within what it reserved. -/
theorem cache_features_eq (feats : Features Single) (h : feats.Fits) (mask : BitVec 64) :
    8 + (cache_features_loop mask 0 feats.items).length
        ≤ (cache_features_storage feats + 8).toNat ∧
    cache_features feats mask
      = .ok (le_bytes 8 (cache_features_loop mask 0 feats.items).length
          ++ cache_features_loop mask 0 feats.items) := by
  have hlen := length_cache_features_loop_le mask 0 feats.items
  have hstorage := toNat_cache_features_storage feats h
  have hcount : feats.values.countP is_general ≤ feats.values.length := countP_le_length
  have hsize : feats.values.length = feats.indices.length := feats.size_eq
  rw [feats.length_items, feats.map_fst_items] at hlen
  unfold Features.Fits at h
  unfold Features.size at hlen hstorage
  have hle : 8 + (cache_features_loop mask 0 feats.items).length
      ≤ (cache_features_storage feats + 8).toNat := by
    bv_omega
  constructor
  · exact hle
  · rw [cache_features, if_neg (by omega)]

end Cache

end VW
