import VowpalWabbit.Regressor.Header

/-! # What a header is written as

    The writer is described by the chunks that it passes through the buffer,
    each of which goes into the running hash. `Saves` collects what it needs:
    the strings stay inside `buff2`, and the counts are `uint32_t`.
-/

open Cpp Outcome.Returns

namespace VW.Regressor

open List Outcome Output

/-! ## The chunks of a header -/

/-- What `bin_write` makes of a string: its length, and the string. -/
def string_chunks (s : List Byte) : List (List Byte) := [le_bytes 4 s.length, s]

def version_chunks : List (List Byte) := string_chunks (text VERSION.to_string ++ [0])

def label_chunks (all : Workspace) : List (List Byte) :=
  [[109], all.min_label.bytes, all.max_label.bytes]

def gram_chunks (definitions : List (List Byte)) : List (List Byte) :=
  le_bytes 4 definitions.length :: definitions.map gram_slot

/-- The chunks between the version and the checksum. -/
def field_chunks (all : Workspace) (options : List Byte) : List (List Byte) :=
  string_chunks (all.id ++ [0]) ++ (label_chunks all ++ ([le_bytes 4 all.num_bits.toNat] ++
    ([le_bytes 4 all.lda.toNat] ++ (gram_chunks all.ngram_definitions ++
      (gram_chunks all.skip_definitions ++ string_chunks (options ++ [0]))))))

/-- The checksum of a header, from the state of the hash in front of it. -/
def header_checksum (all : Workspace) (options : List Byte) (verify : Bool) (hash : BitVec 32) :
    BitVec 32 :=
  chain_all true (chain_all verify hash version_chunks) (field_chunks all options)

/-- The bytes of a header up to the checksum. -/
def header_fields (all : Workspace) (options : List Byte) : List Byte :=
  version_chunks.flatten ++ (field_chunks all options).flatten

def checksum_field (checksum : BitVec 32) : List Byte :=
  (string_chunks (le_bytes 4 checksum.toNat)).flatten

/-! ## Writing -/

section Writing

theorem bin_write_returns {data rest : List Byte} (hlen : data.length < 2 ^ 32) (io : Output) :
    Outcome.Returns (bin_write (data ++ rest) data.length io) fun io' =>
      Wrote io io' (string_chunks data) := by
  unfold bin_write
  simp only [Nat.mod_eq_of_lt hlen]
  rw [if_neg (by rw [length_append]; omega), take_left]
  apply ok
  exact (wrote_bin_write_fixed _ io).trans (wrote_bin_write_fixed data _)

/-- A copy of all of the data. -/
theorem take_min_length (data : List Byte) {n : Nat} (h : data.length ≤ n) :
    data.take (min data.length n) = data := by
  rw [min_eq_left h, take_length]

variable {s : WriteState}

theorem write_version_returns (hbuff : s.buff2.length = DEFAULT_BUF_SIZE) :
    Outcome.Returns (write_version s) fun s' =>
      s'.io.written = s.io.written ++ version_chunks.flatten ∧ s'.io.verify_hash = true ∧
      s'.io.hash = chain_all s.io.verify_hash s.io.hash version_chunks ∧
      s'.buff2.length = DEFAULT_BUF_SIZE ∧ s'.all = { s.all with model_file_ver := VERSION } := by
  have hver : (text VERSION.to_string ++ [0]).length = 7 := by decide
  have hle : (text VERSION.to_string ++ [0]).length ≤ s.buff2.length := by
    rw [hbuff, hver]
    decide
  unfold write_version
  simp only
  rw [take_min_length _ hle]
  apply (bin_write_returns (by rw [hver]; decide) s.io).bind
  intro io hwrote
  have hparse : c_string (overwrite s.buff2 (text VERSION.to_string ++ [0])) =
      .ok (text VERSION.to_string) := by
    rw [overwrite, append_assoc]
    exact c_string_terminated _ _
  rw [hparse, ok_bind, from_string_VERSION, ok_bind]
  have hvalid : validate_version VERSION = .ok () := by decide
  have hge : VERSION.ge VERSION_FILE_WITH_HEADER_CHAINED_HASH = true := by decide
  rw [hvalid, ok_bind]
  simp only [hge, if_true]
  refine ok ⟨hwrote.written_eq, rfl, hwrote.hash_eq, ?_, rfl⟩
  rw [length_overwrite hle, hbuff]

theorem write_id_returns (hbuff : s.buff2.length = DEFAULT_BUF_SIZE)
    (hver : s.all.model_file_ver = VERSION) (hid : s.all.id.length < DEFAULT_BUF_SIZE) :
    Outcome.Returns (write_id s) fun s' =>
      Wrote s.io s'.io (string_chunks (s.all.id ++ [0])) ∧
      s'.buff2.length = DEFAULT_BUF_SIZE ∧
      s'.all = { s.all with id := s.all.id.takeWhile (· ≠ 0) } := by
  have hge : VERSION.ge VERSION_FILE_WITH_HEADER_ID = true := by decide
  have hlen : (s.all.id ++ [0]).length ≤ DEFAULT_BUF_SIZE := by
    rw [length_append, length_singleton]
    omega
  unfold write_id
  rw [hver, hge, if_pos rfl]
  simp only
  rw [take_min_length _ hlen]
  have hsmall : (s.all.id ++ [0]).length < 2 ^ 32 := by
    unfold DEFAULT_BUF_SIZE at hlen
    omega
  apply (bin_write_returns hsmall s.io).bind
  intro io hwrote
  have hstring : c_string (overwrite s.buff2 (s.all.id ++ [0])) =
      .ok (s.all.id.takeWhile (· ≠ 0)) := by
    rw [overwrite, append_assoc]
    exact c_string_terminated _ _
  rw [hstring, ok_bind]
  refine ok ⟨hwrote, ?_, by rw [hver]⟩
  rw [length_overwrite (by rw [hbuff]; exact hlen), hbuff]

theorem write_labels_wrote (s : WriteState) :
    Wrote s.io (write_labels s).io (label_chunks s.all) := by
  have hmodel := wrote_bin_write_fixed [109] s.io
  have hmin := wrote_bin_write_fixed s.all.min_label.bytes (s.io.bin_write_fixed [109])
  have hmax := wrote_bin_write_fixed s.all.max_label.bytes
    ((s.io.bin_write_fixed [109]).bin_write_fixed s.all.min_label.bytes)
  exact (hmodel.trans hmin).trans hmax

theorem write_bits_returns (hvalid : validate_num_bits s.all.sparse s.all.num_bits = .ok ()) :
    Outcome.Returns (write_bits s) fun s' =>
      Wrote s.io s'.io [le_bytes 4 s.all.num_bits.toNat] ∧ s'.buff2 = s.buff2 ∧
      s'.all = { s.all with default_bits := false } := by
  have hdefault : validate_default_bits s.all s.all.num_bits = .ok () := by
    rw [validate_default_bits, if_neg (fun h => h.2 rfl)]
  unfold write_bits
  simp only [write_uint32]
  rw [hdefault, hvalid]
  exact ok
    ⟨wrote_bin_write_fixed (le_bytes 4 s.all.num_bits.toNat) s.io, rfl, rfl⟩

theorem write_slots_wrote (definitions : List (List Byte)) (io : Output) :
    Wrote io
      (definitions.foldl (fun io definition => io.bin_write_fixed (gram_slot definition)) io)
      (definitions.map gram_slot) := by
  induction definitions generalizing io with
  | nil => exact ⟨(append_nil _).symm, rfl, rfl⟩
  | cons d ds ih => exact (wrote_bin_write_fixed _ io).trans (ih _)

theorem write_gram_definitions_wrote {definitions : List (List Byte)}
    (hlen : definitions.length < 2 ^ 32) (s : WriteState) :
    Wrote s.io (write_gram_definitions definitions s).io (gram_chunks definitions) := by
  have hcount : (BitVec.ofNat 32 definitions.length).toNat = definitions.length := by
    rw [BitVec.toNat_ofNat]
    exact Nat.mod_eq_of_lt hlen
  unfold write_gram_definitions write_uint32
  simp only [hcount, take_length]
  exact (wrote_bin_write_fixed _ s.io).trans (write_slots_wrote definitions _)

variable {options : List Byte}

theorem write_options_returns (hbuff : s.buff2.length = DEFAULT_BUF_SIZE)
    (hne : options.length ≠ DEFAULT_BUF_SIZE) (hlen : options.length + 1 < 2 ^ 32) :
    Outcome.Returns (write_options options s) fun s' =>
      Wrote s.io s'.io (string_chunks (options ++ [0])) ∧ s'.all = s.all := by
  unfold write_options
  simp only
  set buff2 := if s.buff2.length < options.length then
    s.buff2 ++ replicate (options.length + 1 - s.buff2.length) 0 else s.buff2 with hbuff2
  have hfit : options.length + 1 ≤ buff2.length := by
    rw [hbuff2]
    split
    · rw [length_append, length_replicate]
      omega
    · omega
  have hlength : (options ++ [0]).length = options.length + 1 := length_append
  rw [if_neg (by omega)]
  have hwrite := @bin_write_returns (options ++ [0]) (buff2.drop (options ++ [0]).length) (by omega) s.io
  rw [hlength] at hwrite
  unfold overwrite
  rw [hlength]
  apply hwrite.bind
  intro io hwrote
  exact ok ⟨hwrote, rfl⟩

/-- What a workspace needs so that its header can be written. -/
structure Saves (all : Workspace) (options : List Byte) : Prop where
  id_length : all.id.length < DEFAULT_BUF_SIZE
  bits : validate_num_bits all.sparse all.num_bits = .ok ()
  ngrams : all.ngram_definitions.length < 2 ^ 32
  skips : all.skip_definitions.length < 2 ^ 32
  options_ne : options.length ≠ DEFAULT_BUF_SIZE
  options_length : options.length < 104857600

variable {all : Workspace}

theorem write_fields_returns (h : Saves all options) (io : Output) :
    Outcome.Returns (write_fields options ⟨io, replicate DEFAULT_BUF_SIZE 0, all⟩) fun s =>
      s.io.written = io.written ++ header_fields all options ∧ s.io.verify_hash = true ∧
      s.io.hash = header_checksum all options io.verify_hash io.hash := by
  unfold write_fields
  apply (write_version_returns length_replicate).bind
  intro s₁ ⟨hwritten₁, hverify₁, hhash₁, hbuff₁, hall₁⟩
  have hid₁ : s₁.all.id.length < DEFAULT_BUF_SIZE := by
    rw [hall₁]
    exact h.id_length
  apply (write_id_returns hbuff₁ (by rw [hall₁]) hid₁).bind
  intro s₂ ⟨hwrote₂, hbuff₂, hall₂⟩
  simp only
  have hbits : validate_num_bits (write_labels s₂).all.sparse (write_labels s₂).all.num_bits
      = .ok () := by
    simp only [write_labels, hall₂, hall₁]
    exact h.bits
  apply (write_bits_returns hbits).bind
  intro s₃ ⟨hwrote₃, hbuff₃, hall₃⟩
  have hver₃ : s₃.all.model_file_ver = VERSION := by
    rw [hall₃]
    simp only [write_labels, hall₂, hall₁]
  -- The branches for older versions are not taken.
  have hlegacy : write_legacy_interactions s₃ = .ok s₃ := by
    rw [write_legacy_interactions, hver₃, if_neg (by decide)]
  have hrank : write_rank s₃ = s₃ := by
    rw [write_rank, hver₃, if_neg (by decide)]
  rw [hlegacy, ok_bind, hrank]
  set s₄ := write_uint32 s₃.all.lda s₃ with hs₄
  have hall₄ : s₄.all = { all with model_file_ver := VERSION
                                   id := all.id.takeWhile (· ≠ 0), default_bits := false } := by
    rw [hs₄]
    simp only [write_uint32, hall₃, write_labels, hall₂, hall₁]
  have hngrams : s₄.all.ngram_definitions = all.ngram_definitions := by
    rw [hall₄]
    rfl
  have hskips : (write_gram_definitions s₄.all.ngram_definitions s₄).all.skip_definitions
      = all.skip_definitions := by
    show s₄.all.skip_definitions = _
    rw [hall₄]
    rfl
  rw [hngrams] at hskips ⊢
  rw [hskips]
  have hwrote₄ : Wrote s₃.io s₄.io [le_bytes 4 all.lda.toNat] := by
    have := wrote_bin_write_fixed (le_bytes 4 s₃.all.lda.toNat) s₃.io
    rw [hall₃] at this
    simp only [write_labels, hall₂, hall₁] at this
    rw [hs₄, hall₃]
    simp only [write_labels, hall₂, hall₁]
    exact this
  have hwrote₅ := write_gram_definitions_wrote h.ngrams s₄
  have hwrote₆ := write_gram_definitions_wrote h.skips
    (write_gram_definitions all.ngram_definitions s₄)
  have hbuff₆ : (write_gram_definitions all.skip_definitions
      (write_gram_definitions all.ngram_definitions s₄)).buff2.length = DEFAULT_BUF_SIZE := by
    show s₃.buff2.length = _
    rw [hbuff₃]
    exact hbuff₂
  apply (write_options_returns hbuff₆ h.options_ne (by have := h.options_length; omega)).mono
  intro s₇ ⟨hwrote₇, _⟩
  have hlabels := write_labels_wrote s₂
  have hall := hwrote₂.trans (hlabels.trans (hwrote₃.trans (hwrote₄.trans (hwrote₅.trans
    (hwrote₆.trans hwrote₇)))))
  have hchunks : string_chunks (s₁.all.id ++ [0]) ++ (label_chunks s₂.all ++
      ([le_bytes 4 (write_labels s₂).all.num_bits.toNat] ++ ([le_bytes 4 all.lda.toNat] ++
        (gram_chunks all.ngram_definitions ++ (gram_chunks all.skip_definitions ++
          string_chunks (options ++ [0])))))) = field_chunks all options := by
    simp only [write_labels, label_chunks, hall₂, hall₁, field_chunks]
  rw [hchunks] at hall
  refine ⟨?_, hall.verify_hash_eq.trans hverify₁, ?_⟩
  · rw [hall.written_eq, hwritten₁, header_fields, append_assoc]
  · rw [hall.hash_eq, hverify₁, hhash₁, header_checksum]

/-- The bytes of a header; the checksum depends on the hash in front of it. -/
def header (all : Workspace) (options : List Byte) (verify : Bool) (hash : BitVec 32) : List Byte :=
  header_fields all options ++ checksum_field (header_checksum all options verify hash)

theorem write_header_returns (h : Saves all options) (io : Output) :
    Outcome.Returns (write_header all options io) fun r =>
      r.2.written = io.written ++ header all options io.verify_hash io.hash := by
  unfold write_header
  apply (write_fields_returns h io).bind
  intro s ⟨hwritten, hverify, hhash⟩
  unfold write_checksum
  rw [checked_hash, hverify, if_pos rfl, ok_bind]
  have hwrite := @bin_write_returns (le_bytes 4 s.io.hash.toNat) [] (by rw [length_le_bytes]; decide) s.io
  rw [append_nil, length_le_bytes] at hwrite
  obtain ⟨io', hio', hwrote⟩ := hwrite
  rw [hio', ok_bind]
  apply ok
  show io'.written = _
  rw [hwrote.written_eq, hwritten, hhash, header, checksum_field, append_assoc]

end Writing

end VW.Regressor
