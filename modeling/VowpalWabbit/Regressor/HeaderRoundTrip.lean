import VowpalWabbit.Regressor.HeaderChunks
import VowpalWabbit.IoBuf.Runs

/-! # The header of a model is read back

    The reader passes the chunks of the writer through its own buffer, in the
    same order, so that the running hashes agree. One lemma for each field says
    what it makes of the chunk; the branches for older versions are not taken.
-/

open Cpp Outcome.Returns

namespace VW.Regressor

open List Outcome IoBuf

/-! ## Reading -/

section Reading

variable {A : Allocator} {s : ReadState}

/-- The state after the chunks have been read, with what it then holds. -/
structure Advances (A : Allocator) (s s' : ReadState) (chunks : List (List Byte))
    (rest : List Byte) (all : Workspace) (file_options : List Byte) : Prop where
  reads : ReadsAll A s.io s'.io chunks rest
  all_eq : s'.all = all
  file_options_eq : s'.file_options = file_options
  buff2_length : s'.buff2.length = s.buff2.length

variable {rest file_options : List Byte} {chunks : List (List Byte)} {all : Workspace}
  {s' : ReadState}

theorem Advances.wf (h : Advances A s s' chunks rest all file_options) : s'.io.Wf A := h.reads.wf

theorem Advances.stream_eq (h : Advances A s s' chunks rest all file_options) :
    s'.io.stream = rest := h.reads.stream_eq

variable {io : IoBuf} {data : List Byte}

theorem read_into_returns (hb : io.Wf A) {bs : List Byte} {len : Nat} (hlen : bs.length = len)
    (hmem : A.Provides (2 * len)) (hstream : io.stream = bs ++ rest) (hfit : len ≤ data.length) :
    Outcome.Returns (read_into A data len io) fun r =>
      r.1 = len ∧ r.2.1 = overwrite data bs ∧ ReadsAll A io r.2.2 [bs] rest := by
  apply (bin_read_fixed_returns hb hmem hlen hstream).bind
  intro (bs', io') ⟨hbs, hreads⟩
  simp only at hbs hreads
  subst hbs
  simp only
  rw [if_neg (by omega)]
  exact ok ⟨hlen, rfl, hreads.all⟩

theorem read_validated_returns {io : IoBuf} (hb : io.Wf A) {data bs rest : List Byte} {len : Nat}
    (hlen : bs.length = len) (hpos : 0 < len) (hmem : A.Provides (2 * len))
    (hstream : io.stream = bs ++ rest) (hfit : len ≤ data.length) :
    Outcome.Returns (read_validated A data len io) fun r =>
      r.2.1 = overwrite data bs ∧ ReadsAll A io r.2.2 [bs] rest := by
  apply (read_into_returns hb hlen hmem hstream hfit).bind
  intro (n, data', io') ⟨hn, hdata, hreads⟩
  simp only at hn hdata hreads ⊢
  rw [if_neg (by omega)]
  exact ok ⟨hdata, hreads⟩

theorem overwrite_all {memory : List Byte} (h : data.length = memory.length) :
    overwrite memory data = data := by
  rw [overwrite, h, drop_length, append_nil]

theorem bin_read_returns (hb : io.Wf A) {str : List Byte} {len : Nat} (hlen : str.length ≤ len)
    (hsmall : str.length < 2 ^ 32) (hmem : A.Provides (2 * (4 + str.length)))
    (hstream : io.stream = (string_chunks str).flatten ++ rest) (hfit : str.length ≤ data.length) :
    Outcome.Returns (bin_read A data len io) fun r =>
      r.2.1 = overwrite data str ∧ ReadsAll A io r.2.2 (string_chunks str) rest := by
  have hflat : (string_chunks str).flatten = le_bytes 4 str.length ++ str := by
    simp [string_chunks]
  rw [hflat, append_assoc] at hstream
  apply (read_into_returns hb (length_le_bytes 4 _) (hmem.mono (by omega)) hstream (by simp)).bind
  intro (ret, obj_len, io₁) ⟨hret, hobj, hreads₁⟩
  simp only at hret hobj hreads₁ ⊢
  have hvalue : of_le_bytes obj_len = str.length := by
    rw [hobj, overwrite_all (length_le_bytes 4 _)]
    exact of_le_bytes_le_bytes 4 _ hsmall
  rw [hvalue, if_neg (by omega)]
  apply (read_into_returns hreads₁.wf rfl (hmem.mono (by omega)) hreads₁.stream_eq hfit).bind
  intro (n, data', io₂) ⟨_, hdata, hreads₂⟩
  exact ok ⟨hdata, hreads₁.trans hreads₂⟩

theorem read_uint32_returns (hb : s.io.Wf A) (hmem : A.Provides (2 * 4)) (var v : BitVec 32)
    (hstream : s.io.stream = le_bytes 4 v.toNat ++ rest) :
    Outcome.Returns (read_uint32 A var s) fun r =>
      r.1 = v ∧ Advances A s r.2 [le_bytes 4 v.toNat] rest s.all s.file_options := by
  apply (read_validated_returns hb (length_le_bytes 4 _) (by decide) hmem hstream
    (by rw [length_le_bytes])).bind
  intro (n, data, io) ⟨hdata, hreads⟩
  refine ok ⟨?_, hreads, rfl, rfl, rfl⟩
  simp only at hdata ⊢
  rw [hdata, overwrite_all (by rw [length_le_bytes, length_le_bytes]),
    of_le_bytes_le_bytes 4 _ v.isLt, BitVec.ofNat_toNat, BitVec.setWidth_eq]

theorem read_float_returns (hb : s.io.Wf A) (hmem : A.Provides (2 * 4)) (var v : Single)
    (hstream : s.io.stream = v.bytes ++ rest) :
    Outcome.Returns (read_float A var s) fun r =>
      r.1 = v ∧ Advances A s r.2 [v.bytes] rest s.all s.file_options := by
  apply (read_uint32_returns hb hmem var.bits v.bits hstream).bind
  intro (bits, s') ⟨hbits, hadv⟩
  exact ok ⟨congrArg Single.mk hbits, hadv⟩

/-- The version switches the hash on. -/
theorem read_version_returns (hb : s.io.Wf A) (hbuff : s.buff2.length = DEFAULT_BUF_SIZE)
    (hmem : A.Provides (2 * 11)) (hstream : s.io.stream = version_chunks.flatten ++ rest) :
    Outcome.Returns (read_version A s) fun s' =>
      s'.io.Wf A ∧ s'.io.stream = rest ∧ s'.io.verify_hash = true ∧
      s'.io.hash = chain_all s.io.verify_hash s.io.hash version_chunks ∧
      s'.buff2.length = DEFAULT_BUF_SIZE ∧ s'.file_options = s.file_options ∧
      s'.all = { s.all with model_file_ver := VERSION } := by
  have hver : (text VERSION.to_string ++ [0]).length = 7 := by decide
  have hle : (text VERSION.to_string ++ [0]).length ≤ s.buff2.length := by
    rw [hbuff, hver]
    decide
  unfold read_version
  simp only
  rw [take_min_length _ hle]
  have hlen : ((overwrite s.buff2 (text VERSION.to_string ++ [0])).set
      (min (overwrite s.buff2 (text VERSION.to_string ++ [0])).length DEFAULT_BUF_SIZE - 1)
        0).length = DEFAULT_BUF_SIZE := by
    rw [length_set, length_overwrite hle, hbuff]
  apply (bin_read_returns hb (by rw [length_overwrite hle]; exact hle) (by rw [hver]; decide)
    (by rw [hver]; exact hmem) hstream (by rw [hlen, hver]; decide)).bind
  intro (n, buff2, io) ⟨hbuff2, hreads⟩
  simp only at hbuff2 hreads ⊢
  have hparse : c_string buff2 = .ok (text VERSION.to_string) := by
    rw [hbuff2, overwrite, append_assoc]
    exact c_string_terminated _ _
  have hvalid : validate_version VERSION = .ok () := by decide
  have hge : VERSION.ge VERSION_FILE_WITH_HEADER_CHAINED_HASH = true := by decide
  rw [hparse, ok_bind, from_string_VERSION, ok_bind, hvalid, ok_bind]
  simp only [hge, if_true]
  refine ok ⟨?_, hreads.stream_eq, rfl, hreads.hash_eq, ?_, rfl, rfl⟩
  · obtain ⟨h1, h2, h3, h4, h5, h6⟩ := hreads.wf
    exact ⟨h1, h2, h3, h4, h5, h6⟩
  · rw [hbuff2, length_overwrite (by rw [hlen, hver]; decide), hlen]

/-- What an id adds to the options. -/
def id_option (was_supplied : String → Bool) (id : List Byte) : List Byte :=
  if !was_supplied "id" && !id.isEmpty then text " --id" ++ text " " ++ id else []

theorem read_id_returns (was_supplied : String → Bool) (hb : s.io.Wf A)
    (hbuff : s.buff2.length = DEFAULT_BUF_SIZE) (hver : s.all.model_file_ver = VERSION)
    {id : List Byte} (hid : id.length < DEFAULT_BUF_SIZE)
    (hmem : A.Provides (2 * (5 + id.length)))
    (hstream : s.io.stream = (string_chunks (id ++ [0])).flatten ++ rest) :
    Outcome.Returns (read_id A was_supplied s) fun s' =>
      Advances A s s' (string_chunks (id ++ [0])) rest
        { s.all with id := id.takeWhile (· ≠ 0) }
        (s.file_options ++ id_option was_supplied (id.takeWhile (· ≠ 0))) := by
  have hge : VERSION.ge VERSION_FILE_WITH_HEADER_ID = true := by decide
  have hlength : (id ++ [0]).length = id.length + 1 := length_append
  unfold read_id
  rw [hver, hge, if_pos rfl]
  simp only
  set buff2 := overwrite s.buff2
    ((s.all.id ++ [0]).take (min (s.all.id ++ [0]).length DEFAULT_BUF_SIZE)) with hbuff2
  have hlen : buff2.length = DEFAULT_BUF_SIZE := by
    rw [hbuff2, length_overwrite, hbuff]
    rw [length_take, hbuff]
    omega
  have hsmall : (id ++ [0]).length < 2 ^ 32 := by
    unfold DEFAULT_BUF_SIZE at hid
    omega
  apply (bin_read_returns hb (by omega) hsmall (hmem.mono (by omega)) hstream (by omega)).bind
  intro (n, buff2', io) ⟨hbuff2', hreads⟩
  simp only at hbuff2' hreads ⊢
  have hstring : c_string buff2' = .ok (id.takeWhile (· ≠ 0)) := by
    rw [hbuff2', overwrite, append_assoc]
    exact c_string_terminated _ _
  rw [hstring, ok_bind]
  refine ok ⟨hreads, by rw [hver], ?_, ?_⟩
  · show (if _ then _ else _) = _
    unfold id_option
    split
    · simp only [append_assoc]
    · rw [append_nil]
  · rw [hbuff2', length_overwrite (by omega), hlen, hbuff]

theorem read_labels_returns (hb : s.io.Wf A) (hmem : A.Provides (2 * 4)) (all : Workspace)
    (hstream : s.io.stream = (label_chunks all).flatten ++ rest) :
    Outcome.Returns (read_labels A s) fun s' =>
      Advances A s s' (label_chunks all) rest
        { s.all with min_label := all.min_label, max_label := all.max_label } s.file_options := by
  have hflat : (label_chunks all).flatten = [109] ++ (all.min_label.bytes ++ all.max_label.bytes) := by
    simp [label_chunks]
  rw [hflat, append_assoc, append_assoc] at hstream
  unfold read_labels
  apply (@read_validated_returns _ _ hb _ _ _ 1 rfl (by decide) (hmem.mono (by decide)) hstream
    (by decide)).bind
  intro r hr
  obtain ⟨n, model, io⟩ := r
  obtain ⟨hmodel, hreads⟩ := hr
  simp only at hmodel hreads ⊢
  rw [overwrite_all rfl] at hmodel
  rw [if_neg (not_not.mpr hmodel)]
  apply (read_float_returns hreads.wf hmem _ all.min_label hreads.stream_eq).bind
  intro r hr
  obtain ⟨min_label, s₁⟩ := r
  obtain ⟨hmin, hadv₁⟩ := hr
  simp only at hmin hadv₁ ⊢
  subst hmin
  apply (read_float_returns (s := { s₁ with all := { s₁.all with min_label := all.min_label } })
    hadv₁.wf hmem _ all.max_label hadv₁.stream_eq).bind
  intro r hr
  obtain ⟨max_label, s₂⟩ := r
  obtain ⟨hmax, hadv₂⟩ := hr
  simp only at hmax hadv₂ ⊢
  subst hmax
  refine ok ⟨hreads.trans (hadv₁.reads.trans hadv₂.reads), ?_, ?_, ?_⟩
  · show { s₂.all with max_label := all.max_label } = _
    rw [hadv₂.all_eq, hadv₁.all_eq]
  · show s₂.file_options = _
    rw [hadv₂.file_options_eq]
    exact hadv₁.file_options_eq
  · show s₂.buff2.length = _
    rw [hadv₂.buff2_length]
    exact hadv₁.buff2_length

/-- What the number of bits adds to the options. -/
def bits_option (was_supplied : String → Bool) (num_bits : BitVec 32) : List Byte :=
  if !was_supplied "bit_precision" then
    text " --bit_precision" ++ text " " ++ text (toString num_bits.toNat)
  else []

theorem read_bits_returns (was_supplied : String → Bool) (hb : s.io.Wf A)
    (hmem : A.Provides (2 * 4)) {num_bits : BitVec 32}
    (hdefault : s.all.default_bits = true ∨ s.all.num_bits = num_bits)
    (hvalid : validate_num_bits s.all.sparse num_bits = .ok ())
    (hstream : s.io.stream = [le_bytes 4 num_bits.toNat].flatten ++ rest) :
    Outcome.Returns (read_bits A was_supplied s) fun s' =>
      Advances A s s' [le_bytes 4 num_bits.toNat] rest
        { s.all with default_bits := false, num_bits := num_bits }
        (s.file_options ++ bits_option was_supplied num_bits) := by
  rw [flatten_singleton] at hstream
  unfold read_bits
  apply (read_uint32_returns hb hmem _ num_bits hstream).bind
  intro (local_num_bits, s₁) ⟨hbits, hadv⟩
  simp only at hbits hadv ⊢
  subst hbits
  have hok : validate_default_bits s₁.all local_num_bits = .ok () := by
    rw [hadv.all_eq, validate_default_bits, if_neg]
    rintro ⟨hno, hne⟩
    rcases hdefault with hyes | heq
    · exact hno hyes
    · exact hne heq
  rw [hok, ok_bind]
  rw [hadv.all_eq, hvalid, ok_bind]
  refine ok ⟨hadv.reads, rfl, ?_, hadv.buff2_length⟩
  rw [hadv.file_options_eq]
  unfold bits_option
  split
  · simp only [append_assoc]
  · rw [append_nil]

theorem read_lda_returns (hb : s.io.Wf A) (hmem : A.Provides (2 * 4)) {lda : BitVec 32}
    (hstream : s.io.stream = [le_bytes 4 lda.toNat].flatten ++ rest) :
    Outcome.Returns (read_lda A s) fun s' =>
      Advances A s s' [le_bytes 4 lda.toNat] rest { s.all with lda := lda } s.file_options := by
  rw [flatten_singleton] at hstream
  apply (read_uint32_returns hb hmem _ lda hstream).bind
  intro (lda', s₁) ⟨hlda, hadv⟩
  simp only at hlda hadv ⊢
  subst hlda
  refine ok ⟨hadv.reads, ?_, hadv.file_options_eq, hadv.buff2_length⟩
  rw [hadv.all_eq]

/-- A slot holds three bytes of the definition, and zeros. -/
theorem gram_slot_spec (d : List Byte) :
    (gram_slot d).length = 3 ∧ ∃ rest, gram_slot d ++ [0] = d.take 3 ++ 0 :: rest := by
  match d with
  | [] => exact ⟨rfl, [0, 0, 0], rfl⟩
  | [a] => exact ⟨rfl, [0, 0], rfl⟩
  | [a, b] => exact ⟨rfl, [0], rfl⟩
  | [a, b, c] => exact ⟨rfl, [], rfl⟩
  | a :: b :: c :: d :: ds =>
    have hmin : min 3 (a :: b :: c :: d :: ds).length = 3 := by
      simp only [length_cons]
      omega
    have hslot : gram_slot (a :: b :: c :: d :: ds) = [a, b, c] := by
      rw [gram_slot, hmin]
      rfl
    rw [hslot]
    exact ⟨rfl, [], rfl⟩

/-- What definitions add to the options: of each its first three bytes. -/
def gram_options (name : String) (definitions : List (List Byte)) : List Byte :=
  definitions.flatMap fun d => text name ++ text " " ++ (d.take 3).takeWhile (· ≠ 0)

theorem read_grams_returns (name : String) (hmem : A.Provides (2 * 3))
    (definitions : List (List Byte)) :
    ∀ (s : ReadState) (rest : List Byte), s.io.Wf A →
      s.io.stream = (definitions.map gram_slot).flatten ++ rest →
      Outcome.Returns (read_grams A name definitions.length s) fun s' =>
        Advances A s s' (definitions.map gram_slot) rest s.all
          (s.file_options ++ gram_options name definitions) := by
  induction definitions with
  | nil =>
    intro s rest hb hstream
    refine ok ⟨?_, rfl, (append_nil _).symm, rfl⟩
    rw [show rest = s.io.stream from hstream.symm]
    exact ReadsAll.refl hb
  | cons d ds ih =>
    intro s rest hb hstream
    obtain ⟨hlen, zeros, hslot⟩ := gram_slot_spec d
    rw [map_cons, flatten_cons, append_assoc] at hstream
    unfold read_grams
    apply (read_validated_returns hb hlen (by decide) hmem hstream (by decide)).bind
    intro (n, gram, io) ⟨hgram, hreads⟩
    simp only at hgram hreads ⊢
    have hstring : c_string gram = .ok ((d.take 3).takeWhile (· ≠ 0)) := by
      have hdrop : ([0, 0, 0, 0] : List Byte).drop (gram_slot d).length = [0] := by
        rw [hlen]
        rfl
      rw [hgram, overwrite, hdrop, hslot]
      exact c_string_terminated _ _
    rw [hstring, ok_bind]
    apply (ih _ rest hreads.wf hreads.stream_eq).mono
    intro s' hadv
    refine ⟨hreads.trans hadv.reads, hadv.all_eq, ?_, hadv.buff2_length⟩
    rw [hadv.file_options_eq, gram_options, gram_options, flatMap_cons]
    simp only [append_assoc]

theorem read_gram_definitions_returns (name : String) (hmem : A.Provides (2 * 4))
    {definitions : List (List Byte)} (old : List (List Byte)) (hlen : definitions.length < 2 ^ 32)
    (hb : s.io.Wf A) (hstream : s.io.stream = (gram_chunks definitions).flatten ++ rest) :
    Outcome.Returns (read_gram_definitions A name old s) fun s' =>
      Advances A s s' (gram_chunks definitions) rest s.all
        (s.file_options ++ gram_options name definitions) := by
  have hcount : (BitVec.ofNat 32 definitions.length).toNat = definitions.length := by
    rw [BitVec.toNat_ofNat]
    exact Nat.mod_eq_of_lt hlen
  rw [gram_chunks, flatten_cons, append_assoc, ← hcount] at hstream
  apply (read_uint32_returns hb hmem _ _ hstream).bind
  intro (len, s₁) ⟨hlen, hadv₁⟩
  simp only at hlen hadv₁ ⊢
  rw [hlen, hcount]
  apply (read_grams_returns name (hmem.mono (by decide)) definitions s₁ rest hadv₁.wf
    hadv₁.stream_eq).mono
  intro s₂ hadv₂
  refine ⟨?_, hadv₂.all_eq.trans hadv₁.all_eq, ?_, hadv₂.buff2_length.trans hadv₁.buff2_length⟩
  · have := hadv₁.reads.trans hadv₂.reads
    rw [hcount] at this
    exact this
  · rw [hadv₂.file_options_eq, hadv₁.file_options_eq]

variable {options : List Byte}

/-- The options may be longer than the buffer, which then grows. -/
theorem read_options_returns (hb : s.io.Wf A) (hlen : options.length < 104857600)
    (hmem : A.Provides (2 * (5 + options.length)))
    (hstream : s.io.stream = (string_chunks (options ++ [0])).flatten ++ rest) :
    Outcome.Returns (read_options A s) fun s' =>
      ReadsAll A s.io s'.io (string_chunks (options ++ [0])) rest ∧ s'.all = s.all ∧
      s'.file_options = s.file_options ++ (text " " ++ options.takeWhile (· ≠ 0)) := by
  have hlength : (options ++ [0]).length = options.length + 1 := length_append
  have hflat : (string_chunks (options ++ [0])).flatten
      = le_bytes 4 (options.length + 1) ++ (options ++ [0]) := by
    simp [string_chunks]
  rw [hflat, append_assoc] at hstream
  unfold read_options
  apply (read_into_returns hb (length_le_bytes 4 _) (hmem.mono (by omega)) hstream (by simp)).bind
  intro (ret, len, io) ⟨hret, hlen', hreads₁⟩
  simp only at hret hlen' hreads₁ ⊢
  have hvalue : of_le_bytes len = options.length + 1 := by
    rw [hlen', overwrite_all (length_le_bytes 4 _)]
    exact of_le_bytes_le_bytes 4 _ (by omega)
  rw [hvalue, if_neg (by omega)]
  set buff2 := if s.buff2.length < options.length + 1 then
    s.buff2 ++ replicate (options.length + 1 - s.buff2.length) 0 else s.buff2 with hbuff2
  have hfit : options.length + 1 ≤ buff2.length := by
    rw [hbuff2]
    split
    · rw [length_append, length_replicate]
      omega
    · omega
  apply (read_into_returns hreads₁.wf hlength (hmem.mono (by omega)) hreads₁.stream_eq hfit).bind
  intro (n, buff2', io') ⟨_, hbuff2', hreads₂⟩
  simp only at hbuff2' hreads₂ ⊢
  have hstring : c_string buff2' = .ok (options.takeWhile (· ≠ 0)) := by
    rw [hbuff2', overwrite, append_assoc]
    exact c_string_terminated _ _
  rw [if_pos (Nat.succ_pos _), hstring, ok_bind]
  refine ok ⟨?_, rfl, ?_⟩
  · have := hreads₁.trans hreads₂
    rw [← hlength] at this
    exact this
  · show s.file_options ++ text " " ++ _ = _
    rw [append_assoc]

/-- A workspace that does not insist on another number of bits. -/
structure Accepts (reader all : Workspace) : Prop where
  default_bits : reader.default_bits = true ∨ reader.num_bits = all.num_bits
  bits : validate_num_bits reader.sparse all.num_bits = .ok ()

/-- The workspace after the header has been read into it. -/
def restored (reader all : Workspace) : Workspace :=
  { reader with model_file_ver := VERSION, id := all.id.takeWhile (· ≠ 0)
                min_label := all.min_label, max_label := all.max_label, default_bits := false
                num_bits := all.num_bits, lda := all.lda }

/-- The options that the header adds to those of the caller. -/
def restored_options (was_supplied : String → Bool) (all : Workspace) (options : List Byte) :
    List Byte :=
  id_option was_supplied (all.id.takeWhile (· ≠ 0)) ++ (bits_option was_supplied all.num_bits ++
    (gram_options " --ngram" all.ngram_definitions ++
      (gram_options " --skips" all.skip_definitions ++
        (text " " ++ options.takeWhile (· ≠ 0)))))

theorem read_fields_returns (was_supplied : String → Bool) {reader : Workspace}
    (h : Saves all options) (hreader : Accepts reader all) (hb : io.Wf A)
    (hmem : A.Provides (2 * (11 + all.id.length + options.length)))
    (hstream : io.stream = header_fields all options ++ rest) :
    Outcome.Returns (read_fields A was_supplied
        ⟨io, replicate DEFAULT_BUF_SIZE 0, 0, reader, file_options⟩) fun s =>
      s.io.Wf A ∧ s.io.stream = rest ∧ s.io.verify_hash = true ∧
      s.io.hash = header_checksum all options io.verify_hash io.hash ∧
      s.all = restored reader all ∧
      s.file_options = file_options ++ restored_options was_supplied all options := by
  have hmem4 : A.Provides (2 * 4) := hmem.mono (by omega)
  simp only [header_fields, field_chunks, flatten_append, append_assoc] at hstream
  unfold read_fields
  apply (read_version_returns hb length_replicate (hmem.mono (by omega)) hstream).bind
  intro s₁ h₁
  obtain ⟨hwf₁, hstream₁, hverify₁, hhash₁, hbuff₁, hopts₁, hall₁⟩ := h₁
  apply (read_id_returns was_supplied hwf₁ hbuff₁ (by rw [hall₁]) h.id_length
    (hmem.mono (by omega)) hstream₁).bind
  intro s₂ h₂
  apply (read_labels_returns h₂.wf hmem4 all h₂.stream_eq).bind
  intro s₃ h₃
  have hdefault : s₃.all.default_bits = true ∨ s₃.all.num_bits = all.num_bits := by
    rw [h₃.all_eq, h₂.all_eq, hall₁]
    exact hreader.default_bits
  have hbits : validate_num_bits s₃.all.sparse all.num_bits = .ok () := by
    rw [h₃.all_eq, h₂.all_eq, hall₁]
    exact hreader.bits
  apply (read_bits_returns was_supplied h₃.wf hmem4 hdefault hbits h₃.stream_eq).bind
  intro s₄ h₄
  have hver₄ : s₄.all.model_file_ver = VERSION := by
    rw [h₄.all_eq, h₃.all_eq, h₂.all_eq, hall₁]
  -- The branches for older versions are not taken.
  have hlegacy : read_legacy_interactions A s₄ = .ok s₄ := by
    rw [read_legacy_interactions, hver₄, if_neg (by decide)]
  have hrank : read_rank A was_supplied s₄ = .ok s₄ := by
    rw [read_rank, hver₄, if_neg (by decide)]
  rw [hlegacy, ok_bind, hrank, ok_bind]
  apply (read_lda_returns h₄.wf hmem4 h₄.stream_eq).bind
  intro s₅ h₅
  apply (read_gram_definitions_returns " --ngram" hmem4 _ h.ngrams h₅.wf h₅.stream_eq).bind
  intro s₆ h₆
  apply (read_gram_definitions_returns " --skips" hmem4 _ h.skips h₆.wf h₆.stream_eq).bind
  intro s₇ h₇
  apply (read_options_returns h₇.wf h.options_length (hmem.mono (by omega)) h₇.stream_eq).mono
  intro s₈ h₈
  obtain ⟨hreads₈, hall₈, hopts₈⟩ := h₈
  have hreads := h₂.reads.trans (h₃.reads.trans (h₄.reads.trans (h₅.reads.trans
    (h₆.reads.trans (h₇.reads.trans hreads₈)))))
  refine ⟨hreads.wf, hreads.stream_eq, hreads.verify_hash_eq.trans hverify₁, ?_, ?_, ?_⟩
  · rw [hreads.hash_eq, hverify₁, hhash₁, header_checksum, field_chunks]
  · rw [hall₈, h₇.all_eq, h₆.all_eq, h₅.all_eq, h₄.all_eq, h₃.all_eq, h₂.all_eq, hall₁, restored]
  · rw [hopts₈, h₇.file_options_eq, h₆.file_options_eq, h₅.file_options_eq, h₄.file_options_eq,
      h₃.file_options_eq, h₂.file_options_eq, hopts₁]
    simp only [restored_options, append_assoc]

/-- The chained hash is the checksum. -/
theorem check_sum_read_chained (hver : s.all.model_file_ver = VERSION)
    (hverify : s.io.verify_hash = true) : check_sum_read s = .ok s.io.hash := by
  have hchained : VERSION.ge VERSION_FILE_WITH_HEADER_CHAINED_HASH = true := by decide
  rw [check_sum_read, hver, hchained, if_pos rfl, checked_hash, hverify, if_pos rfl]

theorem read_checksum_returns (hb : s.io.Wf A) (hver : s.all.model_file_ver = VERSION)
    (hverify : s.io.verify_hash = true) (hmem : A.Provides (2 * 8))
    (hstream : s.io.stream = checksum_field s.io.hash ++ rest) :
    Outcome.Returns (read_checksum A s) fun s' =>
      s'.all = s.all ∧ s'.file_options = s.file_options ∧ s'.io.Wf A ∧ s'.io.stream = rest := by
  have hhash : VERSION.ge VERSION_FILE_WITH_HEADER_HASH = true := by decide
  have hsum := check_sum_read_chained hver hverify
  have hlen : (le_bytes 4 s.io.hash.toNat).length = 4 := length_le_bytes 4 _
  unfold read_checksum
  rw [hver, hhash, if_pos rfl, hsum, ok_bind]
  apply (bin_read_returns hb (by omega) (by omega) (by rw [hlen]; exact hmem) hstream
    (le_refl _)).bind
  intro (n, check_sum, io) ⟨hdata, hreads⟩
  simp only at hdata hreads ⊢
  have hvalue : BitVec.ofNat 32 (of_le_bytes check_sum) = s.io.hash := by
    rw [hdata, overwrite_all rfl, of_le_bytes_le_bytes 4 _ s.io.hash.isLt, BitVec.ofNat_toNat,
      BitVec.setWidth_eq]
  rw [hvalue, if_neg (not_not.mpr rfl)]
  exact ok ⟨rfl, rfl, hreads.wf, hreads.stream_eq⟩

theorem length_header_le (all : Workspace) (options : List Byte) (verify : Bool)
    (hash : BitVec 32) :
    11 + all.id.length + options.length ≤ (header all options verify hash).length := by
  have hversion : version_chunks.flatten.length = 11 := by decide
  rw [header, header_fields, length_append, length_append, hversion, field_chunks]
  simp only [flatten_append, length_append, string_chunks, flatten_cons,
    flatten_nil, length_nil, length_le_bytes]
  omega

/-- `read_header` on the bytes of a header. -/
theorem read_header_returns (was_supplied : String → Bool) {all reader : Workspace}
    {options rest : List Byte} (file_options : List Byte) (h : Saves all options)
    (hreader : Accepts reader all) {io : IoBuf} (hb : io.Wf A) (hfiles : 0 < io.input_files.length)
    (hmem : A.Provides (2 * (header all options io.verify_hash io.hash).length))
    (hstream : io.stream = header all options io.verify_hash io.hash ++ rest) :
    Outcome.Returns (read_header A was_supplied reader file_options io) fun r =>
      r.1 = restored reader all ∧
      r.2.1 = file_options ++ restored_options was_supplied all options ∧
      r.2.2.Wf A ∧ r.2.2.stream = rest := by
  have hlen := length_header_le all options io.verify_hash io.hash
  rw [header, append_assoc] at hstream
  unfold read_header
  rw [if_pos hfiles]
  apply (read_fields_returns was_supplied h hreader hb (hmem.mono (by omega)) hstream).bind
  intro s hs
  obtain ⟨hwf, hrest, hverify, hhash, hall, hopts⟩ := hs
  have hver : s.all.model_file_ver = VERSION := by
    rw [hall]
    rfl
  apply (read_checksum_returns hwf hver hverify (hmem.mono (by omega))
    (by rw [hrest, hhash])).bind
  intro s' hs'
  obtain ⟨hall', hopts', hwf', hrest'⟩ := hs'
  refine ok ⟨hall'.trans hall, hopts'.trans hopts, ?_, ?_⟩
  · show (end_of_header s').Wf A
    unfold end_of_header
    split
    · exact ⟨hwf'.ordered, hwf'.mem_length, hwf'.capacity_pos, hwf'.fits, hwf'.aligned,
        hwf'.faithful⟩
    · exact hwf'
  · show (end_of_header s').stream = rest
    unfold end_of_header
    split
    · exact hrest'
    · exact hrest'

end Reading

/-! ## The round trip -/

theorem length_checksum_field (checksum : BitVec 32) : (checksum_field checksum).length = 8 := by
  simp [checksum_field, string_chunks]

/-- A header that is written, and then read by another workspace from whatever
    buffer: the checksum of what is read is the one that is stored, the fields
    come back, and the reader ends where the header does. -/
theorem header_round_trip {all : Workspace} {options : List Byte} (h : Saves all options)
    (o : Output) :
    ∃ all' o', write_header all options o = .ok (all', o') ∧
      o'.written = o.written ++ header all options o.verify_hash o.hash ∧
      ∀ (A : Allocator) (was_supplied : String → Bool) (reader : Workspace)
        (file_options : List Byte) (io : IoBuf) (rest : List Byte), Accepts reader all →
        io.Wf A → 0 < io.input_files.length → io.verify_hash = o.verify_hash → io.hash = o.hash →
        io.stream = header all options o.verify_hash o.hash ++ rest →
        A.Provides (2 * (header all options o.verify_hash o.hash).length) →
        (Outcome.Returns (read_fields A was_supplied
            ⟨io, replicate DEFAULT_BUF_SIZE 0, 0, reader, file_options⟩) fun s =>
          ∃ checksum, check_sum_read s = .ok checksum ∧
            s.io.stream = checksum_field checksum ++ rest) ∧
        Outcome.Returns (read_header A was_supplied reader file_options io) fun r =>
          r.1 = restored reader all ∧
          r.2.1 = file_options ++ restored_options was_supplied all options ∧
          r.2.2.stream = rest := by
  obtain ⟨⟨all', o'⟩, hwrite, hwritten⟩ := write_header_returns h o
  refine ⟨all', o', hwrite, hwritten, ?_⟩
  intro A was_supplied reader file_options io rest hreader hb hfiles hverify hhash hstream hmem
  rw [← hverify, ← hhash] at hstream hmem
  have hlen := length_header_le all options io.verify_hash io.hash
  constructor
  · rw [header, append_assoc] at hstream
    apply (read_fields_returns was_supplied h hreader hb (hmem.mono (by omega)) hstream).mono
    intro s hs
    obtain ⟨_, hrest, hverify', hhash', hall, _⟩ := hs
    have hver : s.all.model_file_ver = VERSION := by
      rw [hall]
      rfl
    refine ⟨s.io.hash, check_sum_read_chained hver hverify', ?_⟩
    rw [hrest, hhash']
  · apply (read_header_returns was_supplied file_options h hreader hb hfiles hmem hstream).mono
    exact fun r hr => ⟨hr.1, hr.2.1, hr.2.2.2⟩

/-- A workspace with an id, labels and two definitions. -/
def sample : Workspace :=
  { id := text "m1", min_label := .neg_one, max_label := .one, num_bits := 20
    skip_gram_transformer := some ⟨[text "a2", text "3"], [text "1"]⟩ }

theorem sample_saves : Saves sample (text "--quadratic ab") where
  id_length := by decide
  bits := by decide
  ngrams := by decide
  skips := by decide
  options_ne := by decide
  options_length := by decide

/-- A header that arrives in pieces of seven bytes. -/
theorem header_round_trip_sample :
    ∃ all' o' io r, write_header sample (text "--quadratic ab") {} = .ok (all', o') ∧
      open_ flat_memory [chunked 7 o'.written] = .ok io ∧
      read_header flat_memory (fun _ => false) {} [] io = .ok r ∧
      r.1.id = text "m1" ∧
      r.2.1 = text " --id m1 --bit_precision 20 --ngram a2 --ngram 3 --skips 1 --quadratic ab" ∧
      r.2.2.stream = [] := by
  obtain ⟨all', o', hwrite, hwritten, hread⟩ := header_round_trip sample_saves {}
  obtain ⟨io, hopen, hwf, hstream, _, hfiles, hverify, hhash⟩ := exists_opened o'.written
  have hlen : (header sample (text "--quadratic ab") false 0).length = 79 := by
    rw [header, length_append, length_checksum_field]
    decide
  rw [hwritten] at hstream
  obtain ⟨_, r, hr, hall, hopts, hrest⟩ := hread flat_memory (fun _ => false) {} [] io []
    ⟨Or.inl rfl, by decide⟩ hwf hfiles hverify hhash (by rw [hstream]; simp)
    (flat_memory_provides (by rw [hlen]; decide))
  refine ⟨all', o', io, r, hwrite, hopen, hr, ?_, ?_, hrest⟩
  · rw [hall]
    decide
  · rw [hopts]
    decide

/-- A definition of four characters is written as three. -/
theorem long_ngram_definition_is_cut :
    ∃ all' o' io r,
      write_header { skip_gram_transformer := some ⟨[text "a100"], []⟩ } [] {} = .ok (all', o') ∧
      open_ flat_memory [chunked 7 o'.written] = .ok io ∧
      read_header flat_memory (fun _ => false) {} [] io = .ok r ∧
      r.2.1 = text " --bit_precision 18 --ngram a10 " := by
  have hsaves : Saves { skip_gram_transformer := some ⟨[text "a100"], []⟩ } [] :=
    ⟨by decide, by decide, by decide, by decide, by decide, by decide⟩
  obtain ⟨⟨all', o'⟩, hwrite, hwritten⟩ := write_header_returns hsaves {}
  obtain ⟨io, hopen, hwf, hstream, _, hfiles, hverify, hhash⟩ := exists_opened o'.written
  have hlen : (header { skip_gram_transformer := some ⟨[text "a100"], []⟩ } [] false 0).length
      = 57 := by
    rw [header, length_append, length_checksum_field]
    decide
  simp only at hwritten
  rw [hwritten] at hstream
  obtain ⟨r, hr, _, hopts, _⟩ := @read_header_returns _ (fun _ => false) _ ({}) _ [] [] hsaves
    ⟨Or.inl rfl, by decide⟩ _ hwf hfiles (flat_memory_provides
    (by rw [hverify, hhash, hlen]; decide)) (by rw [hstream, hverify, hhash]; simp)
  refine ⟨all', o', io, r, hwrite, hopen, hr, ?_⟩
  rw [hopts]
  decide

end VW.Regressor
