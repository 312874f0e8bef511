import VowpalWabbit.IoBuf.Binary
import VowpalWabbit.Version
import VowpalWabbit.Validate

/-! # The header of a model

    `save_load_header` of `core/src/parse_regressor.cc`, in binary mode. One
    function of the source both reads and writes; here it is `read_header` and
    `write_header`, which go through the same fields in the same order. Strings
    pass through `buff2`, a vector of 512 bytes: a copy into it, or a write out
    of it, that does not stay inside has no defined behaviour.
-/

open Cpp Outcome

namespace VW.Regressor

def DEFAULT_BUF_SIZE : Nat := 512

/-- The definitions that a `kskip_ngram_transformer` was built from. -/
structure KskipNgramTransformer where
  initial_ngram_definitions : List (List Byte)
  initial_skip_definitions : List (List Byte)

/-- What the header has to do with in a `workspace`. -/
structure Workspace where
  id : List Byte := []
  model_file_ver : VersionStruct := ⟨0, 0, 0⟩
  min_label : Single := 0
  max_label : Single := 0
  num_bits : BitVec 32 := 18
  default_bits : Bool := true
  sparse : Bool := false
  interactions : List (List Byte) := []
  lda : BitVec 32 := 0
  skip_gram_transformer : Option KskipNgramTransformer := none

def Workspace.ngram_definitions (all : Workspace) : List (List Byte) :=
  match all.skip_gram_transformer with
  | some g_transformer => g_transformer.initial_ngram_definitions
  | none => []

def Workspace.skip_definitions (all : Workspace) : List (List Byte) :=
  match all.skip_gram_transformer with
  | some g_transformer => g_transformer.initial_skip_definitions
  | none => []

/-- `validate_version`; a newer version only gets a warning. -/
def validate_version (v : VersionStruct) : Outcome Unit :=
  if v.lt LAST_COMPATIBLE_VERSION then
    throw_ ("Model has possibly incompatible version! " ++ v.to_string)
  else .ok ()

def validate_default_bits (all : Workspace) (local_num_bits : BitVec 32) : Outcome Unit :=
  if all.default_bits ≠ true ∧ all.num_bits ≠ local_num_bits then
    throw_ ("-b bits mismatch: command-line " ++ toString all.num_bits.toNat ++ " != " ++
      toString local_num_bits.toNat ++ " stored in model")
  else .ok ()

/-! ## Reading -/

def BAD_MODEL_FORMAT : String := "Bad model format."

/-- `bin_read_fixed(data, len)`: the count, the memory at `data` afterwards. -/
def read_into (A : Allocator) (data : List Byte) (len : Nat) (io : IoBuf) :
    Outcome (Nat × List Byte × IoBuf) := do
  let (bs, io) ← io.bin_read_fixed A len
  if data.length < bs.length then undefined
  else return (bs.length, overwrite data bs, io)

/-- `bin_text_read_write_fixed_validated`; only an empty read is an error. -/
def read_validated (A : Allocator) (data : List Byte) (len : Nat) (io : IoBuf) :
    Outcome (Nat × List Byte × IoBuf) := do
  let (nbytes, data, io) ← read_into A data len io
  if 0 < len ∧ nbytes = 0 then throw_ "Unexpected end of file encountered."
  else return (nbytes, data, io)

def bin_read (A : Allocator) (data : List Byte) (len : Nat) (io : IoBuf) :
    Outcome (Nat × List Byte × IoBuf) := do
  let (ret, obj_len, io) ← read_into A [0, 0, 0, 0] 4 io
  if len < of_le_bytes obj_len ∨ ret < 4 then throw_ BAD_MODEL_FORMAT
  else do
    let (n, data, io) ← read_into A data (of_le_bytes obj_len) io
    return (ret + n, data, io)

/-- The variables of `save_load_header` while it reads. -/
structure ReadState where
  io : IoBuf
  buff2 : List Byte
  bytes_read_write : Nat
  all : Workspace
  file_options : List Byte

/-- Read a `uint32_t`; what is not there keeps its bytes. -/
def read_uint32 (A : Allocator) (var : BitVec 32) (s : ReadState) :
    Outcome (BitVec 32 × ReadState) := do
  let (n, data, io) ← read_validated A (le_bytes 4 var.toNat) 4 s.io
  return (BitVec.ofNat 32 (of_le_bytes data),
    { s with io := io, bytes_read_write := s.bytes_read_write + n })

def read_float (A : Allocator) (var : Single) (s : ReadState) : Outcome (Single × ReadState) := do
  let (bits, s) ← read_uint32 A var.bits s
  return (⟨bits⟩, s)

def read_version (A : Allocator) (s : ReadState) : Outcome ReadState := do
  let version := text VERSION.to_string ++ [0]
  let buff2 := overwrite s.buff2 (version.take (min version.length s.buff2.length))
  let v_length := buff2.length
  let buff2 := buff2.set (min v_length DEFAULT_BUF_SIZE - 1) 0
  let (n, buff2, io) ← bin_read A buff2 v_length s.io
  let model_file_ver ← VersionStruct.from_string (← c_string buff2)
  validate_version model_file_ver
  let io :=
    if model_file_ver.ge VERSION_FILE_WITH_HEADER_CHAINED_HASH then io.set_verify_hash true else io
  return { s with io := io, buff2 := buff2, bytes_read_write := s.bytes_read_write + n
                  all := { s.all with model_file_ver := model_file_ver } }

def read_id (A : Allocator) (was_supplied : String → Bool) (s : ReadState) : Outcome ReadState :=
  if s.all.model_file_ver.ge VERSION_FILE_WITH_HEADER_ID then do
    let old_id := s.all.id ++ [0]
    let buff2 := overwrite s.buff2 (old_id.take (min old_id.length DEFAULT_BUF_SIZE))
    let (n, buff2, io) ← bin_read A buff2 DEFAULT_BUF_SIZE s.io
    let id ← c_string buff2
    return { io := io, buff2 := buff2, bytes_read_write := s.bytes_read_write + n
             all := { s.all with id := id }
             file_options :=
               if !was_supplied "id" && !id.isEmpty then s.file_options ++ text " --id" ++ text " " ++ id
               else s.file_options }
  else .ok s

def read_labels (A : Allocator) (s : ReadState) : Outcome ReadState := do
  let (n, model, io) ← read_validated A [109] 1 s.io
  let s := { s with io := io, bytes_read_write := s.bytes_read_write + n }
  if model ≠ [109] then throw_ "file is not a model file"
  else do
    let (min_label, s) ← read_float A s.all.min_label s
    let s := { s with all := { s.all with min_label := min_label } }
    let (max_label, s) ← read_float A s.all.max_label s
    return { s with all := { s.all with max_label := max_label } }

def read_bits (A : Allocator) (was_supplied : String → Bool) (s : ReadState) :
    Outcome ReadState := do
  let (local_num_bits, s) ← read_uint32 A s.all.num_bits s
  let file_options :=
    if !was_supplied "bit_precision" then
      s.file_options ++ text " --bit_precision" ++ text " " ++ text (toString local_num_bits.toNat)
    else s.file_options
  validate_default_bits s.all local_num_bits
  validate_num_bits s.all.sparse local_num_bits
  return { s with all := { s.all with default_bits := false, num_bits := local_num_bits }
                  file_options := file_options }

/-- The legacy loops over pairs and triples; the terminating `\0` of the slot
    is part of the interaction. -/
def read_slots (A : Allocator) (size : Nat) : Nat → ReadState → Outcome ReadState
  | 0, s => .ok s
  | len + 1, s => do
    let (n, temp, io) ← read_validated A (List.replicate (size + 1) 0) size s.io
    let interactions :=
      if temp ∈ s.all.interactions then s.all.interactions else s.all.interactions ++ [temp]
    read_slots A size len
      { s with io := io, bytes_read_write := s.bytes_read_write + n
               all := { s.all with interactions := interactions } }

/-- The legacy loop over interactions of any length. -/
def read_interactions (A : Allocator) : Nat → ReadState → Outcome ReadState
  | 0, s => .ok s
  | len + 1, s => do
    let (inter_len, s) ← read_uint32 A 0 s
    let (size, buff2, io) ← read_validated A s.buff2 inter_len.toNat s.io
    if size ≠ inter_len.toNat then throw_ "Failed to read interaction from model file."
    else
      let temp := buff2.take size
      let interactions :=
        if temp ∈ s.all.interactions then s.all.interactions else s.all.interactions ++ [temp]
      read_interactions A len
        { s with io := io, buff2 := buff2, bytes_read_write := s.bytes_read_write + size
                 all := { s.all with interactions := interactions } }

/-- Interactions of versions that did not keep them as options. -/
def read_legacy_interactions (A : Allocator) (s : ReadState) : Outcome ReadState :=
  if s.all.model_file_ver.lt VERSION_FILE_WITH_INTERACTIONS_IN_FO then do
    let (pair_len, s) ← read_uint32 A 0 s
    let s ← read_slots A 2 pair_len.toNat s
    let (triple_len, s) ← read_uint32 A 0 s
    let s ← read_slots A 3 triple_len.toNat s
    if s.all.model_file_ver.ge VERSION_FILE_WITH_INTERACTIONS then do
      let (len, s) ← read_uint32 A 0 s
      read_interactions A len.toNat s
    else return s
  else .ok s

def read_rank (A : Allocator) (was_supplied : String → Bool) (s : ReadState) : Outcome ReadState :=
  if s.all.model_file_ver.le VERSION_FILE_WITH_RANK_IN_HEADER then do
    let (rank, s) ← read_uint32 A 0 s
    return { s with
      file_options :=
        if rank ≠ 0 ∧ was_supplied "rank" = false then
          s.file_options ++ text " --rank" ++ text " " ++ text (toString rank.toNat)
        else s.file_options }
  else .ok s

def read_lda (A : Allocator) (s : ReadState) : Outcome ReadState := do
  let (lda, s) ← read_uint32 A s.all.lda s
  return { s with all := { s.all with lda := lda } }

/-- The loop over the definitions: three bytes each, and a `\0` for sure. -/
def read_grams (A : Allocator) (name : String) : Nat → ReadState → Outcome ReadState
  | 0, s => .ok s
  | len + 1, s => do
    let (n, gram, io) ← read_validated A [0, 0, 0, 0] 3 s.io
    let temp ← c_string gram
    read_grams A name len
      { s with io := io, bytes_read_write := s.bytes_read_write + n
               file_options := s.file_options ++ text name ++ text " " ++ temp }

/-- The number of definitions, and the definitions. -/
def read_gram_definitions (A : Allocator) (name : String) (definitions : List (List Byte))
    (s : ReadState) : Outcome ReadState := do
  let (len, s) ← read_uint32 A (BitVec.ofNat 32 definitions.length) s
  read_grams A name len.toNat s

def read_options (A : Allocator) (s : ReadState) : Outcome ReadState := do
  let (ret, len, io) ← read_into A [0, 0, 0, 0] 4 s.io
  let len := of_le_bytes len
  -- The sanity check: 100 Mb.
  if 104857600 < len ∨ ret < 4 then throw_ BAD_MODEL_FORMAT
  else do
    let buff2 :=
      if s.buff2.length < len then s.buff2 ++ List.replicate (len - s.buff2.length) 0 else s.buff2
    let (n, buff2, io) ← read_into A buff2 len io
    let s := { s with io := io, buff2 := buff2, bytes_read_write := s.bytes_read_write + (n + ret) }
    if 0 < len then do
      let file_options ← c_string buff2
      return { s with file_options := s.file_options ++ text " " ++ file_options }
    else return s

/-- Everything in front of the checksum. -/
def read_fields (A : Allocator) (was_supplied : String → Bool) (s : ReadState) :
    Outcome ReadState := do
  let s ← read_version A s
  let s ← read_id A was_supplied s
  let s ← read_labels A s
  let s ← read_bits A was_supplied s
  let s ← read_legacy_interactions A s
  let s ← read_rank A was_supplied s
  let s ← read_lda A s
  let s ← read_gram_definitions A " --ngram" s.all.ngram_definitions s
  let s ← read_gram_definitions A " --skips" s.all.skip_definitions s
  read_options A s

/-- The checksum of what has been read: the chained hash, or in an older
    version the hash of the buffer up to here. -/
def check_sum_read (s : ReadState) : Outcome (BitVec 32) :=
  if s.all.model_file_ver.ge VERSION_FILE_WITH_HEADER_CHAINED_HASH then s.io.checked_hash
  else do
    let header ← load_bytes s.io.buffer.load s.io.buffer.begin_ s.bytes_read_write
    return uniform_hash header 0

/-- The comparison with the checksum that is stored. -/
def read_checksum (A : Allocator) (s : ReadState) : Outcome ReadState :=
  if s.all.model_file_ver.ge VERSION_FILE_WITH_HEADER_HASH then do
    let check_sum_saved ← check_sum_read s
    let (_, check_sum, io) ← bin_read A (le_bytes 4 check_sum_saved.toNat) 4 s.io
    if check_sum_saved ≠ BitVec.ofNat 32 (of_le_bytes check_sum) then
      throw_ "Checksum is inconsistent, file is possibly corrupted."
    else return { s with io := io }
  else .ok s

/-- The hash is switched off at the end of the header. -/
def end_of_header (s : ReadState) : IoBuf :=
  if s.all.model_file_ver.ge VERSION_FILE_WITH_HEADER_CHAINED_HASH then s.io.set_verify_hash false
  else s.io

/-- `save_load_header` with `read` on: the workspace, the options and the
    buffer afterwards. -/
def read_header (A : Allocator) (was_supplied : String → Bool) (all : Workspace)
    (file_options : List Byte) (model_file : IoBuf) : Outcome (Workspace × List Byte × IoBuf) :=
  if 0 < model_file.input_files.length then do
    let buff2 := List.replicate DEFAULT_BUF_SIZE 0
    let s ← read_fields A was_supplied ⟨model_file, buff2, 0, all, file_options⟩
    let s ← read_checksum A s
    return (s.all, s.file_options, end_of_header s)
  else .ok (all, file_options, model_file)

/-! ## Writing -/

/-- The variables of `save_load_header` while it writes. -/
structure WriteState where
  io : Output
  buff2 : List Byte
  all : Workspace

/-- `bin_text_write`, and in it `bin_write`: `len` becomes a `uint32_t`. -/
def bin_write (data : List Byte) (len : Nat) (io : Output) : Outcome Output :=
  let len := len % 2 ^ 32
  if data.length < len then undefined
  else .ok ((io.bin_write_fixed (le_bytes 4 len)).bin_write_fixed (data.take len))

def write_uint32 (var : BitVec 32) (s : WriteState) : WriteState :=
  { s with io := s.io.bin_write_fixed (le_bytes 4 var.toNat) }

def write_version (s : WriteState) : Outcome WriteState := do
  let version := text VERSION.to_string ++ [0]
  let buff2 := overwrite s.buff2 (version.take (min version.length s.buff2.length))
  let io ← bin_write buff2 version.length s.io
  let model_file_ver ← VersionStruct.from_string (← c_string buff2)
  validate_version model_file_ver
  let io :=
    if model_file_ver.ge VERSION_FILE_WITH_HEADER_CHAINED_HASH then io.set_verify_hash true else io
  return { io := io, buff2 := buff2, all := { s.all with model_file_ver := model_file_ver } }

def write_id (s : WriteState) : Outcome WriteState :=
  if s.all.model_file_ver.ge VERSION_FILE_WITH_HEADER_ID then do
    let id := s.all.id ++ [0]
    -- The copy is cut to the buffer, the length that is written is not.
    let buff2 := overwrite s.buff2 (id.take (min id.length DEFAULT_BUF_SIZE))
    let io ← bin_write buff2 id.length s.io
    let id ← c_string buff2
    return { io := io, buff2 := buff2, all := { s.all with id := id } }
  else .ok s

def write_labels (s : WriteState) : WriteState :=
  { s with io := ((s.io.bin_write_fixed [109]).bin_write_fixed s.all.min_label.bytes).bin_write_fixed
                   s.all.max_label.bytes }

def write_bits (s : WriteState) : Outcome WriteState := do
  let s := write_uint32 s.all.num_bits s
  validate_default_bits s.all s.all.num_bits
  validate_num_bits s.all.sparse s.all.num_bits
  return { s with all := { s.all with default_bits := false } }

def write_legacy_interactions (s : WriteState) : Outcome WriteState :=
  if s.all.model_file_ver.lt VERSION_FILE_WITH_INTERACTIONS_IN_FO then
    throw_ "cannot write legacy format"
  else .ok s

def write_rank (s : WriteState) : WriteState :=
  if s.all.model_file_ver.le VERSION_FILE_WITH_RANK_IN_HEADER then write_uint32 0 s else s

/-- The slot of a definition: its first three bytes. -/
def gram_slot (definition : List Byte) : List Byte :=
  (overwrite [0, 0, 0, 0] (definition.take (min 3 definition.length))).take 3

/-- The number of definitions as a `uint32_t`, and that many of them. -/
def write_gram_definitions (definitions : List (List Byte)) (s : WriteState) : WriteState :=
  let len := BitVec.ofNat 32 definitions.length
  let s := write_uint32 len s
  { s with io := (definitions.take len.toNat).foldl
                   (fun io definition => io.bin_write_fixed (gram_slot definition)) s.io }

def write_options (serialized_keep_options : List Byte) (s : WriteState) : Outcome WriteState := do
  let len := serialized_keep_options.length
  let buff2 :=
    if s.buff2.length < len then s.buff2 ++ List.replicate (len + 1 - s.buff2.length) 0 else s.buff2
  -- The string and its `\0` need one byte more than was compared.
  if buff2.length < len + 1 then undefined
  else do
    let buff2 := overwrite buff2 (serialized_keep_options ++ [0])
    let io ← bin_write buff2 (len + 1) s.io
    return { s with io := io, buff2 := buff2 }

/-- Everything in front of the checksum. -/
def write_fields (serialized_keep_options : List Byte) (s : WriteState) : Outcome WriteState := do
  let s ← write_version s
  let s ← write_id s
  let s := write_labels s
  let s ← write_bits s
  let s ← write_legacy_interactions s
  let s := write_rank s
  let s := write_uint32 s.all.lda s
  let s := write_gram_definitions s.all.ngram_definitions s
  let s := write_gram_definitions s.all.skip_definitions s
  write_options serialized_keep_options s

/-- The version is that of the program, so the chained hash is the checksum. -/
def write_checksum (s : WriteState) : Outcome WriteState := do
  let check_sum ← s.io.checked_hash
  let io ← bin_write (le_bytes 4 check_sum.toNat) 4 s.io
  return { s with io := io.set_verify_hash false }

/-- `save_load_header` with `read` off, for the options string that the keep
    options were serialized to. -/
def write_header (all : Workspace) (serialized_keep_options : List Byte) (model_file : Output) :
    Outcome (Workspace × Output) := do
  let s ← write_fields serialized_keep_options
    ⟨model_file, List.replicate DEFAULT_BUF_SIZE 0, all⟩
  let s ← write_checksum s
  return (s.all, s.io)

end VW.Regressor
