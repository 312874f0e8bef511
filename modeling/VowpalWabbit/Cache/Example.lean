import VowpalWabbit.Cache.Blocks

/-! # Whole examples in the cache

    `write_example_to_cache` and `read_example_from_cache`: the label, the
    tag, whether the example is a newline, and the namespaces in order. Label
    types bring their own pair of functions, so the label parser is a
    parameter.
-/

open Cpp

namespace VW

/-- `VW::label_parser`, as far as the cache uses it. -/
structure LabelParser (L R : Type) where
  default_label : L → L
  /-- The bytes that are written. -/
  cache_label : L → R → List Byte
  /-- The number of bytes read, `0` on failure, the label and the reduction features. -/
  read_cached_label : L → R → IoBuf → Outcome (Nat × L × R × IoBuf)

def no_label_parser_global : LabelParser Unit Unit where
  default_label _ := ()
  cache_label _ _ := []
  read_cached_label _ _ b := .ok (1, (), (), b)

/-- `VW::example`, the parts that go through the cache. -/
structure Example (L R : Type) where
  l : L
  ex_reduction_features : R
  tag : List Byte
  is_newline : Bool
  indices : List Byte
  feature_space : Byte → Features Single
  sorted : Bool

namespace Cache

variable {L R : Type}

/-! ## Writing -/

def cache_tag (tag : List Byte) : List Byte := le_bytes 8 tag.length ++ tag

def cache_index (index : Byte) : List Byte := [index]

/-- The loop over the namespaces in `write_example_to_cache`. -/
def cache_namespaces (feature_space : Byte → Features Single) (mask : BitVec 64) :
    List Byte → Outcome (List Byte)
  | [] => .ok []
  | ns_idx :: indices => do
    let block ← cache_features (feature_space ns_idx) mask
    let rest ← cache_namespaces feature_space mask indices
    return cache_index ns_idx ++ block ++ rest

/-- What precedes the namespaces. -/
def cache_head (lbl : LabelParser L R) (ex : Example L R) : List Byte :=
  lbl.cache_label ex.l ex.ex_reduction_features ++ cache_tag ex.tag ++
    [if ex.is_newline then NEWLINE_EXAMPLE_INDICATOR else NON_NEWLINE_EXAMPLE_INDICATOR] ++
    [BitVec.ofNat 8 ex.indices.length]

/-- `write_example_to_cache`: what it adds to the output. -/
def write_example_to_cache (lbl : LabelParser L R) (parse_mask : BitVec 64)
    (ex : Example L R) : Outcome (List Byte) := do
  let namespaces ← cache_namespaces ex.feature_space parse_mask ex.indices
  let backing_buffer := cache_head lbl ex ++ namespaces
  return le_bytes 8 backing_buffer.length ++ backing_buffer

/-! ## Reading -/

/-- `read_cached_tag`: the bytes it reports, `0` when there are too few, and the tag. A size that
    wraps around, for which the vector of the tag throws, is undefined here. -/
def read_cached_tag (A : Allocator) (tag : List Byte) (b : IoBuf) :
    Outcome (Nat × List Byte × IoBuf) := do
  let (tag_size, b) ← b.read_value A 8 "tag size"
  let (read_head, count, b) ← b.buf_read A tag_size TEXT
  if count < tag_size then return (0, tag, b)
  else do
    let tag ← load_bytes b.buffer.load read_head tag_size
    return ((tag_size + 8) % 2 ^ 64, tag, b)

def read_cached_index (A : Allocator) (b : IoBuf) : Outcome (Byte × IoBuf) := do
  let (index, b) ← b.read_value A 1 "index"
  return (BitVec.ofNat 8 index, b)

/-- The example after the features `feats` of one more namespace. -/
def with_namespace (ex : Example L R) (index : Byte) (sorted : Bool)
    (feats : Features Single) : Example L R :=
  { ex with indices := ex.indices ++ [index]
            feature_space := Function.update ex.feature_space index feats
            sorted := sorted }

/-- The loop over the namespaces in `read_example_from_cache`. -/
def read_namespaces (A : Allocator) :
    (num_indices total : Nat) → Example L R → IoBuf → Outcome (Nat × Example L R × IoBuf)
  | 0, total, ex, b => .ok (total, ex, b)
  | num_indices + 1, total, ex, b => do
    let (index, b) ← read_cached_index A b
    let (size, sorted, feats, b) ← read_cached_features A (ex.feature_space index) b
    read_namespaces A num_indices (total + 1 + size) (with_namespace ex index sorted feats) b

/-- `read_example_from_cache`: the number of bytes as an `int`, the example
    and the buffer. A cache that ends before the size field has ended. -/
def read_example_from_cache (A : Allocator) (lbl : LabelParser L R) (ex : Example L R)
    (b : IoBuf) : Outcome (Int × Example L R × IoBuf) := do
  let (_, count, b) ← b.buf_read A 8 TEXT
  if count < 8 then return (0, ex, b)
  else do
    let (total, l, red, b) ←
      lbl.read_cached_label (lbl.default_label ex.l) ex.ex_reduction_features b
    if total = 0 then Outcome.throw_ RAN_OUT_OF_CACHE
    else do
      let (tag_size, tag, b) ← read_cached_tag A ex.tag b
      if tag_size = 0 then Outcome.throw_ RAN_OUT_OF_CACHE
      else do
        let (newline, b) ← b.read_value A 1 "newline_indicator"
        let (num_indices, b) ← b.read_value A 1 "num_indices"
        let (total, ex, b) ← read_namespaces A num_indices (total + tag_size + 2)
          { ex with l := l
                    ex_reduction_features := red
                    tag := tag
                    is_newline := BitVec.ofNat 8 newline == NEWLINE_EXAMPLE_INDICATOR } b
        return ((BitVec.ofNat 32 total).toInt, ex, b)

/-- The sorting step of `setup_example`. -/
def setup_example_sort (sort_features : Bool) (unique_sort_features : Example L R → Example L R)
    (ae : Example L R) : Example L R :=
  if sort_features && !ae.sorted then unique_sort_features ae else ae

end Cache

end VW
