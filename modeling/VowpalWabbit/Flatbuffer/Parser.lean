import VowpalWabbit.Framework.Text

/-! # The parser of flatbuffers

    The parser is called for one example at a time and resumes where it was: it holds the
    object it reads, whether it is inside of a collection or of a multi-example, and an index
    into each.

    What a vector that is not stored or an element past its end gives is not defined. The
    readers of labels and of namespaces are parameters; the reader of namespaces keeps a hash
    in the parser.
-/

open Cpp Outcome

namespace VW.Flatbuffer

variable {L N X : Type}

/-! ## Objects -/

/-- A vector that is stored in a buffer. Sizes are 32 bit numbers. -/
structure Vector (A : Type) where
  elements : List A
  size_lt : elements.length < 2 ^ 32

def Vector.size {A : Type} (v : Vector A) : BitVec 32 := BitVec.ofNat 32 v.elements.length

/-- `Get`, within the bounds that it asserts. -/
def Vector.Get {A : Type} (v : Vector A) (i : BitVec 32) : Outcome A :=
  match v.elements[i.toNat]? with
  | some a => .ok a
  | none => undefined

/-- `Example`, with its vector of namespaces if there is one. -/
structure Example (L N : Type) where
  namespaces : Option (Vector N)
  label : L
  tag : Option (List Byte)
  is_newline : Bool

structure MultiExample (L N : Type) where
  examples : Option (Vector (Example L N))

structure ExampleCollection (L N : Type) where
  examples : Option (Vector (Example L N))
  multi_examples : Option (Vector (MultiExample L N))
  is_multiline : Bool

/-- `ExampleType`, of an object that has one. -/
inductive ExampleType (L N : Type) where
  | Example (eg : Example L N)
  | ExampleCollection (collection : ExampleCollection L N)
  | MultiExample (eg : MultiExample L N)

structure ExampleRoot (L N : Type) where
  example_obj : Option (ExampleType L N)

/-! ## Examples -/

/-- `error_code`, as far as the parser returns it. -/
inductive Status where
  | success
  | nothing_to_parse
  | internal_error
  | unknown_label_type
  | fb_parser_unknown_example_type
  | fb_parser_span_misaligned
  | fb_parser_span_length_mismatch
  | fb_parser_feature_values_missing
  | fb_parser_feature_hashes_names_missing
  | fb_parser_size_mismatch_ft_hashes_ft_values
  | fb_parser_size_mismatch_ft_names_ft_values
  deriving DecidableEq

/-- `example`: the label and the features, the tag, and whether it is a newline. -/
structure Ae (X : Type) where
  x : X
  tag : List Byte
  is_newline : Bool

/-- What the parser is made of besides its own state. A label is made the default one whatever
    it was. -/
structure Reader (L N X : Type) where
  default_label : X → X
  default_label_idem : ∀ x, default_label (default_label x) = default_label x
  parse_flat_label : L → X → Outcome (X × Status)
  /-- With `_c_hash`. -/
  parse_namespaces : N → BitVec 64 → X → Outcome (BitVec 64 × X × Status)

/-- The namespaces of an example. -/
def parse_each_namespace (r : Reader L N X) : List N → BitVec 64 → X → Outcome (BitVec 64 × X × Status)
  | [], c, x => .ok (c, x, .success)
  | ns :: namespaces, c, x => do
    let (c, x, status) ← r.parse_namespaces ns c x
    if status = .success then parse_each_namespace r namespaces c x else return (c, x, status)

/-- The characters of a C string. -/
def c_str (s : List Byte) : List Byte := s.takeWhile fun c => decide (c ≠ 0)

/-- The part of `parse_example` after the label. -/
def parse_tag_and_namespaces (r : Reader L N X) (c : BitVec 64) (ae : Ae X) (eg : Example L N) :
    Outcome (BitVec 64 × Ae X × Status) :=
  let ae := match eg.tag with
    | some tag => { ae with tag := ae.tag ++ c_str tag }
    | none => ae
  match eg.namespaces with
  | none => undefined
  | some namespaces => do
    let (c, x, status) ← parse_each_namespace r namespaces.elements c ae.x
    return (c, { ae with x := x }, status)

def parse_example (r : Reader L N X) (c : BitVec 64) (ae : Ae X) (eg : Example L N) :
    Outcome (BitVec 64 × Ae X × Status) := do
  let ae := { ae with x := r.default_label ae.x, is_newline := eg.is_newline }
  let (x, status) ← r.parse_flat_label eg.label ae.x
  if status = .success then parse_tag_and_namespaces r c { ae with x := x } eg
  else return (c, { ae with x := x }, status)

/-! ## The parser -/

/-- `parser`. A pointer that was never set holds any address. -/
structure Parser (L N : Type) where
  _data : Option (ExampleRoot L N)
  _flatbuffer_pointer : Nat
  _active_collection : Bool
  _example_index : BitVec 32
  _multi_ex_index : BitVec 32
  _active_multi_ex : Bool
  _multi_example_object : Option (MultiExample L N)
  _c_hash : BitVec 64

/-- A flatbuffer in memory. -/
structure Span (L N : Type) where
  address : Nat
  root : ExampleRoot L N

/-- What is left in the buffer of a file: flatbuffers, where they are read to, and at the end
    perhaps the beginning of a size. -/
structure IoBuf (L N : Type) where
  objects : List (Span L N)
  incomplete : Bool

def Parser.reset_active_multi_ex (p : Parser L N) : Parser L N :=
  { p with _multi_ex_index := 0, _active_multi_ex := false, _multi_example_object := none }

def Parser.reset_active_collection (p : Parser L N) : Parser L N :=
  { p with _example_index := 0, _active_collection := false }

def Parser.reset_state (p : Parser L N) : Parser L N := p.reset_active_multi_ex.reset_active_collection

/-- What a call for an example gives: the parser, the example, and the status. -/
abbrev Parsed (L N X : Type) : Type := Parser L N × Ae X × Status

def return_if_fail (x : Outcome (Parsed L N X)) (f : Parser L N → Ae X → Outcome (Parsed L N X)) :
    Outcome (Parsed L N X) := do
  let (p, ae, status) ← x
  if status = .success then f p ae else return (p, ae, status)

/-- An example, and the hash that its namespaces leave. -/
def Parser.parse_example (r : Reader L N X) (p : Parser L N) (ae : Ae X) (eg : Example L N) :
    Outcome (Parsed L N X) := do
  let (c, ae, status) ← Flatbuffer.parse_example r p._c_hash ae eg
  return ({ p with _c_hash := c }, ae, status)

def parse_multi_example (r : Reader L N X) (p : Parser L N) (ae : Ae X) (eg : MultiExample L N) :
    Outcome (Parsed L N X) :=
  let ae := { ae with x := r.default_label ae.x }
  match eg.examples with
  | none => undefined
  | some examples =>
    if examples.size ≤ p._multi_ex_index then
      -- done with multi example, send a newline example and reset
      .ok (p.reset_active_multi_ex, { ae with is_newline := true }, .success)
    else do
      let eg ← examples.Get p._multi_ex_index
      return_if_fail (p.parse_example r ae eg) fun p ae =>
        .ok ({ p with _multi_ex_index := p._multi_ex_index + 1 }, ae, .success)

/-- The next item of a collection: it is finished at `size`. -/
def Parser.advance (p : Parser L N) (size : BitVec 32) : Parser L N :=
  let p := { p with _example_index := p._example_index + 1 }
  if p._example_index = size then p.reset_active_collection else p

def process_collection_item (r : Reader L N X) (p : Parser L N) (ae : Ae X) (collection : ExampleCollection L N) :
    Outcome (Parsed L N X) :=
  if collection.is_multiline then
    match collection.multi_examples with
    | none => undefined
    | some multi_examples => do
      let eg ← multi_examples.Get p._example_index
      let p := { p with _active_multi_ex := true, _multi_example_object := some eg }
      return_if_fail (parse_multi_example r p ae eg) fun p ae =>
        -- if we are done with the multi example, move to the next one, or finish the collection
        .ok (if p._active_multi_ex then p else p.advance multi_examples.size, ae, .success)
  else
    match collection.examples with
    | none => undefined
    | some examples => do
      let eg ← examples.Get p._example_index
      return_if_fail (p.parse_example r ae eg) fun p ae => .ok (p.advance examples.size, ae, .success)

def return_success_finished (buffer_pointer : Option (Span L N)) : Status :=
  match buffer_pointer with
  | some _ => .nothing_to_parse
  | none => .success

/-- `parse`: the next root object. -/
def parse (p : Parser L N) (buf : IoBuf L N) : Option (Span L N) → Parser L N × IoBuf L N × Status
  | some span =>
    if span.address % 8 ≠ 0 then (p, buf, .internal_error)
    else ({ p with _flatbuffer_pointer := span.address, _data := some span.root }, buf, .success)
  | none =>
    match buf.objects with
    | [] => (p, buf, if buf.incomplete then .internal_error else .nothing_to_parse)
    | span :: objects =>
      ({ p with _flatbuffer_pointer := span.address, _data := some span.root },
        { buf with objects := objects }, .success)

/-- `example_obj_as_ExampleCollection` of the object that is read. -/
def Parser.collection (p : Parser L N) : Option (ExampleCollection L N) :=
  match p._data with
  | some ⟨some (.ExampleCollection collection)⟩ => some collection
  | _ => none

/-- The collection that is read. A null pointer is not to be followed. -/
def process_collection (r : Reader L N X) (p : Parser L N) (ae : Ae X) : Outcome (Parsed L N X) :=
  match p.collection with
  | some collection => process_collection_item r p ae collection
  | none => undefined

/-- The multi-example that is read. -/
def parse_active_multi_example (r : Reader L N X) (p : Parser L N) (ae : Ae X) : Outcome (Parsed L N X) :=
  match p._multi_example_object with
  | some eg => parse_multi_example r p ae eg
  | none => undefined

/-- The first example of an object. -/
def parse_object (r : Reader L N X) (p : Parser L N) (ae : Ae X) (finished : Status) :
    Option (ExampleType L N) → Outcome (Parsed L N X)
  | some (.Example eg) => return_if_fail (p.parse_example r ae eg) fun p ae => .ok (p, ae, finished)
  | some (.MultiExample eg) =>
    let p := { p with _multi_example_object := some eg, _active_multi_ex := true }
    return_if_fail (parse_multi_example r p ae eg) fun p ae =>
      .ok (p, ae, if p._active_multi_ex then .success else finished)
  | some (.ExampleCollection collection) =>
    let p := { p with _active_collection := true }
    return_if_fail (process_collection_item r p ae collection) fun p ae =>
      .ok (p, ae, if p._active_collection then .success else finished)
  | none => .ok (p, ae, .fb_parser_unknown_example_type)

/-- The reset for a new buffer. -/
def Parser.check_pointer (p : Parser L N) : Option (Span L N) → Parser L N
  | some span => if p._flatbuffer_pointer ≠ span.address then p.reset_state else p
  | none => p

/-- The next object, and its first example. -/
def parse_new_object (r : Reader L N X) (p : Parser L N) (buf : IoBuf L N) (ae : Ae X)
    (buffer_pointer : Option (Span L N)) : Outcome (Parsed L N X × IoBuf L N) :=
  match parse p buf buffer_pointer with
  | (p, buf, .success) => do
    let parsed ← parse_object r p ae (return_success_finished buffer_pointer)
      (p._data.bind fun data => data.example_obj)
    return (parsed, buf)
  | (p, buf, status) => .ok ((p, ae, status), buf)

/-- `parse_examples`, into the example `ae`. -/
def parse_examples (r : Reader L N X) (p : Parser L N) (buf : IoBuf L N) (ae : Ae X)
    (buffer_pointer : Option (Span L N)) : Outcome (Parsed L N X × IoBuf L N) :=
  let finished := return_success_finished buffer_pointer
  let p := p.check_pointer buffer_pointer
  -- the collection has the first chance, as it dispatches to the multi-examples
  if p._active_collection then do
    let parsed ← return_if_fail (process_collection r p ae) fun p ae =>
      .ok (p, ae, if p._active_collection then .success else finished)
    return (parsed, buf)
  else if p._active_multi_ex then do
    let parsed ← return_if_fail (parse_active_multi_example r p ae) fun p ae =>
      .ok (p, ae, if p._active_multi_ex then .success else finished)
    return (parsed, buf)
  else parse_new_object r p buf ae buffer_pointer

/-! ## Reading a span -/

/-- The size in front of a flatbuffer, and the length of all that is given. -/
structure SizePrefixed (L N : Type) extends Span L N where
  flatbuffer_object_size : BitVec 32
  length : BitVec 64

/-- The loop of `read_span_flatbuffer`; `temp_ex` is the example that is read into. Without
    `fuel` for a call the loop is taken to run on. -/
def read_span_loop (r : Reader L N X) (example_factory : Ae X) (span : Span L N) :
    Nat → Parser L N → Ae X → List (Ae X) → Outcome (Parser L N × List (Ae X) × Status)
  | 0, _, _, _ => undefined
  | fuel + 1, p, temp_ex, examples => do
    let ((p, temp_ex, status), _) ← parse_examples r p ⟨[], false⟩ temp_ex (some span)
    if status = .success ∨ status = .nothing_to_parse then
      let has_more := decide (status = .success) && !temp_ex.is_newline
      let (temp_ex, examples) :=
        if temp_ex.is_newline then (temp_ex, examples) else (example_factory, examples ++ [temp_ex])
      if has_more then read_span_loop r example_factory span fuel p temp_ex examples
      else return (p, examples, .success)
    else return (p.reset_state, examples, status)

/-- `read_span_flatbuffer`, with the example that was given, if any. -/
def read_span_flatbuffer (r : Reader L N X) (example_factory : Ae X) (fuel : Nat) (p : Parser L N)
    (span : SizePrefixed L N) (examples : Option (Ae X)) : Outcome (Parser L N × List (Ae X) × Status) :=
  if span.address % 8 ≠ 0 then .ok (p, examples.toList, .fb_parser_span_misaligned)
  else if span.length ≠ span.flatbuffer_object_size.setWidth 64 + 4 then
    .ok (p, examples.toList, .fb_parser_span_length_mismatch)
  else read_span_loop r example_factory span.toSpan fuel p (examples.getD example_factory) []

end VW.Flatbuffer
