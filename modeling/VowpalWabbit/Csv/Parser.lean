import VowpalWabbit.Csv.Split
import VowpalWabbit.Cache.Example
import VowpalWabbit.FeatureGroup.Operations
import VowpalWabbit.Hash
import VowpalWabbit.Primitives.Tokenize

/-! # The CSV parser

    A line is split, the first one sets up the columns, and every other one becomes an
    example: its label, its tag and the features of its namespaces. The columns outlive
    the line; the copies of cells do not.

    The parser reads from a byte stream. An unordered map is a list in the order in which
    its keys were inserted, and visited in an order of the library. What depends on the rest
    of the program is in `Workspace`: the hash function, the label parser and the reading of
    numbers.
-/

open Cpp Outcome
open VW.Config (to_message)

namespace VW.Parsers.Csv

/-! ## The state -/

/-- What the parser uses of `VW::workspace`. -/
structure Workspace (L R : Type) where
  lib : StdLibrary
  hasher : List Byte → BitVec 32 → BitVec 32
  hash_seed : BitVec 32
  parse_mask : BitVec 64
  default_label : L → L
  parse_label : L → R → List (List Byte) → Outcome (L × R)
  /-- `string_to_float`: not a number where `parse_float` does not read all of it. -/
  string_to_float : List Byte → Single

/-- `class csv_parser`. -/
structure CsvParser where
  header_fn : List (List Byte) := []
  header_ns : List (List Byte) := []
  line_num : Nat := 0
  options : CsvParserOptions
  label_list : List Nat := []
  tag_list : List Nat := []
  feature_list : List (List Byte × List Nat) := []
  ns_value : List (List Byte × Single) := []
  /-- The keys that `feature_list` was cleared of. -/
  cleared : List (List (List Byte)) := []

/-- `map[key].emplace_back(i)`. -/
def add_column : List (List Byte × List Nat) → List Byte → Nat → List (List Byte × List Nat)
  | [], key, i => [(key, [i])]
  | (k, columns) :: map, key, i =>
    if k = key then (k, columns ++ [i]) :: map else (k, columns) :: add_column map key i

/-- `map[key] = value`. -/
def set_value : List (List Byte × Single) → List Byte → Single → List (List Byte × Single)
  | [], key, value => [(key, value)]
  | (k, v) :: map, key, value =>
    if k = key then (k, value) :: map else (k, v) :: set_value map key value

/-- `map.find(key)`. -/
def find_value (map : List (List Byte × Single)) (key : List Byte) : Option Single :=
  (map.find? (·.1 = key)).map (·.2)

variable {L R : Type}

/-! ## The header -/

/-- `remove_quotation_marks`, where the options ask for it. -/
def remove_outer_quotes (options : CsvParserOptions) (sv : List Byte) : List Byte :=
  if options.csv_remove_outer_quotes then remove_quotation_marks sv else sv

/-- The namespace and the feature name in a cell of the header. -/
def column_name (i : Nat) (sv : List Byte) (splitted : List (List Byte)) :
    Outcome (List Byte × List Byte) :=
  match splitted with
  | [_] => .ok ([], sv)
  | [ns, feature_name] => .ok (ns, feature_name)
  | _ => throw_ ("Malformed header for feature name and namespace separator at cell " ++
      toString (i + 1) ++ ": " ++ to_message sv)

/-- One column of `parse_header`. -/
def parse_column (lib : StdLibrary) (storage : TokenStorage) (p : CsvParser) (i : Nat)
    (element : View) : Outcome CsvParser := do
  let sv ← element.read lib storage
  let sv := remove_outer_quotes p.options sv
  if sv = text "_tag" then
    .ok { p with
      tag_list := p.tag_list ++ [i], header_fn := p.header_fn ++ [[]],
      header_ns := p.header_ns ++ [[]] }
  else if sv = text "_label" then
    .ok { p with
      label_list := p.label_list ++ [i], header_fn := p.header_fn ++ [[]],
      header_ns := p.header_ns ++ [[]] }
  else do
    let (splitted, storage) ← split lib p.line_num storage sv 124
    let cells ← splitted.mapM (View.read lib storage)
    let (ns, feature_name) ← column_name i sv cells
    .ok { p with
      header_fn := p.header_fn ++ [feature_name], header_ns := p.header_ns ++ [ns],
      feature_list := add_column p.feature_list ns i }

/-- `parse_header`, from column `i` on. -/
def parse_header (lib : StdLibrary) (storage : TokenStorage) :
    CsvParser → Nat → List View → Outcome CsvParser
  | p, _, [] => .ok p
  | p, i, element :: header_elements => do
    let p ← parse_column lib storage p i element
    parse_header lib storage p (i + 1) header_elements

/-- One cell of `parse_ns_value`. -/
def parse_ns_cell (w : Workspace L R) (storage : TokenStorage) (p : CsvParser) (i : Nat)
    (ns_value : View) : Outcome (CsvParser × TokenStorage) := do
  let sv ← ns_value.read w.lib storage
  let (pair, storage) ← split w.lib p.line_num storage sv 58 true
  match pair with
  | [ns, value] => do
    let value ← value.read w.lib storage
    if value = [] then
      throw_ ("Malformed namespace value pair at cell " ++ toString (i + 1) ++ ": " ++
        to_message sv)
    else do
      let ns ← ns.read w.lib storage
      let value := w.string_to_float value
      if value.is_nan then
        throw_ ("NaN namespace value at cell " ++ toString (i + 1) ++ ": " ++ to_message sv)
      else .ok ({ p with ns_value := set_value p.ns_value ns value }, storage)
  | _ => throw_ ("Malformed namespace value pair at cell " ++ toString (i + 1) ++ ": " ++
      to_message sv)

/-- The loop of `parse_ns_value`, from cell `i` on. -/
def parse_ns_cells (w : Workspace L R) :
    TokenStorage → CsvParser → Nat → List View → Outcome (CsvParser × TokenStorage)
  | storage, p, _, [] => .ok (p, storage)
  | storage, p, i, ns_value :: ns_values => do
    let (p, storage) ← parse_ns_cell w storage p i ns_value
    parse_ns_cells w storage p (i + 1) ns_values

def parse_ns_value (w : Workspace L R) (storage : TokenStorage) (p : CsvParser) :
    Outcome (CsvParser × TokenStorage) := do
  let (ns_values, storage) ← split w.lib p.line_num storage p.options.csv_ns_value 44 true
  parse_ns_cells w storage p 0 ns_values

/-! ## An example -/

/-- The characters of the cells of a line, by column. -/
abbrev Cells : Type := Nat → Outcome (List Byte)

/-- `_csv_line[column_index]`. -/
def cells (lib : StdLibrary) (storage : TokenStorage) (csv_line : List View) : Cells :=
  fun column_index =>
    match csv_line[column_index]? with
    | none => undefined
    | some view => view.read lib storage

/-- `parse_label`: the label and the reduction features after the default label was set. -/
def parse_label (w : Workspace L R) (p : CsvParser) (csv_line : Cells) (l : L) (r : R) :
    Outcome (L × R) :=
  match p.label_list with
  | [] => .ok (w.default_label l, r)
  | column :: _ => do
    let label_content ← csv_line column
    let words := Primitives.tokenize 32 (remove_outer_quotes p.options label_content) false
    if words = [] then .ok (w.default_label l, r) else w.parse_label (w.default_label l) r words

/-- `parse_tag`: what is added to the tag. -/
def parse_tag (p : CsvParser) (csv_line : Cells) : Outcome (List Byte) :=
  match p.tag_list with
  | [] => .ok []
  | column :: _ => do
    let tag ← csv_line column
    let tag := remove_outer_quotes p.options tag
    .ok (if tag.head? = some 39 then tag.drop 1 else tag)

/-- The number in a cell, `none` for a string. -/
def float_cell (w : Workspace L R) (string_feature_value : List Byte) : Option Single :=
  if string_feature_value.head? = some quote then none
  else
    let parsed_feature_value := w.string_to_float string_feature_value
    if parsed_feature_value.is_nan then none else some parsed_feature_value

/-- `_v == 0`. -/
def is_zero (v : Single) : Bool := v.magnitude = 0

/-- `parse_features`: the features and `_anon` after one cell. -/
def parse_features (w : Workspace L R) (p : CsvParser) (csv_line : Cells) (cur_channel_v : Single)
    (channel_hash : BitVec 64) (s : Features Single × Nat) (column_index : Nat) :
    Outcome (Features Single × Nat) := do
  let (fs, anon) := s
  let feature_name := p.header_fn.getD column_index []
  let string_feature_value ← csv_line column_index
  -- empty values are not added
  if string_feature_value = [] then .ok (fs, anon)
  else
    let (v, word_hash, anon) :=
      match float_cell w string_feature_value with
      | none =>
        let string_feature_value := remove_outer_quotes p.options string_feature_value
        (Single.one,
          (w.hasher string_feature_value
            (w.hasher feature_name (channel_hash.setWidth 32))).setWidth 64 &&& w.parse_mask, anon)
      | some parsed_feature_value =>
        if feature_name ≠ [] then
          (cur_channel_v * parsed_feature_value,
            (w.hasher feature_name (channel_hash.setWidth 32)).setWidth 64 &&& w.parse_mask, anon)
        else (cur_channel_v * parsed_feature_value, channel_hash + BitVec.ofNat 64 anon, anon + 1)
    -- nor are zeros
    if is_zero v then .ok (fs, anon) else .ok (fs.push_back v word_hash, anon)

/-- The loop over the columns of a namespace. -/
def parse_columns (w : Workspace L R) (p : CsvParser) (csv_line : Cells) (cur_channel_v : Single)
    (channel_hash : BitVec 64) : Features Single × Nat → List Nat → Outcome (Features Single × Nat)
  | s, [] => .ok s
  | s, column_index :: columns => do
    let s ← parse_features w p csv_line cur_channel_v channel_hash s column_index
    parse_columns w p csv_line cur_channel_v channel_hash s columns

/-- The full name of a namespace: that of the default one is a space. -/
def namespace_name (key : List Byte) : List Byte := if key = [] then [32] else key

/-- `_index`. -/
def namespace_index (key : List Byte) : Byte := first_char (namespace_name key)

/-- `_channel_hash`. -/
def namespace_hash (w : Workspace L R) (key : List Byte) : BitVec 64 :=
  if key = [] then
    (if w.hash_seed = 0 then 0 else (uniform_hash [] w.hash_seed).setWidth 64)
  else (w.hasher key w.hash_seed).setWidth 64

/-- `_cur_channel_v`. -/
def namespace_value (p : CsvParser) (key : List Byte) : Single :=
  (find_value p.ns_value key).getD Single.one

/-- One namespace of `parse_namespaces`. -/
def parse_namespace (w : Workspace L R) (p : CsvParser) (csv_line : Cells) (ae : Example L R)
    (f : List Byte × List Nat) : Outcome (Example L R) := do
  let index := namespace_index f.1
  let new_index := (ae.feature_space index).size = 0
  let fs := (ae.feature_space index).start_ns_extent (namespace_hash w f.1)
  let (fs, _) ← parse_columns w p csv_line (namespace_value p f.1) (namespace_hash w f.1) (fs, 0) f.2
  let fs := fs.end_ns_extent
  .ok { ae with
    feature_space := Function.update ae.feature_space index fs
    indices := if new_index ∧ 0 < fs.size then ae.indices ++ [index] else ae.indices }

/-- The loop of `parse_namespaces`. -/
def parse_namespaces (w : Workspace L R) (p : CsvParser) (csv_line : Cells) :
    Example L R → List (List Byte × List Nat) → Outcome (Example L R)
  | ae, [] => .ok ae
  | ae, f :: feature_list => do
    let ae ← parse_namespace w p csv_line ae f
    parse_namespaces w p csv_line ae feature_list

/-- `empty_line`: all cells of these columns are empty. -/
def empty_cells (csv_line : Cells) : List Nat → Outcome Bool
  | [] => .ok true
  | column_index :: columns => do
    let cell ← csv_line column_index
    let rest ← empty_cells csv_line columns
    .ok (cell = [] && rest)

/-- The entries of `feature_list`, as they are visited. -/
def visited (w : Workspace L R) (p : CsvParser) : List (List Byte × List Nat) :=
  w.lib.visits p.cleared p.feature_list

def feature_columns (w : Workspace L R) (p : CsvParser) : List Nat := (visited w p).flatMap (·.2)

def parse_example (w : Workspace L R) (p : CsvParser) (csv_line : Cells) (ae : Example L R) :
    Outcome (Example L R) := do
  let (l, r) ← parse_label w p csv_line ae.l ae.ex_reduction_features
  let tag ← parse_tag p csv_line
  let ae ← parse_namespaces w p csv_line
    { ae with l := l, ex_reduction_features := r, tag := ae.tag ++ tag } (visited w p)
  let empty_line ← empty_cells csv_line (feature_columns w p)
  .ok { ae with is_newline := empty_line }

/-! ## Lines -/

/-- What the first line sets up. -/
def set_up (w : Workspace L R) (storage : TokenStorage) (p : CsvParser) (csv_line : List View) :
    Outcome (CsvParser × TokenStorage) := do
  let p ←
    (if p.options.csv_header = [] then parse_header w.lib storage p 0 csv_line
    else do
      let (header_elements, storage) ← split w.lib p.line_num storage p.options.csv_header 44
      parse_header w.lib storage p 0 header_elements)
  if p.ns_value = [] ∧ p.options.csv_ns_value ≠ [] then parse_ns_value w storage p
  else .ok (p, storage)

def parse_line (w : Workspace L R) (storage : TokenStorage) (p : CsvParser) (csv_line : List View)
    (ae : Example L R) : Outcome (CsvParser × Example L R) := do
  let this_line_is_header := p.header_fn = [] ∧ p.options.csv_no_file_header = false
  let (p, storage) ←
    (if p.header_fn = [] then set_up w storage p csv_line else .ok (p, storage))
  if csv_line.length ≠ p.header_fn.length then
    throw_ ("CSV line " ++ toString p.line_num ++ " has " ++ toString csv_line.length ++
      " elements, but the header has " ++ toString p.header_fn.length ++ " elements!")
  else if this_line_is_header then .ok (p, ae)
  else do
    let ae ← parse_example w p (cells w.lib storage csv_line) ae
    .ok (p, ae)

/-- The constructor of `CSV_parser`. -/
def parse_csv_line (w : Workspace L R) (p : CsvParser) (ae : Example L R) (csv_line : List Byte) :
    Outcome (CsvParser × Example L R) :=
  if csv_line = [] then
    throw_ ("Malformed CSV, empty line at " ++ toString p.line_num ++ "!")
  else do
    let (views, storage) ← split w.lib p.line_num {} csv_line p.options.separator true
    parse_line w storage p views ae

def CsvParser.reset (p : CsvParser) : CsvParser :=
  if p.options.csv_header = [] then
    { p with
      header_fn := [], header_ns := [], label_list := [], tag_list := [], feature_list := [],
      cleared := if p.feature_list = [] then p.cleared else p.cleared ++ [p.feature_list.map Prod.fst],
      line_num := 0 }
  else { p with line_num := 0 }

/-- The line without the byte order mark in front of it. -/
def without_bom (line : List Byte) : List Byte :=
  match line with
  | 0xef :: 0xbb :: 0xbf :: rest => rest
  | _ => line

/-- The line without a character at its end. -/
def without_last (c : Byte) (line : List Byte) : List Byte :=
  if line.getLast? = some c then line.dropLast else line

/-- What the calls work on: the parser, the example that is filled and the rest of the input. -/
structure Reading (L R : Type) where
  parser : CsvParser
  ae : Example L R
  input : List Byte

/-- `csv_parser::read_line`: the number of bytes read, and what there is after it. -/
def read_line (w : Workspace L R) (s : Reading L R) : Outcome (Nat × Reading L R) :=
  let line := IoBuf.upto 10 s.input
  if 0 < line.length then do
    let csv_line := without_last 13 (without_last 10 (without_bom line))
    let p := { s.parser with line_num := s.parser.line_num + 1 }
    let (p, ae) ← parse_csv_line w p s.ae csv_line
    .ok (line.length, ⟨p, ae, s.input.drop line.length⟩)
  else .ok (line.length, { s with parser := s.parser.reset })

def parse_csv (w : Workspace L R) (s : Reading L R) : Outcome (Nat × Reading L R) := do
  let (num_bytes_consumed, s) ← read_line w s
  if s.parser.line_num = 1 ∧ s.parser.options.csv_no_file_header = false then do
    let (more, s) ← read_line w s
    .ok (num_bytes_consumed + more, s)
  else .ok (num_bytes_consumed, s)

/-- The examples that are read before `next` returns `false`, and the parser then. Every call
    that returns `true` has consumed a byte, so that the number of bytes bounds the calls. -/
def read_examples (w : Workspace L R) (blank : Example L R) :
    Nat → CsvParser → List Byte → Outcome (List (Example L R) × CsvParser)
  | 0, p, _ => .ok ([], p)
  | calls + 1, p, input => do
    let (num_bytes_consumed, s) ← parse_csv w ⟨p, blank, input⟩
    if num_bytes_consumed = 0 then .ok ([], s.parser)
    else do
      let (examples, p) ← read_examples w blank calls s.parser s.input
      .ok (s.ae :: examples, p)

/-- One reading of an input to its end. -/
def read_input (w : Workspace L R) (blank : Example L R) (p : CsvParser) (input : List Byte) :
    Outcome (List (Example L R) × CsvParser) :=
  read_examples w blank (input.length + 1) p input

end VW.Parsers.Csv
