import Mathlib.Data.List.DropRight
import VowpalWabbit.Config.Options

/-! # Splitting a line of a CSV file

    `split` cuts a line at the separators that stand outside quotes and hands out
    a view of each cell. A cell with doubled quotes in it is copied without them to
    `_token_storage`, and its view is one of the copy.

    A short `std::string` keeps its characters within the object. When the vector of
    the copies moves its strings to a larger array, the views of its short strings
    are lost: to read one of them has no defined behaviour.
-/

open Cpp Outcome
open VW.Config (to_message)

namespace VW.Parsers.Csv

def quote : Byte := 34

/-! ## Views and the storage of copied cells -/

/-- What the C++ standard leaves to the library. -/
structure StdLibrary where
  /-- The length of the longest string that is kept within the object. -/
  local_capacity : Nat
  /-- The capacity of a full vector after one more `emplace_back`. -/
  grown : Nat → Nat
  grows : ∀ capacity, capacity < grown capacity
  /-- The order in which an unordered map is visited, after it was cleared of these keys. -/
  visits : List (List (List Byte)) → List (List Byte × List Nat) → List (List Byte × List Nat)
  visits_perm : ∀ cleared map, (visits cleared map).Perm map

theorem doubled_grows (capacity : Nat) : capacity < max 1 (2 * capacity) := by omega

/-- The strings and vectors of libstdc++; a map is visited as it is listed. -/
def libstdcxx : StdLibrary where
  local_capacity := 15
  grown capacity := max 1 (2 * capacity)
  grows := doubled_grows
  visits _ map := map
  visits_perm _ map := .refl map

/-- `std::vector<std::string> _token_storage`. -/
structure TokenStorage where
  strings : List (List Byte) := []
  capacity : Nat := 0
  /-- How often the strings were moved to a larger array. -/
  moves : Nat := 0
  deriving DecidableEq

/-- `VW::string_view`: of characters of the line, or of a string of the storage. -/
inductive View where
  | of_line (characters : List Byte)
  | of_token (index moves : Nat)
  deriving DecidableEq

namespace TokenStorage

def emplace_back (lib : StdLibrary) (t : TokenStorage) (s : List Byte) : TokenStorage :=
  if t.strings.length = t.capacity then
    { strings := t.strings ++ [s], capacity := lib.grown t.capacity, moves := t.moves + 1 }
  else { t with strings := t.strings ++ [s] }

/-- A view of `back()`. -/
def back (t : TokenStorage) : View := .of_token (t.strings.length - 1) t.moves

@[simp] theorem strings_emplace_back (lib : StdLibrary) (t : TokenStorage) (s : List Byte) :
    (t.emplace_back lib s).strings = t.strings ++ [s] := by
  unfold emplace_back
  split
  · rfl
  · rfl

end TokenStorage

/-- The characters under a view. -/
def View.read (lib : StdLibrary) (t : TokenStorage) : View → Outcome (List Byte)
  | .of_line characters => .ok characters
  | .of_token index moves =>
    match t.strings[index]? with
    | none => undefined
    -- a long string is moved as a pointer, a short one leaves its old characters behind
    | some s => if lib.local_capacity < s.length ∨ moves = t.moves then .ok s else undefined

/-! ## `split` -/

def trim_list : List Byte := [13, 10, 0xef, 0xbb, 0xbf, 12, 11]

/-- "Trim extra characters that are useless for us to read". -/
def trim (sv : List Byte) : List Byte :=
  (sv.dropWhile (· ∈ trim_list)).rdropWhile (· ∈ trim_list)

/-- The variables of the loop of `split`. -/
structure SplitState where
  i : Nat := 0
  pointer : Nat := 0
  inside_quotes : Bool := false
  unquoted_quotes_index : List Nat := []
  collections : List View := []
  storage : TokenStorage

/-- One round of the loop of `unescape`: the part up to the next dropped quote. -/
def unescape_step (element : List Byte) (s : Nat × List Byte) (index : Nat) : Nat × List Byte :=
  let (quotes_pointer, new_string) := s
  let sv_size := index - quotes_pointer
  (index + 1,
    if 0 < sv_size ∧ quotes_pointer < element.length then
      new_string ++ (element.drop quotes_pointer).take sv_size
    else new_string)

/-- "Make double escaped quotes into one". -/
def unescape (element : List Byte) (unquoted_quotes_index : List Nat) : List Byte :=
  ((unquoted_quotes_index ++ [element.length]).foldl (unescape_step element) (0, [])).2

/-- The element that ends at `i`, the end of the line or a separator. -/
def split_element (sv : List Byte) (ch : Byte) (s : SplitState) : List Byte :=
  if s.i = sv.length ∧ sv[s.i - 1]? = some ch then []
  else (sv.drop s.pointer).take (s.i - s.pointer)

/-- The view of the element and the storage behind it. -/
def store_element (lib : StdLibrary) (element : List Byte) (s : SplitState) :
    View × TokenStorage :=
  if s.unquoted_quotes_index = [] then (.of_line element, s.storage)
  else
    let storage := s.storage.emplace_back lib (unescape element s.unquoted_quotes_index)
    (storage.back, storage)

/-- The body of the loop of `split`, with its `i++`. -/
def split_step (lib : StdLibrary) (line_num : Nat) (sv : List Byte) (ch : Byte) (use_quotes : Bool)
    (s : SplitState) : Outcome SplitState :=
  if s.i = sv.length ∧ s.inside_quotes then
    throw_ ("Unclosed quote at end of line " ++ toString line_num ++ ".")
  else if use_quotes ∧ ¬ s.inside_quotes ∧ s.i = s.pointer ∧ s.i < sv.length ∧
      sv[s.i]? = some quote then
    .ok { s with inside_quotes := true, i := s.i + 1 }
  else if use_quotes ∧ s.inside_quotes ∧ s.i < sv.length - 1 ∧ sv[s.i]? = some quote ∧
      sv[s.i]? = sv[s.i + 1]? then
    .ok { s with
      unquoted_quotes_index := s.unquoted_quotes_index ++ [s.i - s.pointer], i := s.i + 1 + 1 }
  else if use_quotes ∧ s.inside_quotes ∧
      ((s.i < sv.length - 1 ∧ sv[s.i]? = some quote ∧ sv[s.i + 1]? = some ch) ∨
        (s.i = sv.length - 1 ∧ sv[s.i]? = some quote)) then
    .ok { s with inside_quotes := false, i := s.i + 1 }
  else if use_quotes ∧ s.inside_quotes ∧ s.i < sv.length ∧ sv[s.i]? = some quote then
    throw_ ("Unescaped quote at position " ++ toString (s.i + 1) ++ " of line " ++
      toString line_num ++ ", double-quote appearing inside a cell must be escaped by " ++
      "preceding it with another double-quote!")
  else if s.i = sv.length ∨ (¬ s.inside_quotes ∧ sv[s.i]? = some ch) then
    let (view, storage) := store_element lib (split_element sv ch s) s
    .ok { s with
      collections := s.collections ++ [view], storage := storage, unquoted_quotes_index := [],
      pointer := if s.i < sv.length - 1 then s.i + 1 else s.pointer, i := s.i + 1 }
  else .ok { s with i := s.i + 1 }

/-- The loop `i <= sv.length()`. Each round takes `i` further, so that `sv.length() + 1`
    rounds are all there can be. -/
def split_loop (lib : StdLibrary) (line_num : Nat) (sv : List Byte) (ch : Byte)
    (use_quotes : Bool) : Nat → SplitState → Outcome SplitState
  | 0, s => .ok s
  | rounds + 1, s =>
    if s.i ≤ sv.length then do
      let s ← split_step lib line_num sv ch use_quotes s
      split_loop lib line_num sv ch use_quotes rounds s
    else .ok s

def split (lib : StdLibrary) (line_num : Nat) (storage : TokenStorage) (sv : List Byte) (ch : Byte)
    (use_quotes : Bool := false) : Outcome (List View × TokenStorage) :=
  let sv := trim sv
  if sv = [] then .ok ([.of_line []], storage)
  else do
    let s ← split_loop lib line_num sv ch use_quotes (sv.length + 1) { storage := storage }
    .ok (s.collections, s.storage)

def remove_quotation_marks (sv : List Byte) : List Byte :=
  if 1 < sv.length ∧ sv[0]? = some quote ∧ sv[0]? = sv[sv.length - 1]? then
    (sv.drop 1).take (sv.length - 2)
  else sv

/-! ## The separator -/

/-- `class csv_parser_options`. -/
structure CsvParserOptions where
  enabled : Bool := false
  csv_separator : List Byte := text ","
  csv_no_file_header : Bool := false
  csv_header : List Byte := []
  csv_ns_value : List Byte := []
  csv_remove_outer_quotes : Bool := true

/-- `str[0]`, with the `\0` that ends every string. -/
def first_char (str : List Byte) : Byte := str.headD 0

def set_csv_separator (str name : List Byte) : Outcome (List Byte) :=
  if 1 < str.length then
    let result : Byte :=
      if str[0]? = some 92 then (if str[1]? = some 116 then 9 else first_char str)
      else first_char str
    if (result ≠ first_char str ∧ 2 < str.length) ∨ result = first_char str then
      throw_ ("Multiple characters passed as " ++ to_message name ++ ": " ++ to_message str)
    else .ok [result]
  else .ok str

def csv_separator_forbid_chars : List Byte := text "\"|:"

def handle_parse_args (parsed_options : CsvParserOptions) : Outcome CsvParserOptions := do
  if parsed_options.enabled then
    let csv_separator ← set_csv_separator parsed_options.csv_separator (text "CSV separator")
    if first_char csv_separator ∈ csv_separator_forbid_chars then
      throw_ ("Forbidden field separator used: " ++ to_message [first_char csv_separator])
    else if parsed_options.csv_no_file_header ∧ parsed_options.csv_header = [] then
      throw_ "No header specified while --csv_no_file_header is set."
    else .ok { parsed_options with csv_separator := csv_separator }
  else .ok parsed_options

/-- The separator of a parser that was set up. -/
def CsvParserOptions.separator (options : CsvParserOptions) : Byte :=
  first_char options.csv_separator

/-- What `handle_parse_args` lets pass. -/
structure CsvParserOptions.Accepted (options : CsvParserOptions) : Prop where
  separator : options.separator ∉ csv_separator_forbid_chars
  header : options.csv_no_file_header = true → options.csv_header ≠ []

theorem accepted_of_handle_parse_args {given options : CsvParserOptions}
    (henabled : given.enabled = true) (h : handle_parse_args given = .ok options) :
    options.Accepted := by
  unfold handle_parse_args at h
  rw [if_pos henabled] at h
  obtain ⟨csv_separator, -, h⟩ := Outcome.bind_eq_ok.mp h
  split at h
  · cases h
  · rename_i hseparator
    split at h
    · cases h
    · rename_i hheader
      cases h
      constructor
      · exact hseparator
      · intro hno hempty
        exact hheader ⟨hno, hempty⟩

theorem CsvParserOptions.Accepted.ne_quote {options : CsvParserOptions} (h : options.Accepted) :
    options.separator ≠ quote := by
  intro heq
  apply h.separator
  rw [heq]
  decide

end VW.Parsers.Csv
