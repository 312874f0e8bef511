import VowpalWabbit.Config.Options
import VowpalWabbit.Framework.Sorting

/-! # Options in a model

    The options of a model are one text in its header. Writing it:
    `cli_options_serializer` of `config/cli_options_serializer.cc`, and the loop over
    the options in `save_load_header` of `core/parse_regressor.cc`, where the
    namespaces of three of the options are merged. Reading it:
    `load_header_merge_options` of `core/parse_args.cc` splits the text at white
    space, collects the values of every name, and adds them to the command line.
-/

open Cpp

namespace VW.Config

/-! ## Saving -/

/-- `typed_option`: the value is there when the option has been parsed. -/
structure TypedOption extends BaseOption where
  value : Option type.Value := none

/-- What an option with a value is written as. -/
def serialize_value (m_name : List Byte) : (type : OptionType) → type.Value → List Byte
  | .bool, v => bif v then text " --" ++ m_name else []
  | .vector, v => v.flatMap fun value => text " --" ++ m_name ++ (text " " ++ value)
  -- The precision of the stream is 15.
  | type, v => text " --" ++ m_name ++ (text " " ++ print_value 15 type v)

def serialize (option : TypedOption) : Outcome (List Byte) :=
  match option.value with
  | some v => .ok (serialize_value option.m_name option.type v)
  | none =>
    Outcome.throw_ ("typed_option " ++ to_message option.m_name ++
      " does not contain value. use value_supplied to check if value exists.")

/-- The order of `char`, which is signed. -/
def char_order : LinearComparator Byte :=
  .of_key (fun c => (c + 128).toNat) fun _ _ h => by
    have := BitVec.eq_of_toNat_eq h
    simpa using this

/-- The keys of `merged_values`, in their order. -/
def merged_names : List (List Byte) := [text "ignore", text "ignore_linear", text "keep"]

/-- The variables of the loop over the options. -/
structure SaveState where
  serializer : List Byte := []
  merged_values : List Byte → OrderedSet char_order.toComparator := fun _ => .empty

/-- Merge and deduplicate the namespaces. -/
def merge_value (s : SaveState) (option : TypedOption) : Outcome SaveState :=
  match option with
  | ⟨⟨m_name, _, _, _, .vector, _⟩, some v⟩ =>
    .ok { s with
      merged_values := Function.update s.merged_values m_name
        (LinearComparator.insert_range (s.merged_values m_name) v.flatten) }
  | ⟨⟨m_name, _, _, _, .vector, _⟩, none⟩ =>
    Outcome.throw_ ("typed_option " ++ to_message m_name ++
      " does not contain value. use value_supplied to check if value exists.")
  | _ => Outcome.throw_ "std::bad_cast"

def save_option (was_supplied : List Byte → Bool) (s : SaveState) (option : TypedOption) :
    Outcome SaveState :=
  if option.m_keep && was_supplied option.m_name then
    if option.m_name ∈ merged_names then merge_value s option
    else do
      let written ← serialize option
      return { s with serializer := s.serializer ++ written }
  else .ok s

/-- The text of a merged value. -/
def merged_option (merged_values : List Byte → OrderedSet char_order.toComparator)
    (name : List Byte) : List Byte :=
  if (merged_values name).elements.isEmpty then []
  else text " --" ++ name ++ (text " " ++ (merged_values name).elements)

/-- `serialized_keep_options`: the options are those of the map, in its order. -/
def serialized_keep_options (was_supplied : List Byte → Bool) (options : List TypedOption)
    (current_state : BitVec 64) : Outcome (List Byte) := do
  let s ← options.foldlM (save_option was_supplied) {}
  let random_seed :=
    if current_state ≠ 0 then text " --random_seed" ++ (text " " ++ decimal current_state.toNat) else []
  return s.serializer ++ merged_names.flatMap (merged_option s.merged_values) ++ random_seed

/-! ## Loading -/

/-- What an `istream_iterator` of strings reads, `current` being the part of a word
    that was read. -/
def words_from (current : List Byte) : List Byte → List (List Byte)
  | [] => if current.isEmpty then [] else [current]
  | c :: cs =>
    if is_space c then
      if current.isEmpty then words_from [] cs else current :: words_from [] cs
    else words_from (current ++ [c]) cs

def words (s : List Byte) : List (List Byte) := words_from [] s

/-- An `unordered_map`, whose order of iteration the library does not promise. -/
abbrev OptionMap : Type := List (List Byte × List (List Byte))

structure IterationOrder where
  order : OptionMap → OptionMap
  perm : ∀ m, (order m).Perm m

/-- `m_map[name].push_back` of each token; the name is created if it does not
    exist. -/
def push_tokens (m_map : OptionMap) (name : List Byte) (tokens : List (List Byte)) : OptionMap :=
  if m_map.any fun kv => kv.1 == name then
    m_map.map fun kv => if kv.1 = name then (kv.1, kv.2 ++ tokens) else kv
  else m_map ++ [(name, tokens)]

/-- The loop of `parse_model_command_line_legacy`. -/
def parse_legacy : List (List Byte) → List Byte → OptionMap → OptionMap
  | [], _, m_map => m_map
  | token :: command_line, last_option, m_map =>
    if is_long_option_like token then
      parse_legacy command_line (token.drop 2) (push_tokens m_map (token.drop 2) [])
    else parse_legacy command_line last_option (push_tokens m_map last_option [token])

def parse_model_command_line_legacy (command_line : List (List Byte)) : OptionMap :=
  parse_legacy command_line [] []

def interaction_options : List (List Byte) := [text "quadratic", text "cubic", text "interactions"]

/-- The options that are added to the command line for one name. -/
def insert_values (options : OptionsCli) (kv : List Byte × List (List Byte)) : OptionsCli :=
  if kv.2.isEmpty then options.insert kv.1 []
  else kv.2.foldl (fun options value => options.insert kv.1 value) options

def merge_options_from_header_strings (iteration : IterationOrder) (strings : List (List Byte))
    (skip_interactions : Bool) (options : OptionsCli) (is_ccb_input_model : Bool) :
    OptionsCli × Bool :=
  let parsed_model_command_line := parse_model_command_line_legacy strings
  let parsed_model_command_line :=
    if skip_interactions then parsed_model_command_line.filter fun kv => kv.1 ∉ interaction_options
    else parsed_model_command_line
  ((iteration.order parsed_model_command_line).foldl insert_values options,
    is_ccb_input_model || parsed_model_command_line.any fun kv => kv.1 == text "ccb_explore_adf")

/-- `file_options.find(name) != npos`. -/
def contains_text (file_options name : List Byte) : Bool :=
  file_options.tails.any fun tail => tail.take name.length == name

def check_interaction_settings_collision (options : OptionsCli) (file_options : List Byte) : Bool :=
  let command_line_has_interaction := options.was_supplied (text "q") ||
    options.was_supplied (text "quadratic") || options.was_supplied (text "cubic") ||
    options.was_supplied (text "interactions")
  command_line_has_interaction && (contains_text file_options (text "--quadratic") ||
    contains_text file_options (text "--cubic") || contains_text file_options (text "--interactions"))

/-- `load_header_merge_options`, with the text that the header was read to. -/
def load_header_merge_options (iteration : IterationOrder) (file_options : List Byte)
    (options : OptionsCli) (is_ccb_input_model : Bool) : OptionsCli × Bool :=
  merge_options_from_header_strings iteration (words file_options)
    (check_interaction_settings_collision options file_options) options is_ccb_input_model

end VW.Config
