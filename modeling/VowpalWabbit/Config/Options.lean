import VowpalWabbit.Framework.Numerals

/-! # Command-line options

    `config/option.h` and `config/options_cli.cc`: typed options, and how the
    tokens of a command line are given to them. Which tokens are values depends on
    the options that are known when the command line is parsed, and it is parsed
    again for every group of options.

    Texts are lists of bytes. The map of tokens is only looked up and extended,
    never iterated, and is a function here.
-/

open Cpp Outcome

namespace VW.Config

/-- A text for a message. -/
def to_message (s : List Byte) : String := String.ofList (s.map fun c => Char.ofNat c.toNat)

/-! ## Typed options -/

/-- The types that `typed_option` may have. -/
inductive OptionType where
  | uint32
  | uint64
  | int32
  | int64
  | float
  | string
  | bool
  | vector
  deriving DecidableEq, Repr

/-- The values of an option of a type. -/
abbrev OptionType.Value : OptionType → Type
  | .uint32 => BitVec 32
  | .uint64 => BitVec 64
  | .int32 => BitVec 32
  | .int64 => BitVec 64
  | .float => Single
  | .string => List Byte
  | .bool => Bool
  | .vector => List (List Byte)

/-- `base_option`, with the default value of the `typed_option` it is. -/
structure BaseOption where
  m_name : List Byte
  m_short_name : Option Byte := none
  m_keep : Bool := false
  m_allow_override : Bool := false
  type : OptionType
  default_value : Option type.Value := none

/-- `operator<<`, with the precision of the stream. -/
def print_value (precision : Nat) : (type : OptionType) → type.Value → List Byte
  | .uint32, v => decimal v.toNat
  | .uint64, v => decimal v.toNat
  | .int32, v => print_integer v.toInt
  | .int64, v => print_integer v.toInt
  | .float, v => v.print precision
  | .string, v => v
  | .bool, v => bif v then [49] else [48]
  | .vector, v => v.flatten

/-- `convert_token_value`, for the types of a single value. -/
def convert_token_value (type : OptionType) (token : List Byte) : Outcome type.Value :=
  let from_scan {T : Type} (name : String) (scanned : Option T) : Outcome T :=
    match scanned with
    | some v => .ok v
    | none => throw_ ("Failed to convert " ++ to_message token ++ " to " ++ name)
  match type with
  | .uint32 => from_scan "j" (scan_unsigned 32 token)
  | .uint64 => from_scan "m" (scan_unsigned 64 token)
  | .int32 => from_scan "i" (scan_signed 32 token)
  | .int64 => from_scan "l" (scan_signed 64 token)
  | .float => from_scan "f" (scan_float token)
  | .string => .ok token
  | .bool => .ok true
  | .vector => .ok [token]

/-- `operator!=`; the two zeros of a `float` are equal. -/
def differs : (type : OptionType) → type.Value → type.Value → Bool
  | .uint32, v, w => v != w
  | .uint64, v, w => v != w
  | .int32, v, w => v != w
  | .int64, v, w => v != w
  | .float, v, w => v.is_nan || w.is_nan || v.signed_units != w.signed_units
  | .string, v, w => v != w
  | .bool, v, w => v != w
  | .vector, v, w => v != w

/-! ## Tokens -/

def is_number (str : List Byte) : Bool :=
  !str.isEmpty && strtof_rest (str.takeWhile (· ≠ 0)) == []

def is_terminator (token : List Byte) : Bool := token == text "--"

def is_long_option_like (token : List Byte) : Bool :=
  token.take 2 == text "--" && decide (2 < token.length)

def is_short_option_like (token : List Byte) : Bool :=
  token.head? == some 45 && decide (1 < token.length) && token[1]? != some 45 && !is_number token

def is_option_like (token : List Byte) : Bool :=
  is_long_option_like token || is_short_option_like token || is_terminator token

/-- From the names of options to their tokens. -/
abbrev TokenMap : Type := List Byte → Option (List (List Byte))

namespace TokenMap

def empty : TokenMap := fun _ => none

/-- `result[name]`, which is created if it does not exist, and `push_back` for each
    token. -/
def push_back (m : TokenMap) (name : List Byte) (tokens : List (List Byte)) : TokenMap :=
  Function.update m name (some ((m name).getD [] ++ tokens))

end TokenMap

/-- The options that are known, by their names. -/
abbrev KnownOptions : Type := List Byte → Option BaseOption

abbrev KnownShortOptions : Type := Byte → Option BaseOption

/-- The tokens up to the next one that looks like an option, and those from there. -/
def consume_until_next_option_like (command_line : List (List Byte)) :
    List (List Byte) × List (List Byte) :=
  (command_line.takeWhile fun token => !is_option_like token,
    command_line.dropWhile fun token => !is_option_like token)

/-- The first token is a value in any case. -/
def consume_first (opt : BaseOption) (command_line current_tokens : List (List Byte)) :
    Outcome (List (List Byte) × List (List Byte)) :=
  match current_tokens, command_line with
  | [], [] => throw_ ("Expected value for " ++ to_message opt.m_name ++ " but found nothing")
  | [], token :: command_line => .ok ([token], command_line)
  | current_tokens, command_line => .ok (current_tokens, command_line)

/-- The tokens that become values of an option, and the rest of the command line. -/
def consume_tokens (opt : BaseOption) (command_line current_tokens : List (List Byte)) :
    Outcome (List (List Byte) × List (List Byte)) :=
  match opt.type with
  | .bool =>
    if current_tokens.isEmpty then .ok (current_tokens, command_line)
    else
      throw_ ("Expected no value for " ++ to_message opt.m_name ++
        " which is a boolean switch but found " ++ toString current_tokens.length ++ " values")
  | .vector => do
    let (current_tokens, command_line) ← consume_first opt command_line current_tokens
    let (output, command_line) := consume_until_next_option_like command_line
    return (current_tokens ++ output, command_line)
  | _ => consume_first opt command_line current_tokens

def POSITIONAL : List Byte := text "__POSITIONAL__"

/-- What a token becomes that no option takes, or the tokens of the option. -/
def consume_known (known_opt : Option BaseOption) (current_token : List Byte)
    (command_line current_tokens : List (List Byte)) (result : TokenMap) :
    Outcome (List (List Byte) × TokenMap) :=
  match known_opt with
  | none => .ok (command_line, result.push_back POSITIONAL [current_token])
  | some option_spec => do
    let (tokens, command_line) ← consume_tokens option_spec command_line current_tokens
    return (command_line, result.push_back option_spec.m_name tokens)

/-- `consume_long_option`: `current_token` is the front of the queue. -/
def consume_long_option (known_options : KnownOptions) (current_token : List Byte)
    (command_line : List (List Byte)) (result : TokenMap) : Outcome (List (List Byte) × TokenMap) :=
  let current_opt := current_token.drop 2
  let name := current_opt.takeWhile (· ≠ 61)
  let opt_value := (current_opt.dropWhile (· ≠ 61)).drop 1
  if current_opt.contains 61 && opt_value.isEmpty then
    throw_ ("Argument for " ++ to_message name ++ " should follow =")
  else if name.isEmpty then
    throw_ "Expected long option name after -- but found nothing"
  else
    let current_tokens := if current_opt.contains 61 then [opt_value] else []
    consume_known (known_options name) current_token command_line current_tokens result

/-- `consume_short_option`: the token is `-` and the name, and may go on with the
    value. -/
def consume_short_option (known_short_options : KnownShortOptions) (current_token : List Byte)
    (command_line : List (List Byte)) (result : TokenMap) : Outcome (List (List Byte) × TokenMap) :=
  match current_token with
  | _ :: current_opt :: opt_value =>
    let current_tokens := if opt_value.isEmpty then [] else [opt_value]
    consume_known (known_short_options current_opt) current_token command_line current_tokens result
  | _ => .ok (command_line, result.push_back POSITIONAL [current_token])

/-- One round of the loop: what is left of the queue, and the map. -/
def consume_token (should_handle_terminator : Bool) (known_options : KnownOptions)
    (known_short_options : KnownShortOptions) (token : List Byte) (tokens : List (List Byte))
    (m_map : TokenMap) : Outcome (List (List Byte) × TokenMap) :=
  if is_long_option_like token then consume_long_option known_options token tokens m_map
  else if is_short_option_like token then consume_short_option known_short_options token tokens m_map
  else if should_handle_terminator && is_terminator token then
    -- Every token that follows is positional.
    .ok ([], tokens.foldl (fun m_map token => m_map.push_back POSITIONAL [token]) m_map)
  else .ok (tokens, m_map.push_back POSITIONAL [token])

/-- The rounds; every round takes one token or more, so that there are not more of
    them than tokens. -/
def parse_rounds (should_handle_terminator : Bool) (known_options : KnownOptions)
    (known_short_options : KnownShortOptions) : Nat → List (List Byte) → TokenMap → Outcome TokenMap
  | _, [], m_map => .ok m_map
  | 0, _ :: _, m_map => .ok m_map
  | rounds + 1, token :: tokens, m_map => do
    let (tokens, m_map) ←
      consume_token should_handle_terminator known_options known_short_options token tokens m_map
    parse_rounds should_handle_terminator known_options known_short_options rounds tokens m_map

def parse_token_map_with_current_info (command_line : List (List Byte))
    (known_options : KnownOptions) (known_short_options : KnownShortOptions)
    (should_handle_terminator : Bool) : Outcome TokenMap :=
  parse_rounds should_handle_terminator known_options known_short_options command_line.length
    command_line TokenMap.empty

/-! ## Values -/

def check_disagreeing_option_values (type : OptionType) (value : type.Value) (name : List Byte)
    (final_arguments : List type.Value) : Outcome Unit :=
  match final_arguments.find? fun item => differs type item value with
  | some item =>
    throw_ ("Disagreeing option values for '" ++ to_message name ++ "': '" ++
      to_message (print_value 6 type value) ++ "' vs '" ++ to_message (print_value 6 type item) ++ "'")
  | none => .ok ()

/-- `handle_typed_option` of the type of a single value: the command line stands in
    front of the model, and the first value is used. -/
def handle_single (option : BaseOption) (all_tokens : List (List Byte)) :
    Outcome (Option option.type.Value) := do
  let values ← all_tokens.mapM (convert_token_value option.type)
  match values with
  | [] => undefined
  | value_to_use :: rest =>
    if option.m_allow_override then return some value_to_use
    else do
      check_disagreeing_option_values option.type value_to_use option.m_name (value_to_use :: rest)
      return some value_to_use

/-- `handle_typed_option`: the value that is set, if one is. -/
def handle_typed_option (m_tokens : TokenMap) (option : BaseOption) :
    Outcome (Option option.type.Value) :=
  match option with
  | ⟨m_name, _, _, _, .bool, default_value⟩ =>
    match m_tokens m_name with
    | some _ => .ok (some true)
    -- Without a default it is set to false.
    | none => .ok (some (default_value.getD false))
  | ⟨m_name, _, _, _, .vector, default_value⟩ =>
    match m_tokens m_name with
    | some all_tokens => .ok (some all_tokens)
    | none => .ok default_value
  | option =>
    match m_tokens option.m_name with
    | some all_tokens => handle_single option all_tokens
    | none => .ok option.default_value

/-! ## The options of a command line -/

structure OptionsCli where
  command_line : List (List Byte)
  prog_parsed_token_map : TokenMap := TokenMap.empty

namespace OptionsCli

def starts_with (arg key : List Byte) : Bool := arg.take key.length == key

def was_supplied (options : OptionsCli) (key : List Byte) : Bool :=
  (options.prog_parsed_token_map key).isSome ||
    (options.command_line.any fun arg => starts_with arg (45 :: key)) ||
    (options.command_line.any fun arg => starts_with arg (text "--" ++ key) &&
      (decide (arg.length = key.length + 2) || arg[key.length + 2]? == some 61))

/-- `insert`; an empty value is no token. -/
def insert (options : OptionsCli) (key value : List Byte) : OptionsCli :=
  { options with
    command_line := options.command_line ++ (text "--" ++ key) :: (if value.isEmpty then [] else [value]) }

end OptionsCli

end VW.Config
