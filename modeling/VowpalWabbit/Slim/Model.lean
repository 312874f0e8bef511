import VowpalWabbit.Framework.Codes
import VowpalWabbit.Framework.Text
import VowpalWabbit.Hash
import VowpalWabbit.Slim.Widths

/-! # Loading a model in slim

    `slim/src/opts.cc`, `model_parser` and `vw_predict::load`. The options of a model are
    found by searching its command line, and `load` sets the members of the object one after
    the other: what it has set stays when it returns an error.
-/

open Cpp Coded

namespace VW.Slim

/-! ## Options -/

/-- What stands behind the first `arg_name`. -/
def behind (arg_name : List Byte) : List Byte → Option (List Byte)
  | [] => none
  | c :: rest =>
    if arg_name.isPrefixOf (c :: rest) then some ((c :: rest).drop arg_name.length)
    else behind arg_name rest

/-- `-5.2` is a value, and `-q` is the next option. -/
def is_option : List Byte → Bool
  | [] => false
  | c :: rest => c == 45 && !(rest.head?.any is_digit)

/-- The rounds of `find_opt`, from the place where the search starts. A round ends behind this
    place, so that one round for each character is enough. -/
def find_opt_loop (arg_name : List Byte) : Nat → List Byte → List (List Byte)
  | 0, _ => []
  | fuel + 1, start =>
    match behind arg_name start with
    | none => []
    | some found =>
      let value := found.dropWhile is_space
      if value = [] then []
      else if is_option value then find_opt_loop arg_name fuel value
      else value.takeWhile (fun c => !is_space c) :: find_opt_loop arg_name fuel value.tail

def find_opt (command_line_args arg_name : List Byte) : List (List Byte) :=
  find_opt_loop (arg_name ++ text " ") (command_line_args.length + 1) command_line_args

/-- `command_line_args.find(arg_name) != std::string::npos`. -/
def contains (command_line_args arg_name : List Byte) : Bool := (behind arg_name command_line_args).isSome

/-- `find_opt_parse`: there must be exactly one value. -/
def find_opt_parse {T : Type} (parse : List Byte → T) (command_line_args arg_name : List Byte) : Option T :=
  match find_opt command_line_args arg_name with
  | [value] => some (parse value)
  | _ => none

/-- `atoi`; a number that is no `int` has no defined behaviour. -/
def atoi (s : List Byte) : Outcome Int :=
  let s := s.dropWhile is_space
  let negative := s.head? == some 45
  let digits := (if negative || s.head? == some 43 then s.tail else s).takeWhile is_digit
  let value : Int := if negative then -(digits_value digits : Int) else digits_value digits
  if -2 ^ 31 ≤ value ∧ value < 2 ^ 31 then .ok value else Outcome.undefined

def find_opt_int (command_line_args arg_name : List Byte) : Outcome (Option Int) :=
  match find_opt_parse atoi command_line_args arg_name with
  | some value => value.map some
  | none => .ok none

example : find_opt (text "--cb_adf -q ab --bag 5 -q  -q :: --lambda -2") (text "-q") = [text "ab", text "::"] := by
  decide +kernel

example : find_opt_int (text "--cb_adf -q ab --bag 5") (text "--bag") = .ok (some 5) := by
  decide +kernel

/-! ## The parser -/

def E_VW_PREDICT_ERR_INVALID_MODEL : Int := 1
def E_VW_PREDICT_ERR_WEIGHT_INDEX_OUT_OF_RANGE : Int := 2
def E_VW_PREDICT_ERR_GD_RESUME_NOT_SUPPORTED : Int := 3
def E_VW_PREDICT_ERR_CB_EXPLORATION_MISSING : Int := 4
def E_VW_PREDICT_ERR_INVALID_MODEL_CHECK_SUM : Int := 9
def E_VW_PREDICT_ERR_HASH_SEED_NOT_SUPPORTED : Int := 10

/-- `model_parser`: what is left of the buffer, and the checksum. -/
structure ModelParser where
  model : List Byte
  checksum : BitVec 32

namespace ModelParser

def add_checksum (data : List Byte) : Coded ModelParser Unit :=
  modify fun mp => { mp with checksum := uniform_hash data mp.checksum }

/-- `read(field_name, field_length, ret)`. -/
def take (field_length : Nat) : Coded ModelParser (List Byte) := fun mp =>
  if mp.model.length < field_length then .ok (.error E_VW_PREDICT_ERR_INVALID_MODEL, mp)
  else .ok (.ok (mp.model.take field_length), { mp with model := mp.model.drop field_length })

/-- `skip`; the bytes go into the checksum. -/
def skip (bytes : Nat) : Coded ModelParser Unit := do
  let data ← take bytes
  if 0 < bytes then add_checksum data
  else pure ()

/-- `skip`, with the code that it returns ignored. -/
def try_skip (bytes : Nat) : Coded ModelParser Unit := fun mp =>
  match skip bytes mp with
  | .ok (.ok _, mp) => .ok (.ok (), mp)
  | .ok (.error _, mp) => .ok (.ok (), mp)
  | .error e => .error e

/-- `read<T, compute_checksum>`, for an unsigned integer of `size` bytes. -/
def read (compute_checksum : Bool) (size : Nat) : Coded ModelParser Nat := do
  let data ← take size
  if compute_checksum then add_checksum data
  else pure ()
  pure (of_le_bytes data)

/-- `read_string`; the string ends with a `\0` that is counted. -/
def read_string (compute_checksum : Bool) : Coded ModelParser (List Byte) := do
  let str_len ← read compute_checksum 4
  if str_len = 0 then fail E_VW_PREDICT_ERR_INVALID_MODEL
  else do
    let data ← take str_len
    if compute_checksum then add_checksum data
    else pure ()
    pure (data.take (str_len - 1))

end ModelParser

/-! ## The object -/

inductive VwPredictExploration where
  | epsilon_greedy
  | softmax
  | bag
  deriving DecidableEq, Repr

/-- The weights, dense or sparse, for a stride of 1: they are 0 where nothing was written. -/
structure Weights (V : Type) where
  weight_mask : BitVec 64
  weight : BitVec 64 → V

namespace Weights

variable {V : Type}

def init [Zero V] (length : BitVec 64) : Weights V := ⟨length - 1, fun _ => 0⟩

def get (w : Weights V) (i : BitVec 64) : V := w.weight (i &&& w.weight_mask)

def set (w : Weights V) (i : BitVec 64) (v : V) : Weights V :=
  { w with weight := Function.update w.weight (i &&& w.weight_mask) v }

end Weights

/-- `vw_predict`. The constructor leaves the members that are `none` at first without a
    value. -/
structure VwPredict (V : Type) where
  weights : Option (Weights V)
  command_line_arguments : List Byte
  interactions : List (List NamespaceIndex)
  generate_interactions : InteractionsGenerator
  contains_wildcard : Bool
  no_constant : Option Bool
  exploration : Option VwPredictExploration
  minimum_epsilon : Option V
  epsilon : Option V
  lambda : Option V
  bag_size : Option Nat
  num_bits : Option Nat
  feature_scale_bits : Option Nat
  model_loaded : Bool

def vw_predict (V : Type) : VwPredict V where
  weights := none
  command_line_arguments := []
  interactions := []
  generate_interactions := InteractionsGenerator.init
  contains_wildcard := false
  no_constant := none
  exploration := none
  minimum_epsilon := none
  epsilon := none
  lambda := none
  bag_size := none
  num_bits := none
  feature_scale_bits := none
  model_loaded := false

/-! ## Loading -/

/-- What `load` works on. -/
structure Loading (V : Type) where
  mp : ModelParser
  object : VwPredict V

variable {V : Type}

/-- A step of the parser. -/
def parse {A : Type} (x : Coded ModelParser A) : Coded (Loading V) A := fun s =>
  match x s.mp with
  | .ok (r, mp) => .ok (r, { s with mp := mp })
  | .error e => .error e

/-- An assignment to members of the object. -/
def assign (f : VwPredict V → VwPredict V) : Coded (Loading V) Unit :=
  modify fun s => { s with object := f s.object }

/-- The header up to `num_bits`. -/
def read_num_bits : Coded ModelParser Nat := do
  let _version ← ModelParser.read_string false
  let _id ← ModelParser.read_string true
  -- The model character, and the smallest and the largest label.
  ModelParser.skip 1
  ModelParser.skip 4
  ModelParser.skip 4
  ModelParser.read true 4

/-- The header from there up to the options; the products are of 32 bit. -/
def read_file_options : Coded ModelParser (List Byte) := do
  ModelParser.skip 4
  let ngram_len ← ModelParser.read true 4
  ModelParser.try_skip (3 * ngram_len % 2 ^ 32)
  let skips_len ← ModelParser.read true 4
  ModelParser.try_skip (3 * skips_len % 2 ^ 32)
  ModelParser.read_string true

/-- The interactions of a command line, each of them sorted. -/
def find_interactions (command_line_arguments : List Byte) : List (List NamespaceIndex) :=
  (find_opt command_line_arguments (text "-q") ++ find_opt command_line_arguments (text "--quadratic") ++
    find_opt command_line_arguments (text "--cubic") ++
      find_opt command_line_arguments (text "--interactions")).map
    fun interaction => interaction.insertionSort fun a b => a ≤ b

/-- Whether a command line has a wildcard in an interaction. -/
def has_wildcard (command_line_arguments : List Byte) : Bool :=
  (find_interactions command_line_arguments).any contains_wildcard

def is_cb_explore_adf (command_line_arguments : List Byte) : Bool :=
  contains command_line_arguments (text "--cb_explore_adf")

/-- What is used of numbers: they are read from texts and from the four bytes of a `float`. -/
structure Numbers (V : Type) where
  atof : List Byte → V
  of_bits : BitVec 32 → V

variable [Zero V] [Neg V] [LT V] [DecidableLT V] (numbers : Numbers V)

/-- The exploration options; the result is the feature scale. -/
def load_exploration (command_line_arguments : List Byte) : Coded (Loading V) Nat := do
  let find_opt_float := find_opt_parse numbers.atof command_line_arguments
  if is_cb_explore_adf command_line_arguments then do
    let bag ← lift (find_opt_int command_line_arguments (text "--bag"))
    match bag with
    | some bag_size =>
      if bag_size < 0 then fail E_VW_PREDICT_ERR_INVALID_MODEL
      else do
        -- An additional minimum for epsilon greedy.
        assign fun object => { object with
          bag_size := some bag_size.toNat
          exploration := some .bag
          minimum_epsilon := some ((find_opt_float (text "--epsilon")).getD 0) }
        pure bag_size.toNat
    | none =>
      if contains command_line_arguments (text "--softmax") then
        match find_opt_float (text "--lambda") with
        | some lambda => do
          -- A cost basis, so that it is negative.
          assign fun object => { object with
            lambda := some (if 0 < lambda then -lambda else lambda)
            exploration := some .softmax }
          pure 0
        | none => pure 0
      else
        match find_opt_float (text "--epsilon") with
        | some epsilon => do
          assign fun object => { object with epsilon := some epsilon, exploration := some .epsilon_greedy }
          pure 0
        | none => fail E_VW_PREDICT_ERR_CB_EXPLORATION_MISSING
  else pure 0

/-- `while (_model < _model_end)` of `read_weights`, for indices of `size` bytes. -/
def read_weights_loop (size weight_length : Nat) : Nat → Coded (Loading V) Unit
  | 0 => pure ()
  | fuel + 1 => do
    let rest ← reads (·.mp.model)
    if rest = [] then pure ()
    else do
      let idx ← parse (ModelParser.read false size)
      if weight_length < idx then fail E_VW_PREDICT_ERR_WEIGHT_INDEX_OUT_OF_RANGE
      else do
        let w ← parse (ModelParser.read false 4)
        assign fun object => { object with
          weights := object.weights.map fun weights =>
            weights.set (BitVec.ofNat 64 idx) (numbers.of_bits (BitVec.ofNat 32 w)) }
        read_weights_loop size weight_length fuel

/-- `read_weights`. A round reads at least one byte. -/
def read_weights (num_bits : Nat) : Coded (Loading V) Unit := do
  if 64 ≤ num_bits then undefined
  else do
    assign fun object => { object with weights := some (Weights.init (BitVec.ofNat 64 (2 ^ num_bits))) }
    let rest ← reads (·.mp.model)
    read_weights_loop numbers (if num_bits < 31 then 4 else 8) (2 ^ num_bits) rest.length

def check_checksum : Coded (Loading V) Unit := do
  let check_sum_computed ← reads (·.mp.checksum)
  let check_sum_len ← parse (ModelParser.read false 4)
  if check_sum_len ≠ 4 then fail E_VW_PREDICT_ERR_INVALID_MODEL
  else do
    let check_sum ← parse (ModelParser.read false 4)
    if check_sum_computed.toNat ≠ check_sum then fail E_VW_PREDICT_ERR_INVALID_MODEL_CHECK_SUM
    else pure ()

/-- What stands in front of the weights. Only 0 and 1 are the bytes of a `bool`. -/
def skip_to_weights (command_line_arguments : List Byte) : Coded ModelParser Unit := do
  if contains command_line_arguments (text "--cb_adf") then do
    -- The sums of events and of actions.
    ModelParser.skip 8
    ModelParser.skip 8
  else pure ()
  let gd_resume ← ModelParser.read true 1
  if gd_resume = 1 then fail E_VW_PREDICT_ERR_GD_RESUME_NOT_SUPPORTED
  else if gd_resume = 0 then pure ()
  else undefined

/-- `load`, of a buffer that is not empty. -/
def load_model : Coded (Loading V) Unit := do
  assign fun object => { object with model_loaded := false }
  let num_bits ← parse read_num_bits
  assign fun object => { object with num_bits := some num_bits }
  let command_line_arguments ← parse read_file_options
  assign fun object => { object with
    command_line_arguments := command_line_arguments
    no_constant := some (contains command_line_arguments (text "--noconstant")) }
  let hash_seed ← lift (find_opt_int command_line_arguments (text "--hash_seed"))
  if hash_seed.any (· ≠ 0) then fail E_VW_PREDICT_ERR_HASH_SEED_NOT_SUPPORTED
  else do
    assign fun object => { object with
      interactions := find_interactions command_line_arguments
      contains_wildcard := object.contains_wildcard || has_wildcard command_line_arguments }
    let feature_scale ← load_exploration numbers command_line_arguments
    check_checksum
    parse (skip_to_weights command_line_arguments)
    assign fun object => { object with feature_scale_bits := some (ceil_log_2 feature_scale) }
    read_weights numbers num_bits
    assign fun object => { object with model_loaded := true }

def load (model : List Byte) : Coded (VwPredict V) Unit := fun object =>
  if model = [] then .ok (.error E_VW_PREDICT_ERR_INVALID_MODEL, object)
  else
    match load_model numbers ⟨⟨model, 0⟩, object⟩ with
    | .ok (r, s) => .ok (r, s.object)
    | .error e => .error e

end VW.Slim
