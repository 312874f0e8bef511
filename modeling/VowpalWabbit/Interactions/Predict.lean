import VowpalWabbit.Features
import VowpalWabbit.Framework.Single

/-! # Generating the features of an interaction

    `core/interactions_predict.h`: the loops over pairs and triples of ranges,
    and the state machine for interactions of any length. Each of them gives
    the calls of the kernel in their order, and the number of features.

    A range is a pair of iterators. Two iterators are compared by the address
    they point to, so that a range is modelled by the address of its first
    feature and the features up to its end, and a position in it by its
    distance from the first feature. Audit mode is left out.
-/

open Cpp

namespace VW

def FNV_PRIME : BitVec 64 := 16777619

/-- `features_range_t`. -/
structure FeaturesRange (V : Type) where
  begin_it : Nat
  features : List (V × FeatureIndex)
  deriving DecidableEq, Repr

/-- A call of the kernel: it goes through the features from an iterator to the
    end of its range. -/
structure KernelCall (V : Type) where
  features : List (V × FeatureIndex)
  ft_value : V
  halfhash : FeatureIndex
  deriving DecidableEq, Repr

variable {V : Type}

section Loops

variable [Mul V]

def interaction_value (value1 value2 : V) : V := value1 * value2

/-- `inner_kernel`: what is passed on for each feature. -/
def inner_kernel (offset : BitVec 64) (call : KernelCall V) : List (V × FeatureIndex) :=
  call.features.map fun f =>
    (interaction_value call.ft_value f.1, (f.2 ^^^ call.halfhash) + offset)

/-- Positions at which a loop over the second of two ranges begins. -/
def loop_start (same_namespace : Bool) (position : Nat) : Nat := if same_namespace then position else 0

def process_quadratic_interaction (first second : FeaturesRange V) (permutations : Bool) :
    Nat × List (KernelCall V) :=
  let same_namespace := !permutations && first.begin_it == second.begin_it
  first.features.zipIdx.foldl (fun (num_features, calls) (f, i) =>
    let halfhash := FNV_PRIME * f.2
    -- The next index differs for permutations and simple combinations.
    let rest := second.features.drop (loop_start same_namespace i)
    (num_features + rest.length, calls ++ [⟨rest, f.1, halfhash⟩])) (0, [])

def process_cubic_interaction (first second third : FeaturesRange V) (permutations : Bool) :
    Nat × List (KernelCall V) :=
  let same_namespace1 := !permutations && first.begin_it == second.begin_it
  let same_namespace2 := !permutations && second.begin_it == third.begin_it
  first.features.zipIdx.foldl (fun acc (f, i) =>
    let halfhash1 := FNV_PRIME * f.2
    (second.features.zipIdx.drop (loop_start same_namespace1 i)).foldl
      (fun (num_features, calls) (g, j) =>
        let halfhash := FNV_PRIME * (halfhash1 ^^^ g.2)
        let ft_value := interaction_value f.1 g.1
        let rest := third.features.drop (loop_start same_namespace2 j)
        (num_features + rest.length, calls ++ [⟨rest, ft_value, halfhash⟩])) acc) (0, [])

end Loops

/-! ## Interactions of any length -/

/-- `feature_gen_data`; `current` is the distance of `current_it` from `begin_it`. -/
structure FeatureGenData (V : Type) where
  hash : FeatureIndex
  x : V
  self_interaction : Bool
  range : FeaturesRange V
  current : Nat

/-- The variables of `process_generic_interaction`. `cur_data` is the distance
    from the head of the state data. -/
structure GenericState (V : Type) where
  state_data : Nat → FeatureGenData V
  cur_data : Nat
  num_features : Nat
  calls : List (KernelCall V)

section Generic

variable [Mul V]

/-- The inner loop that goes back to the last level with a feature left; `none`
    when it leaves the array. It tells whether even the level it stops at has
    no feature left. -/
def go_back (state_data : Nat → FeatureGenData V) :
    Nat → Option ((Nat → FeatureGenData V) × Nat × Bool)
  | 0 => none
  | cur_data + 1 =>
    let data := { state_data cur_data with current := (state_data cur_data).current + 1 }
    let state_data := Function.update state_data cur_data data
    let go_further := data.current == data.range.features.length
    if go_further && cur_data != 0 then go_back state_data cur_data
    else some (state_data, cur_data, go_further)

/-- One round of the generation cycle, and whether there is another one. -/
def generic_step (permutations : Bool) (gen_data_last : Nat) (s : GenericState V) :
    Option (GenericState V × Bool) :=
  let cur := s.state_data s.cur_data
  if s.cur_data < gen_data_last then
    -- Go further through the list of namespaces.
    let next := s.state_data (s.cur_data + 1)
    match cur.range.features[cur.current]? with
    | none => none
    | some f =>
      let next := { next with
        current := if next.self_interaction then cur.current else 0
        hash := if s.cur_data = 0 then FNV_PRIME * f.2 else FNV_PRIME * (cur.hash ^^^ f.2)
        x := if s.cur_data = 0 then f.1 else interaction_value f.1 cur.x }
      some ({ s with
        state_data := Function.update s.state_data (s.cur_data + 1) next
        cur_data := s.cur_data + 1 }, true)
  else
    -- The last namespace: go through its features, and back.
    let start_i := if permutations then 0 else (s.state_data gen_data_last).current
    let rest := cur.range.features.drop start_i
    let call : KernelCall V :=
      ⟨rest, (s.state_data gen_data_last).x, (s.state_data gen_data_last).hash⟩
    match go_back s.state_data s.cur_data with
    | none => none
    | some (state_data, cur_data, go_further) =>
      some (⟨state_data, cur_data, s.num_features + rest.length, s.calls ++ [call]⟩,
        !(cur_data == 0 && go_further))

/-- The generation cycle; `none` when the rounds do not end within the fuel. -/
def generic_loop (permutations : Bool) (gen_data_last : Nat) :
    Nat → GenericState V → Option (GenericState V)
  | 0, _ => none
  | fuel + 1, s =>
    match generic_step permutations gen_data_last s with
    | none => none
    | some (s, do_it) => if do_it then generic_loop permutations gen_data_last fuel s else some s

/-- The state data at the start. -/
def prepare_state_data [One V] (permutations : Bool) (ranges : List (FeaturesRange V)) (k : Nat) :
    FeatureGenData V where
  hash := 0
  x := 1
  self_interaction :=
    k != 0 && !permutations && ranges[k]?.map (·.begin_it) == ranges[k - 1]?.map (·.begin_it)
  range := ranges.getD k ⟨0, []⟩
  current := 0

def process_generic_interaction [One V] (fuel : Nat) (ranges : List (FeaturesRange V))
    (permutations : Bool) : Option (Nat × List (KernelCall V)) :=
  match generic_loop permutations (ranges.length - 1) fuel
      ⟨prepare_state_data permutations ranges, 0, 0, []⟩ with
  | none => none
  | some s => some (s.num_features, s.calls)

end Generic

end VW
