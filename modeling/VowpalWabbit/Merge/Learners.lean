import Mathlib.Data.List.Infix
import VowpalWabbit.Framework.Calls
import VowpalWabbit.Framework.Text
import VowpalWabbit.Framework.Vectors

/-! # Merging the learners of workspaces

    `merge_deltas`, `operator+` and `operator-` walk down the learners of the workspace they
    make, and look up by its name the counterpart of each learner in the workspaces they are
    given. The lookup takes the first learner, from the top, whose name contains the string
    it is asked for.

    A learner is known by its place in its stack. The functions that the reductions registered
    are arbitrary; the calls of them are recorded.
-/

open Cpp Call

namespace VW.Merge

variable {K W D : Type}

/-- `merge_func`: of the weightings, the workspaces, the data, and the output and its data. It
    may throw. -/
abbrev MergeFunction (K W D : Type) : Type := List K → List W → List D → W → D → Except String (W × D)

/-- `add_func` and `subtract_func`: of two workspaces and their data, and the output and its
    data. -/
abbrev Combine (W D : Type) : Type := W → D → W → D → W → D → Except String (W × D)

/-- `learner`: the name, the data, and the functions for models that were registered. -/
structure Learner (K W D : Type) where
  name : List Byte
  data : D
  merge_f : Option (MergeFunction K W D)
  add_f : Option (Combine W D)
  subtract_f : Option (Combine W D)

def Learner.has_merge (l : Learner K W D) : Bool := l.merge_f.isSome

def Learner.has_add (l : Learner K W D) : Bool := l.add_f.isSome

def Learner.has_subtract (l : Learner K W D) : Bool := l.subtract_f.isSome

/-- `workspace`: the learners from the top, and the rest. -/
structure Workspace (K W D : Type) where
  l : List (Learner K W D)
  rest : W

/-- The characters of a message. -/
def message (s : List Byte) : String := String.ofList (s.map fun c => Char.ofNat c.toNat)

/-- `get_learner_by_name_prefix`: the place of a learner, from the learner asked on. -/
def get_learner_by_name_prefix (learner_name : List Byte) : List (Learner K W D) → Outcome Nat
  | [] => Outcome.throw_ ("fatal: could not find in learner chain: " ++ message learner_name)
  | l :: base =>
    if learner_name <:+: l.name then .ok 0
    else do
      let i ← get_learner_by_name_prefix learner_name base
      return i + 1

/-- A call of a function of a learner: its place, and those of the learners whose data it got. -/
structure FunctionCall where
  target : Nat
  sources : List Nat
  deriving DecidableEq

/-- The workspace that is made, and the calls so far. -/
structure Output (K W D : Type) where
  l : List (Learner K W D)
  rest : W
  calls : List FunctionCall

/-- The data of a learner that was looked up. -/
def data_at (l : List (Learner K W D)) (i : Nat) : Outcome D := do
  let learner ← nth l i
  return learner.data

/-- What a function made of the output is stored. -/
def store_results (i : Nat) : Except String (W × D) → Call (Output K W D) Unit
  | .error what => throw_ what
  | .ok (rest, data) =>
    modify fun s => { s with l := s.l.modify i fun l => { l with data := data }, rest := rest }

/-- A function of the learner at a place is called. -/
def call_function (i : Nat) (sources : List Nat) (f : W → D → Except String (W × D)) :
    Call (Output K W D) Unit := do
  modify fun s => { s with calls := s.calls ++ [⟨i, sources⟩] }
  let s ← get
  let data ← lift (data_at s.l i)
  store_results i (f s.rest data)

/-- The text of the exception for a bottom learner that cannot be merged. -/
def bottom_without_merge (name : List Byte) : String :=
  "Bottom learner '" ++ message name ++ "' does not have a merge function defined. Since it is a bottom " ++
    "learner, merging will not work as expected."

/-- What `merge_deltas` does with one learner. -/
def merge_learner (per_model_weighting : List K) (workspaces_to_merge : List (Workspace K W D)) (i : Nat)
    (target_learner : Learner K W D) (bottom : Bool) : Call (Output K W D) Unit :=
  match target_learner.merge_f with
  | some merge_f => do
    let learners_to_merge ← lift
      (workspaces_to_merge.mapM fun delta => get_learner_by_name_prefix target_learner.name delta.l)
    let all_data ← lift
      ((workspaces_to_merge.zip learners_to_merge).mapM fun p => data_at p.1.l p.2)
    call_function i learners_to_merge
      (merge_f per_model_weighting (workspaces_to_merge.map (·.rest)) all_data)
  | none =>
    if bottom then throw_ (bottom_without_merge target_learner.name) else pure ()

/-- What `operator+` and `operator-` do with one learner. -/
def combine_learner (function : Learner K W D → Option (Combine W D)) (ws1 ws2 : Workspace K W D) (i : Nat)
    (target_learner : Learner K W D) (bottom : Bool) : Call (Output K W D) Unit :=
  match function target_learner with
  | some f => do
    let learner1 ← lift ( get_learner_by_name_prefix target_learner.name ws1.l)
    let learner2 ← lift ( get_learner_by_name_prefix target_learner.name ws2.l)
    let data1 ← lift (data_at ws1.l learner1)
    let data2 ← lift (data_at ws2.l learner2)
    call_function i [learner1, learner2] (f ws1.rest data1 ws2.rest data2)
  | none =>
    if !target_learner.has_merge && bottom then throw_ (bottom_without_merge target_learner.name)
    else pure ()

/-- The loop down the learners of the workspace that is made, from the `i`th on. -/
def each_learner (step : Nat → Learner K W D → Bool → Call (Output K W D) Unit) (i : Nat) :
    List (Learner K W D) → Call (Output K W D) Unit
  | [] => pure ()
  | target_learner :: base => do
    step i target_learner base.isEmpty
    each_learner step (i + 1) base

/-- The loop of `merge_deltas`. -/
def merge_learners (per_model_weighting : List K) (workspaces_to_merge : List (Workspace K W D)) :
    List (Learner K W D) → Call (Output K W D) Unit :=
  each_learner (merge_learner per_model_weighting workspaces_to_merge) 0

/-- The loop of `operator+`. -/
def add_learners (base delta : Workspace K W D) : List (Learner K W D) → Call (Output K W D) Unit :=
  each_learner (combine_learner Learner.add_f base delta) 0

/-- The loop of `operator-`. -/
def subtract_learners (ws1 ws2 : Workspace K W D) : List (Learner K W D) → Call (Output K W D) Unit :=
  each_learner (combine_learner Learner.subtract_f ws1 ws2) 0

end VW.Merge
