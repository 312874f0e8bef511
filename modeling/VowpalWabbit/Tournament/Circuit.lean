import VowpalWabbit.Framework.Loops
import Mathlib.Tactic

/-! # The circuit of an error correcting tournament

    `create_circuit` of `reductions/ect.cc`. The leaves are the labels. Each level plays the
    matches of all tournaments; the winner of a match stays in its tournament and the loser
    goes to the next one. With the match that ends a tournament both go to the next one.

    Nodes are numbered as they are created. A list of a tournament holds node numbers: a match
    of the same tournament stands for its winner, one of the tournament before for its loser,
    and the one that ended the tournament before stands there twice, first for its winner.

    The numbers are those of the code as long as they fit into 32 bits.
-/

open Cpp

namespace VW.Tournament

open Function

structure Direction where
  id : Nat := 0
  tournament : Nat := 0
  winner : Nat := 0
  loser : Nat := 0
  left : Nat := 0
  right : Nat := 0
  last : Bool := false
  deriving DecidableEq

/-- `directions`, by node number, and `final_nodes`. -/
structure Circuit where
  size : Nat
  directions : Nat → Direction
  final_nodes : List Nat

/-- The lists of the tournaments. -/
abbrev Tournaments : Type := Nat → List Nat

/-- `push_back` on the list of tournament `i`. -/
def Tournaments.push (tournaments : Tournaments) (i node : Nat) : Tournaments :=
  update tournaments i (tournaments i ++ [node])

/-- A match of tournament `i` becomes a link of one of its players. -/
def enter (directions : Nat → Direction) (player i direction_index : Nat) : Nat → Direction :=
  update directions player
    (if (directions player).tournament = i then { directions player with winner := direction_index }
    else { directions player with loser := direction_index })

/-- The node of a match. -/
def Circuit.add_match (eliminations i left right : Nat) (ends : Bool) (c : Circuit) : Circuit :=
  let direction_index := c.size
  let directions := update c.directions direction_index
    { id := direction_index, tournament := i, left := left, right := right }
  let directions := enter directions left i direction_index
  let directions := enter directions right i direction_index
  let directions :=
    if (directions left).last then
      update directions left { directions left with winner := direction_index }
    else directions
  let d := directions direction_index
  let d := if ends then { d with last := true } else d
  -- the winner of the last tournament is eliminated, as are all losers in it
  let d := if ends ∧ ¬ i + 1 < eliminations then { d with winner := 0 } else d
  let d := if i + 1 < eliminations then d else { d with loser := 0 }
  { size := c.size + 1
    directions := update directions direction_index d
    final_nodes := if ends then c.final_nodes ++ [direction_index] else c.final_nodes }

/-- The two that are left when all tournaments before are over end a tournament. -/
def ends_tournament (tournaments : Tournaments) (i : Nat) : Bool :=
  (tournaments i).length = 2 ∧ (i = 0 ∨ tournaments (i - 1) = [])

/-- Match `j` of tournament `i` in a level. -/
def play_match (eliminations : Nat) (tournaments : Tournaments) (i : Nat) (s : Circuit × Tournaments) (j : Nat) :
    Circuit × Tournaments :=
  let id := s.1.size
  let left := (tournaments i).getD (2 * j) 0
  let right := (tournaments i).getD (2 * j + 1) 0
  let ends := ends_tournament tournaments i
  let new_tournaments :=
    if ends then (if i + 1 < eliminations then s.2.push (i + 1) id else s.2) else s.2.push i id
  (s.1.add_match eliminations i left right ends,
    if i + 1 < eliminations then new_tournaments.push (i + 1) id else new_tournaments)

/-- Tournament `i` in a level. An odd player is carried over. -/
def play_tournament (eliminations : Nat) (tournaments : Tournaments) (s : Circuit × Tournaments) (i : Nat) :
    Circuit × Tournaments :=
  let s := for_range ((tournaments i).length / 2) (play_match eliminations tournaments i) s
  match (tournaments i).getLast? with
  | some back => if (tournaments i).length % 2 = 1 then (s.1, s.2.push i back) else s
  | none => s

def play_level (eliminations : Nat) (tournaments : Tournaments) (c : Circuit) : Circuit × Tournaments :=
  for_range eliminations (play_tournament eliminations tournaments) (c, fun _ => [])

def not_empty (eliminations : Nat) (tournaments : Tournaments) : Bool :=
  (List.range eliminations).any fun i => tournaments i ≠ []

/-- The loop over the levels. -/
def play_levels (eliminations : Nat) : Nat → Tournaments → Circuit → Option Circuit
  | 0, _, _ => none
  | fuel + 1, tournaments, c =>
    if not_empty eliminations tournaments then
      let (c, new_tournaments) := play_level eliminations tournaments c
      play_levels eliminations fuel new_tournaments c
    else some c

def final_depth (eliminations : Nat) : Nat :=
  ((List.range 32).find? fun i => (eliminations - 1) >>> i = 0).getD 31

/-- `ect`, and the number of learners that `create_circuit` returns. -/
structure Ect where
  k : Nat
  errors : Nat
  circuit : Circuit
  tree_height : Nat
  last_pair : Nat
  feature_width : Nat

def leaves (max_label : Nat) : Circuit where
  size := max_label
  directions := fun i => if i < max_label then { id := i } else {}
  final_nodes := []

/-- `create_circuit`, for `max_label` labels and up to `errors` errors. -/
def create_circuit (fuel max_label errors : Nat) : Option Ect :=
  let eliminations := errors + 1
  if max_label = 1 then some ⟨max_label, errors, ⟨0, fun _ => {}, []⟩, 0, 0, 0⟩
  else do
    let circuit ← play_levels eliminations fuel (update (fun _ => []) 0 (List.range max_label)) (leaves max_label)
    let last_pair := (max_label - 1) * eliminations
    some ⟨max_label, errors, circuit, final_depth eliminations, last_pair, last_pair + (eliminations - 1)⟩

/-! ## One match -/

section AddMatch

variable {eliminations i left right : Nat} {ends : Bool} {c : Circuit}

/-- What a match does to another node. -/
def Direction.enters (d : Direction) (x left right i direction_index : Nat) : Direction :=
  { d with
    winner := if ((x = left ∨ x = right) ∧ d.tournament = i) ∨ (x = left ∧ d.last) then direction_index else d.winner
    loser := if (x = left ∨ x = right) ∧ d.tournament ≠ i then direction_index else d.loser }

variable {directions : Nat → Direction} {direction_index : Nat}

theorem enter_of_ne {player x : Nat} (h : x ≠ player) :
    enter directions player i direction_index x = directions x := update_of_ne h _ _

theorem enter_self {player : Nat} :
    enter directions player i direction_index player =
      if (directions player).tournament = i then { directions player with winner := direction_index }
      else { directions player with loser := direction_index } := update_self _ _ _

/-- Both players, from the left. -/
theorem enter_enter {x : Nat} :
    enter (enter directions left i direction_index) right i direction_index x =
      { directions x with
        winner := if (x = left ∨ x = right) ∧ (directions x).tournament = i then direction_index
          else (directions x).winner
        loser := if (x = left ∨ x = right) ∧ (directions x).tournament ≠ i then direction_index
          else (directions x).loser } := by
  by_cases hr : x = right
  · subst hr
    rw [enter_self]
    by_cases hl : x = left
    · subst hl
      rw [enter_self]
      by_cases ht : (directions x).tournament = i
      · simp [ht]
      · simp [ht]
    · rw [enter_of_ne hl]
      by_cases ht : (directions x).tournament = i
      · simp [ht]
      · simp [ht]
  · rw [enter_of_ne hr]
    by_cases hl : x = left
    · subst hl
      rw [enter_self]
      by_cases ht : (directions x).tournament = i
      · simp [ht]
      · simp [ht]
    · rw [enter_of_ne hl]
      simp [hl, hr]

theorem add_match_directions (hleft : left < c.size) (hright : right < c.size) (x : Nat) :
    (c.add_match eliminations i left right ends).directions x =
      if x = c.size then { id := c.size, tournament := i, left := left, right := right, last := ends }
      else (c.directions x).enters x left right i c.size := by
  have hl : c.size ≠ left := Nat.ne_of_gt hleft
  have hr : c.size ≠ right := Nat.ne_of_gt hright
  have hlr : left ≠ c.size := Nat.ne_of_lt hleft
  unfold Circuit.add_match
  by_cases hx : x = c.size
  · subst hx
    rw [if_pos rfl]
    have hnode : ∀ d : Direction, d = { id := c.size, tournament := i, left := left, right := right } →
        (let d := if ends then { d with last := true } else d
         let d := if ends ∧ ¬ i + 1 < eliminations then { d with winner := 0 } else d
         if i + 1 < eliminations then d else { d with loser := 0 }) =
          { id := c.size, tournament := i, left := left, right := right, last := ends } := by
      rintro d rfl
      cases ends <;> by_cases h : i + 1 < eliminations <;> simp [h]
    dsimp only
    rw [update_self]
    apply hnode
    -- the links of the players leave the node of the match alone
    split
    · rw [update_of_ne hl, enter_of_ne hr, enter_of_ne hl, update_self]
    · rw [enter_of_ne hr, enter_of_ne hl, update_self]
  · rw [if_neg hx]
    dsimp only
    rw [update_of_ne hx, enter_enter, update_of_ne hlr]
    unfold Direction.enters
    by_cases hlast : (c.directions left).last = true
    · rw [if_pos hlast]
      by_cases hxl : x = left
      · subst hxl
        rw [update_self]
        simp [hlast]
      · rw [update_of_ne hxl, enter_enter, update_of_ne hx]
        simp [hxl]
    · rw [if_neg hlast, enter_enter, update_of_ne hx]
      by_cases hxl : x = left
      · subst hxl
        simp [hlast]
      · simp [hxl]

@[simp] theorem add_match_size : (c.add_match eliminations i left right ends).size = c.size + 1 := rfl

theorem add_match_final_nodes : (c.add_match eliminations i left right ends).final_nodes =
    if ends then c.final_nodes ++ [c.size] else c.final_nodes := rfl

end AddMatch

end VW.Tournament
