import VowpalWabbit.Tournament.Weights

/-! # The finals of the tournaments

    Training keeps one entry for each tournament, whether the label won it, and plays the finals
    among the entries. A label that loses a match before the last one goes on in the next tournament
    without an entry, and the list is halved after each pair of a level. With two labels every match
    is the last one of its tournament, and with up to three tournaments a level has one pair.
-/

open Cpp VW.Trees

namespace VW.Tournament

open List Nat Call Finishes

/-! ## What should be -/

section Ect

variable {W R : Type} [Field R] [LinearOrder R] (e : Ect) (class_boundary : R)
  (base : BaseLearner W R)

/-- `climb`, with the matches of the label and whether it won them. -/
def climb_matches : Nat → Nat → Bool → List Bool → List (Nat × Bool) →
    Call (State W R) (List Bool × List (Nat × Bool))
  | 0, _, _, _, _ => undefined
  | fuel + 1, id, left, tournaments_won, matches_ => do
    let won ← train_match e class_boundary base id left
    let d ← direction_at e id
    let matches_ := matches_ ++ [(id, won)]
    if won then do
      let left ← enters_left e d.last id d.winner left
      let tournaments_won := if d.last then tournaments_won ++ [true] else tournaments_won
      if d.winner = 0 then pure (tournaments_won, matches_)
      else climb_matches fuel d.winner left tournaments_won matches_
    else do
      let left ← enters_left e d.last id d.loser left
      let tournaments_won :=
        if d.last ∨ d.loser = 0 then tournaments_won ++ [false] else tournaments_won
      if d.loser = 0 then pure (tournaments_won, matches_)
      else climb_matches fuel d.loser left tournaments_won matches_

/-- The matches are only looked at. -/
theorem climb_matches_forget (fuel id : Nat) (left : Bool) (tournaments_won : List Bool)
    (matches_ : List (Nat × Bool)) :
    (climb_matches e class_boundary base fuel id left tournaments_won matches_ >>= fun r =>
      pure r.1) =
      climb e class_boundary base fuel id left tournaments_won := by
  induction fuel generalizing id left tournaments_won matches_ with
  | zero => rfl
  | succ fuel ih =>
    unfold climb_matches climb
    simp only [bind_assoc]
    refine congrArg _ (funext fun won => congrArg _ (funext fun d => ?_))
    split
    · simp only [bind_assoc]
      refine congrArg _ (funext fun left => ?_)
      split
      · rfl
      · exact ih _ _ _ _
    · simp only [bind_assoc]
      refine congrArg _ (funext fun left => ?_)
      split
      · rfl
      · exact ih _ _ _ _

/-- The problem of `play_finals` between the two halves of a subtree: those of the entries at level
    `i`. -/
def problem_number (i j : Nat) : Nat := e.last_pair + (j <<< (i + 1) ||| 1 <<< i) - 1

/-- A final between two entries that differ is trained on that problem. -/
def train_final (i j : Nat) (left right : Bool) : Call (State W R) Bool := do
  set_simple (side left)
  set_weight (2 ^ (e.tree_height - i - 1))
  base.learns (problem_number e i j)
  let ec ← get_ec
  pure (if class_boundary < ec.pred.scalar then right else left)

/-- A level of finals: the winners of the pairs, and the entry that has no partner. -/
def finals_level (i : Nat) : Nat → List Bool → Call (State W R) (List Bool)
  | j, left :: right :: won => do
    let winner ←
      if left = right then pure left else train_final e class_boundary base i j left right
    let winners ← finals_level i (j + 1) won
    pure (winner :: winners)
  | _, won => pure won

def finals (won : List Bool) : Call (State W R) (List Bool) :=
  (range e.tree_height).foldlM (fun won i => finals_level e class_boundary base i 0 won) won

/-- The first match of a label, and its side. -/
def enter_label (label : Nat) : Call (State W R) (Nat × Bool) := do
  let leaf ← direction_at e (label - 1)
  let left ← enters_left e false (label - 1) leaf.winner false
  pure (leaf.winner, left)

/-- Whenever the climb of a label ends there is an entry for every tournament, whether its last
    match was won, and the queries are the finals among the entries, with one left. -/
def KeepsBooks (class_boundary : R) (e : Ect) : Prop :=
  ∀ (W : Type) (base : BaseLearner W R) (s : State W R) (label fuel : Nat), 1 ≤ label → label ≤
    e.k → e.circuit.size ≤ fuel →
    ∃ won matches_ s',
      (enter_label e label >>= fun m => climb e class_boundary base fuel m.1 m.2 []) s =
        .returned won s' ∧
      (enter_label e label >>= fun m => climb_matches e class_boundary base fuel m.1 m.2 [] []) s =
        .returned (won, matches_) s' ∧
      won.length = e.errors + 1 ∧
      (∀ i ≤ e.errors, won[i]? = some true ↔ ∃ x, e.circuit.final_nodes[i]? = some x ∧
        (x, true) ∈ matches_) ∧
      ∃ result s'', query_finals e class_boundary base won s' = .returned result s'' ∧
        finals e class_boundary base won s' = .returned result s'' ∧ result.length = 1

end Ect

section Runs

variable {W R : Type} [Field R] [LinearOrder R] {e : Ect} {boundary : R} {base : BaseLearner W R}

/-- A match is won or lost. -/
theorem train_match_run (id : Nat) (left : Bool) (s : State W R) :
    ∃ won s', train_match e boundary base id left s = .returned won s' := ⟨_, _, rfl⟩

/-- What follows a match that is won, and one that is lost. -/
theorem climb_matches_run {fuel id : Nat} {left won : Bool} {tournaments_won : List Bool}
    {matches_ : List (Nat × Bool)}
    {s s' : State W R} (h : e.Built) (hid : id < e.circuit.size)
    (hrun : train_match e boundary base id left s = .returned won s') {link : Nat}
    (hlink : link = if won then (e.circuit.directions id).winner else
      (e.circuit.directions id).loser) :
    ∃ left', climb_matches e boundary base (fuel + 1) id left tournaments_won matches_ s =
      (if link = 0 then pure
        (if (e.circuit.directions id).last ∨ won = false ∧ link = 0 then tournaments_won ++ [won]
          else tournaments_won, matches_ ++ [(id, won)])
        else climb_matches e boundary base fuel link left'
          (if (e.circuit.directions id).last ∨ won = false ∧ link = 0 then tournaments_won ++
            [won] else tournaments_won)
          (matches_ ++ [(id, won)])) s' := by
  have hexists : link < e.circuit.size := by
    rcases eq_or_ne link 0 with rfl | hne
    · exact zero_lt_of_lt hid
    · subst hlink
      cases won with
      | true => exact (h.complete.wired.winner id hid hne).exists_
      | false => exact (h.complete.wired.loser id hid hne).exists_
  refine ⟨if (e.circuit.directions id).last then left
    else decide ((e.circuit.directions link).left = id), ?_⟩
  rw [climb_matches, bind_run, hrun, direction_at_eq hid]
  dsimp only
  rw [pure_bind]
  subst hlink
  cases won with
  | true =>
    rw [if_pos rfl, bind_run, enters_left_run (by simpa using hexists)]
    simp
  | false =>
    rw [if_neg Bool.false_ne_true, bind_run, enters_left_run (by simpa using hexists)]
    simp

/-- The books of a climb: an entry for every tournament, whether its last match was won. -/
def Books (e : Ect) (won : List Bool) (matches_ : List (Nat × Bool)) : Prop :=
  won.length = e.errors + 1 ∧
    ∀ i ≤ e.errors, won[i]? = some true ↔ ∃ x, e.circuit.final_nodes[i]? = some x ∧
      (x, true) ∈ matches_

/-- With no errors allowed the label wins up to the last match or is out. -/
theorem climb_matches_single (h : e.Built) (herrors : e.errors = 0) {fuel id : Nat} {left : Bool}
    {matches_ : List (Nat × Bool)} (hk : e.k ≤ id) (hid : id < e.circuit.size)
      (hfuel : e.circuit.size - id < fuel)
    (hmatches : ∀ m ∈ matches_, (e.circuit.directions m.1).last = false) (s : State W R) :
    ∃ won matches' s', climb_matches e boundary base fuel id left [] matches_ s =
      .returned (won, matches') s' ∧
      Books e won matches' := by
  induction fuel generalizing id left matches_ s with
  | zero => exact absurd hfuel (not_lt_zero _)
  | succ fuel ih =>
    have hwired := h.complete.wired
    have ht : (e.circuit.directions id).tournament = 0 := by
      have hlt := hwired.tournament_lt id hid
      omega
    have hloser : (e.circuit.directions id).loser = 0 := by
      by_contra hne
      have hlink := hwired.loser id hid hne
      have hlt := hwired.tournament_lt _ hlink.exists_
      rw [hlink.tournament, ht] at hlt
      omega
    obtain ⟨won, s₁, hrun⟩ := @train_match_run _ _ _ _ e boundary base id left s
    obtain ⟨left', hclimb⟩ := @climb_matches_run _ _ _ _ e boundary base fuel id left won
      [] matches_ s s₁ h hid hrun _ rfl
    have hfinal : ∀ x, e.circuit.final_nodes[0]? = some x ↔
        e.k ≤ x ∧ x < e.circuit.size ∧ (e.circuit.directions x).last = true ∧
          (e.circuit.directions x).tournament = 0 :=
      fun x => hwired.final_nodes 0 x
    -- an entry for this match, when all matches before were not the last one
    have hbooks : ∀ b, ((e.circuit.directions id).last = true ∨ b = false) →
      Books e [b] (matches_ ++ [(id, b)]) := by
      intro b hb
      refine ⟨by rw [herrors]; rfl, fun i hi => ?_⟩
      obtain rfl : i = 0 := by omega
      constructor
      · intro hwon
        obtain rfl : b = true := by simpa using hwon
        refine ⟨id, (hfinal id).mpr ⟨hk, hid, hb.resolve_right (by simp), ht⟩,
          mem_append_right _ ?_⟩
        exact mem_singleton_self _
      · rintro ⟨x, hx, hmem⟩
        have hlast := ((hfinal x).mp hx).2.2.1
        rcases mem_append.mp hmem with hmem | hmem
        · rw [hmatches _ hmem] at hlast
          cases hlast
        · cases mem_singleton.mp hmem
          rfl
    rw [hclimb]
    cases won with
    | false =>
      simp only [Bool.false_eq_true, if_false, hloser, if_true, and_self, or_true, nil_append]
      exact ⟨_, _, _, rfl, hbooks false (.inr rfl)⟩
    | true =>
      simp only [if_true]
      by_cases hlast : (e.circuit.directions id).last = true
      · have hwinner : (e.circuit.directions id).winner = 0 := by
          by_contra hne
          have hlink := hwired.winner id hid hne
          have hlt := hwired.tournament_lt _ hlink.exists_
          rw [hlink.tournament, Direction.next, if_pos hlast, ht] at hlt
          omega
        rw [hwinner, if_pos rfl, if_pos (.inl hlast), nil_append]
        exact ⟨_, _, _, rfl, hbooks true (.inl hlast)⟩
      · have hlast : (e.circuit.directions id).last = false := Bool.eq_false_iff.mpr hlast
        have hne := h.winner_ne_zero hid hlast
        have hlink := hwired.winner id hid hne
        have hlater := hlink.later
        rw [if_neg hne, hlast, if_neg (by simp)]
        refine ih hlink.match_ hlink.exists_ (by omega) (fun m hm => ?_) s₁
        rcases mem_append.mp hm with hm | hm
        · exact hmatches m hm
        · rw [mem_singleton.mp hm]
          exact hlast

end Runs

/-! ## Two labels -/

/-- The circuit of two labels when `f` tournaments are over: each had one match, whose players both
    go on to the next one. -/
structure Chain (f : Nat) (c : Circuit) : Prop where
  size : c.size = f + 2
  final_nodes : c.final_nodes = (range f).map (· + 2)
  match_ : ∀ t < f, (c.directions (t + 2)).tournament = t ∧ (c.directions (t + 2)).last = true ∧
    (c.directions (t + 2)).winner = (if t + 1 < f then t + 3 else 0) ∧
    (c.directions (t + 2)).loser = (if t + 1 < f then t + 3 else 0)
  leaf : ∀ x < 2, (c.directions x).tournament = 0 ∧ (c.directions x).last = false ∧
    (c.directions x).winner = if 0 < f then 2 else 0

def no_players : Tournaments := fun _ => []

/-- Only tournament `f` has players, and these are two. -/
def pair_list (f x y : Nat) : Tournaments := Function.update no_players f [x, y]

/-- The level of such lists is one match. -/
theorem play_level_pair {eliminations f x y : Nat} (hf : f < eliminations) (c : Circuit) :
    play_level eliminations (pair_list f x y) c = (c.add_match eliminations f x y true,
      if f + 1 < eliminations then pair_list (f + 1) c.size c.size else no_players) := by
  have hself : pair_list f x y f = [x, y] := Function.update_self ..
  have hother : ∀ i, i ≠ f → pair_list f x y i = [] := fun i hi => Function.update_of_ne hi ..
  have hends : ends_tournament (pair_list f x y) f = true := by
    unfold ends_tournament
    rw [hself, decide_eq_true_eq]
    refine ⟨rfl, ?_⟩
    by_cases hzero : f = 0
    · exact .inl hzero
    · exact .inr (hother (f - 1) (by omega))
  have hpush : (no_players.push (f + 1) c.size).push (f + 1) c.size =
    pair_list (f + 1) c.size c.size := by
    funext i
    unfold Tournaments.push pair_list no_players
    by_cases hi : i = f + 1
    · subst hi
      simp
    · simp [Function.update_of_ne hi]
  have hround : play_tournament eliminations (pair_list f x y) (c, no_players) f =
      (c.add_match eliminations f x y true,
        if f + 1 < eliminations then pair_list (f + 1) c.size c.size else no_players) := by
    unfold play_tournament
    rw [hself]
    have hloop : for_range ([x, y].length / 2) (play_match eliminations (pair_list f x y) f)
      (c, no_players) =
        play_match eliminations (pair_list f x y) f (c, no_players) 0 := by
      rw [show [x, y].length / 2 = 1 by simp, for_range_succ, for_range_zero]
    have hback : [x, y].getLast? = some y := rfl
    have heven : ¬ [x, y].length % 2 = 1 := by simp
    simp only [hloop, hback, if_neg heven]
    unfold play_match
    rw [hself, hends]
    by_cases hnext : f + 1 < eliminations
    · simp only [hnext, if_true, hpush]
      rfl
    · simp only [hnext, if_false]
      rfl
  have hskip : ∀ i s, i ≠ f → play_tournament eliminations (pair_list f x y) s i = s := by
    intro i s hi
    unfold play_tournament
    rw [hother i hi]
    rfl
  -- the other tournaments have no players
  have hall : for_range eliminations (play_tournament eliminations (pair_list f x y))
    (c, no_players) =
      if eliminations ≤ f then (c, no_players) else (c.add_match eliminations f x y true,
        if f + 1 < eliminations then pair_list (f + 1) c.size c.size else no_players) := by
    refine for_range_invariant
      (fun i s => s = if i ≤ f then (c, no_players) else (c.add_match eliminations f x y true,
      if f + 1 < eliminations then pair_list (f + 1) c.size c.size else no_players))
        (if_pos (zero_le f)).symm
      fun i _ s hs => ?_
    rw [hs]
    rcases lt_trichotomy i f with hlt | rfl | hgt
    · rw [if_pos (le_of_lt hlt), if_pos (show i + 1 ≤ f from hlt), hskip i _ (by omega)]
    · rw [if_pos (le_refl i), if_neg (show ¬ i + 1 ≤ i by omega), hround]
    · rw [if_neg (show ¬ i ≤ f by omega), if_neg (show ¬ i + 1 ≤ f by omega), hskip i _ (by omega)]
  show for_range eliminations (play_tournament eliminations (pair_list f x y)) (c, no_players) = _
  rw [hall, if_neg (by omega)]

/-- The players of tournament `f`: the labels, then twice the match before. -/
def chain_list (f : Nat) : Tournaments :=
  if f = 0 then pair_list 0 0 1 else pair_list f (f + 1) (f + 1)

theorem Chain.next {eliminations f x y : Nat} {c : Circuit} (h : Chain f c)
    (hplayers : if f = 0 then x = 0 ∧ y = 1 else x = f + 1 ∧ y = f + 1) :
    Chain (f + 1) (c.add_match eliminations f x y true) := by
  have hsize := h.size
  have hx : x < c.size := by
    split at hplayers <;> omega
  have hy : y < c.size := by
    split at hplayers <;> omega
  refine ⟨?_, ?_, fun t ht => ?_, fun n hn => ?_⟩
  · rw [add_match_size, hsize]
  · rw [add_match_final_nodes, if_pos rfl, h.final_nodes, hsize, range_succ, map_append]
    rfl
  · rw [add_match_directions hx hy]
    by_cases hnew : t = f
    · subst hnew
      rw [if_pos hsize.symm]
      simp
    · obtain ⟨htournament, hlast, hwinner, hloser⟩ := h.match_ t (by omega)
      rw [if_neg (by omega)]
      rw [if_neg (show f ≠ 0 by omega)] at hplayers
      obtain ⟨rfl, rfl⟩ := hplayers
      refine ⟨htournament, hlast, ?_, ?_⟩
      · show (if _ then _ else _) = _
        rw [htournament, hlast, hwinner, hsize]
        by_cases hbefore : t + 2 = f + 1
        · rw [if_pos (.inr ⟨hbefore, rfl⟩), if_pos (by omega)]
          omega
        · rw [if_neg (by omega), if_pos (show t + 1 < f by omega), if_pos (by omega)]
      · show (if _ then _ else _) = _
        rw [htournament, hloser, hsize]
        by_cases hbefore : t + 2 = f + 1
        · rw [if_pos ⟨.inl hbefore, by omega⟩, if_pos (by omega)]
          omega
        · rw [if_neg (by omega), if_pos (show t + 1 < f by omega), if_pos (by omega)]
  · obtain ⟨htournament, hlast, hwinner⟩ := h.leaf n hn
    rw [add_match_directions hx hy, if_neg (by omega)]
    refine ⟨htournament, hlast, ?_⟩
    show (if _ then _ else _) = _
    rw [htournament, hlast, hwinner, hsize]
    by_cases hzero : f = 0
    · subst hzero
      rw [if_pos rfl] at hplayers
      rw [if_pos (.inl ⟨by omega, rfl⟩)]
      rfl
    · rw [if_neg hzero] at hplayers
      rw [if_neg (by omega), if_pos (by omega), if_pos (by omega)]

theorem Chain.play_levels {eliminations f fuel : Nat} {c : Circuit} (h : Chain f c)
    (hf : f ≤ eliminations)
    (hfuel : eliminations - f < fuel) :
    ∃ c', play_levels eliminations fuel (if f < eliminations then chain_list f else no_players) c =
      some c' ∧
      Chain eliminations c' := by
  induction fuel generalizing f c with
  | zero => exact absurd hfuel (not_lt_zero _)
  | succ fuel ih =>
    unfold Tournament.play_levels
    by_cases hmore : f < eliminations
    · obtain ⟨x, y, hplayers, hlist⟩ : ∃ x y,
        (if f = 0 then x = 0 ∧ y = 1 else x = f + 1 ∧ y = f + 1) ∧
          chain_list f = pair_list f x y := by
        unfold chain_list
        by_cases hzero : f = 0
        · subst hzero
          exact ⟨0, 1, by simp, rfl⟩
        · exact ⟨f + 1, f + 1, by simp [hzero], if_neg hzero⟩
      have hne : not_empty eliminations (pair_list f x y) = true := by
        unfold not_empty
        rw [any_eq_true]
        exact ⟨f, mem_range.mpr hmore, by simp [pair_list]⟩
      rw [if_pos hmore, hlist, if_pos hne, play_level_pair hmore]
      have hnext : Chain (f + 1) (c.add_match eliminations f x y true) := h.next hplayers
      have hlists : (if f + 1 < eliminations then pair_list (f + 1) c.size c.size else no_players) =
          if f + 1 < eliminations then chain_list (f + 1) else no_players := by
        rw [h.size]
        rfl
      rw [hlists]
      exact ih hnext hmore (by omega)
    · have hempty : not_empty eliminations no_players = false := by
        unfold not_empty
        rw [any_eq_false]
        intro i _
        simp [no_players]
      rw [if_neg hmore, hempty, if_neg Bool.false_ne_true]
      obtain rfl : f = eliminations := by omega
      exact ⟨c, rfl, h⟩

/-- `create_circuit` for two labels. -/
theorem create_circuit_chain {errors : Nat} {e : Ect}
    (hcreated : Ends (fun fuel => create_circuit fuel 2 errors) e) :
    Chain (errors + 1) e.circuit := by
  obtain ⟨m, hm⟩ := hcreated
  have hstart : Chain 0 (leaves 2) := by
    refine ⟨rfl, rfl, fun t ht => absurd ht (not_lt_zero t), fun x hx => ?_⟩
    unfold leaves
    simp [hx]
  obtain ⟨c, hrun, hchain⟩ := @Chain.play_levels (errors + 1) 0 (m + (errors + 2)) _ hstart
    (zero_le _) (by omega)
  have he := hm (m + (errors + 2)) (le_add_right _ _)
  have hlists : (if 0 < errors + 1 then chain_list 0 else no_players) =
      Function.update (fun _ => []) 0 (range 2) := rfl
  unfold create_circuit at he
  simp only [if_neg (show (2 : Nat) ≠ 1 by decide)] at he
  rw [← hlists, hrun] at he
  cases he
  exact hchain

section Chain

variable {W R : Type} [Field R] [LinearOrder R] {e : Ect} {boundary : R} {base : BaseLearner W R}

/-- A label plays all matches, one in each tournament. -/
theorem Chain.climb_matches (hchain : Chain (e.errors + 1) e.circuit) (h : e.Built)
    {O : Nat → Bool → Prop}
    (hO : ∀ id left s won s', train_match e boundary base id left s = .returned won s' → O id won)
      {fuel t : Nat}
    {left : Bool} {won : List Bool} (ht : t ≤ e.errors) (hfuel : e.errors - t < fuel)
      (hlength : won.length = t)
    (hwon : ∀ i b, won[i]? = some b → O (i + 2) b) (s : State W R) :
    ∃ won' s', climb_matches e boundary base fuel (t + 2) left won
      (won.mapIdx fun i b => (i + 2, b)) s =
        .returned (won', won'.mapIdx fun i b => (i + 2, b)) s' ∧
      won'.length = e.errors + 1 ∧ ∀ i b, won'[i]? = some b → O (i + 2) b := by
  induction fuel generalizing t left won s with
  | zero => exact absurd hfuel (not_lt_zero _)
  | succ fuel ih =>
    have hsize := hchain.size
    obtain ⟨-, hlast, hwinner, hloser⟩ := hchain.match_ t (by omega)
    obtain ⟨b, s₁, hrun⟩ := @train_match_run _ _ _ _ e boundary base (t + 2) left s
    obtain ⟨left', hclimb⟩ := @climb_matches_run _ _ _ _ e boundary base fuel (t + 2) left b won
      (won.mapIdx fun i b => (i + 2, b)) s s₁ h (by omega) hrun _ rfl
    have hlink : (if b then (e.circuit.directions (t + 2)).winner else
      (e.circuit.directions (t + 2)).loser) =
        if t + 1 < e.errors + 1 then t + 3 else 0 := by
      rw [hwinner, hloser, ite_self]
    have hmatches : (won.mapIdx fun i b => (i + 2, b)) ++ [(t + 2, b)] =
      (won ++ [b]).mapIdx fun i b => (i + 2, b) := by
      rw [mapIdx_append, hlength]
      simp
    have hwon' : ∀ i c, (won ++ [b])[i]? = some c → O (i + 2) c := by
      intro i c hget
      rcases lt_trichotomy i t with hlt | rfl | hgt
      · rw [getElem?_append_left (by omega)] at hget
        exact hwon i c hget
      · rw [getElem?_append_right (by omega), hlength, Nat.sub_self] at hget
        cases hget
        exact hO _ _ _ _ _ hrun
      · rw [getElem?_eq_none (by simp; omega)] at hget
        cases hget
    rw [hclimb, hlink, hlast, hmatches]
    by_cases hmore : t < e.errors
    · simp only [if_pos (show t + 1 < e.errors + 1 by omega), true_or, if_true,
        if_neg (show t + 3 ≠ 0 by omega)]
      exact ih (by omega) (by omega) (by simp [hlength]) hwon' s₁
    · obtain rfl : t = e.errors := by omega
      simp only [if_neg (lt_irrefl (e.errors + 1)), true_or, if_true]
      exact ⟨won ++ [b], s₁, rfl, by simp [hlength], hwon'⟩

/-- The entries of two labels are the outcomes of the matches. -/
theorem Chain.books (hchain : Chain (e.errors + 1) e.circuit) {won : List Bool}
    (hlength : won.length = e.errors + 1) :
    Books e won (won.mapIdx fun i b => (i + 2, b)) := by
  refine ⟨hlength, fun i hi => ?_⟩
  have hfinal : e.circuit.final_nodes[i]? = some (i + 2) := by
    rw [hchain.final_nodes, getElem?_map, getElem?_range (by omega)]
    rfl
  constructor
  · intro hwon
    refine ⟨i + 2, hfinal, mem_mapIdx.mpr ⟨i, by omega, ?_⟩⟩
    have hget := (List.getElem?_eq_some_iff.mp hwon).2
    rw [hget]
  · rintro ⟨x, hx, hmem⟩
    rw [hfinal] at hx
    cases hx
    obtain ⟨i', hi', heq⟩ := mem_mapIdx.mp hmem
    obtain ⟨hi_eq, hget⟩ := Prod.mk.inj heq
    obtain rfl : i' = i := by omega
    rw [getElem?_eq_getElem hi', hget]

omit [Field R] [LinearOrder R] in
/-- The first match of a label. -/
theorem enter_label_run (h : e.Built) {label : Nat} (hone : 1 ≤ label) (hle : label ≤ e.k)
    (s : State W R) :
    ∃ left, (enter_label e label : Call (State W R) _) s =
      .returned ((e.circuit.directions (label - 1)).winner, left) s := by
  have hwired := h.complete.wired
  have hleaf : label - 1 < e.k := by omega
  have hlt := lt_of_lt_of_le hleaf hwired.leaves_le
  have hlink := hwired.winner _ hlt (h.winner_ne_zero hlt (hwired.leaf _ hleaf).2.1)
  refine ⟨decide ((e.circuit.directions (e.circuit.directions (label - 1)).winner).left =
    label - 1), ?_⟩
  unfold enter_label
  rw [direction_at_eq hlt, pure_bind, bind_run, enters_left_run hlink.exists_]
  rfl

/-! ## The finals -/

/-- A query is trained on the problem of the final. -/
theorem query_eq (i j : Nat) (left right : Bool) : query e boundary base i j left right =
    if left = right then pure left else train_final e boundary base i j left right := by
  have hnumber : e.last_pair + j * 2 ^ (i + 1) + 2 ^ i - 1 = problem_number e i j := by
    unfold problem_number
    rw [one_shiftLeft, ← shiftLeft_add_eq_or_of_lt
      (Nat.pow_lt_pow_right (by decide) (lt_succ_self i)) j,
      shiftLeft_eq, add_assoc]
  unfold query train_final
  rw [hnumber]

theorem finals_level_cons (i j : Nat) (left right : Bool) (won : List Bool) :
    finals_level e boundary base i j (left :: right :: won) =
      query e boundary base i j left right >>= fun winner =>
      finals_level e boundary base i (j + 1) won >>= fun winners => pure (winner :: winners) := by
  rw [query_eq, finals_level]
  by_cases hsame : left = right
  · rw [if_pos hsame, if_pos hsame]
  · rw [if_neg hsame, if_neg hsame]

/-- The code plays the finals right when there are three entries at most. -/
theorem query_finals_eq (htree : e.tree_height = final_depth (e.errors + 1)) {won : List Bool}
    (hlength : won.length = e.errors + 1) (herrors : e.errors ≤ 2) (s : State W R) :
    ∃ result s', query_finals e boundary base won s = .returned result s' ∧
      finals e boundary base won s = .returned result s' ∧ result.length = 1 := by
  have hquery : ∀ i left right (s : State W R), ∃ winner s',
      query e boundary base i 0 left right s = .returned winner s' := by
    intro i left right s
    unfold query
    split
    · exact ⟨_, _, rfl⟩
    · exact ⟨_, _, rfl⟩
  -- a level of one pair
  have hpair : ∀ i left right, query_pairs e boundary base i 3 0 [left, right] =
      (query e boundary base i 0 left right >>= fun winner =>
        pure [winner] : Call (State W R) _) := by
    intro i left right
    rw [query_pairs, if_pos (by simp)]
    refine congrArg _ (funext fun winner => ?_)
    have hhalf : halve [left, right] 0 winner = [winner] := by simp [halve]
    rw [query_pairs, hhalf, if_neg (by simp)]
  have hodd : ∀ i left right back, query_pairs e boundary base i 4 0 [left, right, back] =
      (query e boundary base i 0 left right >>= fun winner =>
        pure [winner, back] : Call (State W R) _) := by
    intro i left right back
    rw [query_pairs, if_pos (by simp)]
    refine congrArg _ (funext fun winner => ?_)
    have hhalf : halve [left, right, back] 0 winner = [winner, back] := by simp [halve]
    rw [query_pairs, hhalf, if_neg (by simp)]
  have hfinal_pair : ∀ i left right, finals_level e boundary base i 0 [left, right] =
      (query e boundary base i 0 left right >>= fun winner =>
        pure [winner] : Call (State W R) _) := by
    intro i left right
    rw [finals_level_cons]
    simp [finals_level]
  have hfinal_odd : ∀ i left right back, finals_level e boundary base i 0 [left, right, back] =
      (query e boundary base i 0 left right >>= fun winner =>
        pure [winner, back] : Call (State W R) _) := by
    intro i left right back
    rw [finals_level_cons]
    simp [finals_level]
  obtain hzero | hone | htwo : e.errors = 0 ∨ e.errors = 1 ∨ e.errors = 2 := by omega
  · rw [hzero] at hlength htree
    obtain ⟨a, rfl⟩ := length_eq_one_iff.mp hlength
    unfold query_finals finals
    rw [htree]
    exact ⟨[a], s, rfl, rfl, rfl⟩
  · rw [hone] at hlength htree
    obtain ⟨a, b, rfl⟩ := length_eq_two.mp hlength
    obtain ⟨winner, s', hrun⟩ := hquery 0 a b s
    unfold query_finals finals
    rw [htree, show final_depth (1 + 1) = 1 by decide, range_one]
    simp only [foldlM_cons, foldlM_nil, bind_pure, length_cons, length_nil]
    rw [hpair, hfinal_pair, bind_run, hrun]
    exact ⟨[winner], s', rfl, rfl, rfl⟩
  · rw [htwo] at hlength htree
    obtain ⟨a, b, c, rfl⟩ := length_eq_three.mp hlength
    obtain ⟨winner, s₁, hrun₁⟩ := hquery 0 a b s
    obtain ⟨winner', s₂, hrun₂⟩ := hquery 1 winner c s₁
    unfold query_finals finals
    rw [htree, show final_depth (2 + 1) = 2 by decide, show range 2 = [0, 1] from rfl]
    simp only [foldlM_cons, foldlM_nil, bind_pure, length_cons, length_nil]
    rw [hodd, hfinal_odd, bind_assoc, bind_assoc, bind_run, bind_run, hrun₁]
    dsimp only
    rw [pure_bind, pure_bind, hfinal_pair]
    refine ⟨[winner'], s₂, ?_, ?_, rfl⟩
    · show query_pairs e boundary base 1 3 0 [winner, c] s₁ = _
      rw [hpair, bind_run, hrun₂]
      rfl
    · rw [bind_run, hrun₂]
      rfl

/-- The books are kept when there is nothing to keep, or with two labels and two errors at most. -/
theorem keepsBooks_of (h : e.Built) (hcase : e.errors = 0 ∨ Chain (e.errors + 1) e.circuit ∧
    e.k = 2 ∧ e.errors ≤ 2) :
    KeepsBooks boundary e := by
  intro W base s label fuel hone hle hfuel
  have hwired := h.complete.wired
  have hleaf : label - 1 < e.k := by omega
  have hlt := lt_of_lt_of_le hleaf hwired.leaves_le
  have hlink := hwired.winner _ hlt (h.winner_ne_zero hlt (hwired.leaf _ hleaf).2.1)
  have hlater := hlink.match_
  have htwo := h.two_le
  obtain ⟨left, henter⟩ := @enter_label_run W R e h label hone hle s
  -- the climb, with its books
  obtain ⟨won, matches_, s', hrun, hbooks⟩ : ∃ won matches_ s', climb_matches e boundary base fuel
      (e.circuit.directions (label - 1)).winner left [] [] s = .returned (won, matches_) s' ∧
        Books e won matches_ := by
    rcases hcase with hzero | ⟨hchain, hk, -⟩
    · exact climb_matches_single h hzero hlink.match_ hlink.exists_ (by omega)
        (fun m hm => absurd hm not_mem_nil) s
    · have hwinner : (e.circuit.directions (label - 1)).winner = 0 + 2 := by
        rw [(hchain.leaf (label - 1) (by omega)).2.2, if_pos (succ_pos _)]
      obtain ⟨won, s', hrun, hlength, -⟩ := @Chain.climb_matches _ _ _ _ e boundary base hchain h
        (fun _ _ => True)
        (fun _ _ _ _ _ _ => trivial) fuel 0 left [] (zero_le _) (by have := hchain.size; omega) rfl
        (fun _ _ _ => trivial) s
      rw [hwinner]
      exact ⟨won, _, s', hrun, hchain.books hlength⟩
  obtain ⟨result, s'', hquery, hfinals, hresult⟩ :=
    @query_finals_eq W R _ _ e boundary base h.tree_height won hbooks.1
    (by omega) s'
  have hclimb : climb e boundary base fuel (e.circuit.directions (label - 1)).winner left [] s =
    .returned won s' := by
    rw [← climb_matches_forget e boundary base fuel _ left [] [], bind_run, hrun]
    rfl
  refine ⟨won, matches_, s', ?_, ?_, hbooks.1, hbooks.2, result, s'', hquery, hfinals, hresult⟩
  · rw [bind_run, henter]
    exact hclimb
  · rw [bind_run, henter]
    exact hrun

end Chain

/-! ## More labels -/

section Lost

variable {R : Type} [Field R] [LinearOrder R] {e : Ect} {boundary : R}

/-- A base learner at the boundary: every match is lost. -/
def undecided (class_boundary : R) : BaseLearner Unit R where
  learn _ ec w := (⟨{ ec.pred with scalar := class_boundary }, 0, 0⟩, w)
  predict _ ec w := (⟨{ ec.pred with scalar := class_boundary }, 0, 0⟩, w)

/-- A match that is not the first one leads to the last one of its tournament. -/
theorem exists_last (h : e.Built) {x : Nat} (hk : e.k ≤ x) (hx : x < e.circuit.size) :
    ∃ y, x ≤ y ∧ e.circuit.final_nodes[(e.circuit.directions x).tournament]? = some y := by
  have hwired := h.complete.wired
  induction hn : e.circuit.size - x using Nat.strong_induction_on generalizing x with
  | _ n ih =>
    by_cases hlast : (e.circuit.directions x).last = true
    · exact ⟨x, le_refl x, (hwired.final_nodes _ x).mpr ⟨hk, hx, hlast, rfl⟩⟩
    · have hlast : (e.circuit.directions x).last = false := Bool.eq_false_iff.mpr hlast
      have hlink := hwired.winner x hx (h.winner_ne_zero hx hlast)
      have hlater := hlink.later
      have hexists := hlink.exists_
      obtain ⟨y, hle, hy⟩ := ih _ (by omega) hlink.match_ hexists rfl
      rw [hlink.tournament, Direction.next, hlast, if_neg Bool.false_ne_true] at hy
      exact ⟨y, by omega, hy⟩

/-- With three labels the first match is not the last one. -/
theorem first_not_last (h : e.Built) (hthree : 3 ≤ e.k) :
    (e.circuit.directions e.k).last = false := by
  have hwired := h.complete.wired
  have hfirst := h.complete.first
  -- the third label plays another match of the first tournament
  have hleaf := hwired.leaf 2 (by omega)
  have hlt : 2 < e.circuit.size := lt_of_lt_of_le (by omega) hwired.leaves_le
  have hlink := hwired.winner 2 hlt (h.winner_ne_zero hlt hleaf.2.1)
  have ht : (e.circuit.directions (e.circuit.directions 2).winner).tournament = 0 := by
    rw [hlink.tournament, Direction.next, hleaf.2.1, hleaf.1]
    rfl
  obtain ⟨y, hle, hy⟩ := exists_last h hlink.match_ hlink.exists_
  rw [ht] at hy
  by_contra hlast
  have hk : e.circuit.final_nodes[0]? = some e.k := by
    refine (hwired.final_nodes 0 e.k).mpr ⟨le_refl _, ?_, by simpa using hlast, hfirst.tournament⟩
    have hmatch := hlink.match_
    have hexists := hlink.exists_
    omega
  rw [hk] at hy
  cases hy
  have hplayer := hlink.player
  rw [le_antisymm hle hlink.match_, hfirst.left, hfirst.right] at hplayer
  omega

/-- An example that nothing was asked about. -/
def unasked : State Unit R := ⟨(), ⟨⟨0, ⟨1, 1⟩, ⟨[], 0⟩, []⟩, 1, ⟨0, [], 0, []⟩, 0, 0, ⟨0, 0⟩⟩, []⟩

theorem train_match_undecided {n id : Nat} (hindex : id - e.k < n) (left : Bool) :
    (train_match e boundary (undecided boundary) id left).Finishes (Below n)
      (fun won s => won = false ∧ Below n s) fun _ => False := by
  intro s hs
  have hrun : ∃ s', train_match e boundary (undecided boundary) id left s =
      .returned (decide (0 < (boundary - boundary) * side left)) s' := ⟨_, rfl⟩
  obtain ⟨s', hrun⟩ := hrun
  have hbelow := @train_match_asks Unit R _ _ e boundary (undecided boundary)
    (fun _ => False) n id hindex left s hs
  rw [hrun] at hbelow ⊢
  exact ⟨by simp, hbelow⟩

/-- A label that loses its first match has no entry for the first tournament. -/
theorem climb_first_lost (h : e.Built) (hthree : 3 ≤ e.k) (herrors : e.errors ≠ 0) {fuel : Nat}
    (hfuel : e.circuit.size ≤ fuel)
    (left : Bool) : (climb e boundary (undecided boundary) fuel e.k left []).Finishes
      (Below e.last_pair)
      (fun won _ => won.length + 1 ≤ e.errors + 1) fun _ => False := by
  have hwired := h.complete.wired
  have hfirst := h.complete.first
  have hlt : e.k < e.circuit.size := by
    have hpositive : 0 < e.last_pair := by
      rw [h.last_pair]
      exact mul_pos (by omega) (succ_pos _)
    rw [h.size]
    omega
  have hindex := h.index_lt (le_refl e.k) hlt
  have hloser : (e.circuit.directions e.k).loser ≠ 0 := by
    refine fun hzero => hwired.waits_to_lose e.k (le_refl _) hlt ?_ hzero
    rw [hfirst.tournament]
    omega
  have hlink := hwired.loser e.k hlt hloser
  have hlater := hlink.later
  obtain ⟨fuel, rfl⟩ : ∃ fuel', fuel = fuel' + 1 := ⟨fuel - 1, by omega⟩
  rw [climb]
  refine (train_match_undecided hindex left).bind fun won => ?_
  rintro s ⟨rfl, hs⟩
  rw [direction_at_eq hlt, pure_bind, if_neg Bool.false_ne_true, first_not_last h hthree]
  simp only [Bool.false_eq_true, false_or, if_neg hloser]
  rw [bind_run, enters_left_run hlink.exists_]
  refine (climb_within h (le_refl _) hlink.match_ hlink.exists_ (by omega) ?_).mono (fun _ h => h)
    (fun _ _ h => h.1)
    (fun _ h => h) s hs
  rw [hlink.tournament, hfirst.tournament]
  exact le_refl 1

theorem not_keepsBooks_of_three (h : e.Built) (hthree : 3 ≤ e.k) (herrors : e.errors ≠ 0) :
    ¬ KeepsBooks boundary e := by
  intro hall
  obtain ⟨won, -, s', hrun, -, hlength, -⟩ :=
    hall Unit (undecided boundary) unasked 1 e.circuit.size (le_refl 1)
    (by omega) (le_refl _)
  obtain ⟨left, henter⟩ := @enter_label_run Unit R e h 1 (le_refl 1) (by omega) unasked
  rw [bind_run, henter, h.complete.first.winner (1 - 1) (by decide)] at hrun
  obtain ⟨won', s'', hrun', hless⟩ :=
    (@climb_first_lost R _ _ e boundary h hthree herrors _ (le_refl _) left).returns
    (s := (unasked : State Unit R)) fun a ha => absurd ha not_mem_nil
  cases hrun'.symm.trans hrun
  omega

end Lost

/-! ## More errors -/

section Dropped

variable {W R : Type} [Field R] [LinearOrder R] {e : Ect} {boundary : R} {base : BaseLearner W R}
  {number : Nat}

/-- The problem was asked about. -/
def AskedAbout (number : Nat) (s : State W R) : Prop := ∃ a ∈ s.asked, a.index = number

def Unasked (number : Nat) (s : State W R) : Prop := ¬ AskedAbout number s

theorem query_keeps_asked (i j : Nat) (left right : Bool) :
    (query e boundary base i j left right).Finishes (AskedAbout number) (fun _ => AskedAbout number)
      fun _ => False := by
  unfold query
  split
  · exact .pure fun _ hs => hs
  · refine bind (F := fun _ => AskedAbout number) (fun _ hs => hs) fun _ => ?_
    refine bind (F := fun _ => AskedAbout number) (fun _ hs => hs) fun _ => ?_
    refine bind (F := fun _ => AskedAbout number) (.modify fun s hs => ?_) fun _ => ?_
    · obtain ⟨a, ha, hindex⟩ := hs
      exact ⟨a, mem_append_left _ ha, hindex⟩
    · exact bind (F := fun _ => AskedAbout number) (fun _ hs => hs) fun _ =>
        .pure fun _ hs => hs

theorem finals_level_keeps_asked (i j : Nat) (won : List Bool) :
    (finals_level e boundary base i j won).Finishes (AskedAbout number) (fun _ => AskedAbout number)
      fun _ => False := by
  induction won using List.twoStepInduction generalizing j with
  | nil =>
    rw [finals_level]
    · exact .pure fun _ hs => hs
    · intro _ _ _ h
      cases h
  | singleton back =>
    rw [finals_level]
    · exact .pure fun _ hs => hs
    · intro _ _ _ h
      cases h
  | cons_cons left right won ih _ =>
    rw [finals_level_cons]
    exact (query_keeps_asked i j left right).bind fun _ => (ih (j + 1)).bind fun _ =>
      .pure fun _ hs => hs

/-- A pair whose entries differ is asked about. -/
theorem finals_level_asks {i j m : Nat} {won : List Bool} (hlength : 2 * m + 1 < won.length)
    (hdiffer : won[2 * m]? ≠ won[2 * m + 1]?) :
    (finals_level e boundary base i j won).Finishes Any
      (fun _ => AskedAbout (problem_number e i (j + m)))
      fun _ => False := by
  induction m generalizing j won with
  | zero =>
    match won, hlength, hdiffer with
    | left :: right :: won, _, hdiffer =>
      have hne : left ≠ right := fun heq => hdiffer (by rw [heq]; rfl)
      rw [finals_level_cons]
      refine bind (F := fun _ => AskedAbout (problem_number e i j))
        (fun s _ => ?_) fun _ =>
        (finals_level_keeps_asked i (j + 1) won).bind fun _ => .pure fun _ hs => hs
      rw [query_eq, if_neg hne]
      exact ⟨_, mem_append_right _ (mem_singleton_self _), rfl⟩
  | succ m ih =>
    match won, hlength, hdiffer with
    | left :: right :: won, hlength, hdiffer =>
      rw [finals_level_cons]
      refine bind (F := fun _ => Any) (fun s _ => ?_) fun _ => ?_
      · unfold query
        split
        · trivial
        · trivial
      · rw [show j + (m + 1) = j + 1 + m by omega]
        refine (ih (j := j + 1) (by simp only [length_cons] at hlength; omega) ?_).bind fun _ =>
          .pure fun _ hs => hs
        simpa [mul_add] using hdiffer

/-- The finals ask about a pair of entries that differ. -/
theorem finals_ask (hheight : 0 < e.tree_height) {m : Nat} {won : List Bool}
    (hlength : 2 * m + 1 < won.length)
    (hdiffer : won[2 * m]? ≠ won[2 * m + 1]?) :
    (finals e boundary base won).Finishes Any (fun _ => AskedAbout (problem_number e 0 m)) fun _ =>
      False := by
  obtain ⟨height, hheight⟩ : ∃ height, e.tree_height = height + 1 := ⟨e.tree_height - 1, by omega⟩
  unfold finals
  rw [hheight, range_succ_eq_map, foldlM_cons]
  have hfirst := @finals_level_asks W R _ _ e boundary base 0 0 m won hlength hdiffer
  rw [zero_add] at hfirst
  exact hfirst.bind fun won' =>
    foldlM (fun i _ won => finals_level_keeps_asked i 0 won) won'

/-- The queries of the code halve the list after each pair, so that they drop the last pair of the
    first level. -/
theorem query_finals_skip (herrors : 3 ≤ e.errors) {won : List Bool}
    (hlength : won.length ≤ e.errors + 1) :
    (query_finals e boundary base won).Finishes
      (Unasked (problem_number e 0 ((e.errors + 1) / 2 - 1)))
      (fun _ => Unasked (problem_number e 0 ((e.errors + 1) / 2 - 1))) fun _ => False := by
  refine query_finals_keep (fun i j left right hindex => ?_) hlength
  obtain ⟨p, hp⟩ : ∃ p, (e.errors + 1) / 2 = p + 2 := ⟨(e.errors + 1) / 2 - 2, by omega⟩
  have hnumber : ∀ i j, problem_number e i j = e.last_pair + j * 2 ^ (i + 1) + 2 ^ i - 1 := by
    intro i j
    unfold problem_number
    rw [one_shiftLeft, ← shiftLeft_add_eq_or_of_lt
      (Nat.pow_lt_pow_right (by decide) (lt_succ_self i)) j,
      Nat.shiftLeft_eq, Nat.add_assoc]
  -- the pair is on the first level, and too far to the right for the halved list
  have hne : problem_number e i j ≠ problem_number e 0 ((e.errors + 1) / 2 - 1) := by
    rw [hnumber, hnumber, hp,
      show p + 2 - 1 = p + 1 by omega, Nat.zero_add, Nat.pow_one, Nat.pow_zero]
    cases i with
    | zero =>
      rw [Nat.zero_add] at hindex
      simp only [Nat.zero_add, Nat.pow_one, Nat.pow_zero]
      intro heq
      obtain rfl : j = p + 1 := by omega
      have htwo : 2 ≤ 2 ^ (p + 1) := by
        rw [Nat.pow_succ']
        exact Nat.le_mul_of_pos_right 2 (Nat.two_pow_pos p)
      have hmul := Nat.mul_le_mul_left (2 * (p + 1) + 1) htwo
      omega
    | succ i =>
      -- an odd number and an even one
      have hpow' : j * 2 ^ (i + 1 + 1) = 2 * (j * 2 ^ (i + 1)) := by
        rw [Nat.pow_succ']
        ring
      omega
  rw [query_eq]
  split
  · exact .pure fun _ hs => hs
  · unfold train_final
    generalize problem_number e 0 ((e.errors + 1) / 2 - 1) = dropped at hne ⊢
    refine bind (F := fun _ => Unasked dropped) (fun _ hs => hs) fun _ => ?_
    refine bind (F := fun _ => Unasked dropped) (fun _ hs => hs) fun _ => ?_
    refine bind (F := fun _ => Unasked dropped) (.modify fun s hs => ?_) fun _ => ?_
    · rintro ⟨a, ha, hindex⟩
      rcases mem_append.mp ha with ha | ha
      · exact hs ⟨a, ha, hindex⟩
      · rw [mem_singleton.mp ha] at hindex
        exact hne hindex
    · exact bind (F := fun _ => Unasked dropped) (fun _ hs => hs) fun _ =>
        .pure fun _ hs => hs

end Dropped

section Two

variable {R : Type} [Field R] [LinearOrder R] [IsStrictOrderedRing R] {e : Ect} {boundary : R}

/-- Two labels and a lost match in the last pair of the first level: the pair is not played. -/
theorem not_keepsBooks_of_chain (h : e.Built) (hchain : Chain (e.errors + 1) e.circuit)
    (hk : e.k = 2)
    (herrors : 3 ≤ e.errors) : ¬ KeepsBooks boundary e := by
  intro hall
  have hsize := hchain.size
  obtain ⟨p, hp⟩ : ∃ p, (e.errors + 1) / 2 = p + 1 := ⟨(e.errors + 1) / 2 - 1, by omega⟩
  have hheight := tree_height_pos h (by omega)
  set base := decides e boundary fun id => decide (id ≠ 2 * p + 2) with hbase
  obtain ⟨won, matches_, s', hclimb, hmatches, hlength, -, result, s'', hquery, hfinals, -⟩ :=
    hall Unit base unasked 1 e.circuit.size (le_refl 1) (by omega) (le_refl _)
  obtain ⟨left, henter⟩ := @enter_label_run Unit R e h 1 (le_refl 1) (by omega) unasked
  have hwinner : (e.circuit.directions (1 - 1)).winner = 0 + 2 := by
    rw [(hchain.leaf (1 - 1) (by decide)).2.2, if_pos (succ_pos _)]
  rw [hwinner] at henter
  -- the entries are as the matches were decided
  obtain ⟨won', s₁, hrun, -, hwon⟩ := @Chain.climb_matches Unit R _ _ e boundary base hchain h
    (fun id won => e.k ≤ id → won = decide (id ≠ 2 * p + 2)) (fun id left s won s' hrun hle => by
      obtain ⟨s'', hrun'⟩ :=
        @train_match_decides R _ _ _ e boundary (fun id => decide (id ≠ 2 * p + 2)) id hle left s
      rw [← hbase] at hrun'
      cases hrun.symm.trans hrun'
      rfl) e.circuit.size 0 left [] (zero_le _) (by omega) rfl
        (fun i b hget => by cases hget) unasked
  rw [bind_run, henter] at hmatches hclimb
  cases hrun.symm.trans hmatches
  have hentry : ∀ i < won.length, won[i]? = some (decide (i + 2 ≠ 2 * p + 2)) := by
    intro i hi
    rw [getElem?_eq_getElem hi]
    exact congrArg some (hwon i _ (getElem?_eq_getElem hi) (by omega))
  have hdiffer : won[2 * p]? ≠ won[2 * p + 1]? := by
    rw [hentry (2 * p) (by omega), hentry (2 * p + 1) (by omega)]
    simp
  -- no match of the climb is that problem
  have hbelow : Unasked (problem_number e 0 ((e.errors + 1) / 2 - 1)) s' := by
    have hwithin := @climb_within Unit R _ _ e boundary base (fun _ => False) h e.last_pair 0
      (le_refl _)
      e.circuit.size (0 + 2) left [] (by omega) (by omega) (by omega) (zero_le _) unasked
      (fun a ha => absurd ha not_mem_nil)
    have hclimb' : climb e boundary base e.circuit.size (0 + 2) left [] unasked =
      .returned won s' := hclimb
    rw [hclimb'] at hwithin
    rintro ⟨a, ha, hindex⟩
    have hlt := hwithin.2 a ha
    rw [hindex, problem_number] at hlt
    have hor : 0 < ((e.errors + 1) / 2 - 1) <<< (0 + 1) ||| 1 <<< 0 :=
      lt_of_lt_of_le one_pos right_le_or
    omega
  have hskip := @query_finals_skip Unit R _ _ e boundary base herrors won
    (le_of_eq hlength) s' hbelow
  rw [hquery] at hskip
  have hask := @finals_ask Unit R _ _ e boundary base hheight p won (by omega) hdiffer s' trivial
  rw [hfinals] at hask
  rw [hp, Nat.add_sub_cancel] at hskip
  exact hskip hask

end Two

/-- The books are kept exactly with no errors, or with two labels and two errors at most. -/
theorem keepsBooks_iff {R : Type} [Field R] [LinearOrder R] [IsStrictOrderedRing R]
    (class_boundary : R) (k errors : Nat)
    (hk : 2 ≤ k) (e : Ect) (hcreated : Ends (fun fuel => create_circuit fuel k errors) e) :
    KeepsBooks class_boundary e ↔ errors = 0 ∨ k = 2 ∧ errors ≤ 2 := by
  obtain ⟨e', rfl, rfl, hbuilt, hends⟩ := create_circuit_built k errors hk
  obtain rfl := hcreated.unique hends
  constructor
  · intro hall
    by_contra hnot
    rw [not_or, not_and_or, not_le] at hnot
    obtain ⟨hzero, hmany⟩ := hnot
    rcases lt_or_eq_of_le hk with hthree | htwo
    · exact not_keepsBooks_of_three hbuilt hthree hzero hall
    · have hchain : Chain (e.errors + 1) e.circuit := by
        rw [← htwo] at hcreated
        exact create_circuit_chain hcreated
      exact not_keepsBooks_of_chain hbuilt hchain htwo.symm
        (hmany.resolve_left fun hne => hne htwo.symm) hall
  · rintro (hzero | ⟨htwo, hle⟩)
    · exact keepsBooks_of hbuilt (.inl hzero)
    · have hchain : Chain (e.errors + 1) e.circuit := by
        rw [htwo] at hcreated
        exact create_circuit_chain hcreated
      exact keepsBooks_of hbuilt (.inr ⟨hchain, htwo, hle⟩)

/-- Two classes and one error. -/
theorem keepsBooks_iff_two : ∃ e, Ends (fun fuel => create_circuit fuel 2 1) e ∧
    (KeepsBooks (0 : ℚ) e ↔ 1 = 0 ∨ 2 = 2 ∧ 1 ≤ 2) := by
  obtain ⟨e, -, -, -, hends⟩ := create_circuit_built 2 1 (by decide)
  exact ⟨e, hends, keepsBooks_iff (0 : ℚ) 2 1 (by decide) e hends⟩

/-- Three labels and one error: the label that loses its first match has one entry for two
    tournaments. -/
theorem three_labels_lose_an_entry : ∃ e, Ends (fun fuel => create_circuit fuel 3 1) e ∧
    ¬ KeepsBooks (0 : ℚ) e := by
  obtain ⟨e, hk, herrors, hbuilt, hends⟩ := create_circuit_built 3 1 (by decide)
  exact ⟨e, hends, not_keepsBooks_of_three hbuilt (by omega) (by omega)⟩

end VW.Tournament
