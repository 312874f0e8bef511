import VowpalWabbit.Tournament.Traversal

/-! # Does the way down invert the way up?

    With the outputs of the matches fixed, a label that wins a tournament on the way up should
    be the one at which the way down from the last match of that tournament ends. It is in the
    first tournament. In the next ones it is not: a match of tournament `t` stands for its
    loser there, and the way down does not know that it came through a loss.
-/

open Cpp VW.Trees

namespace VW.Tournament

open List Nat

variable {R : Type} [Field R] [LinearOrder R]

/-- A base learner that answers right or left, by the match. -/
def fixed (e : Ect) (class_boundary : R) (right : Nat → Bool) : BaseLearner Unit R :=
  let answer (i : Nat) (ec : Example R) : Answer R :=
    ⟨{ ec.pred with scalar := if right (e.k + i) then class_boundary + 1 else class_boundary - 1 },
      ec.partial_prediction, ec.loss⟩
  { learn := fun i ec w => (answer i ec, w), predict := fun i ec w => (answer i ec, w) }

/-- The matches that were trained, and the sides. A match is trained twice, with weight zero
    the second time. -/
def trained_matches (e : Ect) (s : State Unit R) : List (Nat × Bool) :=
  s.asked.filterMap fun a => if a.index < e.last_pair ∧ a.weight = 0 then some
    (e.k + a.index, a.label = -1) else none

/-- The side on which a match is entered from match `x`, by its winner or by its loser. -/
def entry_side (c : Circuit) (x : Nat) (as_winner : Bool) (id : Nat) : Bool :=
  if (c.directions id).left = x ∧ (c.directions id).right = x then as_winner else (c.directions id).left = x

/-- Every match is trained on the side on which it is entered. -/
def Enters (c : Circuit) (right : Nat → Bool) : Nat → Bool → List (Nat × Bool) → Prop
  | _, _, [] => True
  | x, as_winner, (id, left) :: steps =>
    left = entry_side c x as_winner id ∧ Enters c right id (right id ≠ left) steps

/-- The way down inverts the way up. -/
def Inverts (class_boundary : R) (e : Ect) : Prop :=
  ∀ (right : Nat → Bool) (y : Nat) (s s' : State Unit R), y < e.k → s.ec.l.multi.label = y + 1 → s.ec.weight ≠ 0 →
    s.asked = [] → ∀ fuel ≥ e.circuit.size,
    ect_train e class_boundary (fixed e class_boundary right) fuel s = .returned () s' →
    (∀ (t f : Nat) (left : Bool), e.circuit.final_nodes[t]? = some f →
      (f, left) ∈ trained_matches e s' → right f ≠ left →
      ∀ s₁, ∃ s₂, descend e class_boundary (fixed e class_boundary right) fuel f s₁ = .returned y s₂) ∧
    Enters e.circuit right y true (trained_matches e s')

/-! ## The way up with fixed outputs -/

/-- The matches on the way up, and the sides. -/
def path (c : Circuit) (right : Nat → Bool) : Nat → Nat → Bool → List (Nat × Bool)
  | 0, _, _ => []
  | fuel + 1, id, left =>
    let d := c.directions id
    let link := if right id ≠ left then d.winner else d.loser
    (id, left) :: if link = 0 then [] else path c right fuel link
      (if d.last then left else (c.directions link).left = id)

/-- The questions about a match. -/
def trained_twice (e : Ect) (weight : R) (m : Nat × Bool) : List (Asked R) :=
  [⟨true, m.1 - e.k, side m.2, weight⟩, ⟨true, m.1 - e.k, side m.2, 0⟩]

variable {id fuel : Nat}

section Up

variable {e : Ect} {boundary : R} {right : Nat → Bool}

variable [IsStrictOrderedRing R]

theorem side_eq_neg_one (left : Bool) : ((side left : R) = -1) ↔ left = true := by
  have hneg : (-1 : R) < 0 := neg_neg_of_pos one_pos
  cases left with
  | true => exact iff_of_true rfl rfl
  | false =>
    refine iff_of_false ?_ Bool.false_ne_true
    intro heq
    have hone : (1 : R) = -1 := heq
    rw [← hone] at hneg
    exact absurd hneg (not_lt.mpr zero_le_one)

theorem won_iff (left : Bool) (id : Nat) :
    0 < ((if right id then boundary + 1 else boundary - 1) - boundary) * side left ↔
      right id ≠ left := by
  cases hright : right id <;> cases left <;> simp [side]

theorem train_match_fixed {id : Nat} (hk : e.k ≤ id) (left : Bool) (s : State Unit R) :
    ∃ s', train_match e boundary (fixed e boundary right) id left s = .returned (decide (right id ≠ left)) s' ∧
      s'.asked = s.asked ++ trained_twice e s.ec.weight (id, left) ∧ s'.ec.weight = s.ec.weight := by
  have hid : e.k + (id - e.k) = id := Nat.add_sub_cancel' hk
  have hrun : ∃ s', train_match e boundary (fixed e boundary right) id left s =
        .returned (decide (0 < ((if right (e.k + (id - e.k)) then boundary + 1 else boundary - 1) -
          boundary) * side left)) s' ∧
      s'.asked = s.asked ++ [⟨true, id - e.k, side left, s.ec.weight⟩] ++ [⟨true, id - e.k, side left, 0⟩] ∧
      s'.ec.weight = s.ec.weight := ⟨_, rfl, rfl, rfl⟩
  obtain ⟨s', hrun, hasked, hweight⟩ := hrun
  rw [hid, decide_eq_decide.mpr (won_iff left id)] at hrun
  refine ⟨s', hrun, ?_, hweight⟩
  rw [hasked, append_assoc]
  rfl

theorem climb_fixed (h : e.Built) {fuel id : Nat} {left : Bool} {won : List Bool} (hk : e.k ≤ id)
    (hid : id < e.circuit.size) (hfuel : e.circuit.size - id < fuel) (s : State Unit R) :
    ∃ tournaments_won' s',
      climb e boundary (fixed e boundary right) fuel id left won s =
        .returned tournaments_won' s' ∧
      s'.asked = s.asked ++ (path e.circuit right fuel id left).flatMap (trained_twice e s.ec.weight) ∧
      s'.ec.weight = s.ec.weight := by
  induction fuel generalizing id left won s with
  | zero => exact absurd hfuel (not_lt_zero _)
  | succ fuel ih =>
    have hwired := h.complete.wired
    obtain ⟨s₁, hrun, hasked, hweight⟩ := @train_match_fixed R _ _ e boundary right _ id hk left s
    -- the rest of the way, by either link
    have hgo : ∀ (link : Nat) (left' : Bool) (won : List Bool),
        (link ≠ 0 → ∃ t, Link e.k e.circuit id link t) → ∃ tournaments_won' s',
          (if link = 0 then pure won
            else climb e boundary (fixed e boundary right) fuel link left' won :
              Call (State Unit R) (List Bool)) s₁ = .returned tournaments_won' s' ∧
          s'.asked = s.asked ++ ((id, left) :: if link = 0 then [] else path e.circuit right fuel link left').flatMap
            (trained_twice e s.ec.weight) ∧ s'.ec.weight = s.ec.weight := by
      intro link left' won hlink
      rw [flatMap_cons, ← append_assoc, ← hasked, ← hweight]
      by_cases hzero : link = 0
      · rw [if_pos hzero, if_pos hzero]
        exact ⟨won, s₁, rfl, (append_nil _).symm, rfl⟩
      · rw [if_neg hzero, if_neg hzero]
        obtain ⟨t, hlink⟩ := hlink hzero
        have hlater := hlink.later
        exact ih hlink.match_ hlink.exists_ (by omega) s₁
    have hrange : ∀ link, (link ≠ 0 → ∃ t, Link e.k e.circuit id link t) → link < e.circuit.size := by
      intro link hlink
      by_cases hzero : link = 0
      · omega
      · obtain ⟨t, hlink⟩ := hlink hzero
        exact hlink.exists_
    unfold climb path
    rw [Call.bind_run, hrun]
    dsimp only
    rw [direction_at_eq hid, pure_bind]
    by_cases hwon : right id ≠ left
    · have hlink : (e.circuit.directions id).winner ≠ 0 → ∃ t,
        Link e.k e.circuit id (e.circuit.directions id).winner t :=
        fun hne => ⟨_, hwired.winner id hid hne⟩
      simp only [decide_eq_true hwon, if_true, if_pos hwon]
      rw [Call.bind_run, enters_left_run (hrange _ hlink)]
      exact hgo _ _ _ hlink
    · have hlink : (e.circuit.directions id).loser ≠ 0 → ∃ t,
        Link e.k e.circuit id (e.circuit.directions id).loser t :=
        fun hne => ⟨_, hwired.loser id hid hne⟩
      simp only [decide_eq_false hwon, Bool.false_eq_true, if_false, if_neg hwon]
      rw [Call.bind_run, enters_left_run (hrange _ hlink)]
      exact hgo _ _ _ hlink

omit [IsStrictOrderedRing R] in
/-- The queries among the tournaments are no matches. -/
theorem query_finals_trained (base : BaseLearner Unit R) (won : List Bool) (steps : List (Nat × Bool)) :
    (query_finals e boundary base won).Leaves (fun s => trained_matches e s = steps)
      (fun s => trained_matches e s = steps) := by
  have hquery : ∀ i j left right, (query e boundary base i j left right).Leaves
      (fun s => trained_matches e s = steps) (fun s => trained_matches e s = steps) := by
    intro i j left right
    have hpositive : 0 < 2 ^ i := Nat.two_pow_pos i
    unfold query
    split
    · exact .pure _ fun _ hs => hs
    · refine Call.Leaves.bind (Q := fun s => trained_matches e s = steps) (set_ec_leaves fun _ hs => hs) fun _ => ?_
      refine Call.Leaves.bind (set_ec_leaves fun _ hs => hs) fun _ => ?_
      refine Call.Leaves.bind (Call.Leaves.modify fun s hs => ?_) fun _ => get_ec_leaves.bind fun _ =>
        .pure _ fun _ hs => hs
      have hindex : ¬ e.last_pair + j * 2 ^ (i + 1) + 2 ^ i - 1 < e.last_pair := by omega
      unfold trained_matches State.answered
      rw [filterMap_append, filterMap_cons, filterMap_nil, if_neg fun hboth => hindex hboth.1]
      exact (append_nil _).trans hs
  have hpairs : ∀ i fuel j won, (query_pairs e boundary base i fuel j won).Leaves
      (fun s => trained_matches e s = steps) (fun s => trained_matches e s = steps) := by
    intro i fuel
    induction fuel with
    | zero => exact fun _ _ => .undefined
    | succ fuel ih =>
      intro j won
      unfold query_pairs
      split
      · exact (hquery _ _ _ _).bind fun _ => ih _ _
      · exact .pure _ fun _ hs => hs
  exact .foldlM (fun _ _ _ => hpairs _ _ _ _) won

omit [Field R] [LinearOrder R] [IsStrictOrderedRing R] in
theorem path_match (h : e.Built) {left : Bool} (hk : e.k ≤ id) (hid : id < e.circuit.size) :
    ∀ m ∈ path e.circuit right fuel id left, e.k ≤ m.1 ∧ m.1 < e.circuit.size := by
  induction fuel generalizing id left with
  | zero => exact fun m hm => nomatch hm
  | succ fuel ih =>
    intro m hm
    unfold path at hm
    by_cases hwon : right id ≠ left
    · simp only [if_pos hwon] at hm
      rcases mem_cons.mp hm with rfl | hm
      · exact ⟨hk, hid⟩
      · split at hm
        · cases hm
        · next hne =>
          have hlink := h.complete.wired.winner id hid hne
          exact ih hlink.match_ hlink.exists_ m hm
    · simp only [if_neg hwon] at hm
      rcases mem_cons.mp hm with rfl | hm
      · exact ⟨hk, hid⟩
      · split at hm
        · cases hm
        · next hne =>
          have hlink := h.complete.wired.loser id hid hne
          exact ih hlink.match_ hlink.exists_ m hm

/-- The questions tell the way. -/
theorem trained_path (h : e.Built) {steps : List (Nat × Bool)}
    (hsteps : ∀ m ∈ steps, e.k ≤ m.1 ∧ m.1 < e.circuit.size)
    {weight : R} (hweight : weight ≠ 0) {s : State Unit R} (hs : s.asked = steps.flatMap (trained_twice e weight)) :
    trained_matches e s = steps := by
  unfold trained_matches
  rw [hs]
  clear hs
  induction steps with
  | nil => rfl
  | cons m steps ih =>
    rw [forall_mem_cons] at hsteps
    have hindex := h.index_lt hsteps.1.1 hsteps.1.2
    have hid : e.k + (m.1 - e.k) = m.1 := Nat.add_sub_cancel' hsteps.1.1
    have hside : decide ((side m.2 : R) = -1) = m.2 := by
      rw [Bool.eq_iff_iff, decide_eq_true_iff]
      exact side_eq_neg_one m.2
    rw [flatMap_cons, filterMap_append, ih hsteps.2]
    unfold trained_twice
    simp only [filterMap_cons, filterMap_nil, hindex, hweight, and_false, and_true, if_false, if_true, hid, hside]
    rfl

/-- What is trained for label `y`. -/
theorem trained_matches_eq (h : e.Built) {y : Nat} {s s' : State Unit R} (hy : y < e.k)
    (hlabel : s.ec.l.multi.label = y + 1) (hweight : s.ec.weight ≠ 0) (hasked : s.asked = [])
    (hfuel : e.circuit.size ≤ fuel)
    (hrun : ect_train e boundary (fixed e boundary right) fuel s = .returned () s') :
    trained_matches e s' = path e.circuit right fuel (e.circuit.directions y).winner
      ((e.circuit.directions (e.circuit.directions y).winner).left = y) := by
  have htwo := h.two_le
  have hwired := h.complete.wired
  have hlt : y < e.circuit.size := lt_of_lt_of_le hy hwired.leaves_le
  have hlink := hwired.winner y hlt (h.winner_ne_zero hlt (hwired.leaf y hy).2.1)
  have hmatch := hlink.match_
  obtain ⟨won, s₁, hclimb, hasks, -⟩ := @climb_fixed R _ _ e boundary right _ h fuel _
    ((e.circuit.directions (e.circuit.directions y).winner).left = y) [] hlink.match_ hlink.exists_ (by omega) s
  rw [hasked, nil_append] at hasks
  have htrained := trained_path h (path_match h hlink.match_ hlink.exists_) hweight hasks
  have hrest : (query_finals e boundary (fixed e boundary right) won >>= fun _ => pure () :
      Call (State Unit R) Unit) s₁ = .returned () s' := by
    unfold ect_train at hrun
    rw [if_neg (by omega)] at hrun
    change (if s.ec.l.multi.label = 0 ∨ e.k < s.ec.l.multi.label then pure () else _ :
      Call (State Unit R) Unit) s = _ at hrun
    rw [hlabel, if_neg (by omega), Nat.add_sub_cancel, direction_at_eq hlt, pure_bind, Call.bind_run,
      enters_left_run hlink.exists_] at hrun
    dsimp only at hrun
    rw [if_neg Bool.false_ne_true, Call.bind_run, hclimb] at hrun
    exact hrun
  exact ((query_finals_trained _ _ _).bind fun _ => .pure _ fun _ hs => hs).of_returned htrained hrest

end Up

/-! ## The way down with fixed outputs -/

/-- The way down from a node ends at label `y`. -/
inductive Down (k : Nat) (c : Circuit) (right : Nat → Bool) : Nat → Nat → Prop
  | label {y : Nat} (h : y < k) : Down k c right y y
  | match_ {id y : Nat} (h : k ≤ id)
      (below : Down k c right (if right id then (c.directions id).right else (c.directions id).left) y) :
      Down k c right id y

section Down

variable {e : Ect} {boundary : R} {right : Nat → Bool}

variable [IsStrictOrderedRing R]

theorem Down.descend (h : e.Built) {y : Nat} (hdown : Down e.k e.circuit right id y)
    (hfuel : id < fuel) (hid : id < e.circuit.size) (s : State Unit R) :
    ∃ s', descend e boundary (fixed e boundary right) fuel id s = .returned y s' := by
  induction fuel generalizing id s with
  | zero => exact absurd hfuel (not_lt_zero id)
  | succ fuel ih =>
    unfold descend
    cases hdown with
    | label hy =>
      rw [if_neg (not_le.mpr hy)]
      exact ⟨s, rfl⟩
    | match_ hk hbelow =>
      obtain ⟨hleft, hright⟩ := h.complete.wired.children id hk hid
      have hback : e.k + (id - e.k) = id := Nat.add_sub_cancel' hk
      rw [if_pos hk, direction_at_eq hid]
      -- the answer of the match
      let s₁ := s.answered false (id - e.k)
        ((fixed e boundary right).predict (id - e.k) s.ec s.weights)
      show ∃ s', descend e boundary _ fuel (if boundary < (if right (e.k + (id - e.k)) then boundary + 1
        else boundary - 1) then _ else _) s₁ = _
      rw [hback]
      cases hr : right id with
      | true =>
        rw [hr, if_pos rfl] at hbelow
        rw [if_pos rfl, if_pos (lt_add_one boundary)]
        exact ih hbelow (by omega) (by omega) s₁
      | false =>
        rw [hr, if_neg Bool.false_ne_true] at hbelow
        rw [if_neg Bool.false_ne_true, if_neg (not_lt.mpr (sub_le_self boundary zero_le_one))]
        exact ih hbelow (by omega) (by omega) s₁

end Down

/-- The side of a match that leads back to `x`. -/
theorem Link.down {k : Nat} {c : Circuit} {right : Nat → Bool} {x t y : Nat} {left : Bool}
    (h : Link k c x id t) (hleft : left = decide ((c.directions id).left = x))
    (hwon : right id ≠ left) (hdown : Down k c right x y) : Down k c right id y := by
  refine .match_ h.match_ ?_
  by_cases hx : (c.directions id).left = x
  · rw [decide_eq_true hx] at hleft
    have hr : right id = false := by
      rw [hleft] at hwon
      exact Bool.eq_false_iff.mpr hwon
    rw [hr, if_neg Bool.false_ne_true, hx]
    exact hdown
  · rw [decide_eq_false hx] at hleft
    have hr : right id = true := by
      rw [hleft] at hwon
      exact Bool.ne_false_iff.mp hwon
    rw [hr, if_pos rfl, h.player.resolve_left hx]
    exact hdown

/-! ## Without errors there is one tournament -/

section One

variable {e : Ect} {right : Nat → Bool}

/-- On the way up from `x` every match is entered where it is trained, and whoever wins a match comes back. -/
theorem path_inverts (h : e.Built) (hone : e.errors = 0) (fuel : Nat) {x id t y : Nat} {left : Bool}
    (hlink : Link e.k e.circuit x id t) (hleft : left = decide ((e.circuit.directions id).left = x))
    (hdown : Down e.k e.circuit right x y) :
    Enters e.circuit right x true (path e.circuit right fuel id left) ∧
    ∀ m ∈ path e.circuit right fuel id left, right m.1 ≠ m.2 → Down e.k e.circuit right m.1 y := by
  induction fuel generalizing x id t left with
  | zero => exact ⟨trivial, fun m hm => nomatch hm⟩
  | succ fuel ih =>
    have hwired := h.complete.wired
    have hside : left = entry_side e.circuit x true id := by
      unfold entry_side
      rw [hleft]
      by_cases hx : (e.circuit.directions id).left = x
      · rw [decide_eq_true hx]
        split <;> rfl
      · rw [decide_eq_false hx, if_neg fun hboth => hx hboth.1]
    -- there is no second tournament
    have hfirst : ∀ z < e.circuit.size, (e.circuit.directions z).tournament = 0 := by
      intro z hz
      have hlt := hwired.tournament_lt z hz
      omega
    have hnone : ∀ z link s, Link e.k e.circuit z link s → s = 0 := by
      intro z link s hlink
      rw [← hlink.tournament]
      exact hfirst link hlink.exists_
    have hloser : (e.circuit.directions id).loser = 0 := by
      by_contra hne
      exact absurd (hnone _ _ _ (hwired.loser id hlink.exists_ hne)) (succ_ne_zero _)
    unfold path
    by_cases hwon : right id ≠ left
    · have hback := hlink.down hleft hwon hdown
      simp only [if_pos hwon]
      by_cases hzero : (e.circuit.directions id).winner = 0
      · rw [if_pos hzero]
        refine ⟨⟨hside, trivial⟩, fun m hm _ => ?_⟩
        rw [mem_singleton.mp hm]
        exact hback
      · rw [if_neg hzero]
        have hnext := hwired.winner id hlink.exists_ hzero
        have hlast : (e.circuit.directions id).last = false := by
          rw [Bool.eq_false_iff]
          intro hlast
          have hnone := hnone _ _ _ hnext
          rw [Direction.next, if_pos hlast] at hnone
          exact absurd hnone (succ_ne_zero _)
        rw [hlast, if_neg Bool.false_ne_true]
        obtain ⟨henters, hdowns⟩ := ih hnext rfl hback
        refine ⟨⟨hside, ?_⟩, fun m hm hm_won => ?_⟩
        · rw [decide_eq_true hwon]
          exact henters
        · rcases mem_cons.mp hm with rfl | hm
          · exact hback
          · exact hdowns m hm hm_won
    · simp only [if_neg hwon, if_pos hloser]
      refine ⟨⟨hside, trivial⟩, fun m hm hm_won => ?_⟩
      rw [mem_singleton.mp hm] at hm_won
      exact absurd hm_won hwon

end One

/-! ## With errors the second tournament is not inverted -/

section Errors

variable {e : Ect}

/-- From a match on, outputs with which the label that enters it on one side wins the tournament. -/
theorem exists_win (h : e.Built) (hk : e.k ≤ id) (hid : id < e.circuit.size) (left : Bool) :
    ∃ (outputs : Nat → Bool) (f : Nat) (last_left : Bool),
      e.circuit.final_nodes[(e.circuit.directions id).tournament]? = some f ∧
      ∀ right : Nat → Bool, (∀ m, id ≤ m → right m = outputs m) →
        (∀ fuel, e.circuit.size - id < fuel → (f, last_left) ∈ path e.circuit right fuel id left) ∧
          right f ≠ last_left ∧
        ∀ y, Down e.k e.circuit right
          (if left then (e.circuit.directions id).left else (e.circuit.directions id).right) y →
          Down e.k e.circuit right f y := by
  -- by induction on the matches that are left
  induction hn : e.circuit.size - id using Nat.strong_induction_on generalizing id left with
  | _ n ih =>
    have hwired := h.complete.wired
    have hback : ∀ (right : Nat → Bool) (y : Nat), right id = !left →
        Down e.k e.circuit right
          (if left then (e.circuit.directions id).left else (e.circuit.directions id).right) y →
        Down e.k e.circuit right id y := by
      intro right y hr hdown
      refine .match_ hk ?_
      rw [hr]
      cases left with
      | true => exact hdown
      | false => exact hdown
    have hwins : ∀ right : Nat → Bool, right id = !left → right id ≠ left := by
      intro right hr
      rw [hr]
      exact Bool.not_ne_self left
    by_cases hlast : (e.circuit.directions id).last = true
    · refine ⟨fun _ => !left, id, left, (hwired.final_nodes _ id).mpr ⟨hk, hid, hlast, rfl⟩, fun right hright => ?_⟩
      have hr := hright id (le_refl id)
      refine ⟨fun fuel hfuel => ?_, hwins right hr, fun y => hback right y hr⟩
      obtain ⟨fuel, rfl⟩ : ∃ fuel', fuel = fuel' + 1 := ⟨fuel - 1, by omega⟩
      exact mem_cons_self
    · have hlast : (e.circuit.directions id).last = false := Bool.eq_false_iff.mpr hlast
      have hne := h.winner_ne_zero hid hlast
      have hlink := hwired.winner id hid hne
      have hlater := hlink.later
      have hexists := hlink.exists_
      obtain ⟨outputs, f, last_left, hfinal, hwin⟩ := ih _ (by omega) hlink.match_ hlink.exists_
        ((e.circuit.directions (e.circuit.directions id).winner).left = id) rfl
      rw [hlink.tournament, Direction.next, hlast, if_neg Bool.false_ne_true] at hfinal
      refine ⟨fun m => if m = id then !left else outputs m, f, last_left, hfinal, fun right hright => ?_⟩
      have hr : right id = !left := (hright id (le_refl id)).trans (if_pos rfl)
      have hafter : ∀ m, (e.circuit.directions id).winner ≤ m → right m = outputs m :=
        fun m hm => (hright m (by omega)).trans (if_neg (by omega))
      obtain ⟨hmem, hwon, hdown⟩ := hwin right hafter
      refine ⟨fun fuel hfuel => ?_, hwon, fun y hy => hdown y ?_⟩
      · obtain ⟨fuel, rfl⟩ : ∃ fuel', fuel = fuel' + 1 := ⟨fuel - 1, by omega⟩
        unfold path
        simp only [if_pos (hwins right hr), if_neg hne, hlast, Bool.false_eq_true, if_false]
        exact mem_cons_of_mem _ (hmem fuel (by omega))
      · have hid_down := hback right y hr hy
        by_cases hx : (e.circuit.directions (e.circuit.directions id).winner).left = id
        · rw [decide_eq_true hx, if_pos rfl, hx]
          exact hid_down
        · rw [decide_eq_false hx, if_neg Bool.false_ne_true, hlink.player.resolve_left hx]
          exact hid_down

/-- One of the first two labels loses to the other, wins the second tournament, and the way
    down from there ends at the other. -/
theorem not_inverts [IsStrictOrderedRing R] (boundary : R) (h : e.Built) (herrors : e.errors ≠ 0) :
    ¬ Inverts boundary e := by
  intro hinverts
  have htwo := h.two_le
  have hwired := h.complete.wired
  have hfirst := h.complete.first
  have hk : e.k < e.circuit.size := by
    have hlink := hwired.winner 0 (by have hle := hwired.leaves_le; omega)
      (by rw [hfirst.winner 0 (by decide)]; omega)
    have hexists := hlink.exists_
    rwa [hfirst.winner 0 (by decide)] at hexists
  -- the match after the first loss
  have hne : (e.circuit.directions e.k).loser ≠ 0 := by
    refine fun hzero => hwired.waits_to_lose e.k (le_refl _) hk ?_ hzero
    rw [hfirst.tournament]
    omega
  have hlink := hwired.loser e.k hk hne
  have hlater := hlink.later
  generalize hn : (e.circuit.directions e.k).loser = n at hne hlink hlater
  -- the label that enters it on the side of the first match, and the other one
  obtain ⟨left, y, other, hleft, hy, hother, hside, hback, hdiffer⟩ : ∃ (left : Bool) (y other : Nat),
      left = decide ((e.circuit.directions n).left = e.k) ∧ y < 2 ∧ other < 2 ∧
      decide ((e.circuit.directions e.k).left = y) = left ∧
      (if left then (e.circuit.directions e.k).right else (e.circuit.directions e.k).left) = other ∧ y ≠ other := by
    rw [hfirst.left, hfirst.right]
    by_cases hx : (e.circuit.directions n).left = e.k
    · exact ⟨true, 0, 1, (decide_eq_true hx).symm, by decide, by decide, rfl, rfl, by decide⟩
    · exact ⟨false, 1, 0, (decide_eq_false hx).symm, by decide, by decide, rfl, rfl, by decide⟩
  obtain ⟨outputs, f, last_left, hfinal, hwin⟩ := exists_win h hlink.match_ hlink.exists_ left
  rw [hlink.tournament] at hfinal
  let right (m : Nat) : Bool := if m = e.k then left else outputs m
  have hright : right e.k = left := if_pos rfl
  obtain ⟨hmem, hwon, hdown⟩ := hwin right fun m hm => if_neg (by omega)
  let s : State Unit R :=
    ⟨(), ⟨⟨0, ⟨y + 1, 1⟩, ⟨[], 0⟩, []⟩, 1, ⟨0, [], 0, []⟩, 0, 0, ⟨0, 0⟩⟩, []⟩
  have hbelow : Below e.feature_width s := fun a ha => nomatch ha
  obtain ⟨_, s', hrun, -⟩ := (ect_train_below h (le_succ _) :
    (ect_train e boundary (fixed e boundary right) (e.circuit.size + 1)).Finishes _ _ fun _ => False).returns hbelow
  have hlabel : y < e.k := by omega
  obtain ⟨hinverse, -⟩ := hinverts right y s s' hlabel rfl one_ne_zero rfl _ (le_succ _) hrun
  have hpath := trained_matches_eq h hlabel rfl one_ne_zero rfl (le_succ _) hrun
  rw [hfirst.winner y hy, hside] at hpath
  have htrained : (f, last_left) ∈ trained_matches e s' := by
    rw [hpath]
    unfold path
    have hlost : ¬ right e.k ≠ left := fun hne => hne hright
    have hstale : (if (e.circuit.directions e.k).last = true then left
      else decide ((e.circuit.directions n).left = e.k)) = left := by
      rw [← hleft, ite_self]
    simp only [if_neg hlost, hn, if_neg hne, hstale]
    exact mem_cons_of_mem _ (hmem _ (by omega))
  have hreturned : Down e.k e.circuit right f other := by
    refine hdown other ?_
    have hchild : (if left then (e.circuit.directions n).left else (e.circuit.directions n).right) = e.k := by
      by_cases hx : (e.circuit.directions n).left = e.k
      · rw [hleft, decide_eq_true hx, if_pos rfl, hx]
      · rw [hleft, decide_eq_false hx, if_neg Bool.false_ne_true, hlink.player.resolve_left hx]
    rw [hchild]
    refine .match_ (le_refl _) ?_
    rw [hright, hback]
    exact .label (by omega)
  have hf := ((hwired.final_nodes _ f).mp hfinal).2.1
  obtain ⟨s₁, hcode⟩ := hreturned.descend h (lt_succ_of_lt hf) hf s
  obtain ⟨s₂, hclaim⟩ := hinverse _ f last_left hfinal htrained hwon s
  rw [hcode] at hclaim
  cases hclaim
  exact hdiffer rfl

end Errors

/-- The way down inverts the way up exactly when no errors are allowed for. -/
theorem inverts_iff [IsStrictOrderedRing R] (class_boundary : R) (k errors : Nat) (hk : 2 ≤ k) (e : Ect)
    (hcreated : Ends (fun fuel => create_circuit fuel k errors) e) : Inverts class_boundary e ↔ errors = 0 := by
  obtain ⟨e', rfl, rfl, hbuilt, hends⟩ := create_circuit_built k errors hk
  obtain rfl := hcreated.unique hends
  constructor
  · intro hinverts
    by_contra herrors
    exact not_inverts class_boundary hbuilt herrors hinverts
  · intro herrors right y s s' hy hlabel hweight hasked fuel hfuel hrun
    have hwired := hbuilt.complete.wired
    have hlt : y < e.circuit.size := lt_of_lt_of_le hy hwired.leaves_le
    have hlink := hwired.winner y hlt (hbuilt.winner_ne_zero hlt (hwired.leaf y hy).2.1)
    obtain ⟨henters, hdowns⟩ := (@path_inverts _ right) hbuilt herrors fuel hlink rfl (.label hy)
    rw [trained_matches_eq hbuilt hy hlabel hweight hasked hfuel hrun]
    refine ⟨fun t f left hfinal hmem hwon s₁ => ?_, henters⟩
    have hf := ((hwired.final_nodes t f).mp hfinal).2.1
    exact (hdowns _ hmem hwon).descend hbuilt (lt_of_lt_of_le hf hfuel) hf s₁

/-- Three classes and no error. -/
theorem inverts_iff_three : 2 ≤ 3 ∧ ∃ e, Ends (fun fuel => create_circuit fuel 3 0) e ∧
    (Inverts (0 : ℚ) e ↔ 0 = 0) := by
  obtain ⟨e, -, -, -, hends⟩ := create_circuit_built 3 0 (by decide)
  exact ⟨by decide, e, hends, inverts_iff (0 : ℚ) 3 0 (by decide) e hends⟩

/-- With two labels and one error the label that loses the only match of the first tournament
    wins the only one of the second, and the way down from there ends at the other label. -/
theorem two_labels_not_inverted : ∃ e, Ends (fun fuel => create_circuit fuel 2 1) e ∧ ¬ Inverts (0 : ℚ) e := by
  obtain ⟨e, -, herrors, hbuilt, hends⟩ := create_circuit_built 2 1 (by decide)
  exact ⟨e, hends, not_inverts (0 : ℚ) hbuilt (by omega)⟩

end VW.Tournament
