import VowpalWabbit.Tournament.Traversal

/-! # What training does to the weight of the example

    A match is trained with the weight of the example, then with weight zero, and the weight is
    put back. A query between two tournaments is trained with a weight of its own, a power of
    two, which stays in the example. Without errors there is no query.
-/

open Cpp VW.Trees

namespace VW.Tournament

open List Call

variable {left : Bool}

section Weights

variable {W R : Type} [Field R] [LinearOrder R] {e : Ect} {boundary : R} {base : BaseLearner W R}

/-! ## Matches put the weight back -/

variable {id fuel : Nat} {w : R} {won : List Bool} {s : State W R}

omit [Field R] [LinearOrder R] in
variable {Q : State W R → Prop}

theorem direction_at_leaves : (direction_at e id).Leaves Q Q := by
  unfold direction_at
  split
  · exact .pure _ fun _ hs => hs
  · exact .undefined

omit [Field R] [LinearOrder R] in
theorem enters_left_leaves {last : Bool} {link : Nat} :
    (enters_left e last id link left).Leaves Q Q := by
  unfold enters_left
  split
  · exact .pure _ fun _ hs => hs
  · exact direction_at_leaves.bind fun _ => .pure _ fun _ hs => hs

theorem train_match_leaves :
    (train_match e boundary base id left).Leaves (fun s => s.ec.weight = w) (fun s => s.ec.weight = w) :=
  fun _ hs => hs

theorem climb_leaves :
    (climb e boundary base fuel id left tournaments_won).Leaves (fun s => s.ec.weight = w)
      (fun s => s.ec.weight = w) := by
  induction fuel generalizing id left tournaments_won with
  | zero => exact .undefined
  | succ fuel ih =>
    unfold climb
    refine train_match_leaves.bind fun won => direction_at_leaves.bind fun d => ?_
    split
    · refine enters_left_leaves.bind fun left => ?_
      dsimp only
      split
      · exact .pure _ fun _ hs => hs
      · exact ih
    · refine enters_left_leaves.bind fun left => ?_
      dsimp only
      split
      · exact .pure _ fun _ hs => hs
      · exact ih

/-- Without errors there are no queries. -/
theorem ect_train_leaves (hheight : e.k ≤ 1 ∨ e.tree_height = 0) :
    (ect_train e boundary base fuel).Leaves (fun s => s.ec.weight = w) (fun s => s.ec.weight = w) := by
  unfold ect_train
  split
  · exact .pure _ fun _ hs => hs
  · next hk =>
    refine get_ec_leaves.bind fun ec => ?_
    dsimp only
    split
    · exact .pure _ fun _ hs => hs
    · next hlabel =>
      refine direction_at_leaves.bind fun leaf => enters_left_leaves.bind fun left => climb_leaves.bind fun won => ?_
      unfold query_finals
      rw [hheight.resolve_left (by omega), range_zero, foldlM_nil]
      exact (Call.Leaves.pure _ fun _ hs => hs).bind fun _ => .pure _ fun _ hs => hs

variable {s' : State W R}

/-- What is left of the label and of the weight. -/
theorem learn_eq_returned (h : learn e boundary base fuel s = .returned () s') :
    s'.ec.l.multi = s.ec.l.multi ∧ ∃ s₁ : State W R, s'.ec.weight = s₁.ec.weight ∧
      (if s.ec.l.multi.label = 2 ^ 32 - 1 then pure () else ect_train e boundary base fuel) s = .returned () s₁ := by
  unfold learn at h
  obtain ⟨ec, s₀, hec, h⟩ := bind_eq_returned.mp h
  cases hec
  by_cases hlabel : s.ec.l.multi.label = 2 ^ 32 - 1
  · rw [if_pos hlabel] at h ⊢
    cases h
    exact ⟨rfl, s, rfl, rfl⟩
  · rw [if_neg hlabel] at h ⊢
    obtain ⟨_, s₁, htrain, h⟩ := bind_eq_returned.mp h
    cases h
    exact ⟨rfl, s₁, rfl, htrain⟩

theorem learn_keeps (hheight : e.k ≤ 1 ∨ e.tree_height = 0)
    (h : learn e boundary base fuel s = .returned () s') :
    s'.ec.l.multi = s.ec.l.multi ∧ s'.ec.weight = s.ec.weight := by
  obtain ⟨hlabel, s₁, hweight, htrain⟩ := learn_eq_returned h
  refine ⟨hlabel, hweight.trans ?_⟩
  split at htrain
  · cases htrain
    rfl
  · exact (ect_train_leaves hheight).of_returned rfl htrain

/-- A prediction changes the label for the learner below only. -/
theorem predict_keeps {mc : MulticlassLabel R} :
    (predict e boundary base fuel).Quiet (fun s => s.ec.l.multi = mc ∧ s.ec.weight = w)
      fun _ s => s.ec.l.multi = mc ∧ s.ec.weight = w := by
  have hdirection : ∀ id, (direction_at e id).Quiet (fun s : State W R => s.ec.l.multi = mc ∧ s.ec.weight = w)
      fun _ s => s.ec.l.multi = mc ∧ s.ec.weight = w := by
    intro id
    unfold direction_at
    split
    · exact .pure fun _ hs => hs
    · exact .undefined
  have hdescend : ∀ fuel id, (descend e boundary base fuel id).Quiet
      (fun s => s.ec.l.multi = mc ∧ s.ec.weight = w) fun _ s => s.ec.l.multi = mc ∧ s.ec.weight = w := by
    intro fuel
    induction fuel with
    | zero => exact fun _ => .undefined
    | succ fuel ih =>
      intro id
      unfold descend
      split
      · refine Call.Quiet.bind (F := fun _ (s : State W R) => s.ec.l.multi = mc ∧ s.ec.weight = w)
          (fun _ hs => hs) fun _ => ?_
        exact get_ec_quiet.bind fun ec => (hdirection id).bind fun d => ih _
      · exact .pure fun _ hs => hs
  unfold predict
  refine Call.Quiet.bind (F := fun _ (s : State W R) => s.ec.l.multi = mc ∧ s.ec.weight = w) ?_
    fun _ => fun _ hs => hs
  unfold ect_predict
  split
  · exact .pure fun _ hs => hs
  · refine Call.Quiet.bind (F := fun _ (s : State W R) => s.ec.l.multi = mc ∧ s.ec.weight = w)
      (fun _ hs => hs) fun _ => ?_
    refine Call.Quiet.bind (F := fun _ (s : State W R) => s.ec.l.multi = mc ∧ s.ec.weight = w)
      (fun _ hs => hs) fun _ => ?_
    refine Call.Quiet.bind (F := fun _ (s : State W R) => s.ec.l.multi = mc ∧ s.ec.weight = w) ?_ fun winner => ?_
    · refine .foldlM (fun i _ winner => ?_) 0
      split
      · exact fun _ hs => hs
      · exact .pure fun _ hs => hs
    · split
      · exact .undefined
      · exact (hdescend _ _).bind fun id => .pure fun _ hs => hs

theorem learn_returns (h : e.Built) {fuel : Nat} (hfuel : e.circuit.size ≤ fuel) {s : State W R}
    (hs : s.asked = []) :
    ∃ s', learn e boundary base fuel s = .returned () s' := by
  have hbelow : Below e.feature_width s := by
    intro a ha
    rw [hs] at ha
    cases ha
  obtain ⟨_, s', hrun, -⟩ :=
    (ect_train_below h hfuel : (ect_train e boundary base fuel).Finishes _ _ fun _ => False).returns hbelow
  unfold learn
  by_cases hlabel : s.ec.l.multi.label = 2 ^ 32 - 1
  · refine ⟨s, ?_⟩
    show (if s.ec.l.multi.label = 2 ^ 32 - 1 then _ else _ : Call (State W R) Unit) s = _
    rw [if_pos hlabel]
    rfl
  · refine ⟨{ s' with ec := { s'.ec with
      l := { s'.ec.l with multi := s.ec.l.multi }, pred :=
        { s'.ec.pred with multiclass := s.ec.pred.multiclass } } }, ?_⟩
    show (if s.ec.l.multi.label = 2 ^ 32 - 1 then _ else _ : Call (State W R) Unit) s = _
    rw [if_neg hlabel, bind_run, hrun]
    rfl

theorem predict_returns (h : e.Built) (hfuel : e.circuit.size ≤ fuel) (hs : s.asked = []) :
    ∃ s', predict e boundary base fuel s = .returned () s' := by
  have hbelow : Below e.feature_width s := by
    intro a ha
    rw [hs] at ha
    cases ha
  obtain ⟨label, s', hrun, -⟩ :=
    (ect_predict_below h hfuel : (ect_predict e boundary base fuel).Finishes _ _ fun _ => False).returns hbelow
  refine ⟨{ s' with ec := { s'.ec with pred := { s'.ec.pred with multiclass := label } } }, ?_⟩
  unfold predict
  rw [bind_run, hrun]
  rfl

/-! ## A query leaves its weight -/

/-- The weight is that of a query. -/
def Queried (s : State W R) : Prop := ∃ n : Nat, s.ec.weight = 2 ^ n

theorem query_leaves {i j : Nat} {right : Bool} :
    (query e boundary base i j left right).Leaves Queried Queried := by
  unfold query
  split
  · exact .pure _ fun _ hs => hs
  · exact fun s _ => ⟨e.tree_height - i - 1, rfl⟩

theorem query_pairs_leaves {i j : Nat} :
    (query_pairs e boundary base i fuel j won).Leaves Queried Queried := by
  induction fuel generalizing j won with
  | zero => exact .undefined
  | succ fuel ih =>
    unfold query_pairs
    split
    · exact query_leaves.bind fun winner => ih
    · exact .pure _ fun _ hs => hs

/-- The first query of a label that lost the first tournament and won the second one. -/
theorem query_finals_queried (hheight : 0 < e.tree_height) :
    (query_finals e boundary base (false :: true :: tournaments_won)).Leaves (fun _ => True) Queried := by
  obtain ⟨height, hheight⟩ : ∃ height, e.tree_height = height + 1 := ⟨e.tree_height - 1, by omega⟩
  unfold query_finals
  rw [hheight, range_succ_eq_map, foldlM_cons]
  refine Call.Leaves.bind ?_ fun won => Call.Leaves.foldlM (fun i _ won => query_pairs_leaves) won
  have hpairs : 0 < (false :: true :: tournaments_won).length / 2 := by
    simp only [length_cons]
    omega
  rw [query_pairs, if_pos hpairs]
  refine Call.Leaves.bind ?_ fun winner => query_pairs_leaves
  exact fun s _ => ⟨e.tree_height - 0 - 1, rfl⟩

end Weights

/-! ## A label that loses the last match of the first tournament only -/

section Queries

variable {R : Type} [Field R] [LinearOrder R] [IsStrictOrderedRing R] {e : Ect} {boundary : R}

/-- Every match is won, except for the one that ends the first tournament. -/
def wins (e : Ect) (id : Nat) : Bool := ¬ ((e.circuit.directions id).tournament = 0 ∧ (e.circuit.directions id).last)

/-- A base learner by which these matches are won, by the side that it is told. -/
def decides (e : Ect) (class_boundary : R) (won : Nat → Bool) : BaseLearner Unit R where
  learn i ec w :=
    (⟨{ ec.pred with scalar := if won (e.k + i) then class_boundary + ec.l.simple
        else class_boundary - ec.l.simple },
      ec.partial_prediction, ec.loss⟩, w)
  predict _ ec w := (⟨ec.pred, ec.partial_prediction, ec.loss⟩, w)

theorem train_match_decides {won : Nat → Bool} {id : Nat} (hk : e.k ≤ id) (left : Bool) (s : State Unit R) :
    ∃ s', train_match e boundary (decides e boundary won) id left s = .returned (won id) s' := by
  have hid : e.k + (id - e.k) = id := Nat.add_sub_cancel' hk
  have hrun : ∃ s', train_match e boundary (decides e boundary won) id left s = .returned
      (decide (0 < ((if won (e.k + (id - e.k)) then boundary + side left else boundary - side left) -
        boundary) * side left)) s' := ⟨_, rfl⟩
  obtain ⟨s', hrun⟩ := hrun
  refine ⟨s', hrun.trans ?_⟩
  rw [hid]
  cases won id <;> cases left <;> simp [side]

/-- A base learner that decides so, by the side that it is told. -/
def loses_once (e : Ect) (class_boundary : R) : BaseLearner Unit R where
  learn i ec w :=
    (⟨{ ec.pred with scalar := if wins e (e.k + i) then class_boundary + ec.l.simple
        else class_boundary - ec.l.simple },
      ec.partial_prediction, ec.loss⟩, w)
  predict _ ec w := (⟨ec.pred, ec.partial_prediction, ec.loss⟩, w)

theorem train_match_wins {id : Nat} (hk : e.k ≤ id) (left : Bool) (s : State Unit R) :
    ∃ s', train_match e boundary (loses_once e boundary) id left s = .returned (wins e id) s' :=
  @train_match_decides R _ _ _ e boundary (wins e) id hk left s

variable {fuel id : Nat} {won : List Bool} {s s' : State Unit R}

omit [IsStrictOrderedRing R] in
/-- What was won or lost before stays. -/
theorem prefix_climb {base : BaseLearner Unit R} {tournaments_won' : List Bool}
    (h : climb e boundary base fuel id left tournaments_won s = .returned tournaments_won' s') :
    tournaments_won <+: tournaments_won' := by
  induction fuel generalizing id left tournaments_won s with
  | zero => cases h
  | succ fuel ih =>
    have hpush : ∀ (b : Bool) (last : Prop) [Decidable last],
        tournaments_won <+: if last then tournaments_won ++ [b] else tournaments_won := by
      intro b last _
      split
      · exact prefix_append _ _
      · exact prefix_refl _
    unfold climb at h
    obtain ⟨won, s₁, -, h⟩ := bind_eq_returned.mp h
    obtain ⟨d, s₂, -, h⟩ := bind_eq_returned.mp h
    split at h
    · obtain ⟨left, s₃, -, h⟩ := bind_eq_returned.mp h
      split at h
      · cases h
        exact hpush true _
      · exact (hpush true _).trans (ih h)
    · obtain ⟨left, s₃, -, h⟩ := bind_eq_returned.mp h
      split at h
      · cases h
        exact hpush false _
      · exact (hpush false _).trans (ih h)

/-- In the second tournament it wins. -/
theorem climb_second (h : e.Built) (hk : e.k ≤ id) (hid : id < e.circuit.size)
    (ht : (e.circuit.directions id).tournament = 1)
    (hrun : climb e boundary (loses_once e boundary) fuel id left [false] s = .returned won s') :
    [false, true] <+: won := by
  induction fuel generalizing id left s with
  | zero => cases hrun
  | succ fuel ih =>
    have hwins : wins e id = true := decide_eq_true fun hboth => absurd (ht.symm.trans hboth.1) one_ne_zero
    obtain ⟨s₁, hmatch⟩ := (@train_match_wins _ _ _ _ _ boundary _) hk left s
    unfold climb at hrun
    rw [bind_run, hmatch, hwins, direction_at_eq hid] at hrun
    dsimp only at hrun
    rw [pure_bind, if_pos rfl] at hrun
    obtain ⟨left', s₂, -, hrun⟩ := bind_eq_returned.mp hrun
    by_cases hlast : (e.circuit.directions id).last = true
    · rw [if_pos hlast] at hrun
      split at hrun
      · cases hrun
        exact prefix_refl _
      · exact prefix_climb hrun
    · have hlast : (e.circuit.directions id).last = false := Bool.eq_false_iff.mpr hlast
      have hne := h.winner_ne_zero hid hlast
      have hlink := h.complete.wired.winner id hid hne
      rw [hlast, if_neg Bool.false_ne_true, if_neg hne] at hrun
      refine ih hlink.match_ hlink.exists_ (hlink.tournament.trans ?_) hrun
      rw [Direction.next, hlast, if_neg Bool.false_ne_true, ht]

/-- In the first tournament it wins up to the last match. -/
theorem climb_first (h : e.Built) (herrors : e.errors ≠ 0) (hk : e.k ≤ id)
    (hid : id < e.circuit.size) (ht : (e.circuit.directions id).tournament = 0)
    (hrun : climb e boundary (loses_once e boundary) fuel id left [] s = .returned won s') :
    [false, true] <+: won := by
  induction fuel generalizing id left s with
  | zero => cases hrun
  | succ fuel ih =>
    have hwired := h.complete.wired
    obtain ⟨s₁, hmatch⟩ := (@train_match_wins _ _ _ _ _ boundary _) hk left s
    unfold climb at hrun
    rw [bind_run, hmatch, direction_at_eq hid] at hrun
    dsimp only at hrun
    rw [pure_bind] at hrun
    by_cases hlast : (e.circuit.directions id).last = true
    · have hloses : wins e id = false := decide_eq_false fun hnot => hnot ⟨ht, hlast⟩
      have hne : (e.circuit.directions id).loser ≠ 0 := by
        refine fun hzero => hwired.waits_to_lose id hk hid ?_ hzero
        rw [ht]
        omega
      have hlink := hwired.loser id hid hne
      rw [hloses, if_neg Bool.false_ne_true] at hrun
      obtain ⟨left', s₂, -, hrun⟩ := bind_eq_returned.mp hrun
      rw [if_neg hne, if_pos (.inl hlast)] at hrun
      refine climb_second h hlink.match_ hlink.exists_ (hlink.tournament.trans ?_) hrun
      rw [ht]
    · have hlast : (e.circuit.directions id).last = false := Bool.eq_false_iff.mpr hlast
      have hwins : wins e id = true := by
        refine decide_eq_true fun hboth => ?_
        rw [hlast] at hboth
        exact Bool.false_ne_true hboth.2
      have hne := h.winner_ne_zero hid hlast
      have hlink := hwired.winner id hid hne
      rw [hwins, if_pos rfl] at hrun
      obtain ⟨left', s₂, -, hrun⟩ := bind_eq_returned.mp hrun
      rw [hlast, if_neg Bool.false_ne_true, if_neg hne] at hrun
      refine ih hlink.match_ hlink.exists_ (hlink.tournament.trans ?_) hrun
      rw [Direction.next, hlast, if_neg Bool.false_ne_true, ht]

omit [IsStrictOrderedRing R] in
theorem tree_height_pos (h : e.Built) (herrors : e.errors ≠ 0) : 0 < e.tree_height := by
  rw [h.tree_height]
  unfold final_depth
  refine Nat.pos_of_ne_zero fun hzero => ?_
  cases hfind : (range 32).find? fun i => (e.errors + 1 - 1) >>> i = 0 with
  | none =>
    rw [hfind] at hzero
    cases hzero
  | some i =>
    rw [hfind] at hzero
    have hi : i = 0 := hzero
    have hshift := find?_some hfind
    rw [hi, decide_eq_true_eq, Nat.shiftRight_zero, Nat.add_sub_cancel] at hshift
    exact herrors hshift

/-- Afterwards the weight is that of a query. -/
theorem ect_train_queried (h : e.Built) (herrors : e.errors ≠ 0)
    (hlabel : s.ec.l.multi.label = 1)
    (hrun : ect_train e boundary (loses_once e boundary) fuel s = .returned () s') : Queried s' := by
  have htwo := h.two_le
  have hwired := h.complete.wired
  have hfirst := h.complete.first
  have hzero : 0 < e.circuit.size := Nat.lt_of_lt_of_le (by omega) hwired.leaves_le
  have hlink := hwired.winner 0 hzero (by rw [hfirst.winner 0 (by decide)]; omega)
  rw [hfirst.winner 0 (by decide)] at hlink
  unfold ect_train at hrun
  rw [if_neg (by omega)] at hrun
  obtain ⟨ec, s₁, hec, hrun⟩ := bind_eq_returned.mp hrun
  cases hec
  rw [hlabel, if_neg (by omega), direction_at_eq hzero, pure_bind] at hrun
  rw [hfirst.winner 0 (by decide)] at hrun
  obtain ⟨left, s₂, -, hrun⟩ := bind_eq_returned.mp hrun
  obtain ⟨tournaments_won, s₃, hclimb, hrun⟩ := bind_eq_returned.mp hrun
  obtain ⟨won, s₄, hqueries, hrun⟩ := bind_eq_returned.mp hrun
  cases hrun
  obtain ⟨rest, rfl⟩ := climb_first h herrors (Nat.le_refl _) hlink.exists_ hfirst.tournament hclimb
  exact (query_finals_queried (tree_height_pos h herrors)).of_returned trivial hqueries

theorem two_pow_ne_three (n : Nat) : (2 : R) ^ n ≠ 3 := by
  intro h
  have hcast : ((2 ^ n : Nat) : R) = ((3 : Nat) : R) := by
    rw [Nat.cast_pow]
    exact_mod_cast h
  have hnat : 2 ^ n = 3 := Nat.cast_injective hcast
  cases n with
  | zero => cases hnat
  | succ n =>
    rw [Nat.pow_succ] at hnat
    omega

/-- An example with label 1 and weight 3. -/
def heavy : State Unit R := ⟨(), ⟨⟨0, ⟨1, 1⟩, ⟨[], 0⟩, []⟩, 3, ⟨0, [], 0, []⟩, 0, 0, ⟨0, 0⟩⟩, []⟩

/-- Its weight is not put back. -/
theorem learn_loses_weight (h : e.Built) (herrors : e.errors ≠ 0) : ∃ s' : State Unit R,
    learn e boundary (loses_once e boundary) e.circuit.size heavy = .returned () s' ∧ s'.ec.weight ≠ 3 := by
  obtain ⟨s', hrun⟩ := (@learn_returns _ _ _ _ _ boundary (loses_once e boundary)) h
    (Nat.le_refl _) (s := heavy) rfl
  obtain ⟨-, s₁, hweight, htrain⟩ := learn_eq_returned hrun
  rw [if_neg (show ¬ (heavy : State Unit R).ec.l.multi.label = 2 ^ 32 - 1 from
    (by decide : ¬ 1 = 2 ^ 32 - 1))] at htrain
  obtain ⟨n, hn⟩ := ect_train_queried h herrors rfl htrain
  refine ⟨s', hrun, ?_⟩
  rw [hweight, hn]
  exact two_pow_ne_three n

end Queries

end VW.Tournament
