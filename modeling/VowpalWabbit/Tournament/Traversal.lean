import VowpalWabbit.Tournament.Levels
import VowpalWabbit.Trees.Example

/-! # Predicting and training with a circuit

    `ect_predict` goes down: the finals among the winners of the tournaments are a binary
    tree of their own, then every match on the way down names the child to go on with.
    `ect_train` goes up: the label plays match after match, in the next tournament after
    each loss, until it has lost once too often.
-/

open Cpp VW.Trees

namespace VW.Tournament

open List Nat

export Trees (BaseLearner Example FLT_MAX)

variable {W R : Type} [Field R] [LinearOrder R]

/-- `e.directions[id]`. -/
def direction_at {S : Type} (e : Ect) (id : Nat) : Call S Direction :=
  if id < e.circuit.size then pure (e.circuit.directions id) else Call.undefined

section Ect

variable (e : Ect) (class_boundary : R) (base : BaseLearner W R)

/-! ## Down -/

/-- The finals among the winners of the tournaments. -/
def play_finals : Call (State W R) Nat :=
  (range e.tree_height).reverse.foldlM (fun finals_winner i =>
    if finals_winner ||| 1 <<< i ≤ e.errors then do
      -- a real choice exists
      base.predicts (e.last_pair + (finals_winner ||| 1 <<< i) - 1)
      let ec ← get_ec
      pure (if class_boundary < ec.pred.scalar then finals_winner ||| 1 <<< i else finals_winner)
    else pure finals_winner) 0

/-- The loop of `ect_predict` over the matches. -/
def descend : Nat → Nat → Call (State W R) Nat
  | 0, _ => Call.undefined
  | fuel + 1, id =>
    if e.k ≤ id then do
      base.predicts (id - e.k)
      let ec ← get_ec
      let d ← direction_at e id
      descend fuel (if class_boundary < ec.pred.scalar then d.right else d.left)
    else pure id

def ect_predict (fuel : Nat) : Call (State W R) Nat :=
  if e.k = 1 then pure 1
  else do
    set_simple FLT_MAX
    reset_to_default
    let finals_winner ← play_finals e class_boundary base
    match e.circuit.final_nodes[finals_winner]? with
    | none => Call.undefined
    | some id => do
      let id ← descend e class_boundary base fuel id
      pure (id + 1)

/-! ## Up -/

/-- The label of a side. -/
def side (left : Bool) : R := if left then -1 else 1

/-- A match of the label that is trained, which enters it on the left or on the right. -/
def train_match (id : Nat) (left : Bool) : Call (State W R) Bool := do
  set_simple (side left)
  base.learns (id - e.k)
  let ec ← get_ec
  let old_weight := ec.weight
  set_weight 0
  base.learns (id - e.k)
  set_weight old_weight
  let ec ← get_ec
  pure (0 < (ec.pred.scalar - class_boundary) * side left)

/-- The side on which a match is entered from match `id`. The last match of a tournament leaves
    it as it was. -/
def enters_left {S : Type} (last : Bool) (id link : Nat) (left : Bool) : Call S Bool :=
  if last then pure left
  else do
    let d ← direction_at e link
    pure (d.left = id)

/-- The loop of `ect_train` over the matches. -/
def climb : Nat → Nat → Bool → List Bool → Call (State W R) (List Bool)
  | 0, _, _, _ => Call.undefined
  | fuel + 1, id, left, tournaments_won => do
    let won ← train_match e class_boundary base id left
    let d ← direction_at e id
    if won then do
      let left ← enters_left e d.last id d.winner left
      let tournaments_won := if d.last then tournaments_won ++ [true] else tournaments_won
      if d.winner = 0 then pure tournaments_won else climb fuel d.winner left tournaments_won
    else do
      let left ← enters_left e d.last id d.loser left
      let tournaments_won := if d.last ∨ d.loser = 0 then tournaments_won ++ [false] else tournaments_won
      if d.loser = 0 then pure tournaments_won else climb fuel d.loser left tournaments_won

/-- A query between two tournaments, unless both were won or both were lost. -/
def query (i j : Nat) (left right : Bool) : Call (State W R) Bool :=
  if left = right then pure left
  else do
    set_simple (side left)
    set_weight (2 ^ (e.tree_height - i - 1))
    base.learns (e.last_pair + j * 2 ^ (i + 1) + 2 ^ i - 1)
    let ec ← get_ec
    pure (if class_boundary < ec.pred.scalar then right else left)

/-- The winner of a pair of tournaments takes its place, and the list is halved. -/
def halve (tournaments_won : List Bool) (j : Nat) (winner : Bool) : List Bool :=
  let tournaments_won := tournaments_won.set j winner
  let tournaments_won :=
    if tournaments_won.length % 2 = 1 then
      tournaments_won.set (tournaments_won.length / 2) (tournaments_won.getD (tournaments_won.length - 1) false)
    else tournaments_won
  tournaments_won.take ((1 + tournaments_won.length) / 2)

/-- The loop over the pairs. The list is halved after every pair, and `size / 2` is that of
    the halved list. -/
def query_pairs (i : Nat) : Nat → Nat → List Bool → Call (State W R) (List Bool)
  | 0, _, _ => Call.undefined
  | fuel + 1, j, tournaments_won =>
    if j < tournaments_won.length / 2 then do
      let winner ← query e class_boundary base i j (tournaments_won.getD (j * 2) false)
        (tournaments_won.getD (j * 2 + 1) false)
      query_pairs i fuel (j + 1) (halve tournaments_won j winner)
    else pure tournaments_won

/-- The queries among the tournaments. -/
def query_finals (tournaments_won : List Bool) : Call (State W R) (List Bool) :=
  (range e.tree_height).foldlM (fun tournaments_won i =>
    query_pairs e class_boundary base i (tournaments_won.length + 1) 0 tournaments_won) tournaments_won

def ect_train (fuel : Nat) : Call (State W R) Unit :=
  if e.k = 1 then pure ()
  else do
    let ec ← get_ec
    let mc := ec.l.multi
    if mc.label = 0 ∨ e.k < mc.label then pure ()
    else do
      let leaf ← direction_at e (mc.label - 1)
      let left ← enters_left e false (mc.label - 1) leaf.winner false
      let tournaments_won ← climb e class_boundary base fuel leaf.winner left []
      let _ ← query_finals e class_boundary base tournaments_won
      pure ()

def predict (fuel : Nat) : Call (State W R) Unit := do
  let multiclass ← ect_predict e class_boundary base fuel
  set_ec fun ec => { ec with pred := { ec.pred with multiclass := multiclass } }

/-- `learn`. A label of all ones is that of an unlabelled example. -/
def learn (fuel : Nat) : Call (State W R) Unit := do
  let ec ← get_ec
  let mc := ec.l.multi
  let pred := ec.pred.multiclass
  if mc.label = 2 ^ 32 - 1 then pure () else ect_train e class_boundary base fuel
  set_ec fun ec => { ec with l := { ec.l with multi := mc }, pred := { ec.pred with multiclass := pred } }

end Ect

/-! ## Every traversal ends, and asks models that exist -/

section Bounds

variable {e : Ect} {boundary : R} {base : BaseLearner W R} {T : State W R → Prop}

theorem Ect.Built.size (h : e.Built) : e.circuit.size = e.k + e.last_pair :=
  h.complete.size.trans (by rw [h.last_pair])

theorem Ect.Built.two_le (h : e.Built) : 2 ≤ e.k := h.complete.first.two

variable {id fuel : Nat} {won : List Bool}

/-- The model of a match. -/
theorem Ect.Built.index_lt (h : e.Built) (hk : e.k ≤ id) (hid : id < e.circuit.size) :
    id - e.k < e.last_pair := by
  rw [h.size] at hid
  omega

theorem Ect.Built.width_lt (h : e.Built) (hk : e.k ≤ id) (hid : id < e.circuit.size) :
    id - e.k < e.feature_width := by
  rw [h.feature_width]
  exact Nat.lt_add_right _ (h.index_lt hk hid)

/-- A winner goes on, unless it was the last match of its tournament. -/
theorem Ect.Built.winner_ne_zero (h : e.Built) (hid : id < e.circuit.size)
    (hlast : (e.circuit.directions id).last = false) : (e.circuit.directions id).winner ≠ 0 :=
  h.complete.wired.waits_to_win id hid hlast

theorem direction_at_eq {S : Type} (hid : id < e.circuit.size) :
    (direction_at e id : Call S Direction) = pure (e.circuit.directions id) := if_pos hid

omit [Field R] in
theorem play_finals_below (h : e.Built) : (play_finals e boundary base).Finishes (Below e.feature_width)
    (fun finals_winner s => finals_winner ≤ e.errors ∧ Below e.feature_width s) T := by
  refine (Call.Finishes.foldlM (F := fun finals_winner s => finals_winner ≤ e.errors ∧ Below e.feature_width s)
    (fun i _ finals_winner => ?_) 0).mono (fun s hs => ⟨zero_le _, hs⟩) (fun _ _ hs => hs) fun _ hs => hs
  split
  · next hchoice =>
    have hpositive : 0 < finals_winner ||| 1 <<< i := by
      refine lt_of_lt_of_le ?_ right_le_or
      rw [one_shiftLeft]
      exact Nat.two_pow_pos i
    have hindex : e.last_pair + (finals_winner ||| 1 <<< i) - 1 < e.feature_width := by
      rw [h.feature_width]
      omega
    refine Call.Finishes.bind (F := fun _ s => finals_winner ≤ e.errors ∧ Below e.feature_width s)
      (.modify fun s hs => ⟨hs.1, hs.2.answered hindex _⟩) fun _ => ?_
    refine Call.Finishes.bind (F := fun _ s => finals_winner ≤ e.errors ∧ Below e.feature_width s) (fun _ hs => hs)
      fun ec => ?_
    refine .pure fun s hs => ⟨?_, hs.2⟩
    split
    · exact hchoice
    · exact hs.1
  · exact .pure fun _ hs => hs

omit [Field R] in
/-- The way down ends at a label. -/
theorem descend_below (h : e.Built) (hid : id < e.circuit.size) (hfuel : id < fuel) :
    (descend e boundary base fuel id).Finishes (Below e.feature_width)
      (fun id s => id < e.k ∧ Below e.feature_width s) T := by
  induction fuel generalizing id with
  | zero => exact absurd hfuel (not_lt_zero id)
  | succ fuel ih =>
    unfold descend
    split
    · next hk =>
      obtain ⟨hleft, hright⟩ := h.complete.wired.children id hk hid
      refine (predicts_below (h.width_lt hk hid)).bind fun _ => get_ec_below.bind fun ec => ?_
      rw [direction_at_eq hid]
      split
      · exact ih (by omega) (by omega)
      · exact ih (by omega) (by omega)
    · next hk => exact .pure fun _ hs => ⟨Nat.lt_of_not_le hk, hs⟩

theorem ect_predict_below (h : e.Built) (hfuel : e.circuit.size ≤ fuel) :
    (ect_predict e boundary base fuel).Finishes (Below e.feature_width)
      (fun label s => (1 ≤ label ∧ label ≤ e.k) ∧ Below e.feature_width s) T := by
  have htwo := h.two_le
  unfold ect_predict
  rw [if_neg (by omega)]
  refine (set_ec_below _).bind fun _ => (set_ec_below _).bind fun _ =>
    (play_finals_below h).bind fun finals_winner => ?_
  intro s ⟨hwinner, hs⟩
  have hlt : finals_winner < e.circuit.final_nodes.length := by
    rw [h.complete.final_nodes]
    omega
  have hget := getElem?_eq_getElem hlt
  have hid := (h.complete.wired.final_nodes finals_winner _).mp hget
  rw [hget]
  exact ((descend_below h hid.2.1 (lt_of_lt_of_le hid.2.1 hfuel)).bind fun id =>
    .pure fun s hs => ⟨⟨succ_pos id, hs.1⟩, hs.2⟩) s hs

theorem train_match_asks {n id : Nat} (hindex : id - e.k < n) (left : Bool) :
    (train_match e boundary base id left).Finishes (Below n) (fun _ => Below n) T :=
  (set_ec_below _).bind fun _ => (learns_below hindex).bind fun _ => get_ec_below.bind fun _ =>
    (set_ec_below _).bind fun _ => (learns_below hindex).bind fun _ => (set_ec_below _).bind fun _ =>
      get_ec_below.bind fun _ => .pure fun _ hs => hs

omit [Field R] [LinearOrder R] in
theorem enters_left_run {last left : Bool} {link : Nat} (hlink : link < e.circuit.size) (s : State W R) :
    enters_left e last id link left s =
      .returned (if last then left else (e.circuit.directions link).left = id) s := by
  unfold enters_left
  cases last with
  | true => rfl
  | false =>
    rw [if_neg Bool.false_ne_true, direction_at_eq hlink]
    rfl

omit [Field R] [LinearOrder R] in
theorem enters_left_below {n link : Nat} {last left : Bool} (hlink : link < e.circuit.size) :
    (enters_left e last id link left : Call (State W R) Bool).Finishes (Below n) (fun _ => Below n) T := by
  intro s hs
  rw [enters_left_run hlink]
  exact hs

/-- The way up ends. If so far at least `behind` tournaments have no entry, that stays so; only
    matches are asked about. -/
theorem climb_within (h : e.Built) {n behind : Nat} (hn : e.last_pair ≤ n) {fuel id : Nat} {left : Bool}
    {tournaments_won : List Bool} (hk : e.k ≤ id) (hid : id < e.circuit.size) (hfuel : e.circuit.size - id < fuel)
    (hwon : tournaments_won.length + behind ≤ (e.circuit.directions id).tournament) :
    (climb e boundary base fuel id left tournaments_won).Finishes (Below n)
      (fun tournaments_won s => tournaments_won.length + behind ≤ e.errors + 1 ∧ Below n s) T := by
  induction fuel generalizing id left tournaments_won with
  | zero => exact absurd hfuel (not_lt_zero _)
  | succ fuel ih =>
    have hwired := h.complete.wired
    have htournament := hwired.tournament_lt id hid
    have hsize : 0 < e.circuit.size := zero_lt_of_lt hid
    have hindex := h.index_lt hk hid
    unfold climb
    refine (train_match_asks (by omega) left).bind fun won => ?_
    rw [direction_at_eq hid]
    show (if won then _ else _ : Call (State W R) (List Bool)).Finishes _ _ _
    have hgo : ∀ (link t : Nat) (left : Bool) (tournaments_won : List Bool), Link e.k e.circuit id link t →
        tournaments_won.length + behind ≤ t → (climb e boundary base fuel link left tournaments_won).Finishes
          (Below n) (fun tournaments_won s => tournaments_won.length + behind ≤ e.errors + 1 ∧ Below n s) T := by
      intro link t left tournaments_won hlink hlength
      have hlater := hlink.later
      refine ih hlink.match_ hlink.exists_ (by omega) ?_
      rw [hlink.tournament]
      exact hlength
    cases won with
    | true =>
      rw [if_pos rfl]
      have hlink := hwired.winner id hid
      have hlength : (if (e.circuit.directions id).last then tournaments_won ++ [true] else tournaments_won).length +
          behind ≤ (e.circuit.directions id).next := by
        unfold Direction.next
        split
        · rw [length_append, length_singleton]
          omega
        · exact hwon
      refine (enters_left_below ?_).bind fun left => ?_
      · by_cases hzero : (e.circuit.directions id).winner = 0
        · rw [hzero]
          exact hsize
        · exact (hlink hzero).exists_
      · dsimp only
        split
        · next hzero =>
          refine .pure fun s hs => ⟨Nat.le_trans hlength ?_, hs⟩
          unfold Direction.next
          split <;> omega
        · next hne => exact hgo _ _ left _ (hlink hne) hlength
    | false =>
      rw [if_neg Bool.false_ne_true]
      have hlink := hwired.loser id hid
      have hlength : (if (e.circuit.directions id).last ∨ (e.circuit.directions id).loser = 0 then
        tournaments_won ++ [false]
          else tournaments_won).length + behind ≤ (e.circuit.directions id).tournament + 1 := by
        split
        · rw [length_append, length_singleton]
          omega
        · exact le_succ_of_le hwon
      refine (enters_left_below ?_).bind fun left => ?_
      · by_cases hzero : (e.circuit.directions id).loser = 0
        · rw [hzero]
          exact hsize
        · exact (hlink hzero).exists_
      · dsimp only
        split
        · exact .pure fun s hs => ⟨Nat.le_trans hlength htournament, hs⟩
        · next hne => exact hgo _ _ left _ (hlink hne) hlength

/-- No tournament is won or lost twice. -/
theorem climb_below (h : e.Built) {left : Bool} (hk : e.k ≤ id)
    (hid : id < e.circuit.size) (hfuel : e.circuit.size - id < fuel)
    (hwon : tournaments_won.length ≤ (e.circuit.directions id).tournament) :
    (climb e boundary base fuel id left tournaments_won).Finishes (Below e.feature_width)
      (fun tournaments_won s => tournaments_won.length ≤ e.errors + 1 ∧ Below e.feature_width s) T := by
  have hwidth : e.last_pair ≤ e.feature_width := by
    rw [h.feature_width]
    exact Nat.le_add_right _ _
  exact climb_within h hwidth hk hid hfuel
    (show tournaments_won.length + 0 ≤ (e.circuit.directions id).tournament from hwon)

theorem length_halve (h : 2 ≤ won.length) (j : Nat) (winner : Bool) :
    (halve won j winner).length = (1 + won.length) / 2 := by
  have hset : ∀ xs : List Bool, xs.length = won.length →
      (xs.take ((1 + xs.length) / 2)).length = (1 + won.length) / 2 := by
    intro xs hxs
    rw [length_take, hxs]
    omega
  unfold halve
  refine hset _ ?_
  split
  · rw [length_set, length_set]
  · rw [length_set]

variable {P : State W R → Prop}

/-- The list is halved after every pair, so that few pairs are queried: what these queries keep, a level keeps. -/
theorem query_pairs_keep (hquery : ∀ i j left right, (2 * j + 1) * 2 ^ (i + j) ≤ e.errors →
      (query e boundary base i j left right).Finishes P (fun _ => P) T) {i j : Nat}
    (hfuel : won.length < fuel) (hwon : (won.length - 1) * 2 ^ (i + j) ≤ e.errors) :
    (query_pairs e boundary base i fuel j won).Finishes P
      (fun won s => (won.length - 1) * 2 ^ (i + 1) ≤ e.errors ∧ P s) T := by
  induction fuel generalizing j won with
  | zero => exact absurd hfuel (not_lt_zero _)
  | succ fuel ih =>
    unfold query_pairs
    split
    · next hj =>
      have hlength : 2 ≤ won.length := by omega
      have hindex : (2 * j + 1) * 2 ^ (i + j) ≤ e.errors := Nat.le_trans (mul_le_mul_right _ (by omega)) hwon
      refine (hquery i j _ _ hindex).bind fun winner => ih ?_ ?_
      · rw [length_halve hlength]
        omega
      · rw [length_halve hlength]
        calc ((1 + won.length) / 2 - 1) * 2 ^ (i + (j + 1))
            = ((1 + won.length) / 2 - 1) * 2 * 2 ^ (i + j) := by ring
          _ ≤ (won.length - 1) * 2 ^ (i + j) := mul_le_mul_right _ (by omega)
          _ ≤ e.errors := hwon
    · next hj =>
      refine .pure fun s hs => ⟨?_, hs⟩
      cases j with
      | zero =>
        have hone : won.length - 1 = 0 := by omega
        rw [hone, zero_mul]
        exact zero_le _
      | succ j =>
        refine Nat.le_trans (Nat.mul_le_mul_left _ (Nat.pow_le_pow_right Nat.two_pos ?_)) hwon
        omega

theorem query_finals_keep (hquery : ∀ i j left right, (2 * j + 1) * 2 ^ (i + j) ≤ e.errors →
      (query e boundary base i j left right).Finishes P (fun _ => P) T)
    (hwon : won.length ≤ e.errors + 1) :
    (query_finals e boundary base won).Finishes P (fun _ => P) T := by
  refine (Call.Finishes.foldlM_range (I := fun i won s =>
    (won.length - 1) * 2 ^ i ≤ e.errors ∧ P s) (fun i _ won => ?_)
    won).mono (fun s hs => ⟨?_, hs⟩) (fun _ _ hs => hs.2) fun _ hs => hs
  · intro s hs
    exact query_pairs_keep hquery (lt_succ_self _) hs.1 s hs.2
  · rw [pow_zero]
    omega

/-- The numbers of the queries stay below the number of errors. -/
theorem query_finals_below (h : e.Built) (hwon : won.length ≤ e.errors + 1) :
    (query_finals e boundary base won).Finishes (Below e.feature_width)
      (fun _ => Below e.feature_width) T := by
  refine query_finals_keep (fun i j left right hindex => ?_) hwon
  have hpositive : 0 < 2 ^ i := Nat.two_pow_pos i
  have hnumber : j * 2 ^ (i + 1) + 2 ^ i ≤ e.errors := by
    refine Nat.le_trans ?_ hindex
    calc j * 2 ^ (i + 1) + 2 ^ i = (2 * j + 1) * 2 ^ i := by ring
      _ ≤ (2 * j + 1) * 2 ^ (i + j) :=
        Nat.mul_le_mul_left _ (Nat.pow_le_pow_right Nat.two_pos (Nat.le_add_right i j))
  have hwidth : e.last_pair + j * 2 ^ (i + 1) + 2 ^ i - 1 < e.feature_width := by
    rw [h.feature_width]
    omega
  unfold query
  split
  · exact fun _ hs => hs
  · exact (set_ec_below _).bind fun _ => (set_ec_below _).bind fun _ => (learns_below hwidth).bind fun _ =>
      get_ec_below.bind fun _ => .pure fun _ hs => hs

theorem ect_train_below (h : e.Built) (hfuel : e.circuit.size ≤ fuel) :
    (ect_train e boundary base fuel).Finishes (Below e.feature_width) (fun _ => Below e.feature_width) T := by
  have htwo := h.two_le
  have hwired := h.complete.wired
  unfold ect_train
  rw [if_neg (by omega)]
  refine get_ec_below.bind fun ec => ?_
  dsimp only
  split
  · exact .pure fun _ hs => hs
  · next hlabel =>
    have hleaf : ec.l.multi.label - 1 < e.k := by omega
    have hlt : ec.l.multi.label - 1 < e.circuit.size := lt_of_lt_of_le hleaf hwired.leaves_le
    have hlink := hwired.winner _ hlt (h.winner_ne_zero hlt (hwired.leaf _ hleaf).2.1)
    have hlater := hlink.match_
    rw [direction_at_eq hlt]
    refine (enters_left_below hlink.exists_).bind fun left => ?_
    refine (climb_below h hlink.match_ hlink.exists_ (by omega) (zero_le _)).bind fun won => ?_
    intro s hs
    exact Call.Finishes.bind (G := fun _ => Below e.feature_width) (query_finals_below h hs.1)
      (fun _ => .pure fun _ hs => hs) s hs.2

end Bounds

/-- The circuit for `k` labels and up to `errors` errors, and what asks along it. -/
structure WellFormed (k errors : Nat) (e : Ect) : Prop where
  labels : e.k = k ∧ e.errors = errors
  size : e.circuit.size = k + (k - 1) * (errors + 1)
  final_nodes : e.circuit.final_nodes.length = errors + 1
  tournament : ∀ t x, e.circuit.final_nodes[t]? = some x →
    k ≤ x ∧ x < e.circuit.size ∧ (e.circuit.directions x).tournament = t
  children : ∀ x, k ≤ x → x < e.circuit.size →
    (e.circuit.directions x).left < x ∧ (e.circuit.directions x).right < x
  winner : ∀ x < e.circuit.size, (e.circuit.directions x).winner ≠ 0 →
    x < (e.circuit.directions x).winner ∧ (e.circuit.directions x).winner < e.circuit.size
  loser : ∀ x < e.circuit.size, (e.circuit.directions x).loser ≠ 0 →
    x < (e.circuit.directions x).loser ∧ (e.circuit.directions x).loser < e.circuit.size
  predicts : ∀ {W R : Type} [Field R] [LinearOrder R] (class_boundary : R) (base : BaseLearner W R) (s : State W R),
    s.asked = [] → ∀ fuel ≥ e.circuit.size, ∃ label s', ect_predict e class_boundary base fuel s =
      .returned label s' ∧
      1 ≤ label ∧ label ≤ k ∧ ∀ a ∈ s'.asked, a.index < e.feature_width
  trains : ∀ {W R : Type} [Field R] [LinearOrder R] (class_boundary : R) (base : BaseLearner W R) (s : State W R),
    s.asked = [] → ∀ fuel ≥ e.circuit.size, ∃ s', ect_train e class_boundary base fuel s = .returned () s' ∧
      ∀ a ∈ s'.asked, a.index < e.feature_width

/-- `create_circuit` ends with a well-formed circuit. -/
theorem create_circuit_well_formed (k errors : Nat) (hk : 2 ≤ k) :
    ∃ e, Ends (fun fuel => create_circuit fuel k errors) e ∧ WellFormed k errors e := by
  obtain ⟨e, rfl, rfl, hbuilt, hends⟩ := create_circuit_built k errors hk
  have hwired := hbuilt.complete.wired
  have hstart : ∀ {W R : Type} {s : State W R}, s.asked = [] → Below e.feature_width s := by
    intro W R s hs a ha
    rw [hs] at ha
    cases ha
  refine ⟨e, hends, ⟨rfl, rfl⟩, hbuilt.complete.size, hbuilt.complete.final_nodes, fun t x hx => ?_, hwired.children,
    fun x hx hne => ?_, fun x hx hne => ?_, fun class_boundary base s hs fuel hfuel => ?_,
    fun class_boundary base s hs fuel hfuel => ?_⟩
  · obtain ⟨hk, hlt, -, ht⟩ := (hwired.final_nodes t x).mp hx
    exact ⟨hk, hlt, ht⟩
  · have hlink := hwired.winner x hx hne
    exact ⟨hlink.later, hlink.exists_⟩
  · have hlink := hwired.loser x hx hne
    exact ⟨hlink.later, hlink.exists_⟩
  · obtain ⟨label, s', hrun, hlabel, hbelow⟩ :=
      (ect_predict_below hbuilt hfuel : (ect_predict e class_boundary base fuel).Finishes _ _ fun _ => False).returns
        (hstart hs)
    exact ⟨label, s', hrun, hlabel.1, hlabel.2, hbelow⟩
  · obtain ⟨_, s', hrun, hbelow⟩ :=
      (ect_train_below hbuilt hfuel : (ect_train e class_boundary base fuel).Finishes _ _ fun _ => False).returns
        (hstart hs)
    exact ⟨s', hrun, hbelow⟩

/-- Three classes and one error. -/
theorem create_circuit_well_formed_three :
    2 ≤ 3 ∧ ∃ e, Ends (fun fuel => create_circuit fuel 3 1) e ∧ WellFormed 3 1 e :=
  ⟨by decide, create_circuit_well_formed 3 1 (by decide)⟩

end VW.Tournament
