import VowpalWabbit.Explore.SquareCb
import VowpalWabbit.Framework.Fuel
import VowpalWabbit.Framework.Heaps

/-! # Synthetic cover

    `cb_explore_adf_synthcover::predict_or_learn_impl`, over exact rationals. A cover of
    `synthcoversize` policies is handed out one policy at a time, each to the action with the
    least score, whose score then grows by `psi / synthcoversize`. The scores are in a heap
    with the least one on top.

    The counter of the policies is a `uint32_t`, and so is the number of actions. The loops
    take a bound on their rounds; `none` is a run that reaches it, or an access outside of a
    vector.
-/

open Cpp

namespace VW.Explore

open List ActionScore

/-! ## The source -/

/-- `std::greater<VW::action_score>`, with the `operator>` of action scores. -/
def greater_action_score : LinearComparator ActionScore where
  lt left right :=
    if left.score = right.score then decide (left.action > right.action) else decide (left.score > right.score)
  irrefl x := by simp
  trans := by
    intro x y z hxy hyz
    grind
  total := by
    intro x y hxy hyx
    obtain ⟨a, s⟩ := x
    obtain ⟨b, t⟩ := y
    grind

def clamp (num lower_bound upper_bound : ℚ) : ℚ := max lower_bound (min num upper_bound)

/-- `_min_cost` and `_max_cost`. -/
structure CostRange where
  min_cost : ℚ
  max_cost : ℚ
  le : min_cost ≤ max_cost

/-- The range after a logged cost. -/
def CostRange.see (range : CostRange) (cost : ℚ) : CostRange where
  min_cost := min cost range.min_cost
  max_cost := max cost range.max_cost
  le := (min_le_right _ _).trans (range.le.trans (le_max_right _ _))

def CostRange.clamp (range : CostRange) (num : ℚ) : ℚ := Explore.clamp num range.min_cost range.max_cost

/-- `++i`, of a `uint32_t`. -/
def next_policy (i : Nat) : Nat := (i + 1) % 2 ^ 32

/-- What the two loops change. -/
structure Cover where
  i : Nat
  preds : List ActionScore
  action_probs : List ActionScore

/-- The inner loop. -/
def raise (psi : ℚ) (synthcoversize : Nat) (secondminpred : ActionScore) :
    Nat → Nat → ActionScore → List ActionScore → Option (Nat × ActionScore × List ActionScore)
  | 0, _, _, _ => none
  | fuel + 1, i, minpred, action_probs =>
    if secondminpred.score ≥ minpred.score ∧ i < synthcoversize then
      if minpred.action < action_probs.length then
        raise psi synthcoversize secondminpred fuel (next_policy i)
          { minpred with score := minpred.score + 1 / synthcoversize * psi }
          (action_probs.modify minpred.action fun p => { p with score := p.score + 1 / synthcoversize })
      else none
    else some (i, minpred, action_probs)

/-- The outer loop. -/
def cover (heap : HeapAlgorithms greater_action_score.toComparator) (psi : ℚ) (synthcoversize : Nat) :
    Nat → Cover → Option Cover
  | 0, _ => none
  | fuel + 1, s =>
    if s.i < synthcoversize then do
      let preds := heap.pop_heap s.preds
      let minpred ← preds.getLast?
      let preds := preds.dropLast
      let secondminpred ← preds.head?
      let (i, minpred, action_probs) ← raise psi synthcoversize secondminpred fuel s.i minpred s.action_probs
      cover heap psi synthcoversize fuel ⟨i, heap.push_heap (preds ++ [minpred]), action_probs⟩
    else some s

/-- `_action_probs` before the loops. -/
def initial_probs (num_actions : Nat) : List ActionScore := (List.range num_actions).map fun i => ⟨i, 0⟩

/-- The masses of the actions, `_action_probs` after the loops. With a `num_actions` of 0 or 1 the code
    returns before. -/
def cover_masses (heap : HeapAlgorithms greater_action_score.toComparator) (psi : ℚ) (synthcoversize : Nat)
    (range : CostRange) (fuel : Nat) (preds : List ActionScore) : Option (List ActionScore) :=
  let num_actions := preds.length % 2 ^ 32
  if num_actions ≤ 1 then none
  else do
    let preds := preds.mapIdx fun i p => if i < num_actions then { p with score := range.clamp p.score } else p
    let s ← cover heap psi synthcoversize fuel ⟨0, heap.make_heap preds, initial_probs num_actions⟩
    some s.action_probs

/-- `predict_or_learn_impl`, after the base learner has left `preds`. -/
def synthcover (heap : HeapAlgorithms greater_action_score.toComparator) (epsilon psi : ℚ) (synthcoversize : Nat)
    (range : CostRange) (logged : Option ℚ) (fuel : Nat) (preds : List ActionScore) :
    Option (CostRange × List ActionScore) := do
  let range := match logged with
    | some cost => range.see cost
    | none => range
  let num_actions := preds.length % 2 ^ 32
  if num_actions = 0 then some (range, [])
  else if num_actions = 1 then some (range, preds.modify 0 fun p => { p with score := 1 })
  else do
    let action_probs ← cover_masses heap psi synthcoversize range fuel preds
    let action_probs := with_scores action_probs
      (enforce_minimum_probability epsilon true (action_probs.map score)).2
    let action_probs := greater_action_score.sort action_probs
    -- `preds[i] = _action_probs[i]`
    some (range, action_probs ++ preds.drop num_actions)

example : (cover_masses greater_action_score.sorting_heap (1 / 2) 4 ⟨0, 1, by decide +kernel⟩ 10
    [⟨0, 1 / 4⟩, ⟨1, 0⟩, ⟨2, 5⟩]) = some [⟨0, 1 / 4⟩, ⟨1, 3 / 4⟩, ⟨2, 0⟩] := by
  decide +kernel

/-! ## Filling with water

    Every action is a vessel whose bottom is at its cost, and every unit that it has been given
    raises its level by `step`. -/

section

variable {step : ℚ} {costs : List ActionScore} {units : Nat → Nat}

/-- The level of an action that has been given some units. -/
def level (step : ℚ) (units : Nat → Nat) (p : ActionScore) : ActionScore :=
  { p with score := p.score + step * units p.action }

/-- One more unit for the action `a`. -/
def give (units : Nat → Nat) (a : Nat) : Nat → Nat := Function.update units a (units a + 1)

/-- No level is more than one unit above another. -/
def Balanced (step : ℚ) (costs : List ActionScore) (units : Nat → Nat) : Prop :=
  ∀ p ∈ costs, 0 < units p.action → ∀ q ∈ costs, (level step units p).score - step ≤ (level step units q).score

theorem give_same (units : Nat → Nat) (a : Nat) : give units a a = units a + 1 := by
  simp [give]

theorem give_other {a b : Nat} (h : b ≠ a) : give units a b = units b := by
  simp [give, h]

theorem level_give_same (p : ActionScore) :
    level step (give units p.action) p = { p with score := (level step units p).score + step } := by
  simp only [level, give_same]
  congr 1
  push_cast
  ring

theorem level_give_other {p q : ActionScore} (h : q.action ≠ p.action) :
    level step (give units p.action) q = level step units q := by
  simp only [level, give_other h]

/-- Giving lowers no level. -/
theorem level_le_give (hstep : 0 ≤ step) (p q : ActionScore) :
    (level step units q).score ≤ (level step (give units p.action) q).score := by
  by_cases h : q.action = p.action
  · simp only [level, give, h, Function.update_self]
    push_cast
    linarith
  · rw [level_give_other h]

/-- A unit for an action with the least level keeps the balance. -/
theorem Balanced.give (hstep : 0 ≤ step) {p : ActionScore} (h : Balanced step costs units)
    (hdistinct : ∀ q ∈ costs, q.action = p.action → q = p)
    (hleast : ∀ q ∈ costs, (level step units p).score ≤ (level step units q).score) :
    Balanced step costs (give units p.action) := by
  intro q hq hpos r hr
  have hrise := @level_le_give step units hstep p r
  by_cases heq : q.action = p.action
  · obtain rfl := hdistinct q hq heq
    rw [level_give_same]
    have := hleast r hr
    linarith
  · rw [give_other heq] at hpos
    rw [level_give_other heq]
    have := h q hq hpos r hr
    linarith

end

/-! ## The loops -/

section

variable {psi : ℚ} {synthcoversize : Nat}

/-- The masses that go with some units. -/
def masses (synthcoversize num_actions : Nat) (units : Nat → Nat) : List ActionScore :=
  (List.range num_actions).map fun a => ⟨a, units a * (1 / synthcoversize)⟩

theorem masses_zero (num_actions : Nat) : masses synthcoversize num_actions (fun _ => 0) =
    initial_probs num_actions := by
  simp [masses, initial_probs]

theorem length_masses (num_actions : Nat) (units : Nat → Nat) :
    (masses synthcoversize num_actions units).length = num_actions := by
  simp [masses]

/-- The inner loop adds to the mass of one action. -/
theorem modify_masses (num_actions : Nat) (units : Nat → Nat) (a : Nat) :
    (masses synthcoversize num_actions units).modify a (fun p => { p with score := p.score + 1 / synthcoversize }) =
      masses synthcoversize num_actions (give units a) := by
  apply ext_getElem?
  intro i
  simp only [masses, getElem?_modify, getElem?_map]
  by_cases hi : i < num_actions
  · rw [getElem?_range hi]
    by_cases ha : a = i
    · subst ha
      simp only [give_same, Option.map_some, if_true, Option.map_eq_map, Option.some.injEq, mk.injEq,
        true_and]
      push_cast
      ring
    · simp [ha, give_other (Ne.symm ha)]
  · rw [getElem?_eq_none (by simpa using hi)]
    simp

/-- One unit more is given in all. -/
theorem sum_give {num_actions a : Nat} (units : Nat → Nat) (h : a < num_actions) :
    ((List.range num_actions).map (give units a)).sum = ((List.range num_actions).map units).sum + 1 := by
  induction num_actions with
  | zero => exact absurd h (Nat.not_lt_zero a)
  | succ k ih =>
    rw [range_succ, map_append, map_append, sum_append, sum_append]
    by_cases hlt : a < k
    · have hne : k ≠ a := Nat.ne_of_gt hlt
      rw [ih hlt]
      simp only [map_cons, map_nil, give_other hne]
      omega
    · obtain rfl : a = k := by omega
      have hrest : (List.range a).map (give units a) = (List.range a).map units :=
        map_congr_left fun b hb => give_other (Nat.ne_of_lt (mem_range.mp hb))
      simp only [hrest, map_cons, map_nil, give_same, sum_singleton]
      omega

variable {num_actions : Nat} {costs : List ActionScore}

/-- After `i` policies: what has been given, and its masses. -/
structure Handed (psi : ℚ) (synthcoversize num_actions : Nat) (costs : List ActionScore) (units : Nat → Nat)
    (i : Nat) (action_probs : List ActionScore) : Prop where
  probs : action_probs = masses synthcoversize num_actions units
  sum : ((List.range num_actions).map units).sum = i
  le : i ≤ synthcoversize
  balanced : Balanced (1 / synthcoversize * psi) costs units

/-- The costs are one for each action. -/
structure OneEach (num_actions : Nat) (costs : List ActionScore) : Prop where
  actions : (costs.map action).Perm (List.range num_actions)

variable {p secondminpred : ActionScore} {s' : Cover} {range : CostRange} {preds : List ActionScore}

theorem OneEach.lt (h : OneEach num_actions costs) (hp : p ∈ costs) : p.action < num_actions :=
  mem_range.mp (h.actions.subset (mem_map_of_mem hp))

theorem OneEach.distinct (h : OneEach num_actions costs) {q : ActionScore} (hp : p ∈ costs) (hq : q ∈ costs)
    (heq : q.action = p.action) : q = p :=
  inj_on_of_nodup_map (h.actions.nodup_iff.mpr nodup_range) hq hp heq

theorem next_policy_eq {i : Nat} (hi : i < synthcoversize) (hsize : synthcoversize < 2 ^ 32) :
    next_policy i = i + 1 := Nat.mod_eq_of_lt (by omega)

variable {units : Nat → Nat}

/-- The inner loop gives units to one action while its level is the least. -/
theorem raise_spec (hpsi : 0 ≤ psi) (hsize : synthcoversize < 2 ^ 32)
    (hone : OneEach num_actions costs) (hp : p ∈ costs) (hsecond : ∀ q ∈ costs, q ≠ p →
      secondminpred.score ≤ (level (1 / synthcoversize * psi) units q).score) :
    ∀ (fuel i : Nat) (given : Nat → Nat) (action_probs : List ActionScore), (∀ a ≠ p.action, given a = units a) →
      Handed psi synthcoversize num_actions costs given i action_probs → synthcoversize - i < fuel →
      ∃ given' i' action_probs', raise psi synthcoversize secondminpred fuel i
          (level (1 / synthcoversize * psi) given p) action_probs =
          some (i', level (1 / synthcoversize * psi) given' p, action_probs') ∧
        (∀ a ≠ p.action, given' a = units a) ∧
        Handed psi synthcoversize num_actions costs given' i' action_probs' ∧ i ≤ i' ∧
        (i < synthcoversize → (level (1 / synthcoversize * psi) given p).score ≤ secondminpred.score → i < i') := by
  have hstep : 0 ≤ 1 / (synthcoversize : ℚ) * psi := mul_nonneg (by positivity) hpsi
  intro fuel
  induction fuel with
  | zero => exact fun _ _ _ _ _ hfuel => absurd hfuel (Nat.not_lt_zero _)
  | succ fuel ih =>
    intro i given action_probs hothers hgiven hfuel
    unfold raise
    by_cases hcond : secondminpred.score ≥ (level (1 / synthcoversize * psi) given p).score ∧ i < synthcoversize
    · have haction : (level (1 / synthcoversize * psi) given p).action = p.action := rfl
      have hlt : p.action < action_probs.length := by
        rw [hgiven.probs, length_masses]
        exact hone.lt hp
      -- the level of `p` is the least of all
      have hleast : ∀ q ∈ costs, (level (1 / synthcoversize * psi) given p).score ≤
          (level (1 / synthcoversize * psi) given q).score := by
        intro q hq
        by_cases hqp : q = p
        · rw [hqp]
        · have hne : q.action ≠ p.action := fun h => hqp (hone.distinct hp hq h)
          have hle := hsecond q hq hqp
          simp only [level, hothers _ hne] at hle ⊢
          exact hcond.1.trans hle
      have hgiven' : Handed psi synthcoversize num_actions costs (give given p.action) (i + 1)
          (action_probs.modify p.action fun p => { p with score := p.score + 1 / synthcoversize }) := by
        constructor
        case probs => rw [hgiven.probs, modify_masses]
        case sum => rw [sum_give given (hone.lt hp), hgiven.sum]
        case le => exact hcond.2
        case balanced =>
          exact hgiven.balanced.give hstep (fun q hq h => hone.distinct hp hq h) hleast
      have hothers' : ∀ a ≠ p.action, give given p.action a = units a := by
        intro a ha
        rw [give_other ha, hothers a ha]
      obtain ⟨given', i', action_probs', hrun, hrest, hhanded, hi', -⟩ :=
        ih (i + 1) (give given p.action) _ hothers' hgiven' (by omega)
      refine ⟨given', i', action_probs', ?_, hrest, hhanded, by omega, by omega⟩
      rw [if_pos hcond, haction, if_pos hlt, next_policy_eq hcond.2 hsize, ← level_give_same]
      exact hrun
    · refine ⟨given, i, action_probs, if_neg hcond, hothers, hgiven, Nat.le_refl i, ?_⟩
      intro hi hle
      exact absurd ⟨hle, hi⟩ hcond

variable {heap : HeapAlgorithms greater_action_score.toComparator}

/-- Between the rounds of the outer loop the heap has the levels. -/
structure Filling (psi : ℚ) (synthcoversize num_actions : Nat) (costs : List ActionScore) (units : Nat → Nat)
    (s : Cover) : Prop where
  handed : Handed psi synthcoversize num_actions costs units s.i s.action_probs
  heap : IsHeap greater_action_score.toComparator s.preds
  preds : s.preds.Perm (costs.map (level (1 / synthcoversize * psi) units))

/-- What is not greater has a score that is not greater. -/
theorem score_le_of_not_greater {x y : ActionScore} (h : greater_action_score.lt x y = false) :
    x.score ≤ y.score := by
  simp only [greater_action_score] at h
  split at h
  case isTrue heq => exact heq.le
  case isFalse =>
    rw [decide_eq_false_iff_not] at h
    exact not_lt.mp h

/-- A round takes the least level from the heap, and leaves the heap of the others. -/
theorem Filling.pop {s : Cover} {units : Nat → Nat} (h : Filling psi synthcoversize num_actions costs units s)
    (hone : OneEach num_actions costs) (htwo : 2 ≤ costs.length) :
    ∃ p ∈ costs, ∃ second rest, heap.pop_heap s.preds = second :: rest ++
      [level (1 / synthcoversize * psi) units p] ∧
      IsHeap greater_action_score.toComparator (second :: rest) ∧
      (second :: rest).Perm ((costs.erase p).map (level (1 / synthcoversize * psi) units)) ∧
      (level (1 / synthcoversize * psi) units p).score ≤ second.score ∧
      ∀ q ∈ costs, q ≠ p → second.score ≤ (level (1 / synthcoversize * psi) units q).score := by
  have hnodup : costs.Nodup := (hone.actions.nodup_iff.mpr nodup_range).of_map _
  obtain ⟨top, tail, htop⟩ : ∃ top tail, s.preds = top :: tail := by
    apply exists_cons_of_ne_nil
    rintro hnil
    have hlength := h.preds.length_eq
    rw [hnil, length_map, length_nil] at hlength
    omega
  have hheap := h.heap
  have hperm := h.preds
  rw [htop] at hheap hperm
  obtain ⟨rest, hpop, hrest, hrestperm⟩ := heap.pop hheap
  -- the top is the level of an action
  obtain ⟨p, hp, rfl⟩ : ∃ p ∈ costs, level (1 / synthcoversize * psi) units p = top :=
    mem_map.mp (hperm.subset mem_cons_self)
  have herase : tail.Perm ((costs.erase p).map (level (1 / synthcoversize * psi) units)) := by
    refine List.Perm.cons_inv (a := level (1 / synthcoversize * psi) units p) (hperm.trans ?_)
    exact (perm_cons_erase hp).map _
  have hothers : rest.Perm ((costs.erase p).map (level (1 / synthcoversize * psi) units)) := hrestperm.trans herase
  obtain ⟨second, others, rfl⟩ : ∃ second others, rest = second :: others := by
    apply exists_cons_of_ne_nil
    rintro rfl
    have hlength := hothers.length_eq
    rw [length_map, length_erase_of_mem hp, length_nil] at hlength
    omega
  refine ⟨p, hp, second, others, by rw [htop, hpop], hrest, hothers, ?_, ?_⟩
  · have hmem : second ∈ level (1 / synthcoversize * psi) units p :: tail :=
      mem_cons_of_mem _ (hrestperm.subset mem_cons_self)
    exact score_le_of_not_greater (hheap.first _ hmem)
  · intro q hq hne
    have hmem : q ∈ costs.erase p := (hnodup.mem_erase_iff).mpr ⟨hne, hq⟩
    exact score_le_of_not_greater (hrest.first _ (hothers.symm.subset (mem_map_of_mem hmem)))

/-- The outer loop hands out the whole cover. -/
theorem cover_spec (hpsi : 0 ≤ psi) (hsize : synthcoversize < 2 ^ 32) (hone : OneEach num_actions costs)
    (htwo : 2 ≤ costs.length) : ∀ (fuel : Nat) (s : Cover) (units : Nat → Nat),
      Filling psi synthcoversize num_actions costs units s → synthcoversize - s.i + 1 < fuel →
      ∃ s' units', cover heap psi synthcoversize fuel s = some s' ∧ s'.i = synthcoversize ∧
        Filling psi synthcoversize num_actions costs units' s' := by
  intro fuel
  induction fuel with
  | zero => exact fun _ _ _ hfuel => absurd hfuel (Nat.not_lt_zero _)
  | succ fuel ih =>
    intro s units h hfuel
    unfold cover
    by_cases hi : s.i < synthcoversize
    · obtain ⟨p, hp, second, rest, hpop, hheap, hperm, hle, hsecond⟩ := @Filling.pop _ _ _ _ heap _ _ h hone htwo
      obtain ⟨given, i, action_probs, hrun, hothers, hhanded, -, hgrows⟩ :=
        raise_spec hpsi hsize hone hp hsecond fuel s.i units s.action_probs (fun _ _ => rfl) h.handed (by omega)
      have hgrew : s.i < i := hgrows hi hle
      have hnodup : costs.Nodup := (hone.actions.nodup_iff.mpr nodup_range).of_map _
      have hpushed := heap.push (level (1 / synthcoversize * psi) given p) hheap
      -- the other actions have what they had
      have hsame : (costs.erase p).map (level (1 / synthcoversize * psi) units) =
          (costs.erase p).map (level (1 / synthcoversize * psi) given) := by
        refine map_congr_left fun q hq => ?_
        obtain ⟨hne, hq⟩ := hnodup.mem_erase_iff.mp hq
        simp only [level, hothers q.action fun h => hne (hone.distinct hp hq h)]
      have hfilling : Filling psi synthcoversize num_actions costs given
          ⟨i, heap.push_heap (second :: rest ++ [level (1 / synthcoversize * psi) given p]), action_probs⟩ := by
        refine ⟨hhanded, hpushed.1, hpushed.2.trans ?_⟩
        refine (perm_append_comm.trans ?_).trans ((perm_cons_erase hp).map _).symm
        rw [map_cons, ← hsame]
        exact hperm.cons _
      obtain ⟨s', units', hcover, hend, hfilled⟩ := ih _ given hfilling (by
        show synthcoversize - i + 1 < fuel
        omega)
      refine ⟨s', units', ?_, hend, hfilled⟩
      simp only [if_pos hi, hpop, getLast?_concat, dropLast_concat, head?_cons, Option.bind_eq_bind,
        Option.bind_some, hrun]
      exact hcover
    · exact ⟨s, units, if_neg hi, Nat.le_antisymm h.handed.le (Nat.le_of_not_lt hi), h⟩

/-! ## More rounds than needed -/

theorem raise_succ {out : Nat × ActionScore × List ActionScore} :
    ∀ (fuel i : Nat) (minpred : ActionScore) (action_probs : List ActionScore),
      raise psi synthcoversize secondminpred fuel i minpred action_probs = some out →
      raise psi synthcoversize secondminpred (fuel + 1) i minpred action_probs = some out := by
  intro fuel
  induction fuel with
  | zero =>
    intro i minpred action_probs h
    cases h
  | succ fuel ih =>
    intro i minpred action_probs h
    unfold raise at h ⊢
    split at h
    · rename_i hcond
      rw [if_pos hcond]
      split at h
      · rename_i hlt
        rw [if_pos hlt]
        exact ih _ _ _ h
      · cases h
    · rename_i hcond
      rw [if_neg hcond]
      exact h

theorem cover_succ (fuel : Nat) (s : Cover) (h : cover heap psi synthcoversize fuel s = some s') :
    cover heap psi synthcoversize (fuel + 1) s = some s' := by
  induction fuel generalizing s with
  | zero => cases h
  | succ fuel ih =>
    unfold cover at h ⊢
    split at h
    · rename_i hi
      rw [if_pos hi]
      simp only [Option.bind_eq_bind, Option.bind_eq_some_iff] at h ⊢
      obtain ⟨minpred, hminpred, second, hsecond, out, hrun, hcover⟩ := h
      exact ⟨minpred, hminpred, second, hsecond, out, raise_succ _ _ _ _ hrun, ih _ hcover⟩
    · rename_i hi
      rw [if_neg hi]
      exact h

/-- The result does not depend on the bound of the rounds. -/
theorem cover_mono {s : Cover} {fuel fuel' : Nat} (h : cover heap psi synthcoversize fuel s = some s')
    (hle : fuel ≤ fuel') : cover heap psi synthcoversize fuel' s = some s' := by
  induction hle with
  | refl => exact h
  | step _ ih => exact cover_succ _ _ ih

/-! ## Covers that are too large -/

/-- The inner loop keeps the number of masses, and the counter below the bound of its type. -/
theorem raise_keeps : ∀ (fuel i : Nat) (minpred : ActionScore)
    (action_probs : List ActionScore) (out : Nat × ActionScore × List ActionScore), i < 2 ^ 32 →
      raise psi synthcoversize secondminpred fuel i minpred action_probs = some out →
      out.1 < 2 ^ 32 ∧ out.2.2.length = action_probs.length := by
  intro fuel
  induction fuel with
  | zero =>
    intro i minpred action_probs out _ hrun
    cases hrun
  | succ fuel ih =>
    intro i minpred action_probs out hi hrun
    unfold raise at hrun
    split at hrun
    · split at hrun
      · have hnext : next_policy i < 2 ^ 32 := Nat.mod_lt _ (by decide)
        obtain ⟨hout, hlength⟩ := ih _ _ _ out hnext hrun
        rw [length_modify] at hlength
        exact ⟨hout, hlength⟩
      · cases hrun
    · cases hrun
      exact ⟨hi, rfl⟩

/-- A round of the outer loop, where it goes on. -/
theorem cover_round {fuel : Nat} {s : Cover} (h : cover heap psi synthcoversize (fuel + 1) s = some s') :
    (¬ s.i < synthcoversize ∧ s' = s) ∨ ∃ secondminpred minpred out preds,
      raise psi synthcoversize secondminpred fuel s.i minpred s.action_probs = some out ∧
      cover heap psi synthcoversize fuel ⟨out.1, preds, out.2.2⟩ = some s' := by
  unfold cover at h
  split at h
  · simp only [Option.bind_eq_bind, Option.bind_eq_some_iff] at h
    obtain ⟨minpred, -, secondminpred, -, out, hrun, hcover⟩ := h
    exact .inr ⟨secondminpred, minpred, out, _, hrun, hcover⟩
  · rename_i hi
    rw [Option.some.injEq] at h
    exact .inl ⟨hi, h.symm⟩

theorem cover_length (fuel : Nat) (s s' : Cover) (hi : s.i < 2 ^ 32)
    (h : cover heap psi synthcoversize fuel s = some s') : s'.action_probs.length = s.action_probs.length := by
  induction fuel generalizing s with
  | zero => cases h
  | succ fuel ih =>
    rcases cover_round h with ⟨-, rfl⟩ | ⟨_, _, out, _, hrun, hcover⟩
    · rfl
    · obtain ⟨hout, hlength⟩ := raise_keeps fuel _ _ _ out hi hrun
      rw [ih _ hout hcover, ← hlength]

/-- The counter cannot reach a size from 2^32 on. -/
theorem cover_none (hsize : 2 ^ 32 ≤ synthcoversize) (fuel : Nat) (s : Cover) (hi : s.i < 2 ^ 32) :
    cover heap psi synthcoversize fuel s = none := by
  cases h : cover heap psi synthcoversize fuel s with
  | none => rfl
  | some s' =>
    exfalso
    induction fuel generalizing s with
    | zero => cases h
    | succ fuel ih =>
      rcases cover_round h with ⟨hend, -⟩ | ⟨_, _, out, _, hrun, hcover⟩
      · omega
      · exact ih _ (raise_keeps fuel _ _ _ out hi hrun).1 hcover

/-! ## What the masses are -/

def mass_of (masses : List ActionScore) (action : Nat) : ℚ := (masses.map score).getD action 0

/-- The masses are those of a cover that has been handed out greedily. -/
structure WaterFilled (psi : ℚ) (synthcoversize : Nat) (range : CostRange)
    (preds masses : List ActionScore) : Prop where
  actions : masses.map action = List.range preds.length
  units : ∀ m ∈ masses, ∃ k : Nat, m.score = k * (1 / synthcoversize)
  sum : (masses.map score).sum = 1
  greedy : ∀ p ∈ preds, 0 < mass_of masses p.action → ∀ q ∈ preds,
    range.clamp p.score + psi * (mass_of masses p.action - 1 / synthcoversize) ≤
      range.clamp q.score + psi * mass_of masses q.action
  cheaper : ∀ p ∈ preds, ∀ q ∈ preds, range.clamp p.score < range.clamp q.score ∨ (0 < psi ∧ p.score < q.score) →
    mass_of masses q.action ≤ mass_of masses p.action + 1 / synthcoversize

/-- The loops end, with such masses. -/
def WaterFills (heap : HeapAlgorithms greater_action_score.toComparator) (psi : ℚ) (synthcoversize : Nat)
    (range : CostRange) (preds : List ActionScore) : Prop :=
  ∃ bound masses, (∀ fuel, bound ≤ fuel → cover_masses heap psi synthcoversize range fuel preds = some masses) ∧
    WaterFilled psi synthcoversize range preds masses

theorem CostRange.clamp_mono (range : CostRange) {x y : ℚ} (h : x ≤ y) : range.clamp x ≤ range.clamp y :=
  max_le_max_left _ (min_le_min_right _ h)

theorem mass_of_masses {a : Nat} (h : a < num_actions) :
    mass_of (masses synthcoversize num_actions units) a = units a * (1 / synthcoversize) := by
  simp [mass_of, masses, h]

/-- The masses of all actions are the units of all actions. -/
theorem sum_masses (units : Nat → Nat) : ((masses synthcoversize num_actions units).map score).sum =
    ((List.range num_actions).map units).sum * (1 / (synthcoversize : ℚ)) := by
  unfold masses
  rw [map_map]
  induction num_actions with
  | zero => simp
  | succ k ih =>
    rw [range_succ, map_append, map_append, sum_append, sum_append, ih]
    push_cast
    simp
    ring

/-- The scores that the loops start from. -/
def clamped (range : CostRange) (preds : List ActionScore) : List ActionScore :=
  preds.map fun p => { p with score := range.clamp p.score }

theorem clamped_oneEach (h : OneEach num_actions preds) :
    OneEach num_actions (clamped range preds) := by
  constructor
  have hactions : (clamped range preds).map action = preds.map action := by
    simp [clamped]
  rw [hactions]
  exact h.actions

/-- Levels that are balanced are levels of a greedy cover. -/
theorem waterFilled_of_handed {action_probs : List ActionScore} (hpsi : 0 ≤ psi)
    (hpos : 0 < synthcoversize) (hone : OneEach preds.length preds)
    (h : Handed psi synthcoversize preds.length (clamped range preds) units synthcoversize action_probs) :
    WaterFilled psi synthcoversize range preds action_probs := by
  have hunit : (0 : ℚ) < 1 / synthcoversize := by positivity
  have hmass : ∀ p ∈ preds, mass_of action_probs p.action = units p.action * (1 / synthcoversize) := by
    intro p hp
    rw [h.probs, mass_of_masses (hone.lt hp)]
  have hgreedy : ∀ p ∈ preds, 0 < mass_of action_probs p.action → ∀ q ∈ preds,
      range.clamp p.score + psi * (mass_of action_probs p.action - 1 / synthcoversize) ≤
        range.clamp q.score + psi * mass_of action_probs q.action := by
    intro p hp hgiven q hq
    rw [hmass p hp] at hgiven
    have hunits : 0 < units p.action := by
      by_contra hzero
      rw [Nat.eq_zero_of_not_pos hzero, Nat.cast_zero, zero_mul] at hgiven
      exact lt_irrefl _ hgiven
    have hlevel := h.balanced _ (mem_map_of_mem hp) hunits _ (mem_map_of_mem hq)
    rw [hmass p hp, hmass q hq]
    dsimp only [level] at hlevel
    linarith
  constructor
  case actions =>
    rw [h.probs]
    simp [masses, Function.comp_def]
  case units =>
    intro m hm
    rw [h.probs] at hm
    obtain ⟨a, -, rfl⟩ := mem_map.mp hm
    exact ⟨units a, rfl⟩
  case sum =>
    have hne : (synthcoversize : ℚ) ≠ 0 := Nat.cast_ne_zero.mpr (Nat.ne_of_gt hpos)
    rw [h.probs, sum_masses, h.sum, mul_one_div_cancel hne]
  case greedy => exact hgreedy
  case cheaper =>
    intro p hp q hq hcheaper
    by_contra hmore
    rw [not_le] at hmore
    have hnonneg : 0 ≤ mass_of action_probs p.action := by
      rw [hmass p hp]
      positivity
    have hle := hgreedy q hq (by linarith) p hp
    rcases hcheaper with hlt | ⟨hpsi', hlt⟩
    · have := mul_le_mul_of_nonneg_left hmore.le hpsi
      linarith
    · have := mul_lt_mul_of_pos_left hmore hpsi'
      have := range.clamp_mono hlt.le
      linarith

/-- The loops of a cover whose size is a `uint32_t`. -/
theorem waterFills_of_lt (heap : HeapAlgorithms greater_action_score.toComparator) (hpsi : 0 ≤ psi)
    (hpos : 0 < synthcoversize) (htwo : 2 ≤ preds.length)
    (hone : OneEach preds.length preds) (hsize : synthcoversize < 2 ^ 32) (hactions : preds.length < 2 ^ 32) :
    WaterFills heap psi synthcoversize range preds := by
  have hcount : preds.length % 2 ^ 32 = preds.length := Nat.mod_eq_of_lt hactions
  have hclamped : (preds.mapIdx fun i p => if i < preds.length then { p with score := range.clamp p.score } else p) =
      clamped range preds := by
    apply ext_getElem (by simp [clamped])
    intro i hi hi'
    rw [length_mapIdx] at hi
    simp [clamped, hi]
  have hmade := heap.make (clamped range preds)
  have hzero : level (1 / synthcoversize * psi) (fun _ => 0) = id := by
    funext p
    simp [level]
  have hstart : Filling psi synthcoversize preds.length (clamped range preds) (fun _ => 0)
      ⟨0, heap.make_heap (clamped range preds), initial_probs preds.length⟩ := by
    refine ⟨⟨(masses_zero _).symm, by simp, Nat.zero_le _, ?_⟩, hmade.1, ?_⟩
    · exact fun _ _ h => absurd h (Nat.lt_irrefl 0)
    · rw [hzero, map_id]
      exact hmade.2
  have hlength : 2 ≤ (clamped range preds).length := by
    simpa [clamped] using htwo
  obtain ⟨s', units, hcover, hend, hfilled⟩ := @cover_spec psi synthcoversize _ _ heap hpsi hsize
    (clamped_oneEach hone) hlength (synthcoversize + 2) _ _ hstart (Nat.lt_succ_self _)
  have hhanded := hfilled.handed
  rw [hend] at hhanded
  refine ⟨synthcoversize + 2, s'.action_probs, ?_, waterFilled_of_handed hpsi hpos hone hhanded⟩
  intro fuel hfuel
  unfold cover_masses
  simp only [hcount]
  rw [if_neg (by omega), hclamped, cover_mono hcover hfuel]
  rfl

theorem lt_of_waterFills (h : WaterFills heap psi synthcoversize range preds) :
    synthcoversize < 2 ^ 32 ∧ preds.length < 2 ^ 32 := by
  obtain ⟨bound, masses, hrun, hfilled⟩ := h
  have hend := hrun bound (Nat.le_refl bound)
  unfold cover_masses at hend
  simp only at hend
  split at hend
  · cases hend
  · simp only [Option.bind_eq_bind, Option.bind_eq_some_iff, Option.some.injEq] at hend
    obtain ⟨s', hcover, rfl⟩ := hend
    refine ⟨?_, ?_⟩
    · by_contra hsize
      rw [cover_none (Nat.le_of_not_lt hsize) bound _ (Nat.two_pow_pos 32)] at hcover
      cases hcover
    · -- there are as many masses as the cast leaves actions
      have hlength := cover_length bound _ _ (Nat.two_pow_pos 32) hcover
      have hactions := congrArg List.length hfilled.actions
      rw [length_map, length_range, hlength] at hactions
      simp only [initial_probs, length_map, length_range] at hactions
      omega

/-- For two or more actions the cover is handed out greedily exactly when its size and the number of
    actions are a `uint32_t`, as the counters of the loops are. -/
theorem waterFills_iff (heap : HeapAlgorithms greater_action_score.toComparator) (psi : ℚ) (synthcoversize : Nat)
    (range : CostRange) (preds : List ActionScore) (hpsi : 0 ≤ psi) (hpos : 1 ≤ synthcoversize)
    (htwo : 2 ≤ preds.length) (hone : OneEach preds.length preds) :
    WaterFills heap psi synthcoversize range preds ↔ synthcoversize < 2 ^ 32 ∧ preds.length < 2 ^ 32 := by
  constructor
  · exact lt_of_waterFills
  · intro ⟨hsize, hactions⟩
    exact waterFills_of_lt heap hpsi hpos htwo hone hsize hactions

def two_costs : List ActionScore := [⟨0, 1 / 4⟩, ⟨1, 0⟩]

/-- Two actions, a cover of a hundred. -/
theorem waterFills_iff_two :
    WaterFills greater_action_score.sorting_heap (1 / 2) 100 ⟨0, 1, zero_le_one⟩ two_costs ↔
      100 < 2 ^ 32 ∧ two_costs.length < 2 ^ 32 :=
  waterFills_iff _ _ _ _ _ (by norm_num) (by decide) (by decide) ⟨.refl _⟩

/-- The loops over a cover of 2^32 policies do not end. -/
theorem not_waterFills_two : 2 ≤ two_costs.length ∧ OneEach two_costs.length two_costs ∧
    ¬ WaterFills greater_action_score.sorting_heap (1 / 2) (2 ^ 32) ⟨0, 1, zero_le_one⟩ two_costs := by
  refine ⟨by decide, ⟨.refl _⟩, ?_⟩
  intro h
  exact Nat.lt_irrefl _ (lt_of_waterFills h).1

end

/-! ## The prediction -/

variable {psi epsilon : ℚ} {synthcoversize : Nat} {range : CostRange} {preds : List ActionScore} {pmf : List ℚ}

/-- A distribution stays one, above the minimum unless the `epsilon` is rejected. -/
theorem enforce_floor {out : List ℚ} (hout : (enforce_minimum_probability epsilon true pmf).2 = out)
    (hpos : 0 ≤ epsilon)
    (hnonneg : ∀ p ∈ pmf, 0 ≤ p) (hsum : pmf.sum = 1) :
    out.length = pmf.length ∧ out.sum = 1 ∧ ∀ q ∈ out, 0 ≤ q ∧ (epsilon ≤ 1 → epsilon / pmf.length ≤ q) := by
  rcases le_or_gt epsilon 1 with hle | hgt
  · obtain ⟨hlength, hnonneg', hone⟩ := enforce_distribution hpos hle hnonneg hsum
    rw [hout] at hlength hnonneg' hone
    refine ⟨hlength, hone, fun q hq => ⟨hnonneg' q hq, fun _ => ?_⟩⟩
    unfold enforce_minimum_probability at hout
    dsimp only at hout
    split at hout
    · next hempty => rw [isEmpty_iff.mp hempty] at hsum; cases hsum
    split at hout
    · next hzero => rw [hzero, zero_div]; exact hnonneg' q hq
    rw [if_neg (by rintro (h | h) <;> linarith)] at hout
    split at hout <;> rw [← hout] at hq <;> obtain ⟨p, -, rfl⟩ := mem_map.mp hq
    · exact div_le_div_of_nonneg_right hle (Nat.cast_nonneg _)
    · exact le_max_right _ _
  · unfold enforce_minimum_probability at hout
    rw [if_neg (show ¬epsilon = 0 by linarith), if_pos (show epsilon < 0 ∨ epsilon > 1 from .inr hgt)] at hout
    have hsame : pmf = out := by split at hout <;> exact hout
    rw [← hsame]
    exact ⟨rfl, hsum, fun q hq => ⟨hnonneg q hq, fun hle => absurd hgt hle.not_gt⟩⟩

/-- What is predicted: a distribution over all actions, in descending order and above the minimum. -/
structure SynthCovered (epsilon : ℚ) (num_actions : Nat) (out : List ActionScore) : Prop where
  actions : OneEach num_actions out
  sum : (out.map score).sum = 1
  floor : ∀ p ∈ out, 0 ≤ p.score ∧ (epsilon ≤ 1 → epsilon / num_actions ≤ p.score)
  descending : out.Pairwise fun p q => q.score ≤ p.score

theorem synthcover_covers (heap : HeapAlgorithms greater_action_score.toComparator) (logged : Option ℚ)
    (hepsilon : 0 ≤ epsilon) (hpsi : 0 ≤ psi) (hpos : 0 < synthcoversize) (hsize : synthcoversize < 2 ^ 32)
    (hne : preds ≠ []) (hfits : preds.length < 2 ^ 32) (hone : OneEach preds.length preds) :
    Settles (fun fuel => synthcover heap epsilon psi synthcoversize range logged fuel preds)
      fun out => SynthCovered epsilon preds.length out.2 := by
  have hlogged : ∀ fuel, synthcover heap epsilon psi synthcoversize range logged fuel preds =
      synthcover heap epsilon psi synthcoversize (logged.elim range range.see) none fuel preds := by
    intro fuel
    cases logged <;> rfl
  refine Settles.congr ?_ hlogged
  generalize logged.elim range range.see = range
  unfold synthcover
  simp only [Nat.mod_eq_of_lt hfits, if_neg (mt length_eq_zero_iff.mp hne), drop_length, append_nil]
  by_cases hsingle : preds.length = 1
  · simp only [if_pos hsingle]
    obtain ⟨p, rfl⟩ := length_eq_one_iff.mp hsingle
    refine .of_some ⟨⟨hone.actions⟩, by simp, fun q hq => ?_, pairwise_singleton _ _⟩
    rw [mem_singleton.mp hq]
    exact ⟨zero_le_one, fun hle => by simpa using hle⟩
  simp only [if_neg hsingle]
  have htwo : 2 ≤ preds.length := by
    have := length_pos_iff.mpr hne
    omega
  obtain ⟨bound, masses, hrun, hfilled⟩ := waterFills_of_lt heap hpsi hpos htwo hone hsize hfits
  refine Settles.bind (P := (· = masses)) ⟨masses, rfl, bound, hrun⟩ fun action_probs heq => .of_some ?_
  subst heq
  have hnonneg : ∀ q ∈ action_probs.map score, 0 ≤ q := by
    intro q hq
    obtain ⟨m, hm, rfl⟩ := mem_map.mp hq
    obtain ⟨k, hk⟩ := hfilled.units m hm
    rw [hk]
    positivity
  have hlength : action_probs.length = preds.length := by
    have := congrArg length hfilled.actions
    rwa [length_map, length_range] at this
  generalize hout : (enforce_minimum_probability epsilon true (action_probs.map score)).2 = out
  obtain ⟨hsame, hsum, hfloor⟩ := enforce_floor hout hepsilon hnonneg hfilled.sum
  rw [length_map] at hsame
  have hscores := with_scores_score hsame
  have hsorted := greater_action_score.perm_sort (with_scores action_probs out)
  refine ⟨⟨(hsorted.map _).trans ?_⟩,
    (hsorted.map _).sum_eq.trans ((congrArg sum hscores).trans hsum), fun p hp => ?_,
    (greater_action_score.ordered_stable_sort id _).imp score_le_of_not_greater⟩
  · rw [with_scores_action hsame, hfilled.actions]
  · have hmem := mem_map_of_mem (f := score) (hsorted.subset hp)
    rw [hscores] at hmem
    have h := hfloor _ hmem
    rwa [length_map, hlength] at h

/-- Two actions, a cover of a hundred. -/
theorem synthcover_covers_two :
    Settles (fun fuel => synthcover greater_action_score.sorting_heap (1 / 10) (1 / 2) 100
    ⟨0, 1, zero_le_one⟩ none fuel two_costs) fun out => SynthCovered (1 / 10) 2 out.2 :=
  synthcover_covers _ _ (by norm_num) (by norm_num) (by decide) (by decide) (cons_ne_nil _ _) (by decide) ⟨.refl _⟩

end VW.Explore
