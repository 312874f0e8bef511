import VowpalWabbit.Explore.SquareCb

/-! # RegCB, and what the explorations predict

    `cb_explore_adf_regcb::predict_impl`, over exact rationals. The optimistic variant plays the
    actions with the least lower bound, the other one plays the survivors uniformly.

    The last part is about the variants of SquareCB and RegCB together: which of them predict a
    distribution over the actions.
-/

open Cpp

namespace VW.Explore

open List ActionScore

/-! ## The source -/

/-- The loop over the lower bounds: the least one, and the first action that has it. -/
def CostRanges.find_opt (ranges : CostRanges) (num_actions : Nat) : ℚ × Nat :=
  (range num_actions).foldl (fun s a =>
    if ranges.min_costs a < s.1 then (ranges.min_costs a, a) else s) (FLT_MAX, 0)

/-- The part of `predict_impl` for `--regcbopt`. -/
def regcb_opt (first_only : Bool) (ranges : CostRanges) (preds : List ActionScore) : List ActionScore :=
  let (min_cost, a_opt) := ranges.find_opt preds.length
  preds.map fun p =>
    { p with score :=
        if p.action = a_opt ∨ (first_only = false ∧ ranges.min_costs p.action = min_cost) then 1 else 0 }

/-- A round of the loop of the elimination variant. The scores from `i + 1` on are still those of
    the base learner when the minimum is enforced. -/
def regcb_round (surviving : ActionScore → Bool) (preds : List ActionScore) (i : Nat) : List ActionScore :=
  let preds := preds.modify i fun p => { p with score := if surviving p then 1 else 0 }
  with_scores preds (enforce_minimum_probability 1 false (preds.map score)).2

/-- The part of `predict_impl` without `--regcbopt`. -/
def regcb_elim (ranges : CostRanges) (preds : List ActionScore) : List ActionScore :=
  let min_max_cost := ranges.min_max_cost preds.length
  let surviving := fun p : ActionScore => decide (ranges.min_costs p.action ≤ min_max_cost)
  (range preds.length).foldl (regcb_round surviving) preds

/-! ## The optimistic variant -/

variable {surviving : ActionScore → Bool} {preds : List ActionScore} {ranges : CostRanges}

/-- An action whose lower bound is the least one. -/
def CostRanges.Optimistic (ranges : CostRanges) (num_actions a : Nat) : Prop :=
  ∀ b < num_actions, ranges.min_costs a ≤ ranges.min_costs b

/-- The first of these. -/
def CostRanges.FirstOptimistic (ranges : CostRanges) (num_actions a : Nat) : Prop :=
  ranges.Optimistic num_actions a ∧ ∀ b < a, ¬ranges.Optimistic num_actions b

/-- Before any bound is less than `FLT_MAX` the loop is where it began. -/
theorem find_opt_spec (ranges : CostRanges) (num_actions : Nat) :
    (ranges.find_opt num_actions).1 ≤ FLT_MAX ∧
    (∀ b < num_actions, (ranges.find_opt num_actions).1 ≤ ranges.min_costs b) ∧
    (ranges.find_opt num_actions = (FLT_MAX, 0) ∨
      ((ranges.find_opt num_actions).2 < num_actions ∧
        ranges.min_costs (ranges.find_opt num_actions).2 = (ranges.find_opt num_actions).1 ∧
        ∀ b < (ranges.find_opt num_actions).2, (ranges.find_opt num_actions).1 < ranges.min_costs b)) := by
  induction num_actions with
  | zero => exact ⟨le_refl _, fun b hb => absurd hb (Nat.not_lt_zero b), Or.inl rfl⟩
  | succ n ih =>
    obtain ⟨hmax, hle, hfound⟩ := ih
    have hstep : ranges.find_opt (n + 1) = if ranges.min_costs n < (ranges.find_opt n).1 then
        (ranges.min_costs n, n) else ranges.find_opt n := by
      rw [CostRanges.find_opt, range_succ, foldl_append, foldl_cons, foldl_nil,
        ← CostRanges.find_opt]
    rw [hstep]
    split_ifs with hlt
    · -- A new least bound: all earlier ones are greater.
      refine ⟨hlt.le.trans hmax,
        fun b hb => ?_, Or.inr ⟨Nat.lt_succ_self n, rfl, fun b hb => hlt.trans_le (hle b hb)⟩⟩
      rcases Nat.lt_succ_iff_lt_or_eq.mp hb with hb | rfl
      · exact hlt.le.trans (hle b hb)
      · exact le_refl _
    · refine ⟨hmax, fun b hb => ?_, ?_⟩
      · rcases Nat.lt_succ_iff_lt_or_eq.mp hb with hb | rfl
        · exact hle b hb
        · exact not_lt.mp hlt
      · rcases hfound with hfirst | ⟨hin, heq, hbefore⟩
        · exact Or.inl hfirst
        · exact Or.inr ⟨by omega, heq, hbefore⟩

theorem Predicted.find_opt (h : Predicted ranges preds) :
    ranges.FirstOptimistic preds.length (ranges.find_opt preds.length).2 ∧
    (ranges.find_opt preds.length).2 < preds.length ∧
    ∀ a < preds.length, ranges.min_costs a = (ranges.find_opt preds.length).1 ↔
      ranges.Optimistic preds.length a := by
  have hlength := length_pos_iff.mpr h.nonempty
  obtain ⟨_, hle, hfound⟩ := find_opt_spec ranges preds.length
  have hsome : (ranges.find_opt preds.length).2 < preds.length ∧
      ranges.min_costs (ranges.find_opt preds.length).2 = (ranges.find_opt preds.length).1 ∧
      ∀ b < (ranges.find_opt preds.length).2, (ranges.find_opt preds.length).1 < ranges.min_costs b := by
    rcases hfound with hfirst | hin
    · -- All bounds are `FLT_MAX`, also that of the first action.
      rw [hfirst] at hle ⊢
      refine ⟨hlength, le_antisymm ?_ (hle 0 hlength), fun b hb => absurd hb (Nat.not_lt_zero b)⟩
      exact (h.ranges_le 0 hlength).trans (h.costs_le 0 hlength)
    · exact hin
  obtain ⟨hlt, heq, hbefore⟩ := hsome
  refine ⟨⟨fun b hb => heq.trans_le (hle b hb), fun b hb hopt => ?_⟩, hlt,
    fun a ha => ⟨fun hmin b hb => ?_, fun hopt => ?_⟩⟩
  · have := hopt _ hlt
    rw [heq] at this
    exact absurd (hbefore b hb) (not_lt.mpr this)
  · exact hmin.trans_le (hle b hb)
  · exact le_antisymm ((hopt _ hlt).trans heq.le) (hle a ha)

/-- The sum of ones and zeros counts the actions. -/
theorem sum_indicator (h : Predicted ranges preds) (q : Nat → Prop) [DecidablePred q] :
    ((preds.map fun p : ActionScore => { p with score := if q p.action then 1 else 0 }).map score).sum
      = (((Finset.range preds.length).filter q).card : ℚ) := by
  have hsum : ∀ l : List ActionScore,
      ((l.map fun p : ActionScore => { p with score := if q p.action then 1 else 0 }).map score).sum
        = (((l.map action).countP fun a => decide (q a) : Nat) : ℚ) := by
    intro l
    induction l with
    | nil => rfl
    | cons p l ih =>
      rw [map_cons, map_cons, sum_cons, ih, map_cons, countP_cons]
      by_cases hq : q p.action
      · simp [hq, add_comm]
      · simp [hq]
  rw [hsum, h.actions.countP_eq, countP_eq_length_filter]
  rfl

/-- One action only has the least lower bound, or only the first of them is played. -/
def OptSound (first_only : Bool) (ranges : CostRanges) (num_actions : Nat) : Prop :=
  first_only = true ∨ ∀ a < num_actions, ∀ b < num_actions,
    ranges.Optimistic num_actions a → ranges.Optimistic num_actions b → a = b

/-- The actions that the optimistic variant is to play. -/
def CostRanges.Played (ranges : CostRanges) (first_only : Bool) (num_actions a : Nat) : Prop :=
  if first_only then ranges.FirstOptimistic num_actions a else ranges.Optimistic num_actions a

theorem FirstOptimistic_unique {n a b : Nat} (ha : ranges.FirstOptimistic n a) (hb : ranges.FirstOptimistic n b) :
    a = b := by
  rcases lt_trichotomy a b with h | h | h
  · exact absurd ha.1 (hb.2 a h)
  · exact h
  · exact absurd hb.1 (ha.2 b h)

/-- The test of the loop finds the actions to play. -/
theorem Predicted.played_iff (h : Predicted ranges preds) (first_only : Bool) {a : Nat} (ha : a < preds.length) :
    (a = (ranges.find_opt preds.length).2 ∨
      (first_only = false ∧ ranges.min_costs a = (ranges.find_opt preds.length).1)) ↔
      ranges.Played first_only preds.length a := by
  obtain ⟨hfirst, hlt, hmin⟩ := h.find_opt
  cases first_only with
  | true =>
    simp only [Bool.true_eq_false, false_and, or_false, CostRanges.Played, if_true]
    refine ⟨fun heq => ?_, fun hopt => FirstOptimistic_unique hopt hfirst⟩
    rw [heq]
    exact hfirst
  | false =>
    simp only [true_and, CostRanges.Played, Bool.false_eq_true, if_false]
    rw [hmin a ha]
    refine ⟨fun hor => hor.elim (fun heq => ?_) id, Or.inr⟩
    rw [heq]
    exact hfirst.1

theorem regcb_opt_distribution (first_only : Bool) (h : Predicted ranges preds) :
    IsDistribution (ranges.Played first_only preds.length) preds (regcb_opt first_only ranges preds) ↔
      OptSound first_only ranges preds.length := by
  classical
  obtain ⟨hfirst, hlt, hmin⟩ := h.find_opt
  have heq : regcb_opt first_only ranges preds = preds.map fun p : ActionScore =>
      { p with score := if ranges.Played first_only preds.length p.action then 1 else 0 } := by
    rw [regcb_opt]
    apply map_congr_left
    intro p hp
    have hiff := h.played_iff first_only (h.action_lt hp)
    exact congrArg (mk p.action) (if_congr hiff rfl rfl)
  have hplayed : ranges.Played first_only preds.length (ranges.find_opt preds.length).2 :=
    (h.played_iff first_only hlt).mp (Or.inl rfl)
  have hsum := sum_indicator h (ranges.Played first_only preds.length)
  rw [← heq] at hsum
  -- The sum is one just if no two actions are played.
  have hone : ((regcb_opt first_only ranges preds).map score).sum = 1 ↔
      ∀ a < preds.length, ∀ b < preds.length, ranges.Played first_only preds.length a →
        ranges.Played first_only preds.length b → a = b := by
    have hpos : 0 < ((Finset.range preds.length).filter (ranges.Played first_only preds.length)).card :=
      Finset.card_pos.mpr ⟨_, Finset.mem_filter.mpr ⟨Finset.mem_range.mpr hlt, hplayed⟩⟩
    rw [hsum, Nat.cast_eq_one]
    have hle := Finset.card_le_one
      (s := (Finset.range preds.length).filter (ranges.Played first_only preds.length))
    constructor
    · intro hcard a ha b hb hpa hpb
      exact hle.mp hcard.le a (Finset.mem_filter.mpr ⟨Finset.mem_range.mpr ha, hpa⟩) b
        (Finset.mem_filter.mpr ⟨Finset.mem_range.mpr hb, hpb⟩)
    · intro hunique
      refine le_antisymm (hle.mpr fun a ha b hb => ?_) hpos
      obtain ⟨ha, hpa⟩ := Finset.mem_filter.mp ha
      obtain ⟨hb, hpb⟩ := Finset.mem_filter.mp hb
      exact hunique a (Finset.mem_range.mp ha) b (Finset.mem_range.mp hb) hpa hpb
  have hsound : (∀ a < preds.length, ∀ b < preds.length, ranges.Played first_only preds.length a →
      ranges.Played first_only preds.length b → a = b) ↔ OptSound first_only ranges preds.length := by
    cases first_only with
    | true =>
      refine iff_of_true (fun a _ b _ hpa hpb => ?_) (Or.inl rfl)
      exact FirstOptimistic_unique hpa hpb
    | false =>
      rw [OptSound]
      simp only [Bool.false_eq_true, false_or, CostRanges.Played, if_false]
  rw [← hsound, ← hone]
  refine ⟨fun hdist => hdist.sum_one, fun hsum => ?_⟩
  rw [heq] at hsum ⊢
  constructor
  case actions =>
    rw [map_map]
    rfl
  case nonneg =>
    intro p hp
    obtain ⟨q, _, rfl⟩ := mem_map.mp hp
    split_ifs
    · exact zero_le_one
    · exact le_refl _
  case sum_one => exact hsum
  case eliminated =>
    intro p hp hnot
    obtain ⟨q, _, rfl⟩ := mem_map.mp hp
    exact if_neg hnot

/-! ## The elimination variant -/

/-- `1.0` is above the limit of uniform exploration. -/
theorem enforce_uniform {pmf : List ℚ} (hne : pmf ≠ []) :
    (enforce_minimum_probability 1 false pmf).2 = pmf.map fun prob =>
      if prob > 0 then 1 / (support_size false pmf : ℚ) else prob := by
  have hrange : ¬((1 : ℚ) < 0 ∨ (1 : ℚ) > 1) := by norm_num
  unfold enforce_minimum_probability
  rw [if_neg (by simpa using hne), if_neg one_ne_zero, if_neg hrange]
  rw [if_pos nearly_one_lt]
  simp only [considered, Bool.false_or, decide_eq_true_eq]

/-- A positive score is in the support. -/
theorem support_size_pos {pmf : List ℚ} {prob : ℚ} (hmem : prob ∈ pmf) (hpos : 0 < prob) :
    0 < support_size false pmf := by
  have hlt : pmf.count 0 < pmf.length := by
    refine lt_of_le_of_ne count_le_length fun heq => hpos.ne ?_
    exact count_eq_length.mp heq prob hmem
  simp only [support_size, Bool.false_eq_true, if_false]
  omega

/-- What a round leaves of the scores that are set. -/
def enforced (preds : List ActionScore) (p : ActionScore) : ActionScore :=
  { p with score := if p.score > 0 then 1 / (support_size false (preds.map score) : ℚ) else p.score }

theorem regcb_round_eq (surviving : ActionScore → Bool) (hne : preds ≠ []) (i : Nat) :
    regcb_round surviving preds i =
      let set := preds.modify i fun p => { p with score := if surviving p then 1 else 0 }
      set.map (enforced set) := by
  rw [regcb_round]
  generalize hset : (preds.modify i fun p => { p with score := if surviving p then 1 else 0 }) = set
  have hset_ne : set.map score ≠ [] := by
    intro h
    have hlen := congrArg List.length h
    rw [length_map, ← hset, length_modify] at hlen
    exact hne (length_eq_zero_iff.mp hlen)
  rw [enforce_uniform hset_ne, map_map, with_scores]
  have hzip : ∀ (l : List ActionScore) (f : ActionScore → ℚ),
      zipWith (fun p score => ({ p with score := score } : ActionScore)) l (l.map f)
        = l.map fun p => { p with score := f p } := by
    intro l f
    induction l with
    | nil => rfl
    | cons p l ih => rw [map_cons, zipWith_cons_cons, ih, map_cons]
  rw [hzip]
  rfl

/-- The first `i` entries are those of `preds`, the survivors positive and the others zero. -/
structure Processed (surviving : Nat → Prop) (preds : List ActionScore) (i : Nat)
    (out : List ActionScore) : Prop where
  actions : out.map action = preds.map action
  survivors : ∀ (j : Nat) (hj : j < out.length), j < i → surviving out[j].action → 0 < out[j].score
  others : ∀ (j : Nat) (hj : j < out.length), j < i → ¬surviving out[j].action → out[j].score = 0

section rounds
variable {kept : Nat → Prop} {out : List ActionScore} {i : Nat}

theorem Processed.length (h : Processed kept preds i out) : out.length = preds.length := by
  have := congrArg List.length h.actions
  rwa [length_map, length_map] at this

/-- Setting the next entry. -/
theorem Processed.modify (h : Processed kept preds i out)
    (hkept : ∀ p : ActionScore, p.action ∈ preds.map action → (surviving p = true ↔ kept p.action)) :
    Processed kept preds (i + 1) (out.modify i fun p => { p with score := if surviving p then 1 else 0 }) := by
  have hat : ∀ (j : Nat) (hj : j < out.length), out[j].action ∈ preds.map action := by
    intro j hj
    rw [← h.actions]
    exact mem_map_of_mem (getElem_mem hj)
  constructor
  case actions =>
    rw [← h.actions]
    apply ext_getElem
    · simp
    · intro j hj hj'
      rw [getElem_map, getElem_map, getElem_modify]
      by_cases heq : i = j
      · rw [if_pos heq]
      · rw [if_neg heq]
  case survivors =>
    intro j hj hlt hsurviving
    have hj' : j < out.length := by rwa [length_modify] at hj
    rw [getElem_modify] at hsurviving ⊢
    by_cases heq : i = j
    · rw [if_pos heq] at hsurviving ⊢
      dsimp only at hsurviving ⊢
      rw [if_pos ((hkept _ (hat j hj')).mpr hsurviving)]
      exact one_pos
    · rw [if_neg heq] at hsurviving ⊢
      exact h.survivors j hj' (by omega) hsurviving
  case others =>
    intro j hj hlt hnot
    have hj' : j < out.length := by rwa [length_modify] at hj
    rw [getElem_modify] at hnot ⊢
    by_cases heq : i = j
    · rw [if_pos heq] at hnot ⊢
      dsimp only at hnot ⊢
      rw [if_neg fun h' => hnot ((hkept _ (hat j hj')).mp h')]
    · rw [if_neg heq] at hnot ⊢
      exact h.others j hj' (by omega) hnot

/-- Enforcing the minimum keeps what is positive and what is zero. -/
theorem Processed.enforced (h : Processed kept preds i out) : Processed kept preds i (out.map (enforced out)) := by
  constructor
  case actions =>
    rw [← h.actions, map_map]
    rfl
  case survivors =>
    intro j hj hlt hsurviving
    rw [length_map] at hj
    rw [getElem_map] at hsurviving ⊢
    have hpos := h.survivors j hj hlt hsurviving
    have hsupport := support_size_pos (mem_map_of_mem (f := score) (getElem_mem hj)) hpos
    rw [Explore.enforced]
    rw [if_pos hpos]
    exact one_div_pos.mpr (by exact_mod_cast hsupport)
  case others =>
    intro j hj hlt hnot
    rw [length_map] at hj
    rw [getElem_map] at hnot ⊢
    have hzero := h.others j hj hlt hnot
    rw [Explore.enforced]
    rw [hzero, if_neg (lt_irrefl _)]

theorem Processed.round (h : Processed kept preds i out) (hne : preds ≠ [])
    (hkept : ∀ p : ActionScore, p.action ∈ preds.map action → (surviving p = true ↔ kept p.action)) :
    Processed kept preds (i + 1) (regcb_round surviving out i) := by
  have hout : out ≠ [] := by
    intro hnil
    have hlen := h.length
    rw [hnil] at hlen
    exact hne (length_eq_zero_iff.mp hlen.symm)
  rw [regcb_round_eq surviving hout]
  exact (h.modify hkept).enforced

theorem Processed.rounds (hne : preds ≠ [])
    (hkept : ∀ p : ActionScore, p.action ∈ preds.map action → (surviving p = true ↔ kept p.action))
    (n : Nat) : Processed kept preds n ((range n).foldl (regcb_round surviving) preds) := by
  induction n with
  | zero =>
    exact ⟨rfl, fun j _ hj => absurd hj (Nat.not_lt_zero j), fun j _ hj => absurd hj (Nat.not_lt_zero j)⟩
  | succ n ih =>
    rw [range_succ, foldl_append, foldl_cons, foldl_nil]
    exact ih.round hne hkept

/-- With all entries set, the last round is uniform on the survivors. -/
theorem Processed.distribution (h : Processed kept preds preds.length out)
    (hsome : ∃ a ∈ preds.map action, kept a) :
    IsDistribution kept preds (out.map (Explore.enforced out)) := by
  have hlen := h.length
  have hsign : ∀ p ∈ out, 0 ≤ p.score ∧ (¬kept p.action → p.score = 0) := by
    intro p hp
    obtain ⟨j, hj, rfl⟩ := mem_iff_getElem.mp hp
    by_cases hsurviving : kept out[j].action
    · exact ⟨(h.survivors j hj (by omega) hsurviving).le, fun hnot => absurd hsurviving hnot⟩
    · have hzero := h.others j hj (by omega) hsurviving
      exact ⟨hzero.ge, fun _ => hzero⟩
  obtain ⟨prob, hmem, hpos⟩ : ∃ prob ∈ out.map score, 0 < prob := by
    obtain ⟨a, ha, hsurviving⟩ := hsome
    rw [← h.actions] at ha
    obtain ⟨p, hp, rfl⟩ := mem_map.mp ha
    obtain ⟨j, hj, rfl⟩ := mem_iff_getElem.mp hp
    exact ⟨_, mem_map_of_mem hp, h.survivors j hj (by omega) hsurviving⟩
  have hsupport := support_size_pos hmem hpos
  have hnonneg : ∀ q ∈ out.map score, 0 ≤ q := by
    intro q hq
    obtain ⟨p, hp, rfl⟩ := mem_map.mp hq
    exact (hsign p hp).1
  constructor
  case actions =>
    rw [← h.actions, map_map]
    rfl
  case nonneg =>
    intro p hp
    obtain ⟨q, hq, rfl⟩ := mem_map.mp hp
    rw [Explore.enforced]
    split_ifs
    · exact (one_div_pos.mpr (by exact_mod_cast hsupport)).le
    · exact (hsign q hq).1
  case sum_one =>
    have hscores : (out.map (Explore.enforced out)).map score
        = (out.map score).map fun prob =>
          if considered false prob then 1 / (support_size false (out.map score) : ℚ) else prob := by
      rw [map_map, map_map]
      apply map_congr_left
      intro p _
      simp only [Function.comp, Explore.enforced, considered, Bool.false_or, decide_eq_true_eq]
    rw [hscores, sum_considered false _ hnonneg, map_const', sum_replicate,
      length_considered false hnonneg, nsmul_eq_mul, mul_one_div_cancel]
    exact_mod_cast hsupport.ne'
  case eliminated =>
    intro p hp hnot
    obtain ⟨q, hq, rfl⟩ := mem_map.mp hp
    have hzero := (hsign q hq).2 hnot
    rw [Explore.enforced]
    rw [hzero, if_neg (lt_irrefl _)]

end rounds

theorem regcb_elim_distribution (h : Predicted ranges preds) :
    IsDistribution (ranges.Plausible preds.length) preds (regcb_elim ranges preds) := by
  have hkept : ∀ p : ActionScore, p.action ∈ preds.map action →
      ((fun p : ActionScore => decide (ranges.min_costs p.action ≤ ranges.min_max_cost preds.length)) p = true ↔
        ranges.Plausible preds.length p.action) := by
    intro p hp
    obtain ⟨q, hq, heq⟩ := mem_map.mp hp
    show decide (ranges.min_costs p.action ≤ ranges.min_max_cost preds.length) = true ↔ _
    rw [← heq, h.survives_iff hq, survives, decide_eq_true_iff]
  obtain ⟨n, hn⟩ : ∃ n, preds.length = n + 1 :=
    Nat.exists_eq_succ_of_ne_zero (length_pos_iff.mpr h.nonempty).ne'
  have hrounds := Processed.rounds h.nonempty hkept n
  have hout : (List.range n).foldl (regcb_round fun p : ActionScore =>
      decide (ranges.min_costs p.action ≤ ranges.min_max_cost preds.length)) preds ≠ [] := by
    intro hnil
    have hlen := hrounds.length
    rw [hnil] at hlen
    exact h.nonempty (length_eq_zero_iff.mp hlen.symm)
  have hlast := hrounds.modify hkept
  rw [← hn] at hlast
  obtain ⟨p, hp, hsurvives⟩ := h.exists_survivor
  have hdist := hlast.distribution ⟨_, mem_map_of_mem hp, of_decide_eq_true hsurvives⟩
  rw [regcb_elim, hn, range_succ, foldl_append, foldl_cons, foldl_nil, ← hn,
    regcb_round_eq _ hout]
  exact hdist

/-! ## All variants -/

/-- The variants of the two explorations, with their parameters. -/
inductive Exploration where
  | squarecb (gamma epsilon : ℚ)
  | squarecb_elim (gamma : ℚ)
  | regcb_elim
  | regcb_opt (first_only : Bool)

namespace Exploration

/-- The set-up of SquareCB checks `epsilon`. -/
def Valid : Exploration → Prop
  | squarecb gamma epsilon => 0 ≤ gamma ∧ 0 ≤ epsilon ∧ epsilon ≤ 1
  | squarecb_elim gamma => 0 ≤ gamma
  | regcb_elim => True
  | regcb_opt _ => True

def predict (ranges : CostRanges) (preds : List ActionScore) : Exploration → Option (List ActionScore)
  | squarecb gamma epsilon => Explore.squarecb gamma epsilon preds
  | squarecb_elim gamma => Explore.squarecb_elim gamma ranges preds
  | regcb_elim => some (Explore.regcb_elim ranges preds)
  | regcb_opt first_only => some (Explore.regcb_opt first_only ranges preds)

/-- The actions that are not eliminated. -/
def Kept (ranges : CostRanges) (num_actions : Nat) : Exploration → Nat → Prop
  | squarecb _ _ => fun _ => True
  | squarecb_elim _ => ranges.Plausible num_actions
  | regcb_elim => ranges.Plausible num_actions
  | regcb_opt first_only => ranges.Played first_only num_actions

/-- The inputs on which a variant predicts a distribution. -/
def Sound (ranges : CostRanges) (preds : List ActionScore) : Exploration → Prop
  | squarecb _ _ => True
  | squarecb_elim gamma => ElimSound gamma ranges preds
  | regcb_elim => True
  | regcb_opt first_only => OptSound first_only ranges preds.length

end Exploration

/-- The vanilla variant and RegCB with elimination always predict a distribution, the two others
    just where the survivors' weights are covered and where one action only is played. -/
theorem predict_distribution_iff (e : Exploration) (he : e.Valid) (h : Predicted ranges preds) :
    (∃ out, e.predict ranges preds = some out ∧ IsDistribution (e.Kept ranges preds.length) preds out) ↔
      e.Sound ranges preds := by
  cases e with
  | squarecb gamma epsilon =>
    refine iff_of_true ?_ trivial
    exact squarecb_distribution he.1 he.2.1 he.2.2 h.nonempty fun _ => trivial
  | squarecb_elim gamma => exact squarecb_elim_distribution he h
  | regcb_elim => exact iff_of_true ⟨_, rfl, regcb_elim_distribution h⟩ trivial
  | regcb_opt first_only =>
    have hiff := regcb_opt_distribution first_only h
    constructor
    · rintro ⟨out, hout, hdist⟩
      cases hout
      exact hiff.mp hdist
    · exact fun hsound => ⟨_, rfl, hiff.mpr hsound⟩

/-- All ranges are `[0, 1]`. -/
def unit_ranges : CostRanges where
  min_costs _ := 0
  max_costs _ := 1

/-- Three costs that are close to each other. -/
def close_costs : List ActionScore := [⟨0, 1 / 10⟩, ⟨1, 11 / 100⟩, ⟨2, 12 / 100⟩]

theorem close_costs_predicted : Predicted unit_ranges close_costs := by
  refine ⟨by decide, by decide, ?_, ?_, ?_⟩
  · decide +kernel
  · intro a _
    exact zero_le_one
  · intro a _
    show (1 : ℚ) ≤ FLT_MAX
    unfold FLT_MAX
    norm_num

/-- With `gamma` so large that the two others get little. -/
theorem predict_distribution_large_gamma :
    Exploration.Valid (.squarecb_elim 200) ∧ Predicted unit_ranges close_costs ∧
    ((∃ out, Exploration.predict unit_ranges close_costs (.squarecb_elim 200) = some out ∧
      IsDistribution (Exploration.Kept unit_ranges 3 (.squarecb_elim 200)) close_costs out) ↔
      Exploration.Sound unit_ranges close_costs (.squarecb_elim 200)) := by
  have hvalid : Exploration.Valid (.squarecb_elim 200) := by
    show (0 : ℚ) ≤ 200
    norm_num
  exact ⟨hvalid, close_costs_predicted, predict_distribution_iff _ hvalid close_costs_predicted⟩

/-- With a `gamma` of 10 the first of three survivors is left with less than nothing. -/
theorem elim_negative :
    ¬∃ out, Exploration.predict unit_ranges close_costs (.squarecb_elim 10) = some out ∧
      IsDistribution (Exploration.Kept unit_ranges 3 (.squarecb_elim 10)) close_costs out := by
  rintro ⟨out, hout, hdist⟩
  have heq : Exploration.predict unit_ranges close_costs (.squarecb_elim 10)
      = some [⟨0, -49 / 66⟩, ⟨1, 10 / 11⟩, ⟨2, 5 / 6⟩] := by
    decide +kernel
  cases heq.symm.trans hout
  have := hdist.nonneg ⟨0, -49 / 66⟩ mem_cons_self
  norm_num at this

end VW.Explore
