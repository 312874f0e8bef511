import VowpalWabbit.Explore.EnforceMinimum
import Mathlib.Data.Finset.Max

/-! # SquareCB

    `cb_explore_adf_squarecb::predict`, over exact rationals. It turns the costs that the base
    learner predicts into probabilities. With `--elim` only the actions are played whose range of
    costs reaches down to the least upper bound of all ranges; these survive.

    `gamma` and the ranges of `get_cost_ranges` are given. `none` is a division by zero.
-/

open Cpp

namespace VW.Explore

open List

/-! ## The source -/

structure ActionScore where
  action : Nat
  score : ℚ
  deriving DecidableEq

def FLT_MAX : ℚ := (2 ^ 24 - 1) * 2 ^ 104

/-- What `get_cost_ranges` leaves in `_min_costs` and `_max_costs`, by the number of the action. -/
structure CostRanges where
  min_costs : Nat → ℚ
  max_costs : Nat → ℚ

/-- The loop over the upper bounds. -/
def CostRanges.min_max_cost (ranges : CostRanges) (num_actions : Nat) : ℚ :=
  (range num_actions).foldl (fun min_max_cost a =>
    if ranges.max_costs a < min_max_cost then ranges.max_costs a else min_max_cost) FLT_MAX

/-- The locals of the loop that looks for the least cost. -/
structure Lowest where
  a_min : Nat
  min_cost : ℚ
  num_surviving_actions : Nat

/-- The loop, from index `a` on. That of the vanilla variant takes all actions, and does not count. -/
def find_lowest (surviving : ActionScore → Bool) : Nat → Lowest → List ActionScore → Lowest
  | _, s, [] => s
  | a, s, p :: preds =>
    if p.score < s.min_cost ∧ surviving p = true then
      find_lowest surviving (a + 1) ⟨a, p.score, s.num_surviving_actions + 1⟩ preds
    else
      find_lowest surviving (a + 1) s preds

/-- `1.f / x`. -/
def reciprocal (x : ℚ) : Option ℚ := if x = 0 then none else some (1 / x)

/-- The loop that computes the probabilities of all actions but `a_min`, with their sum. An action
    that does not survive gets zero. -/
def squarecb_rule (surviving : ActionScore → Bool) (num_actions gamma min_cost : ℚ) (a_min : Nat) :
    Nat → ℚ → List ActionScore → Option (List ActionScore × ℚ)
  | _, total_weight, [] => some ([], total_weight)
  | a, total_weight, p :: preds =>
    if surviving p = false then do
      let (out, total_weight) ← squarecb_rule surviving num_actions gamma min_cost a_min (a + 1) total_weight preds
      return ({ p with score := 0 } :: out, total_weight)
    else if a = a_min then do
      let (out, total_weight) ← squarecb_rule surviving num_actions gamma min_cost a_min (a + 1) total_weight preds
      return (p :: out, total_weight)
    else do
      let pa ← reciprocal (num_actions + gamma * (p.score - min_cost))
      let (out, total_weight) ← squarecb_rule surviving num_actions gamma min_cost a_min (a + 1)
        (total_weight + pa) preds
      return ({ p with score := pa } :: out, total_weight)

/-- The action at `a_min` takes what is left. -/
def take_rest (a_min : Nat) (total_weight : ℚ) (preds : List ActionScore) : List ActionScore :=
  preds.modify a_min fun p => { p with score := 1 - total_weight }

/-- The scores of `preds` as a range that is written to. -/
def with_scores (preds : List ActionScore) (scores : List ℚ) : List ActionScore :=
  zipWith (fun p score => { p with score }) preds scores

/-- The part of `predict` without `--elim`. -/
def squarecb (gamma epsilon : ℚ) (preds : List ActionScore) : Option (List ActionScore) := do
  let first ← preds.head?
  let lowest := find_lowest (fun _ => true) 0 ⟨0, first.score, 0⟩ preds
  let (preds, total_weight) ←
    squarecb_rule (fun _ => true) preds.length gamma lowest.min_cost lowest.a_min 0 0 preds
  let preds := take_rest lowest.a_min total_weight preds
  return with_scores preds (enforce_minimum_probability epsilon true (preds.map ActionScore.score)).2

/-- The part of `predict` with `--elim`. -/
def squarecb_elim (gamma : ℚ) (ranges : CostRanges) (preds : List ActionScore) : Option (List ActionScore) := do
  let min_max_cost := ranges.min_max_cost preds.length
  let surviving := fun p : ActionScore => decide (ranges.min_costs p.action ≤ min_max_cost)
  let lowest := find_lowest surviving 0 ⟨0, FLT_MAX, 0⟩ preds
  let (preds, total_weight) ←
    squarecb_rule surviving lowest.num_surviving_actions gamma lowest.min_cost lowest.a_min 0 0 preds
  return take_rest lowest.a_min total_weight preds

example : squarecb 10 0 [⟨0, 0⟩, ⟨1, 1 / 10⟩] = some [⟨0, 2 / 3⟩, ⟨1, 1 / 3⟩] := by
  decide +kernel

/-! ## Distributions over the actions -/

/-- `out` is a distribution over the actions of `preds`, on those that are kept. -/
structure IsDistribution (kept : Nat → Prop) (preds out : List ActionScore) : Prop where
  actions : out.map ActionScore.action = preds.map ActionScore.action
  nonneg : ∀ p ∈ out, 0 ≤ p.score
  sum_one : (out.map ActionScore.score).sum = 1
  eliminated : ∀ p ∈ out, ¬kept p.action → p.score = 0

/-- What is predicted with: the base learner scores every action once, and the range of costs of
    an action is one. All numbers are finite. -/
structure Predicted (ranges : CostRanges) (preds : List ActionScore) : Prop where
  nonempty : preds ≠ []
  actions : (preds.map ActionScore.action).Perm (range preds.length)
  scores_le : ∀ p ∈ preds, p.score ≤ FLT_MAX
  ranges_le : ∀ a < preds.length, ranges.min_costs a ≤ ranges.max_costs a
  costs_le : ∀ a < preds.length, ranges.max_costs a ≤ FLT_MAX

/-- An action survives when its range reaches down to all upper bounds. -/
def CostRanges.Plausible (ranges : CostRanges) (num_actions a : Nat) : Prop :=
  ∀ b < num_actions, ranges.min_costs a ≤ ranges.max_costs b

instance (ranges : CostRanges) (num_actions a : Nat) : Decidable (ranges.Plausible num_actions a) :=
  inferInstanceAs (Decidable (∀ b < num_actions, _))

/-- How many entries are below `bound` and below all entries before them. -/
def records (bound : ℚ) : List ℚ → Nat
  | [] => 0
  | x :: xs => if x < bound then records x xs + 1 else records bound xs

/-! ## The least cost -/

variable {surviving : ActionScore → Bool} {preds : List ActionScore} {ranges : CostRanges}

theorem records_pos {bound : ℚ} {xs : List ℚ} (h : ∃ x ∈ xs, x < bound) : 0 < records bound xs := by
  induction xs generalizing bound with
  | nil =>
    obtain ⟨x, hx, _⟩ := h
    cases hx
  | cons x xs ih =>
    rw [records]
    split_ifs with hlt
    · exact Nat.succ_pos _
    · obtain ⟨y, hy, hbound⟩ := h
      rcases mem_cons.mp hy with rfl | hy
      · exact absurd hbound hlt
      · exact ih ⟨y, hy, hbound⟩

def surviving_scores (surviving : ActionScore → Bool) (preds : List ActionScore) : List ℚ :=
  (preds.filter surviving).map ActionScore.score

variable {p : ActionScore}

theorem surviving_scores_of_pos (h : surviving p = true) :
    surviving_scores surviving (p :: preds) = p.score :: surviving_scores surviving preds := by
  rw [surviving_scores, filter_cons_of_pos h, map_cons, surviving_scores]

theorem surviving_scores_of_neg (h : ¬surviving p = true) :
    surviving_scores surviving (p :: preds) = surviving_scores surviving preds := by
  rw [surviving_scores, filter_cons_of_neg h, surviving_scores]

/-- What the loop finds: it counts the records, and stops at the first of the least costs. -/
structure Found (surviving : ActionScore → Bool) (a : Nat) (s : Lowest) (preds : List ActionScore)
    (s' : Lowest) : Prop where
  count : s'.num_surviving_actions
    = s.num_surviving_actions + records s.min_cost (surviving_scores surviving preds)
  le : s'.min_cost ≤ s.min_cost
  least : ∀ p ∈ preds, surviving p = true → s'.min_cost ≤ p.score
  found : s' = s ∨ (s'.min_cost < s.min_cost ∧ ∃ front best back, preds = front ++ best :: back ∧
    s'.a_min = a + front.length ∧ surviving best = true ∧ best.score = s'.min_cost)

theorem find_lowest_found (surviving : ActionScore → Bool) (preds : List ActionScore) (a : Nat) (s : Lowest) :
    Found surviving a s preds (find_lowest surviving a s preds) := by
  induction preds generalizing a s with
  | nil =>
    refine ⟨rfl, le_refl _, fun p hp => ?_, Or.inl rfl⟩
    cases hp
  | cons p preds ih =>
    rw [find_lowest]
    by_cases hnew : p.score < s.min_cost ∧ surviving p = true
    · -- A new least cost: the rest is searched from it on.
      rw [if_pos hnew]
      obtain ⟨hcount, hle, hleast, hfound⟩ := ih (a + 1) ⟨a, p.score, s.num_surviving_actions + 1⟩
      refine ⟨?_, hle.trans hnew.1.le, ?_, Or.inr ⟨hle.trans_lt hnew.1, ?_⟩⟩
      · rw [hcount, surviving_scores_of_pos hnew.2, records, if_pos hnew.1]
        dsimp only
        omega
      · intro q hq hsurviving
        rcases mem_cons.mp hq with rfl | hq
        · exact hle
        · exact hleast q hq hsurviving
      · rcases hfound with hsame | ⟨_, front, best, back, rfl, hat, hsurviving, hscore⟩
        · rw [hsame]
          exact ⟨[], p, preds, rfl, rfl, hnew.2, rfl⟩
        · refine ⟨p :: front, best, back, rfl, ?_, hsurviving, hscore⟩
          rw [hat, length_cons]
          omega
    · rw [if_neg hnew]
      obtain ⟨hcount, hle, hleast, hfound⟩ := ih (a + 1) s
      refine ⟨?_, hle, ?_, ?_⟩
      · rw [hcount]
        by_cases hsurviving : surviving p = true
        · have hnot : ¬p.score < s.min_cost := fun h => hnew ⟨h, hsurviving⟩
          rw [surviving_scores_of_pos hsurviving, records, if_neg hnot]
        · rw [surviving_scores_of_neg hsurviving]
      · intro q hq hsurviving
        rcases mem_cons.mp hq with rfl | hq
        · exact hle.trans (not_lt.mp fun h => hnew ⟨h, hsurviving⟩)
        · exact hleast q hq hsurviving
      · rcases hfound with hsame | ⟨hlt, front, best, back, rfl, hat, hsurviving, hscore⟩
        · exact Or.inl hsame
        · refine Or.inr ⟨hlt, p :: front, best, back, rfl, ?_, hsurviving, hscore⟩
          rw [hat, length_cons]
          omega

/-! ## The rule -/

variable {front back : List ActionScore} {best : ActionScore}

section rule
variable {num_actions gamma min_cost : ℚ} {a_min : Nat}

/-- The probability of an action that is not the best one. -/
def share (num_actions gamma min_cost : ℚ) (p : ActionScore) : ℚ :=
  1 / (num_actions + gamma * (p.score - min_cost))

def shared (surviving : ActionScore → Bool) (num_actions gamma min_cost : ℚ) (p : ActionScore) : ActionScore :=
  { p with score := if surviving p then share num_actions gamma min_cost p else 0 }

/-- The probabilities of all survivors among `preds`. -/
def total (surviving : ActionScore → Bool) (num_actions gamma min_cost : ℚ) (preds : List ActionScore) : ℚ :=
  ((preds.filter surviving).map (share num_actions gamma min_cost)).sum

/-- No survivor among `preds` is divided by zero. -/
def Dividing (surviving : ActionScore → Bool) (num_actions gamma min_cost : ℚ) (preds : List ActionScore) : Prop :=
  ∀ p ∈ preds, surviving p = true → num_actions + gamma * (p.score - min_cost) ≠ 0

/-- Away from `a_min` the loop gives every action its share. -/
theorem squarecb_rule_append (rest : List ActionScore) (a : Nat) (total_weight : ℚ)
    (hoff : ∀ j < front.length, a + j ≠ a_min)
    (hdiv : Dividing surviving num_actions gamma min_cost front) :
    squarecb_rule surviving num_actions gamma min_cost a_min a total_weight (front ++ rest)
      = (squarecb_rule surviving num_actions gamma min_cost a_min (a + front.length)
          (total_weight + total surviving num_actions gamma min_cost front) rest).map
        fun r => (front.map (shared surviving num_actions gamma min_cost) ++ r.1, r.2) := by
  induction front generalizing a total_weight with
  | nil => simp [total]
  | cons p front ih =>
    have hne : a ≠ a_min := hoff 0 (Nat.succ_pos _)
    have hoff' : ∀ j < front.length, a + 1 + j ≠ a_min := by
      intro j hj
      have := hoff (j + 1) (by rw [length_cons]; omega)
      omega
    have hdiv' : Dividing surviving num_actions gamma min_cost front :=
      fun q hq => hdiv q (mem_cons_of_mem p hq)
    have hindex : a + 1 + front.length = a + (p :: front).length := by
      rw [length_cons]
      omega
    rw [cons_append, squarecb_rule]
    cases hsurviving : surviving p with
    | false =>
      have htotal : total surviving num_actions gamma min_cost (p :: front)
          = total surviving num_actions gamma min_cost front := by
        rw [total, filter_cons_of_neg (by simp [hsurviving]), total]
      rw [if_pos rfl, ih (a + 1) total_weight hoff' hdiv', hindex, htotal]
      cases squarecb_rule surviving num_actions gamma min_cost a_min (a + (p :: front).length)
        (total_weight + total surviving num_actions gamma min_cost front) rest with
      | none => rfl
      | some r => simp [shared, hsurviving]
    | true =>
      have hshare : reciprocal (num_actions + gamma * (p.score - min_cost))
          = some (share num_actions gamma min_cost p) := by
        rw [reciprocal, if_neg (hdiv p mem_cons_self hsurviving), share]
      have htotal : total_weight + total surviving num_actions gamma min_cost (p :: front)
          = total_weight + share num_actions gamma min_cost p
            + total surviving num_actions gamma min_cost front := by
        rw [total, filter_cons_of_pos hsurviving, map_cons, sum_cons, total, add_assoc]
      rw [if_neg (by simp), if_neg hne, hshare, Option.bind_eq_bind, Option.bind_some,
        ih (a + 1) _ hoff' hdiv', hindex, htotal]
      cases squarecb_rule surviving num_actions gamma min_cost a_min (a + (p :: front).length)
        (total_weight + share num_actions gamma min_cost p
          + total surviving num_actions gamma min_cost front) rest with
      | none => rfl
      | some r => simp [shared, hsurviving]

theorem squarecb_rule_spec (hbest : surviving best = true)
    (hfront : Dividing surviving num_actions gamma min_cost front)
    (hback : Dividing surviving num_actions gamma min_cost back) :
    squarecb_rule surviving num_actions gamma min_cost front.length 0 0 (front ++ best :: back)
      = some (front.map (shared surviving num_actions gamma min_cost) ++
            best :: back.map (shared surviving num_actions gamma min_cost),
          total surviving num_actions gamma min_cost (front ++ back)) := by
  have htail := squarecb_rule_append [] (front.length + 1)
    (total surviving num_actions gamma min_cost front) (by intro j _; omega : ∀ j < back.length,
      front.length + 1 + j ≠ front.length) hback
  have htotal : total surviving num_actions gamma min_cost front + total surviving num_actions gamma min_cost back
      = total surviving num_actions gamma min_cost (front ++ back) := by
    rw [total, total, total, filter_append, map_append, sum_append]
  rw [squarecb_rule_append (best :: back) 0 0 (by intro j hj; omega) hfront, Nat.zero_add, zero_add,
    squarecb_rule, if_neg (by simp [hbest]), if_pos rfl]
  rw [append_nil] at htail
  rw [htail, squarecb_rule, htotal]
  simp

/-- A survivor that is divided by zero, and is not at `a_min`. -/
theorem squarecb_rule_none (a : Nat) (total_weight : ℚ) (hoff : ∀ j < preds.length, a + j ≠ a_min)
    (h : ¬Dividing surviving num_actions gamma min_cost preds) :
    squarecb_rule surviving num_actions gamma min_cost a_min a total_weight preds = none := by
  induction preds generalizing a total_weight with
  | nil => exact absurd (fun p hp => by cases hp) h
  | cons p preds ih =>
    have hne : a ≠ a_min := hoff 0 (Nat.succ_pos _)
    have hoff' : ∀ j < preds.length, a + 1 + j ≠ a_min := by
      intro j hj
      have := hoff (j + 1) (by rw [length_cons]; omega)
      omega
    rw [squarecb_rule]
    by_cases hrest : Dividing surviving num_actions gamma min_cost preds
    · -- it is the first one
      obtain ⟨hsurviving, hzero⟩ : surviving p = true ∧ num_actions + gamma * (p.score - min_cost) = 0 := by
        by_contra hp
        apply h
        intro q hq hq'
        rcases mem_cons.mp hq with rfl | hq
        · exact fun hzero => hp ⟨hq', hzero⟩
        · exact hrest q hq hq'
      rw [if_neg (by simp [hsurviving]), if_neg hne, reciprocal, if_pos hzero]
      rfl
    · split_ifs
      · rw [ih (a + 1) total_weight hoff' hrest]
        rfl
      · cases reciprocal (num_actions + gamma * (p.score - min_cost)) with
        | none => rfl
        | some pa =>
          rw [Option.bind_eq_bind, Option.bind_some, ih (a + 1) _ hoff' hrest]
          rfl

/-! ## The sum -/

theorem sum_shared (preds : List ActionScore) :
    ((preds.map (shared surviving num_actions gamma min_cost)).map ActionScore.score).sum
      = total surviving num_actions gamma min_cost preds := by
  induction preds with
  | nil => rfl
  | cons p preds ih =>
    rw [map_cons, map_cons, sum_cons, ih, total, total]
    cases hsurviving : surviving p with
    | false => rw [filter_cons_of_neg (by simp [hsurviving]), shared, hsurviving, if_neg (by simp), zero_add]
    | true => rw [filter_cons_of_pos hsurviving, map_cons, sum_cons, shared, hsurviving, if_pos rfl]

theorem total_append (front back : List ActionScore) :
    total surviving num_actions gamma min_cost (front ++ back)
      = total surviving num_actions gamma min_cost front + total surviving num_actions gamma min_cost back := by
  rw [total, total, total, filter_append, map_append, sum_append]

theorem take_rest_append (front : List ActionScore) (best : ActionScore) (back : List ActionScore)
    (total_weight : ℚ) :
    take_rest front.length total_weight (front ++ best :: back)
      = front ++ { best with score := 1 - total_weight } :: back := by
  induction front with
  | nil => rfl
  | cons p front ih =>
    rw [take_rest] at ih
    rw [take_rest, length_cons, cons_append, modify_succ_cons, ih, cons_append]

/-- What is left for the best action decides. -/
theorem rule_distribution {front back : List ActionScore} {best : ActionScore} {kept : Nat → Prop}
    (hbest : surviving best = true) (hkept : ∀ p ∈ front ++ best :: back, kept p.action ↔ surviving p = true)
    (hpos : ∀ p ∈ front ++ back, surviving p = true → 0 < num_actions + gamma * (p.score - min_cost)) :
    (∃ out total_weight,
      squarecb_rule surviving num_actions gamma min_cost front.length 0 0 (front ++ best :: back)
        = some (out, total_weight) ∧
      IsDistribution kept (front ++ best :: back) (take_rest front.length total_weight out)) ↔
      total surviving num_actions gamma min_cost (front ++ back) ≤ 1 := by
  have hfront : Dividing surviving num_actions gamma min_cost front :=
    fun p hp h => (hpos p (mem_append_left _ hp) h).ne'
  have hback : Dividing surviving num_actions gamma min_cost back :=
    fun p hp h => (hpos p (mem_append_right _ hp) h).ne'
  have hrest := take_rest_append (front.map (shared surviving num_actions gamma min_cost)) best
    (back.map (shared surviving num_actions gamma min_cost))
    (total surviving num_actions gamma min_cost (front ++ back))
  rw [length_map] at hrest
  rw [squarecb_rule_spec hbest hfront hback]
  constructor
  · rintro ⟨out, total_weight, heq, hdist⟩
    cases heq
    rw [hrest] at hdist
    have hnonneg := hdist.nonneg
      { best with score := 1 - total surviving num_actions gamma min_cost (front ++ back) }
      (mem_append_right _ mem_cons_self)
    dsimp only at hnonneg
    linarith
  · intro hle
    refine ⟨_, _, rfl, ?_⟩
    rw [hrest]
    -- The actions of the shares are those of the predictions.
    have hmem : ∀ p ∈ front.map (shared surviving num_actions gamma min_cost) ++
        { best with score := 1 - total surviving num_actions gamma min_cost (front ++ back) } ::
          back.map (shared surviving num_actions gamma min_cost),
        p = { best with score := 1 - total surviving num_actions gamma min_cost (front ++ back) } ∨
        ∃ q ∈ front ++ back, shared surviving num_actions gamma min_cost q = p := by
      intro p hp
      rcases mem_append.mp hp with hp | hp
      · obtain ⟨q, hq, rfl⟩ := mem_map.mp hp
        exact Or.inr ⟨q, mem_append_left _ hq, rfl⟩
      · rcases mem_cons.mp hp with rfl | hp
        · exact Or.inl rfl
        · obtain ⟨q, hq, rfl⟩ := mem_map.mp hp
          exact Or.inr ⟨q, mem_append_right _ hq, rfl⟩
    constructor
    case actions =>
      have hactions : ∀ l : List ActionScore,
          (l.map (shared surviving num_actions gamma min_cost)).map ActionScore.action
            = l.map ActionScore.action := by
        intro l
        rw [map_map]
        rfl
      rw [map_append, map_cons, hactions, hactions, map_append, map_cons]
    case nonneg =>
      intro p hp
      rcases hmem p hp with rfl | ⟨q, hq, rfl⟩
      · dsimp only
        linarith
      · dsimp only [shared]
        split_ifs with hsurviving
        · exact (one_div_pos.mpr (hpos q hq hsurviving)).le
        · exact le_refl _
    case sum_one =>
      rw [map_append, map_cons, sum_append, sum_cons, sum_shared, sum_shared,
        total_append]
      ring
    case eliminated =>
      intro p hp hnot
      rcases hmem p hp with rfl | ⟨q, hq, rfl⟩
      · exact absurd ((hkept best (mem_append_right _ mem_cons_self)).mpr hbest) hnot
      · have hq' : q ∈ front ++ best :: back := by
          rcases mem_append.mp hq with hq | hq
          · exact mem_append_left _ hq
          · exact mem_append_right _ (mem_cons_of_mem _ hq)
        have hsurviving : ¬surviving q = true := fun h => hnot ((hkept q hq').mpr h)
        dsimp only [shared]
        rw [if_neg hsurviving]

end rule

/-! ## Without elimination -/

/-- A distribution stays one above the minimum. -/
theorem enforce_distribution {epsilon : ℚ} {pmf : List ℚ} (hpos : 0 ≤ epsilon) (hle : epsilon ≤ 1)
    (hnonneg : ∀ p ∈ pmf, 0 ≤ p) (hsum : pmf.sum = 1) :
    (enforce_minimum_probability epsilon true pmf).2.length = pmf.length ∧
    (∀ q ∈ (enforce_minimum_probability epsilon true pmf).2, 0 ≤ q) ∧
    (enforce_minimum_probability epsilon true pmf).2.sum = 1 := by
  have hne : pmf ≠ [] := by
    rintro rfl
    simp at hsum
  have hsize : support_size true pmf = pmf.length := rfl
  have hlength : (0 : ℚ) < pmf.length := by exact_mod_cast length_pos_iff.mpr hne
  rcases hpos.eq_or_lt with rfl | hpos
  · -- nothing to do
    have heq : enforce_minimum_probability 0 true pmf = (S_EXPLORATION_OK, pmf) := by
      unfold enforce_minimum_probability
      rw [if_neg (by simpa using hne), if_pos rfl]
    rw [heq]
    exact ⟨rfl, hnonneg, hsum⟩
  · rcases le_or_gt epsilon nearly_one with hnearly | hnearly
    · have hsome : ∃ p ∈ pmf, considered true p = true := by
        obtain ⟨p, rest, rfl⟩ := exists_cons_of_ne_nil hne
        exact ⟨p, mem_cons_self, rfl⟩
      obtain ⟨out, heq, henforced⟩ := enforce_minimum_probability_enforces hpos hnearly hnonneg hsome
      rw [heq]
      refine ⟨henforced.length, fun q hq => ?_, henforced.sum⟩
      -- Every new value is at least the minimum.
      obtain ⟨i, hi, rfl⟩ := mem_iff_getElem.mp hq
      have hi' : i < pmf.length := by
        rw [← henforced.length]
        exact hi
      have hmem : (pmf[i], out[i]) ∈ pmf.zip out := by
        rw [mem_iff_getElem]
        exact ⟨i, by rw [length_zip]; exact lt_min hi' hi, getElem_zip⟩
      have hfloor := henforced.floor _ hmem rfl
      have hminimum : 0 < epsilon / support_size true pmf := div_pos hpos hlength
      exact (hminimum.trans_le hfloor).le
    · -- uniform exploration
      have hrange : ¬(epsilon < 0 ∨ epsilon > 1) := by
        rintro (h | h) <;> linarith
      have heq : enforce_minimum_probability epsilon true pmf
          = (S_EXPLORATION_OK, pmf.map fun _ => 1 / (pmf.length : ℚ)) := by
        unfold enforce_minimum_probability
        rw [if_neg (by simpa using hne), if_neg hpos.ne', if_neg hrange]
        rw [if_pos hnearly, hsize]
        rfl
      rw [heq]
      refine ⟨length_map _, fun q hq => ?_, ?_⟩
      · obtain ⟨_, _, rfl⟩ := mem_map.mp hq
        exact (one_div_pos.mpr hlength).le
      · rw [map_const', sum_replicate, nsmul_eq_mul, mul_one_div_cancel hlength.ne']

variable {scores : List ℚ}

theorem with_scores_action (h : scores.length = preds.length) :
    (with_scores preds scores).map ActionScore.action = preds.map ActionScore.action := by
  induction preds generalizing scores with
  | nil => rfl
  | cons p preds ih =>
    cases scores with
    | nil => cases h
    | cons score scores =>
      have htail := ih (Nat.succ.inj h)
      rw [with_scores] at htail
      rw [with_scores, zipWith_cons_cons, map_cons, htail, map_cons]

theorem with_scores_score (h : scores.length = preds.length) :
    (with_scores preds scores).map ActionScore.score = scores := by
  induction preds generalizing scores with
  | nil => rw [length_eq_zero_iff.mp h, with_scores, zipWith_nil_right, map_nil]
  | cons p preds ih =>
    cases scores with
    | nil => cases h
    | cons score scores =>
      have htail := ih (Nat.succ.inj h)
      rw [with_scores] at htail
      rw [with_scores, zipWith_cons_cons, map_cons, htail]

/-- Every share is at most one of as many as there are actions. -/
theorem total_le {num_actions gamma min_cost : ℚ} (hnum : 0 < num_actions) (hgamma : 0 ≤ gamma)
    (hleast : ∀ p ∈ preds, surviving p = true → min_cost ≤ p.score) :
    total surviving num_actions gamma min_cost preds ≤ preds.length * (1 / num_actions) := by
  have hshare : ∀ x ∈ (preds.filter surviving).map (share num_actions gamma min_cost), x ≤ 1 / num_actions := by
    intro x hx
    obtain ⟨p, hp, rfl⟩ := mem_map.mp hx
    obtain ⟨hp, hsurviving⟩ := mem_filter.mp hp
    have hgap : 0 ≤ gamma * (p.score - min_cost) :=
      mul_nonneg hgamma (sub_nonneg.mpr (hleast p hp hsurviving))
    exact one_div_le_one_div_of_le hnum (by linarith)
  have hsum := sum_le_card_nsmul _ _ hshare
  rw [length_map, nsmul_eq_mul] at hsum
  have hlength : ((preds.filter surviving).length : ℚ) ≤ preds.length := by
    exact_mod_cast length_filter_le _ _
  have hpos : 0 ≤ 1 / num_actions := (one_div_pos.mpr hnum).le
  calc total surviving num_actions gamma min_cost preds
      ≤ (preds.filter surviving).length * (1 / num_actions) := hsum
    _ ≤ preds.length * (1 / num_actions) := mul_le_mul_of_nonneg_right hlength hpos

theorem squarecb_distribution {gamma epsilon : ℚ} {kept : Nat → Prop} (hgamma : 0 ≤ gamma)
    (hpos : 0 ≤ epsilon) (hle : epsilon ≤ 1) (hne : preds ≠ []) (hkept : ∀ a, kept a) :
    ∃ out, squarecb gamma epsilon preds = some out ∧ IsDistribution kept preds out := by
  obtain ⟨first, rest, rfl⟩ := exists_cons_of_ne_nil hne
  obtain ⟨_, _, hleast, hfound⟩ := find_lowest_found (fun _ => true) (first :: rest) 0
    ⟨0, first.score, 0⟩
  set lowest := find_lowest (fun _ => true) 0 ⟨0, first.score, 0⟩ (first :: rest) with hlowest
  -- Some action has the least cost, if only the first one.
  obtain ⟨front, best, back, hsplit, hat⟩ : ∃ front best back, first :: rest = front ++ best :: back ∧
      lowest.a_min = front.length := by
    rcases hfound with hsame | ⟨_, front, best, back, hsplit, hat, _, _⟩
    · exact ⟨[], first, rest, rfl, by rw [hsame]; rfl⟩
    · exact ⟨front, best, back, hsplit, by rw [hat, Nat.zero_add]⟩
  have hnum : (0 : ℚ) < (first :: rest).length := by exact_mod_cast Nat.succ_pos _
  have hothers : ∀ p ∈ front ++ back, p ∈ first :: rest := by
    intro p hp
    rw [hsplit]
    rcases mem_append.mp hp with hp | hp
    · exact mem_append_left _ hp
    · exact mem_append_right _ (mem_cons_of_mem _ hp)
  have hshares : ∀ p ∈ front ++ back, (fun _ => true) p = true →
      0 < ((first :: rest).length : ℚ) + gamma * (p.score - lowest.min_cost) := by
    intro p hp _
    have hgap : 0 ≤ gamma * (p.score - lowest.min_cost) :=
      mul_nonneg hgamma (sub_nonneg.mpr (hleast p (hothers p hp) rfl))
    linarith
  have htotal : total (fun _ => true) (first :: rest).length gamma lowest.min_cost (front ++ back) ≤ 1 := by
    refine (total_le hnum hgamma fun p hp _ => hleast p (hothers p hp) rfl).trans ?_
    have hcount : ((front ++ back).length : ℚ) ≤ (first :: rest).length := by
      rw [hsplit]
      exact_mod_cast (by simp only [length_append, length_cons]; omega :
        (front ++ back).length ≤ (front ++ best :: back).length)
    rw [mul_one_div, div_le_one hnum]
    exact hcount
  obtain ⟨out, total_weight, hrule, hdist⟩ := ((@rule_distribution _ _ _ _ _ _ best kept) rfl
    (fun p _ => iff_of_true (hkept p.action) rfl) hshares).mpr htotal
  rw [← hsplit, ← hat] at hrule
  rw [← hsplit, ← hat] at hdist
  obtain ⟨hlength, hnonneg, hsum⟩ := enforce_distribution hpos hle
    (fun q hq => by
      obtain ⟨p, hp, rfl⟩ := mem_map.mp hq
      exact hdist.nonneg p hp) hdist.sum_one
  rw [length_map] at hlength
  refine ⟨with_scores (take_rest lowest.a_min total_weight out)
    (enforce_minimum_probability epsilon true
      ((take_rest lowest.a_min total_weight out).map ActionScore.score)).2, ?_, ?_⟩
  · rw [squarecb, head?_cons]
    simp only [Option.bind_eq_bind, Option.bind_some, ← hlowest, hrule]
    rfl
  · constructor
    case actions => rw [with_scores_action hlength, hdist.actions]
    case nonneg =>
      intro p hp
      apply hnonneg
      rw [← with_scores_score hlength]
      exact mem_map_of_mem hp
    case sum_one => rw [with_scores_score hlength, hsum]
    case eliminated => exact fun p _ hnot => absurd (hkept p.action) hnot

/-! ## The survivors -/

theorem le_min_max_cost (ranges : CostRanges) (x : ℚ) (num_actions : Nat) :
    x ≤ ranges.min_max_cost num_actions ↔ x ≤ FLT_MAX ∧ ∀ b < num_actions, x ≤ ranges.max_costs b := by
  induction num_actions with
  | zero => simp [CostRanges.min_max_cost]
  | succ n ih =>
    have hstep : ranges.min_max_cost (n + 1) = min (ranges.min_max_cost n) (ranges.max_costs n) := by
      rw [CostRanges.min_max_cost, range_succ, foldl_append, foldl_cons, foldl_nil,
        ← CostRanges.min_max_cost]
      rcases lt_or_ge (ranges.max_costs n) (ranges.min_max_cost n) with h | h
      · rw [if_pos h, min_eq_right h.le]
      · rw [if_neg h.not_gt, min_eq_left h]
    rw [hstep, le_min_iff, ih, and_assoc]
    refine and_congr_right fun _ =>
      ⟨fun ⟨hall, hlast⟩ b hb => ?_, fun hall => ⟨fun b hb => hall b (by omega), hall n (by omega)⟩⟩
    rcases Nat.lt_succ_iff_lt_or_eq.mp hb with hb | rfl
    · exact hall b hb
    · exact hlast

/-- The predictions of actions that survive. -/
def survives (ranges : CostRanges) (num_actions : Nat) (p : ActionScore) : Bool :=
  decide (ranges.Plausible num_actions p.action)

theorem Predicted.action_lt (h : Predicted ranges preds) (hp : p ∈ preds) :
    p.action < preds.length :=
  mem_range.mp (h.actions.mem_iff.mp (mem_map_of_mem hp))

theorem Predicted.survives_iff (h : Predicted ranges preds) (hp : p ∈ preds) :
    decide (ranges.min_costs p.action ≤ ranges.min_max_cost preds.length) = survives ranges preds.length p := by
  have haction := h.action_lt hp
  rw [survives, decide_eq_decide, le_min_max_cost]
  have hmax : ranges.min_costs p.action ≤ FLT_MAX :=
    (h.ranges_le _ haction).trans (h.costs_le _ haction)
  exact and_iff_right hmax

/-- The action with the least upper bound survives. -/
theorem Predicted.exists_survivor (h : Predicted ranges preds) :
    ∃ p ∈ preds, survives ranges preds.length p = true := by
  have hlength := length_pos_iff.mpr h.nonempty
  obtain ⟨a, ha, hleast⟩ := Finset.exists_min_image (Finset.range preds.length) ranges.max_costs
    ⟨0, Finset.mem_range.mpr hlength⟩
  rw [Finset.mem_range] at ha
  obtain ⟨p, hp, rfl⟩ := mem_map.mp (h.actions.mem_iff.mpr (mem_range.mpr ha))
  refine ⟨p, hp, decide_eq_true fun b hb => ?_⟩
  exact (h.ranges_le _ ha).trans (hleast b (Finset.mem_range.mpr hb))

/-! ## With elimination -/

/-- With `xs` the costs of the survivors in the order of the predictions, and `k` the number of
    those that are less than all before them: what the survivors weigh by `k` leaves something
    for the best one. -/
def Covered (gamma : ℚ) (xs : List ℚ) : Prop :=
  ∃ m ∈ xs, m < FLT_MAX ∧ (∀ x ∈ xs, m ≤ x) ∧
    (xs.map fun x => 1 / (records FLT_MAX xs + gamma * (x - m))).sum ≤ 1 + 1 / (records FLT_MAX xs : ℚ)

/-- Only the first of the predictions survives, or the weights of the survivors are covered. -/
def ElimSound (gamma : ℚ) (ranges : CostRanges) (preds : List ActionScore) : Prop :=
  (∀ p ∈ preds.tail, survives ranges preds.length p = false) ∨
    Covered gamma (surviving_scores (survives ranges preds.length) preds)

/-- The weight of the best action is the one that is left out. -/
theorem total_eq {num_actions gamma : ℚ} (hbest : surviving best = true) :
    total surviving num_actions gamma best.score (front ++ back) + 1 / num_actions
      = ((surviving_scores surviving (front ++ best :: back)).map fun x =>
          1 / (num_actions + gamma * (x - best.score))).sum := by
  have hall : ∀ l : List ActionScore, total surviving num_actions gamma best.score l
      = ((surviving_scores surviving l).map fun x => 1 / (num_actions + gamma * (x - best.score))).sum := by
    intro l
    rw [total, surviving_scores, map_map]
    rfl
  have hown : share num_actions gamma best.score best = 1 / num_actions := by
    rw [share, sub_self, mul_zero, add_zero]
  rw [← hall, total_append, total_append, total, total, total, filter_cons_of_pos hbest, map_cons,
    sum_cons, hown]
  ring

variable {surviving' : ActionScore → Bool}

theorem squarecb_rule_congr {num_actions gamma min_cost : ℚ} {a_min : Nat}
    (h : ∀ p ∈ preds, surviving p = surviving' p) (a : Nat) (total_weight : ℚ) :
    squarecb_rule surviving num_actions gamma min_cost a_min a total_weight preds
      = squarecb_rule surviving' num_actions gamma min_cost a_min a total_weight preds := by
  induction preds generalizing a total_weight with
  | nil => rfl
  | cons p preds ih =>
    have hrest := fun a t => ih (fun q hq => h q (mem_cons_of_mem p hq)) a t
    rw [squarecb_rule, squarecb_rule, h p mem_cons_self]
    simp only [hrest]

theorem find_lowest_congr (h : ∀ p ∈ preds, surviving p = surviving' p) (a : Nat) (s : Lowest) :
    find_lowest surviving a s preds = find_lowest surviving' a s preds := by
  induction preds generalizing a s with
  | nil => rfl
  | cons p preds ih =>
    have hrest := fun a s => ih (fun q hq => h q (mem_cons_of_mem p hq)) a s
    rw [find_lowest, find_lowest, h p mem_cons_self]
    simp only [hrest]

theorem squarecb_elim_eq (gamma : ℚ) (h : Predicted ranges preds) :
    squarecb_elim gamma ranges preds =
      let lowest := find_lowest (survives ranges preds.length) 0 ⟨0, FLT_MAX, 0⟩ preds
      (squarecb_rule (survives ranges preds.length) lowest.num_surviving_actions gamma lowest.min_cost
        lowest.a_min 0 0 preds).map fun r => take_rest lowest.a_min r.2 r.1 := by
  have hcongr : ∀ p ∈ preds, (fun p : ActionScore =>
      decide (ranges.min_costs p.action ≤ ranges.min_max_cost preds.length)) p = survives ranges preds.length p :=
    fun p hp => h.survives_iff hp
  rw [squarecb_elim]
  dsimp only
  rw [find_lowest_congr hcongr, squarecb_rule_congr hcongr]
  cases squarecb_rule (survives ranges preds.length) _ gamma _ _ 0 0 preds with
  | none => rfl
  | some r => rfl

/-- A least cost was found: the best action is where it is. -/
theorem elim_distribution_of_found {gamma : ℚ} {kept : Nat → Prop} {front back : List ActionScore}
    {best : ActionScore} {k : Nat} (hgamma : 0 ≤ gamma) (hk : 0 < k) (hbest : surviving best = true)
    (hleast : ∀ p ∈ front ++ best :: back, surviving p = true → best.score ≤ p.score)
    (hkept : ∀ p ∈ front ++ best :: back, kept p.action ↔ surviving p = true) :
    (∃ out total_weight,
      squarecb_rule surviving k gamma best.score front.length 0 0 (front ++ best :: back)
        = some (out, total_weight) ∧
      IsDistribution kept (front ++ best :: back) (take_rest front.length total_weight out)) ↔
      ((surviving_scores surviving (front ++ best :: back)).map fun x =>
        1 / (k + gamma * (x - best.score))).sum ≤ 1 + 1 / (k : ℚ) := by
  have hnum : (0 : ℚ) < k := by exact_mod_cast hk
  have hothers : ∀ p ∈ front ++ back, p ∈ front ++ best :: back := by
    intro p hp
    rcases mem_append.mp hp with hp | hp
    · exact mem_append_left _ hp
    · exact mem_append_right _ (mem_cons_of_mem _ hp)
  have hshares : ∀ p ∈ front ++ back, surviving p = true → 0 < (k : ℚ) + gamma * (p.score - best.score) := by
    intro p hp hsurviving
    have hgap : 0 ≤ gamma * (p.score - best.score) :=
      mul_nonneg hgamma (sub_nonneg.mpr (hleast p (hothers p hp) hsurviving))
    linarith
  rw [rule_distribution hbest hkept hshares, ← total_eq hbest]
  exact ⟨fun h => by linarith, fun h => by linarith⟩

theorem mem_surviving_scores (hp : p ∈ preds) (h : surviving p = true) :
    p.score ∈ surviving_scores surviving preds :=
  mem_map_of_mem (mem_filter.mpr ⟨hp, h⟩)

/-- The weights are covered with respect to the least cost, whichever one it is called. -/
theorem covered_iff {gamma m : ℚ} {xs : List ℚ} (hm : m ∈ xs) (hlt : m < FLT_MAX) (hleast : ∀ x ∈ xs, m ≤ x) :
    Covered gamma xs ↔ (xs.map fun x => 1 / (records FLT_MAX xs + gamma * (x - m))).sum
      ≤ 1 + 1 / (records FLT_MAX xs : ℚ) := by
  constructor
  · rintro ⟨m', hm', _, hleast', h⟩
    rwa [le_antisymm (hleast' m hm) (hleast m' hm')] at h
  · intro h
    exact ⟨m, hm, hlt, hleast, h⟩

theorem squarecb_elim_distribution {gamma : ℚ} (hgamma : 0 ≤ gamma) (h : Predicted ranges preds) :
    (∃ out, squarecb_elim gamma ranges preds = some out ∧
      IsDistribution (ranges.Plausible preds.length) preds out) ↔ ElimSound gamma ranges preds := by
  obtain ⟨hcount, _, hleast, hfound⟩ := find_lowest_found (survives ranges preds.length) preds 0 ⟨0, FLT_MAX, 0⟩
  rw [squarecb_elim_eq gamma h]
  have hkept : ∀ p : ActionScore, ranges.Plausible preds.length p.action ↔ survives ranges preds.length p = true :=
    fun p => (decide_eq_true_iff).symm
  simp only [Option.map_eq_some_iff]
  obtain ⟨s, hs⟩ : ∃ s, s = find_lowest (survives ranges preds.length) 0 ⟨0, FLT_MAX, 0⟩ preds := ⟨_, rfl⟩
  rw [← hs] at hcount hleast hfound ⊢
  generalize hsurviving : survives ranges preds.length = surviving at *
  have hswap : (∃ out, (∃ r, squarecb_rule surviving s.num_surviving_actions gamma s.min_cost s.a_min 0 0 preds
        = some r ∧ take_rest s.a_min r.2 r.1 = out) ∧ IsDistribution (ranges.Plausible preds.length) preds out) ↔
      ∃ out total_weight, squarecb_rule surviving s.num_surviving_actions gamma s.min_cost s.a_min 0 0 preds
        = some (out, total_weight) ∧
        IsDistribution (ranges.Plausible preds.length) preds (take_rest s.a_min total_weight out) := by
    constructor
    · rintro ⟨_, ⟨r, hr, rfl⟩, hdist⟩
      exact ⟨r.1, r.2, hr, hdist⟩
    · rintro ⟨out, total_weight, hr, hdist⟩
      exact ⟨_, ⟨(out, total_weight), hr, rfl⟩, hdist⟩
  rw [hswap, ElimSound, hsurviving]
  rw [Nat.zero_add] at hcount
  rcases hfound with hsame | ⟨hlt, front, best, back, hsplit, hat, hbest, hscore⟩
  · -- No survivor costs less than `FLT_MAX`, so that the first action is taken for the best.
    have hnone : ∀ p ∈ preds, surviving p = true → p.score = FLT_MAX := by
      intro p hp hp'
      refine le_antisymm (h.scores_le p hp) ?_
      have := hleast p hp hp'
      rwa [hsame] at this
    have hnot : ¬Covered gamma (surviving_scores surviving preds) := by
      rintro ⟨m, hm, hlt, _⟩
      obtain ⟨p, hp, rfl⟩ := mem_map.mp hm
      obtain ⟨hp, hp'⟩ := mem_filter.mp hp
      exact hlt.ne (hnone p hp hp')
    obtain ⟨first, rest, rfl⟩ := exists_cons_of_ne_nil h.nonempty
    rw [tail_cons, or_iff_left hnot, hsame]
    constructor
    · rintro ⟨out, total_weight, hrule, _⟩
      by_contra hsome
      push Not at hsome
      obtain ⟨p, hp, hp'⟩ := hsome
      rw [ne_eq, Bool.not_eq_false] at hp'
      -- Another survivor is divided by zero.
      have hdiv : ¬Dividing surviving ((0 : Nat) : ℚ) gamma FLT_MAX rest := by
        intro hdiv
        apply hdiv p hp hp'
        rw [hnone p (mem_cons_of_mem _ hp) hp', sub_self, mul_zero, Nat.cast_zero, add_zero]
      have hoff : ∀ j < rest.length, 0 + 1 + j ≠ 0 := by
        intro j _
        omega
      rw [squarecb_rule] at hrule
      simp only [squarecb_rule_none (0 + 1) _ hoff hdiv] at hrule
      split at hrule
      · cases hrule
      · cases hrule
    · intro hrest
      have hfirst : surviving first = true := by
        obtain ⟨p, hp, hp'⟩ := h.exists_survivor
        rw [hsurviving] at hp'
        rcases mem_cons.mp hp with rfl | hp
        · exact hp'
        · rw [hrest p hp] at hp'
          cases hp'
      have hpos : ∀ p ∈ [] ++ rest, surviving p = true → 0 < ((0 : Nat) : ℚ) + gamma * (p.score - FLT_MAX) := by
        intro p hp hp'
        rw [hrest p hp] at hp'
        cases hp'
      have htotal : total surviving ((0 : Nat) : ℚ) gamma FLT_MAX ([] ++ rest) ≤ 1 := by
        rw [total, nil_append, filter_eq_nil_iff.mpr]
        · simp
        · intro p hp
          rw [hrest p hp]
          simp
      exact ((@rule_distribution _ _ _ _ ([]) _ _ _) hfirst (fun p _ => hkept p) hpos).mpr htotal
  · have hleast' : ∀ p ∈ preds, surviving p = true → best.score ≤ p.score := by
      rw [hscore]
      exact hleast
    have hmem : best ∈ preds := by
      rw [hsplit]
      exact mem_append_right _ mem_cons_self
    have hxs : ∀ x ∈ surviving_scores surviving preds, best.score ≤ x := by
      intro x hx
      obtain ⟨p, hp, rfl⟩ := mem_map.mp hx
      obtain ⟨hp, hp'⟩ := mem_filter.mp hp
      exact hleast' p hp hp'
    have hmin := mem_surviving_scores hmem hbest
    have hlt' : best.score < FLT_MAX := by
      rw [hscore]
      exact hlt
    have hk : 0 < records FLT_MAX (surviving_scores surviving preds) := records_pos ⟨_, hmin, hlt'⟩
    have hiff := (@covered_iff gamma _ _) hmin hlt' hxs
    have hdist := (@elim_distribution_of_found _ _ (ranges.Plausible preds.length) front back _ _)
      hgamma hk hbest (by rw [← hsplit]; exact hleast')
      (fun p _ => hkept p)
    rw [← hsplit] at hdist
    rw [hcount, ← hscore, hat, Nat.zero_add, hdist, ← hiff]
    refine ⟨Or.inr, fun hor => hor.elim (fun hfirst => ?_) id⟩
    -- Where only the first action survives, it is the best one, and weighs one.
    have hnil : front = [] := by
      cases front with
      | nil => rfl
      | cons p front =>
        rw [hsplit, cons_append, tail_cons] at hfirst
        have := hfirst best (mem_append_right _ mem_cons_self)
        rw [hbest] at this
        cases this
    rw [hsplit, hnil, nil_append, tail_cons] at hfirst
    have hone : surviving_scores surviving preds = [best.score] := by
      rw [hsplit, hnil, nil_append, surviving_scores_of_pos hbest, surviving_scores,
        filter_eq_nil_iff.mpr (fun p hp => by rw [hfirst p hp]; simp), map_nil]
    rw [hiff, hone]
    simp [records, hlt']

end VW.Explore
