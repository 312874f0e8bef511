import Mathlib.Data.Rat.Cast.Order

/-! # Confidence sequences

    `core/confidence_sequence_robust.cc`: the statistics that an estimator
    collects. The histogram and the bounds use logarithms and powers of doubles;
    they are given as functions. The members that no function changes after the
    construction are left out.
-/

namespace VW.Estimators

/-- `std::map<std::pair<uint64_t, bool>, double>`. -/
abbrev Histogram := List ((Nat × Bool) × ℚ)

structure GTilde where
  sum_x : ℚ
  sum_low_v : ℚ
  sum_mid_v : ℚ
  t : Nat
  sum_v_histo : Histogram

structure CountableDiscreteBase where
  t : Nat
  gt : GTilde

structure ConfidenceSequenceRobust where
  update_count : Nat
  last_w : ℚ
  last_r : ℚ
  lower : CountableDiscreteBase
  upper : CountableDiscreteBase

/-- The functions on doubles, and what a histogram is after it was moved from. -/
structure Numerics where
  histo_insert : Histogram → ℚ → Histogram
  get_ci : CountableDiscreteBase → ℚ
  moved_from : Histogram → Histogram

variable (num : Numerics)

def GTilde.add_obs (g : GTilde) (x : ℚ) : GTilde :=
  let x_hat := (g.sum_x + 1 / 2) / (g.t + 1)
  let error := x - min 1 x_hat
  let g :=
    if error ≤ 0 then { g with sum_low_v := g.sum_low_v + error ^ 2 }
    else if error ≤ 1 then { g with sum_mid_v := g.sum_mid_v + error ^ 2 }
    else { g with sum_v_histo := num.histo_insert g.sum_v_histo error }
  { g with sum_x := g.sum_x + x, t := g.t + 1 }

def GTilde.reset_stats (_ : GTilde) : GTilde := ⟨0, 0, 0, 0, []⟩

def CountableDiscreteBase.add_obs (b : CountableDiscreteBase) (x : ℚ) : CountableDiscreteBase :=
  { t := b.t + 1, gt := b.gt.add_obs num x }

def CountableDiscreteBase.reset_stats (b : CountableDiscreteBase) : CountableDiscreteBase :=
  { t := 0, gt := b.gt.reset_stats }

namespace ConfidenceSequenceRobust

/-- The constructor. -/
def initial : ConfidenceSequenceRobust :=
  let base : CountableDiscreteBase := ⟨0, 0, 0, 0, 0, []⟩
  { update_count := 0, last_w := 0, last_r := 0, lower := base, upper := base }

def update (e : ConfidenceSequenceRobust) (w r : ℚ) : ConfidenceSequenceRobust :=
  { update_count := e.update_count + 1
    last_w := w
    last_r := r
    lower := e.lower.add_obs num (w * r)
    upper := e.upper.add_obs num (w * (1 - r)) }

def reset_stats (e : ConfidenceSequenceRobust) : ConfidenceSequenceRobust :=
  { update_count := 0
    last_w := 0
    last_r := 0
    lower := e.lower.reset_stats
    upper := e.upper.reset_stats }

def lower_bound (e : ConfidenceSequenceRobust) : ℚ := num.get_ci e.lower

def upper_bound (e : ConfidenceSequenceRobust) : ℚ := 1 - num.get_ci e.upper

/-- What is left behind by a move: the histograms are moved, the numbers are copied. -/
def moved_from (e : ConfidenceSequenceRobust) : ConfidenceSequenceRobust :=
  let leave (b : CountableDiscreteBase) : CountableDiscreteBase :=
    { b with gt := { b.gt with sum_v_histo := num.moved_from b.gt.sum_v_histo } }
  { e with lower := leave e.lower, upper := leave e.upper }

@[simp] theorem update_count_update (e : ConfidenceSequenceRobust) (w r : ℚ) :
    (e.update num w r).update_count = e.update_count + 1 := rfl

end ConfidenceSequenceRobust

end VW.Estimators
