import VowpalWabbit.EpsilonDecay.Shift

/-! # Runs of learn steps

    The slots stay a permutation, the table a triangle, and the estimators of a
    column have as many updates as each other: a step updates all of them or
    none, and a shift moves whole columns. A promotion keeps what it should as
    long as no learner below has more than one row of weights
    (`runs_keep_books`). Otherwise the rows that are cleared belong to several
    models, the new champion among them (`promotion_clears_champion`).
-/

open Cpp VW.Estimators VW.MultiModel

namespace VW.EpsilonDecay

open List EpsilonDecayData

variable {V : Type} (opts : Options)

/-- The estimators of a column have seen the same number of updates. -/
def CountsAgree (t : Table ConfidenceSequenceRobust) : Prop :=
  ∀ c r r', ∀ e ∈ t.get r c, ∀ e' ∈ t.get r' c, e.update_count = e'.update_count

/-- The invariant of the bookkeeping. -/
structure Consistent (s : Stack) (d : EpsilonDecayData V) : Prop extends WellFormed s d where
  counts : CountsAgree d.conf_seq_estimators

/-- The learners below give scores to the same actions for every model. -/
def SameActions (base : Learner V) : Prop :=
  ∀ action epsilon epsilon' slot slot' data data',
    (∃ a ∈ (base epsilon slot data).2, a.action = action) →
      ∃ a ∈ (base epsilon' slot' data').2, a.action = action

/-- The states after learn steps. -/
inductive Reachable [Zero V] (s : Stack) : EpsilonDecayData V → Prop
  | initial (data : Nat → V) :
      Reachable s (.initial s.inner s.total_feature_width (s.parameters data))
  | learn {d : EpsilonDecayData V} (base : Learner V) (examples : List Example)
      (hsame : SameActions base) (h : Reachable s d) : Reachable s (d.learn opts base examples)

/-! ## The initial state -/

theorem get_initial (m r c : Nat) :
    ∀ e ∈ Table.get ((range m).map fun i =>
      replicate (i + 1) ConfidenceSequenceRobust.initial) r c, e = .initial := by
  intro e he
  unfold Table.get at he
  obtain ⟨row, hrow, he⟩ := Option.bind_eq_some_iff.mp he
  obtain ⟨i, _, rfl⟩ := mem_map.mp (mem_of_getElem? hrow)
  exact eq_of_mem_replicate (mem_of_getElem? he)

theorem consistent_initial (s : Stack) (data : Nat → V) :
    Consistent s (.initial s.inner s.total_feature_width (s.parameters data)) where
  indices := List.Perm.refl _
  triangular := by
    unfold Triangular Table.shape initial
    rw [map_map]
    apply map_congr_left
    intro i _
    exact length_replicate
  weights := rfl
  feature_width := rfl
  model_count := rfl
  counts := by
    intro c r r' e he e' he'
    rw [get_initial _ _ _ e he, get_initial _ _ _ e' he']

/-! ## Updates -/

/-- A model is updated when the scores list the logged action. -/
theorem update_model_cases (base : Learner V) (labelled_action : Nat) (logged : CbClass) (r : ℚ)
    (model_ind : Nat) {s : Stack} {d : EpsilonDecayData V} (h : WellFormed s d) :
    let d' := d.update_model opts base labelled_action logged r model_ind
    WellFormed s d' ∧
      ((¬∃ epsilon slot data, ∃ a ∈ (base epsilon slot data).2, a.action = labelled_action) →
        d'.conf_seq_estimators = d.conf_seq_estimators) ∧
      ((∀ epsilon slot data, ∃ a ∈ (base epsilon slot data).2, a.action = labelled_action) →
        ∃ w, d'.conf_seq_estimators = for_range (model_ind + 1) (fun t estimator_ind =>
          t.update model_ind estimator_ind (·.update opts.num w r)) d.conf_seq_estimators) := by
  intro d'
  have hunfold : d' = d.update_model opts base labelled_action logged r model_ind := rfl
  unfold update_model at hunfold
  generalize (if opts.constant_epsilon = true then none else some _ : Option ℚ) = epsilon at hunfold
  generalize d._weight_indices.getD model_ind 0 = slot at hunfold
  have hweights : ∀ data : Nat → V, { d._weights with data := data } = s.parameters data := by
    intro data
    rw [h.weights]
    rfl
  simp only [hweights] at hunfold
  clear_value d'
  split at hunfold
  case h_1 hnone =>
    rw [find?_eq_none] at hnone
    subst hunfold
    refine ⟨⟨h.indices, h.triangular, rfl, h.feature_width, h.model_count⟩, fun _ => rfl, ?_⟩
    intro hall
    obtain ⟨a, ha, haction⟩ := hall epsilon slot d._weights.data
    exact absurd (by simp [haction]) (hnone a ha)
  case h_2 a hsome =>
    subst hunfold
    refine ⟨⟨h.indices, ?_, rfl, h.feature_width, h.model_count⟩, ?_, fun _ => ⟨_, rfl⟩⟩
    · exact (Table.get_update_row _ _ _ _ 0 0).1.trans h.triangular
    · intro hnot
      have haction := find?_some hsome
      exact absurd ⟨epsilon, slot, _, a, mem_of_find?_eq_some hsome, by simpa using haction⟩ hnot

variable {n : Nat}

/-- All models below `n` are updated, or none is. -/
theorem update_models_cases (base : Learner V) (labelled_action : Nat) (logged : CbClass) (r : ℚ)
    {s : Stack} {d : EpsilonDecayData V} (h : WellFormed s d) :
    let d' := update_models opts base labelled_action logged r n d
    WellFormed s d' ∧
      ((¬∃ epsilon slot data, ∃ a ∈ (base epsilon slot data).2, a.action = labelled_action) →
        d'.conf_seq_estimators = d.conf_seq_estimators) ∧
      ((∀ epsilon slot data, ∃ a ∈ (base epsilon slot data).2, a.action = labelled_action) →
        ∀ r c, ∀ e' ∈ d'.conf_seq_estimators.get r c, ∃ e ∈ d.conf_seq_estimators.get r c,
          e'.update_count = e.update_count + if r < n then 1 else 0) := by
  intro d'
  induction n generalizing d with
  | zero => exact ⟨h, fun _ => rfl, fun _ r c e he => ⟨e, he, by simp⟩⟩
  | succ n ih =>
    obtain ⟨hwell, hmiss, hhit⟩ := update_model_cases opts base labelled_action logged r n h
    obtain ⟨hwell', hmiss', hhit'⟩ := ih hwell
    refine ⟨hwell', fun hnot => (hmiss' hnot).trans (hmiss hnot), ?_⟩
    intro hall r' c e' he'
    obtain ⟨e₁, he₁, hcount₁⟩ := hhit' hall r' c e' he'
    obtain ⟨w, hw⟩ := hhit hall
    rw [hw, (Table.get_update_row _ _ _ _ r' c).2] at he₁
    split at he₁
    case isTrue hrow =>
      obtain ⟨e, he, rfl⟩ := Option.map_eq_some_iff.mp he₁
      refine ⟨e, he, ?_⟩
      rw [hcount₁, ConfidenceSequenceRobust.update_count_update, hrow.1, if_neg (Nat.lt_irrefl n),
        if_pos (Nat.lt_succ_self n)]
    case isFalse hrow =>
      refine ⟨e₁, he₁, ?_⟩
      rw [hcount₁]
      congr 1
      -- the entries of row `n` are all in the columns up to `n`
      have hplace := (h.triangular.isSome_iff r' c).mp (Option.isSome_of_mem he₁)
      apply if_congr _ rfl rfl
      omega

theorem update_weights_consistent (base : Learner V) (hsame : SameActions base)
    (examples : List Example) {s : Stack} {d : EpsilonDecayData V} (h : Consistent s d) :
    Consistent s (d.update_weights opts base examples) := by
  unfold update_weights
  split
  case h_1 => exact h
  case h_2 labelled_action _ =>
    split
    case h_1 => exact h
    case h_2 logged _ =>
      obtain ⟨hwell, hmiss, hhit⟩ := update_models_cases opts base labelled_action logged
        (let r := if opts.reward_as_cost then logged.cost else -logged.cost
          if r < 0 ∨ r > 1 then max 0 (min r 1) else r) (n := d.model_count) h.toWellFormed
      refine ⟨hwell, ?_⟩
      by_cases hsome : ∃ epsilon slot data, ∃ a ∈ (base epsilon slot data).2, a.action = labelled_action
      · obtain ⟨epsilon, slot, data, hfound⟩ := hsome
        have hall := fun epsilon' slot' data' =>
          hsame labelled_action epsilon epsilon' slot slot' data data' hfound
        intro c r r' e he e' he'
        have hrows : ∀ r, ∀ x ∈ d.conf_seq_estimators.get r c, r < d.model_count := by
          intro r x hx
          have hplace := (h.triangular.isSome_iff r c).mp (Option.isSome_of_mem hx)
          unfold model_count
          rw [h.triangular.length]
          exact hplace.1
        obtain ⟨e₀, he₀, hcount⟩ := hhit hall r c e he
        obtain ⟨e₀', he₀', hcount'⟩ := hhit hall r' c e' he'
        rw [if_pos (hrows r e₀ he₀)] at hcount
        rw [if_pos (hrows r' e₀' he₀')] at hcount'
        rw [hcount, hcount', h.counts c r r' e₀ he₀ e₀' he₀']
      · show CountsAgree (update_models _ _ _ _ _ _ _).conf_seq_estimators
        rw [hmiss hsome]
        exact h.counts

/-! ## Shifts -/

variable {swap_dist : Nat}

/-- Where the column that ends as `c` was. -/
theorem exists_old_index {r : Nat} (h : swap_dist ≤ r) :
    ∃ r₀, Remains n swap_dist r₀ ∧ new_index n swap_dist r₀ = r := by
  by_cases hr : r < n + swap_dist
  · exact ⟨r - swap_dist, Or.inl (by omega), by rw [new_index, if_pos (by omega)]; omega⟩
  · exact ⟨r, Or.inr (by omega), by rw [new_index, if_neg (by omega)]⟩

theorem new_index_le {r c : Nat} (hc : Remains n swap_dist c)
    (h : new_index n swap_dist c ≤ new_index n swap_dist r) : c ≤ r := by
  unfold new_index at h
  unfold Remains at hc
  split at h <;> split at h <;> omega

theorem Shifted.counts [Zero V] {s : Stack} {d d' : EpsilonDecayData V}
    (h : Shifted s n swap_dist d d') (htriangular : Triangular s.inner d'.conf_seq_estimators)
    (hcounts : CountsAgree d.conf_seq_estimators) : CountsAgree d'.conf_seq_estimators := by
  intro c r r' e he e' he'
  by_cases hc : c < swap_dist
  · rw [h.new_estimator r c hc e he, h.new_estimator r' c hc e' he']
  · -- the column was another one before, and so were the rows
    have hold : ∀ r, ∀ x ∈ d'.conf_seq_estimators.get r c, ∀ c₀, Remains n swap_dist c₀ →
        new_index n swap_dist c₀ = c → ∃ r₀, x ∈ d.conf_seq_estimators.get r₀ c₀ := by
      rintro r x hx c₀ hc₀ rfl
      have hplace := (htriangular.isSome_iff _ _).mp (Option.isSome_of_mem hx)
      obtain ⟨r₀, hr₀, rfl⟩ := exists_old_index (n := n) (show swap_dist ≤ r by omega)
      rw [h.estimator r₀ c₀ hr₀ hc₀ (new_index_le hc₀ hplace.2)] at hx
      exact ⟨r₀, hx⟩
    obtain ⟨c₀, hc₀, hnew⟩ := exists_old_index (n := n) (not_lt.mp hc)
    obtain ⟨r₀, hr₀⟩ := hold r e he c₀ hc₀ hnew
    obtain ⟨r₀', hr₀'⟩ := hold r' e' he' c₀ hc₀ hnew
    exact hcounts c₀ r₀ r₀' e hr₀ e' hr₀'

/-- A challenger is a model below the champion. -/
theorem last_challenger_lt {d : EpsilonDecayData V} {test : Nat → Bool} {i : Nat}
    (h : d.last_challenger test = some i) : i + 1 < d.model_count := by
  have hi := mem_of_find?_eq_some h
  rw [mem_reverse, mem_range] at hi
  omega

section Steps

variable [Zero V] {s : Stack} {d : EpsilonDecayData V}

/-- A shift keeps the invariant. -/
theorem shift_model_consistent (hfits : s.Fits) (hbelow : s.below = 1) (h : Consistent s d)
    (hdist : 0 < swap_dist) (hcase : swap_dist = 1 ∧ n < s.inner ∨ n + swap_dist = s.inner) :
    Consistent s (d.shift_model opts n swap_dist s.inner) ∧
      Shifted s n swap_dist d (d.shift_model opts n swap_dist s.inner) := by
  obtain ⟨hwell, hshifted⟩ := shift_model_shifts opts hfits hbelow h.toWellFormed hdist hcase
  exact ⟨⟨hwell, hshifted.counts hwell.triangular h.counts⟩, hshifted⟩

/-- The winner is the champion afterwards; it and the challengers below it remain. -/
structure Promoted (s : Stack) (i : Nat) (d d' : EpsilonDecayData V) : Prop extends
    Shifted s (i + 1) (s.inner - 1 - i) d d' where
  champion : new_index (i + 1) (s.inner - 1 - i) i = s.inner - 1

theorem check_estimator_bounds_cases (hfits : s.Fits) (hbelow : s.inner = 1 ∨ s.below = 1) (h : Consistent s d) :
    Consistent s (d.check_estimator_bounds opts) ∧
      match d.last_challenger (d.beats_champion opts) with
      | none => d.check_estimator_bounds opts = d
      | some i => Promoted s i d (d.check_estimator_bounds opts) := by
  have hcount : d.model_count = s.inner := h.triangular.length
  unfold check_estimator_bounds
  rw [hcount]
  cases hi : d.last_challenger (d.beats_champion opts) with
  | none => exact ⟨h, rfl⟩
  | some i =>
    have hlt := last_challenger_lt hi
    obtain ⟨hconsistent, hshifted⟩ := shift_model_consistent opts hfits
      (hbelow.resolve_left (by omega)) h
      (show 0 < s.inner - 1 - i by omega) (Or.inr (show i + 1 + (s.inner - 1 - i) = s.inner by omega))
    refine ⟨hconsistent, ⟨hshifted, ?_⟩⟩
    rw [new_index, if_pos (Nat.lt_succ_self i)]
    omega

/-- All models but the one beyond its horizon remain. -/
theorem check_horizon_bounds_cases (hfits : s.Fits) (hbelow : s.inner = 1 ∨ s.below = 1) (h : Consistent s d) :
    Consistent s (d.check_horizon_bounds opts) ∧
      match d.last_challenger (d.exceeds_horizon opts) with
      | none => d.check_horizon_bounds opts = d
      | some i => Shifted s i 1 d (d.check_horizon_bounds opts) := by
  have hcount : d.model_count = s.inner := h.triangular.length
  unfold check_horizon_bounds
  rw [hcount]
  cases hi : d.last_challenger (d.exceeds_horizon opts) with
  | none => exact ⟨h, rfl⟩
  | some i =>
    have hlt := last_challenger_lt hi
    exact shift_model_consistent opts hfits (hbelow.resolve_left (by omega)) h Nat.one_pos
      (Or.inl ⟨rfl, show i < s.inner by omega⟩)

/-- What the two checks of a learn step do, one after the other. -/
structure ChecksKeep (s : Stack) (d : EpsilonDecayData V) : Prop where
  promotion : match d.last_challenger (d.beats_champion opts) with
    | none => d.check_estimator_bounds opts = d
    | some i => Promoted s i d (d.check_estimator_bounds opts)
  between : Consistent s (d.check_estimator_bounds opts)
  removal : match (d.check_estimator_bounds opts).last_challenger
        ((d.check_estimator_bounds opts).exceeds_horizon opts) with
    | none => (d.check_estimator_bounds opts).check_horizon_bounds opts = d.check_estimator_bounds opts
    | some i => Shifted s i 1 (d.check_estimator_bounds opts)
        ((d.check_estimator_bounds opts).check_horizon_bounds opts)

theorem checks_keep (hfits : s.Fits) (hbelow : s.inner = 1 ∨ s.below = 1) (h : Consistent s d) :
    ChecksKeep opts s d := by
  obtain ⟨hbetween, hpromotion⟩ := check_estimator_bounds_cases opts hfits hbelow h
  exact ⟨hpromotion, hbetween, (check_horizon_bounds_cases opts hfits hbelow hbetween).2⟩

theorem reachable_consistent (hfits : s.Fits) (hbelow : s.inner = 1 ∨ s.below = 1) (h : Reachable opts s d) :
    Consistent s d := by
  induction h with
  | initial data => exact consistent_initial s data
  | learn base examples hsame _ ih =>
    have hupdated := update_weights_consistent opts base hsame examples ih
    obtain ⟨hbetween, _⟩ := check_estimator_bounds_cases opts hfits hbelow hupdated
    exact (check_horizon_bounds_cases opts hfits hbelow hbetween).1

/-- The books of a run: in every state the slots are a permutation, the table is a
    triangle and the columns agree; in every step the promotion and the removal that
    may follow keep what they should. -/
theorem runs_keep_books (hfits : s.Fits) (hbelow : s.inner = 1 ∨ s.below = 1) (h : Reachable opts s d) :
    Consistent s d ∧ ∀ base, SameActions base → ∀ examples,
      Consistent s (d.update_weights opts base examples) ∧
      ChecksKeep opts s (d.update_weights opts base examples) := by
  have hconsistent := reachable_consistent opts hfits hbelow h
  refine ⟨hconsistent, ?_⟩
  intro base hsame examples
  have hupdated := update_weights_consistent opts base hsame examples hconsistent
  exact ⟨hupdated, checks_keep opts hfits hbelow hupdated⟩

end Steps

/-! ## A promotion -/

/-- Settings for which one example decides. -/
def quick : Options where
  num := { histo_insert := fun h _ => h, get_ci := fun b => 2 * b.gt.sum_x, moved_from := fun _ => [] }
  min_scope := 100
  min_champ_examples := 0
  initial_epsilon := 1
  constant_epsilon := true
  challenger_epsilon := false
  reward_as_cost := false
  decayed_epsilon := fun epsilon _ => epsilon
  horizon := fun count _ _ => count

/-- Learners below that write the number of the slot, and favour the logged action in
    slot 0 only. -/
def writes_slot (below : Nat) : Learner Nat := fun _ slot data =>
  (fun p => if p / below = slot then slot + 1 else data p,
    [⟨0, if slot = 0 then 1 else 0⟩])

/-- An example with the reward 1. -/
def rewarded : List Example := [[⟨-1, 1⟩]]

theorem writes_slot_same (below : Nat) : SameActions (writes_slot below) := by
  rintro action _ _ slot slot' data data' ⟨a, ha, rfl⟩
  refine ⟨⟨0, if slot' = 0 then 1 else 0⟩, mem_singleton_self _, ?_⟩
  rw [mem_singleton.mp ha]

/-- Two models, each with `below` rows, and an array for one feature. -/
def two_models (below : Nat) : Stack := ⟨below, 2, 1, 2, 0⟩

/-- Two models, from their initial state. -/
theorem runs_keep_books_two_models :
    Consistent (two_models 1) (.initial 2 2 ((two_models 1).parameters fun _ => 0)) ∧
      ∀ base : Learner Nat, SameActions base → ∀ examples,
        Consistent (two_models 1) (update_weights quick
          (.initial 2 2 ((two_models 1).parameters fun _ => 0)) base examples) ∧
        ChecksKeep quick (two_models 1) (update_weights quick
          (.initial 2 2 ((two_models 1).parameters fun _ => 0)) base examples) :=
  runs_keep_books quick ⟨by decide, by decide, by decide, by decide⟩ (Or.inr rfl) (.initial _)

/-- With two rows for each model, the promotion of model 0 clears one of its own rows
    and one of the slot that is reused, which is not empty then. -/
theorem promotion_clears_champion :
    let d := update_weights quick
      (.initial 2 4 ((two_models 2).parameters fun _ => 0)) (writes_slot 2) rewarded
    (two_models 2).Fits ∧ SameActions (writes_slot 2) ∧
      Reachable quick (two_models 2) (.initial 2 4 ((two_models 2).parameters fun _ => 0)) ∧
      d.last_challenger (d.beats_champion quick) = some 0 ∧
      ¬Promoted (two_models 2) 0 d (d.check_estimator_bounds quick) := by
  intro d
  refine ⟨⟨by decide, by decide, by decide, by decide⟩, writes_slot_same 2, .initial _, ?_, ?_⟩
  · decide +kernel
  · intro h
    have hrow := h.weights 0 (Or.inl (by decide)) 0 (by decide +kernel) 0 0 (by decide) 1 (by decide) 0
      (by decide)
    revert hrow
    decide +kernel

end VW.EpsilonDecay
