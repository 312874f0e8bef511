import VowpalWabbit.EpsilonDecay.Basic
import VowpalWabbit.MultiModel.Widths

/-! # Shifting models

    `shift_model` removes the models between those that move up and those above
    them. Each step of the loops moves one estimator; a later step never reads a
    place that was moved from, since the models and columns are taken from the
    last one down. `Shifted` says which model and which column ends where.
-/

open Cpp VW.Estimators VW.MultiModel Table Option

namespace VW.EpsilonDecay

open List EpsilonDecayData

variable {V : Type} {m : Nat} {t : Table ConfidenceSequenceRobust} (opts : Options)

/-- Row `i` has `i + 1` entries. -/
def Triangular (m : Nat) (t : Table ConfidenceSequenceRobust) : Prop :=
  t.shape = (range m).map (· + 1)

theorem Triangular.length (h : Triangular m t) : t.length = m := by
  have hlength := congrArg List.length h
  simpa [shape] using hlength

theorem Triangular.isSome_iff (h : Triangular m t) (r c : Nat) :
    (t.get r c).isSome ↔ r < m ∧ c ≤ r := by
  rw [isSome_get_iff, h, getElem?_map]
  by_cases hr : r < m
  · rw [getElem?_range hr]
    simp [hr]
  · rw [getElem?_eq_none (by simpa using hr)]
    simp [hr]

theorem Triangular.move (h : Triangular m t) {moved_from : ConfidenceSequenceRobust → _}
    (r c r' c' : Nat) : Triangular m (t.move moved_from r c r' c') := by
  unfold Triangular
  rw [shape_move]
  exact h

/-! ## Promoting -/

variable {swap_dist n : Nat} {d : EpsilonDecayData V} {s : Stack}

/-- The estimators of one model, moved to the row and the columns `swap_dist` above. -/
theorem move_row (h : Triangular m t) {row : Nat} (hdist : 0 < swap_dist)
    (hroom : row + swap_dist < m) (hn : n ≤ row + 1) :
    let t' := for_range n (fun t estimator_ind =>
      t.move (·.moved_from opts.num) row estimator_ind (row + swap_dist) (estimator_ind + swap_dist)) t
    Triangular m t' ∧
      (∀ c < n, t'.get (row + swap_dist) (c + swap_dist) = t.get row c) ∧
      (∀ c, n ≤ c → t'.get row c = t.get row c) ∧
      ∀ r c, r ≠ row → r ≠ row + swap_dist → t'.get r c = t.get r c := by
  intro t'
  let Moved (n : Nat) (t' : Table ConfidenceSequenceRobust) : Prop := n ≤ row + 1 → Triangular m t' ∧
    (∀ c < n, t'.get (row + swap_dist) (c + swap_dist) = t.get row c) ∧
    (∀ c, n ≤ c → t'.get row c = t.get row c) ∧
    ∀ r c, r ≠ row → r ≠ row + swap_dist → t'.get r c = t.get r c
  have hmoved : Moved n t' := by
    apply for_range_invariant Moved
    · exact fun _ => ⟨h, by simp, by simp, by simp⟩
    · intro i _ s ih hi
      obtain ⟨hshape, hmoved, hrest, hother⟩ := ih (by omega)
      have hsource : (s.get row i).isSome := (hshape.isSome_iff row i).mpr ⟨by omega, by omega⟩
      have htarget : (s.get (row + swap_dist) (i + swap_dist)).isSome :=
        (hshape.isSome_iff _ _).mpr ⟨hroom, by omega⟩
      refine ⟨hshape.move _ _ _ _, ?_, ?_, ?_⟩
      · intro c hc
        rcases Nat.lt_succ_iff_lt_or_eq.mp hc with hc | rfl
        · rw [get_move_ne _ (by omega) (by omega)]
          exact hmoved c hc
        · rw [get_move_target _ (by omega) hsource htarget]
          exact hrest c le_rfl
      · intro c hc
        rw [get_move_ne _ (by omega) (by omega)]
        exact hrest c (by omega)
      · intro r c hr hr'
        rw [get_move_ne _ (by omega) (by omega)]
        exact hother r c hr hr'
  exact hmoved hn

/-- The models below `n` and their estimators against each other are `swap_dist` further up,
    and what was above their new places is as before. -/
theorem promote_model_moves (hdist : 0 < swap_dist) (h : Triangular m d.conf_seq_estimators)
    (hindices : d._weight_indices.length = m) (hroom : n + swap_dist ≤ m) :
    let d' := d.promote_model opts swap_dist n
    Triangular m d'.conf_seq_estimators ∧
      (∀ r < n, ∀ c ≤ r, d'.conf_seq_estimators.get (r + swap_dist) (c + swap_dist)
        = d.conf_seq_estimators.get r c) ∧
      (∀ r, n + swap_dist ≤ r → ∀ c, d'.conf_seq_estimators.get r c = d.conf_seq_estimators.get r c) ∧
      d'._weight_indices.Perm d._weight_indices ∧
      (∀ r < n, d'._weight_indices[r + swap_dist]? = d._weight_indices[r]?) ∧
      ∀ r, n + swap_dist ≤ r → d'._weight_indices[r]? = d._weight_indices[r]? := by
  intro d'
  induction n generalizing d with
  | zero => exact ⟨h, by simp, by simp [d', promote_model], List.Perm.refl _, by simp,
      by simp [d', promote_model]⟩
  | succ n ih =>
    have hrow : n + swap_dist < m := by omega
    obtain ⟨hshape, hmoved, _, hother⟩ := move_row opts h hdist hrow le_rfl
    have hswap : ∀ k, (swap_at d._weight_indices (n + swap_dist) n)[k]?
        = if k = n then d._weight_indices[n + swap_dist]?
          else if k = n + swap_dist then d._weight_indices[n]? else d._weight_indices[k]? :=
      getElem?_swap_at (by omega) (by omega)
    have hlength : (swap_at d._weight_indices (n + swap_dist) n).length = m := by
      rw [length_swap_at, hindices]
    obtain ⟨hshape', hmoved', habove', hperm', hslots', hslots_above'⟩ :=
      ih (d := { d with
        conf_seq_estimators := for_range (n + 1) (fun t estimator_ind =>
          t.move (·.moved_from opts.num) n estimator_ind (n + swap_dist)
            (estimator_ind + swap_dist)) d.conf_seq_estimators
        _weight_indices := swap_at d._weight_indices (n + swap_dist) n }) hshape hlength (by omega)
    refine ⟨hshape', ?_, ?_, hperm'.trans (perm_swap_at _ _ _), ?_, ?_⟩
    · intro r hr c hc
      rcases Nat.lt_succ_iff_lt_or_eq.mp hr with hr | rfl
      · exact (hmoved' r hr c hc).trans (hother r c (by omega) (by omega))
      · exact (habove' _ le_rfl _).trans (hmoved c (by omega))
    · intro r hr c
      exact (habove' r (by omega) c).trans (hother r c (by omega) (by omega))
    · intro r hr
      rcases Nat.lt_succ_iff_lt_or_eq.mp hr with hr | rfl
      · rw [show d'._weight_indices[r + swap_dist]? = _ from hslots' r hr, hswap,
          if_neg (by omega), if_neg (by omega)]
      · rw [show d'._weight_indices[r + swap_dist]? = _ from hslots_above' _ le_rfl, hswap,
          if_neg (by omega), if_pos rfl]
    · intro r hr
      rw [show d'._weight_indices[r]? = _ from hslots_above' r (by omega), hswap,
        if_neg (by omega), if_neg (by omega)]

@[simp] theorem promote_model_weights (swap_dist n : Nat) (d : EpsilonDecayData V) :
    (d.promote_model opts swap_dist n)._weights = d._weights := by
  induction n generalizing d with
  | zero => rfl
  | succ n ih => exact ih _

@[simp] theorem promote_model_feature_width (swap_dist n : Nat) (d : EpsilonDecayData V) :
    (d.promote_model opts swap_dist n)._feature_width = d._feature_width := by
  induction n generalizing d with
  | zero => rfl
  | succ n ih => exact ih _

@[simp] theorem promote_model_model_count (swap_dist n : Nat) (d : EpsilonDecayData V) :
    (d.promote_model opts swap_dist n)._model_count = d._model_count := by
  induction n generalizing d with
  | zero => rfl
  | succ n ih => exact ih _

/-! ## Rebalancing -/

/-- The first `n` columns of a model, `swap_dist` further to the right. -/
theorem rebalance_model_moves {curr_mod : Nat} (hdist : 0 < swap_dist)
    (h : Triangular m t) (hrow : curr_mod < m) (hroom : n + swap_dist ≤ curr_mod + 1) :
    let t' := rebalance_model opts swap_dist curr_mod n t
    Triangular m t' ∧ (∀ c < n, t'.get curr_mod (c + swap_dist) = t.get curr_mod c) ∧
      (∀ c, n + swap_dist ≤ c → t'.get curr_mod c = t.get curr_mod c) ∧
      ∀ r c, r ≠ curr_mod → t'.get r c = t.get r c := by
  intro t'
  induction n generalizing t with
  | zero => exact ⟨h, by simp, by simp [t', rebalance_model],
      by simp [t', rebalance_model]⟩
  | succ n ih =>
    have hsource : (t.get curr_mod n).isSome := (h.isSome_iff _ _).mpr ⟨hrow, by omega⟩
    have htarget : (t.get curr_mod (n + swap_dist)).isSome := (h.isSome_iff _ _).mpr ⟨hrow, by omega⟩
    obtain ⟨hshape, hmoved, habove, hother⟩ :=
      ih (h.move curr_mod n curr_mod (n + swap_dist)) (by omega)
    refine ⟨hshape, ?_, ?_, ?_⟩
    · intro c hc
      rcases Nat.lt_succ_iff_lt_or_eq.mp hc with hc | rfl
      · rw [show t'.get curr_mod (c + swap_dist) = _ from hmoved c hc,
          get_move_ne _ (by omega) (by omega)]
      · rw [show t'.get curr_mod (c + swap_dist) = _ from habove _ le_rfl,
          get_move_target _ (by omega) hsource htarget]
    · intro c hc
      rw [show t'.get curr_mod c = _ from habove c (by omega),
        get_move_ne _ (by omega) (by omega)]
    · intro r c hr
      rw [show t'.get r c = _ from hother r c hr, get_move_ne _ (by omega) (by omega)]

/-- When one model is removed, the columns of the models above it close up. -/
theorem rebalance_greater_models_moves
    (h : Triangular m d.conf_seq_estimators) (hn : n < m) :
    let d' := d.rebalance_greater_models opts n 1 m
    Triangular m d'.conf_seq_estimators ∧
      (∀ r, n < r → r < m → ∀ c < n, d'.conf_seq_estimators.get r (c + 1)
        = d.conf_seq_estimators.get r c) ∧
      (∀ r, n < r → r < m → ∀ c, n < c → d'.conf_seq_estimators.get r c
        = d.conf_seq_estimators.get r c) ∧
      ∀ r c, r ≤ n → d'.conf_seq_estimators.get r c = d.conf_seq_estimators.get r c := by
  intro d'
  let Moved (k : Nat) (t' : Table ConfidenceSequenceRobust) : Prop := Triangular m t' ∧
    (∀ r, n < r → r < n + 1 + k → ∀ c < n, t'.get r (c + 1) = d.conf_seq_estimators.get r c) ∧
    (∀ r, n < r → r < n + 1 + k → ∀ c, n < c → t'.get r c = d.conf_seq_estimators.get r c) ∧
    ∀ r c, r ≤ n ∨ n + 1 + k ≤ r → t'.get r c = d.conf_seq_estimators.get r c
  have hmoved : Moved (m - (n + 1)) d'.conf_seq_estimators := by
    apply for_range_invariant Moved
    · exact ⟨h, fun r hr hr' => by omega, fun r hr hr' => by omega, fun _ _ _ => rfl⟩
    · intro i hi s ⟨hshape, hleft, hright, hother⟩
      obtain ⟨hshape', hleft', hright', hother'⟩ :=
        rebalance_model_moves opts Nat.one_pos hshape (show n + 1 + i < m by omega)
          (show n + 1 - 1 + 1 ≤ n + 1 + i + 1 by omega)
      refine ⟨hshape', ?_, ?_, ?_⟩
      · intro r hr hr' c hc
        obtain hlt | rfl : r < n + 1 + i ∨ r = n + 1 + i := by omega
        · rw [hother' r _ (by omega)]
          exact hleft r hr hlt c hc
        · rw [hleft' c (by omega)]
          exact hother _ _ (Or.inr le_rfl)
      · intro r hr hr' c hc
        obtain hlt | rfl : r < n + 1 + i ∨ r = n + 1 + i := by omega
        · rw [hother' r _ (by omega)]
          exact hright r hr hlt c hc
        · rw [hright' c (by omega)]
          exact hother _ _ (Or.inr le_rfl)
      · intro r c hr
        rw [hother' r c (by omega)]
        exact hother r c (by omega)
  obtain ⟨hshape, hleft, hright, hother⟩ := hmoved
  exact ⟨hshape, fun r hr hr' => hleft r hr (by omega), fun r hr hr' => hright r hr (by omega),
    fun r c hr => hother r c (Or.inl hr)⟩

/-- A promotion to the champion's place leaves no greater models. -/
theorem rebalance_greater_models_none (d : EpsilonDecayData V)
    (h : n + swap_dist = m) : d.rebalance_greater_models opts n swap_dist m = d := by
  unfold rebalance_greater_models
  rw [h, Nat.sub_self]
  rfl

/-! ## Clearing -/

/-- All estimators of the first `swap_dist` columns are new. -/
theorem clear_estimators [Zero V] (d : EpsilonDecayData V) (h : Triangular m d.conf_seq_estimators)
    (swap_dist : Nat) :
    let d' := d.clear_weights_and_estimators swap_dist m
    Triangular m d'.conf_seq_estimators ∧ ∀ r c, d'.conf_seq_estimators.get r c =
      if c < swap_dist then (d.conf_seq_estimators.get r c).map fun _ => .initial
      else d.conf_seq_estimators.get r c := by
  intro d'
  let Cleared (k : Nat) (t' : Table ConfidenceSequenceRobust) : Prop := Triangular m t' ∧
    ∀ r c, t'.get r c =
      if r < k ∧ c < swap_dist then (d.conf_seq_estimators.get r c).map fun _ => .initial
      else d.conf_seq_estimators.get r c
  have hcleared : Cleared m d'.conf_seq_estimators := by
    apply for_range_invariant Cleared
    · exact ⟨h, by simp⟩
    · intro i hi s ⟨hshape, hs⟩
      have hrow := s.get_update_row i (min (s.getD i []).length swap_dist) (·.reset_stats)
      refine ⟨(hrow 0 0).1.trans hshape, ?_⟩
      intro r c
      rw [(hrow r c).2, hs]
      by_cases hr : r = i
      · subst hr
        rw [if_neg (by omega : ¬(r < r ∧ c < swap_dist))]
        have hlength : (s.getD r []).length = r + 1 := by
          have hrow_length := congrArg (·[r]?) hshape
          simp only [shape, getElem?_map, getElem?_range hi] at hrow_length
          rw [getD_eq_getElem?_getD]
          cases hget : s[r]? with
          | none => simp [hget] at hrow_length
          | some row => simpa [hget] using hrow_length
        by_cases hc : c ≤ r
        · apply if_congr _ rfl rfl
          omega
        · -- no such place
          have hnone : d.conf_seq_estimators.get r c = none := by
            rw [← not_isSome_iff_eq_none, h.isSome_iff]
            omega
          rw [hnone]
          simp
      · rw [if_neg fun hrc => hr hrc.1]
        apply if_congr _ rfl rfl
        omega
  refine ⟨hcleared.1, ?_⟩
  intro r c
  rw [hcleared.2 r c]
  by_cases hr : r < m
  · apply if_congr _ rfl rfl
    exact and_iff_right hr
  · have hnone : d.conf_seq_estimators.get r c = none := by
      rw [← not_isSome_iff_eq_none, h.isSome_iff]
      omega
    rw [hnone]
    simp

/-- The weights of the slots whose models are removed are zero, all others as before. -/
theorem clear_weights [Zero V] (hfits : s.Fits) (hbelow : s.below = 1)
    {indices : List Nat} (hindices : ∀ ind < swap_dist, indices.getD ind 0 < s.inner)
    (data : Nat → V) :
    ∃ data', for_range swap_dist (fun weights ind =>
        clear_innermost_offset weights (indices.getD ind 0) s.total_feature_width s.inner)
        (s.parameters data) = s.parameters data' ∧
      ∀ hash, ∀ a < s.above, ∀ slot < s.inner, ∀ k < s.stride,
        ((∃ ind < swap_dist, indices.getD ind 0 = slot) → data' (s.address hash a slot 0 k) = 0) ∧
        ((∀ ind < swap_dist, indices.getD ind 0 ≠ slot) →
          data' (s.address hash a slot 0 k) = data (s.address hash a slot 0 k)) := by
  let Cleared (n : Nat) (weights : DenseParameters V) : Prop := ∃ data', weights = s.parameters data' ∧
    ∀ hash, ∀ a < s.above, ∀ slot < s.inner, ∀ k < s.stride,
      ((∃ ind < n, indices.getD ind 0 = slot) → data' (s.address hash a slot 0 k) = 0) ∧
      ((∀ ind < n, indices.getD ind 0 ≠ slot) →
        data' (s.address hash a slot 0 k) = data (s.address hash a slot 0 k))
  obtain ⟨groups, _, hgroups⟩ := Stack.exists_groups hfits
  apply for_range_invariant Cleared
  · exact ⟨data, rfl, fun hash a _ slot _ k _ => ⟨by rintro ⟨ind, hind, _⟩; omega, fun _ => rfl⟩⟩
  · rintro i hi _ ⟨data', rfl, hdata'⟩
    refine ⟨(clear_innermost_offset (s.parameters data') (indices.getD i 0) s.total_feature_width
      s.inner).data, rfl, ?_⟩
    intro hash a ha slot hslot k hk
    obtain ⟨hvisited, hplace⟩ := @Stack.address_place _ _ data' hfits hbelow hash _ _ _ ha hslot hk
    obtain ⟨hzero, hother⟩ := clear_innermost_offset_apply (s.parameters data') (Stack.total_pos hfits)
      (Stack.parameters_length hgroups) (hindices i hi) (s.address hash a slot 0 k)
    obtain ⟨hcleared, hkept⟩ := hdata' hash a ha slot hslot k hk
    by_cases hslot_eq : slot = indices.getD i 0
    · refine ⟨fun _ => hzero hvisited (hplace.trans hslot_eq), fun h => ?_⟩
      exact absurd hslot_eq.symm (h i (Nat.lt_succ_self i))
    · have hsame := hother fun h => hslot_eq (hplace.symm.trans h)
      rw [hsame]
      constructor
      · rintro ⟨ind, hind, rfl⟩
        apply hcleared
        rcases Nat.lt_succ_iff_lt_or_eq.mp hind with hind | rfl
        · exact ⟨ind, hind, rfl⟩
        · exact absurd rfl hslot_eq
      · intro h
        exact hkept fun ind hind => h ind (Nat.lt_succ_of_lt hind)

/-! ## The whole shift -/

/-- The models that are not removed. -/
def Remains (n swap_dist r : Nat) : Prop := r < n ∨ n + swap_dist ≤ r

/-- Where they are afterwards. -/
def new_index (n swap_dist r : Nat) : Nat := if r < n then r + swap_dist else r

/-- The `swap_dist` models from `n` on are removed: the others keep their slots, the
    weights in them and the estimators against each other; the new models at the
    bottom have new estimators and empty slots. -/
structure Shifted [Zero V] (s : Stack) (n swap_dist : Nat) (d d' : EpsilonDecayData V) : Prop where
  slot : ∀ r, Remains n swap_dist r →
    d'._weight_indices[new_index n swap_dist r]? = d._weight_indices[r]?
  estimator : ∀ r c, Remains n swap_dist r → Remains n swap_dist c → c ≤ r →
    d'.conf_seq_estimators.get (new_index n swap_dist r) (new_index n swap_dist c)
      = d.conf_seq_estimators.get r c
  weights : ∀ r, Remains n swap_dist r → ∀ slot ∈ d._weight_indices[r]?,
    ∀ hash, ∀ a < s.above, ∀ u < s.below, ∀ k < s.stride,
      d'._weights.data (s.address hash a slot u k) = d._weights.data (s.address hash a slot u k)
  new_estimator : ∀ r, ∀ c < swap_dist, ∀ e ∈ d'.conf_seq_estimators.get r c, e = .initial
  new_slot : ∀ r < swap_dist, ∀ slot ∈ d'._weight_indices[r]?,
    ∀ hash, ∀ a < s.above, ∀ u < s.below, ∀ k < s.stride,
      d'._weights.data (s.address hash a slot u k) = 0

/-- What does not depend on the history: the permutation of the slots, the triangle,
    and the sizes that the functions on the weights are given. -/
structure WellFormed (s : Stack) (d : EpsilonDecayData V) : Prop where
  indices : d._weight_indices.Perm (range s.inner)
  triangular : Triangular s.inner d.conf_seq_estimators
  weights : d._weights = s.parameters d._weights.data
  feature_width : d._feature_width = s.total_feature_width
  model_count : d._model_count = s.inner

/-- The two loops before the clearing. -/
theorem promoted_and_rebalanced
    (h : WellFormed s d) (hdist : 0 < swap_dist)
    (hcase : swap_dist = 1 ∧ n < s.inner ∨ n + swap_dist = s.inner) :
    let d' := if 0 < n then
        (d.promote_model opts swap_dist n).rebalance_greater_models opts n swap_dist s.inner
      else d
    WellFormed s d' ∧ d'._weights.data = d._weights.data ∧
      (∀ r, Remains n swap_dist r →
        d'._weight_indices[new_index n swap_dist r]? = d._weight_indices[r]?) ∧
      ∀ r c, Remains n swap_dist r → Remains n swap_dist c → c ≤ r →
        d'.conf_seq_estimators.get (new_index n swap_dist r) (new_index n swap_dist c)
          = d.conf_seq_estimators.get r c := by
  have hlength : d._weight_indices.length = s.inner := by
    rw [h.indices.length_eq, length_range]
  rcases Nat.eq_zero_or_pos n with rfl | hn
  · exact ⟨h, rfl, by simp [new_index], by simp [new_index]⟩
  · rw [if_pos hn]
    obtain ⟨hshape, hmoved, habove, hperm, hslots, hslots_above⟩ :=
      promote_model_moves opts hdist h.triangular hlength (show n + swap_dist ≤ s.inner by omega)
    have hslot : ∀ r, Remains n swap_dist r →
        (d.promote_model opts swap_dist n)._weight_indices[new_index n swap_dist r]?
          = d._weight_indices[r]? := by
      intro r hr
      unfold new_index
      split
      case isTrue hlt => exact hslots r hlt
      case isFalse hge => exact hslots_above r (hr.resolve_left hge)
    have hwell : ∀ t, Triangular s.inner t → WellFormed s
        { d.promote_model opts swap_dist n with conf_seq_estimators := t } := by
      intro t ht
      exact ⟨hperm.trans h.indices, ht, by simpa using h.weights, by simpa using h.feature_width,
        by simpa using h.model_count⟩
    rcases hcase with ⟨rfl, hlt⟩ | hsum
    · obtain ⟨hshape', hleft, hright, hlow⟩ := rebalance_greater_models_moves opts hshape hlt
      refine ⟨hwell _ hshape', by simp [rebalance_greater_models], hslot, ?_⟩
      intro r c hr hc hcr
      -- the model is below the removed one, or above it with the column on either side
      rcases hr with hr | hr
      · have hcn : c < n := by omega
        rw [new_index, if_pos hr, new_index, if_pos hcn, hlow _ _ hr]
        exact hmoved r hr c hcr
      · have hgeom : ¬r < n := by omega
        have hrow := fun c' => habove r hr c'
        by_cases hrm : r < s.inner
        · rw [new_index, if_neg hgeom]
          rcases hc with hc | hc
          · rw [new_index, if_pos hc, hleft r hr hrm c hc, hrow]
          · rw [new_index, if_neg (by omega), hright r hr hrm c hc, hrow]
        · -- no such model
          have hnone : d.conf_seq_estimators.get r c = none := by
            rw [← not_isSome_iff_eq_none, h.triangular.isSome_iff]
            omega
          rw [hnone, ← not_isSome_iff_eq_none, hshape'.isSome_iff, new_index, if_neg hgeom]
          omega
    · rw [rebalance_greater_models_none opts _ hsum]
      refine ⟨hwell _ hshape, by simp, hslot, ?_⟩
      intro r c hr hc hcr
      rcases hr with hr | hr
      · rw [new_index, if_pos hr, new_index, if_pos (by omega)]
        exact hmoved r hr c hcr
      · have hnone : d.conf_seq_estimators.get r c = none := by
          rw [← not_isSome_iff_eq_none, h.triangular.isSome_iff]
          omega
        rw [hnone, ← not_isSome_iff_eq_none, hshape.isSome_iff, new_index, if_neg (by omega)]
        omega

theorem WellFormed.slot_lt (h : WellFormed s d) {r slot : Nat}
    (hslot : d._weight_indices[r]? = some slot) : slot < s.inner :=
  mem_range.mp (h.indices.mem_iff.mp (mem_of_getElem? hslot))

/-- Two models do not share a slot. -/
theorem WellFormed.slot_injective (h : WellFormed s d)
    {r r' slot : Nat} (hr : d._weight_indices[r]? = some slot)
    (hr' : d._weight_indices[r']? = some slot) : r = r' := by
  have hnodup : d._weight_indices.Nodup := h.indices.nodup_iff.mpr nodup_range
  obtain ⟨hlt, _⟩ := List.getElem?_eq_some_iff.mp hr
  exact (getElem?_inj hlt hnodup).mp (hr.trans hr'.symm)

theorem shift_model_shifts [Zero V]
    (hfits : s.Fits) (hbelow : s.below = 1) (h : WellFormed s d) (hdist : 0 < swap_dist)
    (hcase : swap_dist = 1 ∧ n < s.inner ∨ n + swap_dist = s.inner) :
    WellFormed s (d.shift_model opts n swap_dist s.inner) ∧
      Shifted s n swap_dist d (d.shift_model opts n swap_dist s.inner) := by
  obtain ⟨hwell, hdata, hslot, hestimator⟩ := promoted_and_rebalanced opts h hdist hcase
  unfold shift_model
  generalize (if 0 < n then
    (d.promote_model opts swap_dist n).rebalance_greater_models opts n swap_dist s.inner
    else d) = d₁ at *
  have hlength : d₁._weight_indices.length = s.inner := by
    rw [hwell.indices.length_eq, length_range]
  have hget : ∀ ind < swap_dist, d₁._weight_indices[ind]? = some (d₁._weight_indices.getD ind 0) := by
    intro ind hind
    rw [getD_eq_getElem?_getD, getElem?_eq_getElem (by omega)]
    rfl
  obtain ⟨htriangular, hclear⟩ := clear_estimators d₁ hwell.triangular swap_dist
  obtain ⟨data', hweights, hdata'⟩ := clear_weights hfits hbelow
    (fun ind hind => hwell.slot_lt (hget ind hind)) d₁._weights.data
  have hcleared : (d₁.clear_weights_and_estimators swap_dist s.inner)._weights = s.parameters data' := by
    rw [← hweights, ← hwell.weights, ← hwell.feature_width]
    conv_rhs => rw [← hwell.model_count]
    rfl
  have hzero : ∀ {u : Nat}, u < s.below → u = 0 := by
    intro u hu
    omega
  refine ⟨⟨hwell.indices, htriangular, ?_, hwell.feature_width, hwell.model_count⟩, ?_⟩
  · rw [hcleared]
    rfl
  constructor
  case slot => exact hslot
  case estimator =>
    intro r c hr hc hcr
    have hnew : ¬new_index n swap_dist c < swap_dist := by
      unfold new_index
      rcases hc with hc | hc
      · rw [if_pos hc]
        omega
      · rw [if_neg (by omega)]
        omega
    rw [hclear, if_neg hnew]
    exact hestimator r c hr hc hcr
  case weights =>
    intro r hr slot hr_slot hash a ha u hu k hk
    obtain rfl := hzero hu
    have hnew_slot : d₁._weight_indices[new_index n swap_dist r]? = some slot :=
      (hslot r hr).trans hr_slot
    have hother : ∀ ind < swap_dist, d₁._weight_indices.getD ind 0 ≠ slot := by
      rintro ind hind rfl
      have hsame := hwell.slot_injective (hget ind hind) hnew_slot
      unfold new_index at hsame
      rcases hr with hr | hr
      · rw [if_pos hr] at hsame
        omega
      · rw [if_neg (by omega)] at hsame
        omega
    rw [hcleared]
    exact ((hdata' hash a ha slot (h.slot_lt hr_slot) k hk).2 hother).trans (congrFun hdata _)
  case new_estimator =>
    intro r c hc e he
    rw [hclear, if_pos hc] at he
    obtain ⟨_, _, rfl⟩ := Option.map_eq_some_iff.mp he
    rfl
  case new_slot =>
    intro r hr slot hr_slot hash a ha u hu k hk
    obtain rfl := hzero hu
    have hr_slot : d₁._weight_indices[r]? = some slot := hr_slot
    rw [hcleared]
    apply (hdata' hash a ha slot (hwell.slot_lt hr_slot) k hk).1
    refine ⟨r, hr, ?_⟩
    rw [hget r hr] at hr_slot
    exact Option.some.inj hr_slot

end VW.EpsilonDecay
