import VowpalWabbit.Interactions.NestedLoops

/-! # The state machine for interactions of any length

    The loops of `process_generic_interaction` keep one record a range, and move
    between the records instead of calling themselves. From a record with a
    feature left, the machine makes the kernel calls of the nested loops over
    this range and those after it, and then goes back to the record before: this
    is shown by induction on the ranges that are left, and within a range on the
    features that are left.
-/

namespace VW

open List FeaturesRange FeatureGenData

variable {V : Type}

/-- The ranges are pieces of the example: those that begin at the same address
    are the same. -/
def SameRanges (ranges : List (FeaturesRange V)) : Prop :=
  ranges.IsChain fun r r' => r.begin_it = r'.begin_it → r.features = r'.features

/-- What the machine never changes in its records. -/
def Prepared (permutations : Bool) (ranges : List (FeaturesRange V)) (data : Nat → FeatureGenData V) :
    Prop :=
  ∀ (k : Nat) (h : k < ranges.length), (data k).range = ranges[k] ∧
    ∀ h' : k + 1 < ranges.length, (data (k + 1)).self_interaction =
      (ranges[k]).same_loop permutations ranges[k + 1]

theorem Prepared.update {permutations : Bool} {ranges : List (FeaturesRange V)}
    {data : Nat → FeatureGenData V} (h : Prepared permutations ranges data) (k : Nat)
    {d : FeatureGenData V} (hrange : d.range = (data k).range)
    (hself : d.self_interaction = (data k).self_interaction) :
    Prepared permutations ranges (Function.update data k d) := by
  -- The two fields are the same at every level.
  have hfields (j : Nat) : (Function.update data k d j).range = (data j).range ∧
      (Function.update data k d j).self_interaction = (data j).self_interaction := by
    by_cases hj : j = k
    · subst hj
      simpa using ⟨hrange, hself⟩
    · simp [Function.update_of_ne hj]
  intro j hj
  rw [(hfields j).1, (hfields (j + 1)).2]
  exact h j hj

theorem prepared_prepare_state_data [One V] (permutations : Bool) (ranges : List (FeaturesRange V)) :
    Prepared permutations ranges (prepare_state_data permutations ranges) := by
  intro k h
  refine ⟨by simp [prepare_state_data, h], fun h' => ?_⟩
  simp [prepare_state_data, same_loop, h, h', Bool.beq_comm]

section Machine

variable [Mul V]

/-- Going back from the record `k` whose range is done, and what follows. -/
def resume (permutations : Bool) (gen_data_last fuel : Nat) (s : GenericState V) :
    Option (GenericState V) :=
  if s.cur_data = 0 then some s
  else
    match go_back s.state_data s.cur_data with
    | none => none
    | some (state_data, cur_data, go_further) =>
      if !(cur_data == 0 && go_further) then
        generic_loop permutations gen_data_last fuel
          ⟨state_data, cur_data, s.num_features, s.calls⟩
      else some ⟨state_data, cur_data, s.num_features, s.calls⟩

variable {permutations : Bool} {last fuel k n : Nat} {data : Nat → FeatureGenData V}

variable {calls : List (KernelCall V)}

/-- Going back to a record with a feature left continues the loop there. -/
theorem resume_of_lt (h : (data k).current + 1 < (data k).range.features.length) :
    resume permutations last fuel ⟨data, k + 1, n, calls⟩ =
      generic_loop permutations last fuel
        ⟨Function.update data k { data k with current := (data k).current + 1 }, k, n, calls⟩ := by
  have hne : (data k).current + 1 ≠ (data k).range.features.length := by omega
  simp [resume, go_back, hne]

/-- Going back to a record with no feature left goes on to the one before. -/
theorem resume_of_eq (h : (data k).current + 1 = (data k).range.features.length) :
    resume permutations last fuel ⟨data, k + 1, n, calls⟩ =
      resume permutations last fuel
        ⟨Function.update data k { data k with current := (data k).current + 1 }, k, n, calls⟩ := by
  by_cases hk : k = 0
  · subst hk
    simp [resume, go_back, h]
  · simp [resume, go_back, h, hk]

/-- One round at the last record. -/
theorem generic_loop_last (hlast : last ≠ 0)
    (hperm : permutations = true → (data last).current = 0) :
    generic_loop permutations last (fuel + 1) ⟨data, last, n, calls⟩ =
      resume permutations last fuel ⟨data, last,
        n + ((data last).range.features.drop (data last).current).length,
        calls ++ [⟨(data last).range.features.drop (data last).current, (data last).x,
          (data last).hash⟩]⟩ := by
  have hstart : (if permutations = true then 0 else (data last).current) = (data last).current := by
    split
    case isTrue h => exact (hperm h).symm
    case isFalse => rfl
  simp only [generic_loop, generic_step, resume, lt_irrefl, if_false, hstart, hlast]
  cases go_back data last <;> rfl

/-- The record after `cur`, once the machine has moved there with the feature `f`. -/
def FeatureGenData.moved (k : Nat) (cur next : FeatureGenData V) (f : V × FeatureIndex) :
    FeatureGenData V :=
  { next with
    current := loop_start next.self_interaction cur.current
    hash := if k = 0 then FNV_PRIME * f.2 else FNV_PRIME * (cur.hash ^^^ f.2)
    x := if k = 0 then f.1 else interaction_value f.1 cur.x }

variable {f : V × FeatureIndex}

/-- One round at a record before the last one: it moves to the next record with
    the feature that stands here. -/
theorem generic_loop_forward (hk : k < last)
    (hf : (data k).range.features[(data k).current]? = some f) :
    generic_loop permutations last (fuel + 1) ⟨data, k, n, calls⟩ =
      generic_loop permutations last fuel
        ⟨Function.update data (k + 1) ((data k).moved k (data (k + 1)) f), k + 1, n, calls⟩ := by
  simp only [generic_loop, generic_step, hk, if_true, hf]
  rfl

/-- From the record `k` on, the machine makes the given calls and goes back
    from there, with the records before `k` as they were. -/
def Performs (permutations : Bool) (ranges : List (FeaturesRange V)) (k : Nat)
    (data : Nat → FeatureGenData V) (made : List (KernelCall V)) : Prop :=
  ∃ (m : Nat) (data' : Nat → FeatureGenData V), Prepared permutations ranges data' ∧
    (∀ j < k, data' j = data j) ∧ ∀ fuel n calls,
      generic_loop permutations (ranges.length - 1) (fuel + m) ⟨data, k, n, calls⟩ =
        resume permutations (ranges.length - 1) fuel
          ⟨data', k, n + call_features made, calls ++ made⟩

variable {ranges : List (FeaturesRange V)}

/-- The round that moves on from the record `k`, followed by what the next
    record performs. -/
theorem Performs.forward {made : List (KernelCall V)} (hk : k < ranges.length - 1)
    (hf : (data k).range.features[(data k).current]? = some f)
    (h : Performs permutations ranges (k + 1)
      (Function.update data (k + 1) ((data k).moved k (data (k + 1)) f)) made) :
    ∃ (m : Nat) (data' : Nat → FeatureGenData V), Prepared permutations ranges data' ∧
      (∀ j ≤ k, data' j = data j) ∧ ∀ fuel n calls,
        generic_loop permutations (ranges.length - 1) (fuel + m) ⟨data, k, n, calls⟩ =
          resume permutations (ranges.length - 1) fuel
            ⟨data', k + 1, n + call_features made, calls ++ made⟩ := by
  obtain ⟨m, data', hprep, hsame, hrun⟩ := h
  refine ⟨m + 1, data', hprep, fun j hj => ?_, fun fuel n calls => ?_⟩
  · rw [hsame j (by omega), Function.update_of_ne (by omega)]
  · rw [← Nat.add_assoc, generic_loop_forward hk hf, hrun]

/-- The loop over the features of the record `k`: when the next record performs
    the calls of `made` for each of them, this one performs all of them. The
    record is `d` but for its position. -/
theorem Performs.walk (d : FeatureGenData V)
    (made : (V × FeatureIndex) × Nat → List (KernelCall V)) (hk : k < ranges.length - 1)
    (hnext : ∀ (data : Nat → FeatureGenData V) (f : V × FeatureIndex) (i : Nat),
      Prepared permutations ranges data → data k = { d with current := i } →
      d.range.features[i]? = some f →
      Performs permutations ranges (k + 1)
        (Function.update data (k + 1) ((data k).moved k (data (k + 1)) f)) (made (f, i)))
    (l : List ((V × FeatureIndex) × Nat)) (i : Nat) (hl : d.range.features.zipIdx.drop i = l)
    (hne : l ≠ []) (data : Nat → FeatureGenData V) (hprep : Prepared permutations ranges data)
    (hdata : data k = { d with current := i }) :
    Performs permutations ranges k data (l.flatMap made) := by
  induction l generalizing i data with
  | nil => exact absurd rfl hne
  | cons g l ih =>
    have hlen : i < d.range.features.length := by
      have h := congrArg length hl
      simp only [length_drop, length_zipIdx, length_cons] at h
      omega
    have hcons : (d.range.features[i], i) :: d.range.features.zipIdx.drop (i + 1) = g :: l := by
      rw [← hl, drop_eq_getElem_cons (i := i) (by simpa using hlen)]
      simp
    obtain ⟨hg, hrest⟩ := cons.inj hcons
    subst hg
    have hget : d.range.features[i]? = some d.range.features[i] := getElem?_eq_getElem hlen
    have hget' : (data k).range.features[(data k).current]? = some d.range.features[i] := by
      rw [hdata]
      exact hget
    obtain ⟨m, data', hprep', hsame, hrun⟩ :=
      Performs.forward hk hget' (hnext data _ i hprep hdata hget)
    -- Going back, the position of this record moves on by one.
    have hdata' : data' k = { d with current := i } := by rw [hsame k le_rfl, hdata]
    have hprep'' : Prepared permutations ranges
        (Function.update data' k { data' k with current := (data' k).current + 1 }) :=
      hprep'.update k rfl rfl
    by_cases hend : l = []
    · subst hend
      have hcur : (data' k).current + 1 = (data' k).range.features.length := by
        have h := congrArg length hrest
        simp only [length_drop, length_zipIdx, length_nil] at h
        rw [hdata']
        show i + 1 = d.range.features.length
        omega
      refine ⟨m, _, hprep'', fun j hj => ?_, fun fuel n calls => ?_⟩
      · rw [Function.update_of_ne (by omega), hsame j (by omega)]
      · rw [hrun, resume_of_eq hcur]
        simp
    · have hcur : (data' k).current + 1 < (data' k).range.features.length := by
        have h := length_pos_iff.mpr hend
        rw [← hrest] at h
        simp only [length_drop, length_zipIdx] at h
        rw [hdata']
        show i + 1 < d.range.features.length
        omega
      obtain ⟨m', data'', hprep₃, hsame', hrun'⟩ :=
        ih (i + 1) hrest hend _ hprep'' (by simp [hdata'])
      refine ⟨m' + m, data'', hprep₃, fun j hj => ?_, fun fuel n calls => ?_⟩
      · rw [hsame' j hj, Function.update_of_ne (by omega), hsame j (by omega)]
      · rw [← Nat.add_assoc, hrun, resume_of_lt hcur, hrun']
        simp [Nat.add_assoc]

end Machine

section Levels

variable {permutations : Bool} {ranges : List (FeaturesRange V)}

variable {k : Nat} {r : FeaturesRange V} {rs : List (FeaturesRange V)}

theorem getElem_of_drop
    (hdrop : ranges.drop k = r :: rs) : ∃ h : k < ranges.length, ranges[k] = r := by
  have hlt : k < ranges.length := by
    have h := congrArg length hdrop
    simp only [length_drop, length_cons] at h
    omega
  have h := drop_eq_getElem_cons hlt
  rw [hdrop] at h
  exact ⟨hlt, (cons.inj h).1.symm⟩

theorem drop_succ_of_drop
    (hdrop : ranges.drop k = r :: rs) : ranges.drop (k + 1) = rs := by
  rw [← tail_drop, hdrop, tail_cons]

variable {data : Nat → FeatureGenData V}

theorem Prepared.range_eq (h : Prepared permutations ranges data)
    (hdrop : ranges.drop k = r :: rs) : (data k).range = r := by
  obtain ⟨hlt, hr⟩ := getElem_of_drop hdrop
  rw [(h k hlt).1, hr]

variable {r' : FeaturesRange V}

theorem Prepared.self_interaction_eq (h : Prepared permutations ranges data)
    (hdrop : ranges.drop k = r :: r' :: rs) :
    (data (k + 1)).self_interaction = r.same_loop permutations r' := by
  obtain ⟨hlt, hr⟩ := getElem_of_drop hdrop
  obtain ⟨hlt', hr'⟩ := getElem_of_drop (drop_succ_of_drop hdrop)
  rw [(h k hlt).2 hlt', hr, hr']

/-- The inner of two loops has a feature to start with. -/
theorem loop_start_lt (hne : ∀ r ∈ ranges, r.features ≠ [])
    (hsame : permutations = false → SameRanges ranges) (hdrop : ranges.drop k = r :: r' :: rs)
    {i : Nat} (hi : i < r.features.length) :
    loop_start (r.same_loop permutations r') i < r'.features.length := by
  unfold loop_start
  split
  case isTrue h =>
    simp only [same_loop, Bool.and_eq_true, beq_iff_eq, Bool.not_eq_true'] at h
    have hchain : SameRanges (r :: r' :: rs) := hdrop ▸ List.IsChain.drop (hsame h.1) k
    rw [← (isChain_cons_cons.mp hchain).1 h.2]
    exact hi
  case isFalse =>
    have hmem : r' ∈ ranges.drop k := by simp [hdrop]
    exact length_pos_iff.mpr (hne r' (mem_of_mem_drop hmem))

theorem loop_start_permutations (r r' : FeaturesRange V) (i : Nat) :
    permutations = true → loop_start (r.same_loop permutations r') i = 0 := by
  intro h
  simp [h, same_loop, loop_start]

/-- A loop that adds the calls of each round to those before. -/
theorem foldl_calls {α : Type} (g : α → List (KernelCall V))
    (step : Nat × List (KernelCall V) → α → Nat × List (KernelCall V))
    (hstep : ∀ acc a, step acc a = (acc.1 + call_features (g a), acc.2 ++ g a)) (l : List α)
    (acc : Nat × List (KernelCall V)) :
    l.foldl step acc = (acc.1 + call_features (l.flatMap g), acc.2 ++ l.flatMap g) := by
  induction l generalizing acc with
  | nil => simp [call_features]
  | cons a l ih =>
    rw [foldl_cons, ih, hstep]
    simp [Nat.add_assoc]

variable [CommMagma V]

/-- What the machine does from the record `k` on, for the ranges from there on.
    The record combines the features of those before it. -/
theorem performs_nested_calls (hne : ∀ r ∈ ranges, r.features ≠ [])
    (hsame : permutations = false → SameRanges ranges)
    (rs : List (FeaturesRange V)) (r : FeaturesRange V) (k : Nat) (hk : k ≠ 0)
    (hdrop : ranges.drop k = r :: rs) (acc : V × FeatureIndex) (start : Nat)
    (hstart : start < r.features.length) (hperm : permutations = true → start = 0)
    (data : Nat → FeatureGenData V) (hprep : Prepared permutations ranges data)
    (hx : (data k).x = acc.1) (hhash : (data k).hash = FNV_PRIME * acc.2)
    (hcur : (data k).current = start) :
    Performs permutations ranges k data (nested_calls permutations acc r rs start) := by
  induction rs generalizing r k acc start data with
  | nil =>
    have hlast : ranges.length - 1 = k := by
      have h := congrArg List.length hdrop
      simp only [length_drop, length_cons, length_nil] at h
      omega
    refine ⟨1, data, hprep, fun _ _ => rfl, fun fuel n calls => ?_⟩
    rw [hlast, generic_loop_last hk (fun h => by rw [hcur, hperm h])]
    simp [nested_calls, call_features, hprep.range_eq hdrop, hcur, hx, hhash]
  | cons r' rs ih =>
    have hdrop' := drop_succ_of_drop hdrop
    obtain ⟨hlt, -⟩ := getElem_of_drop hdrop'
    refine Performs.walk (data k)
      (fun f => nested_calls permutations (cross acc f.1) r' rs
        (loop_start (r.same_loop permutations r') f.2)) (by omega) ?_ _ start
      (by rw [hprep.range_eq hdrop]) ?_ data hprep (by rw [← hcur])
    · intro data₁ f i hprep₁ hdata hf
      rw [hprep.range_eq hdrop] at hf
      obtain ⟨hi, -⟩ := List.getElem?_eq_some_iff.mp hf
      refine ih r' (k + 1) (by omega) hdrop' (cross acc f) _ (loop_start_lt hne hsame hdrop hi)
        (loop_start_permutations r r' i) _ (hprep₁.update (k + 1) rfl rfl) ?_ ?_ ?_
      · simp [moved, hk, hdata, hx, cross, interaction_value, mul_comm]
      · simp [moved, hk, hdata, hhash, cross, BitVec.xor_comm]
      · simp [moved, hdata, hprep₁.self_interaction_eq hdrop]
    · intro h
      have hlen := congrArg List.length h
      simp only [length_drop, length_zipIdx, length_nil] at hlen
      omega

/-- The machine ends, and has made the calls of the nested loops. -/
theorem process_generic_interaction_eq [One V] (permutations : Bool) (hlen : 2 ≤ ranges.length)
    (hne : ∀ r ∈ ranges, r.features ≠ []) (hsame : permutations = false → SameRanges ranges) :
    ∃ m, ∀ fuel ≥ m, process_generic_interaction fuel ranges permutations =
      some (call_features (interaction_calls permutations ranges),
        interaction_calls permutations ranges) := by
  match ranges, hlen with
  | r :: r' :: rs, _ =>
    have hprep := prepared_prepare_state_data permutations (r :: r' :: rs)
    have hdrop : (r :: r' :: rs).drop 0 = r :: r' :: rs := rfl
    -- The first record combines nothing: it passes its feature on as it is.
    have hwalk : Performs permutations (r :: r' :: rs) 0
        (prepare_state_data permutations (r :: r' :: rs))
        (interaction_calls permutations (r :: r' :: rs)) := by
      refine Performs.walk (prepare_state_data permutations (r :: r' :: rs) 0)
        (fun f => nested_calls permutations f.1 r' rs
          (loop_start (r.same_loop permutations r') f.2)) (by simp) ?_ _ 0
        (by rw [hprep.range_eq hdrop, drop_zero]) ?_ _ hprep rfl
      · intro data f i hprep₁ hdata hf
        rw [hprep.range_eq hdrop] at hf
        obtain ⟨hi, -⟩ := List.getElem?_eq_some_iff.mp hf
        refine performs_nested_calls hne hsame rs r' 1 (by omega) rfl f _
          (loop_start_lt hne hsame hdrop hi) (loop_start_permutations r r' i) _
          (hprep₁.update 1 rfl rfl) ?_ ?_ ?_
        · simp [moved]
        · simp [moved]
        · simp [moved, hdata, hprep₁.self_interaction_eq hdrop]
      · intro h
        exact hne r mem_cons_self (by simpa using congrArg List.length h)
    obtain ⟨m, data', -, -, hrun⟩ := hwalk
    refine ⟨m, fun fuel hfuel => ?_⟩
    obtain ⟨fuel', rfl⟩ := Nat.exists_eq_add_of_le' hfuel
    rw [process_generic_interaction, hrun]
    simp [resume]

theorem process_quadratic_interaction_eq (first second : FeaturesRange V) (permutations : Bool) :
    process_quadratic_interaction first second permutations =
      (call_features (interaction_calls permutations [first, second]),
        interaction_calls permutations [first, second]) := by
  unfold process_quadratic_interaction
  rw [foldl_calls (fun f => nested_calls permutations f.1 second []
    (loop_start (first.same_loop permutations second) f.2))]
  · simp [interaction_calls]
  · intro acc f
    simp [nested_calls, call_features, same_loop]

theorem process_cubic_interaction_eq (first second third : FeaturesRange V) (permutations : Bool) :
    process_cubic_interaction first second third permutations =
      (call_features (interaction_calls permutations [first, second, third]),
        interaction_calls permutations [first, second, third]) := by
  unfold process_cubic_interaction
  rw [foldl_calls (fun f => nested_calls permutations f.1 second [third]
    (loop_start (first.same_loop permutations second) f.2))]
  · simp [interaction_calls]
  · intro acc x
    obtain ⟨f, i⟩ := x
    -- The loop over the second range, for the feature `f` of the first one.
    dsimp only
    rw [foldl_calls (fun g => nested_calls permutations (cross f g.1) third []
      (loop_start (second.same_loop permutations third) g.2))]
    · simp [nested_calls, same_loop]
    · intro acc g
      simp [nested_calls, call_features, same_loop, cross, BitVec.xor_comm]

/-- The state machine ends. It passes on one feature for each tuple of the
    nested loops, in their order, and each tuple once; it counts them; and for
    two and three ranges it makes the calls of the special cases. -/
theorem process_generic_interaction_nested_loops [One V] (ranges : List (FeaturesRange V))
    (permutations : Bool) (offset : BitVec 64) (hlen : 2 ≤ ranges.length)
    (hne : ∀ r ∈ ranges, r.features ≠ []) (hsame : permutations = false → SameRanges ranges) :
    ∃ (num_features : Nat) (calls : List (KernelCall V)),
      (∃ m, ∀ fuel ≥ m, process_generic_interaction fuel ranges permutations =
        some (num_features, calls)) ∧
      calls.flatMap (inner_kernel offset) =
        (nested_loops permutations ranges).map (combined offset) ∧
      (nested_loops permutations ranges).Nodup ∧
      (∀ t, t ∈ nested_loops permutations ranges ↔ TupleOf permutations ranges t) ∧
      num_features = (calls.flatMap (inner_kernel offset)).length ∧
      (∀ first second, ranges = [first, second] →
        process_quadratic_interaction first second permutations = (num_features, calls)) ∧
      (∀ first second third, ranges = [first, second, third] →
        process_cubic_interaction first second third permutations = (num_features, calls)) := by
  refine ⟨call_features (interaction_calls permutations ranges),
    interaction_calls permutations ranges,
    process_generic_interaction_eq permutations hlen hne hsame,
    interaction_calls_flatMap permutations offset hlen,
    nested_loops_nodup permutations ranges, fun t => mem_nested_loops,
    call_features_eq offset _, ?_, ?_⟩
  · intro first second h
    rw [h, process_quadratic_interaction_eq]
  · intro first second third h
    rw [h, process_cubic_interaction_eq]

end Levels

/-- Two features squared, and each with the feature of another namespace. -/
theorem process_generic_interaction_nested_loops_triple :
    ∃ (num_features : Nat) (calls : List (KernelCall Int)),
      (∃ m, ∀ fuel ≥ m, process_generic_interaction fuel
        [⟨16, [(2, 7), (3, 9)]⟩, ⟨16, [(2, 7), (3, 9)]⟩, ⟨64, [(5, 1)]⟩] false =
          some (num_features, calls)) ∧
      (calls.flatMap (inner_kernel 0)).map Prod.fst = [20, 30, 45] := by
  obtain ⟨n, calls, hrun, hcalls, -⟩ := process_generic_interaction_nested_loops (V := Int)
    [⟨16, [(2, 7), (3, 9)]⟩, ⟨16, [(2, 7), (3, 9)]⟩, ⟨64, [(5, 1)]⟩] false 0 (by decide)
    (by decide) (fun _ => by simp [SameRanges])
  exact ⟨n, calls, hrun, by rw [hcalls]; decide⟩

end VW
