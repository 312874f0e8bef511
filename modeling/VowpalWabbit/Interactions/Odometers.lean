import VowpalWabbit.Interactions.Compile
import VowpalWabbit.Framework.TupleSums

/-! # The loops over counters

    `generate_namespace_combinations_with_repetition` and
    `generate_namespace_permutations_with_repetition` step through the digits of
    a counter. Both are compared with nested loops: from a state in which the
    digits below a place are at their start, the loop gives what the nested loops
    over these digits give, and then moves the digit at that place on.
-/

open Cpp Tuples Nat

namespace VW

open List Function

variable {T : Type}

/-- Reading values at the first indices. -/
theorem mapM_range_eq {f : Nat → Option T} (l : List T)
    (h : ∀ (i : Nat) (hi : i < l.length), f i = some l[i]) :
    (range l.length).mapM f = some l := by
  induction l using reverseRecOn with
  | nil => rfl
  | append_singleton l a ih =>
    have hl : (range l.length).mapM f = some l := by
      refine ih fun i hi => ?_
      rw [h i (by simp; omega), getElem_append_left hi]
    have ha : f l.length = some a := by
      rw [h l.length (by simp), getElem_concat_length rfl]
    simp [range_succ, mapM_append, hl, ha]

/-! ## Combinations -/

variable {indices : Nat → Nat}

section Combinations

variable (namespaces : List T) (num_to_pick : Nat)

/-- The end of a round, after the indices were carried. -/
def finish_round (fuel : Nat) (indices : Nat → Nat) : Option (List (List T)) :=
  if 0 < indices num_to_pick then some []
  else do
    let values ← indices_to_values_ignore_last_index indices num_to_pick namespaces
    let result ← combinations_loop namespaces num_to_pick fuel
      (update indices 0 (indices 0 + 1))
    pure (values :: result)

/-- A round in which the indices before `i` have been looked at. -/
def loop_from (i fuel : Nat) (indices : Nat → Nat) : Option (List (List T)) :=
  match fuel with
  | 0 => none
  | fuel + 1 => finish_round namespaces num_to_pick fuel
      ((range' i (num_to_pick - i)).foldl (carry_index (namespaces.length - 1)) indices)

theorem combinations_loop_eq (fuel : Nat) (indices : Nat → Nat) :
    combinations_loop namespaces num_to_pick fuel indices =
      loop_from namespaces num_to_pick 0 fuel indices := by
  cases fuel with
  | zero => rfl
  | succ fuel =>
    rw [combinations_loop, loop_from, for_range, range_eq_range', Nat.sub_zero]
    rfl

variable {namespaces num_to_pick}

theorem loop_from_step {i fuel : Nat} (hi : i < num_to_pick) :
    loop_from namespaces num_to_pick i fuel indices = loop_from namespaces num_to_pick (i + 1) fuel
      (carry_index (namespaces.length - 1) indices i) := by
  cases fuel with
  | zero => rfl
  | succ fuel =>
    have hlen : num_to_pick - i = num_to_pick - (i + 1) + 1 := by omega
    rw [loop_from, loop_from, hlen, range'_succ, foldl_cons]

/-- Indices that are not past the end stay. -/
theorem loop_from_of_le {i k fuel : Nat} (hik : i ≤ k) (hk : k ≤ num_to_pick)
    (hle : ∀ j < k, indices j ≤ namespaces.length - 1) :
    loop_from namespaces num_to_pick i fuel indices =
      loop_from namespaces num_to_pick k fuel indices := by
  induction k, hik using le_induction with
  | base => rfl
  | succ k hik ih =>
    rw [ih (by omega) fun j hj => hle j (by omega), loop_from_step (by omega)]
    rw [carry_index, if_neg (by have := hle k (by omega); omega)]

/-- The digits before `k` have been through all their values: the digit at `k`
    moves on. -/
def resume_at (namespaces : List T) (num_to_pick k fuel : Nat) (r : Nat → Nat) :
    Option (List (List T)) :=
  loop_from namespaces num_to_pick k fuel fun j => if j ≤ k then r k + 1 else r j

/-- The digits from `k` on stand at the values of `suffix`. -/
structure Stands (namespaces : List T) (num_to_pick k : Nat) (r : Nat → Nat) (suffix : List T) : Prop where
  length_eq : k + suffix.length = num_to_pick
  values_eq : ∀ (j : Nat) (hj : j < suffix.length), namespaces[r (k + j)]? = some suffix[j]
  last_eq : r num_to_pick = 0

variable {r : Nat → Nat} {suffix : List T}

theorem Stands.le {k : Nat} (h : Stands namespaces num_to_pick k r suffix) {j : Nat} (hk : k ≤ j)
    (hj : j < num_to_pick) : r j ≤ namespaces.length - 1 := by
  have hlen := h.length_eq
  have hvalue := h.values_eq (j - k) (by omega)
  rw [show k + (j - k) = j from by omega] at hvalue
  obtain ⟨hlt, -⟩ := List.getElem?_eq_some_iff.mp hvalue
  omega

/-- A digit joins those that stand. -/
theorem Stands.cons {k v : Nat} {r : Nat → Nat} {suffix : List T}
    (h : Stands namespaces num_to_pick (k + 1) r suffix) (hv : v < namespaces.length) :
    Stands namespaces num_to_pick k (update r k v) (namespaces[v] :: suffix) := by
  have hlen := h.length_eq
  refine ⟨by simp; omega, fun j hj => ?_, ?_⟩
  · cases j with
    | zero => simp [hv]
    | succ j =>
      have hvalue := h.values_eq j (by simpa using hj)
      rw [update_of_ne (by omega), show k + (j + 1) = k + 1 + j from by omega, hvalue]
      simp
  · rw [update_of_ne (by omega), h.last_eq]

/-- One round with all digits in range. -/
theorem combinations_loop_round (fuel : Nat) (h : Stands namespaces num_to_pick 0 r suffix) :
    combinations_loop namespaces num_to_pick (fuel + 1) r =
      (resume_at namespaces num_to_pick 0 fuel r).map ([suffix] ++ ·) := by
  have hlen : suffix.length = num_to_pick := by simpa using h.length_eq
  have hvalues : indices_to_values_ignore_last_index r num_to_pick namespaces = some suffix := by
    unfold indices_to_values_ignore_last_index
    rw [← hlen]
    exact mapM_range_eq suffix fun i hi => by simpa using h.values_eq i hi
  have hnext : update r 0 (r 0 + 1) = fun j => if j ≤ 0 then r 0 + 1 else r j := by
    funext j
    by_cases hj : j = 0
    · simp [hj]
    · simp [hj, update_of_ne]
  rw [combinations_loop_eq, loop_from_of_le (zero_le _) le_rfl fun j hj => h.le (zero_le j) hj,
    loop_from, Nat.sub_self, range'_zero, foldl_nil, finish_round, h.last_eq]
  simp only [lt_irrefl, if_false, hvalues, hnext, resume_at, combinations_loop_eq]
  cases loop_from namespaces num_to_pick 0 fuel _ <;> rfl

/-- The digits before `k` go through all choices that are not below `v`. -/
theorem combinations_loop_level (k : Nat) : ∀ (v : Nat) (r : Nat → Nat) (suffix : List T),
    v < namespaces.length → Stands namespaces num_to_pick k r suffix →
    ∃ m, ∀ fuel, combinations_loop namespaces num_to_pick (fuel + m) (fun j => if j < k then v else r j) =
      (resume_at namespaces num_to_pick k fuel r).map
        (((repeated k (namespaces.drop v)).map fun t => t.reverse ++ suffix) ++ ·) := by
  induction k with
  | zero =>
    intro v r suffix _ hr
    exact ⟨1, fun fuel => by simpa [repeated] using combinations_loop_round fuel hr⟩
  | succ k ih =>
    intro v r suffix hv hr
    have hk : k < num_to_pick := by
      have := hr.length_eq
      omega
    -- The digit `k` goes through its values, from `v` to the last one.
    induction hn : namespaces.length - v generalizing v with
    | zero => omega
    | succ n ihn =>
      obtain ⟨m, hrun⟩ := ih v _ _ hv (hr.cons hv)
      have hstate : (fun j => if j < k + 1 then v else r j) =
          fun j => if j < k then v else update r k v j := by
        funext j
        by_cases hjk : j = k
        · simp [hjk]
        · have hiff : j < k + 1 ↔ j < k := by omega
          simp [hiff, update_of_ne hjk]
      have hresume (fuel : Nat) : resume_at namespaces num_to_pick k fuel (update r k v) =
          loop_from namespaces num_to_pick k fuel fun j => if j < k + 1 then v + 1 else r j := by
        unfold resume_at
        congr 1
        funext j
        by_cases hjk : j ≤ k
        · simp [hjk, lt_succ_of_le hjk]
        · simp [hjk, update_of_ne (show j ≠ k from by omega)]
      have hchoices : repeated (k + 1) (namespaces.drop v) =
          (repeated k (namespaces.drop v)).map (namespaces[v] :: ·) ++
            repeated (k + 1) (namespaces.drop (v + 1)) := by
        rw [drop_eq_getElem_cons hv, repeated_cons]
      by_cases hlast : v + 1 < namespaces.length
      · obtain ⟨m', hrun'⟩ := ihn (v + 1) hlast (by omega)
        refine ⟨m' + m, fun fuel => ?_⟩
        have hback : loop_from namespaces num_to_pick k (fuel + m')
              (fun j => if j < k + 1 then v + 1 else r j) =
            combinations_loop namespaces num_to_pick (fuel + m')
              fun j => if j < k + 1 then v + 1 else r j := by
          rw [combinations_loop_eq, loop_from_of_le (zero_le k) hk.le]
          intro j hj
          rw [if_pos (by omega)]
          omega
        rw [← add_assoc, hstate, hrun, hresume, hback, hrun', hchoices]
        simp [comp_def]
      · refine ⟨m, fun fuel => ?_⟩
        -- The digit is past the end, and the next one moves on.
        have hcarry : carry_index (namespaces.length - 1) (fun j => if j < k + 1 then v + 1 else r j) k =
            fun j => if j ≤ k + 1 then r (k + 1) + 1 else r j := by
          unfold carry_index
          rw [if_pos (by simp; omega)]
          funext j
          by_cases hj : j ≤ k + 1
          · simp [hj]
          · simp [hj, show ¬ j < k + 1 from by omega]
        have hend : namespaces.drop (v + 1) = [] := drop_of_length_le (by omega)
        rw [hstate, hrun, hresume, loop_from_step hk, hcarry, hchoices, hend, repeated_nil,
          append_nil]
        simp [resume_at, comp_def]

/-- Every choice of `num_to_pick` elements, in some order, once. -/
theorem generate_namespace_combinations_eq {namespaces : List T} (hne : namespaces ≠ [])
    (num_to_pick : Nat) : ∃ m, ∀ fuel ≥ m,
      generate_namespace_combinations_with_repetition fuel namespaces num_to_pick =
        some ((repeated num_to_pick namespaces).map reverse) := by
  have hstands : Stands namespaces num_to_pick num_to_pick (fun _ => 0) [] := ⟨by simp, by simp, rfl⟩
  obtain ⟨m, hrun⟩ :=
    combinations_loop_level num_to_pick 0 _ _ (length_pos_iff.mpr hne) hstands
  refine ⟨m + 1, fun fuel hfuel => ?_⟩
  obtain ⟨fuel', rfl⟩ := Nat.exists_eq_add_of_le' hfuel
  have h := hrun (fuel' + 1)
  simp only [ite_self, append_nil, drop_zero] at h
  rw [generate_namespace_combinations_with_repetition, show fuel' + (m + 1) = fuel' + 1 + m from by omega, h]
  simp [resume_at, loop_from, finish_round]

end Combinations

/-! ## Permutations -/

section Permutations

variable {namespaces : List T} {picks : Nat}

/-- A tuple is added, and the loop goes on at the last place. -/
def add_tuple (namespaces : List T) (num_to_pick fuel : Nat) (indices : Nat → Nat) :
    Option (List (List T)) := do
  let values ← indices_to_values_one_based indices num_to_pick namespaces
  let result ← permutations_loop namespaces num_to_pick fuel indices num_to_pick
  pure (values :: result)

/-- The indices with `w` at the place `p` and one after it. -/
def set_index (indices : Nat → Nat) (p w : Nat) : Nat → Nat := fun k =>
  if k < p then indices k else if k = p then w else 1

/-- The places from `p` on have been through all their values. -/
def go_on_before (namespaces : List T) (num_to_pick p fuel : Nat) (indices : Nat → Nat) :
    Option (List (List T)) :=
  if p = 0 then some [] else permutations_loop namespaces num_to_pick fuel indices p

theorem permutations_loop_of_lt {p fuel : Nat} {indices : Nat → Nat}
    (h : indices p ≠ namespaces.length) :
    permutations_loop namespaces picks (fuel + 1) indices (p + 1) =
      add_tuple namespaces picks fuel (set_index indices p (indices p + 1)) := by
  rw [permutations_loop, Nat.add_sub_cancel, if_neg h]
  rfl

theorem permutations_loop_of_eq {p fuel : Nat} (h : indices p = namespaces.length) :
    permutations_loop namespaces picks (fuel + 1) indices (p + 1) =
      go_on_before namespaces picks p fuel indices := by
  rw [permutations_loop, Nat.add_sub_cancel, if_pos h]
  rfl

/-- The places before `p` stand at the values of `chosen`. -/
def StandsBefore (namespaces : List T) (p : Nat) (indices : Nat → Nat) (chosen : List T) : Prop :=
  chosen.length = p ∧ ∀ (j : Nat) (hj : j < chosen.length), namespaces[indices j - 1]? = some chosen[j]

/-- The places from `p` on go through all tuples. -/
theorem add_tuple_level (hpick : picks ≠ 0) (hne : namespaces ≠ []) (q : Nat) :
    ∀ (p : Nat) (indices : Nat → Nat) (chosen : List T), p + q = picks →
    StandsBefore namespaces p indices chosen → (∀ j, p ≤ j → indices j = 1) →
    ∃ (m : Nat) (indices' : Nat → Nat), (∀ j < p, indices' j = indices j) ∧ ∀ fuel,
      add_tuple namespaces picks (fuel + m) indices =
        (go_on_before namespaces picks p fuel indices').map
          (((ordered_tuples (fun _ => namespaces) (replicate q ())).map (chosen ++ ·)) ++ ·) := by
  induction q with
  | zero =>
    intro p indices chosen hp hstands _
    refine ⟨0, indices, fun _ _ => rfl, fun fuel => ?_⟩
    have hvalues : indices_to_values_one_based indices picks namespaces = some chosen := by
      unfold indices_to_values_one_based
      rw [show picks = chosen.length from by rw [hstands.1]; omega]
      exact mapM_range_eq chosen hstands.2
    obtain rfl : p = picks := by omega
    simp only [add_tuple, hvalues, go_on_before, hpick, if_false, add_zero]
    cases permutations_loop namespaces p fuel indices p <;> simp [ordered_tuples]
  | succ q ih =>
    intro p indices chosen hp hstands hones
    have hcons (w : Nat) (hw : 0 < w) (hle : w ≤ namespaces.length) :
        namespaces.drop (w - 1) = namespaces[w - 1] :: namespaces.drop w := by
      rw [drop_eq_getElem_cons (by omega), Nat.sub_add_cancel hw]
    -- With `w` at the place `p`, the places after it go through all tuples.
    have hinner (w : Nat) (hw : 0 < w) (hle : w ≤ namespaces.length) :
        ∃ (m : Nat) (indices₁ : Nat → Nat), (∀ j < p + 1, indices₁ j = set_index indices p w j) ∧
          ∀ fuel, add_tuple namespaces picks (fuel + m) (set_index indices p w) =
            (permutations_loop namespaces picks fuel indices₁ (p + 1)).map
              (((ordered_tuples (fun _ => namespaces) (replicate q ())).map
                (chosen ++ [namespaces[w - 1]] ++ ·)) ++ ·) := by
      refine ih (p + 1) (set_index indices p w) (chosen ++ [namespaces[w - 1]]) (by omega) ⟨?_, ?_⟩ ?_
      · simp [hstands.1]
      · intro j hj
        by_cases hjp : j < p
        · have hj' : j < chosen.length := hstands.1 ▸ hjp
          rw [set_index, if_pos hjp, hstands.2 j hj', getElem_append_left hj']
        · obtain rfl : j = chosen.length := by
            have hlen := hstands.1
            simp at hj
            omega
          rw [set_index, if_neg hjp, if_pos hstands.1, getElem_concat_length rfl,
            getElem?_eq_getElem]
      · intro j hj
        rw [set_index, if_neg (by omega), if_neg (by omega)]
    -- The place `p` goes through its values, from `w` to the last one.
    have hplace (w : Nat) (hw : 0 < w) (hle : w ≤ namespaces.length) :
        ∃ (m : Nat) (indices' : Nat → Nat), (∀ j < p, indices' j = indices j) ∧ ∀ fuel,
          add_tuple namespaces picks (fuel + m) (set_index indices p w) =
            (go_on_before namespaces picks p fuel indices').map
              ((((namespaces.drop (w - 1)).flatMap fun a =>
                (ordered_tuples (fun _ => namespaces) (replicate q ())).map
                  (a :: ·)).map (chosen ++ ·)) ++ ·) := by
      induction hn : namespaces.length - w generalizing w with
      | zero =>
        obtain ⟨m, indices₁, hsame, hrun⟩ := hinner w hw hle
        refine ⟨1 + m, indices₁, fun j hj => (hsame j (by omega)).trans (if_pos hj), fun fuel => ?_⟩
        have hlast : indices₁ p = namespaces.length := by
          rw [hsame p (by omega), set_index, if_neg (lt_irrefl p), if_pos rfl]
          omega
        have hdrop : namespaces.drop w = [] := drop_of_length_le (by omega)
        rw [← add_assoc, hrun, permutations_loop_of_eq hlast, hcons w hw hle, hdrop]
        simp [comp_def]
      | succ n ihn =>
        obtain ⟨m, indices₁, hsame, hrun⟩ := hinner w hw hle
        obtain ⟨m', indices₂, hsame', hrun'⟩ := ihn (w + 1) (by omega) (by omega) (by omega)
        refine ⟨m' + (1 + m), indices₂, hsame', fun fuel => ?_⟩
        have hhere : indices₁ p = w := by
          rw [hsame p (by omega), set_index, if_neg (lt_irrefl p), if_pos rfl]
        have hnext : set_index indices₁ p (w + 1) = set_index indices p (w + 1) := by
          funext k
          unfold set_index
          split
          case isTrue hk =>
            rw [hsame k (by omega), set_index, if_pos hk]
          case isFalse => rfl
        rw [← add_assoc, ← add_assoc, hrun, permutations_loop_of_lt (by omega), hhere, hnext,
          hrun', hcons w hw hle]
        simp [comp_def]
    obtain ⟨m, indices', hsame, hrun⟩ := hplace 1 one_pos (length_pos_iff.mpr hne)
    refine ⟨m, indices', hsame, fun fuel => ?_⟩
    have hstart : indices = set_index indices p 1 := by
      funext k
      unfold set_index
      split
      · rfl
      · rw [hones k (by omega), ite_self]
    rw [hstart, hrun]
    rfl

/-- Every tuple, once. -/
theorem generate_namespace_permutations_eq (hne : namespaces ≠ []) (hpick : picks ≠ 0) :
    ∃ m, ∀ fuel ≥ m,
      generate_namespace_permutations_with_repetition fuel namespaces picks =
        some (ordered_tuples (fun _ => namespaces) (replicate picks ())) := by
  have hstands : StandsBefore namespaces 0 (fun _ => 1) [] := ⟨rfl, by simp⟩
  obtain ⟨m, indices', -, hrun⟩ :=
    add_tuple_level hpick hne picks 0 _ [] (zero_add _) hstands fun _ _ => rfl
  refine ⟨m + 1, fun fuel hfuel => ?_⟩
  obtain ⟨fuel', rfl⟩ := Nat.exists_eq_add_of_le' hfuel
  obtain ⟨n, rfl⟩ := exists_eq_succ_of_ne_zero hpick
  -- The first round makes the first tuple.
  have hfirst : (if n < n + 1 - 1 then 1 else 0) ≠ namespaces.length := by
    have := length_pos_iff.mpr hne
    simp
    omega
  have hones : set_index (fun i => if i < n + 1 - 1 then 1 else 0) n
      ((if n < n + 1 - 1 then 1 else 0) + 1) = fun _ => 1 := by
    funext k
    unfold set_index
    by_cases hk : k < n
    · simp [hk]
    · simp [hk]
  have hround := @permutations_loop_of_lt T namespaces (n + 1) n (fuel' + m)
    (fun i => if i < n + 1 - 1 then 1 else 0) hfirst
  rw [hones, hrun] at hround
  rw [generate_namespace_permutations_with_repetition, ← add_assoc, hround]
  simp [go_on_before]

end Permutations

end VW
