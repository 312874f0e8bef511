import VowpalWabbit.FeatureGroup.Extents

/-! # The rows of a feature group

    The values, the indices and the extents of a group are changed in step. A
    sort and the removal of duplicates are the same for any list of rows, and
    every run keeps the extents well-formed.
-/

open Cpp Nat

namespace VW

open List Extents

/-! ## Permutations -/

section Permutation

variable {α β : Type}

theorem swap_at_map (f : α → β) (vec : List α) (i j : Nat) :
    swap_at (vec.map f) i j = (swap_at vec i j).map f := by
  unfold swap_at
  rw [getElem?_map, getElem?_map]
  cases vec[i]? with
  | none => rfl
  | some x =>
    cases vec[j]? with
    | none => rfl
    | some y => simp [map_set]

theorem follow_cycle_map (f : α → β) (p : List Nat) (i fuel prev_j j : Nat) (done : List Bool)
    (vec : List α) :
    follow_cycle p i fuel prev_j j (done, vec.map f) =
      ((follow_cycle p i fuel prev_j j (done, vec)).1,
        (follow_cycle p i fuel prev_j j (done, vec)).2.map f) := by
  induction fuel generalizing prev_j j done vec with
  | zero => rfl
  | succ fuel ih =>
    rw [follow_cycle, follow_cycle]
    split
    · rfl
    · rw [swap_at_map, ih]

/-- The swaps do not depend on what is in the vector. -/
theorem apply_permutation_in_place_map (f : α → β) (p : List Nat) (vec : List α) :
    apply_permutation_in_place p (vec.map f) = (apply_permutation_in_place p vec).map f := by
  unfold apply_permutation_in_place
  rw [length_map]
  have hfold : ∀ (is : List Nat) (done : List Bool) (l : List α),
      is.foldl (fun (s : List Bool × List β) i =>
        if s.1.getD i true then s
        else follow_cycle p i vec.length i (p.getD i 0) (s.1.set i true, s.2)) (done, l.map f) =
      Prod.map id (map f) (is.foldl (fun (s : List Bool × List α) i =>
        if s.1.getD i true then s
        else follow_cycle p i vec.length i (p.getD i 0) (s.1.set i true, s.2)) (done, l)) := by
    intro is
    induction is with
    | nil => exact fun _ _ => rfl
    | cons i is ih =>
      intro done l
      rw [foldl_cons, foldl_cons]
      by_cases hdone : done.getD i true = true
      · rw [if_pos hdone, if_pos hdone]
        exact ih done l
      · rw [if_neg hdone, if_neg hdone, follow_cycle_map]
        exact ih _ _
  rw [hfold]
  rfl

theorem follow_cycle_perm (p : List Nat) (i fuel prev_j j : Nat) (s : List Bool × List α) :
    (follow_cycle p i fuel prev_j j s).2.Perm s.2 := by
  induction fuel generalizing prev_j j s with
  | zero => exact List.Perm.refl _
  | succ fuel ih =>
    rw [follow_cycle]
    split
    · exact List.Perm.refl _
    · exact (ih _ _ _).trans (perm_swap_at _ _ _)

theorem apply_permutation_in_place_perm (p : List Nat) (vec : List α) :
    (apply_permutation_in_place p vec).Perm vec := by
  unfold apply_permutation_in_place
  refine foldlRecOn (motive := fun (s : List Bool × List α) => s.2.Perm vec) _ _ (List.Perm.refl _)
    fun s hs i _ => ?_
  split
  · exact hs
  · exact (follow_cycle_perm _ _ _ _ _ _).trans hs

end Permutation

/-! ## Duplicates -/

section Unique

variable {α κ : Type} [DecidableEq κ] {index : α → κ}

/-- The loop keeps the rows in front of it as `distinct_after` says, and leaves
    those behind `last_index` as they were. -/
theorem unique_loop_spec {max : Nat} {vec : List α} (count : Nat) {i last_index : Nat}
    {rows kept : List α} {x : α} (hlen : vec.length = i + count) (hkept : kept.length = last_index + 1)
    (hlt : last_index < i) (hmax : kept.length < max) (hlast : kept.getLast? = some x)
    (hrows : rows = kept ++ vec.drop kept.length) :
    (unique_loop index max count i last_index rows).1 + 1
      = ((kept ++ distinct_after index x (vec.drop i)).take max).length ∧
    (unique_loop index max count i last_index rows).2
      = (kept ++ distinct_after index x (vec.drop i)).take max
        ++ vec.drop ((kept ++ distinct_after index x (vec.drop i)).take max).length := by
  induction count generalizing i last_index rows kept x with
  | zero =>
    rw [unique_loop, drop_eq_nil_of_le (by omega), distinct_after, append_nil,
      take_of_length_le hmax.le]
    exact ⟨hkept.symm, hrows⟩
  | succ count ih =>
    -- The row that is looked at is still the original one.
    obtain ⟨y, hy⟩ : ∃ y, vec[i]? = some y :=
      ⟨_, getElem?_eq_getElem (show i < vec.length by omega)⟩
    have hrow : rows[i]? = some y := by
      rw [hrows, getElem?_append_right (by omega), getElem?_drop,
        show kept.length + (i - kept.length) = i by omega]
      exact hy
    have hprev : rows[last_index]? = some x := by
      rw [hrows, getElem?_append_left (by omega), ← hlast, getLast?_eq_getElem?, hkept]
      rfl
    have hdrop : vec.drop i = y :: vec.drop (i + 1) := by
      obtain ⟨hi, rfl⟩ := List.getElem?_eq_some_iff.mp hy
      exact drop_eq_getElem_cons hi
    rw [unique_loop, hrow, hprev, hdrop, distinct_after]
    by_cases hne : index y ≠ index x
    · simp only [if_pos hne]
      have hlen' : (kept ++ [y]).length = last_index + 1 + 1 := by
        rw [length_append, hkept]
        rfl
      have hnew : (if i ≠ last_index + 1 then rows.set (last_index + 1) y else rows)
          = (kept ++ [y]) ++ vec.drop (kept ++ [y]).length := by
        by_cases hi : i = last_index + 1
        · rw [if_neg (not_not.mpr hi), hrows, hkept, ← hi, hdrop, hlen', ← hi]
          simp
        · obtain ⟨z, hz⟩ : ∃ z, vec.drop (last_index + 1) = z :: vec.drop (last_index + 1 + 1) :=
            ⟨_, drop_eq_getElem_cons (show last_index + 1 < vec.length by omega)⟩
          rw [if_pos hi, hrows, hkept, hz, hlen', set_append_right _ _ hkept.le, hkept,
            Nat.sub_self]
          simp
      rw [hnew]
      have hassoc : kept ++ y :: distinct_after index y (vec.drop (i + 1))
          = (kept ++ [y]) ++ distinct_after index y (vec.drop (i + 1)) := by simp
      rw [hassoc]
      by_cases hfull : max ≤ last_index + 1 + 1
      · -- The limit is reached.
        have htake : ((kept ++ [y]) ++ distinct_after index y (vec.drop (i + 1))).take max
            = kept ++ [y] := by
          rw [take_append_of_le_length (by omega), take_of_length_le (by omega)]
        rw [if_pos hfull, htake]
        exact ⟨hlen'.symm, rfl⟩
      · rw [if_neg hfull]
        exact ih (by omega) hlen' (by omega) (by omega) (by simp) rfl
    · simp only [if_neg hne]
      exact ih (by omega) hkept (by omega) hmax hlast hrows

theorem two_le_signExtend {max : BitVec 32} (h0 : max ≠ 0) (h1 : max ≠ 1) :
    2 ≤ (max.signExtend 64).toNat := by
  have hmax : 2 ≤ max.toNat := by
    have h0' : max.toNat ≠ 0 := fun h => h0 (BitVec.eq_of_toNat_eq h)
    have h1' : max.toNat ≠ 1 := fun h => h1 (BitVec.eq_of_toNat_eq h)
    omega
  rw [BitVec.toNat_signExtend, BitVec.toNat_setWidth]
  have := max.isLt
  omega

/-- What the removal of duplicates does to rows, all positions included. -/
theorem unique_loop_distinct {max : BitVec 32} (h0 : max ≠ 0) (h1 : max ≠ 1) {rows : List α}
    (hne : rows ≠ []) :
    (unique_loop index (max.signExtend 64).toNat (rows.length - 1) 1 0 rows).1 + 1
      = (distinct index max rows).length ∧
    (unique_loop index (max.signExtend 64).toNat (rows.length - 1) 1 0 rows).2
      = distinct index max rows ++ rows.drop (distinct index max rows).length := by
  cases rows with
  | nil => exact absurd rfl hne
  | cons x rest =>
    have hmax := two_le_signExtend h0 h1
    exact @unique_loop_spec _ _ _ _ _ (x :: rest) rest.length _ _ _ [x] _ (by simp; omega) rfl
      one_pos hmax rfl rfl

theorem distinct_after_sublist (last : α) (rows : List α) :
    (distinct_after index last rows).Sublist rows := by
  induction rows generalizing last with
  | nil => exact List.Sublist.slnil
  | cons x rows ih =>
    rw [distinct_after]
    split
    · exact (ih x).cons_cons x
    · exact (ih last).cons x

theorem distinct_sublist (max : BitVec 32) (rows : List α) : (distinct index max rows).Sublist rows := by
  cases rows with
  | nil => exact List.Sublist.slnil
  | cons x rows =>
    exact (take_sublist _ _).trans ((distinct_after_sublist x rows).cons_cons x)

/-- Which rows are kept depends on their indices only. -/
theorem distinct_map {β : Type} (f : α → β) (index' : β → κ) (h : ∀ x, index' (f x) = index x)
    (max : BitVec 32) (rows : List α) :
    distinct index' max (rows.map f) = (distinct index max rows).map f := by
  have hafter : ∀ (rows : List α) (last : α),
      distinct_after index' (f last) (rows.map f) = (distinct_after index last rows).map f := by
    intro rows
    induction rows with
    | nil => exact fun _ => rfl
    | cons x rows ih =>
      intro last
      rw [map_cons, distinct_after, distinct_after, h, h]
      split
      · rw [ih, map_cons]
      · exact ih last
  cases rows with
  | nil => rfl
  | cons x rows =>
    rw [map_cons, distinct, distinct, hafter, ← map_cons, map_take]

end Unique

/-! ## Well-formed groups -/

namespace Features

variable {V : Type}

def WellFormed (f : Features V) : Prop := Extents.WellFormed f.size f.namespace_extents

def Closed (f : Features V) : Prop := Extents.Closed f.namespace_extents f.size

theorem Closed.wellFormed {f : Features V} (h : f.Closed) : f.WellFormed := Extents.WellFormed.closed h

theorem not_isOpen_of_closed {f : Features V} (h : f.Closed) : ¬ f.IsOpen := by
  intro hopen
  obtain ⟨back, hback, hend⟩ := hopen
  exact h.end_ne_zero (mem_of_getLast? hback) hend

theorem WellFormed.closed {f : Features V} (h : f.WellFormed) (hopen : ¬ f.IsOpen) : f.Closed := by
  unfold WellFormed at h
  unfold IsOpen at hopen
  unfold Closed
  generalize f.namespace_extents = extents at h hopen ⊢
  cases h with
  | closed h => exact h
  | opened h hb =>
    rename_i extents b hash
    exact absurd ⟨⟨b, 0, hash⟩, by simp, rfl⟩ hopen

theorem WellFormed.opened {f : Features V} (h : f.WellFormed) (hopen : f.IsOpen) :
    ∃ extents b hash, f.namespace_extents = extents ++ [⟨b, 0, hash⟩] ∧ Extents.Closed extents b ∧
      b ≤ f.size := by
  rcases hext : f.namespace_extents with _ | ⟨e, es⟩
  · obtain ⟨back, hback, -⟩ := hopen
    rw [hext] at hback
    cases hback
  · unfold WellFormed at h
    rw [hext] at h
    generalize hes : e :: es = extents at h
    cases h with
    | closed h =>
      exfalso
      apply not_isOpen_of_closed (f := f) _ hopen
      unfold Closed
      rw [hext, hes]
      exact h
    | opened h hb => exact ⟨_, _, _, rfl, h, hb⟩

section Rows

variable {f : Features V} (h : f.Closed)

include h

theorem length_flattened :
    (flatten_namespace_extents f.namespace_extents f.indices.length).length
      = f.indices.length := by
  rw [← f.size_eq]
  exact Extents.length_flatten h

theorem length_rows : f.rows.length = f.size := by
  unfold rows
  rw [length_zip, length_zip, length_flattened h, min_self, ← f.size_eq, min_self]
  rfl

theorem map_value_rows : f.rows.map (fun row => row.1) = f.values := by
  unfold rows
  apply map_fst_zip
  rw [length_zip, length_flattened h, min_self, f.size_eq]

theorem map_snd_rows : f.rows.map Prod.snd = f.indices.zip
    (flatten_namespace_extents f.namespace_extents f.indices.length) := by
  unfold rows
  apply map_snd_zip
  rw [length_zip, length_flattened h, min_self, f.size_eq]

theorem map_index_rows : f.rows.map (fun row => row.2.1) = f.indices := by
  calc f.rows.map (fun row => row.2.1) = (f.rows.map Prod.snd).map Prod.fst := by
        rw [map_map]
        rfl
    _ = f.indices := by
        rw [map_snd_rows h]
        exact map_fst_zip (length_flattened h).ge

theorem map_flattened_rows : f.rows.map (fun row => row.2.2)
    = flatten_namespace_extents f.namespace_extents f.indices.length := by
  calc f.rows.map (fun row => row.2.2) = (f.rows.map Prod.snd).map Prod.snd := by
        rw [map_map]
        rfl
    _ = _ := by
        rw [map_snd_rows h]
        exact map_snd_zip (length_flattened h).le

end Rows

section Truncate

theorem size_truncate_to_given [Sub V] (f : Features V) {i : Nat} (hi : i ≤ f.size) (sum : V) :
    (f.truncate_to_given i sum).size = i := by
  unfold truncate_to_given
  split
  · rename_i heq
    exact heq.symm
  · show (f.values.take i).length = i
    rw [length_take]
    exact min_eq_left hi

/-- A truncation, whatever is done to the sum. -/
theorem wellFormed_truncate_to_given [Sub V] {f : Features V} (h : f.WellFormed) {i : Nat}
    (hi : i ≤ f.size) (sum : V) : (f.truncate_to_given i sum).WellFormed := by
  unfold WellFormed
  rw [size_truncate_to_given f hi]
  unfold truncate_to_given
  by_cases heq : i = f.size
  · rw [if_pos heq, heq]
    exact h
  · rw [if_neg heq]
    unfold WellFormed at h
    generalize f.namespace_extents = extents at h ⊢
    cases h with
    | closed h => exact .closed (closed_truncate_to h i)
    | opened h hb =>
      rename_i extents b hash
      rw [truncate_to_append]
      by_cases hle : i ≤ b
      · -- The open extent is cut off.
        rw [if_pos hle]
        exact .closed (closed_truncate_to h i)
      · rw [if_neg hle, if_neg (not_lt_zero i)]
        exact .opened h (Nat.le_of_not_le hle)

end Truncate

theorem closed_with_rows (f : Features V) (rows : List (V × FeatureIndex × (Bool × BitVec 64))) :
    (f.with_rows rows).Closed := by
  have hcovers := covers_unflatten (rows.map fun row => row.2.2)
  have hsize : (f.with_rows rows).size = rows.length := by
    show (rows.map fun row => row.1).length = _
    rw [length_map]
  unfold Closed
  rw [hsize]
  have := hcovers.closed
  rw [length_map, length_map] at this
  exact this

theorem closed_sort {f : Features V} (h : f.Closed) (p : List Nat) : (f.sort p).Closed := by
  unfold sort
  by_cases hempty : f.indices = []
  · rw [if_pos hempty]
    exact h
  · rw [if_neg hempty]
    have hcovers := covers_unflatten (apply_permutation_in_place p
      (flatten_namespace_extents f.namespace_extents f.indices.length))
    have hclosed := hcovers.closed
    rw [length_map, length_apply_permutation_in_place, length_flattened h] at hclosed
    show Extents.Closed _ (apply_permutation_in_place p f.values).length
    rw [length_apply_permutation_in_place, f.size_eq]
    exact hclosed

section Apply

variable [CommRing V]

variable {f : Features V}

theorem wellFormed_unique_features (h : f.Closed) (max : BitVec 32) :
    (f.unique_features max).WellFormed := by
  unfold unique_features
  by_cases hempty : f.indices = []
  · rw [if_pos hempty]
    exact h.wellFormed
  · rw [if_neg hempty]
    have hne : f.rows ≠ [] := by
      intro hnil
      have := length_rows h
      rw [hnil, size, f.size_eq] at this
      exact hempty (length_eq_zero_iff.mp this.symm)
    have hpos : 1 ≤ f.size := by
      rw [← length_rows h]
      exact length_pos_iff.mpr hne
    by_cases h0 : max = 0
    · rw [if_pos h0]
      exact Extents.WellFormed.closed (Extents.closed_nil 0)
    · rw [if_neg h0]
      by_cases h1 : max = 1
      · rw [if_pos h1]
        exact wellFormed_truncate_to_given h.wellFormed hpos _
      · rw [if_neg h1]
        apply wellFormed_truncate_to_given (closed_with_rows _ _).wellFormed
        have hspec := @unique_loop_distinct _ _ _
          (fun row : V × FeatureIndex × (Bool × BitVec 64) => row.2.1) _ h0 h1 _ hne
        rw [length_rows h] at hspec
        show _ ≤ (map _ _).length
        rw [length_map, hspec.1, hspec.2, length_append]
        exact le_add_right _ _

theorem wellFormed_push_back_hash (h : f.WellFormed) (v : V) (i : FeatureIndex) (hash : BitVec 64) :
    (f.push_back_hash v i hash).WellFormed := by
  have hsize : (f.push_back_hash v i hash).size = f.size + 1 := length_append
  unfold WellFormed at h ⊢
  rw [hsize]
  show Extents.WellFormed _ (Extents.push_back f.namespace_extents f.indices.length hash)
  rw [← f.size_eq]
  show Extents.WellFormed _ (Extents.push_back f.namespace_extents f.size hash)
  generalize f.namespace_extents = extents at h ⊢
  cases h with
  | closed h => exact .closed (closed_push_back h hash)
  | opened h hb =>
    rename_i extents b other
    by_cases hsame : other = hash
    · rw [hsame, push_back_opened]
      exact .opened h (le_succ_of_le hb)
    · rw [push_back_opened_other h hb hsame]
      exact .closed (closed_push_back (closed_end_ns_extent h hb) hash)

theorem wellFormed_apply [LT V] (h : f.WellFormed) {op : Op V} (hop : op.Allowed f) :
    (f.apply op).WellFormed := by
  cases op with
  | push_back v i =>
    have hsize : (f.push_back v i).size = f.size + 1 := length_append
    unfold WellFormed at h ⊢
    show Extents.WellFormed (f.push_back v i).size f.namespace_extents
    rw [hsize]
    generalize f.namespace_extents = extents at h ⊢
    cases h with
    | closed h => exact .closed (h.mono (le_succ _))
    | opened h hb => exact .opened h (le_succ_of_le hb)
  | push_back_hash v i hash => exact wellFormed_push_back_hash h v i hash
  | start_ns_extent hash =>
    show Extents.WellFormed f.size (f.namespace_extents ++ [⟨f.indices.length, 0, hash⟩])
    rw [← f.size_eq]
    exact .opened (h.closed hop) (le_refl _)
  | end_ns_extent =>
    obtain ⟨extents, b, hash, hext, hclosed, hb⟩ := h.opened hop
    show Extents.WellFormed f.size (Extents.end_ns_extent f.namespace_extents f.indices.length)
    rw [hext, ← f.size_eq]
    exact .closed (closed_end_ns_extent hclosed hb)
  | truncate_to_given i sum => exact wellFormed_truncate_to_given h hop.1 sum
  | truncate_to i => exact wellFormed_truncate_to_given h hop _
  | sort parse_mask p => exact (closed_sort (h.closed hop.1) p).wellFormed
  | unique_features max => exact wellFormed_unique_features (h.closed hop) max
  | clear => exact Extents.WellFormed.closed (Extents.closed_nil 0)

end Apply

end Features

/-- Every run keeps the extents in order. -/
theorem Reaches.wellFormed {V : Type} [CommRing V] [LT V] {c : StepCondition V} {f : Features V}
    {t : Tagged V} (h : Reaches c f t) : f.WellFormed := by
  induction h with
  | empty => exact Extents.WellFormed.closed (Extents.closed_nil 0)
  | step op _ hop _ ih => exact Features.wellFormed_apply ih hop
  | @concat f g _ _ _ _ hf hg _ ihf ihg =>
    have hsize : (f.concat g).size = f.size + g.size := length_append
    unfold Features.WellFormed
    rw [hsize]
    apply Extents.WellFormed.closed
    show Extents.Closed (Extents.concat f.namespace_extents g.namespace_extents f.indices.length) _
    rw [← f.size_eq]
    exact closed_concat (ihf.closed hf) (ihg.closed hg)

end VW
