import VowpalWabbit.Interactions.Wildcards

/-! # Duplicate interactions

    `sort_and_filter_duplicate_interactions` sorts by content, stably, so that of the interactions
    with the same terms the first is in front, and then back into the original order.
-/

open Cpp

namespace VW

open List LinearComparator

section Duplicates

variable {T : Type} [DecidableEq T] (c : LinearComparator T)

/-- `removed_cnt`, as the function leaves it. -/
def removed_cnt (vec : List (List T)) (filter_duplicates : Bool) : Nat :=
  if filter_duplicates then
    vec.length - (unique Prod.fst (c.lex.stable_sort Prod.fst (sorted_entries c vec))).length
  else 0

/-- The first interaction of each class of interactions with the same terms, in the order of the list. -/
def firsts (vec : List (List T)) : List (List T) :=
  (vec.zipIdx.filter fun f => ∀ g ∈ vec.zipIdx, g.1.Perm f.1 → f.2 ≤ g.2).map Prod.fst

/-- No other term stands between equal ones. -/
def Contiguous (inter : List T) : Prop :=
  ∀ (t : T) (front between back : List T), inter = front ++ t :: (between ++ t :: back) → ∀ x ∈ between, x = t

/-! ## The kept entries -/

/-- The entries that stand before all others with the same terms. -/
def first_entries (vec : List (List T)) : List (List T × Nat) :=
  (sorted_entries c vec).filter fun entry => ∀ other ∈ sorted_entries c vec, other.1 = entry.1 → entry.2 ≤ other.2

omit [DecidableEq T] in
theorem sorted_entries_ascend (vec : List (List T)) : (sorted_entries c vec).Pairwise fun x y => x.2 < y.2 := by
  refine pairwise_map.mpr ?_
  have hmap : (vec.zipIdx.map Prod.snd).Pairwise (· < ·) := by
    rw [zipIdx_map_snd]
    exact pairwise_lt_range'
  exact pairwise_map.mp hmap

theorem unique_entries (vec : List (List T)) (entry : List T × Nat) :
    entry ∈ unique Prod.fst (c.lex.stable_sort Prod.fst (sorted_entries c vec)) ↔
      entry ∈ first_entries c vec := by
  have hstable := c.lex.stable_stable_sort Prod.fst (sorted_entries_ascend c vec)
  have hmem : ∀ {x}, x ∈ c.lex.stable_sort Prod.fst (sorted_entries c vec) ↔ x ∈ sorted_entries c vec :=
    (c.lex.perm_stable_sort Prod.fst _).mem_iff
  have hfirst : ∀ x ∈ unique Prod.fst (c.lex.stable_sort Prod.fst (sorted_entries c vec)),
      ∀ other ∈ sorted_entries c vec, other.1 = x.1 → x.2 ≤ other.2 := by
    intro x hx other hother heq
    obtain ⟨front, back, hsplit, hfront⟩ :=
      first_of_mem_unique c.lex (c.lex.ordered_stable_sort Prod.fst _) hx
    have hother' := hmem.mpr hother
    rw [hsplit] at hstable hother'
    -- another entry with the same terms stands behind
    rcases mem_append.mp hother' with hfront' | hback
    · exact absurd heq (hfront other hfront')
    · rcases mem_cons.mp hback with rfl | hback
      · exact Nat.le_refl _
      · exact Nat.le_of_lt ((pairwise_cons.mp (pairwise_append.mp hstable).2.1).1 other hback heq.symm)
  rw [first_entries, mem_filter, decide_eq_true_eq]
  constructor
  · intro h
    exact ⟨hmem.mp ((unique_sublist _ _).subset h), hfirst entry h⟩
  · rintro ⟨hentry, hleast⟩
    obtain ⟨x, hx, heq⟩ := mem_map.mp ((mem_keys_unique Prod.fst _ entry.1).mpr
      (mem_map_of_mem (hmem.mpr hentry)))
    have hx' := hmem.mp ((unique_sublist _ _).subset hx)
    have hposition := Nat.le_antisymm (hleast x hx' heq) (hfirst x hx entry hentry heq.symm)
    obtain rfl : entry = x := Prod.ext heq.symm hposition
    exact hx

/-- The second sort restores the order of the list. -/
theorem restored_entries (vec : List (List T)) :
    (of_key id fun _ _ h => h).stable_sort Prod.snd
      (unique Prod.fst (c.lex.stable_sort Prod.fst (sorted_entries c vec))) = first_entries c vec := by
  have hascend : (first_entries c vec).Pairwise fun x y => x.2 < y.2 := (sorted_entries_ascend c vec).filter _
  have hnodup : (unique Prod.fst (c.lex.stable_sort Prod.fst (sorted_entries c vec))).Nodup :=
    (nodup_keys_unique c.lex Prod.fst _).of_map _
  have hfirst_nodup : (first_entries c vec).Nodup := hascend.imp fun {x y} h heq => by
    rw [heq] at h
    exact Nat.lt_irrefl _ h
  have hperm := (perm_stable_sort (of_key id fun _ _ h => h) Prod.snd _).trans
    ((perm_ext_iff_of_nodup hnodup hfirst_nodup).mpr (unique_entries c vec))
  have hordered := ordered_stable_sort (of_key id fun _ _ h => h) Prod.snd
    (unique Prod.fst (c.lex.stable_sort Prod.fst (sorted_entries c vec)))
  refine hperm.eq_of_pairwise (fun x y hx hy hxy hyx => ?_) hordered
    (hascend.imp fun h => by simpa [of_key] using Nat.le_of_lt h)
  have hposition : x.2 = y.2 := by
    simp only [of_key, id, decide_eq_false_iff_not, not_lt] at hxy hyx
    omega
  obtain ⟨inter, hget, hsort⟩ := mem_sorted_entries c (mem_of_mem_filter (hperm.subset hx))
  obtain ⟨inter', hget', hsort'⟩ := mem_sorted_entries c (mem_of_mem_filter hy)
  obtain rfl : inter = inter' := Option.some.inj (hget.symm.trans (hposition ▸ hget'))
  exact Prod.ext (hsort.trans hsort'.symm) hposition

theorem sort_and_filter_firsts (vec : List (List T)) :
    sort_and_filter_duplicate_interactions c vec true = (firsts vec).map (grouped c) := by
  have hentries : sort_and_filter_duplicate_interactions c vec true =
      ((of_key id fun _ _ h => h).stable_sort Prod.snd
        (unique Prod.fst (c.lex.stable_sort Prod.fst (sorted_entries c vec)))).map (pick vec) := rfl
  have hfilter : first_entries c vec = (vec.zipIdx.filter fun f => ∀ g ∈ vec.zipIdx, g.1.Perm f.1 → f.2 ≤ g.2).map
      fun f => (c.sort f.1, f.2) := by
    unfold first_entries sorted_entries
    rw [filter_map]
    congr 1
    refine filter_congr fun f _ => ?_
    simp only [Function.comp_apply, forall_mem_map, c.sort_eq_iff]
  rw [hentries, restored_entries, hfilter, firsts, map_map, map_map]
  refine map_congr_left fun f hf => ?_
  have hentry : (c.sort f.1, f.2) ∈ sorted_entries c vec := mem_map_of_mem (mem_of_mem_filter hf)
  obtain ⟨inter, hget, hpick⟩ := pick_eq c hentry
  obtain rfl : f.1 = inter := Option.some.inj ((mem_zipIdx_iff_getElem?.mp (mem_of_mem_filter hf)).symm.trans hget)
  exact hpick

/-! ## Equal terms -/

theorem left_sorted_loop_chain (inter : List T) : ∀ diff_ns_found pair_found,
    left_sorted_loop diff_ns_found pair_found inter = false →
      (diff_ns_found = true → inter.IsChain (· ≠ ·)) ∧ (pair_found = true → inter.IsChain (· = ·)) ∧
        (inter.IsChain (· = ·) ∨ inter.IsChain (· ≠ ·)) := by
  induction inter with
  | nil => simp
  | cons a inter ih =>
    cases inter with
    | nil => simp
    | cons b oi =>
      intro diff_ns_found pair_found h
      rw [left_sorted_loop] at h
      by_cases hab : a = b
      · -- a pair, and no other terms before it
        rw [if_pos hab] at h
        split_ifs at h with hdiff
        have hequal := (ih _ _ h).2.1 rfl
        exact ⟨fun hcontra => absurd hcontra hdiff, fun _ => .cons_cons hab hequal, .inl (.cons_cons hab hequal)⟩
      · rw [if_neg hab] at h
        split_ifs at h with hpair
        have hdistinct := (ih _ _ h).1 rfl
        exact ⟨fun _ => .cons_cons hab hdistinct, fun hcontra => absurd hcontra hpair,
          .inr (.cons_cons hab hdistinct)⟩

omit [DecidableEq T] in
theorem nodup_of_chain {inter : List T} (hordered : inter.Pairwise fun x y => c.lt y x = false)
    (h : inter.IsChain (· ≠ ·)) : inter.Nodup := by
  induction inter with
  | nil => exact nodup_nil
  | cons a inter ih =>
    cases inter with
    | nil => exact nodup_singleton a
    | cons b oi =>
      obtain ⟨hab, hchain⟩ := isChain_cons_cons.mp h
      obtain ⟨ha, hb⟩ := pairwise_cons.mp hordered
      refine nodup_cons.mpr ⟨fun hmem => ?_, ih hb hchain⟩
      rcases mem_cons.mp hmem with heq | hmem
      · exact hab heq
      · exact hab (c.total ((pairwise_cons.mp hb).1 a hmem) (ha b mem_cons_self))

/-- Where nothing has to be sorted, the terms are all equal or all different. -/
theorem equal_or_distinct {inter : List T} (h : must_be_left_sorted (c.sort inter) = false) :
    (∀ x ∈ inter, ∀ y ∈ inter, x = y) ∨ inter.Nodup := by
  have hloop : left_sorted_loop false false (c.sort inter) = false := by
    unfold must_be_left_sorted at h
    split_ifs at h
    exact h
  have hperm := c.perm_sort inter
  rcases (left_sorted_loop_chain _ _ _ hloop).2.2 with hequal | hdistinct
  · refine .inl fun x hx y hy => ?_
    have hall := isChain_iff_pairwise.mp hequal
    exact hall.forall_of_forall (fun _ _ => rfl) (hperm.mem_iff.mpr hx) (hperm.mem_iff.mpr hy)
  · exact .inr (hperm.nodup_iff.mp (nodup_of_chain c (c.ordered_stable_sort id inter) hdistinct))

omit [DecidableEq T] in
theorem contiguous_of_ordered {inter : List T} (h : inter.Pairwise fun x y => c.lt y x = false) :
    Contiguous inter := by
  rintro t front between back rfl x hx
  obtain ⟨hbetween, hback⟩ := pairwise_cons.mp (pairwise_append.mp h).2.1
  exact c.total (hbetween x (mem_append_left _ hx)) ((pairwise_append.mp hback).2.2 x hx t mem_cons_self)

theorem contiguous_grouped (inter : List T) : Contiguous (grouped c inter) := by
  unfold grouped
  split
  · exact contiguous_of_ordered c (c.ordered_stable_sort id inter)
  · next h =>
    rintro t front between back heq x hx
    rcases equal_or_distinct c (by simpa using h) with hequal | hdistinct
    · exact hequal x (by rw [heq]; simp [hx]) t (by rw [heq]; simp)
    · rw [heq] at hdistinct
      exact absurd (by simp) (nodup_cons.mp (nodup_append.mp hdistinct).2.1).1

/-! ## Idempotence -/

theorem grouped_grouped (inter : List T) : grouped c (grouped c inter) = grouped c inter := by
  have hsort : c.sort (c.sort inter) = c.sort inter := c.sort_eq_iff.mpr (c.perm_sort inter)
  by_cases h : must_be_left_sorted (c.sort inter) = true
  · have hgrouped : grouped c inter = c.sort inter := if_pos h
    rw [hgrouped, grouped, hsort, if_pos h]
  · have hgrouped : grouped c inter = inter := if_neg h
    rw [hgrouped, hgrouped]

/-- A list without two interactions with the same terms is kept as it is. -/
theorem firsts_of_pairwise {vec : List (List T)} (h : vec.Pairwise fun x y => ¬ x.Perm y) : firsts vec = vec := by
  have hall : (vec.zipIdx.filter fun f => ∀ g ∈ vec.zipIdx, g.1.Perm f.1 → f.2 ≤ g.2) = vec.zipIdx := by
    refine filter_eq_self.mpr fun f hf => decide_eq_true fun g hg hperm => ?_
    by_contra hlt
    obtain ⟨hg_lt, hg_get⟩ := List.getElem?_eq_some_iff.mp (mem_zipIdx_iff_getElem?.mp hg)
    obtain ⟨hf_lt, hf_get⟩ := List.getElem?_eq_some_iff.mp (mem_zipIdx_iff_getElem?.mp hf)
    have hdiffer := pairwise_iff_getElem.mp h g.2 f.2 hg_lt hf_lt (by omega)
    rw [hg_get, hf_get] at hdiffer
    exact hdiffer hperm
  rw [firsts, hall, zipIdx_map_fst]

theorem sort_and_filter_idempotent (vec : List (List T)) :
    sort_and_filter_duplicate_interactions c (sort_and_filter_duplicate_interactions c vec true) true =
      sort_and_filter_duplicate_interactions c vec true := by
  have hnodup := nodup_sort_and_filter c vec
  have hdiffer : (sort_and_filter_duplicate_interactions c vec true).Pairwise fun x y => ¬ x.Perm y :=
    (pairwise_map.mp hnodup).imp fun h hperm => h (Multiset.coe_eq_coe.mpr hperm)
  rw [sort_and_filter_firsts c (sort_and_filter_duplicate_interactions c vec true), firsts_of_pairwise hdiffer,
    sort_and_filter_firsts, map_map]
  exact map_congr_left fun inter _ => grouped_grouped c inter

theorem removed_cnt_eq (vec : List (List T)) : removed_cnt c vec true =
    vec.length - (sort_and_filter_duplicate_interactions c vec true).length := by
  have hlength := congrArg length (restored_entries c vec)
  rw [(perm_stable_sort _ _ _).length_eq] at hlength
  have hentries : sort_and_filter_duplicate_interactions c vec true =
      ((of_key id fun _ _ h => h).stable_sort Prod.snd
        (unique Prod.fst (c.lex.stable_sort Prod.fst (sorted_entries c vec)))).map (pick vec) := rfl
  rw [hentries, restored_entries, length_map, removed_cnt, if_pos rfl, hlength]

/-- The first interaction of each class is left, as it is or sorted; without the filter all are. -/
theorem sort_and_filter_duplicates (vec : List (List T)) :
    sort_and_filter_duplicate_interactions c vec true = (firsts vec).map (grouped c) ∧
    removed_cnt c vec true = vec.length - (sort_and_filter_duplicate_interactions c vec true).length ∧
    sort_and_filter_duplicate_interactions c vec false = vec.map (grouped c) ∧
    removed_cnt c vec false = vec.length - (sort_and_filter_duplicate_interactions c vec false).length ∧
    (∀ inter, (grouped c inter = inter ∨ grouped c inter = c.sort inter) ∧ Contiguous (grouped c inter)) ∧
    ∀ filter_duplicates, sort_and_filter_duplicate_interactions c
      (sort_and_filter_duplicate_interactions c vec filter_duplicates) filter_duplicates =
        sort_and_filter_duplicate_interactions c vec filter_duplicates := by
  have hleave := sort_and_filter_leave c
  refine ⟨sort_and_filter_firsts c vec, removed_cnt_eq c vec, hleave vec, ?_,
    fun inter => ⟨?_, contiguous_grouped c inter⟩,
    fun filter_duplicates => ?_⟩
  · rw [hleave, length_map, Nat.sub_self]
    rfl
  · unfold grouped
    split
    · exact .inr rfl
    · exact .inl rfl
  · cases filter_duplicates with
    | true => exact sort_and_filter_idempotent c vec
    | false =>
      rw [hleave, hleave, map_map]
      exact map_congr_left fun inter _ => grouped_grouped c inter

end Duplicates

end VW
