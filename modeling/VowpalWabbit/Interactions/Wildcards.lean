import VowpalWabbit.Interactions.Odometers

/-! # What compiling interactions gives

    The interactions that an interaction with wildcards stands for are the tuples
    with a seen namespace for each wildcard. Compiling gives each of them, or one
    for each set of namespaces without their order, depending on which of the
    generators is used and on whether duplicates are filtered.
-/

open Cpp Tuples

namespace VW

open List LinearComparator

section Fill

variable {T : Type} (is_wildcard : T → Bool)

/-- The wildcards of an interaction replaced, one after the other. -/
def fill : List T → List T → List T
  | [], _ => []
  | s :: spec, [] => if is_wildcard s then fill spec [] else s :: fill spec []
  | s :: spec, r :: res => if is_wildcard s then r :: fill spec res else s :: fill spec (r :: res)

/-- What can stand in the place of a term. -/
def choices (seen : List T) (s : T) : List T := if is_wildcard s then seen else [s]

/-- All interactions that an interaction stands for. -/
def obtainable (seen : List T) (spec : List T) : List (List T) :=
  (spec.map (choices is_wildcard seen)).sections

theorem num_wildcards_cons (s : T) (spec : List T) :
    num_wildcards is_wildcard (s :: spec) =
      (if is_wildcard s then 1 else 0) + num_wildcards is_wildcard spec := by
  unfold num_wildcards
  by_cases h : is_wildcard s = true
  · simp [h, Nat.add_comm]
  · simp [h]

theorem insertIdx_append (pre res : List T) (s : T) :
    (pre ++ res).insertIdx pre.length s = pre ++ s :: res := by
  induction pre with
  | nil => simp
  | cons a pre ih => simp [ih]

theorem foldl_insert_fixed (spec : List T) : ∀ (pre res : List T),
    res.length = num_wildcards is_wildcard spec →
    (spec.zipIdx pre.length).foldl (fun res (term, i) =>
      if is_wildcard term then res else res.insertIdx i term) (pre ++ res) =
        pre ++ fill is_wildcard spec res := by
  induction spec with
  | nil =>
    intro pre res hlen
    obtain rfl : res = [] := eq_nil_of_length_eq_zero hlen
    simp [fill]
  | cons s spec ih =>
    intro pre res hlen
    rw [num_wildcards_cons] at hlen
    rw [zipIdx_cons, foldl_cons]
    by_cases hs : is_wildcard s = true
    · -- A wildcard has its value already.
      simp only [hs, if_true] at hlen ⊢
      cases res with
      | nil => simp at hlen; omega
      | cons r res =>
        have h := ih (pre ++ [r]) res (by simp at hlen; omega)
        simp only [length_append, length_singleton, append_assoc,
          singleton_append] at h
        simp [h, fill, hs]
    · simp only [hs, if_false, Nat.zero_add, Bool.false_eq_true] at hlen ⊢
      have h := ih (pre ++ [s]) res hlen
      simp only [length_append, length_singleton, append_assoc,
        singleton_append] at h
      rw [insertIdx_append, h]
      cases res <;> simp [fill, hs]

theorem insert_fixed_eq {spec res : List T} (hlen : res.length = num_wildcards is_wildcard spec) :
    insert_fixed is_wildcard spec res = fill is_wildcard spec res :=
  foldl_insert_fixed is_wildcard spec [] res hlen

/-- Replacing the wildcards by all tuples. -/
theorem ordered_tuples_fill (seen spec : List T) :
    ordered_tuples (choices is_wildcard seen) spec =
      (ordered_tuples (fun _ => seen)
        (replicate (num_wildcards is_wildcard spec) ())).map (fill is_wildcard spec) := by
  induction spec with
  | nil => simp [ordered_tuples, num_wildcards, fill]
  | cons s spec ih =>
    rw [num_wildcards_cons, ordered_tuples, ih, choices]
    by_cases hs : is_wildcard s = true
    · simp [hs, Nat.add_comm 1, replicate_succ, ordered_tuples, map_flatMap, fill,
        Function.comp_def]
    · have hfill (res : List T) : fill is_wildcard (s :: spec) res = s :: fill is_wildcard spec res := by
        cases res <;> simp [fill, hs]
      simp [hs, hfill, Function.comp_def]

/-- The terms of a filled interaction, without their order. -/
theorem coe_fill (spec : List T) : ∀ res : List T, res.length = num_wildcards is_wildcard spec →
    Multiset.ofList (fill is_wildcard spec res) =
      Multiset.ofList (spec.filter fun s => !is_wildcard s) + Multiset.ofList res := by
  induction spec with
  | nil =>
    intro res hlen
    obtain rfl : res = [] := eq_nil_of_length_eq_zero hlen
    rfl
  | cons s spec ih =>
    intro res hlen
    rw [num_wildcards_cons] at hlen
    by_cases hs : is_wildcard s = true
    · cases res with
      | nil => simp [hs] at hlen; omega
      | cons r res =>
        have h := ih res (by simp [hs] at hlen; omega)
        simp only [fill, hs, if_true, filter_cons, Bool.not_true, Bool.false_eq_true, if_false,
          ← Multiset.cons_coe, h, Multiset.add_cons]
    · have hfill : fill is_wildcard (s :: spec) res = s :: fill is_wildcard spec res := by
        cases res <;> simp [fill, hs]
      have h := ih res (by simpa [hs] using hlen)
      simp only [hfill, filter_cons, hs, Bool.not_false, if_true, ← Multiset.cons_coe, h,
        Multiset.cons_add]

theorem mem_ordered_replicate (seen : List T) (n : Nat) (t : List T) :
    t ∈ ordered_tuples (fun _ => seen) (replicate n ()) ↔ t.length = n ∧ ∀ a ∈ t, a ∈ seen := by
  induction n generalizing t with
  | zero => simp +contextual [ordered_tuples]
  | succ n ih =>
    simp only [replicate_succ, ordered_tuples, mem_flatMap, mem_map, ih]
    constructor
    · intro h
      obtain ⟨a, ha, t', ⟨hlen, hmem⟩, rfl⟩ := h
      exact ⟨by simp [hlen], by simpa using ⟨ha, hmem⟩⟩
    · intro h
      cases t with
      | nil => exact absurd h.1 (by simp)
      | cons a t' =>
        exact ⟨a, h.2 a mem_cons_self, t', ⟨by simpa using h.1,
          fun b hb => h.2 b (mem_cons_of_mem a hb)⟩, rfl⟩

/-- The sets of terms, without their order, that an interaction stands for. -/
theorem mem_obtainable (seen spec : List T) (m : Multiset T) :
    m ∈ (obtainable is_wildcard seen spec).map Multiset.ofList ↔
      ∃ w : Multiset T, (w.card = num_wildcards is_wildcard spec ∧ ∀ a ∈ w, a ∈ seen) ∧
        m = Multiset.ofList (spec.filter fun s => !is_wildcard s) + w := by
  have hperm := (ordered_tuples_perm_sections (choices is_wildcard seen) spec).map Multiset.ofList
  rw [obtainable, ← hperm.mem_iff, ordered_tuples_fill, map_map, mem_map]
  constructor
  · intro h
    obtain ⟨t, ht, rfl⟩ := h
    obtain ⟨hlen, hmem⟩ := (mem_ordered_replicate seen _ t).mp ht
    exact ⟨Multiset.ofList t, ⟨by simpa using hlen, by simpa using hmem⟩,
      coe_fill is_wildcard spec t hlen⟩
  · intro h
    obtain ⟨w, ⟨hcard, hmem⟩, rfl⟩ := h
    obtain ⟨t, rfl⟩ := Quot.exists_rep w
    have hlen : t.length = num_wildcards is_wildcard spec := hcard
    exact ⟨t, (mem_ordered_replicate seen _ t).mpr ⟨hlen, hmem⟩, coe_fill is_wildcard spec t hlen⟩

variable {X : List (List T)}

/-- Filling in all tuples gives all interactions. -/
theorem map_insert_fixed_tuples (seen spec : List T) (hX : X.Perm (ordered_tuples (fun _ => seen)
      (replicate (num_wildcards is_wildcard spec) ()))) :
    (X.map (insert_fixed is_wildcard spec)).Perm (obtainable is_wildcard seen spec) := by
  have hfill : X.map (insert_fixed is_wildcard spec) = X.map (fill is_wildcard spec) := by
    refine map_congr_left fun x hx => insert_fixed_eq is_wildcard ?_
    exact ((mem_ordered_replicate seen _ x).mp (hX.subset hx)).1
  rw [hfill]
  refine (hX.map _).trans ?_
  rw [← ordered_tuples_fill]
  exact ordered_tuples_perm_sections _ spec

variable [DecidableEq T]

/-- Filling in every choice once gives every set of terms once. -/
theorem map_insert_fixed_repeated {seen : List T} (hseen : seen.Nodup) (spec : List T)
    (hX : (X.map Multiset.ofList).Perm
      ((repeated (num_wildcards is_wildcard spec) seen).map Multiset.ofList)) :
    ((X.map (insert_fixed is_wildcard spec)).map Multiset.ofList).Perm
      ((obtainable is_wildcard seen spec).map Multiset.ofList).dedup := by
  -- The fixed terms are added to every choice.
  have hfixed : (X.map (insert_fixed is_wildcard spec)).map Multiset.ofList =
      (X.map Multiset.ofList).map
        (Multiset.ofList (spec.filter fun s => !is_wildcard s) + ·) := by
    rw [map_map, map_map]
    refine map_congr_left fun x hx => ?_
    have hmem := hX.subset (mem_map_of_mem hx)
    have hlen : x.length = num_wildcards is_wildcard spec := ((mem_repeated _ seen _).mp hmem).1
    show Multiset.ofList (insert_fixed is_wildcard spec x) = _
    rw [insert_fixed_eq is_wildcard hlen, coe_fill is_wildcard spec x hlen]
    rfl
  rw [hfixed]
  have hnodup := (repeated_nodup (num_wildcards is_wildcard spec) seen hseen).map
    fun m m' (h : Multiset.ofList (spec.filter fun s => !is_wildcard s) + m =
      Multiset.ofList (spec.filter fun s => !is_wildcard s) + m') => add_left_cancel h
  refine (hX.map _).trans ((perm_ext_iff_of_nodup hnodup (nodup_dedup _)).mpr fun m => ?_)
  rw [mem_dedup, mem_obtainable, mem_map]
  refine exists_congr fun w => ?_
  rw [mem_repeated]
  exact and_congr_right fun _ => eq_comm

end Fill

/-! ## Pairs -/

/-- Of two elements one comes first. -/
theorem heads_comparable {T : Type} {l : List T} {a b : T} (ha : a ∈ l) (hb : b ∈ l) :
    (∃ h ∈ heads l, h.1 = a ∧ b ∈ h.2) ∨ (∃ h ∈ heads l, h.1 = b ∧ a ∈ h.2) := by
  induction l with
  | nil => exact absurd ha not_mem_nil
  | cons x l ih =>
    rcases mem_cons.mp ha with rfl | ha'
    · exact Or.inl ⟨(a, a :: l), mem_cons_self, rfl, hb⟩
    · rcases mem_cons.mp hb with rfl | hb'
      · exact Or.inr ⟨(b, b :: l), mem_cons_self, rfl, ha⟩
      · rcases ih ha' hb' with ⟨h, hh, heq⟩ | ⟨h, hh, heq⟩
        · exact Or.inl ⟨h, mem_cons_of_mem _ hh, heq⟩
        · exact Or.inr ⟨h, mem_cons_of_mem _ hh, heq⟩

theorem mem_expand_quadratics (leave : Bool) (indices : List NamespaceIndex)
    (y : List NamespaceIndex) :
    y ∈ expand_quadratics_wildcard_interactions leave indices ↔
      ∃ h ∈ heads indices, y = [h.1, h.1] ∨ ∃ b ∈ h.2, y = [h.1, b] ∨ y = [b, b] ∨
        (leave = true ∧ y = [b, h.1]) := by
  have hheads := heads_eq_zipIdx indices 0
  rw [drop_zero, drop_zero] at hheads
  rw [expand_quadratics_wildcard_interactions, hheads]
  simp only [mem_map, exists_exists_and_eq_and]
  rw [mem_foldl_iff (fun (f : NamespaceIndex × Nat) y =>
    y = [f.1, f.1] ∨ ∃ b ∈ indices.drop f.2, y = [f.1, b] ∨ y = [b, b] ∨
      (leave = true ∧ y = [b, f.1]))]
  · simp [OrderedSet.empty]
  · intro s f y
    rw [mem_foldl_iff (fun b y => y = [f.1, b] ∨ y = [b, b] ∨
      (leave = true ∧ y = [b, f.1]))]
    · rw [mem_insert_iff, or_assoc]
      exact or_left_comm
    · intro s b y
      cases leave with
      | true =>
        simp only [if_true, mem_insert_iff, true_and]
        tauto
      | false =>
        simp only [Bool.false_eq_true, if_false, mem_insert_iff, false_and, or_false]
        tauto

theorem nodup_expand_quadratics (leave : Bool) (indices : List NamespaceIndex) :
    (expand_quadratics_wildcard_interactions leave indices).Nodup :=
  nodup_elements _

theorem mem_of_mem_heads {T : Type} {l : List T} {h : T × List T} (hh : h ∈ heads l) : h.1 ∈ l := by
  rw [← map_fst_heads l]
  exact mem_map_of_mem hh

theorem exists_mem_heads {T : Type} {l : List T} {a : T} (ha : a ∈ l) :
    ∃ h ∈ heads l, h.1 = a ∧ a ∈ h.2 := by
  rcases heads_comparable ha ha with h | h <;> exact h

theorem nodup_ordered_replicate {T : Type} {seen : List T} (hseen : seen.Nodup) (n : Nat) :
    (ordered_tuples (fun _ => seen) (replicate n ())).Nodup := by
  induction n with
  | zero => exact nodup_singleton _
  | succ n ih =>
    refine nodup_flatMap.mpr ⟨fun a _ => ih.map cons_injective, ?_⟩
    refine hseen.imp fun {a b} hab t ha hb => ?_
    obtain ⟨x, -, rfl⟩ := mem_map.mp ha
    obtain ⟨y, -, heq⟩ := mem_map.mp hb
    exact hab (cons.inj heq).1.symm

variable {indices : List NamespaceIndex}

/-- With duplicates the pairs are all ordered pairs. -/
theorem expand_quadratics_leave (hnodup : indices.Nodup) :
    (expand_quadratics_wildcard_interactions true indices).Perm
      (ordered_tuples (fun _ => indices) (replicate 2 ())) := by
  refine (perm_ext_iff_of_nodup (nodup_expand_quadratics _ _)
    (nodup_ordered_replicate hnodup 2)).mpr fun y => ?_
  rw [mem_expand_quadratics, mem_ordered_replicate]
  constructor
  · intro h
    obtain ⟨h, hh, hy⟩ := h
    have hfst := mem_of_mem_heads hh
    have hrest := (suffix_of_mem_heads hh).subset
    rcases hy with rfl | ⟨b, hb, rfl | rfl | ⟨-, rfl⟩⟩
    · simp [hfst]
    · simp [hfst, hrest hb]
    · simp [hrest hb]
    · simp [hfst, hrest hb]
  · intro h
    obtain ⟨a, b, rfl⟩ := length_eq_two.mp h.1
    have ha : a ∈ indices := h.2 a (by simp)
    have hb : b ∈ indices := h.2 b (by simp)
    rcases heads_comparable ha hb with ⟨h', hh, rfl, hmem⟩ | ⟨h', hh, rfl, hmem⟩
    · exact ⟨h', hh, Or.inr ⟨b, hmem, Or.inl rfl⟩⟩
    · exact ⟨h', hh, Or.inr ⟨a, hmem, Or.inr (Or.inr ⟨rfl, rfl⟩)⟩⟩

/-- Without duplicates the pairs are the choices of two. -/
theorem expand_quadratics_filter (hnodup : indices.Nodup) :
    (expand_quadratics_wildcard_interactions false indices).Perm (repeated 2 indices) := by
  refine (perm_ext_iff_of_nodup (nodup_expand_quadratics _ _)
    ((repeated_nodup 2 indices hnodup).of_map _)).mpr fun y => ?_
  have hrepeated : y ∈ repeated 2 indices ↔ ∃ h ∈ heads indices, ∃ b ∈ h.2, y = [h.1, b] := by
    have hone (l : List NamespaceIndex) : repeated 1 l = l.map fun b => [b] := by
      rw [← map_heads_fst fun b => [b], map_eq_flatMap]
      rfl
    rw [repeated, mem_flatMap]
    refine exists_congr fun h => and_congr_right fun _ => ?_
    rw [hone, map_map, mem_map]
    exact exists_congr fun b => and_congr_right fun _ => eq_comm
  rw [mem_expand_quadratics, hrepeated]
  constructor
  · intro h
    obtain ⟨h, hh, hy⟩ := h
    have hrest := (suffix_of_mem_heads hh).subset
    rcases hy with rfl | ⟨b, hb, rfl | rfl | ⟨hfalse, -⟩⟩
    · obtain ⟨h', hh', heq, hmem⟩ := exists_mem_heads (mem_of_mem_heads hh)
      exact ⟨h', hh', h.1, hmem, by rw [heq]⟩
    · exact ⟨h, hh, b, hb, rfl⟩
    · obtain ⟨h', hh', heq, hmem⟩ := exists_mem_heads (hrest hb)
      exact ⟨h', hh', b, hmem, by rw [heq]⟩
    · cases hfalse
  · intro h
    obtain ⟨h, hh, b, hb, rfl⟩ := h
    exact ⟨h, hh, Or.inr ⟨b, hb, Or.inl rfl⟩⟩

/-! ## Sorting and duplicates -/

section Filter

variable {T : Type} (c : LinearComparator T)

/-- An interaction sorted, with its position in the list. -/
def sorted_entries (vec : List (List T)) : List (List T × Nat) :=
  vec.zipIdx.map fun (inter, i) => (c.sort inter, i)

variable {entry : List T × Nat} {vec : List (List T)}

theorem mem_sorted_entries (h : entry ∈ sorted_entries c vec) :
    ∃ inter, vec[entry.2]? = some inter ∧ entry.1 = c.sort inter := by
  obtain ⟨⟨inter, i⟩, hmem, rfl⟩ := mem_map.mp h
  exact ⟨inter, mem_zipIdx_iff_getElem?.mp hmem, rfl⟩

variable [DecidableEq T]

/-- Equal terms are put together when there are others as well. -/
def grouped (inter : List T) : List T :=
  if must_be_left_sorted (c.sort inter) then c.sort inter else inter

theorem coe_grouped (inter : List T) :
    Multiset.ofList (grouped c inter) = Multiset.ofList inter := by
  unfold grouped
  split
  · exact Multiset.coe_eq_coe.mpr (c.perm_sort inter)
  · rfl

/-- What is made of an entry. -/
def pick (vec : List (List T)) (entry : List T × Nat) : List T :=
  if must_be_left_sorted entry.1 then entry.1 else vec.getD entry.2 []

theorem pick_eq (h : entry ∈ sorted_entries c vec) :
    ∃ inter, vec[entry.2]? = some inter ∧ pick vec entry = grouped c inter := by
  obtain ⟨inter, hget, hsort⟩ := mem_sorted_entries c h
  refine ⟨inter, hget, ?_⟩
  rw [pick, hsort, getD_eq_getElem?_getD, hget, Option.getD_some, grouped]

/-- Without the filter, every interaction is kept. -/
theorem sort_and_filter_leave (vec : List (List T)) :
    sort_and_filter_duplicate_interactions c vec false = vec.map (grouped c) := by
  have hentries : sort_and_filter_duplicate_interactions c vec false =
      (sorted_entries c vec).map (pick vec) := rfl
  rw [hentries, sorted_entries, map_map]
  have hcongr : vec.zipIdx.map (pick vec ∘ fun (inter, i) => (c.sort inter, i)) =
      vec.zipIdx.map fun f => grouped c f.1 := by
    refine map_congr_left fun f hf => ?_
    obtain ⟨inter, hget, hpick⟩ := pick_eq c (mem_map_of_mem hf)
    have hf' := mem_zipIdx_iff_getElem?.mp hf
    obtain rfl : f.1 = inter := Option.some.inj (hf'.symm.trans hget)
    exact hpick
  rw [hcongr, ← zipIdx_map_fst 0 vec, map_map, zipIdx_map_fst]
  rfl

/-- With the filter, one interaction is kept for each set of terms. -/
theorem sort_and_filter_perm (vec : List (List T)) :
    ((sort_and_filter_duplicate_interactions c vec true).map Multiset.ofList).Perm
      (vec.map Multiset.ofList).dedup := by
  -- One entry for each sorted interaction.
  have hout : (sort_and_filter_duplicate_interactions c vec true).Perm
      ((unique Prod.fst
        (c.lex.stable_sort Prod.fst (sorted_entries c vec))).map (pick vec)) :=
    (perm_stable_sort _ _ _).map _
  have hsub (entry : List T × Nat) (h : entry ∈ unique Prod.fst
      (c.lex.stable_sort Prod.fst (sorted_entries c vec))) : entry ∈ sorted_entries c vec :=
    (perm_stable_sort _ _ _).subset ((unique_sublist _ _).subset h)
  have hkeys : ((unique Prod.fst
      (c.lex.stable_sort Prod.fst (sorted_entries c vec))).map (pick vec)).map Multiset.ofList =
      ((unique Prod.fst
        (c.lex.stable_sort Prod.fst (sorted_entries c vec))).map Prod.fst).map Multiset.ofList := by
    rw [map_map, map_map]
    refine map_congr_left fun entry h => ?_
    obtain ⟨inter, hget, hpick⟩ := pick_eq c (hsub entry h)
    obtain ⟨inter', hget', hsort⟩ := mem_sorted_entries c (hsub entry h)
    obtain rfl : inter = inter' := Option.some.inj (hget.symm.trans hget')
    show Multiset.ofList (pick vec entry) = Multiset.ofList entry.1
    rw [hpick, coe_grouped, hsort]
    exact Multiset.coe_eq_coe.mpr (c.perm_sort inter).symm
  refine (hout.map _).trans ?_
  rw [hkeys]
  refine (perm_ext_iff_of_nodup (List.Nodup.map_on ?_
    (nodup_keys_unique c.lex Prod.fst _)) (nodup_dedup _)).mpr fun m => ?_
  · -- A sorted interaction is determined by its terms.
    intro x hx y hy heq
    obtain ⟨entry, hentry, rfl⟩ := mem_map.mp hx
    obtain ⟨entry', hentry', rfl⟩ := mem_map.mp hy
    obtain ⟨inter, -, hsort⟩ := mem_sorted_entries c (hsub entry hentry)
    obtain ⟨inter', -, hsort'⟩ := mem_sorted_entries c (hsub entry' hentry')
    rw [hsort, hsort'] at heq ⊢
    refine c.sort_eq_iff.mpr ?_
    exact (c.perm_sort inter).symm.trans ((Multiset.coe_eq_coe.mp heq).trans (c.perm_sort inter'))
  · rw [mem_dedup]
    have hmem : m ∈ ((unique Prod.fst (c.lex.stable_sort Prod.fst
        (sorted_entries c vec))).map Prod.fst).map Multiset.ofList ↔
        m ∈ ((sorted_entries c vec).map Prod.fst).map Multiset.ofList := by
      rw [mem_map, mem_map]
      refine exists_congr fun k => and_congr_left fun _ => ?_
      rw [mem_keys_unique]
      exact ((perm_stable_sort _ _ _).map _).mem_iff
    rw [hmem]
    have hsorted : ((sorted_entries c vec).map Prod.fst).map Multiset.ofList =
        vec.map Multiset.ofList := by
      rw [sorted_entries, map_map, map_map, ← zipIdx_map_fst 0 vec, map_map,
        zipIdx_map_fst]
      exact map_congr_left fun f _ => Multiset.coe_eq_coe.mpr (c.perm_sort f.1)
    rw [hsorted]

/-- No set of terms is lost. -/
theorem mem_sort_and_filter (vec : List (List T)) (filter_duplicates : Bool) (m : Multiset T) :
    m ∈ (sort_and_filter_duplicate_interactions c vec filter_duplicates).map Multiset.ofList ↔
      m ∈ vec.map Multiset.ofList := by
  cases filter_duplicates with
  | true => exact (sort_and_filter_perm c vec).mem_iff.trans mem_dedup
  | false =>
    rw [sort_and_filter_leave, map_map]
    have hsets : vec.map (Multiset.ofList ∘ grouped c) = vec.map Multiset.ofList :=
      map_congr_left fun inter _ => coe_grouped c inter
    rw [hsets]

theorem nodup_sort_and_filter (vec : List (List T)) :
    ((sort_and_filter_duplicate_interactions c vec true).map Multiset.ofList).Nodup :=
  (sort_and_filter_perm c vec).nodup_iff.mpr (nodup_dedup _)

end Filter

end VW
