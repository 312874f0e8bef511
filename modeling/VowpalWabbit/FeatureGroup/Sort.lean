import VowpalWabbit.FeatureGroup.Tags

/-! # Sorting features

    `apply_permutation_in_place` goes along the cycles of the permutation. The element that it takes
    along is the one from the beginning of the cycle, and everything behind it is in place. The
    values, the indices, the names and the flattened extents go the same way.
-/

open Cpp List

namespace VW

open Extents

variable {k : Nat}

section Cycles

variable {α : Type} {p : List Nat} {vec : List α} {i prev_j : Nat} {s : List Bool × List α}

/-- In the cycle from `i`, when `prev_j` holds its first element. -/
structure Chased (p : List Nat) (vec : List α) (i prev_j : Nat) (s : List Bool × List α) : Prop where
  length_done : s.1.length = vec.length
  length_vec : s.2.length = vec.length
  begun : s.1[i]? = some true
  here : s.1[prev_j]? = some true
  carried : s.2[prev_j]? = vec[i]?
  moved : ∀ k : Nat, s.1[k]? = some true → k ≠ prev_j → s.2[k]? = vec[p.getD k 0]?
  left : ∀ k : Nat, s.1[k]? ≠ some true → s.2[k]? = vec[k]?
  reached : ∀ m : Nat, s.1[m]? = some true → m ≠ i → ∃ k, k ≠ prev_j ∧ s.1[k]? = some true ∧ p.getD k 0 = m

/-- Between two cycles. -/
structure Settled (p : List Nat) (vec : List α) (s : List Bool × List α) : Prop where
  length_done : s.1.length = vec.length
  length_vec : s.2.length = vec.length
  moved : ∀ k : Nat, s.1[k]? = some true → s.2[k]? = vec[p.getD k 0]?
  left : ∀ k : Nat, s.1[k]? ≠ some true → s.2[k]? = vec[k]?
  reached : ∀ m : Nat, s.1[m]? = some true → ∃ k, s.1[k]? = some true ∧ p.getD k 0 = m

/-- A permutation of the positions of a vector. -/
structure Permutes (p : List Nat) (size : Nat) : Prop where
  lt : ∀ k < size, p.getD k 0 < size
  injective : ∀ k < size, ∀ l < size, p.getD k 0 = p.getD l 0 → k = l

theorem permutes_of_perm {size : Nat} (h : p.Perm (List.range size)) : Permutes p size := by
  have hlength : p.length = size := by rw [h.length_eq, length_range]
  have hget : ∀ k (hk : k < size), p.getD k 0 = p[k] := fun k hk => by
    rw [getD_eq_getElem?_getD, List.getElem?_eq_getElem (hlength.symm ▸ hk), Option.getD_some]
  refine ⟨fun k hk => ?_, fun k hk l hl heq => ?_⟩
  · rw [hget k hk]
    exact List.mem_range.mp (h.subset (getElem_mem _))
  · rw [hget k hk, hget l hl] at heq
    exact ((h.nodup_iff.mpr nodup_range).getElem_inj_iff).mp heq

/-- The step to the next position of the cycle, which has not been visited. -/
theorem Chased.step (h : Chased p vec i prev_j s) (hp : Permutes p vec.length) (hi : p.getD prev_j 0 ≠ i) :
    s.1[p.getD prev_j 0]? = some false ∧
      Chased p vec i (p.getD prev_j 0) (s.1.set (p.getD prev_j 0) true, swap_at s.2 prev_j (p.getD prev_j 0)) := by
  have hprev : prev_j < vec.length := h.length_done ▸ (List.getElem?_eq_some_iff.mp h.here).1
  have hnext := hp.lt prev_j hprev
  have hnew : s.1[p.getD prev_j 0]? ≠ some true := by
    intro hdone
    obtain ⟨k, hk, hk_done, hk_next⟩ := h.reached _ hdone hi
    exact hk (hp.injective k (h.length_done ▸ (List.getElem?_eq_some_iff.mp hk_done).1) prev_j hprev hk_next)
  have hfalse : s.1[p.getD prev_j 0]? = some false := by
    rw [List.getElem?_eq_getElem (h.length_done.symm ▸ hnext)] at hnew ⊢
    simpa using hnew
  have hne : prev_j ≠ p.getD prev_j 0 := fun heq => hnew (heq ▸ h.here)
  have hset : ∀ k, (s.1.set (p.getD prev_j 0) true)[k]? = some true ↔ k = p.getD prev_j 0 ∨ s.1[k]? = some true := by
    intro k
    rw [List.getElem?_set]
    by_cases heq : p.getD prev_j 0 = k
    · rw [if_pos heq, if_pos (h.length_done.symm ▸ hnext)]
      exact iff_of_true rfl (.inl heq.symm)
    · rw [if_neg heq, or_iff_right (Ne.symm heq)]
  have hswap := getElem?_swap_at (h.length_vec.symm ▸ hprev : prev_j < s.2.length) (h.length_vec.symm ▸ hnext)
  refine ⟨hfalse, List.length_set.trans h.length_done, (length_swap_at _ _ _).trans h.length_vec,
    (hset i).mpr (.inr h.begun),
    (hset _).mpr (.inl rfl), ?_, fun k hk hkne => ?_, fun k hk => ?_, fun m hm hmi => ?_⟩
  · rw [hswap, if_pos rfl]
    exact h.carried
  · have hk_done := ((hset k).mp hk).resolve_left hkne
    rw [hswap, if_neg hkne]
    split
    · next heq => rw [h.left _ hnew, heq]
    · next heq => exact h.moved k hk_done heq
  · have hk_left := not_or.mp fun hdone => hk ((hset k).mpr hdone)
    have hk_prev : k ≠ prev_j := fun heq => hk_left.2 (heq.symm ▸ h.here)
    rw [hswap, if_neg hk_left.1, if_neg hk_prev]
    exact h.left k hk_left.2
  · rcases (hset m).mp hm with rfl | hm
    · exact ⟨prev_j, hne, (hset _).mpr (.inr h.here), rfl⟩
    · obtain ⟨k, -, hk_done, hk_next⟩ := h.reached m hm hmi
      exact ⟨k, fun heq => hnew (heq ▸ hk_done), (hset k).mpr (.inr hk_done), hk_next⟩

/-- A cycle is begun at a position that has not been visited. -/
theorem Settled.begin (h : Settled p vec s) (hi : i < s.1.length) (hnew : s.1[i] = false) :
    Chased p vec i i (s.1.set i true, s.2) ∧ (s.1.set i true).count false < vec.length := by
  have hset : ∀ k : Nat, k ≠ i → (s.1.set i true)[k]? = s.1[k]? := fun k hk => List.getElem?_set_ne hk.symm
  have hbegun : (s.1.set i true)[i]? = some true := by rw [List.getElem?_set_self hi]
  have hleft : s.1[i]? ≠ some true := by
    rw [List.getElem?_eq_getElem hi, hnew]
    simp
  refine ⟨⟨List.length_set.trans h.length_done, h.length_vec, hbegun, hbegun, h.left i hleft, fun k hk hne => ?_,
    fun k hk => ?_, fun m hm hne => ?_⟩, ?_⟩
  · exact h.moved k (hset k hne ▸ hk)
  · have hne : k ≠ i := fun heq => hk (heq ▸ hbegun)
    exact h.left k (hset k hne ▸ hk)
  · obtain ⟨k, hk, hk_next⟩ := h.reached m (hset m hne ▸ hm)
    have hne : k ≠ i := fun heq => hleft (heq ▸ hk)
    exact ⟨k, hne, (hset k hne).trans hk, hk_next⟩
  · have hle := s.1.count_le_length (a := false)
    rw [count_set hi, hnew, ← h.length_done]
    simp
    omega

theorem follow_cycle_spec (hp : Permutes p vec.length) (fuel : Nat) : ∀ {prev_j : Nat} {s : List Bool × List α},
    Chased p vec i prev_j s → s.1.count false < fuel →
      Settled p vec (follow_cycle p i fuel prev_j (p.getD prev_j 0) s) ∧
        ∀ k : Nat, s.1[k]? = some true → (follow_cycle p i fuel prev_j (p.getD prev_j 0) s).1[k]? = some true := by
  induction fuel with
  | zero => exact fun _ hfuel => absurd hfuel (Nat.not_lt_zero _)
  | succ fuel ih =>
    intro prev_j s h hfuel
    rw [follow_cycle]
    by_cases hi : i = p.getD prev_j 0
    · rw [if_pos hi]
      refine ⟨⟨h.length_done, h.length_vec, fun k hk => ?_, h.left, fun m hm => ?_⟩, fun k hk => hk⟩
      · by_cases hk' : k = prev_j
        · rw [hk', ← hi]
          exact h.carried
        · exact h.moved k hk hk'
      · by_cases hm' : m = i
        · exact ⟨prev_j, h.here, hi ▸ hm'.symm⟩
        · obtain ⟨k, -, hk, hk_next⟩ := h.reached m hm hm'
          exact ⟨k, hk, hk_next⟩
    · rw [if_neg hi]
      obtain ⟨hfalse, hstep⟩ := h.step hp (Ne.symm hi)
      obtain ⟨hlt, hget⟩ := List.getElem?_eq_some_iff.mp hfalse
      have hcount : (s.1.set (p.getD prev_j 0) true).count false < fuel := by
        have hpos : 0 < s.1.count false := List.count_pos_iff.mpr (hget ▸ getElem_mem hlt)
        rw [count_set hlt, hget]
        simp
        omega
      obtain ⟨hsettled, hkept⟩ := ih hstep hcount
      refine ⟨hsettled, fun k hk => hkept k ?_⟩
      rw [List.getElem?_set]
      split
      · rfl
      · exact hk

theorem permute_fold_spec (hp : Permutes p vec.length) {n : Nat} (hn : n ≤ vec.length) :
    let s := (range n).foldl (fun (s : List Bool × List α) i =>
      if s.1.getD i true then s
      else follow_cycle p i vec.length i (p.getD i 0) (s.1.set i true, s.2)) (replicate vec.length false, vec)
    Settled p vec s ∧ ∀ k < n, s.1[k]? = some true := by
  induction n with
  | zero =>
    have hnone : ∀ k : Nat, (replicate vec.length false)[k]? ≠ some true := fun k => by
      rw [List.getElem?_replicate]
      split <;> simp
    exact ⟨⟨length_replicate, rfl, fun k hk => absurd hk (hnone k), fun k _ => rfl,
      fun m hm => absurd hm (hnone m)⟩, fun k hk => absurd hk (Nat.not_lt_zero k)⟩
  | succ n ih =>
    rw [range_succ, foldl_append, foldl_cons, foldl_nil]
    obtain ⟨hsettled, hdone⟩ := ih (Nat.le_of_succ_le hn)
    generalize (range n).foldl _ _ = s at hsettled hdone ⊢
    have hlt : n < s.1.length := hsettled.length_done.symm ▸ hn
    have hget : s.1.getD n true = s.1[n] := by
      rw [getD_eq_getElem?_getD, List.getElem?_eq_getElem hlt, Option.getD_some]
    by_cases hn_done : s.1[n] = true
    · rw [if_pos (hget.trans hn_done)]
      refine ⟨hsettled, fun k hk => ?_⟩
      rcases Nat.lt_succ_iff_lt_or_eq.mp hk with hk | rfl
      · exact hdone k hk
      · exact List.getElem?_eq_some_iff.mpr ⟨hlt, hn_done⟩
    · rw [if_neg (hget.symm ▸ hn_done)]
      obtain ⟨hchased, hcount⟩ := hsettled.begin hlt (by simpa using hn_done)
      obtain ⟨hsettled', hkept⟩ := follow_cycle_spec hp vec.length hchased hcount
      refine ⟨hsettled', fun k hk => hkept k ?_⟩
      rw [List.getElem?_set]
      rcases Nat.lt_succ_iff_lt_or_eq.mp hk with hk | rfl
      · rw [if_neg hk.ne', hdone k hk]
      · rw [if_pos rfl, if_pos hlt]

/-- What is at a position after the permutation was at the one that it names. -/
theorem getElem?_apply_permutation_in_place (hp : p.Perm (List.range vec.length))
    (hk : k < vec.length) : (apply_permutation_in_place p vec)[k]? = vec[p.getD k 0]? := by
  obtain ⟨hsettled, hdone⟩ := permute_fold_spec (permutes_of_perm hp) (le_refl vec.length)
  exact hsettled.moved k (hdone k hk)

theorem map_getD_range (hp : p.length = vec.length) : (List.range vec.length).map (fun k => p.getD k 0) = p := by
  apply ext_getElem
  · rw [length_map, length_range, hp]
  · intro k hk hk'
    rw [getElem_map, getElem_range, getD_eq_getElem?_getD, List.getElem?_eq_getElem hk', Option.getD_some]

end Cycles

/-! ## Maximal runs -/

namespace Extents

/-- Extents that touch have different hashes. -/
def Separated (extents : List NamespaceExtent) : Prop :=
  extents.Pairwise fun e₁ e₂ => e₁.end_index = e₂.begin_index → e₁.hash ≠ e₂.hash

/-- The features of an extent have its tag, and the neighbours of the extent have not. -/
structure MaximalRun (tags : List (Option (BitVec 64))) (e : NamespaceExtent) : Prop where
  nonempty : e.begin_index < e.end_index
  tagged : ∀ k, e.begin_index ≤ k → k < e.end_index → tags[k]? = some (some e.hash)
  before : ∀ k, k + 1 = e.begin_index → tags[k]? ≠ some (some e.hash)
  behind : tags[e.end_index]? ≠ some (some e.hash)

variable {extents : List NamespaceExtent}

/-- Two extents are apart, with a gap between them if they have the same hash. -/
theorem Closed.apart {size : Nat} (h : Closed extents size) (hs : Separated extents)
    {a b : NamespaceExtent} (ha : a ∈ extents) (hb : b ∈ extents) (hne : a ≠ b) :
    (a.end_index ≤ b.begin_index ∨ b.end_index ≤ a.begin_index) ∧
      (a.hash = b.hash → a.end_index ≠ b.begin_index ∧ b.end_index ≠ a.begin_index) := by
  let R (a b : NamespaceExtent) : Prop := (a.end_index ≤ b.begin_index ∨ b.end_index ≤ a.begin_index) ∧
    (a.hash = b.hash → a.end_index ≠ b.begin_index ∧ b.end_index ≠ a.begin_index)
  have : Std.Symm R := ⟨fun a b h => ⟨h.1.symm, fun heq => (h.2 heq.symm).symm⟩⟩
  have hpair : extents.Pairwise R := (h.ordered.and hs).imp_of_mem fun {a b} ha hb hab => by
    have ha_bounds := h.bounds a ha
    have hb_bounds := h.bounds b hb
    exact ⟨.inl hab.1, fun heq => ⟨fun htouch => hab.2 htouch heq, by omega⟩⟩
  exact hpair.forall ha hb hne

variable {tags : List (Option (BitVec 64))}

theorem mem_iff_maximalRun (h : Covers extents tags) (hs : Separated extents)
    (e : NamespaceExtent) : e ∈ extents ↔ MaximalRun tags e := by
  have hmaximal : ∀ e ∈ extents, MaximalRun tags e := by
    intro e he
    have hbounds := h.closed.bounds e he
    -- A neighbour with the tag is in an extent, which touches this one.
    have hnone : ∀ k, (k + 1 = e.begin_index ∨ k = e.end_index) → tags[k]? ≠ some (some e.hash) := by
      intro k hk htag
      obtain ⟨a, ha, hlo, hhi, hhash⟩ := (h.covered k e.hash).mpr htag
      have hne : a ≠ e := fun heq => by
        subst heq
        omega
      have hapart := h.closed.apart hs ha he hne
      have hgap := hapart.2 hhash
      omega
    exact ⟨hbounds.1, fun k hlo hhi => (h.covered k e.hash).mp ⟨e, he, hlo, hhi, rfl⟩,
      fun k hk => hnone k (.inl hk), hnone _ (.inr rfl)⟩
  refine ⟨hmaximal e, fun hrun => ?_⟩
  obtain ⟨a, ha, hlo, hhi, hhash⟩ := (h.covered _ e.hash).mpr (hrun.tagged _ (le_refl _) hrun.nonempty)
  have ha_run := hmaximal a ha
  have hbegin : a.begin_index = e.begin_index := by
    by_contra hne
    exact hrun.before (e.begin_index - 1) (by omega) (hhash ▸ ha_run.tagged _ (by omega) (by omega))
  have hend : a.end_index = e.end_index := by
    rcases Nat.lt_trichotomy a.end_index e.end_index with hlt | heq | hlt
    · exact absurd (hhash ▸ hrun.tagged _ (by omega) hlt) (hhash ▸ ha_run.behind)
    · exact heq
    · exact absurd (hhash ▸ ha_run.tagged _ (hlo.trans hrun.nonempty.le) hlt) hrun.behind
  have heq : a = e := by
    cases a
    cases e
    simp_all
  exact heq ▸ ha

/-- A list of extents is determined by the tags that it stands for. -/
theorem eq_of_covers {other : List NamespaceExtent} (h : Covers extents tags)
    (hs : Separated extents) (h' : Covers other tags) (hs' : Separated other) :
    extents = other := by
  have hnodup : ∀ {l : List NamespaceExtent}, Covers l tags →
      l.Pairwise fun a b => a.end_index ≤ b.begin_index ∧ a.begin_index < a.end_index ∧
        b.begin_index < b.end_index :=
    fun hl => hl.closed.ordered.imp_of_mem fun ha hb hle =>
      ⟨hle, (hl.closed.bounds _ ha).1, (hl.closed.bounds _ hb).1⟩
  have hperm : extents.Perm other := by
    apply (perm_ext_iff_of_nodup _ _).mpr
    · exact fun e => (mem_iff_maximalRun h hs e).trans (mem_iff_maximalRun h' hs' e).symm
    · exact (hnodup h).imp fun hab heq => by subst heq; omega
    · exact (hnodup h').imp fun hab heq => by subst heq; omega
  exact List.Perm.eq_of_pairwise (fun a b _ _ hab hba => by omega) (hnodup h) (hnodup h') hperm

theorem separated_stretch (current : Bool × BitVec 64) (last_start i : Nat) :
    Separated (if current.1 then [⟨last_start, i, current.2⟩] else []) ∧
      ∀ e ∈ (if current.1 then [⟨last_start, i, current.2⟩] else [] : List NamespaceExtent),
        e.end_index = i ∧ current = (true, e.hash) := by
  obtain ⟨b, c⟩ := current
  cases b with
  | true => exact ⟨pairwise_singleton _ _, fun e he => List.mem_singleton.mp he ▸ ⟨rfl, rfl⟩⟩
  | false => exact ⟨List.Pairwise.nil, fun e he => absurd he not_mem_nil⟩

theorem separated_unflatten_from (rest : List (Bool × BitVec 64)) (current : Bool × BitVec 64) {last_start i : Nat}
    (hlt : last_start < i) :
    Separated (unflatten_from current last_start i rest) ∧
      ∀ e ∈ unflatten_from current last_start i rest, e.begin_index = last_start → current = (true, e.hash) := by
  induction rest generalizing current last_start i with
  | nil =>
    rw [unflatten_from]
    obtain ⟨hsep, hends⟩ := separated_stretch current last_start i
    exact ⟨hsep, fun e he _ => (hends e he).2⟩
  | cons next rest ih =>
    rw [unflatten_from]
    by_cases hsame : current = next
    · rw [if_neg (not_not.mpr hsame)]
      exact ih current (Nat.lt_succ_of_lt hlt)
    · rw [if_pos hsame]
      obtain ⟨hsep, hends⟩ := separated_stretch current last_start i
      obtain ⟨hsep', hbegins'⟩ := ih next (Nat.lt_succ_self i)
      refine ⟨List.pairwise_append.mpr ⟨hsep, hsep', fun a ha b hb htouch heq => hsame ?_⟩, fun e he hbegin => ?_⟩
      · obtain ⟨hend, hcurrent⟩ := hends a ha
        rw [hcurrent, hbegins' b hb (htouch.symm.trans hend), heq]
      · rcases List.mem_append.mp he with he | he
        · exact (hends e he).2
        · have := (unflatten_from_spec rest next (Nat.lt_succ_self i)).2.1 e he
          omega

theorem separated_unflatten (flattened : List (Bool × BitVec 64)) :
    Separated (unflatten_namespace_extents flattened) := by
  cases flattened with
  | nil => exact List.Pairwise.nil
  | cons first rest => exact (separated_unflatten_from rest first Nat.one_pos).1

/-- Flattened and unflattened, extents that touch nothing of their own hash are as they were. -/
theorem unflatten_flatten {n : Nat} (h : Closed extents n) (hs : Separated extents) :
    unflatten_namespace_extents (flatten_namespace_extents extents n) = extents := by
  exact eq_of_covers (covers_unflatten _) (separated_unflatten _) (covers_flatten h) hs

end Extents

/-! ## The sorted group -/

namespace Features

variable {V N : Type} {f : Features V} {p : List Nat}

/-- What `sort` does to the names that are there in audit mode. -/
def sort_space_names (f : Features V) (dest_index_vec : List Nat) (space_names : List N) : List N :=
  if f.indices = [] ∨ space_names = [] then space_names else apply_permutation_in_place dest_index_vec space_names

/-- The value, the index, the name and the hash of the extent of a feature. -/
def tuple (f : Features V) (space_names : List N) (k : Nat) :
    Option V × Option FeatureIndex × Option N × Option (BitVec 64) :=
  (f.values[k]?, f.indices[k]?, space_names[k]?, to_tag (label f.namespace_extents k))

def tuples (f : Features V) (space_names : List N) :
    List (Option V × Option FeatureIndex × Option N × Option (BitVec 64)) :=
  (range f.size).map (f.tuple space_names)

/-- For every feature the hash of its extent. -/
def tags (f : Features V) : List (Option (BitVec 64)) :=
  (range f.size).map fun k => to_tag (label f.namespace_extents k)

/-- The features of `f`, in order, make up `g`. -/
structure SortedAs [LT V] (parse_mask : BitVec 64) (f : Features V) (space_names : List N) (g : Features V)
    (space_names' : List N) : Prop where
  moved : (g.tuples space_names').Perm (f.tuples space_names)
  ordered : g.items.Pairwise fun x y => ¬ comparator parse_mask y x
  sum : g.sum_feat_sq = f.sum_feat_sq
  closed : g.Closed
  runs : ∀ e, e ∈ g.namespace_extents ↔ MaximalRun g.tags e

theorem tags_eq (h : f.Closed) :
    f.tags = (flatten_namespace_extents f.namespace_extents f.size).map to_tag := by
  rw [flatten_eq h, map_map]
  rfl

theorem size_sort : (f.sort p).size = f.size := by
  unfold sort
  split
  · rfl
  · exact length_apply_permutation_in_place p f.values

theorem tags_sort (h : f.Closed) (hne : f.indices ≠ []) : (f.sort p).tags = apply_permutation_in_place p f.tags := by
  have hcovers := covers_unflatten (apply_permutation_in_place p
    (flatten_namespace_extents f.namespace_extents f.size))
  have hflatten := hcovers.flatten
  rw [length_map, length_apply_permutation_in_place, length_flatten h] at hflatten
  have hextents : (f.sort p).namespace_extents = unflatten_namespace_extents (apply_permutation_in_place p
      (flatten_namespace_extents f.namespace_extents f.size)) := by
    rw [sort, if_neg hne, size, f.size_eq]
  rw [tags_eq (closed_sort h p), size_sort, hextents, hflatten, tags_eq h, apply_permutation_in_place_map]

theorem getElem?_permuted {α : Type} {vec : List α} (hp : p.Perm (List.range f.size))
    (hk : k < f.size) (hvec : vec.length = f.size) :
    (apply_permutation_in_place p vec)[k]? = vec[p.getD k 0]? :=
  getElem?_apply_permutation_in_place (by rw [hvec]; exact hp) (by rw [hvec]; exact hk)

theorem sort_tuple (h : f.Closed) (hp : p.Perm (List.range f.size)) {space_names : List N}
    (hnames : space_names = [] ∨ space_names.length = f.size) (hne : f.indices ≠ [])
    (hk : k < f.size) :
    (f.sort p).tuple (f.sort_space_names p space_names) k = f.tuple space_names (p.getD k 0) := by
  have hname : (f.sort_space_names p space_names)[k]? = space_names[p.getD k 0]? := by
    unfold sort_space_names
    by_cases hempty : space_names = []
    · rw [if_pos (.inr hempty), hempty]
      rfl
    · rw [if_neg (by simp [hne, hempty])]
      exact getElem?_permuted hp hk (hnames.resolve_left hempty)
  have htag : (f.sort p).tags[k]? = f.tags[p.getD k 0]? := by
    rw [tags_sort h hne]
    exact getElem?_permuted hp hk (by simp [tags])
  have hk' : k < (f.sort p).size := size_sort.symm ▸ hk
  rw [tags, tags, List.getElem?_map, List.getElem?_map, List.getElem?_range hk',
    List.getElem?_range ((permutes_of_perm hp).lt k hk), Option.map_some, Option.map_some, Option.some_inj] at htag
  unfold tuple
  rw [hname, htag, sort, if_neg hne]
  simp only [getElem?_permuted hp hk rfl, getElem?_permuted hp hk f.size_eq.symm]

theorem items_sort (hp : p.Perm (List.range f.size)) (hne : f.indices ≠ []) (hk : k < f.size) :
    (f.sort p).items[k]? = f.items[p.getD k 0]? := by
  rw [items, sort, if_neg hne]
  simp only [items, zip, List.getElem?_zipWith, getElem?_permuted hp hk rfl, getElem?_permuted hp hk f.size_eq.symm]

theorem ordered_sort [LT V] {parse_mask : BitVec 64} (hp : f.SortPermutation parse_mask p) (hne : f.indices ≠ []) :
    (f.sort p).items.Pairwise fun x y => ¬ comparator parse_mask y x := by
  have hitem : ∀ k (hk : k < (f.sort p).items.length), ∃ hk' : k < p.length,
      (f.sort p).items[k] ∈ f.items[p[k]]? := by
    intro k hk
    have hlt : k < f.size := by
      rw [items, length_zip] at hk
      exact size_sort (p := p) (f := f) ▸ hk.trans_le (Nat.min_le_left _ _)
    have hlength : k < p.length := by rwa [hp.perm.length_eq, length_range]
    have hget := items_sort hp.perm hne hlt
    rw [List.getElem?_eq_getElem hk, getD_eq_getElem?_getD, List.getElem?_eq_getElem hlength] at hget
    exact ⟨hlength, hget.symm⟩
  refine List.pairwise_iff_getElem.mpr fun i j hi hj hlt => ?_
  obtain ⟨hi', hx⟩ := hitem i hi
  obtain ⟨hj', hy⟩ := hitem j hj
  exact List.pairwise_iff_getElem.mp hp.sorted i j hi' hj' hlt _ hx _ hy

/-- `sort` moves whole features, into the order of the masked indices and the values, and the extents are
    again those of the hashes; to flatten extents loses nothing. -/
theorem sort_moves_whole_features [LT V] {parse_mask : BitVec 64} {space_names : List N} (h : f.Closed)
    (hp : f.SortPermutation parse_mask p) (hnames : space_names = [] ∨ space_names.length = f.size)
    {e : List NamespaceExtent} {n : Nat} (he : Extents.Closed e n) (hs : Extents.Separated e) :
    SortedAs parse_mask f space_names (f.sort p) (f.sort_space_names p space_names) ∧
      unflatten_namespace_extents (flatten_namespace_extents e n) = e := by
  refine ⟨?_, unflatten_flatten he hs⟩
  by_cases hempty : f.indices = []
  · have hsize : f.size = 0 := f.size_eq.trans (List.length_eq_zero_iff.mpr hempty)
    have hextents : f.namespace_extents = [] := List.eq_nil_iff_forall_not_mem.mpr fun e he => by
      have := h.bounds e he
      omega
    have hcovers : Covers f.namespace_extents f.tags := tags_eq h ▸ covers_flatten h
    rw [sort, if_pos hempty, sort_space_names, if_pos (.inl hempty)]
    refine ⟨List.Perm.refl _, ?_, rfl, h, mem_iff_maximalRun hcovers (hextents ▸ List.Pairwise.nil)⟩
    rw [items, hempty, zip_nil_right]
    exact List.Pairwise.nil
  · have hclosed := closed_sort h p
    have hcovers : Covers (f.sort p).namespace_extents (f.sort p).tags := tags_eq hclosed ▸ covers_flatten hclosed
    have hseparated : Extents.Separated (f.sort p).namespace_extents := by
      rw [sort, if_neg hempty]
      exact separated_unflatten _
    refine ⟨?_, ordered_sort hp hempty, by rw [sort, if_neg hempty], hclosed, mem_iff_maximalRun hcovers hseparated⟩
    have htuples : (f.sort p).tuples (f.sort_space_names p space_names) = p.map (f.tuple space_names) := by
      rw [tuples, size_sort]
      conv_rhs => rw [← map_getD_range
        (show p.length = f.values.length by rw [hp.perm.length_eq, length_range]; rfl)]
      rw [map_map]
      exact map_congr_left fun k hk => sort_tuple h hp.perm hnames hempty (List.mem_range.mp hk)
    rw [htuples]
    exact hp.perm.map _

def two_features : Features Int := ⟨[2, 1], [9, 4], [⟨0, 1, 7⟩], 5, rfl⟩

/-- The features change places, and the extent is behind. -/
theorem sort_moves_two_features :
    SortedAs 3 two_features ["a", "b"] (two_features.sort [1, 0]) (two_features.sort_space_names [1, 0] ["a", "b"]) ∧
      unflatten_namespace_extents (flatten_namespace_extents [⟨0, 1, 7⟩] 2) = [⟨0, 1, 7⟩] := by
  have hclosed : Extents.Closed two_features.namespace_extents 2 :=
    ⟨pairwise_singleton _ _, fun e he => by rw [List.mem_singleton.mp he]; decide⟩
  have hp : two_features.SortPermutation 3 [1, 0] := by
    refine ⟨by decide, ?_⟩
    simp [two_features, items, comparator]
  have hnames : ["a", "b"] = [] ∨ ["a", "b"].length = two_features.size := .inr rfl
  exact sort_moves_whole_features hclosed hp hnames hclosed (pairwise_singleton _ _)

end Features

end VW
