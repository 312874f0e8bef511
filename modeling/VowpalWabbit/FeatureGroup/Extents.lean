import VowpalWabbit.FeatureGroup.Runs
import Mathlib.Tactic

/-! # Extents as a list of tags

    Closed extents are ordered, disjoint, non-empty and within the group
    (`Closed`). All operations keep them so, also in the cases in which a
    feature ends up in the wrong extent. Which feature is in which extent is
    stated by `Covers`: the extents hold exactly the features with a tag.
-/

open Cpp Or Nat

namespace VW.Extents

open List

/-! ## Order -/

structure Closed (extents : List NamespaceExtent) (size : Nat) : Prop where
  ordered : extents.Pairwise fun e₁ e₂ => e₁.end_index ≤ e₂.begin_index
  bounds : ∀ e ∈ extents, e.begin_index < e.end_index ∧ e.end_index ≤ size

theorem closed_nil (size : Nat) : Closed [] size := ⟨List.Pairwise.nil, fun _ h => by cases h⟩

variable {extents : List NamespaceExtent} {m n p : Nat} {e : NamespaceExtent} {hash : BitVec 64}

theorem Closed.mono (h : Closed extents m) (hle : m ≤ n) :
    Closed extents n :=
  ⟨h.ordered, fun e he => ⟨(h.bounds e he).1, le_trans (h.bounds e he).2 hle⟩⟩

variable {size : Nat}

/-- The last extent follows the others. -/
theorem closed_append_iff :
    Closed (extents ++ [e]) size ↔
      Closed extents e.begin_index ∧ e.begin_index < e.end_index ∧ e.end_index ≤ size := by
  constructor
  · intro h
    have hpair := pairwise_append.mp h.ordered
    refine ⟨⟨hpair.1, fun a ha => ⟨(h.bounds a (mem_append_left _ ha)).1, ?_⟩⟩, ?_⟩
    · exact hpair.2.2 a ha e (mem_singleton_self e)
    · exact h.bounds e (mem_append_right _ (mem_singleton_self e))
  · intro h
    obtain ⟨hinit, hlt, hle⟩ := h
    constructor
    · apply pairwise_append.mpr
      refine ⟨hinit.ordered, pairwise_singleton _ _, fun a ha b hb => ?_⟩
      rw [mem_singleton.mp hb]
      exact (hinit.bounds a ha).2
    · intro a ha
      rcases mem_append.mp ha with ha | ha
      · have := hinit.bounds a ha
        omega
      · rw [mem_singleton.mp ha]
        exact ⟨hlt, hle⟩

/-- The extents of a group that is being built. -/
inductive WellFormed (size : Nat) : List NamespaceExtent → Prop where
  | closed {extents : List NamespaceExtent} : Closed extents size → WellFormed size extents
  | opened {extents : List NamespaceExtent} {b : Nat} {hash : BitVec 64} :
      Closed extents b → b ≤ size → WellFormed size (extents ++ [⟨b, 0, hash⟩])

/-! ## What the operations do to the last extents -/

theorem end_ns_extent_empty (extents : List NamespaceExtent) (size : Nat) (hash : BitVec 64) :
    end_ns_extent (extents ++ [⟨size, 0, hash⟩]) size = extents ∨
    ∃ before prev last, extents = before ++ [prev, last] ∧ prev.hash = last.hash ∧
      end_ns_extent (extents ++ [⟨size, 0, hash⟩]) size = before ++ [{ prev with end_index := size }] := by
  unfold end_ns_extent
  rw [reverse_append, reverse_singleton, singleton_append]
  simp only [if_true]
  split
  · rename_i last prev before hrev
    have heq : extents = before.reverse ++ [prev, last] := by
      rw [← reverse_reverse extents, hrev]
      simp
    split
    · rename_i hhash
      refine inr ⟨before.reverse, prev, last, heq, hhash, ?_⟩
      rw [reverse_cons]
    · left
      exact reverse_reverse extents
  · left
    exact reverse_reverse extents

theorem end_ns_extent_of_lt {b : Nat} (extents : List NamespaceExtent) (hash : BitVec 64)
    (hb : b < size) :
    end_ns_extent (extents ++ [⟨b, 0, hash⟩]) size = extents ++ [⟨b, size, hash⟩] ∨
    ∃ before prev, extents = before ++ [prev] ∧ prev.hash = hash ∧
      end_ns_extent (extents ++ [⟨b, 0, hash⟩]) size = before ++ [{ prev with end_index := size }] := by
  unfold end_ns_extent
  rw [reverse_append, reverse_singleton, singleton_append]
  simp only [if_neg hb.ne]
  rcases eq_nil_or_concat extents with rfl | ⟨before, prev, rfl⟩
  · exact inl rfl
  · simp only [concat_eq_append, reverse_append, reverse_singleton,
      singleton_append]
    split
    · rename_i hhash
      refine inr ⟨before, prev, rfl, hhash, ?_⟩
      rw [reverse_cons, reverse_reverse]
    · left
      simp

theorem closed_end_ns_extent {extents : List NamespaceExtent} {b size : Nat} {hash : BitVec 64}
    (h : Closed extents b) (hb : b ≤ size) :
    Closed (end_ns_extent (extents ++ [⟨b, 0, hash⟩]) size) size := by
  rcases lt_or_ge b size with hlt | hge
  · rcases end_ns_extent_of_lt extents hash hlt with heq | ⟨before, prev, rfl, -, heq⟩
    · rw [heq]
      exact closed_append_iff.mpr ⟨h, hlt, le_refl _⟩
    · rw [heq]
      obtain ⟨hbefore, hprev, hle⟩ := closed_append_iff.mp h
      exact closed_append_iff.mpr ⟨hbefore, by show prev.begin_index < size; omega, le_refl _⟩
  · have hbs : b = size := le_antisymm hb hge
    subst hbs
    rcases end_ns_extent_empty extents b hash with heq | ⟨before, prev, last, rfl, -, heq⟩
    · rw [heq]
      exact h
    · rw [heq]
      have hsplit : before ++ [prev, last] = (before ++ [prev]) ++ [last] := by simp
      rw [hsplit] at h
      obtain ⟨hinit, hlast, hle⟩ := closed_append_iff.mp h
      obtain ⟨hbefore, hprev, hle'⟩ := closed_append_iff.mp hinit
      exact closed_append_iff.mpr ⟨hbefore, by show prev.begin_index < b; omega, le_refl _⟩

/-- An extent of closed ones has its end set. -/
theorem Closed.end_ne_zero (h : Closed extents size) (he : e ∈ extents) : e.end_index ≠ 0 := by
  have := (h.bounds e he).1
  omega

/-- `push_back` on closed extents. -/
theorem push_back_closed (h : Closed extents size) (hash : BitVec 64) :
    (∃ before back, extents = before ++ [back] ∧ back.hash = hash ∧
      push_back extents size hash = before ++ [{ back with end_index := back.end_index + 1 }]) ∨
    ((∀ back ∈ extents.getLast?, back.hash ≠ hash) ∧
      push_back extents size hash = extents ++ [⟨size, size + 1, hash⟩]) := by
  unfold push_back
  rcases eq_nil_or_concat extents with rfl | ⟨before, back, rfl⟩
  · right
    exact ⟨fun _ hback => (by cases hback), rfl⟩
  · rw [concat_eq_append] at h ⊢
    have hend := h.end_ne_zero (mem_append_right _ (mem_singleton_self back))
    simp only [getLast?_append, getLast?_singleton, Option.some_or, hend, and_false,
      if_false]
    by_cases hhash : back.hash = hash
    · left
      refine ⟨before, back, rfl, hhash, ?_⟩
      rw [if_pos hhash, if_pos hend, dropLast_concat]
    · right
      rw [if_neg hhash]
      refine ⟨?_, rfl⟩
      intro e he
      cases he
      exact hhash

/-- `push_back` on an open extent of the same hash leaves the extents alone. -/
theorem push_back_opened (extents : List NamespaceExtent) (b size : Nat) (hash : BitVec 64) :
    push_back (extents ++ [⟨b, 0, hash⟩]) size hash = extents ++ [⟨b, 0, hash⟩] := by
  unfold push_back
  simp

/-- An open extent of another hash is closed first. -/
theorem push_back_opened_other {b : Nat} {other : BitVec 64} (h : Closed extents b)
    (hb : b ≤ size) (hne : other ≠ hash) :
    push_back (extents ++ [⟨b, 0, other⟩]) size hash =
      push_back (end_ns_extent (extents ++ [⟨b, 0, other⟩]) size) size hash := by
  have hclosed := @closed_end_ns_extent _ _ _ other h hb
  conv_lhs => unfold push_back
  simp only [getLast?_append, getLast?_singleton, Option.some_or, hne, ne_eq, not_false_eq_true,
    and_self, if_true]
  conv_rhs => unfold push_back
  generalize end_ns_extent (extents ++ [⟨b, 0, other⟩]) size = ended at hclosed ⊢
  rcases eq_nil_or_concat ended with rfl | ⟨before, back, rfl⟩
  · rfl
  · rw [concat_eq_append] at hclosed ⊢
    have hend := hclosed.end_ne_zero (mem_append_right _ (mem_singleton_self back))
    simp [hend]

theorem closed_push_back (h : Closed extents size) (hash : BitVec 64) :
    Closed (push_back extents size hash) (size + 1) := by
  rcases push_back_closed h hash with ⟨before, back, rfl, -, heq⟩ | ⟨-, heq⟩
  · rw [heq]
    obtain ⟨hbefore, hlt, hle⟩ := closed_append_iff.mp h
    apply closed_append_iff.mpr
    refine ⟨hbefore, ?_, ?_⟩
    · show back.begin_index < back.end_index + 1
      omega
    · show back.end_index + 1 ≤ size + 1
      omega
  · rw [heq]
    exact closed_append_iff.mpr ⟨h, lt_succ_self _, le_refl _⟩

/-- The truncation looks at the extents from the last one on. -/
theorem truncate_to_append (extents : List NamespaceExtent) (e : NamespaceExtent) (i : Nat) :
    truncate_to (extents ++ [e]) i =
      if i ≤ e.begin_index then truncate_to extents i
      else extents ++ [if i < e.end_index then { e with end_index := i } else e] := by
  unfold truncate_to
  rw [reverse_append, reverse_singleton, singleton_append]
  by_cases hle : i ≤ e.begin_index
  · rw [dropWhile_cons_of_pos (by simpa using hle), if_pos hle]
  · rw [dropWhile_cons_of_neg (by simpa using hle), if_neg hle]
    simp

theorem closed_truncate_to (h : Closed extents size) (i : Nat) :
    Closed (truncate_to extents i) i := by
  induction extents using reverseRecOn generalizing size with
  | nil => exact closed_nil i
  | append_singleton extents e ih =>
    obtain ⟨hinit, hlt, -⟩ := closed_append_iff.mp h
    rw [truncate_to_append]
    by_cases hle : i ≤ e.begin_index
    · rw [if_pos hle]
      exact ih hinit
    · rw [if_neg hle]
      by_cases hcut : i < e.end_index
      · rw [if_pos hcut]
        exact closed_append_iff.mpr ⟨hinit, Nat.lt_of_not_le hle, le_refl _⟩
      · rw [if_neg hcut]
        exact closed_append_iff.mpr ⟨hinit, hlt, Nat.le_of_not_lt hcut⟩

theorem Closed.append {extents other : List NamespaceExtent} {m n : Nat} (h : Closed extents m)
    (hother : Closed other n) (hbegin : ∀ e ∈ other, m ≤ e.begin_index) (hmn : m ≤ n) :
    Closed (extents ++ other) n := by
  constructor
  · apply pairwise_append.mpr
    refine ⟨h.ordered, hother.ordered, fun a ha b hb => ?_⟩
    exact le_trans (h.bounds a ha).2 (hbegin b hb)
  · intro e he
    rcases mem_append.mp he with he | he
    · exact ⟨(h.bounds e he).1, le_trans (h.bounds e he).2 hmn⟩
    · exact hother.bounds e he

/-- An extent of the second group of a concatenation. -/
def shift (extent_offset : Nat) (extent : NamespaceExtent) : NamespaceExtent :=
  ⟨extent.begin_index + extent_offset, extent.end_index + extent_offset, extent.hash⟩

theorem closed_map_shift (h : Closed extents n) (m : Nat) :
    Closed (extents.map (shift m)) (m + n) := by
  constructor
  · apply List.Pairwise.map _ _ h.ordered
    intro a b hab
    exact Nat.add_le_add_right hab m
  · intro e he
    obtain ⟨a, ha, rfl⟩ := mem_map.mp he
    have := h.bounds a ha
    show a.begin_index + m < a.end_index + m ∧ a.end_index + m ≤ m + n
    omega

/-- The two ways in which extents are joined. -/
theorem concat_cases (extents other : List NamespaceExtent) (m : Nat) :
    ((∀ back ∈ extents.getLast?, ∀ front ∈ other.head?, back.hash ≠ front.hash) ∧
      concat extents other m = extents ++ other.map (shift m)) ∨
    ∃ before back front rest, extents = before ++ [back] ∧ other = front :: rest ∧
      back.hash = front.hash ∧
      concat extents other m = before
        ++ [{ back with end_index := back.end_index + (front.end_index - front.begin_index) }]
        ++ rest.dropLast.map (shift m) := by
  unfold concat
  rcases eq_nil_or_concat extents with rfl | ⟨before, back, rfl⟩
  · exact inl ⟨fun _ h => (by cases h), rfl⟩
  · rw [concat_eq_append]
    cases other with
    | nil =>
      left
      refine ⟨fun _ _ _ h => (by cases h), ?_⟩
      simp
    | cons front rest =>
      simp only [getLast?_append, getLast?_singleton, Option.some_or, head?_cons]
      by_cases hhash : back.hash = front.hash
      · right
        refine ⟨before, back, front, rest, rfl, rfl, hhash, ?_⟩
        have htake : ((front :: rest).take ((front :: rest).length - 1)).drop 1 = rest.dropLast := by
          rw [dropLast_eq_take, length_cons, Nat.add_sub_cancel]
          cases rest with
          | nil => rfl
          | cons x xs => simp
        rw [if_pos hhash, dropLast_concat, htake]
        rfl
      · left
        rw [if_neg hhash]
        refine ⟨?_, rfl⟩
        intro e he e' he'
        cases he
        cases he'
        exact hhash

variable {other : List NamespaceExtent}

theorem closed_concat (h : Closed extents m) (hother : Closed other n) :
    Closed (concat extents other m) (m + n) := by
  rcases concat_cases extents other m with ⟨-, heq⟩ | ⟨before, back, front, rest, rfl, rfl, -, heq⟩
  · rw [heq]
    apply h.append (closed_map_shift hother m) _ (le_add_right _ _)
    intro e he
    obtain ⟨a, -, rfl⟩ := mem_map.mp he
    exact le_add_left _ _
  · rw [heq]
    obtain ⟨hbefore, hlt, hle⟩ := closed_append_iff.mp h
    have hpair := pairwise_cons.mp hother.ordered
    have hfront := hother.bounds front mem_cons_self
    -- The other extents begin behind the front one.
    have hrest : Closed rest.dropLast n :=
      ⟨hpair.2.sublist (dropLast_sublist rest), fun e he =>
        hother.bounds e (mem_cons_of_mem _ (mem_of_mem_dropLast he))⟩
    have hfirst : Closed (before
        ++ [{ back with end_index := back.end_index + (front.end_index - front.begin_index) }])
        (m + front.end_index) := by
      apply closed_append_iff.mpr
      refine ⟨hbefore, ?_, ?_⟩
      · show back.begin_index < back.end_index + (front.end_index - front.begin_index)
        omega
      · show back.end_index + (front.end_index - front.begin_index) ≤ m + front.end_index
        omega
    apply hfirst.append (closed_map_shift hrest m) _ (by omega)
    intro e he
    obtain ⟨a, ha, rfl⟩ := mem_map.mp he
    have := hpair.1 a (mem_of_mem_dropLast ha)
    show m + front.end_index ≤ a.begin_index + m
    omega

/-! ## Which features are in an extent -/

/-- Position `p` is in an extent with this hash. -/
def Covered (extents : List NamespaceExtent) (p : Nat) (hash : BitVec 64) : Prop :=
  ∃ e ∈ extents, e.begin_index ≤ p ∧ p < e.end_index ∧ e.hash = hash

theorem covered_append :
    Covered (extents ++ other) p hash ↔ Covered extents p hash ∨ Covered other p hash := by
  unfold Covered
  simp only [mem_append]
  constructor
  · intro h
    obtain ⟨e, he | he, h⟩ := h
    · exact inl ⟨e, he, h⟩
    · exact inr ⟨e, he, h⟩
  · intro h
    rcases h with ⟨e, he, h⟩ | ⟨e, he, h⟩
    · exact ⟨e, inl he, h⟩
    · exact ⟨e, inr he, h⟩

theorem covered_singleton :
    Covered [e] p hash ↔ e.begin_index ≤ p ∧ p < e.end_index ∧ e.hash = hash := by
  unfold Covered
  simp only [mem_singleton, exists_eq_left]

theorem not_covered_nil : ¬ Covered [] p hash := by
  intro h
  obtain ⟨e, he, -⟩ := h
  cases he

theorem Closed.lt_of_covered (h : Closed extents size) (hc : Covered extents p hash) :
    p < size := by
  obtain ⟨e, he, -, hlt, -⟩ := hc
  have := (h.bounds e he).2
  omega

theorem covered_truncate_to (h : Closed extents size) (i p : Nat) (hash : BitVec 64) :
    Covered (truncate_to extents i) p hash ↔ Covered extents p hash ∧ p < i := by
  induction extents using reverseRecOn generalizing size with
  | nil =>
    constructor
    · intro h
      exact absurd h not_covered_nil
    · intro h
      exact absurd h.1 not_covered_nil
  | append_singleton extents e ih =>
    obtain ⟨hinit, hlt, -⟩ := closed_append_iff.mp h
    rw [truncate_to_append, covered_append, covered_singleton]
    by_cases hle : i ≤ e.begin_index
    · rw [if_pos hle, ih hinit]
      constructor
      · intro h
        exact ⟨inl h.1, h.2⟩
      · intro h
        obtain ⟨h | h, hp⟩ := h
        · exact ⟨h, hp⟩
        · omega
    · -- The extents before the last one are in front of the cut.
      have hbefore : Covered extents p hash → p < i := by
        intro h
        have := hinit.lt_of_covered h
        omega
      rw [if_neg hle, covered_append]
      by_cases hcut : i < e.end_index
      · rw [if_pos hcut, covered_singleton]
        constructor
        · intro h
          rcases h with h | ⟨h1, h2, h3⟩
          · exact ⟨inl h, hbefore h⟩
          · exact ⟨inr ⟨h1, by simp only at h2; omega, h3⟩, h2⟩
        · intro h
          obtain ⟨h | ⟨h1, h2, h3⟩, hp⟩ := h
          · exact inl h
          · exact inr ⟨h1, hp, h3⟩
      · rw [if_neg hcut, covered_singleton]
        constructor
        · intro h
          rcases h with h | ⟨h1, h2, h3⟩
          · exact ⟨inl h, hbefore h⟩
          · exact ⟨inr ⟨h1, h2, h3⟩, by omega⟩
        · intro h
          exact h.1

/-! ## Flattened extents -/

/-- The entry of position `p` in the flattened list. -/
def label (extents : List NamespaceExtent) (p : Nat) : Bool × BitVec 64 :=
  match extents.find? (fun e => e.begin_index ≤ p && p < e.end_index) with
  | some e => (true, e.hash)
  | none => (false, 0)

theorem label_cons_of_lt
    (h : ∀ a ∈ e :: extents, p < a.begin_index) : label (e :: extents) p = (false, 0) := by
  unfold label
  have hfind : (e :: extents).find? (fun e => e.begin_index ≤ p && p < e.end_index) = none := by
    apply find?_eq_none.mpr
    intro a ha
    have := h a ha
    simp only [Bool.and_eq_true, decide_eq_true_eq]
    omega
  rw [hfind]

theorem label_cons_of_mem
    (hlo : e.begin_index ≤ p) (hhi : p < e.end_index) : label (e :: extents) p = (true, e.hash) := by
  unfold label
  rw [find?_cons_of_pos (by simp [hlo, hhi])]

theorem label_cons_of_ge
    (hge : e.end_index ≤ p) : label (e :: extents) p = label extents p := by
  unfold label
  rw [find?_cons_of_neg]
  simp only [Bool.and_eq_true, decide_eq_true_eq]
  omega

theorem map_label_eq_replicate {f : Nat → Bool × BitVec 64} {x : Bool × BitVec 64}
    (h : ∀ p, m ≤ p → p < m + n → f p = x) : (range' m n).map f = replicate n x := by
  apply eq_replicate_iff.mpr
  refine ⟨by rw [length_map, length_range'], fun y hy => ?_⟩
  obtain ⟨p, hp, rfl⟩ := mem_map.mp hy
  obtain ⟨hlo, hhi⟩ := mem_range'_1.mp hp
  exact h p hlo hhi

/-- The flattened list position by position. -/
theorem flatten_from_eq {last_end : Nat} (h : Closed extents size)
    (hbegin : ∀ e ∈ extents, last_end ≤ e.begin_index) (hle : last_end ≤ size) :
    flatten_from last_end extents size
      = (range' last_end (size - last_end)).map (label extents) := by
  induction extents generalizing last_end with
  | nil =>
    have hgap : (range' last_end (size - last_end)).map (label []) = unused (size - last_end) :=
      map_label_eq_replicate fun _ _ _ => rfl
    rw [flatten_from, hgap]
    split
    · rfl
    · rw [show size - last_end = 0 by omega]
      rfl
  | cons e extents ih =>
    have hpair := pairwise_cons.mp h.ordered
    have hbounds := h.bounds e mem_cons_self
    have hfirst := hbegin e mem_cons_self
    have hrest := @ih e.end_index
      ⟨hpair.2, fun a ha => h.bounds a (mem_cons_of_mem _ ha)⟩ hpair.1 hbounds.2
    -- The stretch before the extent, the extent, and the stretch behind it.
    have hsplit : range' last_end (size - last_end)
        = range' last_end (e.begin_index - last_end)
          ++ range' e.begin_index (e.end_index - e.begin_index)
          ++ range' e.end_index (size - e.end_index) := by
      rw [show size - last_end = (e.begin_index - last_end) + ((e.end_index - e.begin_index)
        + (size - e.end_index)) by omega, ← range'_append_1, ← range'_append_1,
        ← append_assoc]
      congr 2
      · congr 1
        omega
      · omega
    have hgap : (range' last_end (e.begin_index - last_end)).map (label (e :: extents))
        = if last_end < e.begin_index then unused (e.begin_index - last_end) else [] := by
      rw [map_label_eq_replicate (x := (false, 0))]
      · split
        · rfl
        · rw [show e.begin_index - last_end = 0 by omega]
          rfl
      · intro p _ hp
        apply label_cons_of_lt
        intro a ha
        rcases mem_cons.mp ha with rfl | ha
        · omega
        · have := hpair.1 a ha
          omega
    have hinside : (range' e.begin_index (e.end_index - e.begin_index)).map (label (e :: extents))
        = replicate (e.end_index - e.begin_index) (true, e.hash) := by
      apply map_label_eq_replicate
      intro p hlo hhi
      exact label_cons_of_mem hlo (by omega)
    have hbehind : (range' e.end_index (size - e.end_index)).map (label (e :: extents))
        = (range' e.end_index (size - e.end_index)).map (label extents) := by
      apply map_congr_left
      intro p hp
      exact label_cons_of_ge (mem_range'_1.mp hp).1
    rw [flatten_from, hsplit, map_append, map_append, hgap, hinside, hbehind, hrest]

theorem flatten_eq (h : Closed extents size) :
    flatten_namespace_extents extents size = (range size).map (label extents) := by
  unfold flatten_namespace_extents
  rw [flatten_from_eq h (fun _ _ => Nat.zero_le _) (Nat.zero_le _), Nat.sub_zero,
    range_eq_range']

theorem length_flatten (h : Closed extents size) :
    (flatten_namespace_extents extents size).length = size := by
  rw [flatten_eq h, length_map, length_range]

/-- The label of a position says in which extent it is. -/
theorem label_eq_iff (h : Closed extents size) (p : Nat) (hash : BitVec 64) :
    label extents p = (true, hash) ↔ Covered extents p hash := by
  induction extents with
  | nil =>
    constructor
    · intro h
      cases h
    · intro h
      exact absurd h not_covered_nil
  | cons e extents ih =>
    have hpair := pairwise_cons.mp h.ordered
    have hrest : Closed extents size := ⟨hpair.2, fun a ha => h.bounds a (mem_cons_of_mem _ ha)⟩
    have hcons : Covered (e :: extents) p hash ↔
        (e.begin_index ≤ p ∧ p < e.end_index ∧ e.hash = hash) ∨ Covered extents p hash := by
      rw [← singleton_append, covered_append, covered_singleton]
    rw [hcons]
    by_cases hin : e.begin_index ≤ p ∧ p < e.end_index
    · rw [label_cons_of_mem hin.1 hin.2]
      -- No other extent has the position.
      have hother : ¬ Covered extents p hash := by
        intro hc
        obtain ⟨a, ha, hlo, -, -⟩ := hc
        have := hpair.1 a ha
        omega
      constructor
      · intro heq
        cases heq
        exact inl ⟨hin.1, hin.2, rfl⟩
      · intro hc
        rcases hc with ⟨-, -, heq⟩ | hc
        · rw [heq]
        · exact absurd hc hother
    · have hlabel : label (e :: extents) p = label extents p := by
        unfold label
        rw [find?_cons_of_neg]
        simp only [Bool.and_eq_true, decide_eq_true_eq]
        exact hin
      rw [hlabel, ih hrest]
      constructor
      · exact inr
      · intro hc
        rcases hc with ⟨h1, h2, -⟩ | hc
        · exact absurd ⟨h1, h2⟩ hin
        · exact hc

/-- The extent that ends at `i`, if the stretch before it is one. -/
theorem stretch_spec (current : Bool × BitVec 64) {last_start i : Nat} (hlt : last_start < i) :
    let stretch : List NamespaceExtent :=
      if current.1 then [⟨last_start, i, current.2⟩] else []
    Closed stretch i ∧ (∀ e ∈ stretch, last_start ≤ e.begin_index) ∧
    ∀ p hash, Covered stretch p hash ↔ last_start ≤ p ∧ p < i ∧ current = (true, hash) := by
  obtain ⟨b, c⟩ := current
  cases b with
  | true =>
    refine ⟨⟨pairwise_singleton _ _, fun e he => ?_⟩, fun e he => ?_, fun p hash => ?_⟩
    · rw [mem_singleton.mp he]
      exact ⟨hlt, le_refl _⟩
    · rw [mem_singleton.mp he]
    · show Covered [_] p hash ↔ _
      rw [covered_singleton]
      simp
  | false =>
    refine ⟨closed_nil i, fun e he => (by cases he), fun p hash => ?_⟩
    constructor
    · intro h
      exact absurd h not_covered_nil
    · intro h
      cases h.2.2

theorem unflatten_from_spec (rest : List (Bool × BitVec 64)) (current : Bool × BitVec 64)
    {last_start i : Nat} (hlt : last_start < i) :
    Closed (unflatten_from current last_start i rest) (i + rest.length) ∧
    (∀ e ∈ unflatten_from current last_start i rest, last_start ≤ e.begin_index) ∧
    ∀ p hash, Covered (unflatten_from current last_start i rest) p hash ↔
      (last_start ≤ p ∧ p < i ∧ current = (true, hash)) ∨
        (i ≤ p ∧ rest[p - i]? = some (true, hash)) := by
  induction rest generalizing current last_start i with
  | nil =>
    rw [unflatten_from]
    obtain ⟨hclosed, hstart, hcovered⟩ := stretch_spec current hlt
    refine ⟨hclosed, hstart, fun p hash => ?_⟩
    rw [hcovered]
    simp
  | cons next rest ih =>
    rw [unflatten_from]
    have hlen : i + (next :: rest).length = i + 1 + rest.length := by
      rw [length_cons]
      omega
    -- The next entry and those behind it.
    have hnext : ∀ (p : Nat) (hash : BitVec 64),
        ((i ≤ p ∧ p < i + 1 ∧ next = (true, hash)) ∨ (i + 1 ≤ p ∧ rest[p - (i + 1)]? = some (true, hash)))
          ↔ (i ≤ p ∧ (next :: rest)[p - i]? = some (true, hash)) := by
      intro p hash
      rcases lt_trichotomy p i with h | rfl | h
      · constructor
        · intro hp
          omega
        · intro hp
          omega
      · simp
      · rw [show p - i = (p - (i + 1)) + 1 by omega, getElem?_cons_succ]
        constructor
        · intro hp
          rcases hp with hp | hp
          · omega
          · exact ⟨h.le, hp.2⟩
        · intro hp
          exact inr ⟨h, hp.2⟩
    by_cases hsame : current = next
    · -- The stretch goes on.
      rw [if_neg (not_not.mpr hsame)]
      obtain ⟨hclosed, hstart, hcovered⟩ := ih current (lt_succ_of_lt hlt)
      refine ⟨hlen ▸ hclosed, hstart, fun p hash => ?_⟩
      rw [hcovered, ← hnext, ← hsame]
      constructor
      · intro hp
        rcases hp with ⟨ha, hb, hc⟩ | hp
        · rcases lt_or_ge p i with h | h
          · exact inl ⟨ha, h, hc⟩
          · exact inr (inl ⟨h, hb, hc⟩)
        · exact inr (inr hp)
      · intro hp
        rcases hp with ⟨ha, hb, hc⟩ | ⟨ha, hb, hc⟩ | hp
        · exact inl ⟨ha, by omega, hc⟩
        · exact inl ⟨by omega, hb, hc⟩
        · exact inr hp
    · rw [if_pos hsame]
      obtain ⟨hclosed, hstart, hcovered⟩ := stretch_spec current hlt
      obtain ⟨hclosed', hstart', hcovered'⟩ := ih next (lt_succ_self i)
      refine ⟨hlen ▸ hclosed.append hclosed' hstart' (by omega), ?_, fun p hash => ?_⟩
      · intro e he
        rcases mem_append.mp he with he | he
        · exact hstart e he
        · have := hstart' e he
          omega
      · rw [covered_append, hcovered, hcovered', hnext]

/-! ## Tags -/

/-- The tag of an entry of the flattened list. -/
def to_tag (entry : Bool × BitVec 64) : Option (BitVec 64) :=
  if entry.1 then some entry.2 else none

/-- The extents hold the features that have a tag, under their tag. -/
structure Covers (extents : List NamespaceExtent) (tags : List (Option (BitVec 64))) : Prop where
  closed : Closed extents tags.length
  covered : ∀ p hash, Covered extents p hash ↔ tags[p]? = some (some hash)

theorem covers_nil : Covers [] [] := by
  refine ⟨closed_nil _, fun p hash => ?_⟩
  constructor
  · intro h
    exact absurd h not_covered_nil
  · intro h
    cases h

theorem to_tag_eq_some_iff (entry : Bool × BitVec 64) : to_tag entry = some hash ↔ entry = (true, hash) := by
  obtain ⟨b, c⟩ := entry
  cases b with
  | true => simp [to_tag]
  | false => simp [to_tag]

theorem covers_unflatten (flattened : List (Bool × BitVec 64)) :
    Covers (unflatten_namespace_extents flattened) (flattened.map to_tag) := by
  cases flattened with
  | nil => exact covers_nil
  | cons first rest =>
    obtain ⟨hclosed, -, hcovered⟩ := unflatten_from_spec rest first one_pos
    constructor
    · show Closed (unflatten_from first 0 1 rest) _
      rw [length_map, length_cons, add_comm]
      exact hclosed
    · intro p hash
      show Covered (unflatten_from first 0 1 rest) p hash ↔ _
      rw [hcovered, getElem?_map, Option.map_eq_some_iff]
      simp only [to_tag_eq_some_iff]
      rcases Nat.eq_zero_or_pos p with rfl | hp
      · simp
      · rw [show p = (p - 1) + 1 by omega, getElem?_cons_succ]
        simp

theorem covers_flatten (h : Closed extents size) :
    Covers extents ((flatten_namespace_extents extents size).map to_tag) := by
  refine ⟨by rw [length_map, length_flatten h]; exact h, fun p hash => ?_⟩
  rw [flatten_eq h, map_map, getElem?_map]
  rcases lt_or_ge p size with hp | hp
  · rw [getElem?_range hp, Option.map_some, Function.comp_apply, Option.some_inj, to_tag_eq_some_iff, label_eq_iff h]
  · rw [getElem?_eq_none (by simpa using hp)]
    exact iff_of_false (fun hc => absurd (h.lt_of_covered hc) hp.not_gt) nofun

/-- The flattened list has the tags. -/
theorem Covers.flatten {tags : List (Option (BitVec 64))} (h : Covers extents tags) :
    (flatten_namespace_extents extents tags.length).map to_tag = tags := by
  refine ext_getElem (by rw [length_map, length_flatten h.closed]) fun p hp hp' => Option.ext fun hash => ?_
  have hboth := ((covers_flatten h.closed).covered p hash).symm.trans (h.covered p hash)
  rwa [getElem?_eq_getElem hp, getElem?_eq_getElem hp', Option.some_inj, Option.some_inj] at hboth

end VW.Extents
