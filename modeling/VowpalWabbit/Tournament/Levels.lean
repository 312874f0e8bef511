import VowpalWabbit.Tournament.Wiring

/-! # The levels of a circuit

    In every level the first tournament that is not over has two players at least, and only
    it can end. A player of tournament `i` can still lose as often as there are tournaments
    from `i` on; every match takes one of these chances, and the match that ends a tournament
    takes one more.
-/

open Cpp

namespace VW.Tournament

open List Function Nat

/-! ## The lists during a level -/

/-- The part of the lists that is still to be played at match `j` of tournament `i`. -/
def unplayed (tournaments : Tournaments) (i j t : Nat) : List Nat :=
  if t < i then [] else if t = i then (tournaments i).drop (2 * j) else tournaments t

/-- Who waits then. -/
def Waits (tournaments new_tournaments : Tournaments) (i j t x : Nat) : Prop :=
  x ∈ unplayed tournaments i j t ∨ x ∈ new_tournaments t

/-- How many come to a tournament from the one before. -/
def came (eliminations : Nat) (tournaments : Tournaments) (t : Nat) : Nat :=
  if t = 0 ∨ ¬ t < eliminations then 0
  else if ends_tournament tournaments (t - 1) then 2 * ((tournaments (t - 1)).length / 2)
  else (tournaments (t - 1)).length / 2

/-- How many stay in a tournament. -/
def stayed (tournaments : Tournaments) (t : Nat) : Nat :=
  (if ends_tournament tournaments t then 0 else (tournaments t).length / 2) + (tournaments t).length % 2

theorem mem_push {tournaments : Tournaments} {i node t x : Nat} :
    x ∈ tournaments.push i node t ↔ x ∈ tournaments t ∨ (t = i ∧ x = node) := by
  unfold Tournaments.push
  by_cases ht : t = i
  · subst ht
    rw [update_self, mem_append, mem_singleton]
    simp
  · rw [update_of_ne ht]
    simp [ht]

theorem length_push {tournaments : Tournaments} {i node t : Nat} :
    (tournaments.push i node t).length = (tournaments t).length + if t = i then 1 else 0 := by
  unfold Tournaments.push
  by_cases ht : t = i
  · subst ht
    rw [update_self, length_append, length_singleton, if_pos rfl]
  · rw [update_of_ne ht, if_neg ht, Nat.add_zero]

/-- The state within a level that began with circuit `c₀`. -/
structure Level (k eliminations : Nat) (tournaments : Tournaments) (c₀ : Circuit) (i j : Nat)
    (s : Circuit × Tournaments) : Prop where
  wired : Wired k eliminations s.1 (Waits tournaments s.2 i j)
  lengths : ∀ t, (s.2 t).length =
    if t < i then came eliminations tournaments t + stayed tournaments t
    else if t = i then came eliminations tournaments i + if ends_tournament tournaments i then 0 else j
    else if t = i + 1 ∧ t < eliminations then (if ends_tournament tournaments i then 2 * j else j)
    else 0
  size : s.1.size = c₀.size + (∑ t ∈ Finset.range i, (tournaments t).length / 2) + j
  final_nodes : s.1.final_nodes.length = c₀.final_nodes.length +
    (∑ t ∈ Finset.range i, if ends_tournament tournaments t then (tournaments t).length / 2 else 0) +
    if ends_tournament tournaments i then j else 0
  first : s.1.size ≠ k → First k s.1 (Waits tournaments s.2 i j)

/-- The lists in which the labels are before the first level. -/
def Starts (k : Nat) (tournaments : Tournaments) (c₀ : Circuit) : Prop :=
  c₀.size = k → 2 ≤ k ∧ tournaments 0 = range k

/-- The first tournament that is not over. -/
structure Front (eliminations : Nat) (tournaments : Tournaments) (f : Nat) : Prop where
  le : f ≤ eliminations
  before : ∀ t < f, tournaments t = []
  two : f < eliminations → 2 ≤ (tournaments f).length
  after : ∀ t, f ≤ t → tournaments (t + 1) ≠ [] → tournaments t ≠ []
  outside : ∀ t, eliminations ≤ t → tournaments t = []

section Step

variable {k eliminations f i j : Nat} {tournaments : Tournaments} {c₀ : Circuit} {s : Circuit × Tournaments}

/-- Only the first tournament can end. -/
theorem Front.ends_iff (h : Front eliminations tournaments f) :
    ends_tournament tournaments i = true ↔ i = f ∧ (tournaments f).length = 2 := by
  unfold ends_tournament
  rw [decide_eq_true_eq]
  constructor
  · rintro ⟨hlength, hfirst⟩
    have hne : tournaments i ≠ [] := by
      intro hnil
      rw [hnil] at hlength
      cases hlength
    have hle : f ≤ i := Nat.le_of_not_lt fun hlt => hne (h.before i hlt)
    rcases eq_or_lt_of_le hle with rfl | hlt
    · exact ⟨rfl, hlength⟩
    · -- the tournament before is not over
      obtain ⟨i, rfl⟩ : ∃ i', i = i' + 1 := ⟨i - 1, by omega⟩
      have hprevious := h.after i (by omega) hne
      rcases hfirst with hzero | hnil
      · omega
      · exact absurd hnil hprevious
  · rintro ⟨rfl, hlength⟩
    refine ⟨hlength, ?_⟩
    by_cases hzero : i = 0
    · exact .inl hzero
    · exact .inr (h.before (i - 1) (by omega))

theorem unplayed_self : unplayed tournaments i j i = (tournaments i).drop (2 * j) := by
  unfold unplayed
  rw [if_neg (lt_irrefl i), if_pos rfl]

theorem unplayed_of_ne {t : Nat} (h : t ≠ i) (j' : Nat) :
    unplayed tournaments i j t = unplayed tournaments i j' t := by
  unfold unplayed
  rw [if_neg h, if_neg h]

/-- The two players of a match. -/
theorem drop_players (hj : j < (tournaments i).length / 2) :
    (tournaments i).drop (2 * j) = (tournaments i).getD (2 * j) 0 :: (tournaments i).getD (2 * j + 1) 0 ::
      (tournaments i).drop (2 * (j + 1)) := by
  have hleft : 2 * j < (tournaments i).length := by omega
  have hright : 2 * j + 1 < (tournaments i).length := by omega
  rw [drop_eq_getElem_cons hleft, drop_eq_getElem_cons hright, getD_eq_getElem?_getD,
    getD_eq_getElem?_getD, getElem?_eq_getElem hleft, getElem?_eq_getElem hright]
  rfl

/-- What a match adds to the lists of the next level. -/
theorem mem_play_match {t x : Nat} : x ∈ (play_match eliminations tournaments i s j).2 t ↔ x ∈ s.2 t ∨
    (x = s.1.size ∧ ((t = i ∧ ends_tournament tournaments i = false) ∨ (t = i + 1 ∧ i + 1 < eliminations))) := by
  unfold play_match
  cases ends_tournament tournaments i <;> by_cases hi : i + 1 < eliminations <;>
    simp only [hi, if_true, if_false, mem_push, Bool.false_eq_true]
  all_goals constructor <;> intro h
  all_goals tauto

theorem played_play_match (hj : j < (tournaments i).length / 2) :
    Played eliminations i ((tournaments i).getD (2 * j) 0) ((tournaments i).getD (2 * j + 1) 0) s.1.size
      (ends_tournament tournaments i) (Waits tournaments s.2 i j)
      (Waits tournaments (play_match eliminations tournaments i s j).2 i (j + 1)) := by
  have hplayers := (@drop_players _ _ tournaments) hj
  refine ⟨?_, ?_, fun t x hwaits => ?_, fun t x hwaits => ?_, fun hends => ?_, fun hi => ?_⟩
  · refine .inl ?_
    rw [unplayed_self, hplayers]
    exact mem_cons_self
  · refine .inl ?_
    rw [unplayed_self, hplayers]
    exact mem_cons_of_mem _ mem_cons_self
  · rcases hwaits with hwaits | hwaits
    · refine .inl (.inl ?_)
      by_cases ht : t = i
      · subst ht
        rw [unplayed_self] at hwaits ⊢
        rw [hplayers]
        exact mem_cons_of_mem _ (mem_cons_of_mem _ hwaits)
      · rwa [unplayed_of_ne ht j] at hwaits
    · rcases mem_play_match.mp hwaits with hwaits | hnew
      · exact .inl (.inr hwaits)
      · exact .inr hnew
  · rcases hwaits with hwaits | hwaits
    · by_cases ht : t = i
      · subst ht
        rw [unplayed_self, hplayers] at hwaits
        rcases mem_cons.mp hwaits with rfl | hwaits
        · exact .inr ⟨rfl, .inl rfl⟩
        rcases mem_cons.mp hwaits with rfl | hwaits
        · exact .inr ⟨rfl, .inr rfl⟩
        · refine .inl (.inl ?_)
          rwa [unplayed_self]
      · refine .inl (.inl ?_)
        rwa [unplayed_of_ne ht j]
    · exact .inl (.inr (mem_play_match.mpr (.inl hwaits)))
  · exact .inr (mem_play_match.mpr (.inr ⟨rfl, .inl ⟨rfl, hends⟩⟩))
  · exact .inr (mem_play_match.mpr (.inr ⟨rfl, .inr ⟨rfl, hi⟩⟩))

theorem Level.first_match (hleaves : k ≤ c₀.size) (hstarts : Starts k tournaments c₀)
    (h : Level k eliminations tournaments c₀ i j s) (hj : j < (tournaments i).length / 2) (hsize : s.1.size = k) :
    First k (Tournament.play_match eliminations tournaments i s j).1
      (Waits tournaments (Tournament.play_match eliminations tournaments i s j).2 i (j + 1)) := by
  have hcount := h.size
  obtain ⟨htwo, hrange⟩ := hstarts (by omega)
  -- every match before would have made a node
  obtain rfl : j = 0 := by omega
  obtain rfl : i = 0 := by
    by_contra hi
    have hle : (tournaments 0).length / 2 ≤ ∑ t ∈ Finset.range i, (tournaments t).length / 2 :=
      Finset.single_le_sum (f := fun t => (tournaments t).length / 2) (fun _ _ => zero_le _)
        (Finset.mem_range.mpr (pos_of_ne_zero hi))
    rw [hrange, length_range] at hle
    omega
  have hleft : (tournaments 0).getD (2 * 0) 0 = 0 := by
    rw [hrange, getD_eq_getElem?_getD, getElem?_range (by omega)]
    rfl
  have hright : (tournaments 0).getD (2 * 0 + 1) 0 = 1 := by
    rw [hrange, getD_eq_getElem?_getD, getElem?_range (by omega)]
    rfl
  have hempty : s.2 0 = [] := by
    have hlength := h.lengths 0
    rw [if_neg (lt_irrefl 0), if_pos rfl, came, if_pos (.inl rfl)] at hlength
    refine length_eq_zero_iff.mp (hlength.trans ?_)
    split <;> rfl
  have hdirections := @add_match_directions eliminations 0 0 1 (ends_tournament tournaments 0) s.1
    (by omega) (by omega)
  have hcircuit : (Tournament.play_match eliminations tournaments 0 s 0).1 =
      s.1.add_match eliminations 0 0 1 (ends_tournament tournaments 0) := by
    unfold Tournament.play_match
    rw [hleft, hright]
  rw [hcircuit]
  refine ⟨htwo, ?_, ?_, ?_, fun x hx => ?_, fun x hx hwaits => ?_⟩
  · rw [hdirections, if_pos hsize.symm]
  · rw [hdirections, if_pos hsize.symm]
  · rw [hdirections, if_pos hsize.symm]
  · rw [hdirections, if_neg (by omega)]
    have hplayer : x = 0 ∨ x = 1 := by omega
    have htournament := (h.wired.leaf x (by omega)).1
    show (if ((x = 0 ∨ x = 1) ∧ (s.1.directions x).tournament = 0) ∨ _ then s.1.size else _) = k
    rw [if_pos (.inl ⟨hplayer, htournament⟩), hsize]
  · rcases hwaits with hwaits | hwaits
    · rw [unplayed_self, hrange] at hwaits
      have hge : 2 ≤ x := by
        obtain ⟨n, hn⟩ := mem_iff_getElem?.mp hwaits
        rw [getElem?_drop] at hn
        obtain ⟨_, hget⟩ := List.getElem?_eq_some_iff.mp hn
        rw [getElem_range] at hget
        omega
      omega
    · -- only the node of the match was added
      rcases mem_play_match.mp hwaits with hold | ⟨hnode, -⟩
      · rw [hempty] at hold
        cases hold
      · omega

/-- A match takes the level on. -/
theorem Level.play_match (hfront : Front eliminations tournaments f) (hfinal : c₀.final_nodes.length = f)
    (hleaves : k ≤ c₀.size) (hstarts : Starts k tournaments c₀)
    (h : Level k eliminations tournaments c₀ i j s) (hj : j < (tournaments i).length / 2) :
    Level k eliminations tournaments c₀ i (j + 1) (play_match eliminations tournaments i s j) := by
  refine ⟨h.wired.add_match (played_play_match hj) fun hends => ?_, fun t => ?_, ?_, ?_, fun _ => ?_⟩
  · -- no tournament ended before in this level
    obtain ⟨rfl, htwo⟩ := hfront.ends_iff.mp hends
    have hnone : (∑ t ∈ Finset.range i,
      if ends_tournament tournaments t then (tournaments t).length / 2 else 0) = 0 := by
      refine Finset.sum_eq_zero fun t ht => ?_
      rw [if_neg]
      intro hends'
      have heq := (hfront.ends_iff.mp hends').1
      rw [Finset.mem_range] at ht
      omega
    rw [h.final_nodes, hnone, hfinal, if_pos hends]
    omega
  · have hlength := h.lengths t
    have hbefore : (Tournament.play_match eliminations tournaments i s j).2 t =
        (let new := if ends_tournament tournaments i then
            (if i + 1 < eliminations then s.2.push (i + 1) s.1.size else s.2) else s.2.push i s.1.size
         if i + 1 < eliminations then new.push (i + 1) s.1.size else new) t := rfl
    rw [hbefore]
    cases hends : ends_tournament tournaments i with
    | false =>
      simp only [hends, Bool.false_eq_true, if_false] at hlength ⊢
      by_cases hi : i + 1 < eliminations
      · rw [if_pos hi, length_push, length_push, hlength]
        split_ifs <;> omega
      · rw [if_neg hi, length_push, hlength]
        split_ifs <;> omega
    | true =>
      simp only [hends, if_true] at hlength ⊢
      by_cases hi : i + 1 < eliminations
      · rw [if_pos hi, if_pos hi, length_push, length_push, hlength]
        split_ifs <;> omega
      · rw [if_neg hi, if_neg hi, hlength]
        split_ifs <;> omega
  · show s.1.size + 1 = _
    rw [h.size]
    rfl
  · show (if ends_tournament tournaments i then s.1.final_nodes ++ [s.1.size] else s.1.final_nodes).length = _
    have hlength := h.final_nodes
    cases hends : ends_tournament tournaments i with
    | false =>
      rw [hends] at hlength
      simpa using hlength
    | true =>
      rw [hends] at hlength
      simp only [if_true, length_append, length_singleton] at hlength ⊢
      omega
  · by_cases hsize : s.1.size = k
    · exact h.first_match hleaves hstarts hj hsize
    · have hlt : k < s.1.size := lt_of_le_of_ne h.wired.leaves_le (Ne.symm hsize)
      exact (h.first hsize).add_match h.wired hlt (played_play_match hj)

/-- All matches of a tournament. -/
theorem Level.play_matches (hfront : Front eliminations tournaments f) (hfinal : c₀.final_nodes.length = f)
    (hleaves : k ≤ c₀.size) (hstarts : Starts k tournaments c₀)
    (h : Level k eliminations tournaments c₀ i 0 s) :
    Level k eliminations tournaments c₀ i ((tournaments i).length / 2)
      (for_range ((tournaments i).length / 2) (Tournament.play_match eliminations tournaments i) s) :=
  for_range_invariant (Level k eliminations tournaments c₀ i) h fun _ hj _ h' =>
    h'.play_match hfront hfinal hleaves hstarts hj

theorem First.congr {c : Circuit} {waits waits' : Nat → Nat → Prop} (h : First k c waits)
    (heq : ∀ t x, waits t x ↔ waits' t x) : First k c waits' :=
  { h with not_waiting := fun x hx hwaits => h.not_waiting x hx ((heq 0 x).mpr hwaits) }

theorem Wired.congr {c : Circuit} {waits waits' : Nat → Nat → Prop} (h : Wired k eliminations c waits)
    (heq : ∀ t x, waits t x ↔ waits' t x) : Wired k eliminations c waits' := by
  obtain rfl : waits = waits' := by
    funext t x
    exact propext (heq t x)
  exact h

/-- A tournament takes the level on. -/
theorem Level.play_tournament (hfront : Front eliminations tournaments f) (hfinal : c₀.final_nodes.length = f)
    (hleaves : k ≤ c₀.size) (hstarts : Starts k tournaments c₀)
    (h : Level k eliminations tournaments c₀ i 0 s) (hi : i < eliminations) :
    Level k eliminations tournaments c₀ (i + 1) 0 (play_tournament eliminations tournaments s i) := by
  have hmatches := h.play_matches hfront hfinal hleaves hstarts
  unfold Tournament.play_tournament
  generalize for_range ((tournaments i).length / 2)
    (Tournament.play_match eliminations tournaments i) s = s₁ at hmatches
  -- the state after an odd player was carried over
  have hcarried : ∀ carried : List Nat, (tournaments i).drop (2 * ((tournaments i).length / 2)) = carried →
      ∀ new_tournaments : Tournaments, (∀ t x, x ∈ new_tournaments t ↔ x ∈ s₁.2 t ∨ (t = i ∧ x ∈ carried)) →
      (∀ t, (new_tournaments t).length = (s₁.2 t).length + if t = i then (tournaments i).length % 2 else 0) →
      Level k eliminations tournaments c₀ (i + 1) 0 (s₁.1, new_tournaments) := by
    intro carried hdrop new_tournaments hmem hlength
    have hwaits : ∀ t x, Waits tournaments s₁.2 i ((tournaments i).length / 2) t x ↔
        Waits tournaments new_tournaments (i + 1) 0 t x := by
      intro t x
      unfold Waits
      rw [hmem]
      by_cases ht : t = i
      · subst ht
        rw [unplayed_self, hdrop]
        have hdone : unplayed tournaments (t + 1) 0 t = [] := if_pos (lt_succ_self t)
        rw [hdone]
        simp [or_comm]
      · have hsame : unplayed tournaments i ((tournaments i).length / 2) t = unplayed tournaments (i + 1) 0 t := by
          unfold unplayed
          by_cases hlt : t < i
          · rw [if_pos hlt, if_pos (Nat.lt_succ_of_lt hlt)]
          · rw [if_neg hlt, if_neg ht, if_neg (by omega)]
            by_cases hnext : t = i + 1
            · rw [if_pos hnext, hnext, Nat.mul_zero, drop_zero]
            · rw [if_neg hnext]
        rw [hsame]
        simp [ht]
    refine ⟨hmatches.wired.congr hwaits, fun t => ?_, ?_, ?_, fun hsize => (hmatches.first hsize).congr hwaits⟩
    · rw [hlength, hmatches.lengths]
      unfold came stayed
      by_cases hlt : t < i
      · rw [if_pos hlt, if_pos (Nat.lt_succ_of_lt hlt), if_neg (Nat.ne_of_lt hlt)]
        rfl
      · rw [if_neg hlt]
        by_cases ht : t = i
        · subst ht
          rw [if_pos rfl, if_pos rfl, if_pos (lt_succ_self t)]
          omega
        · rw [if_neg ht, if_neg ht, if_neg (by omega : ¬ t < i + 1)]
          by_cases hnext : t = i + 1
          · subst hnext
            rw [if_pos rfl, Nat.add_sub_cancel]
            by_cases hlast : i + 1 < eliminations
            · have hcame : ¬ (i + 1 = 0 ∨ ¬ i + 1 < eliminations) := by omega
              rw [if_pos ⟨rfl, hlast⟩, if_neg hcame]
              split_ifs <;> omega
            · rw [if_neg fun h => hlast h.2, if_pos (.inr hlast)]
              split_ifs <;> omega
          · rw [if_neg fun h => hnext h.1, if_neg hnext]
            split_ifs <;> omega
    · show s₁.1.size = _
      rw [hmatches.size, Finset.sum_range_succ, Nat.add_zero, add_assoc]
    · show s₁.1.final_nodes.length = _
      rw [hmatches.final_nodes, Finset.sum_range_succ, ← add_assoc]
      split <;> split <;> rfl
  rcases eq_nil_or_concat (tournaments i) with hnil | ⟨front, back, hlast⟩
  · rw [hnil]
    refine hcarried [] (by rw [hnil]; rfl) s₁.2 (fun t x => by simp) fun t => ?_
    rw [hnil]
    simp
  · rw [concat_eq_append] at hlast
    have hback : (tournaments i).getLast? = some back := by rw [hlast, getLast?_concat]
    rw [hback]
    dsimp only
    by_cases hodd : (tournaments i).length % 2 = 1
    · rw [if_pos hodd]
      have hdrop : (tournaments i).drop (2 * ((tournaments i).length / 2)) = [back] := by
        have hbefore : 2 * ((tournaments i).length / 2) = front.length := by
          rw [hlast, length_append, length_singleton] at hodd ⊢
          omega
        rw [hbefore, hlast, drop_left]
      refine hcarried [back] hdrop _ (fun t x => ?_) fun t => ?_
      · rw [mem_push, mem_singleton]
      · rw [length_push, hodd]
    · rw [if_neg hodd]
      refine hcarried [] (drop_eq_nil_of_le (by omega)) s₁.2 (fun t x => by simp) fun t => ?_
      have heven : (tournaments i).length % 2 = 0 := by omega
      rw [heven]
      simp

theorem Level.play_level (hfront : Front eliminations tournaments f) (hfinal : c₀.final_nodes.length = f)
    (hstarts : Starts k tournaments c₀) (hwired : Wired k eliminations c₀ fun t x => x ∈ tournaments t)
    (hfirst : c₀.size ≠ k → First k c₀ fun t x => x ∈ tournaments t) :
    Level k eliminations tournaments c₀ eliminations 0 (play_level eliminations tournaments c₀) := by
  refine for_range_invariant (fun i => Level k eliminations tournaments c₀ i 0) ?_
    fun i hi _ h => h.play_tournament hfront hfinal hwired.leaves_le hstarts hi
  have hwaits : ∀ t x, x ∈ tournaments t ↔ Waits tournaments (fun _ => []) 0 0 t x := by
    intro t x
    unfold Waits unplayed
    rw [if_neg (not_lt_zero t)]
    by_cases ht : t = 0
    · subst ht
      simp
    · simp [ht]
  refine ⟨hwired.congr hwaits, fun t => ?_, rfl, ?_, fun hsize => (hfirst hsize).congr hwaits⟩
  · unfold came
    simp
  · simp

end Step

/-! ## The chances that are left -/

/-- What the players can still lose. -/
def chances (eliminations : Nat) (tournaments : Tournaments) : Nat :=
  ∑ t ∈ Finset.range eliminations, (tournaments t).length * (eliminations - t)

section Front

variable {eliminations f : Nat} {tournaments new_tournaments : Tournaments}

/-- The lists after a level. -/
def Next (eliminations : Nat) (tournaments new_tournaments : Tournaments) : Prop :=
  ∀ t, (new_tournaments t).length =
    if t < eliminations then came eliminations tournaments t + stayed tournaments t else 0

theorem ne_nil_iff {α : Type} {xs : List α} : xs ≠ [] ↔ 0 < xs.length := length_pos_iff.symm

/-- The first tournament that is not over stays the first one, or it ends and the next one is. -/
theorem Front.next (h : Front eliminations tournaments f) (hf : f < eliminations)
    (hnext : Next eliminations tournaments new_tournaments) :
    Front eliminations new_tournaments (if (tournaments f).length = 2 then f + 1 else f) := by
  have htwo := h.two hf
  have hnil : ∀ t, new_tournaments t = [] ↔ (new_tournaments t).length = 0 := fun t => length_eq_zero_iff.symm
  have hends : ∀ t, ends_tournament tournaments t = true ↔ t = f ∧ (tournaments f).length = 2 := fun t => h.ends_iff
  have hzero : ∀ t < f, (tournaments t).length = 0 := fun t ht => by rw [h.before t ht]; rfl
  -- below the first tournament nobody comes and nobody stays
  have hbelow : ∀ t < f, (new_tournaments t).length = 0 := by
    intro t ht
    have hprevious : (tournaments (t - 1)).length = 0 := hzero (t - 1) (by omega)
    rw [hnext, came, stayed, hzero t ht, hprevious]
    split <;> simp
  have hcame : came eliminations tournaments f = 0 := by
    unfold came
    by_cases hf0 : f = 0
    · rw [if_pos (.inl hf0)]
    · have hprevious : (tournaments (f - 1)).length = 0 := hzero (f - 1) (by omega)
      rw [hprevious]
      split
      · rfl
      · split <;> rfl
  have hlength : (new_tournaments f).length = stayed tournaments f := by
    rw [hnext, if_pos hf, hcame, Nat.zero_add]
  -- who plays against others in a tournament that goes on leaves a winner there
  have hwinner : ∀ t < eliminations, ends_tournament tournaments t = false → tournaments t ≠ [] →
      new_tournaments t ≠ [] := by
    intro t ht hgoes hne
    rw [ne_nil_iff] at hne ⊢
    rw [hnext, if_pos ht, stayed, hgoes, if_neg Bool.false_ne_true]
    omega
  have hafter : ∀ t, f ≤ t → ends_tournament tournaments t = false → new_tournaments (t + 1) ≠ [] →
      new_tournaments t ≠ [] := by
    intro t hft hgoes hne
    rw [ne_nil_iff, hnext] at hne
    split at hne
    swap
    · omega
    next ht =>
    have ht' : t < eliminations := by omega
    refine hwinner t ht' hgoes fun hempty => ?_
    have hempty' : (tournaments (t + 1)) = [] := by
      by_contra hne'
      exact h.after t hft hne' hempty
    rw [came, stayed, hempty', Nat.add_sub_cancel, hempty] at hne
    have hzero' : (if t + 1 = 0 ∨ ¬ t + 1 < eliminations then 0
        else if ends_tournament tournaments t then 2 * (([] : List Nat).length / 2) else
          ([] : List Nat).length / 2) = 0 := by
      split
      · rfl
      · split <;> rfl
    rw [hzero'] at hne
    simp at hne
  by_cases hlast : (tournaments f).length = 2
  · rw [if_pos hlast]
    have hend : ends_tournament tournaments f = true := (hends f).mpr ⟨rfl, hlast⟩
    refine ⟨hf, fun t ht => ?_, fun hf' => ?_, fun t ht hne => ?_, fun t ht => ?_⟩
    · rw [hnil]
      rcases Nat.lt_succ_iff_lt_or_eq.mp ht with ht | rfl
      · exact hbelow t ht
      · rw [hlength, stayed, if_pos hend, hlast]
    · rw [hnext, if_pos hf', came, if_neg (by omega), Nat.add_sub_cancel, if_pos hend, hlast]
      omega
    · refine hafter t (by omega) ?_ hne
      rw [Bool.eq_false_iff]
      intro hend'
      have heq := ((hends t).mp hend').1
      omega
    · rw [hnil, hnext, if_neg (by omega)]
  · rw [if_neg hlast]
    have hgoes : ∀ t, ends_tournament tournaments t = false := by
      intro t
      rw [Bool.eq_false_iff]
      exact fun hend => hlast ((hends t).mp hend).2
    refine ⟨h.le, fun t ht => (hnil t).mpr (hbelow t ht), fun _ => ?_, fun t ht hne => hafter t ht (hgoes t) hne,
      fun t ht => ?_⟩
    · rw [hlength, stayed, hgoes f, if_neg Bool.false_ne_true]
      omega
    · rw [hnil, hnext, if_neg (by omega)]

/-- Every match takes a chance, and the end of a tournament one more. -/
theorem chances_next (h : Front eliminations tournaments f)
    (hnext : Next eliminations tournaments new_tournaments) :
    chances eliminations new_tournaments + (∑ t ∈ Finset.range eliminations, (tournaments t).length / 2) +
      (∑ t ∈ Finset.range eliminations,
        if ends_tournament tournaments t then (tournaments t).length / 2 else 0) =
          chances eliminations tournaments := by
  -- who leaves a tournament for the next one
  let goes (t : Nat) : Nat :=
    if ends_tournament tournaments t then 2 * ((tournaments t).length / 2) else (tournaments t).length / 2
  have hcame : (∑ t ∈ Finset.range eliminations, came eliminations tournaments t * (eliminations - t)) =
      ∑ t ∈ Finset.range eliminations, goes t * (eliminations - t - 1) := by
    rcases eliminations with _ | n
    · rfl
    have hfirst : came (n + 1) tournaments 0 = 0 := if_pos (.inl rfl)
    rw [Finset.sum_range_succ', Finset.sum_range_succ, hfirst, Nat.zero_mul, Nat.add_zero, Nat.add_sub_cancel_left,
      Nat.sub_self, Nat.mul_zero, Nat.add_zero]
    refine Finset.sum_congr rfl fun t ht => ?_
    rw [Finset.mem_range] at ht
    have hnext : came (n + 1) tournaments (t + 1) = goes t := if_neg (by omega)
    rw [hnext, Nat.sub_sub]
  have hsplit : chances eliminations new_tournaments =
      (∑ t ∈ Finset.range eliminations, goes t * (eliminations - t - 1)) +
        ∑ t ∈ Finset.range eliminations, stayed tournaments t * (eliminations - t) := by
    rw [← hcame, ← Finset.sum_add_distrib]
    refine Finset.sum_congr rfl fun t ht => ?_
    rw [hnext, if_pos (Finset.mem_range.mp ht), add_mul]
  rw [hsplit, ← Finset.sum_add_distrib, ← Finset.sum_add_distrib, ← Finset.sum_add_distrib]
  refine Finset.sum_congr rfl fun t ht => ?_
  obtain ⟨d, hd⟩ : ∃ d, eliminations - t = d + 1 := ⟨eliminations - t - 1, by rw [Finset.mem_range] at ht; omega⟩
  rw [hd, Nat.add_sub_cancel]
  show (if ends_tournament tournaments t then _ else _) * d + _ + _ + _ = _
  unfold stayed
  cases hends : ends_tournament tournaments t with
  | false =>
    -- the winner keeps the chances, the loser has one less
    have hparity := div_add_mod (tournaments t).length 2
    simp only [Bool.false_eq_true, if_false]
    nlinarith
  | true =>
    obtain ⟨rfl, htwo⟩ := h.ends_iff.mp hends
    simp only [htwo, if_true]
    ring

end Front

/-! ## All levels -/

/-- What holds between the levels; `f` tournaments are over. -/
structure Ready (k eliminations : Nat) (tournaments : Tournaments) (c : Circuit) (f : Nat) : Prop where
  wired : Wired k eliminations c fun t x => x ∈ tournaments t
  front : Front eliminations tournaments f
  final_nodes : c.final_nodes.length = f
  count : c.size + c.final_nodes.length + chances eliminations tournaments = k + k * eliminations
  starts : Starts k tournaments c
  first : c.size ≠ k → First k c fun t x => x ∈ tournaments t

/-- The circuit when the lists are empty. -/
structure Complete (k eliminations : Nat) (c : Circuit) : Prop where
  wired : Wired k eliminations c fun _ _ => False
  size : c.size = k + (k - 1) * eliminations
  final_nodes : c.final_nodes.length = eliminations
  first : First k c fun _ _ => False

section Levels

variable {k eliminations f : Nat} {tournaments : Tournaments} {c : Circuit}

theorem Front.not_empty_iff (h : Front eliminations tournaments f) :
    not_empty eliminations tournaments = true ↔ f < eliminations := by
  unfold not_empty
  rw [any_eq_true]
  constructor
  · rintro ⟨t, ht, hne⟩
    rw [mem_range] at ht
    refine lt_of_le_of_ne h.le ?_
    rintro rfl
    exact of_decide_eq_true hne (h.before t ht)
  · intro hf
    refine ⟨f, mem_range.mpr hf, decide_eq_true ?_⟩
    rw [ne_nil_iff]
    exact lt_of_lt_of_le two_pos (h.two hf)

theorem Level.next {s : Circuit × Tournaments} (h : Level k eliminations tournaments c eliminations 0 s) :
    Next eliminations tournaments s.2 := by
  intro t
  rw [h.lengths]
  by_cases ht : t < eliminations
  · rw [if_pos ht, if_pos ht]
  · rw [if_neg ht, if_neg ht]
    by_cases heq : t = eliminations
    · rw [if_pos heq, came, if_pos (.inr (lt_irrefl _))]
      split <;> rfl
    · rw [if_neg heq, if_neg (by omega)]

/-- A level keeps what holds, and takes chances. -/
theorem Ready.play_level (h : Ready k eliminations tournaments c f) (hf : f < eliminations) :
    ∃ f', Ready k eliminations (play_level eliminations tournaments c).2
      (play_level eliminations tournaments c).1 f' ∧
      chances eliminations (play_level eliminations tournaments c).2 < chances eliminations tournaments := by
  have hlevel := Level.play_level h.front h.final_nodes h.starts h.wired h.first
  generalize Tournament.play_level eliminations tournaments c = s at hlevel
  have hnext := hlevel.next
  have htaken := chances_next h.front hnext
  have hsize := hlevel.size
  have hfinal := hlevel.final_nodes
  have hmatch : (tournaments f).length / 2 ≤ ∑ t ∈ Finset.range eliminations, (tournaments t).length / 2 :=
    Finset.single_le_sum (f := fun t => (tournaments t).length / 2) (fun _ _ => zero_le _) (Finset.mem_range.mpr hf)
  have htwo := h.front.two hf
  -- the last tournament of the list is not in it
  have hover : ends_tournament tournaments eliminations = false := by
    rw [Bool.eq_false_iff]
    intro hends
    have heq := (h.front.ends_iff.mp hends).1
    omega
  rw [hover, if_neg Bool.false_ne_true, Nat.add_zero] at hfinal
  rw [Nat.add_zero] at hsize
  -- the only match of the tournament that ends
  have hended : (∑ t ∈ Finset.range eliminations,
    if ends_tournament tournaments t then (tournaments t).length / 2 else 0) =
      if (tournaments f).length = 2 then 1 else 0 := by
    have hsingle : ∀ t, (if ends_tournament tournaments t then (tournaments t).length / 2 else 0) =
        if t = f then (if (tournaments f).length = 2 then 1 else 0) else 0 := by
      intro t
      by_cases hends : ends_tournament tournaments t = true
      · obtain ⟨rfl, hlength⟩ := h.front.ends_iff.mp hends
        rw [if_pos hends, if_pos rfl, if_pos hlength, hlength]
      · rw [if_neg hends]
        by_cases heq : t = f
        · rw [if_pos heq, if_neg fun hlength => hends (h.front.ends_iff.mpr ⟨heq, hlength⟩)]
        · rw [if_neg heq]
    rw [Finset.sum_congr rfl fun t _ => hsingle t, Finset.sum_ite_eq' (Finset.range eliminations) f,
      if_pos (Finset.mem_range.mpr hf)]
  have hcount := h.count
  have hold := h.final_nodes
  have hlarger : c.size < s.1.size := by omega
  have hleaves := h.wired.leaves_le
  have hwaits : ∀ t x, Waits tournaments s.2 eliminations 0 t x ↔ x ∈ s.2 t := by
    intro t x
    unfold Waits unplayed
    by_cases ht : t < eliminations
    · rw [if_pos ht]
      simp
    · have hempty : tournaments t = [] := h.front.outside t (Nat.le_of_not_lt ht)
      rw [if_neg ht]
      by_cases heq : t = eliminations
      · subst heq
        simp [hempty]
      · simp [heq, hempty]
  refine ⟨_, ⟨hlevel.wired.congr hwaits, h.front.next hf hnext, ?_, ?_, fun hstart => ?_,
    fun hsize => (hlevel.first hsize).congr hwaits⟩, ?_⟩
  · rw [hfinal, hended, hold]
    split <;> rfl
  · omega
  · omega
  · omega

/-- When all tournaments are over the circuit is complete. -/
theorem Ready.complete (h : Ready k eliminations tournaments c eliminations) :
    Complete k eliminations c := by
  have hempty : ∀ t, tournaments t = [] := by
    intro t
    by_cases ht : t < eliminations
    · exact h.front.before t ht
    · exact h.front.outside t (Nat.le_of_not_lt ht)
  have hnobody : ∀ t x, x ∈ tournaments t ↔ False := by
    intro t x
    rw [hempty t]
    exact iff_of_false not_mem_nil id
  have hnone : chances eliminations tournaments = 0 := by
    unfold chances
    refine Finset.sum_eq_zero fun t _ => ?_
    rw [hempty t, length_nil, Nat.zero_mul]
  have hcount := h.count
  have hfinal := h.final_nodes
  -- without a match the labels would still wait
  have hplayed : c.size ≠ k := by
    intro hsize
    have hrange := (h.starts hsize).2
    have htwo := (h.starts hsize).1
    rw [hempty 0] at hrange
    have hlength := congrArg length hrange
    rw [length_range, length_nil] at hlength
    omega
  have hfirst := (h.first hplayed).congr hnobody
  refine ⟨h.wired.congr hnobody, ?_, hfinal, hfirst⟩
  have htwo := hfirst.two
  obtain ⟨m, rfl⟩ : ∃ m, k = m + 1 := ⟨k - 1, by omega⟩
  rw [add_mul, one_mul] at hcount
  rw [Nat.add_sub_cancel]
  omega

/-- The loop over the levels ends, with the circuit complete. -/
theorem Ready.play_levels (h : Ready k eliminations tournaments c f) :
    ∃ c', Complete k eliminations c' ∧
      ∀ fuel, chances eliminations tournaments < fuel → play_levels eliminations fuel tournaments c = some c' := by
  -- by induction on the chances that are left
  induction hn : chances eliminations tournaments using Nat.strong_induction_on generalizing tournaments c f with
  | _ n ih =>
    by_cases hf : f < eliminations
    · obtain ⟨f', hready, hless⟩ := h.play_level hf
      obtain ⟨c', hcomplete, hend⟩ := ih _ (hn ▸ hless) hready rfl
      refine ⟨c', hcomplete, fun fuel hfuel => ?_⟩
      obtain ⟨fuel, rfl⟩ : ∃ fuel', fuel = fuel' + 1 := ⟨fuel - 1, by omega⟩
      unfold play_levels
      rw [if_pos (h.front.not_empty_iff.mpr hf)]
      exact hend fuel (by omega)
    · have hover : f = eliminations := le_antisymm h.front.le (Nat.le_of_not_lt hf)
      refine ⟨c, Ready.complete (hover ▸ h), fun fuel hfuel => ?_⟩
      obtain ⟨fuel, rfl⟩ : ∃ fuel', fuel = fuel' + 1 := ⟨fuel - 1, by omega⟩
      unfold play_levels
      rw [if_neg fun hne => hf (h.front.not_empty_iff.mp hne)]

end Levels

/-- The labels before the first level. -/
theorem ready_leaves {k eliminations : Nat} (hk : 2 ≤ k) (hpositive : 0 < eliminations) :
    Ready k eliminations (update (fun _ => []) 0 (range k)) (leaves k) 0 := by
  have hmem : ∀ t x, x ∈ update (fun _ => []) 0 (range k) t ↔ t = 0 ∧ x < k := by
    intro t x
    by_cases ht : t = 0
    · subst ht
      rw [update_self, mem_range]
      simp
    · rw [update_of_ne ht]
      simp [ht]
  have hleaf : ∀ x < k, (leaves k).directions x = { id := x } := fun x hx => if_pos hx
  have hother : ∀ t, t ≠ 0 → update (fun _ => []) 0 (range k) t = [] := fun t ht => update_of_ne ht _ _
  refine ⟨⟨le_refl k, fun x hx => ?_, fun x hx => ?_, fun x hle hlt => ?_, fun x hx hne => ?_, fun x hx hne => ?_,
    fun x hx _ _ => ?_, fun x hle hlt => ?_, fun t x hwaits => ?_, fun t x => ?_⟩,
    ⟨zero_le _, fun t ht => ?_, fun _ => ?_, fun t _ hne => ?_, fun t ht => ?_⟩, rfl, ?_, fun _ => ⟨hk, ?_⟩,
    fun hsize => absurd rfl hsize⟩
  · rw [hleaf x hx]
    exact ⟨rfl, rfl, rfl⟩
  · rw [hleaf x hx]
    exact hpositive
  · exact absurd hlt (not_lt.mpr hle)
  · rw [hleaf x hx] at hne
    exact absurd rfl hne
  · rw [hleaf x hx] at hne
    exact absurd rfl hne
  · rw [hmem, hleaf x hx]
    exact ⟨rfl, hx⟩
  · exact absurd hlt (not_lt.mpr hle)
  · obtain ⟨rfl, hx⟩ := (hmem t x).mp hwaits
    rw [hleaf x hx]
    exact ⟨hx, hpositive, .inl ⟨rfl, rfl⟩⟩
  · refine iff_of_false (fun hget => nomatch hget) ?_
    rintro ⟨hle, hlt, -⟩
    exact absurd hlt (not_lt.mpr hle)
  · exact absurd ht (not_lt_zero t)
  · rw [update_self, length_range]
    exact hk
  · exact absurd (hother (t + 1) (succ_ne_zero t)) hne
  · exact hother t (by omega)
  · show k + 0 + chances eliminations _ = _
    unfold chances
    obtain ⟨n, rfl⟩ : ∃ n, eliminations = n + 1 := ⟨eliminations - 1, by omega⟩
    rw [Finset.sum_range_succ', Finset.sum_eq_zero fun t _ => by
      rw [hother (t + 1) (succ_ne_zero t), length_nil, Nat.zero_mul],
      update_self, length_range, Nat.zero_add, Nat.sub_zero, Nat.add_zero]
  · rw [update_self]

/-- What `create_circuit` leaves. -/
structure Ect.Built (e : Ect) : Prop where
  complete : Complete e.k (e.errors + 1) e.circuit
  tree_height : e.tree_height = final_depth (e.errors + 1)
  last_pair : e.last_pair = (e.k - 1) * (e.errors + 1)
  feature_width : e.feature_width = e.last_pair + e.errors

/-- `create_circuit` ends, with the circuit complete. -/
theorem create_circuit_built (k errors : Nat) (hk : 2 ≤ k) :
    ∃ e : Ect, e.k = k ∧ e.errors = errors ∧ e.Built ∧ Ends (fun fuel => create_circuit fuel k errors) e := by
  have hready := @ready_leaves k (errors + 1) hk (succ_pos errors)
  obtain ⟨circuit, hcomplete, hend⟩ := hready.play_levels
  refine ⟨⟨k, errors, circuit, final_depth (errors + 1), (k - 1) * (errors + 1), (k - 1) * (errors + 1) + errors⟩,
    rfl, rfl, ⟨hcomplete, rfl, rfl, rfl⟩,
    chances (errors + 1) (update (fun _ => []) 0 (range k)) + 1, fun fuel hfuel => ?_⟩
  have hmany : k ≠ 1 := by omega
  unfold create_circuit
  simp only [if_neg hmany]
  rw [hend fuel hfuel]
  rfl

end VW.Tournament
