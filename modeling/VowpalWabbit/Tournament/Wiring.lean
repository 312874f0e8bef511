import VowpalWabbit.Tournament.Circuit

/-! # How the matches are wired

    Every link goes to a later match in which the node is a player. A node without a link
    waits in the list of its tournament, or of the one that it loses into, so that all links
    are there when the lists are empty.
-/

open Cpp

namespace VW.Tournament

open List Nat Direction

/-- A link from a node to a match of tournament `t`. -/
structure Link (k : Nat) (c : Circuit) (x link t : Nat) : Prop where
  later : x < link
  match_ : k ≤ link
  exists_ : link < c.size
  player : (c.directions link).left = x ∨ (c.directions link).right = x
  tournament : (c.directions link).tournament = t

/-- The tournament that the winner of a node goes on in. -/
def Direction.next (d : Direction) : Nat := if d.last then d.tournament + 1 else d.tournament

/-- What holds of a circuit of which some nodes wait in the lists of tournaments. -/
structure Wired (k eliminations : Nat) (c : Circuit) (waits : Nat → Nat → Prop) : Prop where
  leaves_le : k ≤ c.size
  leaf : ∀ x < k, (c.directions x).tournament = 0 ∧ (c.directions x).last = false ∧ (c.directions x).loser = 0
  tournament_lt : ∀ x < c.size, (c.directions x).tournament < eliminations
  children : ∀ x, k ≤ x → x < c.size → (c.directions x).left < x ∧ (c.directions x).right < x
  winner : ∀ x < c.size, (c.directions x).winner ≠ 0 → Link k c x (c.directions x).winner (c.directions x).next
  loser : ∀ x < c.size, (c.directions x).loser ≠ 0 →
    Link k c x (c.directions x).loser ((c.directions x).tournament + 1)
  waits_to_win : ∀ x < c.size, (c.directions x).last = false → (c.directions x).winner = 0 →
    waits (c.directions x).tournament x
  waits_to_lose : ∀ x, k ≤ x → x < c.size → (c.directions x).tournament + 1 < eliminations →
    (c.directions x).loser = 0 → waits ((c.directions x).tournament + 1) x
  waiting : ∀ i x, waits i x → x < c.size ∧ i < eliminations ∧
    (((c.directions x).tournament = i ∧ (c.directions x).last = false) ∨
      (k ≤ x ∧ (c.directions x).tournament + 1 = i))
  final_nodes : ∀ t x, c.final_nodes[t]? = some x ↔
    k ≤ x ∧ x < c.size ∧ (c.directions x).last = true ∧ (c.directions x).tournament = t

/-- The first match is that of the first two labels, which do not wait afterwards. -/
structure First (k : Nat) (c : Circuit) (waits : Nat → Nat → Prop) : Prop where
  two : 2 ≤ k
  left : (c.directions k).left = 0
  right : (c.directions k).right = 1
  tournament : (c.directions k).tournament = 0
  winner : ∀ x < 2, (c.directions x).winner = k
  not_waiting : ∀ x < 2, ¬ waits 0 x

/-- What a match does to the lists: the players leave, the node of the match is added. -/
structure Played (eliminations i left right node : Nat) (ends : Bool) (waits waits' : Nat → Nat → Prop) : Prop where
  left_waits : waits i left
  right_waits : waits i right
  only : ∀ t x, waits' t x → waits t x ∨
    (x = node ∧ ((t = i ∧ ends = false) ∨ (t = i + 1 ∧ i + 1 < eliminations)))
  keeps : ∀ t x, waits t x → waits' t x ∨ (t = i ∧ (x = left ∨ x = right))
  winner : ends = false → waits' i node
  loser : i + 1 < eliminations → waits' (i + 1) node

theorem getElem?_concat_eq_some {α : Type} {l : List α} {a x : α} {t : Nat} :
    (l ++ [a])[t]? = some x ↔ l[t]? = some x ∨ (t = l.length ∧ x = a) := by
  rcases lt_trichotomy t l.length with ht | rfl | ht
  · rw [getElem?_append_left ht]
    exact ⟨.inl, fun hx => hx.resolve_right fun hlast => absurd hlast.1 (Nat.ne_of_lt ht)⟩
  · simp [eq_comm]
  · rw [getElem?_eq_none (by rw [length_append]; exact ht), getElem?_eq_none (le_of_lt ht)]
    simp [ne_of_gt ht]

section Match

variable {k eliminations i left right : Nat} {ends : Bool} {c : Circuit} {waits waits' : Nat → Nat → Prop}

theorem Link.add_match {x link t : Nat} (h : Link k c x link t) (hleft : left < c.size) (hright : right < c.size) :
    Link k (c.add_match eliminations i left right ends) x link t := by
  have hne : link ≠ c.size := Nat.ne_of_lt h.exists_
  refine { h with exists_ := lt_succ_of_lt h.exists_, player := ?_, tournament := ?_ }
  · rw [add_match_directions hleft hright, if_neg hne]
    exact h.player
  · rw [add_match_directions hleft hright, if_neg hne]
    exact h.tournament

/-! What a match does, one lemma for each field. -/

section Fields

variable {x : Nat} (h : Wired k eliminations c waits)
  (hplayed : Played eliminations i left right c.size ends waits waits')

include h hplayed

/-- A player waits in the list of the tournament, or of the one that it loses into. -/
theorem Wired.player (hx : x = left ∨ x = right) : x < c.size ∧ i < eliminations ∧
    (((c.directions x).tournament = i ∧ (c.directions x).last = false) ∨
      (k ≤ x ∧ (c.directions x).tournament + 1 = i)) := by
  rcases hx with rfl | rfl
  · exact h.waiting i _ hplayed.left_waits
  · exact h.waiting i _ hplayed.right_waits

theorem Wired.player_not_last (hx : x = left ∨ x = right) (ht : (c.directions x).tournament = i) :
    (c.directions x).last = false := by
  rcases (h.player hplayed hx).2.2 with ⟨-, hnot⟩ | ⟨-, hnext⟩
  · exact hnot
  · omega

theorem Wired.player_lower (hx : x = left ∨ x = right) (ht : (c.directions x).tournament ≠ i) :
    k ≤ x ∧ (c.directions x).tournament + 1 = i :=
  (h.player hplayed hx).2.2.resolve_left fun hrole => ht hrole.1

theorem Wired.directions_new : (c.add_match eliminations i left right ends).directions c.size =
    { id := c.size, tournament := i, left := left, right := right, last := ends } := by
  rw [add_match_directions (h.player hplayed (.inl rfl)).1 (h.player hplayed (.inr rfl)).1, if_pos rfl]

theorem Wired.directions_old (hx : x < c.size) :
    (c.add_match eliminations i left right ends).directions x =
      (c.directions x).enters x left right i c.size := by
  rw [add_match_directions (h.player hplayed (.inl rfl)).1 (h.player hplayed (.inr rfl)).1,
    if_neg (Nat.ne_of_lt hx)]

/-- A property of all nodes. -/
theorem Wired.forall_add_match {P : Nat → Direction → Prop}
    (hold : ∀ x < c.size, P x ((c.directions x).enters x left right i c.size))
    (hnew : P c.size { id := c.size, tournament := i, left := left, right := right, last := ends })
    (x : Nat) (hx : x < c.size + 1) :
    P x ((c.add_match eliminations i left right ends).directions x) := by
  rcases Nat.lt_succ_iff_lt_or_eq.mp hx with hx | rfl
  · rw [h.directions_old hplayed hx]
    exact hold x hx
  · rw [h.directions_new hplayed]
    exact hnew

/-- The new link of a player. -/
theorem Wired.link (hx : x = left ∨ x = right) :
    Link k (c.add_match eliminations i left right ends) x c.size i := by
  refine ⟨(h.player hplayed hx).1, h.leaves_le, lt_succ_self _, ?_, ?_⟩
  · rw [h.directions_new hplayed]
    exact hx.imp Eq.symm Eq.symm
  · rw [h.directions_new hplayed]

theorem Wired.old_link {link t : Nat} (hlink : Link k c x link t) :
    Link k (c.add_match eliminations i left right ends) x link t :=
  hlink.add_match (h.player hplayed (.inl rfl)).1 (h.player hplayed (.inr rfl)).1

theorem Wired.leaf_add_match (hx : x < k) :
    ((c.add_match eliminations i left right ends).directions x).tournament = 0 ∧
    ((c.add_match eliminations i left right ends).directions x).last = false ∧
    ((c.add_match eliminations i left right ends).directions x).loser = 0 := by
  obtain ⟨ht, hlast, hloser⟩ := h.leaf x hx
  rw [h.directions_old hplayed (lt_of_lt_of_le hx h.leaves_le)]
  refine ⟨ht, hlast, ?_⟩
  unfold enters
  dsimp only
  rw [if_neg, hloser]
  rintro ⟨hplayer, hne⟩
  exact absurd hx (not_lt.mpr (h.player_lower hplayed hplayer hne).1)

theorem Wired.winner_add_match {x : Nat} (hx : x < c.size)
    (hne : ((c.directions x).enters x left right i c.size).winner ≠ 0) :
    Link k (c.add_match eliminations i left right ends) x
      ((c.directions x).enters x left right i c.size).winner (c.directions x).next := by
  unfold enters at hne ⊢
  dsimp only at hne ⊢
  split
  · next henters =>
    rcases henters with ⟨hplayer, ht⟩ | ⟨rfl, hlast⟩
    · rw [Direction.next, h.player_not_last hplayed hplayer ht, ht]
      exact h.link hplayed hplayer
    · -- the winner of a tournament goes on in the next one
      have ht : (c.directions x).tournament ≠ i := by
        intro ht
        rw [h.player_not_last hplayed (.inl rfl) ht] at hlast
        cases hlast
      rw [Direction.next, if_pos hlast, (h.player_lower hplayed (.inl rfl) ht).2]
      exact h.link hplayed (.inl rfl)
  · next henters =>
    rw [if_neg henters] at hne
    exact h.old_link hplayed (h.winner x hx hne)

theorem Wired.loser_add_match {x : Nat} (hx : x < c.size)
    (hne : ((c.directions x).enters x left right i c.size).loser ≠ 0) :
    Link k (c.add_match eliminations i left right ends) x
      ((c.directions x).enters x left right i c.size).loser ((c.directions x).tournament + 1) := by
  unfold enters at hne ⊢
  dsimp only at hne ⊢
  split
  · next henters =>
    rw [(h.player_lower hplayed henters.1 henters.2).2]
    exact h.link hplayed henters.1
  · next henters =>
    rw [if_neg henters] at hne
    exact h.old_link hplayed (h.loser x hx hne)

/-- A node without a link did not play, so that it still waits. -/
theorem Wired.waits_to_win_add_match {x : Nat} (hx : x < c.size) (hlast : (c.directions x).last = false)
    (hzero : ((c.directions x).enters x left right i c.size).winner = 0) :
    waits' (c.directions x).tournament x := by
  unfold enters at hzero
  dsimp only at hzero
  split at hzero
  · exact absurd hzero (ne_of_gt (zero_lt_of_lt hx))
  · next henters =>
    rcases hplayed.keeps _ x (h.waits_to_win x hx hlast hzero) with hwaits | ⟨ht, hplayer⟩
    · exact hwaits
    · exact absurd (.inl ⟨hplayer, ht⟩) henters

theorem Wired.waits_to_lose_add_match {x : Nat} (hk : k ≤ x) (hx : x < c.size)
    (ht : (c.directions x).tournament + 1 < eliminations)
    (hzero : ((c.directions x).enters x left right i c.size).loser = 0) :
    waits' ((c.directions x).tournament + 1) x := by
  unfold enters at hzero
  dsimp only at hzero
  split at hzero
  · exact absurd hzero (ne_of_gt (zero_lt_of_lt hx))
  · next henters =>
    rcases hplayed.keeps _ x (h.waits_to_lose x hk hx ht hzero) with hwaits | ⟨heq, hplayer⟩
    · exact hwaits
    · exact absurd ⟨hplayer, by omega⟩ henters

theorem Wired.waiting_add_match {t : Nat} (hwaits : waits' t x) : x < c.size + 1 ∧ t < eliminations ∧
    ((((c.add_match eliminations i left right ends).directions x).tournament = t ∧
        ((c.add_match eliminations i left right ends).directions x).last = false) ∨
      (k ≤ x ∧ ((c.add_match eliminations i left right ends).directions x).tournament + 1 = t)) := by
  rcases hplayed.only t x hwaits with hwaits | ⟨rfl, hrole⟩
  · obtain ⟨hx, ht, hrole⟩ := h.waiting t x hwaits
    rw [h.directions_old hplayed hx]
    exact ⟨lt_succ_of_lt hx, ht, hrole⟩
  · rw [h.directions_new hplayed]
    rcases hrole with ⟨rfl, hnot⟩ | ⟨rfl, ht⟩
    · exact ⟨lt_succ_self _, (h.player hplayed (.inl rfl)).2.1, .inl ⟨rfl, hnot⟩⟩
    · exact ⟨lt_succ_self _, ht, .inr ⟨h.leaves_le, rfl⟩⟩

theorem Wired.final_nodes_add_match (hends : ends = true → c.final_nodes.length = i) (t x : Nat) :
    (c.add_match eliminations i left right ends).final_nodes[t]? = some x ↔ k ≤ x ∧ x < c.size + 1 ∧
      ((c.add_match eliminations i left right ends).directions x).last = true ∧
      ((c.add_match eliminations i left right ends).directions x).tournament = t := by
  have hnodes : (c.add_match eliminations i left right ends).final_nodes[t]? = some x ↔
      c.final_nodes[t]? = some x ∨ (ends = true ∧ t = i ∧ x = c.size) := by
    rw [add_match_final_nodes]
    cases ends with
    | false => simp
    | true =>
      rw [if_pos rfl, getElem?_concat_eq_some, hends rfl]
      simp
  rw [hnodes, h.final_nodes t x]
  constructor
  · rintro (⟨hk, hx, hrest⟩ | ⟨rfl, rfl, rfl⟩)
    · rw [h.directions_old hplayed hx]
      exact ⟨hk, lt_succ_of_lt hx, hrest⟩
    · rw [h.directions_new hplayed]
      exact ⟨h.leaves_le, lt_succ_self _, rfl, rfl⟩
  · rintro ⟨hk, hx, hrest⟩
    rcases Nat.lt_succ_iff_lt_or_eq.mp hx with hx | rfl
    · rw [h.directions_old hplayed hx] at hrest
      exact .inl ⟨hk, hx, hrest⟩
    · rw [h.directions_new hplayed] at hrest
      exact .inr ⟨hrest.1, hrest.2.symm, rfl⟩

end Fields

theorem Wired.add_match (h : Wired k eliminations c waits)
    (hplayed : Played eliminations i left right c.size ends waits waits')
    (hends : ends = true → c.final_nodes.length = i) :
    Wired k eliminations (c.add_match eliminations i left right ends) waits' where
  leaves_le := le_succ_of_le h.leaves_le
  leaf _ hx := h.leaf_add_match hplayed hx
  tournament_lt := h.forall_add_match hplayed (P := fun _ d => d.tournament < eliminations)
    h.tournament_lt (h.player hplayed (.inl rfl)).2.1
  children x hk hx := h.forall_add_match hplayed (P := fun x d => k ≤ x → d.left < x ∧ d.right < x)
    (fun x hx hk => h.children x hk hx)
    (fun _ => ⟨(h.player hplayed (.inl rfl)).1, (h.player hplayed (.inr rfl)).1⟩) x hx hk
  winner := h.forall_add_match hplayed
    (P := fun x d => d.winner ≠ 0 → Link k (c.add_match eliminations i left right ends) x d.winner d.next)
    (fun _ => h.winner_add_match hplayed) fun hne => absurd rfl hne
  loser := h.forall_add_match hplayed
    (P := fun x d => d.loser ≠ 0 →
      Link k (c.add_match eliminations i left right ends) x d.loser (d.tournament + 1))
    (fun _ => h.loser_add_match hplayed) fun hne => absurd rfl hne
  waits_to_win := h.forall_add_match hplayed
    (P := fun x d => d.last = false → d.winner = 0 → waits' d.tournament x)
    (fun _ => h.waits_to_win_add_match hplayed) fun hlast _ => hplayed.winner hlast
  waits_to_lose x hk hx := h.forall_add_match hplayed
    (P := fun x d => k ≤ x → d.tournament + 1 < eliminations → d.loser = 0 → waits' (d.tournament + 1) x)
    (fun _ hx hk => h.waits_to_lose_add_match hplayed hk hx) (fun _ ht _ => hplayed.loser ht) x hx hk
  waiting _ _ hwaits := h.waiting_add_match hplayed hwaits
  final_nodes := h.final_nodes_add_match hplayed hends

/-- The first match stays the first one. -/
theorem First.add_match (h : First k c waits) (hwired : Wired k eliminations c waits) (hsize : k < c.size)
    (hplayed : Played eliminations i left right c.size ends waits waits') :
    First k (c.add_match eliminations i left right ends) waits' := by
  have hold : ∀ x, x < c.size → (c.add_match eliminations i left right ends).directions x =
      (c.directions x).enters x left right i c.size := fun _ => hwired.directions_old hplayed
  -- the first two labels play no more
  have hplayer : ∀ x < 2, ∀ t, ¬ waits t x := by
    intro x hx t hwaits
    have hk : x < k := lt_of_lt_of_le hx h.two
    rcases (hwired.waiting t x hwaits).2.2 with ⟨ht, -⟩ | ⟨hle, -⟩
    · rw [(hwired.leaf x hk).1] at ht
      exact h.not_waiting x hx (ht ▸ hwaits)
    · omega
  refine ⟨h.two, ?_, ?_, ?_, fun x hx => ?_, fun x hx hwaits => ?_⟩
  · rw [hold k hsize]
    exact h.left
  · rw [hold k hsize]
    exact h.right
  · rw [hold k hsize]
    exact h.tournament
  · have hnot_left : x ≠ left := fun heq => hplayer x hx i (heq ▸ hplayed.left_waits)
    have hnot_right : x ≠ right := fun heq => hplayer x hx i (heq ▸ hplayed.right_waits)
    have hlt : x < c.size := lt_of_lt_of_le hx (le_trans h.two hwired.leaves_le)
    rw [hold x hlt]
    show (if _ then c.size else (c.directions x).winner) = k
    rw [if_neg (by tauto)]
    exact h.winner x hx
  · rcases hplayed.only 0 x hwaits with hwaits | ⟨rfl, -⟩
    · exact h.not_waiting x hx hwaits
    · have htwo := h.two
      omega

end Match

end VW.Tournament
