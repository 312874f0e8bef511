import Mathlib.Data.List.Sections
import Mathlib.Tactic

/-! # Tuples of nested loops

    One loop for each of several places; a tuple has one element for each place.
    A place can be the same as the one before it, and its loop then starts where
    the loop of that one stands, so that of the tuples that differ only in the
    order of elements of the same place one is left.

    The loops are written over the rests of lists instead of positions.
-/

namespace Tuples

open List List.Perm

variable {α β T : Type}

/-- The elements of a list, each with the rest of the list that it begins. -/
def heads : List α → List (α × List α)
  | [] => []
  | a :: l => (a, a :: l) :: heads l

@[simp] theorem heads_cons (a : α) (l : List α) : heads (a :: l) = (a, a :: l) :: heads l := rfl

theorem heads_append (l m : List α) :
    heads (l ++ m) = (heads l).map (fun h => (h.1, h.2 ++ m)) ++ heads m := by
  induction l with
  | nil => rfl
  | cons a l ih => simp [ih]

theorem heads_map (f : α → β) (l : List α) :
    heads (l.map f) = (heads l).map fun h => (f h.1, h.2.map f) := by
  induction l with
  | nil => rfl
  | cons a l ih => simp [ih]

@[simp] theorem map_fst_heads (l : List α) : (heads l).map Prod.fst = l := by
  induction l with
  | nil => rfl
  | cons a l ih => simp [ih]

theorem map_heads_fst (f : α → β) (l : List α) : ((heads l).map fun h => f h.1) = l.map f := by
  rw [← Function.comp_def f Prod.fst, ← map_map, map_fst_heads]

variable {l : List α} {h : α × List α}

theorem suffix_of_mem_heads (hmem : h ∈ heads l) : h.2 <:+ l := by
  induction l with
  | nil => exact absurd hmem not_mem_nil
  | cons a l ih =>
    rcases mem_cons.mp hmem with rfl | hmem
    · exact suffix_rfl
    · exact (ih hmem).trans (suffix_cons a l)

theorem ne_nil_of_mem_heads (hmem : h ∈ heads l) : h.2 ≠ [] := by
  induction l with
  | nil => exact absurd hmem not_mem_nil
  | cons a l ih =>
    rcases mem_cons.mp hmem with rfl | hmem
    · exact cons_ne_nil a l
    · exact ih hmem

/-- The elements with the rests they begin, by position. -/
theorem heads_eq_zipIdx (l : List α) (start : Nat) :
    heads (l.drop start) = (l.zipIdx.drop start).map fun f => (f.1, l.drop f.2) := by
  induction hn : l.length - start generalizing start with
  | zero =>
    rw [drop_of_length_le (by omega), drop_of_length_le (by simp; omega)]
    rfl
  | succ n ih =>
    have hlt : start < l.length := by omega
    rw [drop_eq_getElem_cons hlt, drop_eq_getElem_cons (i := start) (by simpa using hlt),
      heads_cons, ih (start + 1) (by omega)]
    simp [← drop_eq_getElem_cons hlt]

variable {ts : List T} {items' : T → List α} {t : T}

section Loops

variable (same : T → T → Bool) (items : T → List α)

/-- The tuples whose first element, for the place `t`, is taken from `l`. -/
def tuples_from : List α → T → List T → List (List α)
  | l, _, [] => l.map fun a => [a]
  | l, t, t' :: ts => (heads l).flatMap fun h =>
      (tuples_from (if same t t' then h.2 else items t') t' ts).map (h.1 :: ·)

def tuples : List T → List (List α)
  | [] => [[]]
  | t :: ts => tuples_from same items (items t) t ts

@[simp] theorem tuples_from_nil (t : T) (ts : List T) : tuples_from same items [] t ts = [] := by
  cases ts <;> rfl

theorem tuples_from_cons_cons (a : α) (l : List α) (t t' : T) (ts : List T) :
    tuples_from same items (a :: l) t (t' :: ts) =
      (tuples_from same items (if same t t' then a :: l else items t') t' ts).map (a :: ·) ++
        tuples_from same items l t (t' :: ts) := rfl

/-- The loop over `l ++ m` first goes through `l`. -/
theorem tuples_from_append (l m : List α) (t t' : T) (ts : List T) :
    tuples_from same items (l ++ m) t (t' :: ts) =
      ((heads l).flatMap fun h => (tuples_from same items
        (if same t t' then h.2 ++ m else items t') t' ts).map (h.1 :: ·)) ++
        tuples_from same items m t (t' :: ts) := by
  simp only [tuples_from, heads_append, flatMap_append, flatMap_map]

/-- Loops over places that agree. -/
theorem tuples_from_congr {same' : T → T → Bool} (ts : List T) :
    ∀ (l : List α) (t : T), (∀ a ∈ t :: ts, ∀ b ∈ ts, same a b = same' a b) →
      (∀ b ∈ ts, items b = items' b) →
      tuples_from same items l t ts = tuples_from same' items' l t ts := by
  induction ts with
  | nil => exact fun l t _ _ => rfl
  | cons t' ts ih =>
    intro l t hsame hitems
    have hih (s : List α) : tuples_from same items s t' ts = tuples_from same' items' s t' ts :=
      ih s t' (fun a ha b hb => hsame a (mem_cons_of_mem t ha) b (mem_cons_of_mem t' hb))
        fun b hb => hitems b (mem_cons_of_mem t' hb)
    simp only [tuples_from, hih, hsame t mem_cons_self t' mem_cons_self,
      hitems t' mem_cons_self]

/-- Places that stand for others. -/
theorem tuples_from_places {S : Type} (g : S → T) (ts : List S) : ∀ (l : List α) (t : S),
    tuples_from same items l (g t) (ts.map g) =
      tuples_from (fun a b => same (g a) (g b)) (fun a => items (g a)) l t ts := by
  induction ts with
  | nil => exact fun l t => rfl
  | cons t' ts ih =>
    intro l t
    simp only [map_cons, tuples_from, ih]

/-- Elements that stand for others. -/
theorem tuples_from_map (f : α → β) (ts : List T) : ∀ (l : List α) (t : T),
    tuples_from same (fun t => (items t).map f) (l.map f) t ts =
      (tuples_from same items l t ts).map (map f) := by
  induction ts with
  | nil =>
    intro l t
    simp [tuples_from]
  | cons t' ts ih =>
    intro l t
    have hstart (h : α × List α) : (if same t t' then h.2.map f else (items t').map f) =
        (if same t t' then h.2 else items t').map f := by split <;> rfl
    simp only [tuples_from, heads_map, flatMap_map, map_flatMap, map_map, hstart, ih]
    rfl

variable {same items} in
/-- The elements of a tuple are elements of the places. -/
theorem mem_items_of_mem_tuples_from (hsame : ∀ a b, same a b = true → a = b) :
    ∀ {l : List α} {t : T} {x : List α}, l <:+ items t → x ∈ tuples_from same items l t ts →
      ∀ a ∈ x, ∃ t' ∈ t :: ts, a ∈ items t' := by
  induction ts with
  | nil =>
    intro l t x hsuf hx a ha
    obtain ⟨b, hb, rfl⟩ := mem_map.mp hx
    obtain rfl : a = b := by simpa using ha
    exact ⟨t, mem_cons_self, hsuf.subset hb⟩
  | cons t' ts ih =>
    intro l t x hsuf hx a ha
    obtain ⟨h, hh, hx⟩ := mem_flatMap.mp hx
    obtain ⟨y, hy, rfl⟩ := mem_map.mp hx
    rcases mem_cons.mp ha with rfl | ha
    · have hmem := mem_map_of_mem (f := Prod.fst) hh
      rw [map_fst_heads] at hmem
      exact ⟨t, mem_cons_self, hsuf.subset hmem⟩
    · have hstart : (if same t t' then h.2 else items t') <:+ items t' := by
        split
        case isTrue heq => exact hsame t t' heq ▸ (suffix_of_mem_heads hh).trans hsuf
        case isFalse => exact suffix_rfl
      obtain ⟨t'', ht'', hmem⟩ := ih hstart hy a ha
      exact ⟨t'', mem_cons_of_mem t ht'', hmem⟩

/-- A place without elements leaves no tuples. -/
theorem tuples_from_eq_nil (hsame : ∀ a b, same a b = true → a = b) (ts : List T) :
    ∀ (l : List α) (t : T), l <:+ items t → (∃ a ∈ ts, items a = []) →
      tuples_from same items l t ts = [] := by
  induction ts with
  | nil =>
    intro l t _ hempty
    obtain ⟨a, ha, -⟩ := hempty
    exact absurd ha not_mem_nil
  | cons t' ts ih =>
    intro l t hsuf hempty
    refine flatMap_eq_nil_iff.mpr fun h hh => map_eq_nil_iff.mpr ?_
    have hstart : (if same t t' then h.2 else items t') <:+ items t' := by
      split
      case isTrue heq => exact hsame t t' heq ▸ (suffix_of_mem_heads hh).trans hsuf
      case isFalse => exact suffix_rfl
    obtain ⟨a, ha, hnil⟩ := hempty
    rcases mem_cons.mp ha with rfl | ha
    · rw [hnil, suffix_nil] at hstart
      rw [hnil, hstart, tuples_from_nil]
    · exact ih _ t' hstart ⟨a, ha, hnil⟩

theorem tuples_eq_nil (hsame : ∀ a b, same a b = true → a = b) (hempty : ∃ a ∈ ts, items a = []) :
    tuples same items ts = [] := by
  cases ts with
  | nil =>
    obtain ⟨a, ha, -⟩ := hempty
    exact absurd ha not_mem_nil
  | cons t ts =>
    obtain ⟨a, ha, hnil⟩ := hempty
    rcases mem_cons.mp ha with rfl | ha
    · rw [tuples, hnil, tuples_from_nil]
    · exact tuples_from_eq_nil same items hsame ts _ t suffix_rfl ⟨a, ha, hnil⟩

theorem length_of_mem_tuples_from {x : List α} (h : x ∈ tuples_from same items l t ts) :
    x.length = ts.length + 1 := by
  induction ts generalizing l t x with
  | nil =>
    obtain ⟨a, -, rfl⟩ := mem_map.mp h
    rfl
  | cons t' ts ih =>
    obtain ⟨a, -, ha⟩ := mem_flatMap.mp h
    obtain ⟨y, hy, rfl⟩ := mem_map.mp ha
    rw [length_cons, ih hy, length_cons]

end Loops

theorem flatMap_comm {γ : Type} (l : List α) (m : List β) (f : α → β → List γ) :
    (l.flatMap fun a => m.flatMap (f a)).Perm (m.flatMap fun b => l.flatMap fun a => f a b) := by
  induction l with
  | nil => simp
  | cons a l ih =>
    simp only [flatMap_cons]
    exact (append_left _ ih).trans (flatMap_append_perm m _ _)

/-! ## Places in parts

    The elements of each place come in parts. Choosing the parts first, and then
    the elements of the chosen parts, gives the same tuples.
-/

section Parts

variable {R : Type} (same : R → R → Bool) (items : R → List α) (parts : T → List R)

/-- The tuples of elements of chosen parts; the loop over the first part starts
    with `start`. -/
def chosen_tuples (start : R → List α) : List R → List (List α)
  | [] => []
  | e :: c => tuples_from same items (start e) e c

/-- What belongs to a place. -/
def place_items (t : T) : List α := (parts t).flatMap items

/-- Parts of one place differ, and the loops over two parts in a row are the
    same exactly if the parts are. -/
structure Separated (ts : List T) : Prop where
  nodup : ∀ t ∈ ts, (parts t).Nodup
  same_iff : ∀ t ∈ ts, ∀ t' ∈ ts, ∀ e ∈ parts t, ∀ e' ∈ parts t',
    same e e' = true ↔ t = t' ∧ e = e'

variable {same items parts}

theorem Separated.tail (h : Separated same parts (t :: ts)) : Separated same parts ts :=
  ⟨fun a ha => h.nodup a (mem_cons_of_mem t ha), fun a ha b hb =>
    h.same_iff a (mem_cons_of_mem t ha) b (mem_cons_of_mem t hb)⟩

theorem chosen_tuples_congr {f g : R → List α} {c : List R} (h : ∀ e ∈ c.head?, f e = g e) :
    chosen_tuples same items f c = chosen_tuples same items g c := by
  cases c with
  | nil => rfl
  | cons e c => rw [chosen_tuples, chosen_tuples, h e rfl]

theorem head_of_mem_tuples_from {same : T → T → Bool} {items : T → List α} {x : List α}
    (h : x ∈ tuples_from same items l t ts) : ∀ a ∈ x.head?, a ∈ l := by
  intro a ha
  cases ts with
  | nil =>
    obtain ⟨b, hb, rfl⟩ := mem_map.mp h
    obtain rfl : b = a := by simpa using ha
    exact hb
  | cons t' ts =>
    obtain ⟨b, hb, hx⟩ := mem_flatMap.mp h
    obtain ⟨y, -, rfl⟩ := mem_map.mp hx
    obtain rfl : b.1 = a := by simpa using ha
    have hmem := mem_map_of_mem (f := Prod.fst) hb
    rwa [map_fst_heads] at hmem

/-- The loop over a part, around the loops over the parts chosen after it. -/
theorem tuples_from_eq_chosen (l : List α) (e : R) {c : List R} (hc : c ≠ []) :
    tuples_from same items l e c = (heads l).flatMap fun h => (chosen_tuples same items
      (fun e' => if same e e' then h.2 else items e') c).map (h.1 :: ·) := by
  cases c with
  | nil => exact absurd rfl hc
  | cons e' c => rfl

theorem not_mem_of_sublist {e : R} {E : List R} (hsep : Separated same parts (t :: ts))
    (hsub : (e :: E).Sublist (parts t)) : e ∉ E :=
  (nodup_cons.mp ((hsep.nodup t mem_cons_self).sublist hsub)).1

variable [DecidableEq T]

theorem flatMap_chosen_tuples (l : List α) (e : R) (S : List R) (t : T) (ts : List T) :
    ((tuples_from (fun a b => decide (a = b)) parts S t ts).flatMap fun c =>
      tuples_from same items l e c).Perm
    ((heads l).flatMap fun h => ((tuples_from (fun a b => decide (a = b)) parts S t ts).flatMap
      (chosen_tuples same items fun e' => if same e e' then h.2 else items e')).map (h.1 :: ·)) := by
  have hne (c : List R) (hc : c ∈ tuples_from (fun a b => decide (a = b)) parts S t ts) : c ≠ [] := by
    intro h
    have hlen := length_of_mem_tuples_from _ _ hc
    rw [h] at hlen
    exact absurd hlen (Nat.zero_ne_add_one _)
  rw [flatMap_congr fun c hc => tuples_from_eq_chosen l e (hne c hc)]
  simp only [map_flatMap]
  exact flatMap_comm _ _ _

variable [DecidableEq R]

variable (same items parts) in
/-- The tuples that begin in the part `e`, from the rest `l` of it on, or in a
    later part of the place `t`: the parts are chosen first on the left side. -/
def PartsAgree (t : T) (ts : List T) (e : R) (E : List R) (l : List α) : Prop :=
  ((tuples_from (fun a b => decide (a = b)) parts (e :: E) t ts).flatMap
    (chosen_tuples same items fun e' => if e' = e then l else items e')).Perm
  (tuples_from (fun a b => decide (a = b)) (place_items items parts) (l ++ E.flatMap items) t ts)

/-- The parts chosen for the places after `t`, inside the loop over the part `e`. -/
theorem parts_agree_inner {t' : T} {e : R} {E : List R}
    (ih : ∀ e E l, (e :: E).Sublist (parts t') → PartsAgree same items parts t' ts e E l)
    (hsep : Separated same parts (t :: t' :: ts)) (hsub : (e :: E).Sublist (parts t)) (s : List α) :
    ((tuples_from (fun a b => decide (a = b)) parts (if t = t' then e :: E else parts t') t' ts).flatMap
      (chosen_tuples same items fun e' => if same e e' then s else items e')).Perm
    (tuples_from (fun a b => decide (a = b)) (place_items items parts)
      (if t = t' then s ++ E.flatMap items else place_items items parts t') t' ts) := by
  have he : e ∈ parts t := hsub.subset mem_cons_self
  by_cases htt : t = t'
  · subst htt
    simp only [if_true]
    refine (of_eq ?_).trans (ih e E s hsub)
    refine flatMap_congr fun c hc => chosen_tuples_congr fun e' he' => ?_
    have hmem := hsub.subset (head_of_mem_tuples_from hc e' he')
    have hiff := hsep.same_iff t mem_cons_self t mem_cons_self e he e' hmem
    simp only [hiff, true_and, eq_comm]
  · simp only [htt, if_false]
    -- A loop over a part of another place starts at its first element.
    have hother (c : List R)
        (hc : c ∈ tuples_from (fun a b => decide (a = b)) parts (parts t') t' ts) :
        chosen_tuples same items (fun e' => if same e e' then s else items e') c =
          chosen_tuples same items items c := by
      refine chosen_tuples_congr fun e' he' => ?_
      have hiff := hsep.same_iff t mem_cons_self t' (by simp) e he e'
        (head_of_mem_tuples_from hc e' he')
      rw [if_neg]
      intro hs
      exact htt (hiff.mp hs).1
    rw [flatMap_congr hother]
    cases hparts : parts t' with
    | nil => simp [place_items, hparts]
    | cons e₂ E₂ =>
      refine (of_eq ?_).trans ((ih e₂ E₂ (items e₂)
        (hparts ▸ List.Sublist.refl _)).trans (of_eq ?_))
      · refine flatMap_congr fun c _ => chosen_tuples_congr fun e' _ => ?_
        split
        case isTrue h => rw [h]
        case isFalse => rfl
      · rw [place_items, hparts, flatMap_cons]

/-- One more place around the others. -/
theorem parts_agree_cons {t' : T}
    (ih : ∀ e E l, (e :: E).Sublist (parts t') → PartsAgree same items parts t' ts e E l)
    (hsep : Separated same parts (t :: t' :: ts)) (E : List R) :
    ∀ e l, (e :: E).Sublist (parts t) → PartsAgree same items parts t (t' :: ts) e E l := by
  induction E with
  | nil =>
    intro e l hsub
    have hinner := parts_agree_inner ih hsep hsub
    unfold PartsAgree
    simp only [tuples_from_cons_cons, tuples_from_nil, append_nil, flatMap_nil,
      flatMap_map, chosen_tuples, if_true, decide_eq_true_eq] at hinner ⊢
    refine (flatMap_chosen_tuples l e _ t' ts).trans ?_
    simp only [tuples_from, decide_eq_true_eq]
    exact flatMap_left _ fun h _ => (hinner h.2).map _
  | cons e₂ E₂ ihE =>
    intro e l hsub
    have hinner := parts_agree_inner ih hsep hsub
    have hnot := not_mem_of_sublist hsep hsub
    -- The tuples that begin in a later part.
    have hlater := ihE e₂ (items e₂) ((sublist_cons_self e _).trans hsub)
    unfold PartsAgree at hlater ⊢
    rw [tuples_from_cons_cons, flatMap_append, tuples_from_append]
    refine append ?_ ((of_eq ?_).trans hlater)
    · simp only [flatMap_map, chosen_tuples, if_true, decide_eq_true_eq]
      refine (flatMap_chosen_tuples l e _ t' ts).trans ?_
      exact flatMap_left _ fun h _ => (hinner h.2).map _
    · refine flatMap_congr fun c hc => chosen_tuples_congr fun e' he' => ?_
      have hmem := head_of_mem_tuples_from hc e' he'
      rw [if_neg]
      · split
        case isTrue h => rw [h]
        case isFalse => rfl
      · intro h
        exact hnot (h ▸ hmem)

theorem parts_agree (ts : List T) : ∀ (t : T) (e : R) (E : List R) (l : List α),
    Separated same parts (t :: ts) → (e :: E).Sublist (parts t) →
    PartsAgree same items parts t ts e E l := by
  induction ts with
  | nil =>
    intro t e E l hsep hsub
    have hnot := not_mem_of_sublist hsep hsub
    have hE (e' : R) (he' : e' ∈ E) : (if e' = e then l else items e') = items e' := by
      rw [if_neg]
      intro h
      exact hnot (h ▸ he')
    unfold PartsAgree
    simp only [tuples_from, flatMap_map, flatMap_cons, chosen_tuples, map_append,
      map_flatMap, if_true]
    rw [flatMap_congr fun e' he' => by rw [hE e' he']]
  | cons t' ts ih =>
    intro t e E l hsep hsub
    exact parts_agree_cons (fun e E l hsub => ih t' e E l hsep.tail hsub) hsep E e l hsub

/-- Choosing the parts first gives the same tuples. -/
theorem tuples_parts (hsep : Separated same parts ts) (hne : ts ≠ []) :
    ((tuples (fun a b => decide (a = b)) parts ts).flatMap
      (chosen_tuples same items items)).Perm
    (tuples (fun a b => decide (a = b)) (place_items items parts) ts) := by
  match ts, hne with
  | t :: ts, _ =>
    simp only [tuples]
    cases hparts : parts t with
    | nil => simp [place_items, hparts]
    | cons e E =>
      have h : PartsAgree same items parts t ts e E (items e) :=
        parts_agree ts t e E (items e) hsep (hparts ▸ List.Sublist.refl _)
      unfold PartsAgree at h
      rw [place_items, hparts, flatMap_cons]
      refine (of_eq ?_).trans h
      refine flatMap_congr fun c _ => chosen_tuples_congr fun e' _ => ?_
      split
      case isTrue h => rw [h]
      case isFalse => rfl

/-- The same, with the loops over the chosen parts written out. -/
theorem flatMap_tuples_parts (hsep : Separated same parts ts) (hne : ts ≠ []) :
    ((tuples (fun a b => decide (a = b)) parts ts).flatMap (tuples same items)).Perm
      (tuples (fun a b => decide (a = b)) (place_items items parts) ts) := by
  refine (of_eq ?_).trans (tuples_parts hsep hne)
  refine flatMap_congr fun c hc => ?_
  match ts, hne with
  | t :: ts, _ =>
    have hlen := length_of_mem_tuples_from _ _ hc
    match c, hlen with
    | e :: c, _ => rfl

end Parts

/-! ## The order of the elements

    Another order of the elements of the places gives the same tuples, up to the
    order of the elements of equal places within a tuple.
-/

section Order

/-- The elements of a tuple, each with its place, in no order. -/
def factors (ts : List T) (x : List α) : Multiset (T × α) := ↑(ts.zip x)

variable [DecidableEq T] (items : T → List α)

/-- The tuples of the places after `t`, when the loop over `t` is at `s`. -/
def tuples_after (t : T) (s : List α) : List T → List (List α)
  | [] => [[]]
  | t' :: ts => tuples_from (fun a b => decide (a = b)) items (if t = t' then s else items t') t' ts

/-- All tuples from `l` on, up to the order of elements of equal places. -/
def factors_from (t : T) (ts : List T) (l : List α) : Multiset (Multiset (T × α)) :=
  ↑((tuples_from (fun a b => decide (a = b)) items l t ts).map (factors (t :: ts)))

def factors_after (t : T) (ts : List T) (s : List α) : Multiset (Multiset (T × α)) :=
  ↑((tuples_after items t s ts).map (factors ts))

@[simp] theorem factors_from_nil (t : T) (ts : List T) : factors_from items t ts [] = 0 := by
  simp [factors_from]

theorem factors_from_cons (t : T) (ts : List T) (a : α) (l : List α) :
    factors_from items t ts (a :: l) =
      (factors_after items t ts (a :: l)).map ((t, a) ::ₘ ·) + factors_from items t ts l := by
  cases ts with
  | nil => rfl
  | cons t' ts =>
    simp only [factors_from, factors_after, tuples_after, tuples_from_cons_cons, map_append,
      map_map, decide_eq_true_eq, ← Multiset.coe_add, Multiset.map_coe]
    rfl

theorem factors_after_cons (t t' : T) (ts : List T) (s : List α) :
    factors_after items t (t' :: ts) s =
      factors_from items t' ts (if t = t' then s else items t') := rfl

theorem factors_perm (ts : List T) : ∀ t : T,
    (∀ l l' : List α, l.Perm l' → factors_from items t ts l = factors_from items t ts l') ∧
    (∀ s s' : List α, s.Perm s' → factors_after items t ts s = factors_after items t ts s') := by
  induction ts with
  | nil =>
    intro t
    refine ⟨fun l l' h => ?_, fun s s' _ => rfl⟩
    exact Multiset.coe_eq_coe.mpr ((h.map _).map _)
  | cons t' ts ih =>
    intro t
    have hafter (s s' : List α) (h : s.Perm s') :
        factors_after items t (t' :: ts) s = factors_after items t (t' :: ts) s' := by
      rw [factors_after_cons, factors_after_cons]
      apply (ih t').1
      split
      case isTrue => exact h
      case isFalse => exact List.Perm.refl _
    refine ⟨fun l l' h => ?_, hafter⟩
    induction h with
    | nil => rfl
    | cons a h ih' => rw [factors_from_cons, factors_from_cons, ih', hafter _ _ (h.cons a)]
    | trans _ _ ih₁ ih₂ => exact ih₁.trans ih₂
    | swap x y l =>
      simp only [factors_from_cons, factors_after_cons]
      by_cases htt : t = t'
      · subst htt
        -- Both elements may come twice. The tuples with `x` and `y` are the same on both sides.
        have hxy := (ih t).1 (y :: x :: l) (x :: y :: l) (swap x y l)
        have haxy := (ih t).2 (y :: x :: l) (x :: y :: l) (swap x y l)
        have hy := factors_from_cons items t ts y (x :: l)
        have hx := factors_from_cons items t ts x (y :: l)
        simp only [if_true]
        rw [hxy, hx]
        nth_rewrite 2 [← hx]
        rw [← hxy, hy, haxy]
        simp only [Multiset.map_add, Multiset.map_map, Function.comp_def, Multiset.cons_swap]
        abel
      · simp only [htt, if_false]
        abel

theorem factors_from_congr (ts : List T) :
    ∀ (t : T) (l : List α), (∀ a ∈ ts, (items a).Perm (items' a)) →
      factors_from items t ts l = factors_from items' t ts l := by
  induction ts with
  | nil => exact fun t l _ => rfl
  | cons t' ts ih =>
    intro t l hperm
    have hih (l : List α) := ih t' l fun a ha => hperm a (mem_cons_of_mem t' ha)
    have hafter (s : List α) :
        factors_after items t (t' :: ts) s = factors_after items' t (t' :: ts) s := by
      rw [factors_after_cons, factors_after_cons, ← hih]
      apply (factors_perm items ts t').1
      split
      case isTrue => exact List.Perm.refl _
      case isFalse => exact hperm t' mem_cons_self
    induction l with
    | nil => rw [factors_from_nil, factors_from_nil]
    | cons a l ihl => rw [factors_from_cons, factors_from_cons, ihl, hafter]

/-- The tuples of places with their elements in another order. -/
theorem factors_tuples_perm (hperm : ∀ t ∈ ts, (items t).Perm (items' t)) :
    ((tuples (fun a b => decide (a = b)) items ts).map (factors ts)).Perm
      ((tuples (fun a b => decide (a = b)) items' ts).map (factors ts)) := by
  cases ts with
  | nil => exact List.Perm.refl _
  | cons t ts =>
    apply Multiset.coe_eq_coe.mp
    calc factors_from items t ts (items t)
        = factors_from items t ts (items' t) :=
          (factors_perm items ts t).1 _ _ (hperm t mem_cons_self)
      _ = factors_from items' t ts (items' t) :=
          factors_from_congr items ts t _ fun a ha => hperm a (mem_cons_of_mem t ha)

end Order

/-! ## Combinations with repetition -/

/-- All ways to choose `k` elements, with repetition; one order for each. -/
def repeated : Nat → List α → List (List α)
  | 0, _ => [[]]
  | k + 1, l => (heads l).flatMap fun h => (repeated k h.2).map (h.1 :: ·)

@[simp] theorem repeated_nil (k : Nat) : repeated (k + 1) ([] : List α) = [] := rfl

theorem repeated_cons (k : Nat) (a : α) (l : List α) :
    repeated (k + 1) (a :: l) = (repeated k (a :: l)).map (a :: ·) ++ repeated (k + 1) l := rfl

/-- The choices of `k` elements, without their order: every multiset of `k`
    elements is chosen. -/
theorem mem_repeated (k : Nat) : ∀ (l : List α) (m : Multiset α),
    m ∈ (repeated k l).map Multiset.ofList ↔ m.card = k ∧ ∀ a ∈ m, a ∈ l := by
  induction k with
  | zero =>
    intro l m
    simp only [repeated, map_cons, map_nil, mem_singleton]
    constructor
    · intro h
      simp [h]
    · intro h
      simpa using h.1
  | succ k ihk =>
    intro l
    induction l with
    | nil =>
      intro m
      simp only [repeated_nil, map_nil, not_mem_nil, imp_false, false_iff]
      intro h
      have hzero := Multiset.eq_zero_of_forall_notMem h.2
      simp [hzero] at h
    | cons a l ihl =>
      intro m
      simp only [repeated_cons, map_append, map_map, mem_append, ihl]
      constructor
      · intro h
        rcases h with h | h
        · obtain ⟨x, hx, rfl⟩ := mem_map.mp h
          have hx' := (ihk (a :: l) (Multiset.ofList x)).mp (mem_map_of_mem hx)
          refine ⟨by simpa using hx'.1, fun b hb => ?_⟩
          rcases mem_cons.mp hb with rfl | hb
          · exact mem_cons_self
          · exact hx'.2 b hb
        · exact ⟨h.1, fun b hb => mem_cons_of_mem a (h.2 b hb)⟩
      · intro h
        by_cases ha : a ∈ m
        · -- One `a` is chosen first.
          left
          obtain ⟨m', rfl⟩ := Multiset.exists_cons_of_mem ha
          have hm' : m' ∈ (repeated k (a :: l)).map Multiset.ofList :=
            (ihk (a :: l) m').mpr ⟨by simpa using h.1, fun b hb => h.2 b (Multiset.mem_cons_of_mem hb)⟩
          obtain ⟨x, hx, rfl⟩ := mem_map.mp hm'
          exact mem_map.mpr ⟨x, hx, rfl⟩
        · right
          refine ⟨h.1, fun b hb => ?_⟩
          rcases mem_cons.mp (h.2 b hb) with rfl | hb'
          · exact absurd hb ha
          · exact hb'

/-- No multiset is chosen twice. -/
theorem repeated_nodup (k : Nat) : ∀ l : List α, l.Nodup →
    ((repeated k l).map Multiset.ofList).Nodup := by
  induction k with
  | zero => exact fun l _ => nodup_singleton _
  | succ k ihk =>
    intro l
    induction l with
    | nil => exact fun _ => nodup_nil
    | cons a l ihl =>
      intro hnodup
      obtain ⟨ha, hl⟩ := nodup_cons.mp hnodup
      simp only [repeated_cons, map_append, map_map]
      refine List.Nodup.append ?_ (ihl hl) ?_
      · have hinj := (ihk (a :: l) hnodup).map fun m m' (h : a ::ₘ m = a ::ₘ m') =>
          (Multiset.cons_inj_right a).mp h
        rwa [map_map] at hinj
      · -- The first ones contain `a`, the others do not.
        intro m hm hm'
        obtain ⟨x, -, rfl⟩ := mem_map.mp hm
        exact ha (((mem_repeated (k + 1) l _).mp hm').2 a (Multiset.mem_coe.mpr mem_cons_self))

end Tuples
