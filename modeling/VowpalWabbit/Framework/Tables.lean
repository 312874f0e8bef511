import VowpalWabbit.Framework.Loops
import Mathlib.Data.List.Perm.Basic

/-! # Vectors and tables in place

    Assignments and swaps in a vector, and assignments in a vector of vectors,
    by what a later read finds at each place. Places outside of the vector have
    no content.
-/

namespace Cpp

open List

variable {A : Type}

/-! ## Vectors -/

/-- `std::swap(l[i], l[j])`. -/
def swap_at (l : List A) (i j : Nat) : List A :=
  match l[i]?, l[j]? with
  | some x, some y => (l.set i y).set j x
  | _, _ => l

theorem swap_at_eq {l : List A} {i j : Nat} (hi : i < l.length) (hj : j < l.length) :
    swap_at l i j = (l.set i l[j]).set j l[i] := by
  unfold swap_at
  rw [getElem?_eq_getElem hi, getElem?_eq_getElem hj]

theorem perm_swap_at (l : List A) (i j : Nat) : (swap_at l i j).Perm l := by
  by_cases hi : i < l.length
  · by_cases hj : j < l.length
    · rw [swap_at_eq hi hj]
      exact set_set_perm hi hj
    · unfold swap_at
      rw [getElem?_eq_none (Nat.le_of_not_lt hj)]
      split <;> simp_all
  · unfold swap_at
    rw [getElem?_eq_none (Nat.le_of_not_lt hi)]

@[simp] theorem length_swap_at (l : List A) (i j : Nat) : (swap_at l i j).length = l.length :=
  (perm_swap_at l i j).length_eq

theorem getElem?_swap_at {l : List A} {i j : Nat} (hi : i < l.length) (hj : j < l.length) (k : Nat) :
    (swap_at l i j)[k]? = if k = j then l[i]? else if k = i then l[j]? else l[k]? := by
  rw [swap_at_eq hi hj, getElem?_set, length_set, getElem?_set]
  by_cases hkj : k = j
  · rw [if_pos hkj.symm, if_pos hkj, if_pos (hkj ▸ hj), getElem?_eq_getElem hi]
  · rw [if_neg (Ne.symm hkj), if_neg hkj]
    by_cases hki : k = i
    · rw [if_pos hki.symm, if_pos hki, if_pos (hki ▸ hi), getElem?_eq_getElem hj]
    · rw [if_neg (Ne.symm hki), if_neg hki]

/-! ## Tables -/

/-- A vector of vectors. -/
abbrev Table (A : Type) := List (List A)

namespace Table

def get (t : Table A) (r c : Nat) : Option A := t[r]?.bind (·[c]?)

/-- A change of `t[r][c]`. -/
def update (t : Table A) (r c : Nat) (f : A → A) : Table A := t.modify r (·.modify c f)

/-- The lengths of the rows. -/
def shape (t : Table A) : List Nat := t.map List.length

variable (t : Table A)

@[simp] theorem shape_update (r c : Nat) (f : A → A) : (update t r c f).shape = t.shape := by
  unfold shape update
  apply ext_getElem?
  intro i
  rw [getElem?_map, getElem?_map, getElem?_modify]
  cases t[i]? with
  | none => rfl
  | some row => by_cases hr : r = i <;> simp [hr]

theorem get_update_self (r c : Nat) (f : A → A) :
    (update t r c f).get r c = (t.get r c).map f := by
  unfold get update
  rw [getElem?_modify]
  cases t[r]? with
  | none => rfl
  | some row =>
    show (if r = r then row.modify c f else row)[c]? = row[c]?.map f
    rw [if_pos rfl, getElem?_modify]
    cases row[c]? with
    | none => rfl
    | some a => simp

theorem get_update_ne {r c r' c' : Nat} (f : A → A) (h : r' = r → c' ≠ c) :
    (update t r c f).get r' c' = t.get r' c' := by
  unfold get update
  rw [getElem?_modify]
  cases t[r']? with
  | none => rfl
  | some row =>
    show (if r = r' then row.modify c f else row)[c']? = row[c']?
    split
    case isFalse => rfl
    case isTrue hr =>
      have hc : c ≠ c' := fun hc => h hr.symm hc.symm
      rw [getElem?_modify]
      cases row[c']? with
      | none => rfl
      | some a => simp [hc]

/-- Whether there is a place is a matter of the shape. -/
theorem isSome_get_iff (r c : Nat) : (t.get r c).isSome ↔ ∃ n, t.shape[r]? = some n ∧ c < n := by
  unfold get shape
  rw [getElem?_map]
  cases t[r]? with
  | none => simp
  | some row => simp

/-- `t[r'][c'] = std::move(t[r][c])`, where `moved_from` says what is left behind. -/
def move (moved_from : A → A) (t : Table A) (r c r' c' : Nat) : Table A :=
  match t.get r c with
  | none => t
  | some a => (t.update r' c' fun _ => a).update r c moved_from

variable {moved_from : A → A}

@[simp] theorem shape_move (r c r' c' : Nat) : (move moved_from t r c r' c').shape = t.shape := by
  unfold move
  split <;> simp

theorem get_move_target {r c r' c' : Nat} (hne : r' = r → c' ≠ c) (hsource : (t.get r c).isSome)
    (htarget : (t.get r' c').isSome) : (move moved_from t r c r' c').get r' c' = t.get r c := by
  obtain ⟨a, ha⟩ := Option.isSome_iff_exists.mp hsource
  obtain ⟨b, hb⟩ := Option.isSome_iff_exists.mp htarget
  unfold move
  rw [ha]
  rw [get_update_ne _ _ hne, get_update_self, hb]
  rfl

/-- All places but the two are as before. -/
theorem get_move_ne {r c r' c' x y : Nat} (hsource : x = r → y ≠ c) (htarget : x = r' → y ≠ c') :
    (move moved_from t r c r' c').get x y = t.get x y := by
  unfold move
  split
  · rfl
  · rw [get_update_ne _ _ hsource, get_update_ne _ _ htarget]

/-- A loop that changes the first places of a row. -/
theorem get_update_row (row n : Nat) (f : A → A) (r c : Nat) :
    let t' := for_range n (fun t i => update t row i f) t
    t'.shape = t.shape ∧
      t'.get r c = if r = row ∧ c < n then (t.get r c).map f else t.get r c := by
  intro t'
  let Updated (n : Nat) (t' : Table A) : Prop := t'.shape = t.shape ∧
    ∀ r c, t'.get r c = if r = row ∧ c < n then (t.get r c).map f else t.get r c
  have hupdated : Updated n t' := by
    apply for_range_invariant Updated
    · exact ⟨rfl, by simp⟩
    · intro i _ s ⟨hshape, hs⟩
      refine ⟨(s.shape_update _ _ _).trans hshape, ?_⟩
      intro r c
      by_cases hplace : r = row ∧ c = i
      · obtain ⟨rfl, rfl⟩ := hplace
        rw [get_update_self, hs, if_neg (by omega), if_pos ⟨rfl, Nat.lt_succ_self _⟩]
      · rw [get_update_ne _ _ fun hr hc => hplace ⟨hr, hc⟩, hs]
        apply if_congr _ rfl rfl
        omega
  exact ⟨hupdated.1, hupdated.2 r c⟩

end Table

end Cpp
