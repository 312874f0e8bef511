import VowpalWabbit.Framework.Outcome
import VowpalWabbit.Framework.Tables

/-! # Vectors with bounds

    `operator[]` of a vector has no defined behaviour outside of the vector.
    What a call reads, it has when it returns; in range, it returns.
-/

namespace Cpp

open List Outcome Outcome.Safe

variable {A B S : Type}

/-- `l[i]`, read. -/
def nth (l : List A) (i : Nat) : Outcome A :=
  match l[i]? with
  | some a => .ok a
  | none => undefined

/-- `l[i]`, changed. -/
def update_nth (l : List A) (i : Nat) (f : A → A) : Outcome (List A) :=
  match l[i]? with
  | some a => .ok (l.set i (f a))
  | none => undefined

/-- `std::swap(l[i], l[j])`. -/
def swap_nth (l : List A) (i j : Nat) : Outcome (List A) :=
  if i < l.length ∧ j < l.length then .ok (swap_at l i j) else undefined

/-- `l[i] = x`, where the place behind the last one is a new one. -/
def put (l : List A) (i : Nat) (x : A) : List A := if i < l.length then l.set i x else l ++ [x]

theorem getElem?_put {l : List A} {i : Nat} (hi : i ≤ l.length) (x : A) (j : Nat) :
    (put l i x)[j]? = if j = i then some x else l[j]? := by
  unfold put
  split
  case isTrue hlt =>
    by_cases hj : j = i
    · rw [if_pos hj, hj, getElem?_set_self hlt]
    · rw [if_neg hj, getElem?_set_ne (Ne.symm hj)]
  case isFalse hge =>
    obtain rfl : i = l.length := Nat.le_antisymm hi (Nat.le_of_not_lt hge)
    by_cases hj : j = l.length
    · rw [if_pos hj, hj, getElem?_concat_length]
    · rw [if_neg hj]
      rcases Nat.lt_or_gt_of_ne hj with hj | hj
      · exact getElem?_append_left hj
      · rw [getElem?_eq_none (by simp; omega), getElem?_eq_none (Nat.le_of_lt hj)]

variable {l : List A} {i : Nat} {s : S}

theorem length_put (hi : i ≤ l.length) (x : A) :
    (put l i x).length = max l.length (i + 1) := by
  unfold put
  split
  case isTrue hlt => rw [length_set]; omega
  case isFalse hge => rw [length_append, length_singleton]; omega

theorem set_put (hi : i ≤ l.length) (x y : A) :
    (put l i x).set i y = put l i y := by
  unfold put
  split
  case isTrue => rw [set_set]
  case isFalse hge =>
    obtain rfl : i = l.length := Nat.le_antisymm hi (Nat.le_of_not_lt hge)
    rw [set_append_right _ _ (Nat.le_refl _), Nat.sub_self, set_cons_zero]

theorem map_put (f : A → B) (l : List A) (i : Nat) (x : A) :
    (put l i x).map f = put (l.map f) i (f x) := by
  unfold put
  rw [length_map]
  split
  · exact map_set
  · exact map_append

theorem mem_put {x y : A} (h : y ∈ put l i x) : y = x ∨ y ∈ l := by
  unfold put at h
  split at h
  · exact (mem_or_eq_of_mem_set h).symm
  · rcases mem_append.mp h with h | h
    · exact Or.inr h
    · exact Or.inl (mem_singleton.mp h)

theorem nth_eq_ok {a : A} : nth l i = .ok a ↔ l[i]? = some a := by
  unfold nth
  split
  · rename_i b hb
    rw [hb]
    simp
  · rename_i hnone
    rw [hnone]
    simp [undefined]

theorem nth_safe (h : i < l.length) :
    Outcome.Safe (nth l i) fun a => l[i]? = some a := by
  unfold nth
  rw [getElem?_eq_getElem h]
  exact ok rfl

theorem update_nth_of_lt (h : i < l.length) (x : A) :
    (update_nth l i fun _ => x) = .ok (l.set i x) := by
  unfold update_nth
  rw [getElem?_eq_getElem h]

theorem update_nth_safe (f : A → A) (h : i < l.length) :
    Outcome.Safe (update_nth l i f) fun l' => ∃ a, l[i]? = some a ∧ l' = l.set i (f a) := by
  unfold update_nth
  rw [getElem?_eq_getElem h]
  exact ok ⟨_, rfl, rfl⟩

theorem swap_nth_safe {j : Nat} (hi : i < l.length) (hj : j < l.length) :
    Outcome.Safe (swap_nth l i j) fun l' => l' = swap_at l i j := by
  unfold swap_nth
  rw [if_pos ⟨hi, hj⟩]
  exact ok rfl

/-! ## Comparisons -/

/-- `std::equal(first1, last1, first2)`: the second range is read as far as the first one goes. -/
def equal [DecidableEq A] : List A → List A → Outcome Bool
  | [], _ => .ok true
  | _ :: _, [] => undefined
  | x :: xs, y :: ys => if x = y then equal xs ys else .ok false

theorem equal_eq_true [DecidableEq A] {xs ys : List A} : equal xs ys = .ok true ↔ xs <+: ys := by
  fun_induction equal xs ys with
  | case1 => simp
  | case2 => simp [undefined]
  | case3 x xs ys ih => simpa using ih
  | case4 x xs y ys hne => simp [cons_prefix_cons, hne]

/-- It reads past the end exactly when the second range is a proper prefix of the first one. -/
theorem equal_eq_undefined [DecidableEq A] {xs ys : List A} :
    equal xs ys = undefined ↔ ys <+: xs ∧ ys ≠ xs := by
  fun_induction equal xs ys with
  | case1 ys =>
    simp only [prefix_nil, undefined, reduceCtorEq, false_iff]
    exact fun h => h.2 h.1
  | case2 => simp
  | case3 x xs ys ih => simpa using ih
  | case4 x xs y ys hne => simp [cons_prefix_cons, Ne.symm hne, undefined]

theorem equal_no_throw [DecidableEq A] (xs ys : List A) : Outcome.NoThrow (equal xs ys) := by
  fun_induction equal xs ys with
  | case1 => exact Outcome.NoThrow.ok _
  | case2 => exact Outcome.NoThrow.undefined
  | case3 x xs ys ih => exact ih
  | case4 => exact Outcome.NoThrow.ok _

/-- Ranges of one length are read in their bounds. -/
theorem equal_of_length [DecidableEq A] {xs ys : List A} (h : xs.length = ys.length) :
    equal xs ys = .ok (decide (xs = ys)) := by
  fun_induction equal xs ys with
  | case1 ys => rw [length_eq_zero_iff.mp h.symm, decide_eq_true rfl]
  | case2 => cases h
  | case3 x xs ys ih => simpa using ih (Nat.succ.inj h)
  | case4 x xs y ys hne => simp [hne]

/-! ## Loops whose body may fail -/

variable {body : S → Nat → Outcome S}

/-- The rule for a safe loop over a counter. -/
theorem foldlM_range_safe (P : Nat → S → Prop) {n : Nat} (h0 : P 0 s)
    (hstep : ∀ i < n, ∀ s, P i s → Outcome.Safe (body s i) (P (i + 1))) :
    Outcome.Safe ((range n).foldlM body s) (P n) := by
  induction n with
  | zero => exact ok h0
  | succ n ih =>
    rw [range_succ, foldlM_append]
    apply (ih fun i hi => hstep i (Nat.lt_succ_of_lt hi)).bind
    intro s' hs'
    rw [foldlM_cons]
    apply (hstep n (Nat.lt_succ_self n) s' hs').bind
    intro s'' hs''
    exact ok hs''

/-- The rule for a loop over the numbers below `n` that returns. -/
theorem foldlM_range_returns (P : Nat → S → Prop) {n : Nat} (h0 : P 0 s)
    (hstep : ∀ i < n, ∀ s, P i s → Outcome.Returns (body s i) (P (i + 1))) :
    Outcome.Returns ((range n).foldlM body s) (P n) := by
  induction n with
  | zero => exact Outcome.Returns.ok h0
  | succ n ih =>
    rw [range_succ, foldlM_append]
    apply (ih fun i hi => hstep i (Nat.lt_succ_of_lt hi)).bind
    intro s' hs'
    rw [foldlM_cons]
    apply (hstep n (Nat.lt_succ_self n) s' hs').bind
    intro s'' hs''
    exact Outcome.Returns.ok hs''

/-- The rule for a safe loop over a list. -/
theorem foldlM_safe {body : S → A → Outcome S} (P : S → Prop) (h0 : P s)
    (hstep : ∀ a ∈ l, ∀ s, P s → Outcome.Safe (body s a) P) :
    Outcome.Safe (l.foldlM body s) P := by
  induction l generalizing s with
  | nil => exact ok h0
  | cons a l ih =>
    rw [foldlM_cons]
    apply (hstep a mem_cons_self s h0).bind
    intro s' hs'
    exact ih hs' fun b hb => hstep b (mem_cons_of_mem a hb)

end Cpp
