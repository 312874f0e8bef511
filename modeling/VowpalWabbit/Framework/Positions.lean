import Mathlib.Data.List.Count
import Mathlib.Data.List.Nodup
import Mathlib.Order.Basic

/-! # Positions of the keys of a list

    Entries that carry a key fall into one group for each key. `positions keys key` are the
    positions of a group. The groups are consecutive blocks, in the order of their keys,
    exactly when the keys do not decrease.
-/

namespace Cpp

open List

variable {A : Type} [DecidableEq A]

/-- The positions of a key in a list whose first position is `first`. -/
def positions_from (key : A) : Nat → List A → List Nat
  | _, [] => []
  | first, k :: keys =>
    if k = key then first :: positions_from key (first + 1) keys
    else positions_from key (first + 1) keys

def positions (keys : List A) (key : A) : List Nat := positions_from key 0 keys

variable {i : Nat}

theorem mem_positions_from {key : A} {keys : List A} :
    ∀ {first : Nat}, i ∈ positions_from key first keys ↔ ∃ k, i = first + k ∧ keys[k]? = some key := by
  induction keys with
  | nil =>
    intro first
    simp [positions_from]
  | cons k keys ih =>
    intro first
    -- position 0 is the head, position `n + 1` is position `n` of the tail
    have hsplit : (∃ n, i = first + n ∧ (k :: keys)[n]? = some key) ↔
        (i = first ∧ k = key) ∨ ∃ n, i = first + 1 + n ∧ keys[n]? = some key := by
      constructor
      · rintro ⟨n, hn, hkey⟩
        cases n with
        | zero => exact .inl ⟨hn, by simpa using hkey⟩
        | succ n => exact .inr ⟨n, by omega, by simpa using hkey⟩
      · rintro (⟨hi, hk⟩ | ⟨n, hn, hkey⟩)
        · exact ⟨0, hi, by simp [hk]⟩
        · exact ⟨n + 1, by omega, by simpa using hkey⟩
    rw [hsplit, positions_from]
    by_cases hk : k = key
    · rw [if_pos hk, mem_cons, ih]
      simp only [hk, and_true]
    · rw [if_neg hk, ih]
      simp only [hk, and_false, false_or]

theorem mem_positions {keys : List A} {key : A} : i ∈ positions keys key ↔ keys[i]? = some key := by
  unfold positions
  rw [mem_positions_from]
  simp only [Nat.zero_add]
  constructor
  · rintro ⟨k, rfl, hk⟩
    exact hk
  · intro h
    exact ⟨i, rfl, h⟩

theorem length_positions_from {key : A} {keys : List A} :
    ∀ {first : Nat}, (positions_from key first keys).length = keys.count key := by
  induction keys with
  | nil => exact fun {_} => rfl
  | cons k keys ih =>
    intro first
    rw [positions_from, count_cons]
    by_cases hk : k = key
    · rw [if_pos hk, length_cons, ih, if_pos (beq_iff_eq.mpr hk)]
    · rw [if_neg hk, ih, if_neg (fun h => hk (beq_iff_eq.mp h)), Nat.add_zero]

theorem length_positions (keys : List A) (key : A) :
    (positions keys key).length = keys.count key := length_positions_from

theorem nodup_positions_from {key : A} {keys : List A} :
    ∀ {first : Nat}, (positions_from key first keys).Nodup := by
  induction keys with
  | nil => exact fun {_} => nodup_nil
  | cons k keys ih =>
    intro first
    rw [positions_from]
    by_cases hk : k = key
    · rw [if_pos hk, nodup_cons]
      refine ⟨fun hmem => ?_, ih⟩
      obtain ⟨n, hn, -⟩ := mem_positions_from.mp hmem
      omega
    · rw [if_neg hk]
      exact ih

theorem nodup_positions (keys : List A) (key : A) : (positions keys key).Nodup :=
  nodup_positions_from

theorem lt_of_mem_positions {keys : List A} {key : A} (h : i ∈ positions keys key) :
    i < keys.length := by
  obtain ⟨hi, -⟩ := List.getElem?_eq_some_iff.mp (mem_positions.mp h)
  exact hi

/-- A position has one key. -/
theorem positions_disjoint {keys : List A} {key key' : A} (h : i ∈ positions keys key)
    (h' : i ∈ positions keys key') : key = key' := by
  rw [mem_positions] at h h'
  exact Option.some.inj (h.symm.trans h')

theorem positions_ne_nil {keys : List A} {key : A} : positions keys key ≠ [] ↔ key ∈ keys := by
  rw [← length_pos_iff, length_positions, count_pos_iff]

/-! ## Blocks -/

section Blocks

variable {keys : List Nat} {key : Nat}

/-- The number of entries with a smaller key. -/
def smaller (keys : List Nat) (key : Nat) : Nat := keys.countP (· < key)

theorem smaller_zero : smaller keys 0 = 0 := by
  unfold smaller
  rw [countP_eq_zero]
  simp

theorem smaller_succ : smaller keys (key + 1) = smaller keys key + keys.count key := by
  induction keys with
  | nil => rfl
  | cons k keys ih =>
    unfold smaller at ih ⊢
    rw [countP_cons, countP_cons, count_cons, ih]
    rcases Nat.lt_trichotomy k key with h | h | h
    · simp [h, Nat.lt_succ_of_lt h, Nat.ne_of_lt h]
      omega
    · simp [h]
      omega
    · have hk : ¬ k < key + 1 := by omega
      simp [hk, Nat.lt_asymm h, Nat.ne_of_gt h]

theorem smaller_mono {key' : Nat} (h : key ≤ key') : smaller keys key ≤ smaller keys key' := by
  apply countP_mono_left
  intro k _ hk
  rw [decide_eq_true_eq] at hk ⊢
  omega

theorem smaller_add_count_le : smaller keys key + keys.count key ≤ keys.length := by
  rw [← smaller_succ]
  exact countP_le_length

/-- The groups of keys that do not decrease are blocks. -/
theorem positions_from_of_sorted :
    ∀ {first : Nat}, keys.Pairwise (· ≤ ·) →
      positions_from key first keys = range' (first + smaller keys key) (keys.count key) := by
  induction keys with
  | nil => exact fun {_} _ => rfl
  | cons k keys ih =>
    intro first hsorted
    rw [pairwise_cons] at hsorted
    obtain ⟨hle, hsorted⟩ := hsorted
    have hih := @ih (first + 1) hsorted
    rw [positions_from, hih]
    unfold smaller
    rw [countP_cons, count_cons]
    rcases Nat.lt_trichotomy k key with h | h | h
    · simp [h, Nat.ne_of_lt h]
      omega
    · -- no key is smaller than the first one
      have hnone : keys.countP (· < key) = 0 := by
        rw [countP_eq_zero]
        intro k' hk'
        have := hle k' hk'
        simp
        omega
      rw [hnone, if_pos h]
      simp [h, range'_succ]
    · have hnone : keys.count key = 0 := by
        rw [count_eq_zero]
        intro hmem
        have := hle key hmem
        omega
      rw [hnone, if_neg (Nat.ne_of_gt h)]
      simp [Nat.ne_of_gt h]

/-- The groups are consecutive blocks in the order of their keys. -/
def InBlocks (keys : List Nat) : Prop :=
  ∀ key ∈ keys, positions keys key = range' (smaller keys key) (keys.count key)

/-- They are so exactly when the keys do not decrease. -/
theorem inBlocks_iff_sorted : InBlocks keys ↔ keys.Pairwise (· ≤ ·) := by
  constructor
  · intro h
    rw [pairwise_iff_getElem]
    intro p q hp hq hpq
    by_contra hlt
    rw [Nat.not_le] at hlt
    -- the position `p` is in the later block
    have hmem_p : p ∈ positions keys keys[p] := mem_positions.mpr (getElem?_eq_getElem hp)
    have hmem_q : q ∈ positions keys keys[q] := mem_positions.mpr (getElem?_eq_getElem hq)
    rw [h _ (getElem_mem hp), mem_range'_1] at hmem_p
    rw [h _ (getElem_mem hq), mem_range'_1] at hmem_q
    have hmono : smaller keys (keys[q] + 1) ≤ smaller keys keys[p] := smaller_mono hlt
    rw [smaller_succ] at hmono
    omega
  · intro h key _
    have hblock := @positions_from_of_sorted keys key 0 h
    rw [Nat.zero_add] at hblock
    exact hblock

end Blocks

end Cpp
