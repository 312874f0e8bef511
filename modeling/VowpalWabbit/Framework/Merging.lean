import VowpalWabbit.Framework.Outcome
import Mathlib.Data.Finset.Max
import Mathlib.Data.List.Sort

/-! # Sorting with a comparison function, and common elements

    `qsort` of C sorts by a comparison function, whose answers have to be those of an order.

    Two cursors go over two lists; the one at the smaller key moves on, and both do at equal
    keys. `common` is what they meet at, and `rest` what is left when one of the lists ends.
    On ascending lists they meet at the intersection. What is found on lists that consist of
    two ascending pieces depends on whether both first pieces end together (`Aligned`).
-/

namespace Cpp

open List

/-! ## `qsort` -/

section

variable {α : Type} {compar : α → α → Int} {xs : List α}

/-- The answers are those of an order of these elements. -/
def Consistent (compar : α → α → Int) (xs : List α) : Prop :=
  ∀ a ∈ xs, ∀ b ∈ xs, (compar a b < 0 ↔ 0 < compar b a) ∧
    ∀ c ∈ xs, compar a b ≤ 0 → compar b c ≤ 0 → compar a c ≤ 0

instance : Decidable (Consistent compar xs) := by unfold Consistent; infer_instance

/-- Without an order the behaviour is not defined. -/
def qsort (compar : α → α → Int) (xs : List α) : Outcome (List α) :=
  if Consistent compar xs then .ok (xs.insertionSort fun a b => compar a b ≤ 0) else Outcome.undefined

variable {ys : List α}

theorem qsort_eq_ok (h : qsort compar xs = .ok ys) : Consistent compar xs ∧ ys.Perm xs := by
  unfold qsort at h
  split at h
  · next hconsistent =>
    cases h
    exact ⟨hconsistent, perm_insertionSort _ xs⟩
  · cases h

theorem Consistent.sorts (h : Consistent compar xs) : ∃ ys, qsort compar xs = .ok ys ∧ ys.Perm xs :=
  ⟨_, if_pos h, perm_insertionSort _ xs⟩

/-- The result is in the order of the answers. -/
theorem qsort_ordered (h : qsort compar xs = .ok ys) : ys.Pairwise fun a b => compar a b ≤ 0 := by
  have hconsistent := (qsort_eq_ok h).1
  unfold qsort at h
  rw [if_pos hconsistent] at h
  cases h
  -- the answers are an order of the elements of the list
  let r : {x // x ∈ xs} → {x // x ∈ xs} → Prop := fun a b => compar a.1 b.1 ≤ 0
  have htotal : ∀ a b, r a b ∨ r b a := by
    intro a b
    have hsign := (hconsistent b.1 b.2 a.1 a.2).1
    change compar a.1 b.1 ≤ 0 ∨ compar b.1 a.1 ≤ 0
    omega
  have htrans : ∀ a b c, r a b → r b c → r a c := fun a b c =>
    (hconsistent a.1 a.2 b.1 b.2).2 c.1 c.2
  have : Std.Total r := ⟨htotal⟩
  have : IsTrans _ r := ⟨htrans⟩
  have hmap := map_insertionSort r (fun a b : α => compar a b ≤ 0) Subtype.val xs.attach
    fun a _ b _ => Iff.rfl
  rw [attach_map_subtype_val] at hmap
  rw [← hmap]
  exact pairwise_map.mpr (pairwise_insertionSort r xs.attach)

/-- The order is that of a number. -/
def Agrees (compar : α → α → Int) (key : α → Int) (xs : List α) : Prop :=
  ∀ a ∈ xs, ∀ b ∈ xs, (compar a b < 0 ↔ key a < key b) ∧ (0 < compar a b ↔ key b < key a)

variable {key : α → Int}

theorem Agrees.consistent (h : Agrees compar key xs) : Consistent compar xs := by
  intro a ha b hb
  refine ⟨(h a ha b hb).1.trans (h b hb a ha).2.symm, fun c hc hab hbc => ?_⟩
  have hab' := mt (h a ha b hb).2.mpr (not_lt.mpr hab)
  have hbc' := mt (h b hb c hc).2.mpr (not_lt.mpr hbc)
  refine not_lt.mp (mt (h a ha c hc).2.mp ?_)
  omega

theorem Agrees.qsort_eq_ok (h : Agrees compar key xs) :
    ∃ ys, qsort compar xs = .ok ys ∧ ys.Perm xs ∧ ys.Pairwise fun x y => key x ≤ key y := by
  refine ⟨_, if_pos h.consistent, perm_insertionSort _ xs, ?_⟩
  have hmap := map_insertionSort (fun a b : α => compar a b ≤ 0) (fun a b : Int => a ≤ b) key xs
    fun a ha b hb => not_lt.symm.trans ((not_congr (h a ha b hb).2).trans not_lt)
  have hsorted := pairwise_insertionSort (fun a b : Int => a ≤ b) (xs.map key)
  rw [← hmap] at hsorted
  exact pairwise_map.mp hsorted

end

/-! ## Two cursors -/

section

variable {α κ : Type} [LinearOrder κ] (key : α → κ)

/-- The pairs of elements with equal keys that the cursors meet at. -/
def common : List α → List α → List (α × α)
  | x :: xs, y :: ys =>
    if key x < key y then common xs (y :: ys)
    else if key y < key x then common (x :: xs) ys
    else (x, y) :: common xs ys
  | [], _ => []
  | _ :: _, [] => []
termination_by xs ys => xs.length + ys.length

/-- What is left of both lists. -/
def rest : List α → List α → List α × List α
  | x :: xs, y :: ys =>
    if key x < key y then rest xs (y :: ys)
    else if key y < key x then rest (x :: xs) ys
    else rest xs ys
  | [], ys => ([], ys)
  | x :: xs, [] => (x :: xs, [])
termination_by xs ys => xs.length + ys.length

variable {key}

@[simp] theorem common_nil_left (ys : List α) : common key [] ys = [] := by
  unfold common
  rfl

@[simp] theorem common_nil_right (xs : List α) : common key xs [] = [] := by
  cases xs <;> (unfold common; rfl)

variable {x y : α} {xs ys : List α}

theorem common_of_lt (xs ys : List α) (h : key x < key y) :
    common key (x :: xs) (y :: ys) = common key xs (y :: ys) := by
  rw [common, if_pos h]

theorem common_of_gt (xs ys : List α) (h : key y < key x) :
    common key (x :: xs) (y :: ys) = common key (x :: xs) ys := by
  rw [common, if_neg h.asymm, if_pos h]

theorem common_of_eq (xs ys : List α) (h : key x = key y) :
    common key (x :: xs) (y :: ys) = (x, y) :: common key xs ys := by
  rw [common, if_neg h.not_lt, if_neg h.not_gt]

@[simp] theorem rest_nil_left (ys : List α) : rest key [] ys = ([], ys) := by
  unfold rest
  rfl

@[simp] theorem rest_nil_right (xs : List α) : rest key xs [] = (xs, []) := by
  cases xs <;> (unfold rest; rfl)

/-- The cursors go on behind the first pieces with what is left of them. -/
theorem common_append (xs ys xs' ys' : List α) : common key (xs ++ xs') (ys ++ ys') =
    common key xs ys ++ common key ((rest key xs ys).1 ++ xs') ((rest key xs ys).2 ++ ys') := by
  induction xs, ys using common.induct key with
  | case1 x xs y ys h ih =>
    rw [cons_append, cons_append, common_of_lt _ _ h, common_of_lt _ _ h, rest, if_pos h, ← ih,
      cons_append]
  | case2 x xs y ys h h' ih =>
    rw [cons_append, cons_append, common_of_gt _ _ h', common_of_gt _ _ h', rest, if_neg h, if_pos h', ← ih,
      cons_append]
  | case3 x xs y ys h h' ih =>
    have heq := le_antisymm (not_lt.mp h') (not_lt.mp h)
    rw [cons_append, cons_append, common_of_eq _ _ heq, common_of_eq _ _ heq, rest, if_neg h, if_neg h', ih,
      cons_append]
  | case4 ys => simp
  | case5 x xs => simp

/-- One of the lists has ended. -/
theorem rest_eq_nil (xs ys : List α) : (rest key xs ys).1 = [] ∨ (rest key xs ys).2 = [] := by
  induction xs, ys using rest.induct key with
  | case1 x xs y ys h ih => rwa [rest, if_pos h]
  | case2 x xs y ys h h' ih => rwa [rest, if_neg h, if_pos h']
  | case3 x xs y ys h h' ih => rwa [rest, if_neg h, if_neg h']
  | case4 ys => exact .inl (by simp)
  | case5 x xs => exact .inr (by simp)

/-- Elements below the first one of the other list are passed. -/
theorem common_of_all_lt (h : ∀ x ∈ xs, key x < key y) : common key xs (y :: ys) = [] := by
  induction xs with
  | nil => simp
  | cons x xs ih =>
    rw [forall_mem_cons] at h
    rw [common_of_lt _ _ h.1, ih h.2]

theorem common_of_all_gt (h : ∀ y ∈ ys, key y < key x) : common key (x :: xs) ys = [] := by
  induction ys with
  | nil => simp
  | cons y ys ih =>
    rw [forall_mem_cons] at h
    rw [common_of_gt _ _ h.1, ih h.2]

variable {p : α × α}

theorem key_eq_of_mem_common (h : p ∈ common key xs ys) :
    p.1 ∈ xs ∧ p.2 ∈ ys ∧ key p.1 = key p.2 := by
  induction xs, ys using common.induct key with
  | case1 x xs y ys hlt ih =>
    rw [common_of_lt _ _ hlt] at h
    exact ⟨mem_cons_of_mem x (ih h).1, (ih h).2⟩
  | case2 x xs y ys _ hgt ih =>
    rw [common_of_gt _ _ hgt] at h
    exact ⟨(ih h).1, mem_cons_of_mem y (ih h).2.1, (ih h).2.2⟩
  | case3 x xs y ys hlt hgt ih =>
    have heq := le_antisymm (not_lt.mp hgt) (not_lt.mp hlt)
    rw [common_of_eq _ _ heq] at h
    rcases mem_cons.mp h with rfl | h
    · exact ⟨mem_cons_self, mem_cons_self, heq⟩
    · exact ⟨mem_cons_of_mem x (ih h).1, mem_cons_of_mem y (ih h).2.1, (ih h).2.2⟩
  | case4 ys => simp at h
  | case5 x xs => simp at h

theorem length_common_comm (xs ys : List α) : (common key xs ys).length = (common key ys xs).length := by
  induction xs, ys using common.induct key with
  | case1 x xs y ys h ih => rw [common_of_lt _ _ h, common_of_gt _ _ h, ih]
  | case2 x xs y ys _ h ih => rw [common_of_gt _ _ h, common_of_lt _ _ h, ih]
  | case3 x xs y ys h h' ih =>
    have heq := le_antisymm (not_lt.mp h') (not_lt.mp h)
    rw [common_of_eq _ _ heq, common_of_eq _ _ heq.symm, length_cons, length_cons, ih]
  | case4 ys => simp
  | case5 x xs => simp

theorem common_sublist (xs ys : List α) : ((common key xs ys).map Prod.fst).Sublist xs := by
  induction xs, ys using common.induct key with
  | case1 x xs y ys h ih =>
    rw [common_of_lt _ _ h]
    exact ih.cons x
  | case2 x xs y ys _ h ih => rwa [common_of_gt _ _ h]
  | case3 x xs y ys h h' ih =>
    rw [common_of_eq _ _ (le_antisymm (not_lt.mp h') (not_lt.mp h))]
    exact ih.cons_cons x
  | case4 ys => simp
  | case5 x xs => simp

/-- With strictly ascending keys the cursors meet at each common key. -/
theorem mem_common_iff (hxs : xs.Pairwise fun x y => key x < key y)
    (hys : ys.Pairwise fun x y => key x < key y) :
    p ∈ common key xs ys ↔ p.1 ∈ xs ∧ p.2 ∈ ys ∧ key p.1 = key p.2 := by
  refine ⟨key_eq_of_mem_common, ?_⟩
  obtain ⟨a, b⟩ := p
  rintro ⟨ha, hb, hab⟩
  dsimp only at ha hb hab
  induction xs, ys using common.induct key with
  | case1 x xs y ys h ih =>
    rw [common_of_lt _ _ h]
    refine ih (pairwise_cons.mp hxs).2 hys ((mem_cons.mp ha).resolve_left ?_) hb
    rintro rfl
    rcases mem_cons.mp hb with rfl | hb
    · exact h.ne hab
    · exact (h.trans ((pairwise_cons.mp hys).1 b hb)).ne hab
  | case2 x xs y ys _ h ih =>
    rw [common_of_gt _ _ h]
    refine ih hxs (pairwise_cons.mp hys).2 ha ((mem_cons.mp hb).resolve_left ?_)
    rintro rfl
    rcases mem_cons.mp ha with rfl | ha
    · exact h.ne' hab
    · exact (h.trans ((pairwise_cons.mp hxs).1 a ha)).ne' hab
  | case3 x xs y ys h h' ih =>
    have heq := le_antisymm (not_lt.mp h') (not_lt.mp h)
    obtain ⟨hx, hxs⟩ := pairwise_cons.mp hxs
    obtain ⟨hy, hys⟩ := pairwise_cons.mp hys
    rw [common_of_eq _ _ heq]
    rcases mem_cons.mp ha with rfl | ha <;> rcases mem_cons.mp hb with rfl | hb
    · exact mem_cons_self
    · exact absurd (heq.symm.trans hab) (hy b hb).ne
    · exact absurd (heq.trans hab.symm) (hx a ha).ne
    · exact mem_cons_of_mem _ (ih hxs hys ha hb)
  | case4 ys => cases ha
  | case5 x xs => cases hb

/-- The keys ascend. -/
def Ascending (key : α → κ) (xs : List α) : Prop := xs.Pairwise fun x y => key x ≤ key y

theorem rest_suffix (xs ys : List α) : (rest key xs ys).1 <:+ xs ∧ (rest key xs ys).2 <:+ ys := by
  induction xs, ys using rest.induct key with
  | case1 x xs y ys h ih =>
    rw [rest, if_pos h]
    exact ⟨ih.1.trans (suffix_cons x xs), ih.2⟩
  | case2 x xs y ys h h' ih =>
    rw [rest, if_neg h, if_pos h']
    exact ⟨ih.1, ih.2.trans (suffix_cons y ys)⟩
  | case3 x xs y ys h h' ih =>
    rw [rest, if_neg h, if_neg h']
    exact ⟨ih.1.trans (suffix_cons x xs), ih.2.trans (suffix_cons y ys)⟩
  | case4 ys => simp
  | case5 x xs => simp

/-- What is left of the other list is at or behind everything that was passed. -/
theorem le_of_mem_rest (hys : Ascending key ys) (h : (rest key (x :: xs) ys).1 = []) :
    ∀ y ∈ (rest key (x :: xs) ys).2, key x ≤ key y := by
  induction ys with
  | nil => simp at h
  | cons y ys ih =>
    obtain ⟨hy, hys⟩ := pairwise_cons.mp hys
    rw [rest] at h ⊢
    split at h
    · next hlt =>
      rw [if_pos hlt]
      intro z hz
      rcases mem_cons.mp ((rest_suffix _ _).2.subset hz) with rfl | hz
      · exact hlt.le
      · exact hlt.le.trans (hy z hz)
    · next hle =>
      rw [if_neg hle]
      split at h
      · next hgt =>
        rw [if_pos hgt]
        exact ih hys h
      · next hge =>
        rw [if_neg hge]
        exact fun z hz => (not_lt.mp hge).trans (hy z ((rest_suffix _ _).2.subset hz))

/-! ## Two pieces -/

section Pieces

variable {high low high' low' : List α}

/-- The second pieces are compared when both first pieces end together. -/
theorem common_pieces (hrest : rest key high high' = ([], [])) :
    common key (high ++ low) (high' ++ low') = common key high high' ++ common key low low' := by
  rw [common_append, hrest, nil_append, nil_append]

/-- Otherwise the list that has come to its second piece is passed to its end. -/
theorem common_pieces_of_rest (hlow : ∀ l ∈ low, ∀ h ∈ high', key l < key h)
    (hlow' : ∀ l ∈ low', ∀ h ∈ high, key l < key h) (hrest : rest key high high' ≠ ([], [])) :
    common key (high ++ low) (high' ++ low') = common key high high' := by
  suffices h : common key ((rest key high high').1 ++ low) ((rest key high high').2 ++ low') = [] by
    rw [common_append, h, append_nil]
  have hsuffix := @rest_suffix _ _ _ key high high'
  have hends := @rest_eq_nil _ _ _ key high high'
  generalize rest key high high' = r at hrest hsuffix hends
  obtain ⟨r, r'⟩ := r
  dsimp only at *
  rcases hends with rfl | rfl
  · obtain ⟨z, zs, rfl⟩ := exists_cons_of_ne_nil fun h : r' = [] => hrest (by rw [h])
    exact common_of_all_lt fun l hl => hlow l hl z (hsuffix.2.subset mem_cons_self)
  · obtain ⟨z, zs, rfl⟩ := exists_cons_of_ne_nil fun h : r = [] => hrest (by rw [h])
    exact common_of_all_gt fun l hl => hlow' l hl z (hsuffix.1.subset mem_cons_self)

end Pieces

/-- On an ascending list only the first piece is looked for, if there is one. -/
theorem common_first_piece {high low : List α} (hhigh : high ≠ []) (hys : Ascending key ys)
    (hlow : ∀ l ∈ low, ∀ h ∈ high, key l < key h) : common key (high ++ low) ys = common key high ys := by
  suffices h : common key ((rest key high ys).1 ++ low) (rest key high ys).2 = [] by
    have happend : common key (high ++ low) (ys ++ []) = _ := common_append high ys low []
    rwa [append_nil, append_nil, h, append_nil] at happend
  obtain ⟨x, xs, rfl⟩ := exists_cons_of_ne_nil hhigh
  rcases @rest_eq_nil _ _ _ key (x :: xs) ys with h | h
  · have hle := le_of_mem_rest hys h
    rw [h, nil_append]
    cases hr : (rest key (x :: xs) ys).2 with
    | nil => simp
    | cons z zs =>
      have hxz := hle z (by rw [hr]; exact mem_cons_self)
      exact common_of_all_lt fun l hl => (hlow l hl x mem_cons_self).trans_le hxz
  · rw [h, common_nil_right]

/-! ## Sets of keys -/

section Injective

variable [DecidableEq α] (hkey : Function.Injective key)

include hkey

variable {xs ys : List α}

/-- On ascending lists the cursors meet at the intersection. -/
theorem common_eq_inter (hxs : Ascending key xs) (hys : Ascending key ys) :
    (((common key xs ys).map Prod.fst : List α) : Multiset α) = (xs : Multiset α) ∩ (ys : Multiset α) := by
  induction xs, ys using common.induct key with
  | case1 x xs y ys h ih =>
    obtain ⟨-, hxs⟩ := pairwise_cons.mp hxs
    have hx : x ∉ (y :: ys : List α) := by
      intro hmem
      rcases mem_cons.mp hmem with rfl | hmem
      · exact lt_irrefl _ h
      · exact h.not_ge ((pairwise_cons.mp hys).1 x hmem)
    rw [common_of_lt _ _ h, ih hxs hys, ← Multiset.cons_coe x xs, Multiset.cons_inter_of_neg _ (by simpa using hx)]
  | case2 x xs y ys _ h ih =>
    obtain ⟨-, hys⟩ := pairwise_cons.mp hys
    have hy : y ∉ (x :: xs : List α) := by
      intro hmem
      rcases mem_cons.mp hmem with rfl | hmem
      · exact lt_irrefl _ h
      · exact h.not_ge ((pairwise_cons.mp hxs).1 y hmem)
    rw [common_of_gt _ _ h, ih hxs hys, ← Multiset.cons_coe y ys, Multiset.inter_comm _ (y ::ₘ _),
      Multiset.cons_inter_of_neg _ (by simpa using hy), Multiset.inter_comm]
  | case3 x xs y ys h h' ih =>
    have heq := le_antisymm (not_lt.mp h') (not_lt.mp h)
    obtain rfl := hkey heq
    obtain ⟨-, hxs⟩ := pairwise_cons.mp hxs
    obtain ⟨-, hys⟩ := pairwise_cons.mp hys
    rw [common_of_eq _ _ rfl, map_cons, ← Multiset.cons_coe, ih hxs hys, ← Multiset.cons_coe x xs,
      Multiset.cons_inter_of_pos _ (by simp), ← Multiset.cons_coe, Multiset.erase_cons_head]
  | case4 ys => simp
  | case5 x xs => simp

/-- What bounds both lists is in both equally often: their greatest elements are equal, or
    there are none. -/
def Aligned (key : α → κ) (xs ys : List α) : Prop :=
  ∀ z, (∀ x ∈ xs, key x ≤ key z) → (∀ y ∈ ys, key y ≤ key z) → xs.count z = ys.count z

omit hkey in
theorem Aligned.perm {xs' ys' : List α} (hxs : xs.Perm xs') (hys : ys.Perm ys') :
    Aligned key xs ys ↔ Aligned key xs' ys' := by
  simp only [Aligned, hxs.mem_iff, hys.mem_iff, hxs.count_eq, hys.count_eq]

omit hkey in
theorem aligned_comm : Aligned key xs ys ↔ Aligned key ys xs :=
  ⟨fun h z hx hy => (h z hy hx).symm, fun h z hx hy => (h z hy hx).symm⟩

omit hkey in
theorem aligned_nil_iff : Aligned key xs [] ↔ xs = [] := by
  constructor
  · intro h
    by_contra hne
    obtain ⟨z, hz, hmax⟩ := xs.toFinset.exists_max_image key (by simpa using hne)
    have hcount := h z (fun x hx => hmax x (by simpa using hx)) (by simp)
    rw [count_nil, count_eq_zero] at hcount
    exact hcount (by simpa using hz)
  · rintro rfl z - -
    rfl

omit hkey in
/-- A smaller head does not matter. -/
theorem aligned_cons_of_lt (h : key x < key y) :
    Aligned key (x :: xs) (y :: ys) ↔ Aligned key xs (y :: ys) := by
  refine forall_congr' fun z => ?_
  rw [forall_mem_cons]
  constructor
  · intro hal hxs hys
    have hy : key y ≤ key z := hys y mem_cons_self
    rw [← hal ⟨h.le.trans hy, hxs⟩ hys, count_cons_of_ne]
    rintro rfl
    exact h.not_ge hy
  · intro hal hxs hys
    have hy : key y ≤ key z := hys y mem_cons_self
    rw [← hal hxs.2 hys, count_cons_of_ne]
    rintro rfl
    exact h.not_ge hy

/-- Both ascending lists end together exactly when they are aligned. -/
theorem rest_eq_iff_aligned (hxs : Ascending key xs) (hys : Ascending key ys) :
    rest key xs ys = ([], []) ↔ Aligned key xs ys := by
  induction xs, ys using rest.induct key with
  | case1 x xs y ys h ih =>
    rw [rest, if_pos h, ih (pairwise_cons.mp hxs).2 hys, aligned_cons_of_lt h]
  | case2 x xs y ys h h' ih =>
    rw [rest, if_neg h, if_pos h', ih hxs (pairwise_cons.mp hys).2, aligned_comm, ← aligned_cons_of_lt h',
      aligned_comm]
  | case3 x xs y ys h h' ih =>
    obtain rfl := hkey (le_antisymm (not_lt.mp h') (not_lt.mp h))
    obtain ⟨hx, hxs⟩ := pairwise_cons.mp hxs
    obtain ⟨hy, hys⟩ := pairwise_cons.mp hys
    rw [rest, if_neg h, if_neg h', ih hxs hys]
    refine forall_congr' fun z => ?_
    simp only [forall_mem_cons, count_cons, Nat.add_right_cancel_iff]
    constructor
    · exact fun hal hxz hyz => hal hxz.2 hyz.2
    · intro hal hxz hyz
      -- Without a bound of the common head both lists are empty.
      by_cases hz : key x ≤ key z
      · exact hal ⟨hz, hxz⟩ ⟨hz, hyz⟩
      · have hempty : ∀ l : List α, (∀ w ∈ l, key x ≤ key w) → (∀ w ∈ l, key w ≤ key z) → l.count z = 0 :=
          fun l hl hlz => count_eq_zero.mpr fun hmem => hz (hl z hmem)
        rw [hempty xs hx hxz, hempty ys hy hyz]
  | case4 ys => rw [rest_nil_left, Prod.mk.injEq, aligned_comm, aligned_nil_iff]; simp
  | case5 x xs => rw [rest_nil_right, Prod.mk.injEq, aligned_nil_iff]; simp

end Injective

end

/-! ## When every shared element is met -/

section Shared

variable {α κ : Type} [LinearOrder κ] {key : α → κ} {shared : α → Bool} {x y : α} {xs ys : List α} {met : Nat}

/-- What one list has for itself is smaller than the next element that it shares. -/
def Below (key : α → κ) (shared : α → Bool) : List α → Prop
  | [] => True
  | x :: xs => (shared x = false → ∀ c ∈ (xs.filter shared).head?, key x < key c) ∧ Below key shared xs

/-- The lists share their elements in the same order, and nothing hides one of them. -/
def InStep (key : α → κ) (shared : α → Bool) (xs ys : List α) : Prop :=
  xs.filter shared = ys.filter shared ∧ Below key shared xs ∧ Below key shared ys

def AllMet (shared : α → Bool) (met : Nat) (xs ys : List α) : Prop :=
  met = (xs.filter shared).length ∧ met = (ys.filter shared).length

theorem inStep_comm : InStep key shared xs ys ↔ InStep key shared ys xs := by
  unfold InStep
  rw [eq_comm, @and_comm (Below key shared xs)]

theorem below_of_filter (h : xs.filter shared = []) : Below key shared xs := by
  induction xs with
  | nil => trivial
  | cons x xs ih =>
    rw [filter_eq_nil_iff, forall_mem_cons] at h
    have hxs := filter_eq_nil_iff.mpr h.2
    refine ⟨fun _ c hc => ?_, ih hxs⟩
    rw [hxs] at hc
    cases hc

theorem lt_of_shared (hxy : key x < key y) (h : Below key shared (y :: ys)) {c : α}
    (hc : c ∈ ((y :: ys).filter shared).head?) :
    key x < key c := by
  by_cases hy : shared y
  · rw [filter_cons_of_pos hy] at hc
    cases hc
    exact hxy
  · rw [filter_cons_of_neg hy] at hc
    exact hxy.trans (h.1 (Bool.eq_false_iff.mpr hy) c hc)

/-- The cursor at the smaller element moves on. -/
theorem met_cons_iff (hxy : key x < key y) (hmet : met ≤ (xs.filter shared).length)
    (h : AllMet shared met xs (y :: ys) ↔ InStep key shared xs (y :: ys)) :
    AllMet shared met (x :: xs) (y :: ys) ↔ InStep key shared (x :: xs) (y :: ys) := by
  by_cases hx : shared x
  · -- A shared element is passed.
    refine iff_of_false (fun hall => ?_) fun hstep => ?_
    · have hlength := hall.1
      rw [filter_cons_of_pos hx, length_cons] at hlength
      omega
    · have hhead : x ∈ ((y :: ys).filter shared).head? := by
        rw [← hstep.1, filter_cons_of_pos hx]
        rfl
      exact lt_irrefl (key x) (lt_of_shared hxy hstep.2.2 hhead)
  · have hfilter : (x :: xs).filter shared = xs.filter shared := filter_cons_of_neg hx
    unfold AllMet InStep at *
    rw [hfilter, h]
    refine ⟨fun hstep => ⟨hstep.1, ⟨fun _ c hc => ?_, hstep.2.1⟩, hstep.2.2⟩,
      fun hstep => ⟨hstep.1, hstep.2.1.2, hstep.2.2⟩⟩
    rw [hstep.1] at hc
    exact lt_of_shared hxy hstep.2.2 hc

theorem all_met_nil : AllMet shared 0 [] ys ↔ InStep key shared [] ys := by
  refine ⟨fun hall => ?_, fun hstep => ⟨rfl, hstep.1 ▸ rfl⟩⟩
  have hys : ys.filter shared = [] := length_eq_zero_iff.mp hall.2.symm
  exact ⟨hys.symm, trivial, below_of_filter hys⟩

theorem length_common_le (hkey : Function.Injective key) (h : ∀ z ∈ xs, z ∈ ys → shared z) :
    (common key xs ys).length ≤ (xs.filter shared).length := by
  have hmem : ∀ z ∈ (common key xs ys).map Prod.fst, shared z := by
    intro z hz
    obtain ⟨p, hp, rfl⟩ := mem_map.mp hz
    obtain ⟨hfst, hsnd, heq⟩ := key_eq_of_mem_common hp
    exact h p.1 hfst (hkey heq ▸ hsnd)
  have hsub := (@common_sublist _ _ _ key xs ys).filter shared
  rw [filter_eq_self.mpr hmem] at hsub
  exact length_map (Prod.fst : α × α → α) ▸ hsub.length_le

theorem all_met_iff (hkey : Function.Injective key) (h : ∀ z ∈ xs, z ∈ ys → shared z) :
    AllMet shared (common key xs ys).length xs ys ↔ InStep key shared xs ys := by
  induction xs, ys using common.induct key with
  | case1 x xs y ys hxy ih =>
    rw [common_of_lt _ _ hxy]
    have hrest : ∀ z ∈ xs, z ∈ y :: ys → shared z := fun z hz => h z (mem_cons_of_mem x hz)
    exact met_cons_iff hxy (length_common_le hkey hrest) (ih hrest)
  | case2 x xs y ys _ hyx ih =>
    rw [common_of_gt _ _ hyx]
    have hrest : ∀ z ∈ x :: xs, z ∈ ys → shared z := fun z hz hz' => h z hz (mem_cons_of_mem y hz')
    have hmet : (common key (x :: xs) ys).length ≤ (ys.filter shared).length := by
      rw [length_common_comm]
      exact length_common_le hkey fun z hz hz' => hrest z hz' hz
    rw [inStep_comm, AllMet, and_comm]
    exact met_cons_iff hyx hmet (and_comm.trans ((ih hrest).trans inStep_comm))
  | case3 x xs y ys hxy hyx ih =>
    obtain rfl := hkey (le_antisymm (not_lt.mp hyx) (not_lt.mp hxy))
    have hx := h x mem_cons_self mem_cons_self
    have hrest : ∀ z ∈ xs, z ∈ ys → shared z := fun z hz hz' => h z (mem_cons_of_mem x hz) (mem_cons_of_mem x hz')
    have ih := ih hrest
    unfold AllMet InStep at *
    rw [common_of_eq _ _ rfl, filter_cons_of_pos hx, filter_cons_of_pos hx]
    simpa [Below, hx] using ih
  | case4 ys =>
    rw [common_nil_left]
    exact all_met_nil
  | case5 x xs =>
    rw [common_nil_right, inStep_comm, AllMet, and_comm]
    exact all_met_nil

end Shared

end Cpp
