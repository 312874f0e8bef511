import VowpalWabbit.Framework.Tuples

/-! # Sums over tuples

    Each element has a weight, and a tuple the product of the weights of its
    elements. The sum over all tuples of nested loops is a product over the
    places: of the sums of the weights when no places are equal, and of a
    complete homogeneous sum for each run of equal places.
-/

namespace Tuples

open List

variable {α T V : Type} [CommSemiring V]

/-- The complete homogeneous sum: over all ways to choose `k` elements of a
    list, with repetition and without regard to their order. -/
def homogeneous : Nat → List V → V
  | 0, _ => 1
  | k + 1, xs => ((heads xs).map fun h => h.1 * homogeneous k h.2).sum

@[simp] theorem homogeneous_zero (xs : List V) : homogeneous 0 xs = 1 := rfl

@[simp] theorem homogeneous_nil (k : Nat) : homogeneous (k + 1) ([] : List V) = 0 := rfl

theorem homogeneous_cons (k : Nat) (x : V) (xs : List V) :
    homogeneous (k + 1) (x :: xs) = x * homogeneous k (x :: xs) + homogeneous (k + 1) xs := by
  simp [homogeneous]

theorem homogeneous_one (xs : List V) : homogeneous 1 xs = xs.sum := by
  simp [homogeneous]

theorem homogeneous_of_zero {xs : List V} (h : ∀ x ∈ xs, x = 0) (k : Nat) : homogeneous (k + 1) xs = 0 := by
  induction xs with
  | nil => rfl
  | cons x xs ih =>
    rw [homogeneous_cons, h x mem_cons_self, ih fun y hy => h y (mem_cons_of_mem x hy), zero_mul, add_zero]

/-- One more element, at the end. -/
theorem homogeneous_append (k : Nat) (xs : List V) (y : V) :
    homogeneous (k + 1) (xs ++ [y]) =
      homogeneous (k + 1) xs + homogeneous k (xs ++ [y]) * y := by
  induction k generalizing xs with
  | zero => simp [homogeneous_one]
  | succ k ihk =>
    induction xs with
    | nil =>
      simp only [nil_append, homogeneous_cons, homogeneous_nil]
      ring
    | cons x xs ih =>
      calc homogeneous (k + 2) (x :: xs ++ [y])
          = x * homogeneous (k + 1) (x :: xs ++ [y]) + homogeneous (k + 2) (xs ++ [y]) := by
            rw [cons_append, homogeneous_cons]
        _ = x * (homogeneous (k + 1) (x :: xs) + homogeneous k (x :: xs ++ [y]) * y) +
              (homogeneous (k + 2) xs + homogeneous (k + 1) (xs ++ [y]) * y) := by rw [ihk, ih]
        _ = (x * homogeneous (k + 1) (x :: xs) + homogeneous (k + 2) xs) +
              (x * homogeneous k (x :: (xs ++ [y])) + homogeneous (k + 1) (xs ++ [y])) * y := by
            rw [cons_append]
            ring
        _ = _ := by rw [← homogeneous_cons, ← homogeneous_cons, cons_append]

section Ordered

variable {V : Type} [CommRing V] [LinearOrder V] [IsStrictOrderedRing V] {xs : List V}

theorem homogeneous_nonneg (h : ∀ x ∈ xs, 0 ≤ x) (k : Nat) : 0 ≤ homogeneous k xs := by
  induction k generalizing xs with
  | zero => exact zero_le_one
  | succ k ihk =>
    induction xs with
    | nil => exact le_rfl
    | cons x xs ih =>
      rw [homogeneous_cons]
      exact add_nonneg (mul_nonneg (h x mem_cons_self) (ihk h)) (ih fun y hy => h y (mem_cons_of_mem x hy))

theorem homogeneous_pos (h : ∀ x ∈ xs, 0 ≤ x) {x : V} (hx : x ∈ xs) (hpos : 0 < x) (k : Nat) :
    0 < homogeneous k xs := by
  induction k generalizing xs with
  | zero => exact zero_lt_one
  | succ k ihk =>
    induction xs with
    | nil => cases hx
    | cons y xs ih =>
      have htail : ∀ z ∈ xs, 0 ≤ z := fun z hz => h z (mem_cons_of_mem y hz)
      rw [homogeneous_cons]
      rcases mem_cons.mp hx with rfl | hmem
      · exact add_pos_of_pos_of_nonneg (mul_pos hpos (ihk h mem_cons_self)) (homogeneous_nonneg htail _)
      · exact add_pos_of_nonneg_of_pos (mul_nonneg (h y mem_cons_self) (homogeneous_nonneg h k)) (ih htail hmem)

end Ordered

variable {t : T}

section Weights

variable (same : T → T → Bool) (items : T → List α) (w : α → V)

/-- The weight of all tuples in a list. -/
def weight (xs : List (List α)) : V := (xs.map fun x => (x.map w).prod).sum

@[simp] theorem weight_nil : weight w [] = 0 := rfl

@[simp] theorem weight_append (xs ys : List (List α)) :
    weight w (xs ++ ys) = weight w xs + weight w ys := by
  simp [weight]

theorem weight_perm {xs ys : List (List α)} (h : xs.Perm ys) : weight w xs = weight w ys :=
  (h.map _).sum_eq

theorem weight_map {β : Type} (f : β → α) (xs : List (List β)) :
    weight w (xs.map (map f)) = weight (fun b => w (f b)) xs := by
  simp [weight, map_map, Function.comp_def]

theorem weight_map_cons (a : α) (xs : List (List α)) :
    weight w (xs.map (a :: ·)) = w a * weight w xs := by
  simp [weight, map_map, Function.comp_def, sum_map_mul_left]

theorem weight_flatMap {β : Type} (l : List β) (f : β → List (List α)) :
    weight w (l.flatMap f) = (l.map fun b => weight w (f b)).sum := by
  induction l with
  | nil => rfl
  | cons b l ih => simp [ih]

/-- The weight of the tuples for some places, 1 for none. -/
theorem weight_tuples_from_cons (l : List α) (t t' : T) (ts : List T) :
    weight w (tuples_from same items l t (t' :: ts)) =
      ((heads l).map fun h => w h.1 *
        weight w (tuples_from same items (if same t t' then h.2 else items t') t' ts)).sum := by
  simp only [tuples_from, weight_flatMap, weight_map_cons]

theorem weight_tuples_from_nil (l : List α) (t : T) :
    weight w (tuples_from same items l t []) = (l.map w).sum := by
  simp [tuples_from, weight, map_map, Function.comp_def]

/-- A place that is not the same as the next one gives a factor. -/
theorem weight_tuples_from_of_not_same {t' : T} (h : same t t' = false) (l : List α) (ts : List T) :
    weight w (tuples_from same items l t (t' :: ts)) =
      (l.map w).sum * weight w (tuples same items (t' :: ts)) := by
  rw [weight_tuples_from_cons]
  simp only [h, Bool.false_eq_true, if_false]
  rw [sum_map_mul_right, map_heads_fst, tuples]

/-- A run of equal places, before a place that is not the same or at the end. -/
theorem weight_tuples_from_run (hself : same t t = true) (k : Nat) (rest : List T)
    (hrest : ∀ t' ∈ rest.head?, same t t' = false) (l : List α) :
    weight w (tuples_from same items l t (replicate k t ++ rest)) =
      homogeneous (k + 1) (l.map w) * weight w (tuples same items rest) := by
  induction k generalizing l with
  | zero =>
    rw [homogeneous_one, replicate_zero, nil_append]
    cases rest with
    | nil =>
      rw [weight_tuples_from_nil]
      simp [tuples, weight]
    | cons t' rest => exact weight_tuples_from_of_not_same same items w (hrest t' rfl) l rest
  | succ k ih =>
    rw [replicate_succ, cons_append, weight_tuples_from_cons]
    simp only [hself, if_true, ih]
    rw [homogeneous, heads_map, map_map, ← sum_map_mul_right]
    simp only [Function.comp_def, mul_assoc]

end Weights

/-! ## Ordered tuples -/

variable {ts : List T}

section Ordered

variable (items : T → List α)

/-- One element for each place, with no regard to equal places. -/
def ordered_tuples : List T → List (List α)
  | [] => [[]]
  | t :: ts => (items t).flatMap fun a => (ordered_tuples ts).map (a :: ·)

theorem tuples_from_false (l : List α) (t : T) (ts : List T) :
    tuples_from (fun _ _ => false) items l t ts =
      l.flatMap fun a => (ordered_tuples items ts).map (a :: ·) := by
  induction ts generalizing l t with
  | nil => simp [tuples_from, ordered_tuples, map_eq_flatMap]
  | cons t' ts ih =>
    simp only [tuples_from, ih, Bool.false_eq_true, if_false, ordered_tuples]
    conv_rhs => rw [← map_fst_heads l, flatMap_map]

theorem tuples_false (ts : List T) :
    tuples (fun _ _ => false) items ts = ordered_tuples items ts := by
  cases ts with
  | nil => rfl
  | cons t ts => rw [tuples, tuples_from_false, ordered_tuples]

theorem ordered_tuples_perm_sections (ts : List T) :
    (ordered_tuples items ts).Perm (ts.map items).sections := by
  induction ts with
  | nil => exact List.Perm.refl _
  | cons t ts ih =>
    simp only [ordered_tuples, map_cons, sections]
    refine (List.Perm.flatMap_left _ fun a _ => ih.map _).trans ?_
    simp only [map_eq_flatMap]
    exact flatMap_comm _ _ _

theorem weight_ordered_tuples (w : α → V) (ts : List T) :
    weight w (ordered_tuples items ts) = (ts.map fun t => ((items t).map w).sum).prod := by
  induction ts with
  | nil => simp [ordered_tuples, weight]
  | cons t ts ih =>
    simp only [ordered_tuples, weight_flatMap, weight_map_cons, ih, map_cons, prod_cons]
    exact sum_map_mul_right ..

theorem weight_ordered_tuples_cons (w : α → V) (t : T) (ts : List T) :
    weight w (ordered_tuples items (t :: ts)) =
      ((items t).map w).sum * weight w (ordered_tuples items ts) := by
  rw [weight_ordered_tuples, weight_ordered_tuples, map_cons, prod_cons]

theorem length_ordered_tuples (ts : List T) :
    (ordered_tuples items ts).length = (ts.map fun t => (items t).length).prod := by
  induction ts with
  | nil => rfl
  | cons t ts ih => simp [ordered_tuples, length_flatMap, ih]

/-- Choosing parts of the places first. -/
theorem ordered_tuples_parts {R : Type} (items : R → List α) (parts : T → List R) (ts : List T) :
    ((ordered_tuples parts ts).flatMap (ordered_tuples items)).Perm
      (ordered_tuples (place_items items parts) ts) := by
  induction ts with
  | nil => exact List.Perm.refl _
  | cons t ts ih =>
    simp only [ordered_tuples, place_items, flatMap_assoc, flatMap_map]
    refine List.Perm.flatMap_left _ fun e _ => ?_
    refine (flatMap_comm _ _ _).trans (List.Perm.flatMap_left _ fun a _ => ?_)
    rw [← map_flatMap]
    exact ih.map _

/-- The weight of each ordered tuple is positive. -/
def Positive (w : α → Nat) (ts : List T) : Prop := ∀ t ∈ ts, items t ≠ [] ∧ ∀ a ∈ items t, 0 < w a

variable {w : α → Nat}

theorem Positive.sum_pos {items : T → List α} (h : Positive items w ts) (ht : t ∈ ts) :
    0 < ((items t).map w).sum := by
  obtain ⟨hne, hpos⟩ := h t ht
  obtain ⟨a, ha⟩ := exists_mem_of_ne_nil _ hne
  exact (hpos a ha).trans_le
    (single_le_sum (fun _ _ => Nat.zero_le _) _ (mem_map_of_mem ha))

theorem Positive.weight_pos {items : T → List α} (h : Positive items w ts) :
    0 < weight w (ordered_tuples items ts) := by
  rw [weight_ordered_tuples]
  refine prod_pos fun n hn => ?_
  obtain ⟨t, ht, rfl⟩ := mem_map.mp hn
  exact h.sum_pos ht

end Ordered

/-! ## How many ordered tuples are left out -/

section Repeats

variable [DecidableEq T] (items : T → List α)

/-- No place with two or more elements is equal to the one before it. -/
def NoRepeats (ts : List T) : Prop := ts.IsChain fun t t' => t = t' → (items t').length ≤ 1

theorem tuples_from_of_no_repeats : ∀ {t : T} {l : List α},
    NoRepeats items (t :: ts) → l <:+ items t →
      tuples_from (fun a b => decide (a = b)) items l t ts =
        tuples_from (fun _ _ => false) items l t ts := by
  induction ts with
  | nil => exact fun _ _ => rfl
  | cons t' ts ih =>
    intro t l hchain hsuf
    obtain ⟨hle, hchain⟩ := isChain_cons_cons.mp hchain
    simp only [tuples_from, Bool.false_eq_true, if_false, decide_eq_true_eq]
    refine flatMap_congr fun h hh => ?_
    have hstart : (if t = t' then h.2 else items t') = items t' := by
      split
      case isTrue heq =>
        -- A rest of a list of one element is the list.
        subst heq
        have hsuf' := (suffix_of_mem_heads hh).trans hsuf
        have hpos := length_pos_iff.mpr (ne_nil_of_mem_heads hh)
        have hone := hle rfl
        exact hsuf'.eq_of_length_le (by omega)
      case isFalse => rfl
    rw [hstart, ih hchain suffix_rfl]

variable (w : α → Nat)

theorem start_suffix (t' : T) {l : List α} {h : α × List α} (hsuf : l <:+ items t)
    (hh : h ∈ heads l) : (if t = t' then h.2 else items t') <:+ items t' := by
  split
  case isTrue heq => exact heq ▸ (suffix_of_mem_heads hh).trans hsuf
  case isFalse => exact suffix_rfl

/-- The nested loops give no more than the ordered tuples. -/
theorem weight_tuples_from_le (ts : List T) : ∀ (t : T) (l : List α), l <:+ items t →
    weight w (tuples_from (fun a b => decide (a = b)) items l t ts) ≤
      (l.map w).sum * weight w (ordered_tuples items ts) := by
  induction ts with
  | nil =>
    intro t l _
    rw [weight_tuples_from_nil]
    simp [ordered_tuples, weight]
  | cons t' ts ih =>
    intro t l hsuf
    rw [weight_tuples_from_cons, ← map_heads_fst w, ← sum_map_mul_right]
    refine sum_le_sum fun h hh => Nat.mul_le_mul_left _ ?_
    have hstart := start_suffix items t' hsuf hh
    simp only [decide_eq_true_eq]
    refine (ih t' _ hstart).trans ?_
    rw [weight_ordered_tuples_cons]
    exact Nat.mul_le_mul_right _ ((hstart.sublist.map w).sum_le_sum fun _ _ => Nat.zero_le _)

variable {items w}

/-- With a repeated place of two elements or more, the nested loops leave out
    ordered tuples. -/
theorem exists_two_of_length {l : List α} (h : 2 ≤ l.length) : ∃ a b m, l = a :: b :: m := by
  obtain ⟨a, l, rfl⟩ := exists_cons_of_length_pos (Nat.lt_of_succ_lt h)
  obtain ⟨b, m, rfl⟩ := exists_cons_of_length_pos (Nat.lt_of_succ_lt_succ h)
  exact ⟨a, b, m, rfl⟩

theorem weight_tuples_lt (hpos : Positive items w ts) (hrep : ¬ NoRepeats items ts) :
    weight w (tuples (fun a b => decide (a = b)) items ts) <
      weight w (ordered_tuples items ts) := by
  induction ts with
  | nil => exact absurd isChain_nil hrep
  | cons t ts ih =>
    cases ts with
    | nil => exact absurd (isChain_singleton t) hrep
    | cons t' ts =>
      have hpos' : Positive items w (t' :: ts) := fun a ha => hpos a (mem_cons_of_mem t ha)
      have hts : Positive items w ts := fun a ha => hpos' a (mem_cons_of_mem t' ha)
      rw [tuples, weight_tuples_from_cons, weight_ordered_tuples_cons, ← map_heads_fst w,
        ← sum_map_mul_right]
      simp only [decide_eq_true_eq]
      -- No round gives more than all tuples of the other places.
      have hle (h : α × List α) (hh : h ∈ heads (items t)) :
          weight w (tuples_from (fun a b => decide (a = b)) items
            (if t = t' then h.2 else items t') t' ts) ≤ weight w (ordered_tuples items (t' :: ts)) := by
        have hstart := start_suffix items t' suffix_rfl hh
        refine (weight_tuples_from_le items w ts t' _ hstart).trans ?_
        rw [weight_ordered_tuples_cons]
        exact Nat.mul_le_mul_right _ ((hstart.sublist.map w).sum_le_sum fun _ _ => Nat.zero_le _)
      -- It is enough to find one that gives less.
      suffices hlt : ∃ h ∈ heads (items t), weight w (tuples_from (fun a b => decide (a = b)) items
          (if t = t' then h.2 else items t') t' ts) < weight w (ordered_tuples items (t' :: ts)) by
        obtain ⟨h, hh, hlt⟩ := hlt
        have hmem : h.1 ∈ items t := by
          rw [← map_fst_heads (items t)]
          exact mem_map_of_mem hh
        refine sum_lt_sum _ _ (fun h hh => Nat.mul_le_mul_left _ (hle h hh)) ⟨h, hh, ?_⟩
        exact Nat.mul_lt_mul_of_pos_left hlt ((hpos t mem_cons_self).2 h.1 hmem)
      by_cases hhere : t = t' ∧ 2 ≤ (items t').length
      · -- The second round of the repeated place leaves out its first element.
        obtain ⟨rfl, htwo⟩ := hhere
        obtain ⟨a, b, m, hitems⟩ := exists_two_of_length htwo
        refine ⟨(b, b :: m), by simp [hitems], ?_⟩
        have hsuf : b :: m <:+ items t := hitems ▸ suffix_cons a (b :: m)
        refine (by simpa using weight_tuples_from_le items w ts t _ hsuf : _ ≤ _).trans_lt ?_
        rw [weight_ordered_tuples_cons, hitems]
        refine Nat.mul_lt_mul_of_pos_right ?_ hts.weight_pos
        have ha : 0 < w a := (hpos t mem_cons_self).2 a (by simp [hitems])
        simp
        omega
      · -- The loop over the next place starts at its first element.
        have hrep' : ¬ NoRepeats items (t' :: ts) := by
          intro hchain
          refine hrep (isChain_cons_cons.mpr ⟨fun heq => ?_, hchain⟩)
          by_contra hlen
          exact hhere ⟨heq, by omega⟩
        obtain ⟨a, m, hitems⟩ := exists_cons_of_ne_nil (hpos t mem_cons_self).1
        refine ⟨(a, a :: m), by simp [hitems], ?_⟩
        have hstart : (if t = t' then a :: m else items t') = items t' := by
          split
          case isTrue heq => rw [← hitems, heq]
          case isFalse => rfl
        rw [hstart]
        exact ih hpos' hrep'

end Repeats

end Tuples
