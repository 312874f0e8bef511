import VowpalWabbit.Framework.Sorting

/-! # Binary heaps

    `std::make_heap`, `std::push_heap` and `std::pop_heap`. A heap is a list in which no
    element is before its parent, at `(i - 1) / 2`, is what the comparator calls greater.
    Which of the many heaps of its elements an operation leaves is up to the library, so
    the operations are a structure with what is documented of them.
-/

namespace Cpp

variable {T : Type}

def IsHeap (c : Comparator T) (l : List T) : Prop :=
  ∀ i x p, 0 < i → l[i]? = some x → l[(i - 1) / 2]? = some p → c.lt p x = false

/-- The three algorithms. -/
structure HeapAlgorithms (c : Comparator T) where
  make_heap : List T → List T
  push_heap : List T → List T
  pop_heap : List T → List T
  make (l : List T) : IsHeap c (make_heap l) ∧ (make_heap l).Perm l
  push {l : List T} (x : T) : IsHeap c l → IsHeap c (push_heap (l ++ [x])) ∧ (push_heap (l ++ [x])).Perm (l ++ [x])
  pop {x : T} {l : List T} : IsHeap c (x :: l) →
    ∃ rest, pop_heap (x :: l) = rest ++ [x] ∧ IsHeap c rest ∧ rest.Perm l

/-- Nothing in a heap is greater than its first element. -/
theorem IsHeap.first {c : LinearComparator T} {x : T} {l : List T} (h : IsHeap c.toComparator (x :: l)) :
    ∀ y ∈ x :: l, c.lt x y = false := by
  -- by induction on the place, from a parent to its children
  have hplace : ∀ (i : Nat) (y : T), (x :: l)[i]? = some y → c.lt x y = false := by
    intro i
    induction i using Nat.strongRecOn with
    | ind i ih =>
      intro y hy
      by_cases hzero : i = 0
      · subst hzero
        rw [List.getElem?_cons_zero, Option.some.injEq] at hy
        rw [← hy]
        exact c.irrefl x
      · have hlt : i < (x :: l).length := (List.getElem?_eq_some_iff.mp hy).1
        have hparent : (i - 1) / 2 < i := by omega
        obtain ⟨p, hp⟩ : ∃ p, (x :: l)[(i - 1) / 2]? = some p :=
          ⟨_, List.getElem?_eq_getElem (Nat.lt_trans hparent hlt)⟩
        exact c.le_trans (h i y p (Nat.pos_of_ne_zero hzero) hy hp) (ih _ hparent p hp)
  intro y hy
  obtain ⟨i, hi⟩ := List.mem_iff_getElem?.mp hy
  exact hplace i y hi

/-- A list in descending order is a heap. -/
theorem isHeap_of_pairwise {c : Comparator T} {l : List T} (h : l.Pairwise fun p x => c.lt p x = false) :
    IsHeap c l := by
  intro i x p hi hx hp
  obtain ⟨hlt, rfl⟩ := List.getElem?_eq_some_iff.mp hx
  obtain ⟨hlt', rfl⟩ := List.getElem?_eq_some_iff.mp hp
  exact List.pairwise_iff_getElem.mp h _ _ hlt' hlt (by omega)

/-- The other direction of an order. -/
def LinearComparator.flip (c : LinearComparator T) : LinearComparator T where
  lt x y := c.lt y x
  irrefl := c.irrefl
  trans hxy hyz := c.trans hyz hxy
  total hxy hyx := c.total hyx hxy

theorem isHeap_sort_flip (c : LinearComparator T) (l : List T) : IsHeap c.toComparator (c.flip.sort l) :=
  isHeap_of_pairwise (c.flip.ordered_stable_sort id l)

/-- Heaps that are kept in descending order. -/
def LinearComparator.sorting_heap (c : LinearComparator T) : HeapAlgorithms c.toComparator where
  make_heap := c.flip.sort
  push_heap := c.flip.sort
  pop_heap
    | [] => []
    | x :: l => c.flip.sort l ++ [x]
  make l := ⟨isHeap_sort_flip c l, c.flip.perm_sort l⟩
  push _ _ := ⟨isHeap_sort_flip c _, c.flip.perm_sort _⟩
  pop _ := ⟨_, rfl, isHeap_sort_flip c _, c.flip.perm_sort _⟩

end Cpp
