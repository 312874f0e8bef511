import VowpalWabbit.Framework.Containers
import Mathlib.Data.List.Sort
import Mathlib.Data.List.Destutter

/-! # Linear orders, sorting and removing duplicates

    Orders in which two elements that are not comparable are equal, those of
    `std::pair` and `std::vector` among them, `std::stable_sort` and
    `std::unique`.
-/

namespace Cpp

open List OrderedSet

/-- A linear order. -/
structure LinearComparator (T : Type) extends Comparator T where
  total : ∀ {x y}, lt x y = false → lt y x = false → x = y

namespace LinearComparator

variable {T U K : Type}

theorem asymm (c : LinearComparator T) {x y : T} (h : c.lt x y = true) : c.lt y x = false := by
  by_contra hyx
  have hxx := c.trans h (by simpa using hyx)
  rw [c.irrefl] at hxx
  cases hxx

/-- Not less is transitive. -/
theorem le_trans (c : LinearComparator T) {x y z : T} (hxy : c.lt y x = false)
    (hyz : c.lt z y = false) : c.lt z x = false := by
  by_contra hzx
  have hzx : c.lt z x = true := by simpa using hzx
  cases h : c.lt x y with
  | true =>
    have hzy := c.trans hzx h
    rw [hyz] at hzy
    cases hzy
  | false =>
    obtain rfl := c.total h hxy
    rw [hyz] at hzx
    cases hzx

/-- The order of the natural numbers that stand for the elements. -/
def of_key (key : T → Nat) (hinj : ∀ x y, key x = key y → x = y) : LinearComparator T where
  lt x y := decide (key x < key y)
  irrefl x := by simp
  trans := by
    intro x y z hxy hyz
    simp only [decide_eq_true_eq] at *
    omega
  total := by
    intro x y hxy hyx
    simp only [decide_eq_false_iff_not] at hxy hyx
    exact hinj x y (by omega)

/-- One step of a comparison that goes on when two elements are equal. -/
theorem lex_step (c : LinearComparator T) (x y : T) (rest : Bool) :
    (c.lt x y || (!c.lt y x && rest)) = true ↔ c.lt x y = true ∨ (x = y ∧ rest = true) := by
  constructor
  · intro h
    cases hxy : c.lt x y with
    | true => exact Or.inl rfl
    | false =>
      simp only [hxy, Bool.false_or, Bool.and_eq_true, Bool.not_eq_true'] at h
      exact Or.inr ⟨c.total hxy h.1, h.2⟩
  · intro h
    rcases h with h | ⟨rfl, h⟩
    · simp [h]
    · simp [c.irrefl, h]

theorem lex_step_false (c : LinearComparator T) {x y : T} {rest rest' : Bool}
    (h : (c.lt x y || (!c.lt y x && rest)) = false) (h' : (c.lt y x || (!c.lt x y && rest')) = false) :
    x = y ∧ rest = false ∧ rest' = false := by
  simp only [Bool.or_eq_false_iff, Bool.and_eq_false_iff, Bool.not_eq_false'] at h h'
  refine ⟨c.total h.1 h'.1, ?_, ?_⟩
  · rcases h.2 with hyx | hrest
    · rw [h'.1] at hyx
      cases hyx
    · exact hrest
  · rcases h'.2 with hxy | hrest
    · rw [h.1] at hxy
      cases hxy
    · exact hrest

/-- `std::pair`: by the first components, and by the second ones if these are
    equal. -/
def prod (c : LinearComparator T) (d : LinearComparator U) : LinearComparator (T × U) where
  lt x y := c.lt x.1 y.1 || (!c.lt y.1 x.1 && d.lt x.2 y.2)
  irrefl x := by simp [c.irrefl, d.irrefl]
  trans := by
    intro x y z hxy hyz
    rw [lex_step] at hxy hyz ⊢
    rcases hxy with hxy | ⟨hxy, hxy'⟩
    · rcases hyz with hyz | ⟨hyz, -⟩
      · exact Or.inl (c.trans hxy hyz)
      · exact Or.inl (hyz ▸ hxy)
    · rcases hyz with hyz | ⟨hyz, hyz'⟩
      · exact Or.inl (hxy ▸ hyz)
      · exact Or.inr ⟨hxy.trans hyz, d.trans hxy' hyz'⟩
  total := by
    intro x y hxy hyx
    obtain ⟨hfst, hsnd, hsnd'⟩ := c.lex_step_false hxy hyx
    exact Prod.ext hfst (d.total hsnd hsnd')

/-- `std::lexicographical_compare`. -/
def lex_lt (c : LinearComparator T) : List T → List T → Bool
  | _, [] => false
  | [], _ :: _ => true
  | x :: xs, y :: ys => c.lt x y || (!c.lt y x && lex_lt c xs ys)

theorem lex_lt_irrefl (c : LinearComparator T) (xs : List T) : c.lex_lt xs xs = false := by
  induction xs with
  | nil => rfl
  | cons x xs ih => simp [lex_lt, c.irrefl, ih]

theorem lex_lt_trans (c : LinearComparator T) {xs ys zs : List T} (hxy : c.lex_lt xs ys = true)
    (hyz : c.lex_lt ys zs = true) : c.lex_lt xs zs = true := by
  induction xs generalizing ys zs with
  | nil =>
    cases zs with
    | nil => cases ys <;> cases hyz
    | cons z zs => rfl
  | cons x xs ih =>
    cases ys with
    | nil => cases hxy
    | cons y ys =>
      cases zs with
      | nil => cases hyz
      | cons z zs =>
        rw [lex_lt, lex_step] at hxy hyz ⊢
        rcases hxy with hxy | ⟨hxy, hxy'⟩
        · rcases hyz with hyz | ⟨hyz, -⟩
          · exact Or.inl (c.trans hxy hyz)
          · exact Or.inl (hyz ▸ hxy)
        · rcases hyz with hyz | ⟨hyz, hyz'⟩
          · exact Or.inl (hxy ▸ hyz)
          · exact Or.inr ⟨hxy.trans hyz, ih hxy' hyz'⟩

theorem lex_lt_total (c : LinearComparator T) {xs ys : List T} (hxy : c.lex_lt xs ys = false)
    (hyx : c.lex_lt ys xs = false) : xs = ys := by
  induction xs generalizing ys with
  | nil =>
    cases ys with
    | nil => rfl
    | cons y ys => cases hxy
  | cons x xs ih =>
    cases ys with
    | nil => cases hyx
    | cons y ys =>
      obtain ⟨hhead, htail, htail'⟩ := c.lex_step_false hxy hyx
      rw [hhead, ih htail htail']

/-- The order of `std::vector`. -/
def lex (c : LinearComparator T) : LinearComparator (List T) :=
  ⟨⟨c.lex_lt, c.lex_lt_irrefl, c.lex_lt_trans⟩, c.lex_lt_total⟩

/-! ## Sorting -/

section Ordered

variable (c : LinearComparator K) (key : T → K)

/-- `std::stable_sort` by a key of the elements. -/
def stable_sort (l : List T) : List T := l.insertionSort fun x y => c.lt (key y) (key x) = false

theorem perm_stable_sort (l : List T) : (c.stable_sort key l).Perm l := perm_insertionSort _ l

theorem ordered_stable_sort (l : List T) :
    (c.stable_sort key l).Pairwise fun x y => c.lt (key y) (key x) = false := by
  have htotal : Std.Total fun x y : T => c.lt (key y) (key x) = false := by
    constructor
    intro x y
    cases h : c.lt (key y) (key x) with
    | true => exact Or.inr (c.asymm h)
    | false => exact Or.inl rfl
  have htrans : IsTrans T fun x y : T => c.lt (key y) (key x) = false :=
    ⟨fun _ _ _ hxy hyz => c.le_trans hxy hyz⟩
  exact pairwise_insertionSort _ l

/-- The sort is stable: elements with the same key keep their order. -/
theorem stable_stable_sort {R : T → T → Prop} {l : List T} (h : l.Pairwise R) :
    (c.stable_sort key l).Pairwise fun x y => key x = key y → R x y := by
  have hinsert : ∀ (x : T) (m : List T), (∀ y ∈ m, R x y) → (m.Pairwise fun x y => key x = key y → R x y) →
      (m.orderedInsert (fun x y => c.lt (key y) (key x) = false) x).Pairwise fun x y => key x = key y → R x y := by
    intro x m hx hm
    induction m with
    | nil => exact pairwise_singleton _ x
    | cons y m ih =>
      rw [orderedInsert_cons]
      obtain ⟨hy, hm'⟩ := pairwise_cons.mp hm
      split
      · exact pairwise_cons.mpr ⟨fun z hz _ => hx z hz, hm⟩
      · next hlt =>
        refine pairwise_cons.mpr ⟨fun z hz => ?_, ih (fun z hz => hx z (mem_cons_of_mem y hz)) hm'⟩
        rcases (mem_orderedInsert _).mp hz with rfl | hz
        · intro heq
          rw [heq, c.irrefl] at hlt
          exact absurd rfl hlt
        · exact hy z hz
  induction l with
  | nil => exact List.Pairwise.nil
  | cons x l ih =>
    obtain ⟨hx, hl⟩ := pairwise_cons.mp h
    exact hinsert x _ (fun y hy => hx y ((perm_insertionSort _ l).subset hy)) (ih hl)

/-- `std::sort` of the elements themselves; equal ones cannot be told apart. -/
def sort (l : List K) : List K := c.stable_sort id l

theorem perm_sort (l : List K) : (c.sort l).Perm l := c.perm_stable_sort id l

/-- Sorting forgets exactly the order. -/
theorem sort_eq_iff {l m : List K} : c.sort l = c.sort m ↔ l.Perm m := by
  constructor
  · intro h
    exact (c.perm_sort l).symm.trans (h ▸ c.perm_sort m)
  · intro h
    have hperm : (c.sort l).Perm (c.sort m) := (c.perm_sort l).trans (h.trans (c.perm_sort m).symm)
    refine hperm.eq_of_pairwise (fun x y _ _ hxy hyx => ?_) (c.ordered_stable_sort id l)
      (c.ordered_stable_sort id m)
    exact c.total hyx hxy

end Ordered

/-! ## Removing duplicates -/

section Unique

variable [DecidableEq K]

/-- `std::unique` by a key: of neighbours with the same key the first is kept. -/
def unique (key : T → K) (l : List T) : List T := l.destutter fun x y => key x ≠ key y

theorem unique_sublist (key : T → K) (l : List T) : (unique key l).Sublist l :=
  destutter_sublist _ l

theorem destutter_ascending (c : LinearComparator K) {key : T → K} (l : List T) : ∀ a : T,
    (a :: l).Pairwise (fun x y => c.lt (key y) (key x) = false) →
      (l.destutter' (fun x y => key x ≠ key y) a).Pairwise fun x y => c.lt (key x) (key y) = true := by
  induction l with
  | nil => exact fun a _ => pairwise_singleton _ a
  | cons b l ih =>
    intro a hordered
    obtain ⟨ha, hbl⟩ := pairwise_cons.mp hordered
    by_cases hab : key a ≠ key b
    · rw [destutter'_cons, if_pos hab]
      refine pairwise_cons.mpr ⟨fun x hx => ?_, ih b hbl⟩
      -- `a` is below `b`, and `b` is not above `x`.
      have hlt : c.lt (key a) (key b) = true := by
        by_contra h
        exact hab (c.total (by simpa using h) (ha b mem_cons_self))
      have hle : c.lt (key x) (key b) = false := by
        rcases mem_cons.mp ((destutter'_sublist _ _ b).subset hx) with rfl | hx
        · exact c.irrefl _
        · exact (pairwise_cons.mp hbl).1 x hx
      by_contra h
      have hle' := c.le_trans hle (by simpa using h)
      rw [hlt] at hle'
      cases hle'
    · rw [destutter'_cons, if_neg hab]
      exact ih a (pairwise_cons.mpr
        ⟨fun x hx => ha x (mem_cons_of_mem b hx), (pairwise_cons.mp hbl).2⟩)

theorem mem_keys_destutter (key : T → K) (l : List T) : ∀ (a : T) (k : K),
    k ∈ (l.destutter' (fun x y => key x ≠ key y) a).map key ↔ k ∈ (a :: l).map key := by
  induction l with
  | nil => exact fun a k => Iff.rfl
  | cons b l ih =>
    intro a k
    by_cases hab : key a ≠ key b
    · rw [destutter'_cons, if_pos hab, map_cons, mem_cons, ih b k]
      simp
    · rw [destutter'_cons, if_neg hab, ih a k]
      have heq : key a = key b := not_not.mp hab
      simp [heq]

/-- After a sort by the key, each key is kept once. -/
theorem nodup_keys_unique (c : LinearComparator K) (key : T → K) (l : List T) :
    ((unique key (c.stable_sort key l)).map key).Nodup := by
  have hordered := c.ordered_stable_sort key l
  unfold unique
  cases hs : c.stable_sort key l with
  | nil => simp
  | cons a m =>
    rw [hs] at hordered
    refine pairwise_map.mpr ((destutter_ascending c m a hordered).imp ?_)
    intro x y hlt heq
    rw [heq, c.irrefl] at hlt
    cases hlt

/-- Of the elements with the same key, the first is kept. -/
theorem first_of_mem_unique (c : LinearComparator K) {key : T → K} {l : List T}
    (h : l.Pairwise fun x y => c.lt (key y) (key x) = false) {y : T} (hy : y ∈ unique key l) :
    ∃ front back, l = front ++ y :: back ∧ ∀ x ∈ front, key x ≠ key y := by
  suffices hfirst : ∀ a l, (a :: l).Pairwise (fun x y => c.lt (key y) (key x) = false) →
      y ∈ l.destutter' (fun x y => key x ≠ key y) a →
      ∃ front back, a :: l = front ++ y :: back ∧ ∀ x ∈ front, key x ≠ key y by
    cases l with
    | nil => cases hy
    | cons a l => exact hfirst a l h hy
  intro a l
  induction l generalizing a with
  | nil =>
    intro _ hy
    obtain rfl := mem_singleton.mp hy
    exact ⟨[], [], rfl, fun x hx => absurd hx not_mem_nil⟩
  | cons b l ih =>
    intro hordered hy
    obtain ⟨ha, hbl⟩ := pairwise_cons.mp hordered
    rw [destutter'_cons] at hy
    split at hy
    · next hab =>
      rcases mem_cons.mp hy with rfl | hy
      · exact ⟨[], b :: l, rfl, fun x hx => absurd hx not_mem_nil⟩
      · obtain ⟨front, back, heq, hfront⟩ := ih b hbl hy
        refine ⟨a :: front, back, by rw [heq, cons_append], forall_mem_cons.mpr ⟨fun hay => ?_, hfront⟩⟩
        -- `a` is below `b`, which is not above `y`
        have hyb : c.lt (key y) (key b) = false := by
          rcases mem_cons.mp (show y ∈ b :: l by rw [heq]; simp) with rfl | hmem
          · exact c.irrefl _
          · exact (pairwise_cons.mp hbl).1 y hmem
        exact hab (c.total (hay ▸ hyb) (ha b mem_cons_self))
    · next hab =>
      obtain ⟨front, back, heq, hfront⟩ := ih a (hordered.sublist (sublist_cons_self b l |>.cons_cons a)) hy
      cases front with
      | nil =>
        obtain ⟨rfl, rfl⟩ := cons.inj heq
        exact ⟨[], b :: l, rfl, fun x hx => absurd hx not_mem_nil⟩
      | cons x front =>
        obtain ⟨rfl, rfl⟩ := cons.inj heq
        obtain ⟨hx, hfront⟩ := forall_mem_cons.mp hfront
        exact ⟨a :: b :: front, back, rfl, forall_mem_cons.mpr
          ⟨hx, forall_mem_cons.mpr ⟨not_not.mp hab ▸ hx, hfront⟩⟩⟩

theorem mem_keys_unique (key : T → K) (l : List T) (k : K) :
    k ∈ (unique key l).map key ↔ k ∈ l.map key := by
  cases l with
  | nil => exact Iff.rfl
  | cons a m => exact mem_keys_destutter key m a k

end Unique

/-! ## Sets -/

section Sets

variable {c : LinearComparator T}

theorem nodup_elements (s : OrderedSet c.toComparator) : s.elements.Nodup := by
  refine s.ascending.imp ?_
  intro x y hlt heq
  rw [heq, c.irrefl] at hlt
  cases hlt

theorem mem_insert_list_iff (v y : T) (xs : List T) :
    y ∈ insert_list c.toComparator v xs ↔ y = v ∨ y ∈ xs := by
  induction xs with
  | nil => simp [insert_list]
  | cons x xs ih =>
    unfold insert_list
    split
    · exact mem_cons
    · split
      · rw [mem_cons, ih, mem_cons]
        exact or_left_comm
      · -- An element that is not comparable to `v` is `v`.
        rename_i hvx hxv
        obtain rfl : v = x := c.total (by simpa using hvx) (by simpa using hxv)
        simp

theorem mem_insert_iff (s : OrderedSet c.toComparator) (v y : T) :
    y ∈ (s.insert v).elements ↔ y = v ∨ y ∈ s.elements := mem_insert_list_iff v y s.elements

theorem equivalent_iff (v x : T) : OrderedSet.equivalent c.toComparator v x = true ↔ v = x := by
  unfold equivalent
  rw [Bool.and_eq_true, Bool.not_eq_true', Bool.not_eq_true']
  constructor
  · rintro ⟨hvx, hxv⟩
    exact c.total hvx hxv
  · rintro rfl
    exact ⟨c.irrefl v, c.irrefl v⟩

theorem mem_erase_iff (s : OrderedSet c.toComparator) (v y : T) :
    y ∈ (s.erase v).elements ↔ y ∈ s.elements ∧ y ≠ v := by
  unfold erase
  simp only [mem_filter, Bool.not_eq_true', Bool.eq_false_iff, ne_eq, equivalent_iff]
  exact and_congr_right fun _ => not_congr eq_comm

/-- A set is determined by its elements. -/
theorem eq_of_mem_iff {s s' : OrderedSet c.toComparator}
    (h : ∀ y, y ∈ s.elements ↔ y ∈ s'.elements) : s = s' := by
  have hperm := (perm_ext_iff_of_nodup (nodup_elements s) (nodup_elements s')).mpr h
  refine OrderedSet.ext (hperm.eq_of_pairwise (fun x y _ _ hxy hyx => ?_) s.ascending s'.ascending)
  rw [c.asymm hxy] at hyx
  cases hyx

/-- Inserting what is there changes nothing. -/
theorem insert_list_of_mem {v : T} {xs : List T} (hxs : xs.Pairwise (c.lt · · = true))
    (hv : v ∈ xs) : insert_list c.toComparator v xs = xs := by
  let s : OrderedSet c.toComparator := ⟨xs, hxs⟩
  have heq : s.insert v = s := by
    refine eq_of_mem_iff fun y => ?_
    rw [mem_insert_iff]
    exact or_iff_right_of_imp fun h => h ▸ hv
  exact congrArg elements heq

/-- A loop that inserts elements. -/
theorem mem_foldl_iff {U : Type} {step : OrderedSet c.toComparator → U → OrderedSet c.toComparator}
    (inserted : U → T → Prop)
    (hstep : ∀ s u y, y ∈ (step s u).elements ↔ inserted u y ∨ y ∈ s.elements) (l : List U)
    (s : OrderedSet c.toComparator) (y : T) :
    y ∈ (l.foldl step s).elements ↔ (∃ u ∈ l, inserted u y) ∨ y ∈ s.elements := by
  induction l generalizing s with
  | nil => simp
  | cons u l ih =>
    rw [foldl_cons, ih, hstep]
    simp only [mem_cons, exists_eq_or_imp]
    rw [or_assoc]
    exact or_left_comm

/-- A set that contains another one and has not more elements. -/
theorem eq_of_subset_of_length {s s' : OrderedSet c.toComparator}
    (hsub : ∀ y ∈ s.elements, y ∈ s'.elements) (hlen : s.elements.length = s'.elements.length) :
    s = s' := by
  have hsubperm := subperm_of_subset (nodup_elements s) hsub
  have hperm := hsubperm.perm_of_length_le (Nat.le_of_eq hlen.symm)
  exact eq_of_mem_iff fun y => hperm.mem_iff

def insert_range (s : OrderedSet c.toComparator) (l : List T) : OrderedSet c.toComparator :=
  l.foldl (fun s v => s.insert v) s

theorem mem_insert_range_iff (s : OrderedSet c.toComparator) (l : List T) (y : T) :
    y ∈ (insert_range s l).elements ↔ y ∈ l ∨ y ∈ s.elements := by
  unfold insert_range
  rw [mem_foldl_iff (fun v y => y = v) mem_insert_iff]
  simp

/-- The size tells whether something was inserted. -/
theorem insert_range_eq_iff (s : OrderedSet c.toComparator) (l : List T) :
    s.elements.length = (insert_range s l).elements.length ↔ ∀ y ∈ l, y ∈ s.elements := by
  constructor
  · intro hlen y hy
    have heq : s = insert_range s l :=
      eq_of_subset_of_length (fun z hz => (mem_insert_range_iff s l z).mpr (Or.inr hz)) hlen
    rw [heq]
    exact (mem_insert_range_iff s l y).mpr (Or.inl hy)
  · intro hmem
    have heq : insert_range s l = s := by
      refine eq_of_mem_iff fun z => ?_
      rw [mem_insert_range_iff]
      exact or_iff_right_of_imp (hmem z)
    rw [heq]

end Sets

end LinearComparator

end Cpp
