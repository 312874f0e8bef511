import Mathlib.Data.List.Pairwise
import Mathlib.Data.List.Perm.Basic

/-! # Ordered containers

    `std::set`, `std::map` and `std::priority_queue` by what their iterators,
    or a sequence of `top` and `pop`, deliver: a strictly ascending list, one
    with strictly ascending keys, a descending one. The invariant is a field,
    so that only values a container can have are values here.
-/

namespace Cpp

open List

/-- The order that a container is given, a strict one. -/
structure Comparator (T : Type) where
  lt : T → T → Bool
  irrefl : ∀ x, lt x x = false
  trans : ∀ {x y z}, lt x y = true → lt y z = true → lt x z = true

/-! ## Sets -/

/-- `std::set`. -/
@[ext] structure OrderedSet {T : Type} (c : Comparator T) where
  elements : List T
  ascending : elements.Pairwise (c.lt · · = true)

namespace OrderedSet

variable {T : Type} {c : Comparator T}

def empty : OrderedSet c := ⟨[], List.Pairwise.nil⟩

/-- The elements after `insert`; an equivalent element stays. -/
def insert_list (c : Comparator T) (v : T) : List T → List T
  | [] => [v]
  | x :: xs =>
    if c.lt v x then v :: x :: xs
    else if c.lt x v then x :: insert_list c v xs
    else x :: xs

theorem mem_insert_list {v y : T} {xs : List T} (h : y ∈ insert_list c v xs) : y = v ∨ y ∈ xs := by
  induction xs with
  | nil =>
    left
    exact mem_singleton.mp h
  | cons x xs ih =>
    unfold insert_list at h
    split at h
    · exact mem_cons.mp h
    · split at h
      · rcases mem_cons.mp h with rfl | h
        · exact .inr mem_cons_self
        · rcases ih h with rfl | h
          · exact .inl rfl
          · exact .inr (mem_cons_of_mem _ h)
      · exact .inr h

theorem ascending_insert_list (v : T) {xs : List T} (h : xs.Pairwise (c.lt · · = true)) :
    (insert_list c v xs).Pairwise (c.lt · · = true) := by
  induction xs with
  | nil => exact pairwise_singleton _ _
  | cons x xs ih =>
    obtain ⟨hx, hxs⟩ := pairwise_cons.mp h
    unfold insert_list
    split
    · rename_i hvx
      refine pairwise_cons.mpr ⟨?_, h⟩
      intro y hy
      rcases mem_cons.mp hy with rfl | hy
      · exact hvx
      · exact c.trans hvx (hx y hy)
    · split
      · rename_i hxv
        refine pairwise_cons.mpr ⟨?_, ih hxs⟩
        intro y hy
        rcases mem_insert_list hy with rfl | hy
        · exact hxv
        · exact hx y hy
      · exact h

def insert (v : T) (s : OrderedSet c) : OrderedSet c :=
  ⟨insert_list c v s.elements, ascending_insert_list v s.ascending⟩

/-- Two elements stand for the same when neither is below the other. -/
def equivalent (c : Comparator T) (v x : T) : Bool := !c.lt v x && !c.lt x v

/-- `set.find(v) != set.end()`. -/
def contains (v : T) (s : OrderedSet c) : Bool := s.elements.any (equivalent c v)

def erase (v : T) (s : OrderedSet c) : OrderedSet c :=
  ⟨s.elements.filter (fun x => !equivalent c v x), s.ascending.filter _⟩

/-- An element above all others goes to the end. -/
theorem insert_list_last {v : T} {xs : List T} (h : ∀ x ∈ xs, c.lt x v = true) :
    insert_list c v xs = xs ++ [v] := by
  induction xs with
  | nil => rfl
  | cons x xs ih =>
    have hxv := h x mem_cons_self
    have hvx : ¬ c.lt v x = true := by
      intro hvx
      have := c.trans hxv hvx
      rw [c.irrefl] at this
      cases this
    rw [insert_list, if_neg hvx, if_pos hxv, ih (fun y hy => h y (mem_cons_of_mem _ hy)),
      cons_append]

/-- Inserting elements in their order puts them behind one another. -/
theorem elements_foldl_insert (s : OrderedSet c) (ys : List T)
    (h : (s.elements ++ ys).Pairwise (c.lt · · = true)) :
    (ys.foldl (fun s v => s.insert v) s).elements = s.elements ++ ys := by
  induction ys generalizing s with
  | nil => simp
  | cons y ys ih =>
    have hlast : (s.insert y).elements = s.elements ++ [y] := by
      apply insert_list_last
      intro x hx
      exact (pairwise_append.mp h).2.2 x hx y mem_cons_self
    rw [foldl_cons, ih, hlast, append_assoc, singleton_append]
    rw [hlast, append_assoc, singleton_append]
    exact h

end OrderedSet

/-! ## Maps -/

/-- `std::map`. -/
@[ext] structure OrderedMap {K : Type} (c : Comparator K) (V : Type) where
  entries : List (K × V)
  ascending : (entries.map Prod.fst).Pairwise (c.lt · · = true)

namespace OrderedMap

variable {K V : Type} {c : Comparator K}

def empty : OrderedMap c V := ⟨[], List.Pairwise.nil⟩

/-- The entries after `map[k] = v`; an equivalent key stays and gets the value. -/
def assign_list (c : Comparator K) (k : K) (v : V) : List (K × V) → List (K × V)
  | [] => [(k, v)]
  | (x, w) :: xs =>
    if c.lt k x then (k, v) :: (x, w) :: xs
    else if c.lt x k then (x, w) :: assign_list c k v xs
    else (x, v) :: xs

/-- On the keys, an assignment is an insertion. -/
theorem keys_assign_list (k : K) (v : V) (xs : List (K × V)) :
    (assign_list c k v xs).map Prod.fst = OrderedSet.insert_list c k (xs.map Prod.fst) := by
  induction xs with
  | nil => rfl
  | cons p xs ih =>
    rw [assign_list, map_cons, OrderedSet.insert_list]
    by_cases hkp : c.lt k p.1 = true
    · rw [if_pos hkp, if_pos hkp]
      rfl
    rw [if_neg hkp, if_neg hkp]
    by_cases hpk : c.lt p.1 k = true
    · rw [if_pos hpk, if_pos hpk, map_cons, ih]
    · rw [if_neg hpk, if_neg hpk]
      rfl

/-- `map[k] = v`. -/
def assign (k : K) (v : V) (m : OrderedMap c V) : OrderedMap c V :=
  ⟨assign_list c k v m.entries, by
    rw [keys_assign_list]
    exact OrderedSet.ascending_insert_list k m.ascending⟩

def keys (m : OrderedMap c V) : List K := m.entries.map Prod.fst

/-- The value at a key, `map.find(k)`. -/
def find (k : K) (m : OrderedMap c V) : Option V :=
  (m.entries.find? fun p => OrderedSet.equivalent c k p.1).map Prod.snd

theorem assign_list_last {k : K} {v : V} {xs : List (K × V)}
    (h : ∀ x ∈ xs, c.lt x.1 k = true) : assign_list c k v xs = xs ++ [(k, v)] := by
  induction xs with
  | nil => rfl
  | cons p xs ih =>
    have hpk := h p mem_cons_self
    have hkp : ¬ c.lt k p.1 = true := by
      intro hkp
      have := c.trans hpk hkp
      rw [c.irrefl] at this
      cases this
    rw [assign_list, if_neg hkp, if_pos hpk, ih (fun y hy => h y (mem_cons_of_mem _ hy)),
      cons_append]

/-- Assigning to keys in their order puts the entries behind one another. -/
theorem entries_foldl_assign (m : OrderedMap c V) (ys : List (K × V))
    (h : ((m.entries ++ ys).map Prod.fst).Pairwise (c.lt · · = true)) :
    (ys.foldl (fun m p => m.assign p.1 p.2) m).entries = m.entries ++ ys := by
  induction ys generalizing m with
  | nil => simp
  | cons y ys ih =>
    have hlast : (m.assign y.1 y.2).entries = m.entries ++ [y] := by
      apply assign_list_last
      intro x hx
      rw [map_append] at h
      exact (pairwise_append.mp h).2.2 x.1 (mem_map_of_mem hx) y.1 mem_cons_self
    rw [foldl_cons, ih, hlast, append_assoc, singleton_append]
    rw [hlast, append_assoc, singleton_append]
    exact h

end OrderedMap

/-! ## Priority queues -/

/-- `std::priority_queue`: the elements in the order in which they are popped. -/
structure PriorityQueue {T : Type} (c : Comparator T) where
  popped : List T
  descending : popped.Pairwise (c.lt · · = false)

namespace PriorityQueue

variable {T : Type} {c : Comparator T}

def empty : PriorityQueue c := ⟨[], List.Pairwise.nil⟩

/-- A `push`. Where it puts the new element among equivalent ones is left
    open by the library. -/
structure Push (c : Comparator T) where
  push : T → PriorityQueue c → PriorityQueue c
  perm : ∀ v q, (push v q).popped.Perm (v :: q.popped)

/-- The new element goes behind those that are not below it. -/
def push_list (c : Comparator T) (v : T) : List T → List T
  | [] => [v]
  | x :: xs => if c.lt x v then v :: x :: xs else x :: push_list c v xs

theorem push_list_perm (v : T) (xs : List T) : (push_list c v xs).Perm (v :: xs) := by
  induction xs with
  | nil => exact List.Perm.refl _
  | cons x xs ih =>
    unfold push_list
    split
    · exact List.Perm.refl _
    · exact (ih.cons x).trans (List.Perm.swap v x xs)

theorem descending_push_list (v : T) {xs : List T} (h : xs.Pairwise (c.lt · · = false)) :
    (push_list c v xs).Pairwise (c.lt · · = false) := by
  induction xs with
  | nil => exact pairwise_singleton _ _
  | cons x xs ih =>
    obtain ⟨hx, hxs⟩ := pairwise_cons.mp h
    unfold push_list
    split
    · rename_i hxv
      refine pairwise_cons.mpr ⟨?_, h⟩
      intro y hy
      rw [Bool.eq_false_iff]
      intro hvy
      -- `x` would be below `y`, which comes after it
      have hxy := c.trans hxv hvy
      rcases mem_cons.mp hy with rfl | hy
      · rw [c.irrefl] at hxy
        cases hxy
      · rw [hx y hy] at hxy
        cases hxy
    · rename_i hxv
      refine pairwise_cons.mpr ⟨?_, ih hxs⟩
      intro y hy
      rcases mem_cons.mp ((push_list_perm v xs).mem_iff.mp hy) with rfl | hy
      · exact Bool.eq_false_iff.mpr hxv
      · exact hx y hy

/-- A `push` that keeps equivalent elements in the order of their arrival. -/
def stable_push (c : Comparator T) : Push c where
  push v q := ⟨push_list c v q.popped, descending_push_list v q.descending⟩
  perm v q := push_list_perm v q.popped

theorem popped_foldl_push (p : Push c) (q : PriorityQueue c) (ys : List T) :
    (ys.foldl (fun q v => p.push v q) q).popped.Perm (q.popped ++ ys) := by
  induction ys generalizing q with
  | nil => simp
  | cons y ys ih =>
    rw [foldl_cons]
    refine (ih _).trans ((List.Perm.append_right ys (p.perm y q)).trans ?_)
    exact perm_middle.symm

end PriorityQueue

/-! ## Elements and what they stand for -/

section Represented

variable {T U W X : Type} (c : Comparator T) (decode : U → T)

/-- The order of representations is that of the values. -/
def Comparator.on : Comparator U where
  lt x y := c.lt (decode x) (decode y)
  irrefl x := c.irrefl (decode x)
  trans hxy hyz := c.trans hxy hyz

variable {c decode}

def OrderedSet.decoded (s : OrderedSet (c.on decode)) : OrderedSet c :=
  ⟨s.elements.map decode, pairwise_map.mpr s.ascending⟩

def OrderedSet.encoded {encode : T → U} (h : ∀ x, decode (encode x) = x) (s : OrderedSet c) :
    OrderedSet (c.on decode) :=
  ⟨s.elements.map encode, by
    rw [pairwise_map]
    refine s.ascending.imp ?_
    intro x y hxy
    show c.lt (decode (encode x)) (decode (encode y)) = true
    rwa [h, h]⟩

theorem OrderedSet.decoded_encoded {encode : T → U} (h : ∀ x, decode (encode x) = x)
    (s : OrderedSet c) : (s.encoded h).decoded = s := by
  apply OrderedSet.ext
  show (s.elements.map encode).map decode = s.elements
  rw [map_map, show decode ∘ encode = id from funext h, map_id]

def OrderedMap.decoded (decode_value : X → W) (m : OrderedMap (c.on decode) X) : OrderedMap c W :=
  ⟨m.entries.map fun p => (decode p.1, decode_value p.2), by
    have hkeys := pairwise_map.mp m.ascending
    rw [map_map, pairwise_map]
    exact hkeys⟩

def OrderedMap.encoded {encode : T → U} (h : ∀ x, decode (encode x) = x) (encode_value : W → X)
    (m : OrderedMap c W) : OrderedMap (c.on decode) X :=
  ⟨m.entries.map fun p => (encode p.1, encode_value p.2), by
    have hkeys := pairwise_map.mp m.ascending
    rw [map_map, pairwise_map]
    refine hkeys.imp ?_
    intro p q hpq
    show c.lt (decode (encode p.1)) (decode (encode q.1)) = true
    rwa [h, h]⟩

theorem OrderedMap.decoded_encoded {encode : T → U} (h : ∀ x, decode (encode x) = x)
    {encode_value : W → X} {decode_value : X → W} (hvalue : ∀ x, decode_value (encode_value x) = x)
    (m : OrderedMap c W) : (m.encoded h encode_value).decoded decode_value = m := by
  apply OrderedMap.ext
  show (m.entries.map _).map _ = m.entries
  rw [map_map]
  apply (map_congr_left _).trans (map_id _)
  intro p _
  exact Prod.ext (h p.1) (hvalue p.2)

def PriorityQueue.decoded (q : PriorityQueue (c.on decode)) : PriorityQueue c :=
  ⟨q.popped.map decode, pairwise_map.mpr q.descending⟩

end Represented

end Cpp
