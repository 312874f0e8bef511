import VowpalWabbit.Interactions.Predict
import Mathlib.Data.List.Nodup
import Mathlib.Data.List.Chain

/-! # Interactions as nested loops

    What the features of an interaction are, whatever way they are generated:
    one loop for each range, the innermost one for the last. Without
    permutations a loop over the same range as the loop around it starts where
    that one stands. Each round of the innermost loop gives a tuple of features,
    whose values are multiplied and whose indices are hashed together.
-/

namespace VW

open List

variable {V : Type}

/-- A loop over the range `r'` inside a loop over `r` starts at the position of
    the outer one. -/
def FeaturesRange.same_loop (permutations : Bool) (r r' : FeaturesRange V) : Bool :=
  !permutations && r.begin_it == r'.begin_it

/-- The loops over `r` from `start` on, and over `rs` inside it. A feature of a
    tuple comes with its position in its range. -/
def nested_loop (permutations : Bool) :
    FeaturesRange V → List (FeaturesRange V) → Nat → List (List ((V × FeatureIndex) × Nat))
  | r, [], start => (r.features.zipIdx.drop start).map fun f => [f]
  | r, r' :: rs, start => (r.features.zipIdx.drop start).flatMap fun f =>
      (nested_loop permutations r' rs (loop_start (r.same_loop permutations r') f.2)).map (f :: ·)

/-- The tuples of an interaction. -/
def nested_loops (permutations : Bool) : List (FeaturesRange V) → List (List ((V × FeatureIndex) × Nat))
  | [] => []
  | r :: rs => nested_loop permutations r rs 0

/-- The number of features that calls of the kernel pass on. -/
def call_features (calls : List (KernelCall V)) : Nat := (calls.map (·.features.length)).sum

@[simp] theorem call_features_append (calls calls' : List (KernelCall V)) :
    call_features (calls ++ calls') = call_features calls + call_features calls' := by
  simp [call_features]

variable {ranges : List (FeaturesRange V)}

section Combine

variable [Mul V]

/-- The feature of one more range joins the others: their value is multiplied by
    its value, and `FNV_PRIME` times their hash is combined with its index. -/
def cross (acc f : V × FeatureIndex) : V × FeatureIndex :=
  (interaction_value acc.1 f.1, f.2 ^^^ (FNV_PRIME * acc.2))

/-- What is passed on for a feature of the interaction. -/
def shifted (offset : BitVec 64) (f : V × FeatureIndex) : V × FeatureIndex := (f.1, f.2 + offset)

/-- The feature generated for a tuple. -/
def combined [One V] (offset : BitVec 64) : List ((V × FeatureIndex) × Nat) → V × FeatureIndex
  | [] => (1, offset)
  | f :: fs => shifted offset ((fs.map Prod.fst).foldl cross f.1)

/-- The kernel calls of the loops over `r` from `start` on and over `rs`; `acc`
    combines the features of the loops around them. -/
def nested_calls (permutations : Bool) :
    V × FeatureIndex → FeaturesRange V → List (FeaturesRange V) → Nat → List (KernelCall V)
  | acc, r, [], start => [⟨r.features.drop start, acc.1, FNV_PRIME * acc.2⟩]
  | acc, r, r' :: rs, start => (r.features.zipIdx.drop start).flatMap fun f =>
      nested_calls permutations (cross acc f.1) r' rs
        (loop_start (r.same_loop permutations r') f.2)

def interaction_calls (permutations : Bool) : List (FeaturesRange V) → List (KernelCall V)
  | r :: r' :: rs => r.features.zipIdx.flatMap fun f =>
      nested_calls permutations f.1 r' rs (loop_start (r.same_loop permutations r') f.2)
  | _ => []

theorem call_features_eq (offset : BitVec 64) (calls : List (KernelCall V)) :
    call_features calls = (calls.flatMap (inner_kernel offset)).length := by
  simp [call_features, length_flatMap, inner_kernel]

/-- The calls pass on what the tuples of the loops combine to. -/
theorem nested_calls_flatMap (permutations : Bool) (offset : BitVec 64) (r : FeaturesRange V)
    (rs : List (FeaturesRange V)) (acc : V × FeatureIndex) (start : Nat) :
    (nested_calls permutations acc r rs start).flatMap (inner_kernel offset) =
      (nested_loop permutations r rs start).map fun t =>
        shifted offset ((t.map Prod.fst).foldl cross acc) := by
  induction rs generalizing r acc start with
  | nil =>
    -- The innermost loop is the kernel itself.
    have hzip : r.features.drop start = (r.features.zipIdx.drop start).map Prod.fst := by
      rw [map_drop, zipIdx_map_fst]
    simp only [nested_calls, nested_loop, flatMap_cons, flatMap_nil, append_nil,
      inner_kernel, hzip, map_map]
    rfl
  | cons r' rs ih =>
    simp only [nested_calls, nested_loop, flatMap_assoc, map_flatMap, map_map, ih]
    rfl

theorem interaction_calls_flatMap [One V] (permutations : Bool) (offset : BitVec 64)
    (hlen : 2 ≤ ranges.length) :
    (interaction_calls permutations ranges).flatMap (inner_kernel offset) =
      (nested_loops permutations ranges).map (combined offset) := by
  match ranges, hlen with
  | r :: r' :: rs, _ =>
    simp only [interaction_calls, nested_loops, nested_loop, drop_zero, flatMap_assoc,
      map_flatMap, map_map, nested_calls_flatMap]
    rfl

end Combine

/-! ## Every tuple exactly once -/

/-- A tuple of features of the ranges, each with its position. Without
    permutations the positions in equal adjacent ranges do not decrease. -/
inductive TupleOf (permutations : Bool) :
    List (FeaturesRange V) → List ((V × FeatureIndex) × Nat) → Prop
  | last {r : FeaturesRange V} {f : V × FeatureIndex} {i : Nat} (h : r.features[i]? = some f) :
      TupleOf permutations [r] [(f, i)]
  | more {r r' : FeaturesRange V} {rs : List (FeaturesRange V)} {f g : V × FeatureIndex} {i j : Nat}
      {t : List ((V × FeatureIndex) × Nat)} (h : r.features[i]? = some f)
      (hle : r.same_loop permutations r' = true → i ≤ j)
      (ht : TupleOf permutations (r' :: rs) ((g, j) :: t)) :
      TupleOf permutations (r :: r' :: rs) ((f, i) :: (g, j) :: t)

variable {r : FeaturesRange V}

theorem mem_zipIdx_drop {start : Nat} {f : (V × FeatureIndex) × Nat} :
    f ∈ r.features.zipIdx.drop start ↔ start ≤ f.2 ∧ r.features[f.2]? = some f.1 := by
  rw [mem_drop_iff_getElem]
  simp only [getElem_zipIdx, length_zipIdx]
  constructor
  · intro ⟨i, hi, hf⟩
    subst hf
    simp
  · intro ⟨hle, hget⟩
    obtain ⟨hlt, hf⟩ := List.getElem?_eq_some_iff.mp hget
    refine ⟨f.2 - start, by omega, ?_⟩
    have hpos : start + (f.2 - start) = f.2 := by omega
    simp only [hpos, Nat.zero_add]
    exact Prod.ext (by simpa [hpos] using hf) (by simp)

variable {t : List ((V × FeatureIndex) × Nat)} {permutations : Bool}

/-- The loops reach exactly the tuples whose first position is at `start` or
    after it. -/
theorem mem_nested_loop {rs : List (FeaturesRange V)} {start : Nat} :
    t ∈ nested_loop permutations r rs start ↔
      TupleOf permutations (r :: rs) t ∧ ∀ f ∈ t.head?, start ≤ f.2 := by
  induction rs generalizing r start t with
  | nil =>
    simp only [nested_loop, mem_map, mem_zipIdx_drop]
    constructor
    · intro ⟨f, ⟨hle, hget⟩, ht⟩
      subst ht
      exact ⟨.last hget, by simpa using hle⟩
    · intro ⟨ht, hhead⟩
      cases ht with
      | last hget => exact ⟨_, ⟨hhead _ rfl, hget⟩, rfl⟩
  | cons r' rs ih =>
    simp only [nested_loop, mem_flatMap, mem_map, mem_zipIdx_drop, ih]
    constructor
    · intro ⟨f, ⟨hle, hget⟩, t', ⟨ht', hhead⟩, ht⟩
      subst ht
      refine ⟨?_, by simpa using hle⟩
      match t', ht' with
      | (g, j) :: t'', ht' =>
        refine .more hget (fun hs => ?_) ht'
        simpa [loop_start, hs] using hhead (g, j) rfl
    · intro ⟨ht, hhead⟩
      cases ht with
      | more hget hle ht =>
        refine ⟨_, ⟨hhead _ rfl, hget⟩, _, ⟨ht, ?_⟩, rfl⟩
        intro f hf
        obtain rfl : _ = f := by simpa using hf
        unfold loop_start
        split
        case isTrue h => exact hle h
        case isFalse => exact Nat.zero_le _

theorem mem_nested_loops :
    t ∈ nested_loops permutations ranges ↔ TupleOf permutations ranges t := by
  cases ranges with
  | nil =>
    exact ⟨fun h => (not_mem_nil h).elim, fun h => nomatch h⟩
  | cons r rs =>
    rw [nested_loops, mem_nested_loop]
    exact and_iff_left fun _ _ => Nat.zero_le _

theorem nodup_zipIdx_drop (l : List (V × FeatureIndex)) (start : Nat) :
    (l.zipIdx.drop start).Nodup := by
  have h : (l.zipIdx.map Prod.snd).Nodup := by
    rw [zipIdx_map_snd]
    exact nodup_range'
  exact (h.of_map _).sublist (drop_sublist _ _)

theorem nested_loop_nodup (permutations : Bool) (r : FeaturesRange V)
    (rs : List (FeaturesRange V)) (start : Nat) : (nested_loop permutations r rs start).Nodup := by
  induction rs generalizing r start with
  | nil =>
    exact (nodup_zipIdx_drop _ _).map fun f g h => (cons.inj h).1
  | cons r' rs ih =>
    refine nodup_flatMap.mpr ⟨fun f _ => (ih _ _).map (cons_injective), ?_⟩
    -- Tuples of different rounds of this loop differ in their first feature.
    refine (nodup_zipIdx_drop _ _).imp fun {f g} hfg => ?_
    intro t hf hg
    obtain ⟨_, _, rfl⟩ := mem_map.mp hf
    obtain ⟨_, _, heq⟩ := mem_map.mp hg
    exact hfg (cons.inj heq).1.symm

theorem nested_loops_nodup (permutations : Bool) (ranges : List (FeaturesRange V)) :
    (nested_loops permutations ranges).Nodup := by
  cases ranges with
  | nil => exact nodup_nil
  | cons r rs => exact nested_loop_nodup permutations r rs 0

end VW
