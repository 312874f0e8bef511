import VowpalWabbit.Framework.Bytes

/-! # Feature groups

    `VW::features` of `core/feature_group.h`: the values and the indices of
    the features of one namespace, and its extents, the stretches that belong
    to one full namespace name. Values are generic, so that the same functions
    serve single-precision numbers and exact arithmetic.
-/

open Cpp

namespace VW

/-- A feature index, `uint64_t`. -/
abbrev FeatureIndex : Type := BitVec 64

structure NamespaceExtent where
  begin_index : Nat
  end_index : Nat
  hash : BitVec 64
  deriving DecidableEq, Repr

/-- `VW::features`; the values and the indices run in parallel. -/
structure Features (V : Type) where
  values : List V
  indices : List FeatureIndex
  namespace_extents : List NamespaceExtent
  sum_feat_sq : V
  size_eq : values.length = indices.length

namespace Features

variable {V : Type}

/-- A cleared feature group. -/
def empty [Zero V] : Features V := ⟨[], [], [], 0, rfl⟩

def size (f : Features V) : Nat := f.values.length

theorem pushed_size_eq (f : Features V) (v : V) (i : FeatureIndex) :
    (f.values ++ [v]).length = (f.indices ++ [i]).length := by simp [f.size_eq]

def push_back [Add V] [Mul V] (f : Features V) (v : V) (i : FeatureIndex) : Features V where
  values := f.values ++ [v]
  indices := f.indices ++ [i]
  namespace_extents := f.namespace_extents
  sum_feat_sq := f.sum_feat_sq + v * v
  size_eq := f.pushed_size_eq v i

/-- What an iteration over the group visits. -/
def items (f : Features V) : List (V × FeatureIndex) := f.values.zip f.indices

/-- No array is larger than `PTRDIFF_MAX` bytes, that of the indices included. -/
def Fits (f : Features V) : Prop := 8 * f.indices.length < 2 ^ 63

theorem length_items (f : Features V) : f.items.length = f.size := by
  rw [items, List.length_zip, ← f.size_eq, Nat.min_self, size]

theorem map_fst_items (f : Features V) : f.items.map Prod.fst = f.values :=
  List.map_fst_zip f.size_eq.le

theorem map_snd_items (f : Features V) : f.items.map Prod.snd = f.indices :=
  List.map_snd_zip f.size_eq.ge

section PushAll

variable [Add V] [Mul V]

/-- One `push_back` for each feature of a list. -/
def push_all (f : Features V) (fs : List (V × FeatureIndex)) : Features V :=
  fs.foldl (fun f p => f.push_back p.1 p.2) f

@[simp] theorem push_all_nil (f : Features V) : f.push_all [] = f := rfl

@[simp] theorem push_all_cons (f : Features V) (p : V × FeatureIndex)
    (fs : List (V × FeatureIndex)) :
    f.push_all (p :: fs) = (f.push_back p.1 p.2).push_all fs := rfl

theorem push_all_values (f : Features V) (fs : List (V × FeatureIndex)) :
    (f.push_all fs).values = f.values ++ fs.map Prod.fst := by
  induction fs generalizing f with
  | nil => simp
  | cons p fs ih => simp [ih, push_back]

theorem push_all_indices (f : Features V) (fs : List (V × FeatureIndex)) :
    (f.push_all fs).indices = f.indices ++ fs.map Prod.snd := by
  induction fs generalizing f with
  | nil => simp
  | cons p fs ih => simp [ih, push_back]

theorem push_all_namespace_extents (f : Features V) (fs : List (V × FeatureIndex)) :
    (f.push_all fs).namespace_extents = f.namespace_extents := by
  induction fs generalizing f with
  | nil => rfl
  | cons p fs ih => rw [push_all_cons, ih, push_back]

end PushAll

end Features

end VW
