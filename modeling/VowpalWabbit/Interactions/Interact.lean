import VowpalWabbit.Framework.Calls
import VowpalWabbit.Framework.Vectors
import VowpalWabbit.Interactions.Generate

/-! # The interact reduction

    `reductions/interact.cc` multiplies the features of two namespaces that have the same offset
    from the anchors of their namespaces, the first features. The products replace the first
    namespace and the second one is taken out of the index list while the base sees the example;
    afterwards all is put back.

    The products are written over the first namespace, which has been copied before. Where the
    two namespaces are one, this empties the second one as well, whose anchor is read then.
-/

open Cpp Call Function

namespace VW.Interact

open List Features

/-! ## The example and the base -/

/-- What the reduction reads and writes of `VW::example`, and the rest. -/
structure Example (V R : Type) where
  indices : List NamespaceIndex
  feature_space : NamespaceIndex → Features V
  num_features : BitVec 64
  total_sum_feat_sq : V
  total_sum_feat_sq_calculated : Bool
  rest : R

/-- The base learner: what it makes of the example, or the text of its exception. -/
structure Base (V R : Type) where
  predict : Example V R → Except String (Example V R)
  learn : Example V R → Except String (Example V R)

inductive BaseCall where
  | predict | learn
  deriving DecidableEq, Repr

/-- The messages of the reduction: "Namespace '{}' misses anchor feature with value 1" and
    "interact features are out of order: {0} < {1}. Skipping features." -/
inductive Message where
  | misses_anchor (namespace_ : NamespaceIndex)
  | out_of_order (cur_id prev_id : BitVec 64)
  deriving DecidableEq, Repr

/-- The example, the fields of `interact`, the calls of the base with what they saw, and the log. -/
structure State (V R : Type) where
  ec : Example V R
  feat_store : Features V
  num_features : BitVec 64
  calls : List (BaseCall × Example V R)
  log : List Message

variable {V R : Type}

section Code

variable [Zero V] [One V] [Add V] [Mul V] [DecidableEq V]

def contains_valid_namespaces (n1 n2 : NamespaceIndex) (f_src1 f_src2 : Features V) : Bool × List Message :=
  match f_src1.values, f_src2.values with
  | x :: _, y :: _ =>
    if x ≠ 1 then (false, [.misses_anchor n1])
    else if y ≠ 1 then (false, [.misses_anchor n2])
    else (true, [])
  | _, _ => (false, [])

/-- The relative offset from the namespace offset. -/
def relative_offset (weight_mask base_id : BitVec 64) (index : FeatureIndex) : BitVec 64 :=
  ((index &&& weight_mask) - base_id) &&& weight_mask

/-- The loop of `multiply` over the features that are left of the two namespaces. -/
def multiply_loop (weight_mask base_id1 base_id2 : BitVec 64) :
    (prev_id1 prev_id2 : BitVec 64) → List (V × FeatureIndex) → List (V × FeatureIndex) → Features V →
      Features V × List Message
  | prev_id1, prev_id2, (v1, i1) :: xs, (v2, i2) :: ys, f_dest =>
    let cur_id1 := relative_offset weight_mask base_id1 i1
    let cur_id2 := relative_offset weight_mask base_id2 i2
    -- checking for sorting requirement
    if cur_id1 < prev_id1 then (f_dest, [.out_of_order cur_id1 prev_id1])
    else if cur_id2 < prev_id2 then (f_dest, [.out_of_order cur_id2 prev_id2])
    else if cur_id1 = cur_id2 then
      multiply_loop weight_mask base_id1 base_id2 cur_id1 cur_id2 xs ys (f_dest.push_back (v1 * v2) i1)
    else if cur_id1 < cur_id2 then
      multiply_loop weight_mask base_id1 base_id2 cur_id1 cur_id2 xs ((v2, i2) :: ys) f_dest
    else multiply_loop weight_mask base_id1 base_id2 cur_id1 cur_id2 ((v1, i1) :: xs) ys f_dest
  | _, _, _, _, f_dest => (f_dest, [])
  termination_by _ _ xs ys => xs.length + ys.length

/-- `multiply`, after `f_dest.clear()`. -/
def multiply (weight_mask : BitVec 64) (feat_store f_src2 : Features V) : Outcome (Features V × List Message) := do
  let i1 ← nth feat_store.indices 0
  let i2 ← nth f_src2.indices 0
  let v1 ← nth feat_store.values 0
  let v2 ← nth f_src2.values 0
  return multiply_loop weight_mask (i1 &&& weight_mask) (i2 &&& weight_mask) 0 0 feat_store.items.tail
    f_src2.items.tail (empty.push_back (v1 * v2) i1)

def call_base (kind : BaseCall) (f : Example V R → Except String (Example V R)) : Call (State V R) Unit := do
  Call.modify fun s => { s with calls := s.calls ++ [(kind, s.ec)] }
  let s ← Call.get
  match f s.ec with
  | .ok ec => Call.modify fun s => { s with ec := ec }
  | .error what => throw_ what

/-- What the reduction does to the example before the base sees it. -/
def prepare (weight_mask : BitVec 64) (n1 n2 : NamespaceIndex) : Call (State V R) Unit := do
  let s ← Call.get
  let f1 := s.ec.feature_space n1
  let f2 := s.ec.feature_space n2
  Call.modify fun s => { s with
    num_features := s.ec.num_features
    feat_store := f1
    ec := { s.ec with
      num_features := s.ec.num_features - BitVec.ofNat 64 f1.size - BitVec.ofNat 64 f2.size
      feature_space := update s.ec.feature_space n1 empty } }
  let s ← Call.get
  let (f_dest, log) ← Call.lift (multiply weight_mask s.feat_store (s.ec.feature_space n2))
  Call.modify fun s => { s with
    log := s.log ++ log
    ec := { s.ec with
      feature_space := update s.ec.feature_space n1 f_dest
      total_sum_feat_sq := 0
      total_sum_feat_sq_calculated := false
      num_features := s.ec.num_features + BitVec.ofNat 64 f_dest.size
      -- remove 2nd namespace
      indices := s.ec.indices.eraseIdx (s.ec.indices.idxOf n2) } }

/-- `base.predict(ec)`, and `base.learn(ec)` when it learns. -/
def call_both (is_learn : Bool) (base : Base V R) : Call (State V R) Unit := do
  call_base .predict base.predict
  if is_learn then call_base .learn base.learn

/-- What is put back; `n2_i` was found in an index list of `indices_original_size` entries. -/
def restore (n1 n2 : NamespaceIndex) (n2_i indices_original_size : Nat) : Call (State V R) Unit :=
  Call.modify fun s => { s with
    ec := { s.ec with
      -- re-insert namespace into the right position
      indices := if n2_i < indices_original_size then s.ec.indices.insertIdx n2_i n2 else s.ec.indices
      feature_space := update s.ec.feature_space n1 s.feat_store
      num_features := s.num_features } }

def predict_or_learn (is_learn : Bool) (weight_mask : BitVec 64) (n1 n2 : NamespaceIndex) (base : Base V R) :
    Call (State V R) Unit := do
  let s ← Call.get
  let (valid, log) := contains_valid_namespaces n1 n2 (s.ec.feature_space n1) (s.ec.feature_space n2)
  Call.modify fun s => { s with log := s.log ++ log }
  if !valid then
    if is_learn then call_base .learn base.learn else call_base .predict base.predict
  else do
    prepare weight_mask n1 n2
    call_both is_learn base
    restore n1 n2 (s.ec.indices.idxOf n2) s.ec.indices.length

/-- The option takes two bytes. -/
def interact_setup (s : List Byte) : Option (NamespaceIndex × NamespaceIndex) :=
  match s with
  | [n1, n2] => some (n1, n2)
  | _ => none

end Code

/-! ## The products -/

/-- The offsets ascend strictly. -/
def Ascending (offset : FeatureIndex → BitVec 64) (xs : List (V × FeatureIndex)) : Prop :=
  xs.Pairwise fun x x' => offset x.2 < offset x'.2

section Products

variable {offset offset1 offset2 : FeatureIndex → BitVec 64} {x y : V × FeatureIndex}
  {xs ys : List (V × FeatureIndex)}

theorem Ascending.head_lt (h : Ascending offset (x :: xs)) : ∀ x' ∈ xs, offset x.2 < offset x'.2 :=
  (pairwise_cons.mp h).1

theorem Ascending.tail (h : Ascending offset (x :: xs)) : Ascending offset xs := (pairwise_cons.mp h).2

theorem Ascending.head_le (h : Ascending offset (x :: xs)) : ∀ x' ∈ x :: xs, offset x.2 ≤ offset x'.2 := by
  intro x' hx'
  rcases mem_cons.mp hx' with rfl | hx'
  · exact BitVec.le_refl _
  · exact BitVec.le_of_lt (h.head_lt x' hx')

variable [Mul V]

/-- One product for each offset that is in both lists, in the order of the first one. -/
def products (offset1 offset2 : FeatureIndex → BitVec 64) (xs ys : List (V × FeatureIndex)) :
    List (V × FeatureIndex) :=
  xs.filterMap fun x => (ys.find? fun y => decide (offset2 y.2 = offset1 x.2)).map fun y => (x.1 * y.1, x.2)

/-- The product of the anchors, and the products of the other features by their offsets from the anchors. -/
def product_items (weight_mask : BitVec 64) (f1 f2 : Features V) : List (V × FeatureIndex) :=
  match f1.items, f2.items with
  | anchor1 :: xs, anchor2 :: ys =>
    (anchor1.1 * anchor2.1, anchor1.2) :: products (relative_offset weight_mask (anchor1.2 &&& weight_mask))
      (relative_offset weight_mask (anchor2.2 &&& weight_mask)) xs ys
  | _, _ => []

/-- A feature whose offset is before all of the second list has no product. -/
theorem products_skip_first (h : ∀ y ∈ ys, offset1 x.2 < offset2 y.2) :
    products offset1 offset2 (x :: xs) ys = products offset1 offset2 xs ys := by
  have hnone : (ys.find? fun y => decide (offset2 y.2 = offset1 x.2)) = none :=
    find?_eq_none.mpr fun y hy heq => BitVec.lt_irrefl _ (of_decide_eq_true heq ▸ h y hy)
  unfold products
  rw [filterMap_cons, hnone]
  rfl

/-- A feature of the second list whose offset is before all of the first list is in no product. -/
theorem products_skip_second (h : ∀ x ∈ xs, offset2 y.2 < offset1 x.2) :
    products offset1 offset2 xs (y :: ys) = products offset1 offset2 xs ys := by
  refine filterMap_congr fun x hx => ?_
  have hne : decide (offset2 y.2 = offset1 x.2) = false :=
    decide_eq_false fun heq => BitVec.lt_irrefl _ (heq ▸ h x hx)
  rw [find?_cons, hne]

theorem products_match (h : offset1 x.2 = offset2 y.2) :
    products offset1 offset2 (x :: xs) (y :: ys) = (x.1 * y.1, x.2) :: products offset1 offset2 xs (y :: ys) := by
  unfold products
  rw [filterMap_cons, find?_cons, decide_eq_true h.symm]
  rfl

theorem products_nil (offset1 offset2 : FeatureIndex → BitVec 64) (xs : List (V × FeatureIndex)) :
    products offset1 offset2 xs [] = [] := by
  induction xs with
  | nil => rfl
  | cons x xs ih => exact (products_skip_first fun _ hy => absurd hy not_mem_nil).trans ih

end Products

/-- The group starts with an anchor, and the offsets from it ascend. -/
structure Anchored [One V] (weight_mask : BitVec 64) (f : Features V) : Prop where
  anchor : f.values.head? = some 1
  ascending : ∀ i, f.indices.head? = some i →
    Ascending (relative_offset weight_mask (i &&& weight_mask)) f.items.tail

theorem Anchored.split [One V] {weight_mask : BitVec 64} {f : Features V} (h : Anchored weight_mask f) :
    ∃ i xs, f.items = (1, i) :: xs ∧ f.values.head? = some 1 ∧ f.indices.head? = some i ∧
      Ascending (relative_offset weight_mask (i &&& weight_mask)) xs := by
  obtain ⟨values, indices, extents, sum_feat_sq, hsize⟩ := f
  obtain ⟨hanchor, hascending⟩ := h
  cases values with
  | nil => cases hanchor
  | cons v vs =>
    cases indices with
    | nil => cases hsize
    | cons i is =>
      cases hanchor
      exact ⟨i, vs.zip is, rfl, rfl, rfl, hascending i rfl⟩

theorem nth_zero {A : Type} {l : List A} {a : A} (h : l.head? = some a) : nth l 0 = .ok a := by
  cases l with
  | nil => cases h
  | cons => cases h; rfl

variable {f1 f2 : Features V}

theorem contains_valid_namespaces_eq [One V] [DecidableEq V] {weight_mask : BitVec 64}
    (h1 : Anchored weight_mask f1) (h2 : Anchored weight_mask f2) (n1 n2 : NamespaceIndex) :
    contains_valid_namespaces n1 n2 f1 f2 = (true, []) := by
  have hanchor1 := h1.anchor
  have hanchor2 := h2.anchor
  unfold contains_valid_namespaces
  cases hv1 : f1.values with
  | nil => rw [hv1] at hanchor1; cases hanchor1
  | cons x xs =>
    cases hv2 : f2.values with
    | nil => rw [hv2] at hanchor2; cases hanchor2
    | cons y ys =>
      rw [hv1] at hanchor1
      rw [hv2] at hanchor2
      cases hanchor1
      cases hanchor2
      simp

/-- The same index list and the same features. -/
structure SameFeatures (ec ec' : Example V R) : Prop where
  indices : ec'.indices = ec.indices
  feature_space : ec'.feature_space = ec.feature_space
  num_features : ec'.num_features = ec.num_features

theorem SameFeatures.trans {ec ec' ec'' : Example V R} (h : SameFeatures ec ec') (h' : SameFeatures ec' ec'') :
    SameFeatures ec ec'' :=
  ⟨h'.indices.trans h.indices, h'.feature_space.trans h.feature_space, h'.num_features.trans h.num_features⟩

/-! ## Calls of the base -/

/-- A base that changes neither the index list nor a feature. -/
structure Base.KeepsFeatures (base : Base V R) : Prop where
  predict : ∀ ec ec', base.predict ec = .ok ec' → SameFeatures ec ec'
  learn : ∀ ec ec', base.learn ec = .ok ec' → SameFeatures ec ec'

/-- The base has been shown the features of `seen`, in calls of these kinds. -/
structure Showing (seen : Example V R) (f1 : Features V) (num_features : BitVec 64) (kinds : List BaseCall)
    (s : State V R) : Prop where
  same : SameFeatures seen s.ec
  feat_store : s.feat_store = f1
  num_features : s.num_features = num_features
  kinds : s.calls.map Prod.fst = kinds
  calls : ∀ c ∈ s.calls, SameFeatures seen c.2

variable {seen : Example V R} {num_features : BitVec 64} {kinds : List BaseCall}

/-- A call of the base is shown the features, and keeps them. -/
theorem call_base_shows (kind : BaseCall) {f : Example V R → Except String (Example V R)}
    (hf : ∀ ec ec', f ec = .ok ec' → SameFeatures ec ec') :
    Call.Finishes (call_base kind f) (Showing seen f1 num_features kinds)
      (fun _ => Showing seen f1 num_features (kinds ++ [kind])) (fun s => ∀ c ∈ s.calls, SameFeatures seen c.2) := by
  intro s hs
  have hcalls : ∀ c ∈ s.calls ++ [(kind, s.ec)], SameFeatures seen c.2 := by
    intro c hc
    rcases mem_append.mp hc with hc | hc
    · exact hs.calls c hc
    · cases mem_singleton.mp hc
      exact hs.same
  have hkinds : (s.calls ++ [(kind, s.ec)]).map Prod.fst = kinds ++ [kind] := by
    rw [map_append, hs.kinds]
    rfl
  unfold call_base
  rw [modify_bind_run, get_bind_run]
  cases hrun : f s.ec with
  | error what => exact hcalls
  | ok ec => exact ⟨hs.same.trans (hf _ _ hrun), hs.feat_store, hs.num_features, hkinds, hcalls⟩

theorem call_both_shows {is_learn : Bool} {base : Base V R} (hbase : base.KeepsFeatures) :
    Call.Finishes (call_both is_learn base) (Showing seen f1 num_features [])
      (fun _ => Showing seen f1 num_features (if is_learn then [.predict, .learn] else [.predict]))
      (fun s => ∀ c ∈ s.calls, SameFeatures seen c.2) := by
  refine (call_base_shows .predict hbase.predict).bind fun _ => ?_
  cases is_learn with
  | false => exact Call.Finishes.pure fun _ hs => hs
  | true => exact call_base_shows .learn hbase.learn

/-- What was taken out of the index list is put back where it was. -/
theorem reinsert (l : List NamespaceIndex) (n : NamespaceIndex) :
    (if l.idxOf n < l.length then (l.eraseIdx (l.idxOf n)).insertIdx (l.idxOf n) n
      else l.eraseIdx (l.idxOf n)) = l := by
  by_cases hlt : l.idxOf n < l.length
  · rw [if_pos hlt]
    have hget : l[l.idxOf n] = n := getElem_idxOf hlt
    have h := insertIdx_eraseIdx_getElem hlt
    rwa [hget] at h
  · rw [if_neg hlt, eraseIdx_of_length_le (Nat.le_of_not_lt hlt)]

section Run

variable [Add V] [Mul V]

/-- Over lists with ascending offsets the two cursors meet wherever an offset is in both. -/
theorem multiply_loop_eq (weight_mask base_id1 base_id2 prev_id1 prev_id2 : BitVec 64)
    (xs ys : List (V × FeatureIndex)) (f_dest : Features V)
    (hxs : Ascending (relative_offset weight_mask base_id1) xs)
    (hys : Ascending (relative_offset weight_mask base_id2) ys)
    (hprev1 : ∀ x ∈ xs, prev_id1 ≤ relative_offset weight_mask base_id1 x.2)
    (hprev2 : ∀ y ∈ ys, prev_id2 ≤ relative_offset weight_mask base_id2 y.2) :
    multiply_loop weight_mask base_id1 base_id2 prev_id1 prev_id2 xs ys f_dest =
      (f_dest.push_all (products (relative_offset weight_mask base_id1) (relative_offset weight_mask base_id2)
        xs ys), []) := by
  fun_induction multiply_loop weight_mask base_id1 base_id2 prev_id1 prev_id2 xs ys f_dest with
  | case1 prev_id1 prev_id2 v1 i1 xs v2 i2 ys f_dest cur_id1 hlt =>
    exact absurd (hprev1 _ mem_cons_self) (BitVec.not_le.mpr hlt)
  | case2 prev_id1 prev_id2 v1 i1 xs v2 i2 ys f_dest cur_id1 cur_id2 _ hlt =>
    exact absurd (hprev2 _ mem_cons_self) (BitVec.not_le.mpr hlt)
  | case3 prev_id1 prev_id2 v1 i1 xs v2 i2 ys f_dest cur_id1 cur_id2 _ _ heq ih =>
    have heq : relative_offset weight_mask base_id1 i1 = relative_offset weight_mask base_id2 i2 := heq
    rw [ih hxs.tail hys.tail (fun x hx => hxs.head_le x (mem_cons_of_mem _ hx))
      (fun y hy => hys.head_le y (mem_cons_of_mem _ hy)), products_match heq,
      products_skip_second fun x hx => heq ▸ hxs.head_lt x hx, push_all_cons]
  | case4 prev_id1 prev_id2 v1 i1 xs v2 i2 ys f_dest cur_id1 cur_id2 _ _ _ hlt ih =>
    rw [ih hxs.tail hys (fun x hx => hxs.head_le x (mem_cons_of_mem _ hx)) hys.head_le,
      products_skip_first fun y hy => Std.lt_of_lt_of_le hlt (hys.head_le y hy)]
  | case5 prev_id1 prev_id2 v1 i1 xs v2 i2 ys f_dest cur_id1 cur_id2 _ _ hne hnlt ih =>
    have hlt : relative_offset weight_mask base_id2 i2 < relative_offset weight_mask base_id1 i1 :=
      BitVec.lt_of_le_ne (BitVec.not_lt.mp hnlt) (Ne.symm hne)
    rw [ih hxs hys.tail hxs.head_le (fun y hy => hys.head_le y (mem_cons_of_mem _ hy)),
      products_skip_second fun x hx => Std.lt_of_lt_of_le hlt (hxs.head_le x hx)]
  | case6 prev_id1 prev_id2 xs ys f_dest hnil =>
    have hproducts : products (relative_offset weight_mask base_id1) (relative_offset weight_mask base_id2)
        xs ys = [] := by
      cases xs with
      | nil => rfl
      | cons x xs =>
        cases ys with
        | nil => exact products_nil _ _ _
        | cons y ys => exact (hnil _ _ _ _ _ _ rfl rfl).elim
    rw [hproducts]
    rfl

/-! ## What the base sees -/

variable [Zero V]

theorem items_push_all (l : List (V × FeatureIndex)) : (empty.push_all l).items = l := by
  unfold items
  rw [push_all_values, push_all_indices]
  exact (zip_of_prod rfl rfl).symm

/-- What the base is shown of `ec`. -/
structure Sees (weight_mask : BitVec 64) (n1 n2 : NamespaceIndex) (ec seen : Example V R) : Prop where
  /-- The products stand in the first namespace, in order. -/
  product : (seen.feature_space n1).items = product_items weight_mask (ec.feature_space n1) (ec.feature_space n2)
  others : ∀ ns, ns ≠ n1 → seen.feature_space ns = ec.feature_space ns
  /-- The second namespace is out of the index list once. -/
  indices : seen.indices = ec.indices.erase n2

variable {weight_mask : BitVec 64} {n1 n2 : NamespaceIndex} {ec : Example V R}

/-- The example that the base sees first. -/
def shown (weight_mask : BitVec 64) (n1 n2 : NamespaceIndex) (ec : Example V R) : Example V R :=
  let f_dest := empty.push_all (product_items weight_mask (ec.feature_space n1) (ec.feature_space n2))
  { ec with
    indices := ec.indices.eraseIdx (ec.indices.idxOf n2)
    feature_space := update ec.feature_space n1 f_dest
    num_features := ec.num_features - BitVec.ofNat 64 (ec.feature_space n1).size
      - BitVec.ofNat 64 (ec.feature_space n2).size + BitVec.ofNat 64 f_dest.size
    total_sum_feat_sq := 0
    total_sum_feat_sq_calculated := false }

theorem sees_of_same (h : SameFeatures (shown weight_mask n1 n2 ec) seen) :
    Sees weight_mask n1 n2 ec seen := by
  refine ⟨?_, fun ns hns => ?_, ?_⟩
  · rw [h.feature_space]
    show (update ec.feature_space n1 _ n1).items = _
    rw [update_self, items_push_all]
  · rw [h.feature_space]
    exact update_of_ne hns _ _
  · rw [h.indices]
    exact (erase_eq_eraseIdx_of_idxOf rfl).symm

variable {s : State V R}

/-- After the calls all is as it was. -/
theorem restored
    (hs : Showing (shown weight_mask n1 n2 ec) (ec.feature_space n1) ec.num_features kinds s) :
    SameFeatures ec { s.ec with
      indices := if ec.indices.idxOf n2 < ec.indices.length then s.ec.indices.insertIdx (ec.indices.idxOf n2) n2
        else s.ec.indices
      feature_space := update s.ec.feature_space n1 s.feat_store
      num_features := s.num_features } := by
  refine ⟨?_, ?_, hs.num_features⟩
  · rw [hs.same.indices]
    exact reinsert ec.indices n2
  · show update s.ec.feature_space n1 s.feat_store = ec.feature_space
    rw [hs.same.feature_space, hs.feat_store]
    show update (update ec.feature_space n1 _) n1 _ = _
    rw [update_idem, update_eq_self]

/-- The anchor of a group that has been emptied cannot be read. -/
theorem multiply_empty (f : Features V) : multiply weight_mask f empty = Outcome.undefined := by
  unfold multiply
  have hempty : nth (empty : Features V).indices 0 = Outcome.undefined := rfl
  cases hindex : f.indices[0]? with
  | none =>
    unfold nth
    rw [hindex]
    rfl
  | some i =>
    rw [nth_eq_ok.mpr hindex, Outcome.ok_bind, hempty]
    rfl

/-! ## Different namespaces -/

variable [One V]

theorem multiply_eq (h1 : Anchored weight_mask f1) (h2 : Anchored weight_mask f2) :
    multiply weight_mask f1 f2 = .ok (empty.push_all (product_items weight_mask f1 f2), []) := by
  obtain ⟨i1, xs, hitems1, hvalue1, hindex1, hxs⟩ := h1.split
  obtain ⟨i2, ys, hitems2, hvalue2, hindex2, hys⟩ := h2.split
  unfold multiply product_items
  rw [nth_zero hindex1, nth_zero hindex2, nth_zero hvalue1, nth_zero hvalue2, hitems1, hitems2]
  simp only [Outcome.ok_bind, Outcome.pure_eq, tail_cons]
  have hzero : ∀ id : BitVec 64, 0 ≤ id := fun id => BitVec.not_lt.mp BitVec.not_lt_zero
  rw [multiply_loop_eq _ _ _ _ _ _ _ _ hxs hys (fun _ _ => hzero _) fun _ _ => hzero _, push_all_cons]

theorem prepare_eq (hne : n1 ≠ n2) (h1 : Anchored weight_mask (s.ec.feature_space n1))
    (h2 : Anchored weight_mask (s.ec.feature_space n2)) :
    prepare weight_mask n1 n2 s = .returned ()
      { s with ec := shown weight_mask n1 n2 s.ec, feat_store := s.ec.feature_space n1,
               num_features := s.ec.num_features } := by
  unfold prepare
  simp only [get_bind_run, modify_bind_run]
  rw [Call.bind_run, update_of_ne hne.symm, multiply_eq h1 h2]
  simp only [Call.lift, Call.modify, append_nil, update_idem]
  rfl

variable [DecidableEq V]

/-- The reduction on `ec`, whatever the base does that changes no feature. -/
def Interacts (weight_mask : BitVec 64) (n1 n2 : NamespaceIndex) (ec : Example V R) : Prop :=
  ∀ (is_learn : Bool) (base : Base V R), base.KeepsFeatures →
    Call.Finishes (predict_or_learn is_learn weight_mask n1 n2 base) (fun s => s.ec = ec ∧ s.calls = [])
      (fun _ s => s.calls.map Prod.fst = (if is_learn then [.predict, .learn] else [.predict]) ∧
        (∀ c ∈ s.calls, Sees weight_mask n1 n2 ec c.2) ∧ SameFeatures ec s.ec)
      (fun s => ∀ c ∈ s.calls, Sees weight_mask n1 n2 ec c.2)

theorem interacts_of_ne (hne : n1 ≠ n2) (h1 : Anchored weight_mask (ec.feature_space n1))
    (h2 : Anchored weight_mask (ec.feature_space n2)) : Interacts weight_mask n1 n2 ec := by
  intro is_learn base hbase s hs
  obtain ⟨rfl, hcalls⟩ := hs
  have hstart : Showing (shown weight_mask n1 n2 s.ec) (s.ec.feature_space n1) s.ec.num_features []
      { s with ec := shown weight_mask n1 n2 s.ec, feat_store := s.ec.feature_space n1,
               num_features := s.ec.num_features, log := s.log ++ [] } :=
    ⟨⟨rfl, rfl, rfl⟩, rfl, rfl, by rw [hcalls]; rfl, by rw [hcalls]; nofun⟩
  unfold predict_or_learn
  rw [get_bind_run, contains_valid_namespaces_eq h1 h2]
  simp only [modify_bind_run, Bool.not_true, Bool.false_eq_true, if_false]
  have hprepare := prepare_eq hne (s := { s with log := s.log ++ [] }) h1 h2
  rw [Call.bind_run]
  simp only [hprepare]
  refine Call.Finishes.bind
    (P := Showing (shown weight_mask n1 n2 s.ec) (s.ec.feature_space n1) s.ec.num_features [])
    ((call_both_shows hbase).mono (fun _ h => h) (fun _ _ h => h) fun s' h c hc => sees_of_same (h c hc))
    (fun _ => ?_) _ hstart
  exact Call.Finishes.modify fun s' hs' => ⟨hs'.kinds, fun c hc => sees_of_same (hs'.calls c hc), restored hs'⟩

/-! ## One namespace twice -/

theorem predict_or_learn_self (is_learn : Bool) (base : Base V R)
    (h : Anchored weight_mask (s.ec.feature_space n1)) :
    predict_or_learn is_learn weight_mask n1 n1 base s = .undefined := by
  unfold predict_or_learn prepare
  rw [get_bind_run, contains_valid_namespaces_eq h h]
  simp only [Bool.not_true, Bool.false_eq_true, if_false, Call.bind_run, Call.get, Call.modify,
    update_self, multiply_empty]
  rfl

/-- The reduction does what it promises exactly when its namespaces are different ones. -/
theorem interacts_iff (weight_mask : BitVec 64) (n1 n2 : NamespaceIndex) (ec : Example V R)
    (h1 : Anchored weight_mask (ec.feature_space n1)) (h2 : Anchored weight_mask (ec.feature_space n2)) :
    Interacts weight_mask n1 n2 ec ↔ n1 ≠ n2 := by
  constructor
  · rintro h rfl
    have hkeeps : (⟨.ok, .ok⟩ : Base V R).KeepsFeatures := by
      constructor
      · rintro ec _ ⟨⟩
        exact ⟨rfl, rfl, rfl⟩
      · rintro ec _ ⟨⟩
        exact ⟨rfl, rfl, rfl⟩
    have hends := h false ⟨.ok, .ok⟩ hkeeps ⟨ec, empty, 0, [], []⟩ ⟨rfl, rfl⟩
    rw [predict_or_learn_self false _ h1] at hends
    exact hends
  · exact fun hne => interacts_of_ne hne h1 h2

end Run

/-- Namespace `a` with the offsets 1 and 3, namespace `b` with 1 and 2. -/
def sample : Example Int Unit where
  indices := [97, 98]
  feature_space ns :=
    if ns = 97 then ⟨[1, 2, 3], [16, 17, 19], [], 14, rfl⟩
    else if ns = 98 then ⟨[1, 5, 7], [32, 33, 34], [], 75, rfl⟩
    else empty
  num_features := 6
  total_sum_feat_sq := 0
  total_sum_feat_sq_calculated := false
  rest := ()

theorem anchored_sample : Anchored 255 (sample.feature_space 97) ∧ Anchored 255 (sample.feature_space 98) := by
  constructor
  · refine ⟨rfl, ?_⟩
    rintro _ ⟨⟩
    unfold Ascending
    decide
  · refine ⟨rfl, ?_⟩
    rintro _ ⟨⟩
    unfold Ascending
    decide

example : product_items 255 (sample.feature_space 97) (sample.feature_space 98) = [(1, 16), (10, 17)] := by decide

/-- Two anchored namespaces. -/
theorem interacts_sample :
    Anchored 255 (sample.feature_space 97) ∧ Anchored 255 (sample.feature_space 98) ∧
      Interacts 255 97 98 sample := by
  obtain ⟨h1, h2⟩ := anchored_sample
  exact ⟨h1, h2, (interacts_iff 255 97 98 sample h1 h2).mpr (by decide)⟩

/-- `--interact aa` is accepted, and reads the anchor of the namespace it has emptied. -/
theorem interact_aa_reads_emptied :
    interact_setup [97, 97] = some (97, 97) ∧ Anchored 255 (sample.feature_space 97) ∧
      (∀ is_learn (base : Base Int Unit) (s : State Int Unit), s.ec = sample →
        predict_or_learn is_learn 255 97 97 base s = .undefined) ∧
      ¬Interacts 255 97 97 sample := by
  have hanchored := anchored_sample.1
  refine ⟨rfl, hanchored, ?_, fun h => (interacts_iff 255 97 97 sample hanchored hanchored).mp h rfl⟩
  rintro is_learn base s hs
  exact predict_or_learn_self is_learn base (hs ▸ hanchored)

end VW.Interact
