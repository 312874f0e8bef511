import VowpalWabbit.CsoaaLdf.Differences

/-! # What the base learns from weighted all pairs

    The base sees the score of the earlier example, less that of the later one with the offset of
    the sequence added twice. This is the difference of their scores where the offset does not
    matter under the mask of the weights.
-/

open Cpp

namespace VW.CsoaaLdf

open List

variable {B R : Type} [Field R] {all : Settings} {o : BitVec 64}

theorem linear_score_neg (weights : FeatureIndex → R) (mask : BitVec 64) (fs : List (R × FeatureIndex)) :
    linear_score weights mask ((fs.map fun f => (-f.1, f.2)).map fun f => (f.1, f.2 + o)) =
      -linear_score weights mask (fs.map fun f => (f.1, f.2 + o)) := by
  unfold linear_score
  induction fs with
  | nil => exact neg_zero.symm
  | cons f fs ih =>
    simp only [map_cons, sum_cons] at ih ⊢
    rw [ih]
    ring

/-- What the base sees: the features of the later example have their offset in their indices, to which it is
    added again. -/
def SeesDifference (all : Settings) (o : BitVec 64) (c : Learned R) : Prop :=
  ∀ weights mask, ∃ r fs, Scores all weights mask (unsubtract_example c.ec1) r ∧
    Settles (fun fuel => foreach_feature fuel all c.ec2) (· = fs) ∧ Scores all weights mask c.ec1
      (r - if all.ignores then 0 else linear_score weights mask (fs.map fun f => (f.1, f.2 + o)))

/-- What the base is given scores as the earlier example less the later one. -/
def ScoresDifference (all : Settings) (mask : BitVec 64) (c : Learned R) : Prop :=
  ∀ weights, ∃ r₁ r₂, Scores all weights mask (unsubtract_example c.ec1) r₁ ∧
    Scores all weights mask c.ec2 r₂ ∧ Scores all weights mask c.ec1 (r₁ - r₂)

theorem SeesDifference.scores {c : Learned R} {mask : BitVec 64} (h : SeesDifference all o c)
    (hmask : ∀ i, (i + o) &&& mask = i &&& mask) (hignores : all.ignores = false) : ScoresDifference all mask c := by
  intro weights
  obtain ⟨r, fs, hr, ⟨fs', rfl, hforeach⟩, hscore⟩ := h weights mask
  have hshift : linear_score weights mask (fs'.map fun f => (f.1, f.2 + o)) = linear_score weights mask fs' := by
    unfold linear_score
    rw [map_map]
    exact congrArg sum (map_congr_left fun f _ => by simp only [Function.comp_apply, hmask])
  rw [hignores, if_neg Bool.false_ne_true, hshift] at hscore
  exact ⟨r, _, hr, ⟨fs', rfl, hforeach⟩, hscore⟩

variable [LinearOrder R] {lfm : LabelFeatureMap R} (base : Base B R)
  {ec_seq : List (Example R)}

theorem Learns.sees_difference {seq₀ : List (Example R)} {c : Learned R} (h : Trainable all lfm o seq₀)
    (hc : Learns all lfm seq₀ c) : SeesDifference all o c := by
  intro weights mask
  obtain ⟨e₁, e₂, cost1, cost2, h₁, hcost1, h₂, hcost2, hdifference, -⟩ := hc
  obtain ⟨fs, hitems, hforeach⟩ := hdifference.subtracted
  obtain ⟨r, hr, hscore⟩ := hdifference.extended.scores weights mask h.apart
    hdifference.same_earlier.closed
  have hoffset : c.ec1.ft_offset = o := hdifference.extended.ft_offset.trans
    (hdifference.same_earlier.ft_offset.trans (labelled_fields.1.trans (h.ready e₁ (mem_of_getElem? h₁)).ft_offset))
  rw [hitems, hoffset, linear_score_neg] at hscore
  refine ⟨r, fs, hr, ⟨fs, rfl, hforeach⟩, ?_⟩
  cases hignores : all.ignores with
  | true =>
    rw [hignores, if_pos rfl, add_zero] at hscore
    rwa [if_pos rfl, sub_zero]
  | false =>
    rw [hignores, if_neg Bool.false_ne_true] at hscore
    rwa [if_neg Bool.false_ne_true, sub_eq_add_neg]

/-- The training returns, with every example as it was; its cost has the wap value. -/
theorem training_restores (hne : ec_seq ≠ []) (h : Trainable all lfm o ec_seq) (b : B) :
    ∃ costs, compute_wap_values (ec_seq.flatMap (·.costs)) = some costs ∧
      Settles (fun fuel => do_actual_learning_wap fuel all ⟨lfm, o⟩ base b ec_seq) fun s =>
        s.ec_seq.length = ec_seq.length ∧ ∀ (i : Nat) e e', (ec_seq.zipWith set_wap_value costs)[i]? = some e →
          s.ec_seq[i]? = some e' → Same e e' ∧ e'.weight = e.weight := by
  obtain ⟨costs, hcosts, hlength, s, ⟨hmemory, -⟩, hrun⟩ := training_settles base hne h b
  refine ⟨costs, hcosts, s, ⟨?_, fun i e e' he he' => hmemory.examples i e e' he he'⟩, hrun⟩
  rw [hmemory.length, length_zipWith, hlength, Nat.min_self]

/-- The base learns once for each pair of examples whose values differ, in order. -/
theorem training_learns (hne : ec_seq ≠ []) (h : Trainable all lfm o ec_seq) (b : B) :
    ∃ costs, compute_wap_values (ec_seq.flatMap (·.costs)) = some costs ∧
      Settles (fun fuel => do_actual_learning_wap fuel all ⟨lfm, o⟩ base b ec_seq) fun s =>
        s.calls.map Learned.pair =
          (range ec_seq.length).flatMap (pairs_of (ec_seq.zipWith set_wap_value costs)) ∧
        ∀ c ∈ s.calls, Learns all lfm (ec_seq.zipWith set_wap_value costs) c ∧ SeesDifference all o c := by
  obtain ⟨costs, hcosts, -, s, ⟨-, new, hcalls, hpairs, hlearns⟩, hrun⟩ := training_settles base hne h b
  rw [nil_append] at hcalls
  refine ⟨costs, hcosts, s, ⟨by rw [hcalls, hpairs], fun c hc => ?_⟩, hrun⟩
  have hc := hlearns c (hcalls ▸ hc)
  exact ⟨hc, hc.sees_difference (h.set_wap_values costs)⟩

/-- The base learns on differences of examples where the offset does not matter. -/
theorem training_differences (hne : ec_seq ≠ []) (h : Trainable all lfm o ec_seq) (mask : BitVec 64)
    (hmask : ∀ i, (i + o) &&& mask = i &&& mask) (hignores : all.ignores = false) (b : B) :
    ∃ costs, compute_wap_values (ec_seq.flatMap (·.costs)) = some costs ∧
      Settles (fun fuel => do_actual_learning_wap fuel all ⟨lfm, o⟩ base b ec_seq) fun s =>
        ∀ c ∈ s.calls, Learns all lfm (ec_seq.zipWith set_wap_value costs) c ∧ ScoresDifference all mask c := by
  obtain ⟨costs, hcosts, -, s, ⟨-, new, hcalls, -, hlearns⟩, hrun⟩ := training_settles base hne h b
  rw [nil_append] at hcalls
  refine ⟨costs, hcosts, s, fun c hc => ?_, hrun⟩
  have hc := hlearns c (hcalls ▸ hc)
  exact ⟨hc, (hc.sees_difference (h.set_wap_values costs)).scores hmask hignores⟩

section Sample

/-- An example at an offset of 4, with the same features in some namespaces. -/
def sample_example (x : ℚ) (class_index : BitVec 32) (indices : List NamespaceIndex) (fs : Features ℚ) : Example ℚ :=
  ⟨⟨indices, fun ns => if ns ∈ indices then fs else .empty⟩, 4, BitVec.ofNat 64 (indices.length * fs.size), false, 1,
    0, 0, 0, [⟨x, class_index, 0⟩]⟩

/-- The first of two examples has features in the namespace of label features. -/
def sample : List (Example ℚ) :=
  [sample_example 1 1 [97, LABEL_NAMESPACE] ⟨[2, 3], [8, 12], [], 13, rfl⟩,
    sample_example 3 2 [97] ⟨[5], [8], [], 25, rfl⟩]

/-- Features with themselves. -/
def sample_settings : Settings := ⟨false, fun _ => false, [[97, 97]], [], false⟩

def sample_labels : LabelFeatureMap ℚ := fun lab =>
  if lab = 1 then some ⟨[7], [20], [], 49, rfl⟩ else if lab = 2 then some ⟨[1, 1], [24, 28], [], 2, rfl⟩ else none

def sample_costs : List (CsClass ℚ) := [⟨1, 1, 0⟩, ⟨3, 2, 2⟩]

theorem sample_wap_values : compute_wap_values (sample.flatMap (·.costs)) = some sample_costs := by
  have hcosts : sample.flatMap (·.costs) = [⟨1, 1, 0⟩, ⟨3, 2, 0⟩] := rfl
  have hsorted : (range 2).mergeSort (fun a b => decide (([1, 3] : List ℚ).getD a 0 ≤ ([1, 3] : List ℚ).getD b 0)) =
      [0, 1] := mergeSort_of_pairwise (by decide +kernel)
  rw [hcosts]
  unfold compute_wap_values
  simp only [map_cons, map_nil, length_cons, length_nil, Nat.zero_add, Nat.reduceAdd, hsorted]
  norm_num [wap_values, sample_costs]

theorem sample_ready {x : ℚ} {class_index : BitVec 32} {indices : List NamespaceIndex} {fs : Features ℚ}
    (hitems : fs.items ≠ []) (hclosed : fs.Closed) (hunused : WAP_LDF_NAMESPACE ∉ indices) :
    Ready 4 (sample_example x class_index indices fs) where
  costs := ⟨_, rfl⟩
  ft_offset := rfl
  listed ns := by
    show _ ↔ (if ns ∈ indices then fs else Features.empty).items ≠ []
    split
    · next hns => exact iff_of_true hns hitems
    · next hns => exact iff_of_false hns (not_not_intro rfl)
  closed ns := by
    show (if ns ∈ indices then fs else Features.empty).Closed
    split
    · exact hclosed
    · exact Extents.closed_nil 0
  unused := hunused

theorem sample_trainable : Trainable sample_settings sample_labels 4 sample where
  apart := ⟨by decide, fun _ h => absurd h not_mem_nil⟩
  label_features lab fs h := by
    unfold sample_labels at h
    split at h
    · cases h
      exact Extents.closed_nil 1
    · split at h <;> cases h
      exact Extents.closed_nil 2
  ready := forall_mem_cons.mpr ⟨sample_ready (by decide) (Extents.closed_nil 2) (by decide),
    forall_mem_singleton.mpr (sample_ready (by decide) (Extents.closed_nil 1) (by decide))⟩

def sample_base : Base Unit ℚ := ⟨fun _ b => (0, b)⟩

def sample_run (fuel : Nat) : Option (State Unit ℚ) :=
  do_actual_learning_wap fuel sample_settings ⟨sample_labels, 4⟩ sample_base () sample

/-- Both examples come back. -/
theorem training_restores_sample : Settles sample_run fun s => s.ec_seq.length = 2 ∧ ∀ (i : Nat) e e',
    (sample.zipWith set_wap_value sample_costs)[i]? = some e → s.ec_seq[i]? = some e' →
      Same e e' ∧ e'.weight = e.weight := by
  obtain ⟨costs, hcosts, hrun⟩ := training_restores sample_base (cons_ne_nil _ _) sample_trainable ()
  cases sample_wap_values.symm.trans hcosts
  exact hrun

/-- The base learns once, from the difference. -/
theorem training_learns_sample : Settles sample_run fun s => s.calls.map Learned.pair = [(0, 1)] ∧
    ∀ c ∈ s.calls, SeesDifference sample_settings 4 c := by
  obtain ⟨costs, hcosts, s, ⟨hpairs, hlearns⟩, hrun⟩ :=
    training_learns sample_base (cons_ne_nil _ _) sample_trainable ()
  cases sample_wap_values.symm.trans hcosts
  exact ⟨s, ⟨hpairs.trans (by decide +kernel), fun c hc => (hlearns c hc).2⟩, hrun⟩

theorem sample_pairs : Settles sample_run fun s => s.calls.map Learned.pair = [(0, 1)] := by
  obtain ⟨costs, hcosts, -, s, ⟨-, new, hcalls, hpairs, -⟩, hrun⟩ :=
    training_settles sample_base (cons_ne_nil _ _) sample_trainable ()
  cases sample_wap_values.symm.trans hcosts
  rw [nil_append] at hcalls
  exact ⟨s, (congrArg _ hcalls).trans (hpairs.trans (by decide +kernel)), hrun⟩

/-- The offset does not matter under a mask of two bits. -/
theorem training_differences_sample : Settles sample_run fun s => s.calls.map Learned.pair = [(0, 1)] ∧
    ∀ c ∈ s.calls, ScoresDifference sample_settings 3 c := by
  have hmod (i : BitVec 64) : (i &&& 3).toNat = i.toNat % 4 := Nat.and_two_pow_sub_one_eq_mod _ 2
  obtain ⟨_, -, s, hcalls, hrun⟩ := training_differences sample_base (cons_ne_nil _ _) sample_trainable 3
    (fun i => BitVec.eq_of_toNat_eq (by rw [hmod, hmod]; bv_omega)) rfl ()
  exact sample_pairs.and ⟨s, fun c hc => (hcalls c hc).2, hrun⟩

end Sample

end VW.CsoaaLdf
