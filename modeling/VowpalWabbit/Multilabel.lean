import VowpalWabbit.Framework.Merging
import VowpalWabbit.Primitives.Tokenize
import Mathlib.Data.Finset.SymmDiff

/-! # Multilabel loss

    `core/multilabel.cc`. The loss is counted by two cursors, one on the predicted labels and one
    on the given ones. `label_v` is whatever the text says, in that order; the predictions of
    `multilabel_oaa` ascend, those of `plt` need not.
-/

open Cpp

namespace VW.Multilabel

open List

/-- `int_of_string`, by `strtol`; what is no number is zero. -/
def int_of_string (s : List Byte) : BitVec 32 :=
  let s := s.dropWhile is_space
  let (neg, s) :=
    match s with
    | c :: cs => if c = 45 then (true, cs) else if c = 43 then (false, cs) else (false, s)
    | [] => (false, [])
  let value : Int := digits_value (s.takeWhile is_digit)
  -- `strtol` saturates, and the conversion to `int` cuts off.
  BitVec.ofInt 32 (max (-2 ^ 63) (min (2 ^ 63 - 1) (if neg then -value else value)))

/-- The labels are converted to `uint32_t`. Of two words, none is read. -/
def parse_label (words : List (List Byte)) : List Nat :=
  match words with
  | [word] => (Primitives.tokenize 44 word false).map fun parse_name => (int_of_string parse_name).toNat
  | _ => []

/-- The loop from the two indices on. -/
def loss_loop : List Nat → List Nat → Nat
  | pred :: preds, label :: given =>
    if pred < label then loss_loop preds (label :: given) + 1
    else if label < pred then loss_loop (pred :: preds) given + 1
    else loss_loop preds given
  | preds, given => given.length + preds.length
termination_by preds given => preds.length + given.length

/-- The loss that `update_stats_multilabel` reports; there is none for an example without labels. -/
def update_stats_multilabel (given preds : List Nat) : Nat :=
  if given = [] then 0 else loss_loop preds given

/-- A label in both lists. -/
def shared (preds given : List Nat) (label : Nat) : Bool := label ∈ preds && label ∈ given

/-- The loss of a labelled example is the number of labels in exactly one of the sets. -/
def LossExact (given preds : List Nat) : Prop :=
  given ≠ [] → update_stats_multilabel given preds = (symmDiff preds.toFinset given.toFinset).card

/-- No label of one list only is repeated, and the shared labels are found. -/
def Comparable (given preds : List Nat) : Prop :=
  (preds.filter fun label => !shared preds given label).Nodup ∧
    (given.filter fun label => !shared preds given label).Nodup ∧
    InStep id (shared preds given) preds given

theorem loss_loop_eq (preds given : List Nat) :
    loss_loop preds given + 2 * (common id preds given).length = preds.length + given.length := by
  induction preds, given using loss_loop.induct with
  | case1 pred preds label given h ih =>
    rw [loss_loop, if_pos h, common, if_pos (show id pred < id label from h)]
    simp only [length_cons] at ih ⊢
    omega
  | case2 pred preds label given h h' ih =>
    rw [loss_loop, if_neg h, if_pos h', common, if_neg (show ¬ id pred < id label from h),
      if_pos (show id label < id pred from h')]
    simp only [length_cons] at ih ⊢
    omega
  | case3 pred preds label given h h' ih =>
    rw [loss_loop, if_neg h, if_neg h', common, if_neg (show ¬ id pred < id label from h),
      if_neg (show ¬ id label < id pred from h')]
    simp only [length_cons] at ih ⊢
    omega
  | case4 preds given h =>
    cases preds with
    | nil => simp [loss_loop]
    | cons pred preds =>
      cases given with
      | nil => simp [loss_loop]
      | cons label given => exact (h pred preds label given rfl rfl).elim

/-- The labels of one list only, each counted once. -/
theorem card_only (xs ys : List Nat) (f : Nat → Bool) (hf : ∀ x ∈ xs, f x = true ↔ x ∉ ys) :
    (xs.toFinset \ ys.toFinset).card ≤ (xs.filter f).length ∧
      ((xs.toFinset \ ys.toFinset).card = (xs.filter f).length ↔ (xs.filter f).Nodup) := by
  have heq : xs.toFinset \ ys.toFinset = (xs.filter f).toFinset := by
    ext x
    simp only [Finset.mem_sdiff, mem_toFinset, mem_filter]
    exact and_congr_right fun hx => (hf x hx).symm
  rw [heq]
  exact ⟨toFinset_card_le _, Multiset.toFinset_card_eq_card_iff_nodup⟩

theorem length_filter_split (xs : List Nat) (f : Nat → Bool) :
    xs.length = (xs.filter f).length + (xs.filter fun x => !f x).length :=
  length_eq_length_filter_add f

/-- The loss of a labelled example is right exactly when the labels can be compared by two cursors. -/
theorem loss_exact_iff (words : List (List Byte)) (preds : List Nat) :
    LossExact (parse_label words) preds ↔ parse_label words = [] ∨ Comparable (parse_label words) preds := by
  generalize parse_label words = given
  unfold LossExact update_stats_multilabel
  by_cases hempty : given = []
  · simp [hempty]
  · rw [if_neg hempty, or_iff_right hempty, forall_prop_of_true hempty]
    have hcard : (symmDiff preds.toFinset given.toFinset).card =
        (preds.toFinset \ given.toFinset).card + (given.toFinset \ preds.toFinset).card :=
      Finset.card_union_of_disjoint disjoint_sdiff_sdiff
    have hpreds := card_only preds given (fun label => !shared preds given label) fun x hx => by simp [shared, hx]
    have hgiven := card_only given preds (fun label => !shared preds given label) fun x hx => by simp [shared, hx]
    have hshared : ∀ label ∈ preds, label ∈ given → shared preds given label :=
      fun label hp hg => by simp [shared, hp, hg]
    have hkey : Function.Injective (id : Nat → Nat) := Function.injective_id
    have hmet := all_met_iff hkey hshared
    have hle := length_common_le hkey hshared
    have hle' := length_common_le hkey fun label hg hp => hshared label hp hg
    rw [length_common_comm] at hle'
    have hloss := loss_loop_eq preds given
    have hsplit := length_filter_split preds (shared preds given)
    have hsplit' := length_filter_split given (shared preds given)
    unfold Comparable
    rw [← hmet, ← hpreds.2, ← hgiven.2, hcard, AllMet]
    omega

/-- The label `2,1`, of which `multilabel_oaa` has predicted both. -/
theorem not_loss_exact : ¬ LossExact (parse_label [[50, 44, 49]]) [1, 2] := by
  have hparse : parse_label [[50, 44, 49]] = [2, 1] := by
    show (Primitives.tokenize_loop 44 false false ([50] ++ 44 :: [49])).map _ = _
    rw [Primitives.tokenize_loop_cons [49] (by decide), Primitives.tokenize_loop_last (by decide)]
    decide
  have hloss : loss_loop [1, 2] [2, 1] = 2 := by simp [loss_loop]
  rw [hparse]
  intro h
  have hexact := h (by decide)
  rw [update_stats_multilabel, if_neg (by decide), hloss] at hexact
  exact absurd hexact (by decide)

end VW.Multilabel
