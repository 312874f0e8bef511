import VowpalWabbit.Slim.Widths

/-! # Where slim and VW find a weight

    Both examples have the same features, with indices that are related: those of VW are those
    of slim in strides, as far as the mask of the weights goes. This relation is kept by the
    hashes of interactions and by the offsets.
-/

open Cpp Nat

namespace VW.Slim

open List Features

variable {V : Type}

/-! ## Indices in strides -/

/-- The index `y` is `x` in strides, as far as the weights go. -/
def Strided (b s : Nat) (x y : FeatureIndex) : Prop := x.toNat * 2 ^ s ≡ y.toNat [MOD 2 ^ (b + s)]

variable {k : Nat}

/-- Numbers of 64 bits wrap around within the weights. -/
theorem wrap_modEq (hk : k ≤ 64) (n : Nat) : n % 2 ^ 64 ≡ n [MOD 2 ^ k] :=
  Nat.ModEq.of_dvd (pow_dvd_pow 2 hk) (mod_modEq n (2 ^ 64))

variable {b s : Nat}

/-- The same for a number in strides. -/
theorem wrap_stride (hbits : b + s ≤ 64) (n : Nat) :
    n % 2 ^ 64 * 2 ^ s ≡ n * 2 ^ s [MOD 2 ^ (b + s)] :=
  (wrap_modEq hbits n).mul_right (2 ^ s)

variable {x y : FeatureIndex}

theorem strided_xor {x' y' : FeatureIndex} (hx : Strided b s x x') (hy : Strided b s y y') :
    Strided b s (x ^^^ y) (x' ^^^ y') := by
  unfold Strided Nat.ModEq at *
  rw [BitVec.toNat_xor, BitVec.toNat_xor, ← shiftLeft_eq, shiftLeft_xor_distrib, xor_mod_two_pow,
    xor_mod_two_pow, shiftLeft_eq, shiftLeft_eq, hx, hy]

theorem strided_mul (hbits : b + s ≤ 64) (h : Strided b s x y) (c : FeatureIndex) :
    Strided b s (c * x) (c * y) := by
  unfold Strided at *
  rw [BitVec.toNat_mul, BitVec.toNat_mul]
  refine (wrap_stride hbits _).trans (Nat.ModEq.trans ?_ (wrap_modEq hbits _).symm)
  rw [mul_assoc]
  exact h.mul_left _

theorem strided_add (hbits : b + s ≤ 64) {x' y' : FeatureIndex} (hx : Strided b s x x')
    (hy : Strided b s y y') : Strided b s (x + y) (x' + y') := by
  unfold Strided at *
  rw [BitVec.toNat_add, BitVec.toNat_add]
  refine (wrap_stride hbits _).trans (Nat.ModEq.trans ?_ (wrap_modEq hbits _).symm)
  rw [add_mul]
  exact hx.add hy

theorem strided_hash (hbits : b + s ≤ 64) : HashRelation (Strided b s) where
  zero := by
    unfold Strided
    rw [show (0 : FeatureIndex).toNat = 0 from rfl, zero_mul]
  xor := strided_xor
  mul h := strided_mul hbits h FNV_PRIME

theorem mask_toNat (hk : k < 64) : ((1#64 <<< k) - 1#64).toNat = 2 ^ k - 1 := by
  have hlt : 2 ^ k < 2 ^ 64 := Nat.pow_lt_pow_right (by decide) hk
  have hpos : 0 < 2 ^ k := Nat.two_pow_pos k
  rw [BitVec.toNat_sub, BitVec.toNat_shiftLeft, BitVec.toNat_ofNat, shiftLeft_eq]
  simp only [reduceMod, reducePow, one_mul] at *
  omega

/-- The same weight is read for related indices, and only for these. -/
theorem same_weight_iff (hbits : b + s < 64) (x y : FeatureIndex) :
    slim_weight b x = vw_weight b s y ↔ x.toNat % 2 ^ b = y.toNat % 2 ^ (b + s) / 2 ^ s := by
  unfold slim_weight vw_weight
  rw [← BitVec.shiftLeft_add, ← BitVec.toNat_inj, BitVec.toNat_ushiftRight, BitVec.toNat_and, BitVec.toNat_and,
    mask_toNat (lt_of_le_of_lt (le_add_right b s) hbits), mask_toNat hbits, and_two_pow_sub_one_eq_mod,
    and_two_pow_sub_one_eq_mod, shiftRight_eq_div_pow]

theorem same_weight (hbits : b + s < 64) (h : Strided b s x y) :
    slim_weight b x = vw_weight b s y := by
  rw [same_weight_iff hbits]
  unfold Strided Nat.ModEq at h
  rw [← h, Nat.pow_add, Nat.mul_mod_mul_right, Nat.mul_div_cancel _ (Nat.two_pow_pos s)]

/-! ## Widths -/

/-- A positive number lies between two powers of two. -/
theorem ceil_log_2_spec {v : Nat} (h : 0 < v) : 2 ^ ceil_log_2 v ≤ 2 * v ∧ v < 2 ^ ceil_log_2 v := by
  induction v using Nat.strong_induction_on with
  | _ v ih =>
    rw [ceil_log_2, if_neg (ne_of_gt h), Nat.pow_add, pow_one]
    by_cases hone : v = 1
    · subst hone
      rw [ceil_log_2, if_pos rfl]
      decide
    · obtain ⟨hle, hlt⟩ := ih (v / 2) (by omega) (by omega)
      constructor
      · omega
      · omega

theorem interleave_loop_spec {feature_width_below : Nat} :
    ∀ {fuel k : Nat}, feature_width_below ≤ 2 ^ (k + fuel) → (k = 0 ∨ 2 ^ (k - 1) < feature_width_below) →
      feature_width_below ≤ 2 ^ interleave_loop feature_width_below fuel k ∧
        (interleave_loop feature_width_below fuel k = 0 ∨
          2 ^ (interleave_loop feature_width_below fuel k - 1) < feature_width_below) := by
  intro fuel
  induction fuel with
  | zero => exact fun hle hk => ⟨hle, hk⟩
  | succ fuel ih =>
    intro k hle hk
    unfold interleave_loop
    split
    · rename_i hlt
      exact ih (by rw [add_right_comm]; exact hle) (.inr hlt)
    · rename_i hnot
      exact ⟨Nat.le_of_not_lt hnot, hk⟩

theorem one_shiftLeft_toNat {w : Nat} (hk : k < w) : (1#w <<< k).toNat = 2 ^ k := by
  have hw : 1 < 2 ^ w := Nat.one_lt_two_pow (by omega)
  rw [BitVec.toNat_shiftLeft, BitVec.toNat_ofNat, Nat.mod_eq_of_lt hw, shiftLeft_eq, one_mul]
  exact Nat.mod_eq_of_lt (Nat.pow_lt_pow_right (by decide) hk)

variable {n : Nat}

/-- VW rounds a width of at most `2 ^ 30` floats up to a power of two. -/
theorem total_feature_width_small (hn : 0 < n) (hsmall : n * 2 ^ s ≤ 2 ^ 30) :
    ∃ k, n ≤ 2 ^ k ∧ 2 ^ k < 2 * n ∧ k + s < 31 ∧ total_feature_width (n * 2 ^ s) s = .ok (1#32 <<< k) := by
  have hbound : n * 2 ^ s ≤ 2 ^ (0 + 64) := Nat.le_trans hsmall (by decide)
  obtain ⟨hle, hlast⟩ := interleave_loop_spec hbound (.inl rfl)
  unfold total_feature_width
  generalize interleave_loop (n * 2 ^ s) 64 0 = r at hle hlast ⊢
  have hstride : s ≤ r := by
    have hpow : 2 ^ s ≤ 2 ^ r := Nat.le_trans (Nat.le_mul_of_pos_left _ hn) hle
    exact (Nat.pow_le_pow_iff_right (by decide)).mp hpow
  have hr : r < 31 := by
    rcases hlast with hzero | hlt
    · omega
    · have hpow : 2 ^ (r - 1) < 2 ^ 30 := Nat.lt_of_lt_of_le hlt hsmall
      have hlt' := (Nat.pow_lt_pow_iff_right (by decide)).mp hpow
      omega
  have hsplit : 2 ^ r = 2 ^ (r - s) * 2 ^ s := by rw [← Nat.pow_add, Nat.sub_add_cancel hstride]
  refine ⟨r - s, ?_, ?_, by omega, ?_⟩
  · rw [hsplit] at hle
    exact le_of_mul_le_mul_right hle (Nat.two_pow_pos s)
  · rcases hlast with hzero | hlt
    · subst hzero
      rw [Nat.zero_sub]
      omega
    · have hdouble : 2 ^ r < 2 * n * 2 ^ s := by
        have hpow : 2 ^ r = 2 * 2 ^ (r - 1) := by
          have hpos : 0 < r := by
            by_contra h
            obtain rfl : r = 0 := by omega
            exact absurd hle (Nat.not_le.mpr hlt)
          rw [← Nat.pow_succ', Nat.succ_eq_add_one, Nat.sub_add_cancel hpos]
        rw [hpow, mul_assoc]
        omega
      rw [hsplit] at hdouble
      exact Nat.lt_of_mul_lt_mul_right hdouble
  · rw [if_neg (by omega)]
    refine congrArg Except.ok (BitVec.eq_of_toNat_eq ?_)
    rw [BitVec.toNat_ushiftRight, one_shiftLeft_toNat (by omega), one_shiftLeft_toNat (by omega),
      shiftRight_eq_div_pow, hsplit, Nat.mul_div_cancel _ (Nat.two_pow_pos s)]

/-- A larger width is shifted out of the `int`. -/
theorem total_feature_width_large (hlarge : 2 ^ 30 < n * 2 ^ s) (hbound : n * 2 ^ s ≤ 2 ^ 64) :
    total_feature_width (n * 2 ^ s) s = Outcome.undefined := by
  have hbound' : n * 2 ^ s ≤ 2 ^ (0 + 64) := by
    rw [zero_add]
    exact hbound
  obtain ⟨hle, _⟩ := interleave_loop_spec hbound' (.inl rfl)
  unfold total_feature_width
  refine if_pos ?_
  have hpow := (Nat.pow_lt_pow_iff_right (by decide)).mp (Nat.lt_of_lt_of_le hlarge hle)
  exact hpow

/-! ## Examples -/

/-- Features with their indices multiplied. -/
def scaled (scale : BitVec 64) (fs : List (V × FeatureIndex)) : List (V × FeatureIndex) :=
  fs.map fun f => (f.1, f.2 * scale)

theorem items_scale (scale : BitVec 64) (f : Features V) :
    (scale_features scale f).items = scaled scale f.items := by
  unfold scale_features items scaled
  rw [zip_map_right]
  rfl

theorem items_push_all [Add V] [Mul V] (f : Features V) (fs : List (V × FeatureIndex)) :
    (f.push_all fs).items = f.items ++ fs := by
  unfold items
  rw [push_all_values, push_all_indices, zip_append f.size_eq]
  exact congrArg _ (zip_of_prod rfl rfl).symm

theorem items_concat [Add V] (f other : Features V) : (f.concat other).items = f.items ++ other.items := by
  unfold items
  exact zip_append f.size_eq

theorem set_features_self (ex : ExampleNamespaces V) (ns : NamespaceIndex) (f : Features V) :
    (set_features ex ns f).feature_space ns = f := Function.update_self ..

theorem set_features_other (ex : ExampleNamespaces V) {ns ns' : NamespaceIndex} (h : ns' ≠ ns) (f : Features V) :
    (set_features ex ns f).feature_space ns' = ex.feature_space ns' := Function.update_of_ne h ..

/-- Of the namespaces in the loop the indices are multiplied, once for each. -/
theorem foldl_scale (scale : BitVec 64) {l : List NamespaceIndex} :
    ∀ (ex : ExampleNamespaces V), l.Nodup →
      let ex' := l.foldl (fun ex ns => set_features ex ns (scale_features scale (ex.feature_space ns))) ex
      ex'.indices = ex.indices ∧
        ∀ ns, (ex'.feature_space ns).items =
          if ns ∈ l then scaled scale (ex.feature_space ns).items else (ex.feature_space ns).items := by
  induction l with
  | nil => exact fun _ _ => ⟨rfl, fun _ => rfl⟩
  | cons ns l ih =>
    intro ex hnodup
    obtain ⟨hnot, hnodup⟩ := nodup_cons.mp hnodup
    obtain ⟨hindices, hitems⟩ := ih (set_features ex ns (scale_features scale (ex.feature_space ns))) hnodup
    refine ⟨hindices, fun ns' => ?_⟩
    rw [foldl_cons, hitems ns']
    by_cases heq : ns' = ns
    · subst heq
      rw [if_neg hnot, if_pos mem_cons_self, set_features_self, items_scale]
    · rw [set_features_other ex heq]
      simp only [mem_cons, heq, false_or]

/-- An example whose namespaces are different, and empty where they are not listed. -/
structure WellFormed (ex : ExampleNamespaces V) : Prop where
  nodup : ex.indices.Nodup
  absent : ∀ ns, ns ∉ ex.indices → (ex.feature_space ns).items = []

variable {ex : ExampleNamespaces V}

theorem scale_indices_spec (h : WellFormed ex) (scale : BitVec 64) :
    (scale_indices scale ex).indices = ex.indices ∧
      ∀ ns, ((scale_indices scale ex).feature_space ns).items = scaled scale (ex.feature_space ns).items := by
  obtain ⟨hindices, hitems⟩ := foldl_scale scale ex h.nodup
  refine ⟨hindices, fun ns => (hitems ns).trans ?_⟩
  split
  · rfl
  · rename_i hnot
    rw [h.absent ns hnot]
    rfl

theorem scaled_one (fs : List (V × FeatureIndex)) : scaled 1 fs = fs := by
  unfold scaled
  conv_rhs => rw [← map_id fs]
  exact map_congr_left fun f _ => Prod.ext rfl (BitVec.mul_one f.2)

/-- What is appended to a namespace comes after its features, and a new namespace after the
    others. Slim and VW do the same here. -/
theorem copy_namespace_spec [Add V] [Mul V] (ex : ExampleNamespaces V) (ns : NamespaceIndex)
    (fs : List (V × FeatureIndex)) :
    (copy_namespace ex ns fs).indices = (ensure_namespace ex ns).indices ∧
      ∀ ns', ((copy_namespace ex ns fs).feature_space ns').items =
        (ex.feature_space ns').items ++ if ns' = ns then fs else [] := by
  have hspace : (ensure_namespace ex ns).feature_space = ex.feature_space := by
    unfold ensure_namespace
    split
    · rfl
    · rfl
  refine ⟨rfl, fun ns' => ?_⟩
  unfold copy_namespace
  by_cases heq : ns' = ns
  · subst heq
    rw [set_features_self, items_push_all, hspace, if_pos rfl]
  · rw [set_features_other _ heq, hspace, if_neg heq, append_nil]

theorem append_example_namespace_spec [Add V] [Mul V] (ex : ExampleNamespaces V)
    (ns : NamespaceIndex) (fs : Features V) :
    (append_example_namespace ex ns fs).indices = (copy_namespace ex ns fs.items).indices ∧
      ∀ ns', ((append_example_namespace ex ns fs).feature_space ns').items =
        ((copy_namespace ex ns fs.items).feature_space ns').items := by
  refine ⟨rfl, fun ns' => ?_⟩
  unfold append_example_namespace copy_namespace
  by_cases heq : ns' = ns
  · subst heq
    rw [set_features_self, set_features_self, items_concat, items_push_all]
  · rw [set_features_other _ heq, set_features_other _ heq]

theorem ensure_namespace_mem (ex : ExampleNamespaces V) (ns ns' : NamespaceIndex) :
    ns' ∈ (ensure_namespace ex ns).indices ↔ ns' ∈ ex.indices ∨ ns' = ns := by
  unfold ensure_namespace
  split
  · rename_i hmem
    exact ⟨.inl, fun h => h.elim id fun heq => heq ▸ hmem⟩
  · rw [mem_append, mem_singleton]

theorem ensure_namespace_nodup (h : ex.indices.Nodup) (ns : NamespaceIndex) :
    (ensure_namespace ex ns).indices.Nodup := by
  unfold ensure_namespace
  split
  · exact h
  · rename_i hnot
    exact nodup_append_comm.mp (nodup_cons.mpr ⟨hnot, h⟩)

/-- The features of an example come after those of another one. -/
structure Appended (ex ex' : ExampleNamespaces V) (more : NamespaceIndex → List (V × FeatureIndex))
    (names : NamespaceIndex → Prop) : Prop where
  nodup : ex.indices.Nodup → ex'.indices.Nodup
  mem : ∀ ns, ns ∈ ex'.indices ↔ ns ∈ ex.indices ∨ names ns
  items : ∀ ns, (ex'.feature_space ns).items = (ex.feature_space ns).items ++ more ns

theorem appended_copy [Add V] [Mul V] (ex : ExampleNamespaces V) (ns : NamespaceIndex)
    (fs : List (V × FeatureIndex)) :
    Appended ex (copy_namespace ex ns fs) (fun ns' => if ns' = ns then fs else []) (· = ns) :=
  ⟨fun h => ensure_namespace_nodup h ns, ensure_namespace_mem ex ns, (copy_namespace_spec ex ns fs).2⟩

theorem appended_append [Add V] [Mul V] (ex : ExampleNamespaces V) (ns : NamespaceIndex) (fs : Features V) :
    Appended ex (append_example_namespace ex ns fs) (fun ns' => if ns' = ns then fs.items else []) (· = ns) :=
  ⟨fun h => ensure_namespace_nodup h ns, ensure_namespace_mem ex ns, fun ns' =>
    ((append_example_namespace_spec ex ns fs).2 ns').trans ((copy_namespace_spec ex ns fs.items).2 ns')⟩

/-- One namespace of a list after the other, of which some are skipped. -/
theorem appended_foldl {step : ExampleNamespaces V → NamespaceIndex → ExampleNamespaces V}
    (takes : NamespaceIndex → Prop) [DecidablePred takes] {items : NamespaceIndex → List (V × FeatureIndex)}
    (hstep : ∀ ex ns, takes ns → Appended ex (step ex ns) (fun ns' => if ns' = ns then items ns else []) (· = ns))
    (hskip : ∀ ex ns, ¬ takes ns → step ex ns = ex) {l : List NamespaceIndex} :
    ∀ (ex : ExampleNamespaces V), l.Nodup →
      Appended ex (l.foldl step ex) (fun ns => if ns ∈ l ∧ takes ns then items ns else [])
        (fun ns => ns ∈ l ∧ takes ns) := by
  induction l with
  | nil => exact fun _ _ => ⟨id, fun ns => by simp, fun ns => by simp⟩
  | cons ns l ih =>
    intro ex hnodup
    obtain ⟨hnot, hnodup⟩ := nodup_cons.mp hnodup
    have hrest := ih (step ex ns) hnodup
    rw [foldl_cons]
    by_cases htakes : takes ns
    · have hhead := hstep ex ns htakes
      refine ⟨fun h => hrest.nodup (hhead.nodup h), fun ns' => ?_, fun ns' => ?_⟩
      · rw [hrest.mem, hhead.mem, mem_cons]
        constructor
        · rintro ((h | rfl) | ⟨h, htakes'⟩)
          · exact .inl h
          · exact .inr ⟨.inl rfl, htakes⟩
          · exact .inr ⟨.inr h, htakes'⟩
        · rintro (h | ⟨rfl | h, htakes'⟩)
          · exact .inl (.inl h)
          · exact .inl (.inr rfl)
          · exact .inr ⟨h, htakes'⟩
      · rw [hrest.items, hhead.items]
        by_cases heq : ns' = ns
        · subst heq
          simp [hnot, htakes]
        · simp [heq]
    · rw [hskip ex ns htakes] at hrest ⊢
      refine ⟨hrest.nodup, fun ns' => ?_, fun ns' => ?_⟩
      · rw [hrest.mem, mem_cons]
        constructor
        · rintro (h | ⟨h, htakes'⟩)
          · exact .inl h
          · exact .inr ⟨.inr h, htakes'⟩
        · rintro (h | ⟨rfl | h, htakes'⟩)
          · exact .inl h
          · exact absurd htakes' htakes
          · exact .inr ⟨h, htakes'⟩
      · rw [hrest.items]
        by_cases heq : ns' = ns
        · subst heq
          simp [htakes]
        · simp [heq]

/-! ## The examples of slim and of VW -/

/-- The features of a sub-model: those of the action and the shared ones, scaled, and the constant. -/
structure HasFeatures [Zero V] (ex : ExampleNamespaces V) (shared action : RawExample V) (scale : BitVec 64)
    (constant : List (V × FeatureIndex)) : Prop where
  nodup : ex.indices.Nodup
  mem : ∀ ns, ns ∈ ex.indices ↔ ns ∈ action.indices ∨ ns ∈ shared.indices ∨ (ns = CONSTANT_NAMESPACE ∧ constant ≠ [])
  items : ∀ ns, (ex.feature_space ns).items =
    if ns = CONSTANT_NAMESPACE then constant
    else scaled scale ((action.feature_space ns).items ++ (shared.feature_space ns).items)

theorem RawExample.wellFormed [Zero V] (ex : RawExample V) : WellFormed ex.toExampleNamespaces :=
  ⟨ex.nodup, fun ns hns => by
    rw [ex.absent ns hns]
    rfl⟩

/-- The features of an example, scaled for slim. -/
theorem feature_scale_guard_spec [Zero V] (ex : RawExample V) {scale : BitVec 64} (hscale : 0 < scale) :
    (feature_scale_guard ex.toExampleNamespaces scale).indices = ex.indices ∧
      ∀ ns, ((feature_scale_guard ex.toExampleNamespaces scale).feature_space ns).items =
        scaled scale (ex.feature_space ns).items := by
  unfold feature_scale_guard
  split
  · exact scale_indices_spec ex.wellFormed scale
  · rename_i hnot
    obtain rfl : scale = 1 := by
      rw [BitVec.lt_def] at hscale
      rw [BitVec.lt_def] at hnot
      apply BitVec.eq_of_toNat_eq
      change ¬ 1 < scale.toNat at hnot
      change 0 < scale.toNat at hscale
      change scale.toNat = 1
      omega
    exact ⟨rfl, fun ns => (scaled_one _).symm⟩

theorem RawExample.constant_items [Zero V] (ex : RawExample V) : (ex.feature_space CONSTANT_NAMESPACE).items = [] :=
  ex.wellFormed.absent _ ex.reserved

/-- The constant of slim: its index has the offset already. -/
def slim_constant (V : Type) [One V] (no_constant : Bool) (bits : Nat) (ft_offset : BitVec 64) :
    List (V × FeatureIndex) :=
  if no_constant then [] else [(1, (CONSTANT <<< bits) + ft_offset)]

def vw_constant (V : Type) [One V] (no_constant : Bool) (multiplier : BitVec 64) : List (V × FeatureIndex) :=
  if no_constant then [] else [(1, CONSTANT * multiplier)]

theorem RawExample.constant_nodup [Zero V] (ex : RawExample V) (no_constant : Bool) :
    (ex.indices ++ if no_constant then [] else [CONSTANT_NAMESPACE]).Nodup := by
  split
  · rw [append_nil]
    exact ex.nodup
  · exact nodup_append_comm.mp (nodup_cons.mpr ⟨ex.reserved, ex.nodup⟩)

variable [Zero V] [One V] [Add V] [Mul V]

/-- The example of a sub-model in slim. -/
theorem bag_example_features (bag_size : Nat) (no_constant : Bool) (i : Nat) (shared action : RawExample V)
    (hbits : ceil_log_2 bag_size < 64) :
    HasFeatures (bag_example bag_size no_constant i shared.toExampleNamespaces action.toExampleNamespaces)
      shared action (1#64 <<< ceil_log_2 bag_size)
      (slim_constant V no_constant (ceil_log_2 bag_size) (BitVec.ofNat 64 i)) := by
  have hscale : 0 < 1#64 <<< ceil_log_2 bag_size := by
    rw [BitVec.lt_def, one_shiftLeft_toNat hbits]
    exact Nat.two_pow_pos _
  obtain ⟨hsnames, hsitems⟩ := feature_scale_guard_spec shared hscale
  obtain ⟨hanames, haitems⟩ := feature_scale_guard_spec action hscale
  unfold bag_example slim_example
  dsimp only
  generalize feature_scale_guard shared.toExampleNamespaces (1#64 <<< ceil_log_2 bag_size) = sex at hsnames hsitems ⊢
  generalize feature_scale_guard action.toExampleNamespaces (1#64 <<< ceil_log_2 bag_size) = aex at hanames haitems ⊢
  have hcopied := appended_foldl (fun _ => True)
    (fun ex ns _ => appended_copy ex ns (sex.feature_space ns).items) (fun _ _ h => absurd trivial h) aex
    (hsnames ▸ shared.nodup)
  generalize sex.indices.foldl (fun ex ns => copy_namespace ex ns (sex.feature_space ns).items) aex = ex at hcopied ⊢
  have hitems : ∀ ns, (ex.feature_space ns).items = scaled (1#64 <<< ceil_log_2 bag_size)
      ((action.feature_space ns).items ++ (shared.feature_space ns).items) := by
    intro ns
    rw [hcopied.items, haitems, hsitems, hsnames]
    unfold scaled
    rw [map_append]
    congr 1
    split
    · rfl
    · rename_i hnot
      rw [shared.wellFormed.absent ns fun h => hnot ⟨h, trivial⟩]
      rfl
  have hmem : ∀ ns, ns ∈ ex.indices ↔ ns ∈ action.indices ∨ ns ∈ shared.indices := by
    intro ns
    rw [hcopied.mem, hanames, hsnames, and_true]
  have hnodup : ex.indices.Nodup := hcopied.nodup (hanames ▸ action.nodup)
  have hempty : (ex.feature_space CONSTANT_NAMESPACE).items = [] := by
    rw [hitems, action.constant_items, shared.constant_items]
    rfl
  cases no_constant with
  | true =>
    refine ⟨hnodup, fun ns => ?_, fun ns => ?_⟩
    · rw [if_pos rfl, hmem]
      simp [slim_constant]
    · rw [if_pos rfl]
      by_cases heq : ns = CONSTANT_NAMESPACE
      · subst heq
        rw [hempty, if_pos rfl]
        rfl
      · rw [hitems, if_neg heq]
  | false =>
    have hconstant := appended_copy ex CONSTANT_NAMESPACE
      [((1 : V), (CONSTANT <<< ceil_log_2 bag_size) + BitVec.ofNat 64 i)]
    refine ⟨hconstant.nodup hnodup, fun ns => ?_, fun ns => ?_⟩
    · refine (hconstant.mem ns).trans ?_
      rw [hmem, or_assoc]
      simp [slim_constant]
    · refine (hconstant.items ns).trans ?_
      by_cases heq : ns = CONSTANT_NAMESPACE
      · subst heq
        rw [hempty, if_pos rfl, if_pos rfl]
        rfl
      · rw [hitems, if_neg heq, if_neg heq, append_nil]

/-- An example that is set up by VW. -/
theorem setup_example_spec (no_constant : Bool) (width : BitVec 32) (stride_shift : Nat) (ex : RawExample V) :
    let ex' := setup_example no_constant width stride_shift ex.toExampleNamespaces
    ex'.indices = ex.indices ++ (if no_constant then [] else [CONSTANT_NAMESPACE]) ∧
      ∀ ns, (ex'.feature_space ns).items =
        if ns = CONSTANT_NAMESPACE then vw_constant V no_constant (width.setWidth 64 <<< stride_shift)
        else scaled (width.setWidth 64 <<< stride_shift) (ex.feature_space ns).items := by
  unfold setup_example
  generalize width.setWidth 64 <<< stride_shift = multiplier
  -- what is multiplied, the constant included
  obtain ⟨added, hadded, hindices, hwell, hitems⟩ : ∃ added : ExampleNamespaces V,
      (if no_constant then ex.toExampleNamespaces else add_constant_feature ex.toExampleNamespaces) = added ∧
      added.indices = ex.indices ++ (if no_constant then [] else [CONSTANT_NAMESPACE]) ∧ WellFormed added ∧
      ∀ ns, (added.feature_space ns).items =
        if ns = CONSTANT_NAMESPACE then vw_constant V no_constant 1 else (ex.feature_space ns).items := by
    cases no_constant with
    | true =>
      refine ⟨_, rfl, (append_nil _).symm, ex.wellFormed, fun ns => ?_⟩
      by_cases heq : ns = CONSTANT_NAMESPACE
      · subst heq
        rw [if_pos rfl, ex.constant_items]
        rfl
      · rw [if_neg heq]
        rfl
    | false =>
      have hitems : ∀ ns, ((add_constant_feature ex.toExampleNamespaces).feature_space ns).items =
          if ns = CONSTANT_NAMESPACE then vw_constant V false 1 else (ex.feature_space ns).items := by
        intro ns
        unfold add_constant_feature
        by_cases heq : ns = CONSTANT_NAMESPACE
        · subst heq
          rw [set_features_self, if_pos rfl]
          have hpush := items_push_all (ex.feature_space CONSTANT_NAMESPACE) [((1 : V), CONSTANT)]
          rw [ex.constant_items] at hpush
          refine hpush.trans ?_
          unfold vw_constant
          rw [if_neg (by simp), show CONSTANT * 1 = CONSTANT from rfl]
          rfl
        · rw [set_features_other _ heq, if_neg heq]
      refine ⟨_, rfl, rfl, ⟨?_, fun ns hns => ?_⟩, hitems⟩
      · exact nodup_append_comm.mp (nodup_cons.mpr ⟨ex.reserved, ex.nodup⟩)
      · have hns' : ns ∉ ex.indices ++ [CONSTANT_NAMESPACE] := hns
        rw [mem_append, mem_singleton, not_or] at hns'
        exact (hitems ns).trans ((if_neg hns'.2).trans (ex.wellFormed.absent ns hns'.1))
  rw [hadded]
  have hscaled : ∀ ns, scaled multiplier (added.feature_space ns).items =
      if ns = CONSTANT_NAMESPACE then vw_constant V no_constant multiplier
      else scaled multiplier (ex.feature_space ns).items := by
    intro ns
    rw [hitems]
    split
    · unfold vw_constant scaled
      split
      · rfl
      · rw [show CONSTANT * 1 = CONSTANT from rfl]
        rfl
    · rfl
  by_cases hone : multiplier = 1
  · rw [if_neg fun hne => hne hone]
    refine ⟨hindices, fun ns => ?_⟩
    rw [← hscaled, hone, scaled_one]
  · rw [if_pos hone]
    obtain ⟨hnames, hspace⟩ := scale_indices_spec hwell multiplier
    exact ⟨hnames.trans hindices, fun ns => (hspace ns).trans (hscaled ns)⟩

/-- The example of a sub-model in VW. -/
theorem vw_example_features (no_constant : Bool) (width : BitVec 32) (stride_shift : Nat)
    (shared action : RawExample V) :
    HasFeatures (vw_example no_constant width stride_shift shared.toExampleNamespaces action.toExampleNamespaces)
      shared action (width.setWidth 64 <<< stride_shift)
      (vw_constant V no_constant (width.setWidth 64 <<< stride_shift)) := by
  obtain ⟨hsnames, hsitems⟩ := setup_example_spec no_constant width stride_shift shared
  obtain ⟨hanames, haitems⟩ := setup_example_spec no_constant width stride_shift action
  unfold vw_example append_example_namespaces_from_example
  generalize setup_example no_constant width stride_shift shared.toExampleNamespaces = sex at hsnames hsitems ⊢
  generalize setup_example no_constant width stride_shift action.toExampleNamespaces = aex at hanames haitems ⊢
  have hsnodup : sex.indices.Nodup := by
    rw [hsnames]
    exact shared.constant_nodup no_constant
  have happended := @appended_foldl _ (fun target ns =>
      if ns = CONSTANT_NAMESPACE then target else append_example_namespace target ns (sex.feature_space ns))
    (fun ns => ns ≠ CONSTANT_NAMESPACE) _ _
    (fun ex ns hne => by rw [if_neg hne]; exact appended_append ex ns (sex.feature_space ns))
    (fun ex ns heq => if_pos (not_not.mp heq)) _ aex hsnodup
  refine ⟨happended.nodup (by rw [hanames]; exact action.constant_nodup no_constant), fun ns => ?_, fun ns => ?_⟩
  · rw [happended.mem, hanames, hsnames]
    have hshared : ns ∈ shared.indices → ns ≠ CONSTANT_NAMESPACE := fun h heq => shared.reserved (heq ▸ h)
    cases no_constant with
    | true =>
      simp only [vw_constant, if_pos, append_nil, ne_eq, not_true_eq_false, and_false, or_false]
      exact or_congr_right ⟨fun h => h.1, fun h => ⟨h, hshared h⟩⟩
    | false =>
      simp only [vw_constant, Bool.false_eq_true, if_false, mem_append, mem_singleton, ne_eq,
        cons_ne_nil, not_false_eq_true, and_true]
      constructor
      · rintro ((h | h) | ⟨h | h, hne⟩)
        · exact .inl h
        · exact .inr (.inr h)
        · exact .inr (.inl h)
        · exact absurd h hne
      · rintro (h | h | h)
        · exact .inl (.inl h)
        · exact .inr ⟨.inl h, hshared h⟩
        · exact .inl (.inr h)
  · rw [happended.items, haitems, hsitems, hsnames]
    by_cases heq : ns = CONSTANT_NAMESPACE
    · simp [heq]
    · rw [if_neg heq, if_neg heq, if_neg heq]
      unfold scaled
      rw [map_append]
      congr 1
      by_cases hmem : ns ∈ shared.indices
      · exact if_pos ⟨mem_append_left _ hmem, heq⟩
      · rw [shared.wellFormed.absent ns hmem, map_nil, ite_self]

/-! ## The weights -/

/-- The weights that are read for the features of a namespace. -/
def linear_weights (weight : FeatureIndex → BitVec 64) (ex : ExampleNamespaces V) (ft_offset : BitVec 64)
    (ns : NamespaceIndex) : List (BitVec 64) :=
  (ex.feature_space ns).items.map fun f => weight (f.2 + ft_offset)

/-- The weights that are read for interactions, if the fuel lasts. -/
def interaction_weights (weight : FeatureIndex → BitVec 64) (fuel : Nat) (interactions : List (List NamespaceIndex))
    (ex : ExampleNamespaces V) (ft_offset : BitVec 64) : Option (List (BitVec 64)) :=
  (generate_interactions fuel interactions [] false (to_predict ex ft_offset)).map fun generated =>
    generated.2.map fun f => weight f.2

/-- Slim and VW read the same weights for the features and the interactions of an example. -/
structure ReadsSame (num_bits stride_shift : Nat) (slim vw : ExampleNamespaces V) (slim_offset vw_offset : BitVec 64)
    (interactions : List (List NamespaceIndex)) : Prop where
  namespaces : slim.indices.Perm vw.indices
  linear : ∀ ns, linear_weights (slim_weight num_bits) slim slim_offset ns =
    linear_weights (vw_weight num_bits stride_shift) vw vw_offset ns
  interacted : ∀ fuel, interaction_weights (slim_weight num_bits) fuel interactions slim slim_offset =
    interaction_weights (vw_weight num_bits stride_shift) fuel interactions vw vw_offset

/-- Slim addresses the weights of VW, for all sub-models and all examples. -/
def AddressesSame (V : Type) [Zero V] [One V] [Add V] [Mul V] (bag_size num_bits stride_shift : Nat)
    (no_constant : Bool) : Prop :=
  ∃ width, total_feature_width (bag_size * 2 ^ stride_shift) stride_shift = .ok width ∧
    ∀ i < bag_size, ∀ (shared action : RawExample V) (interactions : List (List NamespaceIndex)),
      ReadsSame num_bits stride_shift
        (bag_example bag_size no_constant i shared.toExampleNamespaces action.toExampleNamespaces)
        (vw_example no_constant width stride_shift shared.toExampleNamespaces action.toExampleNamespaces)
        (BitVec.ofNat 64 i) (vw_offset stride_shift i) interactions

/-- The indices are right: VW's width fits into its `int`, and there is just one weight; or there
    is no constant, and the number of sub-models is no power of two, or not less than that of
    the weights. -/
def SlimWidths (bag_size num_bits stride_shift : Nat) (no_constant : Bool) : Prop :=
  bag_size * 2 ^ stride_shift ≤ 2 ^ 30 ∧
    (num_bits = 0 ∨ (no_constant = true ∧ ((∀ k, bag_size ≠ 2 ^ k) ∨ 2 ^ num_bits ≤ bag_size)))

theorem map_eq_map {A B C : Type} {R : A → B → Prop} {f : A → C} {g : B → C} {l : List A} {l' : List B}
    (h : List.Forall₂ R l l') (hf : ∀ a b, R a b → f a = g b) : l.map f = l'.map g := by
  induction h with
  | nil => rfl
  | cons head _ ih => rw [map_cons, map_cons, hf _ _ head, ih]

omit [Zero V] [Add V] in
/-- The same weights are read for features that are related. -/
theorem reads_same (hbits : b + s < 64) {slim vw : ExampleNamespaces V}
    {slim_offset vw_offset : BitVec 64} (hperm : slim.indices.Perm vw.indices)
    (hitems : ∀ ns, List.Forall₂ (RelatedFeature (Strided b s)) (slim.feature_space ns).items
      (vw.feature_space ns).items) (hoffset : Strided b s slim_offset vw_offset)
    (interactions : List (List NamespaceIndex)) :
    ReadsSame b s slim vw slim_offset vw_offset interactions := by
  have hweight : ∀ {x y : FeatureIndex}, Strided b s x y →
      slim_weight b (x + slim_offset) = vw_weight b s (y + vw_offset) :=
    fun h => same_weight hbits (strided_add (Nat.le_of_lt hbits) h hoffset)
  refine ⟨hperm, fun ns => ?_, fun fuel => ?_⟩
  · exact map_eq_map (hitems ns) fun f g hfg => hweight hfg.2
  · have hrelated : RelatedExample (Strided b s) (to_predict slim slim_offset) (to_predict vw vw_offset) := by
      refine ⟨?_, hitems⟩
      change address slim.feature_space = address vw.feature_space
      funext ns
      unfold address
      refine congrArg sum (map_congr_left fun k _ => ?_)
      rw [← length_items, ← length_items]
      exact (hitems _).length_eq
    have hgenerated := related_generate (strided_hash (Nat.le_of_lt hbits)) false fuel hrelated interactions
      (S := fun x y => slim_weight b x = vw_weight b s y) hweight
    unfold interaction_weights
    generalize generate_interactions fuel interactions [] false (to_predict slim slim_offset) = r at hgenerated ⊢
    generalize generate_interactions fuel interactions [] false (to_predict vw vw_offset) = r' at hgenerated ⊢
    cases hgenerated with
    | none => rfl
    | some h => exact congrArg some (map_eq_map h.2 fun f g hfg => hfg.2)

variable {c : Nat}

/-- The widths of slim and VW are the same, but for powers of two. -/
theorem widths (hc : 2 ^ c ≤ 2 * n ∧ n < 2 ^ c) (hk : n ≤ 2 ^ k ∧ 2 ^ k < 2 * n) :
    ((∀ j, n ≠ 2 ^ j) ∧ c = k) ∨ (n = 2 ^ k ∧ c = k + 1) := by
  have hlt : ∀ {a b : Nat}, 2 ^ a < 2 ^ b → a < b := fun h => (Nat.pow_lt_pow_iff_right (by decide)).mp h
  have hsucc : ∀ a : Nat, 2 ^ (a + 1) = 2 * 2 ^ a := fun a => Nat.pow_succ'
  have hck : c < k + 2 := hlt (by
    rw [hsucc, hsucc]
    omega)
  have hkc : k < c + 1 := hlt (by
    rw [hsucc]
    omega)
  rcases lt_or_ge k c with hlow | hge
  · obtain rfl : c = k + 1 := by omega
    refine .inr ⟨?_, rfl⟩
    rw [hsucc] at hc
    omega
  · obtain rfl : c = k := by omega
    refine .inl ⟨fun j hj => ?_, rfl⟩
    -- there is no power of two between two others
    subst hj
    have hjc := hlt hc.2
    have hcj : c < j + 1 := hlt (by
      rw [hsucc]
      exact hk.2)
    omega

/-- The multiplier of VW is the width in strides. -/
theorem strided_scale (hbits : b + s < 64) (hk : k + s < 31) (f : FeatureIndex) :
    Strided b s (f * (1#64 <<< k)) (f * ((1#32 <<< k).setWidth 64 <<< s)) := by
  have hwidth : ((1#32 <<< k).setWidth 64 <<< s).toNat = 2 ^ k * 2 ^ s := by
    rw [BitVec.toNat_shiftLeft, BitVec.toNat_setWidth, one_shiftLeft_toNat (by omega), shiftLeft_eq]
    have hlt : 2 ^ k < 2 ^ 64 := Nat.pow_lt_pow_right (by decide) (by omega)
    rw [Nat.mod_eq_of_lt hlt, ← Nat.pow_add]
    exact Nat.mod_eq_of_lt (Nat.pow_lt_pow_right (by decide) (by omega))
  unfold Strided
  rw [BitVec.toNat_mul, BitVec.toNat_mul, hwidth, one_shiftLeft_toNat (by omega)]
  refine (wrap_stride (Nat.le_of_lt hbits) _).trans (Nat.ModEq.trans ?_ (wrap_modEq (Nat.le_of_lt hbits) _).symm)
  rw [mul_assoc]

theorem strided_offset {i : Nat} (hsmall : n * 2 ^ s ≤ 2 ^ 30) (hi : i < n) :
    Strided b s (BitVec.ofNat 64 i) (vw_offset s i) := by
  have hle : 2 ^ s * i ≤ 2 ^ 30 := by
    rw [mul_comm]
    exact Nat.le_trans (mul_le_mul_right _ (Nat.le_of_lt hi)) hsmall
  have hi' : i ≤ 2 ^ 30 := Nat.le_trans (Nat.le_mul_of_pos_left i (Nat.two_pow_pos s)) hle
  unfold Strided vw_offset
  rw [BitVec.toNat_ofNat, BitVec.toNat_setWidth, BitVec.toNat_ofNat, Nat.mod_eq_of_lt (by omega),
    Nat.mod_eq_of_lt (by omega : 2 ^ s * i < 2 ^ 32), Nat.mod_eq_of_lt (by omega), mul_comm]

/-! ## Where the addresses are the same -/

/-- The scales are the same, as far as the weights go. -/
theorem scale_modEq (hwidths : ((∀ j, n ≠ 2 ^ j) ∧ c = k) ∨ (n = 2 ^ k ∧ c = k + 1)) :
    2 ^ c ≡ 2 ^ k [MOD 2 ^ b] ↔ b = 0 ∨ (∀ j, n ≠ 2 ^ j) ∨ 2 ^ b ≤ n := by
  rcases hwidths with ⟨hnot, rfl⟩ | ⟨rfl, rfl⟩
  · exact iff_of_true rfl (.inr (.inl hnot))
  · rw [pow_succ]
    constructor
    · intro h
      have hdvd : 2 ^ b ∣ 2 ^ k := by
        have hsub := (modEq_iff_dvd' (by omega : 2 ^ k ≤ 2 ^ k * 2)).mp h.symm
        rw [Nat.mul_two, Nat.add_sub_cancel] at hsub
        exact hsub
      exact .inr (.inr (Nat.le_of_dvd (Nat.two_pow_pos k) hdvd))
    · intro h
      have hdvd : 2 ^ b ∣ 2 ^ k := by
        rcases h with rfl | hnot | hle
        · exact one_dvd _
        · exact absurd rfl (hnot k)
        · exact pow_dvd_pow 2 ((Nat.pow_le_pow_iff_right (by decide)).mp hle)
      exact ((Nat.modEq_zero_iff_dvd.mpr (Dvd.dvd.mul_right hdvd 2)).trans (Nat.modEq_zero_iff_dvd.mpr hdvd).symm)

/-- An action with one feature, of index 1. -/
def one_feature : RawExample V where
  indices := [97]
  feature_space := Function.update (fun _ => empty) 97 (empty.push_back 1 1)
  nodup := nodup_singleton _
  absent := fun _ hns => Function.update_of_ne (fun h => hns (mem_singleton.mpr h)) ..
  reserved := by decide

/-- An example without features. -/
def no_features : RawExample V where
  indices := []
  feature_space := fun _ => empty
  nodup := nodup_nil
  absent := fun _ _ => rfl
  reserved := not_mem_nil

theorem slim_weight_modEq (hb : b < 64) (h : slim_weight b x = slim_weight b y) :
    x.toNat ≡ y.toNat [MOD 2 ^ b] := by
  have heq := congrArg BitVec.toNat h
  unfold slim_weight at heq
  rwa [BitVec.toNat_and, BitVec.toNat_and, mask_toNat hb, and_two_pow_sub_one_eq_mod,
    and_two_pow_sub_one_eq_mod] at heq

theorem strided_slim (hbits : b + s < 64) (hk : k + s < 31) (hc : c < 64)
    (hscale : 2 ^ c ≡ 2 ^ k [MOD 2 ^ b]) (f : FeatureIndex) :
    Strided b s (f * (1#64 <<< c)) (f * ((1#32 <<< k).setWidth 64 <<< s)) := by
  refine Nat.ModEq.trans ?_ (strided_scale hbits hk f)
  rw [BitVec.toNat_mul, BitVec.toNat_mul, one_shiftLeft_toNat hc, one_shiftLeft_toNat (by omega)]
  refine (wrap_stride (Nat.le_of_lt hbits) _).trans (Nat.ModEq.trans ?_ (wrap_stride (Nat.le_of_lt hbits) _).symm)
  rw [Nat.pow_add]
  exact (hscale.mul_left f.toNat).mul_right' (2 ^ s)

variable {no_constant : Bool}

/-- With scales that are the same, and no constant or no more than one weight, the same weights
    are read. -/
theorem reads_same_of_scale {i : Nat} (hbits : b + s < 64) (hk : k + s < 31)
    (hc : ceil_log_2 n < 64) (hscale : 2 ^ ceil_log_2 n ≡ 2 ^ k [MOD 2 ^ b])
    (hoffset : Strided b s (BitVec.ofNat 64 i) (vw_offset s i))
    (hconstant : b = 0 ∨ no_constant = true) (shared action : RawExample V)
    (interactions : List (List NamespaceIndex)) :
    ReadsSame b s (bag_example n no_constant i shared.toExampleNamespaces action.toExampleNamespaces)
      (vw_example no_constant (1#32 <<< k) s shared.toExampleNamespaces action.toExampleNamespaces)
      (BitVec.ofNat 64 i) (vw_offset s i) interactions := by
  have hslim := bag_example_features n no_constant i shared action hc
  have hvw := vw_example_features no_constant (1#32 <<< k) s shared action
  refine reads_same hbits ?_ (fun ns => ?_) hoffset interactions
  · refine (perm_ext_iff_of_nodup hslim.nodup hvw.nodup).mpr fun ns => ?_
    rw [hslim.mem, hvw.mem]
    unfold slim_constant vw_constant
    cases no_constant with
    | true => rfl
    | false => simp
  · rw [hslim.items, hvw.items]
    split
    · unfold slim_constant vw_constant
      cases no_constant with
      | true => exact .nil
      | false =>
        have hzero : b = 0 := hconstant.resolve_right (by simp)
        subst hzero
        refine .cons ⟨rfl, Nat.ModEq.trans ?_ (strided_scale hbits hk CONSTANT)⟩ .nil
        rw [zero_add]
        exact (Nat.modEq_zero_iff_dvd.mpr (dvd_mul_left _ _)).trans
          (Nat.modEq_zero_iff_dvd.mpr (dvd_mul_left _ _)).symm
    · unfold scaled
      rw [forall₂_map_left_iff, forall₂_map_right_iff]
      exact forall₂_same.mpr fun f _ => ⟨rfl, strided_slim hbits hk hc hscale f.2⟩

/-- What the weights of one feature tell of the scales. -/
theorem scale_of_reads_same (hbits : b + s < 64) (hk : k + s < 31) (hc : ceil_log_2 n < 64)
    (h : ReadsSame b s (bag_example n no_constant 0 (no_features (V := V)).toExampleNamespaces
        one_feature.toExampleNamespaces)
      (vw_example no_constant (1#32 <<< k) s (no_features (V := V)).toExampleNamespaces
        one_feature.toExampleNamespaces)
      (BitVec.ofNat 64 0) (vw_offset s 0) []) : 2 ^ ceil_log_2 n ≡ 2 ^ k [MOD 2 ^ b] := by
  have hb : b < 64 := lt_of_le_of_lt (le_add_right b s) hbits
  have hlinear := h.linear 97
  unfold linear_weights at hlinear
  rw [(bag_example_features n no_constant 0 no_features one_feature hc).items,
    (vw_example_features no_constant (1#32 <<< k) s no_features one_feature).items] at hlinear
  have hitems : ((one_feature (V := V)).feature_space 97).items ++ ((no_features (V := V)).feature_space 97).items =
      [(1, 1)] := rfl
  rw [if_neg (by decide), if_neg (by decide), hitems] at hlinear
  have hweight := (cons.inj hlinear).1
  have hvw : vw_weight b s (1 * ((1#32 <<< k).setWidth 64 <<< s) + vw_offset s 0) =
      slim_weight b (1 * (1#64 <<< k) + BitVec.ofNat 64 0) := by
    refine (same_weight hbits (strided_add (Nat.le_of_lt hbits) (strided_scale hbits hk 1) ?_)).symm
    unfold vw_offset Strided
    rw [mul_zero, show (BitVec.ofNat 64 0).toNat = 0 from rfl, zero_mul]
    rfl
  have hmod := slim_weight_modEq hb (hweight.trans hvw)
  have hone : ∀ {j : Nat}, j < 64 → (1 * (1#64 <<< j) + BitVec.ofNat 64 0).toNat = 2 ^ j := by
    intro j hj
    rw [show (1 : BitVec 64) * (1#64 <<< j) = 1#64 <<< j from BitVec.one_mul _, BitVec.add_zero,
      one_shiftLeft_toNat hj]
  rwa [hone hc, hone (by omega)] at hmod

/-- The constant of the second sub-model is one off. -/
theorem constant_of_reads_same (hbits : b + s < 64) (hk : k + s < 31) (hc : ceil_log_2 n < 64)
    (hscale : 2 ^ ceil_log_2 n ≡ 2 ^ k [MOD 2 ^ b])
    (hoffset : Strided b s (BitVec.ofNat 64 1) (vw_offset s 1))
    (h : ReadsSame b s (bag_example n false 1 (no_features (V := V)).toExampleNamespaces
        no_features.toExampleNamespaces)
      (vw_example false (1#32 <<< k) s (no_features (V := V)).toExampleNamespaces no_features.toExampleNamespaces)
      (BitVec.ofNat 64 1) (vw_offset s 1) []) : b = 0 := by
  have hb : b < 64 := lt_of_le_of_lt (le_add_right b s) hbits
  have hlinear := h.linear CONSTANT_NAMESPACE
  unfold linear_weights at hlinear
  rw [(bag_example_features n false 1 no_features no_features hc).items,
    (vw_example_features false (1#32 <<< k) s no_features no_features).items, if_pos rfl, if_pos rfl] at hlinear
  have hweight := (cons.inj hlinear).1
  have hvw : vw_weight b s (CONSTANT * ((1#32 <<< k).setWidth 64 <<< s) + vw_offset s 1) =
      slim_weight b (CONSTANT * (1#64 <<< ceil_log_2 n) + BitVec.ofNat 64 1) :=
    (same_weight hbits (strided_add (Nat.le_of_lt hbits) (strided_slim hbits hk hc hscale CONSTANT) hoffset)).symm
  have hmod := slim_weight_modEq hb (hweight.trans hvw)
  have hshift : CONSTANT <<< ceil_log_2 n = CONSTANT * (1#64 <<< ceil_log_2 n) := by
    rw [BitVec.shiftLeft_eq_mul_twoPow, BitVec.twoPow]
  dsimp only at hmod
  rw [hshift] at hmod
  generalize CONSTANT * (1#64 <<< ceil_log_2 n) + BitVec.ofNat 64 1 = u at hmod
  -- a number and the next one are not the same, except without any bits
  have hnext : u.toNat + 1 ≡ u.toNat [MOD 2 ^ b] := by
    refine Nat.ModEq.trans (wrap_modEq (Nat.le_of_lt hb) _).symm ?_
    rw [BitVec.toNat_add] at hmod
    exact hmod
  have hone : 1 ≡ 0 [MOD 2 ^ b] := Nat.ModEq.add_left_cancel' u.toNat hnext
  have hdvd : 2 ^ b ∣ 1 := Nat.modEq_zero_iff_dvd.mp hone
  have hpow : 2 ^ b = 2 ^ 0 := Nat.dvd_one.mp hdvd
  exact Nat.pow_right_injective (by decide) hpow

/-- Slim addresses the weights of VW exactly where the widths are right. -/
theorem addresses_same_iff (bag_size num_bits stride_shift : Nat) (no_constant : Bool) (hbag : 0 < bag_size)
    (hint : bag_size < 2 ^ 31) (hnum_bits : num_bits ≤ 61) (hstride : stride_shift ≤ 2) :
    AddressesSame V bag_size num_bits stride_shift no_constant ↔
      SlimWidths bag_size num_bits stride_shift no_constant := by
  have hbits : num_bits + stride_shift < 64 := by omega
  obtain ⟨hclow, hchigh⟩ := ceil_log_2_spec hbag
  have hc : ceil_log_2 bag_size < 64 := by
    have hpow : 2 ^ ceil_log_2 bag_size < 2 ^ 33 := by omega
    have := (Nat.pow_lt_pow_iff_right (by decide)).mp hpow
    omega
  unfold AddressesSame SlimWidths
  by_cases hsmall : bag_size * 2 ^ stride_shift ≤ 2 ^ 30
  swap
  · -- the width of VW is shifted out of its `int`
    refine iff_of_false (fun h => ?_) fun h => hsmall h.1
    obtain ⟨width, hwidth, _⟩ := h
    have hbound : bag_size * 2 ^ stride_shift ≤ 2 ^ 64 := by
      have hpow : 2 ^ stride_shift ≤ 2 ^ 2 := Nat.pow_le_pow_right (by decide) hstride
      exact Nat.le_trans (Nat.mul_le_mul (Nat.le_of_lt hint) hpow) (by decide)
    rw [total_feature_width_large (Nat.lt_of_not_le hsmall) hbound] at hwidth
    cases hwidth
  obtain ⟨k, hklow, hkhigh, hks, hwidth⟩ := total_feature_width_small hbag hsmall
  have hscale := scale_modEq (b := num_bits) (widths ⟨hclow, hchigh⟩ ⟨hklow, hkhigh⟩)
  have hoffset : ∀ i < bag_size, Strided num_bits stride_shift (BitVec.ofNat 64 i) (vw_offset stride_shift i) :=
    fun i hi => strided_offset hsmall hi
  constructor
  · rintro ⟨width, hok, hreads⟩
    rw [hwidth] at hok
    cases hok
    refine ⟨hsmall, ?_⟩
    have hmod := scale_of_reads_same hbits hks hc (hreads 0 hbag no_features one_feature [])
    by_cases hzero : num_bits = 0
    · exact .inl hzero
    refine .inr ⟨?_, (hscale.mp hmod).resolve_left hzero⟩
    by_contra hconstant
    rw [Bool.not_eq_true] at hconstant
    subst hconstant
    -- one sub-model alone has scales that are different
    have hone : 1 < bag_size := by
      by_contra hle
      obtain rfl : bag_size = 1 := by omega
      rcases (hscale.mp hmod).resolve_left hzero with hnot | hle'
      · exact hnot 0 rfl
      · have hlt : 1 < 2 ^ num_bits := Nat.one_lt_two_pow hzero
        omega
    exact hzero (constant_of_reads_same hbits hks hc hmod (hoffset 1 hone)
      (hreads 1 hone no_features no_features []))
  · rintro ⟨_, hcondition⟩
    refine ⟨_, hwidth, fun i hi shared action interactions => ?_⟩
    refine reads_same_of_scale hbits hks hc (hscale.mpr ?_) (hoffset i hi) ?_ shared action interactions
    · exact hcondition.imp_right fun h => h.2
    · exact hcondition.imp_right fun h => h.1

/-- Three sub-models without the constant. -/
theorem addresses_same_three : AddressesSame Int 3 18 0 true :=
  (addresses_same_iff 3 18 0 true (by decide) (by decide) (by decide) (by decide)).mpr
    ⟨by decide, .inr ⟨rfl, .inl fun k hk => by
      rcases k with _ | k
      · cases hk
      · rw [pow_succ] at hk
        omega⟩⟩

/-- With two sub-models the scale of slim is twice that of VW, and with three the constant of the
    second is one off. -/
theorem addresses_differ : ¬ AddressesSame Int 2 18 0 true ∧ ¬ AddressesSame Int 3 18 0 false := by
  have htwo : ceil_log_2 2 = 2 := by simp [ceil_log_2]
  have hthree : ceil_log_2 3 = 2 := by simp [ceil_log_2]
  constructor
  · rintro ⟨width, hwidth, hreads⟩
    obtain rfl : 1#32 <<< 1 = width := Except.ok.inj (show total_feature_width (2 * 2 ^ 0) 0 = _ from hwidth)
    have hmod := scale_of_reads_same (by decide) (by decide) (by rw [htwo]; decide)
      (hreads 0 (by decide) no_features one_feature [])
    rw [htwo] at hmod
    exact absurd hmod (by decide)
  · rintro ⟨width, hwidth, hreads⟩
    obtain rfl : 1#32 <<< 2 = width := Except.ok.inj (show total_feature_width (3 * 2 ^ 0) 0 = _ from hwidth)
    have hoffset : Strided 18 0 (1#64) (vw_offset 0 1) := show _ ≡ _ [MOD _] from rfl
    have hzero := constant_of_reads_same (by decide) (by decide) (by rw [hthree]; decide) (by rw [hthree])
      hoffset (hreads 1 (by decide) no_features no_features [])
    exact absurd hzero (by decide)

end VW.Slim
