import VowpalWabbit.Framework.Vectors
import VowpalWabbit.Interactions.Generate

/-! # Workspaces whose features are compatible

    `are_features_compatible` goes through the settings of two workspaces and returns the name
    of the first one that differs. The definitions of n-grams and skips are compared as far as
    those of the first workspace go, whatever the length of the others; the interactions of full
    namespaces and the dictionaries of the namespaces are not compared at all.

    A set of workspaces is related as the function promises exactly when no definitions in it
    are a proper beginning of others, where the comparison gets that far, and those workspaces
    that agree on all that is compared agree on these two as well.
-/

open Cpp Cpp.Outcome Vector

namespace VW.Compatibility

/-! ## Settings -/

def NUM_NAMESPACES : Nat := 256

/-- The functions that `--hash` chooses from. -/
inductive Hasher where
  | hashstring | hashall
  deriving DecidableEq, Repr

structure KskipNgramTransformer where
  initial_ngram_definitions : List (List Byte)
  initial_skip_definitions : List (List Byte)
  deriving DecidableEq, Repr

/-- `feature_dict`: the features of a word. -/
abbrev FeatureDict (V : Type) : Type := List Byte → Option (Features V)

/-- The settings that decide which features an example gets. `ignore` holds what `--ignore` and
    `--keep` come to. -/
structure FeatureTweaksConfig (V : Type) where
  add_constant : Bool
  permutations : Bool
  interactions : List (List NamespaceIndex)
  extent_interactions : List (List ExtentTerm)
  ignore_some : Bool
  ignore : Vector Bool NUM_NAMESPACES
  ignore_some_linear : Bool
  ignore_linear : Vector Bool NUM_NAMESPACES
  redefine_some : Bool
  redefine : Vector Byte NUM_NAMESPACES
  skip_gram_transformer : Option KskipNgramTransformer
  limit : Vector (BitVec 32) NUM_NAMESPACES
  affix_features : Vector (BitVec 64) NUM_NAMESPACES
  spelling_features : Vector Bool NUM_NAMESPACES
  dictionary_path : List (List Byte)
  namespace_dictionaries : Vector (List (FeatureDict V)) NUM_NAMESPACES

structure Workspace (V : Type) where
  hasher : Hasher
  num_bits : BitVec 32
  feature_tweaks_config : FeatureTweaksConfig V

/-! ## The comparison -/

/-- `if (!same) { return reason; }`, and what follows. -/
def unless_same (same : Outcome Bool) (reason : String) (rest : Outcome (Option String)) :
    Outcome (Option String) := do
  if ← same then rest else pure (some reason)

/-- The part of `are_features_compatible` about n-grams. -/
def compare_transformers (transformer1 transformer2 : Option KskipNgramTransformer)
    (rest : Outcome (Option String)) : Outcome (Option String) :=
  match transformer1, transformer2 with
  | some transformer1, some transformer2 =>
    unless_same (equal transformer1.initial_ngram_definitions transformer2.initial_ngram_definitions) "ngram" <|
    unless_same (equal transformer1.initial_skip_definitions transformer2.initial_skip_definitions) "skips" rest
  | none, none => rest
  -- If one of them didn't define the ngram transformer then they differ by ngram (skips depends on ngram)
  | _, _ => .ok (some "ngram")

variable {V : Type}

/-- `are_features_compatible`; `none` is `nullptr`. -/
def are_features_compatible (vw1 vw2 : Workspace V) : Outcome (Option String) :=
  let config1 := vw1.feature_tweaks_config
  let config2 := vw2.feature_tweaks_config
  unless_same (.ok (decide (vw1.hasher = vw2.hasher))) "hasher" <|
  unless_same (equal config1.spelling_features.toList config2.spelling_features.toList) "spelling_features" <|
  unless_same (equal config1.affix_features.toList config2.affix_features.toList) "affix_features" <|
  compare_transformers config1.skip_gram_transformer config2.skip_gram_transformer <|
  unless_same (equal config1.limit.toList config2.limit.toList) "limit" <|
  unless_same (.ok (decide (vw1.num_bits = vw2.num_bits))) "num_bits" <|
  unless_same (.ok (decide (config1.permutations = config2.permutations))) "permutations" <|
  unless_same (.ok (decide (config1.interactions.length = config2.interactions.length))) "interactions size" <|
  unless_same (.ok (decide (config1.ignore_some = config2.ignore_some))) "ignore_some" <|
  unless_same (if config1.ignore_some then equal config1.ignore.toList config2.ignore.toList else .ok true)
    "ignore" <|
  unless_same (.ok (decide (config1.ignore_some_linear = config2.ignore_some_linear))) "ignore_some_linear" <|
  unless_same (if config1.ignore_some_linear then equal config1.ignore_linear.toList config2.ignore_linear.toList
    else .ok true) "ignore_linear" <|
  unless_same (.ok (decide (config1.redefine_some = config2.redefine_some))) "redefine_some" <|
  unless_same (if config1.redefine_some then equal config1.redefine.toList config2.redefine.toList else .ok true)
    "redefine" <|
  unless_same (.ok (decide (config1.add_constant = config2.add_constant))) "add_constant" <|
  unless_same (.ok (decide (config1.dictionary_path.length = config2.dictionary_path.length)))
    "dictionary_path size" <|
  unless_same (equal config1.dictionary_path config2.dictionary_path) "dictionary_path" <|
  -- the loop over the interactions ends with those of `vw1`, as `std::equal` does
  unless_same (equal config1.interactions config2.interactions) "interaction mismatch" <|
  .ok none

/-! ## What it finds -/

variable {rest : Outcome (Option String)} {same : Outcome Bool} {reason : String}

@[simp] theorem unless_same_eq_none :
    unless_same same reason rest = .ok none ↔ same = .ok true ∧ rest = .ok none := by
  rcases same with e | (_ | _) <;> simp [unless_same]

@[simp] theorem unless_same_eq_undefined :
    unless_same same reason rest = undefined ↔ same = undefined ∨ same = .ok true ∧ rest = undefined := by
  rcases same with e | (_ | _) <;> simp [unless_same, undefined]

theorem unless_same_no_throw (hsame : NoThrow same) (hrest : NoThrow rest) :
    NoThrow (unless_same same reason rest) := by
  refine hsame.bind fun same => ?_
  split
  · exact hrest
  · exact NoThrow.ok _

/-- The definitions of the first transformer are the beginning of those of the second one. -/
def Begins : Option KskipNgramTransformer → Option KskipNgramTransformer → Prop
  | some transformer1, some transformer2 =>
    transformer1.initial_ngram_definitions <+: transformer2.initial_ngram_definitions ∧
      transformer1.initial_skip_definitions <+: transformer2.initial_skip_definitions
  | none, none => True
  | _, _ => False

/-- A list that goes on after the end of another one. -/
def ProperPrefix {A : Type} (l l' : List A) : Prop := l <+: l' ∧ l ≠ l'

/-- The comparison of the definitions gets past the end of those of the second transformer. -/
def RunsPast : Option KskipNgramTransformer → Option KskipNgramTransformer → Prop
  | some transformer1, some transformer2 =>
    ProperPrefix transformer2.initial_ngram_definitions transformer1.initial_ngram_definitions ∨
      transformer1.initial_ngram_definitions <+: transformer2.initial_ngram_definitions ∧
        ProperPrefix transformer2.initial_skip_definitions transformer1.initial_skip_definitions
  | _, _ => False

/-- Agreement on what is compared before the n-grams. -/
structure SameHashing (vw1 vw2 : Workspace V) : Prop where
  hasher : vw1.hasher = vw2.hasher
  spelling_features : vw1.feature_tweaks_config.spelling_features = vw2.feature_tweaks_config.spelling_features
  affix_features : vw1.feature_tweaks_config.affix_features = vw2.feature_tweaks_config.affix_features

/-- Agreement on what is compared after the n-grams. -/
structure SameSelection (vw1 vw2 : Workspace V) : Prop where
  num_bits : vw1.num_bits = vw2.num_bits
  limit : vw1.feature_tweaks_config.limit = vw2.feature_tweaks_config.limit
  permutations : vw1.feature_tweaks_config.permutations = vw2.feature_tweaks_config.permutations
  interactions : vw1.feature_tweaks_config.interactions = vw2.feature_tweaks_config.interactions
  ignore_some : vw1.feature_tweaks_config.ignore_some = vw2.feature_tweaks_config.ignore_some
  ignore : vw1.feature_tweaks_config.ignore_some = true →
    vw1.feature_tweaks_config.ignore = vw2.feature_tweaks_config.ignore
  ignore_some_linear : vw1.feature_tweaks_config.ignore_some_linear = vw2.feature_tweaks_config.ignore_some_linear
  ignore_linear : vw1.feature_tweaks_config.ignore_some_linear = true →
    vw1.feature_tweaks_config.ignore_linear = vw2.feature_tweaks_config.ignore_linear
  redefine_some : vw1.feature_tweaks_config.redefine_some = vw2.feature_tweaks_config.redefine_some
  redefine : vw1.feature_tweaks_config.redefine_some = true →
    vw1.feature_tweaks_config.redefine = vw2.feature_tweaks_config.redefine
  add_constant : vw1.feature_tweaks_config.add_constant = vw2.feature_tweaks_config.add_constant
  dictionary_path : vw1.feature_tweaks_config.dictionary_path = vw2.feature_tweaks_config.dictionary_path

variable {vw1 vw2 vw3 : Workspace V}

theorem SameHashing.symm (h : SameHashing vw1 vw2) : SameHashing vw2 vw1 :=
  ⟨h.hasher.symm, h.spelling_features.symm, h.affix_features.symm⟩

theorem SameHashing.trans (h : SameHashing vw1 vw2) (h' : SameHashing vw2 vw3) : SameHashing vw1 vw3 :=
  ⟨h.hasher.trans h'.hasher, h.spelling_features.trans h'.spelling_features,
    h.affix_features.trans h'.affix_features⟩

theorem SameSelection.symm (h : SameSelection vw1 vw2) : SameSelection vw2 vw1 where
  num_bits := h.num_bits.symm
  limit := h.limit.symm
  permutations := h.permutations.symm
  interactions := h.interactions.symm
  ignore_some := h.ignore_some.symm
  ignore hsome := (h.ignore (h.ignore_some.trans hsome)).symm
  ignore_some_linear := h.ignore_some_linear.symm
  ignore_linear hsome := (h.ignore_linear (h.ignore_some_linear.trans hsome)).symm
  redefine_some := h.redefine_some.symm
  redefine hsome := (h.redefine (h.redefine_some.trans hsome)).symm
  add_constant := h.add_constant.symm
  dictionary_path := h.dictionary_path.symm

theorem SameSelection.trans (h : SameSelection vw1 vw2) (h' : SameSelection vw2 vw3) : SameSelection vw1 vw3 where
  num_bits := h.num_bits.trans h'.num_bits
  limit := h.limit.trans h'.limit
  permutations := h.permutations.trans h'.permutations
  interactions := h.interactions.trans h'.interactions
  ignore_some := h.ignore_some.trans h'.ignore_some
  ignore hsome := (h.ignore hsome).trans (h'.ignore (h.ignore_some.symm.trans hsome))
  ignore_some_linear := h.ignore_some_linear.trans h'.ignore_some_linear
  ignore_linear hsome := (h.ignore_linear hsome).trans (h'.ignore_linear (h.ignore_some_linear.symm.trans hsome))
  redefine_some := h.redefine_some.trans h'.redefine_some
  redefine hsome := (h.redefine hsome).trans (h'.redefine (h.redefine_some.symm.trans hsome))
  add_constant := h.add_constant.trans h'.add_constant
  dictionary_path := h.dictionary_path.trans h'.dictionary_path

variable {t1 t2 : Option KskipNgramTransformer}

theorem Begins.trans {t3 : Option KskipNgramTransformer} (h : Begins t1 t2) (h' : Begins t2 t3) :
    Begins t1 t3 := by
  rcases t1 with - | t1 <;> rcases t2 with - | t2 <;> rcases t3 with - | t3
  all_goals first | exact h | exact h' | exact h.elim | exact h'.elim | skip
  exact ⟨h.1.trans h'.1, h.2.trans h'.2⟩

theorem compare_transformers_eq_none :
    compare_transformers t1 t2 rest = .ok none ↔ Begins t1 t2 ∧ rest = .ok none := by
  rcases t1 with - | t1 <;> rcases t2 with - | t2 <;>
    simp [compare_transformers, Begins, equal_eq_true, and_assoc]

theorem compare_transformers_eq_undefined :
    compare_transformers t1 t2 rest = undefined ↔ RunsPast t1 t2 ∨ Begins t1 t2 ∧ rest = undefined := by
  rcases t1 with - | t1 <;> rcases t2 with - | t2
  · simp [compare_transformers, RunsPast, Begins]
  · simp [compare_transformers, RunsPast, Begins, undefined]
  · simp [compare_transformers, RunsPast, Begins, undefined]
  · simp only [compare_transformers, RunsPast, Begins, ProperPrefix, unless_same_eq_undefined, equal_eq_undefined,
      equal_eq_true]
    tauto

theorem compare_transformers_no_throw (t1 t2 : Option KskipNgramTransformer) (h : NoThrow rest) :
    NoThrow (compare_transformers t1 t2 rest) := by
  unfold compare_transformers
  split
  · exact unless_same_no_throw (equal_no_throw _ _) (unless_same_no_throw (equal_no_throw _ _) h)
  · exact h
  · exact NoThrow.ok _

theorem guarded_eq_true {p : Prop} [Decidable p] {some_ : Bool} :
    (if some_ then .ok (decide p) else .ok true : Outcome Bool) = .ok true ↔ (some_ = true → p) := by
  cases some_ <;> simp

theorem guarded_ne_undefined {same some_ : Bool} :
    (if some_ then .ok same else .ok true : Outcome Bool) ≠ undefined := by
  cases some_ <;> simp [undefined]

theorem equal_toList {A : Type} [DecidableEq A] {n : Nat} (v w : Vector A n) :
    equal v.toList w.toList = .ok (decide (v = w)) := by
  rw [equal_of_length (by simp), decide_eq_decide.mpr toList_inj]

theorem compatible_iff :
    are_features_compatible vw1 vw2 = .ok none ↔ SameHashing vw1 vw2 ∧
      Begins vw1.feature_tweaks_config.skip_gram_transformer vw2.feature_tweaks_config.skip_gram_transformer ∧
      SameSelection vw1 vw2 := by
  unfold are_features_compatible
  simp only [unless_same_eq_none, compare_transformers_eq_none, equal_toList, guarded_eq_true,
    Except.ok.injEq, decide_eq_true_eq]
  constructor
  · rintro ⟨hhasher, hspelling, haffix, hbegins, hlimit, hbits, hpermutations, hsize, hsome,
      hignore, hlinear, hignorel,
      hredefines, hredefine, hconstant, hpaths, hpath, hinteractions, -⟩
    exact ⟨⟨hhasher, hspelling, haffix⟩, hbegins, ⟨hbits, hlimit, hpermutations,
      (equal_eq_true.mp hinteractions).eq_of_length hsize, hsome, hignore, hlinear, hignorel, hredefines, hredefine,
      hconstant, (equal_eq_true.mp hpath).eq_of_length hpaths⟩⟩
  · rintro ⟨hhashing, hbegins, hsame⟩
    exact ⟨hhashing.hasher, hhashing.spelling_features, hhashing.affix_features, hbegins,
      hsame.limit, hsame.num_bits,
      hsame.permutations, congrArg _ hsame.interactions, hsame.ignore_some, hsame.ignore, hsame.ignore_some_linear,
      hsame.ignore_linear, hsame.redefine_some, hsame.redefine, hsame.add_constant, congrArg _ hsame.dictionary_path,
      equal_eq_true.mpr (hsame.dictionary_path ▸ List.prefix_rfl),
      equal_eq_true.mpr (hsame.interactions ▸ List.prefix_rfl), trivial⟩

/-- The definitions are all that is read past its end. -/
theorem runs_past_iff :
    are_features_compatible vw1 vw2 = undefined ↔ SameHashing vw1 vw2 ∧
      RunsPast vw1.feature_tweaks_config.skip_gram_transformer vw2.feature_tweaks_config.skip_gram_transformer := by
  have hok : ∀ a : Bool, (.ok a : Outcome Bool) ≠ undefined := fun a => nofun
  have hnone : (.ok none : Outcome (Option String)) ≠ undefined := nofun
  unfold are_features_compatible
  simp only [unless_same_eq_undefined, compare_transformers_eq_undefined, equal_toList, guarded_ne_undefined,
    hok, hnone, Except.ok.injEq, decide_eq_true_eq, false_or, and_false, or_false]
  constructor
  · rintro ⟨hhasher, hspelling, haffix, hpast | hrest⟩
    · exact ⟨⟨hhasher, hspelling, haffix⟩, hpast⟩
    · -- the lengths of the other lists have been compared before
      obtain ⟨-, -, -, -, hsize, -, -, -, -, -, -, -, hpaths, hpath | ⟨-, hinteractions⟩⟩ := hrest
      · exact absurd ((equal_eq_undefined.mp hpath).1.eq_of_length hpaths.symm) (equal_eq_undefined.mp hpath).2
      · exact absurd ((equal_eq_undefined.mp hinteractions).1.eq_of_length hsize.symm)
          (equal_eq_undefined.mp hinteractions).2
  · rintro ⟨hhashing, hpast⟩
    exact ⟨hhashing.hasher, hhashing.spelling_features, hhashing.affix_features, .inl hpast⟩

theorem are_features_compatible_no_throw (vw1 vw2 : Workspace V) : NoThrow (are_features_compatible vw1 vw2) := by
  have hguarded : ∀ {n : Nat} {A : Type} [DecidableEq A] (some_ : Bool) (v w : Vector A n),
      NoThrow (if some_ then equal v.toList w.toList else .ok true) := by
    intro n A _ some_ v w
    cases some_
    · exact NoThrow.ok true
    · exact equal_no_throw _ _
  unfold are_features_compatible
  refine unless_same_no_throw (NoThrow.ok _) <| unless_same_no_throw (equal_no_throw _ _) <|
    unless_same_no_throw (equal_no_throw _ _) <| compare_transformers_no_throw _ _ ?_
  repeat' apply unless_same_no_throw
  all_goals first | exact NoThrow.ok _ | exact equal_no_throw _ _ | exact hguarded _ _ _

/-! ## An equivalence -/

/-- Agreement on every setting that decides which features an example gets. -/
structure Agree (vw1 vw2 : Workspace V) : Prop where
  hashing : SameHashing vw1 vw2
  skip_gram_transformer :
    vw1.feature_tweaks_config.skip_gram_transformer = vw2.feature_tweaks_config.skip_gram_transformer
  selection : SameSelection vw1 vw2
  extent_interactions : vw1.feature_tweaks_config.extent_interactions = vw2.feature_tweaks_config.extent_interactions
  namespace_dictionaries :
    vw1.feature_tweaks_config.namespace_dictionaries = vw2.feature_tweaks_config.namespace_dictionaries

/-- What `are_features_compatible` promises of the workspaces of a set. -/
structure SoundEquivalence (workspaces : Set (Workspace V)) : Prop where
  returns : ∀ vw1 ∈ workspaces, ∀ vw2 ∈ workspaces, Returns (are_features_compatible vw1 vw2) fun _ => True
  symmetric : ∀ vw1 ∈ workspaces, ∀ vw2 ∈ workspaces,
    are_features_compatible vw1 vw2 = .ok none ↔ are_features_compatible vw2 vw1 = .ok none
  transitive : ∀ vw1 ∈ workspaces, ∀ vw2 ∈ workspaces, ∀ vw3 ∈ workspaces,
    are_features_compatible vw1 vw2 = .ok none → are_features_compatible vw2 vw3 = .ok none →
      are_features_compatible vw1 vw3 = .ok none
  agree : ∀ vw1 ∈ workspaces, ∀ vw2 ∈ workspaces, are_features_compatible vw1 vw2 = .ok none → Agree vw1 vw2

/-- Neither the definitions of n-grams nor, with the same n-grams, those of skips are a proper
    beginning of the others. -/
def NotCutShort (transformer1 transformer2 : KskipNgramTransformer) : Prop :=
  ¬ProperPrefix transformer1.initial_ngram_definitions transformer2.initial_ngram_definitions ∧
    (transformer1.initial_ngram_definitions = transformer2.initial_ngram_definitions →
      ¬ProperPrefix transformer1.initial_skip_definitions transformer2.initial_skip_definitions)

/-- The settings of two workspaces are told apart by what is compared. -/
structure Comparable (vw1 vw2 : Workspace V) : Prop where
  not_cut_short : SameHashing vw1 vw2 →
    ∀ transformer1, vw1.feature_tweaks_config.skip_gram_transformer = some transformer1 →
    ∀ transformer2, vw2.feature_tweaks_config.skip_gram_transformer = some transformer2 →
      NotCutShort transformer1 transformer2
  rest_agrees : SameHashing vw1 vw2 →
    vw1.feature_tweaks_config.skip_gram_transformer = vw2.feature_tweaks_config.skip_gram_transformer →
    SameSelection vw1 vw2 →
      vw1.feature_tweaks_config.extent_interactions = vw2.feature_tweaks_config.extent_interactions ∧
      vw1.feature_tweaks_config.namespace_dictionaries = vw2.feature_tweaks_config.namespace_dictionaries

/-- Definitions that begin alike, and that are not cut short, are the same. -/
theorem eq_of_begins (h : Begins t1 t2)
    (hshort : ∀ transformer1, t1 = some transformer1 → ∀ transformer2, t2 = some transformer2 →
      NotCutShort transformer1 transformer2) : t1 = t2 := by
  rcases t1 with - | t1 <;> rcases t2 with - | t2
  · rfl
  · exact h.elim
  · exact h.elim
  · obtain ⟨hngrams, hskips⟩ := h
    obtain ⟨hngram, hskip⟩ := hshort t1 rfl t2 rfl
    have hngrams : t1.initial_ngram_definitions = t2.initial_ngram_definitions :=
      Classical.by_contradiction fun hne => hngram ⟨hngrams, hne⟩
    have hskips : t1.initial_skip_definitions = t2.initial_skip_definitions :=
      Classical.by_contradiction fun hne => hskip hngrams ⟨hskips, hne⟩
    obtain ⟨_, _⟩ := t1
    obtain ⟨_, _⟩ := t2
    cases hngrams
    cases hskips
    rfl

/-- A comparison gets past the end where the definitions are cut short in one of the orders. -/
theorem not_runs_past
    (h : ∀ transformer1, t1 = some transformer1 → ∀ transformer2, t2 = some transformer2 →
      NotCutShort transformer1 transformer2 ∧ NotCutShort transformer2 transformer1) :
    ¬RunsPast t1 t2 := by
  intro hpast
  rcases t1 with - | t1 <;> rcases t2 with - | t2
  · exact hpast
  · exact hpast
  · exact hpast
  · obtain ⟨h12, h21⟩ := h t1 rfl t2 rfl
    rcases hpast with hngrams | ⟨hngrams, hskips⟩
    · exact h21.1 hngrams
    · have hsame : t1.initial_ngram_definitions = t2.initial_ngram_definitions :=
        Classical.by_contradiction fun hne => h12.1 ⟨hngrams, hne⟩
      exact h21.2 hsame.symm hskips

theorem begins_rfl {t : Option KskipNgramTransformer} : Begins t t := by
  rcases t with - | t
  · trivial
  · exact ⟨List.prefix_rfl, List.prefix_rfl⟩

variable {workspaces : Set (Workspace V)}

theorem SoundEquivalence.comparable (h : SoundEquivalence workspaces) (h1 : vw1 ∈ workspaces)
    (h2 : vw2 ∈ workspaces) : Comparable vw1 vw2 where
  not_cut_short hhashing t1 ht1 t2 ht2 := by
    -- the comparison in the other order would run past the end
    have hsafe : ¬RunsPast (some t2) (some t1) := by
      intro hpast
      obtain ⟨_, hreturns, -⟩ := h.returns vw2 h2 vw1 h1
      rw [runs_past_iff.mpr ⟨hhashing.symm, by rw [ht1, ht2]; exact hpast⟩] at hreturns
      cases hreturns
    exact ⟨fun hngrams => hsafe (.inl hngrams),
      fun hngrams hskips => hsafe (.inr ⟨hngrams ▸ List.prefix_rfl, hskips⟩)⟩
  rest_agrees hhashing htransformer hsame := by
    have hnull : are_features_compatible vw1 vw2 = .ok none :=
      compatible_iff.mpr ⟨hhashing, htransformer ▸ begins_rfl, hsame⟩
    obtain ⟨-, -, -, hextents, hdictionaries⟩ := h.agree vw1 h1 vw2 h2 hnull
    exact ⟨hextents, hdictionaries⟩

theorem Comparable.agree (h : Comparable vw1 vw2) (hnull : are_features_compatible vw1 vw2 = .ok none) :
    Agree vw1 vw2 := by
  obtain ⟨hhashing, hbegins, hsame⟩ := compatible_iff.mp hnull
  have htransformer := eq_of_begins hbegins (h.not_cut_short hhashing)
  obtain ⟨hextents, hdictionaries⟩ := h.rest_agrees hhashing htransformer hsame
  exact ⟨hhashing, htransformer, hsame, hextents, hdictionaries⟩

/-- Workspaces that agree are compatible in both orders. -/
theorem Agree.compatible (h : Agree vw1 vw2) : are_features_compatible vw2 vw1 = .ok none :=
  compatible_iff.mpr ⟨h.hashing.symm, h.skip_gram_transformer ▸ begins_rfl, h.selection.symm⟩

theorem Comparable.returns (h12 : Comparable vw1 vw2) (h21 : Comparable vw2 vw1) :
    Returns (are_features_compatible vw1 vw2) fun _ => True := by
  have hdefined : are_features_compatible vw1 vw2 ≠ undefined := by
    intro hundefined
    obtain ⟨hhashing, hpast⟩ := runs_past_iff.mp hundefined
    exact not_runs_past (fun t1 ht1 t2 ht2 => ⟨h12.not_cut_short hhashing t1 ht1 t2 ht2,
      h21.not_cut_short hhashing.symm t2 ht2 t1 ht1⟩) hpast
  rcases hx : are_features_compatible vw1 vw2 with (what | _) | r
  · exact absurd hx (are_features_compatible_no_throw vw1 vw2 what)
  · exact absurd hx hdefined
  · exact Returns.ok trivial

/-- The workspaces of a set are related as promised exactly when each pair of them is told apart by
    what is compared: no definitions are cut short by others, and the interactions of full namespaces
    and the dictionaries agree where all that is compared does. -/
theorem sound_equivalence_iff (workspaces : Set (Workspace V)) :
    SoundEquivalence workspaces ↔ ∀ vw1 ∈ workspaces, ∀ vw2 ∈ workspaces, Comparable vw1 vw2 := by
  constructor
  · exact fun h vw1 h1 vw2 h2 => h.comparable h1 h2
  · intro h
    refine ⟨fun vw1 h1 vw2 h2 => (h vw1 h1 vw2 h2).returns (h vw2 h2 vw1 h1), fun vw1 h1 vw2 h2 => ?_, ?_,
      fun vw1 h1 vw2 h2 => (h vw1 h1 vw2 h2).agree⟩
    · exact ⟨fun hnull => ((h vw1 h1 vw2 h2).agree hnull).compatible,
        fun hnull => ((h vw2 h2 vw1 h1).agree hnull).compatible⟩
    · intro vw1 _ vw2 _ vw3 _ hnull hnull'
      obtain ⟨hhashing, hbegins, hsame⟩ := compatible_iff.mp hnull
      obtain ⟨hhashing', hbegins', hsame'⟩ := compatible_iff.mp hnull'
      exact compatible_iff.mpr ⟨hhashing.trans hhashing', hbegins.trans hbegins', hsame.trans hsame'⟩

/-- Settings in which nothing but the n-grams is set. -/
def with_ngrams (ngrams : List (List Byte)) : Workspace V where
  hasher := .hashstring
  num_bits := 18
  feature_tweaks_config :=
    { add_constant := true, permutations := false, interactions := [], extent_interactions := []
      ignore_some := false, ignore := replicate _ false
      ignore_some_linear := false, ignore_linear := replicate _ false
      redefine_some := false, redefine := replicate _ 0
      skip_gram_transformer := some ⟨ngrams, []⟩
      limit := replicate _ (BitVec.intMax 32), affix_features := replicate _ 0
      spelling_features := replicate _ false
      dictionary_path := [], namespace_dictionaries := replicate _ [] }

/-- With `--ngram 2` and with `--ngram 2 --ngram a3`: one order finds them compatible, the other reads
    past the end of the definitions. -/
theorem ngrams_run_past :
    are_features_compatible (with_ngrams [[50]]) (with_ngrams [[50], [97, 51]] : Workspace Int) = .ok none ∧
      are_features_compatible (with_ngrams [[50], [97, 51]]) (with_ngrams [[50]] : Workspace Int) = undefined ∧
      ¬SoundEquivalence (Set.univ : Set (Workspace Int)) := by
  have hpast : are_features_compatible (with_ngrams [[50], [97, 51]]) (with_ngrams [[50]] : Workspace Int) =
      undefined :=
    runs_past_iff.mpr ⟨⟨rfl, rfl, rfl⟩, .inl ⟨⟨[[97, 51]], rfl⟩, by decide⟩⟩
  refine ⟨compatible_iff.mpr ⟨⟨rfl, rfl, rfl⟩, ⟨⟨[[97, 51]], rfl⟩, List.prefix_rfl⟩,
    ⟨rfl, rfl, rfl, rfl, rfl, fun _ => rfl, rfl, fun _ => rfl, rfl, fun _ => rfl, rfl, rfl⟩⟩, hpast, fun h => ?_⟩
  obtain ⟨_, hreturns, -⟩ := h.returns _ (Set.mem_univ (with_ngrams [[50], [97, 51]])) _
    (Set.mem_univ (with_ngrams [[50]]))
  rw [hpast] at hreturns
  cases hreturns

end VW.Compatibility
