import VowpalWabbit.Slim.Predict

/-! # Loading a model into a used object

    `load` and the functions `predict` read only members that the same model has set, but for
    three of them: the wildcard flag and the generator of interactions are never set back, and
    the exploration is not set for softmax without a lambda. Where these are as in a new
    object, or are set, the object cannot be told from a new one that loaded the same model.
-/

open Cpp

namespace VW.Slim

open Coded InteractionsGenerator

variable {V : Type}

/-! ## What predictions read -/

/-- The members that scores are computed from are the same. -/
structure SameScores (s t : VwPredict V) : Prop where
  weights : s.weights = t.weights
  command_line_arguments : s.command_line_arguments = t.command_line_arguments
  interactions : s.interactions = t.interactions
  generate_interactions : s.generate_interactions = t.generate_interactions
  contains_wildcard : s.contains_wildcard = t.contains_wildcard
  no_constant : s.no_constant = t.no_constant
  feature_scale_bits : s.feature_scale_bits = t.feature_scale_bits
  model_loaded : s.model_loaded = t.model_loaded

/-- The members that belong to a kind of exploration are the same. -/
def SameKind (s t : VwPredict V) : VwPredictExploration → Prop
  | .epsilon_greedy => s.epsilon = t.epsilon
  | .softmax => s.lambda = t.lambda
  | .bag => s.bag_size = t.bag_size ∧ s.minimum_epsilon = t.minimum_epsilon

/-- Two objects whose predictions are the same. The exploration is read only for models that
    explore. -/
structure SamePredictions (s t : VwPredict V) : Prop extends SameScores s t where
  exploration : is_cb_explore_adf s.command_line_arguments = true →
    s.exploration = t.exploration ∧ ∀ kind ∈ s.exploration, SameKind s t kind

/-- A relation that scores keep: it implies the same scores, and a new generator is one of an
    object with a wildcard. -/
structure KeptByScores (P : VwPredict V → VwPredict V → Prop) : Prop where
  scores : ∀ {s t}, P s t → SameScores s t
  generator : ∀ {s t} data, P s t → s.contains_wildcard = true →
    P { s with generate_interactions := data } { t with generate_interactions := data }

/-- A relation that all predictions keep. -/
structure KeptByPredictions (P : VwPredict V → VwPredict V → Prop) : Prop extends KeptByScores P where
  exploration : ∀ {s t}, P s t → is_cb_explore_adf s.command_line_arguments = true →
    s.exploration = t.exploration ∧ ∀ kind ∈ s.exploration, SameKind s t kind

theorem kept_same_predictions : KeptByPredictions (V := V) SamePredictions where
  scores h := h.toSameScores
  generator _ h _ := { h with generate_interactions := rfl }
  exploration h := h.exploration

/-- While a distribution is generated the kind of exploration is known. -/
theorem KeptByScores.same_kind {P : VwPredict V → VwPredict V → Prop} (hP : KeptByScores P)
    (kind : VwPredictExploration) : KeptByScores fun s t => P s t ∧ SameKind s t kind where
  scores h := hP.scores h.1
  generator data h hwildcard := by
    refine ⟨hP.generator data h.1 hwildcard, ?_⟩
    cases kind with
    | epsilon_greedy => exact h.2
    | softmax => exact h.2
    | bag => exact h.2

/-! ## Predictions -/

variable {A S : Type}

theorem explored_alike {P : S → S → Prop} (result : Int × A) :
    Alike (explored result : Coded S A) (explored result) P (fun _ => P) P := by
  unfold explored
  exact .ite (fun _ => .fail _ fun _ _ h => h) fun _ => .pure fun _ _ h => h

variable {x : Coded S A}

theorem map_alike {B : Type} {P : S → S → Prop} (f : A → B) (h : Alike x x P (fun _ => P) P) :
    Alike (f <$> x) (f <$> x) P (fun _ => P) P :=
  h.bind fun _ => .pure fun _ _ hst => hst

theorem map_failed {B : Type} (f : A → B) {s s' : S} {code : Int}
    (h : x s = .ok (.error code, s')) : (f <$> x) s = .ok (.error code, s') := by
  show Coded.bind x _ s = _
  unfold Coded.bind
  rw [h]

/-- The first result does not change the rest. -/
theorem map_cons (r : A) (x : Outcome (List A × S)) :
    (x >>= fun (rs, object) => pure (r :: rs, object)).map (·.1) = (x.map (·.1)).map (r :: ·) := by
  cases x <;> rfl

section Predictions

variable [Zero V] [One V] [Add V] [Mul V] {P : VwPredict V → VwPredict V → Prop}

theorem predict_with_alike (hP : KeptByScores P) (fuel : Nat) (interactions : List (List NamespaceIndex))
    (ex : Example V) :
    Alike (predict_with fuel interactions ex) (predict_with fuel interactions ex) P (fun _ => P) P := by
  unfold predict_with
  refine .bind (.reads_kept fun s t h => (hP.scores h).weights) fun loaded => ?_
  refine .bind (.present_kept loaded) fun weights => ?_
  exact .present_kept _

omit [Zero V] in
theorem add_constant_alike (hP : KeptByScores P) (ex : Example V) :
    Alike (add_constant ex) (add_constant ex) P (fun _ => P) P := by
  unfold add_constant
  refine .bind (.reads_kept fun s t h => (hP.scores h).no_constant) fun set => ?_
  refine .bind (.present_kept set) fun no_constant => ?_
  refine .ite (fun _ => .pure fun _ _ h => h) fun _ => ?_
  refine .bind (.reads_kept fun s t h => (hP.scores h).feature_scale_bits) fun set => ?_
  refine .bind (.present_kept set) fun feature_scale_bits => ?_
  exact .pure fun _ _ h => h

theorem predict_alike (hP : KeptByScores P) (fuel : Nat) (ex : Example V) :
    Alike (predict fuel ex) (predict fuel ex) P (fun _ => P) P := by
  unfold predict
  refine .bind (.reads_kept fun s t h => (hP.scores h).model_loaded) fun model_loaded => ?_
  refine .ite (fun _ => .fail _ fun _ _ h => h) fun _ => ?_
  refine (add_constant_alike hP ex).bind fun ex => ?_
  refine .bind (.reads_kept fun s t h => (hP.scores h).interactions) fun interactions => ?_
  refine .bind (.reads (Q := fun contains_wildcard s t => P s t ∧ s.contains_wildcard = contains_wildcard)
    (fun s t h => (hP.scores h).contains_wildcard) fun _ _ h => ⟨h, rfl⟩) fun contains_wildcard => ?_
  refine .ite (fun hwildcard => ?_) fun _ =>
    (predict_with_alike hP fuel interactions ex).mono (fun _ _ h => h.1) (fun _ _ _ h => h) fun _ _ h => h
  refine .bind (.reads_kept fun s t h => (hP.scores h.1).generate_interactions) fun data => ?_
  refine .bind (.present_kept _) fun data => ?_
  refine (Alike.modify (Q := P) fun _ _ h => hP.generator data h.1 (h.2.trans hwildcard)).bind fun _ => ?_
  exact predict_with_alike hP fuel _ ex

theorem predict_csoaa_alike (hP : KeptByScores P) (fuel : Nat) (shared : Example V) (actions : List (Example V)) :
    Alike (predict_csoaa fuel shared actions) (predict_csoaa fuel shared actions) P (fun _ => P) P := by
  unfold predict_csoaa
  refine .bind (.reads_kept fun s t h => (hP.scores h).model_loaded) fun model_loaded => ?_
  refine .ite (fun _ => .fail _ fun _ _ h => h) fun _ => ?_
  refine .bind (.reads_kept fun s t h => (hP.scores h).command_line_arguments) fun command_line_arguments => ?_
  refine .ite (fun _ => .fail _ fun _ _ h => h) fun _ => ?_
  exact .for_each (fun action => predict_alike hP fuel (copy_shared shared action)) actions

variable [LT V] [DecidableLT V]

theorem bag_loop_alike (hP : KeptByScores P) (fuel : Nat) (shared : Example V) (actions : List (Example V))
    (is : List Nat) (top_actions : List Nat) (scores : List V) :
    Alike (bag_loop fuel shared actions is top_actions scores) (bag_loop fuel shared actions is top_actions scores)
      P (fun _ => P) P := by
  induction is generalizing top_actions scores with
  | nil => exact .pure fun _ _ h => h
  | cons i is ih =>
    refine (predict_csoaa_alike hP fuel shared _).bind fun scores => ?_
    refine .bind (.present_kept _) fun top_actions => ?_
    exact ih top_actions scores

theorem generate_pdf_alike (hscores : KeptByScores P) (exploration : Exploration V) (fuel : Nat)
    (shared : Example V) (actions : List (Example V)) (pdf : List V) (kind : VwPredictExploration) :
    Alike (generate_pdf exploration fuel shared actions pdf kind)
      (generate_pdf exploration fuel shared actions pdf kind)
      (fun s t => P s t ∧ SameKind s t kind) (fun _ => P) P := by
  have hP := hscores.same_kind kind
  refine .mono (P := fun s t => P s t ∧ SameKind s t kind) (Q := fun _ s t => P s t ∧ SameKind s t kind)
    (F := fun s t => P s t ∧ SameKind s t kind) ?_ (fun _ _ h => h) (fun _ _ _ h => h.1) fun _ _ h => h.1
  cases kind with
  | epsilon_greedy =>
    refine (predict_csoaa_alike hP fuel shared actions).bind fun scores => ?_
    refine .bind (.reads_kept fun s t h => h.2) fun set => ?_
    refine .bind (.present_kept set) fun epsilon => ?_
    refine (explored_alike _).bind fun pdf => ?_
    exact .pure fun _ _ h => h
  | softmax =>
    refine (predict_csoaa_alike hP fuel shared actions).bind fun scores => ?_
    refine .bind (.reads_kept fun s t h => h.2) fun set => ?_
    refine .bind (.present_kept set) fun lambda => ?_
    refine (explored_alike _).bind fun pdf => ?_
    exact .pure fun _ _ h => h
  | bag =>
    refine .bind (.reads_kept fun s t h => (hP.scores h).feature_scale_bits) fun set => ?_
    refine .bind (.present_kept set) fun feature_scale_bits => ?_
    refine .bind (.reads_kept fun s t h => h.2.1) fun set => ?_
    refine .bind (.present_kept set) fun bag_size => ?_
    refine (bag_loop_alike hP fuel _ _ _ _ _).bind fun result => ?_
    refine (explored_alike _).bind fun pdf => ?_
    refine .bind (.reads_kept fun s t h => h.2.2) fun set => ?_
    refine .bind (.present_kept set) fun minimum_epsilon => ?_
    refine .ite (fun _ => ?_) fun _ => .pure fun _ _ h => h
    exact (explored_alike _).bind fun pdf => .pure fun _ _ h => h

theorem predict_cb_alike (hP : KeptByPredictions P) (exploration : Exploration V) (fuel : Nat)
    (event_id : List Byte) (shared : Example V) (actions : List (Example V)) (pdf : List V) :
    Alike (predict_cb exploration fuel event_id shared actions pdf)
      (predict_cb exploration fuel event_id shared actions pdf) P (fun _ => P) P := by
  unfold predict_cb
  refine .bind (.reads_kept fun s t h => (hP.scores h).model_loaded) fun model_loaded => ?_
  refine .ite (fun _ => .fail _ fun _ _ h => h) fun _ => ?_
  refine .bind (.reads (Q := fun args s t => P s t ∧ s.command_line_arguments = args)
    (fun s t h => (hP.scores h).command_line_arguments) fun _ _ h => ⟨h, rfl⟩) fun args => ?_
  refine .ite (fun _ => .fail _ fun _ _ h => h.1) fun hcb => ?_
  have hcb : is_cb_explore_adf args = true := by simpa using hcb
  -- the kind that was read is that of both objects
  refine (Alike.reads (Q := fun set s t => P s t ∧ ∀ kind ∈ set, SameKind s t kind) ?_ ?_).bind fun set => ?_
  · rintro s t ⟨h, rfl⟩
    exact (hP.exploration h hcb).1
  · rintro s t ⟨h, rfl⟩
    exact ⟨h, (hP.exploration h hcb).2⟩
  refine (Alike.present (Q := fun kind s t => P s t ∧ SameKind s t kind) set
    fun kind s t hset h => ⟨h.1, h.2 kind hset⟩).bind fun kind => ?_
  refine (generate_pdf_alike hP.toKeptByScores exploration fuel shared actions _ kind).bind fun result => ?_
  refine .bind (.present_kept _) fun sorted => ?_
  refine (explored_alike _).bind fun sampled => ?_
  refine .ite (fun _ => ?_) fun _ => .pure fun _ _ h => h
  refine .bind (.present_kept _) fun ranking => ?_
  refine .bind (.present_kept _) fun pdf => ?_
  exact .pure fun _ _ h => h

theorem answer_alike (hP : KeptByPredictions P) (exploration : Exploration V) (fuel : Nat)
    (prediction : Prediction V) :
    Alike (answer exploration fuel prediction) (answer exploration fuel prediction) P (fun _ => P) P := by
  cases prediction with
  | score ex => exact map_alike _ (predict_alike hP.toKeptByScores fuel ex)
  | scores shared actions => exact map_alike _ (predict_csoaa_alike hP.toKeptByScores fuel shared actions)
  | decision event_id shared actions pdf =>
    exact map_alike _ (predict_cb_alike hP exploration fuel event_id shared actions pdf)

/-- Two objects with the same predictions answer every sequence of calls alike. -/
theorem answers_eq (exploration : Exploration V) (fuel : Nat) (predictions : List (Prediction V))
    {s t : VwPredict V} (h : SamePredictions s t) :
    (answers exploration fuel predictions s).map (·.1) = (answers exploration fuel predictions t).map (·.1) := by
  induction predictions generalizing s t with
  | nil => rfl
  | cons prediction rest ih =>
    have hends := answer_alike kept_same_predictions exploration fuel prediction s t h
    simp only [answers]
    generalize answer exploration fuel prediction s = first at hends ⊢
    generalize answer exploration fuel prediction t = second at hends ⊢
    cases hends with
    | returned hst => exact (map_cons _ _).trans ((congrArg _ (ih hst)).trans (map_cons _ _).symm)
    | failed hst => exact (map_cons _ _).trans ((congrArg _ (ih hst)).trans (map_cons _ _).symm)
    | stopped => rfl

end Predictions

/-! ## Two runs of `load` -/

def model_options (model : List Byte) : Option (List Byte) :=
  match (read_num_bits >>= fun _ => read_file_options) ⟨model, 0⟩ with
  | .ok (.ok command_line_arguments, _) => some command_line_arguments
  | _ => none

/-- The exploration is softmax, but not with one lambda. -/
def softmax_without_lambda (command_line_arguments : List Byte) : Bool :=
  is_cb_explore_adf command_line_arguments && (find_opt command_line_arguments (text "--bag")).length != 1 &&
    contains command_line_arguments (text "--softmax") &&
      (find_opt command_line_arguments (text "--lambda")).length != 1

theorem find_opt_parse_none {T : Type} (f : List Byte → T) {args arg_name : List Byte}
    (h : find_opt_parse f args arg_name = none) : (find_opt args arg_name).length ≠ 1 := by
  intro hlength
  obtain ⟨value, hvalue⟩ := List.length_eq_one_iff.mp hlength
  simp only [find_opt_parse, hvalue] at h
  cases h

theorem find_opt_int_none {args arg_name : List Byte} (h : find_opt_int args arg_name = .ok none) :
    (find_opt args arg_name).length ≠ 1 := by
  refine find_opt_parse_none atoi ?_
  unfold find_opt_int at h
  cases hparse : find_opt_parse atoi args arg_name with
  | none => rfl
  | some value =>
    rw [hparse] at h
    cases value <;> cases h

/-- No model is loaded. -/
def Unloaded (x y : Loading V) : Prop := x.object.model_loaded = false ∧ y.object.model_loaded = false

/-- Two objects `s` and `t` after the beginning of `load`. -/
structure Started (s t : VwPredict V) (x y : Loading V) : Prop where
  mp : x.mp = y.mp
  unloaded : Unloaded x y
  first_generator : x.object.generate_interactions = s.generate_interactions
  second_generator : y.object.generate_interactions = t.generate_interactions
  first_wildcard : x.object.contains_wildcard = s.contains_wildcard
  second_wildcard : y.object.contains_wildcard = t.contains_wildcard

/-- The options and the interactions are set. -/
structure Configured (command_line_arguments : List Byte) (x y : Loading V) : Prop where
  mp : x.mp = y.mp
  unloaded : Unloaded x y
  first_arguments : x.object.command_line_arguments = command_line_arguments
  second_arguments : y.object.command_line_arguments = command_line_arguments
  interactions : x.object.interactions = y.object.interactions
  generate_interactions : x.object.generate_interactions = y.object.generate_interactions
  contains_wildcard : x.object.contains_wildcard = y.object.contains_wildcard
  no_constant : x.object.no_constant = y.object.no_constant

/-- The exploration is set too. -/
structure Explored (command_line_arguments : List Byte) (x y : Loading V) : Prop
    extends Configured command_line_arguments x y where
  exploration : is_cb_explore_adf command_line_arguments = true →
    x.object.exploration = y.object.exploration ∧ ∀ kind ∈ x.object.exploration, SameKind x.object y.object kind

/-- All is set but the flag. -/
structure Weighted (command_line_arguments : List Byte) (x y : Loading V) : Prop
    extends Explored command_line_arguments x y where
  feature_scale_bits : x.object.feature_scale_bits = y.object.feature_scale_bits
  weights : x.object.weights = y.object.weights

/-- A relation that steps of the parser keep, and that implies `F` where they fail. -/
structure KeptByParser (P F : Loading V → Loading V → Prop) : Prop where
  mp : ∀ {x y}, P x y → x.mp = y.mp
  parsed : ∀ {x y} mp, P x y → P { x with mp := mp } { y with mp := mp }
  failed : ∀ {x y}, P x y → F x y

theorem kept_started (s t : VwPredict V) : KeptByParser (Started s t) Unloaded where
  mp h := h.mp
  parsed _ h := { h with mp := rfl }
  failed h := h.unloaded

theorem kept_explored (args : List Byte) : KeptByParser (V := V) (Explored args) Unloaded where
  mp h := h.mp
  parsed _ h := { h with mp := rfl }
  failed h := h.unloaded

theorem kept_weighted (args : List Byte) : KeptByParser (V := V) (Weighted args) Unloaded where
  mp h := h.mp
  parsed _ h := { h with mp := rfl }
  failed h := h.unloaded

variable {P F : Loading V → Loading V → Prop}

/-- A step of the parser, and what it read. -/
theorem parse_alike (hmp : ∀ x y, P x y → x.mp = y.mp)
    (hF : ∀ mp x y, P x y → F { x with mp := mp } { y with mp := mp })
    {Q : A → Loading V → Loading V → Prop} (p : Coded ModelParser A)
    (hQ : ∀ a mp x y, p x.mp = .ok (.ok a, mp) → P x y → Q a { x with mp := mp } { y with mp := mp }) :
    Alike (parse p) (parse p) P Q F := by
  intro x y h
  unfold parse
  rw [← hmp x y h]
  cases hp : p x.mp with
  | error e => exact .stopped
  | ok result =>
    obtain ⟨code | a, mp⟩ := result
    · exact .failed (hF mp x y h)
    · exact .returned (hQ a mp x y hp h)

theorem parse_kept (hP : KeptByParser P F) (p : Coded ModelParser A) :
    Alike (parse p) (parse p) P (fun _ => P) F :=
  parse_alike (fun _ _ => hP.mp) (fun mp _ _ h => hP.failed (hP.parsed mp h)) p
    fun _ mp _ _ _ h => hP.parsed mp h

theorem check_checksum_alike (hP : KeptByParser P F) : Alike check_checksum check_checksum P (fun _ => P) F := by
  unfold check_checksum
  refine .bind (.reads_kept fun x y h => congrArg ModelParser.checksum (hP.mp h)) fun computed => ?_
  refine (parse_kept hP _).bind fun check_sum_len => ?_
  refine .ite (fun _ => .fail _ fun _ _ h => hP.failed h) fun _ => ?_
  refine (parse_kept hP _).bind fun check_sum => ?_
  exact .ite (fun _ => .fail _ fun _ _ h => hP.failed h) fun _ => .pure fun _ _ h => h

/-- What the exploration options of a command line make of a relation. -/
structure KeptByExploration (args : List Byte) (P Q F : Loading V → Loading V → Prop) : Prop where
  unset : ∀ {x y}, (is_cb_explore_adf args = true → softmax_without_lambda args = true) → P x y → Q x y
  bag : ∀ {x y} bag_size minimum_epsilon, P x y →
    Q { x with object := { x.object with
          bag_size := bag_size, exploration := some .bag, minimum_epsilon := minimum_epsilon } }
      { y with object := { y.object with
          bag_size := bag_size, exploration := some .bag, minimum_epsilon := minimum_epsilon } }
  softmax : ∀ {x y} lambda, P x y →
    Q { x with object := { x.object with lambda := lambda, exploration := some .softmax } }
      { y with object := { y.object with lambda := lambda, exploration := some .softmax } }
  epsilon_greedy : ∀ {x y} epsilon, P x y →
    Q { x with object := { x.object with epsilon := epsilon, exploration := some .epsilon_greedy } }
      { y with object := { y.object with epsilon := epsilon, exploration := some .epsilon_greedy } }
  failed : ∀ {x y}, P x y → F x y

theorem same_kind_of_some {s t : VwPredict V} {kind : VwPredictExploration} (h : SameKind s t kind) :
    ∀ kind' ∈ some kind, SameKind s t kind' := by
  rintro _ ⟨⟩
  exact h

theorem kept_configured {args : List Byte} (h : softmax_without_lambda args = false) :
    KeptByExploration (V := V) args (Configured args) (Explored args) Unloaded where
  unset hunset hP := { hP with exploration := fun hcb => absurd (hunset hcb) (by rw [h]; exact Bool.false_ne_true) }
  bag _ _ hP := { hP with exploration := fun _ => ⟨rfl, same_kind_of_some ⟨rfl, rfl⟩⟩ }
  softmax _ hP := { hP with exploration := fun _ => ⟨rfl, same_kind_of_some rfl⟩ }
  epsilon_greedy _ hP := { hP with exploration := fun _ => ⟨rfl, same_kind_of_some rfl⟩ }
  failed hP := hP.unloaded

variable {object object' : VwPredict V} {model : List Byte}

section Load

variable [Zero V] [Neg V] [LT V] [DecidableLT V] (numbers : Numbers V) {args : List Byte}

theorem load_exploration_alike {Q : Loading V → Loading V → Prop} (hP : KeptByExploration args P Q F) :
    Alike (load_exploration numbers args) (load_exploration numbers args) P (fun _ => Q) F := by
  unfold load_exploration
  refine .ite (fun hcb => ?_) fun hcb => ?_
  swap
  · exact .pure fun x y h => hP.unset (fun hcb' => absurd hcb' hcb) h
  refine (Alike.lift (Q := fun bag x y => P x y ∧
    (bag = none → (find_opt args (text "--bag")).length ≠ 1)) _ ?_).bind fun bag => ?_
  · intro bag x y hbag h
    exact ⟨h, fun hnone => find_opt_int_none (hnone ▸ hbag)⟩
  cases bag with
  | some bag_size =>
    refine .ite (fun _ => .fail _ fun _ _ h => hP.failed h.1) fun _ => ?_
    exact .bind (.modify (Q := Q) fun x y h => hP.bag _ _ h.1) fun _ => .pure fun _ _ h => h
  | none =>
    refine .ite (fun hsoftmax => ?_) fun _ => ?_
    · cases hlambda : find_opt_parse numbers.atof args (text "--lambda") with
      | some lambda =>
        exact .bind (.modify (Q := Q) fun x y h => hP.softmax _ h.1) fun _ => .pure fun _ _ h => h
      | none =>
        -- softmax without a lambda, which sets nothing
        refine .pure fun x y h => hP.unset (fun _ => ?_) h.1
        simp only [softmax_without_lambda, Bool.and_eq_true, bne_iff_ne]
        exact ⟨⟨⟨hcb, h.2 rfl⟩, hsoftmax⟩, find_opt_parse_none _ hlambda⟩
    · cases hepsilon : find_opt_parse numbers.atof args (text "--epsilon") with
      | some epsilon =>
        exact .bind (.modify (Q := Q) fun x y h => hP.epsilon_greedy _ h.1) fun _ =>
          Alike.pure fun _ _ h => h
      | none => exact .fail _ fun _ _ h => hP.failed h.1

/-- A relation that goes on to hold when a weight is set. -/
def KeptByWeights (P : Loading V → Loading V → Prop) : Prop :=
  ∀ (f : Option (Weights V) → Option (Weights V)) x y, P x y →
    P { x with object := { x.object with weights := f x.object.weights } }
      { y with object := { y.object with weights := f y.object.weights } }

omit [Zero V] [Neg V] [LT V] [DecidableLT V] in
theorem kept_weighted_by_weights : KeptByWeights (V := V) (Weighted args) :=
  fun f _ _ h => { h with weights := congrArg f h.weights }

omit [Zero V] [Neg V] [LT V] [DecidableLT V] in
theorem read_weights_loop_alike (hP : KeptByParser P F) (hset : KeptByWeights P) (size weight_length fuel : Nat) :
    Alike (read_weights_loop numbers size weight_length fuel) (read_weights_loop numbers size weight_length fuel)
      P (fun _ => P) F := by
  induction fuel with
  | zero => exact .pure fun _ _ h => h
  | succ fuel ih =>
    unfold read_weights_loop
    refine .bind (.reads_kept fun x y h => congrArg ModelParser.model (hP.mp h)) fun rest => ?_
    refine .ite (fun _ => .pure fun _ _ h => h) fun _ => ?_
    refine (parse_kept hP _).bind fun idx => ?_
    refine .ite (fun _ => .fail _ fun _ _ h => hP.failed h) fun _ => ?_
    refine (parse_kept hP _).bind fun w => ?_
    exact .bind (.modify (Q := P) fun x y h => hset _ x y h) fun _ => ih

omit [Neg V] [LT V] [DecidableLT V] in
theorem read_weights_alike {P₀ : Loading V → Loading V → Prop} (hP : KeptByParser P F) (hset : KeptByWeights P)
    (hinit : ∀ weights x y, P₀ x y → P { x with object := { x.object with weights := weights } }
      { y with object := { y.object with weights := weights } }) (num_bits : Nat) :
    Alike (read_weights numbers num_bits) (read_weights numbers num_bits) P₀ (fun _ => P) F := by
  unfold read_weights
  refine .ite (fun _ => .undefined) fun _ => ?_
  refine .bind (.modify (Q := P) fun x y h => hinit _ x y h) fun _ => ?_
  refine .bind (.reads_kept fun x y h => congrArg ModelParser.model (hP.mp h)) fun rest => ?_
  exact read_weights_loop_alike numbers hP hset _ _ _

/-- What must hold of a used object for the options of the next model: the wildcard flag is not
    set, or the new model has a wildcard too and no interactions were generated; and the new
    model sets its exploration. -/
structure Reloadable (object : VwPredict V) (options : List Byte) : Prop where
  wildcard : object.contains_wildcard = true →
    has_wildcard options = true ∧ object.generate_interactions = init
  exploration : softmax_without_lambda options = false

/-- The generator of an object without the flag is not used. -/
def GeneratorUnused (object : VwPredict V) : Prop :=
  object.contains_wildcard = false → object.generate_interactions = init

omit [Zero V] [Neg V] [LT V] [DecidableLT V] in
/-- The generator is as in a new object, and the flag is what the new model makes of it. -/
theorem Reloadable.same {options : List Byte} (h : Reloadable object options)
    (hunused : GeneratorUnused object) :
    (object.contains_wildcard || has_wildcard options) = has_wildcard options ∧
      object.generate_interactions = init := by
  cases hflag : object.contains_wildcard with
  | false => exact ⟨Bool.false_or _, hunused hflag⟩
  | true => exact ⟨by rw [(h.wildcard hflag).1]; rfl, (h.wildcard hflag).2⟩

theorem load_model_alike (hunused : GeneratorUnused object)
    (h : ∀ options, model_options model = some options → Reloadable object options) :
    Alike (load_model numbers) (load_model numbers)
      (fun x y => x = ⟨⟨model, 0⟩, object⟩ ∧ y = ⟨⟨model, 0⟩, vw_predict V⟩)
      (fun _ x y => SamePredictions x.object y.object) Unloaded := by
  unfold load_model
  have hstarted := kept_started object (vw_predict V)
  refine .bind (.modify (Q := fun x y => Started object (vw_predict V) x y ∧ x.mp = ⟨model, 0⟩) ?_)
    fun _ => ?_
  · rintro _ _ ⟨rfl, rfl⟩
    exact ⟨⟨rfl, ⟨rfl, rfl⟩, rfl, rfl, rfl, rfl⟩, rfl⟩
  -- the header, up to the options that the condition is about
  refine .bind (parse_alike (fun _ _ h => h.1.mp) (fun _ _ _ h => h.1.unloaded) read_num_bits
    (Q := fun num_bits x y => Started object (vw_predict V) x y ∧
      read_num_bits ⟨model, 0⟩ = .ok (.ok num_bits, x.mp)) ?_) fun num_bits => ?_
  · intro num_bits mp x y hread h
    rw [h.2] at hread
    exact ⟨hstarted.parsed mp h.1, hread⟩
  refine .bind (.modify (Q := fun x y => Started object (vw_predict V) x y ∧
    read_num_bits ⟨model, 0⟩ = .ok (.ok num_bits, x.mp)) fun x y h => ⟨{ h.1 with }, h.2⟩) fun _ => ?_
  refine .bind (parse_alike (fun _ _ h => h.1.mp) (fun _ _ _ h => h.1.unloaded) read_file_options
    (Q := fun args x y => Started object (vw_predict V) x y ∧ model_options model = some args) ?_) fun args => ?_
  · intro args mp x y hread h
    refine ⟨hstarted.parsed mp h.1, ?_⟩
    rw [model_options, bind_run, h.2]
    dsimp only
    rw [hread]
  refine .bind (.modify (Q := fun x y => Started object (vw_predict V) x y ∧
    model_options model = some args ∧ x.object.command_line_arguments = args ∧
      y.object.command_line_arguments = args ∧ x.object.no_constant = y.object.no_constant)
    fun x y h => ⟨{ h.1 with }, h.2, rfl, rfl, rfl⟩) fun _ => ?_
  refine .bind (.lift _ fun _ _ _ _ h => h) fun hash_seed => ?_
  refine .ite (fun _ => .fail _ fun _ _ h => h.1.unloaded) fun _ => ?_
  refine .of_fact (p := Reloadable object args) (fun x y h' => h args h'.2.1) fun hreloadable => ?_
  refine .bind (.modify (Q := Configured args) ?_) fun _ => ?_
  · rintro x y ⟨hxy, -, hx, hy, hconstant⟩
    obtain ⟨hwildcard, hgenerator⟩ := hreloadable.same hunused
    have hflag : (x.object.contains_wildcard || has_wildcard args) =
      (y.object.contains_wildcard || has_wildcard args) := by
      rw [hxy.first_wildcard, hxy.second_wildcard, hwildcard]
      rfl
    exact {
      mp := hxy.mp
      unloaded := hxy.unloaded
      first_arguments := hx
      second_arguments := hy
      interactions := rfl
      generate_interactions := hxy.first_generator.trans (hgenerator.trans hxy.second_generator.symm)
      contains_wildcard := hflag
      no_constant := hconstant }
  refine .bind (load_exploration_alike numbers (kept_configured hreloadable.exploration)) fun feature_scale => ?_
  refine .bind (check_checksum_alike (kept_explored args)) fun _ => ?_
  refine .bind (parse_kept (kept_explored args) _) fun _ => ?_
  refine .bind (.modify (Q := fun x y => Explored args x y ∧
    x.object.feature_scale_bits = y.object.feature_scale_bits) fun x y h => ⟨{ h with }, rfl⟩) fun _ => ?_
  refine .bind (read_weights_alike numbers (kept_weighted args) kept_weighted_by_weights
    (fun _ _ _ h => { h.1 with feature_scale_bits := h.2, weights := rfl }) num_bits) fun _ => ?_
  refine .modify fun x y h => ?_
  have harguments : x.object.command_line_arguments = y.object.command_line_arguments :=
    h.first_arguments.trans h.second_arguments.symm
  exact {
    weights := h.weights
    command_line_arguments := harguments
    interactions := h.interactions
    generate_interactions := h.generate_interactions
    contains_wildcard := h.contains_wildcard
    no_constant := h.no_constant
    feature_scale_bits := h.feature_scale_bits
    model_loaded := rfl
    exploration := fun hcb => h.exploration (h.first_arguments ▸ hcb) }

/-! ## One run of `load` -/

/-- The same state twice, in which no model is loaded. -/
structure Idle (x y : Loading V) : Prop where
  eq : x = y
  unused : GeneratorUnused x.object
  unloaded : x.object.model_loaded = false

omit [Zero V] [Neg V] [LT V] [DecidableLT V] in
theorem kept_idle : KeptByParser (V := V) Idle Idle where
  mp h := congrArg Loading.mp h.eq
  parsed _ h := ⟨by rw [h.eq], h.unused, h.unloaded⟩
  failed h := h

omit [Zero V] [Neg V] [LT V] [DecidableLT V] in
theorem kept_idle_by_exploration : KeptByExploration (V := V) args Idle Idle Idle where
  unset _ h := h
  bag _ _ h := ⟨by rw [h.eq], h.unused, h.unloaded⟩
  softmax _ h := ⟨by rw [h.eq], h.unused, h.unloaded⟩
  epsilon_greedy _ h := ⟨by rw [h.eq], h.unused, h.unloaded⟩
  failed h := h

omit [Zero V] [Neg V] [LT V] [DecidableLT V] in
theorem kept_idle_by_weights : KeptByWeights (V := V) Idle :=
  fun _ _ _ h => ⟨by rw [h.eq], h.unused, h.unloaded⟩

omit [Zero V] [Neg V] [LT V] [DecidableLT V] in
/-- An assignment that does not touch the flag and the generator. -/
theorem assign_idle (f : VwPredict V → VwPredict V)
    (hunused : ∀ object, GeneratorUnused object → GeneratorUnused (f object))
    (hunloaded : ∀ object, object.model_loaded = false → (f object).model_loaded = false) :
    Alike (assign f) (assign f) Idle (fun _ => Idle) Idle :=
  Alike.modify fun _ _ h => ⟨by rw [h.eq], hunused _ h.unused, hunloaded _ h.unloaded⟩

/-- The generator stays unused until an example is predicted, and a model whose `load` failed
    is not loaded. -/
theorem load_model_idle :
    Alike (load_model numbers) (load_model numbers) (fun x y => x = y ∧ GeneratorUnused x.object)
      (fun _ x y => x = y ∧ GeneratorUnused x.object) Idle := by
  unfold load_model
  refine .bind (.modify (Q := Idle) fun x y h => ⟨by rw [h.1], h.2, rfl⟩) fun _ => ?_
  refine (parse_kept kept_idle _).bind fun num_bits => ?_
  refine .bind (assign_idle _ (fun _ h => h) fun _ h => h) fun _ => ?_
  refine (parse_kept kept_idle _).bind fun args => ?_
  refine .bind (assign_idle _ (fun _ h => h) fun _ h => h) fun _ => ?_
  refine .bind (.lift _ fun _ _ _ _ h => h) fun hash_seed => ?_
  refine .ite (fun _ => .fail _ fun _ _ h => h) fun _ => ?_
  refine .bind (assign_idle _ (fun object h hflag => h (Bool.or_eq_false_iff.mp hflag).1) fun _ h => h) fun _ => ?_
  refine (load_exploration_alike numbers kept_idle_by_exploration).bind fun feature_scale => ?_
  refine (check_checksum_alike kept_idle).bind fun _ => ?_
  refine (parse_kept kept_idle _).bind fun _ => ?_
  refine .bind (assign_idle _ (fun _ h => h) fun _ h => h) fun _ => ?_
  refine .bind (read_weights_alike numbers kept_idle kept_idle_by_weights
    (fun _ _ _ h => ⟨by rw [h.eq], h.unused, h.unloaded⟩) num_bits) fun _ => ?_
  exact .modify fun x y h => ⟨by rw [h.eq], h.unused⟩

/-- A load that fails leaves the object as it was or without a model. -/
theorem load_failed {code : Int} (hunused : GeneratorUnused object)
    (h : load numbers model object = .ok (.error code, object')) :
    object' = object ∨ object'.model_loaded = false := by
  unfold load at h
  split at h
  · cases h
    exact .inl rfl
  have hends := load_model_idle numbers ⟨⟨model, 0⟩, object⟩ ⟨⟨model, 0⟩, object⟩ ⟨rfl, hunused⟩
  generalize load_model numbers ⟨⟨model, 0⟩, object⟩ = result at h hends
  cases hends with
  | returned _ => cases h
  | failed hidle =>
    cases h
    exact .inr hidle.unloaded
  | stopped => cases h

/-- After `load`, the generator of an object without the flag is unused. -/
theorem load_unused {r : Except Int Unit} (hunused : GeneratorUnused object)
    (h : load numbers model object = .ok (r, object')) : GeneratorUnused object' := by
  unfold load at h
  split at h
  · cases h
    exact hunused
  have hends := load_model_idle numbers ⟨⟨model, 0⟩, object⟩ ⟨⟨model, 0⟩, object⟩ ⟨rfl, hunused⟩
  generalize load_model numbers ⟨⟨model, 0⟩, object⟩ = result at h hends
  cases hends with
  | returned hsame =>
    cases h
    exact hsame.2
  | failed hidle =>
    cases h
    exact hidle.unused
  | stopped => cases h

/-- A load that succeeds gives an object with the predictions of a new one. -/
theorem load_succeeded (hunused : GeneratorUnused object)
    (h : load numbers model object = .ok (.ok (), object'))
    (hreloadable : ∀ options, model_options model = some options → Reloadable object options) :
    ∃ fresh, load numbers model (vw_predict V) = .ok (.ok (), fresh) ∧ SamePredictions object' fresh := by
  unfold load at h ⊢
  split at h
  · cases h
  next hmodel =>
    rw [if_neg hmodel]
    have hends := load_model_alike numbers hunused hreloadable ⟨⟨model, 0⟩, object⟩
      ⟨⟨model, 0⟩, vw_predict V⟩ ⟨rfl, rfl⟩
    generalize load_model numbers ⟨⟨model, 0⟩, object⟩ = first at h hends
    generalize load_model numbers ⟨⟨model, 0⟩, vw_predict V⟩ = second at hends ⊢
    cases hends with
    | returned hsame =>
      cases h
      exact ⟨_, rfl, hsame⟩
    | failed _ => cases h
    | stopped => cases h

end Load

/-! ## Histories -/

/-- The generator of an object and its flag, in two copies of the object. -/
def SameUnused (s t : VwPredict V) : Prop := s = t ∧ GeneratorUnused s

theorem kept_same_unused : KeptByPredictions (V := V) SameUnused where
  scores h := by
    obtain ⟨rfl, -⟩ := h
    exact ⟨rfl, rfl, rfl, rfl, rfl, rfl, rfl, rfl⟩
  generator data h hwildcard :=
    ⟨by rw [h.1], fun hflag => absurd hwildcard (by rw [hflag]; exact Bool.false_ne_true)⟩
  exploration h _ := by
    obtain ⟨rfl, -⟩ := h
    refine ⟨rfl, fun kind _ => ?_⟩
    cases kind with
    | epsilon_greedy => rfl
    | softmax => rfl
    | bag => exact ⟨rfl, rfl⟩

section Histories

variable [Zero V] [One V] [Add V] [Mul V] [Neg V] [LT V] [DecidableLT V] (numbers : Numbers V)
  (exploration : Exploration V) (fuel : Nat)

/-- One call, whatever it returns. -/
theorem api_call_unused {call : ApiCall V} (hunused : GeneratorUnused object)
    (h : api_call numbers exploration fuel object call = .ok object') :
    GeneratorUnused object' := by
  cases call with
  | load model =>
    simp only [api_call] at h
    cases hload : load numbers model object with
    | error e =>
      rw [hload] at h
      cases h
    | ok result =>
      rw [hload] at h
      cases h
      exact load_unused numbers hunused hload
  | predict prediction =>
    have hends := answer_alike kept_same_unused exploration fuel prediction object object ⟨rfl, hunused⟩
    simp only [api_call] at h
    generalize answer exploration fuel prediction object = result at h hends
    cases hends with
    | returned hsame =>
      cases h
      exact hsame.2
    | failed hsame =>
      cases h
      exact hsame.2
    | stopped => cases h

/-- The object after a history of calls. -/
def object_after (history : List (ApiCall V)) : Outcome (VwPredict V) :=
  history.foldlM (api_call numbers exploration fuel) (vw_predict V)

variable {history : List (ApiCall V)}

theorem history_unused (hunused : GeneratorUnused object)
    (h : history.foldlM (api_call numbers exploration fuel) object = .ok object') :
    GeneratorUnused object' := by
  induction history generalizing object with
  | nil =>
    cases h
    exact hunused
  | cons call history ih =>
    rw [List.foldlM_cons, Outcome.bind_eq_ok] at h
    obtain ⟨next, hcall, hrest⟩ := h
    exact ih (api_call_unused numbers exploration fuel hunused hcall) hrest

/-- After a `load` that succeeds all predictions are those of a new object that loaded the same
    model; after one that fails the object is as it was, or it makes no prediction. -/
structure LoadsFresh (object : VwPredict V) (model : List Byte) : Prop where
  success : ∀ object', load numbers model object = .ok (.ok (), object') →
    ∃ fresh, load numbers model (vw_predict V) = .ok (.ok (), fresh) ∧
      ∀ fuel predictions, (answers exploration fuel predictions object').map (·.1) =
        (answers exploration fuel predictions fresh).map (·.1)
  failure : ∀ code object', load numbers model object = .ok (.error code, object') →
    object' = object ∨ ∀ fuel prediction,
      answer exploration fuel prediction object' = .ok (.error E_VW_PREDICT_ERR_NO_MODEL_LOADED, object')

omit [Zero V] [One V] [Add V] [Mul V] [Neg V] [LT V] [DecidableLT V] in
/-- Each function `predict` begins like this. -/
theorem fail_unloaded (h : object.model_loaded = false) (rest : Coded (VwPredict V) A) :
    (do
      let model_loaded ← reads (·.model_loaded)
      if !model_loaded then fail E_VW_PREDICT_ERR_NO_MODEL_LOADED
      else rest : Coded (VwPredict V) A) object = .ok (.error E_VW_PREDICT_ERR_NO_MODEL_LOADED, object) := by
  rw [bind_run]
  simp only [reads, h]
  rfl

omit [Neg V] in
theorem answer_unloaded (h : object.model_loaded = false) (prediction : Prediction V) :
    answer exploration fuel prediction object = .ok (.error E_VW_PREDICT_ERR_NO_MODEL_LOADED, object) := by
  cases prediction with
  | score ex => exact map_failed _ (fail_unloaded h _)
  | scores shared actions => exact map_failed _ (fail_unloaded h _)
  | decision event_id shared actions pdf => exact map_failed _ (fail_unloaded h _)

/-- In every history, the next model is loaded as into a new object if it can be told that the
    flag, the generator and the exploration of the object do not matter. -/
theorem loads_fresh_of_reloadable (history : List (ApiCall V)) (object : VwPredict V) (model : List Byte)
    (hhistory : object_after numbers exploration fuel history = .ok object)
    (hreloadable : ∀ options, model_options model = some options → Reloadable object options) :
    LoadsFresh numbers exploration object model := by
  have hunused : GeneratorUnused object := history_unused numbers exploration fuel (fun _ => rfl) hhistory
  constructor
  · intro object' hload
    obtain ⟨fresh, hfresh, hsame⟩ := load_succeeded numbers hunused hload hreloadable
    exact ⟨fresh, hfresh, fun fuel predictions => answers_eq exploration fuel predictions hsame⟩
  · intro code object' hload
    exact (load_failed numbers hunused hload).imp id fun h fuel => answer_unloaded exploration fuel h

/-- A new object that loaded a model. -/
def loaded_object (model : List Byte) : VwPredict V :=
  match load numbers model (vw_predict V) with
  | .ok (_, object) => object
  | .error _ => vw_predict V

theorem object_after_load (h : (load numbers model (vw_predict V)).isOk = true) :
    object_after numbers exploration fuel [.load model] = .ok (loaded_object numbers model) := by
  rw [object_after, List.foldlM_cons, api_call, loaded_object]
  cases hload : load numbers model (vw_predict V) with
  | error e =>
    rw [hload] at h
    cases h
  | ok result => rfl

/-- The answers of an object that loads a model after a history of calls. -/
def answers_after (history : List (ApiCall V)) (model : List Byte) (predictions : List (Prediction V)) :
    Outcome (List (Except Int (Answer V))) := do
  let object ← object_after numbers exploration fuel history
  match load numbers model object with
  | .ok (.ok _, object) => (answers exploration fuel predictions object).map (·.1)
  | _ => Outcome.undefined

/-- A history does not show in the answers. -/
theorem LoadsFresh.answers_after_eq {predictions : List (Prediction V)}
    {out : List (Except Int (Answer V))} (hfresh : LoadsFresh numbers exploration object model)
    (hhistory : object_after numbers exploration fuel history = .ok object)
    (h : answers_after numbers exploration fuel history model predictions = .ok out) :
    answers_after numbers exploration fuel [] model predictions = .ok out := by
  unfold answers_after at h ⊢
  rw [hhistory, Outcome.ok_bind] at h
  split at h
  · next object' hload =>
    obtain ⟨fresh, hnew, hsame⟩ := hfresh.success object' hload
    rw [object_after, List.foldlM_nil, Outcome.pure_eq, Outcome.ok_bind, hnew]
    exact (hsame fuel predictions).symm.trans h
  · cases h

end Histories

/-! ## A stale flag -/

/-- A model with 4 bits, for some options and weights. -/
def small_model (options weights : List Byte) : List Byte :=
  let fields : List (List Byte) := [le_bytes 4 1, [0], [0], le_bytes 4 0, le_bytes 4 0, le_bytes 4 4,
    le_bytes 4 0, le_bytes 4 0, le_bytes 4 0, le_bytes 4 (options.length + 1), options ++ [0]]
  let check_sum := fields.foldl (fun check_sum field => uniform_hash field check_sum) 0
  le_bytes 4 1 ++ [0] ++ fields.flatten ++ le_bytes 4 4 ++ le_bytes 4 check_sum.toNat ++ [0] ++ weights

def wildcard_model : List Byte := small_model (text "--noconstant -q ::") []

/-- The only weight is that of the pair of the feature 5 with itself. -/
def plain_model : List Byte := small_model (text "--noconstant") (le_bytes 4 10 ++ le_bytes 4 7)

/-- The bytes of a weight are taken as an integer. -/
def integer_numbers : Numbers Int := ⟨fun s => digits_value s, BitVec.toInt⟩

def no_exploration : Exploration Int where
  generate_epsilon_greedy _ _ pdf := (0, pdf)
  generate_softmax _ _ pdf := (0, pdf)
  generate_bag _ pdf := (0, pdf)
  enforce_minimum_probability _ _ pdf := (0, pdf)
  sample_after_normalizing _ pdf := (0, pdf, 0)

/-- One feature in the namespace 'a'. -/
def feature_example : Example Int where
  indices := [97]
  feature_space := fun ns => if ns = 97 then Features.empty.push_back 1 5 else .empty
  ft_offset := 0

/-- The pair of the namespace 'a' with itself was generated for the first model. The second one
    has no interactions, and still a prediction reads the weight of the pair. -/
theorem reload_keeps_interactions :
    ¬ ∀ (history : List (ApiCall Int)) (object : VwPredict Int) (model : List Byte),
      object_after integer_numbers no_exploration 20 history = .ok object →
        LoadsFresh integer_numbers no_exploration object model := by
  intro h
  have hstale : answers_after integer_numbers no_exploration 20
      [.load wildcard_model, .predict (.score feature_example)] plain_model [.score feature_example] =
        .ok [.ok (.score 7)] := by decide +kernel
  have hnew : answers_after integer_numbers no_exploration 20 [] plain_model [.score feature_example] =
      .ok [.ok (.score 0)] := by decide +kernel
  cases hobject : object_after integer_numbers no_exploration 20
      [.load wildcard_model, .predict (.score feature_example)] with
  | error e =>
    unfold answers_after at hstale
    rw [hobject] at hstale
    cases hstale
  | ok object =>
    have hsame := (h _ object plain_model hobject).answers_after_eq _ _ _ hobject hstale
    rw [hnew] at hsame
    exact absurd hsame (by decide)

/-- A model with a wildcard, loaded after one without. -/
theorem wildcard_after_plain :
    LoadsFresh integer_numbers no_exploration (loaded_object integer_numbers plain_model) wildcard_model :=
  loads_fresh_of_reloadable integer_numbers no_exploration 20 [.load plain_model] _ wildcard_model
    (object_after_load _ _ _ (by decide +kernel)) fun options hoptions => by
      have hread : model_options wildcard_model = some (text "--noconstant -q ::") := by decide +kernel
      obtain rfl := Option.some.inj (hread.symm.trans hoptions)
      have hflag : (loaded_object integer_numbers plain_model).contains_wildcard = false := by decide +kernel
      refine ⟨fun h => ?_, by decide +kernel⟩
      rw [hflag] at h
      cases h

end VW.Slim
