import VowpalWabbit.CsoaaLdf.Scores

/-! # The training examples of weighted all pairs

    Through both loops each example has its features, or those and its label features; what a
    truncation changes of the list of namespaces the next concatenation puts back. So each
    call of the base is for the difference of two examples as they stand.

    The features of the later example are stored with its offset added to their indices, and the
    base adds the offset again.
-/

open Cpp

namespace VW.CsoaaLdf

open List Function Features Option

variable {B R : Type} [Field R]

/-! ## Label features -/

/-- The same features, as they are listed and valued. -/
structure Same (e₀ e : Example R) : Prop where
  indices : e.indices = e₀.indices
  items : ∀ ns, (e.feature_space ns).items = (e₀.feature_space ns).items
  ft_offset : e.ft_offset = e₀.ft_offset
  num_features : e.num_features = e₀.num_features
  costs : e.costs = e₀.costs
  closed : ∀ ns, (e.feature_space ns).Closed

section Labels

variable {lfm : LabelFeatureMap R} {lab : BitVec 64} {e e₀ : Example R} {ns : NamespaceIndex}

omit [Field R] in
theorem closed_update {space : NamespaceIndex → Features R} {a : NamespaceIndex} {f : Features R}
    (h : ∀ ns, (space ns).Closed) (hf : f.Closed) (ns : NamespaceIndex) : (update space a f ns).Closed := by
  by_cases hns : ns = a
  · rwa [hns, update_self]
  · rw [update_of_ne hns]
    exact h ns

theorem closed_truncate {f : Features R} (h : f.Closed) {i : Nat} (hi : i ≤ f.size) (sum : R) :
    (f.truncate_to_given i sum).Closed := by
  unfold Features.Closed
  rw [size_truncate_to_given f hi]
  unfold truncate_to_given
  split
  · next heq => rwa [heq]
  · exact Extents.closed_truncate_to h i

theorem items_truncate {f : Features R} (i : Nat) (sum : R) :
    (f.truncate_to_given i sum).items = f.items.take i := by
  unfold truncate_to_given
  split
  · next heq => rw [heq, ← length_items, take_length]
  · exact take_zipWith.symm

theorem append_indices (e : Example R) (fs : Features R) : (append_example_namespace e ns fs).indices =
    if ns ∈ e.indices then e.indices else e.indices ++ [ns] := by
  show (Slim.ensure_namespace e.toExampleNamespaces ns).indices = _
  unfold Slim.ensure_namespace
  split
  · rfl
  · rfl

theorem append_items (e : Example R) (fs : Features R) (ns' : NamespaceIndex) :
    ((append_example_namespace e ns fs).feature_space ns').items =
      (e.feature_space ns').items ++ if ns' = ns then fs.items else [] :=
  (Slim.appended_append e.toExampleNamespaces ns fs).items ns'

theorem append_closed {fs : Features R} (h : ∀ ns, (e.feature_space ns).Closed) (hfs : fs.Closed)
    (ns' : NamespaceIndex) :
    ((append_example_namespace e ns fs).feature_space ns').Closed := by
  have hspace : (Slim.ensure_namespace e.toExampleNamespaces ns).feature_space = e.feature_space := by
    unfold Slim.ensure_namespace
    split
    · rfl
    · rfl
  have hconcat : ((e.feature_space ns).concat fs).Closed := by
    have hclosed := Extents.closed_concat (h ns) hfs
    unfold Features.Closed Features.concat
    rwa [size, length_append, ← (e.feature_space ns).size_eq]
  show (update (Slim.ensure_namespace e.toExampleNamespaces ns).feature_space ns _ ns').Closed
  rw [hspace]
  exact closed_update h hconcat ns'

theorem Same.append (hlfm : ∀ lab fs, lfm lab = some fs → fs.Closed) (h : Same e₀ e) (lab : BitVec 64) :
    Same (append_example_namespace_from_memory lfm e₀ lab) (append_example_namespace_from_memory lfm e lab) := by
  unfold append_example_namespace_from_memory
  cases hfs : lfm lab with
  | none => exact h
  | some fs =>
    refine ⟨?_, fun ns => ?_, h.ft_offset, ?_, h.costs, append_closed h.closed (hlfm lab fs hfs)⟩
    · rw [append_indices, append_indices, h.indices]
    · rw [append_items, append_items, h.items]
    · exact congrArg (· + _) h.num_features

/-- To take the label features away gives the example without them, if the namespaces that are
    listed are those with features. -/
theorem Same.truncate (hlisted : LABEL_NAMESPACE ∈ e₀.indices ↔ (e₀.feature_space LABEL_NAMESPACE).items ≠ [])
    (h : Same (append_example_namespace_from_memory lfm e₀ lab) e) :
    Same e₀ (truncate_example_namespace_from_memory lfm e lab) := by
  unfold append_example_namespace_from_memory at h
  unfold truncate_example_namespace_from_memory
  cases hfs : lfm lab with
  | none =>
    rw [hfs] at h
    exact h
  | some fs =>
    rw [hfs] at h
    have hitems := fun ns => (h.items ns).trans (append_items e₀ fs ns)
    have hsize : (e.feature_space LABEL_NAMESPACE).size = (e₀.feature_space LABEL_NAMESPACE).size + fs.size := by
      rw [← length_items, hitems, if_pos rfl, length_append, length_items, length_items]
    have hindices := h.indices.trans (append_indices e₀ fs)
    refine ⟨?_, fun ns => ?_, h.ft_offset, ?_, h.costs,
      closed_update h.closed (closed_truncate (h.closed _) (Nat.sub_le _ _) _)⟩
    · show (if e.indices.getLast? = some LABEL_NAMESPACE ∧ (e.feature_space LABEL_NAMESPACE).size = fs.size then
        e.indices.dropLast else e.indices) = _
      by_cases hmem : LABEL_NAMESPACE ∈ e₀.indices
      · have hpos := length_pos_of_ne_nil (hlisted.mp hmem)
        rw [length_items] at hpos
        rw [if_neg fun hlast => by omega, hindices, if_pos hmem]
      · have hempty : (e₀.feature_space LABEL_NAMESPACE).size = 0 := by
          rw [← length_items, not_not.mp (mt hlisted.mpr hmem)]
          rfl
        rw [if_neg hmem] at hindices
        rw [hindices, getLast?_concat, dropLast_concat, if_pos ⟨rfl, by omega⟩]
    · show (update e.feature_space LABEL_NAMESPACE _ ns).items = _
      by_cases hns : ns = LABEL_NAMESPACE
      · subst hns
        rw [update_self, items_truncate, hitems, if_pos rfl, hsize, Nat.add_sub_cancel,
          ← length_items, take_left]
      · rw [update_of_ne hns, hitems, if_neg hns, append_nil]
    · exact (congrArg (· - _) h.num_features).trans (BitVec.add_sub_cancel _ _)

end Labels

/-! ## Subtraction -/

section Subtract

variable {ec X : Example R} {fs : List (R × FeatureIndex)}

theorem foldl_subtract_feature (fs : List (R × FeatureIndex)) (ec : Example R) : ∃ g : Features R,
    fs.foldl subtract_feature ec = { ec with feature_space := update ec.feature_space WAP_LDF_NAMESPACE g } ∧
      g.items = (ec.feature_space WAP_LDF_NAMESPACE).items ++ fs.map (fun f => (-f.1, f.2)) ∧
      ((ec.feature_space WAP_LDF_NAMESPACE).Closed → g.Closed) := by
  induction fs generalizing ec with
  | nil => exact ⟨ec.feature_space WAP_LDF_NAMESPACE, by rw [update_eq_self]; rfl, (append_nil _).symm, id⟩
  | cons f fs ih =>
    obtain ⟨g, hrun, hitems, hclosed⟩ := ih (subtract_feature ec f)
    have hspace : (subtract_feature ec f).feature_space WAP_LDF_NAMESPACE =
        (ec.feature_space WAP_LDF_NAMESPACE).push_back_hash (-f.1) f.2 (WAP_LDF_NAMESPACE.setWidth 64) := by
      unfold subtract_feature
      dsimp only
      rw [update_self]
    refine ⟨g, ?_, ?_, fun h => hclosed ?_⟩
    · rw [foldl_cons, hrun]
      unfold subtract_feature
      rw [update_idem]
    · rw [hitems, hspace, map_cons, append_cons]
      congr 1
      exact zip_append (ec.feature_space WAP_LDF_NAMESPACE).size_eq
    · rw [hspace]
      unfold Features.Closed push_back_hash
      unfold Features.Closed size at h
      rw [size, length_append, length_singleton]
      rw [(ec.feature_space WAP_LDF_NAMESPACE).size_eq] at h ⊢
      exact Extents.closed_push_back h _

/-- What a subtraction leaves. -/
theorem subtract_features_spec (fs : List (R × FeatureIndex))
    (hitems : (ec.feature_space WAP_LDF_NAMESPACE).items = [])
    (hclosed : ∀ ns, (ec.feature_space ns).Closed) : ∃ g : Features R,
    (subtract_features ec fs).toExampleNamespaces =
      ⟨ec.indices ++ [WAP_LDF_NAMESPACE], update ec.feature_space WAP_LDF_NAMESPACE g⟩ ∧
    (subtract_features ec fs).costs = ec.costs ∧ (subtract_features ec fs).label = ec.label ∧
    (subtract_features ec fs).weight = ec.weight ∧
    (subtract_features ec fs).num_features = ec.num_features + BitVec.ofNat 64 g.size ∧
    g.items = fs.map (fun f => (-f.1, f.2)) ∧ g.Closed := by
  obtain ⟨g, hrun, hg, hgclosed⟩ := foldl_subtract_feature fs { ec with
    feature_space := update ec.feature_space WAP_LDF_NAMESPACE
      { ec.feature_space WAP_LDF_NAMESPACE with sum_feat_sq := 0 } }
  dsimp only at hg hgclosed hrun
  rw [update_idem] at hrun
  rw [update_self] at hg hgclosed
  unfold subtract_features
  dsimp only
  rw [hrun]
  refine ⟨g, rfl, rfl, rfl, rfl, ?_, hg.trans (congrArg (· ++ _) hitems), hgclosed (hclosed _)⟩
  dsimp only
  rw [update_self]

/-- To take the WAP namespace away gives the example before. -/
theorem Same.unsubtract {g : Features R} (hX : Same X ec) (hitems : (X.feature_space WAP_LDF_NAMESPACE).items = [])
    (handed : Example R) (hnamespaces : handed.toExampleNamespaces =
      ⟨ec.indices ++ [WAP_LDF_NAMESPACE], update ec.feature_space WAP_LDF_NAMESPACE g⟩)
    (hoffset : handed.ft_offset = X.ft_offset)
    (hnum : handed.num_features = ec.num_features + BitVec.ofNat 64 g.size)
    (hcosts : handed.costs = X.costs) :
    Same X (unsubtract_example handed) ∧ (unsubtract_example handed).indices = ec.indices ∧
      ∀ ns, ns ≠ WAP_LDF_NAMESPACE → handed.feature_space ns = (unsubtract_example handed).feature_space ns := by
  have hindices : handed.indices = ec.indices ++ [WAP_LDF_NAMESPACE] :=
    congrArg ExampleNamespaces.indices hnamespaces
  have hspace : handed.feature_space = update ec.feature_space WAP_LDF_NAMESPACE g :=
    congrArg ExampleNamespaces.feature_space hnamespaces
  unfold unsubtract_example
  rw [if_pos (by rw [hindices, getLast?_concat]), hindices, dropLast_concat, hspace, update_idem]
  refine ⟨⟨hX.indices, fun ns => ?_, hoffset, ?_, hcosts, closed_update hX.closed (Extents.closed_nil 0)⟩, rfl,
    fun ns hns => ?_⟩ <;> dsimp only
  · by_cases hns : ns = WAP_LDF_NAMESPACE
    · subst hns
      rw [update_self, hitems]
      rfl
    · rw [update_of_ne hns, hX.items ns]
  · rw [update_self, hnum, BitVec.add_sub_cancel, hX.num_features]
  · rw [update_of_ne hns, update_of_ne hns]

end Subtract

/-! ## The loops -/

/-- An example that the training gets: it has one cost, its namespaces are those with features,
    and it leaves the WAP namespace alone. -/
structure Ready (ft_offset : BitVec 64) (e : Example R) : Prop where
  costs : ∃ cost, e.costs = [cost]
  ft_offset : e.ft_offset = ft_offset
  listed : ∀ ns, ns ∈ e.indices ↔ (e.feature_space ns).items ≠ []
  closed : ∀ ns, (e.feature_space ns).Closed
  unused : WAP_LDF_NAMESPACE ∉ e.indices

/-- An example with the label features of its class. -/
def labelled (lfm : LabelFeatureMap R) (e : Example R) : Example R :=
  append_example_namespace_from_memory lfm e (e.costs.head?.elim 0 fun cost => cost.class_index.setWidth 64)

/-- What the base learns on, and the later example as it stands then. -/
structure Difference (all : Settings) (lfm : LabelFeatureMap R) (e₁ e₂ handed later : Example R) :
    Prop where
  same_earlier : Same (labelled lfm e₁) (unsubtract_example handed)
  same_later : Same (labelled lfm e₂) later
  extended : Extends (unsubtract_example handed) handed
  subtracted : Settles (fun fuel => foreach_feature fuel all later) fun fs =>
    (handed.feature_space WAP_LDF_NAMESPACE).items = fs.map fun f => (-f.1, f.2)

section Labelled

variable {lfm : LabelFeatureMap R} {e : Example R} {o : BitVec 64} {cost : CsClass R}

theorem labelled_eq (h : e.costs = [cost]) :
    labelled lfm e = append_example_namespace_from_memory lfm e (cost.class_index.setWidth 64) := by
  unfold labelled
  rw [h]
  rfl

theorem labelled_fields : (labelled lfm e).ft_offset = e.ft_offset ∧ (labelled lfm e).costs = e.costs := by
  unfold labelled append_example_namespace_from_memory
  split
  · exact ⟨rfl, rfl⟩
  · exact ⟨rfl, rfl⟩

theorem labelled_unused (h : Ready o e) : WAP_LDF_NAMESPACE ∉ (labelled lfm e).indices ∧
    ((labelled lfm e).feature_space WAP_LDF_NAMESPACE).items = [] := by
  have hitems := not_not.mp (mt (h.listed _).mpr h.unused)
  unfold labelled append_example_namespace_from_memory
  split
  · exact ⟨h.unused, hitems⟩
  · have hne : WAP_LDF_NAMESPACE ≠ LABEL_NAMESPACE := by decide
    rw [append_indices, append_items, hitems, if_neg hne]
    refine ⟨?_, rfl⟩
    split
    · exact h.unused
    · exact fun hwap => (mem_append.mp hwap).elim h.unused fun hwap => hne (mem_singleton.mp hwap)

end Labelled

section Loops

variable [LinearOrder R] {all : Settings} {lfm : LabelFeatureMap R} {o : BitVec 64}
  (base : Base B R) {s : State B R} {seq₀ : List (Example R)} {first first' : Option Nat} {k1 k2 : Nat}
  {e₁ e₂ : Example R} {cost1 cost2 : CsClass R}

theorem learn_difference_settles (hall : all.Apart) (hlfm : ∀ lab fs, lfm lab = some fs → fs.Closed)
    {ec1 ec2 : Example R} (h₁ : Ready o e₁) (h₂ : Ready o e₂)
    (hcost2 : e₂.costs = [cost2]) (hec1 : Same (labelled lfm e₁) ec1) (hec2 : Same e₂ ec2) (k1 k2 : Nat) :
    Settles (fun fuel => learn_difference fuel all ⟨lfm, o⟩ base k1 k2 ec1 ec2 cost1 cost2 s) fun s' =>
      ∃ handed later restored₁ restored₂, Difference all lfm e₁ e₂ handed later ∧
        handed.weight = |cost2.wap_value - cost1.wap_value| ∧ handed.label = (if cost1.x < cost2.x then -1 else 1) ∧
        Same (labelled lfm e₁) restored₁ ∧ restored₁.weight = ec1.weight ∧
        Same e₂ restored₂ ∧ restored₂.weight = ec2.weight ∧
        s'.ec_seq = (s.ec_seq.set k1 restored₁).set k2 restored₂ ∧
        s'.calls = s.calls ++ [⟨k1, k2, handed, later⟩] := by
  obtain ⟨hunused, hitems⟩ := labelled_unused h₁
  have hoffset₁ : (labelled lfm e₁).ft_offset = o := labelled_fields.1.trans h₁.ft_offset
  have hlater := hec2.append hlfm (cost2.class_index.setWidth 64)
  generalize hl : append_example_namespace_from_memory lfm ec2 (cost2.class_index.setWidth 64) = later
    at hlater
  obtain ⟨fs, -, m, hrun⟩ := foreach_settles hall hlater.closed
  have hsubtract : Settles (fun fuel => subtract_example fuel all (prepare ec1 cost1 cost2) later)
      (· = subtract_features (prepare ec1 cost1 cost2) fs) :=
    ⟨_, rfl, m, fun fuel hfuel => congrArg (Option.map _) (hrun fuel hfuel)⟩
  unfold learn_difference
  dsimp only
  rw [hl]
  refine hsubtract.bind fun subtracted heq => .of_some ?_
  subst heq
  -- the example with the subtracted features, and the one that comes back
  have hprepared : Same (labelled lfm e₁) (prepare ec1 cost1 cost2) := { hec1 with }
  obtain ⟨g, hnamespaces, hc, hlabel, hweight, hnum, hg, -⟩ := subtract_features_spec fs
    ((hprepared.items _).trans hitems) hprepared.closed
  have hspace := congrFun (congrArg ExampleNamespaces.feature_space hnamespaces) WAP_LDF_NAMESPACE
  dsimp only at hspace
  rw [update_self] at hspace
  obtain ⟨hearlier, hindices, hothers⟩ := hprepared.unsubtract hitems
    { subtract_features (prepare ec1 cost1 cost2) fs with ft_offset := o } hnamespaces
    hoffset₁.symm hnum (hc.trans hec1.costs)
  have hrestored : ∀ partial_prediction, Same (labelled lfm e₁) (unsubtract_example
      { subtract_features (prepare ec1 cost1 cost2) fs with
        partial_prediction := partial_prediction, ft_offset := ec1.ft_offset, weight := ec1.weight }) := fun _ =>
    And.left (hprepared.unsubtract hitems _ hnamespaces hec1.ft_offset hnum (hc.trans hec1.costs))
  rw [← labelled_eq hcost2] at hlater
  refine ⟨_, _, _, _, ⟨hearlier, hlater, ⟨?_, ?_, hothers, ?_⟩, ?_⟩, hweight, hlabel, hrestored _,
    ?_, ?_, ?_, rfl, rfl⟩
  · rw [hindices]
    exact congrArg ExampleNamespaces.indices hnamespaces
  · rw [hearlier.indices]
    exact hunused
  · exact hoffset₁.symm.trans hearlier.ft_offset.symm
  · exact ⟨fs, (congrArg items hspace).trans hg, m, hrun⟩
  · unfold unsubtract_example
    split
    · rfl
    · rfl
  · rw [labelled_eq hcost2] at hlater
    exact hlater.truncate (h₂.listed _)
  · subst hl
    unfold truncate_example_namespace_from_memory append_example_namespace_from_memory
    cases lfm (cost2.class_index.setWidth 64) with
    | none => rfl
    | some fs => rfl

omit [Field R] [LinearOrder R] in
theorem Ready.set_wap_value {e : Example R} (h : Ready o e) (wap : CsClass R) :
    Ready o (set_wap_value e wap) := by
  obtain ⟨cost, hcost⟩ := h.costs
  exact { h with costs := ⟨wap, by rw [CsoaaLdf.set_wap_value, hcost]; rfl⟩ }

/-- What is learned on for two examples of the sequence. -/
def Learns (all : Settings) (lfm : LabelFeatureMap R) (seq₀ : List (Example R)) (c : Learned R) : Prop :=
  ∃ e₁ e₂ cost1 cost2, seq₀[c.k1]? = some e₁ ∧ e₁.costs = [cost1] ∧ seq₀[c.k2]? = some e₂ ∧ e₂.costs = [cost2] ∧
    Difference all lfm e₁ e₂ c.ec1 c.ec2 ∧ c.ec1.weight = |cost2.wap_value - cost1.wap_value| ∧
    c.ec1.label = if cost1.x < cost2.x then -1 else 1

/-- Each example is as it was, but that of the outer loop has its label features. -/
structure Memory (lfm : LabelFeatureMap R) (seq₀ : List (Example R)) (first : Option Nat)
    (seq : List (Example R)) : Prop where
  length : seq.length = seq₀.length
  examples : ∀ i e₀ e, seq₀[i]? = some e₀ → seq[i]? = some e →
    Same (if first = some i then labelled lfm e₀ else e₀) e ∧ e.weight = e₀.weight

omit [LinearOrder R] in
theorem Memory.initial (h : ∀ e ∈ seq₀, Ready o e) : Memory lfm seq₀ none seq₀ := by
  refine ⟨rfl, fun i e₀ e hi hi' => ?_⟩
  cases hi.symm.trans hi'
  exact ⟨⟨rfl, fun _ => rfl, rfl, rfl, rfl, (h e₀ (mem_of_getElem? hi)).closed⟩, rfl⟩

omit [LinearOrder R] in
theorem Memory.set {seq : List (Example R)} (h : Memory lfm seq₀ first seq) {i : Nat} {e : Example R}
    (hfirst : ∀ j, j ≠ i → (first' = some j ↔ first = some j))
    (hnew : ∀ e₀, seq₀[i]? = some e₀ →
      Same (if first' = some i then labelled lfm e₀ else e₀) e ∧ e.weight = e₀.weight) :
    Memory lfm seq₀ first' (seq.set i e) := by
  refine ⟨length_set.trans h.length, fun j e₀ e' h₀ hj => ?_⟩
  by_cases hij : j = i
  · subst hij
    rw [getElem?_set, if_pos rfl] at hj
    split at hj
    · cases hj
      exact hnew e₀ h₀
    · cases hj
  · rw [getElem?_set_ne (Ne.symm hij)] at hj
    simp only [hfirst j hij]
    exact h.examples j e₀ e' h₀ hj

def Learned.pair (c : Learned R) : Nat × Nat := (c.k1, c.k2)

/-- A part of the training keeps the examples, and learns on these pairs. -/
def Adds (all : Settings) (lfm : LabelFeatureMap R) (seq₀ : List (Example R)) (first : Option Nat)
    (pairs : List (Nat × Nat)) (s s' : State B R) : Prop :=
  Memory lfm seq₀ first s'.ec_seq ∧ ∃ new, s'.calls = s.calls ++ new ∧
    new.map Learned.pair = pairs ∧ ∀ c ∈ new, Learns all lfm seq₀ c

theorem Adds.refl (h : Memory lfm seq₀ first s.ec_seq) :
    Adds all lfm seq₀ first [] s s := ⟨h, [], (append_nil _).symm, rfl, fun _ hc => absurd hc not_mem_nil⟩

theorem Adds.trans {pairs pairs' : List (Nat × Nat)} {s' s'' : State B R} (h : Adds all lfm seq₀ first pairs s s')
    (h' : Adds all lfm seq₀ first' pairs' s' s'') :
    Adds all lfm seq₀ first' (pairs ++ pairs') s s'' := by
  obtain ⟨-, new, hcalls, hpairs, hlearns⟩ := h
  obtain ⟨hmemory, new', hcalls', hpairs', hlearns'⟩ := h'
  refine ⟨hmemory, new ++ new', ?_, ?_, fun c hc => (mem_append.mp hc).elim (hlearns c) (hlearns' c)⟩
  · rw [hcalls', hcalls, append_assoc]
  · rw [map_append, hpairs, hpairs']

/-- The cost of an example of the sequence. -/
def cost_at (seq : List (Example R)) (k : Nat) : Option (CsClass R) := seq[k]?.bind fun e => e.costs.head?

/-- The pairs that are learned on. -/
def trains (seq : List (Example R)) (k1 k2 : Nat) : Bool :=
  (cost_at seq k1).elim false fun cost1 => (cost_at seq k2).elim false fun cost2 =>
    !(cost1.class_index == -1) && differ cost1 cost2

theorem trains_eq (h₁ : seq₀[k1]? = some e₁) (hcost1 : e₁.costs = [cost1]) (h₂ : seq₀[k2]? = some e₂)
    (hcost2 : e₂.costs = [cost2]) : trains seq₀ k1 k2 = (!(cost1.class_index == -1) && differ cost1 cost2) := by
  unfold trains cost_at
  rw [h₁, h₂, bind_some, bind_some, hcost1, hcost2]
  rfl

/-- The pairs of a round of the outer loop. -/
def pairs_of (seq : List (Example R)) (k1 : Nat) : List (Nat × Nat) :=
  ((range' (k1 + 1) (seq.length - (k1 + 1))).filter (trains seq k1)).map fun k2 => (k1, k2)

/-- A header is in no pair. -/
theorem pairs_of_header (h₁ : seq₀[k1]? = some e₁) (hcost1 : e₁.costs = [cost1]) (hheader : cost1.class_index = -1) :
    pairs_of seq₀ k1 = [] := by
  unfold pairs_of
  rw [filter_eq_nil_iff.mpr fun k2 _ => ?_, map_nil]
  unfold trains cost_at
  rw [h₁, bind_some, hcost1]
  cases (seq₀[k2]?.bind fun e => e.costs.head?) <;> simp [hheader]

/-- A sequence with its settings, as the training gets it. -/
structure Trainable (all : Settings) (lfm : LabelFeatureMap R) (o : BitVec 64) (seq : List (Example R)) :
    Prop where
  apart : all.Apart
  label_features : ∀ lab fs, lfm lab = some fs → fs.Closed
  ready : ∀ e ∈ seq, Ready o e

variable (h : Trainable all lfm o seq₀)

include h

theorem inner_round_adds (h₁ : seq₀[k1]? = some e₁)
    (hcost1 : e₁.costs = [cost1]) (hheader : cost1.class_index ≠ -1) (hk : k1 ≠ k2) (hk2 : k2 < seq₀.length)
    (hm : Memory lfm seq₀ (some k1) s.ec_seq) :
    Settles (fun fuel => inner_round fuel all ⟨lfm, o⟩ base k1 cost1 s k2)
      (Adds all lfm seq₀ (some k1) (if trains seq₀ k1 k2 then [(k1, k2)] else []) s) := by
  have h₂ := getElem?_eq_getElem hk2
  generalize seq₀[k2] = e₂ at h₂
  obtain ⟨hk1, -⟩ := List.getElem?_eq_some_iff.mp h₁
  rw [← hm.length] at hk1 hk2
  have hec1 := getElem?_eq_getElem hk1
  have hec2 := getElem?_eq_getElem hk2
  generalize s.ec_seq[k1] = ec1 at hec1
  generalize s.ec_seq[k2] = ec2 at hec2
  obtain ⟨cost2, hcost2⟩ := (h.ready e₂ (mem_of_getElem? h₂)).costs
  obtain ⟨hsame1, hweight1⟩ := hm.examples k1 e₁ ec1 h₁ hec1
  obtain ⟨hsame2, hweight2⟩ := hm.examples k2 e₂ ec2 h₂ hec2
  rw [if_pos rfl] at hsame1
  rw [if_neg fun heq => hk (some.inj heq)] at hsame2
  -- the costs of an example do not change
  have hrun : ∀ fuel, inner_round fuel all ⟨lfm, o⟩ base k1 cost1 s k2 =
      if differ cost1 cost2 then
        learn_difference fuel all ⟨lfm, o⟩ base k1 k2 ec1 ec2 cost1 cost2 s
      else some s := by
    intro fuel
    unfold inner_round
    rw [hec1, hec2]
    dsimp only [bind_eq_bind, bind_some]
    rw [hsame2.costs, hcost2]
    rfl
  have htrains : trains seq₀ k1 k2 = differ cost1 cost2 := by
    rw [trains_eq h₁ hcost1 h₂ hcost2, beq_false_of_ne hheader]
    rfl
  rw [htrains]
  refine Settles.congr ?_ hrun
  by_cases hdiffer : differ cost1 cost2 = true
  swap
  · simp only [if_neg hdiffer]
    exact .of_some (.refl hm)
  simp only [if_pos hdiffer]
  obtain ⟨s', hs', m, hfuel⟩ :
    Settles (fun fuel => learn_difference fuel all ⟨lfm, o⟩ base k1 k2 ec1 ec2 cost1 cost2 s)
    _ := learn_difference_settles base h.apart h.label_features (h.ready e₁ (mem_of_getElem? h₁))
      (h.ready e₂ (mem_of_getElem? h₂)) hcost2 hsame1 hsame2 k1 k2
  obtain ⟨handed, later, r₁, r₂, hdifference, hweight, hlabel, hr₁, hw₁, hr₂, hw₂, hseq, hcalls⟩ := hs'
  refine ⟨s', ⟨?_, _, hcalls, rfl, fun c hc => ?_⟩, m, hfuel⟩
  · rw [hseq]
    have hset : Memory lfm seq₀ (some k1) (s.ec_seq.set k1 r₁) := by
      refine hm.set (fun _ _ => Iff.rfl) fun e₀ h₀ => ?_
      cases h₁.symm.trans h₀
      rw [if_pos rfl]
      exact ⟨hr₁, hw₁.trans hweight1⟩
    refine hset.set (fun _ _ => Iff.rfl) fun e₀ h₀ => ?_
    cases h₂.symm.trans h₀
    rw [if_neg fun heq => hk (some.inj heq)]
    exact ⟨hr₂, hw₂.trans hweight2⟩
  · cases mem_singleton.mp hc
    exact ⟨e₁, e₂, cost1, cost2, h₁, hcost1, h₂, hcost2, hdifference, hweight, hlabel⟩

theorem outer_round_adds (hk1 : k1 < seq₀.length) (hm : Memory lfm seq₀ none s.ec_seq) :
    Settles (fun fuel => outer_round fuel all ⟨lfm, o⟩ base s k1) (Adds all lfm seq₀ none (pairs_of seq₀ k1) s) := by
  have h₁ := getElem?_eq_getElem hk1
  generalize seq₀[k1] = e₁ at h₁
  have hlt : k1 < s.ec_seq.length := hm.length ▸ hk1
  have hec1 := getElem?_eq_getElem hlt
  generalize s.ec_seq[k1] = ec1 at hec1
  have hready₁ := h.ready e₁ (mem_of_getElem? h₁)
  obtain ⟨cost1, hcost1⟩ := hready₁.costs
  obtain ⟨hsame1, hweight1⟩ := hm.examples k1 e₁ ec1 h₁ hec1
  rw [if_neg (by simp)] at hsame1
  have hcosts := hsame1.costs.trans hcost1
  have hrun : ∀ fuel, outer_round fuel all ⟨lfm, o⟩ base s k1 =
      if cost1.class_index = -1 then some s else learn_first fuel all ⟨lfm, o⟩ base k1 ec1 cost1 s := by
    intro fuel
    unfold outer_round
    rw [hec1]
    dsimp only [bind_eq_bind, bind_some]
    rw [hcosts]
    rfl
  refine Settles.congr ?_ hrun
  by_cases hheader : cost1.class_index = -1
  · simp only [if_pos hheader]
    rw [pairs_of_header h₁ hcost1 hheader]
    exact .of_some (.refl hm)
  simp only [if_neg hheader]
  have happended : Memory lfm seq₀ (some k1) (s.ec_seq.set k1
      (append_example_namespace_from_memory lfm ec1 (cost1.class_index.setWidth 64))) := by
    refine hm.set (fun j hj => ?_) fun e₀ h₀ => ?_
    · simp [hj.symm]
    · cases h₁.symm.trans h₀
      rw [if_pos rfl, labelled_eq hcost1]
      refine ⟨hsame1.append h.label_features _, Eq.trans ?_ hweight1⟩
      unfold append_example_namespace_from_memory
      split <;> rfl
  unfold learn_first
  rw [hm.length]
  -- the inner loop, by the examples it is done with; then the label features are taken away
  refine Settles.bind (Settles.foldlM (fun done => Adds all lfm seq₀ (some k1)
    ((done.filter (trains seq₀ k1)).map fun k2 => (k1, k2)) { s with ec_seq := s.ec_seq.set k1 _ })
    (.refl happended) fun done k2 rest hsplit s' hs' => ?_)
    fun s' hs' => ?_
  · have hk2 : k2 ∈ range' (k1 + 1) (seq₀.length - (k1 + 1)) :=
      hsplit ▸ mem_append_right _ mem_cons_self
    rw [mem_range'_1] at hk2
    obtain ⟨s'', hround, hm'⟩ := inner_round_adds base h h₁ hcost1 hheader (show k1 ≠ k2 by omega) (by omega) hs'.1
    refine ⟨s'', ?_, hm'⟩
    have hpairs : ([k2].filter (trains seq₀ k1)).map (fun k2 => (k1, k2)) =
        if trains seq₀ k1 k2 then [(k1, k2)] else [] := by
      rw [filter_cons, filter_nil]
      split <;> rfl
    rw [filter_append, map_append, hpairs]
    exact hs'.trans hround
  · obtain ⟨hm', hcalls⟩ := hs'
    have hlt' : k1 < s'.ec_seq.length := hm'.length ▸ hk1
    have hec1' := getElem?_eq_getElem hlt'
    generalize s'.ec_seq[k1] = ec1' at hec1'
    obtain ⟨hsame, hweight⟩ := hm'.examples k1 e₁ ec1' h₁ hec1'
    rw [if_pos rfl, labelled_eq hcost1] at hsame
    rw [hec1']
    refine .of_some ⟨hm'.set (fun j hj => by simp [hj.symm]) fun e₀ h₀ => ?_, hcalls⟩
    cases h₁.symm.trans h₀
    rw [if_neg (by simp)]
    refine ⟨{ hsame.truncate (hready₁.listed _) with costs := hsame1.costs }, Eq.trans ?_ hweight⟩
    unfold truncate_example_namespace_from_memory
    split <;> rfl

omit [Field R] [LinearOrder R] in
theorem Trainable.set_wap_values (costs : List (CsClass R)) :
    Trainable all lfm o (seq₀.zipWith set_wap_value costs) := by
  refine { h with ready := fun e he => ?_ }
  obtain ⟨i, hi, rfl⟩ := getElem_of_mem he
  rw [getElem_zipWith]
  exact (h.ready _ (getElem_mem _)).set_wap_value _

omit [Field R] [LinearOrder R] h in
theorem mapM_costs {ec_seq : List (Example R)} (h : ∀ e ∈ ec_seq, Ready o e) :
    ec_seq.mapM (fun ec => ec.costs.head?) = some (ec_seq.flatMap (·.costs)) ∧
      (ec_seq.flatMap (·.costs)).length = ec_seq.length := by
  induction ec_seq with
  | nil => exact ⟨rfl, rfl⟩
  | cons e es ih =>
    obtain ⟨cost, hcost⟩ := (h e mem_cons_self).costs
    obtain ⟨hmap, hlength⟩ := ih fun e he => h e (mem_cons_of_mem _ he)
    rw [mapM_cons, hmap, hcost, flatMap_cons, hcost, length_append, hlength, Nat.add_comm]
    exact ⟨rfl, rfl⟩

omit h in
theorem compute_wap_values_some {costs : List (CsClass R)} (hne : costs ≠ []) :
    ∃ values, compute_wap_values costs = some values ∧ values.length = costs.length := by
  unfold compute_wap_values
  dsimp only
  cases hsorted : (range costs.length).mergeSort fun a b => decide
      ((costs.map (·.x)).getD a 0 ≤ (costs.map (·.x)).getD b 0) with
  | nil =>
    have hlength := congrArg length hsorted
    rw [length_mergeSort, length_range] at hlength
    exact absurd (length_eq_zero_iff.mp hlength) hne
  | cons first sorted => exact ⟨_, rfl, length_mapIdx⟩

omit h in
/-- The training returns. It leaves the examples as they were, and learns on the pairs of all rounds. -/
theorem training_settles {ec_seq : List (Example R)} (hne : ec_seq ≠ []) (h : Trainable all lfm o ec_seq) (b : B) :
    ∃ costs, compute_wap_values (ec_seq.flatMap (·.costs)) = some costs ∧ costs.length = ec_seq.length ∧
      Settles (fun fuel => do_actual_learning_wap fuel all ⟨lfm, o⟩ base b ec_seq)
        (Adds all lfm (ec_seq.zipWith set_wap_value costs) none
          ((range ec_seq.length).flatMap (pairs_of (ec_seq.zipWith set_wap_value costs)))
          ⟨ec_seq.zipWith set_wap_value costs, b, []⟩) := by
  obtain ⟨hall_costs, hlength_costs⟩ := mapM_costs h.ready
  have hne' : ec_seq.flatMap (·.costs) ≠ [] := fun hnil =>
    hne (length_eq_zero_iff.mp (by rw [← hlength_costs, hnil, length_nil]))
  obtain ⟨costs, hcosts, hlength⟩ := compute_wap_values_some hne'
  rw [hlength_costs] at hlength
  refine ⟨costs, hcosts, hlength, ?_⟩
  generalize hseq : ec_seq.zipWith set_wap_value costs = seq₀
  have hlength₀ : seq₀.length = ec_seq.length := by rw [← hseq, length_zipWith, hlength, Nat.min_self]
  have h₀ : Trainable all lfm o seq₀ := hseq ▸ h.set_wap_values costs
  have hrun : ∀ fuel, do_actual_learning_wap fuel all ⟨lfm, o⟩ base b ec_seq =
      (range ec_seq.length).foldlM (outer_round fuel all ⟨lfm, o⟩ base) ⟨seq₀, b, []⟩ := by
    intro fuel
    unfold do_actual_learning_wap
    rw [hall_costs, ← hseq]
    dsimp only [bind_eq_bind, bind_some]
    rw [hcosts, bind_some]
  refine Settles.congr (Settles.foldlM
    (fun done => Adds all lfm seq₀ none (done.flatMap (pairs_of seq₀)) ⟨seq₀, b, []⟩)
    (.refl (.initial h₀.ready)) fun done k1 rest hsplit s hs => ?_) hrun
  have hk1 := mem_range.mp (hsplit ▸ mem_append_right done (mem_cons_self (l := rest)))
  obtain ⟨s', hround, hm⟩ := outer_round_adds base h₀ (hlength₀.symm ▸ hk1) hs.1
  rw [flatMap_append, flatMap_singleton]
  exact ⟨s', hs.trans hround, hm⟩

end Loops

end VW.CsoaaLdf
