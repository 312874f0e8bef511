import VowpalWabbit.Slates.Ccb
import VowpalWabbit.Slates.Reduction

/-! # Labels after a call

    The reduction of conditional contextual bandits restores the labels in a guard, which
    nothing behind it escapes. It is set up after all labels were moved out, so that an
    example of no known type ends the call before it. The reduction of slates has no guard:
    what throws between the two loops over the labels loses them.
-/

open Cpp

namespace VW

open List Call Slates Outcome Single

/-! ## Conditional contextual bandits -/

namespace Ccb

variable {B : Type} {base : BaseLearner B} {is_learn : Bool}

def labels (heap : Heap) (examples : List Nat) : List CcbLabel :=
  examples.map fun example_ => (heap example_).l.conditional_contextual_bandit

section Stash

/-- What the rounds over the slots leave as it is: how a multi-example was split, and the stash. -/
def CcbData.lasting (data : CcbData) : CcbData :=
  { data with origin_index := [], exclude_list := [], include_list := [], action_with_label := 0, cb_ex := [] }

/-- A call that leaves it so. -/
abbrev Keeps {A : Type} (x : Call (State B) A) : Prop :=
  ∀ data, Leaves x (fun s => s.data.lasting = data) fun s => s.data.lasting = data

theorem keeps_pure {A : Type} (a : A) : Keeps (pure a : Call (State B) A) :=
  fun _ => .pure a fun _ hs => hs

theorem keeps_get : Keeps (Call.get : Call (State B) (State B)) :=
  fun _ => .get fun _ hs => hs

theorem keeps_throw (what : String) : Keeps (throw_ what : Call (State B) Unit) :=
  fun _ => .throw_ what fun _ hs => hs

theorem keeps_bind {A A' : Type} {x : Call (State B) A} {f : A → Call (State B) A'}
    (hx : Keeps x) (hf : ∀ a, Keeps (f a)) : Keeps (x >>= f) :=
  fun data => (hx data).bind fun a => hf a data

theorem keeps_for_each {X : Type} {body : X → Call (State B) Unit} (h : ∀ x, Keeps (body x))
    (xs : List X) : Keeps (for_each body xs) :=
  fun data => .for_each (fun x => h x data) xs

theorem keeps_set_heap (f : Heap → Heap) : Keeps (set_heap f : Call (State B) Unit) :=
  fun _ => .modify fun _ hs => hs

theorem keeps_set_data {f : CcbData → CcbData} (h : ∀ data, (f data).lasting = data.lasting) :
    Keeps (set_data f : Call (State B) Unit) :=
  fun _ => .modify fun s hs => (h s.data).trans hs

theorem keeps_at {A : Type} (xs : List A) (i : Nat) : Keeps (at_ xs i : Call (State B) A) := by
  unfold at_
  cases xs[i]? with
  | none => exact fun _ => .undefined
  | some x => exact keeps_pure x

theorem keeps_pointer (p : Option Nat) : Keeps (pointer p : Call (State B) Nat) := by
  unfold pointer
  cases p with
  | none => exact fun _ => .undefined
  | some address => exact keeps_pure address

theorem keeps_create_cb_labels : Keeps (create_cb_labels : Call (State B) Unit) := by
  refine keeps_bind keeps_get fun s => keeps_bind (keeps_pointer _) fun shared => ?_
  refine keeps_bind (keeps_set_heap _) fun _ => ?_
  exact keeps_bind (keeps_for_each (fun _ => keeps_set_heap _) _) fun _ => keeps_set_heap _

theorem keeps_select_action (ccb_label : CcbLabel) (i : Nat) :
    Keeps (select_action is_learn ccb_label i : Call (State B) Unit) := by
  refine keeps_bind keeps_get fun s => ?_
  split
  · refine keeps_bind (keeps_at _ _) fun action => keeps_bind (keeps_set_data fun _ => rfl) fun _ => ?_
    split
    · refine keeps_bind (keeps_at _ _) fun chosen => ?_
      split
      · refine keeps_bind (keeps_set_data fun _ => rfl) fun _ => ?_
        exact keeps_bind keeps_get fun _ => keeps_set_heap _
      · exact keeps_pure ()
    · exact keeps_pure ()
  · exact keeps_pure ()

theorem keeps_build_cb_example (ccb_label : CcbLabel) :
    Keeps (build_cb_example is_learn ccb_label : Call (State B) Unit) := by
  refine keeps_bind keeps_get fun s => keeps_bind (keeps_pointer _) fun shared => ?_
  refine keeps_bind (keeps_set_data fun _ => rfl) fun _ => ?_
  exact keeps_bind (keeps_for_each (keeps_select_action ccb_label) _) fun _ => keeps_set_heap _

theorem keeps_exclude_chosen_action (examples : List Nat) :
    Keeps (exclude_chosen_action examples : Call (State B) Unit) := by
  refine keeps_bind keeps_get fun s => ?_
  dsimp only
  split
  · exact keeps_pure ()
  · exact keeps_pure ()
  · split
    · exact keeps_set_data fun _ => rfl
    · exact fun _ => .undefined

theorem keeps_mapM {A A' : Type} {f : A → Call (State B) A'} (h : ∀ a, Keeps (f a)) (xs : List A) :
    Keeps (xs.mapM f) := by
  induction xs with
  | nil => exact keeps_pure []
  | cons x xs ih =>
    rw [mapM_cons]
    exact keeps_bind (h x) fun y => keeps_bind ih fun ys => keeps_pure _

theorem keeps_save_action_scores_and_exclude_top_action (first : Nat) :
    Keeps (save_action_scores_and_exclude_top_action first : Call (State B) Unit) := by
  refine keeps_bind keeps_get fun s => keeps_bind (keeps_pointer _) fun shared => ?_
  refine keeps_bind (keeps_mapM (fun _ => keeps_bind (keeps_at _ _) fun _ => keeps_pure _) _) fun pred => ?_
  refine keeps_bind (keeps_at _ _) fun top => keeps_bind (keeps_set_data fun _ => rfl) fun _ => ?_
  exact keeps_bind (keeps_set_heap _) fun _ => keeps_set_heap _

/-- The base learner can change the examples, not the reduction. -/
theorem keeps_call_base (cb_ex : List Nat) : Keeps (call_base base is_learn cb_ex) := by
  intro data s hs
  unfold call_base
  rcases base is_learn cb_ex (s.base, s.heap) with ⟨⟨⟩, b, heap⟩ | ⟨what, b, heap⟩ | _
  · exact hs
  · exact hs
  · trivial

theorem keeps_learn_or_predict_slot (examples : List Nat) (first slot_id : Nat) :
    Keeps (learn_or_predict_slot base is_learn examples first slot_id) := by
  refine keeps_bind keeps_get fun s => keeps_bind (keeps_at _ _) fun label => ?_
  refine keeps_bind (keeps_build_cb_example label) fun _ => keeps_bind keeps_get fun s => ?_
  have hclear : Keeps (set_data fun data => { data with cb_ex := [] } : Call (State B) Unit) :=
    keeps_set_data fun _ => rfl
  split
  · refine keeps_bind (keeps_call_base _) fun _ => ?_
    split
    · refine keeps_bind (keeps_exclude_chosen_action examples) fun _ => keeps_bind keeps_get fun s => ?_
      exact keeps_bind (keeps_at _ _) fun action => keeps_bind (keeps_set_heap _) fun _ => hclear
    · refine keeps_bind (keeps_save_action_scores_and_exclude_top_action first) fun _ =>
        keeps_bind keeps_get fun s => ?_
      exact keeps_bind (keeps_at _ _) fun action => keeps_bind (keeps_set_heap _) fun _ => hclear
  · exact keeps_bind (keeps_set_heap _) fun _ => hclear

theorem data_delete_cb_labels (s : State B) : (delete_cb_labels s).data = s.data := by
  unfold delete_cb_labels
  cases s.data.shared with
  | none => rfl
  | some shared => rfl

/-- So does everything behind the restoring guard. -/
theorem keeps_learn_or_predict_guarded (examples : List Nat) :
    Keeps (learn_or_predict_guarded base is_learn examples) := by
  refine keeps_bind keeps_get fun s => ?_
  split
  · exact keeps_throw _
  · split
    · exact keeps_throw _
    · refine keeps_bind keeps_create_cb_labels fun _ data => ?_
      refine .scope_exit ?_ fun s hs => (congrArg CcbData.lasting (data_delete_cb_labels s)).trans hs
      have hslots : Keeps (learn_or_predict_slots base is_learn examples) := by
        refine keeps_bind (keeps_set_data fun _ => rfl) fun _ => keeps_bind (keeps_at _ _) fun first => ?_
        refine keeps_bind keeps_get fun s => ?_
        exact keeps_for_each (keeps_learn_or_predict_slot examples first) _
      exact hslots data

end Stash

section Split

variable {examples : List Nat}

/-- An example of a known type. -/
theorem split_cons {s : State B} {e : Nat}
    (htype : (s.heap e).l.conditional_contextual_bandit.type ≠ .UNSET) :
    ∃ s₁, split_multi_example_and_stash_labels (e :: examples) s =
        split_multi_example_and_stash_labels examples s₁ ∧
      s₁.data.stored_labels =
        s.data.stored_labels ++ [(s.heap e).l.conditional_contextual_bandit] ∧
      s₁.heap = s.heap.set_ccb e CcbLabel.moved_from := by
  rw [split_multi_example_and_stash_labels, bind_run]
  unfold Call.get
  dsimp only
  cases hlabel : (s.heap e).l.conditional_contextual_bandit.type with
  | UNSET => exact absurd hlabel htype
  | SHARED => exact ⟨_, rfl, rfl, rfl⟩
  | ACTION => exact ⟨_, rfl, rfl, rfl⟩
  | SLOT => exact ⟨_, rfl, rfl, rfl⟩

/-- The labels of the examples that follow. -/
theorem labels_set_ccb_of_not_mem {heap : Heap} {e : Nat} {label : CcbLabel} (he : e ∉ examples) :
    labels (heap.set_ccb e label) examples = labels heap examples := by
  apply map_congr_left
  intro e' he'
  have hne : e' ≠ e := by
    rintro rfl
    exact he he'
  rw [Heap.ccb_set_ccb, if_neg hne]

/-- When all examples have a known type, all labels are moved to the stash. -/
theorem split_of_known :
    ∀ {s : State B}, examples.Nodup → (∀ l ∈ labels s.heap examples, l.type ≠ .UNSET) →
      ∃ s', split_multi_example_and_stash_labels examples s = .returned true s' ∧
        s'.data.stored_labels = s.data.stored_labels ++ labels s.heap examples := by
  induction examples with
  | nil =>
    intro s _ _
    exact ⟨s, rfl, (append_nil _).symm⟩
  | cons e examples ih =>
    intro s hnodup hknown
    rw [nodup_cons] at hnodup
    have hcons : labels s.heap (e :: examples) =
        (s.heap e).l.conditional_contextual_bandit :: labels s.heap examples := rfl
    rw [hcons, forall_mem_cons] at hknown
    obtain ⟨s₁, hrun, hstored, hheap⟩ := @split_cons B examples s e hknown.1
    have hlabels : labels s₁.heap examples = labels s.heap examples := by
      rw [hheap, labels_set_ccb_of_not_mem hnodup.1]
    obtain ⟨s', hrun', hstored'⟩ := ih hnodup.2 (by rw [hlabels]; exact hknown.2)
    refine ⟨s', hrun.trans hrun', ?_⟩
    rw [hstored', hstored, hlabels, hcons, append_assoc, singleton_append]

/-- At an example of no known type the loop ends; the examples after it keep their labels. -/
theorem split_of_unknown :
    ∀ {s : State B}, (∃ e ∈ examples, (s.heap e).l.conditional_contextual_bandit.type = .UNSET) →
      ∃ s', split_multi_example_and_stash_labels examples s = .returned false s' ∧
        ∀ e, e ∉ examples → (s'.heap e).l.conditional_contextual_bandit =
          (s.heap e).l.conditional_contextual_bandit := by
  induction examples with
  | nil =>
    rintro s ⟨e, he, -⟩
    cases he
  | cons e₀ examples ih =>
    rintro s ⟨e, he, hunset⟩
    by_cases htype : (s.heap e₀).l.conditional_contextual_bandit.type = .UNSET
    · refine ⟨s, ?_, fun _ _ => rfl⟩
      rw [split_multi_example_and_stash_labels, bind_run]
      unfold Call.get
      dsimp only
      rw [htype]
      rfl
    · obtain ⟨s₁, hrun, -, hheap⟩ := @split_cons B examples s e₀ htype
      have hmem : e ∈ examples := by
        rcases mem_cons.mp he with rfl | hmem
        · exact absurd hunset htype
        · exact hmem
      have hunset₁ : (s₁.heap e).l.conditional_contextual_bandit.type = .UNSET := by
        rw [hheap, Heap.ccb_set_ccb]
        split
        · rfl
        · exact hunset
      obtain ⟨s', hrun', hkept⟩ := ih ⟨e, hmem, hunset₁⟩
      refine ⟨s', hrun.trans hrun', fun e' he' => ?_⟩
      rw [mem_cons, not_or] at he'
      rw [hkept e' he'.2, hheap, Heap.ccb_set_ccb, if_neg he'.1]

/-- The guard puts back what is in the stash. -/
theorem labels_restore_labels (hnodup : examples.Nodup) {s : State B}
    (hlength : s.data.stored_labels.length = examples.length) :
    labels (restore_labels examples s).heap examples = s.data.stored_labels :=
  Heap.writes_set_ccb.map_write_all hnodup hlength

/-- After the split the call goes on behind the guard, or returns. -/
theorem learn_or_predict_of_split {s s₁ : State B} {split : Bool}
    (hsplit : split_multi_example_and_stash_labels examples ⟨clear_all s.data, s.heap, s.base⟩ =
      .returned split s₁) :
    learn_or_predict base is_learn examples s =
      (if split then
        scope_exit (restore_labels examples) (learn_or_predict_guarded base is_learn examples)
      else pure ()) s₁ := by
  change (split_multi_example_and_stash_labels examples >>= _) ⟨clear_all s.data, s.heap, s.base⟩ = _
  rw [bind_run, hsplit]

/-- With known types the guard is reached, and restores the labels however the call ends. -/
theorem labels_kept_of_known {s : State B} (hnodup : examples.Nodup)
    (hknown : ∀ l ∈ labels s.heap examples, l.type ≠ .UNSET) :
    Leaves (learn_or_predict base is_learn examples) (· = s)
      (fun s' => labels s'.heap examples = labels s.heap examples) := by
  rintro s rfl
  obtain ⟨s₁, hsplit, hstored⟩ := @split_of_known B examples ⟨clear_all s.data, s.heap, s.base⟩ hnodup hknown
  rw [learn_or_predict_of_split hsplit, if_pos rfl]
  have hkeeps := @keeps_learn_or_predict_guarded B base is_learn examples s₁.data.lasting
  refine (hkeeps.scope_exit fun s₂ hlasting => ?_) s₁ rfl
  have hs₂ : s₂.data.stored_labels = labels s.heap examples :=
    (congrArg CcbData.stored_labels hlasting).trans hstored
  have hlength : s₂.data.stored_labels.length = examples.length := by
    rw [hs₂]
    exact length_map _
  exact (labels_restore_labels hnodup hlength).trans hs₂

/-- An example of no known type makes the call return without the guard. What was moved out
    before is lost. -/
theorem labels_kept_of_unknown {s : State B} (hnodup : examples.Nodup)
    (hunknown : ∃ e ∈ examples, (s.heap e).l.conditional_contextual_bandit.type = .UNSET) :
    Leaves (learn_or_predict base is_learn examples) (· = s)
        (fun s' => labels s'.heap examples = labels s.heap examples) ↔
      ∃ l ∈ (labels s.heap examples).head?, l.type = .UNSET := by
  have hrun : ∀ s', split_multi_example_and_stash_labels examples ⟨clear_all s.data, s.heap, s.base⟩ =
      .returned false s' → learn_or_predict base is_learn examples s = .returned () s' := by
    intro s' hsplit
    rw [learn_or_predict_of_split hsplit]
    rfl
  cases examples with
  | nil =>
    obtain ⟨e, he, -⟩ := hunknown
    cases he
  | cons e₀ examples =>
    have hhead : (labels s.heap (e₀ :: examples)).head? =
        some (s.heap e₀).l.conditional_contextual_bandit := rfl
    rw [hhead]
    constructor
    · intro hkept
      by_contra hne
      have htype : (s.heap e₀).l.conditional_contextual_bandit.type ≠ .UNSET :=
        fun h => hne ⟨_, rfl, h⟩
      obtain ⟨s₁, hsplit, -, hheap⟩ := @split_cons B examples ⟨clear_all s.data, s.heap, s.base⟩ e₀ htype
      have hunknown₁ : ∃ e ∈ examples, (s₁.heap e).l.conditional_contextual_bandit.type = .UNSET := by
        obtain ⟨e, he, hunset⟩ := hunknown
        rcases mem_cons.mp he with rfl | hmem
        · exact absurd hunset htype
        · refine ⟨e, hmem, ?_⟩
          rw [hheap, Heap.ccb_set_ccb]
          split
          · rfl
          · exact hunset
      obtain ⟨s', hsplit', hframe⟩ := split_of_unknown hunknown₁
      have hlabels := hkept s rfl
      rw [hrun s' (hsplit.trans hsplit')] at hlabels
      -- the first label is the one that a move leaves behind
      have hfirst : (s'.heap e₀).l.conditional_contextual_bandit =
          (s.heap e₀).l.conditional_contextual_bandit := (cons.inj hlabels).1
      rw [hframe e₀ (nodup_cons.mp hnodup).1, hheap, Heap.ccb_set_ccb, if_pos rfl] at hfirst
      exact htype (by rw [← hfirst]; rfl)
    · rintro ⟨l, hl, htype⟩ s rfl
      cases hl
      have hsplit : split_multi_example_and_stash_labels (e₀ :: examples)
          ⟨clear_all s.data, s.heap, s.base⟩ = .returned false ⟨clear_all s.data, s.heap, s.base⟩ := by
        rw [split_multi_example_and_stash_labels, bind_run]
        unfold Call.get
        dsimp only
        rw [htype]
        rfl
      rw [hrun _ hsplit]

/-- The labels that the reduction leaves are those it was given, for any base learner,
    exactly when all examples have a known type or the first one has not. -/
theorem labels_kept_iff {s : State B} (hnodup : examples.Nodup) :
    Leaves (learn_or_predict base is_learn examples) (· = s)
        (fun s' => labels s'.heap examples = labels s.heap examples) ↔
      (∀ l ∈ labels s.heap examples, l.type ≠ .UNSET) ∨
        ∃ l ∈ (labels s.heap examples).head?, l.type = .UNSET := by
  by_cases hknown : ∀ l ∈ labels s.heap examples, l.type ≠ .UNSET
  · exact iff_of_true (labels_kept_of_known hnodup hknown) (.inl hknown)
  · rw [or_iff_right hknown]
    apply labels_kept_of_unknown hnodup
    push Not at hknown
    obtain ⟨l, hl, hunset⟩ := hknown
    obtain ⟨e, he, rfl⟩ := mem_map.mp hl
    exact ⟨e, he, hunset⟩

end Split

end Ccb

/-! ## Slates -/

namespace Slates

variable {B : Type} {base : BaseLearner B} {is_learn : Bool} {examples : List Nat} {num_slots : Nat}

/-- The slot ids of the actions are those of slots. -/
def ValidSlotIds (ls : List Label) : Prop :=
  ∀ l ∈ ls, l.type = .ACTION → l.slot_id.toNat < slot_count ls

instance (ls : List Label) : Decidable (ValidSlotIds ls) :=
  inferInstanceAs (Decidable (∀ l ∈ ls, l.type = .ACTION → l.slot_id.toNat < slot_count ls))

theorem no_throw_nth {A : Type} (xs : List A) (i : Nat) : (nth xs i).NoThrow := by
  unfold nth
  cases xs[i]? with
  | none => exact .undefined
  | some x => exact .ok x

/-- Only the slot id of an action makes the loop over the labels throw. -/
theorem no_throw_translate_label {l : Label} (h : l.type = .ACTION → l.slot_id.toNat < num_slots)
    (t : Translation) : (translate_label num_slots t l).NoThrow := by
  unfold translate_label
  cases htype : l.type with
  | SHARED => exact .ok _
  | ACTION =>
    dsimp only
    rw [if_neg (Nat.not_le.mpr (h htype))]
    exact .ok _
  | SLOT =>
    refine (no_throw_nth _ _).bind fun pool => .bind ?_ fun outcome => .ok _
    cases t.global_cost with
    | none => exact .ok none
    | some global_cost =>
      refine .bind ?_ fun outcome => .ok _
      refine .bind ?_ fun probabilities => .ok _
      exact .mapM (fun _ => (no_throw_nth _ _).bind fun _ => .ok _) _
  | UNSET => exact .ok _

theorem translate_label_valid {t : Translation} {l : Label} {r : Translation × CcbLabel}
    (h : translate_label num_slots t l = .ok r) (htype : l.type = .ACTION) :
    l.slot_id.toNat < num_slots := by
  unfold translate_label at h
  rw [htype] at h
  by_contra hid
  dsimp only at h
  rw [if_pos (Nat.not_lt.mp hid)] at h
  cases h

variable {ps : List (Nat × Label)} {s' : State B}

/-- With valid slot ids the loop does not throw. -/
theorem translate_labels_ne_threw {what : String} :
    ∀ {t : Translation} {s : State B},
      (∀ p ∈ ps, p.2.type = .ACTION → p.2.slot_id.toNat < num_slots) →
      translate_labels num_slots t ps s ≠ .threw what s' := by
  induction ps with
  | nil =>
    intro t s _ h
    cases h
  | cons p ps ih =>
    intro t s hvalid h
    rw [forall_mem_cons] at hvalid
    rw [translate_labels, bind_run] at h
    unfold lift at h
    cases hlabel : translate_label num_slots t p.2 with
    | error e =>
      rw [hlabel] at h
      cases e with
      | exception what' => exact no_throw_translate_label hvalid.1 t what' hlabel
      | undefined_behaviour => cases h
    | ok r =>
      rw [hlabel] at h
      exact ih hvalid.2 h

/-- It returns only with valid slot ids. -/
theorem valid_of_translate_labels :
    ∀ {t : Translation} {s : State B}, translate_labels num_slots t ps s = .returned () s' →
      ∀ p ∈ ps, p.2.type = .ACTION → p.2.slot_id.toNat < num_slots := by
  induction ps with
  | nil =>
    intro t s _ p hp
    cases hp
  | cons p ps ih =>
    intro t s h
    rw [translate_labels, bind_run] at h
    unfold lift at h
    cases hlabel : translate_label num_slots t p.2 with
    | error e =>
      rw [hlabel] at h
      cases e with
      | exception what => cases h
      | undefined_behaviour => cases h
    | ok r =>
      rw [hlabel] at h
      exact forall_mem_cons.mpr ⟨translate_label_valid hlabel, ih h⟩

theorem labels_set_ccb (heap : Heap) (e : Nat) (label : CcbLabel) :
    labels (heap.set_ccb e label) examples = labels heap examples := by
  apply map_congr_left
  intro e' _
  rw [Heap.slates_set_ccb]

/-- The loop leaves the slates labels of the examples as they are. -/
theorem leaves_translate_labels (num_slots : Nat) (ls : List Label) (ps : List (Nat × Label)) :
    ∀ t : Translation, Leaves (translate_labels num_slots t ps : Call (State B) Unit)
      (fun s => labels s.heap examples = ls) (fun s => labels s.heap examples = ls) := by
  induction ps with
  | nil => exact fun t => .pure () fun _ hs => hs
  | cons p ps ih =>
    intro t
    refine (Leaves.lift _ fun _ hs => hs).bind fun r => ?_
    refine Leaves.bind (Leaves.modify fun s hs => ?_) fun _ => ih r.1
    exact (labels_set_ccb s.heap p.1 r.2).trans hs

/-- The labels that are in the examples while those they were given are stashed. -/
theorem Stashed.labels_eq {s s' : State B} (h : Stashed examples s s') :
    labels s'.heap examples = (labels s.heap examples).map Label.moved_from := by
  unfold labels
  rw [map_map]
  apply map_congr_left
  intro e he
  rw [h.slates, if_pos he]
  rfl

theorem moved_from_eq_self_iff {l : Label} : l.moved_from = l ↔ l.probabilities = [] := by
  cases l with
  | mk type weight labeled cost slot_id probabilities =>
    simp [Label.moved_from, eq_comm]

theorem map_moved_from_eq_self_iff {ls : List Label} :
    ls.map Label.moved_from = ls ↔ ∀ l ∈ ls, l.probabilities = [] := by
  conv_lhs => rhs; rw [← map_id ls]
  rw [map_inj_left]
  exact forall₂_congr fun _ _ => moved_from_eq_self_iff

/-- A slot id out of range makes the call throw with the labels moved out. -/
theorem labels_kept_of_invalid {s : State B} (hnodup : examples.Nodup)
    (hdefined : learn_or_predict base is_learn examples s ≠ .undefined)
    (hinvalid : ¬ ValidSlotIds (labels s.heap examples)) :
    Leaves (learn_or_predict base is_learn examples) (· = s)
        (fun s' => labels s'.heap examples = labels s.heap examples) ↔
      ∀ l ∈ labels s.heap examples, l.probabilities = [] := by
  obtain ⟨s₁, hstashed, -, htranslate⟩ := translate_eq hnodup s
  have hmoved := leaves_translate_labels (slot_count (labels s.heap examples))
    ((labels s.heap examples).map Label.moved_from) (examples.zip (labels s.heap examples))
    { slot_action_pools := replicate (slot_count (labels s.heap examples)) [] } s₁
    hstashed.labels_eq
  rw [← htranslate] at hmoved
  cases hend : translate examples s with
  | returned u s₂ =>
    -- the loop does not return from a slot id out of range
    rw [htranslate] at hend
    have hvalid := valid_of_translate_labels hend
    refine absurd (fun l hl htype => ?_) hinvalid
    have hlength : (labels s.heap examples).length = examples.length := length_map _
    rw [← map_snd_zip hlength.le, mem_map] at hl
    obtain ⟨p, hp, rfl⟩ := hl
    exact hvalid p hp htype
  | undefined => exact absurd (learn_or_predict_of_undefined hend) hdefined
  | threw what s₂ =>
    rw [hend] at hmoved
    rw [← map_moved_from_eq_self_iff]
    constructor
    · intro h
      have hs := h s rfl
      rw [learn_or_predict_of_threw hend] at hs
      exact hmoved.symm.trans hs
    · rintro h s rfl
      rw [learn_or_predict_of_threw hend]
      exact hmoved.trans h

/-- With valid slot ids the labels are restored unless the base learner throws. -/
theorem labels_kept_of_valid {s : State B} (hnodup : examples.Nodup)
    (hdefined : learn_or_predict base is_learn examples s ≠ .undefined)
    (hvalid : ValidSlotIds (labels s.heap examples)) :
    Leaves (learn_or_predict base is_learn examples) (· = s)
        (fun s' => labels s'.heap examples = labels s.heap examples) ↔
      ∀ s₁ what s₂, translate examples s = .returned () s₁ →
        call_base base is_learn examples s₁ = .threw what s₂ →
        labels s₂.heap examples = labels s.heap examples := by
  obtain ⟨s₀, -, -, htranslate⟩ := translate_eq hnodup s
  cases hend : translate examples s with
  | undefined => exact absurd (learn_or_predict_of_undefined hend) hdefined
  | threw what s₁ =>
    rw [htranslate] at hend
    refine absurd hend (translate_labels_ne_threw fun p hp => ?_)
    exact hvalid p.2 (of_mem_zip hp).2
  | returned u s₁ =>
    have hstashed := (translate_returned hnodup hend).stashed_labels
    cases examples with
    | nil =>
      refine absurd ?_ hdefined
      unfold learn_or_predict
      rw [bind_run, hend]
      rfl
    | cons first examples =>
      have hrun := @learn_or_predict_of_translate B _ base is_learn _ _ _ hend
      rw [bind_run] at hrun
      cases hbase : call_base base is_learn (first :: examples) s₁ with
      | undefined =>
        rw [hbase] at hrun
        exact absurd hrun hdefined
      | threw what s₂ =>
        rw [hbase] at hrun
        constructor
        · intro h s₁' what' s₂' hend' hbase'
          cases hend'
          rw [hbase] at hbase'
          cases hbase'
          have hs := h s rfl
          rw [hrun] at hs
          exact hs
        · rintro h s rfl
          rw [hrun]
          exact h s₁ what s₂ rfl hbase
      | returned u s₂ =>
        -- the base learner cannot change the stash
        have hkept : s₂.stashed_labels = s₁.stashed_labels := by
          unfold call_base at hbase
          split at hbase
          · cases hbase
            rfl
          · cases hbase
          · cases hbase
        constructor
        · intro _ s₁' what' s₂' hend' hbase'
          cases hend'
          rw [hbase] at hbase'
          cases hbase'
        · rintro - s rfl
          rw [hrun, hbase]
          have hlength : (labels s.heap (first :: examples)).length = (first :: examples).length :=
            length_map _
          refine (Heap.writes_set_slates.map_write_all hnodup ?_).trans (hkept.trans hstashed)
          exact (congrArg length (hkept.trans hstashed)).trans hlength

end Slates

/-- The labels after a call of either reduction are those before, exactly when, for the
    reduction of conditional contextual bandits, all examples have a known type or the first
    one has not, and, for that of slates, the slot ids are valid and the base learner throws
    nothing that leaves other labels, or no label has probabilities. -/
theorem reductions_keep_labels_iff {B : Type} {base : BaseLearner B} {is_learn : Bool} {examples : List Nat}
    (hnodup : examples.Nodup) :
    (∀ s : Ccb.State B,
      Leaves (Ccb.learn_or_predict base is_learn examples) (· = s)
          (fun s' => Ccb.labels s'.heap examples = Ccb.labels s.heap examples) ↔
        (∀ l ∈ Ccb.labels s.heap examples, l.type ≠ .UNSET) ∨
          ∃ l ∈ (Ccb.labels s.heap examples).head?, l.type = .UNSET) ∧
    (∀ s : State B, learn_or_predict base is_learn examples s ≠ .undefined →
      (Leaves (learn_or_predict base is_learn examples) (· = s)
          (fun s' => labels s'.heap examples = labels s.heap examples) ↔
        (ValidSlotIds (labels s.heap examples) ∧
          ∀ s₁ what s₂, translate examples s = .returned () s₁ →
            call_base base is_learn examples s₁ = .threw what s₂ →
            labels s₂.heap examples = labels s.heap examples) ∨
        (¬ ValidSlotIds (labels s.heap examples) ∧
          ∀ l ∈ labels s.heap examples, l.probabilities = []))) := by
  refine ⟨fun s => Ccb.labels_kept_iff hnodup, fun s hdefined => ?_⟩
  by_cases hvalid : ValidSlotIds (labels s.heap examples)
  · rw [labels_kept_of_valid hnodup hdefined hvalid]
    simp only [hvalid, true_and, not_true_eq_false, false_and, or_false]
  · rw [labels_kept_of_invalid hnodup hdefined hvalid]
    simp only [hvalid, false_and, not_false_eq_true, true_and, false_or]

/-- A base learner that throws. -/
def throwing : BaseLearner Unit := fun _ _ s => .threw "failed" s

/-- A shared line, two actions, and two slots of which the first one has an outcome. -/
def ccb_labels : List CcbLabel :=
  [{ type := .SHARED }, { type := .ACTION }, { type := .ACTION },
    { type := .SLOT, outcome := some ⟨one, [⟨1, one⟩]⟩, explicit_included_actions := [0, 1] },
    { type := .SLOT }]

/-- The same for slates, with an action for each slot. -/
def slates_labels : List Label :=
  [{ type := .SHARED, labeled := true, cost := one }, { type := .ACTION },
    { type := .ACTION, slot_id := 1 },
    { type := .SLOT, labeled := true, probabilities := [⟨0, one⟩] },
    { type := .SLOT, labeled := true, probabilities := [⟨0, one⟩] }]

/-- A base learner that ranks the action of each slot. -/
def ranking : BaseLearner Unit := fun _ _ (b, heap) =>
  .returned () (b, heap.set_pred 0 { (heap 0).pred with
    decision_scores := [[⟨0, one⟩], [⟨1, one⟩]] })

/-- The labels come back from two slots, also when the base learner of the one reduction throws. -/
theorem reductions_keep_labels_iff_two_slots :
    Leaves (Ccb.learn_or_predict throwing true [0, 1, 2, 3, 4])
        (· = ⟨{}, fun i => { l := { conditional_contextual_bandit := ccb_labels.getD i {} } }, ()⟩)
        (fun s' => Ccb.labels s'.heap [0, 1, 2, 3, 4] = ccb_labels) ∧
      Leaves (learn_or_predict ranking true [0, 1, 2, 3, 4])
        (· = ⟨[], fun i => { l := { slates := slates_labels.getD i {} } }, ()⟩)
        (fun s' => labels s'.heap [0, 1, 2, 3, 4] = slates_labels) := by
  constructor
  · exact ((@reductions_keep_labels_iff Unit throwing true [0, 1, 2, 3, 4] (by decide)).1 _).mpr
      (.inl (by decide))
  · refine ((@reductions_keep_labels_iff Unit ranking true [0, 1, 2, 3, 4] (by decide)).2
      ⟨[], fun i => { l := { slates := slates_labels.getD i {} } }, ()⟩ ?_).mpr
      (.inl ⟨by decide, ?_⟩)
    · intro h
      cases h
    · intro s₁ what s₂ htranslate hbase
      cases htranslate
      cases hbase

/-- A line of no known type after the shared line, and a slot id without a slot. -/
theorem reductions_lose_labels :
    ¬ Leaves (Ccb.learn_or_predict throwing true [0, 1])
        (· = ⟨{}, fun address =>
          match address with
          | 0 => { l := { conditional_contextual_bandit := { type := .SHARED } } }
          | _ => {}, ()⟩)
        (fun s' => Ccb.labels s'.heap [0, 1] = [{ type := .SHARED }, {}]) ∧
      ¬ Leaves (learn_or_predict throwing true [0, 1, 2])
        (· = ⟨[], fun address =>
          match address with
          | 0 => { l := { slates := { type := .SHARED } } }
          | 1 => { l := { slates := { type := .ACTION, slot_id := 1 } } }
          | _ => { l := { slates := { type := .SLOT, probabilities := [⟨0, one⟩] } } }, ()⟩)
        (fun s' => labels s'.heap [0, 1, 2] = [{ type := .SHARED },
          { type := .ACTION, slot_id := 1 }, { type := .SLOT, probabilities := [⟨0, one⟩] }]) := by
  constructor
  · intro h
    have hlabels := h _ rfl
    revert hlabels
    show (_ : List CcbLabel) = _ → False
    decide
  · intro h
    have hlabels := h _ rfl
    revert hlabels
    show (_ : List Label) = _ → False
    decide

end VW
