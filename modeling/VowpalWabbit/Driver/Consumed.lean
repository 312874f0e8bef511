import Mathlib.Data.List.Infix
import VowpalWabbit.Driver.Handler

/-! # Every example is consumed once

    The handler is run on a stream of feature examples, newlines, ends of passes and save
    commands. Whatever was handled was handed over once or is pending, and the groups that
    were learned are the runs of feature examples between terminators.
-/

open Cpp

namespace VW.Driver

open List

/-! ## The stream -/

/-- The handler takes the example for a save command. -/
def taken_for_save (ec : Example) : Bool := decide (ec.indices.length ≤ 1) && is_save_cmd ec

/-- An example that is learned from. -/
structure IsFeature (ec : Example) : Prop where
  end_pass : ec.end_pass = false
  is_newline : ec.is_newline = false
  taken_for_save : taken_for_save ec = false

/-- A newline with the default label of the parser. -/
structure IsNewline (label_type : LabelType) (ec : Example) : Prop where
  end_pass : ec.end_pass = false
  is_newline : ec.is_newline = true
  default_label : ∃ l, ec.l = default_label label_type l
  taken_for_save : taken_for_save ec = false

structure IsEndPass (ec : Example) : Prop where
  end_pass : ec.end_pass = true
  taken_for_save : taken_for_save ec = false

structure IsSave (ec : Example) : Prop where
  end_pass : ec.end_pass = false
  is_newline : ec.is_newline = false
  taken_for_save : taken_for_save ec = true

/-- An example of a stream. -/
def OfStream (label_type : LabelType) (ec : Example) : Prop :=
  IsFeature ec ∨ IsNewline label_type ec ∨ IsEndPass ec ∨ IsSave ec

/-- A terminator of a group. -/
def is_terminator (ec : Example) : Bool := ec.is_newline || ec.end_pass

/-- The maximal runs of examples between terminators, without the save commands; empty ones
    do not count. -/
def groups (examples : List Example) : List (List Example) :=
  ((examples.filter fun ec => !taken_for_save ec).splitOnP is_terminator).filter fun group => !group.isEmpty

/-- The group that an event learns from. -/
def Event.group : Event → Option (List Example)
  | .learn_multi_ex ec_seq => some ec_seq
  | _ => none

/-- The event is the right one for its examples. -/
def Event.Fits (label_type : LabelType) : Event → Prop
  | .learn_multi_ex ec_seq => ec_seq ≠ [] ∧ ∀ ec ∈ ec_seq, IsFeature ec
  | .end_pass ec => IsEndPass ec
  | .save ec _ => IsSave ec
  | .finish_example ec => IsNewline label_type ec

/-! ## Groups -/

variable {c : Context} {handled rest pending : List Example} {ec : Example}

theorem not_terminator (h : IsFeature ec) : is_terminator ec = false := by
  unfold is_terminator
  rw [h.is_newline, h.end_pass]
  rfl

theorem filter_features (h : ∀ ec ∈ pending, IsFeature ec) :
    (pending.filter fun ec => !taken_for_save ec) = pending :=
  filter_eq_self.mpr fun ec hec => by rw [(h ec hec).taken_for_save]; rfl

/-- A terminator ends the group in front of it. -/
theorem groups_append_terminator (hpending : ∀ ec ∈ pending, IsFeature ec)
    (hsave : taken_for_save ec = false) (hec : is_terminator ec = true) :
    groups (pending ++ ec :: rest) = (if pending = [] then [] else [pending]) ++ groups rest := by
  unfold groups
  rw [filter_append, filter_features hpending, filter_cons_of_pos (by rw [hsave]; rfl),
    splitOnP_append_cons_of_forall_mem (fun x hx => not_terminator (hpending x hx)) _ hec, filter_cons]
  by_cases h : pending = []
  · subst h
    rfl
  · rw [if_neg h, if_pos (by simpa using h)]
    rfl

/-- Save commands are not part of groups. -/
theorem groups_append_save (hsave : taken_for_save ec = true) :
    groups (handled ++ ec :: rest) = groups (handled ++ rest) := by
  unfold groups
  rw [filter_append, filter_append, filter_cons_of_neg (by rw [hsave]; simp)]

/-- The group that is left at the end. -/
theorem groups_pending (hpending : ∀ ec ∈ pending, IsFeature ec) :
    groups pending = if pending = [] then [] else [pending] := by
  unfold groups
  rw [filter_features hpending, splitOnP_eq_singleton fun x hx => not_terminator (hpending x hx)]
  by_cases h : pending = []
  · subst h
    rfl
  · rw [if_neg h, filter_cons_of_pos (by simpa using h)]
    rfl

/-! ## The handler -/

/-- Nothing was pending when a newline or the end of a pass was finished. -/
def Settled (handled : List Example) (events : List Event) : Prop :=
  ∀ pre e post, events = pre ++ e :: post → ∀ ec, (e = .finish_example ec ∨ e = .end_pass ec) →
    ∃ xs ys, handled = xs ++ ec :: ys ∧ (pre.flatMap Event.examples).Perm xs

/-- What holds when a part of the stream has been handled. -/
structure Inv (label_type : LabelType) (handled : List Example) (h : Handler) : Prop where
  once : (h.events.flatMap Event.examples ++ h.ec_seq).Perm handled
  pending : ∀ ec ∈ h.ec_seq, IsFeature ec
  fits : ∀ e ∈ h.events, e.Fits label_type
  settled : Settled handled h.events

/-- The groups learned so far, and those that what is pending will be part of. -/
def Grouped (handled : List Example) (h : Handler) : Prop :=
  ∀ rest, h.events.filterMap Event.group ++ groups (h.ec_seq ++ rest) = groups (handled ++ rest)

/-- One more event, with more of the stream handled. -/
theorem Settled.append {events : List Event} (h : Settled handled events) (event : Event) (more : List Example)
    (hlast : ∀ ec, (event = .finish_example ec ∨ event = .end_pass ec) →
      more = [ec] ∧ (events.flatMap Event.examples).Perm handled) :
    Settled (handled ++ more) (events ++ [event]) := by
  intro pre e post heq ec he
  rcases eq_nil_or_concat post with rfl | ⟨post', last, rfl⟩
  · obtain ⟨hevents, hevent⟩ := append_inj' heq rfl
    obtain ⟨hmore, hperm⟩ := hlast ec ((cons.inj hevent).1 ▸ he)
    rw [hevents] at hperm
    exact ⟨handled, [], by rw [hmore], hperm⟩
  · rw [concat_eq_append, ← cons_append, ← append_assoc] at heq
    obtain ⟨xs, ys, hxs, hperm⟩ := h pre e post' (append_inj' heq rfl).1 ec he
    exact ⟨xs, ys ++ more, by rw [hxs, append_assoc]; rfl, hperm⟩

/-- Nothing is handled at first. -/
theorem Inv.initial (label_type : LabelType) : Inv label_type [] {} where
  once := List.Perm.refl []
  pending _ h := nomatch h
  fits _ h := nomatch h
  settled pre _ _ h := by cases pre <;> cases h

variable {label_type : LabelType} {h : Handler}

/-- The pending examples are learned from. -/
theorem Inv.process_remaining (hinv : Inv label_type handled h) :
    Inv label_type handled (process_remaining h) ∧ (process_remaining h).ec_seq = [] ∧
      (process_remaining h).events.filterMap Event.group =
        h.events.filterMap Event.group ++ if h.ec_seq = [] then [] else [h.ec_seq] := by
  unfold Driver.process_remaining
  by_cases hempty : h.ec_seq = []
  · rw [if_pos (by simpa using hempty), if_pos hempty]
    exact ⟨hinv, hempty, (append_nil _).symm⟩
  rw [if_neg (by simpa using hempty), if_neg hempty]
  unfold Handler.learn
  refine ⟨⟨?_, fun _ hmem => (nomatch hmem), fun e he => ?_, ?_⟩, rfl, ?_⟩
  · rw [flatMap_append]
    simpa [Event.examples] using hinv.once
  · rcases mem_append.mp he with he | he
    · exact hinv.fits e he
    · rw [mem_singleton.mp he]
      exact ⟨hempty, hinv.pending⟩
  · have hsettled := hinv.settled.append (.learn_multi_ex h.ec_seq) [] fun ec hec =>
      hec.elim (fun heq => (nomatch heq)) fun heq => (nomatch heq)
    rw [append_nil] at hsettled
    exact hsettled
  · rw [filterMap_append]
    rfl

variable {event : Event}

/-- An event that takes an example at once. -/
theorem Inv.process (hinv : Inv label_type handled h) (hexamples : event.examples = [ec])
    (hfits : event.Fits label_type)
    (hempty : (event = .finish_example ec ∨ event = .end_pass ec) → h.ec_seq = []) :
    Inv label_type (handled ++ [ec]) (h.process event) := by
  unfold Handler.process
  refine ⟨?_, hinv.pending, fun e he => ?_, hinv.settled.append event [ec] fun ec' hec' => ?_⟩
  · rw [flatMap_append, flatMap_singleton, hexamples, append_assoc]
    refine (List.Perm.append_left _ perm_append_comm).trans ?_
    rw [← append_assoc]
    exact hinv.once.append_right [ec]
  · rcases mem_append.mp he with he | he
    · exact hinv.fits e he
    · rw [mem_singleton.mp he]
      exact hfits
  · have hec : [ec] = [ec'] := by
      rw [← hexamples]
      rcases hec' with rfl | rfl
      · rfl
      · rfl
    obtain rfl := (cons.inj hec).1
    have honce := hinv.once
    rw [hempty hec', append_nil] at honce
    exact ⟨rfl, honce⟩

/-! ## One example -/

theorem try_complete_eq (c : Context) (h : Handler) (hsave : taken_for_save ec = false) :
    try_complete_multi_ex c h ec = ((complete_multi_ex c h ec).1, ec, (complete_multi_ex c h ec).2) := by
  unfold taken_for_save at hsave
  unfold try_complete_multi_ex
  split
  · rfl
  · rename_i hlength
    rw [decide_eq_true (Nat.le_of_not_lt hlength), Bool.true_and] at hsave
    rw [hsave]
    rfl

theorem on_example_feature (c : Context) (h : Handler) (hec : IsFeature ec) :
    on_example c h ec = .ok { h with ec_seq := h.ec_seq ++ [ec] } := by
  unfold on_example
  rw [try_complete_eq c h hec.taken_for_save]
  simp [complete_multi_ex, example_is_newline_not_header, hec.is_newline, hec.end_pass]

/-- A newline ends the group and is finished. -/
theorem on_example_newline (c : Context) (h : Handler) (htype : c.label_type ≠ .NOLABEL)
    (hec : IsNewline c.label_type ec) :
    on_example c h ec = .ok ((process_remaining h).process (.finish_example ec)) := by
  obtain ⟨l, hl⟩ := hec.default_label
  obtain ⟨htest, hheader⟩ := default_label_spec htype l
  unfold on_example process_remaining
  rw [try_complete_eq c h hec.taken_for_save]
  by_cases hempty : h.ec_seq = []
  · simp [complete_multi_ex, example_is_newline_not_header, hec.is_newline, hec.end_pass, hl, htest, hheader, hempty]
  · simp [complete_multi_ex, example_is_newline_not_header, hec.is_newline, hec.end_pass, hl, htest, hheader, hempty,
      Handler.learn]

theorem on_example_end_pass (c : Context) (h : Handler) (hec : IsEndPass ec) :
    on_example c h ec = .ok ((process_remaining h).process (.end_pass ec)) := by
  unfold on_example process_remaining
  rw [try_complete_eq c h hec.taken_for_save]
  by_cases hempty : h.ec_seq = []
  · simp [complete_multi_ex, hec.end_pass, hempty]
  · simp [complete_multi_ex, hec.end_pass, hempty, Handler.learn]

/-- A save command is carried out, whatever is pending. -/
theorem on_example_save (c : Context) (h : Handler) (hec : IsSave ec) :
    on_example c h ec = .ok (h.process (.save ec (save_name c ec))) := by
  have hsave := hec.taken_for_save
  unfold taken_for_save at hsave
  rw [Bool.and_eq_true, decide_eq_true_eq] at hsave
  have hfinish : (finish_example ec).end_pass = false ∧ (finish_example ec).is_newline = false := by
    unfold finish_example
    split
    · exact ⟨rfl, rfl⟩
    · exact ⟨hec.end_pass, hec.is_newline⟩
  unfold on_example try_complete_multi_ex
  rw [if_neg (Nat.not_lt.mpr hsave.1), if_pos hsave.2]
  simp [hfinish]

/-- A terminator is handled after the group in front of it. -/
theorem terminator_step (hinv : Inv label_type handled h) (hgrouped : Grouped handled h)
    (hexamples : event.examples = [ec]) (hfits : event.Fits label_type)
    (hgroup : event.group = none) (hsave : taken_for_save ec = false)
    (hterminator : is_terminator ec = true) :
    Inv label_type (handled ++ [ec]) ((process_remaining h).process event) ∧
      Grouped (handled ++ [ec]) ((process_remaining h).process event) := by
  obtain ⟨hinv', hempty, hgroups⟩ := hinv.process_remaining
  refine ⟨hinv'.process hexamples hfits fun _ => hempty, fun rest => ?_⟩
  unfold Handler.process
  rw [filterMap_append, hgroups, hempty, filterMap_cons_none hgroup, filterMap_nil, append_nil,
    nil_append, append_assoc, append_assoc, singleton_append, ← hgrouped (ec :: rest),
    groups_append_terminator hinv.pending hsave hterminator]

/-- One example of the stream. -/
theorem on_example_step (htype : c.label_type ≠ .NOLABEL) (hinv : Inv c.label_type handled h)
    (hgrouped : Grouped handled h) (hec : OfStream c.label_type ec) :
    ∃ h', on_example c h ec = .ok h' ∧ Inv c.label_type (handled ++ [ec]) h' ∧ Grouped (handled ++ [ec]) h' := by
  rcases hec with hfeature | hnewline | hend_pass | hsave
  · refine ⟨_, on_example_feature c h hfeature, ⟨?_, fun x hx => ?_, hinv.fits, ?_⟩, fun rest => ?_⟩
    · rw [← append_assoc]
      exact hinv.once.append_right [ec]
    · rcases mem_append.mp hx with hx | hx
      · exact hinv.pending x hx
      · rw [mem_singleton.mp hx]
        exact hfeature
    · intro pre e post heq x hx
      obtain ⟨xs, ys, hxs, hperm⟩ := hinv.settled pre e post heq x hx
      exact ⟨xs, ys ++ [ec], by rw [hxs, append_assoc]; rfl, hperm⟩
    · rw [append_assoc, append_assoc]
      exact hgrouped ([ec] ++ rest)
  · refine ⟨_, on_example_newline c h htype hnewline, ?_⟩
    refine terminator_step hinv hgrouped rfl hnewline rfl hnewline.taken_for_save ?_
    unfold is_terminator
    rw [hnewline.is_newline]
    rfl
  · refine ⟨_, on_example_end_pass c h hend_pass, ?_⟩
    refine terminator_step hinv hgrouped rfl hend_pass rfl hend_pass.taken_for_save ?_
    unfold is_terminator
    rw [hend_pass.end_pass, Bool.or_true]
  · refine ⟨_, on_example_save c h hsave, ?_, fun rest => ?_⟩
    · exact hinv.process rfl hsave fun hevent => hevent.elim (fun heq => (nomatch heq)) fun heq => (nomatch heq)
    · unfold Handler.process
      rw [filterMap_append, append_assoc handled, singleton_append,
        groups_append_save hsave.taken_for_save]
      exact (congrArg (· ++ _) (append_nil _)).trans (hgrouped rest)

/-- The loop over the queue. -/
theorem process_examples_spec (htype : c.label_type ≠ .NOLABEL) {examples : List Example} :
    ∀ {handled : List Example} {h : Handler}, (∀ ec ∈ examples, OfStream c.label_type ec) →
      Inv c.label_type handled h → Grouped handled h →
      ∃ consumed rest h', process_examples c examples h = .ok (h', rest) ∧ examples = consumed ++ rest ∧
        Inv c.label_type (handled ++ consumed) h' ∧ Grouped (handled ++ consumed) h' ∧
        (rest ≠ [] → c.early_terminate h'.events = true) := by
  induction examples with
  | nil =>
    intro handled h _ hinv hgrouped
    refine ⟨[], [], h, rfl, rfl, ?_, ?_, fun hne => absurd rfl hne⟩
    · rw [append_nil]
      exact hinv
    · rw [append_nil]
      exact hgrouped
  | cons ec examples ih =>
    intro handled h hstream hinv hgrouped
    rw [process_examples]
    cases hearly : c.early_terminate h.events with
    | true =>
      refine ⟨[], ec :: examples, h, if_pos rfl, rfl, ?_, ?_, fun _ => hearly⟩
      · rw [append_nil]
        exact hinv
      · rw [append_nil]
        exact hgrouped
    | false =>
      obtain ⟨h₁, hstep, hinv₁, hgrouped₁⟩ :=
        on_example_step htype hinv hgrouped (hstream ec mem_cons_self)
      obtain ⟨consumed, rest, h', hrun, hsplit, hinv', hgrouped', hleft⟩ :=
        ih (fun x hx => hstream x (mem_cons_of_mem _ hx)) hinv₁ hgrouped₁
      rw [append_assoc, singleton_append] at hinv' hgrouped'
      refine ⟨ec :: consumed, rest, h', ?_, by rw [hsplit]; rfl, hinv', hgrouped', hleft⟩
      rw [if_neg (by simp), hstep, Outcome.ok_bind, hrun]

/-! ## The driver -/

/-- What the driver does with a stream: of the examples it takes from the queue before the
    learners ask to stop, each is handed over once, and the groups are learned in order; the
    rest is finished at the end. -/
structure ConsumesOnce (c : Context) (examples : List Example) (events : List Event) : Prop where
  once : (events.flatMap Event.examples).Perm examples
  split : ∃ consumed rest handed, examples = consumed ++ rest ∧
    events = handed ++ rest.map Event.finish_example ∧
    (handed.flatMap Event.examples).Perm consumed ∧
    handed.filterMap Event.group = groups consumed ∧
    (∀ e ∈ handed, e.Fits c.label_type) ∧
    Settled consumed handed ∧
    (rest ≠ [] → c.early_terminate handed = true)

theorem early_terminate_append {events : List Event} (h : c.early_terminate events = true)
    (more : List Event) : c.early_terminate (events ++ more) = true := by
  unfold Context.early_terminate at h ⊢
  rw [any_eq_true] at h ⊢
  obtain ⟨pre, hpre, hdone⟩ := h
  exact ⟨pre, (mem_inits _ _).mpr (((mem_inits _ _).mp hpre).trans (prefix_append _ _)), hdone⟩

theorem process_remaining_events (h : Handler) : ∃ more, (process_remaining h).events = h.events ++ more := by
  unfold process_remaining
  split
  · exact ⟨[], (append_nil _).symm⟩
  · exact ⟨[.learn_multi_ex h.ec_seq], rfl⟩

/-- Every example of a stream is consumed exactly once, and no assertion of the handler fails. -/
theorem generic_driver_consumes (c : Context) (examples : List Example) (htype : c.label_type ≠ .NOLABEL)
    (hstream : ∀ ec ∈ examples, OfStream c.label_type ec) :
    ∃ events, generic_driver c examples = .ok (⟨[], events⟩, []) ∧ ConsumesOnce c examples events := by
  obtain ⟨consumed, rest, h, hrun, hsplit, hinv, hgrouped, hleft⟩ :=
    process_examples_spec htype hstream (Inv.initial c.label_type) fun _ => rfl
  rw [nil_append] at hinv hgrouped
  obtain ⟨hinv', hempty, hgroups⟩ := hinv.process_remaining
  have hall := hgrouped []
  rw [append_nil, append_nil, groups_pending hinv.pending, ← hgroups] at hall
  have honce := hinv'.once
  rw [hempty, append_nil] at honce
  have hearly : rest ≠ [] → c.early_terminate (process_remaining h).events = true := by
    intro hne
    obtain ⟨more, hmore⟩ := process_remaining_events h
    rw [hmore]
    exact early_terminate_append (hleft hne) more
  have hdrain : drain_examples c (process_remaining h) rest =
      (⟨[], (process_remaining h).events ++ rest.map Event.finish_example⟩, []) := by
    unfold drain_examples
    split
    · rw [← hempty]
    · rename_i hnot
      have hrest : rest = [] := by
        by_contra hne
        exact hnot (hearly hne)
      subst hrest
      rw [map_nil, append_nil, ← hempty]
  refine ⟨_, by rw [generic_driver, hrun, Outcome.ok_bind]; exact congrArg Except.ok hdrain, ?_, consumed, rest,
    (process_remaining h).events, hsplit, rfl, honce, hall, hinv'.fits, hinv'.settled, hearly⟩
  rw [flatMap_append, hsplit]
  refine honce.append ?_
  rw [flatMap_map]
  simp [Event.examples]

/-- A group of one example, ended by a newline, with the label parser of contextual bandits. -/
theorem generic_driver_consumes_group :
    let ec : Example := ⟨[1, 2], [], {}, false, false, true⟩
    let newline : Example := ⟨[1], [], {}, false, true, true⟩
    ∃ events, generic_driver ⟨.CB, [], fun _ => false⟩ [ec, newline] = .ok (⟨[], events⟩, []) ∧
      ConsumesOnce ⟨.CB, [], fun _ => false⟩ [ec, newline] events := by
  refine generic_driver_consumes _ _ (by decide) fun ec hec => ?_
  rcases mem_pair.mp hec with rfl | rfl
  · exact .inl ⟨rfl, rfl, rfl⟩
  · exact .inr (.inl ⟨rfl, rfl, ⟨{}, rfl⟩, rfl⟩)

end VW.Driver
