import VowpalWabbit.Config.Groups

/-! # Loading the options of a model

    The values of every name in the header are added to the command line, in an order
    of the names that is not promised. Whatever the order, parsing gives each known
    option the values of the command line and then those of the header.
-/

open Cpp VW.Regressor

namespace VW.Config

open List

section Load

variable {groups : OptionMap} {known : KnownOptions} {shorts : KnownShortOptions}

/-- The interactions of a model are left out when the command line has its own. -/
def remains (skip_interactions : Bool) (name : List Byte) : Prop :=
  name ∉ interaction_options ∨ skip_interactions = false

/-- The names and values that are added to the command line. -/
theorem merge_entries {strings : List (List Byte)} (hwords : strings = groups.flatMap option_words)
    (hwritten : ∀ kv ∈ groups, Written kv) (iteration : IterationOrder) (skip_interactions : Bool)
    (options : OptionsCli) (is_ccb_input_model : Bool) : ∃ entries : OptionMap,
      (merge_options_from_header_strings iteration strings skip_interactions options
        is_ccb_input_model).1.command_line = options.command_line ++ entries.flatMap inserted ∧
      (entries.map Prod.fst).Nodup ∧
      ∀ name values, (name, values) ∈ entries ↔ (∃ kv ∈ groups, kv.1 = name) ∧
        values = collected groups name ∧ remains skip_interactions name := by
  subst hwords
  have hcollects := collects_legacy hwritten
  set m_map := parse_model_command_line_legacy (groups.flatMap option_words) with hm
  unfold merge_options_from_header_strings
  rw [← hm]
  simp only [foldl_insert_values]
  refine ⟨_, rfl, ?_, fun name values => ?_⟩
  · have hperm := (iteration.perm (if skip_interactions then
      m_map.filter fun kv => kv.1 ∉ interaction_options else m_map)).map Prod.fst
    refine hperm.nodup_iff.mpr ?_
    split
    · exact hcollects.nodup.sublist (filter_sublist.map _)
    · exact hcollects.nodup
  · rw [(iteration.perm _).mem_iff]
    unfold remains
    cases skip_interactions with
    | true =>
      simp only [if_true, mem_filter, hcollects.mem_iff, decide_eq_true_eq]
      simp [and_assoc]
    | false =>
      simp only [Bool.false_eq_true, if_false, hcollects.mem_iff]
      simp

/-- The tokens of every known option, after a model has been loaded. -/
theorem load_values {file_options : List Byte}
    (hwords : words file_options = groups.flatMap option_words)
    (hwritten : ∀ kv ∈ groups, Written kv)
    (hfits : ∀ kv ∈ groups, Fits known_options (kv.1, collected groups kv.1))
    (iteration : IterationOrder) {options : OptionsCli} (is_ccb_input_model : Bool)
    {m_map : TokenMap} (hargs : parse_token_map_with_current_info options.command_line known_options
      shorts false = .ok m_map) : ∃ m_map',
      parse_token_map_with_current_info (load_header_merge_options iteration file_options options
        is_ccb_input_model).1.command_line known_options shorts false = .ok m_map' ∧
      ∀ name, name ≠ POSITIONAL → (known_options name).isSome →
        remains (check_interaction_settings_collision options file_options) name →
        ((∃ kv ∈ groups, kv.1 = name) →
          m_map' name = some ((m_map name).getD [] ++ collected groups name)) ∧
        ((∀ kv ∈ groups, kv.1 ≠ name) → m_map' name = m_map name) := by
  obtain ⟨entries, hline, hnodup, hmem⟩ := merge_entries hwords hwritten iteration
    (check_interaction_settings_collision options file_options) options is_ccb_input_model
  have hentries : ∀ kv ∈ entries, Fits known_options kv := by
    intro kv hkv
    obtain ⟨⟨kv', hkv', hname⟩, hvalues, -⟩ := (hmem kv.1 kv.2).mp hkv
    have hfit := hfits kv' hkv'
    rw [hname, ← hvalues] at hfit
    exact hfit
  obtain ⟨m_map', hparse, hothers, hvalue⟩ :=
    @parse_entries _ shorts _ hentries hnodup m_map
  refine ⟨m_map', ?_, fun name hpositional hknown hremains => ⟨fun hex => ?_, fun hnone => ?_⟩⟩
  · unfold load_header_merge_options
    rw [hline]
    show parse_tokens _ _ _ (options.command_line ++ entries.flatMap inserted) _ = _
    rw [parse_tokens_append _ _ (startsOption_entries hentries) _ _ _ _ (Nat.le_refl _) hargs, hparse]
  · have hentry := (hmem name (collected groups name)).mpr ⟨hex, rfl, hremains⟩
    exact hvalue _ hentry hknown
  · refine hothers name hpositional fun hin => ?_
    obtain ⟨kv, hkv, hfst⟩ := mem_map.mp hin
    obtain ⟨⟨kv', hkv', hname⟩, -⟩ := (hmem kv.1 kv.2).mp hkv
    exact hnone kv' hkv' (hname.trans hfst)

end Load

/-! ## The values of one name -/

/-- The values of a name come from the one element that has it. -/
theorem collected_flatMap {T : Type} {l : List T} {key : T → List Byte} (hnodup : (l.map key).Nodup)
    {f : T → OptionMap} (hkey : ∀ a ∈ l, ∀ kv ∈ f a, kv.1 = key a) {a : T} (ha : a ∈ l) :
    collected (l.flatMap f) (key a) = (f a).flatMap Prod.snd := by
  induction l with
  | nil => exact absurd ha not_mem_nil
  | cons b l ih =>
    rw [map_cons, nodup_cons] at hnodup
    have hrest : ∀ c ∈ l, ∀ kv ∈ f c, kv.1 = key c := fun c hc => hkey c (mem_cons_of_mem b hc)
    rw [flatMap_cons, collected_append_groups]
    rcases mem_cons.mp ha with rfl | ha
    · have hothers : ∀ kv ∈ l.flatMap f, kv.1 ≠ key a := by
        intro kv hkv heq
        obtain ⟨c, hc, hmem⟩ := mem_flatMap.mp hkv
        rw [hrest c hc kv hmem] at heq
        exact hnodup.1 (heq ▸ mem_map_of_mem hc)
      rw [collected_of_eq (hkey a mem_cons_self), collected_of_ne hothers, append_nil]
    · have hfirst : ∀ kv ∈ f b, kv.1 ≠ key a := by
        intro kv hkv heq
        rw [hkey b mem_cons_self kv hkv] at heq
        exact hnodup.1 (heq ▸ mem_map_of_mem ha)
      rw [collected_of_ne hfirst, nil_append, ih hnodup.2 hrest ha]

/-! ## The names and values of a saved model -/

section Groups

variable {was_supplied : List Byte → Bool} {options : List TypedOption}
  {header_was_supplied : String → Bool} {all : Workspace} {current_state : BitVec 64}

variable {name : List Byte}

theorem not_header_of_merged (h : name ∈ merged_names) : name ∉ header_names := by
  have hdisjoint : ∀ n ∈ merged_names, n ∉ header_names := by decide
  exact hdisjoint name h

variable {kv : List Byte × List (List Byte)}

theorem mem_merged_groups {sets : List Byte → OrderedSet char_order.toComparator}
    (h : kv ∈ merged_groups sets) :
    kv.1 ∈ merged_names ∧ (sets kv.1).elements ≠ [] ∧ kv.2 = words (sets kv.1).elements := by
  obtain ⟨name, hname, hmem⟩ := mem_flatMap.mp h
  split at hmem
  · cases hmem
  · rename_i hne
    rw [mem_singleton.mp hmem]
    exact ⟨hname, by simpa using hne, rfl⟩

/-- Where a name of a header comes from. -/
theorem saved_groups_cases (hall : PlainHeader all)
    (hkv : kv ∈ saved_groups header_was_supplied all was_supplied
      options current_state) :
    PlainGroup header_names kv ∨
    (∃ option ∈ kept was_supplied options, kv ∈ plain_groups option) ∨
    kv ∈ merged_groups (merged_chars (kept was_supplied options)) := by
  unfold saved_groups at hkv
  simp only [mem_append] at hkv
  rcases hkv with hkv | hkv | hkv | hkv
  · exact Or.inl (header_groups_plain header_was_supplied hall kv hkv)
  · exact Or.inr (Or.inl (mem_flatMap.mp hkv))
  · exact Or.inr (Or.inr hkv)
  · exact Or.inl (seed_groups_plain current_state kv hkv)

variable {option : TypedOption}

theorem plain_groups_name (h : kv ∈ plain_groups option) : option.m_name ∉ merged_names := by
  intro hmerged
  unfold plain_groups at h
  rw [if_pos hmerged] at h
  cases h

/-- The values of a name that is not the header's own. -/
theorem collected_saved (hall : PlainHeader all) (hname : name ∉ header_names) :
    collected (saved_groups header_was_supplied all was_supplied options current_state) name =
      collected ((kept was_supplied options).flatMap plain_groups) name ++
        collected (merged_groups (merged_chars (kept was_supplied options))) name := by
  have hheader : ∀ kv ∈ header_groups header_was_supplied all, kv.1 ≠ name :=
    fun kv hkv heq => hname (heq ▸ (header_groups_plain header_was_supplied hall kv hkv).name)
  have hseed : ∀ kv ∈ seed_groups current_state, kv.1 ≠ name :=
    fun kv hkv heq => hname (heq ▸ (seed_groups_plain current_state kv hkv).name)
  unfold saved_groups
  rw [collected_append_groups, collected_append_groups, collected_append_groups,
    collected_of_ne hheader, collected_of_ne hseed, nil_append, append_nil]

theorem kept_names_nodup (h : Saved was_supplied options) :
    ((kept was_supplied options).map fun option => option.m_name).Nodup :=
  h.nodup.sublist (filter_sublist.map _)

theorem collected_plain (h : Saved was_supplied options) (hall : PlainHeader all)
    (hoption : option ∈ kept was_supplied options) (hmerged : option.m_name ∉ merged_names)
    {v : option.type.Value} (hv : option.value = some v) :
    collected (saved_groups header_was_supplied all was_supplied options current_state)
      option.m_name = value_tokens option.type v := by
  have hothers : ∀ kv ∈ merged_groups (merged_chars (kept was_supplied options)),
      kv.1 ≠ option.m_name :=
    fun kv hkv heq => hmerged (heq ▸ (mem_merged_groups hkv).1)
  have hgroups : plain_groups option = value_groups option.m_name option.type v := by
    unfold plain_groups
    rw [if_neg hmerged, hv]
  have hone := collected_flatMap (kept_names_nodup h) (f := plain_groups)
    (fun o ho kv hkv => ((plain_groups_spec h ho).2 kv hkv).1) hoption
  rw [collected_saved hall (h.name option hoption).2, collected_of_ne hothers, append_nil, hone,
    hgroups]
  exact (value_groups_spec (h.plain option hoption hmerged v hv)).2.2

theorem collected_merged (h : Saved was_supplied options) (hall : PlainHeader all) {name : List Byte}
    (hmerged : name ∈ merged_names) :
    collected (saved_groups header_was_supplied all was_supplied options current_state) name =
      words (merged_chars (kept was_supplied options) name).elements := by
  have hothers : ∀ kv ∈ (kept was_supplied options).flatMap plain_groups, kv.1 ≠ name := by
    intro kv hkv heq
    obtain ⟨option, hoption, hmem⟩ := mem_flatMap.mp hkv
    have hname := ((plain_groups_spec h hoption).2 kv hmem).1
    exact plain_groups_name hmem (hname ▸ heq ▸ hmerged)
  have hnodup : (merged_names.map id).Nodup := by decide
  have hone := collected_flatMap (a := name) hnodup (f := fun name =>
      if (merged_chars (kept was_supplied options) name).elements.isEmpty then []
      else [(name, words (merged_chars (kept was_supplied options) name).elements)])
    (fun n _ kv hkv => by
      split at hkv
      · cases hkv
      · rw [mem_singleton.mp hkv]
        rfl) hmerged
  rw [collected_saved hall (not_header_of_merged hmerged), collected_of_ne hothers, nil_append]
  unfold merged_groups
  refine hone.trans ?_
  split
  · rename_i hempty
    rw [isEmpty_iff.mp hempty]
    rfl
  · exact flatMap_singleton _ _

/-- A name that is merged stands in the header when there is something to merge. -/
theorem merged_group_iff (h : Saved was_supplied options) (hall : PlainHeader all) {name : List Byte}
    (hmerged : name ∈ merged_names) :
    (∃ kv ∈ saved_groups header_was_supplied all was_supplied options current_state, kv.1 = name) ↔
      (merged_chars (kept was_supplied options) name).elements ≠ [] := by
  constructor
  · intro hex
    obtain ⟨kv, hkv, rfl⟩ := hex
    rcases saved_groups_cases hall hkv with hheader | ⟨option, hoption, hplain⟩ | hgroup
    · exact absurd hheader.name (not_header_of_merged hmerged)
    · have hname := ((plain_groups_spec h hoption).2 kv hplain).1
      exact absurd (hname ▸ hmerged) (plain_groups_name hplain)
    · exact (mem_merged_groups hgroup).2.1
  · intro hne
    refine ⟨(name, words (merged_chars (kept was_supplied options) name).elements), ?_, rfl⟩
    unfold saved_groups merged_groups
    simp only [mem_append]
    refine Or.inr (Or.inr (Or.inl (mem_flatMap.mpr ⟨name, hmerged, ?_⟩)))
    rw [if_neg (by simpa using hne)]
    exact mem_singleton_self _

/-- A word of a text without repetitions is no long option. -/
theorem words_not_long {s : List Byte} (h : s.Nodup) : ∀ w ∈ words s, is_long_option_like w = false := by
  intro w hw
  obtain ⟨-, hflatten⟩ := words_from_spec s [] fun c hc => absurd hc not_mem_nil
  rw [nil_append] at hflatten
  have hnodup : w.Nodup := by
    have hsub : w.Sublist (words s).flatten := sublist_flatten_of_mem hw
    unfold words at hsub
    rw [hflatten] at hsub
    exact (h.sublist filter_sublist).sublist hsub
  have hdashes : text "--" = [45, 45] := by decide
  unfold is_long_option_like
  rw [hdashes, Bool.and_eq_false_iff, beq_eq_false_iff_ne]
  refine Or.inl fun heq => ?_
  have htake := hnodup.sublist (take_sublist 2 w)
  rw [heq] at htake
  exact absurd htake (by decide)

theorem words_isWord (s : List Byte) : ∀ w ∈ words s, IsWord w :=
  (words_from_spec s [] fun _ hc => absurd hc not_mem_nil).1

theorem saved_written (h : Saved was_supplied options) (hall : PlainHeader all) :
    ∀ kv ∈ saved_groups header_was_supplied all was_supplied options current_state, Written kv := by
  have hplain {s : List Byte} (hs : PlainText s) : is_long_option_like s = false := by
    have hlike := hs.not_option
    unfold is_option_like at hlike
    simp only [Bool.or_eq_false_iff] at hlike
    exact hlike.1.1
  intro kv hkv
  rcases saved_groups_cases hall hkv with hheader | ⟨option, hoption, hgroup⟩ | hgroup
  · exact ⟨(written_header_name hheader.name).ne_nil, fun s hs => hplain (hheader.values s hs)⟩
  · obtain ⟨hname, hvalues⟩ := (plain_groups_spec h hoption).2 kv hgroup
    exact ⟨hname ▸ (h.name option hoption).1.ne_nil, fun s hs => hplain (hvalues s hs)⟩
  · obtain ⟨hname, -, hvalues⟩ := mem_merged_groups hgroup
    rw [show kv = (kv.1, kv.2) from rfl, hvalues]
    exact ⟨(written_merged_name hname).ne_nil,
      words_not_long (LinearComparator.nodup_elements _)⟩

/-- The options that the program knows when it parses the command line are those of
    the saved model, with the same types. -/
structure Registered (options : List TypedOption) (known_options : KnownOptions) : Prop where
  name : ∀ name opt, known_options name = some opt → opt.m_name = name
  kept : ∀ option ∈ options, ∀ opt, known_options option.m_name = some opt → opt.type = option.type
  header : ∀ name ∈ header_names, ∀ opt, known_options name = some opt → opt.type ≠ .bool
  merged : ∀ name ∈ merged_names, ∀ opt, known_options name = some opt → opt.type = .vector

theorem value_tokens_eq_nil_iff {type : OptionType} {v : type.Value} (h : Restorable type v) :
    type = .bool ↔ value_tokens type v = [] := by
  cases type with
  | bool => exact ⟨fun _ => rfl, fun _ => rfl⟩
  | vector =>
    have hbool : OptionType.vector ≠ .bool := by decide
    exact ⟨fun heq => absurd heq hbool, fun hnil => absurd hnil h.1⟩
  | uint32 | uint64 | int32 | int64 | float | string =>
    refine ⟨fun heq => ?_, fun hnil => absurd hnil (cons_ne_nil _ _)⟩
    cases heq

/-- The values of a name of the header itself. -/
theorem collected_header (h : Saved was_supplied options) (hall : PlainHeader all)
    (hheader : PlainGroup header_names kv)
    (hkv : kv ∈ saved_groups header_was_supplied all was_supplied options current_state) :
    collected (saved_groups header_was_supplied all was_supplied options current_state) kv.1 ≠ [] ∧
    ∀ s ∈ collected (saved_groups header_was_supplied all was_supplied options current_state) kv.1,
      PlainText s := by
  constructor
  · obtain ⟨s, hs⟩ := exists_mem_of_ne_nil _ hheader.values_ne
    have hmem : s ∈ collected (saved_groups header_was_supplied all was_supplied options
        current_state) kv.1 :=
      mem_flatMap.mpr ⟨kv, mem_filter.mpr ⟨hkv, by simp⟩, hs⟩
    exact ne_nil_of_mem hmem
  · intro s hs
    obtain ⟨kv', hkv', hmem⟩ := mem_flatMap.mp hs
    obtain ⟨hgroup, heq⟩ := mem_filter.mp hkv'
    have hname : kv'.1 = kv.1 := by simpa using heq
    rcases saved_groups_cases hall hgroup with hplain | ⟨option, hoption, hplain⟩ | hmerged
    · exact hplain.values s hmem
    · exact ((plain_groups_spec h hoption).2 kv' hplain).2 s hmem
    · exact absurd (hname ▸ hheader.name) (not_header_of_merged (mem_merged_groups hmerged).1)

theorem saved_fits (h : Saved was_supplied options) (hall : PlainHeader all)
    {known : KnownOptions} (hknown : Registered options known)
    (hmerged : ∀ name ∈ merged_names, (merged_chars (kept was_supplied options) name).elements ≠ [] →
      words (merged_chars (kept was_supplied options) name).elements ≠ [] ∧
      (known name = none → ∀ s ∈ words (merged_chars (kept was_supplied options) name).elements,
        is_option_like s = false)) :
    ∀ kv ∈ saved_groups header_was_supplied all was_supplied options current_state,
      Fits known (kv.1, collected
        (saved_groups header_was_supplied all was_supplied options current_state) kv.1) := by
  intro kv hkv
  rcases saved_groups_cases hall hkv with hheader | ⟨option, hoption, hgroup⟩ | hgroup
  · obtain ⟨hne, hvalues⟩ := collected_header h hall hheader hkv
    refine ⟨(written_header_name hheader.name).toPlainName, fun s hs => (hvalues s hs).word.1,
      fun opt hopt => ⟨hknown.name _ opt hopt, fun hbool => ?_, fun hnil => absurd hnil hne⟩,
      fun _ s hs => (hvalues s hs).not_option⟩
    exact absurd hbool (hknown.header _ hheader.name opt hopt)
  · have hname := ((plain_groups_spec h hoption).2 kv hgroup).1
    have hplain := plain_groups_name hgroup
    obtain ⟨v, hv⟩ := Option.isSome_iff_exists.mp (h.parsed option hoption).value
    have hrestorable := h.plain option hoption hplain v hv
    have hvalues := plainText_tokens hrestorable
    rw [hname, collected_plain h hall hoption hplain hv]
    refine ⟨(h.name option hoption).1.toPlainName, fun s hs => (hvalues s hs).word.1,
      fun opt hopt => ⟨hknown.name _ opt hopt, ?_⟩, fun _ s hs => (hvalues s hs).not_option⟩
    rw [hknown.kept option (mem_of_mem_filter hoption) opt hopt]
    exact value_tokens_eq_nil_iff hrestorable
  · obtain ⟨hname, hne, -⟩ := mem_merged_groups hgroup
    obtain ⟨hwords, hunknown⟩ := hmerged kv.1 hname hne
    rw [collected_merged h hall hname]
    refine ⟨(written_merged_name hname).toPlainName, fun s hs => (words_isWord _ s hs).1,
      fun opt hopt => ⟨hknown.name _ opt hopt, fun hbool => ?_, fun hnil => absurd hnil hwords⟩,
      hunknown⟩
    rw [hknown.merged _ hname opt hopt] at hbool
    cases hbool

end Groups

end VW.Config
