import VowpalWabbit.Config.Loading

/-! # Kept options come back

    Every option that is kept has its value again after the model has been saved and
    loaded, when its text is one word that is not taken for an option. The values of
    the three merged options come back as one value, with every namespace once.
-/

open Cpp VW.Regressor LinearComparator

namespace VW.Config

open List

/-! ## Values -/

variable {type : OptionType} {v : type.Value}

/-- What was printed is read as the same value. -/
theorem convert_print (h : Restorable type v) (htype : type ≠ .bool ∧ type ≠ .vector) :
    convert_token_value type (print_value 15 type v) = .ok v := by
  cases type with
  | uint32 =>
    have hscan := scan_unsigned_decimal (w := 32) v
    simp only [convert_token_value, print_value, hscan]
  | uint64 =>
    have hscan := scan_unsigned_decimal (w := 64) v
    simp only [convert_token_value, print_value, hscan]
  | int32 =>
    have hscan := scan_signed_print (w := 32) v
    simp only [convert_token_value, print_value, hscan]
  | int64 =>
    have hscan := scan_signed_print (w := 64) v
    simp only [convert_token_value, print_value, hscan]
  | float =>
    have hscan := scan_float_print (k := 14) (by decide) h
    simp only [convert_token_value, print_value, hscan]
  | string => rfl
  | bool => exact absurd rfl htype.1
  | vector => exact absurd rfl htype.2

theorem differs_self (h : Restorable type v) : differs type v v = false := by
  cases type with
  | float =>
    have hnan : Single.is_nan v = false := decide_eq_false (Nat.not_lt.mpr (Nat.le_of_lt h))
    simp [differs, hnan]
  | uint32 | uint64 | int32 | int64 | string | bool | vector => simp [differs]

/-- An option is given the value whose tokens it has. -/
theorem handle_restored {opt : BaseOption} {v : opt.type.Value} (h : Restorable opt.type v)
    {m_tokens : TokenMap} (htokens : m_tokens opt.m_name = some (value_tokens opt.type v)) :
    handle_typed_option m_tokens opt = .ok (some v) := by
  have hsingle (htype : opt.type ≠ .bool ∧ opt.type ≠ .vector) :
      handle_single opt [print_value 15 opt.type v] = .ok (some v) := by
    have hcheck : check_disagreeing_option_values opt.type v opt.m_name [v] = .ok () := by
      unfold check_disagreeing_option_values
      rw [find?_cons_of_neg (by simp [differs_self h])]
      rfl
    unfold handle_single
    rw [mapM_cons, convert_print h htype]
    show (if opt.m_allow_override then _ else _) = _
    split
    · rfl
    · show (do check_disagreeing_option_values opt.type v opt.m_name [v]; pure (some v)) = _
      rw [hcheck]
      rfl
  obtain ⟨m_name, short, keep, allow, type, default⟩ := opt
  cases type with
  | bool =>
    obtain rfl : v = true := h
    unfold handle_typed_option
    simp only at htokens ⊢
    rw [htokens]
  | vector =>
    unfold handle_typed_option
    simp only at htokens ⊢
    rw [htokens]
    rfl
  | uint32 | uint64 | int32 | int64 | float | string =>
    unfold handle_typed_option
    simp only at htokens ⊢
    rw [htokens]
    exact hsingle (by simp)

/-! ## The round trip -/

/-- The value after loading: the namespaces of a merged option are one value. -/
def restored_value (merged : Bool) : (type : OptionType) → type.Value → type.Value
  | .vector, v =>
    if merged then
      [(insert_range (OrderedSet.empty : OrderedSet char_order.toComparator)
        v.flatten).elements]
    else v
  | _, v => v

theorem restored_value_plain (type : OptionType) (v : type.Value) : restored_value false type v = v := by
  cases type <;> rfl

section RoundTrip

variable {was_supplied : List Byte → Bool} {options : List TypedOption}

variable {option : TypedOption}

/-- Only one option has the name. -/
theorem merged_chars_eq (h : Saved was_supplied options)
    (hoption : option ∈ kept was_supplied options) :
    merged_chars (kept was_supplied options) option.m_name =
      insert_range .empty (saved_chars option) := by
  refine eq_of_mem_iff fun c => ?_
  rw [mem_merged_chars, mem_insert_range_iff]
  constructor
  · intro hex
    obtain ⟨o, ho, hname, hc⟩ := hex
    obtain rfl := inj_on_of_nodup_map (kept_names_nodup h) ho hoption hname
    exact Or.inl hc
  · intro hc
    rcases hc with hc | hc
    · exact ⟨option, hoption, rfl, hc⟩
    · cases hc

/-- The merged texts are words that are not taken for options. -/
def PlainMerged (was_supplied : List Byte → Bool) (options : List TypedOption) : Prop :=
  ∀ option ∈ kept was_supplied options, option.m_name ∈ merged_names →
    PlainText (insert_range
      (OrderedSet.empty : OrderedSet char_order.toComparator) (saved_chars option)).elements

theorem plain_merged_words (h : Saved was_supplied options)
    (hmerged : PlainMerged was_supplied options) {name : List Byte} (hname : name ∈ merged_names)
    (hne : (merged_chars (kept was_supplied options) name).elements ≠ []) :
    words (merged_chars (kept was_supplied options) name).elements =
      [(merged_chars (kept was_supplied options) name).elements] ∧
    PlainText (merged_chars (kept was_supplied options) name).elements := by
  obtain ⟨c, hc⟩ := exists_mem_of_ne_nil _ hne
  obtain ⟨option, hoption, rfl, -⟩ := (mem_merged_chars _ _ _).mp hc
  have hplain := hmerged option hoption hname
  rw [merged_chars_eq h hoption]
  exact ⟨words_word hplain.word, hplain⟩

variable {all : Workspace}

/-- What a kept option has among the collected values. -/
theorem collected_restored (h : Saved was_supplied options)
    (hmerged : PlainMerged was_supplied options) (hall : PlainHeader all)
    (header_was_supplied : String → Bool) (current_state : BitVec 64)
    (hoption : option ∈ kept was_supplied options) {v : option.type.Value}
    (hv : option.value = some v) :
    Restorable option.type (restored_value (option.m_name ∈ merged_names) option.type v) ∧
    (∃ kv ∈ saved_groups header_was_supplied all was_supplied options current_state,
      kv.1 = option.m_name) ∧
    collected (saved_groups header_was_supplied all was_supplied options current_state)
      option.m_name = value_tokens option.type
        (restored_value (option.m_name ∈ merged_names) option.type v) := by
  by_cases hname : option.m_name ∈ merged_names
  · have hplain := hmerged option hoption hname
    have hchars := merged_chars_eq h hoption
    have hne : (merged_chars (kept was_supplied options) option.m_name).elements ≠ [] := by
      rw [hchars]
      exact hplain.word.1
    have hgroup := (@merged_group_iff _ _ header_was_supplied _ current_state h hall _ hname).mpr hne
    have hcollected := @collected_merged _ _ header_was_supplied _ current_state h hall _ hname
    rw [(plain_merged_words h hmerged hname hne).1, hchars] at hcollected
    have htype := (h.parsed option hoption).merged hname
    obtain ⟨⟨m_name, short, keep, allow, type, default⟩, value⟩ := option
    obtain rfl : type = .vector := htype
    change OptionType.vector.Value at v
    change value = some v at hv
    subst hv
    simp only [hname, decide_true]
    refine ⟨⟨cons_ne_nil _ _, fun s hs => ?_⟩, hgroup, hcollected⟩
    rw [mem_singleton.mp hs]
    exact hplain
  · have hsame : restored_value (decide (option.m_name ∈ merged_names)) option.type v = v := by
      rw [decide_eq_false hname, restored_value_plain]
    have hrestorable := h.plain option hoption hname v hv
    rw [hsame]
    refine ⟨hrestorable, ?_, collected_plain h hall hoption hname hv⟩
    obtain ⟨-, hne, -⟩ := @value_groups_spec option.m_name _ _ hrestorable
    obtain ⟨kv, hkv⟩ := exists_mem_of_ne_nil _ hne
    have hplain : kv ∈ plain_groups option := by
      unfold plain_groups
      rw [if_neg hname, hv]
      exact hkv
    refine ⟨kv, ?_, ((plain_groups_spec h hoption).2 kv hplain).1⟩
    unfold saved_groups
    simp only [mem_append]
    exact Or.inr (Or.inl (mem_flatMap.mpr ⟨option, hoption, hplain⟩))

/-- The tokens after loading, and the values that the kept options get from them. -/
theorem load_restores (h : Saved was_supplied options)
    (hmerged : PlainMerged was_supplied options) (hall : PlainHeader all)
    {header_was_supplied : String → Bool} {current_state : BitVec 64} {file_options : List Byte}
    (hwords : words file_options = (saved_groups header_was_supplied all was_supplied options
      current_state).flatMap option_words) (iteration : IterationOrder) {cli : OptionsCli}
    (is_ccb_input_model : Bool) {known : KnownOptions} {shorts : KnownShortOptions}
    {m_map : TokenMap} (hknown : Registered options known)
    (hargs : parse_token_map_with_current_info cli.command_line known shorts false =
      .ok m_map) : ∃ m_map',
      parse_token_map_with_current_info (load_header_merge_options iteration file_options cli
        is_ccb_input_model).1.command_line known shorts false = .ok m_map' ∧
      ∀ option ∈ kept was_supplied options, known option.m_name = some option.toBaseOption →
        m_map option.m_name = none →
        remains (check_interaction_settings_collision cli file_options) option.m_name →
        ∀ v, option.value = some v → handle_typed_option m_map' option.toBaseOption =
          .ok (some (restored_value (option.m_name ∈ merged_names) option.type v)) := by
  have hfits := @saved_fits _ _ header_was_supplied _ current_state h hall _ hknown fun name hname
    hne => by
      obtain ⟨hword, hplain⟩ := plain_merged_words h hmerged hname hne
      rw [hword]
      exact ⟨cons_ne_nil _ _, fun _ s hs => mem_singleton.mp hs ▸ hplain.not_option⟩
  obtain ⟨m_map', hparse, hvalues⟩ := load_values hwords (saved_written h hall) hfits iteration
    is_ccb_input_model hargs
  refine ⟨m_map', hparse, fun option hoption hopt hnone hremains v hv => ?_⟩
  obtain ⟨hrestorable, hgroup, hcollected⟩ :=
    collected_restored h hmerged hall header_was_supplied current_state hoption hv
  have hname := (h.name option hoption).1.not_positional
  have htokens := (hvalues option.m_name hname (by rw [hopt]; rfl) hremains).1 hgroup
  rw [hnone, hcollected] at htokens
  exact handle_restored hrestorable htokens

/-- The kept options are written to the header of a model; who reads the header and
    adds its options to a command line that does not give them finds their values:
    those that were saved, except that the values of a merged option come back as
    one. -/
theorem kept_options_round_trip (h : Saved was_supplied options)
    (hmerged : PlainMerged was_supplied options) {all : Workspace} (hall : PlainHeader all)
    (current_state : BitVec 64) : ∃ serialized,
      serialized_keep_options was_supplied options current_state = .ok serialized ∧
      (Saves all serialized → ∀ o : Output, ∃ all' o',
        write_header all serialized o = .ok (all', o') ∧
        o'.written = o.written ++ header all serialized o.verify_hash o.hash ∧
        ∀ (A : Allocator) (cli : OptionsCli) (reader : Workspace) (io : IoBuf) (rest : List Byte),
          Accepts reader all → io.Wf A → 0 < io.input_files.length →
          io.verify_hash = o.verify_hash → io.hash = o.hash →
          io.stream = header all serialized o.verify_hash o.hash ++ rest →
          A.Provides (2 * (header all serialized o.verify_hash o.hash).length) →
          Outcome.Returns (read_header A (fun name => cli.was_supplied (text name)) reader [] io)
            fun r =>
            ∀ (iteration : IterationOrder) (is_ccb_input_model : Bool)
              (known_options : KnownOptions) (known_short_options : KnownShortOptions)
              (m_map : TokenMap), Registered options known_options →
              parse_token_map_with_current_info cli.command_line known_options known_short_options false =
                .ok m_map →
              ∃ m_map', parse_token_map_with_current_info (load_header_merge_options iteration r.2.1
                  cli is_ccb_input_model).1.command_line known_options known_short_options false =
                    .ok m_map' ∧
                ∀ option ∈ kept was_supplied options,
                  known_options option.m_name = some option.toBaseOption →
                  m_map option.m_name = none →
                  remains (check_interaction_settings_collision cli r.2.1) option.m_name →
                  ∀ v, option.value = some v → handle_typed_option m_map' option.toBaseOption =
                    .ok (some (restored_value (option.m_name ∈ merged_names) option.type v))) := by
  -- The text does not depend on who reads it.
  obtain ⟨serialized, hserialized, -⟩ := words_saved h current_state (fun _ => false) hall
  refine ⟨serialized, hserialized, fun hsaves o => ?_⟩
  obtain ⟨⟨all', o'⟩, hwrite, hwritten⟩ := write_header_returns hsaves o
  refine ⟨all', o', hwrite, hwritten, ?_⟩
  intro A cli reader io rest haccepts hwf hfiles hverify hhash hstream hmem
  rw [← hverify, ← hhash] at hstream hmem
  refine (read_header_returns (fun name => cli.was_supplied (text name)) [] hsaves haccepts hwf hfiles
    hmem hstream).mono fun r hr => ?_
  intro iteration is_ccb_input_model known_options known_short_options m_map hknown hargs
  obtain ⟨serialized', hserialized', hwords⟩ :=
    words_saved h current_state (fun name => cli.was_supplied (text name)) hall
  obtain rfl := Except.ok.inj (hserialized.symm.trans hserialized')
  have hread : words r.2.1 = (saved_groups (fun name => cli.was_supplied (text name)) all was_supplied
      options current_state).flatMap option_words := by
    rw [hr.2.1, nil_append, hwords]
  exact load_restores h hmerged hall hread iteration is_ccb_input_model hknown hargs

end RoundTrip

/-- Options of all kinds: a switch, a negative number, a `float`, a list, a list of
    namespaces with one twice, and one that is not kept. -/
def sample_options : List TypedOption :=
  [⟨{ m_name := text "noconstant", m_keep := true, type := .bool }, some true⟩,
   ⟨{ m_name := text "offset", m_keep := true, type := .int32 }, some (-3)⟩,
   ⟨{ m_name := text "gamma", m_keep := true, type := .float }, some ⟨0x3f000000⟩⟩,
   ⟨{ m_name := text "quadratic", m_keep := true, type := .vector }, some [text "ab", text "cd"]⟩,
   ⟨{ m_name := text "ignore", m_keep := true, type := .vector }, some [text "cb", text "ac"]⟩,
   ⟨{ m_name := text "data", type := .string }, some (text "train file")⟩]

def sample_known : KnownOptions := fun name =>
  (sample_options.find? fun option => option.m_name = name).map TypedOption.toBaseOption

theorem sample_saved : Saved (fun _ => true) sample_options := by
  have hname : ∀ option ∈ kept (fun _ => true) sample_options,
      option.m_name ≠ [] ∧ 61 ∉ option.m_name ∧ option.m_name ≠ POSITIONAL ∧
      (∀ c ∈ option.m_name, is_space c = false) ∧ 0 ∉ option.m_name ∧
      option.m_name ∉ header_names := by decide
  have hplain : ∀ s ∈ [text "ab", text "cd"], s ≠ [] ∧ (∀ c ∈ s, is_space c = false) ∧ 0 ∉ s ∧
      is_option_like s = false := by decide
  refine ⟨by decide, ?_, ?_, ?_, by decide⟩
  · intro option hoption
    fin_cases hoption <;> exact ⟨rfl, by decide⟩
  · intro option hoption
    obtain ⟨hne, hequal, hpositional, hspace, hnul, hheader⟩ := hname option hoption
    exact ⟨⟨⟨hne, hequal, hpositional⟩, hspace, hnul⟩, hheader⟩
  · intro option hoption hmerged v hv
    fin_cases hoption <;> cases hv
    · rfl
    · trivial
    · show Single.magnitude _ < _
      decide
    · refine ⟨cons_ne_nil _ _, fun s hs => ?_⟩
      obtain ⟨hne, hspace, hnul, hlike⟩ := hplain s hs
      exact ⟨⟨hne, hspace⟩, hnul, hlike⟩
    · exact absurd (by decide) hmerged

theorem sample_registered : Registered sample_options sample_known := by
  have hfound : ∀ name opt, sample_known name = some opt →
      ∃ option ∈ sample_options, option.toBaseOption = opt ∧ option.m_name = name := by
    intro name opt hopt
    unfold sample_known at hopt
    obtain ⟨option, hfind, hbase⟩ := Option.map_eq_some_iff.mp hopt
    exact ⟨option, mem_of_find?_eq_some hfind, hbase, by simpa using find?_some hfind⟩
  have hnodup : (sample_options.map fun option => option.m_name).Nodup := by decide
  have hheader : ∀ name ∈ header_names, ∀ option ∈ sample_options, option.m_name ≠ name := by decide
  have hmerged : ∀ name ∈ merged_names, ∀ option ∈ sample_options, option.m_name = name →
      option.type = .vector := by decide
  constructor
  · intro name opt hopt
    obtain ⟨option, -, rfl, hname⟩ := hfound name opt hopt
    exact hname
  · intro option hoption opt hopt
    obtain ⟨option', hoption', rfl, hname⟩ := hfound _ opt hopt
    rw [inj_on_of_nodup_map hnodup hoption' hoption hname]
  · intro name hname opt hopt
    obtain ⟨option, hoption, rfl, heq⟩ := hfound name opt hopt
    exact absurd heq (hheader name hname option hoption)
  · intro name hname opt hopt
    obtain ⟨option, hoption, rfl, heq⟩ := hfound name opt hopt
    exact hmerged name hname option hoption heq

/-- A model with the options is written and read, and the options that are kept have
    their values again. -/
theorem sample_options_come_back :
    ∃ serialized all' o' io r m_map',
      serialized_keep_options (fun _ => true) sample_options 0 = .ok serialized ∧
      write_header {} serialized {} = .ok (all', o') ∧
      IoBuf.open_ flat_memory [chunked 7 o'.written] = .ok io ∧
      read_header flat_memory (fun _ => false) {} [] io = .ok r ∧
      parse_token_map_with_current_info (load_header_merge_options ⟨id, fun _ => .refl _⟩ r.2.1
        { command_line := [] } false).1.command_line sample_known (fun _ => none) false = .ok m_map' ∧
      ∀ option ∈ kept (fun _ => true) sample_options, ∀ v, option.value = some v →
        handle_typed_option m_map' option.toBaseOption =
          .ok (some (restored_value (option.m_name ∈ merged_names) option.type v)) := by
  have hplain : PlainHeader {} := ⟨fun h => absurd rfl h, fun _ h => absurd h not_mem_nil,
    fun _ h => absurd h not_mem_nil⟩
  have hmerged : PlainMerged (fun _ => true) sample_options := by
    intro option hoption hname
    fin_cases hoption
    · exact absurd hname (by decide)
    · exact absurd hname (by decide)
    · exact absurd hname (by decide)
    · exact absurd hname (by decide)
    · exact ⟨⟨by decide, by decide⟩, by decide, by decide⟩
  obtain ⟨serialized, hserialized, hload⟩ :=
    kept_options_round_trip sample_saved hmerged hplain 0
  have hvalue : serialized_keep_options (fun _ => true) sample_options 0 = .ok (text
      " --noconstant --offset -3 --gamma 0.5 --quadratic ab --quadratic cd --ignore abc") := rfl
  obtain rfl := Except.ok.inj (hserialized.symm.trans hvalue)
  obtain ⟨all', o', hwrite, hwritten, hread⟩ :=
    hload ⟨by decide, by decide, by decide, by decide, by decide, by decide⟩ {}
  obtain ⟨io, hopen, hwf, hstream, _, hfiles, hverify, hhash⟩ := exists_opened o'.written
  rw [hwritten] at hstream
  have hlen : (header {} (text
      " --noconstant --offset -3 --gamma 0.5 --quadratic ab --quadratic cd --ignore abc")
      ({} : Output).verify_hash ({} : Output).hash).length ≤ 200 := by
    rw [header, length_append, length_checksum_field]
    decide +kernel
  have hmem : flat_memory.Provides (2 * (header {} (text
      " --noconstant --offset -3 --gamma 0.5 --quadratic ab --quadratic cd --ignore abc")
      ({} : Output).verify_hash ({} : Output).hash).length) := flat_memory_provides (by omega)
  obtain ⟨r, hr, hrest⟩ := hread flat_memory { command_line := [] } {} io [] ⟨Or.inl rfl, by decide⟩
    hwf hfiles hverify hhash (by rw [hstream]; simp)
    hmem
  obtain ⟨m_map', hparse, hvalues⟩ := hrest ⟨id, fun _ => .refl _⟩ false sample_known (fun _ => none)
    TokenMap.empty sample_registered rfl
  refine ⟨_, all', o', io, r, m_map', hserialized, hwrite, hopen, hr, hparse, ?_⟩
  intro option hoption v hv
  have hknown : sample_known option.m_name = some option.toBaseOption := by
    fin_cases hoption <;> rfl
  exact hvalues option hoption hknown rfl (Or.inr rfl) v hv

/-- Namespaces that are ignored by two options come back as one value. -/
theorem repeated_namespaces_are_merged :
    ¬ ∀ (option : BaseOption) (command_line : List (List Byte)) (m_map : TokenMap)
      (v : option.type.Value) (serialized : List Byte), option.m_keep = true →
      parse_token_map_with_current_info command_line (fun name =>
        if name = option.m_name then some option else none) (fun _ => none) false = .ok m_map →
      handle_typed_option m_map option = .ok (some v) →
      serialized_keep_options (fun _ => true) [⟨option, some v⟩] 0 = .ok serialized →
      ∃ m_map', parse_token_map_with_current_info (load_header_merge_options
        ⟨id, fun _ => .refl _⟩ (restored_options (fun _ => false) {} serialized)
        { command_line := [] } false).1.command_line (fun name =>
        if name = option.m_name then some option else none) (fun _ => none) false = .ok m_map' ∧
        handle_typed_option m_map' option = .ok (some v) := by
  intro h
  obtain ⟨m_map', hparse, hvalue⟩ := h { m_name := text "ignore", m_keep := true, type := .vector }
    [text "--ignore", text "ab", text "--ignore", text "ac"] _ [text "ab", text "ac"] _ rfl rfl rfl rfl
  obtain rfl := Except.ok.inj hparse
  exact absurd (Option.some.inj (Except.ok.inj hvalue)) (by decide)

end VW.Config
