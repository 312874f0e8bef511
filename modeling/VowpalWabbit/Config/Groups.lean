import VowpalWabbit.Config.Saving
import VowpalWabbit.Regressor.HeaderRoundTrip

/-! # The names and values in a header

    What a header gives back as options: the fields of the header itself that are
    options, the options that were kept, the merged ones, and the state of the random
    numbers. It comes apart into names with values, and loading collects the values of
    each name.
-/

open Cpp VW.Regressor

namespace VW.Config

open List

/-! ## The words of a header -/

/-- The options that a header has without any being kept. -/
def header_names : List (List Byte) :=
  [text "id", text "bit_precision", text "ngram", text "skips", text "random_seed"]

/-- The first three bytes of a definition. -/
def gram_text (definition : List Byte) : List Byte := (definition.take 3).takeWhile (· ≠ 0)

def header_groups (was_supplied : String → Bool) (all : Workspace) : OptionMap :=
  (if !was_supplied "id" && !(all.id.takeWhile (· ≠ 0)).isEmpty then
    [(text "id", [all.id.takeWhile (· ≠ 0)])] else []) ++
  (if !was_supplied "bit_precision" then
    [(text "bit_precision", [decimal all.num_bits.toNat])] else []) ++
  (all.ngram_definitions.map fun d => (text "ngram", [gram_text d])) ++
  (all.skip_definitions.map fun d => (text "skips", [gram_text d]))

/-- The texts of a header that stand among the options. -/
structure PlainHeader (all : Workspace) : Prop where
  id : all.id.takeWhile (· ≠ 0) ≠ [] → PlainText (all.id.takeWhile (· ≠ 0))
  ngrams : ∀ d ∈ all.ngram_definitions, PlainText (gram_text d)
  skips : ∀ d ∈ all.skip_definitions, PlainText (gram_text d)

/-- The names of a header, each with plain values. -/
structure PlainGroup (names : List (List Byte)) (kv : List Byte × List (List Byte)) : Prop where
  name : kv.1 ∈ names
  values_ne : kv.2 ≠ []
  values : ∀ s ∈ kv.2, PlainText s

variable {name : List Byte}

theorem plainGroup_singleton {names : List (List Byte)} {s : List Byte} (hname : name ∈ names)
    (hs : PlainText s) : PlainGroup names (name, [s]) :=
  ⟨hname, cons_ne_nil _ _, fun _ ht => mem_singleton.mp ht ▸ hs⟩

variable {all : Workspace}

theorem header_groups_plain (was_supplied : String → Bool) (h : PlainHeader all) :
    ∀ kv ∈ header_groups was_supplied all, PlainGroup header_names kv := by
  intro kv hkv
  unfold header_groups at hkv
  simp only [mem_append] at hkv
  rcases hkv with ((hkv | hkv) | hkv) | hkv
  · split at hkv
    · rename_i hid
      simp only [Bool.and_eq_true, Bool.not_eq_true', isEmpty_eq_false_iff] at hid
      rw [mem_singleton.mp hkv]
      exact plainGroup_singleton (by decide) (h.id hid.2)
    · cases hkv
  · split at hkv
    · rw [mem_singleton.mp hkv]
      exact plainGroup_singleton (by decide) (plainText_numeral (numeral_decimal _))
    · cases hkv
  · obtain ⟨d, hd, rfl⟩ := mem_map.mp hkv
    exact plainGroup_singleton (by decide) (h.ngrams d hd)
  · obtain ⟨d, hd, rfl⟩ := mem_map.mp hkv
    exact plainGroup_singleton (by decide) (h.skips d hd)

theorem seed_groups_plain (current_state : BitVec 64) :
    ∀ kv ∈ seed_groups current_state, PlainGroup header_names kv := by
  intro kv hkv
  unfold seed_groups at hkv
  split at hkv
  · rw [mem_singleton.mp hkv]
    exact plainGroup_singleton (by decide) (plainText_numeral (numeral_decimal _))
  · cases hkv

theorem spaced_append (ws vs : List (List Byte)) : spaced (ws ++ vs) = spaced ws ++ spaced vs :=
  flatMap_append

theorem gram_options_eq (name : String) (key : List Byte) (hname : text name = 32 :: (text "--" ++ key))
    (definitions : List (List Byte)) : gram_options name definitions =
      spaced ((definitions.map fun d => (key, [gram_text d])).flatMap option_words) := by
  have hspace : text " " = [32] := by decide
  unfold gram_options
  simp only [spaced, flatMap_map, flatMap_assoc]
  refine flatMap_congr fun d _ => ?_
  simp [option_words, hname, hspace, gram_text]

theorem restored_options_eq (was_supplied : String → Bool) (all : Workspace) {options : List Byte}
    (hnul : 0 ∉ options) : restored_options was_supplied all options =
      spaced ((header_groups was_supplied all).flatMap option_words) ++ 32 :: options := by
  have hspace : text " " = [32] := by decide
  have hwhole : options.takeWhile (· ≠ 0) = options := by
    rw [takeWhile_eq_self_iff]
    intro c hc
    have hne : c ≠ 0 := fun heq => hnul (heq ▸ hc)
    simpa using hne
  have hid : id_option was_supplied (all.id.takeWhile (· ≠ 0)) =
      spaced ((if !was_supplied "id" && !(all.id.takeWhile (· ≠ 0)).isEmpty then
        [(text "id", [all.id.takeWhile (· ≠ 0)])] else []).flatMap option_words) := by
    have hname : text " --id" = 32 :: (text "--" ++ text "id") := by decide
    unfold id_option
    split
    · simp [spaced, option_words, hname, hspace]
    · rfl
  have hbits : bits_option was_supplied all.num_bits =
      spaced ((if !was_supplied "bit_precision" then
        [(text "bit_precision", [decimal all.num_bits.toNat])] else []).flatMap option_words) := by
    have hname : text " --bit_precision" = 32 :: (text "--" ++ text "bit_precision") := by decide
    unfold bits_option
    split
    · simp [spaced, option_words, hname, hspace, decimal]
    · rfl
  have hngram : text " --ngram" = 32 :: (text "--" ++ text "ngram") := by decide
  have hskips : text " --skips" = 32 :: (text "--" ++ text "skips") := by decide
  unfold restored_options header_groups
  rw [hid, hbits, gram_options_eq _ _ hngram, gram_options_eq _ _ hskips, hwhole, hspace]
  simp only [flatMap_append, spaced_append, append_assoc, singleton_append]

/-! ## The words of the options -/

/-- The names and values of an option that is not merged. -/
def plain_groups (option : TypedOption) : OptionMap :=
  if option.m_name ∈ merged_names then []
  else
    match option.value with
    | some v => value_groups option.m_name option.type v
    | none => []

/-- The merged text of a name comes apart at its white space. -/
def merged_groups (sets : List Byte → OrderedSet char_order.toComparator) : OptionMap :=
  merged_names.flatMap fun name =>
    if (sets name).elements.isEmpty then [] else [(name, words (sets name).elements)]

/-- The options that are saved can be written, and no name is one of the header's. -/
structure Saved (was_supplied : List Byte → Bool) (options : List TypedOption) : Prop where
  nodup : (options.map fun option => option.m_name).Nodup
  parsed : ∀ option ∈ kept was_supplied options, Parsed option
  name : ∀ option ∈ kept was_supplied options,
    WrittenName option.m_name ∧ option.m_name ∉ header_names
  plain : ∀ option ∈ kept was_supplied options, option.m_name ∉ merged_names →
    ∀ v, option.value = some v → Restorable option.type v
  merged : ∀ option ∈ kept was_supplied options, option.m_name ∈ merged_names →
    0 ∉ saved_chars option

variable {was_supplied : List Byte → Bool} {options : List TypedOption}

theorem plain_groups_spec (h : Saved was_supplied options) {option : TypedOption}
    (hoption : option ∈ kept was_supplied options) :
    saved_text option = spaced ((plain_groups option).flatMap option_words) ∧
    ∀ kv ∈ plain_groups option, kv.1 = option.m_name ∧ ∀ s ∈ kv.2, PlainText s := by
  unfold saved_text plain_groups
  by_cases hmerged : option.m_name ∈ merged_names
  · rw [if_pos hmerged, if_pos hmerged]
    exact ⟨rfl, fun kv hkv => absurd hkv not_mem_nil⟩
  · obtain ⟨v, hv⟩ := Option.isSome_iff_exists.mp (h.parsed option hoption).value
    rw [if_neg hmerged, if_neg hmerged, hv]
    exact ⟨serialize_value_eq option.m_name option.type v,
      (value_groups_spec (h.plain option hoption hmerged v hv)).1⟩

theorem written_merged_name (h : name ∈ merged_names) : WrittenName name := by
  have hnames : ∀ n ∈ merged_names,
      n ≠ [] ∧ 61 ∉ n ∧ n ≠ POSITIONAL ∧ (∀ c ∈ n, is_space c = false) ∧ 0 ∉ n := by decide
  obtain ⟨hne, hequal, hpositional, hspace, hnul⟩ := hnames name h
  exact ⟨⟨hne, hequal, hpositional⟩, hspace, hnul⟩

theorem written_header_name (h : name ∈ header_names) : WrittenName name := by
  have hnames : ∀ n ∈ header_names,
      n ≠ [] ∧ 61 ∉ n ∧ n ≠ POSITIONAL ∧ (∀ c ∈ n, is_space c = false) ∧ 0 ∉ n := by decide
  obtain ⟨hne, hequal, hpositional, hspace, hnul⟩ := hnames name h
  exact ⟨⟨hne, hequal, hpositional⟩, hspace, hnul⟩

variable {groups : OptionMap}

theorem splits_groups (h : ∀ kv ∈ groups, WrittenName kv.1 ∧ ∀ s ∈ kv.2, PlainText s) :
    Splits (spaced (groups.flatMap option_words)) (groups.flatMap option_words) := by
  refine splits_spaced fun w hw => ?_
  obtain ⟨kv, hkv, hmem⟩ := mem_flatMap.mp hw
  obtain ⟨hname, hvalues⟩ := h kv hkv
  rcases mem_cons.mp hmem with rfl | hmem
  · exact isWord_name hname
  · exact (hvalues w hmem).word

theorem splits_merged (sets : List Byte → OrderedSet char_order.toComparator) :
    Splits (merged_names.flatMap (merged_option sets)) ((merged_groups sets).flatMap option_words) := by
  have hdashes : text " --" = 32 :: text "--" := by decide
  have hspace : text " " = [32] := by decide
  unfold merged_groups
  rw [flatMap_assoc]
  refine Splits.flatMap fun name hname => ?_
  have hword := words_word (isWord_name (written_merged_name hname))
  unfold merged_option
  split
  · exact splits_nil
  · rw [flatMap_singleton, hdashes, hspace]
    refine ⟨fun rest => ?_, Or.inr ⟨_, rfl⟩⟩
    have hsplit : 32 :: text "--" ++ name ++ ([32] ++ (sets name).elements) ++ 32 :: rest =
        32 :: (text "--" ++ name ++ 32 :: ((sets name).elements ++ 32 :: rest)) := by simp
    rw [hsplit, words_space, words_append, words_append, hword]
    rfl

/-- All names and values of a header. -/
def saved_groups (header_was_supplied : String → Bool) (all : Workspace)
    (was_supplied : List Byte → Bool) (options : List TypedOption) (current_state : BitVec 64) :
    OptionMap :=
  header_groups header_was_supplied all ++ ((kept was_supplied options).flatMap plain_groups ++
    (merged_groups (merged_chars (kept was_supplied options)) ++ seed_groups current_state))

/-- The bytes of all merged values. -/
theorem mem_merged_chars (options : List TypedOption) (name : List Byte) (c : Byte) :
    c ∈ (merged_chars options name).elements ↔
      ∃ option ∈ options, option.m_name = name ∧ c ∈ saved_chars option := by
  unfold merged_chars
  rw [LinearComparator.mem_insert_range_iff]
  simp [OrderedSet.empty, and_assoc]

theorem mem_spaced {ws : List (List Byte)} {c : Byte} :
    c ∈ spaced ws ↔ ∃ w ∈ ws, c = 32 ∨ c ∈ w := by
  unfold spaced
  simp [mem_flatMap]

theorem nul_not_mem_groups (h : ∀ kv ∈ groups, WrittenName kv.1 ∧ ∀ s ∈ kv.2, PlainText s) :
    0 ∉ spaced (groups.flatMap option_words) := by
  rw [mem_spaced]
  rintro ⟨w, hw, hzero | hzero⟩
  · exact absurd hzero (by decide)
  · obtain ⟨kv, hkv, hmem⟩ := mem_flatMap.mp hw
    obtain ⟨hname, hvalues⟩ := h kv hkv
    rcases mem_cons.mp hmem with rfl | hmem
    · rcases mem_append.mp hzero with hzero | hzero
      · exact absurd hzero (by decide)
      · exact hname.no_nul hzero
    · exact (hvalues w hmem).no_nul hzero

theorem nul_not_mem_merged (h : Saved was_supplied options) :
    0 ∉ merged_names.flatMap (merged_option (merged_chars (kept was_supplied options))) := by
  intro hzero
  obtain ⟨name, hname, hmem⟩ := mem_flatMap.mp hzero
  unfold merged_option at hmem
  split at hmem
  · cases hmem
  · simp only [mem_append] at hmem
    rcases hmem with (hmem | hmem) | hmem | hmem
    · exact absurd hmem (by decide)
    · exact (written_merged_name hname).no_nul hmem
    · exact absurd hmem (by decide)
    · obtain ⟨option, hoption, rfl, hc⟩ := (mem_merged_chars _ _ _).mp hmem
      exact h.merged option hoption hname hc

/-- The text is written, and comes apart into the names and values. -/
theorem words_saved (h : Saved was_supplied options) (current_state : BitVec 64)
    (header_was_supplied : String → Bool) (hall : PlainHeader all) :
    ∃ serialized, serialized_keep_options was_supplied options current_state = .ok serialized ∧
      words (restored_options header_was_supplied all serialized) =
        (saved_groups header_was_supplied all was_supplied options current_state).flatMap
          option_words := by
  have hheader : ∀ kv ∈ header_groups header_was_supplied all,
      WrittenName kv.1 ∧ ∀ s ∈ kv.2, PlainText s := by
    intro kv hkv
    have hplain := header_groups_plain header_was_supplied hall kv hkv
    exact ⟨written_header_name hplain.name, hplain.values⟩
  have hseed : ∀ kv ∈ seed_groups current_state, WrittenName kv.1 ∧ ∀ s ∈ kv.2, PlainText s := by
    intro kv hkv
    have hplain := seed_groups_plain current_state kv hkv
    exact ⟨written_header_name hplain.name, hplain.values⟩
  have hkept : ∀ kv ∈ (kept was_supplied options).flatMap plain_groups,
      WrittenName kv.1 ∧ ∀ s ∈ kv.2, PlainText s := by
    intro kv hkv
    obtain ⟨option, hoption, hmem⟩ := mem_flatMap.mp hkv
    obtain ⟨hname, hvalues⟩ := (plain_groups_spec h hoption).2 kv hmem
    exact ⟨hname ▸ (h.name option hoption).1, hvalues⟩
  have htext : (kept was_supplied options).flatMap saved_text =
      spaced (((kept was_supplied options).flatMap plain_groups).flatMap option_words) := by
    simp only [spaced, flatMap_assoc]
    refine flatMap_congr fun option hoption => ?_
    rw [(plain_groups_spec h hoption).1, spaced, flatMap_assoc]
  refine ⟨_, serialized_eq was_supplied options h.parsed current_state, ?_⟩
  have hnul : 0 ∉ (kept was_supplied options).flatMap saved_text ++
      merged_names.flatMap (merged_option (merged_chars (kept was_supplied options))) ++
      spaced ((seed_groups current_state).flatMap option_words) := by
    rw [htext, mem_append, mem_append, not_or, not_or]
    exact ⟨⟨nul_not_mem_groups hkept, nul_not_mem_merged h⟩, nul_not_mem_groups hseed⟩
  have hmerged := splits_merged (merged_chars (kept was_supplied options))
  have hsplits := ((splits_groups hkept).append hmerged).append (splits_groups hseed)
  rw [restored_options_eq header_was_supplied all hnul, (splits_groups hheader).words_eq, htext,
    hsplits.words]
  unfold saved_groups
  simp only [flatMap_append, append_assoc]

end VW.Config
