import VowpalWabbit.Config.Parsing
import VowpalWabbit.Framework.NumeralTokens

/-! # What the options of a model are written as

    The text in the header is a list of names with their values, each word behind a
    space. The namespaces of the merged options stand in it as one text, which comes
    apart at the white space among them.
-/

open Cpp LinearComparator

namespace VW.Config

open List

/-! ## Texts that come apart into words -/

/-- A piece of text, and the words it comes apart into, whatever follows it. -/
structure Splits (s : List Byte) (ws : List (List Byte)) : Prop where
  words_eq : ∀ rest, words (s ++ 32 :: rest) = ws ++ words rest
  space : s = [] ∨ ∃ t, s = 32 :: t

theorem splits_nil : Splits [] [] := ⟨fun rest => words_space rest, Or.inl rfl⟩

variable {ws : List (List Byte)}

theorem splits_spaced (h : ∀ w ∈ ws, IsWord w) : Splits (spaced ws) ws := by
  refine ⟨words_spaced_append h, ?_⟩
  cases ws with
  | nil => exact Or.inl rfl
  | cons w ws => exact Or.inr ⟨w ++ spaced ws, rfl⟩

theorem Splits.append {s t : List Byte} {ws vs : List (List Byte)} (hs : Splits s ws)
    (ht : Splits t vs) : Splits (s ++ t) (ws ++ vs) := by
  constructor
  · intro rest
    rw [append_assoc, append_assoc]
    rcases ht.space with rfl | ⟨t', rfl⟩
    · have hnil := ht.words_eq rest
      rw [nil_append, words_space] at hnil
      rw [nil_append, hs.words_eq rest, ← hnil]
    · rw [cons_append, hs.words_eq, ← words_space, ← cons_append, ht.words_eq rest]
  · rcases hs.space with rfl | ⟨s', rfl⟩
    · exact ht.space
    · exact Or.inr ⟨s' ++ t, rfl⟩

theorem Splits.flatMap {T : Type} {l : List T} {f : T → List Byte} {g : T → List (List Byte)}
    (h : ∀ a ∈ l, Splits (f a) (g a)) : Splits (l.flatMap f) (l.flatMap g) := by
  induction l with
  | nil => exact splits_nil
  | cons a l ih =>
    rw [flatMap_cons, flatMap_cons]
    exact (h a mem_cons_self).append (ih fun b hb => h b (mem_cons_of_mem a hb))

variable {s : List Byte}

theorem Splits.words (h : Splits s ws) : words s = ws := by
  have hend := h.words_eq []
  have hwords : Config.words [] = [] := rfl
  rw [words_append, hwords, append_nil, append_nil] at hend
  exact hend

/-! ## Values -/

/-- A text that is one word, also as a C string, and is not taken for an option. -/
structure PlainText (s : List Byte) : Prop where
  word : IsWord s
  no_nul : 0 ∉ s
  not_option : is_option_like s = false

theorem plainText_numeral (h : Numeral s) : PlainText s := by
  refine ⟨⟨h.ne_nil, h.no_space⟩, h.no_nul, ?_⟩
  have hnumber : is_number s = true := by
    have htake : s.takeWhile (· ≠ 0) = s := by
      rw [takeWhile_eq_self_iff]
      intro c hc
      have hne : c ≠ 0 := fun heq => h.no_nul (heq ▸ hc)
      simpa using hne
    unfold is_number
    rw [htake, h.strtof_rest_eq]
    simpa using h.ne_nil
  have hdashes : text "--" = [45, 45] := by decide
  -- There are no two dashes in front of a number.
  have htwo : s.take 2 ≠ [45, 45] := by
    obtain ⟨c, cs, rfl, hbegins⟩ := h.begins
    intro heq
    cases cs with
    | nil => cases heq
    | cons d ds =>
      obtain ⟨hc, hd⟩ := cons.inj heq
      rcases hbegins with hne | ⟨d', ds', hcs, hne⟩
      · exact hne hc
      · exact hne ((cons.inj hcs).1 ▸ (cons.inj hd).1)
  have hlong : (s.take 2 == [45, 45]) = false := by simpa using htwo
  have hterminator : (s == [45, 45]) = false := by
    rw [beq_eq_false_iff_ne]
    rintro rfl
    exact htwo rfl
  unfold is_option_like is_long_option_like is_short_option_like is_terminator
  rw [hnumber, hdashes, hlong, hterminator]
  simp

/-- The values that are read as they were written. -/
def Restorable : (type : OptionType) → type.Value → Prop
  | .float, v => v.magnitude < Single.infinity.magnitude
  | .string, v => PlainText v
  | .bool, v => v = true
  | .vector, v => v ≠ [] ∧ ∀ s ∈ v, PlainText s
  | _, _ => True

def value_tokens : (type : OptionType) → type.Value → List (List Byte)
  | .bool, _ => []
  | .vector, v => v
  | type, v => [print_value 15 type v]

/-- The names and values that a value is written as. -/
def value_groups (m_name : List Byte) : (type : OptionType) → type.Value → OptionMap
  | .bool, v => bif v then [(m_name, [])] else []
  | .vector, v => v.map fun value => (m_name, [value])
  | type, v => [(m_name, [print_value 15 type v])]

/-- A name that can be written and given as `--name`. -/
structure WrittenName (name : List Byte) : Prop extends PlainName name where
  no_space : ∀ c ∈ name, is_space c = false
  no_nul : 0 ∉ name

theorem isWord_name {name : List Byte} (h : WrittenName name) : IsWord (text "--" ++ name) := by
  refine ⟨by simp [text], fun c hc => ?_⟩
  rcases mem_append.mp hc with hc | hc
  · have hdashes : text "--" = [45, 45] := by decide
    rw [hdashes] at hc
    have hdash : c = 45 := by simpa using hc
    rw [hdash]
    decide
  · exact h.no_space c hc

variable {type : OptionType} {v : type.Value}

theorem plainText_print (h : Restorable type v) (htype : type ≠ .bool ∧ type ≠ .vector) :
    PlainText (print_value 15 type v) := by
  cases type with
  | uint32 => exact plainText_numeral (numeral_decimal _)
  | uint64 => exact plainText_numeral (numeral_decimal _)
  | int32 => exact plainText_numeral (numeral_print_integer _)
  | int64 => exact plainText_numeral (numeral_print_integer _)
  | float => exact plainText_numeral (numeral_print 14 h)
  | string => exact h
  | bool => exact absurd rfl htype.1
  | vector => exact absurd rfl htype.2

/-- The words of a restorable value are plain. -/
theorem plainText_tokens (h : Restorable type v) : ∀ s ∈ value_tokens type v, PlainText s := by
  cases type with
  | bool => exact fun s hs => absurd hs not_mem_nil
  | vector => exact h.2
  | uint32 | uint64 | int32 | int64 | float | string =>
    intro s hs
    rw [mem_singleton.mp hs]
    exact plainText_print h (by decide)

theorem value_groups_spec {m_name : List Byte} {type : OptionType} {v : type.Value}
    (h : Restorable type v) :
    (∀ kv ∈ value_groups m_name type v, kv.1 = m_name ∧ ∀ s ∈ kv.2, PlainText s) ∧
    value_groups m_name type v ≠ [] ∧
    (value_groups m_name type v).flatMap Prod.snd = value_tokens type v := by
  have hplain := plainText_tokens h
  cases type with
  | bool =>
    obtain rfl : v = true := h
    exact ⟨by simp [value_groups], cons_ne_nil _ _, rfl⟩
  | vector =>
    refine ⟨?_, ?_, ?_⟩
    · intro kv hkv
      obtain ⟨s, hs, rfl⟩ := mem_map.mp hkv
      exact ⟨rfl, fun t ht => mem_singleton.mp ht ▸ hplain s hs⟩
    · exact fun hnil => h.1 (map_eq_nil_iff.mp hnil)
    · show (map _ v).flatMap _ = v
      rw [flatMap_map]
      exact flatMap_singleton' v
  | uint32 | uint64 | int32 | int64 | float | string =>
    refine ⟨fun kv hkv => ?_, cons_ne_nil _ _, rfl⟩
    rw [mem_singleton.mp hkv]
    exact ⟨rfl, hplain⟩

theorem serialize_value_eq (m_name : List Byte) (type : OptionType) (v : type.Value) :
    serialize_value m_name type v = spaced ((value_groups m_name type v).flatMap option_words) := by
  have hdashes : text " --" = 32 :: text "--" := by decide
  have hspace : text " " = [32] := by decide
  cases type with
  | bool =>
    cases v with
    | true => simp [serialize_value, value_groups, option_words, spaced, hdashes]
    | false => rfl
  | vector =>
    simp only [serialize_value, value_groups, spaced, flatMap_map, flatMap_assoc]
    refine flatMap_congr fun s _ => ?_
    simp [option_words, hdashes, hspace]
  | uint32 | uint64 | int32 | int64 | float | string =>
    simp [serialize_value, value_groups, option_words, spaced, hdashes, hspace]

/-! ## The loop over the options -/

/-- The options that are saved. -/
def kept (was_supplied : List Byte → Bool) (options : List TypedOption) : List TypedOption :=
  options.filter fun option => option.m_keep && was_supplied option.m_name

theorem kept_cons (was_supplied : List Byte → Bool) (option : TypedOption)
    (options : List TypedOption) : kept was_supplied (option :: options) =
      if option.m_keep && was_supplied option.m_name then option :: kept was_supplied options
      else kept was_supplied options := filter_cons

/-- What an option adds to the text at once. -/
def saved_text (option : TypedOption) : List Byte :=
  if option.m_name ∈ merged_names then []
  else
    match option.value with
    | some v => serialize_value option.m_name option.type v
    | none => []

/-- The namespaces of an option whose values are merged. -/
def saved_chars (option : TypedOption) : List Byte :=
  match option with
  | ⟨⟨_, _, _, _, .vector, _⟩, some v⟩ => v.flatten
  | _ => []

/-- All namespaces that are saved for a name. -/
def merged_chars (options : List TypedOption) (name : List Byte) : OrderedSet char_order.toComparator :=
  insert_range .empty
    ((options.filter fun option => option.m_name = name).flatMap saved_chars)

/-- An option that was parsed. -/
structure Parsed (option : TypedOption) : Prop where
  value : option.value.isSome
  merged : option.m_name ∈ merged_names → option.type = .vector

theorem merge_value_eq {option : TypedOption} (h : Parsed option)
    (hmerged : option.m_name ∈ merged_names) (s : SaveState) :
    merge_value s option = .ok { s with
      merged_values := Function.update s.merged_values option.m_name
        (insert_range (s.merged_values option.m_name) (saved_chars option)) } := by
  obtain ⟨hvalue, htype⟩ := h
  obtain ⟨⟨m_name, short, keep, allow, type, default⟩, value⟩ := option
  obtain rfl : type = .vector := htype hmerged
  cases value with
  | none => cases hvalue
  | some v => rfl

theorem save_options_returns (was_supplied : List Byte → Bool) (options : List TypedOption)
    (h : ∀ option ∈ kept was_supplied options, Parsed option) : ∀ s : SaveState,
    Outcome.Returns (options.foldlM (save_option was_supplied) s) fun s' =>
      s'.serializer = s.serializer ++ (kept was_supplied options).flatMap saved_text ∧
      ∀ name ∈ merged_names, s'.merged_values name =
        insert_range (s.merged_values name)
          (((kept was_supplied options).filter fun option => option.m_name = name).flatMap
            saved_chars) := by
  induction options with
  | nil => exact fun s => Outcome.Returns.ok ⟨(append_nil _).symm, fun _ _ => rfl⟩
  | cons option options ih =>
    intro s
    rw [foldlM_cons]
    rw [kept_cons] at h ⊢
    by_cases hkeep : (option.m_keep && was_supplied option.m_name) = true
    · rw [if_pos hkeep] at h ⊢
      have hparsed := h option mem_cons_self
      have hrest := ih fun o ho => h o (mem_cons_of_mem option ho)
      unfold save_option
      rw [if_pos hkeep]
      by_cases hmerged : option.m_name ∈ merged_names
      · rw [if_pos hmerged, merge_value_eq hparsed hmerged, Outcome.ok_bind]
        refine (hrest _).mono fun s' hs' => ⟨?_, fun name hname => ?_⟩
        · rw [hs'.1, flatMap_cons, saved_text, if_pos hmerged, nil_append]
        · rw [hs'.2 name hname]
          simp only
          by_cases heq : option.m_name = name
          · subst heq
            rw [filter_cons_of_pos (by simp), flatMap_cons, Function.update_self]
            unfold insert_range
            rw [foldl_append]
          · rw [filter_cons_of_neg (by simpa using heq), Function.update_of_ne (Ne.symm heq)]
      · obtain ⟨v, hv⟩ := Option.isSome_iff_exists.mp hparsed.value
        have hserialize : serialize option = .ok (saved_text option) := by
          unfold serialize saved_text
          rw [if_neg hmerged, hv]
        rw [if_neg hmerged, hserialize]
        refine (hrest { s with serializer := s.serializer ++ saved_text option }).mono
          fun s' hs' => ⟨?_, fun name hname => ?_⟩
        · rw [hs'.1, flatMap_cons, append_assoc]
        · have hne : option.m_name ≠ name := fun heq => hmerged (heq ▸ hname)
          rw [hs'.2 name hname, filter_cons_of_neg (by simpa using hne)]
    · rw [if_neg hkeep] at h ⊢
      unfold save_option
      rw [if_neg hkeep, Outcome.ok_bind]
      exact ih h s

/-- The state of the random numbers, when it is not zero. -/
def seed_groups (current_state : BitVec 64) : OptionMap :=
  if current_state ≠ 0 then [(text "random_seed", [decimal current_state.toNat])] else []

theorem serialized_eq (was_supplied : List Byte → Bool) (options : List TypedOption)
    (h : ∀ option ∈ kept was_supplied options, Parsed option) (current_state : BitVec 64) :
    serialized_keep_options was_supplied options current_state =
      .ok ((kept was_supplied options).flatMap saved_text ++
        merged_names.flatMap (merged_option (merged_chars (kept was_supplied options))) ++
        spaced ((seed_groups current_state).flatMap option_words)) := by
  obtain ⟨s, hs, hserializer, hmerged⟩ := save_options_returns was_supplied options h {}
  have hsets : merged_names.flatMap (merged_option s.merged_values) =
      merged_names.flatMap (merged_option (merged_chars (kept was_supplied options))) := by
    refine flatMap_congr fun name hname => ?_
    unfold merged_option
    rw [hmerged name hname]
    rfl
  have hseed : (if current_state ≠ 0 then
      text " --random_seed" ++ (text " " ++ decimal current_state.toNat) else []) =
      spaced ((seed_groups current_state).flatMap option_words) := by
    have hname : text " --random_seed" = 32 :: text "--random_seed" := by decide
    have hname' : text "--" ++ text "random_seed" = text "--random_seed" := by decide
    have hspace : text " " = [32] := by decide
    unfold seed_groups
    split
    · simp [spaced, option_words, hname, hname', hspace]
    · rfl
  unfold serialized_keep_options
  rw [hs, Outcome.ok_bind]
  rw [hserializer, hsets, hseed]
  rfl

end VW.Config
