import VowpalWabbit.Config.KeepRoundTrip
import VowpalWabbit.Config.Terminator

/-! # Ignored and kept namespaces in a model

    `parse_feature_tweaks` of `core/parse_args.cc` marks the namespaces that the values
    of `--ignore`, `--ignore_linear` and `--keep` name, each value with its hex escapes
    decoded. The model has the characters of the values as they were typed, in one
    text that comes apart at its white space.
-/

open Cpp VW.Regressor

namespace VW.Config

open List

/-! ## Decoding -/

/-- The value of a hexadecimal digit. -/
def xdigit (c : Byte) : Option Nat :=
  if is_digit c then some (c.toNat - 48)
  else if 65 ≤ c.toNat ∧ c.toNat ≤ 70 then some (c.toNat - 55)
  else if 97 ≤ c.toNat ∧ c.toNat ≤ 102 then some (c.toNat - 87)
  else none

/-- The digits at the beginning, as a number, and what follows them. -/
def scan_xdigits (value : Nat) : List Byte → Nat × List Byte
  | [] => (value, [])
  | c :: cs =>
    match xdigit c with
    | some d => scan_xdigits (16 * value + d) cs
    | none => (value, c :: cs)

/-- `strtoul` of a text of two characters, to the base 16: the value, as it is after a
    cast to `char`, and what follows the number. Nothing is a number without digits. -/
def strtoul (s : List Byte) : Byte × List Byte :=
  let t := s.dropWhile is_space
  let unsigned := if t.head? = some 45 ∨ t.head? = some 43 then t.drop 1 else t
  let (value, rest) := scan_xdigits 0 unsigned
  if rest.length = unsigned.length then (0, s)
  else (if t.head? = some 45 then -(BitVec.ofNat 8 value) else BitVec.ofNat 8 value, rest)

/-- `decode_inline_hex`: the last characters are too few for an escape. -/
def decode_inline_hex : List Byte → List Byte
  | c :: d :: a :: b :: arg =>
    if c = 92 ∧ d = 120 then
      match strtoul ([a, b].takeWhile (· ≠ 0)) with
      | (value, []) => value :: decode_inline_hex arg
      -- Possibly malformed.
      | _ => c :: decode_inline_hex (d :: a :: b :: arg)
    else c :: decode_inline_hex (d :: a :: b :: arg)
  | arg => arg

example : decode_inline_hex (text "\\x01 unrelated \\x56") = 1 :: text " unrelated V" := by decide

/-! ## Feature tweaks -/

/-- Sets the entries of an array that the values name. -/
def set_named (value : Bool) (values : List (List Byte)) (array : Byte → Bool) : Byte → Bool :=
  values.foldl
    (fun array i => (decode_inline_hex i).foldl (fun array j => Function.update array j value) array)
    array

structure FeatureTweaksConfig where
  ignore : Byte → Bool
  ignore_some : Bool
  ignore_linear : Byte → Bool
  ignore_some_linear : Bool

/-- The part of `parse_feature_tweaks` about ignored namespaces; a value is there when
    the option was supplied. -/
def parse_feature_tweaks (ignores ignore_linears keeps : Option (List (List Byte))) :
    FeatureTweaksConfig :=
  let config : FeatureTweaksConfig := ⟨fun _ => false, false, fun _ => false, false⟩
  let config :=
    match ignores with
    | some ignores => { config with
        ignore_some := true, ignore := set_named true ignores config.ignore }
    | none => config
  let config :=
    match ignore_linears with
    | some ignore_linears => { config with
        ignore_some_linear := true, ignore_linear := set_named true ignore_linears config.ignore_linear }
    | none => config
  match keeps with
  | some keeps => { config with
      ignore_some := true, ignore := set_named false keeps fun _ => true }
  | none => config

/-- The bytes that values name. -/
def named (values : List (List Byte)) : List Byte := values.flatMap decode_inline_hex

theorem mem_named_append (values values' : List (List Byte)) (b : Byte) :
    b ∈ named (values ++ values') ↔ b ∈ named values ∨ b ∈ named values' := by
  unfold named
  rw [flatMap_append, mem_append]

theorem set_named_eq (value : Bool) (values : List (List Byte)) (array : Byte → Bool) (b : Byte) :
    set_named value values array b = if b ∈ named values then value else array b := by
  have hbytes : ∀ (s : List Byte) (array : Byte → Bool),
      s.foldl (fun array j => Function.update array j value) array b =
        if b ∈ s then value else array b := by
    intro s
    induction s with
    | nil => exact fun array => rfl
    | cons c s ih =>
      intro array
      rw [foldl_cons, ih]
      by_cases hs : b ∈ s
      · rw [if_pos hs, if_pos (mem_cons_of_mem c hs)]
      · by_cases hc : b = c
        · rw [if_neg hs, if_pos (hc ▸ mem_cons_self), hc, Function.update_self]
        · rw [if_neg hs, if_neg (by simp [hc, hs]), Function.update_of_ne hc]
  unfold set_named named
  rw [← foldl_flatMap]
  exact hbytes _ array

/-- A namespace is ignored when it is not kept, or without `--keep` when it is named by
    `--ignore`. -/
theorem ignore_eq (ignores ignore_linears keeps : Option (List (List Byte))) (b : Byte) :
    (parse_feature_tweaks ignores ignore_linears keeps).ignore b =
      if keeps.isSome then decide (b ∉ named (keeps.getD [])) else decide (b ∈ named (ignores.getD [])) := by
  have hset (value : Bool) (values : List (List Byte)) (array : Byte → Bool) :=
    set_named_eq value values array b
  unfold parse_feature_tweaks
  cases keeps with
  | some keeps =>
    show set_named false keeps (fun _ => true) b = _
    rw [hset]
    by_cases hb : b ∈ named keeps <;> simp [hb]
  | none =>
    cases ignore_linears <;> cases ignores with
    | none => rfl
    | some ignores =>
      show set_named true ignores (fun _ => false) b = _
      rw [hset]
      by_cases hb : b ∈ named ignores <;> simp [hb]

theorem ignore_linear_eq (ignores ignore_linears keeps : Option (List (List Byte))) (b : Byte) :
    (parse_feature_tweaks ignores ignore_linears keeps).ignore_linear b =
      decide (b ∈ named (ignore_linears.getD [])) := by
  unfold parse_feature_tweaks
  cases keeps <;> cases ignores <;> cases ignore_linears with
  | none => rfl
  | some values =>
    show set_named true values (fun _ => false) b = _
    rw [set_named_eq]
    by_cases hb : b ∈ named values <;> simp [hb]

/-! ## A list without a value -/

variable {name : List Byte} {opt : BaseOption} {command_line : List (List Byte)}

section Ends

variable {known : KnownOptions} {shorts : KnownShortOptions}

theorem Names.option_like {token : List Byte} {given : List (List Byte)}
    (h : Names known shorts token opt given) : is_option_like token = true := by
  have hlong {name : List Byte} (hne : name ≠ []) : is_option_like (text "--" ++ name) = true := by
    unfold is_option_like
    rw [long_option_of_name hne]
    rfl
  cases h with
  | long hne => exact hlong hne
  | inline hne => exact hlong (by simp)
  | short hshort | compound _ hshort =>
    unfold is_option_like
    rw [hshort, Bool.or_true]
    rfl

theorem suffix_pair {T : Type} {rest pre : List T} {a b : T} (h : rest <:+ pre ++ [a, b]) :
    rest = [] ∨ rest = [b] ∨ ∃ pre', rest = pre' ++ [a, b] := by
  obtain ⟨front, hfront⟩ := h
  rcases eq_nil_or_concat' rest with rfl | ⟨rest', last, rfl⟩
  · exact Or.inl rfl
  · have hsplit : pre ++ [a, b] = (pre ++ [a]) ++ [b] := by simp
    rw [hsplit, ← append_assoc] at hfront
    obtain ⟨hinit, hlast⟩ := append_inj' hfront rfl
    obtain rfl := singleton_inj.mp hlast
    rcases eq_nil_or_concat' rest' with rfl | ⟨rest'', last', rfl⟩
    · exact Or.inr (Or.inl rfl)
    · rw [← append_assoc] at hinit
      obtain rfl := singleton_inj.mp (append_inj' hinit rfl).2
      exact Or.inr (Or.inr ⟨rest'', by simp⟩)

variable {value : List Byte}

/-- An item that ends a command line takes the last token for a value when the one in
    front of it is a name. -/
theorem Begins.ends_in_pair {item : Item} {pre : List (List Byte)}
    (hname : is_option_like name = true) (hvalue : is_option_like value = false)
    (h : Begins known shorts false (pre ++ [value, name]) item []) : False := by
  generalize hline : pre ++ [value, name] = line at h
  cases h with
  | positional hunclaimed _ =>
    have hlen := congrArg length hline
    simp at hlen
  | @option token opt given taken _ hnames htakes =>
    rw [append_nil] at hline
    cases pre with
    | nil =>
      -- The value would be the name of the option.
      have hlike := hnames.option_like
      rw [← (cons.inj hline).1, hvalue] at hlike
      cases hlike
    | cons first values =>
      obtain rfl : values ++ [value, name] = taken := (cons.inj hline).2
      by_cases hvector : opt.type = .vector
      · -- Only the first value of a list may look like an option.
        obtain ⟨-, htail, -⟩ := (takes_vector hvector).mp htakes
        have hmem : name ∈ (given ++ (values ++ [value, name])).tail := by
          have hsplit : given ++ (values ++ [value, name]) = (given ++ values ++ [value]) ++ [name] := by
            simp
          rw [hsplit, tail_append_of_ne_nil (by simp)]
          exact mem_append_right _ (mem_singleton_self name)
        rw [htail name hmem] at hname
        cases hname
      · by_cases hbool : opt.type = .bool
        · have hnil := (takes_bool hbool).mp htakes
          simp at hnil
        · have hone := (takes_single hbool hvector).mp htakes
          simp at hone
          omega
  | terminator hhandle => cases hhandle

/-- The name of a list at the end of a command line, behind a value, has no value. -/
theorem not_accounts_list (hnames : Names known shorts name opt []) (hvector : opt.type = .vector)
    (hvalue : is_option_like value = false) {last : List (List Byte)} {items : List Item}
    (hlast : last = []) (h : Accounts known shorts false command_line items last) :
    command_line ≠ [name] ∧ ∀ pre, command_line ≠ pre ++ [value, name] := by
  induction h with
  | done last =>
    subst hlast
    exact ⟨(cons_ne_nil _ _).symm, fun pre heq => by simp at heq⟩
  | @item command_line rest last item items hbegins haccounts ih =>
    obtain ⟨hone, hpair⟩ := ih hlast
    have htokens := hbegins.tokens
    constructor
    · intro heq
      subst heq
      generalize hline : [name] = line at hbegins
      cases hbegins with
      | positional hunclaimed _ =>
        obtain ⟨given, hplan⟩ := hunclaimed.plan
        rw [← (cons.inj hline).1, hnames.plan] at hplan
        cases hplan
      | @option token opt' given taken _ hnames' htakes =>
        -- It would be the option without a value.
        obtain ⟨rfl, hnone⟩ := cons.inj hline
        obtain ⟨hopt, rfl⟩ := Prod.mk.inj (Except.ok.inj (hnames'.plan.symm.trans hnames.plan))
        obtain rfl := Option.some.inj hopt
        obtain ⟨rfl, rfl⟩ := append_eq_nil_iff.mp hnone.symm
        exact ((takes_vector hvector).mp htakes).1 rfl
      | terminator hhandle => cases hhandle
    · intro pre heq
      have hsuffix : rest <:+ pre ++ [value, name] := heq ▸ ⟨item.tokens, htokens.symm⟩
      rcases suffix_pair hsuffix with rfl | hrest | ⟨pre', hrest⟩
      · rw [heq] at hbegins
        exact hbegins.ends_in_pair hnames.option_like hvalue
      · exact hone hrest
      · exact hpair pre' hrest

end Ends

/-! ## Saved characters -/

/-- What follows `\x` in the order of the characters is no hexadecimal number. -/
theorem strtoul_of_greater {a b : Byte} (ha : char_order.lt 120 a = true) :
    ∃ value c rest, strtoul ([a, b].takeWhile (· ≠ 0)) = (value, c :: rest) := by
  have hbytes : ∀ a : Byte, char_order.lt 120 a = true →
      a ≠ 0 ∧ is_space a = false ∧ a ≠ 45 ∧ a ≠ 43 ∧ xdigit a = none := by decide
  obtain ⟨hnul, hspace, hminus, hplus, hdigit⟩ := hbytes a ha
  have htake : [a, b].takeWhile (· ≠ 0) = a :: [b].takeWhile (· ≠ 0) :=
    takeWhile_cons_of_pos (by simpa using hnul)
  rw [htake]
  unfold strtoul
  have hdrop : (a :: [b].takeWhile (· ≠ 0)).dropWhile is_space = a :: [b].takeWhile (· ≠ 0) :=
    dropWhile_cons_of_neg (by simp [hspace])
  simp only [hdrop, head?_cons, Option.some.injEq, hminus, hplus, or_self, if_false]
  rw [scan_xdigits, hdigit]
  simp

/-- Characters in their order have no escape. -/
theorem decode_ascending (s : List Byte) (h : s.Pairwise (char_order.lt · · = true)) :
    decode_inline_hex s = s := by
  induction s using decode_inline_hex.induct with
  | case1 c d a b arg hx value hvalue ih =>
    -- The two characters come after `x`.
    obtain ⟨-, rfl⟩ := hx
    have ha := (pairwise_cons.mp (pairwise_cons.mp h).2).1 a mem_cons_self
    obtain ⟨value', c', rest, hgreater⟩ := strtoul_of_greater (b := b) ha
    rw [hgreater] at hvalue
    cases hvalue
  | case2 c d a b arg hx hvalue ih =>
    rw [decode_inline_hex, if_pos hx, ih (pairwise_cons.mp h).2]
    split
    · rename_i value heq
      exact absurd heq (hvalue value)
    · rfl
  | case3 c d a b arg hx ih => rw [decode_inline_hex, if_neg hx, ih (pairwise_cons.mp h).2]
  | case4 arg hshort => rw [decode_inline_hex.eq_2 arg hshort]

/-- The words of characters in their order name these characters, without white space. -/
theorem mem_named_words (s : OrderedSet char_order.toComparator) (b : Byte) :
    b ∈ named (words s.elements) ↔ b ∈ s.elements ∧ is_space b = false := by
  obtain ⟨-, hflatten⟩ := words_from_spec s.elements [] fun c hc => absurd hc not_mem_nil
  have hwords : (words s.elements).flatten = s.elements.filter fun c => !is_space c := hflatten
  have hdecode : named (words s.elements) = (words s.elements).flatten := by
    unfold named flatMap
    rw [map_congr_left (g := id), map_id]
    intro w hw
    have hsub : w.Sublist s.elements := by
      have hflat := sublist_flatten_of_mem hw
      rw [hwords] at hflat
      exact hflat.trans filter_sublist
    exact decode_ascending w (s.ascending.sublist hsub)
  rw [hdecode, hwords, mem_filter, Bool.not_eq_true']

variable {m_map : TokenMap}

theorem accounts_of_parsed {known : KnownOptions} {shorts : KnownShortOptions} {handle : Bool}
    (h : parse_token_map_with_current_info command_line known shorts
      handle = .ok m_map) : ∃ items,
    Accounts known shorts handle command_line items [] := by
  rcases parse_tokens_spec known shorts handle _ command_line
    [] (Nat.le_refl _) with ⟨items, haccounts, -⟩ | ⟨items, token, rest, message, haccounts, hrejects, -⟩
  · exact ⟨items, haccounts⟩
  · rw [haccounts.thrown hrejects] at h
    cases h

section Saved

variable {was_supplied : List Byte → Bool} {options : List TypedOption}

/-- The values of an option of the type that the namespaces have. -/
def values_of (option : TypedOption) : List (List Byte) :=
  match option with
  | ⟨⟨_, _, _, _, .vector, _⟩, some v⟩ => v
  | _ => []

def saved_values (was_supplied : List Byte → Bool) (options : List TypedOption) (name : List Byte) :
    Option (List (List Byte)) :=
  ((kept was_supplied options).find? fun option => option.m_name = name).map values_of

theorem saved_chars_eq (option : TypedOption) : saved_chars option = (values_of option).flatten := by
  obtain ⟨⟨m_name, short, keep, allow, type, default⟩, value⟩ := option
  cases type <;> cases value <;> rfl

/-- The characters of a merged name are those of its values. -/
theorem mem_merged_values (h : Saved was_supplied options) (name : List Byte) (b : Byte) :
    b ∈ (merged_chars (kept was_supplied options) name).elements ↔
      b ∈ ((saved_values was_supplied options name).getD []).flatten := by
  rw [mem_merged_chars]
  unfold saved_values
  cases hfind : (kept was_supplied options).find? fun option => option.m_name = name with
  | none =>
    have hnone := find?_eq_none.mp hfind
    constructor
    · intro hex
      obtain ⟨option, hoption, hname, -⟩ := hex
      exact absurd (by simpa using hname) (hnone option hoption)
    · intro hb
      cases hb
  | some option =>
    have hoption := mem_of_find?_eq_some hfind
    have hname : option.m_name = name := by simpa using find?_some hfind
    constructor
    · intro hex
      obtain ⟨other, hother, hname', hb⟩ := hex
      obtain rfl := inj_on_of_nodup_map (kept_names_nodup h) hother hoption (hname'.trans hname.symm)
      rw [saved_chars_eq] at hb
      exact hb
    · intro hb
      refine ⟨option, hoption, hname, ?_⟩
      rw [saved_chars_eq]
      exact hb

/-- The values that were saved, and those of the command line. -/
def together (saved new : Option (List (List Byte))) : Option (List (List Byte)) :=
  match saved, new with
  | none, none => none
  | saved, new => some (saved.getD [] ++ new.getD [])

theorem together_getD (saved new : Option (List (List Byte))) :
    (together saved new).getD [] = saved.getD [] ++ new.getD [] := by
  cases saved <;> cases new <;> rfl

theorem together_isSome (saved new : Option (List (List Byte))) :
    (together saved new).isSome = (saved.isSome || new.isSome) := by
  cases saved <;> cases new <;> rfl

/-- What a parsed command line makes of the namespaces. -/
def feature_tweaks (m_map : TokenMap) : FeatureTweaksConfig :=
  parse_feature_tweaks (m_map (text "ignore")) (m_map (text "ignore_linear")) (m_map (text "keep"))

/-- The values of the namespace options after loading, from those before it: each option
    names the bytes that were saved and the new ones, and the arrays are those of all
    values together. -/
structure InForce (was_supplied : List Byte → Bool) (options : List TypedOption)
    (m_map m_map' : TokenMap) : Prop where
  named : ∀ name ∈ merged_names, ∀ b, b ∈ named ((m_map' name).getD []) ↔
    b ∈ named ((saved_values was_supplied options name).getD []) ∨ b ∈ named ((m_map name).getD [])
  keep : (m_map' (text "keep")).isSome ↔
    (saved_values was_supplied options (text "keep")).isSome ∨ (m_map (text "keep")).isSome
  ignore : (feature_tweaks m_map').ignore =
    (feature_tweaks fun name => together (saved_values was_supplied options name) (m_map name)).ignore
  ignore_linear : (feature_tweaks m_map').ignore_linear =
    (feature_tweaks fun name =>
      together (saved_values was_supplied options name) (m_map name)).ignore_linear

variable {m_map' : TokenMap}

/-- The arrays follow from the values of each option. -/
theorem in_force_of_named
    (hnamed : ∀ name ∈ merged_names, ∀ b, b ∈ named ((m_map' name).getD []) ↔
      b ∈ named ((saved_values was_supplied options name).getD []) ∨
        b ∈ named ((m_map name).getD [])) (hkeep : (m_map' (text "keep")).isSome ↔
      (saved_values was_supplied options (text "keep")).isSome ∨ (m_map (text "keep")).isSome) :
    InForce was_supplied options m_map m_map' := by
  have htogether : ∀ name ∈ merged_names, ∀ b, b ∈ named ((m_map' name).getD []) ↔
      b ∈ named
        ((together (saved_values was_supplied options name) (m_map name)).getD []) := by
    intro name hname b
    rw [hnamed name hname b, together_getD, mem_named_append]
  have hsome : (m_map' (text "keep")).isSome =
      (together (saved_values was_supplied options (text "keep")) (m_map (text "keep"))).isSome := by
    rw [together_isSome, Bool.eq_iff_iff, Bool.or_eq_true]
    exact hkeep
  refine ⟨hnamed, hkeep, ?_, ?_⟩
  · funext b
    unfold feature_tweaks
    rw [ignore_eq, ignore_eq, hsome]
    simp only [htogether _ (by decide : text "ignore" ∈ merged_names) b,
      htogether _ (by decide : text "keep" ∈ merged_names) b]
  · funext b
    unfold feature_tweaks
    rw [ignore_linear_eq, ignore_linear_eq]
    simp only [htogether _ (by decide : text "ignore_linear" ∈ merged_names) b]

/-- Whoever loads the model has the namespaces in force that were saved, and those that
    the command line names. -/
def NamespacesSurvive (was_supplied : List Byte → Bool) (options : List TypedOption) : Prop :=
  ∀ (all : Workspace) (current_state : BitVec 64) (serialized : List Byte)
    (iteration : IterationOrder) (cli : OptionsCli) (is_ccb_input_model : Bool)
    (known_options : KnownOptions) (known_short_options : KnownShortOptions) (m_map : TokenMap),
    PlainHeader all → serialized_keep_options was_supplied options current_state = .ok serialized →
    Registered options known_options → (∀ name ∈ merged_names, (known_options name).isSome) →
    parse_token_map_with_current_info cli.command_line known_options known_short_options false =
      .ok m_map →
    ∃ m_map', parse_token_map_with_current_info (load_header_merge_options iteration
        (restored_options (fun name => cli.was_supplied (text name)) all serialized) cli
        is_ccb_input_model).1.command_line known_options known_short_options false = .ok m_map' ∧
      InForce was_supplied options m_map m_map'

/-- The characters that were typed, but for white space, are the namespaces that they
    name, and those of `--keep` are not all missing. -/
structure TypedAsNamed (was_supplied : List Byte → Bool) (options : List TypedOption) : Prop where
  bytes : ∀ name ∈ merged_names, ∀ b,
    b ∈ ((saved_values was_supplied options name).getD []).flatten ∧ is_space b = false ↔
      b ∈ named ((saved_values was_supplied options name).getD [])
  keep : ∀ values, saved_values was_supplied options (text "keep") = some values → values.flatten ≠ []

/-- The tokens of the namespace options after loading. -/
theorem load_namespaces (h : Saved was_supplied options)
    (hwords : ∀ name ∈ merged_names, (merged_chars (kept was_supplied options) name).elements ≠ [] →
      words (merged_chars (kept was_supplied options) name).elements ≠ [])
    {all : Workspace} (hall : PlainHeader all) {current_state : BitVec 64} {serialized : List Byte}
    (hserialized : serialized_keep_options was_supplied options current_state = .ok serialized)
    (iteration : IterationOrder) {cli : OptionsCli} (is_ccb_input_model : Bool)
    {known : KnownOptions} {shorts : KnownShortOptions} {m_map : TokenMap}
    (hknown : Registered options known)
    (hmerged : ∀ name ∈ merged_names, (known name).isSome)
    (hargs : parse_token_map_with_current_info cli.command_line known shorts
      false = .ok m_map) :
    ∃ m_map', parse_token_map_with_current_info (load_header_merge_options iteration
        (restored_options (fun name => cli.was_supplied (text name)) all serialized) cli
        is_ccb_input_model).1.command_line known shorts false = .ok m_map' ∧
      ∀ name ∈ merged_names,
        ((merged_chars (kept was_supplied options) name).elements ≠ [] → m_map' name =
          some ((m_map name).getD [] ++ words (merged_chars (kept was_supplied options) name).elements)) ∧
        ((merged_chars (kept was_supplied options) name).elements = [] → m_map' name = m_map name) := by
  obtain ⟨serialized', hserialized', hsplit⟩ :=
    words_saved h current_state (fun name => cli.was_supplied (text name)) hall
  obtain rfl := Except.ok.inj (hserialized.symm.trans hserialized')
  have hfits := @saved_fits _ _ (fun name => cli.was_supplied (text name)) _ current_state h hall _
    hknown fun name hname hne =>
      ⟨hwords name hname hne, fun hnone => by
        have hsome := hmerged name hname
        rw [hnone] at hsome
        cases hsome⟩
  obtain ⟨m_map', hparse, hvalues⟩ := load_values hsplit (saved_written h hall) hfits iteration
    is_ccb_input_model hargs
  refine ⟨m_map', hparse, fun name hname => ?_⟩
  have hplain : name ≠ POSITIONAL ∧ name ∉ interaction_options := by
    have hnames : ∀ n ∈ merged_names, n ≠ POSITIONAL ∧ n ∉ interaction_options := by decide
    exact hnames name hname
  obtain ⟨hsome, hnone⟩ := hvalues name hplain.1 (hmerged name hname) (Or.inl hplain.2)
  rw [collected_merged h hall hname] at hsome
  have hgroup := @merged_group_iff _ _ (fun name => cli.was_supplied (text name)) _ current_state h
    hall _ hname
  constructor
  · exact fun hne => hsome (hgroup.mpr hne)
  · intro hempty
    refine hnone fun kv hkv heq => ?_
    exact hgroup.mp ⟨kv, hkv, heq⟩ hempty

theorem mem_merged_flatten (h : Saved was_supplied options) (name : List Byte) :
    (merged_chars (kept was_supplied options) name).elements = [] ↔
      ((saved_values was_supplied options name).getD []).flatten = [] := by
  rw [eq_nil_iff_forall_not_mem, eq_nil_iff_forall_not_mem]
  simp only [mem_merged_values h]

/-- After loading, the namespaces are those that were typed, and those of the command
    line. -/
theorem in_force_iff (h : Saved was_supplied options) (hvalues : ∀ name ∈ merged_names,
      ((merged_chars (kept was_supplied options) name).elements ≠ [] → m_map' name =
        some ((m_map name).getD [] ++ words (merged_chars (kept was_supplied options) name).elements)) ∧
      ((merged_chars (kept was_supplied options) name).elements = [] → m_map' name = m_map name))
    (hname : name ∈ merged_names) (b : Byte) :
    b ∈ named ((m_map' name).getD []) ↔
      (b ∈ ((saved_values was_supplied options name).getD []).flatten ∧ is_space b = false) ∨
        b ∈ named ((m_map name).getD []) := by
  obtain ⟨hsome, hnone⟩ := hvalues name hname
  by_cases hempty : (merged_chars (kept was_supplied options) name).elements = []
  · rw [hnone hempty, (mem_merged_flatten h name).mp hempty]
    simp
  · rw [hsome hempty, Option.getD_some, mem_named_append, mem_named_words, mem_merged_values h,
      or_comm]

/-- White space names itself. -/
theorem decode_spaces (s : List Byte) (h : ∀ c ∈ s, is_space c = true) : decode_inline_hex s = s := by
  induction s using decode_inline_hex.induct with
  | case1 c d a b arg hx value hvalue ih =>
    have hc := h c mem_cons_self
    rw [hx.1] at hc
    cases hc
  | case2 c d a b arg hx hvalue ih =>
    have hc := h c mem_cons_self
    rw [hx.1] at hc
    cases hc
  | case3 c d a b arg hx ih =>
    rw [decode_inline_hex, if_neg hx, ih fun c' hc' => h c' (mem_cons_of_mem c hc')]
  | case4 arg hshort => rw [decode_inline_hex.eq_2 arg hshort]

/-- Text that is typed as it is named is not white space only. -/
theorem TypedAsNamed.words_ne (h : TypedAsNamed was_supplied options)
    (hsaved : Saved was_supplied options) (hname : name ∈ merged_names)
    (hne : (merged_chars (kept was_supplied options) name).elements ≠ []) :
    words (merged_chars (kept was_supplied options) name).elements ≠ [] := by
  intro hwords
  obtain ⟨b, hb⟩ := exists_mem_of_ne_nil _ hne
  -- There would be nothing but white space, which names itself.
  have hspace : ∀ c ∈ (merged_chars (kept was_supplied options) name).elements,
      is_space c = true := by
    intro c hc
    by_cases hspace : is_space c = true
    · exact hspace
    · have hmem := (mem_named_words _ c).mpr ⟨hc, Bool.eq_false_iff.mpr hspace⟩
      rw [hwords] at hmem
      cases hmem
  have htyped := (mem_merged_values hsaved name b).mp hb
  obtain ⟨value, hvalue, hbvalue⟩ := mem_flatten.mp htyped
  have hdecode : decode_inline_hex value = value := by
    refine decode_spaces value fun c hc => hspace c ?_
    exact (mem_merged_values hsaved name c).mpr (mem_flatten.mpr ⟨value, hvalue, hc⟩)
  have hnamed : b ∈ named ((saved_values was_supplied options name).getD []) :=
    mem_flatMap.mpr ⟨value, hvalue, by rw [hdecode]; exact hbvalue⟩
  have hfalse := ((h.bytes name hname b).mpr hnamed).2
  rw [hspace b hb] at hfalse
  cases hfalse

theorem TypedAsNamed.survive (h : TypedAsNamed was_supplied options)
    (hsaved : Saved was_supplied options) : NamespacesSurvive was_supplied options := by
  intro all current_state serialized iteration cli is_ccb known shorts m_map hall
    hserialized hknown hmerged hargs
  obtain ⟨m_map', hparse, hvalues⟩ := load_namespaces hsaved (fun name hname => h.words_ne hsaved hname)
    hall hserialized iteration is_ccb hknown hmerged hargs
  refine ⟨m_map', hparse, in_force_of_named (fun name hname b => ?_) ?_⟩
  · rw [in_force_iff hsaved hvalues hname, h.bytes name hname b]
  · obtain ⟨hsome, hnone⟩ := hvalues (text "keep") (by decide)
    cases hkeep : saved_values was_supplied options (text "keep") with
    | none =>
      have hempty : (merged_chars (kept was_supplied options) (text "keep")).elements = [] := by
        rw [mem_merged_flatten hsaved, hkeep]
        rfl
      rw [hnone hempty]
      simp
    | some values =>
      have hne : (merged_chars (kept was_supplied options) (text "keep")).elements ≠ [] := by
        intro hempty
        rw [mem_merged_flatten hsaved, hkeep] at hempty
        exact h.keep values hkeep hempty
      rw [hsome hne]
      simp

/-! ## The other way round -/

/-- A parser that knows the options for namespaces only. -/
def namespace_options : KnownOptions := fun name =>
  if name ∈ merged_names then some { m_name := name, type := .vector } else none

theorem namespace_options_some (h : namespace_options name = some opt) :
    name ∈ merged_names ∧ opt = { m_name := name, type := .vector } := by
  unfold namespace_options at h
  split at h
  · rename_i hname
    exact ⟨hname, (Option.some.inj h).symm⟩
  · cases h

theorem registered_namespace_options
    (htype : ∀ option ∈ options, option.m_name ∈ merged_names → option.type = .vector) :
    Registered options namespace_options := by
  constructor
  · intro name opt h
    rw [(namespace_options_some h).2]
  · intro option hoption opt h
    obtain ⟨hname, rfl⟩ := namespace_options_some h
    exact (htype option hoption hname).symm
  · intro name _ opt h
    rw [(namespace_options_some h).2]
    exact fun heq => by cases heq
  · intro name _ opt h
    rw [(namespace_options_some h).2]

/-- An order that has one name last, and another one in front of it. -/
def last_order (before last : List Byte) : IterationOrder where
  order m :=
    ((m.filter fun kv => kv.1 ≠ last).filter (fun kv => kv.1 ≠ before) ++
      (m.filter fun kv => kv.1 ≠ last).filter fun kv => kv.1 = before) ++
    m.filter fun kv => kv.1 = last
  perm m := by
    have hsplit (name : List Byte) (l : OptionMap) :
        (l.filter (fun kv => kv.1 ≠ name) ++ l.filter fun kv => kv.1 = name).Perm l := by
      have hperm := filter_append_perm (fun kv => decide (kv.1 ≠ name)) l
      simpa using hperm
    exact ((hsplit before _).append_right _).trans (hsplit last m)

/-- The map has a name once. -/
theorem collects_filter {groups m_map : OptionMap} (h : Collects groups m_map)
    (hex : ∃ kv ∈ groups, kv.1 = name) :
    (m_map.filter fun kv => kv.1 = name) = [(name, collected groups name)] := by
  have hmem : (name, collected groups name) ∈ m_map.filter fun kv => kv.1 = name := by
    rw [mem_filter]
    exact ⟨(h.mem_iff name _).mpr ⟨hex, rfl⟩, by simp⟩
  have hall : ∀ kv ∈ m_map.filter fun kv => kv.1 = name, kv = (name, collected groups name) := by
    intro kv hfilter
    obtain ⟨hkv, hname⟩ := mem_filter.mp hfilter
    obtain rfl : kv.1 = name := by simpa using hname
    rw [← ((h.mem_iff kv.1 kv.2).mp hkv).2]
  have hnodup : (m_map.filter fun kv => kv.1 = name).Nodup :=
    (List.Nodup.of_map _ h.nodup).sublist filter_sublist
  rw [eq_replicate_of_mem hall] at hmem hnodup ⊢
  have hle := nodup_replicate.mp hnodup
  have hpos : (m_map.filter fun kv => kv.1 = name).length ≠ 0 := (mem_replicate.mp hmem).1
  have hone : (m_map.filter fun kv => kv.1 = name).length = 1 := by omega
  rw [hone]
  rfl

/-- The values of a name end what is added for it. -/
theorem inserted_ends {name : List Byte} {values : List (List Byte)} (hne : values ≠ [])
    (hvalues : ∀ v ∈ values, v ≠ []) :
    ∃ pre, ∃ v ∈ values, inserted (name, values) = pre ++ [v] := by
  rcases eq_nil_or_concat' values with rfl | ⟨init, v, rfl⟩
  · exact absurd rfl hne
  · have hv : v ∈ init ++ [v] := mem_append_right _ (mem_singleton_self v)
    have hvne := hvalues v hv
    refine ⟨init.flatMap (name_value name) ++ [text "--" ++ name], v, hv, ?_⟩
    unfold inserted
    rw [if_neg (by simp), flatMap_append, flatMap_singleton]
    unfold name_value
    rw [if_neg (by simpa using hvne), append_assoc, singleton_append]

theorem NamespacesSurvive.words_ne (h : NamespacesSurvive was_supplied options)
    (hsaved : Saved was_supplied options)
    (htype : ∀ option ∈ options, option.m_name ∈ merged_names → option.type = .vector)
    (hname : name ∈ merged_names)
    (hne : (merged_chars (kept was_supplied options) name).elements ≠ []) :
    words (merged_chars (kept was_supplied options) name).elements ≠ [] := by
  intro hwords
  have hall : PlainHeader {} := ⟨fun h => absurd rfl h, fun _ h => absurd h not_mem_nil,
    fun _ h => absurd h not_mem_nil⟩
  obtain ⟨serialized, hserialized, hsplit⟩ := words_saved hsaved 0
    (fun name => OptionsCli.was_supplied { command_line := [] } (text name)) hall
  have hknown : ∀ n ∈ merged_names, (namespace_options n).isSome := by
    intro n hn
    unfold namespace_options
    rw [if_pos hn]
    rfl
  obtain ⟨m_map', hparse, -⟩ := h {} 0 serialized (last_order (text "bit_precision") name)
    { command_line := [] } false namespace_options (fun _ => none) TokenMap.empty hall hserialized
    (registered_namespace_options htype) hknown rfl
  set groups := saved_groups (fun name => OptionsCli.was_supplied { command_line := [] } (text name)) {}
    was_supplied options 0 with hgroups
  have hcollects := collects_legacy (@saved_written _ _
    (fun name => OptionsCli.was_supplied { command_line := [] } (text name)) _ 0 hsaved hall)
  -- The number of bits is in every header.
  have hbits : (text "bit_precision", [decimal 18]) ∈ groups := by
    rw [hgroups]
    unfold saved_groups
    exact mem_append_left _ (by decide)
  have hplain : PlainGroup header_names (text "bit_precision", [decimal 18]) :=
    plainGroup_singleton (by decide) (plainText_numeral (numeral_decimal _))
  obtain ⟨hbits_ne, hbits_plain⟩ := collected_header hsaved hall hplain hbits
  obtain ⟨pre, value, hvalue, hends⟩ := @inserted_ends (text "bit_precision") _ hbits_ne
    fun v hv => (hbits_plain v hv).word.1
  have hgroup := (@merged_group_iff _ _
    (fun name => OptionsCli.was_supplied { command_line := [] } (text name)) _ 0 hsaved hall _
    hname).mpr hne
  have hlast : inserted (name, collected groups name) = [text "--" ++ name] := by
    rw [hgroups, collected_merged hsaved hall hname, hwords]
    rfl
  have hother : text "bit_precision" ≠ name := by
    have hnames : ∀ n ∈ merged_names, text "bit_precision" ≠ n := by decide
    exact hnames name hname
  have hbefore : ((parse_model_command_line_legacy (groups.flatMap option_words)).filter
      fun kv => kv.1 ≠ name).filter (fun kv => kv.1 = text "bit_precision") =
        [(text "bit_precision", collected groups (text "bit_precision"))] := by
    rw [← collects_filter hcollects ⟨_, hbits, rfl⟩, filter_filter]
    refine filter_congr fun kv _ => ?_
    by_cases heq : kv.1 = text "bit_precision"
    · simp [heq, hother]
    · simp [heq]
  obtain ⟨front, hline⟩ : ∃ front, (load_header_merge_options (last_order (text "bit_precision") name)
      (restored_options (fun name => OptionsCli.was_supplied { command_line := [] } (text name)) {}
        serialized) { command_line := [] } false).1.command_line =
      front ++ [value, text "--" ++ name] := by
    have hskip : check_interaction_settings_collision { command_line := [] }
        (restored_options (fun name => OptionsCli.was_supplied { command_line := [] } (text name)) {}
          serialized) = false := rfl
    unfold load_header_merge_options merge_options_from_header_strings
    rw [hskip, hsplit]
    simp only [Bool.false_eq_true, if_false, foldl_insert_values]
    unfold last_order
    simp only [nil_append]
    rw [flatMap_append, flatMap_append, hbefore, collects_filter hcollects hgroup,
      flatMap_singleton, flatMap_singleton, hends, hlast]
    exact ⟨_ ++ pre, by simp only [append_assoc]; rfl⟩
  rw [hline] at hparse
  obtain ⟨items, haccounts⟩ := accounts_of_parsed hparse
  have hnames : Names namespace_options (fun _ => none) (text "--" ++ name)
      { m_name := name, type := .vector } [] := by
    have hname_ne := written_merged_name hname
    have hopt : namespace_options name = some { m_name := name, type := .vector } := by
      unfold namespace_options
      rw [if_pos hname]
    exact Names.long hname_ne.ne_nil hname_ne.no_equal_sign hopt
  exact (not_accounts_list hnames rfl (hbits_plain value hvalue).not_option rfl haccounts).2 front rfl

theorem NamespacesSurvive.typed_as_named (h : NamespacesSurvive was_supplied options)
    (hsaved : Saved was_supplied options)
    (htype : ∀ option ∈ options, option.m_name ∈ merged_names → option.type = .vector) :
    TypedAsNamed was_supplied options := by
  have hall : PlainHeader {} := ⟨fun h => absurd rfl h, fun _ h => absurd h not_mem_nil,
    fun _ h => absurd h not_mem_nil⟩
  have hknown : ∀ n ∈ merged_names, (namespace_options n).isSome := by
    intro n hn
    unfold namespace_options
    rw [if_pos hn]
    rfl
  obtain ⟨serialized, hserialized, -⟩ := words_saved hsaved 0 (fun _ => false) hall
  -- A command line without options of its own.
  obtain ⟨m_map', hparse, hin_force⟩ := h {} 0 serialized ⟨id, fun _ => .refl _⟩
    { command_line := [] } false namespace_options (fun _ => none) TokenMap.empty hall hserialized
    (registered_namespace_options htype) hknown rfl
  obtain ⟨m_map'', hparse', hvalues⟩ := @load_namespaces _ _ hsaved
    (fun name hname hne => h.words_ne hsaved htype hname hne) _ hall _ _ hserialized
    ⟨id, fun _ => .refl _⟩ { command_line := [] } false _ _ _ (registered_namespace_options htype)
    hknown rfl
  obtain rfl := Except.ok.inj (hparse.symm.trans hparse')
  constructor
  · intro name hname b
    have hnone : b ∉ named ((TokenMap.empty name).getD []) := not_mem_nil
    have hloaded := (in_force_iff hsaved hvalues hname b).symm.trans (hin_force.named name hname b)
    simpa only [hnone, or_false] using hloaded
  · intro values hkeep hempty
    have hchars : (merged_chars (kept was_supplied options) (text "keep")).elements = [] := by
      rw [mem_merged_flatten hsaved, hkeep]
      exact hempty
    have hsome := hin_force.keep.mpr (Or.inl (by rw [hkeep]; rfl))
    rw [(hvalues (text "keep") (by decide)).2 hchars] at hsome
    cases hsome

end Saved

/-- The namespaces of a model are in force again exactly when the characters that name
    them, without white space, are the namespaces. -/
theorem namespaces_survive_iff (was_supplied : List Byte → Bool) (options : List TypedOption)
    (hsaved : Saved was_supplied options)
    (htype : ∀ option ∈ options, option.m_name ∈ merged_names → option.type = .vector) :
    NamespacesSurvive was_supplied options ↔ TypedAsNamed was_supplied options :=
  ⟨fun h => h.typed_as_named hsaved htype, fun h => h.survive hsaved⟩

theorem saved_ignore (value : List Byte) (hnul : 0 ∉ value) :
    Saved (fun _ => true)
      [⟨{ m_name := text "ignore", m_keep := true, type := .vector }, some [value]⟩] := by
  have hmerged : text "ignore" ∈ merged_names := by decide
  have hheader : text "ignore" ∉ header_names := by decide
  refine ⟨nodup_singleton _, ?_, ?_, ?_, ?_⟩
  · intro option hoption
    obtain rfl := mem_singleton.mp hoption
    exact ⟨rfl, fun _ => rfl⟩
  · intro option hoption
    obtain rfl := mem_singleton.mp hoption
    exact ⟨written_merged_name hmerged, hheader⟩
  · intro option hoption hname
    obtain rfl := mem_singleton.mp hoption
    exact absurd hmerged hname
  · intro option hoption _
    obtain rfl := mem_singleton.mp hoption
    show 0 ∉ [value].flatten
    rwa [flatten_singleton]

/-- Namespaces that are typed as they are. -/
theorem plain_namespaces_survive :
    NamespacesSurvive (fun _ => true)
      [⟨{ m_name := text "ignore", m_keep := true, type := .vector }, some [text "ba"]⟩] := by
  have htype : ∀ option ∈ [(⟨{ m_name := text "ignore", m_keep := true, type := .vector },
      some [text "ba"]⟩ : TypedOption)], option.m_name ∈ merged_names → option.type = .vector := by
    intro option hoption _
    rw [mem_singleton.mp hoption]
  have hbytes : ∀ b : Byte, (b ∈ [text "ba"].flatten ∧ is_space b = false ↔ b ∈ named [text "ba"]) ∧
      (b ∈ ([] : List Byte) ∧ is_space b = false ↔ b ∈ named []) := by decide
  refine (namespaces_survive_iff _ _ (saved_ignore _ (by decide)) htype).mpr ⟨?_, ?_⟩
  · intro name hname b
    fin_cases hname
    · exact (hbytes b).1
    · exact (hbytes b).2
    · exact (hbytes b).2
  · intro values hvalues
    cases hvalues

/-- `--ignore \x41` ignores the namespace `A`, and the model that is loaded ignores
    `1`, `4`, the backslash and `x`. -/
theorem escaped_namespace_is_lost :
    ¬ ∀ (was_supplied : List Byte → Bool) (options : List TypedOption),
      Saved was_supplied options →
      (∀ option ∈ options, option.m_name ∈ merged_names → option.type = .vector) →
      NamespacesSurvive was_supplied options := by
  intro h
  have hall : PlainHeader {} := ⟨fun h => absurd rfl h, fun _ h => absurd h not_mem_nil,
    fun _ h => absurd h not_mem_nil⟩
  have htype : ∀ option ∈ [(⟨{ m_name := text "ignore", m_keep := true, type := .vector },
      some [text "\\x41"]⟩ : TypedOption)], option.m_name ∈ merged_names → option.type = .vector := by
    intro option hoption _
    rw [mem_singleton.mp hoption]
  have hknown : ∀ n ∈ merged_names, (namespace_options n).isSome := by decide
  obtain ⟨m_map', hparse, hin_force⟩ := h (fun _ => true) _ (saved_ignore (text "\\x41") (by decide))
    htype {} 0 _ ⟨id, fun _ => .refl _⟩ { command_line := [] } false namespace_options (fun _ => none)
    TokenMap.empty hall rfl (registered_namespace_options htype) hknown rfl
  obtain rfl := Except.ok.inj hparse
  have hlost := (hin_force.named (text "ignore") (by decide) 65).mpr (Or.inl (by decide))
  revert hlost
  decide

end VW.Config
