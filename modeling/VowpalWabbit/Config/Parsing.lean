import VowpalWabbit.Config.Tokens
import Mathlib.Data.List.TakeWhile

/-! # A command line with the options of a model

    The names and values that were collected from a header are added to the command
    line. Parsing them gives every known option its values, in their order, behind
    those of the command line itself.
-/

open Cpp

namespace VW.Config

open List Outcome Function

section Rounds

variable (known_options : KnownOptions) (known_short_options : KnownShortOptions)

section AnyTerminator

variable (should_handle_terminator : Bool)

/-- As many rounds as there are tokens. -/
def parse_tokens (tokens : List (List Byte)) (m_map : TokenMap) : Outcome TokenMap :=
  parse_rounds should_handle_terminator known_options known_short_options tokens.length tokens m_map

end AnyTerminator

end Rounds

section Rounds

variable (known : KnownOptions) (shorts : KnownShortOptions)

section AnyTerminator

variable (handle : Bool)

/-- More rounds than tokens are not used. -/
theorem parse_rounds_eq (rounds : Nat) : ∀ (tokens : List (List Byte)) (m_map : TokenMap),
    tokens.length ≤ rounds →
      parse_rounds handle known shorts rounds tokens m_map =
        parse_tokens known shorts handle tokens m_map := by
  induction rounds using Nat.strong_induction_on with
  | _ rounds ih =>
    intro tokens m_map hle
    unfold parse_tokens
    cases tokens with
    | nil => cases rounds <;> rfl
    | cons token tokens =>
      rw [length_cons] at hle ⊢
      obtain ⟨rounds, rfl⟩ := Nat.exists_eq_add_of_le' (Nat.le_trans (Nat.le_add_left 1 _) hle)
      rw [parse_rounds, parse_rounds]
      cases hround : consume_token handle known shorts token
        tokens m_map with
      | error e => rfl
      | ok r =>
        -- Both go on with what the round leaves.
        obtain ⟨rest, m⟩ := r
        have hrest := (consume_token_suffix _ _ hround).length_le
        show parse_rounds _ _ _ rounds rest m = parse_rounds _ _ _ tokens.length rest m
        rw [ih rounds (by omega) rest m (by omega), ih tokens.length (by omega) rest m hrest]

theorem parse_tokens_cons (token : List Byte) (tokens : List (List Byte)) (m_map : TokenMap) :
    parse_tokens known shorts handle (token :: tokens) m_map =
      consume_token handle known shorts token tokens m_map >>=
        fun r => parse_tokens known shorts handle r.1 r.2 := by
  unfold parse_tokens
  rw [length_cons, parse_rounds]
  cases hround : consume_token handle known shorts token
    tokens m_map with
  | error e => rfl
  | ok r =>
    obtain ⟨rest, m⟩ := r
    have hrest := (consume_token_suffix _ _ hround).length_le
    exact parse_rounds_eq _ _ _ _ rest m hrest

end AnyTerminator

variable {post : List (List Byte)}

/-- What is added to a command line is parsed after it. -/
theorem parse_tokens_append (hpost : StartsOption post) (n : Nat) :
    ∀ (tokens : List (List Byte)) (m_map m_map' : TokenMap), tokens.length ≤ n →
      parse_tokens known shorts false tokens m_map = .ok m_map' →
      parse_tokens known shorts false (tokens ++ post) m_map =
        parse_tokens known shorts false post m_map' := by
  induction n with
  | zero =>
    intro tokens m_map m_map' hlen h
    obtain rfl : tokens = [] := length_eq_zero_iff.mp (by omega)
    obtain rfl := Except.ok.inj h
    rfl
  | succ n ih =>
    intro tokens m_map m_map' hlen h
    cases tokens with
    | nil =>
      obtain rfl := Except.ok.inj h
      rfl
    | cons token tokens =>
      rw [parse_tokens_cons] at h
      obtain ⟨⟨rest, m⟩, hround, hparse⟩ := bind_eq_ok.mp h
      have hrest := (consume_token_suffix _ _ hround).length_le
      rw [length_cons] at hlen
      rw [cons_append, parse_tokens_cons, consume_token_append _ _ hpost hround,
        ok_bind]
      exact ih rest m m_map' (by omega) hparse

/-! ## One name -/

/-- A name that can be given as `--name`. -/
structure PlainName (name : List Byte) : Prop where
  ne_nil : name ≠ []
  no_equal_sign : 61 ∉ name
  not_positional : name ≠ POSITIONAL

variable {name : List Byte}

/-- A token behind two dashes, without an equal sign. -/
theorem plan_long (hne : name ≠ []) (hequal : 61 ∉ name) :
    plan known shorts (text "--" ++ name) = .ok (known name, []) := by
  have hdrop : (text "--" ++ name).drop 2 = name := rfl
  have hcontains : name.contains 61 = false := by simpa using hequal
  have htake : name.takeWhile (· ≠ 61) = name := by
    rw [takeWhile_eq_self_iff]
    intro c hc
    have hc61 : c ≠ 61 := fun heq => hequal (heq ▸ hc)
    simpa using hc61
  unfold plan
  rw [if_pos (long_option_of_name hne)]
  simp only [hdrop, hcontains, htake, Bool.false_and, Bool.false_eq_true, if_false]
  rw [if_neg (by simpa using hne)]

theorem plan_name (h : PlainName name) :
    plan known shorts (text "--" ++ name) = .ok (known name, []) :=
  plan_long _ _ h.ne_nil h.no_equal_sign

variable {known} {shorts}

variable {opt : BaseOption}

theorem parse_switch (h : PlainName name) (hknown : known name = some opt)
    (hname : opt.m_name = name) (htype : opt.type = .bool) (post : List (List Byte))
    (m_map : TokenMap) :
    parse_tokens known shorts false ((text "--" ++ name) :: post) m_map =
      parse_tokens known shorts false post (m_map.push_back name []) := by
  have hconsume : consume_tokens opt post [] = .ok ([], post) := by
    unfold consume_tokens
    rw [htype]
    rfl
  rw [parse_tokens_cons, consume_token_eq, plan_name _ _ h, hknown, ok_bind]
  show ((consume_tokens opt post [] >>= _) >>= _) = _
  rw [hconsume, ok_bind, ← hname]
  rfl

theorem parse_value (h : PlainName name) (hknown : known name = some opt)
    (hname : opt.m_name = name) (htype : opt.type ≠ .bool) (value : List Byte)
    (hpost : StartsOption post) (m_map : TokenMap) :
    parse_tokens known shorts false ((text "--" ++ name) :: value :: post) m_map =
      parse_tokens known shorts false post (m_map.push_back name [value]) := by
  have hconsume : consume_tokens opt (value :: post) [] = .ok ([value], post) := by
    unfold consume_tokens
    split
    · rename_i hbool
      exact absurd hbool htype
    · obtain ⟨htake, hdrop⟩ := takeWhile_append_starts hpost []
      show Except.ok ([value] ++ post.takeWhile _, post.dropWhile _) = _
      rw [nil_append] at htake hdrop
      rw [htake, hdrop]
      rfl
    · rfl
  rw [parse_tokens_cons, consume_token_eq, plan_name _ _ h, hknown, ok_bind]
  show ((consume_tokens opt (value :: post) [] >>= _) >>= _) = _
  rw [hconsume, ok_bind, ← hname]
  rfl

/-- A name that no known option has. -/
theorem parse_unknown_name (h : PlainName name)
    (hknown : known name = none) (post : List (List Byte)) (m_map : TokenMap) :
    parse_tokens known shorts false ((text "--" ++ name) :: post) m_map =
      parse_tokens known shorts false post
        (m_map.push_back POSITIONAL [text "--" ++ name]) := by
  rw [parse_tokens_cons, consume_token_eq, plan_name _ _ h, hknown, ok_bind]
  rfl

theorem parse_positional {token : List Byte} (h : is_option_like token = false)
    (post : List (List Byte)) (m_map : TokenMap) :
    parse_tokens known shorts false (token :: post) m_map =
      parse_tokens known shorts false post (m_map.push_back POSITIONAL [token]) := by
  unfold is_option_like at h
  simp only [Bool.or_eq_false_iff] at h
  rw [parse_tokens_cons]
  unfold consume_token
  rw [h.1.1, h.1.2]
  rfl

end Rounds

/-! ## The added tokens -/

/-- The tokens of one `insert`. -/
def name_value (name value : List Byte) : List (List Byte) :=
  (text "--" ++ name) :: (if value.isEmpty then [] else [value])

theorem name_value_of_ne (name : List Byte) {value : List Byte} (h : value ≠ []) :
    name_value name value = [text "--" ++ name, value] := by
  unfold name_value
  rw [if_neg (by simpa using h)]

/-- The tokens that are added for a name. -/
def inserted (kv : List Byte × List (List Byte)) : List (List Byte) :=
  if kv.2.isEmpty then [text "--" ++ kv.1] else kv.2.flatMap (name_value kv.1)

theorem insert_values_eq (options : OptionsCli) (kv : List Byte × List (List Byte)) :
    insert_values options kv =
      { options with command_line := options.command_line ++ inserted kv } := by
  unfold insert_values inserted
  split
  · rfl
  · generalize kv.2 = values
    induction values generalizing options with
    | nil => simp
    | cons value values ih =>
      rw [foldl_cons, ih, flatMap_cons]
      simp only [OptionsCli.insert, name_value, append_assoc]

theorem foldl_insert_values (entries : OptionMap) (options : OptionsCli) :
    entries.foldl insert_values options =
      { options with command_line := options.command_line ++ entries.flatMap inserted } := by
  induction entries generalizing options with
  | nil => simp
  | cons kv entries ih =>
    rw [foldl_cons, ih, insert_values_eq, flatMap_cons]
    simp only [append_assoc]

section Entries

variable (known_options : KnownOptions)

/-- A name with values that the parser takes as they are: a switch has none, and the
    values of an option that is not known do not look like options. -/
structure Fits (kv : List Byte × List (List Byte)) : Prop where
  name : PlainName kv.1
  values_ne : ∀ v ∈ kv.2, v ≠ []
  known : ∀ opt, known_options kv.1 = some opt →
    opt.m_name = kv.1 ∧ (opt.type = .bool ↔ kv.2 = [])
  unknown : known_options kv.1 = none → ∀ v ∈ kv.2, is_option_like v = false

end Entries

section Entries

variable {known : KnownOptions} {name : List Byte} {post : List (List Byte)}

theorem startsOption_values (h : name ≠ [])
    (hpost : StartsOption post) (values : List (List Byte)) :
    StartsOption (values.flatMap (name_value name) ++ post) := by
  cases values with
  | nil => exact hpost
  | cons v values =>
    intro token htoken
    obtain rfl := Option.some.inj htoken
    exact long_option_of_name h

variable {kv : List Byte × List (List Byte)}

theorem startsOption_inserted (h : kv.1 ≠ []) (hpost : StartsOption post) :
    StartsOption (inserted kv ++ post) := by
  unfold inserted
  split
  · intro token htoken
    obtain rfl := Option.some.inj htoken
    exact long_option_of_name h
  · exact startsOption_values h hpost kv.2

theorem startsOption_entries {entries : OptionMap} (h : ∀ kv ∈ entries, Fits known kv) :
    StartsOption (entries.flatMap inserted) := by
  induction entries with
  | nil => exact fun token htoken => absurd htoken (by simp)
  | cons kv entries ih =>
    rw [flatMap_cons]
    exact startsOption_inserted (h kv mem_cons_self).name.ne_nil
      (ih fun kv' hkv' => h kv' (mem_cons_of_mem kv hkv'))

theorem push_back_push_back (m_map : TokenMap) (name : List Byte) (a b : List (List Byte)) :
    (m_map.push_back name a).push_back name b = m_map.push_back name (a ++ b) := by
  unfold TokenMap.push_back
  rw [update_self, update_idem]
  simp

variable {shorts : KnownShortOptions}

/-- The values of an option, each behind the name. -/
theorem parse_values {name : List Byte} (h : PlainName name) {opt : BaseOption}
    (hknown : known name = some opt) (hname : opt.m_name = name) (htype : opt.type ≠ .bool)
    {post : List (List Byte)} (hpost : StartsOption post) (values : List (List Byte))
    (hvalues : ∀ v ∈ values, v ≠ []) (m_map : TokenMap) : ∀ a : List (List Byte),
    parse_tokens known shorts false (values.flatMap (name_value name) ++ post)
        (m_map.push_back name a) =
      parse_tokens known shorts false post (m_map.push_back name (a ++ values)) := by
  induction values with
  | nil =>
    intro a
    rw [append_nil]
    rfl
  | cons v values ih =>
    intro a
    have hv := hvalues v mem_cons_self
    have hrest := startsOption_values h.ne_nil hpost values
    rw [flatMap_cons, name_value_of_ne name hv, append_assoc]
    show parse_tokens _ _ _ ((text "--" ++ name) :: v :: (values.flatMap (name_value name) ++ post)) _ = _
    rw [parse_value h hknown hname htype v hrest, push_back_push_back,
      ih (fun w hw => hvalues w (mem_cons_of_mem v hw)), append_assoc,
      singleton_append]

/-- The values of an option that is not known are positional, and so are the names. -/
theorem parse_unknown_values (h : PlainName name)
    (hknown : known name = none) (post : List (List Byte)) (values : List (List Byte))
    (hvalues : ∀ v ∈ values, is_option_like v = false) (m_map : TokenMap) :
    ∃ tokens : List (List Byte), parse_tokens known shorts false
        (values.flatMap (name_value name) ++ post) m_map =
      parse_tokens known shorts false post (tokens.foldl
        (fun m_map token => m_map.push_back POSITIONAL [token]) m_map) := by
  induction values generalizing m_map with
  | nil => exact ⟨[], rfl⟩
  | cons v values ih =>
    obtain ⟨tokens, htokens⟩ := ih (fun w hw => hvalues w (mem_cons_of_mem v hw))
      ((if v.isEmpty then [text "--" ++ name] else [text "--" ++ name, v]).foldl
        (fun m_map token => m_map.push_back POSITIONAL [token]) m_map)
    refine ⟨(if v.isEmpty then [text "--" ++ name] else [text "--" ++ name, v]) ++ tokens, ?_⟩
    rw [foldl_append, ← htokens, flatMap_cons, append_assoc, name_value,
      cons_append, parse_unknown_name h hknown]
    split
    · rfl
    · exact parse_positional (hvalues v mem_cons_self) _ _

theorem foldl_positional (tokens : List (List Byte)) (hname : name ≠ POSITIONAL) :
    ∀ m_map : TokenMap, tokens.foldl (fun m_map token => m_map.push_back POSITIONAL [token]) m_map name
      = m_map name := by
  induction tokens with
  | nil => exact fun _ => rfl
  | cons token tokens ih =>
    intro m_map
    rw [foldl_cons, ih]
    exact update_of_ne hname _ _

/-- The values of one name, parsed: nothing but its own values changes. -/
theorem parse_entry (h : Fits known kv) (hpost : StartsOption post) (m_map : TokenMap) : ∃ m_map',
      parse_tokens known shorts false (inserted kv ++ post) m_map =
        parse_tokens known shorts false post m_map' ∧
      (∀ name, name ≠ POSITIONAL → name ≠ kv.1 → m_map' name = m_map name) ∧
      ((known kv.1).isSome → m_map' kv.1 = some ((m_map kv.1).getD [] ++ kv.2)) := by
  obtain ⟨hname, hvalues, hknown, hunknown⟩ := h
  cases hopt : known kv.1 with
  | none =>
    have hunseen (tokens : List (List Byte)) (name : List Byte) (hpositional : name ≠ POSITIONAL)
        (_ : name ≠ kv.1) : tokens.foldl (fun m_map token => m_map.push_back POSITIONAL [token]) m_map
          name = m_map name := foldl_positional tokens hpositional m_map
    unfold inserted
    split
    · refine ⟨_, parse_unknown_name hname hopt _ _, hunseen [text "--" ++ kv.1], fun h => ?_⟩
      cases h
    · obtain ⟨tokens, htokens⟩ :=
        parse_unknown_values hname hopt post kv.2 (hunknown hopt) m_map
      refine ⟨_, htokens, hunseen tokens, fun h => ?_⟩
      cases h
  | some opt =>
    obtain ⟨hopt_name, hbool⟩ := hknown opt hopt
    -- In both cases the values are pushed to the name.
    refine ⟨m_map.push_back kv.1 kv.2, ?_, fun name _ hne => update_of_ne hne _ _,
      fun _ => update_self _ _ _⟩
    unfold inserted
    by_cases hempty : kv.2 = []
    · rw [hempty]
      exact parse_switch hname hopt hopt_name (hbool.mpr hempty) post m_map
    · have htype : opt.type ≠ .bool := fun heq => hempty (hbool.mp heq)
      obtain ⟨v, values, heq⟩ := exists_cons_of_ne_nil hempty
      rw [heq] at hvalues ⊢
      have hv := hvalues v mem_cons_self
      have hstarts := startsOption_values hname.ne_nil hpost values
      have hrest := @parse_values _ shorts _ hname _ hopt hopt_name htype _ hpost
        values (fun w hw => hvalues w (mem_cons_of_mem v hw)) m_map [v]
      rw [singleton_append] at hrest
      rw [← hrest, if_neg (by simp), flatMap_cons, name_value_of_ne kv.1 hv, append_assoc]
      exact parse_value hname hopt hopt_name htype v hstarts m_map

/-- The added tokens, parsed. -/
theorem parse_entries {entries : OptionMap} (h : ∀ kv ∈ entries, Fits known kv)
    (hnodup : (entries.map Prod.fst).Nodup) : ∀ m_map : TokenMap, ∃ m_map',
      parse_tokens known shorts false (entries.flatMap inserted) m_map = .ok m_map' ∧
      (∀ name, name ≠ POSITIONAL → name ∉ entries.map Prod.fst → m_map' name = m_map name) ∧
      (∀ kv ∈ entries, (known kv.1).isSome →
        m_map' kv.1 = some ((m_map kv.1).getD [] ++ kv.2)) := by
  induction entries with
  | nil =>
    intro m_map
    exact ⟨m_map, rfl, fun _ _ _ => rfl, fun kv hkv => absurd hkv not_mem_nil⟩
  | cons kv entries ih =>
    intro m_map
    have hkv := h kv mem_cons_self
    have hentries : ∀ kv' ∈ entries, Fits known kv' :=
      fun kv' hkv' => h kv' (mem_cons_of_mem kv hkv')
    obtain ⟨hnew, hnodup'⟩ := nodup_cons.mp hnodup
    obtain ⟨m, hparse, hothers, hvalue⟩ :=
      parse_entry hkv (startsOption_entries hentries) m_map
    obtain ⟨m_map', hparse', hothers', hvalue'⟩ := ih hentries hnodup' m
    refine ⟨m_map', ?_, fun name hpositional hname => ?_, fun kv' hkv' hknown => ?_⟩
    · rw [flatMap_cons, hparse, hparse']
    · rw [map_cons, mem_cons, not_or] at hname
      rw [hothers' name hpositional hname.2, hothers name hpositional hname.1]
    · rcases mem_cons.mp hkv' with rfl | hkv'
      · rw [hothers' kv'.1 hkv.name.not_positional hnew, hvalue hknown]
      · have hne : kv'.1 ≠ kv.1 := fun heq => hnew (heq ▸ mem_map_of_mem hkv')
        rw [hvalue' kv' hkv' hknown,
          hothers kv'.1 (hentries kv' hkv').name.not_positional hne]

end Entries

end VW.Config
