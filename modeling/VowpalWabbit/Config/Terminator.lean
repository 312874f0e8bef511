import VowpalWabbit.Config.Conserved

/-! # Behind the terminator

    `options_cli` parses its command line again for every group of options that is
    added, and then without taking `--` for the end of the options. Only
    `check_unregistered` and `get_positional_tokens` do that. What stands behind the
    `--` is nothing but positional when none of it looks like an option, and no list
    takes the `--` for its first value.
-/

open Cpp Bool Except Function

namespace VW.Config

open List Outcome OptionsCli Accounts Begins

/-! ## Groups of options -/

/-- The options of `options_i`, by their names. -/
structure Registry where
  _options : KnownOptions := fun _ => none
  _short_options : KnownShortOptions := fun _ => none

namespace Registry

/-- The last definition is kept. -/
def add_option (r : Registry) (option : BaseOption) : Registry where
  _options := update r._options option.m_name (some option)
  _short_options :=
    match option.m_short_name with
    | some c => update r._short_options c (some option)
    | none => r._short_options

def add_group (r : Registry) (group : List BaseOption) : Registry := group.foldl add_option r

end Registry

/-- The options that are known when all of these groups have been added. -/
def registry (groups : List (List BaseOption)) : Registry := groups.foldl Registry.add_group {}

namespace OptionsCli

/-- The tokens of the options that are known so far. -/
def parse_command_line (options : OptionsCli) (r : Registry) (should_handle_terminator : Bool) :
    Outcome OptionsCli := do
  let m_map ← parse_token_map_with_current_info options.command_line r._options r._short_options
    should_handle_terminator
  return { options with prog_parsed_token_map := m_map }

/-- `internal_add_and_parse`: the options of the group and the values they are given. -/
def internal_add_and_parse (options : OptionsCli) (r : Registry) (group : List BaseOption) :
    Outcome (OptionsCli × List (Σ option : BaseOption, Option option.type.Value)) := do
  let options ← options.parse_command_line r false
  let values ← group.mapM fun option => do
    let value ← handle_typed_option options.prog_parsed_token_map option
    return ⟨option, value⟩
  return (options, values)

def get_positional_tokens (options : OptionsCli) (r : Registry) : Outcome (List (List Byte)) := do
  let options ← options.parse_command_line r true
  return (options.prog_parsed_token_map POSITIONAL).getD []

def unrecognised_option (str : List Byte) : String := "unrecognised option '" ++ to_message str ++ "'"

/-- `check_unregistered`, up to the warnings. -/
def check_unregistered (options : OptionsCli) (r : Registry) : Outcome OptionsCli := do
  let options ← options.parse_command_line r true
  -- The positional tokens are created if there are none.
  let positional := (options.prog_parsed_token_map POSITIONAL).getD []
  match positional.find? is_option_like with
  | some str => throw_ (unrecognised_option str)
  | none =>
    return { options with
      prog_parsed_token_map :=
        update options.prog_parsed_token_map POSITIONAL (some positional) }

end OptionsCli

/-! ## Items and rounds -/

variable {rest given : List (List Byte)} {items : List Item}

section Items

variable {known : KnownOptions} {shorts : KnownShortOptions}
  {handle : Bool}

theorem plan_short {c : Byte} {value : List Byte}
    (h : is_short_option_like (45 :: c :: value) = true) :
    plan known shorts (45 :: c :: value) =
      .ok (shorts c, if value.isEmpty then [] else [value]) := by
  have hlong : ¬ is_long_option_like (45 :: c :: value) = true := by
    intro hlong
    obtain ⟨s, -, heq⟩ := long_option_eq hlong
    -- A short option has no second dash.
    obtain rfl : c = 45 := (cons.inj (cons.inj heq).2).1
    unfold is_short_option_like at h
    simp at h
  unfold plan
  rw [if_neg hlong, if_pos h]

variable {token : List Byte} {opt : BaseOption} {item : Item} {command_line before after : List (List Byte)}

theorem Names.plan (h : Names known shorts token opt given) :
    plan known shorts token = .ok (some opt, given) := by
  cases h with
  | long hne hequal hknown => rw [plan_long _ _ hne hequal, hknown]
  | inline hne hequal hvalue hknown => rw [plan_inline hequal, if_neg hvalue, if_neg hne, hknown]
  | short hshort hknown =>
    rw [plan_short hshort, hknown]
    rfl
  | compound hvalue hshort hknown => rw [plan_short hshort, hknown, if_neg (by simpa using hvalue)]

theorem Unclaimed.plan (h : Unclaimed known shorts token) :
    ∃ given, plan known shorts token = .ok (none, given) := by
  cases h with
  | word hlong hshort =>
    unfold VW.Config.plan
    rw [if_neg (by simp [hlong]), if_neg (by simp [hshort])]
    exact ⟨_, rfl⟩
  | long hne hequal hvalue hknown =>
    rcases hvalue with rfl | ⟨v, hv, rfl⟩
    · rw [append_nil, plan_long _ _ hne hequal, hknown]
      exact ⟨_, rfl⟩
    · rw [plan_inline hequal, if_neg hv, if_neg hne, hknown]
      exact ⟨_, rfl⟩
  | short hshort hknown =>
    rw [plan_short hshort, hknown]
    exact ⟨_, rfl⟩

theorem not_terminator_of_plan
    (h : plan known shorts token ≠ .ok (none, [])) :
    is_terminator token = false := by
  unfold is_terminator
  rw [beq_eq_false_iff_ne]
  intro heq
  rw [heq] at h
  exact h rfl

theorem Names.not_terminator (h : Names known shorts token opt given) :
    is_terminator token = false := by
  have hplan := h.plan
  exact not_terminator_of_plan (by rw [hplan]; intro heq; cases heq)

/-- Values up to a token that looks like an option. -/
theorem take_until_option_like {more : List (List Byte)}
    (hmore : ∀ token ∈ more, is_option_like token = false)
    (hhead : ∀ token ∈ rest.head?, is_option_like token = true) :
    (more ++ rest).takeWhile (fun token => !is_option_like token) = more ∧
    (more ++ rest).dropWhile (fun token => !is_option_like token) = rest := by
  have hall : ∀ token ∈ more, (!is_option_like token) = true := by
    intro token htoken
    rw [hmore token htoken]
    rfl
  rw [takeWhile_append_of_pos hall, dropWhile_append_of_pos hall]
  cases rest with
  | nil => exact ⟨append_nil more, rfl⟩
  | cons token rest => simp [hhead token rfl]

variable {taken : List (List Byte)}

theorem Takes.consume (h : Takes opt given taken rest)
    (hgiven : given = [] ∨ ∃ value, given = [value]) :
    consume_tokens opt (taken ++ rest) given = .ok (given ++ taken, rest) := by
  by_cases hbool : opt.type = .bool
  · rw [takes_bool hbool, append_eq_nil_iff] at h
    obtain ⟨rfl, rfl⟩ := h
    rw [consume_tokens_bool hbool]
    rfl
  · by_cases hvector : opt.type = .vector
    · obtain ⟨hne, htail, hhead⟩ := (takes_vector hvector).mp h
      rw [consume_tokens_vector hvector]
      -- The list ends where it was taken to end.
      rcases hgiven with rfl | ⟨value, rfl⟩
      · cases taken with
        | nil => exact absurd rfl hne
        | cons first more =>
          have hmore : ∀ token ∈ more, is_option_like token = false := htail
          obtain ⟨htake, hdrop⟩ := take_until_option_like hmore hhead
          show ok ([first] ++ (more ++ rest).takeWhile _, (more ++ rest).dropWhile _) = _
          rw [htake, hdrop]
          rfl
      · have hmore : ∀ token ∈ taken, is_option_like token = false := htail
        obtain ⟨htake, hdrop⟩ := take_until_option_like hmore hhead
        show ok ([value] ++ (taken ++ rest).takeWhile _, (taken ++ rest).dropWhile _) = _
        rw [htake, hdrop]
    · have hone := (takes_single hbool hvector).mp h
      rw [consume_tokens_single hbool hvector]
      rcases hgiven with rfl | ⟨value, rfl⟩
      · obtain ⟨first, rfl⟩ := length_eq_one_iff.mp hone
        rfl
      · obtain rfl : taken = [] := length_eq_zero_iff.mp (by simpa using hone)
        rfl

/-- Only a list looks at what follows it. -/
theorem Takes.any_rest (h : Takes opt given taken rest) (hvector : opt.type ≠ .vector)
    (rest' : List (List Byte)) : Takes opt given taken rest' := by
  by_cases hbool : opt.type = .bool
  · exact (takes_bool hbool).mpr ((takes_bool hbool).mp h)
  · exact (takes_single hbool hvector).mpr ((takes_single hbool hvector).mp h)

variable {tokens : List (List Byte)}

/-- The round that takes the item. -/
theorem Begins.consume (h : Begins known shorts handle (token :: tokens) item rest)
    (m_map : TokenMap) :
    consume_token handle known shorts token tokens m_map =
      .ok (rest, item.groups.foldl (fun m kv => m.push_back kv.1 kv.2) m_map) := by
  cases h with
  | positional hunclaimed hnot =>
    obtain ⟨given, hplan⟩ := hunclaimed.plan
    rw [consume_token_plan _ _ hnot, hplan]
    rfl
  | option hnames htakes =>
    have hnot : (handle && is_terminator token) = false := by
      rw [hnames.not_terminator, Bool.and_false]
    rw [consume_token_plan _ _ hnot, hnames.plan, ok_bind]
    show (consume_tokens _ _ _ >>= _) = _
    rw [htakes.consume hnames.given_cases]
    rfl
  | terminator hhandle =>
    subst hhandle
    rw [consume_token_terminator]
    unfold Item.groups
    rw [foldl_map]

/-- The rounds that take the items. -/
theorem Accounts.parse (h : Accounts known shorts handle command_line items rest)
    (groups : OptionMap) :
    parse_tokens known shorts handle command_line
        (token_map groups) =
      parse_tokens known shorts handle rest
        (token_map (groups ++ items.flatMap Item.groups)) := by
  induction h generalizing groups with
  | done rest => rw [flatMap_nil, append_nil]
  | @item command_line rest rest' item items hbegins _ ih =>
    cases command_line with
    | nil => cases hbegins
    | cons token tokens =>
      rw [parse_tokens_cons, hbegins.consume, ok_bind, foldl_push_token_map, ih,
        flatMap_cons, append_assoc]

variable {message : String}

/-- The round that throws. -/
theorem Rejects.consume (h : Rejects known shorts token rest message) (m_map : TokenMap) :
    consume_token handle known shorts token rest m_map =
      throw_ message := by
  -- No token that is rejected is the terminator.
  have hround (hnot : is_terminator token = false) :
      consume_token handle known shorts token rest m_map =
        plan known shorts token >>= fun p =>
          consume_known p.1 token rest p.2 m_map :=
    consume_token_plan _ _ (by rw [hnot, Bool.and_false]) rest m_map
  have hthrow (hplan : plan known shorts token = throw_ message) :
      consume_token handle known shorts token rest m_map =
        throw_ message := by
    rw [hround (not_terminator_of_plan (by rw [hplan]; intro heq; cases heq)), hplan]
    rfl
  cases h with
  | no_value hequal => exact hthrow (by rw [plan_inline hequal, if_pos rfl])
  | @no_name value rest hvalue =>
    have hplan := @plan_inline known shorts [] value not_mem_nil
    rw [if_neg hvalue, if_pos rfl] at hplan
    exact hthrow hplan
  | switch hnames hbool =>
    rw [hround hnames.not_terminator, hnames.plan, ok_bind]
    show (consume_tokens _ _ _ >>= _) = _
    rw [consume_tokens_bool hbool]
    rfl
  | @missing token opt hnames hbool =>
    have hfirst : consume_tokens opt [] [] = throw_
        ("Expected value for " ++ to_message opt.m_name ++ " but found nothing") := by
      by_cases hvector : opt.type = .vector
      · rw [consume_tokens_vector hvector]
        rfl
      · rw [consume_tokens_single hbool hvector]
        rfl
    rw [hround hnames.not_terminator, hnames.plan, ok_bind]
    show (consume_tokens _ _ _ >>= _) = _
    rw [hfirst]
    rfl

/-- The two outcomes of parsing, from the items. -/
theorem Accounts.parsed (h : Accounts known shorts handle command_line items []) :
    parse_token_map_with_current_info command_line known shorts
      handle = .ok (token_map (items.flatMap Item.groups)) :=
  h.parse []

theorem Accounts.thrown (h : Accounts known shorts handle command_line items
      (token :: rest)) (hrejects : Rejects known shorts token rest message) :
    parse_token_map_with_current_info command_line known shorts
      handle = throw_ message := by
  have hparse := h.parse []
  rw [parse_tokens_cons, hrejects.consume] at hparse
  exact hparse

/-! ## More tokens at the end -/

/-- An item that ends in front of a token is the same with more tokens behind that. -/
theorem Begins.extend (h : Begins known shorts handle command_line item rest) (hne : rest ≠ [])
    (more : List (List Byte)) :
    Begins known shorts handle (command_line ++ more) item
      (rest ++ more) := by
  cases h with
  | positional hunclaimed hnot => exact positional hunclaimed hnot
  | @option token opt given taken _ hnames htakes =>
    have htakes' : Takes opt given taken (rest ++ more) := by
      by_cases hvector : opt.type = .vector
      · rw [takes_vector hvector, head?_append_of_ne_nil _ hne]
        exact (takes_vector hvector).mp htakes
      · exact htakes.any_rest hvector _
    rw [cons_append, append_assoc]
    exact option hnames htakes'
  | terminator => exact absurd rfl hne

theorem Accounts.extend (h : Accounts known shorts handle command_line items rest)
    (hne : rest ≠ []) (more : List (List Byte)) :
    Accounts known shorts handle (command_line ++ more) items
      (rest ++ more) := by
  induction h with
  | done last => exact done _
  | @item command_line middle last item items hbegins haccounts ih =>
    have hmiddle : middle ≠ [] := by
      rw [haccounts.tokens]
      exact append_ne_nil_of_right_ne_nil _ hne
    exact .item (hbegins.extend hmiddle more) (ih hne)

/-- The last token of a command line is the name of a list, which waits for its first
    value. -/
def AwaitsList (known_options : KnownOptions) (known_short_options : KnownShortOptions)
    (should_handle_terminator : Bool) (command_line : List (List Byte)) : Prop :=
  ∃ items token opt, Accounts known_options known_short_options should_handle_terminator
      command_line items [token] ∧
    Names known_options known_short_options token opt [] ∧ opt.type = .vector

/-- An item that ends in front of a token is the same without the last token. -/
theorem Begins.shrink (h : Begins known shorts handle (command_line ++ [token])
      item (rest ++ [token])) : Begins known shorts handle command_line item rest := by
  generalize hline : command_line ++ [token] = line at h
  generalize hend : rest ++ [token] = last at h
  cases h with
  | @positional token' last hunclaimed hnot =>
    subst hend
    rw [← cons_append] at hline
    rw [append_cancel_right hline]
    exact positional hunclaimed hnot
  | @option token' opt given taken last hnames htakes =>
    subst hend
    rw [← append_assoc, ← cons_append] at hline
    rw [append_cancel_right hline]
    have htakes' : Takes opt given taken rest := by
      by_cases hvector : opt.type = .vector
      · obtain ⟨hne, htail, hhead⟩ := (takes_vector hvector).mp htakes
        have hhead' : ∀ t ∈ rest.head?, is_option_like t = true := by
          cases rest with
          | nil => exact fun t ht => absurd ht (Option.not_mem_none t)
          | cons first rest => exact hhead
        exact (takes_vector hvector).mpr ⟨hne, htail, hhead'⟩
      · exact htakes.any_rest hvector rest
    exact option hnames htakes'
  | terminator => simp at hend

theorem not_option_like (h : is_option_like token = false) :
    is_long_option_like token = false ∧ is_short_option_like token = false ∧
      is_terminator token = false := by
  unfold is_option_like at h
  simp only [or_eq_false_iff] at h
  exact ⟨h.1.1, h.1.2, h.2⟩

theorem accounts_words (h : ∀ token ∈ tokens, is_option_like token = false) :
    Accounts known shorts handle tokens
      (tokens.map Item.positional) [] := by
  induction tokens with
  | nil => exact done []
  | cons token tokens ih =>
    obtain ⟨hlong, hshort, hterminator⟩ := not_option_like (h token mem_cons_self)
    have hnot : (handle && is_terminator token) = false := by
      rw [hterminator, Bool.and_false]
    exact .item (positional (Unclaimed.word hlong hshort) hnot)
      (ih fun t ht => h t (mem_cons_of_mem token ht))

theorem groups_words (tokens : List (List Byte)) :
    (tokens.map Item.positional).flatMap Item.groups =
      tokens.map fun token => (POSITIONAL, [token]) := by
  rw [flatMap_map]
  exact map_eq_flatMap.symm

/-- The item that has the last token, with more tokens behind it. -/
theorem Begins.add_later
    (h : Begins known shorts handle
      (before ++ [text "--"]) item []) (hwords : ∀ token ∈ after, is_option_like token = false)
    (hlist : after ≠ [] →
      ¬ AwaitsList known shorts handle before) :
    ∃ items, Accounts known shorts handle
        (before ++ text "--" :: after) items [] ∧
      items.flatMap Item.groups = item.groups ++ after.map fun token => (POSITIONAL, [token]) := by
  have hsplit : before ++ text "--" :: after = (before ++ [text "--"]) ++ after := by simp
  -- The item is followed by the words.
  have hwords' (hbegins : Begins known shorts handle
      (before ++ text "--" :: after) item after) :
      ∃ items, Accounts known shorts handle
          (before ++ text "--" :: after) items [] ∧
        items.flatMap Item.groups = item.groups ++ after.map fun token => (POSITIONAL, [token]) := by
    exact ⟨_, .item hbegins (accounts_words hwords),
      by rw [flatMap_cons, groups_words]⟩
  rw [hsplit] at hwords' ⊢
  generalize hline : before ++ [text "--"] = line at h hwords' ⊢
  cases h with
  | positional hunclaimed hnot => exact hwords' (positional hunclaimed hnot)
  | @option token opt given taken _ hnames htakes =>
    rw [append_nil] at hline hwords' ⊢
    by_cases hafter : after = []
    · subst hafter
      rw [append_nil] at hwords' ⊢
      have hbegins := @Begins.option _ _ handle _ _ _ _ _ hnames htakes
      rw [append_nil] at hbegins
      exact hwords' hbegins
    · by_cases hvector : opt.type = .vector
      · -- The list would have the terminator for its first value.
        obtain ⟨-, htail, -⟩ := (takes_vector hvector).mp htakes
        rcases eq_nil_or_concat' taken with rfl | ⟨values, last, rfl⟩
        · have hlast := (@append_inj' _ before _ [] _ hline rfl).2
          have hterminator := hnames.not_terminator
          rw [← singleton_inj.mp hlast] at hterminator
          cases hterminator
        · rw [← cons_append] at hline
          obtain ⟨hbefore, hlast⟩ := append_inj' hline rfl
          rw [← singleton_inj.mp hlast, ← append_assoc] at htail
          by_cases hvalues : given ++ values = []
          · obtain ⟨rfl, rfl⟩ := append_eq_nil_iff.mp hvalues
            rw [hbefore] at hlist
            exact absurd ⟨[], token, opt, done _, hnames, hvector⟩ (hlist hafter)
          · rw [tail_append_of_ne_nil hvalues] at htail
            have hlike := htail (text "--") (mem_append_right _ (mem_singleton_self _))
            cases hlike
      · exact hwords' (option hnames (htakes.any_rest hvector after))
  | @terminator tokens hhandle =>
    have hgroups : [Item.terminator (tokens ++ after)].flatMap Item.groups =
        (Item.terminator tokens).groups ++ after.map fun token => (POSITIONAL, [token]) := by
      simp [Item.groups]
    exact ⟨_, .item (terminator hhandle) (done []), hgroups⟩

theorem AwaitsList.cons {command_line rest : List (List Byte)} {item : Item}
    (hbegins : Begins known shorts handle
      (command_line ++ [text "--"]) item (rest ++ [text "--"]))
    (h : AwaitsList known shorts handle rest) :
    AwaitsList known shorts handle command_line := by
  obtain ⟨items, token, opt, haccounts, hnames, hvector⟩ := h
  exact ⟨item :: items, token, opt, .item hbegins.shrink haccounts, hnames, hvector⟩

/-- Words behind the terminator are positional, one after the other. -/
theorem Accounts.add_later (h : Accounts known shorts handle
      (before ++ [text "--"]) items []) (hwords : ∀ token ∈ after, is_option_like token = false)
    (hlist : after ≠ [] →
      ¬ AwaitsList known shorts handle before) :
    ∃ items', Accounts known shorts handle
        (before ++ text "--" :: after) items' [] ∧
      items'.flatMap Item.groups =
        items.flatMap Item.groups ++ after.map fun token => (POSITIONAL, [token]) := by
  generalize hline : before ++ [text "--"] = line at h
  generalize hend : ([] : List (List Byte)) = last at h
  induction h generalizing before with
  | done last =>
    rw [← hend] at hline
    simp at hline
  | @item line rest last item items hbegins haccounts ih =>
    subst hend
    rcases eq_nil_or_concat' rest with rfl | ⟨before', token, rfl⟩
    · -- The item is the last one.
      have hitems : items = [] := by
        cases haccounts with
        | done => rfl
        | item hnone _ => cases hnone
      subst hline hitems
      obtain ⟨items', haccounts', hgroups⟩ := hbegins.add_later hwords hlist
      rw [flatMap_singleton]
      exact ⟨items', haccounts', hgroups⟩
    · have htokens := hbegins.tokens
      rw [← hline, ← append_assoc] at htokens
      obtain ⟨hbefore, hlast⟩ := append_inj' htokens rfl
      obtain rfl := singleton_inj.mp hlast
      subst hline
      have hlist' : after ≠ [] →
          ¬ AwaitsList known shorts handle before' :=
        fun hafter hawaits => hlist hafter (hawaits.cons hbegins)
      obtain ⟨items', haccounts', hgroups⟩ := ih hlist' rfl rfl
      have hmore := hbegins.extend (by simp) after
      rw [append_assoc, append_assoc, singleton_append] at hmore
      rw [flatMap_cons, append_assoc, ← hgroups]
      exact ⟨item :: items', .item hmore haccounts', flatMap_cons⟩

variable (known) (shorts) (handle) in
/-- Words behind the terminator change nothing but the positional tokens. -/
theorem parse_add_later
    (hwords : ∀ token ∈ after, is_option_like token = false)
    (hlist : after ≠ [] →
      ¬ AwaitsList known shorts handle before) :
    (∃ groups, parse_token_map_with_current_info (before ++ [text "--"]) known
        shorts handle = .ok (token_map groups) ∧
      parse_token_map_with_current_info (before ++ text "--" :: after) known
        shorts handle =
          .ok (token_map (groups ++ after.map fun token => (POSITIONAL, [token])))) ∨
    (∃ message, parse_token_map_with_current_info (before ++ [text "--"]) known
        shorts handle = throw_ message ∧
      parse_token_map_with_current_info (before ++ text "--" :: after) known
        shorts handle = throw_ message) := by
  rcases parse_tokens_spec known shorts handle _
    (before ++ [text "--"]) [] (Nat.le_refl _) with ⟨items, haccounts, hparse⟩ |
    ⟨items, token, rest, message, haccounts, hrejects, hparse⟩
  · obtain ⟨items', haccounts', hgroups⟩ := haccounts.add_later hwords hlist
    have hmore := haccounts'.parsed
    rw [hgroups] at hmore
    exact Or.inl ⟨_, hparse, hmore⟩
  · have hextend := haccounts.extend (cons_ne_nil _ _) after
    rw [append_assoc, singleton_append, cons_append] at hextend
    -- The token is not the last one, which is the terminator.
    have hmore : Rejects known shorts token (rest ++ after) message := by
      cases hrejects with
      | no_value hequal => exact Rejects.no_value hequal
      | no_name hvalue => exact Rejects.no_name hvalue
      | switch hnames hbool => exact Rejects.switch hnames hbool
      | missing hnames hbool =>
        have hlast := (append_inj' haccounts.tokens rfl).2
        have hterminator := hnames.not_terminator
        rw [← singleton_inj.mp hlast] at hterminator
        cases hterminator
    exact Or.inr ⟨message, hparse, hextend.thrown hmore⟩

theorem Accounts.append {command_line middle rest : List (List Byte)} {items items' : List Item}
    (h : Accounts known shorts handle command_line items middle)
    (h' : Accounts known shorts handle middle items' rest) :
    Accounts known shorts handle command_line
      (items ++ items') rest := by
  induction h with
  | done middle => exact h'
  | item hbegins _ ih => exact .item hbegins (ih h')

/-- A list that waits for its first value takes the terminator, and all words. -/
theorem AwaitsList.parsed
    (h : AwaitsList known shorts handle before) :
    ∃ groups token opt, Names known shorts token opt [] ∧
      ∀ after : List (List Byte), (∀ token ∈ after, is_option_like token = false) →
        parse_token_map_with_current_info (before ++ text "--" :: after) known
          shorts handle =
            .ok (token_map (groups ++ [(opt.m_name, text "--" :: after)])) := by
  obtain ⟨items, token, opt, haccounts, hnames, hvector⟩ := h
  have hparse : ∀ after : List (List Byte), (∀ token ∈ after, is_option_like token = false) →
      parse_token_map_with_current_info (before ++ text "--" :: after) known
        shorts handle =
          .ok (token_map (items.flatMap Item.groups ++ [(opt.m_name, text "--" :: after)])) := by
    intro after hwords
    have hextend := haccounts.extend (cons_ne_nil _ _) (text "--" :: after)
    have htakes : Takes opt [] (text "--" :: after) [] :=
      (takes_vector hvector).mpr ⟨cons_ne_nil _ _, hwords, fun t ht => by cases ht⟩
    have hlast := @Begins.option _ _ handle _ _ _ _ _ hnames htakes
    rw [append_nil] at hlast
    have hall := (hextend.append (.item hlast (done []))).parsed
    rw [flatMap_append] at hall
    exact hall
  exact ⟨_, token, opt, hnames, hparse⟩

end Items

/-! ## The command line with and without the later tokens -/

theorem registry_eq (groups : List (List BaseOption)) :
    registry groups = groups.flatten.foldl Registry.add_option {} := by
  unfold registry Registry.add_group
  rw [foldl_flatten]

theorem known_add_option {r : Registry} {last : BaseOption} :
    (∀ name option, (r.add_option last)._options name = some option →
      option = last ∨ r._options name = some option) ∧
    (∀ c option, (r.add_option last)._short_options c = some option →
      option = last ∨ r._short_options c = some option) := by
  unfold Registry.add_option
  constructor
  · intro name option h
    simp only [update_apply] at h
    split at h
    · exact Or.inl (Option.some.inj h).symm
    · exact Or.inr h
  · intro c option h
    cases hshort : last.m_short_name with
    | none =>
      rw [hshort] at h
      exact Or.inr h
    | some c' =>
      rw [hshort] at h
      simp only [update_apply] at h
      split at h
      · exact Or.inl (Option.some.inj h).symm
      · exact Or.inr h

/-- The options that are known are those that were added. -/
theorem mem_of_known (options : List BaseOption) :
    (∀ name option, (options.foldl Registry.add_option {})._options name = some option →
      option ∈ options) ∧
    (∀ c option, (options.foldl Registry.add_option {})._short_options c = some option →
      option ∈ options) := by
  induction options using reverseRecOn with
  | nil =>
    constructor
    · intro name option h
      cases h
    · intro c option h
      cases h
  | append_singleton options last ih =>
    have hlast : last ∈ options ++ [last] := mem_append_right _ (mem_singleton_self last)
    rw [foldl_append]
    constructor
    · intro name option h
      rcases known_add_option.1 name option h with rfl | hother
      · exact hlast
      · exact mem_append_left _ (ih.1 name option hother)
    · intro c option h
      rcases known_add_option.2 c option h with rfl | hother
      · exact hlast
      · exact mem_append_left _ (ih.2 c option hother)

theorem mem_of_names {groups : List (List BaseOption)} {token : List Byte} {opt : BaseOption}
    (h : Names (registry groups)._options (registry groups)._short_options token opt given) :
    opt ∈ groups.flatten := by
  rw [registry_eq] at h
  cases h with
  | long _ _ hknown => exact (mem_of_known _).1 _ _ hknown
  | inline _ _ _ hknown => exact (mem_of_known _).1 _ _ hknown
  | short _ hknown => exact (mem_of_known _).2 _ _ hknown
  | compound _ _ hknown => exact (mem_of_known _).2 _ _ hknown

variable {option : BaseOption}

theorem handle_congr {m_map m_map' : TokenMap} (h : m_map option.m_name = m_map' option.m_name) :
    handle_typed_option m_map option = handle_typed_option m_map' option := by
  obtain ⟨m_name, short, keep, allow, type, default⟩ := option
  unfold handle_typed_option
  cases type with
  | bool | vector | uint32 | uint64 | int32 | int64 | float | string =>
    simp only at h ⊢
    rw [h]

theorem token_map_getD (groups : OptionMap) (name : List Byte) :
    (token_map groups name).getD [] = collected groups name := by
  unfold token_map
  by_cases hex : ∃ kv ∈ groups, kv.1 = name
  · rw [if_pos hex]
    rfl
  · rw [if_neg hex, collected_of_ne fun kv hkv heq => hex ⟨kv, hkv, heq⟩]
    rfl

theorem token_map_snoc (groups : OptionMap) (name : List Byte) (tokens : List (List Byte)) :
    token_map (groups ++ [(name, tokens)]) name = some (collected groups name ++ tokens) := by
  have hpush := congrFun (push_token_map groups (name, tokens)) name
  unfold TokenMap.push_back at hpush
  rw [update_self, token_map_getD] at hpush
  exact hpush.symm

/-- The map has the same tokens for all names but that of the positional tokens. -/
theorem token_map_positional (groups : OptionMap) (words : List (List Byte)) {name : List Byte}
    (hname : name ≠ POSITIONAL) :
    token_map (groups ++ words.map fun token => (POSITIONAL, [token])) name =
      token_map groups name := by
  have hne : ∀ kv ∈ words.map fun token => (POSITIONAL, [token]), kv.1 ≠ name := by
    intro kv hkv
    obtain ⟨token, -, rfl⟩ := mem_map.mp hkv
    exact hname.symm
  have hiff : (∃ kv ∈ groups ++ words.map fun token => (POSITIONAL, [token]), kv.1 = name) ↔
      ∃ kv ∈ groups, kv.1 = name := by
    constructor
    · intro hex
      obtain ⟨kv, hkv, heq⟩ := hex
      rcases mem_append.mp hkv with hkv | hkv
      · exact ⟨kv, hkv, heq⟩
      · exact absurd heq (hne kv hkv)
    · intro hex
      obtain ⟨kv, hkv, heq⟩ := hex
      exact ⟨kv, mem_append_left _ hkv, heq⟩
  unfold token_map
  rw [collected_append_groups, collected_of_ne hne, append_nil]
  simp only [hiff]

theorem collected_words (words : List (List Byte)) :
    collected (words.map fun token => (POSITIONAL, [token])) POSITIONAL = words := by
  rw [collected_of_eq (by simp), flatMap_map]
  exact flatMap_singleton' words

theorem token_map_positional_self (groups : OptionMap) (words : List (List Byte)) :
    (token_map (groups ++ words.map fun token => (POSITIONAL, [token])) POSITIONAL).getD [] =
      (token_map groups POSITIONAL).getD [] ++ words := by
  rw [token_map_getD, token_map_getD, collected_append_groups, collected_words]

/-! ## When the later tokens are only positional -/

/-- The names by which an option may have been supplied. -/
def BaseOption.keys (option : BaseOption) : List (List Byte) :=
  option.m_name :: option.m_short_name.toList.map fun c => [c]

/-- The tokens behind the `--` are positional tokens, in their order, and otherwise the
    command line is as if they were not there: in every stage the options have the same
    tokens and values and the same ones are supplied, and no token is an option that is
    not recognised. -/
structure OnlyPositional (groups : List (List BaseOption)) (before after : List (List Byte)) :
    Prop where
  positional : get_positional_tokens { command_line := before ++ text "--" :: after }
      (registry groups) =
    (get_positional_tokens { command_line := before ++ [text "--"] }
      (registry groups)).map (· ++ after)
  tokens : ∀ added, added <+: groups → ∀ option ∈ added.flatten,
    (parse_command_line { command_line := before ++ text "--" :: after }
      (registry added) false).map (fun options => options.prog_parsed_token_map option.m_name) =
    (parse_command_line { command_line := before ++ [text "--"] }
      (registry added) false).map fun options => options.prog_parsed_token_map option.m_name
  values : ∀ added group, added ++ [group] <+: groups →
    (internal_add_and_parse { command_line := before ++ text "--" :: after }
      (registry (added ++ [group])) group).map Prod.snd =
    (internal_add_and_parse { command_line := before ++ [text "--"] }
      (registry (added ++ [group])) group).map Prod.snd
  supplied : ∀ added, added <+: groups → added ≠ [] → ∀ option ∈ groups.flatten,
    ∀ key ∈ option.keys,
    (parse_command_line { command_line := before ++ text "--" :: after }
      (registry added) false).map (fun options => options.was_supplied key) =
    (parse_command_line { command_line := before ++ [text "--"] }
      (registry added) false).map fun options => options.was_supplied key
  recognised : ∀ str, check_unregistered
      { command_line := before ++ text "--" :: after } (registry groups) ≠
    throw_ (unrecognised_option str)

/-- No later token looks like an option, or begins like a short one that is not supplied
    already; the `--` is in no stage the first value of a list; and no option has the
    name that stands for the positional tokens. -/
structure LaterWords (groups : List (List BaseOption)) (before after : List (List Byte)) : Prop where
  words : ∀ token ∈ after, is_option_like token = false
  no_list : after ≠ [] → ∀ added, added <+: groups →
    ¬ AwaitsList (registry added)._options (registry added)._short_options false before
  names : after ≠ [] → ∀ option ∈ groups.flatten, POSITIONAL ∉ option.keys
  supplied : ∀ added, added <+: groups → added ≠ [] → ∀ options,
    parse_command_line { command_line := before ++ [text "--"] } (registry added) false =
      .ok options →
    ∀ option ∈ groups.flatten, ∀ key ∈ option.keys, options.was_supplied key = false →
      ∀ token ∈ after, starts_with token (45 :: key) = false

theorem mapM_congr {T U : Type} {f g : T → Outcome U} {l : List T} (h : ∀ a ∈ l, f a = g a) :
    l.mapM f = l.mapM g := by
  induction l with
  | nil => rfl
  | cons a l ih =>
    rw [mapM_cons, mapM_cons, h a mem_cons_self,
      ih fun b hb => h b (mem_cons_of_mem a hb)]

section Later

variable {groups : List (List BaseOption)} {before after : List (List Byte)}

variable {known : KnownOptions} {shorts : KnownShortOptions} {command_line : List (List Byte)}
  {added : List (List BaseOption)} {key : List Byte} {m_map : TokenMap} {r : Registry}

theorem Begins.no_terminator {item : Item} (h : Begins known shorts true command_line item rest)
    (hne : rest ≠ []) : Begins known shorts false command_line item rest := by
  cases h with
  | positional hunclaimed _ => exact positional hunclaimed (false_and _)
  | option hnames htakes => exact option hnames htakes
  | terminator => exact absurd rfl hne

theorem AwaitsList.no_terminator
    (h : AwaitsList known shorts true before) :
    AwaitsList known shorts false before := by
  obtain ⟨items, token, opt, haccounts, hnames, hvector⟩ := h
  generalize hend : [token] = last at haccounts
  have haccounts' : Accounts known shorts false before items last := by
    induction haccounts with
    | done last => exact done last
    | @item command_line middle last item items hbegins haccounts ih =>
      have hmiddle : middle ≠ [] := by
        rw [haccounts.tokens, ← hend]
        exact append_ne_nil_of_right_ne_nil _ (cons_ne_nil _ _)
      exact .item (hbegins.no_terminator hmiddle) (ih hend)
  rw [← hend] at haccounts'
  exact ⟨items, token, opt, haccounts', hnames, hvector⟩

/-- The later tokens in one stage. -/
theorem LaterWords.stage (h : LaterWords groups before after)
    (hadded : added <+: groups) :
    (∃ found, parse_command_line { command_line := before ++ [text "--"] }
        (registry added) false = .ok ⟨before ++ [text "--"], token_map found⟩ ∧
      parse_command_line { command_line := before ++ text "--" :: after }
        (registry added) false = .ok ⟨before ++ text "--" :: after,
          token_map (found ++ after.map fun token => (POSITIONAL, [token]))⟩) ∨
    (∃ message, parse_command_line { command_line := before ++ [text "--"] }
        (registry added) false = throw_ message ∧
      parse_command_line { command_line := before ++ text "--" :: after }
        (registry added) false = throw_ message) := by
  unfold parse_command_line
  rcases parse_add_later (registry added)._options (registry added)._short_options false h.words
    (fun hafter => h.no_list hafter added hadded) with ⟨found, hfirst, hall⟩ | ⟨message, hfirst, hall⟩
  · rw [hfirst, hall]
    exact Or.inl ⟨found, rfl, rfl⟩
  · rw [hfirst, hall]
    exact Or.inr ⟨message, rfl, rfl⟩

/-- The option has the same tokens with the later ones. -/
theorem LaterWords.same_tokens (h : LaterWords groups before after)
    (hoption : option ∈ groups.flatten) (hkey : key ∈ option.keys) (found : OptionMap) :
    token_map (found ++ after.map fun token => (POSITIONAL, [token])) key = token_map found key := by
  by_cases hafter : after = []
  · rw [hafter, map_nil, append_nil]
  · have hne : key ≠ POSITIONAL := fun heq => h.names hafter option hoption (heq ▸ hkey)
    exact token_map_positional found after hne

theorem flatten_subset (h : added <+: groups) (hoption : option ∈ added.flatten) :
    option ∈ groups.flatten := by
  obtain ⟨rest, rfl⟩ := h
  rw [flatten_append]
  exact mem_append_left _ hoption

theorem m_name_mem_keys (option : BaseOption) : option.m_name ∈ option.keys := mem_cons_self

theorem LaterWords.values (h : LaterWords groups before after)
    {group : List BaseOption} (hadded : added ++ [group] <+: groups) :
    (internal_add_and_parse { command_line := before ++ text "--" :: after }
      (registry (added ++ [group])) group).map Prod.snd =
    (internal_add_and_parse { command_line := before ++ [text "--"] }
      (registry (added ++ [group])) group).map Prod.snd := by
  unfold internal_add_and_parse
  rcases h.stage hadded with ⟨found, hfirst, hall⟩ | ⟨message, hfirst, hall⟩
  · rw [hfirst, hall, ok_bind, ok_bind]
    have hvalues : (group.mapM fun option => do
          let value ← handle_typed_option
            (token_map (found ++ after.map fun token => (POSITIONAL, [token]))) option
          return (⟨option, value⟩ : Σ option : BaseOption, Option option.type.Value)) =
        group.mapM fun option => do
          let value ← handle_typed_option (token_map found) option
          return (⟨option, value⟩ : Σ option : BaseOption, Option option.type.Value) := by
      refine mapM_congr fun option hoption => ?_
      have hgroups : option ∈ groups.flatten := flatten_subset hadded (by simp [hoption])
      rw [handle_congr (h.same_tokens hgroups (m_name_mem_keys option) found)]
    have hsnd {V : Type} (x : Outcome V) (options : OptionsCli) :
        (x >>= fun values => ok (options, values)).map Prod.snd = x := by
      cases x <;> rfl
    exact (hsnd _ _).trans (hvalues.trans (hsnd _ _).symm)
  · rw [hfirst, hall]

/-- The command line has every token once more. -/
theorem any_later (p : List Byte → Bool) : ((before ++ text "--" :: after).any p) =
    ((before ++ [text "--"]).any p || after.any p) := by
  rw [any_append, any_append, any_cons, any_cons, any_nil, Bool.or_false,
    Bool.or_assoc]

/-- A token that begins like `--key` looks like an option. -/
theorem long_key_option_like {token : List Byte}
    (h : (starts_with token (text "--" ++ key) &&
      (decide (token.length = key.length + 2) || token[key.length + 2]? == some 61)) = true) :
    is_option_like token = true := by
  obtain ⟨hstarts, hends⟩ := Bool.and_eq_true_iff.mp h
  have htake : token.take (key.length + 2) = text "--" ++ key := by
    unfold starts_with at hstarts
    have hlen : (text "--" ++ key).length = key.length + 2 := by
      rw [length_append, Nat.add_comm]
      rfl
    rw [hlen] at hstarts
    simpa using hstarts
  obtain ⟨rest, rfl⟩ : ∃ rest, token = text "--" ++ key ++ rest := by
    exact ⟨token.drop (key.length + 2), by rw [← htake, take_append_drop]⟩
  by_cases hrest : key ++ rest = []
  · obtain ⟨rfl, rfl⟩ := append_eq_nil_iff.mp hrest
    rfl
  · rw [append_assoc]
    have hlong := long_option_of_name hrest
    unfold is_option_like
    rw [hlong]
    rfl

/-- The later words supply what was supplied without them. -/
theorem was_supplied_later {m_map' : TokenMap}
    (hsame : m_map' key = m_map key) (hwords : ∀ token ∈ after, is_option_like token = false)
    (hshort : was_supplied ⟨before ++ [text "--"], m_map⟩ key = false →
      ∀ token ∈ after, starts_with token (45 :: key) = false) :
    was_supplied ⟨before ++ text "--" :: after, m_map'⟩ key =
      was_supplied ⟨before ++ [text "--"], m_map⟩ key := by
  have hlong : after.any (fun arg => starts_with arg (text "--" ++ key) &&
      (decide (arg.length = key.length + 2) || arg[key.length + 2]? == some 61)) = false := by
    rw [any_eq_false]
    intro token htoken hkey
    have hlike := long_key_option_like hkey
    rw [hwords token htoken] at hlike
    cases hlike
  have hwhole : was_supplied ⟨before ++ text "--" :: after, m_map'⟩ key =
      (was_supplied ⟨before ++ [text "--"], m_map⟩ key ||
        after.any fun arg => starts_with arg (45 :: key)) := by
    unfold was_supplied
    simp only
    rw [@any_later before after, @any_later before after, hsame, hlong, Bool.or_false]
    ac_rfl
  rw [hwhole]
  by_cases hsupplied : was_supplied ⟨before ++ [text "--"], m_map⟩ key = true
  · rw [hsupplied, Bool.true_or]
  · have hfalse := Bool.eq_false_iff.mpr hsupplied
    have hnone : after.any (fun arg => starts_with arg (45 :: key)) = false := by
      rw [any_eq_false]
      intro token htoken
      rw [hshort hfalse token htoken]
      exact false_ne_true
    rw [hnone, Bool.or_false]

/-- What `check_unregistered` and `get_positional_tokens` return. -/
theorem check_unregistered_ok {options : OptionsCli}
    (h : check_unregistered { command_line := command_line } r = .ok options) :
    ∃ m_map, parse_command_line { command_line := command_line } r true =
        .ok ⟨command_line, m_map⟩ ∧
      ∀ token ∈ (m_map POSITIONAL).getD [], is_option_like token = false := by
  unfold check_unregistered parse_command_line at h
  obtain ⟨parsed, hparsed, hcheck⟩ := bind_eq_ok.mp h
  obtain ⟨m_map, hmap, hreturn⟩ := bind_eq_ok.mp hparsed
  obtain rfl := Except.ok.inj hreturn
  have hnone : ((m_map POSITIONAL).getD []).find? is_option_like = none := by
    cases hfind : ((m_map POSITIONAL).getD []).find? is_option_like with
    | none => rfl
    | some str =>
      simp only [hfind] at hcheck
      cases hcheck
  have hparse : parse_command_line { command_line := command_line } r true =
      .ok ⟨command_line, m_map⟩ := by
    unfold parse_command_line
    rw [hmap]
    rfl
  exact ⟨m_map, hparse, fun token htoken => by simpa using find?_eq_none.mp hnone token htoken⟩

theorem get_positional_tokens_eq
    (h : parse_command_line { command_line := command_line } r true =
      .ok ⟨command_line, m_map⟩) :
    get_positional_tokens { command_line := command_line } r =
      .ok ((m_map POSITIONAL).getD []) := by
  unfold get_positional_tokens
  rw [h]
  rfl

theorem LaterWords.only_positional (h : LaterWords groups before after)
    (hcheck : ∃ options, check_unregistered { command_line := before ++ [text "--"] }
      (registry groups) = .ok options) : OnlyPositional groups before after := by
  obtain ⟨options, hoptions⟩ := hcheck
  obtain ⟨m_map, hfirst, hrecognised⟩ := check_unregistered_ok hoptions
  -- The pass that handles the terminator.
  have hlist : after ≠ [] →
      ¬ AwaitsList (registry groups)._options (registry groups)._short_options true before :=
    fun hafter hawaits =>
      h.no_list hafter groups (prefix_refl groups) hawaits.no_terminator
  obtain ⟨found, hall, hpositional⟩ : ∃ found, parse_command_line
      { command_line := before ++ text "--" :: after } (registry groups) true =
        .ok ⟨before ++ text "--" :: after, found⟩ ∧
      (found POSITIONAL).getD [] = (m_map POSITIONAL).getD [] ++ after := by
    unfold parse_command_line at hfirst ⊢
    rcases parse_add_later (registry groups)._options (registry groups)._short_options true h.words
      hlist with ⟨found, hbefore, hall⟩ | ⟨message, hbefore, hall⟩
    · rw [hbefore] at hfirst
      obtain rfl : token_map found = m_map := (mk.inj (Except.ok.inj hfirst)).2
      rw [hall]
      exact ⟨_, rfl, token_map_positional_self found after⟩
    · rw [hbefore] at hfirst
      cases hfirst
  constructor
  · rw [get_positional_tokens_eq hall, get_positional_tokens_eq hfirst, hpositional]
    rfl
  · intro added hadded option hoption
    rcases h.stage hadded with ⟨found, hfirst, hall⟩ | ⟨message, hfirst, hall⟩
    · have hsame := h.same_tokens (flatten_subset hadded hoption) (m_name_mem_keys option) found
      rw [hfirst, hall]
      exact congrArg ok hsame
    · rw [hfirst, hall]
  · intro added group hadded
    exact h.values hadded
  · intro added hadded hne option hoption key hkey
    rcases h.stage hadded with ⟨found, hfirst, hall⟩ | ⟨message, hfirst, hall⟩
    · have hsupplied := was_supplied_later (h.same_tokens hoption hkey found) h.words
        (h.supplied added hadded hne _ hfirst option hoption key hkey)
      rw [hfirst, hall]
      exact congrArg ok hsupplied
    · rw [hfirst, hall]
  · intro str heq
    -- No positional token looks like an option.
    have hnone : ((found POSITIONAL).getD []).find? is_option_like = none := by
      rw [find?_eq_none, hpositional]
      intro token htoken
      rcases mem_append.mp htoken with htoken | htoken
      · simp [hrecognised token htoken]
      · simp [h.words token htoken]
    unfold check_unregistered at heq
    rw [hall, ok_bind] at heq
    simp only [hnone] at heq
    cases heq

/-- Without handling the terminator it is the last positional token. -/
theorem Accounts.no_terminator (h : Accounts known shorts true (before ++ [text "--"]) items [])
    (hrecognised : ∀ token ∈ collected (items.flatMap Item.groups) POSITIONAL,
      is_option_like token = false) :
    ∃ items', Accounts known shorts false (before ++ [text "--"]) items' [] := by
  generalize hline : before ++ [text "--"] = line at h ⊢
  generalize hend : ([] : List (List Byte)) = last at h ⊢
  induction h generalizing before with
  | done last => exact ⟨[], done last⟩
  | @item line rest last item items hbegins haccounts ih =>
    subst hend
    rw [flatMap_cons, collected_append_groups] at hrecognised
    have hrest : ∃ items', Accounts known shorts false rest items' [] := by
      rcases eq_nil_or_concat' rest with rfl | ⟨before', token, rfl⟩
      · exact ⟨[], done []⟩
      · have htokens := hbegins.tokens
        rw [← hline, ← append_assoc] at htokens
        obtain rfl := singleton_inj.mp (append_inj' htokens rfl).2
        exact ih (fun t ht => hrecognised t (mem_append_right _ ht)) rfl rfl
    obtain ⟨items', haccounts'⟩ := hrest
    cases hbegins with
    | positional hunclaimed _ =>
      exact ⟨_, .item (positional hunclaimed (false_and _)) haccounts'⟩
    | option hnames htakes => exact ⟨_, .item (option hnames htakes) haccounts'⟩
    | @terminator tokens _ =>
      rcases eq_nil_or_concat' tokens with rfl | ⟨values, token, rfl⟩
      · have hword : Unclaimed known shorts (text "--") :=
          Unclaimed.word rfl rfl
        exact ⟨_, .item (positional hword (false_and _)) (done [])⟩
      · -- The last token would be a positional one.
        rw [← cons_append] at hline
        obtain rfl := singleton_inj.mp (append_inj' hline rfl).2
        have hmem : text "--" ∈ collected (Item.terminator (values ++ [text "--"])).groups
            POSITIONAL := by
          unfold Item.groups
          rw [collected_words]
          exact mem_append_right _ (mem_singleton_self _)
        have hlike := hrecognised (text "--") (mem_append_left _ hmem)
        cases hlike

/-- A command line that `check_unregistered` accepts can be parsed without handling its
    terminator at the end. -/
theorem parse_without_terminator
    (h : parse_command_line { command_line := before ++ [text "--"] } r true =
      .ok ⟨before ++ [text "--"], m_map⟩)
    (hrecognised : ∀ token ∈ (m_map POSITIONAL).getD [], is_option_like token = false) :
    ∃ found, parse_command_line { command_line := before ++ [text "--"] } r false =
      .ok ⟨before ++ [text "--"], found⟩ := by
  unfold parse_command_line at h ⊢
  rcases parse_tokens_spec r._options r._short_options true _ (before ++ [text "--"]) []
    (Nat.le_refl _) with ⟨items, haccounts, -⟩ | ⟨items, token, rest, message, haccounts, hrejects, -⟩
  · rw [haccounts.parsed] at h
    obtain rfl : token_map (items.flatMap Item.groups) = m_map :=
      (mk.inj (Except.ok.inj h)).2
    rw [token_map_getD] at hrecognised
    obtain ⟨items', haccounts'⟩ := haccounts.no_terminator hrecognised
    rw [haccounts'.parsed]
    exact ⟨_, rfl⟩
  · rw [haccounts.thrown hrejects] at h
    cases h

theorem OnlyPositional.later_words (h : OnlyPositional groups before after)
    (hcheck : ∃ options, check_unregistered { command_line := before ++ [text "--"] }
      (registry groups) = .ok options) : LaterWords groups before after := by
  obtain ⟨options, hoptions⟩ := hcheck
  obtain ⟨m_map, hfirst, hrecognised⟩ := check_unregistered_ok hoptions
  have hwords : ∀ token ∈ after, is_option_like token = false := by
    have hpositional := h.positional
    rw [get_positional_tokens_eq hfirst] at hpositional
    unfold get_positional_tokens at hpositional
    obtain ⟨parsed, hall, hreturn⟩ := bind_eq_ok.mp hpositional
    have htokens := Except.ok.inj hreturn
    intro token htoken
    by_cases hlike : is_option_like token = true
    · -- The token, or one in front of it, is not recognised.
      have hfind : ((parsed.prog_parsed_token_map POSITIONAL).getD []).find? is_option_like ≠ none := by
        rw [htokens, ne_eq, find?_eq_none]
        intro hnone
        exact hnone token (mem_append_right _ htoken) hlike
      obtain ⟨str, hstr⟩ := Option.ne_none_iff_exists'.mp hfind
      refine absurd ?_ (h.recognised str)
      unfold check_unregistered
      rw [hall, ok_bind]
      simp only [hstr]
    · exact Bool.eq_false_iff.mpr hlike
  have hno_list : after ≠ [] → ∀ added, added <+: groups →
      ¬ AwaitsList (registry added)._options (registry added)._short_options false before := by
    intro hafter added hadded hawaits
    obtain ⟨found, token, opt, hnames, hparsed⟩ := hawaits.parsed
    have hopt := mem_of_names hnames
    have htokens := h.tokens added hadded opt hopt
    have hbefore := hparsed [] (fun t ht => absurd ht not_mem_nil)
    unfold parse_command_line at htokens
    rw [hparsed after hwords, hbefore] at htokens
    -- The list has the later words among its values.
    have hlists : token_map (found ++ [(opt.m_name, text "--" :: after)]) opt.m_name =
        token_map (found ++ [(opt.m_name, [text "--"])]) opt.m_name := Except.ok.inj htokens
    rw [token_map_snoc, token_map_snoc] at hlists
    have hvalues := append_cancel_left (Option.some.inj hlists)
    exact hafter (cons.inj hvalues).2
  have hnames : after ≠ [] → ∀ option ∈ groups.flatten, POSITIONAL ∉ option.keys := by
    intro hafter option hoption hkey
    have hname : option.m_name = POSITIONAL := by
      rcases mem_cons.mp hkey with heq | hshort
      · exact heq.symm
      · obtain ⟨c, -, heq⟩ := mem_map.mp hshort
        have hlen : POSITIONAL.length = 14 := by decide
        rw [← heq] at hlen
        cases hlen
    obtain ⟨found, hparse⟩ := parse_without_terminator hfirst hrecognised
    have htokens := h.tokens groups (prefix_refl groups) option hoption
    unfold parse_command_line at hparse htokens
    rcases parse_add_later (registry groups)._options (registry groups)._short_options false hwords
      (fun hafter => hno_list hafter groups (prefix_refl groups)) with
      ⟨found', hbefore, hall⟩ | ⟨message, hbefore, -⟩
    · rw [hbefore, hall, hname] at htokens
      have hsame : token_map (found' ++ after.map fun token => (POSITIONAL, [token])) POSITIONAL =
          token_map found' POSITIONAL := Except.ok.inj htokens
      have hmore := token_map_positional_self found' after
      rw [hsame] at hmore
      exact hafter (self_eq_append_right.mp hmore)
    · rw [hbefore] at hparse
      cases hparse
  refine ⟨hwords, hno_list, hnames, ?_⟩
  intro added hadded hne options hparse option hoption key hkey hfalse token htoken
  have hsupplied := h.supplied added hadded hne option hoption key hkey
  rw [hparse] at hsupplied
  obtain ⟨parsed, hall, hsame⟩ : ∃ parsed, parse_command_line
      { command_line := before ++ text "--" :: after } (registry added) false = .ok parsed ∧
      parsed.was_supplied key = options.was_supplied key := by
    cases hcase : parse_command_line
        { command_line := before ++ text "--" :: after } (registry added) false with
    | error e =>
      rw [hcase] at hsupplied
      cases hsupplied
    | ok parsed =>
      rw [hcase] at hsupplied
      exact ⟨parsed, rfl, Except.ok.inj hsupplied⟩
  rw [hfalse] at hsame
  have hline : parsed.command_line = before ++ text "--" :: after := by
    unfold parse_command_line at hall
    obtain ⟨m_map', -, hreturn⟩ := bind_eq_ok.mp hall
    rw [← Except.ok.inj hreturn]
  unfold was_supplied at hsame
  rw [hline] at hsame
  simp only [or_eq_false_iff, any_eq_false] at hsame
  have hmem : token ∈ before ++ text "--" :: after := by simp [htoken]
  exact Bool.eq_false_iff.mpr (hsame.1.2 token hmem)

end Later

/-- On a command line that is accepted up to its `--`, what follows is only positional
    exactly when it is words. -/
theorem only_positional_iff (groups : List (List BaseOption)) (before after : List (List Byte))
    (hcheck : ∃ options, check_unregistered { command_line := before ++ [text "--"] }
      (registry groups) = .ok options) :
    OnlyPositional groups before after ↔ LaterWords groups before after :=
  ⟨fun h => h.later_words hcheck, fun h => h.only_positional hcheck⟩

/-- Options that were given, a terminator, and a file. -/
theorem only_positional_file :
    OnlyPositional [[{ m_name := text "int_opt", type := .int32 }]] [text "--int_opt", text "1"]
      [text "d3", text "-5"] := by
  have hcheck : ∃ options, check_unregistered
      { command_line := [text "--int_opt", text "1"] ++ [text "--"] }
      (registry [[{ m_name := text "int_opt", type := .int32 }]]) = .ok options := ⟨_, rfl⟩
  refine (only_positional_iff _ _ _ hcheck).mpr ⟨by decide, ?_, by decide, ?_⟩
  · -- There is no list.
    intro _ added hadded hawaits
    obtain ⟨_, token, opt, _, hnames, hvector⟩ := hawaits
    have hopt := flatten_subset hadded (mem_of_names hnames)
    obtain rfl : opt = { m_name := text "int_opt", type := .int32 } := by simpa using hopt
    cases hvector
  · intro added _ _ options _ option hoption key hkey _ token htoken
    obtain rfl : option = { m_name := text "int_opt", type := .int32 } := by simpa using hoption
    obtain rfl : key = text "int_opt" := by simpa [BaseOption.keys] using hkey
    revert token
    decide

/-- A token behind the `--` that looks like an option is not recognised. -/
theorem later_option_is_not_recognised :
    ¬ ∀ (groups : List (List BaseOption)) (before after : List (List Byte)),
      OnlyPositional groups before after := by
  intro h
  exact (h [[{ m_name := text "int_opt", type := .int32 }]] [] [text "--ab"]).recognised
    (text "--ab") rfl

end VW.Config
