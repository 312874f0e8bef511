import VowpalWabbit.Config.Parsing

/-! # Every token of a command line is accounted for

    A command line is a list of items: the names of options with the values they
    take, the tokens that no option takes, and the terminator with all that follows
    it. Parsing takes one item in each round, and the map has for every name the
    values of its items, in their order. Where a token is none of these, parsing
    throws.
-/

open Cpp Or Outcome

namespace VW.Config

open List

/-! ## Items -/

/-- A part of a command line. -/
inductive Item where
  | positional (token : List Byte)
  /-- The token that names the option may end in a value, which is given; what is
      taken are whole tokens. -/
  | option (opt : BaseOption) (token : List Byte) (given taken : List (List Byte))
  | terminator (tokens : List (List Byte))

namespace Item

/-- The tokens of the command line that the item is. -/
def tokens : Item → List (List Byte)
  | positional token => [token]
  | option _ token _ taken => token :: taken
  | terminator tokens => text "--" :: tokens

/-- What the item adds to the map, under which name. -/
def groups : Item → OptionMap
  | positional token => [(POSITIONAL, [token])]
  | option opt _ given taken => [(opt.m_name, given ++ taken)]
  | terminator tokens => tokens.map fun token => (POSITIONAL, [token])

end Item

section Conserved

variable (known_options : KnownOptions) (known_short_options : KnownShortOptions)

/-- A token that is the name of a known option, and the value that is a part of it. -/
inductive Names : List Byte → BaseOption → List (List Byte) → Prop where
  | long {name : List Byte} {opt : BaseOption} : name ≠ [] → 61 ∉ name →
      known_options name = some opt → Names (text "--" ++ name) opt []
  | inline {name value : List Byte} {opt : BaseOption} : name ≠ [] → 61 ∉ name → value ≠ [] →
      known_options name = some opt → Names (text "--" ++ (name ++ 61 :: value)) opt [value]
  | short {c : Byte} {opt : BaseOption} : is_short_option_like [45, c] = true →
      known_short_options c = some opt → Names [45, c] opt []
  | compound {c : Byte} {value : List Byte} {opt : BaseOption} : value ≠ [] →
      is_short_option_like (45 :: c :: value) = true → known_short_options c = some opt →
      Names (45 :: c :: value) opt [value]

/-- A token that is no known option: it does not look like one, or its name is not
    known. -/
inductive Unclaimed : List Byte → Prop where
  | word {token : List Byte} : is_long_option_like token = false →
      is_short_option_like token = false → Unclaimed token
  | long {name value : List Byte} : name ≠ [] → 61 ∉ name →
      (value = [] ∨ ∃ v, v ≠ [] ∧ value = 61 :: v) → known_options name = none →
      Unclaimed (text "--" ++ (name ++ value))
  | short {c : Byte} {value : List Byte} : is_short_option_like (45 :: c :: value) = true →
      known_short_options c = none → Unclaimed (45 :: c :: value)

/-- The values of an option are as many as its type says. A list ends in front of the
    next token that looks like an option, but takes its first value in any case. -/
def Takes (opt : BaseOption) (given taken rest : List (List Byte)) : Prop :=
  match opt.type with
  | .bool => given ++ taken = []
  | .vector => given ++ taken ≠ [] ∧ (∀ token ∈ (given ++ taken).tail, is_option_like token = false) ∧
      ∀ token ∈ rest.head?, is_option_like token = true
  | _ => (given ++ taken).length = 1

variable (should_handle_terminator : Bool)

/-- The item that a command line begins with, and what follows it. -/
inductive Begins : List (List Byte) → Item → List (List Byte) → Prop where
  | positional {token : List Byte} {rest : List (List Byte)} :
      Unclaimed known_options known_short_options token →
      (should_handle_terminator && is_terminator token) = false →
      Begins (token :: rest) (.positional token) rest
  | option {token : List Byte} {opt : BaseOption} {given taken rest : List (List Byte)} :
      Names known_options known_short_options token opt given → Takes opt given taken rest →
      Begins (token :: (taken ++ rest)) (.option opt token given taken) rest
  | terminator {tokens : List (List Byte)} : should_handle_terminator = true →
      Begins (text "--" :: tokens) (.terminator tokens) []

/-- The items that a command line begins with, and what follows them. -/
inductive Accounts : List (List Byte) → List Item → List (List Byte) → Prop where
  | done (rest : List (List Byte)) : Accounts rest [] rest
  | item {command_line rest rest' : List (List Byte)} {item : Item} {items : List Item} :
      Begins known_options known_short_options should_handle_terminator command_line item rest →
      Accounts rest items rest' → Accounts command_line (item :: items) rest'

/-- A token at which parsing throws, with what follows it. -/
inductive Rejects : List Byte → List (List Byte) → String → Prop where
  | no_value {name : List Byte} {rest : List (List Byte)} : 61 ∉ name →
      Rejects (text "--" ++ (name ++ [61])) rest
        ("Argument for " ++ to_message name ++ " should follow =")
  | no_name {value : List Byte} {rest : List (List Byte)} : value ≠ [] →
      Rejects (text "--" ++ 61 :: value) rest "Expected long option name after -- but found nothing"
  | switch {token value : List Byte} {opt : BaseOption} {rest : List (List Byte)} :
      Names known_options known_short_options token opt [value] → opt.type = .bool →
      Rejects token rest ("Expected no value for " ++ to_message opt.m_name ++
        " which is a boolean switch but found " ++ toString 1 ++ " values")
  | missing {token : List Byte} {opt : BaseOption} :
      Names known_options known_short_options token opt [] → opt.type ≠ .bool →
      Rejects token [] ("Expected value for " ++ to_message opt.m_name ++ " but found nothing")

end Conserved

section Conserved

variable {known : KnownOptions} {shorts : KnownShortOptions} {handle : Bool}

variable {rest line : List (List Byte)}

theorem Begins.tokens {item : Item} (h : Begins known shorts handle line item rest) :
    line = item.tokens ++ rest := by
  cases h with
  | positional => rfl
  | option => rfl
  | terminator =>
    unfold Item.tokens
    rw [append_nil]

theorem Accounts.tokens {items : List Item} (h : Accounts known shorts handle line items rest) :
    line = items.flatMap Item.tokens ++ rest := by
  induction h with
  | done rest => rfl
  | item hbegins _ ih => rw [flatMap_cons, append_assoc, ← ih, ← hbegins.tokens]

/-! ## The kinds of tokens -/

theorem takeWhile_dropWhile_equal {name value : List Byte} (hname : 61 ∉ name) :
    (name ++ 61 :: value).takeWhile (· ≠ 61) = name ∧
    (name ++ 61 :: value).dropWhile (· ≠ 61) = 61 :: value := by
  have hall : ∀ c ∈ name, decide (c ≠ 61) = true := by
    intro c hc
    have hne : c ≠ 61 := fun heq => hname (heq ▸ hc)
    simpa using hne
  constructor
  · rw [takeWhile_append_of_pos hall, takeWhile_cons_of_neg (by simp), append_nil]
  · rw [dropWhile_append_of_pos hall, dropWhile_cons_of_neg (by simp)]

variable {token : List Byte} {opt : BaseOption} {taken : List (List Byte)}

theorem long_option_eq (h : is_long_option_like token = true) :
    ∃ s, s ≠ [] ∧ token = text "--" ++ s := by
  unfold is_long_option_like at h
  obtain ⟨htake, hlen⟩ := Bool.and_eq_true_iff.mp h
  have hdashes : token.take 2 = text "--" := by simpa using htake
  have hlong : 2 < token.length := by simpa using hlen
  have hsplit : text "--" ++ token.drop 2 = token := hdashes ▸ take_append_drop 2 token
  have hne : token.drop 2 ≠ [] := drop_eq_nil_iff.not.mpr (Nat.not_le.mpr hlong)
  exact ⟨token.drop 2, hne, hsplit.symm⟩

theorem short_option_eq (h : is_short_option_like token = true) :
    ∃ c value, token = 45 :: c :: value := by
  unfold is_short_option_like at h
  match token with
  | [] => cases h
  | [_] => simp at h
  | dash :: c :: value =>
    have hdash : dash = 45 := by simp at h; exact h.1.1
    exact ⟨c, value, by rw [hdash]⟩

/-- A token behind two dashes, with an equal sign. -/
theorem plan_inline {name value : List Byte} (hequal : 61 ∉ name) :
    plan known shorts (text "--" ++ (name ++ 61 :: value)) =
      if value = [] then throw_ ("Argument for " ++ to_message name ++ " should follow =")
      else if name = [] then
        throw_ "Expected long option name after -- but found nothing"
      else .ok (known name, [value]) := by
  have hdrop : (text "--" ++ (name ++ 61 :: value)).drop 2 = name ++ 61 :: value := rfl
  have hcontains : (name ++ 61 :: value).contains 61 = true := by simp
  obtain ⟨htake, hrest⟩ := @takeWhile_dropWhile_equal _ value hequal
  unfold plan
  rw [if_pos (long_option_of_name (by simp))]
  simp only [hdrop, hcontains, htake, hrest, Bool.true_and, List.drop_one, tail_cons,
    List.isEmpty_iff, if_true]

variable (known) (shorts) in
/-- What a token asks for is what it is. -/
theorem plan_cases (token : List Byte) :
    (∃ opt given, plan known shorts token = .ok (some opt, given) ∧
      Names known shorts token opt given) ∨
    (∃ given, plan known shorts token = .ok (none, given) ∧
      Unclaimed known shorts token) ∨
    (∃ message, plan known shorts token = throw_ message ∧
      ∀ rest, Rejects known shorts token rest message) := by
  by_cases hlong : is_long_option_like token = true
  · obtain ⟨s, hs, rfl⟩ := long_option_eq hlong
    by_cases hequal : 61 ∈ s
    · -- The name ends at the first equal sign.
      obtain ⟨name, value, rfl, hname⟩ := eq_append_cons_of_mem hequal
      rw [plan_inline hname]
      by_cases hvalue : value = []
      · rw [if_pos hvalue, hvalue]
        exact inr (inr ⟨_, rfl, fun rest => Rejects.no_value hname⟩)
      · rw [if_neg hvalue]
        by_cases hempty : name = []
        · rw [if_pos hempty, hempty]
          exact inr (inr ⟨_, rfl, fun rest => Rejects.no_name hvalue⟩)
        · rw [if_neg hempty]
          cases hknown : known name with
          | none =>
            exact inr (inl ⟨_, rfl, Unclaimed.long hempty hname (inr ⟨value, hvalue, rfl⟩) hknown⟩)
          | some opt => exact inl ⟨opt, _, rfl, Names.inline hempty hname hvalue hknown⟩
    · rw [plan_long _ _ hs hequal]
      cases hknown : known s with
      | none =>
        have hunclaimed : Unclaimed known shorts (text "--" ++ (s ++ [])) :=
          Unclaimed.long hs hequal (inl rfl) hknown
        rw [append_nil] at hunclaimed
        exact inr (inl ⟨_, rfl, hunclaimed⟩)
      | some opt => exact inl ⟨opt, _, rfl, Names.long hs hequal hknown⟩
  · by_cases hshort : is_short_option_like token = true
    · obtain ⟨c, value, rfl⟩ := short_option_eq hshort
      have hplan : plan known shorts (45 :: c :: value) =
          .ok (shorts c, if value.isEmpty then [] else [value]) := by
        unfold plan
        rw [if_neg hlong, if_pos hshort]
      rw [hplan]
      cases hknown : shorts c with
      | none => exact inr (inl ⟨_, rfl, Unclaimed.short hshort hknown⟩)
      | some opt =>
        cases value with
        | nil => exact inl ⟨opt, _, rfl, Names.short hshort hknown⟩
        | cons v vs =>
          exact inl ⟨opt, _, rfl, Names.compound (cons_ne_nil _ _) hshort hknown⟩
    · have hplan : plan known shorts token = .ok (none, []) := by
        unfold plan
        rw [if_neg hlong, if_neg hshort]
      exact inr (inl ⟨_, hplan, Unclaimed.word (by simpa using hlong) (by simpa using hshort)⟩)

variable {given : List (List Byte)}

/-- A name gives no value, or one that is a part of it. -/
theorem Names.given_cases (h : Names known shorts token opt given) :
    given = [] ∨ ∃ value, given = [value] := by
  cases h with
  | long | short => exact inl rfl
  | inline | compound => exact inr ⟨_, rfl⟩

theorem consume_tokens_bool (h : opt.type = .bool)
    (tokens given : List (List Byte)) : consume_tokens opt tokens given =
      if given.isEmpty then .ok (given, tokens)
      else throw_ ("Expected no value for " ++ to_message opt.m_name ++
        " which is a boolean switch but found " ++ toString given.length ++ " values") := by
  unfold consume_tokens
  rw [h]

theorem consume_tokens_vector (h : opt.type = .vector)
    (tokens given : List (List Byte)) : consume_tokens opt tokens given =
      consume_first opt tokens given >>= fun p =>
        .ok (p.1 ++ p.2.takeWhile (fun token => !is_option_like token),
          p.2.dropWhile fun token => !is_option_like token) := by
  unfold consume_tokens
  rw [h]
  rfl

theorem consume_tokens_single (hbool : opt.type ≠ .bool)
    (hvector : opt.type ≠ .vector) (tokens given : List (List Byte)) :
    consume_tokens opt tokens given = consume_first opt tokens given := by
  unfold consume_tokens
  split
  · rename_i h
    exact absurd h hbool
  · rename_i h
    exact absurd h hvector
  · rfl

theorem takes_bool (h : opt.type = .bool) : Takes opt given taken rest ↔ given ++ taken = [] := by
  unfold Takes
  rw [h]

theorem takes_vector (h : opt.type = .vector) :
    Takes opt given taken rest ↔ given ++ taken ≠ [] ∧
      (∀ token ∈ (given ++ taken).tail, is_option_like token = false) ∧
      ∀ token ∈ rest.head?, is_option_like token = true := by
  unfold Takes
  rw [h]

theorem takes_single (hbool : opt.type ≠ .bool) (hvector : opt.type ≠ .vector) :
    Takes opt given taken rest ↔ (given ++ taken).length = 1 := by
  unfold Takes
  split
  · rename_i h
    exact absurd h hbool
  · rename_i h
    exact absurd h hvector
  · rfl

/-- What is left starts with a token that looks like an option. -/
theorem head_dropWhile_option_like (tokens : List (List Byte)) :
    ∀ token ∈ (tokens.dropWhile fun token => !is_option_like token).head?,
      is_option_like token = true := by
  intro token htoken
  have hhead := head?_dropWhile_not (fun token => !is_option_like token) tokens
  rw [Option.mem_def.mp htoken] at hhead
  simpa using hhead

theorem mem_takeWhile_option_like {tokens : List (List Byte)}
    (h : token ∈ tokens.takeWhile fun token => !is_option_like token) :
    is_option_like token = false := by
  simpa using mem_takeWhile_imp h

/-- The first value of an option is a part of its token or the next token. -/
theorem consume_first_spec (hnames : Names known shorts token opt given)
    (hbool : opt.type ≠ .bool) (tokens : List (List Byte)) :
    (∃ taken rest, tokens = taken ++ rest ∧ (given ++ taken).length = 1 ∧
      consume_first opt tokens given = .ok (given ++ taken, rest)) ∨
    (∃ message, consume_first opt tokens given = throw_ message ∧
      Rejects known shorts token tokens message) := by
  rcases hnames.given_cases with rfl | ⟨value, rfl⟩
  · cases tokens with
    | nil => exact inr ⟨_, rfl, Rejects.missing hnames hbool⟩
    | cons first rest => exact inl ⟨[first], rest, rfl, rfl, rfl⟩
  · exact inl ⟨[], tokens, rfl, rfl, rfl⟩

/-- The tokens that an option takes, or that there are none for it. -/
theorem consume_tokens_spec (hnames : Names known shorts token opt given)
    (tokens : List (List Byte)) :
    (∃ taken rest, tokens = taken ++ rest ∧ Takes opt given taken rest ∧
      consume_tokens opt tokens given = .ok (given ++ taken, rest)) ∨
    (∃ message, consume_tokens opt tokens given = throw_ message ∧
      Rejects known shorts token tokens message) := by
  by_cases hbool : opt.type = .bool
  · rw [consume_tokens_bool hbool]
    rcases hnames.given_cases with rfl | ⟨value, rfl⟩
    · exact inl ⟨[], tokens, rfl, (takes_bool hbool).mpr rfl, rfl⟩
    · exact inr ⟨_, rfl, Rejects.switch hnames hbool⟩
  · have hfirst := consume_first_spec hnames hbool tokens
    by_cases hvector : opt.type = .vector
    · rw [consume_tokens_vector hvector]
      rcases hfirst with ⟨first, rest, rfl, hone, hconsume⟩ | ⟨message, hthrow, hrejects⟩
      · -- After the first value, the list goes on to the next option.
        obtain ⟨value, hvalue⟩ := length_eq_one_iff.mp hone
        rw [hconsume, ok_bind, hvalue]
        have hsplit : first ++ rest = (first ++ rest.takeWhile fun token => !is_option_like token) ++
            rest.dropWhile fun token => !is_option_like token := by
          rw [append_assoc, takeWhile_append_dropWhile]
        have hvalues : given ++ (first ++ rest.takeWhile fun token => !is_option_like token) =
            value :: rest.takeWhile fun token => !is_option_like token := by
          rw [← append_assoc, hvalue, singleton_append]
        have htakes : Takes opt given (first ++ rest.takeWhile fun token => !is_option_like token)
            (rest.dropWhile fun token => !is_option_like token) := by
          rw [takes_vector hvector, hvalues]
          exact ⟨cons_ne_nil _ _, fun token h => mem_takeWhile_option_like h,
            head_dropWhile_option_like rest⟩
        rw [← singleton_append] at hvalues
        exact inl ⟨_, _, hsplit, htakes, by rw [hvalues]⟩
      · rw [hthrow]
        exact inr ⟨message, rfl, hrejects⟩
    · rw [consume_tokens_single hbool hvector]
      rcases hfirst with ⟨first, rest, hsplit, hone, hconsume⟩ | hthrow
      · exact inl ⟨first, rest, hsplit, (takes_single hbool hvector).mpr hone, hconsume⟩
      · exact inr hthrow

/-! ## Rounds -/

/-- One round takes the item that the command line begins with. -/
theorem consume_token_spec (handle : Bool) (token : List Byte)
    (tokens : List (List Byte)) (m_map : TokenMap) :
    (∃ item rest, Begins known shorts handle (token :: tokens)
        item rest ∧
      consume_token handle known shorts token tokens m_map =
        .ok (rest, item.groups.foldl (fun m kv => m.push_back kv.1 kv.2) m_map)) ∨
    (∃ message, Rejects known shorts token tokens message ∧
      consume_token handle known shorts token tokens m_map =
        throw_ message) := by
  by_cases hterm : (handle && is_terminator token) = true
  · obtain ⟨rfl, hterminator⟩ := Bool.and_eq_true_iff.mp hterm
    obtain rfl : token = text "--" := by simpa [is_terminator] using hterminator
    rw [consume_token_terminator]
    refine inl ⟨.terminator tokens, [], Begins.terminator rfl, ?_⟩
    unfold Item.groups
    rw [foldl_map]
  · have hnot : (handle && is_terminator token) = false := by simpa using hterm
    rw [consume_token_plan _ _ hnot]
    rcases plan_cases known shorts token with
      ⟨opt, given, hplan, hnames⟩ | ⟨given, hplan, hunclaimed⟩ | ⟨message, hplan, hrejects⟩
    · rw [hplan, ok_bind]
      show (∃ item rest, _ ∧ (consume_tokens opt tokens given >>= _) = _) ∨
        ∃ message, _ ∧ (consume_tokens opt tokens given >>= _) = _
      rcases consume_tokens_spec hnames tokens with ⟨taken, rest, rfl, htakes, hconsume⟩ |
        ⟨message, hthrow, hrejects⟩
      · rw [hconsume]
        exact inl ⟨.option opt token given taken, rest, Begins.option hnames htakes, rfl⟩
      · rw [hthrow]
        exact inr ⟨message, hrejects, rfl⟩
    · rw [hplan]
      exact inl ⟨.positional token, tokens, Begins.positional hunclaimed hnot, rfl⟩
    · rw [hplan]
      exact inr ⟨message, hrejects tokens, rfl⟩

/-- The map of some names with values: the values of each name, in their order. -/
def token_map (groups : OptionMap) : TokenMap := fun name =>
  if ∃ kv ∈ groups, kv.1 = name then some (collected groups name) else none

theorem push_token_map (groups : OptionMap) (kv : List Byte × List (List Byte)) :
    (token_map groups).push_back kv.1 kv.2 = token_map (groups ++ [kv]) := by
  funext name
  unfold TokenMap.push_back token_map collected
  rw [filter_append, flatMap_append]
  by_cases hname : name = kv.1
  · subst hname
    have hall : ∃ kv' ∈ groups ++ [kv], kv'.1 = kv.1 :=
      ⟨kv, mem_append_right _ (mem_singleton_self kv), rfl⟩
    rw [Function.update_self, if_pos hall]
    by_cases hex : ∃ kv' ∈ groups, kv'.1 = kv.1
    · rw [if_pos hex]
      simp
    · -- The name is new.
      have hnone : groups.filter (fun kv' => decide (kv'.1 = kv.1)) = [] := by
        rw [filter_eq_nil_iff]
        intro kv' hkv' heq
        exact hex ⟨kv', hkv', by simpa using heq⟩
      rw [if_neg hex, hnone]
      simp
  · have hne : kv.1 ≠ name := fun heq => hname heq.symm
    have hiff : (∃ kv' ∈ groups ++ [kv], kv'.1 = name) ↔ ∃ kv' ∈ groups, kv'.1 = name := by
      simp [or_and_right, exists_or, hne]
    have hfilter : [kv].filter (fun kv' => decide (kv'.1 = name)) = [] := by simp [hne]
    rw [Function.update_of_ne hname, hfilter, flatMap_nil, append_nil]
    simp only [hiff]

theorem foldl_push_token_map (groups groups' : OptionMap) :
    groups'.foldl (fun m kv => m.push_back kv.1 kv.2) (token_map groups) =
      token_map (groups ++ groups') := by
  induction groups' generalizing groups with
  | nil => rw [append_nil]; rfl
  | cons kv groups' ih =>
    rw [foldl_cons, push_token_map, ih, append_assoc, singleton_append]

variable (known) (shorts) in
/-- All rounds, from a map that has some names with values. -/
theorem parse_tokens_spec (handle : Bool) (n : Nat) :
    ∀ (tokens : List (List Byte)) (groups : OptionMap), tokens.length ≤ n →
    (∃ items, Accounts known shorts handle tokens items [] ∧
      parse_tokens known shorts handle tokens
        (token_map groups) = .ok (token_map (groups ++ items.flatMap Item.groups))) ∨
    (∃ items token rest message,
      Accounts known shorts handle tokens items
        (token :: rest) ∧
      Rejects known shorts token rest message ∧
      parse_tokens known shorts handle tokens
        (token_map groups) = throw_ message) := by
  induction n with
  | zero =>
    intro tokens groups hlen
    obtain rfl : tokens = [] := length_eq_zero_iff.mp (by omega)
    exact inl ⟨[], Accounts.done [], by rw [flatMap_nil, append_nil]; rfl⟩
  | succ n ih =>
    intro tokens groups hlen
    cases tokens with
    | nil => exact inl ⟨[], Accounts.done [], by rw [flatMap_nil, append_nil]; rfl⟩
    | cons token tokens =>
      rw [parse_tokens_cons]
      rcases consume_token_spec handle token tokens (token_map groups) with
        ⟨item, rest, hbegins, hround⟩ | ⟨message, hrejects, hthrow⟩
      · have hrest := (consume_token_suffix _ _ hround).length_le
        rw [length_cons] at hlen
        rw [hround, ok_bind, foldl_push_token_map]
        rcases ih rest (groups ++ item.groups) (by omega) with ⟨items, haccounts, hparse⟩ |
          ⟨items, token', rest', message, haccounts, hrejects, hparse⟩
        · rw [hparse, append_assoc]
          exact inl ⟨item :: items, Accounts.item hbegins haccounts, rfl⟩
        · exact inr ⟨item :: items, token', rest', message, Accounts.item hbegins haccounts,
            hrejects, hparse⟩
      · rw [hthrow]
        exact inr ⟨[], token, tokens, message, Accounts.done _, hrejects, rfl⟩

end Conserved

/-- Parsing ends with every token of the command line in one item: the name of an
    option, perhaps with a value in it, one of the values that this option takes, a
    positional token, or the terminator. The map has the values of each name and the
    positional tokens in the order of the items. Or else it throws at the first token
    that is none of these, all tokens in front of it being in items. -/
theorem command_line_is_conserved (command_line : List (List Byte)) (known_options : KnownOptions)
    (known_short_options : KnownShortOptions) (should_handle_terminator : Bool) :
    (∃ items, Accounts known_options known_short_options should_handle_terminator command_line
        items [] ∧
      items.flatMap Item.tokens = command_line ∧
      parse_token_map_with_current_info command_line known_options known_short_options
        should_handle_terminator = .ok (token_map (items.flatMap Item.groups))) ∨
    (∃ items token rest message, Accounts known_options known_short_options
        should_handle_terminator command_line items (token :: rest) ∧
      items.flatMap Item.tokens ++ token :: rest = command_line ∧
      Rejects known_options known_short_options token rest message ∧
      parse_token_map_with_current_info command_line known_options known_short_options
        should_handle_terminator = throw_ message) := by
  have hempty : token_map [] = TokenMap.empty := rfl
  have hparse := parse_tokens_spec known_options known_short_options should_handle_terminator
    command_line.length command_line [] (Nat.le_refl _)
  rw [hempty] at hparse
  rcases hparse with ⟨items, haccounts, hparse⟩ | ⟨items, token, rest, message, haccounts, hrejects,
    hparse⟩
  · have htokens := haccounts.tokens
    rw [append_nil] at htokens
    exact inl ⟨items, haccounts, htokens.symm, hparse⟩
  · exact inr ⟨items, token, rest, message, haccounts, haccounts.tokens.symm, hrejects, hparse⟩

end VW.Config
