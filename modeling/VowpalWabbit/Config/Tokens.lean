import VowpalWabbit.Config.Serializer

/-! # Tokens and their options

    How the text in a header comes apart into words, the words into names with
    values, and how a command line with these added is parsed. The added part starts
    with the name of an option, so that what stands in front of it is parsed as if it
    stood alone.
-/

open Cpp

namespace VW.Config

open List Outcome Except

/-! ## Words -/

/-- A text that is one word. -/
def IsWord (w : List Byte) : Prop := w ≠ [] ∧ ∀ c ∈ w, is_space c = false

/-- Words with a space in front of each. -/
def spaced (ws : List (List Byte)) : List Byte := ws.flatMap (32 :: ·)

theorem words_from_append (a b : List Byte) : ∀ current : List Byte,
    words_from current (a ++ 32 :: b) = words_from current a ++ words_from [] b := by
  induction a with
  | nil =>
    intro current
    have hspace : is_space 32 = true := by decide
    rw [nil_append, words_from.eq_2, words_from.eq_1, if_pos hspace]
    split
    · rfl
    · rfl
  | cons c a ih =>
    intro current
    rw [cons_append, words_from, words_from]
    split
    · split
      · exact ih []
      · rw [ih [], cons_append]
    · exact ih _

theorem words_append (a b : List Byte) : words (a ++ 32 :: b) = words a ++ words b :=
  words_from_append a b []

variable {w : List Byte}

theorem words_from_word (h : ∀ c ∈ w, is_space c = false) : ∀ current : List Byte,
    current ++ w ≠ [] → words_from current w = [current ++ w] := by
  induction w with
  | nil =>
    intro current hne
    rw [append_nil] at hne ⊢
    rw [words_from, if_neg (by simpa using hne)]
  | cons c w ih =>
    intro current _
    have hc := h c mem_cons_self
    rw [words_from, if_neg (by simp [hc])]
    rw [ih (fun d hd => h d (mem_cons_of_mem c hd)) _ (by simp), append_assoc,
      singleton_append]

theorem words_word (h : IsWord w) : words w = [w] :=
  words_from_word h.2 [] h.1

theorem words_space (s : List Byte) : words (32 :: s) = words s := words_append [] s

theorem words_spaced_append {ws : List (List Byte)} (h : ∀ w ∈ ws, IsWord w) (rest : List Byte) :
    words (spaced ws ++ 32 :: rest) = ws ++ words rest := by
  induction ws with
  | nil => exact words_space rest
  | cons w ws ih =>
    have hrest := ih fun v hv => h v (mem_cons_of_mem w hv)
    -- Whatever follows the word starts with a space.
    have hspace : ∃ s, spaced ws ++ 32 :: rest = 32 :: s := by
      cases ws with
      | nil => exact ⟨rest, rfl⟩
      | cons v ws => exact ⟨v ++ (spaced ws ++ 32 :: rest), by simp [spaced]⟩
    obtain ⟨s, hs⟩ := hspace
    have hsplit : spaced (w :: ws) ++ 32 :: rest = 32 :: (w ++ 32 :: s) := by
      rw [← hs]
      simp [spaced]
    rw [hsplit, words_space, words_append, words_word (h w mem_cons_self), ← words_space s, ← hs,
      hrest]
    rfl

/-- The words of a text, none of them with a space in it. -/
theorem words_from_spec (s : List Byte) : ∀ current : List Byte,
    (∀ c ∈ current, is_space c = false) →
    (∀ w ∈ words_from current s, IsWord w) ∧
      (words_from current s).flatten = current ++ s.filter fun c => !is_space c := by
  induction s with
  | nil =>
    intro current hcurrent
    rw [words_from]
    split
    · rename_i hempty
      rw [List.isEmpty_iff] at hempty
      subst hempty
      exact ⟨fun w hw => absurd hw not_mem_nil, rfl⟩
    · rename_i hne
      refine ⟨fun w hw => ?_, by simp⟩
      obtain rfl := mem_singleton.mp hw
      exact ⟨by simpa using hne, hcurrent⟩
  | cons c s ih =>
    intro current hcurrent
    rw [words_from]
    by_cases hc : is_space c = true
    · obtain ⟨hwords, hflatten⟩ := ih [] (fun d hd => absurd hd not_mem_nil)
      rw [if_pos hc, filter_cons_of_neg (by simp [hc])]
      split
      · rename_i hempty
        rw [List.isEmpty_iff] at hempty
        subst hempty
        exact ⟨hwords, hflatten⟩
      · rename_i hne
        refine ⟨fun w hw => ?_, by rw [flatten_cons, hflatten, nil_append]⟩
        rcases mem_cons.mp hw with rfl | hw
        · exact ⟨by simpa using hne, hcurrent⟩
        · exact hwords w hw
    · have hc' : is_space c = false := by simpa using hc
      rw [if_neg hc, filter_cons_of_pos (by simp [hc'])]
      have hcurrent' : ∀ d ∈ current ++ [c], is_space d = false := by
        intro d hd
        rcases mem_append.mp hd with hd | hd
        · exact hcurrent d hd
        · rw [mem_singleton.mp hd]
          exact hc'
      obtain ⟨hwords, hflatten⟩ := ih (current ++ [c]) hcurrent'
      exact ⟨hwords, by rw [hflatten, append_assoc, singleton_append]⟩

/-! ## Names and values -/

/-- A name, and the values that follow it. -/
def option_words (kv : List Byte × List (List Byte)) : List (List Byte) :=
  (text "--" ++ kv.1) :: kv.2

variable {name : List Byte}

theorem long_option_of_name (h : name ≠ []) : is_long_option_like (text "--" ++ name) = true := by
  have hlen : 0 < name.length := length_pos_iff.mpr h
  show (([45, 45] ++ name).take 2 == [45, 45] && decide (2 < ([45, 45] ++ name).length)) = true
  simp [hlen]

theorem push_tokens_push (m_map : OptionMap) (name : List Byte) (a b : List (List Byte)) :
    push_tokens (push_tokens m_map name a) name b = push_tokens m_map name (a ++ b) := by
  by_cases hkey : (m_map.any fun kv => kv.1 == name) = true
  · have hkey' : ((push_tokens m_map name a).any fun kv => kv.1 == name) = true := by
      rw [push_tokens, if_pos hkey, any_map]
      obtain ⟨kv, hkv, hname⟩ := any_eq_true.mp hkey
      refine any_eq_true.mpr ⟨kv, hkv, ?_⟩
      have heq : kv.1 = name := by simpa using hname
      simp [heq]
    rw [push_tokens, if_pos hkey', push_tokens, push_tokens, if_pos hkey, if_pos hkey, map_map]
    refine map_congr_left fun kv _ => ?_
    by_cases heq : kv.1 = name
    · simp [heq]
    · simp [heq]
  · have hadded : ((m_map ++ [(name, a)]).any fun kv => kv.1 == name) = true := by simp
    rw [push_tokens, push_tokens, push_tokens, if_neg hkey, if_neg hkey, if_pos hadded,
      map_append]
    have hothers : m_map.map (fun kv => if kv.1 = name then (kv.1, kv.2 ++ b) else kv) = m_map := by
      refine (map_congr_left fun kv hkv => ?_).trans (map_id m_map)
      have hne : kv.1 ≠ name := by
        intro heq
        exact hkey (any_eq_true.mpr ⟨kv, hkv, by simp [heq]⟩)
      rw [if_neg hne, id]
    rw [hothers]
    simp

theorem parse_legacy_values {values : List (List Byte)}
    (h : ∀ v ∈ values, is_long_option_like v = false) (rest : List (List Byte)) (name : List Byte)
    (m_map : OptionMap) : ∀ a : List (List Byte),
    parse_legacy (values ++ rest) name (push_tokens m_map name a) =
      parse_legacy rest name (push_tokens m_map name (a ++ values)) := by
  induction values with
  | nil =>
    intro a
    rw [nil_append, append_nil]
  | cons v values ih =>
    intro a
    have hv := h v mem_cons_self
    rw [cons_append, parse_legacy, hv, if_neg (by decide), push_tokens_push,
      ih (fun w hw => h w (mem_cons_of_mem v hw)), append_assoc, singleton_append]

/-- A name with its values, as they are written. -/
structure Written (kv : List Byte × List (List Byte)) : Prop where
  name_ne : kv.1 ≠ []
  values : ∀ v ∈ kv.2, is_long_option_like v = false

variable {groups : OptionMap}

/-- The values of every name are collected. -/
theorem parse_legacy_groups (h : ∀ kv ∈ groups, Written kv) :
    ∀ (last_option : List Byte) (m_map : OptionMap),
    parse_legacy (groups.flatMap option_words) last_option m_map =
      groups.foldl (fun m_map kv => push_tokens m_map kv.1 kv.2) m_map := by
  induction groups with
  | nil => exact fun _ _ => rfl
  | cons kv groups ih =>
    intro last_option m_map
    obtain ⟨hname, hvalues⟩ := h kv mem_cons_self
    have hdrop : (text "--" ++ kv.1).drop 2 = kv.1 := rfl
    rw [flatMap_cons, option_words, cons_append, parse_legacy,
      if_pos (long_option_of_name hname), hdrop, parse_legacy_values hvalues,
      ih (fun kv' hkv' => h kv' (mem_cons_of_mem kv hkv')), foldl_cons, nil_append]

/-- All values of a name. -/
def collected (groups : OptionMap) (name : List Byte) : List (List Byte) :=
  (groups.filter fun kv => kv.1 = name).flatMap Prod.snd

theorem collected_append_groups (groups groups' : OptionMap) (name : List Byte) :
    collected (groups ++ groups') name = collected groups name ++ collected groups' name := by
  unfold collected
  rw [filter_append, flatMap_append]

theorem collected_of_ne (h : ∀ kv ∈ groups, kv.1 ≠ name) : collected groups name = [] := by
  unfold collected
  rw [filter_eq_nil_iff.mpr (by simpa using h)]
  rfl

theorem collected_of_eq (h : ∀ kv ∈ groups, kv.1 = name) :
    collected groups name = groups.flatMap Prod.snd := by
  unfold collected
  rw [filter_eq_self.mpr (by simpa using h)]

/-- What the map has, for what was written. -/
structure Collects (groups m_map : OptionMap) : Prop where
  nodup : (m_map.map Prod.fst).Nodup
  mem_iff : ∀ name values, (name, values) ∈ m_map ↔
    (∃ kv ∈ groups, kv.1 = name) ∧ values = collected groups name

theorem collected_append (groups : OptionMap) (kv : List Byte × List (List Byte)) (name : List Byte) :
    collected (groups ++ [kv]) name =
      collected groups name ++ (if kv.1 = name then kv.2 else []) := by
  unfold collected
  rw [filter_append, flatMap_append]
  by_cases heq : kv.1 = name
  · simp [heq]
  · simp [heq]

variable {kv : List Byte × List (List Byte)} {m_map : OptionMap}

/-- More values of a name that is there. -/
theorem collects_extend (h : Collects groups m_map) (hkey : ∃ e ∈ groups, e.1 = kv.1) :
    Collects (groups ++ [kv])
      (m_map.map fun e => if e.1 = kv.1 then (e.1, e.2 ++ kv.2) else e) := by
  refine ⟨?_, fun name values => ?_⟩
  · have hkeys : (m_map.map fun e => if e.1 = kv.1 then (e.1, e.2 ++ kv.2) else e).map Prod.fst =
        m_map.map Prod.fst := by
      rw [map_map]
      refine map_congr_left fun e _ => ?_
      by_cases heq : e.1 = kv.1
      · simp [heq]
      · simp [heq]
    rw [hkeys]
    exact h.nodup
  · rw [collected_append, mem_map]
    constructor
    · intro hmem
      obtain ⟨e, he, heq⟩ := hmem
      obtain ⟨⟨e', he', hname'⟩, hvalues⟩ := (h.mem_iff e.1 e.2).mp he
      by_cases hname : e.1 = kv.1
      · rw [if_pos hname] at heq
        obtain ⟨rfl, rfl⟩ := Prod.mk.inj heq
        refine ⟨⟨kv, by simp, hname.symm⟩, ?_⟩
        rw [if_pos hname.symm, hvalues]
      · rw [if_neg hname] at heq
        subst heq
        refine ⟨⟨e', by simp [he'], hname'⟩, ?_⟩
        rw [if_neg fun hkv => hname hkv.symm, append_nil]
        exact hvalues
    · intro hmem
      obtain ⟨⟨e, he, heq⟩, rfl⟩ := hmem
      -- The name is an old one in any case.
      have hold : ∃ e ∈ groups, e.1 = name := by
        rcases mem_append.mp he with he | he
        · exact ⟨e, he, heq⟩
        · rw [mem_singleton.mp he] at heq
          rw [← heq]
          exact hkey
      refine ⟨(name, collected groups name), (h.mem_iff _ _).mpr ⟨hold, rfl⟩, ?_⟩
      by_cases hname : kv.1 = name
      · simp [hname]
      · have hname' : name ≠ kv.1 := fun heq => hname heq.symm
        simp [hname, hname']

/-- The values of a new name. -/
theorem collects_new (h : Collects groups m_map) (hnew : ∀ e ∈ groups, e.1 ≠ kv.1) :
    Collects (groups ++ [kv]) (m_map ++ [kv]) := by
  have hempty : collected groups kv.1 = [] := by
    unfold collected
    rw [filter_eq_nil_iff.mpr (by simpa using hnew)]
    rfl
  refine ⟨?_, fun name values => ?_⟩
  · rw [map_append, map_singleton, nodup_append]
    refine ⟨h.nodup, nodup_singleton _, ?_⟩
    intro name hname name' hname' heq
    rw [mem_singleton.mp hname'] at heq
    obtain ⟨e, he, hfst⟩ := mem_map.mp hname
    obtain ⟨⟨e', he', hname'⟩, -⟩ := (h.mem_iff e.1 e.2).mp he
    exact hnew e' he' (hname'.trans (hfst.trans heq))
  · rw [collected_append, mem_append, h.mem_iff, mem_singleton]
    constructor
    · intro hmem
      rcases hmem with ⟨⟨e, he, rfl⟩, rfl⟩ | rfl
      · refine ⟨⟨e, by simp [he], rfl⟩, ?_⟩
        rw [if_neg fun hkv => hnew e he hkv.symm, append_nil]
      · refine ⟨⟨(name, values), by simp, rfl⟩, ?_⟩
        rw [hempty, if_pos rfl, nil_append]
    · intro hmem
      obtain ⟨⟨e, he, rfl⟩, rfl⟩ := hmem
      rcases mem_append.mp he with he | he
      · left
        refine ⟨⟨e, he, rfl⟩, ?_⟩
        rw [if_neg fun hkv => hnew e he hkv.symm, append_nil]
      · right
        rw [mem_singleton.mp he, hempty, if_pos rfl, nil_append]

theorem collects_push (h : Collects groups m_map) (kv : List Byte × List (List Byte)) :
    Collects (groups ++ [kv]) (push_tokens m_map kv.1 kv.2) := by
  unfold push_tokens
  by_cases hkey : (m_map.any fun e => e.1 == kv.1) = true
  · rw [if_pos hkey]
    obtain ⟨e, he, hname⟩ := any_eq_true.mp hkey
    obtain ⟨⟨e', he', hname'⟩, -⟩ := (h.mem_iff e.1 e.2).mp he
    exact collects_extend h ⟨e', he', hname'.trans (by simpa using hname)⟩
  · rw [if_neg hkey]
    refine collects_new h fun e he heq => ?_
    have hmem := (h.mem_iff kv.1 (collected groups kv.1)).mpr ⟨⟨e, he, heq⟩, rfl⟩
    exact hkey (any_eq_true.mpr ⟨_, hmem, by simp⟩)

theorem collects_foldl (groups : OptionMap) :
    Collects groups (groups.foldl (fun m_map kv => push_tokens m_map kv.1 kv.2) []) := by
  induction groups using reverseRecOn with
  | nil => exact ⟨nodup_nil, fun name values => by simp⟩
  | append_singleton groups kv ih =>
    rw [foldl_append]
    exact collects_push ih kv

theorem collects_legacy (h : ∀ kv ∈ groups, Written kv) :
    Collects groups (parse_model_command_line_legacy (groups.flatMap option_words)) := by
  unfold parse_model_command_line_legacy
  rw [parse_legacy_groups h]
  exact collects_foldl groups

/-! ## Parsing -/

section Parsing

variable (known_options : KnownOptions) (known_short_options : KnownShortOptions)

/-- What a token asks for: the option, if it is a known one, and a value that is part
    of the token. -/
def plan (token : List Byte) : Outcome (Option BaseOption × List (List Byte)) :=
  if is_long_option_like token then
    let current_opt := token.drop 2
    let name := current_opt.takeWhile (· ≠ 61)
    let opt_value := (current_opt.dropWhile (· ≠ 61)).drop 1
    if current_opt.contains 61 && opt_value.isEmpty then
      throw_ ("Argument for " ++ to_message name ++ " should follow =")
    else if name.isEmpty then
      throw_ "Expected long option name after -- but found nothing"
    else .ok (known_options name, if current_opt.contains 61 then [opt_value] else [])
  else if is_short_option_like token then
    match token with
    | _ :: current_opt :: opt_value =>
      .ok (known_short_options current_opt, if opt_value.isEmpty then [] else [opt_value])
    | _ => .ok (none, [])
  else .ok (none, [])

variable {token : List Byte} {handle : Bool}

theorem consume_token_plan (h : (handle && is_terminator token) = false)
    (tokens : List (List Byte)) (m_map : TokenMap) :
    consume_token handle known_options known_short_options token tokens m_map =
      plan known_options known_short_options token >>= fun p =>
        consume_known p.1 token tokens p.2 m_map := by
  unfold consume_token plan
  by_cases hlong : is_long_option_like token = true
  · rw [if_pos hlong, if_pos hlong]
    unfold consume_long_option
    simp only
    split
    · rfl
    · split
      · rfl
      · rfl
  · rw [if_neg hlong, if_neg hlong]
    split
    · -- A token like this has two characters at least.
      unfold consume_short_option
      match token with
      | [] => rfl
      | [_] => rfl
      | _ :: _ :: _ => rfl
    · rw [h]
      rfl

theorem consume_token_eq (token : List Byte) (tokens : List (List Byte)) (m_map : TokenMap) :
    consume_token false known_options known_short_options token tokens m_map =
      plan known_options known_short_options token >>= fun p =>
        consume_known p.1 token tokens p.2 m_map :=
  consume_token_plan known_options known_short_options (Bool.false_and _) tokens m_map

theorem consume_token_terminator (tokens : List (List Byte)) (m_map : TokenMap) :
    consume_token true known_options known_short_options (text "--") tokens m_map =
      .ok ([], tokens.foldl (fun m_map token => m_map.push_back POSITIONAL [token]) m_map) := rfl

/-- Nothing, or something that starts with the name of an option. -/
def StartsOption (tokens : List (List Byte)) : Prop :=
  ∀ token ∈ tokens.head?, is_long_option_like token = true

variable {tokens : List (List Byte)}

theorem StartsOption.option_like (h : StartsOption (token :: tokens)) :
    is_option_like token = true := by
  have hlong : is_long_option_like token = true := h token rfl
  unfold is_option_like
  rw [hlong]
  rfl

variable {post : List (List Byte)}

theorem takeWhile_append_starts (h : StartsOption post) (tokens : List (List Byte)) :
    (tokens ++ post).takeWhile (fun token => !is_option_like token) =
      tokens.takeWhile (fun token => !is_option_like token) ∧
    (tokens ++ post).dropWhile (fun token => !is_option_like token) =
      tokens.dropWhile (fun token => !is_option_like token) ++ post := by
  induction tokens with
  | nil =>
    cases post with
    | nil => exact ⟨rfl, rfl⟩
    | cons token post =>
      rw [nil_append, takeWhile_cons, dropWhile_cons, h.option_like]
      exact ⟨rfl, rfl⟩
  | cons token tokens ih =>
    rw [cons_append, takeWhile_cons, dropWhile_cons, takeWhile_cons,
      dropWhile_cons, ih.1, ih.2]
    split
    · exact ⟨rfl, rfl⟩
    · exact ⟨rfl, rfl⟩

variable {rest : List (List Byte)} {opt : BaseOption}

/-- The tokens of an option are found in front of the next name. -/
theorem consume_tokens_append {given taken : List (List Byte)} (hpost : StartsOption post)
    (h : consume_tokens opt tokens given = .ok (taken, rest)) :
    consume_tokens opt (tokens ++ post) given = .ok (taken, rest ++ post) := by
  have hfirst {taken rest : List (List Byte)} (h : consume_first opt tokens given = .ok (taken, rest)) :
      consume_first opt (tokens ++ post) given = .ok (taken, rest ++ post) := by
    unfold consume_first at h ⊢
    cases given with
    | nil =>
      cases tokens with
      | nil => cases h
      | cons token tokens =>
        obtain ⟨rfl, rfl⟩ := Prod.mk.inj (ok.inj h)
        rfl
    | cons v given =>
      obtain ⟨rfl, rfl⟩ := Prod.mk.inj (ok.inj h)
      rfl
  unfold consume_tokens at h ⊢
  split at h
  · -- A switch takes nothing.
    split at h
    · obtain ⟨rfl, rfl⟩ := Prod.mk.inj (ok.inj h)
      rename_i hempty
      rw [if_pos hempty]
    · cases h
  · obtain ⟨⟨taken', rest'⟩, hconsume, hmore⟩ := bind_eq_ok.mp h
    obtain ⟨rfl, rfl⟩ := Prod.mk.inj (ok.inj hmore)
    obtain ⟨htake, hdrop⟩ := takeWhile_append_starts hpost rest'
    rw [hfirst hconsume, ok_bind]
    show ok (taken' ++ (rest' ++ post).takeWhile _, (rest' ++ post).dropWhile _) = _
    rw [htake, hdrop]
  · exact hfirst h

theorem consume_token_append {m_map m_map' : TokenMap} (hpost : StartsOption post)
    (h : consume_token false known_options known_short_options token tokens m_map = .ok (rest, m_map')) :
    consume_token false known_options known_short_options token (tokens ++ post) m_map =
      .ok (rest ++ post, m_map') := by
  rw [consume_token_eq] at h ⊢
  obtain ⟨⟨known, given⟩, hplan, hconsume⟩ := bind_eq_ok.mp h
  rw [hplan, ok_bind]
  cases known with
  | none =>
    obtain ⟨rfl, rfl⟩ := Prod.mk.inj (ok.inj hconsume)
    rfl
  | some opt =>
    obtain ⟨⟨taken, rest'⟩, htokens, hresult⟩ := bind_eq_ok.mp hconsume
    obtain ⟨rfl, rfl⟩ := Prod.mk.inj (ok.inj hresult)
    show (consume_tokens opt (tokens ++ post) given >>= _) = _
    rw [consume_tokens_append hpost htokens]
    rfl

/-- What a round leaves is a part of the end of the queue. -/
theorem consume_tokens_suffix {given taken : List (List Byte)}
    (h : consume_tokens opt tokens given = .ok (taken, rest)) : rest <:+ tokens := by
  have hfirst {taken rest : List (List Byte)} (h : consume_first opt tokens given = .ok (taken, rest)) :
      rest <:+ tokens := by
    unfold consume_first at h
    split at h
    · cases h
    · obtain ⟨rfl, rfl⟩ := Prod.mk.inj (ok.inj h)
      exact suffix_cons _ _
    · obtain ⟨rfl, rfl⟩ := Prod.mk.inj (ok.inj h)
      exact suffix_refl _
  unfold consume_tokens at h
  split at h
  · split at h
    · obtain ⟨rfl, rfl⟩ := Prod.mk.inj (ok.inj h)
      exact suffix_refl _
    · cases h
  · obtain ⟨⟨taken', rest'⟩, hconsume, hmore⟩ := bind_eq_ok.mp h
    obtain ⟨rfl, rfl⟩ := Prod.mk.inj (ok.inj hmore)
    exact (dropWhile_suffix _).trans (hfirst hconsume)
  · exact hfirst h

theorem consume_token_suffix {m_map m_map' : TokenMap}
    (h : consume_token handle known_options known_short_options token tokens m_map =
      .ok (rest, m_map')) : rest <:+ tokens := by
  by_cases hterm : (handle && is_terminator token) = true
  · obtain ⟨rfl, hterminator⟩ := Bool.and_eq_true_iff.mp hterm
    obtain rfl : token = text "--" := by simpa [is_terminator] using hterminator
    rw [consume_token_terminator] at h
    obtain ⟨rfl, -⟩ := Prod.mk.inj (ok.inj h)
    exact nil_suffix
  · rw [consume_token_plan _ _ (by simpa using hterm)] at h
    obtain ⟨⟨known, given⟩, -, hconsume⟩ := bind_eq_ok.mp h
    cases known with
    | none =>
      obtain ⟨rfl, rfl⟩ := Prod.mk.inj (ok.inj hconsume)
      exact suffix_refl _
    | some opt =>
      obtain ⟨⟨taken, rest'⟩, htokens, hresult⟩ := bind_eq_ok.mp hconsume
      obtain ⟨rfl, rfl⟩ := Prod.mk.inj (ok.inj hresult)
      exact consume_tokens_suffix htokens

end Parsing

end VW.Config
