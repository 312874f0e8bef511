import VowpalWabbit.Primitives.Tokenize

/-! # Command lines

    `split_command_line` of `core/parse_primitives.cc`. A space ends a token unless it is quoted
    or escaped; a quote of one kind inside the other kind is a character, and what follows a
    backslash is one everywhere.
-/

open Cpp Cpp.Outcome

namespace VW.Primitives

open List

def is_delim (c : Byte) : Bool := c = 32

def is_quote (c : Byte) : Bool := c = 34 || c = 39

def is_escape_char (c : Byte) : Bool := c = 92

/-- The character behind a backslash. -/
def unescape_char (c : Byte) : Byte := if c = 110 then 10 else if c = 116 then 9 else c

/-- The loop of `split_impl`, and what follows it. -/
def split_loop (inside_quote : Bool) (quote_char : Byte) (current : List Byte) (ret : List (List Byte)) :
    List Byte → Outcome (List (List Byte))
  | [] =>
    if inside_quote then throw_ "unbalanced quotes in string"
    else .ok (if current ≠ [] then ret ++ [current] else ret)
  | c :: rest =>
    if is_escape_char c then
      match rest with
      | [] => throw_ "unescape_char: unexpected end of string while unescaping"
      | x :: rest => split_loop inside_quote quote_char (current ++ [unescape_char x]) ret rest
    else if is_delim c then
      -- If we're not inside a token, this token is done. Otherwise just add the space to the token.
      if !inside_quote then split_loop inside_quote quote_char []
        (if current ≠ [] then ret ++ [current] else ret) rest
      else split_loop inside_quote quote_char (current ++ [c]) ret rest
    else if is_quote c then
      if inside_quote && quote_char = c then split_loop false quote_char current ret rest
      else if !inside_quote then split_loop true c current ret rest
      else split_loop inside_quote quote_char (current ++ [c]) ret rest
    else split_loop inside_quote quote_char (current ++ [c]) ret rest

def split_command_line (cmd_line : List Byte) : Outcome (List (List Byte)) :=
  if cmd_line = [] then .ok [] else split_loop false 0 [] [] cmd_line

/-! ## Written tokens -/

/-- How a token is written. -/
inductive Writing where
  | bare
  | quoted (quote : Byte) (is_quote_quote : is_quote quote = true)

def Writing.write : Writing → List Byte → List Byte
  | bare, token => escape_chars (fun c => is_delim c || is_quote c || is_escape_char c) token
  | quoted q _, token => q :: (escape q token ++ [q])

/-- A command line: the tokens as they are written, between them spaces, one or more. -/
inductive Joined : List (Writing × List Byte) → List Byte → Prop where
  | nil : Joined [] []
  | last (writing : Writing) (token : List Byte) : Joined [(writing, token)] (writing.write token)
  | cons (writing : Writing) (token : List Byte) (spaces : Nat) {next : Writing × List Byte}
      {words : List (Writing × List Byte)} {s : List Byte} (h : Joined (next :: words) s) :
      Joined ((writing, token) :: next :: words) (writing.write token ++ (replicate (spaces + 1) 32 ++ s))

section

variable {inside_quote : Bool} {quote_char : Byte} {current : List Byte} {ret : List (List Byte)} {rest : List Byte}

/-- Escaped characters are read as they are, and so are those that need no escape. -/
theorem split_loop_escape_chars {p : Byte → Bool} (hescape : ∀ c, p c = true → unescape_char c = c)
    (hplain : ∀ c, p c = false → ∀ current rest, split_loop inside_quote quote_char current ret (c :: rest) =
      split_loop inside_quote quote_char (current ++ [c]) ret rest) (token : List Byte) : ∀ current,
    split_loop inside_quote quote_char current ret (escape_chars p token ++ rest) =
      split_loop inside_quote quote_char (current ++ token) ret rest := by
  induction token with
  | nil => simp [escape_chars]
  | cons c token ih =>
    intro current
    have hchars : escape_chars p (c :: token) = (if p c then [92, c] else [c]) ++ escape_chars p token := rfl
    rw [hchars]
    cases hc : p c with
    | true =>
      have hread : split_loop inside_quote quote_char current ret (92 :: c :: (escape_chars p token ++ rest)) =
          split_loop inside_quote quote_char (current ++ [unescape_char c]) ret (escape_chars p token ++ rest) := rfl
      simp only [if_true, cons_append, nil_append]
      rw [hread, hescape c hc, ih, append_assoc, singleton_append]
    | false =>
      simp only [Bool.false_eq_true, if_false, cons_append, nil_append]
      rw [hplain c hc, ih, append_assoc, singleton_append]

theorem split_loop_bare (token : List Byte) (current : List Byte) :
    split_loop false quote_char current ret (Writing.bare.write token ++ rest) =
      split_loop false quote_char (current ++ token) ret rest := by
  refine split_loop_escape_chars (fun c hc => ?_) (fun c hc current rest => ?_) token current
  · simp only [is_delim, is_quote, is_escape_char, Bool.or_eq_true, decide_eq_true_eq] at hc
    rcases hc with (rfl | rfl | rfl) | rfl <;> rfl
  · simp only [Bool.or_eq_false_iff] at hc
    rw [split_loop.eq_def]
    simp only [hc, Bool.false_eq_true, if_false]

theorem split_loop_quoted {q : Byte} (hq : is_quote q = true) (token : List Byte) :
    split_loop false quote_char current ret ((Writing.quoted q hq).write token ++ rest) =
      split_loop false q (current ++ token) ret rest := by
  have hquote : q = 34 ∨ q = 39 := by simpa [is_quote] using hq
  have hopen : split_loop false quote_char current ret (q :: (escape q token ++ q :: rest)) =
      split_loop true q current ret (escape q token ++ q :: rest) := by
    rw [split_loop.eq_def]
    rcases hquote with rfl | rfl <;> rfl
  have hclose : split_loop true q (current ++ token) ret (q :: rest) = split_loop false q
    (current ++ token) ret rest := by
    rw [split_loop.eq_def]
    rcases hquote with rfl | rfl <;> rfl
  have hwrite : (Writing.quoted q hq).write token ++ rest = q :: (escape q token ++ q :: rest) := by
    simp [Writing.write]
  rw [hwrite, hopen, escape, split_loop_escape_chars (fun c hc => ?_) (fun c hc current rest => ?_) token, hclose]
  · have : c = 92 ∨ c = 34 ∨ c = 39 := by
      rw [Bool.or_eq_true, decide_eq_true_eq, decide_eq_true_eq] at hc
      rcases hquote with rfl | rfl <;> rcases hc with rfl | rfl <;> decide
    rcases this with rfl | rfl | rfl <;> rfl
  · rw [Bool.or_eq_false_iff, decide_eq_false_iff_not, decide_eq_false_iff_not] at hc
    have hescape : is_escape_char c = false := decide_eq_false hc.1
    have hother : (true && decide (q = c)) = false := by simpa using fun h => hc.2 h.symm
    rw [split_loop.eq_def]
    simp only [hescape, hother, Bool.false_eq_true, if_false, Bool.not_true]
    split <;> [rfl; split <;> rfl]

theorem split_loop_written (writing : Writing) (token : List Byte) : ∃ quote_char',
    split_loop false quote_char [] ret (writing.write token ++ rest) =
      split_loop false quote_char' token ret rest := by
  cases writing with
  | bare => exact ⟨quote_char, split_loop_bare token []⟩
  | quoted q hq => exact ⟨q, split_loop_quoted hq token⟩

/-- Spaces behind a token end it once. -/
theorem split_loop_spaces (n : Nat) : split_loop false quote_char [] ret (List.replicate n 32 ++ rest) =
    split_loop false quote_char [] ret rest := by
  induction n with
  | zero => rfl
  | succ n ih =>
    rw [replicate_succ, cons_append, split_loop.eq_def]
    exact ih

theorem split_loop_joined {words : List (Writing × List Byte)} {s : List Byte} (h : Joined words s)
    (hnonempty : ∀ word ∈ words, word.2 ≠ []) : ∀ quote_char ret,
    split_loop false quote_char [] ret s = .ok (ret ++ words.map Prod.snd) := by
  induction h with
  | nil =>
    intro quote_char ret
    simp [split_loop]
  | last writing token =>
    intro quote_char ret
    obtain ⟨quote_char', hwritten⟩ := @split_loop_written quote_char ret [] writing token
    rw [append_nil] at hwritten
    have htoken : token ≠ [] := hnonempty _ mem_cons_self
    rw [hwritten]
    simp [split_loop, htoken]
  | @cons writing token spaces next words s _ ih =>
    intro quote_char ret
    obtain ⟨quote_char', hwritten⟩ :=
      @split_loop_written quote_char ret (replicate (spaces + 1) 32 ++ s) writing token
    have htoken : token ≠ [] := hnonempty _ mem_cons_self
    have hspace : split_loop false quote_char' token ret (32 :: (replicate spaces 32 ++ s)) =
        split_loop false quote_char' [] (if token ≠ [] then ret ++ [token] else ret) (replicate spaces 32 ++ s) := by
      rw [split_loop.eq_def]
      rfl
    rw [hwritten, replicate_succ, cons_append, hspace, if_pos htoken, split_loop_spaces,
      ih fun word hword => hnonempty word (mem_cons_of_mem _ hword)]
    simp

/-! ## Errors -/

/-- The characters outside the escapes. -/
def unescaped : List Byte → List Byte
  | [] => []
  | c :: rest =>
    if c = 92 then
      match rest with
      | [] => []
      | _ :: rest => unescaped rest
    else c :: unescaped rest

/-- The quote that is open behind a character. -/
def open_quote (quote : Option Byte) (c : Byte) : Option Byte :=
  if is_quote c then
    match quote with
    | none => some c
    | some q => if c = q then none else some q
  else quote

/-- A quote is left open. -/
def quote_open (s : List Byte) : Bool := ((unescaped s).foldl open_quote none).isSome

/-- The string ends in an unescaped backslash: in an odd number of backslashes. -/
def ends_in_escape (s : List Byte) : Bool := (s.reverse.takeWhile (· = 92)).length % 2 = 1

theorem ends_in_escape_plain {c : Byte} (hc : c ≠ 92) (s : List Byte) :
    ends_in_escape (c :: s) = ends_in_escape s := by
  have hstop : [c].takeWhile (· = 92) = [] := takeWhile_cons_of_neg (by simpa using hc)
  unfold ends_in_escape
  rw [reverse_cons, takeWhile_append, hstop, append_nil]
  split
  · next h => rw [h]
  · rfl

theorem ends_in_escape_escape (c : Byte) (s : List Byte) : ends_in_escape (92 :: c :: s) = ends_in_escape s := by
  by_cases hc : c = 92
  · subst hc
    have hsplit : (92 :: 92 :: s : List Byte).reverse = s.reverse ++ [92, 92] := by simp
    unfold ends_in_escape
    rw [hsplit, takeWhile_append]
    split
    · next h =>
      rw [length_append, h]
      simp
    · rfl
  · have hsplit : (92 :: c :: s : List Byte).reverse = (c :: s).reverse ++ [92] := by simp
    rw [← ends_in_escape_plain hc s]
    unfold ends_in_escape
    rw [hsplit, takeWhile_append, if_neg]
    intro h
    have hall := takeWhile_eq_self_iff.mp ((List.takeWhile_prefix fun x : Byte => decide (x = 92)).eq_of_length h)
    exact hc (by simpa using hall c (by simp))

/-- What a call comes to. -/
def outcome (s : List Byte) (quote : Option Byte) (tokens : List (List Byte)) : Outcome (List (List Byte)) :=
  if ends_in_escape s then throw_ "unescape_char: unexpected end of string while unescaping"
  else if ((unescaped s).foldl open_quote quote).isSome then throw_ "unbalanced quotes in string"
  else .ok tokens

theorem outcome_escape (c : Byte) (s : List Byte) (quote : Option Byte) (tokens : List (List Byte)) :
    outcome (92 :: c :: s) quote tokens = outcome s quote tokens := by
  rw [outcome, ends_in_escape_escape]
  rfl

theorem outcome_plain {c : Byte} (hc : c ≠ 92) (s : List Byte) (quote : Option Byte) (tokens : List (List Byte)) :
    outcome (c :: s) quote tokens = outcome s (open_quote quote c) tokens := by
  rw [outcome, ends_in_escape_plain hc, unescaped.eq_def]
  simp only [if_neg hc, foldl_cons]
  rfl

theorem split_loop_outcome (inside_quote : Bool) (quote_char : Byte) (current : List Byte) (ret : List (List Byte))
    (s : List Byte) : ∃ tokens, split_loop inside_quote quote_char current ret s =
      outcome s (if inside_quote then some quote_char else none) tokens := by
  have next : ∀ {c : Byte} {rest : List Byte} {quote quote' : Option Byte} {tokens : List (List Byte)},
      ¬ is_escape_char c = true → open_quote quote c = quote' →
      outcome rest quote' tokens = outcome (c :: rest) quote tokens := fun hc hquote =>
    (outcome_plain (fun h => hc (decide_eq_true h)) _ _ _).symm ▸ hquote ▸ rfl
  -- one character, or an escape, at a time
  fun_induction split_loop inside_quote quote_char current ret s with
  | case1 => exact ⟨[], rfl⟩
  | case2 inside_quote quote_char current ret h =>
    rw [Bool.not_eq_true] at h
    subst h
    exact ⟨_, rfl⟩
  | case3 inside_quote quote_char current ret c hc =>
    obtain rfl : c = 92 := of_decide_eq_true hc
    exact ⟨[], rfl⟩
  | case4 inside_quote quote_char current ret c hc x rest ih =>
    obtain rfl : c = 92 := of_decide_eq_true hc
    obtain ⟨tokens, ih⟩ := ih
    exact ⟨tokens, ih.trans (outcome_escape x rest _ tokens).symm⟩
  | case5 inside_quote quote_char current ret c rest hescape hdelim h ih =>
    obtain ⟨tokens, ih⟩ := ih
    exact ⟨tokens, ih.trans (next hescape (by grind [open_quote, is_delim, is_quote]))⟩
  | case6 inside_quote quote_char current ret c rest hescape hdelim h ih =>
    obtain ⟨tokens, ih⟩ := ih
    exact ⟨tokens, ih.trans (next hescape (by grind [open_quote, is_delim, is_quote]))⟩
  | case7 inside_quote quote_char current ret c rest hescape hdelim hquote h ih =>
    obtain ⟨tokens, ih⟩ := ih
    exact ⟨tokens, ih.trans (next hescape (by grind [open_quote]))⟩
  | case8 inside_quote quote_char current ret c rest hescape hdelim hquote h h' ih =>
    obtain ⟨tokens, ih⟩ := ih
    exact ⟨tokens, ih.trans (next hescape (by grind [open_quote]))⟩
  | case9 inside_quote quote_char current ret c rest hescape hdelim hquote h h' ih =>
    obtain ⟨tokens, ih⟩ := ih
    exact ⟨tokens, ih.trans (next hescape (by grind [open_quote]))⟩
  | case10 inside_quote quote_char current ret c rest hescape hdelim hquote ih =>
    obtain ⟨tokens, ih⟩ := ih
    exact ⟨tokens, ih.trans (next hescape (by grind [open_quote, is_quote]))⟩

/-- Words come back as they were joined, and what throws is an open quote or a trailing escape. -/
theorem split_command_line_round_trip (cmd_line : List Byte) :
    (∀ words, Joined words cmd_line → (∀ word ∈ words, word.2 ≠ []) →
      split_command_line cmd_line = .ok (words.map Prod.snd)) ∧
    (Throws (split_command_line cmd_line) ↔ quote_open cmd_line = true ∨ ends_in_escape cmd_line = true) := by
  have hcall : split_command_line cmd_line = split_loop false 0 [] [] cmd_line := by
    unfold split_command_line
    split
    · next h => rw [h]; rfl
    · rfl
  rw [hcall]
  refine ⟨fun words h hnonempty => split_loop_joined h hnonempty 0 [], ?_⟩
  obtain ⟨tokens, houtcome⟩ := split_loop_outcome false 0 [] [] cmd_line
  rw [houtcome, if_neg Bool.false_ne_true]
  unfold outcome quote_open
  constructor
  · rintro ⟨what, h⟩
    split_ifs at h with hescape hquote
    · exact .inr hescape
    · exact .inl hquote
    · cases h
  · intro h
    split_ifs with hescape hquote
    · exact ⟨_, rfl⟩
    · exact ⟨_, rfl⟩
    · exact absurd h (by simp [hescape, hquote])

/-- A quoted word with a blank in it. -/
theorem split_command_line_round_trip_quoted :
    split_command_line (text "\"a b\"  c") = .ok [text "a b", text "c"] := by
  refine (split_command_line_round_trip _).1 [(.quoted 34 rfl, text "a b"), (.bare, text "c")] ?_ (by decide)
  exact .cons (.quoted 34 rfl) (text "a b") 1 (.last .bare (text "c"))

end

end VW.Primitives
