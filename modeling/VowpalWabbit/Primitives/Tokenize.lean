import VowpalWabbit.Framework.Text
import Mathlib.Data.List.TakeWhile

/-! # Tokens

    `tokenize` of `common/text_utils.h` and `escaped_tokenize` of `core/parse_primitives.cc`.
    Both note whether the last delimiter stood at the beginning of what was left, and only then
    give an empty token at the end of the string.
-/

open Cpp

namespace VW.Primitives

open List

variable {p : Byte → Bool}

theorem length_dropWhile_lt {s rest : List Byte} {c : Byte} (h : s.dropWhile p = c :: rest) :
    rest.length < s.length := by
  have := (s.dropWhile_suffix p).length_le
  rw [h, length_cons] at this
  omega

theorem find_first {t : List Byte} {c : Byte} (ht : ∀ x ∈ t, p x = true) (hc : p c = false)
    (s : List Byte) : (t ++ c :: s).takeWhile p = t ∧ (t ++ c :: s).dropWhile p = c :: s := by
  rw [takeWhile_append_of_pos ht, dropWhile_append_of_pos ht]
  simp [hc]

/-! ## `tokenize` -/

/-- The loop, and what it leaves. -/
def tokenize_loop (delim : Byte) (allow_empty last_space : Bool) (s : List Byte) : List (List Byte) :=
  match _h : s.dropWhile (· ≠ delim) with
  | _ :: rest =>
    let token := s.takeWhile (· ≠ delim)
    (if allow_empty || token ≠ [] then [token] else []) ++ tokenize_loop delim allow_empty (token = []) rest
  | [] => if s ≠ [] || (last_space && allow_empty) then [s] else []
termination_by s.length
decreasing_by exact length_dropWhile_lt _h

def tokenize (delim : Byte) (s : List Byte) (allow_empty : Bool) : List (List Byte) :=
  tokenize_loop delim allow_empty false s

section

variable {delim : Byte} {allow_empty last_space : Bool} {s t : List Byte}

theorem tokenize_loop_cons (s : List Byte) (ht : delim ∉ t) :
    tokenize_loop delim allow_empty last_space (t ++ delim :: s) =
    (if allow_empty || t ≠ [] then [t] else []) ++ tokenize_loop delim allow_empty (t = []) s := by
  have hne : ∀ x ∈ t, decide (x ≠ delim) = true := fun x hx => decide_eq_true fun h => ht (h ▸ hx)
  obtain ⟨htake, hdrop⟩ := find_first hne (c := delim) (by simp) s
  rw [tokenize_loop]
  split
  · next c rest h =>
    rw [hdrop] at h
    obtain ⟨rfl, rfl⟩ := cons.inj h
    rw [htake]
  · next h =>
    rw [hdrop] at h
    cases h

theorem tokenize_loop_last (ht : delim ∉ t) : tokenize_loop delim allow_empty last_space t =
    if t ≠ [] || (last_space && allow_empty) then [t] else [] := by
  have hdrop : t.dropWhile (· ≠ delim) = [] :=
    dropWhile_eq_nil_iff.mpr fun x hx => decide_eq_true fun h => ht (h ▸ hx)
  rw [tokenize_loop]
  split
  · next h =>
    rw [hdrop] at h
    cases h
  · rfl

/-- A string has no delimiter, or a first one. -/
theorem delimited_induction (delim : Byte) {P : List Byte → Prop} (last : ∀ t, delim ∉ t → P t)
    (cons : ∀ t s, delim ∉ t → P s → P (t ++ delim :: s)) (s : List Byte) : P s := by
  induction hn : s.length using Nat.strong_induction_on generalizing s with
  | _ n ih =>
    by_cases hs : delim ∈ s
    · obtain ⟨t, rest, rfl, ht⟩ := append_of_mem hs |>.elim fun _ _ => eq_append_cons_of_mem hs
      subst hn
      exact cons t rest ht (ih rest.length (by simp; omega) rest rfl)
    · exact last s hs

/-- Without empty tokens these are the others. -/
theorem tokenize_nonempty (delim : Byte) (s : List Byte) :
    tokenize delim s false = (s.splitOn delim).filter (· ≠ []) := by
  suffices h : ∀ last_space, tokenize_loop delim false last_space s = (s.splitOn delim).filter (· ≠ []) from h false
  induction s using delimited_induction delim with
  | last t ht =>
    intro last_space
    rw [tokenize_loop_last ht, splitOn_eq_singleton ht]
    cases t <;> simp
  | cons t s ht ih =>
    intro last_space
    rw [tokenize_loop_cons s ht, splitOn_append_cons_self_of_not_mem ht, ih]
    cases t <;> simp

/-- One delimiter stands at the end, behind another character. -/
def EndsSingle (delim : Byte) (s : List Byte) : Prop := ∃ t c, s = t ++ [c, delim] ∧ c ≠ delim

theorem endsSingle_cons (hs : s ≠ []) :
    EndsSingle delim (t ++ delim :: s) ↔ EndsSingle delim s := by
  constructor
  · rintro ⟨u, c, heq, hc⟩
    obtain rfl | ⟨s', x, rfl⟩ := eq_nil_or_concat s
    · exact absurd rfl hs
    · have hreverse := congrArg reverse heq
      simp only [reverse_append, reverse_cons, append_assoc, reverse_nil, nil_append,
        cons_append, cons.injEq, concat_eq_append] at hreverse
      obtain ⟨rfl, hreverse⟩ := hreverse
      obtain rfl | ⟨s'', y, rfl⟩ := eq_nil_or_concat s'
      · exact absurd (cons.inj hreverse).1.symm hc
      · simp only [concat_eq_append, reverse_append, reverse_cons, reverse_nil, nil_append,
          cons_append, cons.injEq] at hreverse
        exact ⟨s'', y, by simp, hreverse.1 ▸ hc⟩
  · rintro ⟨u, c, rfl, hc⟩
    exact ⟨t ++ delim :: u, c, by simp, hc⟩

/-- The empty token behind a single delimiter at the end is lost. -/
theorem tokenize_loop_eq {s : List Byte} (hs : s ≠ []) : ∀ last_space,
    (¬ EndsSingle delim s → tokenize_loop delim true last_space s = s.splitOn delim) ∧
    (EndsSingle delim s → tokenize_loop delim true last_space s = (s.splitOn delim).dropLast) := by
  induction s using delimited_induction delim with
  | last t ht =>
    intro last_space
    rw [tokenize_loop_last ht, splitOn_eq_singleton ht, if_pos (by simp [hs])]
    refine ⟨fun _ => rfl, ?_⟩
    rintro ⟨u, c, rfl, -⟩
    exact absurd (by simp) ht
  | cons t s ht ih =>
    intro last_space
    rw [tokenize_loop_cons s ht, splitOn_append_cons_self_of_not_mem ht, Bool.true_or, if_pos rfl]
    by_cases hempty : s = []
    · subst hempty
      rw [tokenize_loop_last not_mem_nil, splitOn_nil]
      by_cases htoken : t = []
      · subst htoken
        refine ⟨fun _ => rfl, ?_⟩
        rintro ⟨u, c, heq, -⟩
        have hlength := congrArg length heq
        simp at hlength
      · obtain rfl | ⟨t', c, rfl⟩ := eq_nil_or_concat t
        · exact absurd rfl htoken
        · refine ⟨fun h => absurd ⟨t', c, by simp, fun hc => ht (by simp [hc])⟩ h, fun _ => ?_⟩
          simp
    · rw [endsSingle_cons hempty]
      obtain ⟨hall, hlast⟩ := ih hempty (decide (t = []))
      refine ⟨fun h => by rw [hall h]; rfl, fun h => ?_⟩
      rw [hlast h, dropLast_cons_of_ne_nil (splitOn_ne_nil _ _)]
      rfl

/-- One token more than delimiters, which give the string back. -/
def Rejoins (delim : Byte) (s : List Byte) (tokens : List (List Byte)) : Prop :=
  tokens.length = s.count delim + 1 ∧ [delim].intercalate tokens = s

theorem length_splitOn (delim : Byte) (s : List Byte) : (s.splitOn delim).length = s.count delim + 1 := by
  induction s using delimited_induction delim with
  | last t ht => rw [splitOn_eq_singleton ht, count_eq_zero.mpr ht, length_singleton]
  | cons t s ht ih =>
    rw [splitOn_append_cons_self_of_not_mem ht, length_cons, ih, count_append, count_cons_self,
      count_eq_zero.mpr ht, Nat.zero_add]

theorem tokenize_rejoins_iff (hs : s ≠ []) :
    Rejoins delim s (tokenize delim s true) ↔ ¬ EndsSingle delim s := by
  obtain ⟨hall, hlast⟩ := @tokenize_loop_eq delim s hs false
  unfold tokenize
  constructor
  · rintro ⟨hlength, -⟩ h
    rw [hlast h, length_dropLast, length_splitOn] at hlength
    omega
  · intro h
    rw [hall h]
    exact ⟨length_splitOn delim s, intercalate_splitOn delim⟩

/-- No token has a delimiter. -/
theorem not_mem_tokens : ∀ last_space, ∀ token ∈ tokenize_loop delim allow_empty last_space s, delim ∉ token := by
  induction s using delimited_induction delim with
  | last t ht =>
    intro last_space token htoken
    rw [tokenize_loop_last ht] at htoken
    split at htoken
    · rwa [mem_singleton.mp htoken]
    · cases htoken
  | cons t s ht ih =>
    intro last_space token htoken
    rw [tokenize_loop_cons s ht] at htoken
    rcases mem_append.mp htoken with htoken | htoken
    · split at htoken
      · rwa [mem_singleton.mp htoken]
      · cases htoken
    · exact ih _ token htoken

end

/-! ## `escaped_tokenize` -/

/-- The characters of `delims`, a C string. -/
def special (delim c : Byte) : Bool := c = 92 || (c = delim && delim ≠ 0)

/-- The loop, and what it leaves. -/
def escaped_loop (delim : Byte) (allow_empty : Bool) (current : List Byte) (last_space : Bool) (s : List Byte) :
    List (List Byte) :=
  match _h : s.dropWhile (! special delim ·) with
  | c :: rest =>
    let current := current ++ s.takeWhile (! special delim ·)
    if c = 92 then
      -- always insert the next character after an escape if it exists
      escaped_loop delim allow_empty (current ++ rest.take 1) last_space (rest.drop 1)
    else
      (if current ≠ [] || allow_empty then [current] else []) ++
        escaped_loop delim allow_empty [] (s.takeWhile (! special delim ·) = []) rest
  | [] => if s ≠ [] || current ≠ [] || (last_space && allow_empty) then [current ++ s] else []
termination_by s.length
decreasing_by
  · have := length_dropWhile_lt _h
    rw [length_drop]
    omega
  · exact length_dropWhile_lt _h

def escaped_tokenize (delim : Byte) (s : List Byte) (allow_empty : Bool) : List (List Byte) :=
  escaped_loop delim allow_empty [] false s

/-- The same, one character after the other; `fresh` where none was read since one was removed. -/
def escaped_scan (delim : Byte) (allow_empty : Bool) (current : List Byte) (last_space fresh : Bool) :
    List Byte → List (List Byte)
  | [] => if current ≠ [] || (last_space && allow_empty) then [current] else []
  | c :: rest =>
    if c = 92 then
      match rest with
      | [] => escaped_scan delim allow_empty current last_space true []
      | x :: rest => escaped_scan delim allow_empty (current ++ [x]) last_space true rest
    else if special delim c then
      (if current ≠ [] || allow_empty then [current] else []) ++ escaped_scan delim allow_empty [] fresh true rest
    else escaped_scan delim allow_empty (current ++ [c]) last_space false rest

section

variable {delim : Byte} {allow_empty : Bool} {s t : List Byte}

theorem scan_ordinary (ht : ∀ c ∈ t, special delim c = false) (rest : List Byte) :
    ∀ current last_space fresh, escaped_scan delim allow_empty current last_space fresh (t ++ rest) =
      escaped_scan delim allow_empty (current ++ t) last_space (fresh && t = []) rest := by
  induction t with
  | nil => simp
  | cons c t ih =>
    intro current last_space fresh
    have hc := ht c mem_cons_self
    have hne : c ≠ 92 := by
      rintro rfl
      simp [special] at hc
    rw [cons_append, escaped_scan.eq_def]
    simp only [hne, hc, if_false, Bool.false_eq_true]
    rw [ih fun x hx => ht x (mem_cons_of_mem c hx)]
    simp

theorem escaped_loop_eq (s : List Byte) : ∀ current last_space,
    escaped_loop delim allow_empty current last_space s =
      escaped_scan delim allow_empty current last_space true s := by
  induction hn : s.length using Nat.strong_induction_on generalizing s with
  | _ n ih =>
    subst hn
    intro current last_space
    have hordinary : ∀ c ∈ s.takeWhile (! special delim ·), special delim c = false := fun c hc => by
      simpa using mem_takeWhile_imp hc
    have hsplit := takeWhile_append_dropWhile (p := (! special delim ·)) (l := s)
    rw [escaped_loop]
    split
    · next c rest h =>
      have hlength := length_dropWhile_lt h
      have hspecial : special delim c = true := by
        have := head_dropWhile_not (! special delim ·) (l := s) (by rw [h]; exact cons_ne_nil c rest)
        simpa [h] using this
      rw [h] at hsplit
      conv_rhs => rw [← hsplit, scan_ordinary hordinary]
      by_cases hc : c = 92
      · subst hc
        rw [if_pos rfl, ih _ (by simp; omega) _ rfl, escaped_scan.eq_def _ _ _ _ _ (92 :: rest)]
        cases rest <;> simp
      · rw [if_neg hc, ih _ hlength _ rfl, escaped_scan.eq_def _ _ _ _ _ (c :: rest)]
        simp only [if_neg hc, hspecial, if_true, Bool.true_and]
    · next h =>
      rw [h, append_nil] at hsplit
      rw [hsplit] at hordinary
      have hscan := @scan_ordinary delim allow_empty s hordinary [] current last_space true
      rw [append_nil] at hscan
      rw [hscan, escaped_scan]
      congr 1
      simp [or_comm]

/-! ## Escaped tokens -/

/-- Some characters of a token are escaped by a backslash. -/
def escape_chars (p : Byte → Bool) (token : List Byte) : List Byte := token.flatMap fun c =>
    if p c then [92, c] else [c]

/-- A token with backslashes and delimiters escaped. -/
def escape (delim : Byte) (token : List Byte) : List Byte := escape_chars (fun c => c = 92 || c = delim) token

/-- The tokens joined by the delimiter. -/
def join_escaped (delim : Byte) (tokens : List (List Byte)) : List Byte :=
  [delim].intercalate (tokens.map (escape delim))

/-- The token ends in a character that had to be escaped, or is empty. -/
def ends_escaped (delim : Byte) (token : List Byte) : Bool := token.getLast?.all fun c => c = 92 || c = delim

theorem join_cons (token next : List Byte) (tokens : List (List Byte)) :
    join_escaped delim (token :: next :: tokens) =
    escape delim token ++ delim :: join_escaped delim (next :: tokens) := by
  simp [join_escaped, intercalate]

theorem scan_escape (token rest : List Byte) : ∀ current last_space fresh,
    escaped_scan delim allow_empty current last_space fresh (escape delim token ++ rest) =
      escaped_scan delim allow_empty (current ++ token) last_space
        (if token = [] then fresh else ends_escaped delim token) rest := by
  induction token with
  | nil => simp [escape, escape_chars]
  | cons c token ih =>
    intro current last_space fresh
    have hescape : escape delim (c :: token) =
      (if c = 92 || c = delim then [92, c] else [c]) ++ escape delim token := rfl
    have hends : (if token = [] then decide (c = 92 || c = delim) else ends_escaped delim token) =
        ends_escaped delim (c :: token) := by
      cases token <;> simp [ends_escaped]
    rw [hescape, if_neg (cons_ne_nil c token), ← hends]
    by_cases hc : c = 92 || c = delim
    · rw [if_pos hc]
      rw [append_assoc, cons_append, escaped_scan.eq_def]
      simp only [if_true]
      rw [singleton_append]
      simp only
      rw [ih, hc]
      simp
    · rw [if_neg hc]
      rw [append_assoc, scan_ordinary (t := [c])]
      · rw [ih, Bool.not_eq_true _ |>.mp hc]
        simp
      · simp only [mem_singleton, forall_eq, special]
        grind

/-- The last token is empty and the one before it ends in a character that needs no escape. -/
def EndsPlain (delim : Byte) (tokens : List (List Byte)) : Prop :=
  ∃ front token, tokens = front ++ [token, []] ∧ ends_escaped delim token = false

theorem endsPlain_cons (token next : List Byte) (tokens : List (List Byte)) :
    EndsPlain delim (token :: next :: tokens) ↔
    (tokens = [] ∧ next = [] ∧ ends_escaped delim token = false) ∨ EndsPlain delim (next :: tokens) := by
  constructor
  · rintro ⟨front, last, heq, hlast⟩
    cases front with
    | nil =>
      simp only [nil_append, cons.injEq] at heq
      obtain ⟨rfl, rfl, rfl⟩ := heq
      exact .inl ⟨rfl, rfl, hlast⟩
    | cons x front => exact .inr ⟨front, last, (cons.inj heq).2, hlast⟩
  · rintro (⟨rfl, rfl, hlast⟩ | ⟨front, last, heq, hlast⟩)
    · exact ⟨[], token, rfl, hlast⟩
    · exact ⟨token :: front, last, by rw [heq]; rfl, hlast⟩

theorem not_endsPlain_singleton (token : List Byte) : ¬ EndsPlain delim [token] := by
  rintro ⟨front, last, heq, -⟩
  have := congrArg length heq
  simp at this

theorem scan_joined (hdelim : delim ≠ 92) (hzero : delim ≠ 0) (tokens : List (List Byte)) : ∀ token last_space,
    escaped_scan delim true [] last_space true (join_escaped delim (token :: tokens)) = token :: tokens ↔
      ¬ EndsPlain delim (token :: tokens) ∧ (tokens = [] → token ≠ [] ∨ last_space = true) := by
  induction tokens with
  | nil =>
    intro token last_space
    have hscan := @scan_escape delim true token [] [] last_space true
    rw [append_nil, nil_append] at hscan
    have hjoin : join_escaped delim [token] = escape delim token := by simp [join_escaped, intercalate]
    rw [hjoin, hscan, escaped_scan]
    simp only [not_endsPlain_singleton, not_false_eq_true, true_and]
    cases token <;> simp
  | cons next tokens ih =>
    intro token last_space
    have hspecial : special delim delim = true := by grind [special]
    -- an empty token behind another leaves the flag set, as an escaped character does
    have hfresh : (if token = [] then true else ends_escaped delim token) = ends_escaped delim token := by
      cases token <;> simp [ends_escaped]
    rw [join_cons, scan_escape, escaped_scan.eq_def]
    simp only [if_neg hdelim, hspecial, if_true, Bool.or_true, nil_append, singleton_append, hfresh,
      cons.injEq, true_and]
    rw [ih, endsPlain_cons]
    grind

/-- Where the delimiter is not found there is one token at most. -/
theorem length_scan_le (hspecial : ∀ c, special delim c = true → c = 92) (current : List Byte)
    (last_space fresh : Bool) :
    (escaped_scan delim allow_empty current last_space fresh s).length ≤ 1 := by
  fun_induction escaped_scan delim allow_empty current last_space fresh s with
  | case1 => simp
  | case2 => simp
  | case3 current last_space fresh ih => exact ih
  | case4 current last_space fresh x rest ih => exact ih
  | case5 current last_space fresh c rest hne h => exact absurd (hspecial c h) hne
  | case6 current last_space fresh c rest hne h ih => exact ih

theorem scan_unescaped (hs : (92 : Byte) ∉ s) (hdelim : delim ≠ 0 ∨ (0 : Byte) ∉ s) : ∀ last_space,
    escaped_scan delim allow_empty [] last_space true s = tokenize_loop delim allow_empty last_space s := by
  induction s using delimited_induction delim with
  | last t ht =>
    intro last_space
    have hscan := @scan_ordinary delim allow_empty t (by grind [special]) [] [] last_space true
    rw [append_nil] at hscan
    rw [hscan, tokenize_loop_last ht, escaped_scan, nil_append]
  | cons t s ht ih =>
    intro last_space
    have hne : delim ≠ 92 := by
      rintro rfl
      exact hs (by simp)
    have hspecial : special delim delim = true := by grind [special]
    rw [tokenize_loop_cons s ht, scan_ordinary (by grind [special]), escaped_scan.eq_def]
    simp only [if_neg hne, hspecial, if_true, Bool.true_and, nil_append]
    have hsub : ∀ x, x ∈ s → x ∈ t ++ delim :: s := fun x hx => mem_append_right t (mem_cons_of_mem delim hx)
    rw [ih (fun h => hs (hsub 92 h)) (hdelim.imp_right fun h h' => h (hsub 0 h'))]
    congr 2
    simp [or_comm]

/-- Joining is undone, but for the empty token behind a single delimiter at the end, and for the
    delimiters that `delims` does not hold or takes for an escape. -/
theorem tokens_rejoined_iff (delim : Byte) (s : List Byte) (tokens : List (List Byte)) :
    (s ≠ [] → (Rejoins delim s (tokenize delim s true) ↔ ¬ EndsSingle delim s)) ∧
    tokenize delim s false = (s.splitOn delim).filter (· ≠ []) ∧
    (join_escaped delim tokens ≠ [] → (escaped_tokenize delim (join_escaped delim tokens) true = tokens ↔
      tokens.length = 1 ∨ (delim ≠ 92 ∧ delim ≠ 0 ∧ ¬ EndsPlain delim tokens))) ∧
    ((92 : Byte) ∉ s → ∀ allow_empty, escaped_tokenize delim s allow_empty = tokenize delim s allow_empty ↔
      delim ≠ 0 ∨ (0 : Byte) ∉ s) := by
  refine ⟨tokenize_rejoins_iff, tokenize_nonempty delim s, fun hne => ?_, fun hs allow_empty => ?_⟩
  · rw [escaped_tokenize, escaped_loop_eq]
    match tokens with
    | [] => exact absurd rfl hne
    | [token] =>
      have hscan := @scan_escape delim true token [] [] false true
      rw [append_nil, nil_append] at hscan
      have hjoin : join_escaped delim [token] = escape delim token := by simp [join_escaped, intercalate]
      have htoken : token ≠ [] := by
        rintro rfl
        exact hne hjoin
      rw [hjoin, hscan, escaped_scan]
      simp [htoken]
    | token :: next :: tokens =>
      by_cases hdelim : delim ≠ 92 ∧ delim ≠ 0
      · rw [scan_joined hdelim.1 hdelim.2]
        grind
      · have hle := @length_scan_le delim true (join_escaped delim (token :: next :: tokens))
          (by grind [special]) [] false true
        refine iff_of_false (fun heq => ?_) (by grind)
        rw [heq] at hle
        simp at hle
  · rw [escaped_tokenize, escaped_loop_eq]
    refine ⟨fun h => ?_, fun h => scan_unescaped hs h false⟩
    by_contra hcontra
    rw [not_or, not_not, not_not] at hcontra
    obtain ⟨rfl, hzero⟩ := hcontra
    have hscan := @scan_ordinary 0 allow_empty s (by grind [special]) [] [] false true
    rw [append_nil, escaped_scan, nil_append, if_pos (by simp [ne_nil_of_mem hzero])] at hscan
    rw [hscan] at h
    exact not_mem_tokens false s (h ▸ mem_singleton_self s) hzero

/-- Two commas in a row, an empty token, and a comma at the end. -/
theorem tokens_rejoined_commas : Rejoins 44 [97, 44, 44] (tokenize 44 [97, 44, 44] true) ∧
    escaped_tokenize 44 (join_escaped 44 [[97], [44], []]) true = [[97], [44], []] ∧
    escaped_tokenize 44 [97, 44] true = tokenize 44 [97, 44] true := by
  obtain ⟨hjoin, -, hescaped, hagree⟩ := tokens_rejoined_iff 44 [97, 44, 44] [[97], [44], []]
  obtain ⟨-, -, -, hagree⟩ := tokens_rejoined_iff 44 [97, 44] []
  refine ⟨(hjoin (by simp)).mpr ?_, (hescaped (by decide)).mpr (.inr ⟨by decide, by decide, ?_⟩),
    (hagree (by decide) true).mpr (.inl (by decide))⟩
  · rintro ⟨t, c, heq, hc⟩
    have hreverse := congrArg reverse heq
    simp only [reverse_append, reverse_cons, reverse_nil, nil_append, cons_append,
      cons.injEq] at hreverse
    exact hc hreverse.2.1.symm
  · rintro ⟨front, token, heq, hplain⟩
    have hreverse := congrArg reverse heq
    simp only [reverse_append, reverse_cons, reverse_nil, nil_append, cons_append,
      cons.injEq] at hreverse
    rw [← hreverse.2.1] at hplain
    exact absurd hplain (by decide)

/-- Two tokens, the second of them empty: the first comes back alone. -/
theorem not_tokens_rejoined : tokenize 44 [97, 44] true = [[97]] ∧
    escaped_tokenize 44 (join_escaped 44 [[97], []]) true = [[97]] := by
  have htokenize : tokenize 44 [97, 44] true = [[97]] := by
    rw [tokenize, show [97, 44] = [97] ++ (44 : Byte) :: [] from rfl, tokenize_loop_cons [] (by decide),
      tokenize_loop_last not_mem_nil]
    rfl
  have hjoin : join_escaped 44 [[97], []] = [97, 44] := by decide
  rw [hjoin, escaped_tokenize, escaped_loop_eq]
  exact ⟨htokenize, by decide⟩

end

end VW.Primitives
