import VowpalWabbit.Csv.Split

/-! # Quoting

    The fields of a line are written bare, or enclosed in quotes with their own quotes
    doubled. `split` walks over a written cell in a few runs of its loop: over a bare
    cell at once, over an enclosed one from quote to quote. At the end of the cell it
    hands out the field, with the enclosing quotes still around it.

    Lines are taken as they come out of `trim`.
-/

open Cpp Nat

namespace VW.Parsers.Csv

open List

/-! ## Written cells -/

/-- A field and how it is written. A bare one holds neither separator nor quote. -/
structure Cell (ch : Byte) where
  content : List Byte
  enclosed : Bool
  plain : enclosed = false → ch ∉ content ∧ quote ∉ content

/-- The text with every quote doubled. -/
def escaped (content : List Byte) : List Byte :=
  content.flatMap fun c => if c = quote then [quote, quote] else [c]

/-- Fields with the separator between them. -/
def joined (ch : Byte) : List (List Byte) → List Byte
  | [] => []
  | [t] => t
  | t :: u :: ts => t ++ ch :: joined ch (u :: ts)

namespace Cell

variable {ch : Byte}

/-- The cell as it stands in the line. -/
def written (c : Cell ch) : List Byte :=
  if c.enclosed then quote :: (escaped c.content ++ [quote]) else c.content

/-- The cell as `split` hands it out. -/
def kept (c : Cell ch) : List Byte :=
  if c.enclosed then quote :: (c.content ++ [quote]) else c.content

/-- A cell with a quote in it is an enclosed one. -/
theorem enclosed_of_mem (c : Cell ch) (h : quote ∈ c.content) : c.enclosed = true := by
  cases henclosed : c.enclosed with
  | false => exact absurd h (c.plain henclosed).2
  | true => rfl

theorem remove_quotation_marks_kept (c : Cell ch) : remove_quotation_marks c.kept = c.content := by
  unfold remove_quotation_marks kept
  cases henclosed : c.enclosed with
  | true => simp
  | false =>
    have hnone : c.content[0]? ≠ some quote := fun h =>
      (c.plain henclosed).2 (mem_of_getElem? h)
    simp [hnone]

end Cell

/-- The line of the cells. -/
def line {ch : Byte} (cells : List (Cell ch)) : List Byte := joined ch (cells.map Cell.written)

section Joined

variable {ch : Byte}

@[simp] theorem line_nil : line ([] : List (Cell ch)) = [] := rfl

@[simp] theorem line_singleton (c : Cell ch) : line [c] = c.written := rfl

@[simp] theorem line_cons_cons (c d : Cell ch) (cs : List (Cell ch)) :
    line (c :: d :: cs) = c.written ++ ch :: line (d :: cs) := rfl

theorem line_cons {cs : List (Cell ch)} (c : Cell ch) (h : cs ≠ []) :
    line (c :: cs) = c.written ++ ch :: line cs := by
  cases cs with
  | nil => exact absurd rfl h
  | cons d cs => rfl

end Joined

/-! ## The quotes of a cell -/

@[simp] theorem escaped_nil : escaped [] = [] := rfl

theorem escaped_quote (content : List Byte) :
    escaped (quote :: content) = quote :: quote :: escaped content := by
  simp [escaped]

variable {c : Byte}

theorem escaped_cons (content : List Byte) (h : c ≠ quote) :
    escaped (c :: content) = c :: escaped content := by
  simp [escaped, h]

/-- Where `split` notes a doubled quote, for a content that starts `k` characters after
    the start of the cell. -/
def quotes_at : Nat → List Byte → List Nat
  | _, [] => []
  | k, c :: content =>
    if c = quote then k :: quotes_at (k + 2) content else quotes_at (k + 1) content

variable {content : List Byte}

theorem quotes_at_eq_nil (h : quote ∉ content) : ∀ k, quotes_at k content = [] := by
  induction content with
  | nil => exact fun _ => rfl
  | cons c content ih =>
    intro k
    rw [mem_cons, not_or] at h
    rw [quotes_at, if_neg (Ne.symm h.1), ih h.2]

theorem quotes_at_ne_nil (h : quote ∈ content) : ∀ k, quotes_at k content ≠ [] := by
  induction content with
  | nil => exact absurd h not_mem_nil
  | cons c content ih =>
    intro k
    rw [quotes_at]
    split
    · exact cons_ne_nil _ _
    · rename_i hc
      apply ih
      rcases mem_cons.mp h with h | h
      · exact absurd h.symm hc
      · exact h

/-- The loop of `unescape` over the part of a cell from `pre` on, of which it has copied
    the first `p` characters. -/
theorem foldl_unescape_step {content : List Byte} :
    ∀ {pre : List Byte} {p : Nat} (out : List Byte), p ≤ pre.length →
      ((quotes_at pre.length content ++ [(pre ++ escaped content ++ [quote]).length]).foldl
        (unescape_step (pre ++ escaped content ++ [quote])) (p, out)).2 =
      out ++ pre.drop p ++ content ++ [quote] := by
  induction content with
  | nil =>
    intro pre p out hp
    have hpos : 0 < (pre ++ [quote]).length - p := by
      rw [length_append, length_singleton]
      omega
    have hdrop : (pre ++ [quote]).drop p = pre.drop p ++ [quote] := by
      rw [drop_append_of_le_length hp]
    have htake : ((pre ++ [quote]).drop p).take ((pre ++ [quote]).length - p) =
        pre.drop p ++ [quote] := by
      rw [take_of_length_le (by rw [length_drop]), hdrop]
    have hlt : p < (pre ++ [quote]).length := by omega
    simp only [quotes_at, escaped_nil, append_nil, nil_append, foldl_cons,
      foldl_nil, unescape_step]
    rw [if_pos ⟨hpos, hlt⟩, htake, append_assoc]
  | cons c content ih =>
    intro pre p out hp
    by_cases hc : c = quote
    · -- the text up to the first of the two quotes is copied, which is then skipped
      subst hc
      have hassoc : pre ++ escaped (quote :: content) ++ [quote] =
          (pre ++ [quote, quote]) ++ escaped content ++ [quote] := by
        rw [escaped_quote]
        simp
      have hlen : (pre ++ [quote, quote]).length = pre.length + 2 := by simp
      have hstep : unescape_step ((pre ++ [quote, quote]) ++ escaped content ++ [quote]) (p, out)
          pre.length = (pre.length + 1, out ++ pre.drop p) := by
        unfold unescape_step
        by_cases hpos : 0 < pre.length - p
        · dsimp only
          rw [if_pos ⟨hpos, by simp; omega⟩]
          congr 2
          rw [append_assoc, append_assoc, drop_append_of_le_length hp,
            take_append_of_le_length (by rw [length_drop]),
            take_of_length_le (by rw [length_drop])]
        · dsimp only
          rw [if_neg (fun h => hpos h.1), drop_eq_nil_of_le (by omega), append_nil]
      have hnext := @ih (pre ++ [quote, quote]) (pre.length + 1) (out ++ pre.drop p)
        (by rw [hlen]; omega)
      have hdrop : (pre ++ [quote, quote]).drop (pre.length + 1) = [quote] := by
        rw [← drop_drop, drop_left]
        rfl
      rw [hassoc, quotes_at, if_pos rfl, cons_append, foldl_cons, hstep, ← hlen, hnext,
        hdrop]
      simp
    · -- any other character waits for the next copy
      have hassoc : pre ++ escaped (c :: content) ++ [quote] =
          (pre ++ [c]) ++ escaped content ++ [quote] := by
        rw [escaped_cons content hc]
        simp
      have hlen : (pre ++ [c]).length = pre.length + 1 := by simp
      have hnext := @ih (pre ++ [c]) p out (by rw [hlen]; omega)
      rw [hassoc, quotes_at, if_neg hc, ← hlen, hnext, drop_append_of_le_length hp]
      simp

/-- Each doubled quote becomes one. -/
theorem unescape_written (content : List Byte) :
    unescape (quote :: (escaped content ++ [quote])) (quotes_at 1 content) =
      quote :: (content ++ [quote]) := by
  have h := @foldl_unescape_step content [quote] 0 [] (zero_le _)
  simpa [unescape] using h

/-! ## Runs of the loop -/

section Runs

variable {lib : StdLibrary} {line_num : Nat} {sv : List Byte} {ch : Byte}

/-- Some rounds of the loop lead from one state to another. -/
def Leads (lib : StdLibrary) (line_num : Nat) (sv : List Byte) (ch : Byte)
    (s s' : SplitState) : Prop :=
  ∃ n, s.i + n ≤ s'.i ∧ ∀ rounds,
    split_loop lib line_num sv ch true (n + rounds) s =
      split_loop lib line_num sv ch true rounds s'

theorem Leads.refl (s : SplitState) : Leads lib line_num sv ch s s :=
  ⟨0, le_refl _, fun rounds => by rw [zero_add]⟩

variable {s : SplitState}

theorem Leads.trans {s' s'' : SplitState} (h : Leads lib line_num sv ch s s')
    (h' : Leads lib line_num sv ch s' s'') : Leads lib line_num sv ch s s'' := by
  obtain ⟨n, hn, hrun⟩ := h
  obtain ⟨m, hm, hrun'⟩ := h'
  refine ⟨n + m, by omega, fun rounds => ?_⟩
  rw [add_assoc, hrun, hrun']

theorem Leads.step {s s' : SplitState} (hi : s.i ≤ sv.length) (hlt : s.i < s'.i)
    (h : split_step lib line_num sv ch true s = .ok s') : Leads lib line_num sv ch s s' := by
  refine ⟨1, hlt, fun rounds => ?_⟩
  rw [add_comm, split_loop, if_pos hi, h, Outcome.ok_bind]

/-- A run that leads past the end of the line is what the loop returns. -/
theorem Leads.result {s' : SplitState} (h : Leads lib line_num sv ch s s') (hs : s.i = 0)
    (hend : s'.i = sv.length + 1) :
    split_loop lib line_num sv ch true (sv.length + 1) s = .ok s' := by
  obtain ⟨n, hn, hrun⟩ := h
  have hle : n + (sv.length + 1 - n) = sv.length + 1 := by omega
  rw [← hle, hrun]
  cases sv.length + 1 - n with
  | zero => rfl
  | succ rounds => rw [split_loop, if_neg (by omega)]

variable {done rest : List Byte}

/-- What the loop sees at the position after `done`. -/
theorem getElem?_after (hsv : sv = done ++ rest) (k : Nat) : sv[done.length + k]? = rest[k]? := by
  rw [hsv, getElem?_append_right (Nat.le_add_right _ _), Nat.add_sub_cancel_left]

/-! ### Single rounds -/

/-- A character of a bare cell. -/
theorem leads_bare (hsv : sv = done ++ c :: rest) (hi : s.i = done.length)
    (houtside : s.inside_quotes = false) (hch : c ≠ ch) (hquote : c ≠ quote) :
    Leads lib line_num sv ch s { s with i := s.i + 1 } := by
  have hlen : sv.length = done.length + (rest.length + 1) := by rw [hsv]; simp
  have hc : sv[s.i]? = some c := by rw [hi]; exact getElem?_after hsv 0
  apply Leads.step (by omega) (lt_succ_self _)
  have hend : s.i ≠ sv.length := by omega
  simp [split_step, hend, houtside, hc, hch, hquote]

/-- The opening quote of an enclosed cell. -/
theorem leads_open (hsv : sv = done ++ quote :: rest) (hi : s.i = done.length)
    (hpointer : s.pointer = s.i) (houtside : s.inside_quotes = false) :
    Leads lib line_num sv ch s { s with inside_quotes := true, i := s.i + 1 } := by
  have hlen : sv.length = done.length + (rest.length + 1) := by rw [hsv]; simp
  have hc : sv[s.i]? = some quote := by rw [hi]; exact getElem?_after hsv 0
  apply Leads.step (by omega) (lt_succ_self _)
  have hend : s.i ≠ sv.length := by omega
  have hlt : s.i < sv.length := by omega
  unfold split_step
  rw [if_neg (fun h => hend h.1), if_pos ⟨rfl, by simp [houtside], hpointer.symm, hlt, hc⟩]

/-- A character between the enclosing quotes. -/
theorem leads_inside (hsv : sv = done ++ c :: rest) (hi : s.i = done.length)
    (hinside : s.inside_quotes = true) (hquote : c ≠ quote) :
    Leads lib line_num sv ch s { s with i := s.i + 1 } := by
  have hlen : sv.length = done.length + (rest.length + 1) := by rw [hsv]; simp
  have hc : sv[s.i]? = some c := by rw [hi]; exact getElem?_after hsv 0
  apply Leads.step (by omega) (lt_succ_self _)
  have hend : s.i ≠ sv.length := by omega
  simp [split_step, hend, hinside, hc, hquote]

theorem leads_doubled (hsv : sv = done ++ quote :: quote :: rest) (hi : s.i = done.length)
    (hinside : s.inside_quotes = true) :
    Leads lib line_num sv ch s { s with
      unquoted_quotes_index := s.unquoted_quotes_index ++ [s.i - s.pointer], i := s.i + 1 + 1 } := by
  have hlen : sv.length = done.length + (rest.length + 1 + 1) := by rw [hsv]; simp
  have hc : sv[s.i]? = some quote := by rw [hi]; exact getElem?_after hsv 0
  have hnext : sv[s.i + 1]? = some quote := by rw [hi]; exact getElem?_after hsv 1
  apply Leads.step (by omega) (by dsimp only; omega)
  have hend : s.i ≠ sv.length := by omega
  have hlt : s.i < sv.length - 1 := by omega
  simp [split_step, hend, hinside, hc, hnext, hlt]

/-- The closing quote, in front of a separator or at the end of the line. -/
theorem leads_close {s : SplitState} {done rest : List Byte} (hsv : sv = done ++ quote :: rest)
    (hi : s.i = done.length) (hinside : s.inside_quotes = true) (hch : ch ≠ quote)
    (hrest : rest = [] ∨ rest.head? = some ch) :
    Leads lib line_num sv ch s { s with inside_quotes := false, i := s.i + 1 } := by
  have hlen : sv.length = done.length + (rest.length + 1) := by rw [hsv]; simp
  have hc : sv[s.i]? = some quote := by rw [hi]; exact getElem?_after hsv 0
  have hnext : sv[s.i + 1]? = rest.head? := by
    rw [hi, head?_eq_getElem?]
    exact getElem?_after hsv 1
  apply Leads.step (by omega) (lt_succ_self _)
  have hend : s.i ≠ sv.length := by omega
  rcases hrest with hrest | hrest
  · -- the last character of the line
    have hlast : s.i = sv.length - 1 := by rw [hrest] at hlen; simp at hlen; omega
    simp only [split_step, hend, hinside, hc, ← hlast]
    simp
  · have hlt : s.i < sv.length - 1 := by
      cases rest with
      | nil => cases hrest
      | cons d rest => simp at hlen; omega
    rw [hrest] at hnext
    simp [split_step, hend, hinside, hc, hnext, hlt, Ne.symm hch]

/-! ### A cell -/

/-- The content of an enclosed cell with its closing quote. -/
theorem leads_enclosed {content : List Byte} (hch : ch ≠ quote) :
    ∀ {s : SplitState} {done rest : List Byte}, sv = done ++ (escaped content ++ quote :: rest) →
      s.i = done.length → s.pointer ≤ s.i → s.inside_quotes = true →
      rest = [] ∨ rest.head? = some ch →
      Leads lib line_num sv ch s { s with
        inside_quotes := false
        unquoted_quotes_index :=
          s.unquoted_quotes_index ++ quotes_at (s.i - s.pointer) content
        i := s.i + (escaped content).length + 1 } := by
  induction content with
  | nil =>
    intro s done rest hsv hi _ hinside hrest
    have h := @leads_close lib line_num sv ch s done rest hsv hi hinside hch hrest
    simpa [quotes_at] using h
  | cons c content ih =>
    intro s done rest hsv hi hpointer hinside hrest
    by_cases hc : c = quote
    · subst hc
      rw [escaped_quote] at hsv ⊢
      apply Leads.trans (leads_doubled hsv hi hinside)
      have hnext := @ih { s with
          unquoted_quotes_index := s.unquoted_quotes_index ++ [s.i - s.pointer], i := s.i + 1 + 1 }
        (done ++ [quote, quote]) rest (by rw [hsv]; simp) (by simp [hi]) (by dsimp only; omega)
        hinside hrest
      have hsub : s.i + 1 + 1 - s.pointer = s.i - s.pointer + 2 := by omega
      have hadd : s.i + 1 + 1 + (escaped content).length + 1 =
          s.i + ((escaped content).length + 1 + 1) + 1 := by omega
      simpa [quotes_at, hsub, hadd] using hnext
    · rw [escaped_cons content hc] at hsv ⊢
      apply Leads.trans (leads_inside hsv hi hinside hc)
      have hnext := @ih { s with i := s.i + 1 } (done ++ [c]) rest (by rw [hsv]; simp)
        (by simp [hi]) (by dsimp only; omega) hinside hrest
      have hsub : s.i + 1 - s.pointer = s.i - s.pointer + 1 := by omega
      have hadd : s.i + 1 + (escaped content).length + 1 =
          s.i + ((escaped content).length + 1) + 1 := by omega
      simpa [quotes_at, hc, hsub, hadd] using hnext

/-- The content of a bare cell. -/
theorem leads_plain :
    ∀ {s : SplitState} {done rest : List Byte}, sv = done ++ (content ++ rest) →
      s.i = done.length → s.inside_quotes = false → ch ∉ content → quote ∉ content →
      Leads lib line_num sv ch s { s with i := s.i + content.length } := by
  induction content with
  | nil => exact fun _ _ _ _ _ => Leads.refl _
  | cons c content ih =>
    intro s done rest hsv hi houtside hch hquote
    rw [mem_cons, not_or] at hch hquote
    apply Leads.trans (leads_bare hsv hi houtside (Ne.symm hch.1) (Ne.symm hquote.1))
    have hnext := @ih { s with i := s.i + 1 } (done ++ [c]) rest (by rw [hsv]; simp)
      (by simp [hi]) houtside hch.2 hquote.2
    have hadd : s.i + 1 + content.length = s.i + (content.length + 1) := by omega
    simpa [hadd] using hnext

/-- At the start of a cell. At the end of a line that ends with a separator the pointer
    has stayed behind. -/
structure Starts (sv : List Byte) (ch : Byte) (s : SplitState) (done : List Byte) : Prop where
  i : s.i = done.length
  pointer : s.pointer = s.i ∨ (s.i = sv.length ∧ sv[s.i - 1]? = some ch)
  outside : s.inside_quotes = false
  no_quotes : s.unquoted_quotes_index = []

/-- Over a cell up to the character that ends it. -/
theorem Starts.leads_over {s : SplitState} {done rest : List Byte} {c : Cell ch}
    (h : Starts sv ch s done) (hsv : sv = done ++ (c.written ++ rest)) (hch : ch ≠ quote)
    (hrest : rest = [] ∨ rest.head? = some ch) :
    Leads lib line_num sv ch s { s with
      unquoted_quotes_index := quotes_at 1 c.content, i := s.i + c.written.length } := by
  obtain ⟨i, pointer, inside_quotes, indices, collections, storage⟩ := s
  obtain ⟨hi, hpointer, houtside, hindices⟩ := h
  dsimp only at hi hpointer houtside hindices
  subst houtside hindices
  cases henclosed : c.enclosed with
  | false =>
    obtain ⟨hsep, hquote⟩ := c.plain henclosed
    have hwritten : c.written = c.content := by rw [Cell.written, henclosed]; rfl
    rw [hwritten] at hsv ⊢
    rw [quotes_at_eq_nil hquote]
    exact leads_plain hsv hi rfl hsep hquote
  | true =>
    have hwritten : c.written = quote :: (escaped c.content ++ [quote]) := by
      rw [Cell.written, henclosed]; rfl
    have hsv' : sv = done ++ quote :: (escaped c.content ++ quote :: rest) := by
      rw [hsv, hwritten]
      simp
    -- an enclosed cell is not empty, so the pointer stands at its start
    have hpointer' : pointer = i := by
      rcases hpointer with hpointer | ⟨hend, -⟩
      · exact hpointer
      · rw [hsv'] at hend
        simp at hend
        omega
    subst hpointer'
    apply Leads.trans (leads_open hsv' hi rfl rfl)
    have hnext := @leads_enclosed lib line_num sv ch c.content hch
      ⟨pointer + 1, pointer, true, [], collections, storage⟩ (done ++ [quote]) rest
      (by rw [hsv']; simp) (by simp [hi]) (le_succ _) rfl hrest
    have hadd : pointer + 1 + (escaped c.content).length + 1 = pointer + c.written.length := by
      rw [hwritten]
      simp
      omega
    have hsub : pointer + 1 - pointer = 1 := Nat.add_sub_cancel_left pointer 1
    rw [hadd, hsub] at hnext
    exact hnext

end Runs

end VW.Parsers.Csv
