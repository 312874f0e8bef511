import VowpalWabbit.Csv.Quoting

/-! # Splitting undoes quoting

    `split` hands out the fields of a line in order. The field of a cell without quotes
    is read from the line, that of a cell with quotes from the storage, and as long as
    no view of the storage is lost, the fields read back are those that were written.

    What `trim` takes off a line comes from bare fields at its ends. The line that is left
    is again one of written cells, with less in them.
-/

open Cpp

namespace VW.Parsers.Csv

open List Outcome Cell TokenStorage

variable {lib : StdLibrary} {line_num : Nat} {ch : Byte}

/-! ## What is handed out -/

/-- The view of a cell, and the storage after it. -/
def hand_out (lib : StdLibrary) (t : TokenStorage) (c : Cell ch) : View × TokenStorage :=
  if quote ∈ c.content then
    let t := t.emplace_back lib c.kept
    (t.back, t)
  else (.of_line c.kept, t)

/-- The views of the cells of a line, and the storage after them. -/
def hand_out_all (lib : StdLibrary) : TokenStorage → List (Cell ch) → List View × TokenStorage
  | t, [] => ([], t)
  | t, c :: cs =>
    let (view, t) := hand_out lib t c
    let (views, t) := hand_out_all lib t cs
    (view :: views, t)

theorem escaped_eq_self {content : List Byte} (h : quote ∉ content) : escaped content = content := by
  induction content with
  | nil => rfl
  | cons c content ih =>
    rw [mem_cons, not_or] at h
    rw [escaped_cons content (Ne.symm h.1), ih h.2]

theorem written_eq_kept {c : Cell ch} (h : quote ∉ c.content) : c.written = c.kept := by
  rw [written, kept, escaped_eq_self h]

/-- The unescaped element of a cell is stored only where it had a quote to unescape. -/
theorem store_element_written (c : Cell ch) {s : SplitState}
    (hs : s.unquoted_quotes_index = quotes_at 1 c.content) :
    store_element lib c.written s = hand_out lib s.storage c := by
  unfold store_element hand_out
  rw [hs]
  by_cases h : quote ∈ c.content
  · have hwritten : c.written = quote :: (escaped c.content ++ [quote]) := by
      rw [written, if_pos (c.enclosed_of_mem h)]
    have hkept : c.kept = quote :: (c.content ++ [quote]) := by
      rw [kept, if_pos (c.enclosed_of_mem h)]
    rw [if_neg (quotes_at_ne_nil h 1), if_pos h, hwritten, hkept, unescape_written]
  · rw [if_pos (quotes_at_eq_nil h 1), if_neg h, written_eq_kept h]

/-! ## Over the cells of a line -/

variable {cs : List (Cell ch)}

section Line

variable {sv : List Byte} {s : SplitState} {done rest : List Byte} {c : Cell ch}

/-- The end of a written cell is not a separator. -/
theorem getLast?_written_ne (hch : ch ≠ quote) : c.written.getLast? ≠ some ch := by
  unfold written
  cases henclosed : c.enclosed with
  | false =>
    intro h
    exact (c.plain henclosed).1 (mem_of_getLast? h)
  | true =>
    intro h
    simp only [↓reduceIte, ← cons_append, getLast?_concat, Option.some.injEq] at h
    exact hch h.symm

/-- The element that ends where the cell does is the cell. -/
theorem Starts.split_element_eq (h : Starts sv ch s done) (hsv : sv = done ++ (c.written ++ rest))
    (hch : ch ≠ quote) (indices : List Nat) :
    split_element sv ch { s with
      unquoted_quotes_index := indices, i := s.i + c.written.length } = c.written := by
  have hlen : sv.length = done.length + (c.written.length + rest.length) := by rw [hsv]; simp
  unfold split_element
  by_cases hempty : c.written = []
  · rw [hempty, length_nil, Nat.add_zero]
    split
    · rfl
    · rename_i hnot
      rcases h.pointer with hpointer | hend
      · rw [hpointer, Nat.sub_self, take_zero]
      · exact absurd hend hnot
  · have hpos : 0 < c.written.length := length_pos_iff.mpr hempty
    have hi := h.i
    have hpointer : s.pointer = done.length := by
      rcases h.pointer with hpointer | ⟨hend, -⟩
      · rw [hpointer, hi]
      · omega
    have hlast : sv[s.i + c.written.length - 1]? = c.written.getLast? := by
      have hadd : s.i + c.written.length - 1 = done.length + (c.written.length - 1) := by omega
      rw [hadd, getElem?_after hsv, getLast?_eq_getElem?,
        getElem?_append_left (Nat.sub_lt hpos Nat.one_pos)]
    rw [if_neg (by rw [hlast]; exact fun hnot => getLast?_written_ne hch hnot.2), hpointer, hi,
      Nat.add_sub_cancel_left, hsv, drop_left, take_left]

/-- Over a cell and past the character that ends it. -/
theorem Starts.leads_past (h : Starts sv ch s done) (hsv : sv = done ++ (c.written ++ rest))
    (hch : ch ≠ quote) (hrest : rest = [] ∨ rest.head? = some ch) :
    ∃ pointer, Leads lib line_num sv ch s {
        i := s.i + c.written.length + 1, pointer := pointer
        collections := s.collections ++ [(hand_out lib s.storage c).1]
        storage := (hand_out lib s.storage c).2 } ∧
      (rest ≠ [] → pointer = s.i + c.written.length + 1 ∨
        (s.i + c.written.length + 1 = sv.length ∧ sv[s.i + c.written.length]? = some ch)) := by
  have hlen : sv.length = done.length + (c.written.length + rest.length) := by rw [hsv]; simp
  have hi := h.i
  have hover := @Starts.leads_over lib line_num _ _ _ _ _ _ h hsv hch hrest
  have hnext : sv[s.i + c.written.length]? = rest.head? := by
    rw [hi, getElem?_after hsv, getElem?_append_right (Nat.le_refl _), Nat.sub_self,
      head?_eq_getElem?]
  have hends : s.i + c.written.length = sv.length ∨ sv[s.i + c.written.length]? = some ch := by
    rcases hrest with hrest | hrest
    · left
      rw [hlen, hi, hrest, length_nil, Nat.add_zero]
    · right
      rw [hnext, hrest]
  refine ⟨if s.i + c.written.length < sv.length - 1 then s.i + c.written.length + 1 else s.pointer,
    hover.trans ?_, ?_⟩
  · apply Leads.step (by dsimp only; omega) (Nat.lt_succ_self _)
    have helement := h.split_element_eq hsv hch (quotes_at 1 c.content)
    rw [h.outside] at helement
    unfold split_step
    simp only [h.outside, Bool.false_eq_true, not_false_eq_true, and_false, false_and, true_and,
      if_false]
    have hnot_open : ¬ (s.i + c.written.length = s.pointer ∧ s.i + c.written.length < sv.length ∧
        sv[s.i + c.written.length]? = some quote) := by
      intro hopen
      rcases hends with hends | hends
      · exact absurd hopen.2.1 (by rw [hends]; exact Nat.lt_irrefl _)
      · rw [hends] at hopen
        exact hch (Option.some.inj hopen.2.2)
    rw [if_neg hnot_open, if_pos hends, helement, store_element_written c rfl]
  · intro hne
    have hsep : sv[s.i + c.written.length]? = some ch := by
      rcases hrest with hrest | hrest
      · exact absurd hrest hne
      · rw [hnext, hrest]
    split
    · exact Or.inl rfl
    · right
      refine ⟨?_, hsep⟩
      have hpos : 0 < rest.length := length_pos_iff.mpr hne
      omega

/-- Over all cells that are left. -/
theorem Starts.leads_to_end (hch : ch ≠ quote) {cs : List (Cell ch)} :
    ∀ {s : SplitState} {done : List Byte}, cs ≠ [] → Starts sv ch s done →
      sv = done ++ line cs → ∃ pointer, Leads lib line_num sv ch s {
        i := sv.length + 1, pointer := pointer
        collections := s.collections ++ (hand_out_all lib s.storage cs).1
        storage := (hand_out_all lib s.storage cs).2 } := by
  induction cs with
  | nil => exact fun hne => absurd rfl hne
  | cons c cs ih =>
    intro s done _ h hsv
    by_cases hlast : cs = []
    · subst hlast
      have hsv' : sv = done ++ (c.written ++ []) := by rw [hsv, append_nil]; rfl
      obtain ⟨pointer, hpast, -⟩ := @Starts.leads_past lib line_num _ _ _ _ _ _ h hsv' hch
        (Or.inl rfl)
      have hend : s.i + c.written.length = sv.length := by rw [hsv', h.i]; simp
      rw [hend] at hpast
      exact ⟨pointer, hpast⟩
    · rw [line_cons c hlast] at hsv
      obtain ⟨pointer, hpast, hpointer⟩ := @Starts.leads_past lib line_num _ _ _ _ _ _ h hsv hch
        (Or.inr rfl)
      have hsv' : sv = (done ++ c.written ++ [ch]) ++ line cs := by rw [hsv]; simp
      have hstarts : Starts sv ch {
          i := s.i + c.written.length + 1, pointer := pointer
          collections := s.collections ++ [(hand_out lib s.storage c).1]
          storage := (hand_out lib s.storage c).2 } (done ++ c.written ++ [ch]) := by
        constructor
        · simp only [h.i, length_append, length_singleton]
        · exact hpointer (cons_ne_nil _ _)
        · rfl
        · rfl
      obtain ⟨pointer', hrun⟩ := ih hlast hstarts hsv'
      refine ⟨pointer', hpast.trans ?_⟩
      rw [append_assoc, singleton_append] at hrun
      exact hrun

/-- A line that `trim` leaves as it is comes apart into its cells. -/
theorem split_line (hch : ch ≠ quote) (hcs : cs ≠ []) (htrim : trim (line cs) = line cs)
    (hline : line cs ≠ []) (t : TokenStorage) :
    split lib line_num t (line cs) ch true = .ok (hand_out_all lib t cs) := by
  have hstarts : Starts (line cs) ch { storage := t } [] := ⟨rfl, Or.inl rfl, rfl, rfl⟩
  obtain ⟨pointer, hrun⟩ :=
    @Starts.leads_to_end lib line_num _ _ hch _ _ _ hcs hstarts rfl
  unfold split
  rw [htrim, if_neg hline, hrun.result rfl rfl, ok_bind]
  rfl

end Line

/-! ## Reading the fields back -/

/-- The copies that the cells of a line leave in the storage. -/
def tokens (cs : List (Cell ch)) : List (List Byte) :=
  (cs.filter (quote ∈ ·.content)).map kept

/-- The storage after some copies. -/
def TokenStorage.store_all (lib : StdLibrary) (ts : List (List Byte)) : TokenStorage :=
  ts.foldl (emplace_back lib) {}

/-- No view is lost: the array of the storage is not replaced any more once a short copy
    is in it. -/
def Settled (lib : StdLibrary) (ts : List (List Byte)) : Prop :=
  ∀ k (h : k < ts.length), lib.local_capacity < ts[k].length ∨
    (store_all lib (ts.take (k + 1))).moves = (store_all lib ts).moves

@[simp] theorem tokens_nil : tokens ([] : List (Cell ch)) = [] := rfl

theorem tokens_cons (c : Cell ch) (cs : List (Cell ch)) :
    tokens (c :: cs) = if quote ∈ c.content then c.kept :: tokens cs else tokens cs := by
  unfold tokens
  by_cases h : quote ∈ c.content
  · simp [h]
  · simp [h]

theorem TokenStorage.store_all_concat (ts : List (List Byte)) (t : List Byte) :
    store_all lib (ts ++ [t]) = (store_all lib ts).emplace_back lib t := by
  rw [store_all, store_all, foldl_append]
  rfl

theorem TokenStorage.strings_store_all (ts : List (List Byte)) :
    (store_all lib ts).strings = ts := by
  induction ts using reverseRecOn with
  | nil => rfl
  | append_singleton ts t ih => rw [store_all_concat, strings_emplace_back, ih]

variable {ts : List (List Byte)}

/-- A line with at most one copied cell loses no view. -/
theorem settled_of_length_le_one (h : ts.length ≤ 1) : Settled lib ts := by
  intro k hk
  right
  rw [take_of_length_le (by omega)]

/-- The view of a copy is good for as long as the storage is settled. -/
theorem read_back {rest : List (List Byte)} {t : List Byte} (h : Settled lib (ts ++ t :: rest)) :
    (store_all lib (ts ++ [t])).back.read lib
      (store_all lib (ts ++ t :: rest)) = .ok t := by
  have hk : ts.length < (ts ++ t :: rest).length := by simp
  have hgood := h ts.length hk
  have htake : (ts ++ t :: rest).take (ts.length + 1) = ts ++ [t] := by
    rw [take_append, take_of_length_le (Nat.le_succ _), Nat.add_sub_cancel_left]
    rfl
  rw [htake, getElem_append_right (Nat.le_refl _)] at hgood
  simp only [Nat.sub_self, getElem_cons_zero] at hgood
  unfold back View.read
  rw [strings_store_all, strings_store_all, length_append,
    length_singleton, Nat.add_sub_cancel]
  dsimp only
  rw [getElem?_append_right (Nat.le_refl _), Nat.sub_self]
  exact if_pos hgood

/-- The views of the cells that follow the copies `ts`. -/
theorem mapM_read_hand_out_all {cs : List (Cell ch)} :
    ∀ {ts : List (List Byte)}, Settled lib (ts ++ tokens cs) →
      (hand_out_all lib (store_all lib ts) cs).1.mapM
        (View.read lib (store_all lib (ts ++ tokens cs))) =
          .ok (cs.map kept) ∧
      (hand_out_all lib (store_all lib ts) cs).2 =
        store_all lib (ts ++ tokens cs) := by
  induction cs with
  | nil =>
    intro ts _
    rw [tokens_nil, append_nil]
    exact ⟨rfl, rfl⟩
  | cons c cs ih =>
    intro ts hsettled
    rw [tokens_cons] at hsettled ⊢
    by_cases h : quote ∈ c.content
    · -- the copy of the cell is one more in the storage
      rw [if_pos h] at hsettled ⊢
      have hview := read_back hsettled
      have happend : ts ++ c.kept :: tokens cs = (ts ++ [c.kept]) ++ tokens cs := by simp
      rw [happend] at hsettled hview ⊢
      obtain ⟨hviews, hstorage⟩ := ih hsettled
      rw [hand_out_all, hand_out, if_pos h, ← store_all_concat]
      refine ⟨?_, hstorage⟩
      rw [mapM_cons, hview, ok_bind, hviews, ok_bind]
      rfl
    · rw [if_neg h] at hsettled ⊢
      obtain ⟨hviews, hstorage⟩ := ih hsettled
      rw [hand_out_all, hand_out, if_neg h]
      refine ⟨?_, hstorage⟩
      rw [mapM_cons, View.read, ok_bind, hviews, ok_bind]
      rfl

/-- The fields of a line: its cells, without the quotation marks around them. -/
def read_fields (lib : StdLibrary) (line_num : Nat) (separator : Byte) (csv_line : List Byte) :
    Outcome (List (List Byte)) := do
  let (views, storage) ← split lib line_num {} csv_line separator true
  let cells ← views.mapM (View.read lib storage)
  .ok (cells.map remove_quotation_marks)

/-- The cells of a line are read back as they were written. -/
theorem read_fields_line (hch : ch ≠ quote) (hcs : cs ≠ []) (htrim : trim (line cs) = line cs)
    (hsettled : Settled lib (tokens cs)) :
    read_fields lib line_num ch (line cs) = .ok (cs.map content) := by
  have hcontents : (cs.map kept).map remove_quotation_marks = cs.map content := by
    rw [map_map]
    apply map_congr_left
    exact fun c _ => c.remove_quotation_marks_kept
  unfold read_fields
  by_cases hline : line cs = []
  · -- the line of one empty field
    have hone : cs.map content = [[]] := by
      cases cs with
      | nil => exact absurd rfl hcs
      | cons c cs =>
        cases cs with
        | cons d cs => rw [line_cons_cons] at hline; simp at hline
        | nil =>
          rw [line_singleton, written] at hline
          split at hline
          · exact absurd hline (cons_ne_nil _ _)
          · rw [map_singleton, hline]
    rw [split, htrim, if_pos hline, ok_bind, hone]
    rfl
  · have h := @mapM_read_hand_out_all lib ch cs [] hsettled
    rw [nil_append] at h
    have hempty : store_all lib [] = {} := rfl
    rw [hempty] at h
    rw [split_line hch hcs htrim hline, ok_bind]
    dsimp only
    rw [h.2, h.1, ok_bind, hcontents]

/-! ## What is trimmed -/

/-- A measure of cells: a separator or a character less is one less. -/
def weight (cs : List (Cell ch)) : Nat := (cs.map fun c => c.content.length + 1).sum

/-- The cells `cs'` come from `cs` by leaving out `n` characters of bare fields or
    separators. -/
structure Trimmed (cs cs' : List (Cell ch)) (n : Nat) : Prop where
  nonempty : cs' ≠ []
  tokens : tokens cs' = tokens cs
  weight : weight cs' + n = weight cs

theorem Trimmed.refl (h : cs ≠ []) : Trimmed cs cs 0 := ⟨h, rfl, rfl⟩

theorem Trimmed.trans {cs' cs'' : List (Cell ch)} {m n : Nat} (h : Trimmed cs cs' m)
    (h' : Trimmed cs' cs'' n) : Trimmed cs cs'' (n + m) :=
  ⟨h'.nonempty, h'.tokens.trans h.tokens, by rw [← Nat.add_assoc, h'.weight, h.weight]⟩

theorem quote_not_mem_trim_list : quote ∉ trim_list := by decide

/-- A bare cell with another content. -/
def Cell.bare (content : List Byte) (hch : ch ∉ content) (hquote : quote ∉ content) : Cell ch :=
  ⟨content, false, fun _ => ⟨hch, hquote⟩⟩

@[simp] theorem Cell.content_bare (content : List Byte) (hch : ch ∉ content)
    (hquote : quote ∉ content) : (bare content hch hquote).content = content := rfl

@[simp] theorem Cell.written_bare (content : List Byte) (hch : ch ∉ content)
    (hquote : quote ∉ content) : (bare content hch hquote).written = content := rfl

theorem weight_cons (c : Cell ch) (cs : List (Cell ch)) :
    weight (c :: cs) = c.content.length + 1 + weight cs := by
  rw [weight, map_cons, sum_cons]
  rfl

variable {b : Byte}

/-- A line without its first character. -/
theorem trimmed_first {rest : List Byte} (h : line cs = b :: rest) (hb : b ≠ quote) :
    ∃ cs', line cs' = rest ∧ Trimmed cs cs' 1 := by
  cases cs with
  | nil => cases h
  | cons c cs =>
    have henclosed : c.enclosed = false := by
      cases henclosed : c.enclosed with
      | false => rfl
      | true =>
        exfalso
        apply hb
        cases cs with
        | nil =>
          rw [line_singleton, written, if_pos henclosed] at h
          exact (cons.inj h).1.symm
        | cons d cs =>
          rw [line_cons_cons, written, if_pos henclosed] at h
          exact (cons.inj h).1.symm
    obtain ⟨hch, hquote⟩ := c.plain henclosed
    have hwritten : c.written = c.content := by rw [written, henclosed]; rfl
    cases hcontent : c.content with
    | nil =>
      -- the separator after an empty field
      rw [hcontent] at hwritten hquote
      cases cs with
      | nil => rw [line_singleton, hwritten] at h; cases h
      | cons d cs =>
        rw [line_cons_cons, hwritten, nil_append] at h
        refine ⟨d :: cs, (cons.inj h).2, cons_ne_nil _ _, ?_, ?_⟩
        · rw [tokens_cons c, hcontent, if_neg hquote]
        · rw [weight_cons c, hcontent, length_nil]
          omega
    | cons a content =>
      rw [hcontent] at hwritten hch hquote
      rw [mem_cons, not_or] at hch hquote
      have hold : ¬ quote ∈ c.content := by
        rw [hcontent, mem_cons, not_or]
        exact hquote
      refine ⟨bare content hch.2 hquote.2 :: cs, ?_, cons_ne_nil _ _, ?_, ?_⟩
      · cases cs with
        | nil =>
          rw [line_singleton, hwritten] at h
          exact (cons.inj h).2
        | cons d cs =>
          rw [line_cons_cons, hwritten, cons_append] at h
          exact (cons.inj h).2
      · rw [tokens_cons, tokens_cons, if_neg hold, content_bare, if_neg hquote.2]
      · rw [weight_cons, weight_cons, hcontent, content_bare, length_cons]
        omega

theorem line_concat (c : Cell ch) (h : cs ≠ []) :
    line (cs ++ [c]) = line cs ++ ch :: c.written := by
  induction cs with
  | nil => exact absurd rfl h
  | cons d cs ih =>
    cases cs with
    | nil => rfl
    | cons e cs =>
      rw [cons_append, line_cons d (by simp), ih (cons_ne_nil _ _),
        line_cons d (cons_ne_nil _ _), append_assoc, cons_append]

theorem weight_concat (cs : List (Cell ch)) (c : Cell ch) :
    weight (cs ++ [c]) = weight cs + (c.content.length + 1) := by
  rw [weight, map_append, sum_append]
  rfl

theorem tokens_concat (cs : List (Cell ch)) (c : Cell ch) (h : quote ∉ c.content) :
    tokens (cs ++ [c]) = tokens cs := by
  simp [tokens, filter_append, h]

/-- A line without its last character. -/
theorem trimmed_last {rest : List Byte} (h : line cs = rest ++ [b]) (hb : b ≠ quote) :
    ∃ cs', line cs' = rest ∧ Trimmed cs cs' 1 := by
  obtain rfl | ⟨cs, c, rfl⟩ := eq_nil_or_concat' cs
  · rw [line_nil] at h
    exact absurd h.symm (append_ne_nil_of_right_ne_nil _ (cons_ne_nil _ _))
  have hlast : (line (cs ++ [c])).getLast? = some b := by rw [h, getLast?_concat]
  have hends : ∃ before, line (cs ++ [c]) = before ++ c.written ∧
      ∀ c' : Cell ch, line (cs ++ [c']) = before ++ c'.written := by
    by_cases hcs : cs = []
    · exact ⟨[], by rw [hcs]; rfl, fun c' => by rw [hcs]; rfl⟩
    · refine ⟨line cs ++ [ch], ?_, fun c' => ?_⟩
      · rw [line_concat c hcs, append_assoc]
        rfl
      · rw [line_concat c' hcs, append_assoc]
        rfl
  obtain ⟨before, hbefore, hother⟩ := hends
  have henclosed : c.enclosed = false := by
    cases henclosed : c.enclosed with
    | false => rfl
    | true =>
      exfalso
      rw [hbefore, written, if_pos henclosed, ← cons_append, ← append_assoc,
        getLast?_concat] at hlast
      exact hb (Option.some.inj hlast).symm
  obtain ⟨hch, hquote⟩ := c.plain henclosed
  have hwritten : c.written = c.content := by rw [written, henclosed]; rfl
  obtain hcontent | ⟨content, a, hcontent⟩ := eq_nil_or_concat' c.content
  · -- the separator in front of an empty field
    have hcs : cs ≠ [] := by
      rintro rfl
      rw [nil_append, line_singleton, hwritten, hcontent] at hlast
      cases hlast
    rw [line_concat c hcs, hwritten, hcontent] at h
    refine ⟨cs, (append_inj' h rfl).1, hcs, (tokens_concat cs c hquote).symm, ?_⟩
    rw [weight_concat, hcontent, length_nil]
  · rw [hbefore, hwritten, hcontent, ← append_assoc] at h
    have hch' : ch ∉ content := fun hin => hch (by rw [hcontent]; exact mem_append_left _ hin)
    have hquote' : quote ∉ content := fun hin =>
      hquote (by rw [hcontent]; exact mem_append_left _ hin)
    refine ⟨cs ++ [bare content hch' hquote'], ?_, by simp, ?_, ?_⟩
    · rw [hother, written_bare]
      exact (append_inj' h rfl).1
    · rw [tokens_concat cs c hquote, tokens_concat cs _ hquote']
    · rw [weight_concat, weight_concat, hcontent, content_bare, length_append,
        length_singleton]
      omega

theorem ne_quote_of_mem_trim_list (h : b ∈ trim_list) : b ≠ quote := by
  rintro rfl
  exact quote_not_mem_trim_list h

variable {l : List Byte}

theorem trimmed_dropWhile :
    ∀ {cs : List (Cell ch)}, line cs = l → cs ≠ [] →
      ∃ cs' n, line cs' = l.dropWhile (· ∈ trim_list) ∧ Trimmed cs cs' n ∧
        n + (l.dropWhile (· ∈ trim_list)).length = l.length := by
  induction l with
  | nil => exact fun hline hne => ⟨_, 0, hline, Trimmed.refl hne, rfl⟩
  | cons b rest ih =>
    intro cs hline hne
    rw [dropWhile_cons]
    by_cases hb : b ∈ trim_list
    · rw [if_pos (by simpa using hb)]
      obtain ⟨cs', hline', htrimmed⟩ := trimmed_first hline (ne_quote_of_mem_trim_list hb)
      obtain ⟨cs'', n, hline'', htrimmed', hcount⟩ := ih hline' htrimmed.nonempty
      refine ⟨cs'', n + 1, hline'', htrimmed.trans htrimmed', ?_⟩
      rw [length_cons]
      omega
    · rw [if_neg (by simpa using hb)]
      exact ⟨cs, 0, hline, Trimmed.refl hne, Nat.zero_add _⟩

theorem trimmed_rdropWhile :
    ∀ {cs : List (Cell ch)}, line cs = l → cs ≠ [] →
      ∃ cs' n, line cs' = l.rdropWhile (· ∈ trim_list) ∧ Trimmed cs cs' n ∧
        n + (l.rdropWhile (· ∈ trim_list)).length = l.length := by
  induction l using reverseRecOn with
  | nil => exact fun hline hne => ⟨_, 0, hline, Trimmed.refl hne, rfl⟩
  | append_singleton rest b ih =>
    intro cs hline hne
    by_cases hb : b ∈ trim_list
    · rw [rdropWhile_concat_pos _ _ _ (by simpa using hb)]
      obtain ⟨cs', hline', htrimmed⟩ := trimmed_last hline (ne_quote_of_mem_trim_list hb)
      obtain ⟨cs'', n, hline'', htrimmed', hcount⟩ := ih hline' htrimmed.nonempty
      refine ⟨cs'', n + 1, hline'', htrimmed.trans htrimmed', ?_⟩
      rw [length_append, length_singleton]
      omega
    · rw [rdropWhile_concat_neg _ _ _ (by simpa using hb)]
      exact ⟨cs, 0, hline, Trimmed.refl hne, Nat.zero_add _⟩

/-- A trimmed line is the line of trimmed cells. -/
theorem trimmed_trim (hcs : cs ≠ []) :
    ∃ cs' n, line cs' = trim (line cs) ∧ Trimmed cs cs' n ∧
      n + (trim (line cs)).length = (line cs).length := by
  obtain ⟨cs', m, hline, htrimmed, hcount⟩ := trimmed_dropWhile (rfl : line cs = line cs) hcs
  obtain ⟨cs'', n, hline', htrimmed', hcount'⟩ := trimmed_rdropWhile hline htrimmed.nonempty
  refine ⟨cs'', n + m, hline', htrimmed.trans htrimmed', ?_⟩
  rw [trim]
  omega

/-- Neither end of the line is a character that `trim` takes off. -/
def Untrimmed (l : List Byte) : Prop :=
  (∀ b ∈ l.head?, b ∉ trim_list) ∧ ∀ b ∈ l.getLast?, b ∉ trim_list

theorem Untrimmed.trim_eq (h : Untrimmed l) : trim l = l := by
  obtain ⟨hhead, hlast⟩ := h
  have hdrop : l.dropWhile (· ∈ trim_list) = l := by
    cases l with
    | nil => rfl
    | cons b l => rw [dropWhile_cons_of_neg]; simpa using hhead b rfl
  rw [trim, hdrop, rdropWhile_eq_self_iff]
  intro hne
  simpa using hlast _ (getLast?_eq_some_getLast hne)

theorem untrimmed_trim (l : List Byte) : Untrimmed (trim l) := by
  constructor
  · intro b hb
    obtain ⟨rest, hrest⟩ : trim l <+: l.dropWhile (· ∈ trim_list) := rdropWhile_prefix _ _
    have hhead : (l.dropWhile (· ∈ trim_list)).head? = some b := by
      rw [← hrest, head?_append, hb]
      rfl
    have h := head?_dropWhile_not (fun c : Byte => decide (c ∈ trim_list)) l
    rw [hhead] at h
    simpa using h
  · intro b hb
    have hne : trim l ≠ [] := by
      intro hnil
      rw [hnil] at hb
      cases hb
    have h := rdropWhile_last_not (fun c : Byte => decide (c ∈ trim_list)) _ hne
    rw [getLast?_eq_some_getLast hne, Option.mem_some_iff] at hb
    rw [← hb]
    exact of_decide_eq_false (Bool.eq_false_iff.mpr h)

theorem trim_trim (l : List Byte) : trim (trim l) = trim l := (untrimmed_trim l).trim_eq

theorem read_fields_trim (separator : Byte) (l : List Byte) :
    read_fields lib line_num separator (trim l) = read_fields lib line_num separator l := by
  unfold read_fields split
  rw [trim_trim]

/-! ## The round trip -/

/-- Splitting the line of the fields and removing the quotation marks gives the fields back
    exactly when there is a field and `trim` leaves the ends of the line alone. -/
theorem split_undoes_quoting (lib : StdLibrary) (line_num : Nat)
    {given options : CsvParserOptions} (henabled : given.enabled = true)
    (hoptions : handle_parse_args given = .ok options) (cs : List (Cell options.separator))
    (hsettled : Settled lib (tokens cs)) :
    read_fields lib line_num options.separator (line cs) = .ok (cs.map content) ↔
      cs ≠ [] ∧ Untrimmed (line cs) := by
  have hquote := (accepted_of_handle_parse_args henabled hoptions).ne_quote
  constructor
  · intro hread
    have hcs : cs ≠ [] := by
      rintro rfl
      cases hread
    refine ⟨hcs, ?_⟩
    -- the trimmed line gives the contents of the trimmed cells
    obtain ⟨cs', n, hline, htrimmed, hcount⟩ := trimmed_trim hcs
    have hread' : read_fields lib line_num options.separator (line cs') =
        .ok (cs'.map content) := by
      apply read_fields_line hquote htrimmed.nonempty
      · rw [hline, trim_trim]
      · rw [htrimmed.tokens]
        exact hsettled
    rw [hline, read_fields_trim, hread] at hread'
    have hcontents : cs.map content = cs'.map content := Except.ok.inj hread'
    have hweight : weight cs' = weight cs := by
      have hlengths : ∀ ds : List (Cell options.separator),
          weight ds = ((ds.map content).map fun t => t.length + 1).sum := by
        intro ds
        rw [map_map]
        rfl
      rw [hlengths, hlengths, hcontents]
    have hn : n = 0 := by have := htrimmed.weight; omega
    have htrim : trim (line cs) = line cs := by
      obtain ⟨front, hfront⟩ : line cs' <:+: line cs := by
        rw [hline]
        exact (List.rdropWhile_prefix _ _).isInfix.trans (dropWhile_suffix _).isInfix
      rw [← hline]
      apply List.IsInfix.eq_of_length ⟨front, hfront⟩
      rw [hline]
      omega
    rw [← htrim]
    exact untrimmed_trim _
  · rintro ⟨hcs, huntrimmed⟩
    exact read_fields_line hquote hcs huntrimmed.trim_eq hsettled

def csv_options : CsvParserOptions := { enabled := true }

/-- A cell of a line with commas: the text between quotes. -/
def enclosed_cell (content : List Byte) : Cell csv_options.separator where
  content := content
  enclosed := true
  plain := by
    intro h
    cases h

/-- A cell with a separator and quotes in it, and another one. -/
theorem split_undoes_quoting_two_cells :
    read_fields libstdcxx 1 csv_options.separator
        (line [enclosed_cell (text "a,\"b\""), enclosed_cell (text "c")]) =
      .ok [text "a,\"b\"", text "c"] := by
  apply (@split_undoes_quoting libstdcxx 1 csv_options csv_options rfl rfl
    [enclosed_cell (text "a,\"b\""), enclosed_cell (text "c")] ?_).mpr
  · exact ⟨cons_ne_nil _ _, by unfold Untrimmed; decide⟩
  · exact settled_of_length_le_one (by decide)

/-- The cell that holds one form feed. -/
def form_feed_cell : Cell csv_options.separator := bare [12] (by decide) (by decide)

/-- A form feed at the end of a line is lost, and of two short copies the first is lost when
    the second makes the storage grow. -/
theorem split_loses_fields :
    read_fields libstdcxx 1 csv_options.separator (line [form_feed_cell]) ≠
      .ok [form_feed_cell.content] ∧
    read_fields libstdcxx 1 csv_options.separator
        (line [enclosed_cell (text "a\"b"), enclosed_cell (text "c\"d")]) =
      undefined := by
  constructor
  · have htrimmed : read_fields libstdcxx 1 csv_options.separator (line [form_feed_cell]) =
        .ok [[]] := rfl
    rw [htrimmed]
    intro h
    cases h
  · rfl

end VW.Parsers.Csv
