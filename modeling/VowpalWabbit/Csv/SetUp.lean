import VowpalWabbit.Csv.Parser

/-! # What a reading sets up

    A reading starts with the first line, which sets up the columns; from then on the
    columns stay as they are, and `reset` makes the same of every later state of the
    parser.
-/

open Cpp Outcome.Within Nat

namespace VW.Parsers.Csv

open List Outcome TokenStorage

variable {L R : Type} {lib : StdLibrary} {line_num : Nat} {ch : Byte} {use_quotes : Bool}

/-! ## Views of a growing storage -/

/-- The second storage is the first one with more copies in it. -/
structure TokenStorage.Grows (t t' : TokenStorage) : Prop where
  strings : t.strings <+: t'.strings
  moves : t.moves ≤ t'.moves

theorem TokenStorage.Grows.refl (t : TokenStorage) : t.Grows t :=
  ⟨prefix_refl _, le_refl _⟩

variable {t t' : TokenStorage} {sv : List Byte}

theorem TokenStorage.Grows.trans {t'' : TokenStorage} (h : t.Grows t') (h' : t'.Grows t'') :
    t.Grows t'' := ⟨h.strings.trans h'.strings, h.moves.trans h'.moves⟩

theorem TokenStorage.grows_emplace_back (t : TokenStorage) (s : List Byte) :
    t.Grows (t.emplace_back lib s) := by
  constructor
  · rw [strings_emplace_back]
    exact prefix_append _ _
  · unfold emplace_back
    split
    · exact le_succ _
    · exact le_refl _

/-- A view that was made of the storage, or before it grew. -/
def View.Of (t : TokenStorage) : View → Prop
  | .of_line _ => True
  | .of_token index moves => index < t.strings.length ∧ moves ≤ t.moves

theorem View.Of.mono {v : View} (h : v.Of t) (hgrows : t.Grows t') :
    v.Of t' := by
  cases v with
  | of_line characters => trivial
  | of_token index moves =>
    exact ⟨lt_of_lt_of_le h.1 hgrows.strings.length_le, h.2.trans hgrows.moves⟩

theorem TokenStorage.back_of (t : TokenStorage) (h : t.strings ≠ []) : t.back.Of t :=
  ⟨sub_lt (length_pos_iff.mpr h) one_pos, le_refl _⟩

/-- A view that is still good was good before. -/
theorem View.Of.read_within {v : View} (h : v.Of t) (hgrows : t.Grows t') :
    Outcome.Within (v.read lib t') (v.read lib t) := by
  intro s hread
  cases v with
  | of_line characters => exact hread
  | of_token index moves =>
    obtain ⟨hindex, hmoves⟩ := h
    have hsame : t'.strings[index]? = t.strings[index]? := by
      obtain ⟨more, hmore⟩ := hgrows.strings
      rw [← hmore, getElem?_append_left hindex]
    unfold View.read at hread ⊢
    dsimp only at hread ⊢
    rw [hsame] at hread
    rw [getElem?_eq_getElem hindex] at hread ⊢
    dsimp only at hread ⊢
    split at hread
    · rename_i hgood
      rw [if_pos]
      · exact hread
      · rcases hgood with hlong | hmoved
        · exact Or.inl hlong
        · have := hgrows.moves
          exact Or.inr (by omega)
    · cases hread

/-! ### `split` -/

theorem store_element_grows (element : List Byte) (s : SplitState) :
    s.storage.Grows (store_element lib element s).2 ∧
      (store_element lib element s).1.Of (store_element lib element s).2 := by
  unfold store_element
  split
  · exact ⟨Grows.refl _, trivial⟩
  · refine ⟨grows_emplace_back _ _, back_of _ ?_⟩
    rw [strings_emplace_back]
    exact append_ne_nil_of_right_ne_nil _ (cons_ne_nil _ _)

/-- What one round of the loop of `split` does: the storage grows, the views are of it, and
    the round at the end of the line hands out a view. -/
structure Round (sv : List Byte) (s s' : SplitState) : Prop where
  grows : s.storage.Grows s'.storage
  views : (∀ v ∈ s.collections, v.Of s.storage) → ∀ v ∈ s'.collections, v.Of s'.storage
  kept : s.collections ≠ [] → s'.collections ≠ []
  next : s.i < s'.i
  at_end : s.i = sv.length → s'.collections ≠ []
  within : s.i < sv.length → s'.i ≤ sv.length

theorem split_step_round {s s' : SplitState}
    (h : split_step lib line_num sv ch use_quotes s = .ok s') : Round sv s s' := by
  unfold split_step at h
  split at h
  · cases h
  rename_i hunclosed
  split at h
  · rename_i hopen
    cases h
    exact ⟨Grows.refl _, id, id, lt_succ_self _,
      fun hend => absurd hopen.2.2.2.1 (by omega), fun hlt => hlt⟩
  split at h
  · rename_i hdoubled
    cases h
    refine ⟨Grows.refl _, id, id, ?_, fun hend => absurd hdoubled.2.2.1 (by omega), ?_⟩
    · dsimp only
      omega
    · intro _
      have := hdoubled.2.2.1
      dsimp only
      omega
  split at h
  · rename_i hclose
    cases h
    refine ⟨Grows.refl _, id, id, lt_succ_self _, ?_, fun hlt => hlt⟩
    intro hend
    exact absurd ⟨hend, hclose.2.1⟩ hunclosed
  split at h
  · cases h
  split at h
  · cases h
    obtain ⟨hgrows, hof⟩ := @store_element_grows lib (split_element sv ch s) s
    refine ⟨hgrows, ?_, fun _ => by simp, lt_succ_self _, fun _ => by simp, fun hlt => hlt⟩
    intro hviews v hv
    rcases mem_append.mp hv with hv | hv
    · exact (hviews v hv).mono hgrows
    · rw [mem_singleton.mp hv]
      exact hof
  · rename_i hend
    cases h
    exact ⟨Grows.refl _, id, id, lt_succ_self _,
      fun heq => absurd (Or.inl heq) hend, fun hlt => hlt⟩

/-- The same of the whole loop. -/
theorem split_loop_views (rounds : Nat) :
    ∀ {s s' : SplitState}, split_loop lib line_num sv ch use_quotes rounds s = .ok s' →
      sv.length < s.i + rounds → (∀ v ∈ s.collections, v.Of s.storage) →
      s.storage.Grows s'.storage ∧ (∀ v ∈ s'.collections, v.Of s'.storage) ∧
        (s.collections ≠ [] ∨ s.i ≤ sv.length → s'.collections ≠ []) := by
  induction rounds with
  | zero =>
    intro s s' h hlen hviews
    cases h
    refine ⟨Grows.refl _, hviews, ?_⟩
    intro hne
    rcases hne with hne | hle
    · exact hne
    · omega
  | succ rounds ih =>
    intro s s' h hlen hviews
    rw [split_loop] at h
    split at h
    · rename_i hi
      obtain ⟨s₁, hstep, hloop⟩ := bind_eq_ok.mp h
      have hround := split_step_round hstep
      have hnext := hround.next
      obtain ⟨hgrows, hof, hne⟩ := ih hloop (by omega) (hround.views hviews)
      refine ⟨hround.grows.trans hgrows, hof, fun _ => hne ?_⟩
      rcases lt_or_ge s.i sv.length with hlt | hge
      · exact Or.inr (hround.within hlt)
      · exact Or.inl (hround.at_end (by omega))
    · rename_i hi
      cases h
      refine ⟨Grows.refl _, hviews, ?_⟩
      intro hne
      rcases hne with hne | hle
      · exact hne
      · exact absurd hle hi

/-- `split` hands out at least one view, and views of the storage it leaves. -/
theorem split_views {views : List View}
    (h : split lib line_num t sv ch use_quotes = .ok (views, t')) :
    t.Grows t' ∧ (∀ v ∈ views, v.Of t') ∧ views ≠ [] := by
  unfold split at h
  dsimp only at h
  split at h
  · cases h
    refine ⟨Grows.refl _, ?_, cons_ne_nil _ _⟩
    intro v hv
    rw [mem_singleton.mp hv]
    trivial
  · obtain ⟨s, hloop, hs⟩ := bind_eq_ok.mp h
    cases hs
    obtain ⟨hgrows, hof, hne⟩ := split_loop_views _ hloop (by simp) (by simp)
    exact ⟨hgrows, hof, hne (Or.inr (zero_le _))⟩

/-! ## An example from fewer reads that fail -/

section Within

variable {w : Workspace L R} {p : CsvParser} {c c' : Cells}

theorem parse_label_within (h : ∀ i, Outcome.Within (c i) (c' i)) (l : L) (r : R) :
    Outcome.Within (parse_label w p c l r) (parse_label w p c' l r) := by
  unfold parse_label
  split
  · exact refl _
  · exact (h _).bind fun _ => refl _

theorem parse_tag_within (h : ∀ i, Outcome.Within (c i) (c' i)) :
    Outcome.Within (parse_tag p c) (parse_tag p c') := by
  unfold parse_tag
  split
  · exact refl _
  · exact (h _).bind fun _ => refl _

theorem parse_columns_within (h : ∀ i, Outcome.Within (c i) (c' i)) (v : Single)
    (hash : BitVec 64) (columns : List Nat) : ∀ s,
    Outcome.Within (parse_columns w p c v hash s columns) (parse_columns w p c' v hash s columns) := by
  induction columns with
  | nil => exact fun _ => refl _
  | cons column columns ih =>
    intro s
    rw [parse_columns, parse_columns]
    apply Outcome.Within.bind
    · unfold parse_features
      exact (h _).bind fun _ => refl _
    · exact ih

theorem parse_namespaces_within (h : ∀ i, Outcome.Within (c i) (c' i))
    (feature_list : List (List Byte × List Nat)) : ∀ ae : Example L R,
    Outcome.Within (parse_namespaces w p c ae feature_list)
      (parse_namespaces w p c' ae feature_list) := by
  induction feature_list with
  | nil => exact fun _ => refl _
  | cons f feature_list ih =>
    intro ae
    rw [parse_namespaces, parse_namespaces]
    apply Outcome.Within.bind
    · unfold parse_namespace
      exact (parse_columns_within h _ _ _ _).bind fun _ => refl _
    · exact ih

theorem empty_cells_within (h : ∀ i, Outcome.Within (c i) (c' i)) (columns : List Nat) :
    Outcome.Within (empty_cells c columns) (empty_cells c' columns) := by
  induction columns with
  | nil => exact refl _
  | cons column columns ih =>
    rw [empty_cells, empty_cells]
    exact (h column).bind fun _ => ih.bind fun _ => refl _

theorem parse_example_within (h : ∀ i, Outcome.Within (c i) (c' i)) (ae : Example L R) :
    Outcome.Within (parse_example w p c ae) (parse_example w p c' ae) := by
  unfold parse_example
  apply (parse_label_within h _ _).bind
  intro label
  apply (parse_tag_within h).bind
  intro tag
  apply (parse_namespaces_within h _ _).bind
  intro ae
  exact (empty_cells_within h _).bind fun _ => refl _

/-- The cells of a line while the storage is smaller. -/
theorem cells_within {views : List View} (hviews : ∀ v ∈ views, v.Of t) (hgrows : t.Grows t')
    (i : Nat) : Outcome.Within (cells lib t' views i) (cells lib t views i) := by
  unfold cells
  cases hi : views[i]? with
  | none => exact refl _
  | some view => exact (hviews view (mem_of_getElem? hi)).read_within hgrows

end Within

/-! ## Setting up -/

section SetUp

variable {w : Workspace L R}

/-- What `parse_header` and `parse_ns_value` leave alone. -/
structure SameLine (p p' : CsvParser) : Prop where
  options : p'.options = p.options
  line_num : p'.line_num = p.line_num

/-- What one column of the header does. -/
structure Column (p p' : CsvParser) : Prop extends SameLine p p' where
  ns_value : p'.ns_value = p.ns_value
  header_fn : p'.header_fn.length = p.header_fn.length + 1

variable {t t' : TokenStorage} {p p' : CsvParser} {views : List View}

theorem parse_column_spec {i : Nat} {element : View}
    (h : parse_column lib t p i element = .ok p') : Column p p' := by
  unfold parse_column at h
  obtain ⟨sv, -, h⟩ := bind_eq_ok.mp h
  dsimp only at h
  split at h
  · cases h
    exact ⟨⟨rfl, rfl⟩, rfl, by simp⟩
  split at h
  · cases h
    exact ⟨⟨rfl, rfl⟩, rfl, by simp⟩
  · obtain ⟨⟨splitted, storage⟩, -, h⟩ := bind_eq_ok.mp h
    obtain ⟨cells, -, h⟩ := bind_eq_ok.mp h
    obtain ⟨⟨ns, feature_name⟩, -, h⟩ := bind_eq_ok.mp h
    cases h
    exact ⟨⟨rfl, rfl⟩, rfl, by simp⟩

variable {elements : List View}

theorem parse_header_spec :
    ∀ {p p' : CsvParser} {i : Nat}, parse_header lib t p i elements = .ok p' →
      SameLine p p' ∧ p'.ns_value = p.ns_value ∧
        p'.header_fn.length = p.header_fn.length + elements.length := by
  induction elements with
  | nil =>
    intro p p' i h
    cases h
    exact ⟨⟨rfl, rfl⟩, rfl, rfl⟩
  | cons element elements ih =>
    intro p p' i h
    obtain ⟨p₁, hcolumn, hrest⟩ := bind_eq_ok.mp h
    have hspec := parse_column_spec hcolumn
    obtain ⟨⟨hoptions, hline⟩, hns, hlength⟩ := ih hrest
    refine ⟨⟨hoptions.trans hspec.options, hline.trans hspec.line_num⟩, hns.trans hspec.ns_value, ?_⟩
    rw [hlength, hspec.header_fn, length_cons]
    omega

theorem set_value_ne_nil (map : List (List Byte × Single)) (key : List Byte) (value : Single) :
    set_value map key value ≠ [] := by
  cases map with
  | nil => exact cons_ne_nil _ _
  | cons kv map =>
    rw [set_value]
    split
    · exact cons_ne_nil _ _
    · exact cons_ne_nil _ _

theorem parse_ns_cell_spec {i : Nat} {view : View}
    (h : parse_ns_cell w t p i view = .ok (p', t')) :
    t.Grows t' ∧ p'.ns_value ≠ [] ∧ p' = { p with ns_value := p'.ns_value } := by
  unfold parse_ns_cell at h
  obtain ⟨sv, -, h⟩ := bind_eq_ok.mp h
  obtain ⟨⟨pair, storage⟩, hsplit, h⟩ := bind_eq_ok.mp h
  obtain ⟨hgrows, -, -⟩ := split_views hsplit
  dsimp only at h
  split at h
  · obtain ⟨value, -, h⟩ := bind_eq_ok.mp h
    split at h
    · cases h
    obtain ⟨ns, -, h⟩ := bind_eq_ok.mp h
    split at h
    · cases h
    cases h
    exact ⟨hgrows, set_value_ne_nil _ _ _, rfl⟩
  · cases h

theorem parse_ns_cells_spec :
    ∀ {t t' : TokenStorage} {p p' : CsvParser} {i : Nat},
      parse_ns_cells w t p i views = .ok (p', t') →
      t.Grows t' ∧ (views ≠ [] ∨ p.ns_value ≠ [] → p'.ns_value ≠ []) ∧
        p' = { p with ns_value := p'.ns_value } := by
  induction views with
  | nil =>
    intro t t' p p' i h
    cases h
    refine ⟨Grows.refl _, ?_, rfl⟩
    intro hne
    rcases hne with hne | hne
    · exact absurd rfl hne
    · exact hne
  | cons view views ih =>
    intro t t' p p' i h
    obtain ⟨⟨p₁, t₁⟩, hcell, hrest⟩ := bind_eq_ok.mp h
    obtain ⟨hgrows, hne, hsame⟩ := parse_ns_cell_spec hcell
    obtain ⟨hgrows', hne', hsame'⟩ := ih hrest
    refine ⟨hgrows.trans hgrows', fun _ => hne' (Or.inr hne), ?_⟩
    rw [hsame', hsame]

/-- What setting up does: there are columns, and the values of the namespaces are read unless
    they are there. -/
structure SetUp (t t' : TokenStorage) (p p' : CsvParser) : Prop extends SameLine p p' where
  grows : t.Grows t'
  header_fn : p'.header_fn ≠ []
  ns_value : p'.ns_value ≠ [] ∨ p'.options.csv_ns_value = []

theorem set_up_spec
    (hviews : views ≠ []) (h : set_up w t p views = .ok (p', t')) : SetUp t t' p p' := by
  unfold set_up at h
  obtain ⟨p₁, hheader, h⟩ := bind_eq_ok.mp h
  have hcolumns : SameLine p p₁ ∧ p₁.header_fn ≠ [] := by
    have hof : ∀ {elements : List View} {t₁ : TokenStorage}, elements ≠ [] →
        parse_header w.lib t₁ p 0 elements = .ok p₁ → SameLine p p₁ ∧ p₁.header_fn ≠ [] := by
      intro elements t₁ hne hparse
      obtain ⟨hsame, -, hlength⟩ := parse_header_spec hparse
      refine ⟨hsame, ?_⟩
      have hpos := length_pos_iff.mpr hne
      apply length_pos_iff.mp
      omega
    split at hheader
    · exact hof hviews hheader
    · obtain ⟨⟨elements, t₁⟩, hsplit, hparse⟩ := bind_eq_ok.mp hheader
      exact hof (split_views hsplit).2.2 hparse
  obtain ⟨⟨hoptions, hline⟩, hfn⟩ := hcolumns
  split at h
  · unfold parse_ns_value at h
    obtain ⟨⟨ns_values, t₁⟩, hsplit, h⟩ := bind_eq_ok.mp h
    obtain ⟨hgrows, -, hne⟩ := split_views hsplit
    obtain ⟨hgrows', hns, hsame⟩ := parse_ns_cells_spec h
    have hns' := hns (Or.inl hne)
    rw [hsame]
    exact ⟨⟨hoptions, hline⟩, hgrows.trans hgrows', hfn, Or.inl hns'⟩
  · rename_i hskip
    cases h
    refine ⟨⟨hoptions, hline⟩, Grows.refl _, hfn, ?_⟩
    by_cases hns : p'.ns_value = []
    · right
      by_contra hne
      exact hskip ⟨hns, hne⟩
    · exact Or.inl hns

/-- The columns do not depend on the values of the namespaces, nor on what the map held before. -/
theorem parse_header_with (v : List (List Byte × Single)) (cleared : List (List (List Byte))) :
    ∀ {p p' : CsvParser} {i : Nat}, parse_header lib t p i elements = .ok p' →
      parse_header lib t { p with ns_value := v, cleared := cleared } i elements =
        .ok { p' with ns_value := v, cleared := cleared } := by
  induction elements with
  | nil =>
    intro p p' i h
    cases h
    rfl
  | cons element elements ih =>
    intro p p' i h
    obtain ⟨p₁, hcolumn, hrest⟩ := bind_eq_ok.mp h
    have hcolumn' : parse_column lib t { p with ns_value := v, cleared := cleared } i element =
        .ok { p₁ with ns_value := v, cleared := cleared } := by
      unfold parse_column at hcolumn ⊢
      obtain ⟨sv, hread, hcolumn⟩ := bind_eq_ok.mp hcolumn
      rw [hread, ok_bind]
      dsimp only at hcolumn ⊢
      split at hcolumn
      · rename_i htag
        cases hcolumn
        rw [if_pos htag]
      rename_i htag
      rw [if_neg htag]
      split at hcolumn
      · rename_i hlabel
        cases hcolumn
        rw [if_pos hlabel]
      · rename_i hlabel
        rw [if_neg hlabel]
        obtain ⟨⟨splitted, storage⟩, hsplit, hcolumn⟩ := bind_eq_ok.mp hcolumn
        obtain ⟨names, hnames, hcolumn⟩ := bind_eq_ok.mp hcolumn
        obtain ⟨⟨ns, feature_name⟩, hname, hcolumn⟩ := bind_eq_ok.mp hcolumn
        cases hcolumn
        rw [hsplit, ok_bind]
        dsimp only
        rw [hnames, ok_bind, hname, ok_bind]
    rw [parse_header, hcolumn', ok_bind]
    exact ih hrest

/-- Setting up again with the values of the namespaces that were kept. -/
theorem set_up_again (hviews : views ≠ []) (hheader : p.options.csv_header = [])
    (h : set_up w t p views = .ok (p', t')) (cleared : List (List (List Byte))) :
    set_up w t { p with ns_value := p'.ns_value, cleared := cleared } views =
      .ok ({ p' with cleared := cleared }, t) := by
  have hspec := set_up_spec hviews h
  unfold set_up at h ⊢
  rw [if_pos hheader] at h
  dsimp only
  rw [if_pos hheader]
  obtain ⟨p₁, hparse, h⟩ := bind_eq_ok.mp h
  rw [parse_header_with p'.ns_value cleared hparse, ok_bind]
  have hp' : { p' with cleared := cleared } = { p₁ with ns_value := p'.ns_value, cleared := cleared } := by
    split at h
    · unfold parse_ns_value at h
      obtain ⟨⟨ns_values, t₁⟩, -, h⟩ := bind_eq_ok.mp h
      rw [(parse_ns_cells_spec h).2.2]
    · cases h
      rfl
  rw [← hp', if_neg]
  rintro ⟨hnil, hoption⟩
  rcases hspec.ns_value with hne | hnone
  · exact hne hnil
  · exact hoption hnone

end SetUp

/-! ## Lines -/

section Lines

variable {w : Workspace L R}

/-- The text of the next line, without its end. -/
def next_line (input : List Byte) : List Byte :=
  without_last 13 (without_last 10 (without_bom (IoBuf.upto 10 input)))

/-- The input behind the next line. -/
def after_line (input : List Byte) : List Byte := input.drop (IoBuf.upto 10 input).length

variable {input : List Byte}

theorem upto_ne_nil (h : input ≠ []) : 0 < (IoBuf.upto 10 input).length := by
  cases input with
  | nil => exact absurd rfl h
  | cons b input =>
    rw [IoBuf.upto, length_take, length_cons]
    omega

theorem read_line_nil (p : CsvParser) (ae : Example L R) :
    read_line w ⟨p, ae, []⟩ = .ok (0, ⟨p.reset, ae, []⟩) := rfl

theorem read_line_of_ne (h : input ≠ []) (p : CsvParser) (ae : Example L R) :
    read_line w ⟨p, ae, input⟩ =
      parse_csv_line w { p with line_num := p.line_num + 1 } ae (next_line input) >>= fun r =>
        .ok ((IoBuf.upto 10 input).length, ⟨r.1, r.2, after_line input⟩) := by
  unfold read_line
  dsimp only
  rw [if_pos (upto_ne_nil h)]
  rfl

@[simp] theorem reset_reset (p : CsvParser) : p.reset.reset = p.reset := by
  unfold CsvParser.reset
  by_cases h : p.options.csv_header = []
  · simp [h]
  · simp [h]

theorem reset_line_num (p : CsvParser) (n : Nat) : { p with line_num := n }.reset = p.reset := by
  unfold CsvParser.reset
  by_cases h : p.options.csv_header = []
  · simp [h]
  · simp [h]

/-- A line of a parser with columns changes no more than the example. -/
theorem parse_csv_line_columns {p p' : CsvParser} {ae ae' : Example L R} {csv_line : List Byte}
    (hp : p.header_fn ≠ []) (h : parse_csv_line w p ae csv_line = .ok (p', ae')) : p' = p := by
  unfold parse_csv_line at h
  split at h
  · cases h
  obtain ⟨⟨views, t⟩, -, h⟩ := bind_eq_ok.mp h
  unfold parse_line at h
  dsimp only at h
  rw [if_neg hp, ok_bind] at h
  dsimp only at h
  split at h
  · cases h
  split at h
  · cases h
    rfl
  · obtain ⟨ae₁, -, h⟩ := bind_eq_ok.mp h
    cases h
    rfl

/-- The parser has its columns, or there is nothing left to read, and `reset` gives `r`. -/
structure Settling (r : CsvParser) (s : Reading L R) : Prop where
  columns : s.parser.header_fn ≠ [] ∨ s.input = []
  reset : s.parser.reset = r

variable {r : CsvParser}

theorem Settling.read_line {s s' : Reading L R} {n : Nat} (h : Settling r s)
    (hread : read_line w s = .ok (n, s')) : Settling r s' := by
  obtain ⟨p, ae, input⟩ := s
  obtain ⟨hcolumns, hreset⟩ := h
  dsimp only at hcolumns hreset
  by_cases hinput : input = []
  · subst hinput
    rw [read_line_nil] at hread
    cases hread
    exact ⟨Or.inr rfl, by rw [reset_reset, hreset]⟩
  · have hfn : p.header_fn ≠ [] := hcolumns.resolve_right hinput
    rw [read_line_of_ne hinput] at hread
    obtain ⟨⟨p', ae'⟩, hline, hread⟩ := bind_eq_ok.mp hread
    cases hread
    have hp' := parse_csv_line_columns (p := { p with line_num := p.line_num + 1 }) hfn hline
    rw [hp']
    exact ⟨Or.inl hfn, by rw [reset_line_num, hreset]⟩

theorem Settling.parse_csv {s s' : Reading L R} {n : Nat} (h : Settling r s)
    (hread : parse_csv w s = .ok (n, s')) : Settling r s' := by
  unfold Csv.parse_csv at hread
  obtain ⟨⟨n₁, s₁⟩, hfirst, hread⟩ := bind_eq_ok.mp hread
  have h₁ := h.read_line hfirst
  dsimp only at hread
  split at hread
  · obtain ⟨⟨n₂, s₂⟩, hsecond, hread⟩ := bind_eq_ok.mp hread
    cases hread
    exact h₁.read_line hsecond
  · cases hread
    exact h₁

/-- A reading ends with a parser that `reset` makes what it was from the start. -/
theorem Settling.read_examples {blank : Example L R} (calls : Nat) :
    ∀ {p p' : CsvParser} {input : List Byte} {examples : List (Example L R)},
      Settling r ⟨p, blank, input⟩ → read_examples w blank calls p input = .ok (examples, p') →
      p'.reset = r := by
  induction calls with
  | zero =>
    intro p p' input examples h hread
    cases hread
    exact h.reset
  | succ calls ih =>
    intro p p' input examples h hread
    rw [Csv.read_examples] at hread
    obtain ⟨⟨n, s⟩, hcall, hread⟩ := bind_eq_ok.mp hread
    have h₁ := h.parse_csv hcall
    dsimp only at hread
    split at hread
    · cases hread
      exact h₁.reset
    · obtain ⟨⟨more, p₁⟩, hrest, hread⟩ := bind_eq_ok.mp hread
      cases hread
      exact ih ⟨h₁.columns, h₁.reset⟩ hrest

end Lines

end VW.Parsers.Csv
