import VowpalWabbit.Csv.SetUp

/-! # Two readings of one input

    After the end of the input `reset` either forgets the columns, and the next reading
    begins like the first one did, or it keeps them. With the columns kept the next reading
    takes its first line for an example. That is right where the file has no header; a
    header line is read into the first example.
-/

open Cpp

namespace VW.Parsers.Csv

open List Outcome Features

variable {L R : Type}

/-- An example that was cleared. -/
def blank (l : L) (r : R) : Example L R where
  l := l
  ex_reduction_features := r
  tag := []
  is_newline := false
  indices := []
  feature_space _ := empty
  sorted := false

/-! ## What a line adds to an example -/

variable {feature_list : List (List Byte × List Nat)} {ae : Example L R}

section Adds

variable {w : Workspace L R} {p : CsvParser} {c : Cells}

/-- A cell of a column of this namespace adds a feature. -/
def adds_feature (w : Workspace L R) (p : CsvParser) (key value : List Byte) : Bool :=
  value ≠ [] && !is_zero (match float_cell w value with
    | none => Single.one
    | some number => namespace_value p key * number)

/-- The cell is read, and it adds no feature. -/
def NoFeature (w : Workspace L R) (p : CsvParser) (key : List Byte)
    (cell : Outcome (List Byte)) : Prop :=
  ∃ value, cell = .ok value ∧ adds_feature w p key value = false

/-- The number of features that a cell adds. -/
def features_of_cell (w : Workspace L R) (p : CsvParser) (key : List Byte)
    (cell : Outcome (List Byte)) : Nat :=
  match cell with
  | .ok value => if adds_feature w p key value then 1 else 0
  | .error _ => 0

variable {key : List Byte}

theorem noFeature_of_features_of_cell {value : List Byte} {cell : Outcome (List Byte)}
    (hcell : cell = .ok value) (h : features_of_cell w p key cell = 0) :
    NoFeature w p key cell := by
  refine ⟨value, hcell, ?_⟩
  subst hcell
  unfold features_of_cell at h
  dsimp only at h
  split at h
  · exact absurd h Nat.one_ne_zero
  · rename_i hnone
    exact Bool.eq_false_iff.mpr hnone

variable {hash : BitVec 64}

/-- A cell that is read adds one feature or none. -/
theorem parse_features_size {s s' : Features Single × Nat} {column : Nat}
    (h : parse_features w p c (namespace_value p key) hash s column = .ok s') :
    (∃ value, c column = .ok value) ∧
      s'.1.size = s.1.size + features_of_cell w p key (c column) := by
  obtain ⟨fs, anon⟩ := s
  unfold parse_features at h
  obtain ⟨value, hvalue, h⟩ := bind_eq_ok.mp h
  refine ⟨⟨value, hvalue⟩, ?_⟩
  have hcount : features_of_cell w p key (c column) = if adds_feature w p key value then 1 else 0 := by
    rw [hvalue]
    rfl
  rw [hcount]
  dsimp only at h
  by_cases hempty : value = []
  · rw [if_pos hempty] at h
    cases h
    simp [adds_feature, hempty]
  · rw [if_neg hempty] at h
    -- whatever the hash, a zero is not added
    have hpush : ∀ (v : Single) (word_hash : FeatureIndex) (anon' : Nat),
        adds_feature w p key value = !is_zero v →
        (if is_zero v then (.ok (fs, anon') : Outcome (Features Single × Nat))
          else .ok (fs.push_back v word_hash, anon')) = .ok s' →
        s'.1.size = fs.size + (if adds_feature w p key value then 1 else 0) := by
      intro v word_hash anon' hadds hpush
      rw [hadds]
      split at hpush
      · rename_i hzero
        cases hpush
        rw [hzero]
        rfl
      · rename_i hzero
        cases hpush
        rw [Bool.eq_false_iff.mpr hzero]
        simp [size, push_back]
    cases hfloat : float_cell w value with
    | none =>
      rw [hfloat] at h
      exact hpush _ _ _ (by simp [adds_feature, hempty, hfloat]) h
    | some number =>
      rw [hfloat] at h
      dsimp only at h
      split at h
      · exact hpush _ _ _ (by simp [adds_feature, hempty, hfloat]) h
      · exact hpush _ _ _ (by simp [adds_feature, hempty, hfloat]) h

/-- A cell without a feature leaves the features alone. -/
theorem parse_features_of_noFeature {key : List Byte} {hash : BitVec 64} {column : Nat}
    (h : NoFeature w p key (c column)) (fs : Features Single) (anon : Nat) :
    ∃ anon', parse_features w p c (namespace_value p key) hash (fs, anon) column =
      .ok (fs, anon') := by
  obtain ⟨value, hvalue, hadds⟩ := h
  unfold parse_features
  dsimp only
  rw [hvalue, ok_bind]
  by_cases hempty : value = []
  · exact ⟨anon, by rw [if_pos hempty]⟩
  · rw [if_neg hempty]
    unfold adds_feature at hadds
    cases hfloat : float_cell w value with
    | none =>
      rw [hfloat] at hadds
      simp [hempty] at hadds
      exact absurd hadds (by decide)
    | some number =>
      rw [hfloat] at hadds
      have hzero : is_zero (namespace_value p key * number) = true := by simpa [hempty] using hadds
      dsimp only
      by_cases hname : p.header_fn.getD column [] ≠ []
      · exact ⟨anon, by simp only [ne_eq, hname, not_false_eq_true, if_true, hzero]⟩
      · exact ⟨anon + 1, by simp only [hname, if_false, hzero, if_true]⟩

variable {columns : List Nat}

theorem parse_columns_size :
    ∀ {s s' : Features Single × Nat},
      parse_columns w p c (namespace_value p key) hash s columns = .ok s' →
      (∀ column ∈ columns, ∃ value, c column = .ok value) ∧
        s'.1.size = s.1.size + (columns.map fun column => features_of_cell w p key (c column)).sum := by
  induction columns with
  | nil =>
    intro s s' h
    cases h
    exact ⟨fun _ hin => absurd hin not_mem_nil, rfl⟩
  | cons column columns ih =>
    intro s s' h
    obtain ⟨s₁, hcell, hrest⟩ := bind_eq_ok.mp h
    obtain ⟨hread, hsize⟩ := parse_features_size hcell
    obtain ⟨hreads, hsizes⟩ := ih hrest
    constructor
    · exact forall_mem_cons.mpr ⟨hread, hreads⟩
    · rw [hsizes, hsize, map_cons, sum_cons, Nat.add_assoc]

theorem parse_columns_of_noFeature {key : List Byte} {hash : BitVec 64} {columns : List Nat}
    (h : ∀ column ∈ columns, NoFeature w p key (c column)) (fs : Features Single) :
    ∀ anon, ∃ anon', parse_columns w p c (namespace_value p key) hash (fs, anon) columns =
      .ok (fs, anon') := by
  induction columns with
  | nil => exact fun anon => ⟨anon, rfl⟩
  | cons column columns ih =>
    intro anon
    rw [forall_mem_cons] at h
    obtain ⟨anon₁, hcell⟩ := @parse_features_of_noFeature _ _ _ _ _ _ hash _ h.1 fs anon
    obtain ⟨anon₂, hrest⟩ := ih h.2 anon₁
    exact ⟨anon₂, by rw [parse_columns, hcell, ok_bind, hrest]⟩

/-- The number of features that the line adds under a namespace index. -/
def features_at (w : Workspace L R) (p : CsvParser) (c : Cells) (index : Byte)
    (feature_list : List (List Byte × List Nat)) : Nat :=
  (feature_list.map fun f =>
    if namespace_index f.1 = index then
      (f.2.map fun column => features_of_cell w p f.1 (c column)).sum
    else 0).sum

/-- What the namespaces of a line do to an example. -/
structure AddsNamespaces (w : Workspace L R) (p : CsvParser) (c : Cells)
    (feature_list : List (List Byte × List Nat)) (ae ae' : Example L R) : Prop where
  read : ∀ f ∈ feature_list, ∀ column ∈ f.2, ∃ value, c column = .ok value
  size : ∀ index, (ae'.feature_space index).size =
    (ae.feature_space index).size + features_at w p c index feature_list
  l : ae'.l = ae.l
  ex_reduction_features : ae'.ex_reduction_features = ae.ex_reduction_features
  tag : ae'.tag = ae.tag

theorem parse_namespaces_spec :
    ∀ {ae ae' : Example L R}, parse_namespaces w p c ae feature_list = .ok ae' →
      AddsNamespaces w p c feature_list ae ae' := by
  induction feature_list with
  | nil =>
    intro ae ae' h
    cases h
    exact ⟨fun _ hin => absurd hin not_mem_nil, fun _ => rfl, rfl, rfl, rfl⟩
  | cons f feature_list ih =>
    intro ae ae' h
    obtain ⟨ae₁, hnamespace, hrest⟩ := bind_eq_ok.mp h
    have hih := ih hrest
    unfold parse_namespace at hnamespace
    obtain ⟨⟨fs, anon⟩, hcolumns, hnamespace⟩ := bind_eq_ok.mp hnamespace
    obtain ⟨hread, hsize⟩ := parse_columns_size hcolumns
    cases hnamespace
    refine ⟨forall_mem_cons.mpr ⟨hread, hih.read⟩, ?_, hih.l, hih.ex_reduction_features, hih.tag⟩
    intro index
    have hcons : features_at w p c index (f :: feature_list) =
        (if namespace_index f.1 = index then
          (f.2.map fun column => features_of_cell w p f.1 (c column)).sum else 0) +
        features_at w p c index feature_list := by
      rw [features_at, map_cons, sum_cons]
      rfl
    have hfs : fs.end_ns_extent.size = fs.size := rfl
    have hstart : ((ae.feature_space (namespace_index f.1)).start_ns_extent
        (namespace_hash w f.1)).size = (ae.feature_space (namespace_index f.1)).size := rfl
    rw [hih.size, hcons]
    dsimp only at hsize ⊢
    by_cases hindex : namespace_index f.1 = index
    · subst hindex
      rw [Function.update_self, hfs, hsize, hstart, if_pos rfl, Nat.add_assoc]
    · rw [Function.update_of_ne (Ne.symm hindex), if_neg hindex, Nat.zero_add]

/-- A line without features leaves a cleared example alone. -/
theorem parse_namespaces_of_noFeature
    (h : ∀ f ∈ feature_list, ∀ column ∈ f.2, NoFeature w p f.1 (c column))
    (hae : ae.feature_space = fun _ => empty) :
    parse_namespaces w p c ae feature_list = .ok ae := by
  induction feature_list with
  | nil => rfl
  | cons f feature_list ih =>
    rw [forall_mem_cons] at h
    have hnamespace : parse_namespace w p c ae f = .ok ae := by
      unfold parse_namespace
      dsimp only
      rw [hae]
      obtain ⟨anon, hcolumns⟩ := @parse_columns_of_noFeature _ _ _ _ _ _ (namespace_hash w f.1) _ h.1
        ((empty : Features Single).start_ns_extent (namespace_hash w f.1)) 0
      have hend : ((empty : Features Single).start_ns_extent
          (namespace_hash w f.1)).end_ns_extent = empty := rfl
      rw [hcolumns, ok_bind]
      dsimp only
      rw [hend, if_neg (fun hpos => absurd hpos.2 (Nat.lt_irrefl 0)), Function.update_eq_self, ← hae]
    rw [parse_namespaces, hnamespace, ok_bind, ih h.2]

/-- Whether the example was a newline does not matter to its namespaces. -/
theorem parse_namespaces_with_newline (b : Bool) (feature_list : List (List Byte × List Nat)) :
    ∀ ae : Example L R, parse_namespaces w p c { ae with is_newline := b } feature_list =
      parse_namespaces w p c ae feature_list >>= fun ae => .ok { ae with is_newline := b } := by
  induction feature_list with
  | nil => exact fun _ => rfl
  | cons f feature_list ih =>
    intro ae
    rw [parse_namespaces, parse_namespaces]
    unfold parse_namespace
    dsimp only
    cases parse_columns w p c (namespace_value p f.1) (namespace_hash w f.1)
        ((ae.feature_space (namespace_index f.1)).start_ns_extent (namespace_hash w f.1), 0) f.2 with
    | error e => rfl
    | ok s =>
      simp only [ok_bind]
      exact ih { ae with
        feature_space := Function.update ae.feature_space (namespace_index f.1) s.1.end_ns_extent
        indices := if (ae.feature_space (namespace_index f.1)).size = 0 ∧
          0 < s.1.end_ns_extent.size then ae.indices ++ [namespace_index f.1] else ae.indices }

theorem empty_cells_returns (h : ∀ i ∈ columns, ∃ value, c i = .ok value) :
    ∃ b, empty_cells c columns = .ok b := by
  induction columns with
  | nil => exact ⟨true, rfl⟩
  | cons column columns ih =>
    rw [forall_mem_cons] at h
    obtain ⟨⟨value, hvalue⟩, hrest⟩ := h
    obtain ⟨b, hb⟩ := ih hrest
    exact ⟨decide (value = []) && b, by rw [empty_cells, hvalue, ok_bind, hb, ok_bind]⟩

end Adds

/-! ## The header line as an example -/

variable {ae' : Example L R}

section Header

variable {w : Workspace L R} {p : CsvParser} {l : L} {r : R} {header : Cells}

/-- The header line, taken for a line of the example that the next line is read into,
    leaves no trace in it: no tag, no feature and the same label. Without a next line the
    example keeps its label, and it is no newline. -/
structure LeavesNothing (w : Workspace L R) (p : CsvParser) (l : L) (r : R) (header : Cells)
    (next : Option Cells) : Prop where
  tag : parse_tag p header = .ok []
  features : ∀ f ∈ visited w p, ∀ column ∈ f.2, NoFeature w p f.1 (header column)
  label : ∃ l' r', parse_label w p header l r = .ok (l', r') ∧
    match next with
    | some c => parse_label w p c l' r' = parse_label w p c l r
    | none => l' = l ∧ r' = r
  newline : next = none → empty_cells header (feature_columns w p) = .ok false

/-- The example of a header line that adds neither tag nor feature. -/
theorem parse_example_header (htag : parse_tag p header = .ok [])
    (hfeatures : ∀ f ∈ visited w p, ∀ column ∈ f.2, NoFeature w p f.1 (header column))
    {l' : L} {r' : R} (hlabel : parse_label w p header l r = .ok (l', r')) :
    ∃ b, empty_cells header (feature_columns w p) = .ok b ∧
      parse_example w p header (blank l r) = .ok { blank l' r' with is_newline := b } := by
  have hread : ∀ i ∈ feature_columns w p, ∃ value, header i = .ok value := by
    intro i hi
    obtain ⟨f, hf, hcolumn⟩ := mem_flatMap.mp hi
    obtain ⟨value, hvalue, -⟩ := hfeatures f hf i hcolumn
    exact ⟨value, hvalue⟩
  obtain ⟨b, hb⟩ := empty_cells_returns hread
  refine ⟨b, hb, ?_⟩
  have hlabel' : parse_label w p header (blank l r).l (blank l r).ex_reduction_features =
      .ok (l', r') := hlabel
  unfold parse_example
  rw [hlabel', ok_bind]
  dsimp only
  rw [htag, ok_bind, parse_namespaces_of_noFeature hfeatures rfl, ok_bind, hb,
    ok_bind]
  rfl

variable {c : Cells}

/-- A line read into an example without tag and features. -/
theorem parse_example_after {l' : L} {r' : R} (b : Bool)
    (hlabel : parse_label w p c l' r' = parse_label w p c l r) :
    parse_example w p c { blank l' r' with is_newline := b } = parse_example w p c (blank l r) := by
  unfold parse_example
  have hlabel' : parse_label w p c (blank l' r').l (blank l' r').ex_reduction_features =
      parse_label w p c (blank l r).l (blank l r).ex_reduction_features := hlabel
  rw [hlabel']
  cases parse_label w p c (blank l r).l (blank l r).ex_reduction_features with
  | error e => rfl
  | ok label =>
    simp only [ok_bind]
    cases parse_tag p c with
    | error e => rfl
    | ok tag =>
      simp only [ok_bind]
      obtain ⟨ae, hae⟩ : ∃ ae : Example L R, ae = { blank label.1 label.2 with tag := tag } :=
        ⟨_, rfl⟩
      show (parse_namespaces w p c { ({ blank label.1 label.2 with tag := tag } : Example L R) with
          is_newline := b } (visited w p) >>= _) =
        (parse_namespaces w p c { blank label.1 label.2 with tag := tag } (visited w p) >>= _)
      rw [← hae, parse_namespaces_with_newline]
      cases parse_namespaces w p c ae (visited w p) with
      | error e => rfl
      | ok ae => rfl

/-- What an example owes to a line. -/
structure AddsLine (w : Workspace L R) (p : CsvParser) (c : Cells) (ae ae' : Example L R) :
    Prop where
  label : parse_label w p c ae.l ae.ex_reduction_features = .ok (ae'.l, ae'.ex_reduction_features)
  tag : ∃ tag, parse_tag p c = .ok tag ∧ ae'.tag = ae.tag ++ tag
  read : ∀ f ∈ visited w p, ∀ column ∈ f.2, ∃ value, c column = .ok value
  size : ∀ index, (ae'.feature_space index).size =
    (ae.feature_space index).size + features_at w p c index (visited w p)
  newline : empty_cells c (feature_columns w p) = .ok ae'.is_newline

theorem parse_example_spec (h : parse_example w p c ae = .ok ae') : AddsLine w p c ae ae' := by
  unfold parse_example at h
  obtain ⟨⟨l', r'⟩, hlabel, h⟩ := bind_eq_ok.mp h
  obtain ⟨tag, htag, h⟩ := bind_eq_ok.mp h
  obtain ⟨ae₁, hnamespaces, h⟩ := bind_eq_ok.mp h
  obtain ⟨b, hb, h⟩ := bind_eq_ok.mp h
  cases h
  have hspec := parse_namespaces_spec hnamespaces
  constructor
  · rw [hlabel, hspec.l, hspec.ex_reduction_features]
  · exact ⟨tag, htag, hspec.tag⟩
  · exact hspec.read
  · exact hspec.size
  · exact hb

/-- No features at any index are no features in any cell. -/
theorem noFeature_of_features_at
    (hread : ∀ f ∈ feature_list, ∀ column ∈ f.2, ∃ value, c column = .ok value)
    (h : ∀ index, features_at w p c index feature_list = 0) :
    ∀ f ∈ feature_list, ∀ column ∈ f.2, NoFeature w p f.1 (c column) := by
  intro f hf column hcolumn
  obtain ⟨value, hvalue⟩ := hread f hf column hcolumn
  apply noFeature_of_features_of_cell hvalue
  have hsum := h (namespace_index f.1)
  rw [features_at, sum_eq_zero_iff] at hsum
  have hf0 := hsum _ (mem_map.mpr ⟨f, hf, rfl⟩)
  rw [if_pos rfl, sum_eq_zero_iff] at hf0
  exact hf0 _ (mem_map.mpr ⟨column, hcolumn, rfl⟩)

/-- A header line whose example is as if it had not been read leaves nothing. -/
theorem leavesNothing_of_eq {next : Option Cells} {ae ae' : Example L R}
    (hheader : parse_example w p header (blank l r) = .ok ae)
    (hnext : match next with
      | some c => parse_example w p c ae = .ok ae' ∧ parse_example w p c (blank l r) = .ok ae'
      | none => ae = blank l r) : LeavesNothing w p l r header next := by
  have hspec := parse_example_spec hheader
  have hempty : (blank l r).tag = [] := rfl
  cases next with
  | none =>
    dsimp only at hnext
    subst hnext
    obtain ⟨tag, htag, happend⟩ := hspec.tag
    rw [hempty, nil_append] at happend
    constructor
    · rw [htag, ← happend]
    · apply noFeature_of_features_at hspec.read
      intro index
      have hsize := hspec.size index
      omega
    · exact ⟨l, r, hspec.label, rfl, rfl⟩
    · exact fun _ => hspec.newline
  | some c =>
    obtain ⟨hsecond, hfirst⟩ := hnext
    have hspec₂ := parse_example_spec hsecond
    have hspec₁ := parse_example_spec hfirst
    obtain ⟨tag, htag, happend⟩ := hspec.tag
    obtain ⟨tag₂, htag₂, happend₂⟩ := hspec₂.tag
    obtain ⟨tag₁, htag₁, happend₁⟩ := hspec₁.tag
    rw [htag₁] at htag₂
    cases htag₂
    rw [hempty, nil_append] at happend happend₁
    rw [happend₁, happend] at happend₂
    constructor
    · rw [htag]
      congr 1
      exact self_eq_append_left.mp happend₂
    · apply noFeature_of_features_at hspec.read
      intro index
      have hsize := hspec.size index
      have hsize₂ := hspec₂.size index
      have hsize₁ := hspec₁.size index
      omega
    · exact ⟨ae.l, ae.ex_reduction_features, hspec.label, hspec₂.label.trans hspec₁.label.symm⟩
    · exact fun hnone => by cases hnone

end Header

/-! ## The first line of a reading -/

section FirstLine

variable {w : Workspace L R} {options : CsvParserOptions} {input : List Byte}

/-- The parser before anything was read. -/
def fresh (options : CsvParserOptions) : CsvParser := { options := options }

/-- The first line of an input, and what it sets up. -/
structure FirstLine (w : Workspace L R) (options : CsvParserOptions) (input : List Byte)
    (views : List View) (t : TokenStorage) (columns : CsvParser) (t' : TokenStorage) : Prop where
  line : next_line input ≠ []
  split : split w.lib 1 {} (next_line input) options.separator true = .ok (views, t)
  set_up : set_up w t { fresh options with line_num := 1 } views = .ok (columns, t')
  length : views.length = columns.header_fn.length

variable {views : List View} {t t' : TokenStorage} {columns : CsvParser}

theorem FirstLine.spec (h : FirstLine w options input views t columns t') :
    SetUp t t' { fresh options with line_num := 1 } columns :=
  set_up_spec (split_views h.split).2.2 h.set_up

theorem FirstLine.options_eq (h : FirstLine w options input views t columns t') :
    columns.options = options := h.spec.options

theorem FirstLine.line_num_eq (h : FirstLine w options input views t columns t') :
    columns.line_num = 1 := h.spec.line_num

/-- The first line in a fresh parser: a header, or an example. -/
theorem firstLine_of_ok
    (h : parse_csv_line w { fresh options with line_num := 1 } ae (next_line input) =
      .ok (columns, ae')) :
    ∃ views t t', FirstLine w options input views t columns t' ∧
      if options.csv_no_file_header = false then ae' = ae
      else parse_example w columns (cells w.lib t' views) ae = .ok ae' := by
  unfold parse_csv_line at h
  split at h
  · cases h
  rename_i hline
  obtain ⟨⟨views, t⟩, hsplit, h⟩ := bind_eq_ok.mp h
  have hfresh : (fresh options).header_fn = [] := rfl
  unfold parse_line at h
  dsimp only at h
  rw [if_pos hfresh] at h
  obtain ⟨⟨columns', t'⟩, hset, h⟩ := bind_eq_ok.mp h
  dsimp only at h
  split at h
  · cases h
  rename_i hlength
  refine ⟨views, t, t', ?_⟩
  split at h
  · rename_i hheader
    have hno : options.csv_no_file_header = false := hheader.2
    cases h
    rw [if_pos hno]
    exact ⟨⟨hline, hsplit, hset, of_not_not hlength⟩, rfl⟩
  · rename_i hheader
    obtain ⟨ae₁, hexample, h⟩ := bind_eq_ok.mp h
    have hno : ¬ options.csv_no_file_header = false := fun hno => hheader ⟨rfl, hno⟩
    cases h
    rw [if_neg hno]
    exact ⟨⟨hline, hsplit, hset, of_not_not hlength⟩, hexample⟩

/-- Where `reset` forgets the columns the line is a header again. -/
theorem FirstLine.forgotten (h : FirstLine w options input views t columns t')
    (hheader : options.csv_header = []) (hno : options.csv_no_file_header = false)
    (ae : Example L R) :
    parse_csv_line w { columns.reset with line_num := columns.reset.line_num + 1 } ae
      (next_line input) = .ok ({ columns with cleared := columns.reset.cleared }, ae) := by
  have hoptions := h.options_eq
  have hreset : ({ columns.reset with line_num := columns.reset.line_num + 1 } : CsvParser) =
      { { fresh options with line_num := 1 } with
        ns_value := columns.ns_value, cleared := columns.reset.cleared } := by
    unfold CsvParser.reset
    rw [hoptions, if_pos hheader]
    rfl
  have hagain := set_up_again (split_views h.split).2.2 hheader h.set_up columns.reset.cleared
  have hsplit := h.split
  rw [hreset]
  unfold parse_csv_line
  rw [if_neg h.line]
  show (Csv.split w.lib 1 {} (next_line input) options.separator true >>= _) = _
  rw [hsplit, ok_bind]
  dsimp only
  have hfresh : (fresh options).header_fn = [] := rfl
  unfold parse_line
  dsimp only
  rw [if_pos hfresh, hagain, ok_bind]
  dsimp only
  rw [if_neg (not_not_intro h.length), if_pos ⟨rfl, hno⟩]

variable {p : CsvParser} {line : List Byte}

/-- A line for a parser that has its columns. -/
theorem parse_csv_line_kept (hp : p.header_fn ≠ []) (hline : line ≠ [])
    (hsplit : split w.lib p.line_num {} line p.options.separator true =
      .ok (views, t)) (hlength : views.length = p.header_fn.length) (ae : Example L R) :
    parse_csv_line w p ae line =
      parse_example w p (cells w.lib t views) ae >>= fun ae => .ok (p, ae) := by
  unfold parse_csv_line
  rw [if_neg hline, hsplit, ok_bind]
  dsimp only
  unfold parse_line
  dsimp only
  rw [if_neg hp, ok_bind]
  dsimp only
  rw [if_neg (not_not_intro hlength), if_neg (fun hheader => hp hheader.1)]

/-- What a line says that a parser with columns reads. -/
theorem line_of_parse_csv_line {p' : CsvParser} (hp : p.header_fn ≠ [])
    (h : parse_csv_line w p ae line = .ok (p', ae')) :
    line ≠ [] ∧ ∃ views t, split w.lib p.line_num {} line p.options.separator true = .ok (views, t) ∧
      views.length = p.header_fn.length ∧
      parse_example w p (cells w.lib t views) ae = .ok ae' := by
  have hp' := parse_csv_line_columns hp h
  subst hp'
  unfold parse_csv_line at h
  split at h
  · cases h
  rename_i hline
  obtain ⟨⟨views, t⟩, hsplit, h⟩ := bind_eq_ok.mp h
  refine ⟨hline, views, t, hsplit, ?_⟩
  unfold parse_line at h
  dsimp only at h
  rw [if_neg hp, ok_bind] at h
  dsimp only at h
  split at h
  · cases h
  rename_i hlength
  rw [if_neg (fun hheader => hp hheader.1)] at h
  obtain ⟨ae₁, hexample, h⟩ := bind_eq_ok.mp h
  cases h
  exact ⟨of_not_not hlength, hexample⟩

theorem with_line_num {n : Nat} (h : p.line_num = n) : { p with line_num := n } = p := by
  subst h
  rfl

/-- Where `reset` keeps the columns the line is an example. -/
theorem FirstLine.kept (h : FirstLine w options input views t columns t')
    (hheader : options.csv_header ≠ []) (ae : Example L R) :
    parse_csv_line w { columns.reset with line_num := columns.reset.line_num + 1 } ae
        (next_line input) =
      parse_example w columns (cells w.lib t views) ae >>= fun ae => .ok (columns, ae) := by
  have hoptions := h.options_eq
  have hline := h.line_num_eq
  have hreset : ({ columns.reset with line_num := columns.reset.line_num + 1 } : CsvParser) =
      columns := by
    unfold CsvParser.reset
    rw [if_neg (by rwa [hoptions])]
    exact with_line_num hline
  rw [hreset]
  apply parse_csv_line_kept h.spec.header_fn h.line _ h.length
  rw [hline, hoptions]
  exact h.split

/-- The part of `parse_csv` behind its first line. -/
def finish_call (w : Workspace L R) (num_bytes_consumed : Nat) (s : Reading L R) :
    Outcome (Nat × Reading L R) :=
  if s.parser.line_num = 1 ∧ s.parser.options.csv_no_file_header = false then do
    let (more, s) ← read_line w s
    .ok (num_bytes_consumed + more, s)
  else .ok (num_bytes_consumed, s)

theorem parse_csv_of_ne (h : input ≠ []) (p : CsvParser) (ae : Example L R) :
    parse_csv w ⟨p, ae, input⟩ =
      parse_csv_line w { p with line_num := p.line_num + 1 } ae (next_line input) >>= fun r =>
        finish_call w (IoBuf.upto 10 input).length ⟨r.1, r.2, after_line input⟩ := by
  unfold parse_csv
  rw [read_line_of_ne h, bind_assoc]
  rfl

/-- The columns do not know which line they are read for, nor what the map held before if it is
    visited in the same order. -/
theorem parse_example_with {cleared : List (List (List Byte))} (n : Nat)
    (h : w.lib.visits cleared p.feature_list = visited w p) (c : Cells) (ae : Example L R) :
    parse_example w { p with line_num := n, cleared := cleared } c ae = parse_example w p c ae := by
  have hcolumns : ∀ (v : Single) (hash : BitVec 64) (cs : List Nat) (s : Features Single × Nat),
      parse_columns w { p with line_num := n, cleared := cleared } c v hash s cs =
        parse_columns w p c v hash s cs := by
    intro v hash cs
    induction cs with
    | nil => exact fun _ => rfl
    | cons column cs ih =>
      intro s
      rw [parse_columns, parse_columns]
      congr 1
      funext s
      exact ih s
  have hnamespaces : ∀ (fs : List (List Byte × List Nat)) (ae : Example L R),
      parse_namespaces w { p with line_num := n, cleared := cleared } c ae fs = parse_namespaces w p c ae fs := by
    intro fs
    induction fs with
    | nil => exact fun _ => rfl
    | cons f fs ih =>
      intro ae
      rw [parse_namespaces, parse_namespaces]
      have hnamespace : parse_namespace w { p with line_num := n, cleared := cleared } c ae f =
          parse_namespace w p c ae f := by
        unfold parse_namespace
        dsimp only
        rw [hcolumns]
        rfl
      rw [hnamespace]
      congr 1
      funext ae
      exact ih ae
  have hvisited : visited w { p with line_num := n, cleared := cleared } = visited w p := h
  unfold parse_example feature_columns
  dsimp only
  rw [hvisited]
  congr 1
  funext label
  congr 1
  funext tag
  rw [hnamespaces]

/-- The same reading, where the map was cleared of other keys. -/
structure Alike (w : Workspace L R) (s s' : Reading L R) : Prop where
  ae : s'.ae = s.ae
  input : s'.input = s.input
  line_num : s'.parser.line_num = s.parser.line_num
  options : s'.parser.options = s.parser.options
  columns : s.input = [] ∨ s.parser.header_fn ≠ [] ∧ ∃ cleared,
    s'.parser = { s.parser with cleared := cleared } ∧
      w.lib.visits cleared s.parser.feature_list = visited w s.parser

variable {s₁ s₂ s : Reading L R} {n m : Nat}

theorem Alike.read_line (h : Alike w s₁ s₂) (hread : Csv.read_line w s₁ = .ok (n, s)) :
    ∃ s', Csv.read_line w s₂ = .ok (n, s') ∧ Alike w s s' := by
  obtain ⟨p, ae, input⟩ := s₁
  obtain ⟨p', ae', input'⟩ := s₂
  obtain ⟨rfl, rfl, hline_num, hoptions, hcolumns⟩ := h
  dsimp only at hline_num hoptions hcolumns hread ⊢
  by_cases hinput : input' = []
  · subst hinput
    rw [read_line_nil] at hread ⊢
    cases hread
    refine ⟨_, rfl, rfl, rfl, ?_, ?_, .inl rfl⟩ <;> simp only [CsvParser.reset, hoptions] <;> split <;> rfl
  · obtain ⟨hfn, cleared, rfl, hvisits⟩ := hcolumns.resolve_left hinput
    rw [read_line_of_ne hinput] at hread
    obtain ⟨⟨p', ae₁⟩, hline, hread⟩ := bind_eq_ok.mp hread
    cases hread
    have hfn' : ({ p with line_num := p.line_num + 1 } : CsvParser).header_fn ≠ [] := hfn
    obtain ⟨hne, views, t, hsplit, hlength, hexample⟩ := line_of_parse_csv_line hfn' hline
    obtain rfl := parse_csv_line_columns hfn' hline
    have hagain := parse_csv_line_kept (w := w)
      (p := { p with line_num := p.line_num + 1, cleared := cleared }) hfn hne hsplit hlength ae'
    rw [parse_example_with (p := p) _ hvisits, ← parse_example_with (p := p) (p.line_num + 1) rfl, hexample,
      ok_bind] at hagain
    refine ⟨⟨{ p with line_num := p.line_num + 1, cleared := cleared }, ae₁, after_line input'⟩, ?_,
      rfl, rfl, rfl, rfl, .inr ⟨hfn, cleared, rfl, hvisits⟩⟩
    rw [read_line_of_ne hinput]
    dsimp only
    rw [hagain]
    rfl

theorem Alike.finish_call (h : Alike w s₁ s₂) (hcall : Csv.finish_call w n s₁ = .ok (m, s)) :
    ∃ s', Csv.finish_call w n s₂ = .ok (m, s') ∧ Alike w s s' := by
  unfold Csv.finish_call at hcall ⊢
  rw [h.line_num, h.options]
  split at hcall
  · next hcond =>
    obtain ⟨⟨more, s'⟩, hread, hcall⟩ := bind_eq_ok.mp hcall
    obtain ⟨s'', hread', halike⟩ := h.read_line hread
    cases hcall
    exact ⟨s'', by rw [if_pos hcond, hread']; rfl, halike⟩
  · next hcond =>
    cases hcall
    exact ⟨s₂, if_neg hcond, h⟩

theorem Alike.parse_csv (h : Alike w s₁ s₂) (hcall : Csv.parse_csv w s₁ = .ok (n, s)) :
    ∃ s', Csv.parse_csv w s₂ = .ok (n, s') ∧ Alike w s s' := by
  obtain ⟨⟨m, s'⟩, hread, hcall⟩ : ∃ q, Csv.read_line w s₁ = .ok q ∧ Csv.finish_call w q.1 q.2 = .ok (n, s) :=
    bind_eq_ok.mp hcall
  obtain ⟨s'', hread', halike⟩ := h.read_line hread
  obtain ⟨s₃, hcall', halike'⟩ := halike.finish_call hcall
  refine ⟨s₃, ?_, halike'⟩
  unfold Csv.parse_csv
  rw [hread', ok_bind]
  exact hcall'

theorem Alike.continues {p q : CsvParser} {ae ae' : Example L R} {input : List Byte}
    (h : Alike w ⟨p, ae, input⟩ ⟨q, ae', input⟩) (blank : Example L R) :
    Alike w ⟨p, blank, input⟩ ⟨q, blank, input⟩ := ⟨rfl, rfl, h.line_num, h.options, h.columns⟩

/-- A reading goes on alike to its end. -/
theorem Alike.read_examples {blank : Example L R} (calls : Nat) :
    ∀ {p q p' : CsvParser} {input : List Byte} {examples : List (Example L R)},
      Alike w ⟨p, blank, input⟩ ⟨q, blank, input⟩ → Csv.read_examples w blank calls p input = .ok (examples, p') →
      ∃ q', Csv.read_examples w blank calls q input = .ok (examples, q') := by
  induction calls with
  | zero =>
    intro p q p' input examples _ hread
    cases hread
    exact ⟨q, rfl⟩
  | succ calls ih =>
    intro p q p' input examples h hread
    rw [Csv.read_examples] at hread ⊢
    obtain ⟨⟨n, p₀, ae₀, input₀⟩, hcall, hread⟩ := bind_eq_ok.mp hread
    obtain ⟨⟨p₁, ae₁, input₁⟩, hcall', halike⟩ := h.parse_csv hcall
    obtain rfl : input₁ = input₀ := halike.input
    obtain rfl : ae₁ = ae₀ := halike.ae
    rw [hcall', ok_bind]
    dsimp only at hread ⊢
    split at hread
    · next hn =>
      cases hread
      exact ⟨p₁, if_pos hn⟩
    · next hn =>
      obtain ⟨⟨more, p₂⟩, hrest, hread⟩ := bind_eq_ok.mp hread
      cases hread
      obtain ⟨q', hq⟩ := ih (halike.continues blank) hrest
      exact ⟨q', by rw [if_neg hn, hq]; rfl⟩

end FirstLine

/-! ## The second reading -/

section TwoReadings

variable {w : Workspace L R} {options : CsvParserOptions} {l : L} {r : R} {input : List Byte}
variable {columns : CsvParser} {views : List View} {t t' : TokenStorage}

/-- The cells of the line behind the header line. -/
def next_cells (w : Workspace L R) (options : CsvParserOptions) (input : List Byte) :
    Option Cells :=
  if after_line input = [] then none
  else
    match split w.lib 2 {} (next_line (after_line input)) options.separator true with
    | .ok (views, t) => some (cells w.lib t views)
    | .error _ => none

/-- The input begins with a header line that leaves no trace in the first example. -/
def HeaderLineLeavesNothing (w : Workspace L R) (options : CsvParserOptions) (l : L) (r : R)
    (input : List Byte) : Prop :=
  ∃ views t columns t', FirstLine w options input views t columns t' ∧
    LeavesNothing w columns l r (cells w.lib t views) (next_cells w options input)

/-- The line behind the header line, read into the first example of a reading. -/
theorem finish_call_spec (h : FirstLine w options input views t columns t')
    (hno : options.csv_no_file_header = false) {ae : Example L R} {n m : Nat} {s : Reading L R}
    (hcall : finish_call w n ⟨columns, blank l r, after_line input⟩ = .ok (m, s)) :
    (finish_call w n ⟨columns, ae, after_line input⟩ = .ok (m, s) ↔
      match next_cells w options input with
      | some c => parse_example w columns c ae = .ok s.ae ∧
          parse_example w columns c (blank l r) = .ok s.ae
      | none => ae = blank l r) ∧
    ∀ m' s', finish_call w n ⟨columns, ae, after_line input⟩ = .ok (m', s') → s'.ae = s.ae →
      m' = m ∧ s' = s := by
  have hsecond : columns.line_num = 1 ∧ columns.options.csv_no_file_header = false :=
    ⟨h.line_num_eq, by rw [h.options_eq]; exact hno⟩
  have hcalls : ∀ ae : Example L R, finish_call w n ⟨columns, ae, after_line input⟩ =
      read_line w ⟨columns, ae, after_line input⟩ >>= fun q => .ok (n + q.1, q.2) := by
    intro ae
    exact if_pos hsecond
  rw [hcalls] at hcall ⊢
  unfold next_cells
  by_cases hafter : after_line input = []
  · -- the header is the only line
    rw [hafter, read_line_nil, ok_bind] at hcall ⊢
    cases hcall
    rw [if_pos rfl]
    constructor
    · constructor
      · intro heq
        cases heq
        rfl
      · rintro rfl
        rfl
    · intro m' s' heq hae
      cases heq
      cases hae
      exact ⟨rfl, rfl⟩
  · rw [if_neg hafter, read_line_of_ne hafter, h.line_num_eq] at *
    obtain ⟨⟨n₂, s₂⟩, hread, hs⟩ := bind_eq_ok.mp hcall
    obtain ⟨⟨p, ae₂⟩, hline, hread⟩ := bind_eq_ok.mp hread
    cases hread
    cases hs
    have hfn : ({ columns with line_num := 1 + 1 } : CsvParser).header_fn ≠ [] := h.spec.header_fn
    have hp := parse_csv_line_columns hfn hline
    obtain ⟨hne, views₂, t₂, hsplit, hlength, hexample⟩ := line_of_parse_csv_line hfn hline
    rw [parse_example_with (p := columns) _ rfl] at hexample
    have hsplit' : split w.lib 2 {} (next_line (after_line input)) options.separator true =
        .ok (views₂, t₂) := by
      rw [← h.options_eq]
      exact hsplit
    rw [hsplit', parse_csv_line_kept hfn hne hsplit hlength, parse_example_with (p := columns) _ rfl, hp]
    constructor
    · constructor
      · intro heq
        obtain ⟨⟨n₃, s₃⟩, hread, hs⟩ := bind_eq_ok.mp heq
        obtain ⟨⟨p₃, ae₃⟩, hline₃, hread⟩ := bind_eq_ok.mp hread
        obtain ⟨ae₄, hexample₄, hline₃⟩ := bind_eq_ok.mp hline₃
        cases hline₃
        cases hread
        cases hs
        exact ⟨hexample₄, hexample⟩
      · rintro ⟨hexample', -⟩
        rw [hexample']
        rfl
    · intro m' s' heq hae
      obtain ⟨⟨n₃, s₃⟩, hread, hs⟩ := bind_eq_ok.mp heq
      obtain ⟨⟨p₃, ae₃⟩, hline₃, hread⟩ := bind_eq_ok.mp hread
      obtain ⟨ae₄, hexample₄, hline₃⟩ := bind_eq_ok.mp hline₃
      cases hline₃
      cases hread
      cases hs
      cases hae
      exact ⟨rfl, rfl⟩

theorem FirstLine.unique {views₂ : List View} {t₂ t₂' : TokenStorage} {columns₂ : CsvParser}
    (h : FirstLine w options input views t columns t')
    (h₂ : FirstLine w options input views₂ t₂ columns₂ t₂') :
    views₂ = views ∧ t₂ = t ∧ columns₂ = columns := by
  have hsplit := h₂.split
  rw [h.split] at hsplit
  cases hsplit
  have hset := h₂.set_up
  rw [h.set_up] at hset
  cases hset
  exact ⟨rfl, rfl, rfl⟩

variable {p : CsvParser}

theorem Settling.finish_call {s s' : Reading L R} {n m : Nat} (h : Settling p s)
    (hcall : finish_call w n s = .ok (m, s')) : Settling p s' ∧ n ≤ m := by
  unfold Csv.finish_call at hcall
  split at hcall
  · obtain ⟨⟨more, s₁⟩, hread, hcall⟩ := bind_eq_ok.mp hcall
    cases hcall
    exact ⟨h.read_line hread, Nat.le_add_right _ _⟩
  · cases hcall
    exact ⟨h, Nat.le_refl _⟩

/-- A reading goes on from its first call. -/
theorem read_input_of_call {n : Nat} {s : Reading L R} (hn : n ≠ 0)
    (hcall : parse_csv w ⟨p, blank l r, input⟩ = .ok (n, s)) :
    read_input w (blank l r) p input =
      read_examples w (blank l r) input.length s.parser s.input >>= fun q =>
        .ok (s.ae :: q.1, q.2) := by
  unfold read_input
  rw [read_examples, hcall, ok_bind]
  exact if_neg hn

theorem read_input_nil (p : CsvParser) :
    read_input w (blank l r) p [] = .ok ([], p.reset) := by
  have hline : p.reset.line_num = 0 := by
    unfold CsvParser.reset
    split
    · rfl
    · rfl
  have hcall : parse_csv w ⟨p, blank l r, []⟩ = .ok (0, ⟨p.reset, blank l r, []⟩) := by
    unfold parse_csv
    rw [read_line_nil, ok_bind]
    dsimp only
    rw [hline]
    exact if_neg fun h => absurd h.1 (by decide)
  unfold read_input
  rw [length_nil, read_examples, hcall, ok_bind]
  exact if_pos rfl

/-- The map of the columns is visited in the same order after it was cleared. -/
def VisitsAgain (w : Workspace L R) (options : CsvParserOptions) (input : List Byte) : Prop :=
  ∀ views t columns t', FirstLine w options input views t columns t' →
    w.lib.visits columns.reset.cleared columns.feature_list = visited w columns

end TwoReadings

/-! ## Two readings of a small file -/

/-- A workspace without labels; the files below hold no number but `1`. -/
def small_workspace : Workspace Unit Unit where
  lib := libstdcxx
  hasher := uniform_hash
  hash_seed := 0
  parse_mask := 0x3ffff
  default_label := id
  parse_label l r _ := .ok (l, r)
  string_to_float s := if s = text "1" then Single.one else Single.nan

/-- A header line and one example. -/
def small_file : List Byte := text "a\n1\n"

/-- The numbers of features of the examples under the default namespace. -/
def feature_counts (examples : List (Example Unit Unit)) : List Nat :=
  examples.map fun ae => (ae.feature_space 32).size

/-- A library that visits a map from the other end when it was cleared. -/
def other_order : Workspace Unit Unit :=
  { small_workspace with
    lib := { libstdcxx with
      visits := fun cleared map => if cleared = [] then map else map.reverse
      visits_perm := fun cleared map => by
        split
        · exact .refl map
        · exact reverse_perm map } }

/-- There the second reading has the namespaces in another order. -/
theorem second_reading_in_other_order :
    ∃ examples p, read_input other_order (blank () ()) (fresh { enabled := true }) (text "a|x,b|y\n1,1\n") =
        .ok (examples, p) ∧
      ∃ examples' p', read_input other_order (blank () ()) p.reset (text "a|x,b|y\n1,1\n") = .ok (examples', p') ∧
        examples.map (·.indices) = [[97, 98]] ∧ examples'.map (·.indices) = [[98, 97]] :=
  ⟨_, _, rfl, _, _, rfl, rfl, rfl⟩

end VW.Parsers.Csv
