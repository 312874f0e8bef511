import VowpalWabbit.Flatbuffer.Parser

/-! # Every example of a flatbuffer is delivered once

    Where the parser is in an object is what it has still to deliver: examples, newlines after
    multi-examples, and perhaps a place where it goes beyond what is stored. A call delivers
    the first of these, and is finished when nothing is left.
-/

open Cpp

namespace VW.Flatbuffer

open List Outcome

variable {L N X : Type}

/-! ## Contents -/

/-- What an object has to deliver. -/
inductive Content (L N : Type) where
  | example (eg : Example L N)
  | newline

/-- The example that is delivered is a newline. -/
def Content.is_newline : Content L N → Bool
  | .example eg => eg.is_newline
  | .newline => true

/-- The elements of a vector, none if it is not stored. -/
def elements {A : Type} (v : Option (Vector A)) : List A :=
  match v with
  | some v => v.elements
  | none => []

/-- The examples, and a newline after them. -/
def MultiExample.contents (eg : MultiExample L N) : List (Content L N) :=
  (elements eg.examples).map .example ++ [.newline]

def ExampleCollection.contents (collection : ExampleCollection L N) : List (Content L N) :=
  if collection.is_multiline then (elements collection.multi_examples).flatMap MultiExample.contents
  else (elements collection.examples).map .example

/-- The examples of an object in order, with a newline after each multi-example. -/
def ExampleType.contents : ExampleType L N → List (Content L N)
  | .Example eg => [.example eg]
  | .MultiExample eg => eg.contents
  | .ExampleCollection collection => collection.contents

/-- Reading one example. -/
def read_content (r : Reader L N X) (c : BitVec 64) (ae : Ae X) : Content L N → Outcome (BitVec 64 × Ae X × Status)
  | .example eg => parse_example r c ae eg
  | .newline => .ok (c, { ae with x := r.default_label ae.x, is_newline := true }, .success)

/-- The examples can be read, one after the other, each into an example `ae` that is empty. -/
inductive Reads (r : Reader L N X) (ae : Ae X) : BitVec 64 → List (Content L N) → List (Ae X) → Prop where
  | nil (c : BitVec 64) : Reads r ae c [] []
  | cons {c c' : BitVec 64} {content : Content L N} {contents : List (Content L N)} {ae' : Ae X} {aes : List (Ae X)}
      (head : read_content r c ae content = .ok (c', ae', .success)) (tail : Reads r ae c' contents aes) :
      Reads r ae c (content :: contents) (ae' :: aes)

/-- The vectors that the parser reads are stored, and a collection is not empty. -/
def ExampleType.Stored : ExampleType L N → Prop
  | .Example _ => True
  | .MultiExample eg => eg.examples.isSome
  | .ExampleCollection collection =>
    if collection.is_multiline then
      elements collection.multi_examples ≠ [] ∧ ∀ eg ∈ elements collection.multi_examples, eg.examples.isSome
    else elements collection.examples ≠ []

/-! ## Items -/

/-- What a multi-example has still to deliver from an index on; `none` goes beyond what is
    stored. -/
def MultiExample.items (eg : MultiExample L N) (i : Nat) : List (Option (Content L N)) :=
  match eg.examples with
  | none => [none]
  | some examples => (examples.elements.drop i).map (fun eg => some (.example eg)) ++ [some .newline]

/-- What multi-examples have to deliver, from an index into the first of them on. -/
def multi_items (multi_examples : List (MultiExample L N)) (i : Nat) : List (Option (Content L N)) :=
  match multi_examples with
  | [] => [none]
  | eg :: multi_examples => eg.items i ++ multi_examples.flatMap fun eg => eg.items 0

/-- What the single examples of a collection have to deliver. -/
def single_items (examples : List (Example L N)) : List (Option (Content L N)) :=
  match examples with
  | [] => [none]
  | eg :: examples => (eg :: examples).map fun eg => some (.example eg)

def ExampleCollection.items (collection : ExampleCollection L N) : List (Option (Content L N)) :=
  if collection.is_multiline then multi_items (elements collection.multi_examples) 0
  else single_items (elements collection.examples)

def ExampleType.items : ExampleType L N → List (Option (Content L N))
  | .Example eg => [some (.example eg)]
  | .MultiExample eg => eg.items 0
  | .ExampleCollection collection => collection.items

/-- Between objects. -/
structure Parser.Idle (p : Parser L N) : Prop where
  _active_collection : p._active_collection = false
  _example_index : p._example_index = 0
  _multi_ex_index : p._multi_ex_index = 0
  _active_multi_ex : p._active_multi_ex = false

/-- The index is one into the multi-example. -/
def Parser.Inside (p : Parser L N) (eg : MultiExample L N) : Prop :=
  ∀ examples, eg.examples = some examples → p._multi_ex_index.toNat ≤ examples.elements.length

/-- What the parser has still to deliver of the object it reads. -/
inductive Pending (p : Parser L N) : List (Option (Content L N)) → Prop where
  | idle (h : p.Idle) : Pending p []
  | multi_example {eg : MultiExample L N} (collection : p._active_collection = false) (index : p._example_index = 0)
      (active : p._active_multi_ex = true) (object : p._multi_example_object = some eg) (inside : p.Inside eg) :
      Pending p (eg.items p._multi_ex_index.toNat)
  | multi_line {collection : ExampleCollection L N} {multi_examples : Vector (MultiExample L N)}
      {eg : MultiExample L N} {rest : List (MultiExample L N)} (active : p._active_collection = true)
      (object : p.collection = some collection) (multiline : collection.is_multiline = true)
      (stored : collection.multi_examples = some multi_examples)
      (left : multi_examples.elements.drop p._example_index.toNat = eg :: rest) (inside : p.Inside eg) :
      Pending p (multi_items (eg :: rest) p._multi_ex_index.toNat)
  | single_line {collection : ExampleCollection L N} {examples : Vector (Example L N)} {eg : Example L N}
      {rest : List (Example L N)} (active : p._active_collection = true)
      (object : p.collection = some collection) (multiline : collection.is_multiline = false)
      (stored : collection.examples = some examples)
      (left : examples.elements.drop p._example_index.toNat = eg :: rest) (index : p._multi_ex_index = 0)
      (inactive : p._active_multi_ex = false) :
      Pending p (single_items (eg :: rest))

/-! ## Vectors -/

variable {A : Type}

theorem Vector.size_toNat (v : Vector A) : v.size.toNat = v.elements.length := by
  unfold Vector.size
  rw [BitVec.toNat_ofNat]
  exact Nat.mod_eq_of_lt v.size_lt

variable {i : BitVec 32} {v : Vector A} {rest : List A} {a : A}

theorem Vector.Get_ok (h : v.elements.drop i.toNat = a :: rest) : v.Get i = .ok a := by
  have hget : v.elements[i.toNat]? = some a := by
    rw [← head?_drop, h]
    rfl
  unfold Vector.Get
  rw [hget]

/-- An index into a vector can be counted up. -/
theorem Vector.index_succ (h : i.toNat < v.elements.length) : (i + 1).toNat = i.toNat + 1 := by
  have hsize := v.size_lt
  rw [BitVec.toNat_add]
  exact Nat.mod_eq_of_lt (by
    change i.toNat + 1 < 2 ^ 32
    omega)

theorem drop_cons {xs : List A} {i : Nat} (h : xs.drop i = a :: rest) :
    i < xs.length ∧ xs.drop (i + 1) = rest := by
  constructor
  · by_contra hlt
    rw [drop_eq_nil_of_le (Nat.le_of_not_lt hlt)] at h
    cases h
  · rw [← drop_drop, h]
    rfl

theorem Vector.Get_empty (h : v.elements = []) (i : BitVec 32) : v.Get i = Outcome.undefined := by
  unfold Vector.Get
  rw [h]
  rfl

theorem elements_cons {v : Option (Vector A)} (h : elements v = a :: rest) :
    ∃ stored, v = some stored ∧ stored.elements = a :: rest := by
  cases v with
  | none => cases h
  | some v => exact ⟨v, rfl, h⟩

/-! ## One call -/

/-- What a call delivers: the first item, if it is stored and can be read. -/
def Delivers (r : Reader L N X) (p : Parser L N) (ae : Ae X) (finished : Status) (x : Outcome (Parsed L N X)) :
    List (Option (Content L N)) → Prop
  | [] => True
  | none :: _ => x = undefined
  | some content :: rest => ∀ c' ae', read_content r p._c_hash ae content = .ok (c', ae', .success) →
      ∃ p', x = .ok (p', ae', if rest = [] then finished else .success) ∧ p'._c_hash = c' ∧
        p'._flatbuffer_pointer = p._flatbuffer_pointer ∧ Pending p' rest

variable {r : Reader L N X} {p : Parser L N} {ae : Ae X} {finished : Status}

variable {f : Parser L N → Ae X → Outcome (Parsed L N X)} {x : Outcome (Parsed L N X)}

theorem return_if_fail_ok {p' : Parser L N} {ae' : Ae X} (h : x = .ok (p', ae', .success)) :
    return_if_fail x f = f p' ae' := by
  subst h
  rfl

theorem return_if_fail_undefined (h : x = Outcome.undefined) :
    return_if_fail x f = undefined := by
  subst h
  rfl

theorem Parser.parse_example_ok {eg : Example L N} {c' : BitVec 64} {ae' : Ae X}
    (h : Flatbuffer.parse_example r p._c_hash ae eg = .ok (c', ae', .success)) :
    p.parse_example r ae eg = .ok ({ p with _c_hash := c' }, ae', .success) := by
  unfold Parser.parse_example
  rw [h]
  rfl

/-- What is left of a multi-example: examples that are stored and a newline, or nothing that is
    stored. -/
theorem MultiExample.items_cases (eg : MultiExample L N) (hinside : p.Inside eg) :
    eg.examples = none ∨ ∃ examples, eg.examples = some examples ∧
      (examples.elements.length = p._multi_ex_index.toNat ∨
        ∃ e rest, examples.elements.drop p._multi_ex_index.toNat = e :: rest) := by
  cases hexamples : eg.examples with
  | none => exact .inl rfl
  | some examples =>
    refine .inr ⟨examples, rfl, ?_⟩
    cases hdrop : examples.elements.drop p._multi_ex_index.toNat with
    | nil => exact .inl (Nat.le_antisymm (drop_eq_nil_iff.mp hdrop) (hinside examples hexamples))
    | cons e rest => exact .inr ⟨e, rest, rfl⟩

variable {eg : MultiExample L N}

/-- A call in a multi-example delivers its first item. -/
theorem parse_multi_example_spec (r : Reader L N X) (p : Parser L N) (ae : Ae X)
    (hinside : p.Inside eg) :
    (eg.items p._multi_ex_index.toNat = [none] ∧ parse_multi_example r p ae eg = Outcome.undefined) ∨
    (eg.items p._multi_ex_index.toNat = [some .newline] ∧
      parse_multi_example r p ae eg =
        .ok (p.reset_active_multi_ex, { ae with x := r.default_label ae.x, is_newline := true }, .success)) ∨
    ∃ e, eg.items p._multi_ex_index.toNat = some (.example e) :: eg.items (p._multi_ex_index + 1).toNat ∧
      Parser.Inside { p with _multi_ex_index := p._multi_ex_index + 1 } eg ∧
      ∀ c' ae', parse_example r p._c_hash ae e = .ok (c', ae', .success) →
        parse_multi_example r p ae eg =
          .ok ({ p with _c_hash := c', _multi_ex_index := p._multi_ex_index + 1 }, ae', .success) := by
  unfold parse_multi_example
  rcases eg.items_cases hinside with hnone | ⟨examples, hsome, hlength | ⟨e, rest, hdrop⟩⟩
  · refine .inl ⟨?_, ?_⟩
    · unfold MultiExample.items
      rw [hnone]
    · rw [hnone]
  · refine .inr (.inl ⟨?_, ?_⟩)
    · unfold MultiExample.items
      rw [hsome, ← hlength]
      dsimp only
      rw [drop_length]
      rfl
    · rw [hsome]
      exact if_pos (BitVec.le_def.mpr (by rw [examples.size_toNat, hlength]))
  · obtain ⟨hlt, hrest⟩ := drop_cons hdrop
    have hsucc := Vector.index_succ hlt
    refine .inr (.inr ⟨e, ?_, ?_, fun c' ae' hread => ?_⟩)
    · unfold MultiExample.items
      rw [hsome, hsucc]
      dsimp only
      rw [hdrop, hrest]
      rfl
    · intro examples' hexamples'
      rw [hsome] at hexamples'
      cases hexamples'
      change (p._multi_ex_index + 1).toNat ≤ _
      rw [hsucc]
      exact hlt
    · rw [hsome]
      dsimp only
      rw [if_neg (by rw [BitVec.le_def, examples.size_toNat]; exact Nat.not_le.mpr hlt), Vector.Get_ok hdrop,
        ok_bind]
      -- the label is made the default one once more
      have hagain : parse_example r p._c_hash { ae with x := r.default_label ae.x } e =
          .ok (c', ae', .success) := by
        unfold parse_example at hread ⊢
        rw [r.default_label_idem]
        exact hread
      rw [return_if_fail_ok (Parser.parse_example_ok hagain)]

theorem MultiExample.items_ne_nil (eg : MultiExample L N) (i : Nat) : eg.items i ≠ [] := by
  unfold MultiExample.items
  split
  · exact cons_ne_nil _ _
  · exact append_ne_nil_of_right_ne_nil _ (cons_ne_nil _ _)

/-- The index of a collection goes on to the next item, or the collection is finished. -/
theorem Parser.advance_spec (h : v.elements.drop p._example_index.toNat = a :: rest) :
    (rest = [] ∧ p.advance v.size = { p with _example_index := 0, _active_collection := false }) ∨
      (rest ≠ [] ∧ p.advance v.size = { p with _example_index := p._example_index + 1 } ∧
        v.elements.drop (p._example_index + 1).toNat = rest) := by
  obtain ⟨hlt, hrest⟩ := drop_cons h
  have hsucc := Vector.index_succ hlt
  have hlength : (v.elements.drop p._example_index.toNat).length = rest.length + 1 := by
    rw [h]
    rfl
  rw [length_drop] at hlength
  unfold Parser.advance
  by_cases hempty : rest = []
  · refine .inl ⟨hempty, if_pos (BitVec.eq_of_toNat_eq ?_)⟩
    rw [hempty, length_nil] at hlength
    rw [hsucc, v.size_toNat]
    omega
  · refine .inr ⟨hempty, if_neg fun heq => hempty ?_, by rw [hsucc, hrest]⟩
    have hsize : p._example_index.toNat + 1 = v.elements.length := by
      rw [← hsucc, ← v.size_toNat]
      exact congrArg BitVec.toNat heq
    exact eq_nil_of_length_eq_zero (by omega)

/-- Inside of a multi-example that is an object of its own. -/
theorem multi_example_delivers (r : Reader L N X) (p : Parser L N) (ae : Ae X) (finished : Status)
    (collection : p._active_collection = false) (index : p._example_index = 0)
    (active : p._active_multi_ex = true) (object : p._multi_example_object = some eg)
    (inside : p.Inside eg) :
    Delivers r p ae finished
      (return_if_fail (parse_multi_example r p ae eg) fun p ae =>
        .ok (p, ae, if p._active_multi_ex then .success else finished))
      (eg.items p._multi_ex_index.toNat) := by
  rcases parse_multi_example_spec r p ae inside with ⟨hitems, hcall⟩ | ⟨hitems, hcall⟩ |
    ⟨e, hitems, hinside, hcall⟩
  · rw [hitems]
    exact return_if_fail_undefined hcall
  · rw [hitems]
    intro c' ae' hread
    cases hread
    exact ⟨p.reset_active_multi_ex, return_if_fail_ok hcall, rfl, rfl, .idle ⟨collection, index, rfl, rfl⟩⟩
  · rw [hitems]
    intro c' ae' hread
    let p' : Parser L N := { p with _c_hash := c', _multi_ex_index := p._multi_ex_index + 1 }
    have hpending : Pending p' (eg.items p'._multi_ex_index.toNat) :=
      .multi_example collection index active object hinside
    refine ⟨p', ?_, rfl, rfl, hpending⟩
    rw [return_if_fail_ok (hcall c' ae' hread), if_neg (eg.items_ne_nil _), if_pos active]

variable {collection : ExampleCollection L N}

/-- Inside of a collection of multi-examples. -/
theorem multi_line_delivers (r : Reader L N X) (p : Parser L N) (ae : Ae X) (finished : Status)
    {multi_examples : Vector (MultiExample L N)} {rest : List (MultiExample L N)}
    (active : p._active_collection = true) (object : p.collection = some collection)
    (multiline : collection.is_multiline = true)
    (stored : collection.multi_examples = some multi_examples)
    (left : multi_examples.elements.drop p._example_index.toNat = eg :: rest)
    (inside : p.Inside eg) :
    Delivers r p ae finished
      (return_if_fail (process_collection_item r p ae collection) fun p ae =>
        .ok (p, ae, if p._active_collection then .success else finished))
      (multi_items (eg :: rest) p._multi_ex_index.toNat) := by
  -- the multi-example is looked up for each of its examples
  let p₁ : Parser L N := { p with _active_multi_ex := true, _multi_example_object := some eg }
  have hcall : process_collection_item r p ae collection =
      return_if_fail (parse_multi_example r p₁ ae eg)
        fun p ae => .ok (if p._active_multi_ex then p else p.advance multi_examples.size, ae, .success) := by
    unfold process_collection_item
    rw [if_pos multiline, stored]
    dsimp only
    rw [Vector.Get_ok left, ok_bind]
  rw [hcall]
  unfold multi_items
  dsimp only
  rcases parse_multi_example_spec r p₁ ae inside with
    ⟨hitems, hcall⟩ | ⟨hitems, hcall⟩ | ⟨e, hitems, hinside, hcall⟩
  · rw [show eg.items p._multi_ex_index.toNat = [none] from hitems]
    exact return_if_fail_undefined (return_if_fail_undefined hcall)
  · -- the newline, after which the next multi-example comes
    rw [show eg.items p._multi_ex_index.toNat = [some .newline] from hitems, return_if_fail_ok hcall,
      if_neg (by simp [Parser.reset_active_multi_ex]), return_if_fail_ok rfl]
    intro c' ae' hread
    cases hread
    rcases Parser.advance_spec (p := p₁.reset_active_multi_ex) left with ⟨rfl, hadvance⟩ | ⟨hne, hadvance, hleft⟩
    · rw [hadvance]
      exact ⟨_, rfl, rfl, rfl, .idle ⟨rfl, rfl, rfl, rfl⟩⟩
    · rw [hadvance]
      cases rest with
      | nil => exact absurd rfl hne
      | cons eg' rest =>
        let p' : Parser L N := { p₁.reset_active_multi_ex with _example_index := p._example_index + 1 }
        have hpending : Pending p' (multi_items (eg' :: rest) p'._multi_ex_index.toNat) :=
          .multi_line active object multiline stored hleft fun _ _ => Nat.zero_le _
        have hne : eg'.items 0 ++ rest.flatMap (fun eg => eg.items 0) ≠ [] :=
          append_ne_nil_of_left_ne_nil (eg'.items_ne_nil 0) _
        refine ⟨p', congrArg (fun status => Except.ok (p', _, status)) ?_, rfl, rfl, hpending⟩
        exact (if_pos active).trans (if_neg hne).symm
  · rw [show eg.items p._multi_ex_index.toNat = _ from hitems]
    intro c' ae' hread
    let p' : Parser L N := { p₁ with _c_hash := c', _multi_ex_index := p._multi_ex_index + 1 }
    have hpending : Pending p' (multi_items (eg :: rest) p'._multi_ex_index.toNat) :=
      .multi_line active object multiline stored left hinside
    have hne : eg.items p'._multi_ex_index.toNat ++ rest.flatMap (fun eg => eg.items 0) ≠ [] :=
      append_ne_nil_of_left_ne_nil (eg.items_ne_nil _) _
    rw [return_if_fail_ok (hcall c' ae' hread), if_pos rfl, return_if_fail_ok rfl]
    refine ⟨p', congrArg (fun status => Except.ok (p', _, status)) ?_, rfl, rfl, hpending⟩
    exact (if_pos active).trans (if_neg hne).symm

/-- Inside of a collection of examples. -/
theorem single_line_delivers (r : Reader L N X) (p : Parser L N) (ae : Ae X) (finished : Status)
    {examples : Vector (Example L N)} {eg : Example L N} {rest : List (Example L N)}
    (active : p._active_collection = true) (object : p.collection = some collection)
    (multiline : collection.is_multiline = false) (stored : collection.examples = some examples)
    (left : examples.elements.drop p._example_index.toNat = eg :: rest)
    (index : p._multi_ex_index = 0) (inactive : p._active_multi_ex = false) :
    Delivers r p ae finished
      (return_if_fail (process_collection_item r p ae collection) fun p ae =>
        .ok (p, ae, if p._active_collection then .success else finished))
      (single_items (eg :: rest)) := by
  intro c' ae' hread
  have hcall : process_collection_item r p ae collection =
      .ok (Parser.advance { p with _c_hash := c' } examples.size, ae', .success) := by
    unfold process_collection_item
    rw [if_neg (by rw [multiline]; simp), stored]
    dsimp only
    rw [Vector.Get_ok left, ok_bind, return_if_fail_ok (Parser.parse_example_ok hread)]
  rw [return_if_fail_ok hcall]
  rcases Parser.advance_spec (p := { p with _c_hash := c' }) left with ⟨rfl, hadvance⟩ | ⟨hne, hadvance, hleft⟩
  · rw [hadvance]
    exact ⟨_, rfl, rfl, rfl, .idle ⟨rfl, rfl, index, inactive⟩⟩
  · rw [hadvance]
    cases rest with
    | nil => exact absurd rfl hne
    | cons eg' rest =>
      let p' : Parser L N := { p with _c_hash := c', _example_index := p._example_index + 1 }
      have hpending : Pending p' (single_items (eg' :: rest)) :=
        .single_line active object multiline stored hleft index inactive
      refine ⟨p', ?_, rfl, rfl, hpending⟩
      rw [if_pos active]
      rfl

/-- The first call for an object. -/
theorem parse_object_delivers {obj : ExampleType L N} (hidle : p.Idle) (hdata : p._data = some ⟨some obj⟩) :
    Delivers r p ae finished (parse_object r p ae finished (some obj)) obj.items := by
  have hcollection : ∀ {collection}, obj = .ExampleCollection collection → p.collection = some collection := by
    intro collection hobj
    unfold Parser.collection
    rw [hdata, hobj]
  cases obj with
  | Example eg =>
    intro c' ae' hread
    have hcall : parse_object r p ae finished (some (.Example eg)) =
      .ok ({ p with _c_hash := c' }, ae', finished) := by
      change return_if_fail (p.parse_example r ae eg) (fun p ae => .ok (p, ae, finished)) = _
      rw [return_if_fail_ok (Parser.parse_example_ok hread)]
    exact ⟨{ p with _c_hash := c' }, hcall, rfl, rfl,
      .idle ⟨hidle._active_collection, hidle._example_index, hidle._multi_ex_index, hidle._active_multi_ex⟩⟩
  | MultiExample eg =>
    let p₁ : Parser L N := { p with _multi_example_object := some eg, _active_multi_ex := true }
    have hinside : p₁.Inside eg := by
      intro examples _
      rw [show p₁._multi_ex_index = 0 from hidle._multi_ex_index]
      exact Nat.zero_le _
    have hdelivers := multi_example_delivers r p₁ ae finished
      hidle._active_collection hidle._example_index rfl rfl hinside
    rw [show p₁._multi_ex_index = 0 from hidle._multi_ex_index] at hdelivers
    exact hdelivers
  | ExampleCollection collection =>
    let p₁ : Parser L N := { p with _active_collection := true }
    have hobject : p₁.collection = some collection := hcollection rfl
    change Delivers r p₁ ae finished
      (return_if_fail (process_collection_item r p₁ ae collection) fun p ae =>
        .ok (p, ae, if p._active_collection then .success else finished)) collection.items
    have hindex : (0 : BitVec 32) = p₁._multi_ex_index := hidle._multi_ex_index.symm
    unfold ExampleCollection.items
    cases hmultiline : collection.is_multiline with
    | true =>
      rw [if_pos rfl]
      cases hleft : elements collection.multi_examples with
      | nil =>
        refine return_if_fail_undefined ?_
        unfold process_collection_item
        rw [if_pos hmultiline]
        cases hstored : collection.multi_examples with
        | none => rfl
        | some multi_examples =>
          rw [hstored] at hleft
          dsimp only
          rw [Vector.Get_empty hleft, undefined_bind]
      | cons eg rest =>
        obtain ⟨multi_examples, hstored, hleft⟩ := elements_cons hleft
        have hinside : p₁.Inside eg := by
          intro examples _
          rw [← hindex]
          exact Nat.zero_le _
        have hdelivers := multi_line_delivers r p₁ ae finished rfl hobject hmultiline hstored
          (by rw [show p₁._example_index = 0 from hidle._example_index]; exact hleft) hinside
        rw [← hindex] at hdelivers
        exact hdelivers
    | false =>
      rw [if_neg (by simp)]
      cases hleft : elements collection.examples with
      | nil =>
        refine return_if_fail_undefined ?_
        unfold process_collection_item
        rw [if_neg (by rw [hmultiline]; simp)]
        cases hstored : collection.examples with
        | none => rfl
        | some examples =>
          rw [hstored] at hleft
          dsimp only
          rw [Vector.Get_empty hleft, undefined_bind]
      | cons eg rest =>
        obtain ⟨examples, hstored, hleft⟩ := elements_cons hleft
        exact single_line_delivers r p₁ ae finished rfl hobject hmultiline hstored
          (by rw [show p₁._example_index = 0 from hidle._example_index]; exact hleft) hindex.symm
          hidle._active_multi_ex

end VW.Flatbuffer
