import VowpalWabbit.Flatbuffer.Delivery

/-! # Root objects, read call by call or as a span

    The calls for a root object deliver its items. A span is read up to the first newline, so
    that what comes after it stays in the parser.
-/

open Cpp Nat

namespace VW.Flatbuffer

open List Outcome ExampleType MultiExample

variable {L N X : Type}

/-! ## Items and contents -/

/-- The items are the contents, but for what is not stored. -/
def Agree (items : List (Option (Content L N))) (contents : List (Content L N)) : Prop :=
  List.Forall₂ (fun item content => item = none ∨ item = some content) items contents

theorem Agree.refl (contents : List (Content L N)) : Agree (contents.map some) contents := by
  induction contents with
  | nil => exact .nil
  | cons content contents ih => exact .cons (.inr rfl) ih

theorem Agree.append {items items' : List (Option (Content L N))} {contents contents' : List (Content L N)}
    (h : Agree items contents) (h' : Agree items' contents') : Agree (items ++ items') (contents ++ contents') := by
  induction h with
  | nil => exact h'
  | cons head _ ih => exact .cons head ih

/-- Items that are all stored are the contents. -/
theorem Agree.eq {items : List (Option (Content L N))} {contents : List (Content L N)} (h : Agree items contents)
    (hstored : none ∉ items) : items = contents.map some := by
  induction h with
  | nil => rfl
  | cons head _ ih =>
    rcases head with rfl | rfl
    · exact absurd mem_cons_self hstored
    · rw [ih fun hmem => hstored (mem_cons_of_mem _ hmem)]
      rfl

theorem Agree.ne_nil {items : List (Option (Content L N))} {contents : List (Content L N)} (h : Agree items contents)
    (hne : items ≠ []) : contents ≠ [] := by
  intro hempty
  subst hempty
  cases h
  exact hne rfl

theorem MultiExample.agree (eg : MultiExample L N) : Agree (eg.items 0) eg.contents := by
  unfold items MultiExample.contents elements
  cases eg.examples with
  | none => exact .cons (.inl rfl) .nil
  | some examples =>
    have h := Agree.refl (examples.elements.map Content.example ++ [Content.newline] : List (Content L N))
    rw [map_append, map_map] at h
    exact h

theorem MultiExample.none_mem (eg : MultiExample L N) : none ∈ eg.items 0 ↔ ¬ eg.examples.isSome := by
  unfold items
  cases eg.examples with
  | none => simp
  | some examples => simp

theorem multi_examples_agree (multi_examples : List (MultiExample L N)) :
    Agree (multi_examples.flatMap fun eg => eg.items 0) (multi_examples.flatMap MultiExample.contents) := by
  induction multi_examples with
  | nil => exact .nil
  | cons eg multi_examples ih => exact (eg.agree).append ih

/-- An object of which something is not stored has nothing in it, or the calls for it get to what
    is not stored. -/
theorem ExampleType.agree (obj : ExampleType L N) :
    (obj.items = [none] ∧ obj.contents = [] ∧ ¬ obj.Stored) ∨
      (Agree obj.items obj.contents ∧ obj.items ≠ [] ∧ (none ∈ obj.items ↔ ¬ obj.Stored)) := by
  cases obj with
  | Example eg => exact .inr ⟨.cons (.inr rfl) .nil, cons_ne_nil _ _, by simp [items, Stored]⟩
  | MultiExample eg => exact .inr ⟨eg.agree, eg.items_ne_nil 0, eg.none_mem⟩
  | ExampleCollection collection =>
    unfold items contents ExampleCollection.items ExampleCollection.contents
      Stored
    dsimp only
    cases collection.is_multiline with
    | true =>
      simp only [if_pos]
      cases elements collection.multi_examples with
      | nil => exact .inl ⟨rfl, rfl, fun h => h.1 rfl⟩
      | cons eg rest =>
        refine .inr ⟨multi_examples_agree (eg :: rest), append_ne_nil_of_left_ne_nil (eg.items_ne_nil 0) _, ?_⟩
        change none ∈ (eg :: rest).flatMap (fun eg => eg.items 0) ↔ _
        rw [mem_flatMap]
        simp only [none_mem, ne_eq, reduceCtorEq, not_false_eq_true, true_and, not_forall, exists_prop]
    | false =>
      simp only [Bool.false_eq_true, if_neg, not_false_eq_true]
      cases elements collection.examples with
      | nil => exact .inl ⟨rfl, rfl, fun h => h rfl⟩
      | cons eg rest =>
        have h := Agree.refl ((eg :: rest).map Content.example : List (Content L N))
        rw [map_map] at h
        exact .inr ⟨h, cons_ne_nil _ _, by simp [single_items]⟩

variable {obj : ExampleType L N} {c c' : BitVec 64} {aes : List (Ae X)} {ae' : Ae X}

theorem ExampleType.Stored.items (h : obj.Stored) :
    obj.items = obj.contents.map some ∧ obj.contents ≠ [] := by
  rcases obj.agree with ⟨_, _, hnot⟩ | ⟨hagree, hne, hmem⟩
  · exact absurd h hnot
  · exact ⟨hagree.eq fun hnone => hmem.mp hnone h, hagree.ne_nil hne⟩

/-! ## The calls -/

/-- The parser reads the buffer that it is called with. -/
def Parser.Matching (p : Parser L N) : Option (Span L N) → Prop
  | some span => p._flatbuffer_pointer = span.address
  | none => True

/-- The next call delivers the first of the items and leaves `buf'`. -/
def Ready (r : Reader L N X) (ae : Ae X) (buffer_pointer : Option (Span L N)) (c : BitVec 64) (p : Parser L N)
    (buf buf' : IoBuf L N) (items : List (Option (Content L N))) : Prop :=
  ∃ p₀ x, parse_examples r p buf ae buffer_pointer = (do
      let parsed ← x
      return (parsed, buf')) ∧
    p₀._c_hash = c ∧ p₀.Matching buffer_pointer ∧ Delivers r p₀ ae (return_success_finished buffer_pointer) x items

variable {r : Reader L N X} {p : Parser L N} {ae : Ae X} {buffer_pointer : Option (Span L N)} {buf buf' : IoBuf L N}
  {items : List (Option (Content L N))}

/-- In the middle of an object the next call goes on with it. -/
theorem Pending.ready (h : Pending p items) (hne : items ≠ []) (hmatching : p.Matching buffer_pointer)
    (r : Reader L N X) (ae : Ae X) (buf : IoBuf L N) : Ready r ae buffer_pointer p._c_hash p buf buf items := by
  have hcheck : p.check_pointer buffer_pointer = p := by
    unfold Parser.check_pointer
    cases buffer_pointer with
    | none => rfl
    | some span => exact if_neg fun hneq => hneq hmatching
  unfold Ready parse_examples
  rw [hcheck]
  cases h with
  | idle _ => exact absurd rfl hne
  | multi_example collection index active object inside =>
    refine ⟨p, _, ?_, rfl, hmatching, multi_example_delivers r p ae _ collection index active object inside⟩
    unfold parse_active_multi_example
    rw [if_neg (by rw [collection]; simp), if_pos active, object]
  | multi_line active object multiline stored left inside =>
    refine ⟨p, _, ?_, rfl, hmatching, multi_line_delivers r p ae _ active object multiline stored left inside⟩
    unfold process_collection
    rw [if_pos active, object]
  | single_line active object multiline stored left index inactive =>
    refine ⟨p, _, ?_, rfl, hmatching,
      single_line_delivers r p ae _ active object multiline stored left index inactive⟩
    unfold process_collection
    rw [if_pos active, object]

/-- The parser is between objects exactly when nothing is left to deliver. -/
theorem Pending.idle_iff (h : Pending p items) : p.Idle ↔ items = [] := by
  cases h with
  | idle hidle => exact iff_of_true hidle rfl
  | multi_example collection index active object inside =>
    refine iff_of_false (fun hidle => ?_) (items_ne_nil _ _)
    rw [hidle._active_multi_ex] at active
    cases active
  | multi_line active object multiline stored left inside =>
    refine iff_of_false (fun hidle => ?_) (append_ne_nil_of_left_ne_nil (items_ne_nil _ _) _)
    rw [hidle._active_collection] at active
    cases active
  | single_line active object multiline stored left index inactive =>
    refine iff_of_false (fun hidle => ?_) (cons_ne_nil _ _)
    rw [hidle._active_collection] at active
    cases active

theorem Parser.Idle.check_pointer (h : p.Idle) (buffer_pointer : Option (Span L N)) :
    (p.check_pointer buffer_pointer).Idle ∧ (p.check_pointer buffer_pointer)._c_hash = p._c_hash := by
  unfold Parser.check_pointer
  cases buffer_pointer with
  | none => exact ⟨h, rfl⟩
  | some span =>
    dsimp only
    split
    · exact ⟨⟨rfl, rfl, rfl, rfl⟩, rfl⟩
    · exact ⟨h, rfl⟩

/-- The object that the parser begins. -/
def Parser.begin (p : Parser L N) (address : Nat) (obj : ExampleType L N) : Parser L N :=
  { p with _flatbuffer_pointer := address, _data := some ⟨some obj⟩ }

/-- Between objects the next call begins one. -/
theorem Parser.Idle.ready (h : p.Idle) (obj : ExampleType L N) (address : Nat)
    (buffer_pointer : Option (Span L N)) (buf buf' : IoBuf L N)
    (hmatching : ∀ p : Parser L N, (p.begin address obj).Matching buffer_pointer)
    (hparse : ∀ p, parse p buf buffer_pointer = (p.begin address obj, buf', .success))
    (r : Reader L N X) (ae : Ae X) :
    Ready r ae buffer_pointer p._c_hash p buf buf' obj.items := by
  obtain ⟨hidle, hhash⟩ := h.check_pointer buffer_pointer
  have hbegin : (Parser.begin (p.check_pointer buffer_pointer) address obj).Idle :=
    ⟨hidle.1, hidle.2, hidle.3, hidle.4⟩
  unfold Ready parse_examples
  refine ⟨(p.check_pointer buffer_pointer).begin address obj, _, ?_, hhash, hmatching _,
    parse_object_delivers hbegin rfl⟩
  rw [if_neg (by rw [hidle._active_collection]; simp), if_neg (by rw [hidle._active_multi_ex]; simp)]
  unfold parse_new_object
  rw [hparse]
  rfl

/-- Some calls: each example with its status, and what they leave. -/
def parse_calls (r : Reader L N X) (ae : Ae X) (buffer_pointer : Option (Span L N)) :
    Nat → Parser L N → IoBuf L N → Outcome (List (Ae X × Status) × Parser L N × IoBuf L N)
  | 0, p, buf => .ok ([], p, buf)
  | n + 1, p, buf => do
    let ((p, ae', status), buf) ← parse_examples r p buf ae buffer_pointer
    let (outs, p, buf) ← parse_calls r ae buffer_pointer n p buf
    return ((ae', status) :: outs, p, buf)

/-- The examples with their statuses: the last one is the last of its object. -/
def statuses (finished : Status) : List (Ae X) → List (Ae X × Status)
  | [] => []
  | ae :: aes => (ae, if aes.isEmpty then finished else .success) :: statuses finished aes

theorem Reads.isEmpty {contents : List (Content L N)}
    (h : Reads r ae c contents aes) : aes.isEmpty = contents.isEmpty := by
  cases h with
  | nil => rfl
  | cons => rfl

/-- One call, and what is ready after it. -/
theorem Ready.call {content : Content L N} {rest : List (Option (Content L N))}
    (h : Ready r ae buffer_pointer c p buf buf' (some content :: rest))
    (hread : read_content r c ae content = .ok (c', ae', .success)) :
    ∃ p', parse_examples r p buf ae buffer_pointer =
        .ok ((p', ae', if rest = [] then return_success_finished buffer_pointer else .success), buf') ∧
      (p'.Idle ↔ rest = []) ∧ (rest ≠ [] → Ready r ae buffer_pointer c' p' buf' buf' rest) := by
  obtain ⟨p₀, x, hcall, rfl, hmatching, hdelivers⟩ := h
  obtain ⟨p', hx, rfl, hpointer, hpending⟩ := hdelivers c' ae' hread
  have hmatching' : p'.Matching buffer_pointer := by
    cases buffer_pointer with
    | none => trivial
    | some span => exact hpointer.trans hmatching
  exact ⟨p', by rw [hcall, hx]; rfl, hpending.idle_iff,
    fun hne => hpending.ready hne hmatching' r ae buf'⟩

/-- The calls for an object give its examples. -/
theorem Ready.calls {contents : List (Content L N)}
    (hreads : Reads r ae c contents aes) :
    ∀ {p : Parser L N} {buf : IoBuf L N}, contents ≠ [] →
      Ready r ae buffer_pointer c p buf buf' (contents.map some) →
      ∃ p', parse_calls r ae buffer_pointer contents.length p buf =
          .ok (statuses (return_success_finished buffer_pointer) aes, p', buf') ∧ p'.Idle := by
  induction hreads with
  | nil => exact fun hne => absurd rfl hne
  | @cons c c' content contents ae' aes head tail ih =>
    intro p buf _ hready
    obtain ⟨p₁, hcall, hidle, hnext⟩ := hready.call head
    rw [length_cons, parse_calls, hcall, ok_bind]
    dsimp only
    by_cases hempty : contents = []
    · subst hempty
      cases tail
      exact ⟨p₁, rfl, hidle.mpr rfl⟩
    · have hne : contents.map some ≠ [] := fun h => hempty (map_eq_nil_iff.mp h)
      obtain ⟨p', hcalls, hidle'⟩ := ih hempty (hnext hne)
      refine ⟨p', ?_, hidle'⟩
      rw [hcalls, ok_bind, if_neg hne, statuses, tail.isEmpty, if_neg (by simpa using hempty)]
      rfl

/-- The calls for an object of which something is not stored come to it. -/
theorem Ready.calls_undefined {contents : List (Content L N)}
    (hreads : Reads r ae c contents aes) :
    ∀ {items : List (Option (Content L N))} {p : Parser L N} {buf : IoBuf L N}, Agree items contents →
      none ∈ items → Ready r ae buffer_pointer c p buf buf' items →
      parse_calls r ae buffer_pointer contents.length p buf = undefined := by
  induction hreads with
  | nil =>
    intro items p buf hagree hmem
    cases hagree
    cases hmem
  | @cons c c' content contents ae' aes head tail ih =>
    intro items p buf hagree hmem hready
    cases hagree with
    | @cons item _ items _ hitem hagree =>
      rw [length_cons, parse_calls]
      rcases hitem with rfl | rfl
      · obtain ⟨p₀, x, hcall, _, _, hdelivers⟩ := hready
        rw [hcall, show x = undefined from hdelivers]
        rfl
      · have hmem' : none ∈ items := (mem_cons.mp hmem).resolve_left nofun
        obtain ⟨p₁, hcall, _, hnext⟩ := hready.call head
        rw [hcall, ok_bind]
        dsimp only
        rw [ih hagree hmem' (hnext (ne_nil_of_mem hmem')), undefined_bind]

/-! ## Spans -/

theorem parse_example_newline {eg : Example L N} {status : Status}
    (h : parse_example r c ae eg = .ok (c', ae', status)) : ae'.is_newline = eg.is_newline := by
  unfold parse_example at h
  dsimp only at h
  obtain ⟨⟨x, status'⟩, _, h⟩ := bind_eq_ok.mp h
  dsimp only at h
  split at h
  · unfold parse_tag_and_namespaces at h
    dsimp only at h
    split at h
    · cases h
    · obtain ⟨⟨c'', x', status''⟩, _, h⟩ := bind_eq_ok.mp h
      cases h
      cases eg.tag with
      | none => rfl
      | some tag => rfl
  · cases h
    rfl

/-- An example is a newline when what is delivered is one. -/
theorem read_content_newline {content : Content L N} {status : Status}
    (h : read_content r c ae content = .ok (c', ae', status)) : ae'.is_newline = content.is_newline := by
  rcases content with eg | _
  · exact parse_example_newline h
  · cases h
    rfl

theorem read_span_loop_turn {span : Span L N} {p₁ : Parser L N} {last : Prop} [Decidable last]
    (hcall : parse_examples r p ⟨[], false⟩ ae (some span) =
      .ok ((p₁, ae', if last then .nothing_to_parse else .success), ⟨[], false⟩))
    (examples : List (Ae X)) (fuel : Nat) :
    read_span_loop r ae span (fuel + 1) p ae examples =
      if last ∨ ae'.is_newline then .ok (p₁, examples ++ if ae'.is_newline then [] else [ae'], .success)
      else read_span_loop r ae span fuel p₁ ae (examples ++ [ae']) := by
  rw [read_span_loop, hcall, ok_bind]
  by_cases hlast : last
  · cases hnewline : ae'.is_newline with
    | true => simp [hlast, hnewline]
    | false => simp [hlast, hnewline]
  · cases hnewline : ae'.is_newline with
    | true => simp [hlast, hnewline]
    | false => simp [hlast, hnewline]

/-- The examples that are collected from a span, when no newline is followed by an example. -/
theorem Ready.span {span : Span L N} {contents : List (Content L N)}
    (hreads : Reads r ae c contents aes) :
    ∀ {p : Parser L N} (examples : List (Ae X)) {fuel : Nat}, contents ≠ [] →
      (∀ content ∈ contents.dropLast, content.is_newline = false) → contents.length ≤ fuel →
      Ready r ae (some span) c p ⟨[], false⟩ ⟨[], false⟩ (contents.map some) →
      ∃ p', read_span_loop r ae span fuel p ae examples =
          .ok (p', examples ++ aes.filter (fun ae => !ae.is_newline), .success) ∧ p'.Idle := by
  induction hreads with
  | nil => exact fun _ _ hne => absurd rfl hne
  | @cons c c' content contents ae' aes head tail ih =>
    intro p examples fuel _ hnewline hfuel hready
    obtain ⟨p₁, hcall, hidle, hnext⟩ := hready.call head
    obtain ⟨fuel, rfl⟩ : ∃ n, fuel = n + 1 := exists_eq_add_one_of_ne_zero (by
      rw [length_cons] at hfuel
      omega)
    rw [read_span_loop_turn hcall]
    by_cases hempty : contents = []
    · subst hempty
      cases tail
      refine ⟨p₁, ?_, hidle.mpr rfl⟩
      rw [if_pos (.inl rfl)]
      cases h : ae'.is_newline with
      | true => simp [h]
      | false => simp [h]
    · have hne : contents.map some ≠ [] := fun h => hempty (map_eq_nil_iff.mp h)
      rw [dropLast_cons_of_ne_nil hempty] at hnewline
      have hhead : ae'.is_newline = false := by
        rw [read_content_newline head]
        exact hnewline content mem_cons_self
      rw [if_neg (by simp [hne, hhead])]
      obtain ⟨p', hloop, hidle'⟩ := ih (examples ++ [ae']) hempty
        (fun x hx => hnewline x (mem_cons_of_mem _ hx)) (le_of_succ_le_succ hfuel) (hnext hne)
      refine ⟨p', ?_, hidle'⟩
      rw [hloop, filter_cons_of_pos (by rw [hhead]; rfl), append_assoc]
      rfl

/-- After a newline that is not the last example the parser is left inside of the object. -/
theorem Ready.span_left {span : Span L N} {contents : List (Content L N)}
    (hreads : Reads r ae c contents aes) :
    ∀ {p : Parser L N} {examples : List (Ae X)} {fuel : Nat},
      (∃ content ∈ contents.dropLast, content.is_newline = true) → contents.length ≤ fuel →
      Ready r ae (some span) c p ⟨[], false⟩ ⟨[], false⟩ (contents.map some) →
      ∃ p' examples', read_span_loop r ae span fuel p ae examples = .ok (p', examples', .success) ∧ ¬ p'.Idle := by
  induction hreads with
  | nil => rintro _ _ _ ⟨_, hmem, _⟩; cases hmem
  | @cons c c' content contents ae' aes head tail ih =>
    intro p examples fuel hexists hfuel hready
    obtain ⟨p₁, hcall, hidle, hnext⟩ := hready.call head
    obtain ⟨fuel, rfl⟩ : ∃ n, fuel = n + 1 := exists_eq_add_one_of_ne_zero (by
      rw [length_cons] at hfuel
      omega)
    have hempty : contents ≠ [] := by
      rintro rfl
      obtain ⟨_, hmem, _⟩ := hexists
      cases hmem
    have hne : contents.map some ≠ [] := fun h => hempty (map_eq_nil_iff.mp h)
    rw [dropLast_cons_of_ne_nil hempty] at hexists
    rw [read_span_loop_turn hcall]
    cases hnewline : ae'.is_newline with
    | true => exact ⟨p₁, _, if_pos (.inr rfl), fun h => hne (hidle.mp h)⟩
    | false =>
      rw [if_neg (by simp [hne])]
      obtain ⟨x, hmem, hx⟩ := hexists
      refine ih ⟨x, (mem_cons.mp hmem).resolve_left ?_, hx⟩ (le_of_succ_le_succ hfuel) (hnext hne)
      rintro rfl
      rw [← read_content_newline head, hnewline] at hx
      cases hx

/-! ## Root objects -/

/-- Every example of an object is delivered once: by the calls for a file, by the calls for a
    buffer, and by a read of the buffer as a span. The parser is left between objects. -/
structure DeliversOnce (r : Reader L N X) (ae : Ae X) (obj : ExampleType L N) (c : BitVec 64) (aes : List (Ae X)) :
    Prop where
  file : ∀ (p : Parser L N) (address : Nat) (objects : List (Span L N)) (incomplete : Bool), p.Idle → p._c_hash = c →
    ∃ outs p', parse_calls r ae none (max 1 obj.contents.length) p ⟨⟨address, ⟨some obj⟩⟩ :: objects, incomplete⟩ =
        .ok (outs, p', ⟨objects, incomplete⟩) ∧
      p'.Idle ∧ (obj.contents ≠ [] → outs = statuses .success aes)
  buffer : ∀ (p : Parser L N) (buf : IoBuf L N) (address : Nat), 8 ∣ address → p.Idle → p._c_hash = c →
    ∃ outs p', parse_calls r ae (some ⟨address, ⟨some obj⟩⟩) (max 1 obj.contents.length) p buf =
      .ok (outs, p', buf) ∧
      p'.Idle ∧ (obj.contents ≠ [] → outs = statuses .nothing_to_parse aes)
  span : ∀ (p : Parser L N) (span : SizePrefixed L N) (given : Option (Ae X)) (fuel : Nat),
    span.root = ⟨some obj⟩ → 8 ∣ span.address → span.length = span.flatbuffer_object_size.setWidth 64 + 4 →
    given.getD ae = ae → max 1 obj.contents.length ≤ fuel → p.Idle → p._c_hash = c →
    ∃ p', read_span_flatbuffer r ae fuel p span given =
        .ok (p', aes.filter (fun ae => !ae.is_newline), .success) ∧ p'.Idle

theorem Parser.Idle.ready_file (h : p.Idle) (obj : ExampleType L N) (address : Nat) (objects : List (Span L N))
    (incomplete : Bool) (r : Reader L N X) (ae : Ae X) :
    Ready r ae none p._c_hash p ⟨⟨address, ⟨some obj⟩⟩ :: objects, incomplete⟩ ⟨objects, incomplete⟩ obj.items :=
  h.ready obj address none _ _ (fun _ => trivial) (fun _ => rfl) r ae

theorem Parser.Idle.ready_buffer (h : p.Idle) (obj : ExampleType L N) {address : Nat} (haddress : 8 ∣ address)
    (buf : IoBuf L N) (r : Reader L N X) (ae : Ae X) :
    Ready r ae (some ⟨address, ⟨some obj⟩⟩) p._c_hash p buf buf obj.items := by
  refine h.ready obj address (some ⟨address, ⟨some obj⟩⟩) _ _ (fun _ => rfl) (fun p => ?_) r ae
  exact if_neg fun hne => hne (mod_eq_zero_of_dvd haddress)

theorem ExampleType.contents_length_pos (h : obj.contents ≠ []) :
    max 1 obj.contents.length = obj.contents.length :=
  max_eq_right (length_pos_iff.mpr h)

/-- The calls for an object are defined, and give its examples, if what they read is stored. -/
theorem object_calls (hreads : Reads r ae c obj.contents aes)
    (hready : Ready r ae buffer_pointer c p buf buf' obj.items) :
    (obj.Stored → ∃ p', parse_calls r ae buffer_pointer (max 1 obj.contents.length) p buf =
        .ok (statuses (return_success_finished buffer_pointer) aes, p', buf') ∧ p'.Idle) ∧
      (¬ obj.Stored → parse_calls r ae buffer_pointer (max 1 obj.contents.length) p buf = undefined) := by
  rcases obj.agree with ⟨hitems, hcontents, hnot⟩ | ⟨hagree, hne, hmem⟩
  · -- an empty collection: the first call comes to nothing
    refine ⟨fun h => absurd h hnot, fun _ => ?_⟩
    rw [hitems] at hready
    obtain ⟨p₀, x, hcall, _, _, hdelivers⟩ := hready
    rw [hcontents]
    change parse_calls r ae buffer_pointer (0 + 1) p buf = undefined
    rw [parse_calls, hcall, show x = undefined from hdelivers]
    rfl
  · have hcontents := hagree.ne_nil hne
    rw [contents_length_pos hcontents]
    constructor
    · intro hstored
      rw [hagree.eq fun h => hmem.mp h hstored] at hready
      exact hready.calls hreads hcontents
    · intro hnot
      exact hready.calls_undefined hreads hagree (hmem.mpr hnot)

/-- No newline is followed by more of the object. -/
def ExampleType.Unbroken (obj : ExampleType L N) : Prop :=
  ∀ content ∈ obj.contents.dropLast, content.is_newline = false

theorem read_span_eq (r : Reader L N X) (ae : Ae X) (fuel : Nat) (p : Parser L N) {span : SizePrefixed L N}
    (haddress : 8 ∣ span.address) (hlength : span.length = span.flatbuffer_object_size.setWidth 64 + 4)
    (given : Option (Ae X)) :
    read_span_flatbuffer r ae fuel p span given = read_span_loop r ae span.toSpan fuel p (given.getD ae) [] := by
  unfold read_span_flatbuffer
  rw [if_neg fun hne => hne (mod_eq_zero_of_dvd haddress), if_neg fun hne => hne hlength]

/-- An object is delivered once exactly when what is read of it is stored, a collection being
    not empty, and only its last example is a newline, if any. -/
theorem delivers_once_iff (r : Reader L N X) (ae : Ae X) (obj : ExampleType L N) (c : BitVec 64) (aes : List (Ae X))
    (hreads : Reads r ae c obj.contents aes) : DeliversOnce r ae obj c aes ↔ obj.Stored ∧ obj.Unbroken := by
  constructor
  · intro h
    let p : Parser L N := ⟨none, 0, false, 0, 0, false, none, c⟩
    have hidle : p.Idle := ⟨rfl, rfl, rfl, rfl⟩
    have hstored : obj.Stored := by
      by_contra hnot
      obtain ⟨outs, p', hcalls, _⟩ := h.file p 0 [] false hidle rfl
      rw [(object_calls hreads (hidle.ready_file obj 0 [] false r ae)).2 hnot] at hcalls
      cases hcalls
    refine ⟨hstored, fun content hmem => ?_⟩
    -- the span would be left before its end
    by_contra hnewline
    obtain ⟨hitems, _⟩ := hstored.items
    have hready := hidle.ready_buffer obj (dvd_zero 8) ⟨[], false⟩ r ae
    rw [hitems] at hready
    obtain ⟨p₁, examples, hleft, hnot⟩ := hready.span_left hreads ⟨content, hmem, by simpa using hnewline⟩
      (le_max_right 1 _)
    obtain ⟨p₂, hspan, hidle₂⟩ := h.span p ⟨⟨0, ⟨some obj⟩⟩, 0, 4⟩ none _ rfl (dvd_zero 8) rfl rfl
      (le_refl _) hidle rfl
    have heq := (read_span_eq r ae _ p (dvd_zero 8) rfl none).symm.trans hspan
    rw [show (none : Option (Ae X)).getD ae = ae from rfl, hleft] at heq
    cases heq
    exact hnot hidle₂
  · rintro ⟨hstored, hunbroken⟩
    obtain ⟨hitems, hne⟩ := hstored.items
    constructor
    · rintro p address objects incomplete hidle rfl
      obtain ⟨p', hcalls, hidle'⟩ :=
        (object_calls hreads (hidle.ready_file obj address objects incomplete r ae)).1 hstored
      exact ⟨_, p', hcalls, hidle', fun _ => rfl⟩
    · rintro p buf address haddress hidle rfl
      obtain ⟨p', hcalls, hidle'⟩ := (object_calls hreads (hidle.ready_buffer obj haddress buf r ae)).1 hstored
      exact ⟨_, p', hcalls, hidle', fun _ => rfl⟩
    · rintro p span given fuel hroot haddress hlength hgiven hfuel hidle rfl
      have hready := hidle.ready_buffer obj haddress ⟨[], false⟩ r ae
      rw [hitems] at hready
      rw [read_span_eq r ae fuel p haddress hlength given, hgiven]
      obtain ⟨⟨address, root⟩, size, length⟩ := span
      subst hroot
      exact hready.span hreads [] hne hunbroken (le_trans (le_max_right 1 _) hfuel)

/-- Readers for examples without labels and namespaces. -/
def no_features : Reader Unit Unit Unit where
  default_label x := x
  default_label_idem _ := rfl
  parse_flat_label _ x := .ok (x, .success)
  parse_namespaces _ c x := .ok (c, x, .success)

/-- An example without features and with a tag of one character. -/
def tagged (c : Byte) : Example Unit Unit := ⟨some ⟨[], by decide⟩, (), some [c], false⟩

/-- A multi-example of one example. -/
def multi_tagged (c : Byte) : MultiExample Unit Unit := ⟨some ⟨[tagged c], by simp⟩⟩

/-- A collection of three examples, and one of a multi-example of two. -/
theorem delivers_once_three :
    DeliversOnce no_features ⟨(), [], false⟩
        (.ExampleCollection ⟨some ⟨[tagged 1, tagged 2, tagged 3], by decide⟩, none, false⟩) 0
        [⟨(), [1], false⟩, ⟨(), [2], false⟩, ⟨(), [3], false⟩] ∧
      DeliversOnce no_features ⟨(), [], false⟩
        (.ExampleCollection ⟨none, some ⟨[⟨some ⟨[tagged 1, tagged 2], by decide⟩⟩], by decide⟩, true⟩) 0
        [⟨(), [1], false⟩, ⟨(), [2], false⟩, ⟨(), [], true⟩] := by
  constructor
  · refine (delivers_once_iff _ _ _ _ _ (.cons rfl (.cons rfl (.cons rfl (.nil 0))))).mpr
      ⟨cons_ne_nil _ _, ?_⟩
    exact forall_mem_cons.mpr ⟨rfl, forall_mem_singleton.mpr rfl⟩
  · refine (delivers_once_iff _ _ _ _ _ (.cons rfl (.cons rfl (.cons rfl (.nil 0))))).mpr
      ⟨⟨cons_ne_nil _ _, forall_mem_singleton.mpr rfl⟩, ?_⟩
    exact forall_mem_cons.mpr ⟨rfl, forall_mem_singleton.mpr rfl⟩

/-- A collection of multi-examples. -/
def multi_line (multi_examples : Vector (MultiExample Unit Unit)) : ExampleType Unit Unit :=
  .ExampleCollection ⟨none, some multi_examples, true⟩

/-- A collection of no multi-examples is read out of range. Of a collection of two a span gives
    the first alone, and the parser stays in the second. -/
theorem collections_broken :
    (Reads no_features ⟨(), [], false⟩ 0 (multi_line ⟨[], by decide⟩).contents [] ∧
        ¬ DeliversOnce no_features ⟨(), [], false⟩ (multi_line ⟨[], by decide⟩) 0 []) ∧
      let two := multi_line ⟨[multi_tagged 1, multi_tagged 2], by decide⟩
      let aes : List (Ae Unit) := [⟨(), [1], false⟩, ⟨(), [], true⟩, ⟨(), [2], false⟩, ⟨(), [], true⟩]
      Reads no_features ⟨(), [], false⟩ 0 two.contents aes ∧
        ¬ DeliversOnce no_features ⟨(), [], false⟩ two 0 aes := by
  refine ⟨⟨.nil 0, fun h => ?_⟩, .cons rfl (.cons rfl (.cons rfl (.cons rfl (.nil 0)))), fun h => ?_⟩
  · obtain ⟨outs, p', hcalls, _⟩ := h.file ⟨none, 0, false, 0, 0, false, none, 0⟩ 0 [] false ⟨rfl, rfl, rfl, rfl⟩ rfl
    cases hcalls
  · obtain ⟨p', hspan, hidle⟩ := h.span ⟨none, 0, false, 0, 0, false, none, 0⟩
      ⟨⟨0, ⟨some (multi_line ⟨[multi_tagged 1, multi_tagged 2], by decide⟩)⟩⟩, 0, 4⟩ none 4 rfl (dvd_zero 8) rfl rfl
      (le_refl _) ⟨rfl, rfl, rfl, rfl⟩ rfl
    cases hspan

end VW.Flatbuffer
