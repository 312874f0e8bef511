import VowpalWabbit.ModelUtils.Basic

/-! # Model fields are read back

    `layout` is the sequence of chunks that a value is written as, and
    `encode` their bytes. The writer appends exactly these; the reader, given
    them, returns an equal value, the same count, and touches nothing behind
    them. Both by induction over the type.
-/

open Cpp Outcome.Ends

namespace VW.ModelUtils

open List Outcome

/-! ## The bytes of a value -/

/-- A piece that is written at once; `text` marks the bytes of a string. -/
structure Chunk where
  bytes : List Byte
  text : Bool := false

/-- The size in front of a container. -/
def size_chunk (size : Nat) : Chunk := ⟨le_bytes 4 size, false⟩

/-- The chunks of a value, in order. -/
def layout : {p : Bool} → {T : Type} → FieldType p T → T → List Chunk
  | _, _, .pod _ _, v => [⟨v.1, false⟩]
  | _, _, .string, s => [size_chunk s.length, ⟨s, true⟩]
  | _, _, .set _ t, s => size_chunk s.elements.length :: s.elements.flatMap (layout t)
  | _, _, .vector t, l => size_chunk l.length :: l.flatMap (layout t)
  | _, _, .v_array t, l => size_chunk l.length :: l.flatMap (layout t)
  | _, _, .pair f s, v => layout f v.1 ++ layout s v.2
  | _, _, .priority_queue _ _ t, q => size_chunk q.popped.length :: q.popped.flatMap (layout t)
  | _, _, .map _ tk tv, m =>
    size_chunk m.entries.length :: m.entries.flatMap fun p => layout tk p.1 ++ layout tv p.2
  | _, _, .unique_ptr _, none => [⟨[1], false⟩]
  | _, _, .unique_ptr t, some v => ⟨[0], false⟩ :: layout t v

/-- The bytes of a sequence of chunks. -/
def bytes_of (cs : List Chunk) : List Byte := cs.flatMap Chunk.bytes

/-- The bytes of a value. -/
def encode {p : Bool} {T : Type} (t : FieldType p T) (v : T) : List Byte := bytes_of (layout t v)

@[simp] theorem bytes_of_nil : bytes_of [] = [] := rfl

@[simp] theorem bytes_of_cons (c : Chunk) (cs : List Chunk) :
    bytes_of (c :: cs) = c.bytes ++ bytes_of cs := rfl

@[simp] theorem bytes_of_append (cs ds : List Chunk) :
    bytes_of (cs ++ ds) = bytes_of cs ++ bytes_of ds := flatMap_append

variable {T : Type} {p : Bool}

theorem bytes_of_flatMap (vs : List T) (f : T → List Chunk) :
    bytes_of (vs.flatMap f) = vs.flatMap fun v => bytes_of (f v) := by
  induction vs with
  | nil => rfl
  | cons v vs ih => rw [flatMap_cons, bytes_of_append, ih, flatMap_cons]

/-- Every container in the value has fewer than `2 ^ 32` elements. -/
def SizesFit : {p : Bool} → {T : Type} → FieldType p T → T → Prop
  | _, _, .pod _ _, _ => True
  | _, _, .string, s => s.length < 2 ^ 32
  | _, _, .set _ t, s => s.elements.length < 2 ^ 32 ∧ ∀ v ∈ s.elements, SizesFit t v
  | _, _, .vector t, l => l.length < 2 ^ 32 ∧ ∀ v ∈ l, SizesFit t v
  | _, _, .v_array t, l => l.length < 2 ^ 32 ∧ ∀ v ∈ l, SizesFit t v
  | _, _, .pair f s, v => SizesFit f v.1 ∧ SizesFit s v.2
  | _, _, .priority_queue _ _ t, q => q.popped.length < 2 ^ 32 ∧ ∀ v ∈ q.popped, SizesFit t v
  | _, _, .map _ tk tv, m =>
    m.entries.length < 2 ^ 32 ∧ ∀ p ∈ m.entries, SizesFit tk p.1 ∧ SizesFit tv p.2
  | _, _, .unique_ptr t, ptr => ∀ v ∈ ptr, SizesFit t v

/-- Equality of values; that of priority queues is equality of the multisets
    of their elements. -/
def Equal : {p : Bool} → {T : Type} → FieldType p T → T → T → Prop
  | _, _, .pod _ _, v, w => v = w
  | _, _, .string, v, w => v = w
  | _, _, .set _ _, v, w => v = w
  | _, _, .vector t, v, w => List.Forall₂ (Equal t) v w
  | _, _, .v_array t, v, w => List.Forall₂ (Equal t) v w
  | _, _, .pair f s, v, w => Equal f v.1 w.1 ∧ Equal s v.2 w.2
  | _, _, .priority_queue _ _ _, v, w => v.popped.Perm w.popped
  | _, _, .map _ _ tv, v, w =>
    List.Forall₂ (fun x y => x.1 = y.1 ∧ Equal tv x.2 y.2) v.entries w.entries
  | _, _, .unique_ptr t, v, w => Option.Rel (Equal t) v w

theorem forall₂_eq {r : T → T → Prop} (hr : ∀ x y, r x y → x = y) {xs ys : List T}
    (h : List.Forall₂ r xs ys) : xs = ys := by
  induction h with
  | nil => rfl
  | cons hxy _ ih => rw [hr _ _ hxy, ih]

/-- Without a priority queue in it, equal values are the same. -/
theorem eq_of_equal (t : FieldType p T) (hp : p = true) :
    ∀ v w : T, Equal t v w → v = w := by
  induction t with
  | pod n hn =>
    intro v w h
    exact h
  | string =>
    intro v w h
    exact h
  | set c t _ =>
    intro v w h
    exact h
  | vector t ih =>
    intro v w h
    exact forall₂_eq (ih hp) h
  | v_array t ih =>
    intro v w h
    exact forall₂_eq (ih hp) h
  | pair f s ihf ihs =>
    intro v w h
    rw [Bool.and_eq_true] at hp
    exact Prod.ext (ihf hp.1 _ _ h.1) (ihs hp.2 _ _ h.2)
  | priority_queue c push t _ => cases hp
  | map c tk tv _ ihv =>
    intro v w h
    apply OrderedMap.ext
    apply forall₂_eq _ h
    intro x y hxy
    exact Prod.ext hxy.1 (ihv hp _ _ hxy.2)
  | unique_ptr t ih =>
    intro v w h
    cases h with
    | some h => rw [ih hp _ _ h]
    | none => rfl

/-! ## Names -/

theorem has_template_go_of_not_mem {cs : List Char} (h : '\x7d' ∉ cs) :
    has_template.go cs = false := by
  induction cs with
  | nil => rfl
  | cons c cs ih =>
    cases cs with
    | nil => rfl
    | cons d cs =>
      simp only [mem_cons, not_or] at h ih
      have hd : (d == '\x7d') = false := by
        rw [beq_eq_false_iff_ne]
        exact Ne.symm h.2.1
      rw [has_template.go, hd, Bool.and_false, Bool.false_or, ih ⟨h.2.1, h.2.2⟩]

/-- What the writer appends to a name has no closing brace, and so makes no template. -/
theorem has_template_go_append (cs : List Char) {ds : List Char} (hds : '\x7d' ∉ ds) :
    has_template.go (cs ++ ds) = has_template.go cs := by
  induction cs with
  | nil => exact has_template_go_of_not_mem hds
  | cons c cs ih =>
    cases cs with
    | nil =>
      cases ds with
      | nil => rfl
      | cons d ds =>
        have hd : (d == '\x7d') = false := by
          rw [beq_eq_false_iff_ne]
          intro h
          exact hds (h ▸ mem_cons_self)
        show ((c == '\x7b' && d == '\x7d') || has_template.go (d :: ds)) = false
        rw [hd, Bool.and_false, Bool.false_or, has_template_go_of_not_mem hds]
    | cons d cs =>
      show ((c == '\x7b' && d == '\x7d') || has_template.go (d :: cs ++ ds)) = _
      rw [ih]
      rfl

theorem has_template_append {name suffix : String} (hname : has_template name = false)
    (hsuffix : '\x7d' ∉ suffix.toList) : has_template (name ++ suffix) = false := by
  rw [has_template, String.toList_append, has_template_go_append _ hsuffix]
  exact hname

theorem brace_not_mem_toString (i : Nat) : '\x7d' ∉ (toString i).toList := by
  intro h
  have hdigits : (toString i).toList = Nat.toDigits 10 i := by
    simp [toString, Nat.repr]
  rw [hdigits] at h
  have := Nat.isDigit_of_mem_toDigits (by decide) (by decide) h
  revert this
  decide

theorem has_template_element_name {name : String} (hname : has_template name = false) (i : Nat) :
    has_template (element_name name i) = false := by
  unfold element_name
  apply has_template_append
  · apply has_template_append
    · exact has_template_append hname (by decide)
    · exact brace_not_mem_toString i
  · decide

/-! ## Writing -/

/-- A writer appends `bytes` and reports their number. -/
def Writes (write : Output → Outcome (Nat × Output)) (bytes : List Byte) : Prop :=
  ∀ o, Returns (write o) fun r =>
    r.1 = bytes.length ∧ r.2.written = o.written ++ bytes

/-- One writer after the other. -/
theorem Writes.seq {write₁ write₂ : Output → Outcome (Nat × Output)} {bytes₁ bytes₂ : List Byte}
    (h₁ : Writes write₁ bytes₁) (h₂ : Writes write₂ bytes₂) :
    Writes (fun o => do
      let (k₁, o) ← write₁ o
      let (k₂, o) ← write₂ o
      return (k₁ + k₂, o)) (bytes₁ ++ bytes₂) := by
  intro o
  apply (h₁ o).bind
  intro (k₁, o₁) ⟨hk₁, ho₁⟩
  apply (h₂ o₁).bind
  intro (k₂, o₂) ⟨hk₂, ho₂⟩
  apply Returns.ok
  simp only at hk₁ ho₁ hk₂ ho₂ ⊢
  rw [hk₁, hk₂, ho₂, ho₁, length_append, append_assoc]
  exact ⟨rfl, rfl⟩

variable {write : T → String → Output → Outcome (Nat × Output)} {enc : T → List Byte}
  {name : Nat → String}

theorem write_elements_returns {vs : List T}
    (h : ∀ v ∈ vs, ∀ i, Writes (write v (name i)) (enc v)) :
    ∀ (i bytes : Nat) (o : Output),
      Returns (write_elements write name i bytes vs o) fun r =>
        r.1 = bytes + (vs.flatMap enc).length ∧ r.2.written = o.written ++ vs.flatMap enc := by
  induction vs with
  | nil =>
    intro i bytes o
    exact Returns.ok ⟨rfl, (append_nil _).symm⟩
  | cons v vs ih =>
    intro i bytes o
    apply (h v mem_cons_self i o).bind
    intro (k, o₁) ⟨hk, ho₁⟩
    simp only at hk ho₁
    apply (ih (fun w hw => h w (mem_cons_of_mem _ hw)) (i + 1) (bytes + k) o₁).mono
    intro (n, o₂) ⟨hn, ho₂⟩
    simp only at hn ho₂ ⊢
    rw [hn, ho₂, ho₁, hk, flatMap_cons, length_append, append_assoc, Nat.add_assoc]
    exact ⟨rfl, rfl⟩

/-- A container: the name is accepted, then come the size and the elements. -/
theorem write_container_returns {vs : List T} {upstream_name : String}
    (hname : has_template upstream_name = false) (kind : String)
    (h : ∀ v ∈ vs, ∀ i, Writes (write v (name i)) (enc v)) :
    Writes (fun o => do
      check_name upstream_name kind
      write_elements write name 0 4 vs (write_size vs.length o))
      (le_bytes 4 vs.length ++ vs.flatMap enc) := by
  intro o
  have hcheck : check_name upstream_name kind = .ok () := by
    rw [check_name, hname]
    rfl
  rw [hcheck]
  apply (write_elements_returns h 0 4 (write_size vs.length o)).mono
  intro (n, o₁) ⟨hn, ho₁⟩
  simp only at hn ho₁ ⊢
  rw [hn, ho₁, write_size, Output.written_bin_write_fixed, length_append, length_le_bytes,
    append_assoc]
  exact ⟨rfl, rfl⟩

theorem encode_elements (t : FieldType p T) (vs : List T) :
    bytes_of (size_chunk vs.length :: vs.flatMap (layout t))
      = le_bytes 4 vs.length ++ vs.flatMap (encode t) := by
  rw [bytes_of_cons, bytes_of_flatMap]
  rfl

theorem encode_map {K V : Type} {c : Comparator K} (tk : FieldType true K)
    (tv : FieldType p V) (m : OrderedMap c V) :
    encode (.map c tk tv) m = le_bytes 4 m.entries.length ++
      m.entries.flatMap fun e => encode tk e.1 ++ encode tv e.2 := by
  rw [encode, layout, bytes_of_cons, bytes_of_flatMap]
  simp only [bytes_of_append]
  rfl

theorem write_model_field_returns (t : FieldType p T) :
    ∀ (v : T), SizesFit t v → ∀ (name : String), has_template name = false →
      Writes (write_model_field t v name) (encode t v) := by
  induction t with
  | pod n hn =>
    intro v _ name _ o
    refine Returns.ok ⟨?_, ?_⟩
    · simp [encode, layout, v.2]
    · rw [Output.written_bin_write_fixed]
      simp [encode, layout]
  | string =>
    intro v _ name hname o
    have hcheck : check_name name "string" = .ok () := by
      rw [check_name, hname]
      rfl
    rw [write_model_field, hcheck]
    refine Returns.ok ⟨?_, ?_⟩
    · simp [encode, layout, size_chunk]
    · rw [Output.written_bin_write_fixed, write_size, Output.written_bin_write_fixed]
      simp [encode, layout, size_chunk]
  | set c t ih =>
    intro v hfit name hname
    rw [encode, layout, encode_elements]
    exact write_container_returns hname "set" fun w hw i =>
      ih w (hfit.2 w hw) _ (has_template_element_name hname i)
  | vector t ih =>
    intro v hfit name hname o
    rw [encode, layout, encode_elements]
    have := write_container_returns hname "vector" (fun w hw i =>
      ih w (hfit.2 w hw) _ (has_template_element_name hname i)) o
    rw [write_model_field, Nat.mod_eq_of_lt hfit.1, take_length]
    exact this
  | v_array t ih =>
    intro v hfit name hname o
    rw [encode, layout, encode_elements]
    have := write_container_returns hname "v_array" (fun w hw i =>
      ih w (hfit.2 w hw) _ (has_template_element_name hname i)) o
    rw [write_model_field, Nat.mod_eq_of_lt hfit.1, take_length]
    exact this
  | pair f s ihf ihs =>
    intro v hfit name hname o
    have hcheck : check_name name "pair" = .ok () := by
      rw [check_name, hname]
      rfl
    rw [encode, layout, bytes_of_append, write_model_field, hcheck]
    exact Writes.seq (ihf v.1 hfit.1 _ (has_template_append hname (by decide)))
      (ihs v.2 hfit.2 _ (has_template_append hname (by decide))) o
  | priority_queue c push t ih =>
    intro v hfit name hname
    rw [encode, layout, encode_elements]
    exact write_container_returns hname "priority_queue" fun w hw i =>
      ih w (hfit.2 w hw) _ (has_template_element_name hname i)
  | map c tk tv ihk ihv =>
    intro v hfit name hname
    rw [encode_map]
    apply write_container_returns hname "map"
    intro w hw i
    apply Writes.seq
    · apply ihk w.1 (hfit.2 w hw).1
      exact has_template_append (has_template_append hname (by decide)) (brace_not_mem_toString i)
    · apply ihv w.2 (hfit.2 w hw).2
      apply has_template_append
      · exact has_template_append (has_template_append hname (by decide)) (brace_not_mem_toString i)
      · decide
  | unique_ptr t ih =>
    intro v hfit name hname o
    cases v with
    | none =>
      refine Returns.ok ⟨rfl, ?_⟩
      rw [Output.written_bin_write_fixed]
      rfl
    | some v =>
      apply (ih v (hfit v rfl) name hname (o.bin_write_fixed [0])).bind
      intro (k, o₁) ⟨hk, ho₁⟩
      simp only at hk ho₁
      refine Returns.ok ⟨?_, ?_⟩
      · simp only
        rw [hk, Nat.add_comm]
        rfl
      · simp only
        rw [ho₁, Output.written_bin_write_fixed, append_assoc]
        rfl

/-! ## Reading -/

section Reading

variable {A : Allocator}

/-- The size of an allocation after the chunks have been read. -/
def grown (c : Nat) (cs : List Chunk) : Nat := cs.foldl (fun c k => IoBuf.grow c k.bytes.length) c

/-- The buffer after `cs` have been read from it, with `rest` to come. -/
structure After (A : Allocator) (b : IoBuf) (cs : List Chunk) (b' : IoBuf) (rest : List Byte) :
    Prop where
  wf : b'.Wf A
  stream_eq : b'.stream = rest
  capacity_eq : b'.buffer.capacity = grown b.buffer.capacity cs
  is_open_iff : b'.is_open ↔ b.is_open

variable {b : IoBuf}

theorem After.refl (hb : b.Wf A) : After A b [] b b.stream :=
  ⟨hb, rfl, rfl, Iff.rfl⟩

variable {cs ds : List Chunk} {T C : Type}

variable {rest : List Byte}

theorem After.trans {b₁ b₂ : IoBuf} {rest₁ : List Byte} (h₁ : After A b cs b₁ rest₁)
    (h₂ : After A b₁ ds b₂ rest) : After A b (cs ++ ds) b₂ rest := by
  refine ⟨h₂.wf, h₂.stream_eq, ?_, h₂.is_open_iff.trans h₁.is_open_iff⟩
  rw [h₂.capacity_eq, h₁.capacity_eq, grown, grown, grown, foldl_append]

/-- There is no memory for twice the bytes of the chunks. -/
def NoMemory (A : Allocator) (cs : List Chunk) : Prop := ¬ A.Provides (2 * (bytes_of cs).length)

theorem NoMemory.append_left (h : NoMemory A cs) (ds : List Chunk) :
    NoMemory A (cs ++ ds) := by
  intro hmem
  apply h
  apply hmem.mono
  rw [bytes_of_append, length_append]
  omega

theorem NoMemory.append_right (cs : List Chunk) (h : NoMemory A ds) :
    NoMemory A (cs ++ ds) := by
  intro hmem
  apply h
  apply hmem.mono
  rw [bytes_of_append, length_append]
  omega

/-- A reader that finds `cs` next consumes them, reports the number of their
    bytes and returns a value that satisfies `Q`, unless it runs out of memory. -/
def ReadsAs {T : Type} (A : Allocator) (read : IoBuf → Outcome (Nat × T × IoBuf))
    (cs : List Chunk) (Q : T → Prop) : Prop :=
  ∀ (b : IoBuf) (rest : List Byte), b.Wf A → b.stream = bytes_of cs ++ rest →
    Ends (NoMemory A cs) (read b) fun r =>
      r.1 = (bytes_of cs).length ∧ Q r.2.1 ∧ After A b cs r.2.2 rest

/-- One reader after the other. -/
theorem ReadsAs.seq {F S : Type} {read₁ : IoBuf → Outcome (Nat × F × IoBuf)}
    {read₂ : IoBuf → Outcome (Nat × S × IoBuf)} {Q₁ : F → Prop}
    {Q₂ : S → Prop} (h₁ : ReadsAs A read₁ cs Q₁) (h₂ : ReadsAs A read₂ ds Q₂) :
    ReadsAs A (fun b => do
      let (k₁, first, b) ← read₁ b
      let (k₂, second, b) ← read₂ b
      return (k₁ + k₂, (first, second), b)) (cs ++ ds) (fun v => Q₁ v.1 ∧ Q₂ v.2) := by
  intro b rest hb hstream
  rw [bytes_of_append, append_assoc] at hstream
  apply ((h₁ b _ hb hstream).mono (·.append_left ds) (fun _ h => h)).bind
  intro (k₁, first, b₁) ⟨hk₁, hfirst, hafter₁⟩
  apply ((h₂ b₁ rest hafter₁.wf hafter₁.stream_eq).mono (·.append_right cs) (fun _ h => h)).bind
  intro (k₂, second, b₂) ⟨hk₂, hsecond, hafter₂⟩
  refine ok ⟨?_, ⟨hfirst, hsecond⟩, hafter₁.trans hafter₂⟩
  simp only at hk₁ hk₂ ⊢
  rw [hk₁, hk₂, bytes_of_append, length_append]

/-- The chunk of a plain value. -/
def pod_chunk {n : Nat} (v : Pod n) : Chunk := ⟨v.1, false⟩

theorem read_pod_ends {n : Nat} (hn : n < 2 ^ 63) (hb : b.Wf A) (v : Pod n)
    (hstream : b.stream = v.1 ++ rest) :
    Ends (NoMemory A [pod_chunk v]) (read_pod A n b) fun r =>
      r.1 = v ∧ After A b [pod_chunk v] r.2 rest := by
  have hmem : NoMemory A [pod_chunk v] = ¬ A.Provides (2 * n) := by
    simp [NoMemory, bytes_of, pod_chunk, v.2]
  rw [hmem]
  apply (IoBuf.bin_read_fixed_ends hb hn v.2 hstream).bind
  intro (data, b₁) ⟨hdata, hreads, hgrown⟩
  simp only at hdata
  subst hdata
  simp only
  rw [dif_pos v.2]
  refine ok ⟨rfl, hreads.wf, hreads.stream_eq, ?_, hgrown.is_open_iff⟩
  rw [hgrown.capacity_eq]
  show _ = IoBuf.grow b.buffer.capacity v.1.length
  rw [v.2]

/-- A plain value, and then what comes behind it. -/
theorem ReadsAs.pod_bind {n : Nat} (hn : n < 2 ^ 63) (v : Pod n)
    {f : Pod n × IoBuf → Outcome (Nat × T × IoBuf)} {Q : T → Prop}
    (h : ∀ (b : IoBuf) (rest : List Byte), b.Wf A → b.stream = bytes_of cs ++ rest →
      Ends (NoMemory A cs) (f (v, b)) fun r =>
        r.1 = n + (bytes_of cs).length ∧ Q r.2.1 ∧ After A b cs r.2.2 rest) :
    ReadsAs A (fun b => read_pod A n b >>= f) (pod_chunk v :: cs) Q := by
  intro b rest hb hstream
  rw [bytes_of_cons, append_assoc] at hstream
  apply ((read_pod_ends hn hb v hstream).mono (·.append_left cs) (fun _ h => h)).bind
  intro (w, b₁) ⟨hw, hafter⟩
  simp only at hw hafter
  subst hw
  apply (h b₁ rest hafter.wf hafter.stream_eq).mono (·.append_right [pod_chunk w])
  intro r ⟨hk, hr, hafter'⟩
  refine ⟨?_, hr, hafter.trans hafter'⟩
  rw [hk, bytes_of_cons, length_append]
  show n + _ = w.1.length + _
  rw [w.2]

/-- The size of a container as a plain value. -/
def pod_size (size : Nat) : Pod 4 := ⟨le_bytes 4 size, length_le_bytes 4 size⟩

theorem read_size_bind (b : IoBuf) (f : Nat × IoBuf → Outcome T) :
    (read_size A b >>= f) = read_pod A 4 b >>= fun r => f (of_le_bytes r.1.1, r.2) := by
  unfold read_size
  cases read_pod A 4 b with
  | error e => rfl
  | ok r => rfl

theorem read_container_eq (read : IoBuf → Outcome (Nat × T × IoBuf))
    (add : C → T → C) (c : C) :
    read_container A read add c = fun b => read_pod A 4 b >>= fun r =>
      read_elements read add (of_le_bytes r.1.1) 4 c r.2 := by
  funext b
  exact read_size_bind b _

/-- The bytes behind the size of a string. -/
def read_text (A : Allocator) (str_size : Nat) (b : IoBuf) : Outcome (Nat × List Byte × IoBuf) := do
  let (cs, count, b) ← b.buf_read A str_size TEXT
  let str ← load_bytes b.buffer.load cs str_size
  return (4 + count, str, b)

theorem read_string_eq :
    read_string A = fun b => read_pod A 4 b >>= fun r => read_text A (of_le_bytes r.1.1) r.2 := by
  funext b
  exact read_size_bind b _

theorem of_le_bytes_pod_size {size : Nat} (h : size < 2 ^ 32) :
    of_le_bytes (pod_size size).1 = size :=
  of_le_bytes_le_bytes 4 size h

theorem read_elements_ends {read : IoBuf → Outcome (Nat × T × IoBuf)}
    {add : C → T → C} {enc : T → List Chunk} {E : T → T → Prop} {vs : List T}
    (h : ∀ v ∈ vs, ReadsAs A read (enc v) fun w => E w v) :
    ∀ (bytes : Nat) (c : C) (b : IoBuf) (rest : List Byte), b.Wf A →
      b.stream = bytes_of (vs.flatMap enc) ++ rest →
      Ends (NoMemory A (vs.flatMap enc)) (read_elements read add vs.length bytes c b)
        fun r =>
          r.1 = bytes + (bytes_of (vs.flatMap enc)).length ∧
          (∃ ws, List.Forall₂ E ws vs ∧ r.2.1 = ws.foldl add c) ∧
          After A b (vs.flatMap enc) r.2.2 rest := by
  induction vs with
  | nil =>
    intro bytes c b rest hb hstream
    refine ok ⟨rfl, ⟨[], .nil, rfl⟩, ?_⟩
    rw [show rest = b.stream from hstream.symm]
    exact After.refl hb
  | cons v vs ih =>
    intro bytes c b rest hb hstream
    rw [flatMap_cons] at hstream ⊢
    rw [bytes_of_append, append_assoc] at hstream
    apply ((h v mem_cons_self b _ hb hstream).mono (·.append_left _) (fun _ h => h)).bind
    intro (k, w, b₁) ⟨hk, hw, hafter₁⟩
    simp only at hk hw hafter₁
    apply (ih (fun u hu => h u (mem_cons_of_mem _ hu)) (bytes + k) (add c w) b₁ rest
      hafter₁.wf hafter₁.stream_eq).mono (·.append_right _)
    intro (n, c', b₂) ⟨hn, ⟨ws, hws, hc'⟩, hafter₂⟩
    refine ⟨?_, ⟨w :: ws, .cons hw hws, hc'⟩, hafter₁.trans hafter₂⟩
    simp only at hn ⊢
    rw [hn, hk, bytes_of_append, length_append, Nat.add_assoc]

/-- A container: its size, then its elements one by one. -/
theorem read_container_ends {read : IoBuf → Outcome (Nat × T × IoBuf)}
    {add : C → T → C} {enc : T → List Chunk} {E : T → T → Prop} {vs : List T}
    (hsize : vs.length < 2 ^ 32) (h : ∀ v ∈ vs, ReadsAs A read (enc v) fun w => E w v) (c : C) :
    ReadsAs A (read_container A read add c) (size_chunk vs.length :: vs.flatMap enc)
      fun c' => ∃ ws, List.Forall₂ E ws vs ∧ c' = ws.foldl add c := by
  rw [read_container_eq]
  apply ReadsAs.pod_bind (by decide) (pod_size vs.length)
  intro b rest hb hstream
  rw [of_le_bytes_pod_size hsize]
  exact read_elements_ends h 4 c b rest hb hstream

theorem ReadsAs.mono {read : IoBuf → Outcome (Nat × T × IoBuf)}
    {Q Q' : T → Prop} (h : ReadsAs A read cs Q) (hQ : ∀ v, Q v → Q' v) : ReadsAs A read cs Q' := by
  intro b rest hb hstream
  apply (h b rest hb hstream).mono id
  intro r ⟨hn, hv, hafter⟩
  exact ⟨hn, hQ _ hv, hafter⟩

theorem foldl_push_back (ws vs : List T) :
    ws.foldl (fun l v => l ++ [v]) vs = vs ++ ws := by
  induction ws generalizing vs with
  | nil => simp
  | cons w ws ih => rw [foldl_cons, ih, append_assoc, singleton_append]

theorem read_text_ends (hb : b.Wf A) {s : List Byte} (hs : s.length < 2 ^ 32)
    (hstream : b.stream = s ++ rest) :
    Ends (NoMemory A [⟨s, true⟩]) (read_text A s.length b) fun r =>
      r.1 = 4 + s.length ∧ r.2.1 = s ∧ After A b [⟨s, true⟩] r.2.2 rest := by
  have hmem : NoMemory A [⟨s, true⟩] = ¬ A.Provides (2 * s.length) := by
    simp [NoMemory, bytes_of]
  have hall : s.length ≤ b.stream.length := by
    rw [hstream, length_append]
    omega
  rw [hmem]
  apply (IoBuf.buf_read_ends hb (by omega)).bind
  intro (cs, count, b₁) ⟨(hd : IoBuf.Delivers A b cs count b₁ _ _), halloc⟩
  rw [hstream, take_left, drop_left] at hd
  simp only
  rw [load_bytes_complete hd.holds, hd.count_eq, ok_bind]
  exact ok ⟨rfl, rfl, hd.wf, hd.stream_eq, (halloc.grown hall).capacity_eq,
    (halloc.grown hall).is_open_iff⟩

/-- `read_model_field` reads an encoding back. -/
theorem read_model_field_ends (t : FieldType p T) :
    ∀ (v : T), SizesFit t v →
      ReadsAs A (read_model_field A t t.fresh) (layout t v) fun w => Equal t w v := by
  induction t with
  | pod n hn =>
    intro v _
    apply ReadsAs.pod_bind hn.2 v
    intro b rest hb hstream
    refine ok ⟨rfl, rfl, ?_⟩
    rw [show rest = b.stream from hstream.symm]
    exact After.refl hb
  | string =>
    intro v hfit
    show ReadsAs A (read_string A) _ _
    rw [read_string_eq]
    apply ReadsAs.pod_bind (by decide) (pod_size v.length)
    intro b rest hb hstream
    simp only
    rw [of_le_bytes_pod_size hfit]
    rw [bytes_of_cons, bytes_of_nil, append_nil] at hstream ⊢
    exact read_text_ends hb hfit hstream
  | set c t ih =>
    intro v hfit
    apply (read_container_ends hfit.1 (fun w hw => ih w (hfit.2 w hw)) _).mono
    rintro s ⟨ws, hws, rfl⟩
    have hsame := forall₂_eq (eq_of_equal t rfl) hws
    subst hsame
    exact OrderedSet.ext (OrderedSet.elements_foldl_insert OrderedSet.empty v.elements v.ascending)
  | vector t ih =>
    intro v hfit
    apply (read_container_ends hfit.1 (fun w hw => ih w (hfit.2 w hw)) _).mono
    rintro l ⟨ws, hws, rfl⟩
    rw [foldl_push_back]
    exact hws
  | v_array t ih =>
    intro v hfit
    apply (read_container_ends hfit.1 (fun w hw => ih w (hfit.2 w hw)) _).mono
    rintro l ⟨ws, hws, rfl⟩
    rw [foldl_push_back]
    exact hws
  | pair f s ihf ihs =>
    intro v hfit
    exact ReadsAs.seq (ihf v.1 hfit.1) (ihs v.2 hfit.2)
  | priority_queue c push t ih =>
    intro v hfit
    apply (read_container_ends hfit.1 (fun w hw => ih w (hfit.2 w hw)) _).mono
    rintro q ⟨ws, hws, rfl⟩
    have hsame := forall₂_eq (eq_of_equal t rfl) hws
    subst hsame
    exact PriorityQueue.popped_foldl_push push PriorityQueue.empty v.popped
  | map c tk tv ihk ihv =>
    intro v hfit
    apply (read_container_ends hfit.1 (fun w hw =>
      ReadsAs.seq (ihk w.1 (hfit.2 w hw).1) (ihv w.2 (hfit.2 w hw).2)) _).mono
    rintro m ⟨ws, hws, rfl⟩
    -- The keys come back as they were, so they are in order again.
    have hkeys : ws.map Prod.fst = v.entries.map Prod.fst := by
      clear hfit
      generalize v.entries = es at hws
      induction hws with
      | nil => rfl
      | cons h _ ih => rw [map_cons, map_cons, ih, eq_of_equal tk rfl _ _ h.1]
    have hentries := OrderedMap.entries_foldl_assign (OrderedMap.empty : OrderedMap c _) ws (by
      show (ws.map Prod.fst).Pairwise _
      rw [hkeys]
      exact v.ascending)
    show List.Forall₂ _ (ws.foldl _ OrderedMap.empty).entries v.entries
    rw [hentries]
    exact hws.imp fun x y h => ⟨eq_of_equal tk rfl _ _ h.1, h.2⟩
  | unique_ptr t ih =>
    intro v hfit
    cases v with
    | none =>
      apply ReadsAs.pod_bind (by decide) (⟨[1], rfl⟩ : Pod 1)
      intro b rest hb hstream
      simp only
      rw [if_pos (by decide)]
      refine ok ⟨rfl, .none, ?_⟩
      rw [show rest = b.stream from hstream.symm]
      exact After.refl hb
    | some v =>
      apply ReadsAs.pod_bind (by decide) (⟨[0], rfl⟩ : Pod 1)
      intro b rest hb hstream
      simp only
      rw [if_neg (by simp)]
      apply (ih v (hfit v rfl) b rest hb hstream).bind
      intro (k, w, b₁) ⟨hk, hw, hafter⟩
      refine ok ⟨?_, .some hw, hafter⟩
      simp only at hk ⊢
      rw [hk]

end Reading

/-! ## Sequences of fields -/

/-- A field of a model: its type, its value, and the name it is written under. -/
structure Field where
  representable : Bool
  T : Type
  type : FieldType representable T
  value : T
  name : String

/-- `write_model_field` for each field in order: the counts and the output. -/
def write_fields : List Field → Output → Outcome (List Nat × Output)
  | [], o => .ok ([], o)
  | f :: fs, o => do
    let (k, o) ← write_model_field f.type f.value f.name o
    let (ks, o) ← write_fields fs o
    return (k :: ks, o)

/-- Reading the fields in order gives equal values with the given counts, and
    leaves `rest`. -/
def ReadsBack (A : Allocator) : List Field → List Nat → IoBuf → List Byte → Prop
  | [], ks, b, rest => ks = [] ∧ b.Wf A ∧ b.stream = rest
  | _ :: _, [], _, _ => False
  | f :: fs, k :: ks, b, rest =>
    Returns (read_model_field A f.type f.type.fresh b) fun r =>
      r.1 = k ∧ Equal f.type r.2.1 f.value ∧ ReadsBack A fs ks r.2.2 rest

/-- The first field, and then the others. -/
theorem ReadsBack.cons {A : Allocator} {f : Field} {fs : List Field} {ks : List Nat} {b : IoBuf}
    {rest : List Byte} (h : ReadsBack A (f :: fs) ks b rest) :
    ∃ k ks' v b', ks = k :: ks' ∧ read_model_field A f.type f.type.fresh b = .ok (k, v, b') ∧
      Equal f.type v f.value ∧ ReadsBack A fs ks' b' rest := by
  cases ks with
  | nil => exact absurd h id
  | cons k ks =>
    obtain ⟨⟨k', v, b'⟩, hread, hk, hv, hrest⟩ := h
    obtain rfl : k' = k := hk
    exact ⟨k', ks, v, b', rfl, hread, hv, hrest⟩

/-- Any sequence of fields, of types nested to any depth, is written without
    an error under names without templates, and read back in order: equal
    values, the same counts, and nothing behind them is touched. -/
theorem model_fields_round_trip (fs : List Field) (hfit : ∀ f ∈ fs, SizesFit f.type f.value)
    (hname : ∀ f ∈ fs, has_template f.name = false) (o : Output) :
    ∃ ks o' bytes, write_fields fs o = .ok (ks, o') ∧ o'.written = o.written ++ bytes ∧
      ∀ (A : Allocator) (b : IoBuf) (rest : List Byte), b.Wf A → b.stream = bytes ++ rest →
        A.Provides (2 * bytes.length) → ReadsBack A fs ks b rest := by
  induction fs generalizing o with
  | nil =>
    refine ⟨[], o, [], rfl, (append_nil _).symm, ?_⟩
    intro A b rest hb hstream _
    exact ⟨rfl, hb, hstream⟩
  | cons f fs ih =>
    obtain ⟨⟨k, o₁⟩, hwrite, hk, ho₁⟩ := write_model_field_returns f.type f.value
      (hfit f mem_cons_self) f.name (hname f mem_cons_self) o
    obtain ⟨ks, o₂, bytes, hwrites, ho₂, hread⟩ :=
      ih (fun g hg => hfit g (mem_cons_of_mem _ hg))
        (fun g hg => hname g (mem_cons_of_mem _ hg)) o₁
    refine ⟨k :: ks, o₂, encode f.type f.value ++ bytes, ?_, ?_, ?_⟩
    · rw [write_fields, hwrite]
      simp only [ok_bind, hwrites]
      rfl
    · rw [ho₂, ho₁, append_assoc]
    · intro A b rest hb hstream hmem
      rw [length_append] at hmem
      rw [append_assoc] at hstream
      have henough : ¬ NoMemory A (layout f.type f.value) :=
        not_not.mpr (hmem.mono (by rw [encode]; omega))
      apply ((read_model_field_ends f.type f.value (hfit f mem_cons_self) b _ hb
        hstream).returns henough).mono
      intro r ⟨hr, hequal, hafter⟩
      exact ⟨hr.trans hk.symm, hequal,
        hread A r.2.2 rest hafter.wf hafter.stream_eq (hmem.mono (by omega))⟩

/-- `std::less` on an unsigned type of `n` bytes. -/
def unsigned_less (n : Nat) : Comparator (Pod n) where
  lt x y := of_le_bytes x.1 < of_le_bytes y.1
  irrefl x := by simp
  trans h₁ h₂ := by
    rw [decide_eq_true_eq] at h₁ h₂ ⊢
    exact h₁.trans h₂

/-- A map from bytes to lists of strings, a queue of bytes and a pointer. -/
def sample_fields : List Field :=
  [ ⟨_, _, .map (unsigned_less 1) (.pod 1 (by decide)) (.vector .string),
      ⟨[(⟨[3], rfl⟩, [[97, 98], []]), (⟨[7], rfl⟩, [])], by decide⟩, "m"⟩,
    ⟨_, _, .priority_queue (unsigned_less 1) (PriorityQueue.stable_push _) (.pod 1 (by decide)),
      ⟨[⟨[9], rfl⟩, ⟨[9], rfl⟩, ⟨[2], rfl⟩], by decide⟩, "q"⟩,
    ⟨_, _, .unique_ptr (.pair .string (.pod 4 (by decide))), some ([97], ⟨[1, 0, 0, 0], rfl⟩), "p"⟩ ]

/-- Three fields in one file. -/
theorem model_fields_round_trip_sample :
    ∃ ks o' bytes, write_fields sample_fields {} = .ok (ks, o') ∧ o'.written = bytes ∧
      ∀ (A : Allocator) (b : IoBuf) (rest : List Byte), b.Wf A → b.stream = bytes ++ rest →
        A.Provides (2 * bytes.length) → ReadsBack A sample_fields ks b rest := by
  have hfit : ∀ f ∈ sample_fields, SizesFit f.type f.value := by
    intro f hf
    simp only [sample_fields, mem_cons, not_mem_nil, or_false] at hf
    rcases hf with rfl | rfl | rfl
    · simp [SizesFit]
    · exact ⟨(by decide : 3 < 2 ^ 32), fun _ _ => trivial⟩
    · simp [SizesFit]
  have hname : ∀ f ∈ sample_fields, has_template f.name = false := by
    intro f hf
    simp only [sample_fields, mem_cons, not_mem_nil, or_false] at hf
    rcases hf with rfl | rfl | rfl
    · decide
    · decide
    · decide
  exact model_fields_round_trip sample_fields hfit hname {}

end VW.ModelUtils
