import VowpalWabbit.ModelUtils.RoundTrip
import VowpalWabbit.IoBuf.Runs

/-! # Truncated model fields

    What `read_model_field` makes of a proper prefix of an encoding. Every
    reader of a plain value notices that bytes are missing. The reader of a
    string does not: it builds the string from whatever the memory holds behind
    the bytes that are there, and the shortage comes out only if there is
    something more to read. `fate` says what happens for each chunk that the
    end of the file can fall into.
-/

open Cpp

namespace VW.ModelUtils

open List IoBuf Outcome

/-! ## Where the end of the file falls -/

/-- What becomes of a read that comes to the end of the file. -/
inductive Fate where
  /-- An exception is thrown. -/
  | noticed
  /-- The call returns. -/
  | unnoticed
  /-- A string is built from memory outside the allocation. -/
  | outside
  deriving DecidableEq, Repr

/-- The fate of a read of these chunks when only `n` bytes are there, from a
    buffer with the given capacity. -/
def fate (opened : Prop) [Decidable opened] : (capacity : Nat) → List Chunk → (n : Nat) → Fate
  | _, [], _ => .unnoticed
  | c, k :: ks, n =>
    if k.bytes.length ≤ n then
      fate opened (grow c k.bytes.length) ks (n - k.bytes.length)
    else if k.text = false then .noticed
    -- The string is taken from the front of the allocation.
    else if capacity_after opened c n k.bytes.length < k.bytes.length then .outside
    else if ks.isEmpty then .unnoticed
    else .noticed

/-- A read that goes on where another one has come to the end. -/
def Fate.and_then : Fate → Fate → Fate
  | .unnoticed, f => f
  | .noticed, _ => .noticed
  | .outside, _ => .outside

/-- The fate of a read of these chunks when there is nothing. -/
def fate_of_rest (ds : List Chunk) : Fate := if ds.isEmpty then .unnoticed else .noticed

section Fate

variable (opened : Prop) [Decidable opened]

/-- The file ends in the first part. -/
theorem fate_append_of_lt (cs ds : List Chunk) (c n : Nat) (h : n < (bytes_of cs).length) :
    fate opened c (cs ++ ds) n = (fate opened c cs n).and_then (fate_of_rest ds) := by
  induction cs generalizing c n with
  | nil => exact absurd h (Nat.not_lt_zero n)
  | cons k ks ih =>
    rw [bytes_of_cons, length_append] at h
    rw [cons_append, fate, fate]
    split
    · exact ih _ _ (by omega)
    · split
      · rfl
      · split
        · rfl
        · cases ks with
          | nil => rfl
          | cons k' ks => rfl

/-- The file ends behind the first part. -/
theorem fate_append_of_le (cs ds : List Chunk) (c n : Nat) (h : (bytes_of cs).length ≤ n) :
    fate opened c (cs ++ ds) n = fate opened (grown c cs) ds (n - (bytes_of cs).length) := by
  induction cs generalizing c n with
  | nil => rfl
  | cons k ks ih =>
    rw [bytes_of_cons, length_append] at h ⊢
    rw [cons_append, fate, if_pos (by omega), ih _ _ (by omega), Nat.sub_add_eq]
    rfl

end Fate

/-! ## Readers at the end of the file -/

/-- Of two ways to split a list the shorter front is part of the longer. -/
theorem append_split {α : Type} {xs ys zs ws : List α} (h : xs ++ ys = zs ++ ws)
    (hle : xs.length ≤ zs.length) : ∃ us, zs = xs ++ us ∧ ys = us ++ ws := by
  rcases append_eq_append_iff.mp h with hsplit | ⟨us, hxs, hws⟩
  · exact hsplit
  · have hnil : us = [] := by
      rw [hxs, length_append] at hle
      exact length_eq_zero_iff.mp (by omega)
    subst hnil
    exact ⟨[], by rw [hxs, append_nil, append_nil], hws.symm⟩

section Reading

variable {A : Allocator} {T : Type} {E : Prop} {x : Outcome (Nat × T × IoBuf)} {f f' : Fate}

/-- The call has the fate `f`; it may throw all the same if `E` holds. -/
def Meets (A : Allocator) (E : Prop) (f : Fate) (x : Outcome (Nat × T × IoBuf)) : Prop :=
  match f with
  | .noticed => Throws x
  | .unnoticed => Ends E x fun r => r.2.2.Wf A ∧ r.2.2.stream = []
  | .outside => x = undefined ∨ E ∧ Throws x

theorem Meets.mono {E' : Prop} (h : Meets A E f x) (hE : E → E') : Meets A E' f x := by
  cases f with
  | noticed => exact h
  | unnoticed => exact Ends.mono h hE fun _ hr => hr
  | outside => exact Or.imp_right (And.imp_left hE) h

variable {S : Type}

/-- After a call that has found its bytes. -/
theorem meets_of_ends {y : Outcome S} {Q : S → Prop} {g : S → Outcome (Nat × T × IoBuf)}
    (hy : Ends E y Q) (hg : ∀ r, Q r → Meets A E f (g r)) : Meets A E f (y >>= g) := by
  rcases y with (what | _) | a
  · cases f with
    | noticed => exact ⟨what, rfl⟩
    | unnoticed => exact hy
    | outside => exact Or.inr ⟨hy, what, rfl⟩
  · exact absurd hy id
  · exact hg a hy

variable {g : Nat × T × IoBuf → Outcome (Nat × S × IoBuf)}

/-- After a call that has come to the end of the file. -/
theorem Meets.bind (hx : Meets A E f x)
    (hg : ∀ r, r.2.2.Wf A → r.2.2.stream = [] → Meets A E f' (g r)) :
    Meets A E (f.and_then f') (x >>= g) := by
  cases f with
  | noticed => exact Throws.bind hx g
  | unnoticed => exact meets_of_ends hx fun r hr => hg r hr.1 hr.2
  | outside =>
    rcases hx with rfl | ⟨hE, hthrows⟩
    · exact Or.inl rfl
    · exact Or.inr ⟨hE, hthrows.bind g⟩

/-- What is returned may be packed into another value. -/
theorem Meets.bind_ok (hx : Meets A E f x) (g : Nat × T × IoBuf → Nat × S × IoBuf)
    (hg : ∀ r, (g r).2.2 = r.2.2) : Meets A E f (x >>= fun r => .ok (g r)) := by
  have hsame : f.and_then .unnoticed = f := by
    cases f with
    | noticed => rfl
    | unnoticed => rfl
    | outside => rfl
  have hrest : ∀ r : Nat × T × IoBuf, r.2.2.Wf A → r.2.2.stream = [] →
      Meets A E .unnoticed (.ok (g r)) := by
    intro r hr hs
    show (g r).2.2.Wf A ∧ (g r).2.2.stream = []
    rw [hg]
    exact ⟨hr, hs⟩
  have hbind := hx.bind hrest
  rw [hsame] at hbind
  exact hbind

/-- A reader that finds a proper prefix of `cs` has the fate of these chunks. -/
def Cuts (A : Allocator) (read : IoBuf → Outcome (Nat × T × IoBuf)) (cs : List Chunk) : Prop :=
  ∀ (b : IoBuf) (missing : List Byte), b.Wf A → bytes_of cs = b.stream ++ missing → missing ≠ [] →
    Meets A (NoMemory A cs) (fate b.is_open b.buffer.capacity cs b.stream.length) (read b)

theorem cuts_nil (read : IoBuf → Outcome (Nat × T × IoBuf)) : Cuts A read [] := by
  intro b missing _ hbytes hmissing
  exact absurd (append_eq_nil_iff.mp hbytes.symm).2 hmissing

/-- The first of the chunks has bytes, and is not the text of a string. -/
def Begins : List Chunk → Prop
  | [] => False
  | k :: _ => k.bytes ≠ [] ∧ k.text = false

theorem Begins.append {cs : List Chunk} (h : Begins cs) (ds : List Chunk) : Begins (cs ++ ds) := by
  cases cs with
  | nil => exact absurd h id
  | cons k ks => exact h

variable {cs : List Chunk}

theorem Begins.fate_of_rest (h : Begins cs) : fate_of_rest cs = .noticed := by
  cases cs with
  | nil => exact absurd h id
  | cons k ks => rfl

theorem layout_begins {p : Bool} (t : FieldType p T) (v : T) : Begins (layout t v) := by
  have hsize : ∀ size, (size_chunk size).bytes ≠ [] := by
    intro size h
    have := congrArg length h
    rw [size_chunk, length_le_bytes] at this
    cases this
  induction t with
  | pod n hn =>
    refine ⟨?_, rfl⟩
    intro h
    have := congrArg length h
    rw [v.2, length_nil] at this
    omega
  | string => exact ⟨hsize _, rfl⟩
  | set c t _ => exact ⟨hsize _, rfl⟩
  | vector t _ => exact ⟨hsize _, rfl⟩
  | v_array t _ => exact ⟨hsize _, rfl⟩
  | pair f s ihf _ => exact (ihf v.1).append _
  | priority_queue c push t _ => exact ⟨hsize _, rfl⟩
  | map c tk tv _ _ => exact ⟨hsize _, rfl⟩
  | unique_ptr t _ =>
    cases v with
    | none => exact ⟨cons_ne_nil _ _, rfl⟩
    | some v => exact ⟨cons_ne_nil _ _, rfl⟩

variable {read : IoBuf → Outcome (Nat × T × IoBuf)}

/-- At the end of the file there is no next value. -/
theorem Cuts.throws_of_empty (h : Cuts A read cs) (hbegins : Begins cs) {b : IoBuf} (hb : b.Wf A)
    (hstream : b.stream = []) : Throws (read b) := by
  cases cs with
  | nil => exact absurd hbegins id
  | cons k ks =>
    have hpos := length_pos_iff.mpr hbegins.1
    have hmeets := h b (bytes_of (k :: ks)) hb (by rw [hstream]; rfl) (by
      rw [bytes_of_cons]
      exact append_ne_nil_of_left_ne_nil hbegins.1 _)
    rw [hstream, length_nil, fate, if_neg (by omega), if_pos hbegins.2] at hmeets
    exact hmeets

variable {ds : List Chunk}

/-- One reader after the other, when the file ends in either. -/
theorem Cuts.bind {Q : T → Prop} (hfull : ReadsAs A read cs Q) (hcut : Cuts A read cs)
    (hg : ∀ k v, Cuts A (fun b => g (k, v, b)) ds) (hrest : ∀ r, r.2.2.Wf A → r.2.2.stream = [] →
      Meets A (NoMemory A (cs ++ ds)) (fate_of_rest ds) (g r)) :
    Cuts A (fun b => read b >>= g) (cs ++ ds) := by
  intro b missing hb hbytes hmissing
  rw [bytes_of_append] at hbytes
  rcases Nat.lt_or_ge b.stream.length (bytes_of cs).length with hlt | hge
  · obtain ⟨cut, hcs, _⟩ := append_split hbytes.symm hlt.le
    have hne : cut ≠ [] := by
      rintro rfl
      rw [hcs, append_nil] at hlt
      exact lt_irrefl _ hlt
    rw [fate_append_of_lt _ _ _ _ _ hlt]
    exact Meets.bind ((hcut b cut hb hcs hne).mono (·.append_left ds)) hrest
  · -- The bytes of the first part are there, and `there` is what follows them.
    obtain ⟨there, hstream, hds⟩ := append_split hbytes hge
    have hlen : b.stream.length = (bytes_of cs).length + there.length := by
      rw [hstream, length_append]
    rw [fate_append_of_le _ _ _ _ _ hge, hlen, Nat.add_sub_cancel_left]
    apply meets_of_ends ((hfull b there hb hstream).mono (·.append_left ds) fun _ hr => hr)
    intro (k, v, b₁) ⟨_, _, hafter⟩
    have hmeets := hg k v b₁ missing hafter.wf (by rw [hafter.stream_eq, hds]) hmissing
    simp only [hafter.is_open_iff, hafter.capacity_eq, hafter.stream_eq] at hmeets
    exact hmeets.mono (·.append_right cs)

/-- A plain value of which bytes are missing. -/
theorem read_pod_throws {n : Nat} (hn : n < 2 ^ 63) {b : IoBuf} (hb : b.Wf A)
    (hshort : b.stream.length < n) : Throws (read_pod A n b) := by
  apply (bin_read_fixed_short hb hn hshort).bind_throws
  intro (data, b₁) (hlt : data.length < n)
  simp only
  rw [dif_neg (by omega)]
  exact ⟨_, rfl⟩

/-- A plain value, and then what comes behind it. -/
theorem Cuts.pod_bind {n : Nat} (hn : n < 2 ^ 63) (v : Pod n)
    {g : Pod n × IoBuf → Outcome (Nat × T × IoBuf)} (h : Cuts A (fun b => g (v, b)) cs) :
    Cuts A (fun b => read_pod A n b >>= g) (pod_chunk v :: cs) := by
  intro b missing hb hbytes hmissing
  rw [bytes_of_cons] at hbytes
  have hlen : (pod_chunk v).bytes.length = n := v.2
  rw [fate, hlen]
  split
  · rename_i hle
    obtain ⟨there, hstream, hcs⟩ := append_split hbytes (by omega)
    have hread := read_pod_ends hn hb v hstream
    have hthere : b.stream.length - n = there.length := by
      rw [hstream, length_append, hlen, Nat.add_sub_cancel_left]
    apply meets_of_ends (hread.mono (·.append_left cs) fun _ hr => hr)
    rintro ⟨w, b₁⟩ ⟨rfl, hafter⟩
    have hmeets := h b₁ missing hafter.wf (by rw [hafter.stream_eq, hcs]) hmissing
    have hcap : b₁.buffer.capacity = grow b.buffer.capacity n := by
      rw [hafter.capacity_eq]
      exact congrArg (grow b.buffer.capacity) hlen
    simp only [hafter.is_open_iff, hcap, hafter.stream_eq, ← hthere] at hmeets
    exact hmeets.mono (·.append_right [pod_chunk w])
  · rename_i hshort
    have htext : (pod_chunk v).text = false := rfl
    rw [if_pos htext]
    exact (read_pod_throws hn hb (by omega)).bind g

/-- The text of a string of which bytes are missing. -/
theorem read_text_cuts {s : List Byte} (hs : s.length < 2 ^ 32) :
    Cuts A (read_text A s.length) [⟨s, true⟩] := by
  intro b missing hb hbytes hmissing
  have hmem : NoMemory A [⟨s, true⟩] = ¬ A.Provides (2 * s.length) := by
    simp [NoMemory, bytes_of]
  rw [bytes_of_cons, bytes_of_nil, append_nil] at hbytes
  have hpos := length_pos_iff.mpr hmissing
  have hlen : s.length = b.stream.length + missing.length := by
    rw [← length_append]
    exact congrArg length hbytes
  rw [hmem]
  apply meets_of_ends (buf_read_ends hb (by omega))
  intro r hr
  obtain ⟨cs, count, b₁⟩ := r
  obtain ⟨hd, halloc⟩ := hr
  replace hd : Delivers A b cs count b₁ _ _ := hd
  -- What there was of the text lies at the front of the allocation.
  have hfront := halloc.at_front (by omega)
  have hcap := halloc.capacity_eq
  have hmemory := hd.wf.mem_length
  simp only at hfront hcap hmemory ⊢
  rw [InternalBuffer.capacity, ← hmemory] at hcap
  rw [fate, if_neg (by simp only; omega), if_neg (by simp), ← hcap]
  split
  · rename_i hout
    simp only at hout
    have hload : load_bytes b₁.buffer.load cs s.length = undefined :=
      load_bytes_outside (by omega) (by omega) (by omega)
    rw [hload]
    exact Or.inl rfl
  · rename_i hin
    simp only at hin
    obtain ⟨str, hload⟩ := load_bytes_inside (n := s.length) (by omega : b₁.buffer.begin_ ≤ cs)
      (by omega)
    rw [hload]
    have hnil : b₁.stream = [] := by
      rw [hd.stream_eq]
      exact drop_eq_nil_of_le (by omega)
    exact ⟨hd.wf, hnil⟩

theorem Cuts.seq {F : Type} {read₁ : IoBuf → Outcome (Nat × F × IoBuf)}
    {read₂ : IoBuf → Outcome (Nat × S × IoBuf)} {Q : F → Prop} (hfull : ReadsAs A read₁ cs Q)
    (h₁ : Cuts A read₁ cs) (h₂ : Cuts A read₂ ds) (hbegins : Begins ds) :
    Cuts A (fun b => do
      let (k₁, first, b) ← read₁ b
      let (k₂, second, b) ← read₂ b
      return (k₁ + k₂, (first, second), b)) (cs ++ ds) := by
  have hcut : ∀ (k : Nat) (v : F), Cuts A (fun b => do
      let (k₂, second, b) ← read₂ b
      return (k + k₂, (v, second), b)) ds := by
    intro k v b missing hb hbytes hmissing
    exact (h₂ b missing hb hbytes hmissing).bind_ok (fun r => (k + r.1, (v, r.2.1), r.2.2))
      fun _ => rfl
  apply Cuts.bind hfull h₁ hcut
  intro (k, v, b) hb hstream
  rw [hbegins.fate_of_rest]
  exact (hcut k v).throws_of_empty hbegins hb hstream

variable {enc : T → List Chunk}

theorem read_elements_cuts {C : Type} {add : C → T → C} {E : T → T → Prop} {vs : List T}
    (hfull : ∀ v ∈ vs, ReadsAs A read (enc v) fun w => E w v)
    (hcut : ∀ v ∈ vs, Cuts A read (enc v)) (hbegins : ∀ v ∈ vs, Begins (enc v)) :
    ∀ (bytes : Nat) (c : C), Cuts A (read_elements read add vs.length bytes c) (vs.flatMap enc) := by
  induction vs with
  | nil =>
    intro bytes c
    exact cuts_nil _
  | cons v vs ih =>
    intro bytes c
    have hrest := ih (fun w hw => hfull w (mem_cons_of_mem _ hw))
      (fun w hw => hcut w (mem_cons_of_mem _ hw))
      (fun w hw => hbegins w (mem_cons_of_mem _ hw))
    rw [flatMap_cons]
    apply Cuts.bind (hfull v mem_cons_self) (hcut v mem_cons_self)
    · intro k w
      exact hrest (bytes + k) (add c w)
    · intro (k, w, b) hb hstream
      cases vs with
      | nil => exact ⟨hb, hstream⟩
      | cons u vs =>
        have hbegins' : Begins ((u :: vs).flatMap enc) :=
          (hbegins u (mem_cons_of_mem _ mem_cons_self)).append _
        rw [hbegins'.fate_of_rest]
        exact (hrest (bytes + k) (add c w)).throws_of_empty hbegins' hb hstream

theorem read_container_cuts {C : Type} {add : C → T → C} {E : T → T → Prop} {vs : List T}
    (hsize : vs.length < 2 ^ 32) (hfull : ∀ v ∈ vs, ReadsAs A read (enc v) fun w => E w v)
    (hcut : ∀ v ∈ vs, Cuts A read (enc v)) (hbegins : ∀ v ∈ vs, Begins (enc v)) (c : C) :
    Cuts A (read_container A read add c) (size_chunk vs.length :: vs.flatMap enc) := by
  rw [read_container_eq]
  apply Cuts.pod_bind (by decide) (pod_size vs.length)
  simp only
  rw [of_le_bytes_pod_size hsize]
  exact read_elements_cuts hfull hcut hbegins 4 c

/-- `read_model_field` at the end of the file. -/
theorem read_model_field_cuts {p : Bool} (t : FieldType p T) :
    ∀ (v : T), SizesFit t v → Cuts A (read_model_field A t t.fresh) (layout t v) := by
  induction t with
  | pod n hn =>
    intro v _
    exact Cuts.pod_bind hn.2 v (cuts_nil _)
  | string =>
    intro v hfit
    show Cuts A (read_string A) _
    rw [read_string_eq]
    apply Cuts.pod_bind (by decide) (pod_size v.length)
    simp only
    rw [of_le_bytes_pod_size hfit]
    exact read_text_cuts hfit
  | set c t ih =>
    intro v hfit
    exact read_container_cuts hfit.1 (fun w hw => read_model_field_ends t w (hfit.2 w hw))
      (fun w hw => ih w (hfit.2 w hw)) (fun w _ => layout_begins t w) _
  | vector t ih =>
    intro v hfit
    exact read_container_cuts hfit.1 (fun w hw => read_model_field_ends t w (hfit.2 w hw))
      (fun w hw => ih w (hfit.2 w hw)) (fun w _ => layout_begins t w) _
  | v_array t ih =>
    intro v hfit
    exact read_container_cuts hfit.1 (fun w hw => read_model_field_ends t w (hfit.2 w hw))
      (fun w hw => ih w (hfit.2 w hw)) (fun w _ => layout_begins t w) _
  | pair f s ihf ihs =>
    intro v hfit
    exact Cuts.seq (read_model_field_ends f v.1 hfit.1) (ihf v.1 hfit.1) (ihs v.2 hfit.2)
      (layout_begins s v.2)
  | priority_queue c push t ih =>
    intro v hfit
    exact read_container_cuts hfit.1 (fun w hw => read_model_field_ends t w (hfit.2 w hw))
      (fun w hw => ih w (hfit.2 w hw)) (fun w _ => layout_begins t w) _
  | map c tk tv ihk ihv =>
    intro v hfit
    apply read_container_cuts hfit.1
    · intro w hw
      exact ReadsAs.seq (read_model_field_ends tk w.1 (hfit.2 w hw).1)
        (read_model_field_ends tv w.2 (hfit.2 w hw).2)
    · intro w hw
      exact Cuts.seq (read_model_field_ends tk w.1 (hfit.2 w hw).1) (ihk w.1 (hfit.2 w hw).1)
        (ihv w.2 (hfit.2 w hw).2) (layout_begins tv w.2)
    · intro w _
      exact (layout_begins tk w.1).append _
  | unique_ptr t ih =>
    intro v hfit
    cases v with
    | none => exact Cuts.pod_bind (by decide) (⟨[1], rfl⟩ : Pod 1) (cuts_nil _)
    | some v =>
      apply Cuts.pod_bind (by decide) (⟨[0], rfl⟩ : Pod 1)
      intro b missing hb hbytes hmissing
      have hmeets := (ih v (hfit v rfl) b missing hb hbytes hmissing).bind_ok
        (fun r => (1 + r.1, some r.2.1, r.2.2)) fun _ => rfl
      exact hmeets

end Reading

/-! ## Which truncations are rejected -/

/-- The end of the file, after `n` bytes, is noticed. It falls into a chunk
    that is not the text of a string; or into a text with something behind it,
    and the allocation is then as long as the string. -/
def EndNoticed (b : IoBuf) (cs : List Chunk) (n : Nat) : Prop :=
  ∃ pre k post, cs = pre ++ k :: post ∧ (bytes_of pre).length ≤ n ∧
    n < (bytes_of pre).length + k.bytes.length ∧
    (k.text = false ∨ post ≠ [] ∧
      k.bytes.length ≤ capacity_after b.is_open (grown b.buffer.capacity pre)
        (n - (bytes_of pre).length) k.bytes.length)

/-- Every position falls into a chunk. -/
theorem exists_chunk_at (cs : List Chunk) (n : Nat) (h : n < (bytes_of cs).length) :
    ∃ pre k post, cs = pre ++ k :: post ∧ (bytes_of pre).length ≤ n ∧
      n < (bytes_of pre).length + k.bytes.length := by
  induction cs generalizing n with
  | nil => exact absurd h (Nat.not_lt_zero n)
  | cons k ks ih =>
    rw [bytes_of_cons, length_append] at h
    rcases Nat.lt_or_ge n k.bytes.length with hlt | hge
    · exact ⟨[], k, ks, rfl, Nat.zero_le n, by rw [bytes_of_nil, length_nil]; omega⟩
    · obtain ⟨pre, k', post, hks, hle, hlt⟩ := ih (n - k.bytes.length) (by omega)
      refine ⟨k :: pre, k', post, by rw [hks, cons_append], ?_, ?_⟩
      · rw [bytes_of_cons, length_append]
        omega
      · rw [bytes_of_cons, length_append]
        omega

/-- The fate, by the chunk that the end falls into. -/
theorem fate_at (opened : Prop) [Decidable opened] (c n : Nat) {pre post : List Chunk} {k : Chunk}
    (hle : (bytes_of pre).length ≤ n) (hlt : n < (bytes_of pre).length + k.bytes.length) :
    fate opened c (pre ++ k :: post) n = .noticed ↔
      (k.text = false ∨ post ≠ [] ∧ k.bytes.length ≤
        capacity_after opened (grown c pre) (n - (bytes_of pre).length) k.bytes.length) := by
  rw [fate_append_of_le _ _ _ _ _ hle, fate, if_neg (by omega)]
  split
  · rename_i htext
    exact iff_of_true rfl (Or.inl htext)
  · rename_i htext
    rw [or_iff_right htext]
    split
    · rename_i hout
      apply iff_of_false (by intro h; cases h)
      rintro ⟨_, hin⟩
      omega
    · rename_i hin
      cases post with
      | nil => exact iff_of_false (by intro h; cases h) fun h => h.1 rfl
      | cons d ds => exact iff_of_true rfl ⟨cons_ne_nil d ds, Nat.not_lt.mp hin⟩

theorem fate_eq_noticed_iff (b : IoBuf) (cs : List Chunk) (n : Nat) (h : n < (bytes_of cs).length) :
    fate b.is_open b.buffer.capacity cs n = .noticed ↔ EndNoticed b cs n := by
  constructor
  · intro hfate
    obtain ⟨pre, k, post, rfl, hle, hlt⟩ := exists_chunk_at cs n h
    exact ⟨pre, k, post, rfl, hle, hlt, (fate_at _ _ _ hle hlt).mp hfate⟩
  · rintro ⟨pre, k, post, rfl, hle, hlt, hnoticed⟩
    exact (fate_at _ _ _ hle hlt).mpr hnoticed

/-- A proper prefix of what the writer has written, in whatever buffer and
    delivered by whatever files, is rejected if the end is noticed, and only
    then as long as there is memory. -/
theorem truncated_field_throws_iff {p : Bool} {T : Type} (t : FieldType p T) (v : T)
    (hfit : SizesFit t v) {name : String} (hname : has_template name = false) (o : Output) :
    ∃ k o', write_model_field t v name o = .ok (k, o') ∧ o'.written = o.written ++ encode t v ∧
      ∀ (A : Allocator) (b : IoBuf) (missing : List Byte), b.Wf A →
        encode t v = b.stream ++ missing → missing ≠ [] →
        (EndNoticed b (layout t v) b.stream.length →
          Throws (read_model_field A t t.fresh b)) ∧
        (A.Provides (2 * (encode t v).length) →
          Throws (read_model_field A t t.fresh b) →
          EndNoticed b (layout t v) b.stream.length) := by
  obtain ⟨⟨k, o'⟩, hwrite, _, hwritten⟩ := write_model_field_returns t v hfit name hname o
  refine ⟨k, o', hwrite, hwritten, ?_⟩
  intro A b missing hb hencode hmissing
  have hlt : b.stream.length < (bytes_of (layout t v)).length := by
    have hlen : (bytes_of (layout t v)).length = b.stream.length + missing.length := by
      rw [← length_append]
      exact congrArg length hencode
    have := length_pos_iff.mpr hmissing
    omega
  have hmeets := read_model_field_cuts (A := A) t v hfit b missing hb hencode hmissing
  rw [← fate_eq_noticed_iff b _ _ hlt]
  constructor
  · intro hfate
    rw [hfate] at hmeets
    exact hmeets
  · rintro hmem ⟨what, hthrows⟩
    cases hfate : fate b.is_open b.buffer.capacity (layout t v) b.stream.length with
    | noticed => rfl
    | unnoticed =>
      rw [hfate, hthrows] at hmeets
      exact absurd hmem hmeets
    | outside =>
      rw [hfate, hthrows] at hmeets
      rcases hmeets with hundefined | ⟨hnone, _⟩
      · cases hundefined
      · exact absurd hmem hnone

/-- The string `"ab"` and a byte behind it, cut after the `a`. -/
theorem truncated_field_throws_iff_pair :
    ∃ b, open_ flat_memory [chunked 7 [2, 0, 0, 0, 97]] = .ok b ∧
      Throws (read_model_field flat_memory (.pair .string (.pod 1 (by decide)))
        (FieldType.fresh (.pair .string (.pod 1 (by decide)))) b) := by
  obtain ⟨b, hopen, hwf, hstream, hcap, _⟩ := exists_opened [2, 0, 0, 0, 97]
  have hfit : SizesFit (.pair .string (.pod 1 (by decide))) ([97, 98], ⟨[7], rfl⟩) := by
    simp [SizesFit]
  have hname : has_template "" = false := by decide
  obtain ⟨k, o', _, _, hiff⟩ := truncated_field_throws_iff _ _ hfit hname {}
  refine ⟨b, hopen, (hiff flat_memory b [98, 7] hwf (by rw [hstream]; rfl) (by simp)).1 ?_⟩
  refine ⟨[size_chunk 2], ⟨[97, 98], true⟩, [pod_chunk (n := 1) ⟨[7], rfl⟩], rfl, ?_, ?_,
    Or.inr ⟨cons_ne_nil _ _, ?_⟩⟩
  · rw [hstream]
    decide
  · rw [hstream]
    decide
  · have hgrown : grown b.buffer.capacity [size_chunk 2] = INITIAL_BUFF_SIZE := by
      rw [hcap]
      exact grow_of_le (by decide)
    rw [hgrown, hstream, capacity_after_of_lt]
    · decide
    · decide
    · decide

/-- The string `"ab"` alone, cut after the `a`, is read as a string. -/
theorem truncated_string_returns :
    ∃ k o b r, write_model_field .string [97, 98] "" {} = .ok (k, o) ∧
      o.written = [2, 0, 0, 0, 97] ++ [98] ∧
      open_ flat_memory [chunked 7 [2, 0, 0, 0, 97]] = .ok b ∧
      b.stream = [2, 0, 0, 0, 97] ∧
      read_model_field flat_memory .string [] b = .ok r := by
  obtain ⟨b, hopen, hwf, hstream, hcap, _⟩ := exists_opened [2, 0, 0, 0, 97]
  obtain ⟨⟨k, o⟩, hwrite, _, hwritten⟩ := write_model_field_returns .string [97, 98]
    (by decide : 2 < 2 ^ 32) "" (by decide) {}
  have hmeets := read_model_field_cuts (A := flat_memory) .string [97, 98]
    (by decide : 2 < 2 ^ 32) b [98] hwf (by rw [hstream]; rfl) (by simp)
  have hfate : fate b.is_open b.buffer.capacity (layout .string [97, 98]) b.stream.length
      = .unnoticed := by
    rw [hstream, hcap]
    simp only [layout, fate, size_chunk, length_le_bytes, length_cons, length_nil]
    rw [if_pos (by decide), if_neg (by decide), if_neg (by decide),
      grow_of_le (by decide), capacity_after_of_lt _ (by decide) (by decide)]
    rfl
  rw [hfate] at hmeets
  have henough : ¬ NoMemory flat_memory (layout .string [97, 98]) :=
    not_not.mpr (flat_memory_provides (by decide))
  obtain ⟨r, hread, _⟩ := Ends.returns hmeets henough
  exact ⟨k, o, b, r, hwrite, hwritten, hopen, hstream, hread⟩

end VW.ModelUtils
