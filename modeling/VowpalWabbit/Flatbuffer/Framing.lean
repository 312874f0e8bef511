import VowpalWabbit.IoBuf.Capacity
import VowpalWabbit.IoBuf.Runs

/-! # The framing of a stream of flatbuffers

    In a file every flatbuffer comes after its size, a number of 32 bits. `parser::parse` reads
    the size at a multiple of 8 and the object at an offset of 4 from one, each with a
    `buf_read` of its own.

    The root of an object is found by code that is generated from the schema; it is a parameter.
-/

open Cpp Refinement

namespace VW.Framing

open List IoBuf

variable {Root : Type}

/-! ## The parser -/

/-- What the generated code finds in the memory from an address to the end of the allocation.
    It reads the offset of the root, of four bytes. -/
structure Roots (Root : Type) where
  GetExampleRoot : List Byte → Outcome Root
  GetSizePrefixedExampleRoot : List Byte → Outcome Root
  reads_offset : ∀ mem : List Byte, 4 ≤ mem.length → ∃ root, GetExampleRoot mem = .ok root

/-- The part of `parser` that `parse` works on. What was never set holds anything. -/
structure Parser (Root : Type) where
  _data : Root
  _flatbuffer_pointer : Nat
  _object_size : Nat
  _num_example_roots : Nat

/-- `error_code`, with the message of the error. -/
inductive Status where
  | success
  | nothing_to_parse
  | internal_error (message : String)
  deriving DecidableEq

def align_prefixed : DesiredAlign := { align := 8, offset := 0 }

def align_data : DesiredAlign := { align := 8, offset := 4 }

def hex (address : Nat) : String := String.ofList (Nat.toDigits 16 address)

def return_if_align_error (target_align : DesiredAlign) (actual_ptr example_root_count : Nat) : Option Status :=
  if target_align.is_aligned actual_ptr then none
  else
    let align := target_align.align
    let offset := target_align.offset
    some (.internal_error
      (s!"fb_parser error: flatbuffer data not aligned to align: {align}, offset: {offset}\n" ++
        s!"   example_root[{example_root_count}] => @{hex actual_ptr} % {align} = {actual_ptr % align}" ++
        s!" (vs desired = {offset})"))

/-- The bytes of the allocation from `ptr` on. -/
def allocated_from (b : InternalBuffer) (ptr : Nat) : List Byte := b.mem.drop (ptr - b.begin_)

/-- The object behind a size prefix. -/
def parse_object (A : Allocator) (F : Roots Root) (p : Parser Root) (buf : IoBuf) :
    Outcome (Parser Root × IoBuf × Status) := do
  -- How many bytes were read is not looked at.
  let (line, _, buf) ← buf.buf_read A p._object_size align_data
  match return_if_align_error align_data line p._num_example_roots with
  | some status => return (p, buf, status)
  | none =>
    let data ← F.GetExampleRoot (allocated_from buf.buffer line)
    return ({ p with _flatbuffer_pointer := line
                     _data := data
                     _num_example_roots := p._num_example_roots + 1 }, buf, .success)

/-- `parse` of an `io_buf`. -/
def parse (A : Allocator) (F : Roots Root) (p : Parser Root) (buf : IoBuf) :
    Outcome (Parser Root × IoBuf × Status) := do
  let (line, len, buf) ← buf.buf_read A 4 align_prefixed
  if len < 4 then
    if len = 0 then return (p, buf, .nothing_to_parse)
    else return (p, buf, .internal_error "Flatbuffer size prefix is incomplete; input is malformed.")
  else parse_object A F { p with _object_size := of_le_bytes (buf.buffer.bytes_at line 4) } buf

/-! ## What a call answers -/

/-- What a caller sees of a call. An object is the number of bytes that it announces, and those
    of them that have been read. -/
inductive Answer where
  | nothing_to_parse
  | error
  | object (announced : Nat) (bytes : List Byte)
  deriving DecidableEq

/-- The bytes that have been read at the exposed pointer, up to the size of the object. -/
def Parser.exposed (p : Parser Root) (buf : IoBuf) : List Byte :=
  buf.buffer.bytes_at p._flatbuffer_pointer
    (min p._object_size (buf.buffer.end_ - p._flatbuffer_pointer))

def answer (p : Parser Root) (buf : IoBuf) : Status → Answer
  | .success => .object p._object_size (p.exposed buf)
  | .nothing_to_parse => .nothing_to_parse
  | .internal_error _ => .error

/-- The parser with its buffer; a label is the answer of a call. -/
def parse_system (A : Allocator) (F : Roots Root) : System (Parser Root × IoBuf) Answer where
  step s a s' := ∃ status, parse A F s.1 s.2 = .ok (s'.1, s'.2, status) ∧ a = answer s'.1 s'.2 status

/-! ## What a stream of objects is -/

/-- The size that a stream begins with. -/
def announced (s : List Byte) : Nat := of_le_bytes (s.take 4)

/-- The stream ends before the object it begins with. -/
def Truncated (s : List Byte) : Prop := s.length < 4 + announced s

instance (s : List Byte) : Decidable (Truncated s) := inferInstanceAs (Decidable (_ < _))

/-- The object a stream begins with, and what comes after it. -/
def next_object (s : List Byte) : Answer × List Byte :=
  (.object (announced s) ((s.drop 4).take (announced s)), s.drop (4 + announced s))

/-- What a call is to answer when `s` is still to come. Nothing comes after an error. -/
def framed (s : List Byte) : Answer × List Byte :=
  if s = [] then (.nothing_to_parse, [])
  else if s.length < 4 ∨ Truncated s then (.error, [])
  else next_object s

/-- The stream of objects. -/
def frame_system : System (List Byte) Answer where
  step s a s' := framed s = (a, s')

/-- An object with its size in front. -/
def size_prefixed (object : List Byte) : List Byte := le_bytes 4 object.length ++ object

/-- The stream consists of objects with their sizes, and at most the beginning of a size. -/
def Whole (s : List Byte) : Prop :=
  ∃ (objects : List (List Byte)) (tail : List Byte), (∀ o ∈ objects, o.length < 2 ^ 32) ∧
    tail.length < 4 ∧ s = objects.flatMap size_prefixed ++ tail

/-- On a stream `s`, in whatever pieces it comes, the calls split it into its objects: whatever
    was called before, the next call returns or fails to get memory. -/
def Splits (F : Roots Root) (s : List Byte) : Prop :=
  ∀ A : Allocator, 3 ≤ A.align_exp → ∀ files : List Reader, (∀ f ∈ files, f.Faithful) →
    files.flatMap Reader.data = s → ∀ b₀, open_ A files = .ok b₀ →
      ∀ (p₀ : Parser Root) (trace : List Answer) (q : Parser Root × IoBuf),
        Run (parse_system A F) (p₀, b₀) trace q →
          Run frame_system s trace q.2.stream ∧
          ((∃ a q', (parse_system A F).step q a q') ∨
            ∃ e, parse A F q.1 q.2 = .error e ∧ out_of_memory A (2 * (2 ^ 32 + 4)) e)

/-! ## The two reads -/

variable {A : Allocator} {F : Roots Root} {b b' : IoBuf}

theorem refill_multiple {d : Nat} {more : Bool} (h : b.refill A = .ok (more, b'))
    (hd : d ∣ b.buffer.capacity) : d ∣ b'.buffer.capacity := by
  unfold refill at h
  split at h
  · rw [Outcome.bind_eq_ok] at h
    obtain ⟨⟨num_read, b₁⟩, hfill, h⟩ := h
    have hcap := fill_capacity hfill
    have hd₁ : d ∣ b₁.buffer.capacity := by
      rw [hcap]
      split
      · exact Dvd.dvd.mul_left hd 2
      · exact hd
    simp only at h
    split at h
    · cases h
      exact hd₁
    · cases h
      exact hd₁
  · cases h
    exact hd

/-- The allocation only ever doubles. -/
theorem buf_read_loop_multiple {d n : Nat} {align : DesiredAlign} (fuel : Nat) :
    ∀ b : IoBuf, d ∣ b.buffer.capacity → ∀ ptr count b',
      buf_read_loop A n align fuel b = .ok (ptr, count, b') → d ∣ b'.buffer.capacity := by
  induction fuel with
  | zero =>
    intro b _ ptr count b' h
    cases h
  | succ fuel ih =>
    intro b hd ptr count b' h
    have hshift : d ∣ (b.shift_to_front align).buffer.capacity := by
      rw [capacity_shift_to_front]
      exact hd
    rw [buf_read_loop] at h
    split at h
    · split at h
      · cases h
        exact hd
      · split at h
        · cases h
          exact hshift
        · cases h
    · simp only at h
      rw [Outcome.bind_eq_ok] at h
      obtain ⟨⟨more, b₂⟩, hrefill, h⟩ := h
      have hd₂ : d ∣ b₂.buffer.capacity := by
        apply refill_multiple hrefill
        split
        · exact hshift
        · exact hd
      simp only at h
      split at h
      · exact ih b₂ hd₂ ptr count b' h
      · unfold final_read at h
        split at h
        · cases h
        · cases h
          exact hd₂

/-- Invariant of the buffer between two calls. -/
structure Ready (A : Allocator) (b : IoBuf) : Prop where
  wf : b.Wf A
  multiple : 8 ∣ b.buffer.capacity

theorem eight_dvd (hA : 3 ≤ A.align_exp) : 8 ∣ 2 ^ A.align_exp := Nat.pow_dvd_pow 2 hA

theorem read_size_spec (hA : 3 ≤ A.align_exp) (hb : Ready A b) :
    (∀ e, b.buf_read A 4 align_prefixed = .error e → out_of_memory A (2 * (2 ^ 32 + 4)) e) ∧
    ∀ ptr count b', b.buf_read A 4 align_prefixed = .ok (ptr, count, b') →
      Delivers A b ptr count b' (b.stream.take 4) (b.stream.drop 4) ∧
      8 ∣ ptr ∧ 8 ∣ b'.buffer.capacity := by
  obtain ⟨hE, hO⟩ := buf_read_spec hb.wf (by decide : 4 < 2 ^ 63)
    (⟨rfl, eight_dvd hA⟩ : Alignable A align_prefixed)
  refine ⟨fun e h => out_of_memory_mono (by omega) (hE e h), fun ptr count b' h => ?_⟩
  obtain ⟨hd, hal⟩ := hO ptr count b' h
  simp only [DesiredAlign.is_aligned, align_prefixed, beq_iff_eq] at hal
  exact ⟨hd, Nat.dvd_of_mod_eq_zero hal, buf_read_loop_multiple _ b hb.multiple ptr count b' h⟩

variable {s rest : List Byte}

/-- After the size the head is far enough from the front for the offset of the object. -/
theorem placed_after_size {ptr : Nat} (hA : 3 ≤ A.align_exp)
    (hd : Delivers A b ptr 4 b' s rest) : b'.Placed A align_data := by
  have hhead := hd.head_eq
  have hbegin := hd.begin_le
  have hdvd : align_data.align ∣ 2 ^ A.align_exp := eight_dvd hA
  refine ⟨⟨hdvd, by decide⟩, ?_⟩
  show b'.buffer.begin_ + 4 ≤ b'.head
  omega

/-- At the offset of an object the allocation has room for the offset of its root. -/
theorem room_for_offset (hA : 3 ≤ A.align_exp) (hb : Ready A b) {ptr : Nat}
    (hbegin : b.buffer.begin_ ≤ ptr) (hend : ptr ≤ b.buffer.end_array) (hptr : ptr % 8 = 4) :
    4 ≤ (allocated_from b.buffer ptr).length := by
  have hm := hb.wf.mem_length
  have haligned := (eight_dvd hA).trans hb.wf.aligned
  have hmultiple := hb.multiple
  rw [InternalBuffer.capacity] at hmultiple
  rw [allocated_from, length_drop, hm]
  omega

/-- The bytes of an object that a read has delivered are those it exposes. -/
theorem exposed_eq (p : Parser Root) {line count n : Nat}
    (hd : Delivers A b line count b' (s.take n) rest) (hline : p._flatbuffer_pointer = line)
    (hn : p._object_size = n) (hrest : s.length < n → b'.head = b'.buffer.end_) :
    p.exposed b' = s.take n := by
  subst hline
  have hhead := hd.head_eq
  have hend := hd.wf.ordered.2.1
  have hcount := hd.count_eq
  rw [length_take] at hcount
  have hmin : min n (b'.buffer.end_ - p._flatbuffer_pointer) = count := by
    by_cases hshort : s.length < n
    · have := hrest hshort
      omega
    · omega
  rw [Parser.exposed, hn, hmin, hd.bytes]

theorem parse_object_spec (hA : 3 ≤ A.align_exp) (hb : Ready A b) (hplaced : b.Placed A align_data)
    (p : Parser Root) (hn : p._object_size < 2 ^ 32) :
    (∀ e, parse_object A F p b = .error e → out_of_memory A (2 * (2 ^ 32 + 4)) e) ∧
    ∀ p' b' status, parse_object A F p b = .ok (p', b', status) →
      Ready A b' ∧ b'.stream = b.stream.drop p._object_size ∧
      answer p' b' status = .object p._object_size (b.stream.take p._object_size) := by
  obtain ⟨hE, hO⟩ := buf_read_placed_spec hb.wf (by omega : p._object_size < 2 ^ 63) hplaced
  cases hread : b.buf_read A p._object_size align_data with
  | error e =>
    have heq : parse_object A F p b = .error e := by simp [parse_object, hread]
    rw [heq]
    constructor
    · intro e' he
      cases he
      have hoffset : align_data.offset = 4 := rfl
      exact out_of_memory_mono (by omega) (hE e hread)
    · intro p' b' status h
      cases h
  | ok r =>
    obtain ⟨line, count, b₁⟩ := r
    obtain ⟨hd, hal⟩ := hO line count b₁ hread
    have hmultiple := buf_read_loop_multiple _ b hb.multiple line count b₁ hread
    have hready : Ready A b₁ := ⟨hd.wf, hmultiple⟩
    have hord := hd.wf.ordered
    have hhead := hd.head_eq
    have hmod : line % 8 = 4 := by
      simpa only [DesiredAlign.is_aligned, align_data, beq_iff_eq] using hal
    -- The pointer is in the allocation, so that the root is looked for there.
    have hle : line ≤ b₁.buffer.end_array := by
      have h2 := hord.2.1
      have h3 := hord.2.2
      omega
    obtain ⟨root, hroot⟩ := F.reads_offset _ (room_for_offset hA hready hd.begin_le hle hmod)
    have heq : parse_object A F p b = .ok ({ p with _flatbuffer_pointer := line
                                                    _data := root
                                                    _num_example_roots := p._num_example_roots + 1 },
        b₁, .success) := by
      simp [parse_object, hread, return_if_align_error, hal, hroot]
    rw [heq]
    refine ⟨fun e he => (by cases he), fun p' b' status h => ?_⟩
    cases h
    refine ⟨hready, hd.stream_eq, ?_⟩
    have hrest : b.stream.length < p._object_size → b₁.head = b₁.buffer.end_ := by
      intro hshort
      have hnil : b₁.unread = [] := by
        have hstream := hd.stream_eq
        rw [drop_eq_nil_of_le hshort.le] at hstream
        exact (append_eq_nil_iff.mp hstream).1
      have hlen := hd.wf.length_unread
      rw [hnil, length_nil] at hlen
      have h2 := hord.2.1
      omega
    rw [answer]
    congr 1
    exact exposed_eq _ hd rfl rfl hrest

/-- What the code answers: the size is believed. -/
def served (s : List Byte) : Answer × List Byte :=
  if s = [] then (.nothing_to_parse, [])
  else if s.length < 4 then (.error, [])
  else next_object s

theorem announced_lt (s : List Byte) : announced s < 2 ^ 32 := by
  have h := of_le_bytes_lt (s.take 4)
  have hle : (s.take 4).length ≤ 4 := length_take_le 4 s
  have hpow : 256 ^ (s.take 4).length ≤ 256 ^ 4 := Nat.pow_le_pow_right (by decide) hle
  rw [announced]
  omega

theorem parse_spec (hA : 3 ≤ A.align_exp) (hb : Ready A b) (p : Parser Root) :
    (∀ e, parse A F p b = .error e → out_of_memory A (2 * (2 ^ 32 + 4)) e) ∧
    ∀ p' b' status, parse A F p b = .ok (p', b', status) →
      Ready A b' ∧ (answer p' b' status, b'.stream) = served b.stream := by
  obtain ⟨hE, hO⟩ := read_size_spec hA hb
  cases hread : b.buf_read A 4 align_prefixed with
  | error e =>
    have heq : parse A F p b = .error e := by simp [parse, hread]
    rw [heq]
    constructor
    · intro e' he
      cases he
      exact hE e hread
    · intro p' b' status h
      cases h
  | ok r =>
    obtain ⟨line, len, b₁⟩ := r
    obtain ⟨hd, hptr, hmultiple⟩ := hO line len b₁ hread
    have hready : Ready A b₁ := ⟨hd.wf, hmultiple⟩
    have hlen : len = min 4 b.stream.length := by rw [hd.count_eq, length_take]
    by_cases hshort : len < 4
    · have hdrop : b₁.stream = [] := by
        rw [hd.stream_eq]
        exact drop_eq_nil_of_le (by omega)
      by_cases hzero : len = 0
      · -- The stream ends here.
        have hnil : b.stream = [] := length_eq_zero_iff.mp (by omega)
        have heq : parse A F p b = .ok (p, b₁, .nothing_to_parse) := by
          simp [parse, hread, hzero]
        rw [heq]
        refine ⟨fun e he => (by cases he), fun p' b' status h => ?_⟩
        cases h
        rw [hnil, hdrop]
        exact ⟨hready, rfl⟩
      · -- It ends inside of a size.
        have hne : b.stream ≠ [] := by
          intro h
          rw [h, length_nil] at hlen
          omega
        have heq : parse A F p b = .ok (p, b₁, .internal_error
            "Flatbuffer size prefix is incomplete; input is malformed.") := by
          simp [parse, hread, hzero, hshort]
        rw [heq]
        refine ⟨fun e he => (by cases he), fun p' b' status h => ?_⟩
        cases h
        rw [served, if_neg hne, if_pos (by omega), hdrop]
        exact ⟨hready, rfl⟩
    · have hfour : len = 4 := by omega
      subst hfour
      have hbytes : b₁.buffer.bytes_at line 4 = b.stream.take 4 := hd.bytes
      have heq : parse A F p b = parse_object A F { p with _object_size := announced b.stream } b₁ := by
        simp [parse, hread, hbytes, announced]
      obtain ⟨hE₁, hO₁⟩ := parse_object_spec (F := F) hA hready (placed_after_size hA hd)
        { p with _object_size := announced b.stream } (announced_lt b.stream)
      rw [heq]
      refine ⟨hE₁, fun p' b' status h => ?_⟩
      obtain ⟨hready', hstream, hanswer⟩ := hO₁ p' b' status h
      have hne : b.stream ≠ [] := by
        intro h
        rw [h, length_nil] at hlen
        omega
      rw [served, if_neg hne, if_neg (by omega), next_object, hanswer, hstream, hd.stream_eq,
        drop_drop]
      exact ⟨hready', rfl⟩

/-- A call that does not run out of memory. -/
theorem parse_step (hA : 3 ≤ A.align_exp) (hb : Ready A b) (p : Parser Root)
    (hmem : A.Provides (2 * (2 ^ 32 + 4))) :
    ∃ q, (parse_system A F).step (p, b) (served b.stream).1 q ∧ Ready A q.2 ∧
      q.2.stream = (served b.stream).2 := by
  obtain ⟨hE, hO⟩ := parse_spec (F := F) hA hb p
  cases h : parse A F p b with
  | error e => exact absurd (hE e h) (not_out_of_memory hmem)
  | ok r =>
    obtain ⟨p', b', status⟩ := r
    obtain ⟨hready, hserved⟩ := hO p' b' status h
    rw [← hserved]
    exact ⟨(p', b'), ⟨status, h, rfl⟩, hready, rfl⟩

/-! ## Streams -/

theorem framed_of_whole_object (hfour : 4 ≤ s.length) (h : ¬ Truncated s) :
    framed s = next_object s := by
  have hne : s ≠ [] := by
    intro h
    rw [h, length_nil] at hfour
    omega
  rw [framed, if_neg hne, if_neg]
  rintro (hshort | htruncated)
  · omega
  · exact h htruncated

theorem served_of_four (hfour : 4 ≤ s.length) : served s = next_object s := by
  have hne : s ≠ [] := by
    intro h
    rw [h, length_nil] at hfour
    omega
  rw [served, if_neg hne, if_neg (by omega)]

theorem served_of_short (h : s.length < 4) : served s = framed s := by
  rw [served, framed]
  simp only [h, true_or, if_true]

/-- The code does what it is to do just where no object is cut off. -/
theorem served_eq_framed (h : 4 ≤ s.length → ¬ Truncated s) : served s = framed s := by
  by_cases hfour : 4 ≤ s.length
  · rw [served_of_four hfour, framed_of_whole_object hfour (h hfour)]
  · exact served_of_short (by omega)

variable {object : List Byte}

theorem announced_size_prefixed (h : object.length < 2 ^ 32) (s : List Byte) :
    announced (size_prefixed object ++ s) = object.length := by
  have htake : (size_prefixed object ++ s).take 4 = le_bytes 4 object.length := by
    rw [size_prefixed, append_assoc]
    exact take_left' (length_le_bytes 4 _)
  rw [announced, htake, of_le_bytes_le_bytes 4 _ h]

theorem next_object_size_prefixed (h : object.length < 2 ^ 32) (s : List Byte) :
    next_object (size_prefixed object ++ s) = (.object object.length object, s) := by
  have hfour : (le_bytes 4 object.length).length = 4 := length_le_bytes 4 _
  rw [next_object, announced_size_prefixed h, size_prefixed, append_assoc,
    ← drop_drop, drop_left' hfour, take_left, drop_left]

theorem length_size_prefixed (object : List Byte) : (size_prefixed object).length = 4 + object.length := by
  rw [size_prefixed, length_append, length_le_bytes]

/-- The first object of a stream that is not cut off. -/
theorem split_first (hfour : 4 ≤ s.length) (h : ¬ Truncated s) :
    s = size_prefixed ((s.drop 4).take (announced s)) ++ s.drop (4 + announced s) := by
  have hlen : ((s.drop 4).take (announced s)).length = announced s := by
    rw [Truncated] at h
    rw [length_take, length_drop]
    omega
  have hprefix : le_bytes 4 (announced s) = s.take 4 := by
    have hback := le_bytes_of_le_bytes (s.take 4)
    rwa [length_take, min_eq_left hfour] at hback
  rw [size_prefixed, hlen, hprefix, append_assoc, ← drop_drop, take_append_drop,
    take_append_drop]

theorem Whole.of_short (h : s.length < 4) : Whole s :=
  ⟨[], s, by simp, h, rfl⟩

theorem Whole.next {s : List Byte} (hfour : 4 ≤ s.length) (h : ¬ Truncated s)
    (hrest : Whole (s.drop (4 + announced s))) : Whole s := by
  obtain ⟨objects, tail, hlt, htail, heq⟩ := hrest
  refine ⟨(s.drop 4).take (announced s) :: objects, tail, ?_, htail, ?_⟩
  · intro o ho
    rcases mem_cons.mp ho with rfl | ho
    · have hle := length_take_le (announced s) (s.drop 4)
      have hlt := announced_lt s
      omega
    · exact hlt o ho
  · rw [flatMap_cons, append_assoc, ← heq]
    exact split_first hfour h

/-- What a whole stream is: short, or an object and a whole stream. -/
theorem Whole.cases (h : Whole s) (hfour : 4 ≤ s.length) :
    ¬ Truncated s ∧ Whole (s.drop (4 + announced s)) := by
  obtain ⟨objects, tail, hlt, htail, rfl⟩ := h
  cases objects with
  | nil =>
    rw [flatMap_nil, nil_append] at hfour
    omega
  | cons object objects =>
    have hobject := hlt object (mem_cons_self ..)
    have hsplit : (object :: objects).flatMap size_prefixed ++ tail
        = size_prefixed object ++ (objects.flatMap size_prefixed ++ tail) := by
      rw [flatMap_cons, append_assoc]
    have hrest := next_object_size_prefixed hobject (objects.flatMap size_prefixed ++ tail)
    rw [← hsplit] at hrest
    have hannounced := announced_size_prefixed hobject (objects.flatMap size_prefixed ++ tail)
    rw [← hsplit] at hannounced
    refine ⟨?_, ?_⟩
    · rw [Truncated, hannounced, hsplit, length_append, length_size_prefixed]
      omega
    · have hdrop := congrArg Prod.snd hrest
      simp only [next_object] at hdrop
      rw [hdrop]
      exact ⟨objects, tail, fun o ho => hlt o (mem_cons_of_mem _ ho), htail, rfl⟩

/-- What comes after an answer to a whole stream is whole. -/
theorem Whole.served (h : Whole s) : served s = framed s ∧ Whole (served s).2 := by
  by_cases hfour : 4 ≤ s.length
  · obtain ⟨htruncated, hrest⟩ := h.cases hfour
    refine ⟨served_eq_framed fun _ => htruncated, ?_⟩
    rw [served_of_four hfour]
    exact hrest
  · refine ⟨served_of_short (by omega), ?_⟩
    have hnil : (Framing.served s).2 = [] := by
      rw [Framing.served, if_pos (by omega : s.length < 4)]
      split_ifs
      · rfl
      · rfl
    rw [hnil]
    exact Whole.of_short (by decide)

/-! ## Runs -/

theorem open_ready (files : List Reader) (hfiles : ∀ f ∈ files, f.Faithful)
    (h : open_ A files = .ok b) : Ready A b ∧ b.stream = files.flatMap Reader.data := by
  obtain ⟨hwf, hstream, hcap⟩ := open_spec A files hfiles h
  refine ⟨⟨hwf, ?_⟩, hstream⟩
  rw [hcap]
  decide

/-- Every run on a whole stream splits it. -/
theorem Whole.run (hA : 3 ≤ A.align_exp) {q q' : Parser Root × IoBuf} {trace : List Answer}
    (hrun : Run (parse_system A F) q trace q') (hb : Ready A q.2) (h : Whole q.2.stream) :
    Run frame_system q.2.stream trace q'.2.stream ∧ Ready A q'.2 := by
  have hstep : ∀ s a s', (Ready A s.2 ∧ Whole s.2.stream) → (parse_system A F).step s a s' →
      (Ready A s'.2 ∧ Whole s'.2.stream) ∧ frame_system.step s.2.stream a s'.2.stream := by
    intro s a s' hs hstep
    obtain ⟨status, hparse, rfl⟩ := hstep
    obtain ⟨hready, hserved⟩ := (parse_spec hA hs.1 s.1).2 s'.1 s'.2 status hparse
    obtain ⟨hframed, hwhole⟩ := hs.2.served
    rw [← hserved] at hframed hwhole
    exact ⟨⟨hready, hwhole⟩, hframed.symm⟩
  refine ⟨?_, ?_⟩
  · exact hrun.refines (fun s => Ready A s.2 ∧ Whole s.2.stream) (fun s => s.2.stream)
      (fun s a s' hs hl => (hstep s a s' hs hl).1) (fun s a s' hs hl => (hstep s a s' hs hl).2) ⟨hb, h⟩
  · exact (hrun.invariant (fun s => Ready A s.2 ∧ Whole s.2.stream)
      (fun s a s' hs hl => (hstep s a s' hs hl).1) ⟨hb, h⟩).1

theorem Whole.splits (h : Whole s) : Splits F s := by
  intro A hA files hfiles hs b₀ hopen p₀ trace q hrun
  obtain ⟨hready, hstream⟩ := open_ready files hfiles hopen
  rw [hs] at hstream
  have hwhole : Whole (p₀, b₀).2.stream := by
    rw [hstream]
    exact h
  obtain ⟨hframes, hready'⟩ := hwhole.run hA hrun hready
  rw [hstream] at hframes
  refine ⟨hframes, ?_⟩
  obtain ⟨hE, _⟩ := parse_spec (F := F) hA hready' q.1
  cases hparse : parse A F q.1 q.2 with
  | error e => exact Or.inr ⟨e, rfl, hE e hparse⟩
  | ok r => exact Or.inl ⟨_, (r.1, r.2.1), r.2.2, hparse, rfl⟩

/-- With an object cut off, the calls go on until it is exposed. -/
theorem exists_broken_run (F : Roots Root) (n : Nat) : ∀ (p : Parser Root) (b : IoBuf),
    Ready flat_memory b → b.stream.length ≤ n → ¬ Whole b.stream →
    ∃ trace q, Run (parse_system flat_memory F) (p, b) trace q ∧
      ¬ Run frame_system b.stream trace q.2.stream := by
  induction n with
  | zero =>
    intro p b _ hn h
    exact absurd (Whole.of_short (by omega)) h
  | succ n ih =>
    intro p b hb hn h
    have hfour : 4 ≤ b.stream.length := by
      by_contra hshort
      exact h (Whole.of_short (by omega))
    obtain ⟨⟨p', b'⟩, hstep, hready, hstream⟩ := parse_step (F := F) (by decide) hb p
      (flat_memory_provides (by decide))
    rw [served_of_four hfour] at hstep hstream
    by_cases htruncated : Truncated b.stream
    · -- The call exposes the object, where it is to return an error.
      refine ⟨_, (p', b'), .cons hstep (.nil _), fun hrun => ?_⟩
      cases hrun with
      | cons hframe _ =>
        have herror : framed b.stream = (.error, []) := by
          rw [framed]
          split_ifs with h1 h2
          · rw [h1, length_nil] at hfour
            omega
          · rfl
          · exact absurd (Or.inr htruncated) h2
        have hanswer := congrArg Prod.fst (herror.symm.trans hframe)
        cases hanswer
    · have hrest : ¬ Whole b'.stream := by
        rw [hstream]
        exact fun hwhole => h (hwhole.next hfour htruncated)
      have hlen : b'.stream.length ≤ n := by
        rw [hstream, next_object, length_drop]
        omega
      obtain ⟨trace, q, hrun, hbroken⟩ := ih p' b' hready hlen hrest
      refine ⟨_ :: trace, q, .cons hstep hrun, fun hframes => hbroken ?_⟩
      cases hframes with
      | cons hframe hrest =>
        have hnext := congrArg Prod.snd ((framed_of_whole_object hfour htruncated).symm.trans hframe)
        dsimp only at hnext
        rw [← hnext, ← hstream] at hrest
        exact hrest

theorem Splits.whole (h : Splits F s) : Whole s := by
  by_contra hbroken
  obtain ⟨root, _⟩ := F.reads_offset [0, 0, 0, 0] (by decide)
  obtain ⟨b₀, hopen⟩ := flat_memory_open [chunked 7 s]
  have hfiles : ∀ f ∈ [chunked 7 s], f.Faithful := by
    intro f hf
    rw [mem_singleton.mp hf]
    exact chunked_faithful _ _
  have hs : [chunked 7 s].flatMap Reader.data = s := append_nil s
  obtain ⟨hready, hstream⟩ := open_ready _ hfiles hopen
  rw [hs] at hstream
  rw [← hstream] at hbroken
  obtain ⟨trace, q, hrun, hno⟩ := exists_broken_run F _ ⟨root, 0, 0, 0⟩ b₀ hready (le_refl _) hbroken
  obtain ⟨hframes, _⟩ := h flat_memory (by decide) _ hfiles hs b₀ hopen _ trace q hrun
  rw [hstream] at hno
  exact hno hframes

/-- The calls split a stream into its objects if and only if no object is cut off. -/
theorem splits_iff_whole (F : Roots Root) (s : List Byte) : Splits F s ↔ Whole s :=
  ⟨Splits.whole, Whole.splits⟩

/-- Behind the size an offset of a root. -/
def offset_roots : Roots Nat where
  GetExampleRoot mem := if 4 ≤ mem.length then .ok (of_le_bytes (mem.take 4)) else Outcome.undefined
  GetSizePrefixedExampleRoot mem :=
    if 8 ≤ mem.length then .ok (of_le_bytes ((mem.drop 4).take 4)) else Outcome.undefined
  reads_offset _ h := ⟨_, if_pos h⟩

/-- A size of 8, and five bytes. -/
theorem truncated_object_exposed : ¬ Splits offset_roots [8, 0, 0, 0, 4, 0, 0, 0, 1] := by
  intro h
  exact absurd (h.whole.cases (by decide)).1 (by decide)

end VW.Framing
