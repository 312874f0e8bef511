import VowpalWabbit.Framework.Refinement
import VowpalWabbit.IoBuf.Reads
import Mathlib.Data.List.TakeWhile

/-! # Runs of the read side

    The `io_buf` as a system: a label is a call with the bytes it returned.
    Any run, whatever pieces the files come in and wherever the buffer is
    shifted, grown, refilled or switched to the next file, is a run of a plain
    byte stream under the abstraction `IoBuf.stream`.
-/

open Cpp Refinement

namespace VW

open List Outcome IoBuf

/-! ## The two systems -/

/-- The calls of the read side. -/
inductive ReadCall where
  | buf_read (n : Nat) (align : DesiredAlign)
  | readto (terminal : Byte)

namespace ReadCall

/-- Sizes an object can have, and alignments the allocator provides for. -/
def Admissible (A : Allocator) : ReadCall → Prop
  | .buf_read n align =>
      n < 2 ^ 63 ∧ ∃ j, 2 ^ j ≤ 2 ^ A.align_exp ∧ align = { align := 2 ^ j, offset := 0 }
  | .readto _ => True

/-- The alignment may also have an offset, if the read does not have to move the data to the
    right for it. -/
def Shifts (A : Allocator) (b : IoBuf) : ReadCall → Prop
  | .buf_read n align =>
      n < 2 ^ 63 ∧ (∃ j, 2 ^ j ≤ 2 ^ A.align_exp ∧ align.align = 2 ^ j) ∧
        align.offset < align.align ∧ b.Shifts align n
  | .readto _ => True

/-- The call, with the bytes it hands out in place of the pointer to them. -/
def exec (A : Allocator) (c : ReadCall) (b : IoBuf) : Outcome (List Byte × IoBuf) := do
  let (ptr, count, b) ← match c with
    | .buf_read n align => b.buf_read A n align
    | .readto terminal => b.readto A terminal
  return (b.buffer.bytes_at ptr count, b)

/-- Bound on the memory the call may ask for. -/
def memory (b : IoBuf) : ReadCall → Nat
  | .buf_read n _ => 2 * n
  | .readto _ => 2 * b.stream.length

/-- What a byte stream `s` answers: `out`, with `rest` to come. -/
def Answers (s : List Byte) (c : ReadCall) (out rest : List Byte) : Prop :=
  s = out ++ rest ∧
  match c with
  | .buf_read n _ => out.length ≤ n ∧ (out.length < n → rest = [])
  | .readto terminal =>
      (∃ line, out = line ++ [terminal] ∧ terminal ∉ line) ∨ (terminal ∉ out ∧ rest = [])

end ReadCall

/-- The `io_buf`. -/
def read_system (A : Allocator) : System IoBuf (ReadCall × List Byte) where
  step b l b' := l.1.Admissible A ∧ l.1.exec A b = .ok (l.2, b')

/-- The `io_buf`, with alignments that have an offset. -/
def aligned_system (A : Allocator) : System IoBuf (ReadCall × List Byte) where
  step b l b' := l.1.Shifts A b ∧ l.1.exec A b = .ok (l.2, b')

def stream_system : System (List Byte) (ReadCall × List Byte) where
  step s l s' := ReadCall.Answers s l.1 l.2 s'

/-! ## One call -/

namespace ReadCall

variable {A : Allocator} {b b' : IoBuf}

theorem alignable_of_le {j : Nat} (h : 2 ^ j ≤ 2 ^ A.align_exp) :
    Alignable A { align := 2 ^ j, offset := 0 } := by
  have hj : j ≤ A.align_exp := (Nat.pow_le_pow_iff_right (by decide)).mp h
  exact ⟨rfl, Nat.pow_dvd_pow 2 hj⟩

theorem upto_of_mem {terminal : Byte} {s : List Byte} (h : terminal ∈ s) :
    upto terminal s = s.takeWhile (· ≠ terminal) ++ [terminal] := by
  induction s with
  | nil => simp at h
  | cons x xs ih =>
    by_cases hx : x = terminal
    · simp [upto, hx]
    · have hmem : terminal ∈ xs := by
        rcases mem_cons.mp h with h | h
        · exact absurd h.symm hx
        · exact h
      have := ih hmem
      simp only [upto, ne_eq, decide_not] at this
      simp [upto, hx, this]

theorem upto_of_not_mem {terminal : Byte} {s : List Byte} (h : terminal ∉ s) :
    upto terminal s = s := by
  have hall : s.takeWhile (· ≠ terminal) = s := by
    rw [takeWhile_eq_self_iff]
    intro x hx
    simp only [ne_eq, decide_not, Bool.not_eq_true', decide_eq_false_iff_not]
    intro heq
    exact h (heq ▸ hx)
  rw [upto, hall]
  exact take_of_length_le (Nat.le_succ _)

/-- The one answer of a stream: what is handed out, and the rest. -/
def answer (s : List Byte) : ReadCall → List Byte × List Byte
  | .buf_read n _ => (s.take n, s.drop n)
  | .readto terminal => (upto terminal s, s.drop (upto terminal s).length)

theorem answers_buf_read (s : List Byte) (n : Nat) (align : DesiredAlign) :
    Answers s (.buf_read n align) (s.take n) (s.drop n) := by
  refine ⟨(take_append_drop n s).symm, length_take_le n s, ?_⟩
  intro h
  rw [length_take] at h
  exact drop_eq_nil_of_le (by omega)

theorem answers_readto (s : List Byte) (terminal : Byte) :
    Answers s (.readto terminal) (upto terminal s)
      (s.drop (upto terminal s).length) := by
  have hpre : s = upto terminal s ++ s.drop (upto terminal s).length := by
    rw [upto, length_take]
    rcases le_total ((s.takeWhile (· ≠ terminal)).length + 1) s.length with h | h
    · rw [min_eq_left h, take_append_drop]
    · rw [min_eq_right h, take_of_length_le h, drop_length, append_nil]
  refine ⟨hpre, ?_⟩
  by_cases hmem : terminal ∈ s
  · left
    refine ⟨s.takeWhile (· ≠ terminal), upto_of_mem hmem, ?_⟩
    intro hin
    simpa using mem_takeWhile_imp hin
  · right
    rw [upto_of_not_mem hmem, drop_length]
    exact ⟨hmem, rfl⟩

theorem answers_answer (s : List Byte) (c : ReadCall) :
    Answers s c (answer s c).1 (answer s c).2 := by
  cases c with
  | buf_read n align => exact answers_buf_read s n align
  | readto terminal => exact answers_readto s terminal

theorem provided_of_le {j : Nat} {align : DesiredAlign} (hj : 2 ^ j ≤ 2 ^ A.align_exp)
    (halign : align.align = 2 ^ j) (hoffset : align.offset < align.align) :
    Provided A align := by
  refine ⟨?_, hoffset⟩
  rw [halign]
  exact (alignable_of_le hj).2

/-- Without an offset nothing goes to the right. -/
theorem Admissible.shifts {c : ReadCall} (h : c.Admissible A) : c.Shifts A b := by
  cases c with
  | buf_read n align =>
    obtain ⟨hn, j, hj, rfl⟩ := h
    refine ⟨hn, ⟨j, hj, rfl⟩, Nat.two_pow_pos j, fun hlt hoffset => ?_⟩
    dsimp only at hoffset
    omega
  | readto terminal => trivial

/-- The bytes that a read handed out. -/
def handed_out (r : Nat × Nat × IoBuf) : List Byte × IoBuf := (r.2.2.buffer.bytes_at r.1 r.2.1, r.2.2)

theorem exec_eq (c : ReadCall) (b : IoBuf) : c.exec A b = (match c with
    | .buf_read n align => b.buf_read A n align
    | .readto terminal => b.readto A terminal) >>= fun r => .ok (handed_out r) := by
  cases c <;> rfl

/-- The specification of a call in terms of the stream. -/
theorem exec_delivers (hb : b.Wf A) (c : ReadCall) (hc : c.Shifts A b) {out : List Byte}
    (h : c.exec A b = .ok (out, b')) : b'.Wf A ∧ (out, b'.stream) = answer b.stream c := by
  rw [exec_eq] at h
  obtain ⟨⟨ptr, count, b₁⟩, hr, h⟩ := bind_eq_ok.mp h
  cases h
  cases c with
  | buf_read n align =>
    obtain ⟨hn, ⟨j, hj, halign⟩, hoffset, hshifts⟩ := hc
    obtain ⟨hd, -⟩ := ((provided_of_le hj halign hoffset).buf_read_spec hb hn hshifts).2 _ _ _ hr
    rw [hd.bytes, hd.stream_eq]
    exact ⟨hd.wf, rfl⟩
  | readto terminal =>
    have hd := (readto_spec hb terminal).2 _ _ _ hr
    rw [hd.bytes, hd.stream_eq]
    exact ⟨hd.wf, rfl⟩

theorem exec_spec (hb : b.Wf A) (c : ReadCall) (hc : c.Admissible A) :
    (∀ e, c.exec A b = .error e → out_of_memory A (c.memory b) e) ∧
    ∀ out b', c.exec A b = .ok (out, b') → b'.Wf A ∧ (out, b'.stream) = answer b.stream c := by
  refine ⟨fun e h => ?_, fun out b' h => exec_delivers hb c hc.shifts h⟩
  rw [exec_eq] at h
  have hfailed {r : Outcome (Nat × Nat × IoBuf)} (h : (r >>= fun r => .ok (handed_out r)) = .error e) :
      r = .error e := by
    cases r with
    | error e' =>
      cases h
      rfl
    | ok r => cases h
  cases c with
  | buf_read n align =>
    obtain ⟨hn, j, hj, rfl⟩ := hc
    exact (buf_read_spec hb hn (alignable_of_le hj)).1 e (hfailed h)
  | readto terminal => exact (readto_spec hb terminal).1 e (hfailed h)

/-- With enough memory the call returns. -/
theorem exec_ok (hb : b.Wf A) (c : ReadCall) (hc : c.Admissible A)
    (hmem : A.Provides (c.memory b)) :
    ∃ b', c.exec A b = .ok ((answer b.stream c).1, b') ∧ b'.Wf A ∧
      b'.stream = (answer b.stream c).2 := by
  obtain ⟨hE, hO⟩ := exec_spec hb c hc
  cases h : c.exec A b with
  | error e => exact absurd (hE e h) (not_out_of_memory hmem)
  | ok r =>
    obtain ⟨hwf, hans⟩ := hO r.1 r.2 h
    rw [← hans]
    exact ⟨r.2, rfl, hwf, rfl⟩

end ReadCall

/-! ## Whole runs -/

section runs
variable {A : Allocator} {b b' : IoBuf} {trace : List (ReadCall × List Byte)}

theorem run_wf (hrun : Run (aligned_system A) b trace b') (hb : b.Wf A) : b'.Wf A := by
  apply hrun.invariant (fun b => b.Wf A) _ hb
  intro b l b' hb hstep
  exact (ReadCall.exec_delivers hb l.1 hstep.1 hstep.2).1

theorem run_refines (hrun : Run (aligned_system A) b trace b') (hb : b.Wf A) :
    Run stream_system b.stream trace b'.stream := by
  apply hrun.refines (fun b => b.Wf A) stream _ _ hb
  · intro b l b' hb hstep
    exact (ReadCall.exec_delivers hb l.1 hstep.1 hstep.2).1
  · intro b l b' hb hstep
    have hans := (ReadCall.exec_delivers hb l.1 hstep.1 hstep.2).2
    have := ReadCall.answers_answer b.stream l.1
    rw [← hans] at this
    exact this

theorem run_aligned (hrun : Run (read_system A) b trace b') : Run (aligned_system A) b trace b' :=
  hrun.refines (fun _ => True) (fun b => b) (fun _ _ _ _ _ => trivial)
    (fun _ _ _ _ (hstep : (read_system A).step _ _ _) =>
      (⟨hstep.1.shifts, hstep.2⟩ : (aligned_system A).step _ _ _)) trivial

/-- The bytes a stream hands out are its prefix. -/
theorem stream_run_prefix {s s' : List Byte} (hrun : Run stream_system s trace s') :
    (trace.map Prod.snd).flatten ++ s' = s := by
  induction hrun with
  | nil s => rfl
  | cons hstep _ ih =>
    have hsplit := hstep.1
    rw [map_cons, flatten_cons, append_assoc, ih, hsplit]

/-- Every run of an `io_buf` over any files is a run of the byte stream that
    consists of their contents. The calls return its bytes in order; the
    pointers stay ordered; and a further call returns, or fails to get memory. -/
theorem io_buf_refines_byte_stream (A : Allocator) (files : List Reader)
    (hfiles : ∀ f ∈ files, f.Faithful) {b₀ b : IoBuf} {trace : List (ReadCall × List Byte)}
    (hopen : open_ A files = .ok b₀) (hrun : Run (read_system A) b₀ trace b) :
    Run stream_system (files.flatMap Reader.data) trace b.stream ∧
    (trace.map Prod.snd).flatten ++ b.stream = files.flatMap Reader.data ∧
    b.Ordered ∧
    ∀ c : ReadCall, c.Admissible A →
      (∃ out b', (read_system A).step b (c, out) b') ∨
      ∃ e, c.exec A b = .error e ∧ out_of_memory A (c.memory b) e := by
  obtain ⟨hwf₀, hstr₀, _⟩ := open_spec A files hfiles hopen
  have hwf := run_wf (run_aligned hrun) hwf₀
  have href := run_refines (run_aligned hrun) hwf₀
  rw [hstr₀] at href
  refine ⟨href, stream_run_prefix href, hwf.ordered, ?_⟩
  intro c hc
  obtain ⟨hE, hO⟩ := ReadCall.exec_spec hwf c hc
  cases h : c.exec A b with
  | error e => exact Or.inr ⟨e, rfl, hE e h⟩
  | ok r => exact Or.inl ⟨r.1, r.2, hc, h⟩

/-- Memory from address `4096` on, for blocks of up to `2 ^ 62` bytes. -/
def flat_memory : Allocator where
  realloc n := if n ≤ 2 ^ 62 then some 4096 else none
  align_exp := 4
  realloc_aligned := by
    intro n p h
    split at h
    · cases h
      decide
    · cases h
  realloc_fits := by
    intro n p h
    split at h
    · cases h
      omega
    · cases h

theorem flat_memory_provides {m : Nat} (hm : m ≤ 2 ^ 62) : flat_memory.Provides m := by
  intro k hk
  have h : flat_memory.realloc k = some 4096 := if_pos (hk.trans hm)
  rw [h]
  exact Option.some_ne_none _

/-- A reader that delivers at most `k + 1` bytes at a time. -/
def chunked (k : Nat) (data : List Byte) : Reader := { data := data, pick := fun _ _ => some (k + 1) }

theorem chunked_faithful (k : Nat) (data : List Byte) : (chunked k data).Faithful := by
  intro _ _ _ _
  exact ⟨k + 1, Nat.succ_pos k, rfl⟩

theorem flat_memory_open (files : List Reader) : ∃ b, open_ flat_memory files = .ok b := by
  simp [open_, InternalBuffer.realloc, flat_memory, INITIAL_BUFF_SIZE]

/-- A new buffer on a file with these bytes. -/
theorem exists_opened (data : List Byte) :
    ∃ b, open_ flat_memory [chunked 7 data] = .ok b ∧ b.Wf flat_memory ∧ b.stream = data ∧
      b.buffer.capacity = INITIAL_BUFF_SIZE ∧ 0 < b.input_files.length ∧
      b.verify_hash = false ∧ b.hash = 0 := by
  obtain ⟨b, hopen⟩ := flat_memory_open [chunked 7 data]
  obtain ⟨hwf, hstream, hcap⟩ := open_spec _ _ (by
    intro f hf
    rw [mem_singleton.mp hf]
    exact chunked_faithful _ _) hopen
  have hnew : 0 < b.input_files.length ∧ b.verify_hash = false ∧ b.hash = 0 := by
    unfold open_ at hopen
    rw [bind_eq_ok] at hopen
    obtain ⟨buffer, _, hb⟩ := hopen
    cases hb
    exact ⟨Nat.one_pos, rfl, rfl⟩
  refine ⟨b, hopen, hwf, ?_, hcap, hnew⟩
  rw [hstream]
  exact append_nil data

/-- Two files, `"a\nb"` byte by byte and `"cd"` at once, read by a `readto`
    and a `buf_read` of five bytes that crosses the end of the first file. -/
theorem io_buf_refines_byte_stream_two_files :
    ∃ b₀ b, open_ flat_memory [chunked 0 [97, 10, 98], chunked 7 [99, 100]] = .ok b₀ ∧
      Run (read_system flat_memory) b₀
        [(.readto 10, [97, 10]), (.buf_read 5 TEXT, [98, 99, 100])] b ∧
      [97, 10] ++ [98, 99, 100] ++ b.stream = [97, 10, 98, 99, 100] ∧ b.Ordered := by
  have hfiles : ∀ f ∈ [chunked 0 [97, 10, 98], chunked 7 [99, 100]], f.Faithful := by
    intro f hf
    simp only [mem_cons, not_mem_nil, or_false] at hf
    rcases hf with rfl | rfl
    · exact chunked_faithful _ _
    · exact chunked_faithful _ _
  obtain ⟨b₀, hopen⟩ := flat_memory_open [chunked 0 [97, 10, 98], chunked 7 [99, 100]]
  obtain ⟨hwf₀, hstr₀, _⟩ := open_spec _ _ hfiles hopen
  have hstr₀' : b₀.stream = [97, 10, 98, 99, 100] := hstr₀
  obtain ⟨b₁, hex₁, hwf₁, hstr₁⟩ := ReadCall.exec_ok hwf₀ (.readto 10) trivial
    (flat_memory_provides (by rw [ReadCall.memory, hstr₀']; decide))
  rw [hstr₀'] at hex₁ hstr₁
  have hadm : ReadCall.Admissible flat_memory (.buf_read 5 TEXT) :=
    ⟨by decide, 0, by decide, rfl⟩
  obtain ⟨b₂, hex₂, _, _⟩ := ReadCall.exec_ok hwf₁ (.buf_read 5 TEXT) hadm
    (flat_memory_provides (by rw [ReadCall.memory]; decide))
  rw [hstr₁] at hex₂
  have hrun : Run (read_system flat_memory) b₀
      [(.readto 10, [97, 10]), (.buf_read 5 TEXT, [98, 99, 100])] b₂ :=
    .cons ⟨trivial, hex₁⟩ (.cons ⟨hadm, hex₂⟩ (.nil _))
  obtain ⟨_, hpre, hord, _⟩ := io_buf_refines_byte_stream flat_memory _ hfiles hopen hrun
  exact ⟨b₀, b₂, hopen, hrun, hpre, hord⟩

/-- After any run of reads none of which moves data to the right, the next one throws or returns
    a pointer at its alignment to the next bytes of the stream, those that an unaligned read
    would return; and moving the data to the left keeps the unread bytes. -/
theorem aligned_reads_keep_data (A : Allocator) (files : List Reader)
    (hfiles : ∀ f ∈ files, f.Faithful) {b₀ b : IoBuf} {trace : List (ReadCall × List Byte)}
    (hopen : open_ A files = .ok b₀) (hrun : Run (aligned_system A) b₀ trace b)
    (n : Nat) (align : DesiredAlign) (hcall : (ReadCall.buf_read n align).Shifts A b) :
    (∀ e, b.buf_read A n align = .error e →
      out_of_memory A (2 * (n + align.offset)) e ∨ e = cannot_be_aligned) ∧
    (∀ ptr count b', b.buf_read A n align = .ok (ptr, count, b') →
      ptr % align.align = align.offset ∧
      b'.buffer.bytes_at ptr count
        = ((files.flatMap Reader.data).drop (trace.map Prod.snd).flatten.length).take n ∧
      ∀ ptr₁ count₁ b₁, b.buf_read A n TEXT = .ok (ptr₁, count₁, b₁) →
        count₁ = count ∧ b₁.buffer.bytes_at ptr₁ count₁ = b'.buffer.bytes_at ptr count ∧
        b₁.stream = b'.stream) ∧
    (b.buffer.begin_ + InternalBuffer.required_padding b.buffer.begin_ align ≤ b.head →
      (b.shift_to_front align).unread = b.unread) := by
  obtain ⟨hwf₀, hstr₀, _⟩ := open_spec A files hfiles hopen
  have hwf := run_wf hrun hwf₀
  have hpre := stream_run_prefix (run_refines hrun hwf₀)
  rw [hstr₀] at hpre
  have hrest : b.stream = (files.flatMap Reader.data).drop
      (trace.map Prod.snd).flatten.length := by
    rw [← hpre, drop_left]
  obtain ⟨hn, ⟨j, hj, halign⟩, hoffset, hshifts⟩ := hcall
  have ha := ReadCall.provided_of_le hj halign hoffset
  obtain ⟨hE, hO⟩ := ha.buf_read_spec hwf hn hshifts
  refine ⟨hE, fun ptr count b' hr => ?_, fun hbehind => ?_⟩
  · obtain ⟨hd, hal⟩ := hO ptr count b' hr
    refine ⟨?_, ?_, fun ptr₁ count₁ b₁ hr₁ => ?_⟩
    · rwa [DesiredAlign.is_aligned, beq_iff_eq] at hal
    · rw [hd.bytes, hrest]
    · obtain ⟨hd₁, _⟩ := (buf_read_spec hwf hn (alignable_TEXT A)).2 ptr₁ count₁ b₁ hr₁
      refine ⟨?_, ?_, ?_⟩
      · rw [hd₁.count_eq, hd.count_eq]
      · rw [hd₁.bytes, hd.bytes]
      · rw [hd₁.stream_eq, hd.stream_eq]
  · rw [ha.required_padding hwf] at hbehind
    exact (shift_placed_spec hwf (⟨ha, hbehind⟩ : b.Placed A align)).2.1

/-- A multiple of eight, and four: where the data of a flatbuffer is read. -/
def eight_and_four : DesiredAlign := ⟨8, 4⟩

/-- Five of ten bytes are read, then four that are not all loaded: the two at hand go to the left,
    to four bytes behind the front. -/
theorem aligned_reads_keep_data_after_five :
    ∃ b₀ b ptr count b', open_ flat_memory [chunked 7 [1, 2, 3, 4, 5, 6, 7, 8, 9, 10]] = .ok b₀ ∧
      Run (aligned_system flat_memory) b₀ [(.buf_read 5 TEXT, [1, 2, 3, 4, 5])] b ∧
      b.buf_read flat_memory 4 eight_and_four = .ok (ptr, count, b') ∧
      ptr % 8 = 4 ∧ b'.buffer.bytes_at ptr count = [6, 7, 8, 9] := by
  have hfiles : ∀ f ∈ [chunked 7 [1, 2, 3, 4, 5, 6, 7, 8, 9, 10]], f.Faithful := by
    intro f hf
    rw [mem_singleton.mp hf]
    exact chunked_faithful _ _
  obtain ⟨b₀, b, ptr, count, b', hopen, hexec, hread, hshifts⟩ :
      ∃ b₀ b ptr count b', open_ flat_memory [chunked 7 [1, 2, 3, 4, 5, 6, 7, 8, 9, 10]] = .ok b₀ ∧
        (ReadCall.buf_read 5 TEXT).exec flat_memory b₀ = .ok ([1, 2, 3, 4, 5], b) ∧
        b.buf_read flat_memory 4 eight_and_four = .ok (ptr, count, b') ∧ b.head = b.buffer.begin_ + 5 :=
    ⟨_, _, _, _, _, rfl, rfl, rfl, rfl⟩
  have hrun : Run (aligned_system flat_memory) b₀ [(.buf_read 5 TEXT, [1, 2, 3, 4, 5])] b :=
    .cons ⟨ReadCall.Admissible.shifts ⟨by decide, 0, by decide, rfl⟩, hexec⟩ (.nil _)
  obtain ⟨-, hO, -⟩ := aligned_reads_keep_data flat_memory _ hfiles hopen hrun 4 eight_and_four
    ⟨by decide, ⟨3, by decide, rfl⟩, by decide, fun _ hlt => by
      rw [hshifts] at hlt
      exact absurd (Nat.lt_of_add_lt_add_left hlt) (by decide)⟩
  obtain ⟨hptr, hbytes, -⟩ := hO ptr count b' hread
  exact ⟨b₀, b, ptr, count, b', hopen, hrun, hread, hptr, hbytes⟩

/-- One of five bytes is read, then the rest: the offset would move the four bytes to the right,
    so that they stay where they are and the first three of them are lost. -/
theorem aligned_read_loses_bytes :
    ∃ b₀ b b', open_ flat_memory [chunked 7 [1, 2, 3, 4, 5]] = .ok b₀ ∧
      (ReadCall.buf_read 1 TEXT).exec flat_memory b₀ = .ok ([1], b) ∧
      (ReadCall.buf_read 8 eight_and_four).exec flat_memory b = .ok ([5, 0, 0, 0], b') ∧
      b.stream = [2, 3, 4, 5] :=
  ⟨_, _, _, rfl, rfl, rfl, rfl⟩

end runs

end VW
