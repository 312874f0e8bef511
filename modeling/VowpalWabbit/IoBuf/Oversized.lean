import VowpalWabbit.IoBuf.Capacity

/-! # Requests of any size

    `buf_read` compares `head + n`, modulo `2 ^ 64`, with the end of the loaded bytes. For a
    request whose end wraps around the answer is wrong, and what is handed out reaches beyond
    the buffer. The comparison is made at the head, and again at each address to which the
    buffer is moved while it grows.

    These addresses are known before the read: the buffer is doubled for as long as there is
    more than it holds, and once more where it is full at the end of the data and a file is
    still to come.
-/

open Cpp Cpp.Outcome Nat

namespace VW.IoBuf

open List InternalBuffer

variable {A : Allocator} {b b' b₁ : IoBuf} {n p num_read : Nat} {more : Bool} {e : Failure}

/-! ## Where the buffer is moved to -/

/-- The values have reached the allocated space. -/
def Full (b : IoBuf) : Prop := b.buffer.end_array = b.buffer.end_

/-- A file is still to come when all the data has been loaded. -/
def LaterFile (b : IoBuf) : Prop :=
  b.current + 1 < b.input_files.length ∧
    ∀ f, b.input_files[b.input_files.length - 1]? = some f → f.data = []

/-- A read that looks for more than there is moves the buffer to `p`. -/
def MovesTo (A : Allocator) (b : IoBuf) (p : Nat) : Prop :=
  b.is_open ∧ ∃ k, (2 ^ k * b.buffer.capacity < b.stream.length ∨
      2 ^ k * b.buffer.capacity = b.stream.length ∧ b.LaterFile) ∧
    (∀ j < k, A.realloc (2 ^ (j + 1) * b.buffer.capacity) ≠ none) ∧
    A.realloc (2 ^ (k + 1) * b.buffer.capacity) = some p

/-- The end of the request is an address, at the head and wherever the buffer is moved to. -/
def Harmless (A : Allocator) (b : IoBuf) (n : Nat) : Prop :=
  b.head + n < 2 ^ 64 ∧ ∀ p, MovesTo A b p → p + n < 2 ^ 64

theorem later_file_of_pending (h : b.current + 1 < b.input_files.length) (hpending : b.pending = []) :
    b.LaterFile := by
  refine ⟨h, fun f hf => ?_⟩
  have hmem : f ∈ b.input_files.drop b.current := by
    rw [mem_iff_getElem?]
    refine ⟨b.input_files.length - 1 - b.current, ?_⟩
    rw [getElem?_drop, ← hf]
    congr 1
    omega
  exact flatMap_eq_nil_iff.mp hpending f hmem

/-! ## The steps of a refill -/

theorem make_room_error (h : b.make_room A = .error e) : b.Full ∧ A.realloc (2 * b.buffer.capacity) = none := by
  unfold make_room realloc at h
  split at h
  case isTrue hfull =>
    refine ⟨hfull, ?_⟩
    split at h
    next hr => rwa [mul_comm]
    next => cases h
  case isFalse => cases h

theorem make_room_full (hfull : b.Full) (h : b.make_room A = .ok b') :
    A.realloc (2 * b.buffer.capacity) = some b'.buffer.begin_ := by
  unfold Full at hfull
  unfold make_room realloc at h
  rw [if_pos hfull] at h
  split at h
  next => cases h
  next p hr =>
    cases h
    rwa [mul_comm]

theorem make_room_not_full (hfull : ¬b.Full) (h : b.make_room A = .ok b') : b' = b := by
  unfold Full at hfull
  unfold make_room at h
  rw [if_neg hfull] at h
  cases h
  rfl

/-- What `fill` does to the block and to the files. -/
theorem fill_cases (hb : b.Wf A) (hopen : b.is_open) :
    (∃ e, b.fill A = .error e ∧ b.make_room A = .error e) ∨
    ∃ num_read b₁ b' f', b.make_room A = .ok b₁ ∧ b.fill A = .ok (num_read, b') ∧
      b'.buffer.begin_ = b₁.buffer.begin_ ∧ b'.current = b.current ∧
      b'.input_files = b.input_files.set b.current f' := by
  obtain ⟨-, hok⟩ := make_room_spec hb
  cases hmake : b.make_room A with
  | error e => exact .inl ⟨e, by rw [fill, hmake]; rfl, rfl⟩
  | ok b₁ =>
    right
    obtain ⟨-, -, hroom, hfiles, hcurrent, -⟩ := hok b₁ hmake
    have hcur : b.current < b.input_files.length := hopen
    have hf : b₁.input_files[b₁.current]? = some (b.input_files.get ⟨b.current, hcur⟩) := by
      simp [hfiles, hcurrent, hcur]
    set f := b.input_files.get ⟨b.current, hcur⟩
    cases hread : f.read (b₁.buffer.end_array - b₁.buffer.end_) with
    | none =>
      refine ⟨0, b₁, b₁, f, rfl, ?_, rfl, hcurrent, ?_⟩
      · simp [fill, hmake, hf, hread, not_lt.mpr hroom.le]
      · rw [hfiles]
        exact (set_getElem_self hcur).symm
    | some res =>
      obtain ⟨bs, f'⟩ := res
      have hfill : b.fill A = .ok (bs.length,
          { b₁ with buffer := { b₁.buffer.store b₁.buffer.end_ bs with end_ := b₁.buffer.end_ + bs.length }
                    input_files := b₁.input_files.set b₁.current f' }) := by
        simp [fill, hmake, hf, hread, not_lt.mpr hroom.le]
      exact ⟨_, b₁, _, f', rfl, hfill, rfl, hcurrent, by simp [hfiles, hcurrent]⟩

theorem refill_of_open (hopen : b.is_open) :
    b.refill A = b.fill A >>= fun r => if 0 < r.1 then .ok (true, r.2) else .ok r.2.next_file := by
  unfold is_open at hopen
  unfold refill
  rw [if_pos hopen]
  rfl

theorem refill_of_closed (hclosed : ¬b.is_open) : b.refill A = .ok b.next_file := by
  unfold is_open at hclosed
  unfold refill
  rw [if_neg hclosed]
  rfl

/-- A refill fails where a full buffer cannot be doubled. -/
theorem refill_error (hb : b.Wf A) (h : b.refill A = .error e) :
    b.is_open ∧ b.Full ∧ A.realloc (2 * b.buffer.capacity) = none := by
  by_cases hopen : b.is_open
  · rcases fill_cases hb hopen with ⟨e', -, hmake⟩ | ⟨num_read, b₁, b', f', -, hfill, -⟩
    · exact ⟨hopen, make_room_error hmake⟩
    · rw [refill_of_open hopen, hfill, ok_bind] at h
      by_cases hread : 0 < num_read
      · rw [if_pos hread] at h
        cases h
      · rw [if_neg hread] at h
        cases h
  · rw [refill_of_closed hopen] at h
    cases h

/-- A refill that loads bytes stays in the file; one that does not goes to the next one. -/
theorem refill_cases (hb : b.Wf A) (h : b.refill A = .ok (more, b')) :
    (¬b.is_open ∧ more = false ∧ b' = { b with current := b.current + 1 }) ∨
    (b.is_open ∧ ∃ num_read b₁ b₂ f', b.make_room A = .ok b₁ ∧ b.fill A = .ok (num_read, b₂) ∧
      b₂.buffer.begin_ = b₁.buffer.begin_ ∧ b₂.current = b.current ∧
      b₂.input_files = b.input_files.set b.current f' ∧
      (0 < num_read ∧ more = true ∧ b' = b₂ ∨
        num_read = 0 ∧ more = decide (b.current + 1 < b.input_files.length) ∧
          b' = { b₂ with current := b.current + 1 })) := by
  by_cases hopen : b.is_open
  · right
    refine ⟨hopen, ?_⟩
    rcases fill_cases hb hopen with ⟨e', hfill, -⟩ | ⟨num_read, b₁, b₂, f', hmake, hfill, hbegin, hcurrent, hfiles⟩
    · rw [refill_of_open hopen, hfill] at h
      cases h
    · refine ⟨num_read, b₁, b₂, f', hmake, hfill, hbegin, hcurrent, hfiles, ?_⟩
      have hlength : b₂.input_files.length = b.input_files.length := by rw [hfiles, length_set]
      rw [refill_of_open hopen, hfill, ok_bind] at h
      by_cases hread : 0 < num_read
      · rw [if_pos hread] at h
        cases h
        exact .inl ⟨hread, rfl, rfl⟩
      · rw [if_neg hread] at h
        cases h
        exact .inr ⟨by omega, by rw [hcurrent, hlength], by rw [hcurrent]⟩
  · left
    rw [refill_of_closed hopen] at h
    cases h
    unfold is_open at hopen
    exact ⟨hopen, by simp; omega, rfl⟩

/-- A refill moves the buffer where it is full and a file is open. -/
theorem refill_block (hb : b.Wf A) (h : b.refill A = .ok (more, b')) :
    (b.is_open ∧ b.Full → A.realloc (2 * b.buffer.capacity) = some b'.buffer.begin_) ∧
      (¬(b.is_open ∧ b.Full) → b'.buffer.begin_ = b.buffer.begin_) := by
  rcases refill_cases hb h with ⟨hclosed, -, rfl⟩ | ⟨hopen, num_read, b₁, b₂, f', hmake, -, hbegin, -, -, hcases⟩
  · exact ⟨fun h => absurd h.1 hclosed, fun _ => rfl⟩
  · have hbegin' : b'.buffer.begin_ = b₁.buffer.begin_ := by
      rcases hcases with ⟨-, -, rfl⟩ | ⟨-, -, rfl⟩
      · exact hbegin
      · exact hbegin
    rw [hbegin']
    refine ⟨fun h => make_room_full h.2 hmake, fun h => ?_⟩
    rw [make_room_not_full (fun hfull => h ⟨hopen, hfull⟩) hmake]

/-- Data of the last file is loaded from that file only. -/
theorem later_file_set {f' : Reader} (hcurrent : b'.current = b.current)
    (hfiles : b'.input_files = b.input_files.set b.current f') : b'.LaterFile ↔ b.LaterFile := by
  unfold LaterFile
  rw [hcurrent, hfiles, length_set]
  refine and_congr_right fun hlt => ?_
  rw [getElem?_set_ne (by omega)]

theorem refill_closed (hb : b.Wf A) (hopen : b.is_open) (h : b.refill A = .ok (false, b')) : ¬b.LaterFile := by
  rcases refill_cases hb h with ⟨hclosed, -, -⟩ | ⟨-, num_read, b₁, b₂, f', -, -, -, -, -, hcases⟩
  · exact absurd hopen hclosed
  · rcases hcases with ⟨-, hmore, -⟩ | ⟨-, hmore, -⟩
    · cases hmore
    · exact fun hlater => of_decide_eq_false hmore.symm hlater.1

/-- Why a refill asks for another try. -/
structure Retry (b b' : IoBuf) : Prop where
  reason : b.unread.length < b.stream.length ∨ b.LaterFile
  later_of : b'.LaterFile → b.LaterFile
  later : b.LaterFile → b'.LaterFile ∨ b.unread.length = b.stream.length

theorem refill_retry (hb : b.Wf A) (h : b.refill A = .ok (true, b')) : Retry b b' := by
  rcases refill_cases hb h with ⟨-, hmore, -⟩ |
    ⟨hopen, num_read, b₁, b₂, f', hmake, hfill, hbegin, hcurrent, hfiles, hcases⟩
  · cases hmore
  obtain ⟨hwf, hstream, -, hlength, hundelivered, hnone, -⟩ := (fill_spec hb hopen).2 _ _ hfill
  have hf : b.input_files[b.current]? = some (b.input_files.get ⟨b.current, hopen⟩) := by
    simp [getElem?_eq_getElem (show b.current < b.input_files.length from hopen)]
  have hlater := later_file_set hcurrent hfiles
  rcases hcases with ⟨hread, -, rfl⟩ | ⟨hread, hmore, rfl⟩
  · -- bytes were loaded, from the same file
    refine ⟨.inl ?_, hlater.mp, fun h => .inl (hlater.mpr h)⟩
    have hset := length_flatMap_set f' hf
    have hpending : b.pending.length =
        (b.input_files.get ⟨b.current, hopen⟩).data.length +
          ((b.input_files.drop (b.current + 1)).flatMap Reader.data).length := by
      rw [pending, drop_current hf, flatMap_cons, length_append]
    unfold undelivered at hundelivered
    rw [hfiles] at hundelivered
    rw [stream, length_append]
    omega
  · -- the file is used up
    obtain ⟨hunread, hpending⟩ := hnone hread
    have hnext : b.current + 1 < b.input_files.length := of_decide_eq_true hmore.symm
    have hsame : b₂.pending = b.pending := by
      unfold stream at hstream
      rwa [hunread, append_cancel_left_eq] at hstream
    have hsplit : b.stream.length = b.unread.length + b.pending.length := by rw [stream, length_append]
    refine ⟨?_, fun h => ?_, fun h => ?_⟩
    · by_cases hnil : b.pending = []
      · exact .inr (later_file_of_pending hnext hnil)
      · have := length_pos_iff.mpr hnil
        exact .inl (by omega)
    · exact hlater.mp ⟨by rw [hcurrent, hlength]; exact hnext, h.2⟩
    · by_cases hnil : b.pending = []
      · rw [hnil] at hsplit
        exact .inr hsplit.symm
      · left
        refine ⟨?_, (hlater.mpr h).2⟩
        show b.current + 1 + 1 < b₂.input_files.length
        refine Nat.lt_of_not_le fun hle => hnil ?_
        -- the next file is the last one
        have hlast : b.current + 1 = b₂.input_files.length - 1 := by omega
        obtain ⟨f, hf⟩ : ∃ f, b₂.input_files[b.current + 1]? = some f :=
          ⟨_, getElem?_eq_getElem (by omega)⟩
        have hdrop : b₂.input_files.drop (b.current + 1) = [f] := by
          rw [drop_current hf, drop_eq_nil_of_le (by omega)]
        rw [← hsame, hpending, hcurrent, hdrop, flatMap_singleton]
        exact (hlater.mpr h).2 f (hlast ▸ hf)

/-! ## The addresses before and after a refill -/

theorem full_iff (hb : b.Wf A) (hhead : b.head = b.buffer.begin_) :
    b.Full ↔ b.unread.length = b.buffer.capacity := by
  obtain ⟨h1, h2, h3⟩ := hb.ordered
  rw [hb.length_unread, hhead, capacity, Full]
  omega

theorem le_two_pow_mul (k c : Nat) : c ≤ 2 ^ k * c := Nat.le_mul_of_pos_left c (Nat.two_pow_pos k)

/-- A full buffer is moved at once, and then wherever the moved one is. -/
theorem moves_full (hb : b.Wf A) (hhead : b.head = b.buffer.begin_) (hfull : b.Full)
    (h : b.refill A = .ok (true, b')) (p : Nat) :
    MovesTo A b p ↔ p = b'.buffer.begin_ ∨ MovesTo A b' p := by
  have hunread := (full_iff hb hhead).mp hfull
  have hpos := hb.pos_capacity
  have hle := length_unread_le_stream b
  obtain ⟨hcapacity, hopens⟩ := refill_capacity hb hhead h
  obtain ⟨hopen, hopen'⟩ := hopens rfl
  rw [if_pos ⟨hopen, hunread⟩] at hcapacity
  have hstream := ((refill_spec hb).2 _ _ h).2.1
  have hmoved := (refill_block hb h).1 ⟨hopen, hfull⟩
  have hretry := refill_retry hb h
  have hpow : ∀ k, 2 ^ k * b'.buffer.capacity = 2 ^ (k + 1) * b.buffer.capacity := fun k => by
    rw [hcapacity, pow_succ, mul_assoc]
  constructor
  · rintro ⟨-, k, hdata, hbefore, hlast⟩
    cases k with
    | zero =>
      rw [zero_add, pow_one, hmoved] at hlast
      exact .inl (Option.some.inj hlast).symm
    | succ k =>
      refine .inr ⟨hopen', k, ?_, fun j hj => hpow (j + 1) ▸ hbefore (j + 1) (by omega), hpow (k + 1) ▸ hlast⟩
      rw [hpow, hstream]
      refine hdata.imp_right fun ⟨heq, hlater⟩ => ⟨heq, (hretry.later hlater).resolve_right fun hall => ?_⟩
      have := le_two_pow_mul k b'.buffer.capacity
      have := hpow k
      omega
  · rintro (rfl | ⟨-, k, hdata, hbefore, hlast⟩)
    · refine ⟨hopen, 0, ?_, nofun, by simpa using hmoved⟩
      rw [pow_zero, one_mul, ← hunread]
      rcases lt_or_eq_of_le hle with hlt | heq
      · exact .inl hlt
      · exact .inr ⟨heq, hretry.reason.resolve_left (by omega)⟩
    · rw [hpow, hstream] at hdata
      refine ⟨hopen, k + 1, hdata.imp_right fun ⟨heq, hlater⟩ => ⟨heq, hretry.later_of hlater⟩, fun j hj => ?_,
        hpow (k + 1) ▸ hlast⟩
      cases j with
      | zero =>
        rw [zero_add, pow_one, hmoved]
        exact Option.some_ne_none _
      | succ j => exact hpow (j + 1) ▸ hbefore j (by omega)

/-- One that is not full stays, for now. -/
theorem moves_not_full (hb : b.Wf A) (hhead : b.head = b.buffer.begin_) (hfull : ¬b.Full)
    (h : b.refill A = .ok (true, b')) (p : Nat) : MovesTo A b p ↔ MovesTo A b' p := by
  have hunread := mt (full_iff hb hhead).mpr hfull
  have hle := hb.length_unread_le_capacity
  obtain ⟨hcapacity, hopens⟩ := refill_capacity hb hhead h
  obtain ⟨hopen, hopen'⟩ := hopens rfl
  rw [if_neg fun h => hunread h.2] at hcapacity
  have hstream := ((refill_spec hb).2 _ _ h).2.1
  have hretry := refill_retry hb h
  unfold MovesTo
  rw [hcapacity, hstream]
  refine and_congr (iff_of_true hopen hopen') (exists_congr fun k => and_congr_left fun _ => ?_)
  refine or_congr_right (and_congr_right fun heq => ⟨fun hlater => ?_, hretry.later_of⟩)
  refine (hretry.later hlater).resolve_right fun hall => ?_
  have := le_two_pow_mul k b.buffer.capacity
  omega

/-- What is harmless before a refill is harmless after it, and the other way round. -/
theorem harmless_refill (hb : b.Wf A) (hhead : b.head = b.buffer.begin_) (hn : b.head + n < 2 ^ 64)
    (h : b.refill A = .ok (true, b')) : Harmless A b n ↔ Harmless A b' n := by
  obtain ⟨hopen, -⟩ := (refill_capacity hb hhead h).2 rfl
  obtain ⟨hmoved, hstays⟩ := refill_block hb h
  have hhead' : b'.head = b'.buffer.begin_ := by
    rw [((refill_spec hb).2 _ _ h).2.2.2.2.1, hhead, Nat.sub_self, Nat.add_zero]
  unfold Harmless
  rw [hhead']
  by_cases hfull : b.Full
  · constructor
    · rintro ⟨-, hmoves⟩
      exact ⟨hmoves _ ((moves_full hb hhead hfull h _).mpr (.inl rfl)),
        fun p hp => hmoves p ((moves_full hb hhead hfull h p).mpr (.inr hp))⟩
    · rintro ⟨hbegin, hmoves⟩
      refine ⟨hn, fun p hp => ?_⟩
      rcases (moves_full hb hhead hfull h p).mp hp with rfl | hp
      · exact hbegin
      · exact hmoves p hp
  · rw [hstays fun h => hfull h.2, ← hhead]
    exact and_congr_right fun _ => forall_congr' fun p => imp_congr_left (moves_not_full hb hhead hfull h p)

/-- The move to the front changes nothing about it. -/
theorem harmless_shift (hb : b.Wf A) (hn : b.head + n < 2 ^ 64) :
    let b₁ := if b.head ≠ b.buffer.begin_ then b.shift_to_front TEXT else b
    b₁.head + n < 2 ^ 64 ∧ (Harmless A b n ↔ Harmless A b₁ n) := by
  obtain ⟨hwf, hunread, hhead, hfiles, hcurrent, -, -⟩ := shift_if_spec hb (alignable_TEXT A)
  have hcapacity : (if b.head ≠ b.buffer.begin_ then b.shift_to_front TEXT else b).buffer.capacity
      = b.buffer.capacity := by
    split
    · exact capacity_shift_to_front b TEXT
    · rfl
  have hbegin : (if b.head ≠ b.buffer.begin_ then b.shift_to_front TEXT else b).buffer.begin_
      = b.buffer.begin_ := by
    split
    · exact (shift_placed_spec hb ((alignable_TEXT A).placed hb)).2.2.2
    · rfl
  have hle := hb.ordered.1
  simp only at *
  set b₁ := if b.head ≠ b.buffer.begin_ then b.shift_to_front TEXT else b
  have hstream : b₁.stream = b.stream := by simp only [stream, hunread, pending, hfiles, hcurrent]
  have hn' : b₁.head + n < 2 ^ 64 := by omega
  refine ⟨hn', and_congr (iff_of_true hn hn') (forall_congr' fun p => imp_congr_left ?_)⟩
  unfold MovesTo LaterFile is_open
  rw [hcapacity, hstream, hfiles, hcurrent]

/-- A request that fits is harmless: the buffer is nowhere larger than half the address space. -/
theorem harmless_of_fits (hb : b.Wf A) (h : b.head + n ≤ b.buffer.end_) : Harmless A b n := by
  obtain ⟨h1, h2, h3⟩ := hb.ordered
  have hfits := hb.fits
  refine ⟨by omega, fun p ⟨_, k, _, _, hlast⟩ => ?_⟩
  have hroom := A.realloc_fits hlast
  have hle := le_two_pow_mul (k + 1) b.buffer.capacity
  unfold capacity at hle hroom
  omega

/-- Where the buffer cannot be doubled, it is moved nowhere. -/
theorem harmless_of_refill_error (hb : b.Wf A) (hn : b.head + n < 2 ^ 64) (h : b.refill A = .error e) :
    Harmless A b n := by
  obtain ⟨-, -, hr⟩ := refill_error hb h
  refine ⟨hn, fun p ⟨_, k, _, hbefore, hlast⟩ => ?_⟩
  cases k with
  | zero =>
    rw [zero_add, pow_one, hr] at hlast
    cases hlast
  | succ k => exact absurd (by simpa using hr) (hbefore 0 (succ_pos k))

/-- Nor when all the data has been loaded and no file is to come. -/
theorem harmless_of_refill_closed (hb : b.Wf A) (hn : b.head + n < 2 ^ 64) (hall : b.stream.length = b.unread.length)
    (h : b.refill A = .ok (false, b')) : Harmless A b n := by
  have hle := hb.length_unread_le_capacity
  refine ⟨hn, fun p ⟨hopen, k, hdata, _, _⟩ => ?_⟩
  have := le_two_pow_mul k b.buffer.capacity
  rcases hdata with hlt | ⟨-, hlater⟩
  · omega
  · exact absurd hlater (refill_closed hb hopen h)

/-! ## Requests of any size -/

/-- The request was taken to fit, although its end wraps around. -/
def Wraps (A : Allocator) (n : Nat) (r : Nat × Nat × IoBuf) : Prop :=
  ∃ b : IoBuf, b.Wf A ∧ 2 ^ 64 ≤ b.head + n ∧ r = (b.head, n, { b with head := ptr_add b.head n })

theorem aligned_TEXT (ptr : Nat) : TEXT.is_aligned ptr = true := by
  simp [TEXT, DesiredAlign.is_aligned, mod_one]

theorem buf_read_loop_fits (fuel : Nat) (h : ptr_add b.head n ≤ b.buffer.end_) :
    buf_read_loop A n TEXT (fuel + 1) b = .ok (b.head, n, { b with head := ptr_add b.head n }) := by
  rw [buf_read_loop, if_pos h, if_pos (aligned_TEXT _)]

theorem buf_read_loop_refills (fuel : Nat) (h : ¬ptr_add b.head n ≤ b.buffer.end_) :
    buf_read_loop A n TEXT (fuel + 1) b =
      (if b.head ≠ b.buffer.begin_ then b.shift_to_front TEXT else b).refill A >>= fun r =>
        if r.1 then buf_read_loop A n TEXT fuel r.2 else r.2.final_read TEXT := by
  rw [buf_read_loop, if_neg h]

theorem final_read_TEXT :
    b.final_read TEXT = .ok (b.head, b.buffer.end_ - b.head, { b with head := b.buffer.end_ }) := by
  rw [final_read, aligned_TEXT]
  rfl

/-- A harmless request delivers what there is of it; any other one wraps around. -/
theorem buf_read_loop_any (hn : n < 2 ^ 64) (fuel : Nat) : ∀ b : IoBuf, b.Wf A → b.retries < fuel →
    (Harmless A b n → Ends (¬A.Provides (2 * b.stream.length)) (buf_read_loop A n TEXT fuel b)
      fun r => Delivers A b r.1 r.2.1 r.2.2 (b.stream.take n) (b.stream.drop n)) ∧
    (¬Harmless A b n → Returns (buf_read_loop A n TEXT fuel b) (Wraps A n)) := by
  induction fuel with
  | zero =>
    intro b _ hfuel
    exact absurd hfuel (not_lt_zero _)
  | succ fuel ih =>
    intro b hb hfuel
    obtain ⟨h1, h2, h3⟩ := hb.ordered
    by_cases hwraps : 2 ^ 64 ≤ b.head + n
    · -- the sum is less than the begin of the buffer
      have hle : ptr_add b.head n ≤ b.buffer.end_ := by
        unfold ptr_add
        omega
      refine ⟨fun h => absurd h.1 (Nat.not_lt.mpr hwraps), fun _ => ?_⟩
      exact ⟨_, buf_read_loop_fits fuel hle, b, hb, hwraps, rfl⟩
    have haddress : b.head + n < 2 ^ 64 := Nat.lt_of_not_le hwraps
    have hadd := ptr_add_of_lt haddress
    by_cases hfit : b.head + n ≤ b.buffer.end_
    · refine ⟨fun _ => ?_, fun h => absurd (harmless_of_fits hb hfit) h⟩
      rw [buf_read_loop_fits fuel (hadd ▸ hfit), hadd]
      exact Ends.ok (take_loaded hb hfit)
    · rw [buf_read_loop_refills fuel (hadd ▸ hfit)]
      obtain ⟨haddress₁, hharmless⟩ := harmless_shift hb haddress
      obtain ⟨hwf, hunread, hhead, hfiles, hcurrent, hverify, hhash⟩ := shift_if_spec hb (alignable_TEXT A)
      set b₁ := if b.head ≠ b.buffer.begin_ then b.shift_to_front TEXT else b
      have hstream : b₁.stream = b.stream := by simp only [stream, hunread, pending, hfiles, hcurrent]
      have hretries : b₁.retries = b.retries := by simp only [retries, undelivered, hfiles, hcurrent]
      obtain ⟨hoom, hok⟩ := refill_spec hwf
      rw [hharmless]
      cases hrefill : b₁.refill A with
      | error e =>
        refine ⟨fun _ => ?_, fun h => absurd (harmless_of_refill_error hwf haddress₁ hrefill) h⟩
        obtain ⟨size, hsize, hr, rfl⟩ := hoom e hrefill
        refine fun hprovides => hprovides size (hsize.trans ?_) hr
        have := length_unread_le_stream b₁
        have := hwf.length_unread
        rw [InternalBuffer.size, ← hstream]
        omega
      | ok r =>
        obtain ⟨more, b₂⟩ := r
        obtain ⟨hwf₂, hstream₂, hless, hdone, -, hverify₂, hhash₂⟩ := hok more b₂ hrefill
        rw [ok_bind]
        cases more with
        | true =>
          obtain ⟨hgood, hbad⟩ := ih b₂ hwf₂ (by have := hless rfl; omega)
          rw [harmless_refill hwf hhead haddress₁ hrefill]
          rw [hstream₂, hstream] at hgood
          refine ⟨fun h => (hgood h).mono id fun r hr => hr.of_stream b ?_, hbad⟩
          exact ⟨hverify₂.trans hverify, hhash₂.trans hhash⟩
        | false =>
          obtain ⟨hunread₂, hall⟩ := hdone rfl
          have hlength : b₁.stream.length = b₁.unread.length := by rw [← hstream₂, hall, hunread₂]
          refine ⟨fun _ => ?_, fun h => absurd (harmless_of_refill_closed hwf haddress₁ hlength hrefill) h⟩
          rw [if_neg (by simp), final_read_TEXT]
          have hshort : b.stream.length ≤ n := by
            rw [← hstream, hlength, hunread, hb.length_unread]
            omega
          have hrest := take_rest hwf₂ hall
          rw [hstream₂, hstream] at hrest
          rw [take_of_length_le hshort, drop_eq_nil_of_le hshort]
          exact hrest.of_stream b ⟨hverify₂.trans hverify, hhash₂.trans hhash⟩

/-- `buf_read` for a request of any size. -/
theorem buf_read_any (hb : b.Wf A) (hn : n < 2 ^ 64) :
    (Harmless A b n → Ends (¬A.Provides (2 * b.stream.length)) (b.buf_read A n TEXT)
      fun r => Delivers A b r.1 r.2.1 r.2.2 (b.stream.take n) (b.stream.drop n)) ∧
    (¬Harmless A b n → Returns (b.buf_read A n TEXT) (Wraps A n)) :=
  buf_read_loop_any hn _ b hb (lt_succ_self _)

/-- A request of less than half the address space never wraps around. -/
theorem harmless_of_lt (hb : b.Wf A) (hn : n < 2 ^ 63) : Harmless A b n := by
  obtain ⟨h1, h2, h3⟩ := hb.ordered
  have hfits := hb.fits
  refine ⟨by omega, fun p ⟨_, k, _, _, hlast⟩ => ?_⟩
  have := A.realloc_fits hlast
  omega

end VW.IoBuf
