import VowpalWabbit.AllReduce.Threads

/-! # The result of the threads

    Where the threads are follows from the number of flips of the barrier: it is even while
    threads prepare their calls and odd while they reduce their blocks. In the second phase
    an element is untouched, or in the hands of the thread that owns it, or done.
-/

namespace VW.AllReduce

open Function State Nat Refinement

variable {total : Nat} {T : Type} {n : Nat → Nat} {f : T → T → T}

/-! ## Where the threads are -/

namespace Pc

/-- The calls of `wait_for_synchronization` in the current all-reduce. -/
def entered : Pc → Nat
  | outside => 0
  | registered => 0
  | first_wait => 1
  | combine _ _ => 1
  | copy _ _ => 1
  | combined => 1
  | second_wait => 2
  | returned => 2

def waits : Pc → Bool
  | first_wait => true
  | second_wait => true
  | _ => false

theorem entered_of_waits {pc : Pc} (h : pc.waits = true) :
    pc = first_wait ∧ pc.entered = 1 ∨ pc = second_wait ∧ pc.entered = 2 := by
  cases pc with
  | first_wait => exact .inl ⟨rfl, rfl⟩
  | second_wait => exact .inr ⟨rfl, rfl⟩
  | _ => cases h

/-- The bounds of the loop counters. -/
def Bounded (total : Nat) (bounds : Nat × Nat) : Pc → Prop
  | combine index j => bounds.1 ≤ index ∧ 0 < j ∧ j ≤ total
  | copy index j => bounds.1 ≤ index ∧ index < bounds.2 ∧ 0 < j ∧ j ≤ total
  | _ => True

end Pc

/-- The threads and the barrier after `gen` flips. -/
structure Control (n : Nat → Nat) (s : State total T) (gen : Nat) : Prop where
  barrier : s.barrier.Inv gen
  entered : ∀ i, (s.barrier.threads i).entered = 2 * (s.threads i).call + (s.threads i).pc.entered
  waits : ∀ i, (s.barrier.threads i).waiting.isSome = (s.threads i).pc.waits
  bounded : ∀ i, (s.threads i).pc.Bounded total ((s.threads i).block total n i)

variable {pc : Pc}

namespace Control

variable {s : State total T} {gen : Nat} {i : Fin total}

/-- The number of flips, from a thread that does not wait. -/
theorem gen_eq (h : Control n s gen) (hi : (s.threads i).pc.waits = false) :
    gen = 2 * (s.threads i).call + (s.threads i).pc.entered := by
  have hwaits := h.waits i
  rw [hi] at hwaits
  rw [← h.entered, h.barrier.eq_of_not_waiting
    (Option.isSome_eq_false_iff.mp hwaits |> Option.isNone_iff_eq_none.mp)]

theorem gen_of (h : Control n s gen) (hi : (s.threads i).pc = pc) (hpc : pc.waits = false) :
    gen = 2 * (s.threads i).call + pc.entered := by
  subst hi
  exact h.gen_eq hpc

theorem not_waiting (h : Control n s gen) (hi : (s.threads i).pc.waits = false) :
    (s.barrier.threads i).waiting = none := by
  have hwaits := h.waits i
  rw [hi, Option.isSome_eq_false_iff] at hwaits
  exact Option.isNone_iff_eq_none.mp hwaits

/-- From a thread that waits: the last flip may be one that it has not seen. -/
theorem gen_of_waits (h : Control n s gen) (i : Fin total) :
    gen = 2 * (s.threads i).call + (s.threads i).pc.entered ∨
      gen + 1 = 2 * (s.threads i).call + (s.threads i).pc.entered := by
  rw [← h.entered]
  rcases h.barrier.thread i with ht | ht | ht
  · rw [ht]
    exact .inl rfl
  · rw [ht]
    exact .inl rfl
  · rw [ht]
    exact .inr rfl

/-- One thread takes a step. -/
theorem update {s' : State total T} {gen' : Nat} {t : Thread} (h : Control n s gen)
    (hthreads : s'.threads = update s.threads i t) (hbarrier : s'.barrier.Inv gen')
    (hothers : ∀ j, j ≠ i → ∃ notified, s'.barrier.threads j = { s.barrier.threads j with notified := notified })
    (hentered : (s'.barrier.threads i).entered = 2 * t.call + t.pc.entered)
    (hwaits : (s'.barrier.threads i).waiting.isSome = t.pc.waits)
    (hbounded : t.pc.Bounded total (t.block total n i)) : Control n s' gen' := by
  -- each field is about one thread at a time
  have hall (P : Fin total → Thread → Prop) (hi : P i t) (hne : ∀ j, j ≠ i → P j (s.threads j)) (j : Fin total) :
      P j (s'.threads j) := by
    rw [hthreads]
    exact (forall_update_iff s.threads P).mpr ⟨hi, hne⟩ j
  constructor
  · exact hbarrier
  · refine hall (fun j t => (s'.barrier.threads j).entered = 2 * t.call + t.pc.entered) hentered fun j hj => ?_
    obtain ⟨notified, heq⟩ := hothers j hj
    rw [heq]
    exact h.entered j
  · refine hall (fun j t => (s'.barrier.threads j).waiting.isSome = t.pc.waits) hwaits fun j hj => ?_
    obtain ⟨notified, heq⟩ := hothers j hj
    rw [heq]
    exact h.waits j
  · exact hall (fun j t => t.pc.Bounded total (t.block total n j)) hbounded fun j _ => h.bounded j

/-- A thread moves on between two barriers. -/
theorem goto (h : Control n s gen) (hentered : pc.entered = (s.threads i).pc.entered)
    (hwaits : pc.waits = (s.threads i).pc.waits)
    (hbounded : pc.Bounded total ((s.threads i).block total n i)) :
    Control n (s.goto i pc) gen := by
  refine h.update rfl h.barrier (fun _ _ => ⟨_, rfl⟩) ?_ ?_ hbounded
  · show (s.barrier.threads i).entered = 2 * (s.threads i).call + pc.entered
    rw [hentered]
    exact h.entered i
  · show (s.barrier.threads i).waiting.isSome = pc.waits
    rw [hwaits]
    exact h.waits i

/-- A thread enters the barrier and waits, or it is the last one. -/
theorem enter {wait leave : Pc} (h : Control n s gen) (hi : (s.threads i).pc.waits = false)
    (hwait : wait.entered = (s.threads i).pc.entered + 1) (hleave : leave.entered = wait.entered)
    (hwaits : wait.waits = true) (hleaves : leave.waits = false)
    (hbounded : ∀ pc, pc = wait ∨ pc = leave → pc.Bounded total ((s.threads i).block total n i)) :
    (s.enter i wait leave = State.goto { s with barrier := s.barrier.enter i } i wait ∧
        Control n (s.enter i wait leave) gen) ∨
      (s.enter i wait leave = State.goto { s with barrier := s.barrier.enter i } i leave ∧
        Control n (s.enter i wait leave) (gen + 1) ∧
        ∀ j, j ≠ i → (s.threads j).call = (s.threads i).call ∧ (s.threads j).pc = wait) := by
  have hgen := h.gen_eq hi
  have hothers : ∀ j, j ≠ i → ∃ notified,
      (s.barrier.enter i).threads j = { s.barrier.threads j with notified := notified } := by
    intro j hj
    unfold Barrier.enter
    dsimp only
    rw [update_of_ne hj]
    split
    · exact ⟨_, rfl⟩
    · exact ⟨_, rfl⟩
  rcases h.barrier.enter (h.not_waiting hi) with ⟨hthread, hinv⟩ | ⟨hthread, hinv, hall⟩
  · left
    have heq : s.enter i wait leave = State.goto { s with barrier := s.barrier.enter i } i wait := by
      unfold State.enter
      dsimp only
      rw [hthread]
      rfl
    rw [heq]
    refine ⟨rfl, h.update rfl hinv hothers ?_ ?_ (hbounded wait (.inl rfl))⟩
    · show ((s.barrier.enter i).threads i).entered = 2 * (s.threads i).call + wait.entered
      rw [hthread]
      dsimp only
      omega
    · show ((s.barrier.enter i).threads i).waiting.isSome = wait.waits
      rw [hthread, hwaits]
      rfl
  · right
    have heq : s.enter i wait leave = State.goto { s with barrier := s.barrier.enter i } i leave := by
      unfold State.enter
      dsimp only
      rw [hthread]
      rfl
    rw [heq]
    refine ⟨rfl, h.update rfl hinv hothers ?_ ?_ (hbounded leave (.inr rfl)), ?_⟩
    · show ((s.barrier.enter i).threads i).entered = 2 * (s.threads i).call + leave.entered
      rw [hthread]
      dsimp only
      omega
    · show ((s.barrier.enter i).threads i).waiting.isSome = leave.waits
      rw [hthread, hleaves]
      rfl
    · intro j hj
      have hentered := h.entered j
      have hwaits_j := h.waits j
      rw [hall j hj] at hentered hwaits_j
      dsimp only at hentered
      -- both are in their first wait, or in their second
      rcases Pc.entered_of_waits hwaits_j.symm with ⟨hj, hcount⟩ | ⟨hj, hcount⟩
      · rcases Pc.entered_of_waits hwaits with ⟨hi, hcount'⟩ | ⟨hi, hcount'⟩
        · exact ⟨by omega, hj.trans hi.symm⟩
        · omega
      · rcases Pc.entered_of_waits hwaits with ⟨hi, hcount'⟩ | ⟨hi, hcount'⟩
        · omega
        · exact ⟨by omega, hj.trans hi.symm⟩

/-- A thread that wakes up goes on waiting, or leaves when it has missed a flip. -/
theorem wake {current_run : Bool} {leave : Pc} (h : Control n s gen)
    (hwaiting : (s.barrier.threads i).waiting = some current_run)
    (hleave : leave.entered = (s.threads i).pc.entered) (hleaves : leave.waits = false)
    (hbounded : leave.Bounded total ((s.threads i).block total n i)) :
    s.wake i current_run (s.threads i).pc leave = s ∨
      (s.wake i current_run (s.threads i).pc leave =
          State.goto { s with barrier := s.barrier.wake i current_run } i leave ∧
        Control n (s.wake i current_run (s.threads i).pc leave) gen ∧
        gen = 2 * (s.threads i).call + (s.threads i).pc.entered) := by
  rcases h.barrier.wake hwaiting with ⟨heq, hthread⟩ | ⟨heq, hthread, hinv⟩
  · left
    unfold State.wake
    dsimp only
    rw [heq, hthread]
    unfold State.goto
    dsimp only
    rw [show (some s.barrier.sync.run).isSome = true from rfl, if_pos rfl]
    rw [update_eq_self]
  · right
    have hleft : (s.barrier.wake i current_run).threads i = ⟨gen, none, false⟩ := by
      rw [heq]
      exact update_self _ _ _
    have hgo : s.wake i current_run (s.threads i).pc leave =
        State.goto { s with barrier := s.barrier.wake i current_run } i leave := by
      unfold State.wake
      dsimp only
      rw [hleft]
      rfl
    have hgen : gen = 2 * (s.threads i).call + (s.threads i).pc.entered := by
      rw [← h.entered, hthread]
    rw [hgo]
    refine ⟨rfl, h.update rfl hinv ?_ ?_ ?_ hbounded, hgen⟩
    · intro j hj
      refine ⟨(s.barrier.threads j).notified, ?_⟩
      rw [heq]
      exact update_of_ne hj _ _
    · show ((s.barrier.wake i current_run).threads i).entered = 2 * (s.threads i).call + leave.entered
      rw [hleft, hleave]
      exact hgen
    · show ((s.barrier.wake i current_run).threads i).waiting.isSome = leave.waits
      rw [hleft, hleaves]
      rfl

/-- The next call. -/
theorem resume (h : Control n s gen) (hi : (s.threads i).pc = .returned) :
    Control n { s with threads := Function.update s.threads i ⟨.outside, (s.threads i).call + 1⟩ } gen := by
  refine h.update rfl h.barrier (fun _ _ => ⟨_, rfl⟩) ?_ ?_ trivial
  · have hentered := h.entered i
    rw [hi] at hentered
    exact hentered
  · have hwaits := h.waits i
    rw [hi] at hwaits
    exact hwaits

end Control

/-! ## What the buffers hold -/

/-- The values of the nodes `0` to `k`, folded in the order of the nodes. -/
def fold (f : T → T → T) (values : Nat → T) (k : Nat) : T :=
  (List.range' 1 k).foldl (fun first j => f first (values j)) (values 0)

theorem fold_succ (values : Nat → T) (k : Nat) :
    fold f values (k + 1) = f (fold f values k) (values (k + 1)) := by
  unfold fold
  rw [List.range'_1_concat, List.foldl_append, add_comm 1 k]
  rfl

/-- No node holds anything but its own value. -/
def Untouched (total : Nat) (values held : Nat → T) : Prop := ∀ j < total, held j = values j

/-- All nodes hold the fold. -/
def Reduced (f : T → T → T) (total : Nat) (values held : Nat → T) : Prop :=
  ∀ j < total, held j = fold f values (total - 1)

/-- What the nodes hold at an index of the block of a thread. -/
def Cell (f : T → T → T) (total index : Nat) (values held : Nat → T) : Pc → Prop
  | .combine at_ j =>
    (index < at_ → Reduced f total values held) ∧
    (index = at_ → held 0 = fold f values (j - 1) ∧ ∀ k, 0 < k → k < total → held k = values k) ∧
    (at_ < index → Untouched total values held)
  | .copy at_ j =>
    (index < at_ → Reduced f total values held) ∧
    (index = at_ → held 0 = fold f values (total - 1) ∧
      ∀ k, k < j → k < total → held k = fold f values (total - 1)) ∧
    (at_ < index → Untouched total values held)
  | .outside => Untouched total values held
  | .registered => Untouched total values held
  | .first_wait => Untouched total values held
  | _ => Reduced f total values held

/-! One lemma for each step of a block. -/

namespace Cell

variable {index at_ j : Nat} {values held held' : Nat → T}

/-- A thread begins with its block. -/
theorem start (h : Untouched total values held) (htotal : 0 < total) {first : Nat} (hfirst : first ≤ index) :
    Cell f total index values held (.combine first 1) :=
  ⟨fun hlt => absurd hfirst (not_le.mpr hlt), fun _ => ⟨h 0 htotal, fun k _ hk => h k hk⟩, fun _ => h⟩

theorem combine (h : Cell f total index values held (.combine at_ j)) (h0 : 0 < j) (hj : j < total)
    (hother : index ≠ at_ → held' = held)
    (hhere : index = at_ → held' = update held 0 (f (held 0) (held j))) :
    Cell f total index values held' (.combine at_ (j + 1)) := by
  refine ⟨fun hlt => ?_, fun heq => ?_, fun hlt => ?_⟩
  · rw [hother (Nat.ne_of_lt hlt)]
    exact h.1 hlt
  · obtain ⟨hfirst, hrest⟩ := h.2.1 heq
    rw [hhere heq]
    constructor
    · rw [update_self, hfirst, hrest j h0 hj]
      obtain ⟨k, rfl⟩ := exists_eq_succ_of_ne_zero (ne_of_gt h0)
      exact (fold_succ values k).symm
    · intro k hk hkt
      rw [update_of_ne (ne_of_gt hk)]
      exact hrest k hk hkt
  · rw [hother (ne_of_gt hlt)]
    exact h.2.2 hlt

theorem broadcast (h : Cell f total index values held (.combine at_ j)) (hj : j = total) :
    Cell f total index values held (.copy at_ 1) := by
  refine ⟨h.1, fun heq => ?_, h.2.2⟩
  obtain ⟨hfirst, -⟩ := h.2.1 heq
  rw [hj] at hfirst
  refine ⟨hfirst, fun k hk _ => ?_⟩
  rw [lt_one_iff.mp hk]
  exact hfirst

theorem copy (h : Cell f total index values held (.copy at_ j)) (h0 : 0 < j)
    (hother : index ≠ at_ → held' = held) (hhere : index = at_ → held' = update held j (held 0)) :
    Cell f total index values held' (.copy at_ (j + 1)) := by
  refine ⟨fun hlt => ?_, fun heq => ?_, fun hlt => ?_⟩
  · rw [hother (Nat.ne_of_lt hlt)]
    exact h.1 hlt
  · obtain ⟨hfirst, hdone⟩ := h.2.1 heq
    rw [hhere heq]
    refine ⟨by rw [update_of_ne (Nat.ne_of_lt h0), hfirst], fun k hk hkt => ?_⟩
    by_cases hkj : k = j
    · subst hkj
      rw [update_self, hfirst]
    · rw [update_of_ne hkj]
      exact hdone k (by omega) hkt
  · rw [hother (ne_of_gt hlt)]
    exact h.2.2 hlt

theorem next (h : Cell f total index values held (.copy at_ j)) (hj : j = total) (htotal : 0 < total) :
    Cell f total index values held (.combine (at_ + 1) 1) := by
  refine ⟨fun hlt => ?_, fun heq => ?_, fun hlt => h.2.2 (by omega)⟩
  · by_cases heq : index = at_
    · intro k hk
      exact (h.2.1 heq).2 k (by omega) hk
    · exact h.1 (by omega)
  · have huntouched := h.2.2 (by omega)
    exact ⟨huntouched 0 htotal, fun k _ hk => huntouched k hk⟩

end Cell

/-- What a thread can rely on after `gen` flips. -/
structure ThreadData (n : Nat → Nat) (f : T → T → T) (s : State total T) (gen : Nat) (i : Fin total) :
    Prop where
  /-- Its buffer is as it was registered. -/
  registered : gen = 2 * (s.threads i).call →
    (s.threads i).pc = .registered ∨ (s.threads i).pc = .first_wait →
    ∀ index, s.buffers i index = s.original (s.threads i).call i index
  /-- Its block is in its hands. -/
  block : gen = 2 * (s.threads i).call + 1 → ∀ index, InBlock total i (n (s.threads i).call) index →
    Cell f total index (fun j => s.original (s.threads i).call j index) (fun j => s.buffers j index)
      (s.threads i).pc
  /-- Its buffer holds the result. -/
  result : gen = 2 * (s.threads i).call + 2 →
    (s.threads i).pc = .second_wait ∨ (s.threads i).pc = .returned →
    ∀ index < n (s.threads i).call, s.buffers i index =
      fold f (fun j => s.original (s.threads i).call j index) (total - 1)

/-- The threads and the data after `gen` flips. -/
structure Inv (n : Nat → Nat) (f : T → T → T) (s : State total T) (gen : Nat) : Prop where
  control : Control n s gen
  data : ∀ i, ThreadData n f s gen i

namespace Inv

variable {s : State total T} {gen : Nat} {i : Fin total}

/-- What a thread outside of a call does to its buffer. -/
theorem change (h : Inv n f s gen) (hi : (s.threads i).pc = .outside) (contents : Nat → T) :
    Inv n f { s with buffers := update s.buffers i contents } gen := by
  have hgen : gen = 2 * (s.threads i).call + 0 := h.control.gen_of hi rfl
  refine ⟨⟨h.control.barrier, h.control.entered, h.control.waits, h.control.bounded⟩, fun j => ?_⟩
  have hother (hpc : (s.threads j).pc ≠ .outside) : (j : Nat) ≠ i := by
    intro heq
    rw [Fin.ext heq, hi] at hpc
    exact hpc rfl
  constructor
  · intro hj hpc index
    have hne := hother (by rcases hpc with hpc | hpc <;> rw [hpc] <;> exact nofun)
    show update s.buffers i contents j index = _
    rw [update_of_ne hne]
    exact (h.data j).registered hj hpc index
  · intro hj
    change gen = 2 * (s.threads j).call + 1 at hj
    omega
  · intro hj hpc index hindex
    have hne := hother (by rcases hpc with hpc | hpc <;> rw [hpc] <;> exact nofun)
    show update s.buffers i contents j index = _
    rw [update_of_ne hne]
    exact (h.data j).result hj hpc index hindex

/-- What a thread registers is recorded. -/
theorem register (h : Inv n f s gen) (hi : (s.threads i).pc = .outside) (contents : Nat → T) :
    Inv n f (s.register i contents) gen := by
  have hgen : gen = 2 * (s.threads i).call + 0 := h.control.gen_of hi rfl
  have hcontrol : Control n (s.register i contents) gen := by
    refine h.control.update rfl h.control.barrier (fun _ _ => ⟨_, rfl⟩) ?_ ?_ trivial
    · have hentered := h.control.entered i
      rw [hi] at hentered
      exact hentered
    · have hwaits := h.control.waits i
      rw [hi] at hwaits
      exact hwaits
  refine ⟨hcontrol, fun j => ?_⟩
  by_cases hj : j = i
  · subst hj
    have hthread : (s.register j contents).threads j = ⟨.registered, (s.threads j).call⟩ :=
      update_self _ _ _
    constructor
    · intro _ _ index
      rw [hthread]
      show update s.buffers j contents j index =
        update s.original (s.threads j).call (update (s.original (s.threads j).call) j contents)
          (s.threads j).call j index
      rw [update_self, update_self, update_self]
    · intro hodd
      rw [hthread] at hodd
      dsimp only at hodd
      omega
    · intro hnext
      rw [hthread] at hnext
      dsimp only at hnext
      omega
  · have hthread : (s.register i contents).threads j = s.threads j := update_of_ne hj _ _
    have hne : (j : Nat) ≠ i := fun heq => hj (Fin.ext heq)
    have hbuffer : (s.register i contents).buffers j = s.buffers j := update_of_ne hne _ _
    constructor
    · intro hcall hpc index
      rw [hthread] at hcall hpc ⊢
      rw [hbuffer]
      -- the record of another thread's buffer
      have horiginal : (s.register i contents).original (s.threads j).call j =
          s.original (s.threads j).call j := by
        show update s.original (s.threads i).call (update (s.original (s.threads i).call) i contents)
          (s.threads j).call j = _
        by_cases hcall' : (s.threads j).call = (s.threads i).call
        · rw [hcall', update_self, update_of_ne hne]
        · rw [update_of_ne hcall']
      rw [horiginal]
      exact (h.data j).registered hcall hpc index
    · intro hodd
      rw [hthread] at hodd
      omega
    · intro hcall hpc index hindex
      rw [hthread] at hcall hpc hindex ⊢
      rw [hbuffer]
      -- the records of the call before
      have horiginal : (s.register i contents).original (s.threads j).call =
          s.original (s.threads j).call := by
        have hcall' : (s.threads j).call ≠ (s.threads i).call := by omega
        exact update_of_ne hcall' _ _
      rw [horiginal]
      exact (h.data j).result hcall hpc index hindex

variable {s' : State total T}

/-- A step of a thread in its own block. -/
theorem in_block (h : Inv n f s gen) (hgen : gen = 2 * (s.threads i).call + 1)
    (hthreads : s'.threads = update s.threads i { s.threads i with pc := pc })
    (horiginal : s'.original = s.original) (hcontrol : Control n s' gen)
    (hframe : ∀ index, ¬ InBlock total i (n (s.threads i).call) index →
      ∀ node, s'.buffers node index = s.buffers node index)
    (hblock : ∀ index, InBlock total i (n (s.threads i).call) index →
      Cell f total index (fun j => s.original (s.threads i).call j index) (fun j => s'.buffers j index) pc) :
    Inv n f s' gen := by
  refine ⟨hcontrol, fun j => ?_⟩
  by_cases hj : j = i
  · subst hj
    have hthread : s'.threads j = { s.threads j with pc := pc } := by rw [hthreads, update_self]
    constructor
    · intro heven
      rw [hthread] at heven
      dsimp only at heven
      omega
    · intro _ index hmem
      rw [hthread] at hmem ⊢
      rw [horiginal]
      exact hblock index hmem
    · intro heven
      rw [hthread] at heven
      dsimp only at heven
      omega
  · have hthread : s'.threads j = s.threads j := by rw [hthreads, update_of_ne hj]
    constructor
    · intro heven
      rw [hthread] at heven
      omega
    · intro hodd index hmem
      rw [hthread] at hodd hmem ⊢
      have hcall : (s.threads j).call = (s.threads i).call := by omega
      -- the index belongs to another thread
      have hnot : ¬ InBlock total i (n (s.threads i).call) index := by
        intro hmem'
        rw [hcall] at hmem
        exact hj (Fin.ext (hmem.unique hmem' j.isLt i.isLt))
      have hsame : (fun k => s'.buffers k index) = fun k => s.buffers k index :=
        funext fun k => hframe index hnot k
      rw [hsame, horiginal]
      exact (h.data j).block hodd index hmem
    · intro heven
      rw [hthread] at heven
      omega

/-- A step of a thread in its own block that writes nothing. -/
theorem in_block_goto (h : Inv n f s gen) (hgen : gen = 2 * (s.threads i).call + 1)
    (hcontrol : Control n (s.goto i pc) gen)
    (hblock : ∀ index, InBlock total i (n (s.threads i).call) index →
      Cell f total index (fun j => s.original (s.threads i).call j index) (fun j => s.buffers j index) pc) :
    Inv n f (s.goto i pc) gen :=
  h.in_block hgen rfl rfl hcontrol (fun _ _ _ => rfl) hblock

/-- A step of a thread that writes to the element it is at. -/
theorem in_block_write {node at_ : Nat} {value : T} (h : Inv n f s gen)
    (hgen : gen = 2 * (s.threads i).call + 1) (hmem : InBlock total i (n (s.threads i).call) at_)
    (hcontrol : Control n (s.goto i pc) gen)
    (hblock : ∀ index held', InBlock total i (n (s.threads i).call) index →
      (index ≠ at_ → held' = fun j => s.buffers j index) →
      (index = at_ → held' = update (fun j => s.buffers j index) node value) →
      Cell f total index (fun j => s.original (s.threads i).call j index) held' pc) :
    Inv n f ((s.write node at_ value).goto i pc) gen := by
  have hbuffers : ∀ j index, (s.write node at_ value).buffers j index =
      if j = node ∧ index = at_ then value else s.buffers j index := by
    intro j index
    unfold write
    dsimp only
    by_cases hj : j = node
    · subst hj
      rw [update_self]
      by_cases hindex : index = at_
      · subst hindex
        rw [update_self, if_pos ⟨rfl, rfl⟩]
      · rw [update_of_ne hindex, if_neg (fun h => hindex h.2)]
    · rw [update_of_ne hj, if_neg (fun h => hj h.1)]
  have hcontrol' : Control n ((s.write node at_ value).goto i pc) gen :=
    ⟨hcontrol.barrier, hcontrol.entered, hcontrol.waits, hcontrol.bounded⟩
  refine h.in_block hgen rfl rfl hcontrol' ?_ ?_
  · intro index hnot j
    have hne : index ≠ at_ := by
      rintro rfl
      exact hnot hmem
    show (s.write node at_ value).buffers j index = _
    rw [hbuffers, if_neg (fun h => hne h.2)]
  · intro index hindex
    refine hblock index _ hindex ?_ ?_
    · intro hne
      funext j
      show (s.write node at_ value).buffers j index = _
      rw [hbuffers, if_neg (fun h => hne h.2)]
    · intro heq
      funext j
      show (s.write node at_ value).buffers j index = _
      rw [hbuffers]
      by_cases hj : j = node
      · subst hj
        rw [update_self, if_pos ⟨rfl, heq⟩]
      · rw [update_of_ne hj, if_neg (fun h => hj h.1)]

variable {index j : Nat}

/-- The thread reduces an element with one more node. -/
theorem combine (h : Inv n f s gen) (hi : (s.threads i).pc = .combine index j)
    (hindex : index < ((s.threads i).block total n i).2) (hj : j < total) :
    Inv n f ((s.write 0 index (f (s.buffers 0 index) (s.buffers j index))).goto i
      (.combine index (j + 1))) gen := by
  have hgen := h.control.gen_of hi rfl
  have hbounded := h.control.bounded i
  rw [hi] at hbounded
  obtain ⟨hfirst, h0, -⟩ := hbounded
  refine h.in_block_write hgen ⟨hfirst, hindex⟩ ?_ ?_
  · exact h.control.goto (by rw [hi]; rfl) (by rw [hi]; rfl) ⟨hfirst, succ_pos j, hj⟩
  · intro index' held' hmem hother hhere
    have hcell := (h.data i).block hgen index' hmem
    rw [hi] at hcell
    refine hcell.combine h0 hj hother fun heq => ?_
    rw [hhere heq, heq]

/-- All nodes are reduced. -/
theorem broadcast (h : Inv n f s gen) (hi : (s.threads i).pc = .combine index j)
    (hindex : index < ((s.threads i).block total n i).2) (hj : total ≤ j) :
    Inv n f (s.goto i (.copy index 1)) gen := by
  have hgen := h.control.gen_of hi rfl
  have hbounded := h.control.bounded i
  rw [hi] at hbounded
  obtain ⟨hfirst, -, hle⟩ := hbounded
  refine h.in_block_goto hgen ?_ ?_
  · exact h.control.goto (by rw [hi]; rfl) (by rw [hi]; rfl) ⟨hfirst, hindex, one_pos, i.pos⟩
  · intro index' hmem
    have hcell := (h.data i).block hgen index' hmem
    rw [hi] at hcell
    exact hcell.broadcast (le_antisymm hle hj)

/-- The thread writes the result to one more node. -/
theorem copy (h : Inv n f s gen) (hi : (s.threads i).pc = .copy index j) (hj : j < total) :
    Inv n f ((s.write j index (s.buffers 0 index)).goto i (.copy index (j + 1))) gen := by
  have hgen := h.control.gen_of hi rfl
  have hbounded := h.control.bounded i
  rw [hi] at hbounded
  obtain ⟨hfirst, hend, h0, -⟩ := hbounded
  refine h.in_block_write hgen ⟨hfirst, hend⟩ ?_ ?_
  · exact h.control.goto (by rw [hi]; rfl) (by rw [hi]; rfl) ⟨hfirst, hend, succ_pos j, hj⟩
  · intro index' held' hmem hother hhere
    have hcell := (h.data i).block hgen index' hmem
    rw [hi] at hcell
    refine hcell.copy h0 hother fun heq => ?_
    rw [hhere heq, heq]

/-- The next element of the block. -/
theorem next {index j : Nat} (h : Inv n f s gen) (hi : (s.threads i).pc = .copy index j) (hj : total ≤ j) :
    Inv n f (s.goto i (.combine (index + 1) 1)) gen := by
  have hgen := h.control.gen_of hi rfl
  have hbounded := h.control.bounded i
  rw [hi] at hbounded
  obtain ⟨hfirst, -, -, hle⟩ := hbounded
  refine h.in_block_goto hgen ?_ ?_
  · refine h.control.goto (by rw [hi]; rfl) (by rw [hi]; rfl) ⟨?_, one_pos, i.pos⟩
    exact hfirst.trans (le_succ index)
  · intro index' hmem
    have hcell := (h.data i).block hgen index' hmem
    rw [hi] at hcell
    exact hcell.next (le_antisymm hle hj) i.pos

/-- The end of the block. -/
theorem finish (h : Inv n f s gen) (hi : (s.threads i).pc = .combine index j)
    (hindex : ((s.threads i).block total n i).2 ≤ index) : Inv n f (s.goto i .combined) gen := by
  have hgen := h.control.gen_of hi rfl
  refine h.in_block_goto hgen ?_ ?_
  · exact h.control.goto (by rw [hi]; rfl) (by rw [hi]; rfl) trivial
  · intro index' hmem
    have hcell := (h.data i).block hgen index' hmem
    rw [hi] at hcell
    exact hcell.1 (lt_of_lt_of_le hmem.2 hindex)

/-- What a step of another thread leaves alone. -/
theorem data_of_same {j : Fin total} (h : ThreadData n f s gen j)
    (hthread : s'.threads j = s.threads j) (hbuffers : s'.buffers = s.buffers)
    (horiginal : s'.original = s.original) : ThreadData n f s' gen j := by
  constructor
  · rw [hthread, hbuffers, horiginal]
    exact h.registered
  · rw [hthread, hbuffers, horiginal]
    exact h.block
  · rw [hthread, hbuffers, horiginal]
    exact h.result

/-- All nodes have registered their buffers and nobody has touched them. -/
theorem untouched_of_all {r : Nat} (h : Inv n f s (2 * r))
    (hall : ∀ j, (s.threads j).call = r ∧ ((s.threads j).pc = .registered ∨ (s.threads j).pc = .first_wait))
    (index : Nat) : Untouched total (fun j => s.original r j index) (fun j => s.buffers j index) := by
  intro j hj
  obtain ⟨hcall, hpc⟩ := hall ⟨j, hj⟩
  have hregistered := (h.data ⟨j, hj⟩).registered (by rw [hcall]) hpc index
  rw [hcall] at hregistered
  exact hregistered

/-- All blocks are done. -/
theorem result_of_all {r : Nat} (h : Inv n f s (2 * r + 1))
    (hall : ∀ j, (s.threads j).call = r ∧ ((s.threads j).pc = .combined ∨ (s.threads j).pc = .second_wait))
    (hindex : index < n r) (i : Fin total) :
    s.buffers i index = fold f (fun j => s.original r j index) (total - 1) := by
  obtain ⟨node, hnode, hmem⟩ := exists_inBlock i.pos hindex
  obtain ⟨hcall, hpc⟩ := hall ⟨node, hnode⟩
  have hcell := (h.data ⟨node, hnode⟩).block (by rw [hcall]) index (by rw [hcall]; exact hmem)
  rw [hcall] at hcell
  rcases hpc with hpc | hpc
  · rw [hpc] at hcell
    exact hcell i i.isLt
  · rw [hpc] at hcell
    exact hcell i i.isLt

/-- A thread waits for the others, who prepare their calls. -/
theorem enter_first (h : Inv n f s gen) (hi : (s.threads i).pc = .registered) :
    ∃ gen', Inv n f (s.enter i .first_wait (.combine ((s.threads i).block total n i).1 1)) gen' := by
  have hgen : gen = 2 * (s.threads i).call + 0 := h.control.gen_of hi rfl
  have hcontrol := @Control.enter _ _ _ _ _ i .first_wait
    (.combine ((s.threads i).block total n i).1 1) h.control (by rw [hi]; rfl) (by rw [hi]; rfl) rfl rfl rfl
    (by
      rintro pc (rfl | rfl)
      · trivial
      · exact ⟨le_refl _, one_pos, i.pos⟩)
  rcases hcontrol with ⟨heq, hcontrol⟩ | ⟨heq, hcontrol, hall⟩
  · refine ⟨gen, hcontrol, fun j => ?_⟩
    rw [heq]
    by_cases hj : j = i
    · subst hj
      constructor
      · intro _ _ index
        rw [threads_goto_self]
        exact (h.data j).registered hgen (.inl hi) index
      · intro hodd
        rw [threads_goto_self] at hodd
        dsimp only at hodd
        omega
      · intro hnext
        rw [threads_goto_self] at hnext
        dsimp only at hnext
        omega
    · exact data_of_same (h.data j) (State.threads_goto_of_ne _ hj _) rfl rfl
  · -- all threads are in their first wait of this call, and nobody has begun
    have hfirst : ∀ j, (s.threads j).call = (s.threads i).call ∧
        ((s.threads j).pc = .registered ∨ (s.threads j).pc = .first_wait) := by
      intro j
      by_cases hj : j = i
      · subst hj
        exact ⟨rfl, .inl hi⟩
      · exact ⟨(hall j hj).1, .inr (hall j hj).2⟩
    have hgen' : gen = 2 * (s.threads i).call := hgen
    subst hgen'
    have huntouched := h.untouched_of_all hfirst
    refine ⟨_, hcontrol, fun j => ?_⟩
    rw [heq]
    have hcall := State.call_goto { s with barrier := s.barrier.enter i } i j
      (.combine ((s.threads i).block total n i).1 1)
    rw [(hfirst j).1] at hcall
    constructor
    · intro heven
      rw [hcall] at heven
      omega
    · intro _ index hmem
      rw [hcall] at hmem ⊢
      by_cases hj : j = i
      · subst hj
        rw [threads_goto_self]
        exact Cell.start (huntouched index) j.pos hmem.1
      · rw [State.threads_goto_of_ne _ hj]
        rcases (hfirst j).2 with hpc | hpc
        · rw [hpc]
          exact huntouched index
        · rw [hpc]
          exact huntouched index
    · intro heven
      rw [hcall] at heven
      omega

variable {current_run : Bool}

/-- A thread sees that all have registered their buffers. -/
theorem wake_first (h : Inv n f s gen) (hi : (s.threads i).pc = .first_wait)
    (hwaiting : (s.barrier.threads i).waiting = some current_run) :
    Inv n f (s.wake i current_run .first_wait (.combine ((s.threads i).block total n i).1 1)) gen := by
  have hcontrol := @Control.wake _ _ _ _ _ _ _ (.combine ((s.threads i).block total n i).1 1) h.control hwaiting
    (by rw [hi]; rfl) rfl ⟨le_refl _, one_pos, i.pos⟩
  rw [hi] at hcontrol
  rcases hcontrol with heq | ⟨heq, hcontrol, hgen⟩
  · rw [heq]
    exact h
  · change gen = 2 * (s.threads i).call + 1 at hgen
    rw [heq] at hcontrol ⊢
    refine h.in_block hgen rfl rfl hcontrol (fun _ _ _ => rfl) fun index hmem => ?_
    have hcell := (h.data i).block hgen index hmem
    rw [hi] at hcell
    exact Cell.start hcell i.pos hmem.1

/-- A thread has reduced its block and waits for the others. -/
theorem enter_second (h : Inv n f s gen) (hi : (s.threads i).pc = .combined) :
    ∃ gen', Inv n f (s.enter i .second_wait .returned) gen' := by
  have hgen : gen = 2 * (s.threads i).call + 1 := h.control.gen_of hi rfl
  have hcontrol := @Control.enter _ _ _ _ _ i .second_wait .returned h.control
    (by rw [hi]; rfl) (by rw [hi]; rfl) rfl rfl rfl
    (by
      rintro pc (rfl | rfl)
      · trivial
      · trivial)
  rcases hcontrol with ⟨heq, hcontrol⟩ | ⟨heq, hcontrol, hall⟩
  · refine ⟨gen, ?_⟩
    rw [heq] at hcontrol ⊢
    refine h.in_block hgen rfl rfl hcontrol (fun _ _ _ => rfl) fun index hmem => ?_
    have hcell := (h.data i).block hgen index hmem
    rw [hi] at hcell
    exact hcell
  · -- all threads are in their second wait of this call
    have hsecond : ∀ j, (s.threads j).call = (s.threads i).call ∧
        ((s.threads j).pc = .combined ∨ (s.threads j).pc = .second_wait) := by
      intro j
      by_cases hj : j = i
      · subst hj
        exact ⟨rfl, .inl hi⟩
      · exact ⟨(hall j hj).1, .inr (hall j hj).2⟩
    have hgen' : gen = 2 * (s.threads i).call + 1 := hgen
    subst hgen'
    refine ⟨_, hcontrol, fun j => ?_⟩
    rw [heq]
    have hcall := State.call_goto { s with barrier := s.barrier.enter i } i j .returned
    rw [(hsecond j).1] at hcall
    constructor
    · intro heven
      rw [hcall] at heven
      omega
    · intro hodd
      rw [hcall] at hodd
      omega
    · intro _ _ index hindex
      rw [hcall] at hindex ⊢
      exact h.result_of_all hsecond hindex j

/-- A thread sees that all blocks are done. -/
theorem wake_second (h : Inv n f s gen) (hi : (s.threads i).pc = .second_wait)
    (hwaiting : (s.barrier.threads i).waiting = some current_run) :
    Inv n f (s.wake i current_run .second_wait .returned) gen := by
  have hcontrol := @Control.wake _ _ _ _ _ _ _ .returned h.control hwaiting (by rw [hi]; rfl) rfl trivial
  rw [hi] at hcontrol
  rcases hcontrol with heq | ⟨heq, hcontrol, hgen⟩
  · rw [heq]
    exact h
  · change gen = 2 * (s.threads i).call + 2 at hgen
    refine ⟨hcontrol, fun j => ?_⟩
    rw [heq]
    by_cases hj : j = i
    · subst hj
      constructor
      · intro heven
        rw [threads_goto_self] at heven
        dsimp only at heven
        omega
      · intro hodd
        rw [threads_goto_self] at hodd
        dsimp only at hodd
        omega
      · intro _ _ index hindex
        rw [threads_goto_self] at hindex ⊢
        exact (h.data j).result hgen (.inl hi) index hindex
    · exact data_of_same (h.data j) (State.threads_goto_of_ne _ hj _) rfl rfl

/-- A thread is done with its call. -/
theorem resume (h : Inv n f s gen) (hi : (s.threads i).pc = .returned) :
    Inv n f { s with threads := update s.threads i ⟨.outside, (s.threads i).call + 1⟩ } gen := by
  refine ⟨h.control.resume hi, fun j => ?_⟩
  by_cases hj : j = i
  · subst hj
    constructor
    · intro _ hpc
      dsimp only at hpc
      rw [update_self] at hpc
      rcases hpc with hpc | hpc
      · cases hpc
      · cases hpc
    · intro hodd
      have hgen : gen = 2 * (s.threads j).call + 2 := h.control.gen_of hi rfl
      dsimp only at hodd
      rw [update_self] at hodd
      dsimp only at hodd
      omega
    · intro _ hpc
      dsimp only at hpc
      rw [update_self] at hpc
      rcases hpc with hpc | hpc
      · cases hpc
      · cases hpc
  · exact data_of_same (h.data j) (update_of_ne hj _ _) rfl rfl

/-- What every step keeps. -/
theorem step {s' : State total T} (h : Inv n f s gen) (hstep : Step n f s i s') :
    ∃ gen', Inv n f s' gen' := by
  cases hstep with
  | change contents hi => exact ⟨gen, h.change hi contents⟩
  | register contents hi => exact ⟨gen, h.register hi contents⟩
  | enter_first hi => exact h.enter_first hi
  | wake_first current_run hi hwaiting => exact ⟨gen, h.wake_first hi hwaiting⟩
  | combine index j hi hindex hj => exact ⟨gen, h.combine hi hindex hj⟩
  | broadcast index j hi hindex hj => exact ⟨gen, h.broadcast hi hindex hj⟩
  | copy index j hi hj => exact ⟨gen, h.copy hi hj⟩
  | next index j hi hj => exact ⟨gen, h.next hi hj⟩
  | finish index j hi hindex => exact ⟨gen, h.finish hi hindex⟩
  | enter_second hi => exact h.enter_second hi
  | wake_second current_run hi hwaiting => exact ⟨gen, h.wake_second hi hwaiting⟩
  | resume hi => exact ⟨gen, h.resume hi⟩

end Inv

/-! ## Runs -/

/-- Before the threads start. -/
def initial (buffers : Nat → Nat → T) (original : Nat → Nat → Nat → T) : State total T :=
  { buffers := buffers, original := original }

theorem inv_start (htotal : 0 < total) (buffers : Nat → Nat → T) (original : Nat → Nat → Nat → T) :
    Inv n f (initial buffers original : State total T) 0 := by
  refine ⟨⟨Barrier.inv_initial htotal, fun _ => rfl, fun _ => rfl, fun _ => trivial⟩, fun i => ?_⟩
  constructor
  · intro _ hpc
    rcases hpc with hpc | hpc <;> cases hpc
  · intro hodd
    cases hodd
  · intro hnext
    cases hnext

theorem inv_of_reached {s : State total T} {ls : List (Fin total)} {buffers : Nat → Nat → T}
    {original : Nat → Nat → Nat → T} (htotal : 0 < total)
    (h : Run (threads_system total n f) (initial buffers original) ls s) :
    ∃ gen, Inv n f s gen :=
  h.invariant (fun s => ∃ gen, Inv n f s gen) (fun _ _ _ ⟨_, hinv⟩ hstep => hinv.step hstep)
    ⟨0, inv_start htotal buffers original⟩

/-- Whoever has returned from a call finds the result in the buffer of every node that has
    not gone on since. -/
theorem Inv.returned {s : State total T} {gen : Nat} (h : Inv n f s gen) {i j : Fin total}
    (hi : (s.threads i).pc = .returned) (hj : (s.threads j).call = (s.threads i).call)
    {index : Nat} (hindex : index < n (s.threads i).call) :
    s.buffers j index = fold f (fun node => s.original (s.threads i).call node index) (total - 1) := by
  have hgen : gen = 2 * (s.threads i).call + 2 := h.control.gen_of hi rfl
  have hpc : (s.threads j).pc = .second_wait ∨ (s.threads j).pc = .returned := by
    have hj' := h.control.gen_of_waits j
    cases hpc : (s.threads j).pc with
    | second_wait => exact .inl rfl
    | returned => exact .inr rfl
    | _ =>
      rw [hpc] at hj'
      simp only [Pc.entered] at hj'
      omega
  have hresult := (h.data j).result (by rw [hj]; exact hgen) hpc index (by rw [hj]; exact hindex)
  rw [hj] at hresult
  exact hresult

/-- In every state that the threads reach, in any order of their steps: no thread has left
    more barriers than every thread has entered, and the counter does not exceed the number
    of threads; the blocks partition the buffer; and a thread that has returned finds, in the
    buffer of every node that has not gone on since, the fold of all original buffers in the
    order of the nodes. -/
theorem threads_reduce {s : State total T} {ls : List (Fin total)} {buffers : Nat → Nat → T}
    {original : Nat → Nat → Nat → T} (htotal : 0 < total)
    (h : Run (threads_system total n f) (initial buffers original) ls s) :
    (∀ i j, (s.barrier.threads i).left ≤ (s.barrier.threads j).entered) ∧
    s.barrier.sync.count.toNat ≤ total ∧
    (∀ i, (s.barrier.threads i).waiting = none → (s.barrier.sync.count + 1).toNat ≤ total) ∧
    (∀ length index, index < length → ∃! node, node < total ∧ InBlock total node length index) ∧
    (∀ length node index, node < total → InBlock total node length index → index < length) ∧
    (∀ i j, (s.threads i).pc = .returned → (s.threads j).call = (s.threads i).call →
      ∀ index < n (s.threads i).call, s.buffers j index =
        fold f (fun node => s.original (s.threads i).call node index) (total - 1)) := by
  obtain ⟨gen, hinv⟩ := inv_of_reached htotal h
  have hbarrier := hinv.control.barrier
  refine ⟨hbarrier.left_le_entered, hbarrier.count_le, fun i hi => hbarrier.count_succ_le hi, ?_, ?_, ?_⟩
  · intro length index hindex
    obtain ⟨node, hnode, hmem⟩ := exists_inBlock htotal hindex
    exact ⟨node, ⟨hnode, hmem⟩, fun node' ⟨hnode', hmem'⟩ => hmem'.unique hmem hnode' hnode⟩
  · exact fun _ _ _ hnode hmem => hmem.lt hnode
  · exact fun i j hi hj index hindex => hinv.returned hi hj hindex

/-- Two threads with buffers of one element: the first one waits at both barriers, the second
    one is the last at both. -/
theorem two_threads_run :
    ∃ (ls : List (Fin 2)) (s : State 2 Nat),
      Run (threads_system 2 (fun _ => 1) (· + ·))
        (initial (fun _ _ => 0) fun _ _ _ => 0) ls s ∧
      (s.threads 1).pc = .returned ∧ (s.threads 0).call = 0 ∧ (s.threads 1).call = 0 ∧
      s.original 0 0 0 = 3 ∧ s.original 0 1 0 = 4 :=
  ⟨_, _, .cons (.register _ 0 (fun _ => 3) rfl) (.cons (.register _ 1 (fun _ => 4) rfl)
    (.cons (.enter_first _ 0 rfl) (.cons (.enter_first _ 1 rfl)
    (.cons (.finish _ 1 0 1 rfl (by decide)) (.cons (.wake_first _ 0 true rfl rfl)
    (.cons (.combine _ 0 0 1 rfl (by decide) (by decide))
    (.cons (.broadcast _ 0 0 2 rfl (by decide) (by decide))
    (.cons (.copy _ 0 0 1 rfl (by decide)) (.cons (.next _ 0 0 2 rfl (by decide))
    (.cons (.finish _ 0 1 1 rfl (by decide)) (.cons (.enter_second _ 0 rfl)
    (.cons (.enter_second _ 1 rfl) (.nil _))))))))))))), rfl, rfl, rfl, rfl, rfl⟩

/-- The sum of the two buffers, in both. -/
theorem threads_reduce_two_threads :
    ∃ (ls : List (Fin 2)) (s : State 2 Nat),
      Run (threads_system 2 (fun _ => 1) (· + ·))
        (initial (fun _ _ => 0) fun _ _ _ => 0) ls s ∧
      (s.threads 1).pc = .returned ∧ s.buffers 0 0 = 7 ∧ s.buffers 1 0 = 7 := by
  obtain ⟨ls, s, hrun, hpc, hzero, hone, hthree, hfour⟩ := two_threads_run
  obtain ⟨-, -, -, -, -, hresult⟩ := threads_reduce (by decide) hrun
  have hfold : fold (· + ·) (fun node => s.original (s.threads 1).call node 0) (2 - 1) = 7 := by
    rw [hone, fold_succ]
    show s.original 0 0 0 + s.original 0 1 0 = 7
    rw [hthree, hfour]
  refine ⟨ls, s, hrun, hpc, ?_, ?_⟩
  · exact (hresult 1 0 hpc (by rw [hzero, hone]) 0 one_pos).trans hfold
  · exact (hresult 1 1 hpc rfl 0 one_pos).trans hfold

/-! ## Progress -/

/-- A thread that has not entered since the last flip does not wait for the next one. -/
theorem Barrier.Inv.of_slowest {b : Barrier total} {gen : Nat} (h : b.Inv gen)
    (hfits : total < 2 ^ 32) {i : Fin total}
    (hslowest : ∀ j, (b.threads i).entered ≤ (b.threads j).entered) :
    b.threads i = ⟨gen, none, false⟩ ∨ b.threads i = ⟨gen, some (!b.sync.run), true⟩ := by
  rcases h.thread i with ht | ht | ht
  · exact .inl ht
  · exact .inr ht
  · -- all threads would have entered, but then the last one flips the barrier
    have huniv : b.arrived gen = Finset.univ := by
      refine Finset.filter_eq_self.mpr fun j _ => ?_
      have hle := hslowest j
      rw [ht] at hle
      rcases h.thread j with hj | hj | hj <;> rw [hj] at hle ⊢
      · exact absurd hle (not_succ_le_self gen)
      · exact absurd hle (not_succ_le_self gen)
    have hroom := h.room hfits
    rw [huniv, Finset.card_fin] at hroom
    exact absurd hroom (lt_irrefl total)

theorem State.pc_enter_ne {s : State total T} {i : Fin total} {wait leave : Pc}
    (hwait : wait ≠ pc) (hleave : leave ≠ pc) : ((s.enter i wait leave).threads i).pc ≠ pc := by
  unfold State.enter
  rw [threads_goto_self]
  dsimp only
  split
  · exact hwait
  · exact hleave

/-- A thread that can move on by itself. -/
theorem Step.moves {s : State total T} {i : Fin total} (hwaits : (s.threads i).pc.waits = false) :
    ∃ s', Step n f s i s' ∧ (s'.threads i).pc ≠ (s.threads i).pc := by
  cases hpc : (s.threads i).pc with
  | outside => exact ⟨_, .register s i (s.buffers i) hpc, by simp [State.register]⟩
  | registered => exact ⟨_, .enter_first s i hpc, pc_enter_ne (by simp) (by simp)⟩
  | first_wait => rw [hpc] at hwaits; cases hwaits
  | second_wait => rw [hpc] at hwaits; cases hwaits
  | combine index j =>
    rcases lt_or_ge index ((s.threads i).block total n i).2 with hindex | hindex
    · rcases lt_or_ge j total with hj | hj
      · exact ⟨_, .combine s i index j hpc hindex hj, by simp⟩
      · exact ⟨_, .broadcast s i index j hpc hindex hj, by simp⟩
    · exact ⟨_, .finish s i index j hpc hindex, by simp⟩
  | copy index j =>
    rcases lt_or_ge j total with hj | hj
    · exact ⟨_, .copy s i index j hpc hj, by simp⟩
    · exact ⟨_, .next s i index j hpc hj, by simp⟩
  | combined => exact ⟨_, .enter_second s i hpc, pc_enter_ne (by simp) (by simp)⟩
  | returned => exact ⟨_, .resume s i hpc, by simp⟩

/-- A thread that sees the flip leaves the barrier. -/
theorem State.pc_wake {s : State total T} {i : Fin total} {wait leave : Pc} :
    ((s.wake i (!s.barrier.sync.run) wait leave).threads i).pc = leave := by
  unfold State.wake Barrier.wake AllReduceSync.left
  rw [threads_goto_self]
  cases s.barrier.sync.run <;> simp

/-- In every state that the threads reach, a thread that has entered no more barriers than any
    other is not asleep: it does not wait, or it has been notified. Its next step moves it on, so
    that the threads are never stuck. -/
theorem slowest_moves {s : State total T} {ls : List (Fin total)} {buffers : Nat → Nat → T}
    {original : Nat → Nat → Nat → T} (hfits : total < 2 ^ 32)
    (h : Run (threads_system total n f) (initial buffers original) ls s) {i : Fin total}
    (hslowest : ∀ j, (s.barrier.threads i).entered ≤ (s.barrier.threads j).entered) :
    ((s.barrier.threads i).waiting.isSome = true → (s.barrier.threads i).notified = true) ∧
    ∃ s', Step n f s i s' ∧ (s'.threads i).pc ≠ (s.threads i).pc := by
  obtain ⟨gen, hinv⟩ := inv_of_reached (zero_lt_of_lt i.isLt) h
  have hwaits := hinv.control.waits i
  rcases hinv.control.barrier.of_slowest hfits hslowest with ht | ht
  · rw [ht] at hwaits ⊢
    exact ⟨nofun, Step.moves hwaits.symm⟩
  · rw [ht] at hwaits
    have hwaiting : (s.barrier.threads i).waiting = some (!s.barrier.sync.run) := by rw [ht]
    refine ⟨fun _ => by rw [ht], ?_⟩
    cases hpc : (s.threads i).pc with
    | first_wait => exact ⟨_, .wake_first s i _ hpc hwaiting, by rw [pc_wake]; simp⟩
    | second_wait => exact ⟨_, .wake_second s i _ hpc hwaiting, by rw [pc_wake]; simp⟩
    | _ => rw [hpc] at hwaits; cases hwaits

/-- The first of two threads sleeps at the barrier until the second one notifies it. -/
theorem first_of_two_threads_run :
    ∃ (ls : List (Fin 2)) (s : State 2 Nat),
      Run (threads_system 2 (fun _ => 1) (· + ·))
        (initial (fun _ _ => 0) fun _ _ _ => 0) ls s ∧
      (s.threads 0).pc = .first_wait ∧ s.barrier.threads 0 = ⟨1, some true, true⟩ ∧
      (s.barrier.threads 1).entered = 1 :=
  ⟨_, _, .cons (.register _ 0 (fun _ => 3) rfl) (.cons (.register _ 1 (fun _ => 4) rfl)
    (.cons (.enter_first _ 0 rfl) (.cons (.enter_first _ 1 rfl) (.nil _)))), rfl, rfl, rfl⟩

/-- The first thread was notified, and leaves the barrier. -/
theorem slowest_moves_two_threads :
    ∃ (ls : List (Fin 2)) (s s' : State 2 Nat),
      Run (threads_system 2 (fun _ => 1) (· + ·))
        (initial (fun _ _ => 0) fun _ _ _ => 0) ls s ∧
      (s.threads 0).pc = .first_wait ∧ (s.barrier.threads 0).notified = true ∧
      Step (fun _ => 1) (· + ·) s 0 s' ∧ (s'.threads 0).pc ≠ .first_wait := by
  obtain ⟨ls, s, hrun, hpc, hzero, hone⟩ := first_of_two_threads_run
  have hslowest : ∀ j, (s.barrier.threads 0).entered ≤ (s.barrier.threads j).entered := by
    refine Fin.forall_fin_two.mpr ⟨le_refl _, ?_⟩
    rw [hzero]
    exact hone.ge
  obtain ⟨hawake, s', hstep, hmoves⟩ := slowest_moves (by decide) hrun hslowest
  rw [hpc] at hmoves
  exact ⟨ls, s, s', hrun, hpc, hawake (by rw [hzero]; rfl), hstep, hmoves⟩

end VW.AllReduce
