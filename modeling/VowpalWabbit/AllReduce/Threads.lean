import VowpalWabbit.AllReduce.Barrier

/-! # All-reduce with threads

    `all_reduce_threads`: every thread registers its buffer, waits for the others, reduces
    the elements of its own block over all buffers, writes the results back to all of them
    and waits again.

    Between the barriers a call of the reduction on one element and a write of one element
    are steps of their own, and the threads take their steps in any order. A thread outside
    of a call may do to its buffer what it likes. What it registered is recorded.
-/

namespace VW.AllReduce

open Function

/-! ## Blocks -/

/-- The first element of a node's block and the end of the block. -/
def block (total node n : Nat) : Nat × Nat :=
  let block_size := n / total
  if block_size = 0 then
    if node < n then (node, node + 1) else (0, 0)
  else (node * block_size, if node = total - 1 then n else (node + 1) * block_size)

/-- An element belongs to the block of a node. -/
def InBlock (total node n index : Nat) : Prop :=
  (block total node n).1 ≤ index ∧ index < (block total node n).2

section Blocks

variable {total node node' n index : Nat}

theorem InBlock.lt (h : InBlock total node n index) (hnode : node < total) : index < n := by
  unfold InBlock block at h
  dsimp only at h
  have hmul : total * (n / total) ≤ n := Nat.mul_div_le n total
  by_cases hsize : n / total = 0
  · rw [if_pos hsize] at h
    split at h
    · omega
    · omega
  · rw [if_neg hsize] at h
    split at h
    · exact h.2
    · calc index < (node + 1) * (n / total) := h.2
        _ ≤ total * (n / total) := Nat.mul_le_mul_right _ hnode
        _ ≤ n := hmul

/-- A later block begins where an earlier one has ended. -/
theorem block_end_le (h : node < node') (hnode' : node' < total)
    (hmem : InBlock total node n index) (hmem' : InBlock total node' n index) : False := by
  unfold InBlock block at hmem hmem'
  dsimp only at hmem hmem'
  by_cases hsize : n / total = 0
  · rw [if_pos hsize] at hmem hmem'
    split at hmem
    · split at hmem'
      · omega
      · omega
    · omega
  · rw [if_neg hsize] at hmem hmem'
    rw [if_neg (by omega)] at hmem
    have hle : (node + 1) * (n / total) ≤ node' * (n / total) := Nat.mul_le_mul_right _ h
    omega

/-- The blocks are disjoint. -/
theorem InBlock.unique (hmem : InBlock total node n index) (hmem' : InBlock total node' n index)
    (hnode : node < total) (hnode' : node' < total) : node = node' := by
  rcases Nat.lt_trichotomy node node' with h | h | h
  · exact (block_end_le h hnode' hmem hmem').elim
  · exact h
  · exact (block_end_le h hnode hmem' hmem).elim

/-- They cover the buffer. -/
theorem exists_inBlock (htotal : 0 < total) (hindex : index < n) :
    ∃ node < total, InBlock total node n index := by
  by_cases hsize : n / total = 0
  · have hn : n < total := by
      rcases Nat.div_eq_zero_iff.mp hsize with h | h
      · omega
      · exact h
    refine ⟨index, by omega, ?_⟩
    unfold InBlock block
    dsimp only
    rw [if_pos hsize, if_pos hindex]
    exact ⟨Nat.le_refl _, Nat.lt_succ_self _⟩
  · have hpos : 0 < n / total := Nat.pos_of_ne_zero hsize
    have hle : index / (n / total) * (n / total) ≤ index := Nat.div_mul_le_self _ _
    by_cases hlast : total - 1 ≤ index / (n / total)
    · -- the last block takes the rest
      refine ⟨total - 1, by omega, ?_⟩
      unfold InBlock block
      dsimp only
      rw [if_neg hsize, if_pos rfl]
      exact ⟨(Nat.mul_le_mul_right _ hlast).trans hle, hindex⟩
    · refine ⟨index / (n / total), by omega, ?_⟩
      unfold InBlock block
      dsimp only
      rw [if_neg hsize, if_neg (by omega)]
      exact ⟨hle, Nat.lt_mul_of_div_lt (Nat.lt_succ_self _) hpos⟩

end Blocks

/-! ## The code of a thread -/

/-- Where a thread is. -/
inductive Pc where
  /-- Not in a call. -/
  | outside
  /-- The buffer is registered. -/
  | registered
  /-- In the first call of `wait_for_synchronization`. -/
  | first_wait
  /-- Before `f(first, buffers[i][index])`. -/
  | combine (index i : Nat)
  /-- Before `buffers[i][index] = first`. -/
  | copy (index i : Nat)
  /-- After the block. -/
  | combined
  /-- In the second call of `wait_for_synchronization`. -/
  | second_wait
  /-- The call has returned. -/
  | returned

structure Thread where
  pc : Pc := .outside
  /-- The number of the call it is in, or was in last. -/
  call : Nat := 0

/-- The threads and what they share. -/
structure State (total : Nat) (T : Type) where
  barrier : Barrier total := {}
  threads : Fin total → Thread := fun _ => {}
  /-- What the registered buffers hold. -/
  buffers : Nat → Nat → T
  /-- What they held when they were registered, for each call. -/
  original : Nat → Nat → Nat → T

namespace State

variable {total : Nat} {T : Type}

/-- A thread moves on. -/
def goto (s : State total T) (i : Fin total) (pc : Pc) : State total T :=
  { s with threads := update s.threads i { s.threads i with pc := pc } }

@[simp] theorem threads_goto_self (s : State total T) (i : Fin total) (pc : Pc) :
    (s.goto i pc).threads i = ⟨pc, (s.threads i).call⟩ := update_self _ _ _

theorem threads_goto_of_ne (s : State total T) {i j : Fin total} (h : j ≠ i) (pc : Pc) :
    (s.goto i pc).threads j = s.threads j := update_of_ne h _ _

theorem call_goto (s : State total T) (i j : Fin total) (pc : Pc) :
    ((s.goto i pc).threads j).call = (s.threads j).call := by
  by_cases hj : j = i
  · subst hj
    rw [threads_goto_self]
  · rw [threads_goto_of_ne s hj]

/-- `buffers[node][index] = value`. -/
def write (s : State total T) (node index : Nat) (value : T) : State total T :=
  { s with buffers := update s.buffers node (update (s.buffers node) index value) }

/-- `wait_for_synchronization`, with where the thread is while it waits and after it. -/
def enter (s : State total T) (i : Fin total) (wait leave : Pc) : State total T :=
  let barrier := s.barrier.enter i
  goto { s with barrier := barrier } i (if (barrier.threads i).waiting.isSome then wait else leave)

/-- A thread that waits wakes up. -/
def wake (s : State total T) (i : Fin total) (current_run : Bool) (wait leave : Pc) : State total T :=
  let barrier := s.barrier.wake i current_run
  goto { s with barrier := barrier } i (if (barrier.threads i).waiting.isSome then wait else leave)

/-- A buffer is registered. -/
def register (s : State total T) (i : Fin total) (contents : Nat → T) : State total T :=
  goto { s with
    buffers := update s.buffers i contents
    original := update s.original (s.threads i).call
      (update (s.original (s.threads i).call) i contents) } i .registered

end State

/-- The block of a thread in its call; `n call` is the length of the buffers. -/
def Thread.block (total : Nat) (n : Nat → Nat) (t : Thread) (node : Nat) : Nat × Nat :=
  AllReduce.block total node (n t.call)

variable {total : Nat} {T : Type}

/-- The steps of the threads: `n` gives the length of the buffers in each call, and `f` is
    the reduction. -/
inductive Step (n : Nat → Nat) (f : T → T → T) : State total T → Fin total → State total T → Prop where
  | change (s : State total T) (i : Fin total) (contents : Nat → T)
      (h : (s.threads i).pc = .outside) :
      Step n f s i { s with buffers := update s.buffers i contents }
  | register (s : State total T) (i : Fin total) (contents : Nat → T)
      (h : (s.threads i).pc = .outside) : Step n f s i (s.register i contents)
  | enter_first (s : State total T) (i : Fin total) (h : (s.threads i).pc = .registered) :
      Step n f s i (s.enter i .first_wait (.combine ((s.threads i).block total n i).1 1))
  | wake_first (s : State total T) (i : Fin total) (current_run : Bool)
      (h : (s.threads i).pc = .first_wait)
      (hwaiting : (s.barrier.threads i).waiting = some current_run) :
      Step n f s i (s.wake i current_run .first_wait (.combine ((s.threads i).block total n i).1 1))
  | combine (s : State total T) (i : Fin total) (index j : Nat)
      (h : (s.threads i).pc = .combine index j)
      (hindex : index < ((s.threads i).block total n i).2) (hj : j < total) :
      Step n f s i ((s.write 0 index (f (s.buffers 0 index) (s.buffers j index))).goto i
        (.combine index (j + 1)))
  | broadcast (s : State total T) (i : Fin total) (index j : Nat)
      (h : (s.threads i).pc = .combine index j)
      (hindex : index < ((s.threads i).block total n i).2) (hj : total ≤ j) :
      Step n f s i (s.goto i (.copy index 1))
  | copy (s : State total T) (i : Fin total) (index j : Nat) (h : (s.threads i).pc = .copy index j)
      (hj : j < total) :
      Step n f s i ((s.write j index (s.buffers 0 index)).goto i (.copy index (j + 1)))
  | next (s : State total T) (i : Fin total) (index j : Nat) (h : (s.threads i).pc = .copy index j)
      (hj : total ≤ j) : Step n f s i (s.goto i (.combine (index + 1) 1))
  | finish (s : State total T) (i : Fin total) (index j : Nat)
      (h : (s.threads i).pc = .combine index j)
      (hindex : ((s.threads i).block total n i).2 ≤ index) : Step n f s i (s.goto i .combined)
  | enter_second (s : State total T) (i : Fin total) (h : (s.threads i).pc = .combined) :
      Step n f s i (s.enter i .second_wait .returned)
  | wake_second (s : State total T) (i : Fin total) (current_run : Bool)
      (h : (s.threads i).pc = .second_wait)
      (hwaiting : (s.barrier.threads i).waiting = some current_run) :
      Step n f s i (s.wake i current_run .second_wait .returned)
  | resume (s : State total T) (i : Fin total) (h : (s.threads i).pc = .returned) :
      Step n f s i { s with threads := update s.threads i ⟨.outside, (s.threads i).call + 1⟩ }

def threads_system (total : Nat) (n : Nat → Nat) (f : T → T → T) :
    Refinement.System (State total T) (Fin total) := ⟨Step n f⟩

end VW.AllReduce
