import Mathlib.Data.Fintype.Card
import Mathlib.Tactic.Ring
import VowpalWabbit.Framework.Refinement

/-! # The barrier of the threads

    `all_reduce_sync`: threads wait until all of them have entered. The barrier is reused
    with a counter, which the last thread resets, and a flag, which it flips. A thread that
    waits remembers the flag and sleeps until it is notified, as the last thread does for all;
    it may also wake up at any other time. It leaves when the flag has changed, or sleeps again.

    Every critical section under the mutex is one step. What each thread has entered so far
    is recorded beside the code's own variables.
-/

namespace VW.AllReduce

open Function BitVec Finset

/-! ## The code -/

/-- `all_reduce_sync`, with its initial values. -/
structure AllReduceSync where
  /-- The number of threads that reached the barrier, a `uint32_t`. -/
  count : BitVec 32 := 0
  run : Bool := true

/-- `wait_for_synchronization` up to where the thread leaves (`none`), after it has notified
    all others, or waits for the flag to differ from what it has seen. -/
def AllReduceSync.enter (total : Nat) (sync : AllReduceSync) : AllReduceSync × Option Bool :=
  let count := sync.count + 1
  if total ≤ count.toNat then ({ count := 0, run := !sync.run }, none)
  else ({ sync with count := count }, some sync.run)

/-- The predicate of the condition variable. -/
def AllReduceSync.left (sync : AllReduceSync) (current_run : Bool) : Bool := sync.run != current_run

/-! ## The system -/

/-- A thread as the barrier sees it. -/
structure Waiter where
  /-- The number of its calls of `wait_for_synchronization`. -/
  entered : Nat := 0
  /-- The flag that it remembers while it waits. -/
  waiting : Option Bool := none
  /-- It has been notified while it waits. -/
  notified : Bool := false
  deriving DecidableEq

/-- The number of calls that it has left. -/
def Waiter.left (t : Waiter) : Nat := if t.waiting.isSome then t.entered - 1 else t.entered

/-- The barrier and its threads. -/
structure Barrier (total : Nat) where
  sync : AllReduceSync := {}
  threads : Fin total → Waiter := fun _ => {}

namespace Barrier

variable {total : Nat}

/-- `notify_all`, for those that wait. -/
def notify_all (threads : Fin total → Waiter) : Fin total → Waiter :=
  fun i => { threads i with notified := (threads i).waiting.isSome }

/-- A thread calls `wait_for_synchronization`. -/
def enter (b : Barrier total) (i : Fin total) : Barrier total where
  sync := (b.sync.enter total).1
  threads := update (if (b.sync.enter total).2.isSome then b.threads else notify_all b.threads) i
    { entered := (b.threads i).entered + 1, waiting := (b.sync.enter total).2 }

/-- A thread that waits wakes up, notified or not, and looks at the flag. -/
def wake (b : Barrier total) (i : Fin total) (current_run : Bool) : Barrier total :=
  { b with threads := update b.threads i { b.threads i with
      waiting := if b.sync.left current_run then none else some current_run
      notified := false } }

/-! ## The invariant -/

/-- The threads that have entered the barrier since its last flip. -/
def arrived (b : Barrier total) (gen : Nat) : Finset (Fin total) :=
  univ.filter fun i => (b.threads i).entered = gen + 1

/-- The barrier after `gen` flips. -/
structure Inv (b : Barrier total) (gen : Nat) : Prop where
  run : b.sync.run = decide (gen % 2 = 0)
  /-- A thread has left all its calls, or it has been notified of the last flip, or it waits
      for the next one. -/
  thread : ∀ i, b.threads i = ⟨gen, none, false⟩ ∨ b.threads i = ⟨gen, some (!b.sync.run), true⟩ ∨
    b.threads i = ⟨gen + 1, some b.sync.run, false⟩
  count : b.sync.count = BitVec.ofNat 32 (b.arrived gen).card
  room : total < 2 ^ 32 → (b.arrived gen).card < total

variable {b : Barrier total} {gen : Nat} {i : Fin total}

theorem inv_initial (h : 0 < total) : Inv ({} : Barrier total) 0 := by
  have hnone : arrived ({} : Barrier total) 0 = ∅ := by
    unfold arrived
    rw [filter_eq_empty_iff]
    intro i _ h
    cases h
  constructor
  · rfl
  · exact fun i => .inl rfl
  · rw [hnone]
    rfl
  · intro _
    rw [hnone]
    exact h

theorem Inv.eq_of_not_waiting (h : b.Inv gen) (hi : (b.threads i).waiting = none) :
    b.threads i = ⟨gen, none, false⟩ := by
  rcases h.thread i with ht | ht | ht
  · exact ht
  · rw [ht] at hi
    cases hi
  · rw [ht] at hi
    cases hi

/-- A thread that enters has not arrived before. -/
theorem Inv.not_mem_arrived (h : b.Inv gen) (hi : (b.threads i).waiting = none) :
    i ∉ b.arrived gen := by
  unfold arrived
  rw [mem_filter, h.eq_of_not_waiting hi]
  rintro ⟨-, heq⟩
  exact Nat.succ_ne_self gen heq.symm

theorem arrived_update (gen : Nat) {t : Waiter} (ht : t.entered = gen + 1) (sync : AllReduceSync) :
    arrived { sync := sync, threads := update b.threads i t } gen = insert i (b.arrived gen) := by
  ext j
  unfold arrived
  rw [mem_insert, mem_filter, mem_filter]
  dsimp only
  by_cases hj : j = i
  · subst hj
    rw [update_self]
    simp [ht]
  · rw [update_of_ne hj]
    simp [hj]

/-- The counter never exceeds the number of threads, also inside the critical section. -/
theorem Inv.count_succ_le (h : b.Inv gen) (hi : (b.threads i).waiting = none) :
    (b.sync.count + 1).toNat ≤ total := by
  have hcard : (insert i (b.arrived gen)).card ≤ total := by
    simpa using card_le_univ (insert i (b.arrived gen))
  rw [card_insert_of_notMem (h.not_mem_arrived hi)] at hcard
  have hcount : b.sync.count + 1 = BitVec.ofNat 32 ((b.arrived gen).card + 1) := by
    rw [h.count, ofNat_add]
    rfl
  rw [hcount, toNat_ofNat]
  exact (Nat.mod_le _ _).trans hcard

/-- A thread that enters waits, or it is the last one and all others wait: then the barrier
    flips. -/
theorem Inv.enter (h : b.Inv gen) (hi : (b.threads i).waiting = none) :
    ((b.enter i).threads i = ⟨gen + 1, some b.sync.run, false⟩ ∧ (b.enter i).Inv gen) ∨
      ((b.enter i).threads i = ⟨gen + 1, none, false⟩ ∧ (b.enter i).Inv (gen + 1) ∧
        ∀ j, j ≠ i → b.threads j = ⟨gen + 1, some b.sync.run, false⟩) := by
  have hnew := h.not_mem_arrived hi
  have hthread := h.eq_of_not_waiting hi
  have hcard : (insert i (b.arrived gen)).card = (b.arrived gen).card + 1 :=
    card_insert_of_notMem hnew
  have hle : (b.arrived gen).card + 1 ≤ total := by
    rw [← hcard]
    simpa using card_le_univ (insert i (b.arrived gen))
  have hcount : b.sync.count + 1 = BitVec.ofNat 32 ((b.arrived gen).card + 1) := by
    rw [h.count, ofNat_add]
    rfl
  by_cases hlast : total ≤ (b.sync.count + 1).toNat
  · right
    have henter : b.sync.enter total = ({ count := 0, run := !b.sync.run }, none) := by
      unfold AllReduceSync.enter
      rw [if_pos hlast]
    -- the counter has not wrapped, since it is at least the number of threads
    rw [hcount, toNat_ofNat] at hlast
    have hfull : (b.arrived gen).card + 1 = total :=
      Nat.le_antisymm hle (hlast.trans (Nat.mod_le _ _))
    have hall : ∀ j, j ≠ i → b.threads j = ⟨gen + 1, some b.sync.run, false⟩ := by
      intro j hj
      have huniv : insert i (b.arrived gen) = univ := by
        rw [← card_eq_iff_eq_univ, hcard, hfull, Fintype.card_fin]
      have hmem : j ∈ insert i (b.arrived gen) := by
        rw [huniv]
        exact mem_univ j
      rcases mem_insert.mp hmem with heq | hmem
      · exact absurd heq hj
      · have hentered := (mem_filter.mp hmem).2
        rcases h.thread j with ht | ht | ht
        · rw [ht] at hentered
          exact absurd hentered (Nat.succ_ne_self gen).symm
        · rw [ht] at hentered
          exact absurd hentered (Nat.succ_ne_self gen).symm
        · exact ht
    have hthreads : ∀ j, (b.enter i).threads j =
        if j = i then ⟨gen + 1, none, false⟩ else ⟨gen + 1, some b.sync.run, true⟩ := by
      intro j
      unfold Barrier.enter
      dsimp only
      by_cases hj : j = i
      · subst hj
        rw [update_self, if_pos rfl, henter, hthread]
      · rw [update_of_ne hj, if_neg hj, henter]
        show notify_all b.threads j = _
        unfold notify_all
        rw [hall j hj]
        rfl
    have hsync : (b.enter i).sync = { count := 0, run := !b.sync.run } := by
      unfold Barrier.enter
      rw [henter]
    have hnone : (b.enter i).arrived (gen + 1) = ∅ := by
      unfold arrived
      rw [filter_eq_empty_iff]
      intro j _ hj
      rw [hthreads] at hj
      split at hj
      · exact absurd hj (Nat.succ_ne_self (gen + 1)).symm
      · exact absurd hj (Nat.succ_ne_self (gen + 1)).symm
    refine ⟨by rw [hthreads, if_pos rfl], ⟨?_, ?_, ?_, ?_⟩, hall⟩
    · rw [hsync]
      dsimp only
      rw [h.run, ← decide_not, decide_eq_decide]
      omega
    · intro j
      rw [hthreads, hsync, Bool.not_not]
      by_cases hj : j = i
      · exact .inl (if_pos hj)
      · exact .inr (.inl (if_neg hj))
    · rw [hsync, hnone]
      rfl
    · intro _
      rw [hnone, card_empty]
      omega
  · left
    have henter : b.sync.enter total = ({ b.sync with count := b.sync.count + 1 }, some b.sync.run) := by
      unfold AllReduceSync.enter
      rw [if_neg hlast]
    have heq : b.enter i = ⟨{ b.sync with count := b.sync.count + 1 },
        Function.update b.threads i ⟨gen + 1, some b.sync.run, false⟩⟩ := by
      unfold Barrier.enter
      rw [henter, hthread]
      rfl
    have harrived : (b.enter i).arrived gen = insert i (b.arrived gen) := by
      rw [heq]
      exact arrived_update gen rfl _
    refine ⟨by rw [heq]; exact update_self _ _ _, ⟨?_, ?_, ?_, ?_⟩⟩
    · rw [heq]
      exact h.run
    · intro j
      rw [heq]
      dsimp only
      by_cases hj : j = i
      · subst hj
        rw [update_self]
        exact .inr (.inr rfl)
      · rw [update_of_ne hj]
        exact h.thread j
    · rw [harrived, hcard, heq]
      exact hcount
    · intro hsmall
      rw [harrived, hcard]
      rw [hcount, toNat_ofNat, Nat.mod_eq_of_lt (by omega)] at hlast
      omega

/-- A thread leaves only when the barrier has flipped since it entered. -/
theorem Inv.wake (h : b.Inv gen) {current_run : Bool}
    (hi : (b.threads i).waiting = some current_run) :
    (b.wake i current_run = b ∧ b.threads i = ⟨gen + 1, some b.sync.run, false⟩) ∨
      (b.wake i current_run = { b with threads := Function.update b.threads i ⟨gen, none, false⟩ } ∧
        b.threads i = ⟨gen, some (!b.sync.run), true⟩ ∧ (b.wake i current_run).Inv gen) := by
  unfold Barrier.wake AllReduceSync.left
  rcases h.thread i with ht | ht | ht
  · rw [ht] at hi
    cases hi
  · right
    rw [ht] at hi
    cases hi
    have hleft : (b.sync.run != !b.sync.run) = true := by cases b.sync.run <;> rfl
    rw [if_pos hleft, ht]
    have harrived : arrived { b with threads := Function.update b.threads i ⟨gen, none, false⟩ } gen =
        b.arrived gen := by
      ext j
      unfold arrived
      rw [mem_filter, mem_filter]
      dsimp only
      by_cases hj : j = i
      · subst hj
        rw [update_self, ht]
      · rw [update_of_ne hj]
    refine ⟨rfl, rfl, ⟨h.run, ?_, ?_, ?_⟩⟩
    · intro j
      dsimp only
      by_cases hj : j = i
      · subst hj
        rw [update_self]
        exact .inl rfl
      · rw [update_of_ne hj]
        exact h.thread j
    · rw [harrived]
      exact h.count
    · rw [harrived]
      exact h.room
  · left
    rw [ht] at hi
    cases hi
    rw [if_neg (by simp)]
    -- it sleeps again as before, since it has not been notified
    have hsame : { b.threads i with waiting := some b.sync.run, notified := false } =
        b.threads i := by rw [ht]
    refine ⟨?_, ht⟩
    rw [hsame, update_eq_self]

/-- No thread has left more calls than every thread has entered. -/
theorem Inv.left_le_entered (h : b.Inv gen) (i j : Fin total) :
    (b.threads i).left ≤ (b.threads j).entered := by
  have hleft : (b.threads i).left ≤ gen := by
    unfold Waiter.left
    rcases h.thread i with ht | ht | ht
    · rw [ht]
      exact Nat.le_refl gen
    · rw [ht]
      exact Nat.sub_le gen 1
    · rw [ht]
      exact Nat.le_refl gen
  have hentered : gen ≤ (b.threads j).entered := by
    rcases h.thread j with ht | ht | ht
    · rw [ht]
    · rw [ht]
    · rw [ht]
      exact Nat.le_succ gen
  exact hleft.trans hentered

theorem Inv.count_le (h : b.Inv gen) : b.sync.count.toNat ≤ total := by
  have hcard : (b.arrived gen).card ≤ total := by
    simpa using card_le_univ (b.arrived gen)
  rw [h.count, toNat_ofNat]
  exact (Nat.mod_le _ _).trans hcard

end Barrier

end VW.AllReduce
