import VowpalWabbit.Framework.Refinement

/-! # The queue between threads

    `thread_safe_queue` of `core/queue.h`. A producer waits while the queue is full, and a
    consumer while it is empty and not done; both look again whenever they wake up, notified or
    not. `set_done` notifies after it has left its critical section.

    Every critical section under the mutex is one step, and so is every notification outside of
    one. A step is labelled with what it did, so that the labels of a run tell which items were
    pushed and popped, in which order.
-/

namespace VW.Queue

open Function List Refinement

/-! ## The code -/

/-- `thread_safe_queue`, without its mutex and its condition variables. -/
structure ThreadSafeQueue (α : Type) where
  object_queue : List α := []
  done : Bool := false

namespace ThreadSafeQueue

variable {α : Type}

/-- `push` up to where it waits (`none`) or returns. -/
def push (max_size : Nat) (item : α) (q : ThreadSafeQueue α) : Option (ThreadSafeQueue α) :=
  if q.object_queue.length = max_size then none
  else some { q with object_queue := q.object_queue ++ [item] }

/-- How `try_pop` goes on. -/
inductive Popped (α : Type) where
  | waits
  /-- It returns `false`. -/
  | ends
  /-- It returns `true`. -/
  | item (item : α) (q : ThreadSafeQueue α)

def try_pop (q : ThreadSafeQueue α) : Popped α :=
  match q.object_queue with
  | [] => if q.done then .ends else .waits
  | item :: rest => .item item { q with object_queue := rest }

def set_done (q : ThreadSafeQueue α) : ThreadSafeQueue α := { q with done := true }

end ThreadSafeQueue

/-! ## The threads -/

/-- Where a thread is. One that waits has been notified or not. -/
inductive Thread (α : Type) where
  | outside
  /-- It waits for `_is_not_full`. -/
  | in_push (item : α) (notified : Bool)
  /-- It waits for `_is_not_empty`. -/
  | in_try_pop (notified : Bool)
  /-- It has set the flag and is to notify those that wait for `_is_not_empty`. -/
  | in_set_done
  /-- It is to notify those that wait for `_is_not_full`. -/
  | at_end_of_set_done

/-- `_is_not_full.notify_all()`. -/
def Thread.notify_not_full {α : Type} : Thread α → Thread α
  | in_push item _ => in_push item true
  | t => t

/-- `_is_not_empty.notify_all()`. -/
def Thread.notify_not_empty {α : Type} : Thread α → Thread α
  | in_try_pop _ => in_try_pop true
  | t => t

/-- What a step of a thread did. -/
inductive Event (T α : Type) where
  | pushed (t : T) (item : α)
  | popped (t : T) (item : α)
  /-- `try_pop` returned `false`. -/
  | ended (t : T)
  | set_done (t : T)
  | waits (t : T)
  | notified (t : T)

/-- The queue and its threads. -/
structure State (T α : Type) where
  queue : ThreadSafeQueue α := {}
  threads : T → Thread α := fun _ => .outside

variable {T α : Type}

section Steps

variable [DecidableEq T]

namespace State

/-- The thread `t` moves on. -/
def goto (s : State T α) (t : T) (thread : Thread α) : State T α :=
  { s with threads := update s.threads t thread }

/-- The critical section of `push`, which the thread enters or comes back to. -/
def push (max_size : Nat) (t : T) (item : α) (s : State T α) : Event T α × State T α :=
  match s.queue.push max_size item with
  | none => (.waits t, s.goto t (.in_push item false))
  | some q => (.pushed t item, goto ⟨q, fun u => (s.threads u).notify_not_empty⟩ t .outside)

/-- The critical section of `try_pop`. -/
def try_pop (t : T) (s : State T α) : Event T α × State T α :=
  match s.queue.try_pop with
  | .waits => (.waits t, s.goto t (.in_try_pop false))
  | .ends => (.ended t, s.goto t .outside)
  | .item item q => (.popped t item, goto ⟨q, fun u => (s.threads u).notify_not_full⟩ t .outside)

/-- The critical section of `set_done`. -/
def set_done (t : T) (s : State T α) : Event T α × State T α :=
  (.set_done t, goto { s with queue := s.queue.set_done } t .in_set_done)

end State

/-- The calls, wake-ups and notifications of the threads, in any order. -/
inductive Step (max_size : Nat) : State T α → Event T α → State T α → Prop where
  | push (s : State T α) (t : T) (item : α) (h : s.threads t = .outside) :
      Step max_size s (s.push max_size t item).1 (s.push max_size t item).2
  | wake_push (s : State T α) (t : T) (item : α) (notified : Bool) (h : s.threads t = .in_push item notified) :
      Step max_size s (s.push max_size t item).1 (s.push max_size t item).2
  | try_pop (s : State T α) (t : T) (h : s.threads t = .outside) :
      Step max_size s (s.try_pop t).1 (s.try_pop t).2
  | wake_try_pop (s : State T α) (t : T) (notified : Bool) (h : s.threads t = .in_try_pop notified) :
      Step max_size s (s.try_pop t).1 (s.try_pop t).2
  | set_done (s : State T α) (t : T) (h : s.threads t = .outside) :
      Step max_size s (s.set_done t).1 (s.set_done t).2
  | notify_not_empty (s : State T α) (t : T) (h : s.threads t = .in_set_done) :
      Step max_size s (.notified t)
        (State.goto { s with threads := fun u => (s.threads u).notify_not_empty } t .at_end_of_set_done)
  | notify_not_full (s : State T α) (t : T) (h : s.threads t = .at_end_of_set_done) :
      Step max_size s (.notified t)
        (State.goto { s with threads := fun u => (s.threads u).notify_not_full } t .outside)

/-- The queue of the given capacity. -/
def system (T α : Type) [DecidableEq T] (max_size : Nat) : System (State T α) (Event T α) := ⟨Step max_size⟩

end Steps

/-! ## What a step does -/

/-- The items that were pushed, in their order. -/
def items_pushed (events : List (Event T α)) : List α :=
  events.filterMap fun
    | .pushed _ item => some item
    | _ => none

def items_popped (events : List (Event T α)) : List α :=
  events.filterMap fun
    | .popped _ item => some item
    | _ => none

/-- What can happen to the queue. -/
inductive Change (max_size : Nat) (q q' : ThreadSafeQueue α) : Event T α → Prop where
  | pushed (t : T) (item : α) (hroom : q.object_queue.length ≠ max_size)
      (hqueue : q'.object_queue = q.object_queue ++ [item]) (hdone : q'.done = q.done) :
        Change max_size q q' (.pushed t item)
  | popped (t : T) (item : α) (hqueue : q.object_queue = item :: q'.object_queue) (hdone : q'.done = q.done) :
      Change max_size q q' (.popped t item)
  | ended (t : T) (hempty : q.object_queue = []) (hdone : q.done = true) (hsame : q' = q) :
      Change max_size q q' (.ended t)
  | set_done (t : T) (hqueue : q'.object_queue = q.object_queue) (hdone : q'.done = true) :
      Change max_size q q' (.set_done t)
  | waits (t : T) (hsame : q' = q) : Change max_size q q' (.waits t)
  | notified (t : T) (hsame : q' = q) : Change max_size q q' (.notified t)

variable {max_size : Nat} {s s' : State T α} {t : T} {e : Event T α}

variable {q : ThreadSafeQueue α}

/-- What was in the queue before, and what was pushed, has been popped or is in the queue. -/
theorem Change.items {q' : ThreadSafeQueue α} (h : Change max_size q q' e) :
    q.object_queue ++ items_pushed [e] = items_popped [e] ++ q'.object_queue := by
  cases h with
  | pushed t item hroom hqueue => exact hqueue.symm
  | popped t item hqueue => exact (append_nil _).trans hqueue
  | ended t hempty hdone hsame =>
    rw [hsame]
    exact append_nil _
  | set_done t hqueue =>
    rw [hqueue]
    exact append_nil _
  | waits t hsame =>
    rw [hsame]
    exact append_nil _
  | notified t hsame =>
    rw [hsame]
    exact append_nil _

theorem items_pushed_cons (e : Event T α) (es : List (Event T α)) :
    items_pushed (e :: es) = items_pushed [e] ++ items_pushed es :=
  filterMap_append (l := [e])

theorem items_popped_cons (e : Event T α) (es : List (Event T α)) :
    items_popped (e :: es) = items_popped [e] ++ items_popped es :=
  filterMap_append (l := [e])

/-! ## Those that wait -/

/-- Who has not been notified still has to wait, or will be notified. -/
structure Waiting (max_size : Nat) (s : State T α) : Prop where
  length_le : s.queue.object_queue.length ≤ max_size
  not_empty : ∀ t, s.threads t = .in_try_pop false →
    s.queue.object_queue = [] ∧ (s.queue.done = true → ∃ u, s.threads u = .in_set_done)
  not_full : ∀ t item, s.threads t = .in_push item false → s.queue.object_queue.length = max_size

theorem notify_not_empty_ne (thread : Thread α) : thread.notify_not_empty ≠ .in_try_pop false := by
  cases thread <;> simp [Thread.notify_not_empty]

theorem notify_not_full_ne (thread : Thread α) (item : α) : thread.notify_not_full ≠ .in_push item false := by
  cases thread <;> simp [Thread.notify_not_full]

variable {thread : Thread α}

theorem notify_not_empty_in_push {item : α} (h : thread.notify_not_empty = .in_push item false) :
    thread = .in_push item false := by
  cases thread <;> simp_all [Thread.notify_not_empty]

theorem notify_not_full_in_try_pop (h : thread.notify_not_full = .in_try_pop false) :
    thread = .in_try_pop false := by
  cases thread <;> simp_all [Thread.notify_not_full]

/-- All that wait for an item are notified, whatever happened to the queue. -/
theorem waiting_notify_not_empty (hlength : q.object_queue.length ≤ max_size)
    (hpush : ∀ t item, s.threads t = .in_push item false → q.object_queue.length = max_size) :
    Waiting max_size ⟨q, fun u => (s.threads u).notify_not_empty⟩ :=
  ⟨hlength, fun _ hu => absurd hu (notify_not_empty_ne _),
    fun u item hu => hpush u item (notify_not_empty_in_push hu)⟩

/-- All that wait for room are notified. -/
theorem waiting_notify_not_full (hlength : q.object_queue.length ≤ max_size)
    (hpop : ∀ t, s.threads t = .in_try_pop false →
      q.object_queue = [] ∧ (q.done = true → ∃ u, s.threads u = .in_set_done)) :
    Waiting max_size ⟨q, fun u => (s.threads u).notify_not_full⟩ := by
  refine ⟨hlength, fun u hu => ?_, fun _ item hu => absurd hu (notify_not_full_ne _ item)⟩
  obtain ⟨hempty, hdone⟩ := hpop u (notify_not_full_in_try_pop hu)
  refine ⟨hempty, fun htrue => ?_⟩
  obtain ⟨v, hv⟩ := hdone htrue
  refine ⟨v, ?_⟩
  change (s.threads v).notify_not_full = _
  rw [hv]
  rfl

/-! ## What a run does -/

section Steps

variable [DecidableEq T]

theorem change_push (s : State T α) (t : T) (item : α) :
    Change max_size s.queue (s.push max_size t item).2.queue (s.push max_size t item).1 := by
  unfold State.push ThreadSafeQueue.push
  split
  · exact .waits t rfl
  · next q h =>
    split at h
    · cases h
    · next hroom =>
      cases h
      exact .pushed t item hroom rfl rfl

theorem change_try_pop (s : State T α) (t : T) :
    Change max_size s.queue (s.try_pop t).2.queue (s.try_pop t).1 := by
  unfold State.try_pop ThreadSafeQueue.try_pop
  split
  · exact .waits t rfl
  · next h =>
    split at h
    · next hempty =>
      split at h
      · next hdone => exact .ended t hempty hdone rfl
      · cases h
    · cases h
  · next item q h =>
    split at h
    · split at h
      · cases h
      · cases h
    · next hqueue =>
      cases h
      exact .popped t item hqueue rfl

theorem Step.change (h : Step max_size s e s') : Change max_size s.queue s'.queue e := by
  cases h with
  | push t item => exact change_push s t item
  | wake_push t item => exact change_push s t item
  | try_pop t => exact change_try_pop s t
  | wake_try_pop t => exact change_try_pop s t
  | set_done t => exact .set_done t rfl rfl
  | notify_not_empty t => exact .notified t rfl
  | notify_not_full t => exact .notified t rfl

variable {es : List (Event T α)}

theorem items_of_run (h : Run (system T α max_size) s es s') :
    s.queue.object_queue ++ items_pushed es = items_popped es ++ s'.queue.object_queue := by
  induction h with
  | nil s => exact append_nil _
  | cons hstep _ ih =>
    rw [items_pushed_cons, items_popped_cons, append_assoc, ← ih, ← append_assoc, ← append_assoc, hstep.change.items]

/-- The flag is set by `set_done` alone. -/
theorem done_of_run (h : Run (system T α max_size) s es s') (hdone : s'.queue.done = true) :
    s.queue.done = true ∨ ∃ t, .set_done t ∈ es := by
  induction h with
  | nil s => exact .inl hdone
  | cons hstep _ ih =>
    rcases ih hdone with h | ⟨t, ht⟩
    · cases hstep.change with
      | pushed t item hroom hqueue hkept => exact .inl (hkept ▸ h)
      | popped t item hqueue hkept => exact .inl (hkept ▸ h)
      | ended t hempty hset hsame => exact .inl hset
      | set_done t => exact .inr ⟨t, mem_cons_self⟩
      | waits t hsame => exact .inl (hsame ▸ h)
      | notified t hsame => exact .inl (hsame ▸ h)
    · exact .inr ⟨t, mem_cons_of_mem _ ht⟩

theorem threads_goto (s : State T α) (t : T) (thread : Thread α) {u : T} (h : u ≠ t) :
    (s.goto t thread).threads u = s.threads u := update_of_ne h _ _

theorem threads_goto_self (s : State T α) (t : T) (thread : Thread α) : (s.goto t thread).threads t = thread :=
  update_self _ _ _

/-- A thread that goes on leaves those that wait as they are. -/
theorem Waiting.goto (h : Waiting max_size s)
    (hset_done : s.threads t = .in_set_done → ∀ u, s.threads u ≠ .in_try_pop false)
    (hpop : thread = .in_try_pop false → s.queue.object_queue = [] ∧ s.queue.done = false)
    (hpush : ∀ item, thread = .in_push item false → s.queue.object_queue.length = max_size) :
    Waiting max_size (s.goto t thread) := by
  refine ⟨h.length_le, fun u hu => ?_, fun u item hu => ?_⟩
  · by_cases hut : u = t
    · subst hut
      rw [threads_goto_self] at hu
      obtain ⟨hempty, hdone⟩ := hpop hu
      refine ⟨hempty, fun htrue => ?_⟩
      have hfalse : s.queue.done = true := htrue
      rw [hdone] at hfalse
      cases hfalse
    · rw [threads_goto s t thread hut] at hu
      obtain ⟨hempty, hdone⟩ := h.not_empty u hu
      refine ⟨hempty, fun htrue => ?_⟩
      obtain ⟨v, hv⟩ := hdone htrue
      refine ⟨v, ?_⟩
      rw [threads_goto s t thread fun hvt => hset_done (hvt ▸ hv) u hu]
      exact hv
  · by_cases hut : u = t
    · subst hut
      rw [threads_goto_self] at hu
      exact hpush item hu
    · rw [threads_goto s t thread hut] at hu
      exact h.not_full u item hu

theorem Waiting.push (h : Waiting max_size s) (ht : s.threads t ≠ .in_set_done) (item : α) :
    Waiting max_size (s.push max_size t item).2 := by
  unfold State.push ThreadSafeQueue.push
  split
  · next hpush =>
    split at hpush
    · next hfull => exact h.goto (fun heq => absurd heq ht) nofun fun _ _ => hfull
    · cases hpush
  · next q hpush =>
    split at hpush
    · cases hpush
    · next hroom =>
      cases hpush
      have hle : (s.queue.object_queue ++ [item]).length ≤ max_size := by
        have := h.length_le
        rw [length_append, length_singleton]
        omega
      refine Waiting.goto (waiting_notify_not_empty hle fun u item' hu => ?_) ?_ nofun nofun
      -- a thread that has to wait for room would have seen a full queue
      · exact absurd (h.not_full u item' hu) hroom
      · exact fun _ u => notify_not_empty_ne _

theorem Waiting.try_pop (h : Waiting max_size s) (ht : s.threads t ≠ .in_set_done) :
    Waiting max_size (s.try_pop t).2 := by
  unfold State.try_pop ThreadSafeQueue.try_pop
  split
  · next hpop =>
    split at hpop
    · next hempty =>
      split at hpop
      · cases hpop
      · next hdone => exact h.goto (fun heq => absurd heq ht) (fun _ => ⟨hempty, Bool.eq_false_iff.mpr hdone⟩) nofun
    · cases hpop
  · exact h.goto (fun heq => absurd heq ht) nofun nofun
  · next item q hpop =>
    split at hpop
    · split at hpop
      · cases hpop
      · cases hpop
    · next rest hqueue =>
      cases hpop
      have hle : rest.length ≤ max_size := by
        have := h.length_le
        rw [hqueue, length_cons] at this
        omega
      -- a thread that has to wait for an item would have seen an empty queue
      have hnone : ∀ u, s.threads u ≠ .in_try_pop false := by
        intro u hu
        rw [(h.not_empty u hu).1] at hqueue
        cases hqueue
      refine Waiting.goto (waiting_notify_not_full hle fun u hu => absurd hu (hnone u)) ?_ nofun nofun
      exact fun _ u hu => hnone u (notify_not_full_in_try_pop hu)

theorem Waiting.set_done (h : Waiting max_size s) (ht : s.threads t = .outside) :
    Waiting max_size (s.set_done t).2 := by
  refine ⟨h.length_le, fun u hu => ?_, fun u item hu => ?_⟩
  · refine ⟨?_, fun _ => ⟨t, update_self _ _ _⟩⟩
    by_cases hut : u = t
    · subst hut
      cases (update_self (f := s.threads) _ _).symm.trans hu
    · exact (h.not_empty u ((update_of_ne hut _ _).symm.trans hu)).1
  · by_cases hut : u = t
    · subst hut
      cases (update_self (f := s.threads) _ _).symm.trans hu
    · exact h.not_full u item ((update_of_ne hut _ _).symm.trans hu)

theorem Waiting.step (h : Waiting max_size s) (hstep : Step max_size s e s') : Waiting max_size s' := by
  cases hstep with
  | push t item ht => exact h.push (by rw [ht]; nofun) item
  | wake_push t item notified ht => exact h.push (by rw [ht]; nofun) item
  | try_pop t ht => exact h.try_pop (by rw [ht]; nofun)
  | wake_try_pop t notified ht => exact h.try_pop (by rw [ht]; nofun)
  | set_done t ht => exact h.set_done ht
  | notify_not_empty t ht =>
    refine Waiting.goto (waiting_notify_not_empty h.length_le h.not_full) ?_ nofun nofun
    exact fun _ u => notify_not_empty_ne _
  | notify_not_full t ht =>
    refine Waiting.goto (waiting_notify_not_full h.length_le h.not_empty) (fun heq => ?_) nofun nofun
    simp only [ht] at heq
    cases heq

/-- A consumer that looks at a queue that is not empty, or done, does not wait. -/
theorem try_pop_returns (h : s.queue.object_queue ≠ [] ∨ s.queue.done = true) (t : T) :
    (∃ item, (s.try_pop t).1 = .popped t item) ∨ (s.try_pop t).1 = .ended t := by
  unfold State.try_pop ThreadSafeQueue.try_pop
  split
  · next hpop =>
    split at hpop
    · next hempty =>
      split at hpop
      · cases hpop
      · next hdone => exact absurd (h.resolve_left (not_not.mpr hempty)) hdone
    · cases hpop
  · exact .inr rfl
  · next item q _ => exact .inl ⟨item, rfl⟩

/-! ## Every run -/

/-- What a run of the queue never does wrong. -/
structure Delivers (max_size : Nat) (events : List (Event T α)) (s : State T α) : Prop where
  length_le : s.queue.object_queue.length ≤ max_size
  /-- No item is lost, duplicated or overtaken. -/
  in_order : items_popped events <+: items_pushed events
  /-- `try_pop` returns `false` only after `set_done`, when all that was pushed has been popped. -/
  ended : ∀ t s', Step max_size s (.ended t) s' →
    (∃ u, .set_done u ∈ events) ∧ items_popped events = items_pushed events
  /-- While there is an item, or the queue is done, no consumer waits that has not been notified,
      or will be by `set_done`; and one that looks returns. -/
  wakes : s.queue.object_queue ≠ [] ∨ s.queue.done = true → ∀ t,
    (s.threads t = .in_try_pop false → ∃ u, s.threads u = .in_set_done) ∧
      ((∃ item, (s.try_pop t).1 = .popped t item) ∨ (s.try_pop t).1 = .ended t)

/-- After any run, of any number of threads, the queue holds at most `max_size` items, what was
    popped is a prefix of what was pushed, and a consumer that is told that there is nothing to
    come has missed nothing. -/
theorem bounded_queue_delivers {events : List (Event T α)} (h : Run (system T α max_size) {} events s) :
    Delivers max_size events s := by
  have hwaiting : Waiting max_size s :=
    h.invariant (Waiting max_size) (fun _ _ _ hs hstep => hs.step hstep) ⟨Nat.zero_le _, nofun, nofun⟩
  have hitems := items_of_run h
  rw [show ({} : State T α).queue.object_queue = [] from rfl, nil_append] at hitems
  refine ⟨hwaiting.length_le, ?_, fun t s' hstep => ?_, fun hready t => ⟨fun ht => ?_, try_pop_returns hready t⟩⟩
  · rw [hitems]
    exact prefix_append _ _
  · cases hstep.change with
    | ended _ hempty hdone =>
      refine ⟨(done_of_run h hdone).resolve_left nofun, ?_⟩
      rw [hitems, hempty, append_nil]
  · obtain ⟨hempty, hset_done⟩ := hwaiting.not_empty t ht
    exact hset_done (hready.resolve_left (not_not.mpr hempty))

/-- A consumer waits, an item is pushed, the consumer wakes up and pops it, and the producer is
    done. -/
theorem bounded_queue_delivers_one_item :
    ∃ s : State Bool Nat, Delivers 1 [.waits true, .pushed false 7, .popped true 7, .set_done false] s :=
  ⟨_, bounded_queue_delivers (.cons (.try_pop {} true rfl) (.cons (.push _ false 7 rfl)
    (.cons (.wake_try_pop _ true true rfl) (.cons (.set_done _ false rfl) (.nil _)))))⟩

/-! ## Those that sleep -/

theorem goto_outside_ne (hne : .outside ≠ thread) (h : ∀ u, s.threads u ≠ thread) (u : T) :
    (s.goto t .outside).threads u ≠ thread := by
  by_cases hut : u = t
  · rwa [hut, threads_goto_self]
  · rw [threads_goto s t _ hut]
    exact h u

/-- A consumer that finds an item pops it and wakes up all producers. -/
theorem try_pop_wakes (hitem : s.queue.object_queue ≠ []) (u : T) :
    (∃ item, (s.try_pop u).1 = .popped u item) ∧ ∀ v item, (s.try_pop u).2.threads v ≠ .in_push item false := by
  unfold State.try_pop ThreadSafeQueue.try_pop
  cases hqueue : s.queue.object_queue with
  | nil => exact absurd hqueue hitem
  | cons item rest =>
    exact ⟨⟨item, rfl⟩, fun v item' => goto_outside_ne (by simp) (fun _ => notify_not_full_ne _ item') v⟩

theorem push_wakes (hroom : s.queue.object_queue.length ≠ max_size) (u : T) (item : α) :
    (s.push max_size u item).1 = .pushed u item ∧ ∀ v, (s.push max_size u item).2.threads v ≠ .in_try_pop false := by
  unfold State.push ThreadSafeQueue.push
  rw [if_neg hroom]
  exact ⟨rfl, goto_outside_ne (by simp) fun _ => notify_not_empty_ne _⟩

/-- After any run of a queue with room for an item, producers and consumers do not sleep at once. While a producer
    has to be notified any consumer that looks pops an item and notifies it, and the other way round. -/
theorem sleepers_woken (hpos : 0 < max_size) {events : List (Event T α)}
    (h : Run (system T α max_size) {} events s) :
    (∀ t item, s.threads t = .in_push item false → ∀ u, s.threads u ≠ .in_try_pop false ∧
      (∃ item, (s.try_pop u).1 = .popped u item) ∧ ∀ v item, (s.try_pop u).2.threads v ≠ .in_push item false) ∧
    ∀ t, s.threads t = .in_try_pop false → ∀ u item, (s.push max_size u item).1 = .pushed u item ∧
      ∀ v, (s.push max_size u item).2.threads v ≠ .in_try_pop false := by
  have hwaiting : Waiting max_size s := h.invariant (Waiting max_size) (fun _ _ _ hs hstep => hs.step hstep)
    ⟨Nat.zero_le _, (fun _ h => by cases h), (fun _ _ h => by cases h)⟩
  refine ⟨fun t item ht u => ?_, fun t ht => push_wakes ?_⟩
  · have hitem : s.queue.object_queue ≠ [] := by
      intro hempty
      have hfull := hwaiting.not_full t item ht
      rw [hempty] at hfull
      exact Nat.ne_of_lt hpos hfull
    exact ⟨fun hu => hitem (hwaiting.not_empty u hu).1, try_pop_wakes hitem u⟩
  · rw [(hwaiting.not_empty t ht).1]
    exact Nat.ne_of_lt hpos

/-- A consumer waits, and an item can be pushed. -/
theorem sleepers_woken_one_consumer : ∃ s : State Bool Nat, s.threads true = .in_try_pop false ∧
    (s.push 1 false 7).1 = .pushed false 7 :=
  ⟨_, rfl, ((sleepers_woken Nat.one_pos (.cons (.try_pop {} true rfl) (.nil _))).2 true rfl false 7).1⟩

end Steps

end VW.Queue
