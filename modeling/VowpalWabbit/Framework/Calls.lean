import VowpalWabbit.Framework.Outcome

/-! # Calls that change a state

    A call that throws has changed the state up to where it threw, and whoever catches the
    exception sees that state. A guard (`scope_exit`) runs its cleanup in both cases.

    `Leaves x P Q` says of a call that starts in a state with `P` that, whether it returns
    or throws, it leaves a state with `Q`. Nothing is said where the behaviour of the call
    is not defined. `Finishes x P Q T` says that it returns with `Q` or throws in a state
    with `T`, and `Quiet x P Q` that it does not throw, and returns with `Q` if it returns.
-/

namespace Cpp

open List

/-- How a call that changes an `S` and returns an `A` ends. -/
inductive Ending (S A : Type) where
  | returned (a : A) (s : S)
  | threw (what : String) (s : S)
  | undefined

/-- A call that changes an `S` and returns an `A`. -/
def Call (S A : Type) : Type := S → Ending S A

namespace Call

variable {S A B : Type}

def bind (x : Call S A) (f : A → Call S B) : Call S B := fun s =>
  match x s with
  | .returned a s => f a s
  | .threw what s => .threw what s
  | .undefined => .undefined

instance : Monad (Call S) where
  pure a := fun s => .returned a s
  bind := bind

def get : Call S S := fun s => .returned s s

/-- A change of the state. -/
def modify (f : S → S) : Call S Unit := fun s => .returned () (f s)

def throw_ (what : String) : Call S A := fun s => .threw what s

def undefined : Call S A := fun _ => .undefined

/-- A computation that does not change the state. -/
def lift (x : Outcome A) : Call S A := fun s =>
  match x with
  | .ok a => .returned a s
  | .error (.exception what) => .threw what s
  | .error .undefined_behaviour => .undefined

/-- `VW::scope_exit`, for the rest of the scope. -/
def scope_exit (cleanup : S → S) (x : Call S A) : Call S A := fun s =>
  match x s with
  | .returned a s => .returned a (cleanup s)
  | .threw what s => .threw what (cleanup s)
  | .undefined => .undefined

/-- `for (auto x : xs)`. -/
def for_each {X : Type} (body : X → Call S Unit) : List X → Call S Unit
  | [] => pure ()
  | x :: xs => do
    body x
    for_each body xs

theorem bind_run (x : Call S A) (f : A → Call S B) (s : S) :
    (x >>= f) s = match x s with
      | .returned a s => f a s
      | .threw what s => .threw what s
      | .undefined => .undefined := rfl

@[simp] theorem get_bind_run (f : S → Call S B) (s : S) : (get >>= f) s = f s s := rfl

@[simp] theorem modify_bind_run (g : S → S) (f : Unit → Call S B) (s : S) : (modify g >>= f) s = f () (g s) := rfl

theorem map_run (f : A → B) (x : Call S A) (s : S) :
    (f <$> x) s = (x >>= fun a => pure (f a)) s := rfl

instance : LawfulMonad (Call S) := LawfulMonad.mk' (Call S)
  (by
    intro A x
    funext s
    rw [map_run, bind_run]
    cases x s <;> rfl)
  (fun _ _ => rfl)
  (by
    intro A B C x f g
    funext s
    rw [bind_run, bind_run, bind_run]
    cases x s <;> rfl)

variable {x : Call S A} {f : A → Call S B} {s s' : S} {cleanup : S → S} {X : Type} {a : A} {n : Nat}

/-- A sequence returns exactly when both of its parts do. -/
theorem bind_eq_returned {b : B} :
    (x >>= f) s = .returned b s' ↔ ∃ a s₁, x s = .returned a s₁ ∧ f a s₁ = .returned b s' := by
  rw [bind_run]
  cases x s with
  | returned a s₁ =>
    constructor
    · intro h
      exact ⟨a, s₁, rfl, h⟩
    · rintro ⟨a', s₁', hx, h⟩
      cases hx
      exact h
  | threw what s₁ => simp
  | undefined => simp

/-! ## What calls leave behind -/

/-- What is said of the state in which a call ends, by returning or by throwing. -/
def Leaves (x : Call S A) (P Q : S → Prop) : Prop :=
  ∀ s, P s → match x s with
    | .returned _ s' => Q s'
    | .threw _ s' => Q s'
    | .undefined => True

variable {P Q R : S → Prop}

theorem Leaves.pure (a : A) (h : ∀ s, P s → Q s) : Leaves (Pure.pure a : Call S A) P Q :=
  fun s hs => h s hs

theorem Leaves.throw_ (what : String) (h : ∀ s, P s → Q s) :
    Leaves (throw_ what : Call S A) P Q := fun s hs => h s hs

theorem Leaves.undefined : Leaves (undefined : Call S A) P Q := fun _ _ => trivial

theorem Leaves.modify {f : S → S} (h : ∀ s, P s → Q (f s)) : Leaves (modify f) P Q :=
  fun s hs => h s hs

theorem Leaves.get (h : ∀ s, P s → Q s) : Leaves get P Q := fun s hs => h s hs

theorem Leaves.lift (x : Outcome A) (h : ∀ s, P s → Q s) : Leaves (lift x) P Q := by
  intro s hs
  rcases x with (what | _) | a
  · exact h s hs
  · trivial
  · exact h s hs

/-- What every part keeps, the sequence keeps. -/
theorem Leaves.bind (hx : Leaves x P Q)
    (hf : ∀ a, Leaves (f a) Q Q) : Leaves (x >>= f) P Q := by
  intro s hs
  have h := hx s hs
  rw [bind_run]
  cases hrun : x s with
  | returned a s₁ =>
    rw [hrun] at h
    exact hf a s₁ h
  | threw what s₁ =>
    rw [hrun] at h
    exact h
  | undefined => trivial

/-- A guard makes its postcondition of whatever the guarded part leaves. -/
theorem Leaves.scope_exit (hx : Leaves x P Q)
    (h : ∀ s, Q s → R (cleanup s)) : Leaves (scope_exit cleanup x) P R := by
  intro s hs
  have hq := hx s hs
  unfold Call.scope_exit
  cases hrun : x s with
  | returned a s₁ =>
    rw [hrun] at hq
    exact h s₁ hq
  | threw what s₁ =>
    rw [hrun] at hq
    exact h s₁ hq
  | undefined => trivial

theorem Leaves.for_each {body : X → Call S Unit} (h : ∀ x, Leaves (body x) Q Q)
    (xs : List X) : Leaves (for_each body xs) Q Q := by
  induction xs with
  | nil => exact Leaves.pure () fun _ hs => hs
  | cons x xs ih => exact (h x).bind fun _ => ih

variable {body : A → X → Call S A} {xs : List X}

theorem Leaves.foldlM (h : ∀ x ∈ xs, ∀ a, Leaves (body a x) Q Q) (a : A) :
    Leaves (xs.foldlM body a) Q Q := by
  induction xs generalizing a with
  | nil => exact Leaves.pure a fun _ hs => hs
  | cons x xs ih =>
    rw [foldlM_cons]
    rw [forall_mem_cons] at h
    exact (h.1 a).bind fun a => ih h.2 a

/-- What a call leaves when it returns. -/
theorem Leaves.of_returned (h : Leaves x P Q) (hs : P s)
    (hrun : x s = .returned a s') : Q s' := by
  have hend := h s hs
  rw [hrun] at hend
  exact hend

/-! ## How calls end -/

/-- What is said of the ending of a call that returns or throws. -/
def Ending.Is (e : Ending S A) (Q : A → S → Prop) (T : S → Prop) : Prop :=
  match e with
  | .returned a s => Q a s
  | .threw _ s => T s
  | .undefined => False

/-- The call returns with `Q` or throws in a state with `T`. -/
def Finishes (x : Call S A) (P : S → Prop) (Q : A → S → Prop) (T : S → Prop) : Prop :=
  ∀ s, P s → Ending.Is (x s) Q T

variable {F G' : A → S → Prop} {G : B → S → Prop} {T : S → Prop}

theorem Finishes.pure (h : ∀ s, P s → F a s) : Finishes (Pure.pure a : Call S A) P F T :=
  fun s hs => h s hs

theorem Finishes.throw_ (what : String) (h : ∀ s, P s → T s) : Finishes (throw_ what : Call S A) P F T :=
  fun s hs => h s hs

theorem Finishes.modify {f : S → S} (h : ∀ s, P s → Q (f s)) : Finishes (modify f) P (fun _ => Q) T :=
  fun s hs => h s hs

theorem Finishes.get : Finishes get P (fun a s => a = s ∧ P s) T := fun _ hs => ⟨rfl, hs⟩

theorem Finishes.bind (hx : Finishes x P F T)
    (hf : ∀ a, Finishes (f a) (F a) G T) : Finishes (x >>= f) P G T := by
  intro s hs
  have h := hx s hs
  rw [bind_run]
  cases hrun : x s with
  | returned a s₁ =>
    rw [hrun] at h
    exact hf a s₁ h
  | threw what s₁ =>
    rw [hrun] at h
    exact h
  | undefined =>
    rw [hrun] at h
    exact h.elim

variable {F' : A → S → Prop}

theorem Finishes.mono {P' T' : S → Prop} (hx : Finishes x P F T) (hP : ∀ s, P' s → P s)
    (hF : ∀ a s, F a s → F' a s) (hT : ∀ s, T s → T' s) : Finishes x P' F' T' := by
  intro s hs
  have h := hx s (hP s hs)
  cases hrun : x s with
  | returned a s₁ =>
    rw [hrun] at h
    exact hF a s₁ h
  | threw what s₁ =>
    rw [hrun] at h
    exact hT s₁ h
  | undefined =>
    rw [hrun] at h
    exact h.elim

/-- What every round keeps, the loop keeps. -/
theorem Finishes.for_each {body : X → Call S Unit}
    (h : ∀ x ∈ xs, Finishes (body x) Q (fun _ => Q) T) :
    Finishes (for_each body xs) Q (fun _ => Q) T := by
  induction xs with
  | nil => exact Finishes.pure fun _ hs => hs
  | cons x xs ih =>
    rw [forall_mem_cons] at h
    exact h.1.bind fun _ => ih h.2

/-- The states between the rounds of a loop over the numbers below `n`. -/
theorem Finishes.for_range {body : Nat → Call S Unit} {I : Nat → S → Prop}
    (h : ∀ i < n, Finishes (body i) (I i) (fun _ => I (i + 1)) T) :
    Finishes (Call.for_each body (List.range n)) (I 0) (fun _ => I n) T := by
  -- the loop over the last `k` numbers
  have hlast : ∀ k ≤ n, Finishes (Call.for_each body ((List.range n).drop (n - k))) (I (n - k))
    (fun _ => I n) T := by
    intro k
    induction k with
    | zero =>
      intro _
      rw [Nat.sub_zero, drop_eq_nil_of_le (Nat.le_of_eq length_range)]
      exact Finishes.pure fun _ hs => hs
    | succ k ih =>
      intro hk
      have hlt : n - (k + 1) < (List.range n).length := by
        rw [length_range]
        omega
      rw [drop_eq_getElem_cons hlt, getElem_range, show n - (k + 1) + 1 = n - k by omega]
      refine (h (n - (k + 1)) (by omega)).bind fun _ => ?_
      rw [show n - (k + 1) + 1 = n - k by omega]
      exact ih (by omega)
  have hall := hlast n (Nat.le_refl n)
  rwa [Nat.sub_self, drop_zero] at hall

/-- A loop over a list that changes a value, by an invariant of the value and the state. -/
theorem Finishes.foldlM (h : ∀ x ∈ xs, ∀ a, Finishes (body a x) (F a) F T) (a : A) :
    Finishes (xs.foldlM body a) (F a) F T := by
  induction xs generalizing a with
  | nil => exact Finishes.pure fun _ hs => hs
  | cons x xs ih =>
    rw [foldlM_cons]
    rw [forall_mem_cons] at h
    exact (h.1 a).bind fun a => ih h.2 a

variable {I : Nat → A → S → Prop}

/-- The same over the numbers from `m` on, with the number in the invariant. -/
theorem Finishes.foldlM_range' {body : A → Nat → Call S A} {m : Nat}
    (h : ∀ i, m ≤ i → i < m + n → ∀ a, Finishes (body a i) (I i a) (I (i + 1)) T) (a : A) :
    Finishes ((range' m n).foldlM body a) (I m a) (I (m + n)) T := by
  induction n generalizing m a with
  | zero => exact Finishes.pure fun _ hs => hs
  | succ n ih =>
    rw [range'_succ, foldlM_cons]
    refine (h m (Nat.le_refl m) (by omega) a).bind fun a => ?_
    rw [show m + (n + 1) = m + 1 + n by omega]
    exact ih (fun i hm hi => h i (by omega) (by omega)) a

theorem Finishes.foldlM_range {body : A → Nat → Call S A}
    (h : ∀ i < n, ∀ a, Finishes (body a i) (I i a) (I (i + 1)) T) (a : A) :
    Finishes ((List.range n).foldlM body a) (I 0 a) (I n) T := by
  have hrange := Finishes.foldlM_range' (m := 0) (n := n) (I := I) (fun i _ hi => h i (by omega)) a
  rwa [← range_eq_range', Nat.zero_add] at hrange

/-- A call that cannot end otherwise returns. -/
theorem Finishes.returns (h : Finishes x P F fun _ => False) (hs : P s) :
    ∃ a s', x s = .returned a s' ∧ F a s' := by
  have hend := h s hs
  cases hrun : x s with
  | returned a s' =>
    rw [hrun] at hend
    exact ⟨a, s', rfl, hend⟩
  | threw what s' =>
    rw [hrun] at hend
    exact hend.elim
  | undefined =>
    rw [hrun] at hend
    exact hend.elim

/-! ## Calls that do not throw -/

/-- The call does not throw, and what it returns satisfies `Q`. -/
def Quiet (x : Call S A) (P : S → Prop) (Q : A → S → Prop) : Prop :=
  ∀ s, P s → match x s with
    | .returned a s' => Q a s'
    | .threw _ _ => False
    | .undefined => True

theorem Quiet.pure (h : ∀ s, P s → F a s) : Quiet (Pure.pure a : Call S A) P F := fun s hs => h s hs

theorem Quiet.modify {f : S → S} (h : ∀ s, P s → Q (f s)) : Quiet (modify f) P fun _ => Q := fun s hs => h s hs

theorem Quiet.undefined : Quiet (undefined : Call S A) P F := fun _ _ => trivial

theorem Quiet.bind (hx : Quiet x P F) (hf : ∀ a, Quiet (f a) (F a) G) :
    Quiet (x >>= f) P G := by
  intro s hs
  have h := hx s hs
  rw [bind_run]
  cases hrun : x s with
  | returned a s₁ =>
    rw [hrun] at h
    exact hf a s₁ h
  | threw what s₁ =>
    rw [hrun] at h
    exact h.elim
  | undefined => trivial

theorem Quiet.for_each {body : X → Call S Unit} (h : ∀ x, Quiet (body x) Q fun _ => Q) (xs : List X) :
    Quiet (for_each body xs) Q fun _ => Q := by
  induction xs with
  | nil => exact Quiet.pure fun _ hs => hs
  | cons x xs ih => exact (h x).bind fun _ => ih

theorem Quiet.foldlM (h : ∀ x ∈ xs, ∀ a, Quiet (body a x) Q fun _ => Q) (a : A) :
    Quiet (xs.foldlM body a) Q fun _ => Q := by
  induction xs generalizing a with
  | nil => exact Quiet.pure fun _ hs => hs
  | cons x xs ih =>
    rw [foldlM_cons]
    rw [forall_mem_cons] at h
    exact (h.1 a).bind fun a => ih h.2 a

/-- What holds when the call returns. -/
theorem Quiet.of_returned (h : Quiet x P F) (hs : P s)
    (hrun : x s = .returned a s') : F a s' := by
  have hend := h s hs
  rw [hrun] at hend
  exact hend

theorem Quiet.mono {P' : S → Prop} (hx : Quiet x P F) (hP : ∀ s, P' s → P s)
    (hF : ∀ a s, F a s → F' a s) : Quiet x P' F' := by
  intro s hs
  have h := hx s (hP s hs)
  cases hrun : x s with
  | returned a s₁ =>
    rw [hrun] at h
    exact hF a s₁ h
  | threw what s₁ =>
    rw [hrun] at h
    exact h.elim
  | undefined => trivial

theorem Quiet.scope_exit (hx : Quiet x P F)
    (h : ∀ a s, F a s → G' a (cleanup s)) : Quiet (scope_exit cleanup x) P G' := by
  intro s hs
  have hq := hx s hs
  unfold Call.scope_exit
  cases hrun : x s with
  | returned a s₁ =>
    rw [hrun] at hq
    exact h a s₁ hq
  | threw what s₁ =>
    rw [hrun] at hq
    exact hq.elim
  | undefined => trivial

/-- The guarded part returns. -/
theorem Finishes.scope_exit {T' : S → Prop} (hx : Finishes x P F T)
    (h : ∀ a s, F a s → G' a (cleanup s)) (hT : ∀ s, T s → T' (cleanup s)) :
    Finishes (scope_exit cleanup x) P G' T' := by
  intro s hs
  have hq := hx s hs
  unfold Call.scope_exit
  cases hrun : x s with
  | returned a s₁ =>
    rw [hrun] at hq
    exact h a s₁ hq
  | threw what s₁ =>
    rw [hrun] at hq
    exact hT s₁ hq
  | undefined =>
    rw [hrun] at hq
    exact hq.elim

end Call

end Cpp
