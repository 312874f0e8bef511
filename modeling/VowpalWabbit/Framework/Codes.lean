import VowpalWabbit.Framework.Outcome

/-! # Functions that return a code

    A function that changes a state and returns either a value or the code of an error. What
    it has changed stays when it returns a code.

    `Alike x y P Q F` compares two such functions: started in states that are related by `P`
    they end in the same way, with the same value in states related by `Q`, with the same
    code in states related by `F`, or both without defined behaviour.
-/

namespace Cpp

/-- A function that changes an `S` and returns an `A` or a code. -/
def Coded (S A : Type) : Type := S → Outcome (Except Int A × S)

namespace Coded

variable {S A B : Type}

def bind (x : Coded S A) (f : A → Coded S B) : Coded S B := fun s =>
  match x s with
  | .ok (.ok a, s) => f a s
  | .ok (.error code, s) => .ok (.error code, s)
  | .error e => .error e

instance : Monad (Coded S) where
  pure a := fun s => .ok (.ok a, s)
  bind := bind

/-- A part of the state. -/
def reads (f : S → A) : Coded S A := fun s => .ok (.ok (f s), s)

/-- A change of the state. -/
def modify (f : S → S) : Coded S Unit := fun s => .ok (.ok (), f s)

/-- `return code`. -/
def fail (code : Int) : Coded S A := fun s => .ok (.error code, s)

/-- The behaviour is not defined. -/
def undefined : Coded S A := fun _ => Outcome.undefined

/-- A computation that does not change the state. -/
def lift (x : Outcome A) : Coded S A := fun s =>
  match x with
  | .ok a => .ok (.ok a, s)
  | .error e => .error e

/-- A value that may be missing: that of a variable that was given none, or the result of a loop
    that did not end within its bound. -/
def present : Option A → Coded S A
  | some a => pure a
  | none => undefined

/-- `for (auto x : xs)`, with a value for each of them. -/
def for_each {X : Type} (body : X → Coded S A) : List X → Coded S (List A)
  | [] => pure []
  | x :: xs => do
    let a ← body x
    let rest ← for_each body xs
    pure (a :: rest)

theorem bind_run (x : Coded S A) (f : A → Coded S B) (s : S) :
    (x >>= f) s = match x s with
      | .ok (.ok a, s) => f a s
      | .ok (.error code, s) => .ok (.error code, s)
      | .error e => .error e := rfl

/-! ## Two runs -/

/-- Two endings of one kind. -/
inductive AlikeEnds (Q : A → S → S → Prop) (F : S → S → Prop) :
    Outcome (Except Int A × S) → Outcome (Except Int A × S) → Prop where
  | returned {a : A} {s t : S} (h : Q a s t) : AlikeEnds Q F (.ok (.ok a, s)) (.ok (.ok a, t))
  | failed {code : Int} {s t : S} (h : F s t) : AlikeEnds Q F (.ok (.error code, s)) (.ok (.error code, t))
  | stopped {e : Failure} : AlikeEnds Q F (.error e) (.error e)

/-- The two functions end in the same way when they start in related states. -/
def Alike (x y : Coded S A) (P : S → S → Prop) (Q : A → S → S → Prop) (F : S → S → Prop) : Prop :=
  ∀ s t, P s t → AlikeEnds Q F (x s) (y t)

variable {P P' : S → S → Prop} {Q Q' : A → S → S → Prop} {R : B → S → S → Prop} {F F' : S → S → Prop}

namespace Alike

theorem pure {a : A} (h : ∀ s t, P s t → Q a s t) : Alike (Pure.pure a) (Pure.pure a) P Q F :=
  fun s t hst => .returned (h s t hst)

theorem reads {f : S → A} (hf : ∀ s t, P s t → f s = f t) (h : ∀ s t, P s t → Q (f s) s t) :
    Alike (reads f) (reads f) P Q F := by
  intro s t hst
  unfold Coded.reads
  rw [← hf s t hst]
  exact .returned (h s t hst)

/-- Reading, in a relation that goes on to hold. -/
theorem reads_kept {f : S → A} (hf : ∀ s t, P s t → f s = f t) :
    Alike (Coded.reads f) (Coded.reads f) P (fun _ => P) F :=
  reads hf fun _ _ h => h

theorem modify {f g : S → S} {Q : S → S → Prop} (h : ∀ s t, P s t → Q (f s) (g t)) :
    Alike (modify f) (modify g) P (fun _ => Q) F :=
  fun s t hst => .returned (h s t hst)

theorem fail (code : Int) (h : ∀ s t, P s t → F s t) : Alike (fail code : Coded S A) (fail code) P Q F :=
  fun s t hst => .failed (h s t hst)

theorem undefined : Alike (undefined : Coded S A) undefined P Q F := fun _ _ _ => .stopped

theorem lift (x : Outcome A) (h : ∀ a s t, x = .ok a → P s t → Q a s t) : Alike (lift x) (lift x) P Q F := by
  intro s t hst
  rcases x with e | a
  · exact .stopped
  · exact .returned (h a s t rfl hst)

variable {x y : Coded S A}

theorem bind {f g : A → Coded S B} (hx : Alike x y P Q F) (hf : ∀ a, Alike (f a) (g a) (Q a) R F) :
    Alike (x >>= f) (y >>= g) P R F := by
  intro s t hst
  rw [bind_run, bind_run]
  have hends := hx s t hst
  generalize x s = first at hends ⊢
  generalize y t = second at hends ⊢
  cases hends with
  | returned h => exact hf _ _ _ h
  | failed h => exact .failed h
  | stopped => exact .stopped

theorem mono (hx : Alike x y P Q F) (hP : ∀ s t, P' s t → P s t)
    (hQ : ∀ a s t, Q a s t → Q' a s t) (hF : ∀ s t, F s t → F' s t) : Alike x y P' Q' F' := by
  intro s t hst
  have hends := hx s t (hP s t hst)
  generalize x s = first at hends ⊢
  generalize y t = second at hends ⊢
  cases hends with
  | returned h => exact .returned (hQ _ _ _ h)
  | failed h => exact .failed (hF _ _ h)
  | stopped => exact .stopped

/-- What was read of both states is the same, and it is there in both or in none. -/
theorem present (o : Option A) (h : ∀ a s t, o = some a → P s t → Q a s t) :
    Alike (present o) (present o) P Q F := by
  cases o with
  | none => exact undefined
  | some a => exact pure fun s t hst => h a s t rfl hst

theorem present_kept (o : Option A) : Alike (Coded.present o) (Coded.present o) P (fun _ => P) F :=
  present o fun _ _ _ _ h => h

theorem ite {p : Prop} [Decidable p] {x' y' : Coded S A} (hthen : p → Alike x y P Q F)
    (helse : ¬ p → Alike x' y' P Q F) :
    Alike (if p then x else x') (if p then y else y') P Q F := by
  split
  · next h => exact hthen h
  · next h => exact helse h

/-- A fact that the relation gives. -/
theorem of_fact {p : Prop} (hp : ∀ s t, P s t → p) (h : p → Alike x y P Q F) :
    Alike x y P Q F := fun s t hst => h (hp s t hst) s t hst

/-- A loop whose body keeps a relation. -/
theorem for_each {X : Type} {body body' : X → Coded S A} (h : ∀ x, Alike (body x) (body' x) P (fun _ => P) F)
    (xs : List X) : Alike (for_each body xs) (for_each body' xs) P (fun _ => P) F := by
  induction xs with
  | nil => exact pure fun _ _ hst => hst
  | cons x xs ih =>
    refine (h x).bind fun a => ?_
    refine ih.bind fun rest => ?_
    exact pure fun _ _ hst => hst

end Alike

end Coded

end Cpp
