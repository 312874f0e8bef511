import Mathlib.Logic.Basic

/-! # Outcomes of C++ computations

    A call either returns, throws an exception carrying its text, or leaves
    the defined behaviour of the language (a read outside every allocation, a
    shift by the width of the type or more). The third case is a value of its
    own here, so that a theorem can say that it does not happen.

    The judgements about a call come with their rules for sequencing:
    `Returns x Q`, it returns and the result satisfies `Q`; `Safe x Q`, it
    throws or returns a result that satisfies `Q`; `Ends E x Q`, the same, and
    it throws only if `E`; `Throws x`, it throws; `Within x y`, where `x`
    returns `y` returns the same.
-/

namespace Cpp

/-- Why a call did not return. -/
inductive Failure where
  /-- `throw`, with the text of the exception. -/
  | exception (what : String)
  /-- The call left the defined behaviour of the language. -/
  | undefined_behaviour
  deriving DecidableEq, Repr

/-- The outcome of a call that returns an `α`. -/
abbrev Outcome (α : Type) : Type := Except Failure α

namespace Outcome

variable {α β : Type}

def throw_ (what : String) : Outcome α := .error (.exception what)

/-- The call has no defined behaviour. -/
def undefined : Outcome α := .error .undefined_behaviour

@[simp] theorem ok_bind (a : α) (f : α → Outcome β) :
    ((Except.ok a : Outcome α) >>= f) = f a := rfl

@[simp] theorem error_bind (e : Failure) (f : α → Outcome β) :
    ((Except.error e : Outcome α) >>= f) = .error e := rfl

@[simp] theorem throw_bind (what : String) (f : α → Outcome β) :
    ((throw_ what : Outcome α) >>= f) = throw_ what := rfl

@[simp] theorem undefined_bind (f : α → Outcome β) :
    ((undefined : Outcome α) >>= f) = undefined := rfl

@[simp] theorem pure_eq (a : α) : (pure a : Outcome α) = .ok a := rfl

/-- A sequence returns exactly when both of its parts do. -/
theorem bind_eq_ok {x : Outcome α} {f : α → Outcome β} {r : β} :
    (x >>= f) = .ok r ↔ ∃ a, x = .ok a ∧ f a = .ok r := by
  cases x with
  | error e => simp
  | ok a => simp

/-! ## Judgements -/

/-- The call returns, and `Q` holds of what it returns. -/
def Returns (x : Outcome α) (Q : α → Prop) : Prop := ∃ a, x = .ok a ∧ Q a

/-- The call throws, or returns something of which `Q` holds. -/
def Safe (x : Outcome α) (Q : α → Prop) : Prop :=
  match x with
  | .ok a => Q a
  | .error (.exception _) => True
  | .error .undefined_behaviour => False

variable {x : Outcome α} {f : α → Outcome β} {Q : α → Prop} {R : β → Prop}

variable {a : α}

theorem Returns.ok (h : Q a) : Returns (.ok a) Q := ⟨a, rfl, h⟩

theorem Returns.bind (hx : Returns x Q) (hf : ∀ a, Q a → Returns (f a) R) :
    Returns (x >>= f) R := by
  obtain ⟨a, rfl, ha⟩ := hx
  exact hf a ha

variable {Q' : α → Prop}

theorem Returns.mono (hx : Returns x Q) (h : ∀ a, Q a → Q' a) : Returns x Q' := by
  obtain ⟨a, rfl, ha⟩ := hx
  exact ⟨a, rfl, h a ha⟩

theorem Safe.ok (h : Q a) : Safe (.ok a) Q := h

theorem Safe.mono (hx : Safe x Q) (h : ∀ a, Q a → Q' a) : Safe x Q' := by
  rcases x with (what | _) | a
  · trivial
  · exact hx
  · exact h a hx

theorem Safe.throw_ (what : String) : Safe (throw_ what : Outcome α) Q := trivial

theorem Safe.bind (hx : Safe x Q) (hf : ∀ a, Q a → Safe (f a) R) : Safe (x >>= f) R := by
  rcases x with (what | _) | a
  · trivial
  · exact hx
  · exact hf a hx

/-- What a safe call returns is what it returned. -/
theorem Safe.self (hx : Safe x Q) : Safe x fun a => x = .ok a := by
  rcases x with (what | _) | a
  · trivial
  · exact hx
  · rfl

/-- What a safe call returns satisfies its postcondition. -/
theorem Safe.of_ok (hx : Safe x Q) (h : x = .ok a) : Q a := by
  rw [h] at hx
  exact hx

/-- The call throws no exception. -/
def NoThrow (x : Outcome α) : Prop := ∀ what, x ≠ throw_ what

theorem NoThrow.ok (a : α) : NoThrow (.ok a) := by
  intro what h
  cases h

theorem NoThrow.undefined : NoThrow (undefined : Outcome α) := by
  intro what h
  cases h

theorem NoThrow.bind (hx : NoThrow x) (hf : ∀ a, NoThrow (f a)) : NoThrow (x >>= f) := by
  rcases x with (what | _) | a
  · exact absurd rfl (hx what)
  · exact NoThrow.undefined
  · exact hf a

theorem NoThrow.mapM (h : ∀ a, NoThrow (f a)) (xs : List α) : NoThrow (xs.mapM f) := by
  induction xs with
  | nil => exact NoThrow.ok []
  | cons x xs ih =>
    rw [List.mapM_cons]
    exact (h x).bind fun y => ih.bind fun ys => NoThrow.ok _

/-- A safe call that does not throw returns. -/
theorem Safe.returns (hx : Safe x Q) (h : NoThrow x) : Returns x Q := by
  rcases x with (what | _) | a
  · exact absurd rfl (h what)
  · exact absurd hx id
  · exact ⟨a, rfl, hx⟩

/-- The call returns something of which `Q` holds, or it throws and `E` holds. -/
def Ends (E : Prop) (x : Outcome α) (Q : α → Prop) : Prop :=
  match x with
  | .ok a => Q a
  | .error (.exception _) => E
  | .error .undefined_behaviour => False

/-- The call throws an exception. -/
def Throws (x : Outcome α) : Prop := ∃ what, x = throw_ what

variable {E : Prop}

theorem Ends.ok (h : Q a) : Ends E (.ok a) Q := h

theorem Ends.bind (hx : Ends E x Q) (hf : ∀ a, Q a → Ends E (f a) R) : Ends E (x >>= f) R := by
  rcases x with (what | _) | a
  · exact hx
  · exact hx
  · exact hf a hx

theorem Ends.mono {E' : Prop} (hx : Ends E x Q) (hE : E → E') (hQ : ∀ a, Q a → Q' a) :
    Ends E' x Q' := by
  rcases x with (what | _) | a
  · exact hE hx
  · exact hx
  · exact hQ a hx

theorem Ends.returns (hx : Ends E x Q) (hE : ¬ E) : Returns x Q := by
  rcases x with (what | _) | a
  · exact absurd hx hE
  · exact absurd hx id
  · exact ⟨a, rfl, hx⟩

theorem Throws.bind (hx : Throws x) (f : α → Outcome β) : Throws (x >>= f) := by
  obtain ⟨what, rfl⟩ := hx
  exact ⟨what, rfl⟩

/-- However the first call ends, the sequence throws. -/
theorem Ends.bind_throws (hx : Ends E x Q) (hf : ∀ a, Q a → Throws (f a)) : Throws (x >>= f) := by
  rcases x with (what | _) | a
  · exact ⟨what, rfl⟩
  · exact absurd hx id
  · exact hf a hx

/-- Where the first call returns, the second returns the same. -/
def Within (x y : Outcome α) : Prop := ∀ a, x = .ok a → y = .ok a

theorem Within.refl (x : Outcome α) : Within x x := fun _ h => h

theorem Within.bind {y : Outcome α} {g : α → Outcome β} (hx : Within x y)
    (hf : ∀ a, Within (f a) (g a)) : Within (x >>= f) (y >>= g) := by
  intro b h
  obtain ⟨a, ha, hb⟩ := bind_eq_ok.mp h
  rw [hx a ha, ok_bind]
  exact hf a b hb

end Outcome

end Cpp
