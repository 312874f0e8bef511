import Mathlib.Data.List.Basic

/-! # Runs whose fuel lasts

    A run that is given fuel settles when enough of it always leads to the same result. Such runs
    compose, and a loop of them keeps an invariant that is indexed by the part that is done.
-/

namespace Cpp

/-- With enough fuel the run returns, always the same, which has the property. -/
def Settles {A : Type} (run : Nat → Option A) (P : A → Prop) : Prop :=
  ∃ a, P a ∧ ∃ m, ∀ fuel ≥ m, run fuel = some a

namespace Settles

variable {A B T : Type} {run : Nat → Option A} {P : A → Prop} {Q : B → Prop}

theorem of_some {a : A} (h : P a) : Settles (fun _ => some a) P := ⟨a, h, 0, fun _ _ => rfl⟩

theorem bind {next : Nat → A → Option B} (h : Settles run P)
    (hnext : ∀ a, P a → Settles (fun fuel => next fuel a) Q) :
    Settles (fun fuel => run fuel >>= next fuel) Q := by
  obtain ⟨a, ha, m, hrun⟩ := h
  obtain ⟨b, hb, m', hnext⟩ := hnext a ha
  refine ⟨b, hb, max m m', fun fuel hfuel => ?_⟩
  beta_reduce
  rw [hrun fuel (Nat.le_trans (Nat.le_max_left m m') hfuel)]
  exact hnext fuel (Nat.le_trans (Nat.le_max_right m m') hfuel)

theorem congr {run' : Nat → Option A} (h : Settles run P) (hrun : ∀ fuel, run' fuel = run fuel) :
    Settles run' P := by
  rwa [funext hrun]

/-- The run has one result. -/
theorem and {P' : A → Prop} (h : Settles run P) (h' : Settles run P') : Settles run fun a => P a ∧ P' a := by
  obtain ⟨a, ha, m, hrun⟩ := h
  obtain ⟨a', ha', m', hrun'⟩ := h'
  have heq := (hrun _ (Nat.le_max_left m m')).symm.trans (hrun' _ (Nat.le_max_right m m'))
  cases heq
  exact ⟨a, ⟨ha, ha'⟩, m, hrun⟩

/-- A loop, with what holds when some of the elements are done. -/
theorem foldlM {step : Nat → A → T → Option A} {l : List T} (I : List T → A → Prop) {a : A} (h : I [] a)
    (hstep : ∀ done x rest, l = done ++ x :: rest → ∀ a, I done a →
      Settles (fun fuel => step fuel a x) (I (done ++ [x]))) :
    Settles (fun fuel => l.foldlM (step fuel) a) (I l) := by
  have hrest : ∀ (rest done : List T) (a : A), l = done ++ rest → I done a →
      Settles (fun fuel => rest.foldlM (step fuel) a) (I l) := by
    intro rest
    induction rest with
    | nil =>
      intro done a hl ha
      rw [List.append_nil] at hl
      subst hl
      exact of_some ha
    | cons x rest ih =>
      intro done a hl ha
      refine bind (hstep done x rest hl a ha) fun b hb => ih (done ++ [x]) b ?_ hb
      rw [hl, List.append_assoc]
      rfl
  exact hrest l [] a rfl h

end Settles

end Cpp
