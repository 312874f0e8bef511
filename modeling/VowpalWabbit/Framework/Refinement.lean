import Mathlib.Data.List.Basic

/-! # Labelled systems, runs and refinement

    A component is a labelled transition system: a label is a call together
    with its result. `Run` is a finite execution. Two rules are used
    throughout: an invariant that every step keeps holds along every run, and
    a map that turns every step of one system into a step of another turns
    runs into runs with the same labels.
-/

namespace Refinement

universe u v w

/-- A labelled transition system. -/
structure System (State : Type u) (Label : Type v) where
  step : State → Label → State → Prop

variable {State : Type u} {Abstract : Type w} {Label : Type v}

/-- The finite runs of a system, with their labels in order. -/
inductive Run (sys : System State Label) : State → List Label → State → Prop where
  | nil (s : State) : Run sys s [] s
  | cons {s s' s'' : State} {l : Label} {ls : List Label} :
      sys.step s l s' → Run sys s' ls s'' → Run sys s (l :: ls) s''

variable {sys : System State Label} {ls : List Label}

/-- A property that every step keeps holds at the end of every run. -/
theorem Run.invariant (inv : State → Prop) (hstep : ∀ s l s', inv s → sys.step s l s' → inv s')
    {s s' : State} (h : Run sys s ls s') (hs : inv s) : inv s' := by
  induction h with
  | nil s => exact hs
  | cons hl _ ih => exact ih (hstep _ _ _ hs hl)

/-- A map that turns steps into steps, where the invariant holds, turns runs
    into runs with the same labels. -/
theorem Run.refines {spec : System Abstract Label} (inv : State → Prop) (f : State → Abstract)
    (hinv : ∀ s l s', inv s → sys.step s l s' → inv s')
    (hstep : ∀ s l s', inv s → sys.step s l s' → spec.step (f s) l (f s')) {s s' : State}
    (h : Run sys s ls s') (hs : inv s) : Run spec (f s) ls (f s') := by
  induction h with
  | nil s => exact Run.nil _
  | cons hl _ ih => exact Run.cons (hstep _ _ _ hs hl) (ih (hinv _ _ _ hs hl))

end Refinement
