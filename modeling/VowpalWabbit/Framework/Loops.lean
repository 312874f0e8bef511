import Mathlib.Data.List.Basic
import Mathlib.Tactic.Ring

/-! # Loops

    Nested counting loops visit the same steps as one loop over a flat counter,
    whose quotient and remainder are the two counters. Loops without a bound are
    given fuel; what is said of them is what enough fuel gives.
-/

namespace Cpp

variable {S : Type}

/-- `for (size_t i = 0; i < n; ++i)`, with the state that the body changes. -/
def for_range (n : Nat) (body : S → Nat → S) (s : S) : S := (List.range n).foldl body s

@[simp] theorem for_range_zero (body : S → Nat → S) (s : S) : for_range 0 body s = s := rfl

theorem for_range_succ (n : Nat) (body : S → Nat → S) (s : S) :
    for_range (n + 1) body s = body (for_range n body s) n := by
  unfold for_range
  rw [List.range_succ, List.foldl_append]
  rfl

/-- Two loops agree when their bodies do on the counters they reach. -/
theorem for_range_congr {n : Nat} {f g : S → Nat → S} (h : ∀ i < n, ∀ s, f s i = g s i) (s : S) :
    for_range n f s = for_range n g s := by
  induction n with
  | zero => rfl
  | succ n ih =>
    rw [for_range_succ, for_range_succ, ih fun i hi => h i (Nat.lt_succ_of_lt hi)]
    exact h n (Nat.lt_succ_self n) _

theorem for_range_add (m n : Nat) (body : S → Nat → S) (s : S) :
    for_range (m + n) body s = for_range n (fun s i => body s (m + i)) (for_range m body s) := by
  induction n with
  | zero => rfl
  | succ n ih => rw [← Nat.add_assoc, for_range_succ, ih, for_range_succ]

/-- Two nested loops as one. -/
theorem for_range_nested (a b : Nat) (body : S → Nat → Nat → S) (s : S) :
    for_range a (fun s i => for_range b (fun s j => body s i j) s) s
      = for_range (a * b) (fun s k => body s (k / b) (k % b)) s := by
  induction a with
  | zero => rw [Nat.zero_mul]; rfl
  | succ a ih =>
    rw [for_range_succ, ih, Nat.succ_mul, for_range_add]
    apply for_range_congr
    intro j hj s
    have hdiv : (a * b + j) / b = a := by
      rw [Nat.mul_comm, Nat.mul_add_div (Nat.zero_lt_of_lt hj), Nat.div_eq_of_lt hj, Nat.add_zero]
    have hmod : (a * b + j) % b = j := by
      rw [Nat.mul_comm, Nat.mul_add_mod, Nat.mod_eq_of_lt hj]
    rw [hdiv, hmod]

/-- The rule for an invariant of a loop. -/
theorem for_range_invariant {body : S → Nat → S} {s : S} (P : Nat → S → Prop) (h0 : P 0 s)
    {n : Nat} (hstep : ∀ i < n, ∀ s, P i s → P (i + 1) (body s i)) : P n (for_range n body s) := by
  induction n with
  | zero => exact h0
  | succ n ih =>
    rw [for_range_succ]
    exact hstep n (Nat.lt_succ_self n) _ (ih fun i hi => hstep i (Nat.lt_succ_of_lt hi))

/-! ## Loops without a bound -/

section Fuel

variable {A B : Type}

/-- Enough fuel gives the result. -/
def Ends (run : Nat → Option A) (out : A) : Prop := ∃ m, ∀ fuel ≥ m, run fuel = some out

theorem Ends.pure (out : A) : Ends (fun _ => some out) out := ⟨0, fun _ _ => rfl⟩

variable {run : Nat → Option A}

theorem Ends.bind {next : Nat → A → Option B} {mid : A} {out : B} (h : Ends run mid)
    (hnext : Ends (fun fuel => next fuel mid) out) :
    Ends (fun fuel => run fuel >>= next fuel) out := by
  obtain ⟨m, hm⟩ := h
  obtain ⟨n, hn⟩ := hnext
  refine ⟨max m n, fun fuel hfuel => ?_⟩
  show run fuel >>= next fuel = some out
  rw [hm fuel (by omega)]
  exact hn fuel (by omega)

theorem Ends.map {mid : A} (h : Ends run mid) (f : A → B) :
    Ends (fun fuel => run fuel >>= fun a => some (f a)) (f mid) := h.bind (Ends.pure _)

theorem Ends.unique {out out' : A} (h : Ends run out) (h' : Ends run out') : out = out' := by
  obtain ⟨m, hm⟩ := h
  obtain ⟨n, hn⟩ := h'
  have heq := (hm (max m n) (by omega)).symm.trans (hn (max m n) (by omega))
  exact Option.some.inj heq

/-- A loop over a list ends when its rounds do. -/
theorem Ends.mapM {run : Nat → A → Option B} {P : A → B → Prop} {l : List A}
    (h : ∀ a ∈ l, ∃ out, Ends (run · a) out ∧ P a out) :
    ∃ outs, Ends (fun fuel => l.mapM (run fuel)) outs ∧ List.Forall₂ P l outs := by
  induction l with
  | nil => exact ⟨[], Ends.pure [], List.Forall₂.nil⟩
  | cons a l ih =>
    obtain ⟨out, hout, hP⟩ := h a List.mem_cons_self
    obtain ⟨outs, houts, hPs⟩ := ih fun b hb => h b (List.mem_cons_of_mem a hb)
    refine ⟨out :: outs, ?_, List.Forall₂.cons hP hPs⟩
    have hcons : (fun fuel => (a :: l).mapM (run fuel)) =
        fun fuel => run fuel a >>= fun b => l.mapM (run fuel) >>= fun bs => some (b :: bs) := by
      funext fuel
      exact List.mapM_cons
    rw [hcons]
    exact hout.bind (houts.bind (Ends.pure _))

end Fuel

end Cpp
