import VowpalWabbit.Merge.Learners

/-! # The counterparts of learners

    The lookup by name finds the counterpart of a learner unless the name of a learner above
    it contains its name. Then the functions for models get the data of that learner.
-/

open Cpp Call.Finishes

namespace VW.Merge

open List Learner

variable {K W D : Type}

/-! ## The lookup -/

/-- The place of the first learner whose name contains a string. -/
def first_containing (learner_name : List Byte) (l : List (Learner K W D)) : Nat :=
  l.findIdx fun learner => decide (learner_name <:+: learner.name)

variable {learner_name : List Byte} {l : List (Learner K W D)} {i n : Nat} {sources : List (Workspace K W D)}

theorem get_learner_eq
    (h : ∃ learner ∈ l, learner_name <:+: learner.name) :
    get_learner_by_name_prefix learner_name l = .ok (first_containing learner_name l) := by
  induction l with
  | nil =>
    obtain ⟨_, hmem, -⟩ := h
    cases hmem
  | cons learner base ih =>
    unfold get_learner_by_name_prefix first_containing
    rw [findIdx_cons]
    by_cases hcontains : learner_name <:+: learner.name
    · rw [if_pos hcontains, decide_eq_true hcontains]
      rfl
    · rw [if_neg hcontains, decide_eq_false hcontains]
      obtain ⟨found, hmem, hfound⟩ := h
      have hbase : found ∈ base :=
        (mem_cons.mp hmem).resolve_left fun heq => hcontains (heq ▸ hfound)
      rw [ih ⟨found, hbase, hfound⟩]
      rfl

theorem first_containing_lt
    (h : ∃ learner ∈ l, learner_name <:+: learner.name) : first_containing learner_name l < l.length := by
  obtain ⟨learner, hmem, hcontains⟩ := h
  exact findIdx_lt_length_of_exists ⟨learner, hmem, decide_eq_true hcontains⟩

theorem data_at_safe (h : i < l.length) :
    ∃ data, data_at l i = .ok data := by
  unfold data_at nth
  rw [getElem?_eq_getElem h]
  exact ⟨_, rfl⟩

/-! ## The calls that are made -/

/-- The calls one learner gives rise to, and how they may end. -/
def StepMakes (n : Nat) (exact : Prop) (made : Nat → Learner K W D → List FunctionCall)
    (step : Nat → Learner K W D → Bool → Call (Output K W D) Unit) (i : Nat) (learner : Learner K W D) : Prop :=
  ∀ bottom calls, Call.Finishes (step i learner bottom) (fun s => s.l.length = n ∧ s.calls = calls)
    (fun _ s => s.l.length = n ∧ s.calls = calls ++ made i learner)
    (fun s => calls <+: s.calls ∧ s.calls <+: calls ++ made i learner ∧
      (exact → bottom = true ∧ s.calls = calls ++ made i learner))

/-- The calls of a loop are those of its learners; an exception cuts them short. -/
theorem each_learner_makes {n : Nat} {exact : Prop} {made : Nat → Learner K W D → List FunctionCall}
    {step : Nat → Learner K W D → Bool → Call (Output K W D) Unit} {l : List (Learner K W D)} :
    ∀ {i : Nat} {calls : List FunctionCall},
      (∀ p ∈ l.zipIdx i, StepMakes n exact made step p.2 p.1) →
      Call.Finishes (each_learner step i l) (fun s => s.l.length = n ∧ s.calls = calls)
        (fun _ s => s.l.length = n ∧ s.calls = calls ++ (l.zipIdx i).flatMap fun p => made p.2 p.1)
        (fun s => s.calls <+: (calls ++ (l.zipIdx i).flatMap fun p => made p.2 p.1) ∧
          (exact → s.calls = calls ++ (l.zipIdx i).flatMap fun p => made p.2 p.1)) := by
  induction l with
  | nil =>
    intro i calls _
    refine pure fun s hs => ⟨hs.1, ?_⟩
    rw [hs.2]
    exact (append_nil _).symm
  | cons learner base ih =>
    intro i calls hstep
    rw [zipIdx_cons] at hstep ⊢
    rw [flatMap_cons, ← append_assoc]
    rw [each_learner]
    refine bind ((hstep (learner, i) mem_cons_self base.isEmpty calls).mono
      (fun _ hs => hs) (fun _ _ hs => hs) fun s hs => ?_)
      fun _ => ih fun p hp => hstep p (mem_cons_of_mem _ hp)
    obtain ⟨-, hmade, hexact⟩ := hs
    refine ⟨hmade.trans (prefix_append _ _), fun h => ?_⟩
    obtain ⟨hbottom, hcalls⟩ := hexact h
    -- the learner at the bottom is the last one
    rw [isEmpty_iff.mp hbottom, hcalls]
    exact (append_nil _).symm

variable {calls : List FunctionCall}

/-- A function is called, whether it throws or not. -/
theorem call_function_makes (hi : i < n) {sources : List Nat} {f : W → D → Except String (W × D)} :
    Call.Finishes (call_function i sources f : Call (Output K W D) Unit) (fun s => s.l.length = n ∧ s.calls = calls)
      (fun _ s => s.l.length = n ∧ s.calls = calls ++ [⟨i, sources⟩])
      (fun s => s.calls = calls ++ [⟨i, sources⟩] ∧ ∃ rest data what, f rest data = .error what) := by
  unfold call_function
  refine bind (modify
    (Q := fun s => s.l.length = n ∧ s.calls = calls ++ [⟨i, sources⟩]) fun s hs => ⟨hs.1, by rw [hs.2]⟩) fun _ => ?_
  refine bind get fun s => ?_
  intro s' hs
  obtain ⟨rfl, hlength, hcalls⟩ := hs
  obtain ⟨data, hdata⟩ := data_at_safe (hlength.symm ▸ hi : i < s.l.length)
  rw [hdata]
  change Call.Ending.Is (store_results i (f s.rest data) s) _ _
  cases hf : f s.rest data with
  | error what => exact ⟨hcalls, _, _, _, hf⟩
  | ok r => exact ⟨(length_modify ..).trans hlength, hcalls⟩

/-! ## The two kinds of steps -/

/-- The calls of `merge_deltas` for one learner. -/
def merge_calls (sources : List (Workspace K W D)) (i : Nat) (learner : Learner K W D) : List FunctionCall :=
  if learner.has_merge then [⟨i, sources.map fun ws => first_containing learner.name ws.l⟩] else []

/-- The calls of `operator+` or `operator-` for one learner. -/
def combine_calls (function : Learner K W D → Option (Combine W D)) (ws1 ws2 : Workspace K W D) (i : Nat)
    (learner : Learner K W D) : List FunctionCall :=
  if (function learner).isSome then
    [⟨i, [first_containing learner.name ws1.l, first_containing learner.name ws2.l]⟩]
  else []

theorem mapM_get_learner
    (h : ∀ ws ∈ sources, ∃ learner ∈ ws.l, learner_name <:+: learner.name) :
    sources.mapM (fun ws => get_learner_by_name_prefix learner_name ws.l) =
      .ok (sources.map fun ws => first_containing learner_name ws.l) := by
  induction sources with
  | nil => rfl
  | cons ws sources ih =>
    rw [mapM_cons, get_learner_eq (h ws mem_cons_self), Outcome.ok_bind,
      ih fun ws hws => h ws (mem_cons_of_mem _ hws)]
    rfl

theorem mapM_data_at
    (h : ∀ ws ∈ sources, ∃ learner ∈ ws.l, learner_name <:+: learner.name) :
    ∃ all_data, ((sources.zip (sources.map fun ws => first_containing learner_name ws.l)).mapM
      fun p => data_at p.1.l p.2) = .ok all_data := by
  induction sources with
  | nil => exact ⟨_, rfl⟩
  | cons ws sources ih =>
    obtain ⟨data, hdata⟩ := data_at_safe (first_containing_lt (h ws mem_cons_self))
    obtain ⟨all_data, hall⟩ := ih fun ws hws => h ws (mem_cons_of_mem _ hws)
    rw [map_cons, zip_cons_cons, mapM_cons, hdata, Outcome.ok_bind, hall]
    exact ⟨_, rfl⟩

variable {learner : Learner K W D}

theorem merge_learner_makes (exact : Prop) (per_model_weighting : List K) (hi : i < n)
    (hsources : ∀ ws ∈ sources, ∃ l ∈ ws.l, learner.name <:+: l.name)
    (hexact : exact → ∀ f, learner.merge_f = some f → ∀ ks ws ds w d what, f ks ws ds w d ≠ .error what) :
    StepMakes n exact (merge_calls sources) (merge_learner per_model_weighting sources) i learner := by
  intro bottom calls
  unfold merge_learner merge_calls has_merge
  cases hf : learner.merge_f with
  | none =>
    simp only [Option.isSome_none, Bool.false_eq_true, if_false, append_nil]
    cases bottom with
    | false => exact pure fun s hs => hs
    | true =>
      refine throw_ _ fun s hs => ?_
      rw [hs.2]
      exact ⟨prefix_rfl, prefix_rfl, fun _ => ⟨rfl, rfl⟩⟩
  | some f =>
    simp only [Option.isSome_some, if_true]
    obtain ⟨all_data, hall⟩ := mapM_data_at hsources
    rw [mapM_get_learner hsources]
    intro s hs
    change Call.Ending.Is ((Call.lift (mapM _ _) >>= _ : Call (Output K W D) Unit) s) _ _
    rw [hall]
    refine (call_function_makes hi).mono (fun _ h => h) (fun _ _ h => h) (fun s' hs' => ?_) s hs
    obtain ⟨hcalls, _, _, _, herror⟩ := hs'
    refine ⟨?_, ?_, fun h => absurd herror (hexact h f hf _ _ _ _ _ _)⟩
    · rw [hcalls]
      exact prefix_append _ _
    · rw [hcalls]

variable {function : Learner K W D → Option (Combine W D)}

theorem combine_learner_makes (exact : Prop) {ws1 ws2 : Workspace K W D} (hi : i < n)
    (h1 : ∃ l ∈ ws1.l, learner.name <:+: l.name) (h2 : ∃ l ∈ ws2.l, learner.name <:+: l.name)
    (hexact : exact → ∀ f, function learner = some f → ∀ w1 d1 w2 d2 w d what, f w1 d1 w2 d2 w d ≠ .error what) :
    StepMakes n exact (combine_calls function ws1 ws2) (combine_learner function ws1 ws2) i learner := by
  intro bottom calls
  unfold combine_learner combine_calls
  cases hf : function learner with
  | none =>
    simp only [Option.isSome_none, Bool.false_eq_true, if_false, append_nil]
    cases hbottom : !learner.has_merge && bottom with
    | false => exact pure fun s hs => hs
    | true =>
      refine throw_ _ fun s hs => ?_
      rw [hs.2]
      rw [Bool.and_eq_true] at hbottom
      exact ⟨prefix_rfl, prefix_rfl, fun _ => ⟨hbottom.2, rfl⟩⟩
  | some f =>
    simp only [Option.isSome_some, if_true]
    obtain ⟨data1, hdata1⟩ := data_at_safe (first_containing_lt h1)
    obtain ⟨data2, hdata2⟩ := data_at_safe (first_containing_lt h2)
    rw [get_learner_eq h1, get_learner_eq h2]
    intro s hs
    change Call.Ending.Is ((Call.lift (data_at _ _) >>= fun _ => Call.lift (data_at _ _) >>= _ :
      Call (Output K W D) Unit) s) _ _
    rw [hdata1, hdata2]
    refine (call_function_makes hi).mono (fun _ h => h) (fun _ _ h => h) (fun s' hs' => ?_) s hs
    obtain ⟨hcalls, _, _, _, herror⟩ := hs'
    refine ⟨?_, ?_, fun h => absurd herror (hexact h f hf _ _ _ _ _ _ _)⟩
    · rw [hcalls]
      exact prefix_append _ _
    · rw [hcalls]

/-! ## Stacks with the same names -/

/-- What the merging code sees of a learner. -/
structure Reduction where
  name : List Byte
  merges : Bool
  adds : Bool
  subtracts : Bool

def Learner.reduction (l : Learner K W D) : Reduction := ⟨l.name, l.has_merge, l.has_add, l.has_subtract⟩

def Reduction.takes_part (r : Reduction) : Bool := r.merges || r.adds || r.subtracts

/-- The calls that give every learner the data of its counterparts in `k` workspaces. -/
def counterparts (supports : Reduction → Bool) (k : Nat) (stack : List Reduction) : List FunctionCall :=
  stack.zipIdx.flatMap fun p => if supports p.1 then [⟨p.2, replicate k p.2⟩] else []

/-- The calls of a run are those, or an exception cut them short. -/
def CallsAre (ending : Ending (Output K W D) Unit) (calls : List FunctionCall) : Prop :=
  Call.Ending.Is ending (fun _ s => s.calls = calls) fun s => s.calls <+: calls

/-- Every function for models is called with the data of the counterparts, whatever the
    workspaces with this stack are. -/
structure PairsCounterparts (stack : List Reduction) : Prop where
  merge : ∀ (K W D : Type) (per_model_weighting : List K) (workspaces_to_merge : List (Workspace K W D))
    (destination : Workspace K W D),
    (∀ ws ∈ workspaces_to_merge, ws.l.map reduction = stack) →
    destination.l.map reduction = stack →
    CallsAre (merge_learners per_model_weighting workspaces_to_merge destination.l
      ⟨destination.l, destination.rest, []⟩) (counterparts (·.merges) workspaces_to_merge.length stack)
  add : ∀ (K W D : Type) (base delta destination : Workspace K W D), base.l.map reduction = stack →
    delta.l.map reduction = stack → destination.l.map reduction = stack →
    CallsAre (add_learners base delta destination.l ⟨destination.l, destination.rest, []⟩)
      (counterparts (·.adds) 2 stack)
  subtract : ∀ (K W D : Type) (ws1 ws2 destination : Workspace K W D), ws1.l.map reduction = stack →
    ws2.l.map reduction = stack → destination.l.map reduction = stack →
    CallsAre (subtract_learners ws1 ws2 destination.l ⟨destination.l, destination.rest, []⟩)
      (counterparts (·.subtracts) 2 stack)

/-- No learner that takes part has a name that stands in that of a learner above it. -/
def NamesApart (stack : List Reduction) : Prop :=
  stack.Pairwise fun upper lower => lower.takes_part → ¬ lower.name <:+: upper.name

section
variable {stack : List Reduction} {l : List (Learner K W D)}

/-- Where the first match stands, by the names alone. -/
theorem first_containing_eq (hl : l.map reduction = stack) (learner_name : List Byte) :
    first_containing learner_name l = stack.findIdx fun r => decide (learner_name <:+: r.name) := by
  subst hl
  rw [findIdx_map]
  rfl

theorem exists_containing (hl : l.map reduction = stack) {r : Reduction} (hr : r ∈ stack) :
    ∃ learner ∈ l, r.name <:+: learner.name := by
  subst hl
  obtain ⟨learner, hmem, rfl⟩ := mem_map.mp hr
  exact ⟨learner, hmem, infix_rfl⟩

/-- With the names apart the first match is the counterpart. -/
theorem findIdx_name (h : NamesApart stack) (hi : i < stack.length)
    (hpart : stack[i].takes_part = true) :
    (stack.findIdx fun r => decide (stack[i].name <:+: r.name)) = i := by
  rw [findIdx_eq hi]
  refine ⟨decide_eq_true infix_rfl, fun j hj => ?_⟩
  exact decide_eq_false (pairwise_iff_getElem.mp h j i (hj.trans hi) hi hj hpart)

/-- The calls for learners, by the stack alone. -/
theorem flatMap_zipIdx_reduction (hl : l.map reduction = stack)
    (made : Nat → Reduction → List FunctionCall) :
    (l.zipIdx.flatMap fun p => made p.2 p.1.reduction) = stack.zipIdx.flatMap fun p => made p.2 p.1 := by
  subst hl
  rw [zipIdx_map, flatMap_map]
  rfl

/-- The calls that are made, by the stack alone. -/
def calls_made (supports : Reduction → Bool) (k : Nat) (stack : List Reduction) : List FunctionCall :=
  stack.zipIdx.flatMap fun p =>
    if supports p.1 then
      [⟨p.2, replicate k (stack.findIdx fun r => decide (p.1.name <:+: r.name))⟩]
    else []

variable {supports : Reduction → Bool}

theorem calls_made_eq (h : NamesApart stack)
    (hsupports : ∀ r, supports r = true → r.takes_part = true) (k : Nat) :
    calls_made supports k stack = counterparts supports k stack := by
  unfold calls_made counterparts
  refine flatMap_congr fun p hp => ?_
  obtain ⟨hi, hp'⟩ := List.getElem?_eq_some_iff.mp (mk_mem_zipIdx_iff_getElem?.mp hp)
  split
  · rename_i hsupport
    have hfirst := findIdx_name h hi (by rw [hp']; exact hsupports _ hsupport)
    rw [hp'] at hfirst
    rw [hfirst]
  · rfl

/-- A lookup that misses the counterpart shows in the calls. -/
theorem findIdx_of_calls (supports : Reduction → Bool) (hi : i < stack.length)
    (hsupport : supports stack[i] = true)
    (hcalls : ∀ c ∈ calls_made supports 2 stack, c ∈ counterparts supports 2 stack) :
    (stack.findIdx fun r => decide (stack[i].name <:+: r.name)) = i := by
  have hmade : (⟨i, replicate 2 (stack.findIdx fun r => decide (stack[i].name <:+: r.name))⟩ :
      FunctionCall) ∈ calls_made supports 2 stack := by
    refine mem_flatMap.mpr ⟨(stack[i], i), mk_mem_zipIdx_iff_getElem?.mpr
      (getElem?_eq_getElem hi), ?_⟩
    rw [if_pos hsupport]
    exact mem_singleton.mpr rfl
  obtain ⟨p, -, hp⟩ := mem_flatMap.mp (hcalls _ hmade)
  split at hp
  · have heq := mem_singleton.mp hp
    injection heq with htarget hsources
    exact (cons.inj hsources).1.trans htarget.symm
  · cases hp

/-! ## The three loops -/

/-- How a loop ends, and with which calls. -/
def LoopMakes (ending : Ending (Output K W D) Unit) (exact : Prop) (calls : List FunctionCall) : Prop :=
  Call.Ending.Is ending (fun _ s => s.calls = calls)
    fun s => s.calls <+: calls ∧ (exact → s.calls = calls)

theorem loop_makes {exact : Prop} {made : Nat → Learner K W D → List FunctionCall}
    {step : Nat → Learner K W D → Bool → Call (Output K W D) Unit} (rest : W)
    (hstep : ∀ p ∈ l.zipIdx, StepMakes l.length exact made step p.2 p.1) :
    LoopMakes (each_learner step 0 l ⟨l, rest, []⟩) exact (l.zipIdx.flatMap fun p => made p.2 p.1) := by
  have h := @each_learner_makes _ _ _ _ _ _ _ _ _ [] hstep ⟨l, rest, []⟩ ⟨rfl, rfl⟩
  rw [nil_append] at h
  unfold LoopMakes
  cases hrun : each_learner step 0 l ⟨l, rest, []⟩ with
  | returned a s =>
    rw [hrun] at h
    exact h.2
  | threw what s =>
    rw [hrun] at h
    exact h
  | undefined =>
    rw [hrun] at h
    exact h

variable {p : Learner K W D × Nat}

theorem lt_of_mem_zipIdx (hp : p ∈ l.zipIdx) : p.2 < l.length :=
  (List.getElem?_eq_some_iff.mp (mk_mem_zipIdx_iff_getElem?.mp hp)).1

theorem reduction_mem (hl : l.map reduction = stack) (hp : p ∈ l.zipIdx) :
    p.1.reduction ∈ stack := by
  rw [← hl]
  exact mem_map_of_mem (fst_mem_of_mem_zipIdx hp)

theorem merge_learners_makes (exact : Prop) (per_model_weighting : List K) (rest : W)
    (hsources : ∀ ws ∈ sources, ws.l.map reduction = stack)
    (hl : l.map reduction = stack)
    (hexact : exact → ∀ learner ∈ l, ∀ f, learner.merge_f = some f →
      ∀ ks ws ds w d what, f ks ws ds w d ≠ .error what) :
    LoopMakes (merge_learners per_model_weighting sources l ⟨l, rest, []⟩) exact
      (calls_made (·.merges) sources.length stack) := by
  have hmade : ∀ p ∈ l.zipIdx, merge_calls sources p.2 p.1 =
      if p.1.reduction.merges then
        [⟨p.2, replicate sources.length
          (stack.findIdx fun r => decide (p.1.reduction.name <:+: r.name))⟩]
      else [] := by
    intro p hp
    have hfirst : (sources.map fun ws => first_containing p.1.name ws.l) =
        replicate sources.length (stack.findIdx fun r => decide (p.1.name <:+: r.name)) := by
      rw [eq_replicate_iff]
      refine ⟨length_map .., fun i hi => ?_⟩
      obtain ⟨ws, hws, rfl⟩ := mem_map.mp hi
      exact first_containing_eq (hsources ws hws) _
    unfold merge_calls
    rw [hfirst]
    rfl
  have hloop := loop_makes rest fun p hp => merge_learner_makes exact per_model_weighting
    (lt_of_mem_zipIdx hp) (fun ws hws => exists_containing (hsources ws hws) (reduction_mem hl hp))
    (fun h => hexact h p.1 (fst_mem_of_mem_zipIdx hp))
  rw [flatMap_congr hmade, flatMap_zipIdx_reduction hl fun i r =>
    if r.merges then
      [⟨i, replicate sources.length (stack.findIdx fun r' => decide (r.name <:+: r'.name))⟩]
    else []] at hloop
  exact hloop

theorem combine_learners_makes (exact : Prop)
    (hfunction : ∀ learner, (function learner).isSome = supports learner.reduction)
    {ws1 ws2 : Workspace K W D} (rest : W) (h1 : ws1.l.map reduction = stack)
    (h2 : ws2.l.map reduction = stack) (hl : l.map reduction = stack)
    (hexact : exact → ∀ learner ∈ l, ∀ f, function learner = some f →
      ∀ w1 d1 w2 d2 w d what, f w1 d1 w2 d2 w d ≠ .error what) :
    LoopMakes (each_learner (combine_learner function ws1 ws2) 0 l ⟨l, rest, []⟩) exact
      (calls_made supports 2 stack) := by
  have hmade : ∀ p ∈ l.zipIdx, combine_calls function ws1 ws2 p.2 p.1 =
      if supports p.1.reduction then
        [⟨p.2, replicate 2 (stack.findIdx fun r => decide (p.1.reduction.name <:+: r.name))⟩]
      else [] := by
    intro p _
    unfold combine_calls
    rw [hfunction, first_containing_eq h1, first_containing_eq h2]
    rfl
  have hloop := loop_makes rest fun p hp => combine_learner_makes exact (lt_of_mem_zipIdx hp)
    (exists_containing h1 (reduction_mem hl hp)) (exists_containing h2 (reduction_mem hl hp))
    (fun h => hexact h p.1 (fst_mem_of_mem_zipIdx hp))
  rw [flatMap_congr hmade, flatMap_zipIdx_reduction hl fun i r =>
    if supports r then
      [⟨i, replicate 2 (stack.findIdx fun r' => decide (r.name <:+: r'.name))⟩]
    else []] at hloop
  exact hloop

variable {ending : Ending (Output K W D) Unit}

theorem LoopMakes.callsAre {exact : Prop} (h : LoopMakes ending exact calls) :
    CallsAre ending calls := by
  cases ending with
  | returned a s => exact h
  | threw what s => exact h.1
  | undefined => exact h

/-- Where no function throws, the calls are all made, and a bound on them is met by all. -/
theorem LoopMakes.subset {calls' : List FunctionCall} (h : LoopMakes ending True calls)
    (h' : CallsAre ending calls') : ∀ c ∈ calls, c ∈ calls' := by
  intro c hc
  cases ending with
  | returned a s =>
    rwa [← h', h]
  | threw what s =>
    rw [← h.2 trivial] at hc
    exact List.IsPrefix.mem hc h'
  | undefined => exact h.elim

end

/-! ## The counterparts -/

/-- A workspace with a given stack, whose functions leave everything as it is. -/
def idle (stack : List Reduction) : Workspace Unit Unit Unit where
  l := stack.map fun r =>
    { name := r.name
      data := ()
      merge_f := if r.merges then some fun _ _ _ w d => .ok (w, d) else none
      add_f := if r.adds then some fun _ _ _ _ w d => .ok (w, d) else none
      subtract_f := if r.subtracts then some fun _ _ _ _ w d => .ok (w, d) else none }
  rest := ()

theorem idle_reductions (stack : List Reduction) : (idle stack).l.map reduction = stack := by
  unfold idle
  rw [map_map]
  refine (map_congr_left fun r _ => ?_).trans (map_id stack)
  obtain ⟨name, merges, adds, subtracts⟩ := r
  cases merges <;> cases adds <;> cases subtracts <;> rfl

/-- The functions of an idle workspace do not throw. -/
theorem idle_ok {learner : Learner Unit Unit Unit} (h : learner ∈ (idle stack).l) :
    (∀ f, learner.merge_f = some f → ∀ ks ws ds w d what, f ks ws ds w d ≠ .error what) ∧
      (∀ f, learner.add_f = some f → ∀ w1 d1 w2 d2 w d what, f w1 d1 w2 d2 w d ≠ .error what) ∧
      ∀ f, learner.subtract_f = some f → ∀ w1 d1 w2 d2 w d what, f w1 d1 w2 d2 w d ≠ .error what := by
  obtain ⟨r, -, rfl⟩ := mem_map.mp h
  obtain ⟨name, merges, adds, subtracts⟩ := r
  refine ⟨fun f hf => ?_, fun f hf => ?_, fun f hf => ?_⟩
  · cases merges <;> simp at hf
    subst hf
    simp
  · cases adds <;> simp at hf
    subst hf
    simp
  · cases subtracts <;> simp at hf
    subst hf
    simp

/-- Where the data of the counterparts is always found, every learner is the first whose name
    contains its name. -/
theorem PairsCounterparts.findIdx (h : PairsCounterparts stack) (hi : i < stack.length)
    (hpart : stack[i].takes_part = true) :
    (stack.findIdx fun r => decide (stack[i].name <:+: r.name)) = i := by
  have hidle := idle_reductions stack
  have hsources : ∀ ws ∈ [idle stack, idle stack], ws.l.map reduction = stack := by
    simp [hidle]
  unfold Reduction.takes_part at hpart
  rw [Bool.or_eq_true, Bool.or_eq_true] at hpart
  rcases hpart with (hmerges | hadds) | hsubtracts
  · refine findIdx_of_calls (·.merges) hi hmerges ?_
    exact (merge_learners_makes True [] () hsources hidle fun _ _ hl => (idle_ok hl).1).subset
      (h.merge Unit Unit Unit [] _ (idle stack) hsources hidle)
  · refine findIdx_of_calls (·.adds) hi hadds ?_
    exact (combine_learners_makes True (fun _ => rfl) () hidle hidle hidle fun _ _ hl => (idle_ok hl).2.1).subset
      (h.add Unit Unit Unit _ _ (idle stack) hidle hidle hidle)
  · refine findIdx_of_calls (·.subtracts) hi hsubtracts ?_
    exact (combine_learners_makes True (fun _ => rfl) () hidle hidle hidle fun _ _ hl => (idle_ok hl).2.2).subset
      (h.subtract Unit Unit Unit _ _ (idle stack) hidle hidle hidle)

/-- Every function for models gets the data of the counterparts exactly when no learner that
    has one is called as a part of the name of a learner above it. -/
theorem pairs_counterparts_iff (stack : List Reduction) : PairsCounterparts stack ↔ NamesApart stack := by
  constructor
  · intro h
    refine pairwise_iff_getElem.mpr fun i j hi hj hij hpart hcontains => ?_
    have hfirst := h.findIdx hj hpart
    have hle := not_of_lt_findIdx (hij.trans_eq hfirst.symm)
    rw [decide_eq_true hcontains] at hle
    cases hle
  · intro h
    refine ⟨fun K W D weightings sources destination hsources hl => ?_,
      fun K W D base delta destination h1 h2 hl => ?_, fun K W D ws1 ws2 destination h1 h2 hl => ?_⟩
    · rw [← calls_made_eq h (fun r hr => by simp [Reduction.takes_part, hr])]
      exact (merge_learners_makes False weightings destination.rest hsources hl False.elim).callsAre
    · rw [← calls_made_eq h (fun r hr => by simp [Reduction.takes_part, hr])]
      exact (combine_learners_makes False (fun _ => rfl) destination.rest h1 h2 hl False.elim).callsAre
    · rw [← calls_made_eq h (fun r hr => by simp [Reduction.takes_part, hr])]
      exact (combine_learners_makes False (fun _ => rfl) destination.rest h1 h2 hl False.elim).callsAre

/-- A reduction that counts what `gd` sees, above `gd`. -/
def counting_stack : List Reduction :=
  [⟨text "gd_counter", false, false, false⟩, ⟨text "gd", true, true, true⟩]

/-- The data of the counter is taken for that of `gd`. -/
theorem counter_taken_for_gd :
    (counting_stack.map (·.name)).Nodup ∧ ¬ PairsCounterparts counting_stack := by
  constructor
  · decide
  · intro h
    have hfirst := h.findIdx (i := 1) (by decide) rfl
    revert hfirst
    decide

end VW.Merge
