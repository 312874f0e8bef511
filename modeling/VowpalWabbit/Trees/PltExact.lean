import VowpalWabbit.Trees.PltRuns
import VowpalWabbit.Framework.Sorting

/-! # When is the prediction exact?

    `plt_setup` gives the tree as many inner nodes as `k` leaves need, rounded up. The last
    inner node then has children that are no nodes of the tree, unless `kary - 1` divides
    `k - 1`; the searches go into them like into any other.
-/

open Cpp VW.Trees Call

namespace VW.LabelTree

open List Nat

/-! ## The size of the tree -/

/-- The number of nodes is the same for every power. -/
theorem tree_size_eq {k kary : Nat} (hkary : 2 ≤ kary) (m : Nat) :
    tree_size k kary ((kary : ℚ) ^ m) = k + (⌈((k : ℚ) - 1) / (kary - 1)⌉ : ℚ) := by
  have hpositive : (0 : ℚ) < (kary : ℚ) - 1 := by
    have hcast : (2 : ℚ) ≤ kary := by exact_mod_cast hkary
    linarith
  -- the inner nodes above level `m`
  obtain ⟨above, habove⟩ : ∃ above : ℤ, (kary : ℚ) ^ m - 1 = above * ((kary : ℚ) - 1) := by
    induction m with
    | zero => exact ⟨0, by simp⟩
    | succ m ih =>
      obtain ⟨above, h⟩ := ih
      refine ⟨above * kary + 1, ?_⟩
      rw [pow_succ]
      push_cast
      linear_combination (kary : ℚ) * h
  have hb : ((k : ℚ) - (kary : ℚ) ^ m) / (kary - 1) = ((k : ℚ) - 1) / (kary - 1) - above := by
    field_simp
    linear_combination -habove
  have hd : ((kary : ℚ) * (kary : ℚ) ^ m - 1) / (kary - 1) = (kary : ℚ) ^ m + above := by
    field_simp
    linear_combination habove
  unfold tree_size
  dsimp only
  rw [hb, hd, Int.ceil_sub_intCast]
  push_cast
  ring

/-- The sizes of the tree. -/
structure Sized (k kary t ti : Nat) : Prop where
  nodes : t = k + ti
  enough : k - 1 ≤ (kary - 1) * ti
  least : (kary - 1) * ti < k - 1 + (kary - 1)

theorem plt_tree_sized {R : Type} {k kary top_k : Nat} {threshold : R} {probabilities : Bool}
    (hk : 2 ≤ k) (hkary : 2 ≤ kary) :
    Sized k kary (plt_tree k kary top_k threshold probabilities).t
      (plt_tree k kary top_k threshold probabilities).ti := by
  have hcast_kary : ((kary - 1 : Nat) : ℚ) = (kary : ℚ) - 1 := by
    rw [cast_sub (by omega), cast_one]
  have hcast_k : ((k - 1 : Nat) : ℚ) = (k : ℚ) - 1 := by
    rw [cast_sub (by omega), cast_one]
  have hpositive : (0 : ℚ) < (kary : ℚ) - 1 := by
    rw [← hcast_kary]
    exact_mod_cast (by omega : 0 < kary - 1)
  have hnonneg : (0 : ℚ) ≤ ((k : ℚ) - 1) / (kary - 1) := by
    refine div_nonneg ?_ (le_of_lt hpositive)
    rw [← hcast_k]
    exact cast_nonneg _
  obtain ⟨c, hc⟩ : ∃ c : Nat, ⌈((k : ℚ) - 1) / (kary - 1)⌉ = c := Int.eq_ofNat_of_zero_le (Int.ceil_nonneg hnonneg)
  have hle := Int.le_ceil (((k : ℚ) - 1) / (kary - 1))
  have hlt := Int.ceil_lt_add_one (((k : ℚ) - 1) / (kary - 1))
  rw [hc, Int.cast_natCast] at hle hlt
  rw [div_le_iff₀ hpositive, ← hcast_kary, ← hcast_k] at hle
  rw [← sub_lt_iff_lt_add, lt_div_iff₀ hpositive, ← hcast_kary, ← hcast_k] at hlt
  have ht : (plt_tree k kary top_k threshold probabilities).t = k + c := by
    show ⌊tree_size k kary ((kary : ℚ) ^ log kary k)⌋₊ = k + c
    rw [tree_size_eq hkary, hc, Int.cast_natCast, ← cast_add, floor_natCast]
  have hti : (plt_tree k kary top_k threshold probabilities).ti = c := by
    show (plt_tree k kary top_k threshold probabilities).t - k = c
    rw [ht, Nat.add_sub_cancel_left]
  rw [ht, hti]
  refine ⟨rfl, ?_, ?_⟩
  · have hle : ((k - 1 : Nat) : ℚ) ≤ ((kary - 1) * c : Nat) := by
      rw [cast_mul, mul_comm]
      exact hle
    exact_mod_cast hle
  · have hlt : (((kary - 1) * c : Nat) : ℚ) < (k - 1 + (kary - 1) : Nat) := by
      rw [cast_mul, cast_add]
      linarith
    exact_mod_cast hlt

theorem plt_setup_eq_some {R : Type} {k kary top_k : Nat} {threshold : R} {probabilities : Bool} {p : Plt R} :
    plt_setup k kary top_k threshold probabilities = some p ↔
      (plt_tree k kary top_k threshold probabilities).t < 2 ^ 32 ∧
        plt_tree k kary top_k threshold probabilities = p := by
  unfold plt_setup
  dsimp only
  split
  · next hsize => exact ⟨fun heq => ⟨hsize, Option.some.inj heq⟩, fun heq => congrArg some heq.2⟩
  · next hsize => exact ⟨fun heq => (nomatch heq), fun heq => absurd heq.1 hsize⟩


namespace Sized

variable {k kary t ti : Nat}

theorem inner_pos (h : Sized k kary t ti) (hk : 2 ≤ k) : 0 < ti := by
  refine pos_of_ne_zero ?_
  rintro rfl
  have henough := h.enough
  omega

theorem mul_inner_eq (hkary : 2 ≤ kary) : kary * ti = (kary - 1) * ti + ti := by
  obtain ⟨n, rfl⟩ : ∃ n, kary = n + 1 := ⟨kary - 1, by omega⟩
  rw [Nat.add_sub_cancel]
  ring

theorem dvd_iff (h : Sized k kary t ti) : kary - 1 ∣ k - 1 ↔ (kary - 1) * ti = k - 1 := by
  constructor
  · rintro ⟨d, hd⟩
    have hle := h.enough
    have hlt := h.least
    rw [hd] at hle hlt ⊢
    have hti : ti < d + 1 := by
      refine Nat.lt_of_mul_lt_mul_left (a := kary - 1) ?_
      rw [mul_add, mul_one]
      exact hlt
    have hd : d ≤ ti := le_of_mul_le_mul_left hle (by omega)
    rw [show d = ti by omega]
  · intro heq
    exact ⟨ti, heq.symm⟩

theorem lt_iff (h : Sized k kary t ti) (hkary : 2 ≤ kary) (hdvd : kary - 1 ∣ k - 1) :
    t < 2 ^ 32 ↔ k + (k - 1) / (kary - 1) < 2 ^ 32 := by
  rw [h.nodes, ← h.dvd_iff.mp hdvd, Nat.mul_div_cancel_left ti (by omega)]

end Sized

/-! ## The nodes of the true labels -/

theorem mem_insert {xs : List Nat} {x y : Nat} : y ∈ insert xs x ↔ y ∈ xs ∨ y = x := by
  unfold insert
  split
  · next hmem =>
    refine ⟨.inl, fun h => h.elim id fun heq => ?_⟩
    rw [heq]
    exact hmem
  · rw [mem_append, mem_singleton]

theorem mem_foldl_insert {xs ys : List Nat} {y : Nat} : y ∈ xs.foldl insert ys ↔ y ∈ ys ∨ y ∈ xs := by
  induction xs generalizing ys with
  | nil => simp
  | cons x xs ih =>
    rw [foldl_cons, ih, mem_insert, mem_cons, or_assoc]

theorem ancestors_lt {kary fuel tn n : Nat} (htn : tn < n) : ∀ a ∈ ancestors kary fuel tn, a < n := by
  induction fuel generalizing tn with
  | zero => exact fun a ha => nomatch ha
  | succ fuel ih =>
    unfold ancestors
    split
    · have hle := div_le_self (tn - 1) kary
      exact forall_mem_cons.mpr ⟨by omega, ih (by omega)⟩
    · exact fun a ha => nomatch ha

variable {A : Type}

/-- A loop that only adds small numbers. -/
theorem foldl_lt {f : List Nat → A → List Nat} {xs : List A} {n : Nat}
    (h : ∀ nodes x, (∀ m ∈ nodes, m < n) → ∀ m ∈ f nodes x, m < n) {nodes : List Nat}
    (hnodes : ∀ m ∈ nodes, m < n) : ∀ m ∈ xs.foldl f nodes, m < n := by
  induction xs generalizing nodes with
  | nil => exact hnodes
  | cons x xs ih => exact ih (h nodes x hnodes)

/-- Only nodes of the tree are updated. -/
theorem get_nodes_to_update_lt {R : Type} {p : Plt R} {order : SetOrder} (ht : 0 < p.t) (multilabels : List Nat) :
    (∀ n ∈ (get_nodes_to_update p order multilabels).1, n < p.t) ∧
      ∀ n ∈ (get_nodes_to_update p order multilabels).2, n < p.t := by
  unfold get_nodes_to_update
  split
  · refine ⟨fun n hn => (nomatch hn), fun n hn => ?_⟩
    rw [mem_singleton.mp hn]
    exact ht
  · have hnone : ∀ m ∈ ([] : List Nat), m < p.t := fun m hm => nomatch hm
    refine ⟨fun n hn => ?_, fun n hn => ?_⟩
    · refine foldl_lt (fun nodes label hnodes => ?_) hnone n ((order.perm _).mem_iff.mp hn)
      dsimp only
      split
      · next htn =>
        intro m hm
        rcases mem_foldl_insert.mp hm with hm | hm
        · exact hnodes m hm
        · rcases mem_cons.mp hm with rfl | hm
          · exact htn
          · exact ancestors_lt htn m hm
      · exact hnodes
    · refine foldl_lt (fun nodes n hnodes => ?_) hnone n ((order.perm _).mem_iff.mp hn)
      split
      · refine foldl_lt (fun nodes n_child hnodes => ?_) hnodes
        split
        · next hchild =>
          intro m hm
          rcases mem_insert.mp hm with hm | rfl
          · exact hnodes m hm
          · exact hchild.1
        · exact hnodes
      · exact hnodes

/-! ## The run of a prediction -/

section Run

variable {W R : Type} [Field R] {p : Plt R} {order : SetOrder} {sigmoid : R → R} {base : BaseLearner (R × W) R}
  {scores : Nat → R} {n : Nat} {T : PltState W R → Prop}

omit [Field R] in
theorem on_run_asks {x : Call (State (R × W) R) A}
    (h : x.Finishes (Below n) (fun _ => Below n) fun _ => False) :
    (on_run x).Finishes (Asks n) (fun _ => Asks n) T := by
  intro s hs
  obtain ⟨a, run, hrun, hbelow⟩ := h.returns hs.1
  rw [on_run_returned hrun]
  exact ⟨hbelow, hs.2⟩

theorem each_node_asks {visit : Nat → Call (PltState W R) R} {nodes : List Nat × List Nat}
    (hvisit : ∀ i < n, (visit i).Finishes (Asks n) (fun _ => Asks n) T) (hpositive : ∀ i ∈ nodes.1, i < n)
    (hnegative : ∀ i ∈ nodes.2, i < n) : (each_node visit nodes).Finishes (Asks n) (fun _ => Asks n) T :=
  (on_run_asks (set_ec_below _)).bind fun _ => (on_run_asks (set_ec_below _)).bind fun _ =>
    (Call.Finishes.foldlM (fun i hi _ => (hvisit i (hpositive i hi)).bind fun _ =>
      .pure fun _ hs => hs) 0).bind fun _ =>
      (on_run_asks (set_ec_below _)).bind fun _ =>
        Call.Finishes.foldlM (fun i hi _ => (hvisit i (hnegative i hi)).bind fun _ => .pure fun _ hs => hs) _

theorem evaluate_loss_asks (ht : 0 < p.t) (hn : p.t ≤ n) (multilabels : List Nat) :
    (evaluate_loss p order base multilabels).Finishes (Asks n) (fun _ => Asks n) T := by
  unfold evaluate_loss
  split
  · exact .pure fun _ hs => hs
  · obtain ⟨hpositive, hnegative⟩ := (@get_nodes_to_update_lt _ _ order) ht multilabels
    exact each_node_asks (fun i hi => (on_run_asks (predicts_below hi)).bind fun _ =>
      (on_run_asks get_ec_below).bind fun _ =>
      .pure fun _ hs => hs) (fun i hi => lt_of_lt_of_le (hpositive i hi) hn) fun i hi =>
        lt_of_lt_of_le (hnegative i hi) hn

omit [Field R] in
theorem evaluate_threshold_asks (pred : PolyPrediction R) (labels : List Nat) :
    (evaluate_threshold pred labels : Call (PltState W R) Unit).Finishes (Asks n) (fun _ => Asks n) T := by
  unfold evaluate_threshold
  split
  · exact .pure fun _ hs => hs
  · exact .modify fun _ hs => hs

variable {pred : PolyPrediction R} {labels : List Nat}

theorem evaluate_at_asks {tp_at : R} {i : Nat} (hi : i < pred.multilabels.length) :
    (evaluate_at pred labels tp_at i : Call (PltState W R) R).Finishes (Asks n) (fun _ => Asks n) T := by
  unfold evaluate_at
  rw [getElem?_eq_getElem hi]
  exact fun _ hs => hs

/-- With enough predictions they are evaluated. -/
theorem evaluate_top_k_asks (h : labels = [] ∨ p.top_k ≤ pred.multilabels.length) :
    (evaluate_top_k p pred labels : Call (PltState W R) Unit).Finishes (Asks n) (fun _ => Asks n) T := by
  unfold evaluate_top_k
  split
  · exact .pure fun _ hs => hs
  · next hne =>
    have hlength := h.resolve_left hne
    exact (Call.Finishes.foldlM (fun i hi _ => evaluate_at_asks (lt_of_lt_of_le (mem_range.mp hi) hlength)) 0).bind
      fun _ => .pure fun _ hs => hs

/-- A loop with a round that is not defined. -/
theorem foldlM_undefined {S X : Type} {body : A → X → Call S A} {xs : List X} {x : X}
    (hx : x ∈ xs) (hundefined : ∀ a s, body a x s = .undefined)
    (hquiet : ∀ a x s what s', body a x s ≠ .threw what s') (a : A) (s : S) :
    xs.foldlM body a s = .undefined := by
  induction xs generalizing a s with
  | nil => cases hx
  | cons y ys ih =>
    rw [foldlM_cons, bind_run]
    rcases mem_cons.mp hx with rfl | hx
    · rw [hundefined]
    · cases hrun : body a y s with
      | returned a s => exact ih hx a s
      | threw what s' => exact absurd hrun (hquiet a y s what s')
      | undefined => rfl

/-- Predictions that do not exist are read. -/
theorem evaluate_top_k_undefined (hlabels : labels ≠ [])
    (hlength : pred.multilabels.length < p.top_k) (s : PltState W R) :
    evaluate_top_k p pred labels s = .undefined := by
  have hloop : (range p.top_k).foldlM (evaluate_at pred labels) 0 s = .undefined := by
    refine foldlM_undefined (mem_range.mpr hlength) (fun tp_at s => ?_) (fun tp_at i s what s' hrun => ?_) 0 s
    · unfold evaluate_at
      rw [getElem?_eq_none (Nat.le_refl _)]
      rfl
    · unfold evaluate_at at hrun
      cases hget : pred.multilabels[i]? with
      | none =>
        rw [hget] at hrun
        cases hrun
      | some pred_label =>
        rw [hget] at hrun
        cases hrun
  unfold evaluate_top_k
  rw [if_neg hlabels, bind_run, hloop]

end Run

section Exact

variable {W R : Type} [Field R] [LinearOrder R] [IsStrictOrderedRing R] {p : Plt R}
  {order : SetOrder} {sigmoid : R → R}
  {base : BaseLearner (R × W) R} {heap : Heap R} {scores : Nat → R}

section Invariant

variable {good : Nat → R → Prop} {I : List (Node R) → List Nat → Prop} {fuel : Nat} {pred : PolyPrediction R}
  {s : PltState W R}

omit [IsStrictOrderedRing R] in
/-- The prediction up to its evaluation. -/
theorem predict_top_k_run (hI : BestInvariant p sigmoid good I) (hbase : Answers base good) (htop_k : 0 < p.top_k)
    (hfuel : potential p.kary p.ti 0 < fuel) (hpred : pred.multilabels = []) (labels : List Nat)
    (hs : Asks (p.kary * p.ti + 1) s) :
    ∃ pred' s' queue, predict_top_k p sigmoid base heap fuel pred labels s =
        (evaluate_top_k p pred' labels >>= fun _ => pure pred') s' ∧
      I queue pred'.multilabels ∧ pred'.multilabels.length ≤ p.top_k ∧
      (pred'.multilabels.length = p.top_k ∨ queue = []) ∧ Asks (p.kary * p.ti + 1) s' := by
  obtain ⟨x, s₁, hx, hroot, hasks⟩ := (@predict_node_run _ _ _ sigmoid _ _ _) hbase (succ_pos _) s hs
  obtain ⟨queue, s₂, hpush, hheap, hperm, hasks'⟩ := (@push_nodes_run _ _ _ _ heap) [⟨0, sigmoid x⟩] [] s₁ hasks
    (fun c hc => by
      rw [mem_singleton.mp hc]
      exact succ_pos _) heap.nil
  have hstart : I queue pred.multilabels := by
    rw [hpred]
    exact hI.perm (hI.root x hx) hperm.symm
  obtain ⟨pred', s₃, queue', hsearch, hdone⟩ := (@search_best_run _ _ _ _ _ _ _ _ _ heap) hI hbase fuel hstart hheap
    (by rw [hpred]; exact htop_k) hasks' (by rw [potential_perm hperm]; exact hfuel)
  refine ⟨pred', s₃, queue', ?_, hdone⟩
  have hpush' : push_node heap [] ⟨0, sigmoid x⟩ s₁ = .returned queue s₂ := by
    rw [← hpush, foldlM_cons, bind_run]
    rfl
  unfold predict_top_k
  rw [bind_run, hroot]
  dsimp only
  rw [bind_run, hpush']
  dsimp only
  rw [bind_run, hsearch]

omit [IsStrictOrderedRing R] in
theorem predict_threshold_run (hI : ThresholdInvariant p sigmoid good I) (hbase : Answers base good) (hti : 0 < p.ti)
    (hfuel : potential p.kary p.ti 0 < fuel) (hpred : pred.multilabels = []) (labels : List Nat)
    (hs : Asks (p.kary * p.ti + 1) s) :
    ∃ pred' s', predict_threshold p sigmoid base fuel pred labels s = .returned pred' s' ∧ I [] pred'.multilabels ∧
      Asks (p.kary * p.ti + 1) s' := by
  obtain ⟨x, s₁, hx, hroot, hasks⟩ := (@predict_node_run _ _ _ sigmoid _ _ _) hbase (succ_pos _) s hs
  -- the queue with the root, or without it
  obtain ⟨queue, s₂, hpush, hqueue, hinner, hpotential, hasks'⟩ : ∃ queue s₂,
      push_root p (sigmoid x) s₁ = .returned queue s₂ ∧ I queue pred.multilabels ∧
      (∀ q ∈ queue, q.n < p.ti) ∧ potential_sum p.kary p.ti queue < fuel ∧ Asks (p.kary * p.ti + 1) s₂ := by
    rw [hpred]
    unfold push_root
    by_cases hopen : p.threshold < sigmoid x
    · rw [if_pos hopen]
      refine ⟨_, _, rfl, hI.root x hx hopen, fun q hq => ?_, hfuel, hasks.pushed (succ_pos _)⟩
      rw [mem_singleton.mp hq]
      exact hti
    · rw [if_neg hopen]
      exact ⟨[], s₁, rfl, hI.no_root x hx hopen, fun q hq => (nomatch hq), zero_lt_of_lt hfuel, hasks⟩
  obtain ⟨pred', s₃, hsearch, hlabels, hasks''⟩ := search_run hI hbase hqueue hinner hasks' hpotential
  obtain ⟨_, s₄, hevaluate, hevaluated⟩ :=
    (evaluate_threshold_asks pred' labels : Call.Finishes _ _ _ fun _ => False).returns hasks''
  refine ⟨pred', s₄, ?_, hlabels, hevaluated⟩
  unfold predict_threshold
  rw [bind_run, hroot]
  dsimp only
  rw [bind_run, hpush]
  dsimp only
  rw [bind_run, hsearch]
  dsimp only
  rw [bind_run, hevaluate]
  rfl

end Invariant

/-- What a prediction gives. -/
structure Exact (p : Plt R) (prob : Nat → R) (s : PltState W R) : Prop where
  nodup : s.run.ec.pred.multilabels.Nodup
  threshold : p.top_k = 0 → ∀ l, l ∈ s.run.ec.pred.multilabels ↔ l < p.k ∧ p.threshold <
    product p.kary prob (l + p.ti)
  top_k : 0 < p.top_k → s.run.ec.pred.multilabels.length = min p.top_k p.k ∧
    (∀ l ∈ s.run.ec.pred.multilabels, l < p.k) ∧
    s.run.ec.pred.multilabels.Pairwise
      (fun l l' => product p.kary prob (l' + p.ti) ≤ product p.kary prob (l + p.ti)) ∧
    ∀ l ∈ s.run.ec.pred.multilabels, ∀ l' < p.k, l' ∉ s.run.ec.pred.multilabels →
      product p.kary prob (l' + p.ti) ≤ product p.kary prob (l + p.ti)
  asked : ∀ a ∈ s.run.asked, a.index < p.t
  queued : ∀ n ∈ s.data.queued, n < p.t

end Exact

section Predict

variable {W R : Type} [Field R] [LinearOrder R] [IsStrictOrderedRing R] {p : Plt R}
  {order : SetOrder} {sigmoid : R → R}
  {base : BaseLearner (R × W) R} {heap : Heap R} {scores : Nat → R}

/-- The prediction is stored, and the label is back. -/
def PltState.finished (s : PltState W R) (multilabels : List Nat) (pred : PolyPrediction R) : PltState W R where
  run := { s.run with ec := { s.run.ec with pred := pred, l := { s.run.ec.l with multilabels := multilabels } } }
  data := { s.data with ec_count := s.data.ec_count + 1 }

omit [IsStrictOrderedRing R] in
/-- A prediction, around the search. -/
theorem predict_run (ht : 0 < p.t) (hn : p.t ≤ p.kary * p.ti + 1) {s : PltState W R}
    (hs : Asks (p.kary * p.ti + 1) s) :
    ∃ (pred : PolyPrediction R) (s₁ : PltState W R), pred.multilabels = [] ∧ Asks (p.kary * p.ti + 1) s₁ ∧
      ∀ fuel, predict p order sigmoid base heap fuel s =
        (predict_labels p sigmoid base heap fuel pred (true_labels p s.run.ec.l.multilabels) >>= fun pred =>
          modify fun s' => s'.finished s.run.ec.l.multilabels pred) s₁ := by
  have hmoved : Asks (p.kary * p.ti + 1) { s with run := { s.run with ec := { s.run.ec with
      l := { s.run.ec.l with multilabels := [] }, pred :=
        { s.run.ec.pred with a_s := [], multilabels := [] } } } } := hs
  obtain ⟨loss, s₁, hloss, hasks⟩ := ((@evaluate_loss_asks _ _ _ _ order base _ _) ht hn s.run.ec.l.multilabels :
    Call.Finishes _ _ _ fun _ => False).returns hmoved
  refine ⟨{ s.run.ec.pred with a_s := if p.probabilities then [] else s.run.ec.pred.a_s, multilabels := [] },
    { s₁ with run := { s₁.run with ec := { s₁.run.ec with loss := loss } } }, rfl, hasks, fun fuel => ?_⟩
  unfold predict
  show (evaluate_loss p order base s.run.ec.l.multilabels >>= _) _ = _
  rw [bind_run, hloss]
  rfl

end Predict

/-- The prediction of an example with the true labels `multilabels` is an exact search. -/
def PredictsExactly (R : Type) [Field R] [LinearOrder R] [IsStrictOrderedRing R]
    (k kary top_k : Nat) (multilabels : List Nat) :
    Prop :=
  ∀ (W : Type) (threshold : R) (probabilities : Bool) (order : SetOrder) (sigmoid : R → R)
    (base : BaseLearner (R × W) R)
    (heap : Heap R) (scores : Nat → R), Scored base scores → (∀ n, 0 < sigmoid (scores n) ∧ sigmoid (scores n) < 1) →
    ∀ s : PltState W R, s.run.ec.l.multilabels = multilabels → s.run.asked = [] → s.data.queued = [] →
    ∃ p, plt_setup k kary top_k threshold probabilities = some p ∧ ∃ m, ∀ fuel ≥ m, ∃ s',
      predict p order sigmoid base heap fuel s = .returned () s' ∧ Exact p (fun n => sigmoid (scores n)) s'

section Exactly

variable {R : Type} [Field R] [LinearOrder R] [IsStrictOrderedRing R] {k kary top_k : Nat} {multilabels : List Nat}

omit [Field R] [LinearOrder R] [IsStrictOrderedRing R] in
theorem true_labels_eq_nil {p : Plt R} : true_labels p multilabels = [] ↔ ∀ l ∈ multilabels, p.k ≤ l := by
  unfold true_labels
  rw [dedup_eq_nil, filter_eq_nil_iff]
  refine forall₂_congr fun l _ => ?_
  rw [decide_eq_true_eq, not_lt]

theorem predicts_exactly (hk : 2 ≤ k) (hkary : 2 ≤ kary) (hdvd : kary - 1 ∣ k - 1)
    (hsize : k + (k - 1) / (kary - 1) < 2 ^ 32) (hlabels : top_k ≤ k ∨ ∀ l ∈ multilabels, k ≤ l) :
      PredictsExactly R k kary top_k multilabels := by
  intro W threshold probabilities order sigmoid base heap scores hscored hprob s hs_labels hs_asked hs_queued
  have hsized : Sized k kary _ _ := (@plt_tree_sized _ _ _ top_k threshold probabilities) hk hkary
  refine ⟨_, plt_setup_eq_some.mpr ⟨(hsized.lt_iff hkary hdvd).mpr hsize, rfl⟩, ?_⟩
  have hp_k : (plt_tree k kary top_k threshold probabilities).k = k := rfl
  have hp_kary : (plt_tree k kary top_k threshold probabilities).kary = kary := rfl
  have hp_top_k : (plt_tree k kary top_k threshold probabilities).top_k = top_k := rfl
  generalize plt_tree k kary top_k threshold probabilities = p at *
  subst hp_k hp_kary hp_top_k
  have hti := hsized.inner_pos hk
  have hlast := (@Sized.mul_inner_eq _ p.ti) hkary
  have hfull := hsized.dvd_iff.mp hdvd
  have hnodes := hsized.nodes
  have hcount : leaf_count p = p.k := by
    unfold leaf_count
    omega
  have hn : p.kary * p.ti + 1 = p.t := by omega
  have hstart : Asks (p.kary * p.ti + 1) s := by
    refine ⟨fun a ha => ?_, fun m hm => ?_⟩
    · rw [hs_asked] at ha
      cases ha
    · rw [hs_queued] at hm
      cases hm
  obtain ⟨pred, s₁, hpred, hasks, hpredict⟩ := (@predict_run _ _ _ _ _ order sigmoid base heap)
    (by omega : 0 < p.t) (le_of_eq hn.symm) hstart
  have hkary_pos : 0 < p.kary := by omega
  refine ⟨potential p.kary p.ti 0 + 1, fun fuel hfuel => ?_⟩
  rw [hpredict fuel]
  unfold predict_labels
  by_cases htop_k : 0 < p.top_k
  · rw [if_pos htop_k]
    obtain ⟨pred', s₂, queue, hrun, hlargest, hlength, hdone, hasks'⟩ := (@predict_top_k_run _ _ _ _ _ _ _ heap)
      (largest_best hkary_pos hprob) hscored htop_k hfuel hpred (true_labels p s.run.ec.l.multilabels) hasks
    have htop := hlargest.top_k hkary_pos hprob hlength hdone
    have hevaluable : true_labels p s.run.ec.l.multilabels = [] ∨ p.top_k ≤ pred'.multilabels.length := by
      rw [hs_labels, true_labels_eq_nil, htop.length, hcount]
      exact hlabels.symm.imp_right fun hle => Nat.le_min.mpr ⟨Nat.le_refl _, hle⟩
    obtain ⟨_, s₃, hevaluate, hasks''⟩ :=
      (evaluate_top_k_asks hevaluable : Call.Finishes _ _ _ fun _ => False).returns hasks'
    refine ⟨s₃.finished s.run.ec.l.multilabels pred', ?_,
      ⟨htop.nodup, fun hzero => by omega, fun _ => ⟨?_, ?_, htop.sorted, ?_⟩, ?_, ?_⟩⟩
    · rw [bind_run, hrun, bind_run, hevaluate]
      rfl
    · exact htop.length.trans (by rw [hcount])
    · rw [← hcount]
      exact htop.inside
    · rw [← hcount]
      exact htop.largest
    · rw [← hn]
      exact hasks''.1
    · rw [← hn]
      exact hasks''.2
  · rw [if_neg htop_k]
    obtain ⟨pred', s₂, hrun, hfrontier, hasks'⟩ :=
      predict_threshold_run (frontier_threshold hkary_pos hprob) hscored hti
      hfuel hpred (true_labels p s.run.ec.l.multilabels) hasks
    refine ⟨s₂.finished s.run.ec.l.multilabels pred', ?_,
      ⟨hfrontier.nodup, fun _ l => ?_, fun hpositive => absurd hpositive htop_k, ?_, ?_⟩⟩
    · rw [bind_run, hrun]
      rfl
    · refine (hfrontier.mem_iff l).trans (and_congr_left fun _ => ?_)
      omega
    · rw [← hn]
      exact hasks'.1
    · rw [← hn]
      exact hasks'.2

/-! ## Where it is not -/

/-- A base learner with fixed scores. -/
def fixed_scores (scores : Nat → R) : BaseLearner (R × Unit) R where
  learn _ ec w := (⟨ec.pred, ec.partial_prediction, ec.loss⟩, w)
  predict n ec w := (⟨ec.pred, scores n, ec.loss⟩, w)

/-- A heap that is kept sorted. -/
def sorted_heap : Heap R where
  is_heap queue := queue.Pairwise fun x y => x.p ≤ y.p
  push_heap queue := queue.insertionSort fun x y => x.p ≤ y.p
  pop_heap queue := queue
  nil := List.Pairwise.nil
  push {queue} x _ := by
    have htotal : Std.Total fun x y : Node R => x.p ≤ y.p := ⟨fun x y => le_total x.p y.p⟩
    have htrans : IsTrans (Node R) fun x y => x.p ≤ y.p := ⟨fun _ _ _ => le_trans⟩
    exact ⟨pairwise_insertionSort _ _, perm_insertionSort _ _⟩
  pop {queue} hheap hne := by
    obtain ⟨rest, x, rfl⟩ := (eq_nil_or_concat queue).resolve_left hne
    rw [concat_eq_append] at hheap ⊢
    obtain ⟨hrest, -, hlast⟩ := pairwise_append.mp hheap
    refine ⟨rest, x, rfl, hrest, List.Perm.refl _, fun y hy => ?_⟩
    rcases mem_append.mp hy with hy | hy
    · exact hlast y hy x (mem_singleton_self x)
    · rw [mem_singleton.mp hy]

/-- An example with labels. -/
def labelled (multilabels : List Nat) : PltState Unit R :=
  ⟨⟨(0, ()), ⟨⟨0, ⟨0, 1⟩, ⟨[], 0⟩, multilabels⟩, 1, ⟨0, [], 0, []⟩, 0, 0, ⟨0, 0⟩⟩, []⟩, ⟨[], [], [], 0, 0, 0, 0, []⟩⟩

omit [Field R] [LinearOrder R] [IsStrictOrderedRing R] in
theorem scored_fixed_scores (scores : Nat → R) : Scored (fixed_scores scores) scores := fun _ _ _ => rfl

/-- The probabilities that lead to node `x` alone: half for the nodes above it, less for the others. -/
noncomputable def leading (kary x : Nat) (n : Nat) : R :=
  open Classical in if (forest kary).Above n x then 1 / 2 else product kary (fun _ => 1 / 2) x / 2

theorem product_half_pos (kary x : Nat) : (0 : R) < product kary (fun _ => 1 / 2) x :=
  product_pos (fun _ => ⟨by norm_num, by norm_num⟩) x

theorem product_le_last {kary : Nat} {prob : Nat → R} (hprob : ∀ n, 0 < prob n ∧ prob n < 1) (n : Nat) :
    product kary prob n ≤ prob n := by
  by_cases hn : n = 0
  · subst hn
    rw [product_zero]
  · have hparent : (forest kary).parent n = some ((n - 1) / kary) := if_neg hn
    rw [product_of_parent hparent]
    have hone : product kary prob ((n - 1) / kary) ≤ 1 :=
      le_trans (product_le_of_above hprob (above_root _)) (by rw [product_zero]; exact le_of_lt (hprob 0).2)
    exact mul_le_of_le_one_left (le_of_lt (hprob n).1) hone

theorem leading_probabilities (kary x : Nat) : Probabilities (leading (R := R) kary x) := by
  intro n
  have hpositive := product_half_pos (R := R) kary x
  have hle : product kary (fun _ => (1 / 2 : R)) x ≤ 1 / 2 := product_le_last (fun _ => ⟨by norm_num, by norm_num⟩) x
  unfold leading
  split
  · exact ⟨by norm_num, by norm_num⟩
  · exact ⟨by linarith, by linarith⟩

omit [LinearOrder R] [IsStrictOrderedRing R] in
theorem product_leading {x n : Nat} (h : (forest kary).Above n x) :
    product kary (leading (R := R) kary x) n = product kary (fun _ => 1 / 2) n := by
  induction n using Nat.strong_induction_on with
  | _ n ih =>
    have hself : leading (R := R) kary x n = 1 / 2 := if_pos h
    by_cases hn : n = 0
    · subst hn
      rw [product_zero, product_zero, hself]
    · have hparent : (forest kary).parent n = some ((n - 1) / kary) := if_neg hn
      have hlt : (n - 1) / kary < n := (forest kary).rank_lt hparent
      rw [product_of_parent hparent, product_of_parent hparent, hself,
        ih _ hlt ((Forest.above_parent hparent).trans h)]

/-- Other leaves have less. -/
theorem product_leading_lt {kary ti x n : Nat} (hn : ti ≤ n) (hx : x ≤ kary * ti) (hne : n ≠ x) :
    product kary (leading (R := R) kary x) n < product kary (leading (R := R) kary x) x := by
  have hnot : ¬ (forest kary).Above n x := fun habove => hne (eq_of_leaf habove hn hx)
  have hself : leading (R := R) kary x n = product kary (fun _ => 1 / 2) x / 2 := if_neg hnot
  have hle := (@product_le_last _ _ _ _ kary _) (leading_probabilities (R := R) kary x) n
  have hpositive := product_half_pos (R := R) kary x
  rw [hself] at hle
  rw [product_leading (Forest.Above.refl x)]
  linarith

/-- The labels of a prediction that returns. -/
theorem predicted_labels {W : Type} {p : Plt R} {order : SetOrder} {base : BaseLearner (R × W) R}
    {heap : Heap R} {prob : Nat → R}
    (hkary : 0 < p.kary) (hti : 0 < p.ti) (ht : 0 < p.t) (hn : p.t ≤ p.kary * p.ti + 1) (hscored : Scored base prob)
    (hprob : Probabilities prob) {s s' : PltState W R} (hs : Asks (p.kary * p.ti + 1) s) {fuel : Nat}
    (hfuel : potential p.kary p.ti 0 < fuel) (hrun : predict p order id base heap fuel s = .returned () s') :
    (p.top_k = 0 → ∀ l, l ∈ s'.run.ec.pred.multilabels ↔ l + p.ti ≤ p.kary * p.ti ∧
      p.threshold < product p.kary prob (l + p.ti)) ∧
      (0 < p.top_k → TopK p prob s'.run.ec.pred.multilabels ∧
        (true_labels p s.run.ec.l.multilabels = [] ∨ p.top_k ≤ s'.run.ec.pred.multilabels.length)) := by
  obtain ⟨pred, s₁, hpred, hasks, hpredict⟩ := (@predict_run _ _ _ _ _ order id base heap) ht hn hs
  rw [hpredict fuel] at hrun
  unfold predict_labels at hrun
  refine ⟨fun hzero => ?_, fun hpositive => ?_⟩
  · rw [if_neg (by omega)] at hrun
    obtain ⟨pred', s₂, hsearch, hfrontier, -⟩ :=
      (@predict_threshold_run _ _ _ _ _ id) (frontier_threshold hkary hprob)
      hscored hti hfuel hpred (true_labels p s.run.ec.l.multilabels) hasks
    rw [bind_run, hsearch] at hrun
    cases hrun
    exact hfrontier.mem_iff
  · rw [if_pos hpositive] at hrun
    obtain ⟨pred', s₂, queue, hsearch, hlargest, hlength, hdone, hasks'⟩ := (@predict_top_k_run _ _ _ _ _ id _ heap)
      (largest_best hkary hprob) hscored hpositive hfuel hpred (true_labels p s.run.ec.l.multilabels) hasks
    have htop := hlargest.top_k hkary hprob hlength hdone
    rw [bind_run, hsearch] at hrun
    by_cases hevaluable : true_labels p s.run.ec.l.multilabels = [] ∨ p.top_k ≤ pred'.multilabels.length
    · obtain ⟨_, s₃, hevaluate, -⟩ :=
        (evaluate_top_k_asks hevaluable : Call.Finishes _ _ _ fun _ => False).returns hasks'
      rw [bind_run, hevaluate] at hrun
      cases hrun
      exact ⟨htop, hevaluable⟩
    · obtain ⟨hne, hmissing⟩ := not_or.mp hevaluable
      rw [bind_run, evaluate_top_k_undefined hne (Nat.lt_of_not_le hmissing)] at hrun
      cases hrun

/-- Only when the last inner node is full is the prediction exact, and only with as many
    labels as are evaluated. -/
theorem of_predicts_exactly (hk : 2 ≤ k) (hkary : 2 ≤ kary) (h : PredictsExactly R k kary top_k multilabels) :
    kary - 1 ∣ k - 1 ∧ k + (k - 1) / (kary - 1) < 2 ^ 32 ∧ (top_k ≤ k ∨ ∀ l ∈ multilabels, k ≤ l) := by
  have hsized : Sized k kary _ _ := (@plt_tree_sized _ _ _ top_k ((0 : R)) false) hk hkary
  obtain ⟨x, hx⟩ : ∃ x, x = kary * (plt_tree k kary top_k (0 : R) false).ti := ⟨_, rfl⟩
  obtain ⟨p', hp', m, hm⟩ :=
    h Unit 0 false ⟨id, List.Perm.refl⟩ id (fixed_scores (leading kary x)) sorted_heap
    (leading kary x)
    (scored_fixed_scores _) (leading_probabilities kary x) (labelled multilabels) rfl rfl rfl
  obtain ⟨hlt, rfl⟩ := plt_setup_eq_some.mp hp'
  have hp_k : (plt_tree k kary top_k (0 : R) false).k = k := rfl
  have hp_kary : (plt_tree k kary top_k (0 : R) false).kary = kary := rfl
  have hp_top_k : (plt_tree k kary top_k (0 : R) false).top_k = top_k := rfl
  have hp_threshold : (plt_tree k kary top_k (0 : R) false).threshold = 0 := rfl
  clear hp'
  generalize plt_tree k kary top_k (0 : R) false = p at *
  subst hp_k hp_kary hp_top_k
  have hti := hsized.inner_pos hk
  have hlast := (@Sized.mul_inner_eq _ p.ti) hkary
  have hnodes := hsized.nodes
  have henough := hsized.enough
  have hstart : Asks (p.kary * p.ti + 1) (labelled multilabels : PltState Unit R) :=
    ⟨fun a ha => (nomatch ha), fun m hm => (nomatch hm)⟩
  obtain ⟨s', hrun, hexact⟩ := hm (max m (potential p.kary p.ti 0 + 1)) (Nat.le_max_left _ _)
  obtain ⟨hthreshold, htop_k⟩ := predicted_labels (by omega) hti (by omega) (by omega) (scored_fixed_scores _)
    (leading_probabilities p.kary x) hstart (Nat.lt_of_lt_of_le (lt_succ_self _) (Nat.le_max_right _ _)) hrun
  -- the last child of the last inner node would be predicted
  have hfull : (p.kary - 1) * p.ti = p.k - 1 := by
    by_contra hne
    have hleaf : x - p.ti + p.ti = x := Nat.sub_add_cancel (by omega)
    have hphantom : p.k ≤ x - p.ti := by omega
    rcases Nat.eq_zero_or_pos p.top_k with hzero | hpositive
    · have hmem : x - p.ti ∈ s'.run.ec.pred.multilabels := by
        rw [hthreshold hzero, hleaf, hp_threshold]
        exact ⟨Nat.le_of_eq hx, product_pos (leading_probabilities p.kary x) x⟩
      have hlt := ((hexact.threshold hzero _).mp hmem).1
      omega
    · obtain ⟨htop, -⟩ := htop_k hpositive
      have hlength := htop.length
      have hcount : x - p.ti < leaf_count p := (lt_leaf_count (by omega) _).mpr (by rw [hleaf, hx])
      obtain ⟨l, hl⟩ := exists_mem_of_length_pos (l := s'.run.ec.pred.multilabels) (by omega)
      have hinside := (hexact.top_k hpositive).2.1
      have hnot : x - p.ti ∉ s'.run.ec.pred.multilabels :=
        fun hmem => absurd (hinside _ hmem) (Nat.not_lt.mpr hphantom)
      have hle := htop.largest l hl _ hcount hnot
      have hlt := hinside l hl
      rw [hleaf] at hle
      exact absurd hle (not_le.mpr
        ((@product_leading_lt _ _ _ _ _ p.ti _ _) (Nat.le_add_left _ _) (Nat.le_of_eq hx)
        (by omega)))
  have hdvd := hsized.dvd_iff.mpr hfull
  refine ⟨hdvd, (hsized.lt_iff hkary hdvd).mp hlt, ?_⟩
  rcases Nat.eq_zero_or_pos p.top_k with hzero | hpositive
  · exact .inl (by omega)
  · obtain ⟨htop, hevaluable⟩ := htop_k hpositive
    rcases hevaluable with hnil | hle
    · exact .inr (true_labels_eq_nil.mp hnil)
    · have hlength := (hexact.top_k hpositive).1
      exact .inl (by omega)

end Exactly

end VW.LabelTree
