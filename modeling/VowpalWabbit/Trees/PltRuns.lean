import VowpalWabbit.Trees.PltSearch

/-! # Runs of the searches

    Both searches return, with any answers of the base learner, and keep what every round keeps.
    When the partial predictions are a function of the node, the labels are those of the leaves
    up to the last child of the last inner node: all of them above the threshold, or the `top_k`
    largest.
-/

open Cpp VW.Trees

namespace VW.LabelTree

open List

variable {W R : Type} [Field R]

/-- No number of `n` or more was asked about or pushed. -/
def Asks (n : Nat) (s : PltState W R) : Prop := Below n s.run ∧ ∀ m ∈ s.data.queued, m < n

/-- What is good of the answers about each node. -/
def Answers (base : BaseLearner (R × W) R) (good : Nat → R → Prop) : Prop :=
  ∀ n ec w, good n (base.predict n ec w).1.partial_prediction

/-- The partial predictions of a base learner are a function of the node. -/
def Scored (base : BaseLearner (R × W) R) (scores : Nat → R) : Prop :=
  ∀ n ec w, (base.predict n ec w).1.partial_prediction = scores n

section Steps

variable {p : Plt R} {sigmoid : R → R} {base : BaseLearner (R × W) R} {good : Nat → R → Prop} {n : Nat}

omit [Field R] in
theorem Asks.pushed {s : PltState W R} (h : Asks n s) {m : Nat} (hm : m < n) :
    Asks n { s with data := { s.data with queued := s.data.queued ++ [m] } } := by
  refine ⟨h.1, fun i hi => ?_⟩
  rcases mem_append.mp hi with hi | hi
  · exact h.2 i hi
  · rw [mem_singleton.mp hi]
    exact hm

omit [Field R] in
theorem on_run_returned {A : Type} {x : Call (State (R × W) R) A} {s : PltState W R} {a : A} {run : State (R × W) R}
    (h : x s.run = .returned a run) : on_run x s = .returned a { s with run := run } := by
  unfold on_run
  rw [h]

theorem predict_node_run (hbase : Answers base good) {i : Nat} (hi : i < n) (s : PltState W R) (hs : Asks n s) :
    ∃ x s', good i x ∧ predict_node sigmoid base i s = .returned (sigmoid x) s' ∧ Asks n s' := by
  refine ⟨_, _, hbase i { s.run.ec with
    l := { s.run.ec.l with simple := FLT_MAX }, simple_label_reduction_features := ⟨1, 0⟩ } s.run.weights, rfl,
    fun a ha => ?_, hs.2⟩
  rcases mem_append.mp ha with hold | hnew
  · exact hs.1 a hold
  · rw [mem_singleton.mp hnew]
    exact hi

omit [Field R] in
theorem multipredict_run (hbase : Answers base good) (lo count : Nat) (hlo : lo + count ≤ n) (run : State (R × W) R)
    (hrun : Below n run) : ∃ (answers : Nat → R) (run' : State (R × W) R), (∀ i, good i (answers i)) ∧
      multipredict base lo count run =
        .returned ((range count).map fun i => answers (lo + i)) run' ∧ Below n run' := by
  unfold multipredict
  induction count with
  | zero => exact ⟨fun i => (base.predict i run.ec run.weights).1.partial_prediction, run,
      fun i => hbase i _ _, rfl, hrun⟩
  | succ count ih =>
    obtain ⟨answers, run', hgood, hrun', hbelow⟩ := ih (by omega)
    have hlast : lo + count < n := by omega
    refine ⟨Function.update answers (lo + count)
      (base.predict (lo + count) run'.ec run'.weights).1.partial_prediction,
      run'.answered false (lo + count) (base.predict (lo + count) run'.ec run'.weights), fun i => ?_, ?_,
      hbelow.answered hlast _⟩
    · by_cases hi : i = lo + count
      · subst hi
        rw [Function.update_self]
        exact hbase _ _ _
      · rw [Function.update_of_ne hi]
        exact hgood i
    · have hmap : ((range count).map fun i => Function.update answers (lo + count)
          (base.predict (lo + count) run'.ec run'.weights).1.partial_prediction (lo + i)) =
          (range count).map fun i => answers (lo + i) := by
        refine map_congr_left fun i hi => Function.update_of_ne ?_ _ _
        rw [mem_range] at hi
        omega
      rw [range_succ, foldlM_append, Call.bind_run, hrun', map_append, hmap, map_singleton, Function.update_self]
      rfl

theorem predict_children_run (hbase : Answers base good) {node : Node R} (hnode : node.n < p.ti) (s : PltState W R)
    (hs : Asks (p.kary * p.ti + 1) s) :
    ∃ (answers : Nat → R) (s' : PltState W R), (∀ i, good i (answers i)) ∧ predict_children p sigmoid base node s =
      .returned (children_of p.kary (fun i => sigmoid (answers i)) node) s' ∧ Asks (p.kary * p.ti + 1) s' := by
  have hle : p.kary * (node.n + 1) ≤ p.kary * p.ti := Nat.mul_le_mul_left p.kary hnode
  rw [Nat.mul_add, Nat.mul_one] at hle
  have htest : Below (p.kary * p.ti + 1) { s.run with ec := { s.run.ec with
      l := { s.run.ec.l with simple := FLT_MAX }, simple_label_reduction_features := ⟨1, 0⟩ } } := hs.1
  obtain ⟨answers, run', hgood, hrun', hbelow⟩ :=
    multipredict_run hbase (p.kary * node.n + 1) p.kary (by omega) _ htest
  refine ⟨answers, { s with run := run' }, hgood, ?_, hbelow, hs.2⟩
  unfold predict_children
  show (on_run (multipredict base (p.kary * node.n + 1) p.kary) >>= _) { s with run := _ } = _
  rw [Call.bind_run, on_run_returned hrun']
  show Ending.returned _ _ = _
  congr 1
  unfold children_of
  refine ext_getElem (by simp) fun i hi hi' => ?_
  simp

/-- The children that a search with a threshold goes into. -/
def inner_children [LinearOrder R] (p : Plt R) (children : List (Node R)) : List (Node R) :=
  (children.filter fun c => p.threshold < c.p).filter fun c => c.n < p.ti

/-- The labels that it finds among the children. -/
def leaf_labels [LinearOrder R] (p : Plt R) (children : List (Node R)) : List Nat :=
  ((children.filter fun c => p.threshold < c.p).filter fun c => ¬ c.n < p.ti).map fun c => c.n - p.ti

omit [Field R] in
theorem visit_children_run [LinearOrder R] (children : List (Node R)) (queue : List (Node R))
    (pred : PolyPrediction R)
    (s : PltState W R) (hs : Asks n s) (hn : ∀ c ∈ children, c.n < n) :
    ∃ pred' s', children.foldlM (visit_child p) (queue, pred) s =
      .returned (queue ++ inner_children p children, pred') s' ∧
      pred'.multilabels = pred.multilabels ++ leaf_labels p children ∧ Asks n s' := by
  unfold inner_children leaf_labels
  induction children generalizing queue pred s with
  | nil =>
    refine ⟨pred, s, ?_, (append_nil _).symm, hs⟩
    show Ending.returned _ _ = _
    rw [filter_nil, filter_nil, append_nil]
  | cons c children ih =>
    rw [forall_mem_cons] at hn
    rw [foldlM_cons, Call.bind_run, filter_cons]
    by_cases hopen : p.threshold < c.p
    · have hvisit : visit_child p (queue, pred) c s = (if c.n < p.ti then do
          let node_queue ← push_back queue c
          pure (node_queue, pred)
        else pure (queue, push_label p pred (c.n - p.ti) c.p) :
          Call (PltState W R) (List (Node R) × PolyPrediction R)) s := by
        unfold visit_child
        rw [if_pos hopen]
      rw [hvisit, if_pos (decide_eq_true hopen), filter_cons, filter_cons]
      by_cases hinner : c.n < p.ti
      · have hnot : ¬ decide (¬ c.n < p.ti) = true := by
          rw [decide_eq_true_eq]
          exact not_not.mpr hinner
        rw [if_pos hinner, if_pos (decide_eq_true hinner), if_neg hnot]
        obtain ⟨pred', s', hrun, hlabels, hasks⟩ := ih (queue ++ [c]) pred _ (hs.pushed hn.1) hn.2
        refine ⟨pred', s', ?_, hlabels, hasks⟩
        rw [← append_cons] at hrun
        exact hrun
      · have hnot : ¬ decide (c.n < p.ti) = true := by
          rw [decide_eq_true_eq]
          exact hinner
        rw [if_neg hinner, if_neg hnot, if_pos (decide_eq_true hinner)]
        obtain ⟨pred', s', hrun, hlabels, hasks⟩ := ih queue (push_label p pred (c.n - p.ti) c.p) s hs hn.2
        refine ⟨pred', s', hrun, ?_, hasks⟩
        rw [hlabels, map_cons]
        exact (append_cons _ _ _).symm
    · have hvisit : visit_child p (queue, pred) c s = .returned (queue, pred) s := by
        unfold visit_child
        rw [if_neg hopen]
        rfl
      have hnot : ¬ decide (p.threshold < c.p) = true := by
        rw [decide_eq_true_eq]
        exact hopen
      rw [hvisit, if_neg hnot]
      exact ih queue pred s hs hn.2

omit [Field R] in
theorem push_nodes_run [LinearOrder R] {heap : Heap R} (children : List (Node R)) (queue : List (Node R))
    (s : PltState W R) (hs : Asks n s) (hn : ∀ c ∈ children, c.n < n) (hheap : heap.is_heap queue) :
    ∃ queue' s', children.foldlM (push_node heap) queue s = .returned queue' s' ∧ heap.is_heap queue' ∧
      queue'.Perm (queue ++ children) ∧ Asks n s' := by
  induction children generalizing queue s with
  | nil => exact ⟨queue, s, rfl, hheap, by rw [append_nil], hs⟩
  | cons c children ih =>
    rw [forall_mem_cons] at hn
    obtain ⟨hheap', hperm⟩ := heap.push c hheap
    obtain ⟨queue', s', hrun, hheap'', hperm', hasks⟩ := ih _ _ (hs.pushed hn.1) hn.2 hheap'
    refine ⟨queue', s', hrun, hheap'', hperm'.trans ((hperm.append_right children).trans ?_), hasks⟩
    rw [append_assoc]
    rfl

end Steps

/-! ## The search with a threshold -/

section Runs

variable [LinearOrder R] [IsStrictOrderedRing R] {p : Plt R} {sigmoid : R → R} {base : BaseLearner (R × W) R}
  {scores : Nat → R} {good : Nat → R → Prop} {I : List (Node R) → List Nat → Prop}

/-- The probabilities of the nodes are between 0 and 1. -/
def Probabilities (prob : Nat → R) : Prop := ∀ n, 0 < prob n ∧ prob n < 1

variable {kary ti : Nat} {prob : Nat → R} {q : Node R} {queue : List (Node R)}

omit [LinearOrder R] [IsStrictOrderedRing R] in
theorem children_inside (hq : q.n < ti) :
    ∀ c ∈ children_of kary prob q, c.n < kary * ti + 1 := by
  intro c hc
  obtain ⟨i, hi, rfl⟩ := mem_map.mp hc
  rw [mem_range] at hi
  have hle : kary * (q.n + 1) ≤ kary * ti := Nat.mul_le_mul_left kary hq
  rw [Nat.mul_add, Nat.mul_one] at hle
  show kary * q.n + 1 + i < kary * ti + 1
  omega

omit [Field R] [LinearOrder R] [IsStrictOrderedRing R] in
theorem potential_append (xs ys : List (Node R)) :
    potential_sum kary ti (xs ++ ys) = potential_sum kary ti xs + potential_sum kary ti ys := by
  unfold potential_sum
  rw [map_append, sum_append]

omit [Field R] [LinearOrder R] [IsStrictOrderedRing R] in
theorem potential_perm {xs ys : List (Node R)} (h : xs.Perm ys) :
    potential_sum kary ti xs = potential_sum kary ti ys := (h.map fun q : Node R => potential kary ti q.n).sum_eq

omit [IsStrictOrderedRing R] in
theorem search_concat {fuel : Nat} {rest children : List (Node R)} {pred : PolyPrediction R}
    {next : List (Node R) × PolyPrediction R} {s s₁ s₂ : PltState W R}
    (hchildren : predict_children p sigmoid base q s = .returned children s₁)
    (hvisit : children.foldlM (visit_child p) (rest, pred) s₁ = .returned next s₂) :
    search p sigmoid base (fuel + 1) (rest ++ [q], pred) s = search p sigmoid base fuel next s₂ := by
  rw [search, getLast?_concat, dropLast_concat]
  dsimp only
  rw [Call.bind_run, hchildren]
  dsimp only
  rw [Call.bind_run, hvisit]

/-- What holds before each round of the search with a threshold. -/
structure ThresholdInvariant (p : Plt R) (sigmoid : R → R) (good : Nat → R → Prop)
    (I : List (Node R) → List Nat → Prop) : Prop where
  root : ∀ x, good 0 x → p.threshold < sigmoid x → I [⟨0, sigmoid x⟩] []
  no_root : ∀ x, good 0 x → ¬ p.threshold < sigmoid x → I [] []
  visit : ∀ {rest q labels} {answers : Nat → R}, (∀ i, good i (answers i)) → I (rest ++ [q]) labels → q.n < p.ti →
    I (rest ++ inner_children p (children_of p.kary (fun i => sigmoid (answers i)) q))
      (labels ++ leaf_labels p (children_of p.kary (fun i => sigmoid (answers i)) q))

omit [IsStrictOrderedRing R] in
/-- The search with a threshold ends when the queue is empty. -/
theorem search_run (hI : ThresholdInvariant p sigmoid good I) (hbase : Answers base good) {fuel : Nat}
    {pred : PolyPrediction R} {s : PltState W R} (h : I queue pred.multilabels) (hinner : ∀ q ∈ queue, q.n < p.ti)
    (hs : Asks (p.kary * p.ti + 1) s) (hfuel : potential_sum p.kary p.ti queue < fuel) :
    ∃ pred' s', search p sigmoid base fuel (queue, pred) s = .returned pred' s' ∧ I [] pred'.multilabels ∧
      Asks (p.kary * p.ti + 1) s' := by
  induction fuel generalizing queue pred s with
  | zero => exact absurd hfuel (Nat.not_lt_zero _)
  | succ fuel ih =>
    rcases eq_nil_or_concat queue with rfl | ⟨rest, q, rfl⟩
    · exact ⟨pred, s, rfl, h, hs⟩
    · rw [concat_eq_append] at h hinner hfuel ⊢
      have hq : q.n < p.ti := hinner q (mem_append_right _ (mem_singleton_self q))
      obtain ⟨answers, s₁, hgood, hrun, hasks⟩ := (@predict_children_run _ _ _ _ sigmoid _ _) hbase hq s hs
      obtain ⟨pred', s₂, hvisit, hlabels, hasks'⟩ :=
        visit_children_run (p := p) _ rest pred s₁ hasks (children_inside hq)
      rw [search_concat hrun hvisit]
      refine ih (hlabels ▸ hI.visit hgood h hq) ?_ hasks' ?_
      · intro c hc
        rcases mem_append.mp hc with hc | hc
        · exact hinner c (mem_append_left _ hc)
        · exact of_decide_eq_true (mem_filter.mp hc).2
      · have hless := (@potential_children _ _ p.kary p.ti (fun i => sigmoid (answers i)) q) hq
          (inner_children p _) ?_
          fun c hc => (mem_filter.mp (mem_filter.mp hc).1).1
        · rw [potential_append] at hfuel ⊢
          have hself : potential_sum p.kary p.ti [q] = potential p.kary p.ti q.n := Nat.add_zero _
          omega
        · refine Nat.le_trans (length_filter_le _ _) (Nat.le_trans (length_filter_le _ _) ?_)
          unfold children_of
          rw [length_map, length_range]

/-- With fixed scores the search goes down to all leaves above the threshold. -/
theorem frontier_threshold (hkary : 0 < p.kary) (hprob : Probabilities fun i => sigmoid (scores i)) :
    ThresholdInvariant p sigmoid (fun i x => x = scores i) (Frontier p.kary p.ti (fun i => sigmoid (scores i))
      fun i => p.threshold < product p.kary (fun i => sigmoid (scores i)) i) where
  root x hx _ := by
    subst hx
    have hzero : product p.kary (fun i => sigmoid (scores i)) 0 = sigmoid (scores 0) := product_zero
    rw [← hzero]
    exact frontier_root
  no_root x hx hclosed := by
    subst hx
    refine ⟨fun q hq => (nomatch hq), fun q hq => (nomatch hq), List.Pairwise.nil, fun l hl => (nomatch hl),
      fun x _ _ hx => ?_⟩
    have hle := product_le_of_above hprob ((@above_root p.kary) x)
    rw [product_zero] at hle
    exact absurd (lt_of_lt_of_le hx hle) hclosed
  visit {rest q labels answers} hgood h hq := by
    obtain rfl : answers = scores := funext hgood
    unfold inner_children leaf_labels
    -- the open children
    generalize hopened :
      ((children_of p.kary (fun i => sigmoid (answers i)) q).filter fun c => p.threshold < c.p) =
      opened
    have hmem : ∀ c ∈ opened, c ∈ children_of p.kary (fun i => sigmoid (answers i)) q := by
      intro c hc
      rw [← hopened] at hc
      exact (mem_filter.mp hc).1
    have hsplit : ((opened.filter fun c => c.n < p.ti) ++ opened.filter fun c => ¬ c.n < p.ti).Perm opened := by
      have hnot : (fun c : Node R => decide (¬ c.n < p.ti)) = fun c => !decide (c.n < p.ti) := by
        funext c
        exact decide_not
      rw [hnot]
      exact filter_append_perm _ opened
    have hexact : ∀ c ∈ children_of p.kary (fun i => sigmoid (answers i)) q,
        c.p = product p.kary (fun i => sigmoid (answers i)) c.n := by
      intro c hc
      obtain ⟨hparent, hp⟩ := mem_children_of hc
      rw [hp, h.exact_ q (mem_append_right _ (mem_singleton_self q)), product_of_parent hparent]
    refine ((h.perm perm_append_comm).expand hkary
      (fun x y habove hy => lt_of_lt_of_le hy (product_le_of_above hprob habove)) hq
      (opened.filter fun c => c.n < p.ti) (opened.filter fun c => ¬ c.n < p.ti)
      (fun c hc => hmem c (hsplit.mem_iff.mp hc)) ?_ ?_ ?_).perm perm_append_comm
    · refine ((hsplit.map Node.n).nodup_iff).mpr ?_
      rw [← hopened]
      exact children_of_nodup.sublist (filter_sublist.map Node.n)
    · intro c hc
      obtain ⟨hc, hleaf⟩ := mem_filter.mp hc
      refine ⟨Nat.le_of_not_lt (of_decide_eq_true hleaf), ?_⟩
      rw [← hexact c (hmem c hc)]
      rw [← hopened] at hc
      exact of_decide_eq_true (mem_filter.mp hc).2
    · intro c hc hc_open
      refine hsplit.mem_iff.mpr ?_
      rw [← hopened]
      refine mem_filter.mpr ⟨hc, decide_eq_true ?_⟩
      rwa [hexact c hc]

/-! ## The search for the largest labels -/

/-- The number of leaves up to the last child of the last inner node. -/
def leaf_count (p : Plt R) : Nat := p.kary * p.ti + 1 - p.ti

/-- The labels that were predicted so far are the largest, in order. -/
structure Largest (p : Plt R) (prob : Nat → R) (queue : List (Node R)) (labels : List Nat) : Prop where
  frontier : Frontier p.kary p.ti prob (fun _ => True) queue labels
  sorted : labels.Pairwise fun l l' => product p.kary prob (l' + p.ti) ≤ product p.kary prob (l + p.ti)
  before : ∀ l ∈ labels, ∀ q ∈ queue, q.p ≤ product p.kary prob (l + p.ti)

/-- The result of the search. -/
structure TopK (p : Plt R) (prob : Nat → R) (labels : List Nat) : Prop where
  length : labels.length = min p.top_k (leaf_count p)
  nodup : labels.Nodup
  inside : ∀ l ∈ labels, l < leaf_count p
  sorted : labels.Pairwise fun l l' => product p.kary prob (l' + p.ti) ≤ product p.kary prob (l + p.ti)
  largest : ∀ l ∈ labels, ∀ l' < leaf_count p, l' ∉ labels → product p.kary prob (l' + p.ti) ≤
    product p.kary prob (l + p.ti)

omit [Field R] [LinearOrder R] [IsStrictOrderedRing R] in
theorem lt_leaf_count (hkary : 0 < p.kary) (l : Nat) : l < leaf_count p ↔ l + p.ti ≤ p.kary * p.ti := by
  have hle : p.ti ≤ p.kary * p.ti := Nat.le_mul_of_pos_left p.ti hkary
  unfold leaf_count
  omega

omit [IsStrictOrderedRing R] in
/-- The order of the queue is of no importance. -/
theorem Largest.perm {queue' : List (Node R)} {labels : List Nat} (h : Largest p prob queue labels)
    (hperm : queue.Perm queue') : Largest p prob queue' labels :=
  ⟨h.frontier.perm hperm, h.sorted, fun l hl q hq => h.before l hl q (hperm.mem_iff.mpr hq)⟩

/-- An inner node is replaced by its children. -/
theorem Largest.expand {prob : Nat → R} {q : Node R} {rest : List (Node R)} {labels : List Nat} (hkary : 0 < p.kary)
    (hprob : Probabilities prob) (h : Largest p prob (q :: rest) labels) (hq : q.n < p.ti) :
    Largest p prob (children_of p.kary prob q ++ rest) labels := by
  have hexpanded := h.frontier.expand hkary (fun _ _ _ _ => trivial) hq (children_of p.kary prob q) []
    (fun c hc => by rwa [append_nil] at hc) (by rw [append_nil]; exact children_of_nodup)
    (fun c hc => nomatch hc) fun c hc _ => by rwa [append_nil]
  rw [map_nil, append_nil] at hexpanded
  refine ⟨hexpanded, h.sorted, fun l hl c hc => ?_⟩
  rcases mem_append.mp hc with hc | hc
  · have hq_le := h.before l hl q mem_cons_self
    obtain ⟨-, hp⟩ := mem_children_of hc
    have hpositive : 0 ≤ q.p := by
      rw [h.frontier.exact_ q mem_cons_self]
      exact le_of_lt (product_pos hprob q.n)
    rw [hp]
    exact le_trans (mul_le_of_le_one_right hpositive (le_of_lt (hprob c.n).2)) hq_le
  · exact h.before l hl c (mem_cons_of_mem _ hc)

omit [IsStrictOrderedRing R] in
/-- A largest node that is a leaf becomes the next label. -/
theorem Largest.emit {rest : List (Node R)} {labels : List Nat}
    (h : Largest p prob (q :: rest) labels) (hq : p.ti ≤ q.n) (hlargest : ∀ r ∈ rest, r.p ≤ q.p) :
    Largest p prob rest (labels ++ [q.n - p.ti]) := by
  have hexact : q.p = product p.kary prob (q.n - p.ti + p.ti) := by
    rw [Nat.sub_add_cancel hq]
    exact h.frontier.exact_ q mem_cons_self
  refine ⟨h.frontier.emit hq trivial, pairwise_append.mpr ⟨h.sorted, pairwise_singleton _ _, fun l hl l' hl' => ?_⟩,
    fun l hl r hr => ?_⟩
  · rw [mem_singleton.mp hl', ← hexact]
    exact h.before l hl q mem_cons_self
  · rcases mem_append.mp hl with hl | hl
    · exact h.before l hl r (mem_cons_of_mem _ hr)
    · rw [mem_singleton.mp hl, ← hexact]
      exact hlargest r hr

omit [LinearOrder R] [IsStrictOrderedRing R] in
/-- When the queue is empty all leaves are labels. -/
theorem Frontier.leaf_count_le {labels : List Nat} (hkary : 0 < p.kary)
    (h : Frontier p.kary p.ti prob (fun _ => True) [] labels) : leaf_count p ≤ labels.length := by
  have hsub : range (leaf_count p) ⊆ labels := by
    intro l hl
    exact (h.mem_iff l).mpr ⟨(lt_leaf_count hkary l).mp (mem_range.mp hl), trivial⟩
  have hle := (subperm_of_subset nodup_range hsub).length_le
  rwa [length_range] at hle

/-- Enough labels are all that are asked for. -/
theorem Largest.top_k {labels : List Nat} (hkary : 0 < p.kary)
    (hprob : Probabilities prob) (h : Largest p prob queue labels) (hlength : labels.length ≤ p.top_k)
    (hdone : labels.length = p.top_k ∨ queue = []) : TopK p prob labels := by
  have hinside : ∀ l ∈ labels, l < leaf_count p := fun l hl => (lt_leaf_count hkary l).mpr (h.frontier.leaves l hl).1
  have hcount : labels.length ≤ leaf_count p := by
    have hle := (subperm_of_subset h.frontier.nodup fun l hl => mem_range.mpr (hinside l hl)).length_le
    rwa [length_range] at hle
  refine ⟨?_, h.frontier.nodup, hinside, h.sorted, fun l hl l' hl' hnot => ?_⟩
  · rcases hdone with heq | hnil
    · omega
    · subst hnil
      have hall := h.frontier.leaf_count_le hkary
      omega
  · rcases h.frontier.covers (l' + p.ti) (Nat.le_add_left _ _)
      ((lt_leaf_count hkary l').mp hl') trivial with hmem | ⟨q, hq, habove⟩
    · rw [Nat.add_sub_cancel] at hmem
      exact absurd hmem hnot
    · have hle := h.before l hl q hq
      rw [h.frontier.exact_ q hq] at hle
      exact le_trans (product_le_of_above hprob habove) hle

/-- What holds before each round of the search for the largest labels. -/
structure BestInvariant (p : Plt R) (sigmoid : R → R) (good : Nat → R → Prop)
    (I : List (Node R) → List Nat → Prop) : Prop where
  root : ∀ x, good 0 x → I [⟨0, sigmoid x⟩] []
  perm : ∀ {queue queue' labels}, I queue labels → queue.Perm queue' → I queue' labels
  expand : ∀ {q rest labels} {answers : Nat → R}, (∀ i, good i (answers i)) → I (q :: rest) labels → q.n < p.ti →
    I (children_of p.kary (fun i => sigmoid (answers i)) q ++ rest) labels
  emit : ∀ {q rest labels}, I (q :: rest) labels → p.ti ≤ q.n → (∀ r ∈ rest, r.p ≤ q.p) →
    I rest (labels ++ [q.n - p.ti])

omit [IsStrictOrderedRing R] in
/-- The search for the `top_k` labels ends with as many, or with an empty queue. -/
theorem search_best_run {heap : Heap R} (hI : BestInvariant p sigmoid good I)
    (hbase : Answers base good) (fuel : Nat)
    {queue : List (Node R)} {pred : PolyPrediction R} {s : PltState W R} (h : I queue pred.multilabels)
    (hheap : heap.is_heap queue) (hlength : pred.multilabels.length < p.top_k) (hs : Asks (p.kary * p.ti + 1) s)
    (hfuel : potential_sum p.kary p.ti queue < fuel) :
    ∃ pred' s' queue', search_best p sigmoid base heap fuel queue pred s = .returned pred' s' ∧
      I queue' pred'.multilabels ∧ pred'.multilabels.length ≤ p.top_k ∧
      (pred'.multilabels.length = p.top_k ∨ queue' = []) ∧ Asks (p.kary * p.ti + 1) s' := by
  induction fuel generalizing queue pred s with
  | zero => exact absurd hfuel (Nat.not_lt_zero _)
  | succ fuel ih =>
    rw [search_best]
    by_cases hnil : queue = []
    · rw [if_pos hnil]
      exact ⟨pred, s, queue, rfl, h, Nat.le_of_lt hlength, .inr hnil, hs⟩
    · rw [if_neg hnil]
      obtain ⟨rest, q, hpop, hheap_rest, hperm, hmax⟩ := heap.pop hheap hnil
      have hpopped : I (q :: rest) pred.multilabels := hI.perm h (hperm.symm.trans perm_append_comm)
      have hpotential : potential_sum p.kary p.ti queue = potential_sum p.kary p.ti rest +
        potential p.kary p.ti q.n := by
        rw [← potential_perm hperm, potential_append]
        rfl
      rw [hpop, getLast?_concat, dropLast_concat]
      dsimp only
      by_cases hinner : q.n < p.ti
      · rw [if_pos hinner]
        obtain ⟨answers, s₁, hgood, hrun, hasks⟩ := (@predict_children_run _ _ _ _ sigmoid _ _) hbase hinner s hs
        obtain ⟨queue', s₂, hpush, hheap', hperm', hasks'⟩ :=
          push_nodes_run _ rest s₁ hasks (children_inside hinner) hheap_rest
        rw [Call.bind_run, hrun]
        dsimp only
        rw [Call.bind_run, hpush]
        refine ih (hI.perm (hI.expand hgood hpopped hinner) (perm_append_comm.trans hperm'.symm))
          hheap' hlength hasks' ?_
        have hless := (@potential_children _ _ p.kary p.ti (fun i => sigmoid (answers i)) q) hinner
          (children_of p.kary (fun i => sigmoid (answers i)) q) ?_ fun c hc => hc
        · rw [potential_perm hperm', potential_append]
          omega
        · unfold children_of
          rw [length_map, length_range]
      · rw [if_neg hinner]
        have hemitted := hI.emit hpopped (Nat.le_of_not_lt hinner) fun r hr =>
          hmax r (hperm.mem_iff.mp (mem_append_left _ hr))
        have hnext : (push_label p pred (q.n - p.ti) q.p).multilabels.length = pred.multilabels.length + 1 :=
          length_append.trans rfl
        by_cases hfull : p.top_k ≤ (push_label p pred (q.n - p.ti) q.p).multilabels.length
        · rw [if_pos hfull]
          have hlast := hnext.trans_le hlength
          exact ⟨_, s, rest, rfl, hemitted, hlast, .inl (Nat.le_antisymm hlast hfull), hs⟩
        · rw [if_neg hfull]
          refine ih hemitted hheap_rest (Nat.lt_of_not_le hfull) hs ?_
          have hpositive : 0 < potential p.kary p.ti q.n := Nat.pow_pos (Nat.succ_pos _)
          omega

/-- With fixed scores it finds the largest labels. -/
theorem largest_best (hkary : 0 < p.kary) (hprob : Probabilities fun i => sigmoid (scores i)) :
    BestInvariant p sigmoid (fun i x => x = scores i) (Largest p fun i => sigmoid (scores i)) where
  root x hx := by
    subst hx
    refine ⟨?_, List.Pairwise.nil, fun l hl => nomatch hl⟩
    have hzero : product p.kary (fun i => sigmoid (scores i)) 0 = sigmoid (scores 0) := product_zero
    rw [← hzero]
    exact frontier_root
  perm h hperm := h.perm hperm
  expand {q rest labels answers} hgood h hq := by
    obtain rfl : answers = scores := funext hgood
    exact h.expand hkary hprob hq
  emit h hq hlargest := h.emit hq hlargest

end Runs

end VW.LabelTree
