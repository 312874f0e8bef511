import VowpalWabbit.SpanningTree.Server
import VowpalWabbit.SpanningTree.Shape

/-! # Clusters

    What the server has accepted of a cluster, since it last built a tree for the nonce, is
    recorded beside its own arrays. As long as the clients of a nonce mean the same cluster,
    the array of the nonce is this record.
-/

open Cpp

namespace VW.SpanningTree

open List Outcome Function

variable {p : Platform}

/-- The number of nodes that the first client announced, and the clients accepted so far. -/
structure Cluster where
  total : Nat
  accepted : List (Nat × Client) := []

namespace Cluster

def ids (c : Cluster) : List Nat := c.accepted.map Prod.fst

def clients (c : Cluster) : List Client := c.accepted.map Prod.snd

/-- The cluster that a handshake belongs to. -/
def of (c : Option Cluster) (h : Handshake) : Cluster := c.getD ⟨h.total, []⟩

/-- The cluster with the client of a handshake that was accepted. -/
def accept (c : Cluster) (h : Handshake) (ok : Bool) : Cluster :=
  if ok then { c with accepted := c.accepted ++ [(h.id, h.client)] } else c

end Cluster

/-! ## The record of an array -/

/-- The array of a nonce holds what is recorded of its cluster. -/
structure Records (q : Partial) (c : Cluster) : Prop where
  length : q.nodes.length = c.total
  filled : q.filled = c.accepted.length
  nodup : c.ids.Nodup
  mem : ∀ i client, (i, client) ∈ c.accepted ↔ q.nodes[i]? = some client ∧ client.client_ip ≠ no_ip

namespace Records

variable {q : Partial} {c : Cluster}

theorem allocated (total : Nat) : Records ⟨List.replicate total ⟨no_ip, 0⟩, 0⟩ ⟨total, []⟩ := by
  refine ⟨length_replicate, rfl, nodup_nil, fun i client => ?_⟩
  rw [getElem?_replicate]
  constructor
  · intro h
    cases h
  · rintro ⟨h, hip⟩
    split at h
    · cases h
      exact absurd rfl hip
    · cases h

theorem mem_ids (h : Records q c) {i : Nat} :
    i ∈ c.ids ↔ ∃ client, q.nodes[i]? = some client ∧ client.client_ip ≠ no_ip := by
  unfold Cluster.ids
  rw [mem_map]
  constructor
  · rintro ⟨⟨j, client⟩, hmem, rfl⟩
    exact ⟨client, (h.mem _ _).mp hmem⟩
  · rintro ⟨client, hclient⟩
    exact ⟨(i, client), (h.mem _ _).mpr hclient, rfl⟩

theorem lt_of_mem_ids (h : Records q c) {i : Nat} (hi : i ∈ c.ids) : i < c.total := by
  obtain ⟨client, hclient, -⟩ := h.mem_ids.mp hi
  rw [← h.length]
  exact (List.getElem?_eq_some_iff.mp hclient).1

/-- A slot is free when its id has not been accepted. -/
theorem free_iff (h : Records q c) {i : Nat} {node : Client} (hnode : q.nodes[i]? = some node) :
    node.client_ip = no_ip ↔ i ∉ c.ids := by
  rw [h.mem_ids]
  constructor
  · rintro hip ⟨client, hclient, hne⟩
    rw [hnode] at hclient
    cases hclient
    exact hne hip
  · intro hnot
    by_contra hip
    exact hnot ⟨node, hnode, hip⟩

theorem length_le (h : Records q c) : c.accepted.length ≤ c.total := by
  have hsub : c.ids ⊆ range c.total := fun i hi => mem_range.mpr (h.lt_of_mem_ids hi)
  have hle := (subperm_of_subset h.nodup hsub).length_le
  rwa [length_range, Cluster.ids, length_map] at hle

/-- All ids are accepted when there are as many clients as slots. -/
theorem full_iff (h : Records q c) : (∀ i < c.total, i ∈ c.ids) ↔ q.filled = q.nodes.length := by
  have hsub : c.ids ⊆ range c.total := fun i hi => mem_range.mpr (h.lt_of_mem_ids hi)
  have hsubperm := subperm_of_subset h.nodup hsub
  have hlength : c.ids.length = q.filled := by
    rw [h.filled, Cluster.ids, length_map]
  rw [h.length]
  constructor
  · intro hall
    have hperm := hsubperm.antisymm
      (subperm_of_subset nodup_range fun i hi => hall i (mem_range.mp hi))
    rw [← hlength, hperm.length_eq, length_range]
  · intro hfull i hi
    have hperm := hsubperm.perm_of_length_le (by rw [length_range, hlength, hfull])
    exact hperm.mem_iff.mpr (mem_range.mpr hi)

/-- A full array holds the accepted clients. -/
theorem nodes_perm (h : Records q c) (hfull : q.filled = q.nodes.length) : q.nodes.Perm c.clients := by
  have hperm : c.ids.Perm (range c.total) := by
    have hsub : c.ids ⊆ range c.total := fun i hi => mem_range.mpr (h.lt_of_mem_ids hi)
    refine (subperm_of_subset h.nodup hsub).perm_of_length_le ?_
    rw [length_range, ← h.length, ← hfull, h.filled, Cluster.ids, length_map]
  -- both lists are the slots, in the order of the ids and in that of the acceptances
  have hclients : c.clients = c.ids.map fun i => q.nodes.getD i ⟨no_ip, 0⟩ := by
    unfold Cluster.clients Cluster.ids
    rw [map_map]
    apply map_congr_left
    rintro ⟨i, client⟩ hmem
    have hslot := ((h.mem i client).mp hmem).1
    simp only [comp_apply, getD_eq_getElem?_getD, hslot, Option.getD_some]
  have hnodes : q.nodes = (range c.total).map fun i => q.nodes.getD i ⟨no_ip, 0⟩ := by
    rw [← h.length]
    apply ext_getElem
    · rw [length_map, length_range]
    · intro i hi _
      simp [hi]
  exact (List.Perm.of_eq hnodes).trans ((hperm.map _).symm.trans (List.Perm.of_eq hclients.symm))

/-- A client is entered at a free slot. -/
theorem enter (h : Records q c) {handshake : Handshake} (hlt : handshake.id < q.nodes.length)
    (hfree : handshake.id ∉ c.ids) (hip : handshake.client.client_ip ≠ no_ip) :
    Records ⟨q.nodes.set handshake.id handshake.client, q.filled + 1⟩ (c.accept handshake true) := by
  have haccept : c.accept handshake true =
      { c with accepted := c.accepted ++ [(handshake.id, handshake.client)] } := rfl
  rw [haccept]
  constructor
  · exact length_set.trans h.length
  · show q.filled + 1 = (c.accepted ++ [(handshake.id, handshake.client)]).length
    rw [length_append, length_singleton, h.filled]
  · show ((c.accepted ++ [(handshake.id, handshake.client)]).map Prod.fst).Nodup
    rw [map_append, map_singleton, nodup_append]
    refine ⟨h.nodup, nodup_singleton _, ?_⟩
    rintro i hi j hj rfl
    rw [mem_singleton] at hj
    subst hj
    exact hfree hi
  · intro i client
    show (i, client) ∈ c.accepted ++ [(handshake.id, handshake.client)] ↔
      (q.nodes.set handshake.id handshake.client)[i]? = some client ∧ client.client_ip ≠ no_ip
    rw [mem_append, mem_singleton, h.mem]
    by_cases hi : i = handshake.id
    · subst hi
      rw [getElem?_set_self hlt]
      constructor
      · rintro (⟨hclient, hne⟩ | heq)
        · exact absurd (h.mem_ids.mpr ⟨client, hclient, hne⟩) hfree
        · cases heq
          exact ⟨rfl, hip⟩
      · rintro ⟨hclient, -⟩
        cases hclient
        exact .inr rfl
    · rw [getElem?_set_ne (Ne.symm hi)]
      constructor
      · rintro (hslot | heq)
        · exact hslot
        · cases heq
          exact absurd rfl hi
      · exact .inl

end Records

/-! ## One handshake -/

/-- A tree over all nodes: every node reaches the root, which has no parent. -/
def IsTree (total : Nat) (parent : List Int) : Prop :=
  parent.length = total ∧ ∃ root < total, parent[root]? = some (-1) ∧
    ∀ i < total, Reaches parent root 0 total i

theorem make_tree_spec {nodes : List Client} {total : Nat} (hpos : 0 < total)
    (hlength : nodes.length = total) (hsorts : Cpp.Consistent sort_answer nodes) :
    (make_tree p nodes total).Returns fun tree =>
      tree.clients.Perm nodes ∧ IsTree total tree.parent := by
  unfold make_tree
  rw [if_neg (by omega)]
  dsimp only
  obtain ⟨⟨root, parent, kid_count⟩, hrun, hbuilt⟩ := @build_tree_spec p.floor_log2 total
    (replicate total 0) (replicate total 0) 0 hpos
    (by rw [length_replicate, Nat.zero_add]) (by rw [length_replicate, Nat.zero_add])
  obtain ⟨hroot, hparent, -, -, hreaches⟩ := hbuilt
  dsimp only at hroot hparent hreaches
  rw [Nat.zero_add] at hroot hreaches
  rw [length_replicate] at hparent
  obtain ⟨clients, hsort, hperm⟩ := hsorts.sorts
  rw [take_of_length_le hlength.le, hsort, ok_bind, hrun, ok_bind]
  dsimp only
  rw [update_nth_of_lt (by omega), ok_bind]
  refine ⟨_, rfl, hperm, ?_, root, hroot.2, ?_, ?_⟩
  · exact length_set.trans hparent
  · exact getElem?_set_self (by omega)
  · intro i hi
    exact (hreaches i (Nat.zero_le i) hi).congr fun j _ _ hne => getElem?_set_ne (Ne.symm hne)

/-- The loop stays in the array when there is a free slot to find in it. -/
theorem still_waiting_safe {nodes : List Client} {free : Nat} {node : Client}
    (hfree : nodes[free]? = some node) (hip : node.client_ip = no_ip) (m : Nat) :
    ∀ {first : Nat}, first ≤ free →
      (still_waiting nodes (List.range' first m)).Returns fun _ => True := by
  induction m with
  | zero => exact fun _ => ⟨none, rfl, trivial⟩
  | succ m ih =>
    intro first hle
    have hlt : first < nodes.length := hle.trans_lt (List.getElem?_eq_some_iff.mp hfree).1
    rw [range'_succ, still_waiting, nth_eq_ok.mpr (getElem?_eq_getElem hlt), ok_bind]
    by_cases hhere : nodes[first].client_ip = no_ip
    · rw [if_pos hhere]
      exact ⟨_, rfl, trivial⟩
    · rw [if_neg hhere]
      apply ih
      rcases Nat.lt_or_eq_of_le hle with h | h
      · exact h
      · subst h
        rw [getElem?_eq_getElem hlt] at hfree
        cases hfree
        exact absurd hip hhere

/-- The slot of the client of a handshake is there and free. -/
def Partial.accepting (q : Partial) (h : Handshake) : Bool :=
  decide (h.id < h.total) && (q.nodes[h.id]?.map fun node => decide (node.client_ip = no_ip)) == some true

/-- The number of clients after a handshake. -/
def Partial.filled_after (q : Partial) (h : Handshake) : Nat :=
  if q.accepting h then q.filled + 1 else q.filled

/-- The slots after a handshake. -/
def Partial.nodes_after (q : Partial) (h : Handshake) : List Client :=
  if q.accepting h then q.nodes.set h.id h.client else q.nodes

/-- The array that a handshake is about, allocated where there was none. -/
def pending (partial_nodesets : Nat → Option Partial) (h : Handshake) : Partial :=
  (partial_nodesets h.nonce).getD ⟨replicate h.total ⟨no_ip, 0⟩, 0⟩

/-- The number of nodes in a handshake does no harm: for a new nonce there is one, and memory
    for them; for an array, an id below it is one of the array, and the clients are complete
    for the one when they are for the other. The address is not the mark of a free slot, and
    `socket_sort` orders the clients when they are complete. -/
structure Consistent (p : Platform) (partial_nodesets : Nat → Option Partial) (h : Handshake) : Prop where
  address : h.client.client_ip ≠ no_ip
  new : partial_nodesets h.nonce = none → h.total ≠ 0 ∧ p.calloc h.total = true
  id : h.id < h.total → h.id < (pending partial_nodesets h).nodes.length
  complete : (pending partial_nodesets h).filled_after h = h.total ↔
    (pending partial_nodesets h).filled_after h = (pending partial_nodesets h).nodes.length
  sorts : (pending partial_nodesets h).filled_after h = h.total →
    Cpp.Consistent sort_answer ((pending partial_nodesets h).nodes_after h)

section Handle

variable {q : Partial} {c : Cluster} {h : Handshake}

theorem Records.accepts_eq (hq : Records q c) (hid : h.id < h.total → h.id < q.nodes.length) :
    accepts q.nodes h = .ok (q.accepting h) ∧
      (q.accepting h = true ↔ h.id < h.total ∧ h.id ∉ c.ids) := by
  unfold accepts Partial.accepting
  by_cases hlt : h.id < h.total
  · have hnode := getElem?_eq_getElem (hid hlt)
    rw [if_pos hlt, nth_eq_ok.mpr hnode, ok_bind, hnode, ← hq.free_iff hnode]
    constructor
    · simp [hlt]
    · simp [hlt]
  · rw [if_neg hlt]
    simp [hlt]

/-- Entering the client of a handshake. -/
theorem Records.enter_eq (hq : Records q c) (hid : h.id < h.total → h.id < q.nodes.length)
    (haddress : h.client.client_ip ≠ no_ip) :
    ∃ q', SpanningTree.enter (q.accepting h) q h = .ok q' ∧ Records q' (c.accept h (q.accepting h)) ∧
      q'.filled = q.filled_after h ∧ q'.nodes = q.nodes_after h ∧ q'.nodes.length = q.nodes.length := by
  unfold SpanningTree.enter Partial.filled_after Partial.nodes_after
  have haccepting := (hq.accepts_eq hid).2
  cases hok : q.accepting h with
  | false => exact ⟨q, rfl, hq, rfl, rfl, rfl⟩
  | true =>
    obtain ⟨hlt, hfree⟩ := haccepting.mp hok
    refine ⟨⟨q.nodes.set h.id h.client, q.filled + 1⟩, ?_, hq.enter (hid hlt) hfree haddress, rfl, rfl,
      length_set⟩
    rw [if_pos rfl, update_nth_of_lt (hid hlt)]
    rfl

end Handle

/-! ## The server -/

/-- The arrays of the server and the record of what it did. -/
structure State where
  partial_nodesets : Nat → Option Partial := fun _ => none
  clusters : Nat → Option Cluster := fun _ => none

/-- The cluster that a handshake belongs to, recorded or new. -/
def State.cluster (s : State) (h : Handshake) : Cluster := Cluster.of (s.clusters h.nonce) h

/-- The record after a handshake. When its tree is built a cluster is done with. -/
def State.record (s : State) (h : Handshake) (r : (Nat → Option Partial) × Reply) : State where
  partial_nodesets := r.1
  clusters := update s.clusters h.nonce
    (if r.2.tree.isSome then none else some ((s.cluster h).accept h r.2.ok))

/-- Every array is recorded, and none is full. -/
def State.Inv (s : State) : Prop :=
  ∀ nonce, (s.partial_nodesets nonce = none ∧ s.clusters nonce = none) ∨
    ∃ q c, s.partial_nodesets nonce = some q ∧ s.clusters nonce = some c ∧ Records q c ∧
      q.filled < q.nodes.length

/-- How the server answers a handshake. -/
structure Answered (s : State) (h : Handshake) (r : (Nat → Option Partial) × Reply) : Prop where
  /-- The client is accepted unless its id is not one of a node or has been accepted before. -/
  ok : r.2.ok = true ↔ h.id < h.total ∧ h.id ∉ (s.cluster h).ids
  id : r.2.ok = true → h.id < (s.cluster h).total
  /-- A tree is built when all ids have been accepted, -/
  tree : r.2.tree.isSome ↔ ∀ i < (s.cluster h).total, i ∈ ((s.cluster h).accept h r.2.ok).ids
  /-- over the clients that have been. -/
  clients : ∀ tree, r.2.tree = some tree →
    tree.clients.Perm ((s.cluster h).accept h r.2.ok).clients ∧
      IsTree (s.cluster h).total tree.parent

variable {s : State} {h : Handshake}

/-- The array of a handshake is recorded. -/
theorem State.Inv.pending (hinv : s.Inv) (hcons : Consistent p s.partial_nodesets h) :
    find_or_allocate p s.partial_nodesets h = .ok (pending s.partial_nodesets h) ∧
    Records (SpanningTree.pending s.partial_nodesets h) (s.cluster h) ∧
    0 < (SpanningTree.pending s.partial_nodesets h).nodes.length := by
  unfold find_or_allocate SpanningTree.pending State.cluster Cluster.of
  rcases hinv h.nonce with ⟨hnone, hcluster⟩ | ⟨q, c, hsome, hcluster, hq, hroom⟩
  · obtain ⟨htotal, hcalloc⟩ := hcons.new hnone
    rw [hnone, hcluster]
    refine ⟨?_, Records.allocated h.total, ?_⟩
    · unfold allocate
      rw [if_pos (.inr hcalloc)]
      rfl
    · show 0 < (replicate h.total _).length
      rw [length_replicate]
      exact Nat.pos_of_ne_zero htotal
  · rw [hsome, hcluster]
    exact ⟨rfl, hq, Nat.zero_lt_of_lt hroom⟩

/-- What a handshake that is consistent with its array does: the server answers, unless it
    cannot send, and the record goes on. -/
theorem handle_spec (hinv : s.Inv) (hcons : Consistent p s.partial_nodesets h) :
    (handle p s.partial_nodesets h).Ends (h.sent = false) fun r =>
      Answered s h r ∧ (s.record h r).Inv := by
  obtain ⟨hstart, hq, hpos⟩ := hinv.pending hcons
  obtain ⟨haccepts, haccepting⟩ := hq.accepts_eq hcons.id
  obtain ⟨q', henter, hq', hfilled, hafter, hlength⟩ := hq.enter_eq hcons.id hcons.address
  unfold handle
  rw [hstart, ok_bind]
  dsimp only
  rw [haccepts, ok_bind]
  by_cases hsent : h.sent = false
  · rw [if_pos hsent]
    exact hsent
  rw [if_neg hsent, henter, ok_bind]
  -- the array is full exactly when the number in the message is reached
  have hcomplete := hcons.complete
  rw [← hfilled, ← hlength] at hcomplete
  have hfull := hq'.full_iff
  have htotal : ((s.cluster h).accept h ((pending s.partial_nodesets h).accepting h)).total =
      (s.cluster h).total := by
    unfold Cluster.accept
    split
    · rfl
    · rfl
  rw [htotal] at hfull
  have hid : (pending s.partial_nodesets h).accepting h = true → h.id < (s.cluster h).total := by
    intro hok
    rw [← hq.length]
    exact hcons.id (haccepting.mp hok).1
  by_cases hall : q'.filled = h.total
  · rw [if_neg (not_not.mpr hall)]
    have hnodes := hcomplete.mp hall
    obtain ⟨tree, hrun, hperm, htree⟩ := @make_tree_spec p q'.nodes h.total
      (by rw [← hall, hnodes, hlength]; exact hpos) (by rw [← hall, hnodes])
      (hafter ▸ hcons.sorts (hfilled.symm.trans hall))
    rw [hrun, ok_bind]
    constructor
    · refine ⟨haccepting, hid, ⟨fun _ => hfull.mpr hnodes, fun _ => rfl⟩, ?_⟩
      rintro _ ⟨⟩
      refine ⟨hperm.trans (hq'.nodes_perm hnodes), ?_⟩
      rw [← htotal, ← hq'.length, ← hnodes, hall]
      exact htree
    · intro nonce
      by_cases hnonce : nonce = h.nonce
      · subst hnonce
        exact .inl ⟨update_self _ _ _, update_self _ _ _⟩
      · have hother := hinv nonce
        rw [← update_of_ne hnonce none s.partial_nodesets,
          ← update_of_ne hnonce none s.clusters] at hother
        exact hother
  · rw [if_pos hall]
    have hroom : q'.filled < q'.nodes.length := by
      have hle := hq'.length_le
      rw [← hq'.filled, ← hq'.length] at hle
      exact Nat.lt_of_le_of_ne hle fun heq => hall (hcomplete.mpr heq)
    -- a free slot ends the loop before the end of the array
    obtain ⟨free, hlt, hnot⟩ : ∃ i < (s.cluster h).total,
        i ∉ ((s.cluster h).accept h ((pending s.partial_nodesets h).accepting h)).ids := by
      by_contra hnone
      push Not at hnone
      exact Nat.ne_of_lt hroom (hfull.mp hnone)
    have hfree : free < q'.nodes.length := by rw [hq'.length, htotal]; exact hlt
    have hslot : q'.nodes[free]? = some q'.nodes[free] := getElem?_eq_getElem hfree
    obtain ⟨_, hwaiting, -⟩ := still_waiting_safe hslot ((hq'.free_iff hslot).mpr hnot) h.total
      (Nat.zero_le free)
    rw [range_eq_range', hwaiting, ok_bind]
    constructor
    · refine ⟨haccepting, hid, ⟨fun hsome => ?_, fun hids => ?_⟩, ?_⟩
      · cases hsome
      · exact absurd (hfull.mp hids) (Nat.ne_of_lt hroom)
      · intro tree htree
        cases htree
    · intro nonce
      by_cases hnonce : nonce = h.nonce
      · subst hnonce
        exact .inr ⟨q', _, update_self _ _ _, update_self _ _ _, hq', hroom⟩
      · have hother := hinv nonce
        rw [← update_of_ne hnonce none s.partial_nodesets,
          ← update_of_ne hnonce (some q') (Function.update s.partial_nodesets h.nonce none),
          ← update_of_ne hnonce
            (some ((s.cluster h).accept h ((pending s.partial_nodesets h).accepting h))) s.clusters] at hother
        exact hother

/-- The handshakes of clients that are consistent with the arrays of their nonces, in any
    order. -/
def server (p : Platform) : Refinement.System State Handshake where
  step s h s' := Consistent p s.partial_nodesets h ∧
    ∃ r, handle p s.partial_nodesets h = .ok r ∧ s' = s.record h r

/-- What every handshake keeps. -/
theorem State.Inv.step {s' : State} (hinv : s.Inv) (hstep : (server p).step s h s') : s'.Inv := by
  obtain ⟨hcons, r, hrun, rfl⟩ := hstep
  have hends := handle_spec hinv hcons
  rw [hrun] at hends
  exact hends.2

/-- After any run of consistent handshakes the next one never leaves an array. The server
    answers it, unless the answer cannot be sent: it accepts a client when its id has not been
    accepted of the cluster before, and it builds a tree exactly when all ids have been, over
    exactly the clients that were. -/
theorem clusters_kept_apart {hs : List Handshake}
    (hrun : Refinement.Run (server p) {} hs s) (hcons : Consistent p s.partial_nodesets h) :
    (handle p s.partial_nodesets h).Ends (h.sent = false) (Answered s h) := by
  have hinv : s.Inv := hrun.invariant State.Inv (fun _ _ _ hinv hstep => hinv.step hstep)
    fun _ => .inl ⟨rfl, rfl⟩
  exact (handle_spec hinv hcons).mono id fun _ hr => hr.1

/-- A platform with memory for a thousand clients. -/
def small_platform : Platform where
  floor_log2 := FloorLog2.exact
  calloc total := total ≤ 1000

/-- Two clients of a nonce. -/
def first_of_two : Handshake := ⟨⟨16777343, 5⟩, 1, 2, 0, true⟩

def second_of_two : Handshake := ⟨⟨16777343, 6⟩, 1, 2, 1, true⟩

/-- The first one waits, and the second one completes the cluster. -/
theorem clusters_kept_apart_two_nodes :
    ∃ r r', handle small_platform (fun _ => none) first_of_two = .ok r ∧ r.2.tree = none ∧
      handle small_platform r.1 second_of_two = .ok r' ∧ ∃ tree, r'.2.tree = some tree ∧
        tree.clients.Perm [⟨16777343, 5⟩, ⟨16777343, 6⟩] ∧ IsTree 2 tree.parent := by
  obtain ⟨r, hr, htree, hok, harray⟩ : ∃ r, handle small_platform (fun _ => none) first_of_two = .ok r ∧
      r.2.tree = none ∧ r.2.ok = true ∧ r.1 1 = some ⟨[⟨16777343, 5⟩, ⟨no_ip, 0⟩], 1⟩ := ⟨_, rfl, rfl, rfl, rfl⟩
  have hfirst : (server small_platform).step {} first_of_two (State.record {} first_of_two r) :=
    ⟨⟨by decide, fun _ => ⟨by decide, by decide⟩,
      fun _ => by decide, by decide, fun h => absurd h (by decide)⟩, r, hr, rfl⟩
  have hpending : pending r.1 second_of_two = ⟨[⟨16777343, 5⟩, ⟨no_ip, 0⟩], 1⟩ :=
    congrArg (fun q : Option Partial => q.getD _) harray
  have hcluster : (State.record {} first_of_two r).cluster second_of_two = ⟨2, [(0, ⟨16777343, 5⟩)]⟩ := by
    show Cluster.of (update (fun _ => none) 1 (if r.2.tree.isSome then none else _) 1) second_of_two = _
    rw [update_self, htree, hok]
    rfl
  have hsecond : Consistent small_platform (State.record {} first_of_two r).partial_nodesets second_of_two := by
    show Consistent small_platform r.1 second_of_two
    constructor
    · decide
    · exact fun hnone => nomatch harray.symm.trans hnone
    · rw [hpending]
      decide
    · rw [hpending]
      decide
    · rw [hpending]
      decide
  have hends := clusters_kept_apart (.cons hfirst (.nil _)) hsecond
  obtain ⟨r', hr', hanswered⟩ := hends.returns (by decide)
  have hok' : r'.2.ok = true := hanswered.ok.mpr (by rw [hcluster]; decide)
  have hcomplete := hanswered.tree
  rw [hcluster, hok'] at hcomplete
  obtain ⟨tree, htree'⟩ := Option.isSome_iff_exists.mp (hcomplete.mpr (by decide))
  have hclients := hanswered.clients tree htree'
  rw [hcluster, hok'] at hclients
  exact ⟨r, r', hr, htree, hr', tree, htree', hclients⟩

/-- The first client of a nonce announces two nodes, the second one ten: its id `5` is a slot
    outside of the array. -/
theorem other_total_leaves_array :
    ∃ r, handle small_platform (fun _ => none) ⟨⟨16777343, 5⟩, 1, 2, 0, true⟩ = .ok r ∧
      handle small_platform r.1 ⟨⟨16777343, 6⟩, 1, 10, 5, true⟩ = undefined :=
  ⟨_, rfl, rfl⟩

end VW.SpanningTree
