import VowpalWabbit.SpanningTree.Server
import Mathlib.Data.List.Pairwise

/-! # The order of the clients

    Before it builds the tree of a cluster the server sorts the clients by address and socket,
    so that the tree does not depend on the order in which they connected. `socket_sort`
    returns the difference of the addresses, or of the sockets, as an `int`: a difference of
    `2 ^ 31` or more changes its sign. A difference of sockets that does not fit has no defined
    value in C++; here it wraps, and its sign is wrong as well.
-/

open Cpp

namespace VW.SpanningTree

open List Client

namespace Client

/-- The ascending order by address and socket. -/
def Before (a b : Client) : Prop :=
  a.client_ip.toNat < b.client_ip.toNat ∨ a.client_ip = b.client_ip ∧ a.socket.toInt < b.socket.toInt

/-- The addresses are less than `2 ^ 31` apart, and so are the sockets of equal addresses. -/
def Near (a b : Client) : Prop :=
  (a.client_ip.toNat < b.client_ip.toNat + 2 ^ 31 ∧ b.client_ip.toNat < a.client_ip.toNat + 2 ^ 31) ∧
    (a.client_ip = b.client_ip →
      a.socket.toInt < b.socket.toInt + 2 ^ 31 ∧ b.socket.toInt < a.socket.toInt + 2 ^ 31)

/-- The place of a client in the ascending order, as a number. -/
def place (c : Client) : Int := c.client_ip.toNat * 2 ^ 32 + c.socket.toInt

variable {a b : Client}

theorem eq_of_parts (hip : a.client_ip.toNat = b.client_ip.toNat) (hsocket : a.socket.toInt = b.socket.toInt) :
    a = b := by
  cases a
  cases b
  rw [mk.injEq]
  exact ⟨BitVec.eq_of_toNat_eq hip, BitVec.eq_of_toInt_eq hsocket⟩

theorem before_iff_place : a.Before b ↔ a.place < b.place := by
  have hips : a.client_ip = b.client_ip ↔ a.client_ip.toNat = b.client_ip.toNat := BitVec.toNat_inj.symm
  have ha := a.socket.toInt_lt
  have hb := b.socket.toInt_lt
  have ha' := a.socket.le_toInt
  have hb' := b.socket.le_toInt
  unfold Before place
  rw [hips]
  omega

theorem eq_of_not_before (hab : ¬ a.Before b) (hba : ¬ b.Before a) : a = b := by
  unfold Before at hab hba
  have hip : a.client_ip = b.client_ip := BitVec.eq_of_toNat_eq (by omega)
  rw [hip] at hab hba
  refine eq_of_parts (congrArg _ hip) ?_
  simp only [true_and, not_or] at hab hba
  omega

theorem Near.symm (h : a.Near b) : b.Near a := ⟨h.1.symm, fun heq => (h.2 heq.symm).symm⟩

/-! ## The sign of the difference -/

/-- The difference of two addresses, with its sign where it fits. -/
theorem toInt_sub_toNat (x y : BitVec 32) : (x - y).toInt =
    if (x.toNat : Int) - y.toNat < - 2 ^ 31 then (x.toNat : Int) - y.toNat + 2 ^ 32
    else if 2 ^ 31 ≤ (x.toNat : Int) - y.toNat then (x.toNat : Int) - y.toNat - 2 ^ 32
    else (x.toNat : Int) - y.toNat := by
  rw [BitVec.toInt_eq_toNat_cond, BitVec.toNat_sub]
  split <;> split <;> omega

/-- The difference of two sockets. -/
theorem toInt_sub_toInt (x y : BitVec 32) : (x - y).toInt =
    if x.toInt - y.toInt < - 2 ^ 31 then x.toInt - y.toInt + 2 ^ 32
    else if 2 ^ 31 ≤ x.toInt - y.toInt then x.toInt - y.toInt - 2 ^ 32
    else x.toInt - y.toInt := by
  rw [BitVec.toInt_sub]
  have hx := x.toInt_lt
  have hy := y.toInt_lt
  have hx' := x.le_toInt
  have hy' := y.le_toInt
  rw [Int.bmod_def]
  split <;> split <;> omega

/-- Near clients compare by address and socket. -/
theorem Near.answer (h : a.Near b) :
    (sort_answer a b < 0 ↔ a.place < b.place) ∧ (0 < sort_answer a b ↔ b.place < a.place) := by
  rw [← before_iff_place, ← before_iff_place]
  obtain ⟨hip, hsocket⟩ := h
  unfold sort_answer socket_sort Before
  by_cases heq : a.client_ip = b.client_ip
  · have hnear := hsocket heq
    rw [if_neg (not_not.mpr heq), toInt_sub_toInt, heq]
    simp only [lt_irrefl, true_and, false_or]
    split
    · omega
    · split <;> omega
  · have hne : a.client_ip.toNat ≠ b.client_ip.toNat := fun h => heq (BitVec.eq_of_toNat_eq h)
    rw [if_pos heq, toInt_sub_toNat]
    simp only [heq, Ne.symm heq, false_and, or_false]
    split
    · omega
    · split <;> omega

/-- A client is answered to come after one that it is near to. -/
theorem Before.near (h : a.Before b) (hba : 0 < sort_answer b a) : a.Near b := by
  unfold sort_answer socket_sort at hba
  rcases h with hlt | ⟨heq, hlt⟩
  · have hne : a.client_ip ≠ b.client_ip := fun h => absurd (congrArg BitVec.toNat h) (Nat.ne_of_lt hlt)
    rw [if_pos hne.symm, toInt_sub_toNat] at hba
    refine ⟨?_, fun h => absurd h hne⟩
    split at hba
    · omega
    · split at hba <;> omega
  · rw [if_neg (not_not.mpr heq.symm), toInt_sub_toInt] at hba
    refine ⟨by rw [heq]; omega, fun _ => ?_⟩
    have ha := a.socket.le_toInt
    have hb := b.socket.toInt_lt
    split at hba
    · omega
    · split at hba <;> omega

end Client

/-! ## What sorting makes of a cluster -/

/-- The comparison is a total order of the clients, and whatever the order in which they
    connected, `qsort` puts them into the ascending one. -/
structure OrdersClients (clients : List Client) : Prop where
  antisymmetric : ∀ a ∈ clients, ∀ b ∈ clients, sort_answer a b < 0 ↔ 0 < sort_answer b a
  transitive : ∀ a ∈ clients, ∀ b ∈ clients, ∀ c ∈ clients,
    sort_answer a b ≤ 0 → sort_answer b c ≤ 0 → sort_answer a c ≤ 0
  total : ∀ a ∈ clients, ∀ b ∈ clients, sort_answer a b ≤ 0 ∨ sort_answer b a ≤ 0
  zero : ∀ a ∈ clients, ∀ b ∈ clients, sort_answer a b = 0 ↔ a = b
  sorted : ∃ ascending : List Client, ascending.Pairwise (fun a b => ¬ b.Before a) ∧
    ∀ connected : List Client, connected.Perm clients → qsort sort_answer connected = .ok ascending

variable {clients : List Client}

/-- There is one ascending order. -/
theorem ascending_unique {xs ys : List Client} (hperm : xs.Perm ys)
    (hxs : xs.Pairwise fun a b => a.place ≤ b.place) (hys : ys.Pairwise fun a b => a.place ≤ b.place) : xs = ys := by
  refine hperm.eq_of_pairwise (fun a b _ _ hab hba => ?_) hxs hys
  refine eq_of_not_before (a := a) (b := b) ?_ ?_
  · rw [before_iff_place]
    omega
  · rw [before_iff_place]
    omega

theorem orders_of_near (h : ∀ a ∈ clients, ∀ b ∈ clients, a.Near b) : OrdersClients clients := by
  have hagrees : Agrees sort_answer place clients := fun a ha b hb => (h a ha b hb).answer
  have hconsistent := hagrees.consistent
  refine ⟨fun a ha b hb => (hconsistent a ha b hb).1, fun a ha b hb c hc => (hconsistent a ha b hb).2 c hc,
    fun a ha b hb => ?_, fun a ha b hb => ?_, ?_⟩
  · have hab := (hagrees a ha b hb).2
    have hba := (hagrees b hb a ha).2
    omega
  · have hab := hagrees a ha b hb
    constructor
    · intro hzero
      refine eq_of_not_before ?_ ?_
      · rw [before_iff_place]
        omega
      · rw [before_iff_place]
        omega
    · rintro rfl
      omega
  · obtain ⟨ascending, _, hperm, hascending⟩ := hagrees.qsort_eq_ok
    refine ⟨ascending, hascending.imp fun hle => ?_, fun connected hconnected => ?_⟩
    · rw [before_iff_place]
      omega
    · have hagrees' : Agrees sort_answer place connected := fun a ha b hb =>
        hagrees a (hconnected.subset ha) b (hconnected.subset hb)
      obtain ⟨ys, hys, hperm', hascending'⟩ := hagrees'.qsort_eq_ok
      rw [hys, ascending_unique ((hperm'.trans hconnected).trans hperm.symm) hascending' hascending]

/-- What is sorted by the answers and ascending was compared rightly. -/
theorem OrdersClients.near (h : OrdersClients clients) {a b : Client} (ha : a ∈ clients) (hb : b ∈ clients)
    (hbefore : a.Before b) : a.Near b := by
  obtain ⟨ascending, hascending, hsorted⟩ := h.sorted
  have hrun := hsorted clients (Perm.refl _)
  have hperm := (qsort_eq_ok hrun).2
  have hne : a ≠ b := by
    rintro rfl
    rcases hbefore with hlt | ⟨_, hlt⟩
    · exact lt_irrefl _ hlt
    · exact lt_irrefl _ hlt
  -- `qsort` leaves the clients in the order of the answers
  let R : Client → Client → Prop := fun x y =>
    (x.Before y → sort_answer x y ≤ 0) ∧ (y.Before x → sort_answer y x ≤ 0)
  have hsymm : Std.Symm R := ⟨fun _ _ h => h.symm⟩
  have hboth : ascending.Pairwise R := hascending.imp₂ (fun _ _ hnot hle => ⟨fun _ => hle, fun h => absurd h hnot⟩)
    (qsort_ordered hrun)
  have hle : sort_answer a b ≤ 0 :=
    (hboth.forall (hperm.symm.subset ha) (hperm.symm.subset hb) hne).1 hbefore
  have hlt : sort_answer a b < 0 := lt_of_le_of_ne hle fun hzero => hne ((h.zero a ha b hb).mp hzero)
  exact hbefore.near ((h.antisymmetric a ha b hb).mp hlt)

/-- The clients of a cluster are sorted into the ascending order, whatever order they connected
    in, exactly when they are all near each other. -/
theorem orders_clients_iff (clients : List Client) :
    OrdersClients clients ↔ ∀ a ∈ clients, ∀ b ∈ clients, a.Near b := by
  constructor
  · intro h a ha b hb
    by_cases hab : a.Before b
    · exact h.near ha hb hab
    · by_cases hba : b.Before a
      · exact (h.near hb ha hba).symm
      · obtain rfl := eq_of_not_before hab hba
        exact ⟨⟨by omega, by omega⟩, fun _ => ⟨by omega, by omega⟩⟩
  · exact orders_of_near

/-- The clients 10.0.0.1, 10.0.0.100 and 10.0.0.200 are each answered to come before the next
    one, and the last one before the first. -/
theorem answers_go_round : ¬ OrdersClients [⟨16777226, 5⟩, ⟨1677721610, 6⟩, ⟨3355443210, 7⟩] := by
  intro h
  have hle := h.transitive _ (by simp) ⟨1677721610, 6⟩ (by simp) ⟨3355443210, 7⟩ (by simp)
    (show sort_answer ⟨16777226, 5⟩ _ ≤ 0 by decide) (by decide)
  exact absurd hle (by decide)

end VW.SpanningTree
