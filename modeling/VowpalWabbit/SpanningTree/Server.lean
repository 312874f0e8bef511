import VowpalWabbit.Framework.Merging
import VowpalWabbit.Framework.Refinement
import VowpalWabbit.SpanningTree.Tree

/-! # The server of the spanning trees

    `spanning_tree::run`: clients announce the nonce of their cluster, the number of its nodes
    and their own id. The server keeps an array of the clients of each nonce until it is
    complete and then builds their tree. The array is allocated for the number that the first
    client of the nonce announces; all else is decided by the number in the message at hand.

    The messages to the terminal and the ports that the server passes on are left out.
-/

open Cpp

namespace VW.SpanningTree

/-! ## The code -/

structure Client where
  client_ip : BitVec 32
  socket : BitVec 32
  deriving DecidableEq

/-- `static_cast<uint32_t>(-1)`, the address in a free slot. -/
def no_ip : BitVec 32 := BitVec.allOnes 32

structure Partial where
  nodes : List Client
  filled : Nat
  deriving DecidableEq

/-- `socket_sort`, an `int`. -/
def socket_sort (socket1 socket2 : Client) : BitVec 32 :=
  if socket1.client_ip ≠ socket2.client_ip then socket1.client_ip - socket2.client_ip
  else socket1.socket - socket2.socket

/-- What `qsort` makes of the answer of `socket_sort`. -/
def sort_answer (socket1 socket2 : Client) : Int := (socket_sort socket1 socket2).toInt

/-- What the server finds in its surroundings. -/
structure Platform where
  floor_log2 : FloorLog2
  /-- `calloc` has room for this many clients. -/
  calloc : Nat → Bool

/-- What a client sends, with what is known of its connection. -/
structure Handshake where
  client : Client
  nonce : Nat
  total : Nat
  id : Nat
  /-- What the server sends arrives. -/
  sent : Bool := true

/-- `parent` and `kid_count` for the sorted clients. -/
structure Tree where
  clients : List Client
  parent : List Int
  kid_count : List (BitVec 16)

/-- What a handshake leads to. -/
structure Reply where
  ok : Bool
  tree : Option Tree

variable (p : Platform)

/-- The array of a new nonce. -/
def allocate (total : Nat) : Outcome Partial :=
  if total = 0 ∨ p.calloc total then .ok ⟨List.replicate total ⟨no_ip, 0⟩, 0⟩
  -- without room the loop that clears the slots writes through a null pointer
  else Outcome.undefined

/-- The loop that looks for a free slot to name. -/
def still_waiting (nodes : List Client) : List Nat → Outcome (Option Nat)
  | [] => .ok none
  | i :: is => do
    let node ← nth nodes i
    if node.client_ip = no_ip then .ok (some i) else still_waiting nodes is

/-- The tree of the first `total` clients of an array. -/
def make_tree (nodes : List Client) (total : Nat) : Outcome Tree :=
  if nodes.length < total then
    -- `qsort` leaves the array
    Outcome.undefined
  else do
    let clients ← qsort sort_answer (nodes.take total)
    let (root, parent, kid_count) ←
      build_tree p.floor_log2 (List.replicate total 0) (List.replicate total 0) total 0
    let parent ← update_nth parent root fun _ => -1
    return { clients := clients, parent := parent, kid_count := kid_count }

/-- The slot of the client is taken or not. -/
def accepts (nodes : List Client) (h : Handshake) : Outcome Bool :=
  if h.id < h.total then do
    let node ← nth nodes h.id
    return decide (node.client_ip = no_ip)
  else .ok false

/-- The client is entered. -/
def enter (ok : Bool) (partial_nodeset : Partial) (h : Handshake) : Outcome Partial :=
  if ok then do
    let nodes ← update_nth partial_nodeset.nodes h.id fun _ => h.client
    return ⟨nodes, partial_nodeset.filled + 1⟩
  else .ok partial_nodeset

/-- The array of the nonce of a client. -/
def find_or_allocate (partial_nodesets : Nat → Option Partial) (h : Handshake) : Outcome Partial :=
  match partial_nodesets h.nonce with
  | none => allocate p h.total
  | some partial_nodeset => .ok partial_nodeset

/-- One round of `run`. -/
def handle (partial_nodesets : Nat → Option Partial) (h : Handshake) :
    Outcome ((Nat → Option Partial) × Reply) := do
  let partial_nodeset ← find_or_allocate p partial_nodesets h
  let erased := Function.update partial_nodesets h.nonce none
  let ok ← accepts partial_nodeset.nodes h
  if h.sent = false then Outcome.throw_ "send: "
  else do
    let partial_nodeset ← enter ok partial_nodeset h
    if partial_nodeset.filled ≠ h.total then do
      let _ ← still_waiting partial_nodeset.nodes (List.range h.total)
      return (Function.update erased h.nonce (some partial_nodeset), { ok := ok, tree := none })
    else do
      let tree ← make_tree p partial_nodeset.nodes h.total
      return (erased, { ok := ok, tree := some tree })

end VW.SpanningTree
