import KVStore.Raft.Node
import KVStore.Server.GoEngine
import Mathlib.Data.List.Induction
import Mathlib.Data.List.Nodup

namespace KVStore
namespace Server

open Decimal Raft

/-!
# Addresses of the nodes

`distributed_server` has no configuration of addresses.  Each node derives the ports from
the position of the IDs in a list, as `NewCluster` of `node/raft/cluster.go` does, but in a
list of its own:  itself first, and then the peers that it was started with.  So each node
takes the base port for itself, and no two of them agree.
-/

/-! ## The maps -/

/-- `fmt.Sprintf("localhost:%d", port)`. -/
def address (port : Int) : Bytes := text "localhost:" ++ showInt port

/-- The loop that fills the map `peerAddrs`.  An ID that comes again gets another address. -/
def peerAddrs (basePort : Int) (nodes : List NodeID) : NodeID -> Option Bytes :=
  nodes.zipIdx.foldl (fun addrs node =>
    Function.update addrs node.1 (some (address (basePort + node.2)))) fun _ => none

/-- The map of `NewCluster`. -/
def clusterAddrs (nodeIDs : List NodeID) (basePort : Int) : NodeID -> Option Bytes :=
  peerAddrs basePort nodeIDs

/-- The list of peers from the flag `-peers`. -/
def peerList (peers : Bytes) : List NodeID := if peers ≠ [] then peers.splitOn 44 else []

/-- The map of a node of `distributed_server`, from its flags. -/
def serverAddrs (nodeID : NodeID) (peers : Bytes) (basePort : Int) : NodeID -> Option Bytes :=
  peerAddrs basePort (nodeID :: peerList peers)

/-- The flag `-peers` that `start_cluster.sh` passes to a node:  the other IDs, in the order of
the list. -/
def peersFlag (ids : List NodeID) (id : NodeID) : Bytes :=
  [44].intercalate (ids.filter fun other => decide (other ≠ id))

/-- The map of a node of a list. -/
def nodeAddrs (ids : List NodeID) (basePort : Int) (id : NodeID) : NodeID -> Option Bytes :=
  serverAddrs id (peersFlag ids id) basePort

/-! ## Positions -/

theorem peerAddrs_snoc (basePort : Int) (nodes : List NodeID) (last : NodeID) :
    peerAddrs basePort (nodes ++ [last]) =
      Function.update (peerAddrs basePort nodes) last (some (address (basePort + nodes.length))) := by
  simp [peerAddrs, List.zipIdx_append]

/-- An address comes from a position of its ID. -/
theorem position_of_peerAddrs {basePort : Int} {nodes : List NodeID} {id : NodeID} {found : Bytes}
    (assigned : peerAddrs basePort nodes id = some found) :
    Exists fun position : Nat => nodes[position]? = some id ∧
        found = address (basePort + position) := by
  induction nodes using List.reverseRecOn with
  | nil => cases assigned
  | append_singleton nodes last ih =>
      rw [peerAddrs_snoc] at assigned
      by_cases same : id = last
      · subst same
        rw [Function.update_self, Option.some.injEq] at assigned
        exact ⟨nodes.length, by simp, assigned.symm⟩
      · rw [Function.update_of_ne same] at assigned
        rcases ih assigned with ⟨position, there, shape⟩
        have inside : position < nodes.length := (List.getElem?_eq_some_iff.mp there).1
        exact ⟨position, by rw [List.getElem?_append_left inside, there], shape⟩

/-- The first ID has the base port, unless it comes again. -/
theorem peerAddrs_head {first : NodeID} {others : List NodeID} (once : first ∉ others)
    (basePort : Int) :
    peerAddrs basePort (first :: others) first = some (address basePort) := by
  induction others using List.reverseRecOn with
  | nil => simp [peerAddrs]
  | append_singleton others last ih =>
      rw [List.mem_append, not_or, List.mem_singleton] at once
      rw [← List.cons_append, peerAddrs_snoc, Function.update_of_ne once.2]
      exact ih once.1

theorem address_injective {port other : Int} (same : address port = address other) : port = other :=
  showInt_injective (List.append_cancel_left same)

/-! ## The flags -/

/-- All nodes have the same map, with an address of its own for each ID, and the map is that of
`NewCluster`. -/
def SameAddresses (ids : List NodeID) (basePort : Int) : Prop :=
  (forall node, node ∈ ids -> forall other, other ∈ ids -> forall id, id ∈ ids ->
      nodeAddrs ids basePort node id = nodeAddrs ids basePort other id) ∧
    (forall node, node ∈ ids -> forall id, id ∈ ids -> forall other, other ∈ ids -> id ≠ other ->
      nodeAddrs ids basePort node id ≠ nodeAddrs ids basePort node other) ∧
    forall node, node ∈ ids -> forall id, id ∈ ids ->
      nodeAddrs ids basePort node id = clusterAddrs ids basePort id

/-- This is so for the clusters of at most one node, and for no others. -/
theorem same_addresses_iff (ids : List NodeID) (distinct : ids.Nodup) (basePort : Int) :
    SameAddresses ids basePort <-> ids.length ≤ 1 := by
  constructor
  · rintro ⟨_, _, asCluster⟩
    by_contra several
    rcases ids with _ | ⟨first, _ | ⟨second, others⟩⟩
    · exact several (Nat.zero_le 1)
    · exact several (Nat.le_refl 1)
    · -- The second node has the base port for itself, and not for the first one.
      have once : first ∉ second :: others := (List.nodup_cons.mp distinct).1
      have inCluster : clusterAddrs (first :: second :: others) basePort first =
          some (address basePort) :=
        peerAddrs_head once basePort
      have atSecond := asCluster second (by simp) first (by simp)
      rw [inCluster] at atSecond
      rcases position_of_peerAddrs atSecond with ⟨position, there, shape⟩
      have ports := address_injective shape
      have zero : position = 0 := by omega
      rw [zero, List.getElem?_cons_zero, Option.some.injEq] at there
      exact once (there ▸ List.mem_cons_self)
  · intro few
    rcases ids with _ | ⟨first, _ | ⟨second, others⟩⟩
    · exact ⟨by simp, by simp, by simp⟩
    · have alone : nodeAddrs [first] basePort first = clusterAddrs [first] basePort := by
        simp [nodeAddrs, serverAddrs, peersFlag, peerList, clusterAddrs]
      refine ⟨?_, ?_, ?_⟩
      · simp
      · simp
      · simp [alone]
    · exact absurd few (by simp)

/-- A single node. -/
theorem same_addresses_iff_single : SameAddresses [[97]] 9000 <-> [[(97 : UInt8)]].length ≤ 1 :=
  same_addresses_iff [[97]] (List.nodup_singleton _) 9000

/-- Of two nodes, each takes the base port for itself and gives the next one to the other. -/
theorem addresses_differ :
    nodeAddrs [text "node1", text "node2"] 9000 (text "node1") (text "node2") =
      some (text "localhost:9001") ∧
      nodeAddrs [text "node1", text "node2"] 9000 (text "node2") (text "node2") =
          some (text "localhost:9000") := by
  decide +kernel

end Server
end KVStore
