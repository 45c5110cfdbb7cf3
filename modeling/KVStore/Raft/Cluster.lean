import KVStore.Raft.Node
import Mathlib.Logic.Function.Basic
import Mathlib.Data.List.Perm.Basic

namespace KVStore
namespace Raft

open Function

/-!
# A cluster and its runs

The nodes of a cluster, the goroutines that they have started and the messages
under way.  Each goroutine of `startElection` and of `sendHeartbeats` is one
remote call: its request is built at some moment after the start, may be
delivered any number of times or never, and the goroutine goes on at some moment
with one of the responses, or never does.  Delay, loss, duplication and
reordering of messages are all choices of the events of a run.

The goroutines of `startElection` read the term and the log without the lock,
each in its own step and in any order.  The transport carries a request as it
was built.
-/

/-- A cluster in which every node has the other nodes as its peers. -/
structure ClusterConfig where
  ids : List NodeID
  peers : NodeID -> List NodeID
  applyCapacity : NodeID -> Nat
  distinct : ids.Nodup
  others : forall id, id ∈ ids -> (peers id).Perm (ids.erase id)

/-- The goroutine that one election of a node starts for one peer.  `counted`
records that its reply was counted as a vote. -/
structure VoteCall where
  started : Bool
  term : Option Nat
  lastLogIndex : Option Nat
  lastLogTerm : Option Nat
  responses : List RequestVoteResponse
  finished : Bool
  counted : Bool

/-- The request, once all its fields are read. -/
def VoteCall.request (call : VoteCall) (candidateID : NodeID) : Option RequestVoteRequest := do
  let term <- call.term
  let lastLogIndex <- call.lastLogIndex
  let lastLogTerm <- call.lastLogTerm
  return ⟨term, candidateID, lastLogIndex, lastLogTerm⟩

def VoteCall.absent : VoteCall := ⟨false, none, none, none, [], false, false⟩

def VoteCall.spawned : VoteCall := ⟨true, none, none, none, [], false, false⟩

/-- A goroutine that runs `sendAppendEntries`. -/
structure AppendCall where
  leader : NodeID
  peer : NodeID
  request : Option AppendEntriesRequest
  responses : List AppendEntriesResponse
  finished : Bool

/-- A vote that a node has given in a term, be it to itself. -/
structure Grant where
  voter : NodeID
  term : Nat
  candidate : NodeID
  deriving DecidableEq

/-- The state of a cluster.  A goroutine of `startElection` and the counter
`votesReceived` belong to a node and to the term of the election; `grants` is
the history of the votes. -/
structure Cluster where
  nodes : NodeID -> Node
  voteCalls : NodeID -> Nat -> NodeID -> VoteCall
  votesReceived : NodeID -> Nat -> Nat
  appendCalls : List AppendCall
  grants : List Grant

inductive Event where
  | electionTimeout (id : NodeID)
  | heartbeat (id : NodeID)
  | propose (id : NodeID) (command : Bytes)
  | readTerm (id : NodeID) (election : Nat) (peer : NodeID)
  | readLastLogIndex (id : NodeID) (election : Nat) (peer : NodeID)
  | readLastLogTerm (id : NodeID) (election : Nat) (peer : NodeID)
  | deliverVote (id : NodeID) (election : Nat) (peer : NodeID)
  | voteReply (id : NodeID) (election : Nat) (peer : NodeID) (response : Nat)
  | buildAppend (call : Nat)
  | deliverAppend (call : Nat)
  | appendReply (call : Nat) (response : Nat)
  | receive (id : NodeID)

namespace Cluster

def init (config : ClusterConfig) : Cluster where
  nodes := fun id => newNode id (config.peers id) (config.applyCapacity id)
  voteCalls := fun _ _ _ => .absent
  votesReceived := fun _ _ => 0
  appendCalls := []
  grants := []

/-! ## Steps -/

def setNode (s : Cluster) (id : NodeID) (n : Node) : Cluster :=
  { s with nodes := update s.nodes id n }

def setVoteCall (s : Cluster) (id : NodeID) (election : Nat) (peer : NodeID) (call : VoteCall) :
    Cluster :=
  { s with
    voteCalls := update s.voteCalls id (update (s.voteCalls id) election
      (update (s.voteCalls id election) peer call)) }

/-- The goroutines of `sendHeartbeats`. -/
def spawnHeartbeats (s : Cluster) (id : NodeID) : Cluster :=
  { s with appendCalls := s.appendCalls ++ (s.nodes id).peers.map fun peer => ⟨id, peer, none, [], false⟩ }

/-- The election timer fires. -/
def startElection (s : Cluster) (id : NodeID) : Cluster :=
  let n := (s.nodes id).startElection
  { s.setNode id n with
    voteCalls := update s.voteCalls id (update (s.voteCalls id) n.currentTerm
      fun peer => if peer ∈ n.peers then .spawned else .absent)
    votesReceived := update s.votesReceived id (update (s.votesReceived id) n.currentTerm 1)
    grants := ⟨id, n.currentTerm, id⟩ :: s.grants }

def propose (s : Cluster) (id : NodeID) (command : Bytes) : Cluster :=
  (s.setNode id ((s.nodes id).propose command).1).spawnHeartbeats id

/-- The peer handles the request of a goroutine of `startElection`. -/
def deliverVote (s : Cluster) (id : NodeID) (election : Nat) (peer : NodeID)
    (req : RequestVoteRequest) : Cluster :=
  let (n, resp) := (s.nodes peer).handleRequestVote req
  let call := s.voteCalls id election peer
  { (s.setNode peer n).setVoteCall id election peer { call with
      responses := call.responses ++ [resp] } with
    grants := if resp.voteGranted then ⟨peer, req.term, id⟩ :: s.grants else s.grants }

/-- A goroutine of `startElection` goes on with a response. -/
def voteReply (s : Cluster) (id : NodeID) (election : Nat) (peer : NodeID)
    (req : RequestVoteRequest) (resp : RequestVoteResponse) : Cluster :=
  let (n, votes) := (s.nodes id).voteReply (s.votesReceived id election) req resp
  let call := s.voteCalls id election peer
  let after : Cluster :=
    { (s.setNode id n).setVoteCall id election peer
        { call with finished := true, counted := (s.nodes id).countsVote req resp } with
      votesReceived := update s.votesReceived id (update (s.votesReceived id) election votes) }
  if n.state = .leader ∧ (s.nodes id).state ≠ .leader then after.spawnHeartbeats id else after

def setAppendCall (s : Cluster) (index : Nat) (call : AppendCall) : Cluster :=
  { s with appendCalls := s.appendCalls.set index call }

/-- A goroutine of `sendHeartbeats` builds its request, or ends because the node
does not lead any more. -/
def buildAppend (s : Cluster) (index : Nat) (call : AppendCall) : Cluster :=
  s.setAppendCall index
    (match (s.nodes call.leader).appendEntriesFor call.peer with
    | none => { call with finished := true }
    | some req => { call with request := some req })

/-- The peer handles the request of a goroutine of `sendHeartbeats`. -/
def deliverAppend (s : Cluster) (index : Nat) (call : AppendCall) (req : AppendEntriesRequest) :
    Cluster :=
  let (n, resp) := (s.nodes call.peer).handleAppendEntries req
  (s.setNode call.peer n).setAppendCall index { call with responses := call.responses ++ [resp] }

/-- A goroutine of `sendHeartbeats` goes on with a response. -/
def appendReply (s : Cluster) (index : Nat) (call : AppendCall) (req : AppendEntriesRequest)
    (resp : AppendEntriesResponse) : Cluster :=
  (s.setNode call.leader ((s.nodes call.leader).appendEntriesReply call.peer req
    resp)).setAppendCall index { call with finished := true }

def receive (s : Cluster) (id : NodeID) : Cluster :=
  s.setNode id { s.nodes id with applyCh := (s.nodes id).applyCh.receive }

/-- One event.  An event that cannot happen changes nothing. -/
def step (config : ClusterConfig) (s : Cluster) : Event -> Cluster
  | .electionTimeout id => if id ∈ config.ids then s.startElection id else s
  | .heartbeat id =>
      if id ∈ config.ids ∧ (s.nodes id).state = .leader then s.spawnHeartbeats id else s
  | .propose id command =>
      if id ∈ config.ids ∧ (s.nodes id).state = .leader then s.propose id command else s
  | .readTerm id election peer =>
      let call := s.voteCalls id election peer
      if call.started ∧ call.term = none then
        s.setVoteCall id election peer { call with term := some (s.nodes id).currentTerm }
      else s
  | .readLastLogIndex id election peer =>
      let call := s.voteCalls id election peer
      if call.started ∧ call.lastLogIndex = none then
        s.setVoteCall id election peer { call with lastLogIndex := some (s.nodes id).getLastLogIndex }
      else s
  | .readLastLogTerm id election peer =>
      let call := s.voteCalls id election peer
      if call.started ∧ call.lastLogTerm = none then
        s.setVoteCall id election peer { call with lastLogTerm := some (s.nodes id).getLastLogTerm }
      else s
  | .deliverVote id election peer =>
      match (s.voteCalls id election peer).request id with
      | none => s
      | some req => s.deliverVote id election peer req
  | .voteReply id election peer response =>
      match (s.voteCalls id election peer).request id,
          (s.voteCalls id election peer).responses[response]? with
      | some req, some resp =>
          if (s.voteCalls id election peer).finished then s else s.voteReply id election peer req resp
      | _, _ => s
  | .buildAppend index =>
      match s.appendCalls[index]? with
      | none => s
      | some call =>
          if call.request = none ∧ call.finished = false then s.buildAppend index call else s
  | .deliverAppend index =>
      match s.appendCalls[index]? with
      | none => s
      | some call =>
          match call.request with
          | none => s
          | some req => s.deliverAppend index call req
  | .appendReply index response =>
      match s.appendCalls[index]? with
      | none => s
      | some call =>
          match call.request, call.responses[response]? with
          | some req, some resp => if call.finished then s else s.appendReply index call req resp
          | _, _ => s
  | .receive id => if id ∈ config.ids then s.receive id else s

/-- The state after some events. -/
def run (config : ClusterConfig) (events : List Event) : Cluster :=
  events.foldl (step config) (init config)

end Cluster
end Raft
end KVStore
