import KVStore.Library.Framing

namespace KVStore
namespace Raft

/-!
# A Raft node

`types.go` and `node.go` of `node/raft`.  A method of `Node` that runs under the
lock is one function on the state of the node.  The goroutines that a method
starts are left to `Cluster`, and so are the two parts of `sendAppendEntries`
and of the goroutines of `startElection` between which the lock is released.

Terms and indices are natural numbers: a run would need `2 ^ 64` elections to
wrap a term.  Identifiers are the bytes of their strings, and the empty string
stands for no vote, as in the source.
-/

abbrev NodeID := Bytes

instance (id : NodeID) (ids : List NodeID) : Decidable (id ∈ ids) := inferInstance

inductive NodeState where
  | follower
  | candidate
  | leader
  deriving DecidableEq, Repr

structure LogEntry where
  term : Nat
  index : Nat
  command : Bytes
  deriving DecidableEq, Repr

structure AppendEntriesRequest where
  term : Nat
  leaderID : NodeID
  prevLogIndex : Nat
  prevLogTerm : Nat
  entries : List LogEntry
  leaderCommit : Nat
  deriving DecidableEq, Repr

structure AppendEntriesResponse where
  term : Nat
  success : Bool
  conflictIndex : Nat
  conflictTerm : Nat
  deriving DecidableEq, Repr

structure RequestVoteRequest where
  term : Nat
  candidateID : NodeID
  lastLogIndex : Nat
  lastLogTerm : Nat
  deriving DecidableEq, Repr

structure RequestVoteResponse where
  term : Nat
  voteGranted : Bool
  deriving DecidableEq, Repr

structure ApplyMsg where
  index : Nat
  command : Bytes
  deriving DecidableEq, Repr

/-! ## The apply channel -/

/-- A channel of apply messages.  `receivers` counts the receivers that wait on
it, and `sent` lists what was ever put on it. -/
structure ApplyCh where
  capacity : Nat
  buffer : List ApplyMsg
  receivers : Nat
  sent : List ApplyMsg

/-- A send in a `select` with a `default` branch. -/
def ApplyCh.trySend (ch : ApplyCh) (msg : ApplyMsg) : ApplyCh :=
  if 0 < ch.receivers then { ch with receivers := ch.receivers - 1, sent := ch.sent ++ [msg] }
  else if ch.buffer.length < ch.capacity then
    { ch with buffer := ch.buffer ++ [msg], sent := ch.sent ++ [msg] }
  else ch

/-- A receive, which waits where the buffer is empty. -/
def ApplyCh.receive (ch : ApplyCh) : ApplyCh :=
  match ch.buffer with
  | [] => { ch with receivers := ch.receivers + 1 }
  | _ :: rest => { ch with buffer := rest }

/-! ## State -/

structure Node where
  id : NodeID
  peers : List NodeID
  state : NodeState
  currentTerm : Nat
  votedFor : NodeID
  log : List LogEntry
  commitIndex : Nat
  lastApplied : Nat
  nextIndex : NodeID -> Nat
  matchIndex : NodeID -> Nat
  applyCh : ApplyCh

/-- `NewNode`. -/
def newNode (id : NodeID) (peers : List NodeID) (applyCapacity : Nat) : Node where
  id := id
  peers := peers
  state := .follower
  currentTerm := 0
  votedFor := []
  log := []
  commitIndex := 0
  lastApplied := 0
  nextIndex := fun _ => 0
  matchIndex := fun _ => 0
  applyCh := ⟨applyCapacity, [], 0, []⟩

/-- The term of the entry at an index of a log, counted from one. -/
def termAt (log : List LogEntry) (index : Nat) : Nat :=
  match log[index - 1]? with
  | none => 0
  | some entry => entry.term

/-- The term of the last entry of a log. -/
def lastTerm (log : List LogEntry) : Nat := (log.getLast?.map LogEntry.term).getD 0

namespace Node

def getLastLogIndex (n : Node) : Nat := n.log.length

def getLastLogTerm (n : Node) : Nat := lastTerm n.log

/-- Candidate's log is at least as up-to-date as ours. -/
def isLogUpToDate (n : Node) (lastLogIndex lastLogTerm : Nat) : Bool :=
  if lastLogTerm ≠ n.getLastLogTerm then decide (n.getLastLogTerm < lastLogTerm)
  else decide (n.getLastLogIndex ≤ lastLogIndex)

/-! ## Elections -/

/-- `startElection`, the goroutines apart. -/
def startElection (n : Node) : Node :=
  { n with state := .candidate, currentTerm := n.currentTerm + 1, votedFor := n.id }

def becomeFollower (n : Node) (term : Nat) : Node :=
  { n with state := .follower, currentTerm := term, votedFor := [] }

/-- `becomeLeader`, the heartbeats apart. -/
def becomeLeader (n : Node) : Node :=
  { n with
    state := .leader
    nextIndex := fun peer => if peer ∈ n.peers then n.getLastLogIndex + 1 else n.nextIndex peer
    matchIndex := fun peer => if peer ∈ n.peers then 0 else n.matchIndex peer }

/-- The node still waits for the reply to its request. -/
def awaitsVote (n : Node) (req : RequestVoteRequest) : Bool :=
  decide (n.state = .candidate ∧ n.currentTerm = req.term)

/-- The reply is counted as a vote. -/
def countsVote (n : Node) (req : RequestVoteRequest) (resp : RequestVoteResponse) : Bool :=
  n.awaitsVote req && decide (resp.term ≤ n.currentTerm) && resp.voteGranted

/-- A goroutine of `startElection` after its request was answered, with the
counter of its election. -/
def voteReply (n : Node) (votesReceived : Nat) (req : RequestVoteRequest)
    (resp : RequestVoteResponse) : Node × Nat :=
  if n.awaitsVote req = false then (n, votesReceived)
  else if resp.term > n.currentTerm then (n.becomeFollower resp.term, votesReceived)
  else if resp.voteGranted then
    if votesReceived + 1 > n.peers.length / 2 + 1 then (n.becomeLeader, votesReceived + 1)
    else (n, votesReceived + 1)
  else (n, votesReceived)

/-- `n.votedFor = req.CandidateID`. -/
def castVote (n : Node) (candidateID : NodeID) : Node := { n with votedFor := candidateID }

/-- `HandleRequestVote`. -/
def handleRequestVote (n : Node) (req : RequestVoteRequest) : Node × RequestVoteResponse :=
  if req.term < n.currentTerm then (n, ⟨n.currentTerm, false⟩)
  else
    let n := if req.term > n.currentTerm then n.becomeFollower req.term else n
    if (n.votedFor = [] ∨ n.votedFor = req.candidateID) ∧
        n.isLogUpToDate req.lastLogIndex req.lastLogTerm then
      (n.castVote req.candidateID, ⟨n.currentTerm, true⟩)
    else (n, ⟨n.currentTerm, false⟩)

/-! ## Applying and committing -/

/-- One round of `applyCommitted`.  The entry exists in every state that a run
reaches. -/
def applyNext (n : Node) : Node :=
  { n with
    lastApplied := n.lastApplied + 1
    applyCh :=
      match n.log[n.lastApplied]? with
      | none => n.applyCh
      | some entry => n.applyCh.trySend ⟨n.lastApplied + 1, entry.command⟩ }

def applyLoop : Nat -> Node -> Node
  | 0, n => n
  | rounds + 1, n => if n.lastApplied < n.commitIndex then applyLoop rounds n.applyNext else n

def applyCommitted (n : Node) : Node := applyLoop (n.commitIndex - n.lastApplied) n

/-- The number of nodes known to store the entry at an index, the leader included. -/
def replicas (n : Node) (index : Nat) : Nat :=
  1 + n.peers.countP fun peer => decide (index ≤ n.matchIndex peer)

/-- One round of the loop of `updateCommitIndex`. -/
def commitAt (n : Node) (index : Nat) : Node :=
  if termAt n.log index ≠ n.currentTerm then n
  else if n.replicas index > n.peers.length / 2 + 1 then
    { n with commitIndex := index }.applyCommitted
  else n

def updateCommitIndex (n : Node) : Node :=
  (List.range' (n.commitIndex + 1) (n.log.length - n.commitIndex)).foldl commitAt n

/-! ## Replication -/

/-- `sendAppendEntries` up to the call: the request, built under the lock.  Its entries
are those of the log at this moment.  The source passes a slice of the log on, which is
marshalled after the unlock. -/
def appendEntriesFor (n : Node) (peer : NodeID) : Option AppendEntriesRequest :=
  if n.state ≠ .leader then none
  else
    let nextIdx := n.nextIndex peer
    let prevLogIndex := nextIdx - 1
    some
      { term := n.currentTerm
        leaderID := n.id
        prevLogIndex := prevLogIndex
        prevLogTerm := if 0 < prevLogIndex ∧ prevLogIndex ≤ n.log.length then
          termAt n.log prevLogIndex else 0
        entries := if nextIdx ≤ n.log.length then n.log.drop (nextIdx - 1) else []
        leaderCommit := n.commitIndex }

/-- The indices of a peer that has accepted a request. -/
def matched (n : Node) (peer : NodeID) (req : AppendEntriesRequest) : Node :=
  let matched := req.prevLogIndex + req.entries.length
  { n with
    matchIndex := fun other => if other = peer then matched else n.matchIndex other
    nextIndex := fun other => if other = peer then matched + 1 else n.nextIndex other }

/-- `sendAppendEntries` after the call was answered. -/
def appendEntriesReply (n : Node) (peer : NodeID) (req : AppendEntriesRequest)
    (resp : AppendEntriesResponse) : Node :=
  if n.state ≠ .leader ∨ n.currentTerm ≠ req.term then n
  else if resp.term > n.currentTerm then n.becomeFollower resp.term
  else if resp.success then (n.matched peer req).updateCommitIndex
  else if n.nextIndex peer > 1 then
    { n with nextIndex := fun other => if other = peer then n.nextIndex peer - 1 else n.nextIndex other }
  else n

/-- The search of `HandleAppendEntries` for the first index of the conflicting
term, downwards from an index. -/
def firstConflict (log : List LogEntry) (conflictTerm : Nat) : Nat -> Nat
  | 0 => 0
  | index + 1 =>
      if termAt log (index + 1) ≠ conflictTerm then index + 2
      else firstConflict log conflictTerm index

/-- The loop of `HandleAppendEntries` over the entries, from an index. -/
def appendFrom : Nat -> List LogEntry -> List LogEntry -> List LogEntry
  | _, log, [] => log
  | index, log, entry :: entries =>
      if index ≤ log.length then
        if termAt log index ≠ entry.term then
          appendFrom (index + 1) (log.take (index - 1) ++ [entry]) entries
        else appendFrom (index + 1) log entries
      else appendFrom (index + 1) (log ++ [entry]) entries

/-- The last part of `HandleAppendEntries`. -/
def followCommit (n : Node) (leaderCommit : Nat) : Node :=
  if leaderCommit > n.commitIndex then
    { n with commitIndex := min leaderCommit n.log.length }.applyCommitted else n

/-- `HandleAppendEntries`. -/
def handleAppendEntries (n : Node) (req : AppendEntriesRequest) : Node × AppendEntriesResponse :=
  if req.term < n.currentTerm then (n, ⟨n.currentTerm, false, 0, 0⟩)
  else
    -- The response keeps the term that the node had before, unless it succeeds.
    let term := n.currentTerm
    let n := n.becomeFollower req.term
    if 0 < req.prevLogIndex ∧ n.log.length < req.prevLogIndex then
      (n, ⟨term, false, n.log.length + 1, 0⟩)
    else if 0 < req.prevLogIndex ∧ termAt n.log req.prevLogIndex ≠ req.prevLogTerm then
      let conflictTerm := termAt n.log req.prevLogIndex
      (n, ⟨term, false, firstConflict n.log conflictTerm (req.prevLogIndex - 1), conflictTerm⟩)
    else
      let n := { n with log := appendFrom (req.prevLogIndex + 1) n.log req.entries }
      let n := n.followCommit req.leaderCommit
      (n, ⟨n.currentTerm, true, 0, 0⟩)

/-- `Propose`, the heartbeats apart, with the index, the term and whether the
node is the leader. -/
def propose (n : Node) (command : Bytes) : Node × Nat × Nat × Bool :=
  if n.state ≠ .leader then (n, 0, 0, false)
  else
    let entry : LogEntry := ⟨n.currentTerm, n.log.length + 1, command⟩
    ({ n with log := n.log ++ [entry] }, entry.index, n.currentTerm, true)

end Node
end Raft
end KVStore
