import KVStore.Raft.Commitment

namespace KVStore
namespace Raft

open Cluster

/-!
# A node among arbitrary messages

One node, seen from inside: requests and responses arrive in any order and with
any contents, as if nothing were known of the nodes that send them.  What the
node does know are the requests that its own goroutines have built.  A response
to one of them may arrive at any time, and more than once.  A reply to a request
for a vote may carry any counter and any request, so that every election which
the goroutines of `startElection` could win is among the runs.
-/

/-- A node and the requests that its goroutines have built, each with its peer. -/
structure Station where
  node : Node
  requests : List (NodeID × AppendEntriesRequest)

inductive Happening where
  | electionTimeout
  | propose (command : Bytes)
  | requestVote (req : RequestVoteRequest)
  | voteReply (votesReceived : Nat) (req : RequestVoteRequest) (resp : RequestVoteResponse)
  | appendEntries (req : AppendEntriesRequest)
  | sendAppendEntries (peer : NodeID)
  | appendReply (request : Nat) (resp : AppendEntriesResponse)
  | receive

namespace Station

def start (id : NodeID) (peers : List NodeID) (applyCapacity : Nat) : Station :=
  ⟨newNode id peers applyCapacity, []⟩

def step (s : Station) : Happening -> Station
  | .electionTimeout => { s with node := s.node.startElection }
  | .propose command => { s with node := (s.node.propose command).1 }
  | .requestVote req => { s with node := (s.node.handleRequestVote req).1 }
  | .voteReply votesReceived req resp =>
      { s with node := (s.node.voteReply votesReceived req resp).1 }
  | .appendEntries req => { s with node := (s.node.handleAppendEntries req).1 }
  | .sendAppendEntries peer =>
      if peer ∈ s.node.peers then
        match s.node.appendEntriesFor peer with
        | none => s
        | some req => { s with requests := s.requests ++ [(peer, req)] }
      else s
  | .appendReply request resp =>
      match s.requests[request]? with
      | none => s
      | some (peer, req) => { s with node := s.node.appendEntriesReply peer req resp }
  | .receive => { s with node := { s.node with applyCh := s.node.applyCh.receive } }

/-- The state after some events. -/
def run (s : Station) (events : List Happening) : Station := events.foldl step s

theorem run_snoc (s : Station) (events : List Happening) (event : Happening) :
    s.run (events ++ [event]) = (s.run events).step event :=
  List.foldl_concat ..

theorem run_append (s : Station) (events more : List Happening) :
    s.run (events ++ more) = (s.run events).run more :=
  List.foldl_append

/-- The node starts an election, or reacts. -/
theorem reacts_step (s : Station) (event : Happening) :
    (s.step event).node = s.node.startElection ∨ Reacts s.node (s.step event).node := by
  cases event with
  | electionTimeout => exact Or.inl rfl
  | propose command =>
      refine Or.inr ?_
      by_cases leads : s.node.state = .leader
      · rw [step, propose_of_leader leads]
        exact .propose command leads
      · rw [step, Node.propose, if_pos leads]
        exact .same
  | requestVote req => exact Or.inr (.voteHandled (Node.handleRequestVote_spec _ _))
  | voteReply votesReceived req resp => exact Or.inr (.voteReplied (Node.voteReply_spec _ _ _ _))
  | appendEntries req => exact Or.inr (.appendHandled (Node.handleAppendEntries_spec _ _))
  | sendAppendEntries peer =>
      refine Or.inr ?_
      rw [step]
      split
      · split <;> exact .same
      · exact .same
  | appendReply request resp =>
      refine Or.inr ?_
      rw [step]
      split
      · exact .same
      · exact .appendReplied (Node.appendEntriesReply_spec _ _ _ _)
  | receive => exact Or.inr .receive

theorem peers_step (s : Station) (event : Happening) :
    (s.step event).node.peers = s.node.peers := by
  rcases s.reacts_step event with started | reacts
  · rw [started]
    rfl
  · exact reacts.continues.peers

theorem peers_run (s : Station) (events : List Happening) :
    (s.run events).node.peers = s.node.peers := by
  induction events using List.reverseRecOn with
  | nil => rfl
  | append_singleton events event ih =>
      rw [run_snoc, peers_step]
      exact ih

/-! ## Leading on -/

/-- A leader that goes on to lead never takes a commit back. -/
theorem commitIndex_of_leads {n later : Node} (reacts : Reacts n later)
    (leads : later.state = .leader) :
    n.commitIndex ≤ later.commitIndex := by
  cases reacts with
  | same => exact Nat.le_refl _
  | propose command leads => exact Nat.le_refl _
  | voteHandled handled => exact Nat.le_of_eq (commitIndex_of_voteHandled handled).symm
  | voteReplied replied => exact Nat.le_of_eq (commitIndex_of_voteReplied replied).symm
  | @appendHandled req resp _ handled =>
      cases handled with
      | stale old resp failed => exact Nat.le_refl _
      | rejected current resp failed => exact Nat.le_refl _
      | accepted current previous resp =>
          rw [(Node.followCommit_spec (n.takeEntries req) req.leaderCommit).1.state] at leads
          cases leads
  | appendReplied replied => exact commitIndex_of_appendReplied replied
  | receive => exact Nat.le_refl _

/-- A leader after some more events: it leads on, its log and its commit index
have only grown, or it has resigned. -/
theorem leads_or_resigned {s : Station} {term : Nat} (leads : Leads s.node term)
    (events : List Happening) :
    (Leads (s.run events).node term ∧ s.node.log <+: (s.run events).node.log ∧
        s.node.commitIndex ≤ (s.run events).node.commitIndex) ∨
      Resigned (s.run events).node term := by
  induction events using List.reverseRecOn with
  | nil => exact Or.inl ⟨leads, List.prefix_rfl, Nat.le_refl _⟩
  | append_singleton events event ih =>
      rw [run_snoc]
      rcases (s.run events).reacts_step event with started | reacts
      · rw [started]
        rcases ih with ⟨⟨_, sameTerm⟩, _⟩ | resigned
        · exact Or.inr (Or.inl (Nat.lt_succ_of_le (Nat.le_of_eq sameTerm.symm)))
        · exact Or.inr resigned.startElection
      · rcases ih with ⟨⟨still, sameTerm⟩, grown, committed⟩ | resigned
        · subst sameTerm
          refine (reacts.leader still).imp_left fun both => ?_
          exact ⟨both.1, grown.trans both.2,
            Nat.le_trans committed (commitIndex_of_leads reacts both.1.1)⟩
        · exact Or.inr (reacts.resigned resigned)

theorem grown_of_leads {s : Station} {term : Nat} (leads : Leads s.node term)
    {events : List Happening} (still : Leads (s.run events).node term) :
    s.node.log <+: (s.run events).node.log ∧
        s.node.commitIndex ≤ (s.run events).node.commitIndex := by
  rcases leads_or_resigned leads events with ⟨_, grown⟩ | resigned
  · exact grown
  · exact absurd still (not_leads_of_resigned resigned)

/-! ## Indices -/

/-- What the requests of a node and the indices of a leader keep to.  The
requests of the present term are those that a leader has built in it, when its
log was no longer than it is now. -/
structure Bounded (s : Station) : Prop where
  addressed : forall peer req, (peer, req) ∈ s.requests -> peer ∈ s.node.peers ∧
    req.term ≤ s.node.currentTerm
  fresh : s.node.state = .candidate -> forall peer req, (peer, req) ∈ s.requests ->
    req.term < s.node.currentTerm
  own : s.node.state = .leader -> forall peer req, (peer, req) ∈ s.requests ->
    req.term = s.node.currentTerm ->
    req.prevLogIndex + req.entries.length ≤ s.node.log.length
  indices : s.node.state = .leader -> forall peer, peer ∈ s.node.peers ->
    0 < s.node.nextIndex peer ∧ s.node.nextIndex peer ≤ s.node.log.length + 1 ∧
      s.node.matchIndex peer ≤ s.node.log.length

theorem bounded_start (id : NodeID) (peers : List NodeID) (applyCapacity : Nat) :
    Bounded (start id peers applyCapacity) := by
  constructor
  · intro peer req inside
    cases inside
  · intro candidate
    cases candidate
  · intro leads
    cases leads
  · intro leads
    cases leads

namespace Bounded

variable {s : Station} (bounded : Bounded s) {later : Node}

include bounded

theorem follow (peers : later.peers = s.node.peers)
    (current : s.node.currentTerm ≤ later.currentTerm) (follows : later.state = .follower) :
    Bounded { s with node := later } := by
  constructor
  · intro peer req inside
    rcases bounded.addressed peer req inside with ⟨isPeer, reached⟩
    exact ⟨peers ▸ isPeer, Nat.le_trans reached current⟩
  · intro candidate
    cases follows.symm.trans candidate
  · intro leads
    cases follows.symm.trans leads
  · intro leads
    cases follows.symm.trans leads

/-- The node stays in its term and in its role, and its log does not shrink. -/
theorem keep (peers : later.peers = s.node.peers) (term : later.currentTerm = s.node.currentTerm)
    (state : later.state = s.node.state) (length : s.node.log.length ≤ later.log.length)
    (indices : s.node.state = .leader -> forall peer, peer ∈ s.node.peers ->
      0 < later.nextIndex peer ∧ later.nextIndex peer ≤ later.log.length + 1 ∧
      later.matchIndex peer ≤ later.log.length) :
    Bounded { s with node := later } := by
  constructor
  · intro peer req inside
    rcases bounded.addressed peer req inside with ⟨isPeer, reached⟩
    exact ⟨peers ▸ isPeer, term ▸ reached⟩
  · intro candidate peer req inside
    exact term ▸ bounded.fresh (state ▸ candidate) peer req inside
  · intro leads peer req inside sameTerm
    exact Nat.le_trans (bounded.own (state ▸ leads) peer req inside (sameTerm.trans term)) length
  · intro leads peer isPeer
    exact indices (state ▸ leads) peer (peers ▸ isPeer)

theorem keep_indices (peers : later.peers = s.node.peers)
    (term : later.currentTerm = s.node.currentTerm) (state : later.state = s.node.state)
    (length : s.node.log.length ≤ later.log.length) (next : later.nextIndex = s.node.nextIndex)
    (matched : later.matchIndex = s.node.matchIndex) :
    Bounded { s with node := later } := by
  refine bounded.keep peers term state length fun leads peer isPeer => ?_
  rcases bounded.indices leads peer isPeer with ⟨positive, inside, stored⟩
  rw [next, matched]
  exact ⟨positive, by omega, by omega⟩

theorem startElection : Bounded { s with node := s.node.startElection } := by
  constructor
  · intro peer req inside
    rcases bounded.addressed peer req inside with ⟨isPeer, reached⟩
    exact ⟨isPeer, Nat.le_succ_of_le reached⟩
  · intro _ peer req inside
    exact Nat.lt_succ_of_le (bounded.addressed peer req inside).2
  · intro leads
    cases leads
  · intro leads
    cases leads

theorem becomeLeader (candidate : s.node.state = .candidate) :
    Bounded { s with node := s.node.becomeLeader } := by
  constructor
  · exact bounded.addressed
  · intro stays
    cases stays
  · intro _ peer req inside sameTerm
    exact absurd sameTerm (Nat.ne_of_lt (bounded.fresh candidate peer req inside))
  · intro _ peer isPeer
    have next : s.node.becomeLeader.nextIndex peer = s.node.log.length + 1 := if_pos isPeer
    have matched : s.node.becomeLeader.matchIndex peer = 0 := if_pos isPeer
    change 0 < s.node.becomeLeader.nextIndex peer ∧ s.node.becomeLeader.nextIndex peer ≤
      s.node.log.length + 1 ∧
      s.node.becomeLeader.matchIndex peer ≤ s.node.log.length
    rw [next, matched]
    exact ⟨Nat.succ_pos _, Nat.le_refl _, Nat.zero_le _⟩

theorem propose (command : Bytes) : Bounded { s with node := (s.node.propose command).1 } := by
  by_cases leads : s.node.state = .leader
  · rw [propose_of_leader leads]
    refine bounded.keep_indices rfl rfl rfl ?_ rfl rfl
    rw [List.length_append]
    exact Nat.le_add_right _ _
  · rw [Node.propose, if_pos leads]
    exact bounded

theorem catchUp {term : Nat} (current : s.node.currentTerm ≤ term) :
    Bounded { s with node := s.node.catchUp term } := by
  rcases Nat.lt_or_eq_of_le current with newer | same
  · rw [Node.catchUp_of_lt newer]
    exact bounded.follow rfl current rfl
  · rw [← same, Node.catchUp_self]
    exact bounded

theorem voteHandled {req : RequestVoteRequest} {resp : RequestVoteResponse}
    (handled : s.node.VoteHandled req later resp) : Bounded { s with node := later } := by
  cases handled with
  | stale old => exact bounded
  | refused current => exact bounded.catchUp current
  | granted current free upToDate =>
      exact (bounded.catchUp current).keep_indices rfl rfl rfl (Nat.le_refl _) rfl rfl

theorem voteReplied {votes counted : Nat} {req : RequestVoteRequest} {resp : RequestVoteResponse}
    (replied : s.node.VoteReplied votes req resp later counted) :
    Bounded { s with node := later } := by
  cases replied with
  | ignored notCounted => exact bounded
  | deposed notCounted newer => exact bounded.follow rfl (Nat.le_of_lt newer) rfl
  | counted counted => exact bounded
  | won counted enough => exact bounded.becomeLeader (Node.countsVote_iff.mp counted).1

variable {req : AppendEntriesRequest}

theorem appendHandled {resp : AppendEntriesResponse}
    (handled : s.node.AppendHandled req later resp) : Bounded { s with node := later } := by
  cases handled with
  | stale old resp failed => exact bounded
  | rejected current resp failed => exact bounded.follow rfl current rfl
  | accepted current previous resp =>
      have commits := (Node.followCommit_spec (s.node.takeEntries req) req.leaderCommit).1
      exact bounded.follow commits.peers (commits.currentTerm.symm ▸ current) commits.state

/-- The request of a peer was accepted. -/
theorem matched {peer : NodeID} (inside : (peer, req) ∈ s.requests) (leads : s.node.state = .leader)
    (same : s.node.currentTerm = req.term) :
    Bounded { s with node := (s.node.matched peer req).updateCommitIndex } := by
  have commits := (s.node.matched peer req).updateCommitIndex_spec.1
  have reached := bounded.own leads peer req inside same.symm
  refine bounded.keep commits.peers commits.currentTerm commits.state
    (Nat.le_of_eq (by rw [commits.log]; rfl)) ?_
  intro _ other isPeer
  rw [commits.nextIndex, commits.matchIndex, commits.log]
  simp only [Node.matched]
  split
  · exact ⟨Nat.succ_pos _, Nat.succ_le_succ reached, reached⟩
  · exact bounded.indices leads other isPeer

theorem appendReplied {peer : NodeID} {resp : AppendEntriesResponse}
    (inside : (peer, req) ∈ s.requests) (replied : s.node.AppendReplied peer req resp later) :
    Bounded { s with node := later } := by
  cases replied with
  | ignored => exact bounded
  | deposed newer => exact bounded.follow rfl (Nat.le_of_lt newer) rfl
  | matched leads same success => exact bounded.matched inside leads same
  | retried more =>
      refine bounded.keep rfl rfl rfl (Nat.le_refl _) fun leads other isPeer => ?_
      rcases bounded.indices leads other isPeer with ⟨positive, below, stored⟩
      simp only
      split
      · rename_i isOther
        subst isOther
        exact ⟨by omega, by omega, stored⟩
      · exact ⟨positive, below, stored⟩

/-- A request that is built covers the log of the leader up to its end. -/
theorem send {peer : NodeID} (isPeer : peer ∈ s.node.peers)
    (built : s.node.appendEntriesFor peer = some req) :
    Bounded { s with requests := s.requests ++ [(peer, req)] } := by
  rcases leader_of_appendEntriesFor built with ⟨leads, term, _⟩
  rcases bounded.indices leads peer isPeer with ⟨positive, below, _⟩
  have describes := describes_of_appendEntriesFor positive below built
  have new : forall other last, (other, last) ∈ s.requests ++ [(peer, req)] ->
      (other, last) ∈ s.requests ∨ other = peer ∧ last = req := by
    intro other last inside
    rw [List.mem_append, List.mem_singleton, Prod.mk.injEq] at inside
    exact inside
  constructor
  · intro other last inside
    rcases new other last inside with old | ⟨rfl, rfl⟩
    · exact bounded.addressed other last old
    · exact ⟨isPeer, Nat.le_of_eq term⟩
  · intro candidate
    cases leads.symm.trans candidate
  · intro _ other last inside sameTerm
    rcases new other last inside with old | ⟨rfl, rfl⟩
    · exact bounded.own leads other last old sameTerm
    · exact Nat.le_of_eq describes.length.symm
  · exact bounded.indices

theorem step (event : Happening) : Bounded (s.step event) := by
  cases event with
  | electionTimeout => exact bounded.startElection
  | propose command => exact bounded.propose command
  | requestVote req => exact bounded.voteHandled (Node.handleRequestVote_spec _ _)
  | voteReply votesReceived req resp => exact bounded.voteReplied (Node.voteReply_spec _ _ _ _)
  | appendEntries req => exact bounded.appendHandled (Node.handleAppendEntries_spec _ _)
  | sendAppendEntries peer =>
      rw [Station.step]
      split
      · rename_i isPeer
        split
        · exact bounded
        · rename_i req built
          exact bounded.send isPeer built
      · exact bounded
  | appendReply request resp =>
      rw [Station.step]
      split
      · exact bounded
      · rename_i peer req there
        exact bounded.appendReplied (List.mem_of_getElem? there)
          (Node.appendEntriesReply_spec _ _ _ _)
  | receive => exact bounded.keep_indices rfl rfl rfl (Nat.le_refl _) rfl rfl

theorem run (events : List Happening) : Bounded (s.run events) := by
  induction events using List.reverseRecOn with
  | nil => exact bounded
  | append_singleton events event ih =>
      rw [run_snoc]
      exact ih.step event

end Bounded
end Station
end Raft
end KVStore
