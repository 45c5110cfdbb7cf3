import KVStore.Raft.Election
import KVStore.Library.Runs

namespace KVStore
namespace Raft

open Function

/-!
# Crashes and restarts

A node crashes with its goroutines and is started again by `NewNode`, with the
`Config` that it had.  The `Config` names a `StateStore` and a `LogStore`, but no
function of `node.go` writes to them and `NewNode` does not read them: a
restarted node is in term zero, has no vote and an empty log.  While a node is
down nothing happens at it, so a crash and the restart after it are one event.

The requests that a crashed node has sent stay under way.  Those of
`sendHeartbeats` stay among the `appendCalls`, whose goroutines have ended, and
those of `startElection` are kept in `crashed`.  The entries that a node has
acknowledged and the votes that it has forgotten are histories, which no step
reads.

A vote is forgotten in two ways:  by a restart, and by an `AppendEntries` request
of the node's own term, for which `becomeFollower` clears `votedFor`.  A node votes
for two candidates of a term exactly when it is asked, or asks itself, for a vote
in a term in which it has forgotten one.
-/

/-- `NewNode` with the `Config` of the node. -/
def reopenNode (config : ClusterConfig) (id : NodeID) : Node :=
  newNode id (config.peers id) (config.applyCapacity id)

/-- The goroutines of `startElection` of a node that has crashed. -/
structure Crashed where
  id : NodeID
  voteCalls : Nat -> NodeID -> VoteCall

structure FaultyCluster where
  cluster : Cluster
  crashed : List Crashed
  acknowledged : NodeID -> List LogEntry
  forgotten : List Grant

/-- An event of a cluster whose nodes run, a crash with the restart after it, or
the delivery of a request for a vote whose sender has crashed. -/
inductive FaultyEvent where
  | ordinary (event : Event)
  | restart (id : NodeID)
  | deliverLate (crash : Nat) (election : Nat) (peer : NodeID)

namespace Cluster

/-- The node is new and its goroutines are gone. -/
def restart (s : Cluster) (id : NodeID) (n : Node) : Cluster where
  nodes := update s.nodes id n
  voteCalls := update s.voteCalls id fun _ _ => .absent
  votesReceived := update s.votesReceived id fun _ => 0
  appendCalls := s.appendCalls.map fun call => if call.leader = id then
    { call with finished := true } else call
  grants := s.grants

/-- The votes that a node forgets in an event:  those of its term, when a request of
this term makes it a follower. -/
def clearedVotes (s : Cluster) : Event -> List Grant
  | .deliverAppend index =>
      match s.appendCalls[index]? with
      | none => []
      | some call =>
          match call.request with
          | none => []
          | some req =>
              if req.term = (s.nodes call.peer).currentTerm then
                s.grants.filter fun grant => grant.voter = call.peer ∧ grant.term = req.term
              else []
  | _ => []

theorem clearedVotes_subset (s : Cluster) (event : Event) : s.clearedVotes event ⊆ s.grants := by
  unfold clearedVotes
  split <;> grind

/-- The peer handles a request for its vote, and nobody waits for the answer. -/
def deliverLate (s : Cluster) (peer : NodeID) (req : RequestVoteRequest) : Cluster :=
  let (n, resp) := (s.nodes peer).handleRequestVote req
  { s.setNode peer n with
    grants := if resp.voteGranted then ⟨peer, req.term, req.candidateID⟩ :: s.grants else s.grants }

theorem grants_deliverLate (s : Cluster) (peer : NodeID) (req : RequestVoteRequest) :
    (s.deliverLate peer req).grants =
      if ((s.nodes peer).handleRequestVote req).2.voteGranted then
        ⟨peer, req.term, req.candidateID⟩ :: s.grants
      else s.grants :=
  rfl

/-- The entries that a node acknowledges in an event.  A leader acknowledges what
it was proposed, and a follower that accepts a request its log up to the index
that the leader then takes as matched. -/
def acknowledgement (config : ClusterConfig) (s : Cluster) (id : NodeID) : Event -> List LogEntry
  | .propose leader command =>
      if leader = id ∧ leader ∈ config.ids ∧ (s.nodes leader).state = .leader then
        [⟨(s.nodes leader).currentTerm, (s.nodes leader).log.length + 1, command⟩]
      else []
  | .deliverAppend index =>
      match s.appendCalls[index]? with
      | none => []
      | some call =>
          match call.request with
          | none => []
          | some req =>
              let (n, resp) := (s.nodes call.peer).handleAppendEntries req
              if call.peer = id ∧ resp.success then
                n.log.take (req.prevLogIndex + req.entries.length) else []
  | _ => []

end Cluster

namespace FaultyCluster

def init (config : ClusterConfig) : FaultyCluster where
  cluster := Cluster.init config
  crashed := []
  acknowledged := fun _ => []
  forgotten := []

/-- The request of a goroutine that was gone when it was delivered. -/
def lateRequest (s : FaultyCluster) (crash election : Nat) (peer : NodeID) :
    Option RequestVoteRequest := do
  let crashed <- s.crashed[crash]?
  (crashed.voteCalls election peer).request crashed.id

def step (config : ClusterConfig) (s : FaultyCluster) : FaultyEvent -> FaultyCluster
  | .ordinary event =>
      { s with
        cluster := s.cluster.step config event
        acknowledged := fun id => s.acknowledged id ++ s.cluster.acknowledgement config id event
        forgotten := s.forgotten ++ s.cluster.clearedVotes event }
  | .restart id =>
      { s with
        cluster := s.cluster.restart id (reopenNode config id)
        crashed := s.crashed ++ [⟨id, s.cluster.voteCalls id⟩]
        forgotten := s.forgotten ++ s.cluster.grants.filter fun grant => grant.voter = id }
  | .deliverLate crash election peer =>
      match s.lateRequest crash election peer with
      | none => s
      | some req => { s with cluster := s.cluster.deliverLate peer req }

/-- The state after some events. -/
def run (config : ClusterConfig) (events : List FaultyEvent) : FaultyCluster :=
  events.foldl (step config) (init config)

theorem run_snoc (config : ClusterConfig) (events : List FaultyEvent) (event : FaultyEvent) :
    run config (events ++ [event]) = step config (run config events) event :=
  List.foldl_concat ..

end FaultyCluster

namespace Cluster

variable {config : ClusterConfig} {s after : Cluster} {event : Event}

/-! ## What a node still knows of its votes -/

/-- A node knows its name, and the vote that it remembers was given.  It may have
given others. -/
structure Recalls (s : Cluster) : Prop where
  id : forall id, (s.nodes id).id = id
  votedFor : forall id, (s.nodes id).votedFor ≠ [] ->
    ⟨id, (s.nodes id).currentTerm, (s.nodes id).votedFor⟩ ∈ s.grants

theorem recalls_init (config : ClusterConfig) : Recalls (init config) :=
  ⟨fun _ => rfl, fun _ voted => absurd rfl voted⟩

namespace Recalls

variable (recalls : Recalls s)

include recalls

theorem step (config : ClusterConfig) (event : Event) : Recalls (s.step config event) := by
  have action := step_action config s event
  constructor
  · intro id
    exact (action.continues id).1.trans (recalls.id id)
  · intro id
    exact votedFor_of_vote action.grants_subset (action.vote recalls.id id) (recalls.votedFor id)

theorem restart (config : ClusterConfig) (id : NodeID) :
    Recalls (s.restart id (reopenNode config id)) := by
  have named : (reopenNode config id).id = (s.nodes id).id := (recalls.id id).symm
  have forgets : KeepsVote (s.nodes id) (reopenNode config id) := Or.inl rfl
  have kept : s.grants ⊆ (s.restart id (reopenNode config id)).grants := List.Subset.refl _
  constructor
  · intro other
    refine Eq.trans ?_ (recalls.id other)
    exact related_update (R := fun n later => later.id = n.id) (fun _ => rfl) named other
  · intro other
    exact votedFor_of_vote kept (Or.inl (forgets.of_update other)) (recalls.votedFor other)

theorem deliverLate (peer : NodeID) (req : RequestVoteRequest) :
    Recalls (s.deliverLate peer req) := by
  have kept : s.grants ⊆ (s.deliverLate peer req).grants := by
    rw [grants_deliverLate]
    split
    · exact List.subset_cons_self _ _
    · exact List.Subset.refl _
  have continues : Continues (s.nodes peer) ((s.nodes peer).handleRequestVote req).1 :=
    Reacts.continues (.voteHandled ((s.nodes peer).handleRequestVote_spec req))
  constructor
  · intro id
    refine Eq.trans ?_ (recalls.id id)
    exact related_update (R := fun n later => later.id = n.id) (fun _ => rfl) continues.id id
  · intro id
    exact votedFor_of_vote kept (vote_of_handled s peer req id) (recalls.votedFor id)

end Recalls

/-! ## One more vote -/

/-- All votes that a node has given in a term are for one candidate. -/
def VotedOnlyFor (s : Cluster) (voter : NodeID) (term : Nat) (candidate : NodeID) : Prop :=
  forall grant, grant ∈ s.grants -> grant.voter = voter -> grant.term = term ->
    grant.candidate = candidate

/-- The node grants a request without a vote in the term of it that it would
remember. -/
def GrantsAnew (n : Node) (req : RequestVoteRequest) : Prop :=
  (n.currentTerm < req.term ∨ n.currentTerm = req.term ∧ n.votedFor = []) ∧
    n.isLogUpToDate req.lastLogIndex req.lastLogTerm = true

theorem SingleVote.cons_iff (single : SingleVote s) (grant : Grant)
    (grants : after.grants = grant :: s.grants) :
    SingleVote after <-> VotedOnlyFor s grant.voter grant.term grant.candidate := by
  constructor
  · intro later old inside sameVoter sameTerm
    have recorded : grant ∈ after.grants := grants ▸ List.mem_cons_self
    have stays : old ∈ after.grants := grants ▸ List.mem_cons_of_mem _ inside
    exact later old stays grant recorded sameVoter sameTerm
  · intro agrees
    exact single.cons grant agrees grants

theorem SingleVote.of_same (single : SingleVote s) (same : after.grants = s.grants) :
    SingleVote after := by
  rw [SingleVote, same]
  exact single

variable {req : RequestVoteRequest}

theorem granted_of_grantsAnew {n : Node} (anew : GrantsAnew n req) :
    (n.handleRequestVote req).2.voteGranted = true := by
  rcases anew with ⟨later | ⟨same, forgotten⟩, upToDate⟩
  · have current : ¬ req.term < n.currentTerm := Nat.not_lt.mpr (Nat.le_of_lt later)
    have free : (n.becomeFollower req.term).isLogUpToDate req.lastLogIndex req.lastLogTerm =
      true := upToDate
    simp only [Node.handleRequestVote, if_neg current, if_pos later]
    rw [if_pos ⟨Or.inl rfl, free⟩]
  · have current : ¬ req.term < n.currentTerm := Nat.not_lt.mpr (Nat.le_of_eq same)
    have notLater : ¬ req.term > n.currentTerm := Nat.not_lt.mpr (Nat.le_of_eq same.symm)
    simp only [Node.handleRequestVote, if_neg current, if_neg notLater]
    rw [if_pos ⟨Or.inl forgotten, upToDate⟩]

variable {resp : RequestVoteResponse}

/-- A node that grants a request not anew has voted for the candidate. -/
theorem Recalls.votedOnlyFor (recalls : Recalls s) (single : SingleVote s) {peer : NodeID}
    {voter : Node} (handled : (s.nodes peer).VoteHandled req voter resp)
    (granted : resp.voteGranted = true) (again : ¬ GrantsAnew (s.nodes peer) req) :
    VotedOnlyFor s peer req.term req.candidateID := by
  cases handled with
  | stale old => cases granted
  | refused current => cases granted
  | granted current free upToDate =>
      have same : (s.nodes peer).currentTerm = req.term := by
        rcases Nat.lt_or_eq_of_le current with later | same
        · exact absurd ⟨Or.inl later, upToDate⟩ again
        · exact same
      have remembers : (s.nodes peer).votedFor ≠ [] :=
        fun forgotten => again ⟨Or.inr ⟨same, forgotten⟩, upToDate⟩
      have recorded := recalls.votedFor peer remembers
      rw [same, (free same).resolve_left remembers] at recorded
      exact fun old inside sameVoter sameTerm => single old inside _ recorded sameVoter sameTerm

theorem Recalls.singleVote_deliverLate (recalls : Recalls s) (single : SingleVote s) (peer : NodeID)
    (req : RequestVoteRequest) : SingleVote (s.deliverLate peer req) <->
      (GrantsAnew (s.nodes peer) req -> VotedOnlyFor s peer req.term req.candidateID) := by
  by_cases granted : ((s.nodes peer).handleRequestVote req).2.voteGranted = true
  · have more := s.grants_deliverLate peer req
    rw [if_pos granted] at more
    rw [single.cons_iff ⟨peer, req.term, req.candidateID⟩ more]
    constructor
    · exact fun only _ => only
    · intro asks
      by_cases anew : GrantsAnew (s.nodes peer) req
      · exact asks anew
      · exact recalls.votedOnlyFor single ((s.nodes peer).handleRequestVote_spec req) granted anew
  · have same := s.grants_deliverLate peer req
    rw [if_neg granted] at same
    exact iff_of_true (single.of_same same) fun anew => absurd (granted_of_grantsAnew anew) granted

/-- Votes are given when elections start and when requests are delivered. -/
theorem Action.grants (action : Action config s event after) : after.grants = s.grants ∨
    (Exists fun id => event = .electionTimeout id) ∨
      Exists fun id => Exists fun election => Exists fun peer => event =
          .deliverVote id election peer := by
  cases action with
  | startElection member => exact Or.inr (Or.inl ⟨_, rfl⟩)
  | deliverVote request => exact Or.inr (Or.inr ⟨_, _, _, rfl⟩)
  | voteReply request answered waiting => exact Or.inl (grants_voteReply ..)
  | _ => exact Or.inl rfl

/-! ## What is remembered, and what is forgotten -/

/-- The node is past the term, or it remembers a vote in it. -/
def VoteHeld (n : Node) (term : Nat) : Prop :=
  term < n.currentTerm ∨ term = n.currentTerm ∧ n.votedFor ≠ []

/-- The node goes on to a later term, or still has a vote when it had one. -/
def StillVoted (n later : Node) : Prop :=
  n.currentTerm < later.currentTerm ∨ later.currentTerm = n.currentTerm ∧
    (n.votedFor ≠ [] -> later.votedFor ≠ [])

theorem StillVoted.refl (n : Node) : StillVoted n n := Or.inr ⟨rfl, id⟩

theorem StillVoted.voteHeld {n later : Node} (still : StillVoted n later) {term : Nat}
    (holds : VoteHeld n term) :
    VoteHeld later term := by
  rcases still with newer | ⟨same, votes⟩
  · rcases holds with past | ⟨rfl, _⟩
    · exact Or.inl (Nat.lt_trans past newer)
    · exact Or.inl newer
  · rw [VoteHeld, same]
    exact holds.imp_right fun voted => ⟨voted.1, votes voted.2⟩

theorem stillVoted_of_voteHandled {n later : Node} (handled : n.VoteHandled req later resp) :
    StillVoted n later := by
  cases handled with
  | stale old => exact .refl n
  | refused current =>
      rcases Nat.lt_or_eq_of_le current with newer | same
      · exact Or.inl (newer.trans_eq (Node.currentTerm_catchUp current).symm)
      · rw [← same, Node.catchUp_self]
        exact .refl n
  | granted current free upToDate =>
      rcases Nat.lt_or_eq_of_le current with newer | same
      · exact Or.inl (newer.trans_eq (Node.currentTerm_catchUp current).symm)
      · refine Or.inr ⟨(Node.currentTerm_catchUp current).trans same.symm, fun voted => ?_⟩
        exact (free same).resolve_left voted ▸ voted

theorem stillVoted_of_voteReplied {n later : Node} {votes counted : Nat}
    (replied : n.VoteReplied votes req resp later counted) : StillVoted n later := by
  cases replied with
  | deposed notCounted newer => exact Or.inl newer
  | _ => exact .refl _

theorem stillVoted_of_appendReplied {n later : Node} {peer : NodeID} {req : AppendEntriesRequest}
    {resp : AppendEntriesResponse} (replied : n.AppendReplied peer req resp later) :
    StillVoted n later := by
  cases replied with
  | deposed newer => exact Or.inl newer
  | matched leads same success =>
      have commits := (Node.updateCommitIndex_spec (n.matched peer req)).1
      refine Or.inr ⟨commits.currentTerm, fun voted => ?_⟩
      rw [commits.votedFor]
      exact voted
  | _ => exact .refl _

/-- A request that is not of the node's own term leaves its vote alone. -/
theorem stillVoted_of_appendHandled {n later : Node} {req : AppendEntriesRequest}
    {resp : AppendEntriesResponse} (handled : n.AppendHandled req later resp)
    (other : req.term ≠ n.currentTerm) : StillVoted n later := by
  cases handled with
  | stale old resp failed => exact .refl n
  | rejected current resp failed => exact Or.inl (Nat.lt_of_le_of_ne current other.symm)
  | accepted current previous resp =>
      have commits := (Node.followCommit_spec (n.takeEntries req) req.leaderCommit).1
      exact Or.inl (commits.currentTerm.symm ▸ Nat.lt_of_le_of_ne current other.symm)

theorem StillVoted.of_update {nodes : NodeID -> Node} {changed : NodeID} {n : Node}
    (still : StillVoted (nodes changed) n) (id : NodeID) :
    StillVoted (nodes id) (update nodes changed n id) :=
  related_update StillVoted.refl still id

/-- In an event every node still has its vote, or the event makes it forget the votes of
its term. -/
theorem Action.stillVoted (action : Action config s event after) (id : NodeID) :
    StillVoted (s.nodes id) (after.nodes id) ∨ forall grant, grant ∈ s.grants -> grant.voter = id ->
      grant.term = (s.nodes id).currentTerm -> grant ∈ s.clearedVotes event := by
  cases action with
  | @startElection candidate member =>
      rw [nodes_startElection]
      exact Or.inl (StillVoted.of_update (Or.inl (Nat.lt_succ_self _)) id)
  | propose member leads =>
      refine Or.inl (StillVoted.of_update ?_ id)
      rw [propose_of_leader leads]
      exact .refl _
  | deliverVote request =>
      rw [nodes_deliverVote]
      exact Or.inl (StillVoted.of_update
        (stillVoted_of_voteHandled (Node.handleRequestVote_spec _ _)) id)
  | voteReply request answered waiting =>
      rw [nodes_voteReply]
      exact Or.inl (StillVoted.of_update (stillVoted_of_voteReplied (Node.voteReply_spec _ _ _ _)) id)
  | @deliverAppend index call req there built =>
      by_cases own : id = call.peer ∧ req.term = (s.nodes call.peer).currentTerm
      · rcases own with ⟨rfl, same⟩
        refine Or.inr fun grant given voter term => ?_
        simp only [clearedVotes, there, built, if_pos same]
        exact List.mem_filter.mpr ⟨given, by simp [voter, term, same]⟩
      · refine Or.inl ?_
        rcases eq_or_ne id call.peer with rfl | different
        · have other : req.term ≠ (s.nodes call.peer).currentTerm := fun same => own ⟨rfl, same⟩
          have handled := Node.handleAppendEntries_spec (s.nodes call.peer) req
          exact StillVoted.of_update (stillVoted_of_appendHandled handled other) call.peer
        · exact (congrArg (StillVoted (s.nodes id)) (update_of_ne different _ _)).mpr (.refl _)
  | appendReply there built answered =>
      exact Or.inl (StillVoted.of_update
        (stillVoted_of_appendReplied (Node.appendEntriesReply_spec _ _ _ _)) id)
  | @receive receiver =>
      have same : StillVoted (s.nodes receiver) { s.nodes receiver with
          applyCh := (s.nodes receiver).applyCh.receive } := Or.inr ⟨rfl, fun voted => voted⟩
      exact Or.inl (same.of_update id)
  | _ => exact Or.inl (.refl _)

/-- A vote that is given in a request is remembered, unless the candidate has no name. -/
theorem voteHeld_of_granted {peer : NodeID} {grant : Grant}
    (given : grant ∈ (s.deliverLate peer req).grants) : grant ∈ s.grants ∨ grant.candidate = [] ∨
      VoteHeld ((s.deliverLate peer req).nodes grant.voter) grant.term := by
  rw [grants_deliverLate] at given
  split at given
  next granted =>
    rcases List.mem_cons.mp given with rfl | before
    · have vote := vote_of_granted ((s.nodes peer).handleRequestVote_spec req) granted
      by_cases unnamed : req.candidateID = []
      · exact Or.inr (Or.inl unnamed)
      · refine Or.inr (Or.inr ?_)
        change VoteHeld (update s.nodes peer ((s.nodes peer).handleRequestVote req).1 peer) req.term
        rw [update_self]
        exact Or.inr ⟨vote.1.symm, vote.2.symm ▸ unnamed⟩
    · exact Or.inl before
  next => exact Or.inl given

/-- A new vote is remembered, unless the candidate has no name. -/
theorem Action.voteHeld_new (action : Action config s event after)
    (named : forall id, (s.nodes id).id = id) {grant : Grant} (given : grant ∈ after.grants) :
    grant ∈ s.grants ∨ grant.candidate = [] ∨ VoteHeld (after.nodes grant.voter) grant.term := by
  cases action with
  | @startElection candidate member =>
      rcases List.mem_cons.mp given with rfl | before
      · by_cases unnamed : candidate = []
        · exact Or.inr (Or.inl unnamed)
        · refine Or.inr (Or.inr ?_)
          rw [nodes_startElection, update_self]
          exact Or.inr ⟨rfl, fun none => unnamed ((named candidate).symm.trans none)⟩
      · exact Or.inl before
  | @deliverVote candidate election peer req request =>
      rw [grants_deliverVote, ← candidateID_of_request request, ← grants_deliverLate] at given
      rw [nodes_deliverVote]
      exact voteHeld_of_granted given
  | voteReply request answered waiting =>
      rw [grants_voteReply] at given
      exact Or.inl given
  | _ => exact Or.inl given

end Cluster

namespace FaultyCluster

open Cluster

variable {config : ClusterConfig} {s : FaultyCluster}

/-- Every vote in a run is remembered or forgotten.  A vote for a candidate without a name cannot
be told from no vote. -/
structure Remembers (s : FaultyCluster) : Prop where
  recalls : s.cluster.Recalls
  given : s.forgotten ⊆ s.cluster.grants
  known : forall grant, grant ∈ s.cluster.grants -> grant ∈ s.forgotten ∨ grant.candidate = [] ∨
    VoteHeld (s.cluster.nodes grant.voter) grant.term

theorem Remembers.ordinary (remembers : Remembers s) (event : Event) :
    Remembers (s.step config (.ordinary event)) := by
  have action := step_action config s.cluster event
  refine ⟨remembers.recalls.step config event, fun grant lost => ?_, fun grant given => ?_⟩
  · apply action.grants_subset
    rcases List.mem_append.mp lost with before | cleared
    · exact remembers.given before
    · exact clearedVotes_subset _ event cleared
  · rcases action.voteHeld_new remembers.recalls.id given with before | new
    · rcases remembers.known grant before with lost | unnamed | holds
      · exact Or.inl (List.mem_append_left _ lost)
      · exact Or.inr (Or.inl unnamed)
      · rcases action.stillVoted grant.voter with still | cleared
        · exact Or.inr (Or.inr (still.voteHeld holds))
        · rcases holds with past | ⟨current, _⟩
          · exact Or.inr (Or.inr
              (Or.inl (Nat.lt_of_lt_of_le past (action.continues grant.voter).2.2)))
          · exact Or.inl (List.mem_append_right _ (cleared grant before rfl current))
    · exact Or.inr new

theorem Remembers.restart (remembers : Remembers s) (id : NodeID) :
    Remembers (s.step config (.restart id)) := by
  refine ⟨remembers.recalls.restart config id, fun grant lost => ?_, fun grant given => ?_⟩
  · rcases List.mem_append.mp lost with before | all
    · exact remembers.given before
    · exact List.mem_of_mem_filter all
  · by_cases own : grant.voter = id
    · exact Or.inl (List.mem_append_right _ (List.mem_filter.mpr ⟨given, by simp [own]⟩))
    · refine (remembers.known grant given).imp (List.mem_append_left _) (Or.imp_right fun holds => ?_)
      exact (congrArg (VoteHeld · grant.term) (update_of_ne own _ _)).mpr holds

theorem Remembers.deliverLate (remembers : Remembers s) (peer : NodeID) (req : RequestVoteRequest) :
    Remembers { s with cluster := s.cluster.deliverLate peer req } := by
  refine ⟨remembers.recalls.deliverLate peer req, fun grant lost => ?_, fun grant given => ?_⟩
  · have before := remembers.given lost
    change grant ∈ (s.cluster.deliverLate peer req).grants
    rw [grants_deliverLate]
    split
    · exact List.mem_cons_of_mem _ before
    · exact before
  · rcases voteHeld_of_granted given with before | new
    · refine (remembers.known grant before).imp_right (Or.imp_right fun holds => ?_)
      have still := stillVoted_of_voteHandled ((s.cluster.nodes peer).handleRequestVote_spec req)
      exact (still.of_update grant.voter).voteHeld holds
    · exact Or.inr new

theorem remembers_run (config : ClusterConfig) (events : List FaultyEvent) :
    Remembers (run config events) := by
  induction events using List.reverseRecOn with
  | nil => exact ⟨recalls_init config, List.Subset.refl _, fun grant given => nomatch given⟩
  | append_singleton events event ih =>
      rw [run_snoc]
      cases event with
      | ordinary event => exact ih.ordinary event
      | restart id => exact ih.restart id
      | deliverLate crash election peer =>
          rw [step]
          split
          · exact ih
          · exact ih.deliverLate peer _

/-! ## Runs -/

/-- The node has forgotten no vote for another candidate of the term. -/
def NoneForgotten (s : FaultyCluster) (voter : NodeID) (term : Nat) (candidate : NodeID) : Prop :=
  forall grant, grant ∈ s.forgotten ∨ grant ∈ s.cluster.grants ∧ grant.candidate = [] ->
    grant.voter = voter -> grant.term = term -> grant.candidate = candidate

/-- A node grants a request anew, or starts an election, only in a term in which it has forgotten
no vote for another candidate. -/
def AsksOnce (config : ClusterConfig) (s : FaultyCluster) : FaultyEvent -> Prop
  | .ordinary (.electionTimeout id) =>
      id ∈ config.ids -> NoneForgotten s id ((s.cluster.nodes id).currentTerm + 1) id
  | .ordinary (.deliverVote id election peer) =>
      forall req, (s.cluster.voteCalls id election peer).request id = some req ->
        GrantsAnew (s.cluster.nodes peer) req -> NoneForgotten s peer req.term req.candidateID
  | .deliverLate crash election peer =>
      forall req, s.lateRequest crash election peer = some req ->
        GrantsAnew (s.cluster.nodes peer) req -> NoneForgotten s peer req.term req.candidateID
  | _ => True

/-- A node that restarts has acknowledged nothing. -/
def RestartsBlank (s : FaultyCluster) : FaultyEvent -> Prop
  | .restart id => s.acknowledged id = []
  | _ => True

/-- In a term that a node does not hold, what it has voted is what it has forgotten. -/
theorem Remembers.votedOnlyFor_iff (remembers : Remembers s) {voter candidate : NodeID} {term : Nat}
    (free : ¬ VoteHeld (s.cluster.nodes voter) term) :
    VotedOnlyFor s.cluster voter term candidate <-> NoneForgotten s voter term candidate := by
  constructor
  · rintro only grant (lost | unnamed) sameVoter sameTerm
    · exact only grant (remembers.given lost) sameVoter sameTerm
    · exact only grant unnamed.1 sameVoter sameTerm
  · intro none grant given sameVoter sameTerm
    rcases remembers.known grant given with lost | unnamed | holds
    · exact none grant (Or.inl lost) sameVoter sameTerm
    · exact none grant (Or.inr ⟨given, unnamed⟩) sameVoter sameTerm
    · rw [sameVoter, sameTerm] at holds
      exact absurd holds free

theorem not_voteHeld_of_grantsAnew {n : Node} {req : RequestVoteRequest} (anew : GrantsAnew n req) :
    ¬ VoteHeld n req.term := by
  rintro (past | ⟨same, voted⟩)
  · rcases anew.1 with later | ⟨same, _⟩
    · exact Nat.lt_asymm past later
    · exact Nat.ne_of_gt past same
  · rcases anew.1 with later | ⟨_, forgotten⟩
    · exact Nat.ne_of_gt later same
    · exact voted forgotten

section

variable (remembers : Remembers s) (single : SingleVote s.cluster)

include remembers single

/-- The delivery of a request, which there may be or not, and whose sender may be gone. -/
theorem singleVote_deliver (peer : NodeID) {request : Option RequestVoteRequest} {after : Cluster}
    (absent : request = none -> after.grants = s.cluster.grants)
    (present : forall req, request = some req ->
      after.grants = (s.cluster.deliverLate peer req).grants) :
    SingleVote after <-> forall req, request = some req ->
      GrantsAnew (s.cluster.nodes peer) req -> NoneForgotten s peer req.term req.candidateID := by
  cases request with
  | none => exact iff_of_true (single.of_same (absent rfl)) fun _ impossible => nomatch impossible
  | some req =>
      simp only [SingleVote, present req rfl, Option.some.injEq, forall_eq']
      refine (remembers.recalls.singleVote_deliverLate single peer req).trans ?_
      exact imp_congr_right fun anew => remembers.votedOnlyFor_iff (not_voteHeld_of_grantsAnew anew)

theorem singleVote_ordinary (event : Event) :
    SingleVote (s.cluster.step config event) <-> AsksOnce config s (.ordinary event) := by
  cases event with
  | electionTimeout id =>
      rw [Cluster.step]
      by_cases member : id ∈ config.ids
      · have free : ¬ VoteHeld (s.cluster.nodes id) ((s.cluster.nodes id).currentTerm + 1) := by
          rintro (past | ⟨same, _⟩) <;> omega
        rw [if_pos member, single.cons_iff ⟨id, (s.cluster.nodes id).currentTerm + 1, id⟩ rfl,
          remembers.votedOnlyFor_iff free]
        exact ⟨fun only _ => only, fun only => only member⟩
      · rw [if_neg member]
        exact iff_of_true single fun isMember => absurd isMember member
  | deliverVote id election peer =>
      refine singleVote_deliver remembers single peer (fun nothing => ?_) (fun req request => ?_)
      · simp only [Cluster.step, nothing]
      · simp only [Cluster.step, request]
        rw [grants_deliverVote, grants_deliverLate, candidateID_of_request request]
  | _ =>
      refine iff_of_true ?_ trivial
      rcases (step_action config s.cluster _).grants with same | ⟨_, impossible⟩
        | ⟨_, _, _, impossible⟩
      · exact single.of_same same
      · cases impossible
      · cases impossible

theorem singleVote_step (event : FaultyEvent) :
    SingleVote (s.step config event).cluster <-> AsksOnce config s event := by
  cases event with
  | ordinary event => exact singleVote_ordinary remembers single event
  | restart id => exact iff_of_true single trivial
  | deliverLate crash election peer =>
      refine singleVote_deliver remembers single peer (fun nothing => ?_) (fun req request => ?_)
      · simp only [step, nothing]
      · simp only [step, request]

end

theorem singleVote_snoc {events : List FaultyEvent} (event : FaultyEvent)
    (single : SingleVote (run config events).cluster) :
    SingleVote (run config (events ++ [event])).cluster <->
        AsksOnce config (run config events) event := by
  rw [run_snoc]
  exact singleVote_step (remembers_run config events) single event

/-- A restarted node has every entry that it has acknowledged. -/
def Retains (config : ClusterConfig) (events : List FaultyEvent) : Prop :=
  forall count id, events[count]? = some (.restart id) ->
    forall entry, entry ∈ (run config (events.take count)).acknowledged id ->
      entry ∈ ((run config (events.take (count + 1))).cluster.nodes id).log

theorem log_of_restart {events : List FaultyEvent} {count : Nat} {id : NodeID}
    (present : events[count]? = some (.restart id)) :
    ((run config (events.take (count + 1))).cluster.nodes id).log = [] := by
  rw [List.take_add_one, present, Option.toList_some, run_snoc]
  simp only [step, Cluster.restart, update_self]
  rfl

theorem retains_iff (events : List FaultyEvent) : Retains config events <->
    forall count event, events[count]? = some event ->
      RestartsBlank (run config (events.take count)) event := by
  constructor
  · intro retains count event present
    cases event with
    | restart id =>
        apply List.eq_nil_iff_forall_not_mem.mpr
        intro entry acknowledged
        have held := retains count id present entry acknowledged
        rw [log_of_restart present] at held
        cases held
    | _ => trivial
  · intro blank count id present entry acknowledged
    have nothing : (run config (events.take count)).acknowledged id = [] := blank count _ present
    rw [nothing] at acknowledged
    cases acknowledged

/-- In a run with restarts no node votes for two candidates of a term and every
restarted node has what it acknowledged, exactly when no node is asked for a vote,
or asks itself, in a term in which a restart or a request of its own term has made
it forget a vote for another candidate, and no node restarts after it has
acknowledged an entry. -/
theorem restarts_durable_iff (config : ClusterConfig) (events : List FaultyEvent) :
    (forall count, count ≤ events.length -> SingleVote (run config (events.take count)).cluster) ∧
        Retains config events <->
      forall count event, events[count]? = some event ->
        AsksOnce config (run config (events.take count)) event ∧
          RestartsBlank (run config (events.take count)) event := by
  have start : SingleVote (run config []).cluster := fun _ inside => nomatch inside
  have votes := @Runs.forall_take_iff FaultyEvent
    (fun events => SingleVote (run config events).cluster)
    (fun events => AsksOnce config (run config events)) start
    (fun _ event => singleVote_snoc event) events
  rw [votes, retains_iff]
  constructor
  · rintro ⟨once, blank⟩ count event present
    exact ⟨once count event present, blank count event present⟩
  · intro both
    exact ⟨fun count event present => (both count event present).1,
      fun count event present => (both count event present).2⟩

/-- A follower votes for the leader and stores its entry, and after a restart it
votes for another candidate of the same term. -/
def voteAfterRestart : List FaultyEvent :=
  calmElection.map .ordinary ++
    [.ordinary (.propose [97] [1]), .ordinary (.buildAppend 0), .ordinary (.deliverAppend 0),
      .restart [98], .ordinary (.electionTimeout [100])] ++ (askVote [100] 1 [98]).map .ordinary

theorem restart_forgets :
    ¬ SingleVote (run fourNodes voteAfterRestart).cluster ∧
      ¬ Retains fourNodes voteAfterRestart := by
  constructor
  · intro single
    have same := single ⟨[98], 1, [97]⟩ (by decide +kernel) ⟨[98], 1, [100]⟩
      (by decide +kernel) rfl rfl
    exact absurd same (by decide)
  · intro retains
    have held := retains 14 [98] rfl ⟨1, 1, [1]⟩ (by decide +kernel)
    rw [log_of_restart rfl] at held
    cases held

end FaultyCluster
end Raft
end KVStore
