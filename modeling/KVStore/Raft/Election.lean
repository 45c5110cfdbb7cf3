import KVStore.Raft.ClusterSteps
import KVStore.Library.Majority

namespace KVStore
namespace Raft
namespace Cluster

open Function Majority

/-!
# Elections

A candidate counts the votes of each of its elections in a counter of its own
and becomes leader when the counter of one election exceeds
`len(peers) / 2 + 1`.  Two things can go wrong.  A goroutine of an earlier
election may build its request in the present term, and its vote is then added
to the counter of the earlier election.  And a node forgets its vote whenever it
hears from a leader, also from the leader of its own term.

A leader that was elected without the first has the votes of a majority in its
term.  Without the second, no node votes for two candidates of a term, and there
is at most one leader in each term.
-/

variable {config : ClusterConfig} {s after : Cluster} {event : Event}

/-! ## Votes and counters -/

/-- Every vote that a goroutine has got belongs to its request, and the request
and the voter have some property. -/
def Backed (s : Cluster) (P : NodeID -> RequestVoteRequest -> NodeID -> Prop) : Prop :=
  forall id election peer resp, resp ∈ (s.voteCalls id election peer).responses ->
    resp.voteGranted = true ->
    Exists fun req => (s.voteCalls id election peer).request id = some req ∧ P id req peer

/-- What holds of the votes in every run. -/
structure Ballots (config : ClusterConfig) (s : Cluster) : Prop where
  recorded : forall grant, grant ∈ s.grants -> grant.term ≤ (s.nodes grant.voter).currentTerm
  own : forall id, (s.nodes id).state ≠ .follower -> ⟨id, (s.nodes id).currentTerm, id⟩ ∈ s.grants
  votedFor : forall id, (s.nodes id).votedFor ≠ [] ->
    ⟨id, (s.nodes id).currentTerm, (s.nodes id).votedFor⟩ ∈ s.grants
  answered : Backed s fun id req peer => ⟨peer, req.term, id⟩ ∈ s.grants
  finished : forall id election peer, (s.voteCalls id election peer).counted = true ->
    (s.voteCalls id election peer).finished = true
  counting : forall id election, s.votesReceived id election ≤
    1 + (config.peers id).countP fun peer => (s.voteCalls id election peer).counted

theorem Action.grants_subset (action : Action config s event after) : s.grants ⊆ after.grants := by
  cases action with
  | startElection member => exact List.subset_cons_self _ _
  | @deliverVote id election peer req request =>
      rw [grants_deliverVote]
      split
      · exact List.subset_cons_self _ _
      · exact List.Subset.refl _
  | voteReply request answered waiting =>
      rw [grants_voteReply]
      exact List.Subset.refl _
  | _ => exact List.Subset.refl _

variable {req : RequestVoteRequest} {resp : RequestVoteResponse} {election : Nat}

/-- The candidate of a request is the node that built it. -/
theorem candidateID_of_request {call : VoteCall} {id : NodeID}
    (request : call.request id = some req) : req.candidateID = id := by
  simp only [VoteCall.request, Option.bind_eq_bind, Option.bind_eq_some_iff, Option.pure_def,
    Option.some.injEq] at request
  rcases request with ⟨_, _, _, _, _, _, rfl⟩
  rfl

/-- A node that handles a request keeps its vote, or its new vote is recorded. -/
theorem vote_of_handled (s : Cluster) (peer : NodeID) (req : RequestVoteRequest) (id : NodeID) :
    KeepsVote (s.nodes id) (update s.nodes peer ((s.nodes peer).handleRequestVote req).1 id) ∨
      ⟨id, (update s.nodes peer ((s.nodes peer).handleRequestVote req).1 id).currentTerm,
        (update s.nodes peer ((s.nodes peer).handleRequestVote req).1 id).votedFor⟩ ∈
          if ((s.nodes peer).handleRequestVote req).2.voteGranted then
            ⟨peer, req.term, req.candidateID⟩ :: s.grants
          else s.grants := by
  have handled := (s.nodes peer).handleRequestVote_spec req
  rcases Bool.eq_false_or_eq_true ((s.nodes peer).handleRequestVote req).2.voteGranted with
    granted | refused
  · rcases eq_or_ne id peer with rfl | different
    · rw [update_self, if_pos granted, (vote_of_granted handled granted).1,
        (vote_of_granted handled granted).2]
      exact Or.inr List.mem_cons_self
    · rw [update_of_ne different]
      exact Or.inl (.refl _)
  · exact Or.inl (KeepsVote.of_update (keepsVote_of_voteHandled handled refused) id)

/-- A node keeps its vote or has given a new one, which is recorded. -/
theorem Action.vote (action : Action config s event after) (named : forall id, (s.nodes id).id = id)
    (id : NodeID) :
    KeepsVote (s.nodes id) (after.nodes id) ∨
      ⟨id, (after.nodes id).currentTerm, (after.nodes id).votedFor⟩ ∈ after.grants := by
  cases action with
  | @startElection candidate member =>
      rw [nodes_startElection]
      rcases eq_or_ne id candidate with rfl | different
      · rw [update_self, Node.startElection, named]
        exact Or.inr List.mem_cons_self
      · rw [update_of_ne different]
        exact Or.inl (.refl _)
  | propose member leads =>
      refine Or.inl (KeepsVote.of_update ?_ id)
      rw [propose_of_leader leads]
      exact .refl _
  | @deliverVote candidate election peer req request =>
      rw [nodes_deliverVote, grants_deliverVote, ← candidateID_of_request request]
      exact vote_of_handled s peer req id
  | voteReply request answered waiting =>
      rw [nodes_voteReply]
      exact Or.inl (KeepsVote.of_update (keepsVote_of_voteReplied (Node.voteReply_spec _ _ _ _)) id)
  | deliverAppend there built =>
      exact Or.inl (KeepsVote.of_update
        (keepsVote_of_appendHandled (Node.handleAppendEntries_spec _ _)) id)
  | appendReply there built answered =>
      exact Or.inl (KeepsVote.of_update
        (keepsVote_of_appendReplied (Node.appendEntriesReply_spec _ _ _ _)) id)
  | @receive receiver =>
      have same : KeepsVote (s.nodes receiver) { s.nodes receiver with
          applyCh := (s.nodes receiver).applyCh.receive } := Or.inr ⟨rfl, rfl⟩
      exact Or.inl (same.of_update id)
  | _ => exact Or.inl (.refl _)

/-- A vote that is remembered is recorded, if it was before. -/
theorem votedFor_of_vote {id : NodeID} (kept : s.grants ⊆ after.grants)
    (vote : KeepsVote (s.nodes id) (after.nodes id) ∨
      ⟨id, (after.nodes id).currentTerm, (after.nodes id).votedFor⟩ ∈ after.grants)
    (before : (s.nodes id).votedFor ≠ [] ->
      ⟨id, (s.nodes id).currentTerm, (s.nodes id).votedFor⟩ ∈ s.grants)
    (voted : (after.nodes id).votedFor ≠ []) :
    ⟨id, (after.nodes id).currentTerm, (after.nodes id).votedFor⟩ ∈ after.grants := by
  rcases vote with (none | ⟨sameVote, sameTerm⟩) | recorded
  · exact absurd none voted
  · rw [sameVote] at voted ⊢
    rw [sameTerm]
    exact kept (before voted)
  · exact recorded

/-- A goroutine that still reads has no request yet. -/
theorem request_of_reads {n : Node} {id peer : NodeID} {call later : VoteCall}
    (reads : Reads n id election peer call event later) (candidate : NodeID) :
    call.request candidate = none := by
  cases reads with
  | term unread => simp [VoteCall.request, unread]
  | lastLogIndex unread => simp [VoteCall.request, unread]
  | lastLogTerm unread => simp [VoteCall.request, unread]

theorem Backed.step {P Q : NodeID -> RequestVoteRequest -> NodeID -> Prop} (backed : Backed s P)
    (action : Action config s event after)
    (weaker : forall id req peer, P id req peer -> Q id req peer)
    (new : forall id election peer req, event = .deliverVote id election peer ->
      (s.voteCalls id election peer).request id = some req ->
      after = s.deliverVote id election peer req ->
      ((s.nodes peer).handleRequestVote req).2.voteGranted = true -> Q id req peer) :
    Backed after Q := by
  intro id election peer resp answered granted
  have proceeds := action.proceeds id election peer
  have old : resp ∈ (s.voteCalls id election peer).responses ->
      Exists fun req => (s.voteCalls id election peer).request id = some req ∧ Q id req peer := by
    intro before
    rcases backed id election peer resp before granted with ⟨req, request, holds⟩
    exact ⟨req, request, weaker id req peer holds⟩
  generalize after.voteCalls id election peer = call at proceeds answered
  cases proceeds with
  | same => exact old answered
  | absent => cases answered
  | spawned member begun new isPeer => cases answered
  | read started reads nodes =>
      rw [(started_of_reads reads).2.1] at answered
      rcases old answered with ⟨req, request, _⟩
      rw [request_of_reads reads] at request
      cases request
  | answered req happens request result =>
      rcases List.mem_append.mp answered with before | fresh
      · exact old before
      · exact ⟨req, request, new id election peer req happens request result
          (List.mem_singleton.mp fresh ▸ granted)⟩
  | finished response req resp happens request replied waiting => exact old answered

/-- The counter of an election counts the replies that are counted as votes. -/
theorem votes_of_voteReplied {n later : Node} {votes counted : Nat}
    (replied : n.VoteReplied votes req resp later counted) :
    counted = if n.countsVote req resp then votes + 1 else votes := by
  cases replied with
  | ignored notCounted => rw [notCounted, if_neg Bool.false_ne_true]
  | deposed notCounted later => rw [notCounted, if_neg Bool.false_ne_true]
  | counted counted => rw [if_pos counted]
  | won counted enough => rw [if_pos counted]

/-- The number of peers whose replies are counted as votes in an election. -/
def countedVotes (config : ClusterConfig) (s : Cluster) (id : NodeID) (election : Nat) : Nat :=
  (config.peers id).countP fun peer => (s.voteCalls id election peer).counted

/-- A counter has grown by the votes that are newly counted in it. -/
def Balanced (config : ClusterConfig) (s after : Cluster) (id : NodeID) (election : Nat) : Prop :=
  after.votesReceived id election + countedVotes config s id election =
    s.votesReceived id election + countedVotes config after id election

theorem votesReceived_startElection_new (s : Cluster) (id : NodeID) :
    (s.startElection id).votesReceived id ((s.nodes id).currentTerm + 1) = 1 := by
  simp [Cluster.startElection, Node.startElection]

theorem votesReceived_startElection (s : Cluster) {id other : NodeID}
    (apart : ¬ (other = id ∧ election = (s.nodes id).currentTerm + 1)) :
    (s.startElection id).votesReceived other election = s.votesReceived other election := by
  rcases eq_or_ne other id with rfl | different
  · have otherTerm : election ≠ (s.nodes other).currentTerm + 1 := fun isTerm => apart ⟨rfl, isTerm⟩
    simp [Cluster.startElection, Node.startElection, otherTerm]
  · simp [Cluster.startElection, different]

namespace Balanced

theorem of_same {id : NodeID}
    (votes : after.votesReceived id election = s.votesReceived id election)
    (counted : forall peer, (after.voteCalls id election peer).counted =
      (s.voteCalls id election peer).counted) :
    Balanced config s after id election := by
  rw [Balanced, votes, countedVotes, countedVotes]
  simp only [counted]

/-- A goroutine changes, but not whether it is counted. -/
theorem of_set {id peer : NodeID} {call : VoteCall} (votes : after.votesReceived = s.votesReceived)
    (calls : after.voteCalls = (s.setVoteCall id election peer call).voteCalls)
    (same : call.counted = (s.voteCalls id election peer).counted) (other : NodeID) (term : Nat) :
    Balanced config s after other term := by
  refine of_same (by rw [votes]) fun target => ?_
  rw [calls, voteCalls_setVoteCall]
  split
  · rename_i here
    rcases here with ⟨rfl, rfl, rfl⟩
    exact same
  · rfl

/-- A goroutine that was not counted goes on with its response. -/
theorem of_voteReply (wf : WellFormed config s) {id peer : NodeID}
    (request : (s.voteCalls id election peer).request id = some req)
    (before : (s.voteCalls id election peer).counted = false) (other : NodeID) (term : Nat) :
    Balanced config s (s.voteReply id election peer req resp) other term := by
  have votes := s.votesReceived_voteReply id election peer req resp
  have calls := s.voteCalls_voteReply id election peer req resp
  have replied := votes_of_voteReplied
    ((s.nodes id).voteReply_spec (s.votesReceived id election) req resp)
  by_cases here : other = id ∧ term = election
  · rcases here with ⟨rfl, rfl⟩
    rcases wf.started other term peer (wf.started_of_request request) with ⟨member, isPeer, _⟩
    split at replied
    · rename_i counted
      have more := countP_update (nodup_peers member) isPeer
        (fun target => (s.voteCalls other term target).counted)
        (fun target => ((s.voteReply other term peer req resp).voteCalls other term target).counted)
        before (by simp [calls, voteCalls_setVoteCall, counted])
        (fun target different => by simp [calls, voteCalls_setVoteCall, different])
      rw [Balanced, votes, update_self, update_self, replied, countedVotes, countedVotes, more]
      omega
    · rename_i notCounted
      refine of_same (by rw [votes, update_self, update_self, replied]) fun target => ?_
      rw [calls, voteCalls_setVoteCall]
      split
      · rename_i same
        rw [same.2.2, before, Bool.eq_false_iff.mpr notCounted]
      · rfl
  · refine of_same ?_ fun target => ?_
    · rw [votes]
      rcases eq_or_ne other id with rfl | different
      · rw [update_self, update_of_ne fun isTerm => here ⟨rfl, isTerm⟩]
      · rw [update_of_ne different]
    · rw [calls, voteCalls_setVoteCall, if_neg fun same => here ⟨same.1, same.2.1⟩]

end Balanced

theorem ballots_init (config : ClusterConfig) : Ballots config (init config) := by
  constructor
  · intro grant member
    cases member
  · intro id active
    exact absurd rfl active
  · intro id voted
    exact absurd rfl voted
  · intro id election peer resp member
    cases member
  · intro id election peer counted
    cases counted
  · intro id election
    exact Nat.zero_le _

namespace Ballots

variable (wf : WellFormed config s) (ballots : Ballots config s)
    (action : Action config s event after)

include ballots action

theorem recorded_of_old {grant : Grant} (old : grant ∈ s.grants) :
    grant.term ≤ (after.nodes grant.voter).currentTerm :=
  Nat.le_trans (ballots.recorded grant old) (action.continues grant.voter).2.2

theorem recorded_step (grant : Grant) (inside : grant ∈ after.grants) :
    grant.term ≤ (after.nodes grant.voter).currentTerm := by
  have whole := action
  cases action with
  | @startElection id member =>
      rcases List.mem_cons.mp inside with rfl | old
      · rw [nodes_startElection, update_self]
      · exact ballots.recorded_of_old whole old
  | @deliverVote id election peer req request =>
      rw [grants_deliverVote] at inside
      split at inside
      · rename_i granted
        rcases List.mem_cons.mp inside with rfl | old
        · rw [nodes_deliverVote, update_self]
          have handled := (s.nodes peer).handleRequestVote_spec req
          exact Nat.le_of_eq (vote_of_granted handled granted).1.symm
        · exact ballots.recorded_of_old whole old
      · exact ballots.recorded_of_old whole inside
  | voteReply request answered waiting =>
      rw [grants_voteReply] at inside
      exact ballots.recorded_of_old whole inside
  | _ => exact ballots.recorded_of_old whole inside

theorem own_step (id : NodeID) (active : (after.nodes id).state ≠ .follower) :
    ⟨id, (after.nodes id).currentTerm, id⟩ ∈ after.grants := by
  rcases action.reacts with ⟨candidate, _, rfl⟩ | reacts
  · rw [nodes_startElection] at active ⊢
    rcases eq_or_ne id candidate with rfl | different
    · rw [update_self]
      exact List.mem_cons_self
    · rw [update_of_ne different] at active ⊢
      exact action.grants_subset (ballots.own id active)
  · rcases (reacts id).continues.role active with ⟨sameTerm, before⟩
    rw [sameTerm]
    exact action.grants_subset (ballots.own id before)

include wf in
theorem votedFor_step (id : NodeID) (voted : (after.nodes id).votedFor ≠ []) :
    ⟨id, (after.nodes id).currentTerm, (after.nodes id).votedFor⟩ ∈ after.grants :=
  votedFor_of_vote action.grants_subset (action.vote wf.id id) (ballots.votedFor id) voted

theorem answered_step : Backed after fun id req peer => ⟨peer, req.term, id⟩ ∈ after.grants := by
  refine ballots.answered.step action (fun id req peer recorded => action.grants_subset recorded) ?_
  rintro id election peer req happens request rfl granted
  rw [grants_deliverVote, if_pos granted]
  exact List.mem_cons_self

theorem finished_step (id : NodeID) (election : Nat) (peer : NodeID)
    (counted : (after.voteCalls id election peer).counted = true) :
    (after.voteCalls id election peer).finished = true := by
  have proceeds := action.proceeds id election peer
  have old := ballots.finished id election peer
  generalize after.voteCalls id election peer = call at proceeds counted
  cases proceeds with
  | same => exact old counted
  | absent => cases counted
  | spawned member begun new isPeer => cases counted
  | read started reads nodes =>
      rcases started_of_reads reads with ⟨_, _, finished, sameCounted⟩
      rw [finished]
      exact old (sameCounted ▸ counted)
  | answered req happens request result => exact old counted
  | finished response req resp happens request replied waiting => rfl

include wf in
/-- A counter and the votes counted in it grow together, unless their election
starts. -/
theorem balanced (id : NodeID) (election : Nat) :
    after = s.startElection id ∧ election = (s.nodes id).currentTerm + 1 ∨
        Balanced config s after id election := by
  cases action with
  | @startElection candidate member =>
      by_cases here : id = candidate ∧ election = (s.nodes candidate).currentTerm + 1
      · rcases here with ⟨rfl, new⟩
        exact Or.inl ⟨rfl, new⟩
      · refine Or.inr (.of_same (votesReceived_startElection s here) fun peer => ?_)
        rw [voteCalls_startElection, if_neg here]
  | @read _ candidate term peer call started reads =>
      have votes : (s.setVoteCall candidate term peer call).votesReceived = s.votesReceived := rfl
      exact Or.inr (.of_set votes rfl (started_of_reads reads).2.2.2 id election)
  | @deliverVote candidate term peer req request =>
      have votes : (s.deliverVote candidate term peer req).votesReceived = s.votesReceived := rfl
      have calls := s.voteCalls_deliverVote candidate term peer req
      exact Or.inr (.of_set votes calls rfl id election)
  | @voteReply candidate term peer response req resp request answered waiting =>
      have before : (s.voteCalls candidate term peer).counted = false := by
        by_contra counted
        have finished := ballots.finished candidate term peer (Bool.not_eq_false _ ▸ counted)
        rw [waiting] at finished
        cases finished
      exact Or.inr (.of_voteReply wf request before id election)
  | _ => exact Or.inr (.of_same rfl fun _ => rfl)

include wf in
theorem counting_step (id : NodeID) (election : Nat) : after.votesReceived id election ≤
    1 + (config.peers id).countP fun peer => (after.voteCalls id election peer).counted := by
  have old := ballots.counting id election
  rcases ballots.balanced wf action id election with ⟨rfl, rfl⟩ | balanced
  · rw [votesReceived_startElection_new]
    exact Nat.le_add_right _ _
  · rw [Balanced, countedVotes, countedVotes] at balanced
    omega

include wf in
theorem step : Ballots config after :=
  ⟨ballots.recorded_step action, ballots.own_step action, ballots.votedFor_step wf action,
    ballots.answered_step action, ballots.finished_step action, ballots.counting_step wf action⟩

end Ballots

/-- A node that becomes leader, together with the peers whose votes it has
counted, is a majority. -/
theorem Ballots.majority_of_wins (later : Ballots config after) (wf : WellFormed config s)
    {id peer : NodeID} {election response : Nat}
    (wins : Wins s event after id election peer response req resp) {chosen : NodeID -> Prop}
    [DecidablePred chosen] (own : chosen id)
    (others : forall voter, (after.voteCalls id election voter).counted = true -> chosen voter) :
    HasMajority config.ids chosen := by
  rcases wf.started id election peer (wf.started_of_request wins.request) with ⟨member, _, _⟩
  apply hasMajority_of_peers (perm_cons_peers member) own fun voter =>
    (after.voteCalls id election voter).counted
  · exact fun voter _ isCounted => others voter isCounted
  · have votes : after.votesReceived id election = s.votesReceived id election + 1 := by
      rw [wins.result, votesReceived_voteReply, update_self, update_self,
        votes_of_voteReplied (Node.voteReply_spec _ _ _ _), if_pos wins.counted]
    have enough := wins.enough
    have counting := later.counting id election
    rw [wf.peers] at enough
    omega

/-! ## Genuine majorities -/

/-- A reply that is counted as a vote goes to the counter of the election of the
present term. -/
def countsOwnElection (s : Cluster) : Event -> Bool
  | .voteReply id election peer response =>
      decide (forall req, req ∈ (s.voteCalls id election peer).request id ->
        forall resp, resp ∈ (s.voteCalls id election peer).responses[response]? ->
          (s.voteCalls id election peer).finished = false ->
            (s.nodes id).countsVote req resp = true ->
            election = (s.nodes id).currentTerm)
  | _ => true

/-- The votes counted in an election were given in its term, and a leader has
the votes of a majority in its term. -/
structure Genuine (config : ClusterConfig) (s : Cluster) : Prop where
  counted : forall id election peer, (s.voteCalls id election peer).counted = true ->
    Exists fun req => Exists fun resp => (s.voteCalls id election peer).request id = some req ∧
      req.term = election ∧
      resp ∈ (s.voteCalls id election peer).responses ∧ resp.voteGranted = true
  elected : forall id, id ∈ config.ids -> (s.nodes id).state = .leader ->
    HasMajority config.ids fun voter => ⟨voter, (s.nodes id).currentTerm, id⟩ ∈ s.grants

/-- A node that becomes leader counts votes in the election of its term. -/
theorem election_of_wins (own : countsOwnElection s event = true) {id peer : NodeID}
    {election response : Nat} (wins : Wins s event after id election peer response req resp) :
    election = (s.nodes id).currentTerm := by
  rw [wins.happens] at own
  exact of_decide_eq_true own req wins.request resp wins.answered wins.waiting wins.counted

namespace Genuine

variable (genuine : Genuine config s)

include genuine

theorem counted_step (own : countsOwnElection s event = true) (action : Action config s event after)
    (id : NodeID) (election : Nat) (peer : NodeID)
    (isCounted : (after.voteCalls id election peer).counted = true) :
    Exists fun req => Exists fun resp => (after.voteCalls id election peer).request id = some req ∧
      req.term = election ∧ resp ∈ (after.voteCalls id election peer).responses ∧
          resp.voteGranted = true := by
  have proceeds := action.proceeds id election peer
  have old := genuine.counted id election peer
  generalize after.voteCalls id election peer = call at proceeds isCounted
  cases proceeds with
  | same => exact old isCounted
  | absent => cases isCounted
  | spawned member begun new isPeer => cases isCounted
  | read started reads nodes =>
      rcases old ((started_of_reads reads).2.2.2 ▸ isCounted) with ⟨req, resp, request, _⟩
      rw [request_of_reads reads] at request
      cases request
  | answered req happens request result =>
      rcases old isCounted with ⟨req, resp, request, sameTerm, answered, granted⟩
      exact ⟨req, resp, request, sameTerm, List.mem_append_left _ answered, granted⟩
  | finished response req resp happens request replied waiting =>
      rw [happens] at own
      have sameElection := of_decide_eq_true own req request resp replied waiting isCounted
      rcases Node.countsVote_iff.mp isCounted with ⟨_, sameTerm, _, granted⟩
      exact ⟨req, resp, request, by rw [sameElection, sameTerm],
        List.mem_of_getElem? replied, granted⟩

theorem step (wf : WellFormed config s) (ballots : Ballots config s)
    (own : countsOwnElection s event = true) (action : Action config s event after) :
    Genuine config after := by
  have later := ballots.step wf action
  have counted := genuine.counted_step own action
  refine ⟨counted, ?_⟩
  intro id member leads
  rcases action.lead id leads with ⟨before, sameTerm⟩ | ⟨election, peer, response, req, resp, wins⟩
  · rw [sameTerm]
    exact (genuine.elected id member before).mono fun voter _ voted => action.grants_subset voted
  · apply later.majority_of_wins wf wins
    · exact later.own id (leads ▸ NodeState.noConfusion)
    · intro voter isCounted
      rcases counted id election voter isCounted with
        ⟨voterReq, voterResp, request, sameTerm, answered, granted⟩
      rcases later.answered id election voter voterResp answered granted with
        ⟨sameReq, sameRequest, recorded⟩
      rw [request, Option.some.injEq] at sameRequest
      rw [← sameRequest, sameTerm, election_of_wins own wins] at recorded
      rw [wins.leads]
      exact recorded

end Genuine

theorem genuine_init (config : ClusterConfig) : Genuine config (init config) := by
  constructor
  · intro id election peer counted
    cases counted
  · intro id member leads
    cases leads

/-- What the elections of a run rest on. -/
structure Elections (config : ClusterConfig) (s : Cluster) : Prop where
  wf : WellFormed config s
  ballots : Ballots config s
  genuine : Genuine config s

theorem elections_run (events : List Event)
    (own : Along config countsOwnElection (init config) events) :
    Elections config (run config events) := by
  refine run_induction ⟨wellFormed_init config, ballots_init config,
    genuine_init config⟩ ?_ events own
  intro s event after elections own action
  exact ⟨elections.wf.step action, elections.ballots.step elections.wf action,
    elections.genuine.step elections.wf elections.ballots own action⟩

/-- In every run in which each counted vote goes to the counter of the election
of the present term, every leader has the votes of more than half of the nodes
in its term. -/
theorem leader_has_majority (config : ClusterConfig) (events : List Event)
    (own : Along config countsOwnElection (init config) events) (id : NodeID)
    (member : id ∈ config.ids) (leads : ((run config events).nodes id).state = .leader) :
    HasMajority config.ids fun voter =>
      ⟨voter, ((run config events).nodes id).currentTerm, id⟩ ∈ (run config events).grants :=
  (elections_run events own).genuine.elected id member leads

/-- A cluster in which the channel to each state machine has room for one
message. -/
def clusterOf (ids : List NodeID) (distinct : ids.Nodup) : ClusterConfig where
  ids := ids
  peers := ids.erase
  applyCapacity := fun _ => 1
  distinct := distinct
  others := fun _ _ => List.Perm.refl _

def fourNodes : ClusterConfig := clusterOf [[97], [98], [99], [100]] (by decide)

/-- A goroutine of an election builds its request, the peer handles it, and the
goroutine goes on with the response. -/
def askVote (id : NodeID) (election : Nat) (peer : NodeID) : List Event :=
  [.readTerm id election peer, .readLastLogIndex id election peer, .readLastLogTerm id election peer,
    .deliverVote id election peer, .voteReply id election peer 0]

def calmElection : List Event := .electionTimeout [97] :: askVote [97] 1 [98] ++ askVote [97] 1 [99]

theorem leader_has_majority_calmElection :
    HasMajority fourNodes.ids fun voter =>
      ⟨voter, ((run fourNodes calmElection).nodes [97]).currentTerm, [97]⟩ ∈
          (run fourNodes calmElection).grants :=
  leader_has_majority fourNodes calmElection (by decide +kernel) [97] (by decide) (by decide +kernel)

/-- The second goroutine of the first election runs after the second timeout. -/
def overlappingElections : List Event :=
  .electionTimeout [97] :: askVote [97] 1 [98] ++ .electionTimeout [97] :: askVote [97] 1 [99]

theorem leader_without_majority :
    ((run fourNodes overlappingElections).nodes [97]).state = .leader ∧
      ¬ HasMajority fourNodes.ids fun voter =>
        ⟨voter, ((run fourNodes overlappingElections).nodes [97]).currentTerm, [97]⟩ ∈
          (run fourNodes overlappingElections).grants := by
  decide +kernel

/-! ## One leader in a term -/

/-- A node that has forgotten its vote in its term is not asked for it by another
candidate that it would vote for. -/
def remembersVote (s : Cluster) : Event -> Bool
  | .deliverVote id election peer =>
      match (s.voteCalls id election peer).request id with
      | none => true
      | some req =>
          if (s.nodes peer).currentTerm = req.term ∧ (s.nodes peer).votedFor = [] ∧
              (s.nodes peer).isLogUpToDate req.lastLogIndex req.lastLogTerm then
            s.grants.all fun grant =>
              decide (grant.voter ≠ peer ∨ grant.term ≠ req.term ∨ grant.candidate = id)
          else true
  | _ => true

theorem candidate_of_remembersVote {id peer : NodeID}
    (remembers : remembersVote s (.deliverVote id election peer) = true)
    (request : (s.voteCalls id election peer).request id = some req)
    (current : (s.nodes peer).currentTerm = req.term) (forgotten : (s.nodes peer).votedFor = [])
    (upToDate : (s.nodes peer).isLogUpToDate req.lastLogIndex req.lastLogTerm = true)
    {grant : Grant} (inside : grant ∈ s.grants) (sameVoter : grant.voter = peer)
    (sameTerm : grant.term = req.term) :
    grant.candidate = id := by
  simp only [remembersVote, request, if_pos (And.intro current (And.intro forgotten upToDate)),
    List.all_eq_true] at remembers
  rcases of_decide_eq_true (remembers grant inside) with otherVoter | otherTerm | same
  · exact absurd sameVoter otherVoter
  · exact absurd sameTerm otherTerm
  · exact same

/-- No node votes for two candidates of a term. -/
def SingleVote (s : Cluster) : Prop :=
  forall first, first ∈ s.grants -> forall second, second ∈ s.grants -> first.voter = second.voter ->
    first.term = second.term -> first.candidate = second.candidate

/-- A vote that agrees with the votes before. -/
theorem SingleVote.cons (single : SingleVote s) (grant : Grant)
    (agrees : forall old, old ∈ s.grants -> old.voter = grant.voter -> old.term = grant.term ->
      old.candidate = grant.candidate)
    (grants : after.grants = grant :: s.grants) : SingleVote after := by
  intro first inFirst second inSecond sameVoter sameTerm
  rw [grants] at inFirst inSecond
  rcases List.mem_cons.mp inFirst with rfl | oldFirst
  · rcases List.mem_cons.mp inSecond with rfl | oldSecond
    · rfl
    · exact (agrees second oldSecond sameVoter.symm sameTerm.symm).symm
  · rcases List.mem_cons.mp inSecond with rfl | oldSecond
    · exact agrees first oldFirst sameVoter sameTerm
    · exact single first oldFirst second oldSecond sameVoter sameTerm

/-- A vote that a node grants agrees with its votes before. -/
theorem SingleVote.agrees (single : SingleVote s) (ballots : Ballots config s) {id peer : NodeID}
    {voter : Node} (request : (s.voteCalls id election peer).request id = some req)
    (remembers : remembersVote s (.deliverVote id election peer) = true)
    (handled : (s.nodes peer).VoteHandled req voter resp) (isGranted : resp.voteGranted = true)
    {old : Grant} (inside : old ∈ s.grants) (sameVoter : old.voter = peer)
    (sameTerm : old.term = req.term) :
    old.candidate = id := by
  have reached := ballots.recorded old inside
  rw [sameVoter, sameTerm] at reached
  cases handled with
  | stale old => cases isGranted
  | refused current => cases isGranted
  | granted current free upToDate =>
      have termEq : (s.nodes peer).currentTerm = req.term := Nat.le_antisymm current reached
      by_cases forgotten : (s.nodes peer).votedFor = []
      · exact candidate_of_remembersVote remembers request termEq forgotten upToDate inside
          sameVoter sameTerm
      · have recorded := ballots.votedFor peer forgotten
        have voted : (s.nodes peer).votedFor = id :=
          ((free termEq).resolve_left forgotten).trans (candidateID_of_request request)
        rw [voted, termEq] at recorded
        exact single old inside _ recorded sameVoter sameTerm

theorem SingleVote.step (single : SingleVote s) (ballots : Ballots config s)
    (remembers : remembersVote s event = true) (action : Action config s event after) :
    SingleVote after := by
  cases action with
  | @startElection id member =>
      refine single.cons ⟨id, (s.nodes id).currentTerm + 1, id⟩ ?_ rfl
      intro old inside sameVoter sameTerm
      have reached := ballots.recorded old inside
      rw [sameVoter, sameTerm] at reached
      exact absurd reached (Nat.not_succ_le_self _)
  | @deliverVote id election peer req request =>
      have handled := (s.nodes peer).handleRequestVote_spec req
      have grants := s.grants_deliverVote id election peer req
      split at grants
      · rename_i isGranted
        refine single.cons ⟨peer, req.term, id⟩ ?_ grants
        exact fun old inside sameVoter sameTerm =>
          single.agrees ballots request remembers handled isGranted inside sameVoter sameTerm
      · rw [SingleVote, grants]
        exact single
  | voteReply request answered waiting =>
      rw [SingleVote, grants_voteReply]
      exact single
  | _ => exact single

/-- Both conditions on the elections. -/
def careful (s : Cluster) (event : Event) : Bool :=
  countsOwnElection s event && remembersVote s event

theorem along_of_careful {events : List Event} (along : Along config careful s events) :
    Along config countsOwnElection s events ∧ Along config remembersVote s events := by
  induction events generalizing s with
  | nil => exact ⟨trivial, trivial⟩
  | cons event events ih =>
      rcases along with ⟨here, later⟩
      rcases Bool.and_eq_true_iff.mp here with ⟨own, remembers⟩
      exact ⟨⟨own, (ih later).1⟩, remembers, (ih later).2⟩

theorem singleVote_run (events : List Event) (along : Along config careful (init config) events) :
    SingleVote (run config events) := by
  have all : WellFormed config (run config events) ∧ Ballots config (run config events) ∧
      SingleVote (run config events) := by
    refine run_induction (P := fun s => WellFormed config s ∧ Ballots config s ∧ SingleVote s)
      ⟨wellFormed_init config, ballots_init config, ?_⟩ ?_ events (along_of_careful along).2
    · intro first inside
      cases inside
    · rintro s event after ⟨wf, ballots, single⟩ remembers action
      exact ⟨wf.step action, ballots.step wf action, single.step ballots remembers action⟩
  exact all.2.2

/-- The votes of a part of a run. -/
theorem grants_take_subset (config : ClusterConfig) (events : List Event) (count : Nat) :
    (run config (events.take count)).grants ⊆ (run config events).grants := by
  induction events using List.reverseRecOn with
  | nil =>
      rw [List.take_nil]
      exact List.Subset.refl _
  | append_singleton events event ih =>
      rcases Nat.lt_or_ge count (events.length + 1) with inside | whole
      · rw [List.take_append_of_le_length (Nat.le_of_lt_succ inside), run_snoc]
        exact List.Subset.trans ih (step_action config _ event).grants_subset
      · rw [List.take_of_length_le (by rw [List.length_append]; exact whole)]
        exact List.Subset.refl _

theorem along_take {condition : Cluster -> Event -> Bool} {events : List Event}
    (along : Along config condition (init config) events) (count : Nat) :
    Along config condition (init config) (events.take count) := by
  rw [← List.take_append_drop count events, along_append] at along
  exact along.1

/-- No two nodes lead in the same term, be it at different moments of the run. -/
def UniqueLeaders (config : ClusterConfig) (events : List Event) : Prop :=
  forall moment later id other, id ∈ config.ids -> other ∈ config.ids ->
    ((run config (events.take moment)).nodes id).state = .leader ->
    ((run config (events.take later)).nodes other).state = .leader ->
    ((run config (events.take moment)).nodes id).currentTerm =
      ((run config (events.take later)).nodes other).currentTerm -> id = other

theorem uniqueLeaders {events : List Event} (along : Along config careful (init config) events) :
    UniqueLeaders config events := by
  intro moment later id other member otherMember leads otherLeads sameTerm
  have elections := fun count => elections_run _ (along_take (along_of_careful along).1 count)
  have first := (elections moment).genuine.elected id member leads
  have second := (elections later).genuine.elected other otherMember otherLeads
  rcases first.meet second with ⟨voter, _, voted, votedToo⟩
  exact singleVote_run events along _ (grants_take_subset config events moment voted) _
    (grants_take_subset config events later votedToo) rfl sameTerm

/-- In every run in which counted votes go to the counter of the election of the
present term and no forgotten vote is given again to another candidate, no two
nodes lead in the same term. -/
theorem election_safety (config : ClusterConfig) (events : List Event)
    (along : Along config careful (init config) events) : UniqueLeaders config events :=
  uniqueLeaders along

theorem election_safety_calmElection :
    ((run fourNodes calmElection).nodes [97]).state = .leader ∧
        UniqueLeaders fourNodes calmElection :=
  ⟨by decide +kernel, election_safety fourNodes calmElection (by decide +kernel)⟩

/-- A leader is elected, a rival asks for votes in the same term, the voters hear
from the leader and forget their votes, and then get the requests of the rival. -/
def rivalElection : List Event :=
  calmElection ++ .electionTimeout [100] ::
    [.buildAppend 0, .deliverAppend 0, .buildAppend 1, .deliverAppend 1] ++ askVote [100] 1 [98] ++
    askVote [100] 1 [99]

theorem two_leaders :
    ((run fourNodes rivalElection).nodes [97]).state = .leader ∧
      ((run fourNodes rivalElection).nodes [100]).state = .leader ∧
      ((run fourNodes rivalElection).nodes [97]).currentTerm = 1 ∧
      ((run fourNodes rivalElection).nodes [100]).currentTerm = 1 := by
  decide +kernel

end Cluster
end Raft
end KVStore
