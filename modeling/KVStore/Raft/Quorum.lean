import KVStore.Raft.Election

namespace KVStore
namespace Raft

open Function Majority

/-!
# The threshold of a node

A node has its `len(peers)` peers and itself to count, and it asks for more than
`len(peers) / 2 + 1` of them, when it counts votes as well as when it counts the
replicas of an entry.  In a cluster with an even number of nodes these are the
majorities.  In a cluster with an odd number of nodes one node more is asked for
than a majority needs: three nodes have to be complete, and a single node never
wins an election and never commits.
-/

/-! ## Committing -/

namespace Node

/-- An index that the rule of Raft lets a leader commit: its entry is of the
present term and is stored by a majority. -/
def MayCommit (n : Node) (index : Nat) : Prop :=
  n.commitIndex < index ∧ index ≤ n.log.length ∧ termAt n.log index = n.currentTerm ∧
    n.peers.length + 1 < 2 * n.replicas index

instance (n : Node) (index : Nat) : Decidable (n.MayCommit index) :=
    inferInstanceAs (Decidable (_ ∧ _ ∧ _ ∧ _))

/-- The commit index that the rule of Raft prescribes: the greatest index that
may be committed, or the old one when there is none. -/
def FollowsRule (n : Node) (commitIndex : Nat) : Prop :=
  (n.MayCommit commitIndex ∧ forall index, n.MayCommit index -> index ≤ commitIndex) ∨
    (commitIndex = n.commitIndex ∧ forall index, ¬ n.MayCommit index)

theorem Committable.mayCommit {n : Node} {index : Nat} (committable : n.Committable index) :
    n.MayCommit index := by
  rcases committable with ⟨above, inside, ownTerm, enough⟩
  exact ⟨above, inside, ownTerm, by omega⟩

theorem MayCommit.committable {n : Node} {index : Nat} (even : (n.peers.length + 1) % 2 = 0)
    (may : n.MayCommit index) : n.Committable index := by
  rcases may with ⟨above, inside, ownTerm, majority⟩
  exact ⟨above, inside, ownTerm, by omega⟩

/-- The rule is followed when an index that may be committed is never left
behind. -/
theorem followsRule_of_covered {n : Node}
    (covered : forall index, n.MayCommit index -> Exists fun later => index ≤ later ∧
      n.Committable later) :
    n.FollowsRule n.updateCommitIndex.commitIndex := by
  have greatest : forall index, n.MayCommit index -> index ≤ n.updateCommitIndex.commitIndex := by
    intro index may
    rcases covered index may with ⟨later, reaches, committable⟩
    exact Nat.le_trans reaches committable.le
  rcases n.updateCommitIndex_spec.2 with ⟨same, _⟩ | ⟨committable, _⟩
  · refine Or.inr ⟨same, fun index may => ?_⟩
    have reached := greatest index may
    rw [same] at reached
    exact Nat.not_lt.mpr reached may.1
  · exact Or.inl ⟨committable.mayCommit, greatest⟩

/-- `updateCommitIndex` sets the commit index as the rule of Raft prescribes
exactly when no index that may be committed lies above all those with one more
replica than a majority needs.  This is always so when the number of nodes is
even.  And it never commits an entry of an older term. -/
theorem updateCommitIndex_followsRule (n : Node) :
    (n.FollowsRule n.updateCommitIndex.commitIndex <->
        forall index, n.MayCommit index -> Exists fun later => index ≤ later ∧ n.Committable later) ∧
      ((n.peers.length + 1) % 2 = 0 -> n.FollowsRule n.updateCommitIndex.commitIndex) ∧
      (n.updateCommitIndex.commitIndex ≠ n.commitIndex ->
        termAt n.log n.updateCommitIndex.commitIndex = n.currentTerm) := by
  refine ⟨⟨fun rule index may => ?_, followsRule_of_covered⟩, fun even => ?_, fun changed => ?_⟩
  · have committed := n.updateCommitIndex_spec.2
    rcases rule with ⟨_, greatest⟩ | ⟨_, none⟩
    · rcases committed with ⟨same, _⟩ | ⟨committable, _⟩
      · have reached := greatest index may
        rw [same] at reached
        exact absurd may.1 (Nat.not_lt.mpr reached)
      · exact ⟨_, greatest index may, committable⟩
    · exact absurd may (none index)
  · exact followsRule_of_covered fun index may => ⟨index, Nat.le_refl index, may.committable even⟩
  · rcases n.updateCommitIndex_spec.2 with ⟨same, _⟩ | ⟨committable, _⟩
    · exact absurd same changed
    · exact committable.2.2.1

end Node

namespace Cluster

def threeNodes : ClusterConfig := clusterOf [[97], [98], [99]] (by decide)

/-- A leader is elected by all three nodes, and one of its peers stores its
entry. -/
def halfReplicated : List Event :=
  .electionTimeout [97] :: askVote [97] 1 [98] ++ askVote [97] 1 [99] ++
    [.propose [97] [120], .buildAppend 2, .deliverAppend 2, .appendReply 2 0]

theorem updateCommitIndex_three_nodes :
    ((run threeNodes halfReplicated).nodes [97]).state = .leader ∧
      ((run threeNodes halfReplicated).nodes [97]).log = [⟨1, 1, [120]⟩] ∧
      ((run threeNodes halfReplicated).nodes [98]).log = [⟨1, 1, [120]⟩] ∧
      ((run threeNodes halfReplicated).nodes [97]).MayCommit 1 ∧
      ((run threeNodes halfReplicated).nodes [97]).updateCommitIndex.commitIndex = 0 ∧
      ¬ ((run threeNodes halfReplicated).nodes [97]).FollowsRule
        ((run threeNodes halfReplicated).nodes [97]).updateCommitIndex.commitIndex := by
  have state : ((run threeNodes halfReplicated).nodes [97]).state = .leader ∧
      ((run threeNodes halfReplicated).nodes [97]).log = [⟨1, 1, [120]⟩] ∧
      ((run threeNodes halfReplicated).nodes [98]).log = [⟨1, 1, [120]⟩] ∧
      ((run threeNodes halfReplicated).nodes [97]).MayCommit 1 ∧
      ((run threeNodes halfReplicated).nodes [97]).updateCommitIndex.commitIndex = 0 :=
        by decide +kernel
  rcases state with ⟨leads, log, peerLog, may, committed⟩
  refine ⟨leads, log, peerLog, may, committed, ?_⟩
  rw [committed]
  rintro (⟨_, greatest⟩ | ⟨_, none⟩)
  · exact absurd (greatest 1 may) (by decide)
  · exact none 1 may

/-! ## Elections -/

variable {config : ClusterConfig} {s after : Cluster} {event : Event}

/-- The node has counted a vote of the peer that was given in its present term. -/
def processedGrant (s : Cluster) (id voter : NodeID) : Bool :=
  (List.range ((s.nodes id).currentTerm + 1)).any fun election =>
    (s.voteCalls id election voter).counted &&
      ((s.voteCalls id election voter).request id).any fun req => req.term = (s.nodes id).currentTerm

/-- A candidate has counted all votes of the election of its term, and they are
not enough. -/
structure Undecided (config : ClusterConfig) (s : Cluster) : Prop where
  counted : forall id, (s.nodes id).state = .candidate ->
    1 + countedVotes config s id (s.nodes id).currentTerm ≤
      s.votesReceived id (s.nodes id).currentTerm
  few : forall id, (s.nodes id).state = .candidate ->
    s.votesReceived id (s.nodes id).currentTerm ≤ (config.peers id).length / 2 + 1

theorem undecided_init (config : ClusterConfig) : Undecided config (init config) := by
  constructor
  · intro id candidate
    cases candidate
  · intro id candidate
    cases candidate

/-- A candidate that counts a vote and stays a candidate has not got enough. -/
theorem few_of_voteReply {n : Node} {votes : Nat} {req : RequestVoteRequest}
    {resp : RequestVoteResponse} (candidate : (n.voteReply votes req resp).1.state = .candidate) :
    (n.voteReply votes req resp).2 = votes ∨
      (n.voteReply votes req resp).2 ≤ n.peers.length / 2 + 1 := by
  unfold Node.voteReply at candidate ⊢
  split
  · exact Or.inl rfl
  · rename_i awaiting
    rw [if_neg awaiting] at candidate
    split
    · exact Or.inl rfl
    · rename_i notLater
      rw [if_neg notLater] at candidate
      split
      · rename_i granted
        rw [if_pos granted] at candidate
        split
        · rename_i enough
          rw [if_pos enough] at candidate
          cases candidate
        · rename_i notEnough
          exact Or.inr (Nat.not_lt.mp notEnough)
      · exact Or.inl rfl

/-- A candidate starts its election, or was a candidate of the same term before. -/
theorem Action.candidate (action : Action config s event after) {id : NodeID}
    (candidate : (after.nodes id).state = .candidate) :
    after = s.startElection id ∨
      (s.nodes id).state = .candidate ∧ (after.nodes id).currentTerm = (s.nodes id).currentTerm := by
  rcases action.reacts with ⟨elected, _, rfl⟩ | reacts
  · rcases eq_or_ne id elected with rfl | other
    · exact Or.inl rfl
    · rw [nodes_startElection, update_of_ne other] at candidate ⊢
      exact Or.inr ⟨candidate, rfl⟩
  · rcases (reacts id).candidate candidate with ⟨before, _, sameTerm⟩
    exact Or.inr ⟨before, sameTerm⟩

/-- The counter of an election changes when the election starts or when one of
its goroutines goes on. -/
theorem Action.votesReceived (action : Action config s event after) (id : NodeID) (election : Nat) :
    after.votesReceived id election = s.votesReceived id election ∨
      (after = s.startElection id ∧ election = (s.nodes id).currentTerm + 1) ∨
      Exists fun peer => Exists fun req => Exists fun resp => after =
          s.voteReply id election peer req resp := by
  cases action with
  | @startElection candidate member =>
      by_cases here : id = candidate ∧ election = (s.nodes candidate).currentTerm + 1
      · rcases here with ⟨rfl, new⟩
        exact Or.inr (Or.inl ⟨rfl, new⟩)
      · exact Or.inl (votesReceived_startElection s here)
  | @voteReply candidate term peer response req resp request answered waiting =>
      by_cases here : id = candidate ∧ election = term
      · rcases here with ⟨rfl, rfl⟩
        exact Or.inr (Or.inr ⟨peer, req, resp, rfl⟩)
      · rw [votesReceived_voteReply]
        rcases eq_or_ne id candidate with rfl | different
        · rw [update_self, update_of_ne fun isTerm => here ⟨rfl, isTerm⟩]
          exact Or.inl rfl
        · rw [update_of_ne different]
          exact Or.inl rfl
  | _ => exact Or.inl rfl

theorem countedVotes_startElection (config : ClusterConfig) (s : Cluster) (id : NodeID) :
    countedVotes config (s.startElection id) id ((s.nodes id).currentTerm + 1) = 0 := by
  refine List.countP_eq_zero.mpr fun peer _ => ?_
  rw [voteCalls_startElection, if_pos ⟨rfl, rfl⟩]
  split <;> exact Bool.false_ne_true

theorem currentTerm_startElection (s : Cluster) (id : NodeID) :
    ((s.startElection id).nodes id).currentTerm = (s.nodes id).currentTerm + 1 := by
  rw [nodes_startElection, update_self]
  rfl

namespace Undecided

variable (wf : WellFormed config s) (undecided : Undecided config s)
    (action : Action config s event after)

include wf undecided action

theorem counted_step (ballots : Ballots config s) (id : NodeID)
    (candidate : (after.nodes id).state = .candidate) :
    1 + countedVotes config after id (after.nodes id).currentTerm ≤
      after.votesReceived id (after.nodes id).currentTerm := by
  rcases action.candidate candidate with rfl | ⟨before, sameTerm⟩
  · rw [currentTerm_startElection, countedVotes_startElection, votesReceived_startElection_new]
  · have old := undecided.counted id before
    rw [sameTerm]
    rcases ballots.balanced wf action id (s.nodes id).currentTerm with ⟨_, new⟩ | balanced
    · exact absurd new (Nat.succ_ne_self _).symm
    · rw [Balanced] at balanced
      omega

theorem few_step (id : NodeID) (candidate : (after.nodes id).state = .candidate) :
    after.votesReceived id (after.nodes id).currentTerm ≤ (config.peers id).length / 2 + 1 := by
  rcases action.candidate candidate with rfl | ⟨before, sameTerm⟩
  · rw [currentTerm_startElection, votesReceived_startElection_new]
    exact Nat.le_add_left _ _
  · have old := undecided.few id before
    rw [sameTerm]
    rcases action.votesReceived id (s.nodes id).currentTerm with same | ⟨_, new⟩
      | ⟨peer, req, resp, rfl⟩
    · rw [same]
      exact old
    · exact absurd new (Nat.succ_ne_self _).symm
    · rw [nodes_voteReply, update_self] at candidate
      rw [votesReceived_voteReply, update_self, update_self]
      rcases few_of_voteReply candidate with same | few
      · rw [same]
        exact old
      · rw [wf.peers] at few
        exact few

end Undecided

theorem undecided_run (events : List Event)
    (own : Along config countsOwnElection (init config) events) :
    Undecided config (run config events) := by
  have all : WellFormed config (run config events) ∧ Ballots config (run config events) ∧
      Undecided config (run config events) := by
    refine @run_induction config countsOwnElection
      (fun s => WellFormed config s ∧ Ballots config s ∧ Undecided config s)
      ⟨wellFormed_init config, ballots_init config, undecided_init config⟩ ?_ events own
    rintro s event after ⟨wf, ballots, undecided⟩ _ action
    exact ⟨wf.step action, ballots.step wf action, undecided.counted_step wf action ballots,
      undecided.few_step wf action⟩
  exact all.2.2

/-- A vote that was given in the term of a node was counted in the election of
that term. -/
theorem Genuine.counted_of_processedGrant (genuine : Genuine config s) {id voter : NodeID}
    (processed : processedGrant s id voter = true) :
    (s.voteCalls id (s.nodes id).currentTerm voter).counted = true := by
  rcases List.any_eq_true.mp processed with ⟨election, _, both⟩
  rcases Bool.and_eq_true_iff.mp both with ⟨counted, inTerm⟩
  rcases genuine.counted id election voter counted with ⟨req, _, request, sameElection, _⟩
  rw [request] at inTerm
  have sameTerm : req.term = (s.nodes id).currentTerm := of_decide_eq_true inTerm
  rw [← sameTerm, sameElection]
  exact counted

/-- In a cluster with an even number of nodes, in every run in which each
counted vote goes to the counter of the election of the present term, a node that
is no follower and has counted votes of its term which, with its own, come from a
majority of the nodes, is the leader. -/
theorem majority_wins (config : ClusterConfig) (even : config.ids.length % 2 = 0)
    (events : List Event) (own : Along config countsOwnElection (init config) events) (id : NodeID)
    (member : id ∈ config.ids) (active : ((run config events).nodes id).state ≠ .follower)
    (majority : HasMajority config.ids fun voter => voter = id ∨
      processedGrant (run config events) id voter = true) :
    ((run config events).nodes id).state = .leader := by
  have undecided := undecided_run events own
  have genuine := (elections_run events own).genuine
  cases state : ((run config events).nodes id).state with
  | follower => exact absurd state active
  | leader => rfl
  | candidate =>
      have counted := undecided.counted id state
      have few := undecided.few id state
      have enough := majority.enough (perm_cons_peers member) even
        (fun voter => ((run config events).voteCalls id ((run config events).nodes id).currentTerm
          voter).counted) ?_
      · rw [countedVotes] at counted
        omega
      · rintro voter isPeer (rfl | processed)
        · exact absurd isPeer (List.nodup_cons.mp
            ((perm_cons_peers member).nodup_iff.mp config.distinct)).1
        · exact genuine.counted_of_processedGrant processed

theorem majority_wins_calmElection :
    HasMajority fourNodes.ids (fun voter =>
        voter = [97] ∨ processedGrant (run fourNodes calmElection) [97] voter = true) ∧
      ((run fourNodes calmElection).nodes [97]).state = .leader :=
  ⟨by decide +kernel, majority_wins fourNodes (by decide) calmElection (by decide +kernel)
    [97] (by decide) (by decide +kernel) (by decide +kernel)⟩

def oneNode : ClusterConfig := clusterOf [[97]] (by decide)

/-- One of the two other nodes votes for the candidate. -/
def halfElection : List Event := .electionTimeout [97] :: askVote [97] 1 [98]

/-- The vote of one node is counted in the election of the term, and that of
another one by a goroutine of the election before. -/
def splitElection : List Event :=
  .electionTimeout [97] :: .electionTimeout [97] :: askVote [97] 1 [98] ++ askVote [97] 2 [99]

/-- A single node after its timeout, a node with two votes of three, and a node
with three votes of four that are spread over two counters. -/
theorem majority_without_leader :
    (((run oneNode [.electionTimeout [97]]).nodes [97]).state = .candidate ∧
        HasMajority oneNode.ids fun voter =>
          voter = [97] ∨ processedGrant (run oneNode [.electionTimeout [97]]) [97] voter = true) ∧
      (((run threeNodes halfElection).nodes [97]).state = .candidate ∧
        HasMajority threeNodes.ids fun voter =>
          voter = [97] ∨ processedGrant (run threeNodes halfElection) [97] voter = true) ∧
      ((run fourNodes splitElection).nodes [97]).state = .candidate ∧
        HasMajority fourNodes.ids fun voter =>
          voter = [97] ∨ processedGrant (run fourNodes splitElection) [97] voter = true := by
  decide +kernel

end Cluster
end Raft
end KVStore
