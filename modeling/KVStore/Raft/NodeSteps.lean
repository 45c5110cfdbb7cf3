import KVStore.Library.Runs
import KVStore.Raft.Node

namespace KVStore
namespace Raft

open Runs

/-!
# What the methods of a node can do

For each method that answers a message, or goes on after an answer, the ways in
which it can end, with what is known in each of them.  The proofs about clusters
use these descriptions and not the bodies of the methods.
-/

/-! ## Logs -/

theorem take_succ_of_termAt (log : List LogEntry) (index : Nat) (inside : index < log.length) :
    Exists fun entry => log.take (index + 1) = log.take index ++ [entry] ∧
        termAt log (index + 1) = entry.term := by
  refine ⟨log[index], List.take_succ_eq_append_getElem inside, ?_⟩
  simp only [termAt, Nat.add_sub_cancel, List.getElem?_eq_getElem inside]

theorem termAt_of_part {log front : List LogEntry} {entry : LogEntry}
    (part : front ++ [entry] <+: log) :
    termAt log (front.length + 1) = entry.term := by
  rcases part with ⟨rest, rfl⟩
  simp [termAt]

namespace Node

/-! ## Votes -/

/-- The node after it has seen a term. -/
def catchUp (n : Node) (term : Nat) : Node :=
  if term > n.currentTerm then n.becomeFollower term else n

/-- The ways in which `HandleRequestVote` ends. -/
inductive VoteHandled (n : Node) (req : RequestVoteRequest) : Node ->
    RequestVoteResponse -> Prop where
  | stale (old : req.term < n.currentTerm) : VoteHandled n req n ⟨n.currentTerm, false⟩
  | refused (current : n.currentTerm ≤ req.term) :
    VoteHandled n req (n.catchUp req.term) ⟨req.term, false⟩
  | granted (current : n.currentTerm ≤ req.term)
      (free : n.currentTerm = req.term -> n.votedFor = [] ∨ n.votedFor = req.candidateID)
      (upToDate : n.isLogUpToDate req.lastLogIndex req.lastLogTerm) :
      VoteHandled n req ((n.catchUp req.term).castVote req.candidateID) ⟨req.term, true⟩

variable {n : Node}

theorem catchUp_of_lt {term : Nat} (later : n.currentTerm < term) :
    n.catchUp term = n.becomeFollower term := if_pos later

theorem catchUp_self (n : Node) : n.catchUp n.currentTerm = n := if_neg (Nat.lt_irrefl _)

@[simp] theorem log_catchUp (n : Node) (term : Nat) : (n.catchUp term).log = n.log := by
  unfold catchUp
  split <;> rfl

theorem currentTerm_catchUp {term : Nat} (current : n.currentTerm ≤ term) :
    (n.catchUp term).currentTerm = term := by
  rcases Nat.lt_or_eq_of_le current with later | rfl
  · rw [catchUp_of_lt later]
    rfl
  · rw [catchUp_self]

theorem handleRequestVote_spec (n : Node) (req : RequestVoteRequest) :
    VoteHandled n req (n.handleRequestVote req).1 (n.handleRequestVote req).2 := by
  unfold handleRequestVote
  split
  · rename_i old
    exact .stale old
  · rename_i current
    rw [Nat.not_lt] at current
    have sameTerm := currentTerm_catchUp current
    simp only
    generalize caught : (if req.term > n.currentTerm then n.becomeFollower req.term else n) = after
    have after_eq : after = n.catchUp req.term := caught.symm
    split
    · rename_i both
      simp only [after_eq, sameTerm]
      refine .granted current ?_ ?_
      · intro same
        have free := both.1
        rw [after_eq, ← same, catchUp_self] at free
        exact free
      · have upToDate := both.2
        simp only [after_eq, isLogUpToDate, getLastLogTerm, getLastLogIndex,
          log_catchUp] at upToDate ⊢
        exact upToDate
    · simp only [after_eq, sameTerm]
      exact .refused current

/-- The ways in which a goroutine of `startElection` ends. -/
inductive VoteReplied (n : Node) (votesReceived : Nat) (req : RequestVoteRequest)
    (resp : RequestVoteResponse) : Node -> Nat -> Prop where
  | ignored (notCounted : n.countsVote req resp = false) :
    VoteReplied n votesReceived req resp n votesReceived
  | deposed (notCounted : n.countsVote req resp = false) (later : n.currentTerm < resp.term) :
      VoteReplied n votesReceived req resp (n.becomeFollower resp.term) votesReceived
  | counted (counted : n.countsVote req resp = true) :
      VoteReplied n votesReceived req resp n (votesReceived + 1)
  | won (counted : n.countsVote req resp = true)
      (enough : n.peers.length / 2 + 1 < votesReceived + 1) :
        VoteReplied n votesReceived req resp n.becomeLeader (votesReceived + 1)

theorem countsVote_iff {req : RequestVoteRequest} {resp : RequestVoteResponse} :
    n.countsVote req resp = true <->
      n.state = .candidate ∧ n.currentTerm = req.term ∧ resp.term ≤ n.currentTerm ∧
          resp.voteGranted = true := by
  simp only [countsVote, awaitsVote, Bool.and_eq_true, decide_eq_true_eq, and_assoc]

theorem voteReply_spec (n : Node) (votesReceived : Nat) (req : RequestVoteRequest)
    (resp : RequestVoteResponse) :
    VoteReplied n votesReceived req resp (n.voteReply votesReceived req resp).1
      (n.voteReply votesReceived req resp).2 := by
  unfold voteReply
  split
  · rename_i notAwaiting
    exact .ignored (by rw [countsVote, notAwaiting, Bool.false_and, Bool.false_and])
  · rename_i awaiting
    rw [Bool.not_eq_false] at awaiting
    split
    · rename_i later
      refine .deposed ?_ later
      rw [countsVote, decide_eq_false (Nat.not_le.mpr later), Bool.and_false, Bool.false_and]
    · rename_i notLater
      split
      · rename_i grantedVote
        have counted : n.countsVote req resp = true := by
          rw [countsVote, awaiting, decide_eq_true (Nat.not_lt.mp notLater), grantedVote]
          rfl
        split
        · rename_i enough
          exact .won counted enough
        · exact .counted counted
      · rename_i refusedVote
        rw [Bool.not_eq_true] at refusedVote
        exact .ignored (by rw [countsVote, refusedVote, Bool.and_false])

/-! ## Committing -/

/-- Nothing but the commit index and what was applied has changed. -/
def Commits (n after : Node) : Prop :=
  Exists fun applyCh => after =
    { n with commitIndex := after.commitIndex, lastApplied := after.lastApplied, applyCh := applyCh }

namespace Commits

variable {n after : Node} (commits : Commits n after)

include commits

theorem id : after.id = n.id := by
  rcases commits with ⟨_, same⟩
  rw [same]

theorem peers : after.peers = n.peers := by
  rcases commits with ⟨_, same⟩
  rw [same]

theorem state : after.state = n.state := by
  rcases commits with ⟨_, same⟩
  rw [same]

theorem currentTerm : after.currentTerm = n.currentTerm := by
  rcases commits with ⟨_, same⟩
  rw [same]

theorem votedFor : after.votedFor = n.votedFor := by
  rcases commits with ⟨_, same⟩
  rw [same]

theorem log : after.log = n.log := by
  rcases commits with ⟨_, same⟩
  rw [same]

theorem matchIndex : after.matchIndex = n.matchIndex := by
  rcases commits with ⟨_, same⟩
  rw [same]

theorem nextIndex : after.nextIndex = n.nextIndex := by
  rcases commits with ⟨_, same⟩
  rw [same]

theorem replicas (index : Nat) : after.replicas index = n.replicas index := by
  rw [Node.replicas, commits.peers, commits.matchIndex, Node.replicas]

end Commits

theorem Commits.refl (n : Node) : Commits n n := ⟨n.applyCh, rfl⟩

theorem Commits.symm {n after : Node} (commits : Commits n after) : Commits after n := by
  rcases commits with ⟨_, same⟩
  exact ⟨n.applyCh, by rw [same]⟩

theorem Commits.trans {n middle after : Node} (first : Commits n middle)
    (second : Commits middle after) :
    Commits n after := by
  rcases first with ⟨_, firstSame⟩
  rcases second with ⟨applyCh, secondSame⟩
  rw [firstSame] at secondSame
  exact ⟨applyCh, secondSame⟩

theorem applyLoop_spec (rounds : Nat) (n : Node) (all : rounds = n.commitIndex - n.lastApplied) :
    Exists fun applyCh => applyLoop rounds n =
      { n with lastApplied := max n.lastApplied n.commitIndex, applyCh := applyCh } := by
  induction rounds generalizing n with
  | zero =>
      refine ⟨n.applyCh, ?_⟩
      rw [applyLoop, Nat.max_eq_left (by omega)]
  | succ rounds ih =>
      have more : n.lastApplied < n.commitIndex := by omega
      rcases ih n.applyNext (by change rounds = n.commitIndex - (n.lastApplied + 1); omega) with
        ⟨applyCh, rest⟩
      refine ⟨applyCh, ?_⟩
      rw [applyLoop, if_pos more, rest]
      have same : max (n.lastApplied + 1) n.commitIndex = max n.lastApplied n.commitIndex := by omega
      simp only [applyNext, same]

/-- Committing up to an index and applying. -/
theorem commits_applyCommitted (n : Node) (index : Nat) :
    Commits n { n with commitIndex := index }.applyCommitted ∧
      { n with commitIndex := index }.applyCommitted.commitIndex = index ∧
      { n with commitIndex := index }.applyCommitted.lastApplied = max n.lastApplied index := by
  rcases applyLoop_spec _ { n with commitIndex := index } rfl with ⟨applyCh, result⟩
  have all : { n with commitIndex := index }.applyCommitted =
      { n with commitIndex := index, lastApplied := max n.lastApplied index, applyCh := applyCh } :=
        result
  rw [all]
  exact ⟨⟨applyCh, rfl⟩, rfl, rfl⟩

/-- An index that `updateCommitIndex` may commit. -/
def Committable (n : Node) (index : Nat) : Prop :=
  n.commitIndex < index ∧ index ≤ n.log.length ∧ termAt n.log index = n.currentTerm ∧
    n.peers.length / 2 + 1 < n.replicas index

/-- The commit index is the old one, or one that may be committed and up to
which everything was applied. -/
def CommitsOwn (n after : Node) : Prop :=
  after.commitIndex = n.commitIndex ∧ after.lastApplied = n.lastApplied ∨
    n.Committable after.commitIndex ∧ after.lastApplied = max n.lastApplied after.commitIndex

/-- A round commits its index when it may be committed, and does nothing when it
may not. -/
theorem commitAt_spec {n current : Node} (commits : Commits n current) (index : Nat) :
    ¬ (termAt n.log index = n.currentTerm ∧ n.peers.length / 2 + 1 < n.replicas index) ∧
        current.commitAt index = current ∨
      (termAt n.log index = n.currentTerm ∧ n.peers.length / 2 + 1 < n.replicas index) ∧
        current.commitAt index = { current with commitIndex := index }.applyCommitted := by
  unfold commitAt
  split
  · rename_i otherTerm
    rw [commits.log, commits.currentTerm] at otherTerm
    exact Or.inl ⟨fun both => otherTerm both.1, rfl⟩
  · rename_i ownTerm
    rw [not_not, commits.log, commits.currentTerm] at ownTerm
    split
    · rename_i enough
      rw [commits.replicas, commits.peers] at enough
      exact Or.inr ⟨⟨ownTerm, enough⟩, rfl⟩
    · rename_i few
      rw [commits.replicas, commits.peers] at few
      exact Or.inl ⟨fun both => few both.2, rfl⟩

/-- The rule for the loop of `updateCommitIndex`. -/
theorem updateCommitIndex_induction {motive : Nat -> Node -> Prop}
    (initial : motive (n.commitIndex + 1) n)
    (round : forall index current, n.commitIndex < index -> index ≤ n.log.length ->
      motive index current -> motive (index + 1) (current.commitAt index)) :
    motive (n.commitIndex + 1 + (n.log.length - n.commitIndex)) n.updateCommitIndex := by
  apply foldl_range'_induction initial
  intro index current above below
  exact round index current above (by omega)

/-- The node before the round of an index: the indices below it have been dealt
with. -/
structure Committing (n : Node) (index : Nat) (current : Node) : Prop where
  commits : Commits n current
  chosen : CommitsOwn n current
  reached : current.commitIndex < index
  complete : forall {other : Nat}, other < index -> n.Committable other -> other ≤ current.commitIndex

theorem Committing.commitAt {n current : Node} {index : Nat} (before : Committing n index current)
    (above : n.commitIndex < index) (inside : index ≤ n.log.length) :
    Committing n (index + 1) (current.commitAt index) := by
  rcases commitAt_spec before.commits index with ⟨excluded, same⟩ | ⟨⟨ownTerm, enough⟩, same⟩
  · rw [same]
    refine ⟨before.commits, before.chosen, Nat.lt_succ_of_lt before.reached,
      fun {other} early committable => ?_⟩
    rcases Nat.lt_succ_iff_lt_or_eq.mp early with earlier | rfl
    · exact before.complete earlier committable
    · exact absurd committable.2.2 excluded
  · rcases commits_applyCommitted current index with ⟨applies, committed, applied⟩
    rw [← same] at applies committed applied
    refine ⟨before.commits.trans applies, Or.inr ⟨?_, ?_⟩, ?_, fun early _ => ?_⟩
    · rw [committed]
      exact ⟨above, inside, ownTerm, enough⟩
    · rw [applied, committed]
      rcases before.chosen with ⟨_, sameApplied⟩ | ⟨_, sameApplied⟩
      · rw [sameApplied]
      · rw [sameApplied, Nat.max_assoc, Nat.max_eq_right (Nat.le_of_lt before.reached)]
    · rw [committed]
      exact Nat.lt_succ_self index
    · rw [committed]
      exact Nat.le_of_lt_succ early

theorem committing_updateCommitIndex (n : Node) :
    Committing n (n.commitIndex + 1 + (n.log.length - n.commitIndex)) n.updateCommitIndex := by
  apply updateCommitIndex_induction
  · refine ⟨Commits.refl n, Or.inl ⟨rfl, rfl⟩, Nat.lt_succ_self _, fun early committable => ?_⟩
    exact Nat.le_of_lt_succ early
  · intro index current above inside before
    exact before.commitAt above inside

theorem updateCommitIndex_spec (n : Node) :
    Commits n n.updateCommitIndex ∧ CommitsOwn n n.updateCommitIndex :=
  ⟨n.committing_updateCommitIndex.commits, n.committing_updateCommitIndex.chosen⟩

/-- No index that may be committed is left out. -/
theorem Committable.le {index : Nat} (committable : n.Committable index) :
    index ≤ n.updateCommitIndex.commitIndex := by
  have inside : index ≤ n.log.length := committable.2.1
  exact n.committing_updateCommitIndex.complete (by omega) committable

/-! ## Replication -/

theorem followCommit_spec (n : Node) (leaderCommit : Nat) :
    Commits n (n.followCommit leaderCommit) ∧
      ((n.followCommit leaderCommit).commitIndex = n.commitIndex ∧
          (n.followCommit leaderCommit).lastApplied = n.lastApplied ∨
        n.commitIndex < leaderCommit ∧
          (n.followCommit leaderCommit).commitIndex = min leaderCommit n.log.length ∧
          (n.followCommit leaderCommit).lastApplied =
              max n.lastApplied (min leaderCommit n.log.length)) := by
  unfold followCommit
  split
  · rename_i more
    rcases commits_applyCommitted n (min leaderCommit n.log.length) with ⟨applies, committed, applied⟩
    exact ⟨applies, Or.inr ⟨more, committed, applied⟩⟩
  · exact ⟨Commits.refl n, Or.inl ⟨rfl, rfl⟩⟩

/-- The log of the node has the entry before those of the request. -/
def HasPrevious (log : List LogEntry) (req : AppendEntriesRequest) : Prop :=
  0 < req.prevLogIndex -> req.prevLogIndex ≤ log.length ∧
    termAt log req.prevLogIndex = req.prevLogTerm

/-- The node after it has taken over the entries of a request. -/
def takeEntries (n : Node) (req : AppendEntriesRequest) : Node :=
  { n.becomeFollower req.term with log := appendFrom (req.prevLogIndex + 1) n.log req.entries }

/-- The ways in which `HandleAppendEntries` ends. -/
inductive AppendHandled (n : Node) (req : AppendEntriesRequest) : Node ->
    AppendEntriesResponse -> Prop where
  | stale (old : req.term < n.currentTerm) (resp : AppendEntriesResponse)
      (failed : resp.success = false) : AppendHandled n req n resp
  | rejected (current : n.currentTerm ≤ req.term) (resp : AppendEntriesResponse)
      (failed : resp.success = false) : AppendHandled n req (n.becomeFollower req.term) resp
  | accepted (current : n.currentTerm ≤ req.term) (previous : HasPrevious n.log req)
      (resp : AppendEntriesResponse) :
        AppendHandled n req ((n.takeEntries req).followCommit req.leaderCommit) resp

theorem handleAppendEntries_spec (n : Node) (req : AppendEntriesRequest) :
    AppendHandled n req (n.handleAppendEntries req).1 (n.handleAppendEntries req).2 := by
  unfold handleAppendEntries
  split
  · rename_i old
    exact .stale old _ rfl
  · rename_i current
    rw [Nat.not_lt] at current
    simp only
    split
    · exact .rejected current _ rfl
    · rename_i longEnough
      split
      · exact .rejected current _ rfl
      · rename_i sameTerm
        refine .accepted current ?_ _
        intro positive
        exact ⟨Nat.not_lt.mp fun short => longEnough ⟨positive, short⟩,
          Decidable.of_not_not fun different => sameTerm ⟨positive, different⟩⟩

/-- The request passes the checks of `HandleAppendEntries`. -/
def accepts (n : Node) (req : AppendEntriesRequest) : Bool :=
  decide (n.currentTerm ≤ req.term ∧ (req.prevLogIndex = 0 ∨
    req.prevLogIndex ≤ n.log.length ∧ termAt n.log req.prevLogIndex = req.prevLogTerm))

theorem accepts_iff {req : AppendEntriesRequest} :
    n.accepts req = true <-> n.currentTerm ≤ req.term ∧ HasPrevious n.log req := by
  rw [accepts, decide_eq_true_eq]
  apply and_congr_right
  intro _
  constructor
  · intro either positive
    exact either.resolve_left (Nat.ne_of_gt positive)
  · intro previous
    rcases Nat.eq_zero_or_pos req.prevLogIndex with none | positive
    · exact Or.inl none
    · exact Or.inr (previous positive)

theorem handleAppendEntries_of_accepts {req : AppendEntriesRequest}
    (accepts : n.accepts req = true) :
    (n.handleAppendEntries req).1 = (n.takeEntries req).followCommit req.leaderCommit := by
  rcases accepts_iff.mp accepts with ⟨current, previous⟩
  have longEnough : ¬ (0 < req.prevLogIndex ∧ (n.becomeFollower req.term).log.length <
      req.prevLogIndex) :=
    fun short => Nat.not_lt.mpr (previous short.1).1 short.2
  have sameTerm : ¬ (0 < req.prevLogIndex ∧
      termAt (n.becomeFollower req.term).log req.prevLogIndex ≠ req.prevLogTerm) :=
    fun different => different.2 (previous different.1).2
  unfold handleAppendEntries
  rw [if_neg (Nat.not_lt.mpr current)]
  simp only
  rw [if_neg longEnough, if_neg sameTerm]
  rfl

/-- The ways in which a goroutine of `sendHeartbeats` ends. -/
inductive AppendReplied (n : Node) (peer : NodeID) (req : AppendEntriesRequest)
    (resp : AppendEntriesResponse) : Node -> Prop where
  | ignored : AppendReplied n peer req resp n
  | deposed (later : n.currentTerm < resp.term) :
    AppendReplied n peer req resp (n.becomeFollower resp.term)
  | matched (leads : n.state = .leader) (same : n.currentTerm = req.term)
      (success : resp.success = true) :
        AppendReplied n peer req resp (n.matched peer req).updateCommitIndex
  | retried (more : 1 < n.nextIndex peer) :
      AppendReplied n peer req resp
        { n with nextIndex := fun other => if other = peer then n.nextIndex peer - 1 else n.nextIndex other }

theorem appendEntriesReply_spec (n : Node) (peer : NodeID) (req : AppendEntriesRequest)
    (resp : AppendEntriesResponse) :
    AppendReplied n peer req resp (n.appendEntriesReply peer req resp) := by
  unfold appendEntriesReply
  split
  · exact .ignored
  · rename_i leading
    rw [not_or, not_not, not_not] at leading
    split
    · rename_i later
      exact .deposed later
    · split
      · rename_i success
        exact .matched leading.1 leading.2 success
      · split
        · rename_i more
          exact .retried more
        · exact .ignored

end Node
end Raft
end KVStore
