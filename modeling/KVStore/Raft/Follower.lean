import KVStore.Raft.LogOrder
import KVStore.Raft.SingleNode

namespace KVStore
namespace Raft

open Replication Consensus

/-!
# What a follower takes over

A leader sends everything from some index to the end of its log.  A follower
that accepts such a request has the whole log of the leader afterwards, up to the
moment of the request, and so the commit index of the leader lies inside what
both share, although the follower compares it with the length of its own log.

A request of the same leader that was built earlier describes a part of that log.
It finds all its entries in place and changes nothing, however the two requests
overlap.

A follower that has another entry in front of a request says where the term of that
entry begins in its log.  The search for the beginning goes down to the first entry
and has no answer when the term begins there.
-/

namespace Node

variable {n : Node} {req : AppendEntriesRequest} {part : List LogEntry}

theorem commitIndex_followCommit (n : Node) (leaderCommit : Nat) :
    (n.followCommit leaderCommit).commitIndex =
    if n.commitIndex < leaderCommit then min leaderCommit n.log.length else n.commitIndex := by
  unfold followCommit
  split
  · exact (commits_applyCommitted n (min leaderCommit n.log.length)).2.1
  · rfl

/-- The node after a request, with what the request lets it do. -/
theorem handleAppendEntries_cases (n : Node) (req : AppendEntriesRequest) :
    ((n.handleAppendEntries req).2.success = false ∧
        ((n.handleAppendEntries req).1 = n ∨
          (n.handleAppendEntries req).1 = n.becomeFollower req.term)) ∨
      (HasPrevious n.log req ∧
        (n.handleAppendEntries req).1 = (n.takeEntries req).followCommit req.leaderCommit) := by
  have handled := n.handleAppendEntries_spec req
  generalize (n.handleAppendEntries req).1 = after, (n.handleAppendEntries req).2 = resp at handled ⊢
  cases handled with
  | stale old resp failed => exact Or.inl ⟨failed, Or.inl rfl⟩
  | rejected current resp failed => exact Or.inl ⟨failed, Or.inr rfl⟩
  | accepted current previous resp => exact Or.inr ⟨previous, rfl⟩

/-- A node that answers a request with success has passed all its checks. -/
theorem accepted_of_success (success : (n.handleAppendEntries req).2.success = true) :
    HasPrevious n.log req ∧ (n.handleAppendEntries req).1 =
        (n.takeEntries req).followCommit req.leaderCommit := by
  rcases n.handleAppendEntries_cases req with ⟨failed, _⟩ | accepted
  · cases failed.symm.trans success
  · exact accepted

/-- The log of a node that accepts a request. -/
theorem log_of_success (describes : Describes req part) (agree : LogsMatch n.log part)
    (success : (n.handleAppendEntries req).2.success = true) :
    (n.handleAppendEntries req).1.log = merge n.log part := by
  rcases accepted_of_success success with ⟨previous, result⟩
  rw [result, (followCommit_spec (n.takeEntries req) req.leaderCommit).1.log]
  exact describes.appendFrom_eq previous agree

theorem commitIndex_of_success (success : (n.handleAppendEntries req).2.success = true) :
    (n.handleAppendEntries req).1.commitIndex =
      if n.commitIndex < req.leaderCommit then
        min req.leaderCommit (n.handleAppendEntries req).1.log.length
      else n.commitIndex := by
  have result := (accepted_of_success success).2
  rw [result, commitIndex_followCommit,
    (followCommit_spec (n.takeEntries req) req.leaderCommit).1.log]
  rfl

theorem logsMatch_of_part {log : List LogEntry} (stored : part <+: log) : LogsMatch log part := by
  intro index _ _ inPart _
  rw [List.prefix_iff_eq_take.mp stored, List.take_take, Nat.min_eq_left inPart]

/-- A node that takes over entries which are in place keeps its log. -/
theorem log_takeEntries_of_stored (describes : Describes req part) (stored : part <+: n.log)
    (previous : HasPrevious n.log req) : (n.takeEntries req).log = n.log := by
  change appendFrom (req.prevLogIndex + 1) n.log req.entries = n.log
  rw [describes.appendFrom_eq previous (logsMatch_of_part stored), merge, if_pos stored]

/-- A request that describes a part of the log of a node leaves the log as it is. -/
theorem log_of_stored (describes : Describes req part) (stored : part <+: n.log) :
    (n.handleAppendEntries req).1.log = n.log := by
  rcases n.handleAppendEntries_cases req with ⟨_, same | follows⟩ | ⟨previous, result⟩
  · rw [same]
  · rw [follows]
    rfl
  · rw [result, (followCommit_spec (n.takeEntries req) req.leaderCommit).1.log]
    exact log_takeEntries_of_stored describes stored previous

/-- The commit index after a request whose entries are in place. -/
theorem commitIndex_of_stored (describes : Describes req part) (stored : part <+: n.log) :
    (n.handleAppendEntries req).1.commitIndex = n.commitIndex ∨
      n.commitIndex < req.leaderCommit ∧
        (n.handleAppendEntries req).1.commitIndex = min req.leaderCommit n.log.length := by
  rcases n.handleAppendEntries_cases req with ⟨_, same | follows⟩ | ⟨previous, result⟩
  · exact Or.inl (by rw [same])
  · exact Or.inl (by rw [follows]; rfl)
  · rw [result, commitIndex_followCommit, log_takeEntries_of_stored describes stored previous]
    split
    · rename_i more
      exact Or.inr ⟨more, rfl⟩
    · exact Or.inl rfl

end Node

/-- A follower whose log matches that of a leader and which accepts a request of
the leader has the whole log of the leader; the logs match, and what the follower
commits by the request are entries of the leader. -/
theorem follower_shares_log (leader follower : Node) (peer : NodeID)
    (low : 1 ≤ leader.nextIndex peer) (high : leader.nextIndex peer ≤ leader.log.length + 1)
    (committed : leader.commitIndex ≤ leader.log.length) (req : AppendEntriesRequest)
    (built : leader.appendEntriesFor peer = some req) (agree : LogsMatch follower.log leader.log)
    (success : (follower.handleAppendEntries req).2.success = true) :
    leader.log <+: (follower.handleAppendEntries req).1.log ∧
      LogsMatch (follower.handleAppendEntries req).1.log leader.log ∧
      (follower.commitIndex < (follower.handleAppendEntries req).1.commitIndex ->
        (follower.handleAppendEntries req).1.commitIndex ≤ leader.log.length ∧
          (follower.handleAppendEntries req).1.log.take
          (follower.handleAppendEntries req).1.commitIndex =
            leader.log.take (follower.handleAppendEntries req).1.commitIndex) := by
  have describes := describes_of_appendEntriesFor low high built
  have shared : leader.log <+: (follower.handleAppendEntries req).1.log := by
    rw [Node.log_of_success describes agree success]
    exact part_prefix_merge _ _
  refine ⟨shared, Node.logsMatch_of_part shared, fun advanced => ?_⟩
  have inside : (follower.handleAppendEntries req).1.commitIndex ≤ leader.log.length := by
    have announced := (leader_of_appendEntriesFor built).2.2
    have commit := Node.commitIndex_of_success success
    split at commit
    · rw [commit]
      exact Nat.le_trans (Nat.min_le_left _ _) (announced ▸ committed)
    · exact absurd commit (Nat.ne_of_gt advanced)
  refine ⟨inside, ?_⟩
  rw [List.prefix_iff_eq_take.mp shared, List.take_take, Nat.min_eq_left inside]

/-- A leader whose entries follow an entry that its peer has. -/
def sampleLeader : Node :=
  { newNode [97] [[98]] 1 with
    state := .leader
    currentTerm := 2
    log := [⟨1, 1, [1]⟩, ⟨2, 2, [2]⟩]
    commitIndex := 2
    nextIndex := fun _ => 2 }

/-- A follower with an entry that the leader does not have. -/
def sampleFollower : Node :=
  { newNode [98] [[97]] 1 with currentTerm := 1, log := [⟨1, 1, [1]⟩, ⟨1, 2, [3]⟩] }

def sampleRequest : AppendEntriesRequest := ⟨2, [97], 1, 1, [⟨2, 2, [2]⟩], 2⟩

theorem sample_logsMatch : LogsMatch sampleFollower.log sampleLeader.log := by
  intro index positive _ inside sameTerm
  have bound : index ≤ 2 := inside
  rcases (by omega : index = 1 ∨ index = 2) with rfl | rfl
  · rfl
  · exact absurd sameTerm (by decide)

theorem follower_shares_log_sample :
    sampleLeader.log <+: (sampleFollower.handleAppendEntries sampleRequest).1.log :=
  (follower_shares_log sampleLeader sampleFollower [98] (by decide) (by decide)
    (by decide) sampleRequest (by decide) sample_logsMatch (by decide)).1

/-! ## Requests that come again -/

namespace Station

/-- What a leader has built in a run. -/
theorem describes_of_run {id : NodeID} {peers : List NodeID} {applyCapacity : Nat}
    {events : List Happening} {peer : NodeID} {req : AppendEntriesRequest} (isPeer : peer ∈ peers)
    (built : ((start id peers applyCapacity).run events).node.appendEntriesFor peer = some req) :
    Describes req ((start id peers applyCapacity).run events).node.log := by
  have bounded := (bounded_start id peers applyCapacity).run events
  have member : peer ∈ ((start id peers applyCapacity).run events).node.peers := by
    rw [peers_run]
    exact isPeer
  rcases bounded.indices (leader_of_appendEntriesFor built).1 peer member with ⟨positive, below, _⟩
  exact describes_of_appendEntriesFor positive below built

/-- Let a leader build two requests in the same term, possibly for different
peers and among any messages, and let a follower accept the later one.  When the
follower then gets the earlier one, or the later one again, its log stays what
it is and its commit index does not decrease. -/
theorem stale_requests_harmless (id : NodeID) (peers : List NodeID) (applyCapacity : Nat)
    (events more : List Happening) (firstPeer secondPeer : NodeID) (isPeer : firstPeer ∈ peers)
    (isPeerToo : secondPeer ∈ peers) (first second : AppendEntriesRequest)
    (built : ((start id peers applyCapacity).run events).node.appendEntriesFor
      firstPeer = some first)
    (builtLater : ((start id peers applyCapacity).run (events ++ more)).node.appendEntriesFor
      secondPeer = some second)
    (sameTerm : first.term = second.term) (follower : Node)
    (agree : LogsMatch follower.log ((start id peers applyCapacity).run (events ++ more)).node.log)
    (success : (follower.handleAppendEntries second).2.success = true)
    (again : AppendEntriesRequest) (repeated : again = first ∨ again = second) :
    (((follower.handleAppendEntries second).1).handleAppendEntries again).1.log =
        (follower.handleAppendEntries second).1.log ∧
      (follower.handleAppendEntries second).1.commitIndex ≤
        (((follower.handleAppendEntries second).1).handleAppendEntries again).1.commitIndex := by
  have describes := describes_of_run isPeer built
  have describesLater := describes_of_run isPeerToo builtLater
  rcases leader_of_appendEntriesFor built with ⟨leads, term, announced⟩
  rcases leader_of_appendEntriesFor builtLater with ⟨leadsLater, termLater, announcedLater⟩
  have stored : ((start id peers applyCapacity).run (events ++ more)).node.log <+:
      (follower.handleAppendEntries second).1.log := by
    rw [Node.log_of_success describesLater agree success]
    exact part_prefix_merge _ _
  have grown : ((start id peers applyCapacity).run events).node.log <+:
        ((start id peers applyCapacity).run (events ++ more)).node.log ∧
      ((start id peers applyCapacity).run events).node.commitIndex ≤
        ((start id peers applyCapacity).run (events ++ more)).node.commitIndex := by
    rw [run_append] at leadsLater termLater ⊢
    exact grown_of_leads ⟨leads, term.symm⟩ ⟨leadsLater, termLater.symm.trans sameTerm.symm⟩
  -- Both requests describe a part of the log and announce no more than the later one.
  have part : Exists fun part => Describes again part ∧
      part <+: (follower.handleAppendEntries second).1.log ∧
      again.leaderCommit ≤ second.leaderCommit := by
    rcases repeated with rfl | rfl
    · exact ⟨_, describes, grown.1.trans stored, announced ▸ announcedLater ▸ grown.2⟩
    · exact ⟨_, describesLater, stored, Nat.le_refl _⟩
  rcases part with ⟨part, describesAgain, storedAgain, order⟩
  refine ⟨Node.log_of_stored describesAgain storedAgain, ?_⟩
  have commit := Node.commitIndex_of_success success
  rcases Node.commitIndex_of_stored describesAgain storedAgain with same | ⟨ahead, result⟩
  · exact Nat.le_of_eq same.symm
  · -- The follower is behind the announcement, so the later request has set its commit index.
    split at commit <;> omega

/-- A node wins an election and appends an entry. -/
def firstProposal : List Happening :=
  [.electionTimeout, .voteReply 1 ⟨1, [97], 0, 0⟩ ⟨1, true⟩, .propose [1]]

theorem stale_requests_harmless_twoProposals :
    (((sampleFollower.handleAppendEntries
        ⟨1, [97], 0, 0, [⟨1, 1, [1]⟩, ⟨1, 2, [3]⟩], 0⟩).1).handleAppendEntries
          ⟨1, [97], 0, 0, [⟨1, 1, [1]⟩], 0⟩).1.log =
      (sampleFollower.handleAppendEntries ⟨1, [97], 0, 0, [⟨1, 1, [1]⟩, ⟨1, 2, [3]⟩], 0⟩).1.log :=
  (stale_requests_harmless [97] [[98]] 1 firstProposal [.propose [3]] [98] [98]
    (by decide) (by decide) ⟨1, [97], 0, 0, [⟨1, 1, [1]⟩], 0⟩
    ⟨1, [97], 0, 0, [⟨1, 1, [1]⟩, ⟨1, 2, [3]⟩], 0⟩ (by decide) (by decide) rfl
    sampleFollower (Node.logsMatch_of_part List.prefix_rfl) (by decide) _ (Or.inl rfl)).1

end Station

/-! ## Hints -/

namespace Node

/-- The first entry of a term. -/
def BeginsAt (log : List LogEntry) (term index : Nat) : Prop :=
  1 ≤ index ∧ index ≤ log.length ∧ termAt log index = term ∧
    forall earlier, 1 ≤ earlier -> earlier < index -> termAt log earlier ≠ term

/-- The search stops behind the last entry of another term, or finds none. -/
theorem firstConflict_spec (log : List LogEntry) (conflictTerm index : Nat) :
    (firstConflict log conflictTerm index = 0 ∧
        forall position, 1 ≤ position -> position ≤ index -> termAt log position = conflictTerm) ∨
      Exists fun other => firstConflict log conflictTerm index = other + 1 ∧ 1 ≤ other ∧
        other ≤ index ∧
        termAt log other ≠ conflictTerm ∧
        forall position, other < position -> position ≤ index ->
            termAt log position = conflictTerm := by
  induction index with
  | zero => exact Or.inl ⟨rfl, fun position low high => absurd high (by omega)⟩
  | succ index ih =>
      rw [firstConflict]
      by_cases differs : termAt log (index + 1) ≠ conflictTerm
      · rw [if_pos differs]
        exact Or.inr ⟨index + 1, rfl, by omega, Nat.le_refl _, differs,
          fun position low high => absurd high (by omega)⟩
      · rw [if_neg differs]
        have same : termAt log (index + 1) = conflictTerm := not_not.mp differs
        rcases ih with ⟨none, all⟩ | ⟨other, found, low, high, otherTerm, between⟩
        · refine Or.inl ⟨none, fun position low high => ?_⟩
          rcases Nat.lt_or_eq_of_le high with inside | rfl
          · exact all position low (by omega)
          · exact same
        · refine Or.inr ⟨other, found, low, by omega, otherTerm, fun position above high => ?_⟩
          rcases Nat.lt_or_eq_of_le high with inside | rfl
          · exact between position above (by omega)
          · exact same

/-- The response to a request whose previous entry is of another term. -/
theorem response_of_conflict {n : Node} {req : AppendEntriesRequest}
    (current : n.currentTerm ≤ req.term) (positive : 0 < req.prevLogIndex)
    (inside : req.prevLogIndex ≤ n.log.length)
    (differs : termAt n.log req.prevLogIndex ≠ req.prevLogTerm) :
    (n.handleAppendEntries req).2 =
      ⟨n.currentTerm, false, firstConflict n.log (termAt n.log req.prevLogIndex)
        (req.prevLogIndex - 1), termAt n.log req.prevLogIndex⟩ := by
  have log : (n.becomeFollower req.term).log = n.log := rfl
  rw [handleAppendEntries, if_neg (Nat.not_lt.mpr current)]
  simp only [log]
  rw [if_neg (fun missing => absurd missing.2 (Nat.not_lt.mpr inside)), if_pos ⟨positive, differs⟩]

/-- The hint in the response to such a request is the beginning of the term exactly when the first
entry of the log is of another term.  The term in the hint is always right. -/
theorem conflict_hint_iff (n : Node)
    (sorted : n.log.Pairwise fun first second => first.term ≤ second.term)
    (req : AppendEntriesRequest) (current : n.currentTerm ≤ req.term)
    (positive : 0 < req.prevLogIndex) (inside : req.prevLogIndex ≤ n.log.length)
    (differs : termAt n.log req.prevLogIndex ≠ req.prevLogTerm) :
    ((n.handleAppendEntries req).2.conflictTerm = termAt n.log req.prevLogIndex ∧
        BeginsAt n.log (termAt n.log req.prevLogIndex) (n.handleAppendEntries req).2.conflictIndex) <->
      termAt n.log 1 ≠ termAt n.log req.prevLogIndex := by
  rw [response_of_conflict current positive inside differs]
  rcases firstConflict_spec n.log (termAt n.log req.prevLogIndex) (req.prevLogIndex - 1) with
    ⟨none, all⟩ | ⟨other, found, low, high, otherTerm, between⟩
  · refine iff_of_false ?_ fun starts => starts ?_
    · rintro ⟨_, begins, _⟩
      rw [none] at begins
      exact Nat.not_succ_le_zero 0 begins
    · rcases Nat.eq_or_lt_of_le positive with first | later
      · rw [← first]
      · exact all 1 (Nat.le_refl 1) (by omega)
  · have before {position : Nat} (first : 1 ≤ position) (atMost : position ≤ other) :
        termAt n.log position < termAt n.log req.prevLogIndex := by
      have low := termAt_mono_of_sorted sorted first atMost (by omega)
      have below := termAt_mono_of_sorted sorted
        (Nat.lt_of_lt_of_le Nat.zero_lt_one (Nat.le_trans first atMost))
        (show other ≤ req.prevLogIndex by omega) inside
      omega
    refine iff_of_true ⟨rfl, ?_⟩ (Nat.ne_of_lt (before (Nat.le_refl 1) low))
    rw [found]
    refine ⟨Nat.le_add_left 1 other, show other + 1 ≤ n.log.length by omega, ?_, ?_⟩
    · rcases Nat.eq_or_lt_of_le (show other + 1 ≤ req.prevLogIndex by omega) with last | inner
      · rw [last]
      · exact between (other + 1) (by omega) (by omega)
    · intro earlier first early
      exact Nat.ne_of_lt (before first (Nat.le_of_lt_succ early))

/-- A term that begins at the second entry. -/
theorem conflict_hint_second :
    let follower : Node :=
      { newNode [98] [[97]] 1 with currentTerm := 3, log := [⟨1, 1, []⟩, ⟨2, 2, []⟩, ⟨2, 3, []⟩] }
    let response := (follower.handleAppendEntries ⟨3, [97], 3, 1, [], 0⟩).2
    response.conflictTerm = 2 ∧ BeginsAt follower.log 2 response.conflictIndex :=
  (conflict_hint_iff { newNode [98] [[97]] 1 with
    currentTerm := 3, log := [⟨1, 1, []⟩, ⟨2, 2, []⟩, ⟨2, 3, []⟩] } (by decide)
      ⟨3, [97], 3, 1, [], 0⟩ (by decide) (by decide) (by decide) (by decide)).mpr (by decide)

/-- A term that begins at the first entry:  the hint is the index zero. -/
theorem conflict_hint_missing :
    let follower : Node :=
      { newNode [98] [[97]] 1 with currentTerm := 3, log := [⟨2, 1, []⟩, ⟨2, 2, []⟩] }
    let response := (follower.handleAppendEntries ⟨3, [97], 2, 1, [], 0⟩).2
    response.success = false ∧ response.conflictTerm = 2 ∧ response.conflictIndex = 0 :=
  ⟨rfl, rfl, rfl⟩

end Node

end Raft
end KVStore
