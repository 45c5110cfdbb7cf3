import KVStore.Raft.Election
import KVStore.Library.Replication

namespace KVStore
namespace Raft

open Function Replication

/-!
# A cluster replicates logs

Every action of a cluster is matched by steps of the replicated logs: a node goes
on to another term, votes, is elected, appends an entry or takes over a part of
the log of its leader.  The state of the replicated logs mirrors that of the
cluster.  In particular, the entries that a request carries, together with
those that it takes for granted, are a part of the log of the leader of its term.

The simulation needs that no other node has been elected in the term in which a
node becomes leader.
-/

/-! ## Logs -/

/-- Logs that have entries of the same term at an index agree up to it. -/
def LogsMatch (first second : List LogEntry) : Prop :=
  forall index, 0 < index -> index ≤ first.length -> index ≤ second.length ->
    termAt first index = termAt second index -> first.take index = second.take index

theorem logsMatch_of_coherent {a : State NodeID LogEntry} {first second : List LogEntry}
    (coherent : Coherent LogEntry.term a first) (otherCoherent : Coherent LogEntry.term a second) :
    LogsMatch first second := by
  intro index positive inFirst inSecond sameTerm
  rcases Nat.exists_eq_succ_of_ne_zero (Nat.pos_iff_ne_zero.mp positive) with ⟨before, rfl⟩
  rcases take_succ_of_termAt first before inFirst with ⟨entry, shape, stamp⟩
  rcases take_succ_of_termAt second before inSecond with ⟨otherEntry, otherShape, otherStamp⟩
  rw [shape, otherShape]
  refine coherent.matching otherCoherent (shape ▸ List.take_prefix _ _)
    (otherShape ▸ List.take_prefix _ _) ?_ ?_
  · rw [List.length_take_of_le (Nat.le_of_succ_le inFirst),
      List.length_take_of_le (Nat.le_of_succ_le inSecond)]
  · rw [← stamp, ← otherStamp, sameTerm]

namespace Node

/-- The entries are appended to a log that ends where they start. -/
theorem appendFrom_end (front entries : List LogEntry) :
    appendFrom (front.length + 1) front entries = front ++ entries := by
  induction entries generalizing front with
  | nil => rw [appendFrom, List.append_nil]
  | cons entry entries ih =>
      have next := ih (front ++ [entry])
      rw [List.length_append, List.append_assoc] at next
      rw [appendFrom, if_neg (Nat.not_succ_le_self _)]
      exact next

/-- The loop over the entries replaces the log by the part of the log of the
leader, unless the log has that part already. -/
theorem appendFrom_eq_merge {log front entries : List LogEntry} (shared : front <+: log)
    (agree : LogsMatch log (front ++ entries)) :
    appendFrom (front.length + 1) log entries = merge log (front ++ entries) := by
  induction entries generalizing front with
  | nil => rw [appendFrom, List.append_nil, merge, if_pos shared]
  | cons entry entries ih =>
      have here : (front ++ entry :: entries).take (front.length + 1) = front ++ [entry] := by
        rw [List.take_append, List.take_of_length_le (Nat.le_succ _), Nat.add_sub_cancel_left]
        rfl
      have next : front ++ [entry] <+: front ++ entry :: entries := here ▸ List.take_prefix _ _
      -- A log that does not have the next entry is replaced.
      have replaced : ¬ front ++ [entry] <+: log -> merge log (front ++ entry :: entries) = front ++
          entry :: entries := by
        intro missing
        exact if_neg fun inside => missing (next.trans inside)
      have appended : appendFrom (front.length + 1 + 1) (front ++ [entry]) entries = front ++
          entry :: entries := by
        have rest := appendFrom_end (front ++ [entry]) entries
        rw [List.length_append, List.append_assoc] at rest
        exact rest
      rw [appendFrom]
      split
      · rename_i inside
        have front_eq : log.take front.length = front := (List.prefix_iff_eq_take.mp shared).symm
        split
        · rename_i conflict
          rw [Nat.add_sub_cancel, front_eq, appended,
            replaced fun has => conflict (termAt_of_part has)]
        · rename_i sameTerm
          rw [not_not, ← termAt_of_part next] at sameTerm
          have more := agree (front.length + 1) (Nat.succ_pos _) inside (by simp) sameTerm
          rw [here] at more
          rw [List.append_cons] at agree ⊢
          rw [← ih (more ▸ List.take_prefix _ _) agree, List.length_append]
          rfl
      · rename_i short
        have log_eq : front = log :=
          shared.eq_of_length_le (Nat.le_of_lt_succ (Nat.lt_of_not_le short))
        subst log_eq
        rw [appended, replaced]
        intro has
        exact short (Nat.le_trans (by rw [List.length_append]; exact Nat.le_refl _) has.length_le)

end Node

/-! ## Requests -/

/-- The entries of a request, with those that it takes for granted, are a log. -/
structure Describes (req : AppendEntriesRequest) (part : List LogEntry) : Prop where
  length : part.length = req.prevLogIndex + req.entries.length
  entries : req.entries = part.drop req.prevLogIndex
  previous : 0 < req.prevLogIndex -> req.prevLogTerm = termAt part req.prevLogIndex

variable {req : AppendEntriesRequest} {part : List LogEntry}

variable {peer : NodeID}

/-- A leader describes its log to a peer. -/
theorem describes_of_appendEntriesFor {n : Node} (positive : 0 < n.nextIndex peer)
    (inside : n.nextIndex peer ≤ n.log.length + 1) (request : n.appendEntriesFor peer = some req) :
    Describes req n.log := by
  unfold Node.appendEntriesFor at request
  split at request
  · cases request
  · have drop : (if n.nextIndex peer ≤ n.log.length then n.log.drop (n.nextIndex peer - 1) else []) =
        n.log.drop (n.nextIndex peer - 1) := by
      split
      · rfl
      · rename_i atEnd
        exact (List.drop_eq_nil_of_le (by omega)).symm
    rw [Option.some.injEq] at request
    subst request
    refine ⟨?_, drop, ?_⟩
    · simp only [drop, List.length_drop]
      omega
    · intro some
      exact if_pos ⟨some, by omega⟩

theorem leader_of_appendEntriesFor {n : Node} (request : n.appendEntriesFor peer = some req) :
    n.state = .leader ∧ req.term = n.currentTerm ∧ req.leaderCommit = n.commitIndex := by
  unfold Node.appendEntriesFor at request
  split at request
  · cases request
  · rename_i leading
    rw [Option.some.injEq] at request
    subst request
    exact ⟨not_not.mp leading, rfl, rfl⟩

namespace Describes

variable {req : AppendEntriesRequest} {log part : List LogEntry} (describes : Describes req part)

include describes

theorem prevLogIndex_le : req.prevLogIndex ≤ part.length := by
  rw [describes.length]
  exact Nat.le_add_right _ _

theorem whole : part.take req.prevLogIndex ++ req.entries = part := by
  rw [describes.entries, List.take_append_drop]

/-- A log that has the entry before those of a request takes over what the
request describes. -/
theorem appendFrom_eq (previous : Node.HasPrevious log req) (agree : LogsMatch log part) :
    Node.appendFrom (req.prevLogIndex + 1) log req.entries = merge log part := by
  have inside := describes.prevLogIndex_le
  have shared : part.take req.prevLogIndex <+: log := by
    rcases Nat.eq_zero_or_pos req.prevLogIndex with none | some
    · rw [none, List.take_zero]
      exact List.nil_prefix
    · rcases previous some with ⟨reached, sameTerm⟩
      rw [← agree req.prevLogIndex some reached inside (sameTerm.trans (describes.previous some))]
      exact List.take_prefix _ _
  have merged := Node.appendFrom_eq_merge shared (describes.whole.symm ▸ agree)
  rw [describes.whole, List.length_take_of_le inside] at merged
  exact merged

end Describes

/-! ## The mirrored state -/

/-- A node and its mirror. -/
structure Agrees (a : State NodeID LogEntry) (id : NodeID) (n : Node) : Prop where
  term : a.term id = n.currentTerm
  log : a.log id = n.log
  leads : n.state = .leader <-> a.winner n.currentTerm = some id
  next : n.state = .leader -> forall peer, peer ∈ n.peers ->
    0 < n.nextIndex peer ∧ n.nextIndex peer ≤ n.log.length + 1
  acked : n.state = .leader -> forall peer, peer ∈ n.peers ->
    n.matchIndex peer = 0 ∨ a.acks peer n.currentTerm (n.matchIndex peer)
  voted : n.state = .candidate -> a.winner n.currentTerm ≠ none ∨ a.votes id n.currentTerm id n.log

/-- The entries of a request, with those before them, are a part of the log of
the leader of its term. -/
structure Carries (a : State NodeID LogEntry) (leader : NodeID) (req : AppendEntriesRequest)
    (part : List LogEntry) : Prop where
  winner : a.winner req.term = some leader
  taken : part <+: a.full req.term
  length : part.length = req.prevLogIndex + req.entries.length
  entries : req.entries = part.drop req.prevLogIndex
  previous : 0 < req.prevLogIndex -> req.prevLogTerm = termAt part req.prevLogIndex

/-- A goroutine of a leader and its mirror: what was accepted is acknowledged. -/
structure Replicates (a : State NodeID LogEntry) (call : AppendCall) : Prop where
  carries : forall req, call.request = some req -> Exists fun part => Carries a call.leader req part
  acked : forall resp, resp ∈ call.responses -> resp.success = true -> Exists fun req =>
    call.request = some req ∧ a.acks call.peer req.term (req.prevLogIndex + req.entries.length)

/-- The log that a request describes is at least as far as another. -/
def Reaches (req : RequestVoteRequest) (log : List LogEntry) : Prop :=
  lastTerm log < req.lastLogTerm ∨ lastTerm log = req.lastLogTerm ∧ log.length ≤ req.lastLogIndex

/-- A vote for a request is mirrored, unless the term has a leader. -/
def Voted (a : State NodeID LogEntry) (id : NodeID) (req : RequestVoteRequest) (peer : NodeID) :
    Prop :=
  a.winner req.term ≠ none ∨ Exists fun log => a.votes peer req.term id log ∧ Reaches req log

/-- A cluster and its mirror. -/
structure Mirrors (s : Cluster) (a : State NodeID LogEntry) : Prop where
  nodes : forall id, Agrees a id (s.nodes id)
  appends : forall call, call ∈ s.appendCalls -> Replicates a call
  votes : s.Backed (Voted a)

/-! ## Nodes and their mirrors -/

variable {electable : State NodeID LogEntry -> NodeID -> Prop} {a b : State NodeID LogEntry}
    {id : NodeID} {n after : Node}

theorem Carries.mono {leader : NodeID} (carries : Carries a leader req part) (grows : Grows a b) :
    Carries b leader req part := by
  refine ⟨grows.winner _ _ carries.winner, carries.taken.trans (grows.full _ ?_), carries.length,
    carries.entries, carries.previous⟩
  rw [carries.winner]
  exact Option.some_ne_none leader

theorem Carries.describes {leader : NodeID} (carries : Carries a leader req part) :
    Describes req part :=
  ⟨carries.length, carries.entries, carries.previous⟩

theorem Replicates.mono {call : AppendCall} (replicates : Replicates a call) (grows : Grows a b) :
    Replicates b call := by
  constructor
  · intro req built
    rcases replicates.carries req built with ⟨part, carries⟩
    exact ⟨part, carries.mono grows⟩
  · intro resp answered success
    rcases replicates.acked resp answered success with ⟨req, built, ack⟩
    exact ⟨req, built, grows.acks _ _ _ ack⟩

theorem reaches_of_isLogUpToDate {req : RequestVoteRequest}
    (upToDate : n.isLogUpToDate req.lastLogIndex req.lastLogTerm = true) : Reaches req n.log := by
  unfold Node.isLogUpToDate at upToDate
  split at upToDate
  · exact Or.inl (of_decide_eq_true upToDate)
  · rename_i same
    exact Or.inr ⟨(not_not.mp same).symm, of_decide_eq_true upToDate⟩

theorem Voted.mono {req : RequestVoteRequest} (voted : Voted a id req peer) (grows : Grows a b) :
    Voted b id req peer := by
  rcases voted with elected | ⟨log, vote, reaches⟩
  · exact Or.inl (grows.elected elected)
  · exact Or.inr ⟨log, grows.votes _ _ _ _ vote, reaches⟩

/-- A node that is no candidate and does not lead. -/
theorem agrees_of_follower {follower : Node} (term : b.term id = follower.currentTerm)
    (log : b.log id = follower.log) (follows : follower.state = .follower)
    (notLeader : b.winner follower.currentTerm ≠ some id) :
    Agrees b id follower := by
  have passive : forall state, state ≠ .follower -> follower.state ≠ state :=
    fun state other same => other (same ▸ follows)
  refine ⟨term, log, ?_, ?_, ?_, ?_⟩
  · exact ⟨fun leads => absurd leads (passive _ NodeState.noConfusion),
      fun won => absurd won notLeader⟩
  · exact fun leads => absurd leads (passive _ NodeState.noConfusion)
  · exact fun leads => absurd leads (passive _ NodeState.noConfusion)
  · exact fun candidate => absurd candidate (passive _ NodeState.noConfusion)

namespace Agrees

variable (agrees : Agrees a id n)

include agrees

/-- A node whose own part of the mirror does not change. -/
theorem mono (grows : Grows a b) (term : b.term id = a.term id) (log : b.log id = a.log id)
    (won : forall term, b.winner term = some id -> a.winner term = some id) : Agrees b id n := by
  refine ⟨term.trans agrees.term, log.trans agrees.log, ?_, agrees.next, ?_, ?_⟩
  · exact ⟨fun leads => grows.winner _ _ (agrees.leads.mp leads), fun winner =>
      agrees.leads.mpr (won _ winner)⟩
  · intro leads peer isPeer
    exact (agrees.acked leads peer isPeer).imp_right (grows.acks _ _ _)
  · intro candidate
    exact (agrees.voted candidate).imp grows.elected (grows.votes _ _ _ _)

theorem commits (commits : Node.Commits n after) : Agrees a id after := by
  rcases commits with ⟨applyCh, same⟩
  rw [same]
  exact ⟨agrees.term, agrees.log, agrees.leads, agrees.next, agrees.acked, agrees.voted⟩

variable (electable)

theorem follow {term : Nat} (current : n.currentTerm ≤ term) (notLeader : a.winner term ≠ some id) :
    Exists fun b => Moves LogEntry.term electable id a b ∧ Agrees b id (n.becomeFollower term) := by
  rcases Moves.reach LogEntry.term electable (agrees.term ▸ current) with
    ⟨b, moves, sameTerm, sameLog⟩
  exact ⟨b, moves, agrees_of_follower sameTerm (sameLog.trans agrees.log) rfl
    (moves.winner ▸ notLeader)⟩

section Invariant

variable (invariant : Replication.Invariant LogEntry.term a)

include invariant

/-- A node has not been elected in a later term. -/
theorem not_elected {term : Nat} (later : n.currentTerm < term) : a.winner term ≠ some id :=
  fun won => absurd (agrees.term ▸ invariant.reached id term won) (Nat.not_le.mpr later)

theorem catchUp {term : Nat} (current : n.currentTerm ≤ term) :
    Exists fun b => Moves LogEntry.term electable id a b ∧ Agrees b id (n.catchUp term) := by
  rcases Nat.lt_or_eq_of_le current with later | rfl
  · rw [Node.catchUp_of_lt later]
    exact agrees.follow electable current (agrees.not_elected invariant later)
  · rw [Node.catchUp_self]
    exact ⟨a, .refl id a, agrees⟩

/-- The own vote of a candidate. -/
theorem startElection :
    Exists fun b => Moves LogEntry.term electable id a b ∧ Agrees b id n.startElection := by
  have later : a.term id ≤ n.currentTerm + 1 := agrees.term ▸ Nat.le_succ _
  rcases Moves.reach LogEntry.term electable later with ⟨middle, reaches, sameTerm, sameLog⟩
  rcases Moves.vote LogEntry.term electable (s := middle) id id with
    ⟨b, votes, keptTerm, keptLog, voted⟩
  refine ⟨b, reaches.trans votes, keptTerm.trans sameTerm, keptLog.trans (sameLog.trans agrees.log),
    ?_, ?_, ?_, ?_⟩
  · refine ⟨fun leads => (nomatch leads), fun won => absurd won ?_⟩
    rw [votes.winner, reaches.winner]
    exact agrees.not_elected invariant (Nat.lt_succ_self _)
  · exact fun leads => nomatch leads
  · exact fun leads => nomatch leads
  · intro _
    rw [sameTerm, sameLog, agrees.log] at voted
    exact voted

theorem castVote {term : Nat} (current : n.currentTerm ≤ term) (candidate : NodeID) :
    Exists fun b => Moves LogEntry.term electable id a b ∧
      Agrees b id ((n.catchUp term).castVote candidate) ∧
      (b.winner term ≠ none ∨ b.votes id term candidate n.log) := by
  rcases agrees.catchUp electable invariant current with ⟨middle, reaches, caught⟩
  rcases Moves.vote LogEntry.term electable (s := middle) id candidate with
    ⟨b, votes, keptTerm, keptLog, voted⟩
  rw [caught.term, Node.currentTerm_catchUp current, caught.log, Node.log_catchUp] at voted
  have same := caught.mono votes.grows keptTerm keptLog (fun term won => votes.winner ▸ won)
  exact ⟨b, reaches.trans votes,
    ⟨same.term, same.log, same.leads, same.next, same.acked, same.voted⟩, voted⟩

/-- A node that takes over the entries of a request. -/
theorem accept {leader : NodeID} (carries : Carries a leader req part) (different : leader ≠ id)
    (current : n.currentTerm ≤ req.term) (previous : Node.HasPrevious n.log req) :
    Exists fun b => Moves LogEntry.term electable id a b ∧ Agrees b id (n.takeEntries req) ∧
      b.acks id req.term part.length := by
  have agree : LogsMatch n.log part := agrees.log ▸
    logsMatch_of_coherent (invariant.coherent id) ((invariant.coherentFull _).of_part carries.taken)
  have notLeader : a.winner req.term ≠ some id := by
    rw [carries.winner]
    exact fun same => different (Option.some.inj same)
  rcases Moves.reach LogEntry.term electable (agrees.term ▸ current) with
    ⟨middle, reaches, sameTerm, sameLog⟩
  have there := carries.mono reaches.grows
  rcases Moves.accept LogEntry.term electable (sameTerm ▸ there.winner) different
      (sameTerm ▸ there.taken) with
    ⟨b, accepts, keptTerm, newLog, ack⟩
  rw [sameTerm] at keptTerm ack
  refine ⟨b, reaches.trans accepts, agrees_of_follower keptTerm ?_ rfl ?_, ack⟩
  · rw [newLog, sameLog, agrees.log]
    exact (carries.describes.appendFrom_eq previous agree).symm
  · rw [accepts.winner, reaches.winner]
    exact notLeader

/-- A request that a leader builds carries its log. -/
theorem carries (isPeer : peer ∈ n.peers) (request : n.appendEntriesFor peer = some req) :
    Carries a id req n.log := by
  rcases leader_of_appendEntriesFor request with ⟨leading, term, _⟩
  rcases agrees.next leading peer isPeer with ⟨positive, inside⟩
  have describes := describes_of_appendEntriesFor positive inside request
  have won := agrees.leads.mp leading
  have whole : n.log = a.full n.currentTerm := by
    rw [← agrees.log, ← agrees.term]
    exact invariant.leading id (agrees.term.symm ▸ won)
  rw [← term] at won whole
  exact ⟨won, whole ▸ List.prefix_rfl, describes.length, describes.entries, describes.previous⟩

/-- A peer has accepted a request of this term. -/
theorem matched (leads : n.state = .leader) (same : n.currentTerm = req.term)
    (carries : Carries a id req part)
    (ack : a.acks peer req.term (req.prevLogIndex + req.entries.length)) :
    Agrees a id (n.matched peer req) := by
  have whole : a.full req.term = n.log := by
    rw [← same, ← agrees.term,
      ← invariant.leading id (agrees.term.symm ▸ agrees.leads.mp leads), agrees.log]
  refine ⟨agrees.term, agrees.log, agrees.leads, ?_, ?_, agrees.voted⟩
  · intro _ other isPeer
    simp only [Node.matched]
    split
    · refine ⟨Nat.succ_pos _, Nat.succ_le_succ ?_⟩
      rw [← carries.length, ← whole]
      exact carries.taken.length_le
    · exact agrees.next leads other isPeer
  · intro _ other isPeer
    simp only [Node.matched]
    split
    · rename_i here
      rw [here, same]
      exact Or.inr ack
    · exact agrees.acked leads other isPeer

omit invariant in
theorem retried (more : 1 < n.nextIndex peer) :
    Agrees a id { n with
      nextIndex := fun other => if other = peer then n.nextIndex peer - 1 else
          n.nextIndex other } := by
  refine ⟨agrees.term, agrees.log, agrees.leads, ?_, agrees.acked, agrees.voted⟩
  intro leads other isPeer
  have old := agrees.next leads other isPeer
  simp only
  split
  · rename_i here
    rw [here] at old
    omega
  · exact old

omit invariant in
theorem propose (leads : n.state = .leader) (command : Bytes) :
    Exists fun b => Moves LogEntry.term electable id a b ∧
      Agrees b id { n with log := n.log ++ [⟨n.currentTerm, n.log.length + 1, command⟩] } := by
  have won := agrees.leads.mp leads
  have stamped : (LogEntry.mk n.currentTerm (n.log.length + 1) command).term = a.term id :=
    agrees.term.symm
  rcases Moves.propose LogEntry.term electable (agrees.term.symm ▸ won) stamped with
    ⟨b, moves, sameTerm, newLog⟩
  refine ⟨b, moves, sameTerm.trans agrees.term, newLog.trans (by rw [agrees.log]), ?_, ?_, ?_, ?_⟩
  · rw [moves.winner]
    exact agrees.leads
  · intro _ peer isPeer
    rcases agrees.next leads peer isPeer with ⟨positive, inside⟩
    refine ⟨positive, Nat.le_trans inside ?_⟩
    rw [List.length_append]
    exact Nat.le_succ _
  · intro _ peer isPeer
    exact (agrees.acked leads peer isPeer).imp_right (moves.grows.acks _ _ _)
  · intro candidate
    cases leads.symm.trans candidate

omit invariant in
theorem elect : Agrees (a.elect id) id n.becomeLeader := by
  refine ⟨agrees.term, agrees.log, ⟨fun _ => ?_, fun _ => rfl⟩, ?_, ?_,
    fun candidate => nomatch candidate⟩
  · change update a.winner (a.term id) (some id) n.currentTerm = some id
    rw [← agrees.term, update_self]
  · intro _ peer isPeer
    have next : n.becomeLeader.nextIndex peer = n.log.length + 1 := if_pos isPeer
    rw [next]
    exact ⟨Nat.succ_pos _, Nat.le_refl _⟩
  · intro _ peer isPeer
    exact Or.inl (if_pos isPeer)

/-! The ways in which the methods of a node end. -/

theorem voteHandled {req : RequestVoteRequest} {resp : RequestVoteResponse}
    (handled : n.VoteHandled req after resp) :
    Exists fun b => Moves LogEntry.term electable id a b ∧ Agrees b id after ∧
      (resp.voteGranted = true -> Voted b req.candidateID req id) := by
  cases handled with
  | stale old => exact ⟨a, .refl id a, agrees, fun granted => nomatch granted⟩
  | refused current =>
      rcases agrees.catchUp electable invariant current with ⟨b, moves, caught⟩
      exact ⟨b, moves, caught, fun granted => nomatch granted⟩
  | granted current free upToDate =>
      rcases agrees.castVote electable invariant current req.candidateID with ⟨b, moves, voter, voted⟩
      refine ⟨b, moves, voter, fun _ => voted.imp_right fun vote => ⟨n.log, vote, ?_⟩⟩
      exact reaches_of_isLogUpToDate upToDate

theorem voteReplied {votes counted : Nat} {req : RequestVoteRequest} {resp : RequestVoteResponse}
    (replied : n.VoteReplied votes req resp after counted) :
    (Exists fun b => Moves LogEntry.term electable id a b ∧ Agrees b id after) ∨
      after = n.becomeLeader ∧ n.state = .candidate := by
  cases replied with
  | ignored notCounted => exact Or.inl ⟨a, .refl id a, agrees⟩
  | deposed notCounted later =>
      exact Or.inl (agrees.follow electable (Nat.le_of_lt later) (agrees.not_elected invariant later))
  | counted counted => exact Or.inl ⟨a, .refl id a, agrees⟩
  | won counted enough => exact Or.inr ⟨rfl, (Node.countsVote_iff.mp counted).1⟩

theorem appendHandled {leader : NodeID} {resp : AppendEntriesResponse}
    (handled : n.AppendHandled req after resp) (carries : Carries a leader req part)
    (different : leader ≠ id) :
    Exists fun b => Moves LogEntry.term electable id a b ∧ Agrees b id after ∧
      (resp.success = true -> b.acks id req.term (req.prevLogIndex + req.entries.length)) := by
  cases handled with
  | stale old resp failed =>
      exact ⟨a, .refl id a, agrees, fun success => nomatch failed.symm.trans success⟩
  | rejected current resp failed =>
      have notLeader : a.winner req.term ≠ some id := by
        rw [carries.winner]
        exact fun same => different (Option.some.inj same)
      rcases agrees.follow electable current notLeader with ⟨b, moves, follower⟩
      exact ⟨b, moves, follower, fun success => nomatch failed.symm.trans success⟩
  | accepted current previous resp =>
      rcases agrees.accept electable invariant carries different current previous with
        ⟨b, moves, taken, ack⟩
      refine ⟨b, moves, taken.commits (Node.followCommit_spec _ _).1, fun _ => ?_⟩
      rw [← carries.length]
      exact ack

theorem appendReplied {resp : AppendEntriesResponse} (replied : n.AppendReplied peer req resp after)
    (carries : Carries a id req part)
    (ack : resp.success = true -> a.acks peer req.term (req.prevLogIndex + req.entries.length)) :
    Exists fun b => Moves LogEntry.term electable id a b ∧ Agrees b id after := by
  cases replied with
  | ignored => exact ⟨a, .refl id a, agrees⟩
  | deposed later =>
      exact agrees.follow electable (Nat.le_of_lt later) (agrees.not_elected invariant later)
  | matched leads same success =>
      exact ⟨a, .refl id a, (agrees.matched invariant leads same carries (ack success)).commits
        (Node.updateCommitIndex_spec _).1⟩
  | retried more => exact ⟨a, .refl id a, agrees.retried more⟩

end Invariant

end Agrees

/-! ## Actions and their mirrors -/

section Actions

variable (electable)

/-- An action is matched by steps of the mirror, and a leader that these elect
leads the cluster. -/
structure Matched (a : State NodeID LogEntry) (after : Cluster)
    (b : State NodeID LogEntry) : Prop where
  steps : Relation.ReflTransGen (Step LogEntry.term electable) a b
  mirrors : Mirrors after b
  won : forall term id, b.winner term = some id ->
    a.winner term = some id ∨ (after.nodes id).state = .leader ∧ (after.nodes id).currentTerm = term

variable {electable} {config : ClusterConfig} {s after : Cluster} {event : Event}

/-- A node is not its own peer. -/
theorem ne_of_peer {id peer : NodeID} (member : id ∈ config.ids) (isPeer : peer ∈ config.peers id) :
    id ≠ peer := by
  rintro rfl
  exact config.distinct.not_mem_erase ((config.others id member).mem_iff.mp isPeer)

namespace Mirrors

variable (mirrors : Mirrors s a) (invariant : Replication.Invariant LogEntry.term a)
  (wf : Cluster.WellFormed config s) (action : Cluster.Action config s event after)

include mirrors invariant wf action

theorem appends_step (grows : Grows a b)
    (accepted : forall index call req, event = .deliverAppend index ->
      s.appendCalls[index]? = some call -> call.request = some req ->
      ((s.nodes call.peer).handleAppendEntries req).2.success = true ->
      b.acks call.peer req.term (req.prevLogIndex + req.entries.length))
    (call : AppendCall) (inside : call ∈ after.appendCalls) : Replicates b call := by
  cases wf.sends action inside with
  | same old => exact (mirrors.appends call old).mono grows
  | spawned member isPeer =>
      exact ⟨fun _ built => (nomatch built), fun _ answered => (nomatch answered)⟩
  | @built index before req happens old unbuilt request =>
      have isPeer : before.peer ∈ (s.nodes before.leader).peers :=
        wf.peers before.leader ▸ (wf.appends before old).2
      have carries := ((mirrors.nodes before.leader).carries invariant isPeer request).mono grows
      constructor
      · intro other built
        rw [← Option.some.inj built]
        exact ⟨_, carries⟩
      · intro resp answered success
        rcases (mirrors.appends before old).acked resp answered success with ⟨_, built, _⟩
        cases unbuilt.symm.trans built
  | @answered index before req happens there built =>
      have old := (mirrors.appends before (List.mem_of_getElem? there)).mono grows
      refine ⟨old.carries, ?_⟩
      intro resp answered success
      rcases List.mem_append.mp answered with earlier | new
      · exact old.acked resp earlier success
      · rw [List.mem_singleton.mp new] at success
        exact ⟨req, built, accepted index before req happens there built success⟩
  | @finished before old =>
      have same := (mirrors.appends before old).mono grows
      exact ⟨same.carries, same.acked⟩

/-- A step in which nothing new is accepted or granted, unless it is mirrored. -/
theorem of_steps (steps : Relation.ReflTransGen (Step LogEntry.term electable) a b)
    (nodes : forall id, Agrees b id (after.nodes id))
    (won : forall term id, b.winner term = some id -> a.winner term = some id ∨
      (after.nodes id).state = .leader ∧ (after.nodes id).currentTerm = term)
    (accepted : forall index call req, event = .deliverAppend index ->
      s.appendCalls[index]? = some call -> call.request = some req ->
      ((s.nodes call.peer).handleAppendEntries req).2.success = true ->
      b.acks call.peer req.term (req.prevLogIndex + req.entries.length))
    (granted : forall id election peer req, event = .deliverVote id election peer ->
      (s.voteCalls id election peer).request id = some req ->
      ((s.nodes peer).handleRequestVote req).2.voteGranted = true -> Voted b id req peer) :
    Matched electable a after b := by
  have grows := grows_of_steps steps
  refine ⟨steps, ⟨nodes, mirrors.appends_step invariant wf action grows accepted, ?_⟩, won⟩
  exact mirrors.votes.step action (fun _ _ _ voted => voted.mono grows)
    fun id election peer req happens request _ => granted id election peer req happens request

omit invariant wf action in
/-- The nodes after an action of one node that is not elected. -/
theorem nodes_of_moves {changed : NodeID} (moves : Moves LogEntry.term electable changed a b)
    (nodes : after.nodes = update s.nodes changed n) (here : Agrees b changed n) (id : NodeID) :
    Agrees b id (after.nodes id) := by
  rw [nodes]
  rcases eq_or_ne id changed with rfl | different
  · rw [update_self]
    exact here
  · rw [update_of_ne different]
    exact (mirrors.nodes id).mono moves.grows (moves.term id different) (moves.log id different)
      fun term won => moves.winner ▸ won

/-- An action of one node that is not elected and handles no request. -/
theorem of_moves {changed : NodeID} (moves : Moves LogEntry.term electable changed a b)
    (nodes : after.nodes = update s.nodes changed n) (here : Agrees b changed n)
    (undelivered : forall index, event ≠ .deliverAppend index)
    (unasked : forall id election peer, event ≠ .deliverVote id election peer) :
    Matched electable a after b := by
  refine mirrors.of_steps invariant wf action moves.steps
    (mirrors.nodes_of_moves moves nodes here) ?_ ?_ ?_
  · exact fun term id won => Or.inl (moves.winner ▸ won)
  · exact fun index _ _ happens => absurd happens (undelivered index)
  · exact fun id election peer _ happens => absurd happens (unasked id election peer)

/-- An action that changes no node. -/
theorem of_same (nodes : after.nodes = s.nodes)
    (undelivered : forall index, event ≠ .deliverAppend index)
    (unasked : forall id election peer, event ≠ .deliverVote id election peer) :
    Matched electable a after a := by
  refine mirrors.of_moves invariant wf action (.refl [] a) ?_ (mirrors.nodes []) undelivered unasked
  rw [nodes, update_eq_self]

/-- An action by which a node becomes leader. -/
theorem of_elect {id : NodeID} (leads : after.nodes = update s.nodes id (s.nodes id).becomeLeader)
    (vacant : a.winner (s.nodes id).currentTerm = none) (chosen : electable a id)
    (undelivered : forall index, event ≠ .deliverAppend index)
    (unasked : forall id election peer, event ≠ .deliverVote id election peer) :
    Matched electable a after (a.elect id) := by
  have step : Step LogEntry.term electable a (a.elect id) :=
    .elect id ((mirrors.nodes id).term.symm ▸ vacant) chosen
  have won : forall term other, (a.elect id).winner term = some other ->
      a.winner term = some other ∨ other = id ∧ term = (s.nodes id).currentTerm := by
    intro term other elected
    rcases eq_or_ne term (a.term id) with rfl | different
    · simp only [State.elect, update_self, Option.some.injEq] at elected
      exact Or.inr ⟨elected.symm, (mirrors.nodes id).term⟩
    · simp only [State.elect, update_of_ne different] at elected
      exact Or.inl elected
  refine mirrors.of_steps invariant wf action (.single step) ?_ ?_ ?_ ?_
  · intro other
    rw [leads]
    rcases eq_or_ne other id with rfl | different
    · rw [update_self]
      exact (mirrors.nodes other).elect
    · rw [update_of_ne different]
      exact (mirrors.nodes other).mono step.grows rfl rfl fun term elected =>
        (won term other elected).resolve_right fun new => different new.1
  · intro term other elected
    refine (won term other elected).imp_right ?_
    rintro ⟨rfl, rfl⟩
    rw [leads, update_self]
    exact ⟨rfl, rfl⟩
  · exact fun index _ _ happens => absurd happens (undelivered index)
  · exact fun id election peer _ happens => absurd happens (unasked id election peer)

/-- Every action is matched, when a node that becomes leader is electable and no
other node has been elected in its term. -/
theorem step
    (unique : forall id, (after.nodes id).state = .leader -> (s.nodes id).state ≠ .leader ->
      forall other, a.winner (after.nodes id).currentTerm = some other -> other = id)
    (chosen : forall id, (after.nodes id).state = .leader -> (s.nodes id).state ≠ .leader ->
      a.winner (after.nodes id).currentTerm = none -> electable a id) :
    Exists fun b => Matched electable a after b := by
  have whole := action
  cases action with
  | none => exact ⟨a, .refl, mirrors, fun _ _ won => Or.inl won⟩
  | @startElection id member =>
      rcases (mirrors.nodes id).startElection electable invariant with ⟨b, moves, candidate⟩
      exact ⟨b, mirrors.of_moves invariant wf whole moves rfl candidate nofun nofun⟩
  | heartbeat member leads => exact ⟨a, mirrors.of_same invariant wf whole rfl nofun nofun⟩
  | @propose id command member leads =>
      rcases (mirrors.nodes id).propose electable leads command with ⟨b, moves, leader⟩
      refine ⟨b, mirrors.of_moves invariant wf whole moves ?_ leader nofun nofun⟩
      rw [← Cluster.propose_of_leader leads]
      rfl
  | read started reads =>
      refine ⟨a, mirrors.of_same invariant wf whole rfl ?_ ?_⟩
      · cases reads <;> exact nofun
      · cases reads <;> exact nofun
  | @deliverVote id election peer req request =>
      rcases (mirrors.nodes peer).voteHandled electable invariant
          ((s.nodes peer).handleRequestVote_spec req) with
        ⟨b, moves, voter, voted⟩
      refine ⟨b, mirrors.of_steps invariant wf whole moves.steps
        (mirrors.nodes_of_moves moves rfl voter) ?_ nofun ?_⟩
      · exact fun term id won => Or.inl (moves.winner ▸ won)
      · rintro _ _ _ same ⟨⟩ sameRequest granted
        rw [request, Option.some.injEq] at sameRequest
        subst sameRequest
        rw [← Cluster.candidateID_of_request request]
        exact voted granted
  | @voteReply id election peer response req resp request answered waiting =>
      have nodes := s.nodes_voteReply id election peer req resp
      rcases (mirrors.nodes id).voteReplied electable invariant
        ((s.nodes id).voteReply_spec (s.votesReceived id election) req resp) with ⟨b, moves, loses⟩
        | ⟨wins, candidate⟩
      · exact ⟨b, mirrors.of_moves invariant wf whole moves nodes loses nofun nofun⟩
      · rw [wins] at nodes
        have leader : (s.voteReply id election peer req resp).nodes id =
            (s.nodes id).becomeLeader := by
          rw [nodes, update_self]
        have follower : (s.nodes id).state ≠ .leader := candidate ▸ NodeState.noConfusion
        have vacant : a.winner (s.nodes id).currentTerm = none := by
          refine Option.eq_none_iff_forall_ne_some.mpr fun other won => ?_
          have same := unique id (leader ▸ rfl) follower other (leader ▸ won)
          exact follower ((mirrors.nodes id).leads.mpr (same ▸ won))
        have electableNow := chosen id (leader ▸ rfl) follower (leader ▸ vacant)
        exact ⟨_, mirrors.of_elect invariant wf whole nodes vacant electableNow nofun nofun⟩
  | buildAppend there unbuilt => exact ⟨a, mirrors.of_same invariant wf whole rfl nofun nofun⟩
  | @deliverAppend index call req there built =>
      have inside := List.mem_of_getElem? there
      rcases (mirrors.appends call inside).carries req built with ⟨part, carries⟩
      rcases wf.appends call inside with ⟨member, isPeer⟩
      rcases (mirrors.nodes call.peer).appendHandled electable invariant
        ((s.nodes call.peer).handleAppendEntries_spec req) carries (ne_of_peer member isPeer) with
        ⟨b, moves, taken, ack⟩
      refine ⟨b, mirrors.of_steps invariant wf whole moves.steps
        (mirrors.nodes_of_moves moves rfl taken) ?_ ?_ nofun⟩
      · exact fun term id won => Or.inl (moves.winner ▸ won)
      · rintro _ same sameReq ⟨⟩ sameCall sameBuilt success
        rw [there, Option.some.injEq] at sameCall
        subst sameCall
        rw [built, Option.some.injEq] at sameBuilt
        subst sameBuilt
        exact ack success
  | @appendReply index response call req resp there built answered =>
      have replicates := mirrors.appends call (List.mem_of_getElem? there)
      rcases replicates.carries req built with ⟨part, carries⟩
      have ack : resp.success = true ->
          a.acks call.peer req.term (req.prevLogIndex + req.entries.length) := by
        intro success
        rcases replicates.acked resp (List.mem_of_getElem? answered) success with
          ⟨same, sameBuilt, ack⟩
        rw [built, Option.some.injEq] at sameBuilt
        rw [sameBuilt]
        exact ack
      rcases (mirrors.nodes call.leader).appendReplied electable invariant
        ((s.nodes call.leader).appendEntriesReply_spec call.peer req resp) carries ack with
        ⟨b, moves, replied⟩
      exact ⟨b, mirrors.of_moves invariant wf whole moves rfl replied nofun nofun⟩
  | @receive id =>
      exact ⟨a, mirrors.of_moves invariant wf whole (.refl id a) rfl
        ((mirrors.nodes id).commits ⟨_, rfl⟩) nofun nofun⟩

end Mirrors

theorem mirrors_init (config : ClusterConfig) : Mirrors (Cluster.init config) State.initial := by
  refine ⟨?_, ?_, ?_⟩
  · intro id
    exact agrees_of_follower rfl rfl rfl nofun
  · intro call inside
    cases inside
  · intro id election peer resp answered
    cases answered

end Actions
end Raft
end KVStore
