import KVStore.Raft.Applied
import KVStore.Raft.Commitment

namespace KVStore
namespace Raft

open Function

/-!
# A leader and one of its peers

What an exchange of a leader with one of its peers does for an entry at the end of
the log of the leader.  The peer accepts the request, and then it has the entry;
or it rejects the request, and the leader goes one entry back with `nextIndex`.
A peer that has the entry learns with the next request how far the leader has
committed.

Both apply what they commit up to the entry.  A message about the entry is sent
as long as the channel has room for the messages up to it.
-/

/-! ## Nodes on the way to an entry -/

/-- A node has applied nothing beyond an entry, and it can still send what it
applies up to the entry. -/
structure Nears (entry : LogEntry) (n : Node) : Prop where
  committed : n.commitIndex ≤ entry.index
  applied : n.lastApplied ≤ entry.index
  sent : n.lastApplied = entry.index -> ⟨entry.index, entry.command⟩ ∈ n.applyCh.sent
  room : entry.index - n.lastApplied ≤ n.applyCh.room

/-- And if it has committed the entry then it has applied it. -/
structure Towards (entry : LogEntry) (n : Node) : Prop extends Nears entry n where
  caughtUp : n.commitIndex = entry.index -> n.lastApplied = entry.index

/-- The log of a node ends with an entry. -/
structure EndsWith (entry : LogEntry) (log : List LogEntry) : Prop where
  length : log.length = entry.index
  last : log[entry.index - 1]? = some entry

variable {entry : LogEntry}

theorem EndsWith.positive {log : List LogEntry} (ends : EndsWith entry log) : 0 < entry.index := by
  have inside := (List.getElem?_eq_some_iff.mp ends.last).1
  have length := ends.length
  omega

theorem endsWith_snoc {front : List LogEntry} (index : entry.index = front.length + 1) :
    EndsWith entry (front ++ [entry]) := by
  constructor
  · rw [List.length_append, List.length_singleton, index]
  · rw [index, Nat.add_sub_cancel, List.getElem?_concat_length]

namespace Nears

variable {entry : LogEntry} {n : Node}

theorem applyNext (nears : Nears entry n) (more : n.lastApplied < n.commitIndex)
    (there : n.commitIndex = entry.index -> n.log[entry.index - 1]? = some entry) :
    Nears entry n.applyNext := by
  have committed := nears.committed
  have room := nears.room
  refine ⟨committed, ?_, ?_, ?_⟩
  · change n.lastApplied + 1 ≤ entry.index
    omega
  · intro final
    change n.lastApplied + 1 = entry.index at final
    have last := there (by omega)
    have here : entry.index - 1 = n.lastApplied := by omega
    rw [here] at last
    have channel : n.applyNext.applyCh = n.applyCh.trySend ⟨n.lastApplied + 1, entry.command⟩ := by
      simp only [Node.applyNext, last]
    rw [channel, (ApplyCh.trySend_of_room (by omega) _).1, final]
    exact List.mem_append_right _ List.mem_cons_self
  · change entry.index - (n.lastApplied + 1) ≤ n.applyNext.applyCh.room
    simp only [Node.applyNext]
    split
    · omega
    · rw [(ApplyCh.trySend_of_room (by omega) _).2]
      omega

theorem applyLoop (rounds : Nat) (nears : Nears entry n)
    (there : n.commitIndex = entry.index -> n.log[entry.index - 1]? = some entry) :
    Nears entry (Node.applyLoop rounds n) := by
  induction rounds generalizing n with
  | zero => exact nears
  | succ rounds ih =>
      unfold Node.applyLoop
      split
      next more => exact ih (nears.applyNext more there) there
      · exact nears

end Nears

namespace Towards

variable {entry : LogEntry} {n later : Node}

variable (towards : Towards entry n)

include towards

/-- A node that commits up to an index applies what it has committed. -/
theorem applyCommitted (ends : EndsWith entry n.log) {index : Nat} (inside : index ≤ entry.index) :
    Towards entry { n with commitIndex := index }.applyCommitted := by
  have start : Nears entry { n with commitIndex := index } :=
    ⟨inside, towards.applied, towards.sent, towards.room⟩
  refine ⟨start.applyLoop _ fun _ => ends.last, ?_⟩
  rcases n.commits_applyCommitted index with ⟨_, committed, applied⟩
  rw [committed, applied]
  rintro rfl
  exact Nat.max_eq_right towards.applied

/-- What a node keeps apart from its log. -/
theorem of_kept (committed : later.commitIndex = n.commitIndex)
    (applied : later.lastApplied = n.lastApplied) (channel : later.applyCh = n.applyCh) :
    Towards entry later := by
  refine ⟨⟨?_, ?_, ?_, ?_⟩, ?_⟩
  · rw [committed]
    exact towards.committed
  · rw [applied]
    exact towards.applied
  · rw [applied, channel]
    exact towards.sent
  · rw [applied, channel]
    exact towards.room
  · rw [committed, applied]
    exact towards.caughtUp

theorem commitAt (ends : EndsWith entry n.log) {index : Nat} (inside : index ≤ entry.index) :
    Towards entry (n.commitAt index) := by
  unfold Node.commitAt
  split
  · exact towards
  · split
    · exact towards.applyCommitted ends inside
    · exact towards

theorem updateCommitIndex (ends : EndsWith entry n.log) :
    Towards entry n.updateCommitIndex := by
  have all : Towards entry n.updateCommitIndex ∧ Node.Commits n n.updateCommitIndex := by
    refine @Node.updateCommitIndex_induction n (fun _ current => Towards entry current ∧
      Node.Commits n current) ⟨towards, .refl n⟩ ?_
    rintro index current _ inside ⟨before, commits⟩
    have log := commits.log
    refine ⟨before.commitAt (log ▸ ends) (ends.length ▸ inside), ?_⟩
    rcases Node.commitAt_spec commits index with ⟨_, same⟩ | ⟨_, same⟩
    · rw [same]
      exact commits
    · rw [same]
      exact commits.trans (current.commits_applyCommitted index).1
  exact all.1

theorem followCommit (ends : EndsWith entry n.log) {leaderCommit : Nat}
    (inside : leaderCommit ≤ entry.index) : Towards entry (n.followCommit leaderCommit) := by
  unfold Node.followCommit
  split
  · exact towards.applyCommitted ends (Nat.le_trans (Nat.min_le_left _ _) inside)
  · exact towards

end Towards

/-! ## One exchange -/

/-- The entries of a request whose last one is of a new term. -/
theorem endsWith_appendFrom {position : Nat} {log front : List LogEntry}
    (reached : position ≤ log.length)
    (older : forall index, position < index -> index ≤ log.length -> termAt log index ≠ entry.term)
    (index : entry.index = position + front.length + 1) :
    EndsWith entry (Node.appendFrom (position + 1) log (front ++ [entry])) := by
  induction front generalizing position log with
  | nil =>
      rw [List.nil_append, Node.appendFrom]
      split
      next inside =>
        rw [if_pos (older (position + 1) (Nat.lt_succ_self _) inside), Node.appendFrom,
          Nat.add_sub_cancel]
        exact endsWith_snoc (by rw [List.length_take_of_le reached]; exact index)
      next beyond =>
        rw [Node.appendFrom]
        exact endsWith_snoc (by rw [List.length_nil] at index; omega)
  | cons first front ih =>
      rw [List.length_cons] at index
      rw [List.cons_append, Node.appendFrom]
      split
      next inside =>
        split
        · have length : (log.take (position + 1 - 1) ++ [first]).length = position + 1 := by
            rw [Nat.add_sub_cancel, List.length_append, List.length_take_of_le reached,
              List.length_singleton]
          refine ih (Nat.le_of_eq length.symm) (fun later above below => ?_) (by omega)
          omega
        · exact ih inside (fun later above => older later (by omega)) (by omega)
      next beyond =>
        have length : (log ++ [first]).length = position + 1 := by
          rw [List.length_append, List.length_singleton]
          omega
        refine ih (Nat.le_of_eq length.symm) (fun later above below => ?_) (by omega)
        omega

namespace Node

/-- A request of a term that is not over is accepted, or it is rejected in the
term that the node had. -/
theorem handleAppendEntries_of_current {n : Node} {req : AppendEntriesRequest}
    (current : n.currentTerm ≤ req.term) :
    (HasPrevious n.log req ∧
        n.handleAppendEntries req =
          ((n.takeEntries req).followCommit req.leaderCommit, ⟨req.term, true, 0, 0⟩)) ∨
      (¬ HasPrevious n.log req ∧ (n.handleAppendEntries req).1 = n.becomeFollower req.term ∧
        (n.handleAppendEntries req).2.success = false ∧ (n.handleAppendEntries req).2.term =
            n.currentTerm) := by
  have term : ((n.takeEntries req).followCommit req.leaderCommit).currentTerm = req.term :=
    ((n.takeEntries req).followCommit_spec req.leaderCommit).1.currentTerm
  unfold handleAppendEntries
  rw [if_neg (Nat.not_lt.mpr current)]
  simp only
  split
  next short => exact Or.inr ⟨fun has => Nat.not_lt.mpr (has short.1).1 short.2, rfl, rfl, rfl⟩
  next longEnough =>
    split
    next different => exact Or.inr ⟨fun has => different.2 (has different.1).2, rfl, rfl, rfl⟩
    next sameTerm =>
      refine Or.inl ⟨fun positive => ⟨Nat.not_lt.mp fun short => longEnough ⟨positive, short⟩,
        Decidable.of_not_not fun different => sameTerm ⟨positive, different⟩⟩, ?_⟩
      exact Prod.ext rfl (congrArg (fun term => AppendEntriesResponse.mk term true 0 0) term)

/-- A leader sends what it has for a peer, the peer handles it and the leader goes
on with the response. -/
def exchange (leader : Node) (id : NodeID) (peer : Node) : Node × Node :=
  match leader.appendEntriesFor id with
  | none => (leader, peer)
  | some req =>
      let (after, resp) := peer.handleAppendEntries req
      (leader.appendEntriesReply id req resp, after)

end Node

/-- A leader whose log ends with an entry of its term.  It commits the entry as
soon as it knows of enough replicas. -/
structure Offers (entry : LogEntry) (leader : Node) : Prop where
  leads : leader.state = .leader
  term : leader.currentTerm = entry.term
  ends : EndsWith entry leader.log
  towards : Towards entry leader
  counted : leader.peers.length / 2 + 1 < leader.replicas entry.index ->
    leader.commitIndex = entry.index

/-- A peer that has no entry of the term. -/
structure Lacks (entry : LogEntry) (n : Node) : Prop where
  term : n.currentTerm ≤ entry.term
  older : forall old, old ∈ n.log -> old.term ≠ entry.term
  towards : Towards entry n

/-- A peer that has the entry. -/
structure Holds (entry : LogEntry) (n : Node) : Prop where
  term : n.currentTerm ≤ entry.term
  ends : EndsWith entry n.log
  towards : Towards entry n

theorem termAt_ne_of_older {log : List LogEntry}
    (older : forall old, old ∈ log -> old.term ≠ entry.term) {index : Nat} (positive : 0 < index)
    (inside : index ≤ log.length) : termAt log index ≠ entry.term := by
  have there : index - 1 < log.length := by omega
  rw [termAt, List.getElem?_eq_getElem there]
  exact older _ (List.getElem_mem there)

namespace Offers

variable {entry : LogEntry} {leader n : Node} {id : NodeID} {position : Nat}

variable (offers : Offers entry leader)

include offers

/-- The request for a peer with an index: the entries from there on. -/
theorem request (next : leader.nextIndex id = position + 1) :
    Exists fun req => leader.appendEntriesFor id = some req ∧ req.term = entry.term ∧
      req.prevLogIndex = position ∧
      req.entries = leader.log.drop position ∧ req.leaderCommit = leader.commitIndex ∧
      (0 < position -> position ≤ leader.log.length ->
          req.prevLogTerm = termAt leader.log position) := by
  rw [Node.appendEntriesFor, if_neg (not_not.mpr offers.leads), next]
  refine ⟨_, rfl, offers.term, rfl, ?_, rfl, fun positive inside => if_pos ⟨positive, inside⟩⟩
  simp only [Nat.add_sub_cancel]
  split
  · rfl
  · rw [List.drop_eq_nil_of_le (by omega)]

/-- A leader that hears that a peer has the entry. -/
theorem matched {req : AppendEntriesRequest}
    (whole : req.prevLogIndex + req.entries.length = entry.index) :
    Offers entry (leader.matched id req).updateCommitIndex ∧
      (leader.matched id req).updateCommitIndex.nextIndex =
        update leader.nextIndex id (entry.index + 1) ∧
      (leader.matched id req).updateCommitIndex.matchIndex =
          update leader.matchIndex id entry.index := by
  have commits := (leader.matched id req).updateCommitIndex_spec.1
  have towards : Towards entry (leader.matched id req) := offers.towards.of_kept rfl rfl rfl
  have later := towards.updateCommitIndex offers.ends
  refine ⟨⟨commits.state.trans offers.leads, commits.currentTerm.trans offers.term, ?_, later, ?_⟩,
    ?_, ?_⟩
  · rw [commits.log]
    exact offers.ends
  · intro enough
    rw [commits.peers, commits.replicas] at enough
    refine Nat.le_antisymm later.committed ?_
    rcases Nat.lt_or_ge (leader.matched id req).commitIndex entry.index with below | reached
    · apply Node.Committable.le
      refine ⟨below, Nat.le_of_eq offers.ends.length.symm, ?_, enough⟩
      change termAt leader.log entry.index = leader.currentTerm
      simp only [termAt, offers.ends.last, offers.term]
    · rcases (leader.matched id req).updateCommitIndex_spec.2 with ⟨same, _⟩ | ⟨committable, _⟩
      · rw [same]
        exact reached
      · exact Nat.le_of_lt (Nat.lt_of_le_of_lt reached committable.1)
  · rw [commits.nextIndex]
    funext other
    simp only [Node.matched, whole, update_apply]
  · rw [commits.matchIndex]
    funext other
    simp only [Node.matched, whole, update_apply]

/-- A leader that is told to go back. -/
theorem retried {req : AppendEntriesRequest} {resp : AppendEntriesResponse}
    (term : req.term = entry.term) (current : resp.term ≤ entry.term)
    (failed : resp.success = false) (next : leader.nextIndex id = position + 1)
    (positive : 0 < position) :
    Offers entry (leader.appendEntriesReply id req resp) ∧
      (leader.appendEntriesReply id req resp).nextIndex = update leader.nextIndex id position ∧
      (leader.appendEntriesReply id req resp).matchIndex = leader.matchIndex := by
  have same : leader.appendEntriesReply id req resp =
      { leader with nextIndex := update leader.nextIndex id position } := by
    rw [Node.appendEntriesReply, if_neg, if_neg, if_neg, if_pos]
    · congr 1
      funext other
      simp only [next, Nat.add_sub_cancel, update_apply]
    · omega
    · rw [failed]
      exact Bool.false_ne_true
    · rw [offers.term]
      exact Nat.not_lt.mpr current
    · rw [not_or, not_not, not_not]
      exact ⟨offers.leads, offers.term.trans term.symm⟩
  rw [same]
  exact ⟨⟨offers.leads, offers.term, offers.ends, offers.towards.of_kept rfl rfl rfl,
    offers.counted⟩, rfl, rfl⟩

/-- A peer without the entry gets it, or it is asked again further back. -/
theorem exchange_lacks (lacks : Lacks entry n) (next : leader.nextIndex id = position + 1)
    (inside : position < entry.index) :
    Offers entry (leader.exchange id n).1 ∧
      (Holds entry (leader.exchange id n).2 ∧
          (leader.exchange id n).1.nextIndex = update leader.nextIndex id (entry.index + 1) ∧
          (leader.exchange id n).1.matchIndex = update leader.matchIndex id entry.index ∨
        Lacks entry (leader.exchange id n).2 ∧ 0 < position ∧
          (leader.exchange id n).1.nextIndex = update leader.nextIndex id position ∧
          (leader.exchange id n).1.matchIndex = leader.matchIndex) := by
  have length := offers.ends.length
  rcases offers.request next with ⟨req, request, term, previous, entries, commit, _⟩
  simp only [Node.exchange, request]
  rcases Node.handleAppendEntries_of_current (term ▸ lacks.term : n.currentTerm ≤ req.term) with
    ⟨has, accepted⟩ | ⟨hasNot, followed, failed, sameTerm⟩
  · rw [accepted]
    have whole : req.prevLogIndex + req.entries.length = entry.index := by
      rw [previous, entries, List.length_drop]
      omega
    rcases offers.matched whole with ⟨offersStill, nextIndex, matchIndex⟩
    rw [Node.appendEntriesReply_of_success offers.leads (offers.term.trans term.symm) ?_ rfl]
    · refine ⟨offersStill, Or.inl ⟨?_, nextIndex, matchIndex⟩⟩
      have reached : position ≤ n.log.length := by
        rcases Nat.eq_zero_or_pos position with zero | positive
        · rw [zero]
          exact Nat.zero_le _
        · exact previous ▸ (has (previous.symm ▸ positive)).1
      -- The entries are those before the last one, and the last one.
      have last : leader.log.drop position = (leader.log.drop position).dropLast ++ [entry] := by
        have final : (leader.log.drop position).getLast? = some entry := by
          rw [List.getLast?_drop, if_neg (by omega), List.getLast?_eq_getElem?, length]
          exact offers.ends.last
        rw [List.dropLast_append_getLast? entry final]
      have ends : EndsWith entry (n.takeEntries req).log := by
        change EndsWith entry (Node.appendFrom (req.prevLogIndex + 1) n.log req.entries)
        rw [previous, entries, last]
        refine endsWith_appendFrom reached (fun index above below => ?_) ?_
        · exact termAt_ne_of_older lacks.older (by omega) below
        · rw [List.length_dropLast, List.length_drop]
          omega
      have taken : Towards entry (n.takeEntries req) := lacks.towards.of_kept rfl rfl rfl
      have commits := ((n.takeEntries req).followCommit_spec req.leaderCommit).1
      refine ⟨?_, commits.log.symm ▸ ends,
        taken.followCommit ends (commit ▸ offers.towards.committed)⟩
      rw [commits.currentTerm]
      exact Nat.le_of_eq term
    · rw [offers.term, term]
  · have positive : 0 < position := by
      by_contra start
      exact hasNot fun later => absurd later (previous.symm ▸ start)
    rcases offers.retried term (by rw [sameTerm]; exact lacks.term) failed next positive with
      ⟨offersStill, nextIndex, matchIndex⟩
    refine ⟨offersStill, Or.inr ⟨?_, positive, nextIndex, matchIndex⟩⟩
    rw [followed]
    exact ⟨Nat.le_of_eq term, lacks.older, lacks.towards.of_kept rfl rfl rfl⟩

/-- A peer with the entry learns what the leader has committed. -/
theorem exchange_holds (holds : Holds entry n) (next : leader.nextIndex id = entry.index + 1) :
    Offers entry (leader.exchange id n).1 ∧ Holds entry (leader.exchange id n).2 ∧
      (leader.exchange id n).1.nextIndex = update leader.nextIndex id (entry.index + 1) ∧
      (leader.exchange id n).1.matchIndex = update leader.matchIndex id entry.index ∧
      (leader.commitIndex = entry.index -> (leader.exchange id n).2.commitIndex = entry.index) := by
  have length := offers.ends.length
  have positive := offers.ends.positive
  rcases offers.request next with ⟨req, request, term, previous, rest, commit, previousTerm⟩
  simp only [Node.exchange, request]
  have entries : req.entries = [] := by rw [rest, List.drop_eq_nil_of_le (Nat.le_of_eq length)]
  have own : forall log, EndsWith entry log -> termAt log entry.index = entry.term := by
    intro log ends
    simp only [termAt, ends.last]
  have has : Node.HasPrevious n.log req := by
    intro _
    rw [previous, previousTerm positive (Nat.le_of_eq length.symm)]
    exact ⟨Nat.le_of_eq holds.ends.length.symm, (own _ holds.ends).trans (own _ offers.ends).symm⟩
  rcases Node.handleAppendEntries_of_current (term ▸ holds.term : n.currentTerm ≤ req.term) with
    ⟨_, accepted⟩ | ⟨hasNot, _⟩
  · rw [accepted]
    have whole : req.prevLogIndex + req.entries.length = entry.index := by
      rw [previous, entries]
      rfl
    rcases offers.matched whole with ⟨offersStill, nextIndex, matchIndex⟩
    rw [Node.appendEntriesReply_of_success offers.leads (offers.term.trans term.symm) ?_ rfl]
    · have same : (n.takeEntries req).log = n.log := by
        change Node.appendFrom (req.prevLogIndex + 1) n.log req.entries = n.log
        rw [entries, Node.appendFrom]
      have ends : EndsWith entry (n.takeEntries req).log := same.symm ▸ holds.ends
      have taken : Towards entry (n.takeEntries req) := holds.towards.of_kept rfl rfl rfl
      have follows := (n.takeEntries req).followCommit_spec req.leaderCommit
      have later := taken.followCommit ends
        (commit ▸ offers.towards.committed : req.leaderCommit ≤ entry.index)
      refine ⟨offersStill, ⟨?_, follows.1.log.symm ▸ ends, later⟩, nextIndex, matchIndex,
        fun all => ?_⟩
      · rw [follows.1.currentTerm]
        exact Nat.le_of_eq term
      · rw [commit, all] at follows later ⊢
        rcases follows.2 with ⟨sameCommit, _⟩ | ⟨_, committed, _⟩
        · refine Nat.le_antisymm later.committed ?_
          unfold Node.followCommit at sameCommit ⊢
          split at sameCommit
          next more =>
            rw [((n.takeEntries req).commits_applyCommitted _).2.1, ends.length,
              Nat.min_self] at sameCommit
            omega
          next known =>
            rw [if_neg known]
            exact Nat.not_lt.mp known
        · rw [committed, ends.length, Nat.min_self]
    · rw [offers.term, term]
  · exact absurd has hasNot

end Offers

end Raft
end KVStore
