import KVStore.Raft.LogMatching
import KVStore.Library.Consensus

namespace KVStore
namespace Raft
namespace Cluster

open Function Majority Replication Consensus

/-!
# State machine safety

In every run in which the elections are careful, the nodes apply the same
command at each index.  The mirror of the run is a consensus: a leader has the
votes of a majority whose logs are not further than its own, so that it has
every entry that was committed before.  What a node has committed is settled in
the mirror, and of two settled lists one is a part of the other.
-/

variable {config : ClusterConfig} {s after : Cluster} {event : Event} {a b : State NodeID LogEntry}

/-! ## Quorums -/

/-- A set that contains a majority of the nodes. -/
def Quorum (config : ClusterConfig) (voters : Set NodeID) : Prop :=
  Exists fun chosen : NodeID -> Bool =>
    (HasMajority config.ids fun voter => chosen voter = true) ∧ forall voter, chosen voter = true ->
      voter ∈ voters

theorem quorum_meet (first second : Set NodeID) (enough : Quorum config first)
    (enoughToo : Quorum config second) :
    Exists fun voter => voter ∈ first ∧ voter ∈ second := by
  rcases enough with ⟨chosen, majority, inside⟩
  rcases enoughToo with ⟨otherChosen, otherMajority, otherInside⟩
  rcases majority.meet otherMajority with ⟨voter, _, isChosen, isOther⟩
  exact ⟨voter, inside voter isChosen, otherInside voter isOther⟩

/-! ## Requests of the present election -/

/-- What a goroutine has read of the log is what its node has. -/
def ReadsLog (n : Node) (call : VoteCall) : Prop :=
  (forall index, call.lastLogIndex = some index -> index = n.getLastLogIndex) ∧
    forall term, call.lastLogTerm = some term -> term = n.getLastLogTerm

/-- The goroutines of the election of a candidate have read its log. -/
def Fresh (s : Cluster) : Prop :=
  forall id peer, (s.nodes id).state = .candidate ->
    ReadsLog (s.nodes id) (s.voteCalls id (s.nodes id).currentTerm peer)

variable {n : Node}

theorem readsLog_of_unread {call : VoteCall} (index : call.lastLogIndex = none)
    (term : call.lastLogTerm = none) : ReadsLog n call := by
  refine ⟨fun _ read => ?_, fun _ read => ?_⟩
  · cases index.symm.trans read
  · cases term.symm.trans read

theorem Fresh.step (fresh : Fresh s) (action : Action config s event after) : Fresh after := by
  intro id peer candidate
  have spawned : forall peers : List NodeID, forall n : Node,
      ReadsLog n (if peer ∈ peers then VoteCall.spawned else VoteCall.absent) := by
    intro peers n
    split <;> exact readsLog_of_unread rfl rfl
  rcases action.reacts with ⟨elected, _, rfl⟩ | reacts
  · rw [nodes_startElection] at candidate ⊢
    rw [voteCalls_startElection]
    rcases eq_or_ne id elected with rfl | different
    · rw [update_self, if_pos ⟨rfl, rfl⟩]
      exact spawned _ _
    · rw [update_of_ne different] at candidate ⊢
      rw [if_neg fun here => different here.1]
      exact fresh id peer candidate
  · rcases (reacts id).candidate candidate with ⟨before, sameLog, sameTerm⟩
    have old := fresh id peer before
    have proceeds := action.proceeds id (s.nodes id).currentTerm peer
    rw [ReadsLog, Node.getLastLogIndex, Node.getLastLogTerm, sameLog, sameTerm]
    generalize after.voteCalls id (s.nodes id).currentTerm peer = call at proceeds
    cases proceeds with
    | same => exact old
    | absent => exact readsLog_of_unread rfl rfl
    | spawned member begun new isPeer => exact readsLog_of_unread rfl rfl
    | read started reads nodes =>
        cases reads with
        | term unread => exact old
        | lastLogIndex unread => exact ⟨fun index read => (Option.some.inj read).symm, old.2⟩
        | lastLogTerm unread => exact ⟨old.1, fun term read => (Option.some.inj read).symm⟩
    | answered req happens request result => exact old
    | finished response req resp happens request replied waiting => exact old

variable {req : RequestVoteRequest}

/-- The request of a goroutine that has read the log of its node. -/
theorem ReadsLog.request {call : VoteCall} (reads : ReadsLog n call) {id : NodeID}
    (request : call.request id = some req) :
    req.lastLogIndex = n.getLastLogIndex ∧ req.lastLogTerm = n.getLastLogTerm := by
  simp only [VoteCall.request, Option.bind_eq_bind, Option.bind_eq_some_iff, Option.pure_def,
    Option.some.injEq] at request
  rcases request with ⟨_, _, index, readIndex, term, readTerm, rfl⟩
  exact ⟨reads.1 index readIndex, reads.2 term readTerm⟩

variable {resp : RequestVoteResponse}

/-- A goroutine keeps its request and its responses when its node becomes leader. -/
theorem Wins.call {id peer : NodeID} {election response : Nat}
    (wins : Wins s event after id election peer response req resp) (voter : NodeID) :
    (after.voteCalls id election voter).request id = (s.voteCalls id election voter).request id ∧
      (after.voteCalls id election voter).responses = (s.voteCalls id election voter).responses := by
  rw [wins.result, voteCalls_voteReply, voteCalls_setVoteCall]
  split
  · rename_i here
    rw [here.2.2]
    exact ⟨rfl, rfl⟩
  · exact ⟨rfl, rfl⟩

theorem upToDate_of_reaches {log other : List LogEntry} (reaches : Reaches req other)
    (index : req.lastLogIndex = log.length) (term : req.lastLogTerm = lastTerm log) :
    UpToDate LogEntry.term log other := by
  rw [Reaches, index, term] at reaches
  exact reaches

/-- A node that becomes leader has the votes of a majority for its log. -/
theorem hasVotes_of_wins (mirrors : Mirrors s a) (fresh : Fresh s) (elections : Elections config s)
    (own : countsOwnElection s event = true) (action : Action config s event after)
    {id peer : NodeID} {election response : Nat}
    (wins : Wins s event after id election peer response req resp)
    (vacant : a.winner (s.nodes id).currentTerm = none) :
    HasVotes LogEntry.term (Quorum config) a id := by
  have candidate := (Node.countsVote_iff.mp wins.counted).1
  have agrees := mirrors.nodes id
  have sameElection := election_of_wins own wins
  have later := elections.ballots.step elections.wf action
  have voters : Quorum config fun voter => voter = id ∨
      (after.voteCalls id election voter).counted = true := by
    refine ⟨fun voter => decide (voter = id) || (after.voteCalls id election voter).counted, ?_, ?_⟩
    · apply later.majority_of_wins elections.wf wins
      · simp only [decide_true, Bool.true_or]
      · intro voter isCounted
        simp only [isCounted, Bool.or_true]
    · intro voter chosen
      rw [Bool.or_eq_true, decide_eq_true_eq] at chosen
      exact chosen
  refine ⟨_, voters, ?_⟩
  rw [agrees.term, agrees.log]
  rintro voter (rfl | isCounted)
  · rcases agrees.voted candidate with elected | vote
    · exact absurd vacant elected
    · exact ⟨_, vote, Or.inr ⟨rfl, Nat.le_refl _⟩⟩
  · rcases elections.genuine.counted_step own action id election voter isCounted with
      ⟨voterReq, voterResp, request, sameTerm, answered, granted⟩
    rw [(wins.call voter).1] at request
    rw [(wins.call voter).2] at answered
    rcases mirrors.votes id election voter voterResp answered granted with
      ⟨mirrored, sameRequest, voted⟩
    have same : voterReq = mirrored := Option.some.inj (request.symm.trans sameRequest)
    rw [← same, Voted, sameTerm, sameElection] at voted
    rcases voted with elected | ⟨log, vote, reaches⟩
    · exact absurd vacant elected
    · rw [sameElection] at request
      rcases (fresh id voter candidate).request request with ⟨index, term⟩
      exact ⟨log, vote, upToDate_of_reaches reaches index term⟩

/-! ## What is committed -/

/-- What a node has committed is settled, and it has applied no more. -/
structure Settles (config : ClusterConfig) (a : State NodeID LogEntry) (n : Node) : Prop where
  applied : n.lastApplied ≤ n.commitIndex
  inside : n.commitIndex ≤ n.log.length
  settled : Settled LogEntry.term (Quorum config) a n.currentTerm (n.log.take n.commitIndex)

/-- What a request says to be committed is settled. -/
structure Announces (config : ClusterConfig) (a : State NodeID LogEntry)
    (req : AppendEntriesRequest) : Prop where
  inside : req.leaderCommit ≤ req.prevLogIndex + req.entries.length
  settled : Settled LogEntry.term (Quorum config) a req.term ((a.full req.term).take req.leaderCommit)

structure Committing (config : ClusterConfig) (s : Cluster) (a : State NodeID LogEntry) : Prop where
  nodes : forall id, Settles config a (s.nodes id)
  requests : forall call, call ∈ s.appendCalls -> forall req, call.request = some req ->
    Announces config a req

namespace Settles

variable {n later : Node} (settles : Settles config a n)
    (consensus : Consensus.Invariant LogEntry.term (Quorum config) a)

include settles consensus

/-- A node that keeps what it has committed. -/
theorem of_kept (grows : Grows a b) (applied : later.lastApplied = n.lastApplied)
    (committed : later.commitIndex = n.commitIndex) (term : n.currentTerm ≤ later.currentTerm)
    (log : n.log.take n.commitIndex <+: later.log) : Settles config b later := by
  have length := List.length_take_of_le settles.inside
  have same : later.log.take n.commitIndex = n.log.take n.commitIndex := by
    have kept := List.prefix_iff_eq_take.mp log
    rw [length] at kept
    exact kept.symm
  refine ⟨?_, ?_, ?_⟩
  · rw [applied, committed]
    exact settles.applied
  · rw [committed, ← length]
    exact log.length_le
  · rw [committed, same]
    exact (settles.settled.mono quorum_meet consensus grows).weaken term

theorem mono (grows : Grows a b) : Settles config b n :=
  settles.of_kept consensus grows rfl rfl (Nat.le_refl _) (List.take_prefix _ _)

theorem becomeFollower (grows : Grows a b) {term : Nat} (current : n.currentTerm ≤ term) :
    Settles config b (n.becomeFollower term) :=
  settles.of_kept consensus grows rfl rfl current (List.take_prefix _ _)

theorem catchUp (grows : Grows a b) {term : Nat} (current : n.currentTerm ≤ term) :
    Settles config b (n.catchUp term) := by
  rcases Nat.lt_or_eq_of_le current with newer | rfl
  · rw [Node.catchUp_of_lt newer]
    exact settles.becomeFollower consensus grows current
  · rw [Node.catchUp_self]
    exact settles.mono consensus grows

theorem voteHandled (grows : Grows a b) (handled : n.VoteHandled req later resp) :
    Settles config b later := by
  cases handled with
  | stale old => exact settles.mono consensus grows
  | refused current => exact settles.catchUp consensus grows current
  | granted current free upToDate =>
      have caught := settles.catchUp consensus grows current
      exact ⟨caught.applied, caught.inside, caught.settled⟩

theorem voteReplied (grows : Grows a b) {votes counted : Nat}
    (replied : n.VoteReplied votes req resp later counted) : Settles config b later := by
  cases replied with
  | ignored notCounted => exact settles.mono consensus grows
  | deposed notCounted newer => exact settles.becomeFollower consensus grows (Nat.le_of_lt newer)
  | counted counted => exact settles.mono consensus grows
  | won counted enough =>
      exact settles.of_kept consensus grows rfl rfl (Nat.le_refl _) (List.take_prefix _ _)

omit settles consensus in
/-- A node that commits more. -/
theorem of_commits (commits : Node.Commits n later)
    (applied : later.lastApplied ≤ later.commitIndex) (inside : later.commitIndex ≤ n.log.length)
    (settled : Settled LogEntry.term (Quorum config) b n.currentTerm
      (n.log.take later.commitIndex)) :
    Settles config b later := by
  refine ⟨applied, ?_, ?_⟩
  · rw [commits.log]
    exact inside
  · rw [commits.log, commits.currentTerm]
    exact settled

/-- A node takes over the entries of a request, and what it has committed stays. -/
theorem takeEntries (grows : Grows a b) {id leader : NodeID} (agrees : Agrees a id n)
    {req : AppendEntriesRequest} {part : List LogEntry} (carries : Carries a leader req part)
    (current : n.currentTerm ≤ req.term) (previous : Node.HasPrevious n.log req) :
    Settles config b (n.takeEntries req) ∧ (n.takeEntries req).log = merge n.log part := by
  have coherent := agrees.log ▸ consensus.logs.coherent id
  have agree := logsMatch_of_coherent coherent ((consensus.logs.coherentFull _).of_part carries.taken)
  have merged : (n.takeEntries req).log = merge n.log part :=
    carries.describes.appendFrom_eq previous agree
  have elected : a.winner req.term ≠ none := carries.winner ▸ Option.some_ne_none leader
  have shared := (settles.settled.weaken current).prefix_full quorum_meet consensus elected
  refine ⟨settles.of_kept consensus grows rfl rfl current ?_, merged⟩
  rw [merged]
  exact prefix_merge (List.take_prefix _ _) shared carries.taken

end Settles

theorem take_of_part {part whole : List LogEntry} (inside : part <+: whole) {length : Nat}
    (short : length ≤ part.length) : whole.take length = part.take length := by
  rcases inside with ⟨rest, rfl⟩
  exact List.take_append_of_le_length short

theorem getElem?_of_part {part whole : List LogEntry} (inside : part <+: whole) {index : Nat}
    {entry : LogEntry} (there : part[index]? = some entry) : whole[index]? = some entry := by
  rcases inside with ⟨rest, rfl⟩
  rw [List.getElem?_append_left (List.getElem?_eq_some_iff.mp there).1]
  exact there

/-- A node commits what its leader announces. -/
theorem Settles.followCommit (settles : Settles config b n) (leaderCommit : Nat)
    (inside : leaderCommit ≤ n.log.length)
    (settled : Settled LogEntry.term (Quorum config) b n.currentTerm (n.log.take leaderCommit)) :
    Settles config b (n.followCommit leaderCommit) := by
  rcases n.followCommit_spec leaderCommit with
    ⟨commits, ⟨sameCommit, sameApplied⟩ | ⟨more, committed, applied⟩⟩
  · refine .of_commits commits ?_ ?_ ?_
    · rw [sameCommit, sameApplied]
      exact settles.applied
    · rw [sameCommit]
      exact settles.inside
    · rw [sameCommit]
      exact settles.settled
  · rw [Nat.min_eq_left inside] at committed applied
    have old := settles.applied
    refine .of_commits commits ?_ ?_ ?_
    · rw [committed, applied]
      omega
    · rw [committed]
      exact inside
    · rw [committed]
      exact settled

variable {req : AppendEntriesRequest}

theorem Settles.appendHandled {n later : Node} (settles : Settles config a n)
    (consensus : Consensus.Invariant LogEntry.term (Quorum config) a) (grows : Grows a b)
    {id leader : NodeID} (agrees : Agrees a id n) {resp : AppendEntriesResponse}
    {part : List LogEntry} (handled : n.AppendHandled req later resp)
    (carries : Carries a leader req part) (announces : Announces config a req) :
    Settles config b later := by
  cases handled with
  | stale old resp failed => exact settles.mono consensus grows
  | rejected current resp failed => exact settles.becomeFollower consensus grows current
  | accepted current previous resp =>
      rcases settles.takeEntries consensus grows agrees carries current previous with ⟨taken, merged⟩
      have there : part <+: (n.takeEntries req).log := merged ▸ part_prefix_merge n.log part
      have inside : req.leaderCommit ≤ part.length := carries.length ▸ announces.inside
      refine taken.followCommit req.leaderCommit (Nat.le_trans inside there.length_le) ?_
      rw [take_of_part there inside, ← take_of_part carries.taken inside]
      exact announces.settled.mono quorum_meet consensus grows

/-- What a leader may commit is settled: with the peers that have acknowledged it
the leader is a majority. -/
theorem settled_of_committable {id : NodeID} {index : Nat} (member : id ∈ config.ids)
    (peers : n.peers = config.peers id) (agrees : Agrees b id n) (leads : n.state = .leader)
    (consensus : Consensus.Invariant LogEntry.term (Quorum config) b)
    (committable : n.Committable index) :
    Settled LogEntry.term (Quorum config) b n.currentTerm (n.log.take index) := by
  rcases committable with ⟨above, inside, ownTerm, enough⟩
  have won := agrees.leads.mp leads
  have whole : b.full n.currentTerm = n.log := by
    rw [← agrees.term, ← consensus.logs.leading id (agrees.term.symm ▸ won), agrees.log]
  rcases Nat.exists_eq_succ_of_ne_zero (Nat.ne_zero_of_lt above) with ⟨before, rfl⟩
  rcases take_succ_of_termAt n.log before inside with ⟨entry, shape, stamp⟩
  rw [ownTerm] at stamp
  have acked : forall voter, (voter = id ∨ voter ∈ n.peers ∧ before + 1 ≤ n.matchIndex voter) ->
      Exists fun acked => before + 1 ≤ acked ∧ b.acks voter n.currentTerm acked := by
    rintro voter (rfl | ⟨isPeer, stored⟩)
    · rcases consensus.logs.own voter n.currentTerm won with none | ack
      · -- An entry of the own term is none of those with which the leader was elected.
        have fresh : entry ∈ b.base n.currentTerm := by
          rw [← none, whole]
          exact List.mem_of_mem_take (shape ▸ List.mem_append_right _ List.mem_cons_self)
        exact absurd (consensus.logs.older _ entry fresh) (stamp ▸ Nat.lt_irrefl _)
      · exact ⟨_, whole.symm ▸ inside, ack⟩
    · rcases agrees.acked leads voter isPeer with none | ack
      · rw [none] at stored
        exact absurd stored (Nat.not_succ_le_zero _)
      · exact ⟨_, stored, ack⟩
  refine Or.inr ⟨n.currentTerm, Nat.le_refl _, before + 1,
    ⟨⟨_, entry, whole.symm ▸ shape, stamp.symm⟩, ?_⟩, ?_⟩
  · refine ⟨fun voter => voter = id ∨ voter ∈ n.peers ∧ before + 1 ≤ n.matchIndex voter, ?_, acked⟩
    refine ⟨fun voter => decide (voter = id ∨ voter ∈ n.peers ∧
      before + 1 ≤ n.matchIndex voter), ?_, ?_⟩
    · apply hasMajority_of_peers (perm_cons_peers member)
      · exact decide_eq_true (Or.inl rfl)
      · intro voter isPeer stored
        exact decide_eq_true (Or.inr ⟨peers ▸ isPeer, of_decide_eq_true stored⟩)
      · rw [← peers]
        exact enough
    · intro voter chosen
      rw [decide_eq_true_eq] at chosen
      exact chosen
  · rw [whole]

/-- A leader goes on after a reply.  Its indices are mirrored after the reply. -/
theorem Settles.appendReplied {n later : Node} (settles : Settles config a n)
    (consensus : Consensus.Invariant LogEntry.term (Quorum config) a) (grows : Grows a b)
    (consensusAfter : Consensus.Invariant LogEntry.term (Quorum config) b) {id peer : NodeID}
    (member : id ∈ config.ids) (peers : n.peers = config.peers id) (agrees : Agrees b id later)
    {resp : AppendEntriesResponse} (replied : n.AppendReplied peer req resp later) :
    Settles config b later := by
  cases replied with
  | ignored => exact settles.mono consensus grows
  | deposed newer => exact settles.becomeFollower consensus grows (Nat.le_of_lt newer)
  | retried more =>
      exact settles.of_kept consensus grows rfl rfl (Nat.le_refl _) (List.take_prefix _ _)
  | matched leads same success =>
      have kept : Settles config b (n.matched peer req) :=
        settles.of_kept consensus grows rfl rfl (Nat.le_refl _) (List.take_prefix _ _)
      rcases (n.matched peer req).updateCommitIndex_spec with
        ⟨commits, ⟨sameCommit, sameApplied⟩ | ⟨committable, applied⟩⟩
      · refine .of_commits commits ?_ ?_ ?_
        · rw [sameCommit, sameApplied]
          exact kept.applied
        · rw [sameCommit]
          exact kept.inside
        · rw [sameCommit]
          exact kept.settled
      · refine .of_commits commits ?_ committable.2.1 ?_
        · rw [applied]
          exact Nat.max_le.mpr ⟨Nat.le_trans kept.applied (Nat.le_of_lt committable.1), Nat.le_refl _⟩
        · exact settled_of_committable member peers (agrees.commits commits.symm) leads
            consensusAfter committable

/-! ## Steps -/

theorem Announces.mono (announces : Announces config a req)
    (consensus : Consensus.Invariant LogEntry.term (Quorum config) a) (grows : Grows a b)
    {leader : NodeID} {part : List LogEntry} (carries : Carries a leader req part) :
    Announces config b req := by
  have elected : a.winner req.term ≠ none := carries.winner ▸ Option.some_ne_none leader
  have there : req.leaderCommit ≤ (a.full req.term).length :=
    Nat.le_trans announces.inside (carries.length ▸ carries.taken.length_le)
  refine ⟨announces.inside, ?_⟩
  rw [take_full grows elected there]
  exact announces.settled.mono quorum_meet consensus grows

/-- A leader announces what it has committed. -/
theorem Settles.announces (settles : Settles config a n) {id peer : NodeID} (agrees : Agrees a id n)
    (invariant : Replication.Invariant LogEntry.term a) (isPeer : peer ∈ n.peers)
    (request : n.appendEntriesFor peer = some req) : Announces config a req := by
  have carries := agrees.carries invariant isPeer request
  unfold Node.appendEntriesFor at request
  split at request
  · cases request
  · rename_i leading
    rw [not_not] at leading
    rw [Option.some.injEq] at request
    have commit : req.leaderCommit = n.commitIndex := request ▸ rfl
    have term : req.term = n.currentTerm := request ▸ rfl
    have whole : a.full n.currentTerm = n.log := by
      rw [← agrees.term, ← invariant.leading id
        (agrees.term.symm ▸ agrees.leads.mp leading), agrees.log]
    refine ⟨?_, ?_⟩
    · rw [← carries.length, commit]
      exact settles.inside
    · rw [commit, term, whole]
      exact settles.settled

namespace Committing

variable (committing : Committing config s a) (wf : WellFormed config s) (mirrors : Mirrors s a)
  (consensus : Consensus.Invariant LogEntry.term (Quorum config) a) (grows : Grows a b)
  (action : Action config s event after)

include committing wf mirrors consensus grows action

theorem requests_step (call : AppendCall) (inside : call ∈ after.appendCalls)
    (req : AppendEntriesRequest) (built : call.request = some req) : Announces config b req := by
  have old : forall call, call ∈ s.appendCalls -> call.request = some req ->
      Announces config b req := by
    intro call before request
    rcases (mirrors.appends call before).carries req request with ⟨part, carries⟩
    exact (committing.requests call before req request).mono consensus grows carries
  cases wf.sends action inside with
  | same before => exact old call before built
  | spawned member isPeer => cases built
  | @built index before same happens there unbuilt request =>
      rw [← Option.some.inj built]
      have isPeer : before.peer ∈ (s.nodes before.leader).peers :=
        wf.peers before.leader ▸ (wf.appends before there).2
      have agrees := mirrors.nodes before.leader
      exact ((committing.nodes before.leader).announces agrees consensus.logs isPeer request).mono
        consensus grows (agrees.carries consensus.logs isPeer request)
  | @answered index before same happens there request =>
      exact old before (List.mem_of_getElem? there) built
  | @finished before there => exact old before there built

omit wf mirrors action in
/-- The nodes after an action of one node. -/
theorem nodes_of_update {changed : NodeID} (nodes : after.nodes = update s.nodes changed n)
    (here : Settles config b n) (id : NodeID) : Settles config b (after.nodes id) := by
  rw [nodes]
  rcases eq_or_ne id changed with rfl | different
  · rw [update_self]
    exact here
  · rw [update_of_ne different]
    exact (committing.nodes id).mono consensus grows

theorem nodes_step (mirrorsAfter : Mirrors after b)
    (consensusAfter : Consensus.Invariant LogEntry.term (Quorum config) b) :
    forall id, Settles config b (after.nodes id) := by
  have same : after.nodes = s.nodes -> forall id, Settles config b (after.nodes id) := by
    intro nodes id
    rw [nodes]
    exact (committing.nodes id).mono consensus grows
  cases action with
  | none => exact same rfl
  | @startElection id member =>
      apply committing.nodes_of_update consensus grows rfl
      exact (committing.nodes id).of_kept consensus grows rfl rfl (Nat.le_succ _)
        (List.take_prefix _ _)
  | heartbeat member leads => exact same rfl
  | @propose id command member leads =>
      apply committing.nodes_of_update consensus grows rfl
      rw [propose_of_leader leads]
      exact (committing.nodes id).of_kept consensus grows rfl rfl (Nat.le_refl _)
        ((List.take_prefix _ _).trans (List.prefix_append _ _))
  | read started reads => exact same rfl
  | @deliverVote id election peer req request =>
      exact committing.nodes_of_update consensus grows rfl
        ((committing.nodes peer).voteHandled consensus grows (Node.handleRequestVote_spec _ _))
  | @voteReply id election peer response req resp request answered waiting =>
      exact committing.nodes_of_update consensus grows (s.nodes_voteReply id election peer req resp)
        ((committing.nodes id).voteReplied consensus grows (Node.voteReply_spec _ _ _ _))
  | buildAppend there unbuilt => exact same rfl
  | @deliverAppend index call req there built =>
      have inside := List.mem_of_getElem? there
      rcases (mirrors.appends call inside).carries req built with ⟨part, carries⟩
      exact committing.nodes_of_update consensus grows rfl
        ((committing.nodes call.peer).appendHandled consensus grows (mirrors.nodes call.peer)
          (Node.handleAppendEntries_spec _ _) carries (committing.requests call inside req built))
  | @appendReply index response call req resp there built answered =>
      apply committing.nodes_of_update consensus grows rfl
      have agrees := mirrorsAfter.nodes call.leader
      change Agrees b call.leader (update s.nodes call.leader _ call.leader) at agrees
      rw [update_self] at agrees
      exact (committing.nodes call.leader).appendReplied consensus grows consensusAfter
        (wf.appends call (List.mem_of_getElem? there)).1 (wf.peers call.leader) agrees
        (Node.appendEntriesReply_spec _ _ _ _)
  | @receive id =>
      apply committing.nodes_of_update consensus grows rfl
      exact (committing.nodes id).of_kept consensus grows rfl rfl (Nat.le_refl _)
        (List.take_prefix _ _)

theorem step (mirrorsAfter : Mirrors after b)
    (consensusAfter : Consensus.Invariant LogEntry.term (Quorum config) b) :
    Committing config after b :=
  ⟨committing.nodes_step wf mirrors consensus grows action mirrorsAfter consensusAfter,
    committing.requests_step wf mirrors consensus grows action⟩

end Committing

/-! ## Runs -/

/-- A run and its mirror, which is a consensus.  What any node has applied at any
moment of the run is settled. -/
structure Safe (config : ClusterConfig) (events : List Event) (a : State NodeID LogEntry) : Prop where
  mirrored : Mirrored config events a
  elections : Elections config (run config events)
  fresh : Fresh (run config events)
  consensus : Consensus.Invariant LogEntry.term (Quorum config) a
  committing : Committing config (run config events) a
  applied : forall moment id, Exists fun bound => Settled LogEntry.term (Quorum config) a bound
    (((run config (events.take moment)).nodes id).log.take
      ((run config (events.take moment)).nodes id).lastApplied)

theorem safe_init (config : ClusterConfig) : Safe config [] State.initial := by
  refine ⟨mirrored_init config,
    ⟨wellFormed_init config, ballots_init config, genuine_init config⟩, ?_,
      invariant_initial, ⟨?_, ?_⟩, ?_⟩
  · intro id peer candidate
    cases candidate
  · exact fun id => ⟨Nat.le_refl _, Nat.le_refl _, Or.inl rfl⟩
  · intro call inside
    cases inside
  · intro moment id
    refine ⟨0, Or.inl ?_⟩
    rw [List.take_nil]
    rfl

/-- What a node has applied is settled. -/
theorem Settles.applied_settled (settles : Settles config a n) :
    Settled LogEntry.term (Quorum config) a n.currentTerm (n.log.take n.lastApplied) :=
  settles.settled.of_part (List.take_prefix_take_left settles.applied)

theorem Safe.snoc {events : List Event} (safe : Safe config events a)
    (careful : careful (run config events) event = true)
    (unique : UniqueLeaders config (events ++ [event])) :
    Exists fun b => Grows a b ∧ Safe config (events ++ [event]) b := by
  rcases Bool.and_eq_true_iff.mp careful with ⟨own, _⟩
  have action := step_action config (run config events) event
  rw [← run_snoc] at action
  have chosen : forall id, ((run config (events ++ [event])).nodes id).state = .leader ->
      ((run config events).nodes id).state ≠ .leader ->
      a.winner ((run config (events ++ [event])).nodes id).currentTerm = none ->
      HasVotes LogEntry.term (Quorum config) a id := by
    intro id leads before vacant
    rcases action.lead id leads with ⟨was, _⟩ | ⟨election, peer, response, req, resp, wins⟩
    · exact absurd was before
    · rw [wins.leads] at vacant
      exact hasVotes_of_wins safe.mirrored.mirrors safe.fresh safe.elections own action wins vacant
  rcases safe.mirrored.snoc (HasVotes LogEntry.term (Quorum config)) unique chosen with
    ⟨b, steps, mirrored⟩
  have grows := grows_of_steps steps
  have consensus := safe.consensus.run steps
  have committing := safe.committing.step safe.mirrored.wf safe.mirrored.mirrors
    safe.consensus grows action mirrored.mirrors consensus
  have elections := safe.elections
  refine ⟨b, grows, mirrored, ⟨mirrored.wf, elections.ballots.step elections.wf action,
    elections.genuine.step elections.wf elections.ballots own action⟩, safe.fresh.step action,
      consensus, committing, ?_⟩
  intro moment id
  rcases Nat.lt_or_ge events.length moment with whole | part
  · have all : (events ++ [event]).take moment = events ++ [event] :=
      List.take_of_length_le (by rw [List.length_append]; exact whole)
    rw [all]
    exact ⟨_, (committing.nodes id).applied_settled⟩
  · rw [List.take_append_of_le_length part]
    rcases safe.applied moment id with ⟨bound, settled⟩
    exact ⟨bound, settled.mono quorum_meet safe.consensus grows⟩

theorem safe_run {events : List Event} (along : Along config careful (init config) events) :
    Exists fun a => Safe config events a := by
  induction events using List.reverseRecOn with
  | nil => exact ⟨State.initial, safe_init config⟩
  | append_singleton events event ih =>
      have unique := uniqueLeaders along
      rw [along_append] at along
      rcases ih along.1 with ⟨a, safe⟩
      rcases safe.snoc along.2.1 unique with ⟨b, _, after⟩
      exact ⟨b, after⟩

/-- In every run in which counted votes go to the counter of the election of the
present term and no forgotten vote is given again to another candidate, the
entries that any two nodes have applied at an index, be it at different moments,
have the same command. -/
theorem state_machine_safety (config : ClusterConfig) (events : List Event)
    (along : Along config careful (init config) events) (moment later : Nat) (id other : NodeID)
    (index : Nat) (entry otherEntry : LogEntry)
    (applied : index < ((run config (events.take moment)).nodes id).lastApplied)
    (otherApplied : index < ((run config (events.take later)).nodes other).lastApplied)
    (there : ((run config (events.take moment)).nodes id).log[index]? = some entry)
    (otherThere : ((run config (events.take later)).nodes other).log[index]? = some otherEntry) :
    entry.command = otherEntry.command := by
  rcases safe_run along with ⟨a, safe⟩
  rcases safe.applied moment id with ⟨_, settled⟩
  rcases safe.applied later other with ⟨_, otherSettled⟩
  rw [← List.getElem?_take_of_lt applied] at there
  rw [← List.getElem?_take_of_lt otherApplied] at otherThere
  rcases settled.comparable quorum_meet safe.consensus otherSettled with below | above
  · rw [Option.some.inj ((getElem?_of_part below there).symm.trans otherThere)]
  · rw [Option.some.inj ((getElem?_of_part above otherThere).symm.trans there)]

/-- A leader commits an entry, and a peer hears of it. -/
def committedEntry : List Event :=
  calmElection ++ [.propose [97] [1], .buildAppend 3, .buildAppend 4, .deliverAppend 3,
    .deliverAppend 4, .appendReply 3 0, .appendReply 4 0, .heartbeat [97], .buildAppend 6,
      .deliverAppend 6]

theorem state_machine_safety_committedEntry :
    ((run fourNodes (committedEntry.take 21)).nodes [97]).lastApplied = 1 ∧
      ((run fourNodes (committedEntry.take 21)).nodes [98]).lastApplied = 1 ∧
      (LogEntry.mk 1 1 [1]).command = (LogEntry.mk 1 1 [1]).command :=
  ⟨by decide +kernel, by decide +kernel,
    state_machine_safety fourNodes committedEntry (by decide +kernel) 21 21 [97] [98] 0
      ⟨1, 1, [1]⟩ ⟨1, 1, [1]⟩ (by decide +kernel) (by decide +kernel) (by decide +kernel)
        (by decide +kernel)⟩

/-- Each of two leaders of a term commits an entry with the help of the same two
peers. -/
def rivalCommands : List Event :=
  rivalElection ++
    [.propose [97] [1], .buildAppend 6, .buildAppend 7, .deliverAppend 6, .deliverAppend 7,
      .appendReply 6 0, .appendReply 7 0, .propose [100] [2], .buildAppend 10, .buildAppend 11,
      .deliverAppend 10, .deliverAppend 11, .appendReply 10 0, .appendReply 11 0]

set_option maxRecDepth 10000 in
theorem two_commands_applied :
    ((run fourNodes rivalCommands).nodes [97]).lastApplied = 1 ∧
      ((run fourNodes rivalCommands).nodes [97]).log = [⟨1, 1, [1]⟩] ∧
      ((run fourNodes rivalCommands).nodes [100]).lastApplied = 1 ∧
      ((run fourNodes rivalCommands).nodes [100]).log = [⟨1, 1, [2]⟩] := by
  decide +kernel

end Cluster
end Raft
end KVStore
