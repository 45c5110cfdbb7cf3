import KVStore.Raft.LogOrder

namespace KVStore
namespace Raft

open Function

/-!
# The stream of applied entries

`applyCommitted` counts an entry as applied before it tries to send it, and the
entry is lost for the state machine if the channel has no room at that moment.
As long as there is room for every entry that is committed, and no request
replaces an entry that was applied, the messages on the channel are the applied
entries of the log.
-/

/-- The messages for the first entries of a log. -/
def appliedMessages (log : List LogEntry) (count : Nat) : List ApplyMsg :=
  (log.take count).mapIdx fun position entry => ⟨position + 1, entry.command⟩

theorem appliedMessages_succ {log : List LogEntry} {count : Nat} {entry : LogEntry}
    (there : log[count]? = some entry) :
    appliedMessages log (count + 1) = appliedMessages log count ++ [⟨count + 1, entry.command⟩] := by
  rcases List.getElem?_eq_some_iff.mp there with ⟨inside, rfl⟩
  rw [appliedMessages, List.take_succ_eq_append_getElem inside, List.mapIdx_append,
    List.length_take_of_le (Nat.le_of_lt inside)]
  rw [List.mapIdx_singleton, Nat.zero_add]
  rfl

/-! ## The channel -/

/-- The number of messages that can be sent at once: each waiting receiver takes
one, and the others go to the buffer. -/
def ApplyCh.room (ch : ApplyCh) : Nat := ch.receivers + (ch.capacity - ch.buffer.length)

theorem ApplyCh.trySend_of_room {ch : ApplyCh} (room : 0 < ch.room) (msg : ApplyMsg) :
    (ch.trySend msg).sent = ch.sent ++ [msg] ∧ (ch.trySend msg).room = ch.room - 1 := by
  unfold ApplyCh.room at room ⊢
  unfold ApplyCh.trySend
  split
  · refine ⟨rfl, ?_⟩
    change ch.receivers - 1 + (ch.capacity - ch.buffer.length) = _
    omega
  · split
    · refine ⟨rfl, ?_⟩
      change ch.receivers + (ch.capacity - (ch.buffer ++ [msg]).length) = _
      rw [List.length_append, List.length_singleton]
      omega
    · omega

/-! ## Nodes -/

/-- Everything that is committed was applied, and the messages on the channel are
the applied entries of the log. -/
structure Streams (n : Node) : Prop where
  applied : n.lastApplied = n.commitIndex
  inside : n.commitIndex ≤ n.log.length
  sent : n.applyCh.sent = appliedMessages n.log n.lastApplied

theorem sent_applyLoop (rounds : Nat) (n : Node) (all : n.commitIndex = n.lastApplied + rounds)
    (inside : n.commitIndex ≤ n.log.length) (room : rounds ≤ n.applyCh.room)
    (sent : n.applyCh.sent = appliedMessages n.log n.lastApplied) :
    (Node.applyLoop rounds n).applyCh.sent = appliedMessages n.log n.commitIndex ∧
      (Node.applyLoop rounds n).applyCh.room = n.applyCh.room - rounds := by
  induction rounds generalizing n with
  | zero => exact ⟨by rw [all]; exact sent, rfl⟩
  | succ rounds ih =>
      have next : n.lastApplied < n.log.length := by omega
      have there := List.getElem?_eq_getElem next
      have channel : n.applyNext.applyCh =
          n.applyCh.trySend ⟨n.lastApplied + 1, n.log[n.lastApplied].command⟩ := by
        simp only [Node.applyNext, there]
      rcases ApplyCh.trySend_of_room (Nat.lt_of_lt_of_le (Nat.succ_pos rounds) room)
        ⟨n.lastApplied + 1, n.log[n.lastApplied].command⟩ with ⟨newSent, newRoom⟩
      rw [← channel] at newSent newRoom
      have rest := ih n.applyNext (by change n.commitIndex = n.lastApplied + 1 + rounds; omega) inside
        (by rw [newRoom]; omega) (by rw [newSent, sent]; exact (appliedMessages_succ there).symm)
      rw [Node.applyLoop, if_pos (by omega)]
      refine ⟨rest.1, ?_⟩
      rw [rest.2, newRoom]
      omega

namespace Streams

variable {n later : Node} (streams : Streams n)

include streams

/-- Committing up to an index for which there is room. -/
theorem applyCommitted {index : Nat} (more : n.commitIndex ≤ index) (inside : index ≤ n.log.length)
    (room : index - n.lastApplied ≤ n.applyCh.room) :
    Streams { n with commitIndex := index }.applyCommitted ∧
      { n with commitIndex := index }.applyCommitted.applyCh.room =
          n.applyCh.room - (index - n.lastApplied) := by
  have applied := streams.applied
  have rounds : index = n.lastApplied + (index - n.lastApplied) := by omega
  rcases sent_applyLoop (index - n.lastApplied) { n with commitIndex := index } rounds inside
      room streams.sent with
    ⟨sent, left⟩
  rcases n.commits_applyCommitted index with ⟨commits, committed, last⟩
  have whole : max n.lastApplied index = index := by omega
  refine ⟨⟨?_, ?_, ?_⟩, left⟩
  · rw [last, committed, whole]
  · rw [committed, commits.log]
    exact inside
  · rw [last, commits.log, whole]
    exact sent

/-- A node that keeps its log as far as it is applied and applies nothing. -/
theorem of_kept (applied : later.lastApplied = n.lastApplied)
    (committed : later.commitIndex = n.commitIndex)
    (log : later.log.take n.lastApplied = n.log.take n.lastApplied)
    (sent : later.applyCh.sent = n.applyCh.sent) :
    Streams later := by
  refine ⟨?_, ?_, ?_⟩
  · rw [applied, committed]
    exact streams.applied
  · have length := congrArg List.length log
    have inside := streams.inside
    have all := streams.applied
    rw [List.length_take, List.length_take] at length
    omega
  · rw [sent, applied, appliedMessages, log]
    exact streams.sent

theorem voteHandled {req : RequestVoteRequest} {resp : RequestVoteResponse}
    (handled : n.VoteHandled req later resp) :
    Streams later := by
  have caught : Streams (n.catchUp req.term) := by
    unfold Node.catchUp
    split
    · exact streams.of_kept rfl rfl rfl rfl
    · exact streams
  cases handled with
  | stale old => exact streams
  | refused current => exact caught
  | granted current free upToDate => exact caught.of_kept rfl rfl rfl rfl

theorem voteReplied {votes counted : Nat} {req : RequestVoteRequest} {resp : RequestVoteResponse}
    (replied : n.VoteReplied votes req resp later counted) : Streams later := by
  cases replied <;> exact streams.of_kept rfl rfl rfl rfl

end Streams

/-! ## Committing -/

namespace Node

/-- There is room for the entries up to every index that `updateCommitIndex` may
commit. -/
def roomToCommit (n : Node) : Bool :=
  (List.range' (n.commitIndex + 1) (n.log.length - n.commitIndex)).all fun index =>
    decide (termAt n.log index ≠ n.currentTerm ∨ n.replicas index ≤ n.peers.length / 2 + 1 ∨
      index - n.lastApplied ≤ n.applyCh.room)

/-- No entry of the request is of another term than an entry that was applied. -/
def keepsApplied (n : Node) (req : AppendEntriesRequest) : Bool :=
  (List.range' 1 req.entries.length).all fun offset =>
    decide (n.lastApplied < req.prevLogIndex + offset ∨
      termAt n.log (req.prevLogIndex + offset) = termAt req.entries offset)

/-- There is room for the entries that the request says to be committed. -/
def roomToFollow (n : Node) (req : AppendEntriesRequest) : Bool :=
  decide (min req.leaderCommit (appendFrom (req.prevLogIndex + 1) n.log req.entries).length -
    n.lastApplied ≤ n.applyCh.room)

end Node

/-- A round of `updateCommitIndex` leaves the room that is needed for the rest. -/
structure Advanced (n current : Node) : Prop where
  commits : n.Commits current
  streams : Streams current
  further : n.lastApplied ≤ current.commitIndex
  room : current.applyCh.room + (current.commitIndex - n.lastApplied) = n.applyCh.room

theorem Advanced.commitAt {n current : Node} (advanced : Advanced n current) {index : Nat}
    (reached : current.commitIndex ≤ index) (inside : index ≤ n.log.length)
    (room : termAt n.log index ≠ n.currentTerm ∨ n.replicas index ≤ n.peers.length / 2 + 1 ∨
      index - n.lastApplied ≤ n.applyCh.room) :
    Advanced n (current.commitAt index) ∧ (current.commitAt index).commitIndex ≤ index := by
  rcases advanced with ⟨commits, streams, further, left⟩
  rcases Node.commitAt_spec commits index with ⟨_, same⟩ | ⟨⟨ownTerm, enough⟩, same⟩
  · rw [same]
    exact ⟨⟨commits, streams, further, left⟩, reached⟩
  · have needed : index - n.lastApplied ≤ n.applyCh.room :=
      (room.resolve_left (not_not.mpr ownTerm)).resolve_left (Nat.not_le.mpr enough)
    have applied := streams.applied
    rcases current.commits_applyCommitted index with ⟨applies, committed, _⟩
    rcases streams.applyCommitted reached (commits.log.symm ▸ inside) (by omega) with ⟨after, rest⟩
    rw [same]
    refine ⟨⟨commits.trans applies, after, ?_, ?_⟩, Nat.le_of_eq committed⟩
    · rw [committed]
      omega
    · rw [committed, rest]
      omega

theorem Streams.updateCommitIndex {n : Node} (streams : Streams n) (room : n.roomToCommit = true) :
    Streams n.updateCommitIndex := by
  have start : Advanced n n := by
    refine ⟨Node.Commits.refl n, streams, Nat.le_of_eq streams.applied, ?_⟩
    rw [streams.applied, Nat.sub_self, Nat.add_zero]
  have rounds := Node.updateCommitIndex_induction
    (motive := fun index current => Advanced n current ∧ current.commitIndex < index)
    ⟨start, Nat.lt_succ_self _⟩
    fun index current above inside before => by
      have member : index ∈ List.range' (n.commitIndex + 1) (n.log.length - n.commitIndex) := by
        rw [List.mem_range'_1]
        omega
      have enough := of_decide_eq_true (List.all_eq_true.mp room index member)
      rcases before.1.commitAt (Nat.le_of_lt before.2) inside enough with ⟨next, committed⟩
      exact ⟨next, Nat.lt_succ_of_le committed⟩
  exact rounds.1.streams

/-! ## Requests -/

/-- The loop over the entries keeps the log up to an index if no entry at or
before the index is of another term. -/
theorem take_appendFrom {log entries : List LogEntry} {position count : Nat}
    (short : count ≤ log.length)
    (same : forall offset entry, entries[offset]? = some entry -> position + offset + 1 ≤ count ->
      termAt log (position + offset + 1) = entry.term) :
    (Node.appendFrom (position + 1) log entries).take count = log.take count := by
  induction entries generalizing log position with
  | nil => rfl
  | cons entry entries ih =>
      have beyond : forall other : List LogEntry, count ≤ position -> count ≤ other.length ->
          other.take count = log.take count ->
          (Node.appendFrom (position + 1 + 1) other entries).take count = log.take count := by
        intro other before longer shared
        rw [ih longer, shared]
        intro offset _ _ reached
        omega
      rw [Node.appendFrom]
      split
      · rename_i inside
        split
        · rename_i conflict
          have before : count ≤ position := by
            by_contra reached
            exact conflict (same 0 entry rfl (by omega))
          rw [Nat.add_sub_cancel]
          apply beyond _ before
          · rw [List.length_append, List.length_take]
            omega
          · rw [List.take_append_of_le_length (by rw [List.length_take]; omega), List.take_take,
              Nat.min_eq_left before]
        · apply ih short
          intro offset other there reached
          have shifted := same (offset + 1) other there (by omega)
          rw [← shifted]
          congr 1
          omega
      · rename_i full
        apply beyond _ (by omega)
        · rw [List.length_append]
          omega
        · exact List.take_append_of_le_length short

variable {req : AppendEntriesRequest}

theorem Streams.takeEntries {n : Node} (streams : Streams n) (keeps : n.keepsApplied req = true) :
    Streams (n.takeEntries req) := by
  refine streams.of_kept rfl rfl ?_ rfl
  apply take_appendFrom
  · rw [streams.applied]
    exact streams.inside
  · intro offset entry there reached
    have inside := (List.getElem?_eq_some_iff.mp there).1
    have checked := of_decide_eq_true (List.all_eq_true.mp keeps (offset + 1)
      (List.mem_range'_1.mpr ⟨by omega, by omega⟩))
    have sameTerm : termAt req.entries (offset + 1) = entry.term := by
      rw [termAt, Nat.add_sub_cancel, there]
    rw [← sameTerm]
    exact checked.resolve_left (by omega)

theorem Streams.followCommit {n : Node} (streams : Streams n) {leaderCommit : Nat}
    (room : min leaderCommit n.log.length - n.lastApplied ≤ n.applyCh.room) :
    Streams (n.followCommit leaderCommit) := by
  unfold Node.followCommit
  split
  · rename_i more
    have inside := streams.inside
    exact (streams.applyCommitted (by omega) (Nat.min_le_right _ _) room).1
  · exact streams

theorem Streams.appendHandled {n later : Node} {resp : AppendEntriesResponse} (streams : Streams n)
    (handled : n.AppendHandled req later resp)
    (safe : n.accepts req = true -> n.keepsApplied req = true ∧ n.roomToFollow req = true) :
    Streams later := by
  cases handled with
  | stale old resp failed => exact streams
  | rejected current resp failed => exact streams.of_kept rfl rfl rfl rfl
  | accepted current previous resp =>
      rcases safe (Node.accepts_iff.mpr ⟨current, previous⟩) with ⟨keeps, room⟩
      exact (streams.takeEntries keeps).followCommit (of_decide_eq_true room)

theorem Streams.appendReplied {n later : Node} {peer : NodeID} {resp : AppendEntriesResponse}
    (streams : Streams n) (replied : n.AppendReplied peer req resp later)
    (safe : n.state = .leader -> n.currentTerm = req.term -> resp.success = true ->
      (n.matched peer req).roomToCommit = true) :
    Streams later := by
  cases replied with
  | ignored => exact streams
  | deposed newer => exact streams.of_kept rfl rfl rfl rfl
  | matched leads same success =>
      have kept : Streams (n.matched peer req) := streams.of_kept rfl rfl rfl rfl
      exact kept.updateCommitIndex (safe leads same success)
  | retried more => exact streams.of_kept rfl rfl rfl rfl

namespace Cluster

variable {config : ClusterConfig} {s : Cluster} {event : Event}

/-! ## Runs -/

/-- There is room on the channel for every entry that the event commits, and the
event does not replace an entry that was applied. -/
def delivers (s : Cluster) : Event -> Bool
  | .deliverAppend index =>
      match s.appendCalls[index]? with
      | none => true
      | some call =>
          match call.request with
          | none => true
          | some req =>
              if (s.nodes call.peer).accepts req then
                (s.nodes call.peer).keepsApplied req && (s.nodes call.peer).roomToFollow req
              else true
  | .appendReply index response =>
      match s.appendCalls[index]? with
      | none => true
      | some call =>
          match call.request, call.responses[response]? with
          | some req, some resp =>
              if call.finished = false ∧ (s.nodes call.leader).state = .leader ∧
                  (s.nodes call.leader).currentTerm = req.term ∧ resp.success = true then
                ((s.nodes call.leader).matched call.peer req).roomToCommit
              else true
          | _, _ => true
  | _ => true

/-- The nodes after a change of one node. -/
theorem streams_update {changed : NodeID} {n : Node} (streams : forall id, Streams (s.nodes id))
    (here : Streams n) (id : NodeID) : Streams (update s.nodes changed n id) := by
  rcases eq_or_ne id changed with rfl | different
  · rw [update_self]
    exact here
  · rw [update_of_ne different]
    exact streams id

theorem streams_step (streams : forall id, Streams (s.nodes id)) (safe : delivers s event = true) :
    forall id, Streams ((step config s event).nodes id) := by
  have action := step_action config s event
  generalize result : step config s event = after at action
  cases action with
  | none => exact streams
  | startElection member => exact streams_update streams ((streams _).of_kept rfl rfl rfl rfl)
  | heartbeat member leads => exact streams
  | @propose id command member leads =>
      apply streams_update streams
      rw [propose_of_leader leads]
      refine (streams id).of_kept rfl rfl ?_ rfl
      apply List.take_append_of_le_length
      rw [(streams id).applied]
      exact (streams id).inside
  | read started reads => exact streams
  | deliverVote request =>
      exact streams_update streams ((streams _).voteHandled (Node.handleRequestVote_spec _ _))
  | voteReply request answered waiting =>
      rw [nodes_voteReply]
      exact streams_update streams ((streams _).voteReplied (Node.voteReply_spec _ _ _ _))
  | buildAppend there unbuilt => exact streams
  | @deliverAppend index call req there built =>
      refine streams_update streams
        ((streams call.peer).appendHandled (Node.handleAppendEntries_spec _ req) ?_)
      intro accepts
      simp only [delivers, there, built, accepts, if_true, Bool.and_eq_true] at safe
      exact safe
  | @appendReply index response call req resp there built answered =>
      cases finished : call.finished with
      | false =>
          refine streams_update streams ((streams call.leader).appendReplied
            (Node.appendEntriesReply_spec _ call.peer req resp) ?_)
          intro leads same success
          simp only [delivers, there, built, answered, finished, leads, same, success, and_self,
            if_true] at safe
          exact safe
      | true =>
          rw [← result, step_appendReply_of_finished there built answered finished]
          exact streams
  | receive =>
      apply streams_update streams
      refine (streams _).of_kept rfl rfl rfl ?_
      change (ApplyCh.receive _).sent = _
      unfold ApplyCh.receive
      split <;> rfl

theorem streams_run (events : List Event) (safe : Along config delivers (init config) events) :
    forall id, Streams ((run config events).nodes id) := by
  induction events using List.reverseRecOn with
  | nil => exact fun id => ⟨rfl, Nat.le_refl _, rfl⟩
  | append_singleton events event ih =>
      rw [along_append] at safe
      rw [run_snoc]
      exact streams_step (ih safe.1) safe.2.1

/-- In every run in which there is room on the channel for every entry that a
node commits and no entry that was applied is replaced, the messages that a node
has put on the channel are the entries of its log up to the last applied one. -/
theorem applied_stream (config : ClusterConfig) (events : List Event)
    (safe : Along config delivers (init config) events) (id : NodeID) :
    ((run config events).nodes id).applyCh.sent =
      appliedMessages ((run config events).nodes id).log ((run config events).nodes id).lastApplied :=
  (streams_run events safe id).sent

/-- A leader commits two entries at once. -/
def burst (ready : List Event) : List Event :=
  calmElection ++ ready ++
    [.propose [97] [1], .propose [97] [2], .buildAppend 6, .buildAppend 7, .deliverAppend 6,
      .deliverAppend 7, .appendReply 6 0, .appendReply 7 0]

theorem applied_stream_burst :
    ((run fourNodes (burst [.receive [97]])).nodes [97]).lastApplied = 2 ∧
      ((run fourNodes (burst [.receive [97]])).nodes [97]).applyCh.sent =
        appliedMessages ((run fourNodes (burst [.receive [97]])).nodes [97]).log
          ((run fourNodes (burst [.receive [97]])).nodes [97]).lastApplied :=
  ⟨by decide +kernel, applied_stream fourNodes (burst [.receive [97]]) (by decide +kernel) [97]⟩

/-- No receiver waits, and the channel has room for one message. -/
theorem entry_dropped :
    ((run fourNodes (burst [])).nodes [97]).lastApplied = 2 ∧
      ((run fourNodes (burst [])).nodes [97]).applyCh.sent = [⟨1, [1]⟩] ∧
      appliedMessages ((run fourNodes (burst [])).nodes [97]).log 2 = [⟨1, [1]⟩, ⟨2, [2]⟩] := by
  decide +kernel

end Cluster

end Raft
end KVStore
