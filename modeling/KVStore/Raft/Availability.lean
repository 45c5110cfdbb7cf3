import KVStore.Raft.Schedules
import Mathlib.Data.Finset.Max
import Mathlib.Data.Finset.Order
import Mathlib.Data.Prod.Lex

namespace KVStore
namespace Raft

open Function

/-!
# Availability

Some nodes of a cluster go on while the others have stopped.  If there are more
of them than the threshold of a node, then they can go on from every state that
any run reaches: one of them can be elected, and a command that it proposes can be
stored, committed and applied by all of them.  If there are not, they never elect
a leader.  The threshold is `len(peers) / 2 + 1`, so that a cluster of three
nodes does not survive the loss of one, and one of five not the loss of two.

The node with the latest log of those that go on is elected in a term that none
of them has seen.  It proposes the command as often as is needed to get beyond
what any of them takes for committed, and it asks each of them until it has found
what they share.  The measure of the latter is `nextIndex`.
-/

namespace Cluster

variable {config : ClusterConfig} {alive : List NodeID}

/-! ## Proposals and receivers -/

section Preparations

variable {id : NodeID} {nodes : NodeID -> Node}

/-- A leader proposes a command several times. -/
theorem proposals (config : ClusterConfig) (goesOn : id ∈ alive) (member : id ∈ config.ids)
    (leads : (nodes id).state = .leader) (command : Bytes) (count : Nat) :
    Exists fun front : List LogEntry => front.length = count ∧
      Moves config alive nodes (update nodes id { nodes id with log := (nodes id).log ++ front }) := by
  induction count with
  | zero =>
      refine ⟨[], rfl, ?_⟩
      rw [List.append_nil, update_eq_self]
      exact Moves.refl nodes
  | succ count ih =>
      rcases ih with ⟨front, length, moves⟩
      refine ⟨front ++ [⟨(nodes id).currentTerm, ((nodes id).log ++ front).length + 1, command⟩],
        ?_, moves.trans ?_⟩
      · rw [List.length_append, List.length_singleton, length]
      · let extended : Node := { nodes id with log := (nodes id).log ++ front }
        have stillLeads : extended.state = .leader := leads
        have once : Moves config alive (update nodes id extended) _ :=
          Moves.propose goesOn member (by rw [update_self]; exact stillLeads) command
        rw [update_idem, update_self, propose_of_leader stillLeads] at once
        rw [← List.append_assoc]
        exact once

/-- Nothing but the channels has changed. -/
def Listening (nodes later : NodeID -> Node) : Prop :=
  forall id, Exists fun applyCh => later id = { nodes id with applyCh := applyCh }

theorem Listening.receive {later : NodeID -> Node} (listening : Listening nodes later)
    (id : NodeID) :
    Listening nodes (update later id { later id with applyCh := (later id).applyCh.receive }) := by
  intro other
  rcases listening other with ⟨applyCh, same⟩
  rcases eq_or_ne other id with rfl | apart
  · rw [update_self, same]
    exact ⟨_, rfl⟩
  · rw [update_of_ne apart]
    exact ⟨applyCh, same⟩

theorem receivers_receive (ch : ApplyCh) : ch.receivers ≤ ch.receive.receivers ∧
    (ch.receivers < ch.receive.receivers ∧ ch.receive.buffer = ch.buffer ∨
      ch.receive.receivers = ch.receivers ∧ ch.receive.buffer.length < ch.buffer.length) := by
  unfold ApplyCh.receive
  split
  next empty => exact ⟨Nat.le_succ _, Or.inl ⟨Nat.lt_succ_self _, rfl⟩⟩
  next first rest full =>
    refine ⟨Nat.le_refl _, Or.inr ⟨rfl, ?_⟩⟩
    rw [full]
    exact Nat.lt_succ_self _

/-- One state machine receives until its channel has room for some messages. -/
theorem makesRoom (goesOn : id ∈ alive) (member : id ∈ config.ids) (bound : Nat)
    (nodes : NodeID -> Node) :
    Exists fun later => Moves config alive nodes later ∧
      (Listening nodes later ∧ forall other, (nodes other).applyCh.receivers ≤
        (later other).applyCh.receivers) ∧
      bound ≤ (later id).applyCh.receivers := by
  refine @Reachability.exists_of_measure (NodeID -> Node) (Moves config alive)
    (fun later => Listening nodes later ∧
      forall other, (nodes other).applyCh.receivers ≤ (later other).applyCh.receivers) Moves.trans
    (fun later => (later id).applyCh.buffer.length + (bound - (later id).applyCh.receivers))
    (fun later => bound ≤ (later id).applyCh.receivers) ?_ nodes
    ⟨fun other => ⟨(nodes other).applyCh, rfl⟩, fun other => Nat.le_refl _⟩
  rintro later ⟨listening, more⟩
  have received := receivers_receive (later id).applyCh
  refine ⟨_, Moves.receive goesOn member, ⟨listening.receive id, fun other => ?_⟩, ?_⟩
  · rcases eq_or_ne other id with rfl | apart
    · rw [update_self]
      exact Nat.le_trans (more other) received.1
    · rw [update_of_ne apart]
      exact more other
  · simp only [update_self]
    rcases received.2 with ⟨another, sameBuffer⟩ | ⟨sameReceivers, shorter⟩
    · rw [sameBuffer]
      omega
    · rw [sameReceivers]
      omega

theorem Listening.trans {later final : NodeID -> Node} (first : Listening nodes later)
    (second : Listening later final) :
    Listening nodes final := by
  intro id
  rcases first id with ⟨_, same⟩
  rcases second id with ⟨applyCh, sameAgain⟩
  rw [same] at sameAgain
  exact ⟨applyCh, sameAgain⟩

/-- All state machines receive. -/
theorem makesRoom_all (inside : forall id, id ∈ alive -> id ∈ config.ids) (bound : Nat)
    (nodes : NodeID -> Node) :
    Exists fun later => Moves config alive nodes later ∧ Listening nodes later ∧
      forall id, id ∈ alive -> bound ≤ (later id).applyCh.receivers := by
  refine @Reachability.exists_forall (NodeID -> Node) NodeID (Moves config alive)
    (Listening nodes) Moves.trans Moves.refl (fun id later => bound ≤ (later id).applyCh.receivers)
    alive ?_ nodes
    (fun other => ⟨(nodes other).applyCh, rfl⟩)
  intro id goesOn later listening
  rcases makesRoom goesOn (inside id goesOn) bound later with ⟨final, moves, ⟨again, more⟩, room⟩
  exact ⟨final, moves, listening.trans again, room, fun other before =>
    Nat.le_trans before (more other)⟩

end Preparations

/-! ## The nodes that go on -/

/-- One of some nodes has a log that all of them would vote for. -/
theorem exists_latest (nodes : NodeID -> Node) {ids : List NodeID} (some : ids ≠ []) :
    Exists fun latest => latest ∈ ids ∧ forall id, id ∈ ids ->
      (nodes id).isLogUpToDate (nodes latest).getLastLogIndex
      (nodes latest).getLastLogTerm = true := by
  have nonempty : ids.toFinset.Nonempty := List.toFinset_nonempty_iff ids |>.mpr some
  rcases ids.toFinset.exists_max_image
    (fun id => toLex ((nodes id).getLastLogTerm, (nodes id).getLastLogIndex)) nonempty with
    ⟨latest, inside, greatest⟩
  refine ⟨latest, List.mem_toFinset.mp inside, fun id member => ?_⟩
  have below := Prod.Lex.toLex_le_toLex.mp (greatest id (List.mem_toFinset.mpr member))
  unfold Node.isLogUpToDate
  split
  next different => exact decide_eq_true (below.resolve_right fun same => different same.1.symm)
  next same =>
    rw [not_not] at same
    exact decide_eq_true (below.resolve_left fun less => absurd same (Nat.ne_of_gt less)).2

/-- Numbers of some nodes have a bound. -/
theorem exists_bound (ids : List NodeID) (value : NodeID -> Nat) :
    Exists fun bound => forall id, id ∈ ids -> value id ≤ bound := by
  rcases (ids.map value).toFinset.exists_le with ⟨bound, all⟩
  exact ⟨bound, fun id inside => all _ (List.mem_toFinset.mpr (List.mem_map_of_mem inside))⟩

/-- The node has stored, committed and applied the entry, and has told its state
machine. -/
structure Delivered (entry : LogEntry) (n : Node) : Prop where
  stored : n.log[entry.index - 1]? = some entry
  committed : n.commitIndex = entry.index
  applied : n.lastApplied = entry.index
  sent : ⟨entry.index, entry.command⟩ ∈ n.applyCh.sent

theorem Towards.delivered {entry : LogEntry} {n : Node} (towards : Towards entry n)
    (ends : EndsWith entry n.log) (committed : n.commitIndex = entry.index) : Delivered entry n :=
  ⟨ends.last, committed, towards.caughtUp committed, towards.sent (towards.caughtUp committed)⟩

theorem towards_of_below {entry : LogEntry} {n : Node} (committed : n.commitIndex < entry.index)
    (applied : n.lastApplied < entry.index) (room : entry.index ≤ n.applyCh.receivers) :
    Towards entry n := by
  refine ⟨⟨Nat.le_of_lt committed, Nat.le_of_lt applied, fun same => ?_, ?_⟩, fun same => ?_⟩
  · exact absurd same (Nat.ne_of_lt applied)
  · rw [ApplyCh.room]
    omega
  · exact absurd same (Nat.ne_of_lt committed)

/-- One of the nodes was elected in a new term, and the logs are as they were. -/
structure Elected (alive : List NodeID) (s after : Cluster) (leader : NodeID)
    (term : Nat) : Prop where
  leads : (after.nodes leader).state = .leader
  current : (after.nodes leader).currentTerm = term
  indices : forall peer, peer ∈ (s.nodes leader).peers ->
    (after.nodes leader).nextIndex peer = (s.nodes leader).log.length + 1 ∧
      (after.nodes leader).matchIndex peer = 0
  kept : forall id, (after.nodes id).peers = (s.nodes id).peers ∧
    (after.nodes id).log = (s.nodes id).log ∧
    (after.nodes id).commitIndex = (s.nodes id).commitIndex ∧
      (after.nodes id).lastApplied = (s.nodes id).lastApplied
  new : forall id, id ∈ alive -> (s.nodes id).currentTerm < term ∧ (after.nodes id).currentTerm ≤ term

theorem mem_peers {s : Cluster} (wf : WellFormed config s) {id peer : NodeID}
    (member : id ∈ config.ids) (peerMember : peer ∈ config.ids) (different : peer ≠ id) :
    peer ∈ (s.nodes id).peers := by
  rw [wf.peers]
  exact (config.others id member).mem_iff.mpr ((List.mem_erase_of_ne different).mpr peerMember)

section GoingOn

variable (distinct : alive.Nodup) (inside : forall id, id ∈ alive -> id ∈ config.ids)
  (enough : (config.ids.length - 1) / 2 + 1 < alive.length)

include distinct inside enough

theorem elects {s : Cluster} (wf : WellFormed config s) :
    Exists fun after => Exists fun leader => Exists fun term => Follows config alive s after ∧
      leader ∈ alive ∧
      Elected alive s after leader term := by
  have nonempty : alive ≠ [] := List.ne_nil_of_length_pos (by omega)
  rcases exists_latest s.nodes nonempty with ⟨leader, goesOn, latest⟩
  rcases exists_bound alive (fun id => (s.nodes id).currentTerm) with ⟨bound, terms⟩
  have member := inside leader goesOn
  rcases campaign goesOn member s bound with ⟨before, first, nodes, spawned, votes⟩
  have peerCount : (s.nodes leader).peers.length = config.ids.length - 1 := by
    rw [wf.peers, (config.others leader member).length_eq, List.length_erase_of_mem member]
  have here : before.nodes leader = { s.nodes leader with
      state := .candidate
      currentTerm := (s.nodes leader).currentTerm + bound + 1
      votedFor := (s.nodes leader).id } := by
    rw [nodes, update_self]
  have elsewhere : forall id, id ≠ leader -> before.nodes id = s.nodes id := by
    intro id different
    rw [nodes, update_of_ne different]
  have won := @gathers config alive before leader ((s.nodes leader).currentTerm + bound + 1) goesOn
    (alive.erase leader) (distinct.erase leader) (by rw [here]) (by rw [here])
    (by rw [votes]; omega) ?_ ?_
  · rcases won with ⟨after, second, leads, others⟩
    rw [here] at leads
    refine ⟨after, leader, (s.nodes leader).currentTerm + bound + 1, first.trans second, goesOn, ?_,
      ?_, ?_, ?_, ?_⟩
    · rw [leads]
      rfl
    · rw [leads]
      rfl
    · intro peer isPeer
      rw [leads]
      exact ⟨if_pos isPeer, if_pos isPeer⟩
    · intro id
      rcases eq_or_ne id leader with rfl | different
      · rw [leads]
        exact ⟨rfl, rfl, rfl, rfl⟩
      · rcases others id different with same | ⟨_, voted⟩
        · rw [same, elsewhere id different]
          exact ⟨rfl, rfl, rfl, rfl⟩
        · rw [voted, elsewhere id different]
          exact ⟨rfl, rfl, rfl, rfl⟩
    · intro id idGoesOn
      have early := terms id idGoesOn
      refine ⟨by omega, ?_⟩
      rcases eq_or_ne id leader with rfl | different
      · rw [leads]
        exact Nat.le_refl _
      · rcases others id different with same | ⟨_, voted⟩
        · rw [same, elsewhere id different]
          exact Nat.le_trans early (by omega)
        · rw [voted]
          exact Nat.le_refl _
  · rw [here, votes, List.length_erase_of_mem goesOn]
    change (s.nodes leader).peers.length / 2 + 1 < _
    omega
  · intro peer inErase
    rcases distinct.mem_erase_iff.mp inErase with ⟨different, peerGoesOn⟩
    have early := terms peer peerGoesOn
    refine ⟨peerGoesOn, different.symm,
      spawned peer (mem_peers wf member (inside peer peerGoesOn) different), ?_, ?_⟩
    · rw [elsewhere peer different]
      omega
    · rw [elsewhere peer different, here]
      exact latest peer peerGoesOn

omit distinct enough in
/-- The leader proposes a command until it is beyond all that was committed. -/
theorem starts {s after : Cluster} (wf : WellFormed config s) (ordered : LogsOrdered s)
    {leader : NodeID} {term : Nat} (goesOn : leader ∈ alive)
    (elected : Elected alive s after leader term) (command : Bytes) :
    Exists fun later => Exists fun entry : LogEntry => entry.command = command ∧
      Moves config alive after.nodes later ∧ Replicates config alive entry leader later := by
  have member := inside leader goesOn
  rcases exists_bound alive (fun id => (s.nodes id).commitIndex) with ⟨committed, commits⟩
  rcases exists_bound alive (fun id => (s.nodes id).lastApplied) with ⟨applied, applies⟩
  rcases proposals config goesOn member elected.leads command (committed + applied) with
    ⟨front, count, first⟩
  let log := (after.nodes leader).log ++ front
  let entry : LogEntry := ⟨(after.nodes leader).currentTerm, log.length + 1, command⟩
  let proposed : Node := { after.nodes leader with log := log ++ [entry] }
  have long : committed + applied < entry.index ∧ (s.nodes leader).log.length < entry.index := by
    change _ < ((after.nodes leader).log ++ front).length + 1 ∧
      _ < ((after.nodes leader).log ++ front).length + 1
    rw [List.length_append, count, (elected.kept leader).2.1]
    omega
  have second : Moves config alive (update after.nodes leader { after.nodes leader with log := log })
      (update after.nodes leader proposed) := by
    let extended : Node := { after.nodes leader with log := log }
    have leads : extended.state = .leader := elected.leads
    have once : Moves config alive (update after.nodes leader extended) _ :=
      Moves.propose goesOn member (by rw [update_self]; exact leads) command
    rw [update_idem, update_self, propose_of_leader leads] at once
    exact once
  have entryTerm : entry.term = term := elected.current
  rcases makesRoom_all inside entry.index (update after.nodes leader proposed) with
    ⟨later, third, listening, room⟩
  have leaderNode : Exists fun applyCh => later leader = { proposed with applyCh := applyCh } := by
    rcases listening leader with ⟨applyCh, same⟩
    rw [update_self] at same
    exact ⟨applyCh, same⟩
  rcases leaderNode with ⟨leaderCh, leaderSame⟩
  have kept : forall id, id ∈ alive -> (later id).commitIndex = (s.nodes id).commitIndex ∧
      (later id).lastApplied = (s.nodes id).lastApplied := by
    intro id _
    rcases listening id with ⟨applyCh, same⟩
    rcases eq_or_ne id leader with rfl | different
    · rw [leaderSame]
      exact (elected.kept id).2.2
    · rw [same, update_of_ne different]
      exact (elected.kept id).2.2
  have towards : forall id, id ∈ alive -> Towards entry (later id) := by
    intro id idGoesOn
    have belowCommit := commits id idGoesOn
    have belowApplied := applies id idGoesOn
    refine towards_of_below ?_ ?_ (room id idGoesOn)
    · rw [(kept id idGoesOn).1]
      omega
    · rw [(kept id idGoesOn).2]
      omega
  have peers : (later leader).peers = config.peers leader := by
    rw [leaderSame]
    exact (elected.kept leader).1.trans (wf.peers leader)
  refine ⟨later, entry, rfl, first.trans (second.trans third),
    ⟨?_, ?_, ?_, towards leader goesOn, ?_⟩, peers, ?_⟩
  · rw [leaderSame]
    exact elected.leads
  · rw [leaderSame]
  · rw [leaderSame]
    exact endsWith_snoc rfl
  · -- No peer has acknowledged anything yet, so that the leader knows of one replica.
    intro impossible
    have alone : (later leader).replicas entry.index = 1 := by
      rw [Node.replicas, List.countP_eq_zero.mpr, Nat.add_zero]
      intro peer isPeer stored
      rw [peers, ← wf.peers] at isPeer
      have none : (later leader).matchIndex peer = 0 := by
        rw [leaderSame]
        exact (elected.indices peer isPeer).2
      rw [none] at stored
      exact absurd (of_decide_eq_true stored) (Nat.not_succ_le_zero _)
    rw [alone] at impossible
    omega
  · intro peer peerGoesOn different
    rcases listening peer with ⟨applyCh, same⟩
    rw [update_of_ne different] at same
    refine Or.inl ⟨⟨?_, ?_, towards peer peerGoesOn⟩, (s.nodes leader).log.length, ?_, long.2⟩
    · rw [same, entryTerm]
      exact (elected.new peer peerGoesOn).2
    · rw [same, entryTerm]
      intro old isOld
      change old ∈ (after.nodes peer).log at isOld
      rw [(elected.kept peer).2.1] at isOld
      exact Nat.ne_of_lt (Nat.lt_of_le_of_lt ((ordered.nodes peer).bounded old isOld)
        (elected.new peer peerGoesOn).1)
    · rw [leaderSame]
      exact (elected.indices peer (mem_peers wf member (inside peer peerGoesOn) different)).1

/-- Enough nodes can always elect one of them and have a command applied by all. -/
theorem delivers_of_enough {s : Cluster} (wf : WellFormed config s) (ordered : LogsOrdered s)
    (command : Bytes) :
    Exists fun after => Exists fun leader => Exists fun entry : LogEntry =>
      Follows config alive s after ∧
      leader ∈ alive ∧ (after.nodes leader).state = .leader ∧ entry.command = command ∧
      forall id, id ∈ alive -> Delivered entry (after.nodes id) := by
  rcases elects distinct inside enough wf with ⟨elect, leader, term, first, goesOn, elected⟩
  rcases starts inside wf ordered goesOn elected command with
    ⟨started, entry, isCommand, second, replicates⟩
  have member := inside leader goesOn
  rcases replicates.sync_all member goesOn inside with ⟨synced, third, stillReplicates, all⟩
  rcases stillReplicates.inform_all member goesOn inside distinct enough all with
    ⟨final, fourth, last, committed, informed⟩
  rcases (second.trans (third.trans fourth)) elect rfl with ⟨after, fifth, nodes⟩
  refine ⟨after, leader, entry, first.trans fifth, goesOn, ?_, isCommand, fun id idGoesOn => ?_⟩
  · rw [nodes]
    exact last.offers.leads
  · rw [nodes]
    rcases eq_or_ne id leader with rfl | different
    · exact Towards.delivered last.offers.towards last.offers.ends committed
    · rcases informed id idGoesOn different with ⟨holds, told⟩
      exact Towards.delivered holds.towards holds.ends told

end GoingOn

/-! ## Too few nodes -/

/-- Only the nodes that go on have answered, and none of the votes of the others
was counted. -/
structure Confined (alive : List NodeID) (s : Cluster) : Prop where
  answered : forall id election peer, (s.voteCalls id election peer).responses ≠ [] -> peer ∈ alive
  counted : forall id election peer, (s.voteCalls id election peer).counted = true -> peer ∈ alive

section TooFew

variable {s after : Cluster} {event : Event}

theorem Confined.step (confined : Confined alive s) (isAmong : among alive s event = true)
    (action : Action config s event after) : Confined alive after := by
  suffices calls : forall id election peer,
      ((after.voteCalls id election peer).responses ≠ [] -> peer ∈ alive) ∧
        ((after.voteCalls id election peer).counted = true -> peer ∈ alive) from
    ⟨fun id election peer => (calls id election peer).1,
      fun id election peer => (calls id election peer).2⟩
  intro id election peer
  have proceeds := action.proceeds id election peer
  have answered := confined.answered id election peer
  have counted := confined.counted id election peer
  generalize after.voteCalls id election peer = call at proceeds
  cases proceeds with
  | same => exact ⟨answered, counted⟩
  | absent => exact ⟨fun some => absurd rfl some, fun isCounted => nomatch isCounted⟩
  | spawned member begun new isPeer =>
      exact ⟨fun some => absurd rfl some, fun isCounted => nomatch isCounted⟩
  | read started reads nodes =>
      rcases started_of_reads reads with ⟨_, responses, _, sameCount⟩
      rw [responses, sameCount]
      exact ⟨answered, counted⟩
  | answered req happens request result =>
      rw [happens] at isAmong
      exact ⟨fun _ => of_decide_eq_true isAmong, counted⟩
  | finished response req resp happens request replied waiting =>
      have some : (s.voteCalls id election peer).responses ≠ [] :=
        List.ne_nil_of_mem (List.mem_of_getElem? replied)
      exact ⟨answered, fun _ => answered some⟩

/-- A node that wins has as many votes as nodes go on, at most. -/
theorem Confined.not_wins (confined : Confined alive after) (later : Ballots config after)
    (wf : WellFormed config s) (distinct : alive.Nodup)
    (few : alive.length ≤ (config.ids.length - 1) / 2 + 1) (isAmong : among alive s event = true)
    {id peer : NodeID} {election response : Nat} {req : RequestVoteRequest}
    {resp : RequestVoteResponse} : ¬ Wins s event after id election peer response req resp := by
  intro wins
  rcases wf.started id election peer (wf.started_of_request wins.request) with ⟨member, _, _⟩
  have goesOn : id ∈ alive := by
    rw [wins.happens] at isAmong
    exact of_decide_eq_true isAmong
  have votes : after.votesReceived id election = s.votesReceived id election + 1 := by
    rw [wins.result, votesReceived_voteReply, update_self, update_self,
      votes_of_voteReplied (Node.voteReply_spec _ _ _ _), if_pos wins.counted]
  have peerCount : (config.peers id).length = config.ids.length - 1 := by
    rw [(config.others id member).length_eq, List.length_erase_of_mem member]
  have subset : ((config.peers id).filter fun voter => (after.voteCalls id election voter).counted)
      ⊆ alive.erase id := by
    intro voter chosen
    rcases List.mem_filter.mp chosen with ⟨isPeer, isCounted⟩
    have different : voter ≠ id := by
      rintro rfl
      exact (List.nodup_cons.mp ((perm_cons_peers member).nodup_iff.mp config.distinct)).1 isPeer
    exact distinct.mem_erase_iff.mpr ⟨different, confined.counted id election voter isCounted⟩
  have count := (List.subperm_of_subset ((nodup_peers member).filter _) subset).length_le
  rw [List.length_erase_of_mem goesOn, ← List.countP_eq_length_filter] at count
  have counting := later.counting id election
  have exceeds := wins.enough
  have some := List.length_pos_of_mem goesOn
  rw [wf.peers, peerCount] at exceeds
  omega

/-- Nodes that are no more than the threshold never have a leader. -/
theorem leaderless_of_few (distinct : alive.Nodup)
    (few : alive.length ≤ (config.ids.length - 1) / 2 + 1) (events : List Event)
    (along : Along config (among alive) (init config) events) (id : NodeID) :
    ((run config events).nodes id).state ≠ .leader := by
  have all : WellFormed config (run config events) ∧ Ballots config (run config events) ∧
      Confined alive (run config events) ∧
          forall id, ((run config events).nodes id).state ≠ .leader := by
    refine @run_induction config (among alive)
      (fun s => WellFormed config s ∧ Ballots config s ∧ Confined alive s ∧
        forall id, (s.nodes id).state ≠ .leader)
      ⟨wellFormed_init config, ballots_init config, ⟨?_, ?_⟩, ?_⟩ ?_ events along
    · exact fun id election peer some => absurd rfl some
    · intro id election peer isCounted
      cases isCounted
    · intro id leads
      cases leads
    · rintro s event after ⟨wf, ballots, confined, leaderless⟩ isAmong action
      have later := ballots.step wf action
      have still := confined.step isAmong action
      refine ⟨wf.step action, later, still, fun id leads => ?_⟩
      rcases action.lead id leads with ⟨before, _⟩ | ⟨election, peer, response, req, resp, wins⟩
      · exact leaderless id before
      · exact still.not_wins later wf distinct few isAmong wins
  exact all.2.2.2 id

end TooFew

/-- From every state that a run reaches, some nodes of a cluster can by themselves
elect one of them and have a command stored, committed and applied by all of them,
and told to their state machines, exactly when they are more than the threshold
`len(peers) / 2 + 1` of a node. -/
theorem available_iff (config : ClusterConfig) (alive : List NodeID) (distinct : alive.Nodup)
    (inside : forall id, id ∈ alive -> id ∈ config.ids) :
    (forall (events : List Event) (command : Bytes), Exists fun more =>
        Along config (among alive) (run config events) more ∧
          (Exists fun leader => leader ∈ alive ∧
            ((run config (events ++ more)).nodes leader).state = .leader) ∧
          Exists fun entry : LogEntry => entry.command = command ∧
            forall id, id ∈ alive -> Delivered entry ((run config (events ++ more)).nodes id)) <->
      (config.ids.length - 1) / 2 + 1 < alive.length := by
  have continues : forall events more, run config (events ++ more) =
      more.foldl (step config) (run config events) :=
    fun events more => List.foldl_append
  constructor
  · intro always
    by_contra few
    rcases always [] [] with ⟨more, along, ⟨leader, _, leads⟩, _⟩
    exact leaderless_of_few distinct (Nat.not_lt.mp few) more along leader leads
  · intro enough events command
    rcases delivers_of_enough distinct inside enough (wellFormed_run config events)
      (logsOrdered_run config events) command with
      ⟨after, leader, entry, follows, goesOn, leads, isCommand, delivered⟩
    rcases along_of_follows follows with ⟨more, along, rfl⟩
    refine ⟨more, along, ⟨leader, goesOn, ?_⟩, entry, isCommand, fun id idGoesOn => ?_⟩
    · rw [continues]
      exact leads
    · rw [continues]
      exact delivered id idGoesOn

/-- Three of four nodes go on after two of them have led in the same term. -/
theorem available_three_of_four :
    Exists fun more => Along fourNodes (among [[97], [98], [99]]) (run fourNodes rivalCommands) more ∧
      Exists fun entry : LogEntry => entry.command = [3] ∧
        forall id, id ∈ [[97], [98], [99]] ->
            Delivered entry ((run fourNodes (rivalCommands ++ more)).nodes id) := by
  have available := (available_iff fourNodes [[97], [98], [99]] (by decide) (by decide)).mpr
    (by decide)
  rcases available rivalCommands [3] with ⟨more, along, _, delivered⟩
  exact ⟨more, along, delivered⟩

end Cluster
end Raft
end KVStore
