import KVStore.Library.Reachability
import KVStore.Raft.Exchange
import Mathlib.Logic.Relation

namespace KVStore
namespace Raft

open Function

/-!
# What some of the nodes can bring about

Some nodes of a cluster go on, and the others take no step.  The states that can
be reached then are related by `Follows`.  Three things can be brought about: a
node becomes a candidate in a late term; a candidate gets the votes of nodes whose
logs are not later than its own; a leader gets the entry at the end of its log to
its peers and tells them that it is committed.

Once there is a leader, only the nodes matter and not the goroutines under way:
the leader sends new heartbeats and lets the goroutine for one peer run to its
end.  `Moves` relates what the nodes are before and after.
-/

namespace Cluster

/-! ## Runs of some of the nodes -/

/-- The node that takes the step of an event. -/
def actor (s : Cluster) : Event -> Option NodeID
  | .electionTimeout id => some id
  | .heartbeat id => some id
  | .propose id _ => some id
  | .readTerm id _ _ => some id
  | .readLastLogIndex id _ _ => some id
  | .readLastLogTerm id _ _ => some id
  | .deliverVote _ _ peer => some peer
  | .voteReply id _ _ _ => some id
  | .buildAppend index => s.appendCalls[index]?.map AppendCall.leader
  | .deliverAppend index => s.appendCalls[index]?.map AppendCall.peer
  | .appendReply index _ => s.appendCalls[index]?.map AppendCall.leader
  | .receive id => some id

/-- The event is a step of one of the nodes that go on. -/
def among (alive : List NodeID) (s : Cluster) (event : Event) : Bool :=
  (actor s event).all fun id => decide (id ∈ alive)

/-- The nodes that go on can bring about a state. -/
def Follows (config : ClusterConfig) (alive : List NodeID) : Cluster -> Cluster -> Prop :=
  Relation.ReflTransGen fun s after => Exists fun event => among alive s event = true ∧
    step config s event = after

variable {config : ClusterConfig} {alive : List NodeID}

/-- A step of a node that goes on. -/
theorem follows_step {s after : Cluster} {id : NodeID} (event : Event) (goesOn : id ∈ alive)
    (acts : actor s event = some id) (steps : step config s event = after) :
    Follows config alive s after := by
  refine Relation.ReflTransGen.single ⟨event, ?_, steps⟩
  rw [among, acts]
  exact decide_eq_true goesOn

theorem along_of_follows {s after : Cluster} (follows : Follows config alive s after) :
    Exists fun more => Along config (among alive) s more ∧ more.foldl (step config) s = after := by
  induction follows using Relation.ReflTransGen.head_induction_on with
  | refl => exact ⟨[], trivial, rfl⟩
  | head first rest ih =>
      rcases first with ⟨event, isAmong, rfl⟩
      rcases ih with ⟨more, along, final⟩
      exact ⟨event :: more, ⟨isAmong, along⟩, final⟩

/-- From every state with some nodes one with other nodes can be brought about,
whatever the goroutines are. -/
def Moves (config : ClusterConfig) (alive : List NodeID) (nodes later : NodeID -> Node) : Prop :=
  forall s : Cluster, s.nodes = nodes -> Exists fun after => Follows config alive s after ∧
    after.nodes = later

namespace Moves

variable {nodes later final : NodeID -> Node} {id peer : NodeID}

theorem refl (nodes : NodeID -> Node) : Moves config alive nodes nodes :=
  fun s same => ⟨s, Relation.ReflTransGen.refl, same⟩

theorem trans (first : Moves config alive nodes later) (second : Moves config alive later final) :
    Moves config alive nodes final := by
  intro s same
  rcases first s same with ⟨middle, there, between⟩
  rcases second middle between with ⟨after, further, reached⟩
  exact ⟨after, there.trans further, reached⟩

theorem receive (goesOn : id ∈ alive) (member : id ∈ config.ids) :
    Moves config alive nodes
        (update nodes id { nodes id with applyCh := (nodes id).applyCh.receive }) := by
  rintro s rfl
  refine ⟨_, follows_step (.receive id) goesOn rfl rfl, ?_⟩
  rw [step, if_pos member]
  rfl

theorem propose (goesOn : id ∈ alive) (member : id ∈ config.ids)
    (leads : (nodes id).state = .leader) (command : Bytes) :
    Moves config alive nodes (update nodes id ((nodes id).propose command).1) := by
  rintro s rfl
  refine ⟨_, follows_step (.propose id command) goesOn rfl rfl, ?_⟩
  rw [step, if_pos ⟨member, leads⟩]
  rfl

/-- A leader sends heartbeats, and the goroutine for one peer runs to its end. -/
theorem exchange (goesOn : id ∈ alive) (peerGoesOn : peer ∈ alive) (member : id ∈ config.ids)
    (leads : (nodes id).state = .leader) (isPeer : peer ∈ (nodes id).peers)
    (different : id ≠ peer) :
    Moves config alive nodes (update (update nodes peer ((nodes id).exchange peer (nodes peer)).2) id
      ((nodes id).exchange peer (nodes peer)).1) := by
  rintro s rfl
  rcases List.getElem?_of_mem isPeer with ⟨position, there⟩
  have builds : Exists fun req => (s.nodes id).appendEntriesFor peer = some req := by
    rw [Node.appendEntriesFor, if_neg (not_not.mpr leads)]
    exact ⟨_, rfl⟩
  rcases builds with ⟨req, request⟩
  let number := s.appendCalls.length + position
  let resp := ((s.nodes peer).handleAppendEntries req).2
  let spawned := s.spawnHeartbeats id
  have call : spawned.appendCalls[number]? = some ⟨id, peer, none, [], false⟩ := by
    change (s.appendCalls ++ _)[s.appendCalls.length + position]? = _
    rw [List.getElem?_append_right (Nat.le_add_right _ _), Nat.add_sub_cancel_left,
      List.getElem?_map, there]
    rfl
  let built := spawned.setAppendCall number ⟨id, peer, some req, [], false⟩
  have builtCall : built.appendCalls[number]? = some ⟨id, peer, some req, [], false⟩ :=
    List.getElem?_set_self (List.getElem?_eq_some_iff.mp call).1
  let delivered := built.deliverAppend number ⟨id, peer, some req, [], false⟩ req
  have deliveredCall : delivered.appendCalls[number]? = some ⟨id, peer, some req, [resp], false⟩ :=
    List.getElem?_set_self (List.getElem?_eq_some_iff.mp builtCall).1
  let replied := delivered.appendReply number ⟨id, peer, some req, [resp], false⟩ req resp
  have first : Follows config alive s spawned := by
    refine follows_step (.heartbeat id) goesOn rfl ?_
    rw [step, if_pos ⟨member, leads⟩]
  have second : Follows config alive spawned built := by
    have requested : (spawned.nodes id).appendEntriesFor peer = some req := request
    refine follows_step (.buildAppend number) goesOn (congrArg (Option.map _) call) ?_
    simp only [step, call, and_self, if_true, Cluster.buildAppend, requested]
    rfl
  have third : Follows config alive built delivered := by
    refine follows_step (.deliverAppend number) peerGoesOn (congrArg (Option.map _) builtCall) ?_
    simp only [step, builtCall]
    rfl
  have fourth : Follows config alive delivered replied := by
    refine follows_step (.appendReply number 0) goesOn (congrArg (Option.map _) deliveredCall) ?_
    simp only [step, deliveredCall]
    rfl
  refine ⟨replied, first.trans (second.trans (third.trans fourth)), ?_⟩
  have exchanged : (s.nodes id).exchange peer (s.nodes peer) =
      ((s.nodes id).appendEntriesReply peer req resp, ((s.nodes peer).handleAppendEntries req).1) := by
    simp only [Node.exchange, request]
    rfl
  change update (update s.nodes peer ((s.nodes peer).handleAppendEntries req).1) id
    ((update s.nodes peer ((s.nodes peer).handleAppendEntries req).1 id).appendEntriesReply
      peer req resp) = _
  rw [update_of_ne different, exchanged]

end Moves

/-! ## Replication -/

/-- The leader still looks for what it shares with a peer. -/
def Pending (entry : LogEntry) (peer : NodeID) (leader n : Node) : Prop :=
  Lacks entry n ∧ Exists fun position => leader.nextIndex peer = position + 1 ∧ position < entry.index

/-- The peer has the entry, and the leader knows of it. -/
def Synced (entry : LogEntry) (peer : NodeID) (leader n : Node) : Prop :=
  Holds entry n ∧ leader.nextIndex peer = entry.index + 1 ∧ leader.matchIndex peer = entry.index

/-- A leader that replicates an entry to the nodes that go on. -/
structure Replicates (config : ClusterConfig) (alive : List NodeID) (entry : LogEntry) (id : NodeID)
    (nodes : NodeID -> Node) : Prop where
  offers : Offers entry (nodes id)
  peers : (nodes id).peers = config.peers id
  others : forall peer, peer ∈ alive -> peer ≠ id ->
    Pending entry peer (nodes id) (nodes peer) ∨ Synced entry peer (nodes id) (nodes peer)

theorem peers_exchange (leader : Node) (peer : NodeID) (n : Node) :
    (leader.exchange peer n).1.peers = leader.peers := by
  unfold Node.exchange
  split
  · rfl
  next req request =>
    have replied := leader.appendEntriesReply_spec peer req (n.handleAppendEntries req).2
    change (leader.appendEntriesReply peer req (n.handleAppendEntries req).2).peers = leader.peers
    generalize leader.appendEntriesReply peer req (n.handleAppendEntries req).2 = later at replied ⊢
    cases replied with
    | matched leads same success => exact (leader.matched peer req).updateCommitIndex_spec.1.peers
    | _ => rfl

/-- The nodes after an exchange of two of them. -/
def exchanged (nodes : NodeID -> Node) (id peer : NodeID) : NodeID -> Node :=
  update (update nodes peer ((nodes id).exchange peer (nodes peer)).2) id
    ((nodes id).exchange peer (nodes peer)).1

section Exchanged

variable {nodes : NodeID -> Node} {id peer : NodeID}

theorem exchanged_leader : exchanged nodes id peer id = ((nodes id).exchange peer (nodes peer)).1 :=
  update_self ..

theorem exchanged_peer (different : peer ≠ id) :
    exchanged nodes id peer peer = ((nodes id).exchange peer (nodes peer)).2 := by
  rw [exchanged, update_of_ne different, update_self]

theorem exchanged_other {other : NodeID} (notLeader : other ≠ id) (notPeer : other ≠ peer) :
    exchanged nodes id peer other = nodes other := by
  rw [exchanged, update_of_ne notLeader, update_of_ne notPeer]

end Exchanged

namespace Replicates

variable {entry : LogEntry} {id peer : NodeID} {nodes : NodeID -> Node}

/-- What an exchange does to a peer: it is in step, or the leader goes back. -/
theorem exchange_peer (replicates : Replicates config alive entry id nodes) (goesOn : peer ∈ alive)
    (different : peer ≠ id) :
    Offers entry (exchanged nodes id peer id) ∧
      (forall other, other ≠ peer ->
        (exchanged nodes id peer id).nextIndex other = (nodes id).nextIndex other ∧
          (exchanged nodes id peer id).matchIndex other = (nodes id).matchIndex other) ∧
      (Synced entry peer (exchanged nodes id peer id) (exchanged nodes id peer peer) ∨
        Pending entry peer (nodes id) (nodes peer) ∧
          Pending entry peer (exchanged nodes id peer id) (exchanged nodes id peer peer) ∧
          (exchanged nodes id peer id).nextIndex peer < (nodes id).nextIndex peer) := by
  rw [exchanged_leader, exchanged_peer different]
  have offers := replicates.offers
  rcases replicates.others peer goesOn different with ⟨lacks, position, next, inside⟩
    | ⟨holds, next, _⟩
  · rcases offers.exchange_lacks lacks next inside with
      ⟨offersStill, ⟨holds, nextIndex, matchIndex⟩ | ⟨lacksStill, positive, nextIndex, matchIndex⟩⟩
    · refine ⟨offersStill, fun other apart => ?_, Or.inl ⟨holds, ?_, ?_⟩⟩
      · rw [nextIndex, matchIndex, update_of_ne apart, update_of_ne apart]
        exact ⟨rfl, rfl⟩
      · rw [nextIndex, update_self]
      · rw [matchIndex, update_self]
    · have back : ((nodes id).exchange peer (nodes peer)).1.nextIndex peer = position - 1 + 1 := by
        rw [nextIndex, update_self]
        omega
      refine ⟨offersStill, fun other apart => ?_, Or.inr ⟨⟨lacks, position, next, inside⟩,
        ⟨lacksStill, position - 1, back, by omega⟩, ?_⟩⟩
      · rw [nextIndex, matchIndex, update_of_ne apart]
        exact ⟨rfl, rfl⟩
      · rw [back, next]
        omega
  · rcases offers.exchange_holds holds next with ⟨offersStill, holdsStill, nextIndex, matchIndex, _⟩
    refine ⟨offersStill, fun other apart => ?_, Or.inl ⟨holdsStill, ?_, ?_⟩⟩
    · rw [nextIndex, matchIndex, update_of_ne apart, update_of_ne apart]
      exact ⟨rfl, rfl⟩
    · rw [nextIndex, update_self]
    · rw [matchIndex, update_self]

theorem exchange (replicates : Replicates config alive entry id nodes) (goesOn : peer ∈ alive)
    (different : peer ≠ id) :
    Replicates config alive entry id (exchanged nodes id peer) := by
  rcases replicates.exchange_peer goesOn different with ⟨offers, kept, here⟩
  refine ⟨offers, ?_, fun other otherGoesOn notLeader => ?_⟩
  · rw [exchanged_leader, peers_exchange]
    exact replicates.peers
  · rcases eq_or_ne other peer with rfl | apart
    · rcases here with synced | ⟨_, pending, _⟩
      · exact Or.inr synced
      · exact Or.inl pending
    · rw [exchanged_other notLeader apart, Pending, Synced, (kept other apart).1,
        (kept other apart).2]
      exact replicates.others other otherGoesOn notLeader

/-- A peer that is in step stays so. -/
theorem exchange_synced (replicates : Replicates config alive entry id nodes)
    (goesOn : peer ∈ alive) (different : peer ≠ id) {other : NodeID} (notLeader : other ≠ id)
    (synced : Synced entry other (nodes id) (nodes other)) :
    Synced entry other (exchanged nodes id peer id) (exchanged nodes id peer other) := by
  rcases replicates.exchange_peer goesOn different with ⟨_, kept, here⟩
  rcases eq_or_ne other peer with rfl | apart
  · rcases here with still | ⟨⟨_, position, next, inside⟩, _⟩
    · exact still
    · have known := synced.2.1
      omega
  · rw [exchanged_other notLeader apart, Synced, (kept other apart).1, (kept other apart).2]
    exact synced

variable (member : id ∈ config.ids) (leaderGoesOn : id ∈ alive)
  (inside : forall peer, peer ∈ alive -> peer ∈ config.ids)

include member leaderGoesOn inside

theorem moves (replicates : Replicates config alive entry id nodes) (goesOn : peer ∈ alive)
    (different : peer ≠ id) :
    Moves config alive nodes (exchanged nodes id peer) := by
  refine Moves.exchange leaderGoesOn goesOn member replicates.offers.leads ?_ different.symm
  rw [replicates.peers]
  exact (config.others id member).mem_iff.mpr
    ((List.mem_erase_of_ne different).mpr (inside peer goesOn))

/-- The leader gets one peer in step. -/
theorem sync (replicates : Replicates config alive entry id nodes) (goesOn : peer ∈ alive)
    (different : peer ≠ id) :
    Exists fun later => Moves config alive nodes later ∧ Replicates config alive entry id later ∧
      Synced entry peer (later id) (later peer) ∧
      forall other, other ≠ id -> Synced entry other (nodes id) (nodes other) ->
        Synced entry other (later id) (later other) := by
  have way := @Reachability.exists_of_measure (NodeID -> Node) (Moves config alive)
    (fun later => Replicates config alive entry id later ∧ forall other, other ≠ id ->
      Synced entry other (nodes id) (nodes other) -> Synced entry other (later id) (later other))
    Moves.trans (fun later => (later id).nextIndex peer)
      (fun later => Synced entry peer (later id) (later peer))
    ?_ nodes ⟨replicates, fun _ _ synced => synced⟩
  · rcases way with ⟨later, moves, ⟨still, synced⟩, here⟩
    exact ⟨later, moves, still, here, synced⟩
  · rintro later ⟨still, synced⟩
    refine ⟨exchanged later id peer, still.moves member leaderGoesOn inside goesOn different,
      ⟨still.exchange goesOn different, fun other notLeader before =>
        still.exchange_synced goesOn different notLeader (synced other notLeader before)⟩, ?_⟩
    rcases still.exchange_peer goesOn different with ⟨_, _, here | ⟨_, _, shorter⟩⟩
    · exact Or.inl here
    · exact Or.inr shorter

/-- The leader gets all peers in step. -/
theorem sync_all (replicates : Replicates config alive entry id nodes) :
    Exists fun later => Moves config alive nodes later ∧ Replicates config alive entry id later ∧
      forall peer, peer ∈ alive -> peer ≠ id -> Synced entry peer (later id) (later peer) := by
  refine @Reachability.exists_forall (NodeID -> Node) NodeID (Moves config alive)
    (Replicates config alive entry id) Moves.trans Moves.refl (fun peer later => peer ≠ id ->
      Synced entry peer (later id) (later peer)) alive ?_ nodes
    replicates
  intro peer goesOn later still
  by_cases isLeader : peer = id
  · exact ⟨later, Moves.refl later, still, fun different => absurd isLeader different,
      fun _ synced => synced⟩
  · rcases still.sync member leaderGoesOn inside goesOn isLeader with ⟨final, moves, last, here, kept⟩
    exact ⟨final, moves, last, fun _ => here, fun other before notLeader =>
      kept other notLeader (before notLeader)⟩

omit member in
/-- With all peers in step the leader knows of enough replicas. -/
theorem length_le_replicas (replicates : Replicates config alive entry id nodes)
    (member : id ∈ config.ids) (distinct : alive.Nodup)
    (synced : forall peer, peer ∈ alive -> peer ≠ id -> Synced entry peer (nodes id) (nodes peer)) :
    alive.length ≤ (nodes id).replicas entry.index := by
  have subset : alive.erase id ⊆
      (nodes id).peers.filter fun peer => decide (entry.index ≤ (nodes id).matchIndex peer) := by
    intro peer inErase
    rcases (distinct.mem_erase_iff).mp inErase with ⟨different, goesOn⟩
    refine List.mem_filter.mpr
      ⟨?_, decide_eq_true (Nat.le_of_eq (synced peer goesOn different).2.2.symm)⟩
    rw [replicates.peers]
    exact (config.others id member).mem_iff.mpr
      ((List.mem_erase_of_ne different).mpr (inside peer goesOn))
  have count := (List.subperm_of_subset (distinct.erase id) subset).length_le
  rw [List.length_erase_of_mem leaderGoesOn, ← List.countP_eq_length_filter] at count
  rw [Node.replicas]
  omega

/-- The leader, which has committed the entry, tells it to all peers. -/
theorem inform_all (replicates : Replicates config alive entry id nodes) (distinct : alive.Nodup)
    (enough : (config.ids.length - 1) / 2 + 1 < alive.length)
    (synced : forall peer, peer ∈ alive -> peer ≠ id -> Synced entry peer (nodes id) (nodes peer)) :
    Exists fun later => Moves config alive nodes later ∧ Replicates config alive entry id later ∧
      (later id).commitIndex = entry.index ∧
      forall peer, peer ∈ alive -> peer ≠ id -> Holds entry (later peer) ∧
          (later peer).commitIndex = entry.index := by
  have peerCount : (config.peers id).length = config.ids.length - 1 := by
    rw [(config.others id member).length_eq, List.length_erase_of_mem member]
  have committed : forall later, Replicates config alive entry id later ∧
      (forall peer, peer ∈ alive -> peer ≠ id -> Synced entry peer (later id) (later peer)) ->
      (later id).commitIndex = entry.index := by
    rintro later ⟨still, all⟩
    have count := still.length_le_replicas leaderGoesOn inside member distinct all
    apply still.offers.counted
    rw [still.peers, peerCount]
    omega
  have way := @Reachability.exists_forall (NodeID -> Node) NodeID (Moves config alive)
    (fun later => Replicates config alive entry id later ∧
      forall peer, peer ∈ alive -> peer ≠ id -> Synced entry peer (later id) (later peer))
    Moves.trans Moves.refl
    (fun peer later => peer ≠ id -> Synced entry peer (later id) (later peer) ∧
      (later peer).commitIndex = entry.index)
    alive ?_ nodes ⟨replicates, synced⟩
  · rcases way with ⟨later, moves, all, informed⟩
    exact ⟨later, moves, all.1, committed later all, fun peer goesOn different =>
      ⟨(informed peer goesOn different).1.1, (informed peer goesOn different).2⟩⟩
  · rintro peer goesOn later ⟨still, all⟩
    by_cases isLeader : peer = id
    · exact ⟨later, Moves.refl later, ⟨still, all⟩, fun different => absurd isLeader different,
        fun _ before => before⟩
    · have allLater : forall other, other ∈ alive -> other ≠ id ->
          Synced entry other (exchanged later id peer id) (exchanged later id peer other) :=
        fun other otherGoesOn notLeader =>
          still.exchange_synced goesOn isLeader notLeader (all other otherGoesOn notLeader)
      rcases all peer goesOn isLeader with ⟨holds, next, _⟩
      have told := (still.offers.exchange_holds holds next).2.2.2.2 (committed later ⟨still, all⟩)
      rw [← exchanged_peer isLeader] at told
      refine ⟨exchanged later id peer, still.moves member leaderGoesOn inside goesOn isLeader,
        ⟨still.exchange goesOn isLeader, allLater⟩, fun _ => ⟨allLater peer goesOn isLeader, told⟩,
        fun other before notLeader => ?_⟩
      rcases eq_or_ne other peer with rfl | apart
      · exact ⟨allLater other goesOn notLeader, told⟩
      · refine ⟨still.exchange_synced goesOn isLeader notLeader (before notLeader).1, ?_⟩
        rw [exchanged_other notLeader apart]
        exact (before notLeader).2

end Replicates

/-! ## Elections -/

section Elections

variable {s : Cluster} {id peer : NodeID} {term : Nat}

/-- Timeouts of one node, until it is a candidate in a late term. -/
theorem campaign (goesOn : id ∈ alive) (member : id ∈ config.ids) (s : Cluster) (count : Nat) :
    Exists fun after => Follows config alive s after ∧
      after.nodes = update s.nodes id { s.nodes id with
        state := .candidate
        currentTerm := (s.nodes id).currentTerm + count + 1
        votedFor := (s.nodes id).id } ∧
      (forall peer, peer ∈ (s.nodes id).peers ->
        after.voteCalls id ((s.nodes id).currentTerm + count + 1) peer = .spawned) ∧
      after.votesReceived id ((s.nodes id).currentTerm + count + 1) = 1 := by
  have fires : forall s, Follows config alive s (s.startElection id) := by
    intro s
    refine follows_step (.electionTimeout id) goesOn rfl ?_
    rw [step, if_pos member]
  induction count with
  | zero =>
      refine ⟨s.startElection id, fires s, rfl, fun peer isPeer => ?_,
        votesReceived_startElection_new s id⟩
      rw [voteCalls_startElection, if_pos ⟨rfl, rfl⟩, if_pos isPeer]
  | succ count ih =>
      rcases ih with ⟨before, first, nodes, _, _⟩
      have here : before.nodes id = { s.nodes id with
          state := .candidate
          currentTerm := (s.nodes id).currentTerm + count + 1
          votedFor := (s.nodes id).id } := by
        rw [nodes, update_self]
      have next : (before.nodes id).currentTerm + 1 = (s.nodes id).currentTerm + (count + 1) + 1 := by
        rw [here]
        rfl
      refine ⟨before.startElection id, first.trans (fires before), ?_, fun peer isPeer => ?_, ?_⟩
      · rw [nodes_startElection, here, nodes, update_idem]
        rfl
      · rw [voteCalls_startElection, if_pos ⟨rfl, next.symm⟩, if_pos (by rw [here]; exact isPeer)]
      · rw [← next]
        exact votesReceived_startElection_new before id

/-- A node of an earlier term gives its vote to a candidate with a later log. -/
theorem handleRequestVote_of_later {n : Node} {req : RequestVoteRequest}
    (later : n.currentTerm < req.term)
    (upToDate : n.isLogUpToDate req.lastLogIndex req.lastLogTerm = true) :
    n.handleRequestVote req =
        ((n.becomeFollower req.term).castVote req.candidateID, ⟨req.term, true⟩) := by
  rw [Node.handleRequestVote, if_neg (Nat.not_lt.mpr (Nat.le_of_lt later))]
  simp only [if_pos later]
  exact if_pos ⟨Or.inl rfl, upToDate⟩

/-- The goroutine for one peer runs to its end, and the peer gives its vote. -/
theorem asks (config : ClusterConfig) (goesOn : id ∈ alive) (peerGoesOn : peer ∈ alive)
    (different : id ≠ peer) (current : (s.nodes id).currentTerm = term)
    (spawned : s.voteCalls id term peer = .spawned) (later : (s.nodes peer).currentTerm < term)
    (upToDate : (s.nodes peer).isLogUpToDate (s.nodes id).getLastLogIndex
      (s.nodes id).getLastLogTerm = true) :
    Exists fun after => Exists fun req : RequestVoteRequest => req.term = term ∧
      Follows config alive s after ∧
      after.nodes = update (update s.nodes peer (((s.nodes peer).becomeFollower term).castVote id)) id
        ((s.nodes id).voteReply (s.votesReceived id term) req ⟨term, true⟩).1 ∧
      after.votesReceived id term =
        ((s.nodes id).voteReply (s.votesReceived id term) req ⟨term, true⟩).2 ∧
      forall other, other ≠ peer -> after.voteCalls id term other = s.voteCalls id term other := by
  let index := (s.nodes id).getLastLogIndex
  let lastTerm := (s.nodes id).getLastLogTerm
  let req : RequestVoteRequest := ⟨term, id, index, lastTerm⟩
  let first := s.setVoteCall id term peer ⟨true, some term, none, none, [], false, false⟩
  let second := first.setVoteCall id term peer ⟨true, some term, some index, none, [], false, false⟩
  let third := second.setVoteCall id term peer
    ⟨true, some term, some index, some lastTerm, [], false, false⟩
  let voted := third.deliverVote id term peer req
  let replied := voted.voteReply id term peer req ⟨term, true⟩
  have here : forall (t : Cluster) (call : VoteCall), (t.setVoteCall id term peer call).voteCalls id
      term peer = call := by
    intro t call
    rw [voteCalls_setVoteCall, if_pos ⟨rfl, rfl, rfl⟩]
  have elsewhere : forall (t : Cluster) (call : VoteCall) (other : NodeID), other ≠ peer ->
      (t.setVoteCall id term peer call).voteCalls id term other = t.voteCalls id term other := by
    intro t call other apart
    rw [voteCalls_setVoteCall, if_neg fun same => apart same.2.2]
  have handled : (third.nodes peer).handleRequestVote req =
      (((s.nodes peer).becomeFollower term).castVote id, ⟨term, true⟩) :=
    handleRequestVote_of_later later upToDate
  have votedCall : voted.voteCalls id term peer =
      ⟨true, some term, some index, some lastTerm, [⟨term, true⟩], false, false⟩ := by
    rw [voteCalls_deliverVote, here, here, handled]
    rfl
  have readsTerm : Follows config alive s first := by
    refine follows_step (.readTerm id term peer) goesOn rfl ?_
    simp only [step, spawned, VoteCall.spawned, and_self, if_true, current]
    rfl
  have readsIndex : Follows config alive first second := by
    refine follows_step (.readLastLogIndex id term peer) goesOn rfl ?_
    simp only [step, first, here, and_self, if_true]
    rfl
  have readsLastTerm : Follows config alive second third := by
    refine follows_step (.readLastLogTerm id term peer) goesOn rfl ?_
    simp only [step, second, here, and_self, if_true]
    rfl
  have delivers : Follows config alive third voted := by
    refine follows_step (.deliverVote id term peer) peerGoesOn rfl ?_
    simp only [step, third, here]
    rfl
  have replies : Follows config alive voted replied := by
    refine follows_step (.voteReply id term peer 0) goesOn rfl ?_
    simp only [step, votedCall]
    rfl
  have votedNodes : voted.nodes =
      update s.nodes peer (((s.nodes peer).becomeFollower term).castVote id) := by
    rw [nodes_deliverVote, handled]
    rfl
  have candidate : voted.nodes id = s.nodes id := by rw [votedNodes, update_of_ne different]
  refine ⟨replied, req, rfl,
    readsTerm.trans (readsIndex.trans (readsLastTerm.trans (delivers.trans replies))), ?_, ?_,
      fun other apart => ?_⟩
  · rw [nodes_voteReply, candidate, votedNodes]
    rfl
  · rw [votesReceived_voteReply, update_self, update_self, candidate]
    rfl
  · rw [voteCalls_voteReply, elsewhere _ _ _ apart, voteCalls_deliverVote, elsewhere _ _ _ apart,
      elsewhere _ _ _ apart, elsewhere _ _ _ apart, elsewhere _ _ _ apart]

/-- A candidate asks one peer after the other until it has enough votes. -/
theorem gathers (goesOn : id ∈ alive) (voters : List NodeID) (distinct : voters.Nodup)
    (candidate : (s.nodes id).state = .candidate) (current : (s.nodes id).currentTerm = term)
    (few : s.votesReceived id term ≤ (s.nodes id).peers.length / 2 + 1)
    (enough : (s.nodes id).peers.length / 2 + 1 < s.votesReceived id term + voters.length)
    (willing : forall peer, peer ∈ voters -> peer ∈ alive ∧ id ≠ peer ∧
      s.voteCalls id term peer = .spawned ∧ (s.nodes peer).currentTerm < term ∧
      (s.nodes peer).isLogUpToDate (s.nodes id).getLastLogIndex
      (s.nodes id).getLastLogTerm = true) :
    Exists fun after => Follows config alive s after ∧ after.nodes id = (s.nodes id).becomeLeader ∧
      forall peer, peer ≠ id -> after.nodes peer = s.nodes peer ∨
        (s.nodes peer).currentTerm < term ∧
          after.nodes peer = ((s.nodes peer).becomeFollower term).castVote id := by
  induction voters generalizing s with
  | nil => exact absurd enough (Nat.not_lt.mpr few)
  | cons peer voters ih =>
      rcases willing peer List.mem_cons_self with ⟨peerGoesOn, different, spawned, later, upToDate⟩
      rcases List.nodup_cons.mp distinct with ⟨fresh, restDistinct⟩
      rcases asks config goesOn peerGoesOn different current spawned later upToDate with
        ⟨after, req, reqTerm, first, nodes, votes, calls⟩
      have awaits : (s.nodes id).awaitsVote req = true :=
        decide_eq_true ⟨candidate, current.trans reqTerm.symm⟩
      have notLater : ¬ term > (s.nodes id).currentTerm := by
        rw [current]
        exact Nat.lt_irrefl _
      have here : after.nodes peer = ((s.nodes peer).becomeFollower term).castVote id := by
        rw [nodes, update_of_ne different.symm, update_self]
      have elsewhere : forall other, other ≠ id -> other ≠ peer ->
          after.nodes other = s.nodes other := by
        intro other notCandidate notPeer
        rw [nodes, update_of_ne notCandidate, update_of_ne notPeer]
      rw [Node.voteReply, if_neg (by rw [awaits]; decide), if_neg notLater, if_pos rfl]
        at nodes votes
      by_cases decided : s.votesReceived id term + 1 > (s.nodes id).peers.length / 2 + 1
      · rw [if_pos decided] at nodes
        refine ⟨after, first, by rw [nodes, update_self], fun other notCandidate => ?_⟩
        rcases eq_or_ne other peer with rfl | notPeer
        · exact Or.inr ⟨later, here⟩
        · exact Or.inl (elsewhere other notCandidate notPeer)
      · rw [if_neg decided] at nodes votes
        have same : after.nodes id = s.nodes id := by rw [nodes, update_self]
        rw [List.length_cons] at enough
        have stillWilling : forall other, other ∈ voters -> other ∈ alive ∧ id ≠ other ∧
            after.voteCalls id term other = .spawned ∧ (after.nodes other).currentTerm < term ∧
            (after.nodes other).isLogUpToDate (after.nodes id).getLastLogIndex
            (after.nodes id).getLastLogTerm = true := by
          intro other inside
          have notPeer : other ≠ peer := fun isPeer => fresh (isPeer ▸ inside)
          rcases willing other (List.mem_cons_of_mem _ inside) with
            ⟨otherGoesOn, apart, stillSpawned, earlier, notFurther⟩
          rw [calls other notPeer, elsewhere other apart.symm notPeer, same]
          exact ⟨otherGoesOn, apart, stillSpawned, earlier, notFurther⟩
        rcases ih restDistinct (by rw [same]; exact candidate) (by rw [same]; exact current)
          (by rw [same, votes]; omega) (by rw [same, votes]; omega) stillWilling with
          ⟨final, second, leads, others⟩
        rw [same] at leads
        refine ⟨final, first.trans second, leads, fun other notCandidate => ?_⟩
        rcases eq_or_ne other peer with rfl | notPeer
        · rcases others other notCandidate with kept | ⟨stillEarlier, _⟩
          · exact Or.inr ⟨later, kept.trans here⟩
          · rw [here] at stillEarlier
            exact absurd stillEarlier (Nat.lt_irrefl term)
        · rcases others other notCandidate with kept | ⟨earlier, voted⟩
          · exact Or.inl (kept.trans (elsewhere other notCandidate notPeer))
          · rw [elsewhere other notCandidate notPeer] at earlier voted
            exact Or.inr ⟨earlier, voted⟩

end Elections

end Cluster
end Raft
end KVStore
