import KVStore.Raft.Election
import KVStore.Sharding.MultiRaft
import Mathlib.Data.List.Induction

namespace KVStore
namespace Sharding

open Raft (ClusterConfig Cluster NodeID)

/-!
# The recorded leader of a shard

A manager polls the Raft node of each of its shards and records what it answers, and
`ShardRouter` of `node/sharding/router.go` copies the record into a cache of its own.
Here the nodes of the group of one shard run as a Raft cluster, and the rounds of
`trackLeader` and the refreshes of the router happen at any moments in between.

A round writes the term of every answer.  The leader it writes only when the node leads,
and nothing clears it again.  What is recorded is therefore that the node has led at some
round, and this is what it should be as long as no later round finds that it does not.
-/

/-! ## Manager and router -/

/-- `GetState` of a node. -/
def getState (n : Raft.Node) : NodeAnswer :=
  ⟨UInt64.ofNat n.currentTerm, decide (n.state = .leader)⟩

namespace ManagerData

/-- `GetShardLeader`, without the texts of its errors. -/
def getShardLeader (data : ManagerData) (shardID : ShardID) : Option Bytes :=
  match data.shardAt shardID with
  | none => none
  | some shard => if shard.leader = [] then none else some shard.leader

/-- One round of the loop of `trackLeader`, with the answer of the node. -/
def trackLeader (data : ManagerData) (shardID : ShardID) (answer : NodeAnswer) : ManagerData :=
  match data.lookup shardID with
  | none => data
  | some shard =>
      match data.heap[shard]? with
      | none => data
      | some object =>
          if object.shutdown then data else data.updateLeader shard answer.term answer.isLeader

/-- The program of `GetShardLeader` replies with this leader. -/
theorem getShardLeader_eq_some_iff {answer : NodeAnswer} {data : ManagerData} {vars : Variables}
    {shardID : ShardID} {leader : Bytes} :
    (readVariables answer data vars (.readLeader shardID)).reply = some (.leader leader) <->
      data.getShardLeader shardID = some leader := by
  simp only [readVariables, getShardLeader]
  cases data.shardAt shardID with
  | none => simp [notFound, shardError]
  | some shard =>
      by_cases empty : shard.leader = []
      · simp [empty, shardError]
      · simp [empty]

/-- The operations of the program of `trackLeader`, one after the other. -/
theorem trackLeader_eq {answer : NodeAnswer} {data : ManagerData} {vars : Variables}
    {shardID : ShardID} {shard : Nat} {object : ShardRaft}
    (found : data.lookup shardID = some shard) (there : data.heap[shard]? = some object)
    (running : object.shutdown = false) :
    data.trackLeader shardID answer =
      writeData data (readVariables answer data (readVariables answer data vars (.lookup shardID))
          .getState) .update := by
  simp [trackLeader, readVariables, writeData, found, there, running]

end ManagerData

/-- `ShardRouter`, of which only the cache is used here. -/
structure ShardRouter where
  shardLeaders : ShardID -> Option Bytes

namespace ShardRouter

/-- `updateLeader`. -/
def updateLeader (router : ShardRouter) (data : ManagerData) (shardID : ShardID) : ShardRouter :=
  match data.getShardLeader shardID with
  | none => router
  | some leader => ⟨Function.update router.shardLeaders shardID (some leader)⟩

/-- One round of the loop of `trackLeaders`. -/
def trackLeaders (router : ShardRouter) (data : ManagerData) : ShardRouter :=
  ⟨fun shardID => (data.getShardLeader shardID).or (router.shardLeaders shardID)⟩

/-- `GetLeader`, without the text of its error. -/
def getLeader (router : ShardRouter) (shardID : ShardID) : Option Bytes :=
  match router.shardLeaders shardID with
  | none => none
  | some leader => if leader = [] then none else some leader

end ShardRouter

/-! ## Runs of a shard -/

/-- A shard that a manager starts, and the Raft cluster of its group. -/
structure StartedShard where
  config : ClusterConfig
  manager : ManagerData
  shardID : ShardID
  peers : List Bytes
  unused : manager.lookup shardID = none

structure Tracking where
  cluster : Cluster
  data : ManagerData
  router : ShardRouter

inductive TrackEvent where
  | raft (event : Raft.Event)
  | tick
  | updateLeader
  | trackLeaders

namespace StartedShard

variable (shard : StartedShard)

/-- The object that `StartShard` puts into the map. -/
def object : ShardRaft := shard.manager.newShard shard.shardID shard.peers

def nodeID : NodeID := shard.object.nodeID

def init : Tracking where
  cluster := Cluster.init shard.config
  data := shard.manager.addShard shard.object
  router := ⟨fun _ => none⟩

def step (now : Tracking) : TrackEvent -> Tracking
  | .raft event => { now with cluster := Cluster.step shard.config now.cluster event }
  | .tick =>
      { now with data := now.data.trackLeader shard.shardID (getState (now.cluster.nodes shard.nodeID)) }
  | .updateLeader => { now with router := now.router.updateLeader now.data shard.shardID }
  | .trackLeaders => { now with router := now.router.trackLeaders now.data }

def run (events : List TrackEvent) : Tracking := events.foldl shard.step shard.init

theorem run_snoc (events : List TrackEvent) (event : TrackEvent) :
    shard.run (events ++ [event]) = shard.step (shard.run events) event := by
  rw [run, List.foldl_append]
  rfl

/-- The node leads after some events. -/
def Leads (events : List TrackEvent) : Prop :=
  ((shard.run events).cluster.nodes shard.nodeID).state = .leader

/-- Some round has found the node leading. -/
def Led (events : List TrackEvent) : Prop :=
  Exists fun first => Exists fun second => events = first ++ .tick :: second ∧ shard.Leads first

variable {shard}

theorem not_led_nil : ¬ shard.Led [] := by
  rintro ⟨first, second, split, _⟩
  simp at split

variable {events : List TrackEvent}

theorem led_snoc_iff {event : TrackEvent} :
    shard.Led (events ++ [event]) <-> shard.Led events ∨ event = .tick ∧ shard.Leads events := by
  constructor
  · rintro ⟨first, second, split, leads⟩
    rcases List.eq_nil_or_concat' second with rfl | ⟨second, last, rfl⟩
    · rcases List.append_inj' split rfl with ⟨rfl, same⟩
      cases same
      exact Or.inr ⟨rfl, leads⟩
    · rw [← List.cons_append, ← List.append_assoc] at split
      rcases List.append_inj' split rfl with ⟨rfl, _⟩
      exact Or.inl ⟨first, second, rfl, leads⟩
  · rintro (⟨first, second, rfl, leads⟩ | ⟨rfl, leads⟩)
    · exact ⟨first, second ++ [event], by simp, leads⟩
    · exact ⟨events, [], rfl, leads⟩

/-! ## What is recorded -/

theorem nodeID_ne_nil (shard : StartedShard) : shard.nodeID ≠ [] := by
  intro empty
  have length := congrArg List.length empty
  have letters : "shard".toUTF8.toList.length = 5 := by decide +kernel
  simp only [nodeID, object, ManagerData.newShard, List.length_append, letters,
    List.length_nil] at length
  omega

/-- The object of the shard, as a run leaves it. -/
structure Recorded (shard : StartedShard) (events : List TrackEvent) (position : Nat)
    (record : ShardRaft) : Prop where
  found : (shard.run events).data.lookup shard.shardID = some position
  there : (shard.run events).data.heap[position]? = some record
  node : record.nodeID = shard.nodeID
  running : record.shutdown = false
  led : shard.Led events -> record.leader = shard.nodeID
  unled : ¬ shard.Led events -> record.leader = []

namespace Recorded

variable {events : List TrackEvent} {position : Nat} {record : ShardRaft}

variable (recorded : Recorded shard events position record)

include recorded

theorem shardAt :
    (shard.run events).data.shardAt shard.shardID = some record := by
  rw [ManagerData.shardAt, recorded.found]
  exact recorded.there

theorem getShardLeader_iff (leader : Bytes) :
    (shard.run events).data.getShardLeader shard.shardID = some leader <-> shard.Led events ∧
        shard.nodeID = leader := by
  rw [ManagerData.getShardLeader, recorded.shardAt]
  by_cases led : shard.Led events
  · simp [recorded.led led, shard.nodeID_ne_nil, led]
  · simp [recorded.unled led, led]

/-- A round of `trackLeader`. -/
theorem tick :
    Recorded shard (events ++ [.tick]) position
      { record with
        term := (getState ((shard.run events).cluster.nodes shard.nodeID)).term
        leader := if (getState ((shard.run events).cluster.nodes shard.nodeID)).isLeader
          then record.nodeID else record.leader } := by
  have data : (shard.run (events ++ [.tick])).data = (shard.run events).data.updateLeader position
      (getState ((shard.run events).cluster.nodes shard.nodeID)).term
      (getState ((shard.run events).cluster.nodes shard.nodeID)).isLeader := by
    rw [run_snoc, step, ManagerData.trackLeader]
    simp [recorded.found, recorded.there, recorded.running]
  have answer : (getState ((shard.run events).cluster.nodes shard.nodeID)).isLeader = true <->
      shard.Leads events :=
    decide_eq_true_iff
  refine ⟨?_, ?_, recorded.node, recorded.running, ?_, ?_⟩
  · rw [data]
    exact recorded.found
  · rw [data, ManagerData.updateLeader]
    simp [recorded.there]
  · intro led
    rcases led_snoc_iff.mp led with before | ⟨_, leads⟩
    · simp [recorded.node, recorded.led before]
    · simp [recorded.node, answer.mpr leads]
  · intro unled
    have never : ¬ shard.Led events := fun led => unled (led_snoc_iff.mpr (Or.inl led))
    have follows : ¬ shard.Leads events := fun leads => unled (led_snoc_iff.mpr (Or.inr ⟨rfl, leads⟩))
    simp [recorded.unled never, mt answer.mp follows]

/-- An event that is no round leaves the record alone. -/
theorem other {event : TrackEvent} (noTick : event ≠ .tick)
    (same : (shard.step (shard.run events) event).data = (shard.run events).data) :
    Recorded shard (events ++ [event]) position record := by
  have led : shard.Led (events ++ [event]) <-> shard.Led events := by simp [led_snoc_iff, noTick]
  refine ⟨?_, ?_, recorded.node, recorded.running, fun found => recorded.led (led.mp found),
    fun never => ?_⟩
  · rw [run_snoc, same]
    exact recorded.found
  · rw [run_snoc, same]
    exact recorded.there
  · exact recorded.unled fun found => never (led.mpr found)

end Recorded

theorem recorded_nil (shard : StartedShard) :
    Recorded shard [] shard.manager.heap.length shard.object := by
  refine ⟨?_, ?_, rfl, rfl, fun led => absurd led not_led_nil, fun _ => rfl⟩
  · change (shard.manager.shards ++ [(shard.object.shardID, shard.manager.heap.length)]).lookup
      shard.shardID = _
    have unused : shard.manager.shards.lookup shard.shardID = none := shard.unused
    rw [List.lookup_append, unused, Option.none_or]
    exact List.lookup_cons_self
  · change (shard.manager.heap ++ [shard.object])[shard.manager.heap.length]? = _
    simp

/-- The record of a run. -/
theorem exists_recorded (shard : StartedShard) (events : List TrackEvent) :
    Exists fun position => Exists fun record => Recorded shard events position record := by
  induction events using List.reverseRecOn with
  | nil => exact ⟨_, _, recorded_nil shard⟩
  | append_singleton events event ih =>
      rcases ih with ⟨position, record, recorded⟩
      cases event with
      | tick => exact ⟨position, _, recorded.tick⟩
      | raft event => exact ⟨position, record, recorded.other (by simp) rfl⟩
      | updateLeader => exact ⟨position, record, recorded.other (by simp) rfl⟩
      | trackLeaders => exact ⟨position, record, recorded.other (by simp) rfl⟩

theorem getShardLeader_iff (shard : StartedShard) (events : List TrackEvent) (leader : Bytes) :
    (shard.run events).data.getShardLeader shard.shardID = some leader <-> shard.Led events ∧
        shard.nodeID = leader := by
  rcases exists_recorded shard events with ⟨position, record, recorded⟩
  exact recorded.getShardLeader_iff leader

/-- Right after a round the recorded term is the one that the node has answered. -/
theorem recordedTerm_tick (shard : StartedShard) (events : List TrackEvent) :
    ((shard.run (events ++ [.tick])).data.shardAt shard.shardID).map ShardRaft.term =
      some (getState ((shard.run events).cluster.nodes shard.nodeID)).term := by
  rcases exists_recorded shard events with ⟨position, record, recorded⟩
  rw [recorded.tick.shardAt]
  rfl

/-- What the router has copied was recorded before. -/
theorem led_of_router {shard : StartedShard} {leader : Bytes}
    (cached : (shard.run events).router.shardLeaders shard.shardID = some leader) :
    shard.Led events := by
  induction events using List.reverseRecOn generalizing leader with
  | nil => cases cached
  | append_singleton events event ih =>
      have earlier : (shard.run events).router.shardLeaders shard.shardID = some leader ->
          shard.Led (events ++ [event]) :=
        fun before => led_snoc_iff.mpr (Or.inl (ih before))
      have copied : (shard.run events).data.getShardLeader shard.shardID = some leader ->
          shard.Led (events ++ [event]) :=
        fun found => led_snoc_iff.mpr (Or.inl ((getShardLeader_iff shard events leader).mp found).1)
      rw [run_snoc] at cached
      cases event with
      | raft event => exact earlier cached
      | tick => exact earlier cached
      | updateLeader =>
          rw [step, ShardRouter.updateLeader] at cached
          cases found : (shard.run events).data.getShardLeader shard.shardID with
          | none =>
              simp only [found] at cached
              exact earlier cached
          | some current =>
              simp only [found, Function.update_self, Option.some.injEq] at cached
              exact copied (found.trans (congrArg some cached))
      | trackLeaders =>
          rcases Option.or_eq_some_iff.mp cached with found | ⟨_, before⟩
          · exact copied found
          · exact earlier before

/-- The last round of a run in which some round has found the node leading. -/
theorem exists_last_tick (led : shard.Led events) :
    Exists fun first => Exists fun second => events = first ++ .tick :: second ∧
      TrackEvent.tick ∉ second ∧
      (shard.Leads first ∨ shard.Led first) := by
  induction events using List.reverseRecOn with
  | nil => exact absurd led not_led_nil
  | append_singleton events event ih =>
      rcases eq_or_ne event .tick with rfl | isTick
      · refine ⟨events, [], rfl, List.not_mem_nil, ?_⟩
        rcases led_snoc_iff.mp led with before | ⟨_, leads⟩
        · exact Or.inr before
        · exact Or.inl leads
      · have before : shard.Led events := by
          rcases led_snoc_iff.mp led with before | ⟨same, _⟩
          · exact before
          · exact absurd same isTick
        rcases ih before with ⟨first, second, rfl, noTick, found⟩
        refine ⟨first, second ++ [event], by simp, ?_, found⟩
        simp [noTick, Ne.symm isTick]

/-- A round finds the node not leading, after one that found it leading. -/
def Deposed (shard : StartedShard) (events : List TrackEvent) : Prop :=
  Exists fun first => Exists fun second => Exists fun third =>
    events = first ++ .tick :: second ++ .tick :: third ∧ shard.Leads first ∧
      ¬ shard.Leads (first ++ .tick :: second)

theorem deposed_iff :
    shard.Deposed events <->
      Exists fun before => Exists fun after => events = before ++ .tick :: after ∧
          shard.Led before ∧ ¬ shard.Leads before := by
  constructor
  · rintro ⟨first, second, third, rfl, leads, follows⟩
    exact ⟨first ++ .tick :: second, third, rfl, ⟨first, second, rfl, leads⟩, follows⟩
  · rintro ⟨before, after, rfl, ⟨first, second, rfl, leads⟩, follows⟩
    exact ⟨first, second, after, rfl, leads, follows⟩

end StartedShard

open StartedShard in
/-- In a run of a shard, right after every round `GetShardLeader` returns the node only if it led
then, in the recorded term, and the router has the node only if it led at the last round.  This
holds exactly for the runs in which no round finds the node not leading after one that found it
leading. -/
theorem leader_fresh_iff (shard : StartedShard) (events : List TrackEvent) :
    ((forall before after, events = before ++ .tick :: after ->
          (shard.run (before ++ [.tick])).data.getShardLeader shard.shardID = some shard.nodeID ->
          shard.Leads before ∧
            ((shard.run (before ++ [.tick])).data.shardAt shard.shardID).map ShardRaft.term =
              some (UInt64.ofNat ((shard.run before).cluster.nodes shard.nodeID).currentTerm)) ∧
        forall before after, events = before ++ after ->
          (shard.run before).router.getLeader shard.shardID = some shard.nodeID ->
          Exists fun first => Exists fun second =>
            before = first ++ .tick :: second ∧ TrackEvent.tick ∉ second ∧ shard.Leads first) <->
      ¬ shard.Deposed events := by
  rw [deposed_iff]
  constructor
  · rintro ⟨fresh, _⟩ ⟨before, after, split, led, follows⟩
    have recorded : shard.Led (before ++ [.tick]) := led_snoc_iff.mpr (Or.inl led)
    exact follows (fresh before after split ((getShardLeader_iff shard _ _).mpr ⟨recorded, rfl⟩)).1
  · intro steady
    have stillLeads {before after : List TrackEvent} (split : events = before ++ .tick :: after)
        (led : shard.Led before) : shard.Leads before := by
      by_contra follows
      exact steady ⟨before, after, split, led, follows⟩
    constructor
    · intro before after split returned
      refine ⟨?_, recordedTerm_tick shard before⟩
      rcases led_snoc_iff.mp ((getShardLeader_iff shard _ _).mp returned).1 with led | ⟨_, leads⟩
      · exact stillLeads split led
      · exact leads
    · rintro before after rfl cached
      have entry : (shard.run before).router.shardLeaders shard.shardID = some shard.nodeID := by
        rw [ShardRouter.getLeader] at cached
        split at cached
        · cases cached
        · rename_i leader found
          split at cached
          · cases cached
          · rw [found, cached]
      rcases exists_last_tick (led_of_router entry) with ⟨first, second, rfl, noTick, leads | led⟩
      · exact ⟨first, second, rfl, noTick, leads⟩
      · exact ⟨first, second, rfl, noTick, stillLeads (List.append_assoc _ _ _) led⟩

/-- The first node of three, by the name that the manager gives it:  `shard1_node0`. -/
def firstNode : NodeID := [115, 104, 97, 114, 100, 49, 95, 110, 111, 100, 101, 48]

def sampleShard : StartedShard where
  config := Raft.Cluster.clusterOf [firstNode, [98], [99]] (by decide)
  manager := ⟨[], [], ⟨7000, 0⟩⟩
  shardID := 1
  peers := [[98], [99]]
  unused := rfl

/-- The first node is elected in term 1. -/
def election : List TrackEvent :=
  (.electionTimeout firstNode :: Raft.Cluster.askVote firstNode 1 [98] ++
    Raft.Cluster.askVote firstNode 1 [99]).map .raft

/-- Another node asks the first one for its vote in term 2. -/
def deposition : List TrackEvent :=
  (.electionTimeout [98] :: Raft.Cluster.askVote [98] 2 firstNode).map .raft

/-- A round after the election. -/
theorem leader_fresh_iff_elected :
    (sampleShard.run (election ++ [.tick])).data.getShardLeader 1 = some firstNode ∧
        sampleShard.Leads election := by
  have node : sampleShard.nodeID = firstNode := by decide +kernel
  have recorded : (sampleShard.run (election ++ [.tick])).data.getShardLeader 1 = some firstNode :=
    by decide +kernel
  have steady : ¬ sampleShard.Deposed (election ++ [.tick]) := by
    rintro ⟨first, second, third, split, _⟩
    have ticks := congrArg (List.countP fun event => event matches .tick) split
    simp [election, Raft.Cluster.askVote] at ticks
    omega
  have fresh := (leader_fresh_iff sampleShard (election ++ [.tick])).mpr steady
  exact ⟨recorded, (fresh.1 election [] rfl (recorded.trans (congrArg some node.symm))).1⟩

/-- After another node has deposed the leader, a round finds a follower in term 2 and records
this term with the old leader, whom the router then points to. -/
theorem leader_stale :
    let events := election ++ [.tick] ++ deposition
    let after := sampleShard.run (events ++ [.tick, .trackLeaders])
    (getState ((sampleShard.run events).cluster.nodes firstNode)).isLeader = false ∧
      after.data.getShardLeader 1 = some firstNode ∧
      (after.data.shardAt 1).map ShardRaft.term = some 2 ∧
          after.router.getLeader 1 = some firstNode := by
  decide +kernel

end Sharding
end KVStore
