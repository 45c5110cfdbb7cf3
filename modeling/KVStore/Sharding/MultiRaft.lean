import KVStore.Library.RWLock
import KVStore.Sharding.HashRing

namespace KVStore
namespace Sharding

open Decimal RWLock

/-!
# The manager of the shards

`MultiRaftManager` of `node/sharding/multi_raft.go`: a map from shards to their
Raft nodes behind one `sync.RWMutex`.  Each method is a program over that lock.
A loop that follows the leader of a shard runs in a thread of its own for each
shard that is started.  What the Raft node of a shard answers is an input of the
step that asks for it; the calls on the nodes do not use the lock of the manager.

`GetAllShardStatuses` calls `GetShardStatus` while it holds the read lock, and
`GetShardStatus` takes it again.  A loop that asks for the write lock in between
waits for the first read lock and blocks the second one.  That is the only way
into a deadlock.
-/

/-! ## The data behind the lock -/

/-- `ShardRaft`; whether the channel `Shutdown` is closed is a flag. -/
structure ShardRaft where
  shardID : ShardID
  nodeID : Bytes
  peers : List Bytes
  server : Bytes
  leader : Bytes
  term : UInt64
  shutdown : Bool

/-- `MultiRaftConfig`. -/
structure MultiRaftConfig where
  baseRaftPort : Int
  nodeID : Int

/-- The fields of `MultiRaftManager`, with the objects that its map points to. -/
structure ManagerData where
  shards : List (ShardID × Nat)
  heap : List ShardRaft
  config : MultiRaftConfig

/-- `ShardStatus`. -/
structure ShardStatus where
  shardID : ShardID
  leader : Bytes
  term : UInt64
  state : Bytes
  commitIndex : UInt64

/-- What the methods return. -/
inductive Reply where
  | error (message : Bytes)
  | done
  | leader (address : Bytes)
  | status (status : ShardStatus)
  | statuses (statuses : List (ShardID × ShardStatus))
  | channel (shard : Nat)

/-- The local variables of a method. -/
structure Variables where
  shard : Option Nat
  term : UInt64
  isLeader : Bool
  statuses : List (ShardID × ShardStatus)
  reply : Option Reply

/-- What the Raft node of a shard answers to `GetState` and `Propose`. -/
structure NodeAnswer where
  term : UInt64
  isLeader : Bool

/-- The errors about a shard. -/
def shardError (shardID : ShardID) (problem : String) : Reply :=
  .error ("shard ".toUTF8.toList ++ showInt shardID ++ problem.toUTF8.toList)

def notFound (shardID : ShardID) : Reply := shardError shardID " not found"

def nodeStateToString (isLeader : Bool) : Bytes :=
  (if isLeader then "Leader" else "Follower").toUTF8.toList

namespace ManagerData

/-- `shard, exists := mrm.shards[shardID]`. -/
def lookup (data : ManagerData) (shardID : ShardID) : Option Nat := data.shards.lookup shardID

/-- The object behind a pointer of the map. -/
def shardAt (data : ManagerData) (shardID : ShardID) : Option ShardRaft :=
  (data.lookup shardID).bind fun shard => data.heap[shard]?

/-- The `ShardRaft` that `StartShard` makes. -/
def newShard (data : ManagerData) (shardID : ShardID) (peers : List Bytes) : ShardRaft where
  shardID := shardID
  nodeID := "shard".toUTF8.toList ++ showInt shardID ++ "_node".toUTF8.toList ++
    showInt data.config.nodeID
  peers := peers
  server := "localhost:".toUTF8.toList ++
    showInt (data.config.baseRaftPort + shardID * 100 + data.config.nodeID)
  leader := []
  term := 0
  shutdown := false

/-- `mrm.shards[shardID] = shardRaft`. -/
def addShard (data : ManagerData) (shard : ShardRaft) : ManagerData :=
  { data with shards := data.shards ++ [(shard.shardID, data.heap.length)], heap := data.heap ++ [shard] }

/-- The shutdown of a shard and its removal from the map. -/
def removeShard (data : ManagerData) (shardID : ShardID) (shard : Nat) : ManagerData :=
  { data with
    shards := data.shards.filter fun entry => decide (entry.1 ≠ shardID)
    heap := data.heap.modify shard fun object => { object with shutdown := true } }

/-- What `trackLeader` writes. -/
def updateLeader (data : ManagerData) (shard : Nat) (term : UInt64) (isLeader : Bool) :
    ManagerData :=
  { data with
    heap := data.heap.modify shard fun object =>
      { object with term := term, leader := if isLeader then object.nodeID else object.leader } }

end ManagerData

/-! ## The methods -/

/-- What the methods do between their operations on the lock. -/
inductive ManagerOp where
  | lookup (shardID : ShardID)
  | readLeader (shardID : ShardID)
  | readStatus (shardID : ShardID)
  | readChannel (shardID : ShardID)
  | forEachShard
  | collect (shardID : ShardID)
  | returnStatuses
  | propose (shardID : ShardID) (command : Bytes)
  | start (shardID : ShardID) (peers : List Bytes)
  | stop (shardID : ShardID)
  | tick
  | track (shardID : ShardID)
  | getState
  | update

def startShard (shardID : ShardID) (peers : List Bytes) : List (Instr ManagerOp) :=
  [.lock, .act (.start shardID peers), .unlock]

def stopShard (shardID : ShardID) : List (Instr ManagerOp) := [.lock, .act (.stop shardID), .unlock]

def getShardLeader (shardID : ShardID) : List (Instr ManagerOp) :=
  [.rLock, .act (.readLeader shardID), .rUnlock]

def proposeToShard (shardID : ShardID) (command : Bytes) : List (Instr ManagerOp) :=
  [.rLock, .act (.lookup shardID), .rUnlock, .act (.propose shardID command)]

def getShardStatus (shardID : ShardID) : List (Instr ManagerOp) :=
  [.rLock, .act (.readStatus shardID), .rUnlock]

def getAllShardStatuses : List (Instr ManagerOp) :=
  [.rLock, .act .forEachShard, .act .returnStatuses, .rUnlock]

def getApplyChannel (shardID : ShardID) : List (Instr ManagerOp) :=
  [.rLock, .act (.readChannel shardID), .rUnlock]

/-- One round of the loop, up to the decision whether it goes on. -/
def trackLeader (shardID : ShardID) : List (Instr ManagerOp) :=
  [.act .tick, .rLock, .act (.lookup shardID), .rUnlock, .act (.track shardID)]

/-- The rest of a round of `trackLeader`, and the next one. -/
def updateAndLoop (shardID : ShardID) : List (Instr ManagerOp) :=
  [.act .getState, .lock, .act .update, .unlock] ++ trackLeader shardID

/-- The body of the loop of `GetAllShardStatuses`. -/
def visitShard (shardID : ShardID) : List (Instr ManagerOp) :=
  getShardStatus shardID ++ [.act (.collect shardID)]

/-- The status of a shard, from what its node answers to `GetState`. -/
def statusOf (shard : ShardRaft) (shardID : ShardID) (answer : NodeAnswer) : ShardStatus where
  shardID := shardID
  leader := shard.leader
  term := answer.term
  state := nodeStateToString answer.isLeader
  commitIndex := 0

/-- What an operation does to the local variables.  The methods read the map and
the objects behind it, and return. -/
def readVariables (answer : NodeAnswer) (data : ManagerData) (vars : Variables) :
    ManagerOp -> Variables
  | .lookup shardID => { vars with shard := data.lookup shardID }
  | .readLeader shardID =>
      { vars with
        reply := match data.shardAt shardID with
          | none => some (notFound shardID)
          | some shard =>
              if shard.leader = [] then some (shardError shardID " has no leader")
              else some (.leader shard.leader) }
  | .readStatus shardID =>
      { vars with
        reply := match data.shardAt shardID with
          | none => some (notFound shardID)
          | some shard => some (.status (statusOf shard shardID answer)) }
  | .readChannel shardID =>
      { vars with
        reply := match data.lookup shardID with
          | none => some (notFound shardID)
          | some shard => some (.channel shard) }
  | .forEachShard => { vars with statuses := [] }
  | .collect shardID =>
      match vars.reply with
      | some (.status status) => { vars with statuses := vars.statuses ++ [(shardID, status)] }
      | _ => vars
  | .returnStatuses => { vars with reply := some (.statuses vars.statuses) }
  | .propose shardID _ =>
      { vars with
        reply := match vars.shard with
          | none => some (notFound shardID)
          | some _ =>
              if answer.isLeader then some .done else some (.error "not leader".toUTF8.toList) }
  | .start shardID _ =>
      { vars with
        reply := match data.lookup shardID with
          | none => some .done
          | some _ => some (shardError shardID " already started") }
  | .stop shardID =>
      { vars with
        reply := match data.lookup shardID with
          | none => some (notFound shardID)
          | some _ => some .done }
  | .getState => { vars with term := answer.term, isLeader := answer.isLeader }
  | .tick => vars
  | .track _ => vars
  | .update => vars

/-- What an operation does to the manager. -/
def writeData (data : ManagerData) (vars : Variables) : ManagerOp -> ManagerData
  | .start shardID peers =>
      match data.lookup shardID with
      | none => data.addShard (data.newShard shardID peers)
      | some _ => data
  | .stop shardID =>
      match data.lookup shardID with
      | none => data
      | some shard => data.removeShard shardID shard
  | .update =>
      match vars.shard with
      | none => data
      | some shard => data.updateLeader shard vars.term vars.isLeader
  | _ => data

/-- How a method goes on behind an operation: the loop over the shards calls
`GetShardStatus` for each of them, and `trackLeader` ends when its shard is gone
or shut down. -/
def continuation (data : ManagerData) (vars : Variables) : ManagerOp -> List (Instr ManagerOp)
  | .forEachShard => data.shards.flatMap fun entry => visitShard entry.1
  | .track shardID =>
      match vars.shard.bind fun shard => data.heap[shard]? with
      | none => []
      | some shard => if shard.shutdown then [] else updateAndLoop shardID
  | _ => []

/-- `StartShard` starts the loop that follows the leader. -/
def spawned (data : ManagerData) : ManagerOp -> List (List (Instr ManagerOp))
  | .start shardID _ =>
      match data.lookup shardID with
      | none => [trackLeader shardID]
      | some _ => []
  | _ => []

/-- The map is read under a lock and changed under the write lock. -/
def admits : ManagerOp -> Nat -> Bool -> Bool
  | .lookup _, reads, _ => decide (0 < reads)
  | .readLeader _, reads, _ => decide (0 < reads)
  | .readStatus _, reads, _ => decide (0 < reads)
  | .readChannel _, reads, _ => decide (0 < reads)
  | .forEachShard, reads, writes => decide (0 < reads) && !writes
  | .start _ _, _, writes => writes
  | .stop _, _, writes => writes
  | .update, _, writes => writes
  | .track _, reads, writes => decide (reads = 0) && !writes
  | .collect _, _, _ => true
  | .returnStatuses, _, _ => true
  | .propose _ _, _, _ => true
  | .tick, _, _ => true
  | .getState, _, _ => true

/-- The loop of `GetAllShardStatuses` takes the lock again for each shard of the
map. -/
def nests (data : ManagerData) : ManagerOp -> Bool
  | .forEachShard => !data.shards.isEmpty
  | _ => false

/-! ## The programs are well formed -/

theorem wellFormed_visitShards {reads : Nat} (shards : List (ShardID × Nat))
    {rest : List (Instr ManagerOp)} (formed : wellFormed admits reads false rest = true) :
    wellFormed admits reads false ((shards.flatMap fun entry => visitShard entry.1) ++ rest) =
        true := by
  induction shards with
  | nil => exact formed
  | cons entry shards ih =>
      rw [List.flatMap_cons, List.append_assoc]
      simpa [visitShard, getShardStatus, wellFormed, admits] using ih

theorem wellFormed_updateAndLoop (shardID : ShardID) {rest : List (Instr ManagerOp)}
    (formed : wellFormed admits 0 false rest = true) :
    wellFormed admits 0 false (updateAndLoop shardID ++ rest) = true := by
  simpa [updateAndLoop, trackLeader, wellFormed, admits] using formed

/-- The machine of the manager. -/
def manager : Machine ManagerData Variables ManagerOp NodeAnswer where
  fresh := ⟨none, 0, false, [], none⟩
  exec answer data vars op :=
    ⟨writeData data vars op, readVariables answer data vars op, continuation data vars op,
      spawned data op⟩
  admits := admits
  nests := nests
  balanced := by
    intro answer data vars op reads writes rest admitted formed
    cases op with
    | forEachShard =>
        rw [admits, Bool.and_eq_true, Bool.not_eq_true'] at admitted
        rw [admitted.2] at formed ⊢
        exact wellFormed_visitShards data.shards formed
    | track shardID =>
        rw [admits, Bool.and_eq_true, decide_eq_true_eq, Bool.not_eq_true'] at admitted
        rw [admitted.1, admitted.2] at formed ⊢
        simp only [continuation]
        split
        · exact formed
        · split
          · exact formed
          · exact wellFormed_updateAndLoop shardID formed
    | lookup | readLeader | readStatus | readChannel | collect | returnStatuses | propose
      | start | stop | tick
      | getState | update => exact formed
  spawns := by
    intro answer data vars op program member
    cases op with
    | start shardID peers =>
        simp only [spawned] at member
        split at member
        · cases List.mem_singleton.mp member
          rfl
        · cases member
    | lookup | readLeader | readStatus | readChannel | forEachShard | collect | returnStatuses
      | propose | stop | tick
      | track | getState | update => cases member
  guarded := by
    intro answer data vars op reads admitted
    cases op with
    | start | stop | update => cases admitted
    | lookup | readLeader | readStatus | readChannel | forEachShard | collect | returnStatuses
      | propose | tick
      | track | getState => rfl
  plain := by
    intro answer data vars op reads rest plain admitted settled
    cases op with
    | forEachShard =>
        rw [nests, Bool.not_eq_false', List.isEmpty_iff] at plain
        simpa only [continuation, plain, List.flatMap_nil, List.nil_append] using settled
    | track shardID => cases admitted
    | lookup | readLeader | readStatus | readChannel | collect | returnStatuses | propose
      | start | stop | tick
      | getState | update => exact settled

/-! ## Calls and deadlocks -/

/-- The calls that clients make. -/
inductive Method where
  | startShard (shardID : ShardID) (peers : List Bytes)
  | stopShard (shardID : ShardID)
  | getShardLeader (shardID : ShardID)
  | proposeToShard (shardID : ShardID) (command : Bytes)
  | getShardStatus (shardID : ShardID)
  | getAllShardStatuses
  | getApplyChannel (shardID : ShardID)

def Method.program : Method -> List (Instr ManagerOp)
  | .startShard shardID peers => Sharding.startShard shardID peers
  | .stopShard shardID => Sharding.stopShard shardID
  | .getShardLeader shardID => Sharding.getShardLeader shardID
  | .proposeToShard shardID command => Sharding.proposeToShard shardID command
  | .getShardStatus shardID => Sharding.getShardStatus shardID
  | .getAllShardStatuses => Sharding.getAllShardStatuses
  | .getApplyChannel shardID => Sharding.getApplyChannel shardID

theorem Method.wellFormed_program (method : Method) :
    wellFormed admits 0 false method.program = true := by
  cases method <;> rfl

/-- A client calls a method, or a thread makes a step. -/
inductive ManagerEvent where
  | call (method : Method)
  | step (thread : Nat) (answer : NodeAnswer)

def ManagerEvent.toEvent : ManagerEvent -> Event ManagerOp NodeAnswer
  | .call method => .call method.program
  | .step thread answer => .step thread answer

/-- `NewMultiRaftManager`. -/
def newMultiRaftManager (config : MultiRaftConfig) : State ManagerData Variables ManagerOp :=
  ⟨⟨[], [], config⟩, []⟩

/-- The manager never deadlocks in a run in which no call asks for the write lock
while `GetAllShardStatuses` has a call of `GetShardStatus` ahead. -/
theorem manager_never_deadlocks (config : MultiRaftConfig) (events : List ManagerEvent)
    (timely : (newMultiRaftManager config).timelyRun manager
      (events.map ManagerEvent.toEvent) = true) :
    ¬ ((newMultiRaftManager config).run manager (events.map ManagerEvent.toEvent)).Deadlocked := by
  refine ((State.orderly_empty manager ⟨[], [], config⟩).run ?_ timely).not_deadlocked
  intro program inside
  rcases List.mem_map.mp inside with ⟨event, _, same⟩
  cases event with
  | call method =>
      cases same
      exact method.wellFormed_program
  | step thread answer => cases same

/-- Steps of some threads, with a node that answers that it leads in term 1. -/
def steps (threads : List Nat) : List ManagerEvent :=
  threads.map fun thread => .step thread ⟨1, true⟩

/-- A shard is started, its loop comes to the write lock, and all statuses are
asked for. -/
def startAndAsk : List ManagerEvent :=
  .call (.startShard 0 []) :: steps [0, 0, 0, 0, 1, 1, 1, 1, 1, 1] ++ [.call .getAllShardStatuses]

/-- The statuses are read before the loop asks for the write lock. -/
theorem manager_never_deadlocks_in_turn :
    ¬ ((newMultiRaftManager ⟨9000, 0⟩).run manager
      ((startAndAsk ++ steps [2, 2, 2, 2, 2, 2, 1]).map ManagerEvent.toEvent)).Deadlocked :=
  manager_never_deadlocks ⟨9000, 0⟩ (startAndAsk ++ steps [2, 2, 2, 2, 2, 2, 1]) (by decide +kernel)

/-- The loop asks for the write lock when the statuses are about to be read. -/
theorem manager_deadlocks :
    ((newMultiRaftManager ⟨9000, 0⟩).run manager
      ((startAndAsk ++ steps [2, 2, 1, 2]).map ManagerEvent.toEvent)).Deadlocked := by
  decide +kernel

end Sharding
end KVStore
