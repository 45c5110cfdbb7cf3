import KVStore.Raft.Applied
import KVStore.Raft.Validity
import KVStore.Server.Replicated

namespace KVStore
namespace Server

open Engine Bindings Raft Raft.Cluster Function

variable {P : Platform}

/-!
# The replicated store

`cmd/distributed_server/main.go` as a whole: the nodes of a cluster, the clients
that are connected to them, and on every node an engine that a goroutine feeds with
the committed commands.  A `GET` is answered by the engine of the node that the
client is connected to; nobody asks the leader.

The engines are independent of each other.  They have their own clocks, evict on
their own, and are at different places of the log.  What they have in common is the
log: where no message was lost, each engine holds what the first commands of one
sequence have left, as many as its node is through with.

A call on an engine is one step here.
-/

/-! ## The nodes with their engines -/

/-- The messages that the state machine has taken from the channel. -/
def taken (ch : ApplyCh) : List ApplyMsg := ch.sent.take (ch.sent.length - ch.buffer.length)

/-- The key that a line asks for. -/
def askedKey (toUpper : Bytes -> Bytes) (content : Bytes) : Option Bytes :=
  match Words.fields (Words.trimSpace content) with
  | first :: key :: _ => if toUpper first = text "GET" then some key else none
  | _ => none

/-- The engine after a call. -/
def EngineCall.run (handle : Option (EngineHandle P)) (moment : Moment) :
    EngineCall -> Option (EngineHandle P)
  | .set key value ttl => (GoEngine.set handle key value ttl moment).1
  | .get key => (GoEngine.get handle key moment).1
  | .delete key => (GoEngine.delete handle key).1

/-- The call of the C interface. -/
def EngineCall.api (moment : Moment) : EngineCall -> ApiCall
  | .set key value ttl => .set (some key) (some value) (if ttl > 0 then ttl else 0) moment.now
  | .get key =>
      .get (some key) (some moment.buffer) (some GoEngine.bufSize) moment.now moment.accessNow
        moment.finalNow
  | .delete key => .delete (some key) moment.now

theorem EngineCall.run_some (handle : EngineHandle P) (moment : Moment) (call : EngineCall) :
    call.run (some handle) moment = (call.api moment).apply (some handle) := by
  cases call <;> rfl

/-- What a call does to the map of the engine. -/
def EngineCall.change (now : Clock) : EngineCall -> Change Bytes TimedEntry
  | .set key value ttl =>
      ApiCall.change (.set (some key) (some value) (if ttl > 0 then ttl else 0) now)
  | .get _ => Change.keep
  | .delete key => ApiCall.change (.delete (some key) now)

theorem EngineCall.change_api (moment : Moment) (call : EngineCall) :
    (call.api moment).change = call.change moment.now := by
  cases call <;> rfl

/-- What a committed command does to the map of an engine, when it is applied at a
reading of the clock. -/
def commandChange (toUpper : Bytes -> Bytes) (command : Bytes) (now : Clock) :
    Change Bytes TimedEntry :=
  match applyCommand toUpper command with
  | some call => call.change now
  | none => Change.keep

/-- `done` counts the messages that the goroutine of the node is through with.
`readings` and `calls` are a history: the reading of the clock at each of these
messages, and the calls on the engine. -/
structure Replicas (P : Platform) where
  servers : Servers
  engines : NodeID -> Option (EngineHandle P)
  done : NodeID -> Nat
  readings : NodeID -> List Clock
  calls : NodeID -> List ApiCall

inductive ReplicaEvent where
  | raft (event : Event)
  | accept (id : NodeID)
  | line (number : Nat) (content : Bytes) (moment : Moment)
  | wake (number : Nat)
  | apply (id : NodeID) (moment : Moment)

namespace Replicas

def init (config : ClusterConfig) (handle : EngineHandle P) : Replicas P :=
  ⟨Servers.init config, fun _ => some handle, fun _ => 0, fun _ => [], fun _ => []⟩

def node (s : Replicas P) (id : NodeID) : Node := s.servers.cluster.nodes id

/-- What the engine of a node answers. -/
def lookup (s : Replicas P) (id : NodeID) (moment : Moment) (key : Bytes) : Option Bytes :=
  (GoEngine.get (s.engines id) key moment).2.toOption

/-- Only clients propose, and the goroutine of a node asks for a message when it is
through with the last one. -/
def possible (s : Replicas P) : Event -> Bool
  | .propose _ _ => false
  | .receive id =>
      decide ((s.node id).applyCh.receivers = 0 ∧ s.done id = (taken (s.node id).applyCh).length)
  | _ => true

/-- What an event is to the servers. -/
def serverEvent (s : Replicas P) : ReplicaEvent -> Option ServerEvent
  | .raft event => if s.possible event then some (.raft event) else none
  | .accept id => some (.accept id)
  | .line number content moment =>
      s.servers.connections[number]?.map fun client =>
        .line number content (s.lookup client.node moment)
  | .wake number => some (.wake number)
  | .apply _ _ => none

/-- The message that the goroutine of a node has in hand. -/
def message (s : Replicas P) (id : NodeID) : Option ApplyMsg :=
  (taken (s.node id).applyCh)[s.done id]?

/-- The call on an engine that an event makes. -/
def engineCall (toUpper : Bytes -> Bytes) (s : Replicas P) :
    ReplicaEvent -> Option (NodeID × EngineCall × Moment)
  | .line number content moment =>
      match s.servers.connections[number]? with
      | some client =>
          if client.pending = none then
            (askedKey toUpper content).map fun key => (client.node, .get key, moment)
          else none
      | none => none
  | .apply id moment =>
      match s.message id with
      | some msg => (applyCommand toUpper msg.command).map fun call => (id, call, moment)
      | none => none
  | _ => none

/-- The node whose goroutine is done with a message, and the reading of the clock. -/
def applies (s : Replicas P) : ReplicaEvent -> Option (NodeID × Clock)
  | .apply id moment => if (s.message id).isSome then some (id, moment.now) else none
  | _ => none

def step (toUpper : Bytes -> Bytes) (config : ClusterConfig) (s : Replicas P)
    (event : ReplicaEvent) : Replicas P where
  servers :=
    match s.serverEvent event with
    | some caused => s.servers.step (goStrings toUpper) config caused
    | none => s.servers
  engines :=
    match s.engineCall toUpper event with
    | some (id, call, moment) => update s.engines id (call.run (s.engines id) moment)
    | none => s.engines
  calls :=
    match s.engineCall toUpper event with
    | some (id, call, moment) => update s.calls id (s.calls id ++ [call.api moment])
    | none => s.calls
  done :=
    match s.applies event with
    | some (id, _) => update s.done id (s.done id + 1)
    | none => s.done
  readings :=
    match s.applies event with
    | some (id, now) => update s.readings id (s.readings id ++ [now])
    | none => s.readings

def run (toUpper : Bytes -> Bytes) (config : ClusterConfig) (handle : EngineHandle P)
    (events : List ReplicaEvent) :
    Replicas P := events.foldl (step toUpper config) (init config handle)

theorem run_snoc (toUpper : Bytes -> Bytes) (config : ClusterConfig) (handle : EngineHandle P)
    (events : List ReplicaEvent) (event : ReplicaEvent) :
    run toUpper config handle (events ++ [event]) =
        (run toUpper config handle events).step toUpper config event :=
  List.foldl_concat ..

/-- The commands that a node is through with. -/
def executed (s : Replicas P) (id : NodeID) : List Bytes :=
  ((s.node id).applyCh.sent.take (s.done id)).map ApplyMsg.command

/-! ## The run of the cluster -/

/-- The events of the servers in a run. -/
def serverEvents (toUpper : Bytes -> Bytes) (config : ClusterConfig) :
    Replicas P -> List ReplicaEvent -> List ServerEvent
  | _, [] => []
  | s, event :: events =>
      (s.serverEvent event).toList ++
      serverEvents toUpper config (s.step toUpper config event) events

theorem serverEvents_append (toUpper : Bytes -> Bytes) (config : ClusterConfig) (s : Replicas P)
    (first second : List ReplicaEvent) :
    serverEvents toUpper config s (first ++ second) = serverEvents toUpper config s first ++
      serverEvents toUpper config (first.foldl (step toUpper config) s) second := by
  induction first generalizing s with
  | nil => rfl
  | cons event first ih =>
      rw [List.cons_append, serverEvents, serverEvents, ih, List.append_assoc]
      rfl

theorem servers_foldl (toUpper : Bytes -> Bytes) (config : ClusterConfig) (s : Replicas P)
    (events : List ReplicaEvent) :
    (events.foldl (step toUpper config) s).servers =
      (serverEvents toUpper config s events).foldl
      (Servers.step (goStrings toUpper) config) s.servers := by
  induction events generalizing s with
  | nil => rfl
  | cons event events ih =>
      rw [List.foldl_cons, ih, serverEvents, List.foldl_append]
      congr 1
      simp only [step]
      cases s.serverEvent event <;> rfl

variable (toUpper : Bytes -> Bytes) (config : ClusterConfig) (handle : EngineHandle P)

/-- The events of the cluster in a run. -/
def raftEvents (events : List ReplicaEvent) : List Event :=
  Servers.clusterEvents (goStrings toUpper) config (Servers.init config)
    (serverEvents toUpper config (init config handle) events)

theorem cluster_run (events : List ReplicaEvent) :
    (run toUpper config handle events).servers.cluster =
        Cluster.run config (raftEvents toUpper config handle events) := by
  have servers := servers_foldl toUpper config (init config handle) events
  rw [run, servers]
  exact Servers.cluster_run (goStrings toUpper) config _

theorem raftEvents_append (first second : List ReplicaEvent) : Exists fun more =>
    raftEvents toUpper config handle (first ++ second) =
        raftEvents toUpper config handle first ++ more := by
  rw [raftEvents, serverEvents_append, Servers.clusterEvents_append]
  exact ⟨_, rfl⟩

/-- Elections are careful, and there is room on the channels for what is committed. -/
structure Careful (events : List ReplicaEvent) : Prop where
  elections : Along config careful (Cluster.init config) (raftEvents toUpper config handle events)
  messages : Along config delivers (Cluster.init config) (raftEvents toUpper config handle events)

/-- The commands of the entries that a node has committed. -/
def settled (s : Replicas P) (id : NodeID) : List Bytes :=
  ((s.node id).log.take (s.node id).commitIndex).map LogEntry.command

section

variable {toUpper config handle}

theorem Careful.of_append {first second : List ReplicaEvent}
    (careful : Careful toUpper config handle (first ++ second)) :
    Careful toUpper config handle first := by
  rcases raftEvents_append toUpper config handle first second with ⟨more, whole⟩
  rcases careful with ⟨elections, messages⟩
  rw [whole, along_append] at elections messages
  exact ⟨elections.1, messages.1⟩

variable {events : List ReplicaEvent}

theorem Careful.take (careful : Careful toUpper config handle events) (count : Nat) :
    Careful toUpper config handle (events.take count) := by
  rw [← List.take_append_drop count events] at careful
  exact careful.of_append

theorem commands_appliedMessages (log : List LogEntry) (count : Nat) :
    (appliedMessages log count).map ApplyMsg.command = (log.take count).map LogEntry.command := by
  refine List.ext_getElem? fun position => ?_
  rw [appliedMessages, List.getElem?_map, List.getElem?_mapIdx, List.getElem?_map, Option.map_map]
  rfl

/-- The messages on the channel are the committed commands. -/
theorem Careful.sent (careful : Careful toUpper config handle events) (id : NodeID) :
    (((run toUpper config handle events).node id).applyCh.sent).map ApplyMsg.command =
      (run toUpper config handle events).settled id := by
  have streams := streams_run _ careful.messages id
  rw [← cluster_run] at streams
  change Streams ((run toUpper config handle events).node id) at streams
  rw [streams.sent, commands_appliedMessages, streams.applied]
  rfl

theorem Careful.executed (careful : Careful toUpper config handle events) (id : NodeID) :
    (run toUpper config handle events).executed id =
      ((run toUpper config handle events).settled id).take
      ((run toUpper config handle events).done id) := by
  rw [← careful.sent, Replicas.executed, List.map_take]

/-- A node keeps what it has committed. -/
theorem Careful.settled_prefix {first second : List ReplicaEvent}
    (careful : Careful toUpper config handle (first ++ second)) (id : NodeID) :
    (run toUpper config handle first).settled id <+:
      (run toUpper config handle (first ++ second)).settled id := by
  rcases raftEvents_append toUpper config handle first second with ⟨more, whole⟩
  have elections := careful.elections
  rw [whole] at elections
  have grows := committed_run elections id
  rw [← whole, ← cluster_run, ← cluster_run] at grows
  exact grows.map LogEntry.command

/-- Any two nodes, at whatever moments, have committed parts of one sequence. -/
theorem Careful.settled_comparable (careful : Careful toUpper config handle events)
    (moment later : Nat) (id other : NodeID) :
    (run toUpper config handle (events.take moment)).settled id <+:
        (run toUpper config handle (events.take later)).settled other ∨
      (run toUpper config handle (events.take later)).settled other <+:
        (run toUpper config handle (events.take moment)).settled id := by
  have early : forall count, Exists fun length =>
      raftEvents toUpper config handle (events.take count) =
          (raftEvents toUpper config handle events).take length := by
    intro count
    rcases raftEvents_append toUpper config handle (events.take count)
      (events.drop count) with ⟨more, whole⟩
    rw [List.take_append_drop] at whole
    exact ⟨_, by rw [whole, List.take_left]⟩
  have same : forall count id, (run toUpper config handle (events.take count)).settled id =
      (((run toUpper config handle (events.take count)).node id).log.take
        ((run toUpper config handle (events.take count)).node id).lastApplied).map
            LogEntry.command := by
    intro count id
    have streams := streams_run _ (careful.take count).messages id
    rw [← cluster_run] at streams
    exact congrArg (fun bound => (List.take bound _).map LogEntry.command) streams.applied.symm
  rcases safe_run careful.elections with ⟨a, safe⟩
  rcases early moment with ⟨first, isFirst⟩
  rcases early later with ⟨second, isSecond⟩
  rcases safe.applied first id with ⟨_, here⟩
  rcases safe.applied second other with ⟨_, there⟩
  rw [← isFirst, ← cluster_run] at here
  rw [← isSecond, ← cluster_run] at there
  rw [same, same]
  exact (here.comparable quorum_meet safe.consensus there).imp (fun below => below.map _)
    (fun above => above.map _)

/-! ## The engines -/

theorem after_keep (changes : List (Change Bytes TimedEntry)) :
    after (changes ++ [Change.keep]) = after changes := by
  rw [after_snoc]
  funext key
  rfl

variable {id : NodeID}

theorem engine_step {s : Replicas P} (engine : s.engines id = runApi (some handle) (s.calls id))
    (event : ReplicaEvent) : (s.step toUpper config event).engines id =
      runApi (some handle) ((s.step toUpper config event).calls id) := by
  simp only [step]
  cases s.engineCall toUpper event with
  | none => exact engine
  | some made =>
      rcases made with ⟨caller, call, moment⟩
      simp only
      rcases eq_or_ne id caller with rfl | different
      · rw [update_self, update_self, runApi, List.foldl_append, engine, runApi_some,
          EngineCall.run_some]
        exact congrArg (fun reached => (call.api moment).apply reached) (runApi_some handle _).symm
      · rw [update_of_ne different, update_of_ne different]
        exact engine

/-- The goroutine of a node is behind the channel, and the engine of the node holds
what the commands have left that the goroutine is through with. -/
structure Consistent (toUpper : Bytes -> Bytes) (config : ClusterConfig) (handle : EngineHandle P)
    (events : List ReplicaEvent) (id : NodeID) : Prop where
  engine : (run toUpper config handle events).engines id =
    runApi (some handle) ((run toUpper config handle events).calls id)
  behind : (run toUpper config handle events).done id ≤
    ((run toUpper config handle events).settled id).length
  stamped : ((run toUpper config handle events).readings id).length =
    (run toUpper config handle events).done id
  map : after (((run toUpper config handle events).calls id).map ApiCall.change) =
    after (List.zipWith (commandChange toUpper) ((run toUpper config handle events).executed id)
      ((run toUpper config handle events).readings id))

/-- The commands that the goroutine is through with stay the same as long as it is
through with equally many. -/
theorem Consistent.executed_snoc {event : ReplicaEvent}
    (consistent : Consistent toUpper config handle events id)
    (careful : Careful toUpper config handle (events ++ [event])) :
    ((run toUpper config handle (events ++ [event])).settled id).take
    ((run toUpper config handle events).done id) =
      (run toUpper config handle events).executed id := by
  rcases careful.settled_prefix id with ⟨more, whole⟩
  rw [← whole, List.take_append_of_le_length consistent.behind, careful.of_append.executed]

theorem Consistent.behind_snoc {event : ReplicaEvent}
    (consistent : Consistent toUpper config handle events id)
    (careful : Careful toUpper config handle (events ++ [event])) :
    (run toUpper config handle events).done id ≤
    ((run toUpper config handle (events ++ [event])).settled id).length :=
  Nat.le_trans consistent.behind (careful.settled_prefix id).length_le

/-- An event with which the goroutine of the node is not through with a message. -/
theorem Consistent.quiet {event : ReplicaEvent}
    (consistent : Consistent toUpper config handle events id)
    (careful : Careful toUpper config handle (events ++ [event]))
    (calm : forall now, (run toUpper config handle events).applies event ≠ some (id, now))
    (reads : forall call moment, (run toUpper config handle events).engineCall toUpper event =
      some (id, call, moment) -> call.change moment.now = Change.keep) :
    Consistent toUpper config handle (events ++ [event]) id := by
  have engine : ((run toUpper config handle events).step toUpper config event).engines id = _ :=
    engine_step consistent.engine event
  have steps := run_snoc toUpper config handle events event
  have done : (run toUpper config handle (events ++ [event])).done id =
      (run toUpper config handle events).done id ∧
      (run toUpper config handle (events ++ [event])).readings id =
          (run toUpper config handle events).readings id := by
    rw [steps]
    simp only [step]
    cases applied : (run toUpper config handle events).applies event with
    | none => exact ⟨rfl, rfl⟩
    | some pair =>
        rcases pair with ⟨other, now⟩
        have different : id ≠ other := by
          rintro rfl
          exact calm now applied
        exact ⟨update_of_ne different _ _, update_of_ne different _ _⟩
  have calls : after (((run toUpper config handle (events ++ [event])).calls id).map ApiCall.change) =
      after (((run toUpper config handle events).calls id).map ApiCall.change) := by
    rw [steps]
    simp only [step]
    cases made : (run toUpper config handle events).engineCall toUpper event with
    | none => rfl
    | some parts =>
        rcases parts with ⟨caller, call, moment⟩
        simp only
        rcases eq_or_ne id caller with rfl | different
        · rw [update_self, List.map_append, List.map_singleton, EngineCall.change_api,
            reads call moment made, after_keep]
        · rw [update_of_ne different]
  have executed := consistent.executed_snoc careful
  rw [← done.1, ← careful.executed] at executed
  refine ⟨?_, ?_, ?_, ?_⟩
  · rw [steps]
    exact engine
  · rw [done.1]
    exact consistent.behind_snoc careful
  · rw [done.1, done.2]
    exact consistent.stamped
  · rw [calls, executed, done.2]
    exact consistent.map

/-- The goroutine of the node is through with a message. -/
theorem Consistent.applied {moment : Moment} {msg : ApplyMsg}
    (consistent : Consistent toUpper config handle events id)
    (careful : Careful toUpper config handle (events ++ [.apply id moment]))
    (held : (run toUpper config handle events).message id = some msg) :
    Consistent toUpper config handle (events ++ [.apply id moment]) id := by
  have engine :
      ((run toUpper config handle events).step toUpper config (.apply id moment)).engines id = _ :=
    engine_step consistent.engine _
  have steps := run_snoc toUpper config handle events (.apply id moment)
  have there : ((run toUpper config handle (events ++ [.apply id moment])).settled id)[
      (run toUpper config handle events).done id]? = some msg.command := by
    have sent : ((run toUpper config handle events).node
        id).applyCh.sent[(run toUpper config handle events).done id]? =
        some msg := by
      rw [message, taken, List.getElem?_take] at held
      split at held
      · exact held
      · cases held
    rcases careful.settled_prefix id with ⟨more, whole⟩
    rw [← whole, List.getElem?_append_left, ← careful.of_append.sent, List.getElem?_map, sent]
    · rfl
    · rw [← careful.of_append.sent, List.length_map]
      exact (List.getElem?_eq_some_iff.mp sent).1
  have applies : (run toUpper config handle events).applies (.apply id moment) =
      some (id, moment.now) := by
    rw [Replicas.applies, held]
    rfl
  have done : (run toUpper config handle (events ++ [.apply id moment])).done id =
        (run toUpper config handle events).done id + 1 ∧
      (run toUpper config handle (events ++ [.apply id moment])).readings id =
        (run toUpper config handle events).readings id ++ [moment.now] := by
    rw [steps]
    simp only [step, applies]
    exact ⟨update_self _ _ _, update_self _ _ _⟩
  have executed : (run toUpper config handle (events ++ [.apply id moment])).executed id =
      (run toUpper config handle events).executed id ++ [msg.command] := by
    rw [careful.executed, done.1, List.take_add_one, there, consistent.executed_snoc careful]
    rfl
  have even : ((run toUpper config handle events).executed id).length =
      ((run toUpper config handle events).readings id).length := by
    rw [careful.of_append.executed, consistent.stamped, List.length_take_of_le consistent.behind]
  have calls : after (((run toUpper config handle (events ++ [.apply id moment])).calls id).map
      ApiCall.change) =
      (commandChange toUpper msg.command moment.now).apply
        (after (((run toUpper config handle events).calls id).map ApiCall.change)) := by
    rw [steps]
    simp only [step, engineCall, held, commandChange]
    cases applyCommand toUpper msg.command with
    | none =>
        funext key
        rfl
    | some call =>
        simp only [Option.map_some]
        rw [update_self, List.map_append, List.map_singleton, EngineCall.change_api, after_snoc]
  refine ⟨?_, ?_, ?_, ?_⟩
  · rw [steps]
    exact engine
  · rw [done.1]
    exact (List.getElem?_eq_some_iff.mp there).1
  · rw [done.1, done.2, List.length_append, consistent.stamped, List.length_singleton]
  · rw [calls, executed, done.2, List.zipWith_append even, consistent.map]
    exact (after_snoc _ _).symm

theorem consistent_run (careful : Careful toUpper config handle events) (id : NodeID) :
    Consistent toUpper config handle events id := by
  induction events using List.reverseRecOn with
  | nil => exact ⟨rfl, Nat.zero_le _, rfl, rfl⟩
  | append_singleton events event ih =>
      have before := ih careful.of_append
      cases event with
      | apply other moment =>
          cases held : (run toUpper config handle events).message other with
          | none =>
              refine before.quiet careful (fun now applied => ?_) (fun call moment made => ?_)
              · simp only [applies, held, Option.isSome_none, Bool.false_eq_true, if_false,
                  reduceCtorEq] at applied
              · simp only [engineCall, held, reduceCtorEq] at made
          | some msg =>
              rcases eq_or_ne id other with rfl | different
              · exact before.applied careful held
              · refine before.quiet careful (fun now applied => ?_) (fun call moment made => ?_)
                · simp only [applies, held, Option.isSome_some, if_true, Option.some.injEq,
                    Prod.mk.injEq] at applied
                  exact different applied.1.symm
                · simp only [engineCall, held, Option.map_eq_some_iff, Prod.mk.injEq] at made
                  rcases made with ⟨_, _, same, _⟩
                  exact absurd same.symm different
      | line number content moment =>
          refine before.quiet careful (fun now applied => nomatch applied)
            (fun call moment made => ?_)
          simp only [engineCall] at made
          split at made
          · split at made
            · rcases Option.map_eq_some_iff.mp made with ⟨key, _, same⟩
              cases same
              rfl
            · cases made
          · cases made
      | _ =>
          exact before.quiet careful (fun now applied => nomatch applied)
            (fun call moment made => nomatch made)

/-! ## What a `GET` returns -/

/-- A value that is stored fits the buffer of a `GET`. -/
theorem length_of_bound {call : ApiCall} {key : Bytes} {entry : TimedEntry}
    (binds : call.change.binds = some (key, entry)) : entry.1.length ≤ GoEngine.bufSize := by
  unfold ApiCall.change at binds
  split at binds
  · split at binds
    · cases binds
    next small =>
      cases binds
      exact Nat.not_lt.mp small
  · cases binds
  · cases binds

theorem get_of_returns {h : EngineHandle P} {key value : Bytes} {ask : Moment}
    (returns : (engineGet (some h) (some key) (some ask.buffer) (some GoEngine.bufSize) ask.now
      ask.accessNow ask.finalNow).Returns value ask.buffer GoEngine.bufSize)
    (short : value.length ≤ GoEngine.bufSize) :
    (GoEngine.get (some h) key ask).2.toOption = some value := by
  rcases returns with ⟨length, outcome⟩
  rw [if_pos short] at outcome
  simp only [GoEngine.get, outcome.1, if_true, outcome.2, length, Option.getD_some, List.take_left]
  rfl

theorem get_of_missed {h : EngineHandle P} {key : Bytes} {ask : Moment}
    (missed : (engineGet (some h) (some key) (some ask.buffer) (some GoEngine.bufSize) ask.now
      ask.accessNow ask.finalNow).code = -1) :
    (GoEngine.get (some h) key ask).2.toOption = none := by
  simp only [GoEngine.get, missed]
  rfl

/-- A `GET` is answered from the commands that the node is through with. -/
theorem lookup_iff (created : handle.table = defaultConfig.fresh P none)
    (careful : Careful toUpper config handle events) (id : NodeID) {ask : Moment}
    (past : forall reading, reading ∈ ((run toUpper config handle events).calls id).flatMap
      ApiCall.readings -> reading ≤ ask.now)
    (first : ask.now ≤ ask.accessNow) (second : ask.accessNow ≤ ask.finalNow)
    (silent : quiet handle.table
      (tableCallsOf handle.table ((run toUpper config handle events).calls id)) = true)
    (key value : Bytes) :
    (run toUpper config handle events).lookup id ask key = some value <->
      Exists fun ttl => Exists fun now =>
        Latest (List.zipWith (commandChange toUpper) ((run toUpper config handle events).executed id)
          ((run toUpper config handle events).readings id)) key (value, ttl, now) ∧
          Live ask.finalNow (value, ttl, now) := by
  have consistent := consistent_run careful id
  have wf : handle.table.WF := created ▸ defaultConfig.wf_fresh none
  have start : Agrees handle.table (fun _ => none) ask.now := fun key =>
    Or.inl (created ▸ defaultConfig.view_fresh none key)
  have agrees : Agrees _ (after (((run toUpper config handle events).calls id).map ApiCall.change))
      ask.now :=
    start.runCalls wf past silent
  have reachedWf := wf_runCalls wf
    (tableCallsOf handle.table ((run toUpper config handle events).calls id))
  rw [lookup, consistent.engine, runApi_some]
  generalize runCalls handle.table
    (tableCallsOf handle.table ((run toUpper config handle events).calls id)) = t at agrees reachedWf
  have found : forall {entry : TimedEntry},
      after (((run toUpper config handle events).calls id).map ApiCall.change) key =
      some entry -> Live ask.finalNow entry ->
      (GoEngine.get (some { handle with table := t }) key ask).2.toOption = some entry.1 := by
    intro entry bound live
    have stillLive := live.anti (le_trans first second)
    rcases after_eq_some_iff.mp bound with ⟨earlier, change, later, split, binds, _⟩
    have member : change ∈ ((run toUpper config handle events).calls id).map ApiCall.change :=
      split ▸ List.mem_append_right _ List.mem_cons_self
    rcases List.mem_map.mp member with ⟨call, _, rfl⟩
    exact get_of_returns (engineGet_found reachedWf (agrees.held bound stillLive)
      (unexpired_stored_iff.mpr stillLive) (unexpired_stored_iff.mpr live) _ _ _)
        (length_of_bound binds)
  constructor
  · intro answer
    by_cases held : Exists fun entry : TimedEntry =>
        after (((run toUpper config handle events).calls id).map ApiCall.change) key = some entry ∧
          Live ask.finalNow entry
    · rcases held with ⟨⟨stored, ttl, now⟩, bound, live⟩
      cases (found bound live).symm.trans answer
      rw [consistent.map] at bound
      exact ⟨ttl, now, after_eq_some_iff.mp bound, live⟩
    · have missed : (GoEngine.get (some { handle with table := t }) key ask).2.toOption = none := by
        refine get_of_missed (engineGet_missed reachedWf (fun image bound _ unexpired => ?_) _ _ _)
        rcases agrees.bound bound with ⟨entry, isBound, rfl⟩
        exact held ⟨entry, isBound, unexpired_stored_iff.mp unexpired⟩
      cases missed.symm.trans answer
  · rintro ⟨ttl, now, latest, live⟩
    refine found ?_ live
    rw [consistent.map]
    exact after_eq_some_iff.mpr latest

/-! ## Where commands come from -/

/-- A client has asked for the command with a line, and the node of its connection
has proposed it. -/
def Asked (toUpper : Bytes -> Bytes) (config : ClusterConfig) (handle : EngineHandle P)
    (events : List ReplicaEvent) (command : Bytes) : Prop :=
  Exists fun count => Exists fun number => Exists fun content => Exists fun moment =>
      Exists fun client =>
    events[count]? = some (ReplicaEvent.line number content moment) ∧
      (run toUpper config handle (events.take count)).servers.connections[number]? = some client ∧
      Exists fun write => handleClient (goStrings toUpper)
        ((run toUpper config handle (events.take count)).node client.node)
        ((run toUpper config handle (events.take count)).lookup client.node moment) content =
          .proposed command write

theorem raftEvents_snoc (events : List ReplicaEvent) (event : ReplicaEvent) :
    raftEvents toUpper config handle (events ++ [event]) = raftEvents toUpper config handle events ++
      (((run toUpper config handle events).serverEvent event).bind fun caused =>
        (run toUpper config handle events).servers.clusterEvent (goStrings toUpper)
        caused).toList := by
  have servers := servers_foldl toUpper config (init config handle) events
  rw [raftEvents, serverEvents_append, Servers.clusterEvents_append]
  refine congrArg (raftEvents toUpper config handle events ++ ·) ?_
  change Servers.clusterEvents _ _ ((serverEvents toUpper config (init config handle) events).foldl
    (Servers.step (goStrings toUpper) config) (init config handle).servers) _ = _
  rw [← servers, serverEvents, serverEvents, List.append_nil]
  change Servers.clusterEvents _ _ (run toUpper config handle events).servers
    ((run toUpper config handle events).serverEvent event).toList = _
  cases (run toUpper config handle events).serverEvent event with
  | none => rfl
  | some caused => exact List.append_nil _

theorem asked_of_proposed {leader : NodeID} {command : Bytes}
    (proposed : Event.propose leader command ∈ raftEvents toUpper config handle events) :
    Asked toUpper config handle events command := by
  induction events using List.reverseRecOn with
  | nil => cases proposed
  | append_singleton events event ih =>
      rw [raftEvents_snoc] at proposed
      rcases List.mem_append.mp proposed with before | last
      · rcases ih before with ⟨count, number, content, moment, client, there, rest⟩
        have inside := (List.getElem?_eq_some_iff.mp there).1
        refine ⟨count, number, content, moment, client,
          (List.getElem?_append_left inside).trans there, ?_⟩
        rw [List.take_append_of_le_length (Nat.le_of_lt inside)]
        exact rest
      · have causes := Option.mem_toList.mp last
        rcases Option.bind_eq_some_iff.mp causes with ⟨caused, isCaused, isProposed⟩
        cases event with
        | raft event =>
            simp only [serverEvent] at isCaused
            split at isCaused
            next possible =>
              cases isCaused
              cases isProposed
              cases possible
            next => cases isCaused
        | accept id =>
            cases isCaused
            cases isProposed
        | wake number =>
            cases isCaused
            cases isProposed
        | apply id moment => cases isCaused
        | line number content moment =>
            rcases Option.map_eq_some_iff.mp isCaused with ⟨client, present, rfl⟩
            refine ⟨events.length, number, content, moment, client, List.getElem?_concat_length, ?_⟩
            rw [List.take_left]
            refine ⟨present, ?_⟩
            simp only [Servers.clusterEvent, present] at isProposed
            split at isProposed
            · cases isProposed
            · split at isProposed
              next made write handled =>
                cases isProposed
                exact ⟨write, handled⟩
              next => cases isProposed

end

/-- In every run of the replicated store with careful elections in which no message
is lost:  the commands that any two nodes are through with, be it at different
moments, are the beginnings of one sequence; each of them is a `SET` or a `DEL`
that a client has asked a leader for; and as long as its engine evicts nothing, a
node answers a `GET` with the value of the latest `SET` of the key among the
commands that it is through with, unless the key was deleted since or the time to
live of the value, counted from its application on this node, is over. -/
theorem replicas_follow_one_log (numThreads : Int) (memLimitBytes : Nat)
    (created : engineCreate P numThreads memLimitBytes = some handle) (events : List ReplicaEvent)
    (elections : Along config careful (Cluster.init config)
      (raftEvents toUpper config handle events))
    (messages : Along config delivers (Cluster.init config)
      (raftEvents toUpper config handle events)) :
    (forall moment later id other,
        (run toUpper config handle (events.take moment)).executed id <+:
            (run toUpper config handle (events.take later)).executed other ∨
          (run toUpper config handle (events.take later)).executed other <+:
            (run toUpper config handle (events.take moment)).executed id) ∧
      (forall id command, command ∈ (run toUpper config handle events).executed id ->
        Asked toUpper config handle events command) ∧
      forall id (ask : Moment),
        (forall reading, reading ∈ ((run toUpper config handle events).calls id).flatMap
          ApiCall.readings ->
          reading ≤ ask.now) -> ask.now ≤ ask.accessNow -> ask.accessNow ≤ ask.finalNow ->
        quiet handle.table (tableCallsOf handle.table ((run toUpper config handle events).calls id))
          = true ->
        forall key value, (run toUpper config handle events).lookup id ask key = some value <->
          Exists fun ttl => Exists fun now =>
            Latest (List.zipWith (commandChange toUpper)
              ((run toUpper config handle events).executed id)
              ((run toUpper config handle events).readings id)) key (value, ttl, now) ∧
              Live ask.finalNow (value, ttl, now) := by
  have careful : Careful toUpper config handle events := ⟨elections, messages⟩
  refine ⟨fun moment later id other => ?_, fun id command member => ?_, ?_⟩
  · rw [(careful.take moment).executed, (careful.take later).executed]
    have below := List.take_prefix ((run toUpper config handle (events.take moment)).done id)
      ((run toUpper config handle (events.take moment)).settled id)
    have also := List.take_prefix ((run toUpper config handle (events.take later)).done other)
      ((run toUpper config handle (events.take later)).settled other)
    rcases careful.settled_comparable moment later id other with shorter | longer
    · exact List.prefix_or_prefix_of_prefix (below.trans shorter) also
    · exact List.prefix_or_prefix_of_prefix below (also.trans longer)
  · rw [careful.executed] at member
    rcases List.mem_map.mp (List.mem_of_mem_take member) with ⟨entry, inside, rfl⟩
    have stored := List.mem_of_mem_take inside
    rw [node, cluster_run] at stored
    rcases (allProposed_run config _).nodes id entry stored with
      ⟨count, leader, command, there, _, _, rfl⟩
    exact asked_of_proposed (List.mem_of_getElem? there)
  · intro id ask past first second silent key value
    exact lookup_iff (table_of_created created) careful id past first second silent key value

/-- A moment at which the clock stands still. -/
def noon : Moment :=
  let reading : Clock := ⟨12, by decide⟩
  ⟨reading, reading, reading, []⟩

/-- A client sets a key on a leader, two peers store the entry, and the engine of the
leader takes it over. -/
def setOnLeader : List ReplicaEvent :=
  .accept [97] :: calmElection.map .raft ++ .line 0 (text "set k v") noon ::
    [.raft (.buildAppend 3), .raft (.buildAppend 4), .raft (.deliverAppend 3),
      .raft (.deliverAppend 4), .raft (.appendReply 3 0), .raft (.appendReply 4 0),
        .raft (.receive [97]), .apply [97] noon]

theorem replicas_follow_one_log_set :
    let handle : EngineHandle Platform.source := ⟨4, 1024, defaultConfig.fresh Platform.source none⟩
    (run asciiUpper fourNodes handle setOnLeader).lookup [97] noon (text "k") = some (text "v") ∧
      (run asciiUpper fourNodes handle setOnLeader).executed [98] = [] := by
  intro handle
  have along : Along fourNodes careful (Cluster.init fourNodes)
      (raftEvents asciiUpper fourNodes handle setOnLeader) ∧
      Along fourNodes delivers (Cluster.init fourNodes)
          (raftEvents asciiUpper fourNodes handle setOnLeader) := by
    decide +kernel
  have state : (run asciiUpper fourNodes handle setOnLeader).executed [97] = [text "set k v"] ∧
      (run asciiUpper fourNodes handle setOnLeader).readings [97] = [12] ∧
      (run asciiUpper fourNodes handle setOnLeader).executed [98] = [] ∧
      ((run asciiUpper fourNodes handle setOnLeader).calls [97]).flatMap ApiCall.readings = [12] ∧
      quiet handle.table (tableCallsOf handle.table
        ((run asciiUpper fourNodes handle setOnLeader).calls [97])) = true ∧
      applyCommand asciiUpper (text "set k v") = some (.set (text "k") (text "v") 0) := by
    decide +kernel
  rcases state with ⟨executed, readings, behind, past, silent, call⟩
  have follow := replicas_follow_one_log asciiUpper fourNodes handle 4 1024 rfl setOnLeader
    along.1 along.2
  refine ⟨?_, behind⟩
  refine (follow.2.2 [97] noon ?_ (Nat.le_refl _) (Nat.le_refl _) silent _ _).mpr
    ⟨0, 12, ?_, Or.inl (by decide)⟩
  · rw [past]
    intro reading member
    exact Nat.le_of_eq (congrArg Fin.val (List.mem_singleton.mp member))
  · rw [executed, readings]
    refine ⟨[], commandChange asciiUpper (text "set k v") 12, [], rfl, ?_, List.forall_mem_nil _⟩
    simp only [commandChange, call]
    rw [text_eq, text_eq]
    rfl

end Replicas
end Server
end KVStore
