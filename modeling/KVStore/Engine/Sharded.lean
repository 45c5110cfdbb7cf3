import KVStore.Engine.TimedMap
import KVStore.Library.Runs

namespace KVStore
namespace Engine

open Framing HashTable

variable {P : Platform}

/-!
# The sharded engine

`ShardedEngine` of `engine/src/sharded_engine.cpp`: one table, one queue of
requests and one worker thread for each shard.  A client creates a request,
pushes it to the queue of the shard of its key and waits for the promise of the
request; the worker of the shard pops the requests and fulfils the promises.

The engine runs by interleaved steps.  A critical section of a mutex is one
step, and so is `process_request`, since the table of a shard belongs to its
worker alone.  A worker that waits on its condition variable is one whose step
does nothing:  it goes on when the queue is not empty or the engine is stopped.
A call of a client is named by its number, and any number of calls may be on
their way at the same time.
-/

/-! ## Requests and shards -/

/-- The calls that clients make, `Request` without its promise. -/
inductive Operation where
  | get (key : Bytes)
  | set (key : Bytes) (value : ValueEntry)
  | remove (key : Bytes)

def Operation.key : Operation -> Bytes
  | .get key => key
  | .set key _ => key
  | .remove key => key

/-- `Request`; the promise is the one of the call with this number. -/
structure Request where
  operation : Operation
  promise : Nat

/-- A worker thread in `worker_loop`:  at the test of `running_`, at the wait for
a request, with a request it has popped, or behind the loop. -/
inductive Worker where
  | looping
  | waiting
  | holding (request : Request)
  | exited

/-- The parts of the engine that belong to one shard. -/
structure Shard (P : Platform) where
  table : HashTable P
  queue : List Request
  worker : Worker

/-- How far a call of a client is:  the request is created, it is in a queue or
with a worker, its promise has a value, or the call has returned that value. -/
inductive Stage where
  | created
  | waiting
  | fulfilled (response : Option ValueEntry)
  | returned (response : Option ValueEntry)

/-- A call of a client. -/
structure ClientCall where
  operation : Operation
  stage : Stage

/-- A run of `process_request`. -/
structure Served where
  call : Nat
  shard : Nat
  operation : Operation
  response : Option ValueEntry

/-- The engine, the calls made on it so far, and the history of what the
workers processed, which no step reads. -/
structure ShardedEngine (P : Platform) where
  running : Bool
  shards : List (Shard P)
  calls : List ClientCall
  served : List Served

/-! ## Steps -/

/-- `process_request`: the table afterwards and the value of the promise. -/
def Operation.serve (table : HashTable P) (now accessNow : UInt64) :
    Operation -> HashTable P × Option ValueEntry
  | .get key => table.get key now accessNow
  | .set key value => (table.insert key value, none)
  | .remove key => ((table.remove key).1, none)

/-- What can happen next. -/
inductive EngineEvent where
  | invoke (operation : Operation)
  | enqueue (call : Nat)
  | loop (shard : Nat)
  | dequeue (shard : Nat)
  | process (shard : Nat) (now accessNow : UInt64)
  | complete (call : Nat)
  | stop

namespace ShardedEngine

/-- `get_shard_id`, which uses the hash function of the tables. -/
def getShardId (s : ShardedEngine P) (key : Bytes) : Nat := (P.hash key).toNat % s.shards.length

def setShard (s : ShardedEngine P) (id : Nat) (shard : Shard P) : ShardedEngine P :=
  { s with shards := s.shards.set id shard }

def setStage (s : ShardedEngine P) (id : Nat) (stage : Stage) : ShardedEngine P :=
  { s with calls := s.calls.modify id fun call => { call with stage := stage } }

/-- `request_queues_[shard_id]->push`. -/
def enqueue (s : ShardedEngine P) (id : Nat) : ShardedEngine P :=
  match s.calls[id]? with
  | some ⟨operation, .created⟩ =>
      match s.shards[s.getShardId operation.key]? with
      | some shard =>
          (s.setShard (s.getShardId operation.key) { shard with
            queue := shard.queue ++ [⟨operation, id⟩] }).setStage id .waiting
      | none => s
  | _ => s

/-- `while (running_)`. -/
def loop (s : ShardedEngine P) (id : Nat) : ShardedEngine P :=
  match s.shards[id]? with
  | some ⟨table, queue, .looping⟩ =>
      s.setShard id ⟨table, queue, if s.running then .waiting else .exited⟩
  | _ => s

/-- The critical section of `worker_loop`. -/
def dequeue (s : ShardedEngine P) (id : Nat) : ShardedEngine P :=
  match s.shards[id]? with
  | some ⟨table, request :: queue, .waiting⟩ => s.setShard id ⟨table, queue, .holding request⟩
  | some ⟨table, [], .waiting⟩ => if s.running then s else s.setShard id ⟨table, [], .exited⟩
  | _ => s

/-- `process_request` on the request that the worker holds. -/
def process (s : ShardedEngine P) (id : Nat) (now accessNow : UInt64) : ShardedEngine P :=
  match s.shards[id]? with
  | some ⟨table, queue, .holding request⟩ =>
      let result := request.operation.serve table now accessNow
      { (s.setShard id ⟨result.1, queue, .looping⟩).setStage request.promise
          (.fulfilled result.2) with
        served := s.served ++ [⟨request.promise, id, request.operation, result.2⟩] }
  | _ => s

/-- `future.get` returns, and with it the call. -/
def complete (s : ShardedEngine P) (id : Nat) : ShardedEngine P :=
  match s.calls[id]? with
  | some ⟨_, .fulfilled response⟩ => s.setStage id (.returned response)
  | _ => s

def step (s : ShardedEngine P) : EngineEvent -> ShardedEngine P
  | .invoke operation => { s with calls := s.calls ++ [⟨operation, .created⟩] }
  | .enqueue call => s.enqueue call
  | .loop shard => s.loop shard
  | .dequeue shard => s.dequeue shard
  | .process shard now accessNow => s.process shard now accessNow
  | .complete call => s.complete call
  | .stop => { s with running := false }

/-- The engine after `start`. -/
def started (P : Platform) (numShards memoryLimit : Nat) (kind : EvictionPolicy) :
    ShardedEngine P where
  running := true
  shards := List.replicate numShards ⟨HashTable.new 16 memoryLimit kind none, [], .looping⟩
  calls := []
  served := []

/-- Every shard starts with an empty table, an empty queue and a worker at the
head of its loop. -/
theorem eq_of_started {numShards memoryLimit : Nat} {kind : EvictionPolicy} {id : Nat}
    {shard : Shard P} (present : (started P numShards memoryLimit kind).shards[id]? = some shard) :
    shard = ⟨HashTable.new 16 memoryLimit kind none, [], .looping⟩ := by
  rw [started, List.getElem?_replicate] at present
  split at present
  · exact (Option.some.inj present).symm
  · cases present

def run (s : ShardedEngine P) (events : List EngineEvent) : ShardedEngine P := events.foldl step s

theorem run_append (s : ShardedEngine P) (first second : List EngineEvent) :
    s.run (first ++ second) = (s.run first).run second :=
  List.foldl_append

end ShardedEngine

/-! ## What a step can do -/

def Worker.held : Worker -> List Request
  | .holding request => [request]
  | .looping => []
  | .waiting => []
  | .exited => []

/-- The worker is in its loop. -/
def Worker.works : Worker -> Bool
  | .exited => false
  | .looping => true
  | .waiting => true
  | .holding _ => true

/-- The requests of a shard that are not processed yet, the next one first. -/
def Shard.pending (shard : Shard P) : List Request := shard.worker.held ++ shard.queue

variable {shard : Shard P}

variable {request : Request}

theorem Shard.pending_of_holding (held : shard.worker = .holding request) :
    shard.pending = request :: shard.queue := by
  rw [pending, held]
  rfl

theorem Shard.mem_pending_of_holding (held : shard.worker = .holding request) :
    request ∈ shard.pending := by
  rw [pending_of_holding held]
  exact List.mem_cons_self

namespace ShardedEngine

/-- The engine after its worker processed the request it held. -/
def afterProcess (s : ShardedEngine P) (id : Nat) (shard : Shard P) (request : Request)
    (now accessNow : UInt64) : ShardedEngine P :=
  let result := request.operation.serve shard.table now accessNow
  { (s.setShard id ⟨result.1, shard.queue, .looping⟩).setStage request.promise
      (.fulfilled result.2) with
    served := s.served ++ [⟨request.promise, id, request.operation, result.2⟩] }

/-- The ways a step can go.  A worker that only moves on in its loop keeps its
table and the requests of its shard, and it does not leave a running engine. -/
inductive Acts (s : ShardedEngine P) : EngineEvent -> ShardedEngine P -> Prop where
  | nothing (event : EngineEvent) : Acts s event s
  | invoke (operation : Operation) :
    Acts s (.invoke operation) { s with calls := s.calls ++ [⟨operation, .created⟩] }
  | enqueue (id : Nat) (operation : Operation) (shard : Shard P)
      (created : s.calls[id]? = some ⟨operation, .created⟩)
      (target : s.shards[s.getShardId operation.key]? = some shard) :
      Acts s (.enqueue id)
        ((s.setShard (s.getShardId operation.key) { shard with
          queue := shard.queue ++ [⟨operation, id⟩] }).setStage id .waiting)
  | turn (event : EngineEvent) (id : Nat) (shard next : Shard P)
      (present : s.shards[id]? = some shard) (sameTable : next.table = shard.table)
      (samePending : next.pending = shard.pending)
      (alive : s.running = true -> next.worker.works = true) : Acts s event (s.setShard id next)
  | process (id : Nat) (now accessNow : UInt64) (shard : Shard P) (request : Request)
      (present : s.shards[id]? = some shard) (held : shard.worker = .holding request) :
      Acts s (.process id now accessNow) (s.afterProcess id shard request now accessNow)
  | complete (id : Nat) (operation : Operation) (response : Option ValueEntry)
      (fulfilled : s.calls[id]? = some ⟨operation, .fulfilled response⟩) :
      Acts s (.complete id) (s.setStage id (.returned response))
  | stop : Acts s .stop { s with running := false }

theorem acts_step (s : ShardedEngine P) (event : EngineEvent) : Acts s event (s.step event) := by
  cases event with
  | invoke operation => exact .invoke operation
  | enqueue id =>
      rw [step, enqueue]
      split
      next operation created =>
        split
        next shard target => exact .enqueue id operation shard created target
        next => exact .nothing _
      next => exact .nothing _
  | loop id =>
      rw [step, loop]
      split
      next table queue present =>
        refine .turn _ id _ _ present rfl ?_ fun running => ?_
        · cases s.running <;> rfl
        · rw [running]
          rfl
      next => exact .nothing _
  | dequeue id =>
      rw [step, dequeue]
      split
      next table request queue present => exact .turn _ id _ _ present rfl rfl fun _ => rfl
      next table present =>
        split
        next => exact .nothing _
        next stopped => exact .turn _ id _ _ present rfl rfl fun running => absurd running stopped
      next => exact .nothing _
  | process id now accessNow =>
      rw [step, process]
      split
      next table queue request present =>
        have held : Shard.worker ⟨table, queue, .holding request⟩ = .holding request := rfl
        exact .process id now accessNow ⟨table, queue, .holding request⟩ request present held
      next => exact .nothing _
  | complete id =>
      rw [step, complete]
      split
      next operation response fulfilled => exact .complete id operation response fulfilled
      next => exact .nothing _
  | stop => exact .stop

/-! ## Lookups after a step -/

@[simp]
theorem getShardId_setShard (s : ShardedEngine P) (id : Nat) (shard : Shard P) (key : Bytes) :
    (s.setShard id shard).getShardId key = s.getShardId key := by
  rw [getShardId, getShardId, setShard, List.length_set]

variable {s : ShardedEngine P}

variable {number : Nat} {id : Nat}

theorem shards_setShard (present : s.shards[id]? = some shard) (next : Shard P) (other : Nat) :
    (s.setShard id next).shards[other]? = if id = other then some next else s.shards[other]? := by
  have inside : id < s.shards.length := (List.getElem?_eq_some_iff.mp present).1
  rw [setShard, List.getElem?_set, if_pos inside]

theorem calls_setStage {call : ClientCall} (made : s.calls[id]? = some call) (stage : Stage)
    (other : Nat) :
    (s.setStage id stage).calls[other]? = if id = other then some { call with stage := stage }
    else s.calls[other]? := by
  rw [setStage, List.getElem?_modify]
  split
  next same => rw [← same, made]; rfl
  next => exact Option.map_id'

theorem calls_setStage_of_ne (s : ShardedEngine P) {id other : Nat} (different : id ≠ other)
    (stage : Stage) :
    (s.setStage id stage).calls[other]? = s.calls[other]? :=
  List.getElem?_modify_ne _ _ different

/-! ## Every request in one place -/

/-- The requests that are not processed are in the shards of their keys and
their calls wait for them; what was processed has answered its call; and each
call that has been enqueued is in exactly one place, once. -/
structure Sound (s : ShardedEngine P) : Prop where
  located : forall {id shard request}, s.shards[id]? = some shard -> request ∈ shard.pending ->
    id = s.getShardId request.operation.key ∧
      s.calls[request.promise]? = some ⟨request.operation, .waiting⟩
  recorded : forall {entry}, entry ∈ s.served -> entry.shard = s.getShardId entry.operation.key ∧
    (s.calls[entry.call]? = some ⟨entry.operation, .fulfilled entry.response⟩ ∨
      s.calls[entry.call]? = some ⟨entry.operation, .returned entry.response⟩)
  once : forall {id call}, s.calls[id]? = some call -> call.stage ≠ .created ->
    Exists fun shard => s.shards[s.getShardId call.operation.key]? = some shard ∧
      (shard.pending.map Request.promise).count id + (s.served.map Served.call).count id = 1

theorem count_map_eq_zero {α : Type} {name : α -> Nat} {items : List α}
    (absent : forall item, item ∈ items -> name item ≠ number) :
    (items.map name).count number = 0 := by
  refine List.count_eq_zero.mpr fun member => ?_
  rcases List.mem_map.mp member with ⟨item, listed, same⟩
  exact absent item listed same

/-- A call that does not wait has no request in a queue. -/
theorem Sound.promise_ne (sound : s.Sound) {id number : Nat} (present : s.shards[id]? = some shard)
    {call : ClientCall} (made : s.calls[number]? = some call) (other : call.stage ≠ .waiting) :
    forall request, request ∈ shard.pending -> request.promise ≠ number := by
  rintro request pending rfl
  have waits := (sound.located present pending).2
  rw [made] at waits
  cases waits
  exact other rfl

/-- A call without a response is not in the history. -/
theorem Sound.call_ne (sound : s.Sound) {call : ClientCall} (made : s.calls[number]? = some call)
    (unanswered : call.stage = .created ∨ call.stage = .waiting) :
    forall entry, entry ∈ s.served -> entry.call ≠ number := by
  rintro entry served rfl
  rcases (sound.recorded served).2 with answered | answered <;> rw [made] at answered <;>
    cases answered <;> rcases unanswered with stage | stage <;> cases stage

/-- The request that is processed next is in no other place. -/
theorem Sound.next_unique (sound : s.Sound) {rest : List Request}
    (present : s.shards[id]? = some shard) (pending : shard.pending = request :: rest) :
    request.promise ∉ rest.map Request.promise ∧
      forall {other : Nat} {otherShard : Shard P} {twin : Request}, s.shards[other]? =
        some otherShard ->
        twin ∈ otherShard.pending -> twin.promise = request.promise -> other = id := by
  have member : request ∈ shard.pending := pending ▸ List.mem_cons_self
  rcases sound.located present member with ⟨place, waits⟩
  constructor
  · rcases sound.once waits (fun stage => nomatch stage) with ⟨same, there, counted⟩
    rw [← place, present] at there
    cases there
    rw [pending, List.map_cons, List.count_cons_self] at counted
    exact List.count_eq_zero.mp (by omega)
  · intro other otherShard twin otherPresent twinPending samePromise
    rcases sound.located otherPresent twinPending with ⟨otherPlace, otherWaits⟩
    rw [samePromise, waits] at otherWaits
    have sameOperation : request.operation = twin.operation :=
      congrArg ClientCall.operation (Option.some.inj otherWaits)
    rw [place, otherPlace, sameOperation]

theorem sound_started (numShards memoryLimit : Nat) (kind : EvictionPolicy) :
    (started P numShards memoryLimit kind).Sound := by
  refine ⟨?_, (fun member => nomatch member), (fun made => nomatch made)⟩
  intro id shard request present pending
  cases eq_of_started present
  exact nomatch pending

theorem Sound.turn (sound : s.Sound) {shard next : Shard P} (present : s.shards[id]? = some shard)
    (same : next.pending = shard.pending) : (s.setShard id next).Sound := by
  have shards := shards_setShard present next
  refine ⟨?_, fun {entry} member => ?_, fun {number call} made enqueued => ?_⟩
  · intro other otherShard request otherPresent pending
    rw [getShardId_setShard]
    rw [shards] at otherPresent
    split at otherPresent
    next here =>
      cases otherPresent
      rw [same] at pending
      exact here ▸ sound.located present pending
    next => exact sound.located otherPresent pending
  · rw [getShardId_setShard]
    exact sound.recorded member
  · rcases sound.once made enqueued with ⟨target, there, counted⟩
    rw [getShardId_setShard, shards]
    split
    next here =>
      rw [← here, present] at there
      cases there
      exact ⟨next, rfl, same ▸ counted⟩
    next => exact ⟨target, there, counted⟩

theorem Sound.invoke (sound : s.Sound) (operation : Operation) :
    Sound { s with calls := s.calls ++ [⟨operation, .created⟩] } := by
  have kept : forall {id call}, s.calls[id]? = some call ->
      (s.calls ++ [⟨operation, .created⟩])[id]? = some call :=
    fun made => (List.getElem?_append_left (List.getElem?_eq_some_iff.mp made).1).trans made
  refine ⟨fun present pending => ?_, fun member => ?_, fun made enqueued => ?_⟩
  · exact ⟨(sound.located present pending).1, kept (sound.located present pending).2⟩
  · exact ⟨(sound.recorded member).1, (sound.recorded member).2.imp kept kept⟩
  · rcases Runs.getElem?_snoc made with ⟨_, old⟩ | ⟨_, rfl⟩
    · exact sound.once old enqueued
    · exact absurd rfl enqueued

/-- One call goes to its next stage, and with it the requests of its shard and
the history change, but not those of other calls. -/
theorem Sound.update (sound : s.Sound) {operation : Operation} {old new : Stage}
    {shard next : Shard P} {extra : List Served} (made : s.calls[number]? = some ⟨operation, old⟩)
    (present : s.shards[s.getShardId operation.key]? = some shard)
    (kept : forall request, request ∈ next.pending -> request.promise ≠ number ->
      request ∈ shard.pending)
    (held : forall request, request ∈ next.pending -> request.promise = number ->
      request.operation = operation ∧ new = .waiting)
    (added : forall entry, entry ∈ extra -> entry.call = number ∧
      entry.shard = s.getShardId operation.key)
    (answered : forall entry, entry ∈ s.served ++ extra -> entry.call = number ->
      entry.operation = operation ∧
      (new = .fulfilled entry.response ∨ new = .returned entry.response))
    (counts : forall other, other ≠ number -> (next.pending.map Request.promise).count other =
      (shard.pending.map Request.promise).count other)
    (one : (next.pending.map Request.promise).count number +
      ((s.served ++ extra).map Served.call).count number = 1) :
    Sound { (s.setShard (s.getShardId operation.key) next).setStage number new with
        served := s.served ++ extra } := by
  have shards := shards_setShard present next
  have calls : forall other, (s.setStage number new).calls[other]? =
      if number = other then some ⟨operation, new⟩ else s.calls[other]? := calls_setStage made new
  have sameId := getShardId_setShard s (s.getShardId operation.key) next
  refine ⟨fun {id place request} there pending => ?_, fun {entry} member => ?_,
    fun {other call} there enqueued => ?_⟩
  · change (s.setShard _ next).shards[id]? = _ at there
    change id = (s.setShard _ next).getShardId _ ∧ (s.setStage number new).calls[_]? = _
    rw [shards] at there
    rw [sameId, calls]
    split at there
    next here =>
      cases there
      by_cases same : request.promise = number
      · rcases held request pending same with ⟨rfl, rfl⟩
        exact ⟨here.symm, if_pos same.symm⟩
      · have before := sound.located present (kept request pending same)
        exact ⟨here.symm.trans before.1, (if_neg (Ne.symm same)).trans before.2⟩
    next elsewhere =>
      have before := sound.located there pending
      refine ⟨before.1, (if_neg fun same => elsewhere ?_).trans before.2⟩
      rw [← same, made] at before
      have sameOperation : operation = request.operation :=
        congrArg ClientCall.operation (Option.some.inj before.2)
      rw [before.1, sameOperation]
  · change _ = (s.setShard _ next).getShardId _ ∧
      ((s.setStage number new).calls[_]? = _ ∨ (s.setStage number new).calls[_]? = _)
    rw [sameId, calls]
    by_cases same : entry.call = number
    · have answer := answered entry member same
      rw [if_pos same.symm, answer.1]
      constructor
      · rcases List.mem_append.mp member with before | latest
        · exact answer.1 ▸ (sound.recorded before).1
        · exact (added entry latest).2
      · exact answer.2.imp (fun stage => by rw [stage]) (fun stage => by rw [stage])
    · rw [if_neg (Ne.symm same)]
      rcases List.mem_append.mp member with before | latest
      · exact sound.recorded before
      · exact absurd (added entry latest).1 same
  · change (s.setStage number new).calls[other]? = _ at there
    change Exists fun place => (s.setShard _ next).shards[(s.setShard _ next).getShardId _]? = _ ∧ _ +
      ((s.served ++ extra).map Served.call).count other = 1
    rw [calls] at there
    rw [sameId, shards]
    by_cases same : number = other
    · rw [if_pos same] at there
      cases there
      exact ⟨next, if_pos rfl, same ▸ one⟩
    · rw [if_neg same] at there
      have fresh : (extra.map Served.call).count other = 0 :=
        count_map_eq_zero fun entry latest mine => same ((added entry latest).1.symm.trans mine)
      rw [List.map_append, List.count_append, fresh, Nat.add_zero]
      rcases sound.once there enqueued with ⟨place, stands, counted⟩
      split
      next here =>
        rw [← here, present] at stands
        cases stands
        exact ⟨next, rfl, counts other (Ne.symm same) ▸ counted⟩
      next => exact ⟨place, stands, counted⟩

theorem Sound.enqueue (sound : s.Sound) {operation : Operation}
    (created : s.calls[number]? = some ⟨operation, .created⟩)
    (target : s.shards[s.getShardId operation.key]? = some shard) :
    ((s.setShard (s.getShardId operation.key) { shard with
      queue := shard.queue ++ [⟨operation, number⟩] }).setStage
      number .waiting).Sound := by
  have longer : Shard.pending { shard with queue := shard.queue ++ [⟨operation, number⟩] } =
      shard.pending ++ [⟨operation, number⟩] := (List.append_assoc _ _ _).symm
  have notPending := sound.promise_ne target created (fun stage => nomatch stage)
  have notServed := sound.call_ne created (Or.inl rfl)
  rw [← List.append_nil s.served] at notServed
  have pushed : Sound { (s.setShard (s.getShardId operation.key)
      { shard with queue := shard.queue ++ [⟨operation, number⟩] }).setStage number .waiting with
        served := s.served ++ [] } := by
    refine sound.update created target ?_ ?_ (fun entry member => nomatch member) ?_ ?_ ?_
    · intro request pending different
      rw [longer, List.mem_append, List.mem_singleton] at pending
      exact pending.resolve_right fun same => different (same ▸ rfl)
    · intro request pending same
      rw [longer, List.mem_append, List.mem_singleton] at pending
      rcases pending with before | rfl
      · exact absurd same (notPending request before)
      · exact ⟨rfl, rfl⟩
    · exact fun entry member same => absurd same (notServed entry member)
    · intro other different
      rw [longer, List.map_append, List.count_append, List.map_singleton, List.count_singleton]
      simp [Ne.symm different]
    · rw [longer, List.map_append, List.count_append, count_map_eq_zero notPending,
        count_map_eq_zero notServed]
      simp
  rw [List.append_nil] at pushed
  exact pushed

/-- The worker of a shard processes the first of its pending requests. -/
theorem Sound.process (sound : s.Sound) (present : s.shards[id]? = some shard)
    (held : shard.worker = .holding request) (now accessNow : UInt64) :
    (s.afterProcess id shard request now accessNow).Sound := by
  have pending := Shard.pending_of_holding held
  rcases sound.located present (Shard.mem_pending_of_holding held) with ⟨place, waits⟩
  have unique := sound.next_unique present pending
  have notServed := sound.call_ne waits (Or.inr rfl)
  rw [place] at present
  rw [afterProcess, place]
  refine sound.update waits present ?_ ?_ ?_ ?_ ?_ ?_
  · intro other queued _
    exact pending ▸ List.mem_cons_of_mem _ queued
  · intro other queued same
    exact absurd (List.mem_map.mpr ⟨other, queued, same⟩) unique.1
  · intro entry latest
    cases List.mem_singleton.mp latest
    exact ⟨rfl, rfl⟩
  · intro entry listed same
    rcases List.mem_append.mp listed with before | latest
    · exact absurd same (notServed entry before)
    · cases List.mem_singleton.mp latest
      exact ⟨rfl, Or.inl rfl⟩
  · intro other different
    rw [pending, List.map_cons, List.count_cons_of_ne (Ne.symm different)]
    rfl
  · rw [List.map_append, List.count_append, count_map_eq_zero notServed]
    have gone : (shard.queue.map Request.promise).count request.promise = 0 :=
      List.count_eq_zero.mpr unique.1
    refine (congrArg (· + _) gone).trans ?_
    simp

theorem setShard_self (present : s.shards[id]? = some shard) :
    s.setShard id shard = s := by
  rcases List.getElem?_eq_some_iff.mp present with ⟨inside, rfl⟩
  rw [setShard, List.set_getElem_self]

theorem Sound.complete (sound : s.Sound) {operation : Operation} {response : Option ValueEntry}
    (fulfilled : s.calls[number]? = some ⟨operation, .fulfilled response⟩) :
    (s.setStage number (.returned response)).Sound := by
  rcases sound.once fulfilled (fun stage => nomatch stage) with ⟨shard, present, counted⟩
  have notPending := sound.promise_ne present fulfilled (fun stage => nomatch stage)
  have returned : Sound { (s.setShard (s.getShardId operation.key) shard).setStage number
      (.returned response) with
      served := s.served ++ [] } := by
    refine sound.update fulfilled present ?_ ?_ (fun entry member => nomatch member) ?_ ?_ ?_
    · exact fun request pending _ => pending
    · exact fun request pending same => absurd same (notPending request pending)
    · intro entry member same
      rw [List.append_nil] at member
      have answer := (sound.recorded member).2
      rw [same, fulfilled] at answer
      rcases answer with answer | answer
      · injection answer with answer
        injection answer with sameOperation sameStage
        injection sameStage with sameResponse
        exact ⟨sameOperation.symm, Or.inr (by rw [sameResponse])⟩
      · injection answer with answer
        injection answer with _ sameStage
        cases sameStage
    · exact fun other _ => rfl
    · rw [List.append_nil]
      exact counted
  rw [List.append_nil, setShard_self present] at returned
  exact returned

theorem Sound.step (sound : s.Sound) (event : EngineEvent) : (s.step event).Sound := by
  have acts := acts_step s event
  generalize s.step event = after at acts
  cases acts with
  | nothing => exact sound
  | invoke operation => exact sound.invoke operation
  | enqueue id operation shard created target => exact sound.enqueue created target
  | turn _ id shard next present _ samePending _ => exact sound.turn present samePending
  | process id now accessNow shard request present held =>
      exact sound.process present held now accessNow
  | complete id operation response fulfilled => exact sound.complete fulfilled
  | stop => exact ⟨sound.located, sound.recorded, sound.once⟩

theorem Sound.run (sound : s.Sound) (events : List EngineEvent) : (s.run events).Sound := by
  induction events generalizing s with
  | nil => exact sound
  | cons event events ih => exact ih (sound.step event)

end ShardedEngine
end Engine
end KVStore
