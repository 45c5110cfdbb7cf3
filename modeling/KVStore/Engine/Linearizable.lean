import KVStore.Engine.Sharded

namespace KVStore
namespace Engine

open Framing HashTable Bindings

variable {P : Platform}

/-!
# The sharded engine as one map

The order in which the workers process the requests is an order for all calls
of all clients.  It extends the order in which calls follow each other in time,
and as long as no shard evicts or expires a key, every `get` returns what the
operations before it in that order left of its key.

Each shard holds its part of one map.  The operations on the keys of other
shards do not concern it.
-/

/-! ## Operations on one map -/

/-- What an operation does to the map. -/
def Operation.change : Operation -> Change Bytes (Bytes × UInt64)
  | .get _ => Change.keep
  | .set key value => ⟨fun _ => false, some (key, (value.value, value.expiryNs))⟩
  | .remove key => ⟨fun other => decide (key = other), none⟩

variable {operation : Operation}

theorem Operation.change_of_ne {key : Bytes} (different : operation.key ≠ key)
    (m : Bytes -> Option (Bytes × UInt64)) : operation.change.apply m key = m key := by
  cases operation with
  | get read => rfl
  | set written value =>
      have other : written ≠ key := different
      simp only [Operation.change, Change.apply, if_neg other]
      rfl
  | remove removed =>
      have other : removed ≠ key := different
      simp only [Operation.change, Change.apply, decide_eq_true_eq, if_neg other]

/-- The worker neither evicts a key nor finds the key of a `get` expired. -/
def Operation.calm (table : HashTable P) (now : UInt64) : Operation -> Bool
  | .get key => (table.view key).all fun entry => decide (entry.2 = 0 ∨ now < entry.2)
  | .set _ _ => table.entries.all fun kv => !decide (table.Evicts kv.key)
  | .remove _ => true

/-- A worker does to the map of its table what the operation says. -/
theorem view_serve {table : HashTable P} (wf : table.WF) {now accessNow : UInt64}
    (calm : operation.calm table now = true) :
    (operation.serve table now accessNow).1.WF ∧
      (operation.serve table now accessNow).1.view = operation.change.apply table.view := by
  cases operation with
  | get key =>
      refine ⟨(wf.get key now accessNow).1, ?_⟩
      funext other
      exact (wf.get key now accessNow).2.1 other
  | set key value =>
      refine ⟨(wf.insert key value).1, ?_⟩
      funext other
      refine (view_insert wf key value other).trans ?_
      rw [if_neg (not_evicts_of_calm calm other)]
      rfl
  | remove key =>
      refine ⟨wf.remove key, ?_⟩
      funext other
      refine (view_remove wf key other).trans ?_
      simp only [Operation.change, Change.apply, decide_eq_true_eq]

/-- A `get` of a key that has not expired returns its binding. -/
theorem serve_get {table : HashTable P} (wf : table.WF) {key : Bytes} {now accessNow : UInt64}
    (calm : (Operation.get key).calm table now = true) :
    ((Operation.get key).serve table now accessNow).2.map
    (fun value => (value.value, value.expiryNs)) =
      table.view key := by
  apply Option.ext
  intro entry
  refine (get_eq_some_iff wf).trans (and_iff_left_of_imp fun bound => ?_)
  rw [Operation.calm, bound, Option.all_some, decide_eq_true_eq] at calm
  exact calm

/-- The steps of the workers. -/
def EngineEvent.ofWorker : EngineEvent -> Bool
  | .loop _ => true
  | .dequeue _ => true
  | .process _ _ _ => true
  | _ => false

/-- The steps that a worker has left until it has processed its next request. -/
def Worker.phase : Worker -> Nat
  | .looping => 2
  | .waiting => 1
  | .holding _ => 0
  | .exited => 0

/-- A bound for the steps that a worker has left until its shard has no pending
requests. -/
def Shard.weight (shard : Shard P) : Nat := 3 * shard.pending.length + shard.worker.phase

/-! ## Runs -/

namespace ShardedEngine

/-- The engine keeps running in this step, and no shard evicts or expires a key. -/
def calm (s : ShardedEngine P) : EngineEvent -> Bool
  | .process id now _ =>
      match s.shards[id]? with
      | some ⟨table, _, .holding request⟩ => request.operation.calm table now
      | _ => true
  | .stop => false
  | _ => true

variable {s : ShardedEngine P}

variable {id : Nat}

/-- The worker processes its request calmly. -/
theorem calm_of_process {now accessNow : UInt64} {shard : Shard P} {request : Request}
    (present : s.shards[id]? = some shard) (held : shard.worker = .holding request)
    (calm : s.calm (.process id now accessNow) = true) :
    request.operation.calm shard.table now = true := by
  rcases shard with ⟨table, queue, worker⟩
  cases held
  simp only [ShardedEngine.calm, present] at calm
  exact calm

/-- The engine keeps running, and no shard evicts or expires a key. -/
def calmRun : ShardedEngine P -> List EngineEvent -> Bool
  | _, [] => true
  | s, event :: events => s.calm event && calmRun (s.step event) events

/-- The served requests that a step adds. -/
theorem served_step (s : ShardedEngine P) (event : EngineEvent) :
    Exists fun extra => (s.step event).served = s.served ++ extra := by
  have acts := acts_step s event
  generalize s.step event = after at acts ⊢
  cases acts with
  | process id now accessNow shard request present held => exact ⟨_, rfl⟩
  | nothing | invoke | enqueue | turn | complete | stop => exact ⟨[], (List.append_nil _).symm⟩

theorem served_run (s : ShardedEngine P) (events : List EngineEvent) :
    Exists fun extra => (s.run events).served = s.served ++ extra := by
  induction events generalizing s with
  | nil => exact ⟨[], (List.append_nil _).symm⟩
  | cons event events ih =>
      rcases served_step s event with ⟨first, stepped⟩
      rcases ih (s.step event) with ⟨later, ran⟩
      refine ⟨first ++ later, ?_⟩
      rw [← List.append_assoc, ← stepped]
      exact ran

theorem length_shards_step (s : ShardedEngine P) (event : EngineEvent) :
    (s.step event).shards.length = s.shards.length := by
  have acts := acts_step s event
  generalize s.step event = after at acts ⊢
  cases acts with
  | enqueue | turn | process => exact List.length_set
  | nothing | invoke | complete | stop => rfl

theorem length_shards_run (s : ShardedEngine P) (events : List EngineEvent) :
    (s.run events).shards.length = s.shards.length := by
  induction events generalizing s with
  | nil => rfl
  | cons event events ih =>
      exact (ih (s.step event)).trans (length_shards_step s event)

/-- A call that was enqueued stays so. -/
theorem enqueued_step {number : Nat} {call : ClientCall} (made : s.calls[number]? = some call)
    (enqueued : call.stage ≠ .created) (event : EngineEvent) :
    Exists fun stage => (s.step event).calls[number]? = some ⟨call.operation, stage⟩ ∧
        stage ≠ .created := by
  have moved : forall (other : Nat) {stage : Stage}, stage ≠ .created ->
      Exists fun final => (s.setStage other stage).calls[number]? = some ⟨call.operation, final⟩ ∧
        final ≠ .created := by
    intro other stage later
    by_cases same : other = number
    · subst same
      exact ⟨stage, (calls_setStage made stage other).trans (if_pos rfl), later⟩
    · exact ⟨call.stage, (calls_setStage_of_ne s same stage).trans made, enqueued⟩
  have acts := acts_step s event
  generalize s.step event = after at acts ⊢
  cases acts with
  | invoke operation =>
      refine ⟨call.stage, ?_, enqueued⟩
      exact (List.getElem?_append_left (List.getElem?_eq_some_iff.mp made).1).trans made
  | enqueue id operation shard created target => exact moved id fun stage => nomatch stage
  | complete id operation response fulfilled => exact moved id fun stage => nomatch stage
  | process id now accessNow shard request present held =>
      exact moved request.promise fun stage => nomatch stage
  | nothing | turn | stop => exact ⟨call.stage, made, enqueued⟩

theorem enqueued_run {number : Nat} {call : ClientCall} (made : s.calls[number]? = some call)
    (enqueued : call.stage ≠ .created) (events : List EngineEvent) :
    Exists fun stage => (s.run events).calls[number]? = some ⟨call.operation, stage⟩ ∧
        stage ≠ .created := by
  induction events generalizing s call with
  | nil => exact ⟨call.stage, made, enqueued⟩
  | cons event events ih =>
      rcases enqueued_step made enqueued event with ⟨stage, stepped, later⟩
      have ran := ih stepped later
      exact ran

/-! ## The order of processing -/

/-- The changes of the map in the order in which they were processed. -/
def changes (served : List Served) : List (Change Bytes (Bytes × UInt64)) :=
  served.map fun entry => entry.operation.change

/-- Every shard holds its part of the map that the processed operations made,
and every `get` was answered from the map of that moment. -/
structure Serial (s : ShardedEngine P) : Prop where
  wf : forall {id : Nat} {shard : Shard P}, s.shards[id]? = some shard -> shard.table.WF
  view : forall {id : Nat} {shard : Shard P}, s.shards[id]? = some shard ->
    forall key, s.getShardId key = id -> shard.table.view key = after (changes s.served) key
  answer : forall {front later : List Served} {entry : Served} {key : Bytes}, s.served = front ++
    entry :: later -> entry.operation = .get key ->
    entry.response.map (fun value => (value.value, value.expiryNs)) = after (changes front) key

theorem serial_started (numShards memoryLimit : Nat) (kind : EvictionPolicy) :
    (started P numShards memoryLimit kind).Serial := by
  refine ⟨fun present => ?_, fun present key _ => ?_, fun split => ?_⟩
  · rw [eq_of_started present]
    exact wf_new 16 memoryLimit kind none
  · rw [eq_of_started present]
    exact congrArg (Option.map _) (find_new 16 memoryLimit kind none key)
  · exact absurd split.symm (List.append_ne_nil_of_right_ne_nil _ (List.cons_ne_nil _ _))

/-- The serial view depends on the tables and the history only. -/
theorem Serial.of_same {s t : ShardedEngine P} (serial : s.Serial) (served : t.served = s.served)
    (sameId : forall key, t.getShardId key = s.getShardId key)
    (tables : forall {id : Nat} {shard : Shard P}, t.shards[id]? = some shard ->
      Exists fun before => s.shards[id]? = some before ∧ shard.table = before.table) :
    t.Serial := by
  refine ⟨fun present => ?_, fun present key place => ?_, fun split get => ?_⟩
  · rcases tables present with ⟨before, stood, same⟩
    exact same ▸ serial.wf stood
  · rcases tables present with ⟨before, stood, same⟩
    rw [served, same]
    exact serial.view stood key (sameId key ▸ place)
  · exact serial.answer (served ▸ split) get

theorem Serial.setShard (serial : s.Serial) {shard next : Shard P}
    (present : s.shards[id]? = some shard) (same : next.table = shard.table) :
    (s.setShard id next).Serial := by
  refine serial.of_same rfl (getShardId_setShard s id next) ?_
  intro other place there
  rw [shards_setShard present] at there
  split at there
  next here =>
    cases there
    exact ⟨shard, here ▸ present, same⟩
  next => exact ⟨place, there, rfl⟩

/-- A worker processes the next request of its shard. -/
theorem Serial.process (serial : s.Serial) {shard : Shard P} {request : Request}
    (present : s.shards[id]? = some shard) (place : id = s.getShardId request.operation.key)
    {now accessNow : UInt64} (calm : request.operation.calm shard.table now = true) :
    (s.afterProcess id shard request now accessNow).Serial := by
  have served : (request.operation.serve shard.table now accessNow).1.WF ∧ _ :=
    view_serve (serial.wf present) calm
  have shards := shards_setShard present
    ⟨(request.operation.serve shard.table now accessNow).1, shard.queue, .looping⟩
  have order : changes (s.afterProcess id shard request now accessNow).served =
      changes s.served ++ [request.operation.change] := List.map_append
  refine ⟨fun {other after} there => ?_, fun {other after} there key here => ?_,
    fun {front later entry key} split get => ?_⟩
  · change (s.setShard id _).shards[other]? = _ at there
    rw [shards] at there
    split at there
    next =>
      cases there
      exact served.1
    next => exact serial.wf there
  · change (s.setShard id _).shards[other]? = _ at there
    change (s.setShard id _).getShardId key = other at here
    rw [shards] at there
    rw [getShardId_setShard] at here
    rw [order, after_snoc]
    split at there
    next same =>
      cases there
      refine (congrFun served.2 key).trans (Change.apply_congr _ ?_)
      exact serial.view present key (here.trans same.symm)
    next elsewhere =>
      -- The operation is on a key of another shard.
      have different : request.operation.key ≠ key := by
        rintro rfl
        exact elsewhere (place.trans here)
      rw [Operation.change_of_ne different]
      exact serial.view there key here
  · change s.served ++ [_] = _ at split
    rcases snoc_eq_split split with ⟨rfl, rfl, rfl⟩ | ⟨before, _, earlier⟩
    · change request.operation = _ at get
      rw [← serial.view present key (by rw [place, get]; rfl)]
      rw [get] at calm ⊢
      exact serve_get (serial.wf present) calm
    · exact serial.answer earlier get

theorem Serial.step (serial : s.Serial) (sound : s.Sound) {event : EngineEvent}
    (calm : s.calm event = true) : (s.step event).Serial := by
  have acts := acts_step s event
  generalize s.step event = after at acts ⊢
  cases acts with
  | nothing => exact serial
  | invoke operation =>
      exact serial.of_same rfl (fun _ => rfl) fun {id shard} there => ⟨shard, there, rfl⟩
  | enqueue id operation shard created target =>
      have pushed := serial.setShard target
        (show Shard.table { shard with queue := shard.queue ++ [⟨operation, id⟩] } =
          shard.table from rfl)
      exact pushed.of_same rfl (fun _ => rfl) fun {id shard} there => ⟨shard, there, rfl⟩
  | turn _ id shard next present sameTable _ _ => exact serial.setShard present sameTable
  | process id now accessNow shard request present held =>
      have place := (sound.located present (Shard.mem_pending_of_holding held)).1
      exact serial.process present place (calm_of_process present held calm)
  | complete id operation response fulfilled =>
      exact serial.of_same rfl (fun _ => rfl) fun {id shard} there => ⟨shard, there, rfl⟩
  | stop => cases calm

theorem Serial.run (serial : s.Serial) (sound : s.Sound) {events : List EngineEvent}
    (calm : s.calmRun events = true) : (s.run events).Serial := by
  induction events generalizing s with
  | nil => exact serial
  | cons event events ih =>
      rcases Bool.and_eq_true_iff.mp calm with ⟨now, later⟩
      exact ih (serial.step sound now) (sound.step event) later

/-! ## Progress of the workers -/

/-- The engine runs, and so do its workers. -/
def Alive (s : ShardedEngine P) : Prop :=
  s.running = true ∧ forall {id : Nat} {shard : Shard P}, s.shards[id]? = some shard ->
    shard.worker.works = true

theorem Alive.setShard (alive : s.Alive) {shard next : Shard P}
    (present : s.shards[id]? = some shard) (stays : next.worker.works = true) :
    (s.setShard id next).Alive := by
  refine ⟨alive.1, fun {other place} there => ?_⟩
  rw [shards_setShard present] at there
  split at there
  · cases there
    exact stays
  · exact alive.2 there

theorem alive_started (numShards memoryLimit : Nat) (kind : EvictionPolicy) :
    (started P numShards memoryLimit kind).Alive := by
  refine ⟨rfl, fun {id shard} present => ?_⟩
  rw [eq_of_started present]
  rfl

theorem Alive.step (alive : s.Alive) {event : EngineEvent} (calm : s.calm event = true) :
    (s.step event).Alive := by
  have acts := acts_step s event
  generalize s.step event = after at acts ⊢
  cases acts with
  | nothing => exact alive
  | invoke operation => exact alive
  | enqueue id operation shard created target =>
      have stays : shard.worker.works = true := alive.2 target
      exact alive.setShard target stays
  | turn _ id shard next present _ _ stays => exact alive.setShard present (stays alive.1)
  | process id now accessNow shard request present held => exact alive.setShard present rfl
  | complete id operation response fulfilled => exact alive
  | stop => cases calm

theorem Alive.run (alive : s.Alive) {events : List EngineEvent} (calm : s.calmRun events = true) :
    (s.run events).Alive := by
  induction events generalizing s with
  | nil => exact alive
  | cons event events ih =>
      rcases Bool.and_eq_true_iff.mp calm with ⟨now, later⟩
      exact ih (alive.step now) later

/-- The shard has less left to do, and nothing else in the shards changed. -/
structure Advances (s t : ShardedEngine P) (id : Nat) (shard : Shard P) : Prop where
  alive : t.Alive
  lighter : Exists fun next => t.shards[id]? = some next ∧ next.weight < shard.weight
  others : forall other, id ≠ other -> t.shards[other]? = s.shards[other]?

theorem Alive.advances {s t : ShardedEngine P} (alive : s.Alive) {shard next : Shard P}
    (present : s.shards[id]? = some shard) (running : t.running = s.running)
    (shards : t.shards = (s.setShard id next).shards) (stays : next.worker.works = true)
    (lighter : next.weight < shard.weight) : Advances s t id shard := by
  refine ⟨⟨running.trans alive.1, fun {other place} there => ?_⟩, ⟨next, ?_, lighter⟩,
    fun other different => ?_⟩
  · rw [shards] at there
    exact (alive.setShard present stays).2 there
  · rw [shards, shards_setShard present, if_pos rfl]
  · rw [shards, shards_setShard present, if_neg different]

/-- The worker of a shard with pending requests has a step to make. -/
theorem Alive.worker_step (alive : s.Alive) {shard : Shard P} (present : s.shards[id]? = some shard)
    (busy : shard.pending ≠ []) :
    Exists fun event : EngineEvent => event.ofWorker = true ∧ Advances s (s.step event) id shard := by
  have running := alive.1
  have working := alive.2 present
  rcases shard with ⟨table, queue, worker⟩
  cases worker with
  | looping =>
      have looped : s.step (.loop id) = s.setShard id ⟨table, queue, .waiting⟩ := by
        simp only [ShardedEngine.step, loop, present, running, if_true]
      exact ⟨.loop id, rfl, looped ▸ alive.advances present rfl rfl rfl (Nat.lt_succ_self _)⟩
  | waiting =>
      cases queue with
      | nil => exact absurd rfl busy
      | cons request queue =>
          have popped : s.step (.dequeue id) = s.setShard id ⟨table, queue, .holding request⟩ := by
            simp only [ShardedEngine.step, dequeue, present]
          exact ⟨.dequeue id, rfl, popped ▸ alive.advances present rfl rfl rfl (Nat.lt_succ_self _)⟩
  | holding request =>
      have processed : s.step (.process id 0 0) =
          s.afterProcess id ⟨table, queue, .holding request⟩ request 0 0 := by
        simp only [ShardedEngine.step, ShardedEngine.process, present]
        rfl
      refine ⟨.process id 0 0, rfl, processed ▸ alive.advances present rfl rfl rfl ?_⟩
      simp only [Shard.weight, Shard.pending, Worker.held, Worker.phase, List.nil_append,
        List.cons_append, List.length_cons]
      omega
  | exited => cases working

/-- Steps of its worker alone empty the queue of a shard. -/
theorem Alive.drain_shard (alive : s.Alive) {shard : Shard P}
    (present : s.shards[id]? = some shard) :
    Exists fun more : List EngineEvent => (forall event, event ∈ more -> event.ofWorker = true) ∧
      (s.run more).Alive ∧
      (Exists fun next => (s.run more).shards[id]? = some next ∧ next.pending = []) ∧
      forall other, id ≠ other -> (s.run more).shards[other]? = s.shards[other]? := by
  induction weight : shard.weight using Nat.strong_induction_on generalizing s shard with
  | _ size ih =>
      by_cases idle : shard.pending = []
      · exact ⟨[], List.forall_mem_nil _, alive, ⟨shard, present, idle⟩, fun _ _ => rfl⟩
      · rcases alive.worker_step present idle with ⟨event, worker, next⟩
        rcases next.lighter with ⟨after, there, lighter⟩
        rcases ih after.weight (weight ▸ lighter) next.alive there rfl with
          ⟨more, workers, stays, emptied, others⟩
        refine ⟨event :: more, List.forall_mem_cons.mpr ⟨worker, workers⟩, stays, emptied,
          fun other different => ?_⟩
        exact (others other different).trans (next.others other different)

/-- Steps of the workers alone empty the queues of the first shards. -/
theorem Alive.drain (alive : s.Alive) (count : Nat) :
    Exists fun more : List EngineEvent => (forall event, event ∈ more -> event.ofWorker = true) ∧
      (s.run more).Alive ∧
      forall id, id < count -> forall shard, (s.run more).shards[id]? = some shard ->
          shard.pending = [] := by
  induction count with
  | zero => exact ⟨[], List.forall_mem_nil _, alive, fun id early => absurd early (Nat.not_lt_zero _)⟩
  | succ count ih =>
      rcases ih with ⟨more, workers, stays, emptied⟩
      cases present : (s.run more).shards[count]? with
      | none =>
          refine ⟨more, workers, stays, fun id early shard there => ?_⟩
          rcases Nat.lt_or_eq_of_le (Nat.le_of_lt_succ early) with before | rfl
          · exact emptied id before shard there
          · exact nomatch present.symm.trans there
      | some shard =>
          rcases stays.drain_shard present with
            ⟨further, furtherWorkers, furtherStays, ⟨next, there, idle⟩, others⟩
          refine ⟨more ++ further, ?_, ?_, ?_⟩
          · exact fun event member => (List.mem_append.mp member).elim (workers event)
              (furtherWorkers event)
          · rw [run_append]
            exact furtherStays
          · intro id early place stands
            rw [run_append] at stands
            by_cases last : count = id
            · subst last
              rw [there] at stands
              cases stands
              exact idle
            · rw [others id last] at stands
              exact emptied id (by omega) place stands

/-! ## Linearizability -/

/-- A call that has an answer was processed once. -/
theorem Sound.processed_once (sound : s.Sound) {number : Nat} {call : ClientCall}
    (made : s.calls[number]? = some call) (enqueued : call.stage ≠ .created)
    (answered : call.stage ≠ .waiting) :
    (s.served.map Served.call).count number = 1 := by
  rcases sound.once made enqueued with ⟨shard, present, counted⟩
  rw [count_map_eq_zero (sound.promise_ne present made answered), Nat.zero_add] at counted
  exact counted

/-- Where the history has the answer of a call. -/
theorem Sound.exists_served (sound : s.Sound) {number : Nat} {response : Option ValueEntry}
    (returned : s.calls[number]? = some ⟨operation, .returned response⟩) :
    Exists fun entry => entry ∈ s.served ∧ entry.call = number ∧ entry.operation = operation ∧
      entry.response = response := by
  have once := sound.processed_once returned (fun stage => nomatch stage) (fun stage => nomatch stage)
  have member : number ∈ s.served.map Served.call := List.count_pos_iff.mp (by omega)
  rcases List.mem_map.mp member with ⟨entry, listed, same⟩
  refine ⟨entry, listed, same, ?_⟩
  have answer := (sound.recorded listed).2
  rw [same, returned] at answer
  rcases answer with answer | answer
  · injection answer with answer
    injection answer with _ stage
    cases stage
  · injection answer with answer
    injection answer with sameOperation stage
    injection stage with sameResponse
    exact ⟨sameOperation.symm, sameResponse.symm⟩

/-- Left to themselves, the workers process everything that was enqueued. -/
theorem Alive.processes_all (alive : s.Alive) (sound : s.Sound) :
    Exists fun more : List EngineEvent => (forall event, event ∈ more -> event.ofWorker = true) ∧
      forall number call, s.calls[number]? = some call -> call.stage ≠ .created ->
        ((s.run more).served.map Served.call).count number = 1 := by
  rcases alive.drain s.shards.length with ⟨more, workers, _, emptied⟩
  refine ⟨more, workers, fun number call made enqueued => ?_⟩
  rcases enqueued_run made enqueued more with ⟨stage, later, stillEnqueued⟩
  rcases (sound.run more).once later stillEnqueued with ⟨shard, present, counted⟩
  have inside := (List.getElem?_eq_some_iff.mp present).1
  rw [length_shards_run] at inside
  rw [emptied _ inside shard present, List.map_nil, List.count_nil, Nat.zero_add] at counted
  exact counted

/-- A call that returned before another one was made was processed before it. -/
theorem processed_in_time (sound : s.Sound) (events : List EngineEvent) {first second : Nat}
    {response : Option ValueEntry}
    (returned : s.calls[first]? = some ⟨operation, .returned response⟩)
    (unmade : s.calls.length ≤ second) {front later : List Served} {entry : Served}
    (split : (s.run events).served = front ++ entry :: later) (call : entry.call = second) :
    Exists fun earlier => earlier ∈ front ∧ earlier.call = first := by
  rcases sound.exists_served returned with ⟨earlier, listed, same, _⟩
  rcases served_run s events with ⟨extra, whole⟩
  refine ⟨earlier, ?_, same⟩
  -- The history of the earlier state ends before the later call.
  have apart : entry ∉ s.served := by
    intro member
    have made : Exists fun call => s.calls[entry.call]? = some call :=
      (sound.recorded member).2.elim (fun answer => ⟨_, answer⟩) (fun answer => ⟨_, answer⟩)
    rcases made with ⟨made, present⟩
    have inside := (List.getElem?_eq_some_iff.mp present).1
    omega
  rw [whole] at split
  rcases List.append_eq_append_iff.mp split with ⟨between, rfl, _⟩ | ⟨between, old, rest⟩
  · exact List.mem_append_left _ listed
  · cases between with
    | nil =>
        rw [List.append_nil] at old
        exact old ▸ listed
    | cons head between =>
        rw [List.cons_append] at rest
        injection rest with sameEntry _
        rw [old, sameEntry] at apart
        exact absurd (List.mem_append_right _ List.mem_cons_self) apart

/-- As long as the engine runs and no shard evicts or expires a key, every
request that was enqueued is in the shard of its key, either pending there or
processed there, and once; left to themselves, the workers process all of them.
A `get` returns the value of the last `set` of its key before it in the order of
processing, unless a `remove` of the key came between, and calls that do not
overlap are processed in the order in which they were made. -/
theorem linearizable (P : Platform) (numShards memoryLimit : Nat) (kind : EvictionPolicy)
    (events : List EngineEvent)
    (calm : (started P numShards memoryLimit kind).calmRun events = true) :
    let s := (started P numShards memoryLimit kind).run events
    s.Sound ∧
      (forall number operation response, s.calls[number]? = some ⟨operation, .returned response⟩ ->
        (s.served.map Served.call).count number = 1) ∧
      (Exists fun more : List EngineEvent => (forall event, event ∈ more -> event.ofWorker = true) ∧
        forall number call, s.calls[number]? = some call -> call.stage ≠ .created ->
          ((s.run more).served.map Served.call).count number = 1) ∧
      (forall number key response, s.calls[number]? = some ⟨.get key, .returned response⟩ ->
        Exists fun front => Exists fun entry => Exists fun later => s.served = front ++
          entry :: later ∧
          entry.call = number ∧ forall value,
            response.map (fun entry => (entry.value, entry.expiryNs)) = some value <->
              Latest (changes front) key value) ∧
      forall count first second operation response,
        ((started P numShards memoryLimit kind).run (events.take count)).calls[first]? =
          some ⟨operation, .returned response⟩ ->
        ((started P numShards memoryLimit kind).run (events.take count)).calls.length ≤ second ->
        forall front entry later, s.served = front ++ entry :: later -> entry.call = second ->
          Exists fun earlier => earlier ∈ front ∧ earlier.call = first := by
  intro s
  have initial := sound_started (P := P) numShards memoryLimit kind
  have sound : s.Sound := initial.run events
  have serial : s.Serial := (serial_started numShards memoryLimit kind).run initial calm
  have alive : s.Alive := (alive_started numShards memoryLimit kind).run calm
  refine ⟨sound, ?_, alive.processes_all sound, ?_, ?_⟩
  · intro number operation response returned
    exact sound.processed_once returned (fun stage => nomatch stage) (fun stage => nomatch stage)
  · intro number key response returned
    rcases sound.exists_served returned with ⟨entry, listed, same, get, answer⟩
    rcases List.append_of_mem listed with ⟨front, later, split⟩
    refine ⟨front, entry, later, split, same, fun value => ?_⟩
    rw [← after_eq_some_iff, ← serial.answer split get, answer]
  · intro count first second operation response returned unmade front entry later split call
    have whole : s = ((started P numShards memoryLimit kind).run (events.take count)).run
        (events.drop count) := by
      rw [← run_append, List.take_append_drop]
    rw [whole] at split
    exact processed_in_time (initial.run (events.take count)) (events.drop count) returned
      unmade split call

/-- A turn of the workers of two shards. -/
def turns : List EngineEvent :=
  [.loop 0, .dequeue 0, .process 0 1 1, .loop 1, .dequeue 1, .process 1 1 1]

/-- A client sets key `a` and reads it. -/
def setThenGet : List EngineEvent :=
  [.invoke (.set [97] (ValueEntry.new [49] 0)), .enqueue 0] ++ turns ++ [.complete 0] ++
    [.invoke (.get [97]), .enqueue 1] ++ turns ++ [.complete 1]

theorem linearizable_setThenGet :
    (started Platform.source 2 100 .lru).calmRun setThenGet = true ∧
      ((started Platform.source 2 100 .lru).run setThenGet).served.map Served.call = [0, 1] ∧
      ((started Platform.source 2 100 .lru).run setThenGet).Sound := by
  have calm : (started Platform.source 2 100 .lru).calmRun setThenGet = true := by
    decide +kernel
  exact ⟨calm, by decide +kernel, (linearizable Platform.source 2 100 .lru setThenGet calm).1⟩

end ShardedEngine
end Engine
end KVStore
