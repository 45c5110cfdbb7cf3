import KVStore.Engine.Linearizable

namespace KVStore
namespace Engine

open Framing HashTable

variable {P : Platform}

/-!
# Requests at shutdown

`stop` sets `running_` to false, wakes the workers and joins them.  A worker that
is at the head of its loop, or that gets there, leaves without a look at its
queue, so that a stopped engine processes at most one more request for each
shard: the one that a worker holds, or the next one of a worker in its critical
section.  What stands behind it in the queue is left, its promise has no value,
and the client waits for ever.
-/

/-- The requests of a shard that its worker does not take from the queue of a
stopped engine. -/
def Shard.left (shard : Shard P) : List Request :=
  match shard.worker with
  | .waiting => shard.queue.tail
  | .looping => shard.queue
  | .holding _ => shard.queue
  | .exited => shard.queue

namespace ShardedEngine

/-- The call stands in the queue of a worker that will not take it. -/
def Stranded (s : ShardedEngine P) (number : Nat) : Prop :=
  Exists fun id : Nat => Exists fun shard : Shard P =>
    s.shards[id]? = some shard ∧ number ∈ shard.left.map Request.promise

/-- A worker has processed the call, and its promise has the value that the
worker gave it. -/
def Answered (s : ShardedEngine P) (number : Nat) : Prop :=
  Exists fun entry => entry ∈ s.served ∧ entry.call = number ∧
    (s.calls[number]? = some ⟨entry.operation, .fulfilled entry.response⟩ ∨
      s.calls[number]? = some ⟨entry.operation, .returned entry.response⟩)

variable {s : ShardedEngine P}

theorem stranded_setShard {id number : Nat} {shard next : Shard P}
    (present : s.shards[id]? = some shard)
    (same : number ∈ next.left.map Request.promise <-> number ∈ shard.left.map Request.promise) :
    (s.setShard id next).Stranded number <-> s.Stranded number := by
  constructor
  · rintro ⟨other, place, there, member⟩
    rw [shards_setShard present] at there
    split at there
    next here =>
      cases there
      exact ⟨id, shard, present, same.mp member⟩
    next => exact ⟨other, place, there, member⟩
  · rintro ⟨other, place, there, member⟩
    by_cases here : id = other
    · subst here
      rw [present] at there
      cases there
      exact ⟨id, next, (shards_setShard present next id).trans (if_pos rfl), same.mpr member⟩
    · exact ⟨other, place, ((shards_setShard present next other).trans (if_neg here)).trans
        there, member⟩

variable {number : Nat}

/-- A request at the end of the queue does not change which other calls are left. -/
theorem mem_left_push {shard : Shard P} {request : Request} (different : request.promise ≠ number) :
    number ∈ (Shard.left { shard with queue := shard.queue ++ [request] }).map Request.promise <->
      number ∈ shard.left.map Request.promise := by
  have behind : forall queue : List Request,
      number ∈ (queue ++ [request]).map Request.promise <-> number ∈ queue.map Request.promise := by
    intro queue
    rw [List.map_append, List.mem_append, List.map_singleton, List.mem_singleton]
    exact or_iff_left (Ne.symm different)
  rcases shard with ⟨table, queue, worker⟩
  cases worker with
  | waiting =>
      cases queue with
      | nil => exact Iff.rfl
      | cons first queue => exact behind queue
  | looping => exact behind queue
  | holding held => exact behind queue
  | exited => exact behind queue

/-- In a stopped engine no step takes a call from those that are left, and none
adds a call that was enqueued before. -/
theorem stranded_step (stopped : s.running = false) {call : ClientCall}
    (made : s.calls[number]? = some call) (enqueued : call.stage ≠ .created) (event : EngineEvent) :
    (s.step event).Stranded number <-> s.Stranded number := by
  cases event with
  | invoke operation => exact Iff.rfl
  | enqueue id =>
      rw [step, enqueue]
      split
      next operation created =>
        split
        next shard target =>
          refine stranded_setShard target (mem_left_push ?_)
          rintro rfl
          rw [made] at created
          cases created
          exact enqueued rfl
        next => exact Iff.rfl
      next => exact Iff.rfl
  | loop id =>
      rw [step, loop, stopped]
      split
      next table queue present => exact stranded_setShard present Iff.rfl
      next => exact Iff.rfl
  | dequeue id =>
      rw [step, dequeue, stopped]
      split
      next table request queue present => exact stranded_setShard present Iff.rfl
      next table present => exact stranded_setShard present Iff.rfl
      next => exact Iff.rfl
  | process id now accessNow =>
      rw [step, process]
      split
      next table queue request present => exact stranded_setShard present Iff.rfl
      next => exact Iff.rfl
  | complete id =>
      rw [step, complete]
      split
      next => exact Iff.rfl
      next => exact Iff.rfl
  | stop => exact Iff.rfl

theorem running_step (stopped : s.running = false) (event : EngineEvent) :
    (s.step event).running = false := by
  have acts := acts_step s event
  generalize s.step event = after at acts ⊢
  cases acts with
  | stop => rfl
  | nothing | invoke | enqueue | turn | process | complete => exact stopped

theorem stranded_run (stopped : s.running = false) {call : ClientCall}
    (made : s.calls[number]? = some call) (enqueued : call.stage ≠ .created)
    (events : List EngineEvent) :
    (s.run events).Stranded number <-> s.Stranded number := by
  induction events generalizing s call with
  | nil => exact Iff.rfl
  | cons event events ih =>
      rcases enqueued_step made enqueued event with ⟨stage, stepped, later⟩
      have rest := ih (running_step stopped event) stepped later
      exact rest.trans (stranded_step stopped made enqueued event)

theorem Sound.answered_of_mem (sound : s.Sound) (member : number ∈ s.served.map Served.call) :
    s.Answered number := by
  rcases List.mem_map.mp member with ⟨entry, listed, rfl⟩
  exact ⟨entry, listed, rfl, (sound.recorded listed).2⟩

/-- When all workers have left, a call is answered unless it was left in a queue. -/
theorem Sound.answered_iff (sound : s.Sound)
    (joined : forall shard, shard ∈ s.shards -> shard.worker = .exited) {call : ClientCall}
    (made : s.calls[number]? = some call) (enqueued : call.stage ≠ .created) :
    s.Answered number <-> ¬ s.Stranded number := by
  have pending : forall {shard}, shard ∈ s.shards -> shard.pending = shard.left := by
    intro shard member
    rw [Shard.pending, Shard.left, joined shard member]
    rfl
  constructor
  · rintro ⟨entry, listed, rfl, _⟩ ⟨id, shard, present, member⟩
    rw [← pending (List.mem_of_getElem? present)] at member
    rcases List.mem_map.mp member with ⟨request, queued, same⟩
    have waits := (sound.located present queued).2
    exact sound.call_ne waits (Or.inr rfl) entry listed same.symm
  · intro free
    rcases sound.once made enqueued with ⟨shard, present, counted⟩
    have absent : (shard.pending.map Request.promise).count number = 0 := by
      rw [pending (List.mem_of_getElem? present)]
      exact List.count_eq_zero.mpr fun member => free ⟨_, shard, present, member⟩
    rw [absent, Nat.zero_add] at counted
    exact sound.answered_of_mem (List.count_pos_iff.mp (by omega))

/-- When `stop` has returned, every call that was enqueued before `stop` was
called is answered exactly when none of them was stranded at the moment at which
`stop` set `running_` to false. -/
theorem shutdown_answers_iff (P : Platform) (numShards memoryLimit : Nat) (kind : EvictionPolicy)
    (before between after : List EngineEvent) :
    let called := (started P numShards memoryLimit kind).run before
    let stored := called.run between
    let returned := (stored.step .stop).run after
    (forall shard, shard ∈ returned.shards -> shard.worker = .exited) ->
      ((forall number call, called.calls[number]? = some call -> call.stage ≠ .created ->
        returned.Answered number) <->
        forall number call, called.calls[number]? = some call -> call.stage ≠ .created ->
            ¬ stored.Stranded number) := by
  intro called stored returned joined
  have sound : returned.Sound := by
    have initial := sound_started (P := P) numShards memoryLimit kind
    exact (((initial.run before).run between).step .stop).run after
  have each : forall number call, called.calls[number]? = some call -> call.stage ≠ .created ->
      (returned.Answered number <-> ¬ stored.Stranded number) := by
    intro number call made enqueued
    rcases enqueued_run made enqueued between with ⟨stage, madeLater, later⟩
    have stopped : (stored.step .stop).running = false := rfl
    have sameCalls : (stored.step .stop).calls[number]? = some ⟨call.operation, stage⟩ := madeLater
    rcases enqueued_run sameCalls later after with ⟨final, madeLast, last⟩
    rw [sound.answered_iff joined madeLast last, stranded_run stopped sameCalls later]
    exact Iff.rfl
  exact forall_congr' fun number => forall_congr' fun call => forall_congr' fun made =>
    forall_congr' fun enqueued => each number call made enqueued

/-- A client sets key `a`; the request is in the queue of the only shard. -/
def enqueued : ShardedEngine Platform.source :=
  (started Platform.source 1 100 .lru).run [.invoke (.set [97] (ValueEntry.new [49] 0)), .enqueue 0]

/-- The worker waits for the request when `stop` sets the flag, and answers it. -/
theorem shutdown_answers_waiting :
    (((enqueued.run [.loop 0]).step .stop).run [.dequeue 0, .process 0 1 1, .loop 0]).Answered 0 := by
  refine (shutdown_answers_iff Platform.source 1 100 .lru
    [.invoke (.set [97] (ValueEntry.new [49] 0)), .enqueue 0] [.loop 0]
    [.dequeue 0, .process 0 1 1, .loop 0] ?_).mpr
    ?_ 0 ⟨.set [97] (ValueEntry.new [49] 0), .waiting⟩ rfl (fun stage => nomatch stage)
  · intro shard member
    cases List.mem_singleton.mp member
    rfl
  · rintro number call _ _ ⟨id, shard, present, member⟩
    cases List.mem_singleton.mp (List.mem_of_getElem? present)
    cases member

/-- The worker is at the head of its loop when `stop` sets the flag, and leaves
without an answer. -/
theorem shutdown_loses_request :
    enqueued.calls = [⟨.set [97] (ValueEntry.new [49] 0), .waiting⟩] ∧
      (forall shard, shard ∈ ((enqueued.step .stop).run [.loop 0]).shards -> shard.worker = .exited) ∧
      ¬ ((enqueued.step .stop).run [.loop 0]).Answered 0 := by
  refine ⟨rfl, fun shard member => ?_, ?_⟩
  · cases List.mem_singleton.mp member
    rfl
  · rintro ⟨entry, listed, _⟩
    cases listed

end ShardedEngine
end Engine
end KVStore
