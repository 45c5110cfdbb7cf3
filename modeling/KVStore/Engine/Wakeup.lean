import KVStore.Engine.Sharded

namespace KVStore
namespace Engine

open Framing HashTable

variable {P : Platform}

/-!
# Wakeups at shutdown

The wait of a worker on its condition variable in smaller steps: it takes the
mutex, evaluates the predicate, blocks, which releases the mutex, is notified,
and takes the mutex again.  `stop` sets `running_` to false without the mutex,
calls `notify_all` for each shard and joins the workers one after the other.  A
client pushes a request under the mutex and calls `notify_one` behind it.

The engine itself moves by the steps of the coarser model, so that what is
proved there holds here.

A worker that found the queue empty and the engine running blocks even if `stop`
has meanwhile set the flag and notified the shard.  No notification is left to
wake it, and `stop` waits for it for ever.  Apart from that window a worker that
`stop` joins is never blocked.
-/

/-! ## Threads -/

/-- Where a worker is in its wait: before the mutex, at the predicate, behind a
predicate that was false, blocked, notified, or behind a predicate that was true. -/
inductive WaitPoint where
  | locking
  | testing
  | blocking
  | blocked
  | woken
  | passed
deriving DecidableEq

/-- The worker has the mutex of its shard. -/
def WaitPoint.locks : WaitPoint -> Bool
  | .testing => true
  | .blocking => true
  | .passed => true
  | .locking => false
  | .blocked => false
  | .woken => false

/-- How far the call of `stop` is: not made, at the `notify_all` of a shard, at
the `join` of a worker, or back. -/
inductive Stopper where
  | idle
  | notifying (shard : Nat)
  | joining (worker : Nat)
  | returned
deriving DecidableEq

/-- `stop` has called `notify_all` for the shard. -/
def Stopper.notified (id : Nat) : Stopper -> Bool
  | .idle => false
  | .notifying next => decide (id < next)
  | .joining _ => true
  | .returned => true

/-- The engine with the place of each worker in its wait, the number of calls of
`notify_one` that clients have yet to make for each shard, and the thread in
`stop`. -/
structure Threads (P : Platform) where
  engine : ShardedEngine P
  point : Nat -> WaitPoint
  notifies : Nat -> Nat
  stopper : Stopper

/-- What can happen next.  The steps of a client come first, then those of a
worker, and then those of `stop`. -/
inductive ThreadEvent where
  | invoke (operation : Operation)
  | push (call : Nat)
  | notifyOne (shard : Nat)
  | complete (call : Nat)
  | test (shard : Nat)
  | lock (shard : Nat)
  | evaluate (shard : Nat)
  | block (shard : Nat)
  | take (shard : Nat)
  | process (shard : Nat) (now accessNow : UInt64)
  | store
  | notifyAll
  | join

def Worker.waits : Worker -> Bool
  | .waiting => true
  | .looping => false
  | .holding _ => false
  | .exited => false

/-- The worker of the shard is in its wait. -/
def ShardedEngine.waits (s : ShardedEngine P) (id : Nat) : Bool :=
  match s.shards[id]? with
  | some shard => shard.worker.waits
  | none => false

/-- The predicate of the wait. -/
def ShardedEngine.predicate (s : ShardedEngine P) (id : Nat) : Bool :=
  match s.shards[id]? with
  | some shard => !shard.queue.isEmpty || !s.running
  | none => !s.running

namespace Threads

/-- The worker of the shard is at the point of its wait. -/
def At (s : Threads P) (id : Nat) (point : WaitPoint) : Prop :=
  s.engine.waits id = true ∧ s.point id = point

instance (s : Threads P) (id : Nat) (point : WaitPoint) : Decidable (s.At id point) :=
    inferInstanceAs (Decidable (_ ∧ _))

def setPoint (s : Threads P) (id : Nat) (point : WaitPoint) : Threads P :=
  { s with point := Function.update s.point id point }

/-- A notification, which only a blocked worker notices. -/
def wake (s : Threads P) (id : Nat) : Threads P :=
  if s.At id .blocked then s.setPoint id .woken else s

/-- The critical section in which a client pushes its request, if no worker has
the mutex. -/
def push (s : Threads P) (call : Nat) : Threads P :=
  match s.engine.calls[call]? with
  | some ⟨operation, .created⟩ =>
      let id := s.engine.getShardId operation.key
      if s.engine.waits id && (s.point id).locks then s
      else
        { s with
          engine := s.engine.step (.enqueue call)
          notifies := Function.update s.notifies id (s.notifies id + 1) }
  | _ => s

def notifyOne (s : Threads P) (id : Nat) : Threads P :=
  if s.notifies id = 0 then s
  else wake { s with notifies := Function.update s.notifies id (s.notifies id - 1) } id

/-- `while (running_)`. -/
def test (s : Threads P) (id : Nat) : Threads P :=
  match s.engine.shards[id]? with
  | some ⟨_, _, .looping⟩ => setPoint { s with engine := s.engine.step (.loop id) } id .locking
  | _ => s

/-- The mutex, which the worker takes before its first test of the predicate and
again when it is notified. -/
def lock (s : Threads P) (id : Nat) : Threads P :=
  if s.At id .locking ∨ s.At id .woken then s.setPoint id .testing else s

def evaluate (s : Threads P) (id : Nat) : Threads P :=
  if s.At id .testing then s.setPoint id (if s.engine.predicate id then .passed else .blocking) else s

def block (s : Threads P) (id : Nat) : Threads P :=
  if s.At id .blocking then s.setPoint id .blocked else s

/-- The rest of the critical section, behind a predicate that was true. -/
def take (s : Threads P) (id : Nat) : Threads P :=
  if s.At id .passed then { s with engine := s.engine.step (.dequeue id) } else s

/-- `if (!running_) return` and `running_ = false`. -/
def store (s : Threads P) : Threads P :=
  match s.stopper with
  | .idle =>
      if s.engine.running then { s with engine := s.engine.step .stop, stopper := .notifying 0 }
      else { s with stopper := .returned }
  | _ => s

/-- The next round of the loop over the condition variables, or its end. -/
def notifyAll (s : Threads P) : Threads P :=
  match s.stopper with
  | .notifying id =>
      if id < s.engine.shards.length then { s.wake id with stopper := .notifying (id + 1) }
      else { s with stopper := .joining 0 }
  | _ => s

/-- The next round of the loop over the workers, or its end. -/
def join (s : Threads P) : Threads P :=
  match s.stopper with
  | .joining id =>
      match s.engine.shards[id]? with
      | some ⟨_, _, .exited⟩ => { s with stopper := .joining (id + 1) }
      | some _ => s
      | none => { s with stopper := .returned }
  | _ => s

def step (s : Threads P) : ThreadEvent -> Threads P
  | .invoke operation => { s with engine := s.engine.step (.invoke operation) }
  | .push call => s.push call
  | .notifyOne id => s.notifyOne id
  | .complete call => { s with engine := s.engine.step (.complete call) }
  | .test id => s.test id
  | .lock id => s.lock id
  | .evaluate id => s.evaluate id
  | .block id => s.block id
  | .take id => s.take id
  | .process id now accessNow => { s with engine := s.engine.step (.process id now accessNow) }
  | .store => s.store
  | .notifyAll => s.notifyAll
  | .join => s.join

/-- The threads after `start`. -/
def started (P : Platform) (numShards memoryLimit : Nat) (kind : EvictionPolicy) : Threads P where
  engine := ShardedEngine.started P numShards memoryLimit kind
  point := fun _ => .locking
  notifies := fun _ => 0
  stopper := .idle

def run (s : Threads P) (events : List ThreadEvent) : Threads P := events.foldl step s

/-- `stop` waits for a worker that is blocked, and nobody is about to notify it. -/
def Hangs (s : Threads P) (id : Nat) : Prop :=
  s.stopper = .joining id ∧ s.At id .blocked ∧ s.notifies id = 0

instance (s : Threads P) (id : Nat) : Decidable (s.Hangs id) := inferInstanceAs (Decidable (_ ∧ _))

/-! ## What a step can do -/

end Threads

namespace ShardedEngine

variable {s : ShardedEngine P}

theorem waits_setShard {id : Nat} {shard : Shard P} (present : s.shards[id]? = some shard)
    (next : Shard P) (other : Nat) :
    (s.setShard id next).waits other = if id = other then next.worker.waits else s.waits other := by
  rw [waits, shards_setShard present]
  by_cases here : id = other
  · rw [if_pos here, if_pos here]
  · rw [if_neg here, if_neg here]
    rfl

theorem predicate_setShard {id : Nat} {shard : Shard P} (present : s.shards[id]? = some shard)
    (next : Shard P) (other : Nat) :
    (s.setShard id next).predicate other =
      if id = other then !next.queue.isEmpty || !s.running else s.predicate other := by
  rw [predicate, shards_setShard present]
  by_cases here : id = other
  · rw [if_pos here, if_pos here]
    rfl
  · rw [if_neg here, if_neg here]
    rfl

theorem predicate_of_stopped (stopped : s.running = false) (id : Nat) : s.predicate id = true := by
  rw [predicate, stopped]
  split
  · exact Bool.or_true _
  · rfl

theorem running_of_predicate {id : Nat} (untrue : s.predicate id = false) : s.running = true := by
  by_contra stopped
  rw [predicate_of_stopped (Bool.not_eq_true _ ▸ stopped)] at untrue
  cases untrue

theorem lt_of_waits {id : Nat} (waiting : s.waits id = true) : id < s.shards.length := by
  by_contra outside
  rw [waits, List.getElem?_eq_none (Nat.not_lt.mp outside)] at waiting
  cases waiting

/-- No worker enters its wait, and for those in it the predicate stays true. -/
structure Keeps (s t : ShardedEngine P) : Prop where
  running : t.running = s.running
  waits : forall id, t.waits id = true -> s.waits id = true ∧
    (s.predicate id = true -> t.predicate id = true)

theorem Keeps.refl (s : ShardedEngine P) : Keeps s s :=
  ⟨rfl, fun _ waiting => ⟨waiting, fun held => held⟩⟩

theorem keeps_setShard {id : Nat} {shard : Shard P} (present : s.shards[id]? = some shard)
    (next : Shard P)
    (stays : next.worker.waits = true -> shard.worker.waits = true ∧ next.queue ≠ []) :
    Keeps s (s.setShard id next) := by
  refine ⟨rfl, fun other waiting => ?_⟩
  rw [waits_setShard present] at waiting
  rw [predicate_setShard present]
  split at waiting
  next here =>
    have before := stays waiting
    rw [if_pos here, List.isEmpty_eq_false_iff.mpr before.2]
    refine ⟨?_, fun _ => rfl⟩
    rw [← here, waits, present]
    exact before.1
  next elsewhere =>
    rw [if_neg elsewhere]
    exact ⟨waiting, fun held => held⟩

theorem keeps_enqueue (s : ShardedEngine P) (call : Nat) : Keeps s (s.step (.enqueue call)) := by
  rw [step, enqueue]
  split
  next operation created =>
    split
    next shard target =>
      have kept := keeps_setShard target { shard with queue := shard.queue ++ [⟨operation, call⟩] }
        fun waiting => ⟨waiting, List.append_ne_nil_of_right_ne_nil _ (List.cons_ne_nil _ _)⟩
      exact ⟨kept.running, kept.waits⟩
    next => exact .refl s
  next => exact .refl s

theorem keeps_dequeue (s : ShardedEngine P) (id : Nat) : Keeps s (s.step (.dequeue id)) := by
  rw [step, dequeue]
  split
  next table request queue present =>
      exact keeps_setShard present _ fun waiting => absurd waiting Bool.false_ne_true
  next table present =>
    split
    · exact .refl s
    · exact keeps_setShard present _ fun waiting => absurd waiting Bool.false_ne_true
  next => exact .refl s

theorem keeps_process (s : ShardedEngine P) (id : Nat) (now accessNow : UInt64) :
    Keeps s (s.step (.process id now accessNow)) := by
  rw [step, process]
  split
  next table queue request present =>
    have kept := keeps_setShard present
      ⟨(request.operation.serve table now accessNow).1, queue, .looping⟩ fun waiting =>
        absurd waiting Bool.false_ne_true
    exact ⟨kept.running, kept.waits⟩
  next => exact .refl s

theorem keeps_complete (s : ShardedEngine P) (call : Nat) : Keeps s (s.step (.complete call)) := by
  rw [step, complete]
  split
  · exact ⟨rfl, (Keeps.refl s).waits⟩
  · exact .refl s

end ShardedEngine

namespace Threads

open ShardedEngine

/-- The ways a step can go.  A worker that does not block is moved to another
point of its wait, and it is moved to one before or behind its blocking only if
it was before it already or the engine runs. -/
inductive Acts (s : Threads P) : ThreadEvent -> Threads P -> Prop where
  | nothing (event : ThreadEvent) : Acts s event s
  | engine (event : ThreadEvent) (coarse : EngineEvent) (notifies : Nat -> Nat)
      (keeps : Keeps s.engine (s.engine.step coarse)) :
      Acts s event { s with engine := s.engine.step coarse, notifies := notifies }
  | test (id : Nat) (running : (s.engine.step (.loop id)).running = s.engine.running)
      (others : forall other, id ≠ other -> (s.engine.step (.loop id)).waits other =
        s.engine.waits other ∧
        (s.engine.step (.loop id)).predicate other = s.engine.predicate other) :
      Acts s (.test id) (setPoint { s with engine := s.engine.step (.loop id) } id .locking)
  | move (event : ThreadEvent) (id : Nat) (point : WaitPoint) (notifies : Nat -> Nat)
      (waiting : s.engine.waits id = true)
      (early : point = .blocking ∨ point = .blocked -> s.At id .blocking ∨ s.engine.running = true)
      (holds : point = .passed -> s.engine.predicate id = true) :
      Acts s event (setPoint { s with notifies := notifies } id point)
  | notify (event : ThreadEvent) (notifies : Nat -> Nat) :
    Acts s event { s with notifies := notifies }
  | store (idle : s.stopper = .idle) (running : s.engine.running = true) :
      Acts s .store { s with engine := s.engine.step .stop, stopper := .notifying 0 }
  | refuse (idle : s.stopper = .idle) (stopped : s.engine.running = false) :
      Acts s .store { s with stopper := .returned }
  | notifyAll (id : Nat) (notifying : s.stopper = .notifying id) :
      Acts s .notifyAll { s.wake id with stopper := .notifying (id + 1) }
  | notified (id : Nat) (notifying : s.stopper = .notifying id) (all : s.engine.shards.length ≤ id) :
      Acts s .notifyAll { s with stopper := .joining 0 }
  | join (id : Nat) (joining : s.stopper = .joining id) (next : Stopper)
      (later : next = .joining (id + 1) ∨ next = .returned) : Acts s .join { s with stopper := next }

theorem acts_step (s : Threads P) (event : ThreadEvent) : Acts s event (s.step event) := by
  cases event with
  | invoke operation =>
      exact .engine _ (.invoke operation) s.notifies ⟨rfl, (Keeps.refl s.engine).waits⟩
  | push call =>
      rw [step, push]
      split
      · simp only
        split
        · exact .nothing _
        · exact .engine _ (.enqueue call) _ (keeps_enqueue s.engine call)
      · exact .nothing _
  | notifyOne id =>
      rw [step, notifyOne]
      split
      · exact .nothing _
      · rw [wake]
        split
        next blocked =>
          exact .move _ id .woken _ blocked.1 (fun moved => by simp at moved)
            (fun moved => by cases moved)
        next => exact .notify _ _
  | complete call => exact .engine _ (.complete call) s.notifies (keeps_complete s.engine call)
  | test id =>
      rw [step, test]
      split
      next table queue present =>
        have looped : s.engine.step (.loop id) =
            s.engine.setShard id ⟨table, queue, if s.engine.running then .waiting else .exited⟩ := by
          simp only [ShardedEngine.step, ShardedEngine.loop, present]
        refine .test id (looped ▸ rfl) fun other different => ?_
        rw [looped, waits_setShard present, predicate_setShard present, if_neg different,
          if_neg different]
        exact ⟨rfl, rfl⟩
      next => exact .nothing _
  | lock id =>
      rw [step, lock]
      split
      next before =>
        have waiting : s.engine.waits id = true := before.elim And.left And.left
        exact .move _ id .testing s.notifies waiting (fun moved => by simp at moved)
          (fun moved => by cases moved)
      next => exact .nothing _
  | evaluate id =>
      rw [step, evaluate]
      split
      next testing =>
        refine .move _ id _ s.notifies testing.1 ?_ ?_
        · intro moved
          cases value : s.engine.predicate id with
          | true =>
              rw [value] at moved
              simp at moved
          | false => exact Or.inr (running_of_predicate value)
        · intro moved
          by_contra untrue
          rw [if_neg untrue] at moved
          cases moved
      next => exact .nothing _
  | block id =>
      rw [step, block]
      split
      next blocking =>
          exact .move _ id .blocked s.notifies blocking.1 (fun _ => Or.inl blocking)
            (fun moved => by cases moved)
      next => exact .nothing _
  | take id =>
      rw [step, take]
      split
      · exact .engine _ (.dequeue id) s.notifies (keeps_dequeue s.engine id)
      · exact .nothing _
  | process id now accessNow =>
      exact .engine _ (.process id now accessNow) s.notifies (keeps_process s.engine id now accessNow)
  | store =>
      rw [step, store]
      split
      next idle =>
        split
        next running => exact .store idle running
        next stopped => exact .refuse idle (Bool.not_eq_true _ ▸ stopped)
      next => exact .nothing _
  | notifyAll =>
      rw [step, notifyAll]
      split
      next id notifying =>
        split
        · exact .notifyAll id notifying
        next all => exact .notified id notifying (Nat.not_lt.mp all)
      next => exact .nothing _
  | join =>
      rw [step, join]
      split
      next id joining =>
        split
        · exact .join id joining _ (Or.inl rfl)
        · exact .nothing _
        · exact .join id joining _ (Or.inr rfl)
      next => exact .nothing _

/-! ## The engine below -/

@[simp] theorem engine_wake (s : Threads P) (id : Nat) : (s.wake id).engine = s.engine := by
  rw [wake]
  split <;> rfl

/-- A step is one of the engine below, or the engine does not see it. -/
theorem engine_step (s : Threads P) (event : ThreadEvent) :
    Exists fun coarse => (s.step event).engine = s.engine.run coarse := by
  have acts := acts_step s event
  generalize s.step event = after at acts ⊢
  cases acts with
  | engine _ coarse notifies keeps => exact ⟨[coarse], rfl⟩
  | test id running others => exact ⟨[.loop id], rfl⟩
  | store idle running => exact ⟨[.stop], rfl⟩
  | notifyAll id notifying => exact ⟨[], engine_wake s id⟩
  | nothing | move | notify | refuse | notified | join => exact ⟨[], rfl⟩

/-- Every run of the threads is a run of the engine below. -/
theorem engine_run (s : Threads P) (events : List ThreadEvent) :
    Exists fun coarse => (s.run events).engine = s.engine.run coarse := by
  induction events generalizing s with
  | nil => exact ⟨[], rfl⟩
  | cons event events ih =>
      rcases engine_step s event with ⟨first, stepped⟩
      rcases ih (s.step event) with ⟨later, ran⟩
      refine ⟨first ++ later, ran.trans ?_⟩
      rw [stepped, run_append]

/-! ## Places after a step -/

variable {s : Threads P}

theorem at_setPoint {id other : Nat} {point place : WaitPoint} :
    (s.setPoint id point).At other place <->
      s.engine.waits other = true ∧ (if other = id then point else s.point other) = place := by
  change _ ∧ Function.update s.point id point other = place <-> _
  rw [Function.update_apply]
  exact Iff.rfl

/-- A notification moves a worker only from its blocking. -/
theorem at_wake {id other : Nat} {place : WaitPoint} (stands : (s.wake id).At other place)
    (unmoved : place ≠ .woken) : s.At other place ∧ ¬ (other = id ∧ place = .blocked) := by
  rw [wake] at stands
  split at stands
  next blocked =>
    rcases at_setPoint.mp stands with ⟨waiting, moved⟩
    split at moved
    · exact absurd moved.symm unmoved
    next elsewhere => exact ⟨⟨waiting, moved⟩, fun here => elsewhere here.1⟩
  next other =>
    refine ⟨stands, ?_⟩
    rintro ⟨rfl, rfl⟩
    exact other stands

/-- The flag is false from the call of `stop` on, and behind a predicate that was
true it is true still, so that the worker takes a request or leaves. -/
structure Sane (s : Threads P) : Prop where
  flag : s.stopper = .idle <-> s.engine.running = true
  passed : forall id, s.At id .passed -> s.engine.predicate id = true

theorem sane_started (numShards memoryLimit : Nat) (kind : EvictionPolicy) :
    (started P numShards memoryLimit kind).Sane :=
  ⟨iff_of_true rfl rfl, fun _ stands => nomatch stands.2⟩

theorem Sane.stopped (sane : s.Sane) (called : s.stopper ≠ .idle) : s.engine.running = false :=
  Bool.not_eq_true _ ▸ fun running => called (sane.flag.mpr running)

theorem Sane.step (sane : s.Sane) (event : ThreadEvent) : (s.step event).Sane := by
  have acts := acts_step s event
  generalize s.step event = after at acts ⊢
  cases acts with
  | nothing => exact sane
  | engine _ coarse notifies keeps =>
      refine ⟨keeps.running ▸ sane.flag, fun id stands => ?_⟩
      rcases keeps.waits id stands.1 with ⟨waited, kept⟩
      exact kept (sane.passed id ⟨waited, stands.2⟩)
  | test id running others =>
      refine ⟨running ▸ sane.flag, fun other stands => ?_⟩
      rcases at_setPoint.mp stands with ⟨waiting, place⟩
      split at place
      · cases place
      next elsewhere =>
        have same := others other (Ne.symm elsewhere)
        exact same.2.trans (sane.passed other ⟨same.1.symm.trans waiting, place⟩)
  | move _ id point notifies waiting early holds =>
      refine ⟨sane.flag, fun other stands => ?_⟩
      rcases at_setPoint.mp stands with ⟨waits, place⟩
      split at place
      next here => exact here ▸ holds place
      next => exact sane.passed other ⟨waits, place⟩
  | notify _ notifies => exact ⟨sane.flag, sane.passed⟩
  | store idle running =>
      refine ⟨iff_of_false (fun stopper => nomatch stopper) (fun running => nomatch running),
        fun id _ => ?_⟩
      exact predicate_of_stopped rfl id
  | refuse idle stopped => exact absurd (sane.flag.mp idle) (Bool.not_eq_true _ ▸ stopped)
  | notifyAll id notifying =>
      have called : s.stopper ≠ .idle := fun idle => nomatch idle.symm.trans notifying
      refine ⟨iff_of_false (fun stopper => nomatch stopper) ?_, fun other stands => ?_⟩
      · rw [engine_wake, sane.stopped called]
        exact Bool.false_ne_true
      · have before := at_wake stands (fun same => nomatch same)
        rw [engine_wake]
        exact sane.passed other before.1
  | notified id notifying all =>
      have called : s.stopper ≠ .idle := fun idle => nomatch idle.symm.trans notifying
      exact ⟨iff_of_false (fun stopper => nomatch stopper)
        (sane.stopped called ▸ Bool.false_ne_true), sane.passed⟩
  | join id joining next later =>
      have called : s.stopper ≠ .idle := fun idle => nomatch idle.symm.trans joining
      refine ⟨iff_of_false (fun stopper => ?_)
        (sane.stopped called ▸ Bool.false_ne_true), sane.passed⟩
      rcases later with rfl | rfl <;> cases stopper

/-! ## Wakeups -/

/-- No worker is before its blocking or blocked when its shard was notified. -/
def Awake (s : Threads P) : Prop :=
  forall id, s.stopper.notified id = true -> ¬ s.At id .blocking ∧ ¬ s.At id .blocked

/-- The call of `notify_all` that comes next does not meet a worker between its
test of the predicate and its blocking. -/
def timely (s : Threads P) : ThreadEvent -> Bool
  | .notifyAll =>
      match s.stopper with
      | .notifying id => decide (¬ s.At id .blocking)
      | _ => true
  | _ => true

/-- The rule for steps that bring no worker to its blocking whose shard was
notified before. -/
theorem Awake.of_places {s after : Threads P} (awake : s.Awake)
    (notified : forall id, after.stopper.notified id = true -> s.stopper.notified id = true)
    (earlier : forall id place, s.stopper.notified id = true -> place = .blocking ∨
      place = .blocked -> after.At id place -> s.At id place) :
    after.Awake := by
  intro id isNotified
  have before := awake id (notified id isNotified)
  exact ⟨fun stands => before.1 (earlier id _ (notified id isNotified) (Or.inl rfl) stands),
    fun stands => before.2 (earlier id _ (notified id isNotified) (Or.inr rfl) stands)⟩

/-- The call of `notify_all` for the next shard. -/
theorem Awake.notifyAll (awake : s.Awake) {id : Nat} (notifying : s.stopper = .notifying id)
    (clear : ¬ s.At id .blocking) : Awake { s.wake id with stopper := .notifying (id + 1) } := by
  intro other notified
  have reached : other < id + 1 := of_decide_eq_true notified
  have before : other ≠ id -> ¬ s.At other .blocking ∧ ¬ s.At other .blocked := by
    intro different
    apply awake other
    rw [notifying]
    exact decide_eq_true (by omega)
  constructor
  · intro stands
    have stood := (at_wake stands (fun same => nomatch same)).1
    by_cases same : other = id
    · exact clear (same ▸ stood)
    · exact (before same).1 stood
  · intro stands
    have stood := at_wake stands (fun same => nomatch same)
    exact (before fun same => stood.2 ⟨same, rfl⟩).2 stood.1

theorem Awake.step (awake : s.Awake) (sane : s.Sane) {event : ThreadEvent}
    (timely : s.timely event = true) : (s.step event).Awake := by
  have acts := acts_step s event
  generalize s.step event = after at acts ⊢
  cases acts with
  | nothing => exact awake
  | engine _ coarse notifies keeps =>
      refine awake.of_places (fun _ notified => notified) ?_
      intro id place _ _ stands
      exact ⟨(keeps.waits id stands.1).1, stands.2⟩
  | test id running others =>
      refine awake.of_places (fun _ notified => notified) ?_
      intro other place _ late stands
      rcases at_setPoint.mp stands with ⟨waiting, here⟩
      split at here
      · subst here
        rcases late with late | late <;> cases late
      next elsewhere => exact ⟨(others other (Ne.symm elsewhere)).1.symm.trans waiting, here⟩
  | move _ id point notifies waiting early holds =>
      refine awake.of_places (fun _ notified => notified) ?_
      intro other place notified late stands
      rcases at_setPoint.mp stands with ⟨waits, here⟩
      split at here
      next same =>
        subst same here
        have called : s.stopper ≠ .idle := by
          intro idle
          rw [idle] at notified
          cases notified
        rcases early late with blocking | running
        · exact absurd blocking (awake other notified).1
        · exact nomatch running.symm.trans (sane.stopped called)
      next => exact ⟨waits, here⟩
  | notify _ notifies => exact awake
  | store idle running =>
      intro id notified
      have reached : id < 0 := of_decide_eq_true notified
      exact absurd reached (Nat.not_lt_zero id)
  | refuse idle stopped => exact absurd (sane.flag.mp idle) (Bool.not_eq_true _ ▸ stopped)
  | notifyAll id notifying =>
      rw [Threads.timely, notifying] at timely
      exact awake.notifyAll notifying (of_decide_eq_true timely)
  | notified id notifying all =>
      intro other _
      by_cases inside : other < id
      · apply awake other
        rw [notifying]
        exact decide_eq_true inside
      · have absent : forall {place : WaitPoint}, ¬ s.At other place :=
          fun stands => inside (Nat.lt_of_lt_of_le (lt_of_waits stands.1) all)
        exact ⟨absent, absent⟩
  | join id joining next later =>
      refine awake.of_places (fun other _ => ?_) (fun _ _ _ _ stands => stands)
      rw [joining]
      rfl

/-- Every call of `notify_all` in the run is timely. -/
def timelyRun : Threads P -> List ThreadEvent -> Bool
  | _, [] => true
  | s, event :: events => s.timely event && timelyRun (s.step event) events

theorem Awake.run (awake : s.Awake) (sane : s.Sane) {events : List ThreadEvent}
    (timely : s.timelyRun events = true) : (s.run events).Awake := by
  induction events generalizing s with
  | nil => exact awake
  | cons event events ih =>
      rcases Bool.and_eq_true_iff.mp timely with ⟨now, later⟩
      exact ih (awake.step sane now) (sane.step event) later

theorem awake_started (numShards memoryLimit : Nat) (kind : EvictionPolicy) :
    (started P numShards memoryLimit kind).Awake :=
  fun _ notified => nomatch notified

/-- `stop` never waits for a blocked worker that nobody notifies, in a run in
which no `notify_all` comes between a test of the predicate that fails and the
blocking of the same worker. -/
theorem shutdown_never_hangs (P : Platform) (numShards memoryLimit : Nat) (kind : EvictionPolicy)
    (events : List ThreadEvent)
    (timely : (started P numShards memoryLimit kind).timelyRun events = true) (id : Nat) :
    ¬ ((started P numShards memoryLimit kind).run events).Hangs id := by
  rintro ⟨joining, blocked, _⟩
  have awake := (awake_started numShards memoryLimit kind).run
    (sane_started numShards memoryLimit kind) timely
  refine (awake id ?_).2 blocked
  rw [joining]
  rfl

/-- The worker is blocked when it is notified, and leaves. -/
theorem shutdown_never_hangs_blocked :
    ¬ ((started Platform.source 1 100 .lru).run
      [.test 0, .lock 0, .evaluate 0, .block 0, .store, .notifyAll, .notifyAll, .lock 0,
          .evaluate 0, .take 0]).Hangs 0 :=
  shutdown_never_hangs Platform.source 1 100 .lru _ (by decide +kernel) 0

/-- The worker is notified between its test of the predicate and its blocking. -/
theorem shutdown_loses_wakeup :
    ((started Platform.source 1 100 .lru).run
      [.test 0, .lock 0, .evaluate 0, .store, .notifyAll, .block 0, .notifyAll]).Hangs 0 := by
  decide +kernel

end Threads
end Engine
end KVStore
