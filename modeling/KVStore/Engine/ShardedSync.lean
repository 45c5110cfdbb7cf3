import KVStore.Engine.Linearizable

namespace KVStore
namespace Engine

open Framing HashTable Bindings

variable {P : Platform}

/-!
# The synchronous sharded engine

`ShardedEngineSync` of `engine/include/sharded_engine_sync.h` calls the table of
a shard directly, under the mutex of the shard, and routes keys by another hash
function than `ShardedEngine`.  Used by one client at a time, both engines are
one map, spread over their shards in different ways.

They answer alike but for `remove`: the queues of `ShardedEngine` lose its
result, so that a client is told that it removed a key that was never there.
-/

/-! ## The engine -/

/-- The shards of the engine.  A mutex that is held during a whole call is not
seen by a client that makes one call after the other. -/
structure ShardedEngineSync (P : Platform) where
  shards : List (HashTable P)

/-- The rotations of `murmur3_hash`. -/
def rotl (word : UInt32) (bits : UInt32) : UInt32 := (word <<< bits) ||| (word >>> (32 - bits))

def murmur3Round (hash : UInt32) (byte : UInt8) : UInt32 :=
  rotl (hash ^^^ (rotl (byte.toUInt32 * 0xcc9e2d51) 15 * 0x1b873593)) 13 * 5 + 0xe6546b64

def murmur3Hash (key : Bytes) : UInt32 :=
  let hash := key.foldl murmur3Round 0
  let hash := hash ^^^ UInt32.ofNat key.length
  let hash := hash ^^^ (hash >>> 16)
  let hash := hash * 0x85ebca6b
  let hash := hash ^^^ (hash >>> 13)
  let hash := hash * 0xc2b2ae35
  hash ^^^ (hash >>> 16)

namespace ShardedEngineSync

def new (P : Platform) (numShards memoryLimit : Nat) (kind : EvictionPolicy) :
    ShardedEngineSync P where
  shards := List.replicate numShards (HashTable.new 16 memoryLimit kind none)

def getShardId (s : ShardedEngineSync P) (key : Bytes) : Nat :=
  (murmur3Hash key).toNat % s.shards.length

def get (s : ShardedEngineSync P) (key : Bytes) (now accessNow : UInt64) :
    ShardedEngineSync P × Option ValueEntry :=
  match s.shards[s.getShardId key]? with
  | some table =>
      let result := table.get key now accessNow
      (⟨s.shards.set (s.getShardId key) result.1⟩, result.2)
  | none => (s, none)

/-- The tables return true from every `insert`. -/
def set (s : ShardedEngineSync P) (key : Bytes) (value : ValueEntry) : ShardedEngineSync P × Bool :=
  match s.shards[s.getShardId key]? with
  | some table => (⟨s.shards.set (s.getShardId key) (table.insert key value)⟩, true)
  | none => (s, true)

def remove (s : ShardedEngineSync P) (key : Bytes) : ShardedEngineSync P × Bool :=
  match s.shards[s.getShardId key]? with
  | some table =>
      let result := table.remove key
      (⟨s.shards.set (s.getShardId key) result.1⟩, result.2)
  | none => (s, false)

def totalEntries (s : ShardedEngineSync P) : Nat := (s.shards.map HashTable.size).sum

end ShardedEngineSync

/-! ## What clients see -/

/-- What a call returns. -/
inductive CallResult where
  | entry (value : Option ValueEntry)
  | flag (done : Bool)

/-- What of it does not depend on the clock: the flag, or the value and the
expiry time of an entry. -/
def CallResult.seen : CallResult -> Option (Bytes × UInt64) ⊕ Bool
  | .entry value => .inl (value.map fun entry => (entry.value, entry.expiryNs))
  | .flag done => .inr done

/-- What `get`, `set` and `remove` of `ShardedEngine` make of the response of the
worker. -/
def Operation.result (response : Option ValueEntry) : Operation -> CallResult
  | .get _ => .entry response
  | .set _ _ => .flag true
  | .remove _ => .flag true

/-- What the call has returned. -/
def ClientCall.result (call : ClientCall) : Option CallResult :=
  match call.stage with
  | .returned response => some (call.operation.result response)
  | _ => none

/-- What the clients of the engine see, call by call. -/
def ShardedEngine.results (s : ShardedEngine P) : List (Option (Option (Bytes × UInt64) ⊕ Bool)) :=
  s.calls.map fun call => call.result.map CallResult.seen

/-- What the client sees of the results of its calls. -/
def seenResults (results : List CallResult) : List (Option (Option (Bytes × UInt64) ⊕ Bool)) :=
  results.map fun result => some result.seen

def ShardedEngine.totalEntries (s : ShardedEngine P) : Nat :=
  (s.shards.map fun shard => shard.table.size).sum

/-- A call on the synchronous engine, with the readings of the clock. -/
structure SyncCall where
  operation : Operation
  now : UInt64
  accessNow : UInt64

namespace ShardedEngineSync

def call (s : ShardedEngineSync P) (made : SyncCall) : ShardedEngineSync P × CallResult :=
  match made.operation with
  | .get key => ((s.get key made.now made.accessNow).1, .entry (s.get key made.now made.accessNow).2)
  | .set key value => ((s.set key value).1, .flag (s.set key value).2)
  | .remove key => ((s.remove key).1, .flag (s.remove key).2)

/-- A sequential history, with what its calls return. -/
def run : ShardedEngineSync P -> List SyncCall -> ShardedEngineSync P × List CallResult
  | s, [] => (s, [])
  | s, made :: history =>
      ((run (s.call made).1 history).1, (s.call made).2 :: (run (s.call made).1 history).2)

/-- No shard evicts or expires a key. -/
def calmRun : ShardedEngineSync P -> List SyncCall -> Bool
  | _, [] => true
  | s, made :: history =>
      ((s.shards[s.getShardId made.operation.key]?).all fun table =>
        made.operation.calm table made.now) && calmRun (s.call made).1 history

end ShardedEngineSync

/-! ## A map spread over tables -/

/-- Each table has the part of the map that is routed to it, and nothing else. -/
structure Spread (route : Bytes -> Nat) (tables : List (HashTable P))
    (m : Bytes -> Option (Bytes × UInt64)) : Prop where
  wf : forall {id : Nat} {table : HashTable P}, tables[id]? = some table -> table.WF
  view : forall {id : Nat} {table : HashTable P}, tables[id]? = some table ->
    forall key, table.view key = if route key = id then m key else none

theorem spread_new (route : Bytes -> Nat) (numShards memoryLimit : Nat) (kind : EvictionPolicy) :
    Spread route (List.replicate numShards (HashTable.new 16 memoryLimit kind none : HashTable P))
        fun _ => none := by
  have fresh : forall {id : Nat} {table : HashTable P},
      (List.replicate numShards (HashTable.new 16 memoryLimit kind none))[id]? = some table ->
        table = HashTable.new 16 memoryLimit kind none :=
    fun present => List.eq_of_mem_replicate (List.mem_of_getElem? present)
  refine ⟨fun present => ?_, fun present key => ?_⟩
  · rw [fresh present]
    exact wf_new 16 memoryLimit kind none
  · rw [fresh present, ite_self]
    exact congrArg (Option.map _) (find_new 16 memoryLimit kind none key)

variable {m : Bytes -> Option (Bytes × UInt64)}

variable {operation : Operation} {route : Bytes -> Nat} {table : HashTable P}

theorem Spread.serve {tables : List (HashTable P)} (spread : Spread route tables m)
    (present : tables[route operation.key]? = some table) {now : UInt64} (accessNow : UInt64)
    (calm : operation.calm table now = true) :
    Spread route (tables.set (route operation.key) (operation.serve table now accessNow).1)
      (operation.change.apply m) := by
  have served : (operation.serve table now accessNow).1.WF ∧ _ := view_serve (spread.wf present) calm
  have inside : route operation.key < tables.length := (List.getElem?_eq_some_iff.mp present).1
  refine ⟨fun {id next} there => ?_, fun {id next} there key => ?_⟩
  · rw [List.getElem?_set, if_pos inside] at there
    split at there
    · cases there
      exact served.1
    · exact spread.wf there
  · rw [List.getElem?_set, if_pos inside] at there
    split at there
    next here =>
      cases there
      rw [served.2]
      by_cases mine : route key = id
      · rw [if_pos mine]
        apply Change.apply_congr
        rw [spread.view present, here, if_pos mine]
      · have different : operation.key ≠ key := by
          rintro rfl
          exact mine here
        rw [if_neg mine, Operation.change_of_ne different, spread.view present, here, if_neg mine]
    next elsewhere =>
      rw [spread.view there]
      by_cases mine : route key = id
      · have different : operation.key ≠ key := by
          rintro rfl
          exact elsewhere mine
        rw [if_pos mine, if_pos mine, Operation.change_of_ne different]
      · rw [if_neg mine, if_neg mine]

/-- The keys of the tables. -/
def storedKeys (tables : List (HashTable P)) : List (List Bytes) :=
  tables.map fun table => table.entries.map KeyValuePair.key

theorem mem_keys_iff {key : Bytes} :
    key ∈ table.entries.map KeyValuePair.key <-> table.view key ≠ none := by
  rw [ne_eq, view_eq_none_iff, ← ne_eq, find_ne_none_iff]

theorem Spread.mem_storedKeys {tables : List (HashTable P)} (spread : Spread route tables m)
    (routed : forall key, route key < tables.length) {key : Bytes} :
    key ∈ (storedKeys tables).flatten <-> m key ≠ none := by
  rw [List.mem_flatten]
  constructor
  · rintro ⟨keys, listed, member⟩
    rcases List.mem_map.mp listed with ⟨table, inside, rfl⟩
    rcases List.getElem?_of_mem inside with ⟨id, present⟩
    rw [mem_keys_iff, spread.view present] at member
    split at member
    · exact member
    · exact absurd rfl member
  · intro bound
    have present := List.getElem?_eq_getElem (routed key)
    refine ⟨_, List.mem_map.mpr ⟨_, List.mem_of_getElem? present, rfl⟩, mem_keys_iff.mpr ?_⟩
    rw [spread.view present, if_pos rfl]
    exact bound

theorem Spread.nodup_storedKeys {tables : List (HashTable P)} (spread : Spread route tables m) :
    (storedKeys tables).flatten.Nodup := by
  have place : forall {id : Nat} (inside : id < tables.length) {key : Bytes},
      key ∈ tables[id].entries.map KeyValuePair.key -> route key = id := by
    intro id inside key member
    rw [mem_keys_iff, spread.view (List.getElem?_eq_getElem inside)] at member
    by_contra elsewhere
    exact member (if_neg elsewhere)
  refine List.nodup_flatten.mpr ⟨?_, ?_⟩
  · intro keys listed
    rcases List.mem_map.mp listed with ⟨table, inside, rfl⟩
    rcases List.getElem?_of_mem inside with ⟨id, present⟩
    exact (spread.wf present).distinct
  · refine List.pairwise_map.mpr (List.pairwise_iff_getElem.mpr ?_)
    intro first second firstInside secondInside before key firstMember secondMember
    have same := (place firstInside firstMember).symm.trans (place secondInside secondMember)
    omega

/-- The tables together have as many entries as the map. -/
theorem Spread.total {tables : List (HashTable P)} (spread : Spread route tables m)
    (routed : forall key, route key < tables.length) :
    (tables.map HashTable.size).sum = {key | m key ≠ none}.ncard := by
  have keys : {key | m key ≠ none} = ((storedKeys tables).flatten.toFinset : Set Bytes) := by
    ext key
    rw [Finset.mem_coe, List.mem_toFinset]
    exact (spread.mem_storedKeys routed).symm
  have sizes : tables.map HashTable.size = (storedKeys tables).map List.length := by
    rw [storedKeys, List.map_map]
    refine List.map_congr_left fun table inside => ?_
    rcases List.getElem?_of_mem inside with ⟨id, present⟩
    exact (spread.wf present).count.trans (List.length_map _).symm
  rw [keys, Set.ncard_coe_finset, List.toFinset_card_of_nodup spread.nodup_storedKeys,
    List.length_flatten, sizes]

/-! ## The synchronous engine as a map -/

namespace ShardedEngineSync

variable {s : ShardedEngineSync P}

theorem getShardId_lt (positive : 0 < s.shards.length) (key : Bytes) :
    s.getShardId key < s.shards.length := Nat.mod_lt _ positive

/-- A call serves its operation in the table of its key. -/
theorem call_of_present {made : SyncCall}
    (present : s.shards[s.getShardId made.operation.key]? = some table) :
    (s.call made).1.shards = s.shards.set (s.getShardId made.operation.key)
      (made.operation.serve table made.now made.accessNow).1 := by
  rcases made with ⟨operation, now, accessNow⟩
  cases operation with
  | get key =>
      have here : s.shards[s.getShardId key]? = some table := present
      simp only [call, get, here]
      rfl
  | set key value =>
      have here : s.shards[s.getShardId key]? = some table := present
      simp only [call, set, here]
      rfl
  | remove key =>
      have here : s.shards[s.getShardId key]? = some table := present
      simp only [call, remove, here]
      rfl

/-- What a call returns, from the map of its moment. -/
def answer (m : Bytes -> Option (Bytes × UInt64)) : Operation -> Option (Bytes × UInt64) ⊕ Bool
  | .get key => .inl (m key)
  | .set _ _ => .inr true
  | .remove key => .inr (m key).isSome

/-- What the calls of a history return, from the map before it. -/
def answers (m : Bytes -> Option (Bytes × UInt64)) :
    List Operation -> List (Option (Bytes × UInt64) ⊕ Bool)
  | [] => []
  | operation :: operations => answer m operation :: answers (operation.change.apply m) operations

theorem getElem?_answers (m : Bytes -> Option (Bytes × UInt64)) (operations : List Operation)
    (number : Nat) :
    (answers m operations)[number]? = operations[number]?.map fun operation =>
      answer (((operations.take number).map Operation.change).foldl
          (fun m change => change.apply m) m) operation := by
  induction operations generalizing m number with
  | nil => rfl
  | cons operation operations ih =>
      cases number with
      | zero => rfl
      | succ number => exact ih (operation.change.apply m) number

theorem seen_call (spread : Spread s.getShardId s.shards m) {made : SyncCall}
    (present : s.shards[s.getShardId made.operation.key]? = some table)
    (calm : made.operation.calm table made.now = true) :
    (s.call made).2.seen = answer m made.operation := by
  have here : table.view made.operation.key = m made.operation.key :=
    (spread.view present _).trans (if_pos rfl)
  have wf := spread.wf present
  rcases made with ⟨operation, now, accessNow⟩
  cases operation with
  | get key =>
      have place : s.shards[s.getShardId key]? = some table := present
      simp only [call, get, place]
      exact congrArg Sum.inl ((serve_get wf calm).trans here)
  | set key value =>
      have place : s.shards[s.getShardId key]? = some table := present
      simp only [call, set, place]
      rfl
  | remove key =>
      have place : s.shards[s.getShardId key]? = some table := present
      have held : table.view key = m key := here
      simp only [call, remove, place]
      refine congrArg Sum.inr (Bool.eq_iff_iff.mpr ?_)
      rw [remove_eq_true_iff wf, held, Option.isSome_iff_ne_none]

/-- A calm history serves its operations on the map, one after the other. -/
theorem run_spread (positive : 0 < s.shards.length) (spread : Spread s.getShardId s.shards m)
    {history : List SyncCall} (calm : s.calmRun history = true) :
    (s.run history).1.totalEntries = {key | ((history.map fun made => made.operation.change).foldl
        (fun m change => change.apply m) m) key ≠ none}.ncard ∧
      (s.run history).2.map CallResult.seen = answers m (history.map SyncCall.operation) := by
  induction history generalizing s m with
  | nil => exact ⟨spread.total fun key => getShardId_lt positive key, rfl⟩
  | cons made history ih =>
      rcases Bool.and_eq_true_iff.mp calm with ⟨now, later⟩
      have present := List.getElem?_eq_getElem (getShardId_lt positive made.operation.key)
      rw [present, Option.all_some] at now
      have shards := call_of_present present
      have sameRoute : (s.call made).1.getShardId = s.getShardId := by
        funext key
        rw [getShardId, getShardId, shards, List.length_set]
      have next : Spread (s.call made).1.getShardId (s.call made).1.shards
          (made.operation.change.apply m) := by
        rw [sameRoute, shards]
        exact spread.serve present _ now
      have nextPositive : 0 < (s.call made).1.shards.length := by
        rw [shards, List.length_set]
        exact positive
      rcases ih nextPositive next later with ⟨total, results⟩
      refine ⟨total, ?_⟩
      rw [run, List.map_cons, List.map_cons, answers, seen_call spread present now, results]

end ShardedEngineSync

/-! ## One client of the other engine -/

namespace ShardedEngine

/-- A call is made only when all earlier ones have returned. -/
def sequential (s : ShardedEngine P) : EngineEvent -> Bool
  | .invoke _ => s.calls.all fun call => call.result.isSome
  | _ => true

def sequentialRun : ShardedEngine P -> List EngineEvent -> Bool
  | _, [] => true
  | s, event :: events => s.sequential event && sequentialRun (s.step event) events

theorem returned_of_result {call : ClientCall} (returned : call.result.isSome = true) :
    Exists fun response => call = ⟨call.operation, .returned response⟩ := by
  rcases call with ⟨operation, stage⟩
  cases stage with
  | returned response => exact ⟨response, rfl⟩
  | created | waiting | fulfilled => cases returned

/-- The calls are processed in the order of their numbers, and all but the last
one are. -/
structure InOrder (s : ShardedEngine P) : Prop where
  numbers : s.served.map Served.call = List.range s.served.length
  bound : s.calls.length ≤ s.served.length + 1

variable {s : ShardedEngine P}

variable {number : Nat}

section

variable (inOrder : s.InOrder) (sound : s.Sound)

include inOrder sound

theorem InOrder.lt_of_returned {call : ClientCall} (made : s.calls[number]? = some call)
    (returned : call.result.isSome = true) :
    number < s.served.length := by
  rcases returned_of_result returned with ⟨response, same⟩
  rw [same] at made
  have once := sound.processed_once made (fun stage => nomatch stage) (fun stage => nomatch stage)
  have member : number ∈ s.served.map Served.call := List.count_pos_iff.mp (by omega)
  rw [inOrder.numbers] at member
  exact List.mem_range.mp member

theorem InOrder.length_le (all : (s.calls.all fun call => call.result.isSome) = true) :
    s.calls.length ≤ s.served.length := by
  by_contra more
  have present := List.getElem?_eq_getElem (Nat.not_le.mp more)
  have returned := List.all_eq_true.mp all _ (List.mem_of_getElem? present)
  exact Nat.lt_irrefl _ (inOrder.lt_of_returned sound present returned)

/-- The next call that is processed is the one with the next number. -/
theorem InOrder.next (waits : s.calls[number]? = some ⟨operation, .waiting⟩) :
    number = s.served.length := by
  have made : number < s.calls.length := (List.getElem?_eq_some_iff.mp waits).1
  have bound := inOrder.bound
  have unserved : ¬ number < s.served.length := by
    intro early
    have member : number ∈ s.served.map Served.call := inOrder.numbers ▸ List.mem_range.mpr early
    rcases List.mem_map.mp member with ⟨entry, listed, same⟩
    exact sound.call_ne waits (Or.inr rfl) entry listed same
  omega

theorem InOrder.step {event : EngineEvent} (sequential : s.sequential event = true) :
    (s.step event).InOrder := by
  have acts := acts_step s event
  generalize s.step event = after at acts ⊢
  cases acts with
  | nothing => exact inOrder
  | invoke operation =>
      refine ⟨inOrder.numbers, ?_⟩
      rw [List.length_append, List.length_singleton]
      exact Nat.succ_le_succ (inOrder.length_le sound sequential)
  | enqueue id operation shard created target =>
      exact ⟨inOrder.numbers, Nat.le_trans (Nat.le_of_eq (List.length_modify _ _ _)) inOrder.bound⟩
  | turn => exact ⟨inOrder.numbers, inOrder.bound⟩
  | process id now accessNow shard request present held =>
      have number := inOrder.next sound (sound.located present (Shard.mem_pending_of_holding held)).2
      refine ⟨?_, ?_⟩
      · change (s.served ++ [_]).map Served.call = List.range (s.served ++ [_]).length
        rw [List.map_append, List.length_append, List.length_singleton, List.range_succ,
          inOrder.numbers, ← number]
        rfl
      · change (s.calls.modify _ _).length ≤ (s.served ++ [_]).length + 1
        rw [List.length_modify, List.length_append, List.length_singleton]
        exact Nat.le_succ_of_le inOrder.bound
  | complete id operation response fulfilled =>
      exact ⟨inOrder.numbers, Nat.le_trans (Nat.le_of_eq (List.length_modify _ _ _)) inOrder.bound⟩
  | stop => exact ⟨inOrder.numbers, inOrder.bound⟩

theorem InOrder.run {events : List EngineEvent} (sequential : s.sequentialRun events = true) :
    (s.run events).InOrder := by
  induction events generalizing s with
  | nil => exact inOrder
  | cons event events ih =>
      rcases Bool.and_eq_true_iff.mp sequential with ⟨now, later⟩
      exact ih (inOrder.step sound now) (sound.step event) later

/-- The entry of the history of a call that has returned. -/
theorem InOrder.served_of_returned {response : Option ValueEntry}
    (returned : s.calls[number]? = some ⟨operation, .returned response⟩) :
    Exists fun entry => s.served[number]? = some entry ∧ entry.operation = operation ∧
        entry.response = response := by
  rcases sound.exists_served returned with ⟨entry, listed, call, same, answer⟩
  rcases List.getElem?_of_mem listed with ⟨index, present⟩
  have numbered : (s.served.map Served.call)[index]? = some entry.call := by
    rw [List.getElem?_map, present]
    rfl
  have inside : index < s.served.length := (List.getElem?_eq_some_iff.mp present).1
  rw [inOrder.numbers, List.getElem?_range inside, call] at numbered
  cases numbered
  exact ⟨entry, present, same, answer⟩

/-- The history has the operations of the calls when all have returned. -/
theorem InOrder.operations (all : (s.calls.all fun call => call.result.isSome) = true) :
    s.served.map Served.operation = s.calls.map ClientCall.operation := by
  apply List.ext_getElem?
  intro number
  rw [List.getElem?_map, List.getElem?_map]
  cases made : s.calls[number]? with
  | some call =>
      rcases returned_of_result (List.all_eq_true.mp all _ (List.mem_of_getElem? made)) with
        ⟨response, same⟩
      rw [same] at made
      rcases inOrder.served_of_returned sound made with ⟨entry, present, operation, _⟩
      rw [present, Option.map_some, Option.map_some, operation]
  | none =>
      cases served : s.served[number]? with
      | none => rfl
      | some entry =>
          -- The history has no entry without a call.
          have listed := List.mem_of_getElem? served
          have inside : number < s.served.length := (List.getElem?_eq_some_iff.mp served).1
          have numbered : (s.served.map Served.call)[number]? = some entry.call := by
            rw [List.getElem?_map, served]
            rfl
          rw [inOrder.numbers, List.getElem?_range inside] at numbered
          cases numbered
          rcases (sound.recorded listed).2 with answer | answer <;>
            exact nomatch made.symm.trans answer

end

def tables (s : ShardedEngine P) : List (HashTable P) := s.shards.map Shard.table

theorem tables_setShard (s : ShardedEngine P) (id : Nat) (next : Shard P) :
    (s.setShard id next).tables = s.tables.set id next.table := List.map_set

theorem getElem?_tables {id : Nat} {shard : Shard P} (present : s.shards[id]? = some shard) :
    s.tables[id]? = some shard.table := by
  rw [tables, List.getElem?_map, present]
  rfl

theorem tables_setShard_of_same {id : Nat} {shard next : Shard P}
    (present : s.shards[id]? = some shard) (same : next.table = shard.table) :
    (s.setShard id next).tables = s.tables := by
  rcases List.getElem?_eq_some_iff.mp (getElem?_tables present) with ⟨inside, here⟩
  rw [tables_setShard, same, ← here, List.set_getElem_self]

/-- The tables have the map that the processed operations made. -/
def Spreads (s : ShardedEngine P) : Prop := Spread s.getShardId s.tables (after (changes s.served))

theorem spreads_started (numShards memoryLimit : Nat) (kind : EvictionPolicy) :
    (started P numShards memoryLimit kind).Spreads := by
  have tables : (started P numShards memoryLimit kind).tables =
      List.replicate numShards (HashTable.new 16 memoryLimit kind none) := List.map_replicate
  rw [Spreads, tables]
  exact spread_new _ numShards memoryLimit kind

theorem Spreads.of_same {s t : ShardedEngine P} (spreads : s.Spreads) (tables : t.tables = s.tables)
    (route : t.getShardId = s.getShardId) (served : t.served = s.served) : t.Spreads := by
  rw [Spreads, tables, route, served]
  exact spreads

theorem Spreads.step (spreads : s.Spreads) (sound : s.Sound) {event : EngineEvent}
    (calm : s.calm event = true) : (s.step event).Spreads := by
  have acts := acts_step s event
  generalize s.step event = after at acts ⊢
  cases acts with
  | nothing => exact spreads
  | invoke operation => exact spreads
  | enqueue id operation shard created target =>
      exact spreads.of_same (tables_setShard_of_same target rfl)
        (funext (getShardId_setShard s _ _)) rfl
  | turn _ id shard next present sameTable _ _ =>
      exact spreads.of_same (tables_setShard_of_same present sameTable)
        (funext (getShardId_setShard s _ _)) rfl
  | process id now accessNow shard request present held =>
      have place := (sound.located present (Shard.mem_pending_of_holding held)).1
      have calmly := calm_of_process present held calm
      have order : changes (s.afterProcess id shard request now accessNow).served =
          changes s.served ++ [request.operation.change] := List.map_append
      have route : (s.afterProcess id shard request now accessNow).getShardId = s.getShardId :=
        funext (getShardId_setShard s _ _)
      rw [Spreads, order, after_snoc, route]
      subst place
      have served := Spread.serve spreads (getElem?_tables present) accessNow calmly
      exact (tables_setShard s _ _).symm ▸ served
  | complete id operation response fulfilled => exact spreads
  | stop => cases calm

theorem Spreads.run (spreads : s.Spreads) (sound : s.Sound) {events : List EngineEvent}
    (calm : s.calmRun events = true) : (s.run events).Spreads := by
  induction events generalizing s with
  | nil => exact spreads
  | cons event events ih =>
      rcases Bool.and_eq_true_iff.mp calm with ⟨now, later⟩
      exact ih (spreads.step sound now) (sound.step event) later

/-- What a call of `ShardedEngine` returns, from the map of its moment. -/
def answer (m : Bytes -> Option (Bytes × UInt64)) : Operation -> Option (Bytes × UInt64) ⊕ Bool
  | .get key => .inl (m key)
  | .set _ _ => .inr true
  | .remove _ => .inr true

/-- The engines differ in the removal of a key that is not there. -/
theorem answer_eq_iff :
    answer m operation = ShardedEngineSync.answer m operation <->
        forall key, operation = .remove key -> m key ≠ none := by
  cases operation with
  | get key => exact iff_of_true rfl fun _ remove => nomatch remove
  | set key value => exact iff_of_true rfl fun _ remove => nomatch remove
  | remove key =>
      constructor
      · rintro same other here unbound
        cases here
        rw [answer, ShardedEngineSync.answer, unbound] at same
        cases same
      · intro bound
        rw [answer, ShardedEngineSync.answer, Option.isSome_iff_ne_none.mpr (bound key rfl)]

/-- The map before a call of a sequential history. -/
def mapBefore (operations : List Operation) (number : Nat) : Bytes -> Option (Bytes × UInt64) :=
  after ((operations.take number).map Operation.change)

/-- What the calls have returned when all have. -/
theorem seen_result (serial : s.Serial) (sound : s.Sound) (inOrder : s.InOrder)
    (all : (s.calls.all fun call => call.result.isSome) = true) {call : ClientCall}
    (made : s.calls[number]? = some call) :
    call.result.map CallResult.seen =
      some (answer (mapBefore (s.calls.map ClientCall.operation) number) call.operation) := by
  rcases returned_of_result (List.all_eq_true.mp all _ (List.mem_of_getElem? made)) with
    ⟨response, same⟩
  rw [same] at made ⊢
  rcases inOrder.served_of_returned sound made with ⟨entry, present, operation, answered⟩
  rcases List.getElem?_eq_some_iff.mp present with ⟨inside, here⟩
  have split : s.served = s.served.take number ++ entry :: s.served.drop (number + 1) := by
    rw [← here, List.cons_getElem_drop_succ, List.take_append_drop]
  have front : after (changes (s.served.take number)) =
      mapBefore (s.calls.map ClientCall.operation) number := by
    rw [mapBefore, ← inOrder.operations sound all, ← List.map_take, List.map_map]
    rfl
  generalize call.operation = performed at operation
  cases performed with
  | get key =>
      have value := serial.answer split operation
      rw [answered, front] at value
      exact congrArg (fun value => some (Sum.inl value)) value
  | set key value => rfl
  | remove key => rfl

variable {operations : List Operation}

/-- What each call has returned when all have. -/
theorem results_at (serial : s.Serial) (sound : s.Sound) (inOrder : s.InOrder)
    (all : (s.calls.all fun call => call.result.isSome) = true)
    (listed : operations = s.calls.map ClientCall.operation) (number : Nat) :
    s.results[number]? =
      operations[number]?.map fun operation =>
          some (answer (mapBefore operations number) operation) := by
  rw [results, List.getElem?_map, listed, List.getElem?_map]
  cases made : s.calls[number]? with
  | none => rfl
  | some call => exact congrArg some (seen_result serial sound inOrder all made)

/-- What each call of the other engine has returned. -/
theorem seenResults_at {results : List CallResult}
    (seen : results.map CallResult.seen = ShardedEngineSync.answers (fun _ => none) operations)
    (number : Nat) :
    (seenResults results)[number]? = operations[number]?.map fun operation =>
      some (ShardedEngineSync.answer (mapBefore operations number) operation) := by
  have asAnswers : seenResults results =
      (ShardedEngineSync.answers (fun _ => none) operations).map some := by
    rw [← seen, List.map_map]
    rfl
  rw [asAnswers, List.getElem?_map, ShardedEngineSync.getElem?_answers, Option.map_map]
  rfl

theorem mapBefore_ne_none_iff {key : Bytes} :
    mapBefore operations number key ≠ none <->
      Exists fun entry => Latest ((operations.take number).map Operation.change) key entry := by
  rw [Option.ne_none_iff_exists']
  exact exists_congr fun entry => after_eq_some_iff

/-- A running engine has as many entries as the map that it has served. -/
theorem Spreads.totalEntries (spreads : s.Spreads) (positive : 0 < s.shards.length) :
    s.totalEntries = {key | after (changes s.served) key ≠ none}.ncard := by
  have routed : forall key, s.getShardId key < s.tables.length := by
    intro key
    rw [tables, List.length_map]
    exact Nat.mod_lt _ positive
  have total := Spread.total spreads routed
  rw [tables, List.map_map] at total
  exact total

/-- Used by one client at a time, without evictions and expiries, both engines
have the same number of entries, return the same from every `get` and `set`, and
return the same from all calls exactly when every `remove` finds its key. -/
theorem engines_agree (P : Platform) (numShards memoryLimit : Nat) (kind : EvictionPolicy)
    (positive : 1 ≤ numShards) (events : List EngineEvent)
    (calm : (started P numShards memoryLimit kind).calmRun events = true)
    (sequential : (started P numShards memoryLimit kind).sequentialRun events = true)
    (finished : (((started P numShards memoryLimit kind).run events).calls.all
      fun call => call.result.isSome) = true)
    (history : List SyncCall)
    (sameCalls : history.map SyncCall.operation =
      ((started P numShards memoryLimit kind).run events).calls.map ClientCall.operation)
    (syncCalm : (ShardedEngineSync.new P numShards memoryLimit kind).calmRun history = true) :
    let queued := (started P numShards memoryLimit kind).run events
    let direct := (ShardedEngineSync.new P numShards memoryLimit kind).run history
    let operations := history.map SyncCall.operation
    queued.totalEntries = direct.1.totalEntries ∧
      (forall (number : Nat) (operation : Operation), operations[number]? = some operation ->
        (forall key, operation ≠ .remove key) ->
          queued.results[number]? = (seenResults direct.2)[number]?) ∧
      (queued.results = seenResults direct.2 <->
        forall (number : Nat) (key : Bytes), operations[number]? = some (.remove key) ->
          Exists fun entry => Latest ((operations.take number).map Operation.change) key entry) := by
  intro queued direct operations
  have initial := sound_started (P := P) numShards memoryLimit kind
  have sound : queued.Sound := initial.run events
  have serial : queued.Serial := (serial_started numShards memoryLimit kind).run initial calm
  have spreads : queued.Spreads := (spreads_started numShards memoryLimit kind).run initial calm
  have inOrder : queued.InOrder := InOrder.run ⟨rfl, Nat.zero_le _⟩ initial sequential
  have someShard : 0 < queued.shards.length := by
    rw [length_shards_run, started, List.length_replicate]
    exact positive
  have syncPositive : 0 < (ShardedEngineSync.new P numShards memoryLimit kind).shards.length := by
    rw [ShardedEngineSync.new, List.length_replicate]
    exact positive
  rcases ShardedEngineSync.run_spread syncPositive
      (spread_new _ numShards memoryLimit kind) syncCalm with
    ⟨directTotal, directResults⟩
  -- The calls of both engines against the map of their moment.
  have queuedAt := results_at serial sound inOrder finished sameCalls
  have directAt := seenResults_at directResults
  have agree : forall (number : Nat) (operation : Operation), operations[number]? = some operation ->
      (queued.results[number]? = (seenResults direct.2)[number]? <->
        forall key, operation = .remove key -> mapBefore operations number key ≠ none) := by
    intro number operation made
    rw [queuedAt, directAt, made, Option.map_some, Option.map_some, Option.some_inj, Option.some_inj]
    exact answer_eq_iff
  refine ⟨?_, ?_, ?_, ?_⟩
  · have order : changes queued.served = history.map fun made => made.operation.change := by
      have listed := (inOrder.operations sound finished).trans sameCalls.symm
      have mapped := congrArg (List.map Operation.change) listed
      rw [List.map_map, List.map_map] at mapped
      exact mapped
    have queuedTotal := spreads.totalEntries someShard
    rw [order] at queuedTotal
    exact queuedTotal.trans directTotal.symm
  · intro number operation made other
    exact (agree number operation made).mpr fun key remove => absurd remove (other key)
  · intro same number key made
    have found := (agree number _ made).mp (congrArg (fun results => results[number]?) same) key rfl
    exact mapBefore_ne_none_iff.mp found
  · intro found
    apply List.ext_getElem?
    intro number
    cases made : operations[number]? with
    | none => rw [queuedAt, directAt, made, Option.map_none, Option.map_none]
    | some operation =>
        refine (agree number operation made).mpr ?_
        rintro key rfl
        exact mapBefore_ne_none_iff.mpr (found number key made)

/-- A client sets key `a` and reads it, on the other engine. -/
def setThenGetDirectly : List SyncCall :=
  [⟨.set [97] (ValueEntry.new [49] 0), 1, 1⟩, ⟨.get [97], 2, 2⟩]

theorem engines_agree_setThenGet :
    ((started Platform.source 2 100 .lru).run setThenGet).results =
      seenResults ((ShardedEngineSync.new Platform.source 2 100 .lru).run setThenGetDirectly).2 := by
  have agree := engines_agree Platform.source 2 100 .lru (by decide) setThenGet (by decide +kernel)
    (by decide +kernel) (by decide +kernel) setThenGetDirectly rfl (by decide +kernel)
  refine agree.2.2.mpr ?_
  intro number key made
  rcases number with _ | _ | number
  · cases made
  · cases made
  · cases made

/-- A client removes a key that was never there. -/
theorem remove_differs :
    ((started Platform.source 1 100 .lru).run
        [.invoke (.remove [97]), .enqueue 0, .loop 0, .dequeue 0, .process 0 1 1,
          .complete 0]).results =
        [some (.inr true)] ∧
      seenResults ((ShardedEngineSync.new Platform.source 1 100 .lru).run [⟨.remove [97], 1, 1⟩]).2 =
        [some (.inr false)] :=
  ⟨rfl, rfl⟩

end ShardedEngine
end Engine
end KVStore
