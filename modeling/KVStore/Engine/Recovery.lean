import KVStore.Engine.Crash
import KVStore.Engine.TimedMap

namespace KVStore
namespace Engine

open Framing Keyed HashTable Bindings

variable {P : Platform}

/-!
# Recovery below the memory limit

A table takes snapshots and truncates its log after each of them.  A crash
comes between two calls or in the middle of one, but not between a snapshot
and the truncation, and loses what the log has not flushed.

As long as the stored bytes stay within the limit, nothing is evicted: the log
holds one record for each mutating call since the last snapshot, and the replay
passes through the same maps as the history did.  What is recovered is then a
state of the history, and fewer calls than a batch and one are missing.
-/

/-! ## Histories with snapshots -/

/-- A call on the table, or `create_snapshot` with the `truncate_wal` right
behind it. -/
inductive DurableCall where
  | call (call : TableCall)
  | checkpoint

/-- A table and the file of its last snapshot. -/
structure Durable (P : Platform) where
  table : HashTable P
  snapshot : Option Bytes

def Durable.step (d : Durable P) : DurableCall -> Durable P
  | .call call => { d with table := call.apply d.table }
  | .checkpoint => { table := d.table.truncateWal, snapshot := some (createSnapshot d.table) }

/-- A table created with a new log, after some calls and snapshots. -/
def TableConfig.durable (config : TableConfig) (P : Platform) (events : List DurableCall) :
    Durable P :=
  events.foldl Durable.step ⟨config.fresh P (some []), none⟩

/-- The moment of a crash:  between two calls, or inside a call that has already
written so many of the bytes that it appends to the log file. -/
inductive Moment where
  | idle
  | inside (call : TableCall) (written : Nat)

/-- The call in progress. -/
def Moment.calls : Moment -> List TableCall
  | .idle => []
  | .inside call _ => [call]

theorem Moment.length_calls_le (moment : Moment) : moment.calls.length ≤ 1 := by
  cases moment with
  | idle => exact Nat.zero_le _
  | inside call written => exact Nat.le_refl _

/-- The log file that a crash at this moment leaves. -/
def Moment.logFile (t : HashTable P) : Moment -> Bytes
  | .idle => walFile t
  | .inside call written => (walFile (call.apply t)).take ((walFile t).length + written)

/-- The calls of a history, snapshots left out. -/
def tableCalls (events : List DurableCall) : List TableCall :=
  events.filterMap fun
    | .call call => some call
    | .checkpoint => none

namespace TableConfig

variable (config : TableConfig)

/-- The table before the replay. -/
def reloaded (P : Platform) (garbage : Uninitialised) : Option Bytes -> HashTable P
  | none => config.fresh P none
  | some snapshot => config.loaded P garbage snapshot

/-- `load_snapshot` if there is a snapshot, then `replay_wal`. -/
def recovered (P : Platform) (garbage : Uninitialised) (clock : Nat -> UInt64)
    (snapshot : Option Bytes) (log : Bytes) : HashTable P :=
  (replayWal (config.reloaded P garbage snapshot) log clock).1

end TableConfig

/-! ## Records of calls -/

/-- The record that a call writes when it evicts nothing. -/
def TableCall.record : TableCall -> Option WALRecord
  | .insert key value => some (setRecord key value)
  | .get _ _ _ => none
  | .remove key => some (deleteRecord key)
  | .flushWal => none

def recordsOf (calls : List TableCall) : List WALRecord := calls.filterMap TableCall.record

theorem length_recordsOf (calls : List TableCall) : (recordsOf calls).length = mutations calls := by
  rw [recordsOf, List.length_filterMap_eq_countP, mutations]
  refine List.countP_congr fun call _ => ?_
  cases call <;> rfl

theorem recordsOf_append (first second : List TableCall) :
    recordsOf (first ++ second) = recordsOf first ++ recordsOf second :=
  List.filterMap_append

/-- Every part of the records is the records of a part of the calls. -/
theorem exists_recordsOf_take (calls : List TableCall) {kept : Nat}
    (bound : kept ≤ (recordsOf calls).length) :
    Exists fun count => count ≤ calls.length ∧
        recordsOf (calls.take count) = (recordsOf calls).take kept := by
  induction calls generalizing kept with
  | nil => exact ⟨0, Nat.le_refl _, by rw [List.take_nil]; exact List.take_nil.symm⟩
  | cons call calls ih =>
      cases writes : call.record with
      | none =>
          have same : recordsOf (call :: calls) = recordsOf calls := List.filterMap_cons_none writes
          rw [same] at bound ⊢
          rcases ih bound with ⟨count, inside, part⟩
          refine ⟨count + 1, Nat.succ_le_succ inside, ?_⟩
          rw [List.take_succ_cons, ← part]
          exact List.filterMap_cons_none writes
      | some record =>
          have longer : recordsOf (call :: calls) = record :: recordsOf calls :=
            List.filterMap_cons_some writes
          rw [longer] at bound ⊢
          cases kept with
          | zero => exact ⟨0, Nat.zero_le _, rfl⟩
          | succ kept =>
              rcases ih (Nat.le_of_succ_le_succ bound) with ⟨count, inside, part⟩
              refine ⟨count + 1, Nat.succ_le_succ inside, ?_⟩
              rw [List.take_succ_cons, List.take_succ_cons, ← part]
              exact List.filterMap_cons_some writes

/-- The strings of a call are shorter than their length fields allow. -/
def TableCall.Short : TableCall -> Prop
  | .insert key value => key.length < 2 ^ 32 ∧ value.value.length < 2 ^ 32
  | .remove key => key.length < 2 ^ 32
  | .get _ _ _ => True
  | .flushWal => True

variable {call : TableCall} {record : WALRecord}

theorem TableCall.Short.fits (short : call.Short) (writes : call.record = some record) :
    walCodec.Fits record := by
  rw [walCodec_fits_iff]
  cases call with
  | insert key value =>
      cases writes
      exact short
  | remove key =>
      cases writes
      exact ⟨short, Nat.two_pow_pos 32⟩
  | get key now accessNow => cases writes
  | flushWal => cases writes

variable {t : HashTable P} {calls : List TableCall}

theorem fits_recordsOf (short : forall call, call ∈ calls -> call.Short) :
    forall record, record ∈ recordsOf calls -> walCodec.Fits record := by
  intro record member
  rcases List.mem_filterMap.mp member with ⟨call, called, writes⟩
  exact (short call called).fits writes

/-! ## The log below the limit -/

/-- The log file holds the first list of records, the buffer the second. -/
def Pending (t : HashTable P) (flushed waiting : List WALRecord) : Prop :=
  Exists fun w => t.walWriter = some w ∧ w.batchSize = 100 ∧ w.file = walCodec.encodeAll flushed ∧
    w.buffer = waiting ∧ waiting.length < 100

theorem Pending.walFile {flushed waiting : List WALRecord} (pending : Pending t flushed waiting) :
    walFile t = walCodec.encodeAll flushed := by
  rcases pending with ⟨w, writer, _, file, _⟩
  rw [Engine.walFile, writer]
  exact file

theorem Pending.flush {t after : HashTable P} {flushed waiting : List WALRecord}
    (pending : Pending t flushed waiting)
    (written : after.walWriter = t.walWriter.map WALWriter.flush) :
    Pending after (flushed ++ waiting) [] := by
  rcases pending with ⟨w, writer, batch, file, buffer, _⟩
  refine ⟨w.flush, ?_, batch, ?_, rfl, by decide⟩
  · rw [written, writer, Option.map_some]
  · rw [WALWriter.file_flush, WALWriter.image, file, buffer, Codec.encodeAll_append]

theorem Pending.append {t after : HashTable P} {flushed waiting : List WALRecord}
    (pending : Pending t flushed waiting)
    (written : after.walWriter = t.walWriter.map fun w => w.append record) :
    Pending after flushed (waiting ++ [record]) ∨
        Pending after (flushed ++ (waiting ++ [record])) [] := by
  rcases pending with ⟨w, writer, batch, file, buffer, few⟩
  rw [writer, Option.map_some] at written
  rcases w.append_cases record with ⟨_, full⟩ | ⟨room, waits⟩
  · rw [full] at written
    refine Or.inr ⟨_, written, batch, ?_, rfl, by decide⟩
    rw [WALWriter.file_flush, WALWriter.image]
    simp only [file, buffer, Codec.encodeAll_append]
  · rw [waits] at written
    refine Or.inl ⟨_, written, batch, file, congrArg (· ++ [record]) buffer, ?_⟩
    rw [buffer, batch] at room
    simpa using room

/-- A call on a table within its limit adds the record of the call to the log,
and what was flushed stays in front. -/
theorem Pending.apply {flushed waiting : List WALRecord} (wf : t.WF)
    (within : storedBytes t.entries ≤ t.policy.memoryLimit) (pending : Pending t flushed waiting)
    (call : TableCall) :
    Exists fun later => Exists fun left => Pending (call.apply t) later left ∧ flushed <+: later ∧
      later ++ left = flushed ++ waiting ++ recordsOf [call] := by
  have appended : forall {after : HashTable P} {record : WALRecord},
      (after.walWriter = t.walWriter.map fun w => w.append record) ->
        Exists fun later => Exists fun left => Pending after later left ∧ flushed <+: later ∧
          later ++ left = flushed ++ waiting ++ [record] := by
    intro after record written
    rcases pending.append written with buffered | emptied
    · exact ⟨_, _, buffered, List.prefix_rfl, (List.append_assoc _ _ _).symm⟩
    · refine ⟨_, _, emptied, List.prefix_append _ _, ?_⟩
      rw [List.append_nil, List.append_assoc]
  cases call with
  | insert key value =>
      rcases (wf.insert key value).2.2.2 with ⟨victims, evictions, written⟩
      have none : victims = [] :=
        List.eq_nil_iff_forall_not_mem.mpr fun victim member =>
          wf.not_evicts within victim ((evictions victim).mp member)
      rw [none] at written
      exact appended written
  | remove key => exact appended (wf.walWriter_remove key)
  | get key now accessNow =>
      rcases pending with ⟨w, writer, rest⟩
      refine ⟨flushed, waiting, ⟨w, (wf.get key now accessNow).2.2.2.2.trans writer, rest⟩,
        List.prefix_rfl, ?_⟩
      exact (List.append_nil _).symm
  | flushWal => exact ⟨_, _, pending.flush rfl, List.prefix_append _ _, rfl⟩

/-- The stored bytes are within the limit before each of the calls. -/
def CalmRun (t : HashTable P) (calls : List TableCall) : Prop :=
  forall count, count < calls.length ->
    storedBytes (runCalls t (calls.take count)).entries ≤ t.policy.memoryLimit

theorem CalmRun.head (calm : CalmRun t (call :: calls)) :
    storedBytes t.entries ≤ t.policy.memoryLimit :=
  calm 0 (Nat.succ_pos _)

theorem CalmRun.tail (wf : t.WF) (calm : CalmRun t (call :: calls)) :
    CalmRun (call.apply t) calls := by
  intro count inside
  have limit : (call.apply t).policy.memoryLimit = t.policy.memoryLimit :=
    memoryLimit_runCalls wf [call]
  rw [limit]
  exact calm (count + 1) (Nat.succ_lt_succ inside)

theorem CalmRun.take (calm : CalmRun t calls) (count : Nat) :
    CalmRun t (calls.take count) := by
  intro earlier inside
  rw [List.length_take] at inside
  rw [List.take_take, Nat.min_eq_left (by omega)]
  exact calm earlier (by omega)

theorem CalmRun.drop (wf : t.WF) (calm : CalmRun t calls) (first : Nat) :
    CalmRun (runCalls t (calls.take first)) (calls.drop first) := by
  intro count inside
  rw [List.length_drop] at inside
  rw [memoryLimit_runCalls wf, ← runCalls_append, ← List.take_add]
  exact calm (first + count) (by omega)

theorem Pending.runCalls {flushed waiting : List WALRecord} (wf : t.WF)
    (pending : Pending t flushed waiting) (calm : CalmRun t calls) :
    Exists fun later => Exists fun left => Pending (runCalls t calls) later left ∧
      later ++ left = flushed ++ waiting ++ recordsOf calls := by
  induction calls generalizing t flushed waiting with
  | nil => exact ⟨flushed, waiting, pending, (List.append_nil _).symm⟩
  | cons call calls ih =>
      rcases pending.apply wf calm.head call with ⟨middle, rest, next, _, whole⟩
      rcases ih (wf_apply wf call) next (calm.tail wf) with ⟨later, left, final, records⟩
      refine ⟨later, left, final, ?_⟩
      rw [records, whole, List.append_assoc, ← recordsOf_append]
      rfl

/-- The log file that a crash leaves:  it holds what had been flushed, and of the other
records it lacks fewer than a batch and the one of the call in progress. -/
theorem Pending.crash {flushed waiting : List WALRecord} (pending : Pending t flushed waiting)
    (wf : t.WF) (within : storedBytes t.entries ≤ t.policy.memoryLimit) (moment : Moment)
    (fits : forall record, record ∈ flushed ++ waiting ++ recordsOf moment.calls ->
      walCodec.Fits record) :
    Exists fun kept => flushed.length ≤ kept ∧
      kept ≤ (flushed ++ waiting ++ recordsOf moment.calls).length ∧
      (flushed ++ waiting ++ recordsOf moment.calls).length ≤ kept + 100 ∧
      readAll (moment.logFile t) = (flushed ++ waiting ++ recordsOf moment.calls).take kept ∧
      (moment = .idle ->
        moment.logFile t = walCodec.encodeAll
            ((flushed ++ waiting ++ recordsOf moment.calls).take kept)) := by
  have few : waiting.length < 100 := by
    rcases pending with ⟨_, _, _, _, _, few⟩
    exact few
  cases moment with
  | idle =>
      have all : flushed ++ waiting ++ recordsOf Moment.idle.calls = flushed ++ waiting :=
        List.append_nil _
      rw [all] at fits ⊢
      rw [Moment.logFile, pending.walFile, List.length_append]
      refine ⟨flushed.length, Nat.le_refl _, by omega, by omega, ?_, fun _ => by rw [List.take_left]⟩
      rw [List.take_left]
      refine (walCodec.decodeAll_encodeAll flushed).trans
        (walCodec.map_carried_of_fits fun record member => ?_)
      exact fits record (List.mem_append_left _ member)
  | inside call written =>
      rcases pending.apply wf within call with ⟨later, left, next, longer, all⟩
      have one : (recordsOf [call]).length ≤ 1 := by
        rw [length_recordsOf]
        exact List.countP_le_length
      have total := congrArg List.length all
      rw [List.length_append, List.length_append, List.length_append] at total
      rw [Moment.calls, ← all] at fits ⊢
      -- The cut lies behind what had been flushed before the call.
      rcases walCodec.decodeAll_take later ((walCodec.encodeAll flushed).length + written) with
        ⟨kept, bound, decoded, _, most⟩
      have enough : flushed.length ≤ kept := by
        refine most flushed.length longer.length_le ?_
        rw [List.prefix_iff_eq_take.mp longer |>.symm]
        omega
      rw [List.length_append, Moment.logFile, pending.walFile, next.walFile]
      refine ⟨kept, enough, by omega, by omega, ?_, fun idle => nomatch idle⟩
      rw [List.take_append_of_le_length bound]
      refine decoded.trans (walCodec.map_carried_of_fits fun record member => ?_)
      exact fits record (List.mem_append_left _ (List.mem_of_mem_take member))

/-- What a reader finds in the log of some calls after a crash. -/
theorem readAll_logFile (wf : t.WF) (new : Pending t [] []) (moment : Moment)
    (calm : CalmRun t (calls ++ moment.calls))
    (within : storedBytes (runCalls t calls).entries ≤ t.policy.memoryLimit)
    (short : forall call, call ∈ calls ++ moment.calls -> call.Short) :
    Exists fun kept => kept ≤ (recordsOf (calls ++ moment.calls)).length ∧
      readAll (moment.logFile (runCalls t calls)) = (recordsOf (calls ++ moment.calls)).take kept ∧
      (recordsOf (calls ++ moment.calls)).length ≤ kept + 100 := by
  have fits := fits_recordsOf short
  have before := calm.take calls.length
  rw [List.take_left] at before
  rcases new.runCalls wf before with ⟨flushed, waiting, pending, records⟩
  rw [List.append_nil, List.nil_append] at records
  rw [recordsOf_append, ← records] at fits ⊢
  rcases pending.crash (wf_runCalls wf calls)
      (memoryLimit_runCalls wf calls ▸ within) moment fits with
    ⟨kept, _, bound, few, read, _⟩
  exact ⟨kept, bound, read, few⟩

/-! ## The replay below the limit -/

theorem memoryLimit_applyRecord (wf : t.WF) (now accessNow : UInt64)
    (writes : call.record = some record) :
    (applyRecord t now accessNow record).policy.memoryLimit = t.policy.memoryLimit := by
  cases call with
  | insert key value =>
      cases writes
      exact (wf.insert _ _).2.2.1
  | remove key =>
      cases writes
      exact wf.memoryLimit_remove key
  | get key now accessNow => cases writes
  | flushWal => cases writes

/-- Replaying the record of a call does to a table with the same map what the
call did. -/
theorem view_applyRecord_of_record {t rebuilt : HashTable P} (wf : t.WF) (rebuiltWF : rebuilt.WF)
    (same : rebuilt.view = t.view)
    (below : storedBytes rebuilt.entries ≤ rebuilt.policy.memoryLimit)
    (within : storedBytes t.entries ≤ t.policy.memoryLimit) (now accessNow : UInt64)
    (writes : call.record = some record) :
    (applyRecord rebuilt now accessNow record).view = (call.apply t).view := by
  funext key
  cases call with
  | insert written value =>
      cases writes
      have expiry : value.expiryNs.toInt64.toUInt64 = value.expiryNs := UInt64.toUInt64_toInt64 _
      have original : (t.insert written value).view key = _ := view_insert wf written value key
      refine (view_insert rebuiltWF _ _ key).trans (Eq.trans ?_ original.symm)
      rw [if_neg (rebuiltWF.not_evicts below key), if_neg (wf.not_evicts within key), same]
      exact if_congr Iff.rfl (congrArg (fun time => some (value.value, time)) expiry) rfl
  | remove removed =>
      cases writes
      have original : (t.remove removed).1.view key = _ := view_remove wf removed key
      refine (view_remove rebuiltWF removed key).trans (Eq.trans ?_ original.symm)
      rw [same]
  | get read now accessNow => cases writes
  | flushWal => cases writes

/-- The replay of the records of some calls passes through the maps of the calls,
and evicts nothing on the way. -/
theorem replay_recordsOf {t rebuilt : HashTable P} (wf : t.WF) (rebuiltWF : rebuilt.WF)
    (same : rebuilt.view = t.view) (limit : rebuilt.policy.memoryLimit = t.policy.memoryLimit)
    (clock : Nat -> UInt64) (replayed : Nat) (calm : CalmRun t calls) :
    (replayRecords clock replayed rebuilt (recordsOf calls)).view = (runCalls t calls).view ∧
      forall key, evictedIn clock replayed rebuilt (recordsOf calls) key = false := by
  induction calls generalizing t rebuilt replayed with
  | nil => exact ⟨same, fun _ => rfl⟩
  | cons call calls ih =>
      have limitAfter : (call.apply t).policy.memoryLimit = t.policy.memoryLimit :=
        memoryLimit_runCalls wf [call]
      cases writes : call.record with
      | none =>
          have silent : recordsOf (call :: calls) = recordsOf calls := List.filterMap_cons_none writes
          have unchanged : (call.apply t).view = t.view := by
            rw [view_apply wf]
            cases call with
            | insert key value => cases writes
            | remove key => cases writes
            | get key now accessNow => rfl
            | flushWal => rfl
          rw [silent]
          exact ih (wf_apply wf call) rebuiltWF (same.trans unchanged.symm)
            (limit.trans limitAfter.symm) replayed (calm.tail wf)
      | some record =>
          have longer : recordsOf (call :: calls) = record :: recordsOf calls :=
            List.filterMap_cons_some writes
          have below : storedBytes rebuilt.entries ≤ rebuilt.policy.memoryLimit := by
            rw [limit]
            exact Nat.le_trans (rebuiltWF.storedBytes_le fun key _ => congrFun same key) calm.head
          have later := ih (wf_apply wf call)
            (wf_applyRecord rebuiltWF (clock (2 * replayed)) (clock (2 * replayed + 1)) record)
            (view_applyRecord_of_record wf rebuiltWF same below calm.head _ _ writes)
            (by rw [memoryLimit_applyRecord rebuiltWF _ _ writes, limit, limitAfter])
            (replayed + 1) (calm.tail wf)
          rw [longer]
          refine ⟨later.1, fun key => ?_⟩
          rw [evictedIn, later.2 key, Bool.false_or, decide_eq_false_iff_not]
          exact fun evicted => rebuiltWF.not_evicts below key evicted.2.2.2

theorem lastEffect_recordsOf_eq_none_iff {key : Bytes} :
    lastEffect (recordsOf calls) key = none <-> forall call, call ∈ calls -> ¬ call.Changes key := by
  induction calls with
  | nil => exact ⟨fun _ => List.forall_mem_nil _, fun _ => rfl⟩
  | cons call calls ih =>
      rw [List.forall_mem_cons, ← ih]
      cases call with
      | insert written value =>
          change (lastEffect (recordsOf calls) key).or (if written = key then _ else none) =
            none <-> ¬ written = key ∧ _
          simp [and_comm]
      | remove removed =>
          change (lastEffect (recordsOf calls) key).or (if removed = key then _ else none) =
            none <-> ¬ removed = key ∧ _
          simp [and_comm]
      | get read now accessNow => exact ⟨fun none => ⟨fun changes => changes, none⟩, And.right⟩
      | flushWal => exact ⟨fun none => ⟨fun changes => changes, none⟩, And.right⟩

theorem written_recordsOf (calls : List TableCall) :
    forall record, record ∈ recordsOf calls -> WrittenByTable record := by
  intro record member
  rcases List.mem_filterMap.mp member with ⟨call, _, writes⟩
  cases call with
  | insert key value =>
      cases writes
      exact Or.inl rfl
  | remove key =>
      cases writes
      exact Or.inr rfl
  | get key now accessNow => cases writes
  | flushWal => cases writes

/-- Calls within the limit leave of a key what the last record on it says. -/
theorem view_runCalls_calm (wf : t.WF) (calm : CalmRun t calls) (key : Bytes) :
    (runCalls t calls).view key = (lastEffect (recordsOf calls) key).getD (t.view key) := by
  rcases replay_recordsOf wf wf rfl rfl (fun _ => 0) 0 calm with ⟨same, kept⟩
  rw [← same, view_replayRecords wf _ 0 (written_recordsOf calls), kept key]
  rfl

/-- Recovery from an empty log on:  the replay into a table with the same map
gives the map after some of the calls, of which at most a batch is missing. -/
theorem view_replayWal_logFile {t loaded : HashTable P} (wf : t.WF) (loadedWF : loaded.WF)
    (same : loaded.view = t.view) (limit : loaded.policy.memoryLimit = t.policy.memoryLimit)
    (new : Pending t [] []) (moment : Moment)
    (within : forall count, count ≤ calls.length ->
      storedBytes (runCalls t (calls.take count)).entries ≤ t.policy.memoryLimit)
    (short : forall call, call ∈ calls ++ moment.calls -> call.Short) (clock : Nat -> UInt64) :
    Exists fun count => count ≤ (calls ++ moment.calls).length ∧
      mutations (calls ++ moment.calls) ≤ mutations ((calls ++ moment.calls).take count) + 100 ∧
      (replayWal loaded (moment.logFile (runCalls t calls)) clock).1.view =
        (runCalls t ((calls ++ moment.calls).take count)).view := by
  have calm : CalmRun t (calls ++ moment.calls) := by
    intro count inside
    have one := moment.length_calls_le
    rw [List.length_append] at inside
    rw [List.take_append_of_le_length (by omega)]
    exact within count (by omega)
  have last := within calls.length (Nat.le_refl _)
  rw [List.take_length] at last
  rcases readAll_logFile wf new moment calm last short with ⟨kept, bound, read, few⟩
  rcases exists_recordsOf_take (calls ++ moment.calls) bound with ⟨count, inside, records⟩
  refine ⟨count, inside, ?_, ?_⟩
  · have keptCount := congrArg List.length records
    rw [length_recordsOf, List.length_take, Nat.min_eq_left bound] at keptCount
    rw [length_recordsOf] at few
    omega
  · have replays := (replay_recordsOf wf loadedWF same limit clock 0 (calm.take count)).1
    rw [records, ← read] at replays
    exact replays

/-! ## Loading a snapshot -/

/-- Every stored key and value is shorter than its length field allows. -/
def ShortStrings (t : HashTable P) : Prop :=
  forall key entry, t.view key = some entry -> key.length < 2 ^ 32 ∧ entry.1.length < 2 ^ 32

theorem ShortStrings.apply (wf : t.WF) (strings : ShortStrings t) (short : call.Short) :
    ShortStrings (call.apply t) := by
  intro key entry bound
  rw [view_apply wf, Change.apply_eq_some_iff] at bound
  rcases bound with binds | ⟨_, before⟩
  · cases call with
    | insert written value =>
        cases binds
        exact short
    | remove removed => cases binds
    | get read now accessNow => cases binds
    | flushWal => cases binds
  · exact strings key entry before

/-- With distinct keys the last entry of a key is its only one. -/
theorem lastEntry_eq_find {entries : List KeyValuePair}
    (distinct : (entries.map KeyValuePair.key).Nodup) (key : Bytes) :
    lastEntry (entries.map fun kv => (kv.key, kv.value)) key =
      (findKey key entries).map fun kv => (kv.value.value, kv.value.expiryNs) := by
  induction entries with
  | nil => rfl
  | cons kv entries ih =>
      rcases List.nodup_cons.mp distinct with ⟨absent, rest⟩
      rw [List.map_cons, lastEntry, ih rest]
      by_cases same : kv.key = key
      · subst same
        have unique : findKey kv.key entries = none := find_eq_none_iff.mpr absent
        have here : findKey kv.key (kv :: entries) = some kv := find_cons_self kv
        rw [unique, here, Option.map_none, Option.none_or, if_pos rfl, Option.map_some]
      · have elsewhere : findKey key (kv :: entries) = findKey key entries := find_cons_of_ne same
        rw [if_neg same, Option.or_none, elsewhere]

/-- Short strings are read back as they were written. -/
theorem map_carriedEntry (wf : t.WF) (strings : ShortStrings t) :
    (snapshotEntries t).map carriedEntry = snapshotEntries t := by
  rw [snapshotEntries, List.map_map]
  refine List.map_congr_left fun kv member => ?_
  have found : t.find kv.key = some kv := (find_eq_some_iff wf.distinct).mpr ⟨member, rfl⟩
  have short : kv.key.length < 2 ^ 32 ∧ kv.value.value.length < 2 ^ 32 :=
    strings kv.key _ (congrArg (Option.map _) found)
  have shortKey : shortString kv.key = kv.key := (shortString_eq_self_iff _).mpr (by omega)
  have shortValue : shortString kv.value.value = kv.value.value :=
    (shortString_eq_self_iff _).mpr (by omega)
  simp only [Function.comp_apply, carriedEntry, shortKey, shortValue]

/-- A snapshot of short strings says what the table holds. -/
theorem snapshotView_eq_view (wf : t.WF) (strings : ShortStrings t) (key : Bytes) :
    snapshotView t key = t.view key := by
  rw [snapshotView, map_carriedEntry wf strings]
  exact lastEntry_eq_find wf.distinct key

theorem memoryLimit_insertAll (wf : t.WF) (entries : List (Bytes × ValueEntry)) :
    (insertAll t entries).policy.memoryLimit = t.policy.memoryLimit := by
  induction entries generalizing t with
  | nil => rfl
  | cons entry entries ih =>
      exact (ih (wf.insert entry.1 entry.2).1).trans (wf.insert entry.1 entry.2).2.2.1

/-! ## Histories since the last snapshot -/

namespace TableConfig

variable (config : TableConfig)

theorem durable_snoc (events : List DurableCall) (event : DurableCall) :
    config.durable P (events ++ [event]) = (config.durable P events).step event := by
  rw [durable, List.foldl_append]
  rfl

theorem durable_calls (base : List DurableCall) (calls : List TableCall) :
    config.durable P (base ++ calls.map DurableCall.call) =
      { config.durable P base with table := runCalls (config.durable P base).table calls } := by
  induction calls using List.reverseRecOn with
  | nil => rw [List.map_nil, List.append_nil]; rfl
  | append_singleton calls call ih =>
      rw [List.map_append, List.map_singleton, ← List.append_assoc, durable_snoc, ih, runCalls_append]
      rfl

theorem wf_durable (events : List DurableCall) : (config.durable P events).table.WF := by
  induction events using List.reverseRecOn with
  | nil => exact config.wf_fresh (some [])
  | append_singleton events event ih =>
      rw [durable_snoc]
      cases event with
      | call call => exact wf_apply ih call
      | checkpoint => exact wf_truncateWal ih

/-- The table keeps its log and its limit. -/
theorem writer_durable (events : List DurableCall) :
    (config.durable P events).table.walWriter.isSome = true ∧
      (config.durable P events).table.policy.memoryLimit = config.memoryLimit := by
  induction events using List.reverseRecOn with
  | nil => exact ⟨rfl, config.memoryLimit_fresh (some [])⟩
  | append_singleton events event ih =>
      rcases ih with ⟨writer, limit⟩
      have wf := config.wf_durable (P := P) events
      rw [durable_snoc]
      cases event with
      | call call =>
          refine ⟨?_, (memoryLimit_runCalls wf [call]).trans limit⟩
          change (call.apply _).walWriter.isSome = true
          cases call with
          | insert key value =>
              rcases (wf.insert key value).2.2.2 with ⟨victims, _, written⟩
              exact written ▸ (Option.isSome_map).trans writer
          | remove key => exact wf.walWriter_remove key ▸ (Option.isSome_map).trans writer
          | get key now accessNow => exact (wf.get key now accessNow).2.2.2.2 ▸ writer
          | flushWal => exact (Option.isSome_map).trans writer
      | checkpoint =>
          change (truncateWal _).walWriter.isSome = true ∧ (truncateWal _).policy.memoryLimit = _
          rw [truncateWal, if_pos writer]
          exact ⟨rfl, limit⟩

theorem shortStrings_durable {events : List DurableCall}
    (short : forall call, call ∈ tableCalls events -> call.Short) :
    ShortStrings (config.durable P events).table := by
  induction events using List.reverseRecOn with
  | nil =>
      intro key entry bound
      exact nomatch (config.view_fresh (some []) key).symm.trans bound
  | append_singleton events event ih =>
      have before := ih fun call member =>
        short call (by rw [tableCalls, List.filterMap_append]; exact List.mem_append_left _ member)
      rw [durable_snoc]
      cases event with
      | call call =>
          refine before.apply (config.wf_durable events) (short call ?_)
          rw [tableCalls, List.filterMap_append]
          exact List.mem_append_right _ List.mem_cons_self
      | checkpoint =>
          change ShortStrings (truncateWal _)
          rw [truncateWal, if_pos (config.writer_durable events).1]
          exact before

theorem memoryLimit_loaded (wf : t.WF) (counted : t.numEntries < 2 ^ 64) (garbage : Uninitialised) :
    (config.loaded P garbage (createSnapshot t)).policy.memoryLimit = config.memoryLimit := by
  rw [loaded, loadSnapshot_createSnapshot wf counted, if_pos rfl]
  exact (memoryLimit_insertAll (config.wf_fresh none) _).trans (config.memoryLimit_fresh none)

/-- A history up to a point where the log is empty. -/
def Fresh (base : List DurableCall) : Prop :=
  base = [] ∨ Exists fun front => base = front ++ [DurableCall.checkpoint]

theorem exists_fresh (events : List DurableCall) :
    Exists fun base => Exists fun calls : List TableCall =>
      Fresh base ∧ events = base ++ calls.map DurableCall.call := by
  induction events using List.reverseRecOn with
  | nil => exact ⟨[], [], Or.inl rfl, rfl⟩
  | append_singleton events event ih =>
      cases event with
      | call call =>
          rcases ih with ⟨base, calls, start, rfl⟩
          refine ⟨base, calls ++ [call], start, ?_⟩
          rw [List.map_append, List.append_assoc]
          rfl
      | checkpoint =>
          exact ⟨events ++ [.checkpoint], [], Or.inr ⟨events, rfl⟩, (List.append_nil _).symm⟩

/-- Where the log is empty, loading the snapshot gives the map of the table. -/
theorem reloaded_fresh {base : List DurableCall} (start : Fresh base) (capacity : Nat)
    (garbage : Uninitialised)
    (within : forall front, front <+: base -> storedBytes (config.durable P front).table.entries ≤
      config.memoryLimit)
    (counted : forall front, front <+: base -> (config.durable P front).table.numEntries < 2 ^ 64)
    (short : forall call, call ∈ tableCalls base -> call.Short) :
    let loaded : HashTable P :=
      TableConfig.reloaded { config with initialCapacity := capacity } P garbage
        (config.durable P base).snapshot
    loaded.WF ∧ loaded.view = (config.durable P base).table.view ∧
      loaded.policy.memoryLimit = config.memoryLimit ∧
      Pending (config.durable P base).table [] [] := by
  rcases start with rfl | ⟨front, rfl⟩
  · refine ⟨wf_fresh _ none, ?_, memoryLimit_fresh _ none, _, rfl, rfl, rfl, rfl, by decide⟩
    funext key
    exact (view_fresh _ none key).trans (config.view_fresh (some []) key).symm
  · have wf := config.wf_durable (P := P) front
    have inside : front <+: front ++ [DurableCall.checkpoint] := List.prefix_append _ _
    have writer := (config.writer_durable (P := P) front).1
    have strings : ShortStrings (config.durable P front).table :=
        config.shortStrings_durable fun call member =>
      short call (by rw [tableCalls, List.filterMap_append]; exact List.mem_append_left _ member)
    rw [durable_snoc]
    simp only [Durable.step, truncateWal, if_pos writer, reloaded]
    have loads := fun key => TableConfig.loaded_createSnapshot { config with
      initialCapacity := capacity } wf (within front inside) (counted front inside) garbage key
    refine ⟨(loads []).1, ?_, ?_, _, rfl, rfl, rfl, rfl, by decide⟩
    · funext key
      exact (loads key).2.trans (snapshotView_eq_view wf strings key)
    · exact memoryLimit_loaded { config with initialCapacity := capacity } wf
        (counted front inside) garbage

theorem tableCalls_append (first second : List DurableCall) :
    tableCalls (first ++ second) = tableCalls first ++ tableCalls second :=
  List.filterMap_append

theorem tableCalls_map (calls : List TableCall) :
    tableCalls (calls.map DurableCall.call) = calls := by
  rw [tableCalls, List.filterMap_map]
  exact List.filterMap_some

/-- A table within its memory limit takes any number of snapshots, each with the
truncation of the log, and a crash comes at any other moment.  Recovery gives a
map that the history had, and at most the last hundred mutating calls, a batch
of the log, are missing from it. -/
theorem recovers_state_of_history (config : TableConfig) (P : Platform) (capacity : Nat)
    (garbage : Uninitialised) (clock : Nat -> UInt64) (events : List DurableCall) (moment : Moment)
    (within : forall count, count ≤ events.length ->
      storedBytes (config.durable P (events.take count)).table.entries ≤ config.memoryLimit)
    (short : forall call, call ∈ tableCalls events ++ moment.calls -> call.Short)
    (counted : forall count, count ≤ events.length ->
      (config.durable P (events.take count)).table.numEntries < 2 ^ 64) :
    let history := events ++ moment.calls.map DurableCall.call
    let recoveredTable := TableConfig.recovered { config with initialCapacity := capacity }
      P garbage clock (config.durable P events).snapshot
        (moment.logFile (config.durable P events).table)
    Exists fun count => count ≤ history.length ∧
      mutations (tableCalls history) ≤ mutations (tableCalls (history.take count)) + 100 ∧
      recoveredTable.view = (config.durable P (history.take count)).table.view := by
  intro history recoveredTable
  rcases exists_fresh events with ⟨base, calls, start, rfl⟩
  have whole : history = base ++ (calls ++ moment.calls).map DurableCall.call := by
    rw [List.map_append, ← List.append_assoc]
  have beginning : forall (calls : List TableCall) count, (base ++ calls.map DurableCall.call).take
      (base.length + count) =
      base ++ (calls.take count).map DurableCall.call := by
    intro calls count
    rw [List.take_length_add_append, List.map_take]
  -- The hypotheses up to the last snapshot, and from there on.
  have before : forall front, front <+: base ->
      storedBytes (config.durable P front).table.entries ≤ config.memoryLimit ∧
        (config.durable P front).table.numEntries < 2 ^ 64 := by
    intro front initial
    have inside : front.length ≤ (base ++ calls.map DurableCall.call).length := by
      rw [List.length_append]
      exact Nat.le_trans initial.length_le (Nat.le_add_right _ _)
    have same : (base ++ calls.map DurableCall.call).take front.length = front := by
      rw [List.take_append_of_le_length initial.length_le]
      exact (List.prefix_iff_eq_take.mp initial).symm
    exact same ▸ ⟨within front.length inside, counted front.length inside⟩
  have behind : forall count, count ≤ calls.length ->
      storedBytes (runCalls (config.durable P base).table (calls.take count)).entries ≤
        (config.durable P base).table.policy.memoryLimit := by
    intro count inside
    have bound := within (base.length + count) (by rw [List.length_append, List.length_map]; omega)
    rw [beginning, durable_calls] at bound
    rw [(config.writer_durable base).2]
    exact bound
  rw [tableCalls_append, tableCalls_map, List.append_assoc] at short
  rcases config.reloaded_fresh start capacity garbage (fun front initial => (before front initial).1)
    (fun front initial => (before front initial).2)
    (fun call member => short call (List.mem_append_left _ member))
    with ⟨loadedWF, same, limit, new⟩
  rcases view_replayWal_logFile (config.wf_durable base) loadedWF same
    (limit.trans (config.writer_durable base).2.symm) new moment behind
    (fun call member => short call (List.mem_append_right _ member)) clock with
    ⟨count, inside, few, replayed⟩
  refine ⟨base.length + count, ?_, ?_, ?_⟩
  · rw [whole, List.length_append, List.length_map]
    omega
  · rw [whole, beginning, tableCalls_append, tableCalls_append, tableCalls_map, tableCalls_map]
    simp only [mutations, List.countP_append] at few ⊢
    omega
  · simp only [recoveredTable, recovered, whole, beginning, durable_calls]
    exact replayed

end TableConfig

/-- Key `a` is set, a snapshot taken, and `b` is set. -/
def checkpointed : List DurableCall :=
  [.call (.insert [97] (ValueEntry.new [49] 0)), .checkpoint,
    .call (.insert [98] (ValueEntry.new [50] 0))]

/-- The crash comes inside a `remove` of `a`. -/
theorem recovers_state_of_history_checkpointed :
    (forall count, count ≤ checkpointed.length ->
        storedBytes (roomy.durable Platform.source (checkpointed.take count)).table.entries ≤
          roomy.memoryLimit) ∧
      Exists fun count => count ≤ 4 ∧
        (TableConfig.recovered ⟨16, 100, .lru⟩ Platform.source zeroed (fun _ => 0)
          (roomy.durable Platform.source checkpointed).snapshot
          ((Moment.inside (.remove [97]) 3).logFile
            (roomy.durable Platform.source checkpointed).table)).view =
            (roomy.durable Platform.source
                ((checkpointed ++ [DurableCall.call (.remove [97])]).take count)).table.view := by
  have within : forall count, count ≤ checkpointed.length ->
      storedBytes (roomy.durable Platform.source (checkpointed.take count)).table.entries ≤
          roomy.memoryLimit := by
    decide
  have counted : forall count, count ≤ checkpointed.length ->
      (roomy.durable Platform.source (checkpointed.take count)).table.numEntries < 2 ^ 64 := by
    decide
  have short : forall call, call ∈ tableCalls checkpointed ++
      (Moment.inside (.remove [97]) 3).calls -> call.Short := by
    intro call member
    simp only [tableCalls, checkpointed, Moment.calls, List.filterMap_cons, List.filterMap_nil,
      List.cons_append, List.nil_append, List.mem_cons, List.not_mem_nil, or_false] at member
    rcases member with rfl | rfl | rfl
    · exact ⟨by decide, by decide⟩
    · exact ⟨by decide, by decide⟩
    · exact (by decide : [97].length < 2 ^ 32)
  rcases roomy.recovers_state_of_history Platform.source 16 zeroed (fun _ => 0) checkpointed
    (.inside (.remove [97]) 3) within short counted with ⟨count, bound, _, recovered⟩
  exact ⟨within, count, bound, recovered⟩

end Engine
end KVStore
