import KVStore.Engine.HashTable
import KVStore.Library.Runs

namespace KVStore
namespace Engine

open Framing Keyed HashTable

variable {P : Platform}

/-!
# Recovery from the log

`replay_wal` applies the records of a log to a table.  A table that logs its
operations writes the record of an `insert` before the evictions that the
insert causes, and replaying that record makes the new table evict on its own
account.  The rebuilt table therefore agrees with the original exactly as long
as no insert evicts the key that it writes, every eviction of the replay is one
of the original, and the records fit their length fields.
-/

/-! ## Calls and their effect on the map -/

/-- The calls on a table. -/
inductive TableCall where
  | insert (key : Bytes) (value : ValueEntry)
  | get (key : Bytes) (now accessNow : UInt64)
  | remove (key : Bytes)
  | flushWal

def TableCall.apply (t : HashTable P) : TableCall -> HashTable P
  | .insert key value => t.insert key value
  | .get key now accessNow => (t.get key now accessNow).1
  | .remove key => (t.remove key).1
  | .flushWal => t.flushWal

/-- A history of calls. -/
def runCalls (t : HashTable P) (calls : List TableCall) : HashTable P :=
  calls.foldl TableCall.apply t

theorem runCalls_append (t : HashTable P) (first second : List TableCall) :
    runCalls t (first ++ second) = runCalls (runCalls t first) second :=
  List.foldl_append

variable {t : HashTable P} {records : List WALRecord}

theorem view_insert (wf : t.WF) (key : Bytes) (value : ValueEntry) (other : Bytes) :
    (t.insert key value).view other =
      if key = other then some (value.value, value.expiryNs)
      else if t.Evicts other then none else t.view other := by
  rw [view, (wf.insert key value).2.1 other]
  split
  · rfl
  · rw [wf.find_evictIfNeeded]
    split <;> rfl

theorem view_remove (wf : t.WF) (key other : Bytes) :
    (t.remove key).1.view other = if key = other then none else t.view other := by
  rw [view, wf.find_remove]
  split <;> rfl

theorem wf_apply (wf : t.WF) (call : TableCall) : (call.apply t).WF := by
  cases call with
  | insert key value => exact (wf.insert key value).1
  | get key now accessNow => exact (wf.get key now accessNow).1
  | remove key => exact wf.remove key
  | flushWal => exact ⟨wf.nonempty, wf.placed, wf.distinct, wf.count, wf.tracks⟩

theorem wf_runCalls (wf : t.WF) (calls : List TableCall) : (runCalls t calls).WF := by
  induction calls generalizing t with
  | nil => exact wf
  | cons call calls ih => exact ih (wf_apply wf call)

theorem memoryLimit_runCalls (wf : t.WF) (calls : List TableCall) :
    (runCalls t calls).policy.memoryLimit = t.policy.memoryLimit := by
  induction calls generalizing t with
  | nil => rfl
  | cons call calls ih =>
      refine (ih (wf_apply wf call)).trans ?_
      cases call with
      | insert key value => exact (wf.insert key value).2.2.1
      | get key now accessNow => exact (wf.get key now accessNow).2.2.2.1
      | remove key => exact wf.memoryLimit_remove key
      | flushWal => rfl

/-! ## Replay -/

/-- One record of `replay_wal`, with the clock readings of its `get`. -/
def applyRecord (t : HashTable P) (now accessNow : UInt64) (record : WALRecord) : HashTable P :=
  match record.opType with
  | .set => t.insert record.key (ValueEntry.new record.value record.ttlNs.toUInt64)
  | .delete => (t.remove record.key).1
  | .expire =>
      match t.get record.key now accessNow with
      | (t, none) => t
      | (t, some existing) => t.insert record.key { existing with expiryNs := record.ttlNs.toUInt64 }
  | .unnamed _ _ => t

/-- The loop of `replay_wal`; `clock` lists the readings of the clock and
`replayed` counts the records. -/
def replayRecords (clock : Nat -> UInt64) : Nat -> HashTable P -> List WALRecord -> HashTable P
  | _, t, [] => t
  | replayed, t, record :: records =>
      replayRecords clock (replayed + 1)
        (applyRecord t (clock (2 * replayed)) (clock (2 * replayed + 1)) record) records

/-- `replay_wal`, with the number of records that it returns. -/
def replayWal (t : HashTable P) (file : Bytes) (clock : Nat -> UInt64) : HashTable P × Nat :=
  (replayRecords clock 0 t (readAll file), (readAll file).length)

theorem replayRecords_append (clock : Nat -> UInt64) (replayed : Nat) (t : HashTable P)
    (first second : List WALRecord) :
    replayRecords clock replayed t (first ++ second) =
      replayRecords clock (replayed + first.length) (replayRecords clock replayed t first) second := by
  induction first generalizing replayed t with
  | nil => rfl
  | cons record first ih =>
      rw [List.cons_append, replayRecords, ih, List.length_cons, replayRecords]
      congr 1
      omega

theorem wf_applyRecord (wf : t.WF) (now accessNow : UInt64) (record : WALRecord) :
    (applyRecord t now accessNow record).WF := by
  unfold applyRecord
  split
  · exact (wf.insert _ _).1
  · exact wf.remove _
  · have read := (wf.get record.key now accessNow).1
    rcases got : t.get record.key now accessNow with ⟨after, _ | existing⟩ <;> rw [got] at read
    · exact read
    · exact (read.insert _ _).1
  · exact wf

theorem wf_replayRecords (wf : t.WF) (clock : Nat -> UInt64) (replayed : Nat)
    (records : List WALRecord) : (replayRecords clock replayed t records).WF := by
  induction records generalizing t replayed with
  | nil => exact wf
  | cons record records ih => exact ih (wf_applyRecord wf _ _ record) _

/-- Records of removals delete their keys. -/
theorem view_replay_deletes (wf : t.WF) (clock : Nat -> UInt64) (replayed : Nat) (keys : List Bytes)
    (other : Bytes) :
    (replayRecords clock replayed t (keys.map deleteRecord)).view other =
      if other ∈ keys then none else t.view other := by
  induction keys generalizing t replayed with
  | nil => rw [if_neg List.not_mem_nil]; rfl
  | cons key keys ih =>
      rw [List.map_cons, replayRecords]
      change (replayRecords clock (replayed + 1) (t.remove key).1 _).view other = _
      rw [ih (wf.remove key), view_remove wf, ite_mem_cons]

/-! ## The log of a table -/

/-- The log holds the given records, some of them perhaps still in the buffer. -/
def Logs (t : HashTable P) (records : List WALRecord) : Prop :=
  Exists fun w => t.walWriter = some w ∧ w.Holds records

theorem Logs.appendAll {t after : HashTable P} {records more : List WALRecord}
    (logs : Logs t records) (logged : after.walWriter = t.walWriter.map fun w => w.appendAll more) :
    Logs after (records ++ more) := by
  rcases logs with ⟨w, writer, holds⟩
  refine ⟨w.appendAll more, ?_, holds.appendAll more⟩
  rw [logged, writer, Option.map_some]

/-- The records that a call appends to the log. -/
inductive Appends (t : HashTable P) : TableCall -> List WALRecord -> Prop where
  | insert (key : Bytes) (value : ValueEntry) (victims : List Bytes)
      (evictions : forall victim, victim ∈ victims <-> t.Evicts victim) :
      Appends t (.insert key value) (setRecord key value :: victims.map deleteRecord)
  | get (key : Bytes) (now accessNow : UInt64) : Appends t (.get key now accessNow) []
  | remove (key : Bytes) : Appends t (.remove key) [deleteRecord key]
  | flushWal : Appends t .flushWal []

theorem Logs.apply (wf : t.WF) (logs : Logs t records) (call : TableCall) :
    Exists fun more => Appends t call more ∧ Logs (call.apply t) (records ++ more) := by
  cases call with
  | insert key value =>
      rcases (wf.insert key value).2.2.2 with ⟨victims, evictions, logged⟩
      exact ⟨_, .insert key value victims evictions, logs.appendAll logged⟩
  | get key now accessNow =>
      refine ⟨[], .get key now accessNow, ?_⟩
      rw [List.append_nil]
      rcases logs with ⟨w, writer, holds⟩
      exact ⟨w, (wf.get key now accessNow).2.2.2.2.trans writer, holds⟩
  | remove key =>
      refine ⟨_, .remove key, logs.appendAll ?_⟩
      exact wf.walWriter_remove key
  | flushWal =>
      refine ⟨[], .flushWal, ?_⟩
      rw [List.append_nil]
      rcases logs with ⟨w, writer, holds⟩
      refine ⟨w.flush, ?_, holds.flush⟩
      change t.walWriter.map WALWriter.flush = _
      rw [writer, Option.map_some]

/-- The bytes of the log file. -/
def walFile (t : HashTable P) : Bytes :=
  match t.walWriter with
  | none => []
  | some w => w.file

theorem Logs.readAll_flushWal (logs : Logs t records) :
    readAll (walFile t.flushWal) = records.map WALRecord.carried := by
  rcases logs with ⟨w, writer, flushed, file, whole⟩
  have flushedFile : walFile t.flushWal = walCodec.encodeAll records := by
    rw [walFile, flushWal, writer, Option.map_some, whole, Codec.encodeAll_append, ← file]
    rfl
  rw [flushedFile]
  exact walCodec.decodeAll_encodeAll records

/-- Without a flush, the file holds the first of the records. -/
theorem Logs.readAll_walFile (logs : Logs t records) :
    Exists fun flushed => flushed <+: records ∧
        readAll (walFile t) = flushed.map WALRecord.carried := by
  rcases logs with ⟨w, writer, holds⟩
  rw [walFile, writer]
  exact holds.readAll_file

/-- A new log is empty. -/
theorem logs_enableWal (t : HashTable P) (batchSize : Nat) : Logs (t.enableWal [] batchSize) [] :=
  ⟨WALWriter.new [] batchSize, rfl, WALWriter.holds_new batchSize⟩

/-- The records that a table writes. -/
def WrittenByTable (record : WALRecord) : Prop := record.opType = .set ∨ record.opType = .delete

theorem Appends.written {call : TableCall} {more : List WALRecord} (appends : Appends t call more) :
    forall record, record ∈ more -> WrittenByTable record := by
  intro record member
  cases appends with
  | insert key value victims =>
      rcases List.mem_cons.mp member with rfl | eviction
      · exact Or.inl rfl
      · rcases List.mem_map.mp eviction with ⟨victim, _, rfl⟩
        exact Or.inr rfl
  | remove key =>
      rw [List.mem_singleton.mp member]
      exact Or.inr rfl
  | get => exact absurd member List.not_mem_nil
  | flushWal => exact absurd member List.not_mem_nil

/-- The log over a history of calls. -/
theorem Logs.runCalls (wf : t.WF) (logs : Logs t records) (calls : List TableCall) :
    Exists fun more => Logs (runCalls t calls) (records ++ more) ∧
      forall record, record ∈ more -> WrittenByTable record := by
  induction calls generalizing t records with
  | nil => exact ⟨[], (List.append_nil records).symm ▸ logs, List.forall_mem_nil _⟩
  | cons call calls ih =>
      rcases logs.apply wf call with ⟨first, appends, longer⟩
      rcases ih (wf_apply wf call) longer with ⟨later, whole, written⟩
      refine ⟨first ++ later, List.append_assoc records first later ▸ whole, ?_⟩
      exact fun record member => (List.mem_append.mp member).elim (appends.written record)
        (written record)

/-! ## Histories and their replay -/

/-- The arguments of the constructor, the path of the log apart. -/
structure TableConfig where
  initialCapacity : Nat
  memoryLimit : Nat
  kind : EvictionPolicy

namespace TableConfig

variable (config : TableConfig)

def fresh (P : Platform) (walFile : Option Bytes) : HashTable P :=
  HashTable.new config.initialCapacity config.memoryLimit config.kind walFile

theorem wf_fresh (walFile : Option Bytes) : (config.fresh P walFile).WF := wf_new ..

@[simp] theorem view_fresh (walFile : Option Bytes) (key : Bytes) :
    (config.fresh P walFile).view key = none :=
  congrArg (Option.map _) (find_new config.initialCapacity config.memoryLimit config.kind walFile key)

@[simp] theorem memoryLimit_fresh (walFile : Option Bytes) :
    (config.fresh P walFile).policy.memoryLimit = config.memoryLimit :=
  memoryLimit_new ..

/-- A table created with a new log, after some calls. -/
def history (P : Platform) (calls : List TableCall) : HashTable P :=
  runCalls (config.fresh P (some [])) calls

/-- A fresh table, into which the flushed log of a history was replayed. -/
def replayed (P : Platform) (clock : Nat -> UInt64) (calls : List TableCall) : HashTable P :=
  (replayWal (config.fresh P none) (walFile (config.history P calls).flushWal) clock).1

theorem wf_history (calls : List TableCall) : (config.history P calls).WF :=
  wf_runCalls (wf_new ..) calls

theorem wf_replayed (clock : Nat -> UInt64) (calls : List TableCall) :
    (config.replayed P clock calls).WF :=
  wf_replayRecords (wf_new ..) clock 0 _

theorem history_snoc (calls : List TableCall) (call : TableCall) :
    config.history P (calls ++ [call]) = call.apply (config.history P calls) :=
  runCalls_append _ _ _

theorem logs_history (calls : List TableCall) :
    Exists fun records => Logs (config.history P calls) records ∧
    forall record, record ∈ records -> WrittenByTable record :=
  (logs_enableWal (config.fresh P none) 100).runCalls (config.wf_history []) calls

end TableConfig

/-! ## One call and its records -/

/-- Every stored key fits its length field. -/
def ShortKeys (t : HashTable P) : Prop := forall key, t.view key ≠ none -> shortString key = key

/-- A call after which the replay of the log still gives the table: `original`
is the table, `rebuilt` the replay of the log before the call. -/
def Faithful (original rebuilt : HashTable P) : TableCall -> Prop
  | .insert key value =>
      key.length < 2 ^ 32 ∧ value.value.length < 2 ^ 32 ∧ ¬ original.Evicts key ∧
        forall other, rebuilt.Evicts other -> other = key ∨ original.Evicts other
  | .remove key => shortString key = key ∨ original.view (shortString key) = none
  | .get _ _ _ => True
  | .flushWal => True

section Step

variable {original rebuilt : HashTable P} (rebuiltWF : rebuilt.WF)
  (short : ShortKeys rebuilt) (agree : forall key, rebuilt.view key = original.view key)
  (clock : Nat -> UInt64) (count : Nat)

include rebuiltWF short agree

/-- The rebuilt table after the records of an `insert`. -/
theorem view_replay_insert {key : Bytes} {value : ValueEntry} {victims : List Bytes}
    (evictions : forall victim, victim ∈ victims <-> original.Evicts victim) (other : Bytes) :
    (replayRecords clock count rebuilt
        ((setRecord key value :: victims.map deleteRecord).map WALRecord.carried)).view other =
      if original.Evicts other then none
      else if shortString key = other then some (shortString value.value, value.expiryNs)
      else if rebuilt.Evicts other then none else original.view other := by
  have shortVictims : (victims.map deleteRecord).map WALRecord.carried =
      victims.map deleteRecord := by
    rw [List.map_map]
    apply List.map_congr_left
    intro victim member
    have stored := ((evictions victim).mp member).1
    have shortVictim : shortString victim = victim := by
      apply short
      rw [agree]
      exact mt view_eq_none_iff.mp stored
    change (deleteRecord victim).carried = deleteRecord victim
    rw [WALRecord.carried, deleteRecord, shortVictim]
    rfl
  have expiry : value.expiryNs.toInt64.toUInt64 = value.expiryNs := UInt64.toUInt64_toInt64 _
  rw [List.map_cons, shortVictims, replayRecords]
  change (replayRecords clock (count + 1) (rebuilt.insert (shortString key)
    (ValueEntry.new (shortString value.value) value.expiryNs.toInt64.toUInt64)) _).view other = _
  rw [view_replay_deletes (rebuiltWF.insert _ _).1, view_insert rebuiltWF, agree, expiry]
  exact if_congr (evictions other) rfl rfl

/-- An `insert` keeps the replay equal to the table exactly when it is faithful. -/
theorem insert_agree_iff (originalWF : original.WF) {key : Bytes} {value : ValueEntry}
    {victims : List Bytes}
    (evictions : forall victim, victim ∈ victims <-> original.Evicts victim) :
    (forall other, (replayRecords clock count rebuilt
        ((setRecord key value :: victims.map deleteRecord).map WALRecord.carried)).view other =
          (original.insert key value).view other) <->
              Faithful original rebuilt (.insert key value) := by
  simp only [view_replay_insert rebuiltWF short agree clock count evictions, view_insert originalWF]
  constructor
  · intro same
    have own := same key
    rw [if_pos rfl] at own
    have notEvicted : ¬ original.Evicts key := by
      intro evicted
      rw [if_pos evicted] at own
      cases own
    rw [if_neg notEvicted] at own
    have shortKey : shortString key = key := by
      by_contra long
      rw [if_neg long] at own
      split at own
      · cases own
      · apply long
        apply short
        rw [agree, own]
        exact Option.some_ne_none _
    rw [if_pos shortKey, Option.some.injEq, Prod.mk.injEq] at own
    refine ⟨(shortString_eq_self_iff key).mp shortKey, (shortString_eq_self_iff _).mp own.1,
      notEvicted, ?_⟩
    intro other evicted
    by_contra neither
    rcases not_or.mp neither with ⟨different, kept⟩
    have there := same other
    rw [if_neg kept, shortKey, if_neg (Ne.symm different), if_pos evicted, if_neg (Ne.symm different),
      if_neg kept] at there
    exact evicted.1 (view_eq_none_iff.mp ((agree other).trans there.symm))
  · rintro ⟨shortKey, shortValue, notEvicted, covered⟩ other
    have keySame : shortString key = key := (shortString_eq_self_iff key).mpr shortKey
    have valueSame : shortString value.value = value.value :=
      (shortString_eq_self_iff _).mpr shortValue
    rw [keySame, valueSame]
    by_cases same : key = other
    · rw [if_neg (same ▸ notEvicted), if_pos same, if_pos same]
    · rw [if_neg same, if_neg same]
      by_cases evicted : original.Evicts other
      · rw [if_pos evicted, if_pos evicted]
      · rw [if_neg evicted, if_neg evicted, if_neg]
        intro rebuiltEvicts
        rcases covered other rebuiltEvicts with own | kept
        · exact same own.symm
        · exact evicted kept

/-- A `remove` keeps the replay equal to the table exactly when it is faithful. -/
theorem remove_agree_iff (originalWF : original.WF) (key : Bytes) :
    (forall other, (replayRecords clock count rebuilt
      ([deleteRecord key].map WALRecord.carried)).view other =
      (original.remove key).1.view other) <-> Faithful original rebuilt (.remove key) := by
  have replay : forall other, (replayRecords clock count rebuilt
      ([deleteRecord key].map WALRecord.carried)).view other =
        if shortString key = other then none else original.view other := by
    intro other
    rw [← agree]
    exact view_remove rebuiltWF (shortString key) other
  simp only [replay, view_remove originalWF]
  constructor
  · intro same
    by_cases shortKey : shortString key = key
    · exact Or.inl shortKey
    · have there := same (shortString key)
      rw [if_pos rfl, if_neg (Ne.symm shortKey)] at there
      exact Or.inr there.symm
  · rintro (shortKey | missing) other
    · rw [shortKey]
    · by_cases target : shortString key = other
      · rw [if_pos target, ← target, missing, ite_self]
      · rw [if_neg target]
        split
        · rename_i same
          by_contra stored
          apply target
          rw [← same] at stored ⊢
          apply short
          rw [agree]
          exact stored
        · rfl

/-- A call keeps the replay equal to the table exactly when it is faithful. -/
theorem agree_iff_faithful (originalWF : original.WF) {call : TableCall} {more : List WALRecord}
    (appends : Appends original call more) :
    (forall key, (replayRecords clock count rebuilt (more.map WALRecord.carried)).view key =
      (call.apply original).view key) <-> Faithful original rebuilt call := by
  cases appends with
  | insert key value victims evictions =>
      exact insert_agree_iff rebuiltWF short agree clock count originalWF evictions
  | get key now accessNow =>
      refine iff_of_true (fun other => ?_) trivial
      exact (agree other).trans ((originalWF.get key now accessNow).2.1 other).symm
  | remove key => exact remove_agree_iff rebuiltWF short agree clock count originalWF key
  | flushWal => exact iff_of_true agree trivial

end Step

/-- Replayed records are short, and so are the keys they leave. -/
theorem shortKeys_replayRecords (wf : t.WF) (short : ShortKeys t) (clock : Nat -> UInt64)
    (count : Nat) (records : List WALRecord) :
    ShortKeys (replayRecords clock count t (records.map WALRecord.carried)) := by
  have inserted : forall {t : HashTable P}, t.WF -> ShortKeys t -> forall text value,
      ShortKeys (t.insert (shortString text) value) := by
    intro t wf short text value key stored
    rw [view_insert wf] at stored
    split at stored
    · rename_i same
      rw [← same]
      exact shortString_shortString text
    · split at stored
      · exact absurd rfl stored
      · exact short key stored
  induction records generalizing t count with
  | nil => exact short
  | cons record records ih =>
      refine ih (wf_applyRecord wf _ _ _) ?_ _
      unfold applyRecord
      split
      · exact inserted wf short _ _
      · intro key stored
        rw [view_remove wf] at stored
        split at stored
        · exact absurd rfl stored
        · exact short key stored
      · have read := wf.get record.carried.key (clock (2 * count)) (clock (2 * count + 1))
        rcases got : t.get record.carried.key (clock (2 * count)) (clock (2 * count + 1)) with
          ⟨after, _ | existing⟩ <;> rw [got] at read
        · intro key stored
          rw [read.2.1] at stored
          exact short key stored
        · refine inserted read.1 (fun key stored => ?_) _ _
          rw [read.2.1] at stored
          exact short key stored
      · exact short

namespace TableConfig

variable (config : TableConfig) (clock : Nat -> UInt64)

theorem replayed_eq {calls : List TableCall} (logs : Logs (config.history P calls) records) :
    config.replayed P clock calls =
      replayRecords clock 0 (config.fresh P none) (records.map WALRecord.carried) := by
  rw [replayed, replayWal, logs.readAll_flushWal]

theorem shortKeys_replayed (calls : List TableCall) :
    ShortKeys (config.replayed P clock calls) := by
  rcases config.logs_history calls with ⟨records, logs, _⟩
  rw [config.replayed_eq clock logs]
  apply shortKeys_replayRecords (wf_new ..)
  intro key stored
  exact absurd (congrArg (Option.map _) (find_new ..)) stored

/-- One more call. -/
theorem replayed_agree_snoc {calls : List TableCall} (call : TableCall)
    (agree : forall key, (config.replayed P clock calls).view key =
      (config.history P calls).view key) :
    (forall key, (config.replayed P clock (calls ++ [call])).view key =
        (config.history P (calls ++ [call])).view key) <->
      Faithful (config.history P calls) (config.replayed P clock calls) call := by
  rcases config.logs_history calls with ⟨records, logs, _⟩
  rcases logs.apply (config.wf_history calls) call with ⟨more, appends, longer⟩
  rw [← history_snoc] at longer
  rw [config.replayed_eq clock longer, List.map_append, replayRecords_append,
    ← config.replayed_eq clock logs, history_snoc]
  exact agree_iff_faithful (config.wf_replayed clock calls)
    (config.shortKeys_replayed clock calls) agree clock _ (config.wf_history calls) appends

/-- The replay of the flushed log agrees with the table. -/
def Recovers (P : Platform) (calls : List TableCall) : Prop :=
  forall key, (config.replayed P clock calls).view key = (config.history P calls).view key

theorem recovers_nil : config.Recovers clock P [] := by
  intro key
  have logs : Logs (config.history P []) [] := logs_enableWal (config.fresh P none) 100
  have original : (config.history P []).find key = none :=
    find_new config.initialCapacity config.memoryLimit config.kind (some []) key
  rw [config.replayed_eq clock logs, view, view, original]
  exact congrArg (Option.map _)
    (find_new config.initialCapacity config.memoryLimit config.kind none key)

/-- Recovery from the log: replaying the flushed log gives back the map of the
table after every call of a history exactly when every call of the history is
faithful. -/
theorem recovers_iff_faithful (P : Platform) (calls : List TableCall) :
    (forall count, count ≤ calls.length -> config.Recovers clock P (calls.take count)) <->
      forall count call, calls[count]? = some call ->
        Faithful (config.history P (calls.take count))
            (config.replayed P clock (calls.take count)) call :=
  Runs.forall_take_iff (config.recovers_nil clock)
    (fun _ call agree => config.replayed_agree_snoc clock call agree) calls

/-- An update of a key by an insert that evicts that very key: the table holds
the new value, and the log deletes it behind its own record. -/
theorem replayed_loses_evicted_update :
    ((⟨1, 0, .lru⟩ : TableConfig).history Platform.source
        [.insert [97] (ValueEntry.new [120] 0), .insert [97] (ValueEntry.new [121] 0)]).view [97] =
        some ([121], 0) ∧
      ((⟨1, 0, .lru⟩ : TableConfig).replayed Platform.source (fun _ => 0)
        [.insert [97] (ValueEntry.new [120] 0), .insert [97] (ValueEntry.new [121] 0)]).view [97] =
            none := by
  refine ⟨by decide, ?_⟩
  have logs : Logs ((⟨1, 0, .lru⟩ : TableConfig).history Platform.source
      [.insert [97] (ValueEntry.new [120] 0), .insert [97] (ValueEntry.new [121] 0)])
      [setRecord [97] (ValueEntry.new [120] 0), setRecord [97] (ValueEntry.new [121] 0),
          deleteRecord [97]] :=
    ⟨_, rfl, [], rfl, rfl⟩
  rw [TableConfig.replayed_eq _ _ logs]
  decide

end TableConfig
end Engine
end KVStore
