import KVStore.Engine.Snapshot
import Mathlib.Algebra.Order.BigOperators.Group.List

namespace KVStore
namespace Engine

open Framing Keyed HashTable

variable {P : Platform}

/-!
# Recovery after a crash

A crash loses the records in the buffer of the log and may interrupt the writing
of a snapshot.  Recovery loads the snapshot, keeps it when it is accepted, and
replays the log file.

What recovery makes of a snapshot and a log file is described key by key: the
last record that names the key decides, then the snapshot, and a key that the
replay evicts is lost.
-/

/-! ## What a snapshot and a log say about a key -/

/-- The last entry with the key. -/
def lastEntry : List (Bytes × ValueEntry) -> Bytes -> Option (Bytes × UInt64)
  | [], _ => none
  | entry :: entries, key =>
      (lastEntry entries key).or
      (if entry.1 = key then some (entry.2.value, entry.2.expiryNs) else none)

/-- What a complete snapshot of the table says about a key. -/
def snapshotView (t : HashTable P) (key : Bytes) : Option (Bytes × UInt64) :=
  lastEntry ((snapshotEntries t).map carriedEntry) key

/-- What a record leaves of its key. -/
def recordEffect (record : WALRecord) : Option (Bytes × UInt64) :=
  match record.opType with
  | .set => some (record.value, record.ttlNs.toUInt64)
  | _ => none

/-- What the last record with the key leaves of it, if there is one. -/
def lastEffect : List WALRecord -> Bytes -> Option (Option (Bytes × UInt64))
  | [], _ => none
  | record :: records, key =>
      (lastEffect records key).or (if record.key = key then some (recordEffect record) else none)

/-- The replay of the records evicts the key, and no later record names it. -/
def evictedIn (clock : Nat -> UInt64) : Nat -> HashTable P -> List WALRecord -> Bytes -> Bool
  | _, _, [], _ => false
  | replayed, t, record :: records, key =>
      evictedIn clock (replayed + 1)
          (applyRecord t (clock (2 * replayed)) (clock (2 * replayed + 1)) record) records key ||
        decide (record.opType = .set ∧ record.key ≠ key ∧
          lastEffect records key = none ∧ t.Evicts key)

variable {t : HashTable P}

theorem view_insertAll (wf : t.WF) (entries : List (Bytes × ValueEntry))
    (within : storedBytes t.entries + total (fun entry => entry.2.value.length) entries ≤
      t.policy.memoryLimit)
    (key : Bytes) :
    (insertAll t entries).WF ∧
      (insertAll t entries).view key = (lastEntry entries key).or (t.view key) := by
  induction entries generalizing t with
  | nil => exact ⟨wf, rfl⟩
  | cons entry entries ih =>
      rw [total_cons] at within
      have here : storedBytes t.entries ≤ t.policy.memoryLimit := by omega
      have grown := wf.storedBytes_insert here entry.1 entry.2
      have limit := (wf.insert entry.1 entry.2).2.2.1
      have later := ih (wf.insert entry.1 entry.2).1 (by rw [limit]; omega)
      refine ⟨later.1, later.2.trans ?_⟩
      rw [view_insert wf, if_neg (wf.not_evicts here key), lastEntry, Option.or_assoc]
      congr 1
      split <;> rfl

theorem view_applyRecord (wf : t.WF) (now accessNow : UInt64) {record : WALRecord}
    (written : WrittenByTable record) (key : Bytes) :
    (applyRecord t now accessNow record).view key =
      if record.key = key then recordEffect record
      else if record.opType = .set ∧ t.Evicts key then none else t.view key := by
  rcases written with set | delete
  · simp only [applyRecord, recordEffect, set, true_and]
    exact view_insert wf _ _ key
  · simp only [applyRecord, recordEffect, delete, reduceCtorEq, false_and, if_false]
    exact view_remove wf _ key

/-- The view of a table into which records of a table were replayed. -/
theorem view_replayRecords (wf : t.WF) (clock : Nat -> UInt64) (replayed : Nat)
    {records : List WALRecord} (written : forall record, record ∈ records -> WrittenByTable record)
    (key : Bytes) :
    (replayRecords clock replayed t records).view key =
      if evictedIn clock replayed t records key then none
      else (lastEffect records key).getD (t.view key) := by
  induction records generalizing t replayed with
  | nil => rfl
  | cons record records ih =>
      have here := written record List.mem_cons_self
      rw [replayRecords, ih (wf_applyRecord wf _ _ record) _
        (fun other later => written other (List.mem_cons_of_mem _ later)), evictedIn, lastEffect,
        view_applyRecord wf _ _ here]
      generalize evictedIn _ _ _ records key = later
      cases later with
      | true => rfl
      | false =>
          cases lastEffect records key with
          | some effect => simp
          | none =>
              -- No later record names the key, so that this one decides about it.
              by_cases named : record.key = key
              · simp [named]
              · simp [named]

/-! ## The log file after a crash -/

/-- The records in the log file of a table. -/
def flushedRecords (t : HashTable P) : List WALRecord := readAll (walFile t)

theorem written_flushedRecords {records : List WALRecord} (logs : Logs t records)
    (written : forall record, record ∈ records -> WrittenByTable record) :
    forall record, record ∈ flushedRecords t -> WrittenByTable record := by
  rcases logs.readAll_walFile with ⟨flushed, initial, file⟩
  intro record member
  rw [flushedRecords, file] at member
  rcases List.mem_map.mp member with ⟨original, originalMember, rfl⟩
  exact written original (initial.subset originalMember)

/-- The call writes a record. -/
def TableCall.mutates : TableCall -> Bool
  | .insert _ _ => true
  | .remove _ => true
  | .get _ _ _ => false
  | .flushWal => false

/-- The number of mutating operations in a history. -/
def mutations (calls : List TableCall) : Nat := calls.countP TableCall.mutates

namespace TableConfig

variable (config : TableConfig)

/-! ## Loading and replaying -/

/-- The table in which recovery starts to replay: what the snapshot gave when it
was accepted, and otherwise an empty one. -/
def loaded (P : Platform) (garbage : Uninitialised) (snapshot : Bytes) : HashTable P :=
  if (loadSnapshot garbage (config.fresh P none) snapshot).2 then
    (loadSnapshot garbage (config.fresh P none) snapshot).1
  else config.fresh P none

/-- `load_snapshot`, then `replay_wal` of the log file. -/
def afterCrash (P : Platform) (garbage : Uninitialised) (clock : Nat -> UInt64)
    (snapshot log : Bytes) : HashTable P :=
  (replayWal (config.loaded P garbage snapshot) log clock).1

theorem storedBytes_carried (t : HashTable P) :
    total (fun entry : Bytes × ValueEntry => entry.2.value.length)
      ((snapshotEntries t).map carriedEntry) ≤ storedBytes t.entries := by
  rw [total, snapshotEntries, List.map_map, List.map_map, storedBytes, total]
  apply List.sum_le_sum
  intro kv _
  change (shortString kv.value.value).length ≤ kv.value.value.length
  rw [length_shortString]
  exact Nat.mod_le _ _

/-- A complete snapshot gives a table with the view of its entries. -/
theorem loaded_createSnapshot (wf : t.WF) (within : storedBytes t.entries ≤ config.memoryLimit)
    (counted : t.numEntries < 2 ^ 64) (garbage : Uninitialised) (key : Bytes) :
    (config.loaded P garbage (createSnapshot t)).WF ∧
      (config.loaded P garbage (createSnapshot t)).view key = snapshotView t key := by
  have empty : (config.fresh P none).entries = [] := entries_new ..
  have room : storedBytes (config.fresh P none).entries +
      total (fun entry : Bytes × ValueEntry => entry.2.value.length)
        ((snapshotEntries t).map carriedEntry) ≤ (config.fresh P none).policy.memoryLimit := by
    rw [empty, memoryLimit_fresh, storedBytes, total_nil, Nat.zero_add]
    exact Nat.le_trans (storedBytes_carried t) within
  have inserted := view_insertAll (config.wf_fresh none) _ room key
  rw [loaded, loadSnapshot_createSnapshot wf counted, if_pos rfl]
  rw [view_fresh, Option.or_none] at inserted
  exact inserted

/-- Recovery from a snapshot and the log of a table. -/
theorem view_afterCrash {records : List WALRecord} (logs : Logs t records)
    (written : forall record, record ∈ records -> WrittenByTable record) {garbage : Uninitialised}
    {snapshot : Bytes} (wf : (config.loaded P garbage snapshot).WF) (clock : Nat -> UInt64)
    (key : Bytes) :
    (config.afterCrash P garbage clock snapshot (walFile t)).view key =
      if evictedIn clock 0 (config.loaded P garbage snapshot) (flushedRecords t) key then none
      else (lastEffect (flushedRecords t) key).getD ((config.loaded P garbage snapshot).view key) :=
  view_replayRecords wf clock 0 (written_flushedRecords logs written) key

end TableConfig

/-- A table with room for what the examples store. -/
def roomy : TableConfig := ⟨1, 100, .lru⟩

/-- Variables of the reader that happen to hold zeros. -/
def zeroed : Uninitialised := ⟨List.replicate 8 0, List.replicate 8 0, rfl, rfl⟩

/-! ## A crash while a snapshot is overwritten -/

/-- The call writes the key. -/
def TableCall.Changes (key : Bytes) : TableCall -> Prop
  | .insert written _ => written = key
  | .remove removed => removed = key
  | .get _ _ _ => False
  | .flushWal => False

namespace TableConfig

variable (config : TableConfig)

/-- The table after some calls, a snapshot, the truncation of the log and more
calls. -/
def afterTruncation (P : Platform) (first second : List TableCall) : HashTable P :=
  runCalls (config.history P first).truncateWal second

theorem wf_truncateWal (wf : t.WF) : t.truncateWal.WF := by
  unfold truncateWal
  split
  · exact ⟨wf.nonempty, wf.placed, wf.distinct, wf.count, wf.tracks⟩
  · exact wf

theorem logs_afterTruncation (first second : List TableCall) :
    Exists fun records => Logs (config.afterTruncation P first second) records ∧
      forall record, record ∈ records -> WrittenByTable record := by
  rcases config.logs_history (P := P) first with ⟨_, ⟨w, writer, _⟩, _⟩
  have emptied : Logs (config.history P first).truncateWal [] := by
    rw [truncateWal, writer, Option.isSome_some, if_pos rfl]
    exact logs_enableWal _ 100
  exact emptied.runCalls (wf_truncateWal (config.wf_history first)) second

/-- The table loaded from a snapshot that was interrupted. -/
theorem loaded_snapshotAfter (wf : t.WF) (within : storedBytes t.entries ≤ config.memoryLimit)
    (counted : t.numEntries < 2 ^ 64) (garbage : Uninitialised) (written : Nat) (key : Bytes) :
    (config.loaded P garbage (snapshotAfter t written)).WF ∧
      (config.loaded P garbage (snapshotAfter t written)).view key =
        if snapshotAfter t written = createSnapshot t then snapshotView t key else none := by
  by_cases complete : snapshotAfter t written = createSnapshot t
  · rw [if_pos complete, complete]
    exact config.loaded_createSnapshot wf within counted garbage key
  · have rejected := mt (loadSnapshot_snapshotAfter wf counted garbage (config.fresh P none)
      written).mp complete
    rw [if_neg complete, loaded, if_neg rejected]
    exact ⟨config.wf_fresh none, config.view_fresh none key⟩

/-- A snapshot is taken and the log truncated; later a second snapshot to the
same path is interrupted after some bytes.  Recovery still has every pair of the
first snapshot that was not changed since exactly when the replay evicts none of
these keys and each of them is either named by a flushed record, which then
leaves that pair, or stands with its value in the second snapshot, which must
then be complete. -/
theorem afterCrash_keeps_iff (garbage : Uninitialised) (clock : Nat -> UInt64)
    (first second : List TableCall) (written : Nat)
    (within : storedBytes (config.afterTruncation P first second).entries ≤ config.memoryLimit)
    (counted : (config.afterTruncation P first second).numEntries < 2 ^ 64) :
    (forall key value, (config.history P first).view key = some value ->
        (forall call, call ∈ second -> ¬ call.Changes key) ->
        (config.afterCrash P garbage clock
          (snapshotAfter (config.afterTruncation P first second) written)
          (walFile (config.afterTruncation P first second))).view key = some value) <->
      forall key value, (config.history P first).view key = some value ->
        (forall call, call ∈ second -> ¬ call.Changes key) ->
        evictedIn clock 0 (config.loaded P garbage
            (snapshotAfter (config.afterTruncation P first second) written))
              (flushedRecords (config.afterTruncation P first second)) key = false ∧
          (lastEffect (flushedRecords (config.afterTruncation P first second)) key =
            some (some value) ∨
            lastEffect (flushedRecords (config.afterTruncation P first second)) key = none ∧
              snapshotAfter (config.afterTruncation P first second) written =
                createSnapshot (config.afterTruncation P first second) ∧
              snapshotView (config.afterTruncation P first second) key = some value) := by
  have wf : (config.afterTruncation P first second).WF :=
    wf_runCalls (wf_truncateWal (config.wf_history first)) second
  rcases config.logs_afterTruncation (P := P) first second with ⟨records, logs, writtenByTable⟩
  refine forall_congr' fun key => forall_congr' fun value => imp_congr_right fun _ =>
    imp_congr_right fun _ => ?_
  have start := config.loaded_snapshotAfter wf within counted garbage written key
  rw [config.view_afterCrash logs writtenByTable start.1, start.2]
  cases evictedIn clock 0 _ (flushedRecords (config.afterTruncation P first second)) key with
  | true => simp
  | false =>
      cases lastEffect (flushedRecords (config.afterTruncation P first second)) key with
      | some effect => simp
      | none => simp [Option.ite_none_right_eq_some]

end TableConfig

/-- The crash comes after the last byte of the second snapshot. -/
theorem afterCrash_keeps_complete :
    storedBytes (roomy.afterTruncation Platform.source [.insert [97] (ValueEntry.new [120] 0)]
        [.insert [98] (ValueEntry.new [121] 0)]).entries ≤ roomy.memoryLimit ∧
    forall key value, (roomy.history Platform.source [.insert [97] (ValueEntry.new [120] 0)]).view
      key = some value ->
      (forall call, call ∈ [TableCall.insert [98] (ValueEntry.new [121] 0)] -> ¬ call.Changes key) ->
      (roomy.afterCrash Platform.source zeroed (fun _ => 0)
        (snapshotAfter (roomy.afterTruncation Platform.source [.insert [97] (ValueEntry.new [120] 0)]
          [.insert [98] (ValueEntry.new [121] 0)]) 110)
        (walFile (roomy.afterTruncation Platform.source [.insert [97] (ValueEntry.new [120] 0)]
          [.insert [98] (ValueEntry.new [121] 0)]))).view key = some value := by
  refine ⟨by decide, (roomy.afterCrash_keeps_iff zeroed (fun _ => 0) _ _ 110 (by decide)
    (by decide)).mpr ?_⟩
  have file : flushedRecords
      (roomy.afterTruncation Platform.source [.insert [97] (ValueEntry.new [120] 0)]
        [.insert [98] (ValueEntry.new [121] 0)]) = [] := walCodec.decodeAll_encodeAll []
  intro key value stored _
  rw [file]
  have view := view_insert (roomy.wf_history (P := Platform.source) []) [97]
    (ValueEntry.new [120] 0) key
  have only : [97] = key := by
    by_contra other
    have here := view.symm.trans stored
    have empty : (roomy.history Platform.source []).view key = none := roomy.view_fresh (some []) key
    rw [if_neg other, empty, ite_self] at here
    cases here
  rw [← only] at stored ⊢
  have first : (roomy.history Platform.source [.insert [97] (ValueEntry.new [120] 0)]).view [97] =
      some ([120], 0) := by decide
  rw [first] at stored
  rw [← stored]
  exact ⟨rfl, Or.inr ⟨rfl, snapshotAfter_all _ (by decide), by decide⟩⟩

/-- The crash comes when the file was opened and nothing was written. -/
theorem afterCrash_loses_snapshot :
    (roomy.history Platform.source [.insert [97] (ValueEntry.new [120] 0)]).view [97] =
      some ([120], 0) ∧
      storedBytes (roomy.afterTruncation Platform.source
        [.insert [97] (ValueEntry.new [120] 0)] []).entries ≤ roomy.memoryLimit ∧
      (roomy.afterCrash Platform.source zeroed (fun _ => 0)
        (snapshotAfter (roomy.afterTruncation Platform.source
          [.insert [97] (ValueEntry.new [120] 0)] []) 0)
        (walFile (roomy.afterTruncation Platform.source [.insert [97] (ValueEntry.new [120] 0)]
          []))).view [97] =
          none := by
  refine ⟨by decide, by decide, ?_⟩
  have file : readAll (walFile
      (roomy.afterTruncation Platform.source [.insert [97] (ValueEntry.new [120] 0)] [])) = [] :=
    walCodec.decodeAll_encodeAll []
  rw [TableConfig.afterCrash, replayWal, file]
  decide

end Engine
end KVStore
