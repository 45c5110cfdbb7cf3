import KVStore.Engine.Recovery

namespace KVStore
namespace Engine

open Framing Keyed HashTable

variable {P : Platform}

/-!
# The records that wait for a flush

A writer flushes as soon as a batch is full, so that fewer records than a batch
wait in its buffer between two calls.  `truncate_wal` makes a new writer without
a batch size of its own: from then on the batch is the default one of a hundred
records, whatever `enable_wal` was called with.
-/

namespace WALWriter

@[simp] theorem batchSize_appendAll (w : WALWriter) (records : List WALRecord) :
    (w.appendAll records).batchSize = w.batchSize := by
  rcases w.writes_appendAll records with ⟨_, writes⟩
  exact writes.batchSize

/-- An append leaves less than a batch, whatever was in the buffer. -/
theorem length_buffer_append (w : WALWriter) (record : WALRecord) :
    (w.append record).buffer.length < max 1 w.batchSize := by
  rcases w.append_cases record with ⟨_, full⟩ | ⟨room, waits⟩
  · rw [full]
    exact lt_max_of_lt_left Nat.one_pos
  · rw [waits, List.length_append]
    exact lt_max_of_lt_right room

theorem length_buffer_appendAll {w : WALWriter} (few : w.buffer.length < max 1 w.batchSize)
    (records : List WALRecord) :
    (w.appendAll records).buffer.length < max 1 w.batchSize := by
  induction records generalizing w with
  | nil => exact few
  | cons record records ih =>
      have sameBatch : (w.append record).batchSize = w.batchSize := batchSize_appendAll w [record]
      rw [← sameBatch]
      refine ih ?_
      rw [sameBatch]
      exact w.length_buffer_append record

/-- Less than a batch waits, and the batch has the given size. -/
def Within (batch : Nat) (w : WALWriter) : Prop := w.batchSize = batch ∧ w.buffer.length < batch

theorem Within.appendAll {batch : Nat} {w : WALWriter} (within : w.Within batch)
    (records : List WALRecord) :
    (w.appendAll records).Within batch := by
  rcases within with ⟨rfl, few⟩
  have still := length_buffer_appendAll (lt_max_of_lt_right few) records
  exact ⟨batchSize_appendAll w records, by omega⟩

theorem Within.flush {batch : Nat} {w : WALWriter} (within : w.Within batch) :
    w.flush.Within batch :=
  ⟨within.1, Nat.lt_of_le_of_lt (Nat.zero_le _) within.2⟩

theorem within_new (file : Bytes) {batch : Nat} (positive : 1 ≤ batch) :
    (new file batch).Within batch :=
  ⟨rfl, positive⟩

end WALWriter

/-! ## Calls between which records may wait -/

/-- The calls that log, flush or recreate the log, and the snapshots between them. -/
inductive LogCall where
  | insert (key : Bytes) (value : ValueEntry)
  | remove (key : Bytes)
  | flushWal
  | createSnapshot
  | truncateWal
  deriving DecidableEq

/-- A call on a table, with the file of the last snapshot. -/
def LogCall.apply (d : Durable P) : LogCall -> Durable P
  | .insert key value => { d with table := d.table.insert key value }
  | .remove key => { d with table := (d.table.remove key).1 }
  | .flushWal => { d with table := d.table.flushWal }
  | .createSnapshot => { d with snapshot := some (Engine.createSnapshot d.table) }
  | .truncateWal => { d with table := d.table.truncateWal }

def runLogCalls (d : Durable P) (calls : List LogCall) : Durable P := calls.foldl LogCall.apply d

/-- A table right after `enable_wal`. -/
def enabled (t : HashTable P) (file : Bytes) (batch : Nat) : Durable P :=
  ⟨t.enableWal file batch, none⟩

/-- The number of records in the buffer of the log. -/
def waiting (t : HashTable P) : Nat :=
  match t.walWriter with
  | none => 0
  | some w => w.buffer.length

/-- The batch size that the log works with after some calls. -/
def batchAfter (batch : Nat) (calls : List LogCall) : Nat :=
  if .truncateWal ∈ calls then 100 else batch

/-- A well-formed table that logs, with less than a batch in the buffer. -/
structure Buffered (batch : Nat) (t : HashTable P) : Prop where
  wf : t.WF
  writer : Exists fun w => t.walWriter = some w ∧ w.Within batch

variable {t : HashTable P} {batch : Nat}

theorem Buffered.waiting_lt (buffered : Buffered batch t) : waiting t < batch := by
  rcases buffered.writer with ⟨w, writer, within⟩
  rw [waiting, writer]
  exact within.2

/-- Some more records are appended. -/
theorem Buffered.appendAll {t after : HashTable P} (buffered : Buffered batch t) (wf : after.WF)
    {records : List WALRecord}
    (logged : after.walWriter = t.walWriter.map fun w => w.appendAll records) :
    Buffered batch after := by
  rcases buffered.writer with ⟨w, writer, within⟩
  refine ⟨wf, w.appendAll records, ?_, within.appendAll records⟩
  rw [logged, writer, Option.map_some]

theorem wf_enableWal (wf : t.WF) (file : Bytes) (batch : Nat) : (t.enableWal file batch).WF :=
  ⟨wf.nonempty, wf.placed, wf.distinct, wf.count, wf.tracks⟩

theorem buffered_enableWal (wf : t.WF) (file : Bytes) (positive : 1 ≤ batch) :
    Buffered batch (t.enableWal file batch) :=
  ⟨wf_enableWal wf file batch, _, rfl, WALWriter.within_new file positive⟩

/-- A call keeps the batch, unless it is a truncation, which makes it a hundred. -/
theorem Buffered.apply {d : Durable P} (buffered : Buffered batch d.table) (call : LogCall) :
    Buffered (batchAfter batch [call]) (call.apply d).table := by
  cases call with
  | insert key value =>
      rcases buffered.wf.insert key value with ⟨wf, _, _, victims, _, logged⟩
      exact buffered.appendAll wf logged
  | remove key =>
      have logged : (d.table.remove key).1.walWriter = d.table.walWriter.map fun w =>
          w.appendAll [deleteRecord key] :=
        buffered.wf.walWriter_remove key
      exact buffered.appendAll (buffered.wf.remove key) logged
  | flushWal =>
      rcases buffered.writer with ⟨w, writer, within⟩
      refine ⟨wf_apply buffered.wf .flushWal, w.flush, ?_, within.flush⟩
      simp [LogCall.apply, HashTable.flushWal, writer]
  | createSnapshot => exact buffered
  | truncateWal =>
      rcases buffered.writer with ⟨w, writer, _⟩
      have anew : d.table.truncateWal = d.table.enableWal [] 100 :=
        by simp [HashTable.truncateWal, writer]
      change Buffered 100 d.table.truncateWal
      rw [anew]
      exact buffered_enableWal buffered.wf [] (by decide)

theorem batchAfter_cons (batch : Nat) (call : LogCall) (calls : List LogCall) :
    batchAfter batch (call :: calls) = batchAfter (batchAfter batch [call]) calls := by
  simp only [batchAfter, List.mem_cons, List.not_mem_nil, or_false]
  split <;> split <;> simp_all

theorem Buffered.run {d : Durable P} (buffered : Buffered batch d.table) (calls : List LogCall) :
    Buffered (batchAfter batch calls) (runLogCalls d calls).table := by
  induction calls generalizing batch d with
  | nil => exact buffered
  | cons call calls ih =>
      rw [batchAfter_cons]
      exact ih (buffered.apply call)

/-! ## After a truncation -/

/-- Removals fill the buffer of a new log up to its batch. -/
theorem buffer_removes (wf : t.WF) (batch : Nat) {count : Nat} (few : count < batch) :
    (runLogCalls (enabled t [] batch) (List.replicate count (.remove []))).table.walWriter =
      some { WALWriter.new [] batch with buffer := List.replicate count (deleteRecord []) } := by
  induction count with
  | zero => rfl
  | succ count ih =>
      have before := (buffered_enableWal wf [] (Nat.one_le_of_lt few)).run (d := enabled t [] batch)
        (List.replicate count (.remove []))
      have last := before.wf.walWriter_remove []
      rw [List.replicate_succ', runLogCalls, List.foldl_append]
      refine last.trans ?_
      rw [ih (Nat.lt_of_succ_lt few), Option.map_some, List.replicate_succ']
      refine congrArg some ?_
      rcases WALWriter.append_cases { WALWriter.new [] batch with
        buffer := List.replicate count (deleteRecord []) } (deleteRecord []) with
          ⟨full, _⟩ | ⟨_, waits⟩
      · rw [List.length_replicate] at full
        exact absurd full (Nat.not_le.mpr few)
      · exact waits

/-- A log that was truncated lets as many records wait as a batch of any smaller size has. -/
theorem waiting_after_truncation (wf : t.WF) (file : Bytes) (batch : Nat) {count : Nat}
    (few : count < 100) :
    waiting (runLogCalls (enabled t file batch)
        (.truncateWal :: List.replicate count (.remove []))).table = count := by
  have filled := buffer_removes wf 100 few
  have truncated : runLogCalls (enabled t file batch)
      (.truncateWal :: List.replicate count (.remove [])) =
      runLogCalls (enabled t [] 100) (List.replicate count (.remove [])) := rfl
  rw [truncated, waiting, filled]
  exact List.length_replicate

/-- Between calls, fewer records wait than a batch of the present writer has: the size that
`enable_wal` was given, until the first truncation, and a hundred from then on.  Fewer than
the configured size wait in every history exactly when that size is a hundred or more. -/
theorem waiting_lt_batch_iff {t : HashTable P} (wf : t.WF) (file : Bytes) {batch : Nat}
    (positive : 1 ≤ batch) :
    (forall calls, waiting (runLogCalls (enabled t file batch) calls).table <
      batchAfter batch calls) ∧
      ((forall calls, waiting (runLogCalls (enabled t file batch) calls).table < batch)
          <-> 100 ≤ batch) := by
  have window : forall calls, waiting (runLogCalls (enabled t file batch) calls).table <
      batchAfter batch calls :=
    fun calls => ((buffered_enableWal wf file positive).run (d := enabled t file batch)
      calls).waiting_lt
  refine ⟨window, fun always => ?_, fun large calls => ?_⟩
  · by_contra small
    have filled := always (.truncateWal :: List.replicate batch (.remove []))
    rw [waiting_after_truncation wf file batch (Nat.lt_of_not_le small)] at filled
    exact Nat.lt_irrefl batch filled
  · refine Nat.lt_of_lt_of_le (window calls) ?_
    rw [batchAfter]
    split
    · exact large
    · exact Nat.le_refl batch

/-- A batch of ten before a truncation. -/
theorem waiting_lt_batch_ten :
    waiting (runLogCalls (enabled (roomy.fresh Platform.source none) [] 10)
      [.insert [97] (ValueEntry.new [49] 0), .createSnapshot, .remove [97]]).table < 10 :=
  (waiting_lt_batch_iff (roomy.wf_fresh none) [] (by decide)).1 _

/-- Every record is to be flushed at once, and after a truncation one waits. -/
theorem waiting_after_truncation_one :
    waiting (runLogCalls (enabled (roomy.fresh Platform.source none) [] 1)
        [.truncateWal, .remove [97]]).table = 1 := by
  decide

end Engine
end KVStore
