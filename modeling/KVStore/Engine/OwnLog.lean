import KVStore.Engine.Durability
import KVStore.Library.Loops

namespace KVStore
namespace Engine

open Framing Keyed HashTable Loops

variable {P : Platform}

/-!
# Replaying the log of the table itself

`replay_wal` on the file that the table logs to:  every record that it applies is
logged again, and as soon as a batch is full, the new records stand behind the old
ones in the file that is being read.  The reader gets the file as it is at the time
of the read, since the file only grows.

The replay takes one pass exactly when what is flushed in this pass does not
complete a record behind those of the file.  Where the file ends with a whole record,
a batch that is flushed is there to be read, each of its records brings at least one
more, and the replay does not end.
-/

/-! ## The loop -/

/-- The state of the loop:  the table with the file of its log, the bytes of the file
that the reader has taken, and the number of records that were applied. -/
structure OwnReplay (P : Platform) where
  table : HashTable P
  position : Nat
  replayed : Nat

namespace OwnReplay

/-- A turn of the loop of `replay_wal`. -/
def turn (clock : Nat -> UInt64) (s : OwnReplay P) : Turn (OwnReplay P) (OwnReplay P) :=
  match readNext ((walFile s.table).drop s.position) with
  | none => .leave s
  | some (record, rest) =>
      .next
        { table := applyRecord s.table (clock (2 * s.replayed)) (clock (2 * s.replayed + 1)) record
          position := (walFile s.table).length - rest.length
          replayed := s.replayed + 1 }

def start (t : HashTable P) : OwnReplay P := ⟨t, 0, 0⟩

/-- The number of records only grows. -/
theorem replayed_le {clock : Nat -> UInt64} {s final : OwnReplay P}
    (ends : Ends (turn clock) s final) :
    s.replayed ≤ final.replayed := by
  induction ends with
  | leave left =>
      rw [turn] at left
      split at left
      · cases left
        exact Nat.le_refl _
      · cases left
  | next turned _ ih =>
      rw [turn] at turned
      split at turned
      · cases turned
      · cases turned
        exact Nat.le_of_succ_le ih

end OwnReplay

/-! ## The calls of a replay -/

/-- The calls on the table by which a record is applied. -/
def recordCalls (t : HashTable P) (now accessNow : UInt64) (record : WALRecord) : List TableCall :=
  match record.opType with
  | .set => [.insert record.key (ValueEntry.new record.value record.ttlNs.toUInt64)]
  | .delete => [.remove record.key]
  | .expire =>
      .get record.key now accessNow ::
        match (t.get record.key now accessNow).2 with
        | none => []
        | some existing => [.insert record.key { existing with expiryNs := record.ttlNs.toUInt64 }]
  | .unnamed _ _ => []

theorem runCalls_recordCalls (t : HashTable P) (now accessNow : UInt64) (record : WALRecord) :
    runCalls t (recordCalls t now accessNow record) = applyRecord t now accessNow record := by
  rcases record with ⟨op, key, value, ttl⟩
  cases op with
  | set => rfl
  | delete => rfl
  | expire =>
      rcases found : t.get key now accessNow with ⟨after, _ | existing⟩ <;>
        simp only [recordCalls, applyRecord, found, runCalls, List.foldl_cons, List.foldl_nil,
          TableCall.apply]
  | unnamed code isUnnamed => rfl

/-- The calls by which the records are applied, one after the other. -/
def replayCalls (clock : Nat -> UInt64) : Nat -> HashTable P -> List WALRecord -> List TableCall
  | _, _, [] => []
  | replayed, t, record :: records =>
      recordCalls t (clock (2 * replayed)) (clock (2 * replayed + 1)) record ++
        replayCalls clock (replayed + 1)
          (applyRecord t (clock (2 * replayed)) (clock (2 * replayed + 1)) record) records

theorem runCalls_replayCalls (clock : Nat -> UInt64) (replayed : Nat) (t : HashTable P)
    (records : List WALRecord) :
    runCalls t (replayCalls clock replayed t records) = replayRecords clock replayed t records := by
  induction records generalizing t replayed with
  | nil => rfl
  | cons record records ih =>
      rw [replayCalls, runCalls_append, runCalls_recordCalls, ih]
      rfl

/-- The replay does not flush. -/
theorem not_mem_recordCalls (t : HashTable P) (now accessNow : UInt64) (record : WALRecord) :
    TableCall.flushWal ∉ recordCalls t now accessNow record := by
  unfold recordCalls
  split
  · simp
  · simp
  · split <;> simp
  · simp

theorem not_mem_replayCalls (clock : Nat -> UInt64) (replayed : Nat) (t : HashTable P)
    (records : List WALRecord) :
    TableCall.flushWal ∉ replayCalls clock replayed t records := by
  induction records generalizing t replayed with
  | nil => exact List.not_mem_nil
  | cons record records ih =>
      rw [replayCalls, List.mem_append, not_or]
      exact ⟨not_mem_recordCalls t _ _ record, ih _ _⟩

variable {clock : Nat -> UInt64}

/-- A key that a record sets is written by the replay. -/
theorem changes_of_set {replayed : Nat} {t : HashTable P} {records : List WALRecord}
    {record : WALRecord} (member : record ∈ records) (set : record.opType = .set) :
    Exists fun call => call ∈ replayCalls clock replayed t records ∧ call.Changes record.key := by
  induction records generalizing t replayed with
  | nil => cases member
  | cons first records ih =>
      rcases List.mem_cons.mp member with rfl | later
      · refine ⟨.insert record.key (ValueEntry.new record.value record.ttlNs.toUInt64),
          List.mem_append_left _ ?_, rfl⟩
        simp only [recordCalls, set, List.mem_singleton]
      · rcases ih later with ⟨call, inside, changes⟩
        exact ⟨call, List.mem_append_right _ inside, changes⟩

/-! ## What the calls append -/

/-- What calls append to the log, one after the other. -/
inductive AppendsAll : HashTable P -> List TableCall -> List WALRecord -> Prop where
  | nil (t : HashTable P) : AppendsAll t [] []
  | cons {t : HashTable P} {call : TableCall} {calls : List TableCall} {more later : List WALRecord}
      (first : Appends t call more) (rest : AppendsAll (call.apply t) calls later) :
      AppendsAll t (call :: calls) (more ++ later)

variable {calls : List TableCall}

theorem exists_appendsAll {t : HashTable P} (wf : t.WF) (unflushed : TableCall.flushWal ∉ calls) :
    Exists fun more => AppendsAll t calls more ∧
      (runCalls t calls).walWriter = t.walWriter.map fun w => w.appendAll more := by
  induction calls generalizing t with
  | nil => exact ⟨[], .nil t, Option.map_id'.symm⟩
  | cons call calls ih =>
      rw [List.mem_cons, not_or] at unflushed
      have step : Exists fun more => Appends t call more ∧
          (call.apply t).walWriter = t.walWriter.map fun w => w.appendAll more := by
        cases call with
        | insert key value =>
            rcases (wf.insert key value).2.2.2 with ⟨victims, evictions, logged⟩
            exact ⟨_, .insert key value victims evictions, logged⟩
        | get key now accessNow =>
            exact ⟨[], .get key now accessNow, (wf.get key now accessNow).2.2.2.2.trans
              Option.map_id'.symm⟩
        | remove key => exact ⟨_, .remove key, wf.walWriter_remove key⟩
        | flushWal => exact absurd rfl unflushed.1
      rcases step with ⟨more, first, logged⟩
      rcases ih (wf_apply wf call) unflushed.2 with ⟨later, rest, laterLogged⟩
      refine ⟨more ++ later, .cons first rest, laterLogged.trans ?_⟩
      rw [logged, Option.map_map]
      congr 1
      funext w
      exact List.foldl_append.symm

theorem AppendsAll.written {t : HashTable P} {more : List WALRecord}
    (appends : AppendsAll t calls more) :
    forall record, record ∈ more -> WrittenByTable record := by
  induction appends with
  | nil => exact List.forall_mem_nil _
  | cons first _ ih => exact List.forall_mem_append.mpr ⟨first.written, ih⟩

theorem lastEffect_append (first second : List WALRecord) (key : Bytes) :
    lastEffect (first ++ second) key = (lastEffect second key).or (lastEffect first key) := by
  induction first with
  | nil => simp [lastEffect]
  | cons record first ih => simp [lastEffect, ih, Option.or_assoc]

theorem lastEffect_eq_none_iff {records : List WALRecord} {key : Bytes} :
    lastEffect records key = none <-> forall record, record ∈ records -> record.key ≠ key := by
  induction records with
  | nil => simp [lastEffect]
  | cons record records ih => simp [lastEffect, ih, and_comm]

/-- A record of a table is applied by a call that appends to the log. -/
theorem AppendsAll.length_pos {t : HashTable P} {now accessNow : UInt64} {record : WALRecord}
    {more : List WALRecord} (appends : AppendsAll t (recordCalls t now accessNow record) more)
    (written : WrittenByTable record) : 0 < more.length := by
  rcases written with set | delete
  · rw [recordCalls, set] at appends
    rcases appends with _ | ⟨first, _⟩
    cases first
    exact Nat.succ_pos _
  · rw [recordCalls, delete] at appends
    rcases appends with _ | ⟨first, _⟩
    cases first
    exact Nat.succ_pos _

/-- A key of which nothing is logged keeps its value, and no call writes it. -/
theorem AppendsAll.untouched {t : HashTable P} (wf : t.WF) {more : List WALRecord}
    (appends : AppendsAll t calls more) {key : Bytes} (unnamed : lastEffect more key = none) :
    (runCalls t calls).view key = t.view key ∧ forall call, call ∈ calls -> ¬ call.Changes key := by
  induction appends with
  | nil => exact ⟨rfl, List.forall_mem_nil _⟩
  | cons first rest ih =>
      rename_i t call calls more later
      rw [lastEffect_append, Option.or_eq_none_iff] at unnamed
      rcases ih (wf_apply wf call) unnamed.1 with ⟨same, silent⟩
      have here : (call.apply t).view key = t.view key ∧ ¬ call.Changes key := by
        have others := lastEffect_eq_none_iff.mp unnamed.2
        cases first with
        | insert written value victims evictions =>
            have different : written ≠ key := others _ List.mem_cons_self
            have stays : ¬ t.Evicts key := fun evicted => others (deleteRecord key)
              (List.mem_cons_of_mem _ (List.mem_map_of_mem ((evictions key).mpr evicted))) rfl
            refine ⟨(view_insert wf written value key).trans ?_, different⟩
            rw [if_neg different, if_neg stays]
        | get read now accessNow =>
            exact ⟨(wf.get read now accessNow).2.1 key, fun changes => changes⟩
        | remove removed =>
            have different : removed ≠ key := others _ List.mem_cons_self
            exact ⟨(view_remove wf removed key).trans (if_neg different), different⟩
        | flushWal => exact ⟨rfl, fun changes => changes⟩
      exact ⟨same.trans here.1, List.forall_mem_cons.mpr ⟨here.2, silent⟩⟩

/-- Within the limit, each call appends its own record and no other. -/
theorem AppendsAll.eq_recordsOf {t : HashTable P} (wf : t.WF) {more : List WALRecord}
    (appends : AppendsAll t calls more) (calm : CalmRun t calls) : more = recordsOf calls := by
  induction appends with
  | nil => rfl
  | cons first rest ih =>
      rename_i t call calls more later
      have here : more = recordsOf [call] := by
        cases first with
        | insert key value victims evictions =>
            have none : victims = [] := List.eq_nil_iff_forall_not_mem.mpr fun victim member =>
              wf.not_evicts calm.head victim ((evictions victim).mp member)
            rw [none]
            rfl
        | get key now accessNow => rfl
        | remove key => rfl
        | flushWal => rfl
      rw [here, ih (wf_apply wf call) (calm.tail wf), ← recordsOf_append]
      rfl

/-! ## The file grows -/

/-- The buffer is flushed each time that it holds a batch. -/
theorem WALWriter.length_buffer_appendAll_eq {w : WALWriter}
    (few : w.buffer.length < max 1 w.batchSize) (records : List WALRecord) :
    (w.appendAll records).buffer.length = (w.buffer.length + records.length) % max 1 w.batchSize := by
  induction records generalizing w with
  | nil => exact (Nat.mod_eq_of_lt few).symm
  | cons record records ih =>
      have sameBatch : (w.append record).batchSize = w.batchSize := batchSize_appendAll w [record]
      have first : (w.append record).buffer.length = (w.buffer.length + 1) % max 1 w.batchSize := by
        rcases w.append_cases record with ⟨full, flushes⟩ | ⟨room, waits⟩
        · have batch : w.buffer.length + 1 = max 1 w.batchSize := by omega
          rw [flushes, batch, Nat.mod_self]
          rfl
        · rw [waits, List.length_append, List.length_singleton, Nat.mod_eq_of_lt (by omega)]
      have later := ih (sameBatch.symm ▸ w.length_buffer_append record)
      change ((w.append record).appendAll records).buffer.length = _
      rw [later, sameBatch, first, Nat.mod_add_mod, List.length_cons]
      congr 1
      omega

/-- Records of calls stay such when batches of them are flushed. -/
theorem written_of_logged {waiting again flushed left : List WALRecord}
    (logged : waiting ++ again = flushed ++ left)
    (old : forall record, record ∈ waiting -> WrittenByTable record)
    (new : forall record, record ∈ again -> WrittenByTable record) :
    (forall record, record ∈ flushed -> WrittenByTable record) ∧
      forall record, record ∈ left -> WrittenByTable record :=
  List.forall_mem_append.mp (logged ▸ List.forall_mem_append.mpr ⟨old, new⟩)

/-- The table logs to a file with so many bytes, and has records of calls in its buffer,
less than a batch. -/
structure LogsTo (t : HashTable P) (batch : Nat) (file : Bytes)
    (waiting : List WALRecord) : Prop where
  wf : t.WF
  writer : Exists fun w => t.walWriter = some w ∧ w.batchSize = batch ∧ w.file = file ∧
    w.buffer = waiting
  few : waiting.length < max 1 batch
  written : forall record, record ∈ waiting -> WrittenByTable record

section LogsTo

variable {t : HashTable P} {batch : Nat} {file : Bytes} {waiting : List WALRecord}
    (own : LogsTo t batch file waiting)

include own

theorem LogsTo.walFile_eq : walFile t = file := by
  rcases own.writer with ⟨w, writer, _, file, _⟩
  rw [walFile, writer]
  exact file

theorem LogsTo.walFile_flushWal : walFile t.flushWal = file ++ walCodec.encodeAll waiting := by
  rcases own.writer with ⟨w, writer, _, rfl, rfl⟩
  rw [walFile, flushWal, writer]
  rfl

/-- Calls append to the log, and whole batches of it go to the file. -/
theorem LogsTo.runCalls (unflushed : TableCall.flushWal ∉ calls) :
    Exists fun again => Exists fun flushed => Exists fun left => AppendsAll t calls again ∧
      LogsTo (Engine.runCalls t calls) batch (file ++ walCodec.encodeAll flushed) left ∧
      waiting ++ again = flushed ++ left ∧
          left.length = (waiting.length + again.length) % max 1 batch := by
  rcases own.writer with ⟨w, writer, rfl, rfl, rfl⟩
  rcases exists_appendsAll own.wf unflushed with ⟨again, appends, logged⟩
  rw [writer, Option.map_some] at logged
  rcases w.writes_appendAll again with ⟨flushed, writes⟩
  refine ⟨again, flushed, _, appends,
    ⟨wf_runCalls own.wf calls, ⟨_, logged, writes.batchSize, writes.file, rfl⟩,
      WALWriter.length_buffer_appendAll own.few again,
      (written_of_logged writes.records own.written appends.written).2⟩,
    writes.records, WALWriter.length_buffer_appendAll_eq own.few again⟩

end LogsTo

theorem walFile_applyRecord {t : HashTable P} (wf : t.WF) (now accessNow : UInt64)
    (record : WALRecord) :
    Exists fun bytes => walFile (applyRecord t now accessNow record) = walFile t ++ bytes := by
  rcases exists_appendsAll wf (not_mem_recordCalls t now accessNow record) with ⟨more, _, logged⟩
  rw [runCalls_recordCalls] at logged
  rw [walFile, walFile, logged]
  cases t.walWriter with
  | none => exact ⟨[], rfl⟩
  | some w =>
      rcases w.writes_appendAll more with ⟨flushed, writes⟩
      exact ⟨_, writes.file⟩

/-! ## One pass -/

namespace OwnReplay

/-- A record at the position of the reader is applied. -/
theorem turn_of_file {t : HashTable P} {front tail : Bytes} {record : WALRecord} (replayed : Nat)
    (file : walFile t = front ++ writeRecord record ++ tail) :
    turn clock ⟨t, front.length, replayed⟩ =
      .next ⟨applyRecord t (clock (2 * replayed)) (clock (2 * replayed + 1)) record.carried,
        (front ++ writeRecord record).length, replayed + 1⟩ := by
  have rest : (walFile t).drop front.length = writeRecord record ++ tail := by
    rw [file, List.append_assoc, List.drop_left]
  simp only [turn, rest, readNext_writeRecord]
  rw [file, List.length_append, Nat.add_sub_cancel]

/-- The records from the position on are applied in their order, while the file grows
behind them. -/
theorem ends_iff_of_file {t : HashTable P} (wf : t.WF) {front tail : Bytes}
    {records : List WALRecord} (fits : forall record, record ∈ records -> walCodec.Fits record)
    (replayed : Nat) (file : walFile t = front ++ walCodec.encodeAll records ++ tail)
    (final : OwnReplay P) :
    Ends (turn clock) ⟨t, front.length, replayed⟩ final <->
      Ends (turn clock) ⟨replayRecords clock replayed t records,
        (front ++ walCodec.encodeAll records).length, replayed + records.length⟩ final := by
  induction records generalizing t front tail replayed with
  | nil => rw [Codec.encodeAll_nil, List.append_nil]; rfl
  | cons record records ih =>
      have fit : record.carried = record := fits record List.mem_cons_self
      rw [Codec.encodeAll_cons, ← List.append_assoc, List.append_assoc _ _ tail] at file
      rcases walFile_applyRecord wf (clock (2 * replayed)) (clock (2 * replayed + 1)) record with
        ⟨bytes, grown⟩
      have laterFile : walFile
          (applyRecord t (clock (2 * replayed)) (clock (2 * replayed + 1)) record) =
          front ++ writeRecord record ++ walCodec.encodeAll records ++ (tail ++ bytes) := by
        rw [grown, file]
        simp only [List.append_assoc]
        rfl
      have later := ih (wf_applyRecord wf _ _ record)
        (fun other member => fits other (List.mem_cons_of_mem _ member)) (replayed + 1) laterFile
      rw [ends_iff_of_next (turn_of_file replayed file), fit, later, replayRecords,
        Codec.encodeAll_cons, List.append_assoc, List.length_cons, Nat.add_right_comm]
      rfl

/-- The replay takes one pass over the records of the file exactly when what is flushed in
this pass completes no record behind them. -/
theorem ends_after_pass_iff (clock : Nat -> UInt64) {t : HashTable P} (wf : t.WF)
    {records : List WALRecord} (fits : forall record, record ∈ records -> walCodec.Fits record)
    {tail bytes : Bytes} (file : walFile t = walCodec.encodeAll records ++ tail)
    (grown : walFile (replayRecords clock 0 t records) = walFile t ++ bytes) :
    (Exists fun position => Ends (turn clock) (start t)
        ⟨replayRecords clock 0 t records, position, records.length⟩) <->
            readNext (tail ++ bytes) = none := by
  have pass := @ends_iff_of_file P clock t wf [] tail records fits 0 file
  rw [List.nil_append, Nat.zero_add] at pass
  -- Behind the pass, the reader sees the tail of the old file and what was flushed.
  have behind : (walFile (replayRecords clock 0 t records)).drop (walCodec.encodeAll records).length
      = tail ++ bytes := by
    rw [grown, file, List.append_assoc, List.drop_left]
  constructor
  · rintro ⟨position, ends⟩
    cases (pass _).mp ends with
    | leave left =>
        rw [turn, behind] at left
        split at left
        · rename_i failed
          exact failed
        · cases left
    | next turned later =>
        have more := replayed_le later
        rw [turn, behind] at turned
        split at turned
        · cases turned
        · cases turned
          exact absurd more (Nat.not_succ_le_self _)
  · intro failed
    refine ⟨(walCodec.encodeAll records).length, (pass _).mpr (.leave ?_)⟩
    simp only [turn, behind, failed]

/-! ## A batch that is never read up -/

/-- The reader stands behind some whole records, and the rest of the file and the buffer
hold a batch of records of the table. -/
structure Behind (batch : Nat) (s : OwnReplay P) (read unread waiting : List WALRecord) : Prop where
  own : LogsTo s.table batch (walCodec.encodeAll (read ++ unread)) waiting
  position : s.position = (walCodec.encodeAll read).length
  written : forall record, record ∈ unread -> WrittenByTable record
  full : max 1 batch ≤ unread.length + waiting.length

/-- The next record is in the file, and its application brings another one. -/
theorem Behind.turn {batch : Nat} {s : OwnReplay P} {read unread waiting : List WALRecord}
    (behind : Behind batch s read unread waiting) (clock : Nat -> UInt64) :
    Exists fun next => turn clock s = .next next ∧
      Exists fun read => Exists fun unread => Exists fun left =>
          Behind batch next read unread left := by
  rcases s with ⟨t, position, replayed⟩
  rcases behind with ⟨own, rfl, written, full⟩
  cases unread with
  | nil =>
      have few := own.few
      rw [List.length_nil] at full
      omega
  | cons record unread =>
      have file : walFile t = walCodec.encodeAll read ++ writeRecord record ++
          walCodec.encodeAll unread := by
        rw [own.walFile_eq, Codec.encodeAll_append, Codec.encodeAll_cons, List.append_assoc]
        rfl
      rcases List.forall_mem_cons.mp written with ⟨writtenRecord, writtenLater⟩
      rcases own.runCalls (not_mem_recordCalls t (clock (2 * replayed)) (clock (2 * replayed + 1))
          record.carried) with
        ⟨again, flushed, left, appends, next, records, _⟩
      rw [runCalls_recordCalls] at next
      have one : 0 < again.length := appends.length_pos writtenRecord
      have lengths := congrArg List.length records
      rw [List.length_append, List.length_append] at lengths
      rw [List.length_cons] at full
      refine ⟨_, turn_of_file replayed file, read ++ [record], unread ++ flushed, left,
        ?_, ?_, ?_, ?_⟩
      · rw [← List.append_assoc, List.append_assoc read, List.singleton_append,
          Codec.encodeAll_append]
        exact next
      · rw [Codec.encodeAll_append, Codec.encodeAll_cons, Codec.encodeAll_nil, List.append_nil]
        rfl
      · exact List.forall_mem_append.mpr
          ⟨writtenLater, (written_of_logged records own.written appends.written).1⟩
      · rw [List.length_append]
        omega

theorem Behind.not_ends {batch : Nat} {s : OwnReplay P} {read unread waiting : List WALRecord}
    (behind : Behind batch s read unread waiting) (clock : Nat -> UInt64) (final : OwnReplay P) :
    ¬ Ends (OwnReplay.turn clock) s final := by
  have goesOn : forall s : OwnReplay P,
      (Exists fun read => Exists fun unread => Exists fun waiting =>
        Behind batch s read unread waiting) ->
        Exists fun next => OwnReplay.turn clock s = .next next ∧
          Exists fun read => Exists fun unread => Exists fun waiting =>
              Behind batch next read unread waiting := by
    rintro s ⟨read, unread, waiting, behind⟩
    exact behind.turn clock
  exact Loops.not_ends goesOn ⟨read, unread, waiting, behind⟩ final

end OwnReplay

/-! ## The map of the log -/

/-- A key that is neither stored nor set by a record stays absent. -/
theorem absent_replayRecords {t : HashTable P} (wf : t.WF) {key : Bytes}
    (absent : t.view key = none) (clock : Nat -> UInt64) (replayed : Nat) {records : List WALRecord}
    (unset : forall record, record ∈ records -> record.opType = .set -> record.key ≠ key) :
    (replayRecords clock replayed t records).view key = none := by
  induction records generalizing t replayed with
  | nil => exact absent
  | cons record records ih =>
      refine ih (wf_applyRecord wf _ _ record) ?_ _
        fun other member => unset other (List.mem_cons_of_mem _ member)
      have other := unset record List.mem_cons_self
      unfold applyRecord
      split
      · rename_i set
        rw [view_insert wf, if_neg (other set), absent, ite_self]
      · rw [view_remove wf, absent, ite_self]
      · have read := wf.get record.key (clock (2 * replayed)) (clock (2 * replayed + 1))
        rcases got : t.get record.key (clock (2 * replayed)) (clock (2 * replayed + 1)) with
          ⟨after, _ | existing⟩ <;> rw [got] at read
        · exact (read.2.1 key).trans absent
        · have live : (t.get record.key (clock (2 * replayed)) (clock (2 * replayed + 1))).2.map
              (fun value => (value.value, value.expiryNs)) =
                  some (existing.value, existing.expiryNs) := by
            rw [got]
            rfl
          have different : record.key ≠ key := by
            rintro rfl
            exact nomatch absent.symm.trans ((get_eq_some_iff wf).mp live).1
          rw [view_insert read.1, if_neg different, read.2.1, absent, ite_self]
      · exact absent

/-- The flushed log of the table replays into a fresh one to the same map. -/
def ReplaysToSame (config : TableConfig) (clock : Nat -> UInt64) (t : HashTable P) : Prop :=
  forall key, (replayWal (config.fresh P none) (walFile t.flushWal) clock).1.view key = t.view key

/-- The table is within its limit before each of the records is applied. -/
def CalmReplay (clock : Nat -> UInt64) : Nat -> HashTable P -> List WALRecord -> Prop
  | _, _, [] => True
  | replayed, t, record :: records =>
      storedBytes t.entries ≤ t.policy.memoryLimit ∧
        CalmReplay clock (replayed + 1)
          (applyRecord t (clock (2 * replayed)) (clock (2 * replayed + 1)) record) records

theorem CalmReplay.not_evictedIn {replayed : Nat} {t : HashTable P} (wf : t.WF)
    {records : List WALRecord} (calm : CalmReplay clock replayed t records) (key : Bytes) :
    evictedIn clock replayed t records key = false := by
  induction records generalizing t replayed with
  | nil => rfl
  | cons record records ih =>
      rw [evictedIn, ih (wf_applyRecord wf _ _ record) calm.2, Bool.false_or, decide_eq_false_iff_not]
      exact fun evicted => wf.not_evicts calm.1 key evicted.2.2.2

section Pass

variable {t : HashTable P} {batch : Nat} {file tail : Bytes}
  {waiting again flushed left records : List WALRecord} {clock : Nat -> UInt64}
  (whole : file = walCodec.encodeAll records ++ tail)
  (fits : forall record, record ∈ records -> walCodec.Fits record)
  (appends : AppendsAll t (replayCalls clock 0 t records) again)
  (after : LogsTo (replayRecords clock 0 t records) batch (file ++ walCodec.encodeAll flushed) left)
  (logged : waiting ++ again = flushed ++ left) (config : TableConfig) (freshClock : Nat -> UInt64)

include whole fits after

theorem ends_after_pass_iff_of_logsTo (own : LogsTo t batch file waiting) :
    (Exists fun position => Ends (OwnReplay.turn clock) (OwnReplay.start t)
        ⟨replayRecords clock 0 t records, position, records.length⟩) <->
      readNext (tail ++ walCodec.encodeAll flushed) = none := by
  refine OwnReplay.ends_after_pass_iff clock own.wf fits (own.walFile_eq.trans whole) ?_
  rw [after.walFile_eq, own.walFile_eq]

include logged

/-- What the flushed log replays to. -/
theorem replaysToSame_iff
    (written : forall record, record ∈ readAll (tail ++ walCodec.encodeAll (waiting ++ again)) ->
      WrittenByTable record) :
    ReplaysToSame config freshClock (replayRecords clock 0 t records) <->
      forall key, (replayRecords clock 0 t records).view key =
        if evictedIn freshClock records.length
          (replayRecords freshClock 0 (config.fresh P none) records)
          (readAll (tail ++ walCodec.encodeAll (waiting ++ again))) key then none
        else (lastEffect (readAll (tail ++ walCodec.encodeAll (waiting ++ again))) key).getD
          ((replayRecords freshClock 0 (config.fresh P none) records).view key) := by
  have reread : readAll (walFile (replayRecords clock 0 t records).flushWal) =
      records ++ readAll (tail ++ walCodec.encodeAll (waiting ++ again)) := by
    rw [after.walFile_flushWal, whole, logged, Codec.encodeAll_append, readAll, List.append_assoc,
      List.append_assoc, walCodec.decodeAll_encodeAll_append, walCodec.map_carried_of_fits fits]
    rfl
  have wf := wf_replayRecords (config.wf_fresh (P := P) none) freshClock 0 records
  refine forall_congr' fun key => ?_
  rw [replayWal, reread, replayRecords_append, Nat.zero_add,
    view_replayRecords wf freshClock _ written]
  exact eq_comm

include appends

/-- The file ends with a whole record:  a key that the pass has not logged must have had
the value that the buffer says, and the others what was logged of them last. -/
theorem replaysToSame_iff_of_whole (wf : t.WF)
    (writtenWaiting : forall record, record ∈ waiting -> WrittenByTable record) (untorn : tail = [])
    (short : forall record, record ∈ waiting ++ again -> walCodec.Fits record) :
    ReplaysToSame config freshClock (replayRecords clock 0 t records) <->
      forall key,
        if evictedIn freshClock records.length
          (replayRecords freshClock 0 (config.fresh P none) records) (waiting ++ again) key then
          (replayRecords clock 0 t records).view key = none
        else match lastEffect again key with
          | some effect => (replayRecords clock 0 t records).view key = effect
          | none => t.view key = (lastEffect waiting key).getD none := by
  have reread : readAll (tail ++ walCodec.encodeAll (waiting ++ again)) = waiting ++ again := by
    rw [untorn, List.nil_append]
    exact (walCodec.decodeAll_encodeAll _).trans (walCodec.map_carried_of_fits short)
  have written : forall record, record ∈ waiting ++ again -> WrittenByTable record :=
    List.forall_mem_append.mpr ⟨writtenWaiting, appends.written⟩
  rw [replaysToSame_iff whole fits after logged config freshClock (reread.symm ▸ written), reread]
  refine forall_congr' fun key => ?_
  cases evictedIn freshClock records.length _ (waiting ++ again) key with
  | true => rfl
  | false =>
      rw [lastEffect_append]
      cases unnamed : lastEffect again key with
      | some effect => simp
      | none =>
          rcases appends.untouched wf unnamed with ⟨same, silent⟩
          rw [runCalls_replayCalls] at same
          have unset : forall record, record ∈ records -> record.opType = .set ->
              record.key ≠ key := by
            rintro record member set rfl
            rcases changes_of_set member set with ⟨call, inside, changes⟩
            exact silent call inside changes
          have absent := absent_replayRecords (config.wf_fresh (P := P) none)
            (config.view_fresh none key) freshClock 0 unset
          simp [same, absent]

/-- The file ends with a whole record:  the replay ends exactly when no batch is filled. -/
theorem ends_iff_of_whole (own : LogsTo t batch file waiting) (untorn : tail = [])
    (rest : left.length = (waiting.length + again.length) % max 1 batch) :
    (Exists fun final => Ends (OwnReplay.turn clock) (OwnReplay.start t) final) <->
      waiting.length + again.length < max 1 batch := by
  have counts := congrArg List.length logged
  rw [List.length_append, List.length_append] at counts
  have onePass := ends_after_pass_iff_of_logsTo whole fits after own
  rw [untorn, List.append_nil] at whole
  constructor
  · rintro ⟨final, ends⟩
    by_contra full
    have pass := @OwnReplay.ends_iff_of_file P clock t own.wf [] [] records fits 0
      (own.walFile_eq.trans (whole.trans (List.append_nil _).symm)) final
    have written := (written_of_logged logged own.written appends.written).1
    rw [whole, ← Codec.encodeAll_append] at after
    exact OwnReplay.Behind.not_ends ⟨after, rfl, written, by omega⟩ clock final (pass.mp ends)
  · intro room
    rw [Nat.mod_eq_of_lt room] at rest
    have nothing : flushed = [] := List.eq_nil_of_length_eq_zero (by omega)
    rw [nothing, untorn] at onePass
    rcases onePass.mpr rfl with ⟨position, ends⟩
    exact ⟨_, ends⟩

end Pass

/-- A new table that logs to a file with these records. -/
def loggingTable (records : List WALRecord) (batch : Nat) : HashTable Platform.source :=
  (roomy.fresh Platform.source none).enableWal (walCodec.encodeAll records) batch

theorem logsTo_loggingTable (records : List WALRecord) (batch : Nat) :
    LogsTo (loggingTable records batch) batch (walCodec.encodeAll records) [] where
  wf := wf_enableWal (roomy.wf_fresh none) _ batch
  writer := ⟨_, rfl, rfl, rfl, rfl⟩
  few := lt_max_of_lt_left Nat.one_pos
  written := List.forall_mem_nil _

/-- A log with a record that sets a key and one that gives it an expiry time. -/
def setAndExpire : List WALRecord :=
  [setRecord [97] (ValueEntry.new [49] 0), ⟨.expire, [97], [], 5⟩]

/-- A log with one record. -/
def oneRecord : List WALRecord := [setRecord [97] (ValueEntry.new [49] 0)]

end Engine
end KVStore
