import KVStore.Engine.Wal
import KVStore.Library.InputStream

namespace KVStore
namespace Engine

open Framing

/-!
# One log file

The life of a log file: `WALWriter` objects that are created and destroyed on it one
after the other, and a `WALReader` that reads a part of it.

A writer keeps the size of its file in a counter of its own.  The bytes of a record are
added up in 32 bits, so the counter is behind once a record takes 2^32 bytes or more.

The reader has one record object for all its reads, which it fills field by field and
leaves half filled when the file ends.  Nothing of what a read finds in the object
remains in a record that was read completely.
-/

/-! ## Writers one after the other -/

theorem length_writeRecord (record : WALRecord) :
    (writeRecord record).length = 17 + record.key.length % 2 ^ 32 + record.value.length % 2 ^ 32 := by
  simp only [writeRecord, writeString, List.length_cons, List.length_append, length_leBytes,
    length_shortString]
  omega

/-- The counter of a writer misses every 2^32 bytes of a record. -/
theorem length_writeRecord_eq (record : WALRecord) :
    (writeRecord record).length =
      WALWriter.countedSize record + 2 ^ 32 * ((writeRecord record).length / 2 ^ 32) := by
  have counted : WALWriter.countedSize record = (writeRecord record).length % 2 ^ 32 := by
    rw [length_writeRecord, WALWriter.countedSize]
    congr 1
    omega
  rw [counted]
  exact (Nat.mod_add_div _ _).symm

theorem countedSize_eq_iff (record : WALRecord) :
    WALWriter.countedSize record = (writeRecord record).length <->
        (writeRecord record).length < 2 ^ 32 := by
  have parts := length_writeRecord_eq record
  omega

/-- Sums of counted sizes are right when all of them are. -/
theorem sum_countedSize_eq_iff (records : List WALRecord) :
    (records.map WALWriter.countedSize).sum ≤ (walCodec.encodeAll records).length ∧
      ((records.map WALWriter.countedSize).sum = (walCodec.encodeAll records).length <->
        forall record, record ∈ records -> (writeRecord record).length < 2 ^ 32) := by
  induction records with
  | nil => exact ⟨Nat.le_refl _, iff_of_true rfl (List.forall_mem_nil _)⟩
  | cons record records ih =>
      have first := length_writeRecord_eq record
      have small := countedSize_eq_iff record
      have bytes : (walCodec.encodeAll (record :: records)).length =
          (writeRecord record).length + (walCodec.encodeAll records).length := List.length_append
      rw [bytes, List.map_cons, List.sum_cons, List.forall_mem_cons, ← small, ← ih.2]
      omega

/-- The file of a log, with the writer that is open on it. -/
inductive LogFile where
  | closed (file : Bytes)
  | opened (writer : WALWriter)

/-- The calls on the writers of a file.  At most one of them exists at a time. -/
inductive WriterEvent where
  | create (batchSize : Nat)
  | append (record : WALRecord)
  | flush
  | destroy

namespace LogFile

def file : LogFile -> Bytes
  | closed file => file
  | opened writer => writer.file

def buffer : LogFile -> List WALRecord
  | closed _ => []
  | opened writer => writer.buffer

/-- One call, where there is an object for it.  The destructor flushes the buffer. -/
def step : LogFile -> WriterEvent -> Option LogFile
  | closed file, .create batchSize => some (opened (WALWriter.new file batchSize))
  | opened writer, .append record => some (opened (writer.append record))
  | opened writer, .flush => some (opened writer.flush)
  | opened writer, .destroy => some (closed writer.flush.file)
  | closed _, _ => none
  | opened _, .create _ => none

/-- A run on a file that is empty at the start. -/
def run (events : List WriterEvent) : Option LogFile := events.foldlM step (closed [])

/-- All records that were ever appended. -/
def appended (events : List WriterEvent) : List WALRecord :=
  events.filterMap fun
    | .append record => some record
    | _ => none

/-- The records that were appended to the last writer. -/
def sinceCreated (events : List WriterEvent) : List WALRecord :=
  events.foldl (fun records event =>
    match event with
    | .create _ => []
    | .append record => records ++ [record]
    | _ => records) []

theorem run_snoc (events : List WriterEvent) (event : WriterEvent) :
    run (events ++ [event]) = (run events).bind fun before => before.step event := by
  rw [run, List.foldlM_append]
  simp [run]

theorem appended_snoc (events : List WriterEvent) (event : WriterEvent) :
    appended (events ++ [event]) = appended events ++ appended [event] :=
  List.filterMap_append

/-- What the present writer has done: it found some bytes, wrote the first of its records
behind them and holds the others. -/
structure Session (writer : WALWriter) (found : Bytes) (written : List WALRecord) : Prop where
  file : writer.file = found ++ walCodec.encodeAll written
  size : writer.fileSize = found.length + (written.map WALWriter.countedSize).sum

theorem session_new (file : Bytes) (batchSize : Nat) :
    Session (WALWriter.new file batchSize) file [] :=
  ⟨(List.append_nil file).symm, rfl⟩

/-- What a writer flushes is counted. -/
theorem Session.of_writes {writer after : WALWriter} {found : Bytes}
    {written added flushed : List WALRecord} (session : Session writer found written)
    (writes : WALWriter.Writes writer after added flushed) :
    Session after found (written ++ flushed) where
  file := by simp only [writes.file, session.file, Codec.encodeAll_append, List.append_assoc]
  size := by simp only [writes.fileSize, session.size, List.map_append, List.sum_append,
    Nat.add_assoc]

/-- The counter of a writer is right exactly when it has written no record of 2^32 bytes or more. -/
theorem Session.size_eq_iff {writer : WALWriter} {found : Bytes} {written : List WALRecord}
    (session : Session writer found written) :
    writer.fileSize = writer.file.length <-> forall record, record ∈ written ->
        (writeRecord record).length < 2 ^ 32 := by
  rw [← (sum_countedSize_eq_iff written).2, session.size, session.file, List.length_append]
  omega

/-- The contents of a file and its buffer, and the session of the open writer. -/
structure Exact (now : LogFile) (events : List WriterEvent) : Prop where
  contents : now.file ++ walCodec.encodeAll now.buffer = walCodec.encodeAll (appended events)
  session : forall writer, now = opened writer -> Exists fun found => Exists fun written =>
    Session writer found written ∧ sinceCreated events = written ++ writer.buffer

theorem sinceCreated_snoc (events : List WriterEvent) (event : WriterEvent) :
    sinceCreated (events ++ [event]) =
      match event with
      | .create _ => []
      | .append record => sinceCreated events ++ [record]
      | .flush => sinceCreated events
      | .destroy => sinceCreated events := by
  rw [sinceCreated, List.foldl_append]
  cases event <;> rfl

theorem exact_nil : Exact (closed []) [] := by
  refine ⟨rfl, fun writer same => ?_⟩
  cases same

variable {events : List WriterEvent}

/-- A call on the open writer that adds some records keeps the file in step with them. -/
theorem Exact.writes {writer after : WALWriter} {event : WriterEvent}
    {added flushed : List WALRecord} (inStep : Exact (opened writer) events)
    (writes : WALWriter.Writes writer after added flushed)
    (all : appended (events ++ [event]) = appended events ++ added)
    (latest : sinceCreated (events ++ [event]) = sinceCreated events ++ added) :
    Exact (opened after) (events ++ [event]) := by
  have image : writer.image = walCodec.encodeAll (appended events) := inStep.contents
  constructor
  · change after.image = _
    rw [all, writes.image, image, Codec.encodeAll_append]
  · intro later same
    cases same
    rcases inStep.session writer rfl with ⟨found, written, session, records⟩
    refine ⟨found, written ++ flushed, session.of_writes writes, ?_⟩
    rw [latest, records, List.append_assoc, writes.records, List.append_assoc]

/-- A call keeps the file in step with the records, whichever writer it is made on. -/
theorem Exact.step {before after : LogFile} {event : WriterEvent} (inStep : Exact before events)
    (stepped : before.step event = some after) : Exact after (events ++ [event]) := by
  have all := appended_snoc events event
  have latest := sinceCreated_snoc events event
  cases before with
  | closed file =>
      cases event with
      | create batchSize =>
          cases stepped
          refine ⟨?_, fun writer same => ?_⟩
          · rw [all]
            exact inStep.contents.trans (congrArg walCodec.encodeAll (List.append_nil _).symm)
          · cases same
            exact ⟨file, [], session_new file batchSize, latest⟩
      | append record => cases stepped
      | flush => cases stepped
      | destroy => cases stepped
  | opened writer =>
      cases event with
      | create batchSize => cases stepped
      | append record =>
          cases stepped
          rcases writer.writes_append record with ⟨flushed, writes⟩
          exact inStep.writes writes all latest
      | flush =>
          cases stepped
          exact inStep.writes writer.writes_flush all (latest.trans (List.append_nil _).symm)
      | destroy =>
          cases stepped
          refine ⟨?_, fun later same => by cases same⟩
          change writer.flush.image = _
          rw [all, WALWriter.image_flush]
          exact inStep.contents.trans (congrArg walCodec.encodeAll (List.append_nil _).symm)

theorem exact_run {now : LogFile} (ran : run events = some now) : Exact now events := by
  induction events using List.reverseRecOn generalizing now with
  | nil =>
      cases ran
      exact exact_nil
  | append_singleton events event ih =>
      rw [run_snoc, Option.bind_eq_some_iff] at ran
      rcases ran with ⟨before, earlier, stepped⟩
      exact (ih earlier).step stepped

/-- After every sequence of calls, the file followed by the buffer holds all records that
were ever appended, in their order.  The size that an open writer reports is the length of
its file exactly when none of the records that it has written takes 2^32 bytes or more. -/
theorem log_never_loses (events : List WriterEvent) (now : LogFile) (ran : run events = some now) :
    now.file ++ walCodec.encodeAll now.buffer = walCodec.encodeAll (appended events) ∧
      forall writer, now = opened writer -> Exists fun written =>
        sinceCreated events = written ++ writer.buffer ∧
          (writer.fileSize = writer.file.length <->
            forall record, record ∈ written -> (writeRecord record).length < 2 ^ 32) := by
  have inStep := exact_run ran
  refine ⟨inStep.contents, fun writer open_ => ?_⟩
  rcases inStep.session writer open_ with ⟨found, written, session, records⟩
  exact ⟨written, records, session.size_eq_iff⟩

/-- Two writers, the first of which is destroyed with a record in its buffer. -/
def twoWriters : List WriterEvent :=
  [.create 2, .append ⟨.set, [97], [49], 0⟩, .destroy, .create 1, .append ⟨.delete, [97], [], 0⟩]

theorem log_never_loses_twoWriters :
    Exists fun now => run twoWriters = some now ∧
      now.file ++ walCodec.encodeAll now.buffer = walCodec.encodeAll (appended twoWriters) :=
  ⟨_, rfl, (log_never_loses twoWriters _ rfl).1⟩

/-- A record of exactly 2^32 bytes. -/
def largeRecord : WALRecord where
  opType := .set
  key := List.replicate (2 ^ 32 - 17) 0
  value := []
  ttlNs := 0

/-- A writer that flushes every record. -/
theorem append_new_one (record : WALRecord) :
    (WALWriter.new [] 1).append record =
        ⟨1, [], WALWriter.countedSize record, writeRecord record⟩ := by
  simp [WALWriter.append, WALWriter.new, WALWriter.flush, walCodec]

/-- The record is written completely, and the writer reports a size of zero. -/
theorem size_misses_large_record :
    largeRecord.key.length < 2 ^ 32 ∧ largeRecord.value.length < 2 ^ 32 ∧
      Exists fun writer => run [.create 1, .append largeRecord] = some (opened writer) ∧
        writer.fileSize = 0 ∧ writer.file.length = 2 ^ 32 := by
  have key : largeRecord.key.length = 2 ^ 32 - 17 := List.length_replicate
  have value : largeRecord.value.length = 0 := List.length_nil
  have opens : run [.create 1, .append largeRecord] =
    some (opened ((WALWriter.new [] 1).append largeRecord)) := rfl
  refine ⟨by omega, by omega, _, opens, ?_, ?_⟩
  · rw [append_new_one, WALWriter.countedSize, key, value]
    rfl
  · rw [append_new_one, length_writeRecord, key, value]
    omega

end LogFile

/-! ## The reader -/

/-- A reader of a file. -/
structure WALReader where
  file : InputStream
  recordsRead : Nat

namespace WALReader

def new (file : Bytes) : WALReader := ⟨⟨file, true⟩, 0⟩

/-- `std::string::resize`. -/
def resize (text : Bytes) (length : Nat) : Bytes :=
  text.take length ++ List.replicate (length - text.length) 0

/-- The bytes of a variable after a read into it. -/
def fill (old got : Bytes) : Bytes := got ++ old.drop got.length

/-- The value of a record, which is only read when it is not empty. -/
def readValue (old : Bytes) (file : InputStream) (length : Nat) : Bytes × InputStream × Bool :=
  if length > 0 then
    let got := file.read length
    (fill (resize old length) got.1, got.2, decide (got.1.length = length))
  else ([], file, true)

/-- `read_next`: whether a record was read, the record object and the reader.  The
object is left half filled where the result is false. -/
def readNext (reader : WALReader) (record : WALRecord) : Bool × WALRecord × WALReader :=
  if reader.file.good = false then (false, record, reader) else
  let op := reader.file.read 1
  if op.1.length ≠ 1 then (false, record, { reader with file := op.2 }) else
  let record := { record with opType := .ofCode (op.1.headD 0) }
  let keyLen := op.2.read 4
  if keyLen.1.length ≠ 4 then (false, record, { reader with file := keyLen.2 }) else
  let key := keyLen.2.read (leValue keyLen.1)
  let record := { record with key := fill (resize record.key (leValue keyLen.1)) key.1 }
  if key.1.length ≠ leValue keyLen.1 then (false, record, { reader with file := key.2 }) else
  let valueLen := key.2.read 4
  if valueLen.1.length ≠ 4 then (false, record, { reader with file := valueLen.2 }) else
  let value := readValue record.value valueLen.2 (leValue valueLen.1)
  let record := { record with value := value.1 }
  if value.2.2 = false then (false, record, { reader with file := value.2.1 }) else
  let ttl := value.2.1.read 8
  let ttlBytes := fill (leBytes 8 record.ttlNs.toUInt64.toNat) ttl.1
  let record := { record with ttlNs := (UInt64.ofNat (leValue ttlBytes)).toInt64 }
  if ttl.1.length ≠ 8 then (false, record, { reader with file := ttl.2 }) else
  (true, record, { file := ttl.2, recordsRead := reader.recordsRead + 1 })

theorem fill_of_length {old got : Bytes} (same : got.length = old.length) : fill old got = got := by
  rw [fill, same, List.drop_length, List.append_nil]

theorem length_resize (text : Bytes) (length : Nat) : (resize text length).length = length := by
  simp only [resize, List.length_append, List.length_take, List.length_replicate]
  omega

/-- A value that is complete replaces the old one. -/
theorem readValue_of_some {rest value after : Bytes} {length : Nat} (old : Bytes)
    (enough : readBytes length rest = some (value, after)) :
    readValue old ⟨rest, true⟩ length = (value, ⟨after, true⟩, true) := by
  have valueLength := (readBytes_eq_some.mp enough).2
  rw [readValue]
  split
  · rw [InputStream.read_of_some enough]
    simp only [valueLength, decide_true]
    rw [fill_of_length (valueLength.trans (length_resize old length).symm)]
  · have none : length = 0 := by omega
    rw [none] at enough
    rcases readBytes_eq_some.mp enough with ⟨shape, empty⟩
    rw [List.length_eq_zero_iff.mp empty] at shape ⊢
    rw [shape]
    rfl

theorem readValue_of_none {rest : Bytes} {length : Nat} (old : Bytes)
    (short : readBytes length rest = none) :
    (readValue old ⟨rest, true⟩ length).2.2 = false := by
  rw [readValue]
  split
  · exact decide_eq_false (InputStream.length_read_of_none short)
  · have none : length = 0 := by omega
    rw [none, readBytes, if_pos (Nat.zero_le _)] at short
    cases short

/-- The reads of a record behind its first byte. -/
theorem readNext_cons (op : UInt8) (stream : Bytes) :
    Engine.readNext (op :: stream) =
      (readBytes 4 stream).bind fun keyLen => (readBytes (leValue keyLen.1) keyLen.2).bind fun key =>
        (readBytes 4 key.2).bind fun valueLen =>
        (readBytes (leValue valueLen.1) valueLen.2).bind fun value =>
          (readBytes 8 value.2).map fun ttl =>
            (⟨.ofCode op, key.1, value.1, (UInt64.ofNat (leValue ttl.1)).toInt64⟩, ttl.2) := by
  simp only [Engine.readNext, readString, readWord, Option.bind_eq_bind, Option.bind_assoc,
    Option.map_eq_bind, Function.comp_def, Option.pure_def, Option.bind_some]

/-- A record is read exactly where the bytes hold one, and it is the record of the bytes,
whatever the object held before. -/
theorem readNext_cases (rest : Bytes) (count : Nat) (record : WALRecord) :
    (Engine.readNext rest = none ∧ (readNext ⟨⟨rest, true⟩, count⟩ record).1 = false ∧
        (readNext ⟨⟨rest, true⟩, count⟩ record).2.2.recordsRead = count) ∨
      Exists fun next => Exists fun after => Engine.readNext rest = some (next, after) ∧
        readNext ⟨⟨rest, true⟩, count⟩ record = (true, next, ⟨⟨after, true⟩, count + 1⟩) := by
  cases rest with
  | nil => exact Or.inl ⟨rfl, rfl, rfl⟩
  | cons op stream =>
      have first : InputStream.read ⟨op :: stream, true⟩ 1 = ([op], ⟨stream, true⟩) := by
        simp [InputStream.read]
      rw [readNext_cons]
      -- One field after the other is missing or read completely.
      rcases InputStream.read_cases stream 4 with ⟨failed, short⟩
        | ⟨keyLen, afterKeyLen, keyLenRead, keyLenGot, four⟩
      · refine Or.inl ⟨by simp [failed], ?_⟩
        simp [readNext, first, short]
      rcases InputStream.read_cases afterKeyLen (leValue keyLen) with
        ⟨failed, short⟩ | ⟨key, afterKey, keyRead, keyGot, keyLength⟩
      · refine Or.inl ⟨by simp [keyLenRead, failed], ?_⟩
        simp [readNext, first, keyLenGot, four, short]
      have keyText : fill (resize record.key (leValue keyLen)) key = key :=
        fill_of_length (keyLength.trans (length_resize _ _).symm)
      rcases InputStream.read_cases afterKey 4 with
        ⟨failed, short⟩ | ⟨valueLen, afterValueLen, valueLenRead, valueLenGot, alsoFour⟩
      · refine Or.inl ⟨by simp [keyLenRead, keyRead, failed], ?_⟩
        simp [readNext, first, keyLenGot, four, keyGot, keyLength, short]
      rcases value : readBytes (leValue valueLen) afterValueLen with _ | ⟨valueBytes, afterValue⟩
      · have short := readValue_of_none record.value value
        refine Or.inl ⟨by simp [keyLenRead, keyRead, valueLenRead, value], ?_⟩
        simp [readNext, first, keyLenGot, four, keyGot, keyLength, valueLenGot, alsoFour, short]
      have valueGot := readValue_of_some record.value value
      rcases InputStream.read_cases afterValue 8 with ⟨failed, short⟩
        | ⟨ttl, after, ttlRead, ttlGot, eight⟩
      · refine Or.inl ⟨by simp [keyLenRead, keyRead, valueLenRead, value, failed], ?_⟩
        simp [readNext, first, keyLenGot, four, keyGot, keyLength, valueLenGot, alsoFour,
          valueGot, short]
      have ttlWord : fill (leBytes 8 record.ttlNs.toUInt64.toNat) ttl = ttl :=
        fill_of_length (eight.trans (length_leBytes _ _).symm)
      refine Or.inr ⟨⟨.ofCode op, key, valueBytes, (UInt64.ofNat (leValue ttl)).toInt64⟩, after,
        by simp [keyLenRead, keyRead, valueLenRead, value, ttlRead], ?_⟩
      simp [readNext, first, keyLenGot, four, keyGot, keyLength, keyText, valueLenGot, alsoFour,
        valueGot, ttlGot, eight, ttlWord]

/-- A reader that has failed once does not read again. -/
theorem readNext_failed (rest : Bytes) (count : Nat) (record : WALRecord) :
    readNext ⟨⟨rest, false⟩, count⟩ record = (false, record, ⟨⟨rest, false⟩, count⟩) := by
  simp [readNext]

theorem readNext_shrinks {reader after : WALReader} {record next : WALRecord}
    (got : readNext reader record = (true, next, after)) :
    after.file.rest.length < reader.file.rest.length := by
  rcases reader with ⟨⟨rest, good⟩, count⟩
  cases good with
  | false =>
      rw [readNext_failed] at got
      cases got
  | true =>
      rcases readNext_cases rest count record with ⟨_, failed, _⟩ | ⟨value, remaining, decoded, read⟩
      · rw [got] at failed
        cases failed
      · rw [read] at got
        cases got
        exact walCodec.decode_shrinks decoded

/-- Calls of `read_next` with one record object until it returns false: the records that
were read, and the reader behind them. -/
def readUntilFalse (reader : WALReader) (record : WALRecord) : List WALRecord × WALReader :=
  match got : readNext reader record with
  | (false, _, after) => ([], after)
  | (true, next, after) =>
      have := readNext_shrinks got
      let later := readUntilFalse after next
      (next :: later.1, later.2)
termination_by reader.file.rest.length

theorem readUntilFalse_of_false {reader : WALReader} {record : WALRecord}
    (failed : (readNext reader record).1 = false) :
    readUntilFalse reader record = ([], (readNext reader record).2.2) := by
  rw [readUntilFalse]
  split
  · rename_i got
    rw [got]
  · rename_i got
    rw [got] at failed
    cases failed

theorem readUntilFalse_of_true {reader after : WALReader} {record next : WALRecord}
    (got : readNext reader record = (true, next, after)) :
    readUntilFalse reader record =
      (next :: (readUntilFalse after next).1, (readUntilFalse after next).2) := by
  rw [readUntilFalse]
  split
  · rename_i failed
    rw [got] at failed
    cases failed
  · rename_i same
    rw [got] at same
    cases same
    rfl

/-- The loop reads the records of the bytes and counts them, whatever the record object
held before. -/
theorem readUntilFalse_eq_readAll (rest : Bytes) (count : Nat) (record : WALRecord) :
    (readUntilFalse ⟨⟨rest, true⟩, count⟩ record).1 = readAll rest ∧
      (readUntilFalse ⟨⟨rest, true⟩, count⟩ record).2.recordsRead =
          count + (readAll rest).length := by
  -- The records that are left are fewer bytes; the object now holds the last record.
  induction left : rest.length using Nat.strong_induction_on generalizing rest count record with
  | _ bytes ih =>
      rcases readNext_cases rest count record with ⟨none, failed, same⟩ | ⟨next, after, decoded, read⟩
      · have empty : readAll rest = [] := walCodec.decodeAll_of_none none
        simp [readUntilFalse_of_false failed, empty, same]
      · have first : readAll rest = next :: readAll after := walCodec.decodeAll_of_some decoded
        have fewer : after.length < bytes := left ▸ walCodec.decode_shrinks decoded
        rcases ih _ fewer after (count + 1) next rfl with ⟨records, counted⟩
        rw [readUntilFalse_of_true read, first]
        refine ⟨congrArg (next :: ·) records, ?_⟩
        simp only [counted, List.length_cons]
        omega

/-- Reading the first bytes of an encoded list gives exactly the records whose encodings
end within these bytes, field for field, and `records_read()` is their number. -/
theorem reader_recovers_complete (records : List WALRecord)
    (short : forall record, record ∈ records -> record.key.length < 2 ^ 32 ∧
      record.value.length < 2 ^ 32)
    (count : Nat) (object : WALRecord) :
    Exists fun kept => kept ≤ records.length ∧
      (readUntilFalse (new ((walCodec.encodeAll records).take count)) object).1 = records.take kept ∧
      (readUntilFalse (new ((walCodec.encodeAll records).take count)) object).2.recordsRead = kept ∧
      (forall index, index < records.length ->
        (index < kept <-> (walCodec.encodeAll (records.take (index + 1))).length ≤ count)) ∧
      ((walCodec.encodeAll records).length ≤ count -> records.take kept = records) := by
  have fits : forall record, record ∈ records -> walCodec.Fits record := fun record member =>
    (walCodec_fits_iff record).mpr (short record member)
  rcases walCodec.decodeAll_take records count with ⟨kept, bound, decoded, within, most⟩
  rcases readUntilFalse_eq_readAll ((walCodec.encodeAll records).take count) 0 object with
    ⟨read, counted⟩
  have found : readAll ((walCodec.encodeAll records).take count) = records.take kept := by
    rw [readAll, decoded]
    exact walCodec.map_carried_of_fits fun record member => fits record (List.mem_of_mem_take member)
  refine ⟨kept, bound, read.trans found, ?_, fun index inside =>
    ⟨fun before => ?_, fun complete => ?_⟩, fun whole => ?_⟩
  · rw [new, counted, found, List.length_take, Nat.zero_add, Nat.min_eq_left bound]
  · exact (walCodec.length_encodeAll_take_mono records before).trans within
  · exact most (index + 1) inside complete
  · have all := most records.length (Nat.le_refl _) (by rwa [List.take_length])
    exact List.take_of_length_le all

/-- A record with an empty key and an empty value behind another one. -/
def smallRecords : List WALRecord := [⟨.set, [97], [49], -1⟩, ⟨.delete, [], [], 0⟩]

/-- One byte of the second record is missing. -/
theorem reader_recovers_first :
    Exists fun kept => (readUntilFalse (new ((walCodec.encodeAll smallRecords).take 35))
      ⟨.set, [], [], 0⟩).1 =
      smallRecords.take kept ∧ (0 < kept <-> 19 ≤ 35) ∧ (1 < kept <-> 36 ≤ 35) := by
  rcases reader_recovers_complete smallRecords (by decide) 35 ⟨.set, [], [], 0⟩ with
    ⟨kept, _, read, _, complete, _⟩
  exact ⟨kept, read, complete 0 (by decide), complete 1 (by decide)⟩

end WALReader
end Engine
end KVStore
