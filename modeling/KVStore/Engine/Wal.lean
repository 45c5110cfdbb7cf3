import KVStore.Library.Framing

namespace KVStore
namespace Engine

open Framing

/-!
# The write-ahead log

`WALWriter` and `WALReader` of `engine/src/wal.cpp`.  A record is written as
an operation byte, a key and a value behind length fields of four bytes, and
eight bytes of time to live.  The length fields hold the sizes modulo 2^32, and
only that many bytes follow, so a longer key or value is cut on the disk.

The writer carries the contents of its file, which it opens for appending
whatever stands in it.  The reader stops at the first record that it cannot
read completely.
-/

/-! ## Records -/

/-- `enum class WALOpType : uint8_t`.  A byte read from a file is cast without
a check, so the codes that have no name are values of the type as well. -/
inductive WALOpType where
  | set
  | delete
  | expire
  | unnamed (code : UInt8) (isUnnamed : code ≠ 1 ∧ code ≠ 2 ∧ code ≠ 3)
  deriving DecidableEq, Repr

namespace WALOpType

def code : WALOpType -> UInt8
  | set => 1
  | delete => 2
  | expire => 3
  | unnamed code _ => code

def ofCode (code : UInt8) : WALOpType :=
  if one : code = 1 then set
  else if two : code = 2 then delete
  else if three : code = 3 then expire
  else unnamed code ⟨one, two, three⟩

@[simp] theorem ofCode_code (op : WALOpType) : ofCode op.code = op := by
  cases op with
  | set | delete | expire => rfl
  | unnamed code isUnnamed =>
      rw [WALOpType.code, ofCode, dif_neg isUnnamed.1, dif_neg isUnnamed.2.1, dif_neg isUnnamed.2.2]

@[simp] theorem code_ofCode (byte : UInt8) : (ofCode byte).code = byte := by
  unfold ofCode
  split
  · rename_i one
    exact one.symm
  · split
    · rename_i two
      exact two.symm
    · split
      · rename_i three
        exact three.symm
      · rfl

end WALOpType

structure WALRecord where
  opType : WALOpType
  key : Bytes
  value : Bytes
  ttlNs : Int64
  deriving DecidableEq, Repr

/-- `WALWriter::write_record`. -/
def writeRecord (record : WALRecord) : Bytes :=
  record.opType.code :: (writeString record.key ++ (writeString record.value ++
    leBytes 8 record.ttlNs.toUInt64.toNat))

/-- `WALReader::read_next`: the next record and the bytes behind it. -/
def readNext : Bytes -> Option (WALRecord × Bytes)
  | [] => none
  | op :: stream => do
      let (key, stream) <- readString stream
      let (value, stream) <- readString stream
      let (ttl, stream) <- readWord 8 stream
      return (⟨.ofCode op, key, value, (UInt64.ofNat ttl).toInt64⟩, stream)

/-- A record as it is read back. -/
def WALRecord.carried (record : WALRecord) : WALRecord :=
  { record with key := shortString record.key, value := shortString record.value }

theorem readNext_writeRecord (record : WALRecord) (rest : Bytes) :
    readNext (writeRecord record ++ rest) = some (record.carried, rest) := by
  have ttl : record.ttlNs.toUInt64.toNat % 256 ^ 8 = record.ttlNs.toUInt64.toNat :=
    Nat.mod_eq_of_lt (UInt64.toNat_lt _)
  simp only [writeRecord, List.cons_append, List.append_assoc, readNext, readString_append,
    readWord_append, Option.bind_eq_bind, Option.bind_some, Option.pure_def, ttl,
      WALOpType.ofCode_code, UInt64.ofNat_toNat]
  rfl

theorem writeRecord_readNext {stream rest : Bytes} {record : WALRecord}
    (read : readNext stream = some (record, rest)) :
    stream = writeRecord record ++ rest ∧ record.carried = record := by
  cases stream with
  | nil => cases read
  | cons op stream =>
      simp only [readNext, Option.bind_eq_bind, Option.bind_eq_some_iff, Option.pure_def,
        Option.some.injEq] at read
      rcases read with ⟨⟨key, afterKey⟩, keyRead, ⟨value, afterValue⟩, valueRead, ⟨ttl, after⟩,
        ttlRead, result⟩
      cases result
      rcases readString_eq_some keyRead with ⟨rfl, keyShort⟩
      rcases readString_eq_some valueRead with ⟨rfl, valueShort⟩
      rcases readWord_eq_some.mp ttlRead with ⟨rfl, ttlSmall⟩
      have ttlValue : (UInt64.ofNat ttl).toNat = ttl := by
        rw [UInt64.toNat_ofNat']
        exact Nat.mod_eq_of_lt ttlSmall
      constructor
      · simp only [writeRecord, WALOpType.code_ofCode, List.cons_append, List.append_assoc,
          UInt64.toUInt64_toInt64, ttlValue]
      · simp only [WALRecord.carried, keyShort, valueShort]

def walCodec : Codec WALRecord where
  encode := writeRecord
  decode := readNext
  carried := WALRecord.carried
  decode_encode := readNext_writeRecord
  encode_decode := writeRecord_readNext
  encode_ne_nil := fun _ => List.cons_ne_nil _ _

theorem walCodec_fits_iff (record : WALRecord) :
    walCodec.Fits record <-> record.key.length < 2 ^ 32 ∧ record.value.length < 2 ^ 32 := by
  have key := shortString_eq_self_iff record.key
  have value := shortString_eq_self_iff record.value
  change record.carried = record <-> _
  rw [WALRecord.carried]
  cases record
  simp only [WALRecord.mk.injEq, true_and, and_true] at key value ⊢
  rw [key, value]
  norm_num

/-- `read_next` until it returns false. -/
def readAll (file : Bytes) : List WALRecord := walCodec.decodeAll file

/-! ## The writer -/

/-- A writer, with the bytes of its file. -/
structure WALWriter where
  batchSize : Nat
  buffer : List WALRecord
  fileSize : Nat
  file : Bytes
  deriving Repr

namespace WALWriter

/-- The constructor: the file is opened for appending. -/
def new (file : Bytes) (batchSize : Nat) : WALWriter where
  batchSize := batchSize
  buffer := []
  fileSize := file.length
  file := file

/-- What `write_record` adds to `file_size_`.  The sum is one of 32 bits, because the two
lengths are. -/
def countedSize (record : WALRecord) : Nat :=
  (1 + 4 + record.key.length % 2 ^ 32 + 4 + record.value.length % 2 ^ 32 + 8) % 2 ^ 32

def flush (w : WALWriter) : WALWriter :=
  { w with
    buffer := []
    file := w.file ++ walCodec.encodeAll w.buffer
    fileSize := w.fileSize + (w.buffer.map countedSize).sum }

def append (w : WALWriter) (record : WALRecord) : WALWriter :=
  let pushed := { w with buffer := w.buffer ++ [record] }
  if pushed.buffer.length ≥ w.batchSize then pushed.flush else pushed

/-- Several calls of `append`. -/
def appendAll (w : WALWriter) (records : List WALRecord) : WALWriter := records.foldl append w

/-- The file as a flush would leave it. -/
def image (w : WALWriter) : Bytes := w.file ++ walCodec.encodeAll w.buffer

theorem file_flush (w : WALWriter) : w.flush.file = w.image := rfl

@[simp] theorem image_new (file : Bytes) (batchSize : Nat) : (new file batchSize).image = file :=
  List.append_nil _

@[simp] theorem image_flush (w : WALWriter) : w.flush.image = w.image :=
  List.append_nil _

/-- Everything that an append can do:  the record fills the batch, or it waits. -/
theorem append_cases (w : WALWriter) (record : WALRecord) :
    w.batchSize ≤ w.buffer.length + 1 ∧
      w.append record = { w with buffer := w.buffer ++ [record] }.flush ∨
      w.buffer.length + 1 < w.batchSize ∧
          w.append record = { w with buffer := w.buffer ++ [record] } := by
  simp only [append, List.length_append, List.length_singleton]
  split
  · exact Or.inl ⟨‹_›, rfl⟩
  · exact Or.inr ⟨Nat.lt_of_not_le ‹_›, rfl⟩

/-- From one writer to another, records have been added.  The first of those in the buffer went to
the file, and were counted. -/
structure Writes (before after : WALWriter) (added flushed : List WALRecord) : Prop where
  file : after.file = before.file ++ walCodec.encodeAll flushed
  fileSize : after.fileSize = before.fileSize + (flushed.map countedSize).sum
  batchSize : after.batchSize = before.batchSize
  records : before.buffer ++ added = flushed ++ after.buffer

theorem Writes.trans {first second third : WALWriter} {added flushed more later : List WALRecord}
    (writes : Writes first second added flushed) (further : Writes second third more later) :
    Writes first third (added ++ more) (flushed ++ later) where
  file := by simp only [further.file, writes.file, Codec.encodeAll_append, List.append_assoc]
  fileSize := by simp only [further.fileSize, writes.fileSize, List.map_append, List.sum_append,
    Nat.add_assoc]
  batchSize := further.batchSize.trans writes.batchSize
  records := by rw [← List.append_assoc, writes.records, List.append_assoc, further.records,
    List.append_assoc]

theorem writes_flush (w : WALWriter) : Writes w w.flush [] w.buffer := ⟨rfl, rfl, rfl, rfl⟩

theorem writes_append (w : WALWriter) (record : WALRecord) :
    Exists fun flushed => Writes w (w.append record) [record] flushed := by
  rcases w.append_cases record with ⟨_, full⟩ | ⟨_, room⟩
  · rw [full]
    exact ⟨w.buffer ++ [record], rfl, rfl, rfl, (List.append_nil _).symm⟩
  · rw [room]
    exact ⟨[], (List.append_nil _).symm, rfl, rfl, rfl⟩

theorem writes_appendAll (w : WALWriter) (records : List WALRecord) :
    Exists fun flushed => Writes w (w.appendAll records) records flushed := by
  induction records generalizing w with
  | nil => exact ⟨[], (List.append_nil _).symm, rfl, rfl, List.append_nil _⟩
  | cons record records ih =>
      rcases w.writes_append record with ⟨flushed, first⟩
      rcases ih (w.append record) with ⟨later, rest⟩
      exact ⟨flushed ++ later, first.trans rest⟩

theorem Writes.image {before after : WALWriter} {added flushed : List WALRecord}
    (writes : Writes before after added flushed) :
    after.image = before.image ++ walCodec.encodeAll added := by
  simp only [WALWriter.image, writes.file, List.append_assoc, ← Codec.encodeAll_append,
    writes.records]

theorem image_appendAll (w : WALWriter) (records : List WALRecord) :
    (w.appendAll records).image = w.image ++ walCodec.encodeAll records := by
  rcases w.writes_appendAll records with ⟨_, writes⟩
  exact writes.image

/-- The file holds the first of the records, and the buffer the others. -/
def Holds (w : WALWriter) (records : List WALRecord) : Prop :=
  Exists fun flushed => w.file = walCodec.encodeAll flushed ∧ records = flushed ++ w.buffer

theorem holds_new (batchSize : Nat) : (new [] batchSize).Holds [] := ⟨[], rfl, rfl⟩

theorem Holds.of_writes {before after : WALWriter} {records added flushed : List WALRecord}
    (holds : before.Holds records) (writes : Writes before after added flushed) :
    after.Holds (records ++ added) := by
  rcases holds with ⟨earlier, file, whole⟩
  refine ⟨earlier ++ flushed, ?_, ?_⟩
  · rw [writes.file, file, Codec.encodeAll_append]
  · rw [whole, List.append_assoc, writes.records, List.append_assoc]

theorem Holds.flush {w : WALWriter} {records : List WALRecord} (holds : w.Holds records) :
    w.flush.Holds records := by
  have kept := holds.of_writes w.writes_flush
  rwa [List.append_nil] at kept

theorem Holds.appendAll {w : WALWriter} {records : List WALRecord} (holds : w.Holds records)
    (more : List WALRecord) : (w.appendAll more).Holds (records ++ more) := by
  rcases w.writes_appendAll more with ⟨_, writes⟩
  exact holds.of_writes writes

/-- What a reader finds in the file without a flush. -/
theorem Holds.readAll_file {w : WALWriter} {records : List WALRecord} (holds : w.Holds records) :
    Exists fun flushed => flushed <+: records ∧ readAll w.file = flushed.map WALRecord.carried := by
  rcases holds with ⟨flushed, file, whole⟩
  refine ⟨flushed, ⟨w.buffer, whole.symm⟩, ?_⟩
  rw [file]
  exact walCodec.decodeAll_encodeAll flushed

end WALWriter

/-! ## Two generations of a log -/

/-- A log is written and flushed, a crash leaves `torn` behind it, and a writer
opened on the same file appends and flushes more records.  The reader gets both
lists back exactly when all records are short enough for their length fields
and the torn bytes, followed by those of the new records, are the bytes of the
new records again, followed by something that holds no record. -/
theorem readAll_reopened_iff (batchSize batchSizeAfter : Nat) (first second : List WALRecord)
    (torn : Bytes) :
    readAll ((WALWriter.new (((WALWriter.new [] batchSize).appendAll first).flush.file ++ torn)
        batchSizeAfter).appendAll second).flush.file = first ++ second <->
      (forall record, record ∈ first ++ second -> record.key.length < 2 ^ 32 ∧
        record.value.length < 2 ^ 32) ∧
        Exists fun tail =>
          torn ++ walCodec.encodeAll second = walCodec.encodeAll second ++ tail ∧
              readNext tail = none := by
  have file : ((WALWriter.new (((WALWriter.new [] batchSize).appendAll first).flush.file ++ torn)
      batchSizeAfter).appendAll second).flush.file =
        walCodec.encodeAll first ++ torn ++ walCodec.encodeAll second := by
    rw [WALWriter.file_flush, WALWriter.image_appendAll, WALWriter.image_new, WALWriter.file_flush,
      WALWriter.image_appendAll, WALWriter.image_new, List.nil_append]
  rw [file, readAll, Codec.decodeAll_after_torn]
  simp only [walCodec_fits_iff]
  rfl

/-- One byte of a torn record replaces the next record by another one: the
operation byte of the next record is read as the first byte of a length. -/
theorem readAll_torn_byte :
    [1] ++ [0, 0, 0, 0, 0, 0, 0, 0, 0, 0, 0, 0, 0, 0, 0, 0] = writeRecord ⟨.set, [], [], 0⟩ ∧
      readAll ((WALWriter.new (((WALWriter.new [] 100).appendAll []).flush.file ++ [1])
        100).appendAll [⟨.set, [], [], 0⟩]).flush.file = [⟨.set, [0], [], 0⟩] := by
  refine ⟨by decide, ?_⟩
  have first : walCodec.decode
      ((WALWriter.new (((WALWriter.new [] 100).appendAll []).flush.file ++ [1]) 100).appendAll
        [⟨.set, [], [], 0⟩]).flush.file = some (⟨.set, [0], [], 0⟩, []) := by decide
  rw [readAll, Codec.decodeAll_of_some _ first, Codec.decodeAll_of_none _ (Codec.decode_nil _)]

end Engine
end KVStore
