import KVStore.Engine.Replay

namespace KVStore
namespace Engine

open Framing Keyed HashTable

variable {P : Platform}

/-!
# Snapshots

`CRC64`, `SnapshotWriter` and `SnapshotReader` of `engine/src/snapshot.cpp`.  A
snapshot is written with a zero in the place of the checksum, which is filled in
at the end.  The writer opens its file with `trunc`, so that a crash during the
write leaves a part of the new snapshot and nothing of an older one.

The reader looks neither at the result of its reads of the header nor for bytes
behind the last entry.  A header word that the file does not hold keeps the
bytes that its variable had before: zero for the checksum, anything for the two
local variables.
-/

/-! ## The checksum -/

def crcPoly : UInt64 := 0x42F0E1EBA9EA3693

/-- The entry of the table of `init_table` for a byte. -/
def crcTable (index : UInt8) : UInt64 :=
  (List.range 8).foldl (fun crc _ => if crc &&& 1 = 1 then (crc >>> 1) ^^^ crcPoly else crc >>> 1)
    index.toUInt64

def crcInit : UInt64 := 0xFFFFFFFFFFFFFFFF

/-- `CRC64::update`. -/
def crcUpdate (crc : UInt64) (bytes : Bytes) : UInt64 :=
  bytes.foldl (fun crc byte => (crc >>> 8) ^^^ crcTable (crc ^^^ byte.toUInt64).toUInt8) crc

theorem crcUpdate_append (crc : UInt64) (first second : Bytes) :
    crcUpdate crc (first ++ second) = crcUpdate (crcUpdate crc first) second :=
  List.foldl_append

/-! ## Entries -/

/-- `SnapshotWriter::write_entry`. -/
def writeEntry (entry : Bytes × ValueEntry) : Bytes :=
  writeString entry.1 ++ (writeString entry.2.value ++ (leBytes 8 entry.2.expiryNs.toNat ++
    (leBytes 8 entry.2.accessCount.toNat ++ leBytes 8 entry.2.lastAccessNs.toNat)))

/-- `SnapshotReader::read_entry`. -/
def readEntry (stream : Bytes) : Option ((Bytes × ValueEntry) × Bytes) := do
  let (key, stream) <- readString stream
  let (value, stream) <- readString stream
  let (expiry, stream) <- readWord 8 stream
  let (accessCount, stream) <- readWord 8 stream
  let (lastAccess, stream) <- readWord 8 stream
  return ((key, ⟨value, UInt64.ofNat accessCount, UInt64.ofNat lastAccess, UInt64.ofNat expiry⟩),
    stream)

/-- An entry as it is read back. -/
def carriedEntry (entry : Bytes × ValueEntry) : Bytes × ValueEntry :=
  (shortString entry.1, { entry.2 with value := shortString entry.2.value })

theorem readEntry_writeEntry (entry : Bytes × ValueEntry) (rest : Bytes) :
    readEntry (writeEntry entry ++ rest) = some (carriedEntry entry, rest) := by
  have word : forall value : UInt64, value.toNat % 256 ^ 8 = value.toNat :=
    fun value => Nat.mod_eq_of_lt (UInt64.toNat_lt value)
  simp only [writeEntry, List.append_assoc, readEntry, readString_append, readWord_append, word,
    Option.bind_eq_bind, Option.bind_some, Option.pure_def, UInt64.ofNat_toNat]
  rfl

theorem writeEntry_readEntry {stream rest : Bytes} {entry : Bytes × ValueEntry}
    (read : readEntry stream = some (entry, rest)) :
    stream = writeEntry entry ++ rest ∧ carriedEntry entry = entry := by
  simp only [readEntry, Option.bind_eq_bind, Option.bind_eq_some_iff, Option.pure_def,
    Option.some.injEq] at read
  rcases read with ⟨⟨key, afterKey⟩, keyRead, ⟨value, afterValue⟩, valueRead,
    ⟨expiry, afterExpiry⟩, expiryRead, ⟨count, afterCount⟩, countRead, ⟨last, after⟩,
      lastRead, result⟩
  cases result
  rcases readString_eq_some keyRead with ⟨rfl, keyShort⟩
  rcases readString_eq_some valueRead with ⟨rfl, valueShort⟩
  rcases readWord_eq_some.mp expiryRead with ⟨rfl, expirySmall⟩
  rcases readWord_eq_some.mp countRead with ⟨rfl, countSmall⟩
  rcases readWord_eq_some.mp lastRead with ⟨rfl, lastSmall⟩
  have word : forall {value : Nat}, value < 256 ^ 8 -> (UInt64.ofNat value).toNat = value := by
    intro value small
    rw [UInt64.toNat_ofNat']
    exact Nat.mod_eq_of_lt small
  constructor
  · simp only [writeEntry, List.append_assoc, word expirySmall, word countSmall, word lastSmall]
  · simp only [carriedEntry, keyShort, valueShort]

theorem writeEntry_ne_nil (entry : Bytes × ValueEntry) : writeEntry entry ≠ [] := by
  intro empty
  have length := congrArg List.length empty
  simp only [writeEntry, List.length_append, length_leBytes, List.length_nil] at length
  omega

def snapshotCodec : Codec (Bytes × ValueEntry) where
  encode := writeEntry
  decode := readEntry
  carried := carriedEntry
  decode_encode := readEntry_writeEntry
  encode_decode := writeEntry_readEntry
  encode_ne_nil := writeEntry_ne_nil

/-! ## Writing -/

/-- `SNAPSHOT_MAGIC`. -/
def snapshotMagic : Bytes := leBytes 8 0x4B56534E41503031

/-- The zero that is first written for the checksum. -/
def placeholderCrc : Bytes := leBytes 8 0

/-- The entries of a table, as `for_each` passes them on. -/
def snapshotEntries (t : HashTable P) : List (Bytes × ValueEntry) :=
  t.entries.map fun kv => (kv.key, kv.value)

/-- The bytes behind the checksum. -/
def snapshotPayload (t : HashTable P) : Bytes :=
  leBytes 8 t.numEntries ++ snapshotCodec.encodeAll (snapshotEntries t)

/-- A snapshot with the given bytes in the place of the checksum. -/
def snapshotWith (t : HashTable P) (crc : Bytes) : Bytes :=
  snapshotMagic ++ (crc ++ snapshotPayload t)

def snapshotCrc (t : HashTable P) : UInt64 := crcUpdate crcInit (snapshotMagic ++ snapshotPayload t)

/-- The bytes of the checksum. -/
def snapshotCrcBytes (t : HashTable P) : Bytes := leBytes 8 (snapshotCrc t).toNat

/-- `create_snapshot`: the file that `SnapshotWriter::write` leaves. -/
def createSnapshot (t : HashTable P) : Bytes := snapshotWith t (snapshotCrcBytes t)

/-- The file after the first `written` bytes of `SnapshotWriter::write`, the
last eight of which go to the place of the checksum. -/
def snapshotAfter (t : HashTable P) (written : Nat) : Bytes :=
  let body := snapshotWith t placeholderCrc
  if written ≤ body.length then body.take written
  else
    let patched := written - body.length
    snapshotWith t ((snapshotCrcBytes t).take patched ++ placeholderCrc.drop patched)

/-! ## Reading -/

/-- What stands in the local variables of `SnapshotReader::read`. -/
structure Uninitialised where
  magic : Bytes
  numEntries : Bytes
  length_magic : magic.length = 8
  length_numEntries : numEntries.length = 8

/-- `file_.read` into a variable of eight bytes: what the file still has
replaces the first bytes of the variable. -/
def readOver (old stream : Bytes) : Bytes × Bytes :=
  (stream.take 8 ++ old.drop (stream.take 8).length, stream.drop 8)

/-- The loop over the entries, with the checksum. -/
def readEntries : Nat -> HashTable P -> Bytes -> UInt64 -> HashTable P × Bool × UInt64
  | 0, t, _, crc => (t, true, crc)
  | count + 1, t, stream, crc =>
      match readEntry stream with
      | none => (t, false, crc)
      | some (entry, stream) =>
          readEntries count (t.insert entry.1 entry.2) stream (crcUpdate crc (writeEntry entry))

/-- `load_snapshot`, which changes the table also where it returns false. -/
def loadSnapshot (garbage : Uninitialised) (t : HashTable P) (file : Bytes) : HashTable P × Bool :=
  let (magic, stream) := readOver garbage.magic file
  if magic ≠ snapshotMagic then (t, false)
  else
    let (storedCrc, stream) := readOver placeholderCrc stream
    let (numEntries, stream) := readOver garbage.numEntries stream
    let crc := crcUpdate (crcUpdate crcInit magic) numEntries
    let (t, success, crc) := readEntries (leValue numEntries) t stream crc
    (t, success && decide (crc.toNat = leValue storedCrc))

/-- The entries put into a table one after the other. -/
def insertAll (t : HashTable P) (entries : List (Bytes × ValueEntry)) : HashTable P :=
  entries.foldl (fun t entry => t.insert entry.1 entry.2) t

variable {t : HashTable P}

theorem readEntries_of_some {count : Nat} {stream rest : Bytes} {crc : UInt64}
    {entries : List (Bytes × ValueEntry)}
    (decoded : snapshotCodec.decodeCount count stream = some (entries, rest)) :
    readEntries count t stream crc =
      (insertAll t entries, true, crcUpdate crc (snapshotCodec.encodeAll entries)) := by
  induction count generalizing t stream crc entries with
  | zero =>
      cases decoded
      rfl
  | succ count ih =>
      rw [Codec.decodeCount, Option.bind_eq_some_iff] at decoded
      rcases decoded with ⟨⟨entry, after⟩, first, later⟩
      rcases Option.map_eq_some_iff.mp later with ⟨⟨others, remaining⟩, laterDecoded, result⟩
      cases result
      have firstRead : readEntry stream = some (entry, after) := first
      rw [readEntries, firstRead]
      simp only
      rw [ih laterDecoded, ← crcUpdate_append]
      rfl

theorem readEntries_of_none {count : Nat} {stream : Bytes} {crc : UInt64}
    (failed : snapshotCodec.decodeCount count stream = none) :
    (readEntries count t stream crc).2.1 = false := by
  induction count generalizing t stream crc with
  | zero => cases failed
  | succ count ih =>
      rw [readEntries]
      cases first : readEntry stream with
      | none => rfl
      | some parts =>
          have firstDecoded : snapshotCodec.decode stream = some parts := first
          rw [Codec.decodeCount, firstDecoded, Option.bind_some, Option.map_eq_none_iff] at failed
          exact ih failed

/-! ## Reading what was written -/

@[simp] theorem length_snapshotMagic : snapshotMagic.length = 8 := length_leBytes _ _

@[simp] theorem length_placeholderCrc : placeholderCrc.length = 8 := length_leBytes _ _

@[simp] theorem length_snapshotCrcBytes (t : HashTable P) : (snapshotCrcBytes t).length = 8 :=
  length_leBytes _ _

theorem readOver_append {old word : Bytes} (oldLength : old.length = 8)
    (wordLength : word.length = 8) (stream : Bytes) :
    readOver old (word ++ stream) = (word, stream) := by
  have start : (word ++ stream).take 8 = word := wordLength ▸ List.take_left
  have behind : (word ++ stream).drop 8 = stream := wordLength ▸ List.drop_left
  rw [readOver, start, behind, wordLength, ← oldLength, List.drop_length, List.append_nil]

variable {crc : Bytes}

/-- Behind a complete header the entries are read. -/
theorem loadSnapshot_header {count : Nat} (counted : count < 2 ^ 64) (garbage : Uninitialised)
    (fresh : HashTable P) (crcLength : crc.length = 8) (stream : Bytes) :
    loadSnapshot garbage fresh (snapshotMagic ++ (crc ++ (leBytes 8 count ++ stream))) =
      let read :=
        readEntries count fresh stream (crcUpdate crcInit (snapshotMagic ++ leBytes 8 count))
      (read.1, read.2.1 && decide (read.2.2.toNat = leValue crc)) := by
  have number : leValue (leBytes 8 count) = count := by
    rw [leValue_leBytes]
    exact Nat.mod_eq_of_lt counted
  rw [loadSnapshot, readOver_append garbage.length_magic length_snapshotMagic]
  simp only [ne_eq, not_true_eq_false, if_false]
  rw [readOver_append length_placeholderCrc crcLength]
  simp only
  rw [readOver_append garbage.length_numEntries (length_leBytes _ _), crcUpdate_append]
  simp only [number]

/-- Complete entries are all put into the table, and accepted when the checksum is the right
one. -/
theorem loadSnapshot_entries {entries : List (Bytes × ValueEntry)}
    (counted : entries.length < 2 ^ 64) (garbage : Uninitialised) (fresh : HashTable P)
    (crcLength : crc.length = 8) :
    loadSnapshot garbage fresh
        (snapshotMagic ++ (crc ++ (leBytes 8 entries.length ++ snapshotCodec.encodeAll entries))) =
      (insertAll fresh (entries.map carriedEntry),
        decide ((crcUpdate crcInit (snapshotMagic ++ (leBytes 8 entries.length ++
          snapshotCodec.encodeAll entries))).toNat = leValue crc)) := by
  have decoded := snapshotCodec.decodeCount_encodeAll entries []
  rw [List.append_nil] at decoded
  have carried : snapshotCodec.encodeAll (entries.map carriedEntry) =
      snapshotCodec.encodeAll entries :=
    snapshotCodec.encodeAll_map_carried entries
  rw [loadSnapshot_header counted garbage fresh crcLength, readEntries_of_some decoded]
  simp only [Bool.true_and]
  change (_, decide ((crcUpdate _ (snapshotCodec.encodeAll (entries.map carriedEntry))).toNat = _)) = _
  rw [carried, ← crcUpdate_append, List.append_assoc]
  rfl

theorem WF.length_snapshotEntries (wf : t.WF) : (snapshotEntries t).length = t.numEntries := by
  rw [snapshotEntries, List.length_map, wf.count]

/-- A snapshot with any checksum is read entry by entry, and accepted when the
checksum is the right one. -/
theorem loadSnapshot_snapshotWith (wf : t.WF) (counted : t.numEntries < 2 ^ 64)
    (garbage : Uninitialised) (fresh : HashTable P) (crcLength : crc.length = 8) :
    loadSnapshot garbage fresh (snapshotWith t crc) =
      (insertAll fresh ((snapshotEntries t).map carriedEntry),
          decide ((snapshotCrc t).toNat = leValue crc)) := by
  have length := WF.length_snapshotEntries wf
  have read := loadSnapshot_entries (length ▸ counted) garbage fresh crcLength
  rw [length] at read
  exact read

theorem leValue_snapshotCrcBytes (t : HashTable P) :
    leValue (snapshotCrcBytes t) = (snapshotCrc t).toNat := by
  rw [snapshotCrcBytes, leValue_leBytes]
  exact Nat.mod_eq_of_lt (UInt64.toNat_lt _)

theorem loadSnapshot_createSnapshot (wf : t.WF) (counted : t.numEntries < 2 ^ 64)
    (garbage : Uninitialised) (fresh : HashTable P) :
    loadSnapshot garbage fresh (createSnapshot t) =
      (insertAll fresh ((snapshotEntries t).map carriedEntry), true) := by
  rw [createSnapshot, loadSnapshot_snapshotWith wf counted garbage fresh (length_snapshotCrcBytes t),
    leValue_snapshotCrcBytes, decide_eq_true rfl]

/-! ## Interrupted writes -/

/-- A variable that already holds the bytes of a word keeps them when it is read
from a part of that word. -/
theorem readOver_take_self {word : Bytes} (wordLength : word.length = 8) (rest : Bytes)
    (count : Nat) :
    (readOver word ((word ++ rest).take count)).1 = word := by
  have start : ((word ++ rest).take count).take 8 = word.take (min 8 count) := by
    rw [List.take_take, List.take_append_of_le_length (by omega)]
  rw [readOver, start, List.length_take]
  have length : min (min 8 count) word.length = min 8 count := by omega
  rw [length, List.take_append_drop]

theorem length_readOver {old : Bytes} (oldLength : old.length = 8) (stream : Bytes) :
    (readOver old stream).1.length = 8 := by
  rw [readOver, List.length_append, List.length_drop, List.length_take]
  omega

theorem readEntries_nil {count : Nat} {crc : UInt64}
    (success : (readEntries count t [] crc).2.1 = true) :
    count = 0 ∧ (readEntries count t [] crc).2.2 = crc := by
  cases count with
  | zero => exact ⟨rfl, rfl⟩
  | succ count =>
      have failed : readEntry [] = none := rfl
      rw [readEntries, failed] at success
      cases success

/-- The checksum of a header that promises no entries is not zero. -/
theorem crc_empty_header :
    (crcUpdate (crcUpdate crcInit snapshotMagic) (leBytes 8 0)).toNat ≠ leValue placeholderCrc := by
  decide

/-- A file that ends inside the header is rejected, whatever stands in the
variables of the reader. -/
theorem loadSnapshot_short (garbage : Uninitialised) (t fresh : HashTable P) {written : Nat}
    (short : written < 24) :
    (loadSnapshot garbage fresh ((snapshotWith t placeholderCrc).take written)).2 = false := by
  rw [Bool.eq_false_iff]
  intro accepted
  generalize file : (snapshotWith t placeholderCrc).take written = bytes at accepted
  have length : bytes.length < 24 := by
    rw [← file, List.length_take]
    omega
  have stored : (readOver placeholderCrc (readOver garbage.magic bytes).2).1 = placeholderCrc := by
    have behind : (readOver garbage.magic bytes).2 =
        (placeholderCrc ++ snapshotPayload t).take (written - 8) := by
      change bytes.drop 8 = _
      rw [← file, snapshotWith, List.drop_take, ← length_snapshotMagic, List.drop_left]
    rw [behind]
    exact readOver_take_self length_placeholderCrc _ _
  have ended : (readOver garbage.numEntries
      (readOver placeholderCrc (readOver garbage.magic bytes).2).2).2 = [] := by
    change ((bytes.drop 8).drop 8).drop 8 = []
    rw [List.drop_drop, List.drop_drop]
    exact List.drop_eq_nil_of_le (by omega)
  rw [loadSnapshot] at accepted
  simp only at accepted
  split at accepted
  · cases accepted
  · rename_i sameMagic
    rw [not_not] at sameMagic
    rw [stored, ended, sameMagic, Bool.and_eq_true, decide_eq_true_eq] at accepted
    rcases readEntries_nil accepted.1 with ⟨none, unchanged⟩
    rw [unchanged] at accepted
    have zero : (readOver garbage.numEntries
        (readOver placeholderCrc (readOver garbage.magic bytes).2).2).1 =
        leBytes 8 0 := by
      rw [← none, ← length_readOver garbage.length_numEntries, leBytes_leValue]
    rw [zero] at accepted
    exact crc_empty_header accepted.2

/-- A file that ends inside the entries is rejected. -/
theorem loadSnapshot_torn (wf : t.WF) (counted : t.numEntries < 2 ^ 64) (garbage : Uninitialised)
    (fresh : HashTable P) (crcLength : crc.length = 8) {written : Nat} (header : 24 ≤ written)
    (torn : written < (snapshotWith t crc).length) :
    (loadSnapshot garbage fresh ((snapshotWith t crc).take written)).2 = false := by
  have file : (snapshotWith t crc).take written = snapshotMagic ++ (crc ++
      (leBytes 8 t.numEntries ++ (snapshotCodec.encodeAll (snapshotEntries t)).take
          (written - 24))) := by
    rw [snapshotWith, snapshotPayload, List.take_append, List.take_append, List.take_append,
      List.take_of_length_le (by rw [length_snapshotMagic]; omega),
      List.take_of_length_le (by rw [length_snapshotMagic, crcLength]; omega),
      List.take_of_length_le (by rw [length_snapshotMagic, crcLength, length_leBytes]; omega),
      length_snapshotMagic, crcLength, length_leBytes, Nat.sub_sub, Nat.sub_sub]
  have missing : (snapshotCodec.encodeAll (snapshotEntries t)).drop (written - 24) ≠ [] := by
    apply List.ne_nil_of_length_pos
    rw [snapshotWith, snapshotPayload, List.length_append, List.length_append, List.length_append,
      length_snapshotMagic, crcLength, length_leBytes] at torn
    rw [List.length_drop]
    omega
  have failed := snapshotCodec.decodeCount_torn (List.take_append_drop (written - 24) _).symm missing
  rw [WF.length_snapshotEntries wf] at failed
  rw [file, loadSnapshot_header counted garbage fresh crcLength]
  simp only [readEntries_of_none failed, Bool.false_and]

/-- The file after the last byte is the snapshot. -/
theorem snapshotAfter_all (t : HashTable P) {written : Nat}
    (all : (snapshotWith t placeholderCrc).length + 8 ≤ written) :
    snapshotAfter t written = createSnapshot t := by
  rw [snapshotAfter]
  simp only
  rw [if_neg (by omega), List.take_of_length_le (by rw [length_snapshotCrcBytes]; omega),
    List.drop_eq_nil_of_le (by rw [length_placeholderCrc]; omega), List.append_nil, createSnapshot]

/-- Two words of eight bytes are equal when their values are. -/
theorem eq_of_leValue_eq {first second : Bytes} (firstLength : first.length = 8)
    (secondLength : second.length = 8) (same : leValue first = leValue second) :
    first = second := by
  rw [← leBytes_leValue first, ← leBytes_leValue second, firstLength, secondLength, same]

/-- A snapshot whose entries are complete is accepted exactly when it is
complete as a whole. -/
theorem loadSnapshot_snapshotWith_iff (wf : t.WF) (counted : t.numEntries < 2 ^ 64)
    (garbage : Uninitialised) (fresh : HashTable P) (crcLength : crc.length = 8) :
    (loadSnapshot garbage fresh (snapshotWith t crc)).2 = true <->
      snapshotWith t crc = createSnapshot t := by
  rw [loadSnapshot_snapshotWith wf counted garbage fresh crcLength, decide_eq_true_eq,
    ← leValue_snapshotCrcBytes]
  constructor
  · intro sameValue
    rw [createSnapshot, eq_of_leValue_eq (length_snapshotCrcBytes t) crcLength sameValue]
  · intro sameFile
    have sameCrc := (List.append_inj (List.append_cancel_left sameFile)
      (by rw [crcLength, length_snapshotCrcBytes])).1
    rw [sameCrc]

/-- Loading an interrupted snapshot succeeds exactly when the file is the
complete snapshot, which is then read. -/
theorem loadSnapshot_snapshotAfter (wf : t.WF) (counted : t.numEntries < 2 ^ 64)
    (garbage : Uninitialised) (fresh : HashTable P) (written : Nat) :
    ((loadSnapshot garbage fresh (snapshotAfter t written)).2 = true <->
      snapshotAfter t written = createSnapshot t) := by
  have whole : (createSnapshot t).length = (snapshotWith t placeholderCrc).length := by
    simp only [createSnapshot, snapshotWith, List.length_append, length_snapshotCrcBytes,
      length_placeholderCrc]
  rw [snapshotAfter]
  simp only
  split
  · rename_i early
    rcases Nat.lt_or_ge written (snapshotWith t placeholderCrc).length with torn | complete
    · refine iff_of_false ?_ ?_
      · rw [Bool.not_eq_true]
        rcases Nat.lt_or_ge written 24 with short | header
        · exact loadSnapshot_short garbage t fresh short
        · exact loadSnapshot_torn wf counted garbage fresh length_placeholderCrc header torn
      · intro same
        have lengths := congrArg List.length same
        rw [whole, List.length_take] at lengths
        omega
    · rw [List.take_of_length_le complete]
      exact loadSnapshot_snapshotWith_iff wf counted garbage fresh length_placeholderCrc
  · apply loadSnapshot_snapshotWith_iff wf counted garbage fresh
    rw [List.length_append, List.length_take, List.length_drop, length_snapshotCrcBytes,
      length_placeholderCrc]
    omega

end Engine
end KVStore
