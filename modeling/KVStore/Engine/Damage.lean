import KVStore.Engine.Reload
import KVStore.Library.ShiftRegister

namespace KVStore
namespace Engine

open Framing HashTable ShiftRegister

variable {P : Platform}

/-!
# Damaged snapshots

A snapshot file of which a part is missing, or of which some bytes were changed.

The header says how many entries follow, and an entry says how long its strings are,
so that a file that ends too early is never read to the end.

Changed bytes of a value are left to the checksum.  `CRC64` shifts its register to the
right, but its polynomial is written for a register that is shifted to the left: the
high bit is clear.  The register therefore loses a bit, and one difference of eight
bytes leaves the checksum as it was.  All other differences in a window of eight bytes
are found.
-/

/-! ## The checksum as a shift register -/

/-- One step of the loop in `init_table`. -/
theorem toBitVec_crcStep (crc : UInt64) :
    (if crc &&& 1 = 1 then (crc >>> 1) ^^^ crcPoly else crc >>> 1).toBitVec =
        shift crcPoly.toBitVec crc.toBitVec := by
  have low : crc &&& 1 = 1 <-> crc.toBitVec.getLsbD 0 = true := by
    rw [getLsbD_zero_iff, ← UInt64.toNat_inj, UInt64.toNat_and]
    exact Eq.congr_left (Nat.and_one_is_mod _)
  rw [shift]
  simp only [low]
  split <;> rfl

theorem toBitVec_toUInt64 (byte : UInt8) : byte.toUInt64.toBitVec = BitVec.ofNat 64 byte.toNat := by
  apply BitVec.eq_of_toNat_eq
  simp

theorem toBitVec_crcTable (index : UInt8) :
    (crcTable index).toBitVec = (shift crcPoly.toBitVec)^[8] (BitVec.ofNat 64 index.toNat) := by
  have steps : crcTable index =
      (fun crc : UInt64 => if crc &&& 1 = 1 then (crc >>> 1) ^^^ crcPoly else crc >>> 1)^[8]
      index.toUInt64 :=
    List.foldl_const _ _ (List.range 8)
  have commutes := Function.Semiconj.iterate_right (f := UInt64.toBitVec) toBitVec_crcStep 8
  rw [steps, commutes.eq, toBitVec_toUInt64]

theorem toBitVec_crcUpdate (crc : UInt64) (bytes : Bytes) :
    (crcUpdate crc bytes).toBitVec = feed crcPoly.toBitVec crc.toBitVec bytes := by
  induction bytes generalizing crc with
  | nil => rfl
  | cons byte bytes ih =>
      have byteStep : ((crc >>> 8) ^^^ crcTable (crc ^^^ byte.toUInt64).toUInt8).toBitVec =
          feedByte crcPoly.toBitVec crc.toBitVec byte := by
        have input : (crc ^^^ byte.toUInt64).toBitVec =
            crc.toBitVec ^^^ BitVec.ofNat 64 byte.toNat := by
          rw [UInt64.toBitVec_xor, toBitVec_toUInt64]
        have high : (crc >>> 8).toBitVec = (crc ^^^ byte.toUInt64).toBitVec >>> 8 := by
          have small : BitVec.ofNat 64 byte.toNat >>> 8 = 0#64 := by
            apply BitVec.eq_of_toNat_eq
            simpa [Nat.shiftRight_eq_div_pow] using UInt8.toNat_lt byte
          rw [input, BitVec.ushiftRight_xor_distrib, small, BitVec.xor_zero]
          rfl
        have index : (crc ^^^ byte.toUInt64).toUInt8.toNat =
            (crc ^^^ byte.toUInt64).toBitVec.toNat % 2 ^ 8 :=
          UInt64.toNat_toUInt8 _
        rw [feedByte, iterate_shift_eq_low, UInt64.toBitVec_xor, toBitVec_crcTable,
          high, index, input]
      exact (ih _).trans (congrArg (fun register => feed crcPoly.toBitVec register bytes) byteStep)

/-- The bytes of a difference that the checksum does not see. -/
def undetected : Bytes := [0x27, 0x6D, 0xD4, 0x53, 0xD7, 0xC3, 0xE1, 0x85]

theorem oneShort_crcPoly : OneShort crcPoly.toBitVec := by decide

theorem word_undetected : word 64 undetected = lost crcPoly.toBitVec := by decide

theorem length_difference {first second : Bytes} (same : first.length = second.length) :
    (difference first second).length = first.length := by
  rw [difference, List.length_zipWith, same, Nat.min_self]

variable {bytes : Bytes}

/-- Shorter bytes do not reach the high bit of the lost difference. -/
theorem word_eq_lost_iff (short : bytes.length ≤ 8) :
    word 64 bytes = lost crcPoly.toBitVec <-> bytes = undetected := by
  rw [← word_undetected]
  constructor
  · intro equal
    rcases Nat.lt_or_eq_of_le short with shorter | whole
    · have bound : leValue bytes < 2 ^ 56 := leValue_lt_of_fits (by omega)
      have values := congrArg BitVec.toNat equal
      rw [word, BitVec.toNat_ofNat, Nat.mod_eq_of_lt (by omega)] at values
      have large : (word 64 undetected).toNat = 0x85E1C3D753D46D27 := by decide
      omega
    · exact word_injective whole (by omega) equal
  · rintro rfl
    rfl

/-- Two different byte strings that differ in a window of eight bytes have the same checksum
exactly when they differ there in the bits of `undetected`. -/
theorem crcUpdate_window_eq_iff (crc : UInt64) (front back : Bytes) {first second : Bytes}
    (same : first.length = second.length) (short : first.length ≤ 8) (different : first ≠ second) :
    crcUpdate crc (front ++ first ++ back) = crcUpdate crc (front ++ second ++ back) <->
      difference first second = undetected := by
  rw [← UInt64.toBitVec_inj, toBitVec_crcUpdate, toBitVec_crcUpdate,
    oneShort_crcPoly.feed_window_eq_iff _ front back same (by omega) different,
    word_eq_lost_iff (length_difference same ▸ short)]

/-! ## The bytes of a value in a snapshot -/

/-- Some bytes are written over those from an offset on. -/
def overwrite (offset : Nat) (bytes file : Bytes) : Bytes :=
  file.take offset ++ bytes ++ file.drop (offset + bytes.length)

/-- Where the value of an entry starts in a snapshot: behind the header, the entries before,
the key and the length of the value. -/
def valueOffset (before : List (Bytes × ValueEntry)) (key : Bytes) : Nat :=
  24 + (snapshotCodec.encodeAll before).length + (writeString key).length + 4

/-- The bytes that stand in front of a value, a checksum apart. -/
def valueFront (count : Nat) (before : List (Bytes × ValueEntry)) (key : Bytes) (length : Nat) :
    Bytes :=
  leBytes 8 count ++ (snapshotCodec.encodeAll before ++ (writeString key ++ leBytes 4 length))

/-- The bytes that stand behind a value. -/
def valueBack (entry : ValueEntry) (after : List (Bytes × ValueEntry)) : Bytes :=
  leBytes 8 entry.expiryNs.toNat ++ (leBytes 8 entry.accessCount.toNat ++
    (leBytes 8 entry.lastAccessNs.toNat ++ snapshotCodec.encodeAll after))

theorem length_valueFront (count : Nat) (before : List (Bytes × ValueEntry)) (key : Bytes)
    (length : Nat) :
    16 + (valueFront count before key length).length = valueOffset before key := by
  simp only [valueFront, valueOffset, List.length_append, length_leBytes]
  omega

theorem encodeAll_split (count : Nat) (before after : List (Bytes × ValueEntry)) (key : Bytes)
    (entry : ValueEntry) :
    leBytes 8 count ++ snapshotCodec.encodeAll (before ++ (key, entry) :: after) =
      valueFront count before key entry.value.length ++ shortString entry.value ++
          valueBack entry after := by
  have one : snapshotCodec.encode (key, entry) = writeEntry (key, entry) := rfl
  simp only [Codec.encodeAll_append, Codec.encodeAll_cons, one, writeEntry, writeString,
    valueFront, valueBack, List.append_assoc]

variable {position : Nat}

theorem length_overwrite {bytes text : Bytes} (inside : position + bytes.length ≤ text.length) :
    (overwrite position bytes text).length = text.length := by
  simp only [overwrite, List.length_append, List.length_take, List.length_drop]
  omega

/-- Bytes that are written inside a part of a file change this part only. -/
theorem overwrite_part {bytes part : Bytes} (front back : Bytes)
    (inside : position + bytes.length ≤ part.length) :
    overwrite (front.length + position) bytes (front ++ part ++ back) = front ++
        overwrite position bytes part ++ back := by
  have start : position ≤ part.length := by omega
  rw [overwrite, overwrite, List.append_assoc front, List.take_append, List.drop_append,
    Nat.add_sub_cancel_left, List.take_of_length_le (Nat.le_add_right _ _),
    List.take_append_of_le_length start, Nat.add_assoc,
    List.drop_eq_nil_of_le (Nat.le_add_right _ _), Nat.add_sub_cancel_left,
      List.drop_append_of_le_length inside]
  simp only [List.append_assoc, List.nil_append]

/-- A change inside a value leaves all lengths as they are. -/
theorem encodeAll_overwrite (count : Nat) (before after : List (Bytes × ValueEntry)) (key : Bytes)
    (entry : ValueEntry) (inside : position + bytes.length ≤ (shortString entry.value).length) :
    leBytes 8 count ++ snapshotCodec.encodeAll
        (before ++ (key, { entry with value := overwrite position bytes (shortString entry.value) })
          :: after) =
      valueFront count before key entry.value.length ++
        overwrite position bytes (shortString entry.value) ++ valueBack entry after := by
  have sameLength := length_overwrite inside
  have fits : shortString (overwrite position bytes (shortString entry.value)) =
      overwrite position bytes (shortString entry.value) := by
    rw [shortString_eq_self_iff, sameLength, length_shortString]
    exact Nat.mod_lt _ (by decide)
  have sameFront : valueFront count before key
      (overwrite position bytes (shortString entry.value)).length =
      valueFront count before key entry.value.length := by
    rw [sameLength, length_shortString, valueFront, leBytes_mod, valueFront]
  rw [encodeAll_split]
  simp only [sameFront, fits]
  rfl

/-- The snapshot of a table in which some bytes of a value were changed is the snapshot of other
entries with the old checksum. -/
theorem overwrite_createSnapshot {t : HashTable P} {before after : List (Bytes × ValueEntry)}
    {key : Bytes} {entry : ValueEntry} (split : snapshotEntries t = before ++ (key, entry) :: after)
    (inside : position + bytes.length ≤ (shortString entry.value).length) :
    overwrite (valueOffset before key + position) bytes (createSnapshot t) =
      snapshotMagic ++ (snapshotCrcBytes t ++ (leBytes 8 t.numEntries ++ snapshotCodec.encodeAll
        (before ++ (key, { entry with value := overwrite position bytes (shortString entry.value) })
            :: after))) := by
  have file : createSnapshot t = (snapshotMagic ++ (snapshotCrcBytes t ++
      valueFront t.numEntries before key entry.value.length)) ++ shortString entry.value ++
          valueBack entry after := by
    rw [createSnapshot, snapshotWith, snapshotPayload, split, encodeAll_split]
    simp only [List.append_assoc]
  have offset : valueOffset before key = (snapshotMagic ++ (snapshotCrcBytes t ++
      valueFront t.numEntries before key entry.value.length)).length := by
    rw [← length_valueFront t.numEntries before key entry.value.length, List.length_append,
      List.length_append, length_snapshotMagic, length_snapshotCrcBytes]
    omega
  rw [file, offset, overwrite_part _ _ inside, encodeAll_overwrite _ _ _ _ _ inside]
  simp only [List.append_assoc]

/-- The changed snapshot is accepted exactly when the checksum of the changed bytes is the same. -/
theorem loadSnapshot_overwrite {t : HashTable P} (wf : t.WF) (counted : t.numEntries < 2 ^ 64)
    (garbage : Uninitialised) (other : HashTable P) {before after : List (Bytes × ValueEntry)}
    {key : Bytes} {entry : ValueEntry} (split : snapshotEntries t = before ++ (key, entry) :: after)
    (inside : position + bytes.length ≤ (shortString entry.value).length) :
    (loadSnapshot garbage other
      (overwrite (valueOffset before key + position) bytes (createSnapshot t))).2 = true <->
      crcUpdate crcInit (snapshotMagic ++ (leBytes 8 t.numEntries ++ snapshotCodec.encodeAll
        (before ++ (key, { entry with value := overwrite position bytes (shortString entry.value) })
          :: after))) =
      snapshotCrc t := by
  let changed := before ++
    (key, { entry with value := overwrite position bytes (shortString entry.value) }) :: after
  have length : changed.length = t.numEntries := by
    rw [← WF.length_snapshotEntries wf, split]
    simp only [changed, List.length_append, List.length_cons]
  have read := loadSnapshot_entries (length ▸ counted) garbage other (length_snapshotCrcBytes t)
  rw [length] at read
  rw [overwrite_createSnapshot split inside, read, decide_eq_true_eq, leValue_snapshotCrcBytes,
    UInt64.toNat_inj]

/-- The bytes of a value that a change replaces. -/
def replaced (position : Nat) (bytes value : Bytes) : Bytes :=
  (value.drop position).take bytes.length

theorem length_replaced {bytes value : Bytes} (inside : position + bytes.length ≤ value.length) :
    (replaced position bytes value).length = bytes.length := by
  simp only [replaced, List.length_take, List.length_drop]
  omega

theorem take_replaced_drop (position : Nat) (bytes value : Bytes) :
    value.take position ++ replaced position bytes value ++
        value.drop (position + bytes.length) = value := by
  rw [replaced, List.append_assoc, ← List.drop_drop, List.take_append_drop, List.take_append_drop]

/-- A change of a value in a snapshot is found exactly when it is not in the bits of
`undetected`. -/
theorem loadSnapshot_burst_iff {t : HashTable P} (wf : t.WF) (counted : t.numEntries < 2 ^ 64)
    (garbage : Uninitialised) (other : HashTable P) {before after : List (Bytes × ValueEntry)}
    {key : Bytes} {entry : ValueEntry} (split : snapshotEntries t = before ++ (key, entry) :: after)
    (inside : position + bytes.length ≤ (shortString entry.value).length) (short : bytes.length ≤ 8)
    (different : replaced position bytes (shortString entry.value) ≠ bytes) :
    (loadSnapshot garbage other
      (overwrite (valueOffset before key + position) bytes (createSnapshot t))).2 = true <->
      difference (replaced position bytes (shortString entry.value)) bytes = undetected := by
  let value := shortString entry.value
  let front := snapshotMagic ++
    (valueFront t.numEntries before key entry.value.length ++ value.take position)
  let back := value.drop (position + bytes.length) ++ valueBack entry after
  have sameLength : (replaced position bytes value).length = bytes.length := length_replaced inside
  have original : snapshotCrc t =
      crcUpdate crcInit (front ++ replaced position bytes value ++ back) := by
    have whole : shortString entry.value = value.take position ++ replaced position bytes value ++
      value.drop (position + bytes.length) := (take_replaced_drop position bytes value).symm
    rw [snapshotCrc, snapshotPayload, split, encodeAll_split, whole]
    simp only [front, back, List.append_assoc]
  have changed : crcUpdate crcInit
      (snapshotMagic ++ (leBytes 8 t.numEntries ++
        snapshotCodec.encodeAll
        (before ++ (key, { entry with value := overwrite position bytes value }) :: after))) =
        crcUpdate crcInit (front ++ bytes ++ back) := by
    rw [encodeAll_overwrite _ _ _ _ _ inside, overwrite]
    simp only [front, back, value, List.append_assoc]
  rw [loadSnapshot_overwrite wf counted garbage other split inside, changed, original, eq_comm]
  exact crcUpdate_window_eq_iff crcInit front back sameLength (sameLength ▸ short) different

/-! ## Results -/

namespace TableConfig

/-- Every change in a window of at most eight bytes changes the checksum, and a snapshot in which
a value was changed so is rejected, exactly when the changed bits are not those of
`undetected`. -/
theorem burst_detected_iff (config : TableConfig) (P : Platform) (walFile : Option Bytes)
    (calls : List TableCall) (garbage : Uninitialised) (other : HashTable P) :
    (forall front first second back : Bytes, first.length = second.length -> first.length ≤ 8 ->
      first ≠ second ->
      (crcUpdate crcInit (front ++ first ++ back) ≠ crcUpdate crcInit (front ++ second ++ back) <->
        difference first second ≠ undetected)) ∧
      forall (before after : List (Bytes × ValueEntry)) (key : Bytes) (entry : ValueEntry)
        (position : Nat) (bytes : Bytes),
        (runCalls (config.fresh P walFile) calls).numEntries < 2 ^ 64 ->
        snapshotEntries (runCalls (config.fresh P walFile) calls) = before ++ (key, entry) :: after ->
        position + bytes.length ≤ (shortString entry.value).length -> bytes.length ≤ 8 ->
        replaced position bytes (shortString entry.value) ≠ bytes ->
          ((loadSnapshot garbage other (overwrite (valueOffset before key + position) bytes
              (createSnapshot (runCalls (config.fresh P walFile) calls)))).2 = false <->
            difference (replaced position bytes (shortString entry.value)) bytes ≠ undetected) := by
  constructor
  · intro front first second back same short different
    exact not_congr (crcUpdate_window_eq_iff crcInit front back same short different)
  · intro before after key entry position bytes counted split inside short different
    have wf := wf_runCalls (config.wf_fresh (P := P) walFile) calls
    rw [← Bool.not_eq_true]
    exact not_congr (loadSnapshot_burst_iff wf counted garbage other split inside short different)

/-- A table with one value, as a history. -/
def oneValue (value : Bytes) : HashTable Platform.source :=
  runCalls ((⟨16, 1024, .lru⟩ : TableConfig).fresh Platform.source none)
    [.insert [97] (ValueEntry.new value 0)]

/-- One changed byte is found. -/
theorem burst_detected_one_byte :
    crcUpdate crcInit [49] ≠ crcUpdate crcInit [88] ∧
      (loadSnapshot zeroed (oneValue [49])
        (overwrite (valueOffset [] [97]) [88] (createSnapshot (oneValue [49])))).2 =
        false := by
  rcases burst_detected_iff ⟨16, 1024, .lru⟩ Platform.source none
    [.insert [97] (ValueEntry.new [49] 0)] zeroed (oneValue [49]) with ⟨checksums, snapshots⟩
  constructor
  · exact (checksums [] [49] [88] [] rfl (by decide) (by decide)).mpr (by decide)
  · exact (snapshots [] [] [97] (ValueEntry.new [49] 0) 0 [88] (by decide +kernel)
      (by decide +kernel) (by decide) (by decide) (by decide)).mpr (by decide)

/-- Eight zeros and the bytes of `undetected` have the same checksum, and the snapshot of a table
in which the one value was changed to the other is loaded. -/
theorem burst_undetected :
    crcUpdate crcInit (List.replicate 8 0) = crcUpdate crcInit undetected ∧
      (oneValue (List.replicate 8 0)).view [97] = some (List.replicate 8 0, 0) ∧
      (loadSnapshot zeroed (oneValue []) (overwrite (valueOffset [] [97]) undetected
        (createSnapshot (oneValue (List.replicate 8 0))))).2 = true ∧
      (loadSnapshot zeroed (oneValue []) (overwrite (valueOffset [] [97]) undetected
        (createSnapshot (oneValue (List.replicate 8 0))))).1.view [97] = some (undetected, 0) := by
  decide +kernel

/-- A snapshot of a reachable table that lacks some of its last bytes is rejected. -/
theorem truncated_snapshot_rejected (config : TableConfig) (P : Platform) (walFile : Option Bytes)
    (calls : List TableCall)
    (counted : (runCalls (config.fresh P walFile) calls).numEntries < 2 ^ 64)
    (garbage : Uninitialised) (other : HashTable P) (n : Nat) (header : 24 ≤ n)
    (missing : n < (createSnapshot (runCalls (config.fresh P walFile) calls)).length) :
    (loadSnapshot garbage other
      ((createSnapshot (runCalls (config.fresh P walFile) calls)).take n)).2 = false :=
  loadSnapshot_torn (wf_runCalls (config.wf_fresh walFile) calls) counted garbage other
    (length_snapshotCrcBytes _) header missing

/-- The header of a snapshot with one entry. -/
theorem truncated_snapshot_header :
    (loadSnapshot zeroed (oneValue []) ((createSnapshot (oneValue [49])).take 24)).2 = false :=
  truncated_snapshot_rejected ⟨16, 1024, .lru⟩ Platform.source none
    [.insert [97] (ValueEntry.new [49] 0)] (by decide +kernel) zeroed (oneValue []) 24
    (Nat.le_refl 24) (by decide +kernel)

end TableConfig
end Engine
end KVStore
