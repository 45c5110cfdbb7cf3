import Mathlib.Data.List.Basic
import Mathlib.Data.List.Infix
import Mathlib.Data.Nat.Digits.Defs
import Mathlib.Tactic.Ring

namespace KVStore

/-!
# Records on a byte stream

A log or snapshot file is a concatenation of self-delimiting records, read
back one record at a time until a read fails.  This module fixes the little
algebra behind that pattern: fixed-width little-endian words, exact-length
reads, and codecs whose decoder both inverts the encoder and accepts nothing
else.  The two laws of a codec determine what a reader makes of *any* bytes,
including a torn tail and whatever is appended behind it.
-/

/-- Byte strings, in stream order. -/
abbrev Bytes := List UInt8

namespace Framing

/-- Of two cuts of one byte string, the later leaves an extra piece. -/
theorem split_of_length_le {front back early late : Bytes} (same : front ++ back = early ++ late)
    (later : early.length ≤ front.length) :
    Exists fun extra => front = early ++ extra ∧ extra ++ back = late := by
  have start : early <+: front :=
    List.prefix_of_prefix_length_le ⟨late, same.symm⟩ ⟨back, rfl⟩ later
  rcases start with ⟨extra, rfl⟩
  exact ⟨extra, rfl, List.append_cancel_left ((List.append_assoc _ _ _).symm.trans same)⟩

/-! ## Little-endian words -/

/-- The `width` low bytes of a number, least significant byte first. -/
def leBytes : Nat -> Nat -> Bytes
  | 0, _ => []
  | width + 1, value => UInt8.ofNat value :: leBytes width (value / 256)

/-- The number whose little-endian digits are the given bytes. -/
def leValue : Bytes -> Nat
  | [] => 0
  | byte :: bytes => byte.toNat + 256 * leValue bytes

@[simp] theorem length_leBytes (width value : Nat) : (leBytes width value).length = width := by
  induction width generalizing value with
  | zero => rfl
  | succ width ih => simp only [leBytes, List.length_cons, ih]

/-- A word keeps exactly the residue of the number it was written from. -/
theorem leValue_leBytes (width value : Nat) :
    leValue (leBytes width value) = value % 256 ^ width := by
  induction width generalizing value with
  | zero => simp only [leBytes, leValue, Nat.pow_zero, Nat.mod_one]
  | succ width ih =>
      have low : (UInt8.ofNat value).toNat = value % 256 := UInt8.toNat_ofNat'
      rw [leBytes, leValue, ih, low, Nat.pow_succ,
        Nat.mul_comm (256 ^ width) 256, Nat.mod_mul]

theorem leValue_lt (bytes : Bytes) : leValue bytes < 256 ^ bytes.length := by
  induction bytes with
  | nil => exact Nat.one_pos
  | cons byte bytes ih =>
      have low := UInt8.toNat_lt byte
      rw [List.length_cons, Nat.pow_succ, leValue]
      omega

/-- Every byte string is the word of its own value. -/
theorem leBytes_leValue (bytes : Bytes) : leBytes bytes.length (leValue bytes) = bytes := by
  induction bytes with
  | nil => rfl
  | cons byte bytes ih =>
      have low := UInt8.toNat_lt byte
      have head : UInt8.ofNat (byte.toNat + 256 * leValue bytes) = byte := by
        apply UInt8.toNat_inj.mp
        rw [UInt8.toNat_ofNat']
        omega
      have tail : (byte.toNat + 256 * leValue bytes) / 256 = leValue bytes := by omega
      simp only [leValue, List.length_cons, leBytes, head, tail, ih]

/-- A word does not see more of a number than its residue. -/
theorem leBytes_mod (width value : Nat) :
    leBytes width (value % 256 ^ width) = leBytes width value := by
  have own := leBytes_leValue (leBytes width value)
  rw [length_leBytes, leValue_leBytes] at own
  exact own

/-! ## Exact-length reads -/

/-- Read exactly `count` bytes, or fail when the stream holds fewer. -/
def readBytes (count : Nat) (stream : Bytes) : Option (Bytes × Bytes) :=
  if count ≤ stream.length then some (stream.take count, stream.drop count) else none

/-- Read one little-endian word of the given width. -/
def readWord (width : Nat) (stream : Bytes) : Option (Nat × Bytes) :=
  (readBytes width stream).map (fun parts => (leValue parts.1, parts.2))

@[simp] theorem readBytes_append (bytes rest : Bytes) :
    readBytes bytes.length (bytes ++ rest) = some (bytes, rest) := by
  have enough : bytes.length ≤ (bytes ++ rest).length := by
    rw [List.length_append]
    exact Nat.le_add_right _ _
  rw [readBytes, if_pos enough, List.take_left, List.drop_left]

/-- A successful read consumed exactly the bytes it returned. -/
theorem readBytes_eq_some {count : Nat} {stream bytes rest : Bytes} :
    readBytes count stream = some (bytes, rest) <->
      stream = bytes ++ rest ∧ bytes.length = count := by
  constructor
  · intro read
    rw [readBytes] at read
    by_cases enough : count ≤ stream.length
    · rw [if_pos enough] at read
      cases read
      exact ⟨(List.take_append_drop count stream).symm, by rw [List.length_take]; omega⟩
    · rw [if_neg enough] at read
      cases read
  · rintro ⟨rfl, rfl⟩
    exact readBytes_append bytes rest

@[simp] theorem readWord_append (width value : Nat) (rest : Bytes) :
    readWord width (leBytes width value ++ rest) = some (value % 256 ^ width, rest) := by
  have read := readBytes_append (leBytes width value) rest
  rw [length_leBytes] at read
  rw [readWord, read, Option.map_some, leValue_leBytes]

/-- A successful word read consumed exactly the word of its value. -/
theorem readWord_eq_some {width value : Nat} {stream rest : Bytes} :
    readWord width stream = some (value, rest) <->
      stream = leBytes width value ++ rest ∧ value < 256 ^ width := by
  constructor
  · intro read
    rw [readWord, Option.map_eq_some_iff] at read
    rcases read with ⟨⟨bytes, after⟩, taken, result⟩
    cases result
    rcases readBytes_eq_some.mp taken with ⟨rfl, rfl⟩
    exact ⟨by rw [leBytes_leValue], leValue_lt bytes⟩
  · rintro ⟨rfl, small⟩
    rw [readWord_append, Nat.mod_eq_of_lt small]

/-! ## Strings behind a length field -/

/-- The bytes of a string that a length field of four bytes admits: all of it
when it is shorter than 2^32 bytes. -/
def shortString (text : Bytes) : Bytes := text.take (text.length % 256 ^ 4)

def writeString (text : Bytes) : Bytes := leBytes 4 text.length ++ shortString text

def readString (stream : Bytes) : Option (Bytes × Bytes) :=
  (readWord 4 stream).bind fun length => readBytes length.1 length.2

theorem length_shortString (text : Bytes) : (shortString text).length = text.length % 256 ^ 4 := by
  rw [shortString, List.length_take, Nat.min_eq_left (Nat.mod_le _ _)]

theorem shortString_eq_self_iff (text : Bytes) :
    shortString text = text <-> text.length < 256 ^ 4 := by
  constructor
  · intro same
    rw [← same, length_shortString]
    exact Nat.mod_lt _ (by decide)
  · intro short
    rw [shortString, Nat.mod_eq_of_lt short, List.take_length]

theorem shortString_shortString (text : Bytes) :
    shortString (shortString text) = shortString text := by
  rw [shortString_eq_self_iff, length_shortString]
  exact Nat.mod_lt _ (by decide)

@[simp] theorem readString_append (text rest : Bytes) :
    readString (writeString text ++ rest) = some (shortString text, rest) := by
  have read := readBytes_append (shortString text) rest
  rw [length_shortString] at read
  rw [readString, writeString, List.append_assoc, readWord_append, Option.bind_some, read]

theorem readString_eq_some {stream text rest : Bytes}
    (read : readString stream = some (text, rest)) :
    stream = writeString text ++ rest ∧ shortString text = text := by
  rw [readString, Option.bind_eq_some_iff] at read
  rcases read with ⟨⟨length, after⟩, word, data⟩
  rcases readWord_eq_some.mp word with ⟨rfl, small⟩
  rcases readBytes_eq_some.mp data with ⟨dataShape, lengthShape⟩
  change after = text ++ rest at dataShape
  change text.length = length at lengthShape
  have short : shortString text = text := (shortString_eq_self_iff text).mpr (lengthShape ▸ small)
  rw [dataShape, writeString, short, lengthShape, List.append_assoc]
  exact ⟨rfl, rfl⟩

/-! ## Codecs -/

/-- A self-delimiting encoding.  `carried` is the value as it is read back: a
length field of bounded width loses a part of the values that do not fit it.
The second law makes the decoder canonical, so that a decoded value accounts
for every byte consumed. -/
structure Codec (α : Type) where
  encode : α -> Bytes
  decode : Bytes -> Option (α × Bytes)
  carried : α -> α
  decode_encode : forall value rest, decode (encode value ++ rest) = some (carried value, rest)
  encode_decode : forall {stream value rest},
    decode stream = some (value, rest) -> stream = encode value ++ rest ∧ carried value = value
  encode_ne_nil : forall value, encode value ≠ []

namespace Codec

variable {α : Type} (codec : Codec α)

/-- The values that are read back as they were written. -/
def Fits (value : α) : Prop := codec.carried value = value

theorem decode_shrinks {stream rest : Bytes} {value : α}
    (decoded : codec.decode stream = some (value, rest)) : rest.length < stream.length := by
  have nonempty := List.length_pos_iff.mpr (codec.encode_ne_nil value)
  rw [(codec.encode_decode decoded).1, List.length_append]
  omega

/-- The bytes of a list of records. -/
def encodeAll (values : List α) : Bytes := (values.map codec.encode).flatten

/-- Decode record after record until one fails. -/
def decodeAll (stream : Bytes) : List α :=
  match decoded : codec.decode stream with
  | none => []
  | some (value, rest) =>
      have := codec.decode_shrinks decoded
      value :: decodeAll rest
termination_by stream.length

@[simp] theorem encodeAll_nil : codec.encodeAll [] = [] := rfl

@[simp] theorem encodeAll_cons (value : α) (values : List α) :
    codec.encodeAll (value :: values) = codec.encode value ++ codec.encodeAll values := rfl

@[simp] theorem encodeAll_append (first second : List α) :
    codec.encodeAll (first ++ second) = codec.encodeAll first ++ codec.encodeAll second := by
  simp only [encodeAll, List.map_append, List.flatten_append]

theorem decodeAll_of_none {stream : Bytes} (failed : codec.decode stream = none) :
    codec.decodeAll stream = [] := by
  rw [decodeAll]
  split
  · rfl
  · rename_i found
    rw [failed] at found
    cases found

theorem decodeAll_of_some {stream rest : Bytes} {value : α}
    (decoded : codec.decode stream = some (value, rest)) :
    codec.decodeAll stream = value :: codec.decodeAll rest := by
  rw [decodeAll]
  split
  · rename_i failed
    rw [decoded] at failed
    cases failed
  · rename_i found
    rw [decoded] at found
    cases found
    rfl

theorem encode_carried (value : α) : codec.encode (codec.carried value) = codec.encode value := by
  have read := codec.encode_decode (codec.decode_encode value [])
  rw [List.append_nil, List.append_nil] at read
  exact read.1.symm

theorem encodeAll_map_carried (values : List α) :
    codec.encodeAll (values.map codec.carried) = codec.encodeAll values := by
  rw [encodeAll, encodeAll, List.map_map]
  exact congrArg List.flatten (List.map_congr_left fun value _ => codec.encode_carried value)

/-- Complete records at the front of a stream are all recovered; what is
decoded behind them depends on the remaining bytes only. -/
theorem decodeAll_encodeAll_append (values : List α) (tail : Bytes) :
    codec.decodeAll (codec.encodeAll values ++ tail) = values.map codec.carried ++
        codec.decodeAll tail := by
  induction values with
  | nil => rfl
  | cons value values ih =>
      rw [encodeAll_cons, List.append_assoc,
        codec.decodeAll_of_some (codec.decode_encode value _), ih]
      rfl

theorem decode_nil : codec.decode [] = none := by
  cases decoded : codec.decode [] with
  | none => rfl
  | some parts => exact False.elim (Nat.not_lt_zero _ (codec.decode_shrinks decoded))

theorem decodeAll_encodeAll (values : List α) :
    codec.decodeAll (codec.encodeAll values) = values.map codec.carried := by
  have decoded := codec.decodeAll_encodeAll_append values []
  rw [codec.decodeAll_of_none codec.decode_nil, List.append_nil, List.append_nil] at decoded
  exact decoded

theorem map_carried_of_fits {values : List α}
    (fits : forall value, value ∈ values -> codec.Fits value) :
    values.map codec.carried = values := by
  rw [List.map_congr_left fits, List.map_id']

/-- What the reader returns is exactly characterised by the bytes: the
encodings of the returned records come first, and no record starts behind
them. -/
theorem decodeAll_eq_iff (stream : Bytes) (values : List α) :
    codec.decodeAll stream = values <->
      (forall value, value ∈ values -> codec.Fits value) ∧
        Exists fun tail => stream = codec.encodeAll values ++ tail ∧ codec.decode tail = none := by
  constructor
  · rintro rfl
    induction length : stream.length using Nat.strong_induction_on generalizing stream with
    | _ size ih =>
        cases decoded : codec.decode stream with
        | none =>
            rw [codec.decodeAll_of_none decoded]
            exact ⟨fun _ member => False.elim (List.not_mem_nil member), stream, rfl, decoded⟩
        | some parts =>
            rcases parts with ⟨value, rest⟩
            have split := codec.encode_decode decoded
            have shorter := codec.decode_shrinks decoded
            rw [codec.decodeAll_of_some decoded]
            rcases ih rest.length (length ▸ shorter) rest rfl with
              ⟨fits, tail, bytes, ended⟩
            refine ⟨?_, tail, ?_, ended⟩
            · intro other member
              rcases List.mem_cons.mp member with same | later
              · exact same ▸ split.2
              · exact fits other later
            · rw [encodeAll_cons, List.append_assoc, ← bytes]
              exact split.1
  · rintro ⟨fits, tail, rfl, ended⟩
    rw [codec.decodeAll_encodeAll_append values, codec.map_carried_of_fits fits,
      codec.decodeAll_of_none ended, List.append_nil]

/-- A strict prefix of one encoding holds no record: a torn write at the
end of a file is never mistaken for a record. -/
theorem decode_torn {value : α} {torn missing : Bytes}
    (split : codec.encode value = torn ++ missing) (nonempty : missing ≠ []) :
    codec.decode torn = none := by
  cases decoded : codec.decode torn with
  | none => rfl
  | some parts =>
      rcases parts with ⟨other, rest⟩
      have whole := codec.decode_encode value []
      rw [split, (codec.encode_decode decoded).1, List.append_nil, List.append_assoc,
        codec.decode_encode] at whole
      have leftover := (Prod.mk.inj (Option.some.inj whole)).2
      exact False.elim (nonempty (List.append_eq_nil_iff.mp leftover).2)

theorem length_encodeAll_take_mono (values : List α) {fewer more : Nat} (le : fewer ≤ more) :
    (codec.encodeAll (values.take fewer)).length ≤ (codec.encodeAll (values.take more)).length := by
  rcases List.take_prefix_take_left le (l := values) with ⟨between, same⟩
  rw [← same, encodeAll_append, List.length_append]
  exact Nat.le_add_right _ _

/-- A stream of records that was cut somewhere gives the records that are
complete before the cut. -/
theorem decodeAll_take (values : List α) (count : Nat) :
    Exists fun kept => kept ≤ values.length ∧
      codec.decodeAll ((codec.encodeAll values).take count) = (values.take kept).map codec.carried ∧
      (codec.encodeAll (values.take kept)).length ≤ count ∧
      forall whole, whole ≤ values.length -> (codec.encodeAll (values.take whole)).length ≤
          count -> whole ≤ kept := by
  induction values generalizing count with
  | nil =>
      refine ⟨0, Nat.le_refl _, ?_, Nat.zero_le _, fun whole bound _ => bound⟩
      rw [encodeAll_nil, List.take_nil]
      exact codec.decodeAll_of_none codec.decode_nil
  | cons value values ih =>
      rw [encodeAll_cons]
      rcases Nat.lt_or_ge count (codec.encode value).length with torn | complete
      · -- The cut lies inside the first record.
        have missing : (codec.encode value).drop count ≠ [] := by
          rw [ne_eq, List.drop_eq_nil_iff]
          omega
        have failed := codec.decode_torn
          (List.take_append_drop count (codec.encode value)).symm missing
        refine ⟨0, Nat.zero_le _, ?_, Nat.zero_le _, fun whole _ short => ?_⟩
        · rw [List.take_append_of_le_length (Nat.le_of_lt torn), codec.decodeAll_of_none failed]
          rfl
        · cases whole with
          | zero => exact Nat.le_refl _
          | succ whole =>
              rw [List.take_succ_cons, encodeAll_cons, List.length_append] at short
              omega
      · rcases ih (count - (codec.encode value).length) with ⟨kept, bound, decoded, within, most⟩
        refine ⟨kept + 1, Nat.succ_le_succ bound, ?_, ?_, fun whole inside short => ?_⟩
        · rw [List.take_append, List.take_of_length_le complete,
            codec.decodeAll_of_some (codec.decode_encode value _), decoded]
          rfl
        · rw [List.take_succ_cons, encodeAll_cons, List.length_append]
          omega
        · cases whole with
          | zero => exact Nat.zero_le _
          | succ whole =>
              rw [List.take_succ_cons, encodeAll_cons, List.length_append] at short
              exact Nat.succ_le_succ (most whole (Nat.le_of_succ_le_succ inside) (by omega))

/-- Decode a given number of records. -/
def decodeCount : Nat -> Bytes -> Option (List α × Bytes)
  | 0, stream => some ([], stream)
  | count + 1, stream =>
      (codec.decode stream).bind fun first =>
        (decodeCount count first.2).map fun later => (first.1 :: later.1, later.2)

theorem decodeCount_encodeAll (values : List α) (rest : Bytes) :
    codec.decodeCount values.length (codec.encodeAll values ++ rest) =
        some (values.map codec.carried, rest) := by
  induction values with
  | nil => rfl
  | cons value values ih =>
      rw [List.length_cons, decodeCount, encodeAll_cons, List.append_assoc, codec.decode_encode,
        Option.bind_some, ih]
      rfl

theorem encodeAll_decodeCount {count : Nat} {stream rest : Bytes} {values : List α}
    (decoded : codec.decodeCount count stream = some (values, rest)) :
    stream = codec.encodeAll values ++ rest ∧ values.length = count ∧
        values.map codec.carried = values := by
  induction count generalizing stream values with
  | zero =>
      cases decoded
      exact ⟨rfl, rfl, rfl⟩
  | succ count ih =>
      rw [decodeCount, Option.bind_eq_some_iff] at decoded
      rcases decoded with ⟨⟨value, after⟩, first, later⟩
      rcases Option.map_eq_some_iff.mp later with ⟨⟨others, remaining⟩, laterDecoded, result⟩
      cases result
      rcases codec.encode_decode first with ⟨shape, fits⟩
      rcases ih laterDecoded with ⟨laterShape, length, laterFits⟩
      change after = _ at laterShape
      refine ⟨?_, congrArg Nat.succ length, ?_⟩
      · rw [shape, laterShape, encodeAll_cons, List.append_assoc]
      · rw [List.map_cons, fits, laterFits]

/-- Fewer bytes than the records take do not give that many records. -/
theorem decodeCount_torn {values : List α} {torn missing : Bytes}
    (split : codec.encodeAll values = torn ++ missing) (nonempty : missing ≠ []) :
    codec.decodeCount values.length torn = none := by
  cases decoded : codec.decodeCount values.length torn with
  | none => rfl
  | some parts =>
      rcases parts with ⟨others, rest⟩
      rcases codec.encodeAll_decodeCount decoded with ⟨shape, length, _⟩
      have whole := codec.decodeCount_encodeAll values []
      rw [List.append_nil, split, shape, List.append_assoc, ← length,
        codec.decodeCount_encodeAll] at whole
      have leftover := (Prod.mk.inj (Option.some.inj whole)).2
      exact False.elim (nonempty (List.append_eq_nil_iff.mp leftover).2)

/-- Two generations of one file.  Records appended behind a torn tail come
back exactly when the torn bytes shift the second generation onto itself
and the last bytes hold no further record. -/
theorem decodeAll_after_torn (first second : List α) (torn : Bytes) :
    codec.decodeAll (codec.encodeAll first ++ torn ++ codec.encodeAll second) = first ++ second <->
      (forall value, value ∈ first ++ second -> codec.Fits value) ∧
        Exists fun tail => torn ++ codec.encodeAll second = codec.encodeAll second ++ tail ∧
          codec.decode tail = none := by
  rw [decodeAll_eq_iff]
  simp only [encodeAll_append, List.append_assoc, List.append_cancel_left_eq]

end Codec

end Framing
end KVStore
