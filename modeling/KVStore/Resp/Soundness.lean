import KVStore.Resp.RoundTrip

namespace KVStore
namespace Resp

open Decimal RESPParser

/-!
# What the parser accepts

A parser is sound when the bytes from which it returns a value start with an
encoding of that value.  The parser of the epoll server is not: `std::stoll` ignores
white space in front of a number and anything behind its digits, a bulk string of
length -2 is accepted with whatever follows, and the two bytes behind the data are
skipped without a look at them.  It is sound exactly where none of this happens.
-/

/-! ## Encodings -/

/-- A line that holds a decimal number, with an optional sign and nothing else. -/
def Numeral (line : Bytes) (value : Int) : Prop := Plain line ∧ plainValue line = value

mutual

/-- The encodings of a value.  A number may have leading zeros or a plus sign. -/
inductive Encodes : RESPValue -> Bytes -> Prop where
  | simpleString {text : Bytes} (line : Line text) :
    Encodes (.simpleString text) (43 :: (text ++ crlf))
  | error {text : Bytes} (line : Line text) : Encodes (.error text) (45 :: (text ++ crlf))
  | integer {number : Int64} {line : Bytes} (numeral : Numeral line number.toInt) :
      Encodes (.integer number) (58 :: (line ++ crlf))
  | bulkString {text line : Bytes} (numeral : Numeral line text.length) :
      Encodes (.bulkString text) (36 :: (line ++ crlf ++ (text ++ crlf)))
  | nullBulkString {line : Bytes} (numeral : Numeral line (-1)) :
    Encodes .nullBulkString (36 :: (line ++ crlf))
  | array {elements : List RESPValue} {line bytes : Bytes} (numeral : Numeral line elements.length)
      (all : EncodesAll elements bytes) : Encodes (.array elements) (42 :: (line ++ crlf ++ bytes))

/-- The encodings of several values, one behind the other. -/
inductive EncodesAll : List RESPValue -> Bytes -> Prop where
  | nil : EncodesAll [] []
  | cons {value : RESPValue} {values : List RESPValue} {first rest : Bytes}
      (encodes : Encodes value first) (all : EncodesAll values rest) :
        EncodesAll (value :: values) (first ++ rest)

end

/-- The bytes start with an encoding of the value. -/
def StartsWith (data : Bytes) (value : RESPValue) : Prop :=
  Exists fun bytes => Exists fun rest => data = bytes ++ rest ∧ Encodes value bytes

/-! ## The condition -/

/-- What the parser does not check, for a type byte, the line behind it and the bytes behind the
line: the number is plain, and the data of a bulk string have a length that is not negative
and end with a line end. -/
def Checked (byte : UInt8) (line rest : Bytes) : Prop :=
  byte = 43 ∨ byte = 45 ∨ Plain line ∧
    (byte = 36 -> plainValue line = -1 ∨ 0 ≤ plainValue line ∧
      (rest.drop (plainValue line).toNat).take 2 = crlf)

instance (byte : UInt8) (line rest : Bytes) : Decidable (Checked byte line rest) :=
  inferInstanceAs (Decidable (_ ∨ _ ∨ _ ∧ (_ -> _)))

theorem line_of_plain {text : Bytes} (plain : Plain text) : Line text := by
  apply line_of_forall_ne
  intro byte member
  cases text with
  | nil => exact absurd member List.not_mem_nil
  | cons first rest =>
      rcases plain.cons_cases with ⟨start, digits⟩
      rintro rfl
      rcases List.mem_cons.mp member with rfl | later
      · rcases start with minus | plus | digit
        · exact absurd minus (by decide)
        · exact absurd plus (by decide)
        · exact absurd digit (by decide)
      · exact absurd (digits 13 later) (by decide)

/-- A plain number in front of a line end is the line that is read. -/
theorem readLine_plain {buffer line rest number more : Bytes}
    (found : readLine buffer = some (line, rest)) (plain : Plain number)
    (shape : buffer = number ++ crlf ++ more) : line = number ∧ rest = more := by
  rw [shape, readLine_line (line_of_plain plain)] at found
  cases found
  exact ⟨rfl, rfl⟩

/-- The data of a bulk string with a length that is not negative. -/
theorem data_of_ending {rest : Bytes} {len : Nat} (range : len < 2 ^ 63)
    (enough : toSize (len + 2) ≤ rest.length) (ending : (rest.drop len).take 2 = crlf) :
    (rest.take len).length = len ∧ rest = rest.take len ++ crlf ++ rest.drop (len + 2) := by
  constructor
  · have size : toSize (len + 2) = len + 2 := by
      unfold toSize
      omega
    rw [List.length_take]
    omega
  · calc rest
      _ = rest.take len ++ rest.drop len := (List.take_append_drop _ _).symm
      _ = rest.take len ++ ((rest.drop len).take 2 ++ (rest.drop len).drop 2) := by
        rw [List.take_append_drop 2 (rest.drop len)]
      _ = rest.take len ++ crlf ++ rest.drop (len + 2) := by
        rw [ending, List.drop_drop, List.append_assoc]

theorem checked_integer {line rest : Bytes} : Checked 58 line rest <-> Plain line :=
  by simp [Checked]

theorem checked_array {line rest : Bytes} : Checked 42 line rest <-> Plain line := by simp [Checked]

theorem checked_bulkString {line rest : Bytes} : Checked 36 line rest <-> Plain line ∧
    (plainValue line = -1 ∨ 0 ≤ plainValue line ∧
        (rest.drop (plainValue line).toNat).take 2 = crlf) := by
  simp [Checked]

/-- Bytes that start with the encoding of a bulk string have its data between the length line and a
line end. -/
theorem checked_of_bulkString {buffer line rest text : Bytes}
    (found : readLine buffer = some (line, rest))
    (starts : StartsWith (36 :: buffer) (.bulkString text)) : Checked 36 line rest := by
  rcases starts with ⟨_, more, shape, @⟨⟩⟩
  rename_i number numeral
  have behind : buffer = number ++ crlf ++ (text ++ (crlf ++ more)) := by
    simpa using (List.cons.inj shape).2
  rcases readLine_plain found numeral.1 behind with ⟨rfl, rfl⟩
  refine checked_bulkString.mpr ⟨numeral.1, Or.inr ?_⟩
  simp [numeral.2, crlf]

theorem startsWith_bulkString {buffer line rest : Bytes} {len : Int64}
    (found : readLine buffer = some (line, rest)) (parsed : parseInteger line = some len)
    (notNull : len.toInt ≠ -1) (enough : toSize (len.toInt + 2) ≤ rest.length)
    (checked : Checked 36 line rest) :
    StartsWith (36 :: buffer) (.bulkString (rest.take (toSize len.toInt))) := by
  rcases checked_bulkString.mp checked with ⟨plain, null | ⟨natural, ending⟩⟩
  · exact absurd ((plain.toInt_of_stoll parsed).trans null) notNull
  · rcases Int.eq_ofNat_of_zero_le natural with ⟨size, isSize⟩
    have value : len.toInt = size := (plain.toInt_of_stoll parsed).trans isSize
    have range : size < 2 ^ 63 := by
      have := len.toInt_lt
      omega
    rw [isSize, Int.toNat_natCast] at ending
    rw [value] at enough
    rcases data_of_ending range enough ending with ⟨length, split⟩
    rw [value, toSize_natCast size (by omega)]
    refine ⟨36 :: (line ++ crlf ++ (rest.take size ++ crlf)), rest.drop (size + 2), ?_,
      .bulkString ⟨plain, ?_⟩⟩
    · calc 36 :: buffer
        _ = 36 :: (line ++ crlf ++ rest) := by rw [readLine_eq_append found]
        _ = 36 :: (line ++ crlf ++ (rest.take size ++ crlf ++ rest.drop (size + 2))) :=
          by rw [← split]
        _ = _ := by simp
    · rw [length, isSize]

/-- A value is returned from an encoding of it exactly when the parser has not overlooked
anything. -/
theorem startsWith_iff_checked {byte : UInt8} {buffer : Bytes} {value : RESPValue}
    (received : Received (byte :: buffer) value) :
    Exists fun line => Exists fun rest => readLine buffer = some (line, rest) ∧
      (StartsWith (byte :: buffer) value <-> Checked byte line rest) := by
  cases received with
  | @simpleString _ line rest found =>
      refine ⟨line, rest, found, iff_of_true ?_ (Or.inl rfl)⟩
      exact ⟨_, rest, congrArg (43 :: ·) (readLine_eq_append found),
        .simpleString (line_of_readLine found)⟩
  | @error _ line rest found =>
      refine ⟨line, rest, found, iff_of_true ?_ (Or.inr (Or.inl rfl))⟩
      exact ⟨_, rest, congrArg (45 :: ·) (readLine_eq_append found), .error (line_of_readLine found)⟩
  | @integer _ line rest number found parsed =>
      refine ⟨line, rest, found, Iff.trans ?_ checked_integer.symm⟩
      constructor
      · rintro ⟨_, more, shape, @⟨⟩⟩
        rename_i numeral
        rcases readLine_plain found numeral.1 (List.cons.inj shape).2 with ⟨rfl, -⟩
        exact numeral.1
      · intro plain
        refine ⟨_, rest, congrArg (58 :: ·) (readLine_eq_append found), .integer ⟨plain, ?_⟩⟩
        exact (plain.toInt_of_stoll parsed).symm
  | @nullBulkString _ line rest len found parsed null =>
      refine ⟨line, rest, found, Iff.trans ?_ checked_bulkString.symm⟩
      constructor
      · rintro ⟨_, more, shape, @⟨⟩⟩
        rename_i numeral
        rcases readLine_plain found numeral.1 (List.cons.inj shape).2 with ⟨rfl, -⟩
        exact ⟨numeral.1, Or.inl numeral.2⟩
      · rintro ⟨plain, -⟩
        refine ⟨_, rest, congrArg (36 :: ·) (readLine_eq_append found), .nullBulkString ⟨plain, ?_⟩⟩
        exact (plain.toInt_of_stoll parsed).symm.trans null
  | @bulkString _ line rest len found parsed notNull enough =>
      exact ⟨line, rest, found, checked_of_bulkString found,
        startsWith_bulkString found parsed notNull enough⟩
  | @array _ line rest len found parsed empty =>
      refine ⟨line, rest, found, Iff.trans ?_ checked_array.symm⟩
      constructor
      · rintro ⟨_, more, shape, @⟨⟩⟩
        rename_i numeral all
        have behind := (List.cons.inj shape).2.trans (List.append_assoc _ _ _)
        rcases readLine_plain found numeral.1 behind with ⟨rfl, -⟩
        exact numeral.1
      · intro plain
        refine ⟨42 :: (line ++ crlf ++ []), rest, ?_, .array ⟨plain, ?_⟩ .nil⟩
        · rw [List.append_nil]
          exact congrArg (42 :: ·) (readLine_eq_append found)
        · exact (plain.toInt_of_stoll parsed).symm.trans empty

/-! ## One chunk -/

theorem not_startsWith {byte : UInt8} {buffer : Bytes} {q : RESPParser} {value : RESPValue}
    (returned : new.parse (byte :: buffer) = (q, some value)) {line rest : Bytes}
    (found : readLine buffer = some (line, rest)) (unchecked : ¬ Checked byte line rest) :
    ¬ StartsWith (byte :: buffer) value := by
  rcases startsWith_iff_checked (received_of_run returned) with ⟨_, _, sameLine, equivalence⟩
  rw [found] at sameLine
  cases sameLine
  exact fun starts => unchecked (equivalence.mp starts)

/-- A fresh parser that returns a value on one chunk has read a type byte and a line, and the
chunk starts with an encoding of the value exactly when what the parser does not check is so:
always for a simple string or an error, otherwise when the number is an optional sign and
digits with nothing around them and, for a bulk string that is not null, the length is not
negative and the bytes behind the data are a line end. -/
theorem parse_sound_iff (data : Bytes) (q : RESPParser) (value : RESPValue)
    (returned : new.parse data = (q, some value)) :
    Exists fun byte => Exists fun line => Exists fun rest =>
      data = byte :: (line ++ crlf ++ rest) ∧ Line line ∧
          (StartsWith data value <-> Checked byte line rest) := by
  have received : Received data value := received_of_run returned
  cases data with
  | nil => cases received
  | cons byte buffer =>
      rcases startsWith_iff_checked received with ⟨line, rest, found, equivalence⟩
      exact ⟨byte, line, rest, congrArg (byte :: ·) (readLine_eq_append found),
        line_of_readLine found, equivalence⟩

theorem parse_sound_iff_abc : Exists fun byte => Exists fun line => Exists fun rest =>
    [36, 51, 13, 10, 97, 98, 99, 13, 10] = byte :: (line ++ crlf ++ rest) ∧ Line line ∧
      (StartsWith [36, 51, 13, 10, 97, 98, 99, 13, 10] (.bulkString [97, 98, 99]) <->
          Checked byte line rest) :=
  parse_sound_iff [36, 51, 13, 10, 97, 98, 99, 13, 10] new (.bulkString [97, 98, 99]) rfl

/-- An integer with a letter behind its digits, a bulk string whose data are followed by two
other bytes, and a bulk string of length -2 are all returned. -/
theorem parse_accepts_other_bytes :
    (new.parse [58, 49, 50, 97, 13, 10] = (new, some (.integer 12)) ∧
        ¬ StartsWith [58, 49, 50, 97, 13, 10] (.integer 12)) ∧
      (new.parse [36, 49, 13, 10, 97, 88, 89] = (new, some (.bulkString [97])) ∧
        ¬ StartsWith [36, 49, 13, 10, 97, 88, 89] (.bulkString [97])) ∧
      new.parse [36, 45, 50, 13, 10, 97] = (new, some (.bulkString [97])) ∧
        ¬ StartsWith [36, 45, 50, 13, 10, 97] (.bulkString [97]) := by
  refine ⟨⟨rfl, ?letters⟩, ⟨rfl, ?ending⟩, rfl, ?negative⟩
  case letters => exact not_startsWith rfl rfl (by decide)
  case ending => exact not_startsWith rfl rfl (by decide)
  case negative => exact not_startsWith rfl rfl (by decide)

end Resp
end KVStore
