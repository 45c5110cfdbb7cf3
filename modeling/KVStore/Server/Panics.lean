import KVStore.Server.RESPServer

namespace KVStore
namespace Server

open Decimal Framing Resp

/-!
# Panics of the reader

`readRESPArray` once more, on a machine where `make` can run out of room.  A count or a
length that a client sends goes into `make` and into a slice expression without any check,
and nothing recovers the panic:  it ends the server.

The streams on which this happens are described from their bytes, by the numbers behind
`*` and `$` up to the first one that is wrong.
-/

/-! ## The reader -/

/-- `make` for `count` elements of so many bytes returns. -/
def Makes (room size : Nat) (count : Int64) : Prop := 0 ≤ count.toInt ∧ size * count.toInt ≤ room

instance (room size : Nat) (count : Int64) : Decidable (Makes room size count) :=
    inferInstanceAs (Decidable (_ ∧ _))

/-- The line with the count of an array. -/
def arrayHeader (stream : Bytes) : Reading Int64 :=
  readHeader 42 (text "expected array, got: ") (text "invalid array count: ") stream

/-- The line with the length of a string. -/
def bulkHeader (stream : Bytes) : Reading Int64 :=
  readHeader 36 (text "expected bulk string, got: ") (text "invalid bulk string length: ") stream

namespace Limited

variable (room : Nat)

/-- One round of the loop. -/
def readBulkString (stream : Bytes) : Reading Bytes :=
  (bulkHeader stream).andThen fun length rest =>
    -- `make([]byte, length+2)`, where the sum wraps around.
    if Makes room 1 (length + 2) then
      (readFull (length + 2).toInt.toNat rest).andThen fun data rest =>
        -- `data[:length]`
        if length < 0 then .panicked else .value (data.take length.toInt.toNat) rest
    else .panicked

def readBulkStrings : Nat -> Bytes -> Reading (List Bytes)
  | 0, stream => .value [] stream
  | count + 1, stream =>
      (readBulkString room stream).andThen fun first rest =>
        (readBulkStrings count rest).andThen fun others rest => .value (first :: others) rest

/-- `readRESPArray`.  A string of the result takes 16 bytes, for its address and its length. -/
def readRESPArray (stream : Bytes) : Reading (List Bytes) :=
  (arrayHeader stream).andThen fun count rest =>
    if Makes room 16 count then readBulkStrings room count.toInt.toNat rest else .panicked

end Limited

/-! ## The room of make -/

/-- A read that panics or does what another one does. -/
def Reading.Refines {X : Type} (limited full : Reading X) : Prop :=
  limited = .panicked ∨ limited = full

theorem Reading.Refines.andThen {X Y : Type} {limited full : Reading X}
    {limitedNext fullNext : X -> Bytes -> Reading Y} (first : limited.Refines full)
    (next : forall value rest, (limitedNext value rest).Refines (fullNext value rest)) :
    (limited.andThen limitedNext).Refines (full.andThen fullNext) := by
  rcases first with rfl | rfl
  · exact Or.inl rfl
  · cases limited with
    | value value rest => exact next value rest
    | failed error => exact Or.inr rfl
    | panicked => exact Or.inr rfl

theorem refines_readBulkString (room : Nat) (stream : Bytes) :
    (Limited.readBulkString room stream).Refines (readBulkString stream) := by
  refine Reading.Refines.andThen (Or.inr rfl) fun length rest => ?_
  by_cases makes : Makes room 1 (length + 2)
  · have natural : ¬ length + 2 < 0 := by
      rw [Int64.lt_iff_toInt_lt, Int64.toInt_zero]
      exact not_lt.mpr makes.1
    rw [if_pos makes, if_neg natural]
    exact Or.inr rfl
  · rw [if_neg makes]
    exact Or.inl rfl

theorem refines_readBulkStrings (room count : Nat) (stream : Bytes) :
    (Limited.readBulkStrings room count stream).Refines (readBulkStrings count stream) := by
  induction count generalizing stream with
  | zero => exact Or.inr rfl
  | succ count ih =>
      refine Reading.Refines.andThen (refines_readBulkString room stream) fun first rest => ?_
      exact Reading.Refines.andThen (ih rest) fun _ _ => Or.inr rfl

/-- As long as `make` returns, the reader does what it does with unlimited memory. -/
theorem refines_readRESPArray (room : Nat) (stream : Bytes) :
    (Limited.readRESPArray room stream).Refines (readRESPArray stream) := by
  refine Reading.Refines.andThen (Or.inr rfl) fun count rest => ?_
  by_cases makes : Makes room 16 count
  · have natural : ¬ count < 0 := by
      rw [Int64.lt_iff_toInt_lt, Int64.toInt_zero]
      exact not_lt.mpr makes.1
    rw [if_pos makes, if_neg natural]
    exact refines_readBulkStrings room _ rest
  · rw [if_neg makes]
    exact Or.inl rfl

/-! ## Streams that end the server -/

/-- A length that is wrong in front of the bytes that follow it. -/
def BadLength (room : Nat) (length : Int64) (rest : Bytes) : Prop :=
  length.toInt ≤ -2 ∨ length.toInt = -1 ∧ rest ≠ [] ∨ room < length.toInt + 2 ∨
    2 ^ 63 ≤ length.toInt + 2

/-- Among so many strings there is one with a wrong length, and those before it are complete. -/
inductive BadStrings (room : Nat) : Nat -> Bytes -> Prop where
  | here {count : Nat} {stream rest : Bytes} {length : Int64}
      (header : bulkHeader stream = .value length rest) (bad : BadLength room length rest) :
        BadStrings room (count + 1) stream
  | later {count : Nat} {stream rest : Bytes} {length : Int64}
      (header : bulkHeader stream = .value length rest) (natural : 0 ≤ length.toInt)
      (complete : length.toInt + 2 ≤ rest.length)
      (bad : BadStrings room count (rest.drop (length.toInt.toNat + 2))) :
        BadStrings room (count + 1) stream

/-- A stream with a wrong count, or with a wrong length behind its count. -/
inductive BadArray (room : Nat) : Bytes -> Prop where
  | count {stream rest : Bytes} {count : Int64} (header : arrayHeader stream = .value count rest)
      (bad : count.toInt < 0 ∨ room < 16 * count.toInt) : BadArray room stream
  | strings {stream rest : Bytes} {count : Int64} (header : arrayHeader stream = .value count rest)
      (bad : BadStrings room count.toInt.toNat rest) : BadArray room stream

/-! ## Reads that panic -/

theorem Reading.andThen_eq_panicked {X Y : Type} {reading : Reading X}
    {next : X -> Bytes -> Reading Y} :
    reading.andThen next = .panicked <->
      reading = .panicked ∨ Exists fun first => Exists fun rest => reading = .value first rest ∧
          next first rest = .panicked := by
  cases reading with
  | value first rest =>
      constructor
      · intro panicked
        exact Or.inr ⟨first, rest, rfl, panicked⟩
      · rintro (same | ⟨_, _, same, panicked⟩)
        · cases same
        · cases same
          exact panicked
  | failed error =>
      refine iff_of_false (by simp [Reading.andThen]) ?_
      rintro (same | ⟨_, _, same, _⟩) <;> cases same
  | panicked => exact iff_of_true rfl (Or.inl rfl)

theorem readHeader_ne_panicked (type : UInt8) (expected invalid stream : Bytes) :
    readHeader type expected invalid stream ≠ .panicked := by
  intro panicked
  rcases Reading.andThen_eq_panicked.mp panicked with line | ⟨content, rest, _, parsed⟩
  · rw [readString] at line
    split at line <;> cases line
  · simp only at parsed
    split at parsed
    · cases parsed
    · split at parsed
      · cases parsed
      · split at parsed <;> cases parsed

theorem toInt_add_two (length : Int64) :
    (length + 2).toInt = if length.toInt + 2 < 2 ^ 63 then length.toInt + 2
    else length.toInt + 2 - 2 ^ 64 := by
  have low := length.le_toInt
  have high := length.toInt_lt
  have two : (2 : Int64).toInt = 2 := rfl
  rw [Int64.toInt_add, two, Int.bmod_def]
  split <;> split <;> omega

theorem readFull_eq {count : Nat} {stream : Bytes} (enough : count ≤ stream.length) :
    readFull count stream = .value (stream.take count) (stream.drop count) := by
  rw [readFull, readBytes, if_pos enough]

theorem readFull_short {count : Nat} {stream : Bytes} (short : stream.length < count) :
    Exists fun error => readFull count stream = .failed error := by
  rw [readFull, readBytes, if_neg (by omega)]
  exact ⟨_, rfl⟩

variable {room : Nat}

/-- A string with a wrong length. -/
theorem readBulkString_bad {stream rest : Bytes} {length : Int64}
    (header : bulkHeader stream = .value length rest) (bad : BadLength room length rest) :
    Limited.readBulkString room stream = .panicked := by
  have sum := toInt_add_two length
  have high := length.toInt_lt
  rw [Limited.readBulkString, header, Reading.andThen]
  by_cases makes : Makes room 1 (length + 2)
  · rw [if_pos makes]
    rcases makes with ⟨natural, fits⟩
    have negative : length < 0 := by
      rw [Int64.lt_iff_toInt_lt, Int64.toInt_zero]
      rcases bad with below | ⟨null, _⟩ | large | overflows
      · omega
      · omega
      · split at sum <;> omega
      · rw [if_neg (by omega)] at sum
        omega
    have enough : (length + 2).toInt.toNat ≤ rest.length := by
      rw [Int64.lt_iff_toInt_lt, Int64.toInt_zero] at negative
      rw [if_pos (by omega)] at sum
      rcases bad with below | ⟨null, more⟩ | large | overflows
      · omega
      · have filled := List.length_pos_of_ne_nil more
        omega
      · omega
      · omega
    rw [readFull_eq enough, Reading.andThen, if_pos negative]
  · rw [if_neg makes]

/-- A string with another length is returned, or there are too few bytes. -/
theorem readBulkString_good {stream rest : Bytes} {length : Int64}
    (header : bulkHeader stream = .value length rest) (good : ¬ BadLength room length rest) :
    (0 ≤ length.toInt ∧ length.toInt + 2 ≤ rest.length ∧
      Limited.readBulkString room stream =
        .value (rest.take length.toInt.toNat) (rest.drop (length.toInt.toNat + 2))) ∨
      ¬ (0 ≤ length.toInt ∧ length.toInt + 2 ≤ rest.length) ∧
        Exists fun error => Limited.readBulkString room stream = .failed error := by
  simp only [BadLength, not_or, not_and, not_le, not_lt] at good
  rcases good with ⟨above, null, fits, inRange⟩
  have sum := toInt_add_two length
  rw [if_pos inRange] at sum
  have makes : Makes room 1 (length + 2) := ⟨by omega, by omega⟩
  rw [Limited.readBulkString, header, Reading.andThen, if_pos makes]
  by_cases complete : 0 ≤ length.toInt ∧ length.toInt + 2 ≤ rest.length
  · left
    have count : (length + 2).toInt.toNat = length.toInt.toNat + 2 := by omega
    have notNegative : ¬ length < 0 := by
      rw [Int64.lt_iff_toInt_lt, Int64.toInt_zero]
      omega
    refine ⟨complete.1, complete.2, ?_⟩
    rw [count, readFull_eq (by omega), Reading.andThen, if_neg notNegative, List.take_take]
    rw [Nat.min_eq_left (by omega)]
  · right
    have short : rest.length < (length + 2).toInt.toNat := by
      by_cases natural : 0 ≤ length.toInt
      · omega
      · have empty : rest = [] := by
          by_contra more
          exact null (by omega) more
        rw [empty, List.length_nil]
        omega
    rcases readFull_short short with ⟨error, failed⟩
    exact ⟨complete, error, by rw [failed, Reading.andThen]⟩

theorem readBulkString_panicked_iff (stream : Bytes) :
    Limited.readBulkString room stream = .panicked <->
      Exists fun length => Exists fun rest => bulkHeader stream = .value length rest ∧
          BadLength room length rest := by
  constructor
  · intro panicked
    rcases Reading.andThen_eq_panicked.mp panicked with header | ⟨length, rest, header, _⟩
    · exact absurd header (readHeader_ne_panicked _ _ _ _)
    · refine ⟨length, rest, header, ?_⟩
      by_contra good
      rcases readBulkString_good header good with ⟨_, _, returned⟩ | ⟨_, error, failed⟩
      · cases returned.symm.trans panicked
      · cases failed.symm.trans panicked
  · rintro ⟨length, rest, header, bad⟩
    exact readBulkString_bad header bad

theorem readBulkStrings_panicked_iff (count : Nat) (stream : Bytes) :
    Limited.readBulkStrings room count stream = .panicked <-> BadStrings room count stream := by
  induction count generalizing stream with
  | zero =>
      refine iff_of_false (by simp [Limited.readBulkStrings]) ?_
      rintro ⟨⟩
  | succ count ih =>
      have others (first rest : Bytes) :
          ((Limited.readBulkStrings room count rest).andThen fun others rest =>
          Reading.value (first :: others) rest) = .panicked <-> BadStrings room count rest := by
        rw [Reading.andThen_eq_panicked, ← ih rest]
        simp
      rw [Limited.readBulkStrings, Reading.andThen_eq_panicked, readBulkString_panicked_iff]
      constructor
      · rintro (⟨length, rest, header, bad⟩ | ⟨first, behind, read, panicked⟩)
        · exact .here header bad
        · rcases Reading.andThen_eq_value read with ⟨length, rest, header, _⟩
          by_cases bad : BadLength room length rest
          · exact .here header bad
          · rcases readBulkString_good header bad with ⟨natural, complete, returned⟩
              | ⟨_, error, failed⟩
            · cases returned.symm.trans read
              exact .later header natural complete ((others _ _).mp panicked)
            · cases failed.symm.trans read
      · intro bad
        cases bad with
        | here header bad => exact Or.inl ⟨_, _, header, bad⟩
        | @later _ _ rest length header natural complete bad =>
            by_cases wrong : BadLength room length rest
            · exact Or.inl ⟨length, rest, header, wrong⟩
            · rcases readBulkString_good header wrong with ⟨_, _, returned⟩ | ⟨incomplete, _⟩
              · exact Or.inr ⟨_, _, returned, (others _ _).mpr bad⟩
              · exact absurd ⟨natural, complete⟩ incomplete

/-- The reader returns strings or an error exactly on the streams without a wrong count or
length. -/
theorem reader_returns_iff (room : Nat) (stream : Bytes) :
    Limited.readRESPArray room stream ≠ .panicked <-> ¬ BadArray room stream := by
  apply not_congr
  rw [Limited.readRESPArray, Reading.andThen_eq_panicked]
  constructor
  · rintro (header | ⟨count, rest, header, panicked⟩)
    · exact absurd header (readHeader_ne_panicked _ _ _ _)
    · by_cases makes : Makes room 16 count
      · rw [if_pos makes, readBulkStrings_panicked_iff] at panicked
        exact .strings header panicked
      · refine .count header ?_
        by_contra good
        exact makes ⟨by omega, by omega⟩
  · intro bad
    right
    cases bad with
    | count header bad =>
        refine ⟨_, _, header, ?_⟩
        rw [if_neg]
        rintro ⟨natural, fits⟩
        omega
    | strings header bad =>
        refine ⟨_, _, header, ?_⟩
        split
        · exact (readBulkStrings_panicked_iff _ _).mpr bad
        · rfl

/-- The count `-1`, a null string with a byte behind it, and a length to which two cannot be
added, on a machine where `make` has `2 ^ 48` bytes. -/
theorem reader_panics :
    Limited.readRESPArray (2 ^ 48) [42, 45, 49, 13, 10] = .panicked ∧
      Limited.readRESPArray (2 ^ 48) [42, 49, 13, 10, 36, 45, 49, 13, 10, 120] = .panicked ∧
      Limited.readRESPArray (2 ^ 48) ([42, 49, 13, 10, 36] ++
        [57, 50, 50, 51, 51, 55, 50, 48, 51, 54, 56, 53, 52, 55, 55, 53, 56, 48, 55] ++ [13, 10]) =
            .panicked :=
  ⟨rfl, rfl, rfl⟩

end Server
end KVStore
