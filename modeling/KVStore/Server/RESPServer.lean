import KVStore.Resp.RoundTrip
import KVStore.Server.GoEngine

namespace KVStore
namespace Server

open Engine Decimal Framing Resp RESPParser

variable {P : Platform}

/-!
# The RESP server

`node/server/resp_server.go`.  A connection is served by a loop that reads a
command with `readRESPArray` and writes what `handleCommand` returns.

The reader mixes lines, which it trims, with strings of a given length, which it
takes as they are, so that a command may consist of any bytes.  The numbers are
those of Go: a negative count or length is accepted, and the program panics on it.
Memory is not limited here.

Every reply but one is a fixed line or has its length in front.  The reply to an
unknown command repeats the name of the command inside a line, and this line is
one reply exactly when the name has no carriage return and no line feed.
-/

/-! ## Reading -/

inductive ReadError where
  | eof
  | unexpectedEOF
  | format (message : Bytes)
  deriving DecidableEq

/-- What a read returns, and the bytes that are still in the stream then. -/
inductive Reading (X : Type) where
  | value (result : X) (rest : Bytes)
  | failed (error : ReadError)
  | panicked

def Reading.andThen {X Y : Type} (reading : Reading X) (next : X -> Bytes -> Reading Y) :
    Reading Y :=
  match reading with
  | .value result rest => next result rest
  | .failed error => .failed error
  | .panicked => .panicked

/-- `reader.ReadString('\n')`. -/
def readString (stream : Bytes) : Reading Bytes :=
  match stream.dropWhile (fun byte => byte != 10) with
  | [] => .failed .eof
  | newline :: rest => .value (stream.takeWhile (fun byte => byte != 10) ++ [newline]) rest

/-- `io.ReadFull` with a buffer of a given length. -/
def readFull (count : Nat) (stream : Bytes) : Reading Bytes :=
  match readBytes count stream with
  | some (data, rest) => .value data rest
  | none => .failed (if stream = [] then .eof else .unexpectedEOF)

/-- A line that holds a type byte and a number.  Both kinds of lines are read in
the same way, with other messages. -/
def readHeader (type : UInt8) (expected invalid : Bytes) (stream : Bytes) : Reading Int64 :=
  (readString stream).andThen fun content rest =>
    let line := Words.trimSpace content
    match line with
    | [] => .failed (.format (expected ++ line))
    | first :: digits =>
        if first ≠ type then .failed (.format (expected ++ line))
        else
          match atoi digits with
          | none => .failed (.format (invalid ++ line))
          | some number => .value number rest

/-- One round of the loop of `readRESPArray`. -/
def readBulkString (stream : Bytes) : Reading Bytes :=
  (readHeader 36 (text "expected bulk string, got: ") (text "invalid bulk string length: ")
    stream).andThen fun length rest =>
      -- `make([]byte, length+2)`, where the sum wraps around.
      if length + 2 < 0 then .panicked
      else
        (readFull (length + 2).toInt.toNat rest).andThen fun data rest =>
          -- `data[:length]`
          if length < 0 then .panicked else .value (data.take length.toInt.toNat) rest

def readBulkStrings : Nat -> Bytes -> Reading (List Bytes)
  | 0, stream => .value [] stream
  | count + 1, stream =>
      (readBulkString stream).andThen fun first rest =>
        (readBulkStrings count rest).andThen fun others rest => .value (first :: others) rest

def readRESPArray (stream : Bytes) : Reading (List Bytes) :=
  (readHeader 42 (text "expected array, got: ") (text "invalid array count: ") stream).andThen
      fun count rest =>
    -- `make([]string, count)`
    if count < 0 then .panicked else readBulkStrings count.toInt.toNat rest

/-- So many calls of `readRESPArray`, one after the other. -/
def readCommands : Nat -> Bytes -> Reading (List (List Bytes))
  | 0, stream => .value [] stream
  | count + 1, stream =>
      (readRESPArray stream).andThen fun first rest =>
        (readCommands count rest).andThen fun others rest => .value (first :: others) rest

/-! ## Commands that were encoded -/

/-- A command as an array of bulk strings. -/
def encodeCommand (cmd : List Bytes) : Bytes := (RESPValue.array (cmd.map .bulkString)).serialize

/-- The count and the lengths are numbers of the type `int` of Go, also with the
end of the line that follows a string. -/
structure Representable (cmd : List Bytes) : Prop where
  count : cmd.length < 2 ^ 63
  lengths : forall value, value ∈ cmd -> value.length + 2 < 2 ^ 63

theorem readString_line {line : Bytes} (single : forall byte, byte ∈ line -> byte ≠ 10)
    (rest : Bytes) :
    readString (line ++ 10 :: rest) = .value (line ++ [10]) rest := by
  have inLine : forall byte, byte ∈ line -> (byte != 10) = true := fun byte member =>
    bne_iff_ne.mpr (single byte member)
  have dropped : (line ++ 10 :: rest).dropWhile (fun byte => byte != 10) = 10 :: rest := by
    rw [List.dropWhile_append_of_pos inLine]
    rfl
  have taken : (line ++ 10 :: rest).takeWhile (fun byte => byte != 10) = line := by
    rw [List.takeWhile_append_of_pos inLine]
    exact List.append_nil line
  rw [readString, dropped, taken]

theorem small_of_isDigit {byte : UInt8} (digit : isDigit byte = true) :
    byte.toNat < 0x80 ∧ Words.isSpace [byte] = false := by
  have range := of_decide_eq_true digit
  refine ⟨by omega, ?_⟩
  have small : byte.toNat < 0x80 := by omega
  rw [Words.isSpace, Words.rune, if_pos small]
  exact decide_eq_false (by omega)

/-- A type byte and a printed number are one word. -/
theorem word_header {type : UInt8} (small : type.toNat < 0x80)
    (visible : Words.isSpace [type] = false) (value : Nat) :
    Words.Word (type :: showNat value) := by
  apply Words.word_of_small (List.cons_ne_nil _ _)
  · exact List.forall_mem_cons.mpr
      ⟨small, fun byte member => (small_of_isDigit (isDigit_of_mem_showNat member)).1⟩
  · exact List.forall_mem_cons.mpr
      ⟨visible, fun byte member => (small_of_isDigit (isDigit_of_mem_showNat member)).2⟩

theorem readHeader_showNat {type : UInt8} (small : type.toNat < 0x80)
    (visible : Words.isSpace [type] = false) (expected invalid : Bytes) {value : Nat}
    (bound : value < 2 ^ 63) (rest : Bytes) :
    readHeader type expected invalid (type :: (showNat value ++ crlf ++ rest)) =
        .value (Int64.ofInt value) rest := by
  have isWord := word_header small visible value
  have single : forall byte, byte ∈ type :: showNat value ++ [13] -> byte ≠ 10 := by
    intro byte member
    rcases List.mem_append.mp member with inside | last
    · exact isWord.ne_of_mem inside (by decide) (by decide)
    · cases List.mem_singleton.mp last
      decide
  have line : type :: (showNat value ++ crlf ++ rest) = type :: showNat value ++
      [13] ++ 10 :: rest := by
    simp only [crlf, List.append_assoc, List.cons_append, List.nil_append]
  have trimmed : Words.trimSpace (type :: showNat value ++ [13] ++ [10]) = type :: showNat value := by
    rw [List.append_assoc]
    exact Words.trimSpace_word_append isWord (Words.whole_cons rfl _) (by decide)
  rw [readHeader, line, readString_line single, Reading.andThen]
  simp only [trimmed, ne_eq, not_true, if_false, atoi_showNat bound]

theorem readBulkString_serialize {value : Bytes} (bound : value.length + 2 < 2 ^ 63)
    (rest : Bytes) :
    readBulkString ((RESPValue.bulkString value).serialize ++ rest) = .value value rest := by
  have short : value.length < 2 ^ 63 := by omega
  have sum : Int64.ofInt value.length + 2 = Int64.ofInt ((value.length + 2 : Nat) : Int) :=
    (Int64.ofInt_add value.length 2).symm
  have shape : (RESPValue.bulkString value).serialize ++ rest =
      36 :: (showNat value.length ++ crlf ++ (value ++ crlf ++ rest)) := by
    simp only [RESPValue.serialize, List.cons_append, List.append_assoc]
  have data : readFull (value.length + 2) (value ++ crlf ++ rest) = .value (value ++ crlf) rest := by
    have count : value.length + 2 = (value ++ crlf).length := by
      rw [List.length_append]
      rfl
    rw [readFull, count, readBytes_append]
  rw [shape, readBulkString, readHeader_showNat (by decide) (by decide) _ _ short, Reading.andThen]
  simp only [sum, not_ofInt_natCast_neg bound, if_false, toInt_ofInt_natCast bound,
    Int.toNat_natCast, data, Reading.andThen, not_ofInt_natCast_neg short,
      toInt_ofInt_natCast short, List.take_left]

theorem readBulkStrings_serialize {values : List Bytes}
    (bounds : forall value, value ∈ values -> value.length + 2 < 2 ^ 63) (rest : Bytes) :
    readBulkStrings values.length (serializeAll (values.map .bulkString) ++ rest) =
        .value values rest := by
  induction values with
  | nil => rfl
  | cons first values ih =>
      have later := ih fun value member => bounds value (List.mem_cons_of_mem first member)
      rw [List.map_cons, serializeAll, List.append_assoc, List.length_cons, readBulkStrings,
        readBulkString_serialize (bounds first List.mem_cons_self), Reading.andThen]
      simp only [later, Reading.andThen]

/-- One encoded command is read back, and nothing behind it is touched. -/
theorem readRESPArray_encodeCommand {cmd : List Bytes} (fits : Representable cmd) (rest : Bytes) :
    readRESPArray (encodeCommand cmd ++ rest) = .value cmd rest := by
  have countValue : (Int64.ofInt cmd.length).toInt = cmd.length := toInt_ofInt_natCast fits.count
  have notNegative := not_ofInt_natCast_neg fits.count
  have shape : encodeCommand cmd ++ rest =
      42 :: (showNat cmd.length ++ crlf ++ (serializeAll (cmd.map .bulkString) ++ rest)) := by
    simp only [encodeCommand, RESPValue.serialize, List.length_map, List.cons_append,
      List.append_assoc]
  rw [shape, readRESPArray, readHeader_showNat (by decide) (by decide) _ _ fits.count,
    Reading.andThen]
  simp only [notNegative, if_false, countValue, Int.toNat_natCast]
  exact readBulkStrings_serialize fits.lengths rest

/-- Calls of `readRESPArray` on encoded commands return the commands in order, and
after each call exactly the commands that were not read yet are left, with
whatever follows them. -/
theorem readRESPArray_inverts (commands : List (List Bytes))
    (fits : forall cmd, cmd ∈ commands -> Representable cmd) (rest : Bytes) (count : Nat)
    (atMost : count ≤ commands.length) :
    readCommands count (commands.flatMap encodeCommand ++ rest) =
      .value (commands.take count) ((commands.drop count).flatMap encodeCommand ++ rest) := by
  induction count generalizing commands with
  | zero => rfl
  | succ count ih =>
      cases commands with
      | nil => exact absurd atMost (Nat.not_succ_le_zero count)
      | cons first commands =>
          have later := ih commands (fun cmd member => fits cmd (List.mem_cons_of_mem first member))
            (Nat.le_of_succ_le_succ atMost)
          rw [List.flatMap_cons, List.append_assoc, readCommands,
            readRESPArray_encodeCommand (fits first List.mem_cons_self), Reading.andThen]
          simp only [later, Reading.andThen, List.take_succ_cons, List.drop_succ_cons]

/-- Two commands, one with line ends and protocol characters inside its strings
and an empty string, the other without any string. -/
def oddCommands : List (List Bytes) := [[text "SET", text "\r\n$3\r\n", []], []]

theorem readRESPArray_inverts_oddCommands :
    readCommands 2 (oddCommands.flatMap encodeCommand ++ text "*1\r\n") =
        .value oddCommands (text "*1\r\n") := by
  refine readRESPArray_inverts oddCommands ?_ _ 2 (Nat.le_refl 2)
  intro cmd member
  rcases List.mem_cons.mp member with rfl | last
  · exact ⟨by decide, by decide +kernel⟩
  · cases List.mem_singleton.mp last
    exact ⟨by decide, by decide⟩

/-! ## `handleCommand` -/

/-- The loop over the options of a `SET`.  An option needs an argument behind it;
what is no option is skipped, and a number that cannot be read changes nothing. -/
def optionsTtl (toUpper : Bytes -> Bytes) : Int64 -> List Bytes -> Int64
  | ttl, option :: argument :: rest =>
      if toUpper option = text "EX" then
        match atoi argument with
        | some seconds => optionsTtl toUpper (secondsTtl seconds) rest
        | none => optionsTtl toUpper ttl rest
      else if toUpper option = text "PX" then
        match atoi argument with
        | some ms => optionsTtl toUpper (ms * 1000000) rest
        | none => optionsTtl toUpper ttl rest
      else optionsTtl toUpper ttl (argument :: rest)
  | ttl, _ => ttl

def setReply : Option EngineError -> Bytes
  | some error => errorReply error
  | none => text "+OK\r\n"

def getReply : Except EngineError Bytes -> Bytes
  | .error error => if error = .notFound then text "$-1\r\n" else errorReply error
  | .ok value => bulkReply value

def delReply : Option EngineError -> Bytes
  | some error => if error = .notFound then text ":1\r\n" else errorReply error
  | none => text ":1\r\n"

def handleCommand (toUpper : Bytes -> Bytes) : List Bytes -> Exchange
  | [] => .answered (text "-ERR empty command\r\n")
  | first :: args =>
      let command := toUpper first
      if command = text "PING" then .answered (text "+PONG\r\n")
      else if command = text "SET" then
        match args with
        | key :: value :: options => .sets key value (optionsTtl toUpper 0 options) setReply
        | _ => .answered (text "-ERR wrong number of arguments for 'set'\r\n")
      else if command = text "GET" then
        match args with
        | [key] => .gets key getReply
        | _ => .answered (text "-ERR wrong number of arguments for 'get'\r\n")
      else if command = text "DEL" then
        match args with
        | [key] => .deletes key delReply
        | _ => .answered (text "-ERR wrong number of arguments for 'del'\r\n")
      else .answered (text "-ERR unknown command '" ++ command ++ text "'\r\n")

/-! ## Replies -/

/-- Read a bulk string whose length line was read. -/
def readBulk (length : Int64) (stream : Bytes) : Option (RESPValue × Bytes) :=
  if length.toInt = -1 then some (.nullBulkString, stream)
  else if length.toInt < 0 then none
  else
    match readBytes (length.toInt.toNat + 2) stream with
    | none => none
    | some (data, rest) =>
        if data.drop length.toInt.toNat = crlf then
          some (.bulkString (data.take length.toInt.toNat), rest) else none

/-- Read a value whose type byte and first line were read. -/
def readTyped (type : UInt8) (line rest : Bytes) : Option (RESPValue × Bytes) :=
  if type = 43 then some (.simpleString line, rest)
  else if type = 45 then some (.error line, rest)
  else if type = 58 then (parseInteger line).map fun value => (.integer value, rest)
  else if type = 36 then (parseInteger line).bind fun length => readBulk length rest
  else none

/-- The bytes of a line, which have no carriage return and no line feed. -/
def Clean (line : Bytes) : Prop := 13 ∉ line ∧ 10 ∉ line

instance (line : Bytes) : Decidable (Clean line) := inferInstanceAs (Decidable (_ ∧ _))

/-- Read one value of RESP.  No server sends an array, so there are none here. -/
def readReply : Bytes -> Option (RESPValue × Bytes)
  | [] => none
  | type :: stream =>
      match readLine stream with
      | none => none
      | some (line, rest) => if Clean line then readTyped type line rest else none

/-- The bytes are one value, and its end is seen without looking at what follows. -/
def OneValue (reply : Bytes) : Prop :=
  Exists fun value => forall rest, readReply (reply ++ rest) = some (value, rest)

theorem clean_ping : Clean (text "PING") := by
  simp only [text_eq]
  decide

theorem clean_set : Clean (text "SET") := by
  simp only [text_eq]
  decide

theorem clean_get : Clean (text "GET") := by
  simp only [text_eq]
  decide

theorem clean_del : Clean (text "DEL") := by
  simp only [text_eq]
  decide

theorem clean_append_iff {front back : Bytes} :
    Clean (front ++ back) <-> Clean front ∧ Clean back := by
  simp only [Clean, List.mem_append, not_or]
  exact and_and_and_comm

theorem readReply_line {line : Bytes} (clean : Clean line) (type : UInt8) (rest : Bytes) :
    readReply (type :: (line ++ crlf ++ rest)) = readTyped type line rest := by
  have isLine : Line line := line_of_forall_ne fun _ member same => clean.1 (same ▸ member)
  rw [readReply, readLine_line isLine rest]
  exact if_pos clean

theorem clean_showNat (value : Nat) : Clean (showNat value) := by
  constructor
  · exact fun member => absurd (isDigit_of_mem_showNat member) (by decide)
  · exact fun member => absurd (isDigit_of_mem_showNat member) (by decide)

theorem readBulk_append {length : Int64} {stream behind : Bytes} {value : RESPValue}
    (read : readBulk length stream = some (value, behind)) (more : Bytes) :
    readBulk length (stream ++ more) = some (value, behind ++ more) := by
  unfold readBulk at read ⊢
  split at read
  next null =>
    cases read
    exact if_pos null
  next notNull =>
    rw [if_neg notNull]
    split at read
    · cases read
    next notNegative =>
      rw [if_neg notNegative]
      split at read
      · cases read
      next data rest taken =>
        split at read
        next ended =>
          cases read
          rcases readBytes_eq_some.mp taken with ⟨shape, count⟩
          have longer : stream ++ more = data ++ (behind ++ more) := by rw [shape, List.append_assoc]
          rw [readBytes_eq_some.mpr ⟨longer, count⟩]
          exact if_pos ended
        · cases read

theorem readTyped_append {type : UInt8} {line rest behind : Bytes} {value : RESPValue}
    (read : readTyped type line rest = some (value, behind)) (more : Bytes) :
    readTyped type line (rest ++ more) = some (value, behind ++ more) := by
  unfold readTyped at read ⊢
  split_ifs at read ⊢
  · cases read
    rfl
  · cases read
    rfl
  · rcases Option.map_eq_some_iff.mp read with ⟨number, parsed, result⟩
    cases result
    rw [parsed, Option.map_some]
  · rcases Option.bind_eq_some_iff.mp read with ⟨length, parsed, bulk⟩
    rw [parsed, Option.bind_some]
    exact readBulk_append bulk more

/-- A reply that is read with nothing left is one value. -/
theorem oneValue_of_readReply {reply : Bytes} {value : RESPValue}
    (read : readReply reply = some (value, [])) :
    OneValue reply := by
  refine ⟨value, fun more => ?_⟩
  cases reply with
  | nil => cases read
  | cons type stream =>
      rw [readReply] at read
      rw [List.cons_append, readReply]
      cases found : readLine stream with
      | none =>
          rw [found] at read
          cases read
      | some parts =>
          rw [found] at read
          rw [readLine_append found more]
          simp only at read ⊢
          split at read
          next clean =>
            rw [if_pos clean]
            exact readTyped_append read more
          next => cases read

/-- A line that was sent as an error is one value exactly when it is clean. -/
theorem oneValue_error_iff {line : Bytes} : OneValue (45 :: (line ++ crlf)) <-> Clean line := by
  constructor
  · rintro ⟨value, reads⟩
    have read := reads []
    rw [List.append_nil, readReply] at read
    cases found : readLine (line ++ crlf) with
    | none =>
        rw [found] at read
        cases read
    | some parts =>
        rcases parts with ⟨before, behind⟩
        rw [found] at read
        simp only at read
        split at read
        next clean =>
          cases read
          have shape := readLine_eq_append found
          rw [List.append_nil] at shape
          exact List.append_cancel_right shape ▸ clean
        next => cases read
  · intro clean
    exact ⟨.error line, fun rest => readReply_line clean 45 rest⟩

theorem text_crlf : text "\r\n" = crlf := by
  rw [text_eq]
  rfl

/-- A string of any bytes is one value, if its length is a number of 64 bits. -/
theorem oneValue_bulkReply {value : Bytes} (bound : value.length < 2 ^ 63) :
    OneValue (bulkReply value) := by
  have lengthValue : (Int64.ofInt value.length).toInt = value.length := toInt_ofInt_natCast bound
  have dollar : text "$" = [36] := by
    rw [text_eq]
    rfl
  have shape : bulkReply value = 36 :: (showNat value.length ++ crlf ++ (value ++ crlf)) := by
    simp only [bulkReply, dollar, text_crlf, List.append_assoc, List.cons_append, List.nil_append]
  have data : readBytes (value.length + 2) (value ++ crlf) = some (value ++ crlf, []) :=
    readBytes_eq_some.mpr ⟨(List.append_nil _).symm, List.length_append⟩
  refine oneValue_of_readReply (?_ : _ = some (.bulkString value, []))
  rw [shape, readReply_line (clean_showNat _)]
  change (parseInteger (showNat value.length)).bind _ = _
  rw [parseInteger, stoll_showNat _ bound, Option.bind_some, readBulk, lengthValue,
    if_neg (by omega), if_neg (by omega), Int.toNat_natCast, data]
  simp only [List.drop_left, List.take_left, if_true]

/-! The replies that do not depend on the command are read as they stand. -/

theorem oneValue_pong : OneValue (text "+PONG\r\n") := by
  rw [text_eq]
  exact oneValue_of_readReply rfl

theorem oneValue_ok : OneValue (text "+OK\r\n") := by
  rw [text_eq]
  exact oneValue_of_readReply rfl

theorem oneValue_one : OneValue (text ":1\r\n") := by
  rw [text_eq]
  exact oneValue_of_readReply rfl

theorem oneValue_null : OneValue (text "$-1\r\n") := by
  rw [text_eq]
  exact oneValue_of_readReply rfl

theorem oneValue_empty : OneValue (text "-ERR empty command\r\n") := by
  rw [text_eq]
  exact oneValue_of_readReply rfl

theorem oneValue_wrongNumber :
    OneValue (text "-ERR wrong number of arguments for 'set'\r\n") ∧
      OneValue (text "-ERR wrong number of arguments for 'get'\r\n") ∧
      OneValue (text "-ERR wrong number of arguments for 'del'\r\n") := by
  simp only [text_eq]
  exact ⟨oneValue_of_readReply rfl, oneValue_of_readReply rfl, oneValue_of_readReply rfl⟩

theorem oneValue_errorReply (error : EngineError) : OneValue (errorReply error) := by
  cases error <;> simp only [errorReply, EngineError.message, text_eq] <;>
    exact oneValue_of_readReply rfl

theorem oneValue_setReply (result : Option EngineError) : OneValue (setReply result) := by
  cases result with
  | none => exact oneValue_ok
  | some error => exact oneValue_errorReply error

theorem oneValue_getReply (handle : Option (EngineHandle P)) (key : Bytes) (moment : Moment) :
    OneValue (getReply (GoEngine.get handle key moment).2) := by
  cases got : (GoEngine.get handle key moment).2 with
  | ok value =>
      exact oneValue_bulkReply (Nat.lt_of_le_of_lt (GoEngine.length_le_of_get got) (by decide))
  | error error =>
      rw [getReply]
      split
      · exact oneValue_null
      · exact oneValue_errorReply error

theorem oneValue_delReply (result : Option EngineError) : OneValue (delReply result) := by
  cases result with
  | none => exact oneValue_one
  | some error =>
      rw [delReply]
      split
      · exact oneValue_one
      · exact oneValue_errorReply error

/-- The line that answers an unknown command. -/
theorem unknown_eq (command : Bytes) :
    text "-ERR unknown command '" ++ command ++ text "'\r\n" =
      45 :: (text "ERR unknown command '" ++ command ++ [39] ++ crlf) := by
  have start : text "-ERR unknown command '" = 45 :: text "ERR unknown command '" := by
    rw [text_eq, text_eq]
    rfl
  have ending : text "'\r\n" = [39] ++ crlf := by
    rw [text_eq]
    rfl
  rw [start, ending, ← List.append_assoc]
  rfl

theorem oneValue_unknown_iff (command : Bytes) :
    OneValue (text "-ERR unknown command '" ++ command ++ text "'\r\n") <-> Clean command := by
  have around : Clean (text "ERR unknown command '") ∧ Clean [39] := by
    rw [text_eq]
    decide
  rw [unknown_eq, oneValue_error_iff, clean_append_iff, clean_append_iff]
  exact ⟨fun all => all.1.2, fun clean => ⟨⟨around.1, clean⟩, around.2⟩⟩

theorem oneValue_run_iff (toUpper : Bytes -> Bytes) (handle : Option (EngineHandle P))
    (moment : Moment) (first : Bytes) (args : List Bytes) :
    OneValue ((handleCommand toUpper (first :: args)).run handle moment).2 <->
        Clean (toUpper first) := by
  simp only [handleCommand]
  by_cases ping : toUpper first = text "PING"
  · rw [if_pos ping, ping]
    exact iff_of_true oneValue_pong clean_ping
  rw [if_neg ping]
  by_cases set : toUpper first = text "SET"
  · rw [if_pos set, set]
    refine iff_of_true ?_ clean_set
    split
    · exact oneValue_setReply _
    · exact oneValue_wrongNumber.1
  rw [if_neg set]
  by_cases get : toUpper first = text "GET"
  · rw [if_pos get, get]
    refine iff_of_true ?_ clean_get
    split
    · exact oneValue_getReply _ _ _
    · exact oneValue_wrongNumber.2.1
  rw [if_neg get]
  by_cases del : toUpper first = text "DEL"
  · rw [if_pos del, del]
    refine iff_of_true ?_ clean_del
    split
    · exact oneValue_delReply _
    · exact oneValue_wrongNumber.2.2
  rw [if_neg del]
  exact oneValue_unknown_iff _

/-- A command without a name, or with one that has no carriage return and no line
feed when it is in capital letters. -/
def CleanName (toUpper : Bytes -> Bytes) (cmd : List Bytes) : Prop :=
  forall first args, cmd = first :: args -> Clean (toUpper first)

/-- The reply to a command is one value exactly when the name of the command is
clean.  This is so for every engine, open or closed, and whatever the strings
behind the name are. -/
theorem one_reply_iff (toUpper : Bytes -> Bytes) (handle : Option (EngineHandle P))
    (moment : Moment) (cmd : List Bytes) :
    OneValue ((handleCommand toUpper cmd).run handle moment).2 <-> CleanName toUpper cmd := by
  cases cmd with
  | nil => exact iff_of_true oneValue_empty (fun _ _ none => absurd none.symm (List.cons_ne_nil _ _))
  | cons first args =>
      rw [oneValue_run_iff]
      constructor
      · rintro clean name rest same
        cases same
        exact clean
      · intro clean
        exact clean first args rfl

/-- A name with a line end inside: the client reads an error, then a value that no
command has asked for, and then bytes that are no value. -/
theorem reply_injected :
    let reply :=
      ((handleCommand asciiUpper [text "x\r\n+OK\r\n"]).run (engineCreate Platform.source 1 1)
        ⟨0, 0, 0, []⟩).2
    reply = text "-ERR unknown command 'X\r\n+OK\r\n'\r\n" ∧
      readReply reply = some (.error (text "ERR unknown command 'X"), text "+OK\r\n'\r\n") ∧
      readReply (text "+OK\r\n'\r\n") = some (.simpleString (text "OK"), text "'\r\n") ∧
      readReply (text "'\r\n") = none ∧ ¬ OneValue reply := by
  intro reply
  have shape : reply = text "-ERR unknown command 'X\r\n+OK\r\n'\r\n" := by decide +kernel
  have read : readReply reply =
      some (.error (text "ERR unknown command 'X"), text "+OK\r\n'\r\n") := by
    simp only [shape, text_eq]
    rfl
  refine ⟨shape, read, ?_, ?_, ?_⟩
  · simp only [text_eq]
    rfl
  · rw [text_eq]
    rfl
  · rintro ⟨value, reads⟩
    have whole := reads []
    rw [List.append_nil, read, Option.some.injEq, Prod.mk.injEq] at whole
    have leftOver := whole.2
    rw [text_eq] at leftOver
    cases leftOver

/-! ## Connections -/

theorem Reading.andThen_eq_value {X Y : Type} {reading : Reading X} {next : X -> Bytes -> Reading Y}
    {result : Y} {rest : Bytes} (read : reading.andThen next = .value result rest) :
    Exists fun first => Exists fun behind => reading = .value first behind ∧
        next first behind = .value result rest := by
  cases reading with
  | value first behind => exact ⟨first, behind, rfl, read⟩
  | failed error => cases read
  | panicked => cases read

theorem length_of_readHeader {type : UInt8} {expected invalid stream rest : Bytes} {number : Int64}
    (read : readHeader type expected invalid stream = .value number rest) :
    rest.length < stream.length := by
  rcases Reading.andThen_eq_value read with ⟨content, behind, line, parsed⟩
  have shorter : behind.length < stream.length := by
    unfold readString at line
    split at line
    · cases line
    next newline more dropped =>
      cases line
      have suffix := (stream.dropWhile_suffix fun byte => byte != 10).length_le
      rw [dropped, List.length_cons] at suffix
      exact suffix
  simp only at parsed
  split at parsed
  · cases parsed
  · split at parsed
    · cases parsed
    · split at parsed <;> cases parsed
      exact shorter

theorem length_of_readBulkString {stream rest value : Bytes}
    (read : readBulkString stream = .value value rest) :
    rest.length < stream.length := by
  rcases Reading.andThen_eq_value read with ⟨length, behind, header, taken⟩
  have shorter := length_of_readHeader header
  split at taken
  · cases taken
  · rcases Reading.andThen_eq_value taken with ⟨data, more, full, cut⟩
    unfold readFull at full
    split at full
    next data' rest' bytes =>
      cases full
      split at cut
      · cases cut
      · cases cut
        have shape := (readBytes_eq_some.mp bytes).1
        rw [shape, List.length_append] at shorter
        omega
    · cases full

theorem length_of_readBulkStrings {count : Nat} {stream rest : Bytes} {values : List Bytes}
    (read : readBulkStrings count stream = .value values rest) : rest.length ≤ stream.length := by
  induction count generalizing stream values with
  | zero =>
      cases read
      exact Nat.le_refl _
  | succ count ih =>
      rcases Reading.andThen_eq_value read with ⟨first, behind, one, others⟩
      rcases Reading.andThen_eq_value others with ⟨values', rest', many, result⟩
      cases result
      exact Nat.le_trans (ih many) (Nat.le_of_lt (length_of_readBulkString one))

/-- Every command that is read takes bytes off the stream. -/
theorem length_of_readRESPArray {stream rest : Bytes} {cmd : List Bytes}
    (read : readRESPArray stream = .value cmd rest) : rest.length < stream.length := by
  rcases Reading.andThen_eq_value read with ⟨count, behind, header, strings⟩
  split at strings
  · cases strings
  · exact Nat.lt_of_le_of_lt (length_of_readBulkStrings strings) (length_of_readHeader header)

/-- What a connection leaves when its loop has ended: the engine, what was written,
and the error of the last read.  There is none if the program has panicked. -/
structure Served (P : Platform) where
  handle : Option (EngineHandle P)
  written : Bytes
  ending : Option ReadError

/-- `handleConnection` on all that the client sends.  The moments are those of the
commands, in order. -/
def handleConnection (toUpper : Bytes -> Bytes) (handle : Option (EngineHandle P))
    (moments : Nat -> Moment) (stream : Bytes) : Served P :=
  match read : readRESPArray stream with
  | .panicked => ⟨handle, [], none⟩
  | .failed error => ⟨handle, [], some error⟩
  | .value cmd rest =>
      let done := (handleCommand toUpper cmd).run handle (moments 0)
      let served := handleConnection toUpper done.1 (fun index => moments (index + 1)) rest
      { served with written := done.2 ++ served.written }
termination_by stream.length
decreasing_by exact length_of_readRESPArray read

/-- The replies to commands, one after the other, and the engine behind the last. -/
def replies (toUpper : Bytes -> Bytes) (handle : Option (EngineHandle P))
    (moments : Nat -> Moment) :
    List (List Bytes) -> Option (EngineHandle P) × List Bytes
  | [] => (handle, [])
  | cmd :: commands =>
      let done := (handleCommand toUpper cmd).run handle (moments 0)
      let others := replies toUpper done.1 (fun index => moments (index + 1)) commands
      (others.1, done.2 :: others.2)

theorem handleConnection_value {toUpper : Bytes -> Bytes} {handle : Option (EngineHandle P)}
    {moments : Nat -> Moment} {stream rest : Bytes} {cmd : List Bytes}
    (read : readRESPArray stream = .value cmd rest) :
    handleConnection toUpper handle moments stream =
      let done := (handleCommand toUpper cmd).run handle (moments 0)
      let served := handleConnection toUpper done.1 (fun index => moments (index + 1)) rest
      { served with written := done.2 ++ served.written } := by
  rw [handleConnection]
  split
  next same => cases read.symm.trans same
  next same => cases read.symm.trans same
  next same =>
    cases read.symm.trans same
    rfl

/-- A pipeline of commands is answered command by command. -/
theorem handleConnection_encoded (toUpper : Bytes -> Bytes) (handle : Option (EngineHandle P))
    (moments : Nat -> Moment) {commands : List (List Bytes)}
    (fits : forall cmd, cmd ∈ commands -> Representable cmd) :
    handleConnection toUpper handle moments (commands.flatMap encodeCommand) =
      ⟨(replies toUpper handle moments commands).1,
          (replies toUpper handle moments commands).2.flatten, some .eof⟩ := by
  induction commands generalizing handle moments with
  | nil =>
      rw [handleConnection]
      rfl
  | cons cmd commands ih =>
      have read := readRESPArray_encodeCommand (fits cmd List.mem_cons_self)
        (commands.flatMap encodeCommand)
      rw [List.flatMap_cons, handleConnection_value read]
      simp only [ih _ _ fun other member => fits other (List.mem_cons_of_mem cmd member), replies,
        List.flatten_cons]

end Server
end KVStore
