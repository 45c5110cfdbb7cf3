import KVStore.Resp.Parser

namespace KVStore
namespace Resp

open Decimal RESPParser

/-!
# Values read by a fresh parser

What a fresh `RESPParser` returns on a given buffer, in both directions: the
shape of every buffer from which a value is returned, and the value returned
for the output of `serialize`.  A text is sent as a line, so a simple string
or an error with a `\r\n` inside does not come back, and a length line is a
`stoll` number, so a bulk string of 2^63 bytes or more does not either.
Arrays come back only when they are empty.
-/

/-! ## Lines -/

/-- A text that holds no end of line. -/
def Line (text : Bytes) : Prop := ¬ crlf <:+: text

instance (text : Bytes) : Decidable (Line text) := inferInstanceAs (Decidable (¬ _))

theorem Line.tail {first : UInt8} {text : Bytes} (line : Line (first :: text)) : Line text :=
  fun found => line (List.infix_cons found)

theorem line_of_forall_ne {text : Bytes} (noReturn : forall byte, byte ∈ text -> byte ≠ 13) :
    Line text :=
  fun found => noReturn 13 (found.subset (by decide)) rfl

theorem line_of_readLine {buffer line rest : Bytes} (found : readLine buffer = some (line, rest)) :
    Line line := by
  refine readLine_induction found ?_ ?_
  · intro tail
    decide
  · intro first second tail text behind notEnd inner line ending
    have shape := readLine_eq_append inner
    rcases List.infix_cons_iff.mp ending with ⟨more, atStart⟩ | inside
    · apply notEnd
      injection atStart with firstByte textShape
      change _ = text at textShape
      rw [← textShape] at shape
      injection shape with secondByte _
      exact ⟨firstByte.symm, secondByte⟩
    · exact line inside

theorem readLine_line {text : Bytes} (line : Line text) (rest : Bytes) :
    readLine (text ++ crlf ++ rest) = some (text, rest) := by
  induction text with
  | nil => rfl
  | cons first tail ih =>
      have inner := ih line.tail
      cases tail with
      | nil => simp [readLine, crlf]
      | cons second more =>
          have notEnd : ¬ (first = 13 ∧ second = 10) := by
            rintro ⟨rfl, rfl⟩
            exact line ⟨[], more, rfl⟩
          simp only [List.cons_append] at inner ⊢
          rw [readLine, if_neg notEnd, inner, Option.map_some]

/-- A line that is still incomplete is not read. -/
theorem readLine_torn {buffer text more : Bytes} (line : Line text)
    (shape : buffer ++ more = text ++ crlf) (missing : more ≠ []) : readLine buffer = none := by
  cases found : readLine buffer with
  | none => rfl
  | some parts =>
      have extended := readLine_append found more
      have complete := readLine_line line []
      rw [List.append_nil] at complete
      rw [shape, complete, Option.some.injEq, Prod.mk.injEq] at extended
      exact absurd (List.append_eq_nil_iff.mp extended.2.symm).2 missing

theorem line_showNat (value : Nat) : Line (showNat value) :=
  line_of_forall_ne fun byte member => by
    rintro rfl
    exact absurd (isDigit_of_mem_showNat member) (by decide)

theorem line_showInt (value : Int) : Line (showInt value) := by
  apply line_of_forall_ne
  intro byte member
  unfold showInt at member
  split at member
  · rcases List.mem_cons.mp member with rfl | member
    · decide
    · rintro rfl
      exact absurd (isDigit_of_mem_showNat member) (by decide)
  · rintro rfl
    exact absurd (isDigit_of_mem_showNat member) (by decide)

/-! ## Buffers from which a value is returned -/

/-- The buffers on which a fresh parser returns, with the value returned. -/
inductive Received : Bytes -> RESPValue -> Prop where
  | simpleString {buffer line rest : Bytes} (found : readLine buffer = some (line, rest)) :
      Received (43 :: buffer) (.simpleString line)
  | error {buffer line rest : Bytes} (found : readLine buffer = some (line, rest)) :
      Received (45 :: buffer) (.error line)
  | integer {buffer line rest : Bytes} {number : Int64} (found : readLine buffer = some (line, rest))
      (parsed : parseInteger line = some number) : Received (58 :: buffer) (.integer number)
  | nullBulkString {buffer line rest : Bytes} {len : Int64}
      (found : readLine buffer = some (line, rest)) (parsed : parseInteger line = some len)
      (null : len.toInt = -1) : Received (36 :: buffer) .nullBulkString
  | bulkString {buffer line rest : Bytes} {len : Int64} (found : readLine buffer = some (line, rest))
      (parsed : parseInteger line = some len) (notNull : len.toInt ≠ -1)
      (enough : toSize (len.toInt + 2) ≤ rest.length) :
      Received (36 :: buffer) (.bulkString (rest.take (toSize len.toInt)))
  | array {buffer line rest : Bytes} {len : Int64} (found : readLine buffer = some (line, rest))
      (parsed : parseInteger line = some len) (empty : len.toInt = 0) :
        Received (42 :: buffer) (.array [])

/-- A fresh parser that has read a type byte. -/
def expecting (state : State) (buffer : Bytes) : RESPParser :=
  { new with state := state, buffer := buffer }

theorem run_type {byte : UInt8} (state : State) (kind : typeState byte = some state)
    (buffer : Bytes) :
    (new.feed (byte :: buffer)).run = (expecting state buffer).run := by
  apply run_again
  · exact List.cons_ne_nil _ _
  · change step (expecting .start (byte :: buffer)) = _
    simp only [step, expecting, kind]

/-- Any other byte is dropped, and the rest of the buffer with it. -/
theorem run_unknown {byte : UInt8} (kind : typeState byte = none) (buffer : Bytes) :
    (new.feed (byte :: buffer)).run = (new, none) := by
  apply run_stop
  · exact List.cons_ne_nil _ _
  · change step (expecting .start (byte :: buffer)) = _
    simp only [step, expecting, kind]
    rfl

theorem typeState_cases {byte : UInt8} {state : State} (kind : typeState byte = some state) :
    byte = 43 ∧ state = .simpleString ∨ byte = 45 ∧ state = .error ∨ byte = 58 ∧ state = .integer ∨
      byte = 36 ∧ state = .bulkStringLen ∨ byte = 42 ∧ state = .arrayLen := by
  unfold typeState at kind
  repeat' split at kind
  all_goals cases kind
  all_goals simp_all

/-- What follows an iteration. -/
def Next.resume (p : RESPParser) : Next -> RESPParser × Option RESPValue
  | .stop q result => (q, result)
  | .again q => q.run
  | .element => p.run

theorem run_eq_resume {p : RESPParser} (nonempty : p.buffer ≠ []) :
    p.run = Next.resume p p.step := by
  cases taken : p.step with
  | stop q result => exact run_stop nonempty taken
  | again q => exact run_again nonempty taken
  | element => rfl

theorem run_withLine {p : RESPParser} {next : RESPParser -> Bytes -> Next}
    (taken : p.step = p.withLine next) :
    p.run = match readLine p.buffer with
      | none => (p, none)
      | some (line, rest) => Next.resume p (next { p with buffer := rest } line) := by
  by_cases empty : p.buffer = []
  · rw [run_nil empty, empty, readLine]
  · rw [run_eq_resume empty, taken, withLine]
    cases readLine p.buffer with
    | none => rfl
    | some parts => rfl

theorem run_simpleString (buffer : Bytes) :
    (expecting .simpleString buffer).run = match readLine buffer with
      | none => (expecting .simpleString buffer, none)
      | some (line, _) => (new, some (.simpleString line)) := by
  have taken : (expecting .simpleString buffer).step = (expecting .simpleString buffer).withLine
      fun q line => .stop q.reset (some (.simpleString line)) := rfl
  exact run_withLine taken

theorem run_error (buffer : Bytes) :
    (expecting .error buffer).run = match readLine buffer with
      | none => (expecting .error buffer, none)
      | some (line, _) => (new, some (.error line)) := by
  have taken : (expecting .error buffer).step = (expecting .error buffer).withLine
      fun q line => .stop q.reset (some (.error line)) := rfl
  exact run_withLine taken

theorem run_withNumber {p : RESPParser} {next : RESPParser -> Int64 -> Next}
    (taken : p.step = p.withNumber next) :
    p.run = match readLine p.buffer with
      | none => (p, none)
      | some (line, rest) =>
          match parseInteger line with
          | none => (new, none)
          | some number => Next.resume p (next { p with buffer := rest } number) := by
  rw [run_withLine taken]
  rcases readLine p.buffer with _ | ⟨line, rest⟩
  · rfl
  · cases parsed : parseInteger line with
    | none =>
        simp only [parsed]
        rfl
    | some number => simp only [parsed]

theorem run_integer (buffer : Bytes) :
    (expecting .integer buffer).run = match readLine buffer with
      | none => (expecting .integer buffer, none)
      | some (line, _) =>
          match parseInteger line with
          | none => (new, none)
          | some number => (new, some (.integer number)) := by
  have taken : (expecting .integer buffer).step = (expecting .integer buffer).withNumber
      fun q number => .stop q.reset (some (.integer number)) := rfl
  exact run_withNumber taken

/-- A fresh parser that has read the length of a bulk string. -/
def expectingData (len : Int64) (buffer : Bytes) : RESPParser :=
  { expecting .bulkStringData buffer with bulkLen := len }

theorem run_bulkStringLen (buffer : Bytes) :
    (expecting .bulkStringLen buffer).run = match readLine buffer with
      | none => (expecting .bulkStringLen buffer, none)
      | some (line, rest) =>
          match parseInteger line with
          | none => (new, none)
          | some len =>
              if len.toInt = -1 then (new, some .nullBulkString)
              else (expectingData len rest).run := by
  have taken : (expecting .bulkStringLen buffer).step = (expecting .bulkStringLen buffer).withNumber
      fun q len =>
        if len.toInt = -1 then .stop q.reset (some .nullBulkString)
        else .again { q with bulkLen := len, bulkRead := 0, state := .bulkStringData } := rfl
  rw [run_withNumber taken]
  change (match readLine buffer with | none => _ | some (line, rest) => _) = _
  rcases readLine buffer with _ | ⟨line, rest⟩
  · rfl
  · cases parsed : parseInteger line with
    | none => simp only [parsed]
    | some len =>
        by_cases null : len.toInt = -1 <;> simp only [parsed, null, if_true, if_false] <;> rfl

theorem run_bulkStringData (len : Int64) {buffer : Bytes} (nonempty : buffer ≠ []) :
    (expectingData len buffer).run =
      if buffer.length < toSize (len.toInt + 2) then (expectingData len buffer, none)
      else (new, some (.bulkString (buffer.take (toSize len.toInt)))) := by
  have taken : (expectingData len buffer).step = if buffer.length < toSize (len.toInt + 2 - 0) then
      .stop (expectingData len buffer) none
      else .stop new (some (.bulkString (buffer.take (toSize len.toInt)))) := rfl
  rw [sub_zero] at taken
  rw [run_eq_resume nonempty, taken]
  split <;> rfl

/-- A fresh parser that has read the length of an array. -/
def expectingElement (len : Int64) (buffer : Bytes) : RESPParser :=
  { expecting .arrayElement buffer with arrayLen := len }

theorem run_expectingElement (len : Int64) (buffer : Bytes) :
    Exists fun q => (expectingElement len buffer).run = (q, none) := by
  rcases run_arrayElement (p := expectingElement len buffer) rfl with ⟨q, _, result⟩
  exact ⟨q, result⟩

theorem run_arrayLen (buffer : Bytes) :
    (expecting .arrayLen buffer).run = match readLine buffer with
      | none => (expecting .arrayLen buffer, none)
      | some (line, rest) =>
          match parseInteger line with
          | none => (new, none)
          | some len =>
              if len.toInt < 0 then (new, none)
              else if len.toInt = 0 then (new, some (.array []))
              else (expectingElement len rest).run := by
  have taken : (expecting .arrayLen buffer).step = (expecting .arrayLen buffer).withNumber
      fun q len =>
        if len.toInt < 0 then .stop q.reset none
        else if len.toInt = 0 then
          .stop { q with arrayLen := len, arrayElements := [] }.reset (some (.array []))
        else .again { q with arrayLen := len, arrayElements := [], state := .arrayElement } := rfl
  rw [run_withNumber taken]
  change (match readLine buffer with | none => _ | some (line, rest) => _) = _
  rcases readLine buffer with _ | ⟨line, rest⟩
  · rfl
  · cases parsed : parseInteger line with
    | none => simp only [parsed]
    | some len =>
        simp only [parsed]
        split
        · rfl
        · split <;> rfl

variable {value : RESPValue}

/-- Every value returned by a fresh parser comes from one of the shapes. -/
theorem received_of_run {buffer : Bytes} {q : RESPParser}
    (returned : (new.feed buffer).run = (q, some value)) : Received buffer value := by
  cases buffer with
  | nil =>
      rw [feed_nil, run_nil rfl] at returned
      cases returned
  | cons byte buffer =>
      cases kind : typeState byte with
      | none =>
          rw [run_unknown kind] at returned
          cases returned
      | some state =>
          rw [run_type _ kind] at returned
          rcases typeState_cases kind with ⟨rfl, rfl⟩ | ⟨rfl, rfl⟩ | ⟨rfl, rfl⟩
            | ⟨rfl, rfl⟩ | ⟨rfl, rfl⟩
          · rw [run_simpleString] at returned
            split at returned <;> cases returned
            exact .simpleString ‹_›
          · rw [run_error] at returned
            split at returned <;> cases returned
            exact .error ‹_›
          · rw [run_integer] at returned
            repeat' split at returned
            all_goals cases returned
            exact .integer ‹_› ‹_›
          · rw [run_bulkStringLen] at returned
            split at returned
            · cases returned
            · split at returned
              · cases returned
              · split at returned
                · cases returned
                  exact .nullBulkString ‹_› ‹_› ‹_›
                · rename_i rest found _ len parsed notNull
                  by_cases empty : rest = []
                  · rw [run_nil (by exact empty)] at returned
                    cases returned
                  · rw [run_bulkStringData _ empty] at returned
                    split at returned
                    · cases returned
                    · cases returned
                      exact .bulkString found parsed notNull (Nat.le_of_not_lt ‹_›)
          · rw [run_arrayLen] at returned
            repeat' split at returned
            all_goals first | cases returned | skip
            · exact .array ‹_› ‹_› ‹_›
            · rename_i rest _ _ len _ _ _
              rcases run_expectingElement len rest with ⟨r, result⟩
              rw [result] at returned
              cases returned

/-! ## The output of serialize -/

/-- The values that come back from their own encoding. -/
def Transmissible : RESPValue -> Prop
  | .simpleString text => Line text
  | .error text => Line text
  | .bulkString text => text.length < 2 ^ 63
  | .array elements => elements = []
  | .integer _ => True
  | .nullBulkString => True

theorem toSize_natCast (value : Nat) (bound : value < 2 ^ 64) : toSize value = value := by
  unfold toSize
  omega

theorem readLine_bulkString (text rest : Bytes) :
    readLine (showNat text.length ++ crlf ++ text ++ crlf ++ rest) =
        some (showNat text.length, text ++ crlf ++ rest) := by
  rw [List.append_assoc _ crlf rest, List.append_assoc _ text _, List.append_assoc text crlf rest]
  exact readLine_line (line_showNat _) _

theorem run_serialize (fits : Transmissible value) :
    (new.feed value.serialize).run = (new, some value) := by
  cases value with
  | simpleString text =>
      have found := readLine_line fits []
      rw [List.append_nil] at found
      rw [RESPValue.serialize, run_type .simpleString rfl, run_simpleString, found]
  | error text =>
      have found := readLine_line fits []
      rw [List.append_nil] at found
      rw [RESPValue.serialize, run_type .error rfl, run_error, found]
  | integer number =>
      have found := readLine_line (line_showInt number.toInt) []
      rw [List.append_nil] at found
      rw [RESPValue.serialize, run_type .integer rfl, run_integer, found]
      simp only [parseInteger, stoll_showInt]
  | bulkString text =>
      have found := readLine_bulkString text []
      rw [List.append_nil, List.append_nil] at found
      have notNull : (text.length : Int) ≠ -1 := by omega
      have size : toSize ((text.length : Int) + 2) = text.length + 2 :=
        toSize_natCast (text.length + 2) (by have : text.length < 2 ^ 63 := fits; omega)
      rw [RESPValue.serialize, run_type .bulkStringLen rfl, run_bulkStringLen, found]
      simp only [parseInteger, stoll_showNat _ fits, toInt_ofInt_natCast fits, if_neg notNull]
      rw [run_bulkStringData _ (by simp [crlf]), toInt_ofInt_natCast fits, size,
        toSize_natCast _ (by have : text.length < 2 ^ 63 := fits; omega), if_neg (by simp [crlf]),
        List.take_left]
  | array elements =>
      cases fits
      rw [RESPValue.serialize, List.length_nil, showNat_small (by decide), serializeAll]
      rfl
  | nullBulkString => rfl

/-- The parser holds the bytes of an unfinished value: later bytes are read as
if they had come together with them. -/
def Resumes (p : RESPParser) (pending : Bytes) : Prop :=
  forall data, (p.feed data).run = (new.feed (pending ++ data)).run

theorem resumes_new : Resumes new [] := fun _ => rfl

theorem resumes_expecting {byte : UInt8} (state : State) (kind : typeState byte = some state)
    (buffer : Bytes) :
    Resumes (expecting state buffer) (byte :: buffer) :=
  fun data => (run_type _ kind (buffer ++ data)).symm

theorem resumes_expectingData {buffer line rest : Bytes} {len : Int64}
    (found : readLine buffer = some (line, rest)) (parsed : parseInteger line = some len)
    (notNull : len.toInt ≠ -1) : Resumes (expectingData len rest) (36 :: buffer) := by
  intro data
  rw [List.cons_append, run_type .bulkStringLen rfl, run_bulkStringLen, readLine_append found data]
  simp only [parsed, if_neg notNull]
  rfl

/-- A fresh parser waits on every strict beginning of a bulk string, in its length
line or in its bytes. -/
theorem run_bulkString_torn {text buffer back : Bytes} (fits : text.length < 2 ^ 63)
    (cut : buffer ++ back = showNat text.length ++ crlf ++ text ++ crlf) (missing : back ≠ []) :
    Exists fun p => (new.feed (36 :: buffer)).run = (p, none) ∧ Resumes p (36 :: buffer) := by
  cases found : readLine buffer with
  | none =>
      refine ⟨_, ?_, resumes_expecting .bulkStringLen rfl buffer⟩
      rw [run_type .bulkStringLen rfl, run_bulkStringLen, found]
  | some parts =>
      have extended := readLine_append found back
      have whole := readLine_bulkString text []
      rw [List.append_nil, List.append_nil] at whole
      rw [cut, whole, Option.some.injEq, Prod.mk.injEq] at extended
      rcases extended with ⟨lineShape, dataShape⟩
      have parsed : parseInteger parts.1 = some (Int64.ofInt text.length) := by
        rw [← lineShape]
        exact stoll_showNat _ fits
      have notNull : (Int64.ofInt text.length).toInt ≠ -1 := by
        rw [toInt_ofInt_natCast fits]
        omega
      refine ⟨_, ?_, resumes_expectingData found parsed notNull⟩
      rw [run_type .bulkStringLen rfl, run_bulkStringLen, found]
      simp only [parsed, if_neg notNull]
      by_cases empty : parts.2 = []
      · exact run_nil empty
      · have size : toSize ((text.length : Int) + 2) = text.length + 2 :=
          toSize_natCast (text.length + 2) (by omega)
        have lengths := congrArg List.length dataShape
        have backLength := List.length_pos_of_ne_nil missing
        simp only [List.length_append, crlf, List.length_cons, List.length_nil] at lengths
        rw [run_bulkStringData _ empty, toInt_ofInt_natCast fits, size, if_pos (by omega)]

/-- A fresh parser waits on every strict beginning of an encoding. -/
theorem run_serialize_torn (fits : Transmissible value) {front back : Bytes}
    (cut : front ++ back = value.serialize) (missing : back ≠ []) :
    Exists fun p => (new.feed front).run = (p, none) ∧ Resumes p front := by
  cases front with
  | nil => exact ⟨new, run_nil rfl, resumes_new⟩
  | cons byte buffer =>
      cases value with
      | simpleString text =>
          injection cut with type rest
          cases type
          refine ⟨_, ?_, resumes_expecting .simpleString rfl buffer⟩
          rw [run_type .simpleString rfl, run_simpleString, readLine_torn fits rest missing]
      | error text =>
          injection cut with type rest
          cases type
          refine ⟨_, ?_, resumes_expecting .error rfl buffer⟩
          rw [run_type .error rfl, run_error, readLine_torn fits rest missing]
      | integer number =>
          injection cut with type rest
          cases type
          refine ⟨_, ?_, resumes_expecting .integer rfl buffer⟩
          rw [run_type .integer rfl, run_integer, readLine_torn (line_showInt _) rest missing]
      | bulkString text =>
          injection cut with type rest
          cases type
          exact run_bulkString_torn fits rest missing
      | array elements =>
          cases fits
          injection cut with type rest
          cases type
          refine ⟨_, ?_, resumes_expecting .arrayLen rfl buffer⟩
          simp only [List.length_nil, serializeAll, List.append_nil] at rest
          rw [run_type .arrayLen rfl, run_arrayLen, readLine_torn (line_showNat 0) rest missing]
      | nullBulkString =>
          injection cut with type rest
          cases type
          refine ⟨_, ?_, resumes_expecting .bulkStringLen rfl buffer⟩
          rw [run_type .bulkStringLen rfl, run_bulkStringLen,
            readLine_torn (show Line [45, 49] by decide) rest missing]

/-! ## Sizes

A value is never longer than the bytes it was read from, except through a
length line that holds a negative number: the comparison with the buffer size
is made in `size_t`, and -2 asks for no bytes at all.
-/

theorem length_showNat_pos (value : Nat) : 0 < (showNat value).length :=
  List.length_pos_of_ne_nil (showNat_ne_nil value)

theorem length_serialize_of_received {buffer : Bytes} (received : Received buffer value) :
    value.serialize.length ≤ buffer.length ∨
      Exists fun text => value = .bulkString text ∧ buffer.head? = some 36 ∧
        value.serialize.length ≤ buffer.length + (showNat text.length).length := by
  cases received with
  | simpleString found | error found =>
      apply Or.inl
      have length := readLine_length found
      simp only [RESPValue.serialize, List.length_cons, List.length_append, crlf, List.length_nil]
      omega
  | integer found parsed =>
      apply Or.inl
      have length := readLine_length found
      have shorter := length_showInt_le_of_stoll parsed
      simp only [RESPValue.serialize, List.length_cons, List.length_append, crlf, List.length_nil]
      omega
  | nullBulkString found parsed null =>
      apply Or.inl
      have length := readLine_length found
      have shorter := length_showInt_le_of_stoll parsed
      rw [null, showInt, if_pos (by decide), List.length_cons] at shorter
      have digits := length_showNat_pos (Int.natAbs (-1))
      simp only [RESPValue.serialize, List.length_cons, List.length_nil]
      omega
  | @bulkString buffer line rest len found parsed notNull enough =>
      have length := readLine_length found
      have shorter := length_showInt_le_of_stoll parsed
      by_cases negative : len.toInt < 0
      · refine Or.inr ⟨_, rfl, rfl, ?_⟩
        rw [showInt, if_pos negative, List.length_cons] at shorter
        have digits := length_showNat_pos len.toInt.natAbs
        simp only [RESPValue.serialize, List.length_cons, List.length_append, crlf, List.length_nil,
          List.length_take]
        omega
      · apply Or.inl
        have upper : len.toInt < 2 ^ 63 := Int64.toInt_lt len
        have size : toSize len.toInt = len.toInt.natAbs := by
          unfold toSize
          omega
        have sizeWithEnd : toSize (len.toInt + 2) = len.toInt.natAbs + 2 := by
          unfold toSize
          omega
        rw [showInt, if_neg negative] at shorter
        have taken : (rest.take len.toInt.natAbs).length = len.toInt.natAbs := by
          rw [List.length_take]
          omega
        rw [size]
        simp only [RESPValue.serialize, List.length_cons, List.length_append, crlf,
          List.length_nil, taken]
        omega
  | array found parsed empty =>
      apply Or.inl
      have length := readLine_length found
      have shorter := length_showInt_le_of_stoll parsed
      rw [empty, showInt, if_neg (by decide)] at shorter
      simp only [RESPValue.serialize, serializeAll, List.length_cons, List.length_append, crlf,
        List.length_nil]
      change (showNat 0).length ≤ _ at shorter
      omega

/-- A value that is returned at the place where its own encoding stands is
transmissible, and the parser has received all of it. -/
theorem transmissible_of_received {buffer more rest : Bytes} (received : Received buffer value)
    (aligned : buffer ++ more = value.serialize ++ rest) :
    Transmissible value ∧ value.serialize.length ≤ buffer.length := by
  have size := length_serialize_of_received received
  cases received with
  | simpleString found | error found =>
      exact ⟨line_of_readLine found, size.resolve_right (by rintro ⟨text, shape, _⟩; cases shape)⟩
  | integer found parsed =>
      exact ⟨trivial, size.resolve_right (by rintro ⟨text, shape, _⟩; cases shape)⟩
  | nullBulkString found parsed null =>
      exact ⟨trivial, size.resolve_right (by rintro ⟨text, shape, _⟩; cases shape)⟩
  | array found parsed empty =>
      exact ⟨rfl, size.resolve_right (by rintro ⟨text, shape, _⟩; cases shape)⟩
  | @bulkString buffer line rest' len found parsed notNull enough =>
      generalize data : rest'.take (toSize len.toInt) = text at aligned size ⊢
      have extended := readLine_append found more
      injection aligned with _ shape
      change buffer ++ more = showNat text.length ++ crlf ++ text ++ crlf ++ rest at shape
      rw [shape, readLine_bulkString, Option.some.injEq, Prod.mk.injEq] at extended
      rcases extended with ⟨lineShape, _⟩
      have fits : text.length < 2 ^ 63 := by
        by_contra large
        rw [← lineShape, parseInteger, stoll_showNat_overflow _ (Nat.le_of_not_lt large)] at parsed
        cases parsed
      refine ⟨fits, ?_⟩
      rw [← lineShape, parseInteger, stoll_showNat _ fits, Option.some.injEq] at parsed
      have length := readLine_length found
      have sizeWithEnd : toSize ((text.length : Int) + 2) = text.length + 2 :=
        toSize_natCast (text.length + 2) (by omega)
      rw [← parsed, toInt_ofInt_natCast fits, sizeWithEnd] at enough
      rw [← lineShape] at length
      simp only [RESPValue.serialize, List.length_cons, List.length_append, crlf, List.length_nil]
      omega

/-! ## Arrays and commands -/

/-- `RESPCommand`. -/
structure RESPCommand where
  command : Bytes
  args : List Bytes
  deriving DecidableEq, Repr

/-- `toupper` in the default locale. -/
def toupper (byte : UInt8) : UInt8 := if 97 ≤ byte.toNat ∧ byte.toNat ≤ 122 then byte - 32 else byte

/-- The text of a bulk string. -/
def bulkText : RESPValue -> Option Bytes
  | .bulkString text => some text
  | _ => none

/-- `to_command`: an array of bulk strings, the first of which is the name of
the command. -/
def toCommand : RESPValue -> Option RESPCommand
  | .array (.bulkString name :: rest) => (rest.mapM bulkText).map fun args => ⟨name.map toupper, args⟩
  | _ => none

theorem parse_array_none {elements : List RESPValue} (nonempty : elements ≠ []) :
    (new.parse (RESPValue.array elements).serialize).2 = none := by
  have count := List.length_pos_of_ne_nil nonempty
  rw [parse_eq_run, RESPValue.serialize, run_type .arrayLen rfl, run_arrayLen,
    readLine_line (line_showNat _)]
  by_cases fits : elements.length < 2 ^ 63
  · have length : (Int64.ofInt elements.length).toInt = elements.length := toInt_ofInt_natCast fits
    simp only [parseInteger, stoll_showNat _ fits, length]
    rw [if_neg (by omega), if_neg (by omega)]
    rcases run_expectingElement (Int64.ofInt elements.length) (serializeAll elements) with ⟨q, result⟩
    rw [result]
  · simp only [parseInteger, stoll_showNat_overflow _ (Nat.le_of_not_lt fits)]

/-- The array round trip: a fresh parser gives an array back exactly when the
array is empty, and `to_command` never sees the command of a client. -/
theorem parse_serialize_array_iff (elements : List RESPValue) :
    ((new.parse (RESPValue.array elements).serialize).2 = some (.array elements) <-> elements = []) ∧
      forall words : List Bytes,
        (new.parse (RESPValue.array (words.map .bulkString)).serialize).2.bind toCommand = none := by
  constructor
  · constructor
    · intro returned
      by_contra nonempty
      rw [parse_array_none nonempty] at returned
      cases returned
    · rintro rfl
      rw [parse_eq_run, run_serialize (show Transmissible (.array []) from rfl)]
  · intro words
    by_cases empty : words = []
    · rw [empty, parse_eq_run, List.map_nil, run_serialize (show Transmissible (.array []) from rfl)]
      rfl
    · rw [parse_array_none (by simpa using empty)]
      rfl

/-- The command `PING`, sent as an array of one bulk string, is not recovered. -/
theorem parse_ping_lost :
    toCommand (.array [.bulkString [80, 73, 78, 71]]) = some ⟨[80, 73, 78, 71], []⟩ ∧
      (new.parse (RESPValue.array [.bulkString [80, 73, 78, 71]]).serialize).2 = none := by
  refine ⟨by decide, ?_⟩
  have encoded : (RESPValue.array [.bulkString [80, 73, 78, 71]]).serialize =
      [42, 49, 13, 10, 36, 52, 13, 10, 80, 73, 78, 71, 13, 10] := by
    simp [RESPValue.serialize, serializeAll, showNat_small, crlf]
  rw [encoded]
  rfl

end Resp
end KVStore
