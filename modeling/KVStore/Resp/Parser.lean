import KVStore.Library.Decimal

namespace KVStore
namespace Resp

open Decimal

/-!
# The RESP parser of the epoll server

`RESPValue::serialize` and the stateful `RESPParser` of `engine/src/resp.cpp`.
The parser keeps one buffer, one state and one element list for the whole
object, and every completed value calls `reset`, which empties all of them.
An array element is parsed by a recursive call of `parse` on the same object,
so the reset of the element also reaches the frame of its array.

The parsing loop is a recursion on fuel.  `parse` supplies twice the buffer
length and one more, and `parseLoop_stable` shows that no larger supply
changes anything.
-/

/-! ## Values and their encoding -/

inductive RESPValue where
  | simpleString (text : Bytes)
  | error (text : Bytes)
  | integer (value : Int64)
  | bulkString (text : Bytes)
  | array (elements : List RESPValue)
  | nullBulkString

def crlf : Bytes := [13, 10]

mutual

/-- `RESPValue::serialize`. -/
def RESPValue.serialize : RESPValue -> Bytes
  | .simpleString text => 43 :: (text ++ crlf)
  | .error text => 45 :: (text ++ crlf)
  | .integer value => 58 :: (showInt value.toInt ++ crlf)
  | .bulkString text => 36 :: (showNat text.length ++ crlf ++ text ++ crlf)
  | .nullBulkString => [36, 45, 49, 13, 10]
  | .array elements => 42 :: (showNat elements.length ++ crlf ++ serializeAll elements)

/-- The encodings of several values, one behind the other. -/
def serializeAll : List RESPValue -> Bytes
  | [] => []
  | value :: values => value.serialize ++ serializeAll values

end

theorem serialize_ne_nil (value : RESPValue) : value.serialize ≠ [] := by
  cases value <;> simp only [RESPValue.serialize] <;> exact List.cons_ne_nil _ _

/-! ## Parser state -/

inductive State where
  | start
  | simpleString
  | error
  | integer
  | bulkStringLen
  | bulkStringData
  | arrayLen
  | arrayElement
  deriving DecidableEq, Repr

structure RESPParser where
  state : State
  buffer : Bytes
  bulkLen : Int64
  bulkRead : Nat
  arrayLen : Int64
  arrayElements : List RESPValue

/-- `read_line`: split the buffer at the first `\r\n`. -/
def readLine : Bytes -> Option (Bytes × Bytes)
  | [] => none
  | [_] => none
  | first :: second :: rest =>
      if first = 13 ∧ second = 10 then some ([], rest)
      else (readLine (second :: rest)).map (fun parts => (first :: parts.1, parts.2))

/-- `parse_integer`. -/
def parseInteger (text : Bytes) : Option Int64 := stoll text

/-- Conversion of a signed number to `size_t`. -/
def toSize (value : Int) : Nat := (value % 2 ^ 64).toNat

namespace RESPParser

/-- The constructor `RESPParser()`. -/
def new : RESPParser where
  state := .start
  buffer := []
  bulkLen := 0
  bulkRead := 0
  arrayLen := 0
  arrayElements := []

def reset (p : RESPParser) : RESPParser :=
  { p with state := .start, buffer := [], bulkLen := 0, bulkRead := 0, arrayLen := 0, arrayElements := [] }

/-- The state selected by a type byte. -/
def typeState (byte : UInt8) : Option State :=
  if byte = 43 then some .simpleString
  else if byte = 45 then some .error
  else if byte = 58 then some .integer
  else if byte = 36 then some .bulkStringLen
  else if byte = 42 then some .arrayLen
  else none

/-- What one iteration of the loop of `parse` does: return, go on with a new
state, or call `parse("", 0)` for an array element. -/
inductive Next where
  | stop (p : RESPParser) (result : Option RESPValue)
  | again (p : RESPParser)
  | element

/-- The states that wait for a line: `read_line`, and return when there is
none.  The parser passed on has the line and its end removed. -/
def withLine (p : RESPParser) (next : RESPParser -> Bytes -> Next) : Next :=
  match readLine p.buffer with
  | none => .stop p none
  | some (line, rest) => next { p with buffer := rest } line

/-- The states that wait for a line holding a number. -/
def withNumber (p : RESPParser) (next : RESPParser -> Int64 -> Next) : Next :=
  p.withLine fun q line =>
    match parseInteger line with
    | none => .stop q.reset none
    | some number => next q number

/-- State `BulkStringData`. -/
def bulkStringData (p : RESPParser) : Next :=
  if p.buffer.length < toSize (p.bulkLen.toInt + 2 - p.bulkRead) then .stop p none
  else .stop { p with buffer := p.buffer.drop (toSize (p.bulkLen.toInt + 2)) }.reset
    (some (.bulkString (p.buffer.take (toSize p.bulkLen.toInt))))

/-- The `switch` over the states. -/
def step (p : RESPParser) : Next :=
  match p.state with
  | .start =>
      match p.buffer with
      | [] => .stop p none
      | byte :: rest =>
          match typeState byte with
          | some state => .again { p with state := state, buffer := rest }
          | none => .stop { p with buffer := rest }.reset none
  | .simpleString => p.withLine fun q line => .stop q.reset (some (.simpleString line))
  | .error => p.withLine fun q line => .stop q.reset (some (.error line))
  | .integer => p.withNumber fun q number => .stop q.reset (some (.integer number))
  | .bulkStringLen => p.withNumber fun q len =>
      if len.toInt = -1 then .stop q.reset (some .nullBulkString)
      else .again { q with bulkLen := len, bulkRead := 0, state := .bulkStringData }
  | .bulkStringData => p.bulkStringData
  | .arrayLen => p.withNumber fun q len =>
      if len.toInt < 0 then .stop q.reset none
      else if len.toInt = 0 then
        .stop { q with arrayLen := len, arrayElements := [] }.reset (some (.array []))
      else .again { q with arrayLen := len, arrayElements := [], state := .arrayElement }
  | .arrayElement => .element

/-- State `ArrayElement`, after the recursive call has returned an element. -/
def pushElement (p : RESPParser) (elem : RESPValue) : Next :=
  let q := { p with arrayElements := p.arrayElements ++ [elem] }
  if q.arrayElements.length = toSize q.arrayLen.toInt then
    .stop q.reset (some (.array q.arrayElements))
  else .again { q with state := .arrayElement }

/-- The loop of `parse`. -/
def parseLoop : Nat -> RESPParser -> RESPParser × Option RESPValue
  | 0, p => (p, none)
  | fuel + 1, p =>
      if p.buffer = [] then (p, none)
      else
        match p.step with
        | .stop q result => (q, result)
        | .again q => parseLoop fuel q
        | .element =>
            match parseLoop fuel { p with state := .start } with
            | (q, none) => ({ q with state := .arrayElement }, none)
            | (q, some elem) =>
                match q.pushElement elem with
                | .stop r result => (r, result)
                | .again r => parseLoop fuel r
                | .element => (q, none)

/-- `parse(data, len)`. -/
def parse (p : RESPParser) (data : Bytes) : RESPParser × Option RESPValue :=
  let buffer := p.buffer ++ data
  parseLoop (2 * buffer.length + 1) { p with buffer := buffer }

/-! ## Lines -/

/-- A line that is found begins the buffer with its end, or goes on with the line that is found
one byte later. -/
@[elab_as_elim]
theorem readLine_induction {motive : Bytes -> Bytes -> Bytes -> Prop} {buffer line rest : Bytes}
    (found : readLine buffer = some (line, rest))
    (ended : forall tail, motive (13 :: 10 :: tail) [] tail)
    (longer : forall first second tail line rest, ¬ (first = 13 ∧ second = 10) ->
      readLine (second :: tail) = some (line, rest) -> motive (second :: tail) line rest ->
      motive (first :: second :: tail) (first :: line) rest) :
    motive buffer line rest := by
  induction buffer using readLine.induct generalizing line rest with
  | case1 => cases found
  | case2 => cases found
  | case3 first second tail atEnd =>
      rw [readLine, if_pos atEnd] at found
      cases found
      rw [atEnd.1, atEnd.2]
      exact ended tail
  | case4 first second tail notEnd ih =>
      rw [readLine, if_neg notEnd, Option.map_eq_some_iff] at found
      rcases found with ⟨⟨text, behind⟩, inner, result⟩
      cases result
      exact longer first second tail text behind notEnd inner (ih inner)

theorem readLine_append {buffer line rest : Bytes} (found : readLine buffer = some (line, rest))
    (more : Bytes) : readLine (buffer ++ more) = some (line, rest ++ more) := by
  refine readLine_induction found ?_ ?_
  · intro tail
    simp [readLine]
  · intro first second tail line rest notEnd _ step
    rw [List.cons_append] at step
    rw [List.cons_append, List.cons_append, readLine, if_neg notEnd, step, Option.map_some]

theorem readLine_eq_append {buffer line rest : Bytes}
    (found : readLine buffer = some (line, rest)) :
    buffer = line ++ crlf ++ rest := by
  refine readLine_induction found ?_ ?_
  · intro tail
    rfl
  · intro first second tail line rest _ _ shape
    rw [shape]
    rfl

theorem readLine_length {buffer line rest : Bytes} (found : readLine buffer = some (line, rest)) :
    buffer.length = line.length + 2 + rest.length := by
  rw [readLine_eq_append found, List.length_append, List.length_append]
  rfl

/-! ## What one iteration can do -/

/-- A line state stops without a value, or continues behind the line. -/
theorem withLine_cases (p : RESPParser) (next : RESPParser -> Bytes -> Next) :
    (readLine p.buffer = none ∧ p.withLine next = .stop p none) ∨
      Exists fun line => Exists fun rest => readLine p.buffer = some (line, rest) ∧
        p.withLine next = next { p with buffer := rest } line := by
  unfold withLine
  cases found : readLine p.buffer with
  | none => exact Or.inl ⟨rfl, rfl⟩
  | some parts => exact Or.inr ⟨parts.1, parts.2, rfl, rfl⟩

/-- A number state waits for its line, rejects it, or continues with its number. -/
theorem withNumber_cases (p : RESPParser) (next : RESPParser -> Int64 -> Next) :
    (readLine p.buffer = none ∧ p.withNumber next = .stop p none) ∨
      (Exists fun line => Exists fun rest => readLine p.buffer = some (line, rest) ∧
        parseInteger line = none ∧ p.withNumber next = .stop new none) ∨
      Exists fun line => Exists fun rest => Exists fun number =>
        readLine p.buffer = some (line, rest) ∧ parseInteger line = some number ∧
          p.withNumber next = next { p with buffer := rest } number := by
  unfold withNumber
  rcases withLine_cases p _ with ⟨missing, result⟩ | ⟨line, rest, found, result⟩
  · exact Or.inl ⟨missing, result⟩
  · cases number : parseInteger line with
    | none => exact Or.inr (Or.inl ⟨line, rest, found, number, by rw [result, number]; rfl⟩)
    | some value => exact Or.inr (Or.inr ⟨line, rest, value, found, number, by rw [result, number]⟩)

/-- Received bytes are appended to the buffer. -/
def feed (p : RESPParser) (data : Bytes) : RESPParser := { p with buffer := p.buffer ++ data }

@[simp] theorem feed_nil (p : RESPParser) : p.feed [] = p := by
  simp only [feed, List.append_nil]

@[simp] theorem feed_feed (p : RESPParser) (first second : Bytes) :
    (p.feed first).feed second = p.feed (first ++ second) := by
  simp only [feed, List.append_assoc]

/-- What one iteration can do.  It waits for more bytes and leaves the parser as
it was, or resets it, with a value or without one.  An iteration that goes on has
consumed bytes, and would have done the same with more bytes behind them. -/
inductive Steps (p : RESPParser) : Next -> Prop where
  | waits : Steps p (.stop p none)
  | rejects : Steps p (.stop new none)
  | returns (value : RESPValue) : Steps p (.stop new (some value))
  | goesOn (q : RESPParser) (shorter : q.buffer.length < p.buffer.length)
      (further : forall data, (p.feed data).step = .again (q.feed data)) : Steps p (.again q)
  | nests (state : p.state = .arrayElement) : Steps p .element

variable {p : RESPParser}

theorem steps_start (state : p.state = .start) : Steps p p.step := by
  cases bytes : p.buffer with
  | nil =>
      simp only [step, state, bytes]
      exact .waits
  | cons byte rest =>
      cases kind : typeState byte with
      | none =>
          simp only [step, state, bytes, kind]
          exact .rejects
      | some next =>
          simp only [step, state, bytes, kind]
          refine .goesOn _ ?_ fun data => ?_
          · rw [bytes]
            exact Nat.lt_succ_self _
          · simp only [step, feed, state, bytes, List.cons_append, kind]

/-- An iteration in a number state that goes on behind the line. -/
theorem steps_number {p q : RESPParser} {line rest : Bytes}
    (found : readLine p.buffer = some (line, rest)) (behind : q.buffer = rest)
    (further : forall data, readLine (p.buffer ++ data) = some (line, rest ++ data) ->
      (p.feed data).step = .again (q.feed data)) :
    Steps p (.again q) := by
  have length := readLine_length found
  refine .goesOn q ?_ fun data => further data (readLine_append found data)
  rw [behind]
  omega

/-- A number state, up to its number. -/
theorem steps_withNumber {next : RESPParser -> Int64 -> Next}
    (accepted : forall line rest number, readLine p.buffer = some (line, rest) ->
      parseInteger line = some number -> Steps p (next { p with buffer := rest } number)) :
    Steps p (p.withNumber next) := by
  rcases withNumber_cases p next with ⟨_, result⟩ | ⟨line, rest, _, _, result⟩ |
    ⟨line, rest, number, found, parsed, result⟩
  · rw [result]
    exact .waits
  · rw [result]
    exact .rejects
  · rw [result]
    exact accepted line rest number found parsed

theorem steps_step (p : RESPParser) : Steps p p.step := by
  cases state : p.state with
  | start => exact steps_start state
  | simpleString | error =>
      simp only [step, state]
      rcases withLine_cases p _ with ⟨_, result⟩ | ⟨line, rest, _, result⟩
      · rw [result]
        exact .waits
      · rw [result]
        exact .returns _
  | integer =>
      simp only [step, state]
      exact steps_withNumber fun _ _ _ _ _ => .returns _
  | bulkStringLen =>
      simp only [step, state]
      refine steps_withNumber fun line rest number found parsed => ?_
      split
      · exact .returns _
      · rename_i notNull
        refine steps_number found rfl fun data extended => ?_
        simp only [step, feed, withNumber, withLine, state, extended, parsed, if_neg notNull]
  | bulkStringData =>
      simp only [step, state, bulkStringData]
      split
      · exact .waits
      · exact .returns _
  | arrayLen =>
      simp only [step, state]
      refine steps_withNumber fun line rest number found parsed => ?_
      split
      · exact .rejects
      · rename_i notNegative
        split
        · exact .returns _
        · rename_i notEmpty
          refine steps_number found rfl fun data extended => ?_
          simp only [step, feed, withNumber, withLine, state, extended, parsed, if_neg notNegative,
            if_neg notEmpty]
  | arrayElement =>
      simp only [step, state]
      exact .nests state

/-- A value is only ever returned together with a reset parser. -/
theorem step_some {p q : RESPParser} {value : RESPValue} (stopped : p.step = .stop q (some value)) :
    q = new := by
  have steps := steps_step p
  rw [stopped] at steps
  cases steps
  rfl

theorem step_again {p q : RESPParser} (goesOn : p.step = .again q) :
    q.buffer.length < p.buffer.length ∧ forall data, (p.feed data).step = .again (q.feed data) := by
  have steps := steps_step p
  rw [goesOn] at steps
  cases steps with
  | goesOn _ shorter further => exact ⟨shorter, further⟩

/-- An iteration that returns nothing has left the parser as it was, or has reset
it. -/
theorem step_none {p q : RESPParser} (stopped : p.step = .stop q none) : q = p ∨ q = new := by
  have steps := steps_step p
  rw [stopped] at steps
  cases steps with
  | waits => exact Or.inl rfl
  | rejects => exact Or.inr rfl

theorem step_element (nested : p.step = .element) : p.state = .arrayElement := by
  have steps := steps_step p
  rw [nested] at steps
  cases steps with
  | nests state => exact state

/-! ## The loop -/

theorem parseLoop_nil (empty : p.buffer = []) (fuel : Nat) : parseLoop fuel p = (p, none) := by
  cases fuel with
  | zero => rfl
  | succ fuel => rw [parseLoop, if_pos empty]

/-- The element parsed by a recursive call is pushed onto a parser that the
call has reset: it never completes the array. -/
theorem pushElement_new (elem : RESPValue) :
    pushElement new elem = .again { new with state := .arrayElement, arrayElements := [elem] } :=
  rfl

/-- A completed value leaves a parser that has forgotten everything. -/
theorem parseLoop_some {fuel : Nat} {p q : RESPParser} {value : RESPValue}
    (returned : parseLoop fuel p = (q, some value)) : q = new := by
  induction fuel generalizing p q value with
  | zero => cases returned
  | succ fuel ih =>
      rw [parseLoop] at returned
      split at returned
      · cases returned
      · cases taken : p.step with
        | stop r result =>
            simp only [taken] at returned
            cases returned
            exact step_some taken
        | again r =>
            simp only [taken] at returned
            exact ih returned
        | element =>
            simp only [taken] at returned
            rcases inner : parseLoop fuel { p with state := .start } with ⟨r, _ | elem⟩
            · simp only [inner] at returned
              cases returned
            · cases ih inner
              simp only [inner, pushElement_new] at returned
              exact ih returned

/-- In state `ArrayElement` nothing is ever returned. -/
theorem parseLoop_arrayElement (nested : p.state = .arrayElement) (fuel : Nat) :
    Exists fun q => q.state = .arrayElement ∧ parseLoop fuel p = (q, none) := by
  cases fuel with
  | zero => exact ⟨p, nested, rfl⟩
  | succ fuel =>
      by_cases empty : p.buffer = []
      · exact ⟨p, nested, parseLoop_nil empty _⟩
      · have taken : p.step = .element := by simp only [step, nested]
        rw [parseLoop, if_neg empty, taken]
        rcases inner : parseLoop fuel { p with state := .start } with ⟨r, _ | elem⟩
        · exact ⟨_, rfl, rfl⟩
        · cases parseLoop_some inner
          simp only [pushElement_new]
          exact ⟨_, rfl, parseLoop_nil rfl fuel⟩

/-- Iterations that the loop may need. -/
def budget (p : RESPParser) : Nat := 2 * p.buffer.length + if p.state = .arrayElement then 1 else 0

theorem budget_le (p : RESPParser) : p.budget ≤ 2 * p.buffer.length + 1 := by
  unfold budget
  split <;> omega

/-- The fuel of `parse` does not show: the loop needs two iterations a byte. -/
theorem parseLoop_stable {fuel other : Nat} (enough : p.budget ≤ fuel)
    (otherEnough : p.budget ≤ other) : parseLoop fuel p = parseLoop other p := by
  induction fuel generalizing other p with
  | zero =>
      have empty : p.buffer = [] := by
        apply List.length_eq_zero_iff.mp
        unfold budget at enough
        omega
      rw [parseLoop_nil empty, parseLoop_nil empty]
  | succ fuel ih =>
      by_cases empty : p.buffer = []
      · rw [parseLoop_nil empty, parseLoop_nil empty]
      · have nonempty := List.length_pos_of_ne_nil empty
        cases other with
        | zero =>
            unfold budget at otherEnough
            omega
        | succ other =>
            rw [parseLoop, parseLoop, if_neg empty, if_neg empty]
            cases taken : p.step with
            | stop q result => rfl
            | again q =>
                have shorter := (step_again taken).1
                have bound := q.budget_le
                unfold budget at enough otherEnough
                exact ih (by omega) (by omega)
            | element =>
                have nested := step_element taken
                simp only [budget, nested, if_true] at enough otherEnough
                have same : parseLoop fuel { p with state := .start } =
                    parseLoop other { p with state := .start } :=
                  ih (by simp [budget]; omega) (by simp [budget]; omega)
                simp only [same]
                rcases inner : parseLoop other { p with state := .start } with ⟨r, _ | elem⟩
                · rfl
                · cases parseLoop_some inner
                  simp only [pushElement_new]
                  rw [parseLoop_nil rfl, parseLoop_nil rfl]

/-- The loop of `parse` run to its end. -/
def run (p : RESPParser) : RESPParser × Option RESPValue := parseLoop (2 * p.buffer.length + 1) p

theorem parse_eq_run (p : RESPParser) (data : Bytes) : p.parse data = (p.feed data).run := rfl

theorem run_nil (empty : p.buffer = []) : p.run = (p, none) :=
  parseLoop_nil empty _

/-- Inside an array the loop returns nothing, and the parser stays there. -/
theorem run_arrayElement (nested : p.state = .arrayElement) :
    Exists fun q => q.state = .arrayElement ∧ p.run = (q, none) :=
  parseLoop_arrayElement nested _

theorem run_stop {p q : RESPParser} {result : Option RESPValue} (nonempty : p.buffer ≠ [])
    (taken : p.step = .stop q result) : p.run = (q, result) := by
  rw [run, parseLoop, if_neg nonempty, taken]

theorem run_again {p q : RESPParser} (nonempty : p.buffer ≠ []) (taken : p.step = .again q) :
    p.run = q.run := by
  have shorter := (step_again taken).1
  have bound := q.budget_le
  rw [run, parseLoop, if_neg nonempty, taken]
  exact parseLoop_stable (by omega) bound

/-- How a call of `parse` ends: it waits, and later bytes find the parser as if
it had received all of them at once; it has met an error and has dropped the
buffer; it is inside an array, where it stays; or it returns a value. -/
inductive Outcome (p : RESPParser) : RESPParser × Option RESPValue -> Prop where
  | waiting (q : RESPParser) (resumes : forall data, (q.feed data).run = (p.feed data).run) :
    Outcome p (q, none)
  | rejected (nonempty : p.buffer ≠ []) : Outcome p (new, none)
  | stuck (q : RESPParser) (nested : q.state = .arrayElement) : Outcome p (q, none)
  | value (v : RESPValue) : Outcome p (new, some v)

theorem run_outcome (p : RESPParser) : Outcome p p.run := by
  induction length : p.buffer.length using Nat.strong_induction_on generalizing p with
  | _ size ih =>
      by_cases empty : p.buffer = []
      · rw [run_nil empty]
        exact .waiting p fun _ => rfl
      · cases taken : p.step with
        | stop q result =>
            rw [run_stop empty taken]
            cases result with
            | none =>
                rcases step_none taken with rfl | rfl
                · exact .waiting q fun _ => rfl
                · exact .rejected empty
            | some v =>
                cases step_some taken
                exact .value v
        | again q =>
            rcases step_again taken with ⟨shorter, further⟩
            have sameRun : forall data, (q.feed data).run = (p.feed data).run := fun data =>
              (run_again (by simp [feed, empty]) (further data)).symm
            rw [run_again empty taken]
            have outcome := ih _ (length ▸ shorter) q rfl
            generalize q.run = result at outcome
            cases outcome with
            | waiting r resumes => exact .waiting r fun data => (resumes data).trans (sameRun data)
            | rejected _ => exact .rejected empty
            | stuck r nested => exact .stuck r nested
            | value v => exact .value v
        | element =>
            rcases run_arrayElement (step_element taken) with ⟨q, nested, result⟩
            rw [result]
            exact .stuck q nested

end RESPParser
end Resp
end KVStore
