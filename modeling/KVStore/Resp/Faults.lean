import KVStore.Resp.Feeding

namespace KVStore
namespace Resp

open Decimal RESPParser

/-!
# Lengths that a parser cannot take

`parse` checks a declared length for being a number of 64 bits and for nothing else.
It then adds two to it as a signed number, passes it to `substr` and `erase` as an
unsigned one, and reserves room for as many elements as an array declares.  The loop
below is the loop of `parse` with these operations made explicit:  each of them may
fault, and a fault is not caught on the way to the loop of the server.

Which inputs fault is a matter of the lines behind the `$` and `*` that the parser
meets, down into the first elements of arrays.
-/

/-! ## Faults -/

inductive Fault where
  /-- `bulk_len_ + 2` outside the range of `int64_t`. -/
  | overflow
  /-- `substr` or `erase` with a negative length. -/
  | negativeLength
  /-- `std::length_error`. -/
  | lengthError
  /-- `std::bad_alloc`. -/
  | badAlloc
  deriving DecidableEq, Repr

/-- What `array_elements_.reserve` meets:  the `max_size` of the vector, and the numbers of
elements for which there is room. -/
structure Memory where
  maxSize : Nat
  allocates : Nat -> Bool

/-- `array_elements_.reserve(count)`. -/
def Memory.reserve (memory : Memory) (count : Nat) : Option Fault :=
  if memory.maxSize < count then some .lengthError
  else if memory.allocates count then none
  else some .badAlloc

variable (memory : Memory)

/-- The fault in an iteration of the loop, if there is one.  A negative count never comes to
`reserve`. -/
def RESPParser.fault (p : RESPParser) : Option Fault :=
  match p.state with
  | .bulkStringData =>
      if 2 ^ 63 ≤ p.bulkLen.toInt + 2 then some .overflow
      else if p.buffer.length < toSize (p.bulkLen.toInt + 2 - p.bulkRead) then none
      else if p.bulkLen.toInt < 0 then some .negativeLength
      else none
  | .arrayLen =>
      match readLine p.buffer with
      | none => none
      | some (line, _) =>
          match parseInteger line with
          | none => none
          | some len => if len.toInt < 0 then none else memory.reserve len.toInt.toNat
  | _ => none

/-- The loop of `parse`, up to the first fault. -/
def checkedLoop : Nat -> RESPParser -> Except Fault (RESPParser × Option RESPValue)
  | 0, p => .ok (p, none)
  | fuel + 1, p =>
      if p.buffer = [] then .ok (p, none)
      else
        match p.fault memory with
        | some fault => .error fault
        | none =>
            match p.step with
            | .stop q result => .ok (q, result)
            | .again q => checkedLoop fuel q
            | .element =>
                match checkedLoop fuel { p with state := .start } with
                | .error fault => .error fault
                | .ok (q, none) => .ok ({ q with state := .arrayElement }, none)
                | .ok (q, some elem) =>
                    match q.pushElement elem with
                    | .stop r result => .ok (r, result)
                    | .again r => checkedLoop fuel r
                    | .element => .ok (q, none)

/-- `parse(data, len)`, up to the first fault. -/
def checkedParse (p : RESPParser) (data : Bytes) : Except Fault (RESPParser × Option RESPValue) :=
  let buffer := p.buffer ++ data
  checkedLoop memory (2 * buffer.length + 1) { p with buffer := buffer }

/-- One call after the other. -/
def checkedFeed : RESPParser -> List Bytes -> Except Fault RESPParser
  | p, [] => .ok p
  | p, chunk :: chunks =>
      match checkedParse memory p chunk with
      | .error fault => .error fault
      | .ok (q, _) => checkedFeed q chunks

/-! ## Without a fault -/

variable {memory}

variable {p : RESPParser} {fuel : Nat}

/-- Without a fault the loop computes what the model of `parse` computes. -/
theorem parseLoop_of_checkedLoop {result : RESPParser × Option RESPValue}
    (returned : checkedLoop memory fuel p = .ok result) : parseLoop fuel p = result := by
  induction fuel generalizing p result with
  | zero =>
      cases returned
      rfl
  | succ fuel ih =>
      rw [checkedLoop] at returned
      rw [parseLoop]
      split at returned
      · cases returned
        rw [if_pos ‹_›]
      · rw [if_neg ‹_›]
        split at returned
        · cases returned
        · split at returned
          · cases returned
            simp only [*]
          · simp only [*, ih returned]
          · split at returned
            · cases returned
            · cases returned
              simp only [*, ih ‹_›]
            · simp only [*, ih ‹checkedLoop memory fuel { p with state := .start } = _›]
              split at returned
              · cases returned
                simp only [*]
              · simp only [*, ih returned]
              · cases returned
                simp only [*]

/-- A loop that meets a fault. -/
def Fails (memory : Memory) (fuel : Nat) (p : RESPParser) : Prop :=
  Exists fun fault => checkedLoop memory fuel p = .error fault

theorem not_fails_of_nil (empty : p.buffer = []) : ¬ Fails memory fuel p := by
  rintro ⟨fault, failed⟩
  cases fuel with
  | zero => cases failed
  | succ fuel =>
      rw [checkedLoop, if_pos empty] at failed
      cases failed

theorem fails_of_fault {fault : Fault} (nonempty : p.buffer ≠ [])
    (here : p.fault memory = some fault) : Fails memory (fuel + 1) p :=
  ⟨fault, by rw [checkedLoop, if_neg nonempty, here]⟩

theorem not_fails_of_stop {p q : RESPParser} {result : Option RESPValue}
    (safe : p.fault memory = none) (taken : p.step = .stop q result) :
    ¬ Fails memory (fuel + 1) p := by
  by_cases empty : p.buffer = []
  · exact not_fails_of_nil empty
  · rintro ⟨fault, failed⟩
    rw [checkedLoop, if_neg empty, safe, taken] at failed
    cases failed

theorem fails_again_iff {p q : RESPParser} (nonempty : p.buffer ≠ []) (safe : p.fault memory = none)
    (taken : p.step = .again q) : Fails memory (fuel + 1) p <-> Fails memory fuel q := by
  rw [Fails, checkedLoop, if_neg nonempty, safe, taken]
  exact Iff.rfl

/-- Behind the call for an element there is nothing left that could fault. -/
theorem fails_arrayElement_iff (nested : p.state = .arrayElement) :
    Fails memory (fuel + 1) p <-> p.buffer ≠ [] ∧ Fails memory fuel { p with state := .start } := by
  by_cases empty : p.buffer = []
  · exact iff_of_false (not_fails_of_nil empty) fun both => both.1 empty
  · have safe : p.fault memory = none := by simp only [RESPParser.fault, nested]
    have taken : p.step = .element := by simp only [step, nested]
    rw [Fails, checkedLoop, if_neg empty, safe, taken]
    rcases inner : checkedLoop memory fuel { p with state := .start } with fault | ⟨q, _ | elem⟩
    · exact iff_of_true ⟨fault, rfl⟩ ⟨empty, fault, inner⟩
    · refine iff_of_false ?_ fun both => ?_
      · rintro ⟨fault, failed⟩
        cases failed
      · rcases both.2 with ⟨fault, failed⟩
        cases inner.symm.trans failed
    · cases parseLoop_some (parseLoop_of_checkedLoop inner)
      refine iff_of_false ?_ fun both => ?_
      · rintro ⟨fault, failed⟩
        simp only [pushElement_new] at failed
        exact not_fails_of_nil rfl ⟨fault, failed⟩
      · rcases both.2 with ⟨fault, failed⟩
        cases inner.symm.trans failed

/-! ## Faults of one state -/

/-- A length that faults once there are bytes behind its line. -/
def Dangerous (len : Int) (available : Nat) : Prop :=
  2 ^ 63 ≤ len + 2 ∨ len < 0 ∧ toSize (len + 2) ≤ available

theorem fault_bulkStringData (state : p.state = .bulkStringData) (unread : p.bulkRead = 0) :
    p.fault memory ≠ none <-> Dangerous p.bulkLen.toInt p.buffer.length := by
  simp only [RESPParser.fault, state, unread, Int.natCast_zero, sub_zero, Dangerous]
  split
  · exact iff_of_true (by simp) (Or.inl ‹_›)
  · split
    · simp only [ne_eq, not_true_eq_false, false_iff, not_or, not_and]
      omega
    · split
      · simp only [ne_eq, reduceCtorEq, not_false_eq_true, true_iff]
        omega
      · simp only [ne_eq, not_true_eq_false, false_iff, not_or, not_and]
        omega

theorem fails_bulkStringData_iff (state : p.state = .bulkStringData) (unread : p.bulkRead = 0) :
    Fails memory (fuel + 1) p <-> p.buffer ≠ [] ∧ Dangerous p.bulkLen.toInt p.buffer.length := by
  have faulty : p.fault memory ≠ none <-> Dangerous p.bulkLen.toInt p.buffer.length :=
    fault_bulkStringData state unread
  rw [← faulty]
  by_cases empty : p.buffer = []
  · exact iff_of_false (not_fails_of_nil empty) fun both => both.1 empty
  · cases here : p.fault memory with
    | some fault => exact iff_of_true (fails_of_fault empty here) ⟨empty, by simp⟩
    | none =>
        refine iff_of_false ?_ fun both => both.2 rfl
        cases taken : p.step with
        | stop q result => exact not_fails_of_stop here taken
        | again q =>
            simp only [step, state, bulkStringData] at taken
            split at taken <;> cases taken
        | element => exact absurd (step_element taken) (by simp [state])

/-- The states behind `+`, `-` and `:`. -/
theorem not_fails_line (state : p.state = .simpleString ∨ p.state = .error ∨ p.state = .integer) :
    ¬ Fails memory fuel p := by
  cases fuel with
  | zero =>
      rintro ⟨fault, failed⟩
      cases failed
  | succ fuel =>
      have safe : p.fault memory = none :=
        by rcases state with state | state | state <;> simp only [RESPParser.fault, state]
      cases taken : p.step with
      | stop q result => exact not_fails_of_stop safe taken
      | element =>
          exact absurd (step_element taken)
            (by rcases state with state | state | state <;> simp [state])
      | again q =>
          rcases state with state | state | state <;>
            simp only [step, state, withNumber, withLine] at taken
          all_goals
            repeat' split at taken
            all_goals cases taken

/-- The number on the first line of a buffer, and what is behind the line. -/
def declared (buffer : Bytes) : Option (Int64 × Bytes) :=
  match readLine buffer with
  | none => none
  | some (line, rest) => (parseInteger line).map fun number => (number, rest)

theorem withNumber_of_declared {number : Int64} {rest : Bytes}
    (declares : declared p.buffer = some (number, rest)) (next : RESPParser -> Int64 -> Next) :
    p.withNumber next = next { p with buffer := rest } number := by
  rw [declared] at declares
  split at declares
  · cases declares
  · rename_i line behind found
    rcases Option.map_eq_some_iff.mp declares with ⟨value, parsed, same⟩
    cases same
    simp only [withNumber, withLine, found, parsed]

theorem withNumber_of_undeclared (undeclared : declared p.buffer = none)
    (next : RESPParser -> Int64 -> Next) : Exists fun q => p.withNumber next = .stop q none := by
  rcases withNumber_cases p next with ⟨_, result⟩ | ⟨line, rest, _, _, result⟩
    | ⟨line, rest, number, found, parsed, _⟩
  · exact ⟨p, result⟩
  · exact ⟨new, result⟩
  · rw [declared, found] at undeclared
    simp [parsed] at undeclared

theorem ne_nil_of_declared {buffer rest : Bytes} {number : Int64}
    (declares : declared buffer = some (number, rest)) :
    buffer ≠ [] := by
  rintro rfl
  cases declares

/-- The state behind `$`. -/
theorem fails_bulkStringLen_iff (state : p.state = .bulkStringLen) :
    Fails memory (fuel + 2) p <-> Exists fun len => Exists fun rest =>
      declared p.buffer = some (len, rest) ∧ len.toInt ≠ -1 ∧ rest ≠ [] ∧
          Dangerous len.toInt rest.length := by
  have safe : p.fault memory = none := by simp only [RESPParser.fault, state]
  have stepped : p.step = p.withNumber fun q len =>
      if len.toInt = -1 then .stop q.reset (some .nullBulkString)
      else .again { q with bulkLen := len, bulkRead := 0, state := .bulkStringData } := by
    simp only [step, state]
  cases declares : declared p.buffer with
  | none =>
      rcases withNumber_of_undeclared declares _ with ⟨q, stopped⟩
      exact iff_of_false (not_fails_of_stop safe (stepped.trans stopped)) (by simp)
  | some parts =>
      rcases parts with ⟨len, rest⟩
      rw [withNumber_of_declared declares] at stepped
      by_cases null : len.toInt = -1
      · rw [if_pos null] at stepped
        exact iff_of_false (not_fails_of_stop safe stepped) (by simp [null])
      · rw [if_neg null] at stepped
        rw [fails_again_iff (ne_nil_of_declared declares) safe stepped,
          fails_bulkStringData_iff rfl rfl]
        simp [null]

theorem fault_arrayLen (state : p.state = .arrayLen) :
    p.fault memory =
      match declared p.buffer with
      | none => none
      | some (len, _) => if len.toInt < 0 then none else memory.reserve len.toInt.toNat := by
  simp only [RESPParser.fault, state, declared]
  cases readLine p.buffer with
  | none => rfl
  | some parts => cases parsed : parseInteger parts.1 <;> simp [parsed]

/-- The state behind `*`. -/
theorem fails_arrayLen_iff (state : p.state = .arrayLen) :
    Fails memory (fuel + 2) p <-> Exists fun len => Exists fun rest =>
      declared p.buffer = some (len, rest) ∧ 0 ≤ len.toInt ∧
        (memory.reserve len.toInt.toNat ≠ none ∨
          0 < len.toInt ∧ rest ≠ [] ∧
            Fails memory fuel { p with
                buffer := rest, arrayLen := len, arrayElements := [], state := .start }) := by
  have here : p.fault memory = _ := fault_arrayLen state
  have stepped : p.step = p.withNumber fun q len =>
      if len.toInt < 0 then .stop q.reset none
      else if len.toInt = 0 then
        .stop { q with arrayLen := len, arrayElements := [] }.reset (some (.array []))
      else .again { q with arrayLen := len, arrayElements := [], state := .arrayElement } := by
    simp only [step, state]
  cases declares : declared p.buffer with
  | none =>
      rw [declares] at here
      rcases withNumber_of_undeclared declares _ with ⟨q, stopped⟩
      exact iff_of_false (not_fails_of_stop here (stepped.trans stopped)) (by simp)
  | some parts =>
      rcases parts with ⟨len, rest⟩
      simp only [declares] at here
      rw [withNumber_of_declared declares] at stepped
      by_cases negative : len.toInt < 0
      · rw [if_pos negative] at here stepped
        refine iff_of_false (not_fails_of_stop here stepped) ?_
        rintro ⟨_, _, same, natural, _⟩
        cases same
        omega
      · rw [if_neg negative] at here stepped
        cases reserved : memory.reserve len.toInt.toNat with
        | some fault =>
            refine iff_of_true (fails_of_fault (ne_nil_of_declared declares) (here.trans reserved))
              ⟨len, rest, rfl, ?_, ?_⟩
            · omega
            · exact Or.inl fun nothing => by cases reserved.symm.trans nothing
        | none =>
            by_cases zero : len.toInt = 0
            · rw [if_pos zero] at stepped
              refine iff_of_false (not_fails_of_stop (here.trans reserved) stepped) ?_
              rintro ⟨_, _, same, _, refused | ⟨positive, _⟩⟩
              · cases same
                exact refused reserved
              · cases same
                omega
            · rw [if_neg zero] at stepped
              rw [fails_again_iff (ne_nil_of_declared declares) (here.trans reserved) stepped,
                fails_arrayElement_iff rfl]
              constructor
              · rintro ⟨more, inside⟩
                exact ⟨len, rest, rfl, by omega, Or.inr ⟨by omega, more, inside⟩⟩
              · rintro ⟨_, _, same, _, refused | ⟨_, more, inside⟩⟩
                · cases same
                  exact absurd reserved refused
                · cases same
                  exact ⟨more, inside⟩

/-- A type byte that is known. -/
theorem fails_type_iff {byte : UInt8} {rest : Bytes} {next : State} (state : p.state = .start)
    (bytes : p.buffer = byte :: rest) (kind : typeState byte = some next) :
    Fails memory (fuel + 1) p <-> Fails memory fuel { p with state := next, buffer := rest } := by
  have safe : p.fault memory = none := by simp only [RESPParser.fault, state]
  have taken : p.step = .again { p with state := next, buffer := rest } := by
    simp only [step, state, bytes, kind]
  exact fails_again_iff (by simp [bytes]) safe taken

/-- The type byte. -/
theorem fails_start_iff (state : p.state = .start) :
    Fails memory (fuel + 1) p <-> Exists fun byte => Exists fun rest => Exists fun next =>
      p.buffer = byte :: rest ∧ typeState byte = some next ∧
        Fails memory fuel { p with state := next, buffer := rest } := by
  cases bytes : p.buffer with
  | nil => exact iff_of_false (not_fails_of_nil bytes) (by simp)
  | cons byte rest =>
      cases kind : typeState byte with
      | none =>
          have safe : p.fault memory = none := by simp only [RESPParser.fault, state]
          have taken : p.step = .stop ({ p with buffer := rest } : RESPParser).reset none := by
            simp only [step, state, bytes, kind]
          refine iff_of_false (not_fails_of_stop safe taken) ?_
          rintro ⟨_, _, next, same, known, _⟩
          cases same
          cases kind.symm.trans known
      | some next =>
          rw [fails_type_iff state bytes kind]
          constructor
          · intro fails
            exact ⟨byte, rest, next, rfl, kind, fails⟩
          · rintro ⟨_, _, _, same, known, fails⟩
            cases same
            cases kind.symm.trans known
            exact fails

/-! ## Inputs that fault -/

/-- The bytes on which a fresh parser faults. -/
inductive Faulty (memory : Memory) : Bytes -> Prop where
  | length {buffer rest : Bytes} {len : Int64} (declares : declared buffer = some (len, rest))
      (notNull : len.toInt ≠ -1) (more : rest ≠ []) (dangerous : Dangerous len.toInt rest.length) :
      Faulty memory (36 :: buffer)
  | count {buffer rest : Bytes} {len : Int64} (declares : declared buffer = some (len, rest))
      (natural : 0 ≤ len.toInt) (refused : memory.reserve len.toInt.toNat ≠ none) :
        Faulty memory (42 :: buffer)
  | element {buffer rest : Bytes} {len : Int64} (declares : declared buffer = some (len, rest))
      (positive : 0 < len.toInt) (inside : Faulty memory rest) : Faulty memory (42 :: buffer)

theorem length_declared {buffer rest : Bytes} {number : Int64}
    (declares : declared buffer = some (number, rest)) :
    rest.length + 2 ≤ buffer.length := by
  rw [declared] at declares
  split at declares
  · cases declares
  · rename_i line behind found
    rcases Option.map_eq_some_iff.mp declares with ⟨value, _, same⟩
    cases same
    have length := readLine_length found
    omega

theorem not_faulty_nil : ¬ Faulty memory [] := by
  rintro ⟨⟩

/-- The loop faults on these bytes and no others, at the top and in the calls for the elements
of arrays. -/
theorem fails_iff_faulty (state : p.state = .start) (enough : 2 * p.buffer.length ≤ fuel) :
    Fails memory fuel p <-> Faulty memory p.buffer := by
  induction size : p.buffer.length using Nat.strong_induction_on generalizing p fuel with
  | _ bound ih =>
      cases bytes : p.buffer with
      | nil => exact iff_of_false (not_fails_of_nil bytes) not_faulty_nil
      | cons byte rest =>
          have length : bound = rest.length + 1 := by rw [← size, bytes, List.length_cons]
          obtain ⟨extra, rfl⟩ : Exists fun extra => fuel = extra + 1 := ⟨fuel - 1, by omega⟩
          rw [fails_start_iff state]
          -- The elements of an array are shorter than the array.
          have element {q : RESPParser} {len : Int64} {behind : Bytes} {fuel : Nat}
              (start : q.state = .start) (same : q.buffer = behind)
              (declares : declared rest = some (len, behind))
              (left : 2 * rest.length ≤ fuel + 2) : Fails memory fuel q <-> Faulty memory behind := by
            have shorter := length_declared declares
            rw [← same] at shorter ⊢
            exact ih _ (by omega) start (by omega) rfl
          have twoRounds (more : rest ≠ []) : Exists fun fuel => extra = fuel + 2 := by
            have filled := List.length_pos_of_ne_nil more
            exact ⟨extra - 2, by omega⟩
          constructor
          · rintro ⟨_, _, next, same, kind, fails⟩
            cases bytes.symm.trans same
            have more : rest ≠ [] := fun empty => not_fails_of_nil empty fails
            rcases twoRounds more with ⟨fuel, rfl⟩
            rcases typeState_cases kind with ⟨rfl, rfl⟩ | ⟨rfl, rfl⟩ | ⟨rfl, rfl⟩
              | ⟨rfl, rfl⟩ | ⟨rfl, rfl⟩
            · exact absurd fails (not_fails_line (Or.inl rfl))
            · exact absurd fails (not_fails_line (Or.inr (Or.inl rfl)))
            · exact absurd fails (not_fails_line (Or.inr (Or.inr rfl)))
            · rcases (fails_bulkStringLen_iff rfl).mp fails with
                ⟨len, behind, declares, notNull, filled, dangerous⟩
              exact .length declares notNull filled dangerous
            · rcases (fails_arrayLen_iff rfl).mp fails with
                ⟨len, behind, declares, natural, refused | ⟨positive, _, inside⟩⟩
              · exact .count declares natural refused
              · exact .element declares positive ((element rfl rfl declares (by omega)).mp inside)
          · intro faulty
            have more : rest ≠ [] := by
              rintro rfl
              cases faulty with
              | length declares => exact ne_nil_of_declared declares rfl
              | count declares => exact ne_nil_of_declared declares rfl
              | element declares => exact ne_nil_of_declared declares rfl
            rcases twoRounds more with ⟨fuel, rfl⟩
            cases faulty with
            | length declares notNull filled dangerous =>
                refine ⟨_, _, .bulkStringLen, bytes, rfl, (fails_bulkStringLen_iff rfl).mpr ?_⟩
                exact ⟨_, _, declares, notNull, filled, dangerous⟩
            | count declares natural refused =>
                refine ⟨_, _, .arrayLen, bytes, rfl, (fails_arrayLen_iff rfl).mpr ?_⟩
                exact ⟨_, _, declares, natural, Or.inl refused⟩
            | @element _ behind _ declares positive inside =>
                refine ⟨_, _, .arrayLen, bytes, rfl, (fails_arrayLen_iff rfl).mpr ?_⟩
                have filled : behind ≠ [] := fun empty => not_faulty_nil (empty ▸ inside)
                refine ⟨_, _, declares, by omega, Or.inr ⟨positive, filled, ?_⟩⟩
                exact (element rfl rfl declares (by omega)).mpr inside

/-! ## Sequences of calls -/

/-- The bytes that a parser has not finished with.  A type byte and the line of a length have
left the buffer, and the state remembers them. -/
def RESPParser.held (p : RESPParser) : Bytes :=
  match p.state with
  | .start => p.buffer
  | .simpleString => 43 :: p.buffer
  | .error => 45 :: p.buffer
  | .integer => 58 :: p.buffer
  | .bulkStringLen => 36 :: p.buffer
  | .bulkStringData => 36 :: (showInt p.bulkLen.toInt ++ crlf ++ p.buffer)
  | .arrayLen => 42 :: p.buffer
  | .arrayElement => p.buffer

theorem held_expecting {byte : UInt8} {state : State} (kind : typeState byte = some state)
    (buffer : Bytes) :
    (expecting state buffer).held = byte :: buffer := by
  rcases typeState_cases kind with ⟨rfl, rfl⟩ | ⟨rfl, rfl⟩ | ⟨rfl, rfl⟩ | ⟨rfl, rfl⟩
    | ⟨rfl, rfl⟩ <;> rfl

theorem declared_showInt (len : Int64) (rest : Bytes) :
    declared (showInt len.toInt ++ crlf ++ rest) = some (len, rest) := by
  simp only [declared, readLine_line (line_showInt _), parseInteger, stoll_showInt, Option.map_some]

/-- A call faults exactly when the bytes at hand do. -/
theorem checkedParse_fails_iff (waiting : Waiting p) (chunk : Bytes) :
    (Exists fun fault => checkedParse memory p chunk = .error fault) <->
        Faulty memory (p.held ++ chunk) := by
  change Fails memory (2 * (p.buffer ++ chunk).length + 1) (p.feed chunk) <-> _
  cases waiting with
  | fresh => exact fails_iff_faulty rfl (by simp [feed, new])
  | @line byte state buffer kind _ =>
      have whole : Fails memory (2 * (buffer ++ chunk).length + 2)
          (new.feed (byte :: (buffer ++ chunk))) <->
          Faulty memory (byte :: (buffer ++ chunk)) :=
        fails_iff_faulty rfl (by simp [feed, new]; omega)
      have first : Fails memory (2 * (buffer ++ chunk).length + 2)
          (new.feed (byte :: (buffer ++ chunk))) <-> _ :=
        fails_type_iff rfl rfl kind
      rw [held_expecting kind, List.cons_append, ← whole]
      exact first.symm
  | @data len buffer notNull _ =>
      have shape : (expectingData len buffer).held ++ chunk =
          36 :: (showInt len.toInt ++ crlf ++ (buffer ++ chunk)) := by
        simp [held, expectingData, expecting]
      rw [shape, fails_bulkStringData_iff rfl rfl]
      constructor
      · rintro ⟨more, dangerous⟩
        exact .length (declared_showInt len _) notNull more dangerous
      · intro faulty
        cases faulty with
        | length declares _ more dangerous =>
            cases (declared_showInt len _).symm.trans declares
            exact ⟨more, dangerous⟩
  | nested nested =>
      have shape : p.held ++ chunk = (p.feed chunk).buffer := by simp [held, nested, feed]
      have called : Fails memory (2 * (p.feed chunk).buffer.length) { p.feed chunk with
          state := .start } <->
          Faulty memory (p.feed chunk).buffer := fails_iff_faulty rfl (Nat.le_refl _)
      rw [fails_arrayElement_iff (by exact nested), shape, ← called]
      constructor
      · rintro ⟨_, fails⟩
        exact fails
      · intro fails
        exact ⟨fun empty => not_fails_of_nil (by exact empty) fails, fails⟩

theorem parse_of_checkedParse {chunk : Bytes} {result : RESPParser × Option RESPValue}
    (returned : checkedParse memory p chunk = .ok result) : p.parse chunk = result :=
  parseLoop_of_checkedLoop returned

/-- Calls that do not fault do what the model of `parse` does. -/
theorem checkedFeed_ok {p q : RESPParser} {chunks : List Bytes}
    (fedTo : checkedFeed memory p chunks = .ok q) :
    q = fed p chunks := by
  induction chunks generalizing p with
  | nil =>
      cases fedTo
      rfl
  | cons chunk chunks ih =>
      rw [checkedFeed] at fedTo
      split at fedTo
      · cases fedTo
      · rename_i r _ returned
        rw [fed_cons (parse_of_checkedParse returned)]
        exact ih fedTo

theorem checkedFeed_fails_iff (waiting : Waiting p) (chunks : List Bytes) :
    (Exists fun fault => checkedFeed memory p chunks = .error fault) <->
      Exists fun before => Exists fun chunk => Exists fun after =>
        chunks = before ++ chunk :: after ∧ Faulty memory ((fed p before).held ++ chunk) := by
  induction chunks generalizing p with
  | nil =>
      refine iff_of_false ?_ ?_
      · rintro ⟨fault, failed⟩
        cases failed
      · rintro ⟨before, chunk, after, shape, _⟩
        simp at shape
  | cons first chunks ih =>
      rw [checkedFeed]
      rcases called : checkedParse memory p first with fault | ⟨q, result⟩
      · have faulty := (checkedParse_fails_iff waiting first).mp ⟨fault, called⟩
        exact iff_of_true ⟨fault, rfl⟩ ⟨[], first, chunks, rfl, faulty⟩
      · have taken := parse_of_checkedParse called
        have safe : ¬ Faulty memory (p.held ++ first) := by
          rw [← checkedParse_fails_iff waiting first]
          rintro ⟨fault, failed⟩
          cases called.symm.trans failed
        have next : Waiting q := by
          have kept := waiting.parse first
          rwa [taken] at kept
        change (Exists fun fault => checkedFeed memory q chunks = .error fault) <-> _
        rw [ih next]
        constructor
        · rintro ⟨before, chunk, after, rfl, faulty⟩
          refine ⟨first :: before, chunk, after, rfl, ?_⟩
          rwa [fed_cons taken]
        · rintro ⟨before, chunk, after, shape, faulty⟩
          cases before with
          | nil =>
              cases shape
              exact absurd faulty safe
          | cons head before =>
              cases shape
              rw [fed_cons taken] at faulty
              exact ⟨before, chunk, after, rfl, faulty⟩

/-- Feeding a parser goes through without a fault exactly when no chunk, behind the bytes held
before it, declares a length or a count that faults. -/
theorem feeding_safe_iff (memory : Memory) (chunks : List Bytes) :
    (Exists fun p => checkedFeed memory new chunks = .ok p) <->
      ¬ Exists fun before => Exists fun chunk => Exists fun after =>
        chunks = before ++ chunk :: after ∧ Faulty memory ((fed new before).held ++ chunk) := by
  rw [← checkedFeed_fails_iff .fresh]
  cases checkedFeed memory new chunks with
  | error fault => simp
  | ok p => simp

/-- The vector of elements on a machine with 64 bits:  72 bytes an element, and room for a
million of them. -/
def exampleMemory : Memory where
  maxSize := (2 ^ 63 - 1) / 72
  allocates := fun count => decide (count ≤ 1000000)

/-- `$9223372036854775807` and one more byte; `$-2` and one more byte; and arrays of `10 ^ 17` and
of `10 ^ 18` elements. -/
theorem feeding_faults :
    checkedFeed exampleMemory new
        [[36, 57, 50, 50, 51, 51, 55, 50, 48, 51, 54, 56, 53, 52, 55, 55, 53, 56, 48, 55,
        13, 10, 97]] =
        .error .overflow ∧
      checkedFeed exampleMemory new [[36, 45, 50, 13, 10, 97]] = .error .negativeLength ∧
      checkedFeed exampleMemory new [42 :: 49 :: (List.replicate 17 48 ++ [13, 10])] =
        .error .badAlloc ∧
      checkedFeed exampleMemory new [42 :: 49 :: (List.replicate 18 48 ++ [13, 10])] =
          .error .lengthError :=
  ⟨rfl, rfl, rfl, rfl⟩

end Resp
end KVStore
