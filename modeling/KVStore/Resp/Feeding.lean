import KVStore.Library.Loops
import KVStore.Resp.Pipeline

namespace KVStore
namespace Resp

open Decimal RESPParser Loops

/-!
# Calls of `parse`

A connection feeds its parser one chunk after the other.  Here `parse` is its loop,
without fuel, with the recursive call for the element of an array:  it returns on
every input, because a round that does not return takes bytes from the buffer.

A scalar value may be cut anywhere.  Until the last byte the parser waits, whatever
state the cut has left it in, and the bytes that it has taken from the buffer are
remembered by that state.
-/

/-! ## Sequences of calls -/

/-- The parser after some calls of `parse`. -/
def fed (p : RESPParser) (chunks : List Bytes) : RESPParser :=
  chunks.foldl (fun p chunk => (p.parse chunk).1) p

/-- What the calls return. -/
def results : RESPParser -> List Bytes -> List (Option RESPValue)
  | _, [] => []
  | p, chunk :: chunks => (p.parse chunk).2 :: results (p.parse chunk).1 chunks

/-- `is_clean`. -/
def RESPParser.isClean (p : RESPParser) : Bool := decide (p.state = .start)

theorem fed_append (p : RESPParser) (first second : List Bytes) :
    fed p (first ++ second) = fed (fed p first) second :=
  List.foldl_append

theorem fed_cons {p q : RESPParser} {chunk : Bytes} {result : Option RESPValue}
    (taken : p.parse chunk = (q, result)) (chunks : List Bytes) :
    fed p (chunk :: chunks) = fed q chunks := by
  change fed (p.parse chunk).1 chunks = fed q chunks
  rw [taken]

theorem parse_new_nil : new.parse [] = (new, none) := rfl

/-- Empty chunks leave a fresh parser as it is. -/
theorem feed_empty_chunks {chunks : List Bytes}
    (empty : forall chunk, chunk ∈ chunks -> chunk = []) :
    fed new chunks = new ∧ results new chunks = chunks.map fun _ => none := by
  induction chunks with
  | nil => exact ⟨rfl, rfl⟩
  | cons chunk chunks ih =>
      rcases List.forall_mem_cons.mp empty with ⟨rfl, others⟩
      rcases ih others with ⟨same, nothing⟩
      refine ⟨same, ?_⟩
      rw [results, parse_new_nil, nothing]
      rfl

/-! ## Values in several chunks -/

variable {p : RESPParser}

/-- A parser that holds the beginning of an encoding returns nothing until the chunk that
completes it. -/
theorem results_of_split {value : RESPValue} (fits : Transmissible value) {pending : Bytes}
    {chunks : List Bytes} (resumes : Resumes p pending)
    (split : pending ++ chunks.flatten = value.serialize) (unfinished : pending ≠ value.serialize) :
    Exists fun before => Exists fun last => Exists fun after =>
      chunks = before ++ last :: after ∧ last ≠ [] ∧ (forall chunk, chunk ∈ after -> chunk = []) ∧
        results p chunks = (before.map fun _ => none) ++ some value :: after.map (fun _ => none) ∧
        fed p (before ++ [last]) = new ∧ fed p chunks = new := by
  induction chunks generalizing p pending with
  | nil =>
      rw [List.flatten_nil, List.append_nil] at split
      exact absurd split unfinished
  | cons chunk chunks ih =>
      rw [List.flatten_cons, ← List.append_assoc] at split
      by_cases complete : chunks.flatten = []
      · -- The chunk completes the value, and all others are empty.
        have empty := List.flatten_eq_nil_iff.mp complete
        rw [complete, List.append_nil] at split
        have taken : p.parse chunk = (new, some value) := by
          rw [parse_eq_run, resumes chunk, split]
          exact run_serialize fits
        rcases feed_empty_chunks empty with ⟨same, nothing⟩
        refine ⟨[], chunk, chunks, rfl, ?_, empty, ?_, ?_, ?_⟩
        · rintro rfl
          rw [List.append_nil] at split
          exact unfinished split
        · rw [results, taken, nothing]
          rfl
        · exact fed_cons taken []
        · exact (fed_cons taken chunks).trans same
      · rcases run_serialize_torn fits split complete with ⟨q, waits, continues⟩
        have taken : p.parse chunk = (q, none) := by rw [parse_eq_run, resumes chunk, waits]
        have still : pending ++ chunk ≠ value.serialize := by
          intro whole
          rw [whole] at split
          exact complete (List.append_right_eq_self.mp split)
        rcases ih continues split still with
          ⟨before, last, after, rfl, filled, empty, returned, atLast, atEnd⟩
        refine ⟨chunk :: before, last, after, rfl, filled, empty, ?_, ?_, ?_⟩
        · rw [results, taken, returned]
          rfl
        · exact (fed_cons taken _).trans atLast
        · exact (fed_cons taken _).trans atEnd

/-- A scalar value comes out of every split of its encoding into chunks:  with the last chunk
that is not empty, and with nothing before it.  The parser is then as good as new. -/
theorem scalar_survives_chunks (value : RESPValue) (fits : Transmissible value)
    (chunks : List Bytes) (split : chunks.flatten = value.serialize) :
    Exists fun before => Exists fun last => Exists fun after =>
      chunks = before ++ last :: after ∧ last ≠ [] ∧ (forall chunk, chunk ∈ after -> chunk = []) ∧
        results new chunks = (before.map fun _ => none) ++ some value :: after.map (fun _ => none) ∧
        (fed new (before ++ [last])).isClean = true ∧ (fed new (before ++ [last])).buffer = [] ∧
        fed new chunks = new := by
  have unfinished : [] ≠ value.serialize := (serialize_ne_nil value).symm
  rcases results_of_split fits resumes_new split unfinished with
    ⟨before, last, after, parts, filled, empty, returned, atLast, atEnd⟩
  refine ⟨before, last, after, parts, filled, empty, returned, ?_, ?_, atEnd⟩
  · rw [atLast]
    rfl
  · rw [atLast]
    rfl

/-- `+OK`, cut after the type byte and between CR and LF, with an empty chunk in between. -/
theorem scalar_survives_chunks_ok :
    Exists fun before => Exists fun last => Exists fun after =>
      [[43], [79, 75, 13], [], [10], []] = before ++ last :: after ∧ last ≠ [] ∧
        (forall chunk, chunk ∈ after -> chunk = []) ∧
        results new [[43], [79, 75, 13], [], [10], []] =
          (before.map fun _ => none) ++ some (.simpleString [79, 75]) :: after.map (fun _ => none) ∧
        (fed new (before ++ [last])).isClean = true ∧ (fed new (before ++ [last])).buffer = [] ∧
        fed new [[43], [79, 75, 13], [], [10], []] = new :=
  scalar_survives_chunks (.simpleString [79, 75]) (by decide : Line [79, 75])
    [[43], [79, 75, 13], [], [10], []] rfl

/-! ## The loop of parse -/

mutual

/-- A round of the loop, on a buffer that is not empty:  it returns from `parse`, or the loop
goes on.  In state `ArrayElement` the round holds a call of `parse` with state `Start`. -/
inductive Round : RESPParser -> Turn RESPParser (RESPParser × Option RESPValue) -> Prop where
  | stops {p q : RESPParser} {result : Option RESPValue} (taken : p.step = .stop q result) :
      Round p (.leave (q, result))
  | goesOn {p q : RESPParser} (taken : p.step = .again q) : Round p (.next q)
  | waits {p q : RESPParser} (taken : p.step = .element)
      (called : Returns { p with state := .start } (q, none)) :
      Round p (.leave ({ q with state := .arrayElement }, none))
  | completes {p q r : RESPParser} {elem : RESPValue} {result : Option RESPValue}
      (taken : p.step = .element) (called : Returns { p with state := .start } (q, some elem))
      (pushed : q.pushElement elem = .stop r result) :
      Round p (.leave (r, result))
  | collects {p q r : RESPParser} {elem : RESPValue} (taken : p.step = .element)
      (called : Returns { p with state := .start } (q, some elem))
      (pushed : q.pushElement elem = .again r) :
      Round p (.next r)

/-- The loop of `parse` comes to its end and returns.  Nothing bounds the number of its rounds
or the depth of the calls. -/
inductive Returns : RESPParser -> RESPParser × Option RESPValue -> Prop where
  | empty {p : RESPParser} (empty : p.buffer = []) : Returns p (p, none)
  | leaves {p : RESPParser} {result : RESPParser × Option RESPValue} (nonempty : p.buffer ≠ [])
      (round : Round p (.leave result)) : Returns p result
  | continues {p q : RESPParser} {result : RESPParser × Option RESPValue} (nonempty : p.buffer ≠ [])
      (round : Round p (.next q)) (returns : Returns q result) : Returns p result

end

/-- The loop from a round in state `ArrayElement`. -/
theorem run_element (nonempty : p.buffer ≠ []) (taken : p.step = .element) :
    p.run =
      match ({ p with state := .start } : RESPParser).run with
      | (q, none) => ({ q with state := .arrayElement }, none)
      | (q, some elem) =>
          match q.pushElement elem with
          | .stop r result => (r, result)
          | .again r => r.run
          | .element => (q, none) := by
  have filled := List.length_pos_of_ne_nil nonempty
  have same : parseLoop (2 * p.buffer.length) { p with state := .start } =
      ({ p with state := .start } : RESPParser).run :=
    parseLoop_stable (by simp [budget]) (by simp [budget])
  rw [run, parseLoop, if_neg nonempty, taken]
  simp only [same]
  rcases inner : ({ p with state := .start } : RESPParser).run with ⟨q, _ | elem⟩
  · rfl
  · cases parseLoop_some inner
    simp only [pushElement_new]
    rw [parseLoop_nil rfl, run_nil rfl]

/-- What is left of the loop after a round. -/
def remaining : Turn RESPParser (RESPParser × Option RESPValue) -> RESPParser × Option RESPValue
  | .leave result => result
  | .next q => q.run

mutual

/-- A round does what the model of the loop does. -/
theorem run_of_round :
    forall {p : RESPParser} {turn : Turn RESPParser (RESPParser × Option RESPValue)},
    Round p turn -> p.buffer ≠ [] -> p.run = remaining turn
  | _, _, .stops taken, nonempty => run_stop nonempty taken
  | _, _, .goesOn taken, nonempty => run_again nonempty taken
  | _, _, .waits taken called, nonempty => by
      rw [run_element nonempty taken, run_of_returns called, remaining]
  | _, _, .completes taken called pushed, nonempty => by
      rw [run_element nonempty taken, run_of_returns called]
      simp only [pushed, remaining]
  | _, _, .collects taken called pushed, nonempty => by
      rw [run_element nonempty taken, run_of_returns called]
      simp only [pushed, remaining]

theorem run_of_returns : forall {p : RESPParser} {result : RESPParser × Option RESPValue},
    Returns p result -> p.run = result
  | _, _, .empty empty => run_nil empty
  | _, _, .leaves nonempty round => run_of_round round nonempty
  | _, _, .continues nonempty round returns =>
      (run_of_round round nonempty).trans (run_of_returns returns)

end

/-- A round that does not return takes bytes from the buffer.  The call for an element has
taken all of them. -/
theorem round_shrinks {p q : RESPParser} (nonempty : p.buffer ≠ []) (round : Round p (.next q)) :
    q.buffer.length < p.buffer.length := by
  cases round with
  | goesOn taken => exact (step_again taken).1
  | collects taken called pushed =>
      cases parseLoop_some (run_of_returns called)
      rw [pushElement_new] at pushed
      cases pushed
      exact List.length_pos_of_ne_nil nonempty

/-- The loop returns from every parser.  A call for an element finds the same buffer, but not
the state that makes calls. -/
theorem exists_returns (p : RESPParser) : Exists fun result => Returns p result := by
  induction size : p.budget using Nat.strong_induction_on generalizing p with
  | _ bound ih =>
      have later {q : RESPParser} (smaller : q.budget < p.budget) : Exists fun result =>
          Returns q result :=
        ih _ (size ▸ smaller) q rfl
      have next {q : RESPParser} (nonempty : p.buffer ≠ []) (round : Round p (.next q)) :
          Exists fun result => Returns p result := by
        have shorter := round_shrinks nonempty round
        have bounded := q.budget_le
        have atLeast : 2 * p.buffer.length ≤ p.budget := Nat.le_add_right _ _
        rcases later (q := q) (by omega) with ⟨result, returns⟩
        exact ⟨result, .continues nonempty round returns⟩
      by_cases empty : p.buffer = []
      · exact ⟨_, .empty empty⟩
      · cases taken : p.step with
        | stop q result => exact ⟨_, .leaves empty (.stops taken)⟩
        | again q => exact next empty (.goesOn taken)
        | element =>
            have nested := step_element taken
            rcases later (q := { p with state := .start }) (by simp [budget, nested]) with
              ⟨⟨q, _ | elem⟩, called⟩
            · exact ⟨_, .leaves empty (.waits taken called)⟩
            · cases pushed : q.pushElement elem with
              | stop r result => exact ⟨_, .leaves empty (.completes taken called pushed)⟩
              | again r => exact next empty (.collects taken called pushed)
              | element =>
                  cases parseLoop_some (run_of_returns called)
                  rw [pushElement_new] at pushed
                  cases pushed

theorem returns_iff {result : RESPParser × Option RESPValue} :
    Returns p result <-> p.run = result := by
  constructor
  · exact run_of_returns
  · rintro rfl
    rcases exists_returns p with ⟨result, returns⟩
    rw [run_of_returns returns]
    exact returns

/-! ## The pipelining loop -/

/-- A turn of `while (value)`:  the value is handled, and `parse("", 0)` gives the next one. -/
def pipelineTurn (current : RESPParser × Option RESPValue) :
    Turn (RESPParser × Option RESPValue) RESPParser :=
  match current.2 with
  | none => .leave current.1
  | some _ => .next (current.1.parse [])

/-- The loop ends after at most one value, since that value has emptied the buffer. -/
theorem pipeline_ends (p : RESPParser) (chunk : Bytes) :
    Ends pipelineTurn (p.parse chunk) (handleChunk p chunk).1 := by
  rw [handleChunk_eq, ← parse_eq_run]
  rcases returned : p.parse chunk with ⟨q, _ | value⟩
  · exact .leave rfl
  · cases parseLoop_some returned
    exact .next rfl (.leave rfl)

/-- Whatever chunks a parser has been fed, `parse` returns on the next one, with the result of
its model and no other.  A round of any of its loops that does not return makes the buffer
shorter.  The calls that follow on the connection come to an end as well. -/
theorem parse_terminates (chunks : List Bytes) (chunk : Bytes) :
    (forall result, Returns ((fed new chunks).feed chunk) result <->
      result = (fed new chunks).parse chunk) ∧
      (forall p q, p.buffer ≠ [] -> Round p (.next q) -> q.buffer.length < p.buffer.length) ∧
      Ends pipelineTurn ((fed new chunks).parse chunk) (handleChunk (fed new chunks) chunk).1 := by
  refine ⟨fun result => ?_, fun _ _ => round_shrinks, pipeline_ends _ chunk⟩
  rw [returns_iff, parse_eq_run, eq_comm]

/-- The chunk `+`, which a fresh parser takes from its buffer. -/
theorem parse_terminates_plus :
    Returns (new.feed [43]) ({ new with state := .simpleString }, none) ∧
      (Round (new.feed [43]) (.next { new with state := .simpleString }) ∧
        0 < [(43 : UInt8)].length) ∧
      Ends pipelineTurn ((fed new []).parse [43]) (handleChunk (fed new []) [43]).1 := by
  have terminates := parse_terminates [] [43]
  have round : Round (new.feed [43]) (.next { new with state := .simpleString }) := .goesOn rfl
  refine ⟨(terminates.1 _).mpr rfl, ⟨round, terminates.2.1 _ _ ?_ round⟩, terminates.2.2⟩
  simp [new, feed]

/-! ## Parsers between two calls -/

/-- The parsers that a call leaves behind:  a fresh one, one that waits for the end of a line
or for the bytes of a bulk string, and one that is inside an array. -/
inductive Waiting : RESPParser -> Prop where
  | fresh : Waiting new
  | line {byte : UInt8} {state : State} {buffer : Bytes} (kind : typeState byte = some state)
      (incomplete : readLine buffer = none) : Waiting (expecting state buffer)
  | data {len : Int64} {buffer : Bytes} (notNull : len.toInt ≠ -1)
      (short : buffer = [] ∨ buffer.length < toSize (len.toInt + 2)) :
        Waiting (expectingData len buffer)
  | nested {p : RESPParser} (nested : p.state = .arrayElement) : Waiting p

theorem waiting_data_run {len : Int64} (notNull : len.toInt ≠ -1) (buffer : Bytes) :
    Waiting (expectingData len buffer).run.1 := by
  by_cases empty : buffer = []
  · rw [run_nil (by exact empty)]
    exact .data notNull (Or.inl empty)
  · rw [run_bulkStringData len empty]
    split
    · exact .data notNull (Or.inr ‹_›)
    · exact .fresh

theorem waiting_element_run (nested : p.state = .arrayElement) : Waiting p.run.1 := by
  rcases run_arrayElement nested with ⟨q, stays, result⟩
  rw [result]
  exact .nested stays

/-- After a type byte. -/
theorem waiting_expecting_run {byte : UInt8} {state : State} (kind : typeState byte = some state)
    (buffer : Bytes) :
    Waiting (expecting state buffer).run.1 := by
  have waits (missing : readLine buffer = none) : Waiting (expecting state buffer) :=
    .line kind missing
  rcases typeState_cases kind with ⟨rfl, rfl⟩ | ⟨rfl, rfl⟩ | ⟨rfl, rfl⟩ | ⟨rfl, rfl⟩ | ⟨rfl, rfl⟩
  · rw [run_simpleString]
    split
    · exact waits ‹_›
    · exact .fresh
  · rw [run_error]
    split
    · exact waits ‹_›
    · exact .fresh
  · rw [run_integer]
    split
    · exact waits ‹_›
    · split <;> exact .fresh
  · rw [run_bulkStringLen]
    split
    · exact waits ‹_›
    · split
      · exact .fresh
      · split
        · exact .fresh
        · exact waiting_data_run ‹_› _
  · rw [run_arrayLen]
    split
    · exact waits ‹_›
    · split
      · exact .fresh
      · split
        · exact .fresh
        · split
          · exact .fresh
          · exact waiting_element_run rfl

theorem waiting_fresh_run (buffer : Bytes) : Waiting (new.feed buffer).run.1 := by
  cases buffer with
  | nil =>
      rw [feed_nil, run_nil rfl]
      exact .fresh
  | cons byte rest =>
      cases kind : typeState byte with
      | none =>
          rw [run_unknown kind]
          exact .fresh
      | some state =>
          rw [run_type _ kind]
          exact waiting_expecting_run kind rest

theorem Waiting.parse (waiting : Waiting p) (chunk : Bytes) : Waiting (p.parse chunk).1 := by
  rw [parse_eq_run]
  cases waiting with
  | fresh => exact waiting_fresh_run chunk
  | line kind _ => exact waiting_expecting_run kind _
  | data notNull _ => exact waiting_data_run notNull _
  | nested nested => exact waiting_element_run nested

/-- Every parser that chunks can lead to is of one of these kinds. -/
theorem waiting_fed (chunks : List Bytes) : Waiting (fed new chunks) := by
  induction chunks using List.reverseRecOn with
  | nil => exact .fresh
  | append_singleton chunks chunk ih =>
      rw [fed_append]
      exact ih.parse chunk

end Resp
end KVStore
