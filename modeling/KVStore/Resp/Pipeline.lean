import KVStore.Resp.RoundTrip

namespace KVStore
namespace Resp

open Decimal RESPParser

/-!
# Chunks of a connection

`EpollServer::handle_client_read` passes every chunk that `recv` returns to
the parser of the connection and then calls `parse("", 0)` until nothing comes
back.  `drive` collects the values that appear on the way.

A completed value empties the buffer, so a chunk yields at most one value and
whatever it holds behind that value is dropped.  The values of a stream arrive
as they were sent exactly when each of them ends where a chunk ends; the proof
of the other direction follows a parser that has lost bytes, which is then so
far behind the stream that no later chunk lets it catch up.
-/

/-! ## The read loop -/

/-- The `while (value)` loop: the values at hand, until `parse("", 0)` has
nothing more. -/
def drain : Nat -> RESPParser -> Option RESPValue -> RESPParser × List RESPValue
  | _, p, none => (p, [])
  | 0, p, some value => (p, [value])
  | fuel + 1, p, some value =>
      let next := p.parse []
      let rest := drain fuel next.1 next.2
      (rest.1, value :: rest.2)

/-- One chunk of `handle_client_read`. -/
def handleChunk (p : RESPParser) (chunk : Bytes) : RESPParser × List RESPValue :=
  let first := p.parse chunk
  drain (first.1.buffer.length + 1) first.1 first.2

/-- The values seen over several chunks. -/
def drive : RESPParser -> List Bytes -> RESPParser × List RESPValue
  | p, [] => (p, [])
  | p, chunk :: chunks =>
      let first := handleChunk p chunk
      let rest := drive first.1 chunks
      (rest.1, first.2 ++ rest.2)

/-- What `recv` reports. -/
inductive Recv where
  | data (chunk : Bytes)
  | wouldBlock
  | failed
  | closed

structure ClientConnection where
  parser : RESPParser
  writeBuffer : Bytes
  shouldClose : Bool

/-- `RESPFormatter::error("ERR invalid command")`. -/
def invalidCommand : Bytes :=
  (RESPValue.error "ERR invalid command".toUTF8.toList).serialize

/-- The response to one value. -/
def respond (commandHandler : Option (RESPCommand -> Bytes)) (value : RESPValue) : Bytes :=
  match toCommand value, commandHandler with
  | some cmd, some handler => handler cmd
  | _, _ => invalidCommand

/-- `handle_client_read`, over what `recv` reports in turn. -/
def handleClientRead (commandHandler : Option (RESPCommand -> Bytes)) :
    ClientConnection -> List Recv -> ClientConnection
  | client, [] => client
  | client, .wouldBlock :: _ => client
  | client, .failed :: _ => { client with shouldClose := true }
  | client, .closed :: _ => { client with shouldClose := true }
  | client, .data chunk :: reports =>
      let out := handleChunk client.parser chunk
      handleClientRead commandHandler
        { client with
          parser := out.1
          writeBuffer := client.writeBuffer ++ (out.2.map (respond commandHandler)).flatten }
        reports

/-- A chunk yields the value of its first call, and nothing else. -/
theorem handleChunk_eq (p : RESPParser) (chunk : Bytes) :
    handleChunk p chunk = ((p.feed chunk).run.1, (p.feed chunk).run.2.toList) := by
  unfold handleChunk
  rw [parse_eq_run]
  rcases result : (p.feed chunk).run with ⟨q, _ | value⟩
  · rfl
  · cases parseLoop_some result
    rfl

theorem drive_cons {p q : RESPParser} {chunk : Bytes} {result : Option RESPValue}
    (chunks : List Bytes) (taken : (p.feed chunk).run = (q, result)) :
    (drive p (chunk :: chunks)).2 = result.toList ++ (drive q chunks).2 := by
  simp only [drive, handleChunk_eq, taken]

variable {p : RESPParser} {value : RESPValue}

/-- Inside an array no value appears any more. -/
theorem drive_arrayElement (nested : p.state = .arrayElement) (chunks : List Bytes) :
    (drive p chunks).2 = [] := by
  induction chunks generalizing p with
  | nil => rfl
  | cons chunk chunks ih =>
      rcases run_arrayElement (p := p.feed chunk) nested with ⟨q, stillNested, taken⟩
      rw [drive_cons chunks taken, ih stillNested]
      rfl

/-- How a connection goes on with one more chunk: the parser keeps waiting, it
drops what it has, it is inside an array for ever, or it yields one value. -/
theorem drive_cons_cases {pending : Bytes} (resumes : Resumes p pending) (chunk : Bytes)
    (chunks : List Bytes) :
    (Exists fun q => Resumes q (pending ++ chunk) ∧
      (drive p (chunk :: chunks)).2 = (drive q chunks).2) ∨
      (pending ++ chunk ≠ [] ∧ (drive p (chunk :: chunks)).2 = (drive new chunks).2) ∨
      (drive p (chunk :: chunks)).2 = [] ∨
      Exists fun value => Received (pending ++ chunk) value ∧
        (drive p (chunk :: chunks)).2 = value :: (drive new chunks).2 := by
  have outcome := run_outcome (new.feed (pending ++ chunk))
  have taken := resumes chunk
  rcases result : (new.feed (pending ++ chunk)).run with ⟨q, returned⟩
  rw [result] at outcome taken
  have emitted := drive_cons chunks taken
  cases outcome with
  | waiting _ continues =>
      refine Or.inl ⟨q, fun data => ?_, emitted⟩
      rw [continues, feed_feed]
  | rejected nonempty => exact Or.inr (Or.inl ⟨nonempty, emitted⟩)
  | stuck _ nested =>
      refine Or.inr (Or.inr (Or.inl ?_))
      rw [emitted, drive_arrayElement nested]
      rfl
  | value v => exact Or.inr (Or.inr (Or.inr ⟨v, received_of_run result, emitted⟩))

variable {values : List RESPValue} {chunks : List Bytes}

theorem serializeAll_ne_nil (nonempty : serializeAll values ≠ []) : values ≠ [] := by
  rintro rfl
  exact nonempty rfl

/-! ## Lost bytes -/

/-- A value read behind lost bytes ends behind the value that the stream has
in its place. -/
theorem length_serialize_lt_of_lost {lost buffer more rest : Bytes} (lostSome : lost ≠ [])
    (received : Received buffer value)
    (stream : lost ++ (buffer ++ more) = value.serialize ++ rest) :
    value.serialize.length < (lost ++ buffer).length := by
  have lostLength := List.length_pos_of_ne_nil lostSome
  rw [List.length_append]
  rcases length_serialize_of_received received with short | ⟨text, rfl, dollar, nearlyShort⟩
  · omega
  · by_contra notBehind
    cases lost with
    | nil => exact lostSome rfl
    | cons byte lost =>
        cases buffer with
        | nil => cases dollar
        | cons first buffer =>
            cases dollar
            injection stream with _ tail
            change lost ++ (36 :: (buffer ++ more)) = showNat text.length ++ crlf ++ text ++
              crlf ++ rest at tail
            rw [List.length_cons] at notBehind
            have inDigits : lost.length < (showNat text.length).length := by omega
            have member : (36 : UInt8) ∈ showNat text.length := by
              apply List.mem_of_getElem? (i := lost.length)
              have here := congrArg (fun bytes : Bytes => bytes[lost.length]?) tail
              simp only [List.append_assoc] at here
              rw [List.getElem?_append_left inDigits, List.getElem?_append_right (Nat.le_refl _),
                Nat.sub_self] at here
              exact here.symm
            exact absurd (isDigit_of_mem_showNat member) (by decide)

/-- A connection that has lost bytes does not yield the values of its stream. -/
theorem drive_ne_of_lost {lost pending : Bytes} (lostSome : lost ≠ []) (resumes : Resumes p pending)
    (stream : lost ++ (pending ++ chunks.flatten) = serializeAll values) :
    (drive p chunks).2 ≠ values := by
  have someValue : values ≠ [] := by
    apply serializeAll_ne_nil
    rw [← stream]
    exact List.append_ne_nil_of_left_ne_nil lostSome _
  induction chunks generalizing p lost pending values with
  | nil => exact fun same => someValue same.symm
  | cons chunk chunks ih =>
      rw [List.flatten_cons, ← List.append_assoc pending] at stream
      rcases drive_cons_cases resumes chunk chunks with
        ⟨q, continues, emitted⟩ | ⟨_, emitted⟩ | emitted | ⟨value, received, emitted⟩
      · rw [emitted]
        exact ih lostSome continues stream someValue
      · rw [emitted]
        rw [← List.append_assoc] at stream
        exact ih (List.append_ne_nil_of_left_ne_nil lostSome _) resumes_new stream someValue
      · rw [emitted]
        exact fun same => someValue same.symm
      · rw [emitted]
        intro same
        rw [← same, serializeAll] at stream
        have behind := length_serialize_lt_of_lost lostSome received stream
        rw [← List.append_assoc] at stream
        rcases Framing.split_of_length_le stream (Nat.le_of_lt behind) with ⟨extra, shape, rest⟩
        have extraSome : extra ≠ [] := by
          rintro rfl
          rw [shape, List.append_nil] at behind
          exact Nat.lt_irrefl _ behind
        have restSome : (drive new chunks).2 ≠ [] := by
          apply serializeAll_ne_nil
          rw [← rest]
          exact List.append_ne_nil_of_left_ne_nil extraSome _
        exact ih extraSome resumes_new rest restSome rfl

/-! ## Streams that arrive -/

/-- Every value of the stream ends where a chunk ends. -/
def EndsOnChunks (pending : Bytes) (chunks : List Bytes) (values : List RESPValue) : Prop :=
  forall count, 1 ≤ count -> count ≤ values.length ->
    Exists fun received => pending ++ (chunks.take received).flatten =
      serializeAll (values.take count)

theorem endsOnChunks_nil (pending : Bytes) (chunks : List Bytes) : EndsOnChunks pending chunks [] :=
  fun _ positive bound => False.elim (Nat.not_succ_le_zero _ (positive.trans bound))

/-- A chunk that completes no value. -/
theorem EndsOnChunks.chunk {pending chunk : Bytes}
    (aligned : EndsOnChunks (pending ++ chunk) chunks values) :
    EndsOnChunks pending (chunk :: chunks) values := by
  intro count positive bound
  rcases aligned count positive bound with ⟨received, ends⟩
  refine ⟨received + 1, ?_⟩
  rw [List.take_succ_cons, List.flatten_cons, ← List.append_assoc]
  exact ends

/-- A chunk that completes a value. -/
theorem EndsOnChunks.cons {pending chunk : Bytes} (complete : pending ++ chunk = value.serialize)
    (aligned : EndsOnChunks [] chunks values) :
    EndsOnChunks pending (chunk :: chunks) (value :: values) := by
  intro count positive bound
  cases count with
  | zero => cases positive
  | succ count =>
      cases count with
      | zero =>
          refine ⟨1, ?_⟩
          simp [serializeAll, complete]
      | succ count =>
          rcases aligned (count + 1) (Nat.succ_pos _) (Nat.le_of_succ_le_succ bound) with
            ⟨received, ends⟩
          refine ⟨received + 1, ?_⟩
          rw [List.take_succ_cons, List.take_succ_cons, List.flatten_cons, serializeAll, ← ends,
            ← List.append_assoc, complete]
          rfl

/-- The first value of an aligned stream ends with a later chunk, as long as
it is not complete. -/
theorem EndsOnChunks.chunk_of_unfinished {pending chunk : Bytes}
    (aligned : EndsOnChunks pending (chunk :: chunks) (value :: values))
    (short : pending.length < value.serialize.length) :
    (Exists fun missing => pending ++ chunk ++ missing = value.serialize) ∧
      EndsOnChunks (pending ++ chunk) chunks (value :: values) := by
  have later : EndsOnChunks (pending ++ chunk) chunks (value :: values) := by
    intro count positive bound
    rcases aligned count positive bound with ⟨received, ends⟩
    cases received with
    | zero =>
        cases count with
        | zero => cases positive
        | succ count =>
            have length := congrArg List.length ends
            simp only [List.take_zero, List.flatten_nil, List.append_nil,
              List.take_succ_cons, serializeAll, List.length_append] at length
            omega
    | succ received =>
        refine ⟨received, ?_⟩
        rw [← ends, List.take_succ_cons, List.flatten_cons, List.append_assoc]
  rcases later 1 (Nat.le_refl 1) (Nat.succ_le_succ (Nat.zero_le _)) with ⟨received, ends⟩
  refine ⟨⟨(chunks.take received).flatten, ?_⟩, later⟩
  rw [ends]
  simp [serializeAll]

theorem EndsOnChunks.tail {pending : Bytes}
    (aligned : EndsOnChunks pending chunks (value :: values))
    (complete : pending = value.serialize) :
    EndsOnChunks [] chunks values := by
  intro count _ bound
  rcases aligned (count + 1) (Nat.succ_pos _) (Nat.succ_le_succ bound) with ⟨received, ends⟩
  rw [complete, List.take_succ_cons, serializeAll] at ends
  exact ⟨received, List.append_cancel_left ends⟩

/-- When the values of a stream appear, each was transmissible and ended where
a chunk ended. -/
theorem endsOnChunks_of_drive {pending : Bytes} (resumes : Resumes p pending)
    (stream : pending ++ chunks.flatten = serializeAll values)
    (arrived : (drive p chunks).2 = values) :
    (forall value, value ∈ values -> Transmissible value) ∧ EndsOnChunks pending chunks values := by
  induction chunks generalizing p pending values with
  | nil =>
      cases arrived
      exact ⟨List.forall_mem_nil _, endsOnChunks_nil _ _⟩
  | cons chunk chunks ih =>
      rw [List.flatten_cons, ← List.append_assoc] at stream
      rcases drive_cons_cases resumes chunk chunks with
        ⟨q, continues, emitted⟩ | ⟨dropped, emitted⟩ | emitted | ⟨value, received, emitted⟩
      · rcases ih continues stream (emitted ▸ arrived) with ⟨transmissible, aligned⟩
        exact ⟨transmissible, aligned.chunk⟩
      · exact absurd (emitted ▸ arrived) (drive_ne_of_lost dropped resumes_new stream)
      · rw [emitted] at arrived
        cases arrived
        exact ⟨List.forall_mem_nil _, endsOnChunks_nil _ _⟩
      · rw [emitted] at arrived
        rw [← arrived, serializeAll] at stream
        rcases transmissible_of_received received stream with ⟨transmissible, complete⟩
        rcases Framing.split_of_length_le stream complete with ⟨extra, shape, rest⟩
        have nothingExtra : extra = [] := by
          by_contra extraSome
          exact drive_ne_of_lost extraSome resumes_new rest rfl
        rw [nothingExtra, List.append_nil] at shape
        rw [nothingExtra] at rest
        rcases ih resumes_new rest rfl with ⟨restTransmissible, aligned⟩
        rw [← arrived]
        refine ⟨List.forall_mem_cons.mpr ⟨transmissible, restTransmissible⟩, ?_⟩
        exact EndsOnChunks.cons shape aligned

/-- Transmissible values that end where chunks end arrive. -/
theorem drive_of_endsOnChunks {pending : Bytes} (resumes : Resumes p pending)
    (stream : pending ++ chunks.flatten = serializeAll values)
    (unfinished : forall value, values.head? = some value ->
      pending.length < value.serialize.length)
    (transmissible : forall value, value ∈ values -> Transmissible value)
    (aligned : EndsOnChunks pending chunks values) : (drive p chunks).2 = values := by
  induction chunks generalizing p pending values with
  | nil =>
      cases values with
      | nil => rfl
      | cons value values =>
          have short := unfinished value rfl
          have length := congrArg List.length stream
          simp only [List.flatten_nil, List.append_nil, serializeAll, List.length_append] at length
          omega
  | cons chunk chunks ih =>
      rw [List.flatten_cons, ← List.append_assoc] at stream
      cases values with
      | nil =>
          have empty := List.append_eq_nil_iff.mp (List.append_eq_nil_iff.mp stream).1
          have taken : (p.feed chunk).run = (new, none) := by
            rw [resumes chunk, empty.1, empty.2]
            exact run_nil rfl
          rw [drive_cons chunks taken]
          rw [empty.1, empty.2] at stream
          refine ih resumes_new stream ?_ (List.forall_mem_nil _) (endsOnChunks_nil _ _)
          intro value absent
          cases absent
      | cons value values =>
          have short := unfinished value rfl
          have within := aligned.chunk_of_unfinished short
          rcases within with ⟨⟨missing, cut⟩, later⟩
          have fits := transmissible value List.mem_cons_self
          by_cases complete : missing = []
          · rw [complete, List.append_nil] at cut
            have taken : (p.feed chunk).run = (new, some value) := by
              rw [resumes chunk, cut]
              exact run_serialize fits
            rw [cut, serializeAll] at stream
            rw [drive_cons chunks taken, ih resumes_new (List.append_cancel_left stream)
              (fun next _ => List.length_pos_of_ne_nil (serialize_ne_nil next))
              (fun next member => transmissible next (List.mem_cons_of_mem _ member))
              (later.tail cut)]
            rfl
          · rcases run_serialize_torn fits cut complete with ⟨q, waits, continues⟩
            have taken : (p.feed chunk).run = (q, none) := by rw [resumes chunk, waits]
            rw [drive_cons chunks taken]
            refine ih continues stream ?_ transmissible later
            intro next first
            cases first
            have length := congrArg List.length cut
            rw [List.length_append] at length
            have missingLength := List.length_pos_of_ne_nil complete
            omega

/-- Pipelining and chunking: the values of a stream arrive as they were sent
exactly when each of them is transmissible and ends where a chunk ends. -/
theorem drive_eq_iff (values : List RESPValue) (chunks : List Bytes)
    (stream : chunks.flatten = serializeAll values) :
    (drive new chunks).2 = values <->
      (forall value, value ∈ values -> Transmissible value) ∧
        forall count, count ≤ values.length ->
          Exists fun received => (chunks.take received).flatten =
              serializeAll (values.take count) := by
  constructor
  · intro arrived
    rcases endsOnChunks_of_drive resumes_new stream arrived with ⟨transmissible, aligned⟩
    refine ⟨transmissible, fun count bound => ?_⟩
    cases count with
    | zero => exact ⟨0, rfl⟩
    | succ count => exact aligned (count + 1) (Nat.succ_pos _) bound
  · rintro ⟨transmissible, aligned⟩
    exact drive_of_endsOnChunks resumes_new stream
      (fun next _ => List.length_pos_of_ne_nil (serialize_ne_nil next)) transmissible
      (fun count _ bound => aligned count bound)

/-- A simple string, a bulk string and an empty array. -/
def threeValues : List RESPValue := [.simpleString [79, 75], .bulkString [104, 105], .array []]

/-- Their bytes, with a cut inside each of them and behind it. -/
def sixChunks : List Bytes :=
  [[43, 79], [75, 13, 10], [36, 50, 13], [10, 104, 105, 13, 10], [42], [48, 13, 10]]

theorem drive_sixChunks :
    sixChunks.flatten = serializeAll threeValues ∧ (drive new sixChunks).2 = threeValues := by
  have two : showNat 2 = [50] := showNat_small (by decide)
  have zero : showNat 0 = [48] := showNat_small (by decide)
  have stream (count : Nat) (bound : count ≤ 3) :
      (sixChunks.take (2 * count)).flatten = serializeAll (threeValues.take count) := by
    rcases count with _ | _ | _ | _ | count
    · rfl
    · rfl
    · simp [sixChunks, threeValues, serializeAll, RESPValue.serialize, crlf, two]
    · simp [sixChunks, threeValues, serializeAll, RESPValue.serialize, crlf, two, zero]
    · omega
  refine ⟨stream 3 (le_refl 3), (drive_eq_iff _ _ (stream 3 (le_refl 3))).mpr
    ⟨?_, fun count bound => ?_⟩⟩
  · have line : Line [79, 75] := by decide
    simp [threeValues, Transmissible, line]
  · exact ⟨2 * count, stream count bound⟩

/-- Of two simple strings in one chunk the second is lost. -/
theorem drive_pipelined_lost :
    [serializeAll [.simpleString [65], .simpleString [66]]].flatten =
        serializeAll [.simpleString [65], .simpleString [66]] ∧
      (drive new [serializeAll [.simpleString [65], .simpleString [66]]]).2 =
          [.simpleString [65]] := by
  refine ⟨List.append_nil _, ?_⟩
  simp only [serializeAll, RESPValue.serialize, crlf, List.cons_append, List.nil_append,
    List.append_nil]
  rfl

end Resp
end KVStore
