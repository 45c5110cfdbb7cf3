import KVStore.Resp.Feeding

namespace KVStore
namespace Resp

open Decimal RESPParser

/-!
# Parsers that have nothing more to say

Some parsers return no value any more, whatever they are fed.  Inside an array every
completed element resets the parser with the count of the array in it, so that the
array is never complete.  And a bulk string may declare more bytes than a string can
hold, a negative length below `-2` included, which is converted to an unsigned number.

A parser is on its way there as soon as the number on its line can no longer change.
From every other parser a value can be reached:  by the bytes that are missing, or by
making the number too large, which resets the parser.
-/

/-! ## Lines that are still open -/

theorem readLine_ne_none (front rest : Bytes) : readLine (front ++ crlf ++ rest) ≠ none := by
  induction front with
  | nil => simp [readLine, crlf]
  | cons first front ih =>
      cases shape : front ++ crlf ++ rest with
      | nil => simp [crlf] at shape
      | cons second more =>
          rw [shape] at ih
          rw [List.cons_append, List.cons_append, shape, readLine]
          split
          · simp
          · simpa using ih

variable {buffer : Bytes}

theorem line_of_incomplete (incomplete : readLine buffer = none) : Line buffer := by
  rintro ⟨front, rest, rfl⟩
  exact readLine_ne_none front rest incomplete

/-- The end of a line completes it. -/
theorem readLine_append_crlf (incomplete : readLine buffer = none) :
    readLine (buffer ++ crlf) = some (buffer, []) := by
  have found := readLine_line (line_of_incomplete incomplete) []
  rwa [List.append_nil] at found

/-- A line that a chunk completes goes beyond the old buffer, or the buffer has been cut between
CR and LF. -/
theorem completed_line {buffer chunk line rest : Bytes} (incomplete : readLine buffer = none)
    (found : readLine (buffer ++ chunk) = some (line, rest)) :
    (Exists fun more => line = buffer ++ more ∧ chunk = more ++ crlf ++ rest) ∨
      buffer = line ++ [13] ∧ chunk = 10 :: rest := by
  have shape := readLine_eq_append found
  rw [List.append_assoc] at shape
  rcases List.append_eq_append_iff.mp shape with ⟨more, same, behind⟩ | ⟨excess, same, behind⟩
  · exact Or.inl ⟨more, same, by rw [behind, List.append_assoc]⟩
  · cases excess with
    | nil =>
        rw [List.append_nil] at same
        exact Or.inl ⟨[], by simp [same], by simpa using behind.symm⟩
    | cons first excess =>
        injection behind with firstByte behind
        cases excess with
        | nil =>
            right
            exact ⟨by rw [same, ← firstByte], by simpa using behind.symm⟩
        | cons second excess =>
            injection behind with secondByte behind
            exfalso
            apply readLine_ne_none line excess
            rw [← incomplete, same, ← firstByte, ← secondByte]
            simp [crlf]

/-- A settled number is the number of the line, wherever the line ends. -/
theorem parseInteger_of_settled {buffer chunk line rest : Bytes} {number : Int64}
    (found : settled buffer = some number) (incomplete : readLine buffer = none)
    (complete : readLine (buffer ++ chunk) = some (line, rest)) :
    parseInteger line = some number := by
  rcases completed_line incomplete complete with ⟨more, rfl, _⟩ | ⟨rfl, _⟩
  · exact (stoll_of_settled found more).1
  · have same := (stoll_of_settled found []).1
    rw [List.append_nil, stoll_append_return] at same
    exact same

/-! ## Continuations -/

/-- Some further chunks make `parse` return a value, while the buffer holds at most `limit`
bytes. -/
inductive Answerable (limit : Nat) : RESPParser -> Prop where
  | now {p : RESPParser} {value : RESPValue} (chunk : Bytes)
      (fits : p.buffer.length + chunk.length ≤ limit) (returned : (p.parse chunk).2 = some value) :
        Answerable limit p
  | later {p : RESPParser} (chunk : Bytes) (fits : p.buffer.length + chunk.length ≤ limit)
      (answerable : Answerable limit (p.parse chunk).1) : Answerable limit p

/-- The parser never returns again:  it is inside an array, or it has read, or is bound to read,
the count of an array or a length that no buffer reaches. -/
def Stuck (limit : Nat) (p : RESPParser) : Prop :=
  match p.state with
  | .bulkStringLen =>
      Exists fun len => settled p.buffer = some len ∧ len.toInt ≠ -1 ∧
        limit < toSize (len.toInt + 2)
  | .bulkStringData => limit < toSize (p.bulkLen.toInt + 2)
  | .arrayLen => Exists fun len => settled p.buffer = some len ∧ 0 < len.toInt
  | .arrayElement => True
  | _ => False

variable {limit : Nat}

/-! ## No way out -/

theorem stuck_data_run {len : Int64} (unreachable : limit < toSize (len.toInt + 2))
    (fits : buffer.length ≤ limit) :
    (expectingData len buffer).run = (expectingData len buffer, none) := by
  by_cases empty : buffer = []
  · exact run_nil empty
  · rw [run_bulkStringData len empty, if_pos (Nat.lt_of_le_of_lt fits unreachable)]

theorem stuck_element_run {p : RESPParser} (nested : p.state = .arrayElement) :
    p.run.2 = none ∧ Stuck limit p.run.1 := by
  rcases run_arrayElement nested with ⟨q, stays, result⟩
  rw [result]
  exact ⟨rfl, by simp only [Stuck, stays]⟩

/-- A stuck parser returns nothing and stays stuck. -/
theorem Stuck.parse {p : RESPParser} (stuck : Stuck limit p) (waiting : Waiting p) {chunk : Bytes}
    (fits : p.buffer.length + chunk.length ≤ limit) :
    (p.parse chunk).2 = none ∧ Stuck limit (p.parse chunk).1 := by
  rw [parse_eq_run]
  cases waiting with
  | fresh => exact absurd stuck (by simp [Stuck, new])
  | @line byte state buffer kind incomplete =>
      change (expecting state (buffer ++ chunk)).run.2 = none ∧
        Stuck limit (expecting state (buffer ++ chunk)).run.1
      have room : (buffer ++ chunk).length ≤ limit := by rwa [List.length_append]
      rcases typeState_cases kind with ⟨_, rfl⟩ | ⟨_, rfl⟩ | ⟨_, rfl⟩ | ⟨_, rfl⟩ | ⟨_, rfl⟩
      · exact absurd stuck (by simp [Stuck, expecting])
      · exact absurd stuck (by simp [Stuck, expecting])
      · exact absurd stuck (by simp [Stuck, expecting])
      · rcases stuck with ⟨len, found, notNull, unreachable⟩
        rw [run_bulkStringLen]
        cases complete : readLine (buffer ++ chunk) with
        | none => exact ⟨rfl, len, (stoll_of_settled found chunk).2, notNull, unreachable⟩
        | some parts =>
            have behind := readLine_length complete
            simp only [parseInteger_of_settled found incomplete complete, if_neg notNull]
            rw [stuck_data_run unreachable (by omega)]
            exact ⟨rfl, unreachable⟩
      · rcases stuck with ⟨len, found, positive⟩
        rw [run_arrayLen]
        cases complete : readLine (buffer ++ chunk) with
        | none => exact ⟨rfl, len, (stoll_of_settled found chunk).2, positive⟩
        | some parts =>
            simp only [parseInteger_of_settled found incomplete complete]
            rw [if_neg (by omega), if_neg (by omega)]
            exact stuck_element_run rfl
  | @data len buffer _ _ =>
      have unreachable : limit < toSize (len.toInt + 2) := stuck
      change (expectingData len (buffer ++ chunk)).run.2 = none ∧
        Stuck limit (expectingData len (buffer ++ chunk)).run.1
      rw [stuck_data_run unreachable (by rwa [List.length_append])]
      exact ⟨rfl, unreachable⟩
  | nested nested => exact stuck_element_run nested

theorem Stuck.not_answerable {p : RESPParser} (stuck : Stuck limit p) (waiting : Waiting p) :
    ¬ Answerable limit p := by
  intro answerable
  induction answerable with
  | now chunk fits returned =>
      have nothing := (stuck.parse waiting fits).1
      cases nothing.symm.trans returned
  | later chunk fits _ ih =>
      exact ih (stuck.parse waiting fits).2 (waiting.parse chunk)

/-! ## Ways to a value -/

/-- `+` and the end of a line, for a fresh parser. -/
theorem answerable_new (room : 3 ≤ limit) : Answerable limit new := .now [43, 13, 10] room rfl

/-- A line, followed by what the parser makes of it. -/
theorem answerable_of_run {p q : RESPParser} {result : Option RESPValue} {chunk : Bytes}
    (fits : p.buffer.length + chunk.length ≤ limit) (run : (p.feed chunk).run = (q, result))
    (next : result = none -> Answerable limit q) : Answerable limit p := by
  have taken : p.parse chunk = (q, result) := run
  cases result with
  | none => exact .later chunk fits (by rw [taken]; exact next rfl)
  | some value => exact .now chunk fits (by rw [taken])

theorem answerable_data {len : Int64} (waits : buffer = [] ∨ buffer.length < toSize (len.toInt + 2))
    (room : 1 ≤ limit) (reachable : toSize (len.toInt + 2) ≤ limit) :
    Answerable limit (expectingData len buffer) := by
  -- One byte more than nothing, if nothing is missing.
  have missing : Exists fun count => buffer.length + count ≤ limit ∧
      toSize (len.toInt + 2) ≤ buffer.length + count ∧ 0 < count := by
    rcases waits with rfl | short
    · exact ⟨max 1 (toSize (len.toInt + 2)), by simp; omega, by simp, by omega⟩
    · exact ⟨toSize (len.toInt + 2) - buffer.length, by omega, by omega, by omega⟩
  rcases missing with ⟨count, fits, enough, positive⟩
  have filled : buffer ++ List.replicate count 0 ≠ [] := by
    intro empty
    have lengths := congrArg List.length empty
    simp at lengths
    omega
  have run := run_bulkStringData len filled
  rw [List.length_append, List.length_replicate, if_neg (by omega)] at run
  refine answerable_of_run ?_ run (by simp)
  rw [List.length_replicate]
  exact fits

/-- Feeding nines to a line makes its number too large, unless it is settled. -/
theorem readLine_append_nines (incomplete : readLine buffer = none) :
    readLine (buffer ++ (nines ++ crlf)) = some (buffer ++ nines, []) := by
  have still : readLine (buffer ++ nines) = none := by
    rcases found : readLine (buffer ++ nines) with _ | ⟨line, rest⟩
    · rfl
    · have newline : (10 : UInt8) ∈ nines := by
        rcases completed_line incomplete found with ⟨more, _, shape⟩ | ⟨_, shape⟩
        · rw [shape]
          simp [crlf]
        · rw [shape]
          simp
      exact absurd newline (by decide)
  rw [← List.append_assoc]
  exact readLine_append_crlf still

/-- From every other parser a value can be reached. -/
theorem answerable_of_not_stuck {p : RESPParser} (waiting : Waiting p) (free : ¬ Stuck limit p)
    (room : p.buffer.length + 21 ≤ limit) : Answerable limit p := by
  have fresh : Answerable limit new := answerable_new (by omega)
  cases waiting with
  | fresh => exact fresh
  | @line byte state buffer kind incomplete =>
      have bufferRoom : buffer.length + 21 ≤ limit := room
      have fits : (expecting state buffer).buffer.length + crlf.length ≤ limit := by
        simp only [expecting, crlf, List.length_cons, List.length_nil]
        omega
      have fitsNines : (expecting state buffer).buffer.length + (nines ++ crlf).length ≤ limit := by
        simp only [expecting, crlf, nines, List.length_append, List.length_replicate,
          List.length_cons, List.length_nil]
        omega
      have ended := readLine_append_crlf incomplete
      have large := readLine_append_nines incomplete
      have rejected (unsettled : settled buffer = none) : parseInteger (buffer ++ nines) = none :=
        stoll_append_nines unsettled
      have number {value : Int64} (found : settled buffer = some value) :
          parseInteger buffer = some value := by
        have same := (stoll_of_settled found []).1
        rwa [List.append_nil] at same
      rcases typeState_cases kind with ⟨_, rfl⟩ | ⟨_, rfl⟩ | ⟨_, rfl⟩ | ⟨_, rfl⟩ | ⟨_, rfl⟩
      · have run := run_simpleString (buffer ++ crlf)
        rw [ended] at run
        exact answerable_of_run fits run (by simp)
      · have run := run_error (buffer ++ crlf)
        rw [ended] at run
        exact answerable_of_run fits run (by simp)
      · have run := run_integer (buffer ++ crlf)
        rw [ended] at run
        cases parsed : parseInteger buffer with
        | none =>
            simp only [parsed] at run
            exact answerable_of_run fits run fun _ => fresh
        | some value =>
            simp only [parsed] at run
            exact answerable_of_run fits run (by simp)
      · cases found : settled buffer with
        | none =>
            have run := run_bulkStringLen (buffer ++ (nines ++ crlf))
            simp only [large, rejected found] at run
            exact answerable_of_run fitsNines run fun _ => fresh
        | some len =>
            have run := run_bulkStringLen (buffer ++ crlf)
            simp only [ended, number found] at run
            by_cases null : len.toInt = -1
            · rw [if_pos null] at run
              exact answerable_of_run fits run (by simp)
            · have waits : (expectingData len []).run = (expectingData len [], none) := run_nil rfl
              rw [if_neg null, waits] at run
              have reachable : toSize (len.toInt + 2) ≤ limit := by
                by_contra beyond
                exact free ⟨len, found, null, by omega⟩
              exact answerable_of_run fits run fun _ =>
                answerable_data (Or.inl rfl) (by omega) reachable
      · cases found : settled buffer with
        | none =>
            have run := run_arrayLen (buffer ++ (nines ++ crlf))
            simp only [large, rejected found] at run
            exact answerable_of_run fitsNines run fun _ => fresh
        | some len =>
            have run := run_arrayLen (buffer ++ crlf)
            simp only [ended, number found] at run
            have notPositive : ¬ 0 < len.toInt := fun positive => free ⟨len, found, positive⟩
            by_cases negative : len.toInt < 0
            · rw [if_pos negative] at run
              exact answerable_of_run fits run fun _ => fresh
            · rw [if_neg negative, if_pos (by omega)] at run
              exact answerable_of_run fits run (by simp)
  | @data len buffer _ short =>
      have reachable : toSize (len.toInt + 2) ≤ limit := Nat.le_of_not_lt free
      exact answerable_data short (by omega) reachable
  | nested nested => exact absurd (by simp only [Stuck, nested]) free

/-- A parser that has been fed any chunks can be brought to return a value exactly when it is
not stuck.  The bound on the buffer is that of a `std::string`, and leaves room for one line. -/
theorem answerable_iff_not_stuck (limit : Nat) (chunks : List Bytes)
    (room : (fed new chunks).buffer.length + 21 ≤ limit) :
    Answerable limit (fed new chunks) <-> ¬ Stuck limit (fed new chunks) := by
  constructor
  · intro answerable stuck
    exact stuck.not_answerable (waiting_fed chunks) answerable
  · intro free
    exact answerable_of_not_stuck (waiting_fed chunks) free room

/-- After `$3` and the beginning of its data. -/
theorem answerable_iff_not_stuck_data :
    (fed new [[36, 51, 13, 10, 97]]).buffer.length + 21 ≤ 2 ^ 63 - 1 ∧
      (Answerable (2 ^ 63 - 1) (fed new [[36, 51, 13, 10, 97]]) <->
          ¬ Stuck (2 ^ 63 - 1) (fed new [[36, 51, 13, 10, 97]])) :=
  have room : (fed new [[36, 51, 13, 10, 97]]).buffer.length + 21 ≤ 2 ^ 63 - 1 := by
    have length : (fed new [[36, 51, 13, 10, 97]]).buffer.length = 1 := rfl
    omega
  ⟨room, answerable_iff_not_stuck (2 ^ 63 - 1) _ room⟩

/-- After the count of an array, `*1`, and after the length `$-3`, no input lets `parse` return a
value. -/
theorem stuck_after_count :
    ¬ Answerable (2 ^ 63 - 1) (fed new [[42, 49, 13, 10]]) ∧
        ¬ Answerable (2 ^ 63 - 1) (fed new [[36, 45, 51, 13, 10]]) := by
  constructor
  · exact Stuck.not_answerable (p := fed new [[42, 49, 13, 10]]) trivial (waiting_fed _)
  · have beyond : 2 ^ 63 - 1 < toSize (-3 + 2) := by decide
    exact Stuck.not_answerable (p := fed new [[36, 45, 51, 13, 10]]) beyond (waiting_fed _)

end Resp
end KVStore
