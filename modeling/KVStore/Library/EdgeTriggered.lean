import Mathlib.Data.List.Basic

namespace KVStore
namespace EdgeTriggered

/-!
# Stream sockets and edge-triggered readiness

A stream socket as a program sees it, and a poller that watches it.  The poller
notes that a socket is ready when something happens to it: data arrive, the other
end closes, the connection breaks, or a full send buffer gets room.  It looks at
the socket itself only when the watch is set or changed, and it forgets the note
when it reports it.  A condition that lasts is not noted again.

A program that waits for notes must therefore never let go of a socket that still
has something for it.  The rules here say how long a condition that calls for
attention stays noted: what happens to the socket keeps it so, and so does every
change of the watch.
-/

/-- A socket.  What has arrived was `received` by the program, or is in the `inbox`. -/
structure Socket (α : Type) where
  received : List α
  inbox : List α
  ended : Bool
  failed : Bool
  sent : List α
  room : Nat

/-- What the other end and the network do. -/
inductive Traffic (α : Type) where
  | arrive (data : List α)
  | finish
  | reset
  | drain (count : Nat)

/-- What a poller has to report about a socket. -/
structure Report where
  input : Bool
  output : Bool
  hangup : Bool
deriving DecidableEq

/-- What a poller watches a socket for, and whether it has noted that the socket is
ready. -/
structure Watch where
  input : Bool
  output : Bool
  ready : Bool

variable {α : Type}

namespace Socket

def opened (room : Nat) : Socket α := ⟨[], [], false, false, [], room⟩

/-- All that has arrived. -/
def arrived (s : Socket α) : List α := s.received ++ s.inbox

/-- Receiving does not have to wait. -/
def readable (s : Socket α) : Bool := !s.inbox.isEmpty || s.ended || s.failed

/-- Sending does not have to wait. -/
def writable (s : Socket α) : Bool := decide (0 < s.room) || s.failed

/-- Nothing arrives after the end, or on a broken connection. -/
def after (s : Socket α) : Traffic α -> Socket α
  | .arrive data => if s.ended || s.failed then s else { s with inbox := s.inbox ++ data }
  | .finish => { s with ended := true }
  | .reset => { s with failed := true }
  | .drain count => { s with room := s.room + count }

/-- How many data are received, when there are any:  at least one, and at most `limit`. -/
def amount (limit count : Nat) : Nat := max 1 (min count limit)

def chunk (s : Socket α) (limit count : Nat) : List α := s.inbox.take (amount limit count)

def receive (s : Socket α) (limit count : Nat) : Socket α :=
  { s with received := s.received ++ s.chunk limit count, inbox := s.inbox.drop (amount limit count) }

/-- How many of some data are sent, when there is room:  at least one, and at most what there is
room for. -/
def portion (s : Socket α) (data : List α) (count : Nat) : Nat :=
  max 1 (min count (min s.room data.length))

def send (s : Socket α) (data : List α) (count : Nat) : Socket α :=
  { s with sent := s.sent ++ data.take (s.portion data count), room := s.room - s.portion data count }

theorem readable_eq_false_iff {s : Socket α} :
    s.readable = false <-> s.inbox = [] ∧ s.ended = false ∧ s.failed = false := by
  simp [readable, and_assoc]

theorem chunk_ne_nil {s : Socket α} (present : s.inbox ≠ []) (limit count : Nat) :
    s.chunk limit count ≠ [] := by
  have positive : amount limit count ≠ 0 := by
    rw [amount]
    omega
  simp [chunk, positive, present]

theorem length_chunk_le (s : Socket α) {limit : Nat} (positive : 0 < limit) (count : Nat) :
    (s.chunk limit count).length ≤ limit := by
  rw [chunk, List.length_take, amount]
  omega

theorem sent_append_drop (s : Socket α) (data : List α) (count : Nat) :
    (s.send data count).sent ++ data.drop (s.portion data count) = s.sent ++ data := by
  rw [send, List.append_assoc, List.take_append_drop]

@[simp] theorem received_after (s : Socket α) (traffic : Traffic α) :
    (s.after traffic).received = s.received := by
  cases traffic with
  | arrive data =>
      rw [after]
      split <;> rfl
  | finish => rfl
  | reset => rfl
  | drain count => rfl

@[simp] theorem sent_after (s : Socket α) (traffic : Traffic α) :
    (s.after traffic).sent = s.sent := by
  cases traffic with
  | arrive data =>
      rw [after]
      split <;> rfl
  | finish => rfl
  | reset => rfl
  | drain count => rfl

/-- A connection that has ended or is broken stays so. -/
theorem closed_after {s : Socket α} (closed : s.ended = true ∨ s.failed = true)
    (traffic : Traffic α) :
    (s.after traffic).ended = true ∨ (s.after traffic).failed = true := by
  cases traffic with
  | arrive data =>
      rw [after]
      split <;> exact closed
  | finish => exact Or.inl rfl
  | reset => exact Or.inr rfl
  | drain count => exact closed

theorem failed_after {s : Socket α} (broken : s.failed = true) (traffic : Traffic α) :
    (s.after traffic).failed = true := by
  cases traffic with
  | arrive data =>
      rw [after]
      split <;> exact broken
  | finish => exact broken
  | reset => rfl
  | drain count => exact broken

end Socket

namespace Watch

/-- What a watch has to report, by the state of the socket at that time. -/
def report (w : Watch) (s : Socket α) : Report where
  input := w.input && s.readable
  output := w.output && s.writable
  hangup := s.failed

end Watch

def Report.any (r : Report) : Bool := r.input || r.output || r.hangup

namespace Watch

/-- What is noted of something that happens to the socket.  Room is noted only when there was
none. -/
def notice (w : Watch) (s : Socket α) : Traffic α -> Watch
  | .arrive data => { w with ready := w.ready || (w.input && !data.isEmpty) }
  | .finish => { w with ready := w.ready || w.input }
  | .reset => { w with ready := true }
  | .drain count =>
      { w with ready := w.ready || (w.output && decide (s.room = 0) && decide (0 < count)) }

/-- A watch that is set or changed looks at the socket. -/
def modify (w : Watch) (input output : Bool) (s : Socket α) : Watch :=
  let changed : Watch := { w with input := input, output := output }
  { changed with ready := w.ready || (changed.report s).any }

/-- The note is forgotten when it is reported. -/
def harvest (w : Watch) : Watch := { w with ready := false }

@[simp] theorem input_notice (w : Watch) (s : Socket α) (traffic : Traffic α) :
    (w.notice s traffic).input = w.input := by
  cases traffic <;> rfl

@[simp] theorem output_notice (w : Watch) (s : Socket α) (traffic : Traffic α) :
    (w.notice s traffic).output = w.output := by
  cases traffic <;> rfl

theorem ready_notice {w : Watch} (noted : w.ready = true) (s : Socket α) (traffic : Traffic α) :
    (w.notice s traffic).ready = true := by
  cases traffic <;> simp [notice, noted]

/-- A socket that becomes readable is noted. -/
theorem readable_noted {w : Watch} {s : Socket α} (watched : w.input = true) {attended : Prop}
    (noted : s.readable = true -> w.ready = true ∨ attended) {traffic : Traffic α}
    (readable : (s.after traffic).readable = true) :
    (w.notice s traffic).ready = true ∨ attended := by
  by_cases before : s.readable = true
  · rcases noted before with already | attends
    · exact Or.inl (ready_notice already s traffic)
    · exact Or.inr attends
  · rcases Socket.readable_eq_false_iff.mp (Bool.eq_false_iff.mpr before) with
      ⟨empty, unended, unbroken⟩
    refine Or.inl ?_
    cases traffic with
    | arrive data =>
        cases data with
        | nil => simp [Socket.after, Socket.readable, empty, unended, unbroken] at readable
        | cons first rest => simp [notice, watched]
    | finish => simp [notice, watched]
    | reset => rfl
    | drain count => exact absurd readable before

/-- A socket that gets room is noted. -/
theorem room_noted {w : Watch} {s : Socket α} (watched : w.output = true) {attended : Prop}
    (noted : 0 < s.room -> w.ready = true ∨ attended) {traffic : Traffic α}
    (room : 0 < (s.after traffic).room) : (w.notice s traffic).ready = true ∨ attended := by
  rcases Nat.eq_zero_or_pos s.room with full | before
  · cases traffic with
    | arrive data =>
        rw [Socket.after] at room
        split at room <;> exact absurd room (by simp [full])
    | finish => exact absurd room (by simp [Socket.after, full])
    | reset => exact absurd room (by simp [Socket.after, full])
    | drain count =>
        refine Or.inl ?_
        have more : 0 < count := by simpa [Socket.after, full] using room
        simp [notice, watched, full, more]
  · rcases noted before with already | attends
    · exact Or.inl (ready_notice already s traffic)
    · exact Or.inr attends

/-- A changed watch has noted a readable socket. -/
theorem ready_modify_of_readable {s : Socket α} (readable : s.readable = true) (w : Watch)
    (output : Bool) :
    (w.modify true output s).ready = true := by
  simp [modify, report, Report.any, readable]

/-- A changed watch has noted a socket with room. -/
theorem ready_modify_of_room {s : Socket α} (room : 0 < s.room) (w : Watch) (input : Bool) :
    (w.modify input true s).ready = true := by
  simp [modify, report, Report.any, Socket.writable, room]

end Watch

end EdgeTriggered
end KVStore
