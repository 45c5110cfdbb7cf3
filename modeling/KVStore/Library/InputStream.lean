import KVStore.Library.Framing

namespace KVStore

open Framing

/-!
# Input streams that stay failed

An input stream over a file, with the one bit of its state that a reader can
see: after a read that got fewer bytes than it asked for, the stream is not good
any more, and later reads get nothing.  A read of no bytes at the end of the file
is not short.
-/

structure InputStream where
  rest : Bytes
  good : Bool
  deriving DecidableEq, Repr

namespace InputStream

/-- The bytes that a read stores, and the stream behind them. -/
def read (stream : InputStream) (count : Nat) : Bytes × InputStream :=
  if stream.good then
    (stream.rest.take count,
      { rest := stream.rest.drop count, good := decide (count ≤ stream.rest.length) })
  else ([], stream)

/-- A complete read takes what `readBytes` takes. -/
theorem read_of_some {rest bytes after : Bytes} {count : Nat}
    (enough : readBytes count rest = some (bytes, after)) :
    read ⟨rest, true⟩ count = (bytes, ⟨after, true⟩) := by
  rcases readBytes_eq_some.mp enough with ⟨rfl, rfl⟩
  simp [read]

/-- A read is short where `readBytes` fails. -/
theorem length_read_of_none {rest : Bytes} {count : Nat} (short : readBytes count rest = none) :
    (read ⟨rest, true⟩ count).1.length ≠ count := by
  have few : ¬ count ≤ rest.length := by
    intro enough
    rw [readBytes, if_pos enough] at short
    cases short
  simp only [read, if_true, List.length_take]
  omega

/-- A read of a good stream is short, or it is complete and leaves the stream good. -/
theorem read_cases (rest : Bytes) (count : Nat) :
    (readBytes count rest = none ∧ (read ⟨rest, true⟩ count).1.length ≠ count) ∨
      Exists fun bytes => Exists fun after => readBytes count rest = some (bytes, after) ∧
        read ⟨rest, true⟩ count = (bytes, ⟨after, true⟩) ∧ bytes.length = count := by
  rcases enough : readBytes count rest with _ | ⟨bytes, after⟩
  · exact Or.inl ⟨rfl, length_read_of_none enough⟩
  · exact Or.inr ⟨bytes, after, rfl, read_of_some enough, (readBytes_eq_some.mp enough).2⟩

end InputStream
end KVStore
