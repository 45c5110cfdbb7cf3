import KVStore.Engine.Api
import KVStore.Library.Decimal
import KVStore.Library.Words

namespace KVStore
namespace Server

open Engine

variable {P : Platform}

/-!
# The engine behind the servers

`node/engine/engine.go`, which wraps the C interface of the engine, and what the
servers that call it have in common.

A server that has read a command writes a reply, or it calls the engine once and
makes its reply from what the call returns.  An `Exchange` is this choice with the
arguments of the call, so that what a server asks of the engine can be compared
without running the engine.
-/

/-! ## Texts -/

/-- The functions of the package `strings` of Go. -/
structure GoStrings where
  trimSpace : Bytes -> Bytes
  fields : Bytes -> List Bytes
  toUpper : Bytes -> Bytes

def text (value : String) : Bytes := value.toUTF8.toList

theorem toList_loop (bytes : ByteArray) (index : Nat) (found : Bytes) :
    ByteArray.toList.loop bytes index found = found.reverse ++ bytes.data.toList.drop index := by
  induction remaining : bytes.size - index generalizing index found with
  | zero =>
      have beyond : bytes.data.toList.length ≤ index := Nat.le_of_sub_eq_zero remaining
      have ended : ¬ index < bytes.size := Nat.not_lt.mpr beyond
      rw [ByteArray.toList.loop, if_neg ended, List.drop_eq_nil_of_le beyond, List.append_nil]
  | succ count ih =>
      have inside : index < bytes.size := Nat.lt_of_sub_eq_succ remaining
      have byte : bytes.get! index = bytes.data.toList[index] := getElem!_pos bytes.data index inside
      rw [ByteArray.toList.loop, if_pos inside, ih (index + 1) _ (by omega), List.reverse_cons,
        List.append_assoc, List.singleton_append, byte]
      exact congrArg _ (List.drop_eq_getElem_cons inside).symm

/-- The bytes of a text, in a form that can be evaluated. -/
theorem text_eq (value : String) : text value = value.toUTF8.data.toList :=
  toList_loop value.toUTF8 0 []

section Names

theorem set_ne_ping : text "SET" ≠ text "PING" := by
  simp only [text_eq]
  decide

theorem get_ne_ping : text "GET" ≠ text "PING" := by
  simp only [text_eq]
  decide

theorem get_ne_set : text "GET" ≠ text "SET" := by
  simp only [text_eq]
  decide

theorem del_ne_ping : text "DEL" ≠ text "PING" := by
  simp only [text_eq]
  decide

theorem del_ne_set : text "DEL" ≠ text "SET" := by
  simp only [text_eq]
  decide

theorem del_ne_get : text "DEL" ≠ text "GET" := by
  simp only [text_eq]
  decide

end Names

/-- The functions of `strings` on all texts.  Only the capital letters are left
open. -/
def goStrings (toUpper : Bytes -> Bytes) : GoStrings where
  trimSpace := Words.trimSpace
  fields := Words.fields
  toUpper := toUpper

/-- `strings.ToUpper` on the texts that have only ASCII characters. -/
def asciiUpper (content : Bytes) : Bytes :=
  content.map fun byte => if 97 ≤ byte ∧ byte ≤ 122 then byte - 32 else byte

/-! ## The methods of `Engine` -/

inductive EngineError where
  | closed
  | notFound
  | bufferTooSmall
  | valueTooLarge
  | setFailed
  | getFailed
  | deleteFailed
  deriving DecidableEq

def EngineError.message : EngineError -> Bytes
  | .closed => text "engine is closed"
  | .notFound => text "key not found"
  | .bufferTooSmall => text "buffer too small"
  | .valueTooLarge => text "value too large (max 512KB)"
  | .setFailed => text "engine_set failed"
  | .getFailed => text "engine_get failed"
  | .deleteFailed => text "engine_delete failed"

/-- What a call finds: the readings of the clock, and the bytes in the buffer that
`malloc` returns. -/
structure Moment where
  now : Clock
  accessNow : Clock
  finalNow : Clock
  buffer : Bytes

namespace GoEngine

/-- `Engine.Set`, with the error that is returned, if any.  The handle of a closed
engine is nil. -/
def set (handle : Option (EngineHandle P)) (key value : Bytes) (ttl : Int64) (moment : Moment) :
    Option (EngineHandle P) × Option EngineError :=
  match handle with
  | none => (none, some .closed)
  | some _ =>
      let ttlNs := if ttl > 0 then ttl else 0
      let done := engineSet handle (some key) (some value) ttlNs moment.now
      (done.1, if done.2 = 0 then none else if done.2 = -2 then some .valueTooLarge
        else some .setFailed)

def bufSize : Nat := 512 * 1024

/-- `Engine.Get`. -/
def get (handle : Option (EngineHandle P)) (key : Bytes) (moment : Moment) :
    Option (EngineHandle P) × Except EngineError Bytes :=
  match handle with
  | none => (none, .error .closed)
  | some _ =>
      let got := engineGet handle (some key) (some moment.buffer) (some bufSize) moment.now
        moment.accessNow moment.finalNow
      (got.handle,
        if got.code = 0 then .ok ((got.outBuf.getD []).take (got.outLen.getD 0))
        else if got.code = -1 then .error .notFound
        else if got.code = -2 then .error .bufferTooSmall
        else .error .getFailed)

/-- `Engine.Delete`. -/
def delete (handle : Option (EngineHandle P)) (key : Bytes) :
    Option (EngineHandle P) × Option EngineError :=
  match handle with
  | none => (none, some .closed)
  | some _ =>
      let done := engineDelete handle (some key)
      (done.1, if done.2 = 0 then none else if done.2 = -1 then some .notFound
        else some .deleteFailed)

theorem outLen_engineGet_le (handle : Option (EngineHandle P)) (key outBuf : Option Bytes)
    (len : Nat) (now accessNow finalNow : Clock) :
    (engineGet handle key outBuf (some len) now accessNow finalNow).code = 0 ->
      (engineGet handle key outBuf (some len) now accessNow finalNow).outLen.getD 0 ≤ len := by
  unfold engineGet
  split
  next same =>
    cases same
    split
    · intro failed
      cases failed
    · split
      · intro failed
        cases failed
      · split
        · intro failed
          cases failed
        next short => exact fun _ => Nat.not_lt.mp short
  · intro failed
    cases failed

/-- A value that is returned fits the buffer. -/
theorem length_le_of_get {handle : Option (EngineHandle P)} {key value : Bytes} {moment : Moment}
    (got : (get handle key moment).2 = .ok value) : value.length ≤ bufSize := by
  cases handle with
  | none => cases got
  | some open_ =>
      simp only [get] at got
      split at got
      next found =>
        cases got
        rw [List.length_take]
        exact Nat.le_trans (Nat.min_le_left _ _) (outLen_engineGet_le _ _ _ _ _ _ _ found)
      · split at got
        · cases got
        · split at got <;> cases got

end GoEngine

/-! ## Exchanges -/

/-- A call of a method of `Engine`, with its arguments. -/
inductive EngineCall where
  | set (key value : Bytes) (ttl : Int64)
  | get (key : Bytes)
  | delete (key : Bytes)
  deriving DecidableEq

/-- What a server does with a command.  A reply to a call is made from what the
call returns. -/
inductive Exchange where
  | answered (reply : Bytes)
  | sets (key value : Bytes) (ttl : Int64) (reply : Option EngineError -> Bytes)
  | gets (key : Bytes) (reply : Except EngineError Bytes -> Bytes)
  | deletes (key : Bytes) (reply : Option EngineError -> Bytes)

namespace Exchange

def call : Exchange -> Option EngineCall
  | .answered _ => none
  | .sets key value ttl _ => some (.set key value ttl)
  | .gets key _ => some (.get key)
  | .deletes key _ => some (.delete key)

/-- The engine afterwards, and the reply. -/
def run (handle : Option (EngineHandle P)) (moment : Moment) :
    Exchange -> Option (EngineHandle P) × Bytes
  | .answered reply => (handle, reply)
  | .sets key value ttl reply => (GoEngine.set handle key value ttl moment).map id reply
  | .gets key reply => (GoEngine.get handle key moment).map id reply
  | .deletes key reply => (GoEngine.delete handle key).map id reply

end Exchange

/-- `time.Duration(seconds) * time.Second`, which wraps around. -/
def secondsTtl (seconds : Int64) : Int64 := seconds * 1000000000

def wrongNumber : Bytes := text "-ERR wrong number of arguments\r\n"

/-- `fmt.Sprintf("-ERR %v\r\n", err)`. -/
def errorReply (error : EngineError) : Bytes := text "-ERR " ++ error.message ++ text "\r\n"

/-- `fmt.Sprintf("$%d\r\n%s\r\n", len(value), value)`. -/
def bulkReply (value : Bytes) : Bytes :=
  text "$" ++ Decimal.showNat value.length ++ text "\r\n" ++ value ++ text "\r\n"

end Server
end KVStore
