import KVStore.Server.Distributed
import KVStore.Server.Simple

namespace KVStore
namespace Server

open Raft Decimal

/-!
# Commands in the log

A command is replicated as a text, and every node splits the text again before it
calls its engine.  `cmd/distributed_server/main.go` joins the words of the line,
and `applyCommand` reads them like the simple server reads a line.
`cmd/sharded_server/main.go` makes an `Operation` of the line, and
`sharding/router.go` prints it; here the last word is the number of seconds.

Both ways the text is split into the words it was made of.  This needs that no
word is empty and that none has white space inside, which holds for the words of
any line, whatever its bytes are.
-/

/-! ## The distributed server -/

/-- The call of `applyCommand` for a committed command, if there is one.  The time
to live is read as the simple server reads it. -/
def applyCommand (toUpper : Bytes -> Bytes) (command : Bytes) : Option EngineCall :=
  match Words.fields command with
  | [] => none
  | first :: args =>
      let cmd := toUpper first
      if cmd = text "SET" then
        match args with
        | key :: value :: options => some (.set key value (Simple.exTtl toUpper options))
        | _ => none
      else if cmd = text "DEL" then
        match args with
        | key :: _ => some (.delete key)
        | [] => none
      else none

variable {toUpper : Bytes -> Bytes}

/-- The words of a write, which the simple server and `applyCommand` take for the
same call. -/
theorem call_of_words {first : Bytes} {args : List Bytes}
    (writes : toUpper first = text "SET" ∧ 2 ≤ args.length ∨ toUpper first = text "DEL" ∧
      1 ≤ args.length)
    {command : Bytes} (words : Words.fields command = first :: args) :
    Exists fun call => applyCommand toUpper command = some call ∧
      (Simple.handleParts toUpper first args).call = some call := by
  rcases writes with ⟨isSet, enough⟩ | ⟨isDel, enough⟩
  · rcases args with _ | ⟨key, _ | ⟨value, options⟩⟩
    · cases enough
    · exact absurd enough (Nat.not_succ_le_self 1)
    · refine ⟨.set key value (Simple.exTtl toUpper options), ?_, ?_⟩
      · simp only [applyCommand, words, isSet, if_true]
      · simp only [Simple.handleParts, isSet, set_ne_ping, if_false, if_true, Exchange.call]
  · cases args with
    | nil => cases enough
    | cons key options =>
        refine ⟨.delete key, ?_, ?_⟩
        · simp only [applyCommand, words, isDel, del_ne_set, if_false, if_true]
        · simp only [Simple.handleParts, isDel, del_ne_ping, del_ne_set, del_ne_get, if_false,
            if_true, Exchange.call]

/-- A proposed command makes every node do what the simple server does at once. -/
theorem applyCommand_proposed {n : Node} {get : Bytes -> Option Bytes} {content command : Bytes}
    {write : Write}
    (handled : handleClient (goStrings toUpper) n get content = .proposed command write) :
    Exists fun call => applyCommand toUpper command = some call ∧
      (Simple.handleLine toUpper content).bind Exchange.call = some call := by
  rcases handleClient_eq_proposed handled with ⟨first, args, words, nonempty, writes, reply, proposed⟩
  change Words.fields (Words.trimSpace content) = first :: args at words
  change Words.trimSpace content ≠ [] at nonempty
  change toUpper first = text "SET" ∧ 2 ≤ args.length ∨ toUpper first = text "DEL" ∧
    1 ≤ args.length at writes
  have again : Words.fields command = first :: args := by
    rw [(write_of_proposeThen proposed).1, ← words]
    exact Words.fields_join_fields _
  rcases call_of_words writes again with ⟨call, applied, direct⟩
  refine ⟨call, applied, ?_⟩
  simp only [Simple.handleLine, if_neg nonempty, words, Option.bind_some, direct]

/-! ## The sharded server -/

namespace Sharded

/-- `Operation` of `sharding/router.go`. -/
structure Operation where
  type : Bytes
  key : Bytes
  value : Bytes
  ttl : UInt64
  deriving DecidableEq

def serializeOperation (op : Operation) : Bytes :=
  if op.type = text "SET" then
    text "SET " ++ op.key ++ text " " ++ op.value ++ text " " ++ showNat op.ttl.toNat
  else if op.type = text "GET" then text "GET " ++ op.key
  else if op.type = text "DEL" then text "DEL " ++ op.key
  else op.type ++ text " " ++ op.key

/-- What becomes of a line.  An operation goes to the router, and the reply depends
on the error that comes back, if any.  What `GET` and `STATUS` read is not part of
the line. -/
inductive Handled where
  | skipped
  | answered (reply : Bytes)
  | routed (op : Operation) (reply : Option Bytes -> Bytes)
  | reads (key : Bytes)
  | status

/-- The reply to a routed operation. -/
def routeReply (ok : Bytes) : Option Bytes -> Bytes
  | some error => text "-ERR " ++ error ++ text "\r\n"
  | none => ok

/-- The time to live in the words behind the value: the first of them, if it is a
number. -/
def ttlOf : List Bytes -> UInt64
  | [] => 0
  | seconds :: _ =>
      match parseUint seconds with
      | some number => UInt64.ofNat number
      | none => 0

def handleSET : List Bytes -> Handled
  | _ :: key :: value :: options =>
      .routed ⟨text "SET", key, value, ttlOf options⟩ (routeReply (text "+OK\r\n"))
  | _ => .answered wrongNumber

def handleGET : List Bytes -> Handled
  | _ :: key :: _ => .reads key
  | _ => .answered wrongNumber

def handleDEL : List Bytes -> Handled
  | _ :: key :: _ => .routed ⟨text "DEL", key, [], 0⟩ (routeReply (text ":1\r\n"))
  | _ => .answered wrongNumber

/-- One round of the loop of `handleConnection`. -/
def handleConnection (toUpper : Bytes -> Bytes) (line : Bytes) : Handled :=
  match Words.fields line with
  | [] => .skipped
  | first :: args =>
      let parts := first :: args
      let command := toUpper first
      if command = text "SET" then handleSET parts
      else if command = text "GET" then handleGET parts
      else if command = text "DEL" then handleDEL parts
      else if command = text "STATUS" then .status
      else if command = text "PING" then .answered (text "+PONG\r\n")
      else .answered (text "-ERR unknown command\r\n")

/-- The call of `applyLoop` for a committed command, if there is one.  The name is
compared as it is. -/
def applyLoop (command : Bytes) : Option EngineCall :=
  match Words.fields command with
  | [] => none
  | cmd :: args =>
      if cmd = text "SET" then
        match args with
        | key :: value :: options => some (.set key value (secondsTtl (ttlOf options).toInt64))
        | _ => none
      else if cmd = text "DEL" then
        match args with
        | key :: _ => some (.delete key)
        | [] => none
      else none

/-- The call that an operation asks for. -/
def Operation.call (op : Operation) : EngineCall :=
  if op.type = text "SET" then .set op.key op.value (secondsTtl op.ttl.toInt64) else .delete op.key

/-- The printed operation falls into its type, its key and, for a `SET`, its value
and the number of its time to live.  A `DEL` has neither. -/
def Carried (op : Operation) : Prop :=
  op.type = text "SET" ∧
      (Exists fun seconds => Words.fields (serializeOperation op) =
        [op.type, op.key, op.value, seconds] ∧
        parseUint seconds = some op.ttl.toNat) ∨
    op.type = text "DEL" ∧ Words.fields (serializeOperation op) = [op.type, op.key] ∧
      op.value = [] ∧ op.ttl = 0

theorem word_showNat (value : Nat) : Words.Word (showNat value) := by
  apply Words.word_of_small (showNat_ne_nil value)
  · exact fun byte member => (small_of_isDigit (isDigit_of_mem_showNat member)).1
  · exact fun byte member => (small_of_isDigit (isDigit_of_mem_showNat member)).2

theorem fields_serialize_set {key value : Bytes} (keyWord : Words.Word key)
    (valueWord : Words.Word value) (ttl : UInt64) :
    Words.fields (serializeOperation ⟨text "SET", key, value, ttl⟩) =
        [text "SET", key, value, showNat ttl.toNat] := by
  have start : text "SET " = text "SET" ++ [32] := by
    rw [text_eq, text_eq]
    rfl
  have space : text " " = [32] := by
    rw [text_eq]
    rfl
  have joined : serializeOperation ⟨text "SET", key, value, ttl⟩ =
      [32].intercalate [text "SET", key, value, showNat ttl.toNat] := by
    rw [serializeOperation, if_pos rfl, start, space]
    simp only [List.intercalate_cons_cons, List.intercalate_singleton, List.append_assoc]
  rw [joined]
  apply Words.fields_join
  intro word member
  simp only [List.mem_cons, List.not_mem_nil, or_false] at member
  rcases member with rfl | rfl | rfl | rfl
  · rw [text_eq]
    decide
  · exact keyWord
  · exact valueWord
  · exact word_showNat _

theorem fields_serialize_del {key : Bytes} (keyWord : Words.Word key) :
    Words.fields (serializeOperation ⟨text "DEL", key, [], 0⟩) = [text "DEL", key] := by
  have start : text "DEL " = text "DEL" ++ [32] := by
    rw [text_eq, text_eq]
    rfl
  have joined : serializeOperation ⟨text "DEL", key, [], 0⟩ = [32].intercalate [text "DEL", key] := by
    rw [serializeOperation, if_neg del_ne_set, if_neg del_ne_get, if_pos rfl, start]
    simp only [List.intercalate_cons_cons, List.intercalate_singleton, List.append_assoc]
  rw [joined]
  apply Words.fields_join
  intro word member
  simp only [List.mem_cons, List.not_mem_nil, or_false] at member
  rcases member with rfl | rfl
  · rw [text_eq]
    decide
  · exact keyWord

/-- The operations that a line can be made into. -/
theorem handleConnection_eq_routed {line : Bytes} {op : Operation} {reply : Option Bytes -> Bytes}
    (handled : handleConnection toUpper line = .routed op reply) :
    Words.Word op.key ∧
      (op.type = text "SET" ∧ Words.Word op.value ∨ op.type = text "DEL" ∧
          op.value = [] ∧ op.ttl = 0) := by
  have all : forall word, word ∈ Words.fields line -> Words.Word word :=
    fun _ member => Words.word_of_mem_fields member
  unfold handleConnection at handled
  split at handled
  · cases handled
  next first args words =>
    rw [words] at all
    simp only at handled
    split at handled
    · rcases args with _ | ⟨key, _ | ⟨value, options⟩⟩
      · cases handled
      · cases handled
      · cases handled
        exact ⟨all key (by simp), Or.inl ⟨rfl, all value (by simp)⟩⟩
    split at handled
    · rcases args with _ | ⟨key, others⟩ <;> cases handled
    split at handled
    · rcases args with _ | ⟨key, others⟩
      · cases handled
      · cases handled
        exact ⟨all key (by simp), Or.inr ⟨rfl, rfl, rfl⟩⟩
    split at handled
    · cases handled
    split at handled <;> cases handled

theorem ttlOf_showNat (ttl : UInt64) : ttlOf [showNat ttl.toNat] = ttl := by
  rw [ttlOf, parseUint_showNat ttl.toNat_lt]
  exact UInt64.ofNat_toNat

/-- A routed operation is carried through the log, and applied as it was asked for. -/
theorem carried_of_routed {line : Bytes} {op : Operation} {reply : Option Bytes -> Bytes}
    (handled : handleConnection toUpper line = .routed op reply) :
    Carried op ∧ applyLoop (serializeOperation op) = some op.call := by
  rcases op with ⟨type, key, value, ttl⟩
  rcases handleConnection_eq_routed handled with
    ⟨keyWord, ⟨isSet, valueWord⟩ | ⟨isDel, noValue, noTtl⟩⟩
  · change type = text "SET" at isSet
    subst isSet
    have words := fields_serialize_set keyWord valueWord ttl
    refine ⟨Or.inl ⟨rfl, showNat ttl.toNat, words, parseUint_showNat ttl.toNat_lt⟩, ?_⟩
    simp only [applyLoop, words, if_true, ttlOf_showNat, Operation.call]
  · change type = text "DEL" at isDel
    change value = [] at noValue
    change ttl = 0 at noTtl
    subst isDel noValue noTtl
    have words := fields_serialize_del keyWord
    refine ⟨Or.inr ⟨rfl, words, rfl, rfl⟩, ?_⟩
    simp only [applyLoop, words, del_ne_set, if_false, if_true, Operation.call]

end Sharded

/-- For every line that is accepted as a write: the distributed server proposes a
command from which each node makes the call that the simple server makes of the
line, and the sharded server proposes a printed operation from which its type, its
key, its value and its time to live are read back, and the call made. -/
theorem commands_survive_log (toUpper : Bytes -> Bytes) :
    (forall (n : Node) (get : Bytes -> Option Bytes) (content command : Bytes) (write : Write),
        handleClient (goStrings toUpper) n get content = .proposed command write ->
        Exists fun call => applyCommand toUpper command = some call ∧
          (Simple.handleLine toUpper content).bind Exchange.call = some call) ∧
      forall (line : Bytes) (op : Sharded.Operation) (reply : Option Bytes -> Bytes),
        Sharded.handleConnection toUpper line = .routed op reply ->
        Sharded.Carried op ∧ Sharded.applyLoop (Sharded.serializeOperation op) = some op.call :=
  ⟨fun _ _ _ _ _ handled => applyCommand_proposed handled, fun _ _ _ handled =>
    Sharded.carried_of_routed handled⟩

/-- A line with a tab and small letters, on a leader and on the sharded server. -/
theorem commands_survive_log_sample :
    (Exists fun call => applyCommand asciiUpper (text "set k v ex 10") = some call ∧
        (Simple.handleLine asciiUpper (text " set k\tv ex 10 ")).bind Exchange.call = some call) ∧
      Sharded.Carried ⟨text "SET", text "k", text "v", 10⟩ := by
  have survive := commands_survive_log asciiUpper
  have words : Words.fields (text "set k v 10") = [text "set", text "k", text "v", text "10"] :=
    by decide +kernel
  have upper : asciiUpper (text "set") = text "SET" := by decide +kernel
  have ttl : Sharded.ttlOf [text "10"] = 10 := by decide +kernel
  have routed : Sharded.handleConnection asciiUpper (text "set k v 10") =
      .routed ⟨text "SET", text "k", text "v", 10⟩ (Sharded.routeReply (text "+OK\r\n")) := by
    simp only [Sharded.handleConnection, words, upper, if_true, Sharded.handleSET, ttl]
  constructor
  · let leader : Node := { newNode [97] [] 1 with state := .leader }
    exact survive.1 leader (fun _ => none) (text " set k\tv ex 10 ") _ ⟨1, 0, text "+OK\r\n"⟩
      (by decide +kernel)
  · exact (survive.2 _ _ _ routed).1

end Server
end KVStore
