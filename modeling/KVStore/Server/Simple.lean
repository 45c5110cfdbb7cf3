import KVStore.Server.RESPServer

namespace KVStore
namespace Server
namespace Simple

open Engine Decimal

variable {P : Platform}

/-!
# The simple server, and where it differs from the RESP server

`cmd/simple_server/main.go`.  The client sends lines, and each line is split into
its words.  The commands are those of the RESP server, but they were written a
second time: the seconds of an `EX` are scanned and not parsed, every error of a
`Get` is a missing value, every error of a `Delete` is a zero, and a line has to
fit the buffer of the scanner.

For the commands that both servers know in the same form, `front_ends_agree_iff`
says for which commands and engines all of this makes no difference.
-/

/-! ## Lines -/

/-- The size to which `bufio.Scanner` lets its buffer grow. -/
def maxTokenSize : Nat := 64 * 1024

def dropCR (line : Bytes) : Bytes := if line.getLast? = some 13 then line.dropLast else line

/-- The lines that `bufio.Scanner` finds in a stream.  A line needs room for its end
in the buffer, and the first one that is too long ends the scan. -/
def scanLines (stream : Bytes) : List Bytes :=
  let lines := stream.splitOn 10
  let terminated := if lines.getLast? = some [] then lines.dropLast else lines
  (terminated.takeWhile fun line => decide (line.length < maxTokenSize)).map dropCR

/-! ## `handleClient` -/

/-- The time to live of a `SET`.  Only the two words behind the value count. -/
def exTtl (toUpper : Bytes -> Bytes) : List Bytes -> Int64
  | option :: argument :: _ =>
      if toUpper option = text "EX" then secondsTtl ((scanInt argument).getD 0) else 0
  | _ => 0

def getReply : Except EngineError Bytes -> Bytes
  | .error _ => text "$-1\r\n"
  | .ok value => bulkReply value

def delReply : Option EngineError -> Bytes
  | some _ => text ":0\r\n"
  | none => text ":1\r\n"

/-- The `switch` over the first word of a line. -/
def handleParts (toUpper : Bytes -> Bytes) (first : Bytes) (args : List Bytes) : Exchange :=
  let cmd := toUpper first
  if cmd = text "PING" then .answered (text "+PONG\r\n")
  else if cmd = text "SET" then
    match args with
    | key :: value :: options => .sets key value (exTtl toUpper options) setReply
    | _ => .answered wrongNumber
  else if cmd = text "GET" then
    match args with
    | key :: _ => .gets key getReply
    | [] => .answered wrongNumber
  else if cmd = text "DEL" then
    match args with
    | key :: _ => .deletes key delReply
    | [] => .answered wrongNumber
  else .answered (text "-ERR unknown command\r\n")

/-- One round of the loop.  A line without words is skipped. -/
def handleLine (toUpper : Bytes -> Bytes) (content : Bytes) : Option Exchange :=
  let line := Words.trimSpace content
  if line = [] then none
  else
    match Words.fields line with
    | [] => none
    | first :: args => some (handleParts toUpper first args)

/-- What a connection leaves: the engine, the calls that were made and what was
written. -/
structure Session (P : Platform) where
  handle : Option (EngineHandle P)
  calls : List EngineCall
  written : Bytes

def handleLines (toUpper : Bytes -> Bytes) (handle : Option (EngineHandle P))
    (moments : Nat -> Moment) :
    List Bytes -> Session P
  | [] => ⟨handle, [], []⟩
  | content :: contents =>
      match handleLine toUpper content with
      | none => handleLines toUpper handle (fun index => moments (index + 1)) contents
      | some exchange =>
          let done := exchange.run handle (moments 0)
          let later := handleLines toUpper done.1 (fun index => moments (index + 1)) contents
          ⟨later.handle, exchange.call.toList ++ later.calls, done.2 ++ later.written⟩

/-- `handleClient` on all that the client sends.  The moments are those of the
lines, in order. -/
def handleClient (toUpper : Bytes -> Bytes) (handle : Option (EngineHandle P))
    (moments : Nat -> Moment) (stream : Bytes) :
    Session P := handleLines toUpper handle moments (scanLines stream)

/-! ## A line of words -/

theorem mem_join {words : List Bytes} {byte : UInt8} (member : byte ∈ [32].intercalate words) :
    byte = 32 ∨ Exists fun word => word ∈ words ∧ byte ∈ word := by
  induction words with
  | nil => cases member
  | cons first words ih =>
      cases words with
      | nil =>
          rw [List.intercalate_singleton] at member
          exact Or.inr ⟨first, List.mem_cons_self, member⟩
      | cons second words =>
          rw [List.intercalate_cons_cons, List.append_assoc, List.mem_append, List.mem_append,
            List.mem_singleton] at member
          rcases member with inFirst | space | later
          · exact Or.inr ⟨first, List.mem_cons_self, inFirst⟩
          · exact Or.inl space
          · exact (ih later).imp id fun ⟨word, inside, inWord⟩ =>
              ⟨word, List.mem_cons_of_mem first inside, inWord⟩

/-- Words joined by spaces hold no other small white space. -/
theorem notMem_join {words : List Bytes} (all : forall word, word ∈ words -> Words.Word word)
    {space : UInt8} (small : space.toNat < 0x80) (isSeparator : Words.isSpace [space] = true)
    (other : space ≠ 32) :
    space ∉ [32].intercalate words := by
  intro member
  rcases mem_join member with same | ⟨word, inside, inWord⟩
  · exact other same
  · exact (all word inside).ne_of_mem inWord small isSeparator rfl

theorem scanLines_line {line : Bytes} (single : 10 ∉ line) (noReturn : 13 ∉ line) :
    scanLines (line ++ [10]) = if line.length < maxTokenSize then [line] else [] := by
  have split : (line ++ [10]).splitOn 10 = [line, []] := by
    rw [List.splitOn_append_cons_self_of_not_mem single, List.splitOn_nil]
  have kept : dropCR line = line := if_neg fun last => noReturn (List.mem_of_getLast? last)
  have last : [line, []].getLast? = some [] := rfl
  simp only [scanLines, split]
  rw [if_pos last, List.dropLast_cons_cons, List.dropLast_singleton, List.takeWhile_cons]
  by_cases short : line.length < maxTokenSize
  · rw [if_pos short, decide_eq_true short, if_pos rfl, List.takeWhile_nil, List.map_singleton, kept]
  · rw [if_neg short, decide_eq_false short]
    rfl

theorem handleLine_join (toUpper : Bytes -> Bytes) {first : Bytes} {args : List Bytes}
    (all : forall word, word ∈ first :: args -> Words.Word word) :
    handleLine toUpper ([32].intercalate (first :: args)) =
        some (handleParts toUpper first args) := by
  have split : Words.fields (Words.trimSpace ([32].intercalate (first :: args))) = first :: args := by
    rw [Words.fields_trimSpace, Words.fields_join all]
  have nonempty : Words.trimSpace ([32].intercalate (first :: args)) ≠ [] := by
    intro empty
    rw [empty] at split
    cases split
  simp only [handleLine, if_neg nonempty, split]

/-- A line of words is handled, or the connection is closed without a word. -/
theorem handleClient_join (toUpper : Bytes -> Bytes) (handle : Option (EngineHandle P))
    (moments : Nat -> Moment) {first : Bytes} {args : List Bytes}
    (all : forall word, word ∈ first :: args -> Words.Word word) :
    handleClient toUpper handle moments ([32].intercalate (first :: args) ++ [10]) =
      if ([32].intercalate (first :: args)).length < maxTokenSize then
        let exchange := handleParts toUpper first args
        ⟨(exchange.run handle (moments 0)).1, exchange.call.toList,
          (exchange.run handle (moments 0)).2⟩
      else ⟨handle, [], []⟩ := by
  have single := notMem_join all (by decide : (10 : UInt8).toNat < 0x80) (by decide) (by decide)
  have noReturn := notMem_join all (by decide : (13 : UInt8).toNat < 0x80) (by decide) (by decide)
  rw [handleClient, scanLines_line single noReturn]
  split
  · simp only [handleLines, handleLine_join toUpper all, List.append_nil]
  · rfl

/-! ## Agreement -/

/-- The commands that both servers know in the same form. -/
inductive Request where
  | ping
  | get (key : Bytes)
  | del (key : Bytes)
  | set (key value : Bytes)
  | setEx (key value seconds : Bytes)

/-- The words of a request, the names in any mixture of small and capital letters. -/
inductive Spells (toUpper : Bytes -> Bytes) : List Bytes -> Request -> Prop where
  | ping {name : Bytes} (upper : toUpper name = text "PING") : Spells toUpper [name] .ping
  | get {name key : Bytes} (upper : toUpper name = text "GET") : Spells toUpper [name, key] (.get key)
  | del {name key : Bytes} (upper : toUpper name = text "DEL") : Spells toUpper [name, key] (.del key)
  | set {name key value : Bytes} (upper : toUpper name = text "SET") :
    Spells toUpper [name, key, value] (.set key value)
  | setEx {name key value option seconds : Bytes} (upper : toUpper name = text "SET")
      (optionUpper : toUpper option = text "EX") :
      Spells toUpper [name, key, value, option, seconds] (.setEx key value seconds)

/-- The RESP server on the words of a command, and the simple server on the line of
these words, write the same bytes and ask the same of the engine. -/
def Agree (toUpper : Bytes -> Bytes) (handle : Option (EngineHandle P)) (moment : Moment)
    (tokens : List Bytes) : Prop :=
  let exchange := handleCommand toUpper tokens
  let session := handleClient toUpper handle (fun _ => moment) ([32].intercalate tokens ++ [10])
  session.written = (exchange.run handle moment).2 ∧ session.calls = exchange.call.toList

/-- What the servers treat alike of a request: a `Get` that finds the key or does
not, a `Delete` that finds it, and seconds in which `strconv.Atoi` and
`fmt.Sscanf` see the same time to live. -/
def Alike (handle : Option (EngineHandle P)) (moment : Moment) : Request -> Prop
  | .ping => True
  | .get key => forall error, (GoEngine.get handle key moment).2 = .error error -> error = .notFound
  | .del key => (GoEngine.delete handle key).2 = none
  | .set _ _ => True
  | .setEx _ _ seconds => atoi seconds = none -> secondsTtl ((scanInt seconds).getD 0) = 0

theorem errorReply_ne (error : EngineError) :
    errorReply error ≠ text "$-1\r\n" ∧ errorReply error ≠ text ":0\r\n" := by
  cases error <;> simp only [errorReply, EngineError.message, text_eq] <;> decide

theorem getReply_eq_iff (result : Except EngineError Bytes) :
    getReply result = Server.getReply result <-> forall error, result = .error error ->
        error = .notFound := by
  cases result with
  | ok value => exact iff_of_true rfl (fun _ failed => by cases failed)
  | error error =>
      rw [getReply, Server.getReply]
      constructor
      · intro same other failed
        cases failed
        split at same
        next missing => exact missing
        next => exact absurd same.symm (errorReply_ne error).1
      · intro missing
        rw [if_pos (missing error rfl)]

theorem delReply_eq_iff (result : Option EngineError) :
    delReply result = Server.delReply result <-> result = none := by
  cases result with
  | none => exact iff_of_true rfl rfl
  | some error =>
      refine iff_of_false ?_ (Option.some_ne_none error)
      rw [delReply, Server.delReply]
      split
      · simp only [text_eq]
        decide
      · exact (errorReply_ne error).2.symm

theorem exTtl_eq_iff {toUpper : Bytes -> Bytes} {option seconds : Bytes}
    (upper : toUpper option = text "EX") :
    exTtl toUpper [option, seconds] = optionsTtl toUpper 0 [option, seconds] <->
      (atoi seconds = none -> secondsTtl ((scanInt seconds).getD 0) = 0) := by
  rw [exTtl, if_pos upper, optionsTtl, if_pos upper]
  cases parsed : atoi seconds with
  | none => exact ⟨fun same _ => same, fun zero => zero rfl⟩
  | some number =>
      rw [scanInt_of_atoi parsed]
      exact iff_of_true rfl (fun none => absurd none (Option.some_ne_none number))

theorem toList_inj {X : Type} {first second : Option X} :
    first.toList = second.toList <-> first = second := by
  cases first <;> cases second <;> simp

theorem ne_nil_of_oneValue {reply : Bytes} (one : OneValue reply) : reply ≠ [] := by
  rintro rfl
  rcases one with ⟨value, reads⟩
  cases reads []

/-- The two servers compared on the words, when the line fits the scanner. -/
theorem agree_iff (toUpper : Bytes -> Bytes) (handle : Option (EngineHandle P)) (moment : Moment)
    {first : Bytes} {args : List Bytes} (all : forall word, word ∈ first :: args -> Words.Word word)
    (clean : Clean (toUpper first)) :
    Agree toUpper handle moment (first :: args) <->
      ([32].intercalate (first :: args)).length < maxTokenSize ∧
        ((handleParts toUpper first args).run handle moment).2 =
          ((handleCommand toUpper (first :: args)).run handle moment).2 ∧
        (handleParts toUpper first args).call = (handleCommand toUpper (first :: args)).call := by
  have replies := ne_nil_of_oneValue ((oneValue_run_iff toUpper handle moment first args).mpr clean)
  simp only [Agree, handleClient_join toUpper handle _ all]
  split
  next fits =>
    rw [and_iff_right fits]
    exact and_congr_right fun _ => toList_inj
  next long =>
    refine iff_of_false ?_ (fun both => long both.1)
    exact fun both => replies both.1.symm

section Names

variable {toUpper : Bytes -> Bytes} {name : Bytes}

theorem ping_handled (upper : toUpper name = text "PING") (args : List Bytes) :
    handleParts toUpper name args = .answered (text "+PONG\r\n") ∧
      handleCommand toUpper (name :: args) = .answered (text "+PONG\r\n") := by
  simp only [handleParts, handleCommand, upper, if_true, and_self]

theorem set_handled (upper : toUpper name = text "SET") (key value : Bytes) (options : List Bytes) :
    handleParts toUpper name (key :: value :: options) =
      .sets key value (exTtl toUpper options) setReply ∧
      handleCommand toUpper (name :: key :: value :: options) =
        .sets key value (optionsTtl toUpper 0 options) setReply := by
  simp only [handleParts, handleCommand, upper, set_ne_ping, if_false, if_true, and_self]

theorem get_handled (upper : toUpper name = text "GET") (key : Bytes) :
    handleParts toUpper name [key] = .gets key getReply ∧
      handleCommand toUpper [name, key] = .gets key Server.getReply := by
  simp only [handleParts, handleCommand, upper, get_ne_ping, get_ne_set, if_false, if_true, and_self]

theorem del_handled (upper : toUpper name = text "DEL") (key : Bytes) :
    handleParts toUpper name [key] = .deletes key delReply ∧
      handleCommand toUpper [name, key] = .deletes key Server.delReply := by
  simp only [handleParts, handleCommand, upper, del_ne_ping, del_ne_set, del_ne_get, if_false,
    if_true, and_self]

end Names

/-- For every engine and every request in words without white space, the two
servers agree exactly when the line fits the scanner and the request is one that
they treat alike. -/
theorem front_ends_agree_iff (toUpper : Bytes -> Bytes) (handle : Option (EngineHandle P))
    (moment : Moment) (tokens : List Bytes) (request : Request)
    (spells : Spells toUpper tokens request)
    (all : forall token, token ∈ tokens -> Words.Word token) :
    Agree toUpper handle moment tokens <->
      ([32].intercalate tokens).length < maxTokenSize ∧ Alike handle moment request := by
  cases spells with
  | ping upper =>
      rw [agree_iff toUpper handle moment all (upper ▸ clean_ping), (ping_handled upper _).1,
        (ping_handled upper _).2]
      exact and_congr_right fun _ => iff_of_true ⟨rfl, rfl⟩ trivial
  | get upper =>
      rw [agree_iff toUpper handle moment all (upper ▸ clean_get), (get_handled upper _).1,
        (get_handled upper _).2]
      exact and_congr_right fun _ => (and_iff_left rfl).trans (getReply_eq_iff _)
  | del upper =>
      rw [agree_iff toUpper handle moment all (upper ▸ clean_del), (del_handled upper _).1,
        (del_handled upper _).2]
      exact and_congr_right fun _ => (and_iff_left rfl).trans (delReply_eq_iff _)
  | set upper =>
      rw [agree_iff toUpper handle moment all (upper ▸ clean_set), (set_handled upper _ _ _).1,
        (set_handled upper _ _ _).2]
      exact and_congr_right fun _ => iff_of_true ⟨rfl, rfl⟩ trivial
  | setEx upper optionUpper =>
      rename_i name key value option seconds
      rw [agree_iff toUpper handle moment all (upper ▸ clean_set), (set_handled upper _ _ _).1,
        (set_handled upper _ _ _).2]
      refine and_congr_right fun _ => Iff.trans ?_ (exTtl_eq_iff optionUpper)
      constructor
      · rintro ⟨_, calls⟩
        injection calls with call
        injection call
      · intro same
        rw [same]
        exact ⟨rfl, rfl⟩

/-- An ordinary `SET` with a time to live. -/
theorem front_ends_agree_set :
    Agree asciiUpper (engineCreate Platform.source 1 1) ⟨0, 0, 0, []⟩
      [text "set", text "k", text "v", text "ex", text "10"] := by
  refine (front_ends_agree_iff asciiUpper _ _ _ (.setEx (text "k") (text "v") (text "10"))
    (.setEx (by decide +kernel) (by decide +kernel)) (by decide +kernel)).mpr ⟨by decide +kernel, ?_⟩
  exact fun none => absurd none (by decide +kernel)

/-- A key that is not there is deleted for one server and not for the other, and
seconds with a letter behind them count for one and not for the other. -/
theorem front_ends_differ :
    let handle := engineCreate Platform.source 1 1
    let moment : Moment := ⟨0, 0, 0, []⟩
    ((handleCommand asciiUpper [text "DEL", text "k"]).run handle moment).2 = text ":1\r\n" ∧
      (handleClient asciiUpper handle (fun _ => moment) (text "DEL k\n")).written = text ":0\r\n" ∧
      (handleCommand asciiUpper [text "SET", text "k", text "v", text "EX", text "10s"]).call =
        some (.set (text "k") (text "v") 0) ∧
      (handleClient asciiUpper handle (fun _ => moment) (text "SET k v EX 10s\n")).calls =
        [.set (text "k") (text "v") 10000000000] := by
  decide +kernel

end Simple
end Server
end KVStore
