import KVStore.Server.RESPServer

namespace KVStore
namespace Server

open Engine Framing Bindings

variable {P : Platform}

/-!
# The server as a timed map

From the socket down to the buckets a command passes the RESP reader, the methods
of the Go engine, the C interface and the hash table.  To a client all of this is
a map from keys to values with times to live:  a `SET` binds a key, a `DEL`
deletes it, and a `GET` tells the value of the latest `SET` that has not expired
when the engine looks at the clock for the last time.

The server that has such a map in the place of the engine writes the same bytes,
as long as the table evicts nothing.  It keeps a value as long as its client may
see it and never deletes it on its own, whereas the table drops some expired
entries and keeps others.
-/

/-! ## The abstract server -/

instance (clock : Clock) (entry : TimedEntry) : Decidable (Live clock entry) :=
    inferInstanceAs (Decidable (_ ∨ _))

/-- What the map tells of a key. -/
def lookup (m : Bytes -> Option TimedEntry) (key : Bytes) (clock : Clock) :
    Except EngineError Bytes :=
  match m key with
  | some entry => if Live clock entry then .ok entry.1 else .error .notFound
  | none => .error .notFound

namespace Exchange

/-- An exchange with a map in the place of the engine.  The reply to a `DEL` does not
depend on whether the key was bound. -/
def answer (m : Bytes -> Option TimedEntry) (moment : Moment) :
    Exchange -> (Bytes -> Option TimedEntry) × Bytes
  | .answered reply => (m, reply)
  | .sets key value ttl reply =>
      if value.length > GoEngine.bufSize then (m, reply (some .valueTooLarge))
      else (Change.apply ⟨fun _ => false,
        some (key, (value, if ttl > 0 then ttl else 0, moment.now))⟩ m, reply none)
  | .gets key reply => (m, reply (lookup m key moment.finalNow))
  | .deletes key reply => (Change.apply ⟨fun other => decide (key = other), none⟩ m, reply none)

/-- The calls of the C interface that an exchange makes. -/
def apiCalls (moment : Moment) : Exchange -> List ApiCall
  | .answered _ => []
  | .sets key value ttl _ => [.set (some key) (some value) (if ttl > 0 then ttl else 0) moment.now]
  | .gets key _ =>
      [.get (some key) (some moment.buffer) (some GoEngine.bufSize) moment.now moment.accessNow
        moment.finalNow]
  | .deletes key _ => [.delete (some key) moment.now]

end Exchange

/-- The replies of the abstract server to commands, and the map behind the last. -/
def answers (toUpper : Bytes -> Bytes) (m : Bytes -> Option TimedEntry) (moments : Nat -> Moment) :
    List (List Bytes) -> (Bytes -> Option TimedEntry) × List Bytes
  | [] => (m, [])
  | cmd :: commands =>
      let done := (handleCommand toUpper cmd).answer m (moments 0)
      let others := answers toUpper done.1 (fun index => moments (index + 1)) commands
      (others.1, done.2 :: others.2)

/-- The calls of the C interface that commands make. -/
def apiCalls (toUpper : Bytes -> Bytes) (moments : Nat -> Moment) :
    List (List Bytes) -> List ApiCall
  | [] => []
  | cmd :: commands =>
      (handleCommand toUpper cmd).apiCalls (moments 0) ++
      apiCalls toUpper (fun index => moments (index + 1)) commands

/-- The readings of the clock do not go back. -/
structure Ordered (moments : Nat -> Moment) : Prop where
  access : forall index, (moments index).now ≤ (moments index).accessNow
  final : forall index, (moments index).accessNow ≤ (moments index).finalNow
  next : forall index, (moments index).finalNow ≤ (moments (index + 1)).now

theorem Ordered.shift {moments : Nat -> Moment} (ordered : Ordered moments) :
    Ordered fun index => moments (index + 1) :=
  ⟨fun index => ordered.access (index + 1), fun index => ordered.final (index + 1),
    fun index => ordered.next (index + 1)⟩

/-! ## The methods of the engine -/

variable {m : Bytes -> Option TimedEntry}

theorem agrees_later {t : HashTable P} {clock later : Clock} (agrees : Agrees t m clock)
    (ordered : clock ≤ later) : Agrees t m later := by
  intro key
  refine (agrees key).imp_right fun ⟨gone, entry, bound, expired⟩ =>
    ⟨gone, entry, bound, fun live => expired ?_⟩
  exact live.anti ordered

/-- The engine holds the map, and what it holds fits the buffer of `Engine.Get`. -/
structure Represents (h : EngineHandle P) (m : Bytes -> Option TimedEntry)
    (clock : Clock) : Prop where
  wf : h.table.WF
  agrees : Agrees h.table m clock
  fits : forall key entry, m key = some entry -> entry.1.length ≤ GoEngine.bufSize

namespace Represents

variable {h : EngineHandle P} {m : Bytes -> Option TimedEntry} {clock : Clock}

theorem set_error (h : EngineHandle P) (key value : Bytes) (ttl : Int64) (moment : Moment) :
    (GoEngine.set (some h) key value ttl moment).2 =
      if value.length > GoEngine.bufSize then some .valueTooLarge else none := by
  have code : (engineSet (some h) (some key) (some value) (if ttl > 0 then ttl else 0) moment.now).2 =
      if value.length > GoEngine.bufSize then -2 else 0 := by
    rw [engineSet]
    exact apply_ite Prod.snd _ _ _
  simp only [GoEngine.set, code]
  by_cases long : value.length > GoEngine.bufSize
  · simp only [if_pos long]
    rfl
  · simp only [if_neg long]
    rfl

/-- `Engine.Get` tells what the map does. -/
theorem get_eq_lookup (represents : Represents h m clock) (key : Bytes) {moment : Moment}
    (past : clock ≤ moment.now) (ordered : moment.now ≤ moment.finalNow) :
    (GoEngine.get (some h) key moment).2 = lookup m key moment.finalNow := by
  have agrees := agrees_later represents.agrees past
  by_cases found : Exists fun entry => m key = some entry ∧ Live moment.finalNow entry
  · rcases found with ⟨entry, bound, live⟩
    have before := live.anti ordered
    have returns := engineGet_found represents.wf (agrees.held bound before)
      (unexpired_stored_iff.mpr before) (unexpired_stored_iff.mpr live) moment.buffer
      GoEngine.bufSize moment.accessNow
    rcases returns with ⟨length, outcome⟩
    have short : (stored entry).1.length ≤ GoEngine.bufSize := represents.fits key entry bound
    rw [if_pos short] at outcome
    simp only [GoEngine.get, outcome.1, outcome.2, length, if_pos, Option.getD_some]
    rw [lookup, bound]
    simp only [if_pos live]
    exact congrArg Except.ok List.take_left
  · have missed : (engineGet (some h) (some key) (some moment.buffer) (some GoEngine.bufSize)
        moment.now moment.accessNow moment.finalNow).code = -1 := by
      refine engineGet_missed represents.wf (fun image held _ unexpired => ?_) moment.buffer
        GoEngine.bufSize moment.accessNow
      rcases agrees.bound held with ⟨entry, bound, rfl⟩
      exact found ⟨entry, bound, unexpired_stored_iff.mp unexpired⟩
    simp only [GoEngine.get, missed]
    rw [lookup]
    cases bound : m key with
    | none => rfl
    | some entry =>
        have expired : ¬ Live moment.finalNow entry := fun live => found ⟨entry, bound, live⟩
        simp only [if_neg expired]
        rfl

/-- A `DEL` is answered alike whether it finds the key or not. -/
theorem delReply_delete (h : EngineHandle P) (key : Bytes) :
    delReply (GoEngine.delete (some h) key).2 = delReply none := by
  have code : (engineDelete (some h) (some key)).2 = if (h.table.remove key).2 then 0 else -1 := rfl
  simp only [GoEngine.delete, code]
  cases removed : (h.table.remove key).2 with
  | true => rfl
  | false => rfl

end Represents

/-! ## Exchanges -/

/-- The engine after an exchange. -/
theorem run_handle (h : EngineHandle P) (moment : Moment) (exchange : Exchange) :
    (exchange.run (some h) moment).1 = runApi (some h) (exchange.apiCalls moment) := by
  cases exchange <;> rfl

/-- The map after an exchange. -/
theorem answer_map (m : Bytes -> Option TimedEntry) (moment : Moment) (exchange : Exchange) :
    (exchange.answer m moment).1 =
      ((exchange.apiCalls moment).map ApiCall.change).foldl (fun m change => change.apply m) m := by
  cases exchange with
  | answered reply => rfl
  | sets key value ttl reply =>
      simp only [Exchange.answer, Exchange.apiCalls, List.map_cons, List.map_nil, List.foldl_cons,
        List.foldl_nil, ApiCall.change]
      by_cases long : value.length > 512 * 1024
      · have limit : value.length > GoEngine.bufSize := long
        rw [if_pos long, if_pos limit]
        rfl
      · have limit : ¬ value.length > GoEngine.bufSize := long
        rw [if_neg long, if_neg limit]
  | gets key reply => rfl
  | deletes key reply => rfl

theorem reply_of_deletes {toUpper : Bytes -> Bytes} {cmd : List Bytes} {key : Bytes}
    {reply : Option EngineError -> Bytes}
    (handled : handleCommand toUpper cmd = .deletes key reply) : reply = delReply := by
  cases cmd with
  | nil => cases handled
  | cons first args =>
      simp only [handleCommand] at handled
      by_cases ping : toUpper first = text "PING"
      · rw [if_pos ping] at handled
        cases handled
      rw [if_neg ping] at handled
      by_cases set : toUpper first = text "SET"
      · rw [if_pos set] at handled
        split at handled <;> cases handled
      rw [if_neg set] at handled
      by_cases get : toUpper first = text "GET"
      · rw [if_pos get] at handled
        split at handled <;> cases handled
      rw [if_neg get] at handled
      by_cases del : toUpper first = text "DEL"
      · rw [if_pos del] at handled
        split at handled <;> cases handled
        rfl
      · rw [if_neg del] at handled
        cases handled

theorem Represents.run {h : EngineHandle P} {clock : Clock} (represents : Represents h m clock)
    {moment : Moment} (past : clock ≤ moment.now) (access : moment.now ≤ moment.accessNow)
    (final : moment.accessNow ≤ moment.finalNow) (toUpper : Bytes -> Bytes) (cmd : List Bytes) :
    ((handleCommand toUpper cmd).run (some h) moment).2 =
      ((handleCommand toUpper cmd).answer m moment).2 := by
  cases handled : handleCommand toUpper cmd with
  | answered reply => rfl
  | sets key value ttl reply =>
      change reply (GoEngine.set (some h) key value ttl moment).2 = _
      rw [set_error, Exchange.answer]
      split <;> rfl
  | gets key reply =>
      change reply (GoEngine.get (some h) key moment).2 = _
      rw [represents.get_eq_lookup key past (le_trans access final)]
      rfl
  | deletes key reply =>
      change reply (GoEngine.delete (some h) key).2 = _
      rw [reply_of_deletes handled, delReply_delete]
      rfl

/-- What an exchange leaves of the engine has the map of the exchange. -/
theorem Represents.runApi {h : EngineHandle P} {clock later : Clock}
    (represents : Represents h m clock) (ordered : clock ≤ later) {calls : List ApiCall}
    (past : forall reading, reading ∈ calls.flatMap ApiCall.readings -> reading ≤ later)
    (silent : quiet h.table (tableCallsOf h.table calls) = true) :
    Represents { h with table := runCalls h.table (tableCallsOf h.table calls) }
      ((calls.map ApiCall.change).foldl (fun m change => change.apply m) m) later where
  wf := wf_runCalls represents.wf _
  agrees := (agrees_later represents.agrees ordered).runCalls represents.wf past silent
  fits := by
    -- A value that is too long is refused before it gets to the table.
    clear past silent
    have fits := represents.fits
    clear represents
    induction calls generalizing m with
    | nil => exact fits
    | cons call calls ih =>
        refine ih fun key entry bound => ?_
        rw [Change.apply_eq_some_iff] at bound
        rcases bound with binds | ⟨_, before⟩
        · cases call with
          | set written value ttlNs now =>
              cases written <;> cases value <;> try cases binds
              rename_i written value
              rw [ApiCall.change] at binds
              split at binds
              · cases binds
              next short =>
                cases binds
                exact Nat.not_lt.mp short
          | get read buf len now accessNow finalNow => cases binds
          | delete deleted now => cases deleted <;> cases binds
        · exact fits key entry before

/-! ## Pipelines -/

theorem readings_exchange {moment : Moment} (access : moment.now ≤ moment.accessNow)
    (final : moment.accessNow ≤ moment.finalNow) (exchange : Exchange) :
    forall reading, reading ∈ (exchange.apiCalls moment).flatMap ApiCall.readings ->
        reading ≤ moment.finalNow := by
  have whole := le_trans access final
  cases exchange <;> simp [Exchange.apiCalls, ApiCall.readings, final, whole]

theorem tableCallsOf_append (t : HashTable P) (first second : List ApiCall) :
    tableCallsOf t (first ++ second) = tableCallsOf t first ++
        tableCallsOf (runCalls t (tableCallsOf t first)) second := by
  induction first generalizing t with
  | nil => rfl
  | cons call first ih =>
      rw [List.cons_append, tableCallsOf, tableCallsOf, ih, List.append_assoc, runCalls_append]

theorem runApi_append (handle : Option (EngineHandle P)) (first second : List ApiCall) :
    runApi handle (first ++ second) = runApi (runApi handle first) second :=
  List.foldl_append

/-- Command by command, the engine answers as the map does. -/
theorem replies_eq_answers (toUpper : Bytes -> Bytes) {h : EngineHandle P} {clock : Clock}
    (represents : Represents h m clock) {moments : Nat -> Moment} (ordered : Ordered moments)
    (past : clock ≤ (moments 0).now) {commands : List (List Bytes)}
    (silent : quiet h.table (tableCallsOf h.table (apiCalls toUpper moments commands)) = true) :
    (replies toUpper (some h) moments commands).2 = (answers toUpper m moments commands).2 ∧
      (replies toUpper (some h) moments commands).1 =
        runApi (some h) (apiCalls toUpper moments commands) ∧
      (answers toUpper m moments commands).1 =
        ((apiCalls toUpper moments commands).map ApiCall.change).foldl
        (fun m change => change.apply m) m ∧
      Exists fun left => (replies toUpper (some h) moments commands).1 = some left ∧
        Represents left (answers toUpper m moments commands).1 (moments commands.length).now := by
  induction commands generalizing h m clock moments with
  | nil =>
      exact ⟨rfl, rfl, rfl, h, rfl, represents.wf, agrees_later represents.agrees past,
        represents.fits⟩
  | cons cmd commands ih =>
      rw [apiCalls, tableCallsOf_append, quiet_append, Bool.and_eq_true] at silent
      have reply := represents.run past (ordered.access 0) (ordered.final 0) toUpper cmd
      have engine := run_handle h (moments 0) (handleCommand toUpper cmd)
      rw [runApi_some] at engine
      have later : clock ≤ (moments 0).finalNow :=
        le_trans past (le_trans (ordered.access 0) (ordered.final 0))
      have next := represents.runApi later
        (readings_exchange (ordered.access 0) (ordered.final 0) _) silent.1
      rcases ih next ordered.shift (ordered.next 0) silent.2 with
        ⟨others, handle, map, left, isLeft, stands⟩
      rw [← answer_map] at others map stands
      refine ⟨?_, ?_, ?_, left, ?_, stands⟩
      · simp only [replies, answers, engine, reply, others]
      · simp only [replies, engine, handle, apiCalls]
        rw [runApi_append, runApi_some h]
      · rw [apiCalls, List.map_append, List.foldl_append, ← answer_map]
        exact map
      · simp only [replies, engine, isLeft]

/-- Whatever has been done with an engine before, as long as nothing is evicted:  to a pipeline of
commands the server writes what it would write if the engine were a map with times to live, and it
leaves an engine that stands for the map behind the last command. -/
theorem connection_is_timedMap (P : Platform) (toUpper : Bytes -> Bytes) (numThreads : Int)
    (memLimitBytes : Nat) (handle : EngineHandle P)
    (created : engineCreate P numThreads memLimitBytes = some handle) (earlier : List ApiCall)
    (commands : List (List Bytes)) (moments : Nat -> Moment)
    (fits : forall cmd, cmd ∈ commands -> Representable cmd) (ordered : Ordered moments)
    (past : forall reading, reading ∈ earlier.flatMap ApiCall.readings -> reading ≤ (moments 0).now)
    (silent : quiet handle.table
      (tableCallsOf handle.table (earlier ++ apiCalls toUpper moments commands)) = true) :
    let served :=
      handleConnection toUpper (runApi (some handle) earlier) moments (commands.flatMap encodeCommand)
    let answered := answers toUpper (after (earlier.map ApiCall.change)) moments commands
    served.written = answered.2.flatten ∧ served.ending = some .eof ∧
      served.handle = runApi (some handle) (earlier ++ apiCalls toUpper moments commands) ∧
      answered.1 = after ((earlier ++ apiCalls toUpper moments commands).map ApiCall.change) ∧
      Exists fun left => served.handle = some left ∧
          Represents left answered.1 (moments commands.length).now := by
  intro served answered
  rw [tableCallsOf_append, quiet_append, Bool.and_eq_true] at silent
  have fresh := table_of_created created
  have empty : Represents handle (fun _ => none) (moments 0).now :=
    ⟨fresh ▸ defaultConfig.wf_fresh none, fun key =>
      Or.inl (fresh ▸ defaultConfig.view_fresh none key), fun _ _ bound => nomatch bound⟩
  have reached := empty.runApi (le_refl _) past silent.1
  rcases replies_eq_answers toUpper reached ordered (le_refl _) silent.2 with
    ⟨same, engine, map, stands⟩
  have whole : served = _ :=
    handleConnection_encoded toUpper (runApi (some handle) earlier) moments fits
  rw [runApi_some] at whole
  rw [whole]
  refine ⟨congrArg List.flatten same, rfl, ?_, ?_, stands⟩
  · rw [runApi_append, runApi_some handle earlier]
    exact engine
  · rw [List.map_append, after, List.foldl_append]
    exact map

/-- A clock that stands at the given second. -/
def atSecond (second : Nat) (small : second * 1000000000 < 2 ^ 63) : Moment :=
  ⟨⟨_, small⟩, ⟨_, small⟩, ⟨_, small⟩, []⟩

/-- A value that lives for five seconds is found after four and gone after five. -/
def shortLived : List (List Bytes) :=
  [[text "SET", text "a", text "1", text "EX", text "5"], [text "GET", text "a"],
    [text "GET", text "a"]]

def shortMoments : Nat -> Moment
  | 0 => atSecond 0 (by decide)
  | 1 => atSecond 4 (by decide)
  | _ => atSecond 5 (by decide)

theorem connection_is_timedMap_shortLived :
    (handleConnection asciiUpper (engineCreate Platform.source 1 1) shortMoments
      (shortLived.flatMap encodeCommand)).written =
      text "+OK\r\n$1\r\n1\r\n$-1\r\n" := by
  have facts : (forall cmd, cmd ∈ shortLived -> cmd.length < 2 ^ 63 ∧ forall value, value ∈ cmd ->
      value.length + 2 < 2 ^ 63) ∧
      quiet (defaultConfig.fresh Platform.source none)
        (tableCallsOf (defaultConfig.fresh Platform.source none)
          ([] ++ apiCalls asciiUpper shortMoments shortLived)) = true ∧
      (answers asciiUpper (fun _ => none) shortMoments shortLived).2.flatten =
          text "+OK\r\n$1\r\n1\r\n$-1\r\n" := by
    decide +kernel
  rcases facts with ⟨small, silent, bytes⟩
  have ordered : Ordered shortMoments := by
    refine ⟨fun index => ?_, fun index => ?_, fun index => ?_⟩
    · rcases index with _ | _ | index <;> exact le_refl _
    · rcases index with _ | _ | index <;> exact le_refl _
    · rcases index with _ | _ | index
      · exact Fin.zero_le _
      · exact Fin.mk_le_mk.mpr (by decide)
      · exact le_refl _
  have served := (connection_is_timedMap Platform.source asciiUpper
    1 1 ⟨1, 1, defaultConfig.fresh Platform.source none⟩ rfl [] shortLived shortMoments
      (fun cmd member => ⟨(small cmd member).1, (small cmd member).2⟩) ordered
    (fun _ inside => nomatch inside) silent).1
  exact served.trans bytes

end Server
end KVStore
