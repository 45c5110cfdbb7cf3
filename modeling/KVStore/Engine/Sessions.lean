import KVStore.Engine.Durability

namespace KVStore
namespace Engine

open Framing Keyed HashTable Bindings

variable {P : Platform}

/-!
# One process after the other

A process finds a snapshot and a log, loads the one, replays the other, and goes on
with the log.  It makes its calls and takes its snapshots, and ends by itself or by a
crash; the next process finds what it has left behind.

Below the memory limit nothing is lost on the way that was secured.  Each process keeps
a beginning of its calls:  all of them if it ends by itself, and otherwise all but the
last hundred mutating ones at most, and none of those before a flush or a snapshot.
There is one condition.  A crash in the middle of a write may leave a part of a record
at the end of the log, behind which nothing is read any more.  The next process must
take a snapshot, and with it a new log, before its first call.
-/

/-! ## Maps -/

/-- What a call does to a map that has room for it. -/
def TableCall.change : TableCall -> Change Bytes (Bytes × UInt64)
  | .insert key value => ⟨fun _ => false, some (key, (value.value, value.expiryNs))⟩
  | .get _ _ _ => Change.keep
  | .remove key => ⟨fun other => decide (key = other), none⟩
  | .flushWal => Change.keep

/-- The map after some calls. -/
def play (m : Bytes -> Option (Bytes × UInt64)) (calls : List TableCall) :
    Bytes -> Option (Bytes × UInt64) :=
  calls.foldl (fun m call => call.change.apply m) m

instance : DecidablePred TableCall.Short
  | .insert _ _ => inferInstanceAs (Decidable (_ ∧ _))
  | .get _ _ _ => inferInstanceAs (Decidable True)
  | .remove _ => inferInstanceAs (Decidable (_ < _))
  | .flushWal => inferInstanceAs (Decidable True)

/-- What a table holds after some calls, as long as it evicts nothing. -/
def contents (calls : List TableCall) : Bytes -> Option (Bytes × UInt64) :=
  after (calls.map TableCall.change)

theorem play_append (m : Bytes -> Option (Bytes × UInt64)) (first second : List TableCall) :
    play m (first ++ second) = play (play m first) second :=
  List.foldl_append

theorem contents_append (first second : List TableCall) :
    contents (first ++ second) = play (contents first) second := by
  rw [contents, contents, after, after, play, List.map_append, List.foldl_append, List.foldl_map]

/-- The strings of a map come from the calls. -/
theorem short_contents {calls : List TableCall} (short : forall call, call ∈ calls -> call.Short)
    {key : Bytes} {entry : Bytes × UInt64} (bound : contents calls key = some entry) :
    key.length < 2 ^ 32 ∧ entry.1.length < 2 ^ 32 := by
  rw [contents, after_eq_some_iff] at bound
  rcases bound with ⟨earlier, change, later, split, binds, _⟩
  have inside : change ∈ calls.map TableCall.change := by
    rw [split]
    exact List.mem_append_right _ List.mem_cons_self
  rcases List.mem_map.mp inside with ⟨call, called, rfl⟩
  cases call with
  | insert written value =>
      cases binds
      exact short _ called
  | get read now accessNow => cases binds
  | remove removed => cases binds
  | flushWal => cases binds

/-- Every table with this map is within its limit. -/
def Roomy (P : Platform) (limit : Nat) (m : Bytes -> Option (Bytes × UInt64)) : Prop :=
  forall t : HashTable P, t.WF -> t.view = m -> storedBytes t.entries ≤ limit

theorem roomy_of_within {t : HashTable P} {limit : Nat} (within : storedBytes t.entries ≤ limit) :
    Roomy P limit t.view := by
  intro other wf same
  exact Nat.le_trans (wf.storedBytes_le fun key _ => congrFun same key) within

/-- A call on a table that evicts nothing. -/
theorem view_apply_of_within {t : HashTable P} (wf : t.WF)
    (within : storedBytes t.entries ≤ t.policy.memoryLimit) (call : TableCall) :
    (call.apply t).view = call.change.apply t.view := by
  rw [view_apply wf]
  cases call with
  | insert key value =>
      funext other
      have kept := wf.not_evicts within other
      simp [changeOf, TableCall.change, Change.apply, kept]
  | get key now accessNow => rfl
  | remove key => rfl
  | flushWal => rfl

/-- There is room before each of the calls. -/
def RoomyAlong (P : Platform) (limit : Nat) (m : Bytes -> Option (Bytes × UInt64))
    (calls : List TableCall) : Prop :=
  forall count, count < calls.length -> Roomy P limit (play m (calls.take count))

namespace RoomyAlong

variable {limit : Nat} {m : Bytes -> Option (Bytes × UInt64)} {calls : List TableCall}

theorem nil : RoomyAlong P limit m [] := fun _ inside => nomatch inside

theorem head {call : TableCall} (along : RoomyAlong P limit m (call :: calls)) : Roomy P limit m :=
  along 0 (Nat.succ_pos _)

theorem tail {call : TableCall} (along : RoomyAlong P limit m (call :: calls)) :
    RoomyAlong P limit (call.change.apply m) calls :=
  fun count inside => along (count + 1) (Nat.succ_lt_succ inside)

theorem shorter {front : List TableCall} (along : RoomyAlong P limit m calls)
    (part : front <+: calls) :
    RoomyAlong P limit m front := by
  intro count inside
  rcases part with ⟨rest, rfl⟩
  have same : (front ++ rest).take count = front.take count :=
    List.take_append_of_le_length (Nat.le_of_lt inside)
  rw [← same]
  exact along count (by rw [List.length_append]; omega)

theorem snoc (along : RoomyAlong P limit m calls) (room : Roomy P limit (play m calls))
    (call : TableCall) :
    RoomyAlong P limit m (calls ++ [call]) := by
  intro count inside
  rw [List.length_append, List.length_singleton] at inside
  rw [List.take_append_of_le_length (by omega)]
  rcases Nat.lt_or_ge count calls.length with earlier | last
  · exact along count earlier
  · rw [List.take_of_length_le last]
    exact room

end RoomyAlong

/-- The replay of the records of some calls does what the calls do. -/
theorem replayRecords_recordsOf {t : HashTable P} {limit : Nat}
    {m : Bytes -> Option (Bytes × UInt64)} {calls : List TableCall}
    (along : RoomyAlong P limit m calls) (wf : t.WF) (view : t.view = m)
    (limited : t.policy.memoryLimit = limit) (clock : Nat -> UInt64) (replayed : Nat) :
    (replayRecords clock replayed t (recordsOf calls)).view = play m calls ∧
      (replayRecords clock replayed t (recordsOf calls)).policy.memoryLimit = limit := by
  induction calls generalizing t m replayed with
  | nil => exact ⟨view, limited⟩
  | cons call calls ih =>
      have within : storedBytes t.entries ≤ t.policy.memoryLimit := limited ▸ along.head t wf view
      cases writes : call.record with
      | none =>
          have silent : recordsOf (call :: calls) = recordsOf calls := List.filterMap_cons_none writes
          have unchanged : t.view = call.change.apply m := by
            cases call with
            | insert key value => cases writes
            | remove key => cases writes
            | get key now accessNow => exact view
            | flushWal => exact view
          rw [silent]
          exact ih along.tail wf unchanged limited replayed
      | some record =>
          have longer : recordsOf (call :: calls) = record :: recordsOf calls :=
            List.filterMap_cons_some writes
          rw [longer, replayRecords]
          refine ih along.tail (wf_applyRecord wf _ _ record) ?_ ?_ (replayed + 1)
          · rw [view_applyRecord_of_record wf wf rfl within within _ _ writes,
              view_apply_of_within wf within call, view]
          · rw [memoryLimit_applyRecord wf _ _ writes, limited]

/-! ## Processes -/

/-- What a process leaves behind:  the file of the last snapshot, and the log. -/
structure Disk where
  snapshot : Option Bytes
  log : Bytes

/-- A process destroys its table, or it crashes. -/
inductive Ending where
  | shutdown
  | crash (moment : Moment)

namespace Ending

/-- The call in progress. -/
def calls : Ending -> List TableCall
  | .shutdown => []
  | .crash moment => moment.calls

theorem length_calls_le (ending : Ending) : ending.calls.length ≤ 1 := by
  cases ending with
  | shutdown => exact Nat.zero_le _
  | crash moment => exact moment.length_calls_le

/-- Whether a part of a record may be left at the end of the log. -/
def tears : Ending -> Bool
  | .crash (.inside _ _) => true
  | _ => false

/-- The log file that is left.  The destructor of the log flushes. -/
def logFile (t : HashTable P) : Ending -> Bytes
  | .shutdown => walFile t.flushWal
  | .crash moment => moment.logFile t

end Ending

/-- The events that leave nothing in the buffer of the log. -/
def DurableCall.secures : DurableCall -> Bool
  | .checkpoint => true
  | .call .flushWal => true
  | .call _ => false

/-- The life of a process. -/
structure Session where
  capacity : Nat
  garbage : Uninitialised
  clock : Nat -> UInt64
  events : List DurableCall
  ending : Ending

namespace Session

variable (config : TableConfig) (P : Platform) (session : Session) (disk : Disk)

/-- The calls that are made, the one in progress at the end included. -/
def calls : List TableCall := tableCalls session.events ++ session.ending.calls

/-- `load_snapshot` if there is a snapshot, `replay_wal`, and `enable_wal`. -/
def start : Durable P :=
  ⟨(TableConfig.recovered { config with initialCapacity := session.capacity } P
      session.garbage session.clock disk.snapshot disk.log).enableWal disk.log 100, disk.snapshot⟩

/-- The table after some of the calls and snapshots. -/
def after (count : Nat) : Durable P :=
  (session.events.take count).foldl Durable.step (session.start config P disk)

/-- What is left when the process has ended. -/
def leaves : Disk :=
  ⟨(session.after config P disk session.events.length).snapshot,
    session.ending.logFile (session.after config P disk session.events.length).table⟩

/-- The table stays within its limit, and its strings are shorter than their length fields allow. -/
structure Calm : Prop where
  within : forall count, count ≤ session.events.length ->
    storedBytes (session.after config P disk count).table.entries ≤ config.memoryLimit
  counted : forall count, count ≤ session.events.length ->
    (session.after config P disk count).table.numEntries < 2 ^ 64
  short : forall call, call ∈ session.calls -> call.Short

/-- What may be lost of the calls of a process:  nothing if it ends by itself, nothing that was made
before a snapshot or a flush, and no more than a hundred mutating calls. -/
structure Keeps (kept : List TableCall) : Prop where
  beginning : kept <+: session.calls
  few : mutations session.calls ≤ mutations kept + 100
  shutdown : session.ending = .shutdown -> kept = session.calls
  secured : forall front event rest, session.events = front ++ event :: rest ->
    event.secures = true ->
    tableCalls front <+: kept

end Session

/-- Processes one after the other, from no files on. -/
def runSessions (config : TableConfig) (P : Platform) (sessions : List Session) : Disk :=
  sessions.foldl (fun disk session => session.leaves config P disk) ⟨none, []⟩

/-- Each process is calm with the files that it finds. -/
def Calm (config : TableConfig) (P : Platform) (sessions : List Session) : Prop :=
  forall index, forall inside : index < sessions.length,
    (sessions.get ⟨index, inside⟩).Calm config P (runSessions config P (sessions.take index))

/-- A process that follows a torn log starts with a snapshot. -/
def Repaired (sessions : List Session) : Prop :=
  sessions.IsChain fun first second => first.ending.tears = true ->
    second.events.head? = some .checkpoint

/-! ## What the files say -/

section

variable (config : TableConfig) (P : Platform)

/-- Loading the snapshot gives this map. -/
def Gives (snapshot : Option Bytes) (m : Bytes -> Option (Bytes × UInt64)) : Prop :=
  forall capacity garbage,
    (TableConfig.reloaded { config with initialCapacity := capacity } P garbage snapshot).WF ∧
      (TableConfig.reloaded { config with initialCapacity := capacity } P garbage snapshot).view = m ∧
      (TableConfig.reloaded { config with initialCapacity := capacity } P garbage
        snapshot).policy.memoryLimit =
        config.memoryLimit

/-- The files of a history:  the snapshot holds a map, and the log the records of the
calls that lead from it to the contents of the history.  The log may end with a part of
a record only if it is not intact. -/
structure Restores (history : List TableCall) (intact : Bool) (disk : Disk) (base : Bytes ->
    Option (Bytes × UInt64)) (since : List TableCall) : Prop where
  snapshot : Gives config P disk.snapshot base
  whole : play base since = contents history
  roomy : RoomyAlong P config.memoryLimit base since
  short : forall call, call ∈ since -> call.Short
  allShort : forall call, call ∈ history -> call.Short
  read : readAll disk.log = recordsOf since
  exact : intact = true -> disk.log = walCodec.encodeAll (recordsOf since)

/-- A table that holds the contents of a history, and logs. -/
structure Holds (history : List TableCall) (t : HashTable P) : Prop where
  wf : t.WF
  limit : t.policy.memoryLimit = config.memoryLimit
  view : t.view = contents history
  allShort : forall call, call ∈ history -> call.Short
  logging : t.walWriter.isSome = true

/-- Where the calls are that a table has seen. -/
structure Account where
  /-- The map of the snapshot. -/
  base : Bytes -> Option (Bytes × UInt64)
  /-- The calls of earlier processes that the log has. -/
  old : List TableCall
  /-- The calls of this process that the snapshot has. -/
  dropped : List TableCall
  /-- Those that the log has for certain. -/
  safe : List TableCall
  /-- Those whose records may wait. -/
  loose : List TableCall
  /-- The records in the log file. -/
  flushed : List WALRecord
  /-- The records in the buffer. -/
  waiting : List WALRecord

/-- The calls since the snapshot. -/
def Account.since (account : Account) : List TableCall :=
  account.old ++ account.safe ++ account.loose

/-- A process with a history before it, after some calls and snapshots of its own. -/
structure Logged (before : List TableCall) (past : List DurableCall) (d : Durable P)
    (account : Account) : Prop where
  holds : Holds config P (before ++ tableCalls past) d.table
  calls : tableCalls past = account.dropped ++ account.safe ++ account.loose
  secured : forall front event rest, past = front ++ event :: rest -> event.secures = true ->
    tableCalls front <+: account.dropped ++ account.safe
  snapshot : Gives config P d.snapshot account.base
  whole : play account.base account.old = contents (before ++ account.dropped)
  roomy : RoomyAlong P config.memoryLimit account.base account.since
  short : forall call, call ∈ account.since -> call.Short
  pending : Pending d.table account.flushed account.waiting
  records : account.flushed ++ account.waiting = recordsOf account.since
  written : recordsOf (account.old ++ account.safe) <+: account.flushed

end

variable {config : TableConfig}

theorem restores_nothing (config : TableConfig) (P : Platform) :
    Restores config P [] true ⟨none, []⟩ (fun _ => none) [] where
  snapshot := by
    intro capacity garbage
    refine ⟨TableConfig.wf_fresh _ none, ?_, TableConfig.memoryLimit_fresh _ none⟩
    funext key
    exact TableConfig.view_fresh _ none key
  whole := rfl
  roomy := RoomyAlong.nil
  short := fun _ inside => nomatch inside
  allShort := fun _ inside => nomatch inside
  read := walCodec.decodeAll_encodeAll []
  exact := fun _ => rfl

namespace Restores

variable {history : List TableCall} {intact : Bool} {disk : Disk} {base : Bytes ->
    Option (Bytes × UInt64)}
  {since : List TableCall}

/-- Recovery gives the contents of the history. -/
theorem recovered (restores : Restores config P history intact disk base since) (capacity : Nat)
    (garbage : Uninitialised) (clock : Nat -> UInt64) :
    (TableConfig.recovered { config with initialCapacity := capacity } P garbage clock disk.snapshot
      disk.log).WF ∧
      (TableConfig.recovered { config with initialCapacity := capacity } P garbage clock
        disk.snapshot disk.log).view =
        contents history ∧
      (TableConfig.recovered { config with initialCapacity := capacity } P garbage clock disk.snapshot
        disk.log).policy.memoryLimit = config.memoryLimit := by
  rcases restores.snapshot capacity garbage with ⟨wf, view, limit⟩
  rcases replayRecords_recordsOf restores.roomy wf view limit clock 0 with ⟨replayed, sameLimit⟩
  rw [TableConfig.recovered, replayWal]
  dsimp only
  rw [restores.read]
  exact ⟨wf_replayRecords wf clock 0 _, replayed.trans restores.whole, sameLimit⟩

theorem start (restores : Restores config P history intact disk base since) (session : Session) :
    Holds config P (history ++ tableCalls []) (session.start config P disk).table := by
  rw [tableCalls, List.filterMap_nil, List.append_nil]
  rcases restores.recovered session.capacity session.garbage session.clock with ⟨wf, view, limit⟩
  exact ⟨wf_enableWal wf _ _, limit, view, restores.allShort, rfl⟩

/-- A process that finds a whole log goes on with it. -/
theorem logged (restores : Restores config P history true disk base since) (session : Session) :
    Logged config P history [] (session.start config P disk)
        ⟨base, since, [], [], [], recordsOf since, []⟩ where
  holds := restores.start session
  calls := rfl
  secured := by
    intro front event rest split
    cases front <;> cases split
  snapshot := restores.snapshot
  whole := by
    rw [List.append_nil]
    exact restores.whole
  roomy := by simpa [Account.since] using restores.roomy
  short := by simpa [Account.since] using restores.short
  pending := ⟨_, rfl, rfl, restores.exact rfl, rfl, Nat.zero_lt_succ 99⟩
  records := by simp [Account.since]
  written := by simp

end Restores

namespace Holds

variable {history : List TableCall} {t : HashTable P}

theorem call (holds : Holds config P history t)
    (within : storedBytes t.entries ≤ config.memoryLimit) {call : TableCall} (short : call.Short) :
    Holds config P (history ++ [call]) (call.apply t) where
  wf := wf_apply holds.wf call
  limit := (memoryLimit_runCalls holds.wf [call]).trans holds.limit
  view := by
    rw [view_apply_of_within holds.wf (holds.limit ▸ within), holds.view, contents_append]
    rfl
  allShort := by
    intro other member
    rcases List.mem_append.mp member with earlier | last
    · exact holds.allShort other earlier
    · exact List.mem_singleton.mp last ▸ short
  logging := by
    cases call with
    | insert key value =>
        rcases (holds.wf.insert key value).2.2.2 with ⟨victims, _, written⟩
        exact written ▸ (Option.isSome_map).trans holds.logging
    | remove key => exact holds.wf.walWriter_remove key ▸ (Option.isSome_map).trans holds.logging
    | get key now accessNow => exact (holds.wf.get key now accessNow).2.2.2.2 ▸ holds.logging
    | flushWal => exact (Option.isSome_map).trans holds.logging

theorem strings (holds : Holds config P history t) : ShortStrings t := by
  intro key entry bound
  rw [holds.view] at bound
  exact short_contents holds.allShort bound

/-- What a snapshot says. -/
theorem gives (holds : Holds config P history t)
    (within : storedBytes t.entries ≤ config.memoryLimit) (counted : t.numEntries < 2 ^ 64) :
    Gives config P (some (createSnapshot t)) (contents history) := by
  intro capacity garbage
  have loads := fun key => TableConfig.loaded_createSnapshot { config with
    initialCapacity := capacity } holds.wf within counted garbage key
  refine ⟨(loads []).1, ?_, ?_⟩
  · funext key
    rw [← holds.view]
    exact (loads key).2.trans (snapshotView_eq_view holds.wf holds.strings key)
  · rw [TableConfig.reloaded, TableConfig.loaded,
      loadSnapshot_createSnapshot holds.wf counted, if_pos rfl]
    exact (memoryLimit_insertAll (TableConfig.wf_fresh _ none) _).trans
      (TableConfig.memoryLimit_fresh _ none)

/-- A snapshot, with a new log behind it. -/
theorem checkpoint {before : List TableCall} {past : List DurableCall} {d : Durable P}
    (holds : Holds config P (before ++ tableCalls past) d.table)
    (within : storedBytes d.table.entries ≤ config.memoryLimit)
    (counted : d.table.numEntries < 2 ^ 64) :
    Logged config P before (past ++ [.checkpoint]) (d.step .checkpoint)
      ⟨contents (before ++ tableCalls past), [], tableCalls past, [], [], [], []⟩ := by
  have same : tableCalls (past ++ [.checkpoint]) = tableCalls past := by
    rw [TableConfig.tableCalls_append]
    exact List.append_nil _
  have anew : d.step .checkpoint = ⟨d.table.enableWal [] 100, some (createSnapshot d.table)⟩ := by
    simp [Durable.step, HashTable.truncateWal, holds.logging]
  rw [anew]
  exact {
    holds := by
      rw [same]
      exact ⟨wf_enableWal holds.wf _ _, holds.limit, holds.view, holds.allShort, rfl⟩
    calls := by simp [same]
    secured := by
      intro front event rest split _
      rw [List.append_nil]
      change tableCalls front <+: tableCalls past
      rw [← same, split, TableConfig.tableCalls_append]
      exact List.prefix_append _ _
    snapshot := holds.gives within counted
    whole := rfl
    roomy := RoomyAlong.nil
    short := fun _ inside => absurd inside List.not_mem_nil
    pending := ⟨_, rfl, rfl, rfl, rfl, Nat.zero_lt_succ 99⟩
    records := rfl
    written := List.prefix_rfl }

end Holds

namespace Logged

variable {before : List TableCall} {past : List DurableCall} {d : Durable P} {account : Account}

variable (logged : Logged config P before past d account)

include logged

/-- The snapshot and the calls since then give what the table holds. -/
theorem play_since :
    play account.base account.since = contents (before ++ tableCalls past) := by
  rw [logged.calls, Account.since, List.append_assoc, play_append, logged.whole, ← contents_append]
  simp only [List.append_assoc]

theorem room (within : storedBytes d.table.entries ≤ config.memoryLimit) :
    Roomy P config.memoryLimit (play account.base account.since) := by
  rw [logged.play_since, ← logged.holds.view]
  exact roomy_of_within within

/-- A call that does not flush. -/
theorem call (within : storedBytes d.table.entries ≤ config.memoryLimit) {call : TableCall}
    (short : call.Short) (loose : (DurableCall.call call).secures = false) :
    Exists fun account => Logged config P before (past ++ [.call call])
        (d.step (.call call)) account := by
  have calls : tableCalls (past ++ [.call call]) = tableCalls past ++ [call] :=
    TableConfig.tableCalls_append _ _
  rcases logged.pending.apply logged.holds.wf (logged.holds.limit ▸ within) call with
    ⟨flushed, waiting, pending, longer, records⟩
  have since : account.old ++ account.safe ++ (account.loose ++ [call]) =
      account.since ++ [call] := by
    rw [Account.since, List.append_assoc (account.old ++ account.safe)]
  refine ⟨{ account with loose := account.loose ++ [call], flushed := flushed, waiting := waiting },
    ?_⟩
  exact {
    holds := by
      rw [calls, ← List.append_assoc]
      exact logged.holds.call within short
    calls := by
      rw [calls, logged.calls]
      exact List.append_assoc _ _ _
    secured := by
      intro front event rest split secures
      rcases List.eq_nil_or_concat rest with rfl | ⟨rest, last, rfl⟩
      · have ends := List.append_inj' split rfl
        cases ends.2
        exact nomatch loose.symm.trans secures
      · rw [List.concat_eq_append, ← List.cons_append, ← List.append_assoc] at split
        exact logged.secured front event rest (List.append_inj' split rfl).1 secures
    snapshot := logged.snapshot
    whole := logged.whole
    roomy := by
      rw [Account.since, since]
      exact logged.roomy.snoc (logged.room within) call
    short := by
      rw [Account.since, since]
      intro other member
      rcases List.mem_append.mp member with earlier | last
      · exact logged.short other earlier
      · exact List.mem_singleton.mp last ▸ short
    pending := pending
    records := by
      rw [Account.since, since, recordsOf_append, ← logged.records]
      exact records
    written := logged.written.trans longer }

/-- After a flush all records are in the log. -/
theorem flush (within : storedBytes d.table.entries ≤ config.memoryLimit) :
    Exists fun account => Logged config P before (past ++ [.call .flushWal])
        (d.step (.call .flushWal)) account := by
  have calls : tableCalls (past ++ [.call .flushWal]) = tableCalls past ++ [.flushWal] :=
    TableConfig.tableCalls_append _ _
  have since : account.old ++ (account.safe ++ account.loose ++ [.flushWal]) =
      account.since ++ [.flushWal] := by
    simp [Account.since]
  have silent : recordsOf (account.since ++ [.flushWal]) = account.flushed ++ account.waiting := by
    rw [recordsOf_append, logged.records]
    exact List.append_nil _
  refine ⟨{ account with
    safe := account.safe ++ account.loose ++ [.flushWal], loose := [], flushed :=
      account.flushed ++ account.waiting,
    waiting := [] }, ?_⟩
  have whole : tableCalls (past ++ [.call .flushWal]) =
      account.dropped ++ (account.safe ++ account.loose ++ [.flushWal]) := by
    rw [calls, logged.calls]
    simp
  exact {
    holds := by
      have short : TableCall.flushWal.Short := trivial
      rw [calls, ← List.append_assoc]
      exact logged.holds.call within short
    calls := whole.trans (List.append_nil _).symm
    secured := by
      intro front event rest split _
      change tableCalls front <+: account.dropped ++ (account.safe ++ account.loose ++ [.flushWal])
      rw [← whole, split, TableConfig.tableCalls_append]
      exact List.prefix_append _ _
    snapshot := logged.snapshot
    whole := logged.whole
    roomy := by
      rw [Account.since, since, List.append_nil]
      exact logged.roomy.snoc (logged.room within) .flushWal
    short := by
      rw [Account.since, since, List.append_nil]
      intro other member
      rcases List.mem_append.mp member with earlier | last
      · exact logged.short other earlier
      · exact List.mem_singleton.mp last ▸ trivial
    pending := logged.pending.flush rfl
    records := by
      rw [Account.since, since, List.append_nil, List.append_nil, silent]
    written := by
      rw [since, silent] }

/-- What a process does keeps the account. -/
theorem step (within : storedBytes d.table.entries ≤ config.memoryLimit)
    (counted : d.table.numEntries < 2 ^ 64) {event : DurableCall}
    (short : forall call, call ∈ tableCalls [event] -> call.Short) :
    Exists fun account => Logged config P before (past ++ [event]) (d.step event) account := by
  cases event with
  | checkpoint => exact ⟨_, logged.holds.checkpoint within counted⟩
  | call call =>
      have short := short call List.mem_cons_self
      cases call with
      | insert key value => exact logged.call within short rfl
      | get key now accessNow => exact logged.call within short rfl
      | remove key => exact logged.call within short rfl
      | flushWal => exact logged.flush within

end Logged

/-! ## The end of a process -/

/-- Some of the records are the records of some of the calls, and all of them of all. -/
theorem exists_part_recordsOf (calls : List TableCall) {kept : Nat}
    (bound : kept ≤ (recordsOf calls).length) :
    Exists fun part => part <+: calls ∧ recordsOf part = (recordsOf calls).take kept ∧
      (kept = (recordsOf calls).length -> part = calls) := by
  rcases Nat.lt_or_eq_of_le bound with fewer | rfl
  · rcases exists_recordsOf_take calls bound with ⟨count, _, records⟩
    exact ⟨calls.take count, List.take_prefix _ _, records, fun all =>
      absurd all (Nat.ne_of_lt fewer)⟩
  · exact ⟨calls, List.prefix_rfl, List.take_length.symm, fun _ => rfl⟩

/-- The log file that is left:  it holds what had been flushed, and it lacks a batch at most. -/
theorem Pending.ending {t : HashTable P} {flushed waiting : List WALRecord}
    (pending : Pending t flushed waiting) (wf : t.WF)
    (within : storedBytes t.entries ≤ t.policy.memoryLimit) (ending : Ending)
    (fits : forall record, record ∈ flushed ++ waiting ++ recordsOf ending.calls ->
      walCodec.Fits record) :
    Exists fun kept => flushed.length ≤ kept ∧
      kept ≤ (flushed ++ waiting ++ recordsOf ending.calls).length ∧
      (flushed ++ waiting ++ recordsOf ending.calls).length ≤ kept + 100 ∧
      readAll (ending.logFile t) = (flushed ++ waiting ++ recordsOf ending.calls).take kept ∧
      (ending.tears = false ->
        ending.logFile t = walCodec.encodeAll
          ((flushed ++ waiting ++ recordsOf ending.calls).take kept)) ∧
      (ending = .shutdown -> kept = (flushed ++ waiting ++ recordsOf ending.calls).length) := by
  cases ending with
  | shutdown =>
      have all : (flushed ++ waiting ++ recordsOf Ending.shutdown.calls) = flushed ++ waiting :=
        List.append_nil _
      have file : Ending.shutdown.logFile t = walCodec.encodeAll (flushed ++ waiting) := by
        have written : Pending t.flushWal (flushed ++ waiting) [] := pending.flush rfl
        exact written.walFile
      rw [all] at fits
      rw [all, file]
      refine ⟨(flushed ++ waiting).length, ?_, Nat.le_refl _, Nat.le_add_right _ _, ?_,
        fun _ => ?_, fun _ => rfl⟩
      · rw [List.length_append]
        omega
      · rw [List.take_length]
        exact (walCodec.decodeAll_encodeAll _).trans (walCodec.map_carried_of_fits fits)
      · rw [List.take_length]
  | crash moment =>
      rcases pending.crash wf within moment fits with ⟨kept, enough, bound, few, read, idle⟩
      refine ⟨kept, enough, bound, few, read, fun untorn => idle ?_, fun shutdown => nomatch shutdown⟩
      cases moment with
      | idle => rfl
      | inside call written => cases untorn

/-- The end of a process that kept its account. -/
theorem Logged.ends {before : List TableCall} {session : Session} {d : Durable P}
    {account : Account} (logged : Logged config P before session.events d account)
    (within : storedBytes d.table.entries ≤ config.memoryLimit)
    (short : forall call, call ∈ session.calls -> call.Short) :
    Exists fun kept => session.Keeps kept ∧ Exists fun since =>
      Restores config P (before ++ kept) (!session.ending.tears)
        ⟨d.snapshot, session.ending.logFile d.table⟩ account.base since := by
  have lastShort : forall call, call ∈ session.ending.calls -> call.Short := fun call member =>
    short call (List.mem_append_right _ member)
  have records : account.flushed ++ account.waiting ++ recordsOf session.ending.calls =
      recordsOf (account.old ++ account.safe) ++
          recordsOf (account.loose ++ session.ending.calls) := by
    rw [logged.records, Account.since]
    simp only [recordsOf_append, List.append_assoc]
  have fits : forall record, record ∈ account.flushed ++ account.waiting ++
      recordsOf session.ending.calls ->
      walCodec.Fits record := by
    rw [logged.records, ← recordsOf_append]
    refine fits_recordsOf fun call member => ?_
    rcases List.mem_append.mp member with earlier | last
    · exact logged.short call earlier
    · exact lastShort call last
  rcases logged.pending.ending logged.holds.wf (logged.holds.limit ▸ within) session.ending fits with
    ⟨count, enough, bound, few, read, file, all⟩
  rw [records] at bound few read file all
  -- What is left has the records of the calls that were flushed, and of a part of the others.
  have least := logged.written.length_le
  rw [List.length_append] at bound few all
  have rest : count - (recordsOf (account.old ++ account.safe)).length ≤
      (recordsOf (account.loose ++ session.ending.calls)).length := by omega
  rcases exists_part_recordsOf _ rest with ⟨part, isPart, partRecords, complete⟩
  have left : (recordsOf (account.old ++ account.safe) ++
      recordsOf (account.loose ++ session.ending.calls)).take count =
      recordsOf (account.old ++ account.safe ++ part) := by
    rw [List.take_append, List.take_of_length_le (Nat.le_trans least enough),
      recordsOf_append _ part, partRecords]
  have calls : session.calls = account.dropped ++ account.safe ++
      (account.loose ++ session.ending.calls) := by
    rw [Session.calls, logged.calls, List.append_assoc]
  have beginning : account.dropped ++ account.safe ++ part <+: session.calls := by
    rw [calls]
    exact (List.prefix_append_right_inj _).mpr isPart
  have since : account.old ++ account.safe ++ part <+: account.since ++ session.ending.calls := by
    rw [Account.since, List.append_assoc (account.old ++ account.safe) account.loose]
    exact (List.prefix_append_right_inj _).mpr isPart
  refine ⟨account.dropped ++ account.safe ++ part, ?_, account.old ++ account.safe ++ part, ?_⟩
  · refine ⟨beginning, ?_, fun shutdown => ?_, fun front event rest split secures => ?_⟩
    · have length := congrArg List.length partRecords
      rw [List.length_take] at length
      rw [calls]
      simp only [← length_recordsOf, recordsOf_append, List.length_append] at *
      omega
    · rw [complete (by have := all shutdown; omega), calls]
    · exact (logged.secured front event rest split secures).trans (List.prefix_append _ _)
  · exact {
      snapshot := logged.snapshot
      whole := by
        rw [List.append_assoc, play_append, logged.whole, ← contents_append]
        simp only [List.append_assoc]
      roomy := by
        refine RoomyAlong.shorter ?_ since
        cases ends : session.ending.calls with
        | nil =>
            rw [List.append_nil]
            exact logged.roomy
        | cons call others =>
            have single : others = [] := by
              have one := session.ending.length_calls_le
              rw [ends] at one
              exact List.eq_nil_of_length_eq_zero (by simpa using one)
            rw [single]
            exact logged.roomy.snoc (logged.room within) call
      short := by
        intro call member
        rcases List.mem_append.mp (since.subset member) with earlier | last
        · exact logged.short call earlier
        · exact lastShort call last
      allShort := by
        intro call member
        rcases List.mem_append.mp member with earlier | own
        · exact logged.holds.allShort call (List.mem_append_left _ earlier)
        · exact short call (beginning.subset own)
      read := read.trans left
      exact := by
        intro intact
        rw [file (by simpa using intact), left] }

/-! ## Whole lives -/

namespace Session

variable {session : Session} {disk : Disk}

theorem after_succ {count : Nat} (inside : count < session.events.length) :
    session.after config P disk (count + 1) =
        (session.after config P disk count).step session.events[count] := by
  rw [after, ← List.take_concat_get' _ _ inside, List.foldl_append]
  rfl

/-- The account of a process from some event on. -/
theorem logged_from {before : List TableCall} {first : Nat} (calm : session.Calm config P disk)
    (begins : Exists fun account => Logged config P before (session.events.take first)
      (session.after config P disk first) account)
    {count : Nat} (later : first ≤ count) (inside : count ≤ session.events.length) :
    Exists fun account => Logged config P before (session.events.take count)
        (session.after config P disk count) account := by
  induction count, later using Nat.le_induction with
  | base => exact begins
  | succ count later ih =>
      rcases ih (by omega) with ⟨account, logged⟩
      rw [after_succ inside, ← List.take_concat_get' _ _ inside]
      refine logged.step (calm.within count (by omega)) (calm.counted count (by omega))
        fun call member => ?_
      refine calm.short call (List.mem_append_left _ ?_)
      rcases List.mem_filterMap.mp member with ⟨event, single, made⟩
      exact List.mem_filterMap.mpr
        ⟨event, List.mem_singleton.mp single ▸ List.getElem_mem inside, made⟩

/-- A process keeps enough of what it does, and leaves the files of what it has kept. -/
theorem keeps {history : List TableCall} {intact : Bool} {base : Bytes -> Option (Bytes × UInt64)}
    {since : List TableCall} (restores : Restores config P history intact disk base since)
    (repaired : intact = false -> session.events.head? = some .checkpoint)
    (calm : session.Calm config P disk) :
    Exists fun kept => session.Keeps kept ∧ Exists fun base => Exists fun since =>
      Restores config P (history ++ kept) (!session.ending.tears)
          (session.leaves config P disk) base since := by
  have whole : Exists fun account =>
      Logged config P history session.events
          (session.after config P disk session.events.length) account := by
    cases intact with
    | true =>
        have all := logged_from calm ⟨_, restores.logged session⟩ (Nat.zero_le _) (Nat.le_refl _)
        rwa [List.take_length] at all
    | false =>
        rcases List.head?_eq_some_iff.mp (repaired rfl) with ⟨events, split⟩
        have nonempty : 0 < session.events.length := by
          rw [split]
          exact Nat.succ_pos _
        have first : Exists fun account =>
            Logged config P history (session.events.take 1)
                (session.after config P disk 1) account := by
          rw [after, split]
          exact ⟨_, (restores.start session).checkpoint (calm.within 0 (Nat.zero_le _))
            (calm.counted 0 (Nat.zero_le _))⟩
        have all := logged_from calm first nonempty (Nat.le_refl _)
        rwa [List.take_length] at all
  rcases whole with ⟨account, logged⟩
  rcases logged.ends (calm.within _ (Nat.le_refl _)) calm.short with ⟨kept, keeps, since, left⟩
  exact ⟨kept, keeps, _, since, left⟩

end Session

/-- Whether the last process has left a torn log. -/
def torn (sessions : List Session) : Bool :=
  sessions.getLast?.any fun session => session.ending.tears

theorem runSessions_concat (config : TableConfig) (P : Platform) (sessions : List Session)
    (session : Session) :
    runSessions config P (sessions ++ [session]) =
        session.leaves config P (runSessions config P sessions) := by
  rw [runSessions, List.foldl_append]
  rfl

/-- The files of all processes so far. -/
theorem restores_runSessions {sessions : List Session} (calm : Calm config P sessions)
    (repaired : Repaired sessions) :
    Exists fun kept => List.Forall₂ Session.Keeps sessions kept ∧
        Exists fun base => Exists fun since =>
      Restores config P kept.flatten (!torn sessions) (runSessions config P sessions) base since := by
  induction sessions using List.reverseRecOn with
  | nil => exact ⟨[], List.Forall₂.nil, _, _, restores_nothing config P⟩
  | append_singleton sessions session ih =>
      rcases List.isChain_append.mp repaired with ⟨earlier, _, next⟩
      have calmBefore : Calm config P sessions := by
        intro index inside
        have atIndex := calm index (by rw [List.length_append]; omega)
        rwa [List.get_eq_getElem, List.getElem_append_left inside,
          List.take_append_of_le_length (Nat.le_of_lt inside)] at atIndex
      have calmLast : session.Calm config P (runSessions config P sessions) := by
        have last := calm sessions.length (by rw [List.length_append]; exact Nat.lt_succ_self _)
        rwa [List.get_eq_getElem, List.getElem_concat_length rfl, List.take_left] at last
      rcases ih calmBefore earlier with ⟨kept, keeps, base, since, restores⟩
      have starts : (!torn sessions) = false -> session.events.head? = some .checkpoint := by
        intro isTorn
        rw [Bool.not_eq_false', torn, Option.any_eq_true] at isTorn
        rcases isTorn with ⟨last, isLast, tears⟩
        exact next last isLast session rfl tears
      rcases Session.keeps restores starts calmLast with ⟨more, keepsMore, newBase, newSince, left⟩
      refine ⟨kept ++ [more], List.rel_append keeps (List.Forall₂.cons keepsMore List.Forall₂.nil),
        newBase, newSince, ?_⟩
      rw [runSessions_concat, List.flatten_concat, torn, List.getLast?_concat]
      exact left

/-- A process that crashes inside a `remove`, one that repairs the log and ends by
itself, and one that crashes after a flush. -/
def threeSessions : List Session :=
  [⟨1, zeroed, fun _ => 0, [.call (.insert [97] (ValueEntry.new [49] 0)), .call .flushWal],
      .crash (.inside (.remove [97]) 3)⟩,
    ⟨16, zeroed, fun _ => 0, [.checkpoint, .call (.insert [98] (ValueEntry.new [50] 0))], .shutdown⟩,
    ⟨16, zeroed, fun _ => 0, [.call (.remove [97]), .call .flushWal, .call (.remove [98])],
      .crash .idle⟩]

end Engine
end KVStore
