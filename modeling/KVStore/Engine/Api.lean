import KVStore.Engine.Accounting
import KVStore.Engine.TimedMap

namespace KVStore
namespace Engine

open Framing Keyed HashTable Bindings

variable {P : Platform}

/-!
# The C interface

`engine_create`, `engine_set`, `engine_get` and `engine_delete` of
`engine.cpp`.  A pointer that may be null is an `Option`, and a call on a null
handle does nothing.

The handle keeps the memory limit that it is created with, but its table has the
limit that the constructor takes by default.  The limit of the caller is obeyed
exactly when it is at least that one.

For its clients the interface is a map with relative times to live.
`engine_set` turns the time to live into a moment, and `engine_get` looks at the
clock twice, in the table and behind it.  Only the second look deletes what has
expired; what the first one finds expired stays in the table, where
`engine_delete` still finds it.
-/

/-! ## The calls -/

/-- A reading of `steady_clock`: the nanoseconds, a signed number of 64 bits that
is not negative. -/
abbrev Clock := Fin (2 ^ 63)

def Clock.toUInt64 (clock : Clock) : UInt64 := UInt64.ofNat clock.val

structure EngineHandle (P : Platform) where
  numThreads : Int
  memLimitBytes : Nat
  table : HashTable P

/-- The default arguments of the constructor of `HashTable`. -/
def defaultConfig : TableConfig where
  initialCapacity := 16
  memoryLimit := 1024 * 1024 * 100
  kind := .lru

def engineCreate (P : Platform) (numThreads : Int) (memLimitBytes : Nat) :
    Option (EngineHandle P) :=
  if numThreads ≤ 0 ∨ memLimitBytes = 0 then none
  else some ⟨numThreads, memLimitBytes, defaultConfig.fresh P none⟩

theorem table_of_created {numThreads : Int} {memLimitBytes : Nat} {handle : EngineHandle P}
    (created : engineCreate P numThreads memLimitBytes = some handle) :
    handle.table = defaultConfig.fresh P none := by
  unfold engineCreate at created
  split at created
  · cases created
  · cases created
    rfl

/-- The moment at which an entry expires, zero for none. -/
def expiryOf (ttlNs : Int64) (now : Clock) : UInt64 :=
  if ttlNs > 0 then now.toUInt64 + ttlNs.toUInt64 else 0

/-- `engine_set`, with the reading of the clock and the returned code. -/
def engineSet (handle : Option (EngineHandle P)) (key val : Option Bytes) (ttlNs : Int64)
    (now : Clock) : Option (EngineHandle P) × Int :=
  match handle, key, val with
  | some h, some key, some val =>
      if val.length > 512 * 1024 then (some h, -2)
      else (some { h with table := h.table.insert key (ValueEntry.new val (expiryOf ttlNs now)) }, 0)
  | _, _, _ => (handle, -1)

/-- What `engine_get` leaves behind: the handle, the returned code, and the
memory behind `out_buf` and `out_len`. -/
structure GetResult (P : Platform) where
  handle : Option (EngineHandle P)
  code : Int
  outBuf : Option Bytes
  outLen : Option Nat

/-- `engine_get`, with the readings of the clock by `is_expired`, for the access
time, and for the second test. -/
def engineGet (handle : Option (EngineHandle P)) (key outBuf : Option Bytes) (outLen : Option Nat)
    (now accessNow finalNow : Clock) : GetResult P :=
  match handle, key, outBuf, outLen with
  | some h, some key, some buf, some len =>
      match h.table.get key now.toUInt64 accessNow.toUInt64 with
      | (t, none) => ⟨some { h with table := t }, -1, some buf, some len⟩
      | (t, some entry) =>
          if entry.expiryNs > 0 ∧ finalNow.toUInt64 ≥ entry.expiryNs then
            ⟨some { h with table := (t.remove key).1 }, -1, some buf, some len⟩
          else if entry.value.length > len then
            ⟨some { h with table := t }, -2, some buf, some entry.value.length⟩
          else ⟨some { h with table := t }, 0, some (entry.value ++ buf.drop entry.value.length),
            some entry.value.length⟩
  | _, _, _, _ => ⟨handle, -1, outBuf, outLen⟩

def engineDelete (handle : Option (EngineHandle P)) (key : Option Bytes) :
    Option (EngineHandle P) × Int :=
  match handle, key with
  | some h, some key =>
      let removed := h.table.remove key
      (some { h with table := removed.1 }, if removed.2 then 0 else -1)
  | _, _ => (handle, -1)

/-! ## Histories -/

/-- A call with its arguments and the readings of the clock.  `engine_delete`
does not look at the clock; its reading is the moment of the call. -/
inductive ApiCall where
  | set (key val : Option Bytes) (ttlNs : Int64) (now : Clock)
  | get (key outBuf : Option Bytes) (outLen : Option Nat) (now accessNow finalNow : Clock)
  | delete (key : Option Bytes) (now : Clock)

def ApiCall.key : ApiCall -> Option Bytes
  | .set key _ _ _ => key
  | .get key _ _ _ _ _ => key
  | .delete key _ => key

def ApiCall.readings : ApiCall -> List Clock
  | .set _ _ _ now => [now]
  | .get _ _ _ now accessNow finalNow => [now, accessNow, finalNow]
  | .delete _ now => [now]

def ApiCall.apply (handle : Option (EngineHandle P)) : ApiCall -> Option (EngineHandle P)
  | .set key val ttlNs now => (engineSet handle key val ttlNs now).1
  | .get key outBuf outLen now accessNow finalNow =>
      (engineGet handle key outBuf outLen now accessNow finalNow).handle
  | .delete key _ => (engineDelete handle key).1

def runApi (handle : Option (EngineHandle P)) (calls : List ApiCall) : Option (EngineHandle P) :=
  calls.foldl ApiCall.apply handle

/-- The calls on the table that a call of the interface makes. -/
def ApiCall.tableCalls (t : HashTable P) : ApiCall -> List TableCall
  | .set (some key) (some val) ttlNs now =>
      if val.length > 512 * 1024 then [] else [.insert key (ValueEntry.new val (expiryOf ttlNs now))]
  | .get (some key) (some _) (some _) now accessNow finalNow =>
      match (t.get key now.toUInt64 accessNow.toUInt64).2 with
      | some entry =>
          if entry.expiryNs > 0 ∧ finalNow.toUInt64 ≥ entry.expiryNs then
            [.get key now.toUInt64 accessNow.toUInt64, .remove key]
          else [.get key now.toUInt64 accessNow.toUInt64]
      | none => [.get key now.toUInt64 accessNow.toUInt64]
  | .delete (some key) _ => [.remove key]
  | _ => []

theorem apply_some (h : EngineHandle P) (call : ApiCall) :
    call.apply (some h) = some { h with table := runCalls h.table (call.tableCalls h.table) } := by
  cases call with
  | set key val ttlNs now =>
      cases key <;> cases val <;> try rfl
      rw [ApiCall.apply, engineSet, ApiCall.tableCalls]
      split <;> rfl
  | get key outBuf outLen now accessNow finalNow =>
      cases key <;> cases outBuf <;> cases outLen <;> try rfl
      rw [ApiCall.apply, engineGet, ApiCall.tableCalls]
      rename_i key buf len
      rcases got : h.table.get key now.toUInt64 accessNow.toUInt64 with ⟨t, _ | entry⟩
      · simp only [runCalls, List.foldl_cons, List.foldl_nil, TableCall.apply, got]
      · simp only
        split
        · simp only [runCalls, List.foldl_cons, List.foldl_nil, TableCall.apply, got]
        · split <;> simp only [runCalls, List.foldl_cons, List.foldl_nil, TableCall.apply, got]
  | delete key now => cases key <;> rfl

/-- The calls on the table that a history makes. -/
def tableCallsOf : HashTable P -> List ApiCall -> List TableCall
  | _, [] => []
  | t, call :: calls => call.tableCalls t ++ tableCallsOf (runCalls t (call.tableCalls t)) calls

theorem runApi_some (h : EngineHandle P) (calls : List ApiCall) :
    runApi (some h) calls = some { h with
        table := runCalls h.table (tableCallsOf h.table calls) } := by
  induction calls generalizing h with
  | nil => rfl
  | cons call calls ih =>
      rw [tableCallsOf, runCalls_append]
      refine (congrArg (fun handle => runApi handle calls) (apply_some h call)).trans ?_
      exact ih _

/-! ## The memory limit -/

/-- An `insert` under a short name of some length, with a short value. -/
def TableCall.Modest : TableCall -> Prop
  | .insert key value => key ≠ [] ∧ value.value.length ≤ 512 * 1024
  | _ => True

variable {m : Bytes -> Option TimedEntry} {t : HashTable P} {clock : Clock} {h : EngineHandle P}

theorem ApiCall.modest_tableCalls {call : ApiCall} (named : call.key ≠ some []) :
    forall made, made ∈ call.tableCalls t -> made.Modest := by
  intro made member
  unfold ApiCall.tableCalls at member
  split at member
  · split at member
    · cases member
    · rename_i key val ttlNs now small
      cases List.mem_singleton.mp member
      exact ⟨fun empty => named (congrArg some empty), Nat.not_lt.mp small⟩
  · split at member
    · split at member
      · rcases List.mem_cons.mp member with rfl | last
        · trivial
        · cases List.mem_singleton.mp last
          trivial
      · cases List.mem_singleton.mp member
        trivial
    · cases List.mem_singleton.mp member
      trivial
  · cases List.mem_singleton.mp member
    trivial
  · cases member

theorem modest_tableCallsOf {calls : List ApiCall}
    (named : forall call, call ∈ calls -> call.key ≠ some []) :
    forall made, made ∈ tableCallsOf t calls -> made.Modest := by
  induction calls generalizing t with
  | nil => exact List.forall_mem_nil _
  | cons call calls ih =>
      intro made member
      rcases List.mem_append.mp member with first | later
      · exact ApiCall.modest_tableCalls (named call List.mem_cons_self) made first
      · exact ih (fun other inside => named other (List.mem_cons_of_mem _ inside)) made later

theorem HashTable.WF.storedBytes_remove (wf : t.WF) (key : Bytes) :
    storedBytes (t.remove key).1.entries ≤ storedBytes t.entries := by
  apply (wf.remove key).storedBytes_le
  intro other bound
  rw [view_remove wf] at bound ⊢
  split at bound
  · exact absurd rfl bound
  · rename_i different
    exact if_neg different

/-- What a table has that was never given the empty key or a long value. -/
structure Bounded (t : HashTable P) : Prop where
  wf : t.WF
  ready : t.policy.Ready []
  free : t.view [] = none
  bytes : storedBytes t.entries ≤ t.policy.memoryLimit + 512 * 1024

theorem Bounded.apply (bounded : Bounded t) {call : TableCall} (modest : call.Modest) :
    Bounded (call.apply t) := by
  have wf := bounded.wf
  have limit : (call.apply t).policy.memoryLimit = t.policy.memoryLimit :=
    memoryLimit_runCalls wf [call]
  have ready := ready_apply wf bounded.ready call
  have bytes := bounded.bytes
  cases call with
  | insert key value =>
      have added := wf.storedBytes_insert_le_limit bounded.ready
        (view_eq_none_iff.mp bounded.free) key value
      refine ⟨wf_apply wf _, ready, ?_, ?_⟩
      · refine (view_insert wf key value []).trans ?_
        rw [if_neg modest.1, bounded.free, ite_self]
      · rw [limit]
        exact Nat.le_trans added (Nat.add_le_add_left modest.2 _)
  | get key now accessNow =>
      refine ⟨wf_apply wf _, ready, ((wf.get key now accessNow).2.1 []).trans bounded.free, ?_⟩
      rw [limit]
      exact Nat.le_trans (Nat.le_of_eq (wf.get key now accessNow).2.2.1) bytes
  | remove key =>
      refine ⟨wf_apply wf _, ready, ?_, ?_⟩
      · refine (view_remove wf key []).trans ?_
        rw [bounded.free, ite_self]
      · rw [limit]
        exact Nat.le_trans (wf.storedBytes_remove key) bytes
  | flushWal => exact ⟨wf_apply wf .flushWal, ready, bounded.free, bytes⟩

theorem Bounded.runCalls (bounded : Bounded t) {calls : List TableCall}
    (modest : forall call, call ∈ calls -> call.Modest) : Bounded (runCalls t calls) := by
  induction calls generalizing t with
  | nil => exact bounded
  | cons call calls ih =>
      have first := bounded.apply (modest call List.mem_cons_self)
      exact ih first fun other inside => modest other (List.mem_cons_of_mem _ inside)

theorem bounded_fresh : Bounded (defaultConfig.fresh P none) := by
  refine ⟨defaultConfig.wf_fresh none, defaultConfig.ready_fresh none,
    defaultConfig.view_fresh none [], ?_⟩
  have empty : (defaultConfig.fresh P none).entries = [] := entries_new ..
  rw [empty]
  exact Nat.zero_le _

/-- Calls that store one byte under each of the first names. -/
def fillCalls (count : Nat) : List ApiCall :=
  (List.range count).map fun index => .set (some (List.replicate (index + 1) 0)) (some [0]) 0 0

theorem named_fillCalls (count : Nat) :
    forall call, call ∈ fillCalls count -> call.key ≠ some [] := by
  intro call member
  rcases List.mem_map.mp member with ⟨index, _, rfl⟩
  exact fun empty => List.replicate_succ_ne_nil (Option.some.inj empty)

/-- One byte more under a new name. -/
theorem filled_step (wf : h.table.WF) {count : Nat} (within : count ≤ h.table.policy.memoryLimit)
    (bytes : storedBytes h.table.entries = count)
    (names : forall key, h.table.find key ≠ none -> key.length ≤ count) :
    Exists fun t => (engineSet (some h) (some (List.replicate (count + 1) 0)) (some [0]) 0 0).1 =
        some { h with table := t } ∧ t.WF ∧ t.policy.memoryLimit = h.table.policy.memoryLimit ∧
      storedBytes t.entries = count + 1 ∧ forall key, t.find key ≠ none ->
          key.length ≤ count + 1 := by
  have missing : h.table.find (List.replicate (count + 1) 0) = none := by
    by_contra stored
    have short := names _ stored
    rw [List.length_replicate] at short
    omega
  rcases wf.insert (List.replicate (count + 1) 0) (ValueEntry.new [0] (expiryOf 0 0)) with
    ⟨inserted, find, limit, _⟩
  refine ⟨_, rfl, inserted, limit, ?_, ?_⟩
  · rw [wf.storedBytes_insert_new (bytes ▸ within) missing, bytes, Nat.add_comm]
    rfl
  · intro key stored
    rw [find key, wf.evictIfNeeded_eq (bytes ▸ within)] at stored
    split at stored
    next same =>
      rw [← same, List.length_replicate]
    next => exact Nat.le_succ_of_le (names key stored)

theorem filled (fresh : h.table = defaultConfig.fresh P none) {count : Nat}
    (within : count ≤ defaultConfig.memoryLimit + 1) :
    Exists fun t => runApi (some h) (fillCalls count) = some { h with table := t } ∧ t.WF ∧
      t.policy.memoryLimit = defaultConfig.memoryLimit ∧ storedBytes t.entries = count ∧
      forall key, t.find key ≠ none -> key.length ≤ count := by
  induction count with
  | zero =>
      have empty : h.table.entries = [] := fresh ▸ entries_new ..
      refine ⟨h.table, rfl, fresh ▸ defaultConfig.wf_fresh none,
        fresh ▸ defaultConfig.memoryLimit_fresh none, ?_, ?_⟩
      · rw [empty]
        rfl
      · intro key stored
        rw [HashTable.find, empty] at stored
        exact absurd rfl stored
  | succ count ih =>
      rcases ih (by omega) with ⟨t, ran, wf, limit, bytes, names⟩
      have room : count ≤ t.policy.memoryLimit := limit ▸ Nat.le_of_succ_le_succ within
      rcases filled_step (h := { h with table := t }) wf room bytes names with ⟨next, set, after⟩
      refine ⟨next, ?_, after.1, after.2.1.trans limit, after.2.2⟩
      have longer : fillCalls (count + 1) = fillCalls count ++
          [.set (some (List.replicate (count + 1) 0)) (some [0]) 0 0] := by
        rw [fillCalls, List.range_succ, List.map_append]
        rfl
      rw [longer, runApi, List.foldl_append]
      exact (congrArg (fun handle => runApi handle [_]) ran).trans set

/-- The limit given to `engine_create` is obeyed after every `engine_set` with a
key that is not empty, in all histories of calls with such keys, exactly when it
is at least the default limit of the table. -/
theorem limit_obeyed_iff (P : Platform) (numThreads : Int) (memLimitBytes : Nat)
    (handle : EngineHandle P) (created : engineCreate P numThreads memLimitBytes = some handle) :
    (forall (calls : List ApiCall) (key val : Bytes) (ttlNs : Int64) (now : Clock)
      (after : EngineHandle P),
        (forall call, call ∈ calls -> call.key ≠ some []) -> key ≠ [] ->
        (engineSet (runApi (some handle) calls) (some key) (some val) ttlNs now).1 = some after ->
        storedBytes after.table.entries ≤ memLimitBytes + val.length) <->
      1024 * 1024 * 100 ≤ memLimitBytes := by
  have fresh := table_of_created created
  constructor
  · intro obeyed
    by_contra small
    rcases filled fresh (show memLimitBytes + 1 ≤ defaultConfig.memoryLimit + 1 by
      change _ ≤ 1024 * 1024 * 100 + 1; omega) with ⟨t, ran, wf, limit, bytes, names⟩
    have room : memLimitBytes + 1 ≤ t.policy.memoryLimit := by
      rw [limit]
      exact Nat.not_le.mp small
    rcases filled_step (h := { handle with table := t }) wf room bytes names with
      ⟨next, set, _, _, more, _⟩
    rw [← ran] at set
    have bound := obeyed (fillCalls (memLimitBytes + 1)) _ _ _ _ _ (named_fillCalls _)
      List.replicate_succ_ne_nil set
    have tooMuch : storedBytes next.entries ≤ memLimitBytes + 1 := bound
    omega
  · intro large calls key val ttlNs now after named nonempty set
    have bounded := (bounded_fresh (P := P)).runCalls
      (modest_tableCallsOf (t := defaultConfig.fresh P none) named)
    have limit : (runCalls (defaultConfig.fresh P none)
        (tableCallsOf (defaultConfig.fresh P none) calls)).policy.memoryLimit =
        1024 * 1024 * 100 := (memoryLimit_runCalls (defaultConfig.wf_fresh none) _).trans
          (defaultConfig.memoryLimit_fresh none)
    rw [runApi_some, fresh, engineSet] at set
    simp only at set
    split at set
    next long =>
      -- The value is refused and longer than all the others.
      cases set
      have bytes := bounded.bytes
      rw [limit] at bytes
      change storedBytes (runCalls _ _).entries ≤ _
      omega
    next =>
      cases set
      have bytes := bounded.wf.storedBytes_insert_le_limit bounded.ready
        (view_eq_none_iff.mp bounded.free) key (ValueEntry.new val (expiryOf ttlNs now))
      rw [limit] at bytes
      exact Nat.le_trans bytes (Nat.add_le_add_right large _)

/-- A handle with the default limit obeys it. -/
theorem limit_obeyed_default :
    let handle : EngineHandle Platform.source :=
      ⟨4, 1024 * 1024 * 100, defaultConfig.fresh Platform.source none⟩
    forall (val : Bytes) (after : EngineHandle Platform.source),
      (engineSet (runApi (some handle) [.set (some [97]) (some [49]) 0 0]) (some [98]) (some val) 0
        0).1 = some after ->
        storedBytes after.table.entries ≤ 1024 * 1024 * 100 + val.length := by
  intro handle val after set
  have obeyed := limit_obeyed_iff Platform.source 4 (1024 * 1024 * 100) handle rfl
  refine obeyed.mpr (Nat.le_refl _) _ [98] val 0 0 after ?_ (List.cons_ne_nil _ _) set
  intro call member
  cases List.mem_singleton.mp member
  exact fun empty => List.cons_ne_nil _ _ (Option.some.inj empty)

/-- With a limit of one byte, two values of two bytes stay. -/
theorem limit_ignored :
    ((engineSet (runApi (engineCreate Platform.source 1 1) [.set (some [97]) (some [49, 50]) 0 0])
      (some [98]) (some [51, 52]) 0 0).1.map fun h =>
        decide (1 + [51, 52].length < storedBytes h.table.entries)) = some true := by
  decide +kernel

/-! ## The timed map -/

/-- The arguments of an `engine_set` and its moment: the value, the time to live
and the reading of the clock. -/
abbrev TimedEntry := Bytes × Int64 × Clock

/-- The entry never expires, or it expires later. -/
def Live (clock : Clock) (entry : TimedEntry) : Prop :=
  entry.2.1 ≤ 0 ∨ (clock.val : Int) < entry.2.2.val + entry.2.1.toInt

/-- What the table stores of it. -/
def stored (entry : TimedEntry) : Bytes × UInt64 := (entry.1, expiryOf entry.2.1 entry.2.2)

theorem Clock.toNat_toUInt64 (clock : Clock) : clock.toUInt64.toNat = clock.val := by
  rw [Clock.toUInt64, UInt64.toNat_ofNat']
  exact Nat.mod_eq_of_lt (Nat.lt_trans clock.isLt (by decide))

theorem toNat_toUInt64_of_pos {ttlNs : Int64} (positive : 0 < ttlNs) :
    (ttlNs.toUInt64.toNat : Int) = ttlNs.toInt := by
  have above : (0 : Int64).toInt < ttlNs.toInt := Int64.lt_iff_toInt_lt.mp positive
  change (0 : Int) < ttlNs.toBitVec.toInt at above
  change (ttlNs.toBitVec.toNat : Int) = ttlNs.toBitVec.toInt
  have bound := ttlNs.toBitVec.isLt
  rw [BitVec.toInt_eq_toNat_cond] at above ⊢
  split at above <;> omega

/-- The sum of a reading and a time to live does not wrap around. -/
theorem toNat_expiryOf {ttlNs : Int64} (positive : 0 < ttlNs) (now : Clock) :
    ((expiryOf ttlNs now).toNat : Int) = now.val + ttlNs.toInt := by
  have ttl := toNat_toUInt64_of_pos positive
  have upper : ttlNs.toInt < 2 ^ 63 := ttlNs.toInt_lt
  have reading := now.isLt
  rw [expiryOf, if_pos positive, UInt64.toNat_add, Clock.toNat_toUInt64]
  omega

theorem unexpired_stored_iff {entry : TimedEntry} :
    Unexpired clock.toUInt64 (stored entry) <-> Live clock entry := by
  rcases entry with ⟨value, ttlNs, now⟩
  rw [Unexpired, Live, stored]
  by_cases positive : 0 < ttlNs
  · have moment := toNat_expiryOf positive now
    have above : 0 < ttlNs.toInt := Int64.lt_iff_toInt_lt.mp positive
    have timed : expiryOf ttlNs now ≠ 0 := by
      intro zero
      rw [zero] at moment
      change (0 : Int) = _ at moment
      omega
    rw [or_iff_right timed, or_iff_right (Int64.not_le.mpr positive), UInt64.lt_iff_toNat_lt,
      Clock.toNat_toUInt64, ← moment]
    exact Int.ofNat_lt.symm
  · exact iff_of_true (Or.inl (if_neg positive)) (Or.inl (Int64.not_lt.mp positive))

theorem Live.anti {clock later : Clock} {entry : TimedEntry} (ordered : clock ≤ later)
    (live : Live later entry) :
    Live clock entry := by
  refine live.imp_right fun below => ?_
  have order : clock.val ≤ later.val := ordered
  omega

/-- What a call does to the map of its caller. -/
def ApiCall.change : ApiCall -> Change Bytes TimedEntry
  | .set (some key) (some val) ttlNs now =>
      if val.length > 512 * 1024 then Change.keep else ⟨fun _ => false, some (key, (val, ttlNs, now))⟩
  | .delete (some key) _ => ⟨fun other => decide (key = other), none⟩
  | _ => Change.keep

/-- The call evicts no key. -/
def TableCall.calm (t : HashTable P) : TableCall -> Bool
  | .insert _ _ => t.entries.all fun kv => !decide (t.Evicts kv.key)
  | _ => true

/-- No call of the history evicts a key. -/
def quiet : HashTable P -> List TableCall -> Bool
  | _, [] => true
  | t, call :: calls => call.calm t && quiet (call.apply t) calls

/-- The table holds the entries of the map, up to those that had expired when it
was last asked. -/
def Agrees (t : HashTable P) (m : Bytes -> Option TimedEntry) (clock : Clock) : Prop :=
  forall key, t.view key = (m key).map stored ∨
    t.view key = none ∧ Exists fun entry => m key = some entry ∧ ¬ Live clock entry

variable {key : Bytes}

theorem Agrees.held (agrees : Agrees t m clock) {entry : TimedEntry} (bound : m key = some entry)
    (live : Live clock entry) :
    t.view key = some (stored entry) := by
  rcases agrees key with same | ⟨_, other, binding, expired⟩
  · rw [same, bound]
    rfl
  · rw [bound] at binding
    cases binding
    exact absurd live expired

theorem Agrees.bound (agrees : Agrees t m clock) {image : Bytes × UInt64}
    (held : t.view key = some image) :
    Exists fun entry => m key = some entry ∧ stored entry = image := by
  rcases agrees key with same | ⟨gone, _⟩
  · exact Option.map_eq_some_iff.mp (same.symm.trans held)
  · rw [held] at gone
    cases gone

theorem Agrees.set (wf : t.WF) (agrees : Agrees t m clock) (kept : forall key, ¬ t.Evicts key)
    (key val : Bytes) (ttlNs : Int64) (now : Clock) :
    Agrees (t.insert key (ValueEntry.new val (expiryOf ttlNs now)))
      (Change.apply ⟨fun _ => false, some (key, (val, ttlNs, now))⟩ m) clock := by
  intro other
  rw [view_insert wf]
  simp only [Change.apply]
  by_cases same : key = other
  · rw [if_pos same, if_pos same]
    exact Or.inl rfl
  · rw [if_neg same, if_neg same, if_neg (kept other)]
    exact agrees other

theorem Agrees.delete (wf : t.WF) (agrees : Agrees t m clock) (key : Bytes) :
    Agrees (t.remove key).1 (Change.apply ⟨fun other => decide (key = other), none⟩ m) clock := by
  intro other
  rw [view_remove wf]
  simp only [Change.apply, decide_eq_true_eq]
  by_cases same : key = other
  · rw [if_pos same, if_pos same]
    exact Or.inl rfl
  · rw [if_neg same, if_neg same]
    exact agrees other

theorem Agrees.get (wf : t.WF) (agrees : Agrees t m clock) (key : Bytes) (now accessNow : UInt64) :
    Agrees (t.get key now accessNow).1 m clock := by
  intro other
  rw [(wf.get key now accessNow).2.1 other]
  exact agrees other

/-- The deletion of an entry that has expired does not show. -/
theorem Agrees.expire (wf : t.WF) (agrees : Agrees t m clock) {entry : Bytes × UInt64}
    (held : t.view key = some entry) (expired : ¬ Unexpired clock.toUInt64 entry) :
    Agrees (t.remove key).1 m clock := by
  intro other
  rw [view_remove wf]
  by_cases same : key = other
  · rw [if_pos same]
    subst same
    rcases agrees.bound held with ⟨timed, binding, rfl⟩
    exact Or.inr ⟨rfl, timed, binding, fun live => expired (unexpired_stored_iff.mpr live)⟩
  · rw [if_neg same]
    exact agrees other

/-- The second test of `engine_get`. -/
theorem expired_iff {entry : ValueEntry} :
    (entry.expiryNs > 0 ∧ clock.toUInt64 ≥ entry.expiryNs) <->
      ¬ Unexpired clock.toUInt64 (entry.value, entry.expiryNs) := by
  rw [Unexpired, not_or, UInt64.not_lt, gt_iff_lt, UInt64.pos_iff_ne_zero]

theorem Agrees.read (wf : t.WF) (agrees : Agrees t m clock) (key buf : Bytes) (len : Nat)
    (now accessNow : Clock) {finalNow : Clock} (past : finalNow ≤ clock) :
    Agrees (runCalls t (ApiCall.tableCalls t
      (.get (some key) (some buf) (some len) now accessNow finalNow))) m clock := by
  have read := agrees.get wf key now.toUInt64 accessNow.toUInt64
  have kept := wf.get key now.toUInt64 accessNow.toUInt64
  rw [ApiCall.tableCalls]
  cases found : (t.get key now.toUInt64 accessNow.toUInt64).2 with
  | none => exact read
  | some entry =>
      simp only
      by_cases expired : entry.expiryNs > 0 ∧ finalNow.toUInt64 ≥ entry.expiryNs
      · rw [if_pos expired]
        have held := (get_eq_some_iff wf).mp
          (congrArg (Option.map fun value => (value.value, value.expiryNs)) found)
        refine read.expire kept.1 ((kept.2.1 key).trans held.1) fun unexpired =>
          expired_iff.mp expired ?_
        rw [Unexpired, UInt64.lt_iff_toNat_lt, Clock.toNat_toUInt64] at unexpired ⊢
        exact unexpired.imp_right fun below => Nat.lt_of_le_of_lt past below
      · rw [if_neg expired]
        exact read

theorem Agrees.apply (wf : t.WF) (agrees : Agrees t m clock) {call : ApiCall}
    (past : forall reading, reading ∈ call.readings -> reading ≤ clock)
    (silent : quiet t (call.tableCalls t) = true) :
    Agrees (runCalls t (call.tableCalls t)) (call.change.apply m) clock := by
  cases call with
  | set key val ttlNs now =>
      rcases key with _ | key
      · exact agrees
      rcases val with _ | val
      · exact agrees
      rw [ApiCall.tableCalls] at silent ⊢
      rw [ApiCall.change]
      by_cases long : val.length > 512 * 1024
      · rw [if_pos long, if_pos long]
        exact agrees
      · rw [if_neg long] at silent ⊢
        rw [if_neg long]
        exact agrees.set wf (not_evicts_of_calm (Bool.and_eq_true_iff.mp silent).1) key val ttlNs now
  | get key buf len now accessNow finalNow =>
      rcases key with _ | key
      · exact agrees
      rcases buf with _ | buf
      · exact agrees
      rcases len with _ | len
      · exact agrees
      exact agrees.read wf key buf len now accessNow (past finalNow (by simp [ApiCall.readings]))
  | delete key now =>
      rcases key with _ | key
      · exact agrees
      exact agrees.delete wf key

theorem quiet_append {first second : List TableCall} :
    quiet t (first ++ second) = (quiet t first && quiet (runCalls t first) second) := by
  induction first generalizing t with
  | nil => rfl
  | cons call first ih =>
      rw [List.cons_append, quiet, quiet, ih, Bool.and_assoc]
      rfl

theorem Agrees.runCalls (wf : t.WF) (agrees : Agrees t m clock) {calls : List ApiCall}
    (past : forall reading, reading ∈ calls.flatMap ApiCall.readings -> reading ≤ clock)
    (silent : quiet t (tableCallsOf t calls) = true) :
    Agrees (runCalls t (tableCallsOf t calls))
      ((calls.map ApiCall.change).foldl (fun m change => change.apply m) m) clock := by
  induction calls generalizing t m with
  | nil => exact agrees
  | cons call calls ih =>
      rw [tableCallsOf, quiet_append, Bool.and_eq_true] at silent
      rw [tableCallsOf, runCalls_append, List.map_cons, List.foldl_cons]
      rw [List.flatMap_cons] at past
      have first := agrees.apply wf
        (fun reading inside => past reading (List.mem_append_left _ inside)) silent.1
      exact ih (wf_runCalls wf _) first
        (fun reading inside => past reading (List.mem_append_right _ inside)) silent.2

/-! ## What the calls return -/

/-- The value is copied to the buffer, or its length is told when the buffer is
too small. -/
def GetResult.Returns (result : GetResult P) (value buf : Bytes) (len : Nat) : Prop :=
  result.outLen = some value.length ∧
    if value.length ≤ len then result.code = 0 ∧ result.outBuf = some (value ++ buf.drop value.length)
    else result.code = -2 ∧ result.outBuf = some buf

theorem GetResult.Returns.code_ne {result : GetResult P} {value buf : Bytes} {len : Nat}
    (returns : result.Returns value buf len) : result.code ≠ -1 := by
  have outcome := returns.2
  split at outcome
  · rw [outcome.1]
    decide
  · rw [outcome.1]
    decide

theorem engineGet_found (wf : h.table.WF) {entry : Bytes × UInt64}
    (held : h.table.view key = some entry) {now finalNow : Clock}
    (unexpired : Unexpired now.toUInt64 entry) (stillUnexpired : Unexpired finalNow.toUInt64 entry)
    (buf : Bytes) (len : Nat) (accessNow : Clock) :
    (engineGet (some h) (some key) (some buf) (some len) now accessNow finalNow).Returns
    entry.1 buf len := by
  have got : (h.table.get key now.toUInt64 accessNow.toUInt64).2.map
      (fun value => (value.value, value.expiryNs)) =
      some entry := (get_eq_some_iff wf).mpr ⟨held, unexpired⟩
  rcases Option.map_eq_some_iff.mp got with ⟨value, found, rfl⟩
  have kept : ¬ (value.expiryNs > 0 ∧ finalNow.toUInt64 ≥ value.expiryNs) :=
    fun expired => expired_iff.mp expired stillUnexpired
  have split : h.table.get key now.toUInt64 accessNow.toUInt64 =
      ((h.table.get key now.toUInt64 accessNow.toUInt64).1, some value) := Prod.ext rfl found
  rw [engineGet, split, GetResult.Returns]
  simp only [if_neg kept]
  by_cases fits : value.value.length ≤ len
  · rw [if_neg (Nat.not_lt.mpr fits), if_pos fits]
    exact ⟨rfl, rfl, rfl⟩
  · rw [if_pos (Nat.not_le.mp fits), if_neg fits]
    exact ⟨rfl, rfl, rfl⟩

theorem engineGet_missed (wf : h.table.WF) {now finalNow : Clock}
    (missing : forall entry, h.table.view key = some entry -> Unexpired now.toUInt64 entry ->
      ¬ Unexpired finalNow.toUInt64 entry)
    (buf : Bytes) (len : Nat) (accessNow : Clock) :
    (engineGet (some h) (some key) (some buf) (some len) now accessNow finalNow).code = -1 := by
  rw [engineGet]
  split
  · rfl
  · rename_i t value found
    have held := (get_eq_some_iff wf).mp (congrArg (fun result => result.2.map fun value =>
      (value.value, value.expiryNs)) found)
    have expired := expired_iff.mpr (missing _ held.1 held.2)
    rw [if_pos expired]

theorem engineDelete_eq_zero_iff (wf : h.table.WF) :
    (engineDelete (some h) (some key)).2 = 0 <-> h.table.view key ≠ none := by
  rw [← remove_eq_true_iff wf]
  change (if (h.table.remove key).2 then (0 : Int) else -1) = 0 <-> _
  cases (h.table.remove key).2 <;> decide

/-- The table still holds an entry of the key that has expired. -/
def Lingers (handle : Option (EngineHandle P)) (key : Bytes) (clock : Clock) : Prop :=
  Exists fun h => handle = some h ∧
    Exists fun entry => h.table.view key = some entry ∧ ¬ Unexpired clock.toUInt64 entry

/-- The results of the two calls differ in what lingers. -/
theorem delete_iff_get_iff (wf : h.table.WF) (key buf : Bytes) (len : Nat) (now : Clock) :
    (((engineDelete (some h) (some key)).2 = 0 <->
        (engineGet (some h) (some key) (some buf) (some len) now now now).code ≠ -1) <->
      ¬ Lingers (some h) key now) := by
  rw [engineDelete_eq_zero_iff wf]
  constructor
  · rintro same ⟨other, here, entry, held, expired⟩
    cases here
    refine same.mp (held ▸ Option.some_ne_none _) (engineGet_missed wf ?_ buf len now)
    intro found bound unexpired
    rw [held] at bound
    cases bound
    exact absurd unexpired expired
  · intro clean
    constructor
    · intro bound
      rcases Option.ne_none_iff_exists'.mp bound with ⟨entry, held⟩
      have unexpired : Unexpired now.toUInt64 entry := by
        by_contra expired
        exact clean ⟨h, rfl, entry, held, expired⟩
      exact (engineGet_found wf held unexpired unexpired buf len now).code_ne
    · intro found missing
      apply found
      apply engineGet_missed wf
      intro entry held
      rw [missing] at held
      cases held

theorem engineSet_refused {handle : Option (EngineHandle P)} {key val : Option Bytes}
    {ttlNs : Int64} {now : Clock} (refused : (engineSet handle key val ttlNs now).2 = -2) :
    (engineSet handle key val ttlNs now).1 = handle := by
  unfold engineSet at refused ⊢
  split
  · rename_i small
    split
    · rfl
    · rename_i small
      simp only [if_neg small] at refused
      cases refused
  · rfl

/-- The calls are those of a timed map.  After a history that evicts nothing,
`engine_get` returns the value of the latest `engine_set` of the key exactly when
the key was not deleted since and has not expired.  `engine_delete` tells what
`engine_get` would at the same moment exactly when no expired entry of the key
lingers in the table.  A refused `engine_set` changes nothing. -/
theorem timedMap_semantics (P : Platform) (numThreads : Int) (memLimitBytes : Nat)
    (handle : EngineHandle P) (created : engineCreate P numThreads memLimitBytes = some handle)
    (calls : List ApiCall) (now : Clock)
    (past : forall reading, reading ∈ calls.flatMap ApiCall.readings -> reading ≤ now)
    (silent : quiet handle.table (tableCallsOf handle.table calls) = true) :
    let reached := runApi (some handle) calls
    let changes := calls.map ApiCall.change
    (forall (key buf : Bytes) (len : Nat) (accessNow finalNow : Clock), now ≤ accessNow ->
        accessNow ≤ finalNow ->
        let result := engineGet reached (some key) (some buf) (some len) now accessNow finalNow
        (forall entry, Latest changes key entry -> Live finalNow entry ->
          result.Returns entry.1 buf len) ∧
          ((forall entry, Latest changes key entry -> ¬ Live finalNow entry) -> result.code = -1)) ∧
      (forall (key buf : Bytes) (len : Nat),
        (((engineDelete reached (some key)).2 = 0 <->
            (engineGet reached (some key) (some buf) (some len) now now now).code ≠ -1) <->
          ¬ Lingers reached key now)) ∧
      forall (key val : Option Bytes) (ttlNs : Int64) (clock : Clock),
        (engineSet reached key val ttlNs clock).2 = -2 ->
            (engineSet reached key val ttlNs clock).1 = reached := by
  intro reached changes
  have fresh := table_of_created created
  have wf : handle.table.WF := fresh ▸ defaultConfig.wf_fresh none
  have start : Agrees handle.table (fun _ => none) now := fun key =>
    Or.inl (fresh ▸ defaultConfig.view_fresh none key)
  have agrees := start.runCalls wf past silent
  have same : reached = some { handle with
      table := runCalls handle.table (tableCallsOf handle.table calls) } :=
    runApi_some handle calls
  have reachedWf := wf_runCalls wf (tableCallsOf handle.table calls)
  generalize runCalls handle.table (tableCallsOf handle.table calls) = t at agrees same reachedWf
  rw [same]
  refine ⟨fun key buf len accessNow finalNow first second => ⟨?_, ?_⟩, fun key buf len => ?_, ?_⟩
  · intro entry latest live
    have stillLive := live.anti (le_trans first second)
    have held := agrees.held (after_eq_some_iff.mpr latest) stillLive
    exact engineGet_found reachedWf held (unexpired_stored_iff.mpr stillLive)
      (unexpired_stored_iff.mpr live) buf len accessNow
  · intro missing
    refine engineGet_missed reachedWf ?_ buf len accessNow
    intro image held _ unexpired
    rcases agrees.bound held with ⟨entry, bound, rfl⟩
    exact missing entry (after_eq_some_iff.mp bound) (unexpired_stored_iff.mp unexpired)
  · exact delete_iff_get_iff reachedWf key buf len now
  · exact fun key val ttlNs clock refused => engineSet_refused refused

/-- A value with a time to live of five nanoseconds is found after four. -/
theorem timedMap_semantics_reads :
    (engineGet (runApi (engineCreate Platform.source 1 1) [.set (some [97]) (some [49]) 5 0])
      (some [97]) (some [0, 0]) (some 2) 4 4 4).Returns [49] [0, 0] 2 :=
  (timedMap_semantics Platform.source 1 1 ⟨1, 1, defaultConfig.fresh Platform.source none⟩ rfl
    [.set (some [97]) (some [49]) 5 0] 4
    (fun _ inside => List.mem_singleton.mp inside ▸ Fin.zero_le _)
    (by decide +kernel)).1 [97] [0, 0] 2 4 4 (by decide) (by decide)
    |>.1 ([49], 5, 0) ⟨[], _, [], rfl, rfl, List.forall_mem_nil _⟩ (Or.inr (by decide))

/-- After ten nanoseconds `engine_delete` finds what `engine_get` does not. -/
theorem delete_finds_expired :
    let reached := runApi (engineCreate Platform.source 1 1) [.set (some [97]) (some [49]) 5 0]
    (engineDelete reached (some [97])).2 = 0 ∧
      (engineGet reached (some [97]) (some [0, 0]) (some 2) 10 10 10).code = -1 := by
  decide +kernel

end Engine
end KVStore
