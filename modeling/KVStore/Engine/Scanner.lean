import KVStore.Engine.Recovery
import KVStore.Library.Runs

namespace KVStore
namespace Engine

open Framing Keyed HashTable Bindings

variable {P : Platform}

/-!
# The scanner of expired keys

`start_ttl_scanner` starts a thread that calls `scan_expired_keys` again and
again: it walks the chains of twenty random buckets, notes the keys that have
expired, and then removes the noted keys.  The thread takes no lock.  Here a walk
along one chain and one `remove` are steps, and the calls of the owner of the
table may come between any two of them; what is finer than that is a data race.

What the scanner notes has expired and stays expired, so that nobody misses it.
But a key that the owner inserts again after it was noted is removed all the same.
The results say that this is the only way in which the scanner can be noticed: it
goes unnoticed exactly as long as it does not remove a key that was written since
it was noted and has not expired.
-/

/-! ## One scan -/

/-- `SAMPLE_SIZE`. -/
def sampleSize : Nat := 20

/-- The later of two readings of the clock. -/
def later (first second : UInt64) : UInt64 := if first ≤ second then second else first

theorem le_later (first second : UInt64) :
    first ≤ later first second ∧ second ≤ later first second := by
  unfold later
  split
  next order => exact ⟨order, UInt64.le_refl second⟩
  next reversed => exact ⟨UInt64.le_refl first, UInt64.le_of_lt (UInt64.not_le.mp reversed)⟩

/-- The keys that a walk along a chain finds expired.  The clock is read for each
entry. -/
def expiredIn (chain : Chain) (reading : Bytes -> UInt64) : List Bytes :=
  (chain.filter fun kv => isExpired kv.value (reading kv.key)).map KeyValuePair.key

/-- The last reading of a walk along a chain. -/
def lastReading (chain : Chain) (reading : Bytes -> UInt64) (clock : UInt64) : UInt64 :=
  chain.foldl (fun clock kv => later clock (reading kv.key)) clock

theorem le_lastReading (chain : Chain) (reading : Bytes -> UInt64) (clock : UInt64) :
    clock ≤ lastReading chain reading clock ∧
      forall kv, kv ∈ chain -> reading kv.key ≤ lastReading chain reading clock := by
  induction chain generalizing clock with
  | nil => exact ⟨UInt64.le_refl clock, List.forall_mem_nil _⟩
  | cons first chain ih =>
      rcases ih (later clock (reading first.key)) with ⟨grows, above⟩
      have both := le_later clock (reading first.key)
      refine ⟨UInt64.le_trans both.1 grows,
        List.forall_mem_cons.mpr ⟨UInt64.le_trans both.2 grows, above⟩⟩

/-- The bucket of an index. -/
def HashTable.bucketAt (t : HashTable P) (index : Nat) : Chain := t.buckets.getD index []

variable {t : HashTable P} {key : Bytes}

/-- A walk finds the entries of the bucket that have expired. -/
theorem mem_expiredIn (wf : t.WF) {index : Nat} {reading : Bytes -> UInt64} :
    key ∈ expiredIn (t.bucketAt index) reading <->
      index = t.bucketIdx key ∧ Exists fun kv => t.find key = some kv ∧
          isExpired kv.value (reading key) = true := by
  simp only [expiredIn, List.mem_map, List.mem_filter]
  constructor
  · rintro ⟨kv, ⟨inBucket, expired⟩, rfl⟩
    have inside : index < t.buckets.length := by
      by_contra outside
      rw [bucketAt, List.getD_eq_getElem?_getD,
        List.getElem?_eq_none (Nat.not_lt.mp outside)] at inBucket
      exact List.not_mem_nil inBucket
    have member : kv ∈ t.entries := by
      refine List.mem_flatten.mpr ⟨t.bucketAt index, ?_, inBucket⟩
      rw [bucketAt, List.getD_eq_getElem?_getD, List.getElem?_eq_getElem inside]
      exact List.getElem_mem inside
    exact ⟨(wf.placed index kv inBucket).2, kv,
      (find_eq_some_iff wf.distinct).mpr ⟨member, rfl⟩, expired⟩
  · rintro ⟨rfl, kv, found, expired⟩
    rcases (find_eq_some_iff wf.distinct).mp found with ⟨member, rfl⟩
    refine ⟨kv, ⟨?_, expired⟩, rfl⟩
    rcases List.mem_flatten.mp member with ⟨bucket, inBuckets, inBucket⟩
    rcases List.mem_iff_getElem?.mp inBuckets with ⟨index, there⟩
    have here : kv ∈ t.buckets.getD index [] := by
      rw [List.getD_eq_getElem?_getD, there]
      exact inBucket
    rw [← (wf.placed index kv here).2]
    exact here

/-- The keys found in the sampled buckets.  A bucket that is sampled twice is
walked twice. -/
def HashTable.expiredKeys (t : HashTable P) (samples : List (Nat × (Bytes -> UInt64))) :
    List Bytes :=
  samples.flatMap fun sample => expiredIn (t.bucketAt sample.1) sample.2

/-- `scan_expired_keys` without any call in between. -/
def HashTable.scanExpiredKeys (t : HashTable P) (samples : List (Nat × (Bytes -> UInt64))) :
    HashTable P :=
  (t.expiredKeys samples).foldl (fun t key => (t.remove key).1) t

/-- Several keys are removed, one after the other. -/
theorem removeAll (wf : t.WF) (keys : List Bytes) :
    (keys.foldl (fun t key => (t.remove key).1) t).WF ∧
      (forall key, (keys.foldl (fun t key => (t.remove key).1) t).find key = if key ∈ keys then none
        else t.find key) ∧
      (keys.foldl (fun t key => (t.remove key).1) t).walWriter =
        t.walWriter.map fun w => w.appendAll (keys.map deleteRecord) := by
  induction keys generalizing t with
  | nil =>
      refine ⟨wf, fun key => ?_, ?_⟩
      · rw [if_neg List.not_mem_nil]
        rfl
      · exact (Option.map_id' (x := t.walWriter)).symm
  | cons first keys ih =>
      rcases ih (wf.remove first) with ⟨removed, find, writer⟩
      refine ⟨removed, fun key => ?_, ?_⟩
      · refine (find key).trans ?_
        rw [wf.find_remove]
        exact ite_mem_cons _
      · refine writer.trans ?_
        rw [wf.walWriter_remove, Option.map_map]
        rfl

/-! ## The thread of the scanner and the owner of the table -/

/-- How far the thread is. -/
inductive Scan where
  | asleep
  | sampling (range : Nat) (left : Nat) (expiredKeys : List Bytes)
  | removing (expiredKeys : List Bytes)

/-- The keys that are noted and not yet removed. -/
def Scan.noted : Scan -> List Bytes
  | .asleep => []
  | .sampling _ _ expiredKeys => expiredKeys
  | .removing expiredKeys => expiredKeys

/-- A table with its scanner.  `thread` is none as long as no thread was started
or the thread was joined.  The other fields are a history: the last reading of the
scanner, the table that the calls of the owner alone would have left, and the keys
that the owner has inserted since they were noted. -/
structure Scanned (P : Platform) where
  table : HashTable P
  thread : Option Scan
  clock : UInt64
  alone : HashTable P
  rewritten : List Bytes

inductive ScanEvent where
  | call (call : TableCall)
  | startTtlScanner
  | stopTtlScanner
  | beginScan
  | sample (index : Nat) (reading : Bytes -> UInt64)
  | removeNext

namespace Scanned

def noted (s : Scanned P) : List Bytes := (s.thread.map Scan.noted).getD []

/-- The noted keys that a call inserts. -/
def rewrites (s : Scanned P) : TableCall -> List Bytes
  | .insert key _ => if s.noted.contains key then [key] else []
  | _ => []

/-- One step.  A second thread replaces the first one, which is still joinable, and
this ends the program.  An event that cannot happen changes nothing: the scanner
samples inside the range that it took when the scan began, and `stop_ttl_scanner`
waits for the end of a scan. -/
def step (s : Scanned P) : ScanEvent -> Option (Scanned P)
  | .call call =>
      some { s with
        table := call.apply s.table
        alone := call.apply s.alone
        rewritten := s.rewritten ++ s.rewrites call }
  | .startTtlScanner =>
      match s.thread with
      | none => some { s with thread := some .asleep }
      | some _ => none
  | .stopTtlScanner =>
      match s.thread with
      | some .asleep => some { s with thread := none }
      | _ => some s
  | .beginScan =>
      match s.thread with
      | some .asleep =>
          some { s with thread := some (.sampling s.table.buckets.length sampleSize []), rewritten := [] }
      | _ => some s
  | .sample index reading =>
      match s.thread with
      | some (.sampling range (left + 1) expiredKeys) =>
          if index < range then
            some { s with
              thread := some (.sampling range left
                (expiredKeys ++ expiredIn (s.table.bucketAt index) reading))
              clock := lastReading (s.table.bucketAt index) reading s.clock }
          else some s
      | _ => some s
  | .removeNext =>
      match s.thread with
      | some (.sampling _ 0 expiredKeys) => some { s with thread := some (.removing expiredKeys) }
      | some (.removing []) => some { s with thread := some .asleep }
      | some (.removing (key :: keys)) =>
          some { s with table := (s.table.remove key).1, thread := some (.removing keys) }
      | _ => some s

def init (t : HashTable P) : Scanned P := ⟨t, none, 0, t, []⟩

def run (t : HashTable P) (events : List ScanEvent) : Option (Scanned P) :=
  events.foldlM step (init t)

/-- The key is bound and has not expired by the last reading of the scanner. -/
def Live (s : Scanned P) (key : Bytes) : Prop :=
  Exists fun entry => s.table.view key = some entry ∧ Unexpired s.clock entry

/-- From now on `get` returns the value and the expiry time that it would return
if there were no scanner. -/
def Unnoticed (s : Scanned P) : Prop :=
  forall key now accessNow, s.clock ≤ now ->
    (s.table.get key now accessNow).2.map (fun value => (value.value, value.expiryNs)) =
      (s.alone.get key now accessNow).2.map (fun value => (value.value, value.expiryNs))

/-! ## What every run keeps -/

variable {entry : Bytes × UInt64}

theorem unexpired_of_le {first second : UInt64} (order : first ≤ second)
    (unexpired : Unexpired second entry) : Unexpired first entry :=
  unexpired.imp_right fun below => UInt64.lt_of_le_of_lt order below

/-- The table holds nothing that the calls alone would not have left, and a noted
key is one that the owner has inserted since, or it is not live. -/
structure Tidy (s : Scanned P) : Prop where
  wf : s.table.WF
  aloneWF : s.alone.WF
  limit : s.table.policy.memoryLimit = s.alone.policy.memoryLimit
  below : forall key entry, s.table.view key = some entry -> s.alone.view key = some entry
  noted : forall key, key ∈ s.noted -> key ∈ s.rewritten ∨ ¬ s.Live key

theorem tidy_init (wf : t.WF) : Tidy (init t) :=
  ⟨wf, wf, rfl, fun _ _ bound => bound, fun _ inside => nomatch inside⟩

/-- Steps that do not touch the table keep what is not live. -/
theorem Tidy.of_same {s t : Scanned P} (tidy : Tidy s) (table : t.table = s.table)
    (alone : t.alone = s.alone)
    (noted : forall key, key ∈ t.noted -> key ∈ t.rewritten ∨ ¬ t.Live key) : Tidy t := by
  refine ⟨table ▸ tidy.wf, alone ▸ tidy.aloneWF, ?_, ?_, noted⟩
  · rw [table, alone]
    exact tidy.limit
  · rw [table, alone]
    exact tidy.below

variable {s : Scanned P}

/-- The table is within the limit when the calls alone would have kept it there. -/
theorem Tidy.within (tidy : Tidy s)
    (within : storedBytes s.alone.entries ≤ s.alone.policy.memoryLimit) :
    storedBytes s.table.entries ≤ s.table.policy.memoryLimit := by
  rw [tidy.limit]
  refine Nat.le_trans (tidy.wf.storedBytes_le fun key bound => ?_) within
  rcases Option.ne_none_iff_exists'.mp bound with ⟨entry, bound⟩
  rw [bound, tidy.below key entry bound]

/-- A call within the limit does the same to both tables. -/
theorem view_of_called_both {t other : HashTable P} (wf : t.WF) (otherWF : other.WF)
    (within : storedBytes t.entries ≤ t.policy.memoryLimit)
    (otherWithin : storedBytes other.entries ≤ other.policy.memoryLimit) {call : TableCall}
    (before : t.view key = some entry -> other.view key = some entry)
    (bound : (call.apply t).view key = some entry) : (call.apply other).view key = some entry := by
  have alone : forall {t : HashTable P}, storedBytes t.entries ≤ t.policy.memoryLimit ->
      CalmRun t [call] := by
    intro t within count inside
    cases Nat.lt_one_iff.mp inside
    exact within
  have first := view_runCalls_calm wf (alone within) key
  have second := view_runCalls_calm otherWF (alone otherWithin) key
  refine second.trans ?_
  replace bound := first.symm.trans bound
  cases written : lastEffect (recordsOf [call]) key with
  | some effect =>
      rw [written] at bound
      exact bound
  | none =>
      rw [written] at bound
      exact before bound

theorem view_of_removed (wf : t.WF) {removed key : Bytes}
    (bound : (t.remove removed).1.view key = some entry) : t.view key = some entry := by
  rw [view_remove wf] at bound
  split at bound
  · cases bound
  · exact bound

/-- A call binds the key that it inserts and no other. -/
theorem view_of_called (wf : t.WF) {call : TableCall}
    (bound : (call.apply t).view key = some entry) :
    t.view key = some entry ∨ Exists fun value => call = .insert key value := by
  cases call with
  | insert written value =>
      rcases eq_or_ne written key with rfl | different
      · exact Or.inr ⟨value, rfl⟩
      · rw [TableCall.apply, view_insert wf, if_neg different] at bound
        split at bound
        · cases bound
        · exact Or.inl bound
  | get read now accessNow => exact Or.inl (((wf.get read now accessNow).2.1 key).symm.trans bound)
  | remove removed => exact Or.inl (view_of_removed wf bound)
  | flushWal => exact Or.inl bound

theorem Tidy.called (tidy : Tidy s)
    (within : storedBytes s.alone.entries ≤ s.alone.policy.memoryLimit) (call : TableCall) :
    Tidy { s with
      table := call.apply s.table
      alone := call.apply s.alone
      rewritten := s.rewritten ++ s.rewrites call } := by
  refine ⟨wf_apply tidy.wf call, wf_apply tidy.aloneWF call, ?_, fun key entry bound => ?_,
    fun key inside => ?_⟩
  · exact (memoryLimit_runCalls tidy.wf [call]).trans
      (tidy.limit.trans (memoryLimit_runCalls tidy.aloneWF [call]).symm)
  · exact view_of_called_both tidy.wf tidy.aloneWF (tidy.within within) within
      (tidy.below key entry) bound
  · change key ∈ s.noted at inside
    by_cases writes : Exists fun value => call = .insert key value
    · rcases writes with ⟨value, rfl⟩
      refine Or.inl (List.mem_append_right _ ?_)
      rw [rewrites, if_pos (List.contains_iff_mem.mpr inside)]
      exact List.mem_singleton_self key
    · rcases tidy.noted key inside with before | dead
      · exact Or.inl (List.mem_append_left _ before)
      · refine Or.inr ?_
        rintro ⟨entry, bound, unexpired⟩
        exact dead ⟨entry, (view_of_called tidy.wf bound).resolve_right writes, unexpired⟩

theorem Tidy.sampled (tidy : Tidy s) {range left : Nat} {expiredKeys : List Bytes}
    (thread : s.thread = some (.sampling range (left + 1) expiredKeys)) (index : Nat)
    (reading : Bytes -> UInt64) :
    Tidy { s with
      thread := some (.sampling range left
        (expiredKeys ++ expiredIn (s.table.bucketAt index) reading))
      clock := lastReading (s.table.bucketAt index) reading s.clock } := by
  rcases le_lastReading (s.table.bucketAt index) reading s.clock with ⟨grows, above⟩
  refine tidy.of_same rfl rfl fun key inside => ?_
  rcases List.mem_append.mp inside with before | found
  · have noted : key ∈ s.noted := by
      rw [Scanned.noted, thread]
      exact before
    refine (tidy.noted key noted).imp_right fun dead => ?_
    rintro ⟨entry, bound, unexpired⟩
    exact dead ⟨entry, bound, unexpired_of_le grows unexpired⟩
  · -- The entry that was found has expired by then.
    refine Or.inr ?_
    rintro ⟨entry, bound, unexpired⟩
    rcases List.mem_map.mp found with ⟨member, isFound, sameKey⟩
    have seen := above member (List.mem_of_mem_filter isFound)
    rcases (mem_expiredIn tidy.wf).mp found with ⟨_, kv, stored, expired⟩
    have view : s.table.view key = some (kv.value.value, kv.value.expiryNs) :=
      congrArg (Option.map _) stored
    cases view.symm.trans bound
    rw [sameKey] at seen
    have fresh := isExpired_eq_false_iff.mpr (unexpired_of_le seen unexpired)
    cases fresh.symm.trans expired

theorem Tidy.removed (tidy : Tidy s) {keys : List Bytes}
    (thread : s.thread = some (.removing (key :: keys))) :
    Tidy { s with table := (s.table.remove key).1, thread := some (.removing keys) } := by
  refine ⟨tidy.wf.remove key, tidy.aloneWF, ?_, fun other entry bound => ?_, fun other inside => ?_⟩
  · exact (tidy.wf.memoryLimit_remove key).trans tidy.limit
  · exact tidy.below other entry (view_of_removed tidy.wf bound)
  · have noted : other ∈ s.noted := by
      rw [Scanned.noted, thread]
      exact List.mem_cons_of_mem key inside
    refine (tidy.noted other noted).imp_right fun dead => ?_
    rintro ⟨entry, bound, unexpired⟩
    exact dead ⟨entry, view_of_removed tidy.wf bound, unexpired⟩

/-- What a step can do. -/
inductive Stepped (s : Scanned P) : ScanEvent -> Scanned P -> Prop where
  | called (call : TableCall) :
      Stepped s (.call call) { s with
        table := call.apply s.table
        alone := call.apply s.alone
        rewritten := s.rewritten ++ s.rewrites call }
  | sampled {range left : Nat} {expiredKeys : List Bytes} {index : Nat} {reading : Bytes -> UInt64}
      (thread : s.thread = some (.sampling range (left + 1) expiredKeys)) (inside : index < range) :
      Stepped s (.sample index reading) { s with
        thread := some (.sampling range left
          (expiredKeys ++ expiredIn (s.table.bucketAt index) reading))
        clock := lastReading (s.table.bucketAt index) reading s.clock }
  | removed {key : Bytes} {keys : List Bytes} (thread : s.thread = some (.removing (key :: keys))) :
      Stepped s .removeNext { s with
        table := (s.table.remove key).1, thread := some (.removing keys) }
  | quiet {event : ScanEvent} {t : Scanned P} (table : t.table = s.table) (alone : t.alone = s.alone)
      (clock : t.clock = s.clock) (noted : t.noted = [] ∨ t.noted = s.noted ∧
        t.rewritten = s.rewritten)
      (calm : event = .removeNext -> forall key keys, s.thread ≠ some (.removing (key :: keys))) :
        Stepped s event t

theorem stepped_of_step {s t : Scanned P} {event : ScanEvent} (steps : step s event = some t) :
    Stepped s event t := by
  cases event with
  | call call =>
      cases steps
      exact .called call
  | startTtlScanner =>
      simp only [step] at steps
      split at steps
      · cases steps
        exact .quiet rfl rfl rfl (Or.inl rfl) (fun never => nomatch never)
      · cases steps
  | stopTtlScanner =>
      simp only [step] at steps
      split at steps <;> cases steps
      · exact .quiet rfl rfl rfl (Or.inl rfl) (fun never => nomatch never)
      · exact .quiet rfl rfl rfl (Or.inr ⟨rfl, rfl⟩) (fun never => nomatch never)
  | beginScan =>
      simp only [step] at steps
      split at steps <;> cases steps
      · exact .quiet rfl rfl rfl (Or.inl rfl) (fun never => nomatch never)
      · exact .quiet rfl rfl rfl (Or.inr ⟨rfl, rfl⟩) (fun never => nomatch never)
  | sample index reading =>
      simp only [step] at steps
      split at steps
      next range left expiredKeys thread =>
        split at steps <;> cases steps
        next inside => exact .sampled thread inside
        next outside => exact .quiet rfl rfl rfl (Or.inr ⟨rfl, rfl⟩) (fun never => nomatch never)
      · cases steps
        exact .quiet rfl rfl rfl (Or.inr ⟨rfl, rfl⟩) (fun never => nomatch never)
  | removeNext =>
      simp only [step] at steps
      split at steps <;> cases steps
      next range expiredKeys thread =>
        refine .quiet rfl rfl rfl (Or.inr ⟨?_, rfl⟩) ?_
        · simp only [Scanned.noted, thread]
          rfl
        · intro _ key keys removing
          cases thread.symm.trans removing
      next thread =>
        refine .quiet rfl rfl rfl (Or.inl rfl) ?_
        intro _ key keys removing
        cases thread.symm.trans removing
      next key keys thread => exact .removed thread
      next other =>
        refine .quiet rfl rfl rfl (Or.inr ⟨rfl, rfl⟩) ?_
        intro _ key keys removing
        exact other key keys removing

theorem Tidy.step {s t : Scanned P} {event : ScanEvent} (tidy : Tidy s)
    (within : storedBytes s.alone.entries ≤ s.alone.policy.memoryLimit)
    (stepped : Stepped s event t) : Tidy t := by
  cases stepped with
  | called call => exact tidy.called within call
  | sampled thread inside => exact tidy.sampled thread _ _
  | removed thread => exact tidy.removed thread
  | quiet table alone clock noted calm =>
      refine tidy.of_same table alone fun key inside => ?_
      rcases noted with none | ⟨same, rewritten⟩
      · rw [none] at inside
        cases inside
      · rw [same] at inside
        rw [rewritten, Live, table, clock]
        exact tidy.noted key inside

/-! ## When the scanner goes unnoticed -/

/-- Nothing that has not expired is missing from the table. -/
theorem Tidy.unnoticed_iff (tidy : Tidy s) :
    s.Unnoticed <-> forall key entry, s.alone.view key = some entry -> Unexpired s.clock entry ->
      s.table.view key = some entry := by
  constructor
  · intro unnoticed key entry bound unexpired
    have got := (unnoticed key s.clock 0 (UInt64.le_refl _)).trans
      ((get_eq_some_iff tidy.aloneWF).mpr ⟨bound, unexpired⟩)
    exact ((get_eq_some_iff tidy.wf).mp got).1
  · intro complete key now accessNow order
    ext entry
    rw [get_eq_some_iff tidy.wf, get_eq_some_iff tidy.aloneWF]
    constructor
    · exact fun held => ⟨tidy.below key entry held.1, held.2⟩
    · exact fun held => ⟨complete key entry held.1 (unexpired_of_le order held.2), held.2⟩

theorem unnoticed_called (tidy : Tidy s)
    (within : storedBytes s.alone.entries ≤ s.alone.policy.memoryLimit) (unnoticed : s.Unnoticed)
    (call : TableCall) :
    Unnoticed { s with
      table := call.apply s.table
      alone := call.apply s.alone
      rewritten := s.rewritten ++ s.rewrites call } := by
  rw [(tidy.called within call).unnoticed_iff]
  intro key entry bound unexpired
  exact view_of_called_both tidy.aloneWF tidy.wf within (tidy.within within)
    (fun before => tidy.unnoticed_iff.mp unnoticed key entry before unexpired) bound

theorem unnoticed_removed_iff (tidy : Tidy s) (unnoticed : s.Unnoticed) {keys : List Bytes}
    (thread : s.thread = some (.removing (key :: keys))) :
    Unnoticed { s with table := (s.table.remove key).1, thread := some (.removing keys) } <->
      (key ∈ s.rewritten -> ¬ s.Live key) := by
  have noted : key ∈ s.rewritten ∨ ¬ s.Live key := by
    refine tidy.noted key ?_
    rw [Scanned.noted, thread]
    exact List.mem_cons_self
  rw [(tidy.removed thread).unnoticed_iff]
  constructor
  · rintro complete _ ⟨entry, bound, unexpired⟩
    have still : (s.table.remove key).1.view key = some entry :=
      complete key entry (tidy.below key entry bound) unexpired
    rw [view_remove tidy.wf, if_pos rfl] at still
    cases still
  · intro careful other entry bound unexpired
    have before := tidy.unnoticed_iff.mp unnoticed other entry bound unexpired
    change (s.table.remove key).1.view other = some entry
    rw [view_remove tidy.wf, if_neg]
    · exact before
    · rintro rfl
      exact noted.elim careful id ⟨entry, before, unexpired⟩

/-- One step of a run that was unnoticed so far. -/
theorem unnoticed_step_iff {s t : Scanned P} {event : ScanEvent} (tidy : Tidy s)
    (within : storedBytes s.alone.entries ≤ s.alone.policy.memoryLimit) (unnoticed : s.Unnoticed)
    (stepped : Stepped s event t) :
    t.Unnoticed <-> (event = .removeNext ->
      forall key keys, s.thread = some (.removing (key :: keys)) ->
      key ∈ s.rewritten -> ¬ s.Live key) := by
  have later := tidy.step within stepped
  cases stepped with
  | called call =>
      exact iff_of_true (unnoticed_called tidy within unnoticed call) (fun never => nomatch never)
  | @sampled range left expiredKeys index reading thread inside =>
      refine iff_of_true (later.unnoticed_iff.mpr fun key entry bound unexpired => ?_)
        (fun never => nomatch never)
      have grows := (le_lastReading (s.table.bucketAt index) reading s.clock).1
      exact tidy.unnoticed_iff.mp unnoticed key entry bound (unexpired_of_le grows unexpired)
  | @removed key keys thread =>
      rw [unnoticed_removed_iff tidy unnoticed thread]
      constructor
      · intro careful _ other rest same
        cases thread.symm.trans same
        exact careful
      · exact fun careful => careful rfl key keys thread
  | quiet table alone clock noted calm =>
      refine iff_of_true ?_ (fun happens key keys thread => absurd thread (calm happens key keys))
      rw [later.unnoticed_iff, table, alone, clock]
      exact tidy.unnoticed_iff.mp unnoticed

theorem run_snoc (t : HashTable P) (events : List ScanEvent) (event : ScanEvent) :
    run t (events ++ [event]) = (run t events).bind fun s => step s event := by
  simp only [run, List.foldlM_append, List.foldlM_cons, List.foldlM_nil, bind_pure]
  rfl

/-- The table in every state of a run is well formed, and the one without the
scanner has the limit. -/
theorem wf_run (config : TableConfig) (walFile : Option Bytes) (events : List ScanEvent)
    (reached : run (config.fresh P walFile) events = some s) :
    s.table.WF ∧ s.alone.WF ∧ s.alone.policy.memoryLimit = config.memoryLimit := by
  induction events using List.reverseRecOn generalizing s with
  | nil =>
      cases reached
      exact ⟨config.wf_fresh walFile, config.wf_fresh walFile, config.memoryLimit_fresh walFile⟩
  | append_singleton events event ih =>
      rw [run_snoc, Option.bind_eq_some_iff] at reached
      rcases reached with ⟨before, isBefore, steps⟩
      rcases ih isBefore with ⟨wf, aloneWF, limit⟩
      cases stepped_of_step steps with
      | called call =>
          exact ⟨wf_apply wf call, wf_apply aloneWF call,
            (memoryLimit_runCalls aloneWF [call]).trans limit⟩
      | sampled thread inside => exact ⟨wf, aloneWF, limit⟩
      | removed thread => exact ⟨wf.remove _, aloneWF, limit⟩
      | quiet table alone clock noted calm => exact ⟨table ▸ wf, alone ▸ aloneWF, alone ▸ limit⟩

/-- The calls of the owner alone keep the table within its limit, at each moment. -/
def StaysWithin (config : TableConfig) (P : Platform) (walFile : Option Bytes)
    (events : List ScanEvent) : Prop :=
  forall front, front <+: events ->
    forall s : Scanned P, run (config.fresh P walFile) front = some s ->
    storedBytes s.alone.entries ≤ config.memoryLimit

theorem tidy_run {config : TableConfig} {walFile : Option Bytes} {events : List ScanEvent}
    (within : StaysWithin config P walFile events)
    (reached : run (config.fresh P walFile) events = some s) : Tidy s := by
  induction events using List.reverseRecOn generalizing s with
  | nil =>
      cases reached
      exact tidy_init (config.wf_fresh walFile)
  | append_singleton events event ih =>
      rw [run_snoc, Option.bind_eq_some_iff] at reached
      rcases reached with ⟨before, isBefore, steps⟩
      have earlier : StaysWithin config P walFile events := fun front inside =>
        within front (inside.trans (List.prefix_append _ _))
      refine (ih earlier isBefore).step ?_ (stepped_of_step steps)
      rw [(wf_run config walFile events isBefore).2.2]
      exact earlier events List.prefix_rfl before isBefore

/-- In every interleaving of the calls of the owner with the steps of the scanner,
`get` returns at every moment what it would return without the scanner, exactly
when the scanner never removes a key that the owner has inserted since the scanner
noted it and that has not expired. -/
theorem scanner_unnoticed_iff (config : TableConfig) (P : Platform) (walFile : Option Bytes)
    (events : List ScanEvent) (within : StaysWithin config P walFile events) :
    (forall moment, moment ≤ events.length ->
        forall s, run (config.fresh P walFile) (events.take moment) = some s -> s.Unnoticed) <->
      forall moment event, events[moment]? = some event -> event = .removeNext ->
        forall s key keys, run (config.fresh P walFile) (events.take moment) = some s ->
          s.thread = some (.removing (key :: keys)) -> key ∈ s.rewritten -> ¬ s.Live key := by
  let table := config.fresh P walFile
  have decided := @Runs.forall_take_iff ScanEvent
    (fun front => front <+: events -> forall s, run table front = some s -> s.Unnoticed)
    (fun front event => front ++ [event] <+: events -> event = .removeNext -> forall s key keys,
      run table front = some s -> s.thread = some (.removing (key :: keys)) ->
        key ∈ s.rewritten -> ¬ s.Live key)
    ?_ ?_ events
  · refine Iff.trans ?_ (decided.trans ?_)
    · refine forall_congr' fun count => imp_congr_right fun _ => ?_
      exact ⟨fun unnoticed _ => unnoticed, fun unnoticed => unnoticed (List.take_prefix count events)⟩
    · refine forall_congr' fun count => forall_congr' fun event => imp_congr_right fun present =>
        forall_prop_of_true ?_
      have next : events.take count ++ [event] = events.take (count + 1) := by
        rw [List.take_add_one, present]
        rfl
      exact next ▸ List.take_prefix _ events
  · intro _ s start
    cases start
    exact fun _ _ _ _ => rfl
  · intro front event unnoticed
    refine imp_congr_ctx Iff.rfl fun inside => ?_
    have before : front <+: events := (List.prefix_append _ _).trans inside
    have calm : StaysWithin config P walFile front :=
      fun first part => within first (part.trans before)
    cases reached : run table front with
    | none =>
        refine iff_of_true (fun s after => ?_) (fun _ s key keys impossible => nomatch impossible)
        rw [run_snoc, reached] at after
        cases after
    | some s =>
        have here : storedBytes s.alone.entries ≤ s.alone.policy.memoryLimit := by
          rw [(wf_run config walFile front reached).2.2]
          exact within front before s reached
        have onward := fun t (stepped : Stepped s event t) =>
          unnoticed_step_iff (tidy_run calm reached) here (unnoticed before s reached) stepped
        cases steps : step s event with
        | none =>
            refine iff_of_true (fun t after => ?_) ?_
            · rw [run_snoc, reached, Option.bind_some, steps] at after
              cases after
            · -- The program is only ended by starting a second thread.
              rintro rfl
              simp only [step] at steps
              split at steps <;> cases steps
        | some t =>
            have next : run table (front ++ [event]) = some t := by
              rw [run_snoc, reached, Option.bind_some, steps]
            rw [next]
            constructor
            · intro holds happens other key keys same
              cases same
              exact (onward t (stepped_of_step steps)).mp (holds t rfl) happens key keys
            · intro careful other same
              cases same
              exact (onward t (stepped_of_step steps)).mpr fun happens key keys =>
                careful happens s key keys rfl

/-- A key that expires at 5 is noted at 100 and then inserted anew. -/
def rewriteNoted : List ScanEvent :=
  [.call (.insert [107] ⟨[118], 0, 0, 5⟩), .call (.insert [106] ⟨[118], 0, 0, 0⟩),
    .startTtlScanner, .beginScan, .sample 0 (fun _ => 100), .sample 1 (fun _ => 100),
      .call (.insert [107] ⟨[119], 0, 0, 0⟩)]

/-- As long as the scanner has not come to remove the key, nobody notices it. -/
theorem scanner_unnoticed_rewriteNoted :
    StaysWithin ⟨2, 1000, .lru⟩ Platform.source none rewriteNoted ∧
      forall moment, moment ≤ 7 ->
        forall s, run ((⟨2, 1000, .lru⟩ : TableConfig).fresh Platform.source none)
            (rewriteNoted.take moment) = some s -> s.Unnoticed := by
  have within : StaysWithin ⟨2, 1000, .lru⟩ Platform.source none rewriteNoted := by
    intro front part s reached
    rw [List.prefix_iff_eq_take.mp part] at reached
    have short := part.length_le
    have all : forall count, count ≤ 7 ->
        (run ((⟨2, 1000, .lru⟩ : TableConfig).fresh Platform.source none)
          (rewriteNoted.take count)).all (fun s => decide (storedBytes s.alone.entries ≤ 1000)) =
          true := by decide
    have here := all front.length short
    rw [reached] at here
    exact of_decide_eq_true here
  refine ⟨within, (scanner_unnoticed_iff ⟨2, 1000, .lru⟩ Platform.source none rewriteNoted
    within).mpr ?_⟩
  rintro moment _ present rfl
  have absent : ScanEvent.removeNext ∉ rewriteNoted := by simp [rewriteNoted]
  exact absurd (List.mem_of_getElem? present) absent

/-! ## A scan without calls in between -/

/-- The events of a scan. -/
def scanEvents (samples : List (Nat × (Bytes -> UInt64))) (found : Nat) : List ScanEvent :=
  .beginScan :: samples.map (fun sample => .sample sample.1 sample.2) ++
    List.replicate (found + 2) .removeNext

theorem steps_sample (samples : List (Nat × (Bytes -> UInt64))) {range : Nat}
    (inside : forall sample, sample ∈ samples -> sample.1 < range) (s : Scanned P)
    {found : List Bytes} (thread : s.thread = some (.sampling range samples.length found)) :
    Exists fun clock => (samples.map fun sample => ScanEvent.sample sample.1 sample.2).foldlM step s =
      some { s with thread := some (.sampling range 0 (found ++ s.table.expiredKeys samples)), clock := clock } := by
  induction samples generalizing s found with
  | nil =>
      refine ⟨s.clock, ?_⟩
      rw [HashTable.expiredKeys, List.flatMap_nil, List.append_nil, List.map_nil, List.foldlM_nil,
        ← List.length_nil, ← thread]
      rfl
  | cons first samples ih =>
      rcases List.forall_mem_cons.mp inside with ⟨here, later⟩
      let next : Scanned P := { s with
        thread := some (.sampling range samples.length
          (found ++ expiredIn (s.table.bucketAt first.1) first.2))
        clock := lastReading (s.table.bucketAt first.1) first.2 s.clock }
      have steps : step s (.sample first.1 first.2) = some next := by
        simp only [step, thread, List.length_cons, if_pos here]
        rfl
      rcases ih later next rfl with ⟨clock, rest⟩
      refine ⟨clock, ?_⟩
      rw [List.map_cons, List.foldlM_cons, steps]
      refine rest.trans ?_
      simp only [next, HashTable.expiredKeys, List.flatMap_cons, List.append_assoc]

theorem steps_remove (keys : List Bytes) (s : Scanned P)
    (thread : s.thread = some (.removing keys)) :
    (List.replicate (keys.length + 1) ScanEvent.removeNext).foldlM step s =
      some { s with table := keys.foldl (fun t key => (t.remove key).1) s.table, thread := some .asleep } := by
  induction keys generalizing s with
  | nil =>
      simp only [List.length_nil, List.replicate_succ, List.foldlM_cons, step, thread]
      rfl
  | cons key keys ih =>
      have rest := ih { s with table := (s.table.remove key).1, thread := some (.removing keys) } rfl
      rw [List.length_cons, List.replicate_succ, List.foldlM_cons]
      simp only [step, thread]
      exact rest

/-- A scan that is not interrupted is `scanExpiredKeys`. -/
theorem steps_scan (thread : s.thread = some .asleep) (samples : List (Nat × (Bytes -> UInt64)))
    (count : samples.length = sampleSize)
    (inside : forall sample, sample ∈ samples -> sample.1 < s.table.buckets.length) :
    Exists fun t => (scanEvents samples (s.table.expiredKeys samples).length).foldlM step s = some t ∧
      t.table = s.table.scanExpiredKeys samples ∧ t.thread = some .asleep := by
  let begun : Scanned P :=
    { s with thread := some (.sampling s.table.buckets.length samples.length []), rewritten := [] }
  have begins : step s .beginScan = some begun := by
    simp only [step, thread, ← count]
    rfl
  rcases steps_sample samples inside begun rfl with ⟨clock, sampled⟩
  let collected : Scanned P :=
    { begun with thread := some (.removing (s.table.expiredKeys samples)), clock := clock }
  have removed := steps_remove (s.table.expiredKeys samples) collected rfl
  refine ⟨{ collected with table := s.table.scanExpiredKeys samples, thread := some .asleep }, ?_,
    rfl, rfl⟩
  rw [scanEvents, List.cons_append, List.foldlM_cons, begins]
  refine (List.foldlM_append (m := Option)).trans ?_
  rw [sampled, List.replicate_succ]
  exact removed

/-- After any run, a scan with no call in between removes exactly the keys of the
sampled buckets that have expired when they are looked at, and leaves everything
else as it is. -/
theorem scan_removes_expired (config : TableConfig) (P : Platform) (walFile : Option Bytes)
    (events : List ScanEvent) (s : Scanned P)
    (reached : run (config.fresh P walFile) events = some s) (thread : s.thread = some .asleep)
    (samples : List (Nat × (Bytes -> UInt64))) (count : samples.length = sampleSize)
    (inside : forall sample, sample ∈ samples -> sample.1 < s.table.buckets.length) :
    Exists fun found => Exists fun t =>
      run (config.fresh P walFile) (events ++ scanEvents samples found) = some t ∧
        t.thread = some .asleep ∧
        (forall key entry, t.table.view key = some entry <-> s.table.view key = some entry ∧
          forall sample, sample ∈ samples -> sample.1 = s.table.bucketIdx key ->
            Unexpired (sample.2 key) entry) ∧
        t.table.size = {key | Exists fun entry => s.table.view key = some entry ∧
          forall sample, sample ∈ samples -> sample.1 = s.table.bucketIdx key ->
            Unexpired (sample.2 key) entry}.ncard := by
  have wf := (wf_run config walFile events reached).1
  rcases steps_scan thread samples count inside with ⟨t, scanned, table, asleep⟩
  rcases removeAll wf (s.table.expiredKeys samples) with ⟨removed, find, _⟩
  have view : forall key entry, t.table.view key = some entry <-> s.table.view key = some entry ∧
      forall sample, sample ∈ samples -> sample.1 = s.table.bucketIdx key ->
          Unexpired (sample.2 key) entry := by
    intro key entry
    have here : t.table.view key = if key ∈ s.table.expiredKeys samples then none
        else s.table.view key := by
      rw [table]
      refine (congrArg (Option.map _) (find key)).trans ?_
      split <;> rfl
    rw [here]
    by_cases found : key ∈ s.table.expiredKeys samples
    · rw [if_pos found]
      refine iff_of_false (fun held => nomatch held) ?_
      rintro ⟨bound, unexpired⟩
      rcases List.mem_flatMap.mp found with ⟨sample, member, inBucket⟩
      rcases (mem_expiredIn wf).mp inBucket with ⟨index, kv, stored, expired⟩
      have same : s.table.view key = some (kv.value.value, kv.value.expiryNs) :=
        congrArg (Option.map _) stored
      cases same.symm.trans bound
      cases (isExpired_eq_false_iff.mpr (unexpired sample member index)).symm.trans expired
    · rw [if_neg found]
      refine ⟨fun bound => ⟨bound, fun sample member index => ?_⟩, fun held => held.1⟩
      rcases Option.map_eq_some_iff.mp bound with ⟨kv, stored, rfl⟩
      rw [← isExpired_eq_false_iff, Bool.eq_false_iff]
      intro expired
      exact found (List.mem_flatMap.mpr
        ⟨sample, member, (mem_expiredIn wf).mpr ⟨index, kv, stored, expired⟩⟩)
  refine ⟨(s.table.expiredKeys samples).length, t, ?_, asleep, view, ?_⟩
  · rw [run, List.foldlM_append]
    change (run (config.fresh P walFile) events).bind _ = _
    rw [reached]
    exact scanned
  · have counted := (size_eq_ncard (table ▸ removed : t.table.WF)).2
    rw [counted]
    congr 1
    ext key
    exact Option.ne_none_iff_exists'.trans (exists_congr fun entry => view key entry)

/-- An entry that lives until 5, one that does not expire, and a scan at 100 that
happens to meet each of the two buckets. -/
theorem scan_removes_expired_one_entry :
    Exists fun found => Exists fun t =>
      run ((⟨2, 1000, .lru⟩ : TableConfig).fresh Platform.source none)
          ([.call (.insert [107] ⟨[118], 0, 0, 5⟩), .call (.insert [106] ⟨[119], 0, 0, 0⟩),
            .startTtlScanner] ++ scanEvents ((List.range 20).map fun n => (n % 2, fun _ => 100))
              found) = some t ∧
        t.table.view [107] = none ∧ t.table.view [106] = some ([119], 0) := by
  let table := (⟨2, 1000, .lru⟩ : TableConfig).fresh Platform.source none
  obtain ⟨inserted, isInserted⟩ : Exists fun inserted =>
      inserted = (table.insert [107] ⟨[118], 0, 0, 5⟩).insert [106] ⟨[119], 0, 0, 0⟩ := ⟨_, rfl⟩
  let samples : List (Nat × (Bytes -> UInt64)) := (List.range 20).map fun n => (n % 2, fun _ => 100)
  have stored : inserted.view [107] = some ([118], 5) ∧ inserted.view [106] = some ([119], 0) := by
    rw [isInserted]
    decide
  have sampled : (inserted.bucketIdx [107], fun _ => 100) ∈ samples := by
    have bucket : inserted.bucketIdx [107] < 2 := by
      rw [isInserted]
      decide
    have there : forall index, index < 2 -> (index, fun _ => 100) ∈ samples := by
      intro index small
      refine List.mem_map.mpr ⟨index, List.mem_range.mpr (by omega), ?_⟩
      rw [Nat.mod_eq_of_lt small]
    exact there _ bucket
  have inside : forall sample, sample ∈ samples -> sample.1 < inserted.buckets.length := by
    have buckets : inserted.buckets.length = 2 := by
      rw [isInserted]
      decide
    rw [buckets]
    intro sample member
    rcases List.mem_map.mp member with ⟨n, _, rfl⟩
    exact Nat.mod_lt n Nat.two_pos
  let started : Scanned Platform.source := ⟨inserted, some .asleep, 0, inserted, []⟩
  have starts : run table [.call (.insert [107] ⟨[118], 0, 0, 5⟩),
      .call (.insert [106] ⟨[119], 0, 0, 0⟩), .startTtlScanner] = some started := by
    simp [run, step, init, rewrites, Scanned.noted, started, isInserted, TableCall.apply]
  rcases scan_removes_expired ⟨2, 1000, .lru⟩ Platform.source none _ started starts rfl
    samples rfl inside with ⟨found, t, reached, _, view, _⟩
  refine ⟨found, t, reached, Option.eq_none_iff_forall_ne_some.mpr fun entry bound => ?_, ?_⟩
  · rcases (view [107] entry).mp bound with ⟨held, unexpired⟩
    cases stored.1.symm.trans held
    have late : ¬ Unexpired 100 (([118], 5) : Bytes × UInt64) := by
      unfold Unexpired
      decide
    exact late (unexpired _ sampled rfl)
  · have never : Unexpired 100 (([119], 0) : Bytes × UInt64) := Or.inl rfl
    refine (view [106] ([119], 0)).mpr ⟨stored.2, fun sample member _ => ?_⟩
    rcases List.mem_map.mp member with ⟨n, _, rfl⟩
    exact never

end Scanned
end Engine
end KVStore
