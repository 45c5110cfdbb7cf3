import KVStore.Engine.Accounting
import KVStore.Engine.Recovery

namespace KVStore
namespace Engine

open Framing Keyed HashTable

variable {P : Platform}

/-!
# Loading a snapshot into an empty table

`load_snapshot` puts the entries of a snapshot into a table one after the other,
in the order of the buckets from which they were written.  Each `insert` first
evicts until the table is within its limit.  A table may stand above its limit
after its last `insert`, and its entries come back in another order than they
were inserted in, so that an entry may be evicted in between.

What comes back is the whole table when the entries are within the limit with
the exception of the last one in the order of the buckets, and without the empty
key only then.

The entries are inserted while the file is still being read, and the checksum is
compared after the last of them.  A load that fails therefore leaves a table
untouched when it has not read any entry, and no other file leaves all tables
untouched.
-/

variable {kvs : List KeyValuePair} {t : HashTable P}

theorem ShortStrings.runCalls (wf : t.WF) (strings : ShortStrings t) {calls : List TableCall}
    (short : forall call, call ∈ calls -> call.Short) : ShortStrings (runCalls t calls) := by
  induction calls generalizing t with
  | nil => exact strings
  | cons call calls ih =>
      have first := strings.apply wf (short call List.mem_cons_self)
      exact ih (wf_apply wf call) first fun other inside =>
        short other (List.mem_cons_of_mem _ inside)

/-- The tables have the same keys, with the same values, expiry times, access
counts and access times. -/
def SameEntries (first second : HashTable P) : Prop :=
  forall key, (first.find key).map KeyValuePair.value = (second.find key).map KeyValuePair.value

theorem insertAll_snoc (t : HashTable P) (entries : List (Bytes × ValueEntry))
    (entry : Bytes × ValueEntry) :
    insertAll t (entries ++ [entry]) = (insertAll t entries).insert entry.1 entry.2 := by
  rw [insertAll, List.foldl_append]
  rfl

theorem insertAll_eq_runCalls (t : HashTable P) (entries : List (Bytes × ValueEntry)) :
    insertAll t entries = runCalls t (entries.map fun entry => .insert entry.1 entry.2) := by
  rw [insertAll, Engine.runCalls, List.foldl_map]
  rfl

/-- A key that is not among the entries is not put into the table. -/
theorem find_insertAll_eq_none (wf : t.WF) {key : Bytes} (missing : t.find key = none)
    {entries : List (Bytes × ValueEntry)} (absent : key ∉ entries.map Prod.fst) :
    (insertAll t entries).find key = none := by
  induction entries generalizing t with
  | nil => exact missing
  | cons entry entries ih =>
      rw [List.map_cons, List.mem_cons, not_or] at absent
      refine ih (wf.insert entry.1 entry.2).1 ?_ absent.2
      rw [(wf.insert entry.1 entry.2).2.1, if_neg (Ne.symm absent.1), wf.find_evictIfNeeded,
        missing, ite_self]

/-- The entries of a list as a snapshot holds them. -/
def pairs (kvs : List KeyValuePair) : List (Bytes × ValueEntry) :=
  kvs.map fun kv => (kv.key, kv.value)

theorem storedBytes_concat (kvs : List KeyValuePair) (kv : KeyValuePair) :
    storedBytes (kvs ++ [kv]) = storedBytes kvs + kv.value.value.length := by
  rw [storedBytes, total_append]
  rfl

theorem storedBytes_dropLast (kvs : List KeyValuePair) :
    storedBytes kvs.dropLast ≤ storedBytes kvs := by
  rcases List.eq_nil_or_concat kvs with rfl | ⟨front, last, rfl⟩
  · exact Nat.le_refl _
  · rw [List.concat_eq_append, List.dropLast_concat, storedBytes_concat]
    exact Nat.le_add_right _ _

/-- The keys before the last one are other keys. -/
theorem distinct_concat {kv : KeyValuePair}
    (distinct : ((kvs ++ [kv]).map KeyValuePair.key).Nodup) :
    (kvs.map KeyValuePair.key).Nodup ∧ kv.key ∉ kvs.map KeyValuePair.key := by
  rw [List.map_append, List.map_singleton] at distinct
  rcases List.nodup_append.mp distinct with ⟨before, _, separate⟩
  exact ⟨before, fun member => separate _ member _ List.mem_cons_self rfl⟩

theorem findKey_concat {kv : KeyValuePair} (distinct : ((kvs ++ [kv]).map KeyValuePair.key).Nodup)
    (key : Bytes) :
    findKey key (kvs ++ [kv]) = if kv.key = key then some kv else findKey key kvs :=
  find_of_perm_cons distinct (List.perm_append_singleton kv kvs)

/-- Entries with distinct keys that are within the limit, the last one apart,
all stay. -/
theorem insertAll_pairs (wf : t.WF) (empty : t.entries = [])
    (distinct : (kvs.map KeyValuePair.key).Nodup)
    (within : storedBytes kvs.dropLast ≤ t.policy.memoryLimit) :
    (insertAll t (pairs kvs)).WF ∧ (insertAll t (pairs kvs)).policy.memoryLimit =
      t.policy.memoryLimit ∧
      storedBytes (insertAll t (pairs kvs)).entries = storedBytes kvs ∧
      forall key, ((insertAll t (pairs kvs)).find key).map KeyValuePair.value =
        (findKey key kvs).map KeyValuePair.value := by
  induction kvs using List.reverseRecOn with
  | nil =>
      exact ⟨wf, rfl, congrArg storedBytes empty, fun key =>
        congrArg (fun kvs => (findKey key kvs).map _) empty⟩
  | append_singleton kvs kv ih =>
      rw [List.dropLast_concat] at within
      rcases distinct_concat distinct with ⟨before, absent⟩
      rcases ih before (Nat.le_trans (storedBytes_dropLast kvs) within) with
        ⟨loadedWF, limit, bytes, find⟩
      have one : pairs (kvs ++ [kv]) = pairs kvs ++ [(kv.key, kv.value)] := List.map_append
      have missing : (insertAll t (pairs kvs)).find kv.key = none := by
        have unbound := find kv.key
        have notFound : findKey kv.key kvs = none := find_eq_none_iff.mpr absent
        rw [notFound, Option.map_none, Option.map_eq_none_iff] at unbound
        exact unbound
      have room : storedBytes (insertAll t (pairs kvs)).entries ≤
          (insertAll t (pairs kvs)).policy.memoryLimit := by
        rw [bytes, limit]
        exact within
      rcases loadedWF.insert kv.key kv.value with ⟨inserted, findInsert, sameLimit, _⟩
      rw [one, insertAll_snoc]
      refine ⟨inserted, sameLimit.trans limit, ?_, fun key => ?_⟩
      · rw [loadedWF.storedBytes_insert_new room missing, bytes, storedBytes_concat, Nat.add_comm]
      · rw [findInsert key, loadedWF.evictIfNeeded_eq room, findKey_concat distinct]
        split
        · rfl
        · exact find key

/-- Without the empty key, entries that all stay are within the limit, the last
one apart. -/
theorem within_of_insertAll (wf : t.WF) (ready : t.policy.Ready []) (empty : t.entries = [])
    (distinct : (kvs.map KeyValuePair.key).Nodup) (free : [] ∉ kvs.map KeyValuePair.key)
    (stays : forall key, ((insertAll t (pairs kvs)).find key).map KeyValuePair.value =
      (findKey key kvs).map KeyValuePair.value) :
    storedBytes kvs.dropLast ≤ t.policy.memoryLimit := by
  rcases List.eq_nil_or_concat kvs with rfl | ⟨front, last, rfl⟩
  · exact Nat.zero_le _
  rw [List.concat_eq_append] at *
  rw [List.dropLast_concat]
  rcases distinct_concat distinct with ⟨before, absent⟩
  have one : pairs (front ++ [last]) = pairs front ++ [(last.key, last.value)] := List.map_append
  have asCalls := insertAll_eq_runCalls t (pairs front)
  have frontWF : (insertAll t (pairs front)).WF := asCalls ▸ wf_runCalls wf _
  have frontReady : (insertAll t (pairs front)).policy.Ready [] := asCalls ▸ ready_runCalls wf ready _
  have limit : (insertAll t (pairs front)).policy.memoryLimit = t.policy.memoryLimit :=
    memoryLimit_insertAll wf _
  have frontFree : (insertAll t (pairs front)).find [] = none := by
    apply find_insertAll_eq_none wf
    · rw [HashTable.find, empty]
      rfl
    · rw [pairs, List.map_map]
      intro member
      apply free
      rw [List.map_append]
      exact List.mem_append_left _ member
  -- The last insert leaves a table within its limit, which still holds the entries before.
  have evicted := evictLoop_within frontWF frontReady (find_eq_none_iff.mp frontFree)
    (Nat.lt_succ_self _)
  rw [limit] at evicted
  refine Nat.le_trans (total_le_total before fun kv member => ?_) evicted
  have different : last.key ≠ kv.key := fun same => absent (same ▸ List.mem_map_of_mem member)
  have here : findKey kv.key front = some kv := (find_eq_some_iff before).mpr ⟨member, rfl⟩
  have kept := stays kv.key
  rw [one, insertAll_snoc, (frontWF.insert _ _).2.1, if_neg different, findKey_concat distinct,
    if_neg different, here, Option.map_some] at kept
  rcases Option.map_eq_some_iff.mp kept with ⟨image, found, sameValue⟩
  rcases mem_of_find found with ⟨inside, sameKey⟩
  refine ⟨image, inside, sameKey, ?_⟩
  rw [KeyValuePair.size, KeyValuePair.size, sameValue]

namespace TableConfig

/-- The snapshot of a reachable table is accepted.  What is loaded is the table
when its entries are within the limit, the last one in the order of the buckets
apart, and without the empty key only then. -/
theorem snapshot_roundTrip (config : TableConfig) (P : Platform) (walFile : Option Bytes)
    (calls : List TableCall) (short : forall call, call ∈ calls -> call.Short)
    (counted : (runCalls (config.fresh P walFile) calls).numEntries < 2 ^ 64)
    (garbage : Uninitialised) (capacity : Nat) (freshWal : Option Bytes) :
    let t := runCalls (config.fresh P walFile) calls
    let fresh := ({ config with initialCapacity := capacity } : TableConfig).fresh P freshWal
    let loaded := loadSnapshot garbage fresh (createSnapshot t)
    loaded.2 = true ∧
      (storedBytes t.entries.dropLast ≤ config.memoryLimit -> SameEntries loaded.1 t) ∧
      (t.find [] = none -> SameEntries loaded.1 t ->
          storedBytes t.entries.dropLast ≤ config.memoryLimit) := by
  intro t fresh loaded
  have wf : t.WF := wf_runCalls (config.wf_fresh walFile) calls
  have freshWF : fresh.WF := TableConfig.wf_fresh _ freshWal
  have limit : fresh.policy.memoryLimit = config.memoryLimit :=
    TableConfig.memoryLimit_fresh _ freshWal
  have empty : fresh.entries = [] := entries_new ..
  have strings : ShortStrings t := by
    refine ShortStrings.runCalls (config.wf_fresh walFile) ?_ short
    intro key entry bound
    rw [view_fresh] at bound
    cases bound
  have result : loaded = (insertAll fresh (pairs t.entries), true) := by
    have read := loadSnapshot_createSnapshot wf counted garbage fresh
    rw [map_carriedEntry wf strings] at read
    exact read
  rw [result]
  refine ⟨rfl, fun within => ?_, fun free same => ?_⟩
  · exact (insertAll_pairs freshWF empty wf.distinct (limit ▸ within)).2.2.2
  · rw [← limit]
    exact within_of_insertAll freshWF (TableConfig.ready_fresh _ freshWal) empty wf.distinct
      (find_eq_none_iff.mp free) same

/-- A table with one bucket and room for one byte. -/
def narrow (kind : EvictionPolicy) : TableConfig := ⟨1, 1, kind⟩

/-- Two entries that are within the limit, and then an update of the first one
beyond it. -/
def narrowCalls : List TableCall :=
  [.insert [98] (ValueEntry.new [] 0), .insert [97] (ValueEntry.new [49] 0),
    .insert [98] (ValueEntry.new [50, 51] 0)]

/-- The first two calls leave a table that comes back. -/
theorem snapshot_roundTrip_narrow :
    SameEntries
      (loadSnapshot zeroed ((narrow .lfu).fresh Platform.source none)
        (createSnapshot (runCalls ((narrow .lfu).fresh Platform.source none) (narrowCalls.take 2)))).1
      (runCalls ((narrow .lfu).fresh Platform.source none) (narrowCalls.take 2)) := by
  have short : forall call, call ∈ narrowCalls.take 2 -> call.Short := by
    simp [narrowCalls, TableCall.Short, ValueEntry.new]
  exact (snapshot_roundTrip (narrow .lfu) Platform.source none (narrowCalls.take 2) short
    (by decide +kernel) zeroed 1 none).2.1 (by decide +kernel)

/-- The table after all calls, and what is loaded of it. -/
def narrowTable (kind : EvictionPolicy) : HashTable Platform.source :=
  runCalls ((narrow kind).fresh Platform.source none) narrowCalls

def narrowReload (kind : EvictionPolicy) : HashTable Platform.source × Bool :=
  loadSnapshot zeroed ((narrow kind).fresh Platform.source none) (createSnapshot (narrowTable kind))

/-- The update stands in the first bucket, and loading the other entry evicts it. -/
theorem reload_loses_entry :
    ((narrowTable .lru).find [98]).isSome = true ∧ (narrowReload .lru).2 = true ∧
      ((narrowReload .lru).1.find [98]).isSome = false ∧
      ((narrowTable .lfu).find [98]).isSome = true ∧ (narrowReload .lfu).2 = true ∧
      ((narrowReload .lfu).1.find [98]).isSome = false := by
  decide +kernel

end TableConfig

/-! ## Loads that fail -/

/-- The entries that are read until one is incomplete. -/
def readable : Nat -> Bytes -> List (Bytes × ValueEntry)
  | 0, _ => []
  | count + 1, stream =>
      match readEntry stream with
      | none => []
      | some (entry, stream) => entry :: readable count stream

/-- The entries that `load_snapshot` reads from a file. -/
def entriesRead (garbage : Uninitialised) (file : Bytes) : List (Bytes × ValueEntry) :=
  let (magic, stream) := readOver garbage.magic file
  if magic ≠ snapshotMagic then []
  else
    let (_, stream) := readOver placeholderCrc stream
    let (numEntries, stream) := readOver garbage.numEntries stream
    readable (leValue numEntries) stream

/-- Entries, size and eviction state are the same. -/
def Untouched (before after : HashTable P) : Prop :=
  after.buckets = before.buckets ∧ after.numEntries = before.numEntries ∧ after.policy = before.policy

theorem readEntries_table (count : Nat) (t : HashTable P) (stream : Bytes) (crc : UInt64) :
    (readEntries count t stream crc).1 = insertAll t (readable count stream) := by
  induction count generalizing t stream crc with
  | zero => rfl
  | succ count ih =>
      rw [readEntries, readable]
      cases readEntry stream with
      | none => rfl
      | some first => exact ih (t.insert first.1.1 first.1.2) first.2 _

/-- Whether the entries are complete, and their checksum, depend on the file only. -/
theorem readEntries_result (count : Nat) (t other : HashTable P) (stream : Bytes) (crc : UInt64) :
    (readEntries count t stream crc).2 = (readEntries count other stream crc).2 := by
  induction count generalizing t other stream crc with
  | zero => rfl
  | succ count ih =>
      rw [readEntries, readEntries]
      cases readEntry stream with
      | none => rfl
      | some first => exact ih _ _ first.2 _

/-- Every entry that is read is inserted, also where the load fails. -/
theorem loadSnapshot_table (garbage : Uninitialised) (t : HashTable P) (file : Bytes) :
    (loadSnapshot garbage t file).1 = insertAll t (entriesRead garbage file) := by
  unfold loadSnapshot entriesRead
  simp only
  split
  · rfl
  · exact readEntries_table _ t _ _

theorem loadSnapshot_result (garbage : Uninitialised) (t other : HashTable P) (file : Bytes) :
    (loadSnapshot garbage t file).2 = (loadSnapshot garbage other file).2 := by
  unfold loadSnapshot
  simp only
  split
  · rfl
  · simp only [readEntries_result _ t other]

/-- The last of the inserted entries is in the table. -/
theorem entries_insertAll_ne_nil (wf : t.WF) {entries : List (Bytes × ValueEntry)}
    (some : entries ≠ []) : (insertAll t entries).entries ≠ [] := by
  rcases List.eq_nil_or_concat entries with none | ⟨front, last, rfl⟩
  · exact absurd none some
  · have frontWF : (insertAll t front).WF := by
      rw [insertAll_eq_runCalls]
      exact wf_runCalls wf _
    have found := (frontWF.insert last.1 last.2).2.1 last.1
    rw [if_pos rfl] at found
    rw [List.concat_eq_append, insertAll_snoc]
    intro empty
    rw [HashTable.find, empty] at found
    cases found

/-- A file leaves every table untouched when its load fails exactly if it is
accepted, or no entry of it is read: its magic number is wrong, it announces no
entries or the first one is incomplete. -/
theorem failed_load_untouched_iff (P : Platform) (garbage : Uninitialised) (file : Bytes) :
    (forall t : HashTable P, (loadSnapshot garbage t file).2 = false ->
        Untouched t (loadSnapshot garbage t file).1) <->
      ((forall t : HashTable P, (loadSnapshot garbage t file).2 = true) ∨
          entriesRead garbage file = []) := by
  constructor
  · intro untouched
    let fresh : HashTable P := HashTable.new 1 0 .lru none
    cases accepted : (loadSnapshot garbage fresh file).2 with
    | true => exact Or.inl fun t => (loadSnapshot_result garbage t fresh file).trans accepted
    | false =>
        refine Or.inr ?_
        by_contra some
        have same := (untouched fresh accepted).1
        rw [loadSnapshot_table] at same
        have empty : (insertAll fresh (entriesRead garbage file)).entries = [] := by
          rw [HashTable.entries, same]
          exact entries_new 1 0 .lru none
        exact entries_insertAll_ne_nil (wf_new 1 0 .lru none) some empty
  · rintro (accepted | none) t failed
    · cases (accepted t).symm.trans failed
    · rw [loadSnapshot_table, none]
      exact ⟨rfl, rfl, rfl⟩

/-- A table with one entry. -/
def oneEntry (value : Bytes) : HashTable Platform.source :=
  (HashTable.new 16 1024 .lru none).insert [97] (ValueEntry.new value 0)

/-- The snapshot of a table in which one byte of the value was changed. -/
def corruptedSnapshot : Bytes := snapshotWith (oneEntry [88]) (snapshotCrcBytes (oneEntry [49]))

theorem failed_load_overwrites :
    (loadSnapshot zeroed (oneEntry [49]) corruptedSnapshot).2 = false ∧
      (oneEntry [49]).view [97] = some ([49], 0) ∧
      (loadSnapshot zeroed (oneEntry [49]) corruptedSnapshot).1.view [97] = some ([88], 0) := by
  decide +kernel

end Engine
end KVStore
