import KVStore.Engine.Eviction
import KVStore.Engine.Wal

namespace KVStore
namespace Engine

open Framing Keyed

variable {P : Platform}

/-!
# The hash table

`HashTable` of `engine/src/hash_table.cpp`: chained buckets, an eviction policy
and an optional log.  A clock reading is an argument of the operation that makes
it, and the loop of `evict_if_needed` has as much fuel as the table has entries
and one more, which `WF.ends_evictIfNeeded` shows to be enough.

The table is well formed when every entry stands in the bucket of its key, no
key is stored twice, the counter is right and the policy tracks the entries.
What each operation does is then stated about the map `find` from keys to
entries, without buckets, chains and policies.
-/

/-- A chain of a bucket. -/
abbrev Chain := List KeyValuePair

structure HashTable (P : Platform) where
  buckets : List Chain
  numEntries : Nat
  policy : Policy P
  walWriter : Option WALWriter

namespace HashTable

/-! ## Operations -/

/-- `while (capacity < initial_capacity) capacity <<= 1`. -/
def growCapacity (initialCapacity : Nat) : Nat -> Nat -> Nat
  | 0, capacity => capacity
  | fuel + 1, capacity =>
      if capacity < initialCapacity then growCapacity initialCapacity fuel (2 * capacity)
      else capacity

/-- `enable_wal`: the file at the path is opened by a new writer. -/
def enableWal (t : HashTable P) (file : Bytes) (batchSize : Nat) : HashTable P :=
  { t with walWriter := some (WALWriter.new file batchSize) }

/-- The constructor.  `walFile` holds the bytes of the file at the path of the
log, when a path is given. -/
def new (initialCapacity memoryLimit : Nat) (kind : EvictionPolicy) (walFile : Option Bytes) :
    HashTable P :=
  let table : HashTable P :=
    { buckets := List.replicate (growCapacity initialCapacity initialCapacity 1) []
      numEntries := 0
      policy := Policy.new kind memoryLimit
      walWriter := none }
  match walFile with
  | none => table
  | some file => table.enableWal file 100

/-- The record of an `insert`. -/
def setRecord (key : Bytes) (value : ValueEntry) : WALRecord where
  opType := .set
  key := key
  value := value.value
  ttlNs := value.expiryNs.toInt64

/-- The record of a `remove`. -/
def deleteRecord (key : Bytes) : WALRecord where
  opType := .delete
  key := key
  value := []
  ttlNs := 0

/-- `if (wal_writer_) wal_writer_->append(record)`. -/
def log (t : HashTable P) (record : WALRecord) : HashTable P :=
  { t with walWriter := t.walWriter.map fun w => w.append record }

def flushWal (t : HashTable P) : HashTable P :=
  { t with walWriter := t.walWriter.map WALWriter.flush }

/-- `truncate_wal`.  The old writer flushes its buffer to the file that is then
emptied. -/
def truncateWal (t : HashTable P) : HashTable P :=
  if t.walWriter.isSome then t.enableWal [] 100 else t

def bucketIdx (t : HashTable P) (key : Bytes) : Nat := (P.hash key).toNat % t.buckets.length

def chain (t : HashTable P) (key : Bytes) : Chain := t.buckets.getD (t.bucketIdx key) []

def setChain (t : HashTable P) (key : Bytes) (chain : Chain) : HashTable P :=
  { t with buckets := t.buckets.set (t.bucketIdx key) chain }

/-- Walk a chain to the first entry with the key. -/
def locate (key : Bytes) : Chain -> Option (Chain × KeyValuePair × Chain)
  | [] => none
  | kv :: chain =>
      if kv.key = key then some ([], kv, chain)
      else (locate key chain).map fun found => (kv :: found.1, found.2)

/-- `is_expired`, at the given reading of the clock. -/
def isExpired (entry : ValueEntry) (now : UInt64) : Bool :=
  if entry.expiryNs = 0 then false else decide (now.toNat ≥ entry.expiryNs.toNat)

/-- `get`, with the clock readings of `is_expired` and of the access time. -/
def get (t : HashTable P) (key : Bytes) (now accessNow : UInt64) :
    HashTable P × Option ValueEntry :=
  match locate key (t.chain key) with
  | none => (t, none)
  | some (front, kv, back) =>
      if isExpired kv.value now then (t, none)
      else
        let value := { kv.value with
          accessCount := kv.value.accessCount + 1, lastAccessNs := accessNow }
        ({ t.setChain key (front ++ { kv with value := value } :: back) with
            policy := t.policy.onAccess key value }, some value)

def remove (t : HashTable P) (key : Bytes) : HashTable P × Bool :=
  let t := t.log (deleteRecord key)
  match locate key (t.chain key) with
  | none => (t, false)
  | some (front, kv, back) =>
      ({ t.setChain key (front ++ back) with
          numEntries := t.numEntries - 1
          policy := t.policy.onDelete key kv.value.value.length }, true)

/-- The loop of `evict_if_needed`. -/
def evictLoop : Nat -> HashTable P -> HashTable P
  | 0, t => t
  | fuel + 1, t =>
      if t.policy.shouldEvict then
        let victim := t.policy.getEvictionCandidate.1
        let t := { t with policy := t.policy.getEvictionCandidate.2 }
        if victim = [] then t else evictLoop fuel (t.remove victim).1
      else t

def evictIfNeeded (t : HashTable P) : HashTable P := evictLoop (t.numEntries + 1) t

/-- One entry of `rehash`. -/
def rehashEntry (newCapacity : Nat) (buckets : List Chain) (kv : KeyValuePair) : List Chain :=
  let index := kv.hash.toNat % newCapacity
  buckets.set index (buckets.getD index [] ++ [kv])

def rehash (t : HashTable P) (newCapacity : Nat) : HashTable P :=
  { t with buckets := t.buckets.flatten.foldl (rehashEntry newCapacity) (List.replicate newCapacity []) }

/-- `resize_if_needed`: the load factor 0.75 is exceeded. -/
def resizeIfNeeded (t : HashTable P) : HashTable P :=
  if 4 * t.numEntries > 3 * t.buckets.length then t.rehash (t.buckets.length * 2) else t

/-- The part of `insert` behind the resize: update the entry or add it. -/
def store (t : HashTable P) (key : Bytes) (value : ValueEntry) : HashTable P :=
  match locate key (t.chain key) with
  | some (front, kv, back) =>
      { t.setChain key (front ++ { key := kv.key, value := value, hash := P.hash key } :: back) with
        policy := (t.policy.onDelete key kv.value.value.length).onInsert key value }
  | none =>
      { t.setChain key (t.chain key ++ [{ key := key, value := value, hash := P.hash key }]) with
        numEntries := t.numEntries + 1
        policy := t.policy.onInsert key value }

/-- `insert`, which always returns true. -/
def insert (t : HashTable P) (key : Bytes) (value : ValueEntry) : HashTable P :=
  let t := t.log (setRecord key value)
  (t.evictIfNeeded.resizeIfNeeded).store key value

/-! ## Well-formed tables -/

/-- All entries, in the order of `for_each`. -/
def entries (t : HashTable P) : List KeyValuePair := t.buckets.flatten

/-- The entry stored under a key. -/
def find (t : HashTable P) (key : Bytes) : Option KeyValuePair := findKey key t.entries

/-- Every entry stands in the bucket of its key. -/
def Placed (t : HashTable P) : Prop :=
  forall index kv, kv ∈ t.buckets.getD index [] -> kv.hash = P.hash kv.key ∧
    index = t.bucketIdx kv.key

structure WF (t : HashTable P) : Prop where
  nonempty : 0 < t.buckets.length
  placed : t.Placed
  distinct : (t.entries.map KeyValuePair.key).Nodup
  count : t.numEntries = t.entries.length
  tracks : t.policy.Tracks t.entries

@[simp] theorem bucketIdx_setChain (t : HashTable P) (key other : Bytes) (chain : Chain) :
    (t.setChain key chain).bucketIdx other = t.bucketIdx other := by
  simp only [bucketIdx, setChain, List.length_set]

variable {t : HashTable P} {key : Bytes}

theorem WF.bucketIdx_lt (wf : t.WF) (key : Bytes) : t.bucketIdx key < t.buckets.length :=
  Nat.mod_lt _ wf.nonempty

theorem Placed.setChain (placed : t.Placed) {chain : Chain}
    (chainPlaced : forall kv, kv ∈ chain -> kv.hash = P.hash kv.key ∧
      t.bucketIdx key = t.bucketIdx kv.key) :
    (t.setChain key chain).Placed := by
  intro index kv member
  rw [bucketIdx_setChain]
  change kv ∈ (t.buckets.set (t.bucketIdx key) chain).getD index [] at member
  rw [List.getD_eq_getElem?_getD, List.getElem?_set] at member
  split at member
  · rename_i same
    split at member
    · rw [← same]
      exact chainPlaced kv member
    · exact False.elim (List.not_mem_nil member)
  · rw [← List.getD_eq_getElem?_getD] at member
    exact placed index kv member

variable {kv : KeyValuePair}

theorem Placed.chain (placed : t.Placed) (member : kv ∈ t.chain key) :
    kv.hash = P.hash kv.key ∧ t.bucketIdx key = t.bucketIdx kv.key :=
  placed _ kv member

/-- The other buckets do not hold the key. -/
theorem Placed.not_mem_outside (placed : t.Placed) (key : Bytes) :
    key ∉ (outside t.buckets (t.bucketIdx key)).map KeyValuePair.key := by
  intro member
  rcases List.mem_map.mp member with ⟨kv, elsewhere, rfl⟩
  rcases List.mem_flatten.mp elsewhere with ⟨bucket, otherBucket, inBucket⟩
  rcases List.mem_eraseIdx_iff_getElem?.mp otherBucket with ⟨index, different, found⟩
  apply different
  have inPlace : kv ∈ t.buckets.getD index [] := by
    rw [List.getD_eq_getElem?_getD, found]
    exact inBucket
  exact (placed index kv inPlace).2

theorem WF.entries_perm (wf : t.WF) (key : Bytes) :
    t.entries.Perm (t.chain key ++ outside t.buckets (t.bucketIdx key)) :=
  flatten_perm (wf.bucketIdx_lt key)

theorem WF.entries_setChain (wf : t.WF) (key : Bytes) (chain : Chain) :
    (t.setChain key chain).entries.Perm (chain ++ outside t.buckets (t.bucketIdx key)) :=
  flatten_set_perm (wf.bucketIdx_lt key) chain

theorem locate_eq_some {chain front back : Chain}
    (found : locate key chain = some (front, kv, back)) :
    chain = front ++ kv :: back ∧ kv.key = key := by
  induction chain generalizing front with
  | nil => cases found
  | cons first chain ih =>
      rw [locate] at found
      split at found
      · rename_i same
        cases found
        exact ⟨rfl, same⟩
      · rcases Option.map_eq_some_iff.mp found with ⟨⟨innerFront, inner⟩, innerFound, result⟩
        cases result
        rcases ih innerFound with ⟨shape, sameKey⟩
        exact ⟨congrArg (List.cons first) shape, sameKey⟩

theorem locate_eq_none {chain : Chain} (missing : locate key chain = none) :
    key ∉ chain.map KeyValuePair.key := by
  induction chain with
  | nil => exact List.not_mem_nil
  | cons first chain ih =>
      rw [locate] at missing
      split at missing
      · cases missing
      · rename_i different
        rw [List.map_cons, List.mem_cons]
        rintro (same | later)
        · exact different same.symm
        · exact ih (Option.map_eq_none_iff.mp missing) later

/-- A located entry, and the table with that entry replaced. -/
theorem WF.located (wf : t.WF) {front back : Chain}
    (found : locate key (t.chain key) = some (front, kv, back)) :
    Exists fun rest => t.entries.Perm (kv :: rest) ∧
      forall middle : Chain, (t.setChain key (front ++ (middle ++ back))).entries.Perm
          (middle ++ rest) := by
  refine ⟨front ++ back ++ outside t.buckets (t.bucketIdx key), ?_, fun middle => ?_⟩
  · refine (wf.entries_perm key).trans ?_
    rw [(locate_eq_some found).1]
    exact List.perm_middle.append_right _
  · refine (wf.entries_setChain key _).trans ?_
    rw [← List.append_assoc middle, ← List.append_assoc front]
    refine List.Perm.append_right _ ?_
    rw [← List.append_assoc]
    exact List.perm_append_comm.append_right back

/-- A key that is not located, and the table with a new entry in its chain. -/
theorem WF.not_located (wf : t.WF) (missing : locate key (t.chain key) = none) (kv : KeyValuePair) :
    key ∉ t.entries.map KeyValuePair.key ∧
        (t.setChain key (t.chain key ++ [kv])).entries.Perm (kv :: t.entries) := by
  constructor
  · rw [((wf.entries_perm key).map _).mem_iff, List.map_append, List.mem_append]
    rintro (inChain | elsewhere)
    · exact locate_eq_none missing inChain
    · exact wf.placed.not_mem_outside key elsewhere
  · refine (wf.entries_setChain key _).trans ?_
    rw [List.append_assoc]
    exact List.perm_middle.trans ((wf.entries_perm key).symm.cons kv)

theorem WF.of_perm {final : List KeyValuePair} (nonempty : 0 < t.buckets.length) (placed : t.Placed)
    (perm : t.entries.Perm final) (distinct : (final.map KeyValuePair.key).Nodup)
    (count : t.numEntries = final.length) (tracks : t.policy.Tracks final) : t.WF where
  nonempty := nonempty
  placed := placed
  distinct := (perm.map _).nodup_iff.mpr distinct
  count := count.trans perm.length_eq.symm
  tracks := tracks.perm distinct perm.symm

/-- The table after a change of one chain. -/
theorem WF.setChain (wf : t.WF) {chain : Chain} {final : List KeyValuePair} {count : Nat}
    {policy : Policy P}
    (chainPlaced : forall kv, kv ∈ chain -> kv.hash = P.hash kv.key ∧
      t.bucketIdx key = t.bucketIdx kv.key)
    (perm : (t.setChain key chain).entries.Perm final)
    (distinct : (final.map KeyValuePair.key).Nodup) (counted : count = final.length)
    (tracks : policy.Tracks final) :
    ({ t.setChain key chain with numEntries := count, policy := policy } : HashTable P).WF := by
  refine WF.of_perm (t := { t.setChain key chain with numEntries := count, policy := policy })
    ?_ ?_ perm distinct counted tracks
  · change 0 < (t.buckets.set _ _).length
    rw [List.length_set]
    exact wf.nonempty
  · exact wf.placed.setChain chainPlaced

/-- An entry is replaced in its chain by another one with its key. -/
theorem WF.replace (wf : t.WF) {front back : Chain} {kv next : KeyValuePair}
    {rest : List KeyValuePair} {policy : Policy P}
    (found : locate key (t.chain key) = some (front, kv, back))
    (split : t.entries.Perm (kv :: rest))
    (perm : (t.setChain key (front ++ next :: back)).entries.Perm (next :: rest))
    (sameKey : next.key = key) (hashed : next.hash = P.hash next.key)
    (tracks : policy.Tracks (next :: rest)) :
    ({ t.setChain key (front ++ next :: back) with policy := policy } : HashTable P).WF := by
  rcases locate_eq_some found with ⟨shape, foundKey⟩
  rcases distinct_of_perm_cons wf.distinct split with ⟨absent, distinct⟩
  rw [foundKey, ← sameKey] at absent
  apply wf.setChain _ perm (List.nodup_cons.mpr ⟨absent, distinct⟩) _ tracks
  · intro other member
    rcases List.mem_append.mp member with inFront | inBack
    · exact wf.placed.chain (shape ▸ List.mem_append_left _ inFront)
    · rcases List.mem_cons.mp inBack with rfl | inBack
      · exact ⟨hashed, by rw [sameKey]⟩
      · exact wf.placed.chain (shape ▸ List.mem_append_right _ (List.mem_cons_of_mem _ inBack))
  · change t.numEntries = _
    rw [wf.count, split.length_eq, List.length_cons, List.length_cons]

theorem WF.log (wf : t.WF) (record : WALRecord) : (t.log record).WF :=
  ⟨wf.nonempty, wf.placed, wf.distinct, wf.count, wf.tracks⟩

/-- Everything that `remove` can do. -/
theorem WF.remove_cases (wf : t.WF) (key : Bytes) :
    (key ∉ t.entries.map KeyValuePair.key ∧ t.remove key = (t.log (deleteRecord key), false)) ∨
      Exists fun kv => Exists fun rest => kv.key = key ∧ t.entries.Perm (kv :: rest) ∧
        (t.remove key).2 = true ∧ (t.remove key).1.WF ∧ (t.remove key).1.entries.Perm rest ∧
        (t.remove key).1.walWriter = (t.log (deleteRecord key)).walWriter ∧
        (t.remove key).1.policy.memoryLimit = t.policy.memoryLimit := by
  have logged := wf.log (deleteRecord key)
  unfold HashTable.remove
  simp only
  cases found : locate key ((t.log (deleteRecord key)).chain key) with
  | none => exact Or.inl ⟨(logged.not_located found ⟨key, ValueEntry.new [] 0, 0⟩).1, rfl⟩
  | some parts =>
      rcases parts with ⟨front, kv, back⟩
      have sameKey := (locate_eq_some found).2
      have shape := (locate_eq_some found).1
      rcases logged.located found with ⟨rest, split, replaced⟩
      change t.entries.Perm _ at split
      have removed := replaced []
      rw [List.nil_append, List.nil_append] at removed
      rcases distinct_of_perm_cons wf.distinct split with ⟨absent, distinct⟩
      refine Or.inr ⟨kv, rest, sameKey, split, rfl, ?_, removed, rfl,
        Policy.memoryLimit_onDelete _ _ _⟩
      apply logged.setChain _ removed distinct
      · change t.numEntries - 1 = _
        rw [wf.count, split.length_eq, List.length_cons, Nat.add_sub_cancel]
      · change (t.policy.onDelete key _).Tracks rest
        rw [← sameKey]
        exact (wf.tracks.perm wf.distinct split).onDelete absent
      · intro other member
        apply logged.placed.chain
        rw [shape]
        rcases List.mem_append.mp member with inFront | inBack
        · exact List.mem_append_left _ inFront
        · exact List.mem_append_right _ (List.mem_cons_of_mem _ inBack)

theorem WF.remove (wf : t.WF) (key : Bytes) : (t.remove key).1.WF := by
  rcases wf.remove_cases key with ⟨_, result⟩ | ⟨kv, rest, _, _, _, removed, _⟩
  · rw [result]
    exact wf.log _
  · exact removed

theorem WF.find_remove (wf : t.WF) (key other : Bytes) :
    (t.remove key).1.find other = if key = other then none else t.find other := by
  rcases wf.remove_cases key with ⟨absent, result⟩ | ⟨kv, rest, sameKey, split, _, removed, perm, _⟩
  · rw [result]
    split
    · rename_i same
      rw [← same]
      exact find_eq_none_iff.mpr absent
    · rfl
  · rcases distinct_of_perm_cons wf.distinct split with ⟨absent, _⟩
    have before : t.find other = _ := find_of_perm_cons wf.distinct split
    have after : (t.remove key).1.find other = _ := find_perm removed.distinct perm
    rw [before, after, ← sameKey]
    split
    · rename_i same
      rw [← same]
      exact find_eq_none_iff.mpr absent
    · rfl

theorem WF.walWriter_remove (wf : t.WF) (key : Bytes) :
    (t.remove key).1.walWriter = t.walWriter.map fun w => w.append (deleteRecord key) := by
  rcases wf.remove_cases key with ⟨_, result⟩ | ⟨kv, rest, _, _, _, _, _, writer, _⟩
  · rw [result]
    rfl
  · exact writer

theorem WF.memoryLimit_remove (wf : t.WF) (key : Bytes) :
    (t.remove key).1.policy.memoryLimit = t.policy.memoryLimit := by
  rcases wf.remove_cases key with ⟨_, result⟩ | ⟨kv, rest, _, _, _, _, _, _, limit⟩
  · rw [result]
    rfl
  · exact limit

theorem WF.numEntries_remove (wf : t.WF) (present : key ∈ t.entries.map KeyValuePair.key) :
    (t.remove key).1.numEntries + 1 = t.numEntries := by
  rcases wf.remove_cases key with ⟨absent, _⟩ | ⟨kv, rest, _, split, _, removed, perm, _⟩
  · exact absurd present absent
  · rw [removed.count, wf.count, perm.length_eq, split.length_eq, List.length_cons]

/-! ## Eviction -/

/-- The table while the policy looks for a victim. -/
theorem WF.candidate (wf : t.WF) :
    ({ t with policy := t.policy.getEvictionCandidate.2 } : HashTable P).WF :=
  ⟨wf.nonempty, wf.placed, wf.distinct, wf.count, wf.tracks.candidate.1⟩

/-- What evictions leave of a table. -/
structure Evicted (t evicted : HashTable P) (victims : List Bytes) : Prop where
  wf : evicted.WF
  stored : forall victim, victim ∈ victims -> victim ∈ t.entries.map KeyValuePair.key
  find : forall key, evicted.find key = if key ∈ victims then none else t.find key
  logged : evicted.walWriter = t.walWriter.map fun w => w.appendAll (victims.map deleteRecord)
  limit : evicted.policy.memoryLimit = t.policy.memoryLimit

theorem find_ne_none_iff :
    t.find key ≠ none <-> key ∈ t.entries.map KeyValuePair.key :=
  find_eq_none_iff.not_left

/-- No victim. -/
theorem Evicted.nil {policy : Policy P} (wf : ({ t with policy := policy } : HashTable P).WF)
    (limit : policy.memoryLimit = t.policy.memoryLimit) :
    Evicted t { t with policy := policy } [] := by
  refine ⟨wf, List.forall_mem_nil _, fun key => ?_, ?_, limit⟩
  · rw [if_neg List.not_mem_nil]
    rfl
  · exact (Option.map_id' (x := t.walWriter)).symm

/-- One more victim, removed before the others. -/
theorem Evicted.cons {t evicted : HashTable P} {victim : Bytes} {victims : List Bytes} (wf : t.WF)
    (stored : victim ∈ t.entries.map KeyValuePair.key)
    (later : Evicted (t.remove victim).1 evicted victims) :
    Evicted t evicted (victim :: victims) := by
  refine ⟨later.wf, ?_, fun key => ?_, ?_, later.limit.trans (wf.memoryLimit_remove victim)⟩
  · refine List.forall_mem_cons.mpr ⟨stored, fun other member => ?_⟩
    have remains := find_ne_none_iff.mpr (later.stored other member)
    rw [wf.find_remove] at remains
    apply find_ne_none_iff.mp
    intro missing
    rw [missing, ite_self] at remains
    exact remains rfl
  · rw [later.find, wf.find_remove, ite_mem_cons]
  · rw [later.logged, wf.walWriter_remove, Option.map_map]
    rfl

/-- What a search for a candidate and the removal of a candidate keep, the loop keeps. -/
theorem evictLoop_invariant (Keeps : HashTable P -> Prop)
    (searched : forall t, Keeps t -> t.policy.getEvictionCandidate.1 = [] ->
      Keeps { t with policy := t.policy.getEvictionCandidate.2 })
    (removed : forall t, Keeps t -> t.policy.getEvictionCandidate.1 ≠ [] ->
      Keeps (({ t with policy := t.policy.getEvictionCandidate.2 } : HashTable P).remove
      t.policy.getEvictionCandidate.1).1)
    (initially : Keeps t) (fuel : Nat) : Keeps (evictLoop fuel t) := by
  induction fuel generalizing t with
  | zero => exact initially
  | succ fuel ih =>
      rw [evictLoop]
      split
      · simp only
        split
        next empty => exact searched t initially empty
        next named => exact ih (removed t initially named)
      · exact initially

theorem evictLoop_evicted (wf : t.WF) (fuel : Nat) :
    Exists fun victims => Evicted t (evictLoop fuel t) victims := by
  induction fuel generalizing t with
  | zero => exact ⟨[], .nil wf rfl⟩
  | succ fuel ih =>
      rw [evictLoop]
      split
      · simp only
        split
        · exact ⟨[], .nil wf.candidate (Policy.memoryLimit_getEvictionCandidate _)⟩
        · rename_i named
          rcases ih (wf.candidate.remove _) with ⟨victims, later⟩
          have evicted := later.cons wf.candidate (wf.tracks.candidate.2 named)
          exact ⟨_, evicted.wf, evicted.stored, evicted.find, evicted.logged,
            evicted.limit.trans (Policy.memoryLimit_getEvictionCandidate _)⟩
      · exact ⟨[], .nil wf rfl⟩

theorem WF.evictIfNeeded (wf : t.WF) :
    Exists fun victims => Evicted t t.evictIfNeeded victims :=
  evictLoop_evicted wf _

/-- Nothing is evicted from a table within its limit. -/
theorem WF.evictIfNeeded_eq (wf : t.WF) (within : storedBytes t.entries ≤ t.policy.memoryLimit) :
    t.evictIfNeeded = t := by
  have calm : ¬ t.policy.shouldEvict = true := fun evicts =>
    Nat.not_lt_of_le within (wf.tracks.shouldEvict_iff.mp evicts)
  rw [HashTable.evictIfNeeded, evictLoop, if_neg calm]

/-! ## Resizing -/

theorem rehashEntry_perm {newCapacity : Nat} {buckets : List Chain} (kv : KeyValuePair)
    (positive : 0 < newCapacity) (length : buckets.length = newCapacity) :
    (rehashEntry newCapacity buckets kv).flatten.Perm (kv :: buckets.flatten) := by
  have inRange : kv.hash.toNat % newCapacity < buckets.length := by
    rw [length]
    exact Nat.mod_lt _ positive
  refine (flatten_set_perm inRange _).trans ?_
  rw [List.append_assoc]
  exact List.perm_middle.trans ((flatten_perm inRange).symm.cons kv)

/-- Entries spread over buckets by their cached hashes. -/
theorem foldl_rehashEntry {newCapacity : Nat} (positive : 0 < newCapacity) (kvs : List KeyValuePair)
    {buckets : List Chain} (length : buckets.length = newCapacity)
    (spread : forall index kv, kv ∈ buckets.getD index [] -> index = kv.hash.toNat % newCapacity) :
    (kvs.foldl (rehashEntry newCapacity) buckets).length = newCapacity ∧
      (kvs.foldl (rehashEntry newCapacity) buckets).flatten.Perm (kvs ++ buckets.flatten) ∧
      forall index kv, kv ∈ (kvs.foldl (rehashEntry newCapacity) buckets).getD index [] ->
        index = kv.hash.toNat % newCapacity := by
  induction kvs generalizing buckets with
  | nil => exact ⟨length, List.Perm.refl _, spread⟩
  | cons first kvs ih =>
      have nextLength : (rehashEntry newCapacity buckets first).length = newCapacity := by
        rw [rehashEntry, List.length_set, length]
      have nextSpread : forall index kv, kv ∈ (rehashEntry newCapacity buckets first).getD index [] ->
          index = kv.hash.toNat % newCapacity := by
        intro index kv member
        rw [rehashEntry, List.getD_eq_getElem?_getD, List.getElem?_set] at member
        split at member
        · rename_i same
          split at member
          · rcases List.mem_append.mp member with old | new
            · exact spread index kv (same ▸ old)
            · rw [← same, List.mem_singleton.mp new]
          · exact False.elim (List.not_mem_nil member)
        · rw [← List.getD_eq_getElem?_getD] at member
          exact spread index kv member
      rcases ih nextLength nextSpread with ⟨finalLength, perm, finalSpread⟩
      refine ⟨finalLength, perm.trans ?_, finalSpread⟩
      exact ((rehashEntry_perm first positive length).append_left kvs).trans List.perm_middle

theorem WF.hash_eq (wf : t.WF) (member : kv ∈ t.entries) :
    kv.hash = P.hash kv.key := by
  rcases List.mem_flatten.mp member with ⟨bucket, inBuckets, inBucket⟩
  rcases List.mem_iff_getElem?.mp inBuckets with ⟨index, found⟩
  have inPlace : kv ∈ t.buckets.getD index [] := by
    rw [List.getD_eq_getElem?_getD, found]
    exact inBucket
  exact (wf.placed index kv inPlace).1

theorem WF.rehash (wf : t.WF) {newCapacity : Nat} (positive : 0 < newCapacity) :
    (t.rehash newCapacity).WF ∧ (t.rehash newCapacity).entries.Perm t.entries := by
  have blank : forall index kv, kv ∈ (List.replicate newCapacity ([] : Chain)).getD index [] ->
      index = kv.hash.toNat % newCapacity := by
    intro index kv member
    rw [List.getD_eq_getElem?_getD, List.getElem?_replicate] at member
    split at member <;> exact False.elim (List.not_mem_nil member)
  rcases foldl_rehashEntry positive t.entries List.length_replicate blank with ⟨length, perm, spread⟩
  change (t.rehash newCapacity).buckets.length = newCapacity at length
  have rearranged : (t.rehash newCapacity).entries.Perm t.entries := by
    refine perm.trans ?_
    rw [List.flatten_replicate_nil, List.append_nil]
  refine ⟨WF.of_perm ?_ ?_ rearranged wf.distinct wf.count wf.tracks, rearranged⟩
  · rw [length]
    exact positive
  · intro index kv member
    have stored : kv ∈ t.entries := by
      apply rearranged.mem_iff.mp
      rw [List.getD_eq_getElem?_getD] at member
      cases found : (t.rehash newCapacity).buckets[index]? with
      | none =>
          rw [found] at member
          exact False.elim (List.not_mem_nil member)
      | some bucket =>
          rw [found] at member
          exact List.mem_flatten.mpr ⟨bucket, List.mem_of_getElem? found, member⟩
    have hash := wf.hash_eq stored
    refine ⟨hash, ?_⟩
    have place := spread index kv member
    rw [bucketIdx, length, ← hash]
    exact place

theorem WF.resizeIfNeeded (wf : t.WF) :
    t.resizeIfNeeded.WF ∧ t.resizeIfNeeded.entries.Perm t.entries ∧
      t.resizeIfNeeded.policy = t.policy ∧
      t.resizeIfNeeded.walWriter = t.walWriter := by
  unfold HashTable.resizeIfNeeded
  split
  · rcases wf.rehash (Nat.mul_pos wf.nonempty Nat.two_pos) with ⟨resized, perm⟩
    exact ⟨resized, perm, rfl, rfl⟩
  · exact ⟨wf, List.Perm.refl _, rfl, rfl⟩

/-! ## Insertion and access -/

/-- The entry that `insert` makes. -/
def entryOf (P : Platform) (key : Bytes) (value : ValueEntry) : KeyValuePair where
  key := key
  value := value
  hash := P.hash key

/-- A table in which one entry was put in the place of its key. -/
theorem find_of_put {t put : HashTable P} {rest : List KeyValuePair} (putWF : put.WF)
    (perm : put.entries.Perm (kv :: rest))
    (others : forall other, kv.key ≠ other -> findKey other rest = t.find other) (other : Bytes) :
    put.find other = if kv.key = other then some kv else t.find other := by
  have found : put.find other = _ := find_of_perm_cons putWF.distinct perm
  rw [found]
  split
  · rfl
  · rename_i different
    exact others other different

theorem WF.store (wf : t.WF) (key : Bytes) (value : ValueEntry) :
    (t.store key value).WF ∧
      (forall other, (t.store key value).find other =
        if key = other then some (entryOf P key value) else t.find other) ∧
      (t.store key value).policy.memoryLimit = t.policy.memoryLimit ∧
      (t.store key value).walWriter = t.walWriter := by
  unfold HashTable.store
  cases found : locate key (t.chain key) with
  | some parts =>
      rcases parts with ⟨front, kv, back⟩
      have sameKey := (locate_eq_some found).2
      rcases wf.located found with ⟨rest, split, replaced⟩
      have absent := (distinct_of_perm_cons wf.distinct split).1
      have entry : ({ key := kv.key, value := value, hash := P.hash key } : KeyValuePair) =
          entryOf P key value := by
        rw [sameKey]
        rfl
      have perm : (t.setChain key (front ++ entryOf P key value :: back)).entries.Perm
          (entryOf P key value :: rest) := replaced [entryOf P key value]
      simp only [entry]
      have forgotten : (t.policy.onDelete kv.key kv.value.value.length).Tracks rest :=
        (wf.tracks.perm wf.distinct split).onDelete absent
      rw [sameKey] at absent forgotten
      have isNew : (entryOf P key value).key ∉ rest.map KeyValuePair.key := absent
      have stored : ({ t.setChain key (front ++ entryOf P key value :: back) with
          policy := (t.policy.onDelete key kv.value.value.length).onInsert key value } :
              HashTable P).WF :=
        wf.replace found split perm rfl rfl (forgotten.onInsert isNew)
      refine ⟨stored, find_of_put stored perm fun other different => ?_, ?_, rfl⟩
      · have before : t.find other = _ := find_of_perm_cons wf.distinct split
        rw [before, if_neg (sameKey ▸ different)]
      · rw [Policy.memoryLimit_onInsert, Policy.memoryLimit_onDelete]
  | none =>
      rcases wf.not_located found (entryOf P key value) with ⟨absent, perm⟩
      have stored : ({ t.setChain key (t.chain key ++ [entryOf P key value]) with
          numEntries := t.numEntries + 1, policy := t.policy.onInsert key value } :
              HashTable P).WF := by
        apply wf.setChain _ perm (List.nodup_cons.mpr ⟨absent, wf.distinct⟩)
        · rw [wf.count, List.length_cons]
        · have isNew : (entryOf P key value).key ∉ t.entries.map KeyValuePair.key := absent
          exact wf.tracks.onInsert isNew
        · intro other member
          rcases List.mem_append.mp member with old | new
          · exact wf.placed.chain old
          · rw [List.mem_singleton.mp new]
            exact ⟨rfl, rfl⟩
      exact ⟨stored, find_of_put stored perm fun _ _ => rfl, Policy.memoryLimit_onInsert _ _ _, rfl⟩

/-- The table without its log. -/
def unlogged (t : HashTable P) : HashTable P := { t with walWriter := none }

theorem unlogged_remove (t : HashTable P) (key : Bytes) :
    (t.remove key).1.unlogged = (t.unlogged.remove key).1.unlogged := by
  have sameChain : ((t.unlogged).log (deleteRecord key)).chain key =
    (t.log (deleteRecord key)).chain key := rfl
  unfold HashTable.remove
  simp only [sameChain]
  split <;> rfl

theorem unlogged_evictLoop (fuel : Nat) (t : HashTable P) :
    (evictLoop fuel t).unlogged = (evictLoop fuel t.unlogged).unlogged := by
  induction fuel generalizing t with
  | zero => rfl
  | succ fuel ih =>
      have samePolicy : t.unlogged.policy = t.policy := rfl
      rw [evictLoop, evictLoop, samePolicy]
      split
      · simp only
        split
        · rfl
        · rw [ih, unlogged_remove, ih (HashTable.remove _ _).1]
          rfl
      · rfl

/-- Logging does not change what is evicted. -/
theorem entries_evictIfNeeded_log (t : HashTable P) (record : WALRecord) :
    (t.log record).evictIfNeeded.entries = t.evictIfNeeded.entries := by
  have same := unlogged_evictLoop (t.numEntries + 1) (t.log record)
  have original := unlogged_evictLoop (t.numEntries + 1) t
  have sameBuckets := congrArg (fun table : HashTable P => table.buckets.flatten)
    (same.trans original.symm)
  exact sameBuckets

/-- The next `insert` evicts the key. -/
def Evicts (t : HashTable P) (key : Bytes) : Prop :=
  t.find key ≠ none ∧ t.evictIfNeeded.find key = none

instance (t : HashTable P) (key : Bytes) : Decidable (t.Evicts key) :=
    inferInstanceAs (Decidable (_ ∧ _))

theorem not_evicts_of_calm {table : HashTable P}
    (calm : (table.entries.all fun kv => !decide (table.Evicts kv.key)) = true) (key : Bytes) :
    ¬ table.Evicts key := by
  intro evicted
  rcases List.mem_map.mp (find_ne_none_iff.mp evicted.1) with ⟨kv, member, rfl⟩
  have kept := List.all_eq_true.mp calm kv member
  rw [decide_eq_true evicted] at kept
  cases kept

theorem Evicted.mem_iff {t evicted : HashTable P} {victims : List Bytes}
    (evictions : Evicted t evicted victims) (key : Bytes) :
    key ∈ victims <-> t.find key ≠ none ∧ evicted.find key = none := by
  constructor
  · intro member
    refine ⟨find_ne_none_iff.mpr (evictions.stored key member), ?_⟩
    rw [evictions.find, if_pos member]
  · rintro ⟨stored, gone⟩
    by_contra notVictim
    rw [evictions.find, if_neg notVictim] at gone
    exact stored gone

theorem WF.find_evictIfNeeded (wf : t.WF) (key : Bytes) :
    t.evictIfNeeded.find key = if t.Evicts key then none else t.find key := by
  rcases wf.evictIfNeeded with ⟨victims, evictions⟩
  rw [evictions.find]
  exact if_congr (evictions.mem_iff key) rfl rfl

/-- What `insert` does: it logs, evicts, and binds the key. -/
theorem WF.insert (wf : t.WF) (key : Bytes) (value : ValueEntry) :
    (t.insert key value).WF ∧
      (forall other, (t.insert key value).find other =
        if key = other then some (entryOf P key value) else t.evictIfNeeded.find other) ∧
      (t.insert key value).policy.memoryLimit = t.policy.memoryLimit ∧
      Exists fun victims : List Bytes => (forall victim, victim ∈ victims <-> t.Evicts victim) ∧
        (t.insert key value).walWriter = t.walWriter.map fun w =>
          w.appendAll (setRecord key value :: victims.map deleteRecord) := by
  rcases (wf.log (setRecord key value)).evictIfNeeded with ⟨victims, evictions⟩
  rcases evictions.wf.resizeIfNeeded with ⟨resized, perm, samePolicy, sameWriter⟩
  rcases resized.store key value with ⟨stored, find, limit, writer⟩
  have sameFind : forall other,
      (t.log (setRecord key value)).evictIfNeeded.find other = t.evictIfNeeded.find other :=
    fun other => congrArg (findKey other) (entries_evictIfNeeded_log t (setRecord key value))
  refine ⟨stored, fun other => ?_, ?_, victims, fun victim => ?_, ?_⟩
  · have resizedFind : _ = (t.log (setRecord key value)).evictIfNeeded.find other :=
      find_perm resized.distinct perm
    rw [← sameFind, ← resizedFind]
    exact find other
  · exact limit.trans ((congrArg Policy.memoryLimit samePolicy).trans evictions.limit)
  · rw [evictions.mem_iff, sameFind]
    rfl
  · refine writer.trans (sameWriter.trans (evictions.logged.trans ?_))
    exact Option.map_map ..

/-- The value and the expiry time stored under a key. -/
def view (t : HashTable P) (key : Bytes) : Option (Bytes × UInt64) :=
  (t.find key).map fun kv => (kv.value.value, kv.value.expiryNs)

theorem view_eq_none_iff : t.view key = none <-> t.find key = none :=
  Option.map_eq_none_iff

/-- Everything that `get` can do. -/
theorem WF.get (wf : t.WF) (key : Bytes) (now accessNow : UInt64) :
    (t.get key now accessNow).1.WF ∧
      (forall other, (t.get key now accessNow).1.view other = t.view other) ∧
      storedBytes (t.get key now accessNow).1.entries = storedBytes t.entries ∧
      (t.get key now accessNow).1.policy.memoryLimit = t.policy.memoryLimit ∧
      (t.get key now accessNow).1.walWriter = t.walWriter := by
  unfold HashTable.get
  cases found : locate key (t.chain key) with
  | none => exact ⟨wf, fun _ => rfl, rfl, rfl, rfl⟩
  | some parts =>
      rcases parts with ⟨front, kv, back⟩
      rcases locate_eq_some found with ⟨shape, sameKey⟩
      rcases wf.located found with ⟨rest, split, replaced⟩
      simp only
      split
      · exact ⟨wf, fun _ => rfl, rfl, rfl, rfl⟩
      · let value : ValueEntry :=
          { kv.value with accessCount := kv.value.accessCount + 1, lastAccessNs := accessNow }
        let accessed : KeyValuePair := { kv with value := value }
        have perm : (t.setChain key (front ++ accessed :: back)).entries.Perm (accessed :: rest) :=
          replaced [accessed]
        have touched : ({ t.setChain key (front ++ accessed :: back) with
            policy := t.policy.onAccess key value } : HashTable P).WF := by
          have place : kv ∈ t.chain key := shape ▸ List.mem_append_right _ List.mem_cons_self
          have absent := (distinct_of_perm_cons wf.distinct split).1
          have tracks : (t.policy.onAccess kv.key accessed.value).Tracks (accessed :: rest) :=
            (wf.tracks.perm wf.distinct split).onAccess absent rfl rfl
          rw [sameKey] at tracks
          exact wf.replace found split perm sameKey (wf.placed.chain place).1 tracks
        refine ⟨touched, fun other => ?_, ?_, Policy.memoryLimit_onAccess _ _ _, rfl⟩
        · have before : t.find other = _ := find_of_perm_cons wf.distinct split
          have after : findKey other (t.setChain key (front ++ accessed :: back)).entries = _ :=
            find_of_perm_cons touched.distinct perm
          unfold view
          rw [before]
          refine (congrArg (Option.map _) after).trans ?_
          split <;> rfl
        · have before : storedBytes t.entries = _ := total_perm split
          rw [before]
          refine (total_perm perm).trans ?_
          rw [total_cons, total_cons]
          rfl

/-! ## New tables -/

theorem growCapacity_pos (initialCapacity fuel capacity : Nat) (positive : 0 < capacity) :
    0 < growCapacity initialCapacity fuel capacity := by
  induction fuel generalizing capacity with
  | zero => exact positive
  | succ fuel ih =>
      rw [growCapacity]
      split
      · exact ih _ (Nat.mul_pos Nat.two_pos positive)
      · exact positive

theorem entries_new (initialCapacity memoryLimit : Nat) (kind : EvictionPolicy)
    (walFile : Option Bytes) :
    (new initialCapacity memoryLimit kind walFile : HashTable P).entries = [] := by
  cases walFile <;> exact List.flatten_replicate_nil

theorem wf_new (initialCapacity memoryLimit : Nat) (kind : EvictionPolicy)
    (walFile : Option Bytes) :
    (new initialCapacity memoryLimit kind walFile : HashTable P).WF := by
  have fresh : (new initialCapacity memoryLimit kind none : HashTable P).WF := by
    have empty : (new initialCapacity memoryLimit kind none : HashTable P).entries = [] :=
      entries_new ..
    constructor
    · change 0 < (List.replicate _ _).length
      rw [List.length_replicate]
      exact growCapacity_pos _ _ _ Nat.one_pos
    · intro index kv member
      change kv ∈ (List.replicate _ []).getD index [] at member
      rw [List.getD_eq_getElem?_getD, List.getElem?_replicate] at member
      split at member <;> exact False.elim (List.not_mem_nil member)
    · rw [empty]
      exact List.nodup_nil
    · rw [empty]
      rfl
    · rw [empty]
      exact Policy.tracks_new kind memoryLimit
  cases walFile with
  | none => exact fresh
  | some file => exact ⟨fresh.nonempty, fresh.placed, fresh.distinct, fresh.count, fresh.tracks⟩

@[simp] theorem find_new (initialCapacity memoryLimit : Nat) (kind : EvictionPolicy)
    (walFile : Option Bytes) (key : Bytes) :
    (new initialCapacity memoryLimit kind walFile : HashTable P).find key = none := by
  rw [HashTable.find, entries_new]
  rfl

@[simp] theorem memoryLimit_new (initialCapacity memoryLimit : Nat) (kind : EvictionPolicy)
    (walFile : Option Bytes) :
    (new initialCapacity memoryLimit kind walFile : HashTable P).policy.memoryLimit = memoryLimit := by
  cases walFile <;> exact Policy.memoryLimit_new kind memoryLimit

/-! ## Stored bytes -/

/-- A table whose map lies below the map of another stores no more bytes. -/
theorem WF.storedBytes_le {t other : HashTable P} (wf : t.WF)
    (below : forall key, t.view key ≠ none -> t.view key = other.view key) :
    storedBytes t.entries ≤ storedBytes other.entries := by
  apply total_le_total wf.distinct
  intro kv member
  have found : t.find kv.key = some kv := (find_eq_some_iff wf.distinct).mpr ⟨member, rfl⟩
  have here : t.view kv.key = some (kv.value.value, kv.value.expiryNs) :=
    congrArg (Option.map _) found
  have there := below kv.key (here ▸ Option.some_ne_none _)
  rw [here] at there
  rcases Option.map_eq_some_iff.mp there.symm with ⟨image, imageFound, sameView⟩
  rcases mem_of_find imageFound with ⟨imageMember, imageKey⟩
  refine ⟨image, imageMember, imageKey, ?_⟩
  rw [KeyValuePair.size, KeyValuePair.size, (Prod.mk.inj sameView).1]

/-- Nothing is evicted from a table within its limit. -/
theorem WF.not_evicts (wf : t.WF) (within : storedBytes t.entries ≤ t.policy.memoryLimit)
    (key : Bytes) : ¬ t.Evicts key := by
  rintro ⟨stored, gone⟩
  rw [wf.evictIfNeeded_eq within] at gone
  exact stored gone

/-- An `insert` adds at most the bytes of its value to what the evictions leave. -/
theorem WF.storedBytes_insert_le (wf : t.WF) (key : Bytes) (value : ValueEntry) :
    storedBytes (t.insert key value).entries ≤
        value.value.length + storedBytes t.evictIfNeeded.entries := by
  rcases wf.insert key value with ⟨inserted, find, _⟩
  have bound : storedBytes (t.insert key value).entries ≤
      storedBytes (entryOf P key value :: t.evictIfNeeded.entries) := by
    apply total_le_total inserted.distinct
    intro kv member
    have found : (t.insert key value).find kv.key = some kv :=
      (find_eq_some_iff inserted.distinct).mpr ⟨member, rfl⟩
    refine ⟨kv, ?_, rfl, Nat.le_refl _⟩
    rw [find kv.key] at found
    split at found
    · cases found
      exact List.mem_cons_self
    · exact List.mem_cons_of_mem _ (mem_of_find found).1
  rw [storedBytes, storedBytes, total_cons] at bound
  exact bound

theorem WF.storedBytes_insert (wf : t.WF) (within : storedBytes t.entries ≤ t.policy.memoryLimit)
    (key : Bytes) (value : ValueEntry) :
    storedBytes (t.insert key value).entries ≤ value.value.length + storedBytes t.entries := by
  have bound := wf.storedBytes_insert_le key value
  rw [wf.evictIfNeeded_eq within] at bound
  exact bound

/-- An `insert` of a new key that evicts nothing adds the bytes of its value. -/
theorem WF.storedBytes_insert_new (wf : t.WF)
    (within : storedBytes t.entries ≤ t.policy.memoryLimit) (missing : t.find key = none)
    (value : ValueEntry) :
    storedBytes (t.insert key value).entries = value.value.length + storedBytes t.entries := by
  apply Nat.le_antisymm (wf.storedBytes_insert within key value)
  rcases wf.insert key value with ⟨inserted, find, _⟩
  have distinct : ((entryOf P key value :: t.entries).map KeyValuePair.key).Nodup :=
    List.nodup_cons.mpr ⟨find_eq_none_iff.mp missing, wf.distinct⟩
  have bound : storedBytes (entryOf P key value :: t.entries) ≤
      storedBytes (t.insert key value).entries := by
    apply total_le_total distinct
    intro kv member
    have found : (t.insert key value).find kv.key = some kv := by
      rw [find kv.key, wf.evictIfNeeded_eq within]
      rcases List.mem_cons.mp member with rfl | old
      · exact if_pos rfl
      · have isOld : t.find kv.key = some kv := (find_eq_some_iff wf.distinct).mpr ⟨old, rfl⟩
        rw [if_neg, isOld]
        rintro rfl
        rw [missing] at isOld
        cases isOld
    exact ⟨kv, (mem_of_find found).1, rfl, Nat.le_refl _⟩
  rw [storedBytes, storedBytes, total_cons] at bound
  exact bound

end HashTable

/-! ## The hash function of the source -/

/-- `HashTable::hash`. -/
def hashKey (key : Bytes) : UInt64 :=
  let h := key.foldl (fun h c => (h ^^^ c.toUInt64) * 0x100000001b3) 0x9e3779b97f4a7c15
  let h := h ^^^ (h >>> 33)
  let h := h * 0xff51afd7ed558ccd
  let h := h ^^^ (h >>> 33)
  let h := h * 0xc4ceb9fe1a85ec53
  h ^^^ (h >>> 33)

/-- The hash function of the source, with a heap that keeps its entries in order. -/
def Platform.source : Platform where
  hash := hashKey
  heap := PriorityQueue.ordered LFUEntry _

end Engine
end KVStore
