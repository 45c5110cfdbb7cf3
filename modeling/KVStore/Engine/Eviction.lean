import KVStore.Library.Framing
import KVStore.Library.Keyed
import KVStore.Library.PriorityQueue

namespace KVStore
namespace Engine

open Function Keyed

/-!
# Eviction policies

`LRUPolicy` and `LFUPolicy`, which the hash table informs of every insertion,
access and removal and asks for a key to evict.  The list of the first is
modelled with explicit nodes, because `key_to_iter_` refers to them; the heap
of the second is any priority queue.  The loop of the second over its heap has
as much fuel as the heap has elements, which `ends_popCurrent` shows to be
enough.

A policy tracks the entries of a table when its records name exactly the keys
of the table and `current_memory_` is the sum of the sizes of their values.
The operations of the table keep that, whichever policy it uses.
-/

/-! ## Entries -/

structure ValueEntry where
  value : Bytes
  accessCount : UInt64
  lastAccessNs : UInt64
  expiryNs : UInt64
  deriving DecidableEq, Repr

/-- The constructor `ValueEntry(val, ttl_ns)`. -/
def ValueEntry.new (value : Bytes) (ttlNs : UInt64) : ValueEntry where
  value := value
  accessCount := 0
  lastAccessNs := 0
  expiryNs := ttlNs

structure KeyValuePair where
  key : Bytes
  value : ValueEntry
  hash : UInt64
  deriving DecidableEq, Repr

/-- The bytes that a value occupies. -/
def KeyValuePair.size (kv : KeyValuePair) : Nat := kv.value.value.length

/-- The sum of the sizes of the stored values. -/
def storedBytes (entries : List KeyValuePair) : Nat := total KeyValuePair.size entries

abbrev findKey (key : Bytes) (entries : List KeyValuePair) : Option KeyValuePair :=
  find KeyValuePair.key key entries

/-! ## Least recently used -/

structure LRUEntry where
  key : Bytes
  lastAccessNs : UInt64
  valueSize : Nat

/-- The nodes of `access_list_` are numbered in the order of their creation; an
iterator is the number of its node. -/
structure LRUPolicy where
  memoryLimit : Nat
  currentMemory : Nat
  accessList : List (Nat × LRUEntry)
  keyToIter : Bytes -> Option Nat
  nextNode : Nat

/-- The subtraction from `current_memory_`, clamped at zero. -/
def releaseMemory (currentMemory valueSize : Nat) : Nat :=
  if currentMemory ≥ valueSize then currentMemory - valueSize else 0

namespace LRUPolicy

def new (memoryLimit : Nat) : LRUPolicy where
  memoryLimit := memoryLimit
  currentMemory := 0
  accessList := []
  keyToIter := fun _ => none
  nextNode := 0

/-- `access_list_.push_front(entry); key_to_iter_[key] = access_list_.begin()`. -/
def pushFront (p : LRUPolicy) (key : Bytes) (entry : LRUEntry) : LRUPolicy :=
  { p with
    accessList := (p.nextNode, entry) :: p.accessList
    keyToIter := update p.keyToIter key (some p.nextNode)
    nextNode := p.nextNode + 1 }

/-- `access_list_.erase(iter)`. -/
def eraseNode (p : LRUPolicy) (node : Nat) : LRUPolicy :=
  { p with accessList := p.accessList.eraseP fun item => item.1 = node }

def onAccess (p : LRUPolicy) (key : Bytes) (lastAccessNs : UInt64) : LRUPolicy :=
  match p.keyToIter key with
  | none => p
  | some node =>
      match p.accessList.find? fun item => item.1 = node with
      | none => p
      | some item => (p.eraseNode node).pushFront key { item.2 with lastAccessNs := lastAccessNs }

def onInsert (p : LRUPolicy) (key : Bytes) (valueSize : Nat) (lastAccessNs : UInt64) : LRUPolicy :=
  let pushed := p.pushFront key { key := key, lastAccessNs := lastAccessNs, valueSize := valueSize }
  { pushed with currentMemory := pushed.currentMemory + valueSize }

def onDelete (p : LRUPolicy) (key : Bytes) (valueSize : Nat) : LRUPolicy :=
  match p.keyToIter key with
  | none => p
  | some node =>
      { p.eraseNode node with
        keyToIter := update p.keyToIter key none
        currentMemory := releaseMemory p.currentMemory valueSize }

def getEvictionCandidate (p : LRUPolicy) : Bytes :=
  match p.accessList.getLast? with
  | none => []
  | some item => item.2.key

def shouldEvict (p : LRUPolicy) : Bool := decide (p.currentMemory > p.memoryLimit)

/-- The list has one node for each of the keys, and the map leads to it.  While
the node of one key is being replaced, the map may still name its old node. -/
structure Linked (p : LRUPolicy) (stale : Bytes -> Prop) (keys : List Bytes) : Prop where
  nodes : (p.accessList.map Prod.fst).Nodup
  created : forall item, item ∈ p.accessList -> item.1 < p.nextNode
  keys : (p.accessList.map fun item => item.2.key).Perm keys
  iterators : forall key node, ¬ stale key -> (p.keyToIter key = some node <->
    Exists fun entry => (node, entry) ∈ p.accessList ∧ entry.key = key)

variable {p : LRUPolicy}

/-- The node of a key, as the map has it. -/
theorem Linked.node {key : Bytes} {rest : List Bytes}
    (linked : p.Linked (fun _ => False) (key :: rest)) :
    Exists fun node => Exists fun entry => p.keyToIter key = some node ∧
      (node, entry) ∈ p.accessList ∧
      entry.key = key := by
  have listed : key ∈ p.accessList.map fun item => item.2.key :=
    linked.keys.mem_iff.mpr List.mem_cons_self
  rcases List.mem_map.mp listed with ⟨⟨node, entry⟩, member, sameKey⟩
  exact ⟨node, entry, (linked.iterators key node id).mpr ⟨entry, member, sameKey⟩, member, sameKey⟩

theorem Linked.eraseNode {key : Bytes} {rest : List Bytes} {node : Nat} {entry : LRUEntry}
    (linked : p.Linked (fun _ => False) (key :: rest)) (member : (node, entry) ∈ p.accessList)
    (sameKey : entry.key = key) : (p.eraseNode node).Linked (fun other => other = key) rest := by
  have split : p.accessList.Perm ((node, entry) :: (p.eraseNode node).accessList) := by
    rcases List.exists_of_eraseP (p := fun item : Nat × LRUEntry => decide (item.1 = node)) member
      (by simp) with ⟨item, front, back, _, isNode, whole, erased⟩
    have sameItem : item = (node, entry) := by
      apply List.inj_on_of_nodup_map linked.nodes _ member (by simpa using isNode)
      rw [whole]
      exact List.mem_append_right _ List.mem_cons_self
    rw [LRUPolicy.eraseNode, erased, whole, sameItem]
    exact List.perm_middle
  have sublist : ((p.eraseNode node).accessList).Sublist p.accessList := List.eraseP_sublist
  constructor
  · exact linked.nodes.sublist (sublist.map Prod.fst)
  · exact fun item inRest => linked.created item (sublist.subset inRest)
  · have keys := (split.map fun item => item.2.key).symm.trans linked.keys
    rw [List.map_cons, sameKey] at keys
    exact keys.cons_inv
  · intro other otherNode notStale
    change p.keyToIter other = some otherNode <-> _
    rw [linked.iterators other otherNode id]
    constructor
    · rintro ⟨found, inList, foundKey⟩
      refine ⟨found, ?_, foundKey⟩
      rcases List.mem_cons.mp (split.mem_iff.mp inList) with same | inRest
      · cases same
        exact absurd (foundKey.symm.trans sameKey) notStale
      · exact inRest
    · rintro ⟨found, inRest, foundKey⟩
      exact ⟨found, sublist.subset inRest, foundKey⟩

theorem Linked.pushFront {key : Bytes} {rest : List Bytes} {entry : LRUEntry}
    (linked : p.Linked (fun other => other = key) rest) (absent : key ∉ rest)
    (sameKey : entry.key = key) :
    (p.pushFront key entry).Linked (fun _ => False) (key :: rest) := by
  constructor
  · refine List.nodup_cons.mpr ⟨fun reused => ?_, linked.nodes⟩
    rcases List.mem_map.mp reused with ⟨item, member, sameNode⟩
    exact Nat.lt_irrefl _ (sameNode ▸ linked.created item member)
  · intro item member
    rcases List.mem_cons.mp member with rfl | inRest
    · exact Nat.lt_succ_self _
    · exact Nat.lt_succ_of_lt (linked.created item inRest)
  · change (entry.key :: _).Perm _
    rw [sameKey]
    exact linked.keys.cons key
  · intro other node _
    change update p.keyToIter key (some p.nextNode) other = some node <-> _
    by_cases same : other = key
    · rw [same, update_self, Option.some.injEq]
      constructor
      · rintro rfl
        exact ⟨entry, List.mem_cons_self, sameKey⟩
      · rintro ⟨found, member, foundKey⟩
        rcases List.mem_cons.mp member with new | inRest
        · cases new
          rfl
        · refine absurd (linked.keys.mem_iff.mp ?_) absent
          exact List.mem_map.mpr ⟨(node, found), inRest, foundKey⟩
    · rw [update_of_ne same, linked.iterators other node same]
      constructor
      · rintro ⟨found, member, foundKey⟩
        exact ⟨found, List.mem_cons_of_mem _ member, foundKey⟩
      · rintro ⟨found, member, foundKey⟩
        rcases List.mem_cons.mp member with new | inRest
        · cases new
          exact absurd (foundKey.symm.trans sameKey) same
        · exact ⟨found, inRest, foundKey⟩

theorem Linked.forget {key : Bytes} {rest : List Bytes}
    (linked : p.Linked (fun other => other = key) rest) (absent : key ∉ rest) (memory : Nat) :
    ({ p with keyToIter := update p.keyToIter key none, currentMemory := memory } :
      LRUPolicy).Linked
      (fun _ => False) rest := by
  refine ⟨linked.nodes, linked.created, linked.keys, fun other node _ => ?_⟩
  change update p.keyToIter key none other = some node <-> _
  by_cases same : other = key
  · rw [same, update_self]
    constructor
    · exact fun impossible => nomatch impossible
    · rintro ⟨found, member, foundKey⟩
      refine absurd (linked.keys.mem_iff.mp ?_) absent
      exact List.mem_map.mpr ⟨(node, found), member, foundKey⟩
  · rw [update_of_ne same]
    exact linked.iterators other node same

/-- The policy tracks the entries of a table. -/
structure Tracks (p : LRUPolicy) (entries : List KeyValuePair) : Prop where
  linked : p.Linked (fun _ => False) (entries.map KeyValuePair.key)
  memory : p.currentMemory = storedBytes entries

theorem Tracks.onDelete {kv : KeyValuePair} {rest : List KeyValuePair}
    (tracks : p.Tracks (kv :: rest)) (absent : kv.key ∉ rest.map KeyValuePair.key) :
    (p.onDelete kv.key kv.size).Tracks rest := by
  rcases tracks.linked.node with ⟨node, entry, iterator, member, sameKey⟩
  have memory : releaseMemory p.currentMemory kv.size = storedBytes rest := by
    rw [tracks.memory, releaseMemory, storedBytes, total_cons, if_pos (Nat.le_add_right _ _),
      Nat.add_sub_cancel_left]
    rfl
  simp only [LRUPolicy.onDelete, iterator]
  exact ⟨(tracks.linked.eraseNode member sameKey).forget absent _, memory⟩

theorem Tracks.onInsert {kv : KeyValuePair} {rest : List KeyValuePair} (tracks : p.Tracks rest)
    (absent : kv.key ∉ rest.map KeyValuePair.key) (lastAccessNs : UInt64) :
    (p.onInsert kv.key kv.size lastAccessNs).Tracks (kv :: rest) := by
  have unlinked : p.Linked (fun other => other = kv.key) (rest.map KeyValuePair.key) :=
    ⟨tracks.linked.nodes, tracks.linked.created, tracks.linked.keys,
      fun key node _ => tracks.linked.iterators key node id⟩
  have entryKey : ({ key := kv.key, lastAccessNs := lastAccessNs, valueSize := kv.size } :
    LRUEntry).key = kv.key := rfl
  have pushed := unlinked.pushFront absent entryKey
  refine ⟨⟨pushed.nodes, pushed.created, pushed.keys, pushed.iterators⟩, ?_⟩
  change p.currentMemory + kv.size = _
  rw [tracks.memory, storedBytes, storedBytes, total_cons, Nat.add_comm]

theorem Tracks.onAccess {kv accessed : KeyValuePair} {rest : List KeyValuePair}
    (tracks : p.Tracks (kv :: rest)) (absent : kv.key ∉ rest.map KeyValuePair.key)
    (sameKey : accessed.key = kv.key) (sameSize : accessed.size = kv.size) (lastAccessNs : UInt64) :
    (p.onAccess kv.key lastAccessNs).Tracks (accessed :: rest) := by
  rcases tracks.linked.node with ⟨node, entry, iterator, member, entryKey⟩
  have found : (p.accessList.find? fun item => item.1 = node) = some (node, entry) :=
    (find_eq_some_iff tracks.linked.nodes).mpr ⟨member, rfl⟩
  simp only [LRUPolicy.onAccess, iterator, found]
  constructor
  · rw [List.map_cons, sameKey]
    exact (tracks.linked.eraseNode member entryKey).pushFront absent entryKey
  · change p.currentMemory = _
    rw [tracks.memory, storedBytes, storedBytes, total_cons, total_cons, sameSize]

theorem Tracks.perm {entries others : List KeyValuePair} (tracks : p.Tracks entries)
    (rearranged : entries.Perm others) : p.Tracks others :=
  ⟨⟨tracks.linked.nodes, tracks.linked.created, tracks.linked.keys.trans (rearranged.map _),
    tracks.linked.iterators⟩, tracks.memory.trans (total_perm rearranged)⟩

/-- A candidate is a key of the table. -/
theorem Tracks.candidate {entries : List KeyValuePair} (tracks : p.Tracks entries)
    (named : p.getEvictionCandidate ≠ []) :
    p.getEvictionCandidate ∈ entries.map KeyValuePair.key := by
  unfold getEvictionCandidate at named ⊢
  cases last : p.accessList.getLast? with
  | none =>
      rw [last] at named
      exact absurd rfl named
  | some item =>
      exact tracks.linked.keys.mem_iff.mp (List.mem_map.mpr ⟨item, List.mem_of_getLast? last, rfl⟩)

theorem tracks_new (memoryLimit : Nat) : (new memoryLimit).Tracks [] :=
  ⟨⟨List.nodup_nil, List.forall_mem_nil _, List.Perm.refl _,
    fun _ _ _ => ⟨(nomatch ·), fun ⟨_, member, _⟩ => False.elim (List.not_mem_nil member)⟩⟩, rfl⟩

end LRUPolicy

/-! ## Least frequently used -/

structure LFUEntry where
  key : Bytes
  accessCount : UInt64
  valueSize : Nat

/-- What the source takes from its platform: the hash of a key, and the heap of
`std::priority_queue`, whose order among equal counts is not specified. -/
structure Platform where
  hash : Bytes -> UInt64
  heap : PriorityQueue LFUEntry fun entry => entry.accessCount.toNat

variable {P : Platform}

structure LFUPolicy (P : Platform) where
  memoryLimit : Nat
  currentMemory : Nat
  heap : P.heap.Carrier
  keyToCount : Bytes -> Option UInt64
  keyToSize : Bytes -> Option Nat

namespace LFUPolicy

def new (memoryLimit : Nat) : LFUPolicy P where
  memoryLimit := memoryLimit
  currentMemory := 0
  heap := P.heap.empty
  keyToCount := fun _ => none
  keyToSize := fun _ => none

def onAccess (p : LFUPolicy P) (key : Bytes) (accessCount : UInt64) : LFUPolicy P :=
  match p.keyToCount key with
  | none => p
  | some _ =>
      let valueSize := (p.keyToSize key).getD 0
      { p with
        keyToCount := update p.keyToCount key (some accessCount)
        keyToSize := update p.keyToSize key (some valueSize)
        heap := P.heap.push p.heap
          { key := key, accessCount := accessCount, valueSize := valueSize } }

def onInsert (p : LFUPolicy P) (key : Bytes) (valueSize : Nat) (accessCount : UInt64) :
    LFUPolicy P :=
  { p with
    keyToCount := update p.keyToCount key (some accessCount)
    keyToSize := update p.keyToSize key (some valueSize)
    heap := P.heap.push p.heap { key := key, accessCount := accessCount, valueSize := valueSize }
    currentMemory := p.currentMemory + valueSize }

def onDelete (p : LFUPolicy P) (key : Bytes) (valueSize : Nat) : LFUPolicy P :=
  match p.keyToCount key with
  | none => p
  | some _ =>
      { p with
        keyToCount := update p.keyToCount key none
        keyToSize := update p.keyToSize key none
        currentMemory := releaseMemory p.currentMemory valueSize }

/-- The loop of `get_eviction_candidate`: pop until an entry is current. -/
def popCurrent (keyToCount : Bytes -> Option UInt64) :
    Nat -> P.heap.Carrier -> Bytes × P.heap.Carrier
  | 0, heap => ([], heap)
  | fuel + 1, heap =>
      match P.heap.pop heap with
      | none => ([], heap)
      | some (top, rest) =>
          if keyToCount top.key = some top.accessCount then (top.key, rest)
          else popCurrent keyToCount fuel rest

def getEvictionCandidate (p : LFUPolicy P) : Bytes × LFUPolicy P :=
  let popped := popCurrent p.keyToCount (P.heap.size p.heap) p.heap
  (popped.1, { p with heap := popped.2 })

def shouldEvict (p : LFUPolicy P) : Bool := decide (p.currentMemory > p.memoryLimit)

/-- The policy tracks the entries of a table. -/
structure Tracks (p : LFUPolicy P) (entries : List KeyValuePair) : Prop where
  counts : forall key, p.keyToCount key = (findKey key entries).map fun kv => kv.value.accessCount
  sizes : forall key, p.keyToSize key = (findKey key entries).map KeyValuePair.size
  memory : p.currentMemory = storedBytes entries

variable {rest : List KeyValuePair} {p : LFUPolicy P}

theorem Tracks.onDelete {kv : KeyValuePair} (tracks : p.Tracks (kv :: rest))
    (absent : kv.key ∉ rest.map KeyValuePair.key) :
    (p.onDelete kv.key kv.size).Tracks rest := by
  have tracked : p.keyToCount kv.key = some kv.value.accessCount := by
    rw [tracks.counts, findKey, find_cons_self, Option.map_some]
  have forgets : forall {ν : Type} (old : Bytes -> Option ν) (f : KeyValuePair -> ν),
      (forall key, old key = (findKey key (kv :: rest)).map f) ->
      forall key, update old kv.key none key = (findKey key rest).map f := by
    intro ν old f agrees key
    by_cases same : key = kv.key
    · rw [same, update_self, findKey, find_eq_none_iff.mpr absent, Option.map_none]
    · rw [update_of_ne same, agrees, findKey, find_cons_of_ne (Ne.symm same)]
  simp only [LFUPolicy.onDelete, tracked]
  refine ⟨forgets _ _ tracks.counts, forgets _ _ tracks.sizes, ?_⟩
  change releaseMemory p.currentMemory kv.size = _
  rw [tracks.memory, releaseMemory, storedBytes, total_cons, if_pos (Nat.le_add_right _ _),
    Nat.add_sub_cancel_left]
  rfl

/-- A map that is updated at the key of a new first entry. -/
theorem update_eq_find_cons {ν : Type} {old : Bytes -> Option ν} {f : KeyValuePair -> ν}
    (kv : KeyValuePair) (agrees : forall key, key ≠ kv.key -> old key = (findKey key rest).map f)
    (key : Bytes) :
    update old kv.key (some (f kv)) key = (findKey key (kv :: rest)).map f := by
  by_cases same : key = kv.key
  · rw [same, update_self, findKey, find_cons_self, Option.map_some]
  · rw [update_of_ne same, agrees key same]
    exact congrArg (Option.map f) (find_cons_of_ne (Ne.symm same)).symm

theorem Tracks.onInsert {kv : KeyValuePair} (tracks : p.Tracks rest) :
    (p.onInsert kv.key kv.size kv.value.accessCount).Tracks (kv :: rest) := by
  refine ⟨update_eq_find_cons kv fun key _ => tracks.counts key,
    update_eq_find_cons kv fun key _ => tracks.sizes key, ?_⟩
  change p.currentMemory + kv.size = _
  rw [tracks.memory, storedBytes, storedBytes, total_cons, Nat.add_comm]

theorem Tracks.onAccess {kv accessed : KeyValuePair} (tracks : p.Tracks (kv :: rest))
    (sameKey : accessed.key = kv.key) (sameSize : accessed.size = kv.size) :
    (p.onAccess kv.key accessed.value.accessCount).Tracks (accessed :: rest) := by
  have tracked : p.keyToCount kv.key = some kv.value.accessCount := by
    rw [tracks.counts, findKey, find_cons_self, Option.map_some]
  have size : (p.keyToSize kv.key).getD 0 = accessed.size := by
    rw [tracks.sizes, findKey, find_cons_self, Option.map_some, sameSize]
    rfl
  simp only [LFUPolicy.onAccess, tracked, size]
  rw [← sameKey]
  have others : forall key, key ≠ accessed.key -> findKey key (kv :: rest) = findKey key rest :=
    fun key different => find_cons_of_ne (sameKey ▸ Ne.symm different)
  constructor
  · apply update_eq_find_cons accessed
    intro key different
    rw [tracks.counts, others key different]
  · apply update_eq_find_cons accessed
    intro key different
    rw [tracks.sizes, others key different]
  · change p.currentMemory = _
    rw [tracks.memory, storedBytes, storedBytes, total_cons, total_cons, sameSize]

theorem Tracks.perm {entries others : List KeyValuePair} (tracks : p.Tracks entries)
    (distinct : (entries.map KeyValuePair.key).Nodup) (rearranged : entries.Perm others) :
    p.Tracks others := by
  refine ⟨fun key => ?_, fun key => ?_, tracks.memory.trans (total_perm rearranged)⟩
  · rw [tracks.counts, findKey, find_perm distinct rearranged]
  · rw [tracks.sizes, findKey, find_perm distinct rearranged]

theorem popCurrent_key {keyToCount : Bytes -> Option UInt64} {fuel : Nat}
    {heap rest : P.heap.Carrier} {key : Bytes}
    (popped : popCurrent keyToCount fuel heap = (key, rest)) (named : key ≠ []) :
    keyToCount key ≠ none := by
  induction fuel generalizing heap with
  | zero =>
      cases popped
      exact absurd rfl named
  | succ fuel ih =>
      rw [popCurrent] at popped
      split at popped
      · cases popped
        exact absurd rfl named
      · split at popped
        · rename_i current
          cases popped
          rw [current]
          exact Option.some_ne_none _
        · exact ih popped

/-- Looking for a candidate leaves the records in place, and a candidate is a
key of the table. -/
theorem Tracks.candidate {entries : List KeyValuePair} (tracks : p.Tracks entries) :
    p.getEvictionCandidate.2.Tracks entries ∧
      (p.getEvictionCandidate.1 ≠ [] -> p.getEvictionCandidate.1 ∈ entries.map KeyValuePair.key) := by
  refine ⟨⟨tracks.counts, tracks.sizes, tracks.memory⟩, fun named => ?_⟩
  have current := popCurrent_key (Prod.mk.eta (p := popCurrent p.keyToCount _ p.heap)).symm named
  by_contra absent
  apply current
  rw [tracks.counts]
  exact congrArg (Option.map _) (find_eq_none_iff.mpr absent)

theorem tracks_new (memoryLimit : Nat) : (new memoryLimit : LFUPolicy P).Tracks [] :=
  ⟨fun _ => rfl, fun _ => rfl, rfl⟩

end LFUPolicy

/-! ## The policy of a table -/

/-- `enum class EvictionPolicy`. -/
inductive EvictionPolicy where
  | lru
  | lfu
  deriving DecidableEq, Repr

/-- The policy object that a table owns: `lru_policy_` or `lfu_policy_`. -/
inductive Policy (P : Platform) where
  | lru (p : LRUPolicy)
  | lfu (p : LFUPolicy P)

namespace Policy

def new (kind : EvictionPolicy) (memoryLimit : Nat) : Policy P :=
  match kind with
  | .lru => .lru (LRUPolicy.new memoryLimit)
  | .lfu => .lfu (LFUPolicy.new memoryLimit)

def memoryLimit : Policy P -> Nat
  | .lru p => p.memoryLimit
  | .lfu p => p.memoryLimit

def onInsert (policy : Policy P) (key : Bytes) (value : ValueEntry) : Policy P :=
  match policy with
  | .lru p => .lru (p.onInsert key value.value.length value.lastAccessNs)
  | .lfu p => .lfu (p.onInsert key value.value.length value.accessCount)

def onDelete (policy : Policy P) (key : Bytes) (valueSize : Nat) : Policy P :=
  match policy with
  | .lru p => .lru (p.onDelete key valueSize)
  | .lfu p => .lfu (p.onDelete key valueSize)

def onAccess (policy : Policy P) (key : Bytes) (value : ValueEntry) : Policy P :=
  match policy with
  | .lru p => .lru (p.onAccess key value.lastAccessNs)
  | .lfu p => .lfu (p.onAccess key value.accessCount)

def getEvictionCandidate (policy : Policy P) : Bytes × Policy P :=
  match policy with
  | .lru p => (p.getEvictionCandidate, .lru p)
  | .lfu p => (p.getEvictionCandidate.1, .lfu p.getEvictionCandidate.2)

def shouldEvict : Policy P -> Bool
  | .lru p => p.shouldEvict
  | .lfu p => p.shouldEvict

def Tracks : Policy P -> List KeyValuePair -> Prop
  | .lru p => p.Tracks
  | .lfu p => p.Tracks

theorem tracks_new (kind : EvictionPolicy) (memoryLimit : Nat) :
    (new kind memoryLimit : Policy P).Tracks [] := by
  cases kind with
  | lru => exact LRUPolicy.tracks_new memoryLimit
  | lfu => exact LFUPolicy.tracks_new memoryLimit

variable {policy : Policy P}

theorem Tracks.onInsert {kv : KeyValuePair} {rest : List KeyValuePair} (tracks : policy.Tracks rest)
    (absent : kv.key ∉ rest.map KeyValuePair.key) :
    (policy.onInsert kv.key kv.value).Tracks (kv :: rest) := by
  cases policy with
  | lru p => exact LRUPolicy.Tracks.onInsert tracks absent _
  | lfu p => exact LFUPolicy.Tracks.onInsert tracks

theorem Tracks.onDelete {kv : KeyValuePair} {rest : List KeyValuePair}
    (tracks : policy.Tracks (kv :: rest)) (absent : kv.key ∉ rest.map KeyValuePair.key) :
    (policy.onDelete kv.key kv.value.value.length).Tracks rest := by
  cases policy with
  | lru p => exact LRUPolicy.Tracks.onDelete tracks absent
  | lfu p => exact LFUPolicy.Tracks.onDelete tracks absent

theorem Tracks.onAccess {kv accessed : KeyValuePair} {rest : List KeyValuePair}
    (tracks : policy.Tracks (kv :: rest)) (absent : kv.key ∉ rest.map KeyValuePair.key)
    (sameKey : accessed.key = kv.key) (sameValue : accessed.value.value = kv.value.value) :
    (policy.onAccess kv.key accessed.value).Tracks (accessed :: rest) := by
  have sameSize : accessed.size = kv.size := congrArg List.length sameValue
  cases policy with
  | lru p => exact LRUPolicy.Tracks.onAccess tracks absent sameKey sameSize _
  | lfu p => exact LFUPolicy.Tracks.onAccess tracks sameKey sameSize

theorem Tracks.perm {entries others : List KeyValuePair} (tracks : policy.Tracks entries)
    (distinct : (entries.map KeyValuePair.key).Nodup) (rearranged : entries.Perm others) :
    policy.Tracks others := by
  cases policy with
  | lru p => exact LRUPolicy.Tracks.perm tracks rearranged
  | lfu p => exact LFUPolicy.Tracks.perm tracks distinct rearranged

theorem Tracks.candidate {entries : List KeyValuePair} (tracks : policy.Tracks entries) :
    policy.getEvictionCandidate.2.Tracks entries ∧
      (policy.getEvictionCandidate.1 ≠ [] ->
        policy.getEvictionCandidate.1 ∈ entries.map KeyValuePair.key) := by
  cases policy with
  | lru p => exact ⟨tracks, LRUPolicy.Tracks.candidate tracks⟩
  | lfu p => exact LFUPolicy.Tracks.candidate tracks

/-- A table evicts when its values exceed the limit. -/
theorem Tracks.shouldEvict_iff {entries : List KeyValuePair} (tracks : policy.Tracks entries) :
    policy.shouldEvict = true <-> policy.memoryLimit < storedBytes entries := by
  cases policy with
  | lru p =>
      change decide (_ > _) = true <-> _
      rw [decide_eq_true_iff, LRUPolicy.Tracks.memory tracks]
      rfl
  | lfu p =>
      change decide (_ > _) = true <-> _
      rw [decide_eq_true_iff, LFUPolicy.Tracks.memory tracks]
      rfl

@[simp] theorem memoryLimit_new (kind : EvictionPolicy) (limit : Nat) :
    (new kind limit : Policy P).memoryLimit = limit := by
  cases kind <;> rfl

@[simp] theorem memoryLimit_onInsert (policy : Policy P) (key : Bytes) (value : ValueEntry) :
    (policy.onInsert key value).memoryLimit = policy.memoryLimit := by
  cases policy <;> rfl

@[simp] theorem memoryLimit_onDelete (policy : Policy P) (key : Bytes) (valueSize : Nat) :
    (policy.onDelete key valueSize).memoryLimit = policy.memoryLimit := by
  cases policy with
  | lru p =>
      change (p.onDelete key valueSize).memoryLimit = p.memoryLimit
      unfold LRUPolicy.onDelete
      split <;> rfl
  | lfu p =>
      change (p.onDelete key valueSize).memoryLimit = p.memoryLimit
      unfold LFUPolicy.onDelete
      split <;> rfl

@[simp] theorem memoryLimit_onAccess (policy : Policy P) (key : Bytes) (value : ValueEntry) :
    (policy.onAccess key value).memoryLimit = policy.memoryLimit := by
  cases policy with
  | lru p =>
      change (p.onAccess key value.lastAccessNs).memoryLimit = p.memoryLimit
      unfold LRUPolicy.onAccess
      split
      · rfl
      · split <;> rfl
  | lfu p =>
      change (p.onAccess key value.accessCount).memoryLimit = p.memoryLimit
      unfold LFUPolicy.onAccess
      split <;> rfl

@[simp] theorem memoryLimit_getEvictionCandidate (policy : Policy P) :
    policy.getEvictionCandidate.2.memoryLimit = policy.memoryLimit := by
  cases policy <;> rfl

end Policy
end Engine
end KVStore
