import KVStore.Engine.Replay
import Mathlib.Algebra.Order.BigOperators.Group.List

namespace KVStore
namespace Engine

open Function Framing Keyed HashTable

variable {P : Platform}

/-!
# What the policies know about a table

A policy keeps records of its own about the entries of its table, and
`insert`, `get`, `remove` and the evictions update them by hand.  The records
are right after every step.

The memory limit rests on more than that.  `evict_if_needed` gives up when the
policy names no candidate, and an empty key is taken for no candidate.  A
policy of the second kind also has to find its candidates in the heap, from
which entries are popped for good.  As long as the empty key is not stored, a
candidate is found whenever the table is not empty, and every `insert` brings
the table below its limit before it adds its value.
-/

/-! ## Records in step with the table -/

namespace Policy

def currentMemory : Policy P -> Nat
  | .lru p => p.currentMemory
  | .lfu p => p.currentMemory

/-- The records of a policy are about the entries.  For the first policy the
list has one node for each key, and the map leads from the key to its node. -/
def InStep (entries : List KeyValuePair) : Policy P -> Prop
  | .lru p =>
      (p.accessList.map fun item => item.2.key).Nodup ∧ (p.accessList.map Prod.fst).Nodup ∧
        (forall key node, p.keyToIter key = some node <->
          Exists fun entry => (node, entry) ∈ p.accessList ∧ entry.key = key) ∧
        forall key, key ∈ (p.accessList.map fun item => item.2.key) <->
          key ∈ entries.map KeyValuePair.key
  | .lfu p =>
      (forall key, p.keyToCount key = (findKey key entries).map fun kv => kv.value.accessCount) ∧
        forall key, p.keyToSize key = (findKey key entries).map KeyValuePair.size

theorem Tracks.inStep {policy : Policy P} {entries : List KeyValuePair}
    (tracks : policy.Tracks entries) (distinct : (entries.map KeyValuePair.key).Nodup) :
    policy.InStep entries := by
  cases policy with
  | lru p =>
      have linked := LRUPolicy.Tracks.linked tracks
      exact ⟨linked.keys.nodup_iff.mpr distinct, linked.nodes,
        fun key node => linked.iterators key node id, fun key => linked.keys.mem_iff⟩
  | lfu p => exact ⟨LFUPolicy.Tracks.counts tracks, LFUPolicy.Tracks.sizes tracks⟩

theorem Tracks.currentMemory {policy : Policy P} {entries : List KeyValuePair}
    (tracks : policy.Tracks entries) :
    policy.currentMemory = storedBytes entries := by
  cases policy with
  | lru p => exact LRUPolicy.Tracks.memory tracks
  | lfu p => exact LFUPolicy.Tracks.memory tracks

end Policy

/-- The calls on a table, and the parts of them that change the table on the
way: a record is logged, and one entry is evicted. -/
inductive TableStep where
  | call (call : TableCall)
  | log (record : WALRecord)
  | evict

def TableStep.apply (t : HashTable P) : TableStep -> HashTable P
  | .call made => made.apply t
  | .log record => t.log record
  | .evict => evictLoop 1 t

def runSteps (t : HashTable P) (steps : List TableStep) : HashTable P :=
  steps.foldl TableStep.apply t

variable {t : HashTable P}

theorem wf_applyStep (wf : t.WF) (step : TableStep) : (step.apply t).WF := by
  cases step with
  | call made => exact wf_apply wf made
  | log record => exact wf.log record
  | evict =>
      rcases evictLoop_evicted wf 1 with ⟨victims, evicted⟩
      exact evicted.wf

theorem wf_runSteps (wf : t.WF) (steps : List TableStep) : (runSteps t steps).WF := by
  induction steps generalizing t with
  | nil => exact wf
  | cons step steps ih => exact ih (wf_applyStep wf step)

theorem HashTable.WF.mem_of_locate (wf : t.WF) {key : Bytes} {front back : Chain}
    {kv : KeyValuePair} (found : locate key (t.chain key) = some (front, kv, back)) :
    kv ∈ t.entries := by
  rcases wf.located found with ⟨rest, split, _⟩
  exact split.mem_iff.mpr List.mem_cons_self

/-- After every step the records of the policy are about the entries of the
table, `current_memory_` is the sum of the sizes of the values, and the size
that `on_delete` would be called with is at most that. -/
theorem TableConfig.policy_in_step (config : TableConfig) (P : Platform) (walFile : Option Bytes)
    (steps : List TableStep) :
    let t := runSteps (config.fresh P walFile) steps
    t.policy.InStep t.entries ∧ t.policy.currentMemory = storedBytes t.entries ∧
      forall key front kv back, locate key (t.chain key) = some (front, kv, back) ->
        kv.value.value.length ≤ t.policy.currentMemory := by
  intro t
  have wf : t.WF := wf_runSteps (config.wf_fresh walFile) steps
  refine ⟨wf.tracks.inStep wf.distinct, wf.tracks.currentMemory, ?_⟩
  intro key front kv back found
  rw [wf.tracks.currentMemory]
  exact List.single_le_sum (fun _ _ => Nat.zero_le _) _ (List.mem_map_of_mem (wf.mem_of_locate found))

/-! ## Candidates in the heap -/

namespace LFUPolicy

/-- Every key that is tracked, the empty one and one other apart, has a current
entry in the heap. -/
def Heaped (p : LFUPolicy P) (popped : Bytes) : Prop :=
  forall key count, key ≠ [] -> key ≠ popped -> p.keyToCount key = some count ->
    Exists fun entry => entry ∈ P.heap.elements p.heap ∧ entry.key = key ∧ entry.accessCount = count

variable {p : LFUPolicy P} {popped : Bytes}

theorem heaped_new (memoryLimit : Nat) : (new memoryLimit : LFUPolicy P).Heaped [] :=
  fun _ _ _ _ tracked => nomatch tracked

/-- The heap after a push, and the count of one key replaced by that of the
new entry. -/
theorem Heaped.push (heaped : p.Heaped popped) {entry : LFUEntry} {next : LFUPolicy P}
    (counts : next.keyToCount = update p.keyToCount entry.key (some entry.accessCount))
    (heap : next.heap = P.heap.push p.heap entry) : next.Heaped popped := by
  intro key count named notPopped tracked
  rw [counts] at tracked
  rw [heap, P.heap.elements_push]
  by_cases same : key = entry.key
  · rw [same, update_self] at tracked
    exact ⟨entry, Multiset.mem_cons_self _ _, same.symm, Option.some.inj tracked⟩
  · rw [update_of_ne same] at tracked
    rcases heaped key count named notPopped tracked with ⟨old, inside, isOld⟩
    exact ⟨old, Multiset.mem_cons_of_mem inside, isOld⟩

theorem Heaped.onInsert (heaped : p.Heaped popped) (key : Bytes) (valueSize : Nat)
    (accessCount : UInt64) :
    (p.onInsert key valueSize accessCount).Heaped popped :=
  heaped.push rfl rfl

theorem Heaped.onAccess (heaped : p.Heaped popped) (key : Bytes) (accessCount : UInt64) :
    (p.onAccess key accessCount).Heaped popped := by
  unfold LFUPolicy.onAccess
  split
  · exact heaped
  · exact heaped.push rfl rfl

/-- A key that is not tracked any more needs no entry. -/
theorem Heaped.onDelete {key : Bytes} (heaped : p.Heaped popped) (valueSize : Nat)
    (forgotten : popped = [] ∨ popped = key) : (p.onDelete key valueSize).Heaped [] := by
  have kept : forall other count, other ≠ [] -> other ≠ key -> p.keyToCount other = some count ->
      Exists fun entry => entry ∈ P.heap.elements p.heap ∧ entry.key = other ∧
          entry.accessCount = count := by
    intro other count named different tracked
    refine heaped other count named ?_ tracked
    rcases forgotten with rfl | rfl
    · exact named
    · exact different
  intro other count named _ tracked
  unfold LFUPolicy.onDelete at tracked ⊢
  split at tracked
  next untracked =>
    refine kept other count named ?_ tracked
    rintro rfl
    rw [untracked] at tracked
    cases tracked
  next =>
    have different : other ≠ key := by
      rintro rfl
      change update p.keyToCount other none other = _ at tracked
      rw [update_self] at tracked
      cases tracked
    change update p.keyToCount key none other = _ at tracked
    rw [update_of_ne different] at tracked
    exact kept other count named different tracked

/-- Only stale entries and the candidate are popped. -/
theorem popCurrent_keeps {keyToCount : Bytes -> Option UInt64} {fuel : Nat} {heap : P.heap.Carrier}
    {entry : LFUEntry} (inside : entry ∈ P.heap.elements heap)
    (current : keyToCount entry.key = some entry.accessCount)
    (other : entry.key ≠ (popCurrent keyToCount fuel heap).1) :
    entry ∈ P.heap.elements (popCurrent keyToCount fuel heap).2 := by
  induction fuel generalizing heap with
  | zero => exact inside
  | succ fuel ih =>
      rw [popCurrent] at other ⊢
      rcases popped : P.heap.pop heap with _ | ⟨top, rest⟩
      · exact inside
      · simp only [popped] at other ⊢
        rw [(P.heap.pop_some popped).1] at inside
        rcases Multiset.mem_cons.mp inside with rfl | behind
        · rw [if_pos current] at other
          exact absurd rfl other
        · by_cases currentTop : keyToCount top.key = some top.accessCount
          · rw [if_pos currentTop]
            exact behind
          · rw [if_neg currentTop] at other ⊢
            exact ih behind other

/-- A current entry makes the loop return a current key, with a count that is not greater. -/
theorem popCurrent_least {keyToCount : Bytes -> Option UInt64} {fuel : Nat} {heap : P.heap.Carrier}
    {entry : LFUEntry} (enough : P.heap.size heap ≤ fuel) (inside : entry ∈ P.heap.elements heap)
    (current : keyToCount entry.key = some entry.accessCount) :
    Exists fun count => keyToCount (popCurrent keyToCount fuel heap).1 = some count ∧
      count.toNat ≤ entry.accessCount.toNat := by
  induction fuel generalizing heap with
  | zero =>
      rw [Multiset.card_eq_zero.mp (Nat.le_zero.mp enough)] at inside
      exact absurd inside (Multiset.notMem_zero _)
  | succ fuel ih =>
      rw [popCurrent]
      rcases popped : P.heap.pop heap with _ | ⟨top, rest⟩
      · rw [P.heap.pop_none popped] at inside
        exact absurd inside (Multiset.notMem_zero _)
      · have fewer := P.heap.size_of_pop popped
        simp only
        split
        next currentTop =>
            exact ⟨top.accessCount, currentTop, (P.heap.pop_some popped).2 entry inside⟩
        next stale =>
          rw [(P.heap.pop_some popped).1] at inside
          rcases Multiset.mem_cons.mp inside with rfl | behind
          · exact absurd current stale
          · exact ih (by omega) behind

theorem Heaped.candidate (heaped : p.Heaped []) :
    p.getEvictionCandidate.2.Heaped p.getEvictionCandidate.1 := by
  intro key count named notPopped tracked
  rcases heaped key count named named tracked with ⟨entry, inside, rfl, rfl⟩
  exact ⟨entry, popCurrent_keeps inside tracked notPopped, rfl, rfl⟩

end LFUPolicy

namespace Policy

/-- The policy finds a candidate as long as there is one, keys that were popped
apart. -/
def Ready (popped : Bytes) : Policy P -> Prop
  | .lru _ => True
  | .lfu p => p.Heaped popped

variable {policy : Policy P} {popped : Bytes}

theorem ready_new (kind : EvictionPolicy) (memoryLimit : Nat) :
    (new kind memoryLimit : Policy P).Ready [] := by
  cases kind with
  | lru => trivial
  | lfu => exact LFUPolicy.heaped_new memoryLimit

theorem Ready.onInsert (ready : policy.Ready popped) (key : Bytes) (value : ValueEntry) :
    (policy.onInsert key value).Ready popped := by
  cases policy with
  | lru p => trivial
  | lfu p => exact LFUPolicy.Heaped.onInsert ready _ _ _

theorem Ready.onAccess (ready : policy.Ready popped) (key : Bytes) (value : ValueEntry) :
    (policy.onAccess key value).Ready popped := by
  cases policy with
  | lru p => trivial
  | lfu p => exact LFUPolicy.Heaped.onAccess ready _ _

theorem Ready.onDelete {key : Bytes} (ready : policy.Ready popped) (valueSize : Nat)
    (forgotten : popped = [] ∨ popped = key) : (policy.onDelete key valueSize).Ready [] := by
  cases policy with
  | lru p => trivial
  | lfu p => exact LFUPolicy.Heaped.onDelete ready valueSize forgotten

theorem Ready.candidate (ready : policy.Ready []) :
    policy.getEvictionCandidate.2.Ready policy.getEvictionCandidate.1 := by
  cases policy with
  | lru p => trivial
  | lfu p => exact LFUPolicy.Heaped.candidate ready

/-- There is a candidate in a table that is not empty and does not store the
empty key. -/
theorem Ready.candidate_ne_nil {entries : List KeyValuePair} (ready : policy.Ready [])
    (tracks : policy.Tracks entries) {kv : KeyValuePair} (stored : kv ∈ entries)
    (free : [] ∉ entries.map KeyValuePair.key) : policy.getEvictionCandidate.1 ≠ [] := by
  have stays : kv.key ∈ entries.map KeyValuePair.key := List.mem_map_of_mem stored
  cases policy with
  | lru p =>
      have keys := (LRUPolicy.Tracks.linked tracks).keys
      change p.getEvictionCandidate ≠ []
      unfold LRUPolicy.getEvictionCandidate
      cases last : p.accessList.getLast? with
      | none =>
          rw [List.getLast?_eq_none_iff.mp last] at keys
          exact absurd (keys.mem_iff.mpr stays) List.not_mem_nil
      | some item =>
          intro empty
          have listed := List.mem_map_of_mem (f := fun item => item.2.key) (List.mem_of_getLast? last)
          exact free (empty ▸ keys.mem_iff.mp listed)
  | lfu p =>
      have counts := LFUPolicy.Tracks.counts tracks
      have untracked : p.keyToCount [] = none := by
        rw [counts]
        exact congrArg (Option.map _) (find_eq_none_iff.mpr free)
      have named : kv.key ≠ [] := by
        intro empty
        exact free (empty ▸ stays)
      cases tracked : p.keyToCount kv.key with
      | none =>
          rw [counts, Option.map_eq_none_iff] at tracked
          exact absurd stays (find_eq_none_iff.mp tracked)
      | some count =>
          rcases ready kv.key count named named tracked with ⟨entry, inside, sameKey, rfl⟩
          rw [← sameKey] at tracked
          intro empty
          rcases LFUPolicy.popCurrent_least (Nat.le_refl _) inside tracked with ⟨_, found, _⟩
          exact Option.some_ne_none _
            (found.symm.trans ((congrArg p.keyToCount empty).trans untracked))

end Policy

/-! ## Evictions bring the table below its limit -/

namespace HashTable

/-- The policy after a `remove` of a stored key. -/
theorem WF.policy_remove (wf : t.WF) {key : Bytes} (stored : key ∈ t.entries.map KeyValuePair.key) :
    Exists fun size => (t.remove key).1.policy = t.policy.onDelete key size := by
  unfold HashTable.remove
  simp only
  cases found : locate key ((t.log (deleteRecord key)).chain key) with
  | none =>
      exact absurd stored ((wf.log (deleteRecord key)).not_located found
        ⟨key, ValueEntry.new [] 0, 0⟩).1
  | some parts => exact ⟨_, rfl⟩

theorem WF.ready_remove (wf : t.WF) (ready : t.policy.Ready []) (key : Bytes) :
    (t.remove key).1.policy.Ready [] := by
  rcases wf.remove_cases key with ⟨_, result⟩ | ⟨kv, rest, rfl, split, _⟩
  · rw [result]
    exact ready
  · have stored : kv.key ∈ t.entries.map KeyValuePair.key :=
      List.mem_map_of_mem (split.mem_iff.mpr List.mem_cons_self)
    rcases wf.policy_remove stored with ⟨size, same⟩
    rw [same]
    exact ready.onDelete size (Or.inl rfl)

/-- The policy after the eviction of its candidate. -/
theorem WF.ready_evict (wf : t.WF) (ready : t.policy.Ready [])
    (named : t.policy.getEvictionCandidate.1 ≠ []) :
    (({ t with policy := t.policy.getEvictionCandidate.2 } : HashTable P).remove
      t.policy.getEvictionCandidate.1).1.policy.Ready [] := by
  rcases wf.candidate.policy_remove (wf.tracks.candidate.2 named) with ⟨size, same⟩
  rw [same]
  exact ready.candidate.onDelete size (Or.inr rfl)

theorem ready_evictLoop (wf : t.WF) (ready : t.policy.Ready []) (fuel : Nat) :
    (evictLoop fuel t).policy.Ready [] := by
  refine (evictLoop_invariant (fun t => t.WF ∧ t.policy.Ready []) ?_ ?_ ⟨wf, ready⟩ fuel).2
  · rintro t ⟨wf, ready⟩ empty
    have popped := ready.candidate
    rw [empty] at popped
    exact ⟨wf.candidate, popped⟩
  · rintro t ⟨wf, ready⟩ named
    exact ⟨wf.candidate.remove _, wf.ready_evict ready named⟩

/-- The loop ends with the table within its limit. -/
theorem evictLoop_within (wf : t.WF) (ready : t.policy.Ready [])
    (free : [] ∉ t.entries.map KeyValuePair.key) {fuel : Nat} (enough : t.numEntries < fuel) :
    storedBytes (evictLoop fuel t).entries ≤ t.policy.memoryLimit := by
  induction fuel generalizing t with
  | zero => exact absurd enough (Nat.not_lt_zero _)
  | succ fuel ih =>
      rw [evictLoop]
      split
      next full =>
        have exceeds := wf.tracks.shouldEvict_iff.mp full
        -- A table above its limit is not empty, so the policy has a candidate.
        have busy : Exists fun kv => kv ∈ t.entries := by
          apply List.exists_mem_of_ne_nil
          intro empty
          rw [empty] at exceeds
          exact Nat.not_lt_zero _ exceeds
        rcases busy with ⟨kv, stored⟩
        have named := ready.candidate_ne_nil wf.tracks stored free
        simp only [if_neg named]
        have fewer := wf.candidate.numEntries_remove (wf.tracks.candidate.2 named)
        change _ = t.numEntries at fewer
        have stillFree : [] ∉ (({ t with policy := t.policy.getEvictionCandidate.2 } :
            HashTable P).remove t.policy.getEvictionCandidate.1).1.entries.map KeyValuePair.key := by
          apply find_eq_none_iff.mp
          refine (wf.candidate.find_remove _ []).trans ?_
          rw [if_neg named]
          exact find_eq_none_iff.mpr free
        have rest := ih (wf.candidate.remove _) (wf.ready_evict ready named) stillFree (by omega)
        rw [wf.candidate.memoryLimit_remove] at rest
        exact Nat.le_trans rest (Nat.le_of_eq (Policy.memoryLimit_getEvictionCandidate _))
      next calm => exact Nat.not_lt.mp fun exceeds => calm (wf.tracks.shouldEvict_iff.mpr exceeds)

theorem ready_store (ready : t.policy.Ready []) (key : Bytes) (value : ValueEntry) :
    (t.store key value).policy.Ready [] := by
  unfold HashTable.store
  split
  · exact (ready.onDelete _ (Or.inl rfl)).onInsert key value
  · exact ready.onInsert key value

theorem ready_get (ready : t.policy.Ready []) (key : Bytes) (now accessNow : UInt64) :
    (t.get key now accessNow).1.policy.Ready [] := by
  unfold HashTable.get
  split
  · exact ready
  · split
    · exact ready
    · exact ready.onAccess key _

theorem WF.ready_insert (wf : t.WF) (ready : t.policy.Ready []) (key : Bytes) (value : ValueEntry) :
    (t.insert key value).policy.Ready [] := by
  have logged := wf.log (setRecord key value)
  have evicted : (t.log (setRecord key value)).evictIfNeeded.policy.Ready [] :=
    ready_evictLoop logged ready _
  rcases logged.evictIfNeeded with ⟨victims, evictions⟩
  rw [← evictions.wf.resizeIfNeeded.2.2.1] at evicted
  exact ready_store evicted key value

end HashTable

theorem ready_apply (wf : t.WF) (ready : t.policy.Ready []) (call : TableCall) :
    (call.apply t).policy.Ready [] := by
  cases call with
  | insert key value => exact wf.ready_insert ready key value
  | get key now accessNow => exact ready_get ready key now accessNow
  | remove key => exact wf.ready_remove ready key
  | flushWal => exact ready

theorem ready_runCalls (wf : t.WF) (ready : t.policy.Ready []) (calls : List TableCall) :
    (runCalls t calls).policy.Ready [] := by
  induction calls generalizing t with
  | nil => exact ready
  | cons call calls ih =>
      have rest := ih (wf_apply wf call) (ready_apply wf ready call)
      exact rest

/-- An `insert` into a table without the empty key leaves at most the bytes of
its value above the limit. -/
theorem HashTable.WF.storedBytes_insert_le_limit (wf : t.WF) (ready : t.policy.Ready [])
    (free : t.find [] = none) (key : Bytes) (value : ValueEntry) :
    storedBytes (t.insert key value).entries ≤ t.policy.memoryLimit + value.value.length := by
  have within : storedBytes t.evictIfNeeded.entries ≤ t.policy.memoryLimit :=
    evictLoop_within wf ready (find_eq_none_iff.mp free) (Nat.lt_succ_self _)
  have added := wf.storedBytes_insert_le key value
  omega

namespace TableConfig

theorem ready_fresh (config : TableConfig) (walFile : Option Bytes) :
    (config.fresh P walFile).policy.Ready [] := by
  cases walFile <;> exact Policy.ready_new config.kind config.memoryLimit

/-- After every `insert` into a table that does not store the empty key, the
values take at most the memory limit and the size of the inserted value. -/
theorem memory_bound (config : TableConfig) (P : Platform) (walFile : Option Bytes)
    (calls : List TableCall) (free : (runCalls (config.fresh P walFile) calls).find [] = none)
    (key : Bytes) (value : ValueEntry) :
    storedBytes ((runCalls (config.fresh P walFile) calls).insert key value).entries ≤
      config.memoryLimit + value.value.length := by
  have wf := config.wf_fresh (P := P) walFile
  have bound := (wf_runCalls wf calls).storedBytes_insert_le_limit
    (ready_runCalls wf (config.ready_fresh walFile) calls) free key value
  rw [memoryLimit_runCalls wf calls, config.memoryLimit_fresh] at bound
  exact bound

/-- A table that may hold nothing. -/
def tight (kind : EvictionPolicy) : TableConfig := ⟨1, 0, kind⟩

/-- The second insert evicts the first value. -/
theorem memory_bound_evicts :
    storedBytes ((runCalls ((tight .lfu).fresh Platform.source none)
      [.insert [97] (ValueEntry.new [49, 50] 0)]).insert [98] (ValueEntry.new [51] 0)).entries ≤
          0 + 1 :=
  memory_bound (tight .lfu) Platform.source none [.insert [97] (ValueEntry.new [49, 50] 0)]
    (by decide +kernel) [98] (ValueEntry.new [51] 0)

/-- A table that stores the empty key, after one more `insert`. -/
def insertBesideEmptyKey (kind : EvictionPolicy) (value : ValueEntry) : HashTable Platform.source :=
  (runCalls ((tight kind).fresh Platform.source none)
    [.insert [] (ValueEntry.new [49, 50] 0)]).insert [97] value

/-- The value of the empty key is not evicted, and nothing else is. -/
theorem memory_exceeded_by_empty_key :
    0 + (ValueEntry.new [51] 0).value.length <
        storedBytes (insertBesideEmptyKey .lru (ValueEntry.new [51] 0)).entries ∧
      0 + (ValueEntry.new [51] 0).value.length <
        storedBytes (insertBesideEmptyKey .lfu (ValueEntry.new [51] 0)).entries := by
  decide +kernel

end TableConfig
end Engine
end KVStore
