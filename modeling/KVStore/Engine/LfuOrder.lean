import KVStore.Engine.EvictLoop

namespace KVStore
namespace Engine

open Framing Keyed HashTable Loops

variable {P : Platform}

/-!
# The order of evictions by frequency

The heap of the second policy keeps entries that are out of date: of keys that
were deleted, and with counts that have changed since.  A stale entry may even be
current again, when its key is inserted anew.  What makes the victims right is
that every live key has, among its entries, one with its present count, and that
only stale entries are popped before the victim.

The empty key is no candidate, so that its entry is popped and lost; keys are not
empty here.
-/

/-! ## The kind of a policy -/

namespace Policy

def kind : Policy P -> EvictionPolicy
  | .lru _ => .lru
  | .lfu _ => .lfu

@[simp] theorem kind_new (kind : EvictionPolicy) (limit : Nat) :
    (new kind limit : Policy P).kind = kind := by
  cases kind <;> rfl

@[simp] theorem kind_onInsert (policy : Policy P) (key : Bytes) (value : ValueEntry) :
    (policy.onInsert key value).kind = policy.kind := by
  cases policy <;> rfl

@[simp] theorem kind_onDelete (policy : Policy P) (key : Bytes) (valueSize : Nat) :
    (policy.onDelete key valueSize).kind = policy.kind := by
  cases policy <;> rfl

@[simp] theorem kind_onAccess (policy : Policy P) (key : Bytes) (value : ValueEntry) :
    (policy.onAccess key value).kind = policy.kind := by
  cases policy <;> rfl

@[simp] theorem kind_getEvictionCandidate (policy : Policy P) :
    policy.getEvictionCandidate.2.kind = policy.kind := by
  cases policy <;> rfl

end Policy

namespace HashTable

@[simp] theorem kind_remove (t : HashTable P) (key : Bytes) :
    (t.remove key).1.policy.kind = t.policy.kind := by
  simp only [HashTable.remove]
  split
  · rfl
  · exact Policy.kind_onDelete _ _ _

@[simp] theorem kind_evictLoop (fuel : Nat) (t : HashTable P) :
    (evictLoop fuel t).policy.kind = t.policy.kind := by
  refine evictLoop_invariant (fun state => state.policy.kind = t.policy.kind) ?_ ?_ rfl fuel
  · intro state same _
    simpa using same
  · intro state same _
    simpa using same

@[simp] theorem kind_resizeIfNeeded (t : HashTable P) :
    t.resizeIfNeeded.policy.kind = t.policy.kind := by
  rw [resizeIfNeeded]
  split <;> rfl

@[simp] theorem kind_store (t : HashTable P) (key : Bytes) (value : ValueEntry) :
    (t.store key value).policy.kind = t.policy.kind := by
  rw [store]
  split <;> simp

@[simp] theorem kind_get (t : HashTable P) (key : Bytes) (now accessNow : UInt64) :
    (t.get key now accessNow).1.policy.kind = t.policy.kind := by
  rw [get]
  split
  · rfl
  · split
    · rfl
    · exact Policy.kind_onAccess _ _ _

end HashTable

theorem kind_applyStep (t : HashTable P) (step : TableStep) :
    (step.apply t).policy.kind = t.policy.kind := by
  cases step with
  | call made =>
      cases made with
      | insert key value =>
          simp [TableStep.apply, TableCall.apply, HashTable.insert, evictIfNeeded, HashTable.log]
      | get key now accessNow => exact kind_get t key now accessNow
      | remove key => exact kind_remove t key
      | flushWal => rfl
  | log record => rfl
  | evict => exact kind_evictLoop 1 t

/-! ## Tables without the empty key -/

/-- The keys of the inserts are not empty. -/
def TableStep.Named : TableStep -> Prop
  | .call (.insert key _) => key ≠ []
  | _ => True

variable {t : HashTable P}

theorem find_nil_applyStep (wf : t.WF) (free : t.find [] = none) {step : TableStep}
    (named : step.Named) : (step.apply t).find [] = none := by
  cases step with
  | call made =>
      cases made with
      | insert key value =>
          change (t.insert key value).find [] = none
          rw [(wf.insert key value).2.1, if_neg named, wf.find_evictIfNeeded, free, ite_self]
      | get key now accessNow =>
          apply view_eq_none_iff.mp
          refine ((wf.get key now accessNow).2.1 []).trans ?_
          exact view_eq_none_iff.mpr free
      | remove key =>
          refine (wf.find_remove key []).trans ?_
          rw [free, ite_self]
      | flushWal => exact free
  | log record => exact free
  | evict =>
      rcases evictLoop_evicted wf 1 with ⟨victims, evicted⟩
      refine (evicted.find []).trans ?_
      rw [free, ite_self]

theorem ready_applyStep (wf : t.WF) (ready : t.policy.Ready []) (step : TableStep) :
    (step.apply t).policy.Ready [] := by
  cases step with
  | call made => exact ready_apply wf ready made
  | log record => exact ready
  | evict => exact ready_evictLoop wf ready 1

/-- A table with a policy of the second kind whose heap has an entry for each key. -/
structure Frequency (t : HashTable P) : Prop where
  wf : t.WF
  kind : t.policy.kind = .lfu
  ready : t.policy.Ready []
  free : t.find [] = none

theorem Frequency.applyStep (frequency : Frequency t) {step : TableStep} (named : step.Named) :
    Frequency (step.apply t) where
  wf := wf_applyStep frequency.wf step
  kind := (kind_applyStep t step).trans frequency.kind
  ready := ready_applyStep frequency.wf frequency.ready step
  free := find_nil_applyStep frequency.wf frequency.free named

theorem Frequency.runSteps (frequency : Frequency t) {steps : List TableStep}
    (named : forall step, step ∈ steps -> step.Named) : Frequency (runSteps t steps) := by
  induction steps generalizing t with
  | nil => exact frequency
  | cons step steps ih =>
      exact ih (frequency.applyStep (named step List.mem_cons_self))
        fun other member => named other (List.mem_cons_of_mem _ member)

/-- A turn of the loop that goes on is a step. -/
theorem evictLoop_one_of_next {t later : HashTable P} (turned : t.evictTurn = .next later) :
    evictLoop 1 t = later := by
  rcases evictTurn_eq_next.mp turned with ⟨full, named, rfl⟩
  rw [evictLoop, if_pos full]
  exact if_neg named

theorem Frequency.of_reaches {t state : HashTable P} (frequency : Frequency t)
    (reaches : Reaches evictTurn t state) :
    Frequency state := by
  refine reaches.invariant (fun t _ frequency turned => ?_) frequency
  have stepped : Frequency (TableStep.evict.apply t) := frequency.applyStep trivial
  rw [← evictLoop_one_of_next turned]
  exact stepped

/-- Every stored key has a heap entry with its present count. -/
theorem Frequency.heaped (frequency : Frequency t) :
    Exists fun p => t.policy = .lfu p ∧ forall kv, kv ∈ t.entries -> Exists fun entry =>
      entry ∈ P.heap.elements p.heap ∧ entry.key = kv.key ∧
          entry.accessCount = kv.value.accessCount := by
  have kind := frequency.kind
  have ready := frequency.ready
  have tracks := frequency.wf.tracks
  cases policy : t.policy with
  | lru p =>
      rw [policy] at kind
      cases kind
  | lfu p =>
      rw [policy] at ready tracks
      refine ⟨p, rfl, fun kv stored => ?_⟩
      have found : findKey kv.key t.entries = some kv :=
        (find_eq_some_iff frequency.wf.distinct).mpr ⟨stored, rfl⟩
      have named : kv.key ≠ [] := by
        intro empty
        have free := find_eq_none_iff.mp frequency.free
        exact free (empty ▸ List.mem_map_of_mem stored)
      have tracked : p.keyToCount kv.key = some kv.value.accessCount := by
        rw [LFUPolicy.Tracks.counts tracks, found, Option.map_some]
      exact ready kv.key kv.value.accessCount named named tracked

/-- The victim has the least count. -/
theorem Frequency.candidate_le (frequency : Frequency t) {victim other : KeyValuePair}
    (stored : victim ∈ t.entries) (isVictim : victim.key = t.candidate)
    (otherStored : other ∈ t.entries) :
    victim.value.accessCount ≤ other.value.accessCount := by
  rcases frequency.heaped with ⟨p, policy, heaped⟩
  have tracks : p.Tracks t.entries := by
    have tracks := frequency.wf.tracks
    rw [policy] at tracks
    exact tracks
  have counts : forall kv, kv ∈ t.entries -> p.keyToCount kv.key = some kv.value.accessCount := by
    intro kv member
    have found : findKey kv.key t.entries = some kv :=
      (find_eq_some_iff frequency.wf.distinct).mpr ⟨member, rfl⟩
    rw [tracks.counts, found, Option.map_some]
  rcases heaped other otherStored with ⟨entry, inside, sameKey, sameCount⟩
  have current : p.keyToCount entry.key = some entry.accessCount := by
    rw [sameKey, sameCount]
    exact counts other otherStored
  rcases LFUPolicy.popCurrent_least (Nat.le_refl _) inside current with ⟨count, found, least⟩
  have candidate : t.candidate =
      (LFUPolicy.popCurrent p.keyToCount (P.heap.size p.heap) p.heap).1 := by
    rw [HashTable.candidate, policy]
    rfl
  rw [← candidate, ← isVictim, counts victim stored] at found
  cases found
  rw [sameCount] at least
  exact UInt64.le_iff_toNat_le.mpr least

theorem TableConfig.frequency_fresh (config : TableConfig) (lfu : config.kind = .lfu)
    (walFile : Option Bytes) :
    Frequency (config.fresh P walFile) where
  wf := config.wf_fresh walFile
  kind := by
    cases walFile <;> exact (Policy.kind_new config.kind config.memoryLimit).trans lfu
  ready := config.ready_fresh walFile
  free := find_new ..

/-- In every history of a table that evicts by frequency, with non-empty keys, each live key has
a heap entry with its present count, and each key that the loop of `evict_if_needed` removes
has the least count of all live keys at this moment. -/
theorem TableConfig.lfu_evicts_least (config : TableConfig) (lfu : config.kind = .lfu)
    (P : Platform) (walFile : Option Bytes) (steps : List TableStep)
    (named : forall step, step ∈ steps -> step.Named) :
    let t := runSteps (config.fresh P walFile) steps
    (Exists fun p => t.policy = .lfu p ∧ forall kv, kv ∈ t.entries -> Exists fun entry =>
      entry ∈ P.heap.elements p.heap ∧ entry.key = kv.key ∧
        entry.accessCount = kv.value.accessCount) ∧
    forall state, Reaches evictTurn t state -> forall later, state.evictTurn = .next later ->
      Exists fun victim => Removes victim state later ∧
        forall other, other ∈ state.entries ->
            victim.value.accessCount ≤ other.value.accessCount := by
  intro t
  have frequency : Frequency t := (config.frequency_fresh lfu walFile).runSteps named
  refine ⟨frequency.heaped, fun state reaches later turned => ?_⟩
  have here := frequency.of_reaches reaches
  rcases here.wf.evictTurn_removes turned with ⟨victim, key, removes⟩
  exact ⟨victim, removes, fun other => here.candidate_le removes.stored key⟩

/-- Two values of one byte each where one byte is allowed.  The first one is read. -/
def oneIsRead : List TableStep :=
  [.call (.insert [97] (ValueEntry.new [49] 0)), .call (.insert [98] (ValueEntry.new [50] 0)),
    .call (.get [97] 1 1)]

def oneIsReadTable : HashTable Platform.source :=
  runSteps ((⟨1, 1, .lfu⟩ : TableConfig).fresh Platform.source none) oneIsRead

/-- The other one is the victim. -/
theorem lfu_evicts_least_oneIsRead :
    oneIsReadTable.candidate = [98] ∧ forall later, oneIsReadTable.evictTurn = .next later ->
      Exists fun victim => Removes victim oneIsReadTable later ∧
        forall other, other ∈ oneIsReadTable.entries ->
            victim.value.accessCount ≤ other.value.accessCount := by
  have named : forall step, step ∈ oneIsRead -> step.Named := by
    intro step member
    simp only [oneIsRead, List.mem_cons, List.not_mem_nil, or_false] at member
    rcases member with rfl | rfl | rfl
    · exact List.cons_ne_nil _ _
    · exact List.cons_ne_nil _ _
    · trivial
  refine ⟨by decide +kernel, fun later turned => ?_⟩
  exact (TableConfig.lfu_evicts_least ⟨1, 1, .lfu⟩ rfl Platform.source none oneIsRead named).2
    oneIsReadTable .refl later turned

end Engine
end KVStore
