import KVStore.Engine.EvictLoop
import KVStore.Library.Recency

namespace KVStore
namespace Engine

open Framing Keyed HashTable Loops Recency

variable {P : Platform}

/-!
# The order of evictions by recency

The first policy knows the recency of a key only by the place of its node in
`access_list_`.  A hit moves the node to the front, an update erases it and makes a
new one, and an eviction takes the last one.  Over any history the list is thus in
the order of the last inserts and successful gets of the keys, and the victim is
the key that has not been touched for the longest time.
-/

/-! ## What a call touches -/

/-- The key that a call touches: an insert does, and a get that finds its key. -/
def TableCall.touches (t : HashTable P) : TableCall -> Option Bytes
  | .insert key _ => some key
  | .get key now accessNow => if (t.get key now accessNow).2.isSome then some key else none
  | .remove _ => none
  | .flushWal => none

/-- What each call of a history touches. -/
def touchesOf (t : HashTable P) : List TableCall -> List (Option Bytes)
  | [] => []
  | call :: calls => call.touches t :: touchesOf (call.apply t) calls

theorem touchesOf_snoc (t : HashTable P) (calls : List TableCall) (call : TableCall) :
    touchesOf t (calls ++ [call]) = touchesOf t calls ++ [call.touches (runCalls t calls)] := by
  induction calls generalizing t with
  | nil => rfl
  | cons first calls ih =>
      rw [List.cons_append, touchesOf, ih]
      rfl

/-! ## The list of the policy -/

/-- The keys of `access_list_`, from the front to the back. -/
def LRUPolicy.keys (p : LRUPolicy) : List Bytes := p.accessList.map fun item => item.2.key

theorem LRUPolicy.keys_eraseNode (p : LRUPolicy) (node : Nat) :
    (p.eraseNode node).keys.Sublist p.keys :=
  List.eraseP_sublist.map _

/-- A hit moves the key to the front. -/
theorem LRUPolicy.Tracks.keys_onAccess {p : LRUPolicy} {kv : KeyValuePair}
    {rest : List KeyValuePair} (tracks : p.Tracks (kv :: rest)) (lastAccessNs : UInt64) :
    Exists fun fewer => (p.onAccess kv.key lastAccessNs).keys = kv.key :: fewer ∧
        fewer.Sublist p.keys := by
  rcases tracks.linked.node with ⟨node, entry, iterator, member, entryKey⟩
  have found : (p.accessList.find? fun item => item.1 = node) = some (node, entry) :=
    (find_eq_some_iff tracks.linked.nodes).mpr ⟨member, rfl⟩
  refine ⟨(p.eraseNode node).keys, ?_, p.keys_eraseNode node⟩
  simp only [LRUPolicy.onAccess, iterator, found]
  exact congrArg (· :: (p.eraseNode node).keys) entryKey

namespace Policy

/-- The keys of the list, if the policy has one. -/
def order : Policy P -> Option (List Bytes)
  | .lru p => some p.keys
  | .lfu _ => none

/-- Some keys are taken out of the list, and the others stay in their order. -/
def Drops (before after : Policy P) : Prop :=
  forall keys, before.order = some keys -> Exists fun fewer => after.order = some fewer ∧
    fewer.Sublist keys

/-- A key is put in front, and others may be taken out. -/
def Pushes (key : Bytes) (before after : Policy P) : Prop :=
  forall keys, before.order = some keys -> Exists fun fewer => after.order = some (key :: fewer) ∧
    fewer.Sublist keys

theorem Drops.refl (policy : Policy P) : policy.Drops policy :=
  fun keys same => ⟨keys, same, List.Sublist.refl keys⟩

theorem Drops.trans {first second third : Policy P} (drops : first.Drops second)
    (later : second.Drops third) :
    first.Drops third := by
  intro keys same
  rcases drops keys same with ⟨fewer, between, sub⟩
  rcases later fewer between with ⟨left, after, laterSub⟩
  exact ⟨left, after, laterSub.trans sub⟩

theorem Drops.pushes {first second third : Policy P} {key : Bytes} (drops : first.Drops second)
    (pushes : second.Pushes key third) : first.Pushes key third := by
  intro keys same
  rcases drops keys same with ⟨fewer, between, sub⟩
  rcases pushes fewer between with ⟨left, after, laterSub⟩
  exact ⟨left, after, laterSub.trans sub⟩

theorem drops_onDelete (policy : Policy P) (key : Bytes) (valueSize : Nat) :
    policy.Drops (policy.onDelete key valueSize) := by
  intro keys same
  cases policy with
  | lru p =>
      cases same
      refine ⟨(p.onDelete key valueSize).keys, rfl, ?_⟩
      unfold LRUPolicy.onDelete
      split
      · exact List.Sublist.refl _
      · exact p.keys_eraseNode _
  | lfu p => cases same

theorem drops_getEvictionCandidate (policy : Policy P) :
    policy.Drops policy.getEvictionCandidate.2 := by
  intro keys same
  cases policy with
  | lru p => exact ⟨keys, same, List.Sublist.refl keys⟩
  | lfu p => cases same

theorem pushes_onInsert (policy : Policy P) (key : Bytes) (value : ValueEntry) :
    policy.Pushes key (policy.onInsert key value) := by
  intro keys same
  cases policy with
  | lru p =>
      cases same
      exact ⟨p.keys, rfl, List.Sublist.refl _⟩
  | lfu p => cases same

theorem Tracks.pushes_onAccess {policy : Policy P} {kv : KeyValuePair} {rest : List KeyValuePair}
    (tracks : policy.Tracks (kv :: rest)) (value : ValueEntry) :
    policy.Pushes kv.key (policy.onAccess kv.key value) := by
  intro keys same
  cases policy with
  | lru p =>
      cases same
      rcases LRUPolicy.Tracks.keys_onAccess tracks value.lastAccessNs with ⟨fewer, pushed, sub⟩
      exact ⟨fewer, congrArg some pushed, sub⟩
  | lfu p => cases same

/-- The list holds the keys of the entries, each of them once. -/
theorem Tracks.order_perm {policy : Policy P} {entries : List KeyValuePair}
    (tracks : policy.Tracks entries) {keys : List Bytes} (order : policy.order = some keys) :
    keys.Perm (entries.map KeyValuePair.key) := by
  cases policy with
  | lru p =>
      cases order
      exact (LRUPolicy.Tracks.linked tracks).keys
  | lfu p => cases order

/-- The candidate is the key at the back. -/
theorem candidate_eq_last {policy : Policy P} {keys : List Bytes} (order : policy.order = some keys)
    (named : policy.getEvictionCandidate.1 ≠ []) :
    keys.getLast? = some policy.getEvictionCandidate.1 := by
  cases policy with
  | lru p =>
      cases order
      change p.getEvictionCandidate ≠ [] at named
      change p.keys.getLast? = some p.getEvictionCandidate
      unfold LRUPolicy.getEvictionCandidate at named ⊢
      rw [LRUPolicy.keys, List.getLast?_map]
      cases last : p.accessList.getLast? with
      | none =>
          rw [last] at named
          exact absurd rfl named
      | some item => rfl
  | lfu p => cases order

end Policy

/-! ## The list over the calls -/

namespace HashTable

theorem drops_remove (t : HashTable P) (key : Bytes) : t.policy.Drops (t.remove key).1.policy := by
  simp only [HashTable.remove]
  split
  · exact Policy.Drops.refl _
  · exact Policy.drops_onDelete _ _ _

theorem drops_evictTurn {t later : HashTable P} (turned : t.evictTurn = .next later) :
    t.policy.Drops later.policy := by
  rcases evictTurn_eq_next.mp turned with ⟨_, _, rfl⟩
  exact t.policy.drops_getEvictionCandidate.trans (drops_remove t.searched _)

theorem drops_of_reaches {t state : HashTable P} (reaches : Reaches evictTurn t state) :
    t.policy.Drops state.policy := by
  have kept : forall middle later : HashTable P, t.policy.Drops middle.policy ->
      middle.evictTurn = .next later ->
      t.policy.Drops later.policy := fun _ _ drops turned => drops.trans (drops_evictTurn turned)
  exact reaches.invariant kept (Policy.Drops.refl _)

theorem WF.drops_evictIfNeeded {t : HashTable P} (wf : t.WF) :
    t.policy.Drops t.evictIfNeeded.policy := by
  rcases wf.ends_evictIfNeeded.exists_last with ⟨last, reaches, left⟩
  have drops := drops_of_reaches reaches
  rcases evictTurn_eq_leave.mp left with ⟨_, _, final⟩ | ⟨_, final⟩
  · rw [final]
    exact drops.trans (Policy.drops_getEvictionCandidate _)
  · rw [final]
    exact drops

theorem pushes_store (t : HashTable P) (key : Bytes) (value : ValueEntry) :
    t.policy.Pushes key (t.store key value).policy := by
  rw [store]
  split
  · exact (Policy.drops_onDelete _ _ _).pushes (Policy.pushes_onInsert _ _ _)
  · exact Policy.pushes_onInsert _ _ _

theorem WF.pushes_insert {t : HashTable P} (wf : t.WF) (key : Bytes) (value : ValueEntry) :
    t.policy.Pushes key (t.insert key value).policy := by
  have logged := wf.log (setRecord key value)
  have drops : t.policy.Drops (t.log (setRecord key value)).evictIfNeeded.policy :=
    logged.drops_evictIfNeeded
  rcases logged.evictIfNeeded with ⟨victims, evictions⟩
  rw [← evictions.wf.resizeIfNeeded.2.2.1] at drops
  exact drops.pushes (pushes_store _ key value)

/-- A get touches its key, or it leaves the table as it is. -/
theorem WF.get_order {t : HashTable P} (wf : t.WF) (key : Bytes) (now accessNow : UInt64) :
    (t.get key now accessNow).2.isSome = true ∧
      t.policy.Pushes key (t.get key now accessNow).1.policy ∨
      (t.get key now accessNow).2.isSome = false ∧ (t.get key now accessNow).1 = t := by
  unfold HashTable.get
  cases found : locate key (t.chain key) with
  | none => exact Or.inr ⟨rfl, rfl⟩
  | some parts =>
      rcases parts with ⟨front, kv, back⟩
      simp only
      split
      · exact Or.inr ⟨rfl, rfl⟩
      · rcases wf.located found with ⟨rest, split, _⟩
        have tracks := wf.tracks.perm wf.distinct split
        have sameKey := (locate_eq_some found).2
        exact Or.inl ⟨rfl, sameKey ▸ tracks.pushes_onAccess _⟩

end HashTable

/-- The list of the policy is in the order of the touches. -/
def Ordered (history : List (Option Bytes)) (t : HashTable P) : Prop :=
  Exists fun keys => t.policy.order = some keys ∧ InOrder history keys

variable {history : List (Option Bytes)}

theorem Ordered.drop {t after : HashTable P} (ordered : Ordered history t)
    (drops : t.policy.Drops after.policy) : Ordered history after := by
  rcases ordered with ⟨keys, order, inOrder⟩
  rcases drops keys order with ⟨fewer, left, sub⟩
  exact ⟨fewer, left, inOrder.sublist sub⟩

theorem Ordered.idle {t : HashTable P} (ordered : Ordered history t) :
    Ordered (history ++ [none]) t := by
  rcases ordered with ⟨keys, order, inOrder⟩
  exact ⟨keys, order, inOrder.spare fun key _ same => nomatch same⟩

theorem Ordered.push {t after : HashTable P} (ordered : Ordered history t) (wf : after.WF)
    {key : Bytes} (pushes : t.policy.Pushes key after.policy) :
    Ordered (history ++ [some key]) after := by
  rcases ordered with ⟨keys, order, inOrder⟩
  rcases pushes keys order with ⟨fewer, pushed, sub⟩
  have distinct : (key :: fewer).Nodup := (wf.tracks.order_perm pushed).nodup_iff.mpr wf.distinct
  exact ⟨key :: fewer, pushed, (inOrder.sublist sub).touch (List.nodup_cons.mp distinct).1⟩

theorem Ordered.apply {t : HashTable P} (ordered : Ordered history t) (wf : t.WF)
    (call : TableCall) : Ordered (history ++ [call.touches t]) (call.apply t) := by
  have wfAfter := wf_apply wf call
  cases call with
  | insert key value => exact ordered.push wfAfter (wf.pushes_insert key value)
  | get key now accessNow =>
      rcases wf.get_order key now accessNow with ⟨hit, pushes⟩ | ⟨miss, same⟩
      · simp only [TableCall.touches, hit, if_true]
        exact ordered.push wfAfter pushes
      · have unchanged : (TableCall.get key now accessNow).apply t = t := same
        simp only [TableCall.touches, miss, unchanged]
        exact ordered.idle
  | remove key => exact (ordered.drop (drops_remove t key)).idle
  | flushWal => exact ordered.idle

theorem Ordered.runCalls {t : HashTable P} (ordered : Ordered [] t) (wf : t.WF)
    (calls : List TableCall) :
    Ordered (touchesOf t calls) (runCalls t calls) := by
  induction calls using List.reverseRecOn with
  | nil => exact ordered
  | append_singleton calls call ih =>
      rw [touchesOf_snoc, runCalls_append]
      exact ih.apply (wf_runCalls wf calls) call

theorem TableConfig.ordered_fresh (config : TableConfig) (lru : config.kind = .lru)
    (walFile : Option Bytes) :
    Ordered [] (config.fresh P walFile) := by
  refine ⟨[], ?_, InOrder.nil []⟩
  have policy : (config.fresh P walFile).policy = Policy.new config.kind config.memoryLimit := by
    cases walFile <;> rfl
  rw [policy, lru]
  rfl

/-- In every history of a table that evicts by recency, the list of the policy holds the live keys
in the order of their last inserts and successful gets, the latest first.  Each key that the
loop of `evict_if_needed` removes is the live key whose last touch is the oldest. -/
theorem TableConfig.lru_evicts_oldest (config : TableConfig) (lru : config.kind = .lru)
    (P : Platform) (walFile : Option Bytes) (calls : List TableCall) :
    let t := runCalls (config.fresh P walFile) calls
    let history := touchesOf (config.fresh P walFile) calls
    (Exists fun p => t.policy = .lru p ∧ p.keys.Perm (t.entries.map KeyValuePair.key) ∧
      InOrder history p.keys) ∧
    forall record state, Reaches evictTurn (t.log record) state ->
      forall later, state.evictTurn = .next later ->
      Exists fun victim => Removes victim state later ∧
        Exists fun oldest => LastTouch history victim.key oldest ∧
          forall other, other ∈ state.entries -> other ≠ victim ->
            Exists fun index => LastTouch history other.key index ∧ oldest < index := by
  intro t history
  have wf : t.WF := wf_runCalls (config.wf_fresh walFile) calls
  have ordered : Ordered history t :=
    (config.ordered_fresh lru walFile).runCalls (config.wf_fresh walFile) calls
  refine ⟨?_, fun record state reaches later turned => ?_⟩
  · rcases ordered with ⟨keys, order, inOrder⟩
    have perm := wf.tracks.order_perm order
    cases policy : t.policy with
    | lru p =>
        rw [policy] at order
        cases order
        exact ⟨p, rfl, perm, inOrder⟩
    | lfu p =>
        rw [policy] at order
        cases order
  · have here : state.WF := (wf.log record).of_reaches reaches
    have drops := drops_of_reaches reaches
    have inLoop : Ordered history state := ordered.drop drops
    rcases inLoop with ⟨keys, order, inOrder⟩
    rcases here.evictTurn_removes turned with ⟨victim, key, removes⟩
    -- The victim is the last key of the list, so that all others were touched after it.
    have last := Policy.candidate_eq_last order (evictTurn_eq_next.mp turned).2.1
    rcases inOrder.oldest last with ⟨oldest, touched, later⟩
    refine ⟨victim, removes, oldest, key ▸ touched, fun other stored different => ?_⟩
    have listed : other.key ∈ keys :=
      (here.tracks.order_perm order).mem_iff.mpr (List.mem_map_of_mem stored)
    refine later other.key listed fun same => different ?_
    exact List.inj_on_of_nodup_map here.distinct stored removes.stored (same.trans key.symm)

/-- Two values of one byte each where one byte is allowed.  The first one is read. -/
def firstIsRead : List TableCall :=
  [.insert [97] (ValueEntry.new [49] 0), .insert [98] (ValueEntry.new [50] 0), .get [97] 1 1]

def firstIsReadTable : HashTable Platform.source :=
  runCalls ((⟨1, 1, .lru⟩ : TableConfig).fresh Platform.source none) firstIsRead

/-- The list is in the order of the touches, and the value that was not read is the victim. -/
theorem lru_evicts_oldest_firstIsRead :
    firstIsReadTable.candidate = [98] ∧ Exists fun p => firstIsReadTable.policy = .lru p ∧
      InOrder (touchesOf ((⟨1, 1, .lru⟩ : TableConfig).fresh Platform.source none) firstIsRead)
          p.keys := by
  rcases (TableConfig.lru_evicts_oldest ⟨1, 1, .lru⟩ rfl Platform.source none firstIsRead).1 with
    ⟨p, policy, _, inOrder⟩
  exact ⟨by decide, p, policy, inOrder⟩

end Engine
end KVStore
