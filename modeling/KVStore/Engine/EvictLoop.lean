import KVStore.Engine.Accounting
import KVStore.Library.Loops

namespace KVStore
namespace Engine

open Framing Keyed HashTable Loops

variable {P : Platform}

/-!
# The loops of an eviction

`evict_if_needed` is a loop around `get_eviction_candidate` and `remove`, and the
candidate of the second policy is found by a loop that pops a heap.  Here they are
the loops of the source, without fuel, and the functions with fuel of the model are
shown to compute what the loops end with.

The outer loop would go on forever if `remove` did not find the candidate, for the
first policy would then name the same key again.  It ends because the candidate is
always a key of the table.
-/

/-! ## The search for a candidate -/

namespace LFUPolicy

/-- A turn of the loop of `get_eviction_candidate`.  The result is the key that is returned,
and the heap that is left. -/
def popTurn (keyToCount : Bytes -> Option UInt64) (heap : P.heap.Carrier) :
    Turn P.heap.Carrier (Bytes × P.heap.Carrier) :=
  match P.heap.pop heap with
  | none => .leave ([], heap)
  | some (top, rest) =>
      if keyToCount top.key = some top.accessCount then .leave (top.key, rest) else .next rest

/-- Everything that a turn can do. -/
theorem popTurn_cases (keyToCount : Bytes -> Option UInt64) (heap : P.heap.Carrier) :
    (P.heap.pop heap = none ∧ popTurn keyToCount heap = .leave ([], heap)) ∨
      Exists fun top => Exists fun rest => P.heap.pop heap = some (top, rest) ∧
        (keyToCount top.key = some top.accessCount ∧
          popTurn keyToCount heap = .leave (top.key, rest) ∨
          keyToCount top.key ≠ some top.accessCount ∧ popTurn keyToCount heap = .next rest) := by
  unfold popTurn
  rcases P.heap.pop heap with _ | ⟨top, rest⟩
  · exact Or.inl ⟨rfl, rfl⟩
  · refine Or.inr ⟨top, rest, rfl, ?_⟩
    by_cases current : keyToCount top.key = some top.accessCount
    · exact Or.inl ⟨current, if_pos current⟩
    · exact Or.inr ⟨current, if_neg current⟩

/-- With a turn for each entry of the heap, `popCurrent` computes what the loop ends with. -/
theorem ends_popCurrent {keyToCount : Bytes -> Option UInt64} {fuel : Nat} {heap : P.heap.Carrier}
    (enough : P.heap.size heap ≤ fuel) :
    Ends (popTurn keyToCount) heap (popCurrent keyToCount fuel heap) := by
  induction fuel generalizing heap with
  | zero =>
      refine .leave ?_
      simp [popTurn, popCurrent, P.heap.pop_of_size_eq_zero (Nat.le_zero.mp enough)]
  | succ fuel ih =>
      rcases popTurn_cases keyToCount heap with
        ⟨empty, left⟩ | ⟨top, rest, popped, ⟨current, left⟩ | ⟨stale, turned⟩⟩
      · simp only [popCurrent, empty]
        exact .leave left
      · simp only [popCurrent, popped, if_pos current]
        exact .leave left
      · have fewer := P.heap.size_of_pop popped
        simp only [popCurrent, popped, if_neg stale]
        exact .next turned (ih (by omega))

end LFUPolicy

namespace Policy

/-- The search for a candidate ends with the candidate of the model. -/
def SearchEnds : Policy P -> Prop
  | .lru _ => True
  | .lfu p =>
      Ends (LFUPolicy.popTurn p.keyToCount) p.heap
        (p.getEvictionCandidate.1, p.getEvictionCandidate.2.heap)

theorem searchEnds (policy : Policy P) : policy.SearchEnds := by
  cases policy with
  | lru p => trivial
  | lfu p => exact LFUPolicy.ends_popCurrent (Nat.le_refl _)

end Policy

/-! ## The loop of `evict_if_needed` -/

namespace HashTable

/-- The table when the policy has named its candidate. -/
def searched (t : HashTable P) : HashTable P := { t with policy := t.policy.getEvictionCandidate.2 }

/-- The key that the policy names. -/
def candidate (t : HashTable P) : Bytes := t.policy.getEvictionCandidate.1

/-- A turn of the loop of `evict_if_needed`. -/
def evictTurn (t : HashTable P) : Turn (HashTable P) (HashTable P) :=
  if t.policy.shouldEvict then
    if t.candidate = [] then .leave t.searched else .next (t.searched.remove t.candidate).1
  else .leave t

/-- A turn that goes on removes the candidate. -/
theorem evictTurn_eq_next {t later : HashTable P} :
    t.evictTurn = .next later <->
      t.policy.shouldEvict = true ∧ t.candidate ≠ [] ∧ later = (t.searched.remove t.candidate).1 := by
  unfold evictTurn
  by_cases full : t.policy.shouldEvict = true
  · by_cases none : t.candidate = [] <;> simp [full, none, eq_comm]
  · simp [full]

/-- A turn leaves the loop without a candidate or below the limit. -/
theorem evictTurn_eq_leave {t final : HashTable P} :
    t.evictTurn = .leave final <->
      t.policy.shouldEvict = true ∧ t.candidate = [] ∧ final = t.searched ∨
        t.policy.shouldEvict = false ∧ final = t := by
  unfold evictTurn
  by_cases full : t.policy.shouldEvict = true
  · by_cases none : t.candidate = [] <;> simp [full, none, eq_comm]
  · simpa [full] using eq_comm

/-- A candidate is a key of the table. -/
theorem WF.candidate_mem {t : HashTable P} (wf : t.WF) (named : t.candidate ≠ []) :
    t.candidate ∈ t.entries.map KeyValuePair.key :=
  wf.tracks.candidate.2 named

/-- A turn that goes on removes exactly the entry of the candidate. -/
theorem WF.evictTurn_next {t later : HashTable P} (wf : t.WF) (turned : t.evictTurn = .next later) :
    later.WF ∧ Exists fun kv => Exists fun rest => kv.key = t.candidate ∧
      t.entries.Perm (kv :: rest) ∧
      later.entries.Perm rest := by
  rcases evictTurn_eq_next.mp turned with ⟨_, named, rfl⟩
  have searched : t.searched.WF := wf.candidate
  rcases searched.remove_cases t.candidate with ⟨absent, _⟩
    | ⟨kv, rest, key, split, _, removed, left, _⟩
  · exact absurd (wf.candidate_mem named) absent
  · exact ⟨removed, kv, rest, key, split, left⟩

/-- An entry is gone, and the others have stayed. -/
structure Removes (victim : KeyValuePair) (before after : HashTable P) : Prop where
  stored : victim ∈ before.entries
  gone : after.find victim.key = none
  others : forall kv, kv ∈ before.entries -> kv ≠ victim -> kv ∈ after.entries

theorem WF.evictTurn_removes {t later : HashTable P} (wf : t.WF)
    (turned : t.evictTurn = .next later) :
    Exists fun victim => victim.key = t.candidate ∧ Removes victim t later := by
  rcases wf.evictTurn_next turned with ⟨removed, victim, rest, key, split, left⟩
  refine ⟨victim, key, split.mem_iff.mpr List.mem_cons_self, ?_, fun kv member different => ?_⟩
  · apply find_eq_none_iff.mpr
    rw [(left.map _).mem_iff]
    exact (distinct_of_perm_cons wf.distinct split).1
  · rcases List.mem_cons.mp (split.mem_iff.mp member) with same | inRest
    · exact absurd same different
    · exact left.mem_iff.mpr inRest

theorem WF.numEntries_evictTurn {t later : HashTable P} (wf : t.WF)
    (turned : t.evictTurn = .next later) :
    later.WF ∧ later.numEntries < t.numEntries := by
  rcases wf.evictTurn_next turned with ⟨removed, kv, rest, _, split, left⟩
  refine ⟨removed, ?_⟩
  rw [removed.count, wf.count, split.length_eq, left.length_eq, List.length_cons]
  exact Nat.lt_succ_self _

/-- With a turn for each entry and one more, `evictLoop` computes what the loop ends with. -/
theorem evictLoop_eq_of_ends {t final : HashTable P} (wf : t.WF) (ends : Ends evictTurn t final)
    {fuel : Nat} (enough : t.numEntries < fuel) : evictLoop fuel t = final := by
  induction ends generalizing fuel with
  | @leave t final left =>
      cases fuel with
      | zero => exact absurd enough (Nat.not_lt_zero _)
      | succ fuel =>
          rcases evictTurn_eq_leave.mp left with ⟨full, none, rfl⟩ | ⟨calm, rfl⟩
          · rw [evictLoop, if_pos full]
            exact if_pos none
          · rw [evictLoop, calm]
            rfl
  | @next t later final turned _ ih =>
      rcases wf.numEntries_evictTurn turned with ⟨removed, fewer⟩
      cases fuel with
      | zero => exact absurd enough (Nat.not_lt_zero _)
      | succ fuel =>
          have rest := ih removed (show later.numEntries < fuel by omega)
          rcases evictTurn_eq_next.mp turned with ⟨full, named, rfl⟩
          rw [evictLoop, if_pos full]
          exact (if_neg named).trans rest

/-- The loop ends, and with the table of the model. -/
theorem WF.ends_evictIfNeeded {t : HashTable P} (wf : t.WF) : Ends evictTurn t t.evictIfNeeded := by
  rcases exists_ends (fun t later wf turned => WF.numEntries_evictTurn wf turned)
    wf with ⟨final, ends⟩
  have same : t.evictIfNeeded = final := evictLoop_eq_of_ends wf ends (Nat.lt_succ_self _)
  exact same ▸ ends

/-- Every state of the loop is well formed. -/
theorem WF.of_reaches {t state : HashTable P} (wf : t.WF) (reaches : Reaches evictTurn t state) :
    state.WF :=
  reaches.invariant (fun _ _ wf turned => (WF.evictTurn_next wf turned).1) wf

theorem shouldEvict_eq_false_iff {t : HashTable P} :
    t.policy.shouldEvict = false <-> t.policy.currentMemory ≤ t.policy.memoryLimit := by
  cases policy : t.policy with
  | lru p =>
      simp [Policy.shouldEvict, LRUPolicy.shouldEvict, Policy.currentMemory, Policy.memoryLimit]
  | lfu p =>
      simp [Policy.shouldEvict, LFUPolicy.shouldEvict, Policy.currentMemory, Policy.memoryLimit]

end HashTable

/-- From every state of a table that is reached by its calls, or on the way inside one, the loop
of `evict_if_needed` ends with the table of the model.  In each of its turns the search for
a candidate ends.  A turn that goes on removes exactly one entry, and the last turn removes
none: the memory is then within the limit, or the policy has returned an empty candidate. -/
theorem TableConfig.eviction_terminates (config : TableConfig) (P : Platform)
    (walFile : Option Bytes) (steps : List TableStep) :
    let t := runSteps (config.fresh P walFile) steps
    (Exists fun final => Ends evictTurn t final ∧ t.evictIfNeeded = final ∧
      Exists fun last => Reaches evictTurn t last ∧ final.entries = last.entries ∧
        (final = last ∧ final.policy.currentMemory ≤ final.policy.memoryLimit ∨
          last.candidate = [] ∧ final = last.searched)) ∧
    forall state, Reaches evictTurn t state -> state.policy.SearchEnds ∧
      forall later, state.evictTurn = .next later -> Exists fun kv => Exists fun rest =>
        kv.key = state.candidate ∧ state.entries.Perm (kv :: rest) ∧ later.entries.Perm rest := by
  intro t
  have wf : t.WF := wf_runSteps (config.wf_fresh walFile) steps
  constructor
  · have ends := wf.ends_evictIfNeeded
    rcases ends.exists_last with ⟨last, reaches, left⟩
    refine ⟨_, ends, rfl, last, reaches, ?_⟩
    rcases evictTurn_eq_leave.mp left with ⟨_, none, final⟩ | ⟨calm, final⟩
    · rw [final]
      exact ⟨rfl, Or.inr ⟨none, rfl⟩⟩
    · rw [final]
      exact ⟨rfl, Or.inl ⟨rfl, shouldEvict_eq_false_iff.mp calm⟩⟩
  · intro state reaches
    refine ⟨state.policy.searchEnds, fun later turned => ?_⟩
    exact ((wf.of_reaches reaches).evictTurn_next turned).2

end Engine
end KVStore
