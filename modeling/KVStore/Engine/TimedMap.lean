import KVStore.Engine.Replay
import KVStore.Library.Bindings
import Mathlib.Data.Set.Card

namespace KVStore
namespace Engine

open Framing Keyed HashTable Bindings

variable {P : Platform}

/-!
# The hash table as a timed map

What a client sees of a table is a finite map from keys to values with expiry
times.  An `insert` deletes the keys that it evicts and binds its key, a
`remove` deletes its key, and `get` hides what has expired without deleting
it.  Buckets, cached hashes and resizing do not show.
-/

/-! ## What the calls return -/

/-- `size`. -/
def HashTable.size (t : HashTable P) : Nat := t.numEntries

/-- The entry has not expired. -/
def Unexpired (now : UInt64) (entry : Bytes × UInt64) : Prop := entry.2 = 0 ∨ now < entry.2

theorem isExpired_eq_false_iff {entry : ValueEntry} {now : UInt64} :
    isExpired entry now = false <-> Unexpired now (entry.value, entry.expiryNs) := by
  rw [isExpired, Unexpired]
  split
  next never => exact iff_of_true rfl (Or.inl never)
  next timed =>
    rw [decide_eq_false_iff_not, Nat.not_le, ← UInt64.lt_iff_toNat_lt]
    exact (or_iff_right timed).symm

variable {t : HashTable P}

/-- The value and the expiry time that `get` returns. -/
theorem get_eq_some_iff (wf : t.WF) {key : Bytes} {now accessNow : UInt64}
    {entry : Bytes × UInt64} :
    (t.get key now accessNow).2.map (fun value => (value.value, value.expiryNs)) = some entry <->
      t.view key = some entry ∧ Unexpired now entry := by
  unfold HashTable.get
  cases found : locate key (t.chain key) with
  | none =>
      have absent := (wf.not_located found ⟨key, ValueEntry.new [] 0, 0⟩).1
      have unbound : t.view key = none := view_eq_none_iff.mpr (find_eq_none_iff.mpr absent)
      rw [unbound]
      exact iff_of_false (fun held => nomatch held) (fun held => nomatch held.1)
  | some parts =>
      rcases parts with ⟨front, kv, back⟩
      rcases wf.located found with ⟨rest, split, _⟩
      have here : t.find key = _ := find_of_perm_cons wf.distinct split
      rw [if_pos (locate_eq_some found).2] at here
      have bound : t.view key = some (kv.value.value, kv.value.expiryNs) :=
        congrArg (Option.map _) here
      rw [bound]
      simp only
      cases expired : isExpired kv.value now with
      | true =>
          refine iff_of_false (fun held => nomatch held) ?_
          rintro ⟨same, unexpired⟩
          cases same
          rw [isExpired_eq_false_iff.mpr unexpired] at expired
          cases expired
      | false =>
          have unexpired := isExpired_eq_false_iff.mp expired
          refine ⟨fun same => ⟨same, ?_⟩, fun held => held.1⟩
          cases same
          exact unexpired

/-- `remove` tells whether it found the key. -/
theorem remove_eq_true_iff (wf : t.WF) {key : Bytes} :
    (t.remove key).2 = true <-> t.view key ≠ none := by
  rw [ne_eq, view_eq_none_iff, ← ne_eq, find_ne_none_iff]
  rcases wf.remove_cases key with ⟨absent, result⟩ | ⟨kv, rest, sameKey, split, result, _⟩
  · rw [result]
    exact iff_of_false Bool.false_ne_true absent
  · refine iff_of_true result ((split.map _).mem_iff.mpr ?_)
    rw [List.map_cons, sameKey]
    exact List.mem_cons_self

theorem size_eq_ncard (wf : t.WF) :
    {key | t.view key ≠ none}.Finite ∧ t.size = {key | t.view key ≠ none}.ncard := by
  have keys : {key | t.view key ≠ none} = ((t.entries.map KeyValuePair.key).toFinset : Set Bytes) := by
    ext key
    rw [Finset.mem_coe, List.mem_toFinset, ← find_ne_none_iff]
    exact not_congr view_eq_none_iff
  rw [keys]
  refine ⟨Finset.finite_toSet _, ?_⟩
  rw [Set.ncard_coe_finset, List.toFinset_card_of_nodup wf.distinct, List.length_map]
  exact wf.count

/-! ## Refinement -/

/-- What a call on the table does to the map. -/
def changeOf (t : HashTable P) : TableCall -> Change Bytes (Bytes × UInt64)
  | .insert key value =>
      ⟨fun other => decide (t.Evicts other), some (key, (value.value, value.expiryNs))⟩
  | .get _ _ _ => Change.keep
  | .remove key => ⟨fun other => decide (key = other), none⟩
  | .flushWal => Change.keep

/-- What a history of calls does to the map. -/
def changesOf : HashTable P -> List TableCall -> List (Change Bytes (Bytes × UInt64))
  | _, [] => []
  | t, call :: calls => changeOf t call :: changesOf (call.apply t) calls

theorem view_apply (wf : t.WF) (call : TableCall) :
    (call.apply t).view = (changeOf t call).apply t.view := by
  funext key
  cases call with
  | insert written value =>
      refine (view_insert wf written value key).trans ?_
      simp only [changeOf, Change.apply, decide_eq_true_eq]
  | get read now accessNow => exact (wf.get read now accessNow).2.1 key
  | remove removed =>
      refine (view_remove wf removed key).trans ?_
      simp only [changeOf, Change.apply, decide_eq_true_eq]
  | flushWal => rfl

theorem view_runCalls (wf : t.WF) (calls : List TableCall) :
    (runCalls t calls).view = (changesOf t calls).foldl (fun m change => change.apply m) t.view := by
  induction calls generalizing t with
  | nil => rfl
  | cons call calls ih =>
      rw [changesOf, List.foldl_cons, ← view_apply wf]
      exact ih (wf_apply wf call)

namespace TableConfig

/-- The map of a table after a history is the map that the history describes. -/
theorem view_fresh_runCalls (config : TableConfig) (P : Platform) (walFile : Option Bytes)
    (calls : List TableCall) :
    (runCalls (config.fresh P walFile) calls).view =
      after (changesOf (config.fresh P walFile) calls) := by
  have empty : (config.fresh P walFile).view = fun _ => none := by
    funext key
    exact config.view_fresh walFile key
  rw [view_runCalls (config.wf_fresh walFile), empty]
  rfl

/-- The table is a finite map on which each `insert` deletes the keys that it
evicts and then binds its key.  After any history, `get` returns the value and
the expiry time of the latest `insert` of the key exactly when the key was
neither removed nor evicted since and has not expired, `remove` tells whether
the key is bound, and `size` counts the bound keys. -/
theorem refines_timedMap (config : TableConfig) (P : Platform) (walFile : Option Bytes)
    (calls : List TableCall) :
    let t := runCalls (config.fresh P walFile) calls
    let changes := changesOf (config.fresh P walFile) calls
    (forall key now accessNow entry,
        (t.get key now accessNow).2.map (fun value => (value.value, value.expiryNs)) = some entry <->
          Latest changes key entry ∧ Unexpired now entry) ∧
      (forall key, (t.remove key).2 = true <-> Exists fun entry => Latest changes key entry) ∧
      {key | Exists fun entry => Latest changes key entry}.Finite ∧
      t.size = {key | Exists fun entry => Latest changes key entry}.ncard := by
  intro t changes
  have wf : t.WF := wf_runCalls (config.wf_fresh walFile) calls
  have held : forall key entry, t.view key = some entry <-> Latest changes key entry := by
    intro key entry
    rw [← after_eq_some_iff]
    exact iff_of_eq (congrArg (fun m => m key = some entry)
      (config.view_fresh_runCalls P walFile calls))
  have bound : forall key, t.view key ≠ none <-> Exists fun entry => Latest changes key entry := by
    intro key
    rw [Option.ne_none_iff_exists']
    exact exists_congr fun entry => held key entry
  have counted := size_eq_ncard wf
  simp only [bound] at counted
  refine ⟨fun key now accessNow entry => ?_, fun key => ?_, counted⟩
  · rw [get_eq_some_iff wf, held]
  · rw [remove_eq_true_iff wf, bound]

end TableConfig
end Engine
end KVStore
