import KVStore.Engine.Recovery

namespace KVStore
namespace Engine

open Framing Keyed HashTable

variable {P : Platform}

/-!
# A crash between a snapshot and the truncation of its log

The snapshot has seen all the calls, also those whose records wait in the buffer,
and the log file has the records of the first calls, which were flushed.
Recovery makes these calls once more on the map of the snapshot.  A key that one
of them writes stands then as the flushed calls left it, and every other key as
it stood at the end.  A history has such a state only when there is a point,
behind the flushed calls, where the keys stand in this way.
-/

namespace TableConfig

variable (config : TableConfig)

/-- The stored bytes never exceed the memory limit. -/
def StaysWithin (P : Platform) (calls : List TableCall) : Prop :=
  forall count, count ≤ calls.length -> storedBytes (config.history P (calls.take count)).entries ≤
    config.memoryLimit

theorem StaysWithin.calmRun {config : TableConfig} {calls : List TableCall}
    (within : config.StaysWithin P calls) :
    CalmRun (config.fresh P (some [])) calls := by
  intro count inside
  rw [memoryLimit_fresh]
  exact within count (Nat.le_of_lt inside)

theorem memoryLimit_history (calls : List TableCall) :
    (config.history P calls).policy.memoryLimit = config.memoryLimit :=
  (memoryLimit_runCalls (config.wf_history []) calls).trans (config.memoryLimit_fresh (some []))

theorem shortStrings_history {calls : List TableCall}
    (short : forall call, call ∈ calls -> call.Short) :
    ShortStrings (config.history P calls) := by
  have same := config.durable_calls (P := P) [] calls
  rw [List.nil_append] at same
  have durable := config.shortStrings_durable (P := P) ((tableCalls_map calls).symm ▸ short)
  rw [same] at durable
  exact durable

/-- What recovery makes of a key when the crash comes after a complete snapshot
of the table and before the truncation of its log. -/
def recoveredView (garbage : Uninitialised) (clock : Nat -> UInt64) (t : HashTable P)
    (key : Bytes) : Option (Bytes × UInt64) :=
  if evictedIn clock 0 (config.loaded P garbage (createSnapshot t)) (flushedRecords t) key then none
  else (lastEffect (flushedRecords t) key).getD (snapshotView t key)

/-- The key stands after the first `count` calls as recovery leaves it:  gone if
the replay evicts it, else as the flushed calls left it if one of them writes it,
and else as at the end. -/
def StandsRecovered (P : Platform) (calls : List TableCall) (flushed count : Nat) (gone : Bool)
    (key : Bytes) : Prop :=
  (gone = true -> (config.history P (calls.take count)).view key = none) ∧
    (gone = false -> (Exists fun call => call ∈ calls.take flushed ∧ call.Changes key) ->
      (config.history P (calls.take count)).view key =
        (config.history P (calls.take flushed)).view key) ∧
    (gone = false -> (forall call, call ∈ calls.take flushed -> ¬ call.Changes key) ->
      (config.history P (calls.take count)).view key = (config.history P calls).view key)

section Untruncated

variable {config} {calls : List TableCall} (within : config.StaysWithin P calls)

include within

/-- The file holds the records of the first calls. -/
theorem StaysWithin.exists_flushed : Exists fun later =>
    later <+: recordsOf calls ∧ flushedRecords (config.history P calls) =
        later.map WALRecord.carried := by
  have new : Pending (config.fresh P (some [])) [] [] := ⟨_, rfl, rfl, rfl, rfl, by decide⟩
  rcases new.runCalls (config.wf_fresh (some [])) within.calmRun with ⟨later, left, pending, whole⟩
  refine ⟨later, ⟨left, whole⟩, ?_⟩
  rw [flushedRecords, history, pending.walFile]
  exact walCodec.decodeAll_encodeAll later

theorem StaysWithin.exists_flushedCalls : Exists fun flushed => flushed ≤ calls.length ∧
    mutations (calls.take flushed) = (flushedRecords (config.history P calls)).length := by
  rcases within.exists_flushed with ⟨later, initial, file⟩
  rcases exists_recordsOf_take calls initial.length_le with ⟨flushed, inside, records⟩
  refine ⟨flushed, inside, ?_⟩
  rw [file, List.length_map, ← length_recordsOf, records, ← List.prefix_iff_eq_take.mp initial]

variable {flushed : Nat}
  (counted : mutations (calls.take flushed) = (flushedRecords (config.history P calls)).length)
  (short : forall call, call ∈ calls -> call.Short)

include counted short

theorem StaysWithin.flushedRecords_eq :
    flushedRecords (config.history P calls) = recordsOf (calls.take flushed) := by
  rcases within.exists_flushed with ⟨later, initial, file⟩
  have front : recordsOf (calls.take flushed) <+: recordsOf calls := by
    refine ⟨recordsOf (calls.drop flushed), ?_⟩
    rw [← recordsOf_append, List.take_append_drop]
  rw [file, List.length_map, ← length_recordsOf] at counted
  have same : recordsOf (calls.take flushed) = later := by
    rw [List.prefix_iff_eq_take.mp front, List.prefix_iff_eq_take.mp initial, counted]
  rw [file, same]
  exact walCodec.map_carried_of_fits fun record member =>
    fits_recordsOf short record (initial.subset member)

theorem StaysWithin.recoveredView_eq_iff (garbage : Uninitialised) (clock : Nat -> UInt64)
    (count : Nat) (key : Bytes) :
    config.recoveredView garbage clock (config.history P calls) key =
        (config.history P (calls.take count)).view key <->
      config.StandsRecovered P calls flushed count (evictedIn clock 0
        (config.loaded P garbage (createSnapshot (config.history P calls)))
        (flushedRecords (config.history P calls)) key) key := by
  have upTo := view_runCalls_calm (config.wf_fresh (some [])) (within.calmRun.take flushed) key
  have changed : lastEffect (recordsOf (calls.take flushed)) key = none <-> _ :=
    lastEffect_recordsOf_eq_none_iff
  rw [recoveredView, snapshotView_eq_view (config.wf_history calls)
    (config.shortStrings_history short), StandsRecovered]
  generalize evictedIn clock 0 _ _ key = gone
  rw [within.flushedRecords_eq counted short]
  cases gone with
  | true => simp [eq_comm]
  | false =>
      cases written : lastEffect (recordsOf (calls.take flushed)) key with
      | none =>
          have untouched := changed.mp written
          simp only [Bool.false_eq_true, if_false, Option.getD_none, false_implies,
            true_and, forall_const]
          refine ⟨fun same => ⟨?_, fun _ => same.symm⟩, fun stands => (stands.2 untouched).symm⟩
          rintro ⟨call, inside, changes⟩
          exact absurd changes (untouched call inside)
      | some effect =>
          rw [written, Option.getD_some] at upTo
          have touched : ¬ forall call, call ∈ calls.take flushed -> ¬ call.Changes key := by
            intro untouched
            rw [changed.mpr untouched] at written
            cases written
          have witness : Exists fun call => call ∈ calls.take flushed ∧ call.Changes key := by
            simpa using touched
          have here : (config.history P (calls.take flushed)).view key = effect := upTo
          simp only [Bool.false_eq_true, if_false, Option.getD_some, false_implies, true_and,
            forall_const, here]
          exact ⟨fun same => ⟨fun _ => same.symm, fun untouched => absurd untouched touched⟩,
            fun stands => (stands.1 witness).symm⟩

end Untruncated

/-- The snapshot after the calls, with the log as it is. -/
def afterUntruncated (P : Platform) (garbage : Uninitialised) (clock : Nat -> UInt64)
    (calls : List TableCall) : HashTable P :=
  config.afterCrash P garbage clock (createSnapshot (config.history P calls))
    (walFile (config.history P calls))

/-- After a crash between `create_snapshot` and `truncate_wal` the snapshot is
accepted, and recovery gives a state of the history behind the flushed calls
exactly when some state of it has the keys as recovery leaves them.  As long as
the history with its flushed calls once more stays within the limit, the replay
evicts nothing, and recovery gives the last state if no key of a flushed call is
written again. -/
theorem afterCrash_is_prefix_iff (garbage : Uninitialised) (clock : Nat -> UInt64)
    (calls : List TableCall) (within : config.StaysWithin P calls)
    (counted : (config.history P calls).numEntries < 2 ^ 64) :
    let evicted :=
      evictedIn clock 0 (config.loaded P garbage (createSnapshot (config.history P calls)))
        (flushedRecords (config.history P calls))
    (loadSnapshot garbage (config.fresh P none) (createSnapshot (config.history P calls))).2 = true ∧
      (forall key, (config.afterUntruncated P garbage clock calls).view key =
        config.recoveredView garbage clock (config.history P calls) key) ∧
      (Exists fun flushed => flushed ≤ calls.length ∧
        mutations (calls.take flushed) = (flushedRecords (config.history P calls)).length) ∧
      forall flushed, mutations (calls.take flushed) =
        (flushedRecords (config.history P calls)).length ->
        (forall call, call ∈ calls -> call.Short) ->
        ((Exists fun count => count ≤ calls.length ∧
            mutations (calls.take flushed) ≤ mutations (calls.take count) ∧
            forall key, (config.afterUntruncated P garbage clock calls).view key =
              (config.history P (calls.take count)).view key) <->
          Exists fun count => count ≤ calls.length ∧
            mutations (calls.take flushed) ≤ mutations (calls.take count) ∧
            forall key, config.StandsRecovered P calls flushed count (evicted key) key) ∧
        (CalmRun (config.history P calls) (calls.take flushed) ->
          (forall key, evicted key = false) ∧
          ((forall key, (Exists fun call => call ∈ calls.take flushed ∧ call.Changes key) ->
              forall call, call ∈ calls.drop flushed -> ¬ call.Changes key) ->
            forall key, (config.afterUntruncated P garbage clock calls).view key =
              (config.history P calls).view key)) := by
  intro evicted
  have wf := config.wf_history (P := P) calls
  have last := within calls.length (Nat.le_refl _)
  rw [List.take_length] at last
  rcases config.logs_history (P := P) calls with ⟨records, logs, written⟩
  have start := fun key => config.loaded_createSnapshot wf last counted garbage key
  have recovered : forall key, (config.afterUntruncated P garbage clock calls).view key =
      config.recoveredView garbage clock (config.history P calls) key := by
    intro key
    rw [afterUntruncated, config.view_afterCrash logs written (start key).1, (start key).2,
      recoveredView]
  refine ⟨by rw [loadSnapshot_createSnapshot wf counted], recovered, within.exists_flushedCalls,
    fun flushed flushedCount short => ?_⟩
  have stands := within.recoveredView_eq_iff flushedCount short garbage clock
  simp only [recovered]
  refine ⟨exists_congr fun count => and_congr_right fun _ => and_congr_right fun _ =>
    forall_congr' fun key => stands count key, fun calm => ?_⟩
  have kept : forall key, evicted key = false := by
    have loadedView : (config.loaded P garbage (createSnapshot (config.history P calls))).view =
        (config.history P calls).view :=
      funext fun key => (start key).2.trans
        (snapshotView_eq_view wf (config.shortStrings_history short) key)
    have limit := (config.memoryLimit_loaded wf counted garbage).trans
      (config.memoryLimit_history (P := P) calls).symm
    have replays := replay_recordsOf wf (start []).1 loadedView limit clock 0 calm
    rw [← within.flushedRecords_eq flushedCount short] at replays
    exact replays.2
  refine ⟨kept, fun once key => ?_⟩
  have final := stands calls.length key
  rw [List.take_length] at final
  refine final.mpr ⟨fun gone => ?_, fun _ writes => ?_, fun _ _ => ?_⟩
  · exact absurd ((kept key).symm.trans gone) Bool.false_ne_true
  · have later := within.calmRun.drop (config.wf_fresh (some [])) flushed
    have unwritten := lastEffect_recordsOf_eq_none_iff.mpr (once key writes)
    have view := view_runCalls_calm (config.wf_history (calls.take flushed)) later key
    rw [unwritten, history, ← runCalls_append, List.take_append_drop] at view
    rw [List.take_length]
    exact view
  · rw [List.take_length]

end TableConfig

/-- Keys `a` and `b` are set and the log flushed; then `c` is set and `d` removed. -/
def partlyFlushed : List TableCall :=
  [.insert [97] (ValueEntry.new [49] 0), .insert [98] (ValueEntry.new [50] 0), .flushWal,
    .insert [99] (ValueEntry.new [51] 0), .remove [100]]

/-- No key of the two flushed records is written again, and recovery has all three
keys. -/
theorem afterCrash_partlyFlushed :
    (flushedRecords (roomy.history Platform.source partlyFlushed)).length = 2 ∧
      (forall key,
        (roomy.afterUntruncated Platform.source zeroed (fun _ => 0) partlyFlushed).view key =
          (roomy.history Platform.source partlyFlushed).view key) ∧
      Exists fun count => count ≤ 5 ∧ 2 ≤ mutations (partlyFlushed.take count) ∧
        forall key, roomy.StandsRecovered Platform.source partlyFlushed 3 count false key := by
  have within : roomy.StaysWithin Platform.source partlyFlushed := by
    unfold TableConfig.StaysWithin
    decide
  have file : walFile (roomy.history Platform.source partlyFlushed) = walCodec.encodeAll
      [setRecord [97] (ValueEntry.new [49] 0), setRecord [98] (ValueEntry.new [50] 0)] := by decide
  have two : (flushedRecords (roomy.history Platform.source partlyFlushed)).length = 2 := by
    rw [flushedRecords, file]
    exact congrArg List.length (walCodec.decodeAll_encodeAll _)
  have short : forall call, call ∈ partlyFlushed -> call.Short := by
    simp [partlyFlushed, TableCall.Short, ValueEntry.new]
  rcases (roomy.afterCrash_is_prefix_iff zeroed (fun _ => 0) partlyFlushed within (by decide)).2.2.2
    3 two.symm short with ⟨isPrefix, calm⟩
  rcases calm (by unfold CalmRun; decide) with ⟨kept, recovers⟩
  have final : forall key,
      (roomy.afterUntruncated Platform.source zeroed (fun _ => 0) partlyFlushed).view key =
      (roomy.history Platform.source partlyFlushed).view key := by
    refine recovers fun key written => ?_
    simp only [partlyFlushed, List.take_succ_cons, List.take_zero, List.drop_succ_cons,
      List.drop_zero, List.mem_cons, List.not_mem_nil, or_false, exists_eq_or_imp, exists_eq_left,
      forall_eq_or_imp, forall_eq, TableCall.Changes] at written ⊢
    rcases written with rfl | rfl | ⟨⟩
    · decide
    · decide
  refine ⟨two, final, ?_⟩
  rcases isPrefix.mp ⟨5, by decide, by decide, final⟩ with ⟨count, inside, more, stands⟩
  exact ⟨count, inside, more, fun key => kept key ▸ stands key⟩

/-- Key `a` is set and the log flushed; then `a` is set again, and `b` is set. -/
def overtakenCalls : List TableCall :=
  [.insert [97] (ValueEntry.new [49] 0), .flushWal, .insert [97] (ValueEntry.new [50] 0),
    .insert [98] (ValueEntry.new [49] 0)]

theorem flushedRecords_overtakenCalls :
    flushedRecords (roomy.history Platform.source overtakenCalls) =
        [setRecord [97] (ValueEntry.new [49] 0)] := by
  have file : walFile (roomy.history Platform.source overtakenCalls) =
      walCodec.encodeAll [setRecord [97] (ValueEntry.new [49] 0)] := by decide
  rw [flushedRecords, file]
  exact walCodec.decodeAll_encodeAll _

/-- The old record of `a` is replayed over the snapshot: the table recovered has
the first value of `a` together with `b`, which no state of the history has. -/
theorem afterCrash_between_states :
    roomy.StaysWithin Platform.source overtakenCalls ∧
      forall count, count ≤ overtakenCalls.length ->
        ¬ forall key, (roomy.afterCrash Platform.source zeroed (fun _ => 0)
            (createSnapshot (roomy.history Platform.source overtakenCalls))
            (walFile (roomy.history Platform.source overtakenCalls))).view key =
          (roomy.history Platform.source (overtakenCalls.take count)).view key := by
  refine ⟨by unfold TableConfig.StaysWithin; decide, ?_⟩
  have recovered : roomy.afterCrash Platform.source zeroed (fun _ => 0)
      (createSnapshot (roomy.history Platform.source overtakenCalls))
      (walFile (roomy.history Platform.source overtakenCalls)) =
        (insertAll (roomy.fresh Platform.source none)
          ((snapshotEntries (roomy.history Platform.source overtakenCalls)).map
            carriedEntry)).insert [97] (ValueEntry.new [49] 0) := by
    have flushed := flushedRecords_overtakenCalls
    rw [flushedRecords] at flushed
    rw [TableConfig.afterCrash, replayWal, flushed, TableConfig.loaded,
      loadSnapshot_createSnapshot (TableConfig.wf_history _ _) (by decide), if_pos rfl]
    rfl
  rw [recovered]
  intro count inside same
  have both := And.intro (same [97]) (same [98])
  clear same
  revert count
  decide

end Engine
end KVStore
