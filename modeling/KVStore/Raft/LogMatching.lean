import KVStore.Raft.Refinement

namespace KVStore
namespace Raft
namespace Cluster

open Replication

/-!
# Log matching

In every run in which no two nodes lead in the same term, the cluster is
mirrored by replicated logs, and the leader of each term of the mirror has led
the cluster in that term.  Logs therefore agree up to every index at which they
have entries of the same term.
-/

variable {config : ClusterConfig} {events : List Event} {event : Event}

/-! ## Leaders of a run -/

/-- The node has led in the term at some moment of the run. -/
def Led (config : ClusterConfig) (events : List Event) (term : Nat) (id : NodeID) : Prop :=
  id ∈ config.ids ∧ Exists fun moment =>
    ((run config (events.take moment)).nodes id).state = .leader ∧
    ((run config (events.take moment)).nodes id).currentTerm = term

theorem take_min_append (events more : List Event) (moment : Nat) :
    (events ++ more).take (min moment events.length) = events.take moment := by
  rw [List.take_append_of_le_length (Nat.min_le_right _ _), ← List.take_eq_take_min]

theorem Led.snoc {term : Nat} {id : NodeID} (led : Led config events term id) (event : Event) :
    Led config (events ++ [event]) term id := by
  rcases led with ⟨member, moment, leads⟩
  refine ⟨member, min moment events.length, ?_⟩
  rw [take_min_append]
  exact leads

theorem UniqueLeaders.init (unique : UniqueLeaders config (events ++ [event])) :
    UniqueLeaders config events := by
  intro moment later id other
  have before := unique (min moment events.length) (min later events.length) id other
  rw [take_min_append, take_min_append] at before
  exact before

/-- A leader at the end of the run is the only one that has led in its term. -/
theorem UniqueLeaders.eq_of_led (unique : UniqueLeaders config events) {term : Nat}
    {id other : NodeID} (member : id ∈ config.ids)
    (leads : ((run config events).nodes id).state = .leader)
    (same : ((run config events).nodes id).currentTerm = term)
    (led : Led config events term other) : other = id := by
  rcases led with ⟨otherMember, moment, otherLeads, sameTerm⟩
  have now := unique moment events.length other id otherMember member
  rw [List.take_length] at now
  exact now otherLeads leads (sameTerm.trans same.symm)

/-! ## Runs and their mirrors -/

/-- A run and its mirror. -/
structure Mirrored (config : ClusterConfig) (events : List Event)
    (a : State NodeID LogEntry) : Prop where
  wf : WellFormed config (run config events)
  mirrors : Mirrors (run config events) a
  invariant : Replication.Invariant LogEntry.term a
  led : forall term id, a.winner term = some id -> Led config events term id

theorem mirrored_init (config : ClusterConfig) : Mirrored config [] State.initial :=
  ⟨wellFormed_init config, mirrors_init config, invariant_initial, fun _ _ won => nomatch won⟩

/-- One more event of a run in which no two nodes lead in the same term. -/
theorem Mirrored.snoc {a : State NodeID LogEntry} (mirrored : Mirrored config events a)
    (electable : State NodeID LogEntry -> NodeID -> Prop)
    (unique : UniqueLeaders config (events ++ [event]))
    (chosen : forall id, ((run config (events ++ [event])).nodes id).state = .leader ->
      ((run config events).nodes id).state ≠ .leader ->
      a.winner ((run config (events ++ [event])).nodes id).currentTerm = none -> electable a id) :
    Exists fun b => Relation.ReflTransGen (Step LogEntry.term electable) a b ∧
      Mirrored config (events ++ [event]) b := by
  have action := step_action config (run config events) event
  rw [← run_snoc] at action
  have wf := mirrored.wf.step action
  have member : forall id, ((run config (events ++ [event])).nodes id).state = .leader ->
      id ∈ config.ids :=
    fun id leads => wf.active id (leads ▸ NodeState.noConfusion)
  have only : forall id, ((run config (events ++ [event])).nodes id).state = .leader ->
      ((run config events).nodes id).state ≠ .leader -> forall other,
      a.winner ((run config (events ++ [event])).nodes id).currentTerm = some other -> other = id :=
    fun id leads _ other won => unique.eq_of_led (member id leads) leads rfl
      ((mirrored.led _ other won).snoc event)
  rcases mirrored.mirrors.step mirrored.invariant mirrored.wf action only chosen with ⟨b, matched⟩
  refine ⟨b, matched.steps, wf, matched.mirrors, mirrored.invariant.run matched.steps, ?_⟩
  intro term id won
  rcases matched.won term id won with before | leads
  · exact (mirrored.led term id before).snoc event
  · refine ⟨member id leads.1, (events ++ [event]).length, ?_⟩
    rw [List.take_length]
    exact leads

theorem mirrored_run (unique : UniqueLeaders config events) :
    Exists fun a => Mirrored config events a := by
  induction events using List.reverseRecOn with
  | nil => exact ⟨State.initial, mirrored_init config⟩
  | append_singleton events event ih =>
      rcases ih unique.init with ⟨a, mirrored⟩
      rcases mirrored.snoc (fun _ _ => True) unique (fun _ _ _ _ => trivial) with ⟨b, _, after⟩
      exact ⟨b, after⟩

/-- In every run in which no two nodes lead in the same term, logs that have
entries of the same term at an index agree up to it. -/
theorem log_matching (config : ClusterConfig) (events : List Event)
    (unique : UniqueLeaders config events) (id other : NodeID) :
    LogsMatch ((run config events).nodes id).log ((run config events).nodes other).log := by
  rcases mirrored_run unique with ⟨a, mirrored⟩
  rw [← (mirrored.mirrors.nodes id).log, ← (mirrored.mirrors.nodes other).log]
  exact logsMatch_of_coherent (mirrored.invariant.coherent id) (mirrored.invariant.coherent other)

/-- A leader appends an entry, and a peer takes it over. -/
def oneEntry : List Event := calmElection ++ [.propose [97] [1], .buildAppend 3, .deliverAppend 3]

theorem log_matching_oneEntry :
    ((run fourNodes oneEntry).nodes [97]).log.length = 1 ∧
      ((run fourNodes oneEntry).nodes [98]).log.length = 1 ∧
      LogsMatch ((run fourNodes oneEntry).nodes [97]).log ((run fourNodes oneEntry).nodes [98]).log :=
  ⟨by decide +kernel, by decide +kernel,
    log_matching fourNodes oneEntry (uniqueLeaders (by decide +kernel)) [97] [98]⟩

end Cluster
end Raft
end KVStore
