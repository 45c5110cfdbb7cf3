import KVStore.Raft.Election
import KVStore.Raft.LogOrder

namespace KVStore
namespace Raft

open Function (update update_self update_of_ne)

/-!
# Where entries come from

No node makes up an entry.  Whatever is in a log, or in a request that is under
way, was appended by `Propose` on a node that led at that moment, with the term of
that node and the next index of its log.  This needs no assumption on the run: it
holds also where elections go wrong.
-/

variable {entry : LogEntry}

theorem mem_appendFrom {entries log : List LogEntry} {index : Nat}
    (member : entry ∈ Node.appendFrom index log entries) : entry ∈ log ∨ entry ∈ entries := by
  induction entries generalizing index log with
  | nil => exact Or.inl member
  | cons first entries ih =>
      have shorter : forall kept : List LogEntry, kept ⊆ log ->
          entry ∈ Node.appendFrom (index + 1) (kept ++ [first]) entries -> entry ∈ log ∨
              entry ∈ first :: entries := by
        intro kept inside later
        rcases ih later with before | after
        · rcases List.mem_append.mp before with old | new
          · exact Or.inl (inside old)
          · exact Or.inr (List.mem_singleton.mp new ▸ List.mem_cons_self)
        · exact Or.inr (List.mem_cons_of_mem _ after)
      rw [Node.appendFrom] at member
      split at member
      · split at member
        · exact shorter _ (List.take_subset _ _) member
        · exact (ih member).imp_right (List.mem_cons_of_mem _)
      · exact shorter _ (List.Subset.refl _) member

/-- A request carries entries of the log of its sender. -/
theorem entries_of_appendEntriesFor {n : Node} {peer : NodeID} {req : AppendEntriesRequest}
    (request : n.appendEntriesFor peer = some req) : req.entries ⊆ n.log := by
  unfold Node.appendEntriesFor at request
  split at request
  · cases request
  · cases request
    intro entry member
    change entry ∈ (if _ then _ else _) at member
    split at member
    · exact List.mem_of_mem_drop member
    · cases member

theorem mem_log_of_appendHandled {n later : Node} {req : AppendEntriesRequest}
    {resp : AppendEntriesResponse} (handled : n.AppendHandled req later resp)
    (member : entry ∈ later.log) :
    entry ∈ n.log ∨ entry ∈ req.entries := by
  cases handled with
  | stale => exact Or.inl member
  | rejected => exact Or.inl member
  | accepted =>
      rw [(Node.followCommit_spec _ _).1.log] at member
      exact mem_appendFrom member

namespace Cluster

variable {config : ClusterConfig} {s after : Cluster} {event : Event} {id : NodeID}

/-- The entry that `Propose` appends to the log of a node. -/
def entryFor (n : Node) (command : Bytes) : LogEntry := ⟨n.currentTerm, n.log.length + 1, command⟩

/-- An entry of a log was there before, or was proposed, or came with a request. -/
theorem mem_log_of_action (action : Action config s event after)
    (member : entry ∈ (after.nodes id).log) :
    entry ∈ (s.nodes id).log ∨
      (Exists fun command => event = .propose id command ∧ id ∈ config.ids ∧
        (s.nodes id).state = .leader ∧
        entry = entryFor (s.nodes id) command) ∨
      Exists fun call => call ∈ s.appendCalls ∧ Exists fun req => call.request = some req ∧
          entry ∈ req.entries := by
  have kept : forall {changed : NodeID} {n : Node}, n.log = (s.nodes changed).log ->
      entry ∈ (update s.nodes changed n id).log -> entry ∈ (s.nodes id).log := by
    intro changed n log inside
    rcases eq_or_ne id changed with rfl | different
    · rw [update_self, log] at inside
      exact inside
    · rw [update_of_ne different] at inside
      exact inside
  cases action with
  | none => exact Or.inl member
  | @startElection candidate =>
      have log : (s.nodes candidate).startElection.log = (s.nodes candidate).log := rfl
      exact Or.inl (kept log member)
  | heartbeat => exact Or.inl member
  | @propose leader command inIds leads =>
      change entry ∈ (update s.nodes leader _ id).log at member
      rw [propose_of_leader leads] at member
      rcases eq_or_ne id leader with rfl | different
      · rw [update_self] at member
        rcases List.mem_append.mp member with before | new
        · exact Or.inl before
        · exact Or.inr (Or.inl ⟨command, rfl, inIds, leads, List.mem_singleton.mp new⟩)
      · rw [update_of_ne different] at member
        exact Or.inl member
  | read => exact Or.inl member
  | deliverVote => exact Or.inl (kept (log_of_voteHandled (Node.handleRequestVote_spec _ _)) member)
  | voteReply =>
      rw [nodes_voteReply] at member
      exact Or.inl (kept (log_of_voteReplied (Node.voteReply_spec _ _ _ _)) member)
  | buildAppend => exact Or.inl member
  | @deliverAppend index call req there built =>
      change entry ∈ (update s.nodes call.peer ((s.nodes call.peer).handleAppendEntries req).1
        id).log at member
      rcases eq_or_ne id call.peer with rfl | different
      · rw [update_self] at member
        rcases mem_log_of_appendHandled (Node.handleAppendEntries_spec (s.nodes call.peer) req)
          member with before | new
        · exact Or.inl before
        · exact Or.inr (Or.inr ⟨call, List.mem_of_getElem? there, req, built, new⟩)
      · rw [update_of_ne different] at member
        exact Or.inl member
  | appendReply =>
      exact Or.inl (kept (log_of_appendReplied (Node.appendEntriesReply_spec _ _ _ _)) member)
  | @receive receiver =>
      have log : { s.nodes receiver with applyCh := (s.nodes receiver).applyCh.receive }.log =
          (s.nodes receiver).log :=
        rfl
      exact Or.inl (kept log member)

/-- The entry was appended by a `Propose` of the run. -/
def Proposed (config : ClusterConfig) (events : List Event) (entry : LogEntry) : Prop :=
  Exists fun count => Exists fun leader => Exists fun command =>
    events[count]? = some (Event.propose leader command) ∧ leader ∈ config.ids ∧
      ((run config (events.take count)).nodes leader).state = .leader ∧
      entry = entryFor ((run config (events.take count)).nodes leader) command

theorem Proposed.snoc {events : List Event} (proposed : Proposed config events entry)
    (event : Event) :
    Proposed config (events ++ [event]) entry := by
  rcases proposed with ⟨count, leader, command, there, member, leads, same⟩
  have inside := (List.getElem?_eq_some_iff.mp there).1
  refine ⟨count, leader, command, (List.getElem?_append_left inside).trans there, member, ?_⟩
  rw [List.take_append_of_le_length (Nat.le_of_lt inside)]
  exact ⟨leads, same⟩

/-- Everything in the logs and under way was proposed. -/
structure AllProposed (config : ClusterConfig) (events : List Event) : Prop where
  nodes : forall id entry, entry ∈ ((run config events).nodes id).log -> Proposed config events entry
  requests : forall call, call ∈ (run config events).appendCalls ->
    forall req, call.request = some req ->
    forall entry, entry ∈ req.entries -> Proposed config events entry

theorem allProposed_run (config : ClusterConfig) (events : List Event) :
    AllProposed config events := by
  induction events using List.reverseRecOn with
  | nil => exact ⟨(fun id entry member => nomatch member), (fun call member => nomatch member)⟩
  | append_singleton events event ih =>
      have action := step_action config (run config events) event
      refine ⟨fun id entry member => ?_, fun call member req built entry inside => ?_⟩
      · rw [run_snoc] at member
        rcases mem_log_of_action action member with
          before | ⟨command, rfl, inIds, leads, rfl⟩ | ⟨call, sent, req, built, inside⟩
        · exact (ih.nodes id entry before).snoc event
        · refine ⟨events.length, id, command, List.getElem?_concat_length, inIds, ?_⟩
          rw [List.take_left]
          exact ⟨leads, rfl⟩
        · exact (ih.requests call sent req built entry inside).snoc event
      · rw [run_snoc] at member
        refine Proposed.snoc ?_ event
        cases (wellFormed_run config events).sends action member with
        | same old => exact ih.requests call old req built entry inside
        | spawned => cases built
        | @built index before same happens old unbuilt request =>
            cases built
            exact ih.nodes before.leader entry (entries_of_appendEntriesFor request inside)
        | @answered index before same happens there request =>
            exact ih.requests before (List.mem_of_getElem? there) req built entry inside
        | @finished before old => exact ih.requests before old req built entry inside

/-- In every run, every entry of every log was appended by a `Propose` of the run,
on a node of the cluster that led then, with its term and the next index of its log
at that moment. -/
theorem entries_proposed (config : ClusterConfig) (events : List Event) (id : NodeID)
    (entry : LogEntry) :
    entry ∈ ((run config events).nodes id).log -> Exists fun count => Exists fun leader =>
      events[count]? = some (Event.propose leader entry.command) ∧ leader ∈ config.ids ∧
        ((run config (events.take count)).nodes leader).state = .leader ∧
        entry.term = ((run config (events.take count)).nodes leader).currentTerm ∧
        entry.index = ((run config (events.take count)).nodes leader).log.length + 1 := by
  intro member
  rcases (allProposed_run config events).nodes id entry member with
    ⟨count, leader, command, there, inIds, leads, rfl⟩
  exact ⟨count, leader, there, inIds, leads, rfl, rfl⟩

/-- A leader is elected, and proposes. -/
def firstProposal : List Event := calmElection ++ [.propose [97] [1]]

theorem entries_proposed_first :
    Exists fun count => Exists fun leader =>
      firstProposal[count]? = some (Event.propose leader [1]) ∧ leader ∈ fourNodes.ids ∧
        ((run fourNodes (firstProposal.take count)).nodes leader).state = .leader ∧
        1 = ((run fourNodes (firstProposal.take count)).nodes leader).currentTerm ∧
        1 = ((run fourNodes (firstProposal.take count)).nodes leader).log.length + 1 :=
  entries_proposed fourNodes firstProposal [97] ⟨1, 1, [1]⟩ (by decide +kernel)

end Cluster
end Raft
end KVStore
