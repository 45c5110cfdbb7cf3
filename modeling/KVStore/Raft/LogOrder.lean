import KVStore.Raft.Election

namespace KVStore
namespace Raft

open Function

/-!
# The order of a log

The entries of every log are numbered from one, and their terms do not decrease
and do not exceed the term of the node.  This needs nothing of the elections:
the entries of a request are the rest of such a log from the entry that the
receiver has compared, so that the loop over them keeps the order whether it
skips them, replaces what it has or appends.
-/

/-! ## Ordered logs -/

/-- The entries are numbered, and their terms do not decrease up to a bound. -/
structure Ordered (log : List LogEntry) (bound : Nat) : Prop where
  indexed : forall position entry, log[position]? = some entry -> entry.index = position + 1
  sorted : log.Pairwise fun first second => first.term ≤ second.term
  bounded : forall entry, entry ∈ log -> entry.term ≤ bound

theorem ordered_nil (bound : Nat) : Ordered [] bound := by
  refine ⟨?_, List.Pairwise.nil, ?_⟩
  · intro position entry there
    cases there
  · intro entry inside
    cases inside

variable {req : AppendEntriesRequest} {entry : LogEntry}

/-- The entries up to an index are not of a later term. -/
theorem le_termAt_of_sorted {log : List LogEntry}
    (sorted : log.Pairwise fun first second => first.term ≤ second.term) {index : Nat}
    (reached : index ≤ log.length) (inside : entry ∈ log.take index) :
    entry.term ≤ termAt log index := by
  rcases List.getElem_of_mem inside with ⟨position, short, rfl⟩
  rw [List.length_take_of_le reached] at short
  have last : index - 1 < log.length := by omega
  rw [List.getElem_take, termAt, List.getElem?_eq_getElem last]
  rcases Nat.lt_or_eq_of_le (Nat.le_sub_one_of_lt short) with before | same
  · exact List.pairwise_iff_getElem.mp sorted position (index - 1) _ last before
  · exact Nat.le_of_eq (congrArg LogEntry.term (getElem_congr_idx same))

theorem termAt_mono_of_sorted {log : List LogEntry}
    (sorted : log.Pairwise fun first second => first.term ≤ second.term) {index later : Nat}
    (positive : 0 < index) (order : index ≤ later) (reached : later ≤ log.length) :
    termAt log index ≤ termAt log later := by
  have inside : index - 1 < log.length := by omega
  have member : log[index - 1] ∈ log.take later :=
    List.mem_take_iff_getElem.mpr ⟨index - 1, by omega, rfl⟩
  have below := le_termAt_of_sorted sorted reached member
  rw [termAt, List.getElem?_eq_getElem inside]
  exact below

namespace Ordered

variable {log part : List LogEntry} {bound : Nat} (ordered : Ordered log bound)

include ordered

theorem mono {larger : Nat} (grows : bound ≤ larger) : Ordered log larger :=
  ⟨ordered.indexed, ordered.sorted, fun entry inside =>
    Nat.le_trans (ordered.bounded entry inside) grows⟩

theorem take (count : Nat) : Ordered (log.take count) bound := by
  refine ⟨?_, ordered.sorted.sublist (List.take_sublist _ _), ?_⟩
  · intro position entry there
    rw [List.getElem?_take] at there
    split at there
    · exact ordered.indexed position entry there
    · cases there
  · exact fun entry inside => ordered.bounded entry (List.mem_of_mem_take inside)

/-- A later entry. -/
theorem snoc (index : entry.index = log.length + 1)
    (above : forall old, old ∈ log -> old.term ≤ entry.term) (inside : entry.term ≤ bound) :
    Ordered (log ++ [entry]) bound := by
  refine ⟨?_, ?_, ?_⟩
  · intro position other there
    rcases Nat.lt_trichotomy position log.length with before | rfl | beyond
    · rw [List.getElem?_append_left before] at there
      exact ordered.indexed position other there
    · rw [List.getElem?_concat_length, Option.some.injEq] at there
      exact there ▸ index
    · rw [List.getElem?_eq_none (by rw [List.length_append]; exact beyond)] at there
      cases there
  · refine List.pairwise_append.mpr ⟨ordered.sorted, List.pairwise_singleton _ _, ?_⟩
    intro old member new last
    rw [List.mem_singleton.mp last]
    exact above old member
  · intro other member
    rcases List.mem_append.mp member with old | new
    · exact ordered.bounded other old
    · rw [List.mem_singleton.mp new]
      exact inside

theorem le_termAt {index : Nat} (reached : index ≤ log.length) (inside : entry ∈ log.take index) :
    entry.term ≤ termAt log index :=
  le_termAt_of_sorted ordered.sorted reached inside

theorem termAt_mono {index later : Nat} (positive : 0 < index) (order : index ≤ later)
    (reached : later ≤ log.length) :
    termAt log index ≤ termAt log later :=
  termAt_mono_of_sorted ordered.sorted positive order reached

/-- The log up to a position, and one more entry that is not of an earlier term. -/
theorem extend {position : Nat} (reached : position ≤ log.length)
    (index : entry.index = position + 1) (above : 0 < position -> termAt log position ≤ entry.term)
    (inside : entry.term ≤ bound) : Ordered (log.take position ++ [entry]) bound := by
  refine (ordered.take position).snoc ?_ ?_ inside
  · rw [List.length_take_of_le reached]
    exact index
  · intro old member
    have positive : 0 < position := by
      by_contra none
      rw [Nat.eq_zero_of_not_pos none, List.take_zero] at member
      cases member
    exact Nat.le_trans (ordered.le_termAt reached member) (above positive)

/-- The loop over the entries of a request, which are the rest of an ordered log.
The entries before the position are of the same term at that position. -/
theorem appendFrom {position : Nat} (source : Ordered part bound) (reached : position ≤ log.length)
    (shared : 0 < position -> termAt log position = termAt part position) :
    Ordered (Node.appendFrom (position + 1) log (part.drop position)) bound := by
  generalize rest : part.drop position = entries
  induction entries generalizing log position with
  | nil => exact ordered
  | cons entry entries ih =>
      have there : part[position]? = some entry := by
        rw [← List.head?_drop, rest, List.head?_cons]
      have next : part.drop (position + 1) = entries := by
        rw [← List.tail_drop, rest, List.tail_cons]
      have sameTerm : termAt part (position + 1) = entry.term := by
        rw [termAt, Nat.add_sub_cancel, there]
      have replaced : Ordered (log.take position ++ [entry]) bound := by
        refine ordered.extend reached (source.indexed position entry there) ?_
          (source.bounded entry (List.mem_of_getElem? there))
        intro positive
        rw [shared positive, ← sameTerm]
        exact source.termAt_mono positive (Nat.le_succ _) (List.getElem?_eq_some_iff.mp there).1
      have after : Ordered (Node.appendFrom (position + 1 + 1) (log.take position ++ [entry])
          entries) bound := by
        refine ih replaced ?_ ?_ next
        · rw [List.length_append, List.length_take_of_le reached, List.length_singleton]
        · intro _
          have last := termAt_of_part (List.prefix_refl (log.take position ++ [entry]))
          rw [List.length_take_of_le reached] at last
          rw [last, sameTerm]
      rw [Node.appendFrom]
      split
      · rename_i longer
        split
        · rw [Nat.add_sub_cancel]
          exact after
        · rename_i same
          rw [not_not] at same
          exact ih ordered longer (fun _ => same.trans sameTerm.symm) next
      · rename_i short
        rw [List.take_of_length_le (Nat.le_of_lt_succ (Nat.lt_of_not_le short))] at after
        exact after

end Ordered

/-- The entries of a request are the rest of an ordered log, if there are any. -/
def Excerpt (req : AppendEntriesRequest) : Prop :=
  req.entries = [] ∨ Exists fun part => Ordered part req.term ∧
    req.entries = part.drop req.prevLogIndex ∧
    (0 < req.prevLogIndex -> req.prevLogTerm = termAt part req.prevLogIndex)

theorem Ordered.takeEntries {n : Node} (ordered : Ordered n.log n.currentTerm)
    (excerpt : Excerpt req) (current : n.currentTerm ≤ req.term)
    (previous : Node.HasPrevious n.log req) :
    Ordered (n.takeEntries req).log req.term := by
  change Ordered (Node.appendFrom (req.prevLogIndex + 1) n.log req.entries) req.term
  rcases excerpt with none | ⟨part, source, entries, previousTerm⟩
  · rw [none]
    exact ordered.mono current
  · rw [entries]
    refine (ordered.mono current).appendFrom source ?_ ?_
    · rcases Nat.eq_zero_or_pos req.prevLogIndex with none | positive
      · rw [none]
        exact Nat.zero_le _
      · exact (previous positive).1
    · intro positive
      exact (previous positive).2.trans (previousTerm positive)

/-- A leader sends an excerpt of its log. -/
theorem Ordered.excerpt {n : Node} {peer : NodeID} (ordered : Ordered n.log n.currentTerm)
    (request : n.appendEntriesFor peer = some req) : Excerpt req := by
  unfold Node.appendEntriesFor at request
  split at request
  · cases request
  · rw [Option.some.injEq] at request
    subst request
    by_cases more : n.nextIndex peer ≤ n.log.length
    · refine Or.inr ⟨n.log, ordered, if_pos more, ?_⟩
      intro positive
      exact if_pos ⟨positive, Nat.le_trans (Nat.sub_le _ _) more⟩
    · exact Or.inl (if_neg more)

namespace Cluster

variable {config : ClusterConfig} {s after : Cluster} {event : Event} {id : NodeID}

/-! ## Writes to a log -/

/-- What an action can do to the log of a node. -/
inductive Writes (s : Cluster) (event : Event) (id : NodeID) (later : Node) : Prop where
  | kept (log : later.log = (s.nodes id).log)
  | proposed (command : Bytes) (leads : (s.nodes id).state = .leader)
      (result : later = { s.nodes id with
        log := (s.nodes id).log ++
          [⟨(s.nodes id).currentTerm, (s.nodes id).log.length + 1, command⟩] })
  | taken {index : Nat} {call : AppendCall} {req : AppendEntriesRequest}
      (happens : event = .deliverAppend index) (there : s.appendCalls[index]? = some call)
      (built : call.request = some req) (here : call.peer = id)
      (current : (s.nodes id).currentTerm ≤ req.term)
      (previous : Node.HasPrevious (s.nodes id).log req)
      (result : later = ((s.nodes id).takeEntries req).followCommit req.leaderCommit)

theorem log_of_voteHandled {n later : Node} {req : RequestVoteRequest} {resp : RequestVoteResponse}
    (handled : n.VoteHandled req later resp) : later.log = n.log := by
  cases handled with
  | stale old => rfl
  | refused current => exact n.log_catchUp req.term
  | granted current free upToDate => exact n.log_catchUp req.term

theorem log_of_voteReplied {n later : Node} {votes counted : Nat} {req : RequestVoteRequest}
    {resp : RequestVoteResponse} (replied : n.VoteReplied votes req resp later counted) :
    later.log = n.log := by
  cases replied <;> rfl

theorem log_of_appendReplied {n later : Node} {peer : NodeID} {resp : AppendEntriesResponse}
    (replied : n.AppendReplied peer req resp later) : later.log = n.log := by
  cases replied with
  | matched leads same success => exact (Node.updateCommitIndex_spec (n.matched peer req)).1.log
  | _ => rfl

/-- A change of one node that keeps its log. -/
theorem writes_update {changed : NodeID} {n : Node} (log : n.log = (s.nodes changed).log)
    (id : NodeID) :
    Writes s event id (update s.nodes changed n id) := by
  refine .kept ?_
  rcases eq_or_ne id changed with rfl | different
  · rw [update_self]
    exact log
  · rw [update_of_ne different]

theorem writes_of_appendHandled {index : Nat} {call : AppendCall}
    (there : s.appendCalls[index]? = some call) (built : call.request = some req) {later : Node}
    {resp : AppendEntriesResponse} (handled : (s.nodes call.peer).AppendHandled req later resp) :
    Writes s (.deliverAppend index) call.peer later := by
  cases handled with
  | stale old resp failed => exact .kept rfl
  | rejected current resp failed => exact .kept rfl
  | accepted current previous resp => exact .taken rfl there built rfl current previous rfl

theorem Action.writes (action : Action config s event after) (id : NodeID) :
    Writes s event id (after.nodes id) := by
  cases action with
  | none => exact .kept rfl
  | startElection member => exact writes_update (s := s) (n := (s.nodes _).startElection) rfl id
  | heartbeat member leads => exact .kept rfl
  | @propose leader command member leads =>
      change Writes s _ id (update s.nodes leader _ id)
      rw [propose_of_leader leads]
      rcases eq_or_ne id leader with rfl | different
      · rw [update_self]
        exact .proposed command leads rfl
      · rw [update_of_ne different]
        exact .kept rfl
  | read started reads => exact .kept rfl
  | deliverVote request =>
      exact writes_update (log_of_voteHandled (Node.handleRequestVote_spec _ _)) id
  | voteReply request answered waiting =>
      rw [nodes_voteReply]
      exact writes_update (log_of_voteReplied (Node.voteReply_spec _ _ _ _)) id
  | buildAppend there unbuilt => exact .kept rfl
  | @deliverAppend index call req there built =>
      change Writes s _ id (update s.nodes call.peer _ id)
      rcases eq_or_ne id call.peer with rfl | different
      · rw [update_self]
        exact writes_of_appendHandled there built (Node.handleAppendEntries_spec _ _)
      · rw [update_of_ne different]
        exact .kept rfl
  | appendReply there built answered =>
      exact writes_update (log_of_appendReplied (Node.appendEntriesReply_spec _ _ _ _)) id
  | receive =>
      exact writes_update (s := s)
        (n := { s.nodes _ with applyCh := (s.nodes _).applyCh.receive }) rfl id

/-! ## Runs -/

/-- The logs of the nodes and the entries under way are ordered. -/
structure LogsOrdered (s : Cluster) : Prop where
  nodes : forall id, Ordered (s.nodes id).log (s.nodes id).currentTerm
  requests : forall call, call ∈ s.appendCalls -> forall req, call.request = some req -> Excerpt req

namespace LogsOrdered

variable (ordered : LogsOrdered s)

include ordered

theorem nodes_step (action : Action config s event after) (id : NodeID) :
    Ordered (after.nodes id).log (after.nodes id).currentTerm := by
  have old := ordered.nodes id
  cases action.writes id with
  | kept log =>
      rw [log]
      exact old.mono (action.continues id).2.2
  | proposed command leads result =>
      rw [result]
      exact old.snoc rfl (fun entry inside => old.bounded entry inside) (Nat.le_refl _)
  | @taken index call req happens there built here current previous result =>
      have commits := (Node.followCommit_spec ((s.nodes id).takeEntries req) req.leaderCommit).1
      rw [result, commits.log, commits.currentTerm]
      exact old.takeEntries (ordered.requests call (List.mem_of_getElem? there) req built)
        current previous

theorem requests_step (wf : WellFormed config s) (action : Action config s event after)
    (call : AppendCall) (inside : call ∈ after.appendCalls) (req : AppendEntriesRequest)
    (built : call.request = some req) :
    Excerpt req := by
  cases wf.sends action inside with
  | same old => exact ordered.requests call old req built
  | spawned member isPeer => cases built
  | @built index before same happens old unbuilt request =>
      rw [← Option.some.inj built]
      exact (ordered.nodes before.leader).excerpt request
  | @answered index before same happens there request =>
      exact ordered.requests before (List.mem_of_getElem? there) req built
  | @finished before old => exact ordered.requests before old req built

end LogsOrdered

theorem logsOrdered_run (config : ClusterConfig) (events : List Event) :
    LogsOrdered (run config events) := by
  induction events using List.reverseRecOn with
  | nil =>
      refine ⟨fun id => ordered_nil 0, ?_⟩
      intro call inside
      cases inside
  | append_singleton events event ih =>
      rw [run_snoc]
      have action := step_action config (run config events) event
      exact ⟨ih.nodes_step action, ih.requests_step (wellFormed_run config events) action⟩

/-- The term of a node never decreases. -/
theorem currentTerm_run_le (config : ClusterConfig) (events more : List Event) (id : NodeID) :
    ((run config events).nodes id).currentTerm ≤
    ((run config (events ++ more)).nodes id).currentTerm := by
  induction more using List.reverseRecOn with
  | nil => rw [List.append_nil]
  | append_singleton more event ih =>
      rw [← List.append_assoc, run_snoc]
      exact Nat.le_trans ih ((step_action config _ event).continues id).2.2

/-- In every state of every run, the entry at each position of a log has its
index, the terms do not decrease along the log, and none is above the term of
the node, which never decreases. -/
theorem log_well_formed (config : ClusterConfig) (events : List Event) (id : NodeID) :
    (forall position entry, ((run config events).nodes id).log[position]? = some entry ->
        entry.index = position + 1) ∧
      (((run config events).nodes id).log.Pairwise fun first second => first.term ≤ second.term) ∧
      (forall entry, entry ∈ ((run config events).nodes id).log ->
        entry.term ≤ ((run config events).nodes id).currentTerm) ∧
      forall more, ((run config events).nodes id).currentTerm ≤
          ((run config (events ++ more)).nodes id).currentTerm := by
  have ordered := (logsOrdered_run config events).nodes id
  exact ⟨ordered.indexed, ordered.sorted, ordered.bounded, fun more =>
    currentTerm_run_le config events more id⟩

end Cluster

end Raft
end KVStore
