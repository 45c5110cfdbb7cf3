import KVStore.Raft.Cluster
import KVStore.Raft.NodeSteps
import Mathlib.Data.List.Induction

namespace KVStore
namespace Raft
namespace Cluster

open Function

/-!
# What an event can do to a cluster

Every event is an action whose conditions are spelled out, or does nothing.  An
action starts an election, or lets nodes react to messages.  Nodes and goroutines
stay those of the configuration.
-/

/-! ## Runs -/

/-- Every event of a run meets a condition in the state in which it happens. -/
def Along (config : ClusterConfig) (condition : Cluster -> Event -> Bool) :
    Cluster -> List Event -> Prop
  | _, [] => True
  | s, event :: events =>
      condition s event = true ∧ Along config condition (step config s event) events

instance decidableAlong (config : ClusterConfig) (condition : Cluster -> Event -> Bool) :
    (s : Cluster) -> (events : List Event) -> Decidable (Along config condition s events)
  | _, [] => isTrue trivial
  | s, event :: events =>
      have := decidableAlong config condition (step config s event) events
      inferInstanceAs (Decidable (_ ∧ _))

theorem run_snoc (config : ClusterConfig) (events : List Event) (event : Event) :
    run config (events ++ [event]) = step config (run config events) event :=
  List.foldl_concat ..

theorem along_append (config : ClusterConfig) (condition : Cluster -> Event -> Bool) (s : Cluster)
    (first second : List Event) : Along config condition s (first ++ second) <->
      Along config condition s first ∧
          Along config condition (first.foldl (step config) s) second := by
  induction first generalizing s with
  | nil => exact ⟨fun along => ⟨trivial, along⟩, fun both => both.2⟩
  | cons event first ih =>
      rw [List.cons_append, Along, Along, ih, and_assoc]
      rfl

/-! ## Actions -/

/-- A goroutine reads a field of its request from the state of its node. -/
inductive Reads (n : Node) (id : NodeID) (election : Nat) (peer : NodeID) (call : VoteCall) :
    Event -> VoteCall -> Prop where
  | term (unread : call.term = none) :
      Reads n id election peer call (.readTerm id election peer) { call with
        term := some n.currentTerm }
  | lastLogIndex (unread : call.lastLogIndex = none) :
      Reads n id election peer call (.readLastLogIndex id election peer)
        { call with lastLogIndex := some n.getLastLogIndex }
  | lastLogTerm (unread : call.lastLogTerm = none) :
      Reads n id election peer call (.readLastLogTerm id election peer)
        { call with lastLogTerm := some n.getLastLogTerm }

/-- What an event can do to a cluster. -/
inductive Action (config : ClusterConfig) (s : Cluster) : Event -> Cluster -> Prop where
  | none (event : Event) : Action config s event s
  | startElection {id : NodeID} (member : id ∈ config.ids) :
      Action config s (.electionTimeout id) (s.startElection id)
  | heartbeat {id : NodeID} (member : id ∈ config.ids) (leads : (s.nodes id).state = .leader) :
      Action config s (.heartbeat id) (s.spawnHeartbeats id)
  | propose {id : NodeID} {command : Bytes} (member : id ∈ config.ids)
      (leads : (s.nodes id).state = .leader) :
        Action config s (.propose id command) (s.propose id command)
  | read {event : Event} {id : NodeID} {election : Nat} {peer : NodeID} {call : VoteCall}
      (started : (s.voteCalls id election peer).started = true)
      (reads : Reads (s.nodes id) id election peer (s.voteCalls id election peer) event call) :
      Action config s event (s.setVoteCall id election peer call)
  | deliverVote {id : NodeID} {election : Nat} {peer : NodeID} {req : RequestVoteRequest}
      (request : (s.voteCalls id election peer).request id = some req) :
      Action config s (.deliverVote id election peer) (s.deliverVote id election peer req)
  | voteReply {id : NodeID} {election : Nat} {peer : NodeID} {response : Nat}
      {req : RequestVoteRequest} {resp : RequestVoteResponse}
      (request : (s.voteCalls id election peer).request id = some req)
      (answered : (s.voteCalls id election peer).responses[response]? = some resp)
      (waiting : (s.voteCalls id election peer).finished = false) :
      Action config s (.voteReply id election peer response) (s.voteReply id election peer req resp)
  | buildAppend {index : Nat} {call : AppendCall} (there : s.appendCalls[index]? = some call)
      (unbuilt : call.request = Option.none) :
        Action config s (.buildAppend index) (s.buildAppend index call)
  | deliverAppend {index : Nat} {call : AppendCall} {req : AppendEntriesRequest}
      (there : s.appendCalls[index]? = some call) (built : call.request = some req) :
      Action config s (.deliverAppend index) (s.deliverAppend index call req)
  | appendReply {index response : Nat} {call : AppendCall} {req : AppendEntriesRequest}
      {resp : AppendEntriesResponse} (there : s.appendCalls[index]? = some call)
      (built : call.request = some req)
      (answered : call.responses[response]? = some resp) :
      Action config s (.appendReply index response) (s.appendReply index call req resp)
  | receive {id : NodeID} : Action config s (.receive id) (s.receive id)

theorem step_action (config : ClusterConfig) (s : Cluster) (event : Event) :
    Action config s event (step config s event) := by
  cases event with
  | electionTimeout id =>
      rw [step]
      split
      · rename_i member
        exact .startElection member
      · exact .none _
  | heartbeat id =>
      rw [step]
      split
      · rename_i both
        exact .heartbeat both.1 both.2
      · exact .none _
  | propose id command =>
      rw [step]
      split
      · rename_i both
        exact .propose both.1 both.2
      · exact .none _
  | readTerm id election peer =>
      rw [step]
      split
      · rename_i both
        exact .read both.1 (.term both.2)
      · exact .none _
  | readLastLogIndex id election peer =>
      rw [step]
      split
      · rename_i both
        exact .read both.1 (.lastLogIndex both.2)
      · exact .none _
  | readLastLogTerm id election peer =>
      rw [step]
      split
      · rename_i both
        exact .read both.1 (.lastLogTerm both.2)
      · exact .none _
  | deliverVote id election peer =>
      rw [step]
      split
      · exact .none _
      · rename_i req request
        exact .deliverVote request
  | voteReply id election peer response =>
      rw [step]
      split
      · rename_i req resp request answered
        split
        · exact .none _
        · rename_i waiting
          exact .voteReply request answered (Bool.eq_false_iff.mpr waiting)
      · exact .none _
  | buildAppend index =>
      rw [step]
      split
      · exact .none _
      · rename_i call there
        split
        · rename_i both
          exact .buildAppend there both.1
        · exact .none _
  | deliverAppend index =>
      rw [step]
      split
      · exact .none _
      · rename_i call there
        split
        · exact .none _
        · rename_i req built
          exact .deliverAppend there built
  | appendReply index response =>
      rw [step]
      split
      · exact .none _
      · rename_i call there
        split
        · rename_i req resp built answered
          split
          · exact .none _
          · exact .appendReply there built answered
        · exact .none _
  | receive id =>
      rw [step]
      split
      · exact .receive
      · exact .none _

variable {resp : AppendEntriesResponse} {req : AppendEntriesRequest}

/-- A goroutine that has ended takes no response. -/
theorem step_appendReply_of_finished {config : ClusterConfig} {s : Cluster} {index response : Nat}
    {call : AppendCall} (there : s.appendCalls[index]? = some call)
    (built : call.request = some req) (answered : call.responses[response]? = some resp)
    (finished : call.finished = true) : step config s (.appendReply index response) = s := by
  simp only [step, there, built, answered, finished, if_true]

/-- What holds at the start and is kept by every event that meets a condition
holds after every run along which the condition is met. -/
theorem run_induction {config : ClusterConfig} {condition : Cluster -> Event -> Bool}
    {P : Cluster -> Prop} (start : P (init config))
    (kept : forall s event after, P s -> condition s event = true ->
      Action config s event after -> P after)
    (events : List Event) (along : Along config condition (init config) events) :
    P (run config events) := by
  induction events using List.reverseRecOn with
  | nil => exact start
  | append_singleton events event ih =>
      rw [along_append] at along
      rw [run_snoc]
      exact kept _ event _ (ih along.1) along.2.1 (step_action config _ event)

/-! ## Fields after a step -/

theorem nodes_startElection (s : Cluster) (id : NodeID) :
    (s.startElection id).nodes = update s.nodes id (s.nodes id).startElection :=
  rfl

theorem nodes_deliverVote (s : Cluster) (id : NodeID) (election : Nat) (peer : NodeID)
    (req : RequestVoteRequest) :
    (s.deliverVote id election peer req).nodes =
      update s.nodes peer ((s.nodes peer).handleRequestVote req).1 :=
  rfl

theorem grants_deliverVote (s : Cluster) (id : NodeID) (election : Nat) (peer : NodeID)
    (req : RequestVoteRequest) :
    (s.deliverVote id election peer req).grants =
      if ((s.nodes peer).handleRequestVote req).2.voteGranted then ⟨peer, req.term, id⟩ :: s.grants
      else s.grants :=
  rfl

theorem voteCalls_setVoteCall (s : Cluster) (id : NodeID) (election : Nat) (peer : NodeID)
    (call : VoteCall) (other : NodeID) (term : Nat) (target : NodeID) :
    (s.setVoteCall id election peer call).voteCalls other term target =
      if other = id ∧ term = election ∧ target = peer then call
      else s.voteCalls other term target := by
  rw [setVoteCall]
  by_cases sameNode : other = id
  · subst sameNode
    by_cases sameTerm : term = election
    · subst sameTerm
      by_cases samePeer : target = peer
      · subst samePeer
        simp
      · simp [samePeer]
    · simp [sameTerm]
  · simp [sameNode]

theorem voteCalls_startElection (s : Cluster) (id other : NodeID) (term : Nat) (target : NodeID) :
    (s.startElection id).voteCalls other term target =
      if other = id ∧ term = (s.nodes id).currentTerm + 1 then
        if target ∈ (s.nodes id).peers then .spawned else .absent
      else s.voteCalls other term target := by
  rw [startElection]
  by_cases sameNode : other = id
  · subst sameNode
    by_cases sameTerm : term = (s.nodes other).currentTerm + 1
    · subst sameTerm
      rw [if_pos ⟨rfl, rfl⟩]
      simp only [Node.startElection, update_self]
      rfl
    · simp [sameTerm, Node.startElection]
  · simp [sameNode]

theorem voteCalls_deliverVote (s : Cluster) (id : NodeID) (election : Nat) (peer : NodeID)
    (req : RequestVoteRequest) : (s.deliverVote id election peer req).voteCalls =
      (s.setVoteCall id election peer { s.voteCalls id election peer with
        responses := (s.voteCalls id election peer).responses ++
          [((s.nodes peer).handleRequestVote req).2] }).voteCalls :=
  rfl

theorem nodes_voteReply (s : Cluster) (id : NodeID) (election : Nat) (peer : NodeID)
    (req : RequestVoteRequest) (resp : RequestVoteResponse) :
    (s.voteReply id election peer req resp).nodes =
      update s.nodes id ((s.nodes id).voteReply (s.votesReceived id election) req resp).1 := by
  rw [voteReply]
  simp only
  split <;> rfl

theorem voteCalls_voteReply (s : Cluster) (id : NodeID) (election : Nat) (peer : NodeID)
    (req : RequestVoteRequest) (resp : RequestVoteResponse) :
    (s.voteReply id election peer req resp).voteCalls =
      (s.setVoteCall id election peer { s.voteCalls id election peer with
        finished := true, counted := (s.nodes id).countsVote req resp }).voteCalls := by
  rw [voteReply]
  simp only
  split <;> rfl

theorem votesReceived_voteReply (s : Cluster) (id : NodeID) (election : Nat) (peer : NodeID)
    (req : RequestVoteRequest) (resp : RequestVoteResponse) :
    (s.voteReply id election peer req resp).votesReceived =
      update s.votesReceived id (update (s.votesReceived id) election
        ((s.nodes id).voteReply (s.votesReceived id election) req resp).2) := by
  rw [voteReply]
  simp only
  split <;> rfl

theorem grants_voteReply (s : Cluster) (id : NodeID) (election : Nat) (peer : NodeID)
    (req : RequestVoteRequest) (resp : RequestVoteResponse) :
    (s.voteReply id election peer req resp).grants = s.grants := by
  rw [voteReply]
  simp only
  split <;> rfl

theorem appendCalls_voteReply (s : Cluster) (id : NodeID) (election : Nat) (peer : NodeID)
    (req : RequestVoteRequest) (resp : RequestVoteResponse) :
    (s.voteReply id election peer req resp).appendCalls = s.appendCalls ∨
      (s.voteReply id election peer req resp).appendCalls =
        ((s.setNode id ((s.nodes id).voteReply (s.votesReceived id election) req
            resp).1).spawnHeartbeats id).appendCalls := by
  rw [voteReply]
  simp only
  split
  · exact Or.inr rfl
  · exact Or.inl rfl

/-! ## Nodes -/

/-- What an event other than a timeout can do to a node. -/
inductive Reacts (n : Node) : Node -> Prop where
  | same : Reacts n n
  | propose (command : Bytes) (leads : n.state = .leader) :
      Reacts n { n with log := n.log ++ [⟨n.currentTerm, n.log.length + 1, command⟩] }
  | voteHandled {req : RequestVoteRequest} {resp : RequestVoteResponse} {after : Node}
      (handled : n.VoteHandled req after resp) : Reacts n after
  | voteReplied {votes counted : Nat} {req : RequestVoteRequest} {resp : RequestVoteResponse}
      {after : Node} (replied : n.VoteReplied votes req resp after counted) : Reacts n after
  | appendHandled {req : AppendEntriesRequest} {resp : AppendEntriesResponse} {after : Node}
      (handled : n.AppendHandled req after resp) : Reacts n after
  | appendReplied {peer : NodeID} {req : AppendEntriesRequest} {resp : AppendEntriesResponse}
      {after : Node} (replied : n.AppendReplied peer req resp after) : Reacts n after
  | receive : Reacts n { n with applyCh := n.applyCh.receive }

variable {nodes : NodeID -> Node} {n : Node} {changed : NodeID}

/-- A relation between the states of a node, when one node changes. -/
theorem related_update {R : Node -> Node -> Prop} (same : forall n, R n n)
    (related : R (nodes changed) n) (id : NodeID) :
    R (nodes id) (update nodes changed n id) := by
  rcases eq_or_ne id changed with rfl | other
  · rw [update_self]
    exact related
  · rw [update_of_ne other]
    exact same _

theorem Reacts.of_update (reacts : Reacts (nodes changed) n) (id : NodeID) :
    Reacts (nodes id) (update nodes changed n id) :=
  related_update (fun _ => .same) reacts id

theorem propose_of_leader (leads : n.state = .leader) (command : Bytes) :
    (n.propose command).1 = { n with
        log := n.log ++ [⟨n.currentTerm, n.log.length + 1, command⟩] } := by
  rw [Node.propose, if_neg (not_not.mpr leads)]

/-- An election starts, or every node reacts. -/
theorem Action.reacts {config : ClusterConfig} {s after : Cluster} {event : Event}
    (action : Action config s event after) :
    (Exists fun id => id ∈ config.ids ∧ after = s.startElection id) ∨
      forall id, Reacts (s.nodes id) (after.nodes id) := by
  cases action with
  | none => exact Or.inr fun _ => .same
  | startElection member => exact Or.inl ⟨_, member, rfl⟩
  | heartbeat member leads => exact Or.inr fun _ => .same
  | propose member leads =>
      refine Or.inr fun id => Reacts.of_update ?_ id
      rw [propose_of_leader leads]
      exact .propose _ leads
  | read started reads => exact Or.inr fun _ => .same
  | deliverVote request =>
      exact Or.inr (Reacts.of_update (.voteHandled (Node.handleRequestVote_spec _ _)))
  | voteReply request answered waiting =>
      rw [nodes_voteReply]
      exact Or.inr (Reacts.of_update (.voteReplied (Node.voteReply_spec _ _ _ _)))
  | buildAppend there unbuilt => exact Or.inr fun _ => .same
  | deliverAppend there built =>
      exact Or.inr (Reacts.of_update (.appendHandled (Node.handleAppendEntries_spec _ _)))
  | appendReply there built answered =>
      exact Or.inr (Reacts.of_update (.appendReplied (Node.appendEntriesReply_spec _ _ _ _)))
  | receive => exact Or.inr (Reacts.of_update .receive)

/-- A node keeps its identity and its peers, and never goes back to an earlier
term.  While it is no follower, it is in the term of its election. -/
structure Continues (n after : Node) : Prop where
  id : after.id = n.id
  peers : after.peers = n.peers
  term : n.currentTerm ≤ after.currentTerm
  role : after.state ≠ .follower -> after.currentTerm = n.currentTerm ∧ n.state ≠ .follower

theorem Continues.of_same {n after : Node} (id : after.id = n.id) (peers : after.peers = n.peers)
    (term : after.currentTerm = n.currentTerm) (state : after.state = n.state) :
    Continues n after :=
  ⟨id, peers, Nat.le_of_eq term.symm, fun active => ⟨term, state ▸ active⟩⟩

theorem continues_catchUp {term : Nat} (current : n.currentTerm ≤ term) :
    Continues n (n.catchUp term) := by
  rcases Nat.lt_or_eq_of_le current with later | rfl
  · rw [Node.catchUp_of_lt later]
    exact ⟨rfl, rfl, current, fun active => absurd rfl active⟩
  · rw [Node.catchUp_self]
    exact .of_same rfl rfl rfl rfl

theorem Reacts.continues {n after : Node} (reacts : Reacts n after) : Continues n after := by
  cases reacts with
  | same => exact .of_same rfl rfl rfl rfl
  | propose command leads => exact .of_same rfl rfl rfl rfl
  | voteHandled handled =>
      cases handled with
      | stale old => exact .of_same rfl rfl rfl rfl
      | refused current => exact continues_catchUp current
      | granted current free upToDate =>
          rcases continues_catchUp current with ⟨id, peers, term, role⟩
          exact ⟨id, peers, term, role⟩
  | voteReplied replied =>
      cases replied with
      | ignored notCounted => exact .of_same rfl rfl rfl rfl
      | deposed notCounted later =>
          exact ⟨rfl, rfl, Nat.le_of_lt later, fun active => absurd rfl active⟩
      | counted counted => exact .of_same rfl rfl rfl rfl
      | won counted enough =>
          refine ⟨rfl, rfl, Nat.le_refl _, fun _ => ⟨rfl, ?_⟩⟩
          rw [(Node.countsVote_iff.mp counted).1]
          exact NodeState.noConfusion
  | appendHandled handled =>
      rename_i req resp
      cases handled with
      | stale old resp failed => exact .of_same rfl rfl rfl rfl
      | rejected current resp failed => exact ⟨rfl, rfl, current, fun active => absurd rfl active⟩
      | accepted current previous resp =>
          have commits := (Node.followCommit_spec (n.takeEntries req) req.leaderCommit).1
          exact ⟨commits.id, commits.peers, commits.currentTerm.symm ▸ current,
            fun active => absurd commits.state active⟩
  | appendReplied replied =>
      rename_i peer req resp
      cases replied with
      | ignored => exact .of_same rfl rfl rfl rfl
      | deposed later => exact ⟨rfl, rfl, Nat.le_of_lt later, fun active => absurd rfl active⟩
      | matched leads same success =>
          have commits := (Node.updateCommitIndex_spec (n.matched peer req)).1
          exact .of_same commits.id commits.peers commits.currentTerm commits.state
      | retried more => exact .of_same rfl rfl rfl rfl
  | receive => exact .of_same rfl rfl rfl rfl

/-- A candidate that does not start an election is the candidate that it was. -/
theorem Reacts.candidate {n later : Node} (reacts : Reacts n later)
    (candidate : later.state = .candidate) :
    n.state = .candidate ∧ later.log = n.log ∧ later.currentTerm = n.currentTerm := by
  cases reacts with
  | same => exact ⟨candidate, rfl, rfl⟩
  | propose command leads => cases leads.symm.trans candidate
  | @voteHandled req resp _ handled =>
      have caught : n.currentTerm ≤ req.term -> (n.catchUp req.term).state = .candidate ->
          n.state = .candidate ∧ (n.catchUp req.term).currentTerm = n.currentTerm := by
        intro current still
        rcases Nat.lt_or_eq_of_le current with newer | same
        · rw [Node.catchUp_of_lt newer] at still
          cases still
        · rw [← same, Node.catchUp_self] at still ⊢
          exact ⟨still, rfl⟩
      cases handled with
      | stale old => exact ⟨candidate, rfl, rfl⟩
      | refused current =>
          rcases caught current candidate with ⟨before, sameTerm⟩
          exact ⟨before, n.log_catchUp req.term, sameTerm⟩
      | granted current free upToDate =>
          rcases caught current candidate with ⟨before, sameTerm⟩
          exact ⟨before, n.log_catchUp req.term, sameTerm⟩
  | voteReplied replied =>
      cases replied with
      | ignored notCounted => exact ⟨candidate, rfl, rfl⟩
      | deposed notCounted newer => cases candidate
      | counted counted => exact ⟨candidate, rfl, rfl⟩
      | won counted enough => cases candidate
  | @appendHandled req resp _ handled =>
      cases handled with
      | stale old resp failed => exact ⟨candidate, rfl, rfl⟩
      | rejected current resp failed => cases candidate
      | accepted current previous resp =>
          rw [(Node.followCommit_spec (n.takeEntries req) req.leaderCommit).1.state] at candidate
          cases candidate
  | @appendReplied peer req resp _ replied =>
      cases replied with
      | ignored => exact ⟨candidate, rfl, rfl⟩
      | deposed newer => cases candidate
      | matched leads same success =>
          rw [(Node.updateCommitIndex_spec (n.matched peer req)).1.state] at candidate
          cases leads.symm.trans candidate
      | retried more => exact ⟨candidate, rfl, rfl⟩
  | receive => exact ⟨candidate, rfl, rfl⟩

/-- A node has the vote that it had in its term, or none. -/
def KeepsVote (n after : Node) : Prop :=
  after.votedFor = [] ∨ after.votedFor = n.votedFor ∧ after.currentTerm = n.currentTerm

theorem KeepsVote.refl (n : Node) : KeepsVote n n := Or.inr ⟨rfl, rfl⟩

theorem KeepsVote.of_update (keeps : KeepsVote (nodes changed) n) (id : NodeID) :
    KeepsVote (nodes id) (update nodes changed n id) :=
  related_update KeepsVote.refl keeps id

/-- A node that handles a request for its vote and does not grant it. -/
theorem keepsVote_of_voteHandled {n after : Node} {req : RequestVoteRequest}
    {resp : RequestVoteResponse} (handled : n.VoteHandled req after resp)
    (refused : resp.voteGranted = false) : KeepsVote n after := by
  cases handled with
  | stale old => exact .refl _
  | refused current =>
      rcases Nat.lt_or_eq_of_le current with later | same
      · exact Or.inl (congrArg Node.votedFor (Node.catchUp_of_lt later))
      · rw [← same, Node.catchUp_self]
        exact .refl _
  | granted current free upToDate => cases refused

/-- A node that grants its vote does so in the term of the request. -/
theorem vote_of_granted {n after : Node} {req : RequestVoteRequest} {resp : RequestVoteResponse}
    (handled : n.VoteHandled req after resp) (granted : resp.voteGranted = true) :
    after.currentTerm = req.term ∧ after.votedFor = req.candidateID := by
  cases handled with
  | stale old => cases granted
  | refused current => cases granted
  | granted current free upToDate => exact ⟨Node.currentTerm_catchUp current, rfl⟩

theorem keepsVote_of_voteReplied {n after : Node} {votes counted : Nat} {req : RequestVoteRequest}
    {resp : RequestVoteResponse} (replied : n.VoteReplied votes req resp after counted) :
    KeepsVote n after := by
  cases replied with
  | deposed notCounted later => exact Or.inl rfl
  | _ => exact .refl _

theorem keepsVote_of_appendHandled {n after : Node} (handled : n.AppendHandled req after resp) :
    KeepsVote n after := by
  cases handled with
  | stale old resp failed => exact .refl _
  | rejected current resp failed => exact Or.inl rfl
  | accepted current previous resp =>
      exact Or.inl (Node.followCommit_spec (n.takeEntries req) req.leaderCommit).1.votedFor

theorem keepsVote_of_appendReplied {n after : Node} {peer : NodeID}
    (replied : n.AppendReplied peer req resp after) : KeepsVote n after := by
  cases replied with
  | ignored => exact .refl _
  | deposed later => exact Or.inl rfl
  | matched leads same success =>
      have commits := (Node.updateCommitIndex_spec (n.matched peer req)).1
      exact Or.inr ⟨commits.votedFor, commits.currentTerm⟩
  | retried more => exact .refl _

/-- A node that leads now has led before in the same term. -/
def KeepsLead (n after : Node) : Prop :=
  after.state = .leader -> n.state = .leader ∧ after.currentTerm = n.currentTerm

theorem KeepsLead.refl (n : Node) : KeepsLead n n := fun leads => ⟨leads, rfl⟩

theorem KeepsLead.of_update (keeps : KeepsLead (nodes changed) n) (id : NodeID) :
    KeepsLead (nodes id) (update nodes changed n id) :=
  related_update KeepsLead.refl keeps id

theorem keepsLead_of_follower {n after : Node} (follows : after.state = .follower) :
    KeepsLead n after := by
  intro leads
  rw [follows] at leads
  cases leads

theorem keepsLead_of_voteHandled {n after : Node} {req : RequestVoteRequest}
    {resp : RequestVoteResponse} (handled : n.VoteHandled req after resp) : KeepsLead n after := by
  have caught : n.currentTerm ≤ req.term -> KeepsLead n (n.catchUp req.term) := by
    intro current
    rcases Nat.lt_or_eq_of_le current with later | same
    · exact keepsLead_of_follower (congrArg Node.state (Node.catchUp_of_lt later))
    · rw [← same, Node.catchUp_self]
      exact .refl _
  cases handled with
  | stale old => exact .refl _
  | refused current => exact caught current
  | granted current free upToDate => exact caught current

theorem keepsLead_of_appendHandled {n after : Node} (handled : n.AppendHandled req after resp) :
    KeepsLead n after := by
  cases handled with
  | stale old resp failed => exact .refl _
  | rejected current resp failed => exact keepsLead_of_follower rfl
  | accepted current previous resp =>
      exact keepsLead_of_follower
        (Node.followCommit_spec (n.takeEntries req) req.leaderCommit).1.state

theorem keepsLead_of_appendReplied {n after : Node} {peer : NodeID}
    (replied : n.AppendReplied peer req resp after) : KeepsLead n after := by
  cases replied with
  | ignored => exact .refl _
  | deposed later => exact keepsLead_of_follower rfl
  | matched leads same success =>
      have commits := (Node.updateCommitIndex_spec (n.matched peer req)).1
      exact fun _ => ⟨leads, commits.currentTerm⟩
  | retried more => exact .refl _

variable {config : ClusterConfig} {s after : Cluster} {event : Event}

/-- The event by which a node becomes leader: it counts a vote, and the counter
of some election exceeds the threshold. -/
structure Wins (s : Cluster) (event : Event) (after : Cluster) (id : NodeID) (election : Nat)
    (peer : NodeID) (response : Nat) (req : RequestVoteRequest)
    (resp : RequestVoteResponse) : Prop where
  happens : event = .voteReply id election peer response
  request : (s.voteCalls id election peer).request id = some req
  answered : (s.voteCalls id election peer).responses[response]? = some resp
  waiting : (s.voteCalls id election peer).finished = false
  result : after = s.voteReply id election peer req resp
  counted : (s.nodes id).countsVote req resp = true
  enough : (s.nodes id).peers.length / 2 + 1 < s.votesReceived id election + 1
  leads : after.nodes id = (s.nodes id).becomeLeader

theorem Action.lead (action : Action config s event after) (id : NodeID)
    (leads : (after.nodes id).state = .leader) :
    (s.nodes id).state = .leader ∧ (after.nodes id).currentTerm = (s.nodes id).currentTerm ∨
      Exists fun election => Exists fun peer => Exists fun response => Exists fun req =>
          Exists fun resp =>
        Wins s event after id election peer response req resp := by
  cases action with
  | none => exact Or.inl ⟨leads, rfl⟩
  | startElection member =>
      have candidate : forall n : Node, KeepsLead n n.startElection := fun n leads => nomatch leads
      exact Or.inl (KeepsLead.of_update (candidate _) id leads)
  | heartbeat member isLeader => exact Or.inl ⟨leads, rfl⟩
  | propose member isLeader =>
      refine Or.inl (KeepsLead.of_update ?_ id leads)
      rw [propose_of_leader isLeader]
      exact .refl _
  | read started reads => exact Or.inl ⟨leads, rfl⟩
  | deliverVote request =>
      exact Or.inl (KeepsLead.of_update
        (keepsLead_of_voteHandled (Node.handleRequestVote_spec _ _)) id leads)
  | @voteReply voter election peer response req resp request answered waiting =>
      have nodes := s.nodes_voteReply voter election peer req resp
      have replied := (s.nodes voter).voteReply_spec (s.votesReceived voter election) req resp
      rcases eq_or_ne id voter with rfl | other
      · have here : (s.voteReply id election peer req resp).nodes id =
            ((s.nodes id).voteReply (s.votesReceived id election) req resp).1 :=
              by rw [nodes, update_self]
        generalize (s.nodes id).voteReply (s.votesReceived id election) req resp =
          result at replied here
        rcases result with ⟨later, votes⟩
        rw [here] at leads ⊢
        cases replied with
        | ignored notCounted => exact Or.inl ⟨leads, rfl⟩
        | deposed notCounted later => cases leads
        | counted counted => exact Or.inl ⟨leads, rfl⟩
        | won counted enough =>
            exact Or.inr ⟨election, peer, response, req, resp, rfl, request, answered, waiting, rfl,
              counted, enough, here⟩
      · rw [nodes, update_of_ne other] at leads ⊢
        exact Or.inl ⟨leads, rfl⟩
  | buildAppend there unbuilt => exact Or.inl ⟨leads, rfl⟩
  | deliverAppend there built =>
      exact Or.inl (KeepsLead.of_update
        (keepsLead_of_appendHandled (Node.handleAppendEntries_spec _ _)) id leads)
  | appendReply there built answered =>
      exact Or.inl (KeepsLead.of_update
        (keepsLead_of_appendReplied (Node.appendEntriesReply_spec _ _ _ _)) id leads)
  | @receive receiver =>
      have same : KeepsLead (s.nodes receiver) { s.nodes receiver with
          applyCh := (s.nodes receiver).applyCh.receive } := fun leads => ⟨leads, rfl⟩
      exact Or.inl (same.of_update id leads)

/-! ## Goroutines of elections -/

/-- What an action can do to a goroutine of `startElection`. -/
inductive Proceeds (config : ClusterConfig) (s : Cluster) (event : Event)
    (after : Cluster) (id : NodeID) (election : Nat) (peer : NodeID) : VoteCall -> Prop where
  | same : Proceeds config s event after id election peer (s.voteCalls id election peer)
  | absent : Proceeds config s event after id election peer .absent
  | spawned (member : id ∈ config.ids) (begun : after = s.startElection id)
      (new : election = (s.nodes id).currentTerm + 1) (isPeer : peer ∈ (s.nodes id).peers) :
      Proceeds config s event after id election peer .spawned
  | read {call : VoteCall} (started : (s.voteCalls id election peer).started = true)
      (reads : Reads (s.nodes id) id election peer (s.voteCalls id election peer) event call)
      (nodes : after.nodes = s.nodes) :
      Proceeds config s event after id election peer call
  | answered (req : RequestVoteRequest) (happens : event = .deliverVote id election peer)
      (request : (s.voteCalls id election peer).request id = some req)
      (result : after = s.deliverVote id election peer req) :
      Proceeds config s event after id election peer { s.voteCalls id election peer with
        responses := (s.voteCalls id election peer).responses ++
          [((s.nodes peer).handleRequestVote req).2] }
  | finished (response : Nat) (req : RequestVoteRequest) (resp : RequestVoteResponse)
      (happens : event = .voteReply id election peer response)
      (request : (s.voteCalls id election peer).request id = some req)
      (replied : (s.voteCalls id election peer).responses[response]? = some resp)
      (waiting : (s.voteCalls id election peer).finished = false) :
      Proceeds config s event after id election peer { s.voteCalls id election peer with
        finished := true, counted := (s.nodes id).countsVote req resp }

theorem Action.proceeds (action : Action config s event after) (id : NodeID) (election : Nat)
    (peer : NodeID) :
    Proceeds config s event after id election peer (after.voteCalls id election peer) := by
  cases action with
  | @startElection candidate member =>
      rw [voteCalls_startElection]
      split
      · rename_i here
        rcases here with ⟨rfl, new⟩
        split
        · rename_i isPeer
          exact .spawned member rfl new isPeer
        · exact .absent
      · exact .same
  | read started reads =>
      rw [voteCalls_setVoteCall]
      split
      · rename_i here
        rcases here with ⟨rfl, rfl, rfl⟩
        exact .read started reads rfl
      · exact .same
  | @deliverVote candidate term voter req request =>
      rw [voteCalls_deliverVote, voteCalls_setVoteCall]
      split
      · rename_i here
        rcases here with ⟨rfl, rfl, rfl⟩
        exact .answered req rfl request rfl
      · exact .same
  | @voteReply candidate term voter response req resp request answered waiting =>
      rw [voteCalls_voteReply, voteCalls_setVoteCall]
      split
      · rename_i here
        rcases here with ⟨rfl, rfl, rfl⟩
        exact .finished response req resp rfl request answered waiting
      · exact .same
  | _ => exact .same

/-- A goroutine that still reads is started and has no request yet, and reading
changes nothing but the request. -/
theorem started_of_reads {id peer : NodeID} {election : Nat} {call later : VoteCall}
    (reads : Reads n id election peer call event later) :
    later.started = call.started ∧ later.responses = call.responses ∧ later.finished = call.finished ∧
      later.counted = call.counted := by
  cases reads <;> exact ⟨rfl, rfl, rfl, rfl⟩

/-! ## Goroutines of leaders -/

/-- What an action can do to a goroutine of `sendHeartbeats`. -/
inductive Sends (config : ClusterConfig) (s : Cluster) (event : Event) : AppendCall -> Prop where
  | same {call : AppendCall} (old : call ∈ s.appendCalls) : Sends config s event call
  | spawned {id peer : NodeID} (member : id ∈ config.ids) (isPeer : peer ∈ config.peers id) :
      Sends config s event ⟨id, peer, none, [], false⟩
  | built {index : Nat} {call : AppendCall} {req : AppendEntriesRequest}
      (happens : event = .buildAppend index) (old : call ∈ s.appendCalls)
      (unbuilt : call.request = none)
      (request : (s.nodes call.leader).appendEntriesFor call.peer = some req) :
      Sends config s event { call with request := some req }
  | answered {index : Nat} {call : AppendCall} {req : AppendEntriesRequest}
      (happens : event = .deliverAppend index) (there : s.appendCalls[index]? = some call)
      (built : call.request = some req) :
      Sends config s event { call with
        responses := call.responses ++ [((s.nodes call.peer).handleAppendEntries req).2] }
  | finished {call : AppendCall} (old : call ∈ s.appendCalls) :
    Sends config s event { call with finished := true }

/-! ## Well-formed states -/

theorem nodup_peers {id : NodeID} (member : id ∈ config.ids) : (config.peers id).Nodup :=
  (config.others id member).nodup_iff.mpr (config.distinct.erase id)

/-- The cluster is a node and its peers. -/
theorem perm_cons_peers {id : NodeID} (member : id ∈ config.ids) :
    config.ids.Perm (id :: config.peers id) :=
  (List.perm_cons_erase member).trans ((config.others id member).symm.cons id)

/-- Nodes and goroutines belong to the cluster. -/
structure WellFormed (config : ClusterConfig) (s : Cluster) : Prop where
  id : forall id, (s.nodes id).id = id
  peers : forall id, (s.nodes id).peers = config.peers id
  absent : forall id election peer, (s.voteCalls id election peer).started = false ->
    s.voteCalls id election peer = .absent
  started : forall id election peer, (s.voteCalls id election peer).started = true ->
    id ∈ config.ids ∧ peer ∈ config.peers id ∧ election ≤ (s.nodes id).currentTerm
  appends : forall call, call ∈ s.appendCalls -> call.leader ∈ config.ids ∧
    call.peer ∈ config.peers call.leader
  active : forall id, (s.nodes id).state ≠ .follower -> id ∈ config.ids

theorem Action.continues (action : Action config s event after) (id : NodeID) :
    (after.nodes id).id = (s.nodes id).id ∧ (after.nodes id).peers = (s.nodes id).peers ∧
      (s.nodes id).currentTerm ≤ (after.nodes id).currentTerm := by
  rcases action.reacts with ⟨elected, _, rfl⟩ | reacts
  · rw [nodes_startElection]
    rcases eq_or_ne id elected with rfl | other
    · rw [update_self]
      exact ⟨rfl, rfl, Nat.le_succ _⟩
    · rw [update_of_ne other]
      exact ⟨rfl, rfl, Nat.le_refl _⟩
  · exact ⟨(reacts id).continues.id, (reacts id).continues.peers, (reacts id).continues.term⟩

theorem wellFormed_init (config : ClusterConfig) : WellFormed config (init config) := by
  refine ⟨fun _ => rfl, fun _ => rfl, fun _ _ _ _ => rfl, ?_, ?_, ?_⟩
  · intro id election peer started
    cases started
  · intro call member
    cases member
  · intro id active
    exact absurd rfl active

namespace WellFormed

variable (wf : WellFormed config s)

include wf

/-- A goroutine that has built its request was started. -/
theorem started_of_request {id peer : NodeID} {election : Nat} {req : RequestVoteRequest}
    (request : (s.voteCalls id election peer).request id = some req) :
    (s.voteCalls id election peer).started = true := by
  by_contra notStarted
  rw [wf.absent id election peer (Bool.eq_false_iff.mpr notStarted)] at request
  cases request

theorem absent_step (action : Action config s event after) (id : NodeID) (election : Nat)
    (peer : NodeID) (notStarted : (after.voteCalls id election peer).started = false) :
    after.voteCalls id election peer = .absent := by
  have proceeds := action.proceeds id election peer
  generalize after.voteCalls id election peer = call at proceeds notStarted
  cases proceeds with
  | same => exact wf.absent id election peer notStarted
  | absent => rfl
  | spawned member begun new isPeer => cases notStarted
  | read started reads nodes =>
      rw [(started_of_reads reads).1, started] at notStarted
      cases notStarted
  | answered req happens request result => cases (wf.started_of_request request).symm.trans notStarted
  | finished response req resp happens request replied waiting =>
      cases (wf.started_of_request request).symm.trans notStarted

theorem started_step (action : Action config s event after) (id : NodeID) (election : Nat)
    (peer : NodeID) (started : (after.voteCalls id election peer).started = true) :
    id ∈ config.ids ∧ peer ∈ config.peers id ∧ election ≤ (after.nodes id).currentTerm := by
  have proceeds := action.proceeds id election peer
  have old : (s.voteCalls id election peer).started = true ->
      id ∈ config.ids ∧ peer ∈ config.peers id ∧ election ≤ (after.nodes id).currentTerm := by
    intro before
    rcases wf.started id election peer before with ⟨member, isPeer, reached⟩
    exact ⟨member, isPeer, Nat.le_trans reached (action.continues id).2.2⟩
  generalize after.voteCalls id election peer = call at proceeds started
  cases proceeds with
  | same => exact old started
  | absent => cases started
  | spawned member begun new isPeer =>
      refine ⟨member, wf.peers id ▸ isPeer, ?_⟩
      subst begun
      rw [nodes_startElection, update_self, new]
      exact Nat.le_refl _
  | read before reads nodes => exact old before
  | answered req happens request result => exact old started
  | finished response req resp happens request replied waiting => exact old started

/-- The goroutines of a leader. -/
theorem heartbeats {t : Cluster} {id : NodeID} (member : id ∈ config.ids)
    (old : t.appendCalls = s.appendCalls) (peers : (t.nodes id).peers = (s.nodes id).peers)
    {call : AppendCall} (inside : call ∈ (t.spawnHeartbeats id).appendCalls) :
    Sends config s event call := by
  rcases List.mem_append.mp inside with before | new
  · exact .same (old ▸ before)
  · rcases List.mem_map.mp new with ⟨peer, isPeer, rfl⟩
    exact .spawned member (wf.peers id ▸ peers ▸ isPeer)

variable (action : Action config s event after)

include action

theorem sends {call : AppendCall} (inside : call ∈ after.appendCalls) :
    Sends config s event call := by
  have whole := action
  cases action with
  | heartbeat member leads => exact wf.heartbeats member rfl rfl inside
  | @propose id command member leads =>
      exact wf.heartbeats (t := s.setNode id ((s.nodes id).propose command).1) member rfl
        (whole.continues id).2.1 inside
  | @voteReply id election peer response req resp request answered waiting =>
      rcases s.appendCalls_voteReply id election peer req resp with same | spawned
      · exact .same (same ▸ inside)
      · have peers := (whole.continues id).2.1
        rw [nodes_voteReply] at peers
        rw [spawned] at inside
        have member := (wf.started id election peer (wf.started_of_request request)).1
        exact wf.heartbeats (t := s.setNode id _) member rfl peers inside
  | @buildAppend index old there unbuilt =>
      have before := List.mem_of_getElem? there
      rcases List.mem_or_eq_of_mem_set inside with same | new
      · exact .same same
      · split at new
        · rw [new]
          exact .finished before
        · rename_i req request
          rw [new]
          exact .built rfl before unbuilt request
  | deliverAppend there built =>
      rcases List.mem_or_eq_of_mem_set inside with same | rfl
      · exact .same same
      · exact .answered rfl there built
  | appendReply there built answered =>
      rcases List.mem_or_eq_of_mem_set inside with same | rfl
      · exact .same same
      · exact .finished (List.mem_of_getElem? there)
  | _ => exact .same inside

theorem appends_step (call : AppendCall) (inside : call ∈ after.appendCalls) :
    call.leader ∈ config.ids ∧ call.peer ∈ config.peers call.leader := by
  cases wf.sends action inside with
  | same old => exact wf.appends call old
  | spawned member isPeer => exact ⟨member, isPeer⟩
  | @built _ before _ happens old unbuilt request => exact wf.appends before old
  | @answered _ before _ happens there built => exact wf.appends before (List.mem_of_getElem? there)
  | @finished before old => exact wf.appends before old

theorem active_step (id : NodeID) (active : (after.nodes id).state ≠ .follower) :
    id ∈ config.ids := by
  rcases action.reacts with ⟨candidate, member, rfl⟩ | reacts
  · rw [nodes_startElection] at active
    rcases eq_or_ne id candidate with rfl | different
    · exact member
    · rw [update_of_ne different] at active
      exact wf.active id active
  · exact wf.active id ((reacts id).continues.role active).2

theorem step : WellFormed config after := by
  refine ⟨?_, ?_, wf.absent_step action, wf.started_step action, wf.appends_step action,
    wf.active_step action⟩
  · intro id
    rw [(action.continues id).1, wf.id]
  · intro id
    rw [(action.continues id).2.1, wf.peers]

end WellFormed

theorem wellFormed_run (config : ClusterConfig) (events : List Event) :
    WellFormed config (run config events) := by
  induction events using List.reverseRecOn with
  | nil => exact wellFormed_init config
  | append_singleton events event ih =>
      rw [run_snoc]
      exact ih.step (step_action config _ event)

end Cluster
end Raft
end KVStore
