import KVStore.Raft.Election

namespace KVStore
namespace Raft
namespace Cluster

open Function

/-!
# Leadership

A node leads a term in one piece, and while it does so its log only grows at the
end: a node that has left the leadership of a term is a follower, and can be
elected again in a later term only.

A leader does not stop its election timer, and steps down for a request of its
own term.  Apart from these, only a message of a later term can depose it.
-/

variable {config : ClusterConfig} {s after : Cluster} {event : Event} {id : NodeID}
    {n later : Node} {term : Nat}

/-- The node leads in the term. -/
def Leads (n : Node) (term : Nat) : Prop := n.state = .leader ∧ n.currentTerm = term

instance (n : Node) (term : Nat) : Decidable (Leads n term) := inferInstanceAs (Decidable (_ ∧ _))

/-- The node follows in the term, or has left it. -/
def Resigned (n : Node) (term : Nat) : Prop :=
  term < n.currentTerm ∨ n.currentTerm = term ∧ n.state = .follower

theorem not_leads_of_resigned (resigned : Resigned n term) : ¬ Leads n term := by
  rintro ⟨leads, same⟩
  rcases resigned with newer | ⟨_, follows⟩
  · exact Nat.ne_of_gt newer same
  · cases leads.symm.trans follows

/-! ## Steps -/

/-- A node that becomes follower has left the leadership of its term. -/
theorem resigned_of_follower (current : n.currentTerm ≤ later.currentTerm)
    (follows : later.state = .follower) :
    Resigned later n.currentTerm := by
  rcases Nat.lt_or_eq_of_le current with newer | same
  · exact Or.inl newer
  · exact Or.inr ⟨same.symm, follows⟩

/-- Only an election leads out of a resignation, and into a later term. -/
theorem Reacts.resigned (reacts : Reacts n later) (resigned : Resigned n term) :
    Resigned later term := by
  have continues := reacts.continues
  rcases resigned with newer | ⟨same, follows⟩
  · exact Or.inl (Nat.lt_of_lt_of_le newer continues.term)
  · subst same
    refine resigned_of_follower continues.term ?_
    by_contra active
    exact (continues.role active).2 follows

theorem Resigned.startElection (resigned : Resigned n term) : Resigned n.startElection term := by
  rcases resigned with newer | ⟨same, _⟩
  · exact Or.inl (Nat.lt_succ_of_lt newer)
  · exact Or.inl (Nat.lt_succ_of_le (Nat.le_of_eq same.symm))

theorem Resigned.step (resigned : Resigned (s.nodes id) term)
    (action : Action config s event after) :
    Resigned (after.nodes id) term := by
  rcases action.reacts with ⟨elected, _, rfl⟩ | reacts
  · rw [nodes_startElection]
    rcases eq_or_ne id elected with rfl | different
    · rw [update_self]
      exact resigned.startElection
    · rw [update_of_ne different]
      exact resigned
  · exact (reacts id).resigned resigned

/-- A leader that does not start an election goes on to lead and has kept its
log, or has resigned. -/
theorem Reacts.leader (reacts : Reacts n later) (leads : n.state = .leader) :
    Leads later n.currentTerm ∧ n.log <+: later.log ∨ Resigned later n.currentTerm := by
  cases state : later.state with
  | follower => exact Or.inr (resigned_of_follower reacts.continues.term state)
  | candidate => cases leads.symm.trans (reacts.candidate state).1
  | leader =>
      have same := (reacts.continues.role (state ▸ NodeState.noConfusion)).1
      refine Or.inl ⟨⟨state, same⟩, ?_⟩
      cases reacts with
      | same => exact List.prefix_rfl
      | propose command leads => exact List.prefix_append _ _
      | voteHandled handled =>
          cases handled with
          | stale old => exact List.prefix_rfl
          | refused current => exact Node.log_catchUp n _ ▸ List.prefix_rfl
          | granted current free upToDate => exact Node.log_catchUp n _ ▸ List.prefix_rfl
      | voteReplied replied => cases replied <;> exact List.prefix_rfl
      | @appendHandled req resp _ handled =>
          cases handled with
          | stale old resp failed => exact List.prefix_rfl
          | rejected current resp failed => exact List.prefix_rfl
          | accepted current previous resp =>
              rw [(Node.followCommit_spec (n.takeEntries req) req.leaderCommit).1.state] at state
              cases state
      | @appendReplied peer req resp _ replied =>
          cases replied with
          | matched leads same success =>
              rw [(Node.updateCommitIndex_spec (n.matched peer req)).1.log]
              exact List.prefix_rfl
          | _ => exact List.prefix_rfl
      | receive => exact List.prefix_rfl

theorem Leads.step (leads : Leads (s.nodes id) term) (action : Action config s event after) :
    Leads (after.nodes id) term ∧ (s.nodes id).log <+: (after.nodes id).log ∨
        Resigned (after.nodes id) term := by
  rcases leads with ⟨leads, rfl⟩
  rcases action.reacts with ⟨elected, _, rfl⟩ | reacts
  · rw [nodes_startElection]
    rcases eq_or_ne id elected with rfl | different
    · rw [update_self]
      exact Or.inr (Or.inl (Nat.lt_succ_self _))
    · rw [update_of_ne different]
      exact Or.inl ⟨⟨leads, rfl⟩, List.prefix_rfl⟩
  · exact (reacts id).leader leads

/-! ## Runs -/

theorem resigned_run {events : List Event} (resigned : Resigned ((run config events).nodes id) term)
    (more : List Event) : Resigned ((run config (events ++ more)).nodes id) term := by
  induction more using List.reverseRecOn with
  | nil =>
      rw [List.append_nil]
      exact resigned
  | append_singleton more event ih =>
      rw [← List.append_assoc, run_snoc]
      exact ih.step (step_action config _ event)

theorem leads_or_resigned {events : List Event} (leads : Leads ((run config events).nodes id) term)
    (more : List Event) :
    Leads ((run config (events ++ more)).nodes id) term ∧
        ((run config events).nodes id).log <+: ((run config (events ++ more)).nodes id).log ∨
      Resigned ((run config (events ++ more)).nodes id) term := by
  induction more using List.reverseRecOn with
  | nil =>
      rw [List.append_nil]
      exact Or.inl ⟨leads, List.prefix_rfl⟩
  | append_singleton more event ih =>
      rw [← List.append_assoc, run_snoc]
      have action := step_action config (run config (events ++ more)) event
      rcases ih with ⟨still, grown⟩ | resigned
      · exact (still.step action).imp_left fun both => ⟨both.1, grown.trans both.2⟩
      · exact Or.inr (resigned.step action)

/-- A node that leads after some events and after some more has kept its log. -/
theorem log_of_leads {events : List Event} (leads : Leads ((run config events).nodes id) term)
    {more : List Event} (still : Leads ((run config (events ++ more)).nodes id) term) :
    ((run config events).nodes id).log <+: ((run config (events ++ more)).nodes id).log := by
  rcases leads_or_resigned leads more with ⟨_, grown⟩ | resigned
  · exact grown
  · exact absurd still (not_leads_of_resigned resigned)

/-- The events between two moments of a run. -/
theorem take_append_between (events : List Event) {moment later : Nat} (order : moment ≤ later) :
    events.take later = events.take moment ++ (events.drop moment).take (later - moment) := by
  rw [← List.take_add, Nat.add_sub_cancel' order]

/-- If a node leads in a term at two moments of a run, then its log at the first
moment is a part of its log at the second, and it leads in that term at every
moment in between. -/
theorem leader_append_only (config : ClusterConfig) (events : List Event) (moment later : Nat)
    (order : moment ≤ later) (id : NodeID) (term : Nat)
    (leads : Leads ((run config (events.take moment)).nodes id) term)
    (leadsLater : Leads ((run config (events.take later)).nodes id) term) :
    ((run config (events.take moment)).nodes id).log <+:
      ((run config (events.take later)).nodes id).log ∧
      forall between, moment ≤ between -> between ≤ later ->
        Leads ((run config (events.take between)).nodes id) term := by
  constructor
  · rw [take_append_between events order] at leadsLater ⊢
    exact log_of_leads leads leadsLater
  · intro between after before
    rw [take_append_between events before] at leadsLater
    rw [take_append_between events after] at leadsLater ⊢
    rcases leads_or_resigned leads ((events.drop moment).take (between - moment)) with
      ⟨still, _⟩ | resigned
    · exact still
    · exact absurd leadsLater (not_leads_of_resigned (resigned_run resigned _))

/-- A leader appends two entries. -/
def twoProposals : List Event := calmElection ++ [.propose [97] [1], .propose [97] [2]]

theorem leader_append_only_twoProposals :
    Leads ((run fourNodes (twoProposals.take 12)).nodes [97]) 1 ∧
      ((run fourNodes (twoProposals.take 12)).nodes [97]).log <+:
          ((run fourNodes (twoProposals.take 13)).nodes [97]).log :=
  ⟨by decide +kernel,
    (leader_append_only fourNodes twoProposals 12 13 (by decide) [97] 1 (by decide +kernel)
      (by decide +kernel)).1⟩

/-! ## What deposes a leader -/

/-- The term of the request or of the response that a node processes. -/
def heardTerm (s : Cluster) (id : NodeID) : Event -> Nat
  | .deliverVote candidate election peer =>
      match (s.voteCalls candidate election peer).request candidate with
      | none => 0
      | some req => if peer = id then req.term else 0
  | .voteReply candidate election peer response =>
      match (s.voteCalls candidate election peer).request candidate,
        (s.voteCalls candidate election peer).responses[response]? with
      | some _, some resp =>
          if candidate = id ∧ (s.voteCalls candidate election peer).finished = false then resp.term
          else 0
      | _, _ => 0
  | .deliverAppend index =>
      match s.appendCalls[index]? with
      | none => 0
      | some call =>
          match call.request with
          | none => 0
          | some req => if call.peer = id then req.term else 0
  | .appendReply index response =>
      match s.appendCalls[index]? with
      | none => 0
      | some call =>
          match call.request, call.responses[response]? with
          | some _, some resp => if call.leader = id ∧ call.finished = false then resp.term else 0
          | _, _ => 0
  | _ => 0

/-- The election timer of the node does not fire, and the node gets no
`AppendEntries` of its own term. -/
def undisturbed (s : Cluster) (id : NodeID) : Event -> Bool
  | .electionTimeout other => decide (other ≠ id)
  | .deliverAppend index =>
      match s.appendCalls[index]? with
      | none => true
      | some call =>
          match call.request with
          | none => true
          | some req => decide (call.peer ≠ id ∨ req.term ≠ (s.nodes id).currentTerm)
  | _ => true

theorem Leads.update {nodes : NodeID -> Node} {changed : NodeID} (leads : Leads (nodes id) term)
    (here : id = changed -> Leads n term) : Leads (update nodes changed n id) term := by
  rcases eq_or_ne id changed with rfl | different
  · rw [update_self]
    exact here rfl
  · rw [update_of_ne different]
    exact leads

namespace Leads

variable (leads : Leads n term)

include leads

theorem voteHandled {req : RequestVoteRequest} {resp : RequestVoteResponse}
    (handled : n.VoteHandled req later resp) (quiet : req.term ≤ term) : Leads later term := by
  have caught : n.currentTerm ≤ req.term -> n.catchUp req.term = n := by
    intro current
    rw [Nat.le_antisymm quiet (leads.2 ▸ current), ← leads.2, Node.catchUp_self]
  cases handled with
  | stale old => exact leads
  | refused current =>
      rw [caught current]
      exact leads
  | granted current free upToDate =>
      rw [caught current]
      exact leads

theorem voteReplied {votes counted : Nat} {req : RequestVoteRequest} {resp : RequestVoteResponse}
    (replied : n.VoteReplied votes req resp later counted) (quiet : resp.term ≤ term) :
    Leads later term := by
  cases replied with
  | ignored notCounted => exact leads
  | deposed notCounted newer => exact absurd (leads.2 ▸ newer) (Nat.not_lt.mpr quiet)
  | counted counted => exact leads
  | won counted enough => cases leads.1.symm.trans (Node.countsVote_iff.mp counted).1

/-- A request of an earlier term is turned down. -/
theorem appendHandled {req : AppendEntriesRequest} {resp : AppendEntriesResponse}
    (handled : n.AppendHandled req later resp) (older : req.term < term) : Leads later term := by
  cases handled with
  | stale old resp failed => exact leads
  | rejected current resp failed => exact absurd (leads.2 ▸ current) (Nat.not_le.mpr older)
  | accepted current previous resp => exact absurd (leads.2 ▸ current) (Nat.not_le.mpr older)

theorem appendReplied {peer : NodeID} {req : AppendEntriesRequest} {resp : AppendEntriesResponse}
    (replied : n.AppendReplied peer req resp later) (quiet : resp.term ≤ term) :
    Leads later term := by
  cases replied with
  | ignored => exact leads
  | deposed newer => exact absurd (leads.2 ▸ newer) (Nat.not_lt.mpr quiet)
  | matched isLeader same success =>
      have commits := (Node.updateCommitIndex_spec (n.matched peer req)).1
      exact ⟨commits.state.trans leads.1, commits.currentTerm.trans leads.2⟩
  | retried more => exact leads

end Leads

/-- A leader that is not disturbed and hears of no later term goes on to lead. -/
theorem leads_of_undisturbed (leads : Leads (s.nodes id) term) (quiet : heardTerm s id event ≤ term)
    (calm : undisturbed s id event = true) : Leads ((step config s event).nodes id) term := by
  have action := step_action config s event
  generalize result : step config s event = after at action
  cases action with
  | none => exact leads
  | startElection member =>
      exact leads.update fun same => absurd same.symm (of_decide_eq_true calm)
  | heartbeat member isLeader => exact leads
  | propose member isLeader =>
      refine leads.update ?_
      rintro rfl
      rw [propose_of_leader isLeader]
      exact leads
  | read started reads => exact leads
  | @deliverVote candidate election peer req request =>
      refine leads.update ?_
      rintro rfl
      simp only [heardTerm, request, if_true] at quiet
      exact leads.voteHandled (Node.handleRequestVote_spec _ _) quiet
  | @voteReply candidate election peer response req resp request answered waiting =>
      rw [nodes_voteReply]
      refine leads.update ?_
      rintro rfl
      simp only [heardTerm, request, answered, waiting, and_self, if_true] at quiet
      exact leads.voteReplied (Node.voteReply_spec _ _ _ _) quiet
  | buildAppend there unbuilt => exact leads
  | @deliverAppend index call req there built =>
      refine leads.update ?_
      rintro rfl
      simp only [heardTerm, there, built, if_true] at quiet
      simp only [undisturbed, there, built, decide_eq_true_eq, ne_eq, not_true, false_or] at calm
      exact leads.appendHandled (Node.handleAppendEntries_spec _ _)
        (Nat.lt_of_le_of_ne quiet (leads.2 ▸ calm))
  | @appendReply index response call req resp there built answered =>
      cases finished : call.finished with
      | false =>
          refine leads.update ?_
          rintro rfl
          simp only [heardTerm, there, built, answered, finished, and_self, if_true] at quiet
          exact leads.appendReplied (Node.appendEntriesReply_spec _ _ _ _) quiet
      | true =>
          rw [← result, step_appendReply_of_finished there built answered finished]
          exact leads
  | receive =>
      refine leads.update ?_
      rintro rfl
      exact leads

/-- A node that does not turn down a request follows its sender. -/
theorem follower_of_appendHandled {req : AppendEntriesRequest} {resp : AppendEntriesResponse}
    (handled : n.AppendHandled req later resp) (current : n.currentTerm ≤ req.term) :
    later.state = .follower := by
  cases handled with
  | stale old resp failed => exact absurd current (Nat.not_le.mpr old)
  | rejected current resp failed => rfl
  | accepted current previous resp =>
      exact (Node.followCommit_spec (n.takeEntries req) req.leaderCommit).1.state

/-- A leader that is disturbed does not go on to lead. -/
theorem not_leads_of_disturbed (wf : WellFormed config s) (leads : Leads (s.nodes id) term)
    (disturbed : undisturbed s id event = false) :
    ¬ Leads ((step config s event).nodes id) term := by
  cases event with
  | electionTimeout other =>
      simp only [undisturbed, decide_eq_false_iff_not, not_not] at disturbed
      subst disturbed
      have member : other ∈ config.ids := wf.active other (leads.1 ▸ NodeState.noConfusion)
      rintro ⟨stillLeads, _⟩
      rw [step, if_pos member, nodes_startElection, update_self] at stillLeads
      cases stillLeads
  | deliverAppend index =>
      simp only [undisturbed] at disturbed
      split at disturbed
      · cases disturbed
      · rename_i call there
        split at disturbed
        · cases disturbed
        · rename_i req built
          simp only [decide_eq_false_iff_not, not_or, not_not] at disturbed
          rcases disturbed with ⟨rfl, own⟩
          have nodes : (step config s (.deliverAppend index)).nodes call.peer =
              ((s.nodes call.peer).handleAppendEntries req).1 := by
            simp only [step, there, built]
            exact update_self ..
          rintro ⟨stillLeads, _⟩
          rw [nodes, follower_of_appendHandled (Node.handleAppendEntries_spec _ req)
            (Nat.le_of_eq own.symm)] at stillLeads
          cases stillLeads
  | _ => cases disturbed

/-- The node leads in the term after the first events of a continuation of a run,
however many of them. -/
def LeadsThroughout (config : ClusterConfig) (id : NodeID) (term : Nat) (events more : List Event) :
    Prop :=
  forall count, Leads ((run config (events ++ more.take count)).nodes id) term

theorem leadsThroughout_cons {events more : List Event} :
    LeadsThroughout config id term events (event :: more) <->
      Leads ((run config events).nodes id) term ∧
          LeadsThroughout config id term (events ++ [event]) more := by
  have shifted : forall count, events ++ (event :: more).take (count + 1) = events ++ [event] ++
      more.take count := by
    intro count
    rw [List.take_succ_cons, List.append_assoc, List.singleton_append]
  constructor
  · intro throughout
    refine ⟨List.append_nil events ▸ throughout 0, fun count => ?_⟩
    rw [← shifted]
    exact throughout (count + 1)
  · rintro ⟨leads, throughout⟩ count
    cases count with
    | zero =>
        rw [List.take_zero, List.append_nil]
        exact leads
    | succ count =>
        rw [shifted]
        exact throughout count

/-- While a leader hears of no later term, it goes on to lead exactly as long as
its election timer does not fire and it gets no request of its own term. -/
theorem stable_leadership (config : ClusterConfig) (events more : List Event) (id : NodeID)
    (term : Nat) (leads : Leads ((run config events).nodes id) term)
    (quiet : Along config (fun s event => decide (heardTerm s id event ≤ term))
      (run config events) more) :
    LeadsThroughout config id term events more <->
      Along config (fun s event => undisturbed s id event) (run config events) more := by
  induction more generalizing events with
  | nil =>
      refine ⟨fun _ => trivial, fun _ count => ?_⟩
      rw [List.take_nil, List.append_nil]
      exact leads
  | cons event more ih =>
      rcases quiet with ⟨here, rest⟩
      rw [← run_snoc] at rest
      have next := fun stillLeads => ih (events ++ [event]) stillLeads rest
      rw [leadsThroughout_cons, Along, ← run_snoc]
      constructor
      · rintro ⟨_, throughout⟩
        have stillLeads : Leads ((run config (events ++ [event])).nodes id) term := by
          have now := throughout 0
          rw [List.take_zero, List.append_nil] at now
          exact now
        refine ⟨?_, (next stillLeads).mp throughout⟩
        by_contra disturbed
        rw [Bool.not_eq_true] at disturbed
        rw [run_snoc] at stillLeads
        exact not_leads_of_disturbed (wellFormed_run config events) leads disturbed stillLeads
      · rintro ⟨calm, along⟩
        have stillLeads : Leads ((run config (events ++ [event])).nodes id) term := by
          rw [run_snoc]
          exact leads_of_undisturbed leads (of_decide_eq_true here) calm
        exact ⟨leads, (next stillLeads).mpr along⟩

/-- A leader sends its heartbeats and hears from a peer. -/
def oneHeartbeat : List Event :=
  [.heartbeat [97], .buildAppend 0, .deliverAppend 0, .appendReply 0 0]

theorem stable_leadership_oneHeartbeat :
    Along fourNodes (fun s event => undisturbed s [97] event) (run fourNodes calmElection)
      oneHeartbeat ∧
      LeadsThroughout fourNodes [97] 1 calmElection oneHeartbeat := by
  have along : Along fourNodes (fun s event => undisturbed s [97] event)
      (run fourNodes calmElection) oneHeartbeat := by
    decide +kernel
  exact ⟨along, (stable_leadership fourNodes calmElection oneHeartbeat [97] 1 (by decide +kernel)
    (by decide +kernel)).mpr along⟩

/-- The election timer of a leader fires. -/
theorem leader_deposes_itself :
    Leads ((run fourNodes calmElection).nodes [97]) 1 ∧
      heardTerm (run fourNodes calmElection) [97] (.electionTimeout [97]) = 0 ∧
      ¬ Leads ((run fourNodes (calmElection ++ [.electionTimeout [97]])).nodes [97]) 1 := by
  decide +kernel

end Cluster
end Raft
end KVStore
