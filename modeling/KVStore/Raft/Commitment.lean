import KVStore.Raft.Safety
import KVStore.Raft.Leadership

namespace KVStore
namespace Raft

open Function Majority Replication Consensus

/-!
# Committed entries stay

In a run in which the elections are careful, the commit index of a node never
goes back, and the entries up to it stay in its log and are in the log of every
later leader.  A node commits an entry in one of two ways: as a leader, when a
response lets it know that enough nodes have an entry of its term at the same
index or a later one, and as a follower, when it accepts a request that
announces the commit.
-/

namespace Cluster

variable {config : ClusterConfig} {s after : Cluster} {event : Event} {a b : State NodeID LogEntry}

/-! ## Commit indices -/

theorem commitIndex_of_voteHandled {n later : Node} {req : RequestVoteRequest}
    {resp : RequestVoteResponse} (handled : n.VoteHandled req later resp) :
    later.commitIndex = n.commitIndex := by
  have caught : (n.catchUp req.term).commitIndex = n.commitIndex := by
    unfold Node.catchUp
    split <;> rfl
  cases handled with
  | stale old => rfl
  | refused current => exact caught
  | granted current free upToDate => exact caught

theorem commitIndex_of_voteReplied {n later : Node} {votes counted : Nat} {req : RequestVoteRequest}
    {resp : RequestVoteResponse} (replied : n.VoteReplied votes req resp later counted) :
    later.commitIndex = n.commitIndex := by
  cases replied <;> rfl

theorem commitIndex_of_appendReplied {n later : Node} {peer : NodeID} {req : AppendEntriesRequest}
    {resp : AppendEntriesResponse} (replied : n.AppendReplied peer req resp later) :
    n.commitIndex ≤ later.commitIndex := by
  cases replied with
  | matched leads same success =>
      rcases (Node.updateCommitIndex_spec (n.matched peer req)).2 with ⟨sameCommit, _⟩
        | ⟨committable, _⟩
      · exact Nat.le_of_eq sameCommit.symm
      · exact Nat.le_of_lt committable.1
  | _ => exact Nat.le_refl _

/-- A node that follows the commits of its leader, if its log reaches its own. -/
theorem commitIndex_le_followCommit {n : Node} (inside : n.commitIndex ≤ n.log.length)
    (leaderCommit : Nat) :
    n.commitIndex ≤ (n.followCommit leaderCommit).commitIndex := by
  rcases (n.followCommit_spec leaderCommit).2 with ⟨same, _⟩ | ⟨more, committed, _⟩
  · exact Nat.le_of_eq same.symm
  · rw [committed]
    exact Nat.le_min.mpr ⟨Nat.le_of_lt more, inside⟩

/-- The commit indices after a change of one node. -/
theorem commitIndex_update {changed : NodeID} {n : Node}
    (here : (s.nodes changed).commitIndex ≤ n.commitIndex) (id : NodeID) :
    (s.nodes id).commitIndex ≤ (update s.nodes changed n id).commitIndex :=
  related_update (R := fun n later => n.commitIndex ≤ later.commitIndex)
    (fun _ => Nat.le_refl _) here id

theorem commitIndex_of_appendHandled {n later : Node} (settles : Settles config a n)
    (consensus : Consensus.Invariant LogEntry.term (Quorum config) a) {id leader : NodeID}
    (agrees : Agrees a id n) {req : AppendEntriesRequest} {resp : AppendEntriesResponse}
    {part : List LogEntry} (handled : n.AppendHandled req later resp)
    (carries : Carries a leader req part) :
    n.commitIndex ≤ later.commitIndex := by
  cases handled with
  | stale old resp failed => exact Nat.le_refl _
  | rejected current resp failed => exact Nat.le_refl _
  | accepted current previous resp =>
      have taken := (settles.takeEntries consensus (Grows.refl a) agrees carries current previous).1
      exact commitIndex_le_followCommit (n := n.takeEntries req) taken.inside req.leaderCommit

/-- No node forgets a commit. -/
theorem Committing.commitIndex_le (committing : Committing config s a) (mirrors : Mirrors s a)
    (consensus : Consensus.Invariant LogEntry.term (Quorum config) a)
    (action : Action config s event after) :
    forall id, (s.nodes id).commitIndex ≤ (after.nodes id).commitIndex := by
  cases action with
  | startElection member => exact commitIndex_update (n := (s.nodes _).startElection) (Nat.le_refl _)
  | propose member leads =>
      refine commitIndex_update (Nat.le_of_eq ?_)
      rw [propose_of_leader leads]
  | deliverVote request =>
      exact commitIndex_update
        (Nat.le_of_eq (commitIndex_of_voteHandled (Node.handleRequestVote_spec _ _)).symm)
  | voteReply request answered waiting =>
      rw [nodes_voteReply]
      exact commitIndex_update
        (Nat.le_of_eq (commitIndex_of_voteReplied (Node.voteReply_spec _ _ _ _)).symm)
  | @deliverAppend index call req there built =>
      rcases (mirrors.appends call (List.mem_of_getElem? there)).carries req built with
        ⟨part, carries⟩
      exact commitIndex_update (commitIndex_of_appendHandled (committing.nodes call.peer) consensus
        (mirrors.nodes call.peer) (Node.handleAppendEntries_spec _ req) carries)
  | appendReply there built answered =>
      exact commitIndex_update (commitIndex_of_appendReplied (Node.appendEntriesReply_spec _ _ _ _))
  | receive =>
      exact commitIndex_update (n := { s.nodes _ with applyCh := (s.nodes _).applyCh.receive })
        (Nat.le_refl _)
  | _ => exact fun _ => Nat.le_refl _

/-! ## Longer runs -/

/-- The mirror of a run grows with the run. -/
theorem safe_append {events more : List Event}
    (along : Along config careful (init config) (events ++ more)) :
    Exists fun a => Exists fun b => Safe config events a ∧
        Safe config (events ++ more) b ∧ Grows a b := by
  induction more using List.reverseRecOn with
  | nil =>
      rw [List.append_nil] at along ⊢
      rcases safe_run along with ⟨a, safe⟩
      exact ⟨a, a, safe, safe, Grows.refl a⟩
  | append_singleton more event ih =>
      rw [← List.append_assoc] at along ⊢
      have unique := uniqueLeaders along
      rw [along_append] at along
      rcases ih along.1 with ⟨a, b, before, safe, grows⟩
      rcases safe.snoc along.2.1 unique with ⟨c, more, after⟩
      exact ⟨a, c, before, after, grows.trans more⟩

theorem commitIndex_run_le {events more : List Event}
    (along : Along config careful (init config) (events ++ more)) (id : NodeID) :
    ((run config events).nodes id).commitIndex ≤
    ((run config (events ++ more)).nodes id).commitIndex := by
  induction more using List.reverseRecOn with
  | nil => rw [List.append_nil]
  | append_singleton more event ih =>
      rw [← List.append_assoc] at along ⊢
      rw [along_append] at along
      rcases safe_run along.1 with ⟨a, safe⟩
      rw [run_snoc]
      exact Nat.le_trans (ih along.1) (safe.committing.commitIndex_le safe.mirrored.mirrors
        safe.consensus (step_action config _ event) id)

/-- What a node has committed stays in its log. -/
theorem committed_run {events more : List Event}
    (along : Along config careful (init config) (events ++ more)) (id : NodeID) :
    ((run config events).nodes id).log.take ((run config events).nodes id).commitIndex <+:
      ((run config (events ++ more)).nodes id).log.take
      ((run config (events ++ more)).nodes id).commitIndex := by
  rcases safe_append along with ⟨a, b, before, safe, grows⟩
  have old := before.committing.nodes id
  have new := safe.committing.nodes id
  have settled := old.settled.mono quorum_meet before.consensus grows
  rcases settled.comparable quorum_meet safe.consensus new.settled with below | above
  · exact below
  · have length := above.length_le
    rw [List.length_take_of_le new.inside, List.length_take_of_le old.inside] at length
    have same := above.eq_of_length (by
      rw [List.length_take_of_le new.inside, List.length_take_of_le old.inside]
      exact Nat.le_antisymm length (commitIndex_run_le along id))
    rw [same]

/-- What a node has committed is in the log of every leader of its term or a
later one. -/
theorem committed_of_leads {events more : List Event}
    (along : Along config careful (init config) (events ++ more)) (id leader : NodeID) {term : Nat}
    (reached : ((run config events).nodes id).currentTerm ≤ term)
    (leads : Leads ((run config (events ++ more)).nodes leader) term) :
    ((run config events).nodes id).log.take ((run config events).nodes id).commitIndex <+:
      ((run config (events ++ more)).nodes leader).log := by
  rcases safe_append along with ⟨a, b, before, safe, grows⟩
  rcases leads with ⟨isLeader, rfl⟩
  have agrees := safe.mirrored.mirrors.nodes leader
  have won := agrees.leads.mp isLeader
  have elected : b.winner ((run config (events ++ more)).nodes leader).currentTerm ≠ none := by
    rw [won]
    exact Option.some_ne_none leader
  have settled := ((before.committing.nodes id).settled.mono quorum_meet before.consensus
    grows).weaken reached
  have whole := safe.consensus.logs.leading leader (agrees.term.symm ▸ won)
  rw [agrees.log, agrees.term] at whole
  rw [whole]
  exact settled.prefix_full quorum_meet safe.consensus elected

/-! ## Entries -/

/-- The log has an entry of the term at the index, and it is committed. -/
def HasCommitted (n : Node) (index term : Nat) : Prop :=
  index ≤ n.commitIndex ∧ index ≤ n.log.length ∧ termAt n.log index = term

instance (n : Node) (index term : Nat) : Decidable (HasCommitted n index term) :=
  inferInstanceAs (Decidable (_ ∧ _ ∧ _))

theorem termAt_of_take_part {log other : List LogEntry} {count index : Nat} (positive : 0 < index)
    (inside : index ≤ count) (short : count ≤ log.length) (part : log.take count <+: other) :
    index ≤ other.length ∧ termAt other index = termAt log index := by
  rcases part with ⟨rest, rfl⟩
  have before : index - 1 < (log.take count).length := by
    rw [List.length_take_of_le short]
    omega
  refine ⟨?_, ?_⟩
  · rw [List.length_append]
    omega
  · rw [termAt, termAt, List.getElem?_append_left before, List.getElem?_take_of_lt (by omega)]

theorem hasCommitted_append {events more : List Event}
    (along : Along config careful (init config) (events ++ more)) {id : NodeID} {index term : Nat}
    (positive : 0 < index) (committed : HasCommitted ((run config events).nodes id) index term) :
    HasCommitted ((run config (events ++ more)).nodes id) index term := by
  rcases committed with ⟨reached, inside, own⟩
  rcases safe_append along with ⟨a, _, before, _, _⟩
  have part := (committed_run along id).trans (List.take_prefix _ _)
  rcases termAt_of_take_part positive reached (before.committing.nodes id).inside
    part with ⟨there, same⟩
  exact ⟨Nat.le_trans reached (commitIndex_run_le along id), there, same.trans own⟩

end Cluster

namespace Node

/-- The node accepts a request that announces the commit of an entry, and has
that entry after it. -/
def hearsOfCommit (n : Node) (req : AppendEntriesRequest) (index term : Nat) : Bool :=
  n.accepts req && decide (index ≤ req.leaderCommit ∧
    index ≤ (appendFrom (req.prevLogIndex + 1) n.log req.entries).length ∧
    termAt (appendFrom (req.prevLogIndex + 1) n.log req.entries) index = term)

/-- Enough nodes are known to have an entry of the present term at the index or
after it. -/
def storedByMajority (n : Node) (index : Nat) : Bool :=
  (List.range' index (n.log.length + 1 - index)).any fun later =>
    decide (termAt n.log later = n.currentTerm ∧ n.peers.length / 2 + 1 < n.replicas later)

/-- A leader processes the response by which it gets to know that enough nodes
have an entry. -/
def hearsOfMajority (n : Node) (peer : NodeID) (req : AppendEntriesRequest)
    (resp : AppendEntriesResponse) (index term : Nat) : Bool :=
  decide (n.state = .leader ∧ n.currentTerm = req.term ∧ resp.term ≤ n.currentTerm ∧
    resp.success = true ∧
    index ≤ n.log.length ∧ termAt n.log index = term) && (n.matched peer req).storedByMajority index

theorem storedByMajority_iff {n : Node} {index : Nat} : n.storedByMajority index = true <->
    Exists fun later => index ≤ later ∧ later ≤ n.log.length ∧ termAt n.log later = n.currentTerm ∧
      n.peers.length / 2 + 1 < n.replicas later := by
  rw [storedByMajority, List.any_eq_true]
  constructor
  · rintro ⟨later, member, both⟩
    rw [List.mem_range'_1] at member
    exact ⟨later, by omega, by omega, of_decide_eq_true both⟩
  · rintro ⟨later, above, inside, both⟩
    exact ⟨later, List.mem_range'_1.mpr (by omega), decide_eq_true both⟩

theorem appendEntriesReply_of_success {n : Node} {peer : NodeID} {req : AppendEntriesRequest}
    {resp : AppendEntriesResponse} (leads : n.state = .leader) (same : n.currentTerm = req.term)
    (current : resp.term ≤ n.currentTerm) (success : resp.success = true) :
    n.appendEntriesReply peer req resp = (n.matched peer req).updateCommitIndex := by
  rw [appendEntriesReply, if_neg (by rw [not_or, not_not, not_not]; exact ⟨leads, same⟩),
    if_neg (Nat.not_lt.mpr current), if_pos success]

/-- Only a successful response to a leader in its term moves the commit index. -/
theorem success_of_appendEntriesReply {n : Node} {peer : NodeID} {req : AppendEntriesRequest}
    {resp : AppendEntriesResponse}
    (moved : (n.appendEntriesReply peer req resp).commitIndex ≠ n.commitIndex) :
    n.state = .leader ∧ n.currentTerm = req.term ∧ resp.term ≤ n.currentTerm ∧
        resp.success = true := by
  unfold appendEntriesReply at moved
  split at moved
  · exact absurd rfl moved
  · rename_i leading
    rw [not_or, not_not, not_not] at leading
    split at moved
    · exact absurd rfl moved
    · rename_i current
      split at moved
      · rename_i success
        exact ⟨leading.1, leading.2, Nat.not_lt.mp current, success⟩
      · split at moved <;> exact absurd rfl moved

end Node

namespace Cluster

variable {config : ClusterConfig} {s : Cluster} {event : Event} {id : NodeID} {index term : Nat}

/-- The event by which a node gets to know that an entry is committed. -/
def confirms (s : Cluster) (id : NodeID) (index term : Nat) : Event -> Bool
  | .deliverAppend number =>
      match s.appendCalls[number]? with
      | none => false
      | some call =>
          match call.request with
          | none => false
          | some req => decide (call.peer = id) && (s.nodes id).hearsOfCommit req index term
  | .appendReply number response =>
      match s.appendCalls[number]? with
      | none => false
      | some call =>
          match call.request, call.responses[response]? with
          | some req, some resp =>
              decide (call.leader = id ∧ call.finished = false) &&
                (s.nodes id).hearsOfMajority call.peer req resp index term
          | _, _ => false
  | _ => false

variable {req : AppendEntriesRequest} {resp : AppendEntriesResponse}

theorem hasCommitted_of_hearsOfCommit {n : Node} (hears : n.hearsOfCommit req index term = true) :
    HasCommitted (n.handleAppendEntries req).1 index term := by
  rcases Bool.and_eq_true_iff.mp hears with ⟨accepts, entry⟩
  rcases of_decide_eq_true entry with ⟨announced, inside, own⟩
  rw [Node.handleAppendEntries_of_accepts accepts]
  have commits := (Node.followCommit_spec (n.takeEntries req) req.leaderCommit).1
  refine ⟨?_, commits.log.symm ▸ inside, commits.log.symm ▸ own⟩
  unfold Node.followCommit
  split
  · rw [(Node.commits_applyCommitted (n.takeEntries req) _).2.1]
    exact Nat.le_min.mpr ⟨announced, inside⟩
  · rename_i known
    exact Nat.le_trans announced (Nat.not_lt.mp known)

theorem hasCommitted_of_hearsOfMajority {n : Node} {peer : NodeID}
    (hears : n.hearsOfMajority peer req resp index term = true) :
    HasCommitted (n.appendEntriesReply peer req resp) index term := by
  rcases Bool.and_eq_true_iff.mp hears with ⟨answered, stored⟩
  rcases of_decide_eq_true answered with ⟨leads, same, current, success, inside, own⟩
  rcases Node.storedByMajority_iff.mp stored with ⟨later, above, there, ownTerm, enough⟩
  rw [Node.appendEntriesReply_of_success leads same current success]
  rcases Node.updateCommitIndex_spec (n.matched peer req) with ⟨commits, chosen⟩
  refine ⟨Nat.le_trans above ?_, commits.log.symm ▸ inside, commits.log.symm ▸ own⟩
  rcases Nat.lt_or_ge (n.matched peer req).commitIndex later with new | old
  · exact Node.Committable.le ⟨new, there, ownTerm, enough⟩
  · rcases chosen with ⟨sameCommit, _⟩ | ⟨committable, _⟩
    · exact Nat.le_trans old (Nat.le_of_eq sameCommit.symm)
    · exact Nat.le_trans old (Nat.le_of_lt committable.1)

theorem hasCommitted_of_confirms (confirmed : confirms s id index term event = true) :
    HasCommitted ((step config s event).nodes id) index term := by
  cases event with
  | deliverAppend number =>
      simp only [confirms] at confirmed
      split at confirmed
      · cases confirmed
      · rename_i call there
        split at confirmed
        · cases confirmed
        · rename_i req built
          rcases Bool.and_eq_true_iff.mp confirmed with ⟨here, hears⟩
          rcases of_decide_eq_true here with rfl
          have nodes : (step config s (.deliverAppend number)).nodes call.peer =
              ((s.nodes call.peer).handleAppendEntries req).1 := by
            simp only [step, there, built]
            exact update_self ..
          rw [nodes]
          exact hasCommitted_of_hearsOfCommit hears
  | appendReply number response =>
      simp only [confirms] at confirmed
      split at confirmed
      · cases confirmed
      · rename_i call there
        split at confirmed
        · rename_i req resp built answered
          rcases Bool.and_eq_true_iff.mp confirmed with ⟨here, hears⟩
          rcases of_decide_eq_true here with ⟨rfl, waiting⟩
          have nodes : (step config s (.appendReply number response)).nodes call.leader =
              (s.nodes call.leader).appendEntriesReply call.peer req resp := by
            simp only [step, there, built, answered, waiting, Bool.false_eq_true, if_false]
            exact update_self ..
          rw [nodes]
          exact hasCommitted_of_hearsOfMajority hears
        · cases confirmed
  | _ => cases confirmed

/-- The commit indices after a change of one node that commits nothing. -/
theorem commitIndex_update_of_eq {changed : NodeID} {n : Node}
    (here : n.commitIndex = (s.nodes changed).commitIndex) (id : NodeID) :
    (update s.nodes changed n id).commitIndex = (s.nodes id).commitIndex :=
  related_update (R := fun n later => later.commitIndex = n.commitIndex) (fun _ => rfl) here id

theorem hearsOfCommit_of_appendHandled {n later : Node} (handled : n.AppendHandled req later resp)
    (missing : n.commitIndex < index) (committed : HasCommitted later index term) :
    n.hearsOfCommit req index term = true := by
  rcases committed with ⟨reached, inside, own⟩
  cases handled with
  | stale old resp failed => exact absurd reached (Nat.not_le.mpr missing)
  | rejected current resp failed => exact absurd reached (Nat.not_le.mpr missing)
  | accepted current previous resp =>
      rcases Node.followCommit_spec (n.takeEntries req) req.leaderCommit with
        ⟨commits, same | ⟨_, announced, _⟩⟩
      · rw [same.1] at reached
        exact absurd reached (Nat.not_le.mpr missing)
      · rw [announced] at reached
        rw [commits.log] at inside own
        refine Bool.and_eq_true_iff.mpr ⟨Node.accepts_iff.mpr ⟨current, previous⟩, decide_eq_true ?_⟩
        exact ⟨Nat.le_trans reached (Nat.min_le_left _ _), inside, own⟩

theorem hearsOfMajority_of_appendEntriesReply {n : Node} {peer : NodeID}
    (missing : n.commitIndex < index)
    (committed : HasCommitted (n.appendEntriesReply peer req resp) index term) :
    n.hearsOfMajority peer req resp index term = true := by
  rcases committed with ⟨reached, inside, own⟩
  rcases Node.success_of_appendEntriesReply (Nat.ne_of_gt (Nat.lt_of_lt_of_le missing reached)) with
    ⟨leads, same, current, success⟩
  rw [Node.appendEntriesReply_of_success leads same current success] at reached inside own
  rcases Node.updateCommitIndex_spec (n.matched peer req) with
    ⟨commits, ⟨sameCommit, _⟩ | ⟨committable, _⟩⟩
  · rw [sameCommit] at reached
    exact absurd reached (Nat.not_le.mpr missing)
  · rw [commits.log] at inside own
    refine Bool.and_eq_true_iff.mpr ⟨decide_eq_true ⟨leads, same, current, success, inside, own⟩, ?_⟩
    exact Node.storedByMajority_iff.mpr ⟨_, reached, committable.2⟩

/-- An entry that a node commits is confirmed by the event. -/
theorem confirms_of_hasCommitted (missing : (s.nodes id).commitIndex < index)
    (committed : HasCommitted ((step config s event).nodes id) index term) :
    confirms s id index term event = true := by
  have action := step_action config s event
  generalize result : step config s event = after at action committed
  have moved : (after.nodes id).commitIndex ≠ (s.nodes id).commitIndex :=
    Nat.ne_of_gt (Nat.lt_of_lt_of_le missing committed.1)
  cases action with
  | startElection member =>
      exact absurd (commitIndex_update_of_eq (n := (s.nodes _).startElection) rfl id) moved
  | propose member leads =>
      refine absurd (commitIndex_update_of_eq ?_ id) moved
      rw [propose_of_leader leads]
  | deliverVote request =>
      exact absurd (commitIndex_update_of_eq
        (commitIndex_of_voteHandled (Node.handleRequestVote_spec _ _)) id) moved
  | voteReply request answered waiting =>
      rw [nodes_voteReply] at moved
      exact absurd (commitIndex_update_of_eq
        (commitIndex_of_voteReplied (Node.voteReply_spec _ _ _ _)) id) moved
  | @deliverAppend number call req there built =>
      change HasCommitted (update s.nodes call.peer _ id) index term at committed
      rcases eq_or_ne id call.peer with rfl | different
      · rw [update_self] at committed
        have hears := hearsOfCommit_of_appendHandled (Node.handleAppendEntries_spec _ req)
          missing committed
        simp only [confirms, there, built, hears, decide_true, Bool.and_self]
      · rw [update_of_ne different] at committed
        exact absurd committed.1 (Nat.not_le.mpr missing)
  | @appendReply number response call req resp there built answered =>
      cases waiting : call.finished with
      | true =>
          rw [← result, step_appendReply_of_finished there built answered waiting] at moved
          exact absurd rfl moved
      | false =>
          change HasCommitted (update s.nodes call.leader _ id) index term at committed
          rcases eq_or_ne id call.leader with rfl | different
          · rw [update_self] at committed
            have hears := hearsOfMajority_of_appendEntriesReply missing committed
            simp only [confirms, there, built, answered, waiting, hears, and_self, decide_true,
              Bool.and_self]
          · rw [update_of_ne different] at committed
            exact absurd committed.1 (Nat.not_le.mpr missing)
  | receive =>
      exact absurd (commitIndex_update_of_eq
        (n := { s.nodes _ with applyCh := (s.nodes _).applyCh.receive }) rfl id) moved
  | _ => exact absurd rfl moved

/-- After one more event an entry is committed if it was before or the event
confirms it, and only then. -/
theorem hasCommitted_snoc {events : List Event}
    (along : Along config careful (init config) (events ++ [event])) (positive : 0 < index) :
    HasCommitted ((run config (events ++ [event])).nodes id) index term <->
      HasCommitted ((run config events).nodes id) index term ∨
        confirms (run config events) id index term event = true := by
  constructor
  · intro committed
    rcases Nat.lt_or_ge ((run config events).nodes id).commitIndex index with missing | reached
    · rw [run_snoc] at committed
      exact Or.inr (confirms_of_hasCommitted missing committed)
    · -- What was committed at the index before is what is there now.
      rcases safe_append along with ⟨a, _, before, _, _⟩
      have inside := (before.committing.nodes id).inside
      have part := (committed_run along id).trans (List.take_prefix _ _)
      have same := (termAt_of_take_part positive reached inside part).2
      exact Or.inl ⟨reached, Nat.le_trans reached inside, same.symm.trans committed.2.2⟩
  · rintro (before | confirmed)
    · exact hasCommitted_append along positive before
    · rw [run_snoc]
      exact hasCommitted_of_confirms confirmed

/-! ## Commits last -/

/-- In a careful run, what a node has committed at some moment stays committed at the
node, is in the log of every leader of the same term or a later one from then on, and
whatever any node has committed, then or later, begins with it or is a beginning of it.
-/
theorem committed_lasts (config : ClusterConfig) (events : List Event)
    (along : Along config careful (init config) events) (moment later : Nat)
    (ordered : moment ≤ later) (id : NodeID) :
    let earlier := (run config (events.take moment)).nodes
    let now := (run config (events.take later)).nodes
    let committed := (earlier id).log.take (earlier id).commitIndex
    committed <+: (now id).log.take (now id).commitIndex ∧
      (forall leader, (now leader).state = .leader ->
        (earlier id).currentTerm ≤ (now leader).currentTerm ->
        committed <+: (now leader).log) ∧
      forall other, committed <+: (now other).log.take (now other).commitIndex ∨
        (now other).log.take (now other).commitIndex <+: committed := by
  intro earlier now committed
  have split : events.take later = events.take moment ++ (events.take later).drop moment := by
    have whole := List.take_append_drop moment (events.take later)
    rw [List.take_take, Nat.min_eq_left ordered] at whole
    exact whole.symm
  have reaches : Along config careful (init config)
      (events.take moment ++ (events.take later).drop moment) := by
    rw [← List.take_append_drop later events, along_append] at along
    rw [← split]
    exact along.1
  simp only [committed, now, earlier]
  rw [split]
  refine ⟨committed_run reaches id, fun leader leads reached => ?_, fun other => ?_⟩
  · exact committed_of_leads reaches id leader reached ⟨leads, rfl⟩
  · rcases safe_append reaches with ⟨a, b, before, safe, grows⟩
    have settled := (before.committing.nodes id).settled.mono quorum_meet before.consensus grows
    exact settled.comparable quorum_meet safe.consensus (safe.committing.nodes other).settled

/-- A leader commits an entry, and a peer that has heard of it is elected next. -/
def successorElected : List Event :=
  committedEntry ++ .electionTimeout [98] :: (askVote [98] 2 [99] ++ askVote [98] 2 [97])

theorem committed_lasts_successor :
    ((run fourNodes (successorElected.take 21)).nodes [97]).commitIndex = 1 ∧
      ((run fourNodes (successorElected.take 32)).nodes [98]).state = .leader ∧
      ((run fourNodes (successorElected.take 21)).nodes [97]).log.take 1 <+:
        ((run fourNodes (successorElected.take 32)).nodes [98]).log := by
  have facts : Along fourNodes careful (init fourNodes) successorElected ∧
      ((run fourNodes (successorElected.take 21)).nodes [97]).commitIndex = 1 ∧
      ((run fourNodes (successorElected.take 32)).nodes [98]).state = .leader ∧
      ((run fourNodes (successorElected.take 21)).nodes [97]).currentTerm ≤
        ((run fourNodes (successorElected.take 32)).nodes [98]).currentTerm := by
    decide +kernel
  rcases facts with ⟨along, committed, leads, reached⟩
  have lasts := (committed_lasts fourNodes successorElected along 21 32 (by decide) [97]).2.1
    [98] leads reached
  rw [committed] at lasts
  exact ⟨committed, leads, lasts⟩

end Cluster
end Raft
end KVStore
