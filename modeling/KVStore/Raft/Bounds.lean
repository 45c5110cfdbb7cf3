import KVStore.Raft.SingleNode

namespace KVStore
namespace Raft

open Cluster Runs

/-!
# Slices and 64-bit indices

The methods of a node once more, as they compute: terms and indices are unsigned
64-bit numbers, whose sums and differences wrap, and an access to a slice
outside its bounds ends the program.  Such an access is `none` here, and the
result is `some` when every access was in range.

Among arbitrary messages no access is ever out of range, and the methods compute
what they do on natural numbers.  What a node reads from the network it compares
with the length of its log before it counts with it.  What a leader counts with
is bounded by the length of its log, which only grows while it leads.

The length of a slice is a Go `int`, so that a log has fewer than `2 ^ 63`
entries.
-/

namespace Guarded

/-! ## Numbers and slices -/

/-- The value of a sum as a `uint64`. -/
def word (value : Nat) : Nat := value % 2 ^ 64

/-- `value - 1` on `uint64`. -/
def pred (value : Nat) : Nat := word (value + (2 ^ 64 - 1))

/-- `log[low:]`. -/
def sliceFrom (log : List LogEntry) (low : Nat) : Option (List LogEntry) :=
  if low ≤ log.length then some (log.drop low) else none

/-- `log[:high]`. -/
def sliceTo (log : List LogEntry) (high : Nat) : Option (List LogEntry) :=
  if high ≤ log.length then some (log.take high) else none

theorem word_of_lt {value : Nat} (small : value < 2 ^ 64) : word value = value :=
  Nat.mod_eq_of_lt small

theorem pred_of_pos {value : Nat} (positive : 0 < value) (small : value < 2 ^ 64) :
    pred value = value - 1 := by
  rw [pred, word]
  omega

variable {log : List LogEntry}

/-- The entry at an index that is in range, counted from one. -/
theorem getElem?_pred {index : Nat} (positive : 0 < index) (inside : index ≤ log.length)
    (short : log.length < 2 ^ 63) :
    Exists fun entry => log[pred index]? = some entry ∧ log[index - 1]? = some entry ∧
        termAt log index = entry.term := by
  have within : index - 1 < log.length := by omega
  have there : log[index - 1]? = some log[index - 1] := List.getElem?_eq_getElem within
  refine ⟨log[index - 1], ?_, there, ?_⟩
  · rw [pred_of_pos positive (by omega)]
    exact there
  · rw [termAt, there]

/-! ## Methods -/

/-- One round of `applyCommitted`. -/
def applyNext (n : Node) : Option Node := do
  let lastApplied := word (n.lastApplied + 1)
  let entry <- n.log[pred lastApplied]?
  return { n with
    lastApplied := lastApplied
    applyCh := n.applyCh.trySend ⟨lastApplied, entry.command⟩ }

def applyLoop : Nat -> Node -> Option Node
  | 0, n => some n
  | rounds + 1, n =>
      if n.lastApplied < n.commitIndex then (applyNext n).bind (applyLoop rounds) else some n

def applyCommitted (n : Node) : Option Node := applyLoop (n.commitIndex - n.lastApplied) n

/-- One round of the loop of `updateCommitIndex`. -/
def commitAt (n : Node) (index : Nat) : Option Node := do
  let entry <- n.log[pred index]?
  if entry.term ≠ n.currentTerm then some n
  else if n.replicas index > n.peers.length / 2 + 1 then
    applyCommitted { n with commitIndex := index }
  else some n

def updateCommitIndex (n : Node) : Option Node :=
  (List.range' (word (n.commitIndex + 1)) (n.log.length + 1 - word (n.commitIndex + 1))).foldlM
    commitAt n

/-- The term of the entry before those that are sent. -/
def previousTerm (log : List LogEntry) (prevLogIndex : Nat) : Option Nat :=
  if 0 < prevLogIndex ∧ prevLogIndex ≤ log.length then log[pred prevLogIndex]?.map LogEntry.term
  else some 0

/-- The entries that are sent. -/
def entriesFrom (log : List LogEntry) (nextIdx : Nat) : Option (List LogEntry) :=
  if nextIdx ≤ log.length then sliceFrom log (pred nextIdx) else some []

/-- `sendAppendEntries` up to the call. -/
def appendEntriesFor (n : Node) (peer : NodeID) : Option (Option AppendEntriesRequest) :=
  if n.state ≠ .leader then some none
  else do
    let nextIdx := n.nextIndex peer
    let prevLogIndex := pred nextIdx
    let prevLogTerm <- previousTerm n.log prevLogIndex
    let entries <- entriesFrom n.log nextIdx
    return some
      { term := n.currentTerm
        leaderID := n.id
        prevLogIndex := prevLogIndex
        prevLogTerm := prevLogTerm
        entries := entries
        leaderCommit := n.commitIndex }

def matched (n : Node) (peer : NodeID) (req : AppendEntriesRequest) : Node :=
  let matched := word (req.prevLogIndex + req.entries.length)
  { n with
    matchIndex := fun other => if other = peer then matched else n.matchIndex other
    nextIndex := fun other => if other = peer then word (matched + 1) else n.nextIndex other }

/-- `sendAppendEntries` after the call was answered. -/
def appendEntriesReply (n : Node) (peer : NodeID) (req : AppendEntriesRequest)
    (resp : AppendEntriesResponse) : Option Node :=
  if n.state ≠ .leader ∨ n.currentTerm ≠ req.term then some n
  else if resp.term > n.currentTerm then some (n.becomeFollower resp.term)
  else if resp.success then updateCommitIndex (matched n peer req)
  else if n.nextIndex peer > 1 then
    some { n with nextIndex := fun other => if other = peer then pred (n.nextIndex peer) else n.nextIndex other }
  else some n

/-- The search of `HandleAppendEntries` for the first index of the conflicting
term. -/
def firstConflict (log : List LogEntry) (conflictTerm : Nat) : Nat -> Option Nat
  | 0 => some 0
  | index + 1 => do
      let entry <- log[pred (index + 1)]?
      if entry.term ≠ conflictTerm then some (word (index + 2))
      else firstConflict log conflictTerm index

/-- The loop of `HandleAppendEntries` over the entries, with the number of those
before. -/
def appendFrom (prevLogIndex : Nat) :
    Nat -> List LogEntry -> List LogEntry -> Option (List LogEntry)
  | _, log, [] => some log
  | i, log, entry :: entries => do
      let idx := word (word (prevLogIndex + i) + 1)
      if idx ≤ log.length then
        let existing <- log[pred idx]?
        if existing.term ≠ entry.term then
          let kept <- sliceTo log (pred idx)
          appendFrom prevLogIndex (i + 1) (kept ++ [entry]) entries
        else appendFrom prevLogIndex (i + 1) log entries
      else appendFrom prevLogIndex (i + 1) (log ++ [entry]) entries

/-- The last part of `HandleAppendEntries`. -/
def followCommit (n : Node) (leaderCommit : Nat) : Option Node :=
  if leaderCommit > n.commitIndex then
    applyCommitted { n with commitIndex := min leaderCommit n.log.length }
  else some n

/-- The last two parts of `HandleAppendEntries`. -/
def acceptEntries (n : Node) (req : AppendEntriesRequest) :
    Option (Node × AppendEntriesResponse) := do
  let log <- appendFrom req.prevLogIndex 0 n.log req.entries
  let n <- followCommit { n with log := log } req.leaderCommit
  return (n, ⟨n.currentTerm, true, 0, 0⟩)

/-- `HandleAppendEntries`. -/
def handleAppendEntries (n : Node) (req : AppendEntriesRequest) :
    Option (Node × AppendEntriesResponse) :=
  if req.term < n.currentTerm then some (n, ⟨n.currentTerm, false, 0, 0⟩)
  else
    let term := n.currentTerm
    let n := n.becomeFollower req.term
    if 0 < req.prevLogIndex then
      if n.log.length < req.prevLogIndex then some (n, ⟨term, false, word (n.log.length + 1), 0⟩)
      else do
        let entry <- n.log[pred req.prevLogIndex]?
        if entry.term ≠ req.prevLogTerm then
          let conflictIndex <- firstConflict n.log entry.term (pred req.prevLogIndex)
          return (n, ⟨term, false, conflictIndex, entry.term⟩)
        else acceptEntries n req
    else acceptEntries n req

def startElection (n : Node) : Node :=
  { n with state := .candidate, currentTerm := word (n.currentTerm + 1), votedFor := n.id }

def becomeLeader (n : Node) : Node :=
  { n with
    state := .leader
    nextIndex := fun peer => if peer ∈ n.peers then word (n.getLastLogIndex + 1) else n.nextIndex peer
    matchIndex := fun peer => if peer ∈ n.peers then 0 else n.matchIndex peer }

def voteReply (n : Node) (votesReceived : Nat) (req : RequestVoteRequest)
    (resp : RequestVoteResponse) : Node × Nat :=
  if n.awaitsVote req = false then (n, votesReceived)
  else if resp.term > n.currentTerm then (n.becomeFollower resp.term, votesReceived)
  else if resp.voteGranted then
    if votesReceived + 1 > n.peers.length / 2 + 1 then (becomeLeader n, votesReceived + 1)
    else (n, votesReceived + 1)
  else (n, votesReceived)

def propose (n : Node) (command : Bytes) : Node :=
  if n.state ≠ .leader then n
  else { n with log := n.log ++ [⟨n.currentTerm, word (n.log.length + 1), command⟩] }

/-! ## Steps -/

def step (s : Station) : Happening -> Option Station
  | .electionTimeout => some { s with node := startElection s.node }
  | .propose command => some { s with node := propose s.node command }
  | .requestVote req => some { s with node := (s.node.handleRequestVote req).1 }
  | .voteReply votesReceived req resp =>
      some { s with node := (voteReply s.node votesReceived req resp).1 }
  | .appendEntries req => do
      let (n, _) <- handleAppendEntries s.node req
      return { s with node := n }
  | .sendAppendEntries peer =>
      if peer ∈ s.node.peers then do
        match <- appendEntriesFor s.node peer with
        | none => return s
        | some req => return { s with requests := s.requests ++ [(peer, req)] }
      else some s
  | .appendReply request resp =>
      match s.requests[request]? with
      | none => some s
      | some (peer, req) => do
          let n <- appendEntriesReply s.node peer req resp
          return { s with node := n }
  | .receive => some { s with node := { s.node with applyCh := s.node.applyCh.receive } }

/-- The state after some events, if no access has been out of range. -/
def run (s : Station) (events : List Happening) : Option Station := events.foldlM step s

/-! ## Accesses in range -/

variable {n : Node}

theorem applyNext_eq (more : n.lastApplied < n.commitIndex) (inside : n.commitIndex ≤ n.log.length)
    (short : n.log.length < 2 ^ 63) : applyNext n = some n.applyNext := by
  rcases getElem?_pred (Nat.succ_pos n.lastApplied) (by omega) short with ⟨entry, there, same, _⟩
  rw [Nat.succ_eq_add_one, Nat.add_sub_cancel] at same
  have next : word (n.lastApplied + 1) = n.lastApplied + 1 := word_of_lt (by omega)
  simp only [applyNext, Node.applyNext, next, there, same, Option.bind_eq_bind, Option.bind_some,
    Option.pure_def]

theorem applyLoop_eq (rounds : Nat) (inside : n.commitIndex ≤ n.log.length)
    (short : n.log.length < 2 ^ 63) :
    applyLoop rounds n = some (Node.applyLoop rounds n) := by
  induction rounds generalizing n with
  | zero => rfl
  | succ rounds ih =>
      rw [applyLoop, Node.applyLoop]
      split
      · rename_i more
        rw [applyNext_eq more inside short, Option.bind_some]
        exact @ih n.applyNext inside short
      · rfl

theorem applyCommitted_eq (inside : n.commitIndex ≤ n.log.length) (short : n.log.length < 2 ^ 63) :
    applyCommitted n = some n.applyCommitted :=
  applyLoop_eq _ inside short

theorem commitAt_eq {index : Nat} (positive : 0 < index) (inside : index ≤ n.log.length)
    (short : n.log.length < 2 ^ 63) : commitAt n index = some (n.commitAt index) := by
  rcases getElem?_pred positive inside short with ⟨entry, there, _, term⟩
  rw [commitAt, there, Node.commitAt, term, Option.bind_eq_bind, Option.bind_some]
  split
  · rfl
  · split
    · exact @applyCommitted_eq { n with commitIndex := index } inside short
    · rfl

theorem updateCommitIndex_eq (small : n.commitIndex < 2 ^ 63) (short : n.log.length < 2 ^ 63) :
    updateCommitIndex n = some n.updateCommitIndex := by
  have start : word (n.commitIndex + 1) = n.commitIndex + 1 := word_of_lt (by omega)
  rw [updateCommitIndex, Node.updateCommitIndex, start, Nat.add_sub_add_right]
  refine @foldlM_eq_foldl _ _ _ _ (fun current => Node.Commits n current) _ _ (Node.Commits.refl n) ?_
  intro index member current commits
  rcases List.mem_range'_1.mp member with ⟨above, below⟩
  have length : current.log.length = n.log.length := by rw [commits.log]
  refine ⟨commitAt_eq (by omega) (by omega) (by omega), ?_⟩
  rcases Node.commitAt_spec commits index with ⟨_, same⟩ | ⟨_, same⟩
  · rw [same]
    exact commits
  · rw [same]
    exact commits.trans (Node.commits_applyCommitted current index).1

theorem previousTerm_eq (prevLogIndex : Nat) (short : log.length < 2 ^ 63) :
    previousTerm log prevLogIndex =
      some (if 0 < prevLogIndex ∧ prevLogIndex ≤ log.length then termAt log prevLogIndex else 0) := by
  rw [previousTerm]
  split
  · rename_i both
    rcases getElem?_pred both.1 both.2 short with ⟨entry, there, _, term⟩
    rw [there, term]
    rfl
  · rfl

theorem entriesFrom_eq {nextIdx : Nat} (positive : 0 < nextIdx) (below : nextIdx ≤ log.length + 1)
    (short : log.length < 2 ^ 63) :
    entriesFrom log nextIdx = some (if nextIdx ≤ log.length then log.drop (nextIdx - 1) else []) := by
  rw [entriesFrom, pred_of_pos positive (by omega)]
  split
  · exact if_pos (by omega)
  · rfl

theorem appendEntriesFor_eq {peer : NodeID} (short : n.log.length < 2 ^ 63)
    (next : n.state = .leader -> 0 < n.nextIndex peer ∧ n.nextIndex peer ≤ n.log.length + 1) :
    appendEntriesFor n peer = some (n.appendEntriesFor peer) := by
  rw [appendEntriesFor, Node.appendEntriesFor]
  split
  · rfl
  · rename_i leading
    rcases next (not_not.mp leading) with ⟨positive, below⟩
    simp only [previousTerm_eq _ short, entriesFrom_eq positive below short,
      pred_of_pos positive (by omega), Option.bind_eq_bind, Option.bind_some, Option.pure_def]

theorem matched_eq {peer : NodeID} {req : AppendEntriesRequest}
    (reached : req.prevLogIndex + req.entries.length ≤ n.log.length)
    (short : n.log.length < 2 ^ 63) :
    matched n peer req = n.matched peer req := by
  have sum : word (req.prevLogIndex + req.entries.length) = req.prevLogIndex + req.entries.length :=
    word_of_lt (by omega)
  have next : word (req.prevLogIndex + req.entries.length + 1) =
      req.prevLogIndex + req.entries.length + 1 :=
    word_of_lt (by omega)
  simp only [matched, Node.matched, sum, next]

theorem appendEntriesReply_eq {peer : NodeID} {req : AppendEntriesRequest}
    {resp : AppendEntriesResponse} (small : n.commitIndex < 2 ^ 63) (short : n.log.length < 2 ^ 63)
    (reached : n.state = .leader -> req.term = n.currentTerm ->
      req.prevLogIndex + req.entries.length ≤ n.log.length)
    (next : n.state = .leader -> n.nextIndex peer ≤ n.log.length + 1) :
    appendEntriesReply n peer req resp = some (n.appendEntriesReply peer req resp) := by
  rw [appendEntriesReply, Node.appendEntriesReply]
  split
  · rfl
  · rename_i leading
    rw [not_or, not_not, not_not] at leading
    split
    · rfl
    · split
      · rw [matched_eq (reached leading.1 leading.2.symm) short]
        exact @updateCommitIndex_eq (n.matched peer req) small short
      · split
        · rename_i more
          have below := next leading.1
          have less : pred (n.nextIndex peer) = n.nextIndex peer - 1 :=
            pred_of_pos (by omega) (by omega)
          simp only [less]
        · rfl

theorem firstConflict_eq (conflictTerm : Nat) {index : Nat} (inside : index < log.length)
    (short : log.length < 2 ^ 63) :
    firstConflict log conflictTerm index = some (Node.firstConflict log conflictTerm index) := by
  induction index with
  | zero => rfl
  | succ index ih =>
      rcases getElem?_pred (Nat.succ_pos index) (by omega) short with ⟨entry, there, _, term⟩
      have found : word (index + 2) = index + 2 := word_of_lt (by omega)
      rw [Nat.succ_eq_add_one] at there term
      rw [firstConflict, there, Node.firstConflict, term, found, Option.bind_eq_bind,
        Option.bind_some]
      split
      · rfl
      · exact ih (by omega)

theorem appendFrom_eq {prevLogIndex i : Nat} {log entries : List LogEntry}
    (short : prevLogIndex + i + entries.length < 2 ^ 63) :
    appendFrom prevLogIndex i log entries =
        some (Node.appendFrom (prevLogIndex + i + 1) log entries) := by
  induction entries generalizing i log with
  | nil => rfl
  | cons entry entries ih =>
      rw [List.length_cons] at short
      have rest : forall longer, appendFrom prevLogIndex (i + 1) longer entries =
          some (Node.appendFrom (prevLogIndex + i + 1 + 1) longer entries) :=
        fun longer => ih (by omega)
      have sum : word (prevLogIndex + i) = prevLogIndex + i := word_of_lt (by omega)
      have idx : word (prevLogIndex + i + 1) = prevLogIndex + i + 1 := word_of_lt (by omega)
      have before : pred (prevLogIndex + i + 1) = prevLogIndex + i + 1 - 1 :=
        pred_of_pos (Nat.succ_pos _) (by omega)
      rw [appendFrom, Node.appendFrom, sum, idx]
      split
      · rename_i inside
        have within : prevLogIndex + i + 1 - 1 < log.length := by omega
        have there : log[prevLogIndex + i + 1 - 1]? = some log[prevLogIndex + i + 1 - 1] :=
          List.getElem?_eq_getElem within
        have term : termAt log (prevLogIndex + i + 1) = log[prevLogIndex + i + 1 - 1].term :=
          by rw [termAt, there]
        have slice : sliceTo log (prevLogIndex + i + 1 - 1) =
            some (log.take (prevLogIndex + i + 1 - 1)) :=
          if_pos (Nat.le_of_lt within)
        rw [before, there, term, slice, Option.bind_eq_bind, Option.bind_some]
        split
        · exact rest _
        · exact rest _
      · exact rest _

theorem followCommit_eq (leaderCommit : Nat) (short : n.log.length < 2 ^ 63) :
    followCommit n leaderCommit = some (n.followCommit leaderCommit) := by
  rw [followCommit, Node.followCommit]
  split
  · exact @applyCommitted_eq { n with commitIndex := min leaderCommit n.log.length }
      (Nat.min_le_right _ _) short
  · rfl

/-- The log reaches as far as the entries that are appended to it. -/
theorem le_length_appendFrom {index : Nat} {log entries : List LogEntry}
    (reached : index ≤ log.length) :
    index + entries.length ≤ (Node.appendFrom (index + 1) log entries).length := by
  induction entries generalizing index log with
  | nil => exact reached
  | cons entry entries ih =>
      have rest : forall longer : List LogEntry, index + 1 ≤ longer.length ->
          index + (entry :: entries).length ≤
              (Node.appendFrom (index + 1 + 1) longer entries).length := by
        intro longer further
        rw [List.length_cons, Nat.add_comm entries.length, ← Nat.add_assoc]
        exact ih further
      rw [Node.appendFrom]
      split
      · split
        · refine rest _ ?_
          rw [List.length_append, List.length_take_of_le (by omega), List.length_singleton]
          omega
        · exact rest _ (by omega)
      · refine rest _ ?_
        rw [List.length_append, List.length_singleton]
        omega

theorem acceptEntries_eq {req : AppendEntriesRequest} (reached : req.prevLogIndex ≤ n.log.length)
    (short : (Node.appendFrom (req.prevLogIndex + 1) n.log req.entries).length < 2 ^ 63) :
    acceptEntries n req =
      some (({ n with log := Node.appendFrom (req.prevLogIndex + 1) n.log req.entries } :
          Node).followCommit req.leaderCommit,
        ⟨(({ n with log := Node.appendFrom (req.prevLogIndex + 1) n.log req.entries } :
          Node).followCommit req.leaderCommit).currentTerm, true, 0, 0⟩) := by
  have length := @le_length_appendFrom req.prevLogIndex n.log req.entries reached
  have appended := @appendFrom_eq req.prevLogIndex 0 n.log req.entries (by omega)
  have committed := @followCommit_eq { n with
    log := Node.appendFrom (req.prevLogIndex + 1) n.log req.entries } req.leaderCommit short
  rw [Nat.add_zero] at appended
  rw [acceptEntries, appended, Option.bind_eq_bind, Option.bind_some, committed]
  rfl

theorem handleAppendEntries_eq {req : AppendEntriesRequest} (short : n.log.length < 2 ^ 63)
    (shortAfter : (n.handleAppendEntries req).1.log.length < 2 ^ 63) :
    handleAppendEntries n req = some (n.handleAppendEntries req) := by
  have accepted : n.accepts req = true ->
      (Node.appendFrom (req.prevLogIndex + 1) n.log req.entries).length < 2 ^ 63 := by
    intro accepts
    rw [Node.handleAppendEntries_of_accepts accepts,
      (Node.followCommit_spec (n.takeEntries req) req.leaderCommit).1.log] at shortAfter
    exact shortAfter
  have log : (n.becomeFollower req.term).log = n.log := rfl
  rw [handleAppendEntries, Node.handleAppendEntries]
  split
  · rfl
  · rename_i current
    rw [Nat.not_lt] at current
    by_cases positive : 0 < req.prevLogIndex
    · simp only [positive, if_true, true_and, log]
      split
      · rw [word_of_lt (by omega)]
      · rename_i reached
        have inside : req.prevLogIndex ≤ n.log.length := Nat.not_lt.mp reached
        rcases getElem?_pred positive inside short with ⟨entry, there, _, term⟩
        simp only [there, term, Option.bind_eq_bind, Option.bind_some]
        split
        · have found := @firstConflict_eq n.log entry.term (req.prevLogIndex - 1) (by omega) short
          rw [pred_of_pos positive (by omega), found]
          rfl
        · rename_i same
          refine @acceptEntries_eq (n.becomeFollower req.term) req inside (accepted ?_)
          exact Node.accepts_iff.mpr ⟨current, fun _ => ⟨inside, term.trans (not_not.mp same)⟩⟩
    · simp only [positive, if_false, false_and]
      have none : req.prevLogIndex = 0 := by omega
      refine @acceptEntries_eq (n.becomeFollower req.term) req (none ▸ Nat.zero_le _) (accepted ?_)
      exact Node.accepts_iff.mpr ⟨current, fun some => absurd some positive⟩

theorem startElection_eq (bound : n.currentTerm + 1 < 2 ^ 64) :
    startElection n = n.startElection := by
  rw [startElection, word_of_lt bound, Node.startElection]

theorem becomeLeader_eq (short : n.log.length < 2 ^ 63) : becomeLeader n = n.becomeLeader := by
  have next : word (n.getLastLogIndex + 1) = n.getLastLogIndex + 1 :=
    word_of_lt (by change n.log.length + 1 < 2 ^ 64; omega)
  rw [becomeLeader, next, Node.becomeLeader]

theorem voteReply_eq (votesReceived : Nat) (req : RequestVoteRequest) (resp : RequestVoteResponse)
    (short : n.log.length < 2 ^ 63) :
    voteReply n votesReceived req resp = n.voteReply votesReceived req resp := by
  rw [voteReply, becomeLeader_eq short, Node.voteReply]

theorem propose_eq (command : Bytes) (short : n.log.length < 2 ^ 63) :
    propose n command = (n.propose command).1 := by
  rw [propose, word_of_lt (by omega), Node.propose]
  split <;> rfl

/-! ## Runs -/

/-- The log of every state of a run is shorter than `2 ^ 63`, and no election
starts in the last term. -/
def Fits : Station -> List Happening -> Prop
  | s, [] => s.node.log.length < 2 ^ 63
  | s, event :: events =>
      s.node.log.length < 2 ^ 63 ∧ (event = .electionTimeout -> s.node.currentTerm + 1 < 2 ^ 64) ∧
        Fits (s.step event) events

theorem Fits.short {s : Station} {events : List Happening} (fits : Fits s events) :
    s.node.log.length < 2 ^ 63 := by
  cases events with
  | nil => exact fits
  | cons event events => exact fits.1

/-- A commit index stays or ends up inside the log. -/
theorem commitIndex_step (s : Station) (event : Happening) :
    (s.step event).node.commitIndex = s.node.commitIndex ∨
      (s.step event).node.commitIndex ≤ (s.step event).node.log.length := by
  rcases s.reacts_step event with started | reacts
  · rw [started]
    exact Or.inl rfl
  · generalize (s.step event).node = later at reacts ⊢
    cases reacts with
    | same => exact Or.inl rfl
    | propose command leads => exact Or.inl rfl
    | voteHandled handled => exact Or.inl (commitIndex_of_voteHandled handled)
    | voteReplied replied => exact Or.inl (commitIndex_of_voteReplied replied)
    | @appendHandled req resp _ handled =>
        cases handled with
        | stale old resp failed => exact Or.inl rfl
        | rejected current resp failed => exact Or.inl rfl
        | accepted current previous resp =>
            have committed := Node.followCommit_spec (s.node.takeEntries req) req.leaderCommit
            rcases committed.2 with ⟨same, _⟩ | ⟨_, follows, _⟩
            · exact Or.inl same
            · rw [follows, committed.1.log]
              exact Or.inr (Nat.min_le_right _ _)
    | @appendReplied peer req resp _ replied =>
        cases replied with
        | matched leads same success =>
            have committed := (s.node.matched peer req).updateCommitIndex_spec
            rcases committed.2 with ⟨sameCommit, _⟩ | ⟨committable, _⟩
            · exact Or.inl sameCommit
            · rw [committed.1.log]
              exact Or.inr committable.2.1
        | _ => exact Or.inl rfl
    | receive => exact Or.inl rfl

/-- An event among arbitrary messages accesses no slice out of range. -/
theorem step_eq {s : Station} {event : Happening} (bounded : s.Bounded)
    (small : s.node.commitIndex < 2 ^ 63) (short : s.node.log.length < 2 ^ 63)
    (shortAfter : (s.step event).node.log.length < 2 ^ 63)
    (bound : event = .electionTimeout -> s.node.currentTerm + 1 < 2 ^ 64) :
    step s event = some (s.step event) := by
  cases event with
  | electionTimeout => rw [step, startElection_eq (bound rfl), Station.step]
  | propose command => rw [step, propose_eq command short, Station.step]
  | requestVote req => rfl
  | voteReply votesReceived req resp =>
      rw [step, voteReply_eq votesReceived req resp short, Station.step]
  | appendEntries req =>
      rw [step, handleAppendEntries_eq short shortAfter, Option.bind_eq_bind,
        Option.bind_some, Station.step]
      rfl
  | sendAppendEntries peer =>
      rw [step, Station.step]
      split
      · rename_i isPeer
        have built := @appendEntriesFor_eq s.node peer short fun leads =>
          ⟨(bounded.indices leads peer isPeer).1, (bounded.indices leads peer isPeer).2.1⟩
        rw [built, Option.bind_eq_bind, Option.bind_some]
        cases s.node.appendEntriesFor peer <;> rfl
      · rfl
  | appendReply request resp =>
      rw [step, Station.step]
      cases there : s.requests[request]? with
      | none => rfl
      | some call =>
          rcases call with ⟨peer, req⟩
          have inside : (peer, req) ∈ s.requests := List.mem_of_getElem? there
          have isPeer := (bounded.addressed peer req inside).1
          have replied := @appendEntriesReply_eq s.node peer req resp small short
            (fun leads sameTerm => bounded.own leads peer req inside sameTerm)
            (fun leads => (bounded.indices leads peer isPeer).2.1)
          simp only [replied, Option.bind_eq_bind, Option.bind_some, Option.pure_def]
  | receive => rfl

theorem run_eq {s : Station} {events : List Happening} (bounded : s.Bounded)
    (small : s.node.commitIndex < 2 ^ 63) (fits : Fits s events) :
    run s events = some (s.run events) := by
  induction events generalizing s with
  | nil => rfl
  | cons event events ih =>
      rcases fits with ⟨short, bound, rest⟩
      have smallAfter : (s.step event).node.commitIndex < 2 ^ 63 := by
        have shortAfter := rest.short
        rcases commitIndex_step s event with same | inside
        · rw [same]
          exact small
        · omega
      rw [run, List.foldlM_cons, step_eq bounded small short rest.short bound, Option.bind_eq_bind,
        Option.bind_some]
      exact ih (bounded.step event) smallAfter rest

/-- In every run of a node among arbitrary messages, in which no term wraps, no
access to a slice is out of range.  While the node leads, the indices that it
keeps for its peers stay within its log. -/
theorem node_never_panics (id : NodeID) (peers : List NodeID) (applyCapacity : Nat)
    (events : List Happening) (fits : Fits (Station.start id peers applyCapacity) events) :
    run (Station.start id peers applyCapacity) events =
      some ((Station.start id peers applyCapacity).run events) ∧
      (((Station.start id peers applyCapacity).run events).node.state = .leader ->
        forall peer, peer ∈ peers ->
        1 ≤ ((Station.start id peers applyCapacity).run events).node.nextIndex peer ∧
          ((Station.start id peers applyCapacity).run events).node.nextIndex peer ≤
            ((Station.start id peers applyCapacity).run events).node.log.length + 1 ∧
          ((Station.start id peers applyCapacity).run events).node.matchIndex peer ≤
            ((Station.start id peers applyCapacity).run events).node.log.length) := by
  have bounded := Station.bounded_start id peers applyCapacity
  refine ⟨run_eq bounded (by change 0 < 2 ^ 63; omega) fits, fun leads peer isPeer => ?_⟩
  have samePeers := (Station.start id peers applyCapacity).peers_run events
  exact (bounded.run events).indices leads peer (samePeers.symm ▸ isPeer)

/-- A node gets requests with indices beyond its log and a reply to its own. -/
def oddMessages : List Happening :=
  [.appendEntries ⟨1, [98], 2 ^ 64 - 1, 0, [⟨0, 0, []⟩], 2 ^ 64 - 1⟩, .electionTimeout,
    .voteReply 1 ⟨2, [97], 0, 0⟩ ⟨2, true⟩, .propose [1], .sendAppendEntries [98],
    .appendReply 0 ⟨0, true, 2 ^ 64 - 1, 7⟩]

theorem node_never_panics_oddMessages :
    run (Station.start [97] [[98]] 1) oddMessages =
        some ((Station.start [97] [[98]] 1).run oddMessages) := by
  refine (node_never_panics [97] [[98]] 1 oddMessages ?_).1
  have last : ((Station.start [97] [[98]] 1).run oddMessages).node.log.length < 2 ^ 63 := by decide
  refine ⟨by decide, ?_, by decide, ?_, by decide, ?_, by decide, ?_, by decide, ?_,
    by decide, ?_, last⟩
  · intro timeout
    cases timeout
  · intro _
    decide
  · intro timeout
    cases timeout
  · intro timeout
    cases timeout
  · intro timeout
    cases timeout
  · intro timeout
    cases timeout

end Guarded
end Raft
end KVStore
