import KVStore.Library.Replication
import Mathlib.Data.Set.Basic

namespace KVStore
namespace Consensus

open Function Classical Replication

/-!
# Agreement on committed entries

A leader of a replicated log is elected by a quorum of votes.  A voter gives its
vote to a node whose log is at least as far as its own, where an entry of a
later term counts for more than any length.  A node acknowledges the part of the
log of the leader that it has taken over.

An entry that its leader has appended in its own term is committed once a quorum
has acknowledged it.  The log with which a later leader is elected contains all
that was committed before, since some voter of that leader had acknowledged it.
Whatever is committed is therefore a part of one growing log.
-/

variable {ι ε : Type} (stamp : ε -> Nat) (quorum : Set ι -> Prop)

/-- The term of the last entry of a log. -/
def lastStamp (log : List ε) : Nat := (log.getLast?.map stamp).getD 0

/-- The first log is at least as far as the second. -/
def UpToDate (log other : List ε) : Prop :=
  lastStamp stamp other < lastStamp stamp log ∨
    lastStamp stamp other = lastStamp stamp log ∧ other.length ≤ log.length

/-- A quorum has voted for the node in its term, with logs that are not further
than its own. -/
def HasVotes (s : State ι ε) (n : ι) : Prop :=
  Exists fun voters => quorum voters ∧ forall voter, voter ∈ voters ->
    Exists fun log => s.votes voter (s.term n) n log ∧ UpToDate stamp (s.log n) log

/-- Some leader of a term after the given one and before the bound was elected
without that part of the log. -/
def Lost (s : State ι ε) (term length bound : Nat) : Prop :=
  Exists fun later => term < later ∧ later < bound ∧ s.winner later ≠ none ∧
    ¬ (s.full term).take length <+: s.base later

structure Invariant (s : State ι ε) : Prop where
  logs : Replication.Invariant stamp s
  acked : forall node term length, s.acks node term length ->
    s.winner term ≠ none ∧ length ≤ (s.full term).length ∧ term ≤ s.term node ∧
      forall part, part ≤ length ->
        (s.full term).take part <+: s.log node ∨ Lost s term part (s.term node + 1)
  voted : forall voter term candidate log, s.votes voter term candidate log ->
    term ≤ s.term voter ∧ Coherent stamp s log ∧
      forall earlier length, earlier < term -> s.acks voter earlier length ->
        forall part, part ≤ length -> (s.full earlier).take part <+: log ∨ Lost s earlier part term
  elected : forall term n, s.winner term = some n ->
    Exists fun voters => quorum voters ∧ forall voter, voter ∈ voters ->
      Exists fun log => s.votes voter term n log ∧ UpToDate stamp (s.base term) log

variable {stamp quorum} {s after : State ι ε}

/-! ## Growth -/

/-- The part of the log of a leader that is already there does not change. -/
theorem take_full (grows : Grows s after) {term length : Nat} (elected : s.winner term ≠ none)
    (there : length ≤ (s.full term).length) :
    (after.full term).take length = (s.full term).take length := by
  rcases grows.full term elected with ⟨more, longer⟩
  rw [← longer, List.take_append_of_le_length there]

theorem Lost.mono (grows : Grows s after) {term length bound further : Nat}
    (lost : Lost s term length bound) (elected : s.winner term ≠ none)
    (there : length ≤ (s.full term).length) (wider : bound ≤ further) :
    Lost after term length further := by
  rcases lost with ⟨later, above, below, laterElected, missing⟩
  refine ⟨later, above, Nat.lt_of_lt_of_le below wider, grows.elected laterElected, ?_⟩
  rw [take_full grows elected there, grows.base later laterElected]
  exact missing

/-! ## Taking over a part -/

theorem part_prefix_merge (log part : List ε) : part <+: merge log part := by
  unfold merge
  split
  · assumption
  · exact List.prefix_rfl

/-- What a node shares with the leader survives when it takes over a part of the
log of the leader. -/
theorem prefix_merge {shared log whole part : List ε} (inLog : shared <+: log)
    (inWhole : shared <+: whole) (taken : part <+: whole) : shared <+: merge log part := by
  rcases List.prefix_or_prefix_of_prefix inWhole taken with below | above
  · exact below.trans (part_prefix_merge log part)
  · rw [merge, if_pos (above.trans inLog)]
    exact inLog

/-! ## The invariant -/

theorem invariant_initial : Invariant stamp quorum (State.initial : State ι ε) := by
  refine ⟨Replication.invariant_initial, ?_, ?_, ?_⟩
  · intro node term length ack
    cases ack
  · intro voter term candidate log vote
    cases vote
  · intro term n won
    cases won

namespace Invariant

variable (invariant : Invariant stamp quorum s)

include invariant

/-- Acknowledgements that were given before. -/
theorem acked_step (grows : Grows s after)
    (kept : forall node term length, s.acks node term length ->
      forall part, (s.full term).take part <+: s.log node ->
      (s.full term).take part <+: after.log node ∨ Lost after term part (after.term node + 1))
    {node : ι} {term length : Nat} (ack : s.acks node term length) :
    after.winner term ≠ none ∧ length ≤ (after.full term).length ∧ term ≤ after.term node ∧
      forall part, part ≤ length ->
        (after.full term).take part <+: after.log node ∨
            Lost after term part (after.term node + 1) := by
  rcases invariant.acked node term length ack with ⟨elected, there, reached, parts⟩
  refine ⟨grows.elected elected, Nat.le_trans there (grows.full term elected).length_le,
    Nat.le_trans reached (grows.term node), ?_⟩
  intro part inside
  have partThere := Nat.le_trans inside there
  rw [take_full grows elected partThere]
  rcases parts part inside with held | lost
  · exact kept node term length ack part held
  · exact Or.inr (lost.mono grows elected partThere (Nat.succ_le_succ (grows.term node)))

/-- Votes that were given before. -/
theorem voted_step (grows : Grows s after)
    (newAcks : forall node term length, after.acks node term length -> s.acks node term length ∨
      term = s.term node)
    {voter candidate : ι} {term : Nat} {log : List ε} (vote : s.votes voter term candidate log) :
    term ≤ after.term voter ∧ Coherent stamp after log ∧
      forall earlier length, earlier < term -> after.acks voter earlier length ->
        forall part, part ≤ length -> (after.full earlier).take part <+: log ∨
            Lost after earlier part term := by
  rcases invariant.voted voter term candidate log vote with ⟨reached, coherent, parts⟩
  refine ⟨Nat.le_trans reached (grows.term voter), coherent.mono grows, ?_⟩
  intro earlier length before ack part inside
  rcases newAcks voter earlier length ack with old | now
  · rcases invariant.acked voter earlier length old with ⟨elected, there, _, _⟩
    have partThere := Nat.le_trans inside there
    rw [take_full grows elected partThere]
    rcases parts earlier length before old part inside with held | lost
    · exact Or.inl held
    · exact Or.inr (lost.mono grows elected partThere (Nat.le_refl term))
  · -- A node that acknowledges now has already reached the term of its votes.
    omega

theorem elected_step (grows : Grows s after) {term : Nat} {n : ι} (won : s.winner term = some n) :
    Exists fun voters => quorum voters ∧ forall voter, voter ∈ voters ->
      Exists fun log => after.votes voter term n log ∧ UpToDate stamp (after.base term) log := by
  rcases invariant.elected term n won with ⟨voters, enough, voted⟩
  refine ⟨voters, enough, ?_⟩
  intro voter member
  rcases voted voter member with ⟨log, vote, upToDate⟩
  rw [grows.base term (won ▸ Option.some_ne_none n)]
  exact ⟨log, grows.votes _ _ _ _ vote, upToDate⟩

/-- A step without a vote or an election keeps what it keeps of the acknowledgements. -/
theorem of_acked (taken : Step stamp (HasVotes stamp quorum) s after)
    (sameVotes : after.votes = s.votes) (sameWinner : after.winner = s.winner)
    (newAcks : forall node term length, after.acks node term length -> s.acks node term length ∨
      term = s.term node)
    (acked : forall node term length, after.acks node term length -> after.winner term ≠ none ∧
      length ≤ (after.full term).length ∧ term ≤ after.term node ∧ forall part, part ≤ length ->
      (after.full term).take part <+: after.log node ∨ Lost after term part (after.term node + 1)) :
    Invariant stamp quorum after := by
  refine ⟨invariant.logs.step taken, acked, ?_, ?_⟩
  · intro voter term candidate log vote
    rw [sameVotes] at vote
    exact invariant.voted_step taken.grows newAcks vote
  · intro term m won
    rw [sameWinner] at won
    exact invariant.elected_step taken.grows won

/-- What was acknowledged survives when the node takes over a part of the log of
a leader, unless that leader was elected without it. -/
theorem kept_by_accept {n leader : ι} {part : List ε} (elected : s.winner (s.term n) = some leader)
    (taken : part <+: s.full (s.term n)) (node : ι) (term length : Nat)
    (ack : s.acks node term length) (shorter : Nat)
    (held : (s.full term).take shorter <+: s.log node) :
    (s.full term).take shorter <+: (s.accept n part).log node ∨
      Lost (s.accept n part) term shorter (s.term node + 1) := by
  rcases eq_or_ne node n with rfl | different
  · simp only [State.accept, update_self]
    rcases Nat.lt_or_eq_of_le (invariant.acked node term length ack).2.2.1 with before | same
    · by_cases based : (s.full term).take shorter <+: s.base (s.term node)
      · rcases invariant.logs.grown (s.term node) with ⟨own, shape, _⟩
        exact Or.inl (prefix_merge held (based.trans ⟨own, shape.symm⟩) taken)
      · exact Or.inr ⟨s.term node, before, Nat.lt_succ_self _,
          elected ▸ Option.some_ne_none leader, based⟩
    · exact Or.inl (prefix_merge held (same ▸ List.take_prefix _ _) taken)
  · simp only [State.accept, update_of_ne different]
    exact Or.inl held

theorem vote {n candidate : ι} (vacant : s.winner (s.term n) = none) :
    Invariant stamp quorum (s.vote n candidate) := by
  have taken : Step stamp (HasVotes stamp quorum) s (s.vote n candidate) := .vote n candidate vacant
  refine ⟨invariant.logs.step taken, invariant.acked, ?_, ?_⟩
  · rintro voter term chosen log (old | ⟨rfl, rfl, rfl, rfl⟩)
    · exact invariant.voted voter term chosen log old
    · refine ⟨Nat.le_refl _, invariant.logs.coherent voter, ?_⟩
      intro earlier length _ ack part inside
      rcases (invariant.acked voter earlier length ack).2.2.2 part inside with held | lost
      · exact Or.inl held
      · -- The term has no leader yet, so that the part was lost in an earlier one.
        rcases lost with ⟨later, above, below, elected, missing⟩
        refine Or.inr ⟨later, above, ?_, elected, missing⟩
        refine Nat.lt_of_le_of_ne (Nat.le_of_lt_succ below) ?_
        rintro rfl
        exact elected vacant
  · intro term m won
    exact invariant.elected_step taken.grows won

theorem propose {n : ι} {entry : ε} (leads : s.winner (s.term n) = some n)
    (stamped : stamp entry = s.term n) :
    Invariant stamp quorum (s.propose n entry) := by
  have taken : Step stamp (HasVotes stamp quorum) s (s.propose n entry) :=
    .propose n entry leads stamped
  refine invariant.of_acked taken rfl rfl ?_ ?_
  · rintro node term length (old | ⟨rfl, rfl, _⟩)
    · exact Or.inl old
    · exact Or.inr rfl
  · rintro node term length (old | ⟨rfl, rfl, rfl⟩)
    · refine invariant.acked_step taken.grows (fun node term length _ part held => Or.inl ?_) old
      rcases eq_or_ne node n with rfl | other
      · simp only [State.propose, update_self]
        exact held.trans (List.prefix_append _ _)
      · simp only [State.propose, update_of_ne other]
        exact held
    · have same := invariant.logs.leading node leads
      refine ⟨leads ▸ Option.some_ne_none node, ?_, Nat.le_refl _, ?_⟩
      · simp only [State.propose, update_self, ← same, List.length_append,
          List.length_singleton, Nat.le_refl]
      · intro part _
        simp only [State.propose, update_self, ← same]
        exact Or.inl (List.take_prefix _ _)

theorem accept {n leader : ι} {part : List ε} (elected : s.winner (s.term n) = some leader)
    (other : leader ≠ n) (inside : part <+: s.full (s.term n)) :
    Invariant stamp quorum (s.accept n part) := by
  have taken : Step stamp (HasVotes stamp quorum) s (s.accept n part) :=
    .accept n leader part elected other inside
  refine invariant.of_acked taken rfl rfl ?_ ?_
  · rintro node term length (old | ⟨rfl, rfl, _⟩)
    · exact Or.inl old
    · exact Or.inr rfl
  · rintro node term length (old | ⟨rfl, rfl, rfl⟩)
    · exact invariant.acked_step taken.grows (invariant.kept_by_accept elected inside) old
    · refine ⟨elected ▸ Option.some_ne_none leader, inside.length_le, Nat.le_refl _, ?_⟩
      intro shorter covered
      have held : (s.full (s.term node)).take shorter <+: part := by
        rcases inside with ⟨more, whole⟩
        rw [← whole, List.take_append_of_le_length covered]
        exact List.take_prefix _ _
      refine Or.inl ?_
      simp only [State.accept, update_self]
      exact held.trans (part_prefix_merge _ _)

theorem step (taken : Step stamp (HasVotes stamp quorum) s after) :
    Invariant stamp quorum after := by
  have logs := invariant.logs.step taken
  have grows := taken.grows
  cases taken with
  | advance n term later =>
      refine invariant.of_acked (.advance n term later) rfl rfl (fun _ _ _ ack => Or.inl ack) ?_
      intro node term length ack
      exact invariant.acked_step grows (fun _ _ _ _ _ held => Or.inl held) ack
  | vote n candidate vacant => exact invariant.vote vacant
  | elect n vacant chosen =>
      refine ⟨logs, ?_, ?_, ?_⟩
      · intro node term length ack
        exact invariant.acked_step grows (fun _ _ _ _ _ held => Or.inl held) ack
      · intro voter term candidate log vote
        exact invariant.voted_step grows (fun _ _ _ ack => Or.inl ack) vote
      · intro term m won
        rcases eq_or_ne term (s.term n) with rfl | other
        · simp only [State.elect, update_self, Option.some.injEq] at won ⊢
          exact won ▸ chosen
        · simp only [State.elect, update_of_ne other] at won
          exact invariant.elected_step grows won
  | propose n entry leads stamped => exact invariant.propose leads stamped
  | accept n leader part elected other inside => exact invariant.accept elected other inside

theorem run (steps : Relation.ReflTransGen (Step stamp (HasVotes stamp quorum)) s after) :
    Invariant stamp quorum after := by
  induction steps with
  | refl => exact invariant
  | tail _ last ih => exact ih.step last

/-! ## Leader completeness -/

/-- The log with which a leader was elected is a part of its log. -/
theorem base_prefix_full (term : Nat) : s.base term <+: s.full term := by
  rcases invariant.logs.grown term with ⟨own, shape, _⟩
  exact ⟨own, shape.symm⟩

/-- The last entry of a log is the youngest. -/
theorem stamp_le_last {log front : List ε} {entry last : ε} (coherent : Coherent stamp s log)
    (shape : log = front ++ [last]) (member : entry ∈ log) : stamp entry ≤ stamp last := by
  have part := (coherent front last (shape ▸ List.prefix_rfl)).2
  rw [← shape] at part
  exact invariant.logs.stamp_le (part.subset member)

/-- A log that is at least as far as another contains what that one shares with
the logs of all leaders in between. -/
theorem shared_of_upToDate {log other front : List ε} {entry : ε} {term later : Nat}
    (coherent : Coherent stamp s log) (otherCoherent : Coherent stamp s other)
    (young : forall entry, entry ∈ log -> stamp entry < later) (upToDate : UpToDate stamp log other)
    (shared : front ++ [entry] <+: other) (stamped : stamp entry = term)
    (between : forall middle, term < middle -> middle < later -> s.winner middle ≠ none ->
      front ++ [entry] <+: s.base middle) :
    front ++ [entry] <+: log := by
  have member : entry ∈ other := shared.subset (List.mem_append_right _ (List.mem_singleton_self _))
  rcases List.eq_nil_or_concat other with rfl | ⟨otherFront, otherLast, otherShape⟩
  · cases member
  rw [List.concat_eq_append] at otherShape
  have otherStamp : lastStamp stamp other = stamp otherLast := by
    rw [otherShape, lastStamp, List.getLast?_concat]
    rfl
  have termLe := invariant.stamp_le_last otherCoherent otherShape member
  rcases List.eq_nil_or_concat log with rfl | ⟨logFront, logLast, logShape⟩
  · rcases upToDate with further | ⟨_, longer⟩
    · exact absurd further (Nat.not_lt_zero _)
    · rw [List.eq_nil_of_length_eq_zero (Nat.le_zero.mp longer)] at member
      cases member
  rw [List.concat_eq_append] at logShape
  have logStamp : lastStamp stamp log = stamp logLast := by
    rw [logShape, lastStamp, List.getLast?_concat]
    rfl
  rw [UpToDate, otherStamp, logStamp] at upToDate
  have inLog : logLast ∈ log := logShape ▸ List.mem_append_right _ (List.mem_singleton_self _)
  rcases coherent logFront logLast (logShape ▸ List.prefix_rfl) with ⟨elected, ofLeader⟩
  rw [← logShape] at ofLeader
  rcases upToDate with further | ⟨sameTerm, longer⟩
  · -- The last entry comes from a later leader, which was elected with the shared part.
    have based := between (stamp logLast) (by omega) (young logLast inLog) elected
    refine based.trans ?_
    rcases List.prefix_or_prefix_of_prefix (invariant.base_prefix_full (stamp logLast))
      ofLeader with below | above
    · exact below
    · exact absurd (invariant.logs.older _ _ (above.subset inLog)) (Nat.lt_irrefl _)
  · have otherOfLeader := (otherCoherent otherFront otherLast (otherShape ▸ List.prefix_rfl)).2
    rw [← otherShape, sameTerm] at otherOfLeader
    exact shared.trans (List.prefix_of_prefix_length_le otherOfLeader ofLeader longer)

end Invariant

/-- The entry at a place of the log of a leader is of its own term, and a quorum
has acknowledged it. -/
def Committed (stamp : ε -> Nat) (quorum : Set ι -> Prop) (s : State ι ε) (term length : Nat) :
    Prop :=
  (Exists fun front => Exists fun entry => (s.full term).take length = front ++ [entry] ∧
    stamp entry = term) ∧
    Exists fun voters => quorum voters ∧ forall voter, voter ∈ voters ->
      Exists fun acked => length ≤ acked ∧ s.acks voter term acked

/-- A list of entries that is a part of what was committed in some term up to
the bound. -/
def Settled (stamp : ε -> Nat) (quorum : Set ι -> Prop) (s : State ι ε) (bound : Nat)
    (entries : List ε) : Prop :=
  entries = [] ∨ Exists fun term => term ≤ bound ∧ Exists fun length =>
    Committed stamp quorum s term length ∧ entries <+: (s.full term).take length

theorem Settled.of_part {bound : Nat} {entries part : List ε}
    (settled : Settled stamp quorum s bound entries) (inside : part <+: entries) :
    Settled stamp quorum s bound part := by
  rcases settled with rfl | ⟨term, low, length, committed, taken⟩
  · exact Or.inl (List.prefix_nil.mp inside)
  · exact Or.inr ⟨term, low, length, committed, inside.trans taken⟩

theorem Settled.weaken {bound further : Nat} {entries : List ε}
    (settled : Settled stamp quorum s bound entries) (wider : bound ≤ further) :
    Settled stamp quorum s further entries := by
  rcases settled with none | ⟨term, low, length, committed, taken⟩
  · exact Or.inl none
  · exact Or.inr ⟨term, Nat.le_trans low wider, length, committed, taken⟩

section Quorums

variable (meet : forall first second : Set ι, quorum first -> quorum second ->
  Exists fun voter => voter ∈ first ∧ voter ∈ second)

include meet

variable (invariant : Invariant stamp quorum s)

include invariant

/-- A later leader is elected with everything that was committed before. -/
theorem Invariant.completeness {term length : Nat}
    (committed : Committed stamp quorum s term length) (later : Nat) (after : term < later)
    (elected : s.winner later ≠ none) : (s.full term).take length <+: s.base later := by
  induction later using Nat.strong_induction_on with
  | _ later ih =>
      rcases Option.ne_none_iff_exists'.mp elected with ⟨n, won⟩
      rcases committed with ⟨⟨front, entry, shape, stamped⟩, voters, enough, acked⟩
      rcases invariant.elected later n won with ⟨electors, enoughToo, voted⟩
      rcases meet voters electors enough enoughToo with ⟨voter, hasAcked, hasVoted⟩
      rcases acked voter hasAcked with ⟨acknowledged, covers, ack⟩
      rcases voted voter hasVoted with ⟨log, vote, upToDate⟩
      rcases invariant.voted voter later n log vote with ⟨_, coherent, parts⟩
      have between : forall middle, term < middle -> middle < later -> s.winner middle ≠ none ->
          (s.full term).take length <+: s.base middle :=
        fun middle above below middleElected => ih middle below above middleElected
      rcases parts term acknowledged after ack length covers with held | lost
      · rw [shape] at held between ⊢
        exact invariant.shared_of_upToDate
          ((invariant.logs.coherentFull later).of_part (invariant.base_prefix_full later)) coherent
          (invariant.logs.older later) upToDate held stamped between
      · rcases lost with ⟨middle, above, below, middleElected, missing⟩
        exact absurd (between middle above below middleElected) missing

/-- What is committed was acknowledged, and so is part of the log of an elected
leader. -/
theorem Committed.there {term length : Nat} (committed : Committed stamp quorum s term length) :
    s.winner term ≠ none ∧ length ≤ (s.full term).length := by
  rcases committed with ⟨_, voters, enough, acked⟩
  rcases meet voters voters enough enough with ⟨voter, member, _⟩
  rcases acked voter member with ⟨acknowledged, covers, ack⟩
  rcases invariant.acked voter term acknowledged ack with ⟨elected, there, _, _⟩
  exact ⟨elected, Nat.le_trans covers there⟩

/-- What is settled stays settled. -/
theorem Settled.mono (grows : Grows s after) {bound : Nat} {entries : List ε}
    (settled : Settled stamp quorum s bound entries) :
    Settled stamp quorum after bound entries := by
  rcases settled with none | ⟨term, low, length, committed, part⟩
  · exact Or.inl none
  · rcases committed.there meet invariant with ⟨elected, there⟩
    have same := take_full grows elected there
    rcases committed with ⟨shape, voters, enough, acked⟩
    refine Or.inr ⟨term, low, length, ⟨?_, voters, enough, ?_⟩, ?_⟩
    · rw [same]
      exact shape
    · intro voter member
      rcases acked voter member with ⟨acknowledged, covers, ack⟩
      exact ⟨acknowledged, covers, grows.acks _ _ _ ack⟩
    · rw [same]
      exact part

/-- What was settled before a term is part of the log of the leader of the term. -/
theorem Settled.prefix_full {bound : Nat} {entries : List ε}
    (settled : Settled stamp quorum s bound entries) (elected : s.winner bound ≠ none) :
    entries <+: s.full bound := by
  rcases settled with rfl | ⟨term, low, length, committed, part⟩
  · exact List.nil_prefix
  · rcases Nat.lt_or_eq_of_le low with before | rfl
    · exact part.trans ((invariant.completeness meet committed bound before elected).trans
        (invariant.base_prefix_full bound))
    · exact part.trans (List.take_prefix _ _)

/-- Of two settled lists one is a part of the other. -/
theorem Settled.comparable {first second : Nat} {entries others : List ε}
    (settled : Settled stamp quorum s first entries)
    (otherSettled : Settled stamp quorum s second others) :
    entries <+: others ∨ others <+: entries := by
  rcases settled with rfl | ⟨term, low, length, committed, part⟩
  · exact Or.inl List.nil_prefix
  · rcases otherSettled with rfl | ⟨otherTerm, otherLow, otherLength, otherCommitted, otherPart⟩
    · exact Or.inr List.nil_prefix
    · -- Both are parts of the log of the leader of the later of the two terms.
      rcases Nat.le_total term otherTerm with before | before
      · have here : Settled stamp quorum s otherTerm entries :=
          Or.inr ⟨term, before, length, committed, part⟩
        have elected := (otherCommitted.there meet invariant).1
        exact List.prefix_or_prefix_of_prefix (here.prefix_full meet invariant elected)
          (otherPart.trans (List.take_prefix _ _))
      · have there : Settled stamp quorum s term others :=
          Or.inr ⟨otherTerm, before, otherLength, otherCommitted, otherPart⟩
        have elected := (committed.there meet invariant).1
        exact List.prefix_or_prefix_of_prefix (part.trans (List.take_prefix _ _))
          (there.prefix_full meet invariant elected)

end Quorums
end Consensus
end KVStore
