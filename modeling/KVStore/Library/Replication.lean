import Mathlib.Data.List.Infix
import Mathlib.Logic.Function.Basic
import Mathlib.Logic.Relation

namespace KVStore
namespace Replication

open Function Classical

/-!
# Replicated logs

Nodes keep logs whose entries bear the number of a term.  In each term at most
one node is elected; it extends its own log with entries of the term, and other
nodes that are in the term take over parts of that log.  A part that a node does
not have yet replaces its log.

For each term the state keeps the log with which the leader was elected and the
log as far as it has grown since.  All logs are then described by one property:
every part of a log that ends with an entry of some term is a part of the log of
the leader of that term.  Logs that agree on the term of an entry therefore
agree on everything before it.

Votes and acknowledgements are recorded, and who may be elected is left open.
-/

variable {ι ε : Type}

/-- The terms and logs of the nodes, and for each term its leader, the log with
which it was elected, and that log as far as it has grown.  A vote is recorded
with the log of the voter, and an acknowledgement with the length of the part
that was taken over. -/
structure State (ι ε : Type) where
  term : ι -> Nat
  log : ι -> List ε
  winner : Nat -> Option ι
  base : Nat -> List ε
  full : Nat -> List ε
  votes : ι -> Nat -> ι -> List ε -> Prop
  acks : ι -> Nat -> Nat -> Prop

/-- No logs and no leaders. -/
def State.initial : State ι ε where
  term := fun _ => 0
  log := fun _ => []
  winner := fun _ => none
  base := fun _ => []
  full := fun _ => []
  votes := fun _ _ _ _ => False
  acks := fun _ _ _ => False

/-- The log of a node that takes over a part of the log of a leader. -/
noncomputable def merge (log part : List ε) : List ε := if part <+: log then log else part

namespace State

variable (s : State ι ε)

/-- A node goes on to another term. -/
noncomputable def advance (n : ι) (term : Nat) : State ι ε :=
  { s with term := update s.term n term }

/-- A node votes in its term. -/
def vote (n candidate : ι) : State ι ε :=
  { s with
    votes := fun voter term chosen log => s.votes voter term chosen log ∨
      voter = n ∧ term = s.term n ∧ chosen = candidate ∧ log = s.log n }

/-- A node becomes the leader of its term. -/
noncomputable def elect (n : ι) : State ι ε :=
  { s with
    winner := update s.winner (s.term n) (some n)
    base := update s.base (s.term n) (s.log n)
    full := update s.full (s.term n) (s.log n) }

/-- A leader appends an entry, which it thereby acknowledges. -/
noncomputable def propose (n : ι) (entry : ε) : State ι ε :=
  { s with
    log := update s.log n (s.log n ++ [entry])
    full := update s.full (s.term n) (s.full (s.term n) ++ [entry])
    acks := fun node term length => s.acks node term length ∨
      node = n ∧ term = s.term n ∧ length = (s.log n).length + 1 }

/-- A node takes over a part of the log of its leader and acknowledges it. -/
noncomputable def accept (n : ι) (part : List ε) : State ι ε :=
  { s with
    log := update s.log n (merge (s.log n) part)
    acks := fun node term length => s.acks node term length ∨
      node = n ∧ term = s.term n ∧ length = part.length }

end State

variable (stamp : ε -> Nat) (electable : State ι ε -> ι -> Prop)

inductive Step (s : State ι ε) : State ι ε -> Prop where
  | advance (n : ι) (term : Nat) (later : s.term n < term) : Step s (s.advance n term)
  | vote (n candidate : ι) (vacant : s.winner (s.term n) = none) : Step s (s.vote n candidate)
  | elect (n : ι) (vacant : s.winner (s.term n) = none) (chosen : electable s n) : Step s (s.elect n)
  | propose (n : ι) (entry : ε) (leads : s.winner (s.term n) = some n)
      (stamped : stamp entry = s.term n) : Step s (s.propose n entry)
  | accept (n leader : ι) (part : List ε) (elected : s.winner (s.term n) = some leader)
      (other : leader ≠ n) (taken : part <+: s.full (s.term n)) : Step s (s.accept n part)

/-- Every part of the log that ends with an entry of some term is a part of the
log of the leader of that term. -/
def Coherent (s : State ι ε) (log : List ε) : Prop :=
  forall front entry, front ++ [entry] <+: log ->
    s.winner (stamp entry) ≠ none ∧ front ++ [entry] <+: s.full (stamp entry)

structure Invariant (s : State ι ε) : Prop where
  leading : forall n, s.winner (s.term n) = some n -> s.log n = s.full (s.term n)
  coherent : forall n, Coherent stamp s (s.log n)
  coherentFull : forall term, Coherent stamp s (s.full term)
  bounded : forall n entry, entry ∈ s.log n -> stamp entry ≤ s.term n
  grown : forall term, Exists fun own => s.full term = s.base term ++ own ∧
    forall entry, entry ∈ own -> stamp entry = term
  older : forall term entry, entry ∈ s.base term -> stamp entry < term
  reached : forall n term, s.winner term = some n -> term ≤ s.term n
  own : forall n term, s.winner term = some n -> s.full term = s.base term ∨
    s.acks n term (s.full term).length

variable {stamp electable} {s after : State ι ε}

/-! ## Growth -/

/-- What is known of a term stays: its leader, the log with which it was
elected, the log of the leader up to some length, the votes and the
acknowledgements. -/
structure Grows (s after : State ι ε) : Prop where
  winner : forall term n, s.winner term = some n -> after.winner term = some n
  base : forall term, s.winner term ≠ none -> after.base term = s.base term
  full : forall term, s.winner term ≠ none -> s.full term <+: after.full term
  term : forall n, s.term n ≤ after.term n
  votes : forall voter term candidate log, s.votes voter term candidate log ->
    after.votes voter term candidate log
  acks : forall node term length, s.acks node term length -> after.acks node term length

theorem Grows.elected (grows : Grows s after) {term : Nat} (elected : s.winner term ≠ none) :
    after.winner term ≠ none := by
  rcases Option.ne_none_iff_exists'.mp elected with ⟨n, winner⟩
  rw [grows.winner term n winner]
  exact Option.some_ne_none n

theorem Step.grows (taken : Step stamp electable s after) : Grows s after := by
  cases taken with
  | advance n term later =>
      refine ⟨fun _ _ elected => elected, fun _ _ => rfl, fun _ _ => List.prefix_rfl, ?_,
        fun _ _ _ _ vote => vote, fun _ _ _ ack => ack⟩
      intro m
      rcases eq_or_ne m n with rfl | other
      · simp only [State.advance, update_self]
        exact Nat.le_of_lt later
      · simp only [State.advance, update_of_ne other, Nat.le_refl]
  | vote n candidate vacant =>
      exact ⟨fun _ _ elected => elected, fun _ _ => rfl, fun _ _ => List.prefix_rfl,
        fun _ => Nat.le_refl _, fun _ _ _ _ vote => Or.inl vote, fun _ _ _ ack => ack⟩
  | elect n vacant chosen =>
      have other : forall {term : Nat}, s.winner term ≠ none -> term ≠ s.term n := by
        rintro term elected rfl
        exact elected vacant
      refine ⟨?_, ?_, ?_, fun _ => Nat.le_refl _, fun _ _ _ _ vote => vote, fun _ _ _ ack => ack⟩
      · intro term m elected
        simp only [State.elect, update_of_ne (other (elected ▸ Option.some_ne_none m))]
        exact elected
      · intro term elected
        simp only [State.elect, update_of_ne (other elected)]
      · intro term elected
        simp only [State.elect, update_of_ne (other elected), List.prefix_rfl]
  | propose n entry leads stamped =>
      refine ⟨fun _ _ elected => elected, fun _ _ => rfl, ?_, fun _ => Nat.le_refl _,
        fun _ _ _ _ vote => vote, fun _ _ _ ack => Or.inl ack⟩
      intro term _
      rcases eq_or_ne term (s.term n) with rfl | other
      · simp only [State.propose, update_self]
        exact List.prefix_append _ _
      · simp only [State.propose, update_of_ne other, List.prefix_rfl]
  | accept n leader part elected other taken =>
      exact ⟨fun _ _ elected => elected, fun _ _ => rfl, fun _ _ => List.prefix_rfl,
        fun _ => Nat.le_refl _, fun _ _ _ _ vote => vote, fun _ _ _ ack => Or.inl ack⟩

theorem Grows.refl (s : State ι ε) : Grows s s :=
  ⟨fun _ _ elected => elected, fun _ _ => rfl, fun _ _ => List.prefix_rfl, fun _ => Nat.le_refl _,
    fun _ _ _ _ vote => vote, fun _ _ _ ack => ack⟩

theorem Grows.trans {middle : State ι ε} (first : Grows s middle) (second : Grows middle after) :
    Grows s after := by
  refine ⟨?_, ?_, ?_, ?_, ?_, ?_⟩
  · exact fun term n won => second.winner term n (first.winner term n won)
  · exact fun term elected => (second.base term (first.elected elected)).trans
      (first.base term elected)
  · exact fun term elected =>
      (first.full term elected).trans (second.full term (first.elected elected))
  · exact fun n => Nat.le_trans (first.term n) (second.term n)
  · exact fun voter term candidate log vote => second.votes _ _ _ _ (first.votes _ _ _ _ vote)
  · exact fun node term length ack => second.acks _ _ _ (first.acks _ _ _ ack)

theorem grows_of_steps (steps : Relation.ReflTransGen (Step stamp electable) s after) :
    Grows s after := by
  induction steps with
  | refl => exact .refl s
  | tail _ last ih => exact ih.trans last.grows

/-! ## Moves of one node -/

/-- Steps of one node, by which it is not elected. -/
structure Moves (stamp : ε -> Nat) (electable : State ι ε -> ι -> Prop) (n : ι)
    (s after : State ι ε) : Prop where
  steps : Relation.ReflTransGen (Step stamp electable) s after
  term : forall m, m ≠ n -> after.term m = s.term m
  log : forall m, m ≠ n -> after.log m = s.log m
  winner : after.winner = s.winner

namespace Moves

variable {n : ι}

theorem refl (n : ι) (s : State ι ε) : Moves stamp electable n s s :=
  ⟨.refl, fun _ _ => rfl, fun _ _ => rfl, rfl⟩

theorem trans {middle : State ι ε} (first : Moves stamp electable n s middle)
    (second : Moves stamp electable n middle after) : Moves stamp electable n s after :=
  ⟨first.steps.trans second.steps, fun m other => (second.term m other).trans (first.term m other),
    fun m other => (second.log m other).trans (first.log m other), second.winner.trans first.winner⟩

theorem grows (moves : Moves stamp electable n s after) : Grows s after :=
  grows_of_steps moves.steps

variable (stamp electable)

/-- A node goes on to a term, if it is not there yet. -/
theorem reach {term : Nat} (current : s.term n ≤ term) : Exists fun after =>
    Moves stamp electable n s after ∧ after.term n = term ∧ after.log n = s.log n := by
  rcases Nat.lt_or_eq_of_le current with later | there
  · refine ⟨s.advance n term, ⟨.single (.advance n term later), ?_, fun _ _ => rfl, rfl⟩, ?_, rfl⟩
    · intro m other
      simp only [State.advance, update_of_ne other]
    · simp only [State.advance, update_self]
  · exact ⟨s, .refl n s, there, rfl⟩

/-- A node votes, if its term has no leader yet. -/
theorem vote (n candidate : ι) : Exists fun after =>
    Moves stamp electable n s after ∧ after.term n = s.term n ∧ after.log n = s.log n ∧
      (after.winner (s.term n) ≠ none ∨ after.votes n (s.term n) candidate (s.log n)) := by
  by_cases vacant : s.winner (s.term n) = none
  · exact ⟨s.vote n candidate,
      ⟨.single (.vote n candidate vacant), fun _ _ => rfl, fun _ _ => rfl, rfl⟩, rfl, rfl,
        Or.inr (Or.inr ⟨rfl, rfl, rfl, rfl⟩)⟩
  · exact ⟨s, .refl n s, rfl, rfl, Or.inl vacant⟩

theorem propose {entry : ε} (leads : s.winner (s.term n) = some n)
    (stamped : stamp entry = s.term n) :
    Exists fun after =>
      Moves stamp electable n s after ∧ after.term n = s.term n ∧
          after.log n = s.log n ++ [entry] := by
  refine ⟨s.propose n entry,
    ⟨.single (.propose n entry leads stamped), fun _ _ => rfl, ?_, rfl⟩, rfl, ?_⟩
  · intro m other
    simp only [State.propose, update_of_ne other]
  · simp only [State.propose, update_self]

theorem accept {leader : ι} {part : List ε} (elected : s.winner (s.term n) = some leader)
    (different : leader ≠ n) (taken : part <+: s.full (s.term n)) : Exists fun after =>
      Moves stamp electable n s after ∧ after.term n = s.term n ∧ after.log n = merge (s.log n) part ∧
        after.acks n (s.term n) part.length := by
  refine ⟨s.accept n part,
    ⟨.single (.accept n leader part elected different taken), fun _ _ => rfl, ?_, rfl⟩, rfl, ?_,
      Or.inr ⟨rfl, rfl, rfl⟩⟩
  · intro m other
    simp only [State.accept, update_of_ne other]
  · simp only [State.accept, update_self]

end Moves

/-! ## Parts of logs -/

theorem Coherent.of_part {log part : List ε} (coherent : Coherent stamp s log)
    (taken : part <+: log) :
    Coherent stamp s part :=
  fun front entry inside => coherent front entry (inside.trans taken)

theorem coherent_merge {log part : List ε} (own : Coherent stamp s log)
    (taken : Coherent stamp s part) :
    Coherent stamp s (merge log part) := by
  unfold merge
  split
  · exact own
  · exact taken

/-- A coherent log stays coherent when the logs of the leaders grow. -/
theorem Coherent.mono {log : List ε} (coherent : Coherent stamp s log) (grows : Grows s after) :
    Coherent stamp after log := by
  intro front entry inside
  rcases coherent front entry inside with ⟨elected, part⟩
  exact ⟨grows.elected elected, part.trans (grows.full _ elected)⟩

/-- Logs that agree on the term of an entry agree up to that entry. -/
theorem Coherent.matching {first second front otherFront : List ε} {entry otherEntry : ε}
    (firstCoherent : Coherent stamp s first) (secondCoherent : Coherent stamp s second)
    (inFirst : front ++ [entry] <+: first) (inSecond : otherFront ++ [otherEntry] <+: second)
    (sameLength : front.length = otherFront.length) (sameTerm : stamp entry = stamp otherEntry) :
    front ++ [entry] = otherFront ++ [otherEntry] := by
  have left := (firstCoherent _ _ inFirst).2
  have right := (secondCoherent _ _ inSecond).2
  rw [← sameTerm] at right
  have ordered := List.prefix_of_prefix_length_le left right (by simp [sameLength])
  exact ordered.eq_of_length (by simp [sameLength])

/-! ## The invariant -/

theorem invariant_initial : Invariant stamp (State.initial : State ι ε) := by
  constructor
  · intro n leads
    cases leads
  · intro n front entry inside
    exact absurd (List.prefix_nil.mp inside)
      (List.append_ne_nil_of_right_ne_nil _ (List.cons_ne_nil _ _))
  · intro term front entry inside
    exact absurd (List.prefix_nil.mp inside)
      (List.append_ne_nil_of_right_ne_nil _ (List.cons_ne_nil _ _))
  · intro n entry member
    cases member
  · intro term
    exact ⟨[], rfl, fun _ member => nomatch member⟩
  · intro term entry member
    cases member
  · intro n term elected
    cases elected
  · intro n term elected
    cases elected

namespace Invariant

variable (invariant : Invariant stamp s)

include invariant

/-- Entries in the log of the leader of a term are not younger than the term. -/
theorem stamp_le {term : Nat} {entry : ε} (member : entry ∈ s.full term) : stamp entry ≤ term := by
  rcases invariant.grown term with ⟨own, shape, stamped⟩
  rw [shape] at member
  rcases List.mem_append.mp member with old | new
  · exact Nat.le_of_lt (invariant.older term entry old)
  · exact Nat.le_of_eq (stamped entry new)

theorem advance {n : ι} {term : Nat} (later : s.term n < term) :
    Invariant stamp (s.advance n term) := by
  have grows : forall m, s.term m ≤ (s.advance n term).term m :=
    (show Step stamp (fun _ _ => True) s _ from .advance n term later).grows.term
  refine ⟨?_, invariant.coherent, invariant.coherentFull, ?_, invariant.grown, invariant.older, ?_,
    invariant.own⟩
  · intro m leads
    rcases eq_or_ne m n with rfl | other
    · simp only [State.advance, update_self] at leads
      exact absurd (invariant.reached m term leads) (Nat.not_le.mpr later)
    · simp only [State.advance, update_of_ne other] at leads ⊢
      exact invariant.leading m leads
  · intro m entry member
    exact Nat.le_trans (invariant.bounded m entry member) (grows m)
  · intro m won elected
    exact Nat.le_trans (invariant.reached m won elected) (grows m)

/-- No entry of a term exists before its leader is elected, because an entry
comes from an elected leader. -/
theorem stamp_lt {n : ι} (vacant : s.winner (s.term n) = none) {entry : ε}
    (member : entry ∈ s.log n) :
    stamp entry < s.term n := by
  refine Nat.lt_of_le_of_ne (invariant.bounded n entry member) ?_
  intro same
  rcases List.append_of_mem member with ⟨front, back, shape⟩
  have inside : front ++ [entry] <+: s.log n := ⟨back, by rw [shape, List.append_assoc]; rfl⟩
  exact (invariant.coherent n front entry inside).1 (same ▸ vacant)

theorem elect {n : ι} (vacant : s.winner (s.term n) = none) : Invariant stamp (s.elect n) := by
  have grows := (show Step stamp (fun _ _ => True) s _ from .elect n vacant trivial).grows
  constructor
  · intro m leads
    rcases eq_or_ne (s.term m) (s.term n) with same | other
    · simp only [State.elect, same, update_self, Option.some.injEq] at leads ⊢
      rw [leads]
    · simp only [State.elect, update_of_ne other] at leads ⊢
      exact invariant.leading m leads
  · intro m
    exact (invariant.coherent m).mono grows
  · intro term
    rcases eq_or_ne term (s.term n) with rfl | other
    · simp only [State.elect, update_self]
      exact (invariant.coherent n).mono grows
    · simp only [State.elect, update_of_ne other]
      exact (invariant.coherentFull term).mono grows
  · exact invariant.bounded
  · intro term
    rcases eq_or_ne term (s.term n) with rfl | other
    · exact ⟨[], by simp only [State.elect, update_self, List.append_nil],
        fun _ member => nomatch member⟩
    · simp only [State.elect, update_of_ne other]
      exact invariant.grown term
  · intro term entry member
    rcases eq_or_ne term (s.term n) with rfl | other
    · simp only [State.elect, update_self] at member
      exact invariant.stamp_lt vacant member
    · simp only [State.elect, update_of_ne other] at member
      exact invariant.older term entry member
  · intro m term elected
    rcases eq_or_ne term (s.term n) with rfl | other
    · simp only [State.elect, update_self, Option.some.injEq] at elected
      rw [← elected]
      exact Nat.le_refl _
    · simp only [State.elect, update_of_ne other] at elected
      exact invariant.reached m term elected
  · intro m term elected
    rcases eq_or_ne term (s.term n) with rfl | other
    · refine Or.inl ?_
      simp only [State.elect, update_self]
    · simp only [State.elect, update_of_ne other] at elected ⊢
      exact invariant.own m term elected

theorem propose {n : ι} {entry : ε} (leads : s.winner (s.term n) = some n)
    (stamped : stamp entry = s.term n) :
    Invariant stamp (s.propose n entry) := by
  have grows := (show Step stamp (fun _ _ => True) s _ from .propose n entry leads stamped).grows
  have extended : Coherent stamp (s.propose n entry) (s.full (s.term n) ++ [entry]) := by
    intro front last inside
    rcases List.prefix_concat_iff.mp inside with whole | old
    · have sameEntry : last = entry := (List.cons.inj (List.append_inj' whole rfl).2).1
      subst sameEntry
      rw [stamped]
      refine ⟨leads ▸ Option.some_ne_none _, ?_⟩
      simp only [State.propose, update_self]
      exact inside
    · exact (invariant.coherentFull _).mono grows front last old
  constructor
  · intro m leadsToo
    rcases eq_or_ne m n with rfl | other
    · simp only [State.propose, update_self]
      rw [invariant.leading m leads]
    · have otherTerm : s.term m ≠ s.term n := by
        intro same
        have leadsThere : s.winner (s.term m) = some m := leadsToo
        rw [same, leads] at leadsThere
        exact other (Option.some.inj leadsThere).symm
      simp only [State.propose, update_of_ne other, update_of_ne otherTerm]
      exact invariant.leading m leadsToo
  · intro m
    rcases eq_or_ne m n with rfl | other
    · simp only [State.propose, update_self]
      rw [invariant.leading m leads]
      exact extended
    · simp only [State.propose, update_of_ne other]
      exact (invariant.coherent m).mono grows
  · intro term
    rcases eq_or_ne term (s.term n) with rfl | other
    · simp only [State.propose, update_self]
      exact extended
    · simp only [State.propose, update_of_ne other]
      exact (invariant.coherentFull term).mono grows
  · intro m other member
    rcases eq_or_ne m n with rfl | different
    · simp only [State.propose, update_self, List.mem_append, List.mem_singleton] at member
      rcases member with old | rfl
      · exact invariant.bounded m other old
      · exact Nat.le_of_eq stamped
    · simp only [State.propose, update_of_ne different] at member
      exact invariant.bounded m other member
  · intro term
    rcases eq_or_ne term (s.term n) with rfl | other
    · rcases invariant.grown (s.term n) with ⟨own, shape, ownStamped⟩
      refine ⟨own ++ [entry], by simp only [State.propose, update_self, shape, List.append_assoc], ?_⟩
      intro later member
      rcases List.mem_append.mp member with old | new
      · exact ownStamped later old
      · rw [List.mem_singleton.mp new, stamped]
    · simp only [State.propose, update_of_ne other]
      exact invariant.grown term
  · exact invariant.older
  · exact invariant.reached
  · intro m term elected
    rcases eq_or_ne term (s.term n) with rfl | other
    · have same : m = n := Option.some.inj (elected.symm.trans leads)
      refine Or.inr (Or.inr ⟨same, rfl, ?_⟩)
      simp only [State.propose, update_self, List.length_append, invariant.leading n leads]
      rfl
    · simp only [State.propose, update_of_ne other]
      exact (invariant.own m term elected).imp_right Or.inl

theorem accept {n leader : ι} {part : List ε} (elected : s.winner (s.term n) = some leader)
    (other : leader ≠ n) (taken : part <+: s.full (s.term n)) :
    Invariant stamp (s.accept n part) := by
  refine ⟨?_, ?_, invariant.coherentFull, ?_, invariant.grown, invariant.older, invariant.reached,
    fun m term elected => (invariant.own m term elected).imp_right Or.inl⟩
  · intro m leads
    have different : m ≠ n := by
      rintro rfl
      exact other (Option.some.inj (elected.symm.trans leads))
    simp only [State.accept, update_of_ne different]
    exact invariant.leading m leads
  · intro m
    rcases eq_or_ne m n with rfl | different
    · simp only [State.accept, update_self]
      exact coherent_merge (invariant.coherent m) ((invariant.coherentFull _).of_part taken)
    · simp only [State.accept, update_of_ne different]
      exact invariant.coherent m
  · intro m entry member
    rcases eq_or_ne m n with rfl | different
    · simp only [State.accept, update_self] at member
      unfold merge at member
      split at member
      · exact invariant.bounded m entry member
      · exact invariant.stamp_le (taken.subset member)
    · simp only [State.accept, update_of_ne different] at member
      exact invariant.bounded m entry member

theorem step (taken : Step stamp electable s after) : Invariant stamp after := by
  cases taken with
  | advance n term later => exact invariant.advance later
  | vote n candidate vacant =>
      exact ⟨invariant.leading, invariant.coherent, invariant.coherentFull, invariant.bounded,
        invariant.grown, invariant.older, invariant.reached, invariant.own⟩
  | elect n vacant chosen => exact invariant.elect vacant
  | propose n entry leads stamped => exact invariant.propose leads stamped
  | accept n leader part elected other taken => exact invariant.accept elected other taken

theorem run (steps : Relation.ReflTransGen (Step stamp electable) s after) :
    Invariant stamp after := by
  induction steps with
  | refl => exact invariant
  | tail _ last ih => exact ih.step last

end Invariant
end Replication
end KVStore
