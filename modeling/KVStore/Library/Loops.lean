import Mathlib.Logic.Relation

namespace KVStore
namespace Loops

/-!
# Loops

A loop is given by one turn of it: the turn leaves the loop with a result, or it
goes on from a next state.  A loop ends from a state when finitely many turns leave
it.  A measure that every turn makes smaller brings a loop to its end, and a
property under which there is always one more turn keeps it from ending.
-/

/-- What a turn does. -/
inductive Turn (State Result : Type) where
  | leave (result : Result)
  | next (state : State)

variable {State Result : Type} {turn : State -> Turn State Result}

/-- The loop ends from a state with a result. -/
inductive Ends (turn : State -> Turn State Result) : State -> Result -> Prop where
  | leave {state : State} {result : Result} (left : turn state = .leave result) :
    Ends turn state result
  | next {state later : State} {result : Result} (turned : turn state = .next later)
      (ends : Ends turn later result) : Ends turn state result

/-- A turn that goes on does not change how the loop ends. -/
theorem ends_iff_of_next {state later : State} (turned : turn state = .next later)
    (result : Result) :
    Ends turn state result <-> Ends turn later result := by
  constructor
  · intro ends
    cases ends with
    | leave left => cases turned.symm.trans left
    | next otherTurned ends =>
        cases turned.symm.trans otherTurned
        exact ends
  · exact .next turned

/-- The loop comes from a state to a later one. -/
def Reaches (turn : State -> Turn State Result) : State -> State -> Prop :=
  Relation.ReflTransGen fun state later => turn state = .next later

/-- The rule for all states of a loop. -/
theorem Reaches.invariant {invariant : State -> Prop}
    (kept : forall state later, invariant state -> turn state = .next later -> invariant later)
    {state later : State} (reaches : Reaches turn state later) (start : invariant state) :
    invariant later := by
  induction reaches with
  | refl => exact start
  | tail _ turned ih => exact kept _ _ ih turned

/-- A loop that ends does so in a state that it reaches. -/
theorem Ends.exists_last {state : State} {result : Result} (ends : Ends turn state result) :
    Exists fun last => Reaches turn state last ∧ turn last = .leave result := by
  induction ends with
  | leave left => exact ⟨_, .refl, left⟩
  | next turned _ ih =>
      rcases ih with ⟨last, reaches, left⟩
      exact ⟨last, .head turned reaches, left⟩

/-- The rule for loops that end: every turn keeps the invariant and makes the measure
smaller. -/
theorem exists_ends {invariant : State -> Prop} {measure : State -> Nat}
    (turned : forall state later, invariant state -> turn state = .next later -> invariant later ∧
      measure later < measure state)
    {state : State} (start : invariant state) : Exists fun result => Ends turn state result := by
  induction size : measure state using Nat.strongRecOn generalizing state with
  | _ bound ih =>
      cases here : turn state with
      | leave result => exact ⟨result, .leave here⟩
      | next later =>
          rcases turned state later start here with ⟨kept, smaller⟩
          rcases ih _ (size ▸ smaller) kept rfl with ⟨result, ends⟩
          exact ⟨result, .next here ends⟩

/-- The rule for loops that do not end: the invariant always allows one more turn, which
keeps it. -/
theorem not_ends {invariant : State -> Prop}
    (goesOn : forall state, invariant state -> Exists fun later => turn state = .next later ∧
      invariant later)
    {state : State} (start : invariant state) (result : Result) : ¬ Ends turn state result := by
  intro ends
  induction ends with
  | leave left =>
      rcases goesOn _ start with ⟨later, turned, _⟩
      cases left.symm.trans turned
  | next turned later ih =>
      rcases goesOn _ start with ⟨other, otherTurned, kept⟩
      cases turned.symm.trans otherTurned
      exact ih kept

end Loops
end KVStore
