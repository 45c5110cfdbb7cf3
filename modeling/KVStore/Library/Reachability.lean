import Mathlib.Init

namespace KVStore
namespace Reachability

/-!
# Reaching a state

Rules to show that some state with wanted properties can be reached from a given
one.  The ways from state to state are a relation that is reflexive and
transitive; a property of the states may be kept on the way.

What is reached need not be reached by a single step: a way may shorten a measure
until it has arrived, or arrive at one goal after the other without giving up
those that it has reached.
-/

variable {State Goal : Type} {way : State -> State -> Prop} {kept : State -> Prop}
  (trans : forall {first second third}, way first second -> way second third -> way first third)

include trans

/-- The rule for a way that shortens a measure as long as it has not arrived. -/
theorem exists_of_measure (measure : State -> Nat) {arrived : State -> Prop}
    (round : forall s, kept s -> Exists fun t => way s t ∧ kept t ∧
      (arrived t ∨ measure t < measure s))
    (s : State) (start : kept s) : Exists fun t => way s t ∧ kept t ∧ arrived t := by
  induction size : measure s using Nat.strongRecOn generalizing s with
  | _ bound ih =>
      rcases round s start with ⟨t, first, keptThere, there | shorter⟩
      · exact ⟨t, first, keptThere, there⟩
      · rcases ih (measure t) (size ▸ shorter) t keptThere rfl with ⟨u, second, keptEnd, there⟩
        exact ⟨u, trans first second, keptEnd, there⟩

/-- The rule for many goals.  A way to one of them keeps the others that are
reached. -/
theorem exists_forall (refl : forall s, way s s) {reached : Goal -> State -> Prop}
    (goals : List Goal)
    (round : forall goal, goal ∈ goals -> forall s, kept s -> Exists fun t => way s t ∧ kept t ∧
      reached goal t ∧ forall other, reached other s -> reached other t)
    (s : State) (start : kept s) :
    Exists fun t => way s t ∧ kept t ∧ forall goal, goal ∈ goals -> reached goal t := by
  induction goals generalizing s with
  | nil => exact ⟨s, refl s, start, fun goal inside => nomatch inside⟩
  | cons goal goals ih =>
      rcases ih (fun later inside => round later (List.mem_cons_of_mem _ inside)) s start with
        ⟨t, first, keptThere, before⟩
      rcases round goal List.mem_cons_self t keptThere with ⟨u, second, keptEnd, here, still⟩
      refine ⟨u, trans first second, keptEnd, fun other inside => ?_⟩
      rcases List.mem_cons.mp inside with rfl | later
      · exact here
      · exact still other (before other later)

end Reachability
end KVStore
