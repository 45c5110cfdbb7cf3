import Mathlib.Data.List.Induction

namespace KVStore
namespace Runs

/-!
# Properties of all states of a run

A run is given by the list of what happens in it, and its states by the
beginnings of that list.  A property that is decided step by step, as long as
it has held so far, holds in all states of a run exactly when every step is one
that keeps it.

A loop over an interval of numbers is a run too, and an invariant of it may
speak of the number that comes next.  A run of steps that may fail is the same
run without failures, as long as an invariant rules the failures out.
-/

/-- The rule for a loop over an interval. -/
theorem foldl_range'_induction {State : Type} {body : State -> Nat -> State}
    {motive : Nat -> State -> Prop} {start count : Nat} {s : State} (initial : motive start s)
    (round : forall index current, start ≤ index -> index < start + count -> motive index current ->
      motive (index + 1) (body current index)) :
    motive (start + count) ((List.range' start count).foldl body s) := by
  induction count with
  | zero => exact initial
  | succ count ih =>
      have before := ih fun index current above below =>
        round index current above (Nat.lt_succ_of_lt below)
      rw [List.range'_1_concat, List.foldl_append]
      exact round (start + count) _ (Nat.le_add_right _ _) (Nat.lt_succ_self _) before

/-- The rule for steps that may fail: a run does not fail when an invariant keeps
every step from failing. -/
theorem foldlM_eq_foldl {State Input : Type} {guarded : State -> Input -> Option State}
    {body : State -> Input -> State} {invariant : State -> Prop} {inputs : List Input} {s : State}
    (initial : invariant s)
    (step : forall input, input ∈ inputs -> forall current, invariant current ->
      guarded current input = some (body current input) ∧ invariant (body current input)) :
    inputs.foldlM guarded s = some (inputs.foldl body s) := by
  induction inputs generalizing s with
  | nil => rfl
  | cons input inputs ih =>
      rcases step input List.mem_cons_self s initial with ⟨succeeds, kept⟩
      rw [List.foldlM_cons, succeeds, List.foldl_cons]
      exact ih kept fun later inside => step later (List.mem_cons_of_mem _ inside)

variable {α : Type}

theorem take_snoc_of_le (events : List α) (event : α) {count : Nat}
    (early : count ≤ events.length) :
    (events ++ [event]).take count = events.take count :=
  List.take_append_of_le_length early

theorem getElem?_snoc_length (events : List α) (event : α) :
    (events ++ [event])[events.length]? = some event := by
  rw [List.getElem?_append_right (Nat.le_refl _), Nat.sub_self]
  rfl

/-- An event of a longer run is one of the shorter run, or the last. -/
theorem getElem?_snoc {events : List α} {event other : α} {count : Nat}
    (present : (events ++ [event])[count]? = some other) :
    (count < events.length ∧ events[count]? = some other) ∨
      (count = events.length ∧ other = event) := by
  rcases Nat.lt_or_ge count events.length with inside | atEnd
  · rw [List.getElem?_append_left inside] at present
    exact Or.inl ⟨inside, present⟩
  · rw [List.getElem?_append_right atEnd, List.getElem?_singleton] at present
    split at present
    · cases present
      exact Or.inr ⟨by omega, rfl⟩
    · cases present

/-- The rule for properties that each step keeps or breaks. -/
theorem forall_take_iff {holds : List α -> Prop} {keeps : List α -> α -> Prop} (initial : holds [])
    (step : forall events event, holds events -> (holds (events ++ [event]) <-> keeps events event))
    (events : List α) :
    (forall count, count ≤ events.length -> holds (events.take count)) <->
      forall count event, events[count]? = some event -> keeps (events.take count) event := by
  induction events using List.reverseRecOn with
  | nil =>
      refine iff_of_true (fun count bound => ?_) (fun count event present => nomatch present)
      rw [List.take_nil]
      exact initial
  | append_singleton events event ih =>
      have length : (events ++ [event]).length = events.length + 1 := by
        rw [List.length_append, List.length_singleton]
      have whole : (events ++ [event]).take (events.length + 1) = events ++ [event] :=
        List.take_of_length_le (Nat.le_of_eq length)
      constructor
      · intro always
        have before : forall count, count ≤ events.length -> holds (events.take count) := by
          intro count early
          rw [← take_snoc_of_le events event early]
          exact always count (by omega)
        have now := before events.length (Nat.le_refl _)
        have after := always (events.length + 1) (by omega)
        rw [List.take_length] at now
        rw [whole] at after
        intro count other present
        rcases getElem?_snoc present with ⟨inside, present⟩ | ⟨rfl, rfl⟩
        · rw [take_snoc_of_le events event (Nat.le_of_lt inside)]
          exact ih.mp before count other present
        · rw [take_snoc_of_le events _ (Nat.le_refl _), List.take_length]
          exact (step events _ now).mp after
      · intro kept
        have before : forall count, count ≤ events.length -> holds (events.take count) := by
          apply ih.mpr
          intro count other present
          have inside : count < events.length := (List.getElem?_eq_some_iff.mp present).1
          rw [← take_snoc_of_le events event (Nat.le_of_lt inside)]
          apply kept
          rw [List.getElem?_append_left inside]
          exact present
        have now := before events.length (Nat.le_refl _)
        have last := kept events.length event (getElem?_snoc_length events event)
        rw [List.take_length] at now
        rw [take_snoc_of_le events event (Nat.le_refl _), List.take_length] at last
        intro count bound
        rcases Nat.lt_or_ge events.length count with atEnd | early
        · have full : count = events.length + 1 := by omega
          rw [full, whole]
          exact (step events event now).mpr last
        · rw [take_snoc_of_le events event early]
          exact before count early

end Runs
end KVStore
