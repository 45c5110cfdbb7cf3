import Mathlib.Data.Multiset.AddSub
import Mathlib.Data.List.Sort

namespace KVStore

/-!
# Priority queues

The interface of a queue that gives back an element of least rank, with the
multiset of its elements as the specification.  Which of several elements of
equal rank comes first is left to the implementation: a program that is
verified against the interface does not depend on the order of ties.
-/

structure PriorityQueue (α : Type) (rank : α -> Nat) where
  Carrier : Type
  empty : Carrier
  push : Carrier -> α -> Carrier
  pop : Carrier -> Option (α × Carrier)
  elements : Carrier -> Multiset α
  elements_empty : elements empty = 0
  elements_push : forall queue value, elements (push queue value) = value ::ₘ elements queue
  pop_none : forall {queue}, pop queue = none -> elements queue = 0
  pop_some : forall {queue value rest}, pop queue = some (value, rest) ->
    elements queue = value ::ₘ elements rest ∧ forall other, other ∈ elements queue ->
      rank value ≤ rank other

namespace PriorityQueue

variable {α : Type} {rank : α -> Nat}

/-- How many elements a queue holds. -/
def size (Q : PriorityQueue α rank) (queue : Q.Carrier) : Nat := (Q.elements queue).card

theorem size_of_pop (Q : PriorityQueue α rank) {queue rest : Q.Carrier} {value : α}
    (popped : Q.pop queue = some (value, rest)) : Q.size queue = Q.size rest + 1 := by
  rw [size, (Q.pop_some popped).1, Multiset.card_cons, size]

theorem pop_of_size_eq_zero (Q : PriorityQueue α rank) {queue : Q.Carrier}
    (empty : Q.size queue = 0) :
    Q.pop queue = none := by
  rcases popped : Q.pop queue with _ | ⟨value, rest⟩
  · rfl
  · have more := Q.size_of_pop popped
    omega

/-! ## A queue kept in order -/

/-- Comparison of ranks. -/
def RankLe (rank : α -> Nat) (first second : α) : Prop := rank first ≤ rank second

instance (rank : α -> Nat) : DecidableRel (RankLe rank) :=
    fun _ _ => inferInstanceAs (Decidable (_ ≤ _))

instance (rank : α -> Nat) : Std.Total (RankLe rank) :=
    ⟨fun first second => Nat.le_total (rank first) (rank second)⟩

instance (rank : α -> Nat) : IsTrans α (RankLe rank) := ⟨fun _ _ _ => Nat.le_trans⟩

/-- Lists in the order of their ranks. -/
def ordered (α : Type) (rank : α -> Nat) : PriorityQueue α rank where
  Carrier := { values : List α // values.Pairwise (RankLe rank) }
  empty := ⟨[], List.Pairwise.nil⟩
  push := fun queue value =>
    ⟨queue.1.orderedInsert (RankLe rank) value, queue.2.orderedInsert value _⟩
  pop := fun queue =>
    match queue with
    | ⟨[], _⟩ => none
    | ⟨head :: tail, inOrder⟩ => some (head, ⟨tail, (List.pairwise_cons.mp inOrder).2⟩)
  elements := fun queue => queue.1
  elements_empty := rfl
  elements_push := fun queue value =>
    Multiset.coe_eq_coe.mpr (List.perm_orderedInsert _ value queue.1)
  pop_none := by
    rintro ⟨values, inOrder⟩ popped
    cases values with
    | nil => rfl
    | cons head tail => cases popped
  pop_some := by
    rintro ⟨values, inOrder⟩ value rest popped
    cases values with
    | nil => cases popped
    | cons head tail =>
        cases popped
        refine ⟨rfl, fun other member => ?_⟩
        rcases List.mem_cons.mp member with rfl | later
        · exact Nat.le_refl _
        · exact (List.pairwise_cons.mp inOrder).1 other later

end PriorityQueue
end KVStore
