import Mathlib.Data.Set.Defs
import Mathlib.Order.Lattice

namespace KVStore
namespace Clockwise

/-!
# Points on a circle

Points sit on a circle whose places form a linear order.  A place belongs to
the first point at or after it; past the last point the search starts again
at the lowest one.  Who owns a place depends on the set of points only, and
taking points away that do not own it leaves the owner in office.

The second half finds the owner in a sorted list of points, by a binary
search for the first index at which a condition holds.
-/

/-! ## Owners -/

section Owners

variable {Point Place : Type} [LinearOrder Place] {position : Point -> Place}

/-- The point that owns a place. -/
structure Owns (position : Point -> Place) (points : Set Point) (place : Place)
    (owner : Point) : Prop where
  member : owner ∈ points
  first : (place ≤ position owner ∧
      forall other, other ∈ points -> place ≤ position other -> position owner ≤ position other) ∨
    ((forall other, other ∈ points -> position other < place) ∧
      forall other, other ∈ points -> position owner ≤ position other)

theorem Owns.of_subset {points fewer : Set Point} {place : Place} {owner : Point}
    (owns : Owns position points place owner) (subset : fewer ⊆ points) (member : owner ∈ fewer) :
    Owns position fewer place owner := by
  refine ⟨member, ?_⟩
  rcases owns.first with ⟨after, nearest⟩ | ⟨passed, lowest⟩
  · exact Or.inl ⟨after, fun other listed => nearest other (subset listed)⟩
  · exact Or.inr ⟨fun other listed => passed other (subset listed),
      fun other listed => lowest other (subset listed)⟩

/-- Two owners of a place sit at the same position. -/
theorem Owns.position_eq {points : Set Point} {place : Place} {first second : Point}
    (left : Owns position points place first) (right : Owns position points place second) :
    position first = position second := by
  rcases left.first with ⟨leftAfter, leftNearest⟩ | ⟨leftPassed, leftLowest⟩
  · rcases right.first with ⟨rightAfter, rightNearest⟩ | ⟨rightPassed, _⟩
    · exact le_antisymm (leftNearest second right.member rightAfter)
        (rightNearest first left.member leftAfter)
    · exact absurd leftAfter (not_le_of_gt (rightPassed first left.member))
  · rcases right.first with ⟨rightAfter, _⟩ | ⟨_, rightLowest⟩
    · exact absurd rightAfter (not_le_of_gt (leftPassed second right.member))
    · exact le_antisymm (leftLowest second right.member) (rightLowest first left.member)

end Owners

/-! ## Binary search -/

/-- At most this many rounds of halving the interval from `low` to `high`. -/
def searchRounds (found : Nat -> Bool) : Nat -> Nat -> Nat -> Nat
  | 0, low, _ => low
  | rounds + 1, low, high =>
      if low < high then
        if found ((low + high) / 2) then searchRounds found rounds low ((low + high) / 2)
        else searchRounds found rounds ((low + high) / 2 + 1) high
      else low

/-- The first index below `count` at which `found` holds, or `count`. -/
def search (count : Nat) (found : Nat -> Bool) : Nat := searchRounds found count 0 count

/-- The index is the first of the indexes below `count` at which `found` holds, or
`count` itself. -/
structure First (count : Nat) (found : Nat -> Bool) (index : Nat) : Prop where
  le : index ≤ count
  before : forall other, other < index -> found other = false
  holds : index < count -> found index = true

variable {count : Nat} {found : Nat -> Bool}

/-- What the loop keeps:  nothing is found below the interval, and something
at its upper end unless that is the end of the whole range. -/
theorem first_searchRounds
    (upward : forall i j, i ≤ j -> found i = true -> j < count -> found j = true)
    (rounds low high : Nat) (enough : high ≤ low + rounds) (ordered : low ≤ high)
    (inside : high ≤ count) (below : forall other, other < low -> found other = false)
    (above : high < count -> found high = true) :
    First count found (searchRounds found rounds low high) := by
  induction rounds generalizing low high with
  | zero =>
      have closed : low = high := Nat.le_antisymm ordered enough
      subst closed
      exact ⟨inside, below, above⟩
  | succ rounds ih =>
      rw [searchRounds]
      split
      next wide =>
        split
        next found =>
          exact ih low _ (by omega) (by omega) (by omega) below (fun _ => found)
        next missing =>
          -- Nothing at or below the middle, since the condition only turns on once.
          refine ih _ high (by omega) (by omega) inside (fun other early => ?_) above
          refine Bool.eq_false_iff.mpr fun present => missing ?_
          exact upward other _ (by omega) present (by omega)
      next narrow =>
        have closed : low = high := by omega
        subst closed
        exact ⟨inside, below, above⟩

theorem first_search (upward : forall i j, i ≤ j -> found i = true -> j < count -> found j = true) :
    First count found (search count found) :=
  first_searchRounds upward count 0 count (by omega) (Nat.zero_le _) (Nat.le_refl _)
    (fun _ early => absurd early (Nat.not_lt_zero _)) (fun beyond => absurd beyond (Nat.lt_irrefl _))

/-! ## Owners in a sorted list -/

section Lists

variable {Point Place : Type} [LinearOrder Place] {position : Point -> Place} {ring : List Point}
    {place : Place}

/-- The point at this index of the list is at or after the place. -/
def reaches (position : Point -> Place) (ring : List Point) (place : Place) (index : Nat) : Bool :=
  ring[index]?.any fun point => decide (place ≤ position point)

theorem reaches_iff {index : Nat} (inside : index < ring.length) :
    reaches position ring place index = true <-> place ≤ position ring[index] := by
  rw [reaches, List.getElem?_eq_getElem inside, Option.any_some, decide_eq_true_iff]

theorem position_mono (sorted : ring.Pairwise fun a b => position a ≤ position b) {i j : Nat}
    (le : i ≤ j) (inside : j < ring.length) : position ring[i] ≤ position ring[j] := by
  rcases Nat.lt_or_eq_of_le le with before | rfl
  · exact List.pairwise_iff_getElem.mp sorted i j (by omega) inside before
  · exact le_refl _

theorem first_search_reaches (sorted : ring.Pairwise fun a b => position a ≤ position b) :
    First ring.length (reaches position ring place)
        (search ring.length (reaches position ring place)) := by
  apply first_search
  intro i j le present inside
  rw [reaches_iff (by omega)] at present
  rw [reaches_iff inside]
  exact le_trans present (position_mono sorted le inside)

/-- The first point of a sorted list that reaches the place owns it, and so
does the head of the list when no point reaches it. -/
theorem owns_of_first (sorted : ring.Pairwise fun a b => position a ≤ position b) {index : Nat}
    (first : First ring.length (reaches position ring place) index) {owner : Point}
    (stored : ring[if ring.length ≤ index then 0 else index]? = some owner) :
    Owns position {point | point ∈ ring} place owner := by
  rcases List.getElem?_eq_some_iff.mp stored with ⟨inside, rfl⟩
  refine ⟨List.getElem_mem inside, ?_⟩
  rcases Nat.lt_or_ge index ring.length with present | beyond
  · have chosen : (if ring.length ≤ index then 0 else index) = index := if_neg (by omega)
    simp only [chosen]
    refine Or.inl ⟨(reaches_iff present).mp (first.holds present), fun other listed reached => ?_⟩
    rcases List.mem_iff_getElem.mp listed with ⟨slot, bound, rfl⟩
    refine position_mono sorted (Nat.le_of_not_lt fun early => ?_) bound
    rw [← reaches_iff bound, first.before slot early] at reached
    cases reached
  · have chosen : (if ring.length ≤ index then 0 else index) = 0 := if_pos beyond
    simp only [chosen]
    refine Or.inr ⟨fun other listed => ?_, fun other listed => ?_⟩
    · rcases List.mem_iff_getElem.mp listed with ⟨slot, bound, rfl⟩
      refine lt_of_not_ge fun reached => ?_
      rw [← reaches_iff bound, first.before slot (by omega)] at reached
      cases reached
    · rcases List.mem_iff_getElem.mp listed with ⟨slot, bound, rfl⟩
      exact position_mono sorted (Nat.zero_le _) bound

end Lists
end Clockwise
end KVStore
