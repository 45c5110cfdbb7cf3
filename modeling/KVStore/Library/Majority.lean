import Mathlib.Data.List.Nodup
import Mathlib.Data.List.Perm.Basic

namespace KVStore
namespace Majority

/-!
# Majorities

A part of a list of members is a majority when it has more than half of them.
Two majorities of the same members share one.
-/

variable {α : Type}

/-- More than half of the members are chosen. -/
def HasMajority (members : List α) (chosen : α -> Prop) [DecidablePred chosen] : Prop :=
  members.length < 2 * members.countP fun member => decide (chosen member)

instance (members : List α) (chosen : α -> Prop) [DecidablePred chosen] :
    Decidable (HasMajority members chosen) :=
  inferInstanceAs (Decidable (_ < _))

variable {members peers : List α} {chosen other : α -> Prop} [DecidablePred chosen]
    [DecidablePred other]

theorem HasMajority.mono (majority : HasMajority members chosen)
    (more : forall member, member ∈ members -> chosen member -> other member) :
    HasMajority members other := by
  have count := List.countP_mono_left (p := fun member => decide (chosen member))
    (q := fun member => decide (other member)) (l := members)
    (fun member inside isChosen => decide_eq_true (more member inside (of_decide_eq_true isChosen)))
  rw [HasMajority] at majority ⊢
  omega

/-- Disjoint parts have together at most as many members as the whole. -/
theorem countP_add_le
    (apart : forall member, member ∈ members -> ¬ (chosen member ∧ other member)) :
    members.countP (fun member => decide (chosen member)) + members.countP
      (fun member => decide (other member)) ≤ members.length := by
  induction members with
  | nil => exact Nat.le_refl _
  | cons member members ih =>
      have rest := ih fun later inside => apart later (List.mem_cons_of_mem _ inside)
      have here := apart member List.mem_cons_self
      simp only [List.countP_cons, List.length_cons]
      by_cases isChosen : chosen member
      · have notOther : ¬ other member := fun isOther => here ⟨isChosen, isOther⟩
        simp only [isChosen, notOther, decide_true, decide_false, if_true,
          Bool.false_eq_true, if_false]
        omega
      · simp only [isChosen, decide_false, Bool.false_eq_true, if_false]
        split <;> omega

theorem HasMajority.meet (first : HasMajority members chosen) (second : HasMajority members other) :
    Exists fun member => member ∈ members ∧ chosen member ∧ other member := by
  by_contra none
  have bound : members.countP (fun member => decide (chosen member)) +
      members.countP (fun member => decide (other member)) ≤ members.length :=
    countP_add_le fun member inside both => none ⟨member, inside, both⟩
  rw [HasMajority] at first second
  omega

/-- One member and enough of its peers. -/
theorem hasMajority_of_peers {member : α} (whole : members.Perm (member :: peers))
    (own : chosen member) (counted : α -> Bool)
    (others : forall peer, peer ∈ peers -> counted peer = true -> chosen peer)
    (enough : peers.length / 2 + 1 < 1 + peers.countP counted) : HasMajority members chosen := by
  have count := List.countP_mono_left (p := counted)
    (q := fun peer => decide (chosen peer)) (l := peers)
    (fun peer inside isCounted => decide_eq_true (others peer inside isCounted))
  rw [HasMajority, whole.length_eq, whole.countP_eq, List.countP_cons, decide_eq_true own, if_pos rfl,
    List.length_cons]
  omega

/-- A majority of an even number of members contains, besides one member, enough
of its peers. -/
theorem HasMajority.enough {member : α} (majority : HasMajority members chosen)
    (whole : members.Perm (member :: peers)) (even : members.length % 2 = 0) (counted : α -> Bool)
    (others : forall peer, peer ∈ peers -> chosen peer -> counted peer = true) :
    peers.length / 2 + 1 < 1 + peers.countP counted := by
  have count := List.countP_mono_left (p := fun peer => decide (chosen peer))
    (q := counted) (l := peers)
    (fun peer inside isChosen => others peer inside (of_decide_eq_true isChosen))
  rw [whole.length_eq, List.length_cons] at even
  rw [HasMajority, whole.length_eq, whole.countP_eq, List.countP_cons, List.length_cons] at majority
  split at majority <;> omega

/-- One more of distinct members. -/
theorem countP_update [DecidableEq α] {member : α} (distinct : members.Nodup)
    (inside : member ∈ members) (counted more : α -> Bool) (before : counted member = false)
    (now : more member = true) (same : forall other, other ≠ member -> more other = counted other) :
    members.countP more = members.countP counted + 1 := by
  have split := List.perm_cons_erase inside
  have rest : (members.erase member).countP more = (members.erase member).countP counted := by
    apply List.countP_congr
    intro other later
    rw [same other (fun isMember => distinct.not_mem_erase (isMember ▸ later))]
  rw [split.countP_eq, split.countP_eq, List.countP_cons, List.countP_cons, rest, now, before,
    if_pos rfl, if_neg]
  · exact Bool.false_ne_true

end Majority
end KVStore
