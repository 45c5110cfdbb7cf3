import Mathlib.Data.List.Nodup
import Mathlib.Data.List.Perm.Basic
import Mathlib.Algebra.BigOperators.Group.List.Basic
import Mathlib.Algebra.GroupWithZero.Nat

namespace KVStore
namespace Keyed

/-!
# Lists with distinct keys

A container that stores its elements in some order, each under its own key, is
read as a finite map: only the elements count, not their order.  `find` is that
map.  The rules here carry it through a rearrangement, an insertion and a
removal, and compare the total weight of two containers through their maps.
-/

variable {α κ : Type}

section Find

variable [DecidableEq κ] (key : α -> κ)

/-- The element stored under a key. -/
def find (wanted : κ) (elements : List α) : Option α :=
  elements.find? fun element => key element = wanted

variable {key} {elements others : List α} {wanted : κ}

theorem mem_of_find {element : α} (found : find key wanted elements = some element) :
    element ∈ elements ∧ key element = wanted := by
  refine ⟨List.mem_of_find?_eq_some found, ?_⟩
  simpa using List.find?_some found

theorem find_eq_none_iff : find key wanted elements = none <-> wanted ∉ elements.map key := by
  simp only [find, List.find?_eq_none, decide_eq_true_eq, List.mem_map, not_exists, not_and]

theorem find_eq_some_iff (distinct : (elements.map key).Nodup) {element : α} :
    find key wanted elements = some element <-> element ∈ elements ∧ key element = wanted := by
  constructor
  · exact mem_of_find
  · rintro ⟨member, rfl⟩
    cases found : find key (key element) elements with
    | none => exact absurd (List.mem_map_of_mem member) (find_eq_none_iff.mp found)
    | some other =>
        rcases mem_of_find found with ⟨otherMember, sameKey⟩
        rw [List.inj_on_of_nodup_map distinct otherMember member sameKey]

/-- The map does not depend on the order of the elements. -/
theorem find_perm (distinct : (elements.map key).Nodup) (rearranged : elements.Perm others) :
    find key wanted elements = find key wanted others := by
  have othersDistinct : (others.map key).Nodup := (rearranged.map key).nodup_iff.mp distinct
  apply Option.ext
  intro element
  rw [find_eq_some_iff distinct, find_eq_some_iff othersDistinct, rearranged.mem_iff]

@[simp] theorem find_cons_self (element : α) :
    find key (key element) (element :: elements) = some element := by
  simp only [find, List.find?_cons, decide_true]

theorem find_cons_of_ne {element : α} (different : key element ≠ wanted) :
    find key wanted (element :: elements) = find key wanted elements := by
  simp only [find, List.find?_cons, decide_eq_false different]

/-- The map of a container in which one element is singled out. -/
theorem find_of_perm_cons {element : α} (distinct : (elements.map key).Nodup)
    (split : elements.Perm (element :: others)) :
    find key wanted elements = if key element = wanted then some element
        else find key wanted others := by
  rw [find_perm distinct split]
  split
  · rename_i same
    rw [← same, find_cons_self]
  · rename_i different
    exact find_cons_of_ne different

end Find

variable {key : α -> κ} {elements others : List α}

/-- A key that is erased from a map, and then several others. -/
theorem ite_mem_cons {β : Type} {first other : κ} {keys : List κ} (value : Option β)
    [Decidable (other ∈ keys)] [Decidable (first = other)] [Decidable (other ∈ first :: keys)] :
    (if other ∈ keys then none else if first = other then none else value) =
      if other ∈ first :: keys then none else value := by
  by_cases later : other ∈ keys
  · rw [if_pos later, if_pos (List.mem_cons_of_mem _ later)]
  · by_cases same : first = other
    · rw [if_neg later, if_pos same, if_pos (same ▸ List.mem_cons_self)]
    · rw [if_neg later, if_neg same, if_neg]
      intro member
      rcases List.mem_cons.mp member with isFirst | rest
      · exact same isFirst.symm
      · exact later rest

/-- A container in which one element is singled out. -/
theorem distinct_of_perm_cons {element : α} (distinct : (elements.map key).Nodup)
    (split : elements.Perm (element :: others)) :
    key element ∉ others.map key ∧ (others.map key).Nodup :=
  List.nodup_cons.mp ((split.map key).nodup_iff.mp distinct)

/-! ## Weights -/

/-- The sum of the weights of the elements. -/
def total (weight : α -> Nat) (elements : List α) : Nat := (elements.map weight).sum

variable {weight : α -> Nat}

@[simp] theorem total_nil : total weight [] = 0 := rfl

@[simp] theorem total_cons (element : α) :
    total weight (element :: elements) = weight element + total weight elements :=
  List.sum_cons

theorem total_append (first second : List α) :
    total weight (first ++ second) = total weight first + total weight second := by
  rw [total, List.map_append, List.sum_append]
  rfl

theorem total_perm (rearranged : elements.Perm others) :
    total weight elements = total weight others :=
  (rearranged.map weight).sum_eq

/-- A container whose map lies below the map of another weighs no more. -/
theorem total_le_total (distinct : (elements.map key).Nodup)
    (below : forall element, element ∈ elements -> Exists fun other => other ∈ others ∧
      key other = key element ∧ weight element ≤ weight other) :
    total weight elements ≤ total weight others := by
  induction elements generalizing others with
  | nil => exact Nat.zero_le _
  | cons element elements ih =>
      rw [List.map_cons, List.nodup_cons] at distinct
      rcases below element List.mem_cons_self with ⟨other, member, sameKey, lighter⟩
      rcases List.append_of_mem member with ⟨front, back, rfl⟩
      have rest : total weight elements ≤ total weight (front ++ back) := by
        apply ih distinct.2
        intro later laterMember
        rcases below later (List.mem_cons_of_mem _ laterMember) with
          ⟨image, imageMember, imageKey, imageLighter⟩
        refine ⟨image, ?_, imageKey, imageLighter⟩
        rcases List.mem_cons.mp (List.perm_middle.mem_iff.mp imageMember) with rfl | inRest
        · rw [← sameKey, imageKey] at distinct
          exact absurd (List.mem_map_of_mem laterMember) distinct.1
        · exact inRest
      rw [total_cons, total_perm List.perm_middle, total_cons]
      exact Nat.add_le_add lighter rest

/-! ## Buckets -/

/-- The elements of all buckets but one. -/
def outside (buckets : List (List α)) (index : Nat) : List α := (buckets.eraseIdx index).flatten

theorem flatten_perm {buckets : List (List α)} {index : Nat} (inRange : index < buckets.length) :
    buckets.flatten.Perm (buckets.getD index [] ++ outside buckets index) := by
  induction buckets generalizing index with
  | nil => cases inRange
  | cons bucket buckets ih =>
      cases index with
      | zero => exact List.Perm.refl _
      | succ index =>
          have inner := ih (Nat.lt_of_succ_lt_succ inRange)
          simp only [List.flatten_cons, List.getD_cons_succ, outside,
            List.eraseIdx_cons_succ] at inner ⊢
          refine (inner.append_left bucket).trans ?_
          rw [← List.append_assoc, ← List.append_assoc]
          exact List.perm_append_comm.append_right _

theorem flatten_set_perm {buckets : List (List α)} {index : Nat} (inRange : index < buckets.length)
    (bucket : List α) :
    (buckets.set index bucket).flatten.Perm (bucket ++ outside buckets index) := by
  have perm : (buckets.set index bucket).flatten.Perm
      ((buckets.set index bucket).getD index [] ++ outside (buckets.set index bucket) index) :=
    flatten_perm (by rw [List.length_set]; exact inRange)
  simpa [outside, List.getD_eq_getElem?_getD, inRange, List.eraseIdx_set_eq] using perm

end Keyed
end KVStore
