import Mathlib.Data.List.Induction

namespace KVStore
namespace Bindings

/-!
# Maps under binding and deletion

A call on a map deletes some of its keys and may then bind one key.  The map
after a series of such changes holds, for each key, the value of the latest
change that bound the key, unless the key was deleted since.
-/

variable {Key Value : Type}

/-- What a call does to a map:  it deletes keys, and then it may bind one. -/
structure Change (Key Value : Type) where
  deletes : Key -> Bool
  binds : Option (Key × Value)

namespace Change

/-- A call that only reads. -/
def keep : Change Key Value := ⟨fun _ => false, none⟩

def apply [DecidableEq Key] (change : Change Key Value) (m : Key -> Option Value) (key : Key) :
    Option Value :=
  match change.binds with
  | some (bound, value) =>
      if bound = key then some value else if change.deletes key then none else m key
  | none => if change.deletes key then none else m key

/-- The change neither binds nor deletes the key. -/
def Spares (change : Change Key Value) (key : Key) : Prop :=
  change.deletes key = false ∧ forall value, change.binds ≠ some (key, value)

theorem apply_eq_some_iff [DecidableEq Key] {change : Change Key Value} {m : Key -> Option Value}
    {key : Key} {value : Value} :
    change.apply m key = some value <->
      change.binds = some (key, value) ∨ change.Spares key ∧ m key = some value := by
  rcases change with ⟨deletes, binds⟩
  simp only [apply, Spares]
  cases binds with
  | none => simp
  | some binding =>
      rcases binding with ⟨bound, new⟩
      by_cases same : bound = key
      · simp [same]
      · simp [same]

/-- What a change leaves of a key depends on that key only. -/
theorem apply_congr [DecidableEq Key] (change : Change Key Value) {m other : Key -> Option Value}
    {key : Key} (same : m key = other key) : change.apply m key = change.apply other key := by
  simp only [apply, same]

end Change

/-- The map after some changes of an empty one. -/
def after [DecidableEq Key] (changes : List (Change Key Value)) : Key -> Option Value :=
  changes.foldl (fun m change => change.apply m) fun _ => none

/-- The latest change that binds the key binds it to the value, and no later
one deletes the key. -/
def Latest (changes : List (Change Key Value)) (key : Key) (value : Value) : Prop :=
  Exists fun earlier => Exists fun change => Exists fun later =>
    changes = earlier ++ change :: later ∧ change.binds = some (key, value) ∧
      forall other, other ∈ later -> other.Spares key

theorem after_snoc [DecidableEq Key] (changes : List (Change Key Value))
    (change : Change Key Value) :
    after (changes ++ [change]) = change.apply (after changes) := by
  rw [after, List.foldl_append]
  rfl

/-- An element of a list with one more element is that last one, or one of the
list before. -/
theorem snoc_eq_split {Element : Type*} {front earlier later : List Element}
    {last element : Element} (split : front ++ [last] = earlier ++ element :: later) :
    (front = earlier ∧ last = element ∧ later = []) ∨
      Exists fun between => later = between ++ [last] ∧ front = earlier ++ element :: between := by
  rcases List.eq_nil_or_concat later with rfl | ⟨between, final, rfl⟩
  · rcases List.append_inj' split rfl with ⟨same, final⟩
    exact Or.inl ⟨same, List.head_eq_of_cons_eq final, rfl⟩
  · rw [List.concat_eq_append, ← List.cons_append, ← List.append_assoc] at split
    rcases List.append_inj' split rfl with ⟨same, final⟩
    cases final
    exact Or.inr ⟨between, List.concat_eq_append, same⟩

theorem latest_snoc {changes : List (Change Key Value)} {change : Change Key Value} {key : Key}
    {value : Value} :
    Latest (changes ++ [change]) key value <->
      change.binds = some (key, value) ∨ change.Spares key ∧ Latest changes key value := by
  constructor
  · rintro ⟨earlier, binding, later, split, binds, spares⟩
    -- The binding change is the last one, or the last one is among those behind it.
    rcases snoc_eq_split split with ⟨_, rfl, _⟩ | ⟨between, rfl, rfl⟩
    · exact Or.inl binds
    · refine Or.inr ⟨spares _ ?_, earlier, binding, between, rfl, binds,
        fun other member => spares other ?_⟩
      · exact List.mem_append_right _ List.mem_cons_self
      · exact List.mem_append_left _ member
  · rintro (binds | ⟨spared, earlier, binding, later, rfl, binds, spares⟩)
    · exact ⟨changes, change, [], rfl, binds, List.forall_mem_nil _⟩
    · refine ⟨earlier, binding, later ++ [change], ?_, binds, fun other member => ?_⟩
      · rw [List.append_assoc, List.cons_append]
      · rcases List.mem_append.mp member with old | new
        · exact spares other old
        · exact List.mem_singleton.mp new ▸ spared

/-- The map holds what the latest changes of its keys left. -/
theorem after_eq_some_iff [DecidableEq Key] {changes : List (Change Key Value)} {key : Key}
    {value : Value} :
    after changes key = some value <-> Latest changes key value := by
  induction changes using List.reverseRecOn with
  | nil =>
      refine iff_of_false (fun held => nomatch held) ?_
      rintro ⟨earlier, change, later, split, _⟩
      exact List.append_ne_nil_of_right_ne_nil _ (List.cons_ne_nil _ _) split.symm
  | append_singleton changes change ih =>
      rw [after_snoc, Change.apply_eq_some_iff, latest_snoc, ih]

end Bindings
end KVStore
