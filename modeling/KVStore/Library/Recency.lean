import Mathlib.Data.List.Basic

namespace KVStore
namespace Recency

/-!
# Keys in the order of their last touches

A history says of each call which key it touched, if it touched one.  A list of
keys is in the order of the last touches, the latest first, and stays so when keys
are taken out of it, when a call touches nothing, and when the touched key is put
in front.
-/

variable {Key : Type}

/-- The call with the given index is the last one that touched the key. -/
def LastTouch (history : List (Option Key)) (key : Key) (index : Nat) : Prop :=
  history[index]? = some (some key) ∧ forall later, index < later -> history[later]? ≠ some (some key)

/-- The last touch of a key is the call just made, or the one that it was before. -/
theorem lastTouch_snoc {history : List (Option Key)} {touch : Option Key} {key : Key}
    {index : Nat} :
    LastTouch (history ++ [touch]) key index <->
      touch = some key ∧ index = history.length ∨ touch ≠ some key ∧ LastTouch history key index := by
  have before : forall {index}, index < history.length ->
      (history ++ [touch])[index]? = history[index]? :=
    fun inside => List.getElem?_append_left inside
  have now : (history ++ [touch])[history.length]? = some touch := by simp
  have after : forall {index}, history.length < index -> (history ++ [touch])[index]? = none := by
    intro index beyond
    simp only [List.getElem?_eq_none_iff, List.length_append, List.length_singleton]
    omega
  constructor
  · rintro ⟨here, last⟩
    rcases Nat.lt_trichotomy index history.length with inside | rfl | beyond
    · have other : touch ≠ some key := by
        intro same
        exact last history.length inside (by rw [now, same])
      refine Or.inr ⟨other, by rwa [before inside] at here, fun later above found => ?_⟩
      have inHistory : later < history.length := (List.getElem?_eq_some_iff.mp found).1
      exact last later above (by rwa [before inHistory])
    · rw [now] at here
      exact Or.inl ⟨Option.some.inj here, rfl⟩
    · rw [after beyond] at here
      cases here
  · rintro (⟨same, rfl⟩ | ⟨other, here, last⟩)
    · refine ⟨by rw [now, same], fun later above found => ?_⟩
      rw [after above] at found
      cases found
    · have inside : index < history.length := (List.getElem?_eq_some_iff.mp here).1
      refine ⟨by rwa [before inside], fun later above found => ?_⟩
      rcases Nat.lt_trichotomy later history.length with inHistory | rfl | beyond
      · rw [before inHistory] at found
        exact last later above found
      · rw [now] at found
        exact other (Option.some.inj found)
      · rw [after beyond] at found
        cases found

/-- The keys are in the order of their last touches, the latest first. -/
structure InOrder (history : List (Option Key)) (keys : List Key) : Prop where
  touched : forall key, key ∈ keys -> Exists fun index => LastTouch history key index
  order : keys.Pairwise fun newer older => forall first second,
    LastTouch history newer first -> LastTouch history older second -> second < first

namespace InOrder

variable {history : List (Option Key)} {keys : List Key}

theorem nil (history : List (Option Key)) : InOrder history [] :=
  ⟨List.forall_mem_nil _, List.Pairwise.nil⟩

theorem sublist (inOrder : InOrder history keys) {fewer : List Key} (sub : fewer.Sublist keys) :
    InOrder history fewer :=
  ⟨fun key member => inOrder.touched key (sub.subset member), inOrder.order.sublist sub⟩

/-- A call that touches none of the keys keeps their order. -/
theorem spare (inOrder : InOrder history keys) {touch : Option Key}
    (spared : forall key, key ∈ keys -> touch ≠ some key) :
    InOrder (history ++ [touch]) keys := by
  have same : forall key, key ∈ keys -> forall index, LastTouch (history ++ [touch]) key index <->
      LastTouch history key index := by
    intro key member index
    simp [lastTouch_snoc, spared key member]
  constructor
  · intro key member
    rcases inOrder.touched key member with ⟨index, last⟩
    exact ⟨index, (same key member index).mpr last⟩
  · refine inOrder.order.imp_of_mem
      fun {newer older} inFront behind before first second touchedNewer touchedOlder => ?_
    exact before first second ((same newer inFront first).mp touchedNewer)
      ((same older behind second).mp touchedOlder)

/-- The touched key goes to the front. -/
theorem touch (inOrder : InOrder history keys) {key : Key} (absent : key ∉ keys) :
    InOrder (history ++ [some key]) (key :: keys) := by
  have different : forall other, other ∈ keys -> some key ≠ some other :=
    fun other member same => absent (Option.some.inj same ▸ member)
  have others := inOrder.spare different
  constructor
  · refine List.forall_mem_cons.mpr ⟨⟨history.length, lastTouch_snoc.mpr (Or.inl ⟨rfl, rfl⟩)⟩,
      others.touched⟩
  · refine List.pairwise_cons.mpr
      ⟨fun other member first second touchedFirst touchedSecond => ?_, others.order⟩
    -- The key was touched by the last call, the others before it.
    rcases lastTouch_snoc.mp touchedFirst with ⟨_, rfl⟩ | ⟨untouched, _⟩
    · rcases lastTouch_snoc.mp touchedSecond with ⟨same, _⟩ | ⟨_, before⟩
      · exact absurd same (different other member)
      · exact (List.getElem?_eq_some_iff.mp before.1).1
    · exact absurd rfl untouched

/-- The last key is the one with the oldest last touch. -/
theorem oldest (inOrder : InOrder history keys) {last : Key} (isLast : keys.getLast? = some last) :
    Exists fun index => LastTouch history last index ∧
      forall other, other ∈ keys -> other ≠ last ->
          Exists fun later => LastTouch history other later ∧ index < later := by
  rcases List.getLast?_eq_some_iff.mp isLast with ⟨front, rfl⟩
  rcases inOrder.touched last (List.mem_append_right _ List.mem_cons_self) with ⟨index, touched⟩
  refine ⟨index, touched, fun other member different => ?_⟩
  rcases inOrder.touched other member with ⟨later, otherTouched⟩
  rcases List.mem_append.mp member with inFront | atEnd
  · have before := (List.pairwise_append.mp inOrder.order).2.2 other inFront last List.mem_cons_self
    exact ⟨later, otherTouched, before later index otherTouched touched⟩
  · exact absurd (List.mem_singleton.mp atEnd) different

end InOrder
end Recency
end KVStore
