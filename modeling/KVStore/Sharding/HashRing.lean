import KVStore.Library.Clockwise
import KVStore.Library.Decimal
import Mathlib.Data.List.Sort
import Mathlib.Data.List.Nodup

namespace KVStore
namespace Sharding

open Decimal
open Clockwise

/-!
# The consistent hash ring

`node/sharding/hash_ring.go`.  Every shard puts the same number of virtual
nodes on a ring, at the hashes of their labels, and a key goes to the shard of
the first virtual node at or after the hash of the key.

The hash function is left open, and so is the order in which `sort.Slice`
leaves virtual nodes of equal hash.  A number of virtual nodes is a natural
number here:  with a negative one and a shard the `make` of `NewHashRing` panics.
-/

/-! ## The ring of the source -/

/-- `ShardID`. -/
abbrev ShardID := Int

/-- `VirtualNode`. -/
structure VirtualNode where
  hash : UInt64
  shardID : ShardID
deriving DecidableEq, Repr

/-- Where a virtual node sits on the circle of the 64-bit hashes. -/
def VirtualNode.position (vn : VirtualNode) : Nat := vn.hash.toNat

/-- The hash function, and `sort.Slice` on the virtual nodes by their hashes. -/
structure Platform where
  hash : Bytes -> UInt64
  sortSlice : List VirtualNode -> List VirtualNode
  perm : forall ring, (sortSlice ring).Perm ring
  sorted : forall ring, (sortSlice ring).Pairwise fun a b => a.position ≤ b.position

/-- `hash`:  FNV-1a, then the mixing steps. -/
def hashKey (key : Bytes) : UInt64 :=
  let hash := key.foldl (fun hash c => (hash ^^^ c.toUInt64) * 0x100000001b3) 0xcbf29ce484222325
  let hash := hash ^^^ (hash >>> 33)
  let hash := hash * 0xff51afd7ed558ccd
  let hash := hash ^^^ (hash >>> 33)
  let hash := hash * 0xc4ceb9fe1a85ec53
  hash ^^^ (hash >>> 33)

/-- The hash function of the source, with a sort that inserts one virtual node after the other. -/
def Platform.source : Platform where
  hash := hashKey
  sortSlice := List.insertionSort fun a b => a.position ≤ b.position
  perm := List.perm_insertionSort _
  sorted := List.pairwise_insertionSort _

/-- The label of a virtual node, `shard%d_vnode%d`. -/
def vnodeKey (shardID : ShardID) (i : Nat) : Bytes :=
  "shard".toUTF8.toList ++ showInt shardID ++ "_vnode".toUTF8.toList ++ showNat i

def vnode (P : Platform) (shardID : ShardID) (i : Nat) : VirtualNode :=
  ⟨P.hash (vnodeKey shardID i), shardID⟩

/-- The virtual nodes of one shard, in the order in which they are made. -/
def vnodes (P : Platform) (virtualNodes : Nat) (shardID : ShardID) : List VirtualNode :=
  (List.range virtualNodes).map (vnode P shardID)

/-- `HashRing`, without its lock. -/
structure HashRing (P : Platform) where
  shards : List ShardID
  virtualNodes : Nat
  ring : List VirtualNode

variable {P : Platform}

namespace HashRing

/-- `addShardToRing`. -/
def addShardToRing (hr : HashRing P) (shardID : ShardID) : HashRing P :=
  { hr with ring := hr.ring ++ vnodes P hr.virtualNodes shardID }

def sortRing (hr : HashRing P) : HashRing P := { hr with ring := P.sortSlice hr.ring }

/-- `NewHashRing`. -/
def newHashRing (P : Platform) (shards : List ShardID) (virtualNodes : Nat) : HashRing P :=
  (shards.foldl addShardToRing
    { shards := shards, virtualNodes := virtualNodes, ring := [] }).sortRing

/-- `GetShard`. -/
def getShard (hr : HashRing P) (key : Bytes) : ShardID :=
  if hr.ring.length = 0 then 0
  else
    let keyHash := P.hash key
    let idx := search hr.ring.length (reaches VirtualNode.position hr.ring keyHash.toNat)
    let idx := if hr.ring.length ≤ idx then 0 else idx
    match hr.ring[idx]? with
    | some vn => vn.shardID
    | none => 0

/-- `AddShard`. -/
def addShard (hr : HashRing P) (shardID : ShardID) : HashRing P :=
  if shardID ∈ hr.shards then hr
  else (addShardToRing { hr with shards := hr.shards ++ [shardID] } shardID).sortRing

/-- `RemoveShard`. -/
def removeShard (hr : HashRing P) (shardID : ShardID) : HashRing P :=
  { hr with
    shards := hr.shards.erase shardID
    ring := hr.ring.filter fun vn => vn.shardID != shardID }

end HashRing

/-- A call that changes the ring. -/
inductive RingCall
  | addShard (shardID : ShardID)
  | removeShard (shardID : ShardID)
deriving DecidableEq, Repr

namespace HashRing

def call (hr : HashRing P) : RingCall -> HashRing P
  | RingCall.addShard shardID => hr.addShard shardID
  | RingCall.removeShard shardID => hr.removeShard shardID

def calls (hr : HashRing P) (history : List RingCall) : HashRing P := history.foldl call hr

/-! ## The virtual nodes on the ring -/

/-- The ring holds the virtual nodes of its shards and no others, sorted. -/
structure WF (hr : HashRing P) : Prop where
  distinct : hr.shards.Nodup
  perm : hr.ring.Perm (hr.shards.flatMap (vnodes P hr.virtualNodes))
  sorted : hr.ring.Pairwise fun a b => a.position ≤ b.position

variable {vn : VirtualNode} {shardID : ShardID}

theorem mem_vnodes {virtualNodes : Nat} :
    vn ∈ vnodes P virtualNodes shardID <-> Exists fun i => i < virtualNodes ∧
        vnode P shardID i = vn := by
  simp only [vnodes, List.mem_map, List.mem_range]

theorem foldl_addShardToRing (shards : List ShardID) (hr : HashRing P) :
    shards.foldl addShardToRing hr =
        { hr with ring := hr.ring ++ shards.flatMap (vnodes P hr.virtualNodes) } := by
  induction shards generalizing hr with
  | nil => rw [List.foldl_nil, List.flatMap_nil, List.append_nil]
  | cons shardID rest ih =>
      rw [List.foldl_cons, ih, List.flatMap_cons, addShardToRing, List.append_assoc]

theorem wf_newHashRing {shards : List ShardID} (distinct : shards.Nodup) (virtualNodes : Nat) :
    (newHashRing P shards virtualNodes).WF := by
  rw [newHashRing, foldl_addShardToRing, List.nil_append]
  exact ⟨distinct, P.perm _, P.sorted _⟩

variable {hr : HashRing P}

theorem WF.addShard (wf : hr.WF) (shardID : ShardID) : (hr.addShard shardID).WF := by
  rw [HashRing.addShard]
  split
  next => exact wf
  next fresh =>
    refine ⟨?_, (P.perm _).trans ?_, P.sorted _⟩
    · exact List.nodup_append_comm.mp (List.nodup_cons.mpr ⟨fresh, wf.distinct⟩)
    · change (hr.ring ++ vnodes P hr.virtualNodes shardID).Perm _
      simp only [addShardToRing, sortRing, List.flatMap_append, List.flatMap_cons, List.flatMap_nil,
        List.append_nil]
      exact wf.perm.append_right _

/-- Filtering leaves the virtual nodes of the shards that stay. -/
theorem filter_flatMap_vnodes (virtualNodes : Nat) (shardID : ShardID) (shards : List ShardID) :
    (shards.flatMap (vnodes P virtualNodes)).filter (fun vn => vn.shardID != shardID) =
      (shards.filter fun other => other != shardID).flatMap (vnodes P virtualNodes) := by
  have kept : forall other, (vnodes P virtualNodes other).filter (fun vn => vn.shardID != shardID) =
      if other != shardID then vnodes P virtualNodes other else [] := by
    intro other
    rw [vnodes, List.filter_map]
    change List.map _ (List.filter (fun _ => other != shardID) _) = _
    cases other != shardID with
    | true => rw [List.filter_true, if_pos rfl]
    | false => rw [List.filter_false, List.map_nil, if_neg Bool.false_ne_true]
  induction shards with
  | nil => rfl
  | cons other rest ih =>
      rw [List.flatMap_cons, List.filter_append, ih, kept, List.filter_cons]
      split
      · rw [List.flatMap_cons]
      · rw [List.nil_append]

theorem WF.removeShard (wf : hr.WF) (shardID : ShardID) : (hr.removeShard shardID).WF := by
  refine ⟨wf.distinct.erase _, ?_, wf.sorted.filter _⟩
  change (hr.ring.filter _).Perm ((hr.shards.erase shardID).flatMap (vnodes P hr.virtualNodes))
  rw [wf.distinct.erase_eq_filter, ← filter_flatMap_vnodes]
  exact wf.perm.filter _

theorem WF.call (wf : hr.WF) (change : RingCall) : (hr.call change).WF := by
  cases change with
  | addShard shardID => exact wf.addShard shardID
  | removeShard shardID => exact wf.removeShard shardID

theorem WF.calls (wf : hr.WF) (history : List RingCall) : (hr.calls history).WF := by
  induction history generalizing hr with
  | nil => exact wf
  | cons change rest ih => exact ih (wf.call change)

@[simp]
theorem virtualNodes_addShard (hr : HashRing P) (shardID : ShardID) :
    (hr.addShard shardID).virtualNodes = hr.virtualNodes := by
  rw [addShard]
  split
  · rfl
  · rfl

@[simp]
theorem virtualNodes_calls (hr : HashRing P) (history : List RingCall) :
    (hr.calls history).virtualNodes = hr.virtualNodes := by
  induction history generalizing hr with
  | nil => rfl
  | cons change rest ih =>
      have first : (hr.call change).virtualNodes = hr.virtualNodes := by
        cases change with
        | addShard shardID => exact virtualNodes_addShard hr shardID
        | removeShard shardID => rfl
      exact (ih (hr.call change)).trans first

@[simp]
theorem virtualNodes_newHashRing (shards : List ShardID) (virtualNodes : Nat) :
    (newHashRing P shards virtualNodes).virtualNodes = virtualNodes := by
  rw [newHashRing, foldl_addShardToRing]
  rfl

/-- The number of virtual nodes is that of the constructor. -/
theorem virtualNodes_reached (shards : List ShardID) (virtualNodes : Nat)
    (history : List RingCall) :
    ((newHashRing P shards virtualNodes).calls history).virtualNodes = virtualNodes := by
  rw [virtualNodes_calls, virtualNodes_newHashRing]

theorem WF.mem_ring (wf : hr.WF) :
    vn ∈ hr.ring <->
      Exists fun shardID => shardID ∈ hr.shards ∧ Exists fun i => i < hr.virtualNodes ∧
          vnode P shardID i = vn := by
  simp only [wf.perm.mem_iff, List.mem_flatMap, mem_vnodes]

/-! ## Routing -/

/-- No two labels of these shards have the same hash. -/
def NonColliding (P : Platform) (virtualNodes : Nat) (shards : List ShardID) : Prop :=
  forall s, s ∈ shards -> forall t, t ∈ shards -> forall i, i < virtualNodes ->
    forall j, j < virtualNodes ->
    P.hash (vnodeKey s i) = P.hash (vnodeKey t j) -> s = t ∧ i = j

instance (P : Platform) (virtualNodes : Nat) (shards : List ShardID) :
    Decidable (NonColliding P virtualNodes shards) :=
  inferInstanceAs (Decidable (forall s, s ∈ shards -> forall t, t ∈ shards ->
    forall i, i < virtualNodes -> forall j, j < virtualNodes ->
      P.hash (vnodeKey s i) = P.hash (vnodeKey t j) -> s = t ∧ i = j))

theorem NonColliding.subset {virtualNodes : Nat} {shards fewer : List ShardID}
    (clear : NonColliding P virtualNodes shards) (subset : fewer ⊆ shards) :
    NonColliding P virtualNodes fewer :=
  fun s sListed t tListed => clear s (subset sListed) t (subset tListed)

/-- The virtual node that owns the hash of a key, among those of the given shards. -/
def OwnsKey (P : Platform) (virtualNodes : Nat) (shards : List ShardID) (key : Bytes)
    (vn : VirtualNode) : Prop :=
  Owns VirtualNode.position {vn | vn ∈ shards.flatMap (vnodes P virtualNodes)} (P.hash key).toNat vn

theorem getShard_of_empty (empty : hr.ring = []) (key : Bytes) : hr.getShard key = 0 := by
  rw [getShard, empty, if_pos List.length_nil]

theorem WF.points (wf : hr.WF) :
    {vn | vn ∈ hr.ring} = {vn | vn ∈ hr.shards.flatMap (vnodes P hr.virtualNodes)} := by
  ext vn
  exact wf.perm.mem_iff

theorem WF.getShard_owner (wf : hr.WF) (nonempty : hr.ring ≠ []) (key : Bytes) :
    Exists fun vn => OwnsKey P hr.virtualNodes hr.shards key vn ∧ hr.getShard key = vn.shardID := by
  have positive : 0 < hr.ring.length := List.length_pos_iff.mpr nonempty
  have first : First hr.ring.length (reaches VirtualNode.position hr.ring (P.hash key).toNat) _ :=
    first_search_reaches wf.sorted
  simp only [getShard, if_neg (Nat.ne_of_gt positive)]
  generalize search hr.ring.length (reaches VirtualNode.position hr.ring (P.hash key).toNat) =
    index at first ⊢
  have inside : (if hr.ring.length ≤ index then 0 else index) < hr.ring.length := by
    split
    next => exact positive
    next present => exact Nat.lt_of_not_le present
  have stored := List.getElem?_eq_getElem inside
  refine ⟨_, wf.points ▸ owns_of_first wf.sorted first stored, ?_⟩
  rw [stored]

theorem WF.mem_shards_of_ownsKey (wf : hr.WF) {key : Bytes}
    (owns : OwnsKey P hr.virtualNodes hr.shards key vn) :
    vn ∈ hr.ring ∧ vn.shardID ∈ hr.shards := by
  have listed : vn ∈ hr.ring := wf.perm.mem_iff.mpr owns.member
  rcases wf.mem_ring.mp listed with ⟨shardID, member, i, _, rfl⟩
  exact ⟨listed, member⟩

/-- Without collisions the key goes to the one owner of its hash. -/
theorem WF.getShard_of_ownsKey (wf : hr.WF) (clear : NonColliding P hr.virtualNodes hr.shards)
    {key : Bytes} (owns : OwnsKey P hr.virtualNodes hr.shards key vn) :
    hr.getShard key = vn.shardID := by
  have listed := (wf.mem_shards_of_ownsKey owns).1
  rcases wf.getShard_owner (List.ne_nil_of_mem listed) key with ⟨owner, owned, routed⟩
  have same : owner.hash = vn.hash := UInt64.toNat_inj.mp (owned.position_eq owns)
  rcases wf.mem_ring.mp (wf.mem_shards_of_ownsKey owned).1 with ⟨s, sMember, i, iBound, rfl⟩
  rcases wf.mem_ring.mp listed with ⟨t, tMember, j, jBound, rfl⟩
  exact routed.trans (clear s sMember t tMember i iBound j jBound same).1

/-- Where a key goes when the owner of its hash is on another ring as well
and owns it among fewer virtual nodes there. -/
theorem WF.getShard_of_subset {hr fewer : HashRing P} (fewerWF : fewer.WF)
    (sameCount : fewer.virtualNodes = hr.virtualNodes)
    (clear : NonColliding P fewer.virtualNodes fewer.shards) (subset : fewer.shards ⊆ hr.shards)
    {key : Bytes} (owns : OwnsKey P hr.virtualNodes hr.shards key vn) (listed : vn ∈ fewer.ring) :
    fewer.getShard key = vn.shardID := by
  refine fewerWF.getShard_of_ownsKey clear (owns.of_subset ?_ (fewerWF.perm.mem_iff.mp listed))
  intro other member
  change other ∈ hr.shards.flatMap _
  rcases List.mem_flatMap.mp member with ⟨shardID, present, made⟩
  exact List.mem_flatMap.mpr ⟨shardID, subset present, sameCount ▸ made⟩

/-- Rings of the same shards route alike. -/
theorem WF.getShard_congr {hr other : HashRing P} (wf : hr.WF) (otherWF : other.WF)
    (sameCount : other.virtualNodes = hr.virtualNodes)
    (same : forall s, s ∈ other.shards <-> s ∈ hr.shards)
    (clear : NonColliding P hr.virtualNodes hr.shards) (key : Bytes) :
    other.getShard key = hr.getShard key := by
  have ring : forall vn, vn ∈ other.ring <-> vn ∈ hr.ring := by
    intro vn
    simp only [wf.mem_ring, otherWF.mem_ring, same, sameCount]
  by_cases empty : hr.ring = []
  · have otherEmpty : other.ring = [] := by
      refine List.eq_nil_iff_forall_not_mem.mpr fun vn member => ?_
      rw [ring, empty] at member
      exact List.not_mem_nil member
    rw [getShard_of_empty empty, getShard_of_empty otherEmpty]
  · rcases wf.getShard_owner empty key with ⟨vn, owns, routed⟩
    rw [routed]
    refine otherWF.getShard_of_subset sameCount ?_ (fun s => (same s).mp) owns ?_
    · rw [sameCount]
      exact clear.subset fun s => (same s).mp
    · exact (ring vn).mpr (wf.mem_shards_of_ownsKey owns).1

/-- The ring is a function of its set of shards:  whatever calls led to it, it
holds the virtual nodes of its shards, and each key goes to the shard of the
first virtual node at or after the hash of the key, with wrap-around. -/
theorem routes_by_shards (P : Platform) (shards : List ShardID) (distinct : shards.Nodup)
    (virtualNodes : Nat) (history : List RingCall) (key : Bytes)
    (clear : NonColliding P virtualNodes
      ((newHashRing P shards virtualNodes).calls history).shards) :
    let hr := (newHashRing P shards virtualNodes).calls history
    hr.ring.Perm (hr.shards.flatMap (vnodes P virtualNodes)) ∧
      (hr.ring ≠ [] ->
        hr.getShard key ∈ hr.shards ∧
          Exists fun vn => OwnsKey P virtualNodes hr.shards key vn ∧ hr.getShard key = vn.shardID) ∧
      forall otherShards otherHistory, otherShards.Nodup ->
        let other := (newHashRing P otherShards virtualNodes).calls otherHistory
        (forall s, s ∈ other.shards <-> s ∈ hr.shards) -> other.getShard key = hr.getShard key := by
  intro hr
  have wf : hr.WF := (wf_newHashRing distinct virtualNodes).calls history
  have count : hr.virtualNodes = virtualNodes := virtualNodes_reached shards virtualNodes history
  have noCollision : NonColliding P hr.virtualNodes hr.shards := by
    rw [count]
    exact clear
  rw [← count]
  refine ⟨wf.perm, fun nonempty => ?_, ?_⟩
  · rcases wf.getShard_owner nonempty key with ⟨vn, owns, routed⟩
    exact ⟨routed ▸ (wf.mem_shards_of_ownsKey owns).2, vn, owns, routed⟩
  · intro otherShards otherHistory otherDistinct other same
    exact wf.getShard_congr ((wf_newHashRing otherDistinct _).calls otherHistory)
      (virtualNodes_reached ..) same noCollision key

theorem routes_by_shards_twoHistories :
    NonColliding Platform.source 2 [1, 2] ∧
      ((newHashRing Platform.source [2] 2).calls [RingCall.addShard 1]).getShard [97] =
        ((newHashRing Platform.source [0, 1] 2).calls
            [RingCall.addShard 2, RingCall.removeShard 0]).getShard [97] := by
  have clear : NonColliding Platform.source 2
      ((newHashRing Platform.source [0, 1] 2).calls
          [RingCall.addShard 2, RingCall.removeShard 0]).shards := by
    decide +kernel
  refine ⟨clear, ?_⟩
  refine (routes_by_shards Platform.source [0, 1] (by decide) 2
    [RingCall.addShard 2, RingCall.removeShard 0] [97] clear).2.2 [2] [RingCall.addShard 1]
      (by decide) (fun s => ?_)
  exact (List.Perm.swap 1 2 []).mem_iff

/-! ## Moving keys -/

theorem mem_shards_addShard {shardID s : ShardID} :
    s ∈ (hr.addShard shardID).shards <-> s ∈ hr.shards ∨ s = shardID := by
  rw [addShard]
  split
  next present => exact ⟨Or.inl, fun either => either.elim id fun same => same ▸ present⟩
  next => exact List.mem_append.trans (or_congr_right List.mem_singleton)

theorem WF.mem_shards_removeShard (wf : hr.WF) {shardID s : ShardID} :
    s ∈ (hr.removeShard shardID).shards <-> s ≠ shardID ∧ s ∈ hr.shards :=
  wf.distinct.mem_erase_iff

/-- A new shard takes keys over and leaves the rest where they were. -/
theorem WF.getShard_addShard (wf : hr.WF) (shardID : ShardID)
    (clear : NonColliding P hr.virtualNodes (shardID :: hr.shards)) (key : Bytes) :
    (hr.addShard shardID).getShard key = shardID ∨ (hr.addShard shardID).getShard key =
      hr.getShard key := by
  have added := wf.addShard shardID
  have subset : hr.shards ⊆ (hr.addShard shardID).shards :=
    fun s member => mem_shards_addShard.mpr (Or.inl member)
  by_cases empty : (hr.addShard shardID).ring = []
  · have before : hr.ring = [] := by
      refine List.eq_nil_iff_forall_not_mem.mpr fun vn member => ?_
      rcases wf.mem_ring.mp member with ⟨s, present, i, bound, made⟩
      have kept : vn ∈ (hr.addShard shardID).ring :=
        added.mem_ring.mpr ⟨s, subset present, i, by rwa [virtualNodes_addShard], made⟩
      rw [empty] at kept
      exact List.not_mem_nil kept
    exact Or.inr ((getShard_of_empty empty key).trans (getShard_of_empty before key).symm)
  · rcases added.getShard_owner empty key with ⟨vn, owns, routed⟩
    rcases added.mem_ring.mp (added.mem_shards_of_ownsKey owns).1 with ⟨s, present, i, bound, rfl⟩
    rcases mem_shards_addShard.mp present with old | rfl
    · refine Or.inr (routed.trans (wf.getShard_of_subset ?_ ?_ subset owns ?_).symm)
      · rw [virtualNodes_addShard]
      · exact clear.subset (List.subset_cons_self _ _)
      · exact wf.mem_ring.mpr ⟨s, old, i, by rwa [virtualNodes_addShard] at bound, rfl⟩
    · exact Or.inl routed

/-- Adding a new shard and taking it away again restores the routing. -/
theorem WF.getShard_removeShard_addShard (wf : hr.WF)
    (clear : NonColliding P hr.virtualNodes hr.shards) (fresh : shardID ∉ hr.shards) (key : Bytes) :
    ((hr.addShard shardID).removeShard shardID).getShard key = hr.getShard key := by
  have added := wf.addShard shardID
  refine wf.getShard_congr (added.removeShard shardID) (virtualNodes_addShard hr shardID)
    (fun s => ?_) clear key
  rw [added.mem_shards_removeShard, mem_shards_addShard]
  constructor
  · rintro ⟨different, old | same⟩
    · exact old
    · exact absurd same different
  · intro old
    exact ⟨fun same => fresh (same ▸ old), Or.inl old⟩

theorem mem_ring_removeShard :
    vn ∈ (hr.removeShard shardID).ring <-> vn ∈ hr.ring ∧ vn.shardID ≠ shardID := by
  rw [removeShard, List.mem_filter, bne_iff_ne]

/-- Removing a shard moves the keys of that shard and no others. -/
theorem WF.getShard_removeShard (wf : hr.WF) (clear : NonColliding P hr.virtualNodes hr.shards)
    {key : Bytes} (elsewhere : hr.getShard key ≠ shardID) :
    (hr.removeShard shardID).getShard key = hr.getShard key := by
  have removed := wf.removeShard shardID
  have subset : (hr.removeShard shardID).shards ⊆ hr.shards := List.erase_subset
  by_cases empty : hr.ring = []
  · have after : (hr.removeShard shardID).ring = [] := by
      rw [HashRing.removeShard, empty, List.filter_nil]
    rw [getShard_of_empty empty, getShard_of_empty after]
  · rcases wf.getShard_owner empty key with ⟨vn, owns, routed⟩
    rw [routed]
    have same : (hr.removeShard shardID).virtualNodes = hr.virtualNodes := rfl
    refine removed.getShard_of_subset same (clear.subset subset) subset owns ?_
    exact mem_ring_removeShard.mpr ⟨(wf.mem_shards_of_ownsKey owns).1, routed ▸ elsewhere⟩

/-- As long as some shard is left on the ring, no key goes to a removed one. -/
theorem WF.getShard_removeShard_ne (wf : hr.WF) {shardID other : ShardID}
    (positive : 1 ≤ hr.virtualNodes) (left : other ∈ hr.shards) (different : other ≠ shardID)
    (key : Bytes) :
    (hr.removeShard shardID).getShard key ≠ shardID := by
  have removed := wf.removeShard shardID
  have listed : vnode P other 0 ∈ (hr.removeShard shardID).ring :=
    mem_ring_removeShard.mpr ⟨wf.mem_ring.mpr ⟨other, left, 0, positive, rfl⟩, different⟩
  rcases removed.getShard_owner (List.ne_nil_of_mem listed) key with ⟨vn, owns, routed⟩
  rw [routed]
  exact (mem_ring_removeShard.mp (removed.mem_shards_of_ownsKey owns).1).2

/-- Adding a shard moves keys to that shard only, and removing it again takes
them back.  Removing a shard moves its own keys only, and none of them stays
behind when the shards have virtual nodes at all. -/
theorem keys_move_minimally (P : Platform) (shards : List ShardID) (distinct : shards.Nodup)
    (virtualNodes : Nat) (history : List RingCall) (key : Bytes) (s : ShardID)
    (clear : NonColliding P virtualNodes
      (s :: ((newHashRing P shards virtualNodes).calls history).shards)) :
    let hr := (newHashRing P shards virtualNodes).calls history
    (s ∉ hr.shards ->
        ((hr.addShard s).getShard key = s ∨ (hr.addShard s).getShard key = hr.getShard key) ∧
          forall other, ((hr.addShard s).removeShard s).getShard other = hr.getShard other) ∧
      (s ∈ hr.shards -> (Exists fun t => t ∈ hr.shards ∧ t ≠ s) ->
        ((hr.removeShard s).getShard key ≠ hr.getShard key -> hr.getShard key = s) ∧
          (1 ≤ virtualNodes -> forall other, (hr.removeShard s).getShard other ≠ s)) := by
  intro hr
  have wf : hr.WF := (wf_newHashRing distinct virtualNodes).calls history
  have count : hr.virtualNodes = virtualNodes := virtualNodes_reached shards virtualNodes history
  have apart : NonColliding P hr.virtualNodes (s :: hr.shards) := by
    rw [count]
    exact clear
  have noCollision := apart.subset (List.subset_cons_self s hr.shards)
  refine ⟨fun fresh => ⟨wf.getShard_addShard s apart key, ?_⟩, ?_⟩
  · exact wf.getShard_removeShard_addShard noCollision fresh
  · rintro present ⟨t, left, different⟩
    refine ⟨fun moved => ?_, fun positive => ?_⟩
    · by_contra elsewhere
      exact moved (wf.getShard_removeShard noCollision elsewhere)
    · exact wf.getShard_removeShard_ne (count ▸ positive) left different

theorem keys_move_minimally_twoShards :
    ((newHashRing Platform.source [0, 1] 2).removeShard 0).getShard [97] ≠ 0 ∧
      (((newHashRing Platform.source [0, 1] 2).addShard 2).getShard [97] = 2 ∨
        ((newHashRing Platform.source [0, 1] 2).addShard 2).getShard [97] =
          (newHashRing Platform.source [0, 1] 2).getShard [97]) := by
  constructor
  · exact ((keys_move_minimally Platform.source [0, 1] (by decide) 2 [] [97] 0 (by decide +kernel)).2
      (by decide +kernel) ⟨1, by decide +kernel⟩).2 (by decide) [97]
  · exact ((keys_move_minimally Platform.source [0, 1] (by decide) 2 [] [97] 2 (by decide +kernel)).1
      (by decide +kernel)).1

/-- Without virtual nodes the ring stays empty, and `GetShard` answers zero
even after shard zero has been removed from the two shards there were. -/
theorem removed_shard_still_routed :
    NonColliding Platform.source 0 [0, 1] ∧
      (newHashRing Platform.source [0, 1] 0).shards = [0, 1] ∧
      ((newHashRing Platform.source [0, 1] 0).removeShard 0).shards = [1] ∧
      ((newHashRing Platform.source [0, 1] 0).removeShard 0).getShard [97] = 0 := by
  decide +kernel

end HashRing
end Sharding
end KVStore
