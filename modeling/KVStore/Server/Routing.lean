import KVStore.Server.Replicated
import KVStore.Sharding.HashRing
import KVStore.Sharding.LeaderTracking

namespace KVStore
namespace Server
namespace Sharded

open Raft Decimal Sharding

/-!
# Routing an operation

`Route` of `sharding/router.go` proposes an operation to the shard of its key, and
tries again when it fails.  The attempts are all made on the node of this process:
what the router knows about leaders is refreshed between them and used by none.
An operation succeeds exactly when the node leads in one of the attempts.
-/

variable {P : Platform}

structure Result where
  success : Bool
  value : Bytes
  error : Option Bytes

/-- What an attempt finds: the manager, what the node of the shard answers to the
proposal, and the manager when the leader is refreshed. -/
structure Attempt where
  data : ManagerData
  answer : NodeAnswer
  refreshed : ManagerData

/-- The operations of the program of `ProposeToShard`. -/
def proposeToShard (now : Attempt) (shardID : ShardID) (command : Bytes) : Option Reply :=
  (readVariables now.answer now.data
    (readVariables now.answer now.data manager.fresh (.lookup shardID))
    (.propose shardID command)).reply

/-- The result and the error. -/
def executeOnShard (now : Attempt) (shardID : ShardID) (op : Operation) : Result × Option Bytes :=
  match proposeToShard now shardID (serializeOperation op) with
  | some (.error message) => (⟨false, [], some message⟩, some message)
  | _ => (⟨true, [], none⟩, none)

def isNotLeaderError (error : Bytes) : Bool := decide (error = text "not leader")

def isShardUnavailableError (error : Bytes) : Bool :=
  decide (error = text "shard unavailable") || decide (error = text "no leader")

/-- The default of `NewShardRouter`. -/
def maxRetries (configured : Int) : Int := if configured = 0 then 3 else configured

def retriesExceeded (shardID : ShardID) : Bytes :=
  text "max retries exceeded for shard " ++ showInt shardID

/-- The loop of `Route`, over the attempts that are left. -/
def routeLoop (retries : Int) (shardID : ShardID) (op : Operation) :
    ShardRouter -> List Attempt -> ShardRouter × Result × Option Bytes
  | router, [] =>
      (router, ⟨false, [], some
        (text "operation failed after " ++ showInt retries ++ text " retries")⟩,
          some (retriesExceeded shardID))
  | router, now :: later =>
      match executeOnShard now shardID op with
      | (result, none) => (router, result, none)
      | (result, some error) =>
          if isNotLeaderError error then
            routeLoop retries shardID op (router.updateLeader now.refreshed shardID) later
          else if isShardUnavailableError error then (router, result, some error)
          else routeLoop retries shardID op router later

/-- `Route`, with what each attempt finds. -/
def route (configured : Int) (hashRing : HashRing P) (router : ShardRouter) (world : Nat -> Attempt)
    (op : Operation) : ShardRouter × Result × Option Bytes :=
  routeLoop (maxRetries configured) (hashRing.getShard op.key) op router
    ((List.range (maxRetries configured).toNat).map world)

/-- The shard is started and its node leads. -/
def Attempt.Leads (now : Attempt) (shardID : ShardID) : Prop :=
  now.data.lookup shardID ≠ none ∧ now.answer.isLeader = true

/-- The text ends in another byte. -/
theorem not_isShardUnavailableError_notFound (shardID : ShardID) :
    isShardUnavailableError (text "shard " ++ showInt shardID ++ text " not found") = false := by
  have different : forall other : Bytes, other.getLast? ≠ (text " not found").getLast? ->
      text "shard " ++ showInt shardID ++ text " not found" ≠ other := by
    rintro _ ends rfl
    rw [List.getLast?_append_of_ne_nil _ (by decide +kernel)] at ends
    exact ends rfl
  rw [isShardUnavailableError, Bool.or_eq_false_iff, decide_eq_false_iff_not, decide_eq_false_iff_not]
  exact ⟨different _ (by decide +kernel), different _ (by decide +kernel)⟩

/-- An attempt succeeds when the node leads, and otherwise its error is one after
which `Route` goes on. -/
theorem executeOnShard_cases (now : Attempt) (shardID : ShardID) (op : Operation) :
    now.Leads shardID ∧ executeOnShard now shardID op = (⟨true, [], none⟩, none) ∨
      ¬ now.Leads shardID ∧ Exists fun error => (executeOnShard now shardID op).2 = some error ∧
        (isNotLeaderError error = true ∨ isShardUnavailableError error = false) := by
  unfold executeOnShard proposeToShard Attempt.Leads
  simp only [readVariables]
  cases found : now.data.lookup shardID with
  | none =>
      refine Or.inr ⟨fun leads => leads.1 rfl, text "shard " ++ showInt shardID ++
        text " not found", rfl, Or.inr ?_⟩
      exact not_isShardUnavailableError_notFound shardID
  | some shard =>
      cases answer : now.answer.isLeader with
      | true => exact Or.inl ⟨⟨Option.some_ne_none shard, rfl⟩, rfl⟩
      | false =>
          exact Or.inr ⟨fun leads => Bool.false_ne_true leads.2, text "not leader", rfl,
            Or.inl (decide_eq_true rfl)⟩

/-- The loop ends with the first attempt in which the node leads. -/
theorem routeLoop_cons (retries : Int) (shardID : ShardID) (op : Operation) (router : ShardRouter)
    (now : Attempt) (later : List Attempt) :
    now.Leads shardID ∧ (routeLoop retries shardID op router (now :: later)).2 =
      (⟨true, [], none⟩, none) ∨
      ¬ now.Leads shardID ∧ Exists fun next =>
        routeLoop retries shardID op router (now :: later) =
            routeLoop retries shardID op next later := by
  rw [routeLoop]
  rcases executeOnShard_cases now shardID op with ⟨leads, done⟩ | ⟨follows, error, failed, goesOn⟩
  · rw [done]
    exact Or.inl ⟨leads, rfl⟩
  · rcases executed : executeOnShard now shardID op with ⟨result, _⟩
    rw [executed] at failed
    cases failed
    refine Or.inr ⟨follows, ?_⟩
    simp only
    split
    · exact ⟨_, rfl⟩
    · rename_i other
      rw [if_neg (Bool.eq_false_iff.mp (goesOn.resolve_left other))]
      exact ⟨_, rfl⟩

theorem routeLoop_cases (retries : Int) (shardID : ShardID) (op : Operation) (router : ShardRouter)
    (attempts : List Attempt) :
    (Exists fun now => now ∈ attempts ∧ now.Leads shardID) ∧
        (routeLoop retries shardID op router attempts).2 = (⟨true, [], none⟩, none) ∨
      (forall now, now ∈ attempts -> ¬ now.Leads shardID) ∧
        (routeLoop retries shardID op router attempts).2.2 = some (retriesExceeded shardID) := by
  induction attempts generalizing router with
  | nil => exact Or.inr ⟨List.forall_mem_nil _, rfl⟩
  | cons now later ih =>
      rcases routeLoop_cons retries shardID op router now later with ⟨leads, done⟩
        | ⟨follows, next, same⟩
      · exact Or.inl ⟨⟨now, List.mem_cons_self, leads⟩, done⟩
      · rw [same]
        rcases ih next with ⟨⟨other, inside, leads⟩, done⟩ | ⟨none, failed⟩
        · exact Or.inl ⟨⟨other, List.mem_cons_of_mem _ inside, leads⟩, done⟩
        · exact Or.inr ⟨List.forall_mem_cons.mpr ⟨follows, none⟩, failed⟩

/-- The client gets the reply of success exactly when the node of the shard of the key
leads in one of the attempts, whatever leaders the router knows. -/
theorem route_replies (configured : Int) (hashRing : HashRing P) (router : ShardRouter)
    (world : Nat -> Attempt) (op : Operation) (ok : Bytes) :
    let shardID := hashRing.getShard op.key
    let reply := routeReply ok (route configured hashRing router world op).2.2
    (Exists fun attempt : Nat => attempt < maxRetries configured ∧ (world attempt).Leads shardID) ∧
        reply = ok ∨
      (forall attempt : Nat, attempt < maxRetries configured -> ¬ (world attempt).Leads shardID) ∧
        reply = text "-ERR " ++ retriesExceeded shardID ++ text "\r\n" := by
  intro shardID reply
  have cases := routeLoop_cases (maxRetries configured) shardID op router
    ((List.range (maxRetries configured).toNat).map world)
  simp only [List.mem_map, List.mem_range, Int.lt_toNat, forall_exists_index, and_imp,
    forall_apply_eq_imp_iff₂, exists_exists_and_eq_and] at cases
  rcases cases with ⟨leads, done⟩ | ⟨follows, failed⟩
  · exact Or.inl ⟨leads, congrArg (fun outcome => routeReply ok outcome.2) done⟩
  · exact Or.inr ⟨follows, congrArg (routeReply ok) failed⟩

end Sharded
end Server
end KVStore
