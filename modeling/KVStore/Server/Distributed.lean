import KVStore.Raft.Commitment
import KVStore.Library.Runs
import KVStore.Server.GoEngine

namespace KVStore
namespace Server

open Raft Raft.Cluster Decimal

/-!
# Clients of a cluster

`cmd/distributed_server/main.go`.  Each connection is served by a goroutine that
runs `handleClient`.  A `SET` or a `DEL` is proposed to the node, the goroutine
sleeps, and then the reply is sent whatever has become of the entry.  The moment
at which the sleep ends is a choice of the events, as everything else in a run
of the cluster.

What the engine answers to a `GET` is given with the line.
-/

/-! ## Lines -/

/-- A command that was proposed: what `Propose` has returned, and the reply that
is sent at the end of the sleep. -/
structure Write where
  index : Nat
  term : Nat
  reply : Bytes
  deriving DecidableEq

/-- What becomes of a line. -/
inductive Handled where
  | skipped
  | answered (reply : Bytes)
  | proposed (command : Bytes) (write : Write)
  deriving DecidableEq

/-- Propose through Raft. -/
def proposeThen (n : Node) (parts : List Bytes) (reply : Bytes) : Handled :=
  let cmdStr := [32].intercalate parts
  let (_, index, term, isLeader) := n.propose cmdStr
  if isLeader then .proposed cmdStr ⟨index, term, reply⟩ else .answered (text "-ERR not leader\r\n")

/-- One round of the loop of `handleClient`, up to the sleep. -/
def handleClient (go : GoStrings) (n : Node) (get : Bytes -> Option Bytes) (content : Bytes) :
    Handled :=
  let line := go.trimSpace content
  if line = [] then .skipped
  else
    match go.fields line with
    | [] => .skipped
    | first :: rest =>
        let parts := first :: rest
        let cmd := go.toUpper first
        if cmd = text "PING" then .answered (text "+PONG\r\n")
        else if cmd = text "GET" then
          match rest with
          | [] => .answered wrongNumber
          | key :: _ =>
              match get key with
              | none => .answered (text "$-1\r\n")
              | some value =>
                  .answered (text "$" ++ showNat value.length ++ text "\r\n" ++ value ++ text "\r\n")
        else if cmd = text "SET" then
          if parts.length < 3 then .answered wrongNumber else proposeThen n parts (text "+OK\r\n")
        else if cmd = text "DEL" then
          if parts.length < 2 then .answered wrongNumber else proposeThen n parts (text ":1\r\n")
        else if cmd = text "RAFT_STATUS" then
          let status := if n.state = .leader then text "leader" else text "follower"
          .answered (text "+Node: " ++ n.id ++ text ", Term: " ++ showNat n.currentTerm ++
            text ", Status: " ++ status ++ text "\r\n")
        else .answered (text "-ERR unknown command\r\n")

/-- Only a leader proposes, and the entry goes to the end of its log. -/
theorem write_of_proposeThen {n : Node} {parts : List Bytes} {reply command : Bytes} {write : Write}
    (proposed : proposeThen n parts reply = .proposed command write) :
    command = [32].intercalate parts ∧ n.state = .leader ∧ write.index = n.log.length + 1 ∧
        write.term = n.currentTerm := by
  by_cases leads : n.state = .leader
  · simp only [proposeThen, Node.propose, ne_eq, leads, not_true, if_false, if_true,
      Handled.proposed.injEq] at proposed
    rcases proposed with ⟨rfl, rfl⟩
    exact ⟨rfl, leads, rfl, rfl⟩
  · simp only [proposeThen, Node.propose, ne_eq, leads, not_false_eq_true, if_true,
      Bool.false_eq_true, if_false, reduceCtorEq] at proposed

/-- A line is proposed when it is a `SET` or a `DEL` with enough words. -/
theorem handleClient_eq_proposed {go : GoStrings} {n : Node} {get : Bytes -> Option Bytes}
    {content command : Bytes} {write : Write}
    (handled : handleClient go n get content = .proposed command write) :
    Exists fun first => Exists fun rest => go.fields (go.trimSpace content) = first :: rest ∧
      go.trimSpace content ≠ [] ∧
      (go.toUpper first = text "SET" ∧ 2 ≤ rest.length ∨ go.toUpper first = text "DEL" ∧
        1 ≤ rest.length) ∧
      Exists fun reply => proposeThen n (first :: rest) reply = .proposed command write := by
  unfold handleClient at handled
  simp only at handled
  split at handled
  · cases handled
  next nonempty =>
    split at handled
    · cases handled
    next first rest words =>
      refine ⟨first, rest, words, nonempty, ?_⟩
      split at handled
      · cases handled
      split at handled
      · split at handled
        · cases handled
        · split at handled <;> cases handled
      split at handled
      next isSet =>
        split at handled
        · cases handled
        next enough =>
            exact ⟨Or.inl ⟨isSet, Nat.le_of_succ_le_succ (Nat.not_lt.mp enough)⟩, _, handled⟩
      split at handled
      next isDel =>
        split at handled
        · cases handled
        next enough =>
            exact ⟨Or.inr ⟨isDel, Nat.le_of_succ_le_succ (Nat.not_lt.mp enough)⟩, _, handled⟩
      split at handled <;> cases handled

theorem write_of_handleClient {go : GoStrings} {n : Node} {get : Bytes -> Option Bytes}
    {content command : Bytes} {write : Write}
    (handled : handleClient go n get content = .proposed command write) :
    n.state = .leader ∧ write.index = n.log.length + 1 ∧ write.term = n.currentTerm := by
  rcases handleClient_eq_proposed handled with ⟨first, rest, _, _, _, reply, proposed⟩
  exact (write_of_proposeThen proposed).2

/-! ## Connections -/

/-- A connection to a node, with the command whose reply is awaited and all that
was written to the client. -/
structure Connection where
  node : NodeID
  pending : Option Write
  replies : List Bytes
  deriving DecidableEq

/-- The nodes of a cluster and the connections to them. -/
structure Servers where
  cluster : Cluster
  connections : List Connection

inductive ServerEvent where
  | raft (event : Event)
  | accept (id : NodeID)
  | line (number : Nat) (content : Bytes) (get : Bytes -> Option Bytes)
  | wake (number : Nat)

namespace Servers

def init (config : ClusterConfig) : Servers := ⟨Cluster.init config, []⟩

def setConnection (s : Servers) (number : Nat) (client : Connection) : Servers :=
  { s with connections := s.connections.set number client }

/-- One event.  A goroutine that sleeps reads no line. -/
def step (go : GoStrings) (config : ClusterConfig) (s : Servers) : ServerEvent -> Servers
  | .raft event => { s with cluster := s.cluster.step config event }
  | .accept id =>
      if id ∈ config.ids then { s with connections := s.connections ++ [⟨id, none, []⟩] } else s
  | .line number content get =>
      match s.connections[number]? with
      | none => s
      | some client =>
          match client.pending with
          | some _ => s
          | none =>
              match handleClient go (s.cluster.nodes client.node) get content with
              | .skipped => s
              | .answered reply =>
                  s.setConnection number { client with replies := client.replies ++ [reply] }
              | .proposed command write =>
                  Servers.setConnection { s with
                    cluster := s.cluster.step config (.propose client.node command) } number
                      { client with pending := some write }
  | .wake number =>
      match s.connections[number]? with
      | none => s
      | some client =>
          match client.pending with
          | none => s
          | some write =>
              s.setConnection number { client with
                pending := none, replies := client.replies ++ [write.reply] }

def run (go : GoStrings) (config : ClusterConfig) (events : List ServerEvent) : Servers :=
  events.foldl (step go config) (init config)

/-- The goroutine of the connection sleeps before it replies to a command that it
has proposed to a node. -/
def Waits (s : Servers) (number : Nat) (id : NodeID) (write : Write) : Prop :=
  Exists fun client => s.connections[number]? = some client ∧ client.node = id ∧
    client.pending = some write

/-! ## The run of the cluster -/

/-- The event of the cluster that an event of the servers is or causes. -/
def clusterEvent (go : GoStrings) (s : Servers) : ServerEvent -> Option Event
  | .raft event => some event
  | .line number content get =>
      match s.connections[number]? with
      | none => none
      | some client =>
          match client.pending with
          | some _ => none
          | none =>
              match handleClient go (s.cluster.nodes client.node) get content with
              | .proposed command _ => some (.propose client.node command)
              | _ => none
  | _ => none

def clusterEvents (go : GoStrings) (config : ClusterConfig) :
    Servers -> List ServerEvent -> List Event
  | _, [] => []
  | s, event :: events =>
      (s.clusterEvent go event).toList ++ clusterEvents go config (s.step go config event) events

variable {go : GoStrings} {config : ClusterConfig} {s : Servers} {event : ServerEvent}
    {number : Nat} {id : NodeID}
  {write : Write}

theorem run_snoc (go : GoStrings) (config : ClusterConfig) (events : List ServerEvent)
    (event : ServerEvent) :
    run go config (events ++ [event]) = (run go config events).step go config event :=
  List.foldl_concat ..

theorem cluster_step (go : GoStrings) (config : ClusterConfig) (s : Servers) (event : ServerEvent) :
    (s.step go config event).cluster =
        (s.clusterEvent go event).toList.foldl (Cluster.step config) s.cluster := by
  cases event with
  | raft event => rfl
  | accept id =>
      rw [step]
      split <;> rfl
  | line number content get =>
      simp only [step, clusterEvent]
      cases s.connections[number]? with
      | none => rfl
      | some client =>
          simp only
          cases client.pending with
          | some write => rfl
          | none =>
              simp only
              cases handleClient go (s.cluster.nodes client.node) get content <;> rfl
  | wake number =>
      rw [step]
      split
      · rfl
      · split <;> rfl

theorem cluster_foldl (go : GoStrings) (config : ClusterConfig) (s : Servers)
    (events : List ServerEvent) :
    (events.foldl (step go config) s).cluster =
      (clusterEvents go config s events).foldl (Cluster.step config) s.cluster := by
  induction events generalizing s with
  | nil => rfl
  | cons event events ih =>
      rw [List.foldl_cons, ih, cluster_step, clusterEvents, List.foldl_append]

/-- The cluster inside a run of the servers. -/
theorem cluster_run (go : GoStrings) (config : ClusterConfig) (events : List ServerEvent) :
    (run go config events).cluster =
        Cluster.run config (clusterEvents go config (init config) events) :=
  cluster_foldl go config (init config) events

theorem clusterEvents_append (go : GoStrings) (config : ClusterConfig) (s : Servers)
    (first second : List ServerEvent) :
    clusterEvents go config s (first ++ second) =
      clusterEvents go config s first ++
          clusterEvents go config (first.foldl (step go config) s) second := by
  induction first generalizing s with
  | nil => rfl
  | cons event first ih =>
      rw [List.cons_append, clusterEvents, clusterEvents, ih, List.append_assoc]
      rfl

/-- The servers propose, and cause no other event of the cluster. -/
theorem clusterEvent_eq_some {caused : Event} (causes : s.clusterEvent go event = some caused) :
    event = .raft caused ∨ Exists fun id => Exists fun command => caused = .propose id command := by
  cases event with
  | raft event => exact Or.inl (congrArg ServerEvent.raft (Option.some.inj causes))
  | accept id => cases causes
  | line number content get =>
      simp only [clusterEvent] at causes
      split at causes
      · cases causes
      · split at causes
        · cases causes
        · split at causes
          · exact Or.inr ⟨_, _, (Option.some.inj causes).symm⟩
          · cases causes
  | wake number => cases causes

/-! ## Waiting connections -/

/-- A connection that waits when one connection is replaced. -/
theorem waits_setConnection {other : Nat} {old new : Connection}
    (there : s.connections[other]? = some old)
    (waits : Waits (s.setConnection other new) number id write) :
    Waits s number id write ∨ other = number ∧ new.node = id ∧ new.pending = some write := by
  rcases waits with ⟨client, found, node, pending⟩
  rcases eq_or_ne other number with rfl | different
  · have bound := (List.getElem?_eq_some_iff.mp there).1
    change (s.connections.set other new)[other]? = some client at found
    rw [List.getElem?_set_self bound, Option.some.injEq] at found
    subst found
    exact Or.inr ⟨rfl, node, pending⟩
  · change (s.connections.set other new)[number]? = some client at found
    rw [List.getElem?_set_ne different] at found
    exact Or.inl ⟨client, found, node, pending⟩

/-- A connection that waits has waited before, or has just proposed its command. -/
theorem waits_step (waits : Waits (s.step go config event) number id write) :
    Waits s number id write ∨
      (forall other, ¬ Waits s number id other) ∧ (forall caused, event ≠ .raft caused) ∧
        Exists fun content => Exists fun get => Exists fun command =>
          handleClient go (s.cluster.nodes id) get content = .proposed command write ∧
            s.clusterEvent go event = some (.propose id command) := by
  cases event with
  | raft event => exact Or.inl waits
  | accept opened =>
      rw [step] at waits
      split at waits
      · rcases waits with ⟨client, found, node, pending⟩
        rw [List.getElem?_append] at found
        split at found
        · exact Or.inl ⟨client, found, node, pending⟩
        · have new := List.mem_of_getElem? found
          rw [List.mem_singleton.mp new] at pending
          cases pending
      · exact Or.inl waits
  | line other content get =>
      rw [step] at waits
      split at waits
      · exact Or.inl waits
      · rename_i client there
        split at waits
        · exact Or.inl waits
        · rename_i free
          split at waits
          · exact Or.inl waits
          · rcases waits_setConnection there waits with before | ⟨_, _, pending⟩
            · exact Or.inl before
            · cases free.symm.trans pending
          · rename_i command proposed handled
            have replaced : Waits (s.setConnection other { client with pending := some proposed })
              number id write := waits
            rcases waits_setConnection there replaced with before | ⟨rfl, rfl, pending⟩
            · exact Or.inl before
            · rcases Option.some.inj pending with rfl
              refine Or.inr ⟨?_, nofun, content, get, command, handled, ?_⟩
              · rintro old ⟨found, sameClient, _, stillPending⟩
                rw [there, Option.some.injEq] at sameClient
                rw [← sameClient, free] at stillPending
                cases stillPending
              · simp only [clusterEvent, there, free, handled]
  | wake other =>
      rw [step] at waits
      split at waits
      · exact Or.inl waits
      · rename_i client there
        split at waits
        · exact Or.inl waits
        · rcases waits_setConnection there waits with before | ⟨_, _, pending⟩
          · exact Or.inl before
          · cases pending

theorem positive_of_waits (events : List ServerEvent)
    (waits : Waits (run go config events) number id write) :
    0 < write.index := by
  induction events using List.reverseRecOn with
  | nil =>
      rcases waits with ⟨client, found, _⟩
      cases found
  | append_singleton events event ih =>
      rw [run_snoc] at waits
      rcases waits_step waits with before | ⟨_, _, content, get, command, handled, _⟩
      · exact ih before
      · rw [(write_of_handleClient handled).2.1]
        exact Nat.succ_pos _

/-! ## Acknowledged commands -/

/-- While the goroutine sleeps, an event lets the node know that the entry of the
command is committed. -/
def Confirmed (go : GoStrings) (config : ClusterConfig) (events : List ServerEvent) (number : Nat)
    (id : NodeID) (write : Write) : Prop :=
  Exists fun count => Exists fun event => events[count]? = some (ServerEvent.raft event) ∧
    (forall moment, count ≤ moment -> Waits (run go config (events.take moment)) number id write) ∧
    confirms (run go config (events.take count)).cluster id write.index write.term event = true

variable {events : List ServerEvent}

theorem Confirmed.waits (confirmed : Confirmed go config events number id write) :
    Waits (run go config events) number id write := by
  rcases confirmed with ⟨count, event, there, waits, _⟩
  have inside := (List.getElem?_eq_some_iff.mp there).1
  have atEnd := waits events.length (Nat.le_of_lt inside)
  rw [List.take_length] at atEnd
  exact atEnd

theorem confirmed_snoc (waits : Waits (run go config (events ++ [event])) number id write) :
    Confirmed go config (events ++ [event]) number id write <->
      Confirmed go config events number id write ∨
        Waits (run go config events) number id write ∧ Exists fun caused => event = .raft caused ∧
          confirms (run go config events).cluster id write.index write.term caused = true := by
  constructor
  · rintro ⟨count, caused, there, waiting, confirmed⟩
    have bound : count ≤ events.length := by
      have inside := (List.getElem?_eq_some_iff.mp there).1
      rw [List.length_append, List.length_singleton] at inside
      omega
    have before : forall moment, count ≤ moment ->
        Waits (run go config (events.take moment)) number id write := by
      intro moment later
      rcases Nat.le_total moment events.length with early | atEnd
      · have then' := waiting moment later
        rw [Runs.take_snoc_of_le events event early] at then'
        exact then'
      · have then' := waiting events.length bound
        rw [Runs.take_snoc_of_le events event (Nat.le_refl _), List.take_length] at then'
        rw [List.take_of_length_le atEnd]
        exact then'
    rw [Runs.take_snoc_of_le events event bound] at confirmed
    rcases Runs.getElem?_snoc there with ⟨_, inside⟩ | ⟨rfl, same⟩
    · exact Or.inl ⟨count, caused, inside, before, confirmed⟩
    · have now := before events.length (Nat.le_refl _)
      rw [List.take_length] at now confirmed
      exact Or.inr ⟨now, caused, same.symm, confirmed⟩
  · have atEnd : forall moment, events.length < moment ->
        Waits (run go config ((events ++ [event]).take moment)) number id write := by
      intro moment later
      rw [List.take_of_length_le (by rw [List.length_append]; exact later)]
      exact waits
    rintro (⟨count, caused, there, waiting, confirmed⟩ | ⟨now, caused, rfl, confirmed⟩)
    · have inside := (List.getElem?_eq_some_iff.mp there).1
      refine ⟨count, caused, by rw [List.getElem?_append_left inside]; exact there, ?_, ?_⟩
      · intro moment later
        rcases Nat.lt_or_ge events.length moment with after | early
        · exact atEnd moment after
        · rw [Runs.take_snoc_of_le events event early]
          exact waiting moment later
      · rw [Runs.take_snoc_of_le events event (Nat.le_of_lt inside)]
        exact confirmed
    · refine ⟨events.length, caused, Runs.getElem?_snoc_length events _, ?_, ?_⟩
      · intro moment later
        rcases Nat.lt_or_eq_of_le later with after | rfl
        · exact atEnd moment after
        · rw [Runs.take_snoc_of_le events _ (Nat.le_refl _), List.take_length]
          exact now
      · rw [Runs.take_snoc_of_le events _ (Nat.le_refl _), List.take_length]
        exact confirmed

theorem clusterEvents_snoc (events : List ServerEvent) (event : ServerEvent) :
    clusterEvents go config (init config) (events ++ [event]) =
      clusterEvents go config (init config) events ++
          ((run go config events).clusterEvent go event).toList := by
  rw [clusterEvents_append, clusterEvents, clusterEvents, List.append_nil]
  rfl

/-- After one more event of the servers an entry is committed if it was before or
the event confirms it. -/
theorem hasCommitted_snoc {index term : Nat}
    (along : Along config careful (Cluster.init config)
      (clusterEvents go config (init config) (events ++ [event])))
    (positive : 0 < index) :
    HasCommitted ((run go config (events ++ [event])).cluster.nodes id) index term <->
      HasCommitted ((run go config events).cluster.nodes id) index term ∨
        Exists fun caused => event = .raft caused ∧
          confirms (run go config events).cluster id index term caused = true := by
  rw [clusterEvents_snoc] at along
  cases causes : (run go config events).clusterEvent go event with
  | none =>
      have same : (run go config (events ++ [event])).cluster = (run go config events).cluster := by
        rw [run_snoc, cluster_step, causes]
        rfl
      rw [same]
      refine ⟨Or.inl, fun either => either.resolve_right ?_⟩
      rintro ⟨caused, rfl, _⟩
      cases causes
  | some caused =>
      rw [causes] at along
      rw [cluster_run, cluster_run, clusterEvents_snoc, causes]
      refine (Cluster.hasCommitted_snoc along positive).trans (or_congr_right ?_)
      constructor
      · intro confirmed
        rcases clusterEvent_eq_some causes with raft | ⟨_, _, rfl⟩
        · exact ⟨caused, raft, confirmed⟩
        · cases confirmed
      · rintro ⟨_, rfl, confirmed⟩
        rcases Option.some.inj causes with rfl
        exact confirmed

/-- When the reply to a command is due, its entry is committed exactly if an event
has confirmed it during the sleep. -/
theorem hasCommitted_iff_confirmed
    (along : Along config careful (Cluster.init config)
      (clusterEvents go config (init config) events))
    (waits : Waits (run go config events) number id write) :
    HasCommitted ((run go config events).cluster.nodes id) write.index write.term <->
      Confirmed go config events number id write := by
  induction events using List.reverseRecOn with
  | nil =>
      rcases waits with ⟨client, found, _⟩
      cases found
  | append_singleton events event ih =>
      have before : Along config careful (Cluster.init config)
          (clusterEvents go config (init config) events) := by
        rw [clusterEvents_snoc, along_append] at along
        exact along.1
      rw [hasCommitted_snoc along (positive_of_waits _ waits), confirmed_snoc waits]
      rw [run_snoc] at waits
      rcases waits_step waits with waited | ⟨idle, quiet, content, get, command, handled, _⟩
      · rw [ih before waited]
        exact or_congr_right ⟨fun confirmed => ⟨waited, confirmed⟩, fun both => both.2⟩
      · -- The entry is not in the log before the command is proposed.
        have short := (write_of_handleClient handled).2.1
        constructor
        · rintro (⟨_, inside, _⟩ | ⟨caused, raft, _⟩)
          · omega
          · exact absurd raft (quiet caused)
        · rintro (confirmed | ⟨waited, _⟩)
          · exact absurd confirmed.waits (idle write)
          · exact absurd waited (idle write)

theorem getElem?_of_take_part {log other : List LogEntry} {count index : Nat} (positive : 0 < index)
    (reached : index ≤ count) (inside : index ≤ log.length) (part : log.take count <+: other) :
    other[index - 1]? = log[index - 1]? := by
  have before : index - 1 < log.length := by omega
  have there : (log.take count)[index - 1]? = log[index - 1]? := List.getElem?_take_of_lt (by omega)
  rw [List.getElem?_eq_getElem before] at there ⊢
  exact getElem?_of_part part there

/-- In every run in which the elections are careful, when the reply to a command
is due, its entry is committed on the node exactly if the node got to know so
during the sleep.  The entry then stays in the log of the node and is in the log
of every leader of the same term or a later one. -/
theorem acknowledged_committed (go : GoStrings) (config : ClusterConfig)
    (events more : List ServerEvent)
    (along : Along config careful (Cluster.init config)
      (clusterEvents go config (init config) (events ++ more)))
    (number : Nat) (id : NodeID) (write : Write)
    (waits : Waits (run go config events) number id write) :
    (HasCommitted ((run go config events).cluster.nodes id) write.index write.term <->
        Confirmed go config events number id write) ∧
      (Confirmed go config events number id write ->
        ((run go config (events ++ more)).cluster.nodes id).log[write.index - 1]? =
            ((run go config events).cluster.nodes id).log[write.index - 1]? ∧
          forall leader term, ((run go config events).cluster.nodes id).currentTerm ≤ term ->
            Leads ((run go config (events ++ more)).cluster.nodes leader) term ->
            ((run go config (events ++ more)).cluster.nodes leader).log[write.index - 1]? =
              ((run go config events).cluster.nodes id).log[write.index - 1]?) := by
  have positive := positive_of_waits events waits
  have before := along
  rw [clusterEvents_append] at along before
  rw [along_append] at before
  have confirmed := hasCommitted_iff_confirmed before.1 waits
  refine ⟨confirmed, fun isConfirmed => ?_⟩
  rcases confirmed.mpr isConfirmed with ⟨reached, inside, _⟩
  rw [cluster_run] at reached inside
  rw [cluster_run, cluster_run, clusterEvents_append]
  constructor
  · exact getElem?_of_take_part positive reached inside
      ((committed_run along id).trans (List.take_prefix _ _))
  · intro leader term current leads
    exact getElem?_of_take_part positive reached inside
      (committed_of_leads along id leader current leads)

/-- The functions of `strings` on the texts that have only ASCII characters. -/
def asciiStrings : GoStrings where
  trimSpace := fun content => ((content.dropWhile isSpace).reverse.dropWhile isSpace).reverse
  fields := fun content =>
    (content.splitBy fun first second => isSpace first == isSpace second).filter fun part =>
    !part.any isSpace
  toUpper := fun content => content.map fun byte => if 97 ≤ byte ∧ byte ≤ 122 then byte - 32 else byte

/-- A client connects to a leader and sets a key. -/
def clientSets : List ServerEvent :=
  .accept [97] :: calmElection.map .raft ++ [.line 0 (text "set k v") fun _ => none]

/-- Two peers take over the entry, and the leader hears of it. -/
def clientSetsAndPeersStore : List ServerEvent :=
  clientSets ++ [.raft (.buildAppend 3), .raft (.buildAppend 4), .raft (.deliverAppend 3),
    .raft (.deliverAppend 4), .raft (.appendReply 3 0), .raft (.appendReply 4 0)]

theorem acknowledged_committed_clientSets :
    HasCommitted ((run asciiStrings fourNodes clientSetsAndPeersStore).cluster.nodes [97]) 1 1 ∧
      Confirmed asciiStrings fourNodes clientSetsAndPeersStore 0 [97] ⟨1, 1, text "+OK\r\n"⟩ := by
  have committed : HasCommitted
      ((run asciiStrings fourNodes clientSetsAndPeersStore).cluster.nodes [97]) 1 1 := by
    decide +kernel
  have iff := acknowledged_committed asciiStrings fourNodes clientSetsAndPeersStore []
    (by decide +kernel) 0 [97] ⟨1, 1, text "+OK\r\n"⟩
    ⟨⟨[97], some ⟨1, 1, text "+OK\r\n"⟩, []⟩, by decide +kernel, rfl, rfl⟩
  exact ⟨committed, iff.1.mp committed⟩

/-- A second leader is elected, and its entry takes the place of the first one. -/
def secondLeader : List Event :=
  .electionTimeout [98] :: askVote [98] 2 [99] ++ askVote [98] 2 [100] ++
    [.propose [98] [1], .buildAppend 9, .deliverAppend 9]

/-- The reply is sent before any peer has the entry. -/
def lostWrite : List ServerEvent := clientSets ++ .wake 0 :: secondLeader.map .raft

set_option maxRecDepth 10000 in
theorem acknowledged_write_lost :
    ((run asciiStrings fourNodes (clientSets ++ [.wake 0])).connections.map Connection.replies =
        [[text "+OK\r\n"]]) ∧
      ¬ HasCommitted ((run asciiStrings fourNodes (clientSets ++ [.wake 0])).cluster.nodes [97]) 1 1 ∧
      ((run asciiStrings fourNodes (clientSets ++ [.wake 0])).cluster.nodes [97]).log =
        [⟨1, 1, text "set k v"⟩] ∧
      ((run asciiStrings fourNodes lostWrite).cluster.nodes [97]).log = [⟨2, 1, [1]⟩] := by
  decide +kernel

end Servers
end Server
end KVStore
