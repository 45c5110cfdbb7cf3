import KVStore.Library.EdgeTriggered
import KVStore.Resp.Pipeline
import Mathlib.Data.List.Nodup

namespace KVStore
namespace Resp

open Function EdgeTriggered RESPParser

/-!
# The event loop of the server

`EpollServer` of `engine/src/epoll_server.cpp`:  one thread that waits in `epoll_wait`,
accepts connections, reads what the clients have sent, and sends the replies.  Every
system call is a step of its own.  What the clients and the network do may happen at any
time, between any two calls of the loop; how much a call of `recv` or `send` moves, which
descriptors `epoll_wait` reports, and whether `accept` succeeds is up to the kernel.

The watches are edge-triggered.  The loop has to go on with a descriptor until it would
block, and has to ask for output when replies are left over.  It does:  whenever it
waits, whatever calls for its attention is noted by the kernel.  The other result is
about what the clients get.  The replies of a connection arrive complete and in order,
and all of them are the same:  no value that the parser returns is a command.

The runs are those in which `parse` returns.  A chunk for which it throws, say for the length
of an array, ends the process with all its connections.
-/

/-! ## The server -/

abbrev Fd := Nat

/-- An open descriptor of a client:  its socket, and the watch that `epoll_ctl` has set. -/
structure File where
  socket : Socket UInt8
  watch : Watch

/-- Where the loop is with a client:  before `recv`, before the `modify_epoll` of
`handle_client_read`, before `send`, before the `modify_epoll` of `handle_client_write`, or
before the test of `should_close`. -/
inductive Phase where
  | read
  | arm
  | write
  | disarm
  | finish
deriving DecidableEq

/-- Where the loop is.  `epoll_wait` has collected a part of its batch, or the rest of a batch is
to be handled; `output` says whether the current report has `EPOLLOUT`. -/
inductive Control where
  | wait (batch : List (Fd × Report))
  | dispatch (batch : List (Fd × Report))
  | accept (batch : List (Fd × Report))
  | handle (phase : Phase) (fd : Fd) (output : Bool) (batch : List (Fd × Report))
  | ended
deriving DecidableEq

structure Server (σ : Type) where
  backlog : List (Socket UInt8)
  listening : Bool
  files : Fd -> Option File
  clients : Fd -> Option ClientConnection
  control : Control
  store : σ

/-- `EpollServer`, with the handler of the commands. -/
structure EpollServer (σ : Type) where
  listenFd : Fd
  commandHandler : Option (σ -> RESPCommand -> σ × Bytes)

/-- What the kernel decides about a system call. -/
structure Choice where
  fd : Fd
  count : Nat
  returns : Bool
  failed : Bool
  nonblocking : Bool
  added : Bool

/-- A client connects, something happens to a connection that waits to be accepted or to one that
is open, or the loop goes on. -/
inductive ServerEvent where
  | connect (room : Nat)
  | waiting (position : Nat) (traffic : Traffic UInt8)
  | traffic (fd : Fd) (traffic : Traffic UInt8)
  | turn (choice : Choice)

def maxEvents : Nat := 1024

def bufferSize : Nat := 4096

/-- What `recv` reports. -/
def recv (socket : Socket UInt8) (count : Nat) : Recv :=
  if socket.failed then .failed
  else if socket.inbox = [] then if socket.ended then .closed else .wouldBlock
  else .data (socket.chunk bufferSize count)

/-- A client that the loop is busy with, and what the handler of the commands works on. -/
structure Visit (σ : Type) where
  phase : Phase
  file : File
  client : ClientConnection
  store : σ

def ClientConnection.opened : ClientConnection := ⟨new, [], false⟩

namespace EpollServer

variable {σ : Type} (server : EpollServer σ)

/-- The replies to the values of a chunk. -/
def reply : σ -> List RESPValue -> σ × Bytes
  | store, [] => (store, [])
  | store, value :: values =>
      let first := match toCommand value, server.commandHandler with
        | some cmd, some handler => handler store cmd
        | _, _ => (store, invalidCommand)
      let rest := reply first.1 values
      (rest.1, first.2 ++ rest.2)

/-- What follows after `handle_client_read`. -/
def afterRead (output : Bool) : Phase := if output then .write else .finish

/-- One round of `handle_client_read`, up to the call of `modify_epoll`. -/
def handleClientRead (output : Bool) (count : Nat) (v : Visit σ) : Visit σ :=
  match recv v.file.socket count with
  | .wouldBlock => { v with phase := afterRead output }
  | .failed => { v with phase := afterRead output, client := { v.client with shouldClose := true } }
  | .closed => { v with phase := afterRead output, client := { v.client with shouldClose := true } }
  | .data chunk =>
      let parsed := handleChunk v.client.parser chunk
      let replies := server.reply v.store parsed.2
      { phase := .arm
        file := { v.file with socket := v.file.socket.receive bufferSize count }
        client := { v.client with
          parser := parsed.1, writeBuffer := v.client.writeBuffer ++ replies.2 }
        store := replies.1 }

/-- One round of `handle_client_write`, up to the call of `modify_epoll`. -/
def handleClientWrite (count : Nat) (v : Visit σ) : Visit σ :=
  if v.client.writeBuffer = [] then { v with phase := .disarm }
  else if v.file.socket.failed then
    { v with phase := .finish, client := { v.client with shouldClose := true } }
  else if v.file.socket.room = 0 then { v with phase := .finish }
  else
    { v with
      file := { v.file with socket := v.file.socket.send v.client.writeBuffer count }
      client := { v.client with
        writeBuffer := v.client.writeBuffer.drop
          (v.file.socket.portion v.client.writeBuffer count) } }

/-- `modify_epoll`, which asks for input always. -/
def modifyEpoll (output : Bool) (file : File) : File :=
  { file with watch := file.watch.modify true output file.socket }

/-- A step with a client, up to the test of `should_close`. -/
def visit (output : Bool) (count : Nat) (v : Visit σ) : Visit σ :=
  match v.phase with
  | .read => server.handleClientRead output count v
  | .arm =>
      if v.client.writeBuffer = [] then { v with phase := .read }
      else { v with phase := .read, file := modifyEpoll true v.file }
  | .write => handleClientWrite count v
  | .disarm => { v with phase := .finish, file := modifyEpoll false v.file }
  | .finish => v

/-- `close_client`. -/
def closeClient (s : Server σ) (fd : Fd) : Server σ :=
  { s with files := update s.files fd none, clients := update s.clients fd none }

/-- `epoll_wait` takes a descriptor that is ready into its batch.  A call reports a descriptor at
most once, with what it finds at that time. -/
def collect (s : Server σ) (fd : Fd) (batch : List (Fd × Report)) : Server σ :=
  if (batch.map Prod.fst).contains fd then s
  else if fd = server.listenFd then
    if s.listening then { s with
      listening := false, control := .wait (batch ++ [(fd, ⟨true, false, false⟩)]) } else s
  else match s.files fd with
    | none => s
    | some file =>
        if file.watch.ready then
          { s with
            files := update s.files fd (some { file with watch := file.watch.harvest })
            control := if (file.watch.report file.socket).any then
              .wait (batch ++ [(fd, file.watch.report file.socket)]) else .wait batch }
        else s

/-- `epoll_wait`. -/
def epollWait (s : Server σ) (choice : Choice) (batch : List (Fd × Report)) : Server σ :=
  if choice.failed ∧ batch = [] then { s with control := .ended }
  else if choice.returns ∨ maxEvents ≤ batch.length then { s with control := .dispatch batch }
  else server.collect s choice.fd batch

/-- A round of `accept_connection`.  What the kernel reports as the new descriptor is not in use. -/
def acceptConnection (s : Server σ) (choice : Choice) (batch : List (Fd × Report)) : Server σ :=
  if choice.failed then s
  else match s.backlog with
    | [] => { s with control := .dispatch batch }
    | socket :: backlog =>
        if choice.fd = server.listenFd ∨ (s.files choice.fd).isSome then s
        else if choice.nonblocking && choice.added then
          { s with
            backlog := backlog
            files := update s.files choice.fd
              (some ⟨socket, (⟨true, false, false⟩ : Watch).modify true false socket⟩)
            clients := update s.clients choice.fd (some ClientConnection.opened) }
        else { s with backlog := backlog }

/-- The body of the loop over a batch, up to the first call on the client. -/
def dispatch (s : Server σ) (fd : Fd) (report : Report) (batch : List (Fd × Report)) : Server σ :=
  if fd = server.listenFd then
    { s with control := if report.input then .accept batch else .dispatch batch }
  else match s.clients fd with
    | none => { s with control := .dispatch batch }
    | some _ =>
        if report.hangup then { closeClient s fd with control := .dispatch batch }
        else
          { s with control := .handle (if report.input then .read else afterRead report.output) fd report.output batch }

/-- A step of `run`. -/
def turn (s : Server σ) (choice : Choice) : Server σ :=
  match s.control with
  | .wait batch => server.epollWait s choice batch
  | .dispatch [] => { s with control := .wait [] }
  | .dispatch ((fd, report) :: batch) => server.dispatch s fd report batch
  | .accept batch => server.acceptConnection s choice batch
  | .handle phase fd output batch =>
      match s.files fd, s.clients fd with
      | some file, some client =>
          if phase = .finish then
            { (if client.shouldClose then closeClient s fd else s) with control := .dispatch batch }
          else
            let v := server.visit output choice.count ⟨phase, file, client, s.store⟩
            { s with
              files := update s.files fd (some v.file)
              clients := update s.clients fd (some v.client)
              store := v.store
              control := .handle v.phase fd output batch }
      | _, _ => s
  | .ended => s

/-- The kernel notes what happens to a socket. -/
def File.after (file : File) (traffic : Traffic UInt8) : File :=
  ⟨file.socket.after traffic, file.watch.notice file.socket traffic⟩

def step (s : Server σ) : ServerEvent -> Server σ
  | .connect room => { s with backlog := s.backlog ++ [Socket.opened room], listening := true }
  | .waiting position traffic =>
      { s with backlog := s.backlog.modify position fun socket => socket.after traffic }
  | .traffic fd traffic =>
      { s with files := update s.files fd ((s.files fd).map fun file => File.after file traffic) }
  | .turn choice => server.turn s choice

/-- The server after `start`. -/
def start (store : σ) : Server σ := ⟨[], false, fun _ => none, fun _ => none, .wait [], store⟩

def run (store : σ) (events : List ServerEvent) : Server σ := events.foldl server.step (start store)

/-! ## What the loop attends to -/

end EpollServer

/-- What the loop is going to do with a client without being told again:  read what there is, send
what there is room for, ask for output, stop asking for it, test whether to close. -/
structure Attention where
  reads : Prop
  writes : Prop
  arms : Prop
  disarms : Prop
  closes : Prop

def Phase.attention (phase : Phase) (output : Bool) : Attention where
  reads := phase = .read ∨ phase = .arm
  writes := phase = .write ∨ output = true ∧ (phase = .read ∨ phase = .arm)
  arms := phase = .arm
  disarms := phase = .disarm
  closes := phase = .write ∨ phase = .disarm ∨ phase = .finish

/-- The attention to a client that is in a batch, or in none. -/
def pending (batch : List (Fd × Report)) (fd : Fd) : Attention where
  reads := Exists fun report => (fd, report) ∈ batch ∧ report.input = true
  writes := Exists fun report => (fd, report) ∈ batch ∧ report.output = true
  arms := False
  disarms := False
  closes := False

namespace Control

def batch : Control -> List (Fd × Report)
  | .wait batch => batch
  | .dispatch batch => batch
  | .accept batch => batch
  | .handle _ _ _ batch => batch
  | .ended => []

/-- The client that the loop is with. -/
def current : Control -> Option Fd
  | .handle _ fd _ _ => some fd
  | _ => none

def attention (control : Control) (fd : Fd) : Attention :=
  match control with
  | .handle phase current output batch =>
      if current = fd then phase.attention output else pending batch fd
  | other => pending other.batch fd

theorem attention_of_ne {control : Control} {fd : Fd} (other : control.current ≠ some fd) :
    control.attention fd = pending control.batch fd := by
  cases control with
  | handle phase current output batch => exact if_neg fun same => other (congrArg some same)
  | wait batch => rfl
  | dispatch batch => rfl
  | accept batch => rfl
  | ended => rfl

end Control

/-- Whatever calls for attention at a client is noted by the kernel, or the loop attends to it
anyway.  A client is to be closed only when the other end has closed, or the connection is
broken. -/
structure Served (attention : Attention) (file : File) (client : ClientConnection) : Prop where
  input : file.watch.input = true
  reading : client.shouldClose = false -> file.socket.readable = true -> file.watch.ready = true ∨
    attention.reads
  watching : client.writeBuffer ≠ [] -> file.watch.output = true ∨ attention.arms
  writing : client.shouldClose = false -> client.writeBuffer ≠ [] -> 0 < file.socket.room ->
    file.watch.ready = true ∨ attention.writes ∨ attention.arms
  empty : attention.disarms -> client.writeBuffer = []
  closing : client.shouldClose = true ->
    attention.closes ∧ (file.socket.ended = true ∨ file.socket.failed = true)

/-- The chunks in which the data of a client were received, and what the client was told:  for each
value of the chunks the same error, of which a part may be left to send. -/
def Answered (file : File) (client : ClientConnection) (chunks : List Bytes) : Prop :=
  chunks.flatten = file.socket.received ∧
    (forall chunk, chunk ∈ chunks -> chunk ≠ [] ∧ chunk.length ≤ bufferSize) ∧
    client.parser = (drive new chunks).1 ∧
    file.socket.sent ++ client.writeBuffer =
      ((drive new chunks).2.map fun _ => invalidCommand).flatten

/-! ## Values that are no commands -/

theorem drive_append (p : RESPParser) (first second : List Bytes) :
    drive p (first ++ second) =
      ((drive (drive p first).1 second).1, (drive p first).2 ++
          (drive (drive p first).1 second).2) := by
  induction first generalizing p with
  | nil => rfl
  | cons chunk first ih =>
      rw [List.cons_append, drive, ih]
      simp only [drive, List.append_assoc]

/-- One more chunk. -/
theorem drive_snoc (p : RESPParser) (chunks : List Bytes) (chunk : Bytes) :
    drive p (chunks ++ [chunk]) =
      ((handleChunk (drive p chunks).1 chunk).1, (drive p chunks).2 ++
          (handleChunk (drive p chunks).1 chunk).2) := by
  rw [drive_append]
  simp only [drive, List.append_nil]

theorem toCommand_received {buffer : Bytes} {value : RESPValue} (received : Received buffer value) :
    toCommand value = none := by
  cases received <;> rfl

/-- No value of a connection is a command. -/
theorem toCommand_drive {p : RESPParser} {awaited : Bytes} (resumes : Resumes p awaited)
    (chunks : List Bytes) :
    forall value, value ∈ (drive p chunks).2 -> toCommand value = none := by
  induction chunks generalizing p awaited with
  | nil => exact fun value inside => nomatch inside
  | cons chunk chunks ih =>
      rcases drive_cons_cases resumes chunk chunks with
        ⟨q, goesOn, values⟩ | ⟨_, values⟩ | values | ⟨first, received, values⟩
      · rw [values]
        exact ih goesOn
      · rw [values]
        exact ih resumes_new
      · rw [values]
        exact fun value inside => nomatch inside
      · rw [values]
        intro value inside
        rcases List.mem_cons.mp inside with rfl | later
        · exact toCommand_received received
        · exact ih resumes_new value later

/-- No value of a further chunk is one. -/
theorem toCommand_handleChunk {p : RESPParser} {chunks : List Bytes}
    (parser : p = (drive new chunks).1) (chunk : Bytes) :
    forall value, value ∈ (handleChunk p chunk).2 -> toCommand value = none := by
  intro value inside
  apply toCommand_drive resumes_new (chunks ++ [chunk]) value
  rw [drive_snoc, ← parser]
  exact List.mem_append_right _ inside

/-! ## A client -/

namespace Served

variable {attention other : Attention} {file : File} {client : ClientConnection}

/-- What happens to the socket is noted. -/
theorem after (served : Served attention file client) (traffic : Traffic UInt8) :
    Served attention (EpollServer.File.after file traffic) client where
  input := (Watch.input_notice _ _ _).trans served.input
  reading := fun stays readable => Watch.readable_noted served.input (served.reading stays) readable
  watching := fun left => (served.watching left).imp (Watch.output_notice _ _ _).trans id
  writing := by
    intro stays left room
    rcases served.watching left with watched | arms
    · exact Watch.room_noted watched (served.writing stays left) room
    · exact Or.inr (Or.inr arms)
  empty := served.empty
  closing := fun closes => (served.closing closes).imp id fun closed =>
    Socket.closed_after closed traffic

theorem stays (served : Served attention file client) (goesOn : ¬ attention.closes) :
    client.shouldClose = false := by
  cases closes : client.shouldClose with
  | false => rfl
  | true => exact absurd (served.closing closes).1 goesOn

/-- More attention to a client that is not to be closed. -/
theorem mono (served : Served attention file client) (stays : client.shouldClose = false)
    (reads : attention.reads -> other.reads) (writes : attention.writes -> other.writes)
    (arms : attention.arms -> other.arms) (disarms : other.disarms -> attention.disarms) :
    Served other file client where
  input := served.input
  reading := fun stays readable => (served.reading stays readable).imp id reads
  watching := fun left => (served.watching left).imp id arms
  writing := fun stays left room => (served.writing stays left room).imp id (Or.imp writes arms)
  empty := fun there => served.empty (disarms there)
  closing := fun closes => absurd closes (by simp [stays])

/-- A batch that has grown. -/
theorem grow {batch rest : List (Fd × Report)} {fd : Fd}
    (served : Served (pending batch fd) file client)
    (grows : forall entry, entry ∈ batch -> entry ∈ rest) :
    Served (pending rest fd) file client := by
  refine served.mono (served.stays id) ?_ ?_ id id
  · rintro ⟨report, inside, input⟩
    exact ⟨report, grows _ inside, input⟩
  · rintro ⟨report, inside, output⟩
    exact ⟨report, grows _ inside, output⟩

/-- What was noted is reported instead. -/
theorem harvest {batch rest : List (Fd × Report)} {fd : Fd}
    (served : Served (pending batch fd) file client)
    (reads : (file.watch.report file.socket).input = true -> (pending rest fd).reads)
    (writes : (file.watch.report file.socket).output = true -> (pending rest fd).writes) :
    Served (pending rest fd) { file with watch := file.watch.harvest } client where
  input := served.input
  reading := fun _ readable => Or.inr (reads (by simp [Watch.report, served.input, readable]))
  watching := served.watching
  writing := by
    intro _ left room
    rcases served.watching left with watched | arms
    · exact Or.inr (Or.inl (writes (by simp [Watch.report, watched, Socket.writable, room])))
    · exact arms.elim
  empty := fun disarms => disarms.elim
  closing := fun closes => (served.closing closes).1.elim

/-- A client that is to be closed, in the phases that lead to the test. -/
theorem of_closed (served : Served attention file client)
    (watched : client.writeBuffer ≠ [] -> file.watch.output = true)
    (closed : file.socket.ended = true ∨ file.socket.failed = true) {phase : Phase} {output : Bool}
    (leads : phase = .write ∨ phase = .finish) :
    Served (phase.attention output) file { client with shouldClose := true } where
  input := served.input
  reading := fun stays => nomatch stays
  watching := fun left => Or.inl (watched left)
  writing := fun stays => nomatch stays
  empty := by
    rintro rfl
    simp at leads
  closing := fun _ => ⟨leads.imp id Or.inr, closed⟩

end Served

theorem afterRead_cases (output : Bool) :
    EpollServer.afterRead output = .write ∨ EpollServer.afterRead output = .finish := by
  cases output
  · exact Or.inr rfl
  · exact Or.inl rfl

/-- What `recv` reports says what is there. -/
theorem recv_cases (socket : Socket UInt8) (count : Nat) :
    (recv socket count = .failed ∧ socket.failed = true) ∨
      (recv socket count = .closed ∧ socket.ended = true) ∨
      (recv socket count = .wouldBlock ∧ socket.readable = false) ∨
      (recv socket count = .data (socket.chunk bufferSize count) ∧ socket.inbox ≠ []) := by
  rw [recv]
  by_cases broken : socket.failed = true
  · simp [broken]
  · by_cases empty : socket.inbox = []
    · cases ended : socket.ended with
      | true => simp [broken, empty]
      | false => simp [broken, empty, Socket.readable, ended]
    · simp [broken, empty]

namespace EpollServer

variable {σ : Type} {server : EpollServer σ}

/-- The commands of the replies are never executed. -/
theorem reply_eq {values : List RESPValue}
    (noCommand : forall value, value ∈ values -> toCommand value = none) (store : σ) :
    server.reply store values = (store, (values.map fun _ => invalidCommand).flatten) := by
  induction values with
  | nil => rfl
  | cons value values ih =>
      have first : toCommand value = none := noCommand value List.mem_cons_self
      simp only [reply, first, ih fun later inside => noCommand later (List.mem_cons_of_mem _ inside),
        List.map_cons, List.flatten_cons]

section

variable {v : Visit σ} {output : Bool} {count : Nat}

theorem served_read (reads : v.phase = .read)
    (served : Served (v.phase.attention output) v.file v.client) :
    Served ((server.handleClientRead output count v).phase.attention output)
      (server.handleClientRead output count v).file
      (server.handleClientRead output count v).client := by
  have watched (left : v.client.writeBuffer ≠ []) : v.file.watch.output = true :=
    (served.watching left).resolve_right (by simp [Phase.attention, reads])
  have stays : v.client.shouldClose = false := served.stays (by simp [Phase.attention, reads])
  rw [handleClientRead]
  rcases recv_cases v.file.socket count with
    ⟨result, broken⟩ | ⟨result, ended⟩ | ⟨result, unreadable⟩ | ⟨result, present⟩
  · rw [result]
    exact served.of_closed watched (Or.inr broken) (afterRead_cases output)
  · rw [result]
    exact served.of_closed watched (Or.inl ended) (afterRead_cases output)
  · rw [result]
    refine ⟨served.input, fun _ readable => ?_, fun left => Or.inl (watched left),
      fun _ left room => ?_, ?_, ?_⟩
    · exact absurd (unreadable.symm.trans readable) (by decide)
    · rcases served.writing stays left room with noted | writes | arms
      · exact Or.inl noted
      · have asked : output = true := by simpa [Phase.attention, reads] using writes
        refine Or.inr (Or.inl (Or.inl ?_))
        simp [afterRead, asked]
      · exact absurd (reads.symm.trans arms) (by decide)
    · intro disarms
      rcases afterRead_cases output with writes | finishes
      · exact absurd (writes.symm.trans disarms) (by decide)
      · exact absurd (finishes.symm.trans disarms) (by decide)
    · exact fun closes => absurd (stays.symm.trans closes) (by decide)
  · rw [result]
    refine ⟨served.input, fun _ _ => Or.inr (Or.inr rfl), fun _ => Or.inr rfl,
      fun _ _ _ => Or.inr (Or.inr rfl), ?_, ?_⟩
    · exact fun disarms => nomatch disarms
    · exact fun closes => absurd (stays.symm.trans closes) (by decide)

theorem served_arm (arms : v.phase = .arm)
    (served : Served (v.phase.attention output) v.file v.client) :
    Served ((server.visit output count v).phase.attention output) (server.visit output count v).file
      (server.visit output count v).client := by
  have stays : v.client.shouldClose = false := served.stays (by simp [Phase.attention, arms])
  simp only [visit, arms]
  split
  · rename_i empty
    refine ⟨served.input, fun _ _ => Or.inr (Or.inl rfl), fun left => absurd empty left,
      fun _ left => absurd empty left, (fun disarms => nomatch disarms), ?_⟩
    exact fun closes => absurd (stays.symm.trans closes) (by decide)
  · refine ⟨rfl, fun _ _ => Or.inr (Or.inl rfl), fun _ => Or.inl rfl, fun _ _ room => ?_,
      (fun disarms => nomatch disarms), ?_⟩
    · exact Or.inl (Watch.ready_modify_of_room room _ _)
    · exact fun closes => absurd (stays.symm.trans closes) (by decide)

theorem served_write (writes : v.phase = .write)
    (served : Served (v.phase.attention output) v.file v.client) :
    Served ((handleClientWrite count v).phase.attention output) (handleClientWrite count v).file
      (handleClientWrite count v).client := by
  have watched (left : v.client.writeBuffer ≠ []) : v.file.watch.output = true :=
    (served.watching left).resolve_right (by simp [Phase.attention, writes])
  have noted (stays : v.client.shouldClose = false) (readable : v.file.socket.readable = true) :
      v.file.watch.ready = true := by
    simpa [Phase.attention, writes] using served.reading stays readable
  rw [handleClientWrite]
  split_ifs with empty broken full
  · refine ⟨served.input, fun stays readable => Or.inl (noted stays readable),
      fun left => absurd empty left, fun _ left => absurd empty left, fun _ => empty, fun closes =>
        ⟨Or.inr (Or.inl rfl), (served.closing closes).2⟩⟩
  · exact served.of_closed watched (Or.inr broken) (Or.inr rfl)
  · refine ⟨served.input, fun stays readable => Or.inl (noted stays readable),
      fun left => Or.inl (watched left), fun _ _ room => absurd full (Nat.ne_of_gt room),
      (fun disarms => nomatch disarms),
      fun closes => ⟨Or.inr (Or.inr rfl), (served.closing closes).2⟩⟩
  · refine ⟨served.input, fun stays readable => Or.inl (noted stays readable),
      fun _ => Or.inl (watched empty), fun _ _ _ => Or.inr (Or.inl (Or.inl writes)), fun disarms =>
        absurd (writes.symm.trans disarms) (by decide),
      fun closes => ⟨Or.inl writes, (served.closing closes).2⟩⟩

theorem served_disarm (disarms : v.phase = .disarm)
    (served : Served (v.phase.attention output) v.file v.client) :
    Served ((server.visit output count v).phase.attention output) (server.visit output count v).file
      (server.visit output count v).client := by
  have empty : v.client.writeBuffer = [] := served.empty disarms
  simp only [visit, disarms]
  refine ⟨rfl, fun _ readable => Or.inl (Watch.ready_modify_of_readable readable _ _),
    fun left => absurd empty left, fun _ left => absurd empty left, (fun later => nomatch later),
    fun closes => ⟨Or.inr (Or.inr rfl), (served.closing closes).2⟩⟩

/-- A step with a client. -/
theorem served_visit (served : Served (v.phase.attention output) v.file v.client) :
    Served ((server.visit output count v).phase.attention output) (server.visit output count v).file
      (server.visit output count v).client := by
  cases phase : v.phase with
  | read =>
      have step : server.visit output count v = server.handleClientRead output count v :=
        by simp only [visit, phase]
      rw [step]
      exact served_read phase served
  | arm => exact served_arm phase served
  | write =>
      have step : server.visit output count v = handleClientWrite count v :=
        by simp only [visit, phase]
      rw [step]
      exact served_write phase served
  | disarm => exact served_disarm phase served
  | finish =>
      have step : server.visit output count v = v := by simp only [visit, phase]
      rw [step]
      exact served

/-- The loop takes up a client. -/
theorem served_dispatch {fd : Fd} {report : Report} {batch : List (Fd × Report)} {file : File}
    {client : ClientConnection}
    (served : Served ((Control.dispatch ((fd, report) :: batch)).attention fd) file client)
    (distinct : (fd :: batch.map Prod.fst).Nodup) :
    Served ((if report.input then Phase.read else afterRead report.output).attention report.output)
        file client := by
  have only {entry : Report} (inside : (fd, entry) ∈ (fd, report) :: batch) : entry = report := by
    rcases List.mem_cons.mp inside with same | later
    · cases same
      rfl
    · exact absurd (List.mem_map_of_mem later) (List.nodup_cons.mp distinct).1
  refine served.mono (served.stays id) ?_ ?_ False.elim ?_
  · rintro ⟨entry, inside, input⟩
    rw [only inside] at input
    rw [if_pos input]
    exact Or.inl rfl
  · rintro ⟨entry, inside, output⟩
    rw [only inside] at output
    by_cases input : report.input = true
    · rw [if_pos input]
      exact Or.inr ⟨output, Or.inl rfl⟩
    · rw [if_neg input, afterRead, if_pos output]
      exact Or.inl rfl
  · intro disarms
    split at disarms
    · exact nomatch disarms
    · rcases afterRead_cases report.output with writes | finishes
      · exact absurd (writes.symm.trans disarms) (by decide)
      · exact absurd (finishes.symm.trans disarms) (by decide)

/-- A step with a client tells it what it has to be told, and executes nothing. -/
theorem answered_visit {chunks : List Bytes} (answered : Answered v.file v.client chunks) :
    (Exists fun chunks => Answered (server.visit output count v).file
      (server.visit output count v).client chunks) ∧
      (server.visit output count v).store = v.store := by
  rcases answered with ⟨received, bounded, parser, told⟩
  cases phase : v.phase with
  | read =>
      rcases recv_cases v.file.socket count with ⟨result, _⟩ | ⟨result, _⟩ | ⟨result, _⟩
        | ⟨result, present⟩
      · simp only [visit, phase, handleClientRead, result]
        exact ⟨⟨chunks, received, bounded, parser, told⟩, trivial⟩
      · simp only [visit, phase, handleClientRead, result]
        exact ⟨⟨chunks, received, bounded, parser, told⟩, trivial⟩
      · simp only [visit, phase, handleClientRead, result]
        exact ⟨⟨chunks, received, bounded, parser, told⟩, trivial⟩
      · have noCommand := toCommand_handleChunk parser (v.file.socket.chunk bufferSize count)
        have whole := drive_snoc new chunks (v.file.socket.chunk bufferSize count)
        rw [← parser] at whole
        simp only [visit, phase, handleClientRead, result, reply_eq noCommand]
        refine ⟨⟨chunks ++ [v.file.socket.chunk bufferSize count], ?_, ?_, ?_, ?_⟩, trivial⟩
        · rw [List.flatten_append, received]
          simp [Socket.receive]
        · intro chunk inside
          rcases List.mem_append.mp inside with earlier | last
          · exact bounded chunk earlier
          · rw [List.mem_singleton.mp last]
            exact ⟨Socket.chunk_ne_nil present _ _, Socket.length_chunk_le _ (by decide) _⟩
        · rw [whole]
        · rw [whole, List.map_append, List.flatten_append, ← told]
          simp [Socket.receive]
  | arm =>
      simp only [visit, phase]
      split
      · exact ⟨⟨chunks, received, bounded, parser, told⟩, rfl⟩
      · exact ⟨⟨chunks, received, bounded, parser, told⟩, rfl⟩
  | write =>
      simp only [visit, phase, handleClientWrite]
      split_ifs
      · exact ⟨⟨chunks, received, bounded, parser, told⟩, rfl⟩
      · exact ⟨⟨chunks, received, bounded, parser, told⟩, rfl⟩
      · exact ⟨⟨chunks, received, bounded, parser, told⟩, rfl⟩
      · refine ⟨⟨chunks, received, bounded, parser, ?_⟩, rfl⟩
        rw [← told]
        exact Socket.sent_append_drop _ _ _
  | disarm =>
      simp only [visit, phase]
      exact ⟨⟨chunks, received, bounded, parser, told⟩, trivial⟩
  | finish =>
      simp only [visit, phase]
      exact ⟨⟨chunks, received, bounded, parser, told⟩, trivial⟩

end

/-! ## The whole server -/

/-- What holds of every open connection and its client still does when one of them has changed. -/
theorem forall_clients_update {files : Fd -> Option File} {clients : Fd -> Option ClientConnection}
    {P : Fd -> File -> ClientConnection -> Prop} {fd : Fd} {file : File} {client : ClientConnection}
    (here : P fd file client)
    (others : forall other file client, other ≠ fd -> files other = some file ->
      clients other = some client -> P other file client)
    (other : Fd) (now : File) (its : ClientConnection)
    (found : update files fd (some file) other = some now)
    (known : update clients fd (some client) other = some its) : P other now its := by
  rcases eq_or_ne other fd with rfl | same
  · simp only [update_self, Option.some.injEq] at found known
    exact found ▸ known ▸ here
  · simp only [update_of_ne same] at found known
    exact others other now its same found known

/-- The loop is going to accept what waits. -/
def Accepting (control : Control) (fd : Fd) : Prop :=
  (pending control.batch fd).reads ∨ Exists fun batch => control = .accept batch

/-- The descriptors and the clients belong together, the reports of a batch belong to the
descriptors that they were made for, and every client is served. -/
structure Invariant (server : EpollServer σ) (store : σ) (s : Server σ) : Prop where
  store : s.store = store
  paired : forall fd, (s.files fd).isSome = (s.clients fd).isSome
  listener : s.files server.listenFd = none
  fresh : forall socket, socket ∈ s.backlog -> socket.received = [] ∧ socket.sent = []
  noticed : s.backlog ≠ [] -> s.listening = true ∨ Accepting s.control server.listenFd
  reported : forall fd report, (fd, report) ∈ s.control.batch -> fd ≠ server.listenFd ->
    Exists fun file => s.files fd = some file ∧ (report.hangup = true -> file.socket.failed = true)
  distinct : (s.control.current.toList ++ s.control.batch.map Prod.fst).Nodup
  current : forall fd, s.control.current = some fd -> (s.files fd).isSome = true
  served : forall fd file client, s.files fd = some file -> s.clients fd = some client ->
    Served (s.control.attention fd) file client
  answered : forall fd file client, s.files fd = some file -> s.clients fd = some client ->
    Exists fun chunks => Answered file client chunks

namespace Invariant

variable {store : σ} {s : Server σ}

theorem start (server : EpollServer σ) (store : σ) : Invariant server store (start store) where
  store := rfl
  paired := fun _ => rfl
  listener := rfl
  fresh := fun _ inside => nomatch inside
  noticed := fun waiting => absurd rfl waiting
  reported := fun _ _ inside => nomatch inside
  distinct := List.nodup_nil
  current := fun _ there => nomatch there
  served := fun _ _ _ there => nomatch there
  answered := fun _ _ _ there => nomatch there

variable {fd : Fd} {file : File} {client : ClientConnection}

theorem ne_listenFd (invariant : Invariant server store s) (found : s.files fd = some file) :
    fd ≠ server.listenFd := by
  rintro rfl
  exact nomatch found.symm.trans invariant.listener

/-- The client of an open descriptor. -/
theorem exists_client (invariant : Invariant server store s) (found : s.files fd = some file) :
    Exists fun client => s.clients fd = some client := by
  rw [← Option.isSome_iff_exists, ← invariant.paired fd, found]
  rfl

/-- Unless the loop accepts connections, those that wait are noted or in the batch. -/
theorem noted (invariant : Invariant server store s) {control : Control}
    (there : s.control = control) (others : forall batch, control ≠ .accept batch)
    (waiting : s.backlog ≠ []) :
    s.listening = true ∨ (pending control.batch server.listenFd).reads := by
  have noticed := invariant.noticed waiting
  rw [there] at noticed
  exact noticed.imp id fun accepting => accepting.resolve_right fun ⟨batch, accepts⟩ =>
    others batch accepts

variable {batch : List (Fd × Report)}

variable (invariant : Invariant server store s)

include invariant

/-- What the loop attends to at the client that it is with. -/
theorem handled {phase : Phase} {output : Bool} (there : s.control = .handle phase fd output batch)
    (found : s.files fd = some file) (known : s.clients fd = some client) :
    Served (phase.attention output) file client := by
  have served := invariant.served fd file client found known
  rw [there, Control.attention, if_pos rfl] at served
  exact served

/-- The loop moves on, with the same batch and with no client. -/
theorem move {control next : Control} (there : s.control = control)
    (batch : next.batch = control.batch) (before : control.current = none)
    (after : next.current = none)
    (noticed : s.backlog ≠ [] -> s.listening = true ∨ Accepting next server.listenFd) :
    Invariant server store { s with control := next } where
  store := invariant.store
  paired := invariant.paired
  listener := invariant.listener
  fresh := invariant.fresh
  noticed := noticed
  reported := by
    intro fd report inside
    rw [batch, ← there] at inside
    exact invariant.reported fd report inside
  distinct := by
    have distinct := invariant.distinct
    rw [there, before] at distinct
    simpa [after, batch] using distinct
  current := fun fd there => nomatch after.symm.trans there
  served := by
    intro fd file client found known
    rw [Control.attention_of_ne (by simp [after]), batch,
      ← Control.attention_of_ne (by simp [before]), ← there]
    exact invariant.served fd file client found known
  answered := invariant.answered

theorem connect (room : Nat) :
    Invariant server store (server.step s (.connect room)) :=
  { invariant with
    fresh := by
      intro socket inside
      rcases List.mem_append.mp inside with before | new
      · exact invariant.fresh socket before
      · rw [List.mem_singleton.mp new]
        exact ⟨rfl, rfl⟩
    noticed := fun _ => Or.inl rfl }

theorem waiting (position : Nat) (traffic : Traffic UInt8) :
    Invariant server store (server.step s (.waiting position traffic)) :=
  { invariant with
    fresh := by
      intro socket inside
      rcases List.mem_iff_getElem?.mp inside with ⟨index, there⟩
      simp only [step, List.getElem?_modify] at there
      rcases Option.map_eq_some_iff.mp there with ⟨before, found, rfl⟩
      have old := invariant.fresh before (List.mem_of_getElem? found)
      split
      · simpa using old
      · exact old
    noticed := by
      intro nonempty
      refine invariant.noticed fun empty => nonempty ?_
      change s.backlog.modify position _ = []
      simp [empty] }

theorem traffic (fd : Fd) (traffic : Traffic UInt8) :
    Invariant server store (server.step s (.traffic fd traffic)) := by
  -- every descriptor is as before, or the traffic has happened to its socket
  have files (other : Fd) : Exists fun change : File -> File =>
      (server.step s (.traffic fd traffic)).files other = (s.files other).map change ∧
        (change = id ∨ change = fun file => File.after file traffic) := by
    rcases eq_or_ne other fd with rfl | same
    · exact ⟨_, update_self _ _ _, Or.inr rfl⟩
    · exact ⟨id, by rw [Option.map_id]; exact update_of_ne same _ _, Or.inl rfl⟩
  refine ⟨invariant.store, ?_, ?_, invariant.fresh, invariant.noticed, ?_,
    invariant.distinct, ?_, ?_, ?_⟩
  · intro other
    rcases files other with ⟨change, now, _⟩
    rw [now, Option.isSome_map]
    exact invariant.paired other
  · rcases files server.listenFd with ⟨change, now, _⟩
    rw [now, invariant.listener]
    rfl
  · intro other report inside notListener
    rcases files other with ⟨change, now, rfl | rfl⟩
    · rcases invariant.reported other report inside notListener with ⟨file, found, broken⟩
      exact ⟨file, now.trans (congrArg (Option.map id) found), broken⟩
    · rcases invariant.reported other report inside notListener with ⟨file, found, broken⟩
      exact ⟨File.after file traffic, now.trans (congrArg (Option.map _) found),
        fun hangup => Socket.failed_after (broken hangup) traffic⟩
  · intro other there
    rcases files other with ⟨change, now, _⟩
    rw [now, Option.isSome_map]
    exact invariant.current other there
  · intro other file client found there
    rcases files other with ⟨change, now, kind⟩
    rw [now] at found
    rcases Option.map_eq_some_iff.mp found with ⟨before, was, rfl⟩
    rcases kind with rfl | rfl
    · exact invariant.served other before client was there
    · exact (invariant.served other before client was there).after traffic
  · intro other file client found there
    rcases files other with ⟨change, now, kind⟩
    rw [now] at found
    rcases Option.map_eq_some_iff.mp found with ⟨before, was, rfl⟩
    rcases invariant.answered other before client was there with ⟨chunks, answered⟩
    rcases kind with rfl | rfl
    · exact ⟨chunks, answered⟩
    · refine ⟨chunks, ?_, answered.2.1, answered.2.2.1, ?_⟩
      · exact answered.1.trans (Socket.received_after _ _).symm
      · rw [← answered.2.2.2]
        exact congrArg (· ++ client.writeBuffer) (Socket.sent_after _ _)

/-- A descriptor is closed that the loop is through with. -/
theorem close
    (rest : forall other report, (other, report) ∈ batch -> (other, report) ∈ s.control.batch)
    (attends : forall other, other ≠ fd -> s.control.attention other = pending batch other)
    (distinct : (fd :: batch.map Prod.fst).Nodup)
    (accepting : s.backlog ≠ [] -> s.listening = true ∨ (pending batch server.listenFd).reads) :
    Invariant server store { closeClient s fd with control := .dispatch batch } where
  store := invariant.store
  paired := by
    intro other
    rcases eq_or_ne other fd with rfl | same
    · simp [closeClient]
    · simpa [closeClient, same] using invariant.paired other
  listener := by
    by_cases same : server.listenFd = fd
    · simp [closeClient, same]
    · simpa [closeClient, same] using invariant.listener
  fresh := invariant.fresh
  noticed := fun waiting => (accepting waiting).imp id Or.inl
  reported := by
    intro other report inside notListener
    have different : other ≠ fd := by
      rintro rfl
      exact (List.nodup_cons.mp distinct).1 (List.mem_map_of_mem inside)
    rcases invariant.reported other report (rest other report inside) notListener with
      ⟨file, found, broken⟩
    exact ⟨file, (update_of_ne different _ _).trans found, broken⟩
  distinct := (List.nodup_cons.mp distinct).2
  current := fun _ there => nomatch there
  served := by
    intro other file client found there
    have different : other ≠ fd := by
      rintro rfl
      simp [closeClient] at found
    simp only [closeClient, update_of_ne different] at found there
    have served := invariant.served other file client found there
    rw [attends other different] at served
    exact served
  answered := by
    intro other file client found there
    have different : other ≠ fd := by
      rintro rfl
      simp [closeClient] at found
    simp only [closeClient, update_of_ne different] at found there
    exact invariant.answered other file client found there

/-- A note is forgotten, and what it was about is in the batch. -/
theorem harvest {batch rest : List (Fd × Report)} (waits : s.control = .wait batch)
    (found : s.files fd = some file) (grows : forall entry, entry ∈ batch -> entry ∈ rest)
    (only : forall entry, entry ∈ rest -> entry ∈ batch ∨
      entry = (fd, file.watch.report file.socket))
    (complete : (file.watch.report file.socket).any = true ->
      (fd, file.watch.report file.socket) ∈ rest)
    (distinct : (rest.map Prod.fst).Nodup) :
    Invariant server store
      { s with
        files := update s.files fd (some { file with watch := file.watch.harvest })
        control := .wait rest } := by
  have attends (other : Fd) : s.control.attention other = pending batch other := by
    rw [waits]
    rfl
  refine ⟨invariant.store, ?_, ?_, invariant.fresh, ?_, ?_, distinct,
    (fun _ there => nomatch there), ?_, ?_⟩
  · intro other
    rcases eq_or_ne other fd with rfl | same
    · simpa [found] using invariant.paired other
    · simpa [same] using invariant.paired other
  · have different := (invariant.ne_listenFd found).symm
    simpa [different] using invariant.listener
  · intro waiting
    refine (invariant.noted waits (by simp) waiting).imp id ?_
    rintro ⟨report, inside, input⟩
    exact Or.inl ⟨report, grows _ inside, input⟩
  · intro other report inside notListener
    rcases eq_or_ne other fd with rfl | same
    · refine ⟨_, update_self _ _ _, fun hangup => ?_⟩
      rcases only _ inside with before | new
      · have there : (other, report) ∈ s.control.batch := by
          rw [waits]
          exact before
        rcases invariant.reported other report there notListener with ⟨known, foundBefore, broken⟩
        cases found.symm.trans foundBefore
        exact broken hangup
      · cases new
        exact hangup
    · rcases only _ inside with before | new
      · have there : (other, report) ∈ s.control.batch := by
          rw [waits]
          exact before
        rcases invariant.reported other report there notListener with ⟨known, foundBefore, broken⟩
        exact ⟨known, (update_of_ne same _ _).trans foundBefore, broken⟩
      · cases new
        exact absurd rfl same
  · intro other current client there known
    rcases eq_or_ne other fd with rfl | same
    · cases (update_self _ _ _).symm.trans there
      have served := invariant.served other file client found known
      rw [attends] at served
      exact served.harvest (fun input => ⟨_, complete (by simp [Report.any, input]), input⟩)
        (fun output => ⟨_, complete (by simp [Report.any, output]), output⟩)
    · have served := invariant.served other current client
        ((update_of_ne same _ _).symm.trans there) known
      rw [attends] at served
      exact served.grow grows
  · intro other current client there known
    rcases eq_or_ne other fd with rfl | same
    · cases (update_self _ _ _).symm.trans there
      exact invariant.answered other file client found known
    · exact invariant.answered other current client ((update_of_ne same _ _).symm.trans there) known

/-- `epoll_wait` takes a descriptor into its batch. -/
theorem collect (waits : s.control = .wait batch) (fd : Fd) :
    Invariant server store (server.collect s fd batch) := by
  have before : (batch.map Prod.fst).Nodup := by
    simpa [waits, Control.current, Control.batch] using invariant.distinct
  rw [EpollServer.collect]
  split
  · exact invariant
  rename_i absent
  have distinct (report : Report) : ((batch ++ [(fd, report)]).map Prod.fst).Nodup := by
    rw [List.map_append, List.map_singleton, ← List.concat_eq_append]
    exact (List.nodup_concat _ _).mpr
      ⟨fun inside => absent (List.contains_iff_mem.mpr inside), before⟩
  split
  · rename_i listener
    split
    · refine ⟨invariant.store, invariant.paired, invariant.listener, invariant.fresh,
        fun _ => Or.inr (Or.inl ?_), ?_, distinct _, (fun _ there => nomatch there), ?_,
          invariant.answered⟩
      · rw [← listener]
        exact ⟨_, List.mem_append_right _ (List.mem_singleton_self _), rfl⟩
      · intro other report inside notListener
        rcases List.mem_append.mp inside with old | new
        · apply invariant.reported other report ?_ notListener
          rw [waits]
          exact old
        · cases List.mem_singleton.mp new
          exact absurd listener notListener
      · intro other file client found there
        have served := invariant.served other file client found there
        rw [waits] at served
        exact Served.grow served fun _ inside => List.mem_append_left _ inside
    · exact invariant
  · split
    · exact invariant
    rename_i file found
    split
    · split
      · exact invariant.harvest waits found (fun _ inside => List.mem_append_left _ inside)
          (fun _ inside => (List.mem_append.mp inside).imp id List.mem_singleton.mp)
          (fun _ => List.mem_append_right _ (List.mem_singleton_self _)) (distinct _)
      · rename_i nothing
        exact invariant.harvest waits found (fun _ inside => inside) (fun _ inside => Or.inl inside)
          (fun some => absurd some nothing) before
    · exact invariant

/-- A step with a client. -/
theorem visit {phase : Phase} {output : Bool} (there : s.control = .handle phase fd output batch)
    (found : s.files fd = some file) (known : s.clients fd = some client) (count : Nat) :
    Invariant server store
      { s with
        files := update s.files fd
          (some (server.visit output count ⟨phase, file, client, s.store⟩).file)
        clients := update s.clients fd
          (some (server.visit output count ⟨phase, file, client, s.store⟩).client)
        store := (server.visit output count ⟨phase, file, client, s.store⟩).store
        control := .handle (server.visit output count ⟨phase, file, client, s.store⟩).phase fd
            output batch } := by
  have attends {other : Fd} (different : other ≠ fd) : s.control.attention other =
      pending batch other := by
    rw [there, Control.attention, if_neg different.symm]
  have distinct : (fd :: batch.map Prod.fst).Nodup :=
    by simpa [there, Control.current, Control.batch] using invariant.distinct
  rcases invariant.answered fd file client found known with ⟨chunks, answered⟩
  have told := @answered_visit σ server ⟨phase, file, client, s.store⟩ output count chunks answered
  have still := @served_visit σ server ⟨phase, file, client, s.store⟩ output count
    (invariant.handled there found known)
  generalize server.visit output count ⟨phase, file, client, s.store⟩ = v at told still
  refine ⟨told.2.trans invariant.store, ?_, ?_, invariant.fresh, ?_, ?_, distinct, ?_, ?_, ?_⟩
  · intro other
    rcases eq_or_ne other fd with rfl | same
    · simp
    · simpa [same] using invariant.paired other
  · have different := (invariant.ne_listenFd found).symm
    simpa [different] using invariant.listener
  · exact fun waiting => (invariant.noted there (by simp) waiting).imp id Or.inl
  · intro other report inside notListener
    have different : other ≠ fd := by
      rintro rfl
      exact (List.nodup_cons.mp distinct).1 (List.mem_map_of_mem inside)
    have before : (other, report) ∈ s.control.batch := by rw [there]; exact inside
    rcases invariant.reported other report before notListener with ⟨file, found, broken⟩
    exact ⟨file, (update_of_ne different _ _).trans found, broken⟩
  · intro other same
    cases same
    simp
  · refine forall_clients_update ?_ fun other file client different found known => ?_
    · rw [Control.attention, if_pos rfl]
      exact still
    · rw [Control.attention, if_neg (Ne.symm different), ← attends different]
      exact invariant.served other file client found known
  · exact forall_clients_update told.1 fun other file client _ => invariant.answered other file client

/-- A connection is accepted. -/
theorem accept (there : s.control = .accept batch) {socket : Socket UInt8}
    {backlog : List (Socket UInt8)} (waiting : s.backlog = socket :: backlog)
    (notListener : fd ≠ server.listenFd) (unused : s.files fd = none) :
    Invariant server store
      { s with
        backlog := backlog
        files := update s.files fd
          (some ⟨socket, (⟨true, false, false⟩ : Watch).modify true false socket⟩)
        clients := update s.clients fd (some ClientConnection.opened) } := by
  rcases invariant.fresh socket (waiting ▸ List.mem_cons_self) with ⟨unread, unsent⟩
  refine ⟨invariant.store, ?_, ?_, ?_, fun _ => Or.inr (Or.inr ⟨batch, there⟩), ?_,
    invariant.distinct, ?_, ?_, ?_⟩
  · intro other
    rcases eq_or_ne other fd with rfl | same
    · simp
    · simpa [same] using invariant.paired other
  · simpa [notListener.symm] using invariant.listener
  · exact fun other inside => invariant.fresh other (waiting ▸ List.mem_cons_of_mem _ inside)
  · intro other report inside different
    rcases invariant.reported other report inside different with ⟨file, found, broken⟩
    have same : other ≠ fd := by
      rintro rfl
      exact nomatch unused.symm.trans found
    exact ⟨file, (update_of_ne same _ _).trans found, broken⟩
  · intro other same
    exact nomatch (show (none : Option Fd) = some other by rw [← same, there]; rfl)
  · refine forall_clients_update ?_ fun other file client _ => invariant.served other file client
    exact ⟨rfl, fun _ readable => Or.inl (Watch.ready_modify_of_readable readable _ _),
      fun left => absurd rfl left, fun _ left => absurd rfl left, fun _ => rfl,
        (fun closes => nomatch closes)⟩
  · refine forall_clients_update ?_ fun other file client _ => invariant.answered other file client
    refine ⟨[], unread.symm, (fun chunk inside => nomatch inside), rfl, ?_⟩
    exact congrArg (· ++ []) unsent

theorem acceptConnection (there : s.control = .accept batch) (choice : Choice) :
    Invariant server store (server.acceptConnection s choice batch) := by
  rw [EpollServer.acceptConnection]
  split
  · exact invariant
  split
  · rename_i nobody
    exact invariant.move there rfl rfl rfl fun waiting => absurd nobody waiting
  · rename_i socket backlog waiting
    split_ifs with used added
    · exact invariant
    · have unused : s.files choice.fd = none := by
        rw [← Option.not_isSome_iff_eq_none]
        exact fun present => used (Or.inr present)
      exact invariant.accept there waiting (fun listener => used (Or.inl listener)) unused
    · exact
        { invariant with
          fresh := fun other inside => invariant.fresh other (waiting ▸ List.mem_cons_of_mem _ inside)
          noticed := fun _ => Or.inr (Or.inr ⟨batch, there⟩) }

/-- The loop comes to the next report of its batch. -/
theorem dispatch {report : Report} (there : s.control = .dispatch ((fd, report) :: batch)) :
    Invariant server store (server.dispatch s fd report batch) := by
  have distinct : (fd :: batch.map Prod.fst).Nodup := by
    simpa [there, Control.current, Control.batch] using invariant.distinct
  have later (other : Fd) (entry : Report) (inside : (other, entry) ∈ batch) :
      (other, entry) ∈ s.control.batch := by
    rw [there]
    exact List.mem_cons_of_mem _ inside
  have attends {other : Fd} (different : other ≠ fd) : s.control.attention other =
      pending batch other := by
    rw [there]
    simp [Control.attention, Control.batch, pending, different]
  have accepting (different : fd ≠ server.listenFd) (waiting : s.backlog ≠ []) :
      s.listening = true ∨ (pending batch server.listenFd).reads := by
    refine (invariant.noted there (by simp) waiting).imp id ?_
    rintro ⟨entry, inside, input⟩
    rcases List.mem_cons.mp inside with same | inside
    · cases same
      exact absurd rfl different
    · exact ⟨entry, inside, input⟩
  rw [EpollServer.dispatch]
  split
  · rename_i listener
    refine ⟨invariant.store, invariant.paired, invariant.listener, invariant.fresh, ?_, ?_, ?_, ?_,
      ?_, invariant.answered⟩
    · intro waiting
      refine (invariant.noted there (by simp) waiting).imp id ?_
      rintro ⟨entry, inside, input⟩
      rcases List.mem_cons.mp inside with same | inside
      · cases same
        exact Or.inr ⟨batch, if_pos input⟩
      · refine Or.inl ⟨entry, ?_, input⟩
        split <;> exact inside
    · intro other entry inside
      apply invariant.reported other entry
      apply later
      split at inside <;> exact inside
    · split <;> exact (List.nodup_cons.mp distinct).2
    · intro other same
      split at same <;> exact nomatch same
    · intro other file client found known
      have served := invariant.served other file client found known
      have different : other ≠ fd := fun same => invariant.ne_listenFd found (same.trans listener)
      rw [attends different] at served
      split <;> exact served
  · rename_i notListener
    rcases invariant.reported fd report (by rw [there]; exact List.mem_cons_self) notListener with
      ⟨file, found, broken⟩
    rcases invariant.exists_client found with ⟨client, known⟩
    rw [known]
    dsimp only
    split
    · exact invariant.close later (fun _ => attends) distinct (accepting notListener)
    · refine ⟨invariant.store, invariant.paired, invariant.listener, invariant.fresh,
        fun waiting => (accepting notListener waiting).imp id Or.inl,
        fun other entry inside => invariant.reported other entry (later other entry inside),
        distinct, ?_, ?_, invariant.answered⟩
      · intro other same
        cases same
        rw [found]
        rfl
      · intro other file client found known
        have served := invariant.served other file client found known
        rcases eq_or_ne other fd with rfl | same
        · rw [Control.attention, if_pos rfl]
          exact served_dispatch (there ▸ served) distinct
        · rw [Control.attention, if_neg (Ne.symm same), ← attends same]
          exact served

/-- The loop leaves a client. -/
theorem finish {output : Bool} (there : s.control = .handle .finish fd output batch)
    (found : s.files fd = some file) (known : s.clients fd = some client) :
    Invariant server store
      { (if client.shouldClose then closeClient s fd else s) with control := .dispatch batch } := by
  have distinct : (fd :: batch.map Prod.fst).Nodup := by
    simpa [there, Control.current, Control.batch] using invariant.distinct
  have later (other : Fd) (entry : Report) (inside : (other, entry) ∈ batch) :
      (other, entry) ∈ s.control.batch := by
    rw [there]
    exact inside
  have attends {other : Fd} (different : other ≠ fd) : s.control.attention other =
      pending batch other := by
    rw [there, Control.attention, if_neg different.symm]
  have accepting (waiting : s.backlog ≠ []) : s.listening = true ∨
      (pending batch server.listenFd).reads :=
    invariant.noted there (by simp) waiting
  split
  · exact invariant.close later (fun _ => attends) distinct accepting
  · rename_i stays
    refine ⟨invariant.store, invariant.paired, invariant.listener, invariant.fresh,
      fun waiting => (accepting waiting).imp id Or.inl,
      fun other entry inside => invariant.reported other entry (later other entry inside),
      (List.nodup_cons.mp distinct).2, (fun _ same => nomatch same), ?_, invariant.answered⟩
    intro other file' client' found' known'
    rcases eq_or_ne other fd with rfl | same
    · cases known.symm.trans known'
      exact (invariant.handled there found' known').mono (Bool.eq_false_iff.mpr stays)
        (fun reads => by simp [Phase.attention] at reads)
        (fun writes => by simp [Phase.attention] at writes) (fun arms => nomatch arms) False.elim
    · have served := invariant.served other file' client' found' known'
      rw [attends same] at served
      exact served

/-- The loop goes on. -/
theorem turn (choice : Choice) :
    Invariant server store (server.turn s choice) := by
  rw [EpollServer.turn]
  split
  · rename_i batch there
    rw [epollWait]
    split_ifs with failed returns
    · rw [failed.2] at there
      exact invariant.move there rfl rfl rfl fun waiting =>
        (invariant.noted there (by simp) waiting).imp id Or.inl
    · exact invariant.move there rfl rfl rfl fun waiting =>
        (invariant.noted there (by simp) waiting).imp id Or.inl
    · exact invariant.collect there choice.fd
  · rename_i there
    exact invariant.move there rfl rfl rfl fun waiting =>
      (invariant.noted there (by simp) waiting).imp id Or.inl
  · rename_i there
    exact invariant.dispatch there
  · rename_i there
    exact invariant.acceptConnection there choice
  · rename_i phase fd output batch there
    split
    · rename_i file client found known
      split
      · rename_i finishes
        subst finishes
        exact invariant.finish there found known
      · exact invariant.visit there found known choice.count
    · exact invariant
  · exact invariant

end Invariant

theorem invariant_run (server : EpollServer σ) (store : σ) (events : List ServerEvent) :
    Invariant server store (server.run store events) := by
  induction events using List.reverseRecOn with
  | nil => exact Invariant.start server store
  | append_singleton events event ih =>
      rw [run, List.foldl_append]
      cases event with
      | connect room => exact ih.connect room
      | waiting position traffic => exact ih.waiting position traffic
      | traffic fd traffic => exact ih.traffic fd traffic
      | turn choice => exact ih.turn choice

/-- The loop waits, and the kernel has noted nothing that would wake it. -/
def Idle (s : Server σ) : Prop :=
  s.control = .wait [] ∧ s.listening = false ∧ forall fd file, s.files fd = some file ->
    file.watch.ready = false

theorem run_snoc (server : EpollServer σ) (store : σ) (events : List ServerEvent)
    (event : ServerEvent) :
    server.run store (events ++ [event]) = server.step (server.run store events) event := by
  rw [run, List.foldl_append]
  rfl

/-- What a step of the loop does to the descriptors:  it writes one that is open, opens
the one that the kernel has named, or closes one whose other end has closed or whose
connection is broken. -/
inductive Turned (s : Server σ) (choice : Choice) : (Fd -> Option File) -> Prop where
  | same : Turned s choice s.files
  | written {fd : Fd} {known : File} (found : s.files fd = some known) (file : File) :
      Turned s choice (update s.files fd (some file))
  | opened (file : File) : Turned s choice (update s.files choice.fd (some file))
  | closed {fd : Fd} (broken : forall file, s.files fd = some file -> file.socket.ended = true ∨
      file.socket.failed = true) : Turned s choice (update s.files fd none)

theorem turned_turn {store : σ} {s : Server σ} (invariant : Invariant server store s)
    (choice : Choice) :
    Turned s choice (server.turn s choice).files := by
  rw [turn]
  split
  · rw [epollWait, collect]
    split_ifs
    · exact .same
    · exact .same
    · exact .same
    · exact .same
    · exact .same
    · split
      · exact .same
      · rename_i found
        split
        · exact .written found _
        · exact .same
  · exact .same
  · rename_i fd report batch there
    rw [dispatch]
    split
    · exact .same
    · rename_i notListener
      split
      · exact .same
      · split
        · rename_i hangup
          refine .closed fun file found => ?_
          rcases invariant.reported fd report (by rw [there]; exact List.mem_cons_self)
            notListener with ⟨known, same, broken⟩
          cases found.symm.trans same
          exact Or.inr (broken hangup)
        · exact .same
  · rw [acceptConnection]
    split
    · exact .same
    split
    · exact .same
    · split_ifs
      · exact .same
      · exact .opened _
      · exact .same
  · split
    · rename_i found known
      split
      · split
        · rename_i shouldClose
          refine .closed fun file same => ?_
          cases found.symm.trans same
          exact ((invariant.served _ _ _ found known).closing shouldClose).2
        · exact .same
      · exact .written found _
    · exact .same
  · exact .same

/-- A descriptor that the loop opens is the one that the kernel has named. -/
theorem Turned.opens {s : Server σ} {choice : Choice} {files : Fd -> Option File}
    (turned : Turned s choice files) {fd : Fd} (unused : s.files fd = none)
    (opened : files fd ≠ none) : choice.fd = fd := by
  by_contra different
  refine opened ?_
  cases turned with
  | same => exact unused
  | written found file =>
      rw [update_of_ne (by rintro rfl; exact nomatch unused.symm.trans found), unused]
  | opened file => rw [update_of_ne (Ne.symm different), unused]
  | closed broken => simp [update_apply, unused]

/-- A descriptor that the loop closes had no other end. -/
theorem Turned.closes {s : Server σ} {choice : Choice} {files : Fd -> Option File}
    (turned : Turned s choice files) {fd : Fd} {file : File} (found : s.files fd = some file)
    (gone : files fd = none) :
    file.socket.ended = true ∨ file.socket.failed = true := by
  cases turned with
  | same => exact nomatch gone.symm.trans found
  | written known written => simp [update_apply, found, ite_eq_iff] at gone
  | opened opened => simp [update_apply, found, ite_eq_iff] at gone
  | @closed other broken =>
      have same : fd = other := by
        by_contra different
        exact nomatch ((update_of_ne different _ _).symm.trans gone).symm.trans found
      exact broken file (same ▸ found)

/-- The descriptors that the kernel has named. -/
def named (events : List ServerEvent) : List Fd :=
  events.filterMap fun event => match event with
    | .turn choice => some choice.fd
    | _ => none

theorem mem_named_of_open (server : EpollServer σ) (store : σ) (events : List ServerEvent) {fd : Fd}
    (opened : (server.run store events).files fd ≠ none) : fd ∈ named events := by
  induction events using List.reverseRecOn with
  | nil => exact absurd rfl opened
  | append_singleton events event ih =>
      rw [named, List.filterMap_append, List.mem_append]
      by_cases before : (server.run store events).files fd = none
      · refine Or.inr ?_
        rw [run_snoc] at opened
        cases event with
        | connect room => exact absurd before opened
        | waiting position traffic => exact absurd before opened
        | traffic other traffic =>
            refine absurd ?_ opened
            rcases eq_or_ne fd other with rfl | same
            · simp [step, before]
            · exact (update_of_ne same _ _).trans before
        | turn choice =>
            rw [← (turned_turn (invariant_run server store events) choice).opens before opened]
            exact List.mem_singleton_self _
      · exact Or.inl (ih before)

/-- A descriptor is closed only when the other end has closed, or the connection is broken. -/
theorem closed_of_step {store : σ} {s : Server σ} (invariant : Invariant server store s)
    {event : ServerEvent} {fd : Fd} {file : File} (found : s.files fd = some file)
    (gone : (server.step s event).files fd = none) :
    file.socket.ended = true ∨ file.socket.failed = true := by
  cases event with
  | connect room => exact nomatch gone.symm.trans found
  | waiting position traffic => exact nomatch gone.symm.trans found
  | traffic other traffic =>
      rcases eq_or_ne fd other with rfl | same
      · simp [step, found] at gone
      · exact nomatch ((update_of_ne same _ _).symm.trans gone).symm.trans found
  | turn choice => exact (turned_turn invariant choice).closes found gone

/-- Whatever the clients and the kernel do:  the data of a client are received in chunks, each value
in them is answered with the same error, and what was sent and what is left to send are these
answers in order.  The handler of the commands is never called. -/
theorem replies_in_order (server : EpollServer σ) (store : σ) (events : List ServerEvent) :
    (server.run store events).store = store ∧
      forall fd file client, (server.run store events).files fd = some file ->
        (server.run store events).clients fd = some client ->
        Exists fun chunks : List Bytes =>
          chunks.flatten ++ file.socket.inbox = file.socket.arrived ∧
            (forall chunk, chunk ∈ chunks -> chunk ≠ [] ∧ chunk.length ≤ bufferSize) ∧
            file.socket.sent ++ client.writeBuffer =
              ((drive new chunks).2.map fun _ => invalidCommand).flatten := by
  have invariant := invariant_run server store events
  refine ⟨invariant.store, fun fd file client found known => ?_⟩
  rcases invariant.answered fd file client found known with ⟨chunks, received, bounded, _, told⟩
  exact ⟨chunks, congrArg (· ++ file.socket.inbox) received, bounded, told⟩

/-- A handler that counts its calls. -/
def counting : EpollServer Nat := ⟨3, some fun calls _ => (calls + 1, [])⟩

/-- The loop goes on, and the kernel names a descriptor or moves this many bytes. -/
def go (number : Nat) : ServerEvent := .turn ⟨number, number, false, false, true, true⟩

/-- `epoll_wait` returns. -/
def returnBatch : ServerEvent := .turn ⟨5, 0, true, false, true, true⟩

/-- A client connects at descriptor 5 and sends a simple string. -/
def greeting : List ServerEvent :=
  [.connect 100, go 3, returnBatch, go 5, go 5, go 5, go 5, .traffic 5 (.arrive [43, 65, 13, 10]),
    go 5, returnBatch, go 5, go 5, go 5, go 5, go 5, go 5]

/-- The error is sent in a second round, in five parts. -/
def answering : List ServerEvent :=
  greeting ++ [go 5, returnBatch, go 5, go 5, go 5, go 5, go 5, go 5, go 5, go 5, go 5, go 5]

theorem replies_in_order_greeting :
    ((counting.run 0 answering).store = 0 ∧
      Exists fun file => Exists fun client => (counting.run 0 answering).files 5 = some file ∧
        (counting.run 0 answering).clients 5 = some client ∧ file.socket.sent = invalidCommand ∧
        Exists fun chunks : List Bytes =>
          chunks.flatten ++ file.socket.inbox = file.socket.arrived ∧
            file.socket.sent ++ client.writeBuffer =
              ((drive new chunks).2.map fun _ => invalidCommand).flatten) := by
  have result := replies_in_order counting 0 answering
  have sent : ((counting.run 0 answering).files 5).map (fun file => file.socket.sent) =
      some invalidCommand := by
    decide +kernel
  have present : ((counting.run 0 answering).clients 5).isSome = true := by decide +kernel
  rcases Option.map_eq_some_iff.mp sent with ⟨file, found, told⟩
  rcases Option.isSome_iff_exists.mp present with ⟨client, known⟩
  rcases result.2 5 file client found known with ⟨chunks, arrived, _, answers⟩
  exact ⟨result.1, file, client, found, known, told, chunks, arrived, answers⟩

/-- The loop never sleeps while there is something to do.  When it waits and nothing is noted, all
connections are accepted, all data are received, the connections that the other end has closed or
that are broken are closed, and what is left to send finds no room.  No other connection that has
been added to the watched ones is ever closed, and each of those has its client. -/
theorem idle_served (server : EpollServer σ) (store : σ) (events : List ServerEvent) :
    (Idle (server.run store events) -> (server.run store events).backlog = [] ∧
        forall fd file client, (server.run store events).files fd = some file ->
          (server.run store events).clients fd = some client ->
          file.socket.inbox = [] ∧ file.socket.ended = false ∧ file.socket.failed = false ∧
            (client.writeBuffer = [] ∨ file.socket.room = 0)) ∧
      (forall fd, ((server.run store events).files fd).isSome =
        ((server.run store events).clients fd).isSome) ∧
      forall event fd file, (server.run store events).files fd = some file ->
        (server.run store (events ++ [event])).files fd = none ->
        file.socket.ended = true ∨ file.socket.failed = true := by
  have invariant := invariant_run server store events
  refine ⟨?_, invariant.paired, fun event fd file found gone => ?_⟩
  · rintro ⟨waits, unnoticed, unready⟩
    have nothing : forall fd, (server.run store events).control.attention fd = pending [] fd := by
      intro fd
      rw [waits]
      rfl
    constructor
    · by_contra waiting
      rcases invariant.noted waits (by simp) waiting with noted | ⟨_, inside, _⟩
      · exact absurd (unnoticed.symm.trans noted) (by decide)
      · exact nomatch inside
    · intro fd file client found known
      have served := invariant.served fd file client found known
      rw [nothing] at served
      have stays : client.shouldClose = false := served.stays id
      have unnoted : ¬ file.watch.ready = true := by simp [unready fd file found]
      have unreadable : file.socket.readable = false := by
        by_contra readable
        rcases served.reading stays (Bool.not_eq_false _ ▸ readable) with noted | ⟨_, inside, _⟩
        · exact unnoted noted
        · exact nomatch inside
      rcases Socket.readable_eq_false_iff.mp unreadable with ⟨empty, unended, unbroken⟩
      refine ⟨empty, unended, unbroken, ?_⟩
      by_contra unfinished
      rcases not_or.mp unfinished with ⟨left, room⟩
      rcases served.writing stays left (Nat.pos_of_ne_zero room) with noted | ⟨_, inside, _⟩ | arms
      · exact unnoted noted
      · exact nomatch inside
      · exact arms
  · rw [run_snoc] at gone
    exact closed_of_step invariant found gone

theorem idle_answering : Idle (counting.run 0 answering) := by
  have facts : (counting.run 0 answering).control = .wait [] ∧
      (counting.run 0 answering).listening = false ∧
      ((counting.run 0 answering).files 5).all (fun file => !file.watch.ready) = true := by
    decide +kernel
  rcases facts with ⟨waits, unnoticed, unready⟩
  refine ⟨waits, unnoticed, fun fd file opened => ?_⟩
  have names : forall fd, fd ∈ named answering -> fd = 3 ∨ fd = 5 := by decide
  rcases names fd (mem_named_of_open counting 0 answering (by simp [opened])) with rfl | rfl
  · exact absurd rfl ((invariant_run counting 0 answering).ne_listenFd opened)
  · simpa [opened] using unready

/-- After the answer the client has everything. -/
theorem idle_served_answering :
    Idle (counting.run 0 answering) ∧
      Exists fun file => Exists fun client => (counting.run 0 answering).files 5 = some file ∧
        (counting.run 0 answering).clients 5 = some client ∧ file.socket.room = 78 ∧
          file.socket.inbox = [] ∧
        client.writeBuffer = [] := by
  have facts : ((counting.run 0 answering).files 5).map (fun file => file.socket.room) = some 78 ∧
      ((counting.run 0 answering).clients 5).isSome = true := by
    decide +kernel
  rcases facts with ⟨room, present⟩
  rcases Option.map_eq_some_iff.mp room with ⟨file, found, enough⟩
  rcases Option.isSome_iff_exists.mp present with ⟨client, known⟩
  rcases ((idle_served counting 0 answering).1 idle_answering).2 5 file client found known with
    ⟨empty, _, _, sent⟩
  exact ⟨idle_answering, file, client, found, known, enough, empty, sent.resolve_right (by omega)⟩

end EpollServer

end Resp
end KVStore
