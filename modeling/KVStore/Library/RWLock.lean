import Mathlib.Data.List.Basic

namespace KVStore
namespace RWLock

/-!
# Programs over a readers-writer lock

Threads run programs whose instructions take and release one readers-writer lock
or act on shared data.  The lock prefers writers: a writer announces itself when
no other writer is there, and waits until the readers have left; from then on
every new reader waits, also one that holds the lock already.  A writer that
leaves lets all waiting readers in.

A reader that takes the lock again while a writer waits for it to leave blocks
both.  If no writer announces itself while some reader has yet to take the lock
again, there is always a thread that can go on.
-/

inductive Instr (Op : Type) where
  | rLock
  | rUnlock
  | lock
  | unlock
  | act (op : Op)

/-- Where a thread is: at its next instruction, waiting for the read lock,
waiting for another writer, or waiting for the readers to leave. -/
inductive Phase where
  | running
  | waitingRead
  | queued
  | announced
deriving DecidableEq

/-- A thread with what is left of its program, the locks that it holds, and its
local variables. -/
structure Thread (Store Op : Type) where
  program : List (Instr Op)
  phase : Phase
  reads : Nat
  writes : Bool
  store : Store

/-- What an act does: it changes the data and the local variables, it may put
instructions before the rest of the program, and it may start threads. -/
structure Effect (Data Store Op : Type) where
  data : Data
  store : Store
  continuation : List (Instr Op)
  spawned : List (List (Instr Op))

/-- A program that takes and releases its locks in turns, from a number of read
locks and perhaps the write lock on.  It takes the write lock only when it holds
no lock, and it does not end with one. -/
def wellFormed {Op : Type} (admits : Op -> Nat -> Bool -> Bool) :
    Nat -> Bool -> List (Instr Op) -> Bool
  | reads, writes, [] => decide (reads = 0) && !writes
  | reads, writes, .rLock :: rest => !writes && wellFormed admits (reads + 1) writes rest
  | reads, writes, .rUnlock :: rest => decide (0 < reads) && wellFormed admits (reads - 1) writes rest
  | reads, writes, .lock :: rest => decide (reads = 0) && !writes && wellFormed admits 0 true rest
  | reads, writes, .unlock :: rest => writes && wellFormed admits reads false rest
  | reads, writes, .act op :: rest => admits op reads writes && wellFormed admits reads writes rest

/-- The program takes the read lock again before it has released the locks that
it holds. -/
def nestsAhead {Op : Type} (nests : Op -> Bool) : Nat -> List (Instr Op) -> Bool
  | 0, _ => false
  | _ + 1, [] => false
  | _ + 1, .rLock :: _ => true
  | reads + 1, .rUnlock :: rest => nestsAhead nests reads rest
  | reads + 1, .lock :: rest => nestsAhead nests (reads + 1) rest
  | reads + 1, .unlock :: rest => nestsAhead nests (reads + 1) rest
  | reads + 1, .act op :: rest => nests op || nestsAhead nests (reads + 1) rest

@[simp] theorem nestsAhead_zero {Op : Type} (nests : Op -> Bool) (program : List (Instr Op)) :
    nestsAhead nests 0 program = false := by
  rw [nestsAhead]

/-- What acts do, under which locks they are admitted, and which of them take the
read lock again. -/
structure Machine (Data Store Op Input : Type) where
  fresh : Store
  exec : Input -> Data -> Store -> Op -> Effect Data Store Op
  admits : Op -> Nat -> Bool -> Bool
  nests : Data -> Op -> Bool
  balanced : forall input data store op reads writes rest, admits op reads writes = true ->
    wellFormed admits reads writes rest = true ->
    wellFormed admits reads writes ((exec input data store op).continuation ++ rest) = true
  spawns : forall input data store op program, program ∈ (exec input data store op).spawned ->
    wellFormed admits 0 false program = true
  guarded : forall input data store op reads, admits op reads false = true ->
    (exec input data store op).data = data
  plain : forall input data store op reads rest, nests data op = false ->
    admits op (reads + 1) false = true -> nestsAhead (nests data) (reads + 1) rest = false ->
    nestsAhead (nests data) (reads + 1) ((exec input data store op).continuation ++ rest) = false

variable {Data Store Op Input : Type}

/-- The shared data and the threads. -/
structure State (Data Store Op : Type) where
  data : Data
  threads : List (Thread Store Op)

/-- A call starts a thread, and a thread makes a step. -/
inductive Event (Op Input : Type) where
  | call (program : List (Instr Op))
  | step (id : Nat) (input : Input)

/-- The thread has the write lock or has announced that it wants it. -/
def Thread.isWriter (thread : Thread Store Op) : Bool :=
  thread.writes || decide (thread.phase = .announced)

/-- A waiting reader is let in. -/
def Thread.letIn (thread : Thread Store Op) : Thread Store Op :=
  match thread.phase with
  | .waitingRead =>
      { thread with program := thread.program.tail, phase := .running, reads := thread.reads + 1 }
  | _ => thread

namespace Machine

variable (machine : Machine Data Store Op Input)

def thread (program : List (Instr Op)) : Thread Store Op :=
  ⟨program, .running, 0, false, machine.fresh⟩

end Machine

namespace State

def writer (s : State Data Store Op) : Bool := s.threads.any Thread.isWriter

def reader (s : State Data Store Op) : Bool := s.threads.any fun thread => decide (0 < thread.reads)

def setThread (s : State Data Store Op) (id : Nat) (thread : Thread Store Op) :
    State Data Store Op :=
  { s with threads := s.threads.set id thread }

/-- A step of a thread.  A thread that has to wait goes to sleep in one step and
goes on in a later one. -/
def step (machine : Machine Data Store Op Input) (s : State Data Store Op) (id : Nat)
    (input : Input) : State Data Store Op :=
  match s.threads[id]? with
  | none => s
  | some thread =>
      match thread.phase, thread.program with
      | .running, .rLock :: rest =>
          if s.writer then s.setThread id { thread with phase := .waitingRead }
          else s.setThread id { thread with program := rest, reads := thread.reads + 1 }
      | .running, .rUnlock :: rest =>
          s.setThread id { thread with program := rest, reads := thread.reads - 1 }
      | .running, .lock :: _ =>
          s.setThread id { thread with phase := if s.writer then .queued else .announced }
      | .running, .unlock :: rest =>
          { s with threads := (s.threads.set id { thread with
            program := rest, writes := false }).map Thread.letIn }
      | .running, .act op :: rest =>
          let effect := machine.exec input s.data thread.store op
          { data := effect.data
            threads := s.threads.set id { thread with
              program := effect.continuation ++ rest, store := effect.store } ++
                effect.spawned.map machine.thread }
      | .queued, _ :: _ => if s.writer then s else s.setThread id { thread with phase := .announced }
      | .announced, _ :: rest =>
          if s.reader then s
          else s.setThread id { thread with program := rest, phase := .running, writes := true }
      | _, _ => s

def apply (machine : Machine Data Store Op Input) (s : State Data Store Op) :
    Event Op Input -> State Data Store Op
  | .call program => { s with threads := s.threads ++ [machine.thread program] }
  | .step id input => s.step machine id input

def run (machine : Machine Data Store Op Input) (s : State Data Store Op)
    (events : List (Event Op Input)) :
    State Data Store Op := events.foldl (apply machine) s

/-- The thread has a step to make. -/
def canStep (s : State Data Store Op) (thread : Thread Store Op) : Bool :=
  match thread.phase, thread.program with
  | _, [] => false
  | .running, _ :: _ => true
  | .waitingRead, _ :: _ => false
  | .queued, _ :: _ => !s.writer
  | .announced, _ :: _ => !s.reader

/-- Some thread has not come to its end, and no thread has a step to make. -/
def Deadlocked (s : State Data Store Op) : Prop :=
  (Exists fun thread => thread ∈ s.threads ∧ thread.program ≠ []) ∧
    forall thread, thread ∈ s.threads -> s.canStep thread = false

instance (s : State Data Store Op) : Decidable s.Deadlocked := inferInstanceAs (Decidable (_ ∧ _))

/-- The thread announces itself in its next step. -/
def announces (s : State Data Store Op) (id : Nat) : Bool :=
  match s.threads[id]? with
  | none => false
  | some thread =>
      match thread.phase, thread.program with
      | .running, .lock :: _ => !s.writer
      | .queued, _ :: _ => !s.writer
      | _, _ => false

/-- No reader takes the lock again. -/
def settled (machine : Machine Data Store Op Input) (s : State Data Store Op) : Bool :=
  s.threads.all fun thread => !nestsAhead (machine.nests s.data) thread.reads thread.program

/-- A writer that announces itself in this step does so when no reader takes the
lock again. -/
def timely (machine : Machine Data Store Op Input) (s : State Data Store Op) :
    Event Op Input -> Bool
  | .call _ => true
  | .step id _ => !s.announces id || s.settled machine

def timelyRun (machine : Machine Data Store Op Input) :
    State Data Store Op -> List (Event Op Input) -> Bool
  | _, [] => true
  | s, event :: events => s.timely machine event && timelyRun machine (s.apply machine event) events

/-! ## What a step can do -/

/-- The ways a step of a thread can go.  A thread that only moves on keeps its
place among the writers. -/
inductive Moves (machine : Machine Data Store Op Input) (s : State Data Store Op) (id : Nat)
    (input : Input) : State Data Store Op -> Prop where
  | stuck : Moves machine s id input s
  | enterRead (thread : Thread Store Op) (rest : List (Instr Op))
      (present : s.threads[id]? = some thread) (running : thread.phase = .running)
      (next : thread.program = .rLock :: rest) (free : s.writer = false) :
      Moves machine s id input
        (s.setThread id { thread with program := rest, reads := thread.reads + 1 })
  | waitRead (thread : Thread Store Op) (rest : List (Instr Op))
      (present : s.threads[id]? = some thread) (running : thread.phase = .running)
      (next : thread.program = .rLock :: rest) (taken : s.writer = true) :
      Moves machine s id input (s.setThread id { thread with phase := .waitingRead })
  | leaveRead (thread : Thread Store Op) (rest : List (Instr Op))
      (present : s.threads[id]? = some thread) (running : thread.phase = .running)
      (next : thread.program = .rUnlock :: rest) :
      Moves machine s id input
        (s.setThread id { thread with program := rest, reads := thread.reads - 1 })
  | queue (thread : Thread Store Op) (rest : List (Instr Op)) (present : s.threads[id]? = some thread)
      (running : thread.phase = .running) (next : thread.program = .lock :: rest) :
      Moves machine s id input (s.setThread id { thread with phase := .queued })
  | announce (thread : Thread Store Op) (present : s.threads[id]? = some thread)
      (waiting : thread.phase = .running ∧ (Exists fun rest => thread.program = .lock :: rest) ∨
        thread.phase = .queued)
      (free : s.writer = false) (announces : s.announces id = true) :
      Moves machine s id input (s.setThread id { thread with phase := .announced })
  | enterWrite (thread : Thread Store Op) (instr : Instr Op) (rest : List (Instr Op))
      (present : s.threads[id]? = some thread) (announced : thread.phase = .announced)
      (next : thread.program = instr :: rest) :
      Moves machine s id input
        (s.setThread id { thread with program := rest, phase := .running, writes := true })
  | leaveWrite (thread : Thread Store Op) (rest : List (Instr Op))
      (present : s.threads[id]? = some thread) (running : thread.phase = .running)
      (next : thread.program = .unlock :: rest) :
      Moves machine s id input
        { s with threads := (s.threads.set id { thread with
          program := rest, writes := false }).map Thread.letIn }
  | act (thread : Thread Store Op) (op : Op) (rest : List (Instr Op))
      (present : s.threads[id]? = some thread) (running : thread.phase = .running)
      (next : thread.program = .act op :: rest) :
      Moves machine s id input
        { data := (machine.exec input s.data thread.store op).data
          threads := s.threads.set id
              { thread with
                program := (machine.exec input s.data thread.store op).continuation ++ rest
                store := (machine.exec input s.data thread.store op).store } ++
            (machine.exec input s.data thread.store op).spawned.map machine.thread }

theorem moves_step (machine : Machine Data Store Op Input) (s : State Data Store Op) (id : Nat)
    (input : Input) :
    Moves machine s id input (s.step machine id input) := by
  unfold step
  split
  · exact .stuck
  next thread present =>
    split
    next rest running next =>
      split
      next taken => exact .waitRead thread rest present running next taken
      next free => exact .enterRead thread rest present running next (Bool.not_eq_true _ ▸ free)
    next rest running next => exact .leaveRead thread rest present running next
    next rest running next =>
      cases free : s.writer with
      | true => exact .queue thread rest present running next
      | false =>
          refine .announce thread present (Or.inl ⟨running, rest, next⟩) free ?_
          simp only [announces, present, running, next, free, Bool.not_false]
    next rest running next => exact .leaveWrite thread rest present running next
    next op rest running next => exact .act thread op rest present running next
    next instr rest queued next =>
      split
      · exact .stuck
      next free =>
        have untaken : s.writer = false := Bool.not_eq_true _ ▸ free
        refine .announce thread present (Or.inr queued) untaken ?_
        simp only [announces, present, queued, next, untaken, Bool.not_false]
    next instr rest announced next =>
      split
      · exact .stuck
      · exact .enterWrite thread instr rest present announced next
    next => exact .stuck

/-! ## Order -/

end State

/-- What is left of the program fits the locks and the place of the thread. -/
structure Thread.Fit (admits : Op -> Nat -> Bool -> Bool) (thread : Thread Store Op) : Prop where
  formed : wellFormed admits thread.reads thread.writes thread.program = true
  reading : thread.phase = .waitingRead -> Exists fun rest => thread.program = .rLock :: rest
  writing : thread.phase = .queued ∨ thread.phase = .announced ->
    Exists fun rest => thread.program = .lock :: rest

variable {thread : Thread Store Op}

theorem Thread.Fit.of_running {admits : Op -> Nat -> Bool -> Bool}
    (formed : wellFormed admits thread.reads thread.writes thread.program = true)
    (running : thread.phase = .running) :
    thread.Fit admits := by
  refine ⟨formed, fun phase => ?_, fun phase => ?_⟩
  · rw [running] at phase
    cases phase
  · rw [running] at phase
    rcases phase with phase | phase <;> cases phase

/-- A thread that waits for the write lock holds no lock. -/
theorem Thread.Fit.unlocked {admits : Op -> Nat -> Bool -> Bool} (fit : thread.Fit admits)
    {rest : List (Instr Op)} (next : thread.program = .lock :: rest) :
    thread.reads = 0 ∧ thread.writes = false ∧ wellFormed admits 0 true rest = true := by
  have formed := fit.formed
  rw [next, wellFormed, Bool.and_eq_true, Bool.and_eq_true, decide_eq_true_eq,
    Bool.not_eq_true'] at formed
  exact ⟨formed.1.1, formed.1.2, formed.2⟩

theorem isWriter_iff :
    thread.isWriter = true <-> thread.writes = true ∨ thread.phase = .announced := by
  rw [Thread.isWriter, Bool.or_eq_true, decide_eq_true_eq]

namespace State

variable {machine : Machine Data Store Op Input} {s : State Data Store Op}

/-- The threads fit their programs, at most one of them is a writer, readers wait
only for a writer, and readers that take the lock again are none when a writer
waits. -/
structure Orderly (machine : Machine Data Store Op Input) (s : State Data Store Op) : Prop where
  fit : forall thread, thread ∈ s.threads -> thread.Fit machine.admits
  single : forall {first second : Nat} {one other : Thread Store Op}, s.threads[first]? = some one ->
    s.threads[second]? = some other -> one.isWriter = true -> other.isWriter = true -> first = second
  gate : forall thread, thread ∈ s.threads -> thread.phase = .waitingRead -> s.writer = true
  calm : forall thread, thread ∈ s.threads -> thread.phase = .announced -> s.settled machine = true

theorem writer_iff :
    s.writer = true <-> Exists fun thread => thread ∈ s.threads ∧ thread.isWriter = true :=
  List.any_eq_true

theorem settled_iff : s.settled machine = true <->
    forall thread, thread ∈ s.threads ->
      nestsAhead (machine.nests s.data) thread.reads thread.program = false := by
  rw [settled, List.all_eq_true]
  exact forall_congr' fun thread => forall_congr' fun _ => by rw [Bool.not_eq_true']

variable {id : Nat}

theorem getElem?_setThread (present : s.threads[id]? = some thread) (next : Thread Store Op)
    (other : Nat) :
    (s.setThread id next).threads[other]? = if id = other then some next else s.threads[other]? := by
  have inside : id < s.threads.length := (List.getElem?_eq_some_iff.mp present).1
  rw [setThread, List.getElem?_set, if_pos inside]

/-- A writer stays when another thread moves, or when it stays one itself. -/
theorem writer_setThread {thread next : Thread Store Op} (present : s.threads[id]? = some thread)
    (stays : thread.isWriter = true -> next.isWriter = true) (taken : s.writer = true) :
    (s.setThread id next).writer = true := by
  rcases writer_iff.mp taken with ⟨holder, listed, writes⟩
  rcases List.getElem?_of_mem listed with ⟨place, there⟩
  apply writer_iff.mpr
  rcases eq_or_ne id place with rfl | same
  · rw [present] at there
    cases there
    exact ⟨next, List.mem_of_getElem? ((getElem?_setThread present next id).trans (if_pos rfl)),
      stays writes⟩
  · exact ⟨holder, List.mem_of_getElem?
      (((getElem?_setThread present next place).trans (if_neg same)).trans there), writes⟩

/-- A thread moves on and keeps its place among the writers. -/
theorem Orderly.move (orderly : s.Orderly machine) {thread next : Thread Store Op}
    (present : s.threads[id]? = some thread) (fit : next.Fit machine.admits)
    (same : next.isWriter = thread.isWriter) (gate : next.phase = .waitingRead -> s.writer = true)
    (waits : next.phase = .announced -> thread.phase = .announced)
    (calm : (Exists fun other => other ∈ s.threads ∧ other.phase = .announced) ->
      s.settled machine = true ->
      nestsAhead (machine.nests s.data) next.reads next.program = false) :
    (s.setThread id next).Orderly machine := by
  have listed := List.mem_of_getElem? present
  have stays : s.writer = true -> (s.setThread id next).writer = true :=
    writer_setThread present fun writes => same.trans writes
  have before : forall {place : Nat} {other : Thread Store Op},
      (s.setThread id next).threads[place]? = some other ->
      other.isWriter = true -> Exists fun earlier => s.threads[place]? = some earlier ∧
          earlier.isWriter = true := by
    intro place other there writes
    rw [getElem?_setThread present] at there
    split at there
    next here =>
      cases there
      exact ⟨thread, here ▸ present, same.symm.trans writes⟩
    next => exact ⟨other, there, writes⟩
  refine ⟨fun other member => ?_, fun there thereToo writes writesToo => ?_,
    fun other member waiting => ?_, fun other member waiting => ?_⟩
  · rcases List.mem_or_eq_of_mem_set member with old | rfl
    · exact orderly.fit other old
    · exact fit
  · rcases before there writes with ⟨_, stood, wrote⟩
    rcases before thereToo writesToo with ⟨_, stoodToo, wroteToo⟩
    exact orderly.single stood stoodToo wrote wroteToo
  · rcases List.mem_or_eq_of_mem_set member with old | rfl
    · exact stays (orderly.gate other old waiting)
    · exact stays (gate waiting)
  · have announced : Exists fun other => other ∈ s.threads ∧ other.phase = .announced := by
      rcases List.mem_or_eq_of_mem_set member with old | rfl
      · exact ⟨other, old, waiting⟩
      · exact ⟨thread, listed, waits waiting⟩
    have settled : s.settled machine = true :=
      announced.elim fun other both => orderly.calm other both.1 both.2
    apply settled_iff.mpr
    intro reader inside
    rcases List.mem_or_eq_of_mem_set inside with old | rfl
    · exact settled_iff.mp settled reader old
    · exact calm announced settled

/-- A writer announces itself when no reader takes the lock again. -/
theorem Orderly.announce (orderly : s.Orderly machine) (present : s.threads[id]? = some thread)
    (waiting : thread.phase = .running ∧ (Exists fun rest => thread.program = .lock :: rest) ∨
      thread.phase = .queued)
    (free : s.writer = false) (settled : s.settled machine = true) :
    (s.setThread id { thread with phase := .announced }).Orderly machine := by
  have fit := orderly.fit thread (List.mem_of_getElem? present)
  have unwritten : forall other, other ∈ s.threads -> other.isWriter ≠ true := by
    intro other listed writes
    rw [writer_iff.mpr ⟨other, listed, writes⟩] at free
    cases free
  have only : forall {place : Nat} {other : Thread Store Op},
      (s.setThread id { thread with phase := .announced }).threads[place]? = some other ->
        other.isWriter = true ->
        place = id := by
    intro place other there writes
    rw [getElem?_setThread present] at there
    split at there
    next here => exact here.symm
    next => exact absurd writes (unwritten other (List.mem_of_getElem? there))
  refine ⟨fun other member => ?_, fun there thereToo writes writesToo => ?_,
    fun other member reads => ?_, fun other member announced => ?_⟩
  · rcases List.mem_or_eq_of_mem_set member with old | rfl
    · exact orderly.fit other old
    · refine ⟨fit.formed, (fun phase => nomatch phase), fun _ => ?_⟩
      exact waiting.elim And.right fun queued => fit.writing (Or.inl queued)
  · exact (only there writes).trans (only thereToo writesToo).symm
  · rcases List.mem_or_eq_of_mem_set member with old | rfl
    · rw [orderly.gate other old reads] at free
      cases free
    · cases reads
  · apply settled_iff.mpr
    intro reader inside
    rcases List.mem_or_eq_of_mem_set inside with old | rfl
    · exact settled_iff.mp settled reader old
    · exact settled_iff.mp settled thread (List.mem_of_getElem? present)

theorem letIn_of_ne (other : thread.phase ≠ .waitingRead) : thread.letIn = thread := by
  unfold Thread.letIn
  split
  next waiting => exact absurd waiting other
  next => rfl

theorem fit_letIn (fit : thread.Fit machine.admits) :
    thread.letIn.Fit machine.admits ∧ thread.letIn.phase ≠ .waitingRead ∧
      thread.letIn.isWriter = thread.isWriter := by
  by_cases waiting : thread.phase = .waitingRead
  · rcases fit.reading waiting with ⟨rest, next⟩
    have entered : thread.letIn =
        { thread with program := rest, phase := .running, reads := thread.reads + 1 } := by
      unfold Thread.letIn
      rw [waiting, next]
      rfl
    have formed := fit.formed
    rw [next, wellFormed, Bool.and_eq_true] at formed
    rw [entered]
    refine ⟨.of_running formed.2 rfl, (fun phase => nomatch phase), ?_⟩
    rw [Thread.isWriter, Thread.isWriter, waiting]
    rfl
  · rw [letIn_of_ne waiting]
    exact ⟨fit, waiting, rfl⟩

section

variable (orderly : s.Orderly machine)

include orderly

/-- The writer leaves and lets the waiting readers in. -/
theorem Orderly.leaveWrite {rest : List (Instr Op)} (present : s.threads[id]? = some thread)
    (running : thread.phase = .running) (next : thread.program = .unlock :: rest) :
    Orderly machine
      { s with threads := (s.threads.set id { thread with
          program := rest, writes := false }).map Thread.letIn } := by
  have formed := (orderly.fit thread (List.mem_of_getElem? present)).formed
  rw [next, wellFormed, Bool.and_eq_true] at formed
  have wrote : thread.isWriter = true := isWriter_iff.mpr (Or.inl formed.1)
  have left : Thread.Fit machine.admits { thread with program := rest, writes := false } :=
    .of_running formed.2 running
  have fits : forall other,
      other ∈ s.threads.set id { thread with program := rest, writes := false } ->
      other.Fit machine.admits := by
    intro other member
    rcases List.mem_or_eq_of_mem_set member with old | rfl
    · exact orderly.fit other old
    · exact left
  -- No other thread is a writer, since the one that leaves was.
  have nobody : forall other,
      other ∈ s.threads.set id { thread with program := rest, writes := false } ->
      other.isWriter ≠ true := by
    intro other member writes
    rcases List.getElem?_of_mem member with ⟨place, there⟩
    change (s.setThread id _).threads[place]? = _ at there
    rw [getElem?_setThread present] at there
    split at there
    next =>
      cases there
      rcases isWriter_iff.mp writes with held | announced
      · cases held
      · exact nomatch running.symm.trans announced
    next elsewhere => exact elsewhere (orderly.single present there wrote writes)
  refine ⟨fun other member => ?_, fun there _ writes _ => ?_, fun other member waiting => ?_,
    fun other member announced => ?_⟩
  · rcases List.mem_map.mp member with ⟨before, inside, rfl⟩
    exact (fit_letIn (fits before inside)).1
  · rcases List.mem_map.mp (List.mem_of_getElem? there) with ⟨before, inside, rfl⟩
    exact absurd ((fit_letIn (fits before inside)).2.2.symm.trans writes) (nobody before inside)
  · rcases List.mem_map.mp member with ⟨before, inside, rfl⟩
    exact absurd waiting (fit_letIn (fits before inside)).2.1
  · rcases List.mem_map.mp member with ⟨before, inside, rfl⟩
    have writes := (fit_letIn (fits before inside)).2.2.symm.trans
      (isWriter_iff.mpr (Or.inr announced))
    exact absurd writes (nobody before inside)

/-- New threads hold nothing and wait for nothing, and the data stay as they are
while a writer is announced. -/
theorem Orderly.spawn (data : Data) (programs : List (List (Instr Op)))
    (kept : (Exists fun thread => thread ∈ s.threads ∧ thread.phase = .announced) -> data = s.data)
    (formed : forall program, program ∈ programs ->
      wellFormed machine.admits 0 false program = true) :
    Orderly machine { data := data, threads := s.threads ++ programs.map machine.thread } := by
  have started : forall thread, thread ∈ programs.map machine.thread ->
      thread.Fit machine.admits ∧ thread.isWriter = false ∧ thread.phase = .running ∧
          thread.reads = 0 := by
    intro thread member
    rcases List.mem_map.mp member with ⟨program, listed, rfl⟩
    exact ⟨.of_running (formed program listed) rfl, rfl, rfl, rfl⟩
  have before : forall {place : Nat} {thread : Thread Store Op},
      (s.threads ++ programs.map machine.thread)[place]? = some thread -> thread.isWriter = true ->
        s.threads[place]? = some thread := by
    intro place thread there writes
    rcases Nat.lt_or_ge place s.threads.length with old | new
    · rw [List.getElem?_append_left old] at there
      exact there
    · rw [List.getElem?_append_right new] at there
      rw [(started thread (List.mem_of_getElem? there)).2.1] at writes
      cases writes
  refine ⟨fun thread member => ?_, fun there thereToo writes writesToo => ?_,
    fun thread member waiting => ?_, fun thread member announced => ?_⟩
  · exact (List.mem_append.mp member).elim (orderly.fit thread) fun new => (started thread new).1
  · exact orderly.single (before there writes) (before thereToo writesToo) writes writesToo
  · rcases List.mem_append.mp member with old | new
    · rcases writer_iff.mp (orderly.gate thread old waiting) with ⟨holder, listed, writes⟩
      exact writer_iff.mpr ⟨holder, List.mem_append_left _ listed, writes⟩
    · exact nomatch (started thread new).2.2.1.symm.trans waiting
  · rcases List.mem_append.mp member with old | new
    · apply settled_iff.mpr
      intro reader inside
      change nestsAhead (machine.nests data) reader.reads reader.program = false
      rw [kept ⟨thread, old, announced⟩]
      rcases List.mem_append.mp inside with old' | new
      · exact settled_iff.mp (orderly.calm thread old announced) reader old'
      · rw [(started reader new).2.2.2, nestsAhead_zero]
    · exact nomatch (started thread new).2.2.1.symm.trans announced

/-- While a writer is announced, no running thread has the write lock. -/
theorem Orderly.unwritten {thread other : Thread Store Op} (present : s.threads[id]? = some thread)
    (running : thread.phase = .running) (listed : other ∈ s.threads)
    (announced : other.phase = .announced) : thread.writes = false := by
  by_contra writes
  rcases List.getElem?_of_mem listed with ⟨place, there⟩
  have same := orderly.single present there
    (isWriter_iff.mpr (Or.inl (Bool.not_eq_false _ ▸ writes))) (isWriter_iff.mpr (Or.inr announced))
  rw [← same, present] at there
  cases there
  exact nomatch running.symm.trans announced

/-- A thread executes an operation, whose continuation comes before the rest. -/
theorem Orderly.act {op : Op} {rest : List (Instr Op)} (present : s.threads[id]? = some thread)
    (running : thread.phase = .running) (next : thread.program = .act op :: rest) (input : Input) :
    (s.setThread id
      { thread with
        program := (machine.exec input s.data thread.store op).continuation ++ rest
        store := (machine.exec input s.data thread.store op).store }).Orderly machine := by
  have formed := (orderly.fit thread (List.mem_of_getElem? present)).formed
  rw [next, wellFormed, Bool.and_eq_true] at formed
  refine orderly.move present (.of_running ?_ running) rfl ?_ (fun phase => phase) ?_
  · exact machine.balanced input s.data thread.store op _ _ rest formed.1 formed.2
  · exact fun phase => nomatch running.symm.trans phase
  · rintro ⟨other, listed, announced⟩ settled
    change nestsAhead (machine.nests s.data) thread.reads _ = false
    have ahead := settled_iff.mp settled thread (List.mem_of_getElem? present)
    rw [next] at ahead
    cases held : thread.reads with
    | zero => exact nestsAhead_zero _ _
    | succ reads =>
        rw [held, nestsAhead, Bool.or_eq_false_iff] at ahead
        rw [held, orderly.unwritten present running listed announced] at formed
        exact machine.plain input s.data thread.store op reads rest ahead.1 formed.1 ahead.2

theorem Orderly.step (id : Nat) (input : Input)
    (timely : s.announces id = true -> s.settled machine = true) :
    (s.step machine id input).Orderly machine := by
  have moves := moves_step machine s id input
  generalize s.step machine id input = after at moves ⊢
  cases moves with
  | stuck => exact orderly
  | enterRead thread rest present running next free =>
      have formed := (orderly.fit thread (List.mem_of_getElem? present)).formed
      rw [next, wellFormed, Bool.and_eq_true] at formed
      refine orderly.move present (.of_running formed.2 running) rfl ?_ (fun phase => phase) ?_
      · exact fun phase => nomatch running.symm.trans phase
      · rintro ⟨other, listed, announced⟩ _
        rw [writer_iff.mpr ⟨other, listed, isWriter_iff.mpr (Or.inr announced)⟩] at free
        cases free
  | waitRead thread rest present running next taken =>
      have fit := orderly.fit thread (List.mem_of_getElem? present)
      refine orderly.move present ⟨fit.formed, fun _ => ⟨rest, next⟩, ?_⟩ ?_ (fun _ => taken)
        (fun phase => nomatch phase) ?_
      · rintro (phase | phase) <;> cases phase
      · rw [Thread.isWriter, Thread.isWriter, running]
        rfl
      · exact fun _ settled => settled_iff.mp settled thread (List.mem_of_getElem? present)
  | leaveRead thread rest present running next =>
      have formed := (orderly.fit thread (List.mem_of_getElem? present)).formed
      rw [next, wellFormed, Bool.and_eq_true, decide_eq_true_eq] at formed
      refine orderly.move present (.of_running formed.2 running) rfl ?_ (fun phase => phase) ?_
      · exact fun phase => nomatch running.symm.trans phase
      · intro _ settled
        have ahead := settled_iff.mp settled thread (List.mem_of_getElem? present)
        rcases Nat.exists_eq_succ_of_ne_zero (Nat.pos_iff_ne_zero.mp formed.1) with ⟨reads, held⟩
        rw [next, held] at ahead
        change nestsAhead (machine.nests s.data) (thread.reads - 1) rest = false
        rw [held]
        exact ahead
  | queue thread rest present running next =>
      have fit := orderly.fit thread (List.mem_of_getElem? present)
      refine orderly.move present ⟨fit.formed, (fun phase => nomatch phase), fun _ => ⟨rest, next⟩⟩ ?_
        (fun phase => nomatch phase) (fun phase => nomatch phase) ?_
      · rw [Thread.isWriter, Thread.isWriter, running]
        rfl
      · exact fun _ settled => settled_iff.mp settled thread (List.mem_of_getElem? present)
  | announce thread present waiting free announces =>
      exact orderly.announce present waiting free (timely announces)
  | enterWrite thread instr rest present announced next =>
      have fit := orderly.fit thread (List.mem_of_getElem? present)
      rcases fit.writing (Or.inr announced) with ⟨behind, locks⟩
      rcases fit.unlocked locks with ⟨reads, writes, formed⟩
      rw [next] at locks
      cases locks
      refine orderly.move present (.of_running ?_ rfl) ?_ (fun phase => nomatch phase)
        (fun phase => nomatch phase) ?_
      · rw [reads]
        exact formed
      · rw [isWriter_iff.mpr (Or.inr announced)]
        rfl
      · intro _ _
        rw [reads, nestsAhead_zero]
  | leaveWrite thread rest present running next => exact orderly.leaveWrite present running next
  | act thread op rest present running next =>
      have formed := (orderly.fit thread (List.mem_of_getElem? present)).formed
      rw [next, wellFormed, Bool.and_eq_true] at formed
      refine (orderly.act present running next input).spawn _ _ ?_
        (machine.spawns input s.data thread.store op)
      -- A writer is announced only when no thread has the write lock.
      rintro ⟨other, listed, announced⟩
      rcases List.mem_or_eq_of_mem_set listed with old | rfl
      · rw [orderly.unwritten present running old announced] at formed
        exact machine.guarded input s.data thread.store op _ formed.1
      · exact absurd (running.symm.trans announced) Phase.noConfusion

theorem Orderly.apply {event : Event Op Input}
    (formed : forall program, event = .call program ->
      wellFormed machine.admits 0 false program = true)
    (timely : s.timely machine event = true) : (s.apply machine event).Orderly machine := by
  cases event with
  | call program =>
      refine orderly.spawn s.data [program] (fun _ => rfl) fun other member => ?_
      cases List.mem_singleton.mp member
      exact formed program rfl
  | step id input =>
      refine orderly.step id input fun announces => ?_
      rw [State.timely, announces] at timely
      exact timely

/-- The rule for runs. -/
theorem Orderly.run {events : List (Event Op Input)}
    (formed : forall program, .call program ∈ events ->
      wellFormed machine.admits 0 false program = true)
    (timely : s.timelyRun machine events = true) : (s.run machine events).Orderly machine := by
  induction events generalizing s with
  | nil => exact orderly
  | cons event events ih =>
      rcases Bool.and_eq_true_iff.mp timely with ⟨now, later⟩
      have first := orderly.apply (fun program same => formed program (same ▸ List.mem_cons_self)) now
      exact ih first (fun program inside => formed program (List.mem_cons_of_mem _ inside)) later

end

theorem orderly_empty (machine : Machine Data Store Op Input) (data : Data) :
    Orderly machine ⟨data, []⟩ :=
  ⟨List.forall_mem_nil _, (fun there => nomatch there), List.forall_mem_nil _, List.forall_mem_nil _⟩

/-! ## Progress -/

/-- A thread at its next instruction can go on. -/
theorem canStep_of_running (running : thread.phase = .running) (unfinished : thread.program ≠ []) :
    s.canStep thread = true := by
  rcases List.exists_cons_of_ne_nil unfinished with ⟨instr, rest, next⟩
  rw [canStep, running, next]

/-- A thread that has the write lock can go on. -/
theorem Orderly.canStep_of_writes (orderly : s.Orderly machine) (listed : thread ∈ s.threads)
    (writes : thread.writes = true) : s.canStep thread = true := by
  have fit := orderly.fit thread listed
  have formed := fit.formed
  have unlocked : forall rest, thread.program ≠ .lock :: rest := by
    intro rest next
    rw [(fit.unlocked next).2.1] at writes
    cases writes
  cases phase : thread.phase with
  | running =>
      apply canStep_of_running phase
      intro finished
      rw [finished, wellFormed, writes, Bool.not_true, Bool.and_false] at formed
      cases formed
  | waitingRead =>
      rcases fit.reading phase with ⟨rest, next⟩
      rw [next, wellFormed, writes, Bool.not_true, Bool.false_and] at formed
      cases formed
  | queued => exact (fit.writing (Or.inl phase)).elim fun rest next => absurd next (unlocked rest)
  | announced => exact (fit.writing (Or.inr phase)).elim fun rest next => absurd next (unlocked rest)

/-- A reader can go on when a writer waits for it. -/
theorem Orderly.canStep_of_reads (orderly : s.Orderly machine) {thread waiter : Thread Store Op}
    (listed : thread ∈ s.threads) (reads : 0 < thread.reads) (waits : waiter ∈ s.threads)
    (announced : waiter.phase = .announced) : s.canStep thread = true := by
  have fit := orderly.fit thread listed
  have formed := fit.formed
  have unlocked : forall rest, thread.program ≠ .lock :: rest := by
    intro rest next
    have none := (fit.unlocked next).1
    omega
  cases phase : thread.phase with
  | running =>
      apply canStep_of_running phase
      intro finished
      rw [finished, wellFormed, Bool.and_eq_true, decide_eq_true_eq] at formed
      omega
  | waitingRead =>
      -- It would take the lock again.
      rcases fit.reading phase with ⟨rest, next⟩
      have ahead := settled_iff.mp (orderly.calm waiter waits announced) thread listed
      rcases Nat.exists_eq_succ_of_ne_zero (Nat.pos_iff_ne_zero.mp reads) with ⟨count, held⟩
      rw [next, held] at ahead
      cases ahead
  | queued => exact (fit.writing (Or.inl phase)).elim fun rest next => absurd next (unlocked rest)
  | announced => exact (fit.writing (Or.inr phase)).elim fun rest next => absurd next (unlocked rest)

/-- A state with a writer has a thread that can go on. -/
theorem Orderly.canStep_of_writer (orderly : s.Orderly machine) (taken : s.writer = true) :
    Exists fun thread => thread ∈ s.threads ∧ s.canStep thread = true := by
  rcases writer_iff.mp taken with ⟨holder, listed, writer⟩
  rcases isWriter_iff.mp writer with writes | announced
  · exact ⟨holder, listed, orderly.canStep_of_writes listed writes⟩
  · cases readers : s.reader with
    | true =>
        rcases List.any_eq_true.mp readers with ⟨reader, inside, reads⟩
        exact ⟨reader, inside, orderly.canStep_of_reads inside (of_decide_eq_true reads)
          listed announced⟩
    | false =>
        rcases (orderly.fit holder listed).writing (Or.inr announced) with ⟨rest, next⟩
        refine ⟨holder, listed, ?_⟩
        rw [canStep, announced, next]
        simp only [readers, Bool.not_false]

theorem Orderly.not_deadlocked (orderly : s.Orderly machine) : ¬ s.Deadlocked := by
  rintro ⟨⟨thread, listed, unfinished⟩, stuck⟩
  have free : s.writer = false := by
    by_contra taken
    rcases orderly.canStep_of_writer (Bool.not_eq_false _ ▸ taken) with ⟨other, inside, goes⟩
    exact nomatch goes.symm.trans (stuck other inside)
  have goes : s.canStep thread = true := by
    cases phase : thread.phase with
    | running => exact canStep_of_running phase unfinished
    | waitingRead => exact nomatch (orderly.gate thread listed phase).symm.trans free
    | queued =>
        rcases List.exists_cons_of_ne_nil unfinished with ⟨instr, rest, next⟩
        rw [canStep, phase, next]
        simp only [free, Bool.not_false]
    | announced =>
        have taken := writer_iff.mpr ⟨thread, listed, isWriter_iff.mpr (Or.inr phase)⟩
        exact nomatch taken.symm.trans free
  exact nomatch goes.symm.trans (stuck thread listed)

end State
end RWLock
end KVStore
