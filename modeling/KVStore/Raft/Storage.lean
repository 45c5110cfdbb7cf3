import KVStore.Library.Decimal
import KVStore.Library.WriteThrough
import KVStore.Raft.Node

namespace KVStore
namespace Raft
namespace Storage

open Decimal WriteThrough

/-!
# The file of term and vote

`FileStateStore` of `node/raft/storage.go` keeps a term and a vote in memory and in the
file `raft_state.json` of its directory.  A call that sets one of them assigns the field,
encodes both and replaces the file, all under the lock of the store, so that a getter
returns before the call or after it.

The field is not set back when the replacement fails.  The getters then return what no
file holds, and the next call that succeeds makes it durable, although the caller was
told that it had failed.  The memory of a store is therefore the memory of a register
that is assigned first and written through afterwards.
-/

/-! ## The store -/

/-- Errors of the packages `os` and `encoding/json`. -/
inductive StoreError where
  /-- The errors of which `os.IsNotExist` is true. -/
  | notExist
  | file (message : Bytes)
  | json (message : Bytes)
  deriving DecidableEq, Repr

/-- `stateData`. -/
structure StateData where
  term : UInt64
  votedFor : NodeID
  deriving DecidableEq, Repr

/-- `json.Marshal` and `json.Unmarshal` on `stateData`, of which the encoding can be read back. -/
structure Json where
  marshal : StateData -> Except Bytes Bytes
  unmarshal : Bytes -> Except Bytes StateData
  roundTrips : forall data, Exists fun bytes => marshal data = .ok bytes ∧ unmarshal bytes = .ok data

/-- The files in the directory of a store. -/
abbrev StateFiles := Files String Bytes

def path : String := "raft_state.json"

def tmpPath : String := path ++ ".tmp"

theorem path_ne_tmpPath : path ≠ tmpPath := by decide

/-- What becomes of the operations of `persist` on files.  A failure of `os.WriteFile` comes with
what it leaves of the temporary file. -/
structure Outcome where
  writeFile : Option (StoreError × Option Bytes)
  rename : Option StoreError

/-- What becomes of the operations of `NewFileStateStore`, apart from a file that is not there. -/
structure Opening where
  mkdirAll : Option StoreError
  readFile : Option StoreError

/-- `FileStateStore`, without its lock and the name of its directory. -/
structure FileStateStore where
  term : UInt64
  votedFor : NodeID
  deriving DecidableEq, Repr

/-- `os.ReadFile`. -/
def readFile (files : StateFiles) (name : String) : Option StoreError -> Except StoreError Bytes
  | some error => .error error
  | none =>
      match files name with
      | none => .error .notExist
      | some bytes => .ok bytes

variable (json : Json)

namespace FileStateStore

def load (f : FileStateStore) (files : StateFiles) (reading : Option StoreError) :
    Except StoreError FileStateStore :=
  match readFile files path reading with
  | .error error => .error error
  | .ok bytes =>
      match json.unmarshal bytes with
      | .error message => .error (.json message)
      | .ok data => .ok { f with term := data.term, votedFor := data.votedFor }

def getTerm (f : FileStateStore) : UInt64 := f.term

def getVotedFor (f : FileStateStore) : NodeID := f.votedFor

def persist (f : FileStateStore) (files : StateFiles) (outcome : Outcome) :
    StateFiles × Option StoreError :=
  let data : StateData := ⟨f.term, f.votedFor⟩
  match json.marshal data with
  | .error message => (files, some (.json message))
  | .ok bytes =>
      -- To the temporary file first, which is then renamed.
      match writeFile files tmpPath bytes outcome.writeFile with
      | (written, some error) => (written, some error)
      | (written, none) => rename written tmpPath path outcome.rename

/-- The field keeps the new term, whatever `persist` returns. -/
def setTerm (f : FileStateStore) (files : StateFiles) (term : UInt64) (outcome : Outcome) :
    FileStateStore × StateFiles × Option StoreError :=
  let assigned := { f with term := term }
  (assigned, assigned.persist json files outcome)

def setVotedFor (f : FileStateStore) (files : StateFiles) (candidateID : NodeID)
    (outcome : Outcome) : FileStateStore × StateFiles × Option StoreError :=
  let assigned := { f with votedFor := candidateID }
  (assigned, assigned.persist json files outcome)

end FileStateStore

/-- `NewFileStateStore`.  A directory without the file gives a store in term zero. -/
def newFileStateStore (files : StateFiles) (opening : Opening) : Except StoreError FileStateStore :=
  match opening.mkdirAll with
  | some error => .error error
  | none =>
      let store : FileStateStore := ⟨0, []⟩
      match store.load json files opening.readFile with
      | .error .notExist => .ok store
      | .error error => .error error
      | .ok loaded => .ok loaded

/-! ## Runs -/

/-- A method that sets a field, with its argument. -/
inductive Setting where
  | setTerm (term : UInt64)
  | setVotedFor (candidateID : NodeID)

/-- A call of `SetTerm` or `SetVotedFor`. -/
structure StoreCall where
  setting : Setting
  outcome : Outcome

/-- A store and the files of its directory. -/
structure Session where
  store : FileStateStore
  files : StateFiles

/-- The assignment with which a call begins. -/
def Setting.assign (f : FileStateStore) : Setting -> FileStateStore
  | .setTerm term => { f with term := term }
  | .setVotedFor candidateID => { f with votedFor := candidateID }

namespace Session

def call (s : Session) (made : StoreCall) : Session × Option StoreError :=
  let result :=
    match made.setting with
    | .setTerm term => s.store.setTerm json s.files term made.outcome
    | .setVotedFor candidateID => s.store.setVotedFor json s.files candidateID made.outcome
  (⟨result.1, result.2.1⟩, result.2.2)

def run (s : Session) (calls : List StoreCall) : Session :=
  calls.foldl (fun current made => (current.call json made).1) s

/-- The files during a call, up to its rename. -/
def filesDuring (s : Session) (made : StoreCall) (stage : Stage Bytes) : StateFiles :=
  let assigned := made.setting.assign s.store
  match json.marshal ⟨assigned.term, assigned.votedFor⟩ with
  | .error _ => s.files
  | .ok bytes => filesAt s.files tmpPath bytes stage

end Session

/-! ## What is durable -/

/-- The getters of two stores return the same. -/
def SameReports (first second : FileStateStore) : Prop :=
  first.getTerm = second.getTerm ∧ first.getVotedFor = second.getVotedFor

/-- A directory is opened by a store that reports the same as the given one. -/
def Reopens (files : StateFiles) (store : FileStateStore) : Prop :=
  Exists fun reopened => newFileStateStore json files ⟨none, none⟩ = .ok reopened ∧
    SameReports reopened store

/-- A store reports only what is durable:  a call that fails leaves the reports as they were, and
the directory can be opened again with the same reports between two calls, and during a call up
to its rename.  From the rename on the files are those after the call. -/
structure DurableReports (s : Session) (calls : List StoreCall) : Prop where
  failed : forall count made, calls[count]? = some made ->
    ((s.run json (calls.take count)).call json made).2 ≠ none ->
    SameReports ((s.run json (calls.take count)).call json made).1.store
      (s.run json (calls.take count)).store
  between : forall count, count ≤ calls.length ->
    Reopens json (s.run json (calls.take count)).files (s.run json (calls.take count)).store
  during : forall count made, calls[count]? = some made -> forall stage,
    Reopens json ((s.run json (calls.take count)).filesDuring json made stage)
      (s.run json (calls.take count)).store

/-- `os.WriteFile` or `os.Rename` fails. -/
def StoreCall.Fails (made : StoreCall) : Prop :=
  made.outcome.writeFile ≠ none ∨ made.outcome.rename ≠ none

/-- The fields as the calls have last set them, those that failed included. -/
def lastSet (store : FileStateStore) (calls : List StoreCall) : FileStateStore :=
  calls.foldl (fun f made => made.setting.assign f) store

/-- A value that the field has already. -/
def Setting.Repeats (f : FileStateStore) : Setting -> Prop
  | .setTerm term => term = f.term
  | .setVotedFor candidateID => candidateID = f.votedFor

variable {json}

theorem sameReports_iff {first second : FileStateStore} :
    SameReports first second <-> first = second := by
  constructor
  · rintro ⟨terms, votes⟩
    cases first
    cases second
    simp_all [FileStateStore.getTerm, FileStateStore.getVotedFor]
  · rintro rfl
    exact ⟨rfl, rfl⟩

theorem reopens_iff {files : StateFiles} {store : FileStateStore} :
    Reopens json files store <-> newFileStateStore json files ⟨none, none⟩ = .ok store := by
  simp [Reopens, sameReports_iff]

theorem assign_eq_iff_repeats {f : FileStateStore} {setting : Setting} :
    setting.assign f = f <-> setting.Repeats f := by
  cases f
  cases setting <;> simp [Setting.assign, Setting.Repeats]

/-! ## Opening a directory -/

/-- Only the file itself is read. -/
theorem newFileStateStore_congr {files others : StateFiles} (same : files path = others path)
    (opening : Opening) :
    newFileStateStore json files opening = newFileStateStore json others opening := by
  have read : readFile files path opening.readFile = readFile others path opening.readFile := by
    cases opening.readFile <;> simp [readFile, same]
  simp only [newFileStateStore, FileStateStore.load, read]

/-- An encoding is read back. -/
theorem newFileStateStore_of_encoding {files : StateFiles} {bytes : Bytes} {data : StateData}
    (there : files path = some bytes) (decodes : json.unmarshal bytes = .ok data) :
    newFileStateStore json files ⟨none, none⟩ = .ok ⟨data.term, data.votedFor⟩ := by
  simp [newFileStateStore, FileStateStore.load, readFile, there, decodes]

/-! ## Calls -/

theorem call_eq (s : Session) (made : StoreCall) :
    s.call json made = (⟨made.setting.assign s.store,
      ((made.setting.assign s.store).persist json s.files made.outcome).1⟩,
          ((made.setting.assign s.store).persist json s.files made.outcome).2) := by
  rcases made with ⟨setting, outcome⟩
  cases setting <;> rfl

/-- `persist` replaces the file by an encoding of the fields. -/
theorem exists_persist_eq (json : Json) (f : FileStateStore) (files : StateFiles) :
    Exists fun bytes => json.marshal ⟨f.term, f.votedFor⟩ = .ok bytes ∧
      json.unmarshal bytes = .ok ⟨f.term, f.votedFor⟩ ∧
      forall outcome, f.persist json files outcome =
          replace files tmpPath path bytes outcome.writeFile outcome.rename := by
  rcases json.roundTrips ⟨f.term, f.votedFor⟩ with ⟨bytes, encodes, decodes⟩
  refine ⟨bytes, encodes, decodes, fun outcome => ?_⟩
  simp only [FileStateStore.persist, encodes, replace]
  rcases writeFile files tmpPath bytes outcome.writeFile with ⟨written, _ | error⟩ <;> rfl

/-- A call returns an error exactly when one of its operations fails. -/
theorem error_iff_fails (json : Json) (s : Session) (made : StoreCall) :
    (s.call json made).2 ≠ none <-> made.Fails := by
  rcases exists_persist_eq json (made.setting.assign s.store) s.files with ⟨bytes, _, _, persists⟩
  rw [call_eq, persists, ne_eq, replace_eq_none_iff, not_and_or]
  rfl

/-! ## The register of a store -/

/-- A call as an assignment. -/
def StoreCall.assignment (made : StoreCall) : Assignment FileStateStore where
  change := fun f => made.setting.assign f
  succeeds := made.outcome.writeFile.isNone && made.outcome.rename.isNone

theorem succeeds_eq_false_iff {made : StoreCall} :
    made.assignment.succeeds = false <-> made.Fails := by
  rcases made with ⟨setting, writing, moving⟩
  cases writing <;> cases moving <;> simp [StoreCall.assignment, StoreCall.Fails]

/-- The memory of a register is the store, and its durable copy is what the directory opens to. -/
structure Refines (json : Json) (s : Session) (r : Register FileStateStore) : Prop where
  memory : s.store = r.memory
  durable : newFileStateStore json s.files ⟨none, none⟩ = .ok r.durable

variable {r : Register FileStateStore}

theorem Refines.call {s : Session} (refines : Refines json s r) (made : StoreCall) :
    Refines json (s.call json made).1 (r.assign made.assignment) := by
  rcases exists_persist_eq json (made.setting.assign s.store) s.files with
    ⟨bytes, _, decodes, persists⟩
  have returned := error_iff_fails json s made
  rw [call_eq, persists] at returned ⊢
  refine ⟨?_, ?_⟩
  · simp [Register.assign, StoreCall.assignment, refines.memory]
  · by_cases fails : made.Fails
    · have kept := replace_of_failure path_ne_tmpPath (returned.mpr fails)
      rw [newFileStateStore_congr kept, refines.durable]
      simp [Register.assign, succeeds_eq_false_iff.mpr fails]
    · have succeeds : made.assignment.succeeds = true :=
        by simpa using mt succeeds_eq_false_iff.mp fails
      have succeeded := replace_eq_none_iff.mp (not_not.mp (mt returned.mp fails))
      rw [succeeded.1, succeeded.2, newFileStateStore_of_encoding (replace_of_success bytes) decodes]
      rw [Register.assign, if_pos succeeds, StoreCall.assignment, refines.memory]

theorem Refines.run {s : Session} (refines : Refines json s r) (calls : List StoreCall) :
    Refines json (s.run json calls) (r.run StoreCall.assignment calls) := by
  induction calls generalizing s r with
  | nil => exact refines
  | cons made calls ih => exact ih (refines.call made)

theorem Refines.reopens_iff_agrees {s : Session} (refines : Refines json s r) :
    Reopens json s.files s.store <-> r.Agrees := by
  rw [reopens_iff, refines.durable, refines.memory, Register.Agrees, Except.ok.injEq, eq_comm]

theorem filesDuring_path (s : Session) (made : StoreCall) (stage : Stage Bytes) :
    s.filesDuring json made stage path = s.files path := by
  rcases json.roundTrips ⟨(made.setting.assign s.store).term,
      (made.setting.assign s.store).votedFor⟩ with
    ⟨bytes, encodes, _⟩
  simp only [Session.filesDuring, encodes]
  exact filesAt_target path_ne_tmpPath bytes stage

/-- A store that has opened a directory reports only what is durable exactly when every call that
fails sets its field to the value that the field was last set to. -/
theorem state_store_durable_iff (json : Json) (files : StateFiles) (store : FileStateStore)
    (opened : newFileStateStore json files ⟨none, none⟩ = .ok store) (calls : List StoreCall) :
    DurableReports json ⟨store, files⟩ calls <->
      forall (count : Nat) (made : StoreCall), calls[count]? = some made -> made.Fails ->
        made.setting.Repeats (lastSet store (calls.take count)) := by
  have refines (before : List StoreCall) :
      Refines json (Session.run json ⟨store, files⟩ before)
          (Register.run StoreCall.assignment ⟨store, store⟩ before) :=
    Refines.run ⟨rfl, opened⟩ before
  have memory (before : List StoreCall) :
      (Register.run StoreCall.assignment ⟨store, store⟩ before).memory = lastSet store before :=
    Register.memory_run before
  have inStep : (forall count, count ≤ calls.length ->
        (Register.run StoreCall.assignment ⟨store, store⟩ (calls.take count)).Agrees) <->
      forall (count : Nat) (made : StoreCall), calls[count]? = some made -> made.Fails ->
        made.setting.Repeats (lastSet store (calls.take count)) := by
    have agrees : (⟨store, store⟩ : Register FileStateStore).Agrees := rfl
    rw [Register.agrees_run_iff agrees]
    simp only [succeeds_eq_false_iff, memory]
    exact forall₂_congr fun _ _ => imp_congr_right fun _ => imp_congr_right fun _ =>
      assign_eq_iff_repeats
  constructor
  · intro durable
    apply inStep.mp
    intro count bound
    exact (refines _).reopens_iff_agrees.mp (durable.between count bound)
  · intro repeats
    have between (count : Nat) (bound : count ≤ calls.length) :=
      (refines _).reopens_iff_agrees.mpr (inStep.mpr repeats count bound)
    refine ⟨?_, between, ?_⟩
    · intro count made present returned
      have same := repeats count made present ((error_iff_fails json _ made).mp returned)
      rw [sameReports_iff, call_eq]
      apply assign_eq_iff_repeats.mpr
      rwa [(refines _).memory, memory]
    · intro count made present stage
      have bound := (List.getElem?_eq_some_iff.mp present).1
      have before := reopens_iff.mp (between count (Nat.le_of_lt bound))
      rw [reopens_iff, newFileStateStore_congr (filesDuring_path _ made stage)]
      exact before

/-! ## An encoding -/

/-- `{"term":` -/
def termKey : Bytes := [123, 34, 116, 101, 114, 109, 34, 58]

/-- `,"voted_for":"` -/
def votedForKey : Bytes := [44, 34, 118, 111, 116, 101, 100, 95, 102, 111, 114, 34, 58, 34]

/-- The encoding of a vote without characters that are escaped. -/
def marshalPlain (data : StateData) : Bytes :=
  termKey ++ (showNat data.term.toNat ++ (votedForKey ++ (data.votedFor ++ [34, 125])))

def unmarshalPlain (bytes : Bytes) : Except Bytes StateData :=
  let fields := bytes.drop termKey.length
  let behind := fields.dropWhile isDigit
  match parseUint (fields.takeWhile isDigit) with
  | none => .error []
  | some term =>
      if bytes.take termKey.length = termKey ∧ behind.take votedForKey.length = votedForKey then
        .ok ⟨UInt64.ofNat term, (behind.drop votedForKey.length).dropLast.dropLast⟩
      else .error []

theorem unmarshalPlain_marshalPlain (data : StateData) :
    unmarshalPlain (marshalPlain data) = .ok data := by
  have digits (byte : UInt8) (member : byte ∈ showNat data.term.toNat) : isDigit byte = true :=
    isDigit_of_mem_showNat member
  have taken : (showNat data.term.toNat ++ (votedForKey ++ (data.votedFor ++ [34, 125]))).takeWhile
      isDigit =
      showNat data.term.toNat := by
    rw [List.takeWhile_append_of_pos digits]
    simp [votedForKey, isDigit]
  have dropped : (showNat data.term.toNat ++
      (votedForKey ++ (data.votedFor ++ [34, 125]))).dropWhile isDigit =
      votedForKey ++ (data.votedFor ++ [34, 125]) := by
    rw [List.dropWhile_append_of_pos digits]
    simp [votedForKey, isDigit]
  simp only [unmarshalPlain, marshalPlain, List.drop_left, List.take_left, taken, dropped,
    parseUint_showNat data.term.toNat_lt]
  simp

/-- The encoding of `encoding/json` where nothing is escaped, read back by the places of
the fields. -/
def plainJson : Json where
  marshal := fun data => .ok (marshalPlain data)
  unmarshal := unmarshalPlain
  roundTrips := fun data => ⟨marshalPlain data, rfl, unmarshalPlain_marshalPlain data⟩

/-- Term 1 is set, and then set again by a call whose rename fails. -/
theorem state_store_durable_iff_repeated :
    DurableReports plainJson ⟨⟨0, []⟩, fun _ => none⟩
      [⟨.setTerm 1, ⟨none, none⟩⟩, ⟨.setTerm 1, ⟨none, some (.file [])⟩⟩] := by
  refine (state_store_durable_iff plainJson (fun _ => none) ⟨0, []⟩ rfl _).mpr ?_
  intro count made present fails
  match count with
  | 0 =>
      cases present
      simp [StoreCall.Fails] at fails
  | 1 =>
      cases present
      rfl
  | _ + 2 => cases present

/-- A new store, and a call `SetTerm(5)` whose write fails.  The getter returns 5, and the
directory opens to term 0.  After the vote has been set, it opens to term 5. -/
theorem failed_term_is_reported :
    let s : Session := ⟨⟨0, []⟩, fun _ => none⟩
    let failing : StoreCall := ⟨.setTerm 5, ⟨some (.file [], none), none⟩⟩
    let voting : StoreCall := ⟨.setVotedFor [97], ⟨none, none⟩⟩
    let opened (files : StateFiles) := newFileStateStore plainJson files ⟨none, none⟩
    opened s.files = .ok s.store ∧ (s.call plainJson failing).2 = some (.file []) ∧
      (s.call plainJson failing).1.store.getTerm = 5 ∧
        opened (s.call plainJson failing).1.files = .ok ⟨0, []⟩ ∧
      opened (s.run plainJson [failing, voting]).files = .ok ⟨5, [97]⟩ := by
  have decodes : plainJson.unmarshal (marshalPlain ⟨5, [97]⟩) = .ok ⟨5, [97]⟩ :=
    unmarshalPlain_marshalPlain ⟨5, [97]⟩
  exact ⟨rfl, rfl, rfl, rfl, newFileStateStore_of_encoding (by rfl) decodes⟩

end Storage
end Raft
end KVStore
