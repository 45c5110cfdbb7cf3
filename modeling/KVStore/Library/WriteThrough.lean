import KVStore.Library.Runs
import Mathlib.Logic.Function.Basic

namespace KVStore
namespace WriteThrough

open Function

/-!
# Values in memory and in a file

A file is replaced by way of a temporary one:  the new contents are written to the
temporary file, which is then renamed.  Either operation may fail, and a write that
fails may leave anything behind.  Since only the rename touches the file itself, a
reader finds the old contents up to the rename, and the new ones from then on.

A value that is kept in such a file and in memory is a register with two copies.  An
assignment changes the copy in memory, and the durable copy only if it succeeds.  The
copies agree in all states of a run exactly when every assignment that fails is one
that changes nothing.
-/

/-! ## Files -/

section Replacement

variable {Name Contents Error : Type} [DecidableEq Name]

/-- The contents of files, by their names. -/
abbrev Files (Name Contents : Type) := Name -> Option Contents

/-- Write a file.  A failure comes with what is left of the file. -/
def writeFile (files : Files Name Contents) (name : Name) (contents : Contents) :
    Option (Error × Option Contents) -> Files Name Contents × Option Error
  | none => (update files name (some contents), none)
  | some (error, left) => (update files name left, some error)

/-- Rename a file, at once or not at all. -/
def rename (files : Files Name Contents) (source target : Name) :
    Option Error -> Files Name Contents × Option Error
  | none =>
      match files source with
      -- Without the file the operation does not succeed.
      | none => (files, none)
      | some contents => (update (update files source none) target (some contents), none)
  | some error => (files, some error)

/-- Replace a file by way of a temporary one. -/
def replace (files : Files Name Contents) (temporary target : Name) (contents : Contents)
    (writing : Option (Error × Option Contents)) (moving : Option Error) :
    Files Name Contents × Option Error :=
  match writeFile files temporary contents writing with
  | (written, some error) => (written, some error)
  | (written, none) => rename written temporary target moving

/-- How far a replacement has come, up to its rename. -/
inductive Stage (Contents : Type) where
  | started
  | writing (left : Option Contents)
  | written

/-- The files at a stage. -/
def filesAt (files : Files Name Contents) (temporary : Name) (contents : Contents) :
    Stage Contents -> Files Name Contents
  | .started => files
  | .writing left => update files temporary left
  | .written => update files temporary (some contents)

variable {files : Files Name Contents} {temporary target : Name}

theorem replace_eq_none_iff {contents : Contents} {writing : Option (Error × Option Contents)}
    {moving : Option Error} :
    (replace files temporary target contents writing moving).2 = none <->
      writing = none ∧ moving = none := by
  rcases writing with _ | ⟨error, left⟩
  · cases moving <;> simp [replace, writeFile, rename]
  · simp [replace, writeFile]

/-- A replacement that succeeds leaves the new contents. -/
theorem replace_of_success (contents : Contents) :
    (replace files temporary target contents (none : Option (Error × Option Contents)) none).1
    target = some contents := by
  simp [replace, writeFile, rename]

/-- One that fails leaves the old ones. -/
theorem replace_of_failure (distinct : target ≠ temporary) {contents : Contents}
    {writing : Option (Error × Option Contents)} {moving : Option Error}
    (failed : (replace files temporary target contents writing moving).2 ≠ none) :
    (replace files temporary target contents writing moving).1 target = files target := by
  rcases writing with _ | ⟨error, left⟩
  · cases moving with
    | none => exact absurd (replace_eq_none_iff.mpr ⟨rfl, rfl⟩) failed
    | some error => simp [replace, writeFile, rename, distinct]
  · simp [replace, writeFile, distinct]

/-- Up to the rename the file is as before. -/
theorem filesAt_target (distinct : target ≠ temporary) (contents : Contents)
    (stage : Stage Contents) :
    filesAt files temporary contents stage target = files target := by
  cases stage <;> simp [filesAt, distinct]

end Replacement

/-! ## Registers -/

/-- A value in memory and its durable copy. -/
structure Register (Value : Type) where
  memory : Value
  durable : Value

structure Assignment (Value : Type) where
  change : Value -> Value
  succeeds : Bool

namespace Register

variable {Value Input : Type}

def assign (r : Register Value) (assignment : Assignment Value) : Register Value where
  memory := assignment.change r.memory
  durable := if assignment.succeeds then assignment.change r.memory else r.durable

/-- The assignments of some inputs, one after the other. -/
def run (effect : Input -> Assignment Value) (r : Register Value) (inputs : List Input) :
    Register Value :=
  inputs.foldl (fun current input => current.assign (effect input)) r

def Agrees (r : Register Value) : Prop := r.memory = r.durable

variable {effect : Input -> Assignment Value} {r : Register Value}

theorem run_snoc (inputs : List Input) (input : Input) :
    r.run effect (inputs ++ [input]) = (r.run effect inputs).assign (effect input) := by
  simp [run]

/-- The copies still agree after an assignment that succeeds, and after one that changes nothing. -/
theorem agrees_assign_iff (agrees : r.Agrees) (assignment : Assignment Value) :
    (r.assign assignment).Agrees <->
        (assignment.succeeds = false -> assignment.change r.memory = r.memory) := by
  cases outcome : assignment.succeeds with
  | true => simp [Agrees, assign, outcome]
  | false =>
      have copies : r.memory = r.durable := agrees
      simp [Agrees, assign, outcome, copies]

/-- The rule for a run. -/
theorem agrees_run_iff (agrees : r.Agrees) (inputs : List Input) :
    (forall count, count ≤ inputs.length -> (r.run effect (inputs.take count)).Agrees) <->
      forall count input, inputs[count]? = some input -> (effect input).succeeds = false ->
        (effect input).change (r.run effect (inputs.take count)).memory =
            (r.run effect (inputs.take count)).memory := by
  have step (before : List Input) (input : Input) (stillAgrees : (r.run effect before).Agrees) :
      (r.run effect (before ++ [input])).Agrees <-> ((effect input).succeeds = false ->
        (effect input).change (r.run effect before).memory = (r.run effect before).memory) := by
    rw [run_snoc]
    exact agrees_assign_iff stillAgrees (effect input)
  exact @Runs.forall_take_iff Input (fun before => (r.run effect before).Agrees)
    (fun before input => (effect input).succeeds = false ->
      (effect input).change (r.run effect before).memory = (r.run effect before).memory)
        agrees step inputs

/-- Failures do not show in memory. -/
theorem memory_run (inputs : List Input) :
    (r.run effect inputs).memory =
        inputs.foldl (fun value input => (effect input).change value) r.memory := by
  induction inputs generalizing r with
  | nil => rfl
  | cons input inputs ih => exact ih

end Register

end WriteThrough
end KVStore
