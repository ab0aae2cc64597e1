/-
Deka/Tasks/Runner.lean

The task runner: one thread for every dependency of every claimed task, and a table of task
states that they share.

A thread of `run` goes through phases, and a step takes one thread from one phase to the
next.  What happens under the lock is one step; the condition variable is the phase
`waiting`, which every `finish` ends.  Claiming a task and spawning the threads of its
dependencies is one step, because a thread that is spawned and not scheduled yet is the same
as one not spawned yet.  A thread is known by its place in the list of all threads.

The shell is not part of the repository: a command comes to an exit code or does not parse.
-/
import Deka.Lib.BTreeMap
import Deka.Lib.Text
import Mathlib.Logic.Function.Basic
import Mathlib.Data.List.Basic

namespace Deka.Tasks

open Deka.Lib

/-! ### Tasks -/

structure TaskError where
  message : String
  exitCode : Int
deriving DecidableEq, Repr

/-- `From<String>` -/
def TaskError.ofMessage (message : String) : TaskError := { message, exitCode := 1 }

structure TaskDef where
  command : String
  dependencies : List String
deriving DecidableEq, Repr

abbrev TaskMap := BTreeMap String TaskDef

abbrev Result := Except TaskError Unit

/-- What the command of a task comes to. -/
abbrev Shell := String → TaskDef → Except String Int

def runTask (shell : Shell) (name : String) (task : TaskDef) : Result :=
  if Text.trim task.command = "" then
    .error (TaskError.ofMessage s!"task `{name}` has empty command")
  else
    match shell name task with
    | .error message => .error (TaskError.ofMessage message)
    | .ok exitCode =>
        if exitCode = 0 then .ok ()
        else .error { message := s!"task `{name}` failed with exit code {exitCode}", exitCode }

/-- The dependencies in the order in which they are joined. -/
def TaskDef.sorted (task : TaskDef) : List String :=
  task.dependencies.mergeSort fun a b => (compare a b).isLE

def cycleError (stack : List String) (name : String) : TaskError :=
  TaskError.ofMessage ("task dependency cycle: " ++ String.intercalate " -> " (stack ++ [name]))

def unknownError (name : String) : TaskError := TaskError.ofMessage s!"unknown task `{name}`"

/-! ### The shared state -/

inductive TaskState where
  | inProgress
  | done (result : Result)

/-- Where a thread of `run` stands. -/
inductive Phase where
  | entering
  /-- on the condition variable -/
  | waiting
  /-- joining the threads of its dependencies, in order -/
  | joining (handles : List Nat)
  | running
  | finishing (result : Result)
  | finished (result : Result)

structure Thread where
  name : String
  stack : List String
  phase : Phase

/-- What the commands and the table see, in order. -/
inductive Event where
  | executed (name : String)
  | recorded (name : String) (result : Result)
deriving DecidableEq

structure State where
  table : String → Option TaskState
  threads : List Thread
  /-- the threads `run_tasks` joins -/
  handles : List Nat
  returned : Option Result
  /-- the newest event is the head -/
  log : List Event

/-- `notify_all` -/
def Thread.wake (t : Thread) : Thread :=
  match t.phase with
  | .waiting => { t with phase := .entering }
  | _ => t

namespace State

def setPhase (s : State) (i : Nat) (phase : Phase) : State :=
  { s with threads := s.threads.modify i fun t => { t with phase } }

/-- Put the task down as in progress and spawn a thread for each of its dependencies. -/
def claim (s : State) (i : Nat) (t : Thread) (task : TaskDef) : State :=
  { s with
    table := Function.update s.table t.name (some .inProgress)
    threads :=
      s.threads.modify i (fun t =>
        { t with phase := .joining (List.range' s.threads.length task.sorted.length) }) ++
      task.sorted.map fun dep =>
        { name := dep, stack := t.stack ++ [t.name], phase := .entering } }

/-- Record the result and wake everybody. -/
def finish (s : State) (i : Nat) (name : String) (result : Result) : State :=
  { s with
    table := Function.update s.table name (some (.done result))
    threads := (s.threads.map Thread.wake).modify i fun t => { t with phase := .finished result }
    log := .recorded name result :: s.log }

/-- The result of a thread that is through. -/
def result? (s : State) (i : Nat) : Option Result :=
  (s.threads[i]?).bind fun t =>
    match t.phase with
    | .finished result => some result
    | _ => none

end State

section

variable (tasks : TaskMap) (shell : Shell)

/-- `run` up to the claim of the task. -/
def enter (s : State) (i : Nat) (t : Thread) : State :=
  if t.name ∈ t.stack then s.setPhase i (.finished (.error (cycleError t.stack t.name)))
  else
    match tasks.get? t.name with
    | none => s.setPhase i (.finished (.error (unknownError t.name)))
    | some task =>
        match s.table t.name with
        | some (.done result) => s.setPhase i (.finished result)
        | some .inProgress => s.setPhase i .waiting
        | none => s.claim i t task

/-- The next step of a thread; `none` where it waits or is through. -/
def run (s : State) (i : Nat) (t : Thread) : Option State :=
  match t.phase with
  | .entering => some (enter tasks s i t)
  | .waiting => none
  | .joining [] => some (s.setPhase i .running)
  | .joining (h :: handles) =>
      match s.result? h with
      | none => none
      | some (.ok ()) => some (s.setPhase i (.joining handles))
      | some (.error e) => some (s.setPhase i (.finishing (.error e)))
  | .running =>
      match tasks.get? t.name with
      | none => none
      | some task =>
          some { s.setPhase i (.finishing (runTask shell t.name task)) with
            log := .executed t.name :: s.log }
  | .finishing result => some (s.finish i t.name result)
  | .finished _ => none

/-- The next step of `run_tasks`, which joins the threads it started in order. -/
def join (s : State) : Option State :=
  match s.returned, s.handles with
  | some _, _ => none
  | none, [] => some { s with returned := some (.ok ()) }
  | none, h :: handles =>
      match s.result? h with
      | none => none
      | some (.ok ()) => some { s with handles }
      | some (.error e) => some { s with returned := some (.error e) }

/-- The step of a thread, or of `run_tasks`. -/
def advance (s : State) : Option Nat → Option State
  | none => join s
  | some i => (s.threads[i]?).bind (run tasks shell s i)

/-- The threads of the started tasks stand at their beginning. -/
def State.start (starts : List String) : State where
  table _ := none
  threads := starts.map fun name => { name, stack := [], phase := .entering }
  handles := List.range starts.length
  returned := none
  log := []

/-- The states of the runs that start these tasks, whichever thread takes the next step. -/
inductive Reachable (starts : List String) : State → Prop where
  | start : Reachable starts (.start starts)
  | step {s s' : State} (choice : Option Nat) : Reachable starts s →
      advance tasks shell s choice = some s' → Reachable starts s'

/-- What `run_tasks` starts: the task itself, or those that a pattern matches. -/
def started (glob : String → Except String (String → Bool)) (name : String) :
    Except TaskError (List String) :=
  if tasks.containsKey name then .ok [name]
  else if ¬ ('*' ∈ name.toList ∨ '?' ∈ name.toList ∨ '[' ∈ name.toList) then
    .error (unknownError name)
  else
    match glob name with
    | .error message => .error (TaskError.ofMessage message)
    | .ok matched =>
        let names := tasks.keys.filter matched
        if names.isEmpty then .error (TaskError.ofMessage s!"no tasks matched `{name}`")
        else .ok names

end

end Deka.Tasks
