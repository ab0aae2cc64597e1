/-
Deka/Vm/Drive.lean

The scheduler: joins, host commands, one turn of all tasks, and the embedding
interface (`run_turn`, `poll`, `cancel`).

A turn runs every runnable task for a bounded slice, in the order of the task
identifiers from `turn_cursor` on, and collects garbage once at its end.  The
wakers are left out: they only tell the embedder when another turn is worth
while, and a run here is any sequence of turns.
-/
import Deka.Vm.Machine

namespace Deka.Vm

open Deka.Lib

set_option linter.dupNamespace false

variable {F σ : Type}

/-! ### Joins -/

def Outcome.isThrown : Outcome → Bool
  | .thrown _ => true
  | .value _ => false

namespace Join

/-- Keep the value of the input under the cursor. -/
def keep (join : Join) (outcome : Outcome) : Join :=
  match outcome, join.values[join.cursor]? with
  | .value h, some none =>
      { join with
        values := join.values.set join.cursor (some h)
        remaining := join.remaining - 1 }
  | _, _ => join

/-- The outcome of the input under the cursor, settled at `order`, is a candidate. -/
def candidate (join : Join) (order : Nat) (outcome : Outcome) : Join :=
  let order := if order ≤ join.createdEpoch then 0 else order
  match join.first with
  | none => { join with first := some (order, join.cursor, outcome) }
  | some (first, index, _) =>
      if order < first ∨ (order = first ∧ join.cursor < index) then
        { join with first := some (order, join.cursor, outcome) }
      else join

end Join

namespace M

/-- Look at the input under the cursor. -/
def visitInput (join : Join) (promise : Handle) : M F σ Join := do
  match ← get promise with
  | .promise (some (.error e)) => throw e
  | .promise (some (.ok outcome)) =>
      let join := join.keep outcome
      if join.kind = .race ∨ outcome.isThrown then
        match (← vm).completionOrder.get? promise with
        | some order => return join.candidate order outcome
        | none => throw (.error "missing promise settlement order")
      else return join
  | .promise none => return join
  | _ => throw (.error "promise combinator requires promises")

/-- At most `count` steps of a scan; the result says what is left of the budget. -/
def scanInputs : Nat → Join → Nat → M F σ (Join × Nat)
  | 0, join, remaining => return (join, remaining)
  | count + 1, join, remaining => do
      match join.inputs[join.cursor]? with
      | none => return (join, remaining - 1)
      | some promise =>
          let join ← visitInput join promise
          scanInputs count { join with cursor := join.cursor + 1 } (remaining - 1)

/-- What a scan leaves: an outcome, or a join to scan again. -/
def concludeJoin (join : Join) : M F σ (Join × Option Outcome) := do
  if join.cursor < join.inputs.length then return (join, none)
  match join.first with
  | some (order, _, outcome) =>
      -- A candidate newer than the start of this scan could have an earlier
      -- rival that settled behind the cursor.
      if order > join.scanEpoch then
        return ({ join with cursor := 0, checkedEpoch := none }, none)
      else return ({ join with first := none }, some outcome)
  | none =>
      if join.kind = .all ∧ join.remaining = 0 then
        let h ← alloc (.list (join.values.filterMap id))
        return (join, some (.value h))
      else return ({ join with cursor := 0, checkedEpoch := some join.scanEpoch }, none)

def pollJoin (join : Join) (remaining : Nat) : M F σ (Join × Option Outcome × Nat) := do
  let epoch := (← vm).completionEpoch
  let join := if join.cursor = 0 then { join with scanEpoch := epoch } else join
  let (join, left) ← scanInputs (min 256 remaining) join remaining
  let (join, outcome) ← concludeJoin join
  return (join, outcome, left)

/-! ### Collection -/

end M

/-- The handles a task keeps alive. -/
def Task.roots (task : Task) : List Handle :=
  task.promise ::
    match task.work with
    | .callbackWait promise => [promise]
    | .join join => join.inputs ++ join.values.filterMap id
    | .code frames => frames.flatMap fun f =>
        f.locals ++ f.stack.reverse ++ f.slotChildren.toList ++ f.thenCall.getD []
    | .host _ => []

/-- The roots of a collection, but for the callbacks. -/
def Vm.roots (vm : Vm F σ) (callbacks : List Handle) : List Handle :=
  vm.root.toList ++ vm.pins ++ vm.descriptors.values ++ callbacks ++
    vm.tasks.values.flatMap Task.roots

namespace M

variable [HostWorld F σ]

/-- A collection of the heap; where it fails the heap is left as it is then. -/
def collectHeap (roots : List Handle) : M F σ Unit :=
  liftHeap (Prog.ofExec fun H => H.collect roots)

def collect : M F σ Unit := do
  log .collected
  -- no task is running, so whatever the call stack holds is no one's
  modify fun s => { s with frames := [] }
  let vm ← vm
  let (callbacks, context) := vm.context.roots vm.world
  modifyVm fun vm => { vm with context }
  collectHeap (vm.roots callbacks)
  modifyVm fun vm =>
    { vm with
      completionOrder := vm.completionOrder.filter fun e => vm.heap.settled e.1 }

/-- Stop for good: nothing is left to run. -/
def cancel : M F σ Unit := do
  modifyVm fun vm =>
    { vm with
      context := vm.context.close
      tasks := []
      completionOrder := []
      pins := []
      descriptors := []
      root := none }
  collectHeap []

/-! ### Host commands -/

variable [Platform F]

def runCommand (command : Command F) : M F σ Unit := do
  match command with
  | .spawn job future =>
      unless (← vm).context.isCancelled job do
        discard (spawn (.host
          { future
            result := .unit
            resultChannel := false
            resultError := none
            job := some job
            ready := true }))
  | .cancel id =>
      let isJob (task : Task) : Bool := match task.work with
        | .host work => work.job = some id
        | _ => false
      ((← vm).tasks.filter fun e => isJob e.2).forM fun e => log (.cancelled e.1)
      modifyVm fun vm => { vm with tasks := vm.tasks.filter fun e => ¬ isJob e.2 }
  | .call callback args job completion =>
      if job.any (← vm).context.isCancelled then return
      let h ← ownedCallback callback
      let (function, captures, slotChildren) ←
        closureOf h "host callback is not callable"
      let args ← args.mapM allocHostValue
      let frame ← frame function captures args slotChildren
      let id := (← vm).nextTask
      discard (spawn (.code [frame]))
      modifyVm fun vm =>
        { vm with
          tasks := vm.tasks.map fun e => if e.1 = id then (id, { e.2 with completion }) else e }

/-- Run the queued commands the budget allows; says whether there were any. -/
def hostCommands (remaining : Nat) : M F σ (Bool × Nat) := do
  let (commands, context) := (← vm).context.take remaining
  modifyVm fun vm => { vm with context }
  commands.forM runCommand
  return (!commands.isEmpty, remaining - commands.length)

/-! ### One turn -/

end M

/-- What a turn has done so far. -/
structure Progress where
  remaining : Nat
  progressed : Bool
  deferred : Bool
deriving DecidableEq, Repr

/-- What one slice of a task came to. -/
structure Slice where
  task : Task
  result : Option (Except Fault Outcome)
  remaining : Nat
  progressed : Bool

def HostWork.isReady [HostWorld F σ] (world : σ) (work : HostWork) : Bool :=
  work.ready || HostWorld.woken F world work.future

/-- Whether a turn should run a task. -/
def Vm.runnable [HostWorld F σ] (vm : Vm F σ) (only : Option Handle) (task : Task) : Bool :=
  only.all (fun root => task.promise = root) &&
  task.waiting.all (fun promise =>
    match vm.heap.get promise with
    | .ok (.promise none) => false
    | _ => true) &&
  match task.work with
  | .host work => work.isReady (F := F) vm.world
  | .code _ | .callbackWait _ => true
  | .join join => join.checkedEpoch ≠ some vm.completionEpoch

/-- The tasks of a turn, from the cursor on and then from the start. -/
def Vm.schedule [HostWorld F σ] (vm : Vm F σ) (only : Option Handle) : List Nat :=
  let (before, after) := vm.tasks.partition fun e => e.1 < vm.turnCursor
  ((after ++ before).filter fun e => vm.runnable only e.2).map Prod.fst

namespace M

variable [Platform F] [HostWorld F σ]

/-- At most `count` instructions of the frames in the state. -/
def runCode (limit : Option Nat) (task : Task) :
    Nat → Nat → Bool → M F σ Slice
  | 0, remaining, progressed => return { task, result := none, remaining, progressed }
  | count + 1, remaining, progressed => do
      let remaining := remaining - 1
      modifyVm fun vm => { vm with instructions := vm.instructions + 1 }
      let instructions := (← vm).instructions
      if limit.any fun limit => instructions > limit then
        throw (.error "instruction limit exceeded")
      match ← Prog.attempt step with
      | .ok .continue => runCode limit task count remaining true
      | .ok (.blocked promise) =>
          return { task := { task with waiting := some promise }, result := none,
                   remaining, progressed }
      | .ok (.complete outcome) =>
          return { task, result := some (.ok outcome), remaining, progressed }
      | .error e => do
          log (.failed e)
          match e with
          | .panic site => panic site
          | e => return { task, result := some (.error e), remaining, progressed }

/-- One slice of a task that was taken out of the table. -/
def runTask (limit : Option Nat) (task : Task) (p : Progress) : M F σ Slice := do
  match task.work with
  | .callbackWait promise =>
      match ← get promise with
      | .promise (some outcome) =>
          return { task, result := some outcome, remaining := p.remaining - 1,
                   progressed := p.progressed }
      | .promise none =>
          return { task := { task with waiting := some promise }, result := none,
                   remaining := p.remaining - 1, progressed := p.progressed }
      | _ => throw (.error "invalid callback promise")
  | .join join =>
      let (join, outcome, remaining) ← pollJoin join p.remaining
      return { task := { task with work := .join join }, result := outcome.map .ok, remaining,
               progressed := p.progressed || remaining ≠ p.remaining }
  | .host work =>
      let world := (← vm).world
      let (reply, actions, world) := HostWorld.poll (F := F) work.future world
      modifyVm fun vm => { vm with context := vm.context.acts actions, world }
      let task := { task with work := .host { work with ready := false } }
      match reply with
      | none => return { task, result := none, remaining := p.remaining - 1,
                         progressed := p.progressed }
      | some value =>
          let result ← Prog.attempt
            (hostResult value work.result work.resultChannel work.resultError)
          match result with
          | .error (.panic site) => panic site
          | result =>
              return { task, result := some (result.map .value),
                       remaining := p.remaining - 1, progressed := p.progressed }
  | .code frames =>
      modify fun s => { s with frames }
      let slice ← runCode limit task (min 256 p.remaining) p.remaining p.progressed
      let frames ← Prog.reads fun s : State F σ => .ok s.frames
      modify fun s => { s with frames := [] }
      return { slice with task := { slice.task with work := .code frames } }

/-- The payload of a callback's `Result`: its value, or the text of its error. -/
def callbackPayload (h : Handle) : M F σ (Except String Handle) := do
  let .record record ← get h | throw (.error "callback did not return a Result")
  unless record.enumName = some "Result" do
    throw (.error "callback did not return a Result")
  let case ← field record "name" "Result has no case"
  let payload ← field record "value" "Result has no payload"
  match ← get case with
  | .string "Ok" => return .ok payload
  | .string "Err" =>
      let .string error ← get payload | throw (.error "callback Result error must be a string")
      return .error error
  | _ => throw (.error "invalid callback Result case")

def uncaught {α : Type} (h : Handle) : M F σ α := do
  let text ← liftHeap (HeapM.valueText h)
  throw (.error ("uncaught Throw: " ++ text))

/-- The value a callback returned, under the type the host expects. -/
def callbackValue (expected : HostType) (resultChannel : Bool) (handle : Handle) :
    M F σ (Except String (HostValue F)) := do
  let payload ← (if resultChannel then callbackPayload handle else pure (.ok handle))
  match payload with
  | .error error => return .error error
  | .ok handle =>
      let value ← wireValue handle
      unless expected.accepts value do
        throw (.error "callback returned the wrong result type")
      return .ok (← normalized expected value)

/-- What the host receives for an awaited callback. -/
def callbackResult (outcome : Except Fault Outcome) (expected : HostType)
    (resultChannel : Bool) : M F σ (Except String (HostValue F)) :=
  match outcome with
  | .ok (.value h) => callbackValue expected resultChannel h
  | .ok (.thrown h) => uncaught h
  | .error e => throw e

def resolve (completion : Completion) (value : Except String (HostValue F)) : M F σ Unit :=
  modifyVm fun vm => { vm with world := HostWorld.resolve completion.id value vm.world }

/-- Resolve an awaited callback; a failure is resolved too, and stops the machine. -/
def complete (completion : Completion) (outcome : Except Fault Outcome) : M F σ Unit := do
  match ← Prog.attempt (callbackResult outcome completion.result completion.resultChannel) with
  | .ok value => resolve completion value
  | .error (.panic site) => panic site
  | .error e =>
      resolve completion (.error e.text)
      throw e

/-- Whether the task's callback returned a promise to follow. -/
def followed (task : Task) (outcome : Except Fault Outcome) : M F σ (Option Handle) := do
  match task.completion, outcome with
  | some _, .ok (.value promise) =>
      return if (← get promise).isPromise then some promise else none
  | _, _ => return none

def park (id : Nat) (task : Task) : M F σ Unit := do
  log (.parked id)
  modifyVm fun vm => { vm with tasks := vm.tasks.insert id task }

/-- Settle the promise of a task; an error stops the machine. -/
def settleTask (promise : Handle) : Except Fault Outcome → M F σ Unit
  | .ok outcome => settlePromise promise (.ok outcome)
  | .error e => throw e

/-- A task has a result: follow it, or settle its promise. -/
def finishTask (id : Nat) (task : Task) (outcome : Except Fault Outcome) : M F σ Unit := do
  match ← followed task outcome with
  | some promise =>
      park id { task with work := .callbackWait promise, waiting := some promise }
  | none =>
      match task.completion with
      | some completion => complete completion outcome
      | none => pure ()
      settleTask task.promise outcome

/-- What becomes of a task after its slice. -/
def endSlice (id : Nat) (p : Progress) (slice : Slice) : M F σ Progress :=
  match slice.result with
  | some outcome => do
      finishTask id slice.task outcome
      return { p with remaining := slice.remaining, progressed := true }
  | none => do
      park id slice.task
      return { p with remaining := slice.remaining, progressed := slice.progressed }

/-- The turn of one task. -/
def turnTask (only : Option Handle) (limit : Option Nat) (id : Nat) (p : Progress) :
    M F σ Progress := do
  let some task := (← vm).tasks.get? id | throw (.error "missing scheduled task")
  log (.polled id)
  modifyVm fun vm => { vm with tasks := vm.tasks.erase id }
  let slice ← runTask limit { task with waiting := none } p
  if only.isNone then
    modifyVm fun vm => { vm with turnCursor := id + 1 }
  endSlice id p slice

/-- The turns of the scheduled tasks, while the budget lasts. -/
def turnTasks (only : Option Handle) (limit : Option Nat) :
    List Nat → Progress → M F σ Progress
  | [], p => return p
  | id :: ids, p =>
      if p.remaining = 0 then return { p with deferred := true }
      else do turnTasks only limit ids (← turnTask only limit id p)

/-- Host commands, when the whole machine is driven. -/
def commandsOf (only : Option Handle) (p : Progress) : M F σ Progress := do
  if only.isNone then
    let (progressed, remaining) ← hostCommands p.remaining
    return { p with remaining, progressed := p.progressed || progressed }
  else return p

def drive (budget : Nat) (only : Option Handle) (limit : Option Nat) : M F σ Progress := do
  let p ← commandsOf only { remaining := budget, progressed := false, deferred := false }
  let ids := (← vm).schedule only
  let p ← turnTasks only limit ids p
  let p ← commandsOf only p
  collect
  return p

/-! ### The embedding interface -/

/-- Drive persistent work; a failure stops the machine for good. -/
def runTurn (budget : Nat) : M F σ Progress := do
  if budget = 0 then throw (.error "turn budget must be positive")
  if (← vm).root.isNone then throw (.error "VM cancelled")
  match ← Prog.attempt (drive budget none none) with
  | .ok p => return p
  | .error e =>
      cancel
      throw e

/-- The result of the entry function, once there is one. -/
def rootResult : M F σ (Option Handle) := do
  let some root := (← vm).root | throw (.error "VM cancelled")
  match ← get root with
  | .promise (some (.ok (.value h))) => return some h
  | .promise (some (.ok (.thrown h))) => uncaught h
  | .promise (some (.error e)) => throw e
  | .promise none => return none
  | _ => throw (.error "invalid entry promise")

def pollInner : M F σ (Option Handle) := do
  if (← vm).root.isNone then throw (.error "VM cancelled")
  discard (drive 4096 none (← vm).instructionLimit)
  let root ← rootResult
  let vm ← vm
  if root.isSome ∧ (¬ vm.tasks.isEmpty ∨ vm.context.hasCommands) then return none
  return root

/-- Poll the program; `none` while it is pending.  A result stops the machine. -/
def poll : M F σ (Option (HostValue F)) := do
  match ← Prog.attempt pollInner with
  | .ok none => return none
  | .ok (some h) =>
      let result ← Prog.attempt (wireValue h)
      discard (Prog.attempt (cancel (F := F) (σ := σ)))
      match result with
      | .ok value => return some value
      | .error e => throw e
  | .error e =>
      discard (Prog.attempt (cancel (F := F) (σ := σ)))
      throw e

/-- The task of the entry function. -/
def spawnEntry : M F σ Handle := do
  let frame ← frame 0 [] [] none
  spawn (.code [frame])

/-- `Vm::new`, from a machine with nothing in it. -/
def start : M F σ Unit := do
  let program := (← vm).program
  Prog.reads fun _ => program.validate
  let entry ← function 0
  if entry.parameters ≠ 0 ∨ entry.captures ≠ 0 then
    throw (.error "entry function cannot take arguments/captures")
  let root ← spawnEntry
  modifyVm fun vm => { vm with root := some root }

end M

/-- The machine `Vm::new` fills. -/
def Vm.empty (program : Program F) (hosts : Hosts F σ) (world : σ) : Vm F σ :=
  { program, hosts, world
    context := {}
    heap := {}
    pins := []
    tasks := []
    nextTask := 0
    root := none
    instructions := 0
    instructionLimit := none
    descriptors := []
    turnCursor := 0
    completionEpoch := 0
    completionOrder := [] }

/-! ### Runs -/

/-- What can happen to a machine from the outside. -/
inductive Input (F σ : Type) where
  | turn (budget : Nat)
  | poll
  /-- host code runs between two turns -/
  | host (actions : List (HostAction F)) (world : σ)
  | limit (instructions : Nat)
  | cancel

section Run

variable [Platform F] [HostWorld F σ]

def Input.program : Input F σ → M F σ Unit
  | .turn budget => discard (M.runTurn budget)
  | .poll => discard M.poll
  | .host actions world =>
      M.modifyVm fun vm => { vm with context := vm.context.acts actions, world }
  | .limit instructions =>
      M.modifyVm fun vm => { vm with instructionLimit := some instructions }
  | .cancel => M.cancel

/-- The state after an input, whether it failed or not. -/
def Input.apply (s : State F σ) (input : Input F σ) : State F σ := (input.program.exec s).2

/-- The states a machine can be in between two inputs. -/
inductive Reachable (program : Program F) (hosts : Hosts F σ) : State F σ → Prop where
  | start {world : σ} {s : State F σ} :
      M.start.exec { vm := Vm.empty program hosts world } = (.ok (), s) →
      Reachable program hosts s
  | input {s : State F σ} (input : Input F σ) :
      Reachable program hosts s → Reachable program hosts (input.apply s)

end Run

end Deka.Vm
