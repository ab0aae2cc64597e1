/-
Deka/Reactive/Machine.lean

A reactive scope under an arbitrary program.

The program is whatever code calls the scope: between two calls anything may happen
next, so a run is a list of `Action`s.  The stack holds the calls that are still
open, innermost first.  Some frames belong to the program (`batch`, an `update`
closure, `owned`, `catch_unwind`, the body of a reaction) and the program moves
while one of them is on top.  The others belong to the scope: `tick` takes its next
step.  A panic unwinds the stack frame by frame and runs the drop glue of each;
outside a `catching` frame it ends the thread.

* `observe` is `installing`, with the evaluation above it.
* `evaluate` is `starting` while the previous run's owner is dropped, then
  `evaluating` while the body runs, then `leaving`.
* Dropping a `ReactiveOwner` is `dropping`, one item a tick.

Program code runs in no destructor of a value or closure.  A handle can be used once
it has been returned; `observe` returns its handle before its last flush here.
-/
import Deka.Lib.Reach
import Deka.Reactive.Core

namespace Deka.Reactive

open Deka.Lib

/-! ### Frames and states -/

inductive Frame (V : Type) where
  | batch
  | update (target : Signal)
  | owned
  | catching
  | installing (reaction : Effect) (output : Option Signal)
  | starting (slot : Nat) (output : Option Signal)
  | evaluating (reaction : Effect) (output : Option Signal) (reads : List (Read V))
  | leaving (reaction : Effect) (reads : List (Read V)) (result : Option V)
  /-- the reactions run so far: `turns` of the source is their number -/
  | flushing (turns : List (Effect × Kind))
  | dropping (items : List Item)

/-- The program moves while this frame is on top. -/
def Frame.isUser {V : Type} : Frame V → Bool
  | .batch | .update _ | .owned | .catching | .evaluating .. => true
  | .installing .. | .starting .. | .leaving .. | .flushing _ | .dropping _ => false

structure State (V : Type) where
  core : Core V
  stack : List (Frame V)
  panicking : Bool
  /-- the `ReactiveOwner`s the program holds -/
  detached : List Owned
  /-- the handles the program was given: `Signal`, `Derived`, `Effect` -/
  signals : Finset Signal
  deriveds : Finset Signal
  effects : Finset Effect
  /-- how often a signal was written, for the statements -/
  writes : Signal → Nat

inductive Action (V : Type) where
  | signal (value : V)
  | derived
  | effect
  | read (r : Signal)
  | set (r : Signal) (value : V)
  | beginUpdate (r : Signal)
  /-- the update closure returns and leaves `value` behind its borrow -/
  | endUpdate (value : V)
  | beginBatch
  | endBatch
  | beginOwned
  | endOwned
  | dropOwner (index : Nat)
  | dispose (e : Effect)
  | flush
  /-- the body of a reaction returns, of a derived value with its result -/
  | finish (result : Option V)
  | beginCatch
  | endCatch
  | panic
  /-- one frame of a panic; an update closure may have written `left` before it -/
  | unwind (left : Option V)
  | tick

namespace State

variable {V : Type}

def initial : State V where
  core := .empty
  stack := []
  panicking := false
  detached := []
  signals := ∅
  deriveds := ∅
  effects := ∅
  writes := fun _ => 0

/-- The program may move. -/
def userTurn (s : State V) : Bool :=
  !s.panicking &&
    match s.stack with
    | [] => true
    | frame :: _ => frame.isUser

/-! ### Parts of the operations -/

/-- `Core::flush` up to its loop. -/
def flush (s : State V) : State V :=
  if s.core.depth ≠ 0 ∨ s.core.flushing = true then s
  else { s with core := { s.core with flushing := true }, stack := .flushing [] :: s.stack }

/-- `Core::changed` -/
def changed (s : State V) (slot : Nat) : State V :=
  if s.panicking then { s with core := s.core.changed slot }
  else { s with core := s.core.changed slot }.flush

/-- A write of `value` through a handle, and nothing if the handle is stale. -/
def write (s : State V) (r : Signal) (value : Option V) : State V :=
  match s.core.values.find? r with
  | none => s
  | some cell =>
      { s with
        core := s.core.setCell r ⟨value.or cell.content, false⟩
        writes := Function.update s.writes r (s.writes r + 1) }

/-- `Core::evaluate` up to the drop of the previous run's owner. -/
def evaluate (s : State V) (slot : Nat) : State V :=
  match s.core.observers.slots slot with
  | none => s
  | some observer =>
      { s with
        core := { s.core with observers := s.core.observers.set slot { observer with runOwner := none } }
        stack := .dropping ((observer.runOwner.getD .empty).items) :: .starting slot observer.output
          :: s.stack }

/-- The registration and the batch of `observe`. -/
def register (s : State V) (kind : Kind) (output : Option Signal) : State V :=
  { s with
    core := { (s.core.register kind output).2 with
      depth := (s.core.register kind output).2.depth + 1 }
    stack := .installing (s.core.register kind output).1 output :: s.stack }

/-- `observe` up to the first evaluation. -/
def observe (s : State V) (kind : Kind) (output : Option Signal) : State V :=
  (s.register kind output).evaluate (s.core.register kind output).1.slot

/-- `Capture::drop`, and the owner of the run. -/
def leave (s : State V) (e : Effect) (latest : Option (Run V)) : Owned × State V :=
  let core := s.core.capture e latest
  (core.popOwner.1, { s with core := core.popOwner.2 })

/-- The innermost run gets one more read. -/
def logRead (entry : Read V) : List (Frame V) → List (Frame V)
  | [] => []
  | .evaluating e output reads :: stack => .evaluating e output (reads ++ [entry]) :: stack
  | .leaving e reads result :: stack => .leaving e (reads ++ [entry]) result :: stack
  | frame :: stack => frame :: logRead entry stack

/-! ### What the program calls -/

/-- `signal` -/
def signal (s : State V) (value : V) : State V :=
  { s with
    core := (s.core.allocate (some value)).2
    signals := insert (s.core.allocate (some value)).1 s.signals }

/-- `derived` -/
def derived (s : State V) : State V :=
  { s with core := (s.core.allocate none).2 }.observe .derived (some (s.core.allocate none).1)

/-- `effect` -/
def effect (s : State V) : State V := s.observe .effect none

/-- `Signal::try_get` -/
def read (s : State V) (r : Signal) : State V :=
  { s with
    core :=
      match s.core.tryGet r with
      | .error _ => s.core
      | .ok _ => s.core.observeRead r.slot
    stack := logRead ⟨r, s.core.tryGet r, s.writes r⟩ s.stack }

/-- `Signal::try_set` -/
def set (s : State V) (r : Signal) (value : V) : State V :=
  match s.core.values.find? r with
  | none => s
  | some cell => if cell.borrowed then s else (s.write r (some value)).changed r.slot

/-- `Signal::update` up to the call of its closure. -/
def beginUpdate (s : State V) (r : Signal) : State V :=
  match s.core.values.find? r with
  | none => s
  | some cell =>
      if cell.borrowed || cell.content.isNone then s
      else { s with core := s.core.setCell r { cell with borrowed := true }, stack := .update r :: s.stack }

/-- The end of `Scope::batch`. -/
def endBatch (s : State V) : State V :=
  { s with core := { s.core with depth := s.core.depth - 1 } }.flush

/-- `owned` up to the call of its closure. -/
def beginOwned (s : State V) : State V :=
  { s with core := { s.core with owners := .empty :: s.core.owners }, stack := .owned :: s.stack }

/-- The drop of a `ReactiveOwner`. -/
def drop (s : State V) (owner : Owned) : State V :=
  { s with stack := .dropping owner.items :: s.stack }

def dropOwner (s : State V) (index : Nat) : Option (State V) :=
  (s.detached[index]?).map fun owner => { s with detached := s.detached.eraseIdx index }.drop owner

/-- `Effect::dispose` -/
def dispose (s : State V) (e : Effect) : State V :=
  if s.core.observers.generations e.slot = e.generation then
    { s with core := (s.core.disposeObserver e.slot).2 }.drop
      ((s.core.disposeObserver e.slot).1.getD .empty)
  else s

/-- The last lines of the callback of `derived`. -/
def publish [BEq V] (s : State V) (output : Signal) (next : V) : State V :=
  match s.core.values.find? output with
  | none => s
  | some cell =>
      if cell.content == some next then s
      else (s.write output (some next)).changed output.slot

/-- The body returns. -/
def finish [BEq V] (s : State V) (result : Option V) : Option (State V) :=
  match s.stack with
  | .evaluating e output reads :: stack =>
      match output, result with
      | none, none => some { s with stack := .leaving e reads none :: stack }
      | some output, some next =>
          some ({ s with stack := .leaving e reads (some next) :: stack }.publish output next)
      | _, _ => none
  | _ => none

/-- The ends of the program's own frames. -/
def close (s : State V) : Action V → Option (State V)
  | .endUpdate value =>
      match s.stack with
      | .update r :: stack =>
          some (({ s with stack := stack }.write r (some value)).changed r.slot)
      | _ => none
  | .endBatch =>
      match s.stack with
      | .batch :: stack => some { s with stack := stack }.endBatch
      | _ => none
  | .endOwned =>
      match s.stack with
      | .owned :: stack =>
          some { s with
            core := s.core.popOwner.2
            detached := s.detached ++ [s.core.popOwner.1]
            stack := stack }
      | _ => none
  | .endCatch =>
      match s.stack with
      | .catching :: stack => some { s with stack := stack }
      | _ => none
  | _ => none

/-! ### What the scope does by itself -/

/-- The reaction in a slot, and its kind. -/
def pick (s : State V) (slot : Nat) : Effect × Kind :=
  (⟨slot, s.core.observers.generations slot⟩, if s.core.isDerived slot then .derived else .effect)

/-- One turn of the loop of `Core::flush`. -/
def turn (s : State V) (turns : List (Effect × Kind)) (stack : List (Frame V)) : State V :=
  match s.core.next with
  | none => { s with core := { s.core with flushing := false }, stack := stack }
  | some slot =>
      if turns.length + 1 ≤ 10000 then
        { s with
          core := { s.core with dirty := s.core.dirty.erase slot }
          stack := .flushing (turns ++ [s.pick slot]) :: stack }.evaluate slot
      else { s with panicking := true }

/-- One item of an owner that is being dropped. -/
def dropItem (s : State V) (items : List Item) (stack : List (Frame V)) : State V :=
  match items with
  | [] => { s with stack := stack }
  | .effect e :: items =>
      if s.core.observers.generations e.slot = e.generation then
        { s with
          core := (s.core.disposeObserver e.slot).2
          stack := .dropping (((s.core.disposeObserver e.slot).1.getD .empty).items ++ items) :: stack }
      else { s with stack := .dropping items :: stack }
  | .value slot :: items =>
      { s with core := s.core.release slot, stack := .dropping items :: stack }

/-- The end of `evaluate`: the owner goes to the observer, or is dropped with it. -/
def settle (s : State V) (e : Effect) (owner : Owned) : State V :=
  match s.core.observers.find? e with
  | none => s.drop owner
  | some observer =>
      { s with core := { s.core with observers := s.core.observers.set e.slot { observer with runOwner := some owner } } }

/-- The program gets the handle of a new reaction. -/
def issue (s : State V) (e : Effect) : Option Signal → State V
  | none => { s with effects := insert e s.effects }
  | some output => { s with deriveds := insert output s.deriveds }

def tick (s : State V) : Option (State V) :=
  match s.stack with
  | .dropping items :: stack => some (s.dropItem items stack)
  | .starting slot output :: stack =>
      some { s with
        core := { s.core with owners := .empty :: s.core.owners, reads := .empty :: s.core.reads }
        stack := .evaluating ⟨slot, s.core.observers.generations slot⟩ output [] :: stack }
  | .leaving e reads result :: stack =>
      let left := { s with stack := stack }.leave e (some ⟨reads, result, s.writes⟩)
      some (left.2.settle e left.1)
  | .installing e output :: stack => some ({ s with stack := stack }.issue e output).endBatch
  | .flushing turns :: stack => some (s.turn turns stack)
  | _ => none

/-- The drop glue of the innermost frame while a panic unwinds. -/
def unwind (s : State V) (left : Option V) : Option (State V) :=
  match s.stack with
  | [] => none
  | .dropping _ :: _ => none
  | .batch :: stack | .installing _ _ :: stack =>
      some { s with core := { s.core with depth := s.core.depth - 1 }, stack := stack }
  | .update r :: stack => some (({ s with stack := stack }.write r left).changed r.slot)
  | .owned :: stack => some ({ s with core := s.core.popOwner.2, stack := stack }.drop s.core.popOwner.1)
  | .catching :: stack => some { s with panicking := false, stack := stack }
  | .starting _ _ :: stack => some { s with stack := stack }
  | .evaluating e _ _ :: stack | .leaving e _ _ :: stack =>
      let gone := { s with stack := stack }.leave e none
      some (gone.2.drop gone.1)
  | .flushing _ :: stack =>
      some { s with core := { s.core with flushing := false }, stack := stack }

/-! ### Steps -/

/-- Nothing is being dropped. -/
def settled (s : State V) : Bool :=
  match s.stack with
  | .dropping _ :: _ => false
  | _ => true

/-- Who may take an action: the program, a panic or the scope. -/
def allowed (s : State V) : Action V → Bool
  | .tick => !s.panicking || !s.settled
  | .unwind _ => s.panicking
  | .dropOwner _ => s.userTurn || (s.panicking && s.settled)
  | .read r => s.userTurn && decide (r ∈ s.signals ∪ s.deriveds)
  | .set r _ | .beginUpdate r => s.userTurn && decide (r ∈ s.signals)
  | .dispose e => s.userTurn && decide (e ∈ s.effects)
  | _ => s.userTurn

def perform [BEq V] (s : State V) : Action V → Option (State V)
  | .signal value => some (s.signal value)
  | .derived => some s.derived
  | .effect => some s.effect
  | .read r => some (s.read r)
  | .set r value => some (s.set r value)
  | .beginUpdate r => some (s.beginUpdate r)
  | .beginBatch =>
      some { s with core := { s.core with depth := s.core.depth + 1 }, stack := .batch :: s.stack }
  | .beginOwned => some s.beginOwned
  | .dropOwner index => s.dropOwner index
  | .dispose e => some (s.dispose e)
  | .flush => some s.flush
  | .finish result => s.finish result
  | .beginCatch => some { s with stack := .catching :: s.stack }
  | .panic => some { s with panicking := true }
  | .unwind left => s.unwind left
  | .tick => s.tick
  | .endUpdate value => s.close (.endUpdate value)
  | .endBatch => s.close .endBatch
  | .endOwned => s.close .endOwned
  | .endCatch => s.close .endCatch

def apply [BEq V] (s : State V) (a : Action V) : Option (State V) :=
  if s.allowed a then s.perform a else none

/-- A run of the program, action by action. -/
def run [BEq V] (s : State V) (actions : List (Action V)) : Option (State V) :=
  actions.foldlM State.apply s

/-- The state after these actions; `s` if they cannot be taken. -/
def after [BEq V] (s : State V) (actions : List (Action V)) : State V := (s.run actions).getD s

end State

/-- One step of a run. -/
def Step {V : Type} [BEq V] (s t : State V) : Prop := ∃ a, s.apply a = some t

/-- The states a program can bring the scope to. -/
def Reachable {V : Type} [BEq V] : State V → Prop := Reach Step {State.initial}

theorem reach_after {V : Type} [BEq V] {roots : Set (State V)} {s : State V}
    (hs : Reach Step roots s) (actions : List (Action V)) :
    Reach Step roots (s.after actions) := by
  have hrun : ∀ t, s.run actions = some t → Reach Step roots t := by
    induction actions generalizing s with
    | nil =>
        intro t ht
        cases ht
        exact hs
    | cons a actions ih =>
        intro t ht
        simp only [State.run, List.foldlM_cons, Option.bind_eq_bind, Option.bind_eq_some_iff] at ht
        obtain ⟨next, ha, hrest⟩ := ht
        exact ih (.step hs ⟨a, ha⟩) t hrest
  unfold State.after
  cases h : s.run actions with
  | none => exact hs
  | some t => exact hrun t h

end Deka.Reactive
