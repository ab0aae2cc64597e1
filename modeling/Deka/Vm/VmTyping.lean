/-
Deka/Vm/VmTyping.lean

The invariant of the machine and the typing rules of machine programs.

`Vm.Sound` is the invariant of a machine and a call stack: the heap is well
typed, every handle the machine stores is good, frames and tasks are well formed.
Handles that are not roots of a collection are good for another reason, which is
part of the invariant: the promise a task waits for is the top of its operand
stack, and the first outcome a join has seen is the outcome of one of its inputs.

`Inv` adds what holds of the trace: the machine was sound at every event, a
promise settles at most once, and a task leaves the table only when its promise
settles or its job is cancelled.  `running` is the task that was taken out of the
table to be run.
-/
import Deka.Vm.Drive
import Deka.Vm.HostTyping
import Deka.Vm.JsonTyping

namespace Deka.Vm

open Deka.Lib

set_option linter.dupNamespace false

variable {F σ : Type}

/-! ### Frames, joins and tasks -/

namespace Frame

/-- The references a frame holds. -/
def refs (frame : Frame) : Set Ref :=
  cells frame.locals ∪ vals frame.stack ∪ vals frame.slotChildren.toList ∪
    vals (frame.thenCall.getD [])

/-- A frame has exactly the cells its function declares. -/
def WellFormed (p : Program F) (frame : Frame) : Prop :=
  ∃ f, p.functions[frame.function]? = some f ∧ frame.locals.length = f.locals

end Frame

def framesRefs (frames : List Frame) : Set Ref := {r | ∃ frame ∈ frames, r ∈ frame.refs}

namespace Join

/-- The references a join holds; its first outcome is that of a settled input. -/
def refs (join : Join) : Set Ref :=
  vals join.inputs ∪ vals (join.values.filterMap id) ∪
    {r | ∃ x h, join.first = some x ∧ join.inputs[x.2.1]? = some h ∧
      r = .settled h (.ok x.2.2)}

def WellFormed (join : Join) : Prop :=
  join.values.length = join.inputs.length ∧
    ∀ x, join.first = some x → ∃ h, join.inputs[x.2.1]? = some h

end Join

def Work.refs : Work → Set Ref
  | .code frames => framesRefs frames
  | .join j => j.refs
  | .callbackWait promise => {.val promise}
  | .host _ => ∅

def Work.WellFormed (p : Program F) : Work → Prop
  | .code frames => (∀ frame ∈ frames, frame.WellFormed p) ∧ frames.length ≤ 1024
  | .join j => j.WellFormed
  | .callbackWait _ => True
  | .host work => work.result.CasesDistinct

namespace Task

/-- The references of a task; its own promise is pending. -/
def refs (task : Task) : Set Ref := insert (.pending task.promise) task.work.refs

/-- A waiting task holds the promise it waits for. -/
def Waits (task : Task) : Prop :=
  ∀ h, task.waiting = some h →
    task.work = .callbackWait h ∨
      ∃ frame frames, task.work = .code (frame :: frames) ∧ frame.stack.head? = some h

def WellFormed (p : Program F) (task : Task) : Prop :=
  task.work.WellFormed p ∧ task.Waits

end Task

/-! ### The machine -/

namespace Vm

/-- The handles stored outside the tasks. -/
def handles (vm : Vm F σ) : List Handle :=
  vm.root.toList ++ vm.pins ++ vm.descriptors.values ++ vm.context.callbacks.values

def refs (vm : Vm F σ) : Set Ref := vals vm.handles ∪ {r | ∃ e ∈ vm.tasks, r ∈ e.2.refs}

def promises (vm : Vm F σ) : List Handle := vm.tasks.map fun e => e.2.promise

structure Sound (p : Program F) (hosts : Hosts F σ) (vm : Vm F σ) (frames : List Frame) :
    Prop where
  program : vm.program = p
  hosts : vm.hosts = hosts
  heap : vm.heap.Typed p
  refs : ∀ r ∈ vm.refs, vm.heap.Good r
  frameRefs : ∀ r ∈ framesRefs frames, vm.heap.Good r
  wellFormed : ∀ frame ∈ frames, frame.WellFormed p
  depth : frames.length ≤ 1024
  tasks : ∀ e ∈ vm.tasks, e.2.WellFormed p
  ids : vm.tasks.keys.Nodup
  next : ∀ id ∈ vm.tasks.keys, id < vm.nextTask
  promises : vm.promises.Nodup
  orderKeys : vm.completionOrder.keys.Nodup
  epochs : ∀ h e, vm.completionOrder.get? h = some e → e ≤ vm.completionEpoch

/-- Every live settled promise has an entry in the settlement order. -/
def Ordered (vm : Vm F σ) : Prop :=
  ∀ h, vm.heap.settled h = true → ∃ e, vm.completionOrder.get? h = some e

end Vm

/-! ### Time -/

/-- How a value may change from one event to a later one. -/
inductive Value.Later : Value F → Value F → Prop where
  | evolves {v w : Value F} : v.Evolves w → Later v w
  | settles (outcome : Except Fault Outcome) :
      Later (.promise none) (.promise (some outcome))

theorem Value.Later.trans {u v w : Value F} (h : u.Later v) (k : v.Later w) : u.Later w := by
  cases h with
  | evolves h =>
      cases k with
      | evolves k => exact .evolves (h.trans k)
      | settles outcome =>
          cases h
          exact .settles outcome
  | settles outcome =>
      cases k with
      | evolves k =>
          cases k
          exact .settles outcome

/-- One machine is a later state of the other. -/
structure Vm.Follows (old new : Vm F σ) : Prop where
  values : ∀ h v, old.heap.lookup h = some v →
    (∃ w, new.heap.lookup h = some w ∧ v.Later w) ∨ new.heap.Freed h
  freed : ∀ h, old.heap.Freed h → new.heap.Freed h
  epoch : old.completionEpoch ≤ new.completionEpoch
  next : old.nextTask ≤ new.nextTask

theorem Vm.Follows.trans {u v w : Vm F σ} (h : u.Follows v) (k : v.Follows w) :
    u.Follows w where
  values := by
    intro x a ha
    rcases h.values x a ha with ⟨b, hb, hab⟩ | hf
    · rcases k.values x b hb with ⟨c, hc, hbc⟩ | hf
      · exact Or.inl ⟨c, hc, hab.trans hbc⟩
      · exact Or.inr hf
    · exact Or.inr (k.freed x hf)
  freed := fun x hx => k.freed x (h.freed x hx)
  epoch := h.epoch.trans k.epoch
  next := h.next.trans k.next

/-- A machine whose heap has only grown. -/
theorem Vm.Follows.of_grows {old new : Vm F σ} (hheap : old.heap.Grows new.heap)
    (hepoch : old.completionEpoch ≤ new.completionEpoch) (hnext : old.nextTask ≤ new.nextTask) :
    old.Follows new where
  values := by
    intro h v hv
    obtain ⟨w, hw, he⟩ := hheap.values h v hv
    exact Or.inl ⟨w, hw, .evolves he⟩
  freed := hheap.freed
  epoch := hepoch
  next := hnext

theorem Vm.Follows.refl (vm : Vm F σ) : vm.Follows vm :=
  .of_grows (.refl _) (Nat.le_refl _) (Nat.le_refl _)

/-- The promise `h` was settled with `outcome`: it still is, or it is gone. -/
def Vm.Ended (vm : Vm F σ) (h : Handle) (outcome : Except Fault Outcome) : Prop :=
  vm.heap.lookup h = some (.promise (some outcome)) ∨ vm.heap.Freed h

theorem Vm.Ended.follows {old new : Vm F σ} (hf : old.Follows new) {h : Handle}
    {outcome : Except Fault Outcome} (he : old.Ended h outcome) : new.Ended h outcome := by
  rcases he with he | he
  · rcases hf.values h _ he with ⟨w, hw, hl⟩ | hfreed
    · cases hl with
      | evolves hl =>
          cases hl
          exact Or.inl hw
    · exact Or.inr hfreed
  · exact Or.inr (hf.freed h he)

/-! ### The trace -/

/-- What holds of an event once the machine has moved on to `vm`. -/
structure Event.Before (e : Event F σ) (vm : Vm F σ) : Prop where
  follows : e.vm.Follows vm
  settled : ∀ h outcome, e.label = .settled h outcome →
    e.vm.completionEpoch < vm.completionEpoch ∧ vm.Ended h outcome

theorem Event.Before.trans {e : Event F σ} {vm vm' : Vm F σ} (h : e.Before vm)
    (k : vm.Follows vm') : e.Before vm' where
  follows := h.follows.trans k
  settled := by
    intro x outcome hl
    obtain ⟨hlt, hended⟩ := h.settled x outcome hl
    exact ⟨lt_of_lt_of_le hlt k.epoch, hended.follows k⟩

/-- No step of the trace wrapped a promise in a newtype. -/
def NoWrap (trace : List (Event F σ)) : Prop :=
  ∀ e ∈ trace, ∀ v, e.label = .newtype v → v.isPromise = false

/-- What holds of a trace by itself. -/
structure Past (p : Program F) (hosts : Hosts F σ) (trace : List (Event F σ)) : Prop where
  sound : ∀ e ∈ trace, e.vm.Sound p hosts e.frames
  pairwise : trace.Pairwise fun new old => old.Before new.vm
  fresh : ∀ e ∈ trace, ∀ h outcome, e.label = .settled h outcome →
    e.vm.heap.lookup h = some (.promise none)
  ordered : NoWrap trace → ∀ e ∈ trace, e.vm.Ordered

/-- A settled or cancelled event for a task. -/
def Done (trace : List (Event F σ)) (id : Nat) (promise : Handle) : Prop :=
  ∃ e ∈ trace, (∃ outcome, e.label = .settled promise outcome) ∨ e.label = .cancelled id

/-- The task table agrees with the trace; `running` is out of the table. -/
structure Accounted (running : Option (Nat × Handle)) (vm : Vm F σ) (trace : List (Event F σ)) :
    Prop where
  spawned : ∀ e ∈ trace, ∀ id h, e.label = .spawned id h →
    (∃ task, (id, task) ∈ vm.tasks ∧ task.promise = h) ∨ running = some (id, h) ∨
      Done trace id h
  tasks : ∀ e ∈ vm.tasks, ∃ x ∈ trace, x.label = .spawned e.1 e.2.promise
  cancelled : ∀ e ∈ trace, ∀ id, e.label = .cancelled id →
    id ∉ vm.tasks.keys ∧ id < vm.nextTask ∧ ∀ h, running ≠ some (id, h)
  running : ∀ id h, running = some (id, h) →
    vm.heap.Good (.pending h) ∧ h ∉ vm.promises ∧ id ∉ vm.tasks.keys ∧ id < vm.nextTask ∧
      ∃ x ∈ trace, x.label = .spawned id h

structure Inv (p : Program F) (hosts : Hosts F σ) (running : Option (Nat × Handle))
    (s : State F σ) : Prop where
  sound : s.vm.Sound p hosts s.frames
  past : Past p hosts s.trace
  before : ∀ e ∈ s.trace, e.Before s.vm
  ordered : NoWrap s.trace → s.vm.Ordered
  accounted : Accounted running s.vm s.trace

/-- A trace has grown by events of instructions only. -/
def Logs (old new : List (Event F σ)) : Prop :=
  ∃ events, new = events ++ old ∧ ∀ e ∈ events, e.label.isInner = true

theorem Logs.refl (trace : List (Event F σ)) : Logs trace trace :=
  ⟨[], rfl, fun _ he => absurd he List.not_mem_nil⟩

theorem Logs.trans {a b c : List (Event F σ)} (h : Logs a b) (k : Logs b c) : Logs a c := by
  obtain ⟨new, rfl, hn⟩ := h
  obtain ⟨newer, rfl, hn'⟩ := k
  refine ⟨newer ++ new, (List.append_assoc _ _ _).symm, fun e he => ?_⟩
  rcases List.mem_append.mp he with he | he
  · exact hn' e he
  · exact hn e he

theorem Logs.cons {e : Event F σ} (h : e.label.isInner = true) (trace : List (Event F σ)) :
    Logs trace (e :: trace) :=
  ⟨[e], rfl, fun x hx => by rw [List.mem_singleton.mp hx, h]⟩

/-- What a machine program may change. -/
structure Extends (s t : State F σ) : Prop where
  heap : s.vm.heap.Grows t.vm.heap
  root : t.vm.root = s.vm.root
  epoch : s.vm.completionEpoch ≤ t.vm.completionEpoch
  next : s.vm.nextTask ≤ t.vm.nextTask
  trace : Logs s.trace t.trace

theorem Extends.refl (s : State F σ) : Extends s s :=
  ⟨.refl _, rfl, Nat.le_refl _, Nat.le_refl _, .refl _⟩

theorem Extends.trans {s t u : State F σ} (h : Extends s t) (k : Extends t u) :
    Extends s u where
  heap := h.heap.trans k.heap
  root := k.root.trans h.root
  epoch := h.epoch.trans k.epoch
  next := h.next.trans k.next
  trace := h.trace.trans k.trace

theorem Extends.follows {s t : State F σ} (h : Extends s t) : s.vm.Follows t.vm :=
  .of_grows h.heap h.epoch h.next

/-- The theory of machine programs. -/
def vmTheory (p : Program F) (hosts : Hosts F σ) (sites : PanicSite → Prop)
    (running : Option (Nat × Handle)) : Theory Fault (State F σ) Ref where
  Inv := Inv p hosts running
  Ext := Extends
  Good := fun s r => s.vm.heap.Good r
  Fails := Fault.Allowed sites
  refl := Extends.refl
  trans := Extends.trans
  mono := fun h hr => h.heap.good hr

end Deka.Vm
