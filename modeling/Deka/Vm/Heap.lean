/-
Deka/Vm/Heap.lean

The heap: slots with generations, a free list, a mark-and-sweep collector, and
the capture of source reads.

A handle is live when its slot holds a value of the handle's generation; freeing
a slot raises the generation, so a handle of a freed value stays dead when the
slot is used again.  `lookup` is `Heap::get` without the error.

The collector marks with a work list.  Its loop is bounded here by the number of
handles it can ever push (`markFuel`): every slot is marked at most once and
pushes its children only then.

The read capture (`reads`) belongs to the component bindings of the UI: between
`beginReads` and `endReads` every observed read of an object that is older than
the capture is recorded with the value it saw.  Outside a capture observing is
free and reads nothing.
-/
import Deka.Lib.Program
import Deka.Vm.Value

namespace Deka.Vm

open Deka.Lib

variable {F : Type}

/-! ### Slots and captures -/

structure Slot (F : Type) where
  value : Option (Value F)
  generation : Nat
  marked : Bool
  newtype : Option String
  created : Nat
  revision : Nat

/-- Source reads, not tracing reads. -/
inductive Read where
  | cell
  | field (name : String)
  | index (i : Nat)
  | length
  | entity
deriving DecidableEq, Repr

inductive Observed where
  | address (h : Option Handle)
  | size (n : Nat)
  | revision (n : Nat)
deriving DecidableEq, Repr

structure Dependency where
  object : Handle
  read : Read
  observed : Observed
deriving DecidableEq, Repr

/-- The handles a dependency keeps alive. -/
def Dependency.roots (d : Dependency) : List Handle :=
  match d.observed with
  | .address (some h) => [d.object, h]
  | _ => [d.object]

structure Reads where
  start : Nat
  dependencies : List Dependency
  isVolatile : Bool

structure Dependencies where
  values : List Dependency
  isVolatile : Bool

def Dependencies.roots (d : Dependencies) : List Handle := d.values.flatMap Dependency.roots

/-- The free list is a stack: its head is the slot freed last. -/
structure Heap (F : Type) where
  slots : List (Slot F) := []
  free : List Nat := []
  collections : Nat := 0
  allocations : Nat := 0
  reads : Option Reads := none

/-- A wrapping `u64` counter. -/
def wrapU64 : Nat := 2 ^ 64

/-- The handles a value holds, as `Heap::collect` traces them. -/
def Value.children : Value F → List Handle
  | .cell h => [h]
  | .promise (some (.ok o)) => [o.handle]
  | .list items => items
  | .closure _ captures slotChildren => captures ++ slotChildren.toList
  | .record r => r.fields.values
  | .props fields => fields.values
  | _ => []

def Value.isCell : Value F → Bool
  | .cell _ => true
  | _ => false

def Value.isPromise : Value F → Bool
  | .promise _ => true
  | _ => false

def Value.isPending : Value F → Bool
  | .promise none => true
  | _ => false

def Value.isSettled : Value F → Bool
  | .promise (some _) => true
  | _ => false

namespace Heap

/-! ### Allocation and access -/

def alloc (H : Heap F) (value : Value F) : Handle × Heap F :=
  let allocations := H.allocations + 1
  match H.free with
  | i :: free =>
      match H.slots[i]? with
      | some s =>
          (⟨i, s.generation⟩,
            { H with
              slots := H.slots.set i
                { s with
                  value := some value
                  newtype := none
                  created := allocations
                  revision := 0 }
              free
              allocations })
      -- `self.slots[i]` panics; the free list only holds slots of the heap
      | none => (⟨i, 0⟩, H)
  | [] =>
      (⟨H.slots.length, 0⟩,
        { H with
          slots := H.slots ++
            [{ value := some value
               generation := 0
               marked := false
               newtype := none
               created := allocations
               revision := 0 }]
          allocations })

/-- The slot of a handle, if the generation is current. -/
def slot? (H : Heap F) (h : Handle) : Option (Slot F) :=
  (H.slots[h.index]?).filter fun s => s.generation = h.generation

/-- The value of a live handle. -/
def lookup (H : Heap F) (h : Handle) : Option (Value F) := (H.slot? h).bind Slot.value

/-- Whether `h` is a live settled promise. -/
def settled (H : Heap F) (h : Handle) : Bool := (H.lookup h).any Value.isSettled

def get (H : Heap F) (h : Handle) : Except Fault (Value F) :=
  match H.lookup h with
  | some v => .ok v
  | none => .error .stale

def newtypeName (H : Heap F) (h : Handle) : Except Fault (Option String) := do
  discard (H.get h)
  return (H.slots[h.index]?).bind Slot.newtype

/-- Apply `f` to the slot of `h`. -/
def modifySlot (H : Heap F) (h : Handle) (f : Slot F → Slot F) : Heap F :=
  { H with slots := H.slots.modify h.index f }

/-- `self.slots[h.index].created`, for a handle that is live -/
def createdAt (H : Heap F) (h : Handle) : Nat :=
  ((H.slots[h.index]?).map Slot.created).getD 0

/-- A write inside a capture to an object older than the capture. -/
def observeWrite (H : Heap F) (h : Handle) : Heap F :=
  match H.reads with
  | some reads =>
      if H.createdAt h ≤ reads.start then
        { H with reads := some { reads with isVolatile := true } }
      else H
  | none => H

/-- What `get_mut` and `replace` do before they touch the value. -/
def touch (H : Heap F) (h : Handle) : Heap F :=
  (H.observeWrite h).modifySlot h fun s => { s with revision := (s.revision + 1) % wrapU64 }

/-- Overwrite the value of a slot. -/
def write (H : Heap F) (h : Handle) (value : Value F) : Heap F :=
  H.modifySlot h fun s => { s with value := some value }

def replace (H : Heap F) (h : Handle) (value : Value F) : Except Fault (Heap F) := do
  discard (H.get h)
  return (H.touch h).write h value

def allocNewtype (H : Heap F) (value : Value F) (name : String) : Handle × Heap F :=
  let (h, H) := H.alloc value
  (h, H.modifySlot h fun s => { s with newtype := some name })

/-! ### Collection -/

/-- A bound on the handles one collection can pop. -/
def markFuel (H : Heap F) (todo : List Handle) : Nat :=
  todo.length + (H.slots.map fun s => ((s.value.map Value.children).getD []).length).sum + 1

/-- Mark everything reachable from `todo`; its head is the top of the stack. -/
def mark (H : Heap F) : Nat → List Handle → Except Fault Unit × Heap F
  | 0, _ => (.ok (), H)
  | _ + 1, [] => (.ok (), H)
  | fuel + 1, h :: todo =>
      match H.slot? h with
      | some ⟨some value, _, marked, _, _, _⟩ =>
          if marked then mark H fuel todo
          else
            mark (H.modifySlot h fun s => { s with marked := true }) fuel
              (value.children.reverse ++ todo)
      | _ => (.error .stale, H)

/-- Sweep the slots from index `i` on; the freed indices are pushed in order.
A generation that runs out stops the sweep where it stands. -/
def sweep (i : Nat) (free : List Nat) :
    List (Slot F) → Except Fault Unit × List (Slot F) × List Nat
  | [] => (.ok (), [], free)
  | s :: slots =>
      if s.value.isSome ∧ ¬ s.marked then
        if s.generation + 1 < wrapU64 then
          let (r, slots, free) := sweep (i + 1) (i :: free) slots
          (r,
            { s with
              value := none
              newtype := none
              generation := s.generation + 1
              marked := false } :: slots,
            free)
        else
          (.error (.error "heap generation exhausted"),
            { s with value := none, newtype := none } :: slots, free)
      else
        let (r, slots, free) := sweep (i + 1) free slots
        (r, { s with marked := false } :: slots, free)

/-- The roots of an active capture. -/
def captureRoots (H : Heap F) : List Handle :=
  match H.reads with
  | some reads => reads.dependencies.flatMap Dependency.roots
  | none => []

/-- The work list is popped from its end, so the last root is traced first. -/
def collect (H : Heap F) (roots : List Handle) : Except Fault Unit × Heap F :=
  let todo := (roots ++ H.captureRoots).reverse
  match H.mark (H.markFuel todo) todo with
  | (.error e, H) => (.error e, H)
  | (.ok (), H) =>
      match sweep 0 H.free H.slots with
      | (.error e, slots, free) => (.error e, { H with slots, free })
      | (.ok (), slots, free) =>
          (.ok (), { H with slots, free, collections := H.collections + 1 })

/-! ### Captures -/

def observed (H : Heap F) (object : Handle) (read : Read) : Except Fault Observed := do
  let value ← H.get object
  return match read, value with
    | .cell, .cell h => .address (some h)
    | .field name, .record r => .address (r.get? name)
    | .field name, .props fields => .address (fields.get? name)
    | .index i, .list items => .address items[i]?
    | .length, .list items => .size items.length
    | _, _ => .revision (((H.slots[object.index]?).map Slot.revision).getD 0)

def observe (H : Heap F) (object : Handle) (read : Read) : Except Fault (Heap F) :=
  match H.reads with
  | none => .ok H
  | some reads => do
      let observed ← H.observed object read
      if H.createdAt object ≤ reads.start ∧
          ¬ reads.dependencies.any (fun d => d.object = object ∧ d.read = read) then
        return { H with
          reads := some { reads with
            dependencies := reads.dependencies ++ [{ object, read, observed }] } }
      else return H

/-- A read the capture cannot track. -/
def markVolatile (H : Heap F) : Heap F :=
  { H with reads := H.reads.map fun r => { r with isVolatile := true } }

def beginReads (H : Heap F) : Heap F :=
  { H with
    reads := some { start := H.allocations, dependencies := [], isVolatile := false } }

/-- End the capture; `None` where the source panics because none was started. -/
def endReads (H : Heap F) : Option (Dependencies × Heap F) :=
  H.reads.map fun r => (⟨r.dependencies, r.isVolatile⟩, { H with reads := none })

end Heap

/-! ### Heap programs -/

/-- Programs over the heap; a fault keeps what was allocated before it. -/
abbrev HeapM (F α : Type) := Prog Fault (Heap F) α

namespace HeapM

def alloc (value : Value F) : HeapM F Handle :=
  Prog.ofExec fun H => (.ok (H.alloc value).1, (H.alloc value).2)

def get (h : Handle) : HeapM F (Value F) := Prog.reads fun H => H.get h

def newtypeName (h : Handle) : HeapM F (Option String) := Prog.reads fun H => H.newtypeName h

def observe (h : Handle) (read : Read) : HeapM F Unit :=
  Prog.ofExec fun H =>
    match H.observe h read with
    | .ok H' => (.ok (), H')
    | .error e => (.error e, H)

def replace (h : Handle) (value : Value F) : HeapM F Unit :=
  Prog.ofExec fun H =>
    match H.replace h value with
    | .ok H' => (.ok (), H')
    | .error e => (.error e, H)

/-- `get_mut`, and the change made through the reference. -/
def mutate {α : Type} (h : Handle) (f : Value F → Except Fault (Value F × α)) : HeapM F α :=
  Prog.ofExec fun H =>
    match H.get h with
    | .error e => (.error e, H)
    | .ok value =>
        match f value with
        | .error e => (.error e, H.touch h)
        | .ok (value, a) => (.ok a, (H.touch h).write h value)

def allocNewtype (value : Value F) (name : String) : HeapM F Handle :=
  Prog.ofExec fun H => (.ok (H.allocNewtype value name).1, (H.allocNewtype value name).2)

/-- All enum producers, including typed JSON hydration, use nominal metadata. -/
def allocEnum [F64 F] (name case : String) (index : Nat) (value : Option Handle) :
    HeapM F Handle := do
  let label ← alloc (.string case)
  let index ← alloc (.number (F64.ofNat index))
  let record := Record.ofList [("name", label), ("index", index)]
  let record := match value with
    | some h => { record.insert "value" h with order := record.order ++ ["value"] }
    | none => record
  alloc (.record { record with enumName := some name })

end HeapM

/-- Whether a binding has to be evaluated again. -/
def Dependencies.dirty (d : Dependencies) (H : Heap F) : Bool :=
  d.isVolatile ||
    d.values.any fun e =>
      match H.observed e.object e.read with
      | .ok o => o ≠ e.observed
      | .error _ => true

end Deka.Vm
