/-
Deka/Reactive/Core.lean

The data of one reactive scope and the operations on it.

Signals and reactions live in two tables with reused slots; a handle is a slot and
a generation.  `Core` has the fields of the source, with the three vectors of each
kind of slot (`values`, `free_values`, `value_generations`, and the same for
observers) as one table.  Values of every type are one type `V`: a handle carries
the type of its value, so the source's downcast never fails on it.  Generations and
revisions are unbounded.

A callback is modelled by what `reactive.rs` itself adds to it: the callback of a
derived value publishes its result in `output`.  What the program does inside a
callback is in the run (`Deka/Reactive/Machine.lean`).  `Observer.latest` is not in
the source: it records the last finished run, for the statements.
-/
import Deka.Lib.Arena
import Mathlib.Data.Finset.Max
import Mathlib.Data.Finset.Sort

namespace Deka.Reactive

open Deka.Lib

/-- Operational failures from a stale handle or a conflicting reactive read. -/
inductive ReactiveError where
  | droppedScope
  | disposedSignal
  | crossScopeRead
  | uninitialized
  | borrowedValue
deriving DecidableEq, Repr

abbrev Signal := SlotRef
abbrev Effect := SlotRef

inductive Kind where
  | derived
  | effect
deriving DecidableEq, Repr

/-- `Value<T>(RefCell<Option<T>>)`: the content, and whether an update holds it. -/
structure Cell (V : Type) where
  content : Option V
  borrowed : Bool

/-- The allocations made while an owner was the innermost one. -/
structure Owned where
  values : List Nat
  effects : List Effect

/-- `BTreeMap<usize, u64>`: the slots read by a run, each with the revision seen first. -/
structure Reads where
  keys : Finset Nat
  revision : Nat → Nat

/-- A read of a run: what it returned, and how many writes the signal had seen. -/
structure Read (V : Type) where
  signal : Signal
  outcome : Except ReactiveError V
  writes : Nat

/-- A finished run: its reads, the result of a derived value, and how many writes
each signal had seen when it ended. -/
structure Run (V : Type) where
  reads : List (Read V)
  result : Option V
  ended : Signal → Nat

structure Observer (V : Type) where
  output : Option Signal
  dependencies : Finset Nat
  kind : Kind
  runOwner : Option Owned
  latest : Option (Run V)

structure Core (V : Type) where
  values : Arena (Cell V)
  observers : Arena (Observer V)
  owners : List Owned
  subscribers : Nat → Finset Nat
  reads : List Reads
  revisions : Nat → Nat
  dirty : Finset Nat
  depth : Nat
  flushing : Bool

def Owned.empty : Owned := ⟨[], []⟩

/-- What is left to do when an owner is dropped: effects first. -/
inductive Item where
  | effect (e : Effect)
  | value (slot : Nat)
deriving DecidableEq, Repr

def Owned.items (o : Owned) : List Item := o.effects.map .effect ++ o.values.map .value

def Reads.empty : Reads := ⟨∅, fun _ => 0⟩

/-- `reads.entry(slot).or_insert(revision)` -/
def Reads.record (m : Reads) (slot revision : Nat) : Reads :=
  if slot ∈ m.keys then m
  else ⟨insert slot m.keys, Function.update m.revision slot revision⟩

/-- `reads.remove(&slot)` -/
def Reads.forget (m : Reads) (slot : Nat) : Reads := ⟨m.keys.erase slot, m.revision⟩

/-- The least element of a `BTreeSet`. -/
def first (slots : Finset Nat) : Option Nat :=
  if h : slots.Nonempty then some (slots.min' h) else none

theorem first_mem {slots : Finset Nat} {slot : Nat} (h : first slots = some slot) : slot ∈ slots := by
  unfold first at h
  split at h
  · cases h
    exact Finset.min'_mem _ _
  · cases h

theorem first_eq_none {slots : Finset Nat} : first slots = none ↔ slots = ∅ := by
  unfold first
  split
  · rename_i h
    simp [h.ne_empty]
  · rename_i h
    simpa using h

namespace Core

variable {V : Type}

def empty : Core V where
  values := .empty
  observers := .empty
  owners := []
  subscribers := fun _ => ∅
  reads := []
  revisions := fun _ => 0
  dirty := ∅
  depth := 0
  flushing := false

/-- `if let Some(owner) = core.owners.borrow_mut().last_mut()` -/
def own (c : Core V) (f : Owned → Owned) : Core V :=
  { c with owners := c.owners.modifyHead f }

def allocate (c : Core V) (value : Option V) : Signal × Core V :=
  ((c.values.insert ⟨value, false⟩).1,
    { c with values := (c.values.insert ⟨value, false⟩).2 }.own fun owner =>
      { owner with values := owner.values ++ [(c.values.insert ⟨value, false⟩).1.slot] })

/-- The registration part of `observe`. -/
def register (c : Core V) (kind : Kind) (output : Option Signal) : Effect × Core V :=
  ((c.observers.insert ⟨output, ∅, kind, none, none⟩).1,
    { c with observers := (c.observers.insert ⟨output, ∅, kind, none, none⟩).2 }.own fun owner =>
      { owner with
        effects := owner.effects ++ [(c.observers.insert ⟨output, ∅, kind, none, none⟩).1] })

/-- `Signal::try_get` up to the registration of the read. -/
def tryGet (c : Core V) (r : Signal) : Except ReactiveError V :=
  match c.values.find? r with
  | none => .error .disposedSignal
  | some cell =>
      if cell.borrowed then .error .borrowedValue
      else
        match cell.content with
        | none => .error .uninitialized
        | some v => .ok v

/-- The read becomes part of the innermost run. -/
def observeRead (c : Core V) (slot : Nat) : Core V :=
  { c with reads := c.reads.modifyHead fun m => m.record slot (c.revisions slot) }

/-- Replace what a live handle names. -/
def setCell (c : Core V) (r : Signal) (cell : Cell V) : Core V :=
  { c with values := c.values.set r.slot cell }

/-- `Core::changed` up to the flush. -/
def changed (c : Core V) (slot : Nat) : Core V :=
  { c with
    revisions := Function.update c.revisions slot (c.revisions slot + 1)
    dirty := c.dirty ∪ c.subscribers slot }

/-- `Core::dispose_observer`, and the run owner that is dropped with the observer. -/
def disposeObserver (c : Core V) (slot : Nat) : Option Owned × Core V :=
  match c.observers.slots slot with
  | none => (none, c)
  | some observer =>
      (observer.runOwner,
        { c with
          observers := c.observers.erase slot
          subscribers := fun s =>
            if s ∈ observer.dependencies then (c.subscribers s).erase slot else c.subscribers s
          dirty := c.dirty.erase slot })

/-- What `ReactiveOwner::drop` does with one value slot. -/
def release (c : Core V) (slot : Nat) : Core V :=
  { c with
    values := c.values.erase slot
    revisions := Function.update c.revisions slot 0
    subscribers := Function.update c.subscribers slot ∅
    observers := c.observers.map fun o => { o with dependencies := o.dependencies.erase slot }
    reads := c.reads.map fun m => m.forget slot }

/-- The reads of a run become the dependencies of its observer. -/
def follow (c : Core V) (e : Effect) (m : Reads) (latest : Option (Run V)) : Core V :=
  match c.observers.find? e with
  | none => c
  | some observer =>
      { c with
        observers := c.observers.set e.slot { observer with dependencies := m.keys, latest := latest }
        subscribers := fun s =>
          if s ∈ observer.dependencies \ m.keys then (c.subscribers s).erase e.slot
          else if s ∈ m.keys \ observer.dependencies then insert e.slot (c.subscribers s)
          else c.subscribers s
        dirty :=
          if ∃ s ∈ m.keys, c.revisions s ≠ m.revision s then insert e.slot c.dirty else c.dirty }

/-- `Capture::drop` -/
def capture (c : Core V) (e : Effect) (latest : Option (Run V)) : Core V :=
  match c.reads with
  | [] => c
  | m :: reads => { c with reads := reads }.follow e m latest

/-- The innermost owner. -/
def popOwner (c : Core V) : Owned × Core V :=
  (c.owners.headD .empty, { c with owners := c.owners.tail })

def isDerived (c : Core V) (slot : Nat) : Bool :=
  match c.observers.slots slot with
  | none => false
  | some observer => observer.kind = .derived

/-- The reaction a flush runs next: a dirty derived value if there is one. -/
def next (c : Core V) : Option Nat :=
  (first (c.dirty.filter fun slot => c.isDerived slot)).or (first c.dirty)

variable {c : Core V} {slot : Nat}

theorem next_mem (h : c.next = some slot) : slot ∈ c.dirty := by
  unfold next at h
  rcases Option.or_eq_some_iff.mp h with h | ⟨-, h⟩
  · exact (Finset.mem_filter.mp (first_mem h)).1
  · exact first_mem h

theorem next_eq_none : c.next = none ↔ c.dirty = ∅ := by
  unfold next
  rw [Option.or_eq_none_iff, first_eq_none, first_eq_none]
  constructor
  · exact And.right
  · intro h
    simp [h]

/-- An effect is next only if no derived value is dirty. -/
theorem next_effect (h : c.next = some slot) (hs : c.isDerived slot = false) :
    ∀ o ∈ c.dirty, c.isDerived o = false := by
  unfold next at h
  rcases Option.or_eq_some_iff.mp h with h | ⟨hnone, -⟩
  · rw [(Finset.mem_filter.mp (first_mem h)).2] at hs
    cases hs
  · have hempty := first_eq_none.mp hnone
    intro o ho
    by_contra hne
    have hmem : o ∈ c.dirty.filter fun slot => c.isDerived slot :=
      Finset.mem_filter.mpr ⟨ho, by simpa using hne⟩
    rw [hempty] at hmem
    cases hmem

end Core

end Deka.Reactive
