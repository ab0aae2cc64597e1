/-
Deka/Reactive/Handles.lean

The bookkeeping of a scope, and what is left of a handle whose slot was released.

A released handle reads nothing, writes nothing and disposes nothing, for ever, also
when its slot has a new occupant.  That covers the operations that were under way
when the slot was released: an update closure that ends later, a derived value that
publishes later and a run that ends later.
-/
import Deka.Reactive.Bookkeeping

namespace Deka.Reactive

open Deka.Lib

variable {V : Type}

/-- The tables of a scope agree with each other. -/
structure Bookkeeping (c : Core V) : Prop where
  dependency_iff : ∀ slot o,
    (∃ observer, c.observers.slots o = some observer ∧ slot ∈ observer.dependencies) ↔
      o ∈ c.subscribers slot
  dirty_live : ∀ o ∈ c.dirty, c.observers.slots o ≠ none
  free_values : c.values.free.Nodup ∧ ∀ slot ∈ c.values.free, c.values.slots slot = none
  free_observers : c.observers.free.Nodup ∧ ∀ o ∈ c.observers.free, c.observers.slots o = none

theorem Core.Linked.tables_agree {c : Core V} (h : c.Linked) : Bookkeeping c where
  dependency_iff := fun slot o => (h.subscribed slot o).symm
  dirty_live := h.dirty
  free_values := ⟨h.values.nodup, h.values.free_none⟩
  free_observers := ⟨h.observers.nodup, h.observers.free_none⟩

/-- Nothing happens through a signal handle. -/
structure State.StaleSignal [BEq V] (s : State V) (r : Signal) : Prop where
  tryGet : s.core.tryGet r = .error .disposedSignal
  read : (s.read r).core = s.core
  set : ∀ value, s.set r value = s
  beginUpdate : s.beginUpdate r = s
  /-- the end of an update closure -/
  write : ∀ value, s.write r value = s
  publish : ∀ next, s.publish r next = s

/-- Nothing happens through an effect handle. -/
structure State.StaleEffect (s : State V) (e : Effect) : Prop where
  dispose : (s.dispose e).core = s.core
  /-- the end of a run: its reads go nowhere -/
  capture : ∀ latest, (s.core.capture e latest).observers = s.core.observers ∧
    (s.core.capture e latest).subscribers = s.core.subscribers ∧
    (s.core.capture e latest).dirty = s.core.dirty
  /-- the end of a run: its owner is dropped -/
  settle : ∀ owner, s.settle e owner = s.drop owner

theorem State.staleSignal_of [BEq V] {s : State V} {r : Signal}
    (h : s.core.values.find? r = none) : s.StaleSignal r where
  tryGet := by simp [Core.tryGet, h]
  read := by simp [State.read, Core.tryGet, h]
  set := fun value => by simp [State.set, h]
  beginUpdate := by simp [State.beginUpdate, h]
  write := fun value => by simp [State.write, h]
  publish := fun next => by simp [State.publish, h]

theorem State.staleEffect_of {s : State V} {e : Effect}
    (h : s.core.observers.find? e = none) : s.StaleEffect e where
  dispose := by
    unfold State.dispose
    split
    · rename_i hg
      have hnone : s.core.observers.slots e.slot = none := (Arena.find?_of hg).symm.trans h
      simp [State.drop, Core.disposeObserver, hnone]
    · rfl
  capture := by
    intro latest
    unfold Core.capture
    split
    · exact ⟨rfl, rfl, rfl⟩
    · simp [Core.follow, h]
  settle := fun owner => by simp [State.settle, h]

/-- What is released stays released. -/
theorem State.Inv.gone_of_reach [BEq V] {s t : State V} {gone : Gone} (h : s.Inv gone 0)
    (ht : Reach Step {s} t) : t.Inv gone 0 := by
  refine ht.subset (C := {t | t.Inv gone 0}) ?_ ?_
  · rintro t rfl
    exact h
  · rintro t ht u ⟨a, ha⟩
    exact ht.apply ha

/-- **Bookkeeping.**  In every state of every run, panics included, dependencies and
subscriptions agree, dirty indices name live observers, and the free lists hold no slot
twice and no live one; and from then on nothing happens through a handle whose slot
has been released. -/
theorem Reachable.bookkeeping [BEq V] {s : State V} (h : Reachable s) :
    Bookkeeping s.core ∧
      ∀ t, Reach Step {s} t →
        (∀ r ∈ s.signals ∪ s.deriveds, s.core.values.find? r = none → t.StaleSignal r) ∧
        (∀ e ∈ s.effects, s.core.observers.find? e = none → t.StaleEffect e) := by
  have hinv := h.inv
  refine ⟨hinv.linked.tables_agree, fun t ht => ?_⟩
  have hgone : s.Inv ⟨{r | s.core.values.Known r ∧ s.core.values.find? r = none},
      {e | s.core.observers.Known e ∧ s.core.observers.find? e = none}⟩ 0 :=
    { hinv with signals_gone := fun _ hr => hr, effects_gone := fun _ he => he }
  have hlater := hgone.gone_of_reach ht
  constructor
  · intro r hr hnone
    have hknown : s.core.values.Known r := by
      rcases Finset.mem_union.mp hr with hr | hr
      · exact hinv.signals_known r hr
      · exact hinv.deriveds_known r hr
    exact State.staleSignal_of (hlater.signals_gone r ⟨hknown, hnone⟩).2
  · intro e he hnone
    exact State.staleEffect_of (hlater.effects_gone e ⟨hinv.effects_known e he, hnone⟩).2

/-- An owned signal and an owned effect that reads it, and the drop of their owner. -/
def State.released : State Nat :=
  State.initial.after
    [.beginOwned, .signal 1, .effect, .tick, .tick, .read ⟨0, 0⟩, .finish none, .tick, .tick, .tick,
      .endOwned, .dropOwner 0, .tick, .tick, .tick]

/-- A new signal and a new effect in the slots of the old ones. -/
def State.reused : State Nat :=
  State.released.after
    [.signal 2, .effect, .tick, .tick, .read ⟨0, 1⟩, .finish none, .tick, .tick, .tick]

/-- The old handles do nothing to the new signal and the new effect. -/
theorem bookkeeping_reused :
    (State.reused.core.values.find? ⟨0, 1⟩).isSome ∧
      (State.reused.core.observers.find? ⟨0, 1⟩).isSome ∧
      State.reused.core.subscribers 0 = {0} ∧
      State.reused.StaleSignal ⟨0, 0⟩ ∧ State.reused.StaleEffect ⟨0, 0⟩ :=
  have hreach : Reachable State.released := reach_after (.root (Set.mem_singleton _)) _
  have hlater := (Reachable.bookkeeping hreach).2 State.reused (reach_after (.root (Set.mem_singleton _)) _)
  ⟨by decide, by decide, by decide,
    hlater.1 ⟨0, 0⟩ (by decide) rfl, hlater.2 ⟨0, 0⟩ (by decide) rfl⟩

end Deka.Reactive
