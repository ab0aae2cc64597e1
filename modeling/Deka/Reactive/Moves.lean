/-
Deka/Reactive/Moves.lean

What a step without a panic can do, said once.

`Move s w t` has one constructor for each thing that can happen, with the stack before
it, the facts that were checked on the way and the state after it; `w` says that the
program writes a signal.  The invariants of
calm runs are proved by cases on it and never unfold a step again.
-/
import Deka.Reactive.Shape

namespace Deka.Reactive

open Deka.Lib

variable {V : Type}

/-- The program writes a signal. -/
def Action.isWrite : Action V → Bool
  | .set .. | .endUpdate _ => true
  | _ => false

inductive Move [BEq V] (s : State V) : Bool → State V → Prop where
  /-- a call that fails -/
  | idle {w : Bool} : Move s w s
  | signal (value : V) : userTop s.stack = true → Move s false (s.signal value)
  | derived : userTop s.stack = true → Move s false s.derived
  | effect : userTop s.stack = true → Move s false s.effect
  | read (r : Signal) : userTop s.stack = true → r ∈ s.signals ∪ s.deriveds →
      ¬ s.Conflict (.read r) → Move s false (s.read r)
  /-- `try_set`, and the end of an update closure -/
  | write (r : Signal) (value : V) (cell : Cell V) (stack : List (Frame V)) :
      userTop stack = true → s.core.values.find? r = some cell →
      (s.stack = stack ∧ r ∈ s.signals) ∨ s.stack = .update r :: stack →
      Move s true (({ s with stack := stack }.write r (some value)).changed r.slot)
  /-- the end of an update closure whose signal was released meanwhile -/
  | late (r : Signal) (stack : List (Frame V)) :
      userTop stack = true → s.core.values.find? r = none → s.stack = .update r :: stack →
      Move s true ({ s with stack := stack }.changed r.slot)
  | beginUpdate (r : Signal) (cell : Cell V) :
      userTop s.stack = true → s.core.values.find? r = some cell → r ∈ s.signals →
      Move s false { s with
        core := s.core.setCell r { cell with borrowed := true }, stack := .update r :: s.stack }
  | beginBatch : userTop s.stack = true →
      Move s false { s with core := { s.core with depth := s.core.depth + 1 }, stack := .batch :: s.stack }
  | endBatch (stack : List (Frame V)) :
      userTop stack = true → s.stack = .batch :: stack → Move s false { s with stack := stack }.endBatch
  | beginOwned : userTop s.stack = true → Move s false s.beginOwned
  | endOwned (stack : List (Frame V)) : userTop stack = true → s.stack = .owned :: stack →
      Move s false { s with
        core := s.core.popOwner.2, detached := s.detached ++ [s.core.popOwner.1], stack := stack }
  | dropOwner (index : Nat) (owner : Owned) :
      userTop s.stack = true → s.detached[index]? = some owner →
      Move s false ({ s with detached := s.detached.eraseIdx index }.drop owner)
  | dispose (e : Effect) : userTop s.stack = true → e ∈ s.effects →
      s.core.observers.generations e.slot = e.generation →
      Move s false ({ s with core := (s.core.disposeObserver e.slot).2 }.drop
        ((s.core.disposeObserver e.slot).1.getD .empty))
  | flush : userTop s.stack = true → Move s false s.flush
  | finishEffect (e : Effect) (reads : List (Read V)) (stack : List (Frame V)) :
      s.stack = .evaluating e none reads :: stack →
      Move s false { s with stack := .leaving e reads none :: stack }
  | finishDerived (e : Effect) (output : Signal) (reads : List (Read V)) (next : V)
      (stack : List (Frame V)) : s.stack = .evaluating e (some output) reads :: stack →
      Move s false ({ s with stack := .leaving e reads (some next) :: stack }.publish output next)
  | beginCatch : userTop s.stack = true → Move s false { s with stack := .catching :: s.stack }
  | endCatch (stack : List (Frame V)) :
      userTop stack = true → s.stack = .catching :: stack → Move s false { s with stack := stack }
  | dropNil (stack : List (Frame V)) :
      s.stack = .dropping [] :: stack → Move s false { s with stack := stack }
  | dropEffect (e : Effect) (items : List Item) (stack : List (Frame V)) :
      s.stack = .dropping (.effect e :: items) :: stack →
      s.core.observers.generations e.slot = e.generation →
      Move s false { s with
        core := (s.core.disposeObserver e.slot).2
        stack := .dropping (((s.core.disposeObserver e.slot).1.getD .empty).items ++ items) :: stack }
  | dropStale (e : Effect) (items : List Item) (stack : List (Frame V)) :
      s.stack = .dropping (.effect e :: items) :: stack →
      s.core.observers.generations e.slot ≠ e.generation →
      Move s false { s with stack := .dropping items :: stack }
  | dropValue (slot : Nat) (items : List Item) (stack : List (Frame V)) :
      s.stack = .dropping (.value slot :: items) :: stack →
      Move s false { s with core := s.core.release slot, stack := .dropping items :: stack }
  | start (slot : Nat) (output : Option Signal) (stack : List (Frame V)) :
      s.stack = .starting slot output :: stack →
      Move s false { s with
        core := { s.core with owners := .empty :: s.core.owners, reads := .empty :: s.core.reads }
        stack := .evaluating ⟨slot, s.core.observers.generations slot⟩ output [] :: stack }
  | leave (e : Effect) (reads : List (Read V)) (result : Option V) (stack : List (Frame V)) :
      s.stack = .leaving e reads result :: stack →
      Move s false (({ s with stack := stack }.leave e (some ⟨reads, result, s.writes⟩)).2.settle e
        ({ s with stack := stack }.leave e (some ⟨reads, result, s.writes⟩)).1)
  | install (e : Effect) (output : Option Signal) (stack : List (Frame V)) :
      userTop stack = true → s.stack = .installing e output :: stack →
      Move s false ({ s with stack := stack }.issue e output).endBatch
  /-- a flush finds nothing dirty -/
  | rest (turns : List (Effect × Kind)) (stack : List (Frame V)) :
      s.stack = .flushing turns :: stack → s.core.next = none →
      Move s false { s with core := { s.core with flushing := false }, stack := stack }
  | turn (turns : List (Effect × Kind)) (slot : Nat) (stack : List (Frame V)) :
      s.stack = .flushing turns :: stack → s.core.next = some slot →
      Move s false ({ s with
        core := { s.core with dirty := s.core.dirty.erase slot }
        stack := .flushing (turns ++ [s.pick slot]) :: stack }.evaluate slot)

namespace State

variable [BEq V] {s t : State V}

theorem move_close {a : Action V} (h : s.Shaped) (ht : s.close a = some t) :
    Move s a.isWrite t := by
  cases a with
  | endUpdate value =>
      simp only [State.close] at ht
      split at ht
      · rename_i r stack hs
        cases ht
        have hu : userTop stack = true := h.top hs
        cases hfind : s.core.values.find? r with
        | none =>
            have hwrite : { s with stack := stack }.write r (some value) = { s with stack := stack } := by
              simp [State.write, hfind]
            rw [hwrite]
            exact .late r stack hu hfind hs
        | some cell => exact .write r value cell stack hu hfind (Or.inr hs)
      · cases ht
  | endBatch =>
      simp only [State.close] at ht
      split at ht
      · rename_i stack hs
        cases ht
        exact .endBatch stack (h.top hs) hs
      · cases ht
  | endOwned =>
      simp only [State.close] at ht
      split at ht
      · rename_i stack hs
        cases ht
        exact .endOwned stack (h.top hs) hs
      · cases ht
  | endCatch =>
      simp only [State.close] at ht
      split at ht
      · rename_i stack hs
        cases ht
        exact .endCatch stack (h.top hs) hs
      · cases ht
  | _ => cases ht

theorem move_finish {result : Option V} (ht : s.finish result = some t) : Move s false t := by
  unfold State.finish at ht
  split at ht
  · rename_i e output reads stack hs
    split at ht
    · cases ht
      exact .finishEffect e reads stack hs
    · cases ht
      exact .finishDerived e _ reads _ stack hs
    · cases ht
  · cases ht

theorem move_set (hu : userTop s.stack = true) {r : Signal} (hr : r ∈ s.signals) (value : V) :
    Move s true (s.set r value) := by
  unfold State.set
  split
  · exact .idle
  · rename_i cell hfind
    split
    · exact .idle
    · exact .write r value cell s.stack hu hfind (Or.inl ⟨rfl, hr⟩)

theorem move_beginUpdate (hu : userTop s.stack = true) {r : Signal} (hr : r ∈ s.signals) :
    Move s false (s.beginUpdate r) := by
  unfold State.beginUpdate
  split
  · exact .idle
  · rename_i cell hfind
    split
    · exact .idle
    · exact .beginUpdate r cell hu hfind hr

theorem move_dispose (hu : userTop s.stack = true) {e : Effect} (he : e ∈ s.effects) :
    Move s false (s.dispose e) := by
  unfold State.dispose
  split
  · rename_i hg
    exact .dispose e hu he hg
  · exact .idle

theorem move_dropItem {items : List Item} {stack : List (Frame V)}
    (hs : s.stack = .dropping items :: stack) : Move s false (s.dropItem items stack) := by
  cases items with
  | nil => exact .dropNil stack hs
  | cons item items =>
      cases item with
      | effect e =>
          unfold State.dropItem
          simp only
          split
          · rename_i hg
            exact .dropEffect e items stack hs hg
          · rename_i hg
            exact .dropStale e items stack hs hg
      | value slot => exact .dropValue slot items stack hs

theorem move_turn {turns : List (Effect × Kind)} {stack : List (Frame V)}
    (hs : s.stack = .flushing turns :: stack) (hp : (s.turn turns stack).panicking = false) :
    Move s false (s.turn turns stack) := by
  unfold State.turn at hp ⊢
  cases hnext : s.core.next with
  | none => exact .rest turns stack hs hnext
  | some slot =>
      rw [hnext] at hp
      simp only at hp ⊢
      by_cases hlt : turns.length + 1 ≤ 10000
      · rw [if_pos hlt]
        exact .turn turns slot stack hs hnext
      · rw [if_neg hlt] at hp
        cases hp

theorem move_tick (h : s.Shaped) (hp : t.panicking = false) (ht : s.tick = some t) :
    Move s false t := by
  unfold State.tick at ht
  split at ht
  · rename_i items stack hs
    cases ht
    exact move_dropItem hs
  · rename_i slot output stack hs
    cases ht
    exact .start slot output stack hs
  · rename_i e reads result stack hs
    cases ht
    exact .leave e reads result stack hs
  · rename_i e output stack hs
    cases ht
    exact .install e output stack (h.top hs) hs
  · rename_i turns stack hs
    cases ht
    exact move_turn hs hp
  · cases ht

/-- Every calm step is a move. -/
theorem move_of_apply {a : Action V} (h : s.Shaped) (hp : s.panicking = false)
    (hc : ¬ s.Conflict a) (hp' : t.panicking = false) (ht : s.apply a = some t) :
    Move s a.isWrite t := by
  unfold State.apply at ht
  split at ht
  · rename_i hallowed
    have hu := userTop_of_allowed hallowed hp
    cases a with
    | signal value => cases ht; exact .signal value (hu (by simp))
    | derived => cases ht; exact .derived (hu (by simp))
    | effect => cases ht; exact .effect (hu (by simp))
    | read r =>
        cases ht
        exact .read r (hu (by simp)) (of_decide_eq_true (Bool.and_eq_true_iff.mp hallowed).2) hc
    | set r value =>
        cases ht
        exact move_set (hu (by simp)) (of_decide_eq_true (Bool.and_eq_true_iff.mp hallowed).2) value
    | beginUpdate r =>
        cases ht
        exact move_beginUpdate (hu (by simp)) (of_decide_eq_true (Bool.and_eq_true_iff.mp hallowed).2)
    | endUpdate value => exact move_close (a := .endUpdate value) h ht
    | beginBatch => cases ht; exact .beginBatch (hu (by simp))
    | endBatch => exact move_close (a := .endBatch) h ht
    | beginOwned => cases ht; exact .beginOwned (hu (by simp))
    | endOwned => exact move_close (a := .endOwned) h ht
    | dropOwner index =>
        obtain ⟨owner, hget, rfl⟩ := Option.map_eq_some_iff.mp ht
        exact .dropOwner index owner (hu (by simp)) hget
    | dispose e =>
        cases ht
        exact move_dispose (hu (by simp)) (of_decide_eq_true (Bool.and_eq_true_iff.mp hallowed).2)
    | flush => cases ht; exact .flush (hu (by simp))
    | finish result => exact move_finish ht
    | beginCatch => cases ht; exact .beginCatch (hu (by simp))
    | endCatch => exact move_close (a := .endCatch) h ht
    | panic => cases ht; cases hp'
    | unwind left => simp [State.allowed, hp] at hallowed
    | tick => exact move_tick h hp' ht
  · cases ht

end State

/-- A calm run, move by move. -/
theorem CalmReachable.induction [BEq V] {P : State V → Prop} (hinit : P .initial)
    (hmove : ∀ s t, CalmReachable s → P s → ∀ w, Move s w t → P t) {s : State V}
    (h : CalmReachable s) : P s := by
  have hboth : CalmReachable s ∧ P s := by
    refine Reach.subset (C := {s | CalmReachable s ∧ P s}) ?_ ?_ h
    · rintro s rfl
      exact ⟨Reach.root rfl, hinit⟩
    · rintro s ⟨hs, hP⟩ t ⟨a, ha, hc, hp⟩
      exact ⟨Reach.step hs ⟨a, ha, hc, hp⟩,
        hmove s t hs hP _ (State.move_of_apply hs.shaped hs.calm hc hp ha)⟩
  exact hboth.2

end Deka.Reactive
