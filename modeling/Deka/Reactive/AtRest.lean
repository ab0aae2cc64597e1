/-
Deka/Reactive/AtRest.lean

Consistency at rest: no batch is open and no flush is running.

Every live reaction has a finished run, and since that run ended no signal it read was
written.  A derived value has the result of its run, and `Compute` says what that means
for the function behind it: applied to the current values it gives the same result.

The runs are calm ones, without panics and without a read of a signal whose update
closure is running.  Such a read fails and is not recorded, so the reaction is not run
again when the update ends; `State.lost` is a state at rest in which that happened.
-/
import Deka.Reactive.Consistency

namespace Deka.Reactive

open Deka.Lib

variable {V : Type}

/-! ### Functions of signals -/

/-- What a derived value computes: it reads signals, one after the other. -/
inductive Compute (V : Type) where
  | result (value : V)
  | read (r : Signal) (next : Except ReactiveError V → Compute V)

/-- The result of a run with these reads, if the run is one of this function. -/
def Compute.follow : Compute V → List (Read V) → Option V
  | .result value, [] => some value
  | .read r next, x :: reads => if x.signal = r then (next x.outcome).follow reads else none
  | _, _ => none

/-- The value a signal has now. -/
def Core.valueOf (c : Core V) (r : Signal) : Except ReactiveError V :=
  match c.values.find? r with
  | none => .error .disposedSignal
  | some cell =>
      match cell.content with
      | none => .error .uninitialized
      | some v => .ok v

/-- The function applied to the values the signals have now. -/
def Compute.value (c : Core V) : Compute V → V
  | .result value => value
  | .read r next => (next (c.valueOf r)).value c

/-- A read that is current returns the value the signal has now. -/
theorem Read.Current.valueOf {c : Core V} {writes : Signal → Nat} {x : Read V}
    (h : x.Current c writes)
    (hlive : ∀ v, x.outcome = .ok v → c.values.find? x.signal ≠ none) :
    c.valueOf x.signal = x.outcome := by
  unfold Read.Current at h
  unfold Core.valueOf
  split at h
  · rename_i e he
    rw [he, h.2, h.1]
  · rename_i v hv
    obtain ⟨cell, hcell⟩ := Option.ne_none_iff_exists'.mp (hlive v hv)
    simp only [hcell, (h cell hcell).1, hv]

/-- A function whose reads are current gives the result of its run again. -/
theorem Compute.value_of_follow {c : Core V} {writes : Signal → Nat} {compute : Compute V}
    {reads : List (Read V)} {w : V} (h : compute.follow reads = some w)
    (hcur : ∀ x ∈ reads, x.Current c writes)
    (hlive : ∀ x ∈ reads, ∀ v, x.outcome = .ok v → c.values.find? x.signal ≠ none) :
    compute.value c = w := by
  induction reads generalizing compute with
  | nil =>
      cases compute with
      | result value =>
          cases h
          rfl
      | read r next => cases h
  | cons x reads ih =>
      cases compute with
      | result value => cases h
      | read r next =>
          simp only [Compute.follow] at h
          split at h
          · rename_i hr
            have hnow := (hcur x List.mem_cons_self).valueOf (hlive x List.mem_cons_self)
            rw [hr] at hnow
            simp only [Compute.value, hnow]
            exact ih h (fun y hy => hcur y (List.mem_cons_of_mem _ hy))
              fun y hy => hlive y (List.mem_cons_of_mem _ hy)
          · cases h

/-! ### Consistency -/

/-- **Consistency at rest.**  The latest run of every live reaction ended after the last
write to every signal it read or tried to read.  Every live derived value has the result
of the latest run of its reaction, and that is its function applied to the current
values, as long as the signals it read are live. -/
theorem CalmReachable.at_rest [BEq V] {s : State V} (h : CalmReachable s) (hd : s.core.depth = 0)
    (hf : s.core.flushing = false) :
    (∀ o observer, s.core.observers.slots o = some observer →
      ∃ run, observer.latest = some run ∧
        ∀ x ∈ run.reads, run.ended x.signal = s.writes x.signal ∧ x.Current s.core s.writes) ∧
    (s.settled = true → ∀ out ∈ s.deriveds, ∀ cell, s.core.values.find? out = some cell →
      ∃ o observer run v w, s.core.observers.slots o = some observer ∧
        observer.kind = .derived ∧ observer.output = some out ∧ observer.latest = some run ∧
        run.result = some w ∧ cell.content = some v ∧ (v = w ∨ (v == w) = true) ∧
        ∀ compute : Compute V, compute.follow run.reads = some w →
          (∀ x ∈ run.reads, ∀ v, x.outcome = .ok v → s.core.values.find? x.signal ≠ none) →
          compute.value s.core = w) := by
  refine ⟨fun o observer ho => ?_, fun hdrop out hout cell hcell => ?_⟩
  · obtain ⟨run, hset⟩ := h.settled hd hf ho
    exact ⟨run, hset.latest, fun x hx => ⟨hset.ended x hx, hset.current x hx⟩⟩
  · have hrole : ∃ o k, s.core.role o = some (some out, k) := by
      rcases h.owning.alive out (Or.inl hout) (by simp [hcell]) with hrole | ⟨items, hitems, -⟩
      · exact hrole
      · -- an owner is dropped on top of the stack only, and there is none
        have hstacked := h.shaped.stacked
        cases hs : s.stack with
        | nil =>
            rw [hs] at hitems
            cases hitems
        | cons f stack =>
            rw [hs] at hitems hstacked
            rcases List.mem_cons.mp hitems with rfl | hitems
            · simp [State.settled, hs] at hdrop
            · exact absurd hitems hstacked.dropping_top
    obtain ⟨o, k, hrole⟩ := hrole
    obtain ⟨observer, hslot, heq⟩ := Option.map_eq_some_iff.mp hrole
    have houtput : observer.output = some out := congrArg Prod.fst heq
    have hkind : observer.kind = .derived :=
      (h.made.kind o _ _ (Core.role_of_slot hslot)).mpr (by simp [houtput])
    obtain ⟨run, hset⟩ := h.settled hd hf hslot
    obtain ⟨v, w, hv, hw, hvw⟩ := hset.published out (by simp [houtput]) cell hcell
    refine ⟨o, observer, run, v, w, hslot, hkind, houtput, hset.latest, hw, hv, hvw, ?_⟩
    exact fun compute hfollow hlive => Compute.value_of_follow hfollow hset.current hlive

/-! ### Runs on fixed inputs -/

/-- The steps that can be checked on the way. -/
def State.checks [BEq V] (ok : State V → Action V → State V → Bool) : State V → List (Action V) → Bool
  | _, [] => true
  | s, a :: actions =>
      match s.apply a with
      | none => false
      | some t => ok s a t && t.checks ok actions

theorem reach_checks [BEq V] {edge : State V → State V → Prop} {roots : Set (State V)}
    {ok : State V → Action V → State V → Bool}
    (hok : ∀ s a t, s.apply a = some t → ok s a t = true → edge s t) {s : State V}
    (hs : Reach edge roots s) {actions : List (Action V)} (h : s.checks ok actions = true) :
    Reach edge roots (s.after actions) := by
  have hrun : ∀ t, s.run actions = some t → Reach edge roots t := by
    induction actions generalizing s with
    | nil =>
        intro t ht
        cases ht
        exact hs
    | cons a actions ih =>
        intro t ht
        simp only [State.run, List.foldlM_cons, Option.bind_eq_bind, Option.bind_eq_some_iff] at ht
        obtain ⟨next, ha, hrest⟩ := ht
        simp only [State.checks, ha, Bool.and_eq_true] at h
        exact ih (.step hs (hok s a next ha h.1)) h.2 t hrest
  unfold State.after
  cases hr : s.run actions with
  | none => exact hs
  | some t => exact hrun t hr

/-- `State.Conflict`, computed -/
def State.conflicts (s : State V) : Action V → Bool
  | .read r => !s.core.reads.isEmpty && (s.core.values.find? r).any (·.borrowed)
  | _ => false

def calmStep (s : State V) (a : Action V) (t : State V) : Bool := !s.conflicts a && !t.panicking

theorem calmStep_iff {s t : State V} {a : Action V} :
    calmStep s a t = true ↔ ¬ s.Conflict a ∧ t.panicking = false := by
  unfold calmStep
  rw [Bool.and_eq_true, Bool.not_eq_true', Bool.not_eq_true']
  refine and_congr_left fun _ => ⟨fun hok => ?_, fun hfree => ?_⟩
  · rintro ⟨r, cell, rfl, hreads, hcell, hborrow⟩
    simp [State.conflicts, hreads, hcell, hborrow] at hok
  · by_contra hconflict
    cases a with
    | read r =>
        simp only [State.conflicts, Bool.not_eq_false, Bool.and_eq_true, Bool.not_eq_true',
          Option.any_eq_true] at hconflict
        obtain ⟨hreads, cell, hcell, hborrow⟩ := hconflict
        exact hfree ⟨r, cell, rfl, by simpa using hreads, hcell, hborrow⟩
    | _ => exact hconflict rfl

theorem calm_checks [BEq V] {s : State V} (hs : CalmReachable s) {actions : List (Action V)}
    (h : s.checks calmStep actions = true) : CalmReachable (s.after actions) :=
  reach_checks (fun _ a _ ha hok => ⟨a, ha, calmStep_iff.mp hok⟩) hs h

/-- A signal, a derived value and an effect that reads both, and then a write. -/
def State.refreshActions : List (Action Nat) :=
  [.signal 1, .derived, .tick, .tick, .read ⟨0, 0⟩, .finish (some 10), .tick, .tick, .tick,
    .effect, .tick, .tick, .read ⟨0, 0⟩, .read ⟨1, 0⟩, .finish none, .tick, .tick, .tick,
    .set ⟨0, 0⟩ 2, .tick, .tick, .tick, .read ⟨0, 0⟩, .finish (some 20), .tick,
    .tick, .tick, .tick, .read ⟨0, 0⟩, .read ⟨1, 0⟩, .finish none, .tick, .tick]

def State.refreshed : State Nat := State.initial.after State.refreshActions

/-- The derived value is ten times the signal again, and the effect has seen both. -/
theorem at_rest_refreshed :
    (State.refreshed.core.values.find? ⟨1, 0⟩).map Cell.content = some (some 20) ∧
      (∀ o observer, State.refreshed.core.observers.slots o = some observer →
        ∃ run, observer.latest = some run ∧
          ∀ x ∈ run.reads, run.ended x.signal = State.refreshed.writes x.signal ∧
            x.Current State.refreshed.core State.refreshed.writes) ∧
      ∀ cell, State.refreshed.core.values.find? ⟨1, 0⟩ = some cell →
        ∃ o observer run v w, State.refreshed.core.observers.slots o = some observer ∧
          observer.kind = .derived ∧ observer.output = some ⟨1, 0⟩ ∧ observer.latest = some run ∧
          run.result = some w ∧ cell.content = some v ∧ (v = w ∨ (v == w) = true) ∧
          ∀ compute : Compute Nat, compute.follow run.reads = some w →
            (∀ x ∈ run.reads, ∀ v, x.outcome = .ok v →
              State.refreshed.core.values.find? x.signal ≠ none) →
            compute.value State.refreshed.core = w :=
  have hcalm : CalmReachable State.refreshed :=
    calm_checks (.root (Set.mem_singleton _)) (by decide)
  have hrest := CalmReachable.at_rest hcalm (by decide) (by decide)
  ⟨by decide, hrest.1, hrest.2 (by decide) ⟨1, 0⟩ (by decide)⟩

/-- An effect that reads two signals.  The second is written inside an update of the
first, so the effect runs while the first is held and cannot read it. -/
def State.lostActions : List (Action Nat) :=
  [.signal 0, .signal 0, .effect, .tick, .tick, .read ⟨0, 0⟩, .read ⟨1, 0⟩, .finish none, .tick,
    .tick, .tick, .beginUpdate ⟨0, 0⟩, .set ⟨1, 0⟩ 1, .tick, .tick, .tick, .read ⟨0, 0⟩,
    .read ⟨1, 0⟩, .finish none, .tick, .tick, .endUpdate 2, .tick]

def State.lost : State Nat := State.initial.after State.lostActions

/-- The effect is not run again when the update of the first signal ends. -/
theorem at_rest_lost :
    ¬ ∀ s : State Nat,
      Reach (fun s t : State Nat => (∃ a, s.apply a = some t) ∧ t.panicking = false) {State.initial} s →
      s.core.depth = 0 → s.core.flushing = false → s.stack = [] →
      ∀ o observer run, s.core.observers.slots o = some observer → observer.latest = some run →
        ∀ x ∈ run.reads, run.ended x.signal = s.writes x.signal := by
  intro h
  have hreach : Reach (fun s t : State Nat => (∃ a, s.apply a = some t) ∧ t.panicking = false)
      {State.initial} State.lost := by
    have hchecks : State.initial.checks (fun _ _ t => !t.panicking) State.lostActions = true := by
      decide
    refine reach_checks (fun s a t ha hok => ⟨⟨a, ha⟩, ?_⟩) (.root (Set.mem_singleton _)) hchecks
    simpa using hok
  have hempty : State.lost.stack = [] := by
    have hlength : State.lost.stack.length = 0 := by decide
    exact List.length_eq_zero_iff.mp hlength
  have hrun : ∃ observer run, State.lost.core.observers.slots 0 = some observer ∧
      observer.latest = some run ∧ ⟨0, 0⟩ ∈ run.reads.map Read.signal ∧ run.ended ⟨0, 0⟩ = 0 := by
    have hlatest : ((State.lost.core.observers.slots 0).bind Observer.latest).any (fun run =>
        decide (⟨0, 0⟩ ∈ run.reads.map Read.signal) && run.ended ⟨0, 0⟩ == 0) = true := by
      decide
    obtain ⟨run, hsome, hrun⟩ := (Option.any_eq_true _ _).mp hlatest
    obtain ⟨observer, hslot, hrun'⟩ := Option.bind_eq_some_iff.mp hsome
    obtain ⟨hread, hended⟩ := Bool.and_eq_true_iff.mp hrun
    exact ⟨observer, run, hslot, hrun', of_decide_eq_true hread, beq_iff_eq.mp hended⟩
  obtain ⟨observer, run, hslot, hlatest, hread, hended⟩ := hrun
  obtain ⟨x, hx, hsignal⟩ := List.mem_map.mp hread
  have hcurrent := h State.lost hreach (by decide) (by decide) hempty 0 observer run
    hslot hlatest x hx
  rw [hsignal, hended] at hcurrent
  have hwrites : State.lost.writes ⟨0, 0⟩ = 1 := by decide
  rw [hwrites] at hcurrent
  cases hcurrent

end Deka.Reactive
