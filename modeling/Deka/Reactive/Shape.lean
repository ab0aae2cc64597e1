/-
Deka/Reactive/Shape.lean

Runs without panics, and the stacks they go through.

`CalmReachable` restricts the runs twice: no step panics, and no reaction reads a
signal while an update closure of that signal is running (`State.Conflict`).  The
second is the condition under which a scope at rest is consistent.

In a calm run the stack has a shape.  A reaction stands directly on the `observe` or
on the flush that runs it, and below a flush there is neither an open batch nor a
reaction.  So while a reaction runs, a write starts no flush.
-/
import Deka.Reactive.Bookkeeping

namespace Deka.Reactive

open Deka.Lib

variable {V : Type}

/-! ### Calm runs -/

/-- A reaction reads a signal whose update closure is running. -/
def State.Conflict (s : State V) (a : Action V) : Prop :=
  ∃ r cell, a = .read r ∧ s.core.reads ≠ [] ∧ s.core.values.find? r = some cell ∧
    cell.borrowed = true

def CalmStep [BEq V] (s t : State V) : Prop :=
  ∃ a, s.apply a = some t ∧ ¬ s.Conflict a ∧ t.panicking = false

/-- The states reached without panics and without conflicts. -/
def CalmReachable [BEq V] : State V → Prop := Reach CalmStep {State.initial}

theorem CalmReachable.reachable [BEq V] {s : State V} (h : CalmReachable s) : Reachable s := by
  refine Reach.subset (C := {s | Reachable s}) ?_ ?_ h
  · exact fun s hs => .root hs
  · rintro s hs t ⟨a, ha, -, -⟩
    exact Reach.step hs ⟨a, ha⟩

theorem CalmReachable.calm [BEq V] {s : State V} (h : CalmReachable s) : s.panicking = false := by
  refine Reach.subset (C := {s | s.panicking = false}) ?_ ?_ h
  · rintro s rfl
    rfl
  · rintro s - t ⟨a, -, -, ht⟩
    exact ht

/-! ### Stacks -/

/-- The program moves on this stack. -/
def userTop : List (Frame V) → Bool
  | [] => true
  | f :: _ => f.isUser

/-- A frame that runs reactions. -/
def Frame.isLoop : Frame V → Bool
  | .installing .. | .flushing _ => true
  | _ => false

/-- A run of a reaction, from its start on. -/
def Frame.isRun : Frame V → Bool
  | .starting .. | .evaluating .. | .leaving .. => true
  | _ => false

/-- A frame that holds the flush back. -/
def Frame.isBatch : Frame V → Bool
  | .batch | .installing .. => true
  | _ => false

def Frame.isFlush : Frame V → Bool
  | .flushing _ => true
  | _ => false

/-- What a frame may stand on. -/
def Frame.Fits (stack : List (Frame V)) : Frame V → Prop
  | .starting .. | .evaluating .. | .leaving .. => ∃ g rest, stack = g :: rest ∧ g.isLoop = true
  | .dropping _ => userTop stack = true ∨
      (∃ slot output rest, stack = .starting slot output :: rest) ∨
      ∃ g rest, stack = g :: rest ∧ g.isLoop = true
  | .flushing _ => userTop stack = true ∧
      ∀ g ∈ stack, g.isRun = false ∧ g.isBatch = false ∧ g.isFlush = false
  | _ => userTop stack = true

def Stacked : List (Frame V) → Prop
  | [] => True
  | f :: stack => f.Fits stack ∧ Stacked stack

structure State.Shaped (s : State V) : Prop where
  stacked : Stacked s.stack
  depth : s.core.depth = s.stack.countP Frame.isBatch
  flushing : s.core.flushing = true ↔ ∃ f ∈ s.stack, f.isFlush = true

/-- A reaction runs inside an `observe` or a flush. -/
theorem Stacked.run_inside {stack : List (Frame V)} (h : Stacked stack)
    (hr : ∃ f ∈ stack, f.isRun = true) : ∃ g ∈ stack, g.isBatch = true ∨ g.isFlush = true := by
  induction stack with
  | nil => simp at hr
  | cons f stack ih =>
      by_cases hf : f.isRun = true
      · have hfits : ∃ g rest, stack = g :: rest ∧ g.isLoop = true := by
          cases f with
          | starting => exact h.1
          | evaluating => exact h.1
          | leaving => exact h.1
          | _ => cases hf
        obtain ⟨g, rest, rfl, hg⟩ := hfits
        refine ⟨g, by simp, ?_⟩
        cases g with
        | installing => exact Or.inl rfl
        | flushing => exact Or.inr rfl
        | _ => cases hg
      · obtain ⟨g, hg, hrun⟩ := hr
        rcases List.mem_cons.mp hg with rfl | hg
        · exact absurd hrun hf
        · obtain ⟨k, hk, hk'⟩ := ih h.2 ⟨g, hg, hrun⟩
          exact ⟨k, List.mem_cons_of_mem _ hk, hk'⟩

theorem State.Shaped.run_inside {s : State V} (h : s.Shaped)
    (hr : ∃ f ∈ s.stack, f.isRun = true) : s.core.depth ≠ 0 ∨ s.core.flushing = true := by
  obtain ⟨g, hg, hb | hf⟩ := h.stacked.run_inside hr
  · left
    rw [h.depth]
    exact Nat.pos_iff_ne_zero.mp (List.countP_pos_iff.mpr ⟨g, hg, hb⟩)
  · exact Or.inr (h.flushing.mpr ⟨g, hg, hf⟩)

/-- An owner is dropped on top of the stack only. -/
theorem Stacked.dropping_top {f : Frame V} {stack : List (Frame V)} (h : Stacked (f :: stack))
    {items : List Item} : Frame.dropping items ∉ stack := by
  induction stack generalizing f with
  | nil => simp
  | cons g stack ih =>
      intro hm
      rcases List.mem_cons.mp hm with rfl | hm
      · cases f with
        | starting =>
            obtain ⟨g, rest, he, hg⟩ := h.1
            cases he
            cases hg
        | evaluating =>
            obtain ⟨g, rest, he, hg⟩ := h.1
            cases he
            cases hg
        | leaving =>
            obtain ⟨g, rest, he, hg⟩ := h.1
            cases he
            cases hg
        | dropping =>
            rcases h.1 with hu | ⟨slot, output, rest, he⟩ | ⟨g, rest, he, hg⟩
            · cases hu
            · cases he
            · cases he
              cases hg
        | flushing => cases h.1.1
        | _ => cases h.1
      · exact ih h.2 hm

/-- Above a reaction that is starting there is at most an owner being dropped. -/
theorem Stacked.starting_top {stack : List (Frame V)} {slot : Nat} {output : Option Signal}
    (h : Stacked stack) (hm : .starting slot output ∈ stack) :
    ∃ rest, stack = .starting slot output :: rest ∨
      ∃ items, stack = .dropping items :: .starting slot output :: rest := by
  induction stack with
  | nil => cases hm
  | cons f stack ih =>
      rcases List.mem_cons.mp hm with rfl | hm
      · exact ⟨stack, Or.inl rfl⟩
      · obtain ⟨rest, rfl | ⟨items, rfl⟩⟩ := ih h.2 hm
        · have hfits := h.1
          cases f with
          | dropping items => exact ⟨rest, Or.inr ⟨items, rfl⟩⟩
          | starting =>
              obtain ⟨g, rest', he, hg⟩ := hfits
              cases he
              cases hg
          | evaluating =>
              obtain ⟨g, rest', he, hg⟩ := hfits
              cases he
              cases hg
          | leaving =>
              obtain ⟨g, rest', he, hg⟩ := hfits
              cases he
              cases hg
          | flushing => cases hfits.1
          | _ => cases hfits
        · exact absurd List.mem_cons_self h.dropping_top

theorem Stacked.not_starting {stack : List (Frame V)} (h : Stacked stack)
    (hu : userTop stack = true) {slot : Nat} {output : Option Signal} :
    .starting slot output ∉ stack := by
  intro hm
  obtain ⟨rest, rfl | ⟨items, rfl⟩⟩ := h.starting_top hm
  · cases hu
  · cases hu

/-! ### Steps -/

namespace State

variable {s t : State V} {stack : List (Frame V)} {f : Frame V}

theorem Shaped.initial : (initial : State V).Shaped where
  stacked := trivial
  depth := rfl
  flushing := by simp [State.initial, Core.empty]

theorem Shaped.same (h : s.Shaped) (hs : t.stack = s.stack)
    (hd : t.core.depth = s.core.depth) (hf : t.core.flushing = s.core.flushing) : t.Shaped where
  stacked := hs ▸ h.stacked
  depth := by rw [hs, hd, h.depth]
  flushing := by rw [hs, hf, h.flushing]

/-- A frame that neither batches nor flushes comes. -/
theorem Shaped.push (h : s.Shaped) (hfits : f.Fits s.stack) (hb : f.isBatch = false)
    (hf : f.isFlush = false) : { s with stack := f :: s.stack }.Shaped where
  stacked := ⟨hfits, h.stacked⟩
  depth := by simp [h.depth, hb]
  flushing := by simp [h.flushing, hf]

/-- A frame that neither batches nor flushes goes. -/
theorem Shaped.pop (h : s.Shaped) (hs : s.stack = f :: stack) (hb : f.isBatch = false)
    (hf : f.isFlush = false) : { s with stack := stack }.Shaped where
  stacked := by
    have hstacked := h.stacked
    rw [hs] at hstacked
    exact hstacked.2
  depth := by
    have hdepth := h.depth
    rw [hs, List.countP_cons] at hdepth
    simpa [hb] using hdepth
  flushing := by
    have hflush := h.flushing
    rw [hs] at hflush
    simpa [hf] using hflush

/-- What the top frame stands on. -/
theorem Shaped.top (h : s.Shaped) (hs : s.stack = f :: stack) : f.Fits stack := by
  have hstacked := h.stacked
  rw [hs] at hstacked
  exact hstacked.1

theorem Shaped.pushBatch (h : s.Shaped) (hu : userTop s.stack = true) (hb : f.isBatch = true)
    (hf : f.isFlush = false) :
    { s with core := { s.core with depth := s.core.depth + 1 }, stack := f :: s.stack }.Shaped where
  stacked := by
    refine ⟨?_, h.stacked⟩
    cases f with
    | batch => exact hu
    | installing => exact hu
    | _ => cases hb
  depth := by simp [h.depth, hb]
  flushing := by simp [h.flushing, hf]

theorem Shaped.popBatch (h : s.Shaped) (hs : s.stack = f :: stack) (hb : f.isBatch = true)
    (hf : f.isFlush = false) :
    { s with core := { s.core with depth := s.core.depth - 1 }, stack := stack }.Shaped where
  stacked := by
    have hstacked := h.stacked
    rw [hs] at hstacked
    exact hstacked.2
  depth := by
    have hdepth := h.depth
    rw [hs, List.countP_cons] at hdepth
    simp only [hb, if_true] at hdepth
    show s.core.depth - 1 = stack.countP Frame.isBatch
    omega
  flushing := by
    have hflush := h.flushing
    rw [hs] at hflush
    simpa [hf] using hflush

/-- A flush starts only where nothing batches, flushes or runs. -/
theorem Shaped.quiet (h : s.Shaped) (hd : s.core.depth = 0) (hf : s.core.flushing = false) :
    ∀ g ∈ s.stack, g.isRun = false ∧ g.isBatch = false ∧ g.isFlush = false := by
  have hdepth := h.depth
  rw [hd, eq_comm, List.countP_eq_zero] at hdepth
  have hflush : ¬ ∃ g ∈ s.stack, g.isFlush = true := by
    rw [← h.flushing, hf]
    simp
  intro g hg
  refine ⟨?_, by simpa using hdepth g hg, ?_⟩
  · by_contra hrun
    rcases h.run_inside ⟨g, hg, by simpa using hrun⟩ with hne | hne
    · exact hne hd
    · rw [hf] at hne
      cases hne
  · by_contra hne
    exact hflush ⟨g, hg, by simpa using hne⟩

theorem Shaped.flush (h : s.Shaped)
    (hu : userTop s.stack = true ∨ ∃ g ∈ s.stack, g.isRun = true) : s.flush.Shaped := by
  unfold State.flush
  split
  · exact h
  · rename_i hskip
    simp only [not_or, not_not] at hskip
    have hf : s.core.flushing = false := by simpa using hskip.2
    have hquiet := h.quiet hskip.1 hf
    have htop : userTop s.stack = true := by
      refine hu.resolve_right ?_
      rintro ⟨g, hg, hrun⟩
      rw [(hquiet g hg).1] at hrun
      cases hrun
    constructor
    · exact ⟨⟨htop, hquiet⟩, h.stacked⟩
    · simpa [Frame.isBatch] using h.depth
    · simp [Frame.isFlush]

theorem Shaped.changed (h : s.Shaped)
    (hu : userTop s.stack = true ∨ ∃ g ∈ s.stack, g.isRun = true) (slot : Nat) :
    (s.changed slot).Shaped := by
  have hcore : { s with core := s.core.changed slot }.Shaped := h.same rfl rfl rfl
  unfold State.changed
  split
  · exact hcore
  · exact hcore.flush hu

@[simp] theorem write_stack (s : State V) (r : Signal) (value : Option V) :
    (s.write r value).stack = s.stack := by
  unfold State.write
  split <;> rfl

theorem Shaped.write (h : s.Shaped) (r : Signal) (value : Option V) : (s.write r value).Shaped := by
  unfold State.write
  split
  · exact h
  · exact h.same rfl rfl rfl

theorem Shaped.evaluate (h : s.Shaped) (hs : ∃ g rest, s.stack = g :: rest ∧ g.isLoop = true)
    (slot : Nat) : (s.evaluate slot).Shaped := by
  unfold State.evaluate
  split
  · exact h
  · rename_i observer hslot
    have hstart : { s with stack := .starting slot observer.output :: s.stack }.Shaped :=
      h.push hs rfl rfl
    have hdrop := hstart.push (f := .dropping (observer.runOwner.getD .empty).items)
      (Or.inr (Or.inl ⟨slot, observer.output, s.stack, rfl⟩)) rfl rfl
    exact hdrop.same rfl rfl rfl

theorem Shaped.register (h : s.Shaped) (hu : userTop s.stack = true) (kind : Kind)
    (output : Option Signal) : (s.register kind output).Shaped :=
  (h.pushBatch hu (f := .installing (s.core.register kind output).1 output) rfl rfl).same rfl rfl rfl

theorem Shaped.observe (h : s.Shaped) (hu : userTop s.stack = true) (kind : Kind)
    (output : Option Signal) : (s.observe kind output).Shaped :=
  (h.register hu kind output).evaluate ⟨_, _, rfl, rfl⟩ _

/-- Recording a read changes the kind of no frame. -/
theorem mem_logRead {entry : Read V} {stack : List (Frame V)} (h : f ∈ logRead entry stack) :
    ∃ g ∈ stack, g.isRun = f.isRun ∧ g.isBatch = f.isBatch ∧ g.isFlush = f.isFlush := by
  induction stack with
  | nil => simp [logRead] at h
  | cons top stack ih =>
      have hself : f = top ∨ f ∈ stack →
          ∃ g ∈ top :: stack, g.isRun = f.isRun ∧ g.isBatch = f.isBatch ∧ g.isFlush = f.isFlush :=
        fun hm => ⟨f, List.mem_cons.mpr hm, rfl, rfl, rfl⟩
      have htail : f = top ∨ f ∈ logRead entry stack →
          ∃ g ∈ top :: stack, g.isRun = f.isRun ∧ g.isBatch = f.isBatch ∧ g.isFlush = f.isFlush := by
        rintro (hm | hm)
        · exact hself (Or.inl hm)
        · obtain ⟨g, hg, hkind⟩ := ih hm
          exact ⟨g, List.mem_cons_of_mem _ hg, hkind⟩
      cases top with
      | evaluating e output reads =>
          rcases List.mem_cons.mp h with rfl | hm
          · exact ⟨_, List.mem_cons_self, rfl, rfl, rfl⟩
          · exact hself (Or.inr hm)
      | leaving e reads result =>
          rcases List.mem_cons.mp h with rfl | hm
          · exact ⟨_, List.mem_cons_self, rfl, rfl, rfl⟩
          · exact hself (Or.inr hm)
      | _ => exact htail (List.mem_cons.mp h)

theorem countP_logRead (entry : Read V) (stack : List (Frame V)) :
    (logRead entry stack).countP Frame.isBatch = stack.countP Frame.isBatch := by
  induction stack with
  | nil => rfl
  | cons top stack ih =>
      cases top with
      | evaluating => rfl
      | leaving => rfl
      | _ => simp only [logRead, List.countP_cons, ih]

theorem flush_logRead (entry : Read V) (stack : List (Frame V)) :
    (∃ g ∈ logRead entry stack, g.isFlush = true) ↔ ∃ g ∈ stack, g.isFlush = true := by
  induction stack with
  | nil => rfl
  | cons top stack ih =>
      cases top with
      | evaluating => simp [logRead, Frame.isFlush]
      | leaving => simp [logRead, Frame.isFlush]
      | _ => simp only [logRead, List.exists_mem_cons_iff, ih]

theorem userTop_logRead (entry : Read V) (stack : List (Frame V)) :
    userTop (logRead entry stack) = userTop stack := by
  cases stack with
  | nil => rfl
  | cons top stack => cases top <;> rfl

theorem fits_logRead (entry : Read V) (h : f.Fits stack) : f.Fits (logRead entry stack) := by
  have hloop : (∃ g rest, stack = g :: rest ∧ g.isLoop = true) →
      ∃ g rest, logRead entry stack = g :: rest ∧ g.isLoop = true := by
    rintro ⟨g, rest, rfl, hg⟩
    cases g with
    | installing => exact ⟨_, _, rfl, rfl⟩
    | flushing => exact ⟨_, _, rfl, rfl⟩
    | _ => cases hg
  have htop : userTop stack = true → userTop (logRead entry stack) = true :=
    fun hu => (userTop_logRead entry stack).trans hu
  cases f with
  | starting => exact hloop h
  | evaluating => exact hloop h
  | leaving => exact hloop h
  | dropping =>
      rcases h with hu | ⟨slot, output, rest, rfl⟩ | hl
      · exact Or.inl (htop hu)
      · exact Or.inr (Or.inl ⟨slot, output, _, rfl⟩)
      · exact Or.inr (Or.inr (hloop hl))
  | flushing =>
      refine ⟨htop h.1, fun g hg => ?_⟩
      obtain ⟨k, hk, hrun, hbatch, hflush⟩ := mem_logRead hg
      rw [← hrun, ← hbatch, ← hflush]
      exact h.2 k hk
  | _ => exact htop h

theorem stacked_logRead (entry : Read V) {stack : List (Frame V)} (h : Stacked stack) :
    Stacked (logRead entry stack) := by
  induction stack with
  | nil => trivial
  | cons top stack ih =>
      cases top with
      | evaluating => exact h
      | leaving => exact h
      | _ => exact ⟨fits_logRead entry h.1, ih h.2⟩

theorem Shaped.read (h : s.Shaped) (r : Signal) : (s.read r).Shaped where
  stacked := stacked_logRead _ h.stacked
  depth := by
    have hcore : (s.read r).core.depth = s.core.depth := by
      unfold State.read
      split <;> rfl
    rw [hcore, h.depth]
    exact (countP_logRead _ _).symm
  flushing := by
    have hcore : (s.read r).core.flushing = s.core.flushing := by
      unfold State.read
      split <;> rfl
    rw [hcore, h.flushing]
    exact (flush_logRead _ _).symm

theorem Shaped.set (h : s.Shaped) (hu : userTop s.stack = true) (r : Signal) (value : V) :
    (s.set r value).Shaped := by
  unfold State.set
  split
  · exact h
  · split
    · exact h
    · exact (h.write r _).changed (Or.inl (by rwa [write_stack])) _

theorem Shaped.beginUpdate (h : s.Shaped) (hu : userTop s.stack = true) (r : Signal) :
    (s.beginUpdate r).Shaped := by
  unfold State.beginUpdate
  split
  · exact h
  · split
    · exact h
    · exact (h.push (f := .update r) hu rfl rfl).same rfl rfl rfl

/-- A batch ends. -/
theorem Shaped.endBatch (h : s.Shaped) (hs : s.stack = f :: stack) (hb : f.isBatch = true)
    (hf : f.isFlush = false) (hu : userTop stack = true) :
    { s with stack := stack }.endBatch.Shaped :=
  (h.popBatch hs hb hf).flush (Or.inl hu)

theorem Shaped.drop (h : s.Shaped) (hu : userTop s.stack = true) (owner : Owned) :
    (s.drop owner).Shaped :=
  h.push (Or.inl hu) rfl rfl

theorem disposeObserver_depth (c : Core V) (slot : Nat) :
    (c.disposeObserver slot).2.depth = c.depth ∧ (c.disposeObserver slot).2.flushing = c.flushing := by
  unfold Core.disposeObserver
  split <;> exact ⟨rfl, rfl⟩

theorem Shaped.dispose (h : s.Shaped) (hu : userTop s.stack = true) (e : Effect) :
    (s.dispose e).Shaped := by
  unfold State.dispose
  split
  · have hcore : { s with core := (s.core.disposeObserver e.slot).2 }.Shaped :=
      h.same rfl (disposeObserver_depth _ _).1 (disposeObserver_depth _ _).2
    exact hcore.drop hu _
  · exact h

theorem capture_depth (c : Core V) (e : Effect) (latest : Option (Run V)) :
    (c.capture e latest).depth = c.depth ∧ (c.capture e latest).flushing = c.flushing := by
  unfold Core.capture Core.follow
  split
  · exact ⟨rfl, rfl⟩
  · split <;> exact ⟨rfl, rfl⟩

/-- While a reaction runs a change starts no flush. -/
theorem Shaped.changed_running (h : s.Shaped) (hr : ∃ g ∈ s.stack, g.isRun = true) (slot : Nat) :
    s.changed slot = { s with core := s.core.changed slot } := by
  unfold State.changed
  split
  · rfl
  · unfold State.flush
    rw [if_pos]
    exact h.run_inside hr

theorem publish_stack [BEq V] (h : s.Shaped) (hr : ∃ g ∈ s.stack, g.isRun = true)
    (output : Signal) (next : V) : (s.publish output next).stack = s.stack := by
  unfold State.publish
  split
  · rfl
  · split
    · rfl
    · rw [(h.write _ _).changed_running (by rwa [write_stack])]
      exact write_stack _ _ _

theorem Shaped.publish [BEq V] (h : s.Shaped) (hr : ∃ g ∈ s.stack, g.isRun = true)
    (output : Signal) (next : V) : (s.publish output next).Shaped := by
  unfold State.publish
  split
  · exact h
  · split
    · exact h
    · exact (h.write _ _).changed (Or.inr (by rwa [write_stack])) _

theorem Shaped.finish [BEq V] {result : Option V} (h : s.Shaped)
    (ht : s.finish result = some t) : t.Shaped := by
  unfold State.finish at ht
  split at ht
  · rename_i e output reads stack hs
    have hpop := h.pop hs rfl rfl
    have hfits : (Frame.evaluating e output reads).Fits stack := h.top hs
    split at ht
    · cases ht
      exact hpop.push hfits rfl rfl
    · rename_i next
      cases ht
      exact (hpop.push (f := .leaving e reads (some next)) hfits rfl rfl).publish
        ⟨_, List.mem_cons_self, rfl⟩ _ _
    · cases ht
  · cases ht

theorem Shaped.close {a : Action V} (h : s.Shaped) (ht : s.close a = some t) : t.Shaped := by
  cases a with
  | endUpdate value =>
      simp only [State.close] at ht
      split at ht
      · rename_i r stack hs
        cases ht
        have hu : userTop stack = true := h.top hs
        exact ((h.pop hs rfl rfl).write _ _).changed (Or.inl (by rwa [write_stack])) _
      · cases ht
  | endBatch =>
      simp only [State.close] at ht
      split at ht
      · rename_i stack hs
        cases ht
        exact h.endBatch hs rfl rfl (h.top hs)
      · cases ht
  | endOwned =>
      simp only [State.close] at ht
      split at ht
      · rename_i stack hs
        cases ht
        exact (h.pop hs rfl rfl).same rfl rfl rfl
      · cases ht
  | endCatch =>
      simp only [State.close] at ht
      split at ht
      · rename_i stack hs
        cases ht
        exact h.pop hs rfl rfl
      · cases ht
  | _ => cases ht

theorem Shaped.turn (h : s.Shaped) {turns : List (Effect × Kind)}
    (hs : s.stack = .flushing turns :: stack) : (s.turn turns stack).Shaped := by
  have htop : (Frame.flushing turns).Fits stack := h.top hs
  have hstacked := h.stacked
  have hdepth := h.depth
  rw [hs] at hstacked hdepth
  have hnone : ¬ ∃ g ∈ stack, g.isFlush = true := by
    rintro ⟨g, hg, hflush⟩
    rw [(htop.2 g hg).2.2] at hflush
    cases hflush
  unfold State.turn
  split
  · constructor
    · exact hstacked.2
    · simpa [Frame.isBatch] using hdepth
    · simp [hnone]
  · rename_i slot hnext
    split
    · refine Shaped.evaluate ?_ ⟨_, _, rfl, rfl⟩ slot
      constructor
      · exact ⟨htop, hstacked.2⟩
      · simpa [Frame.isBatch] using hdepth
      · have hflush : s.core.flushing = true := h.flushing.mpr ⟨_, by rw [hs]; exact List.mem_cons_self, rfl⟩
        simp [hflush, Frame.isFlush]
    · exact h.same rfl rfl rfl

theorem Shaped.dropItem (h : s.Shaped) {items : List Item}
    (hs : s.stack = .dropping items :: stack) : (s.dropItem items stack).Shaped := by
  have hpop := h.pop hs rfl rfl
  have hfits : (Frame.dropping items).Fits stack := h.top hs
  have hagain : ∀ items' : List Item, { s with stack := .dropping items' :: stack }.Shaped :=
    fun items' => hpop.push (f := .dropping items') hfits rfl rfl
  cases items with
  | nil => exact hpop
  | cons item items =>
      cases item with
      | effect e =>
          unfold State.dropItem
          simp only
          split
          · exact (hagain _).same rfl (disposeObserver_depth _ _).1 (disposeObserver_depth _ _).2
          · exact hagain _
      | value slot => exact (hagain items).same rfl rfl rfl

theorem Shaped.settle (h : s.Shaped) (hs : ∃ g rest, s.stack = g :: rest ∧ g.isLoop = true)
    (e : Effect) (owner : Owned) : (s.settle e owner).Shaped := by
  unfold State.settle
  split
  · exact h.push (Or.inr (Or.inr hs)) rfl rfl
  · exact h.same rfl rfl rfl

theorem issue_core (s : State V) (e : Effect) (output : Option Signal) :
    (s.issue e output).core = s.core ∧ (s.issue e output).stack = s.stack := by
  cases output <;> exact ⟨rfl, rfl⟩

theorem Shaped.tick (h : s.Shaped) (ht : s.tick = some t) : t.Shaped := by
  unfold State.tick at ht
  split at ht
  · rename_i items stack hs
    cases ht
    exact h.dropItem hs
  · rename_i slot output stack hs
    cases ht
    have hfits : (Frame.starting slot output : Frame V).Fits stack := h.top hs
    have hrun := (h.pop hs rfl rfl).push
      (f := .evaluating ⟨slot, s.core.observers.generations slot⟩ output []) hfits rfl rfl
    exact hrun.same rfl rfl rfl
  · rename_i e reads result stack hs
    cases ht
    have hloop : ∃ g rest, stack = g :: rest ∧ g.isLoop = true := h.top hs
    have hleft : ({ s with stack := stack }.leave e (some ⟨reads, result, s.writes⟩)).2.Shaped :=
      (h.pop hs rfl rfl).same rfl (capture_depth _ _ _).1 (capture_depth _ _ _).2
    exact hleft.settle hloop e _
  · rename_i e output stack hs
    cases ht
    have hu : userTop stack = true := h.top hs
    refine Shaped.flush ?_ (Or.inl ?_)
    · refine (h.popBatch hs rfl rfl).same ?_ ?_ ?_
      · exact (issue_core _ e output).2
      · show (State.issue _ e output).core.depth - 1 = _
        rw [(issue_core _ e output).1]
      · show (State.issue _ e output).core.flushing = _
        rw [(issue_core _ e output).1]
    · show userTop (State.issue _ e output).stack = true
      rw [(issue_core _ e output).2]
      exact hu
  · rename_i turns stack hs
    cases ht
    exact h.turn hs
  · cases ht

theorem userTop_of_userTurn (h : s.userTurn = true) : userTop s.stack = true := by
  unfold State.userTurn at h
  rw [Bool.and_eq_true] at h
  exact h.2

theorem userTop_of_allowed {a : Action V} (h : s.allowed a = true) (hp : s.panicking = false)
    (ha : a ≠ .tick) : userTop s.stack = true := by
  unfold State.allowed at h
  split at h
  · exact absurd rfl ha
  · rw [hp] at h
    cases h
  · rw [hp, Bool.false_and, Bool.or_false] at h
    exact userTop_of_userTurn h
  · exact userTop_of_userTurn (Bool.and_eq_true _ _ ▸ h).1
  · exact userTop_of_userTurn (Bool.and_eq_true _ _ ▸ h).1
  · exact userTop_of_userTurn (Bool.and_eq_true _ _ ▸ h).1
  · exact userTop_of_userTurn (Bool.and_eq_true _ _ ▸ h).1
  · exact userTop_of_userTurn h

/-- A step without a panic keeps the shape of the stack. -/
theorem Shaped.apply [BEq V] {a : Action V} (h : s.Shaped) (hp : s.panicking = false)
    (ht : s.apply a = some t) : t.Shaped := by
  unfold State.apply at ht
  split at ht
  · rename_i hallowed
    have hu := userTop_of_allowed hallowed hp
    cases a with
    | signal value => cases ht; exact h.same rfl rfl rfl
    | derived =>
        cases ht
        have hcore : { s with core := (s.core.allocate none).2 }.Shaped := h.same rfl rfl rfl
        exact hcore.observe (hu (by simp)) .derived _
    | effect => cases ht; exact h.observe (hu (by simp)) .effect none
    | read r => cases ht; exact h.read r
    | set r value => cases ht; exact h.set (hu (by simp)) r value
    | beginUpdate r => cases ht; exact h.beginUpdate (hu (by simp)) r
    | endUpdate value => exact h.close (a := .endUpdate value) ht
    | beginBatch => cases ht; exact h.pushBatch (hu (by simp)) rfl rfl
    | endBatch => exact h.close (a := .endBatch) ht
    | beginOwned => cases ht; exact (h.push (f := .owned) (hu (by simp)) rfl rfl).same rfl rfl rfl
    | endOwned => exact h.close (a := .endOwned) ht
    | dropOwner index =>
        obtain ⟨owner, -, rfl⟩ := Option.map_eq_some_iff.mp ht
        have hcore : { s with detached := s.detached.eraseIdx index }.Shaped := h.same rfl rfl rfl
        exact hcore.drop (hu (by simp)) owner
    | dispose e => cases ht; exact h.dispose (hu (by simp)) e
    | flush => cases ht; exact h.flush (Or.inl (hu (by simp)))
    | finish result => exact h.finish ht
    | beginCatch => cases ht; exact h.push (hu (by simp)) rfl rfl
    | endCatch => exact h.close (a := .endCatch) ht
    | panic => cases ht; exact h.same rfl rfl rfl
    | unwind left =>
        simp [State.allowed, hp] at hallowed
    | tick => exact h.tick ht
  · cases ht

end State

theorem CalmReachable.shaped [BEq V] {s : State V} (h : CalmReachable s) : s.Shaped := by
  have hboth : s.Shaped ∧ s.panicking = false := by
    refine Reach.subset (C := {s | s.Shaped ∧ s.panicking = false}) ?_ ?_ h
    · rintro s rfl
      exact ⟨State.Shaped.initial, rfl⟩
    · rintro s ⟨hs, hp⟩ t ⟨a, ha, -, ht⟩
      exact ⟨hs.apply hp ha, ht⟩
  exact hboth.1

end Deka.Reactive
