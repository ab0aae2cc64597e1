/-
Deka/Tasks/Threads.lean

The invariant of the task runner.

A thread stands on a path of dependencies from a started task (`Spawned`), and a task in
progress has one owner, the thread that claimed it.  What a thread has joined is recorded as
done (`Fits`), so every recorded result is the one that the results of the dependencies
settle (`Settles`), cycles apart.
-/
import Deka.Tasks.Runner
import Mathlib.Data.List.Forall2
import Mathlib.Logic.Relation

namespace Deka.Tasks

open Deka.Lib

variable {tasks : TaskMap} {shell : Shell} {starts : List String}

/-! ### Steps -/

/-- How a thread leaves without a claim. -/
inductive Leaves (tasks : TaskMap) (s : State) (t : Thread) : Result → Prop where
  | cycle : t.name ∈ t.stack → Leaves tasks s t (.error (cycleError t.stack t.name))
  | unknown : tasks.get? t.name = none → Leaves tasks s t (.error (unknownError t.name))
  | done {r : Result} : t.name ∉ t.stack → s.table t.name = some (.done r) → Leaves tasks s t r

/-- What a step can do. -/
inductive Step (tasks : TaskMap) (shell : Shell) (s : State) : State → Prop where
  | leave {i : Nat} {t : Thread} {r : Result} : s.threads[i]? = some t → t.phase = .entering →
      Leaves tasks s t r → Step tasks shell s (s.setPhase i (.finished r))
  | wait {i : Nat} {t : Thread} {task : TaskDef} : s.threads[i]? = some t → t.phase = .entering →
      t.name ∉ t.stack → tasks.get? t.name = some task → s.table t.name = some .inProgress →
      Step tasks shell s (s.setPhase i .waiting)
  | claim {i : Nat} {t : Thread} {task : TaskDef} : s.threads[i]? = some t → t.phase = .entering →
      t.name ∉ t.stack → tasks.get? t.name = some task → s.table t.name = none →
      Step tasks shell s (s.claim i t task)
  | joined {i h : Nat} {t : Thread} {handles : List Nat} : s.threads[i]? = some t →
      t.phase = .joining (h :: handles) → s.result? h = some (.ok ()) →
      Step tasks shell s (s.setPhase i (.joining handles))
  | failed {i h : Nat} {t : Thread} {handles : List Nat} {e : TaskError} :
      s.threads[i]? = some t → t.phase = .joining (h :: handles) →
      s.result? h = some (.error e) → Step tasks shell s (s.setPhase i (.finishing (.error e)))
  | ready {i : Nat} {t : Thread} : s.threads[i]? = some t → t.phase = .joining [] →
      Step tasks shell s (s.setPhase i .running)
  | execute {i : Nat} {t : Thread} {task : TaskDef} : s.threads[i]? = some t →
      t.phase = .running → tasks.get? t.name = some task →
      Step tasks shell s { s.setPhase i (.finishing (runTask shell t.name task)) with
        log := .executed t.name :: s.log }
  | finish {i : Nat} {t : Thread} {r : Result} : s.threads[i]? = some t →
      t.phase = .finishing r → Step tasks shell s (s.finish i t.name r)
  | startJoined {h : Nat} {handles : List Nat} : s.returned = none → s.handles = h :: handles →
      s.result? h = some (.ok ()) → Step tasks shell s { s with handles }
  | startFailed {h : Nat} {handles : List Nat} {e : TaskError} : s.returned = none →
      s.handles = h :: handles → s.result? h = some (.error e) →
      Step tasks shell s { s with returned := some (.error e) }
  | startsJoined : s.returned = none → s.handles = [] →
      Step tasks shell s { s with returned := some (.ok ()) }

theorem step_of_advance {s s' : State} {choice : Option Nat}
    (h : advance tasks shell s choice = some s') : Step tasks shell s s' := by
  cases choice with
  | none =>
    simp only [advance, join] at h
    split at h
    · cases h
    · next hr hh =>
      cases h
      exact .startsJoined hr hh
    · next hr hh =>
      split at h
      · cases h
      · next hres =>
        cases h
        exact .startJoined hr hh hres
      · next hres =>
        cases h
        exact .startFailed hr hh hres
  | some i =>
    obtain ⟨t, ht, hrun⟩ := Option.bind_eq_some_iff.mp h
    rw [run] at hrun
    split at hrun
    · next hphase =>
      cases hrun
      rw [enter]
      split
      · next hmem => exact .leave ht hphase (.cycle hmem)
      · next hmem =>
        split
        · next hget => exact .leave ht hphase (.unknown hget)
        · next task hget =>
          split
          · next r htable => exact .leave ht hphase (.done hmem htable)
          · next htable => exact .wait ht hphase hmem hget htable
          · next htable => exact .claim ht hphase hmem hget htable
    · cases hrun
    · next hphase =>
      cases hrun
      exact .ready ht hphase
    · next hphase =>
      split at hrun
      · cases hrun
      · next hres =>
        cases hrun
        exact .joined ht hphase hres
      · next hres =>
        cases hrun
        exact .failed ht hphase hres
    · next hphase =>
      split at hrun
      · cases hrun
      · next hget =>
        cases hrun
        exact .execute ht hphase hget
    · next hphase =>
      cases hrun
      exact .finish ht hphase
    · cases hrun

/-! ### Threads after a step -/

namespace State

variable {s : State} {i j : Nat} {t u : Thread}

@[simp] theorem table_setPhase (s : State) (i : Nat) (phase : Phase) :
    (s.setPhase i phase).table = s.table := rfl

@[simp] theorem log_setPhase (s : State) (i : Nat) (phase : Phase) :
    (s.setPhase i phase).log = s.log := rfl

theorem threads_setPhase (s : State) (i : Nat) (phase : Phase) (j : Nat) :
    (s.setPhase i phase).threads[j]? =
      (s.threads[j]?).map fun u => if i = j then { u with phase } else u := by
  simp only [setPhase, List.getElem?_modify]
  split <;> simp

theorem threads_claim (s : State) (i : Nat) (t : Thread) (task : TaskDef) (j : Nat) :
    (s.claim i t task).threads[j]? =
      if j < s.threads.length then
        (s.threads[j]?).map fun u => if i = j then
          { u with phase := .joining (List.range' s.threads.length task.sorted.length) } else u
      else
        (task.sorted[j - s.threads.length]?).map fun dep =>
          { name := dep, stack := t.stack ++ [t.name], phase := .entering } := by
  simp only [claim]
  split
  · next hj =>
    rw [List.getElem?_append_left (by simpa using hj), List.getElem?_modify]
    split <;> simp
  · next hj =>
    rw [List.getElem?_append_right (by simpa using hj), List.getElem?_map, List.length_modify]

theorem threads_finish (s : State) (i : Nat) (name : String) (r : Result) (j : Nat) :
    (s.finish i name r).threads[j]? =
      (s.threads[j]?).map fun u => if i = j then { u.wake with phase := .finished r }
        else u.wake := by
  simp only [finish, List.getElem?_modify, List.getElem?_map]
  split
  · rw [Option.map_eq_map, Option.map_map]
    rfl
  · rw [id_map']

end State

@[simp] theorem Thread.name_wake (t : Thread) : t.wake.name = t.name := by
  unfold Thread.wake
  split <;> rfl

@[simp] theorem Thread.stack_wake (t : Thread) : t.wake.stack = t.stack := by
  unfold Thread.wake
  split <;> rfl

/-! ### What a task comes to -/

/-- `name` needs `dep`. -/
def Needs (tasks : TaskMap) (dep name : String) : Prop :=
  ∃ task, tasks.get? name = some task ∧ dep ∈ task.dependencies

/-- The result of a task: the error of its first dependency that fails, in the order of the
names, or what its command comes to. -/
inductive Settles (tasks : TaskMap) (shell : Shell) : String → Result → Prop where
  | unknown {name : String} : tasks.get? name = none →
      Settles tasks shell name (.error (unknownError name))
  | failed {name dep : String} {task : TaskDef} {before after : List String} {e : TaskError} :
      tasks.get? name = some task → task.sorted = before ++ dep :: after →
      (∀ d ∈ before, Settles tasks shell d (.ok ())) → Settles tasks shell dep (.error e) →
      Settles tasks shell name (.error e)
  | ran {name : String} {task : TaskDef} : tasks.get? name = some task →
      (∀ d ∈ task.dependencies, Settles tasks shell d (.ok ())) →
      Settles tasks shell name (runTask shell name task)

/-- The result of `run_tasks`: the error of the first started task that fails. -/
inductive Ends (tasks : TaskMap) (shell : Shell) (starts : List String) : Result → Prop where
  | ok : (∀ name ∈ starts, Settles tasks shell name (.ok ())) → Ends tasks shell starts (.ok ())
  | failed {name : String} {before after : List String} {e : TaskError} :
      starts = before ++ name :: after → (∀ n ∈ before, Settles tasks shell n (.ok ())) →
      Settles tasks shell name (.error e) → Ends tasks shell starts (.error e)

@[simp] theorem TaskDef.mem_sorted {task : TaskDef} {d : String} :
    d ∈ task.sorted ↔ d ∈ task.dependencies :=
  List.mem_mergeSort

/-- A task that comes out well does not rest on a cycle. -/
theorem Settles.acc {name : String} (h : Settles tasks shell name (.ok ())) :
    Acc (Needs tasks) name := by
  generalize hr : (Except.ok () : Result) = r at h
  induction h with
  | unknown => cases hr
  | failed => cases hr
  | ran hget _ ih =>
    refine Acc.intro _ ?_
    rintro d ⟨task, htask, hd⟩
    rw [hget] at htask
    cases htask
    exact ih d hd rfl

/-! ### The invariant -/

/-- The paths of dependencies from the started tasks, without a repetition before the end. -/
inductive Spawned (tasks : TaskMap) (starts : List String) : List String → String → Prop where
  | start {name : String} : name ∈ starts → Spawned tasks starts [] name
  | dep {stack : List String} {parent name : String} {task : TaskDef} :
      Spawned tasks starts stack parent → parent ∉ stack → tasks.get? parent = some task →
      name ∈ task.dependencies → Spawned tasks starts (stack ++ [parent]) name

/-- The thread owns a task in progress. -/
def Phase.claimed : Phase → Bool
  | .joining _ | .running | .finishing _ => true
  | _ => false

def Phase.isWaiting : Phase → Bool
  | .waiting => true
  | _ => false

/-- The task is done well. -/
def State.Ok (s : State) (name : String) : Prop := s.table name = some (.done (.ok ()))

/-- A thread of `name` with this stack. -/
def State.Runs (s : State) (name : String) (stack : List String) (h : Nat) : Prop :=
  ∃ u, s.threads[h]? = some u ∧ u.name = name ∧ u.stack = stack

/-- The first of the names are done well, and threads of the others are still to be joined. -/
def State.Joins (s : State) (names : List String) (stack : List String) (handles : List Nat) :
    Prop :=
  ∃ before rest, names = before ++ rest ∧ (∀ d ∈ before, s.Ok d) ∧
    List.Forall₂ (fun h d => s.Runs d stack h) handles rest

/-- The result is the one that settles, unless a cycle made it an error. -/
def Comes (tasks : TaskMap) (shell : Shell) (name : String) (r : Result) : Prop :=
  r = .ok () ∨ Acc (Needs tasks) name → Settles tasks shell name r

/-- What a thread in this phase can rely on. -/
def Phase.Holds (tasks : TaskMap) (shell : Shell) (s : State) (name : String)
    (stack : List String) : Phase → Prop
  | .joining handles =>
      ∀ task, tasks.get? name = some task → s.Joins task.sorted (stack ++ [name]) handles
  | .running => ∀ task, tasks.get? name = some task → ∀ d ∈ task.dependencies, s.Ok d
  | .finishing r => Comes tasks shell name r
  | .finished r => Comes tasks shell name r ∧
      (r = .ok () ∨ Acc (Needs tasks) name → (tasks.get? name).isSome = true →
        s.table name = some (.done r))
  | .entering | .waiting => True

/-- One thread fits the table and the other threads. -/
structure Fits (tasks : TaskMap) (shell : Shell) (starts : List String) (s : State)
    (t : Thread) : Prop where
  spawned : Spawned tasks starts t.stack t.name
  inside : t.phase.claimed = true ∨ t.phase.isWaiting = true →
    t.name ∉ t.stack ∧ (tasks.get? t.name).isSome = true ∧ s.table t.name = some .inProgress
  holds : t.phase.Holds tasks shell s t.name t.stack

structure Inv (tasks : TaskMap) (shell : Shell) (starts : List String) (s : State) : Prop where
  fits : ∀ (i : Nat) (t : Thread), s.threads[i]? = some t → Fits tasks shell starts s t
  owned : ∀ name, s.table name = some .inProgress →
    ∃ (i : Nat) (t : Thread), s.threads[i]? = some t ∧ t.name = name ∧ t.phase.claimed = true
  unique : ∀ (i j : Nat) (t u : Thread), s.threads[i]? = some t → s.threads[j]? = some u →
    t.phase.claimed = true → u.phase.claimed = true → t.name = u.name → i = j
  sound : ∀ name r, s.table name = some (.done r) → Comes tasks shell name r
  joins : s.returned = none → s.Joins starts [] s.handles
  ends : ∀ r, s.returned = some r →
    (r = .ok () ∨ ∀ name ∈ starts, Acc (Needs tasks) name) → Ends tasks shell starts r

theorem Inv.settles {s : State} (h : Inv tasks shell starts s) {name : String} (hok : s.Ok name) :
    Settles tasks shell name (.ok ()) :=
  h.sound name _ hok (.inl rfl)

/-! ### What later states keep -/

/-- Threads keep their names and stacks, and what is done stays done. -/
structure Keeps (s s' : State) : Prop where
  threads : ∀ h name stack, s.Runs name stack h → s'.Runs name stack h
  done : ∀ name r, s.table name = some (.done r) → s'.table name = some (.done r)

theorem Keeps.joins {s s' : State} (h : Keeps s s') {names stack : List String}
    {handles : List Nat} (hj : s.Joins names stack handles) : s'.Joins names stack handles := by
  obtain ⟨before, rest, hsplit, hbefore, hrest⟩ := hj
  exact ⟨before, rest, hsplit, fun d hd => h.done d _ (hbefore d hd),
    hrest.imp fun k d hk => h.threads k d stack hk⟩

theorem Keeps.holds {s s' : State} (h : Keeps s s') {name : String} {stack : List String}
    {phase : Phase} (hp : phase.Holds tasks shell s name stack) :
    phase.Holds tasks shell s' name stack := by
  cases phase with
  | joining handles =>
    intro task htask
    exact h.joins (hp task htask)
  | running =>
    intro task htask d hd
    exact h.done d _ (hp task htask d hd)
  | finishing r => exact hp
  | finished r => exact ⟨hp.1, fun hr hget => h.done name r (hp.2 hr hget)⟩
  | entering => trivial
  | waiting => trivial

theorem keeps_setPhase (s : State) (i : Nat) (phase : Phase) : Keeps s (s.setPhase i phase) where
  threads := by
    rintro h name stack ⟨u, hu, hname, hstack⟩
    refine ⟨if i = h then { u with phase } else u, ?_, ?_, ?_⟩
    · rw [State.threads_setPhase, hu]
      rfl
    · split <;> exact hname
    · split <;> exact hstack
  done := fun _ _ => id

theorem keeps_claim {s : State} {t : Thread} (i : Nat) (task : TaskDef)
    (hnone : s.table t.name = none) : Keeps s (s.claim i t task) where
  threads := by
    rintro h name stack ⟨u, hu, hname, hstack⟩
    have hlt : h < s.threads.length := (List.getElem?_eq_some_iff.mp hu).1
    refine ⟨if i = h then
      { u with phase := .joining (List.range' s.threads.length task.sorted.length) } else u,
      ?_, ?_, ?_⟩
    · rw [State.threads_claim, if_pos hlt, hu]
      rfl
    · split <;> exact hname
    · split <;> exact hstack
  done := by
    intro name r hr
    have hne : name ≠ t.name := by
      rintro rfl
      rw [hnone] at hr
      cases hr
    show Function.update s.table t.name _ name = _
    rw [Function.update_of_ne hne, hr]

theorem keeps_finish {s : State} (i : Nat) {name : String} (r : Result)
    (hprogress : s.table name = some .inProgress) : Keeps s (s.finish i name r) where
  threads := by
    rintro h name' stack ⟨u, hu, hname, hstack⟩
    refine ⟨if i = h then { u.wake with phase := .finished r } else u.wake, ?_, ?_, ?_⟩
    · rw [State.threads_finish, hu]
      rfl
    · split <;> exact u.name_wake.trans hname
    · split <;> exact u.stack_wake.trans hstack
  done := by
    intro name' r' hr
    have hne : name' ≠ name := by
      rintro rfl
      rw [hprogress] at hr
      cases hr
    show Function.update s.table name _ name' = _
    rw [Function.update_of_ne hne, hr]

theorem Fits.keeps {s s' : State} {t : Thread} (h : Fits tasks shell starts s t)
    (hkeep : Keeps s s') (hprogress : t.phase.claimed = true ∨ t.phase.isWaiting = true →
      s'.table t.name = some .inProgress) : Fits tasks shell starts s' t where
  spawned := h.spawned
  inside hin := ⟨(h.inside hin).1, (h.inside hin).2.1, hprogress hin⟩
  holds := hkeep.holds h.holds

end Deka.Tasks
