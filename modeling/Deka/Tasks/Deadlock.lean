/-
Deka/Tasks/Deadlock.lean

When the task runner deadlocks.

Every run ends (`no_infinite_run`), because a thread only spawns threads with a longer stack.
A run that ends with threads waiting has a cycle of tasks in progress, each owned by a thread
that waits for the next.  A thread finds the cycle in its own stack unless it came into the
cycle at another place than the thread that owns the next task; so where all paths come into
a cycle at one place (`Safe`), no run deadlocks.
-/
import Deka.Lib.Descent
import Deka.Tasks.Invariant
import Mathlib.Data.List.Cycle

namespace Deka.Tasks

open Deka.Lib

variable {tasks : TaskMap} {shell : Shell} {starts : List String}

/-! ### Every run ends -/

/-- Grows with the tasks that the stack leaves over, then with the steps left. -/
def Thread.rank (n : Nat) (t : Thread) : ℕ ×ₗ ℕ :=
  match t.phase with
  | .entering | .waiting => toLex (n - t.stack.length + 1, 0)
  | .joining handles => toLex (0, handles.length + 3)
  | .running => toLex (0, 2)
  | .finishing _ => toLex (0, 1)
  | .finished _ => toLex (0, 0)

def Phase.isEntering : Phase → Bool
  | .entering => true
  | _ => false

def State.ranks (n : Nat) (s : State) : Multiset (ℕ ×ₗ ℕ) := (s.threads.map (Thread.rank n) : List _)

/-- The threads that may go to sleep, and the joins that `run_tasks` has left. -/
def State.pending (s : State) : Nat :=
  s.threads.countP (fun t => t.phase.isEntering) +
    match s.returned with
    | none => s.handles.length + 1
    | some _ => 0

/-- Fewer or smaller threads, or the same and less pending. -/
def Descends (a b : Multiset (ℕ ×ₗ ℕ) × ℕ) : Prop :=
  Prod.Lex (Relation.CutExpand (· < ·)) (· < ·) a b

theorem wellFounded_descends : WellFounded Descends :=
  WellFounded.prod_lex (wellFounded_lt.cutExpand) wellFounded_lt

theorem Thread.rank_wake (n : Nat) (t : Thread) : t.wake.rank n = t.rank n := by
  unfold Thread.wake
  split
  · next h =>
    rw [Thread.rank, Thread.rank, h]
  · rfl

theorem Spawned.declared {stack : List String} {name : String}
    (h : Spawned tasks starts stack name) :
    stack.Nodup ∧ ∀ x ∈ stack, x ∈ BTreeMap.keys tasks := by
  induction h with
  | start => simp
  | @dep stack parent name task _ hnew hget _ ih =>
    refine ⟨?_, ?_⟩
    · rw [List.nodup_append]
      refine ⟨ih.1, by simp, ?_⟩
      intro a ha b hb
      rw [List.mem_singleton.mp hb]
      rintro rfl
      exact hnew ha
    · intro x hx
      rcases List.mem_append.mp hx with hx | hx
      · exact ih.2 x hx
      · rw [List.mem_singleton.mp hx]
        exact BTreeMap.get?_isSome_iff.mp (by rw [hget]; rfl)

theorem Spawned.length_lt {stack : List String} {name : String}
    (h : Spawned tasks starts stack name) (hnew : name ∉ stack)
    (hdeclared : (tasks.get? name).isSome = true) : stack.length < (BTreeMap.keys tasks).length := by
  have hnodup : (name :: stack).Nodup := List.nodup_cons.mpr ⟨hnew, h.declared.1⟩
  have hsub : name :: stack ⊆ BTreeMap.keys tasks := by
    intro x hx
    rcases List.mem_cons.mp hx with rfl | hx
    · exact BTreeMap.get?_isSome_iff.mp hdeclared
    · exact h.declared.2 x hx
  exact (List.subperm_of_subset hnodup hsub).length_le

theorem ranks_setPhase {s : State} {i : Nat} {t : Thread} (ht : s.threads[i]? = some t)
    {phase : Phase} {n : Nat} (hlt : Thread.rank n { t with phase } < t.rank n) :
    Relation.CutExpand (· < ·) ((s.setPhase i phase).ranks n) (s.ranks n) := by
  have h := cutExpand_modify (r := (· < ·)) (Thread.rank n) ht (fun t => { t with phase }) [] hlt
    (by simp)
  rwa [List.append_nil] at h

theorem step_descends {s s' : State} (h : Inv tasks shell starts s)
    (hstep : Step tasks shell s s') :
    Descends (s'.ranks (BTreeMap.keys tasks).length, s'.pending)
      (s.ranks (BTreeMap.keys tasks).length, s.pending) := by
  generalize hn : (BTreeMap.keys tasks).length = n
  cases hstep with
  | leave ht hphase _ =>
    refine .left _ _ (ranks_setPhase ht ?_)
    simp [Thread.rank, hphase, Prod.Lex.toLex_lt_toLex]
  | @wait i t task ht hphase _ _ _ =>
    -- the same threads, one of which now sleeps
    obtain ⟨before, after, hthreads, hmodify⟩ := modify_split ht
    have hranks : (s.setPhase i .waiting).ranks n = s.ranks n := by
      rw [State.ranks, State.ranks, State.setPhase, hmodify, hthreads]
      simp [Thread.rank, hphase]
    rw [hranks]
    refine .right _ ?_
    show List.countP _ (List.modify ..) + _ < List.countP _ s.threads + _
    rw [hmodify, hthreads]
    simp [List.countP_append, hphase, Phase.isEntering, State.setPhase]
  | @claim i t task ht hphase hnew hget _ =>
    refine .left _ _ ?_
    have hlt := (h.fits i t ht).spawned.length_lt hnew (by rw [hget]; rfl)
    refine cutExpand_modify (Thread.rank n) ht _ _ ?_ ?_
    · simp [Thread.rank, hphase, Prod.Lex.toLex_lt_toLex]
    · intro x hx
      obtain ⟨d, -, rfl⟩ := List.mem_map.mp hx
      simp [Thread.rank, hphase, Prod.Lex.toLex_lt_toLex]
      omega
  | joined ht hphase _ =>
    refine .left _ _ (ranks_setPhase ht ?_)
    simp [Thread.rank, hphase, Prod.Lex.toLex_lt_toLex]
  | failed ht hphase _ =>
    refine .left _ _ (ranks_setPhase ht ?_)
    simp [Thread.rank, hphase, Prod.Lex.toLex_lt_toLex]
  | ready ht hphase =>
    refine .left _ _ (ranks_setPhase ht ?_)
    simp [Thread.rank, hphase, Prod.Lex.toLex_lt_toLex]
  | execute ht hphase _ =>
    refine .left _ _ (ranks_setPhase ht ?_)
    simp [Thread.rank, hphase, Prod.Lex.toLex_lt_toLex]
  | @finish i t r ht hphase =>
    refine .left _ _ ?_
    have ht' : (s.threads.map Thread.wake)[i]? = some t.wake := by rw [List.getElem?_map, ht]; rfl
    have hcut := cutExpand_modify (r := (· < ·)) (Thread.rank n) ht'
      (fun t => { t with phase := .finished r }) []
      (by rw [t.rank_wake]; simp [Thread.rank, hphase, Prod.Lex.toLex_lt_toLex]) (by simp)
    rw [List.append_nil, List.map_map] at hcut
    have hwake : Thread.rank n ∘ Thread.wake = Thread.rank n := funext (Thread.rank_wake n)
    rwa [hwake] at hcut
  | startJoined hreturned hhandles _ =>
    refine .right _ ?_
    simp [State.pending, hreturned, hhandles]
  | startFailed hreturned hhandles _ =>
    refine .right _ ?_
    simp [State.pending, hreturned]
  | startsJoined hreturned hhandles =>
    refine .right _ ?_
    simp [State.pending, hreturned]

/-- Whichever threads take the steps, they come to an end. -/
theorem no_infinite_run (tasks : TaskMap) (shell : Shell) (starts : List String) :
    ¬ ∃ run : Nat → State, run 0 = .start starts ∧
      ∀ n, ∃ choice, advance tasks shell (run n) choice = some (run (n + 1)) := by
  rintro ⟨run, hstart, hrun⟩
  have hreach : ∀ n, Reachable tasks shell starts (run n) := by
    intro n
    induction n with
    | zero =>
      rw [hstart]
      exact .start
    | succ n ih =>
      obtain ⟨choice, hchoice⟩ := hrun n
      exact .step choice ih hchoice
  have hacc := wellFounded_descends.apply
    ((run 0).ranks (BTreeMap.keys tasks).length, (run 0).pending)
  refine (acc_iff_isEmpty_descending_chain.mp hacc).false
    ⟨fun n => ((run n).ranks (BTreeMap.keys tasks).length, (run n).pending), rfl, fun n => ?_⟩
  obtain ⟨choice, hchoice⟩ := hrun n
  exact step_descends (hreach n).inv (step_of_advance hchoice)

/-! ### Deadlock -/

def Thread.through (t : Thread) : Prop := ∃ r, t.phase = .finished r

/-- Something is left to do, and nobody can take a step. -/
def Deadlocked (tasks : TaskMap) (shell : Shell) (s : State) : Prop :=
  (s.returned = none ∨ ∃ t ∈ s.threads, ¬ t.through) ∧
    ∀ choice, advance tasks shell s choice = none

/-- A thread of `name` can be left waiting for `dep`: what it joins before comes out well. -/
def Awaits (tasks : TaskMap) (shell : Shell) (name dep : String) : Prop :=
  ∃ task before after, tasks.get? name = some task ∧ task.sorted = before ++ dep :: after ∧
    ∀ d ∈ before, Settles tasks shell d (.ok ())

/-- A path from a started task that comes into the cycle at `name`. -/
def Enters (tasks : TaskMap) (starts : List String) (c : Cycle String) (path : List String)
    (name : String) : Prop :=
  Spawned tasks starts path name ∧ name ∈ c ∧ ∀ x ∈ path, x ∉ c

/-- All paths come into a cycle at the same place. -/
def Safe (tasks : TaskMap) (shell : Shell) (starts : List String) : Prop :=
  ∀ c : Cycle String, c.Nodup → c.Chain (Awaits tasks shell) →
    ∀ path name path' name', Enters tasks starts c path name → Enters tasks starts c path' name' →
      name = name'

/-- Every path that is followed by a path of threads is one. -/
theorem Spawned.of_append {stack : List String} {name : String}
    (h : Spawned tasks starts stack name) :
    ∀ path e rest, stack ++ [name] = path ++ e :: rest → Spawned tasks starts path e := by
  -- the path ends at the name, or already before it
  have hsplit : ∀ (stack path rest : List String) (name e : String),
      stack ++ [name] = path ++ e :: rest →
        stack = path ∧ name = e ∨ ∃ rest', stack = path ++ e :: rest' := by
    intro stack path rest name e heq
    rcases List.eq_nil_or_concat rest with rfl | ⟨rest', z, rfl⟩
    · obtain ⟨hstack, hname⟩ := List.append_inj' heq rfl
      exact .inl ⟨hstack, List.singleton_inj.mp hname⟩
    · rw [List.concat_eq_append, ← List.cons_append, ← List.append_assoc] at heq
      exact .inr ⟨rest', (List.append_inj' heq rfl).1⟩
  induction h with
  | @start name hstart =>
    intro path e rest heq
    obtain ⟨rfl, rfl⟩ | ⟨rest', heq⟩ := hsplit _ _ _ _ _ heq
    · exact .start hstart
    · simp at heq
  | @dep stack parent name task hspawned hnew hget hdep ih =>
    intro path e rest heq
    obtain ⟨rfl, rfl⟩ | ⟨rest', heq⟩ := hsplit _ _ _ _ _ heq
    · exact .dep hspawned hnew hget hdep
    · exact ih path e rest' heq

/-- A thread that stands on a cycle came into it somewhere. -/
theorem Spawned.enters {stack : List String} {name : String} (h : Spawned tasks starts stack name)
    {c : Cycle String} (hname : name ∈ c) :
    ∃ path e, Enters tasks starts c path e ∧ e ∈ stack ++ [name] := by
  classical
  have hfound : ((stack ++ [name]).find? (· ∈ c)).isSome = true := by
    rw [List.find?_isSome]
    exact ⟨name, by simp, by simpa using hname⟩
  obtain ⟨e, he⟩ := Option.isSome_iff_exists.mp hfound
  obtain ⟨hmem, path, rest, heq, hbefore⟩ := List.find?_eq_some_iff_append.mp he
  refine ⟨path, e, ⟨h.of_append path e rest heq, by simpa using hmem, ?_⟩, by rw [heq]; simp⟩
  intro x hx
  simpa using hbefore x hx

/-! ### What a deadlock is made of -/

theorem Phase.claimed_of_isWaiting {phase : Phase} (h : phase.isWaiting = true) :
    phase.claimed = false := by
  cases phase with
  | waiting => rfl
  | entering | joining | running | finishing | finished => cases h

/-- Where a thread stands that cannot take a step. -/
theorem Inv.stuck {s : State} (h : Inv tasks shell starts s)
    (hstuck : ∀ choice, advance tasks shell s choice = none) {i : Nat} {t : Thread}
    (ht : s.threads[i]? = some t) :
    t.through ∨ t.phase.isWaiting = true ∨
      ∃ k handles, t.phase = .joining (k :: handles) ∧ s.result? k = none := by
  have hrun : run tasks shell s i t = none := by
    have := hstuck (some i)
    rwa [advance, ht] at this
  cases hphase : t.phase with
  | entering =>
    rw [run, hphase] at hrun
    cases hrun
  | waiting => exact .inr (.inl rfl)
  | joining handles =>
    cases handles with
    | nil =>
      rw [run, hphase] at hrun
      cases hrun
    | cons k handles =>
      refine .inr (.inr ⟨k, handles, rfl, ?_⟩)
      rw [run, hphase] at hrun
      simp only at hrun
      split at hrun
      · assumption
      · cases hrun
      · cases hrun
  | running =>
    obtain ⟨-, hdeclared, -⟩ := (h.fits i t ht).inside (.inl (by rw [hphase]; rfl))
    obtain ⟨task, htask⟩ := Option.isSome_iff_exists.mp hdeclared
    rw [run, hphase] at hrun
    simp only [htask] at hrun
    cases hrun
  | finishing r =>
    rw [run, hphase] at hrun
    cases hrun
  | finished r => exact .inl ⟨r, hphase⟩

theorem Thread.through.result {s : State} {i : Nat} {t : Thread} (h : t.through)
    (ht : s.threads[i]? = some t) : s.result? i ≠ none := by
  obtain ⟨r, hr⟩ := h
  rw [State.result?, ht]
  simp [hr]

/-- The owner of a task in progress waits for another task in progress, which is not on its
stack. -/
theorem Inv.awaits {s : State} (h : Inv tasks shell starts s)
    (hstuck : ∀ choice, advance tasks shell s choice = none) {name : String}
    (hname : s.table name = some .inProgress) :
    ∃ dep, s.table dep = some .inProgress ∧ Awaits tasks shell name dep ∧
      ∃ stack, Spawned tasks starts stack name ∧ dep ∉ stack ++ [name] := by
  obtain ⟨i, t, ht, rfl, hclaimed⟩ := h.owned name hname
  have hfits := h.fits i t ht
  rcases h.stuck hstuck ht with ⟨r, hr⟩ | hwaiting | ⟨k, handles, hphase, hnone⟩
  · rw [hr] at hclaimed
    cases hclaimed
  · rw [Phase.claimed_of_isWaiting hwaiting] at hclaimed
    cases hclaimed
  · obtain ⟨-, hdeclared, -⟩ := hfits.inside (.inl hclaimed)
    obtain ⟨task, htask⟩ := Option.isSome_iff_exists.mp hdeclared
    have hholds := hfits.holds
    rw [hphase] at hholds
    obtain ⟨before, rest, hsplit, hbefore, hrest⟩ := hholds task htask
    cases hrest with
    | @cons _ dep _ rest hruns _ =>
      obtain ⟨u, hu, rfl, hstack⟩ := hruns
      -- the thread that is joined waits itself
      have hin : u.phase.claimed = true ∨ u.phase.isWaiting = true := by
        rcases h.stuck hstuck hu with hthrough | hwaiting | ⟨k', handles', hphase', -⟩
        · exact absurd hnone (hthrough.result hu)
        · exact .inr hwaiting
        · exact .inl (by rw [hphase']; rfl)
      obtain ⟨hnew, -, hprogress⟩ := (h.fits k u hu).inside hin
      refine ⟨u.name, hprogress, ⟨task, before, rest, htask, hsplit, fun d hd =>
        h.settles (hbefore d hd)⟩, t.stack, hfits.spawned, ?_⟩
      rwa [hstack] at hnew

/-- In a deadlock some task is in progress. -/
theorem Inv.inProgress {s : State} (h : Inv tasks shell starts s)
    (hdead : Deadlocked tasks shell s) : ∃ name, s.table name = some .inProgress := by
  obtain ⟨hleft, hstuck⟩ := hdead
  have hthread : ∃ t ∈ s.threads, ¬ t.through := by
    rcases hleft with hreturned | hthread
    · -- `run_tasks` waits for a thread
      have hjoin : join s = none := hstuck none
      obtain ⟨before, rest, -, -, hrest⟩ := h.joins hreturned
      rw [join, hreturned] at hjoin
      cases hhandles : s.handles with
      | nil =>
        rw [hhandles] at hjoin
        cases hjoin
      | cons k handles =>
        rw [hhandles] at hrest hjoin
        cases hrest with
        | cons hruns _ =>
          obtain ⟨u, hu, -⟩ := hruns
          refine ⟨u, List.mem_of_getElem? hu, fun hthrough => hthrough.result hu ?_⟩
          simp only at hjoin
          split at hjoin
          · assumption
          · cases hjoin
          · cases hjoin
    · exact hthread
  obtain ⟨t, ht, hnot⟩ := hthread
  obtain ⟨i, hi⟩ := List.getElem?_of_mem ht
  have hin : t.phase.claimed = true ∨ t.phase.isWaiting = true := by
    rcases h.stuck hstuck hi with hthrough | hwaiting | ⟨k, handles, hphase, -⟩
    · exact absurd hthrough hnot
    · exact .inr hwaiting
    · exact .inl (by rw [hphase]; rfl)
  exact ⟨t.name, ((h.fits i t hi).inside hin).2.2⟩

/-- A deadlock needs two ways into a cycle. -/
theorem Inv.not_deadlocked {s : State} (h : Inv tasks shell starts s)
    (hsafe : Safe tasks shell starts) : ¬ Deadlocked tasks shell s := by
  intro hdead
  classical
  have hstuck := hdead.2
  -- follow the tasks in progress, each to the one that its owner waits for
  let next (name : String) : String :=
    if hname : s.table name = some .inProgress then (h.awaits hstuck hname).choose else name
  have hnext : ∀ name (hname : s.table name = some .inProgress),
      s.table (next name) = some .inProgress ∧ Awaits tasks shell name (next name) ∧
        ∃ stack, Spawned tasks starts stack name ∧ next name ∉ stack ++ [name] := by
    intro name hname
    rw [show next name = (h.awaits hstuck hname).choose from dif_pos hname]
    exact (h.awaits hstuck hname).choose_spec
  have hfinite : {name | s.table name = some .inProgress}.Finite := by
    refine (s.threads.map Thread.name).finite_toSet.subset fun name hname => ?_
    obtain ⟨i, t, ht, rfl, -⟩ := h.owned name hname
    exact List.mem_map_of_mem (List.mem_of_getElem? ht)
  obtain ⟨start, hstart⟩ := h.inProgress hdead
  obtain ⟨x, hx, hperiodic⟩ :=
    exists_mem_periodicPts hfinite hstart fun name hname => (hnext name hname).1
  have horbit : ∀ n, s.table (next^[n] x) = some .inProgress := by
    intro n
    induction n with
    | zero => exact hx
    | succ n ih =>
      rw [Function.iterate_succ_apply']
      exact (hnext _ ih).1
  -- the cycle of the orbit has one place of entry
  have hchain : (Function.periodicOrbit next x).Chain (Awaits tasks shell) := by
    rw [Function.periodicOrbit_chain' _ hperiodic]
    intro n
    rw [Function.iterate_succ_apply']
    exact (hnext _ (horbit n)).2.1
  have hentry := hsafe _ Function.nodup_periodicOrbit hchain
  obtain ⟨stack, hspawned, -⟩ := (hnext x hx).2.2
  obtain ⟨path, e, henters, -⟩ := hspawned.enters (Function.self_mem_periodicOrbit hperiodic)
  -- the task before it has come in there too, and finds it on its stack
  obtain ⟨n, rfl⟩ := (Function.mem_periodicOrbit_iff hperiodic).mp henters.2.1
  have hback : ∃ m, next (next^[m] x) = next^[n] x := by
    have hpos := Function.minimalPeriod_pos_of_mem_periodicPts hperiodic
    have hsucc : (n + Function.minimalPeriod next x - 1).succ =
        n + Function.minimalPeriod next x := by omega
    refine ⟨n + Function.minimalPeriod next x - 1, ?_⟩
    rw [← Function.iterate_succ_apply' next, hsucc, Function.iterate_add_minimalPeriod_eq]
  obtain ⟨m, hm⟩ := hback
  obtain ⟨-, -, stack', hspawned', hnot⟩ := hnext _ (horbit m)
  obtain ⟨path', e', henters', hmem⟩ :=
    hspawned'.enters (Function.iterate_mem_periodicOrbit hperiodic m)
  rw [hentry _ _ _ _ henters' henters, ← hm] at hmem
  exact hnot hmem

/-! ### When the runner never deadlocks -/

/-- With one way into every cycle, every run ends with all threads through and a result, which
is an error where a started task rests on a cycle. -/
theorem runner_never_deadlocks (tasks : TaskMap) (shell : Shell) (starts : List String)
    (hsafe : Safe tasks shell starts) :
    (∀ s, Reachable tasks shell starts s → ¬ Deadlocked tasks shell s) ∧
      (¬ ∃ run : Nat → State, run 0 = .start starts ∧
        ∀ n, ∃ choice, advance tasks shell (run n) choice = some (run (n + 1))) ∧
      ∀ s, Reachable tasks shell starts s → (∀ choice, advance tasks shell s choice = none) →
        (∀ t ∈ s.threads, t.through) ∧ ∃ r, s.returned = some r ∧
          ∀ start ∈ starts, ∀ name, Relation.ReflTransGen (Needs tasks) name start →
            Relation.TransGen (Needs tasks) name name → r ≠ .ok () := by
  refine ⟨fun s hs => hs.inv.not_deadlocked hsafe, no_infinite_run tasks shell starts, ?_⟩
  intro s hs hstuck
  have hdone : ¬ (s.returned = none ∨ ∃ t ∈ s.threads, ¬ t.through) := fun hleft =>
    hs.inv.not_deadlocked hsafe ⟨hleft, hstuck⟩
  push Not at hdone
  obtain ⟨r, hr⟩ := Option.ne_none_iff_exists'.mp hdone.1
  refine ⟨hdone.2, r, hr, ?_⟩
  rintro start hstart name hreach hloop rfl
  have hends := hs.inv.ends _ hr (.inl rfl)
  generalize hok : (Except.ok () : Result) = r at hends
  cases hends with
  | ok hall =>
    -- what comes out well rests on nothing that lies on a cycle
    have hacc : Acc (Needs tasks) name := by
      rcases Relation.reflTransGen_iff_eq_or_transGen.mp hreach with heq | htrans
      · rw [← heq]
        exact (hall start hstart).acc
      · exact (hall start hstart).acc.inv_of_transGen htrans
    exact not_transGen_self hacc hloop
  | failed => cases hok

def Acyclic (tasks : TaskMap) : Prop := ∀ name, ¬ Relation.TransGen (Needs tasks) name name

theorem Awaits.needs {name dep : String} (h : Awaits tasks shell name dep) :
    Needs tasks dep name := by
  obtain ⟨task, before, after, hget, hsplit, -⟩ := h
  exact ⟨task, hget, TaskDef.mem_sorted.mp (by rw [hsplit]; simp)⟩

theorem safe_of_acyclic (h : Acyclic tasks) : Safe tasks shell starts := by
  intro c _ hchain path name path' name' henters _
  have hirrefl : Std.Irrefl fun a b => Relation.TransGen (Needs tasks) b a := ⟨h⟩
  have htrans : IsTrans String fun a b => Relation.TransGen (Needs tasks) b a :=
    ⟨fun _ _ _ hab hbc => hbc.trans hab⟩
  have hloop : c.Chain fun a b => Relation.TransGen (Needs tasks) b a :=
    hchain.imp fun a b hab => .single hab.needs
  have hnil : c = Cycle.nil := hloop.eq_nil_of_irrefl
  rw [hnil] at henters
  exact absurd henters.2.1 (Cycle.notMem_nil _)

/-- A task and the one it needs. -/
def testTasks : TaskMap := [("build", ⟨"cargo build", []⟩), ("test", ⟨"cargo test", ["build"]⟩)]

theorem acyclic_testTasks : Acyclic testTasks := by
  have hneeds : ∀ dep name, Needs testTasks dep name → dep = "build" ∧ name = "test" := by
    rintro dep name ⟨task, hget, hdep⟩
    simp only [testTasks, BTreeMap.get?_cons, BTreeMap.get?_nil] at hget
    split at hget
    · cases hget
      simp at hdep
    · split at hget
      · next hname =>
        cases hget
        exact ⟨by simpa using hdep, hname.symm⟩
      · cases hget
  intro name hloop
  obtain ⟨dep, hfirst, -⟩ := Relation.TransGen.head'_iff.mp hloop
  obtain ⟨dep', -, hlast⟩ := Relation.TransGen.tail'_iff.mp hloop
  have hbuild := (hneeds _ _ hfirst).1
  have htest := (hneeds _ _ hlast).2
  exact absurd (hbuild.symm.trans htest) (by decide)

theorem testTasks_never_deadlocks :
    ¬ ∃ s, Reachable testTasks (fun _ _ => .ok 0) ["test"] s ∧
      Deadlocked testTasks (fun _ _ => .ok 0) s := by
  rintro ⟨s, hs, hstuck⟩
  exact (runner_never_deadlocks testTasks (fun _ _ => .ok 0) ["test"]
    (safe_of_acyclic acyclic_testTasks)).1 s hs hstuck

/-- Two tasks that need each other. -/
def twoTasks : TaskMap := [("a", ⟨"echo a", ["b"]⟩), ("b", ⟨"echo b", ["a"]⟩)]

/-- Both tasks are claimed; these are the phases of the threads of the dependencies. -/
def twoTasksClaimed (first second : Phase) : State where
  table := Function.update (Function.update (fun _ => none) "a" (some .inProgress)) "b"
    (some .inProgress)
  threads := [⟨"a", [], .joining [2]⟩, ⟨"b", [], .joining [3]⟩, ⟨"b", ["a"], first⟩,
    ⟨"a", ["b"], second⟩]
  handles := [0, 1]
  returned := none
  log := []

theorem twoTasks_deadlocks (shell : Shell) :
    ∃ s, Reachable twoTasks shell ["a", "b"] s ∧ Deadlocked twoTasks shell s := by
  have hstart : Reachable twoTasks shell ["a", "b"] (.start ["a", "b"]) := .start
  have hclaimed := (hstart.step (some 0) rfl).step (some 1) rfl
  have hentering : Reachable twoTasks shell ["a", "b"] (twoTasksClaimed .entering .entering) := by
    convert hclaimed using 1
    simp [twoTasksClaimed, enter, State.start, State.claim, twoTasks, BTreeMap.get?_cons,
      TaskDef.sorted, List.range'_succ, List.range_succ]
  have hasleep : Reachable twoTasks shell ["a", "b"] (twoTasksClaimed .waiting .entering) :=
    hentering.step (some 2) rfl
  have hdead : Reachable twoTasks shell ["a", "b"] (twoTasksClaimed .waiting .waiting) :=
    hasleep.step (some 3) rfl
  refine ⟨_, hdead, .inl rfl, fun choice => ?_⟩
  cases choice with
  | none => rfl
  | some i => rcases i with - | - | - | - | i <;> rfl

/-- A pattern starts both, and each dependency finds its task in progress. -/
theorem pattern_deadlocks :
    ∃ (tasks : TaskMap) (starts : List String) (s : State),
      started tasks (fun _ => .ok fun _ => true) "*" = .ok starts ∧
        Reachable tasks (fun _ _ => .ok 0) starts s ∧ Deadlocked tasks (fun _ _ => .ok 0) s := by
  obtain ⟨s, hs, hdead⟩ := twoTasks_deadlocks fun _ _ => .ok 0
  exact ⟨twoTasks, ["a", "b"], s, by decide, hs, hdead⟩

end Deka.Tasks
