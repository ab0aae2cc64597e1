/-
Deka/Tasks/Results.lean

What acyclic tasks come to, whichever threads take the steps.

A command runs once, after all dependencies are recorded as done well (`Logged`).  Every
recorded result is the one that the results of the dependencies settle, and there is only one
such result (`Settles.unique`).
-/
import Deka.Tasks.Deadlock

namespace Deka.Tasks

open Deka.Lib

variable {tasks : TaskMap} {shell : Shell} {starts : List String}

/-! ### The results settle -/

theorem acc_of_acyclic (h : Acyclic tasks) (name : String) : Acc (Needs tasks) name := by
  have horder : IsStrictOrder String (Relation.TransGen (Needs tasks)) :=
    { irrefl := h, trans := fun _ _ _ => .trans }
  have hfinite : {name | name ∈ BTreeMap.keys tasks}.Finite := (BTreeMap.keys tasks).finite_toSet
  have hdeclared : ∀ name ∈ BTreeMap.keys tasks, Acc (Needs tasks) name := by
    intro name hname
    refine (hfinite.wellFoundedOn (r := Relation.TransGen (Needs tasks))).induction hname ?_
    intro name _ ih
    refine Acc.intro _ fun dep hdep => ?_
    by_cases hkey : dep ∈ BTreeMap.keys tasks
    · exact ih dep hkey (.single hdep)
    · -- a name that is not declared needs nothing
      refine Acc.intro _ ?_
      rintro dep' ⟨task, hget, -⟩
      exact absurd (BTreeMap.get?_isSome_iff.mp (by rw [hget]; rfl)) hkey
  by_cases hkey : name ∈ BTreeMap.keys tasks
  · exact hdeclared name hkey
  · refine Acc.intro _ ?_
    rintro dep ⟨task, hget, -⟩
    exact absurd (BTreeMap.get?_isSome_iff.mp (by rw [hget]; rfl)) hkey

theorem first_eq {before before' after after' : List String} {d d' : String}
    (h : before ++ d :: after = before' ++ d' :: after') (hd : d ∉ before') (hd' : d' ∉ before) :
    d = d' := by
  rcases List.append_eq_append_iff.mp h with ⟨mid, rfl, hmid⟩ | ⟨mid, rfl, hmid⟩
  · cases mid with
    | nil => exact (List.cons.inj hmid).1
    | cons x mid =>
      obtain ⟨rfl, -⟩ := List.cons.inj hmid
      exact absurd (by simp) hd
  · cases mid with
    | nil => exact (List.cons.inj hmid).1.symm
    | cons x mid =>
      obtain ⟨rfl, -⟩ := List.cons.inj hmid
      exact absurd (by simp) hd'

theorem Settles.unique {name : String} {r r' : Result} (h : Settles tasks shell name r)
    (h' : Settles tasks shell name r') : r = r' := by
  induction h generalizing r' with
  | unknown hget =>
    cases h' with
    | unknown => rfl
    | failed hget' => rw [hget] at hget'; cases hget'
    | ran hget' => rw [hget] at hget'; cases hget'
  | @failed name dep task before after e hget hsplit hbefore _ ihbefore ihdep =>
    cases h' with
    | unknown hget' => rw [hget] at hget'; cases hget'
    | @failed _ dep' task' before' after' e' hget' hsplit' hbefore' hdep' =>
      rw [hget] at hget'
      cases hget'
      have hsame : dep = dep' := by
        refine first_eq (hsplit.symm.trans hsplit') (fun hmem => ?_) fun hmem => ?_
        · cases ihdep (hbefore' dep hmem)
        · cases ihbefore dep' hmem hdep'
      subst hsame
      exact ihdep hdep'
    | ran hget' hall =>
      rw [hget] at hget'
      cases hget'
      have hdep : dep ∈ task.dependencies := TaskDef.mem_sorted.mp (by rw [hsplit]; simp)
      cases ihdep (hall dep hdep)
  | @ran name task hget hall ih =>
    cases h' with
    | unknown hget' => rw [hget] at hget'; cases hget'
    | @failed _ dep' task' before' after' e' hget' hsplit' _ hdep' =>
      rw [hget] at hget'
      cases hget'
      have hdep : dep' ∈ task.dependencies := TaskDef.mem_sorted.mp (by rw [hsplit']; simp)
      cases ih dep' hdep hdep'
    | ran hget' =>
      rw [hget] at hget'
      cases hget'
      rfl

theorem Ends.unique {r r' : Result} (h : Ends tasks shell starts r)
    (h' : Ends tasks shell starts r') : r = r' := by
  cases h with
  | ok hall =>
    cases h' with
    | ok => rfl
    | @failed name before after e hsplit _ hname =>
      have hmem : name ∈ starts := by rw [hsplit]; simp
      cases (hall name hmem).unique hname
  | @failed name before after e hsplit hbefore hname =>
    cases h' with
    | ok hall =>
      have hmem : name ∈ starts := by rw [hsplit]; simp
      cases (hall name hmem).unique hname
    | @failed name' before' after' e' hsplit' hbefore' hname' =>
      have hsame : name = name' := by
        refine first_eq (hsplit.symm.trans hsplit') (fun hmem => ?_) fun hmem => ?_
        · cases (hbefore' name hmem).unique hname
        · cases (hbefore name' hmem).unique hname'
      subst hsame
      exact hname.unique hname'

/-! ### What the log shows -/

/-- No thread is about to run the command a second time. -/
def State.Fresh (s : State) (name : String) : Prop :=
  ∀ (i : Nat) (t : Thread), s.threads[i]? = some t → t.name = name → t.phase.claimed = true →
    ∃ r, t.phase = .finishing r

theorem State.Fresh.setPhase {s : State} {name : String} (h : s.Fresh name) {i : Nat} {t : Thread}
    (ht : s.threads[i]? = some t) {phase : Phase} (hmove : phase.claimed = true →
      (∃ r, phase = .finishing r) ∨ t.phase.claimed = true ∧ ∀ r, t.phase ≠ .finishing r) :
    (s.setPhase i phase).Fresh name := by
  intro j u hu huname hclaimed
  rw [State.threads_setPhase, Option.map_eq_some_iff] at hu
  obtain ⟨v, hv, rfl⟩ := hu
  split at huname
  · next hij =>
    subst hij
    rw [ht] at hv
    cases hv
    rw [if_pos rfl] at hclaimed ⊢
    rcases hmove hclaimed with hr | ⟨htclaimed, hnot⟩
    · exact hr
    · obtain ⟨r, hr⟩ := h i t ht huname htclaimed
      exact absurd hr (hnot r)
  · next hij =>
    rw [if_neg hij] at hclaimed ⊢
    exact h j v hv huname hclaimed

theorem Thread.wake_of_claimed {t : Thread} (h : t.phase.claimed = true) : t.wake = t := by
  unfold Thread.wake
  split
  · next hphase =>
    rw [hphase] at h
    cases h
  · rfl

theorem State.Fresh.finish {s : State} {name : String} (h : s.Fresh name) (i : Nat)
    (name' : String) (r : Result) : (s.finish i name' r).Fresh name := by
  intro j u hu huname hclaimed
  rw [State.threads_finish, Option.map_eq_some_iff] at hu
  obtain ⟨v, hv, rfl⟩ := hu
  split at huname
  · next hij =>
    rw [if_pos hij] at hclaimed
    cases hclaimed
  · next hij =>
    rw [if_neg hij] at hclaimed ⊢
    have hv' : v.phase.claimed = true := v.claimed_wake.symm.trans hclaimed
    rw [Thread.wake_of_claimed hv'] at huname ⊢
    exact h j v hv huname hv'

theorem State.Fresh.claim {s : State} {name : String} (h : s.Fresh name) {i : Nat} {t : Thread}
    (ht : s.threads[i]? = some t) (hne : t.name ≠ name) (task : TaskDef) :
    (s.claim i t task).Fresh name := by
  intro j u hu huname hclaimed
  rw [State.threads_claim] at hu
  split at hu
  · obtain ⟨v, hv, rfl⟩ := Option.map_eq_some_iff.mp hu
    split at huname
    · next hij =>
      subst hij
      rw [ht] at hv
      cases hv
      exact absurd huname hne
    · next hij =>
      rw [if_neg hij] at hclaimed ⊢
      exact h j v hv huname hclaimed
  · obtain ⟨d, -, rfl⟩ := Option.map_eq_some_iff.mp hu
    cases hclaimed

structure Logged (tasks : TaskMap) (s : State) : Prop where
  fresh : ∀ name, .executed name ∈ s.log → s.table name ≠ none ∧ s.Fresh name
  once : ∀ name, s.log.count (.executed name) ≤ 1
  after : ∀ newer older name task, s.log = newer ++ .executed name :: older →
    tasks.get? name = some task → ∀ d ∈ task.dependencies, .recorded d (.ok ()) ∈ older
  recorded : ∀ name r, s.table name = some (.done r) ↔ .recorded name r ∈ s.log

theorem Logged.setPhase {s : State} (h : Logged tasks s) {i : Nat} {t : Thread}
    (ht : s.threads[i]? = some t) {phase : Phase} (hmove : phase.claimed = true →
      (∃ r, phase = .finishing r) ∨ t.phase.claimed = true ∧ ∀ r, t.phase ≠ .finishing r) :
    Logged tasks (s.setPhase i phase) where
  fresh := fun name hname => ⟨(h.fresh name hname).1, (h.fresh name hname).2.setPhase ht hmove⟩
  once := h.once
  after := h.after
  recorded := h.recorded

theorem Logged.claim {s : State} (h : Logged tasks s) {i : Nat} {t : Thread}
    (ht : s.threads[i]? = some t) (hnone : s.table t.name = none) (task : TaskDef) :
    Logged tasks (s.claim i t task) where
  fresh := by
    intro name hname
    obtain ⟨htable, hfresh⟩ := h.fresh name hname
    have hne : t.name ≠ name := by
      rintro rfl
      exact htable hnone
    refine ⟨?_, hfresh.claim ht hne task⟩
    show Function.update s.table t.name _ name ≠ none
    rwa [Function.update_of_ne hne.symm]
  once := h.once
  after := h.after
  recorded := by
    intro name r
    show Function.update s.table t.name _ name = _ ↔ _
    by_cases hne : name = t.name
    · rw [hne, Function.update_self]
      refine ⟨fun hr => (by cases hr), fun hr => ?_⟩
      rw [(h.recorded t.name r).mpr hr] at hnone
      cases hnone
    · rw [Function.update_of_ne hne]
      exact h.recorded name r

theorem Logged.finish {s : State} (h : Logged tasks s) {i : Nat} {name : String} {r : Result}
    (hprogress : s.table name = some .inProgress) : Logged tasks (s.finish i name r) where
  fresh := by
    intro name' hname'
    have hold : .executed name' ∈ s.log := by
      rcases List.mem_cons.mp hname' with hname' | hname'
      · cases hname'
      · exact hname'
    obtain ⟨htable, hfresh⟩ := h.fresh name' hold
    refine ⟨?_, hfresh.finish i name r⟩
    show Function.update s.table name _ name' ≠ none
    by_cases hne : name' = name
    · rw [hne, Function.update_self]
      simp
    · rwa [Function.update_of_ne hne]
  once := by
    intro name'
    show List.count _ (.recorded name r :: s.log) ≤ 1
    rw [List.count_cons_of_ne (by simp)]
    exact h.once name'
  after := by
    intro newer older name' task hlog hget d hd
    cases newer with
    | nil => cases hlog
    | cons event newer => exact h.after newer older name' task (List.cons.inj hlog).2 hget d hd
  recorded := by
    intro name' r'
    show Function.update s.table name _ name' = _ ↔ _ ∈ (.recorded name r :: s.log : List Event)
    rw [List.mem_cons]
    by_cases hne : name' = name
    · rw [hne, Function.update_self]
      refine ⟨fun hr => .inl ?_, fun hr => ?_⟩
      · cases hr
        rfl
      · rcases hr with hr | hr
        · cases hr
          rfl
        · rw [(h.recorded name r').mpr hr] at hprogress
          cases hprogress
    · rw [Function.update_of_ne hne, h.recorded name' r']
      refine ⟨.inr, fun hr => ?_⟩
      rcases hr with hr | hr
      · cases hr
        exact absurd rfl hne
      · exact hr

/-- The one step that runs a command, by the owner of the task, after its dependencies. -/
theorem Logged.execute {s : State} (h : Logged tasks s) (hinv : Inv tasks shell starts s) {i : Nat}
    {t : Thread} {task : TaskDef} (ht : s.threads[i]? = some t) (hphase : t.phase = .running)
    (hget : tasks.get? t.name = some task) (r : Result) :
    Logged tasks { s.setPhase i (.finishing r) with log := .executed t.name :: s.log } where
  fresh := by
    have hmove : (Phase.finishing r).claimed = true → (∃ r', Phase.finishing r = .finishing r') ∨
        t.phase.claimed = true ∧ ∀ r', t.phase ≠ .finishing r' := fun _ => .inl ⟨r, rfl⟩
    have hclaimed : t.phase.claimed = true := by rw [hphase]; rfl
    intro name hname
    rcases List.mem_cons.mp hname with hname | hname
    · cases hname
      refine ⟨?_, ?_⟩
      · show s.table t.name ≠ none
        rw [((hinv.fits i t ht).inside (.inl hclaimed)).2.2]
        simp
      · -- the owner is the only one
        intro j u hu huname huclaimed
        obtain ⟨v, hv, rfl⟩ :=
          Option.map_eq_some_iff.mp (State.threads_setPhase s i (.finishing r) j ▸ hu)
        split
        · exact ⟨r, rfl⟩
        · next hij =>
          rw [if_neg hij] at huname huclaimed
          exact absurd (hinv.unique i j t v ht hv hclaimed huclaimed huname.symm) hij
    · exact ⟨(h.fresh name hname).1, (h.fresh name hname).2.setPhase ht hmove⟩
  once := by
    intro name
    show List.count _ (.executed t.name :: s.log) ≤ 1
    by_cases hne : t.name = name
    · -- the command has not run before
      have hnot : .executed name ∉ s.log := by
        intro hmem
        obtain ⟨r', hr'⟩ := (h.fresh name hmem).2 i t ht hne (by rw [hphase]; rfl)
        rw [hphase] at hr'
        cases hr'
      rw [hne, List.count_cons_self, List.count_eq_zero_of_not_mem hnot]
    · rw [List.count_cons_of_ne (by simpa using hne)]
      exact h.once name
  after := by
    intro newer older name task' hlog hget' d hd
    cases newer with
    | nil =>
      obtain ⟨hname, rfl⟩ := List.cons.inj hlog
      cases hname
      rw [hget] at hget'
      cases hget'
      have hholds := (hinv.fits i t ht).holds
      rw [hphase] at hholds
      exact (h.recorded d _).mp (hholds task hget d hd)
    | cons event newer => exact h.after newer older name task' (List.cons.inj hlog).2 hget' d hd
  recorded := by
    intro name r'
    show s.table name = _ ↔ _ ∈ (.executed t.name :: s.log : List Event)
    rw [h.recorded name r', List.mem_cons]
    simp

theorem Logged.step {s s' : State} (h : Logged tasks s) (hinv : Inv tasks shell starts s)
    (hstep : Step tasks shell s s') : Logged tasks s' := by
  cases hstep with
  | leave ht _ _ => exact h.setPhase ht fun hc => by cases hc
  | wait ht _ _ _ _ => exact h.setPhase ht fun hc => by cases hc
  | claim ht _ _ _ hnone => exact h.claim ht hnone _
  | joined ht hphase _ =>
    refine h.setPhase ht fun _ => .inr ⟨by rw [hphase]; rfl, fun r hr => ?_⟩
    rw [hphase] at hr
    cases hr
  | failed ht _ _ => exact h.setPhase ht fun _ => .inl ⟨_, rfl⟩
  | ready ht hphase =>
    refine h.setPhase ht fun _ => .inr ⟨by rw [hphase]; rfl, fun r hr => ?_⟩
    rw [hphase] at hr
    cases hr
  | execute ht hphase hget => exact h.execute hinv ht hphase hget _
  | @finish i t r ht hphase =>
    exact h.finish ((hinv.fits i t ht).inside (.inl (by rw [hphase]; rfl))).2.2
  | startJoined => exact ⟨h.fresh, h.once, h.after, h.recorded⟩
  | startFailed => exact ⟨h.fresh, h.once, h.after, h.recorded⟩
  | startsJoined => exact ⟨h.fresh, h.once, h.after, h.recorded⟩

theorem Reachable.logged {s : State} (h : Reachable tasks shell starts s) : Logged tasks s := by
  induction h with
  | start =>
    refine ⟨fun _ hname => (by cases hname), fun _ => Nat.zero_le _, ?_, ?_⟩
    · intro newer older name task hlog
      cases newer <;> cases hlog
    · intro name r
      refine ⟨fun hr => (by cases hr), fun hr => (by cases hr)⟩
  | step choice hreach hadvance ih => exact ih.step hreach.inv (step_of_advance hadvance)

/-! ### What a run has come to when it ends -/

/-- Everything that is claimed was needed, and what it needs was spawned. -/
structure Covers (tasks : TaskMap) (starts : List String) (s : State) : Prop where
  roots : ∀ name ∈ starts, ∃ i stack, s.Runs name stack i
  claimed : ∀ name, s.table name ≠ none → (tasks.get? name).isSome = true ∧
    (∃ start ∈ starts, Relation.ReflTransGen (Needs tasks) name start) ∧
    ∀ dep, Needs tasks dep name → ∃ i stack, s.Runs dep stack i

theorem Spawned.reached {stack : List String} {name : String}
    (h : Spawned tasks starts stack name) :
    ∃ start ∈ starts, Relation.ReflTransGen (Needs tasks) name start := by
  induction h with
  | @start name hstart => exact ⟨name, hstart, .refl⟩
  | dep _ _ hget hdep ih =>
    obtain ⟨start, hstart, hreach⟩ := ih
    exact ⟨start, hstart, .head ⟨_, hget, hdep⟩ hreach⟩

/-- Steps that claim nothing. -/
theorem Covers.keeps {s s' : State} (h : Covers tasks starts s) (hkeep : Keeps s s')
    (htable : ∀ name, s'.table name ≠ none → s.table name ≠ none) : Covers tasks starts s' where
  roots := by
    intro name hname
    obtain ⟨i, stack, hruns⟩ := h.roots name hname
    exact ⟨i, stack, hkeep.threads _ _ _ hruns⟩
  claimed := by
    intro name hname
    obtain ⟨hdeclared, hreach, hdeps⟩ := h.claimed name (htable name hname)
    refine ⟨hdeclared, hreach, fun dep hdep => ?_⟩
    obtain ⟨i, stack, hruns⟩ := hdeps dep hdep
    exact ⟨i, stack, hkeep.threads _ _ _ hruns⟩

theorem Covers.claim {s : State} (h : Covers tasks starts s) (hinv : Inv tasks shell starts s)
    {i : Nat} {t : Thread} {task : TaskDef} (ht : s.threads[i]? = some t)
    (hget : tasks.get? t.name = some task) (hnone : s.table t.name = none) :
    Covers tasks starts (s.claim i t task) where
  roots := by
    intro name hname
    obtain ⟨k, stack, hruns⟩ := h.roots name hname
    exact ⟨k, stack, (keeps_claim i task hnone).threads _ _ _ hruns⟩
  claimed := by
    intro name hname
    by_cases hne : name = t.name
    · subst hne
      refine ⟨by rw [hget]; rfl, (hinv.fits i t ht).spawned.reached, ?_⟩
      -- its dependencies are the threads spawned here
      rintro dep ⟨task', hget', hdep⟩
      rw [hget] at hget'
      cases hget'
      obtain ⟨k, hk⟩ := List.getElem?_of_mem (TaskDef.mem_sorted.mpr hdep)
      refine ⟨s.threads.length + k, t.stack ++ [t.name], ⟨dep, t.stack ++ [t.name], .entering⟩, ?_,
        rfl, rfl⟩
      rw [State.threads_claim, if_neg (by omega), Nat.add_sub_cancel_left, hk]
      rfl
    · have htable : s.table name ≠ none := by
        have : Function.update s.table t.name (some .inProgress) name ≠ none := hname
        rwa [Function.update_of_ne hne] at this
      obtain ⟨hdeclared, hreach, hdeps⟩ := h.claimed name htable
      refine ⟨hdeclared, hreach, fun dep hdep => ?_⟩
      obtain ⟨k, stack, hruns⟩ := hdeps dep hdep
      exact ⟨k, stack, (keeps_claim i task hnone).threads _ _ _ hruns⟩

theorem Covers.step {s s' : State} (h : Covers tasks starts s) (hinv : Inv tasks shell starts s)
    (hstep : Step tasks shell s s') : Covers tasks starts s' := by
  cases hstep with
  | leave => exact h.keeps (keeps_setPhase s _ _) fun _ => id
  | wait => exact h.keeps (keeps_setPhase s _ _) fun _ => id
  | claim ht _ _ hget hnone => exact h.claim hinv ht hget hnone
  | joined => exact h.keeps (keeps_setPhase s _ _) fun _ => id
  | failed => exact h.keeps (keeps_setPhase s _ _) fun _ => id
  | ready => exact h.keeps (keeps_setPhase s _ _) fun _ => id
  | @execute i t task =>
    have hkeep := h.keeps (keeps_setPhase s i (.finishing (runTask shell t.name task))) fun _ => id
    exact ⟨hkeep.roots, hkeep.claimed⟩
  | @finish i t r ht hphase =>
    have hprogress := ((hinv.fits i t ht).inside (.inl (by rw [hphase]; rfl))).2.2
    refine h.keeps (keeps_finish i r hprogress) fun name hname => ?_
    by_cases hne : name = t.name
    · rw [hne, hprogress]
      simp
    · have : Function.update s.table t.name (some (.done r)) name ≠ none := hname
      rwa [Function.update_of_ne hne] at this
  | startJoined => exact ⟨h.roots, h.claimed⟩
  | startFailed => exact ⟨h.roots, h.claimed⟩
  | startsJoined => exact ⟨h.roots, h.claimed⟩

theorem Reachable.covers {s : State} (h : Reachable tasks shell starts s) :
    Covers tasks starts s := by
  induction h with
  | start =>
    refine ⟨fun name hname => ?_, fun name hname => absurd rfl hname⟩
    obtain ⟨i, hi⟩ := List.getElem?_of_mem hname
    refine ⟨i, [], ⟨name, [], .entering⟩, ?_, rfl, rfl⟩
    show (starts.map _)[i]? = _
    rw [List.getElem?_map, hi]
    rfl
  | step choice hreach hadvance ih => exact ih.step hreach.inv (step_of_advance hadvance)

/-- Where all threads are through, the table holds the results of the tasks that were needed. -/
theorem Reachable.table_eq {s : State} (h : Reachable tasks shell starts s)
    (hacyclic : Acyclic tasks) (hthrough : ∀ t ∈ s.threads, t.through) (name : String)
    (r : Result) : s.table name = some (.done r) ↔ (tasks.get? name).isSome = true ∧
      (∃ start ∈ starts, Relation.ReflTransGen (Needs tasks) name start) ∧
      Settles tasks shell name r := by
  have hinv := h.inv
  -- a declared name with a thread is done
  have hdone : ∀ dep i stack, s.Runs dep stack i → (tasks.get? dep).isSome = true →
      ∃ r', s.table dep = some (.done r') := by
    rintro dep i stack ⟨t, ht, rfl, -⟩ hdeclared
    obtain ⟨r', hr'⟩ := hthrough t (List.mem_of_getElem? ht)
    have hholds := (hinv.fits i t ht).holds
    rw [hr'] at hholds
    exact ⟨r', hholds.2 (.inr (acc_of_acyclic hacyclic t.name)) hdeclared⟩
  refine ⟨fun hr => ?_, ?_⟩
  · obtain ⟨hdeclared, hreach, -⟩ := h.covers.claimed name (by rw [hr]; simp)
    exact ⟨hdeclared, hreach, hinv.sound name r hr (.inr (acc_of_acyclic hacyclic name))⟩
  · rintro ⟨hdeclared, ⟨start, hstart, hreach⟩, hsettles⟩
    have hruns : ∃ i stack, s.Runs name stack i := by
      clear hsettles hdeclared
      induction hreach using Relation.ReflTransGen.head_induction_on with
      | refl => exact h.covers.roots start hstart
      | @head dep parent hneeds _ ih =>
        obtain ⟨i, stack, hruns⟩ := ih
        obtain ⟨task, hget, -⟩ := id hneeds
        obtain ⟨r', hr'⟩ := hdone parent i stack hruns (by rw [hget]; rfl)
        exact (h.covers.claimed parent (by rw [hr']; simp)).2.2 dep hneeds
    obtain ⟨i, stack, hruns⟩ := hruns
    obtain ⟨r', hr'⟩ := hdone name i stack hruns hdeclared
    have hsettles' := hinv.sound name r' hr' (.inr (acc_of_acyclic hacyclic name))
    rw [hr', hsettles.unique hsettles']

/-- The table at the end does not depend on the schedule. -/
theorem Reachable.table_unique {s s' : State} (h : Reachable tasks shell starts s)
    (h' : Reachable tasks shell starts s') (hacyclic : Acyclic tasks)
    (hthrough : ∀ t ∈ s.threads, t.through) (hthrough' : ∀ t ∈ s'.threads, t.through) :
    s.table = s'.table := by
  have hnot : ∀ {s : State}, Reachable tasks shell starts s → (∀ t ∈ s.threads, t.through) →
      ∀ name, s.table name ≠ some .inProgress := by
    intro s h hthrough name hname
    obtain ⟨i, t, ht, -, hclaimed⟩ := h.inv.owned name hname
    obtain ⟨r, hr⟩ := hthrough t (List.mem_of_getElem? ht)
    rw [hr] at hclaimed
    cases hclaimed
  have hsame : ∀ name r, s.table name = some (.done r) ↔ s'.table name = some (.done r) := by
    intro name r
    rw [h.table_eq hacyclic hthrough, h'.table_eq hacyclic hthrough']
  funext name
  cases hs : s.table name with
  | none =>
    cases hs' : s'.table name with
    | none => rfl
    | some state =>
      cases state with
      | inProgress => exact absurd hs' (hnot h' hthrough' name)
      | done r =>
        rw [(hsame name r).mpr hs'] at hs
        cases hs
  | some state =>
    cases state with
    | inProgress => exact absurd hs (hnot h hthrough name)
    | done r => exact ((hsame name r).mp hs).symm

/-- Commands run once and in order, and the results are those of the first failing dependency,
whichever threads take the steps. -/
theorem tasks_run_once_in_order (tasks : TaskMap) (shell : Shell) (starts : List String)
    (hacyclic : Acyclic tasks) :
    (∀ s, Reachable tasks shell starts s →
      (∀ name, s.log.count (.executed name) ≤ 1) ∧
      (∀ newer older name task, s.log = newer ++ .executed name :: older →
        tasks.get? name = some task → ∀ d ∈ task.dependencies,
          .recorded d (.ok ()) ∈ older ∧ ∀ e, .recorded d (.error e) ∉ s.log) ∧
      (∀ name r, s.table name = some (.done r) → Settles tasks shell name r) ∧
      ∀ r, s.returned = some r → Ends tasks shell starts r) ∧
    (∀ name r r', Settles tasks shell name r → Settles tasks shell name r' → r = r') ∧
    (∀ r r', Ends tasks shell starts r → Ends tasks shell starts r' → r = r') ∧
    ∀ s s', Reachable tasks shell starts s → Reachable tasks shell starts s' →
      (∀ choice, advance tasks shell s choice = none) →
      (∀ choice, advance tasks shell s' choice = none) →
        s.table = s'.table ∧ s.returned = s'.returned ∧ s.returned ≠ none := by
  have hacc : ∀ name, Acc (Needs tasks) name := acc_of_acyclic hacyclic
  refine ⟨fun s hs => ⟨hs.logged.once, ?_, fun name r hr => hs.inv.sound name r hr (.inr (hacc name)),
    fun r hr => hs.inv.ends r hr (.inr fun name _ => hacc name)⟩, fun _ _ _ => Settles.unique,
    fun _ _ => Ends.unique, ?_⟩
  · intro newer older name task hlog hget d hd
    have hrecorded := hs.logged.after newer older name task hlog hget d hd
    refine ⟨hrecorded, fun e he => ?_⟩
    have hmem : .recorded d (.ok ()) ∈ s.log := by rw [hlog]; simp [hrecorded]
    have hok := (hs.logged.recorded d _).mpr hmem
    rw [(hs.logged.recorded d _).mpr he] at hok
    cases hok
  · intro s s' hs hs' hstuck hstuck'
    have hends := (runner_never_deadlocks tasks shell starts (safe_of_acyclic hacyclic)).2.2
    obtain ⟨hthrough, r, hr, -⟩ := hends s hs hstuck
    obtain ⟨hthrough', r', hr', -⟩ := hends s' hs' hstuck'
    refine ⟨hs.table_unique hs' hacyclic hthrough hthrough', ?_, by rw [hr]; simp⟩
    rw [hr, hr', (hs.inv.ends r hr (.inr fun name _ => hacc name)).unique
      (hs'.inv.ends r' hr' (.inr fun name _ => hacc name))]

theorem testTasks_run_once :
    ¬ ∃ s, Reachable testTasks (fun _ _ => .ok 0) ["test"] s ∧
      1 < s.log.count (.executed "build") := by
  rintro ⟨s, hs, htwice⟩
  have honce := (tasks_run_once_in_order testTasks (fun _ _ => .ok 0) ["test"]
    acyclic_testTasks).1 s hs
  exact absurd (honce.1 "build") (Nat.not_le.mpr htwice)

end Deka.Tasks
