/-
Deka/Tasks/Invariant.lean

Every step of the task runner keeps the invariant.

Most steps move one thread to another phase (`Inv.setPhase`).  A claim makes an owner, and
`finish` takes the only owner away.
-/
import Deka.Tasks.Threads

namespace Deka.Tasks

open Deka.Lib

variable {tasks : TaskMap} {shell : Shell} {starts : List String}

/-! ### Steps that move one thread -/

theorem Inv.setPhase {s : State} (h : Inv tasks shell starts s) {i : Nat} {t : Thread}
    (ht : s.threads[i]? = some t) {phase : Phase} (hclaimed : phase.claimed = t.phase.claimed)
    (hinside : phase.isWaiting = true →
      t.name ∉ t.stack ∧ (tasks.get? t.name).isSome = true ∧ s.table t.name = some .inProgress)
    (hholds : phase.Holds tasks shell s t.name t.stack) :
    Inv tasks shell starts (s.setPhase i phase) := by
  have hkeep := keeps_setPhase s i phase
  -- a thread of the new state is an old one with the same name, stack and claim
  have hback : ∀ (j : Nat) (u : Thread), (s.setPhase i phase).threads[j]? = some u →
      ∃ v, s.threads[j]? = some v ∧ v.name = u.name ∧ v.phase.claimed = u.phase.claimed := by
    intro j u hu
    rw [State.threads_setPhase, Option.map_eq_some_iff] at hu
    obtain ⟨v, hv, rfl⟩ := hu
    refine ⟨v, hv, ?_⟩
    split
    · next hij =>
      subst hij
      rw [ht] at hv
      cases hv
      exact ⟨rfl, hclaimed.symm⟩
    · exact ⟨rfl, rfl⟩
  refine ⟨?_, ?_, ?_, h.sound, fun hr => hkeep.joins (h.joins hr), h.ends⟩
  · intro j u hu
    rw [State.threads_setPhase, Option.map_eq_some_iff] at hu
    obtain ⟨v, hv, rfl⟩ := hu
    have hfits := h.fits j v hv
    split
    · next hij =>
      subst hij
      rw [ht] at hv
      cases hv
      refine ⟨hfits.spawned, ?_, hkeep.holds hholds⟩
      rintro (hin | hin)
      · exact hfits.inside (.inl (hclaimed.symm.trans hin))
      · exact hinside hin
    · exact hfits.keeps hkeep fun hin => (hfits.inside hin).2.2
  · intro name hname
    obtain ⟨j, u, hu, huname, huclaimed⟩ := h.owned name hname
    refine ⟨j, if i = j then { u with phase } else u, ?_, ?_, ?_⟩
    · rw [State.threads_setPhase, hu]
      rfl
    · split <;> exact huname
    · split
      · next hij =>
        subst hij
        rw [ht] at hu
        cases hu
        exact hclaimed.trans huclaimed
      · exact huclaimed
  · intro j k u v hu hv hcu hcv hname
    obtain ⟨u', hu', hun, huc⟩ := hback j u hu
    obtain ⟨v', hv', hvn, hvc⟩ := hback k v hv
    exact h.unique j k u' v' hu' hv' (huc.trans hcu) (hvc.trans hcv) (by rw [hun, hvn, hname])

/-- Steps that leave the threads and the table alone. -/
theorem Inv.frame {s s' : State} (h : Inv tasks shell starts s) (hthreads : s'.threads = s.threads)
    (htable : s'.table = s.table) (hjoins : s'.returned = none → s'.Joins starts [] s'.handles)
    (hends : ∀ r, s'.returned = some r →
      (r = .ok () ∨ ∀ name ∈ starts, Acc (Needs tasks) name) → Ends tasks shell starts r) :
    Inv tasks shell starts s' := by
  have hkeep : Keeps s s' := by
    refine ⟨?_, ?_⟩
    · rintro i name stack ⟨u, hu, hname⟩
      exact ⟨u, hthreads ▸ hu, hname⟩
    · intro name r hr
      rw [htable, hr]
  refine ⟨?_, ?_, ?_, ?_, hjoins, hends⟩
  · intro i t ht
    rw [hthreads] at ht
    refine (h.fits i t ht).keeps hkeep fun hin => ?_
    rw [htable]
    exact ((h.fits i t ht).inside hin).2.2
  · rw [hthreads, htable]
    exact h.owned
  · rw [hthreads]
    exact h.unique
  · rw [htable]
    exact h.sound

/-! ### Claim and finish -/

theorem Inv.claim {s : State} (h : Inv tasks shell starts s) {i : Nat} {t : Thread}
    (ht : s.threads[i]? = some t) (hstack : t.name ∉ t.stack) {task : TaskDef}
    (hget : tasks.get? t.name = some task) (hnone : s.table t.name = none) :
    Inv tasks shell starts (s.claim i t task) := by
  have hkeep := keeps_claim i task hnone
  have hlt : i < s.threads.length := (List.getElem?_eq_some_iff.mp ht).1
  have hself : (s.claim i t task).table t.name = some .inProgress := Function.update_self ..
  have hother : ∀ name, name ≠ t.name → (s.claim i t task).table name = s.table name :=
    fun name hne => Function.update_of_ne hne ..
  have hprogress : ∀ name, s.table name = some .inProgress →
      (s.claim i t task).table name = some .inProgress := by
    intro name hname
    rw [hother name (by rintro rfl; rw [hnone] at hname; cases hname), hname]
  -- nobody owned the task before
  have hfree : ∀ (j : Nat) (u : Thread), s.threads[j]? = some u → u.phase.claimed = true →
      u.name ≠ t.name := by
    intro j u hu hc hname
    have := ((h.fits j u hu).inside (.inl hc)).2.2
    rw [hname, hnone] at this
    cases this
  -- a thread that owns a task now is the claimer, or owned it before
  have hback : ∀ (j : Nat) (u : Thread), (s.claim i t task).threads[j]? = some u →
      u.phase.claimed = true → j = i ∧ u.name = t.name ∨ s.threads[j]? = some u := by
    intro j u hu hc
    rw [State.threads_claim] at hu
    split at hu
    · obtain ⟨v, hv, rfl⟩ := Option.map_eq_some_iff.mp hu
      split
      · next hij =>
        subst hij
        rw [ht] at hv
        cases hv
        exact .inl ⟨rfl, rfl⟩
      · exact .inr hv
    · obtain ⟨d, hd, rfl⟩ := Option.map_eq_some_iff.mp hu
      cases hc
  refine ⟨?_, ?_, ?_, ?_, fun hr => hkeep.joins (h.joins hr), h.ends⟩
  · intro j u hu
    rw [State.threads_claim] at hu
    split at hu
    · obtain ⟨v, hv, rfl⟩ := Option.map_eq_some_iff.mp hu
      have hfits := h.fits j v hv
      split
      · next hij =>
        subst hij
        rw [ht] at hv
        cases hv
        refine ⟨hfits.spawned, fun _ => ⟨hstack, by rw [hget]; rfl, hself⟩, ?_⟩
        -- the handles are those of the threads spawned here
        intro task' htask'
        rw [hget] at htask'
        cases htask'
        refine ⟨[], task.sorted, rfl, by simp, ?_⟩
        rw [List.forall₂_iff_get]
        refine ⟨by simp, ?_⟩
        intro k hk hk'
        refine ⟨⟨task.sorted.get ⟨k, hk'⟩, t.stack ++ [t.name], .entering⟩, ?_, rfl, rfl⟩
        rw [State.threads_claim]
        simp
      · exact hfits.keeps hkeep fun hin => hprogress _ (hfits.inside hin).2.2
    · obtain ⟨d, hd, rfl⟩ := Option.map_eq_some_iff.mp hu
      refine ⟨.dep (h.fits i t ht).spawned hstack hget ?_, ?_, trivial⟩
      · exact TaskDef.mem_sorted.mp (List.mem_of_getElem? hd)
      · rintro (hin | hin) <;> cases hin
  · intro name hname
    by_cases hne : name = t.name
    · subst hne
      refine ⟨i, ⟨t.name, t.stack, .joining (List.range' s.threads.length task.sorted.length)⟩,
        ?_, rfl, rfl⟩
      rw [State.threads_claim, if_pos hlt, ht]
      simp
    · rw [hother name hne] at hname
      obtain ⟨j, u, hu, huname, hc⟩ := h.owned name hname
      refine ⟨j, u, ?_, huname, hc⟩
      have hij : i ≠ j := by
        rintro rfl
        rw [ht] at hu
        cases hu
        exact hne huname.symm
      rw [State.threads_claim, if_pos (List.getElem?_eq_some_iff.mp hu).1, hu]
      simp [hij]
  · intro j k u v hu hv hcu hcv hname
    rcases hback j u hu hcu with ⟨rfl, hun⟩ | hu'
    · rcases hback k v hv hcv with ⟨rfl, -⟩ | hv'
      · rfl
      · exact absurd (hname.symm.trans hun) (hfree k v hv' hcv)
    · rcases hback k v hv hcv with ⟨rfl, hvn⟩ | hv'
      · exact absurd (hname.trans hvn) (hfree j u hu' hcu)
      · exact h.unique j k u v hu' hv' hcu hcv hname
  · intro name r hr
    by_cases hne : name = t.name
    · rw [hne, hself] at hr
      cases hr
    · rw [hother name hne] at hr
      exact h.sound name r hr

theorem Thread.claimed_wake (t : Thread) : t.wake.phase.claimed = t.phase.claimed := by
  unfold Thread.wake
  split
  · next h => rw [h]; rfl
  · rfl

theorem Thread.isWaiting_wake (t : Thread) : t.wake.phase.isWaiting = false := by
  unfold Thread.wake
  split
  · rfl
  · next h =>
    cases hp : t.phase <;> first | rfl | exact absurd hp h

theorem Fits.wake {s : State} {t : Thread} (h : Fits tasks shell starts s t) :
    Fits tasks shell starts s t.wake := by
  unfold Thread.wake
  split
  · refine ⟨h.spawned, ?_, trivial⟩
    rintro (hin | hin) <;> cases hin
  · exact h

theorem Inv.finish {s : State} (h : Inv tasks shell starts s) {i : Nat} {t : Thread} {r : Result}
    (ht : s.threads[i]? = some t) (hphase : t.phase = .finishing r) :
    Inv tasks shell starts (s.finish i t.name r) := by
  have hfits := h.fits i t ht
  have hclaimed : t.phase.claimed = true := by rw [hphase]; rfl
  have hcomes : Comes tasks shell t.name r := by
    have := hfits.holds
    rwa [hphase] at this
  have hkeep := keeps_finish i r (hfits.inside (.inl hclaimed)).2.2
  have hself : (s.finish i t.name r).table t.name = some (.done r) := Function.update_self ..
  have hother : ∀ name, name ≠ t.name → (s.finish i t.name r).table name = s.table name :=
    fun name hne => Function.update_of_ne hne ..
  -- the finished thread was the only owner
  have hback : ∀ (j : Nat) (u : Thread), (s.finish i t.name r).threads[j]? = some u →
      u.phase.claimed = true →
      ∃ v, s.threads[j]? = some v ∧ v.name = u.name ∧ v.phase.claimed = true ∧ j ≠ i := by
    intro j u hu hc
    rw [State.threads_finish, Option.map_eq_some_iff] at hu
    obtain ⟨v, hv, rfl⟩ := hu
    by_cases hij : i = j
    · rw [if_pos hij] at hc
      cases hc
    · rw [if_neg hij] at hc ⊢
      exact ⟨v, hv, v.name_wake.symm, v.claimed_wake.symm.trans hc, Ne.symm hij⟩
  refine ⟨?_, ?_, ?_, ?_, fun hr => hkeep.joins (h.joins hr), h.ends⟩
  · intro j u hu
    rw [State.threads_finish, Option.map_eq_some_iff] at hu
    obtain ⟨v, hv, rfl⟩ := hu
    split
    · next hij =>
      subst hij
      rw [ht] at hv
      cases hv
      refine ⟨?_, ?_, ?_⟩
      · show Spawned tasks starts t.wake.stack t.wake.name
        rw [t.stack_wake, t.name_wake]
        exact hfits.spawned
      · rintro (hin | hin) <;> cases hin
      · show Comes tasks shell t.wake.name r ∧ _
        rw [t.name_wake]
        exact ⟨hcomes, fun _ _ => hself⟩
    · next hij =>
      have hv' := (h.fits j v hv).wake
      refine hv'.keeps hkeep fun hin => ?_
      have hc : v.phase.claimed = true := by
        rcases hin with hin | hin
        · exact v.claimed_wake.symm.trans hin
        · rw [v.isWaiting_wake] at hin
          cases hin
      have hne : v.name ≠ t.name := fun hname =>
        hij (h.unique i j t v ht hv hclaimed hc hname.symm)
      rw [v.name_wake, hother _ hne]
      exact ((h.fits j v hv).inside (.inl hc)).2.2
  · intro name hname
    have hne : name ≠ t.name := by
      rintro rfl
      rw [hself] at hname
      cases hname
    rw [hother name hne] at hname
    obtain ⟨j, u, hu, huname, hc⟩ := h.owned name hname
    have hij : i ≠ j := by
      rintro rfl
      rw [ht] at hu
      cases hu
      exact hne huname.symm
    refine ⟨j, u.wake, ?_, u.name_wake.trans huname, u.claimed_wake.trans hc⟩
    rw [State.threads_finish, hu]
    simp [hij]
  · intro j k u v hu hv hcu hcv hname
    obtain ⟨u', hu', hun, hcu', -⟩ := hback j u hu hcu
    obtain ⟨v', hv', hvn, hcv', -⟩ := hback k v hv hcv
    exact h.unique j k u' v' hu' hv' hcu' hcv' (by rw [hun, hvn, hname])
  · intro name r' hr
    by_cases hne : name = t.name
    · rw [hne, hself] at hr
      cases hr
      rw [hne]
      exact hcomes
    · rw [hother name hne] at hr
      exact h.sound name r' hr

/-! ### Every reachable state -/

/-- What a joined thread has found. -/
theorem Inv.result {s : State} (h : Inv tasks shell starts s) {name : String}
    {stack : List String} {k : Nat} (hruns : s.Runs name stack k) {r : Result}
    (hres : s.result? k = some r) : Comes tasks shell name r ∧ (r = .ok () → s.Ok name) := by
  obtain ⟨u, hu, rfl, rfl⟩ := hruns
  have hphase : u.phase = .finished r := by
    rw [State.result?, hu] at hres
    simp only [Option.bind_some] at hres
    split at hres
    · next hphase =>
      cases hres
      exact hphase
    · cases hres
  have hholds := (h.fits k u hu).holds
  rw [hphase] at hholds
  refine ⟨hholds.1, ?_⟩
  rintro rfl
  have hsettles := hholds.1 (.inl rfl)
  refine hholds.2 (.inl rfl) ?_
  generalize hr : (Except.ok () : Result) = r at hsettles
  cases hsettles with
  | unknown => cases hr
  | failed => cases hr
  | ran hget => rw [hget]; rfl

/-- The next of the names comes out well. -/
theorem Inv.joins_cons {s : State} (h : Inv tasks shell starts s) {names stack : List String}
    {k : Nat} {handles : List Nat} (hj : s.Joins names stack (k :: handles))
    (hres : s.result? k = some (.ok ())) : s.Joins names stack handles := by
  obtain ⟨before, rest, hsplit, hbefore, hrest⟩ := hj
  cases hrest with
  | @cons _ d _ rest hruns hrest =>
    refine ⟨before ++ [d], rest, by rw [hsplit, List.append_assoc]; rfl, ?_, hrest⟩
    intro d' hd'
    rcases List.mem_append.mp hd' with hd' | hd'
    · exact hbefore d' hd'
    · rw [List.mem_singleton.mp hd']
      exact (h.result hruns hres).2 rfl

/-- The next of the names fails, after those before came out well. -/
theorem Inv.joins_failed {s : State} (h : Inv tasks shell starts s) {names stack : List String}
    {k : Nat} {handles : List Nat} (hj : s.Joins names stack (k :: handles)) {e : TaskError}
    (hres : s.result? k = some (.error e)) :
    ∃ before d after, names = before ++ d :: after ∧
      (∀ n ∈ before, Settles tasks shell n (.ok ())) ∧ Comes tasks shell d (.error e) := by
  obtain ⟨before, rest, hsplit, hbefore, hrest⟩ := hj
  cases hrest with
  | @cons _ d _ rest hruns hrest =>
    exact ⟨before, d, rest, hsplit, fun n hn => h.settles (hbefore n hn),
      (h.result hruns hres).1⟩

/-- All the names came out well. -/
theorem State.Joins.all {s : State} {names stack : List String} (hj : s.Joins names stack []) :
    ∀ n ∈ names, s.Ok n := by
  obtain ⟨before, rest, hsplit, hbefore, hrest⟩ := hj
  cases hrest
  rw [hsplit, List.append_nil]
  exact hbefore

/-- Nothing that is accessible lies on a cycle. -/
theorem not_transGen_self {name : String} (h : Acc (Needs tasks) name) :
    ¬ Relation.TransGen (Needs tasks) name name := by
  have hacc := h.transGen
  induction hacc with
  | intro x _ ih => exact fun hx => ih x hx (h.inv_of_transGen hx) hx

theorem Spawned.needs {stack : List String} {name : String}
    (h : Spawned tasks starts stack name) :
    ∀ x ∈ stack, Relation.TransGen (Needs tasks) name x := by
  induction h with
  | start => simp
  | dep _ _ hget hdep ih =>
    intro x hx
    rcases List.mem_append.mp hx with hx | hx
    · exact .head ⟨_, hget, hdep⟩ (ih x hx)
    · rw [List.mem_singleton.mp hx]
      exact .single ⟨_, hget, hdep⟩

theorem Inv.leave {s : State} (h : Inv tasks shell starts s) {i : Nat} {t : Thread} {r : Result}
    (ht : s.threads[i]? = some t) (hleave : Leaves tasks s t r) :
    Phase.Holds tasks shell s t.name t.stack (.finished r) := by
  cases hleave with
  | cycle hmem =>
    have hloop := (h.fits i t ht).spawned.needs _ hmem
    have hnot : ¬ Acc (Needs tasks) t.name := fun hacc => not_transGen_self hacc hloop
    refine ⟨?_, ?_⟩
    · rintro (hr | hacc)
      · cases hr
      · exact absurd hacc hnot
    · rintro (hr | hacc)
      · cases hr
      · exact absurd hacc hnot
  | unknown hget =>
    refine ⟨fun _ => .unknown hget, fun _ hsome => ?_⟩
    rw [hget] at hsome
    cases hsome
  | done _ htable => exact ⟨h.sound _ _ htable, fun _ _ => htable⟩

theorem Inv.step {s s' : State} (h : Inv tasks shell starts s) (hstep : Step tasks shell s s') :
    Inv tasks shell starts s' := by
  cases hstep with
  | @leave i t r ht hphase hleave =>
    exact h.setPhase ht (by rw [hphase]; rfl) (fun hw => by cases hw) (h.leave ht hleave)
  | wait ht hphase hstack hget htable =>
    exact h.setPhase ht (by rw [hphase]; rfl) (fun _ => ⟨hstack, by rw [hget]; rfl, htable⟩) trivial
  | claim ht hphase hstack hget hnone => exact h.claim ht hstack hget hnone
  | @joined i k t handles ht hphase hres =>
    refine h.setPhase ht (by rw [hphase]; rfl) (fun hw => by cases hw) fun task htask => ?_
    have hholds := (h.fits i t ht).holds
    rw [hphase] at hholds
    exact h.joins_cons (hholds task htask) hres
  | @failed i k t handles e ht hphase hres =>
    refine h.setPhase ht (by rw [hphase]; rfl) (fun hw => by cases hw) ?_
    have hfits := h.fits i t ht
    have hholds := hfits.holds
    rw [hphase] at hholds
    obtain ⟨task, htask⟩ :=
      Option.isSome_iff_exists.mp (hfits.inside (.inl (by rw [hphase]; rfl))).2.1
    obtain ⟨before, d, after, hsplit, hbefore, hcomes⟩ := h.joins_failed (hholds task htask) hres
    rintro (hr | hacc)
    · cases hr
    · refine .failed htask hsplit hbefore (hcomes (.inr (hacc.inv ⟨task, htask, ?_⟩)))
      rw [← TaskDef.mem_sorted, hsplit]
      simp
  | @ready i t ht hphase =>
    refine h.setPhase ht (by rw [hphase]; rfl) (fun hw => by cases hw) ?_
    have hholds := (h.fits i t ht).holds
    rw [hphase] at hholds
    intro task htask d hd
    exact (hholds task htask).all d (TaskDef.mem_sorted.mpr hd)
  | @execute i t task ht hphase hget =>
    have hholds := (h.fits i t ht).holds
    rw [hphase] at hholds
    have hnext : Inv tasks shell starts
        (s.setPhase i (.finishing (runTask shell t.name task))) := by
      refine h.setPhase ht (by rw [hphase]; rfl) (fun hw => by cases hw) fun _ => ?_
      exact .ran hget fun d hd => h.settles (hholds task hget d hd)
    exact hnext.frame rfl rfl hnext.joins hnext.ends
  | finish ht hphase => exact h.finish ht hphase
  | startJoined hreturned hhandles hres =>
    refine h.frame rfl rfl (fun _ => ?_) h.ends
    exact h.joins_cons (hhandles ▸ h.joins hreturned) hres
  | startFailed hreturned hhandles hres =>
    refine h.frame rfl rfl (fun hr => by cases hr) ?_
    rintro r hr hacc
    cases hr
    obtain ⟨before, d, after, hsplit, hbefore, hcomes⟩ :=
      h.joins_failed (hhandles ▸ h.joins hreturned) hres
    refine .failed hsplit hbefore (hcomes (.inr ?_))
    rcases hacc with hr | hacc
    · cases hr
    · exact hacc d (by rw [hsplit]; simp)
  | startsJoined hreturned hhandles =>
    refine h.frame rfl rfl (fun hr => by cases hr) ?_
    rintro r hr -
    cases hr
    have hj := h.joins hreturned
    rw [hhandles] at hj
    exact .ok fun n hn => h.settles (hj.all n hn)

theorem Inv.start (tasks : TaskMap) (shell : Shell) (starts : List String) :
    Inv tasks shell starts (.start starts) where
  fits := by
    intro i t ht
    obtain ⟨name, hname, rfl⟩ := Option.map_eq_some_iff.mp (List.getElem?_map ▸ ht)
    refine ⟨.start (List.mem_of_getElem? hname), ?_, trivial⟩
    rintro (hin | hin) <;> cases hin
  owned := fun _ hname => by cases hname
  unique := by
    intro i j t u ht _ hc
    obtain ⟨name, -, rfl⟩ := Option.map_eq_some_iff.mp (List.getElem?_map ▸ ht)
    cases hc
  sound := fun _ _ hr => by cases hr
  joins := by
    intro _
    refine ⟨[], starts, rfl, by simp, ?_⟩
    rw [List.forall₂_iff_get]
    refine ⟨by simp [State.start], ?_⟩
    intro k hk hk'
    refine ⟨⟨starts.get ⟨k, hk'⟩, [], .entering⟩, ?_, rfl, rfl⟩
    simp [State.start]
  ends := fun _ hr => by cases hr

theorem Reachable.inv {s : State} (h : Reachable tasks shell starts s) :
    Inv tasks shell starts s := by
  induction h with
  | start => exact .start tasks shell starts
  | step choice _ hadvance ih => exact ih.step (step_of_advance hadvance)

end Deka.Tasks
