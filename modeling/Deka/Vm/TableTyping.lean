/-
Deka/Vm/TableTyping.lean

The task table: tasks are taken out of it, put back, cancelled and settled.

While a task runs it is out of the table, and `running` stands in for its entry;
every change of the table keeps the account of the trace balanced.
-/
import Deka.Vm.VmRules

namespace Deka.Vm

open Deka.Lib

set_option linter.dupNamespace false

variable {F σ : Type} {p : Program F} {hosts : Hosts F σ} {running : Option (Nat × Handle)}

/-! ### Fewer tasks -/

/-- A machine with fewer tasks. -/
theorem Vm.Sound.restrict {vm : Vm F σ} {frames : List Frame} (h : vm.Sound p hosts frames)
    {tasks : BTreeMap Nat Task} (hsub : tasks.Sublist vm.tasks) :
    ({ vm with tasks } : Vm F σ).Sound p hosts frames :=
  { h with
    refs := by
      rintro r (hr | ⟨e, he, hr⟩)
      · exact h.refs r (Or.inl hr)
      · exact h.refs r (Or.inr ⟨e, hsub.subset he, hr⟩)
    tasks := fun e he => h.tasks e (hsub.subset he)
    ids := h.ids.sublist (hsub.map Prod.fst)
    next := fun id hid => h.next id ((hsub.map Prod.fst).subset hid)
    promises := h.promises.sublist (hsub.map fun e : Nat × Task => e.2.promise) }

/-- Only the entry of a task has its identifier. -/
theorem Vm.Sound.task_eq {vm : Vm F σ} {frames : List Frame} (h : vm.Sound p hosts frames)
    {id : Nat} {task task' : Task} (hmem : (id, task) ∈ vm.tasks)
    (hmem' : (id, task') ∈ vm.tasks) : task = task' := by
  have h₁ := BTreeMap.get?_of_mem h.ids hmem
  rw [BTreeMap.get?_of_mem h.ids hmem'] at h₁
  exact (Option.some.inj h₁).symm

/-- The promise of a task is its own. -/
theorem Vm.Sound.promise_erase {vm : Vm F σ} {frames : List Frame}
    (h : vm.Sound p hosts frames) {id : Nat} {task : Task} (hmem : (id, task) ∈ vm.tasks) :
    ∀ e ∈ vm.tasks.erase id, e.2.promise ≠ task.promise := by
  intro e he heq
  obtain ⟨hmem', hne⟩ := BTreeMap.mem_erase.mp he
  have hinj := List.inj_on_of_nodup_map h.promises hmem' hmem heq
  rw [hinj] at hne
  exact hne rfl

/-! ### Running a task -/

/-- Taking a task out of the table. -/
theorem Inv.take {s : State F σ} (h : Inv p hosts none s) {id : Nat} {task : Task}
    (hmem : (id, task) ∈ s.vm.tasks) :
    Inv p hosts (some (id, task.promise))
      { s with vm := { s.vm with tasks := s.vm.tasks.erase id } } := by
  have hsub : (s.vm.tasks.erase id).Sublist s.vm.tasks := List.filter_sublist
  have hkey : id ∈ s.vm.tasks.keys := List.mem_map.mpr ⟨_, hmem, rfl⟩
  refine ⟨h.sound.restrict hsub, h.past, ?_, h.ordered, ?_, ?_, ?_, ?_⟩
  · exact fun e he => (h.before e he).trans
      (.of_grows (.refl _) (Nat.le_refl _) (Nat.le_refl _))
  · intro e he k promise hl
    rcases h.accounted.spawned e he k promise hl with ⟨task', ht, hp⟩ | hr | hd
    · by_cases hk : k = id
      · subst hk
        rw [h.sound.task_eq ht hmem] at hp
        exact Or.inr (Or.inl (by rw [hp]))
      · exact Or.inl ⟨task', BTreeMap.mem_erase.mpr ⟨ht, hk⟩, hp⟩
    · cases hr
    · exact Or.inr (Or.inr hd)
  · exact fun e he => h.accounted.tasks e (hsub.subset he)
  · intro e he k hl
    obtain ⟨hk, hlt, -⟩ := h.accounted.cancelled e he k hl
    refine ⟨fun hm => hk ((hsub.map Prod.fst).subset hm), hlt, fun promise hr => ?_⟩
    cases hr
    exact hk hkey
  · intro k promise hr
    cases hr
    refine ⟨h.sound.refs _ (Or.inr ⟨_, hmem, Or.inl rfl⟩), ?_, BTreeMap.not_mem_keys_erase _ _,
      h.sound.next _ hkey, h.accounted.tasks _ hmem⟩
    intro hp
    obtain ⟨e, he, heq⟩ := List.mem_map.mp hp
    exact h.sound.promise_erase hmem e he heq

/-- Putting the running task back. -/
theorem Inv.putBack {s : State F σ} {id : Nat} {task : Task}
    (h : Inv p hosts (some (id, task.promise)) s) (hwf : task.WellFormed p)
    (hrefs : ∀ r ∈ task.work.refs, s.vm.heap.Good r) :
    Inv p hosts none { s with vm := { s.vm with tasks := s.vm.tasks.insert id task } } := by
  obtain ⟨hpending, hpromise, hid, hlt, hspawned⟩ := h.accounted.running id _ rfl
  have hsound := h.sound.insertTask task hid hlt (Nat.le_refl _) hpromise hwf (by
    rintro r (rfl | hr)
    · exact hpending
    · exact hrefs r hr)
  refine ⟨hsound, h.past, ?_, h.ordered, ?_, ?_, ?_, nofun⟩
  · exact fun e he => (h.before e he).trans
      (.of_grows (.refl _) (Nat.le_refl _) (Nat.le_refl _))
  · intro e he k promise hl
    rcases h.accounted.spawned e he k promise hl with ⟨task', ht, hp⟩ | hr | hd
    · refine Or.inl ⟨task', BTreeMap.mem_insert.mpr (Or.inr ⟨ht, ?_⟩), hp⟩
      rintro rfl
      exact hid (List.mem_map.mpr ⟨_, ht, rfl⟩)
    · cases hr
      exact Or.inl ⟨task, BTreeMap.mem_insert.mpr (Or.inl rfl), rfl⟩
    · exact Or.inr (Or.inr hd)
  · intro e he
    rcases BTreeMap.mem_insert.mp he with rfl | ⟨he, -⟩
    · exact hspawned
    · exact h.accounted.tasks e he
  · intro e he k hl
    obtain ⟨hk, hltk, hr⟩ := h.accounted.cancelled e he k hl
    refine ⟨fun hm => ?_, hltk, nofun⟩
    rcases BTreeMap.mem_keys_insert.mp hm with rfl | hm
    · exact hr _ rfl
    · exact hk hm

/-! ### Cancelled jobs -/

/-- The events of tasks that are cancelled together. -/
def cancelledEvents (s : State F σ) (tasks : List (Nat × Task)) : List (Event F σ) :=
  (tasks.map fun e => ⟨.cancelled e.1, s.vm, s.frames⟩).reverse

theorem mem_cancelledEvents {s : State F σ} {tasks : List (Nat × Task)} {x : Event F σ} :
    x ∈ cancelledEvents s tasks ↔ ∃ e ∈ tasks, x = ⟨.cancelled e.1, s.vm, s.frames⟩ := by
  rw [cancelledEvents, List.mem_reverse, List.mem_map]
  exact ⟨fun ⟨e, he, hx⟩ => ⟨e, he, hx.symm⟩, fun ⟨e, he, hx⟩ => ⟨e, he, hx.symm⟩⟩

/-- Tasks that do not run are dropped, each with an event. -/
theorem Inv.cancelTasks {s : State F σ} (h : Inv p hosts none s) (job : Nat × Task → Bool) :
    Inv p hosts none
      { vm := { s.vm with tasks := s.vm.tasks.filter fun e => ¬ job e }
        frames := s.frames
        trace := cancelledEvents s (s.vm.tasks.filter job) ++ s.trace } := by
  have hsub : (s.vm.tasks.filter fun e => ¬ job e).Sublist s.vm.tasks := List.filter_sublist
  have hkept : ∀ {e : Event F σ}, e ∈ s.trace →
      e ∈ cancelledEvents s (s.vm.tasks.filter job) ++ s.trace :=
    fun he => List.mem_append_right _ he
  -- an event of the longer trace is an old one, or tells of a dropped task
  have hcases : ∀ {x : Event F σ}, x ∈ cancelledEvents s (s.vm.tasks.filter job) ++ s.trace →
      (∃ e ∈ s.vm.tasks, job e = true ∧ x = ⟨.cancelled e.1, s.vm, s.frames⟩) ∨
        x ∈ s.trace := by
    intro x hx
    rcases List.mem_append.mp hx with hx | hx
    · obtain ⟨e, he, rfl⟩ := mem_cancelledEvents.mp hx
      obtain ⟨hmem, hjob⟩ := List.mem_filter.mp he
      exact Or.inl ⟨e, hmem, hjob, rfl⟩
    · exact Or.inr hx
  have hnow : ∀ e : Nat × Task,
      (⟨.cancelled e.1, s.vm, s.frames⟩ : Event F σ).Before s.vm :=
    fun e => ⟨.refl _, nofun⟩
  have hfollows : s.vm.Follows { s.vm with tasks := s.vm.tasks.filter fun e => ¬ job e } :=
    .of_grows (.refl _) (Nat.le_refl _) (Nat.le_refl _)
  refine ⟨h.sound.restrict hsub, ⟨?_, ?_, ?_, ?_⟩, ?_, ?_, ?_, ?_, ?_, nofun⟩
  · intro x hx
    rcases hcases hx with ⟨e, -, -, rfl⟩ | hx
    · exact h.sound
    · exact h.past.sound x hx
  · refine List.pairwise_append.mpr ⟨?_, h.past.pairwise, ?_⟩
    · refine List.pairwise_of_forall_mem_list fun x hx y hy => ?_
      obtain ⟨e, -, rfl⟩ := mem_cancelledEvents.mp hx
      obtain ⟨e', -, rfl⟩ := mem_cancelledEvents.mp hy
      exact hnow e'
    · intro x hx y hy
      obtain ⟨e, -, rfl⟩ := mem_cancelledEvents.mp hx
      exact h.before y hy
  · intro x hx k outcome hl
    rcases hcases hx with ⟨e, -, -, rfl⟩ | hx
    · cases hl
    · exact h.past.fresh x hx k outcome hl
  · intro hw x hx
    have hw' : NoWrap s.trace := fun y hy => hw y (hkept hy)
    rcases hcases hx with ⟨e, -, -, rfl⟩ | hx
    · exact h.ordered hw'
    · exact h.past.ordered hw' x hx
  · intro x hx
    rcases hcases hx with ⟨e, -, -, rfl⟩ | hx
    · exact (hnow e).trans hfollows
    · exact (h.before x hx).trans hfollows
  · exact fun hw => h.ordered fun x hx => hw x (hkept hx)
  · intro x hx id promise hl
    rcases hcases hx with ⟨e, -, -, rfl⟩ | hx
    · cases hl
    · rcases h.accounted.spawned x hx id promise hl with ⟨task, ht, hp⟩ | hr | ⟨y, hy, hd⟩
      · by_cases hjob : job (id, task) = true
        · refine Or.inr (Or.inr ⟨⟨.cancelled id, s.vm, s.frames⟩, ?_, Or.inr rfl⟩)
          refine List.mem_append_left _ (mem_cancelledEvents.mpr ⟨(id, task), ?_, rfl⟩)
          exact List.mem_filter.mpr ⟨ht, hjob⟩
        · exact Or.inl ⟨task, List.mem_filter.mpr ⟨ht, by simpa using hjob⟩, hp⟩
      · cases hr
      · exact Or.inr (Or.inr ⟨y, hkept hy, hd⟩)
  · intro e he
    obtain ⟨x, hx, hl⟩ := h.accounted.tasks e (hsub.subset he)
    exact ⟨x, hkept hx, hl⟩
  · intro x hx id hl
    rcases hcases hx with ⟨e, he, hjob, rfl⟩ | hx
    · cases hl
      refine ⟨fun hm => ?_, h.sound.next _ (List.mem_map.mpr ⟨e, he, rfl⟩), nofun⟩
      obtain ⟨e', he', heq⟩ := List.mem_map.mp hm
      obtain ⟨hmem', hjob'⟩ := List.mem_filter.mp he'
      have hsame : e' = e := List.inj_on_of_nodup_map h.sound.ids hmem' he heq
      rw [hsame, hjob] at hjob'
      simp at hjob'
    · obtain ⟨hk, hlt, -⟩ := h.accounted.cancelled x hx id hl
      exact ⟨fun hm => hk ((hsub.map Prod.fst).subset hm), hlt, nofun⟩

/-! ### Completions -/

/-- The entry with another completion, if it is the one of `id`. -/
def withCompletion (id : Nat) (completion : Option Completion) (e : Nat × Task) : Nat × Task :=
  if e.1 = id then (id, { e.2 with completion }) else e

section

variable (id : Nat) (completion : Option Completion) (e : Nat × Task)

@[simp] theorem withCompletion_id : (withCompletion id completion e).1 = e.1 := by
  rw [withCompletion]
  split
  · next h => exact h.symm
  · rfl

@[simp] theorem withCompletion_promise :
    (withCompletion id completion e).2.promise = e.2.promise := by
  rw [withCompletion]
  split <;> rfl

@[simp] theorem withCompletion_refs : (withCompletion id completion e).2.refs = e.2.refs := by
  rw [withCompletion]
  split <;> rfl

theorem withCompletion_wellFormed (h : e.2.WellFormed p) :
    (withCompletion id completion e).2.WellFormed p := by
  rw [withCompletion]
  split
  · exact h
  · exact h

end

/-- The table with another completion for one task. -/
theorem Inv.completion {s : State F σ} (h : Inv p hosts running s) (id : Nat)
    (completion : Option Completion) :
    Inv p hosts running
      { s with
        vm := { s.vm with tasks := s.vm.tasks.map (withCompletion id completion) } } := by
  have hkeys : BTreeMap.keys (s.vm.tasks.map (withCompletion id completion)) =
      s.vm.tasks.keys := by
    rw [BTreeMap.keys, BTreeMap.keys, List.map_map]
    exact List.map_congr_left fun e _ => withCompletion_id id completion e
  have hpromises : ({ s.vm with
      tasks := s.vm.tasks.map (withCompletion id completion) } : Vm F σ).promises =
      s.vm.promises := by
    rw [Vm.promises, Vm.promises, List.map_map]
    exact List.map_congr_left fun e _ => withCompletion_promise id completion e
  have hsound : ({ s.vm with
      tasks := s.vm.tasks.map (withCompletion id completion) } : Vm F σ).Sound
      p hosts s.frames :=
    { h.sound with
      refs := by
        rintro r (hr | ⟨e, he, hr⟩)
        · exact h.sound.refs r (Or.inl hr)
        · obtain ⟨e', he', rfl⟩ := List.mem_map.mp he
          rw [withCompletion_refs] at hr
          exact h.sound.refs r (Or.inr ⟨e', he', hr⟩)
      tasks := by
        intro e he
        obtain ⟨e', he', rfl⟩ := List.mem_map.mp he
        exact withCompletion_wellFormed id completion e' (h.sound.tasks e' he')
      ids := hkeys ▸ h.sound.ids
      next := fun k hk => h.sound.next k (hkeys ▸ hk)
      promises := hpromises ▸ h.sound.promises }
  refine ⟨hsound, h.past, ?_, h.ordered, ?_, ?_, ?_, ?_⟩
  · exact fun e he => (h.before e he).trans
      (.of_grows (.refl _) (Nat.le_refl _) (Nat.le_refl _))
  · intro e he k promise hl
    rcases h.accounted.spawned e he k promise hl with ⟨task, ht, hp⟩ | hr | hd
    · left
      refine ⟨(withCompletion id completion (k, task)).2, ?_, ?_⟩
      · refine List.mem_map.mpr ⟨(k, task), ht, Prod.ext ?_ rfl⟩
        exact withCompletion_id id completion (k, task)
      · rw [withCompletion_promise]
        exact hp
    · exact Or.inr (Or.inl hr)
    · exact Or.inr (Or.inr hd)
  · intro e he
    obtain ⟨e', he', rfl⟩ := List.mem_map.mp he
    obtain ⟨x, hx, hl⟩ := h.accounted.tasks e' he'
    exact ⟨x, hx, by rw [hl, withCompletion_id, withCompletion_promise]⟩
  · intro e he k hl
    obtain ⟨hk, hlt, hr⟩ := h.accounted.cancelled e he k hl
    exact ⟨hkeys ▸ hk, hlt, hr⟩
  · intro k promise hr
    obtain ⟨hp, hpr, hid, hlt, hx⟩ := h.accounted.running k promise hr
    exact ⟨hp, hpromises ▸ hpr, hkeys ▸ hid, hlt, hx⟩

end Deka.Vm
