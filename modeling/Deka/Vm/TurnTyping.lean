/-
Deka/Vm/TurnTyping.lean

A whole turn: the tasks one after the other, host commands, and the collection at
the end.

The triples end in `triple_drive`: a turn of a sound machine ends in a sound
machine or stops, it never meets a stale handle, and no task is polled twice.
-/
import Deka.Vm.TableTyping
import Deka.Vm.TaskTyping

namespace Deka.Vm

open Deka.Lib

set_option linter.dupNamespace false

variable {F σ : Type} [Platform F] [HostWorld F σ] {p : Program F} {hosts : Hosts F σ}
  {running : Option (Nat × Handle)} {Γ : Set Ref} {sites : PanicSite → Prop}

namespace M

/-! ### Callbacks -/

omit [HostWorld F σ] in
theorem typed_uncaught {α : Type} {φ : α → Prop} {R : α → Set Ref} {h : Handle}
    (hh : Ref.val h ∈ Γ) :
    Typed (vmTheory p hosts sites running) Γ (uncaught h : M F σ α) φ R :=
  Typed.bind (typed_liftHeap (HeapM.typed_valueText hh)) fun _ _ => typed_error _

omit [Platform F] [HostWorld F σ] in
theorem typed_callbackPayload {h : Handle} (hh : Ref.val h ∈ Γ) :
    Typed (vmTheory p hosts sites running) Γ (callbackPayload h : M F σ (Except String Handle))
      (fun _ => True) fun r => {x | ∃ k, r = .ok k ∧ x = .val k} := by
  refine Typed.bind (typed_get hh) fun v _ => ?_
  split
  · next record =>
      dsimp only
      split
      · refine Typed.bind (typed_field Set.subset_union_right _ _) fun case _ => ?_
        refine Typed.bind (typed_field (Set.subset_union_right.trans Set.subset_union_left) _ _)
          fun payload _ => ?_
        refine Typed.bind (typed_get (Or.inl (Or.inr rfl))) fun v _ => ?_
        split
        · refine Typed.pure trivial ?_
          rintro r ⟨k, hk, rfl⟩
          cases hk
          exact Or.inl (Or.inr rfl)
        · refine Typed.bind (typed_get (Or.inl (Or.inr rfl))) fun w _ => ?_
          split
          · refine Typed.pure trivial ?_
            rintro r ⟨k, hk, -⟩
            cases hk
          · exact typed_error _
        · exact typed_error _
      · exact typed_errorBind _
  · exact typed_error _

omit [Platform F] [HostWorld F σ] in
/-- A callback's type is no part of the program, so its normal form may be missing. -/
theorem typed_callbackValue (hsite : sites .hostType) (expected : HostType)
    (resultChannel : Bool) {h : Handle} (hh : Ref.val h ∈ Γ) :
    Typed (vmTheory p hosts sites running) Γ
      (callbackValue expected resultChannel h : M F σ (Except String (HostValue F)))
      (fun _ => True) fun _ => ∅ := by
  have hnormalized : ∀ {Δ : Set Ref} (value : HostValue F),
      Typed (vmTheory p hosts sites running) Δ (normalized expected value : M F σ (HostValue F))
        (fun _ => True) fun _ => ∅ := by
    intro Δ value
    rw [normalized]
    split
    · exact Typed.pure trivial (Set.empty_subset _)
    · exact Typed.throw hsite
  have hpayload : Typed (vmTheory p hosts sites running) Γ
      (if resultChannel then callbackPayload h else pure (.ok h) :
        M F σ (Except String Handle)) (fun _ => True)
      fun r => {x | ∃ k, r = .ok k ∧ x = .val k} := by
    split
    · exact typed_callbackPayload hh
    · refine Typed.pure trivial ?_
      rintro r ⟨k, hk, rfl⟩
      cases hk
      exact hh
  refine Typed.bind hpayload fun payload _ => ?_
  cases payload with
  | error error => exact Typed.pure trivial (Set.empty_subset _)
  | ok k =>
      refine Typed.bind (typed_wireValue (Or.inr ⟨k, rfl, rfl⟩)) fun value _ => ?_
      dsimp only
      split
      · refine Typed.bind (hnormalized value) fun value _ => ?_
        exact Typed.pure trivial (Set.empty_subset _)
      · exact typed_errorBind _

omit [HostWorld F σ] in
theorem typed_callbackResult (hsite : sites .hostType) {outcome : Except Fault Outcome}
    (herr : ∀ e, outcome = .error e → ∃ message, e = .error message)
    (hok : ∀ o, outcome = .ok o → Ref.val o.handle ∈ Γ) (expected : HostType)
    (resultChannel : Bool) :
    Typed (vmTheory p hosts sites running) Γ
      (callbackResult outcome expected resultChannel : M F σ (Except String (HostValue F)))
      (fun _ => True) fun _ => ∅ := by
  rcases outcome with e | (h | h)
  · obtain ⟨message, rfl⟩ := herr e rfl
    exact typed_error message
  · exact typed_callbackValue hsite expected resultChannel (hok _ rfl)
  · exact typed_uncaught (hok (.thrown h) rfl)

omit [Platform F] in
theorem typed_resolve (completion : Completion) (value : Except String (HostValue F)) :
    Typed (vmTheory p hosts sites running) Γ (resolve completion value : M F σ Unit)
      (fun _ => True) fun _ => ∅ :=
  typed_modifyVm (fun _ => rfl) (fun _ => rfl) (fun _ => rfl) (fun _ => rfl)
    (fun _ => rfl) (fun _ => rfl) (fun _ => rfl) (fun _ => rfl) fun _ _ => Or.inl

theorem typed_complete (hsite : sites .hostType) (completion : Completion)
    {outcome : Except Fault Outcome}
    (herr : ∀ e, outcome = .error e → ∃ message, e = .error message)
    (hok : ∀ o, outcome = .ok o → Ref.val o.handle ∈ Γ) :
    Typed (vmTheory p hosts sites running) Γ (complete completion outcome : M F σ Unit)
      (fun _ => True) fun _ => ∅ := by
  refine Typed.bind (typed_callbackResult hsite herr hok _ _).attempt fun result hresult => ?_
  rcases result with (message | - | site) | value
  · refine Typed.bind (typed_resolve _ _) fun _ _ => ?_
    exact typed_error _
  · exact hresult.elim
  · exact Typed.throw hresult
  · exact typed_resolve _ _

omit [Platform F] [HostWorld F σ] in
theorem typed_followed (task : Task) {outcome : Except Fault Outcome}
    (hok : ∀ o, outcome = .ok o → Ref.val o.handle ∈ Γ) :
    Typed (vmTheory p hosts sites running) Γ (followed task outcome : M F σ (Option Handle))
      (fun _ => True) fun r => {x | ∃ k, r = some k ∧ x = .val k} := by
  unfold followed
  split
  · next promise =>
      refine Typed.bind (typed_get (hok _ rfl)) fun v _ => ?_
      refine Typed.pure trivial ?_
      rintro r ⟨k, hk, rfl⟩
      split at hk
      · cases hk
        exact Or.inl (hok _ rfl)
      · cases hk
  · refine Typed.pure trivial ?_
    rintro r ⟨k, hk, -⟩
    cases hk

/-! ### One task -/

variable {start : List (Event F σ)} {root : Option Handle} {ids : List Nat}

omit [HostWorld F σ] in
theorem triple_park {id : Nat} {task : Task} (hwf : task.WellFormed p) :
    Triple (During p hosts start root (some (id, task.promise)) ids task.work.refs)
      (park id task : M F σ Unit)
      (fun _ => During p hosts start root none ids ∅) (Stopped p hosts start root ids) := by
  refine Triple.bind (Q := fun _ =>
    During p hosts start root (some (id, task.promise)) ids task.work.refs)
    (Triple.modify ?_) fun _ => Triple.modify ?_
  · rintro s ⟨hinv, hturn, hrefs⟩
    exact ⟨hinv.log (.parked id) (by simp) (by simp) (by simp),
      hturn.log (.parked id) (by simp) (by simp), hrefs⟩
  · rintro s ⟨hinv, hturn, hrefs⟩
    exact ⟨hinv.putBack hwf hrefs,
      hturn.of_vm { s.vm with tasks := s.vm.tasks.insert id task } s.frames rfl,
      fun r hr => absurd hr (Set.notMem_empty r)⟩

omit [HostWorld F σ] in
/-- The promise of the running task is settled. -/
theorem triple_settleTask {id : Nat} {promise : Handle} {outcome : Except Fault Outcome}
    (herr : ∀ e, outcome = .error e → ∃ message, e = .error message)
    (hok : ∀ o, outcome = .ok o → Ref.val o.handle ∈ Γ) :
    Triple (During p hosts start root (some (id, promise)) ids Γ)
      (settleTask promise outcome : M F σ Unit)
      (fun _ => During p hosts start root none ids ∅) (Stopped p hosts start root ids) := by
  cases outcome with
  | error e =>
      obtain ⟨message, rfl⟩ := herr e rfl
      exact Triple.throw fun s hs => hs.stopped (by simp)
  | ok outcome =>
      rintro s ⟨hinv, hturn, hrefs⟩
      obtain ⟨hpending, hpromise, -⟩ := hinv.accounted.running id promise rfl
      have hlookup : s.vm.heap.lookup promise = some (.promise none) := hpending
      have hstored : Stored (.ok outcome) s.vm.heap.Good := by
        refine ⟨nofun, fun o ho => ?_⟩
        cases ho
        exact hrefs _ (hok outcome rfl)
      rw [settleTask, exec_settlePromise hlookup]
      exact ⟨hinv.settle _ hpending hpromise hstored (Or.inr ⟨rfl, id, rfl⟩),
        (hturn.log (.settled promise (.ok outcome)) (by simp) (by simp)).of_vm
          (s.vm.settle promise (.ok outcome)) s.frames rfl,
        fun r hr => absurd hr (Set.notMem_empty r)⟩

theorem triple_finishTask {id : Nat} {task : Task} {outcome : Except Fault Outcome}
    (herr : ∀ e, outcome = .error e → ∃ message, e = .error message)
    (hok : ∀ o, outcome = .ok o → Ref.val o.handle ∈ Γ) :
    Triple (During p hosts start root (some (id, task.promise)) ids Γ)
      (finishTask id task outcome : M F σ Unit)
      (fun _ => During p hosts start root none ids ∅) (Stopped p hosts start root ids) := by
  have hfollowed : Typed (vmTheory p hosts (fun _ => True) (some (id, task.promise))) Γ
      (followed task outcome : M F σ (Option Handle)) (fun _ => True)
      fun r => {x | ∃ k, r = some k ∧ x = .val k} := typed_followed task hok
  refine Triple.bind (Typed.during hfollowed) fun r => ?_
  cases r with
  | some promise =>
      have hwaits : ({ task with work := .callbackWait promise, waiting := some promise } :
          Task).WellFormed p := ⟨trivial, fun h hh => by cases hh; exact Or.inl rfl⟩
      refine (triple_park hwaits).pre fun s hs => hs.1.weaken ?_
      rintro r rfl
      exact Or.inr ⟨promise, rfl, rfl⟩
  | none =>
      dsimp only
      split
      · next completion _ =>
          have hcomplete : Typed (vmTheory p hosts (fun _ => True) (some (id, task.promise)))
              Γ (complete completion outcome : M F σ Unit) (fun _ => True) fun _ => ∅ :=
            typed_complete trivial completion herr hok
          refine Triple.bind ((Typed.during hcomplete).pre fun s hs => hs.1.weaken
            Set.subset_union_left) fun _ => ?_
          exact (triple_settleTask herr hok).pre fun s hs => hs.1.weaken Set.subset_union_left
      · exact (triple_settleTask herr hok).pre fun s hs => hs.1.weaken Set.subset_union_left

omit [HostWorld F σ] [Platform F] in
/-- Looking at the machine. -/
theorem triple_vm {P : State F σ → Prop} {E : Fault → State F σ → Prop} :
    Triple P (vm : M F σ (Vm F σ)) (fun v s => P s ∧ v = s.vm) E := by
  refine Triple.reads ?_ ?_
  · intro s v hs hv
    cases hv
    exact ⟨hs, rfl⟩
  · intro s e hs he
    cases he

/-- After its slice a task is back in the table, or its promise is settled. -/
theorem triple_endSlice {id : Nat} {task : Task} {slice : Slice}
    (hslice : slice.WellFormed p task) (progress : Progress) :
    Triple (During p hosts start root (some (id, task.promise)) ids slice.refs)
      (endSlice id progress slice : M F σ Progress)
      (fun _ => During p hosts start root none ids ∅) (Stopped p hosts start root ids) := by
  rw [endSlice, ← hslice.promise]
  split
  · next outcome houtcome =>
      refine Triple.bind (triple_finishTask ?_ ?_) fun _ => Triple.pure fun s hs => hs
      · intro e he
        exact hslice.error e (by rw [houtcome, he])
      · intro o ho
        exact Or.inr ⟨o, by rw [houtcome, ho], rfl⟩
  · refine Triple.bind ((triple_park hslice.task).pre fun s hs => hs.weaken ?_) fun _ =>
      Triple.pure fun s hs => hs
    exact Set.subset_union_left

theorem triple_turnTask (hp : p.Fits) (only : Option Handle) (limit : Option Nat) (id : Nat)
    (progress : Progress) :
    Triple (During p hosts start root none ids ∅)
      (turnTask only limit id progress : M F σ Progress)
      (fun _ => During p hosts start root none (id :: ids) ∅)
      (fun e s => ∃ done, (done = ids ∨ done = id :: ids) ∧
        Stopped p hosts start root done e s) := by
  unfold turnTask
  refine Triple.bind triple_vm fun v => ?_
  split
  · next task htask =>
      refine Triple.bind (Q := fun _ s => During p hosts start root none (id :: ids) ∅ s ∧
        v.tasks = s.vm.tasks) (Triple.modify ?_) fun _ => ?_
      · rintro s ⟨⟨hinv, hturn, hrefs⟩, rfl⟩
        exact ⟨⟨hinv.log (.polled id) (by simp) (by simp) (by simp), hturn.poll id, hrefs⟩, rfl⟩
      refine Triple.bind (Q := fun _ s => During p hosts start root (some (id, task.promise))
        (id :: ids) task.work.refs s ∧ task.WellFormed p) (Triple.modify ?_) fun _ => ?_
      · rintro s ⟨⟨hinv, hturn, -⟩, htasks⟩
        have hmem : (id, task) ∈ s.vm.tasks := htasks ▸ BTreeMap.mem_of_get? htask
        exact ⟨⟨hinv.take hmem, hturn.of_vm { s.vm with tasks := s.vm.tasks.erase id } s.frames rfl,
          fun r hr => hinv.sound.refs r (Or.inr ⟨_, hmem, Or.inr hr⟩)⟩,
          hinv.sound.tasks _ hmem⟩
      refine Triple.assume (fun s hs => hs.2) fun hwf => ?_
      -- from here on the poll is on record
      refine Triple.conseq ?_ (fun s hs => hs.1) (fun _ _ hs => hs)
        fun e s hs => ⟨id :: ids, Or.inr rfl, hs⟩
      have hwf' : ({ task with waiting := none } : Task).WellFormed p := ⟨hwf.1, nofun⟩
      refine Triple.bind (triple_runTask hp limit hwf' rfl progress) fun slice => ?_
      refine Triple.assume (fun s hs => hs.2) fun hslice => ?_
      dsimp only
      split
      · have hcursor : Typed (vmTheory p hosts (fun _ => True) (some (id, task.promise)))
            slice.refs (modifyVm fun vm => { vm with turnCursor := id + 1 } : M F σ Unit)
            (fun _ => True) fun _ => ∅ :=
          typed_modifyVm (fun _ => rfl) (fun _ => rfl) (fun _ => rfl) (fun _ => rfl)
            (fun _ => rfl) (fun _ => rfl) (fun _ => rfl) (fun _ => rfl) fun _ _ => Or.inl
        refine Triple.bind ((Typed.during hcursor).pre fun s hs => hs.1) fun _ => ?_
        exact (triple_endSlice hslice progress).pre fun s hs =>
          hs.1.weaken Set.subset_union_left
      · exact (triple_endSlice hslice progress).pre fun s hs => hs.1
  · exact Triple.throw fun s hs => ⟨ids, Or.inl rfl, hs.1.stopped (by simp)⟩

/-- The scheduled tasks are polled one after the other, none of them twice. -/
theorem triple_turnTasks (hp : p.Fits) (only : Option Handle) (limit : Option Nat)
    {scheduled : List Nat} (hnodup : (scheduled ++ ids).Nodup) (progress : Progress) :
    Triple (During p hosts start root none ids ∅)
      (turnTasks only limit scheduled progress : M F σ Progress)
      (fun _ s => ∃ done, done.Nodup ∧ During p hosts start root none done ∅ s)
      (fun e s => ∃ done, done.Nodup ∧ Stopped p hosts start root done e s) := by
  induction scheduled generalizing ids progress with
  | nil => exact Triple.pure fun s hs => ⟨ids, hnodup, hs⟩
  | cons id scheduled ih =>
      rw [turnTasks]
      have hnext : (scheduled ++ id :: ids).Nodup :=
        (List.perm_middle.symm.nodup_iff).mp hnodup
      split
      · exact Triple.pure fun s hs => ⟨ids, hnodup.of_append_right, hs⟩
      · refine Triple.bind ((triple_turnTask hp only limit id progress).conseq (fun _ hs => hs)
          (fun _ _ hs => hs) ?_) fun progress => ih hnext progress
        rintro e s ⟨done, rfl | rfl, hs⟩
        · exact ⟨done, hnodup.of_append_right, hs⟩
        · exact ⟨id :: ids, hnext.of_append_right, hs⟩

/-! ### Host commands -/

omit [HostWorld F σ] [Platform F] in
theorem typed_setCompletion (id : Nat) (completion : Option Completion) :
    Typed (vmTheory p hosts sites running) Γ
      (modifyVm fun vm => { vm with tasks := vm.tasks.map (withCompletion id completion) } :
        M F σ Unit) (fun _ => True) fun _ => ∅ := by
  intro s hs hΓ
  exact ⟨hs.completion id completion, ⟨.refl _, rfl, Nat.le_refl _, Nat.le_refl _, .refl _⟩,
    trivial, fun r hr => absurd hr (Set.notMem_empty r)⟩

omit [HostWorld F σ] in
theorem typed_runCommand (hp : p.Fits) {command : Command F}
    (hcancel : ∀ id, command ≠ .cancel id) :
    Typed (vmTheory p hosts sites running) Γ (runCommand command : M F σ Unit)
      (fun _ => True) fun _ => ∅ := by
  cases command with
  | spawn job future =>
      refine Typed.bind typed_vm fun vm _ => ?_
      split
      · exact Typed.pure trivial (Set.empty_subset _)
      · refine (typed_spawn _ ?_ (Set.empty_subset _)).discard
        show HostType.unit.CasesDistinct
        simp [HostType.CasesDistinct]
  | cancel id => exact absurd rfl (hcancel id)
  | call callback args job completion =>
      unfold runCommand
      refine Typed.bind typed_vm fun vm _ => ?_
      dsimp only
      split
      · exact Typed.pure trivial (Set.empty_subset _)
      · refine Typed.bind (typed_ownedCallback callback) fun h _ => ?_
        refine Typed.bind (typed_closureOf (Or.inr rfl) _) fun c _ => ?_
        refine Typed.bind (Typed.mapM fun value _ => typed_allocHostValue value) fun args _ => ?_
        refine Typed.bind (typed_frame hp ?_ ?_ ?_) fun frame hframe => ?_
        · exact fun r hr => Or.inl (Or.inr (Or.inl hr))
        · exact fun r hr => Or.inr (by
            obtain ⟨k, hk, rfl⟩ := hr
            exact ⟨k, hk, rfl⟩)
        · exact fun r hr => Or.inl (Or.inr (Or.inr hr))
        · have hwork : (Work.code [frame]).WellFormed p := by
            refine ⟨fun x hx => ?_, by simp⟩
            rw [List.mem_singleton.mp hx]
            exact hframe.1
          refine Typed.bind typed_vm fun vm _ => ?_
          refine Typed.bind (typed_spawn _ hwork ?_).discard fun _ _ => ?_
          · rintro r ⟨x, hx, hr⟩
            rw [List.mem_singleton.mp hx] at hr
            exact Or.inl (Or.inr hr)
          · exact typed_setCompletion vm.nextTask completion

omit [Platform F] [HostWorld F σ] in
theorem exec_logCancelled (s : State F σ) (tasks : List (Nat × Task)) :
    (tasks.forM fun e => log (.cancelled e.1) : M F σ Unit).exec s =
      (.ok (), { s with trace := cancelledEvents s tasks ++ s.trace }) := by
  induction tasks generalizing s with
  | nil => rfl
  | cons e tasks ih =>
      have hlog : (log (.cancelled e.1) : M F σ Unit).exec s =
          (.ok (), { s with trace := ⟨.cancelled e.1, s.vm, s.frames⟩ :: s.trace }) := rfl
      show (log (.cancelled e.1) >>= fun _ =>
        tasks.forM fun e => log (.cancelled e.1) : M F σ Unit).exec s = _
      rw [Prog.exec_bind_ok hlog, ih]
      simp [cancelledEvents]

omit [HostWorld F σ] in
/-- Dropping tasks, with an event for each of them. -/
theorem triple_cancelTasks (job : Nat × Task → Bool) :
    Triple (During p hosts start root none ids ∅)
      (do ((← vm).tasks.filter job).forM fun e => log (.cancelled e.1)
          modifyVm fun vm => { vm with tasks := vm.tasks.filter fun e => ¬ job e } : M F σ Unit)
      (fun _ => During p hosts start root none ids ∅) (Stopped p hosts start root ids) := by
  rintro s ⟨hinv, hturn, hrefs⟩
  have hvm : (vm : M F σ (Vm F σ)).exec s = (.ok s.vm, s) := rfl
  rw [Prog.exec_bind_ok hvm, Prog.exec_bind_ok (exec_logCancelled s _)]
  refine ⟨hinv.cancelTasks job, ?_, hrefs⟩
  refine (hturn.quiet fun x hx => ?_).of_vm _ s.frames rfl
  obtain ⟨e, -, rfl⟩ := mem_cancelledEvents.mp hx
  exact ⟨nofun, nofun⟩

omit [HostWorld F σ] in
theorem triple_runCommand (hp : p.Fits) (command : Command F) :
    Triple (During p hosts start root none ids ∅) (runCommand command : M F σ Unit)
      (fun _ => During p hosts start root none ids ∅) (Stopped p hosts start root ids) := by
  by_cases hcancel : ∃ id, command = .cancel id
  · obtain ⟨id, rfl⟩ := hcancel
    exact triple_cancelTasks _
  · have htyped : Typed (vmTheory p hosts (fun _ => True) none) ∅
        (runCommand command : M F σ Unit) (fun _ => True) fun _ => ∅ :=
      typed_runCommand hp fun id hid => hcancel ⟨id, hid⟩
    exact (Typed.during htyped).post fun _ s hs => hs.1.weaken (Set.empty_subset _)

omit [HostWorld F σ] in
theorem triple_hostCommands (hp : p.Fits) (remaining : Nat) :
    Triple (During p hosts start root none ids ∅)
      (hostCommands remaining : M F σ (Bool × Nat))
      (fun _ => During p hosts start root none ids ∅) (Stopped p hosts start root ids) := by
  have hvm : Typed (vmTheory p hosts (fun _ => True) none) ∅ (vm : M F σ (Vm F σ)) _
      fun vm => vm.refs := typed_vm
  refine Triple.bind (Typed.during hvm) fun v => ?_
  have htake : Typed (vmTheory p hosts (fun _ => True) none) (∅ ∪ v.refs)
      (modifyVm fun vm => { vm with context := (v.context.take remaining).2 } : M F σ Unit)
      (fun _ => True) fun _ => ∅ := by
    refine typed_modifyVm (fun _ => rfl) (fun _ => rfl) (fun _ => rfl) (fun _ => rfl)
      (fun _ => rfl) (fun _ => rfl) (fun _ => rfl) (fun _ => rfl) fun vm h hh => ?_
    rcases List.mem_append.mp hh with hh | hh
    · exact Or.inl (List.mem_append_left _ hh)
    · exact Or.inr (Or.inr (Or.inl ⟨h, List.mem_append_right _ hh, rfl⟩))
  refine Triple.bind ((Typed.during htake).pre fun s hs => hs.1) fun _ => ?_
  refine Triple.bind (Triple.pre (Triple.forM fun command _ => triple_runCommand hp command)
    fun s hs => hs.1.weaken (Set.empty_subset _)) fun _ => ?_
  exact Triple.pure fun s hs => hs

omit [HostWorld F σ] in
theorem triple_commandsOf (hp : p.Fits) (only : Option Handle) (progress : Progress) :
    Triple (During p hosts start root none ids ∅)
      (commandsOf only progress : M F σ Progress)
      (fun _ => During p hosts start root none ids ∅) (Stopped p hosts start root ids) := by
  rw [commandsOf]
  split
  · exact Triple.bind (triple_hostCommands hp _) fun _ => Triple.pure fun s hs => hs
  · exact Triple.pure fun s hs => hs

/-! ### A turn -/

/-- A collection frees what cannot be reached, and only that. -/
theorem triple_collect :
    Triple (During p hosts start root none ids ∅) (collect : M F σ Unit)
      (fun _ => During p hosts start root none ids ∅) (Stopped p hosts start root ids) := by
  rintro s ⟨hinv, hturn, -⟩
  have hclosed : s.vm.heap.Closed s.vm.collectRoots :=
    hinv.sound.heap.closed fun h hh => hinv.sound.roots_live hh
  have hlog := hturn.log .collected (by simp) (by simp)
  rw [exec_collect]
  rcases Heap.collect_spec hinv.sound.heap.rep hinv.sound.heap.reads hclosed with
    ⟨K, hcollect, hrep, hreads, hlive, hfreed, hdead⟩ | ⟨K, hcollect, hreads⟩
  · rw [hcollect]
    have hswept : Swept s.vm.heap K s.vm.collectRoots := ⟨hrep, hreads, hlive, hfreed, hdead⟩
    exact ⟨hinv.collected hswept, hlog.of_vm (s.vm.collected K) [] rfl,
      fun r hr => absurd hr (Set.notMem_empty r)⟩
  · rw [hcollect]
    have hpast := (hinv.log .collected (by simp) (by simp) (by simp)).past
    exact ⟨hpast, hreads, hlog.of_vm _ [] rfl, by simp⟩

omit [Platform F] in
/-- No task is scheduled twice. -/
theorem schedule_nodup {vm : Vm F σ} {frames : List Frame} (h : vm.Sound p hosts frames)
    (only : Option Handle) : (vm.schedule only).Nodup := by
  have hperm := List.filter_append_perm (fun e : Nat × Task => decide (e.1 < vm.turnCursor))
    vm.tasks
  have hnodup : ((vm.tasks.partition fun e => e.1 < vm.turnCursor).2 ++
      (vm.tasks.partition fun e => e.1 < vm.turnCursor).1).map Prod.fst |>.Nodup := by
    rw [List.partition_eq_filter_filter]
    exact ((List.perm_append_comm.trans hperm).map Prod.fst).nodup_iff.mpr h.ids
  exact hnodup.sublist (List.filter_sublist.map Prod.fst)

/-- **A turn.**  A sound machine ends a turn sound, or the turn stops; either way no
task was polled twice and nothing met a stale handle. -/
theorem triple_drive (hp : p.Fits) (budget : Nat) (only : Option Handle) (limit : Option Nat) :
    Triple (During p hosts start root none [] ∅) (drive budget only limit : M F σ Progress)
      (fun _ s => ∃ done, done.Nodup ∧ During p hosts start root none done ∅ s)
      (fun e s => ∃ done, done.Nodup ∧ Stopped p hosts start root done e s) := by
  have hnil : ∀ e s, Stopped p hosts start root [] e s →
      ∃ done, done.Nodup ∧ Stopped p hosts start root done e s :=
    fun e s hs => ⟨[], List.nodup_nil, hs⟩
  refine Triple.bind ((triple_commandsOf hp only _).conseq (fun _ hs => hs) (fun _ _ hs => hs)
    hnil) fun progress => ?_
  refine Triple.bind triple_vm fun v => ?_
  refine Triple.assume (p := (v.schedule only).Nodup) ?_ fun hnodup => ?_
  · rintro s ⟨hs, rfl⟩
    exact schedule_nodup hs.1.sound only
  refine Triple.bind ((triple_turnTasks hp only limit (by simpa using hnodup) progress).pre
    fun s hs => hs.1) fun progress => ?_
  refine Triple.bind (Triple.unknown fun done => (triple_commandsOf hp only progress).frame)
    fun progress => ?_
  refine Triple.bind (Triple.unknown fun done => triple_collect.frame) fun _ => ?_
  exact Triple.pure fun s hs => hs

end M

end Deka.Vm
