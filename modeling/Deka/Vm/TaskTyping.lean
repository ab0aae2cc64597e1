/-
Deka/Vm/TaskTyping.lean

One slice of one task, as triples.

A typing rule speaks about what an instruction may do; the scheduler does more:
it takes a task out of the table, records the slices it runs and the faults they
come to, and settles the promise of the task it ran.  So its rules are triples.
`Turn` is what they say about the trace: which tasks were polled since the start
of the turn, and which instructions failed.
-/
import Deka.Lib.Triple
import Deka.Vm.CollectTyping
import Deka.Vm.Panics

namespace Deka.Vm

open Deka.Lib

set_option linter.dupNamespace false

variable {F σ : Type}

/-! ### What a turn has recorded -/

/-- The tasks a trace shows to be polled, the last one first. -/
def polled (trace : List (Event F σ)) : List Nat :=
  trace.filterMap fun e => match e.label with
    | .polled id => some id
    | _ => none

theorem polled_append (new old : List (Event F σ)) :
    polled (new ++ old) = polled new ++ polled old :=
  List.filterMap_append

/-- Neither a poll nor a failure. -/
def Label.Quiet (label : Label F) : Prop :=
  (∀ id, label ≠ .polled id) ∧ ∀ fault, label ≠ .failed fault

theorem Label.quiet_of_inner {label : Label F} (h : label.isInner = true) : label.Quiet := by
  refine ⟨fun id hid => ?_, fun fault hfault => ?_⟩
  · rw [hid] at h
    cases h
  · rw [hfault] at h
    cases h

theorem polled_of_quiet {trace : List (Event F σ)} (h : ∀ e ∈ trace, e.label.Quiet) :
    polled trace = [] := by
  refine List.filterMap_eq_nil_iff.mpr fun e he => ?_
  split
  · next id hid => exact absurd hid ((h e he).1 id)
  · rfl

variable [Platform F]

/-- No instruction failed on a stale handle, and where one panicked a risky one is
to blame. -/
def Blamed (trace : List (Event F σ)) : Prop :=
  ∀ e ∈ trace, ∀ fault, e.label = .failed fault →
    fault ≠ .stale ∧ ∀ site, fault = .panic site → ∃ x ∈ trace, x.Risky

theorem Blamed.cons {trace : List (Event F σ)} (h : Blamed trace) {e : Event F σ}
    (he : ∀ fault, e.label = .failed fault →
      fault ≠ .stale ∧ ∀ site, fault = .panic site → ∃ x ∈ trace, x.Risky) :
    Blamed (e :: trace) := by
  have hgrow : ∀ {fault : Fault}, (fault ≠ .stale ∧ ∀ site, fault = .panic site →
      ∃ x ∈ trace, x.Risky) →
      fault ≠ .stale ∧ ∀ site, fault = .panic site → ∃ x ∈ e :: trace, x.Risky := by
    rintro fault ⟨hstale, hpanic⟩
    refine ⟨hstale, fun site hsite => ?_⟩
    obtain ⟨x, hx, hrisky⟩ := hpanic site hsite
    exact ⟨x, List.mem_cons_of_mem _ hx, hrisky⟩
  intro x hx fault hfault
  rcases List.mem_cons.mp hx with rfl | hx
  · exact hgrow (he fault hfault)
  · exact hgrow (h x hx fault hfault)

theorem Blamed.quiet {old new : List (Event F σ)} (h : Blamed old)
    (hnew : ∀ e ∈ new, e.label.Quiet) : Blamed (new ++ old) := by
  induction new with
  | nil => exact h
  | cons e new ih =>
      refine (ih fun x hx => hnew x (List.mem_cons_of_mem _ hx)).cons fun fault hfault => ?_
      exact absurd hfault ((hnew e List.mem_cons_self).2 fault)

/-- Since `start` the tasks `ids` were polled, and the root is still the same. -/
structure Turn (start : List (Event F σ)) (root : Option Handle) (ids : List Nat)
    (s : State F σ) : Prop where
  blamed : Blamed s.trace
  root : s.vm.root = root
  polls : ∃ new, s.trace = new ++ start ∧ polled new = ids

section

variable {start : List (Event F σ)} {root : Option Handle} {ids : List Nat} {s t : State F σ}

theorem Turn.quiet (h : Turn start root ids s) {new : List (Event F σ)}
    (hnew : ∀ e ∈ new, e.label.Quiet) :
    Turn start root ids { s with trace := new ++ s.trace } where
  blamed := h.blamed.quiet hnew
  root := h.root
  polls := by
    obtain ⟨old, hold, hids⟩ := h.polls
    refine ⟨new ++ old, ?_, ?_⟩
    · show new ++ s.trace = _
      rw [hold, List.append_assoc]
    · rw [polled_append, polled_of_quiet hnew, hids, List.nil_append]

theorem Turn.of_vm (h : Turn start root ids s) (vm : Vm F σ) (frames : List Frame)
    (hroot : vm.root = s.vm.root) : Turn start root ids { s with vm, frames } :=
  ⟨h.blamed, hroot.trans h.root, h.polls⟩

theorem Turn.extends (h : Turn start root ids s) (hext : Extends s t) :
    Turn start root ids t := by
  obtain ⟨new, htrace, hinner⟩ := hext.trace
  have hquiet := (h.quiet fun e he => Label.quiet_of_inner (hinner e he)).of_vm t.vm t.frames
    hext.root
  rw [← htrace] at hquiet
  exact hquiet

/-- Recording an event that is no poll. -/
theorem Turn.log (h : Turn start root ids s) (label : Label F)
    (hlabel : ∀ id, label ≠ .polled id)
    (hfailed : ∀ fault, label = .failed fault →
      fault ≠ .stale ∧ ∀ site, fault = .panic site → ∃ x ∈ s.trace, x.Risky) :
    Turn start root ids { s with trace := ⟨label, s.vm, s.frames⟩ :: s.trace } where
  blamed := h.blamed.cons hfailed
  root := h.root
  polls := by
    obtain ⟨new, hnew, hids⟩ := h.polls
    refine ⟨⟨label, s.vm, s.frames⟩ :: new, congrArg (_ :: ·) hnew, ?_⟩
    rw [polled, List.filterMap_cons]
    split
    · exact hids
    · next id hid =>
        split at hid
        · next k hk => exact absurd hk (hlabel k)
        · cases hid

/-- Recording a poll. -/
theorem Turn.poll (h : Turn start root ids s) (id : Nat) :
    Turn start root (id :: ids) { s with trace := ⟨.polled id, s.vm, s.frames⟩ :: s.trace } where
  blamed := h.blamed.cons fun fault hfault => by cases hfault
  root := h.root
  polls := by
    obtain ⟨new, hnew, hids⟩ := h.polls
    refine ⟨⟨.polled id, s.vm, s.frames⟩ :: new, congrArg (_ :: ·) hnew, ?_⟩
    rw [polled, List.filterMap_cons]
    exact congrArg (id :: ·) hids

end

/-! ### Assertions -/

section Assertions

variable (p : Program F) (hosts : Hosts F σ) (start : List (Event F σ)) (root : Option Handle)

/-- In the middle of a turn; `running` is out of the table. -/
def During (running : Option (Nat × Handle)) (ids : List Nat) (Γ : Set Ref) (s : State F σ) :
    Prop :=
  Inv p hosts running s ∧ Turn start root ids s ∧ ∀ r ∈ Γ, s.vm.heap.Good r

/-- A turn that has failed; the machine is no longer of use. -/
def Stopped (ids : List Nat) (e : Fault) (s : State F σ) : Prop :=
  Past p hosts s.trace ∧ s.vm.heap.reads = none ∧ Turn start root ids s ∧ e ≠ .stale

variable {p hosts start root} {running : Option (Nat × Handle)} {ids : List Nat} {Γ : Set Ref}
  {α : Type}

theorem During.weaken {Δ : Set Ref} {s : State F σ}
    (h : During p hosts start root running ids Γ s) (hsub : Δ ⊆ Γ) :
    During p hosts start root running ids Δ s :=
  ⟨h.1, h.2.1, fun r hr => h.2.2 r (hsub hr)⟩

theorem During.stopped {s : State F σ} (h : During p hosts start root running ids Γ s)
    {e : Fault} (he : e ≠ .stale) : Stopped p hosts start root ids e s :=
  ⟨h.1.past, h.1.sound.heap.reads, h.2.1, he⟩

theorem Fault.Allowed.ne_stale {sites : PanicSite → Prop} {e : Fault} (h : e.Allowed sites) :
    e ≠ .stale := by
  rintro rfl
  exact h

/-- A typed program during a turn. -/
theorem Typed.during {sites : PanicSite → Prop} {m : M F σ α} {φ : α → Prop} {R : α → Set Ref}
    (h : Typed (vmTheory p hosts sites running) Γ m φ R) :
    Triple (During p hosts start root running ids Γ) m
      (fun a s => During p hosts start root running ids (Γ ∪ R a) s ∧ φ a)
      (Stopped p hosts start root ids) := by
  refine (h.triple (I := Turn start root ids) fun hi hext => hi.extends hext).conseq
    (fun _ => id) (fun a s hs => ⟨⟨hs.1, hs.2.1, hs.2.2.2⟩, hs.2.2.1⟩) fun e s hs => ?_
  exact ⟨hs.1.past, hs.1.sound.heap.reads, hs.2.1, hs.2.2.ne_stale⟩

end Assertions

/-! ### Slices -/

/-- A slice of this task: it may go on, and its result can be stored. -/
structure Slice.WellFormed (p : Program F) (task : Task) (slice : Slice) : Prop where
  promise : slice.task.promise = task.promise
  task : slice.task.WellFormed p
  error : ∀ e, slice.result = some (.error e) → ∃ message, e = .error message

/-- The references a slice leaves. -/
def Slice.refs (slice : Slice) : Set Ref :=
  slice.task.work.refs ∪ {r | ∃ o, slice.result = some (.ok o) ∧ r = .val o.handle}

/-- What a fault leaves to be stored: its text. -/
theorem Stored.of_error {e : Fault} {good : Ref → Prop} (hstale : e ≠ .stale)
    (hpanic : ∀ site, e ≠ .panic site) : Stored (.error e) good := by
  refine ⟨fun e' he => ?_, fun o ho => by cases ho⟩
  cases he
  cases e with
  | error message => exact ⟨message, rfl⟩
  | stale => exact absurd rfl hstale
  | panic site => exact absurd rfl (hpanic site)

variable [HostWorld F σ] {p : Program F} {hosts : Hosts F σ} {start : List (Event F σ)}
  {root : Option Handle} {running : Option (Nat × Handle)} {ids : List Nat} {Γ : Set Ref}

namespace M

/-- What one instruction came to. -/
def Came (r : Except Fault Step) (s : State F σ) : Prop :=
  match r with
  | .ok .continue => True
  | .ok (.blocked h) => ∃ frame frames, s.frames = frame :: frames ∧ frame.stack.head? = some h
  | .ok (.complete o) => s.vm.heap.Good (.val o.handle)
  | .error e => e ≠ .stale ∧ ∀ site, e = .panic site → ∃ x ∈ s.trace, x.Risky

omit [HostWorld F σ] in
theorem triple_step (hp : p.Fits) :
    Triple (During p hosts start root running ids ∅) (Prog.attempt (step : M F σ Step))
      (fun r s => During p hosts start root running ids ∅ s ∧ Came r s)
      (Stopped p hosts start root ids) := by
  rintro s ⟨hs, hturn, -⟩
  have htyped : Typed (vmTheory p hosts (fun _ => True) running) ∅ (step : M F σ Step)
      (fun _ => True) Step.refs := typed_step trivial trivial hp
  have hnone : ∀ r ∈ (∅ : Set Ref), s.vm.heap.Good r := fun r hr => absurd hr (Set.notMem_empty r)
  rw [Prog.exec_attempt]
  rcases hexec : (step : M F σ Step).exec s with ⟨e | r, s'⟩
  · obtain ⟨hs', hext, hallowed⟩ := htyped.error hs hnone hexec
    refine ⟨⟨hs', hturn.extends hext, fun r hr => absurd hr (Set.notMem_empty r)⟩, ?_⟩
    refine ⟨hallowed.ne_stale, fun site hsite => ?_⟩
    rw [hsite] at hexec
    exact step_panic hp hs hexec
  · obtain ⟨hs', hext, -, hrefs⟩ := htyped.ok hs hnone hexec
    refine ⟨⟨hs', hturn.extends hext, fun r hr => absurd hr (Set.notMem_empty r)⟩, ?_⟩
    cases r with
    | «continue» => trivial
    | blocked promise => exact exec_step_blocked hp hs hexec
    | complete outcome => exact hrefs _ rfl

omit [HostWorld F σ] in
/-- Recording a fault. -/
theorem triple_failed {e : Fault} :
    Triple (fun s => During p hosts start root running ids ∅ s ∧ Came (.error e) s)
      (log (.failed e) : M F σ Unit)
      (fun _ s => During p hosts start root running ids ∅ s ∧ e ≠ .stale)
      (Stopped p hosts start root ids) := by
  refine Triple.modify ?_
  rintro s ⟨⟨hs, hturn, -⟩, hstale, hpanic⟩
  refine ⟨⟨hs.log _ (by simp) (by simp) (by simp), ?_, fun r hr => absurd hr
    (Set.notMem_empty r)⟩, hstale⟩
  refine hturn.log (.failed e) (by simp) fun fault hfault => ?_
  cases hfault
  exact ⟨hstale, hpanic⟩

/-- The slice of a task that runs code; its frames are still in the state. -/
structure CodeSlice (task : Task) (slice : Slice) (s : State F σ) : Prop where
  task : slice.task = { task with waiting := slice.task.waiting }
  waiting : ∀ h, slice.task.waiting = some h →
    ∃ frame frames, s.frames = frame :: frames ∧ frame.stack.head? = some h
  result : ∀ outcome, slice.result = some outcome → Stored outcome s.vm.heap.Good

omit [HostWorld F σ] in
theorem triple_runCode (hp : p.Fits) (limit : Option Nat) {task : Task}
    (hwaiting : task.waiting = none) (count remaining : Nat) (progressed : Bool) :
    Triple (During p hosts start root running ids ∅)
      (runCode limit task count remaining progressed : M F σ Slice)
      (fun slice s => During p hosts start root running ids ∅ s ∧ CodeSlice task slice s)
      (Stopped p hosts start root ids) := by
  induction count generalizing remaining progressed with
  | zero =>
      refine Triple.pure fun s hs => ⟨hs, rfl, ?_, ?_⟩
      · intro h hh
        rw [hwaiting] at hh
        cases hh
      · intro outcome ho
        cases ho
  | succ count ih =>
      rw [runCode]
      have hcount : Typed (vmTheory p hosts (fun _ => True) running) ∅
          (modifyVm fun vm => { vm with instructions := vm.instructions + 1 } : M F σ Unit)
          (fun _ => True) fun _ => ∅ :=
        typed_modifyVm (fun _ => rfl) (fun _ => rfl) (fun _ => rfl) (fun _ => rfl)
          (fun _ => rfl) (fun _ => rfl) (fun _ => rfl) (fun _ => rfl) fun _ _ => Or.inl
      refine Triple.bind (Typed.during hcount) fun _ => ?_
      have hvm : Typed (vmTheory p hosts (fun _ => True) running) (∅ ∪ ∅)
          (vm : M F σ (Vm F σ)) _ fun vm => vm.refs := typed_vm
      refine Triple.bind ((Typed.during hvm).pre fun s hs => hs.1) fun v => ?_
      dsimp only
      split
      · exact Triple.throwBind fun s hs => hs.1.stopped (by simp)
      · refine Triple.bind ((triple_step hp).pre fun s hs => hs.1.weaken (Set.empty_subset _))
          fun r => ?_
        rcases r with e | ⟨- | promise | outcome⟩
        · refine Triple.bind (triple_failed (e := e)) fun _ => ?_
          split
          · exact Triple.throw fun s hs => hs.1.stopped hs.2
          · next hpanic =>
              refine Triple.pure fun s hs => ⟨hs.1, rfl, ?_, ?_⟩
              · intro h hh
                rw [hwaiting] at hh
                cases hh
              · intro o ho
                cases ho
                exact .of_error hs.2 fun site he => hpanic site he
        · exact (ih _ _).pre fun s hs => hs.1
        · refine Triple.pure fun s hs => ⟨hs.1, rfl, ?_, fun o ho => by cases ho⟩
          intro h hh
          cases hh
          exact hs.2
        · refine Triple.pure fun s hs => ⟨hs.1, rfl, ?_, ?_⟩
          · intro h hh
            rw [hwaiting] at hh
            cases hh
          · intro o ho
            cases ho
            refine ⟨nofun, fun o ho => ?_⟩
            cases ho
            exact hs.2

/-- A task that runs no code. -/
theorem typed_runTask {sites : PanicSite → Prop} (limit : Option Nat) {task : Task}
    (hwf : task.WellFormed p) (hwaiting : task.waiting = none) (hrefs : task.work.refs ⊆ Γ)
    (hcode : ∀ frames, task.work ≠ .code frames) (progress : Progress) :
    Typed (vmTheory p hosts sites running) Γ (runTask limit task progress : M F σ Slice)
      (Slice.WellFormed p task) Slice.refs := by
  rw [runTask]
  split
  · next promise hwork =>
      rw [hwork] at hrefs
      have hwaits : (Task.mk task.promise task.work (some promise) task.completion).WellFormed p :=
        ⟨hwf.1, fun h hh => by cases hh; exact Or.inl hwork⟩
      refine Typed.bind (typed_get (hrefs rfl)) fun v hv => ?_
      split
      · next outcome =>
          refine Typed.pure ⟨rfl, hwf, ?_⟩ ?_
          · intro e he
            cases he
            exact hv.1
          · rintro r (hr | ⟨o, ho, rfl⟩)
            · have hr : r ∈ task.work.refs := hr
              rw [hwork] at hr
              exact Or.inl (hrefs hr)
            · cases ho
              exact Or.inr rfl
      · refine Typed.pure ⟨rfl, hwaits, fun e he => by cases he⟩ ?_
        rintro r (hr | ⟨o, ho, -⟩)
        · have hr : r ∈ task.work.refs := hr
          rw [hwork] at hr
          exact Or.inl (hrefs hr)
        · cases ho
      · exact typed_error _
  · next join hwork =>
      have hjoin : join.WellFormed := by
        have := hwf.1
        rwa [hwork] at this
      rw [hwork] at hrefs
      refine Typed.bind (typed_pollJoin hjoin hrefs _) fun x hx => ?_
      obtain ⟨join', outcome, remaining⟩ := x
      refine Typed.pure ⟨rfl, ⟨hx, ?_⟩, ?_⟩ ?_
      · intro h hh
        rw [hwaiting] at hh
        cases hh
      · intro e he
        cases outcome <;> cases he
      · rintro r (hr | ⟨o, ho, rfl⟩)
        · exact Or.inr (Or.inl hr)
        · refine Or.inr (Or.inr ⟨o, ?_, rfl⟩)
          cases outcome with
          | none => cases ho
          | some o' =>
              cases ho
              rfl
  · next work hwork =>
      have hdistinct : work.result.CasesDistinct := by
        have := hwf.1
        rwa [hwork] at this
      have htask : ({ task with work := .host { work with ready := false } } : Task).WellFormed p :=
        ⟨hdistinct, fun h hh => by rw [hwaiting] at hh; cases hh⟩
      refine Typed.bind typed_vm fun vm _ => ?_
      dsimp only
      refine Typed.bind (typed_acts _ _) fun _ _ => ?_
      split
      · refine Typed.pure ⟨rfl, htask, fun e he => by cases he⟩ ?_
        rintro r (hr | ⟨o, ho, -⟩)
        · exact absurd hr (Set.notMem_empty r)
        · cases ho
      · next value _ =>
          refine Typed.bind (typed_hostResult hdistinct).attempt fun result hresult => ?_
          have hleaf : ∀ Δ : Set Ref, ({ task with work := .host { work with ready := false } } :
              Task).work.refs ⊆ Δ := fun Δ => Set.empty_subset Δ
          rcases result with (message | - | site) | h
          · refine Typed.pure ⟨rfl, htask, fun e he => ?_⟩ ?_
            · cases he
              exact ⟨message, rfl⟩
            · rintro r (hr | ⟨o, ho, -⟩)
              · exact hleaf _ hr
              · cases ho
          · exact hresult.elim
          · exact Typed.throw hresult
          · refine Typed.pure ⟨rfl, htask, fun e he => by cases he⟩ ?_
            rintro r (hr | ⟨o, ho, rfl⟩)
            · exact hleaf _ hr
            · cases ho
              exact Or.inr rfl
  · next frames hwork => exact absurd hwork (hcode frames)

theorem triple_runTask (hp : p.Fits) (limit : Option Nat) {task : Task}
    (hwf : task.WellFormed p) (hwaiting : task.waiting = none) (progress : Progress) :
    Triple (During p hosts start root running ids task.work.refs)
      (runTask limit task progress : M F σ Slice)
      (fun slice s =>
        During p hosts start root running ids slice.refs s ∧ slice.WellFormed p task)
      (Stopped p hosts start root ids) := by
  by_cases hcode : ∃ frames, task.work = .code frames
  · obtain ⟨frames, hwork⟩ := hcode
    obtain ⟨hframes, hdepth⟩ : (∀ frame ∈ frames, frame.WellFormed p) ∧ frames.length ≤ 1024 := by
      have := hwf.1
      rwa [hwork] at this
    unfold runTask
    rw [hwork]
    dsimp only
    -- the frames of the task become the call stack
    refine Triple.bind (Q := fun _ => During p hosts start root running ids ∅)
      (Triple.modify fun s hs => ?_) fun _ => ?_
    · obtain ⟨hinv, hturn, hrefs⟩ := hs
      exact ⟨hinv.of_frames frames (fun r hr => hrefs r hr) hframes hdepth,
        hturn.of_vm s.vm frames rfl, fun r hr => absurd hr (Set.notMem_empty r)⟩
    refine Triple.bind (triple_runCode hp limit hwaiting _ _ _) fun slice => ?_
    refine Triple.bind (Q := fun frames s => (During p hosts start root running ids ∅ s ∧
      CodeSlice task slice s) ∧ frames = s.frames) (Triple.reads ?_ ?_) fun frames => ?_
    · intro s frames hs hframes
      cases hframes
      exact ⟨hs, rfl⟩
    · intro s e hs he
      cases he
    refine Triple.bind (Q := fun _ s =>
      During p hosts start root running ids (framesRefs frames) s ∧
        (∀ frame ∈ frames, frame.WellFormed p) ∧ frames.length ≤ 1024 ∧
        slice.task = { task with waiting := slice.task.waiting } ∧
        (∀ h, slice.task.waiting = some h →
          ∃ frame rest, frames = frame :: rest ∧ frame.stack.head? = some h) ∧
        ∀ outcome, slice.result = some outcome → Stored outcome s.vm.heap.Good)
      (Triple.modify ?_) fun _ => ?_
    · rintro s ⟨⟨⟨hinv, hturn, -⟩, hslice⟩, rfl⟩
      have hnil := hinv.of_frames [] (fun r hr => by
        obtain ⟨frame, hframe, -⟩ := hr
        exact absurd hframe List.not_mem_nil) (fun frame hframe => absurd hframe
        List.not_mem_nil) (Nat.zero_le _)
      exact ⟨⟨hnil, hturn.of_vm s.vm [] rfl, hinv.sound.frameRefs⟩, hinv.sound.wellFormed,
        hinv.sound.depth, hslice.task, hslice.waiting, hslice.result⟩
    · refine Triple.pure ?_
      rintro s ⟨⟨hinv, hturn, hrefs⟩, hframes, hdepth, htask, hwaits, hresult⟩
      refine ⟨⟨hinv, hturn, ?_⟩, ?_, ⟨⟨hframes, hdepth⟩, ?_⟩, ?_⟩
      · rintro r (hr | ⟨o, ho, rfl⟩)
        · exact hrefs r hr
        · exact (hresult _ ho).2 o rfl
      · show slice.task.promise = task.promise
        rw [htask]
      · intro h hh
        obtain ⟨frame, rest, hcons, hhead⟩ := hwaits h hh
        exact Or.inr ⟨frame, rest, by rw [hcons], hhead⟩
      · exact fun e he => (hresult _ he).1 e rfl
  · have htyped : Typed (vmTheory p hosts (fun _ => True) running) task.work.refs
        (runTask limit task progress : M F σ Slice) (Slice.WellFormed p task) Slice.refs :=
      typed_runTask limit hwf hwaiting (Set.Subset.refl _)
        (fun frames hwork => hcode ⟨frames, hwork⟩) progress
    refine (Typed.during htyped).post fun slice s hs => ⟨hs.1.weaken ?_, hs.2⟩
    exact Set.subset_union_right

end M

end Deka.Vm
