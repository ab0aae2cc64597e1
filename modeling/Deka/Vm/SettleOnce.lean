/-
Deka/Vm/SettleOnce.lean

Promises settle once, and every task is accounted for.

The trace of a run shows every settlement.  Its past (`Past`) says that a promise was
pending when it settled and kept its outcome ever after; the account of the task
table (`Accounted`) says which of the spawned tasks are still there.
-/
import Deka.Vm.RunTyping
import Deka.Vm.Sample

namespace Deka.Vm

open Deka.Lib

set_option linter.dupNamespace false

variable {F σ : Type} {p : Program F} {hosts : Hosts F σ}

/-! ### What a join can fail with -/

namespace M

/-- Looking at an input leaves the machine alone, and every settled promise has its
place in the settlement order. -/
theorem exec_visitInput {t : State F σ} (hord : t.vm.Ordered) (join : Join)
    {promise : Handle} {v : Value F} (hv : t.vm.heap.lookup promise = some v) :
    (∃ j, (visitInput join promise : M F σ Join).exec t = (.ok j, t) ∧
      j.inputs = join.inputs) ∨
    ∃ fault, (visitInput join promise : M F σ Join).exec t = (.error fault, t) ∧
      (v = .promise (some (.error fault)) ∨
        fault = .error "promise combinator requires promises") := by
  have hget : (get promise : M F σ (Value F)).exec t = (.ok v, t) := by
    rw [get, liftHeap, Prog.exec_within, HeapM.get, Prog.exec_reads, Heap.get_of_lookup hv]
  unfold visitInput
  rw [Prog.exec_bind_ok hget]
  cases v with
  | promise state =>
      rcases state with - | (e | outcome)
      · exact Or.inl ⟨join, rfl, rfl⟩
      · exact Or.inr ⟨e, rfl, Or.inl rfl⟩
      · have hsettled : t.vm.heap.settled promise = true := by
          rw [Heap.settled, hv]
          rfl
        obtain ⟨epoch, hepoch⟩ := hord promise hsettled
        have hvm : (vm : M F σ (Vm F σ)).exec t = (.ok t.vm, t) := rfl
        dsimp only
        split
        · rw [Prog.exec_bind_ok hvm, hepoch]
          exact Or.inl ⟨_, rfl, (Join.candidate_inputs _ _ _).trans (Join.keep_inputs _ _)⟩
        · exact Or.inl ⟨_, rfl, Join.keep_inputs _ _⟩
  | _ => exact Or.inr ⟨_, rfl, Or.inr rfl⟩

/-- A scan fails only with what an input failed with. -/
theorem exec_scanInputs {t : State F σ} (hord : t.vm.Ordered) {join : Join}
    (hlive : ∀ h ∈ join.inputs, ∃ v, t.vm.heap.lookup h = some v) (count remaining : Nat) :
    (∃ r, (scanInputs count join remaining : M F σ (Join × Nat)).exec t = (.ok r, t)) ∨
    ∃ fault, (scanInputs count join remaining : M F σ (Join × Nat)).exec t =
        (.error fault, t) ∧
      ((∃ h ∈ join.inputs, t.vm.heap.lookup h = some (.promise (some (.error fault)))) ∨
        fault = .error "promise combinator requires promises") := by
  induction count generalizing join remaining with
  | zero => exact Or.inl ⟨_, rfl⟩
  | succ count ih =>
      rw [scanInputs]
      rcases hinput : join.inputs[join.cursor]? with - | promise
      · exact Or.inl ⟨_, rfl⟩
      · have hmem : promise ∈ join.inputs := List.mem_of_getElem? hinput
        obtain ⟨v, hv⟩ := hlive promise hmem
        rcases exec_visitInput hord join hv with
          ⟨j, hvisit, hinputs⟩ | ⟨fault, hvisit, hcause⟩
        · dsimp only
          rw [Prog.exec_bind_ok hvisit, ← hinputs]
          exact @ih { j with cursor := j.cursor + 1 } (fun h hh => hlive h (hinputs ▸ hh))
            (remaining - 1)
        · refine Or.inr ⟨fault, Prog.exec_bind_error hvisit, ?_⟩
          rcases hcause with rfl | hfault
          · exact Or.inl ⟨promise, hmem, hv⟩
          · exact Or.inr hfault

/-- What a scan leaves is always an outcome or a join. -/
theorem exec_concludeJoin (join : Join) (t : State F σ) :
    ∃ r t', (concludeJoin join : M F σ (Join × Option Outcome)).exec t = (.ok r, t') := by
  unfold concludeJoin
  split
  · exact ⟨_, _, rfl⟩
  · split
    · split
      · exact ⟨_, _, rfl⟩
      · exact ⟨_, _, rfl⟩
    · split
      · exact ⟨_, _, rfl⟩
      · exact ⟨_, _, rfl⟩

/-- **A join never misses a settlement order**: polling it fails only with the fault of
an input that failed, or because an input is no promise. -/
theorem exec_pollJoin {t : State F σ} (hord : t.vm.Ordered) {join : Join}
    (hlive : ∀ h ∈ join.inputs, ∃ v, t.vm.heap.lookup h = some v) (remaining : Nat)
    {fault : Fault} {t' : State F σ}
    (h : (pollJoin join remaining : M F σ (Join × Option Outcome × Nat)).exec t =
      (.error fault, t')) :
    (∃ h ∈ join.inputs, t.vm.heap.lookup h = some (.promise (some (.error fault)))) ∨
      fault = .error "promise combinator requires promises" := by
  unfold pollJoin at h
  have hvm : (vm : M F σ (Vm F σ)).exec t = (.ok t.vm, t) := rfl
  rw [Prog.exec_bind_ok hvm] at h
  have hstart : ∀ epoch, (if join.cursor = 0 then { join with scanEpoch := epoch } else join :
      Join).inputs = join.inputs := by
    intro epoch
    split <;> rfl
  have hlive' := fun k hk => hlive k (hstart t.vm.completionEpoch ▸ hk)
  rcases exec_scanInputs hord hlive' (min 256 remaining) remaining with
    ⟨r, hscan⟩ | ⟨fault', hscan, hcause⟩
  · dsimp only at h
    rw [Prog.exec_bind_ok hscan] at h
    obtain ⟨c, t₁, hconclude⟩ := exec_concludeJoin r.1 t
    rw [Prog.exec_bind_ok hconclude] at h
    cases h
  · dsimp only at h
    rw [Prog.exec_bind_error hscan] at h
    cases h
    rwa [hstart] at hcause

end M

/-! ### Settlements -/

section Runs

variable [Platform F] [HostWorld F σ]

/-- What a run keeps of promises, the settlement order and the task table. -/
structure SettlesOnce (s : State F σ) : Prop where
  /-- a promise is pending when it settles -/
  pending : ∀ e ∈ s.trace, ∀ k outcome, e.label = .settled k outcome →
    e.vm.heap.lookup k = some (.promise none)
  /-- and never again; the epoch has grown by then -/
  once : s.trace.Pairwise fun new old => ∀ k outcome, old.label = .settled k outcome →
    (∀ outcome', new.label ≠ .settled k outcome') ∧ new.vm.Ended k outcome ∧
      old.vm.completionEpoch < new.vm.completionEpoch
  /-- a settled promise keeps its outcome until it is collected -/
  stays : s.trace.Pairwise fun new old => old.vm.completionEpoch ≤ new.vm.completionEpoch ∧
    ∀ k outcome, old.vm.heap.lookup k = some (.promise (some outcome)) →
      new.vm.Ended k outcome
  /-- every live settled promise has exactly one place in the settlement order -/
  ordered : ∀ e ∈ s.trace, ∀ k, e.vm.heap.settled k = true →
    ∃ epoch ≤ e.vm.completionEpoch, ∀ epoch',
      (k, epoch') ∈ e.vm.completionOrder ↔ epoch' = epoch
  /-- so a join fails only with what an input failed with -/
  joins : ∀ e ∈ s.trace, ∀ x ∈ e.vm.tasks, ∀ join, x.2.work = .join join →
    ∀ t : State F σ, t.vm.heap = e.vm.heap → t.vm.completionOrder = e.vm.completionOrder →
      ∀ remaining fault t',
        (M.pollJoin join remaining : M F σ (Join × Option Outcome × Nat)).exec t =
          (.error fault, t') →
        (∃ h ∈ join.inputs, t.vm.heap.lookup h = some (.promise (some (.error fault)))) ∨
          fault = .error "promise combinator requires promises"
  /-- a spawned task is in the table until its promise settles or it is cancelled -/
  accounted : s.vm.root ≠ none → ∀ e ∈ s.trace, ∀ id k, e.label = .spawned id k →
    ((∃ task, (id, task) ∈ s.vm.tasks ∧ task.promise = k) ↔ ¬ Done s.trace id k)
  /-- no turn polls a task twice -/
  turns : s.vm.root ≠ none → ∀ budget only limit, ∃ new,
    ((M.drive budget only limit : M F σ Progress).exec s).2.trace = new ++ s.trace ∧
      (polled new).Nodup

omit [Platform F] [HostWorld F σ] in
theorem Past.once {trace : List (Event F σ)} (h : Past p hosts trace) :
    trace.Pairwise fun new old => ∀ k outcome, old.label = .settled k outcome →
      (∀ outcome', new.label ≠ .settled k outcome') ∧ new.vm.Ended k outcome ∧
        old.vm.completionEpoch < new.vm.completionEpoch := by
  refine List.Pairwise.imp_of_mem ?_ h.pairwise
  intro new old hnew hold hbefore k outcome hl
  obtain ⟨hlt, hended⟩ := hbefore.settled k outcome hl
  refine ⟨fun outcome' hl' => ?_, hended, hlt⟩
  have hpending := h.fresh new hnew k outcome' hl'
  rcases hended with hended | hfreed
  · rw [hpending] at hended
    cases hended
  · rw [hfreed.lookup] at hpending
    cases hpending

omit [Platform F] [HostWorld F σ] in
theorem Past.stays {trace : List (Event F σ)} (h : Past p hosts trace) :
    trace.Pairwise fun new old => old.vm.completionEpoch ≤ new.vm.completionEpoch ∧
      ∀ k outcome, old.vm.heap.lookup k = some (.promise (some outcome)) →
        new.vm.Ended k outcome := by
  refine h.pairwise.imp ?_
  intro new old hbefore
  exact ⟨hbefore.follows.epoch, fun k outcome hk =>
    Vm.Ended.follows hbefore.follows (Or.inl hk)⟩

omit [Platform F] [HostWorld F σ] in
/-- The place of a settled promise. -/
theorem Vm.Sound.place {vm : Vm F σ} {frames : List Frame} (h : vm.Sound p hosts frames)
    (hord : vm.Ordered) {k : Handle} (hk : vm.heap.settled k = true) :
    ∃ epoch ≤ vm.completionEpoch, ∀ epoch',
      (k, epoch') ∈ vm.completionOrder ↔ epoch' = epoch := by
  obtain ⟨epoch, hepoch⟩ := hord k hk
  refine ⟨epoch, h.epochs k epoch hepoch, fun epoch' => ⟨fun hmem => ?_, ?_⟩⟩
  · rw [BTreeMap.get?_of_mem h.orderKeys hmem] at hepoch
    cases hepoch
    rfl
  · rintro rfl
    exact BTreeMap.mem_of_get? hepoch

omit [Platform F] [HostWorld F σ] in
/-- The inputs of a join in the table are live. -/
theorem Vm.Sound.inputs_live {vm : Vm F σ} {frames : List Frame} (h : vm.Sound p hosts frames)
    {x : Nat × Task} (hx : x ∈ vm.tasks) {join : Join} (hwork : x.2.work = .join join) :
    ∀ k ∈ join.inputs, ∃ v, vm.heap.lookup k = some v := by
  intro k hk
  refine (h.refs (.val k) (Or.inr ⟨x, hx, Or.inr ?_⟩)).live
  rw [hwork]
  exact Or.inl (Or.inl ⟨k, hk, rfl⟩)

omit [Platform F] [HostWorld F σ] in
/-- A task of the table has neither settled nor been cancelled. -/
theorem Inv.not_done {s : State F σ} (h : Inv p hosts none s) {id : Nat} {task : Task}
    (hmem : (id, task) ∈ s.vm.tasks) : ¬ Done s.trace id task.promise := by
  rintro ⟨e, he, ⟨outcome, hl⟩ | hl⟩
  · have hpending := h.sound.pending (List.mem_map.mpr ⟨(id, task), hmem, rfl⟩)
    rcases ((h.before e he).settled _ _ hl).2 with hended | hfreed
    · rw [hpending] at hended
      cases hended
    · rw [hfreed.lookup] at hpending
      cases hpending
  · exact (h.accounted.cancelled e he id hl).1 (List.mem_map.mpr ⟨_, hmem, rfl⟩)

/-- **Settle once.**  In every run in which no newtype wraps a promise, promises settle
at most once and for good, the settlement order knows all of them, and every task is
in the table until its promise settles or it is cancelled. -/
theorem Reachable.settlesOnce {s : State F σ} (h : Reachable p hosts s)
    (hwrap : NoWrap s.trace) : SettlesOnce s := by
  have hrest := h.resting
  constructor
  · exact hrest.past.fresh
  · exact hrest.past.once
  · exact hrest.past.stays
  · exact fun e he k hk => (hrest.past.sound e he).place (hrest.past.ordered hwrap e he) hk
  · intro e he x hx join hwork t hheap horder remaining fault t' hpoll
    refine M.exec_pollJoin ?_ ?_ remaining hpoll
    · intro k hk
      rw [hheap] at hk
      rw [horder]
      exact hrest.past.ordered hwrap e he k hk
    · rw [hheap]
      exact (hrest.past.sound e he).inputs_live hx hwork
  · intro hroot e he id k hl
    have hinv := hrest.machine.resolve_left hroot
    constructor
    · rintro ⟨task, hmem, rfl⟩
      exact hinv.not_done hmem
    · intro hdone
      rcases hinv.accounted.spawned e he id k hl with htask | hrunning | hd
      · exact htask
      · cases hrunning
      · exact absurd hd hdone
  · intro hroot budget only limit
    have hdrive := M.triple_driveFrom h.fits hosts s.trace budget only limit s
      ⟨hrest, hroot, rfl⟩
    rcases hexec : (M.drive budget only limit : M F σ Progress).exec s with ⟨e | progress, t⟩
    · rw [hexec] at hdrive
      exact hdrive.2
    · rw [hexec] at hdrive
      exact hdrive.2

/-- Whether an event wraps a promise. -/
def Event.wraps (e : Event F σ) : Bool :=
  match e.label with
  | .newtype v => v.isPromise
  | _ => false

omit [Platform F] [HostWorld F σ] in
theorem noWrap_of_any {trace : List (Event F σ)} (h : trace.any Event.wraps = false) :
    NoWrap trace := by
  intro e he v hl
  have hwraps := List.any_eq_false.mp h e he
  rw [Event.wraps, hl] at hwraps
  simpa using hwraps

/-- A program that awaits the join of no promises. -/
def Program.awaitNothing : Program Int :=
  .single 1 [.list 0, .promiseJoin .all, .await, .return]

/-- Two turns of it settle every promise once. -/
theorem settlesOnce_awaitNothing :
    SettlesOnce ((Input.turn 100 : Input Int Unit).apply
      ((Input.turn 100 : Input Int Unit).apply (State.begin .awaitNothing))) := by
  have hreach : Reachable Program.awaitNothing ({} : Hosts Int Unit)
      (State.begin .awaitNothing) := .begin (by decide)
  have hwrap : ((Input.turn 100 : Input Int Unit).apply ((Input.turn 100 : Input Int Unit).apply
      (State.begin .awaitNothing))).trace.any Event.wraps = false := by decide +kernel
  exact Reachable.settlesOnce ((hreach.input (.turn 100)).input (.turn 100))
    (noWrap_of_any hwrap)

end Runs

end Deka.Vm
