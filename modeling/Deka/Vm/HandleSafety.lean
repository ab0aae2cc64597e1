/-
Deka/Vm/HandleSafety.lean

Garbage collection never frees a handle the machine still stores.

`Vm.stored` lists the handles of a machine without asking which of them are roots
of a collection; `HandlesLive` says that all of them, and all handles inside live
values, refer to a live slot of their generation.
-/
import Deka.Vm.RunTyping
import Deka.Vm.Sample

namespace Deka.Vm

open Deka.Lib

set_option linter.dupNamespace false

variable {F σ : Type} {p : Program F} {hosts : Hosts F σ}

/-! ### Stored handles -/

def Frame.stored (frame : Frame) : List Handle :=
  frame.locals ++ frame.stack ++ frame.slotChildren.toList ++ frame.thenCall.getD []

def Join.stored (join : Join) : List Handle :=
  join.inputs ++ join.values.filterMap id ++ (join.first.map fun x => x.2.2.handle).toList

def Work.stored : Work → List Handle
  | .code frames => frames.flatMap Frame.stored
  | .join j => j.stored
  | .callbackWait promise => [promise]
  | .host _ => []

def Task.stored (task : Task) : List Handle :=
  task.promise :: (task.waiting.toList ++ task.work.stored)

def Vm.stored (vm : Vm F σ) : List Handle :=
  vm.root.toList ++ vm.pins ++ vm.descriptors.values ++ vm.context.callbacks.values ++
    vm.tasks.values.flatMap Task.stored

/-- Every handle the machine stores is live, and so is every handle in a live value. -/
structure Vm.HandlesLive (vm : Vm F σ) : Prop where
  stored : ∀ h ∈ vm.stored, ∃ v, vm.heap.lookup h = some v
  inside : ∀ h v, vm.heap.lookup h = some v → ∀ r ∈ v.refs, ∃ w, vm.heap.lookup r.handle = some w

/-! ### Stored handles are live -/

/-- What a frame stores, it holds as a reference. -/
theorem Frame.mem_refs_of_stored {frame : Frame} {h : Handle} (hh : h ∈ frame.stored) :
    ∃ r ∈ frame.refs, r.handle = h := by
  refine Frame.mem_roots.mp ?_
  rw [Frame.stored] at hh
  simpa only [List.mem_append, List.mem_reverse] using hh

/-- The first outcome of a join is the value of a settled input, which holds it. -/
theorem Join.live_of_stored {join : Join} {H : Heap F} (hH : H.Typed p) (hwf : join.WellFormed)
    (hrefs : ∀ r ∈ join.refs, H.Good r) {h : Handle} (hh : h ∈ join.stored) :
    ∃ v, H.lookup h = some v := by
  rcases List.mem_append.mp hh with hh | hh
  · rcases List.mem_append.mp hh with hh | hh
    · exact (hrefs (.val h) (Or.inl (Or.inl ⟨h, hh, rfl⟩))).live
    · exact (hrefs (.val h) (Or.inl (Or.inr ⟨h, hh, rfl⟩))).live
  · rcases hfirst : join.first with - | x
    · rw [hfirst] at hh
      exact absurd hh List.not_mem_nil
    · rw [hfirst] at hh
      obtain ⟨promise, hinput⟩ := hwf.2 x hfirst
      have hsettled : H.lookup promise = some (.promise (some (.ok x.2.2))) :=
        hrefs _ (Or.inr ⟨x, promise, hfirst, hinput, rfl⟩)
      rw [List.mem_singleton.mp hh]
      exact (hH.good promise _ hsettled (.val x.2.2.handle) rfl).live

/-- The promise a task waits for is in its work. -/
theorem Task.live_of_stored {task : Task} {H : Heap F} (hH : H.Typed p)
    (hwf : task.WellFormed p) (hrefs : ∀ r ∈ task.refs, H.Good r) {h : Handle}
    (hh : h ∈ task.stored) : ∃ v, H.lookup h = some v := by
  rcases List.mem_cons.mp hh with rfl | hh
  · exact (hrefs _ (Or.inl rfl)).live
  rcases List.mem_append.mp hh with hh | hh
  · rcases hwf.2 h (Option.mem_toList.mp hh) with hwork | ⟨frame, frames, hwork, hhead⟩
    · exact (hrefs (.val h) (Or.inr (by rw [hwork]; rfl))).live
    · have hmem : h ∈ frame.stack := List.mem_of_mem_head? hhead
      refine (hrefs (.val h) (Or.inr ?_)).live
      rw [hwork]
      exact ⟨frame, List.mem_cons_self, Or.inl (Or.inl (Or.inr ⟨h, hmem, rfl⟩))⟩
  · rcases hwork : task.work with frames | join | promise | work
    · rw [hwork] at hh
      obtain ⟨frame, hframe, hh⟩ := List.mem_flatMap.mp hh
      obtain ⟨r, hr, rfl⟩ := Frame.mem_refs_of_stored hh
      exact (hrefs r (Or.inr (by rw [hwork]; exact ⟨frame, hframe, hr⟩))).live
    · rw [hwork] at hh
      have hjoin := hwf.1
      rw [hwork] at hjoin
      refine Join.live_of_stored hH hjoin (fun r hr => hrefs r (Or.inr ?_)) hh
      rw [hwork]
      exact hr
    · rw [hwork] at hh
      rw [List.mem_singleton.mp hh]
      exact (hrefs (.val promise) (Or.inr (by rw [hwork]; rfl))).live
    · rw [hwork] at hh
      exact absurd hh List.not_mem_nil

theorem Vm.Sound.handlesLive {vm : Vm F σ} {frames : List Frame} (h : vm.Sound p hosts frames) :
    vm.HandlesLive where
  stored := by
    intro k hk
    rcases List.mem_append.mp hk with hk | hk
    · exact (h.refs (.val k) (Or.inl ⟨k, hk, rfl⟩)).live
    · obtain ⟨task, htask, hk⟩ := List.mem_flatMap.mp hk
      obtain ⟨e, he, rfl⟩ := List.mem_map.mp htask
      exact Task.live_of_stored h.heap (h.tasks e he) (fun r hr => h.refs r (Or.inr ⟨e, he, hr⟩)) hk
  inside := fun k v hv r hr => (h.heap.good k v hv r hr).live

/-! ### Runs -/

section Runs

variable [Platform F] [HostWorld F σ]

omit [Platform F] in
/-- A collection from a sound machine does not fail on a stale handle. -/
theorem Vm.Sound.collect_ne_stale {vm : Vm F σ} {frames : List Frame}
    (h : vm.Sound p hosts frames) : (vm.heap.collect vm.collectRoots).1 ≠ .error .stale := by
  have hclosed : vm.heap.Closed vm.collectRoots := h.heap.closed fun k hk => h.roots_live hk
  rcases Heap.collect_spec h.heap.rep h.heap.reads hclosed with ⟨K, hcollect, -⟩ | ⟨K, hcollect, -⟩
  · rw [hcollect]
    nofun
  · rw [hcollect]
    simp

/-- **No stale handles.**  In every run of a validated program no instruction and no
collection meets a stale handle, nor does what is asked of the machine next; and
after every turn that succeeds all handles the machine stores are live. -/
theorem Reachable.handles_live {s : State F σ} (h : Reachable p hosts s) :
    (∀ e ∈ s.trace, e.label ≠ .failed .stale ∧
      (e.label = .collected → (e.vm.heap.collect e.vm.collectRoots).1 ≠ .error .stale)) ∧
    (∀ input : Input F σ, ((input.program : M F σ Unit).exec s).1 ≠ .error .stale) ∧
    (s.vm.root ≠ none → ∀ (budget : Nat) (limit : Option Nat),
      match (M.drive budget none limit : M F σ Progress).exec s with
      | (.ok _, t) => t.vm.HandlesLive
      | (.error e, _) => e ≠ .stale) := by
  have hrest := h.resting
  refine ⟨fun e he => ⟨fun hl => ?_, fun _ => (hrest.past.sound e he).collect_ne_stale⟩, ?_, ?_⟩
  · exact (hrest.blamed e he .stale hl).1 rfl
  · intro input
    have hinput := M.triple_input h.fits input s hrest
    rcases hexec : (input.program : M F σ Unit).exec s with ⟨e | u, t⟩
    · rw [hexec] at hinput
      simpa using hinput.2
    · simp
  · intro hroot budget limit
    have hdrive := M.triple_driveRest h.fits budget none limit s ⟨hrest, hroot⟩
    rcases hexec : (M.drive budget none limit : M F σ Progress).exec s with ⟨e | progress, t⟩
    · rw [hexec] at hdrive
      exact hdrive.2
    · rw [hexec] at hdrive
      exact hdrive.1.sound.handlesLive

/-- A program that returns a list of a list. -/
def Program.nested : Program Int := .single 1 [.const .unit, .list 1, .list 1, .return]

/-- One turn of it ends with live handles. -/
theorem handles_live_nested :
    ((Input.turn 100 : Input Int Unit).program.exec (State.begin .nested)).1 ≠ .error .stale ∧
      match (M.drive 100 none none : M Int Unit Progress).exec (State.begin .nested) with
      | (.ok _, t) => t.vm.HandlesLive
      | (.error e, _) => e ≠ .stale :=
  have hreach : Reachable Program.nested ({} : Hosts Int Unit) (State.begin .nested) :=
    .begin (by decide)
  ⟨(Reachable.handles_live hreach).2.1 (.turn 100),
    (Reachable.handles_live hreach).2.2 (by decide) 100 none⟩

end Runs

end Deka.Vm
