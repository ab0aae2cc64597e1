/-
Deka/Vm/RunTyping.lean

Runs: what holds of a machine between any two inputs.

A machine that was not cancelled is sound (`Inv`); one that was cancelled, by the
embedder or by a failure, has no root and takes no further step.  Either way the
trace so far is a past, and no instruction in it failed on a stale handle.
-/
import Deka.Vm.TurnTyping

namespace Deka.Vm

open Deka.Lib

set_option linter.dupNamespace false

variable {F σ : Type} [Platform F] [HostWorld F σ] {p : Program F} {hosts : Hosts F σ}

/-- A machine between two inputs. -/
structure Resting (p : Program F) (hosts : Hosts F σ) (s : State F σ) : Prop where
  machine : s.vm.root = none ∨ Inv p hosts none s
  past : Past p hosts s.trace
  blamed : Blamed s.trace
  reads : s.vm.heap.reads = none

/-- A failure left the machine as it was then. -/
structure Broken (p : Program F) (hosts : Hosts F σ) (s : State F σ) : Prop where
  past : Past p hosts s.trace
  blamed : Blamed s.trace
  reads : s.vm.heap.reads = none

omit [HostWorld F σ] in
theorem Resting.broken {s : State F σ} (h : Resting p hosts s) : Broken p hosts s :=
  ⟨h.past, h.blamed, h.reads⟩

omit [HostWorld F σ] in
theorem Inv.resting {s : State F σ} (h : Inv p hosts none s) (hblamed : Blamed s.trace) :
    Resting p hosts s :=
  ⟨Or.inr h, h.past, hblamed, h.sound.heap.reads⟩

/-! ### The start -/

omit [Platform F] [HostWorld F σ] in
/-- A machine with nothing in it is sound. -/
theorem inv_empty (world : σ) : Inv p hosts none { vm := Vm.empty p hosts world } := by
  have hempty : ∀ h : Handle, ({} : Heap F).lookup h = none := fun h => rfl
  constructor
  · constructor
    · rfl
    · rfl
    · refine ⟨Heap.rep_empty, rfl, fun h v hv => ?_, fun h v hv => ?_⟩
      · rw [show (Vm.empty p hosts world).heap = {} from rfl, hempty] at hv
        cases hv
      · rw [show (Vm.empty p hosts world).heap = {} from rfl, hempty] at hv
        cases hv
    · rintro r (⟨h, hh, -⟩ | ⟨e, he, -⟩)
      · exact absurd hh List.not_mem_nil
      · exact absurd he List.not_mem_nil
    · rintro r ⟨frame, hframe, -⟩
      exact absurd hframe List.not_mem_nil
    · exact fun frame hframe => absurd hframe List.not_mem_nil
    · exact Nat.zero_le _
    · exact fun e he => absurd he List.not_mem_nil
    · exact List.nodup_nil
    · exact fun id hid => absurd hid List.not_mem_nil
    · exact List.nodup_nil
    · exact List.nodup_nil
    · intro h e he
      rw [show (Vm.empty p hosts world).completionOrder.get? h = none from rfl] at he
      cases he
  · exact ⟨fun e he => absurd he List.not_mem_nil, .nil,
      fun e he => absurd he List.not_mem_nil, fun _ e he => absurd he List.not_mem_nil⟩
  · exact fun e he => absurd he List.not_mem_nil
  · intro hw h hh
    have hh : ({} : Heap F).settled h = true := hh
    rw [Heap.settled, hempty] at hh
    cases hh
  · exact ⟨fun e he => absurd he List.not_mem_nil, fun e he => absurd he List.not_mem_nil,
      fun e he => absurd he List.not_mem_nil, fun id task h => by cases h⟩

omit [Platform F] [HostWorld F σ] in
/-- Making a live value the root. -/
theorem Inv.setRoot {s : State F σ} (h : Inv p hosts none s) {root : Handle}
    (hroot : s.vm.heap.Good (.val root)) :
    Inv p hosts none { s with vm := { s.vm with root := some root } } := by
  have hsound : ({ s.vm with root := some root } : Vm F σ).Sound p hosts s.frames :=
    { h.sound with
      refs := by
        rintro r (⟨k, hk, rfl⟩ | hr)
        · rcases List.mem_append.mp hk with hk | hk
          · rcases List.mem_append.mp hk with hk | hk
            · rcases List.mem_append.mp hk with hk | hk
              · rw [List.mem_singleton.mp hk]
                exact hroot
              · exact h.sound.refs _ (Or.inl ⟨k, List.mem_append_left _
                  (List.mem_append_left _ (List.mem_append_right _ hk)), rfl⟩)
            · exact h.sound.refs _ (Or.inl ⟨k, List.mem_append_left _
                (List.mem_append_right _ hk), rfl⟩)
          · exact h.sound.refs _ (Or.inl ⟨k, List.mem_append_right _ hk, rfl⟩)
        · exact h.sound.refs _ (Or.inr hr) }
  refine ⟨hsound, h.past, ?_, h.ordered, h.accounted.of_grows rfl (Nat.le_refl _) (.refl _)⟩
  exact fun e he => (h.before e he).trans (.of_grows (.refl _) (Nat.le_refl _) (Nat.le_refl _))

namespace M

omit [Platform F] [HostWorld F σ] in
theorem typed_spawnEntry {sites : PanicSite → Prop} (hp : p.Fits) :
    Typed (vmTheory p hosts sites none) ∅ (spawnEntry : M F σ Handle) (fun _ => True)
      fun h => {.val h} := by
  refine Typed.bind (typed_frame hp ?_ ?_ ?_) fun frame hframe => ?_
  · exact cells_subset fun k hk => absurd hk List.not_mem_nil
  · exact vals_subset fun k hk => absurd hk List.not_mem_nil
  · exact vals_subset fun k hk => absurd hk List.not_mem_nil
  · refine typed_spawn _ ⟨fun x hx => ?_, by simp⟩ ?_
    · rw [List.mem_singleton.mp hx]
      exact hframe.1
    · rintro r ⟨x, hx, hr⟩
      rw [List.mem_singleton.mp hx] at hr
      exact Or.inr hr

omit [HostWorld F σ] in
/-- A machine starts sound. -/
theorem start_inv {world : σ} {s : State F σ}
    (h : (start : M F σ Unit).exec { vm := Vm.empty p hosts world } = (.ok (), s)) :
    p.validate = .ok () ∧ Inv p hosts none s ∧ Blamed s.trace := by
  unfold start at h
  obtain ⟨v, s₁, hv, h₁⟩ := Prog.exec_bind_eq_ok h
  clear h
  cases hv
  obtain ⟨u, s₁, hvalidate, h₂⟩ := Prog.exec_bind_eq_ok h₁
  clear h₁
  have hvalid : p.validate = .ok () := congrArg Prod.fst hvalidate
  have hstate : { vm := Vm.empty p hosts world } = s₁ := congrArg Prod.snd hvalidate
  subst hstate
  have hp : p.Fits := Program.fits_of_validate hvalid
  refine ⟨hvalid, ?_⟩
  obtain ⟨entry, s₁, hentry, h₃⟩ := Prog.exec_bind_eq_ok h₂
  clear h₂
  have hstate : { vm := Vm.empty p hosts world } = s₁ := congrArg Prod.snd hentry
  subst hstate
  dsimp only at h₃
  split at h₃
  · cases h₃
  · obtain ⟨root, s₁, hspawn, hroot⟩ := Prog.exec_bind_eq_ok h₃
    cases hroot
    have htyped : Typed (vmTheory p hosts (fun _ => True) none) ∅ (spawnEntry : M F σ Handle)
        (fun _ => True) fun h => {.val h} := typed_spawnEntry hp
    obtain ⟨hinv, hext, -, hgood⟩ := htyped.ok (inv_empty world)
      (fun r hr => absurd hr (Set.notMem_empty r)) hspawn
    refine ⟨hinv.setRoot (hgood _ rfl), ?_⟩
    obtain ⟨new, hnew, hinner⟩ := hext.trace
    show Blamed s₁.trace
    rw [hnew]
    exact Blamed.quiet (fun e he => absurd he List.not_mem_nil) fun e he =>
      Label.quiet_of_inner (hinner e he)

/-! ### Inputs -/

omit [HostWorld F σ] in
/-- A cancelled machine is at rest for good. -/
theorem triple_cancel :
    Triple (Broken p hosts) (cancel : M F σ Unit) (fun _ => Resting p hosts)
      (fun e s => Resting p hosts s ∧ e ≠ .stale) := by
  rintro s ⟨hpast, hblamed, hreads⟩
  obtain ⟨hreads', herr⟩ := Heap.collect_nil hreads
  simp only [cancel, modifyVm, collectHeap, liftHeap, Prog.exec_bind, Prog.exec_modify,
    Prog.exec_within, Prog.exec_ofExec]
  rcases hcollect : s.vm.heap.collect [] with ⟨e | ⟨⟩, K⟩
  · rw [hcollect] at hreads' herr
    exact ⟨⟨Or.inl rfl, hpast, hblamed, hreads'⟩, by rw [herr e rfl]; simp⟩
  · rw [hcollect] at hreads'
    exact ⟨Or.inl rfl, hpast, hblamed, hreads'⟩

/-- **A turn from rest.** -/
theorem triple_driveFrom (hp : p.Fits) (hosts : Hosts F σ) (start : List (Event F σ))
    (budget : Nat) (only : Option Handle) (limit : Option Nat) :
    Triple (fun s => Resting p hosts s ∧ s.vm.root ≠ none ∧ s.trace = start)
      (drive budget only limit : M F σ Progress)
      (fun _ s => (Inv p hosts none s ∧ Blamed s.trace) ∧
        ∃ new, s.trace = new ++ start ∧ (polled new).Nodup)
      (fun e s => (Broken p hosts s ∧ e ≠ .stale) ∧
        ∃ new, s.trace = new ++ start ∧ (polled new).Nodup) := by
  rintro s ⟨hrest, hroot, rfl⟩
  have hinv := hrest.machine.resolve_left hroot
  have hdrive : Triple (During p hosts s.trace s.vm.root none [] ∅)
      (drive budget only limit : M F σ Progress) _ _ := triple_drive hp budget only limit
  refine (hdrive.conseq (fun _ hs => hs) ?_ ?_) s ⟨hinv, ⟨hrest.blamed, rfl, [], rfl, rfl⟩,
    fun r hr => absurd hr (Set.notMem_empty r)⟩
  · rintro _ t ⟨done, hnodup, hinv, hturn, -⟩
    obtain ⟨new, hnew, hpolled⟩ := hturn.polls
    exact ⟨⟨hinv, hturn.blamed⟩, new, hnew, hpolled ▸ hnodup⟩
  · rintro e t ⟨done, hnodup, hpast, hreads, hturn, hstale⟩
    obtain ⟨new, hnew, hpolled⟩ := hturn.polls
    exact ⟨⟨⟨hpast, hturn.blamed, hreads⟩, hstale⟩, new, hnew, hpolled ▸ hnodup⟩

theorem triple_driveRest (hp : p.Fits) (budget : Nat) (only : Option Handle)
    (limit : Option Nat) :
    Triple (fun s => Resting p hosts s ∧ s.vm.root ≠ none)
      (drive budget only limit : M F σ Progress)
      (fun _ s => Inv p hosts none s ∧ Blamed s.trace)
      (fun e s => Broken p hosts s ∧ e ≠ .stale) := by
  rintro s ⟨hrest, hroot⟩
  have hfrom := (triple_driveFrom hp hosts s.trace budget only limit).conseq
    (fun _ hs => hs) (fun _ _ hs => hs.1) fun _ _ hs => hs.1
  exact hfrom s ⟨hrest, hroot, rfl⟩

theorem triple_runTurn (hp : p.Fits) (budget : Nat) :
    Triple (Resting p hosts) (runTurn budget : M F σ Progress) (fun _ => Resting p hosts)
      (fun e s => Resting p hosts s ∧ e ≠ .stale) := by
  unfold runTurn
  dsimp only
  split
  · exact Triple.throwBind fun s hs => ⟨hs, by simp⟩
  refine Triple.bind triple_vm fun v => ?_
  split
  · exact Triple.throwBind fun s hs => ⟨hs.1, by simp⟩
  next hroot =>
  have hlive : ∀ s, Resting p hosts s ∧ v = s.vm → Resting p hosts s ∧ s.vm.root ≠ none := by
    rintro s ⟨hrest, rfl⟩
    exact ⟨hrest, fun hnone => hroot (by rw [hnone]; rfl)⟩
  refine Triple.bind ((triple_driveRest hp budget none none).attempt.pre hlive) fun r => ?_
  cases r with
  | ok progress => exact Triple.pure fun s hs => hs.1.resting hs.2
  | error e =>
      refine Triple.assume (fun s hs => hs.2) fun hstale => ?_
      refine Triple.bind (triple_cancel.pre fun s hs => hs.1) fun _ => ?_
      exact Triple.throw fun s hs => ⟨hs, hstale⟩

omit [HostWorld F σ] in
/-- A typed program of a sound machine. -/
theorem triple_sound {α : Type} {Γ : Set Ref} {m : M F σ α} {φ : α → Prop} {R : α → Set Ref}
    (h : Typed (vmTheory p hosts (fun _ => True) none) Γ m φ R) :
    Triple (fun s => (Inv p hosts none s ∧ Blamed s.trace) ∧ ∀ r ∈ Γ, s.vm.heap.Good r) m
      (fun a s => (Inv p hosts none s ∧ Blamed s.trace) ∧ ∀ r ∈ R a, s.vm.heap.Good r)
      (fun e s => (Inv p hosts none s ∧ Blamed s.trace) ∧ e ≠ .stale) := by
  have hblamed : ∀ {s t : State F σ}, Blamed s.trace → Extends s t → Blamed t.trace := by
    intro s t hs hext
    obtain ⟨new, hnew, hinner⟩ := hext.trace
    rw [hnew]
    exact hs.quiet fun e he => Label.quiet_of_inner (hinner e he)
  refine (h.triple (I := fun s => Blamed s.trace) hblamed).conseq
    (fun s hs => ⟨hs.1.1, hs.1.2, hs.2⟩) ?_ ?_
  · rintro a s ⟨hinv, hb, -, hgood⟩
    exact ⟨⟨hinv, hb⟩, fun r hr => hgood r (Or.inr hr)⟩
  · rintro e s ⟨hinv, hb, hfails⟩
    exact ⟨⟨hinv, hb⟩, hfails.ne_stale⟩

omit [HostWorld F σ] in
/-- The references of an optional handle. -/
theorem typed_rootResult :
    Typed (vmTheory p hosts (fun _ => True) none) ∅ (rootResult : M F σ (Option Handle))
      (fun _ => True) fun r => {x | ∃ h, r = some h ∧ x = .val h} := by
  refine Typed.bind typed_vm fun v _ => ?_
  split
  · next root hroot =>
      have hmem : Ref.val root ∈ v.refs := by
        refine Or.inl ⟨root, ?_, rfl⟩
        rw [Vm.handles, hroot]
        exact List.mem_cons_self
      refine Typed.bind (typed_get (Or.inr hmem)) fun w hw => ?_
      split
      · refine Typed.pure trivial ?_
        rintro r ⟨h, hh, rfl⟩
        cases hh
        exact Or.inr rfl
      · exact typed_uncaught (Or.inr rfl)
      · obtain ⟨⟨message, rfl⟩, -⟩ := hw
        exact typed_error _
      · refine Typed.pure trivial ?_
        rintro r ⟨h, hh, -⟩
        cases hh
      · exact typed_error _
  · exact typed_error _

theorem triple_pollInner (hp : p.Fits) :
    Triple (Resting p hosts) (pollInner : M F σ (Option Handle))
      (fun r s => (Inv p hosts none s ∧ Blamed s.trace) ∧
        ∀ x ∈ ({x | ∃ h, r = some h ∧ x = Ref.val h} : Set Ref), s.vm.heap.Good x)
      (fun e s => Broken p hosts s ∧ e ≠ .stale) := by
  unfold pollInner
  refine Triple.bind triple_vm fun v => ?_
  dsimp only
  split
  · exact Triple.throwBind fun s hs => ⟨hs.1.broken, by simp⟩
  next hroot =>
  have hlive : ∀ s, Resting p hosts s ∧ v = s.vm → Resting p hosts s ∧ s.vm.root ≠ none := by
    rintro s ⟨hrest, rfl⟩
    exact ⟨hrest, fun hnone => hroot (by rw [hnone]; rfl)⟩
  refine Triple.bind (triple_vm.pre hlive) fun w => ?_
  refine Triple.bind ((triple_driveRest hp _ _ _).discard.pre fun s hs => hs.1) fun _ => ?_
  refine Triple.bind ((triple_sound typed_rootResult).conseq
    (fun s hs => ⟨hs, fun r hr => absurd hr (Set.notMem_empty r)⟩) (fun _ _ hs => hs)
    fun e s hs => ⟨(hs.1.1.resting hs.1.2).broken, hs.2⟩) fun root => ?_
  refine Triple.bind (triple_vm.post fun _ s hs => hs.1) fun u => ?_
  split
  · refine Triple.pure fun s hs => ⟨hs.1, ?_⟩
    rintro x ⟨h, hh, -⟩
    cases hh
  · exact Triple.pure fun s hs => hs

omit [HostWorld F σ] in
/-- Cancelling, whether the last collection succeeds or not. -/
theorem triple_attemptCancel :
    Triple (Broken p hosts) (discard (Prog.attempt (cancel (F := F))) : M F σ Unit)
      (fun _ => Resting p hosts) (fun e s => Resting p hosts s ∧ e ≠ .stale) := by
  refine Triple.discard (triple_cancel.attempt.post ?_)
  rintro (e | u) s hs
  · exact hs.1
  · exact hs

theorem triple_poll (hp : p.Fits) :
    Triple (Resting p hosts) (poll : M F σ (Option (HostValue F))) (fun _ => Resting p hosts)
      (fun e s => Resting p hosts s ∧ e ≠ .stale) := by
  unfold poll
  refine Triple.bind (triple_pollInner hp).attempt fun r => ?_
  rcases r with e | (- | h)
  · refine Triple.assume (fun s hs => hs.2) fun hstale => ?_
    refine Triple.bind (triple_attemptCancel.pre fun s hs => hs.1) fun _ => ?_
    exact Triple.throw fun s hs => ⟨hs, hstale⟩
  · exact Triple.pure fun s hs => hs.1.1.resting hs.1.2
  · have hvalue : Typed (vmTheory p hosts (fun _ => True) none)
        {x | ∃ k, some h = some k ∧ x = Ref.val k} (wireValue h : M F σ (HostValue F))
        (fun _ => True) fun _ => ∅ := typed_wireValue ⟨h, rfl, rfl⟩
    refine Triple.bind (triple_sound hvalue).attempt fun result => ?_
    cases result with
    | ok value =>
        refine Triple.bind (triple_attemptCancel.pre fun s hs =>
          (hs.1.1.resting hs.1.2).broken) fun _ => ?_
        exact Triple.pure fun s hs => hs
    | error e =>
        refine Triple.assume (fun s hs => hs.2) fun hstale => ?_
        refine Triple.bind (triple_attemptCancel.pre fun s hs =>
          (hs.1.1.resting hs.1.2).broken) fun _ => ?_
        exact Triple.throw fun s hs => ⟨hs, hstale⟩

omit [HostWorld F σ] in
/-- A change of what surrounds heap, tasks and root. -/
theorem triple_modifyVm {f : Vm F σ → Vm F σ}
    (h : Typed (vmTheory p hosts (fun _ => True) none) ∅ (modifyVm f : M F σ Unit)
      (fun _ => True) fun _ => ∅)
    (hroot : ∀ vm, (f vm).root = vm.root) (hheap : ∀ vm, (f vm).heap = vm.heap) :
    Triple (Resting p hosts) (modifyVm f : M F σ Unit) (fun _ => Resting p hosts)
      (fun e s => Resting p hosts s ∧ e ≠ .stale) := by
  refine Triple.modify fun s hs => ⟨?_, hs.past, hs.blamed, ?_⟩
  · rcases hs.machine with hnone | hinv
    · exact Or.inl ((hroot s.vm).trans hnone)
    · exact Or.inr (h s hinv fun r hr => absurd hr (Set.notMem_empty r)).1
  · show (f s.vm).heap.reads = none
    rw [hheap]
    exact hs.reads

/-- **An input leaves the machine at rest**, and does not meet a stale handle. -/
theorem triple_input (hp : p.Fits) (input : Input F σ) :
    Triple (Resting p hosts) (input.program : M F σ Unit) (fun _ => Resting p hosts)
      (fun e s => Resting p hosts s ∧ e ≠ .stale) := by
  cases input with
  | turn budget => exact Triple.discard (triple_runTurn hp budget)
  | poll => exact Triple.discard (triple_poll hp)
  | host actions world =>
      exact triple_modifyVm (typed_acts actions world) (fun _ => rfl) fun _ => rfl
  | limit instructions =>
      have htyped : Typed (vmTheory p hosts (fun _ => True) none) ∅
          (modifyVm fun vm => { vm with instructionLimit := some instructions } : M F σ Unit)
          (fun _ => True) fun _ => ∅ :=
        typed_modifyVm (fun _ => rfl) (fun _ => rfl) (fun _ => rfl) (fun _ => rfl)
          (fun _ => rfl) (fun _ => rfl) (fun _ => rfl) (fun _ => rfl) fun _ _ => Or.inl
      exact triple_modifyVm htyped (fun _ => rfl) fun _ => rfl
  | cancel => exact triple_cancel.pre fun s hs => hs.broken

end M

/-! ### Reachable machines -/

/-- A machine that was started runs a program that was validated. -/
theorem Reachable.fits {s : State F σ} (h : Reachable p hosts s) : p.Fits := by
  induction h with
  | start h => exact Program.fits_of_validate (M.start_inv h).1
  | input _ _ ih => exact ih

/-- **Every reachable machine is at rest.** -/
theorem Reachable.resting {s : State F σ} (h : Reachable p hosts s) : Resting p hosts s := by
  induction h with
  | start h =>
      obtain ⟨-, hinv, hblamed⟩ := M.start_inv h
      exact hinv.resting hblamed
  | @input s input h ih =>
      have hinput := M.triple_input h.fits input s ih
      rw [Input.apply]
      rcases hexec : (input.program : M F σ Unit).exec s with ⟨e | u, t⟩
      · rw [hexec] at hinput
        exact hinput.1
      · rw [hexec] at hinput
        exact hinput

end Deka.Vm
