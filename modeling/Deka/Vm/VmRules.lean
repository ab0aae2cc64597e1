/-
Deka/Vm/VmRules.lean

The typing rules of the primitive machine programs: the heap programs lifted to
the machine, the operand stack, frames, spawning a task, and the events that the
trace records.
-/
import Deka.Vm.VmTyping

namespace Deka.Vm

open Deka.Lib

set_option linter.dupNamespace false

variable {F σ : Type} {α : Type}

/-- The references of what an instruction came to. -/
def Step.refs : Step → Set Ref
  | .continue => ∅
  | .blocked promise => {.val promise}
  | .complete outcome => {.val outcome.handle}

/-! ### Pending references -/

theorem pending_notMem_vals (hs : List Handle) (k : Handle) : Ref.pending k ∉ vals hs := by
  rintro ⟨h, -, he⟩
  cases he

theorem pending_notMem_cells (hs : List Handle) (k : Handle) : Ref.pending k ∉ cells hs := by
  rintro ⟨h, -, he⟩
  cases he

/-- No value holds a promise as a pending one. -/
theorem Value.pending_notMem_refs (v : Value F) (k : Handle) : Ref.pending k ∉ v.refs := by
  intro h
  match v, h with
  | .cell _, h => cases h
  | .promise (some (.ok _)), h => cases h
  | .list items, h => exact pending_notMem_vals items k h
  | .closure _ captures slotChildren, h =>
      rcases h with h | h
      · exact pending_notMem_cells captures k h
      · exact pending_notMem_vals _ k h
  | .record r, h => exact pending_notMem_vals _ k h
  | .props fields, h => exact pending_notMem_vals _ k h

theorem pending_notMem_framesRefs (frames : List Frame) (k : Handle) :
    Ref.pending k ∉ framesRefs frames := by
  rintro ⟨frame, -, ((h | h) | h) | h⟩
  · exact pending_notMem_cells _ k h
  · exact pending_notMem_vals _ k h
  · exact pending_notMem_vals _ k h
  · exact pending_notMem_vals _ k h

theorem pending_notMem_workRefs (work : Work) (k : Handle) : Ref.pending k ∉ work.refs := by
  intro h
  cases work with
  | code frames => exact pending_notMem_framesRefs frames k h
  | join join =>
      rcases h with (h | h) | ⟨x, y, -, -, h⟩
      · exact pending_notMem_vals _ k h
      · exact pending_notMem_vals _ k h
      · cases h
  | callbackWait promise => cases h
  | host work => exact absurd h (Set.notMem_empty _)

/-- Only the tasks of the table refer to pending promises. -/
theorem Vm.mem_promises_of_pending {vm : Vm F σ} {k : Handle} (h : Ref.pending k ∈ vm.refs) :
    k ∈ vm.promises := by
  rcases h with h | ⟨e, he, h⟩
  · exact absurd h (pending_notMem_vals _ k)
  · rcases h with h | h
    · cases h
      exact List.mem_map.mpr ⟨e, he, rfl⟩
    · exact absurd h (pending_notMem_workRefs _ k)

/-! ### Keeping the invariant -/

section Keep

variable {p : Program F} {hosts : Hosts F σ} {running : Option (Nat × Handle)}

theorem Vm.Sound.of_frames {vm : Vm F σ} {frames frames' : List Frame}
    (h : vm.Sound p hosts frames) (hrefs : ∀ r ∈ framesRefs frames', vm.heap.Good r)
    (hwf : ∀ frame ∈ frames', frame.WellFormed p) (hdepth : frames'.length ≤ 1024) :
    vm.Sound p hosts frames' :=
  { h with frameRefs := hrefs, wellFormed := hwf, depth := hdepth }

theorem Vm.Sound.of_heap {vm : Vm F σ} {frames : List Frame} (h : vm.Sound p hosts frames)
    {K : Heap F} (hK : K.Typed p) (hgrows : vm.heap.Grows K) :
    ({ vm with heap := K } : Vm F σ).Sound p hosts frames :=
  { h with
    heap := hK
    refs := fun r hr => hgrows.good (h.refs r hr)
    frameRefs := fun r hr => hgrows.good (h.frameRefs r hr) }

theorem Accounted.of_grows {vm vm' : Vm F σ} {trace : List (Event F σ)}
    (h : Accounted running vm trace) (htasks : vm'.tasks = vm.tasks)
    (hnext : vm.nextTask ≤ vm'.nextTask) (hgrows : vm.heap.Grows vm'.heap) :
    Accounted running vm' trace where
  spawned := by rw [htasks]; exact h.spawned
  tasks := by rw [htasks]; exact h.tasks
  cancelled := by
    intro e he id hl
    obtain ⟨hk, hlt, hr⟩ := h.cancelled e he id hl
    exact ⟨by rw [htasks]; exact hk, lt_of_lt_of_le hlt hnext, hr⟩
  running := by
    intro id k hr
    obtain ⟨hp, hpr, hid, hlt, hx⟩ := h.running id k hr
    refine ⟨hgrows.good hp, ?_, by rw [htasks]; exact hid, lt_of_lt_of_le hlt hnext, hx⟩
    rw [Vm.promises, htasks]
    exact hpr

/-- A step that leaves the trace and the task table alone. -/
theorem Inv.keep {s t : State F σ} (h : Inv p hosts running s)
    (hsound : t.vm.Sound p hosts t.frames) (hext : Extends s t) (htrace : t.trace = s.trace)
    (htasks : t.vm.tasks = s.vm.tasks) (hord : s.vm.Ordered → t.vm.Ordered) :
    Inv p hosts running t where
  sound := hsound
  past := by rw [htrace]; exact h.past
  before := by
    rw [htrace]
    exact fun e he => (h.before e he).trans hext.follows
  ordered := by
    rw [htrace]
    exact fun hw => hord (h.ordered hw)
  accounted := by
    rw [htrace]
    exact h.accounted.of_grows htasks hext.next hext.heap

theorem Extends.of_frames (s : State F σ) (frames : List Frame) :
    Extends s { s with frames } :=
  ⟨.refl _, rfl, Nat.le_refl _, Nat.le_refl _, .refl _⟩

theorem Inv.of_frames {s : State F σ} (h : Inv p hosts running s) (frames : List Frame)
    (hrefs : ∀ r ∈ framesRefs frames, s.vm.heap.Good r)
    (hwf : ∀ frame ∈ frames, frame.WellFormed p) (hdepth : frames.length ≤ 1024) :
    Inv p hosts running { s with frames } :=
  h.keep (h.sound.of_frames hrefs hwf hdepth) (.of_frames s frames) rfl rfl id

theorem Inv.of_heap {s : State F σ} (h : Inv p hosts running s) {K : Heap F}
    (hK : K.Typed p) (hev : s.vm.heap.Evolves K) :
    Inv p hosts running { s with vm := { s.vm with heap := K } } ∧
      Extends s { s with vm := { s.vm with heap := K } } := by
  have hext : Extends s { s with vm := { s.vm with heap := K } } :=
    ⟨hev.toGrows, rfl, Nat.le_refl _, Nat.le_refl _, .refl _⟩
  refine ⟨h.keep (h.sound.of_heap hK hev.toGrows) hext rfl rfl ?_, hext⟩
  exact fun hord k hk => hord k (hev.settled k hk)

/-- Recording what happens next; only some events have a condition. -/
theorem Inv.log {s : State F σ} (h : Inv p hosts running s) (label : Label F)
    (hspawned : ∀ id k, label ≠ .spawned id k) (hcancelled : ∀ id, label ≠ .cancelled id)
    (hsettled : ∀ k o, label ≠ .settled k o) :
    Inv p hosts running { s with trace := ⟨label, s.vm, s.frames⟩ :: s.trace } where
  sound := h.sound
  past :=
    { sound := by
        intro e he
        rcases List.mem_cons.mp he with rfl | he
        · exact h.sound
        · exact h.past.sound e he
      pairwise := List.pairwise_cons.mpr ⟨fun e he => h.before e he, h.past.pairwise⟩
      fresh := by
        intro e he k o hl
        rcases List.mem_cons.mp he with rfl | he
        · exact absurd hl (hsettled k o)
        · exact h.past.fresh e he k o hl
      ordered := by
        intro hw e he
        have hw' : NoWrap s.trace := fun x hx => hw x (List.mem_cons_of_mem _ hx)
        rcases List.mem_cons.mp he with rfl | he
        · exact h.ordered hw'
        · exact h.past.ordered hw' e he }
  before := by
    intro e he
    rcases List.mem_cons.mp he with rfl | he
    · exact ⟨.refl _, fun k o hl => absurd hl (hsettled k o)⟩
    · exact h.before e he
  ordered := fun hw => h.ordered fun x hx => hw x (List.mem_cons_of_mem _ hx)
  accounted := by
    have hdone : ∀ id k, Done s.trace id k →
        Done (⟨label, s.vm, s.frames⟩ :: s.trace) id k := by
      rintro id k ⟨e, he, hl⟩
      exact ⟨e, List.mem_cons_of_mem _ he, hl⟩
    constructor
    · intro e he id k hl
      rcases List.mem_cons.mp he with rfl | he
      · exact absurd hl (hspawned id k)
      · rcases h.accounted.spawned e he id k hl with ht | hr | hd
        · exact Or.inl ht
        · exact Or.inr (Or.inl hr)
        · exact Or.inr (Or.inr (hdone id k hd))
    · intro e he
      obtain ⟨x, hx, hl⟩ := h.accounted.tasks e he
      exact ⟨x, List.mem_cons_of_mem _ hx, hl⟩
    · intro e he id hl
      rcases List.mem_cons.mp he with rfl | he
      · exact absurd hl (hcancelled id)
      · exact h.accounted.cancelled e he id hl
    · intro id k hr
      obtain ⟨hp, hpr, hid, hlt, x, hx, hl⟩ := h.accounted.running id k hr
      exact ⟨hp, hpr, hid, hlt, x, List.mem_cons_of_mem _ hx, hl⟩

theorem Extends.log (s : State F σ) {label : Label F} (h : label.isInner = true) :
    Extends s { s with trace := ⟨label, s.vm, s.frames⟩ :: s.trace } :=
  ⟨.refl _, rfl, Nat.le_refl _, Nat.le_refl _, .cons h _⟩

end Keep

/-! ### Rules -/

section Rules

variable {p : Program F} {hosts : Hosts F σ} {sites : PanicSite → Prop}
  {running : Option (Nat × Handle)} {Γ : Set Ref}

namespace M

/-- A heap program on the machine's heap. -/
theorem typed_liftHeap {m : HeapM F α} {φ : α → Prop} {R : α → Set Ref}
    (hm : Typed (heapTheory p sites) Γ m φ R) :
    Typed (vmTheory p hosts sites running) Γ (liftHeap m) φ R :=
  hm.within (T := vmTheory p hosts sites running) (fun hs => hs.sound.heap) id
    (fun hs hK hev => hs.of_heap hK hev) id id

theorem typed_alloc {v : Value F} (hv : v.WellFormed p) (hs : v.isSettled = false)
    (hr : v.refs ⊆ Γ) :
    Typed (vmTheory p hosts sites running) Γ (alloc v) (fun _ => True) fun h => v.kinds h :=
  typed_liftHeap (HeapM.typed_alloc hv hs hr)

/-- A new value that is no cell and holds nothing. -/
theorem typed_allocLeaf {v : Value F} (hv : v.WellFormed p) (hc : v.isCell = false)
    (hs : v.isSettled = false) (hr : v.refs = ∅) :
    Typed (vmTheory p hosts sites running) Γ (alloc v) (fun _ => True) fun h => {.val h} := by
  refine (typed_alloc hv hs (by rw [hr]; exact Set.empty_subset _)).promise (fun _ => id) ?_
  rintro h - r rfl
  exact Or.inl ⟨rfl, hc⟩

/-- A new value that is no cell. -/
theorem typed_allocVal {v : Value F} (hv : v.WellFormed p) (hc : v.isCell = false)
    (hs : v.isSettled = false) (hr : v.refs ⊆ Γ) :
    Typed (vmTheory p hosts sites running) Γ (alloc v) (fun _ => True) fun h => {.val h} := by
  refine (typed_alloc hv hs hr).promise (fun _ => id) ?_
  rintro h - r rfl
  exact Or.inl ⟨rfl, hc⟩

/-- A new cell. -/
theorem typed_allocCell {x : Handle} (hx : Ref.val x ∈ Γ) :
    Typed (vmTheory p hosts sites running) Γ (alloc (.cell x)) (fun _ => True)
      fun h => {.cell h} := by
  refine (typed_alloc (v := .cell x) trivial rfl ?_).promise (fun _ => id) ?_
  · rintro r rfl
    exact hx
  · rintro h - r rfl
    exact Or.inl ⟨rfl, rfl⟩

theorem typed_get {h : Handle} (hh : Ref.val h ∈ Γ) :
    Typed (vmTheory p hosts sites running) Γ (get h)
      (fun v => v.WellFormed p ∧ v.isCell = false) fun v => v.refs :=
  typed_liftHeap (HeapM.typed_get hh)

theorem typed_getCell {h : Handle} (hh : Ref.cell h ∈ Γ) :
    Typed (vmTheory p hosts sites running) Γ (get h) (fun v => ∃ x, v = .cell x)
      fun v => v.refs :=
  typed_liftHeap (HeapM.typed_getCell hh)

theorem typed_observe (h : Handle) (read : Read) :
    Typed (vmTheory p hosts sites running) Γ (observe h read) (fun _ => True) fun _ => ∅ :=
  typed_liftHeap (HeapM.typed_observe h read)

theorem typed_enumValue [F64 F] {name case : String} {index : Nat} {value : Option Handle}
    (hvalue : ∀ h, value = some h → Ref.val h ∈ Γ) :
    Typed (vmTheory p hosts sites running) Γ (enumValue name case index value)
      (fun _ => True) fun h => {.val h} := by
  refine (typed_liftHeap (HeapM.typed_allocEnum hvalue)).promise
    (fun _ => id) ?_
  rintro h - r rfl
  exact Or.inl (Or.inl rfl)

/-! ### Reading the machine -/

theorem typed_vm :
    Typed (vmTheory p hosts sites running) Γ (vm : M F σ (Vm F σ))
      (fun vm => vm.program = p ∧ vm.hosts = hosts) fun vm => vm.refs := by
  refine Typed.reads ?_ ?_
  · intro s a hs hΓ ha
    cases ha
    exact ⟨⟨hs.sound.program, hs.sound.hosts⟩, hs.sound.refs⟩
  · intro s e hs hΓ he
    cases he

/-- A look at the state that cannot fail and yields no reference. -/
theorem typed_look {f : State F σ → α} :
    Typed (vmTheory p hosts sites running) Γ (Prog.reads fun s => .ok (f s)) (fun _ => True)
      fun _ => ∅ := by
  refine Typed.reads ?_ ?_
  · exact fun s a hs hΓ ha => ⟨trivial, fun r hr => absurd hr (Set.notMem_empty r)⟩
  · intro s e hs hΓ he
    cases he

theorem typed_function {i : Nat} {f : Function F} (hf : p.functions[i]? = some f) :
    Typed (vmTheory p hosts sites running) Γ (function i : M F σ (Function F))
      (fun g => g = f) fun _ => ∅ := by
  refine Typed.reads ?_ ?_
  · intro s g hs hΓ hg
    rw [hs.sound.program, hf] at hg
    cases hg
    exact ⟨rfl, fun r hr => absurd hr (Set.notMem_empty r)⟩
  · intro s e hs hΓ he
    rw [hs.sound.program, hf] at he
    cases he

/-- A change of what surrounds heap, tasks and settlement order. -/
theorem typed_modifyVm {f : Vm F σ → Vm F σ}
    (hprogram : ∀ vm, (f vm).program = vm.program) (hhosts : ∀ vm, (f vm).hosts = vm.hosts)
    (hheap : ∀ vm, (f vm).heap = vm.heap) (htasks : ∀ vm, (f vm).tasks = vm.tasks)
    (hnext : ∀ vm, (f vm).nextTask = vm.nextTask) (hroot : ∀ vm, (f vm).root = vm.root)
    (hepoch : ∀ vm, (f vm).completionEpoch = vm.completionEpoch)
    (horder : ∀ vm, (f vm).completionOrder = vm.completionOrder)
    (hhandles : ∀ vm, ∀ h ∈ (f vm).handles, h ∈ vm.handles ∨ Ref.val h ∈ Γ) :
    Typed (vmTheory p hosts sites running) Γ (modifyVm f) (fun _ => True) fun _ => ∅ := by
  intro s hs hΓ
  have hext : Extends s { s with vm := f s.vm } := by
    refine ⟨?_, hroot _, ?_, ?_, .refl _⟩
    · show s.vm.heap.Grows (f s.vm).heap
      rw [hheap]
      exact .refl _
    · exact Nat.le_of_eq (hepoch _).symm
    · exact Nat.le_of_eq (hnext _).symm
  have hsound : (f s.vm).Sound p hosts s.frames := by
    have h := hs.sound
    constructor
    · rw [hprogram, h.program]
    · rw [hhosts, h.hosts]
    · rw [hheap]; exact h.heap
    · intro r hr
      rw [hheap]
      rcases hr with ⟨k, hk, rfl⟩ | ⟨e, he, hr⟩
      · rcases hhandles s.vm k hk with hk | hk
        · exact h.refs _ (Or.inl ⟨k, hk, rfl⟩)
        · exact hΓ _ hk
      · rw [htasks] at he
        exact h.refs _ (Or.inr ⟨e, he, hr⟩)
    · rw [hheap]; exact h.frameRefs
    · exact h.wellFormed
    · exact h.depth
    · rw [htasks]; exact h.tasks
    · rw [htasks]; exact h.ids
    · rw [htasks, hnext]; exact h.next
    · rw [Vm.promises, htasks]; exact h.promises
    · rw [horder]; exact h.orderKeys
    · rw [horder, hepoch]; exact h.epochs
  refine ⟨hs.keep hsound hext rfl (htasks _) ?_, hext, trivial,
    fun r hr => absurd hr (Set.notMem_empty r)⟩
  intro hord k hk
  show ∃ e, (f s.vm).completionOrder.get? k = some e
  rw [horder]
  refine hord k ?_
  have hk : (f s.vm).heap.settled k = true := hk
  rwa [hheap] at hk

/-! ### The call stack -/

/-- What replaces the call stack may hold what it held, and the context. -/
theorem typed_modifyFrames {f : List Frame → List Frame}
    (hrefs : ∀ frames, framesRefs (f frames) ⊆ framesRefs frames ∪ Γ)
    (hwf : ∀ frames, (∀ frame ∈ frames, frame.WellFormed p) →
      ∀ frame ∈ f frames, frame.WellFormed p)
    (hdepth : ∀ frames, (f frames).length ≤ frames.length) :
    Typed (vmTheory p hosts sites running) Γ
      (modify fun s => { s with frames := f s.frames } : M F σ Unit) (fun _ => True)
      fun _ => ∅ := by
  intro s hs hΓ
  have hgood : ∀ r ∈ framesRefs (f s.frames), s.vm.heap.Good r := by
    intro r hr
    rcases hrefs s.frames hr with hr | hr
    · exact hs.sound.frameRefs r hr
    · exact hΓ r hr
  refine ⟨hs.of_frames _ hgood (hwf _ hs.sound.wellFormed) ((hdepth _).trans hs.sound.depth),
    .of_frames s _, trivial, fun r hr => absurd hr (Set.notMem_empty r)⟩

theorem typed_modifyTop {f : Frame → Frame} (hrefs : ∀ frame, (f frame).refs ⊆ frame.refs ∪ Γ)
    (hwf : ∀ frame : Frame, frame.WellFormed p → (f frame).WellFormed p) :
    Typed (vmTheory p hosts sites running) Γ (modifyTop f) (fun _ => True) fun _ => ∅ := by
  refine typed_modifyFrames ?_ ?_ ?_
  · rintro (- | ⟨frame, frames⟩) r ⟨x, hx, hr⟩
    · exact absurd hx List.not_mem_nil
    · rcases List.mem_cons.mp hx with rfl | hx
      · exact (hrefs frame hr).imp (fun h => ⟨frame, List.mem_cons_self, h⟩) id
      · exact Or.inl ⟨x, List.mem_cons_of_mem _ hx, hr⟩
  · rintro (- | ⟨frame, frames⟩) hall x hx
    · exact absurd hx List.not_mem_nil
    · rcases List.mem_cons.mp hx with rfl | hx
      · exact hwf frame (hall frame List.mem_cons_self)
      · exact hall x (List.mem_cons_of_mem _ hx)
  · rintro (- | ⟨frame, frames⟩) <;> simp

theorem typed_top :
    Typed (vmTheory p hosts sites running) Γ (top : M F σ Frame)
      (fun frame => frame.WellFormed p) fun frame => frame.refs := by
  refine Typed.reads ?_ ?_
  · intro s frame hs hΓ hf
    split at hf
    · next f fs hframes =>
        cases hf
        have hmem : frame ∈ s.frames := by rw [hframes]; exact List.mem_cons_self
        exact ⟨hs.sound.wellFormed frame hmem,
          fun r hr => hs.sound.frameRefs r ⟨frame, hmem, hr⟩⟩
    · cases hf
  · intro s e hs hΓ he
    split at he
    · cases he
    · cases he
      trivial

theorem typed_push {h : Handle} (hh : Ref.val h ∈ Γ) :
    Typed (vmTheory p hosts sites running) Γ (push h) (fun _ => True) fun _ => ∅ := by
  refine Typed.bind (Typed.discard typed_top) fun _ _ => ?_
  refine typed_modifyTop (fun frame => ?_) fun frame => id
  rintro r (((hr | ⟨k, hk, rfl⟩) | hr) | hr)
  · exact Or.inl (Or.inl (Or.inl (Or.inl hr)))
  · rcases List.mem_cons.mp hk with rfl | hk
    · exact Or.inr (Or.inl hh)
    · exact Or.inl (Or.inl (Or.inl (Or.inr ⟨k, hk, rfl⟩)))
  · exact Or.inl (Or.inl (Or.inr hr))
  · exact Or.inl (Or.inr hr)

/-- A frame with a part of its operand stack. -/
theorem Frame.refs_drop (frame : Frame) (stack : List Handle) (h : ∀ k ∈ stack, k ∈ frame.stack) :
    ({ frame with stack } : Frame).refs ⊆ frame.refs := by
  rintro r (((hr | ⟨k, hk, rfl⟩) | hr) | hr)
  · exact Or.inl (Or.inl (Or.inl hr))
  · exact Or.inl (Or.inl (Or.inr ⟨k, h k hk, rfl⟩))
  · exact Or.inl (Or.inr hr)
  · exact Or.inr hr

theorem exec_pop (s : State F σ) :
    (pop : M F σ Handle).exec s =
      match s.frames with
      | [] => (.error (.error "empty call stack"), s)
      | frame :: frames =>
          match frame.stack with
          | h :: stack => (.ok h, { s with frames := { frame with stack } :: frames })
          | [] => (.error (.error "operand stack underflow"), s) := by
  rw [pop, Prog.exec_bind, top, Prog.exec_reads]
  rcases s with ⟨vm, - | ⟨frame, frames⟩, trace⟩
  · rfl
  · dsimp only
    rcases frame.stack with - | ⟨h, stack⟩ <;> rfl

/-- Popping exposes a good value. -/
theorem typed_pop :
    Typed (vmTheory p hosts sites running) Γ (pop : M F σ Handle) (fun _ => True)
      fun h => {.val h} := by
  intro s hs hΓ
  rw [exec_pop]
  rcases hframes : s.frames with - | ⟨frame, frames⟩
  · exact ⟨hs, Extends.refl s, trivial⟩
  · dsimp only
    rcases hstack : frame.stack with - | ⟨h, stack⟩
    · exact ⟨hs, Extends.refl s, trivial⟩
    · dsimp only
      have hmem : frame ∈ s.frames := by rw [hframes]; exact List.mem_cons_self
      have hsub := Frame.refs_drop frame stack (by
        intro k hk
        rw [hstack]
        exact List.mem_cons_of_mem _ hk)
      refine ⟨hs.of_frames _ ?_ ?_ ?_, .of_frames s _, trivial, ?_⟩
      · rintro r ⟨x, hx, hr⟩
        rcases List.mem_cons.mp hx with rfl | hx
        · exact hs.sound.frameRefs r ⟨frame, hmem, hsub hr⟩
        · exact hs.sound.frameRefs r ⟨x, by rw [hframes]; exact List.mem_cons_of_mem _ hx, hr⟩
      · intro x hx
        rcases List.mem_cons.mp hx with rfl | hx
        · exact hs.sound.wellFormed frame hmem
        · exact hs.sound.wellFormed x (by rw [hframes]; exact List.mem_cons_of_mem _ hx)
      · have := hs.sound.depth
        rw [hframes] at this
        exact this
      · rintro r rfl
        show s.vm.heap.Good (.val h)
        refine hs.sound.frameRefs _ ⟨frame, hmem, Or.inl (Or.inl (Or.inr ?_))⟩
        exact ⟨h, by rw [hstack]; exact List.mem_cons_self, rfl⟩

theorem typed_arguments (count : Nat) :
    Typed (vmTheory p hosts sites running) Γ (arguments count : M F σ (List Handle))
      (fun hs => hs.length = count) vals := by
  induction count generalizing Γ with
  | zero => exact Typed.pure rfl (vals_subset fun k hk => absurd hk List.not_mem_nil)
  | succ count ih =>
      refine Typed.bind typed_pop fun h _ => ?_
      refine Typed.bind ih fun hs hlen => ?_
      refine Typed.pure (by simp [hlen]) (vals_subset fun k hk => ?_)
      rcases List.mem_append.mp hk with hk | hk
      · exact Or.inr (val_mem_vals.mpr hk)
      · rw [List.mem_singleton.mp hk]
        exact Or.inl (Or.inr rfl)

/-- Enter a frame, unless the call stack is full. -/
theorem typed_enterFrame {next : Frame} (hwf : next.WellFormed p) (hrefs : next.refs ⊆ Γ) :
    Typed (vmTheory p hosts sites running) Γ (enterFrame next) (fun _ => True)
      fun _ => ∅ := by
  intro s hs hΓ
  have hexec : (enterFrame next).exec s =
      if s.frames.length ≥ 1024 then (.error (.error "call stack limit exceeded"), s)
      else (.ok (), { s with frames := next :: s.frames }) := by
    rw [enterFrame, Prog.exec_bind, Prog.exec_reads]
    dsimp only
    split <;> rfl
  rw [hexec]
  by_cases hlen : s.frames.length ≥ 1024
  · rw [if_pos hlen]
    exact ⟨hs, Extends.refl s, trivial⟩
  · rw [if_neg hlen]
    · refine ⟨hs.of_frames _ ?_ ?_ ?_, .of_frames s _, trivial,
        fun r hr => absurd hr (Set.notMem_empty r)⟩
      · rintro r ⟨x, hx, hr⟩
        rcases List.mem_cons.mp hx with rfl | hx
        · exact hΓ r (hrefs hr)
        · exact hs.sound.frameRefs r ⟨x, hx, hr⟩
      · intro x hx
        rcases List.mem_cons.mp hx with rfl | hx
        · exact hwf
        · exact hs.sound.wellFormed x hx
      · simp only [List.length_cons]
        omega

theorem unwind_refs (value : Handle) (frames : List Frame) :
    framesRefs (unwind value frames) ⊆ framesRefs frames ∪ {.val value} := by
  induction frames with
  | nil => rintro r ⟨x, hx, -⟩; exact absurd hx List.not_mem_nil
  | cons frame frames ih =>
      rw [unwind]
      split
      · next handler handlers _ =>
          rintro r ⟨x, hx, hr⟩
          rcases List.mem_cons.mp hx with rfl | hx
          · rcases hr with ((hr | ⟨k, hk, rfl⟩) | hr) | hr
            · exact Or.inl ⟨frame, List.mem_cons_self, Or.inl (Or.inl (Or.inl hr))⟩
            · rcases List.mem_cons.mp hk with rfl | hk
              · exact Or.inr rfl
              · exact Or.inl ⟨frame, List.mem_cons_self,
                  Or.inl (Or.inl (Or.inr ⟨k, List.mem_of_mem_drop hk, rfl⟩))⟩
            · exact Or.inl ⟨frame, List.mem_cons_self, Or.inl (Or.inr hr)⟩
            · exact Or.inl ⟨frame, List.mem_cons_self, Or.inr hr⟩
          · exact Or.inl ⟨x, List.mem_cons_of_mem _ hx, hr⟩
      · intro r hr
        rcases ih hr with ⟨x, hx, hr⟩ | hr
        · exact Or.inl ⟨x, List.mem_cons_of_mem _ hx, hr⟩
        · exact Or.inr hr

theorem unwind_wellFormed {value : Handle} {frames : List Frame}
    (h : ∀ frame ∈ frames, frame.WellFormed p) :
    ∀ frame ∈ unwind value frames, frame.WellFormed p := by
  induction frames with
  | nil => exact h
  | cons frame frames ih =>
      rw [unwind]
      split
      · intro x hx
        rcases List.mem_cons.mp hx with rfl | hx
        · exact h frame List.mem_cons_self
        · exact h x (List.mem_cons_of_mem _ hx)
      · exact ih fun x hx => h x (List.mem_cons_of_mem _ hx)

theorem unwind_length (value : Handle) (frames : List Frame) :
    (unwind value frames).length ≤ frames.length := by
  induction frames with
  | nil => exact Nat.le_refl _
  | cons frame frames ih =>
      rw [unwind]
      split
      · exact Nat.le_refl _
      · exact ih.trans (Nat.le_succ _)

theorem typed_raise {value : Handle} (hv : Ref.val value ∈ Γ) :
    Typed (vmTheory p hosts sites running) Γ (raise value) (fun _ => True) Step.refs := by
  refine Typed.bind (typed_modifyFrames (fun frames => ?_) (fun frames => unwind_wellFormed)
    fun frames => unwind_length value frames) fun _ _ => ?_
  · refine (unwind_refs value frames).trans (Set.union_subset_union_right _ ?_)
    rintro r rfl
    exact hv
  · refine Typed.bind typed_look fun frames _ => ?_
    refine Typed.pure trivial ?_
    split
    · rintro r rfl
      exact Or.inl (Or.inl hv)
    · exact Set.empty_subset _

/-! ### Events -/

theorem typed_log {label : Label F} (hinner : label.isInner = true)
    (hspawned : ∀ id k, label ≠ .spawned id k) (hsettled : ∀ k o, label ≠ .settled k o) :
    Typed (vmTheory p hosts sites running) Γ (log label : M F σ Unit) (fun _ => True)
      fun _ => ∅ :=
  fun s hs _ => ⟨hs.log label hspawned (fun id hl => by rw [hl] at hinner; cases hinner) hsettled,
    Extends.log s hinner, trivial, fun r hr => absurd hr (Set.notMem_empty r)⟩

/-- A copy under a newtype's name; a copied promise is on record. -/
theorem typed_allocNewtype {v : Value F} (hv : v.WellFormed p) (hc : v.isCell = false)
    (hr : v.refs ⊆ Γ) (name : String) :
    Typed (vmTheory p hosts sites running) Γ (allocNewtype v name) (fun _ => True)
      fun h => {.val h} := by
  intro s hs hΓ
  have hlog := hs.log (.newtype v) (by simp) (by simp) (by simp)
  obtain ⟨hK, hgrows⟩ := hs.sound.heap.grows_alloc hv fun r hrv => hΓ r (hr hrv)
  set H := s.vm.heap with hH
  obtain ⟨hK', hev⟩ := hK.of_lookup
    (K := (H.alloc v).2.modifySlot (H.alloc v).1 fun s => { s with newtype := some name })
    (hK.rep.modifySlot _ (fun _ => id) fun _ => id) hK.reads (Heap.lookup_tag _ _ · name)
    fun k hf => Heap.freed_modifySlot (f := fun s => { s with newtype := some name })
      (fun _ => rfl) _ hf
  have hext : Extends s
      { s with
        vm := { s.vm with heap := (H.allocNewtype v name).2 }
        trace := ⟨.newtype v, s.vm, s.frames⟩ :: s.trace } :=
    ⟨hgrows.trans hev.toGrows, rfl, Nat.le_refl _, Nat.le_refl _, .cons rfl _⟩
  have hext' : Extends { s with trace := ⟨.newtype v, s.vm, s.frames⟩ :: s.trace }
      { s with
        vm := { s.vm with heap := (H.allocNewtype v name).2 }
        trace := ⟨.newtype v, s.vm, s.frames⟩ :: s.trace } :=
    ⟨hgrows.trans hev.toGrows, rfl, Nat.le_refl _, Nat.le_refl _, .refl _⟩
  have hlookup : (H.allocNewtype v name).2.lookup (H.alloc v).1 = some v := by
    refine (Heap.lookup_tag _ _ _ name).trans ?_
    exact Heap.lookup_alloc_self hs.sound.heap v
  refine ⟨?_, hext, trivial, ?_⟩
  · have hsound := hs.sound.of_heap hK' (hgrows.trans hev.toGrows)
    have hpast := hlog.past
    refine ⟨hsound, hpast, fun e he => (hlog.before e he).trans hext'.follows, ?_,
      hlog.accounted.of_grows rfl (Nat.le_refl _) hext'.heap⟩
    -- without a wrapped promise the new handle is not a settled one
    intro hw k hk
    have hvp : v.isPromise = false := hw _ List.mem_cons_self v rfl
    refine hlog.ordered hw k ?_
    have hk' : (H.alloc v).2.settled k = true := hev.settled k hk
    rw [Heap.settled, Heap.lookup_alloc hs.sound.heap.rep] at hk'
    split at hk'
    · rw [Option.any_some, Value.isSettled_of_isPromise hvp] at hk'
      cases hk'
    · exact hk'
  · rintro r rfl
    exact ⟨v, hlookup, hc⟩

/-! ### Tasks -/

end M

/-- The promise of a task is pending. -/
theorem Vm.Sound.pending {vm : Vm F σ} {frames : List Frame} (h : vm.Sound p hosts frames)
    {k : Handle} (hk : k ∈ vm.promises) : vm.heap.lookup k = some (.promise none) := by
  obtain ⟨e, he, rfl⟩ := List.mem_map.mp hk
  exact h.refs (.pending e.2.promise) (Or.inr ⟨e, he, Or.inl rfl⟩)

/-- A task under a new identifier, with a promise of its own. -/
theorem Vm.Sound.insertTask {vm : Vm F σ} {frames : List Frame} (h : vm.Sound p hosts frames)
    {id next : Nat} (task : Task) (hid : id ∉ vm.tasks.keys) (hlt : id < next)
    (hnext : vm.nextTask ≤ next) (hpromise : task.promise ∉ vm.promises)
    (hwf : task.WellFormed p) (hrefs : ∀ r ∈ task.refs, vm.heap.Good r) :
    ({ vm with nextTask := next, tasks := vm.tasks.insert id task } : Vm F σ).Sound
      p hosts frames :=
  { h with
    refs := by
      rintro r (hr | ⟨e, he, hr⟩)
      · exact h.refs r (Or.inl hr)
      · rcases BTreeMap.mem_insert.mp he with rfl | ⟨he, -⟩
        · exact hrefs r hr
        · exact h.refs r (Or.inr ⟨e, he, hr⟩)
    tasks := by
      intro e he
      rcases BTreeMap.mem_insert.mp he with rfl | ⟨he, -⟩
      · exact hwf
      · exact h.tasks e he
    ids := BTreeMap.nodup_keys_insert h.ids id task
    next := by
      intro j hj
      rcases BTreeMap.mem_keys_insert.mp hj with rfl | hj
      · exact hlt
      · exact lt_of_lt_of_le (h.next j hj) hnext
    promises := by
      have hperm := (BTreeMap.insert_perm vm.tasks id task).map fun e => e.2.promise
      rw [BTreeMap.erase_of_not_mem hid] at hperm
      exact hperm.nodup_iff.mpr (List.nodup_cons.mpr ⟨hpromise, h.promises⟩) }

/-- Recording and entering a new task. -/
theorem Inv.spawn {s : State F σ} (h : Inv p hosts running s) {work : Work} {promise : Handle}
    (hpending : s.vm.heap.Good (.pending promise)) (hpromise : promise ∉ s.vm.promises)
    (hother : ∀ id k, running = some (id, k) → k ≠ promise)
    (hwf : work.WellFormed p) (hrefs : ∀ r ∈ work.refs, s.vm.heap.Good r) :
    Inv p hosts running
      { s with
        vm := { s.vm with
          nextTask := s.vm.nextTask + 1
          tasks := s.vm.tasks.insert s.vm.nextTask
            { promise, work, waiting := none, completion := none } }
        trace := ⟨.spawned s.vm.nextTask promise, s.vm, s.frames⟩ :: s.trace } := by
  have hid : s.vm.nextTask ∉ s.vm.tasks.keys := fun hmem =>
    absurd (h.sound.next _ hmem) (Nat.lt_irrefl _)
  have hrefs' : ∀ r ∈ ({ promise, work, waiting := none, completion := none } : Task).refs,
      s.vm.heap.Good r := by
    rintro r (rfl | hr)
    · exact hpending
    · exact hrefs r hr
  have hsound := h.sound.insertTask { promise, work, waiting := none, completion := none } hid
    (Nat.lt_succ_self _) (Nat.le_succ _) hpromise
    ⟨hwf, fun k hk => by cases hk⟩ hrefs'
  have hfollows : s.vm.Follows
      { s.vm with
        nextTask := s.vm.nextTask + 1
        tasks := s.vm.tasks.insert s.vm.nextTask
          { promise, work, waiting := none, completion := none } } :=
    .of_grows (.refl _) (Nat.le_refl _) (Nat.le_succ _)
  have hdone : ∀ id k, Done s.trace id k →
      Done (⟨.spawned s.vm.nextTask promise, s.vm, s.frames⟩ :: s.trace) id k := by
    rintro id k ⟨e, he, hl⟩
    exact ⟨e, List.mem_cons_of_mem _ he, hl⟩
  refine ⟨hsound, ⟨?_, ?_, ?_, ?_⟩, ?_, ?_, ?_⟩
  · intro e he
    rcases List.mem_cons.mp he with rfl | he
    · exact h.sound
    · exact h.past.sound e he
  · exact List.pairwise_cons.mpr ⟨fun e he => h.before e he, h.past.pairwise⟩
  · intro e he k o hl
    rcases List.mem_cons.mp he with rfl | he
    · cases hl
    · exact h.past.fresh e he k o hl
  · intro hw e he
    have hw' : NoWrap s.trace := fun x hx => hw x (List.mem_cons_of_mem _ hx)
    rcases List.mem_cons.mp he with rfl | he
    · exact h.ordered hw'
    · exact h.past.ordered hw' e he
  · intro e he
    rcases List.mem_cons.mp he with rfl | he
    · exact ⟨hfollows, fun k o hl => by cases hl⟩
    · exact (h.before e he).trans hfollows
  · exact fun hw => h.ordered fun x hx => hw x (List.mem_cons_of_mem _ hx)
  · constructor
    · intro e he id k hl
      rcases List.mem_cons.mp he with rfl | he
      · cases hl
        exact Or.inl ⟨_, BTreeMap.mem_insert.mpr (Or.inl rfl), rfl⟩
      · rcases h.accounted.spawned e he id k hl with ⟨task, ht, hp⟩ | hr | hd
        · refine Or.inl ⟨task, BTreeMap.mem_insert.mpr (Or.inr ⟨ht, ?_⟩), hp⟩
          rintro rfl
          exact hid (List.mem_map.mpr ⟨_, ht, rfl⟩)
        · exact Or.inr (Or.inl hr)
        · exact Or.inr (Or.inr (hdone id k hd))
    · intro e he
      rcases BTreeMap.mem_insert.mp he with rfl | ⟨he, -⟩
      · exact ⟨_, List.mem_cons_self, rfl⟩
      · obtain ⟨x, hx, hl⟩ := h.accounted.tasks e he
        exact ⟨x, List.mem_cons_of_mem _ hx, hl⟩
    · intro e he id hl
      rcases List.mem_cons.mp he with rfl | he
      · cases hl
      · obtain ⟨hk, hlt, hr⟩ := h.accounted.cancelled e he id hl
        refine ⟨fun hmem => ?_, Nat.lt_succ_of_lt hlt, hr⟩
        rcases BTreeMap.mem_keys_insert.mp hmem with rfl | hmem
        · exact absurd hlt (Nat.lt_irrefl _)
        · exact hk hmem
    · intro id k hr
      obtain ⟨hp, hpr, hidr, hlt, x, hx, hl⟩ := h.accounted.running id k hr
      refine ⟨hp, fun hmem => ?_, fun hmem => ?_, Nat.lt_succ_of_lt hlt, x,
        List.mem_cons_of_mem _ hx, hl⟩
      · obtain ⟨e, he, hek⟩ := List.mem_map.mp hmem
        rcases BTreeMap.mem_insert.mp he with rfl | ⟨he, -⟩
        · exact hother id k hr hek.symm
        · exact hpr (List.mem_map.mpr ⟨e, he, hek⟩)
      · rcases BTreeMap.mem_keys_insert.mp hmem with rfl | hmem
        · exact absurd hlt (Nat.lt_irrefl _)
        · exact hidr hmem

/-- A promise that was just allocated belongs to no task. -/
theorem Inv.fresh {s : State F σ} (h : Inv p hosts running s) (v : Value F) :
    (s.vm.heap.alloc v).1 ∉ s.vm.promises ∧
      ∀ id k, running = some (id, k) → k ≠ (s.vm.heap.alloc v).1 := by
  have hdead := Heap.lookup_alloc_fresh h.sound.heap.rep v
  constructor
  · intro hmem
    rw [h.sound.pending hmem] at hdead
    cases hdead
  · rintro id k hr rfl
    have hp : s.vm.heap.lookup _ = some (.promise none) := (h.accounted.running id _ hr).1
    rw [hp] at hdead
    cases hdead

namespace M

/-- A new task is put in the table under a fresh identifier. -/
theorem typed_spawn (work : Work) (hwf : work.WellFormed p) (hrefs : work.refs ⊆ Γ) :
    Typed (vmTheory p hosts sites running) Γ (spawn work) (fun _ => True)
      fun h => {.val h} := by
  intro s hs hΓ
  obtain ⟨hK, hev⟩ := hs.sound.heap.alloc (v := .promise none) trivial rfl
    fun r hr => absurd hr (Set.notMem_empty r)
  obtain ⟨hs₁, hext₁⟩ := hs.of_heap hK hev
  obtain ⟨hnot, hother⟩ := hs.fresh (.promise none)
  have hlookup := Heap.lookup_alloc_self hs.sound.heap (.promise none)
  have hrefs' : ∀ r ∈ work.refs, (s.vm.heap.alloc (.promise none)).2.Good r :=
    fun r hr => hev.toGrows.good (hΓ r (hrefs hr))
  have hs₂ := hs₁.spawn hlookup hnot hother hwf hrefs'
  refine ⟨hs₂, ⟨hev.toGrows, rfl, Nat.le_refl _, Nat.le_succ _, .cons rfl _⟩, trivial, ?_⟩
  rintro r rfl
  exact ⟨_, hlookup, rfl⟩

end M

/-! ### Settling -/

/-- Settle a pending promise. -/
def Vm.settle (vm : Vm F σ) (promise : Handle) (outcome : Except Fault Outcome) : Vm F σ :=
  { vm with
    heap := (vm.heap.touch promise).write promise (.promise (some outcome))
    completionEpoch := vm.completionEpoch + 1
    completionOrder := vm.completionOrder.insert promise (vm.completionEpoch + 1) }

section Settle

variable {H : Heap F} {promise : Handle} {outcome : Except Fault Outcome}

theorem Heap.lookup_settle (hl : H.lookup promise = some (.promise none)) (k : Handle) :
    ((H.touch promise).write promise (.promise (some outcome))).lookup k =
      if k = promise then some (.promise (some outcome)) else H.lookup k := by
  rw [Heap.lookup_write (v := .promise none) (by rw [Heap.lookup_touch, hl]), Heap.lookup_touch]

/-- Settling leaves every reference good but the one to the pending promise. -/
theorem Heap.good_settle (hl : H.lookup promise = some (.promise none)) {r : Ref}
    (hr : H.Good r) (hne : r ≠ .pending promise) :
    ((H.touch promise).write promise (.promise (some outcome))).Good r := by
  rcases r with k | k | k | k | k | ⟨k, o⟩
  · obtain ⟨v, hv, hc⟩ := hr
    by_cases hk : k = promise
    · exact ⟨_, by rw [Heap.lookup_settle hl, if_pos hk], rfl⟩
    · exact ⟨v, by rw [Heap.lookup_settle hl, if_neg hk, hv], hc⟩
  · obtain ⟨x, hx⟩ := hr
    have hk : k ≠ promise := by
      rintro rfl
      rw [hl] at hx
      cases hx
    exact ⟨x, by rw [Heap.lookup_settle hl, if_neg hk, hx]⟩
  · obtain ⟨v, hv, hc, hp⟩ := hr
    have hk : k ≠ promise := by
      rintro rfl
      rw [hl] at hv
      cases hv
      cases hp
    exact ⟨v, by rw [Heap.lookup_settle hl, if_neg hk, hv], hc, hp⟩
  · obtain ⟨x, hx⟩ := hr
    have hk : k ≠ promise := by
      rintro rfl
      rw [hl] at hx
      cases hx
    exact ⟨x, by rw [Heap.lookup_settle hl, if_neg hk, hx]⟩
  · have hk : k ≠ promise := fun he => hne (by rw [he])
    show _ = _
    rw [Heap.lookup_settle hl, if_neg hk]
    exact hr
  · have hk : k ≠ promise := by
      rintro rfl
      have hr : H.lookup k = _ := hr
      rw [hl] at hr
      cases hr
    show _ = _
    rw [Heap.lookup_settle hl, if_neg hk]
    exact hr

theorem Heap.freed_settle (hH : H.Typed p) {k : Handle} (hf : H.Freed k) :
    ((H.touch promise).write promise (.promise (some outcome))).Freed k :=
  Heap.freed_modifySlot (f := fun s => { s with value := some (.promise (some outcome)) })
    (fun _ => rfl) promise (Heap.freed_touch hH promise hf)

/-- What an outcome has to be to be stored. -/
def Stored (outcome : Except Fault Outcome) (good : Ref → Prop) : Prop :=
  (∀ e, outcome = .error e → ∃ message, e = .error message) ∧
    ∀ o, outcome = .ok o → good (.val o.handle)

theorem Heap.Typed.settle (hH : H.Typed p) (hl : H.lookup promise = some (.promise none))
    (ho : Stored outcome H.Good) :
    ((H.touch promise).write promise (.promise (some outcome))).Typed p := by
  have hT := (hH.touch promise).1
  have hlT : (H.touch promise).lookup promise = some (.promise none) := by
    rw [Heap.lookup_touch, hl]
  refine ⟨hT.rep.write hlT _, by rw [Heap.write_reads, hT.reads], ?_, ?_⟩
  · intro k v hv
    rw [Heap.lookup_settle hl] at hv
    split at hv
    · cases hv
      cases outcome with
      | error e => exact ho.1 e rfl
      | ok o => trivial
    · exact hH.wellFormed k v hv
  · intro k v hv r hr
    rw [Heap.lookup_settle hl] at hv
    split at hv
    · cases hv
      cases outcome with
      | error e => exact absurd hr (Set.notMem_empty r)
      | ok o =>
          obtain rfl : r = .val o.handle := hr
          exact Heap.good_settle hl (ho.2 o rfl) (by simp)
    · refine Heap.good_settle hl (hH.good k v hv r hr) ?_
      rintro rfl
      exact Value.pending_notMem_refs v promise hr

end Settle

theorem Vm.Follows.settle {vm : Vm F σ} (hH : vm.heap.Typed p) {promise : Handle}
    (hl : vm.heap.lookup promise = some (.promise none)) (outcome : Except Fault Outcome) :
    vm.Follows (vm.settle promise outcome) where
  values := by
    intro k v hv
    left
    by_cases hk : k = promise
    · subst hk
      rw [hl] at hv
      cases hv
      exact ⟨_, by rw [Vm.settle, Heap.lookup_settle hl, if_pos rfl], .settles outcome⟩
    · exact ⟨v, by rw [Vm.settle, Heap.lookup_settle hl, if_neg hk, hv], .evolves (.same v)⟩
  freed := fun k hf => Heap.freed_settle hH hf
  epoch := Nat.le_succ _
  next := Nat.le_refl _

/-- Settling a promise that no task of the table owns. -/
theorem Inv.settle {s : State F σ} (h : Inv p hosts running s) {promise : Handle}
    (outcome : Except Fault Outcome) (hpending : s.vm.heap.Good (.pending promise))
    (hpromise : promise ∉ s.vm.promises) (ho : Stored outcome s.vm.heap.Good)
    {running' : Option (Nat × Handle)}
    (hrunning : (running' = running ∧ ∀ id k, running = some (id, k) → k ≠ promise) ∨
      (running' = none ∧ ∃ id, running = some (id, promise))) :
    Inv p hosts running'
      { s with
        vm := s.vm.settle promise outcome
        trace := ⟨.settled promise outcome, s.vm, s.frames⟩ :: s.trace } := by
  have hl : s.vm.heap.lookup promise = some (.promise none) := hpending
  have hfollows : s.vm.Follows (s.vm.settle promise outcome) :=
    .settle h.sound.heap hl outcome
  have hgood : ∀ r, r ≠ .pending promise → s.vm.heap.Good r →
      (s.vm.settle promise outcome).heap.Good r := fun r hne hr => Heap.good_settle hl hr hne
  have hended : (s.vm.settle promise outcome).Ended promise outcome :=
    Or.inl (by rw [Vm.settle, Heap.lookup_settle hl, if_pos rfl])
  have hsound : (s.vm.settle promise outcome).Sound p hosts s.frames :=
    { h.sound with
      heap := h.sound.heap.settle hl ho
      refs := by
        intro r hr
        refine hgood r ?_ (h.sound.refs r hr)
        rintro rfl
        exact hpromise (Vm.mem_promises_of_pending hr)
      frameRefs := by
        intro r hr
        refine hgood r ?_ (h.sound.frameRefs r hr)
        rintro rfl
        exact pending_notMem_framesRefs s.frames promise hr
      orderKeys := BTreeMap.nodup_keys_insert h.sound.orderKeys _ _
      epochs := by
        intro k e he
        have he : (s.vm.completionOrder.insert promise (s.vm.completionEpoch + 1)).get? k =
          some e := he
        rw [BTreeMap.get?_insert] at he
        split at he
        · cases he
          exact Nat.le_refl _
        · exact (h.sound.epochs k e he).trans (Nat.le_succ _) }
  have hmem : ∀ {e : Event F σ}, e ∈ s.trace →
      e ∈ (⟨.settled promise outcome, s.vm, s.frames⟩ :: s.trace : List (Event F σ)) :=
    fun he => List.mem_cons_of_mem _ he
  have hdone : ∀ id k, Done s.trace id k →
      Done (⟨.settled promise outcome, s.vm, s.frames⟩ :: s.trace) id k := by
    rintro id k ⟨e, he, hx⟩
    exact ⟨e, hmem he, hx⟩
  refine ⟨hsound, ⟨?_, ?_, ?_, ?_⟩, ?_, ?_, ?_⟩
  · intro e he
    rcases List.mem_cons.mp he with rfl | he
    · exact h.sound
    · exact h.past.sound e he
  · exact List.pairwise_cons.mpr ⟨fun e he => h.before e he, h.past.pairwise⟩
  · intro e he k o hx
    rcases List.mem_cons.mp he with rfl | he
    · cases hx
      exact hl
    · exact h.past.fresh e he k o hx
  · intro hw e he
    have hw' : NoWrap s.trace := fun x hx => hw x (hmem hx)
    rcases List.mem_cons.mp he with rfl | he
    · exact h.ordered hw'
    · exact h.past.ordered hw' e he
  · intro e he
    rcases List.mem_cons.mp he with rfl | he
    · refine ⟨hfollows, fun k o hx => ?_⟩
      cases hx
      exact ⟨Nat.lt_succ_self _, hended⟩
    · exact (h.before e he).trans hfollows
  · intro hw k hk
    have hw' : NoWrap s.trace := fun x hx => hw x (hmem hx)
    show ∃ e, (s.vm.completionOrder.insert promise (s.vm.completionEpoch + 1)).get? k = some e
    rw [BTreeMap.get?_insert]
    split
    · exact ⟨_, rfl⟩
    · next hne =>
        refine h.ordered hw' k ?_
        have hk : (s.vm.settle promise outcome).heap.settled k = true := hk
        rwa [Heap.settled, Vm.settle, Heap.lookup_settle hl, if_neg (Ne.symm hne)] at hk
  · constructor
    · intro e he id k hx
      rcases List.mem_cons.mp he with rfl | he
      · cases hx
      · rcases h.accounted.spawned e he id k hx with ht | hr | hd
        · exact Or.inl ht
        · rcases hrunning with ⟨rfl, -⟩ | ⟨rfl, id', hr'⟩
          · exact Or.inr (Or.inl hr)
          · rw [hr] at hr'
            cases hr'
            exact Or.inr (Or.inr ⟨_, List.mem_cons_self, Or.inl ⟨outcome, rfl⟩⟩)
        · exact Or.inr (Or.inr (hdone id k hd))
    · intro e he
      obtain ⟨x, hx, hlab⟩ := h.accounted.tasks e he
      exact ⟨x, hmem hx, hlab⟩
    · intro e he id hx
      rcases List.mem_cons.mp he with rfl | he
      · cases hx
      · obtain ⟨hk, hlt, hr⟩ := h.accounted.cancelled e he id hx
        refine ⟨hk, hlt, fun k hr' => ?_⟩
        rcases hrunning with ⟨rfl, -⟩ | ⟨rfl, -⟩
        · exact hr k hr'
        · cases hr'
    · intro id k hr
      rcases hrunning with ⟨rfl, hne⟩ | ⟨rfl, -⟩
      · obtain ⟨hp, hpr, hid, hlt, x, hx, hlab⟩ := h.accounted.running id k hr
        refine ⟨hgood _ ?_ hp, hpr, hid, hlt, x, hmem hx, hlab⟩
        intro he
        cases he
        exact hne id _ hr rfl
      · cases hr

namespace M

theorem exec_settlePromise {s : State F σ} {promise : Handle} {v : Value F}
    (hl : s.vm.heap.lookup promise = some v) (outcome : Except Fault Outcome) :
    (settlePromise promise outcome).exec s =
      (.ok (),
        { s with
          vm := s.vm.settle promise outcome
          trace := ⟨.settled promise outcome, s.vm, s.frames⟩ :: s.trace }) := by
  have hreplace : s.vm.heap.replace promise (.promise (some outcome)) =
      .ok ((s.vm.heap.touch promise).write promise (.promise (some outcome))) := by
    rw [Heap.replace, Heap.get_of_lookup hl]
    rfl
  simp only [settlePromise, log, liftHeap, HeapM.replace, modifyVm, Prog.exec_bind,
    Prog.exec_modify, Prog.exec_within, Prog.exec_ofExec, hreplace, Vm.settle]

/-- A promise settled from the start enters the settlement order. -/
theorem typed_readyPromise {outcome : Except Fault Outcome}
    (herr : ∀ e, outcome = .error e → ∃ message, e = .error message)
    (hok : ∀ o, outcome = .ok o → Ref.val o.handle ∈ Γ) :
    Typed (vmTheory p hosts sites running) Γ (readyPromise outcome) (fun _ => True)
      fun h => {.val h} := by
  intro s hs hΓ
  obtain ⟨hK, hev⟩ := hs.sound.heap.alloc (v := .promise none) trivial rfl
    fun r hr => absurd hr (Set.notMem_empty r)
  obtain ⟨hs₁, hext₁⟩ := hs.of_heap hK hev
  obtain ⟨hnot, hother⟩ := hs.fresh (.promise none)
  have hlookup := Heap.lookup_alloc_self hs.sound.heap (.promise none)
  have ho : Stored outcome (s.vm.heap.alloc (.promise none)).2.Good :=
    ⟨herr, fun o hx => hev.toGrows.good (hΓ _ (hok o hx))⟩
  have hs₂ := hs₁.settle outcome hlookup hnot ho (Or.inl ⟨rfl, hother⟩)
  have halloc : (alloc (.promise none) : M F σ Handle).exec s =
      (.ok (s.vm.heap.alloc (.promise none)).1,
        { s with vm := { s.vm with heap := (s.vm.heap.alloc (.promise none)).2 } }) := rfl
  rw [readyPromise, Prog.exec_bind_ok halloc,
    Prog.exec_bind_ok (exec_settlePromise hlookup outcome), Prog.exec_pure]
  refine ⟨hs₂, ⟨⟨?_, ?_⟩, rfl, Nat.le_succ _, Nat.le_refl _, .cons rfl _⟩, trivial, ?_⟩
  · -- no handle of the start is the new promise
    intro k v hv
    refine ⟨v, ?_, .same v⟩
    have hk : k ≠ (s.vm.heap.alloc (.promise none)).1 := by
      rintro rfl
      rw [Heap.lookup_alloc_fresh hs.sound.heap.rep] at hv
      cases hv
    show Heap.lookup _ k = some v
    rw [Vm.settle, Heap.lookup_settle hlookup, if_neg hk,
      Heap.lookup_alloc hs.sound.heap.rep, if_neg hk, hv]
  · exact fun k hf => Heap.freed_settle hK (hev.freed k hf)
  · rintro r rfl
    refine ⟨.promise (some outcome), ?_, rfl⟩
    show Heap.lookup _ _ = _
    rw [Vm.settle, Heap.lookup_settle hlookup, if_pos rfl]

end M

end Rules

end Deka.Vm
