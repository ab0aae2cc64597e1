/-
Deka/Vm/CollectTyping.lean

A collection keeps the invariant of the machine.

Whatever the machine stores is a root or is held by a root: the promise a task
waits for is on its operand stack, and the first outcome of a join is the outcome
of one of its inputs.  So everything that can be reached is live, the collector
never meets a stale handle, and what the machine stores survives.
-/
import Deka.Vm.Collect
import Deka.Vm.JoinTyping

namespace Deka.Vm

open Deka.Lib

set_option linter.dupNamespace false

variable {F σ : Type} {p : Program F} {hosts : Hosts F σ}

/-! ### References and reachability -/

def Ref.handle : Ref → Handle
  | .val h | .cell h | .data h | .record h | .pending h | .settled h _ => h

/-- Whether a reference is good depends on the value of its handle only. -/
theorem Heap.Good.congr {H K : Heap F} {r : Ref} (h : K.lookup r.handle = H.lookup r.handle)
    (hr : H.Good r) : K.Good r := by
  cases r with
  | val k | cell k | data k | record k =>
      obtain ⟨v, hv⟩ := hr
      have h : K.lookup k = H.lookup k := h
      exact ⟨v, by rw [h]; exact hv⟩
  | pending k | settled k o =>
      have h : K.lookup k = H.lookup k := h
      exact h.trans hr

/-- A good reference is live. -/
theorem Heap.Good.live {H : Heap F} {r : Ref} (hr : H.Good r) :
    ∃ v, H.lookup r.handle = some v := by
  cases r with
  | val k | data k =>
      obtain ⟨v, hv, -⟩ := hr
      exact ⟨v, hv⟩
  | cell k | record k =>
      obtain ⟨x, hx⟩ := hr
      exact ⟨_, hx⟩
  | pending k | settled k o => exact ⟨_, hr⟩

theorem handle_of_mem_vals {hs : List Handle} {r : Ref} (hr : r ∈ vals hs) : r.handle ∈ hs := by
  obtain ⟨h, hh, rfl⟩ := hr
  exact hh

theorem handle_of_mem_cells {hs : List Handle} {r : Ref} (hr : r ∈ cells hs) :
    r.handle ∈ hs := by
  obtain ⟨h, hh, rfl⟩ := hr
  exact hh

/-- The collector traces what a value refers to, and nothing else. -/
theorem Value.children_iff {v : Value F} {k : Handle} :
    k ∈ v.children ↔ ∃ r ∈ v.refs, r.handle = k := by
  constructor
  · intro hk
    match v, hk with
    | .cell h, hk =>
        rw [List.mem_singleton.mp hk]
        exact ⟨.val h, rfl, rfl⟩
    | .promise (some (.ok o)), hk =>
        rw [List.mem_singleton.mp hk]
        exact ⟨.val o.handle, rfl, rfl⟩
    | .list items, hk => exact ⟨.val k, ⟨k, hk, rfl⟩, rfl⟩
    | .closure _ captures slotChildren, hk =>
        rcases List.mem_append.mp hk with hk | hk
        · exact ⟨.cell k, Or.inl ⟨k, hk, rfl⟩, rfl⟩
        · exact ⟨.val k, Or.inr ⟨k, hk, rfl⟩, rfl⟩
    | .record r, hk => exact ⟨.val k, ⟨k, hk, rfl⟩, rfl⟩
    | .props fields, hk => exact ⟨.val k, ⟨k, hk, rfl⟩, rfl⟩
  · rintro ⟨r, hr, rfl⟩
    match v, hr with
    | .cell h, hr =>
        cases hr
        exact List.mem_singleton.mpr rfl
    | .promise (some (.ok o)), hr =>
        cases hr
        exact List.mem_singleton.mpr rfl
    | .list items, hr => exact handle_of_mem_vals hr
    | .closure _ captures slotChildren, hr =>
        rcases hr with hr | hr
        · exact List.mem_append_left _ (handle_of_mem_cells hr)
        · exact List.mem_append_right _ (handle_of_mem_vals hr)
    | .record r, hr => exact handle_of_mem_vals hr
    | .props fields, hr => exact handle_of_mem_vals hr

/-- In a well-typed heap everything that can be reached from live roots is live. -/
theorem Heap.Typed.closed {H : Heap F} (hH : H.Typed p) {roots : List Handle}
    (hroots : ∀ h ∈ roots, ∃ v, H.lookup h = some v) : H.Closed roots := by
  intro h hh
  induction hh with
  | root hmem => exact hroots _ hmem
  | step _ hpoints _ =>
      obtain ⟨v, hv, hk⟩ := hpoints
      obtain ⟨r, hr, rfl⟩ := Value.children_iff.mp hk
      exact (hH.good _ v hv r hr).live

/-! ### Roots -/

/-- The roots of a frame. -/
theorem Frame.mem_roots {frame : Frame} {k : Handle} :
    k ∈ frame.locals ++ frame.stack.reverse ++ frame.slotChildren.toList ++
        frame.thenCall.getD [] ↔ ∃ r ∈ frame.refs, r.handle = k := by
  constructor
  · intro hk
    rcases List.mem_append.mp hk with hk | hk
    · rcases List.mem_append.mp hk with hk | hk
      · rcases List.mem_append.mp hk with hk | hk
        · exact ⟨.cell k, Or.inl (Or.inl (Or.inl ⟨k, hk, rfl⟩)), rfl⟩
        · exact ⟨.val k, Or.inl (Or.inl (Or.inr ⟨k, List.mem_reverse.mp hk, rfl⟩)), rfl⟩
      · exact ⟨.val k, Or.inl (Or.inr ⟨k, hk, rfl⟩), rfl⟩
    · exact ⟨.val k, Or.inr ⟨k, hk, rfl⟩, rfl⟩
  · rintro ⟨r, ((hr | hr) | hr) | hr, rfl⟩
    · exact List.mem_append_left _ (List.mem_append_left _ (List.mem_append_left _
        (handle_of_mem_cells hr)))
    · exact List.mem_append_left _ (List.mem_append_left _ (List.mem_append_right _
        (List.mem_reverse.mpr (handle_of_mem_vals hr))))
    · exact List.mem_append_left _ (List.mem_append_right _ (handle_of_mem_vals hr))
    · exact List.mem_append_right _ (handle_of_mem_vals hr)

/-- What a task stores is rooted: its first outcome through the input it came from. -/
theorem Task.mem_roots {task : Task} {k : Handle} :
    k ∈ task.roots ↔ ∃ r ∈ task.refs, r.handle = k := by
  rw [Task.roots, List.mem_cons]
  constructor
  · rintro (rfl | hk)
    · exact ⟨.pending task.promise, Or.inl rfl, rfl⟩
    · rcases hwork : task.work with frames | join | promise | work
      · rw [hwork] at hk
        obtain ⟨frame, hframe, hk⟩ := List.mem_flatMap.mp hk
        obtain ⟨r, hr, rfl⟩ := Frame.mem_roots.mp hk
        exact ⟨r, Or.inr (by rw [hwork]; exact ⟨frame, hframe, hr⟩), rfl⟩
      · rw [hwork] at hk
        rcases List.mem_append.mp hk with hk | hk
        · exact ⟨.val k, Or.inr (by rw [hwork]; exact Or.inl (Or.inl ⟨k, hk, rfl⟩)), rfl⟩
        · exact ⟨.val k, Or.inr (by rw [hwork]; exact Or.inl (Or.inr ⟨k, hk, rfl⟩)), rfl⟩
      · rw [hwork] at hk
        rw [List.mem_singleton.mp hk]
        exact ⟨.val promise, Or.inr (by rw [hwork]; rfl), rfl⟩
      · rw [hwork] at hk
        exact absurd hk List.not_mem_nil
  · rintro ⟨r, hr | hr, rfl⟩
    · rw [hr]
      exact Or.inl rfl
    · right
      rcases hwork : task.work with frames | join | promise | work
      · rw [hwork] at hr
        obtain ⟨frame, hframe, hr⟩ := hr
        exact List.mem_flatMap.mpr ⟨frame, hframe, Frame.mem_roots.mpr ⟨r, hr, rfl⟩⟩
      · rw [hwork] at hr
        rcases hr with (hr | hr) | ⟨x, h, -, hi, rfl⟩
        · exact List.mem_append_left _ (handle_of_mem_vals hr)
        · exact List.mem_append_right _ (handle_of_mem_vals hr)
        · exact List.mem_append_left _ (List.mem_of_getElem? hi)
      · rw [hwork] at hr
        rw [hr]
        exact List.mem_singleton.mpr rfl
      · rw [hwork] at hr
        exact absurd hr (Set.notMem_empty r)

variable [HostWorld F σ]

/-- The roots of a collection of this machine. -/
def Vm.collectRoots (vm : Vm F σ) : List Handle := vm.roots (vm.context.roots vm.world).1

/-- Callbacks are only ever dropped from the weak list. -/
theorem HostContext.mem_roots {world : σ} {c : HostContext F} {k : Handle}
    (hk : k ∈ (c.roots world).1) : k ∈ c.callbacks.values := by
  obtain ⟨e, he, rfl⟩ := List.mem_map.mp hk
  exact List.mem_map.mpr ⟨e, (List.mem_filter.mp he).1, rfl⟩

/-- Every root is live. -/
theorem Vm.Sound.roots_live {vm : Vm F σ} {frames : List Frame} (h : vm.Sound p hosts frames)
    {k : Handle} (hk : k ∈ vm.collectRoots) : ∃ v, vm.heap.lookup k = some v := by
  rcases List.mem_append.mp hk with hk | hk
  · have hmem : k ∈ vm.handles := by
      rcases List.mem_append.mp hk with hk | hk
      · exact List.mem_append_left _ hk
      · exact List.mem_append_right _ (HostContext.mem_roots hk)
    exact (h.refs (.val k) (Or.inl ⟨k, hmem, rfl⟩)).live
  · obtain ⟨task, htask, hk⟩ := List.mem_flatMap.mp hk
    obtain ⟨e, he, rfl⟩ := List.mem_map.mp htask
    obtain ⟨r, hr, rfl⟩ := Task.mem_roots.mp hk
    exact (h.refs r (Or.inr ⟨e, he, hr⟩)).live

/-- The machine after a collection that left the heap `K`. -/
def Vm.collected (vm : Vm F σ) (K : Heap F) : Vm F σ :=
  { vm with
    context := (vm.context.roots vm.world).2
    heap := K
    completionOrder := vm.completionOrder.filter fun e => K.settled e.1 }

/-- What the machine still stores after a collection was a root of it. -/
theorem Vm.collected_refs {vm : Vm F σ} {K : Heap F} {r : Ref}
    (hr : r ∈ (vm.collected K).refs) : r.handle ∈ vm.collectRoots ∧ r ∈ vm.refs := by
  rcases hr with ⟨k, hk, rfl⟩ | ⟨e, he, hr⟩
  · rcases List.mem_append.mp hk with hk | hk
    · exact ⟨List.mem_append_left _ (List.mem_append_left _ hk),
        Or.inl ⟨k, List.mem_append_left _ hk, rfl⟩⟩
    · have hk : k ∈ (vm.context.roots vm.world).1 := hk
      exact ⟨List.mem_append_left _ (List.mem_append_right _ hk),
        Or.inl ⟨k, List.mem_append_right _ (HostContext.mem_roots hk), rfl⟩⟩
  · refine ⟨List.mem_append_right _ (List.mem_flatMap.mpr ⟨e.2, ?_, ?_⟩), Or.inr ⟨e, he, hr⟩⟩
    · exact List.mem_map.mpr ⟨e, he, rfl⟩
    · exact Task.mem_roots.mpr ⟨r, hr, rfl⟩

/-! ### A collection -/

section Collected

variable {vm : Vm F σ} {frames : List Frame} {K : Heap F}

/-- A heap whose live values are those that could be reached. -/
structure Swept (H K : Heap F) (roots : List Handle) : Prop where
  rep : K.Rep
  reads : K.reads = none
  live : ∀ h v, K.lookup h = some v ↔ H.lookup h = some v ∧ H.Reaches roots h
  freed : ∀ h, H.Freed h → K.Freed h
  dead : ∀ h v, H.lookup h = some v → K.lookup h = none → K.Freed h

theorem Swept.lookup {H : Heap F} {roots : List Handle} (h : Swept H K roots) {k : Handle}
    (hk : H.Reaches roots k) : K.lookup k = H.lookup k := by
  rcases hH : H.lookup k with - | v
  · rcases hK : K.lookup k with - | w
    · rfl
    · rw [((h.live k w).mp hK).1] at hH
      cases hH
  · exact (h.live k v).mpr ⟨hH, hk⟩

theorem Swept.typed {H : Heap F} {roots : List Handle} (h : Swept H K roots)
    (hH : H.Typed p) : K.Typed p where
  rep := h.rep
  reads := h.reads
  wellFormed := fun k v hv => hH.wellFormed k v ((h.live k v).mp hv).1
  good := by
    intro k v hv r hr
    obtain ⟨hv, hk⟩ := (h.live k v).mp hv
    refine (hH.good k v hv r hr).congr (h.lookup ?_)
    exact .step hk ⟨v, hv, Value.children_iff.mpr ⟨r, hr, rfl⟩⟩

theorem Swept.follows (h : Swept vm.heap K vm.collectRoots) : vm.Follows (vm.collected K) where
  values := by
    intro k v hv
    rcases hK : K.lookup k with - | w
    · exact Or.inr (h.dead k v hv hK)
    · obtain ⟨hw, -⟩ := (h.live k w).mp hK
      rw [hv] at hw
      cases hw
      exact Or.inl ⟨v, hK, .evolves (.same v)⟩
  freed := h.freed
  epoch := Nat.le_refl _
  next := Nat.le_refl _

/-- **After a collection everything the machine stores is still good.** -/
theorem Vm.Sound.collected (hs : vm.Sound p hosts frames)
    (h : Swept vm.heap K vm.collectRoots) : (vm.collected K).Sound p hosts [] where
  program := hs.program
  hosts := hs.hosts
  heap := h.typed hs.heap
  refs := by
    intro r hr
    obtain ⟨hroot, hr⟩ := Vm.collected_refs hr
    exact (hs.refs r hr).congr (h.lookup (.root hroot))
  frameRefs := by
    rintro r ⟨frame, hframe, -⟩
    exact absurd hframe List.not_mem_nil
  wellFormed := fun frame hframe => absurd hframe List.not_mem_nil
  depth := Nat.zero_le _
  tasks := hs.tasks
  ids := hs.ids
  next := hs.next
  promises := hs.promises
  orderKeys := BTreeMap.nodup_keys_filter hs.orderKeys _
  epochs := by
    intro k e he
    refine hs.epochs k e ?_
    obtain ⟨hmem, -⟩ := List.mem_filter.mp (BTreeMap.mem_of_get? he)
    exact BTreeMap.get?_of_mem hs.orderKeys hmem

theorem Vm.Ordered.collected (hord : vm.Ordered) (horder : vm.completionOrder.keys.Nodup)
    (h : Swept vm.heap K vm.collectRoots) : (vm.collected K).Ordered := by
  intro k hk
  have hsettled : K.settled k = true := hk
  have hold : vm.heap.settled k = true := by
    rw [Heap.settled] at hsettled ⊢
    rcases hK : K.lookup k with - | w
    · rw [hK] at hsettled
      cases hsettled
    · rw [((h.live k w).mp hK).1]
      rw [hK] at hsettled
      exact hsettled
  obtain ⟨e, he⟩ := hord k hold
  refine ⟨e, ?_⟩
  refine BTreeMap.get?_of_mem (BTreeMap.nodup_keys_filter horder _) ?_
  exact List.mem_filter.mpr ⟨BTreeMap.mem_of_get? he, hsettled⟩

end Collected

/-- What a collection does to an invariant state. -/
theorem Inv.collected {s : State F σ} (h : Inv p hosts none s) {K : Heap F}
    (hK : Swept s.vm.heap K s.vm.collectRoots) :
    Inv p hosts none
      { vm := s.vm.collected K
        frames := []
        trace := ⟨.collected, s.vm, s.frames⟩ :: s.trace } := by
  have hlog := h.log .collected (by simp) (by simp) (by simp)
  refine ⟨h.sound.collected hK, hlog.past, ?_, ?_, ?_⟩
  · exact fun e he => (hlog.before e he).trans hK.follows
  · exact fun hw => (hlog.ordered hw).collected h.sound.orderKeys hK
  · obtain ⟨h₁, h₂, h₃, h₄⟩ := hlog.accounted
    exact ⟨h₁, h₂, h₃, fun id k hr => by cases hr⟩

namespace M

theorem exec_collect (s : State F σ) :
    (collect : M F σ Unit).exec s =
      match s.vm.heap.collect s.vm.collectRoots with
      | (.ok (), K) =>
          (.ok (),
            { vm := s.vm.collected K
              frames := []
              trace := ⟨.collected, s.vm, s.frames⟩ :: s.trace })
      | (.error e, K) =>
          (.error e,
            { vm := { s.vm with context := (s.vm.context.roots s.vm.world).2, heap := K }
              frames := []
              trace := ⟨.collected, s.vm, s.frames⟩ :: s.trace }) := by
  have hroots : s.vm.collectRoots = s.vm.roots (s.vm.context.roots s.vm.world).1 := rfl
  simp only [collect, log, vm, modifyVm, collectHeap, liftHeap, Prog.exec_bind,
    Prog.exec_modify, Prog.exec_reads, Prog.exec_within, Prog.exec_ofExec, ← hroots]
  rcases s.vm.heap.collect s.vm.collectRoots with ⟨e | ⟨⟩, K⟩
  · rfl
  · rfl

end M

end Deka.Vm
