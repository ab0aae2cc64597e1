/-
Deka/Vm/RecordStep.lean

What one instruction does to the records of the machine, and to the accounts of the scheduler.

Almost no instruction makes a record: the pass over the machine is by `Bare`, and the few that
store one say why it is listed.  The same pass says that no instruction marks the trace or touches
the counter of instructions, for which the records need not be watched.
-/
import Deka.Lib.Fallible
import Deka.Vm.Drive
import Deka.Vm.RecordOrder

namespace Deka.Vm

open Deka.Lib

set_option linter.dupNamespace false

variable {F σ α : Type}

/-! ### Programs -/

/-- The records an instruction makes of a document. -/
def Op.hydrates : Op F → List (Option String × List String)
  | .jsonParse shape | .jsonParseResult shape => shape.builds
  | _ => []

/-- An instruction names the fields of a record it makes once. -/
def Op.NamesOnce : Op F → Prop
  | .struct _ _ fields _ => fields.Nodup
  | op => ∀ e ∈ op.hydrates, e.2.Nodup

/-- Some instruction makes structs of this type of a document. -/
def Program.Hydrates (program : Program F) (identity : String) : Prop :=
  ∃ f ∈ program.functions, ∃ op ∈ f.code, ∃ e ∈ op.hydrates, e.1 = some identity

def Program.NamesOnce (program : Program F) : Prop :=
  ∀ f ∈ program.functions, ∀ op ∈ f.code, op.NamesOnce

theorem Program.NamesOnce.fits {program : Program F} (hnames : program.NamesOnce)
    {f : Function F} (hf : f ∈ program.functions) {op : Op F} (hop : op ∈ f.code)
    (hstruct : op.NamesOnce = ∀ e ∈ op.hydrates, e.2.Nodup) :
    FitsBuilds program.Hydrates op.hydrates := by
  intro e he
  have honce : ∀ e ∈ op.hydrates, e.2.Nodup := hstruct ▸ hnames f hf op hop
  exact ⟨honce e he, fun identity hidentity => ⟨f, hf, op, hop, e, he, hidentity⟩⟩

/-- What a turn is accountable for. -/
inductive Mark where
  | instruction
  | polled (id : Nat)
deriving DecidableEq, Repr

def Label.mark : Label F → Option Mark
  | .instruction _ => some .instruction
  | .polled id => some (.polled id)
  | _ => none

/-- The marks of the trace, the newest one first. -/
def State.marks (s : State F σ) : List Mark := s.trace.filterMap fun e => e.label.mark

/-- The instructions counted, and their limit. -/
def Vm.meter (vm : Vm F σ) : Nat × Option Nat := (vm.instructions, vm.instructionLimit)

/-- Where they are `watched`, the records of the heap are listed and the program stays; no mark is
added, and no instruction counted. -/
def listing (σ : Type) (program : Program F) (watched : Prop) :
    Theory Fault (State F σ) Empty where
  Inv s := watched → s.vm.program = program ∧ s.vm.heap.Listed program.Hydrates
  Ext s t := t.marks = s.marks ∧ t.vm.meter = s.vm.meter
  Good _ _ := True
  Fails _ := True
  refl _ := ⟨rfl, rfl⟩
  trans h k := ⟨k.1.trans h.1, k.2.trans h.2⟩
  mono _ _ := trivial

namespace M

variable {program : Program F} {watched : Prop} {Γ : Set Empty}

/-! ### Access to the state -/

theorem bare_modify {f : State F σ → State F σ} (hheap : ∀ s, (f s).vm.heap = s.vm.heap)
    (hprogram : ∀ s, (f s).vm.program = s.vm.program) (hmarks : ∀ s, (f s).marks = s.marks)
    (hcount : ∀ s, (f s).vm.meter = s.vm.meter) :
    Bare (listing σ program watched) Γ (modify f) := by
  intro s hs _
  refine ⟨fun hw => ⟨(hprogram s).trans (hs hw).1, ?_⟩, ⟨hmarks s, hcount s⟩, trivial,
    fun _ _ => trivial⟩
  rw [hheap]
  exact (hs hw).2

theorem bare_modifyVm {f : Vm F σ → Vm F σ} (hheap : ∀ vm, (f vm).heap = vm.heap)
    (hprogram : ∀ vm, (f vm).program = vm.program)
    (hcount : ∀ vm, (f vm).meter = vm.meter) :
    Bare (listing σ program watched) Γ (modifyVm f) :=
  bare_modify (fun s => hheap s.vm) (fun s => hprogram s.vm) (fun _ => rfl) fun s => hcount s.vm

/-- To change the call stack. -/
theorem bare_frames (f : State F σ → List Frame) :
    Bare (listing σ program watched) Γ (modify fun s => { s with frames := f s }) :=
  bare_modify (fun _ => rfl) (fun _ => rfl) (fun _ => rfl) fun _ => rfl

theorem bare_log {label : Label F} (hlabel : label.mark = none) :
    Bare (listing σ program watched) Γ (log label : M F σ Unit) :=
  bare_modify (fun _ => rfl) (fun _ => rfl) (fun _ => List.filterMap_cons_none hlabel)
    fun _ => rfl

theorem bare_vm : Bare (listing σ program watched) Γ (vm : M F σ (Vm F σ)) :=
  Bare.reads fun _ => trivial

/-- A heap program is a matter of records alone. -/
theorem bare_liftHeap {m : HeapM F α} (hm : watched → Bare (heapListing F program.Hydrates) ∅ m) :
    Bare (listing σ program watched) Γ (liftHeap m : M F σ α) := by
  intro s hs _
  rw [liftHeap, Prog.exec_within]
  have hkept : watched → (m.exec s.vm.heap).2.Listed program.Hydrates := by
    intro hw
    have hrun := hm hw s.vm.heap (hs hw).2 fun _ _ => trivial
    rcases hexec : m.exec s.vm.heap with ⟨e | a, H⟩
    · rw [hexec] at hrun
      exact hrun.1
    · rw [hexec] at hrun
      exact hrun.1
  rcases hexec : m.exec s.vm.heap with ⟨e | a, H⟩ <;> rw [hexec] at hkept
  · exact ⟨fun hw => ⟨(hs hw).1, hkept hw⟩, ⟨rfl, rfl⟩, trivial⟩
  · exact ⟨fun hw => ⟨(hs hw).1, hkept hw⟩, ⟨rfl, rfl⟩, trivial,
      fun _ _ => trivial⟩

theorem bare_alloc {v : Value F} (hv : watched → v.Listed program.Hydrates) :
    Bare (listing σ program watched) Γ (alloc v : M F σ Handle) :=
  bare_liftHeap fun hw => HeapM.bare_alloc (hv hw)

/-- A value that was stored before. -/
theorem typed_lookup (h : Handle) :
    Typed (listing σ program watched) Γ (get h : M F σ (Value F))
      (fun v => watched → v.Listed program.Hydrates) fun _ => ∅ := by
  intro s hs _
  have hexec : (get h : M F σ (Value F)).exec s = (s.vm.heap.get h, s) := rfl
  rw [hexec]
  rcases hget : s.vm.heap.get h with e | v
  · exact ⟨hs, ⟨rfl, rfl⟩, trivial⟩
  · exact ⟨hs, ⟨rfl, rfl⟩, fun hw => Heap.Listed.get (hs hw).2 hget,
      fun _ _ => trivial⟩

theorem bare_get (h : Handle) : Bare (listing σ program watched) Γ (get h : M F σ (Value F)) :=
  Bare.of_typed (typed_lookup h)

theorem bare_observe (h : Handle) (read : Read) :
    Bare (listing σ program watched) Γ (observe h read : M F σ Unit) :=
  bare_liftHeap fun _ => HeapM.bare_observe h read

theorem bare_mutate (h : Handle) {f : Value F → Except Fault (Value F × α)}
    (hf : ∀ v w a, v.Listed program.Hydrates → f v = .ok (w, a) → w.Listed program.Hydrates) :
    Bare (listing σ program watched) Γ (mutate h f : M F σ α) :=
  bare_liftHeap fun _ => HeapM.bare_mutate h hf

theorem bare_enumValue [F64 F] (name case : String) (index : Nat) (value : Option Handle) :
    Bare (listing σ program watched) Γ (enumValue name case index value : M F σ Handle) :=
  bare_liftHeap fun _ => HeapM.bare_allocEnum name case index value

theorem bare_top : Bare (listing σ program watched) Γ (top : M F σ Frame) :=
  Bare.reads fun _ => trivial

theorem bare_modifyTop (f : Frame → Frame) :
    Bare (listing σ program watched) Γ (modifyTop f : M F σ Unit) := bare_frames _

theorem bare_push (h : Handle) : Bare (listing σ program watched) Γ (push h : M F σ Unit) :=
  Bare.bind bare_top.discard fun _ => bare_modifyTop _

theorem bare_pop : Bare (listing σ program watched) Γ (pop : M F σ Handle) := by
  refine Bare.bind bare_top fun frame => ?_
  cases frame.stack with
  | nil => exact Bare.throw trivial
  | cons h stack => exact Bare.bind (bare_modifyTop _) fun _ => Bare.pure _

/-- So many handles come off the stack as were asked for. -/
theorem typed_arguments_length : ∀ count : Nat,
    Typed (listing σ program watched) Γ (arguments count : M F σ (List Handle))
      (fun hs => hs.length = count) fun _ => ∅
  | 0 => Typed.pure rfl (Set.empty_subset _)
  | count + 1 => by
    refine Typed.bind bare_pop fun h _ => ?_
    refine Typed.bind ((typed_arguments_length count).weaken Set.subset_union_left)
      fun hs hlen => ?_
    refine Typed.pure ?_ (Set.empty_subset _)
    rw [List.length_append, hlen, List.length_singleton]

theorem bare_arguments (count : Nat) :
    Bare (listing σ program watched) Γ (arguments count : M F σ (List Handle)) :=
  Bare.of_typed (typed_arguments_length count)

/-! ### Tasks and frames -/

theorem bare_settlePromise (promise : Handle) (outcome : Except Fault Outcome) :
    Bare (listing σ program watched) Γ (settlePromise promise outcome : M F σ Unit) :=
  Bare.bind (bare_log rfl) fun _ =>
    Bare.bind (bare_liftHeap fun _ => HeapM.bare_replace promise trivial) fun _ =>
      bare_modifyVm (fun _ => rfl) (fun _ => rfl) fun _ => rfl

theorem bare_readyPromise (outcome : Except Fault Outcome) :
    Bare (listing σ program watched) Γ (readyPromise outcome : M F σ Handle) :=
  Bare.bind (bare_alloc fun _ => trivial) fun _ =>
    Bare.bind (bare_settlePromise _ outcome) fun _ => Bare.pure _

theorem bare_allocNewtype {v : Value F} (hv : watched → v.Listed program.Hydrates)
    (name : String) :
    Bare (listing σ program watched) Γ (allocNewtype v name : M F σ Handle) :=
  Bare.bind (bare_log rfl) fun _ => bare_liftHeap fun hw => HeapM.bare_allocNewtype (hv hw) name

theorem bare_spawn (work : Work) :
    Bare (listing σ program watched) Γ (spawn work : M F σ Handle) :=
  Bare.bind (bare_alloc fun _ => trivial) fun _ => Bare.bind bare_vm fun _ =>
    Bare.bind (bare_log rfl) fun _ =>
      Bare.bind (bare_modifyVm (fun _ => rfl) (fun _ => rfl) fun _ => rfl) fun _ => Bare.pure _

theorem bare_join (kind : PromiseJoin) (list : Handle) :
    Bare (listing σ program watched) Γ (join kind list : M F σ Handle) := by
  refine Bare.bind (bare_get list) fun v => ?_
  cases v with
  | list inputs => exact Bare.bind bare_vm fun _ => bare_spawn _
  | _ => exact Bare.throw trivial

/-- The functions of the machine are those of the program. -/
theorem typed_function_mem (i : Nat) :
    Typed (listing σ program watched) Γ (function i : M F σ (Function F))
      (fun f => watched → f ∈ program.functions) fun _ => ∅ := by
  refine Typed.reads (fun s f hs _ hf => ?_) fun _ _ _ _ _ => trivial
  refine ⟨fun hw => ?_, fun _ _ => trivial⟩
  rw [← (hs hw).1]
  cases hget : s.vm.program.functions[i]? with
  | none =>
    rw [hget] at hf
    cases hf
  | some g =>
    rw [hget] at hf
    cases hf
    exact List.mem_of_getElem? hget

theorem bare_argumentCells : ∀ args : List Handle,
    Bare (listing σ program watched) Γ (argumentCells args : M F σ (List Handle))
  | [] => Bare.pure _
  | _ :: args => Bare.bind (bare_alloc fun _ => trivial) fun _ =>
      Bare.bind (bare_argumentCells args) fun _ => Bare.pure _

theorem bare_unitCells : ∀ count : Nat,
    Bare (listing σ program watched) Γ (unitCells count : M F σ (List Handle))
  | 0 => Bare.pure _
  | count + 1 => Bare.bind (bare_alloc fun _ => trivial) fun _ =>
      Bare.bind (bare_alloc fun _ => trivial) fun _ =>
      Bare.bind (bare_unitCells count) fun _ => Bare.pure _

theorem bare_frame (i : Nat) (captures args : List Handle) (slotChildren : Option Handle) :
    Bare (listing σ program watched) Γ (frame i captures args slotChildren : M F σ Frame) := by
  refine Bare.bind bare_vm fun vm => ?_
  cases vm.program.functions[i]? with
  | none => exact Bare.throw trivial
  | some f =>
    exact Bare.ite (Bare.throw trivial) (Bare.bind (bare_argumentCells args) fun _ =>
      Bare.bind (bare_unitCells _) fun _ => Bare.pure _)

theorem bare_invoke (i : Nat) (captures args : List Handle) (slotChildren : Option Handle) :
    Bare (listing σ program watched) Γ (invoke i captures args slotChildren : M F σ Invocation) :=
  Bare.bind (bare_frame i captures args slotChildren) fun _ =>
    Bare.bind (Bare.of_typed (typed_function_mem i)) fun _ =>
      Bare.ite (Bare.bind (bare_spawn _) fun _ => Bare.pure _) (Bare.pure _)

theorem bare_enterFrame (next : Frame) :
    Bare (listing σ program watched) Γ (enterFrame next : M F σ Unit) := by
  refine Bare.bind (Bare.reads fun _ => trivial) fun depth => ?_
  exact Bare.ite (Bare.throw trivial) (bare_frames _)

theorem bare_enter (invocation : Invocation) :
    Bare (listing σ program watched) Γ (enter invocation : M F σ Unit) := by
  cases invocation with
  | task h => exact bare_push h
  | frame next => exact bare_enterFrame next

theorem bare_callValue (callee : Handle) (args : List Handle) :
    Bare (listing σ program watched) Γ (callValue callee args : M F σ Unit) := by
  refine Bare.bind (bare_get callee) fun v => ?_
  cases v with
  | closure i captures slotChildren =>
    exact Bare.bind (bare_invoke i captures args slotChildren) fun _ => bare_enter _
  | _ => exact Bare.throw trivial

theorem bare_readProp (value : Option Handle) (thenCall : Option (List Handle)) :
    Bare (listing σ program watched) Γ (readProp value thenCall : M F σ Unit) := by
  cases value with
  | none => exact Bare.bind (bare_alloc fun _ => trivial) fun _ => bare_push _
  | some value =>
    refine Bare.bind (bare_get value) fun v => ?_
    cases v with
    | closure i captures slotChildren =>
      exact Bare.bind (bare_frame i captures [] slotChildren) fun _ => bare_enterFrame _
    | _ =>
      cases thenCall with
      | none => exact bare_push value
      | some args => exact bare_callValue value args

theorem bare_raise (value : Handle) :
    Bare (listing σ program watched) Γ (raise value : M F σ Step) :=
  Bare.bind (bare_frames _) fun _ =>
    Bare.bind (Bare.reads fun _ => trivial) fun _ => Bare.pure _

/-! ### The host boundary -/

theorem bare_field (record : Record) (name error : String) :
    Bare (listing σ program watched) Γ (field record name error : M F σ Handle) := by
  rw [field]
  cases record.get? name with
  | some h => exact Bare.pure h
  | none => exact Bare.throw trivial

theorem bare_toHost : ∀ (depth : Nat) (ancestors : List Handle) (h : Handle),
    Bare (listing σ program watched) Γ (toHost depth ancestors h : M F σ (HostValue F)) := by
  intro depth
  induction depth with
  | zero =>
    intro ancestors h
    rw [toHost]
    exact Bare.ite (Bare.throw trivial) (Bare.throw trivial)
  | succ depth ih =>
    intro ancestors h
    rw [toHost]
    refine Bare.ite (Bare.throw trivial) (Bare.bind (bare_get h) fun v => ?_)
    cases v with
    | unit | number _ | bool _ | string _ | bytes _ | host _ => exact Bare.pure _
    | list items => exact Bare.bind (Bare.mapM fun h _ => ih _ h) fun _ => Bare.pure _
    | closure i captures slotChildren =>
      refine Bare.bind bare_vm fun vm => Bare.bind ?_ fun _ => Bare.pure _
      exact bare_modifyVm (fun _ => rfl) (fun _ => rfl) fun _ => rfl
    | record r =>
      dsimp only
      split
      · refine Bare.bind (bare_field r _ _) fun case => Bare.bind (bare_get case) fun label => ?_
        split
        · exact Bare.pure _
        · exact Bare.bind (bare_field r _ _) fun payload =>
            Bare.bind (ih _ payload) fun _ => Bare.pure _
        · exact Bare.throw trivial
      · refine Bare.bind (bare_field r _ _) fun case => Bare.bind (bare_get case) fun label => ?_
        split
        · cases r.get? "value" with
          | none => exact Bare.pure _
          | some payload => exact Bare.bind (ih _ payload) fun _ => Bare.pure _
        · exact Bare.throw trivial
      · refine Bare.bind (Bare.mapM fun e _ => Bare.bind (ih _ e.2) fun _ => Bare.pure _)
          fun fields => ?_
        cases r.structIdentity with
        | none => exact Bare.pure _
        | some identity => exact Bare.pure _
    | _ => exact Bare.throw trivial

theorem bare_wireValue (h : Handle) :
    Bare (listing σ program watched) Γ (wireValue h : M F σ (HostValue F)) := bare_toHost 64 [] h

theorem bare_nominalType (name : String) :
    Bare (listing σ program watched) Γ (nominalType name : M F σ (Option HostType)) :=
  Bare.reads fun _ => trivial

theorem bare_ownedCallback (callback : HostCallback) :
    Bare (listing σ program watched) Γ (ownedCallback callback : M F σ Handle) :=
  Bare.reads fun _ => trivial

/-- The structs and records of the host are built from their maps. -/
theorem bare_allocHostValueInner [F64 F] : ∀ (depth : Nat) (value : HostValue F),
    Bare (listing σ program watched) Γ (allocHostValueInner depth value : M F σ Handle) := by
  intro depth
  induction depth with
  | zero => exact fun value => Bare.throw trivial
  | succ depth ih =>
    intro value
    have hfields : ∀ fields : List (String × HostValue F), Bare (listing σ program watched) Γ
        (fields.mapM fun e => do return (e.1, ← allocHostValueInner depth e.2) :
          M F σ (List (String × Handle))) := fun fields =>
      Bare.mapM fun e _ => Bare.bind (ih e.2) fun _ => Bare.pure _
    cases value with
    | enum name case payload =>
      refine Bare.bind (bare_nominalType name) fun ty => ?_
      dsimp only
      split
      · split
        · refine Bare.ite ?_ (Bare.throw trivial)
          cases payload with
          | none => exact bare_enumValue _ _ _ _
          | some payload => exact Bare.bind (ih payload) fun _ => bare_enumValue _ _ _ _
        · exact Bare.throw trivial
      · exact Bare.throw trivial
    | struct name fields =>
      refine Bare.bind (bare_nominalType name) fun ty => ?_
      dsimp only
      split
      · refine Bare.ite (Bare.bind (hfields fields) fun es => ?_) (Bare.throw trivial)
        exact bare_alloc fun _ => Record.listed_keys es _ _
      · exact Bare.throw trivial
    | option payload =>
      cases payload with
      | none => exact bare_enumValue _ _ _ _
      | some payload => exact Bare.bind (ih payload) fun _ => bare_enumValue _ _ _ _
    | list items => exact Bare.bind (Bare.mapM fun v _ => ih v) fun _ => bare_alloc fun _ => trivial
    | record fields =>
      exact Bare.bind (hfields fields) fun es => bare_alloc fun _ => Record.listed_ofList es
    | callback callback =>
      exact Bare.bind (bare_ownedCallback callback) fun h =>
        Bare.bind (bare_get h).discard fun _ => Bare.pure _
    | strings items =>
      exact Bare.bind (Bare.mapM fun _ _ => bare_alloc fun _ => trivial) fun _ =>
        bare_alloc fun _ => trivial
    | _ => exact bare_alloc fun _ => trivial

theorem bare_allocHostValue [F64 F] (value : HostValue F) :
    Bare (listing σ program watched) Γ (allocHostValue value : M F σ Handle) :=
  bare_allocHostValueInner 64 value

theorem bare_normalized [F64 F] (expected : HostType) (value : HostValue F) :
    Bare (listing σ program watched) Γ (normalized expected value : M F σ (HostValue F)) := by
  rw [normalized]
  cases expected.normalize value with
  | some value => exact Bare.pure value
  | none => exact Bare.throw trivial

theorem bare_hostResult [F64 F] (value : Except String (HostValue F)) (expected : HostType)
    (resultChannel : Bool) (resultError : Option HostEnumError) :
    Bare (listing σ program watched) Γ
      (hostResult value expected resultChannel resultError : M F σ Handle) := by
  cases value with
  | error error =>
    refine Bare.ite ?_ (Bare.throw trivial)
    cases resultError with
    | none => exact Bare.bind (bare_alloc fun _ => trivial) fun _ => bare_enumValue _ _ _ _
    | some typed => exact Bare.bind (bare_allocHostValue _) fun _ => bare_enumValue _ _ _ _
  | ok value =>
    refine Bare.ite ?_ (Bare.throw trivial)
    refine Bare.bind (bare_normalized expected value) fun _ =>
      Bare.bind (bare_allocHostValue _) fun _ => ?_
    exact Bare.ite (bare_enumValue _ _ _ _) (Bare.pure _)

theorem bare_callHost [F64 F] (op : HostOp F σ) (name : String) (args : List (HostValue F)) :
    Bare (listing σ program watched) Γ (callHost op name args : M F σ (HostReply F)) := by
  refine Bare.bind (Bare.reads fun _ => trivial) fun args => Bare.bind bare_vm fun vm => ?_
  refine Bare.bind (bare_modifyVm (fun _ => rfl) (fun _ => rfl) fun _ => rfl) fun _ => ?_
  cases (op.handler args vm.world).1 with
  | ready value => exact Bare.pure _
  | pending future => exact Bare.ite (Bare.pure _) (Bare.throw trivial)

theorem bare_internDescriptor (descriptor : TypeDescriptor) :
    Bare (listing σ program watched) Γ (internDescriptor descriptor : M F σ Handle) := by
  refine Bare.bind bare_vm fun vm => ?_
  cases vm.descriptors.get? descriptor with
  | some h => exact Bare.pure h
  | none =>
    refine Bare.bind (bare_alloc fun _ => trivial) fun h => Bare.bind ?_ fun _ => Bare.pure _
    exact bare_modifyVm (fun _ => rfl) (fun _ => rfl) fun _ => rfl

theorem bare_parseJson [Platform F] {shape : JsonShape}
    (hfits : watched → FitsBuilds program.Hydrates shape.builds)
    (text factories : Handle) :
    Bare (listing σ program watched) Γ (parseJson text shape factories : M F σ Handle) := by
  refine Bare.bind (bare_get text) fun v => ?_
  cases v with
  | string text =>
    refine Bare.bind (bare_liftHeap fun hw => (bare_parse (hfits hw) text factories).attempt)
      fun r => ?_
    cases r with
    | ok value => exact bare_enumValue _ _ _ _
    | error e => exact Bare.bind (bare_alloc fun _ => trivial) fun _ => bare_enumValue _ _ _ _
  | _ => exact Bare.throw trivial

/-! ### List built-ins -/

/-- To change a list in place is no matter of records. -/
theorem bare_mutateList (h : Handle) (message : String)
    (f : List Handle → Except Fault (List Handle × α)) :
    Bare (listing σ program watched) Γ (mutate h (onList message f) : M F σ α) := by
  refine bare_mutate h fun v w a _ hw => ?_
  cases v with
  | list items =>
    rw [onList] at hw
    cases hf : f items with
    | error e =>
      rw [hf] at hw
      cases hw
    | ok e =>
      rw [hf] at hw
      cases hw
      trivial
  | _ => cases hw

theorem bare_numeric : Bare (listing σ program watched) Γ (numeric : M F σ F) := by
  refine Bare.bind bare_pop fun h => Bare.bind (bare_get h) fun v => ?_
  cases v with
  | number n => exact Bare.pure n
  | _ => exact Bare.throw trivial

theorem bare_takeEnd (list : Handle)
    (f : List Handle → Except Fault (List Handle × Option Handle)) :
    Bare (listing σ program watched) Γ
      (do
        match ← mutate list (onList "pop/shift requires list" f) with
        | some h => push h
        | none => push (← alloc .unit) : M F σ Unit) := by
  refine Bare.bind (bare_mutateList list _ f) fun taken => ?_
  cases taken with
  | some h => exact bare_push h
  | none => exact Bare.bind (bare_alloc fun _ => trivial) fun _ => bare_push _

section ListMut

variable [Platform F]

theorem bare_sortItems (items : List Handle) :
    Bare (listing σ program watched) Γ (sortItems items : M F σ (List Handle)) := by
  refine Bare.bind (Bare.mapM fun h _ => ?_) fun keys => ?_
  · exact Bare.bind (bare_get h) fun _ => Bare.reads fun _ => trivial
  · cases Platform.sortBy (keys.zip items) with
    | some ranked => exact Bare.pure _
    | none => exact Bare.throw trivial

theorem bare_listMut (kind : ListMut) :
    Bare (listing σ program watched) Γ (listMut kind : M F σ Unit) := by
  cases kind with
  | push | unshift =>
    exact Bare.bind bare_pop fun _ => Bare.bind bare_pop fun list =>
      Bare.bind (bare_mutateList list _ _) fun _ => Bare.bind (bare_alloc fun _ => trivial) fun _ =>
        bare_push _
  | pop | shift => exact Bare.bind bare_pop fun list => bare_takeEnd list _
  | splice =>
    exact Bare.bind bare_numeric fun _ => Bare.bind bare_numeric fun _ =>
      Bare.bind bare_pop fun list => Bare.bind (bare_mutateList list _ _) fun _ =>
        Bare.bind (bare_alloc fun _ => trivial) fun _ => bare_push _
  | sort =>
    refine Bare.bind bare_pop fun list => Bare.bind (bare_get list) fun v => ?_
    cases v with
    | list items =>
      exact Bare.bind (bare_sortItems items) fun _ =>
        Bare.bind (bare_mutateList list _ _) fun _ => bare_push _
    | _ => exact Bare.throw trivial
  | reverse =>
    exact Bare.bind bare_pop fun list => Bare.bind (bare_mutateList list _ _) fun _ => bare_push _
  | fill =>
    exact Bare.bind bare_numeric fun _ => Bare.bind bare_pop fun _ =>
      Bare.bind bare_pop fun list => Bare.bind (bare_mutateList list _ _) fun _ => bare_push _
  | copyWithin =>
    exact Bare.bind bare_numeric fun _ => Bare.bind bare_numeric fun _ =>
      Bare.bind bare_pop fun list => Bare.bind (bare_mutateList list _ _) fun _ => bare_push _

end ListMut

/-! ### Instructions -/

theorem bare_localCell (frame : Frame) (i : Nat) :
    Bare (listing σ program watched) Γ (localCell frame i : M F σ Handle) := by
  rw [localCell]
  cases frame.locals[i]? with
  | some cell => exact Bare.pure cell
  | none => exact Bare.throw trivial

theorem bare_localCells (frame : Frame) (is : List Nat) :
    Bare (listing σ program watched) Γ (localCells frame is : M F σ (List Handle)) :=
  Bare.mapM fun i _ => bare_localCell frame i

theorem bare_readCell (frame : Frame) (i : Nat) :
    Bare (listing σ program watched) Γ (readCell frame i : M F σ Handle) := by
  refine Bare.bind (bare_localCell frame i) fun cell => Bare.bind (bare_observe cell _) fun _ => ?_
  refine Bare.bind (bare_get cell) fun v => ?_
  cases v with
  | cell h => exact Bare.pure h
  | _ => exact Bare.throw trivial

theorem bare_jump (ip : Nat) : Bare (listing σ program watched) Γ (jump ip : M F σ Unit) :=
  bare_modifyTop _

theorem bare_ownerField [Platform F] (owner : Option Handle) (name : String) (optional : Bool) :
    Bare (listing σ program watched) Γ (ownerField owner name optional : M F σ Unit) := by
  cases owner with
  | none =>
    exact Bare.ite (Bare.bind (bare_enumValue _ _ _ _) fun _ => bare_push _) (Bare.throw trivial)
  | some owner =>
    refine Bare.bind (bare_get owner) fun v => ?_
    cases v with
    | record fields => exact Bare.bind (bare_field fields _ _) fun _ => bare_push _
    | _ => exact Bare.throw trivial

theorem bare_readField [Platform F] (name : String) (optional : Bool) :
    Bare (listing σ program watched) Γ (readField name optional : M F σ Unit) := by
  refine Bare.bind bare_pop fun h => Bare.bind (bare_get h) fun v => ?_
  refine Bare.bind (bare_observe h _) fun _ => Bare.bind (bare_get h) fun w => ?_
  have hlength : ∀ n : F, Bare (listing σ program watched) Γ
      (if name = "length" then (do push (← alloc (.number n))) else
        throw (.error "unsupported field access") : M F σ Unit) := fun n =>
    Bare.ite (Bare.bind (bare_alloc fun _ => trivial) fun _ => bare_push _) (Bare.throw trivial)
  cases w with
  | props fields => exact bare_readProp _ none
  | list items => exact hlength _
  | bytes bytes => exact hlength _
  | string text => exact hlength _
  | record r =>
    exact Bare.bind (bare_liftHeap fun _ => HeapM.bare_fieldOwner name _ h) fun owner =>
      bare_ownerField owner name optional
  | _ => exact Bare.throw trivial

/-- To assign a field of a record sets it. -/
theorem bare_assignField (owner : Handle) (name : String) (value : Handle) :
    Bare (listing σ program watched) Γ (assignField owner name value : M F σ Unit) := by
  refine bare_mutate owner fun v w a hv hw => ?_
  cases v with
  | record r =>
    cases hw
    exact Record.Listed.set hv name value
  | _ => cases hw

theorem bare_indexOf [Platform F] (h : Handle) :
    Bare (listing σ program watched) Γ (indexOf h : M F σ Nat) := by
  refine Bare.bind (bare_get h) fun v => ?_
  cases v with
  | number n => exact Bare.ite (Bare.pure _) (Bare.throw trivial)
  | _ => exact Bare.throw trivial

theorem bare_closureOf (h : Handle) (error : String) :
    Bare (listing σ program watched) Γ
      (closureOf h error : M F σ (Nat × List Handle × Option Handle)) := by
  refine Bare.bind (bare_get h) fun v => ?_
  cases v with
  | closure i captures slotChildren => exact Bare.pure _
  | _ => exact Bare.throw trivial

theorem bare_methodCall (name : String) (argc : Nat) :
    Bare (listing σ program watched) Γ (methodCall name argc : M F σ Unit) := by
  refine Bare.bind (bare_arguments argc) fun args => Bare.bind bare_pop fun receiver => ?_
  refine Bare.bind (bare_observe receiver _) fun _ =>
    Bare.bind (bare_observe receiver _) fun _ => ?_
  refine Bare.bind (bare_get receiver) fun v => ?_
  cases v with
  | props fields =>
    dsimp only
    cases fields.get? name with
    | some value => exact bare_readProp _ _
    | none => exact Bare.throw trivial
  | descriptor d =>
    exact Bare.ite (Bare.bind (bare_alloc fun _ => trivial) fun _ => bare_push _)
      (Bare.throw trivial)
  | record fields =>
    dsimp only
    split
    · exact bare_callValue _ _
    · exact bare_callValue _ _
    · exact Bare.throw trivial
  | _ => exact Bare.throw trivial

theorem bare_componentCall :
    Bare (listing σ program watched) Γ (componentCall : M F σ Unit) := by
  refine Bare.bind bare_pop fun props => Bare.bind bare_pop fun component => ?_
  refine Bare.bind (bare_closureOf component _) fun closure =>
    Bare.bind (bare_get props) fun v => ?_
  cases v with
  | props fields =>
    refine Bare.bind (Bare.of_typed (typed_function_mem closure.1)) fun target => ?_
    refine Bare.ite (Bare.throw trivial) ?_
    exact Bare.bind (bare_frame _ _ _ _) fun _ => bare_enterFrame _
  | _ => exact Bare.throw trivial

theorem bare_host [Platform F] (operation : String) (argc : Nat) :
    Bare (listing σ program watched) Γ (host operation argc : M F σ Step) := by
  have hvolatile : Bare (heapListing F program.Hydrates) ∅
      (modify Heap.markVolatile : HeapM F PUnit) := fun H hH _ =>
    ⟨Heap.Listed.of_slots hH rfl, trivial, trivial, fun _ _ => trivial⟩
  refine Bare.bind (bare_liftHeap fun _ => hvolatile) fun _ =>
    Bare.bind (bare_arguments argc) fun hs => ?_
  refine Bare.bind (Bare.mapM fun h _ => bare_wireValue h) fun args => ?_
  refine Bare.bind (Bare.reads fun _ => trivial) fun op => ?_
  refine Bare.bind (bare_callHost op operation args) fun reply => ?_
  cases reply with
  | pending future =>
    exact Bare.bind (bare_spawn _) fun _ => Bare.bind (bare_push _) fun _ => Bare.pure _
  | ready value =>
    dsimp only
    split
    · exact Bare.bind (bare_allocHostValue _) fun _ => bare_raise _
    · refine Bare.ite (Bare.bind (bare_hostResult _ _ _ _).attempt fun result => ?_) ?_
      · split
        · exact Bare.throw trivial
        · exact Bare.bind (bare_readyPromise _) fun _ =>
            Bare.bind (bare_push _) fun _ => Bare.pure _
      · exact Bare.bind (bare_hostResult _ _ _ _) fun _ =>
          Bare.bind (bare_push _) fun _ => Bare.pure _

theorem bare_await : Bare (listing σ program watched) Γ (await : M F σ Step) := by
  refine Bare.bind bare_pop fun promise => Bare.bind (bare_get promise) fun v => ?_
  split
  · exact Bare.bind (bare_push _) fun _ => Bare.pure _
  · exact bare_raise _
  · exact Bare.throw trivial
  · exact Bare.bind (bare_push _) fun _ => Bare.bind (bare_modifyTop _) fun _ => Bare.pure _
  · exact Bare.throw trivial

theorem bare_return : Bare (listing σ program watched) Γ («return» : M F σ Step) := by
  refine Bare.bind bare_pop fun result => Bare.bind bare_top fun finished => ?_
  refine Bare.bind (bare_frames _) fun _ => ?_
  cases finished.thenCall with
  | some args => exact Bare.bind (bare_callValue result args) fun _ => Bare.pure _
  | none =>
    exact Bare.bind (Bare.reads fun _ => trivial) fun _ =>
      Bare.ite (Bare.pure _) (Bare.bind (bare_push _) fun _ => Bare.pure _)

theorem bare_jsonParseResult [Platform F] {shape : JsonShape}
    (hfits : watched → FitsBuilds program.Hydrates shape.builds) :
    Bare (listing σ program watched) Γ (jsonParseResult shape : M F σ Unit) := by
  refine Bare.bind bare_pop fun factories => Bare.bind bare_pop fun result => ?_
  refine Bare.bind (bare_get result) fun v => ?_
  cases v with
  | record record =>
    refine Bare.ite ?_ (Bare.throw trivial)
    refine Bare.bind (bare_field record _ _) fun case => Bare.bind (bare_field record _ _)
      fun payload => Bare.bind (bare_get case) fun label => ?_
    split
    · exact bare_push _
    · exact Bare.bind (bare_parseJson hfits payload factories) fun _ => bare_push _
    · exact Bare.throw trivial
  | _ => exact Bare.throw trivial

/-- What arithmetic yields is no record. -/
theorem arithmetic_listed [Platform F] {hydrated : String → Prop} {op : Op F}
    (hop : op.isArithmetic = true)
    {a b v : Value F} (hv : arithmetic op a b = .ok v) : v.Listed hydrated := by
  have hnumbers : ∀ x y : F, op.onNumbers x y = .ok v → v.Listed hydrated := by
    intro x y hv
    cases op <;> cases hv <;> exact trivial
  have hstrings : ∀ x y : String, op.onStrings x y = .ok v → v.Listed hydrated := by
    intro x y hv
    cases op <;> cases hv <;> exact trivial
  have hequal : ∀ same, op.onEqual same = .ok v → v.Listed hydrated := by
    intro same hv
    cases op <;> cases hv <;> exact trivial
  unfold arithmetic at hv
  split at hv
  · exact hnumbers _ _ hv
  · exact hstrings _ _ hv
  · split at hv
    · cases hv
      trivial
    · cases hv
      trivial
    · cases hv
      trivial
    · cases hv
      trivial
    · split at hv
      · obtain ⟨x, -, hx⟩ := bind_eq_ok.mp hv
        obtain ⟨y, -, hy⟩ := bind_eq_ok.mp hx
        cases hy
        trivial
      · split at hv
        · exact hequal _ hv
        · exact hequal _ hv
        · cases hv

theorem bare_arithmetic [Platform F] {op : Op F} (hop : op.isArithmetic = true) :
    Bare (listing σ program watched) Γ
      (do
        let b ← get (← pop)
        let a ← get (← pop)
        push (← alloc (← Prog.reads fun _ => arithmetic op a b))
        return .continue : M F σ Step) := by
  refine Bare.bind bare_pop fun y => Bare.bind (bare_get y) fun b => ?_
  refine Bare.bind bare_pop fun x => Bare.bind (bare_get x) fun a => ?_
  have hresult : Typed (listing σ program watched) Γ
      (Prog.reads fun _ => arithmetic op a b : M F σ (Value F))
      (fun v => watched → v.Listed program.Hydrates) fun _ => ∅ :=
    Typed.reads (fun _ _ _ _ hv => ⟨fun _ => arithmetic_listed hop hv,
      fun _ _ => trivial⟩) fun _ _ _ _ _ => trivial
  exact Bare.after hresult fun v hv =>
    Bare.bind (bare_alloc hv) fun _ => Bare.bind (bare_push _) fun _ => Bare.pure _

/-- A spread reads a record that was stored, and stores one. -/
theorem bare_recordExtend : Bare (listing σ program watched) Γ
    (do
      let source ← pop
      let target ← pop
      observe source .entity
      observe target .entity
      let .record extra ← get source | throw (.error "object spread requires a record")
      let .record fields ← get target | throw (.error "extend requires record")
      push (← alloc (.record (← Prog.reads fun _ => spread extra fields extra.order)))
      return .continue : M F σ Step) := by
  refine Bare.bind bare_pop fun source => Bare.bind bare_pop fun target => ?_
  refine Bare.bind (bare_observe source _) fun _ => Bare.bind (bare_observe target _) fun _ => ?_
  refine Bare.bind (bare_get source) fun v => ?_
  cases v with
  | record extra =>
    refine Bare.after (typed_lookup target) fun w hw => ?_
    cases w with
    | record fields =>
      have hspread : Typed (listing σ program watched) (Γ ∪ ∅)
          (Prog.reads fun _ => spread extra fields extra.order : M F σ Record)
          (fun out => watched → out.Listed program.Hydrates) fun _ => ∅ :=
        Typed.reads (fun _ _ _ _ hout => ⟨fun hwatched => Record.listed_spread (hw hwatched) hout,
          fun _ _ => trivial⟩) fun _ _ _ _ _ => trivial
      exact Bare.after hspread fun out hout =>
        Bare.bind (bare_alloc hout) fun _ => Bare.bind (bare_push _) fun _ => Bare.pure _
    | _ => exact Bare.throw trivial
  | _ => exact Bare.throw trivial

/-- To push a value that is no record. -/
theorem bare_yield {v : Value F} (hv : watched → v.Listed program.Hydrates) :
    Bare (listing σ program watched) Γ
      (do
        push (← alloc v)
        return .continue : M F σ Step) :=
  Bare.bind (bare_alloc hv) fun _ => Bare.bind (bare_push _) fun _ => Bare.pure _

theorem bare_continue (h : Handle) :
    Bare (listing σ program watched) Γ
      (do
        push h
        return .continue : M F σ Step) :=
  Bare.bind (bare_push h) fun _ => Bare.pure _

/-- One instruction of the program. -/
theorem bare_execute [Platform F] [HostWorld F σ] (hnames : watched → program.NamesOnce)
    {f : Function F} (hf : watched → f ∈ program.functions) {op : Op F} (hop : op ∈ f.code)
    (frame : Frame) :
    Bare (listing σ program watched) Γ (execute frame op : M F σ Step) := by
  cases op with
  | const v =>
    refine bare_yield fun _ => ?_
    cases v <;> exact trivial
  | pop => exact Bare.bind bare_pop.discard fun _ => Bare.pure _
  | dup => exact Bare.bind bare_pop fun h => Bare.bind (bare_push h) fun _ => bare_continue h
  | load i => exact Bare.bind (bare_readCell frame i) fun h => bare_continue h
  | loadChecked slot message =>
    refine Bare.bind (bare_readCell frame slot) fun h => Bare.bind (bare_get h) fun v => ?_
    cases v with
    | uninitialized => exact Bare.throw trivial
    | _ => exact bare_continue h
  | store i =>
    exact Bare.bind bare_pop fun h => Bare.bind (bare_localCell frame i) fun cell =>
      Bare.bind (bare_liftHeap fun _ => HeapM.bare_replace cell trivial) fun _ => Bare.pure _
  | rebind i =>
    exact Bare.bind (bare_alloc fun _ => trivial) fun _ =>
      Bare.bind (bare_alloc fun _ => trivial) fun _ =>
      Bare.bind (bare_localCell frame i).discard fun _ =>
        Bare.bind (bare_modifyTop _) fun _ => Bare.pure _
  | add | sub | mul | div | mod | less | lessEq | greater | greaterEq | equal | notEqual
  | bitAnd | bitOr | bitXor | shl | shr => exact bare_arithmetic rfl
  | neg =>
    refine Bare.bind bare_pop fun h => Bare.bind (bare_get h) fun v => ?_
    cases v with
    | number n => exact bare_yield fun _ => trivial
    | _ => exact Bare.throw trivial
  | not =>
    refine Bare.bind bare_pop fun h => Bare.bind (bare_get h) fun v => ?_
    cases v with
    | bool b => exact bare_yield fun _ => trivial
    | _ => exact Bare.throw trivial
  | jump ip => exact Bare.bind (bare_jump ip) fun _ => Bare.pure _
  | newtype name =>
    refine Bare.bind bare_pop fun h => Bare.after (typed_lookup h) fun v hv => ?_
    exact Bare.bind (bare_allocNewtype hv name) fun _ => bare_continue _
  | getType =>
    exact Bare.bind bare_pop fun h =>
      Bare.bind (bare_liftHeap fun _ => HeapM.bare_typeOf h) fun _ =>
      Bare.bind (bare_internDescriptor _) fun _ => bare_continue _
  | jsonStringify shape =>
    exact Bare.bind bare_pop fun _ =>
      Bare.bind (bare_liftHeap fun _ => Bare.reads fun _ => trivial) fun _ =>
        bare_yield fun _ => trivial
  | jwtStringify shape error =>
    refine Bare.bind bare_pop fun _ =>
      Bare.bind (bare_liftHeap fun _ => Bare.attempt (Bare.reads fun _ => trivial)) fun r => ?_
    cases r with
    | ok text =>
      exact Bare.bind (bare_alloc fun _ => trivial) fun _ =>
        Bare.bind (bare_enumValue _ _ _ _) fun _ => bare_continue _
    | error e =>
      exact Bare.bind (bare_alloc fun _ => trivial) fun _ =>
        Bare.bind (bare_enumValue _ _ _ _) fun _ => bare_continue _
  | jsonParse shape =>
    have hfits := fun hw => (hnames hw).fits (hf hw) hop rfl
    exact Bare.bind bare_pop fun factories => Bare.bind bare_pop fun text =>
      Bare.bind (bare_parseJson hfits text factories) fun _ => bare_continue _
  | jsonParseResult shape =>
    exact Bare.bind (bare_jsonParseResult fun hw => (hnames hw).fits (hf hw) hop rfl) fun _ =>
      Bare.pure _
  | descriptor d => exact Bare.bind (bare_internDescriptor d) fun _ => bare_continue _
  | enum name case index payload =>
    have hvalue : ∀ value, Bare (listing σ program watched) Γ
        (do
          push (← enumValue name case index value)
          return .continue : M F σ Step) := fun value =>
      Bare.bind (bare_enumValue _ _ _ _) fun _ => bare_continue _
    exact Bare.ite (Bare.bind bare_pop.map hvalue) (Bare.bind (Bare.pure _) hvalue)
  | matchEnum name case =>
    refine Bare.bind bare_pop fun h => Bare.bind (bare_observe h _) fun _ => ?_
    have hmatched : ∀ matched, Bare (listing σ program watched) Γ
        (do
          push (← alloc (.bool matched))
          return .continue : M F σ Step) := fun _ => bare_yield fun _ => trivial
    refine Bare.bind (bare_get h) fun v => ?_
    cases v with
    | record r =>
      dsimp only
      split
      · exact Bare.ite (Bare.bind (Bare.reads fun _ => trivial) hmatched)
          (Bare.bind (Bare.pure _) hmatched)
      · exact Bare.bind (Bare.pure _) hmatched
    | _ => exact Bare.bind (Bare.pure _) hmatched
  | matchStruct identity =>
    exact Bare.bind bare_pop fun h => Bare.bind (bare_get h) fun _ => bare_yield fun _ => trivial
  | matchType expected =>
    exact Bare.bind bare_pop fun h =>
      Bare.bind (bare_liftHeap fun _ => HeapM.bare_typeOf h) fun _ =>
      bare_yield fun _ => trivial
  | matchEqual =>
    exact Bare.bind bare_pop fun y => Bare.bind bare_pop fun x =>
      Bare.bind (bare_get x) fun _ => Bare.bind (bare_get y) fun _ => bare_yield fun _ => trivial
  | matchTuple length =>
    exact Bare.bind bare_pop fun h => Bare.bind (bare_observe h _) fun _ =>
      Bare.bind (bare_get h) fun _ => bare_yield fun _ => trivial
  | toString =>
    exact Bare.bind bare_pop fun h =>
      Bare.bind (bare_liftHeap fun _ => HeapM.bare_valueText h) fun _ =>
      bare_yield fun _ => trivial
  | toNumber =>
    refine Bare.bind bare_pop fun h => Bare.bind (bare_get h) fun v => ?_
    cases v with
    | number n => exact bare_yield fun _ => trivial
    | bool b => exact bare_yield fun _ => trivial
    | _ => exact Bare.throw trivial
  | panic =>
    refine Bare.bind bare_pop fun h => Bare.bind (bare_get h) fun v => ?_
    cases v with
    | string message => exact Bare.throw trivial
    | _ => exact Bare.throw trivial
  | jumpIfFalse ip =>
    refine Bare.bind bare_pop fun h => Bare.bind (bare_get h) fun v => ?_
    cases v with
    | bool b =>
      exact Bare.ite (Bare.pure _) (Bare.bind (bare_jump ip) fun _ => Bare.pure _)
    | _ => exact Bare.throw trivial
  | jumpIfUnit ip =>
    refine Bare.bind bare_pop fun h => Bare.bind (bare_get h) fun v => ?_
    cases v with
    | unit => exact Bare.bind (bare_jump ip) fun _ => Bare.pure _
    | _ => exact Bare.pure _
  | closure i captures =>
    exact Bare.bind (bare_localCells frame captures) fun _ => bare_yield fun _ => trivial
  | slot =>
    rw [execute]
    cases frame.slotChildren with
    | some children => exact bare_continue children
    | none => exact bare_yield fun _ => trivial
  | componentCall => exact Bare.bind bare_componentCall fun _ => Bare.pure _
  | call argc =>
    exact Bare.bind (bare_arguments argc) fun args => Bare.bind bare_pop fun callee =>
      Bare.bind (bare_callValue callee args) fun _ => Bare.pure _
  | methodCall name argc => exact Bare.bind (bare_methodCall name argc) fun _ => Bare.pure _
  | host operation argc => exact bare_host operation argc
  | promiseJoin kind =>
    exact Bare.bind bare_pop fun list => Bare.bind (bare_join kind list) fun _ => bare_continue _
  | await => exact bare_await
  | handler target => exact Bare.bind (bare_modifyTop _) fun _ => Bare.pure _
  | endHandler =>
    rw [execute]
    cases frame.handlers with
    | nil => exact Bare.throw trivial
    | cons handler handlers => exact Bare.bind (bare_modifyTop _) fun _ => Bare.pure _
  | throw => exact Bare.bind bare_pop fun value => bare_raise value
  | «return» => exact bare_return
  | list count => exact Bare.bind (bare_arguments count) fun _ => bare_yield fun _ => trivial
  | listHas =>
    refine Bare.bind bare_pop fun index => Bare.bind bare_pop fun list => ?_
    refine Bare.bind (bare_observe list _) fun _ => Bare.bind (bare_get index) fun v => ?_
    cases v with
    | number n =>
      refine Bare.bind (bare_get list) fun w => ?_
      cases w with
      | list items => exact bare_yield fun _ => trivial
      | _ => exact Bare.throw trivial
    | _ => exact Bare.throw trivial
  | listAppend =>
    refine Bare.bind bare_pop fun item => Bare.bind bare_pop fun list => ?_
    refine Bare.bind (bare_observe list _) fun _ => Bare.bind (bare_get list) fun v => ?_
    cases v with
    | list items => exact bare_yield fun _ => trivial
    | _ => exact Bare.throw trivial
  | listExtend =>
    refine Bare.bind bare_pop fun source => Bare.bind bare_pop fun target => ?_
    refine Bare.bind (bare_observe source _) fun _ => Bare.bind (bare_observe target _) fun _ => ?_
    refine Bare.bind (bare_get source) fun v => ?_
    cases v with
    | list extra =>
      refine Bare.bind (bare_get target) fun w => ?_
      cases w with
      | list items => exact bare_yield fun _ => trivial
      | _ => exact Bare.throw trivial
    | _ => exact Bare.throw trivial
  | props names =>
    exact Bare.bind (bare_arguments names.length) fun _ => bare_yield fun _ => trivial
  | record names =>
    exact Bare.bind (bare_arguments names.length) fun items =>
      bare_yield fun _ => Record.listed_ofList (names.zip items)
  | struct name identity fields embeds =>
    exact Bare.after (typed_arguments_length fields.length) fun items hlength =>
      bare_yield fun hw =>
        Record.listed_zip (hnames hw f (hf hw) _ hop) hlength (some name) identity embeds
  | recordExtend => exact bare_recordExtend
  | field name => exact Bare.bind (bare_readField name false) fun _ => Bare.pure _
  | optionalField name => exact Bare.bind (bare_readField name true) fun _ => Bare.pure _
  | fieldOrSelf name =>
    refine Bare.bind bare_pop fun h => Bare.bind (bare_observe h _) fun _ => ?_
    refine Bare.bind (bare_get h) fun v => ?_
    cases v with
    | props fields =>
      dsimp only
      cases fields.get? name with
      | some value => exact Bare.bind (bare_readProp _ none) fun _ => Bare.pure _
      | none => exact bare_continue h
    | record fields => exact bare_continue _
    | _ => exact Bare.throw trivial
  | index =>
    refine Bare.bind bare_pop fun index => Bare.bind bare_pop fun object => ?_
    refine Bare.bind (bare_indexOf index) fun i => Bare.bind (bare_observe object _) fun _ => ?_
    refine Bare.bind (bare_get object) fun v => ?_
    cases v with
    | list items =>
      dsimp only
      cases items[i]? with
      | some h => exact bare_continue h
      | none => exact Bare.throw trivial
    | bytes bytes =>
      dsimp only
      cases bytes[i]? with
      | some byte => exact bare_yield fun _ => trivial
      | none => exact Bare.throw trivial
    | string text =>
      dsimp only
      cases text.toList[i]? with
      | some ch => exact bare_yield fun _ => trivial
      | none => exact Bare.throw trivial
    | _ => exact Bare.throw trivial
  | fieldSet name =>
    refine Bare.bind bare_pop fun value => Bare.bind bare_pop fun object => ?_
    refine Bare.bind (bare_liftHeap fun _ => HeapM.bare_fieldOwner name _ object) fun owner => ?_
    exact Bare.bind (bare_assignField _ name value) fun _ => bare_continue value
  | indexSet =>
    refine Bare.bind bare_pop fun value => Bare.bind bare_pop fun index => ?_
    refine Bare.bind bare_pop fun object => Bare.bind (bare_indexOf index) fun i => ?_
    refine Bare.bind (bare_mutate object fun v w a _ hw => ?_) fun _ => bare_continue value
    cases v with
    | list items =>
      dsimp only at hw
      split at hw
      · cases hw
        trivial
      · cases hw
    | _ => cases hw
  | listMut kind => exact Bare.bind (bare_listMut kind) fun _ => Bare.pure _

/-- The fetch of an instruction, up to its mark. -/
theorem marks_instruction (op : Op F) (s : State F σ) :
    State.marks { s with trace := ⟨.instruction op, s.vm, s.frames⟩ :: s.trace } =
      .instruction :: s.marks :=
  List.filterMap_cons_some rfl

end M

end Deka.Vm
