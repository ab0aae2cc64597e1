/-
Deka/Vm/TurnSlices.lean

What a turn may cost, and whom it serves.

A turn polls the tasks of its schedule in their order and gives each of them a slice: its marks are
one `polled` and at most 256 instructions for every task served, and the slices together stay
within the budget of the turn and the instruction limit.  The records of the heap stay listed all
the while.
-/
import Deka.Lib.Triple
import Deka.Vm.RecordStep
import Deka.Vm.Sample

namespace Deka.Vm

open Deka.Lib

set_option linter.dupNamespace false

variable {F σ α : Type} {program : Program F} {watched : Prop}

/-! ### Slices -/

/-- The tasks served, the latest first, and the instructions that each of them executed. -/
abbrev Slices := List (Nat × Nat)

namespace Slices

def marks : Slices → List Mark
  | [] => []
  | (id, count) :: rest => List.replicate count .instruction ++ .polled id :: marks rest

/-- The tasks in the order of their turns. -/
def order (slices : Slices) : List Nat := (slices.map Prod.fst).reverse

def executed (slices : Slices) : Nat := (slices.map Prod.snd).sum

theorem executed_cons (id count : Nat) (slices : Slices) :
    executed ((id, count) :: slices) = count + slices.executed := List.sum_cons

theorem executed_append (more slices : Slices) :
    executed (more ++ slices) = more.executed + slices.executed := by
  rw [executed, List.map_append, List.sum_append]
  rfl

theorem order_append (more slices : Slices) :
    order (more ++ slices) = slices.order ++ more.order := by
  rw [order, List.map_append, List.reverse_append]
  rfl

theorem length_order (slices : Slices) : slices.order.length = slices.length := by
  rw [order, List.length_reverse, List.length_map]

/-- The slices are those of a first part of the schedule, and the budget pays for them. -/
structure Fit (slices : Slices) (ids : List Nat) (budget : Nat) : Prop where
  order : slices.order <+: ids
  each : ∀ e ∈ slices, e.2 ≤ 256
  executed : slices.executed ≤ budget

end Slices

/-- Since `origin` the machine served these slices, within the `limit` of instructions. -/
structure Served (program : Program F) (watched : Prop) (limit : Option Nat) (origin : State F σ)
    (slices : Slices) (s : State F σ) : Prop where
  inv : (listing σ program watched).Inv s
  marks : s.marks = slices.marks ++ origin.marks
  limited : s.vm.instructionLimit = origin.vm.instructionLimit
  counted : slices.executed + origin.vm.instructions ≤ s.vm.instructions
  capped : ∀ l, limit = some l →
    slices.executed + origin.vm.instructions ≤ max origin.vm.instructions l

variable {limit : Option Nat} {origin : State F σ} {slices : Slices}

theorem Served.of_ext {s t : State F σ} (h : Served program watched limit origin slices s)
    (hinv : (listing σ program watched).Inv t) (hext : (listing σ program watched).Ext s t) :
    Served program watched limit origin slices t :=
  ⟨hinv, hext.1.trans h.marks, (congrArg Prod.snd hext.2).trans h.limited,
    h.counted.trans (congrArg Prod.fst hext.2).ge, h.capped⟩

/-- A program that leaves no mark. -/
theorem served_of_typed {m : M F σ α} {φ : α → Prop}
    (hm : Typed (listing σ program watched) ∅ m φ fun _ => ∅) :
    Triple (Served program watched limit origin slices) m
      (fun a s => φ a ∧ Served program watched limit origin slices s)
      (fun _ => Served program watched limit origin slices) := by
  intro s hs
  have hrun := hm s hs.inv fun _ _ => trivial
  rcases hexec : m.exec s with ⟨e | a, t⟩
  · rw [hexec] at hrun
    exact hs.of_ext hrun.1 hrun.2.1
  · rw [hexec] at hrun
    exact ⟨hrun.2.2.1, hs.of_ext hrun.1 hrun.2.1⟩

theorem served_of_bare {m : M F σ α} (hm : Bare (listing σ program watched) ∅ m) :
    Triple (Served program watched limit origin slices) m
      (fun _ => Served program watched limit origin slices)
      (fun _ => Served program watched limit origin slices) :=
  (served_of_typed hm).post fun _ _ hs => hs.2

namespace M

variable {Γ : Set Empty}

/-! ### Joins -/

theorem bare_visitInput (join : Join) (promise : Handle) :
    Bare (listing σ program watched) Γ (visitInput join promise : M F σ Join) := by
  refine Bare.bind (bare_get promise) fun v => ?_
  split
  · exact Bare.throw trivial
  · refine Bare.ite (Bare.bind bare_vm fun vm => ?_) (Bare.pure _)
    cases vm.completionOrder.get? promise with
    | some order => exact Bare.pure _
    | none => exact Bare.throw trivial
  · exact Bare.pure _
  · exact Bare.throw trivial

/-- A scan of `count` inputs takes at most that much of the budget. -/
theorem typed_scanInputs_cost : ∀ (count : Nat) (join : Join) (remaining : Nat),
    Typed (listing σ program watched) Γ (scanInputs count join remaining : M F σ (Join × Nat))
      (fun r => r.2 ≤ remaining ∧ remaining ≤ r.2 + count) fun _ => ∅
  | 0, join, remaining => Typed.pure ⟨Nat.le_refl _, Nat.le_refl _⟩ (Set.empty_subset _)
  | count + 1, join, remaining => by
    rw [scanInputs]
    cases join.inputs[join.cursor]? with
    | none => exact Typed.pure ⟨by dsimp only; omega, by dsimp only; omega⟩ (Set.empty_subset _)
    | some promise =>
      refine Typed.bind (bare_visitInput join promise) fun join _ => ?_
      refine ((typed_scanInputs_cost count _ _).weaken Set.subset_union_left).promise ?_
        fun _ _ => Set.empty_subset _
      rintro r ⟨hle, hge⟩
      exact ⟨by omega, by omega⟩

theorem bare_concludeJoin (join : Join) :
    Bare (listing σ program watched) Γ (concludeJoin join : M F σ (Join × Option Outcome)) := by
  refine Bare.ite (Bare.pure _) ?_
  split
  · exact Bare.ite (Bare.pure _) (Bare.pure _)
  · exact Bare.ite (Bare.bind (bare_alloc fun _ => trivial) fun _ => Bare.pure _) (Bare.pure _)

theorem typed_pollJoin_cost (join : Join) (remaining : Nat) :
    Typed (listing σ program watched) Γ
      (pollJoin join remaining : M F σ (Join × Option Outcome × Nat))
      (fun r => r.2.2 ≤ remaining ∧ remaining ≤ r.2.2 + 256) fun _ => ∅ := by
  refine Typed.bind bare_vm fun vm _ => ?_
  refine Typed.bind (typed_scanInputs_cost _ _ _) fun r hr => ?_
  refine Typed.bind (bare_concludeJoin r.1) fun o _ => ?_
  exact Typed.pure ⟨hr.1, hr.2.trans (Nat.add_le_add_left (Nat.min_le_left _ _) _)⟩
    (Set.empty_subset _)

/-! ### Callbacks and host commands -/

theorem bare_callbackPayload (h : Handle) :
    Bare (listing σ program watched) Γ (callbackPayload h : M F σ (Except String Handle)) := by
  refine Bare.bind (bare_get h) fun v => ?_
  cases v with
  | record record =>
    refine Bare.ite ?_ (Bare.throw trivial)
    refine Bare.bind (bare_field record _ _) fun case => Bare.bind (bare_field record _ _)
      fun payload => Bare.bind (bare_get case) fun label => ?_
    split
    · exact Bare.pure _
    · refine Bare.bind (bare_get payload) fun v => ?_
      cases v with
      | string error => exact Bare.pure _
      | _ => exact Bare.throw trivial
    · exact Bare.throw trivial
  | _ => exact Bare.throw trivial

section Platform

variable [Platform F]

theorem bare_uncaught (h : Handle) :
    Bare (listing σ program watched) Γ (uncaught h : M F σ α) :=
  Bare.bind (bare_liftHeap fun _ => HeapM.bare_valueText h) fun _ => Bare.throw trivial

theorem bare_callbackValue (expected : HostType) (resultChannel : Bool) (h : Handle) :
    Bare (listing σ program watched) Γ
      (callbackValue expected resultChannel h : M F σ (Except String (HostValue F))) := by
  refine Bare.bind (Bare.ite (bare_callbackPayload h) (Bare.pure _)) fun payload => ?_
  cases payload with
  | error error => exact Bare.pure _
  | ok k =>
    refine Bare.bind (bare_wireValue k) fun value => ?_
    exact Bare.ite (Bare.bind (bare_normalized _ _) fun _ => Bare.pure _) (Bare.throw trivial)

theorem bare_callbackResult (outcome : Except Fault Outcome) (expected : HostType)
    (resultChannel : Bool) :
    Bare (listing σ program watched) Γ
      (callbackResult outcome expected resultChannel :
        M F σ (Except String (HostValue F))) := by
  rcases outcome with e | (h | h)
  · exact Bare.throw trivial
  · exact bare_callbackValue expected resultChannel h
  · exact bare_uncaught h

theorem bare_runCommand (command : Command F) :
    Bare (listing σ program watched) Γ (runCommand command : M F σ Unit) := by
  cases command with
  | spawn job future =>
    exact Bare.bind bare_vm fun vm => Bare.ite (Bare.pure _) (bare_spawn _).discard
  | cancel id =>
    refine Bare.bind bare_vm fun vm => Bare.bind (Bare.forM fun e _ => bare_log rfl) fun _ => ?_
    exact bare_modifyVm (fun _ => rfl) (fun _ => rfl) fun _ => rfl
  | call callback args job completion =>
    refine Bare.bind bare_vm fun vm => Bare.ite (Bare.pure _) ?_
    refine Bare.bind (bare_ownedCallback callback) fun h =>
      Bare.bind (bare_closureOf h _) fun c => ?_
    refine Bare.bind (Bare.mapM fun value _ => bare_allocHostValue value) fun args => ?_
    refine Bare.bind (bare_frame _ _ _ _) fun frame => Bare.bind bare_vm fun vm => ?_
    exact Bare.bind (bare_spawn _).discard fun _ =>
      bare_modifyVm (fun _ => rfl) (fun _ => rfl) fun _ => rfl

/-- The queued commands take their part of the budget. -/
theorem typed_hostCommandsOf (queue : List (Command F)) (context : HostContext F)
    (remaining : Nat) :
    Typed (listing σ program watched) Γ
      (do
        modifyVm fun vm => { vm with context }
        queue.forM runCommand
        return (!queue.isEmpty, remaining - queue.length) : M F σ (Bool × Nat))
      (fun r => r.2 ≤ remaining ∧ remaining ≤ r.2 + queue.length) fun _ => ∅ := by
  have hcontext : Bare (listing σ program watched) Γ
      (modifyVm fun vm => { vm with context } : M F σ Unit) :=
    bare_modifyVm (fun _ => rfl) (fun _ => rfl) fun _ => rfl
  refine Typed.bind hcontext fun _ _ => ?_
  refine Typed.bind (Bare.forM fun command _ => bare_runCommand command) fun _ _ => ?_
  exact Typed.pure ⟨by dsimp only; omega, by dsimp only; omega⟩ (Set.empty_subset _)

theorem typed_hostCommands_cost (remaining : Nat) :
    Typed (listing σ program watched) Γ (hostCommands remaining : M F σ (Bool × Nat))
      (fun r => r.2 ≤ remaining) fun _ => ∅ := by
  refine Typed.bind bare_vm fun vm _ => ?_
  exact (typed_hostCommandsOf _ _ _).promise (fun _ hr => hr.1) fun _ _ => Set.empty_subset _

theorem typed_commandsOf_cost (only : Option Handle) (p : Progress) :
    Typed (listing σ program watched) Γ (commandsOf only p : M F σ Progress)
      (fun q => q.remaining ≤ p.remaining ∧ q.deferred = p.deferred) fun _ => ∅ := by
  by_cases honly : only.isNone = true
  · rw [commandsOf, if_pos honly]
    refine Typed.bind (typed_hostCommands_cost p.remaining) fun r hr => ?_
    exact Typed.pure ⟨hr, rfl⟩ (Set.empty_subset _)
  · rw [commandsOf, if_neg honly]
    exact Typed.pure ⟨Nat.le_refl _, rfl⟩ (Set.empty_subset _)

/-- What a short queue leaves of the budget. -/
theorem served_commandsOf (only : Option Handle) (p : Progress) (n : Nat) :
    Triple (fun s => s.vm.context.queue.length ≤ n ∧
        Served program watched limit origin slices s)
      (commandsOf only p : M F σ Progress)
      (fun q s => (p.remaining ≤ q.remaining + n ∧ q.remaining ≤ p.remaining ∧
        q.deferred = p.deferred) ∧ Served program watched limit origin slices s)
      (fun _ => Served program watched limit origin slices) := by
  by_cases honly : only.isNone = true
  · rw [commandsOf, if_pos honly]
    have hhost : Triple (fun s => s.vm.context.queue.length ≤ n ∧
          Served program watched limit origin slices s)
        (hostCommands p.remaining : M F σ (Bool × Nat))
        (fun r s => (p.remaining ≤ r.2 + n ∧ r.2 ≤ p.remaining) ∧
          Served program watched limit origin slices s)
        (fun _ => Served program watched limit origin slices) := by
      refine Triple.bind (Q := fun v s => v.context.queue.length ≤ n ∧
        Served program watched limit origin slices s) (Triple.reads ?_ ?_) fun v => ?_
      · intro s v hs hv
        cases hv
        exact hs
      · intro s e hs he
        cases he
      · refine Triple.assume (fun s hs => hs.1) fun hqueue => ?_
        refine Triple.pre ((served_of_typed (typed_hostCommandsOf _ _ p.remaining)).post ?_)
          fun s hs => hs.2
        rintro r s ⟨⟨hle, hge⟩, hs⟩
        have htake : (v.context.take p.remaining).1.length ≤ n :=
          (List.length_take_le' _ _).trans hqueue
        exact ⟨⟨hge.trans (Nat.add_le_add_left htake _), hle⟩, hs⟩
    exact Triple.bind hhost fun r => Triple.pure fun s hs => ⟨⟨hs.1.1, hs.1.2, rfl⟩, hs.2⟩
  · rw [commandsOf, if_neg honly]
    exact Triple.pure fun s hs => ⟨⟨Nat.le_add_right _ _, Nat.le_refl _, rfl⟩, hs.2⟩

/-! ### The end of a slice -/

section World

variable [HostWorld F σ]

omit [Platform F] in
theorem bare_resolve (completion : Completion) (value : Except String (HostValue F)) :
    Bare (listing σ program watched) Γ (resolve completion value : M F σ Unit) :=
  bare_modifyVm (fun _ => rfl) (fun _ => rfl) fun _ => rfl

theorem bare_complete (completion : Completion) (outcome : Except Fault Outcome) :
    Bare (listing σ program watched) Γ (complete completion outcome : M F σ Unit) := by
  refine Bare.bind (bare_callbackResult outcome _ _).attempt fun result => ?_
  rcases result with (message | - | site) | value
  · exact Bare.bind (bare_resolve _ _) fun _ => Bare.throw trivial
  · exact Bare.bind (bare_resolve _ _) fun _ => Bare.throw trivial
  · exact Bare.throw trivial
  · exact bare_resolve _ _

omit [Platform F] [HostWorld F σ] in
theorem bare_followed (task : Task) (outcome : Except Fault Outcome) :
    Bare (listing σ program watched) Γ (followed task outcome : M F σ (Option Handle)) := by
  unfold followed
  split
  · exact Bare.bind (bare_get _) fun _ => Bare.pure _
  · exact Bare.pure _

omit [Platform F] [HostWorld F σ] in
theorem bare_park (id : Nat) (task : Task) :
    Bare (listing σ program watched) Γ (park id task : M F σ Unit) :=
  Bare.bind (bare_log rfl) fun _ => bare_modifyVm (fun _ => rfl) (fun _ => rfl) fun _ => rfl

omit [Platform F] [HostWorld F σ] in
theorem bare_settleTask (promise : Handle) (outcome : Except Fault Outcome) :
    Bare (listing σ program watched) Γ (settleTask promise outcome : M F σ Unit) := by
  cases outcome with
  | ok outcome => exact bare_settlePromise _ _
  | error e => exact Bare.throw trivial

theorem bare_finishTask (id : Nat) (task : Task) (outcome : Except Fault Outcome) :
    Bare (listing σ program watched) Γ (finishTask id task outcome : M F σ Unit) := by
  refine Bare.bind (bare_followed task outcome) fun r => ?_
  cases r with
  | some promise => exact bare_park _ _
  | none =>
    dsimp only
    split
    · exact Bare.bind (bare_complete _ _) fun _ => bare_settleTask _ _
    · exact bare_settleTask _ _

/-- The rest of the budget is what the slice left. -/
theorem typed_endSlice_cost (id : Nat) (p : Progress) (slice : Slice) :
    Typed (listing σ program watched) Γ (endSlice id p slice : M F σ Progress)
      (fun q => q.remaining = slice.remaining ∧ q.deferred = p.deferred) fun _ => ∅ := by
  rw [endSlice]
  split
  · exact Typed.bind (bare_finishTask _ _ _) fun _ _ =>
      Typed.pure ⟨rfl, rfl⟩ (Set.empty_subset _)
  · exact Typed.bind (bare_park _ _) fun _ _ => Typed.pure ⟨rfl, rfl⟩ (Set.empty_subset _)

/-! ### One slice -/

omit [Platform F] [HostWorld F σ] in
/-- A look at the state tells a fact. -/
theorem served_reads {P : State F σ → Prop} {f : State F σ → Except Fault α} {φ : α → Prop}
    (hf : Typed (listing σ program watched) ∅ (Prog.reads f) φ fun _ => ∅)
    (hinv : ∀ s, P s → (listing σ program watched).Inv s) :
    Triple P (Prog.reads f) (fun a s => φ a ∧ P s) (fun _ => P) := by
  intro s hs
  have hrun := hf s (hinv s hs) fun _ _ => trivial
  rw [Prog.exec_reads] at hrun ⊢
  rcases hread : f s with e | a
  · exact hs
  · rw [hread] at hrun
    exact ⟨hrun.2.2.1, hs⟩

omit [Platform F] [HostWorld F σ] in
/-- The mark of an instruction belongs to the slice that runs. -/
theorem served_instruction {id count : Nat} {s : State F σ} (op : Op F)
    (hahead : count + 1 + slices.executed + origin.vm.instructions ≤ s.vm.instructions)
    (hcapped : ∀ l, limit = some l → s.vm.instructions ≤ l)
    (hs : Served program watched limit origin ((id, count) :: slices) s) :
    Served program watched limit origin ((id, count + 1) :: slices)
      { s with trace := ⟨.instruction op, s.vm, s.frames⟩ :: s.trace } := by
  have hcost : Slices.executed ((id, count + 1) :: slices) = count + 1 + slices.executed :=
    Slices.executed_cons _ _ _
  refine ⟨hs.inv, ?_, hs.limited, ?_, fun l hl => ?_⟩
  · rw [marks_instruction, hs.marks]
    rfl
  · rw [hcost]
    exact hahead
  · rw [hcost]
    exact (hahead.trans (hcapped l hl)).trans (Nat.le_max_right _ _)

/-- One instruction more in the slice that runs, which the counter is ahead of. -/
theorem served_step (hnames : watched → program.NamesOnce) {id count : Nat} :
    Triple (fun s => Served program watched limit origin ((id, count) :: slices) s ∧
        count + 1 + slices.executed + origin.vm.instructions ≤ s.vm.instructions ∧
        ∀ l, limit = some l → s.vm.instructions ≤ l)
      (step : M F σ Step)
      (fun _ s => ∃ more ≤ 1,
        Served program watched limit origin ((id, count + more) :: slices) s)
      (fun _ s => ∃ more ≤ 1,
        Served program watched limit origin ((id, count + more) :: slices) s) := by
  have hnone : ∀ s, Served program watched limit origin ((id, count) :: slices) s →
      ∃ more ≤ 1, Served program watched limit origin ((id, count + more) :: slices) s :=
    fun s hs => ⟨0, Nat.zero_le 1, hs⟩
  have hone : ∀ s, Served program watched limit origin ((id, count + 1) :: slices) s →
      ∃ more ≤ 1, Served program watched limit origin ((id, count + more) :: slices) s :=
    fun s hs => ⟨1, Nat.le_refl 1, hs⟩
  refine Triple.bind ((served_reads bare_top fun s hs => hs.1.inv).conseq (fun _ hs => hs)
    (fun _ _ hs => hs.2) fun _ s hs => hnone s hs.1) fun frame => ?_
  refine Triple.bind ((served_reads (typed_function_mem frame.function)
    fun s hs => hs.1.inv).conseq (fun _ hs => hs) (fun _ _ hs => hs) fun _ s hs => hnone s hs.1)
    fun f => ?_
  refine Triple.assume (fun s hs => hs.1) fun hf => ?_
  cases hop : f.code[frame.ip]? with
  | none => exact Triple.throw fun s hs => hnone s hs.2.1
  | some op =>
    refine Triple.bind (Q := fun _ s =>
      Served program watched limit origin ((id, count + 1) :: slices) s)
      (Triple.modify fun s hs => served_instruction op hs.2.2.1 hs.2.2.2 hs.2.1) fun _ => ?_
    refine (served_of_bare (Bare.bind (bare_modifyTop _) fun _ =>
      bare_execute hnames hf (List.mem_of_getElem? hop) frame)).conseq (fun _ hs => hs)
      (fun _ s hs => hone s hs) fun _ s hs => hone s hs

/-- At most `count` instructions more, each paid for. -/
theorem served_runCode (hnames : watched → program.NamesOnce) (task : Task) {id : Nat} :
    ∀ (count done remaining : Nat) (progressed : Bool), count ≤ remaining →
      Triple (Served program watched limit origin ((id, done) :: slices))
        (runCode limit task count remaining progressed : M F σ Slice)
        (fun slice s => ∃ more ≤ count,
          Served program watched limit origin ((id, done + more) :: slices) s ∧
          slice.remaining + more ≤ remaining ∧ remaining ≤ slice.remaining + count)
        (fun _ s => ∃ more ≤ count,
          Served program watched limit origin ((id, done + more) :: slices) s)
  | 0, done, remaining, progressed, _ =>
    Triple.pure fun s hs => ⟨0, Nat.le_refl 0, hs, Nat.le_refl _, Nat.le_refl _⟩
  | count + 1, done, remaining, progressed, hcount => by
    rw [runCode]
    refine Triple.bind (Q := fun _ s =>
      Served program watched limit origin ((id, done) :: slices) s ∧
        done + 1 + slices.executed + origin.vm.instructions ≤ s.vm.instructions)
      (Triple.modify fun s hs => ?_) fun _ => ?_
    · have hahead := hs.counted
      rw [Slices.executed_cons] at hahead
      refine ⟨⟨hs.inv, hs.marks, hs.limited, ?_, hs.capped⟩, ?_⟩
      · show _ ≤ s.vm.instructions + 1
        exact hs.counted.trans (Nat.le_succ _)
      · show _ ≤ s.vm.instructions + 1
        omega
    refine Triple.bind (Q := fun v s =>
      (Served program watched limit origin ((id, done) :: slices) s ∧
        done + 1 + slices.executed + origin.vm.instructions ≤ s.vm.instructions) ∧ v = s.vm)
      (Triple.reads ?_ ?_) fun v => ?_
    · intro s v hs hv
      cases hv
      exact ⟨hs, rfl⟩
    · intro s e hs he
      cases he
    dsimp only
    split
    · exact Triple.throwBind fun s hs => ⟨0, Nat.zero_le _, hs.1.1⟩
    next hlimit =>
      have hcapped : ∀ l, limit = some l → v.instructions ≤ l := by
        rintro l rfl
        exact Nat.not_lt.mp fun hlt => hlimit (decide_eq_true hlt)
      -- however the step ends, the slice has at most one instruction more
      have hstep : Triple (fun s =>
          (Served program watched limit origin ((id, done) :: slices) s ∧
            done + 1 + slices.executed + origin.vm.instructions ≤ s.vm.instructions) ∧ v = s.vm)
          (Prog.attempt (step : M F σ Step))
          (fun _ s => ∃ more ≤ 1,
            Served program watched limit origin ((id, done + more) :: slices) s)
          (fun _ s => ∃ more ≤ 1,
            Served program watched limit origin ((id, done + more) :: slices) s) := by
        refine (served_step hnames).attempt.conseq (fun s hs => ⟨hs.1.1, hs.1.2, ?_⟩) ?_
          fun _ _ hs => hs
        · exact hs.2 ▸ hcapped
        · rintro (e | r) s hs
          · exact hs
          · exact hs
      have hleft : remaining ≤ remaining - 1 + (count + 1) := by omega
      refine Triple.bind (hstep.conseq (fun _ hs => hs) (fun _ _ hs => hs)
        fun _ s ⟨more, hle, hs⟩ => ⟨more, by omega, hs⟩) fun r => ?_
      refine Triple.each fun more => Triple.assume (fun s hs => hs.1) fun hle => ?_
      refine Triple.pre ?_ fun s hs => hs.2
      have hstop : ∀ s, Served program watched limit origin ((id, done + more) :: slices) s →
          ∃ more ≤ count + 1,
            Served program watched limit origin ((id, done + more) :: slices) s :=
        fun s hs => ⟨more, by omega, hs⟩
      rcases r with e | ⟨- | promise | outcome⟩
      · refine Triple.bind ((served_of_bare (bare_log rfl)).conseq (fun _ hs => hs)
          (fun _ _ hs => hs) fun _ s hs => hstop s hs) fun _ => ?_
        cases e with
        | panic site => exact Triple.throw fun s hs => hstop s hs
        | _ => exact Triple.pure fun s hs => ⟨more, by omega, hs, by dsimp only; omega, hleft⟩
      · refine (served_runCode hnames task count (done + more) (remaining - 1) true
          (by omega)).conseq (fun _ hs => hs) ?_ ?_
        · rintro slice s ⟨rest, hrest, hs, hpaid, hserved⟩
          exact ⟨more + rest, by omega, Nat.add_assoc .. ▸ hs, by omega, by omega⟩
        · rintro e s ⟨rest, hrest, hs⟩
          exact ⟨more + rest, by omega, Nat.add_assoc .. ▸ hs⟩
      · exact Triple.pure fun s hs => ⟨more, by omega, hs, by dsimp only; omega, hleft⟩
      · exact Triple.pure fun s hs => ⟨more, by omega, hs, by dsimp only; omega, hleft⟩

/-- The slice of a task. -/
theorem served_runTask (hnames : watched → program.NamesOnce) (task : Task) {id : Nat}
    (p : Progress) :
    Triple (Served program watched limit origin ((id, 0) :: slices))
      (runTask limit task p : M F σ Slice)
      (fun slice s => ∃ count ≤ 256,
        Served program watched limit origin ((id, count) :: slices) s ∧
        slice.remaining + count ≤ p.remaining ∧ p.remaining ≤ slice.remaining + 256)
      (fun _ s => ∃ count ≤ min 256 p.remaining,
        Served program watched limit origin ((id, count) :: slices) s) := by
  -- work without code executes nothing, whatever it costs
  have hquiet : ∀ {m : M F σ Slice},
      Typed (listing σ program watched) ∅ m (fun slice => slice.remaining ≤ p.remaining ∧
        p.remaining ≤ slice.remaining + 256) (fun _ => ∅) →
      Triple (Served program watched limit origin ((id, 0) :: slices)) m
        (fun slice s => ∃ count ≤ 256,
          Served program watched limit origin ((id, count) :: slices) s ∧
          slice.remaining + count ≤ p.remaining ∧ p.remaining ≤ slice.remaining + 256)
        (fun _ s => ∃ count ≤ min 256 p.remaining,
          Served program watched limit origin ((id, count) :: slices) s) := fun hm =>
    (served_of_typed hm).conseq (fun _ hs => hs)
      (fun slice s hs => ⟨0, Nat.zero_le _, hs.2, hs.1.1, hs.1.2⟩)
      fun _ s hs => ⟨0, Nat.zero_le _, hs⟩
  have hone : p.remaining - 1 ≤ p.remaining ∧ p.remaining ≤ p.remaining - 1 + 256 :=
    ⟨Nat.sub_le _ _, by omega⟩
  rw [runTask]
  split
  next promise hwork =>
    refine hquiet (Typed.bind (bare_get promise) fun v _ => ?_)
    split
    · exact Typed.pure hone (Set.empty_subset _)
    · exact Typed.pure hone (Set.empty_subset _)
    · exact Typed.throw trivial
  next join hwork =>
    refine hquiet (Typed.bind (typed_pollJoin_cost join p.remaining) fun r hr => ?_)
    exact Typed.pure hr (Set.empty_subset _)
  next work hwork =>
    refine hquiet (Typed.bind bare_vm fun v _ => ?_)
    refine Typed.bind (bare_modifyVm (fun _ => rfl) (fun _ => rfl) fun _ => rfl) fun _ _ => ?_
    dsimp only
    split
    · exact Typed.pure hone (Set.empty_subset _)
    · refine Typed.bind (bare_hostResult _ _ _ _).attempt fun result _ => ?_
      split
      · exact Typed.throw trivial
      · exact Typed.pure hone (Set.empty_subset _)
  next frames hwork =>
    refine Triple.bind ((served_of_bare (bare_frames fun _ => frames)).conseq (fun _ hs => hs)
      (fun _ _ hs => hs) fun _ s hs => ⟨0, Nat.zero_le _, hs⟩) fun _ => ?_
    refine Triple.bind ((served_runCode hnames task _ 0 p.remaining p.progressed
      (Nat.min_le_right _ _)).conseq (fun _ hs => hs) (fun _ _ hs => hs) ?_) fun slice => ?_
    · rintro e s ⟨count, hle, hs⟩
      exact ⟨count, hle, Nat.zero_add count ▸ hs⟩
    refine Triple.each fun count => Triple.assume (fun s hs => hs.1) fun hle =>
      Triple.assume (fun s hs => hs.2.2) fun hbudget => ?_
    have hslices : ∀ s, Served program watched limit origin ((id, 0 + count) :: slices) s →
        Served program watched limit origin ((id, count) :: slices) s :=
      fun s hs => Nat.zero_add count ▸ hs
    refine Triple.pre ?_ fun s hs => hslices s hs.2.1
    have hrest : Typed (listing σ program watched) ∅
        (do
          let frames ← Prog.reads fun s : State F σ => .ok s.frames
          modify fun s => { s with frames := [] }
          return { slice with task := { slice.task with work := .code frames } } :
            M F σ Slice)
        (fun out => out.remaining = slice.remaining) fun _ => ∅ :=
      Typed.bind (Bare.reads fun _ => trivial) fun frames _ =>
        Typed.bind (bare_frames fun _ => []) fun _ _ => Typed.pure rfl (Set.empty_subset _)
    refine (served_of_typed hrest).conseq (fun _ hs => hs) ?_ fun _ s hs => ⟨count, hle, hs⟩
    rintro out s ⟨hout, hs⟩
    rw [hout]
    exact ⟨count, hle.trans (Nat.min_le_left _ _), hs, hbudget.1,
      hbudget.2.trans (Nat.add_le_add_left (Nat.min_le_left _ _) _)⟩

/-! ### One turn -/

/-- The turn of one task adds its slice. -/
theorem served_turnTask (hnames : watched → program.NamesOnce) (only : Option Handle) (id : Nat)
    (p : Progress) :
    Triple (Served program watched limit origin slices)
      (turnTask only limit id p : M F σ Progress)
      (fun q s => ∃ count ≤ 256,
        Served program watched limit origin ((id, count) :: slices) s ∧
        q.remaining + count ≤ p.remaining ∧ p.remaining ≤ q.remaining + 256 ∧
        q.deferred = p.deferred)
      (fun _ s => Served program watched limit origin slices s ∨ ∃ count ≤ min 256 p.remaining,
        Served program watched limit origin ((id, count) :: slices) s) := by
  rw [turnTask]
  refine Triple.bind ((served_of_bare bare_vm).conseq (fun _ hs => hs) (fun _ _ hs => hs)
    fun _ s hs => Or.inl hs) fun v => ?_
  split
  next task htask =>
    refine Triple.bind (Q := fun _ => Served program watched limit origin ((id, 0) :: slices))
      (Triple.modify fun s hs => ?_) fun _ => ?_
    · refine ⟨hs.inv, ?_, hs.limited, ?_, fun l hl => ?_⟩
      · show Mark.polled id :: s.marks = Mark.polled id :: (slices.marks ++ origin.marks)
        rw [hs.marks]
      · rw [Slices.executed_cons, Nat.zero_add]
        exact hs.counted
      · rw [Slices.executed_cons, Nat.zero_add]
        exact hs.capped l hl
    -- from here on the slice is on record
    have hnone : ∀ s, Served program watched limit origin ((id, 0) :: slices) s →
        Served program watched limit origin slices s ∨ ∃ count ≤ min 256 p.remaining,
          Served program watched limit origin ((id, count) :: slices) s :=
      fun s hs => Or.inr ⟨0, Nat.zero_le _, hs⟩
    have hgone : Bare (listing σ program watched) ∅
        (modifyVm fun vm => { vm with tasks := vm.tasks.erase id } : M F σ Unit) :=
      bare_modifyVm (fun _ => rfl) (fun _ => rfl) fun _ => rfl
    refine Triple.bind ((served_of_bare hgone).conseq (fun _ hs => hs) (fun _ _ hs => hs)
      fun _ => hnone) fun _ => ?_
    refine Triple.bind ((served_runTask hnames _ p).conseq (fun _ hs => hs)
      (fun _ _ hs => hs) fun _ s hs => Or.inr hs) fun slice => ?_
    refine Triple.each fun count => Triple.assume (fun s hs => hs.1) fun hle =>
      Triple.assume (fun s hs => hs.2.2) fun hbudget => ?_
    have hrest : Typed (listing σ program watched) ∅
        (if only.isNone then (do
          modifyVm fun vm => { vm with turnCursor := id + 1 }
          endSlice id p slice)
        else endSlice id p slice : M F σ Progress)
        (fun q => q.remaining = slice.remaining ∧ q.deferred = p.deferred) fun _ => ∅ := by
      split
      · exact Typed.bind (bare_modifyVm (fun _ => rfl) (fun _ => rfl) fun _ => rfl) fun _ _ =>
          (typed_endSlice_cost id p slice).weaken Set.subset_union_left
      · exact typed_endSlice_cost id p slice
    refine (served_of_typed hrest).conseq (fun s hs => hs.2.1) ?_ ?_
    · rintro q s ⟨⟨hremaining, hdeferred⟩, hs⟩
      rw [hremaining]
      exact ⟨count, hle, hs, hbudget.1, hbudget.2, hdeferred⟩
    · exact fun _ s hs => Or.inr ⟨count, by omega, hs⟩
  next => exact Triple.throw fun s hs => Or.inl hs

/-- The tasks are served in their order until the budget is used up. -/
theorem served_turnTasks (hnames : watched → program.NamesOnce) (only : Option Handle) :
    ∀ (ids : List Nat) (slices : Slices) (p : Progress),
      Triple (Served program watched limit origin slices)
        (turnTasks only limit ids p : M F σ Progress)
        (fun q s => ∃ more : Slices, Served program watched limit origin (more ++ slices) s ∧
          Slices.Fit more ids p.remaining ∧
          (more.order = ids ∧ q.deferred = p.deferred ∨ q.deferred = true) ∧
          (256 * ids.length ≤ p.remaining → more.order = ids))
        (fun _ s => ∃ more : Slices, Served program watched limit origin (more ++ slices) s ∧
          Slices.Fit more ids p.remaining)
  | [], slices, p => by
    refine Triple.pure fun s hs => ⟨[], hs, ⟨List.prefix_refl [], ?_, Nat.zero_le _⟩,
      Or.inl ⟨rfl, rfl⟩, fun _ => rfl⟩
    exact fun e he => absurd he List.not_mem_nil
  | id :: ids, slices, p => by
    have hnone : ∀ ids n, Slices.Fit [] ids n := fun _ n =>
      ⟨List.nil_prefix, fun e he => absurd he List.not_mem_nil, Nat.zero_le n⟩
    have hcons : ∀ {count n : Nat} {more : Slices}, Slices.Fit more ids n → count ≤ 256 →
        n + count ≤ p.remaining →
        Slices.Fit (more ++ [(id, count)]) (id :: ids) p.remaining := by
      intro count n more hfit hle hpaid
      refine ⟨?_, fun e he => ?_, ?_⟩
      · rw [Slices.order_append]
        exact List.cons_prefix_cons.mpr ⟨rfl, hfit.order⟩
      · rcases List.mem_append.mp he with he | he
        · exact hfit.each e he
        · cases List.mem_singleton.mp he
          exact hle
      · have hexecuted := hfit.executed
        rw [Slices.executed_append, Slices.executed_cons]
        show more.executed + (count + 0) ≤ _
        omega
    rw [turnTasks]
    split
    next hzero =>
      refine Triple.pure fun s hs => ⟨[], hs, hnone _ _, Or.inr rfl, fun hlarge => ?_⟩
      rw [List.length_cons] at hlarge
      omega
    next hpositive =>
      refine Triple.bind ((served_turnTask hnames only id p).conseq (fun _ hs => hs)
        (fun _ _ hs => hs) ?_) fun q => ?_
      · rintro e s (hs | ⟨count, hle, hs⟩)
        · exact ⟨[], hs, hnone _ _⟩
        · exact ⟨[(id, count)], hs, hcons (n := 0) (hnone _ 0) (by omega) (by omega)⟩
      · refine Triple.each fun count => Triple.assume (fun s hs => hs.1) fun hle =>
          Triple.assume (fun s hs => hs.2.2) fun ⟨hpaid, hserved, hdeferred⟩ => ?_
        refine (served_turnTasks hnames only ids ((id, count) :: slices) q).conseq
          (fun s hs => hs.2.1) ?_ ?_
        · rintro r s ⟨more, hs, hfit, hall, hlarge⟩
          refine ⟨more ++ [(id, count)], ?_, hcons hfit hle hpaid, ?_, fun h => ?_⟩
          · rw [List.append_assoc]
            exact hs
          · rw [Slices.order_append]
            refine hall.imp_left fun h => ⟨?_, h.2.trans hdeferred⟩
            exact congrArg (id :: ·) h.1
          · rw [List.length_cons] at h
            rw [Slices.order_append]
            exact congrArg (id :: ·) (hlarge (by omega))
        · rintro e s ⟨more, hs, hfit⟩
          refine ⟨more ++ [(id, count)], ?_, hcons hfit hle hpaid⟩
          rw [List.append_assoc]
          exact hs

/-! ### A whole turn -/

omit [Platform F] [HostWorld F σ] in
theorem served_begin (hinv : (listing σ program watched).Inv origin) :
    Served program watched limit origin [] origin :=
  ⟨hinv, rfl, rfl, (Nat.zero_add _).le, fun _ _ => (Nat.zero_add _).le.trans (Nat.le_max_left _ _)⟩

omit [Platform F] [HostWorld F σ] in
theorem bare_collectHeap (roots : List Handle) :
    Bare (listing σ program watched) Γ (collectHeap roots : M F σ Unit) := by
  refine bare_liftHeap fun _ H hH _ => ?_
  have hkept := Heap.Listed.collect hH roots
  rw [Prog.exec_ofExec]
  rcases hcollect : H.collect roots with ⟨e | u, K⟩
  · rw [hcollect] at hkept
    exact ⟨hkept, trivial, trivial⟩
  · rw [hcollect] at hkept
    exact ⟨hkept, trivial, trivial, fun _ _ => trivial⟩

omit [Platform F] in
theorem bare_collect : Bare (listing σ program watched) Γ (collect : M F σ Unit) := by
  refine Bare.bind (bare_log rfl) fun _ => Bare.bind (bare_frames _) fun _ =>
    Bare.bind bare_vm fun vm => ?_
  refine Bare.bind (bare_modifyVm (fun _ => rfl) (fun _ => rfl) fun _ => rfl) fun _ => ?_
  exact Bare.bind (bare_collectHeap _) fun _ =>
    bare_modifyVm (fun _ => rfl) (fun _ => rfl) fun _ => rfl

omit [Platform F] [HostWorld F σ] in
theorem bare_cancel : Bare (listing σ program watched) Γ (cancel : M F σ Unit) :=
  Bare.bind (bare_modifyVm (fun _ => rfl) (fun _ => rfl) fun _ => rfl) fun _ => bare_collectHeap []

/-- The turn from its schedule on. -/
theorem served_schedule (hnames : watched → program.NamesOnce) (ids : List Nat)
    (q : Progress) :
    Triple (Served program watched limit origin [])
      (do
        let p ← turnTasks none limit ids q
        let p ← commandsOf none p
        collect
        return p : M F σ Progress)
      (fun p s => ∃ slices : Slices, Served program watched limit origin slices s ∧
        Slices.Fit slices ids q.remaining ∧
        (p.deferred = false ∨ 256 * ids.length ≤ q.remaining → slices.order = ids))
      (fun _ s => ∃ slices : Slices, Served program watched limit origin slices s ∧
        Slices.Fit slices ids q.remaining) := by
  refine Triple.bind ((served_turnTasks hnames none ids [] q).conseq (fun _ hs => hs)
    (fun _ _ hs => hs) ?_) fun p => ?_
  · rintro e s ⟨more, hs, hfit⟩
    exact ⟨more, List.append_nil more ▸ hs, hfit⟩
  · refine Triple.each fun more => Triple.assume (fun s hs => hs.2) fun ⟨hfit, hall, hlarge⟩ => ?_
    have hend : Typed (listing σ program watched) ∅
        (do
          let p ← commandsOf none p
          collect
          return p : M F σ Progress)
        (fun r => r.deferred = p.deferred) fun _ => ∅ :=
      Typed.bind (typed_commandsOf_cost none p) fun r hr =>
        Typed.bind bare_collect fun _ _ => Typed.pure hr.2 (Set.empty_subset _)
    refine (served_of_typed hend).conseq (fun s hs => List.append_nil more ▸ hs.1) ?_
      fun _ s hs => ⟨more, hs, hfit⟩
    rintro r s ⟨hr, hs⟩
    refine ⟨more, hs, hfit, fun h => h.elim (fun hdeferred => ?_) hlarge⟩
    rcases hall with hall | hdrop
    · exact hall.1
    · rw [← hr, hdeferred] at hdrop
      cases hdrop

end World

end Platform

end M

/-- The schedule of a turn: the runnable tasks that its host commands leave. -/
def State.scheduled [Platform F] [HostWorld F σ] (s : State F σ) (budget : Nat) : List Nat :=
  ((M.commandsOf none { remaining := budget, progressed := false, deferred := false }).exec
    s).2.vm.schedule none

section Turn

variable [Platform F] [HostWorld F σ]

/-- The slices of a turn; they are all that is scheduled if the turn does not say that it deferred
work, and if the budget has room for the queued commands and a slice of each task. -/
theorem drive_served (hnames : watched → program.NamesOnce) {s : State F σ}
    (hs : (listing σ program watched).Inv s) (budget : Nat) (limit : Option Nat) :
    ∃ slices : Slices,
      Served program watched limit s slices ((M.drive budget none limit).exec s).2 ∧
      Slices.Fit slices (s.scheduled budget) budget ∧
      ∀ p, ((M.drive budget none limit).exec s).1 = .ok p →
        p.deferred = false ∨
          s.vm.context.queue.length + 256 * (s.scheduled budget).length ≤ budget →
        slices.order = s.scheduled budget := by
  have hcommands : Triple (fun t => t.vm.context.queue.length ≤ s.vm.context.queue.length ∧
        Served program watched limit s [] t)
      (M.commandsOf none { remaining := budget, progressed := false, deferred := false } :
        M F σ Progress) _ _ :=
    M.served_commandsOf none _ s.vm.context.queue.length
  have hrun := hcommands s ⟨Nat.le_refl _, M.served_begin hs⟩
  rw [State.scheduled, M.drive, Prog.exec_bind]
  rcases hexec : (M.commandsOf none
      { remaining := budget, progressed := false, deferred := false }).exec s with ⟨e | q, m⟩
  · rw [hexec] at hrun
    refine ⟨[], hrun, ⟨List.nil_prefix, fun e he => absurd he List.not_mem_nil, Nat.zero_le _⟩, ?_⟩
    rintro p ⟨⟩
  · rw [hexec] at hrun
    obtain ⟨⟨hleft, hspent, -⟩, hm⟩ := hrun
    have hvm : (M.vm : M F σ (Vm F σ)).exec m = (.ok m.vm, m) := rfl
    dsimp only
    rw [Prog.exec_bind_ok hvm]
    have hrest := M.served_schedule hnames (m.vm.schedule none) q m hm
    have hfits : ∀ {slices : Slices}, slices.Fit (m.vm.schedule none) q.remaining →
        slices.Fit (m.vm.schedule none) budget :=
      fun hfit => ⟨hfit.order, hfit.each, hfit.executed.trans hspent⟩
    rcases hend : (do
        let p ← M.turnTasks none limit (m.vm.schedule none) q
        let p ← M.commandsOf none p
        M.collect
        return p : M F σ Progress).exec m with ⟨e | p, t⟩
    · rw [hend] at hrest
      obtain ⟨slices, ht, hfit⟩ := hrest
      refine ⟨slices, ht, hfits hfit, ?_⟩
      rintro p ⟨⟩
    · rw [hend] at hrest
      obtain ⟨slices, ht, hfit, hall⟩ := hrest
      refine ⟨slices, ht, hfits hfit, ?_⟩
      intro r hr hcomplete
      cases hr
      refine hall (hcomplete.imp_right fun hlarge => ?_)
      dsimp only at hleft
      omega

/-- What an input may spend on instructions. -/
def Input.budget : Input F σ → Nat
  | .turn budget => budget
  | .poll => 4096
  | _ => 0

/-- The limit of instructions that an input goes by: only polls do. -/
def Input.limitOf (s : State F σ) : Input F σ → Option Nat
  | .poll => s.vm.instructionLimit
  | _ => none

/-- Since `origin` the machine ran slices that fit. -/
def Ran (program : Program F) (watched : Prop) (limit : Option Nat) (origin : State F σ)
    (ids : List Nat) (budget : Nat) (s : State F σ) : Prop :=
  ∃ slices : Slices, Served program watched limit origin slices s ∧ slices.Fit ids budget

namespace M

variable {ids : List Nat} {budget : Nat}

omit [Platform F] [HostWorld F σ] in
theorem ran_begin (hs : (listing σ program watched).Inv origin) :
    Ran program watched limit origin ids budget origin :=
  ⟨[], served_begin hs, List.nil_prefix, fun _ he => absurd he List.not_mem_nil, Nat.zero_le _⟩

omit [Platform F] [HostWorld F σ] in
theorem ran_of_bare {m : M F σ α} (hm : Bare (listing σ program watched) ∅ m) :
    Triple (Ran program watched limit origin ids budget) m
      (fun _ => Ran program watched limit origin ids budget)
      (fun _ => Ran program watched limit origin ids budget) := by
  refine Triple.each fun slices => Triple.assume (fun s hs => hs.2) fun hfit => ?_
  exact (served_of_bare hm).conseq (fun s hs => hs.1) (fun _ s hs => ⟨slices, hs, hfit⟩)
    fun _ s hs => ⟨slices, hs, hfit⟩

theorem ran_drive (hnames : watched → program.NamesOnce)
    (hs : (listing σ program watched).Inv origin) (budget : Nat) (limit : Option Nat) :
    Triple (fun s => s = origin) (drive budget none limit : M F σ Progress)
      (fun _ => Ran program watched limit origin (origin.scheduled budget) budget)
      (fun _ => Ran program watched limit origin (origin.scheduled budget) budget) := by
  rintro s rfl
  obtain ⟨slices, ht, hfit, -⟩ := drive_served hnames hs budget limit
  rcases hexec : (drive budget none limit : M F σ Progress).exec s with ⟨e | p, t⟩
  · rw [hexec] at ht
    exact ⟨slices, ht, hfit⟩
  · rw [hexec] at ht
    exact ⟨slices, ht, hfit⟩

theorem ran_runTurn (hnames : watched → program.NamesOnce)
    (hs : (listing σ program watched).Inv origin) (budget : Nat) :
    Triple (fun s => s = origin) (runTurn budget : M F σ Progress)
      (fun _ => Ran program watched none origin (origin.scheduled budget) budget)
      (fun _ => Ran program watched none origin (origin.scheduled budget) budget) := by
  have hstopped : ∀ s, s = origin →
      Ran program watched none origin (origin.scheduled budget) budget s := by
    rintro s rfl
    exact ran_begin hs
  rw [runTurn]
  dsimp only
  split
  · exact Triple.throwBind hstopped
  refine Triple.bind (Q := fun _ s => s = origin) (Triple.reads (fun s v h _ => h)
    fun s e h _ => hstopped s h) fun v => ?_
  split
  · exact Triple.throwBind hstopped
  refine Triple.bind (Q := fun _ =>
    Ran program watched none origin (origin.scheduled budget) budget)
    ((ran_drive hnames hs budget none).attempt.post ?_) fun r => ?_
  · rintro (e | p) s hr
    · exact hr
    · exact hr
  · cases r with
    | ok p => exact Triple.pure fun s hr => hr
    | error e => exact Triple.bind (ran_of_bare bare_cancel) fun _ => Triple.throw fun s hr => hr

omit [HostWorld F σ] in
theorem bare_rootResult :
    Bare (listing σ program watched) ∅ (rootResult : M F σ (Option Handle)) := by
  refine Bare.bind bare_vm fun v => ?_
  cases v.root with
  | none => exact Bare.throw trivial
  | some root =>
    refine Bare.bind (bare_get root) fun w => ?_
    split
    · exact Bare.pure _
    · exact bare_uncaught _
    · exact Bare.throw trivial
    · exact Bare.pure _
    · exact Bare.throw trivial

theorem ran_pollInner (hnames : watched → program.NamesOnce)
    (hs : (listing σ program watched).Inv origin) :
    Triple (fun s => s = origin) (pollInner : M F σ (Option Handle))
      (fun _ => Ran program watched origin.vm.instructionLimit origin (origin.scheduled 4096) 4096)
      (fun _ => Ran program watched origin.vm.instructionLimit origin (origin.scheduled 4096)
        4096) := by
  have hstopped : ∀ s, s = origin →
      Ran program watched origin.vm.instructionLimit origin (origin.scheduled 4096) 4096 s := by
    rintro s rfl
    exact ran_begin hs
  rw [pollInner]
  refine Triple.bind (Q := fun _ s => s = origin) (Triple.reads (fun s v h _ => h)
    fun s e h _ => hstopped s h) fun v => ?_
  dsimp only
  split
  · exact Triple.throwBind hstopped
  refine Triple.bind (Q := fun v s => s = origin ∧ v = origin.vm) (Triple.reads ?_
    fun s e h _ => hstopped s h) fun w => ?_
  · rintro s v rfl hv
    cases hv
    exact ⟨rfl, rfl⟩
  refine Triple.assume (fun s h => h.2) fun hw => ?_
  rw [hw]
  refine Triple.bind ((ran_drive hnames hs 4096 origin.vm.instructionLimit).discard.pre
    fun s h => h.1) fun _ => ran_of_bare ?_
  refine Bare.bind bare_rootResult fun root => Bare.bind bare_vm fun vm => ?_
  exact Bare.ite (Bare.pure _) (Bare.pure _)

theorem ran_poll (hnames : watched → program.NamesOnce)
    (hs : (listing σ program watched).Inv origin) :
    Triple (fun s => s = origin) (poll : M F σ (Option (HostValue F)))
      (fun _ => Ran program watched origin.vm.instructionLimit origin (origin.scheduled 4096) 4096)
      (fun _ => Ran program watched origin.vm.instructionLimit origin (origin.scheduled 4096)
        4096) := by
  refine Triple.bind (Q := fun _ =>
    Ran program watched origin.vm.instructionLimit origin (origin.scheduled 4096) 4096)
    ((ran_pollInner hnames hs).attempt.post ?_) fun r => ?_
  · rintro (e | p) s hr
    · exact hr
    · exact hr
  rcases r with e | (- | h)
  · exact ran_of_bare (Bare.bind (Bare.attempt bare_cancel).discard fun _ => Bare.throw trivial)
  · exact Triple.pure fun s hr => hr
  · refine ran_of_bare (Bare.bind (bare_wireValue h).attempt fun result =>
      Bare.bind (Bare.attempt bare_cancel).discard fun _ => ?_)
    cases result with
    | ok value => exact Bare.pure _
    | error e => exact Bare.throw trivial

end M

/-- What an input does, but for a new limit. -/
theorem Input.ran (hnames : watched → program.NamesOnce) {s : State F σ}
    (hs : (listing σ program watched).Inv s) (input : Input F σ)
    (hlimit : ∀ l, input ≠ .limit l) :
    Ran program watched (input.limitOf s) s (s.scheduled input.budget) input.budget
      (input.apply s) := by
  have hend : ∀ {P : State F σ → Prop} {m : M F σ Unit},
      Triple (fun t => t = s) m (fun _ => P) (fun _ => P) → P (m.exec s).2 := by
    intro P m hm
    have hrun := hm s rfl
    rcases hexec : m.exec s with ⟨e | u, t⟩
    · rw [hexec] at hrun
      exact hrun
    · rw [hexec] at hrun
      exact hrun
  have hquiet : ∀ {m : M F σ Unit} {limit : Option Nat} {ids : List Nat} {budget : Nat},
      Bare (listing σ program watched) ∅ m →
      Triple (fun t => t = s) m (fun _ => Ran program watched limit s ids budget)
        (fun _ => Ran program watched limit s ids budget) := fun hm =>
    (M.ran_of_bare hm).pre fun t ht => ht.symm ▸ M.ran_begin hs
  cases input with
  | turn budget => exact hend (M.ran_runTurn hnames hs budget).discard
  | poll => exact hend (M.ran_poll hnames hs).discard
  | host actions world =>
    exact hend (hquiet (M.bare_modifyVm (fun _ => rfl) (fun _ => rfl) fun _ => rfl))
  | limit l => exact absurd rfl (hlimit l)
  | cancel => exact hend (hquiet M.bare_cancel)

/-- The records stay listed, whatever the input. -/
theorem Input.keeps (hnames : watched → program.NamesOnce) {s : State F σ}
    (hs : (listing σ program watched).Inv s) (input : Input F σ) :
    (listing σ program watched).Inv (input.apply s) := by
  by_cases hlimit : ∃ l, input = .limit l
  · obtain ⟨l, rfl⟩ := hlimit
    exact hs
  · obtain ⟨slices, ht, -⟩ := Input.ran hnames hs input fun l hl => hlimit ⟨l, hl⟩
    exact ht.inv

/-! ### Runs -/

/-- The machine after a sequence of inputs. -/
def State.after (s : State F σ) (inputs : List (Input F σ)) : State F σ :=
  inputs.foldl Input.apply s

end Turn

/-- The number of instructions executed so far. -/
def State.executed (s : State F σ) : Nat := s.marks.count .instruction

theorem Slices.count_marks : ∀ slices : Slices,
    slices.marks.count .instruction = slices.executed
  | [] => rfl
  | (id, count) :: rest => by
    rw [Slices.marks, Slices.executed_cons, List.count_append, List.count_replicate_self,
      List.count_cons_of_ne (by rintro ⟨⟩), count_marks rest]

theorem Served.executed_eq {s : State F σ} (h : Served program watched limit origin slices s) :
    s.executed = slices.executed + origin.executed := by
  rw [State.executed, h.marks, List.count_append, Slices.count_marks]
  rfl

/-- Nothing is watched. -/
theorem listing_unwatched (program : Program F) (s : State F σ) :
    (listing σ program False).Inv s := fun h => h.elim

section Run

variable [Platform F] [HostWorld F σ]

/-- **A turn serves its schedule** in its order, one slice of at most 256 instructions an entry, as
far as the budget goes; a turn that returns and deferred nothing served all of it, and so did one
whose budget has room for the queued commands and a slice of each entry. -/
theorem drive_serves (s : State F σ) (budget : Nat) (limit : Option Nat) :
    ∃ slices : Slices,
      ((M.drive budget none limit).exec s).2.marks = slices.marks ++ s.marks ∧
      slices.Fit (s.scheduled budget) budget ∧
      ∀ p, ((M.drive budget none limit).exec s).1 = .ok p →
        p.deferred = false ∨
          s.vm.context.queue.length + 256 * (s.scheduled budget).length ≤ budget →
        slices.order = s.scheduled budget := by
  obtain ⟨slices, ht, hfit, hall⟩ := drive_served False.elim
    (listing_unwatched s.vm.program s) budget limit
  exact ⟨slices, ht.marks, hfit, hall⟩

/-- **Inputs pay for instructions**: a machine executes no more of them than the turns of its run
have budgets for, whatever the program and its host do. -/
theorem executed_after_le (s : State F σ) (inputs : List (Input F σ)) :
    (s.after inputs).executed ≤ s.executed + (inputs.map Input.budget).sum := by
  induction inputs generalizing s with
  | nil => exact Nat.le_refl _
  | cons input inputs ih =>
    have hstep : (input.apply s).executed ≤ input.budget + s.executed := by
      by_cases hlimit : ∃ l, input = .limit l
      · obtain ⟨l, rfl⟩ := hlimit
        exact Nat.le_add_left _ _
      · obtain ⟨slices, ht, hfit⟩ := Input.ran False.elim
          (listing_unwatched s.vm.program s) input fun l hl => hlimit ⟨l, hl⟩
        rw [ht.executed_eq]
        exact Nat.add_le_add_right hfit.executed _
    have hrest := ih (input.apply s)
    rw [List.map_cons, List.sum_cons]
    show ((input.apply s).after inputs).executed ≤ _
    omega

/-- **The limit of instructions** binds every run of polls: past it no poll executes any. -/
theorem executed_polls_le {s : State F σ} {l : Nat} (hl : s.vm.instructionLimit = some l)
    {inputs : List (Input F σ)}
    (hinputs : ∀ input ∈ inputs, (∀ budget, input ≠ .turn budget) ∧ ∀ l, input ≠ .limit l) :
    (s.after inputs).executed ≤ s.executed + (l - s.vm.instructions) := by
  induction inputs generalizing s with
  | nil => exact Nat.le_add_right _ _
  | cons input inputs ih =>
    obtain ⟨hturn, hlimit⟩ := hinputs input List.mem_cons_self
    obtain ⟨slices, ht, hfit⟩ := Input.ran False.elim
      (listing_unwatched s.vm.program s) input hlimit
    have hpaid : slices.executed + s.vm.instructions ≤ max s.vm.instructions l := by
      cases input with
      | turn budget => exact absurd rfl (hturn budget)
      | limit l => exact absurd rfl (hlimit l)
      | poll => exact ht.capped l hl
      | host actions world =>
        have hnone : slices.executed ≤ 0 := hfit.executed
        omega
      | cancel =>
        have hnone : slices.executed ≤ 0 := hfit.executed
        omega
    have hrest := ih (ht.limited.trans hl) fun next hnext =>
      hinputs next (List.mem_cons_of_mem _ hnext)
    have hcounted := ht.counted
    rw [ht.executed_eq] at hrest
    show ((input.apply s).after inputs).executed ≤ _
    omega

/-- A program without an end. -/
def Program.forever : Program Int := .single 0 [.jump 0]

theorem executed_polls_le_forever :
    (((Input.limit 2 : Input Int Unit).apply (State.begin .forever)).after [.poll, .poll]).executed
      ≤ 2 := by
  have hpolls : ∀ input ∈ [(.poll : Input Int Unit), .poll],
      (∀ budget, input ≠ .turn budget) ∧ ∀ l, input ≠ .limit l := by simp
  have hstart : State.executed ((Input.limit 2 : Input Int Unit).apply (.begin .forever)) +
      (2 - ((Input.limit 2 : Input Int Unit).apply (.begin .forever)).vm.instructions) = 2 := by
    decide
  have hle := executed_polls_le (s := (Input.limit 2).apply (.begin .forever)) rfl hpolls
  exact hle.trans hstart.le

end Run

end Deka.Vm
