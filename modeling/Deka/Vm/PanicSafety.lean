/-
Deka/Vm/PanicSafety.lean

Validated bytecode and panics of the interpreter.

Validation checks operands only; that frames have the cells of their function, that
closures name functions and that the order of a record lists fields of it are
invariants of runs.  They rule out every panic but two: the search of a field
recurses through embedded structs without a limit, and `sort` hands the library a
comparison that is no order.
-/
import Deka.Vm.RunTyping
import Deka.Vm.Sample

namespace Deka.Vm

open Deka.Lib

set_option linter.dupNamespace false

variable {F σ : Type} {p : Program F} {hosts : Hosts F σ}

/-! ### The shape of run-time data -/

/-- The call stack and the heap have the shape the interpreter indexes into. -/
structure Event.Shaped (p : Program F) (e : Event F σ) : Prop where
  depth : e.frames.length ≤ 1024
  locals : ∀ frame ∈ e.frames, ∃ f, p.functions[frame.function]? = some f ∧
    frame.locals.length = f.locals
  closures : ∀ h function captures slot,
    e.vm.heap.lookup h = some (.closure function captures slot) →
      ∃ f, p.functions[function]? = some f ∧ captures.length = f.captures
  records : ∀ h r, e.vm.heap.lookup h = some (.record r) → ∀ name ∈ r.order,
    ∃ k, r.get? name = some k

theorem Vm.Sound.shaped {e : Event F σ} (h : e.vm.Sound p hosts e.frames) : e.Shaped p where
  depth := h.depth
  locals := h.wellFormed
  closures := fun _ _ _ _ hv => h.heap.wellFormed _ _ hv
  records := fun _ _ hv => h.heap.wellFormed _ _ hv

/-! ### Runs -/

section Runs

variable [Platform F] [HostWorld F σ]

/-- Whether an event is a step that searches no field and sorts nothing. -/
def Event.plain (e : Event F σ) : Bool :=
  match e.label with
  | .instruction (.field _) | .instruction (.optionalField _) | .instruction (.fieldSet _)
  | .instruction (.listMut .sort) => false
  | _ => true

omit [HostWorld F σ] in
theorem Event.not_risky {e : Event F σ} (h : e.plain = true) : ¬ e.Risky := by
  rintro ⟨op, frame, frames, hl, -, hrisky⟩
  rw [Event.plain, hl] at h
  cases op with
  | field name | optionalField name | fieldSet name => cases h
  | listMut kind =>
      cases kind with
      | sort => cases h
      | _ => exact hrisky
  | _ => exact hrisky

/-- Whether an event is a panic. -/
def Event.panics (e : Event F σ) : Bool :=
  match e.label with
  | .failed (.panic _) => true
  | _ => false

omit [Platform F] [HostWorld F σ] in
theorem Event.panics_iff {e : Event F σ} :
    e.panics = true ↔ ∃ site, e.label = .failed (.panic site) := by
  rw [Event.panics]
  split
  · next site hl => exact ⟨fun _ => ⟨site, hl⟩, fun _ => rfl⟩
  · next hne =>
      refine ⟨nofun, ?_⟩
      rintro ⟨site, hl⟩
      exact absurd hl (hne site)

/-- A program that returns a list. -/
def Program.singleton : Program Int := .single 1 [.const .unit, .list 1, .return]

/-- A struct that embeds itself, searched for a field it does not have. -/
def Program.selfEmbedding : Program Int :=
  .single 0 [.const .unit, .struct "S" none ["e"] ["e"], .dup, .dup, .fieldSet "e", .pop,
    .field "x", .return]

end Runs

end Deka.Vm
