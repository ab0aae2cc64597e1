/-
Deka/Vm/CallTyping.lean

Typing rules for calls.

A validated program fits (`Program.Fits`): a frame has room for its captures and
arguments, so the cells of a new frame are exactly the locals its function
declares.
-/
import Deka.Lib.Fallible
import Deka.Vm.VmRules

namespace Deka.Vm

open Deka.Lib

set_option linter.dupNamespace false

variable {F σ : Type}

/-! ### Validated programs -/

/-- What validation establishes. -/
structure Program.Fits (p : Program F) : Prop where
  locals : ∀ f ∈ p.functions, f.parameters + f.captures ≤ f.locals
  operands : ∀ f ∈ p.functions, ∀ op ∈ f.code, p.validateOp f op = .ok ()

theorem Program.fits_of_validate {p : Program F} (h : p.validate = .ok ()) : p.Fits := by
  have hfunctions : p.functions.forM p.validateFunction = .ok () := by
    rw [validate] at h
    split at h
    · cases h
    · exact h
  have hfunction := forM_eq_ok.mp hfunctions
  constructor
  · intro f hf
    have h := hfunction f hf
    rw [validateFunction] at h
    split at h
    · cases h
    · omega
  · intro f hf
    have h := hfunction f hf
    rw [validateFunction] at h
    split at h
    · cases h
    · exact forM_eq_ok.mp h

theorem Program.Fits.locals_of_getElem? {p : Program F} (hp : p.Fits) {i : Nat}
    {f : Function F} (hf : p.functions[i]? = some f) :
    f.parameters + f.captures ≤ f.locals :=
  hp.locals f (List.mem_of_getElem? hf)

/-- The references of a call that was set up. -/
def Invocation.refs : Invocation → Set Ref
  | .frame next => next.refs
  | .task promise => {.val promise}

def Invocation.WellFormed (p : Program F) : Invocation → Prop
  | .frame next => next.WellFormed p
  | .task _ => True

theorem vals_toList_subset {o : Option Handle} {Γ : Set Ref} (h : ∀ k, o = some k → Ref.val k ∈ Γ) :
    vals o.toList ⊆ Γ :=
  vals_subset fun k hk => h k (Option.mem_toList.mp hk)

@[simp] theorem vals_nil : vals [] = ∅ :=
  Set.subset_empty_iff.mp (vals_subset fun _ hk => absurd hk List.not_mem_nil)

@[simp] theorem cells_nil : cells [] = ∅ :=
  Set.subset_empty_iff.mp (cells_subset fun _ hk => absurd hk List.not_mem_nil)

namespace M

section Rules

variable {p : Program F} {hosts : Hosts F σ} {sites : PanicSite → Prop}
  {running : Option (Nat × Handle)} {Γ : Set Ref}

/-- An error text is always allowed. -/
theorem typed_error {α : Type} {φ : α → Prop} {R : α → Set Ref} (message : String) :
    Typed (vmTheory p hosts sites running) Γ (throw (.error message)) φ R :=
  Typed.throw trivial

/-- Nothing runs after a throw. -/
theorem typed_errorBind {α β : Type} {k : α → M F σ β} {φ : β → Prop} {R : β → Set Ref}
    (message : String) :
    Typed (vmTheory p hosts sites running) Γ ((throw (.error message) : M F σ α) >>= k) φ R :=
  Typed.bind (φ := fun _ => False) (R := fun _ => ∅) (typed_error message)
    fun _ h => h.elim

/-- Push a new value that is no cell. -/
theorem typed_pushNew {v : Value F} (hv : v.WellFormed p) (hc : v.isCell = false)
    (hs : v.isSettled = false) (hr : v.refs ⊆ Γ) :
    Typed (vmTheory p hosts sites running) Γ (alloc v >>= fun h => push h) (fun _ => True)
      fun _ => ∅ :=
  Typed.bind (typed_allocVal hv hc hs hr) fun _ _ => typed_push (Or.inr rfl)

/-- A look at a field that has to be there. -/
theorem typed_field {r : Record} (hr : vals r.fields.values ⊆ Γ) (name error : String) :
    Typed (vmTheory p hosts sites running) Γ (field r name error : M F σ Handle)
      (fun _ => True) fun h => {.val h} := by
  rw [field]
  split
  · next h hh =>
      refine Typed.pure trivial ?_
      rintro r rfl
      exact hr (val_mem_vals.mpr (mem_values_of_get? hh))
  · exact typed_error _

/-! ### Frames -/

theorem typed_argumentCells {args : List Handle} (hargs : vals args ⊆ Γ) :
    Typed (vmTheory p hosts sites running) Γ (argumentCells args : M F σ (List Handle))
      (fun hs => hs.length = args.length) cells := by
  induction args generalizing Γ with
  | nil => exact Typed.pure rfl (by simp)
  | cons arg args ih =>
      refine Typed.bind (typed_allocCell (hargs (by simp))) fun cell _ => ?_
      refine Typed.bind (ih fun r hr => Or.inl (hargs ?_)) fun hs hlen => ?_
      · obtain ⟨h, hh, rfl⟩ := hr
        exact ⟨h, List.mem_cons_of_mem _ hh, rfl⟩
      · refine Typed.pure (by simp [hlen]) (cells_subset fun k hk => ?_)
        rcases List.mem_cons.mp hk with rfl | hk
        · exact Or.inl (Or.inr rfl)
        · exact Or.inr (cell_mem_cells.mpr hk)

theorem typed_unitCells (count : Nat) :
    Typed (vmTheory p hosts sites running) Γ (unitCells count : M F σ (List Handle))
      (fun hs => hs.length = count) cells := by
  induction count generalizing Γ with
  | zero => exact Typed.pure rfl (by simp)
  | succ count ih =>
      refine Typed.bind (typed_allocLeaf trivial rfl rfl rfl) fun unit _ => ?_
      refine Typed.bind (typed_allocCell (Or.inr rfl)) fun cell _ => ?_
      refine Typed.bind ih fun hs hlen => ?_
      refine Typed.pure (by simp [hlen]) (cells_subset fun k hk => ?_)
      rcases List.mem_cons.mp hk with rfl | hk
      · exact Or.inl (Or.inr rfl)
      · exact Or.inr (cell_mem_cells.mpr hk)

/-- A new frame has the cells its function declares. -/
theorem typed_frame (hp : p.Fits) {function : Nat} {captures args : List Handle}
    {slotChildren : Option Handle} (hcaptures : cells captures ⊆ Γ) (hargs : vals args ⊆ Γ)
    (hslot : vals slotChildren.toList ⊆ Γ) :
    Typed (vmTheory p hosts sites running) Γ
      (frame function captures args slotChildren : M F σ Frame)
      (fun f => f.WellFormed p ∧ f.thenCall = none ∧ f.function = function) Frame.refs := by
  rw [frame]
  refine Typed.bind typed_vm fun vm hvm => ?_
  rw [hvm.1]
  split
  · next f hf =>
      split
      · exact typed_error _
      · next harity =>
          refine Typed.bind (typed_argumentCells (hargs.trans Set.subset_union_left))
            fun argCells hlen => ?_
          refine Typed.bind (typed_unitCells _) fun units hunits => ?_
          refine Typed.pure ⟨⟨f, hf, ?_⟩, rfl, rfl⟩ ?_
          · have hfit := hp.locals_of_getElem? hf
            simp only [List.length_append, hlen, hunits]
            omega
          · rintro r (((⟨k, hk, rfl⟩ | hr) | hr) | hr)
            · rcases List.mem_append.mp hk with hk | hk
              · rcases List.mem_append.mp hk with hk | hk
                · exact Or.inl (Or.inl (Or.inl (hcaptures (cell_mem_cells.mpr hk))))
                · exact Or.inl (Or.inr (cell_mem_cells.mpr hk))
              · exact Or.inr (cell_mem_cells.mpr hk)
            · simp at hr
            · exact Or.inl (Or.inl (Or.inl (hslot hr)))
            · simp at hr
  · exact typed_error _

theorem typed_invoke (hp : p.Fits) {function : Nat} {captures args : List Handle}
    {slotChildren : Option Handle} (hcaptures : cells captures ⊆ Γ) (hargs : vals args ⊆ Γ)
    (hslot : vals slotChildren.toList ⊆ Γ) :
    Typed (vmTheory p hosts sites running) Γ
      (invoke function captures args slotChildren : M F σ Invocation)
      (Invocation.WellFormed p) Invocation.refs := by
  refine Typed.bind (typed_frame hp hcaptures hargs hslot) fun next hnext => ?_
  obtain ⟨hwf, -, hfunction⟩ := hnext
  obtain ⟨f, hf, -⟩ := id hwf
  rw [hfunction] at hf
  refine Typed.bind (typed_function hf) fun g hg => ?_
  split
  · refine Typed.bind (typed_spawn (.code [next]) ?_ ?_) fun h _ => ?_
    · exact ⟨by simpa using hwf, by simp⟩
    · rintro r ⟨frame, hframe, hr⟩
      rw [List.mem_singleton.mp hframe] at hr
      exact Or.inl (Or.inr hr)
    · exact Typed.pure trivial Set.subset_union_right
  · exact Typed.pure hwf fun r hr => Or.inl (Or.inr hr)

theorem typed_enter {i : Invocation} (hwf : i.WellFormed p) (hrefs : i.refs ⊆ Γ) :
    Typed (vmTheory p hosts sites running) Γ (enter i) (fun _ => True) fun _ => ∅ := by
  cases i with
  | frame next => exact typed_enterFrame hwf hrefs
  | task promise => exact typed_push (hrefs rfl)

theorem typed_callValue (hp : p.Fits) {callee : Handle} {args : List Handle}
    (hcallee : Ref.val callee ∈ Γ) (hargs : vals args ⊆ Γ) :
    Typed (vmTheory p hosts sites running) Γ (callValue callee args) (fun _ => True)
      fun _ => ∅ := by
  refine Typed.bind (typed_get hcallee) fun v _ => ?_
  split
  · refine Typed.bind (typed_invoke hp ?_ (hargs.trans Set.subset_union_left) ?_)
      fun i hi => ?_
    · exact fun r hr => Or.inr (Or.inl hr)
    · exact fun r hr => Or.inr (Or.inr hr)
    · exact typed_enter hi Set.subset_union_right
  · exact typed_error _

/-- A frame entered with a call to make on return. -/
theorem Frame.refs_thenCall {frame : Frame} (args : Option (List Handle)) :
    ({ frame with thenCall := args } : Frame).refs ⊆ frame.refs ∪ vals (args.getD []) := by
  rintro r (((hr | hr) | hr) | hr)
  · exact Or.inl (Or.inl (Or.inl (Or.inl hr)))
  · exact Or.inl (Or.inl (Or.inl (Or.inr hr)))
  · exact Or.inl (Or.inl (Or.inr hr))
  · exact Or.inr hr

theorem typed_readProp (hp : p.Fits) {value : Option Handle} {thenCall : Option (List Handle)}
    (hvalue : ∀ h, value = some h → Ref.val h ∈ Γ) (hargs : vals (thenCall.getD []) ⊆ Γ) :
    Typed (vmTheory p hosts sites running) Γ (readProp value thenCall) (fun _ => True)
      fun _ => ∅ := by
  cases value with
  | none => exact typed_pushNew trivial rfl rfl (Set.empty_subset _)
  | some value =>
      have hval := hvalue value rfl
      refine Typed.bind (typed_get hval) fun v _ => ?_
      split
      · refine Typed.bind (typed_frame hp ?_ (by simp) ?_) fun getter hgetter => ?_
        · exact fun r hr => Or.inr (Or.inl hr)
        · exact fun r hr => Or.inr (Or.inr hr)
        · refine typed_enterFrame hgetter.1 ((Frame.refs_thenCall thenCall).trans ?_)
          rintro r (hr | hr)
          · exact Or.inr hr
          · exact Or.inl (Or.inl (hargs hr))
      · cases thenCall with
        | some args =>
            exact typed_callValue hp (Or.inl hval) (hargs.trans Set.subset_union_left)
        | none => exact typed_push (Or.inl hval)

end Rules

end M

end Deka.Vm
