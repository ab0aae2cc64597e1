/-
Deka/Vm/BoundaryTyping.lean

Typing rules for the host boundary, for descriptors and for typed JSON.

Wire values carry no handle.  What enters the heap from the host is built from
fresh values and from callbacks the machine still owns; a value is normalized only
after its type accepted it, so the native `expect` on a normal form never fails.
-/
import Deka.Vm.CallTyping

namespace Deka.Vm

open Deka.Lib

set_option linter.dupNamespace false

variable {F σ : Type}

/-- A record whose order lists the keys of a map. -/
theorem Record.ordered_keys (es : List (String × Handle)) (name identity : Option String) :
    Record.Ordered
      { fields := BTreeMap.extend [] es
        order := BTreeMap.keys (BTreeMap.extend ([] : BTreeMap String Handle) es)
        structName := name
        structIdentity := identity } := by
  intro key hkey
  have h := BTreeMap.get?_isSome_iff.mpr hkey
  exact Option.isSome_iff_exists.mp h

namespace M

section Rules

variable {p : Program F} {hosts : Hosts F σ} {sites : PanicSite → Prop}
  {running : Option (Nat × Handle)} {Γ : Set Ref}

/-! ### To the host -/

/-- A closure that crosses to the host is rooted as a callback. -/
theorem typed_callback {h : Handle} (hh : Ref.val h ∈ Γ) :
    Typed (vmTheory p hosts sites running) Γ
      (do let callback := (← vm).context.callback h
          modifyVm fun vm => { vm with context := callback.2 }
          return .callback callback.1 : M F σ (HostValue F))
      (fun _ => True) fun _ => ∅ := by
  refine Typed.bind typed_vm fun vm _ => ?_
  refine Typed.bind (typed_modifyVm (fun _ => rfl) (fun _ => rfl) (fun _ => rfl) (fun _ => rfl)
    (fun _ => rfl) (fun _ => rfl) (fun _ => rfl) (fun _ => rfl) ?_) fun _ _ => ?_
  · intro vm' k hk
    rcases List.mem_append.mp hk with hk | hk
    · exact Or.inl (List.mem_append_left _ hk)
    · right
      have hk : k ∈ (vm.context.callbacks ++ [(vm.context.nextCallback, h)]).map Prod.snd := hk
      rw [List.map_append, List.mem_append] at hk
      rcases hk with hk | hk
      · exact Or.inr (Or.inl ⟨k, List.mem_append_right _ hk, rfl⟩)
      · rw [List.mem_singleton.mp hk]
        exact Or.inl hh
  · exact Typed.pure trivial (Set.empty_subset _)

/-- Wire values hold no handle; crossing only fails with an error text. -/
theorem typed_toHost {depth : Nat} {ancestors : List Handle} {h : Handle}
    (hh : Ref.val h ∈ Γ) :
    Typed (vmTheory p hosts sites running) Γ (toHost depth ancestors h) (fun _ => True)
      fun _ => ∅ := by
  induction depth generalizing Γ ancestors h with
  | zero =>
      rw [toHost]
      split
      · exact typed_error _
      · exact typed_error _
  | succ depth ih =>
      rw [toHost]
      split
      · exact typed_error _
      · refine Typed.bind (typed_get hh) fun v _ => ?_
        cases v with
        | unit => exact Typed.pure trivial (Set.empty_subset _)
        | number n => exact Typed.pure trivial (Set.empty_subset _)
        | bool b => exact Typed.pure trivial (Set.empty_subset _)
        | string s => exact Typed.pure trivial (Set.empty_subset _)
        | bytes b => exact Typed.pure trivial (Set.empty_subset _)
        | host handle => exact Typed.pure trivial (Set.empty_subset _)
        | list items =>
            refine Typed.bind (Typed.mapM fun k hk => ih (Or.inr (val_mem_vals.mpr hk)))
              fun values _ => ?_
            exact Typed.pure trivial (Set.empty_subset _)
        | record r =>
            have hr : vals r.fields.values ⊆ Γ ∪ (Value.record r : Value F).refs :=
              Set.subset_union_right
            dsimp only
            split
            · refine Typed.bind (typed_field hr _ _) fun case _ => ?_
              refine Typed.bind (typed_get (Or.inr rfl)) fun label _ => ?_
              split
              · exact Typed.pure trivial (Set.empty_subset _)
              · refine Typed.bind (typed_field ?_ _ _) fun payload _ => ?_
                · exact hr.trans (Set.subset_union_left.trans Set.subset_union_left)
                · refine Typed.bind (ih (Or.inr rfl)) fun value _ => ?_
                  exact Typed.pure trivial (Set.empty_subset _)
              · exact typed_error _
            · refine Typed.bind (typed_field hr _ _) fun case _ => ?_
              refine Typed.bind (typed_get (Or.inr rfl)) fun label _ => ?_
              split
              · split
                · next payload hpayload =>
                    refine Typed.bind (ih (Or.inl (Or.inl (hr ?_)))) fun value _ => ?_
                    · exact val_mem_vals.mpr (mem_values_of_get? hpayload)
                    · exact Typed.pure trivial (Set.empty_subset _)
                · exact Typed.pure trivial (Set.empty_subset _)
              · exact typed_error _
            · refine Typed.bind (Typed.mapM fun e he => Typed.bind (ih ?_) fun value _ =>
                Typed.pure (φ := fun _ => True) (R := fun _ => ∅) trivial (Set.empty_subset _))
                fun fields _ => ?_
              · exact hr (val_mem_vals.mpr (List.mem_map.mpr ⟨e, he, rfl⟩))
              · split
                · exact Typed.pure trivial (Set.empty_subset _)
                · exact Typed.pure trivial (Set.empty_subset _)
        | closure _ _ _ => exact typed_callback (Or.inl hh)
        | uninitialized => exact typed_error _
        | descriptor _ => exact typed_error _
        | props _ => exact typed_error _
        | cell _ => exact typed_error _
        | promise _ => exact typed_error _

theorem typed_wireValue {h : Handle} (hh : Ref.val h ∈ Γ) :
    Typed (vmTheory p hosts sites running) Γ (wireValue h) (fun _ => True) fun _ => ∅ :=
  typed_toHost hh

/-! ### From the host -/

theorem typed_nominalType (name : String) :
    Typed (vmTheory p hosts sites running) Γ (nominalType name : M F σ (Option HostType))
      (fun _ => True) fun _ => ∅ :=
  typed_look

theorem typed_ownedCallback (callback : HostCallback) :
    Typed (vmTheory p hosts sites running) Γ (ownedCallback callback : M F σ Handle)
      (fun _ => True) fun h => {.val h} := by
  refine Typed.reads ?_ ?_
  · intro s h hs hΓ hh
    split at hh
    · next k hk =>
        cases hh
        refine ⟨trivial, ?_⟩
        rintro r rfl
        exact hs.sound.refs _ (Or.inl ⟨h, List.mem_append_right _
          (BTreeMap.mem_values_of_get? hk), rfl⟩)
    · cases hh
  · intro s e hs hΓ he
    split at he
    · cases he
    · cases he
      trivial

variable [F64 F]

/-- Whatever the host sends, the heap value built from it is well formed. -/
theorem typed_allocHostValueInner {depth : Nat} {value : HostValue F} :
    Typed (vmTheory p hosts sites running) Γ
      (allocHostValueInner depth value : M F σ Handle) (fun _ => True) fun h => {.val h} := by
  induction depth generalizing Γ value with
  | zero => exact typed_error _
  | succ depth ih =>
      -- the values of a record or a struct
      have hfields : ∀ fields : List (String × HostValue F),
          Typed (vmTheory p hosts sites running) Γ
            (fields.mapM fun e => do
              return (e.1, ← allocHostValueInner depth e.2) : M F σ (List (String × Handle)))
            (fun _ => True) fun es => vals (es.map Prod.snd) := by
        intro fields
        refine (Typed.mapM (φ := fun _ => True) (R := fun e => {.val e.2}) fun e _ =>
          Typed.bind ih fun h _ => Typed.pure trivial ?_).promise (fun _ _ => trivial) ?_
        · exact Set.subset_union_right
        · rintro es - r ⟨h, hh, rfl⟩
          obtain ⟨e, he, rfl⟩ := List.mem_map.mp hh
          exact Or.inl ⟨e, he, rfl⟩
      unfold allocHostValueInner
      split
      · refine Typed.bind (typed_nominalType _) fun ty _ => ?_
        split
        · split
          · dsimp only
            split
            · split
              · refine Typed.bind ih fun h _ => ?_
                refine typed_enumValue fun k hk => ?_
                cases hk
                exact Or.inr rfl
              · exact typed_enumValue fun k hk => by cases hk
            · exact typed_errorBind _
          · exact typed_error _
        · exact typed_error _
      · refine Typed.bind (typed_nominalType _) fun ty _ => ?_
        split
        · dsimp only
          split
          · refine Typed.bind ((hfields _).weaken Set.subset_union_left) fun es _ => ?_
            refine typed_allocVal (Record.ordered_keys es _ _) rfl rfl ?_
            refine vals_subset fun k hk => ?_
            rcases Record.mem_values_extend [] es hk with hk | hk
            · exact Or.inr (val_mem_vals.mpr hk)
            · exact absurd hk List.not_mem_nil
          · exact typed_errorBind _
        · exact typed_error _
      · refine Typed.bind ih fun h _ => ?_
        refine typed_enumValue fun k hk => ?_
        cases hk
        exact Or.inr rfl
      · exact typed_enumValue fun k hk => by cases hk
      · exact typed_allocLeaf trivial rfl rfl rfl
      · exact typed_allocLeaf trivial rfl rfl rfl
      · refine Typed.bind (Typed.mapM fun v _ => ih) fun hs _ => ?_
        refine typed_allocVal trivial rfl rfl ?_
        rintro r ⟨h, hh, rfl⟩
        exact Or.inr ⟨h, hh, rfl⟩
      · refine Typed.bind (hfields _) fun es _ => ?_
        refine typed_allocVal (Record.ofList_ordered es).1 rfl rfl ?_
        exact vals_subset fun k hk => Or.inr (val_mem_vals.mpr ((Record.ofList_ordered es).2 k hk))
      · refine Typed.bind (typed_ownedCallback _) fun h _ => ?_
        refine Typed.bind (Typed.discard (typed_get (Or.inr rfl))) fun _ _ => ?_
        exact Typed.pure trivial fun r hr => Or.inl (Or.inr hr)
      · exact typed_allocLeaf trivial rfl rfl rfl
      · exact typed_allocLeaf trivial rfl rfl rfl
      · exact typed_allocLeaf trivial rfl rfl rfl
      · exact typed_allocLeaf trivial rfl rfl rfl
      · refine Typed.bind (Typed.mapM fun s _ => typed_allocLeaf trivial rfl rfl rfl)
          fun hs _ => ?_
        refine typed_allocVal trivial rfl rfl ?_
        rintro r ⟨h, hh, rfl⟩
        exact Or.inr ⟨h, hh, rfl⟩

theorem typed_allocHostValue (value : HostValue F) :
    Typed (vmTheory p hosts sites running) Γ (allocHostValue value : M F σ Handle)
      (fun _ => True) fun h => {.val h} :=
  typed_allocHostValueInner

omit [F64 F] in
/-- A value that was accepted has a normal form. -/
theorem typed_normalized {expected : HostType} {value : HostValue F}
    (hdistinct : expected.CasesDistinct) (haccepts : expected.accepts value = true) :
    Typed (vmTheory p hosts sites running) Γ (normalized expected value : M F σ (HostValue F))
      (fun _ => True) fun _ => ∅ := by
  have hsome := HostType.isSome_normalize expected value hdistinct haccepts
  rw [normalized]
  split
  · exact Typed.pure trivial (Set.empty_subset _)
  · next hnone =>
      rw [hnone] at hsome
      cases hsome

theorem typed_hostResult {value : Except String (HostValue F)} {expected : HostType}
    {resultChannel : Bool} {resultError : Option HostEnumError}
    (hdistinct : expected.CasesDistinct) :
    Typed (vmTheory p hosts sites running) Γ
      (hostResult value expected resultChannel resultError : M F σ Handle) (fun _ => True)
      fun h => {.val h} := by
  unfold hostResult
  split
  · next error =>
      split
      · have herr : ∀ h, Typed (vmTheory p hosts sites running) (Γ ∪ {.val h})
            (enumValue "Result" "Err" 1 (some h) : M F σ Handle) (fun _ => True)
            fun h => {.val h} := by
          intro h
          refine typed_enumValue fun k hk => ?_
          cases hk
          exact Or.inr rfl
        dsimp only
        split
        · exact Typed.bind (typed_allocHostValue _) fun h _ => herr h
        · exact Typed.bind (typed_allocLeaf trivial rfl rfl rfl) fun h _ => herr h
      · exact typed_error _
  · next value =>
      dsimp only
      split
      · next haccepts =>
          refine Typed.bind (typed_normalized hdistinct haccepts) fun v _ => ?_
          refine Typed.bind (typed_allocHostValue v) fun h _ => ?_
          split
          · refine typed_enumValue fun k hk => ?_
            cases hk
            exact Or.inr rfl
          · exact Typed.pure trivial Set.subset_union_right
      · exact typed_errorBind _

omit [F64 F] in
/-- What host code does to the context leaves the machine's handles alone. -/
theorem typed_acts (actions : List (HostAction F)) (world : σ) :
    Typed (vmTheory p hosts sites running) Γ
      (modifyVm fun vm => { vm with context := vm.context.acts actions, world } : M F σ Unit)
      (fun _ => True) fun _ => ∅ := by
  refine typed_modifyVm (fun _ => rfl) (fun _ => rfl) (fun _ => rfl) (fun _ => rfl)
    (fun _ => rfl) (fun _ => rfl) (fun _ => rfl) (fun _ => rfl) ?_
  intro vm h hh
  left
  have hh : h ∈ vm.root.toList ++ vm.pins ++ vm.descriptors.values ++
    (vm.context.acts actions).callbacks.values := hh
  rwa [HostContext.callbacks_acts] at hh

omit [F64 F] in
theorem typed_callHost (op : HostOp F σ) (name : String) (args : List (HostValue F)) :
    Typed (vmTheory p hosts sites running) Γ (callHost op name args : M F σ (HostReply F))
      (fun _ => True) fun _ => ∅ := by
  have harguments : Typed (vmTheory p hosts sites running) Γ
      (Prog.reads fun _ => op.arguments name args : M F σ (List (HostValue F)))
      (fun _ => True) fun _ => ∅ := by
    refine Typed.reads ?_ ?_
    · exact fun s a hs hΓ ha => ⟨trivial, fun r hr => absurd hr (Set.notMem_empty r)⟩
    · intro s e hs hΓ he
      obtain ⟨message, rfl⟩ := HostOp.arguments_error he
      trivial
  refine Typed.bind harguments fun args _ => ?_
  refine Typed.bind typed_vm fun vm _ => ?_
  refine Typed.bind (typed_acts _ _) fun _ _ => ?_
  split
  · split
    · exact Typed.pure trivial (Set.empty_subset _)
    · exact typed_error _
  · exact Typed.pure trivial (Set.empty_subset _)

/-! ### Descriptors and JSON -/

omit [F64 F] in
/-- A descriptor keeps the handle it first got. -/
theorem typed_internDescriptor (descriptor : TypeDescriptor) :
    Typed (vmTheory p hosts sites running) Γ (internDescriptor descriptor : M F σ Handle)
      (fun _ => True) fun h => {.val h} := by
  refine Typed.bind typed_vm fun vm _ => ?_
  split
  · next h hh =>
      refine Typed.pure trivial ?_
      rintro r rfl
      refine Or.inr (Or.inl ⟨h, ?_, rfl⟩)
      exact List.mem_append_left _ (List.mem_append_right _ (BTreeMap.mem_values_of_get? hh))
  · refine Typed.bind (typed_allocLeaf trivial rfl rfl rfl) fun h _ => ?_
    refine Typed.bind (typed_modifyVm (fun _ => rfl) (fun _ => rfl) (fun _ => rfl)
      (fun _ => rfl) (fun _ => rfl) (fun _ => rfl) (fun _ => rfl) (fun _ => rfl) ?_)
      fun _ _ => Typed.pure trivial ?_
    · intro vm' k hk
      rcases List.mem_append.mp hk with hk | hk
      · rcases List.mem_append.mp hk with hk | hk
        · exact Or.inl (List.mem_append_left _ (List.mem_append_left _ hk))
        · rcases BTreeMap.mem_values_insert hk with rfl | hk
          · exact Or.inr (Or.inr rfl)
          · exact Or.inl (List.mem_append_left _ (List.mem_append_right _ hk))
      · exact Or.inl (List.mem_append_right _ hk)
    · exact fun r hr => Or.inl (Or.inr hr)

omit [F64 F] in
theorem typed_parseJson [Platform F] {text factories : Handle} {shape : JsonShape}
    (htext : Ref.val text ∈ Γ) (hfactories : Ref.val factories ∈ Γ) :
    Typed (vmTheory p hosts sites running) Γ
      (parseJson text shape factories : M F σ Handle) (fun _ => True) fun h => {.val h} := by
  refine Typed.bind (typed_get htext) fun v _ => ?_
  split
  · next text _ =>
      have hparse : Typed (heapTheory p sites) Γ (parse text shape factories)
          (fun _ => True) decoded := by
        rw [parse]
        split
        · exact typed_decode hfactories shape _ _
        · exact Typed.throw trivial
      refine Typed.bind ((typed_liftHeap (Typed.attempt hparse)).weaken Set.subset_union_left)
        fun r _ => ?_
      cases r with
      | ok value =>
          refine typed_enumValue fun k hk => ?_
          cases hk
          exact Or.inr (Or.inl rfl)
      | error e =>
          refine Typed.bind (typed_allocLeaf trivial rfl rfl rfl) fun h _ => ?_
          refine typed_enumValue fun k hk => ?_
          cases hk
          exact Or.inr rfl
  · exact typed_error _

end Rules

end M

end Deka.Vm
