/-
Deka/Vm/BuiltinTyping.lean

Typing rules for what instructions are made of: type and field lookups, the
formatter, changes in place and the list built-ins.

Two native panics stay possible for a validated program, and the rules name them:
the search of a field through embedded structs can outgrow the native stack, and
`sort` can be given keys its comparison does not order totally.  No rule allows
any other panic, and none allows a stale handle.
-/
import Deka.Vm.BoundaryTyping

namespace Deka.Vm

open Deka.Lib

set_option linter.dupNamespace false

variable {F σ : Type} {p : Program F} {Γ : Set Ref} {sites : PanicSite → Prop}

/-- Whether an instruction has to be run again when its promise settles. -/
def Step.isBlocked : Step → Bool
  | .blocked _ => true
  | _ => false

/-! ### Heap readers -/

theorem Value.typeOf_error {v : Value F} {e : Fault} (h : v.typeOf = .error e) :
    ∃ message, e = .error message := by
  cases v with
  | record r =>
      simp only [Value.typeOf] at h
      split at h <;> cases h
  | uninitialized | cell _ =>
      cases h
      exact ⟨_, rfl⟩
  | _ => cases h

namespace HeapM

theorem typed_typeOf {h : Handle} (hh : Ref.val h ∈ Γ) :
    Typed (heapTheory p sites) Γ (typeOf h) (fun _ => True) fun _ => ∅ := by
  refine Typed.bind (typed_newtypeName hh) fun name _ => ?_
  split
  · exact Typed.pure trivial (Set.empty_subset _)
  · refine Typed.reads ?_ ?_
    · exact fun H d hH hΓ hd => ⟨trivial, fun r hr => absurd hr (Set.notMem_empty r)⟩
    · intro H e hH hΓ he
      obtain ⟨v, hv, -⟩ := hΓ _ (Or.inl hh)
      rw [Heap.get_of_lookup hv] at he
      obtain ⟨message, rfl⟩ := Value.typeOf_error he
      trivial

/-- The owner of a field is a record. -/
theorem typed_getOwned {h : Handle} (hh : Ref.val h ∈ Γ) :
    Typed (heapTheory p sites) Γ (get h) (fun v => v.WellFormed p ∧ v.isCell = false)
      fun v => v.refs ∪ {r | r = .record h ∧ ∃ x, v = .record x} := by
  refine Typed.reads ?_ ?_
  · intro H v hH hΓ hv
    obtain ⟨w, hw, hc⟩ := hΓ _ hh
    rw [Heap.get_eq_ok, hw] at hv
    cases hv
    refine ⟨⟨hH.wellFormed h v hw, hc⟩, ?_⟩
    rintro r (hr | ⟨rfl, x, rfl⟩)
    · exact hH.good h v hw r hr
    · exact ⟨x, hw⟩
  · intro H e hH hΓ he
    obtain ⟨w, hw, -⟩ := hΓ _ hh
    rw [Heap.get_of_lookup hw] at he
    cases he

/-- The references to the owner a search found. -/
def ownerRefs : Option Handle → Set Ref
  | some h => {.val h, .record h}
  | none => ∅

/-- The search of a field follows the embeds, and may run out of native stack. -/
theorem typed_fieldOwner (hsites : sites .nativeStack) {depth : Nat} {object : Handle}
    {name : String} (hobject : Ref.val object ∈ Γ) :
    Typed (heapTheory p sites) Γ (fieldOwner depth object name) (fun _ => True)
      ownerRefs := by
  induction depth generalizing Γ object with
  | zero => exact Typed.throw hsites
  | succ depth ih =>
      refine Typed.bind (typed_observe object _) fun _ _ => ?_
      refine Typed.bind (typed_getOwned (Or.inl hobject)) fun v _ => ?_
      split
      · next record _ =>
          split
          · refine Typed.pure trivial ?_
            rintro r (rfl | rfl)
            · exact Or.inl (Or.inl hobject)
            · exact Or.inr (Or.inr ⟨rfl, _, rfl⟩)
          · split
            · exact Typed.pure trivial (Set.empty_subset _)
            · refine Typed.findSomeM (fun embed _ => ?_) (Set.empty_subset _)
              refine Typed.bind (typed_observe object _) fun _ _ => ?_
              split
              · next value hvalue =>
                  refine ih (Or.inl (Or.inr (Or.inl ?_)))
                  exact val_mem_vals.mpr (mem_values_of_get? hvalue)
              · exact Typed.pure trivial (Set.empty_subset _)
      · exact Typed.pure trivial (Set.empty_subset _)

section Inspect

variable [Platform F]

theorem typed_inspectLeaf (nested : Bool) (v : Value F) :
    Typed (heapTheory p sites) Γ (inspectLeaf nested v) (fun _ => True) fun _ => ∅ := by
  cases v with
  | unit | number _ | bool _ | string _ => exact Typed.pure trivial (Set.empty_subset _)
  | _ => exact Typed.throw trivial

theorem mem_printed {r : Record} {e : String × Handle} (he : e ∈ printed r) :
    e.2 ∈ r.fields.values := by
  obtain ⟨name, -, hname⟩ := List.mem_filterMap.mp he
  obtain ⟨h, hh, rfl⟩ := Option.map_eq_some_iff.mp hname
  exact mem_values_of_get? hh

theorem typed_inspect {depth : Nat} {nested : Bool} {ancestors : List Handle} {value : Handle}
    (hvalue : Ref.val value ∈ Γ) :
    Typed (heapTheory p sites) Γ (inspect depth nested ancestors value) (fun _ => True)
      fun _ => ∅ := by
  induction depth generalizing Γ nested ancestors value with
  | zero =>
      refine Typed.bind (typed_observe value _) fun _ _ => ?_
      refine Typed.bind (typed_get (Or.inl hvalue)) fun v _ => ?_
      split
      · exact Typed.pure trivial (Set.empty_subset _)
      · exact Typed.pure trivial (Set.empty_subset _)
      · exact typed_inspectLeaf nested _
  | succ depth ih =>
      refine Typed.bind (typed_observe value _) fun _ _ => ?_
      refine Typed.bind (typed_get (Or.inl hvalue)) fun v _ => ?_
      split
      · next items _ =>
          split
          · exact Typed.pure trivial (Set.empty_subset _)
          · refine Typed.bind (Typed.mapM fun h hh => ih (Or.inr (val_mem_vals.mpr hh)))
              fun parts _ => ?_
            exact Typed.pure trivial (Set.empty_subset _)
      · next record _ =>
          split
          · exact Typed.pure trivial (Set.empty_subset _)
          · split
            · split
              · next name hname =>
                  refine Typed.bind (typed_get (Or.inr (val_mem_vals.mpr
                    (mem_values_of_get? hname)))) fun label _ => ?_
                  split
                  · split
                    · next payload hpayload =>
                        refine Typed.bind (ih (Or.inl (Or.inr (val_mem_vals.mpr
                          (mem_values_of_get? hpayload))))) fun text _ => ?_
                        exact Typed.pure trivial (Set.empty_subset _)
                    · exact Typed.pure trivial (Set.empty_subset _)
                  · exact Typed.throw trivial
              · exact Typed.throw trivial
            · refine Typed.bind (Typed.mapM fun e he => Typed.bind (ih ?_) fun text _ =>
                Typed.pure (φ := fun _ => True) (R := fun _ => ∅) trivial (Set.empty_subset _))
                fun parts _ => ?_
              · exact Or.inr (val_mem_vals.mpr (mem_printed he))
              · exact Typed.pure trivial (Set.empty_subset _)
      · exact typed_inspectLeaf nested _

theorem typed_valueText {value : Handle} (hvalue : Ref.val value ∈ Γ) :
    Typed (heapTheory p sites) Γ (valueText value) (fun _ => True) fun _ => ∅ :=
  typed_inspect hvalue

end Inspect

end HeapM


/-! ### Rules for changes in place -/

namespace M

section Rules

variable {hosts : Hosts F σ} {running : Option (Nat × Handle)} {α : Type}

theorem typed_mutate {h : Handle} (hh : Ref.val h ∈ Γ)
    {f : Value F → Except Fault (Value F × α)} {φ : α → Prop} {R : α → Set Ref}
    (hok : ∀ v w a, v.WellFormed p → v.isCell = false → f v = .ok (w, a) →
      v.Evolves w ∧ w.WellFormed p ∧ w.refs ⊆ Γ ∪ v.refs ∧ φ a ∧ R a ⊆ Γ ∪ v.refs)
    (herr : ∀ v e, v.WellFormed p → f v = .error e → e.Allowed sites) :
    Typed (vmTheory p hosts sites running) Γ (mutate h f) φ R :=
  typed_liftHeap (HeapM.typed_mutate hh hok herr)

/-- Changing a list in place: what it holds afterwards it held before, or it is in
the context. -/
theorem typed_onList {h : Handle} (hh : Ref.val h ∈ Γ) {message : String}
    {f : List Handle → Except Fault (List Handle × α)} {φ : α → Prop} {R : α → Set Ref}
    (hok : ∀ items items' a, f items = .ok (items', a) →
      vals items' ⊆ Γ ∪ vals items ∧ φ a ∧ R a ⊆ Γ ∪ vals items)
    (herr : ∀ items e, f items = .error e → e.Allowed sites) :
    Typed (vmTheory p hosts sites running) Γ (mutate h (onList message f)) φ R := by
  refine typed_mutate hh ?_ ?_
  · intro v w a hv hc hf
    cases v with
    | list items =>
        rw [onList] at hf
        rcases hi : f items with e | ⟨items', b⟩
        · rw [hi] at hf
          cases hf
        · rw [hi] at hf
          cases hf
          obtain ⟨hitems, hφ, hR⟩ := hok items items' b hi
          exact ⟨.list items items', trivial, hitems, hφ, hR⟩
    | _ => cases hf
  · intro v e hv hf
    cases v with
    | list items =>
        rw [onList] at hf
        rcases hi : f items with e' | ⟨items', b⟩
        · rw [hi] at hf
          cases hf
          exact herr items e hi
        · rw [hi] at hf
          cases hf
    | _ =>
        cases hf
        trivial

/-- An instruction that pushes its result. -/
theorem typed_result {h : Handle} (hh : Ref.val h ∈ Γ) :
    Typed (vmTheory p hosts sites running) Γ (push h >>= fun _ => pure .continue)
      (fun r => r.isBlocked = false) Step.refs :=
  Typed.bind (typed_push hh) fun _ _ => Typed.pure rfl (Set.empty_subset _)

/-- An instruction that pushes a new value. -/
theorem typed_newResult {v : Value F} (hv : v.WellFormed p) (hc : v.isCell = false)
    (hs : v.isSettled = false) (hr : v.refs ⊆ Γ) :
    Typed (vmTheory p hosts sites running) Γ
      (alloc v >>= fun h => push h >>= fun _ => pure .continue)
      (fun r => r.isBlocked = false) Step.refs :=
  Typed.bind (typed_allocVal hv hc hs hr) fun _ _ => typed_result (Or.inr rfl)

/-- An instruction that runs for its effect. -/
theorem typed_effect {m : M F σ α} {φ : α → Prop} {R : α → Set Ref}
    (hm : Typed (vmTheory p hosts sites running) Γ m φ R) :
    Typed (vmTheory p hosts sites running) Γ (m >>= fun _ => pure .continue)
      (fun r => r.isBlocked = false) Step.refs :=
  Typed.bind hm fun _ _ => Typed.pure rfl (Set.empty_subset _)

theorem typed_jump (ip : Nat) :
    Typed (vmTheory p hosts sites running) Γ (jump ip : M F σ Unit) (fun _ => True)
      fun _ => ∅ :=
  typed_modifyTop (fun _ => Set.subset_union_left) fun _ => id

/-! ### List built-ins -/

theorem drain_eq_ok {items removed rest : List Handle} {start stop : Nat}
    (h : drain items start stop = .ok (removed, rest)) :
    (∀ k ∈ removed, k ∈ items) ∧ ∀ k ∈ rest, k ∈ items := by
  rw [drain] at h
  split at h
  · cases h
    refine ⟨fun k hk => List.mem_of_mem_take (List.mem_of_mem_drop hk), fun k hk => ?_⟩
    rcases List.mem_append.mp hk with hk | hk
    · exact List.mem_of_mem_take hk
    · exact List.mem_of_mem_drop hk
  · cases h

theorem clamp_le [F64 F] (n : F) (len : Nat) : clamp n len ≤ len := by
  rw [clamp]
  split
  · exact Nat.min_le_right _ _
  · exact Nat.le_refl _

/-- A drained range is ordered and in bounds. -/
theorem drain_clamp [F64 F] (items : List Handle) (start delete : F) :
    ∃ r, drain items (clamp start items.length)
      (min (clamp start items.length + clamp delete items.length) items.length) = .ok r := by
  have h := clamp_le start items.length
  rw [drain, if_pos ⟨by omega, by omega⟩]
  exact ⟨_, rfl⟩

/-- Copying within a list stays in bounds, and moves elements of the list. -/
theorem copyCells_ok {start target : Nat} (count : Nat) :
    ∀ (i : Nat) (items : List Handle), start + i + count ≤ items.length →
      target + i + count ≤ items.length →
      ∃ items', copyCells start target i count items = .ok items' ∧
        ∀ k ∈ items', k ∈ items := by
  induction count with
  | zero => exact fun i items _ _ => ⟨items, rfl, fun k => id⟩
  | succ count ih =>
      intro i items hs ht
      have hget : items[start + i]? = some items[start + i] :=
        List.getElem?_eq_getElem (by omega)
      rw [copyCells, hget]
      dsimp only
      rw [if_pos (by omega)]
      obtain ⟨items', hitems', hmem⟩ := ih (i + 1)
        (items.set (target + i) items[start + i]) (by simp; omega) (by simp; omega)
      refine ⟨items', hitems', fun k hk => ?_⟩
      rcases List.mem_or_eq_of_mem_set (hmem k hk) with hk | rfl
      · exact hk
      · exact List.getElem_mem _

section ListMut

theorem sortKey_error [F64 F] {v : Value F} {e : Fault} (h : sortKey v = .error e) :
    ∃ message, e = .error message := by
  cases v with
  | number _ | string _ => cases h
  | _ =>
      cases h
      exact ⟨_, rfl⟩

theorem typed_numeric [F64 F] :
    Typed (vmTheory p hosts sites running) Γ (numeric : M F σ F) (fun _ => True)
      fun _ => ∅ := by
  refine Typed.bind typed_pop fun h _ => ?_
  refine Typed.bind (typed_get (Or.inr rfl)) fun v _ => ?_
  split
  · exact Typed.pure trivial (Set.empty_subset _)
  · exact typed_error _

variable [Platform F]

/-- A sorted list is a permutation of the list; only the comparison can fail. -/
theorem typed_sortItems (hsort : sites .sortOrder) {items : List Handle}
    (hitems : vals items ⊆ Γ) :
    Typed (vmTheory p hosts sites running) Γ (sortItems items : M F σ (List Handle))
      (fun _ => True) vals := by
  refine Typed.bind (Typed.mapM (φ := fun _ => True) (R := fun _ => ∅) fun h hh =>
    Typed.bind (typed_get (hitems (val_mem_vals.mpr hh))) fun v _ => ?_) fun keys _ => ?_
  · refine Typed.reads ?_ ?_
    · exact fun s k hs hΓ hk => ⟨trivial, fun r hr => absurd hr (Set.notMem_empty r)⟩
    · intro s e hs hΓ he
      obtain ⟨message, rfl⟩ := sortKey_error he
      trivial
  · split
    · next ranked hranked =>
        refine Typed.pure trivial (vals_subset fun k hk => ?_)
        obtain ⟨e, he, rfl⟩ := List.mem_map.mp hk
        have hzip := (Platform.sortBy_perm hranked).mem_iff.mp he
        exact Or.inl (hitems (val_mem_vals.mpr (List.of_mem_zip hzip).2))
    · exact Typed.throw hsort

theorem typed_listMut {kind : ListMut} (hsort : kind = .sort → sites .sortOrder) :
    Typed (vmTheory p hosts sites running) Γ (listMut kind : M F σ Unit) (fun _ => True)
      fun _ => ∅ := by
  cases kind with
  | push =>
      refine Typed.bind typed_pop fun value _ => ?_
      refine Typed.bind typed_pop fun list _ => ?_
      refine Typed.bind (typed_onList (φ := fun _ => True) (R := fun _ => ∅) (Or.inr rfl) ?_ ?_)
        fun length _ => ?_
      · intro items items' n h
        cases h
        refine ⟨vals_subset fun k hk => ?_, trivial, Set.empty_subset _⟩
        rcases List.mem_append.mp hk with hk | hk
        · exact Or.inr (val_mem_vals.mpr hk)
        · rw [List.mem_singleton.mp hk]
          exact Or.inl (Or.inl (Or.inr rfl))
      · intro items e h
        cases h
      · exact typed_pushNew trivial rfl rfl (Set.empty_subset _)
  | pop =>
      refine Typed.bind typed_pop fun list _ => ?_
      refine Typed.bind (typed_onList (φ := fun _ => True) (R := fun o => vals o.toList)
        (Or.inr rfl) ?_ ?_) fun taken _ => ?_
      · intro items items' n h
        cases h
        refine ⟨vals_subset fun k hk => ?_, trivial, vals_subset fun k hk => ?_⟩
        · exact Or.inr (val_mem_vals.mpr (List.mem_of_mem_dropLast hk))
        · exact Or.inr (val_mem_vals.mpr (List.mem_of_getLast? (Option.mem_toList.mp hk)))
      · intro items e h
        cases h
      · split
        · exact typed_push (Or.inr (by simp))
        · exact typed_pushNew trivial rfl rfl (Set.empty_subset _)
  | shift =>
      refine Typed.bind typed_pop fun list _ => ?_
      refine Typed.bind (typed_onList (φ := fun _ => True) (R := fun o => vals o.toList)
        (Or.inr rfl) ?_ ?_) fun taken _ => ?_
      · intro items items' n h
        cases h
        refine ⟨vals_subset fun k hk => ?_, trivial, vals_subset fun k hk => ?_⟩
        · exact Or.inr (val_mem_vals.mpr (List.mem_of_mem_tail hk))
        · exact Or.inr (val_mem_vals.mpr (List.mem_of_head? (Option.mem_toList.mp hk)))
      · intro items e h
        cases h
      · split
        · exact typed_push (Or.inr (by simp))
        · exact typed_pushNew trivial rfl rfl (Set.empty_subset _)
  | unshift =>
      refine Typed.bind typed_pop fun value _ => ?_
      refine Typed.bind typed_pop fun list _ => ?_
      refine Typed.bind (typed_onList (φ := fun _ => True) (R := fun _ => ∅) (Or.inr rfl) ?_ ?_)
        fun length _ => ?_
      · intro items items' n h
        cases h
        refine ⟨vals_subset fun k hk => ?_, trivial, Set.empty_subset _⟩
        rcases List.mem_cons.mp hk with rfl | hk
        · exact Or.inl (Or.inl (Or.inr rfl))
        · exact Or.inr (val_mem_vals.mpr hk)
      · intro items e h
        cases h
      · exact typed_pushNew trivial rfl rfl (Set.empty_subset _)
  | splice =>
      refine Typed.bind typed_numeric fun delete _ => ?_
      refine Typed.bind typed_numeric fun start _ => ?_
      refine Typed.bind typed_pop fun list _ => ?_
      refine Typed.bind (typed_onList (φ := fun _ => True) (R := vals) (Or.inr rfl) ?_ ?_)
        fun removed _ => ?_
      · intro items items' removed h
        obtain ⟨⟨a, b⟩, hd⟩ := drain_clamp items start delete
        dsimp only at h
        rw [hd] at h
        cases h
        obtain ⟨hremoved, hrest⟩ := drain_eq_ok hd
        exact ⟨vals_subset fun k hk => Or.inr (val_mem_vals.mpr (hrest k hk)), trivial,
          vals_subset fun k hk => Or.inr (val_mem_vals.mpr (hremoved k hk))⟩
      · intro items e h
        obtain ⟨⟨a, b⟩, hd⟩ := drain_clamp items start delete
        dsimp only at h
        rw [hd] at h
        cases h
      · exact typed_pushNew trivial rfl rfl Set.subset_union_right
  | sort =>
      refine Typed.bind typed_pop fun list _ => ?_
      refine Typed.bind (typed_get (Or.inr rfl)) fun v _ => ?_
      split
      · next items _ =>
          refine Typed.bind (typed_sortItems (hsort rfl) Set.subset_union_right) fun sorted _ => ?_
          refine Typed.bind (typed_onList (φ := fun _ => True) (R := fun _ => ∅)
            (Or.inl (Or.inl (Or.inr rfl))) ?_ ?_) fun _ _ => ?_
          · intro items items' a h
            cases h
            exact ⟨fun r hr => Or.inl (Or.inr hr), trivial, Set.empty_subset _⟩
          · intro items e h
            cases h
          · exact typed_push (Or.inl (Or.inl (Or.inl (Or.inr rfl))))
      · exact typed_error _
  | reverse =>
      refine Typed.bind typed_pop fun list _ => ?_
      refine Typed.bind (typed_onList (φ := fun _ => True) (R := fun _ => ∅) (Or.inr rfl) ?_ ?_)
        fun _ _ => ?_
      · intro items items' a h
        cases h
        refine ⟨vals_subset fun k hk => ?_, trivial, Set.empty_subset _⟩
        exact Or.inr (val_mem_vals.mpr (List.mem_reverse.mp hk))
      · intro items e h
        cases h
      · exact typed_push (Or.inl (Or.inr rfl))
  | fill =>
      refine Typed.bind typed_numeric fun start _ => ?_
      refine Typed.bind typed_pop fun value _ => ?_
      refine Typed.bind typed_pop fun list _ => ?_
      refine Typed.bind (typed_onList (φ := fun _ => True) (R := fun _ => ∅) (Or.inr rfl) ?_ ?_)
        fun _ _ => ?_
      · intro items items' a h
        cases h
        refine ⟨vals_subset fun k hk => ?_, trivial, Set.empty_subset _⟩
        rcases List.mem_append.mp hk with hk | hk
        · exact Or.inr (val_mem_vals.mpr (List.mem_of_mem_take hk))
        · rw [List.eq_of_mem_replicate hk]
          exact Or.inl (Or.inl (Or.inr rfl))
      · intro items e h
        cases h
      · exact typed_push (Or.inl (Or.inr rfl))
  | copyWithin =>
      refine Typed.bind typed_numeric fun start _ => ?_
      refine Typed.bind typed_numeric fun target _ => ?_
      refine Typed.bind typed_pop fun list _ => ?_
      have hcopy : ∀ items : List Handle, ∃ items',
          copyCells (clamp start items.length) (clamp target items.length) 0
            (min (items.length - clamp start items.length)
              (items.length - clamp target items.length)) items = .ok items' ∧
            ∀ k ∈ items', k ∈ items := by
        intro items
        have hstart := clamp_le start items.length
        have htarget := clamp_le target items.length
        exact copyCells_ok _ 0 items (by omega) (by omega)
      refine Typed.bind (typed_onList (φ := fun _ => True) (R := fun _ => ∅) (Or.inr rfl) ?_ ?_)
        fun _ _ => ?_
      · intro items items' a h
        obtain ⟨items'', hc, hmem⟩ := hcopy items
        dsimp only at h
        rw [hc] at h
        cases h
        exact ⟨vals_subset fun k hk => Or.inr (val_mem_vals.mpr (hmem k hk)), trivial,
          Set.empty_subset _⟩
      · intro items e h
        obtain ⟨items'', hc, hmem⟩ := hcopy items
        dsimp only at h
        rw [hc] at h
        cases h
      · exact typed_push (Or.inl (Or.inr rfl))

end ListMut

end Rules

end M

end Deka.Vm
