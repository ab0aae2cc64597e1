/-
Deka/Vm/JsonTyping.lean

Encoding and decoding are well typed: in a well-typed heap encoding only fails
with an error text, and decoding allocates well-formed values.
-/
import Deka.Vm.HeapTyping

namespace Deka.Vm

open Deka.Lib

variable {F : Type} {α β : Type}

/-! ### Clean results -/

/-- A result that fails, if at all, with an error text. -/
def Clean (r : Except Fault α) : Prop := ∀ e, r = .error e → ∃ message, e = .error message

theorem Clean.ok (a : α) : Clean (.ok a) := by
  intro e he
  cases he

theorem Clean.error (message : String) : Clean (.error (.error message) : Except Fault α) := by
  intro e he
  cases he
  exact ⟨message, rfl⟩

theorem Clean.bind {m : Except Fault α} {k : α → Except Fault β} (hm : Clean m)
    (hk : ∀ a, m = .ok a → Clean (k a)) : Clean (m >>= k) := by
  cases m with
  | error e =>
      obtain ⟨message, rfl⟩ := hm e rfl
      exact .error message
  | ok a => exact hk a rfl

theorem Clean.mapM {γ : Type} {f : γ → Except Fault α} {xs : List γ}
    (h : ∀ x ∈ xs, Clean (f x)) : Clean (xs.mapM f) := by
  induction xs with
  | nil => exact .ok []
  | cons x xs ih =>
      rw [List.mapM_cons]
      refine (h x List.mem_cons_self).bind fun a _ => ?_
      refine (ih fun y hy => h y (List.mem_cons_of_mem _ hy)).bind fun as _ => ?_
      exact .ok _

/-! ### Encoding -/

section Encode

variable {p : Program F} {H : Heap F}

theorem clean_get {h : Handle} (hh : H.Good (.val h)) : Clean (H.get h) := by
  obtain ⟨v, hv, -⟩ := hh
  rw [Heap.get_of_lookup hv]
  exact .ok v

/-- The handles held by a value of a typed heap are good. -/
theorem Heap.Typed.good_of_get (hH : H.Typed p) {h k : Handle} {v : Value F}
    (hv : H.get h = .ok v) (hk : Ref.val k ∈ v.refs) : H.Good (.val k) :=
  hH.good h v (Heap.get_eq_ok.mp hv) _ hk

theorem mem_values_of_get? {r : Record} {name : String} {h : Handle} (hh : r.get? name = some h) :
    h ∈ r.fields.values :=
  BTreeMap.mem_values_of_get? hh

theorem clean_enumCase (hH : H.Typed p) {h : Handle} {r : Record}
    (hr : H.get h = .ok (.record r)) : Clean (enumCase H r) := by
  rw [enumCase]
  rcases hn : r.get? "name" with - | name
  · exact .error _
  · have hgood : H.Good (.val name) :=
      hH.good_of_get hr (val_mem_vals.mpr (mem_values_of_get? hn))
    obtain ⟨v, hv, -⟩ := hgood
    simp only [Heap.get_of_lookup hv]
    cases v <;> first | exact .ok _ | exact .error _

theorem clean_enumPayload (r : Record) : Clean (enumPayload r) := by
  rw [enumPayload]
  split
  · exact .ok _
  · exact .error _

theorem good_of_enumPayload (hH : H.Typed p) {h k : Handle} {r : Record}
    (hr : H.get h = .ok (.record r)) (hk : enumPayload r = .ok k) : H.Good (.val k) := by
  rw [enumPayload] at hk
  split at hk
  · next h' hv =>
      cases hk
      exact hH.good_of_get hr (val_mem_vals.mpr (mem_values_of_get? hv))
  · cases hk

variable [F64 F]

theorem clean_encodeNumber (n : F) : Clean (encodeNumber n) := by
  rw [encodeNumber]
  split
  · exact .error _
  · split <;> exact .ok _

theorem clean_encodeLeaf (hH : H.Typed p) {h : Handle} {v : Value F} (hv : H.get h = .ok v)
    (kind : String) : Clean (encodeLeaf H kind v) := by
  cases v with
  | number n =>
      simp only [encodeLeaf]
      split
      · exact clean_encodeNumber n
      · exact .error _
  | record r =>
      simp only [encodeLeaf]
      split
      · have hcase := clean_enumCase hH hv
        split
        · next e he =>
            obtain ⟨message, rfl⟩ := hcase e he
            exact .error message
        · split
          · exact .ok _
          · exact .error _
      · exact .error _
  | string s =>
      simp only [encodeLeaf]
      split
      · exact .ok _
      · exact .error _
  | bool b =>
      simp only [encodeLeaf]
      split
      · exact .ok _
      · exact .error _
  | _ => exact .error _

mutual

theorem clean_encode (hH : H.Typed p) :
    ∀ (shape : JsonShape) {h : Handle}, H.Good (.val h) → Clean (encode H h shape)
  | .leaf kind, h, hh => by
      rw [encode]
      exact (clean_get hh).bind fun v hv => clean_encodeLeaf hH hv kind
  | .array elem, h, hh => by
      rw [encode]
      refine (clean_get hh).bind fun v hv => ?_
      cases v with
      | list items =>
          refine Clean.bind (Clean.mapM fun item hitem => ?_) fun _ _ => .ok _
          exact clean_encode hH elem (hH.good_of_get hv (val_mem_vals.mpr hitem))
      | _ => exact .error _
  | .tuple elements, h, hh => by
      rw [encode]
      refine (clean_get hh).bind fun v hv => ?_
      cases v with
      | list items =>
          dsimp only
          split
          · refine Clean.bind (clean_encodeTuple hH elements ?_) fun _ _ => .ok _
            exact fun item hitem => hH.good_of_get hv (val_mem_vals.mpr hitem)
          · exact .error _
      | _ => exact .error _
  | .record fields, h, hh => by
      rw [encode]
      refine (clean_get hh).bind fun v hv => ?_
      cases v with
      | record r => exact (clean_encodeFields hH hv fields []).bind fun _ _ => .ok _
      | _ => exact .error _
  | .struct name identity fields _, h, hh => by
      rw [encode]
      refine (clean_get hh).bind fun v hv => ?_
      cases v with
      | record r =>
          dsimp only
          split
          · exact (clean_encodeFields hH hv fields []).bind fun _ _ => .ok _
          · exact .error _
      | _ => exact .error _
  | .option inner, h, hh => by
      rw [encode]
      refine (clean_get hh).bind fun v hv => ?_
      cases v with
      | record r =>
          dsimp only
          split
          · refine (clean_enumCase hH hv).bind fun case _ => ?_
            split
            · exact .ok _
            · split
              · refine (clean_enumPayload r).bind fun k hk => ?_
                exact clean_encode hH inner (good_of_enumPayload hH hv hk)
              · exact .error _
          · exact .error _
      | _ => exact .error _
  | .enum name cases, h, hh => by
      rw [encode]
      refine (clean_get hh).bind fun v hv => ?_
      cases v with
      | record r =>
          dsimp only
          split
          · refine (clean_enumCase hH hv).bind fun case _ => ?_
            exact (clean_encodeCase hH hv case cases).bind fun _ _ => .ok _
          · exact .error _
      | _ => exact .error _
  | .newtype name repr, h, hh => by
      rw [encode]
      refine Clean.bind ?_ fun _ _ => ?_
      · exact (clean_get hh).bind fun _ _ => .ok _
      · refine Clean.bind ?_ fun found _ => ?_
        · exact Clean.bind ((clean_get hh).bind fun _ _ => .ok _) fun _ _ => .ok _
        · split
          · exact clean_encode hH repr hh
          · exact .error _
  | .union members, h, hh => by
      rw [encode]
      refine Clean.bind ?_ fun _ _ => ?_
      · exact (clean_get hh).bind fun _ _ => .ok _
      · split
        · exact .ok _
        · exact .error _

theorem clean_encodeTuple (hH : H.Typed p) :
    ∀ (elements : List JsonShape) {items : List Handle},
      (∀ h ∈ items, H.Good (.val h)) → Clean (encodeTuple H items elements)
  | [], items, _ => by
      cases items <;> exact .ok _
  | elem :: elements, items, hitems => by
      cases items with
      | nil => exact .ok _
      | cons h items =>
          rw [encodeTuple]
          refine (clean_encode hH elem (hitems h List.mem_cons_self)).bind fun _ _ => ?_
          refine Clean.bind (clean_encodeTuple hH elements fun k hk => ?_) fun _ _ => .ok _
          exact hitems k (List.mem_cons_of_mem _ hk)

theorem clean_encodeFields (hH : H.Typed p) {h : Handle} {r : Record}
    (hr : H.get h = .ok (.record r)) :
    ∀ (fields : List (String × JsonShape)) (object : BTreeMap String (Json F)),
      Clean (encodeFields H r object fields)
  | [], object => .ok _
  | (name, shape) :: fields, object => by
      rw [encodeFields]
      split
      · exact .error _
      · next k hk =>
          have hgood := hH.good_of_get hr (val_mem_vals.mpr (mem_values_of_get? hk))
          refine (clean_encode hH shape hgood).bind fun json _ => ?_
          exact clean_encodeFields hH hr fields _

theorem clean_encodeCase (hH : H.Typed p) {h : Handle} {r : Record}
    (hr : H.get h = .ok (.record r)) (case : String) :
    ∀ cases : List (String × Option JsonShape), Clean (encodeCase H r case cases)
  | [] => .error _
  | (label, none) :: cases => by
      rw [encodeCase]
      split
      · exact .ok _
      · exact clean_encodeCase hH hr case cases
  | (label, some shape) :: cases => by
      rw [encodeCase]
      split
      · refine (clean_enumPayload r).bind fun k hk => ?_
        refine (clean_encode hH shape (good_of_enumPayload hH hr hk)).bind fun _ _ => ?_
        exact .ok _
      · exact clean_encodeCase hH hr case cases

end

end Encode

theorem clean_stringify [Platform F] {p : Program F} {H : Heap F} (hH : H.Typed p) {h : Handle} (hh : H.Good (.val h))
    (shape : JsonShape) : Clean (stringify H h shape) := by
  rw [stringify]
  refine (clean_encode hH shape hh).bind fun json _ => ?_
  split
  · exact .ok _
  · exact .error _

/-! ### Decoding -/

section Decode

variable {p : Program F} {sites : PanicSite → Prop}

/-- The references to a decoded value. -/
def decoded (h : Handle) : Set Ref := {.val h, .data h}

theorem decoded_subset_kinds {v : Value F} {h : Handle} (hc : v.isCell = false)
    (hp : v.isPromise = false) : decoded h ⊆ v.kinds h := by
  rintro r (rfl | rfl)
  · exact ⟨rfl, hc⟩
  · exact ⟨rfl, hc, hp⟩

variable {Γ : Set Ref}

theorem typed_decodeMismatch {φ : α → Prop} {R : α → Set Ref} (path : String) :
    Typed (heapTheory p sites) Γ (decodeMismatch path) φ R :=
  Typed.throw trivial

/-- A new value that is neither a cell nor a promise. -/
theorem typed_allocData {v : Value F} (hv : v.WellFormed p) (hc : v.isCell = false)
    (hp : v.isPromise = false) (hr : v.refs ⊆ Γ) :
    Typed (heapTheory p sites) Γ (HeapM.alloc v) (fun _ => True) decoded := by
  refine (HeapM.typed_alloc hv (Value.isSettled_of_isPromise hp) hr).conseq
    (Set.Subset.refl _) (fun _ => id) ?_
  exact fun h _ => (decoded_subset_kinds hc hp).trans Set.subset_union_left

/-- Attaching methods keeps a record ordered and its fields good. -/
theorem typed_attachMethods {factories : Handle} (hf : Ref.val factories ∈ Γ)
    (identity : String) {r : Record} (hr : r.Ordered) (hvals : vals r.fields.values ⊆ Γ) :
    Typed (heapTheory p sites) Γ (attachMethods factories identity r) Record.Ordered
      fun r => vals r.fields.values := by
  refine Typed.bind (HeapM.typed_get hf) fun v _ => ?_
  cases v with
  | record table =>
      dsimp only
      split
      · exact Typed.pure hr (hvals.trans Set.subset_union_left)
      · next methods hm =>
          have hmem : Ref.val methods ∈ Γ ∪ (Value.record table : Value F).refs :=
            Or.inr (val_mem_vals.mpr (mem_values_of_get? hm))
          refine Typed.bind (HeapM.typed_get hmem) fun w _ => ?_
          cases w with
          | record ms =>
              refine Typed.pure ?_ (vals_subset fun k hk => ?_)
              · intro name hn
                exact Record.get?_extend _ _ (Or.inr (hr name hn))
              · rcases Record.mem_values_extend _ _ hk with hk | hk
                · exact Or.inr (val_mem_vals.mpr hk)
                · exact Or.inl (Or.inl (hvals (val_mem_vals.mpr hk)))
          | _ => exact Typed.throw trivial
  | _ => exact Typed.throw trivial

variable [F64 F]

theorem typed_decodeLeaf (path kind : String) (json : Json F) :
    Typed (heapTheory p sites) Γ (decodeLeaf path kind json) (fun _ => True) decoded := by
  cases json with
  | null =>
      rw [decodeLeaf]
      split
      · exact HeapM.typed_allocEnum (by simp)
      · exact typed_decodeMismatch path
  | bool b =>
      rw [decodeLeaf]
      split
      · exact typed_allocData trivial rfl rfl (Set.empty_subset _)
      · exact typed_decodeMismatch path
  | number n =>
      rw [decodeLeaf]
      split
      · exact typed_allocData trivial rfl rfl (Set.empty_subset _)
      · exact typed_decodeMismatch path
  | string s =>
      rw [decodeLeaf]
      split
      · exact typed_allocData trivial rfl rfl (Set.empty_subset _)
      · exact typed_decodeMismatch path
  | array _ => exact typed_decodeMismatch path
  | object _ => exact typed_decodeMismatch path

mutual

theorem typed_decode {Γ : Set Ref} {factories : Handle} (hf : Ref.val factories ∈ Γ) :
    ∀ (shape : JsonShape) (path : String) (json : Json F),
      Typed (heapTheory p sites) Γ (decode factories path json shape) (fun _ => True) decoded
  | .leaf kind, path, json => by
      rw [decode]
      exact typed_decodeLeaf path kind json
  | .array elem, path, json => by
      cases json with
      | array items =>
          rw [decode]
          refine Typed.bind (Typed.mapM fun e _ => typed_decode hf elem _ e.1) fun hs _ => ?_
          refine typed_allocData trivial rfl rfl (vals_subset fun h hh => ?_)
          exact Or.inr ⟨h, hh, Or.inl rfl⟩
      | _ => exact typed_decodeMismatch path
  | .tuple elements, path, json => by
      cases json with
      | array items =>
          rw [decode]
          split
          · refine Typed.bind (typed_decodeTuple hf elements path 0 items) fun hs _ => ?_
            exact typed_allocData trivial rfl rfl Set.subset_union_right
          · exact typed_decodeMismatch path
      | _ => exact typed_decodeMismatch path
  | .record fields, path, json => by
      cases json with
      | object members =>
          rw [decode]
          have hempty : Record.Ordered {} := Record.ordered_empty none none none []
          refine Typed.bind (typed_decodeFields hf fields path _ {} hempty ?_) fun r hr => ?_
          · exact vals_subset fun k hk => absurd hk List.not_mem_nil
          · exact typed_allocData (v := .record r) hr rfl rfl Set.subset_union_right
      | _ => exact typed_decodeMismatch path
  | .struct name identity fields embeds, path, json => by
      rw [decode]
      split
      · next object _ =>
          have hempty := Record.ordered_empty (some name) (some identity) none embeds
          refine Typed.bind (typed_decodeFields hf fields _ object _ hempty ?_) fun r hr => ?_
          · exact vals_subset fun k hk => absurd hk List.not_mem_nil
          refine Typed.bind (typed_attachMethods (Or.inl hf) identity hr
            Set.subset_union_right) fun r hr => ?_
          exact typed_allocData (v := .record r) hr rfl rfl Set.subset_union_right
      · exact typed_decodeMismatch path
  | .option inner, path, json => by
      have hsome : Typed (heapTheory p sites) Γ
          (decode factories path json inner >>= fun value =>
            HeapM.allocEnum "Option" "Some" 0 (some value)) (fun _ => True) decoded := by
        refine Typed.bind (typed_decode hf inner path json) fun value _ => ?_
        refine HeapM.typed_allocEnum fun h hh => ?_
        cases hh
        exact Or.inr (Or.inl rfl)
      cases json with
      | null =>
          rw [decode]
          exact HeapM.typed_allocEnum (by simp)
      | _ => exact hsome
  | .enum name cases, path, json => by
      cases json with
      | object members =>
          rw [decode]
          split
          · exact typed_decodeCase hf cases path _ name _ 0
          · exact Typed.throw trivial
      | _ => exact typed_decodeMismatch path
  | .newtype name repr, path, json => by
      rw [decode]
      refine Typed.bind (typed_decode hf repr path json) fun value _ => ?_
      have hdata : Ref.data value ∈ Γ ∪ decoded value := Or.inr (Or.inr rfl)
      refine Typed.bind (HeapM.typed_getData hdata) fun v hv => ?_
      obtain ⟨hwf, hc, hp⟩ := hv
      refine (HeapM.typed_allocNewtype hwf (Value.isSettled_of_isPromise hp)
        Set.subset_union_right name).conseq (Set.Subset.refl _) (fun _ => id) ?_
      exact fun h _ => (decoded_subset_kinds hc hp).trans Set.subset_union_left
  | .union members, path, json => by
      rw [decode]
      exact typed_decodeMembers hf members path json none (by simp)

theorem typed_decodeTuple {Γ : Set Ref} {factories : Handle} (hf : Ref.val factories ∈ Γ) :
    ∀ (elements : List JsonShape) (path : String) (i : Nat) (items : List (Json F)),
      Typed (heapTheory p sites) Γ (decodeTuple factories path i items elements)
        (fun _ => True) vals
  | [], path, i, items => by
      have : decodeTuple factories path i items [] = pure [] := by
        cases items <;> rfl
      rw [this]
      exact Typed.pure trivial (vals_subset fun k hk => absurd hk List.not_mem_nil)
  | elem :: elements, path, i, items => by
      cases items with
      | nil =>
          exact Typed.pure trivial (vals_subset fun k hk => absurd hk List.not_mem_nil)
      | cons json items =>
          rw [decodeTuple]
          refine Typed.bind (typed_decode hf elem _ json) fun value _ => ?_
          refine Typed.bind (typed_decodeTuple (Or.inl hf) elements path (i + 1) items)
            fun values _ => ?_
          refine Typed.pure trivial (vals_subset fun k hk => ?_)
          rcases List.mem_cons.mp hk with rfl | hk
          · exact Or.inl (Or.inr (Or.inl rfl))
          · exact Or.inr (val_mem_vals.mpr hk)

theorem typed_decodeFields {Γ : Set Ref} {factories : Handle} (hf : Ref.val factories ∈ Γ) :
    ∀ (fields : List (String × JsonShape)) (path : String) (object : Json F) (r : Record),
      r.Ordered → vals r.fields.values ⊆ Γ →
      Typed (heapTheory p sites) Γ (decodeFields factories path object r fields)
        Record.Ordered fun r => vals r.fields.values
  | [], path, object, r, hr, hvals => Typed.pure hr hvals
  | (name, shape) :: fields, path, object, r, hr, hvals => by
      rw [decodeFields]
      split
      · exact Typed.throw trivial
      · next json _ =>
          refine Typed.bind (typed_decode hf shape _ json) fun value _ => ?_
          refine typed_decodeFields (Or.inl hf) fields path object _ (hr.push name value) ?_
          refine vals_subset fun k hk => ?_
          rcases Record.mem_values_insert hk with rfl | hk
          · exact Or.inr (Or.inl rfl)
          · exact Or.inl (hvals (val_mem_vals.mpr hk))

theorem typed_decodeCase {Γ : Set Ref} {factories : Handle} (hf : Ref.val factories ∈ Γ) :
    ∀ (cases : List (String × Option JsonShape)) (path : String) (object : Json F)
      (name caseName : String) (index : Nat),
      Typed (heapTheory p sites) Γ
        (decodeCase factories path object name caseName index cases) (fun _ => True) decoded
  | [], path, object, name, caseName, index => Typed.throw trivial
  | (label, none) :: cases, path, object, name, caseName, index => by
      rw [decodeCase]
      split
      · split
        · exact Typed.throw trivial
        · exact HeapM.typed_allocEnum (by simp)
      · exact typed_decodeCase hf cases path object name caseName (index + 1)
  | (label, some shape) :: cases, path, object, name, caseName, index => by
      rw [decodeCase]
      split
      · split
        · exact Typed.throw trivial
        · next json _ =>
            refine Typed.bind (typed_decode hf shape _ json) fun value _ => ?_
            refine HeapM.typed_allocEnum fun h hh => ?_
            cases hh
            exact Or.inr (Or.inl rfl)
      · exact typed_decodeCase hf cases path object name caseName (index + 1)

theorem typed_decodeMembers {Γ : Set Ref} {factories : Handle} (hf : Ref.val factories ∈ Γ) :
    ∀ (members : List JsonShape) (path : String) (json : Json F) (found : Option Handle),
      (∀ h, found = some h → decoded h ⊆ Γ) →
      Typed (heapTheory p sites) Γ (decodeMembers factories path json found members)
        (fun _ => True) decoded
  | [], path, json, found, hfound => by
      cases found with
      | some h => exact Typed.pure trivial (hfound h rfl)
      | none => exact Typed.throw trivial
  | member :: members, path, json, found, hfound => by
      rw [decodeMembers]
      refine Typed.bind (Typed.attempt (typed_decode hf member path json)) fun r hr => ?_
      cases r with
      | error e =>
          refine typed_decodeMembers (Or.inl hf) members path json found fun h hh => ?_
          exact (hfound h hh).trans Set.subset_union_left
      | ok value =>
          dsimp only
          split
          · refine typed_decodeMembers (Or.inl hf) members path json _ fun h hh => ?_
            cases hh
            exact Set.subset_union_right
          · exact Typed.throw trivial

end

end Decode

end Deka.Vm
