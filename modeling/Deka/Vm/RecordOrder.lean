/-
Deka/Vm/RecordOrder.lean

The order of a record and its fields.

A record keeps its fields in a map and, beside it, the order they were written in.  Lookups use
the map; a spread and the printer use the order.  Every producer of records keeps both in step but
one: `decode` adds the methods of a struct to the map alone.

Values are watched slot by slot, so that nothing has to be known of handles: a program keeps the
records of a heap listed when each value it stores is listed, or was stored before.
-/
import Deka.Lib.Bare
import Deka.Vm.CollectExact
import Deka.Vm.HostRoundTrip
import Deka.Vm.Machine

namespace Deka.Vm

open Deka.Lib

variable {F : Type} {hydrated : String → Prop}

/-! ### Records -/

namespace Record

/-- The order lists fields only, each of them once, and it lists all of them unless the record is
a struct of a type with `hydrated`. -/
structure Listed (hydrated : String → Prop) (r : Record) : Prop where
  once : r.order.Nodup
  known : ∀ name ∈ r.order, (r.get? name).isSome = true
  whole : (∀ identity, r.structIdentity = some identity → ¬ hydrated identity) →
    ∀ name, (r.get? name).isSome = true → name ∈ r.order

variable {r : Record}

theorem listed_empty (structName identity enumName : Option String) (embeds : List String) :
    Listed hydrated { structName, structIdentity := identity, enumName, embeds } where
  once := List.nodup_nil
  known _ h := absurd h List.not_mem_nil
  whole _ _ h := by cases h

theorem isSome_get?_insert (m : BTreeMap String Handle) (name other : String) (h : Handle) :
    (BTreeMap.get? (BTreeMap.insert m name h) other).isSome = true ↔
      name = other ∨ (BTreeMap.get? m other).isSome = true := by
  rw [BTreeMap.get?_insert]
  by_cases hname : name = other <;> simp [hname]

/-- A new field goes to the end of the order. -/
theorem Listed.push (hr : r.Listed hydrated) {name : String} (hname : name ∉ r.order)
    (h : Handle) : Listed hydrated { r.insert name h with order := r.order ++ [name] } where
  once := by
    show (r.order ++ [name]).Nodup
    rw [List.nodup_append]
    refine ⟨hr.once, List.nodup_singleton name, fun a ha b hb => ?_⟩
    rw [List.mem_singleton.mp hb]
    exact ne_of_mem_of_not_mem ha hname
  known other hother := by
    show (BTreeMap.get? (BTreeMap.insert r.fields name h) other).isSome = true
    rw [isSome_get?_insert]
    rcases List.mem_append.mp hother with hold | hnew
    · exact .inr (hr.known other hold)
    · exact .inl (List.mem_singleton.mp hnew).symm
  whole hplain other hother := by
    show other ∈ r.order ++ [name]
    rcases (isSome_get?_insert r.fields name other h).mp hother with heq | hold
    · exact List.mem_append_right _ (List.mem_singleton.mpr heq.symm)
    · exact List.mem_append_left _ (hr.whole hplain other hold)

/-- To overwrite a field that is listed. -/
theorem Listed.insert (hr : r.Listed hydrated) {name : String} (hname : name ∈ r.order)
    (h : Handle) : (r.insert name h).Listed hydrated where
  once := hr.once
  known other hother :=
    (isSome_get?_insert r.fields name other h).mpr (.inr (hr.known other hother))
  whole hplain other hother := by
    rcases (isSome_get?_insert r.fields name other h).mp hother with heq | hold
    · rw [← heq]
      exact hname
    · exact hr.whole hplain other hold

/-- An unlisted field may be a method; to overwrite it does not list it. -/
theorem Listed.set (hr : r.Listed hydrated) (name : String) (h : Handle) :
    (r.set name h).Listed hydrated := by
  rw [Record.set]
  by_cases hmem : name ∈ r.order
  · rw [if_pos (show r.containsKey name = true from hr.known name hmem)]
    exact hr.insert hmem h
  · by_cases hcontains : r.containsKey name = true
    · rw [if_pos hcontains]
      refine ⟨hr.once, fun other hother => ?_, fun hplain other hother => ?_⟩
      · exact (isSome_get?_insert r.fields name other h).mpr (.inr (hr.known other hother))
      · rcases (isSome_get?_insert r.fields name other h).mp hother with heq | hold
        · exact absurd (hr.whole hplain name hcontains) hmem
        · exact hr.whole hplain other hold
    · rw [if_neg hcontains]
      exact hr.push hmem h

theorem listed_ofList (es : List (String × Handle)) : (ofList es).Listed hydrated := by
  have hfold : ∀ (es : List (String × Handle)) (r : Record), r.Listed hydrated →
      (es.foldl (fun r e => r.set e.1 e.2) r).Listed hydrated := by
    intro es
    induction es with
    | nil => exact fun r hr => hr
    | cons e es ih => exact fun r hr => ih _ (hr.set e.1 e.2)
  exact hfold es {} (listed_empty none none none [])

/-- The record every enum value is. -/
theorem listed_enum (name : String) (label index : Handle) (value : Option Handle) :
    Listed hydrated
      { (match value with
          | some h =>
            { (ofList [("name", label), ("index", index)]).insert "value" h with
              order := (ofList [("name", label), ("index", index)]).order ++ ["value"] }
          | none => ofList [("name", label), ("index", index)] : Record) with
        enumName := some name } := by
  have hlisted : (ofList [("name", label), ("index", index)]).Listed hydrated := listed_ofList _
  cases value with
  | none => exact ⟨hlisted.once, hlisted.known, hlisted.whole⟩
  | some h =>
    have hnew : "value" ∉ (ofList [("name", label), ("index", index)]).order := by
      show "value" ∉ ["name", "index"]
      decide
    have hpush := hlisted.push hnew h
    exact ⟨hpush.once, hpush.known, hpush.whole⟩

/-- A spread sets the fields of one record in another. -/
theorem listed_spread {extra out : Record} : ∀ {order : List String} {fields : Record},
    fields.Listed hydrated → spread extra fields order = .ok out → out.Listed hydrated
  | [], fields, hfields, hout => by
    cases hout
    exact hfields
  | name :: order, fields, hfields, hout => by
    rw [spread] at hout
    cases hget : extra.get? name with
    | none =>
      rw [hget] at hout
      cases hout
    | some h =>
      rw [hget] at hout
      exact listed_spread (hfields.set name h) hout

theorem get?_set (r : Record) (name other : String) (h : Handle) :
    (r.set name h).get? other = if name = other then some h else r.get? other := by
  show BTreeMap.get? (r.set name h).fields other = _
  rw [fields_set, BTreeMap.get?_insert]
  rfl

/-- A spread copies the fields it lists, and leaves the others. -/
theorem get?_spread {extra : Record} : ∀ (order : List String) (fields : Record),
    (∀ name ∈ order, (extra.get? name).isSome = true) →
      ∃ out, spread extra fields order = .ok out ∧ ∀ name,
        out.get? name = if name ∈ order then extra.get? name else fields.get? name
  | [], fields, _ => ⟨fields, rfl, fun name => by rw [if_neg List.not_mem_nil]⟩
  | name :: order, fields, hextra => by
    obtain ⟨h, hget⟩ := Option.isSome_iff_exists.mp (hextra name List.mem_cons_self)
    obtain ⟨out, hout, hlookup⟩ := get?_spread order (fields.set name h)
      fun other hother => hextra other (List.mem_cons_of_mem _ hother)
    refine ⟨out, by rw [spread, hget]; exact hout, fun other => ?_⟩
    rw [hlookup, get?_set]
    by_cases hlater : other ∈ order
    · rw [if_pos hlater, if_pos (List.mem_cons_of_mem _ hlater)]
    · rw [if_neg hlater]
      by_cases hname : name = other
      · rw [if_pos hname, if_pos (hname ▸ List.mem_cons_self), ← hname, hget]
      · rw [if_neg hname, if_neg fun hmem => ?_]
        exact (List.mem_cons.mp hmem).elim (fun heq => hname heq.symm) hlater

/-- A record that lists all its fields is copied whole. -/
theorem Listed.spread_whole (hr : r.Listed hydrated)
    (hplain : ∀ identity, r.structIdentity = some identity → ¬ hydrated identity)
    (fields : Record) : ∃ out, spread r fields r.order = .ok out ∧
      ∀ name, out.get? name = (r.get? name).or (fields.get? name) := by
  obtain ⟨out, hout, hlookup⟩ := get?_spread r.order fields hr.known
  refine ⟨out, hout, fun name => ?_⟩
  rw [hlookup]
  by_cases hname : name ∈ r.order
  · obtain ⟨h, hget⟩ := Option.isSome_iff_exists.mp (hr.known name hname)
    rw [if_pos hname, hget, Option.some_or]
  · have hnone : r.get? name = none := by
      rw [← Option.not_isSome_iff_eq_none]
      exact fun hsome => hname (hr.whole hplain name hsome)
    rw [if_neg hname, hnone, Option.none_or]

theorem isSome_get?_zip {names : List String} {items : List Handle}
    (hlength : items.length = names.length) (name : String) :
    (BTreeMap.get? (BTreeMap.extend [] (names.zip items)) name).isSome = true ↔ name ∈ names := by
  rw [BTreeMap.get?_extend, BTreeMap.get?_nil, Option.or_none, BTreeMap.get?_isSome_iff,
    BTreeMap.keys, List.map_reverse, List.mem_reverse, List.map_fst_zip (by omega)]

/-- A struct literal lists its fields in the order of the instruction. -/
theorem listed_zip {names : List String} {items : List Handle} (hnodup : names.Nodup)
    (hlength : items.length = names.length) (name identity : Option String)
    (embeds : List String) :
    Listed hydrated
      { order := names, fields := BTreeMap.extend [] (names.zip items), structName := name,
        structIdentity := identity, embeds } :=
  ⟨hnodup, fun other => (isSome_get?_zip hlength other).mpr,
    fun _ other => (isSome_get?_zip hlength other).mp⟩

/-- A struct of the host lists its fields in the order of their names. -/
theorem listed_keys (es : List (String × Handle)) (name identity : Option String) :
    Listed hydrated
      { fields := BTreeMap.extend [] es, order := (BTreeMap.extend [] es).keys,
        structName := name, structIdentity := identity } where
  once := (BTreeMap.Ascending.extend .nil es).nodup_keys
  known _ := BTreeMap.get?_isSome_iff.mpr
  whole _ _ := BTreeMap.get?_isSome_iff.mp

end Record

/-! ### Heaps -/

/-- What is watched of a value. -/
def Value.Listed (hydrated : String → Prop) : Value F → Prop
  | .record r => r.Listed hydrated
  | _ => True

namespace Heap

/-- Every record of the heap is listed. -/
def Listed (hydrated : String → Prop) (H : Heap F) : Prop :=
  ∀ s ∈ H.slots, ∀ v, s.value = some v → v.Listed hydrated

variable {H : Heap F}

theorem listed_nil : ({} : Heap F).Listed hydrated := fun _ hs => absurd hs List.not_mem_nil

theorem Listed.get (hH : H.Listed hydrated) {h : Handle} {v : Value F} (hv : H.get h = .ok v) :
    v.Listed hydrated := by
  obtain ⟨s, hs, -, hv⟩ := lookup_eq_some.mp (get_eq_ok.mp hv)
  exact hH s (List.mem_of_getElem? hs) v hv

theorem Listed.alloc (hH : H.Listed hydrated) {v : Value F} (hv : v.Listed hydrated) :
    (H.alloc v).2.Listed hydrated := by
  intro s hs w hw
  rw [Heap.alloc] at hs
  split at hs
  · split at hs
    · rename_i t ht
      rcases List.mem_or_eq_of_mem_set hs with hs | rfl
      · exact hH s hs w hw
      · cases hw
        exact hv
    · exact hH s hs w hw
  · rcases List.mem_append.mp hs with hs | hs
    · exact hH s hs w hw
    · rw [List.mem_singleton.mp hs] at hw
      cases hw
      exact hv

theorem Listed.modifySlot (hH : H.Listed hydrated) (h : Handle) {f : Slot F → Slot F}
    (hf : ∀ s v, (f s).value = some v → s.value = some v ∨ v.Listed hydrated) :
    (H.modifySlot h f).Listed hydrated := by
  intro s hs v hv
  rw [modifySlot_slots] at hs
  obtain ⟨i, hi⟩ := List.mem_iff_getElem?.mp hs
  rw [List.getElem?_modify, Option.map_eq_map, Option.map_eq_some_iff] at hi
  obtain ⟨t, ht, rfl⟩ := hi
  have hmem := List.mem_of_getElem? ht
  split at hv
  · exact (hf t v hv).elim (hH t hmem v) id
  · exact hH t hmem v hv

theorem Listed.of_slots (hH : H.Listed hydrated) {K : Heap F} (hK : K.slots = H.slots) :
    K.Listed hydrated := by
  intro s hs
  rw [hK] at hs
  exact hH s hs

theorem slots_observeWrite (H : Heap F) (h : Handle) : (H.observeWrite h).slots = H.slots := by
  rw [observeWrite]
  split
  · split <;> rfl
  · rfl

theorem Listed.touch (hH : H.Listed hydrated) (h : Handle) : (H.touch h).Listed hydrated :=
  (hH.of_slots (slots_observeWrite H h)).modifySlot h fun _ _ => .inl

theorem Listed.write (hH : H.Listed hydrated) (h : Handle) {v : Value F}
    (hv : v.Listed hydrated) : (H.write h v).Listed hydrated :=
  hH.modifySlot h fun _ w hw => .inr (by cases hw; exact hv)

theorem Listed.replace (hH : H.Listed hydrated) {h : Handle} {v : Value F}
    (hv : v.Listed hydrated) {K : Heap F} (hK : H.replace h v = .ok K) : K.Listed hydrated := by
  obtain ⟨-, rfl⟩ := replace_eq_ok hK
  exact (hH.touch h).write h hv

theorem Listed.observe (hH : H.Listed hydrated) {h : Handle} {read : Read} {K : Heap F}
    (hK : H.observe h read = .ok K) : K.Listed hydrated := by
  rw [Heap.observe] at hK
  split at hK
  · cases hK
    exact hH
  · cases hobserved : H.observed h read with
    | error e =>
      rw [hobserved] at hK
      cases hK
    | ok seen =>
      rw [hobserved] at hK
      split at hK
      · cases hK
        exact hH.of_slots rfl
      · cases hK
        exact hH

theorem Listed.mark (fuel : Nat) (todo : List Handle) :
    ∀ {H : Heap F}, H.Listed hydrated → (H.mark fuel todo).2.Listed hydrated := by
  induction fuel generalizing todo with
  | zero => exact fun hH => hH
  | succ fuel ih =>
    intro H hH
    cases todo with
    | nil => exact hH
    | cons h todo =>
      rw [Heap.mark]
      split
      · split
        · exact ih todo hH
        · exact ih _ (hH.modifySlot h fun _ _ => .inl)
      · exact hH

/-- A sweep drops values, it does not make any. -/
theorem mem_sweep : ∀ {slots : List (Slot F)} {i : Nat} {free : List Nat} {s : Slot F}
    {v : Value F},
    s ∈ (sweep i free slots).2.1 → s.value = some v → ∃ t ∈ slots, t.value = some v
  | [], i, free, s, v, hs, hv => absurd hs List.not_mem_nil
  | t :: slots, i, free, s, v, hs, hv => by
    rw [sweep] at hs
    split at hs
    · split at hs
      · rcases List.mem_cons.mp hs with rfl | hs
        · cases hv
        · obtain ⟨u, hu, hv⟩ := mem_sweep hs hv
          exact ⟨u, List.mem_cons_of_mem _ hu, hv⟩
      · rcases List.mem_cons.mp hs with rfl | hs
        · cases hv
        · exact ⟨s, List.mem_cons_of_mem _ hs, hv⟩
    · rcases List.mem_cons.mp hs with rfl | hs
      · exact ⟨t, List.mem_cons_self, hv⟩
      · obtain ⟨u, hu, hv⟩ := mem_sweep hs hv
        exact ⟨u, List.mem_cons_of_mem _ hu, hv⟩

theorem Listed.collect (hH : H.Listed hydrated) (roots : List Handle) :
    (H.collect roots).2.Listed hydrated := by
  rw [Heap.collect]
  have hmark := Listed.mark (H.markFuel (roots ++ H.captureRoots).reverse)
    (roots ++ H.captureRoots).reverse hH
  rcases hm : H.mark _ _ with ⟨e | ⟨⟩, K⟩
  · rw [hm] at hmark
    exact hmark
  · rw [hm] at hmark
    dsimp only
    rcases hsweep : sweep 0 K.free K.slots with ⟨r, slots, free⟩
    have hswept : ∀ s ∈ slots, ∀ v, s.value = some v → v.Listed hydrated := by
      intro s hs v hv
      have hmem : s ∈ (sweep 0 K.free K.slots).2.1 := by
        rw [hsweep]
        exact hs
      obtain ⟨t, ht, hv⟩ := mem_sweep hmem hv
      exact hmark t ht v hv
    cases r with
    | error e => exact hswept
    | ok u => exact hswept

end Heap

/-! ### Heap programs -/

/-- The records stay listed; a fault may stop a program anywhere. -/
def heapListing (F : Type) (hydrated : String → Prop) : Theory Fault (Heap F) Empty where
  Inv H := H.Listed hydrated
  Ext _ _ := True
  Good _ _ := True
  Fails _ := True
  refl _ := trivial
  trans _ _ := trivial
  mono _ _ := trivial

namespace HeapM

variable {Γ : Set Empty} {α : Type}

theorem bare_alloc {v : Value F} (hv : v.Listed hydrated) :
    Bare (heapListing F hydrated) Γ (alloc v) :=
  Typed.total fun _ hH _ =>
    ⟨Heap.Listed.alloc hH hv, trivial, trivial, fun _ _ => trivial⟩

/-- A value that was stored before. -/
theorem typed_lookup (h : Handle) :
    Typed (heapListing F hydrated) Γ (get h) (fun v => v.Listed hydrated) fun _ => ∅ :=
  Typed.reads (fun _ _ hH _ hv => ⟨Heap.Listed.get hH hv, fun _ _ => trivial⟩)
    fun _ _ _ _ _ => trivial

theorem bare_get (h : Handle) : Bare (heapListing F hydrated) Γ (get h) :=
  Bare.of_typed (typed_lookup h)

theorem bare_newtypeName (h : Handle) : Bare (heapListing F hydrated) Γ (newtypeName h) :=
  Bare.reads fun _ => trivial

theorem bare_observe (h : Handle) (read : Read) :
    Bare (heapListing F hydrated) Γ (observe h read) := by
  intro H hH _
  rw [observe, Prog.exec_ofExec]
  rcases hobserve : H.observe h read with e | K
  · exact ⟨hH, trivial, trivial⟩
  · exact ⟨Heap.Listed.observe hH hobserve, trivial, trivial,
      fun _ _ => trivial⟩

theorem bare_replace (h : Handle) {v : Value F} (hv : v.Listed hydrated) :
    Bare (heapListing F hydrated) Γ (replace h v) := by
  intro H hH _
  rw [replace, Prog.exec_ofExec]
  rcases hreplace : H.replace h v with e | K
  · exact ⟨hH, trivial, trivial⟩
  · exact ⟨Heap.Listed.replace hH hv hreplace, trivial, trivial,
      fun _ _ => trivial⟩

theorem bare_mutate (h : Handle) {f : Value F → Except Fault (Value F × α)}
    (hf : ∀ v w a, v.Listed hydrated → f v = .ok (w, a) → w.Listed hydrated) :
    Bare (heapListing F hydrated) Γ (mutate h f) := by
  intro H hH _
  rw [mutate, Prog.exec_ofExec]
  rcases hget : H.get h with e | v
  · exact ⟨hH, trivial, trivial⟩
  · dsimp only
    rcases hchange : f v with e | ⟨w, a⟩
    · exact ⟨Heap.Listed.touch hH h, trivial, trivial⟩
    · refine ⟨?_, trivial, trivial, fun _ _ => trivial⟩
      exact (Heap.Listed.touch hH h).write h (hf v w a (Heap.Listed.get hH hget) hchange)

theorem bare_allocNewtype {v : Value F} (hv : v.Listed hydrated) (name : String) :
    Bare (heapListing F hydrated) Γ (allocNewtype v name) := by
  refine Typed.total fun H hH _ => ⟨?_, trivial, trivial, fun _ _ => trivial⟩
  exact (Heap.Listed.alloc hH hv).modifySlot _ fun _ _ => .inl

theorem bare_allocEnum [F64 F] (name case : String) (index : Nat) (value : Option Handle) :
    Bare (heapListing F hydrated) Γ (allocEnum name case index value) :=
  Bare.bind (bare_alloc trivial) fun label => Bare.bind (bare_alloc trivial) fun place =>
    bare_alloc (Record.listed_enum name label place value)

theorem bare_typeOf (h : Handle) : Bare (heapListing F hydrated) Γ (typeOf h) := by
  refine Bare.bind (bare_newtypeName h) fun name => ?_
  cases name with
  | some name => exact Bare.pure _
  | none => exact Bare.reads fun _ => trivial

theorem bare_fieldOwner (name : String) : ∀ (depth : Nat) (object : Handle),
    Bare (heapListing F hydrated) Γ (fieldOwner depth object name)
  | 0, object => Bare.throw trivial
  | depth + 1, object => by
    refine Bare.bind (bare_observe object _) fun _ => Bare.bind (bare_get object) fun v => ?_
    cases v with
    | record r =>
      refine Bare.ite (Bare.pure _) (Bare.ite (Bare.pure _) (Bare.findSomeM fun embed _ => ?_))
      refine Bare.bind (bare_observe object _) fun _ => ?_
      cases r.get? embed with
      | some value => exact bare_fieldOwner name depth value
      | none => exact Bare.pure _
    | _ => exact Bare.pure _

section Inspect

variable [Platform F]

theorem bare_inspectLeaf (nested : Bool) (v : Value F) :
    Bare (heapListing F hydrated) Γ (inspectLeaf nested v) := by
  cases v with
  | unit | number _ | bool _ | string _ => exact Bare.pure _
  | _ => exact Bare.throw trivial

theorem bare_inspect : ∀ (depth : Nat) (nested : Bool) (ancestors : List Handle) (value : Handle),
    Bare (heapListing F hydrated) Γ (inspect depth nested ancestors value)
  | 0, nested, ancestors, value => by
    refine Bare.bind (bare_observe value _) fun _ => Bare.bind (bare_get value) fun v => ?_
    cases v with
    | list _ | record _ => exact Bare.pure _
    | _ => exact bare_inspectLeaf nested _
  | depth + 1, nested, ancestors, value => by
    refine Bare.bind (bare_observe value _) fun _ => Bare.bind (bare_get value) fun v => ?_
    cases v with
    | list items =>
      refine Bare.ite (Bare.pure _) (Bare.bind (Bare.mapM fun h _ => ?_) fun _ => Bare.pure _)
      exact bare_inspect depth true _ h
    | record r =>
      refine Bare.ite (Bare.pure _) (Bare.ite ?_ ?_)
      · cases r.get? "name" with
        | none => exact Bare.throw trivial
        | some name =>
          refine Bare.bind (bare_get name) fun label => ?_
          cases label with
          | string text =>
            dsimp only
            cases r.get? "value" with
            | none => exact Bare.pure _
            | some payload =>
              exact Bare.bind (bare_inspect depth true _ payload) fun _ => Bare.pure _
          | _ => exact Bare.throw trivial
      · refine Bare.bind (Bare.mapM fun e _ => ?_) fun parts => ?_
        · exact Bare.bind (bare_inspect depth true _ e.2) fun _ => Bare.pure _
        · exact Bare.pure _
    | _ => exact bare_inspectLeaf nested _

theorem bare_valueText (value : Handle) :
    Bare (heapListing F hydrated) Γ (valueText value) := bare_inspect 24 false [] value

end Inspect

end HeapM

/-! ### Reading documents -/

mutual

/-- The records and structs a shape makes: the identity and the field names of each. -/
def JsonShape.builds : JsonShape → List (Option String × List String)
  | .leaf _ => []
  | .struct _ identity fields _ => (some identity, fields.map Prod.fst) :: buildsFields fields
  | .record fields => (none, fields.map Prod.fst) :: buildsFields fields
  | .tuple elements => buildsAll elements
  | .array elem => elem.builds
  | .option inner => inner.builds
  | .enum _ cases => buildsCases cases
  | .newtype _ repr => repr.builds
  | .union members => buildsAll members

def buildsAll : List JsonShape → List (Option String × List String)
  | [] => []
  | shape :: shapes => shape.builds ++ buildsAll shapes

def buildsFields : List (String × JsonShape) → List (Option String × List String)
  | [] => []
  | (_, shape) :: fields => shape.builds ++ buildsFields fields

def buildsCases : List (String × Option JsonShape) → List (Option String × List String)
  | [] => []
  | (_, none) :: cases => buildsCases cases
  | (_, some shape) :: cases => shape.builds ++ buildsCases cases

end

/-- What is asked of the records a shape makes: the names are distinct, and the structs are of
types with `hydrated`. -/
def FitsBuilds (hydrated : String → Prop) (builds : List (Option String × List String)) : Prop :=
  ∀ e ∈ builds, e.2.Nodup ∧ ∀ identity, e.1 = some identity → hydrated identity

theorem fitsBuilds_append {builds more : List (Option String × List String)} :
    FitsBuilds hydrated (builds ++ more) ↔ FitsBuilds hydrated builds ∧ FitsBuilds hydrated more :=
  List.forall_mem_append

theorem fitsBuilds_cons {e : Option String × List String}
    {builds : List (Option String × List String)} :
    FitsBuilds hydrated (e :: builds) ↔
      (e.2.Nodup ∧ ∀ identity, e.1 = some identity → hydrated identity) ∧
        FitsBuilds hydrated builds :=
  List.forall_mem_cons

section Decode

variable {Γ : Set Empty} {factories : Handle}

theorem bare_decodeMismatch {α : Type} (path : String) :
    Bare (heapListing F hydrated) Γ (decodeMismatch path : HeapM F α) := Bare.throw trivial

/-- The methods of a struct are not listed, which its type allows. -/
theorem typed_attachMethods_listed {identity : String} {r : Record} (hr : r.Listed hydrated)
    (hstruct : r.structIdentity = some identity) (hidentity : hydrated identity) :
    Typed (heapListing F hydrated) Γ (attachMethods factories identity r)
      (fun r => r.Listed hydrated) fun _ => ∅ := by
  refine Typed.bind (HeapM.typed_lookup factories) fun v _ => ?_
  cases v with
  | record table =>
    dsimp only
    cases table.get? identity with
    | none => exact Typed.pure hr (Set.empty_subset _)
    | some methods =>
      refine Typed.bind (HeapM.typed_lookup methods) fun w _ => ?_
      cases w with
      | record ms =>
        refine Typed.pure ⟨hr.once, fun name hname => ?_, fun hplain => ?_⟩ (Set.empty_subset _)
        · -- a method may shadow a field, and the name is known either way
          obtain ⟨h, hh⟩ := Option.isSome_iff_exists.mp (hr.known name hname)
          obtain ⟨k, hk⟩ := Record.get?_extend r.fields ms.fields (.inr ⟨h, hh⟩)
          exact Option.isSome_iff_exists.mpr ⟨k, hk⟩
        · exact absurd hidentity (hplain identity hstruct)
      | _ => exact Typed.throw trivial
  | _ => exact Typed.throw trivial

variable [F64 F]

theorem bare_decodeLeaf (path kind : String) (json : Json F) :
    Bare (heapListing F hydrated) Γ (decodeLeaf path kind json) := by
  cases json with
  | null => exact Bare.ite (HeapM.bare_allocEnum _ _ _ _) (bare_decodeMismatch path)
  | bool _ | number _ | string _ =>
    exact Bare.ite (HeapM.bare_alloc trivial) (bare_decodeMismatch path)
  | array _ | object _ => exact bare_decodeMismatch path

mutual

/-- To read a document keeps the records listed. -/
theorem bare_decode : ∀ (shape : JsonShape), FitsBuilds hydrated shape.builds → ∀ (path : String)
    (json : Json F), Bare (heapListing F hydrated) Γ (decode factories path json shape)
  | .leaf kind, _, path, json => by
    rw [decode]
    exact bare_decodeLeaf path kind json
  | .array elem, hfits, path, json => by
    rw [JsonShape.builds] at hfits
    cases json with
    | array items =>
      rw [decode]
      exact Bare.bind (Bare.mapM fun e _ => bare_decode elem hfits _ e.1)
        fun _ => HeapM.bare_alloc trivial
    | _ => exact bare_decodeMismatch path
  | .tuple elements, hfits, path, json => by
    rw [JsonShape.builds] at hfits
    cases json with
    | array items =>
      rw [decode]
      exact Bare.ite (Bare.bind (bare_decodeTuple elements hfits path 0 items)
        fun _ => HeapM.bare_alloc trivial) (bare_decodeMismatch path)
    | _ => exact bare_decodeMismatch path
  | .record fields, hfits, path, json => by
    rw [JsonShape.builds, fitsBuilds_cons] at hfits
    cases json with
    | object members =>
      rw [decode]
      refine Bare.after (typed_decodeFields_listed fields hfits.2 hfits.1.1 path _ {}
        (Record.listed_empty none none none []) fun _ _ => List.not_mem_nil) fun r hr => ?_
      exact HeapM.bare_alloc hr.1
    | _ => exact bare_decodeMismatch path
  | .struct name identity fields embeds, hfits, path, json => by
    rw [JsonShape.builds, fitsBuilds_cons] at hfits
    rw [decode]
    cases (json.get? name).filter fun object => object.asObject?.isSome with
    | none => exact bare_decodeMismatch path
    | some object =>
      refine Bare.after (typed_decodeFields_listed fields hfits.2 hfits.1.1 _ object
        { structName := some name, structIdentity := some identity, embeds }
        (Record.listed_empty _ _ none embeds) fun _ _ => List.not_mem_nil) fun r hr => ?_
      exact Bare.after (typed_attachMethods_listed hr.1 hr.2 (hfits.1.2 identity rfl))
        fun r hr => HeapM.bare_alloc hr
  | .option inner, hfits, path, json => by
    rw [JsonShape.builds] at hfits
    have hsome : Bare (heapListing F hydrated) Γ
        (decode factories path json inner >>= fun value =>
          HeapM.allocEnum "Option" "Some" 0 (some value)) :=
      Bare.bind (bare_decode inner hfits path json) fun _ => HeapM.bare_allocEnum _ _ _ _
    cases json with
    | null =>
      rw [decode]
      exact HeapM.bare_allocEnum _ _ _ _
    | _ => exact hsome
  | .enum name cases, hfits, path, json => by
    rw [JsonShape.builds] at hfits
    cases json with
    | object members =>
      rw [decode]
      split
      · exact bare_decodeCase cases hfits path _ name _ 0
      · exact Bare.throw trivial
    | _ => exact bare_decodeMismatch path
  | .newtype name repr, hfits, path, json => by
    rw [JsonShape.builds] at hfits
    rw [decode]
    refine Bare.bind (bare_decode repr hfits path json) fun value => ?_
    exact Bare.after (HeapM.typed_lookup value) fun v hv => HeapM.bare_allocNewtype hv name
  | .union members, hfits, path, json => by
    rw [JsonShape.builds] at hfits
    rw [decode]
    exact bare_decodeMembers members hfits path json none

theorem bare_decodeTuple : ∀ (elements : List JsonShape), FitsBuilds hydrated (buildsAll elements) →
    ∀ (path : String) (i : Nat) (items : List (Json F)),
      Bare (heapListing F hydrated) Γ (decodeTuple factories path i items elements)
  | [], _, path, i, items => by
    have hnil : decodeTuple factories path i items [] = pure [] := by
      cases items <;> rfl
    rw [hnil]
    exact Bare.pure _
  | elem :: elements, hfits, path, i, items => by
    rw [buildsAll, fitsBuilds_append] at hfits
    cases items with
    | nil => exact Bare.pure _
    | cons json items =>
      rw [decodeTuple]
      refine Bare.bind (bare_decode elem hfits.1 _ json) fun value => ?_
      refine Bare.bind (bare_decodeTuple elements hfits.2 path (i + 1) items) fun values => ?_
      exact Bare.pure _

/-- The fields go to the end of the order one by one; the rest of the record stays. -/
theorem typed_decodeFields_listed : ∀ (fields : List (String × JsonShape)),
    FitsBuilds hydrated (buildsFields fields) → (fields.map Prod.fst).Nodup →
    ∀ (path : String) (object : Json F) (r : Record), r.Listed hydrated →
      (∀ name ∈ fields.map Prod.fst, name ∉ r.order) →
      Typed (heapListing F hydrated) Γ (decodeFields factories path object r fields)
        (fun out => out.Listed hydrated ∧ out.structIdentity = r.structIdentity) fun _ => ∅
  | [], _, _, path, object, r, hr, _ => Typed.pure ⟨hr, rfl⟩ (Set.empty_subset _)
  | (name, shape) :: fields, hfits, hnodup, path, object, r, hr, hnew => by
    rw [buildsFields, fitsBuilds_append] at hfits
    rw [List.map_cons, List.nodup_cons] at hnodup
    rw [decodeFields]
    cases object.get? name with
    | none => exact Typed.throw trivial
    | some json =>
      refine Typed.bind (bare_decode shape hfits.1 _ json) fun value _ => ?_
      have hpush := hr.push (hnew name List.mem_cons_self) value
      refine (typed_decodeFields_listed fields hfits.2 hnodup.2 path object _ hpush ?_).weaken
        Set.subset_union_left
      intro other hother hmem
      rcases List.mem_append.mp hmem with hold | hlast
      · exact hnew other (List.mem_cons_of_mem _ hother) hold
      · rw [List.mem_singleton.mp hlast] at hother
        exact hnodup.1 hother

theorem bare_decodeCase : ∀ (cases : List (String × Option JsonShape)),
    FitsBuilds hydrated (buildsCases cases) →
    ∀ (path : String) (object : Json F) (name caseName : String) (index : Nat),
      Bare (heapListing F hydrated) Γ
        (decodeCase factories path object name caseName index cases)
  | [], _, path, object, name, caseName, index => Bare.throw trivial
  | (label, none) :: cases, hfits, path, object, name, caseName, index => by
    rw [buildsCases] at hfits
    rw [decodeCase]
    refine Bare.ite (Bare.ite (Bare.throw trivial) (HeapM.bare_allocEnum _ _ _ _)) ?_
    exact bare_decodeCase cases hfits path object name caseName (index + 1)
  | (label, some shape) :: cases, hfits, path, object, name, caseName, index => by
    rw [buildsCases, fitsBuilds_append] at hfits
    rw [decodeCase]
    refine Bare.ite ?_ (bare_decodeCase cases hfits.2 path object name caseName (index + 1))
    cases object.get? "value" with
    | none => exact Bare.throw trivial
    | some json =>
      exact Bare.bind (bare_decode shape hfits.1 _ json) fun _ => HeapM.bare_allocEnum _ _ _ _

theorem bare_decodeMembers : ∀ (members : List JsonShape), FitsBuilds hydrated (buildsAll members) →
    ∀ (path : String) (json : Json F) (found : Option Handle),
      Bare (heapListing F hydrated) Γ (decodeMembers factories path json found members)
  | [], _, path, json, found => by
    cases found with
    | some h => exact Bare.pure _
    | none => exact Bare.throw trivial
  | member :: members, hfits, path, json, found => by
    rw [buildsAll, fitsBuilds_append] at hfits
    rw [decodeMembers]
    refine Bare.bind (Bare.attempt (bare_decode member hfits.1 path json)) fun r => ?_
    cases r with
    | error e => exact bare_decodeMembers members hfits.2 path json found
    | ok value =>
      cases found with
      | none => exact bare_decodeMembers members hfits.2 path json _
      | some first => exact Bare.throw trivial

end

end Decode

theorem bare_parse [Platform F] {Γ : Set Empty} {shape : JsonShape}
    (hfits : FitsBuilds hydrated shape.builds) (text : String) (factories : Handle) :
    Bare (heapListing F hydrated) Γ (parse text shape factories) := by
  rw [parse]
  rcases (Platform.jsonFromStr text : Except String (Json F)) with e | json
  · exact Bare.throw trivial
  · exact bare_decode shape hfits _ json

end Deka.Vm
