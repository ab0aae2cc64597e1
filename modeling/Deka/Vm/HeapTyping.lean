/-
Deka/Vm/HeapTyping.lean

The typing discipline of heap programs.

A reference is *good* in a heap when it is live and of its kind: a `cell` holds
a cell, a `val` anything but a cell, a `data` neither a cell nor a promise, a
`record` a record, a `pending` a pending promise, and a `settled` a promise settled
in the given way.
A heap is well typed (`Heap.Typed`) when every value it holds is well formed and
holds good references only.  A heap program may change what lists, records and
cells hold, and may allocate anything but a settled promise; so kinds are stable,
and no promise settles.
-/
import Deka.Vm.Json
import Deka.Vm.Lookup

namespace Deka.Vm

open Deka.Lib

variable {F : Type}

/-! ### References -/

inductive Ref where
  | val (h : Handle)
  | cell (h : Handle)
  | data (h : Handle)
  | record (h : Handle)
  | pending (h : Handle)
  | settled (h : Handle) (outcome : Except Fault Outcome)

def Heap.Good (H : Heap F) : Ref → Prop
  | .val h => ∃ v, H.lookup h = some v ∧ v.isCell = false
  | .cell h => ∃ x, H.lookup h = some (.cell x)
  | .data h => ∃ v, H.lookup h = some v ∧ v.isCell = false ∧ v.isPromise = false
  | .record h => ∃ r, H.lookup h = some (.record r)
  | .pending h => H.lookup h = some (.promise none)
  | .settled h outcome => H.lookup h = some (.promise (some outcome))

/-- The handles of a list, as references to values. -/
def vals (hs : List Handle) : Set Ref := {r | ∃ h ∈ hs, r = .val h}

/-- The handles of a list, as references to cells. -/
def cells (hs : List Handle) : Set Ref := {r | ∃ h ∈ hs, r = .cell h}

@[simp] theorem val_mem_vals {h : Handle} {hs : List Handle} : Ref.val h ∈ vals hs ↔ h ∈ hs := by
  constructor
  · rintro ⟨k, hk, he⟩
    cases he
    exact hk
  · exact fun hh => ⟨h, hh, rfl⟩

@[simp] theorem cell_mem_cells {h : Handle} {hs : List Handle} :
    Ref.cell h ∈ cells hs ↔ h ∈ hs := by
  constructor
  · rintro ⟨k, hk, he⟩
    cases he
    exact hk
  · exact fun hh => ⟨h, hh, rfl⟩

theorem vals_subset {hs : List Handle} {Γ : Set Ref} (h : ∀ k ∈ hs, Ref.val k ∈ Γ) :
    vals hs ⊆ Γ := by
  rintro r ⟨k, hk, rfl⟩
  exact h k hk

theorem cells_subset {hs : List Handle} {Γ : Set Ref} (h : ∀ k ∈ hs, Ref.cell k ∈ Γ) :
    cells hs ⊆ Γ := by
  rintro r ⟨k, hk, rfl⟩
  exact h k hk

/-! ### Well-formed values -/

/-- The faults a stored outcome may carry, and a program may stop with: error
texts, and panics at the sites of `sites`. -/
def Fault.Allowed (sites : PanicSite → Prop) : Fault → Prop
  | .error _ => True
  | .stale => False
  | .panic site => sites site

/-- Every name in the order of a record is one of its fields. -/
def Record.Ordered (r : Record) : Prop := ∀ name ∈ r.order, ∃ h, r.get? name = some h

/-- A closure fits its function; a record is ordered; a failed promise carries an
error text. -/
def Value.WellFormed (p : Program F) : Value F → Prop
  | .closure function captures _ =>
      ∃ f, p.functions[function]? = some f ∧ captures.length = f.captures
  | .record r => r.Ordered
  | .promise (some (.error e)) => ∃ message, e = .error message
  | _ => True

/-- The references a value holds. -/
def Value.refs : Value F → Set Ref
  | .cell h => {.val h}
  | .promise (some (.ok o)) => {.val o.handle}
  | .list items => vals items
  | .closure _ captures slotChildren => cells captures ∪ vals slotChildren.toList
  | .record r => vals r.fields.values
  | .props fields => vals fields.values
  | _ => ∅

/-- The references to a handle that holds `v`. -/
def Value.kinds (v : Value F) (h : Handle) : Set Ref :=
  {r | match r with
    | .val k => k = h ∧ v.isCell = false
    | .cell k => k = h ∧ v.isCell = true
    | .data k => k = h ∧ v.isCell = false ∧ v.isPromise = false
    | .record _ => False
    | .pending k => k = h ∧ v.isPending = true
    | .settled _ _ => False}

theorem Heap.good_of_mem_kinds {H : Heap F} {h : Handle} {v : Value F}
    (hl : H.lookup h = some v) {r : Ref} (hr : r ∈ v.kinds h) : H.Good r := by
  rcases r with k | k | k | k | k | ⟨k, o⟩
  · obtain ⟨rfl, hv⟩ := hr
    exact ⟨v, hl, hv⟩
  · obtain ⟨rfl, hv⟩ := hr
    cases v with
    | cell x => exact ⟨x, hl⟩
    | _ => simp [Value.isCell] at hv
  · obtain ⟨rfl, hv⟩ := hr
    exact ⟨v, hl, hv⟩
  · exact absurd hr id
  · obtain ⟨rfl, hv⟩ := hr
    match v, hv with
    | .promise none, _ => exact hl
  · exact absurd hr id

theorem Value.isSettled_of_isPromise {v : Value F} (h : v.isPromise = false) :
    v.isSettled = false := by
  cases v with
  | promise _ => simp [Value.isPromise] at h
  | _ => rfl

structure Heap.Typed (p : Program F) (H : Heap F) : Prop where
  rep : H.Rep
  reads : H.reads = none
  wellFormed : ∀ h v, H.lookup h = some v → v.WellFormed p
  good : ∀ h v, H.lookup h = some v → ∀ r ∈ v.refs, H.Good r

/-! ### Evolution -/

/-- How a heap program may change the value of a slot. -/
inductive Value.Evolves : Value F → Value F → Prop where
  | same (v : Value F) : Evolves v v
  | list (items items' : List Handle) : Evolves (.list items) (.list items')
  | record (r r' : Record) : Evolves (.record r) (.record r')
  | cell (h h' : Handle) : Evolves (.cell h) (.cell h')

theorem Value.Evolves.trans {u v w : Value F} (h : u.Evolves v) (k : v.Evolves w) :
    u.Evolves w := by
  cases h with
  | same => exact k
  | list _ _ =>
      cases k with
      | same => exact .list _ _
      | list _ _ => exact .list _ _
  | record _ _ =>
      cases k with
      | same => exact .record _ _
      | record _ _ => exact .record _ _
  | cell _ _ =>
      cases k with
      | same => exact .cell _ _
      | cell _ _ => exact .cell _ _

theorem Value.Evolves.isCell {v w : Value F} (h : v.Evolves w) : w.isCell = v.isCell := by
  cases h <;> rfl

theorem Value.Evolves.isPromise {v w : Value F} (h : v.Evolves w) :
    w.isPromise = v.isPromise := by
  cases h <;> rfl

/-- Values evolve and freed handles stay freed. -/
structure Heap.Grows (H K : Heap F) : Prop where
  values : ∀ h v, H.lookup h = some v → ∃ w, K.lookup h = some w ∧ v.Evolves w
  freed : ∀ h, H.Freed h → K.Freed h

/-- A heap grows and no promise settles. -/
structure Heap.Evolves (H K : Heap F) : Prop extends H.Grows K where
  settled : ∀ h, K.settled h → H.settled h

theorem Heap.Grows.refl (H : Heap F) : H.Grows H :=
  ⟨fun _ v hv => ⟨v, hv, .same v⟩, fun _ => id⟩

theorem Heap.Grows.trans {H K L : Heap F} (h : H.Grows K) (k : K.Grows L) : H.Grows L where
  values := by
    intro x v hv
    obtain ⟨w, hw, hvw⟩ := h.values x v hv
    obtain ⟨u, hu, hwu⟩ := k.values x w hw
    exact ⟨u, hu, hvw.trans hwu⟩
  freed := fun x hx => k.freed x (h.freed x hx)

theorem Heap.Evolves.refl (H : Heap F) : H.Evolves H :=
  ⟨.refl H, fun _ => id⟩

theorem Heap.Evolves.trans {H K L : Heap F} (h : H.Evolves K) (k : K.Evolves L) :
    H.Evolves L :=
  ⟨h.toGrows.trans k.toGrows, fun x hx => h.settled x (k.settled x hx)⟩

theorem Heap.Grows.good {H K : Heap F} (h : H.Grows K) {r : Ref} (hr : H.Good r) :
    K.Good r := by
  rcases r with x | x | x | x | x | ⟨x, o⟩
  · obtain ⟨v, hv, hc⟩ := hr
    obtain ⟨w, hw, he⟩ := h.values x v hv
    exact ⟨w, hw, by rw [he.isCell, hc]⟩
  · obtain ⟨y, hy⟩ := hr
    obtain ⟨w, hw, he⟩ := h.values x _ hy
    cases he with
    | same => exact ⟨y, hw⟩
    | cell _ z => exact ⟨z, hw⟩
  · obtain ⟨v, hv, hc, hp⟩ := hr
    obtain ⟨w, hw, he⟩ := h.values x v hv
    exact ⟨w, hw, by rw [he.isCell, hc], by rw [he.isPromise, hp]⟩
  · obtain ⟨r, hr⟩ := hr
    obtain ⟨w, hw, he⟩ := h.values x _ hr
    cases he with
    | same => exact ⟨r, hw⟩
    | record _ r' => exact ⟨r', hw⟩
  · obtain ⟨w, hw, he⟩ := h.values x _ hr
    cases he
    exact hw
  · obtain ⟨w, hw, he⟩ := h.values x _ hr
    cases he
    exact hw

/-- The theory of heap programs. -/
def heapTheory (p : Program F) (sites : PanicSite → Prop) : Theory Fault (Heap F) Ref where
  Inv := Heap.Typed p
  Ext := Heap.Evolves
  Good := Heap.Good
  Fails := Fault.Allowed sites
  refl := Heap.Evolves.refl
  trans := Heap.Evolves.trans
  mono := fun h hr => h.toGrows.good hr

/-! ### Primitive steps -/

section Steps

variable {p : Program F} {H : Heap F}

theorem Heap.freed_alloc (hH : H.Rep) (v : Value F) {h : Handle} (hf : H.Freed h) :
    (H.alloc v).2.Freed h := by
  obtain ⟨s, hs, hlt⟩ := hf
  rcases Heap.alloc_cases H hH v with ⟨i, free, t, -, ht, -, he⟩ | ⟨-, he⟩
  · rw [he]
    by_cases hi : i = h.index
    · subst hi
      rw [ht] at hs
      cases hs
      obtain ⟨hlen, -⟩ := List.getElem?_eq_some_iff.mp ht
      exact ⟨{ s with value := some v, newtype := none, created := H.allocations + 1,
                      revision := 0 }, by simp [hlen], hlt⟩
    · exact ⟨s, by simp [hi, hs], hlt⟩
  · rw [he]
    refine ⟨s, ?_, hlt⟩
    rw [List.getElem?_append_left (List.getElem?_eq_some_iff.mp hs).1, hs]

theorem Heap.freed_modifySlot {f : Slot F → Slot F} (hgen : ∀ s, (f s).generation = s.generation)
    (k : Handle) {h : Handle} (hf : H.Freed h) : (H.modifySlot k f).Freed h := by
  obtain ⟨s, hs, hlt⟩ := hf
  rw [Heap.Freed, Heap.modifySlot_slots, List.getElem?_modify, hs]
  by_cases hi : k.index = h.index
  · exact ⟨f s, by simp [hi], by rw [hgen]; exact hlt⟩
  · exact ⟨s, by simp [hi], hlt⟩

/-- Allocation, of any well-formed value that holds good references. -/
theorem Heap.Typed.grows_alloc (hH : H.Typed p) {v : Value F} (hv : v.WellFormed p)
    (hr : ∀ r ∈ v.refs, H.Good r) : (H.alloc v).2.Typed p ∧ H.Grows (H.alloc v).2 := by
  have hext : H.Grows (H.alloc v).2 := by
    constructor
    · intro h w hw
      refine ⟨w, ?_, .same w⟩
      rw [Heap.lookup_alloc hH.rep, if_neg, hw]
      rintro rfl
      rw [Heap.lookup_alloc_fresh hH.rep] at hw
      cases hw
    · exact fun h hf => Heap.freed_alloc hH.rep v hf
  refine ⟨⟨Heap.rep_alloc hH.rep v, by rw [Heap.alloc_reads, hH.reads], ?_, ?_⟩, hext⟩
  · intro h w hw
    rw [Heap.lookup_alloc hH.rep] at hw
    split at hw
    · cases hw
      exact hv
    · exact hH.wellFormed h w hw
  · intro h w hw r hrw
    rw [Heap.lookup_alloc hH.rep] at hw
    split at hw
    · cases hw
      exact hext.good (hr r hrw)
    · exact hext.good (hH.good h w hw r hrw)

theorem Heap.Typed.alloc (hH : H.Typed p) {v : Value F} (hv : v.WellFormed p)
    (hs : v.isSettled = false) (hr : ∀ r ∈ v.refs, H.Good r) :
    (H.alloc v).2.Typed p ∧ H.Evolves (H.alloc v).2 := by
  obtain ⟨hH', hext⟩ := hH.grows_alloc hv hr
  refine ⟨hH', hext, fun h hh => ?_⟩
  rw [Heap.settled, Heap.lookup_alloc hH.rep] at hh
  split at hh
  · simp [hs] at hh
  · exact hh

theorem Heap.lookup_alloc_self (hH : H.Typed p) (v : Value F) :
    (H.alloc v).2.lookup (H.alloc v).1 = some v := by
  rw [Heap.lookup_alloc hH.rep, if_pos rfl]

/-- Tagging a slot changes no lookup. -/
theorem Heap.lookup_tag (H : Heap F) (h k : Handle) (name : String) :
    (H.modifySlot h fun s => { s with newtype := some name }).lookup k = H.lookup k :=
  Heap.lookup_modifySlot (f := fun s => { s with newtype := some name }) (fun _ => rfl)
    (fun _ => rfl) H h k

/-- A heap with the lookups of a typed heap. -/
theorem Heap.Typed.of_lookup {K : Heap F} (hH : H.Typed p) (hrep : K.Rep)
    (hreads : K.reads = none) (hl : ∀ h, K.lookup h = H.lookup h)
    (hf : ∀ h, H.Freed h → K.Freed h) : K.Typed p ∧ H.Evolves K := by
  have hgrows : H.Grows K := ⟨fun h v hv => ⟨v, by rw [hl, hv], .same v⟩, hf⟩
  refine ⟨⟨hrep, hreads, ?_, ?_⟩, hgrows, fun h hh => by rwa [settled, hl] at hh⟩
  · intro h v hv
    exact hH.wellFormed h v (by rw [← hl, hv])
  · intro h v hv r hr
    exact hgrows.good (hH.good h v (by rw [← hl, hv]) r hr)

theorem Heap.freed_touch (hH : H.Typed p) (k : Handle) {h : Handle} (hf : H.Freed h) :
    (H.touch k).Freed h := by
  rw [Heap.touch, Heap.observeWrite_of_reads_none hH.reads]
  exact Heap.freed_modifySlot (f := fun s => { s with revision := (s.revision + 1) % wrapU64 })
    (fun _ => rfl) k hf

theorem Heap.Typed.touch (hH : H.Typed p) (h : Handle) :
    (H.touch h).Typed p ∧ H.Evolves (H.touch h) :=
  hH.of_lookup (hH.rep.touch hH.reads h) (Heap.reads_touch hH.reads h)
    (Heap.lookup_touch H h) fun _ hf => Heap.freed_touch hH h hf

/-- Overwriting a live value with one it may evolve into. -/
theorem Heap.Typed.write (hH : H.Typed p) {h : Handle} {v w : Value F}
    (hl : H.lookup h = some v) (he : v.Evolves w) (hw : w.WellFormed p)
    (hr : ∀ r ∈ w.refs, H.Good r) : (H.write h w).Typed p ∧ H.Evolves (H.write h w) := by
  have hgrows : H.Grows (H.write h w) := by
    constructor
    · intro k u hu
      rw [Heap.lookup_write hl]
      split
      · next hk =>
          subst hk
          rw [hl] at hu
          cases hu
          exact ⟨w, rfl, he⟩
      · exact ⟨u, hu, .same u⟩
    · exact fun k hf => Heap.freed_modifySlot (f := fun s => { s with value := some w })
        (fun _ => rfl) h hf
  have hsettled : ∀ k, (H.write h w).settled k → H.settled k := by
    intro k hk
    rw [Heap.settled, Heap.lookup_write hl] at hk
    split at hk
    · next hkh =>
        subst hkh
        rw [Heap.settled, hl]
        cases he with
        | same => exact hk
        | list _ _ => simp [Value.isSettled] at hk
        | record _ _ => simp [Value.isSettled] at hk
        | cell _ _ => simp [Value.isSettled] at hk
    · exact hk
  refine ⟨⟨hH.rep.write hl w, by rw [Heap.write_reads, hH.reads], ?_, ?_⟩, hgrows, hsettled⟩
  · intro k u hu
    rw [Heap.lookup_write hl] at hu
    split at hu
    · cases hu
      exact hw
    · exact hH.wellFormed k u hu
  · intro k u hu r hru
    rw [Heap.lookup_write hl] at hu
    split at hu
    · cases hu
      exact hgrows.good (hr r hru)
    · exact hgrows.good (hH.good k u hu r hru)

end Steps

/-! ### Records -/

namespace Record

theorem ordered_empty (name identity enum : Option String) (embeds : List String) :
    Ordered { fields := [], structName := name, structIdentity := identity,
              enumName := enum, order := [], embeds } := by
  intro name hn
  simp at hn

theorem mem_values_insert {r : Record} {name : String} {h k : Handle}
    (hk : k ∈ (r.insert name h).fields.values) : k = h ∨ k ∈ r.fields.values :=
  BTreeMap.mem_values_insert hk

theorem get?_insert (r : Record) (name : String) (h : Handle) (other : String) :
    (r.insert name h).get? other = if name = other then some h else r.get? other :=
  BTreeMap.get?_insert r.fields name h other

/-- Inserting a field and appending its name keeps a record ordered. -/
theorem Ordered.push {r : Record} (hr : r.Ordered) (name : String) (h : Handle) :
    Ordered { r.insert name h with order := r.order ++ [name] } := by
  intro other ho
  show ∃ k, (r.insert name h).get? other = some k
  rw [get?_insert]
  split
  · exact ⟨h, rfl⟩
  · next hne =>
      rcases List.mem_append.mp ho with ho | ho
      · exact hr other ho
      · exact absurd (List.mem_singleton.mp ho).symm hne

theorem Ordered.insert {r : Record} (hr : r.Ordered) (name : String) (h : Handle) :
    (r.insert name h).Ordered := by
  intro other ho
  rw [get?_insert]
  split
  · exact ⟨h, rfl⟩
  · exact hr other ho

theorem Ordered.set {r : Record} (hr : r.Ordered) (name : String) (h : Handle) :
    (r.set name h).Ordered := by
  rw [Record.set]
  split
  · exact hr.insert name h
  · exact hr.push name h

theorem mem_values_set {r : Record} {name : String} {h k : Handle}
    (hk : k ∈ (r.set name h).fields.values) : k = h ∨ k ∈ r.fields.values := by
  rw [Record.set] at hk
  split at hk
  · exact mem_values_insert hk
  · exact mem_values_insert (r := r) hk

theorem ofList_ordered (es : List (String × Handle)) :
    (ofList es).Ordered ∧ ∀ k ∈ (ofList es).fields.values, k ∈ es.map Prod.snd := by
  have hfold : ∀ (es : List (String × Handle)) (r : Record), r.Ordered →
      (es.foldl (fun r e => r.set e.1 e.2) r).Ordered ∧
        ∀ k ∈ (es.foldl (fun r e => r.set e.1 e.2) r).fields.values,
          k ∈ es.map Prod.snd ∨ k ∈ r.fields.values := by
    intro es
    induction es with
    | nil => exact fun r hr => ⟨hr, fun k hk => Or.inr hk⟩
    | cons e es ih =>
        intro r hr
        obtain ⟨h₁, h₂⟩ := ih (r.set e.1 e.2) (hr.set e.1 e.2)
        refine ⟨h₁, fun k hk => ?_⟩
        rcases h₂ k hk with hk | hk
        · exact Or.inl (List.mem_cons_of_mem _ hk)
        · rcases mem_values_set hk with rfl | hk
          · exact Or.inl List.mem_cons_self
          · exact Or.inr hk
  obtain ⟨h₁, h₂⟩ := hfold es {} (ordered_empty none none none [])
  refine ⟨h₁, fun k hk => ?_⟩
  rcases h₂ k hk with hk | hk
  · exact hk
  · exact absurd hk (List.not_mem_nil)

theorem mem_values_extend (m : BTreeMap String Handle) (es : List (String × Handle)) {k : Handle}
    (hk : k ∈ (m.extend es).values) : k ∈ es.map Prod.snd ∨ k ∈ m.values := by
  induction es generalizing m with
  | nil => exact Or.inr hk
  | cons e es ih =>
      rcases ih (m.insert e.1 e.2) hk with hk | hk
      · exact Or.inl (List.mem_cons_of_mem _ hk)
      · rcases BTreeMap.mem_values_insert hk with rfl | hk
        · exact Or.inl List.mem_cons_self
        · exact Or.inr hk

/-- An extended map has the old keys and the new ones. -/
theorem get?_extend (m : BTreeMap String Handle) (es : List (String × Handle)) {name : String}
    (h : name ∈ es.map Prod.fst ∨ ∃ k, m.get? name = some k) :
    ∃ k, (m.extend es).get? name = some k := by
  induction es generalizing m with
  | nil =>
      rcases h with h | h
      · exact absurd h (List.not_mem_nil)
      · exact h
  | cons e es ih =>
      refine ih (m.insert e.1 e.2) ?_
      by_cases he : e.1 = name
      · exact Or.inr ⟨e.2, by rw [BTreeMap.get?_insert, if_pos he]⟩
      · rcases h with h | ⟨k, hk⟩
        · rcases List.mem_cons.mp h with h | h
          · exact absurd h.symm he
          · exact Or.inl h
        · exact Or.inr ⟨k, by rw [BTreeMap.get?_insert, if_neg he, hk]⟩

end Record

/-! ### Typing rules -/

section Rules

variable {p : Program F} {sites : PanicSite → Prop} {Γ : Set Ref}

@[simp] theorem Value.val_mem_kinds {v : Value F} {h k : Handle} :
    Ref.val k ∈ v.kinds h ↔ k = h ∧ v.isCell = false := Iff.rfl

@[simp] theorem Value.cell_mem_kinds {v : Value F} {h k : Handle} :
    Ref.cell k ∈ v.kinds h ↔ k = h ∧ v.isCell = true := Iff.rfl

@[simp] theorem Value.data_mem_kinds {v : Value F} {h k : Handle} :
    Ref.data k ∈ v.kinds h ↔ k = h ∧ v.isCell = false ∧ v.isPromise = false := Iff.rfl

namespace HeapM

theorem typed_alloc {v : Value F} (hv : v.WellFormed p) (hs : v.isSettled = false)
    (hr : v.refs ⊆ Γ) :
    Typed (heapTheory p sites) Γ (alloc v) (fun _ => True) fun h => v.kinds h := by
  refine Typed.total (f := fun H : Heap F => H.alloc v) fun H hH hΓ => ?_
  obtain ⟨hH', hext⟩ := Heap.Typed.alloc hH hv hs fun r hrv => hΓ r (hr hrv)
  exact ⟨hH', hext, trivial, fun r hrk =>
    Heap.good_of_mem_kinds (Heap.lookup_alloc_self hH v) hrk⟩

theorem typed_get {h : Handle} (hh : Ref.val h ∈ Γ) :
    Typed (heapTheory p sites) Γ (get h)
      (fun v => v.WellFormed p ∧ v.isCell = false) fun v => v.refs := by
  refine Typed.reads ?_ ?_
  · intro H v hH hΓ hv
    obtain ⟨w, hw, hc⟩ := hΓ _ hh
    rw [Heap.get_eq_ok, hw] at hv
    cases hv
    exact ⟨⟨hH.wellFormed h v hw, hc⟩, hH.good h v hw⟩
  · intro H e hH hΓ he
    obtain ⟨w, hw, -⟩ := hΓ _ hh
    rw [Heap.get_of_lookup hw] at he
    cases he

theorem typed_getData {h : Handle} (hh : Ref.data h ∈ Γ) :
    Typed (heapTheory p sites) Γ (get h)
      (fun v => v.WellFormed p ∧ v.isCell = false ∧ v.isPromise = false) fun v => v.refs := by
  refine Typed.reads ?_ ?_
  · intro H v hH hΓ hv
    obtain ⟨w, hw, hc⟩ := hΓ _ hh
    rw [Heap.get_eq_ok, hw] at hv
    cases hv
    exact ⟨⟨hH.wellFormed h v hw, hc⟩, hH.good h v hw⟩
  · intro H e hH hΓ he
    obtain ⟨w, hw, -⟩ := hΓ _ hh
    rw [Heap.get_of_lookup hw] at he
    cases he

theorem typed_getRecord {h : Handle} (hh : Ref.record h ∈ Γ) :
    Typed (heapTheory p sites) Γ (get h) (fun v => ∃ r, v = .record r ∧ r.Ordered)
      fun v => v.refs := by
  refine Typed.reads ?_ ?_
  · intro H v hH hΓ hv
    obtain ⟨r, hr⟩ := hΓ _ hh
    rw [Heap.get_eq_ok, hr] at hv
    cases hv
    exact ⟨⟨r, rfl, hH.wellFormed h _ hr⟩, hH.good h _ hr⟩
  · intro H e hH hΓ he
    obtain ⟨r, hr⟩ := hΓ _ hh
    rw [Heap.get_of_lookup hr] at he
    cases he

theorem typed_getCell {h : Handle} (hh : Ref.cell h ∈ Γ) :
    Typed (heapTheory p sites) Γ (get h) (fun v => ∃ x, v = .cell x) fun v => v.refs := by
  refine Typed.reads ?_ ?_
  · intro H v hH hΓ hv
    obtain ⟨x, hx⟩ := hΓ _ hh
    rw [Heap.get_eq_ok, hx] at hv
    cases hv
    exact ⟨⟨x, rfl⟩, hH.good h _ hx⟩
  · intro H e hH hΓ he
    obtain ⟨x, hx⟩ := hΓ _ hh
    rw [Heap.get_of_lookup hx] at he
    cases he

/-- Without a capture, observing does nothing. -/
theorem typed_observe (h : Handle) (read : Read) :
    Typed (heapTheory p sites) Γ (observe h read) (fun _ => True) fun _ => ∅ := by
  intro H hH hΓ
  have hexec : (observe h read).exec H = (.ok (), H) := by
    rw [observe, Prog.exec_ofExec, Heap.observe, hH.reads]
  rw [hexec]
  exact ⟨hH, Heap.Evolves.refl H, trivial, fun r hr => absurd hr (Set.notMem_empty r)⟩

/-- Changing a value in place; the change may keep what the old value held. -/
theorem typed_mutate {α : Type} {h : Handle} (hh : Ref.val h ∈ Γ)
    {f : Value F → Except Fault (Value F × α)} {φ : α → Prop} {R : α → Set Ref}
    (hok : ∀ v w a, v.WellFormed p → v.isCell = false → f v = .ok (w, a) →
      v.Evolves w ∧ w.WellFormed p ∧ w.refs ⊆ Γ ∪ v.refs ∧ φ a ∧ R a ⊆ Γ ∪ v.refs)
    (herr : ∀ v e, v.WellFormed p → f v = .error e → e.Allowed sites) :
    Typed (heapTheory p sites) Γ (mutate h f) φ R := by
  intro H hH hΓ
  obtain ⟨v, hv, hc⟩ := hΓ _ hh
  obtain ⟨hT, hET⟩ := hH.touch h
  have hvT : (H.touch h).lookup h = some v := by rw [Heap.lookup_touch, hv]
  rcases hf : f v with e | ⟨w, a⟩
  · have hexec : (mutate h f).exec H = (.error e, H.touch h) := by
      simp only [mutate, Prog.exec_ofExec, Heap.get_of_lookup hv, hf]
    rw [hexec]
    exact ⟨hT, hET, herr v e (hH.wellFormed h v hv) hf⟩
  · have hexec : (mutate h f).exec H = (.ok a, (H.touch h).write h w) := by
      simp only [mutate, Prog.exec_ofExec, Heap.get_of_lookup hv, hf]
    rw [hexec]
    obtain ⟨he, hw, hrefs, hφ, hR⟩ := hok v w a (hH.wellFormed h v hv) hc hf
    -- whatever was in the context or in the old value is good after the touch
    have hgood : ∀ r ∈ Γ ∪ v.refs, (H.touch h).Good r := by
      rintro r (hr | hr)
      · exact hET.toGrows.good (hΓ r hr)
      · exact hT.good h v hvT r hr
    obtain ⟨hW, hEW⟩ := hT.write hvT he hw fun r hr => hgood r (hrefs hr)
    exact ⟨hW, hET.trans hEW, hφ, fun r hr => hEW.toGrows.good (hgood r (hR hr))⟩

theorem typed_replaceCell {h x : Handle} (hh : Ref.cell h ∈ Γ) (hx : Ref.val x ∈ Γ) :
    Typed (heapTheory p sites) Γ (replace h (.cell x)) (fun _ => True) fun _ => ∅ := by
  intro H hH hΓ
  obtain ⟨y, hy⟩ := hΓ _ hh
  obtain ⟨hT, hET⟩ := hH.touch h
  have hyT : (H.touch h).lookup h = some (.cell y) := by rw [Heap.lookup_touch, hy]
  have hexec : (replace h (.cell x)).exec H = (.ok (), (H.touch h).write h (.cell x)) := by
    rw [replace, Prog.exec_ofExec, Heap.replace, Heap.get_of_lookup hy]
    rfl
  rw [hexec]
  have hgood : ∀ r ∈ (Value.cell x : Value F).refs, (H.touch h).Good r := by
    rintro r rfl
    exact hET.toGrows.good (hΓ _ hx)
  obtain ⟨hW, hEW⟩ := hT.write hyT (.cell y x) trivial hgood
  exact ⟨hW, hET.trans hEW, trivial, fun r hr => absurd hr (Set.notMem_empty r)⟩

theorem typed_allocNewtype {v : Value F} (hv : v.WellFormed p) (hs : v.isSettled = false)
    (hr : v.refs ⊆ Γ) (name : String) :
    Typed (heapTheory p sites) Γ (allocNewtype v name) (fun _ => True) fun h => v.kinds h := by
  refine Typed.total (f := fun H : Heap F => H.allocNewtype v name) fun H hH hΓ => ?_
  obtain ⟨hH', hext⟩ := Heap.Typed.alloc hH hv hs fun r hrv => hΓ r (hr hrv)
  obtain ⟨hH'', hext'⟩ := hH'.of_lookup
    (K := (H.alloc v).2.modifySlot (H.alloc v).1 fun s => { s with newtype := some name })
    (hH'.rep.modifySlot _ (fun _ => id) fun _ => id) hH'.reads (Heap.lookup_tag _ _ · name)
    fun k hf => Heap.freed_modifySlot (f := fun s => { s with newtype := some name })
      (fun _ => rfl) _ hf
  refine ⟨hH'', hext.trans hext', trivial, fun r hrk => hext'.toGrows.good ?_⟩
  exact Heap.good_of_mem_kinds (Heap.lookup_alloc_self hH v) hrk

theorem typed_newtypeName {h : Handle} (hh : Ref.val h ∈ Γ) :
    Typed (heapTheory p sites) Γ (newtypeName h) (fun _ => True) fun _ => ∅ := by
  refine Typed.reads ?_ ?_
  · exact fun H v hH hΓ hv => ⟨trivial, fun r hr => absurd hr (Set.notMem_empty r)⟩
  · intro H e hH hΓ he
    obtain ⟨v, hv, -⟩ := hΓ _ hh
    rw [Heap.newtypeName, Heap.get_of_lookup hv] at he
    cases he

/-- An enum value: its label and index are new, its payload is given. -/
theorem typed_allocEnum [F64 F] {name case : String} {index : Nat} {value : Option Handle}
    (hvalue : ∀ h, value = some h → Ref.val h ∈ Γ) :
    Typed (heapTheory p sites) Γ (allocEnum name case index value) (fun _ => True)
      fun h => {.val h, .data h} := by
  refine Typed.bind (typed_alloc trivial rfl (Set.empty_subset _)) fun label _ => ?_
  refine Typed.bind (typed_alloc trivial rfl (Set.empty_subset _)) fun index _ => ?_
  have hbase := Record.ofList_ordered [("name", label), ("index", index)]
  have hrec : ∀ r : Record, r.Ordered →
      (∀ k ∈ r.fields.values, k = label ∨ k = index ∨ value = some k) →
      Typed (heapTheory p sites)
        (Γ ∪ (Value.string case : Value F).kinds label ∪
          (Value.number (F64.ofNat 0) : Value F).kinds index)
        (alloc (.record { r with enumName := some name })) (fun _ => True)
        fun h => {.val h, .data h} := by
    intro r hr hvals
    refine (typed_alloc (v := .record { r with enumName := some name }) hr rfl ?_).conseq
      (Set.Subset.refl _) (fun _ => id) ?_
    · refine vals_subset fun k hk => ?_
      rcases hvals k hk with rfl | rfl | hv
      · exact Or.inl (Or.inr ⟨rfl, rfl⟩)
      · exact Or.inr ⟨rfl, rfl⟩
      · exact Or.inl (Or.inl (hvalue k hv))
    · rintro h - r (rfl | rfl)
      · exact Or.inl ⟨rfl, rfl⟩
      · exact Or.inl ⟨rfl, rfl, rfl⟩
  have hbase' : ∀ k ∈ (Record.ofList [("name", label), ("index", index)]).fields.values,
      k = label ∨ k = index ∨ value = some k := by
    intro k hk
    have := hbase.2 k hk
    simp only [List.map_cons, List.map_nil, List.mem_cons, List.not_mem_nil, or_false] at this
    rcases this with rfl | rfl
    · exact Or.inl rfl
    · exact Or.inr (Or.inl rfl)
  cases value with
  | none => exact hrec _ hbase.1 hbase'
  | some h =>
      refine hrec _ (hbase.1.push "value" h) fun k hk => ?_
      rcases Record.mem_values_insert hk with rfl | hk
      · exact Or.inr (Or.inr rfl)
      · exact hbase' k hk

end HeapM

end Rules

end Deka.Vm
