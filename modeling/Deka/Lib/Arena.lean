/-
Deka/Lib/Arena.lean

A table whose slots are reused, and the generations that keep old references
from naming a new occupant.

An insertion takes the slot that was freed last and counts its generation up, or
adds a slot with generation 0.  A reference is a slot together with the
generation it was given out in; it finds something only while both agree with the
table.  `find?_insert` and `find?_erase` are the two facts everything else rests
on: a reference that was given out before finds after an insertion what it found
before, so a dead one stays dead.
-/
import Mathlib.Algebra.BigOperators.Group.Finset.Basic
import Mathlib.Data.List.Nodup
import Mathlib.Logic.Function.Basic
import Mathlib.Order.Nat

namespace Deka.Lib

/-- A slot and the generation in which it was given out. -/
structure SlotRef where
  slot : Nat
  generation : Nat
deriving DecidableEq, Repr

structure Arena (α : Type) where
  slots : Nat → Option α
  size : Nat
  free : List Nat
  generations : Nat → Nat

namespace Arena

variable {α : Type} {a : Arena α} {x y : α} {r : SlotRef} {slot s : Nat}

def empty : Arena α := ⟨fun _ => none, 0, [], fun _ => 0⟩

/-- What a reference names now. -/
def find? (a : Arena α) (r : SlotRef) : Option α :=
  if a.generations r.slot = r.generation then a.slots r.slot else none

/-- Put `x` into the slot freed last, or into a new one. -/
def insert (a : Arena α) (x : α) : SlotRef × Arena α :=
  match a.free with
  | slot :: free =>
      (⟨slot, a.generations slot + 1⟩,
        { slots := Function.update a.slots slot (some x)
          size := a.size
          free := free
          generations := Function.update a.generations slot (a.generations slot + 1) })
  | [] =>
      (⟨a.size, 0⟩,
        { slots := Function.update a.slots a.size (some x)
          size := a.size + 1
          free := []
          generations := Function.update a.generations a.size 0 })

/-- Replace what a slot holds. -/
def set (a : Arena α) (slot : Nat) (x : α) : Arena α :=
  { a with slots := Function.update a.slots slot (some x) }

/-- Change every occupant. -/
def map (f : α → α) (a : Arena α) : Arena α := { a with slots := fun s => (a.slots s).map f }

/-- Empty a slot and keep it for reuse. -/
def erase (a : Arena α) (slot : Nat) : Arena α :=
  { a with slots := Function.update a.slots slot none, free := slot :: a.free }

/-! ### Well-formed tables -/

/-- Freed slots are distinct and empty, and so is everything beyond the end. -/
structure WellFormed (a : Arena α) : Prop where
  nodup : a.free.Nodup
  free_none : ∀ s ∈ a.free, a.slots s = none
  free_lt : ∀ s ∈ a.free, s < a.size
  beyond : ∀ s, a.size ≤ s → a.slots s = none

/-- A reference the table has given out. -/
def Known (a : Arena α) (r : SlotRef) : Prop :=
  r.slot < a.size ∧ r.generation ≤ a.generations r.slot

theorem WellFormed.empty : (empty : Arena α).WellFormed where
  nodup := List.nodup_nil
  free_none := by simp [Arena.empty]
  free_lt := by simp [Arena.empty]
  beyond := fun _ _ => rfl

theorem WellFormed.lt_size (h : a.WellFormed) (hs : a.slots s ≠ none) : s < a.size := by
  by_contra hge
  exact hs (h.beyond s (by omega))

theorem WellFormed.notMem_free (h : a.WellFormed) (hs : a.slots s ≠ none) : s ∉ a.free :=
  fun hf => hs (h.free_none s hf)

theorem find?_some (h : a.find? r = some x) :
    a.generations r.slot = r.generation ∧ a.slots r.slot = some x := by
  unfold find? at h
  split at h
  · exact ⟨by assumption, h⟩
  · cases h

theorem find?_of (hg : a.generations r.slot = r.generation) : a.find? r = a.slots r.slot :=
  if_pos hg

/-- Two references to one occupied slot are the same. -/
theorem eq_of_find? {r' : SlotRef} (h : a.find? r = some x) (h' : a.find? r' = some y)
    (hs : r.slot = r'.slot) : r = r' := by
  have hg := (find?_some h).1
  have hg' := (find?_some h').1
  cases r
  cases r'
  simp only at hs hg hg'
  subst hs
  rw [← hg, ← hg']

theorem WellFormed.known (h : a.WellFormed) (hr : a.find? r = some x) : a.Known r := by
  obtain ⟨hg, hs⟩ := find?_some hr
  exact ⟨h.lt_size (by simp [hs]), ge_of_eq hg⟩

/-! ### Insertion -/

theorem insert_slots (a : Arena α) (x : α) :
    (a.insert x).2.slots = Function.update a.slots (a.insert x).1.slot (some x) := by
  unfold insert
  split <;> rfl

theorem insert_generations (a : Arena α) (x : α) :
    (a.insert x).2.generations =
      Function.update a.generations (a.insert x).1.slot (a.insert x).1.generation := by
  unfold insert
  split <;> rfl

/-- The slot taken was empty. -/
theorem WellFormed.insert_slot (h : a.WellFormed) (x : α) :
    a.slots (a.insert x).1.slot = none := by
  unfold Arena.insert
  split
  · rename_i slot free hfree
    exact h.free_none slot (by simp [hfree])
  · exact h.beyond _ le_rfl

/-- The reference handed out is a new one. -/
theorem insert_fresh (a : Arena α) (x : α) : ¬ a.Known (a.insert x).1 := by
  intro hr
  unfold Arena.insert at hr
  split at hr
  · exact absurd hr.2 (Nat.not_succ_le_self _)
  · exact absurd hr.1 (Nat.lt_irrefl _)

theorem WellFormed.insert (h : a.WellFormed) (x : α) : (a.insert x).2.WellFormed := by
  unfold Arena.insert
  split
  · rename_i slot free hfree
    have hnodup := h.nodup
    rw [hfree] at hnodup
    have hne : ∀ s ∈ free, s ≠ slot := by
      rintro s hs rfl
      exact (List.nodup_cons.mp hnodup).1 hs
    have hmem : ∀ s ∈ free, s ∈ a.free := fun s hs => by simp [hfree, hs]
    have hslot : slot < a.size := h.free_lt slot (by simp [hfree])
    constructor
    · exact (List.nodup_cons.mp hnodup).2
    · intro s hs
      simpa [Function.update_of_ne (hne s hs)] using h.free_none s (hmem s hs)
    · exact fun s hs => h.free_lt s (hmem s hs)
    · intro s hs
      have hs' : a.size ≤ s := hs
      simpa [Function.update_of_ne (show s ≠ slot by omega)] using h.beyond s hs'
  · constructor
    · exact List.nodup_nil
    · simp
    · simp
    · intro s hs
      have hs' : a.size + 1 ≤ s := hs
      simpa [Function.update_of_ne (show s ≠ a.size by omega)] using h.beyond s (by omega)

theorem Known.insert (h : a.Known r) (x : α) : (a.insert x).2.Known r := by
  obtain ⟨hlt, hle⟩ := h
  unfold Arena.insert
  split
  · rename_i slot free hfree
    refine ⟨hlt, le_trans hle ?_⟩
    by_cases hs : r.slot = slot
    · simp [hs]
    · simp [Function.update_of_ne hs]
  · refine ⟨Nat.lt_succ_of_lt hlt, le_trans hle ?_⟩
    simp [Function.update_of_ne (show r.slot ≠ a.size by omega)]

theorem WellFormed.known_insert (h : a.WellFormed) (x : α) :
    (a.insert x).2.Known (a.insert x).1 := by
  refine ⟨(h.insert x).lt_size ?_, ?_⟩
  · simp [insert_slots]
  · simp [insert_generations]

@[simp] theorem find?_insert_self (a : Arena α) (x : α) :
    (a.insert x).2.find? (a.insert x).1 = some x := by
  simp [find?, insert_generations, insert_slots]

/-- Insertion changes nothing for the references given out before. -/
theorem WellFormed.find?_insert (h : a.WellFormed) (hr : a.Known r) (x : α) :
    (a.insert x).2.find? r = a.find? r := by
  have hfresh := a.insert_fresh x
  have hnone := h.insert_slot x
  unfold find?
  rw [insert_generations, insert_slots]
  generalize (a.insert x).1 = new at hfresh hnone
  by_cases hs : r.slot = new.slot
  · have hne : new.generation ≠ r.generation := by
      intro hg
      apply hfresh
      rw [Known, ← hs, hg]
      exact hr
    simp [hs, hne, hnone]
  · simp [Function.update_of_ne hs]

theorem Known.ne_insert (h : a.Known r) (x : α) : r ≠ (a.insert x).1 := by
  rintro rfl
  exact a.insert_fresh x h

/-! ### Replacement -/

theorem WellFormed.set (h : a.WellFormed) (hs : a.slots slot ≠ none) (x : α) :
    (a.set slot x).WellFormed where
  nodup := h.nodup
  free_none := by
    intro s hf
    have hne : s ≠ slot := fun he => h.notMem_free hs (he ▸ hf)
    simpa [Arena.set, Function.update_of_ne hne] using h.free_none s hf
  free_lt := h.free_lt
  beyond := by
    intro s hge
    have hne : s ≠ slot := fun he => by
      have hlt := h.lt_size hs
      have hge' : a.size ≤ s := hge
      omega
    simpa [Arena.set, Function.update_of_ne hne] using h.beyond s hge

theorem known_set : (a.set slot x).Known r ↔ a.Known r := Iff.rfl

theorem find?_set_self (h : a.find? r ≠ none) (x : α) :
    (a.set r.slot x).find? r = some x := by
  unfold find? at h ⊢
  split at h
  · rename_i hg
    simp [Arena.set, hg]
  · exact absurd rfl h

theorem find?_set_of_ne (h : r.slot ≠ slot) (x : α) : (a.set slot x).find? r = a.find? r := by
  simp [find?, Arena.set, Function.update_of_ne h]

/-- Replacing an occupant neither kills nor revives a reference. -/
theorem find?_set_eq_none (hs : a.slots slot ≠ none) (x : α) :
    (a.set slot x).find? r = none ↔ a.find? r = none := by
  by_cases h : r.slot = slot
  · subst h
    by_cases hg : a.generations r.slot = r.generation <;> simp [find?, Arena.set, hg, hs]
  · rw [find?_set_of_ne h]

theorem WellFormed.map (h : a.WellFormed) (f : α → α) : (a.map f).WellFormed where
  nodup := h.nodup
  free_none := fun s hf => by simp [Arena.map, h.free_none s hf]
  free_lt := h.free_lt
  beyond := fun s hge => by simp [Arena.map, h.beyond s hge]

theorem known_map {f : α → α} : (a.map f).Known r ↔ a.Known r := Iff.rfl

theorem find?_map (a : Arena α) (f : α → α) (r : SlotRef) :
    (a.map f).find? r = (a.find? r).map f := by
  by_cases hg : a.generations r.slot = r.generation <;> simp [find?, Arena.map, hg]

/-! ### Removal -/

theorem WellFormed.erase (h : a.WellFormed) (hs : a.slots slot ≠ none) :
    (a.erase slot).WellFormed where
  nodup := List.nodup_cons.mpr ⟨h.notMem_free hs, h.nodup⟩
  free_none := by
    intro s hf
    by_cases he : s = slot
    · simp [Arena.erase, he]
    · have hf' : s ∈ a.free := by simpa [Arena.erase, he] using hf
      simpa [Arena.erase, Function.update_of_ne he] using h.free_none s hf'
  free_lt := by
    intro s hf
    rcases List.mem_cons.mp hf with rfl | hf
    · exact h.lt_size hs
    · exact h.free_lt s hf
  beyond := by
    intro s hge
    by_cases he : s = slot
    · simp [Arena.erase, he]
    · simpa [Arena.erase, Function.update_of_ne he] using h.beyond s hge

theorem known_erase : (a.erase slot).Known r ↔ a.Known r := Iff.rfl

theorem find?_erase (a : Arena α) (slot : Nat) (r : SlotRef) :
    (a.erase slot).find? r = if r.slot = slot then none else a.find? r := by
  by_cases h : r.slot = slot <;> simp [find?, Arena.erase, h]

/-! ### Totals -/

section Total

variable {M : Type} [AddCommMonoid M] {f : α → M}

/-- The sum of `f` over the occupants. -/
def total (a : Arena α) (f : α → M) : M :=
  ∑ s ∈ Finset.range a.size, ((a.slots s).map f).getD 0

@[simp] theorem total_empty (f : α → M) : (empty : Arena α).total f = 0 := rfl

theorem total_map {g : α → α} (h : ∀ x, f (g x) = f x) : (a.map g).total f = a.total f := by
  have hfg : f ∘ g = f := funext h
  unfold total
  simp [Arena.map, hfg]

/-- What one occupant contributes can be taken out. -/
theorem WellFormed.total_split (h : a.WellFormed) (hs : a.slots slot = some y) (f : α → M) :
    ∃ rest, a.total f = f y + rest ∧ (a.erase slot).total f = rest ∧
      ∀ x, (a.set slot x).total f = f x + rest := by
  have hlt : slot ∈ Finset.range a.size :=
    Finset.mem_range.mpr (h.lt_size (by simp [hs]))
  refine ⟨∑ s ∈ (Finset.range a.size).erase slot, ((a.slots s).map f).getD 0, ?_, ?_, ?_⟩
  · rw [total, ← Finset.add_sum_erase _ _ hlt, hs]
    rfl
  · show ∑ s ∈ Finset.range a.size, ((Function.update a.slots slot none s).map f).getD 0 = _
    rw [← Finset.add_sum_erase _ _ hlt]
    simp only [Function.update_self, Option.map_none, Option.getD_none, zero_add]
    refine Finset.sum_congr rfl fun s hs => ?_
    rw [Function.update_of_ne (Finset.ne_of_mem_erase hs)]
  · intro x
    show ∑ s ∈ Finset.range a.size, ((Function.update a.slots slot (some x) s).map f).getD 0 = _
    rw [← Finset.add_sum_erase _ _ hlt]
    simp only [Function.update_self, Option.map_some, Option.getD_some]
    congr 1
    refine Finset.sum_congr rfl fun s hs => ?_
    rw [Function.update_of_ne (Finset.ne_of_mem_erase hs)]

theorem WellFormed.total_insert (h : a.WellFormed) (x : α) (f : α → M) :
    (a.insert x).2.total f = f x + a.total f := by
  have hself : (a.insert x).2.slots (a.insert x).1.slot = some x := by simp [insert_slots]
  obtain ⟨rest, hins, hers, -⟩ := (h.insert x).total_split hself f
  rw [hins, ← hers]
  congr 1
  have hnone := h.insert_slot x
  have hslots : Function.update (a.insert x).2.slots (a.insert x).1.slot none = a.slots := by
    rw [insert_slots, Function.update_idem, ← hnone, Function.update_eq_self]
  show ∑ s ∈ Finset.range (a.insert x).2.size,
    ((Function.update (a.insert x).2.slots (a.insert x).1.slot none s).map f).getD 0 = _
  rw [hslots]
  unfold Arena.insert
  split
  · rfl
  · rw [Finset.sum_range_succ, h.beyond _ le_rfl]
    simp [total]

end Total

end Arena

end Deka.Lib
