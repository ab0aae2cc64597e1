/-
Deka/Vm/Lookup.lean

What the heap operations do to a lookup.

A heap is represented well (`Rep`) when its free list names distinct slots that
hold no value and no slot is marked.  Then a new handle was dead before its
allocation, allocation and writing change the lookup of one handle only, and all
other operations change no lookup at all.
-/
import Deka.Vm.Heap

namespace Deka.Vm

open Deka.Lib

variable {F : Type}

namespace Heap

/-- The representation invariant of the slots. -/
structure Rep (H : Heap F) : Prop where
  free_nodup : H.free.Nodup
  free_dead : ∀ i ∈ H.free, ∃ s, H.slots[i]? = some s ∧ s.value = none
  unmarked : ∀ s ∈ H.slots, s.marked = false

theorem rep_empty : Rep ({} : Heap F) where
  free_nodup := List.nodup_nil
  free_dead := by intro i hi; simp at hi
  unmarked := by intro s hs; simp at hs

/-! ### Slots -/

theorem slot?_eq_some {H : Heap F} {h : Handle} {s : Slot F} :
    H.slot? h = some s ↔ H.slots[h.index]? = some s ∧ s.generation = h.generation := by
  simp [slot?, Option.filter_eq_some_iff]

theorem lookup_eq_some {H : Heap F} {h : Handle} {v : Value F} :
    H.lookup h = some v ↔
      ∃ s, H.slots[h.index]? = some s ∧ s.generation = h.generation ∧ s.value = some v := by
  simp only [lookup, Option.bind_eq_some_iff, slot?_eq_some, and_assoc]

theorem get_of_lookup {H : Heap F} {h : Handle} {v : Value F} (hl : H.lookup h = some v) :
    H.get h = .ok v := by
  rw [get, hl]

theorem get_eq_ok {H : Heap F} {h : Handle} {v : Value F} :
    H.get h = .ok v ↔ H.lookup h = some v := by
  rw [get]
  cases H.lookup h <;> simp

/-- Two live handles of one slot are one handle. -/
theorem eq_of_index {H : Heap F} {h k : Handle} {v w : Value F} (hh : H.lookup h = some v)
    (hk : H.lookup k = some w) (hi : h.index = k.index) : h = k := by
  obtain ⟨s, hs, hgen, -⟩ := lookup_eq_some.mp hh
  obtain ⟨t, ht, hgen', -⟩ := lookup_eq_some.mp hk
  rw [hi, ht] at hs
  cases hs
  cases h
  cases k
  simp_all

/-! ### Changes of one slot -/

@[simp] theorem modifySlot_slots (H : Heap F) (h : Handle) (f : Slot F → Slot F) :
    (H.modifySlot h f).slots = H.slots.modify h.index f := rfl

@[simp] theorem modifySlot_free (H : Heap F) (h : Handle) (f : Slot F → Slot F) :
    (H.modifySlot h f).free = H.free := rfl

@[simp] theorem modifySlot_reads (H : Heap F) (h : Handle) (f : Slot F → Slot F) :
    (H.modifySlot h f).reads = H.reads := rfl

/-- A change that keeps values and generations changes no lookup. -/
theorem lookup_modifySlot {f : Slot F → Slot F} (hgen : ∀ s, (f s).generation = s.generation)
    (hval : ∀ s, (f s).value = s.value) (H : Heap F) (h k : Handle) :
    (H.modifySlot h f).lookup k = H.lookup k := by
  simp only [lookup, slot?, modifySlot_slots, List.getElem?_modify]
  rcases hs : H.slots[k.index]? with - | s
  · rfl
  · by_cases hi : h.index = k.index
    · simp [hi, Option.filter, hgen]
      split <;> simp [hval]
    · simp [hi]

theorem Rep.unmarked_modifySlot {H : Heap F} (hH : H.Rep) (h : Handle) {f : Slot F → Slot F}
    (hmark : ∀ s, s.marked = false → (f s).marked = false) :
    ∀ s ∈ (H.modifySlot h f).slots, s.marked = false := by
  intro s hs
  obtain ⟨i, hi⟩ := List.mem_iff_getElem?.mp hs
  rw [modifySlot_slots, List.getElem?_modify, Option.map_eq_map,
    Option.map_eq_some_iff] at hi
  obtain ⟨t, ht, rfl⟩ := hi
  have hmem : t.marked = false := hH.unmarked t (List.mem_of_getElem? ht)
  split
  · exact hmark t hmem
  · exact hmem

theorem Rep.modifySlot {H : Heap F} (hH : H.Rep) (h : Handle) {f : Slot F → Slot F}
    (hval : ∀ s, s.value = none → (f s).value = none)
    (hmark : ∀ s, s.marked = false → (f s).marked = false) : (H.modifySlot h f).Rep where
  free_nodup := hH.free_nodup
  free_dead := by
    intro i hi
    obtain ⟨s, hs, hv⟩ := hH.free_dead i hi
    rw [modifySlot_slots, List.getElem?_modify, hs]
    by_cases he : h.index = i
    · exact ⟨f s, by simp [he], hval s hv⟩
    · exact ⟨s, by simp [he], hv⟩
  unmarked := hH.unmarked_modifySlot h hmark

/-- The slot of a live handle is not free. -/
theorem Rep.not_mem_free {H : Heap F} (hH : H.Rep) {h : Handle} {v : Value F}
    (hl : H.lookup h = some v) : h.index ∉ H.free := by
  intro hi
  obtain ⟨s, hs, hv⟩ := hH.free_dead _ hi
  obtain ⟨t, ht, -, hw⟩ := lookup_eq_some.mp hl
  rw [hs] at ht
  cases ht
  rw [hv] at hw
  cases hw

/-! ### Allocation -/

/-- Where `alloc` puts a value: the free list, or a new slot. -/
theorem alloc_cases (H : Heap F) (hH : H.Rep) (v : Value F) :
    (∃ i free s, H.free = i :: free ∧ H.slots[i]? = some s ∧ s.value = none ∧
      H.alloc v = (⟨i, s.generation⟩,
        { H with
          slots := H.slots.set i
            { s with
              value := some v
              newtype := none
              created := H.allocations + 1
              revision := 0 }
          free
          allocations := H.allocations + 1 })) ∨
    (H.free = [] ∧
      H.alloc v = (⟨H.slots.length, 0⟩,
        { H with
          slots := H.slots ++ [⟨some v, 0, false, none, H.allocations + 1, 0⟩]
          allocations := H.allocations + 1 })) := by
  rcases hf : H.free with - | ⟨i, free⟩
  · right
    exact ⟨rfl, by simp [alloc, hf]⟩
  · left
    obtain ⟨s, hs, hv⟩ := hH.free_dead i (by simp [hf])
    exact ⟨i, free, s, rfl, hs, hv, by simp [alloc, hf, hs]⟩

@[simp] theorem alloc_reads (H : Heap F) (v : Value F) : (H.alloc v).2.reads = H.reads := by
  simp only [alloc]
  split
  · split <;> rfl
  · rfl

/-- A new handle was dead. -/
theorem lookup_alloc_fresh {H : Heap F} (hH : H.Rep) (v : Value F) :
    H.lookup (H.alloc v).1 = none := by
  rcases alloc_cases H hH v with ⟨i, free, s, -, hs, hv, he⟩ | ⟨-, he⟩
  · simp [he, lookup, slot?, hs, hv]
  · simp [he, lookup, slot?]

/-- Allocation changes the lookup of the new handle only. -/
theorem lookup_alloc {H : Heap F} (hH : H.Rep) (v : Value F) (h : Handle) :
    (H.alloc v).2.lookup h = if h = (H.alloc v).1 then some v else H.lookup h := by
  rcases alloc_cases H hH v with ⟨i, free, s, -, hs, hv, he⟩ | ⟨-, he⟩
  · rw [he]
    obtain ⟨hi, hg⟩ := List.getElem?_eq_some_iff.mp hs
    simp only [lookup, slot?, List.getElem?_set]
    by_cases hhi : i = h.index
    · subst hhi
      by_cases hgen : s.generation = h.generation
      · have : h = ⟨h.index, s.generation⟩ := by cases h; simp_all
        simp [hi, hgen, Option.filter]
      · have : h ≠ ⟨h.index, s.generation⟩ := by
          intro hh
          rw [hh] at hgen
          exact hgen rfl
        simp [hi, hg, hgen, this, Option.filter]
    · have : h ≠ ⟨i, s.generation⟩ := by
        intro hh
        rw [hh] at hhi
        exact hhi rfl
      simp [hhi, this]
  · rw [he]
    simp only [lookup, slot?]
    rcases Nat.lt_trichotomy h.index H.slots.length with hlt | heq | hgt
    · have : h ≠ ⟨H.slots.length, 0⟩ := by
        intro hh
        rw [hh] at hlt
        exact absurd hlt (Nat.lt_irrefl _)
      simp [List.getElem?_append_left hlt, this]
    · by_cases hgen : h.generation = 0
      · have : h = ⟨H.slots.length, 0⟩ := by cases h; simp_all
        simp [this, Option.filter]
      · have : h ≠ ⟨H.slots.length, 0⟩ := by
          intro hh
          rw [hh] at hgen
          exact hgen rfl
        simp [heq, this, Ne.symm hgen, Option.filter]
    · have : h ≠ ⟨H.slots.length, 0⟩ := by
        intro hh
        rw [hh] at hgt
        exact absurd hgt (Nat.lt_irrefl _)
      have hnone : H.slots[h.index]? = none := List.getElem?_eq_none (Nat.le_of_lt hgt)
      have hnone' : (H.slots ++ [(⟨some v, 0, false, none, H.allocations + 1, 0⟩ : Slot F)])[h.index]? =
          none := List.getElem?_eq_none (by simp; omega)
      simp [this, hnone, hnone']

theorem rep_alloc {H : Heap F} (hH : H.Rep) (v : Value F) : (H.alloc v).2.Rep := by
  rcases alloc_cases H hH v with ⟨i, free, s, hf, hs, -, he⟩ | ⟨hf, he⟩
  · rw [he]
    have hcons : i ∉ free ∧ free.Nodup := by
      have := hH.free_nodup
      rw [hf] at this
      exact List.nodup_cons.mp this
    refine ⟨hcons.2, ?_, ?_⟩
    · intro j hj
      obtain ⟨t, ht, hv⟩ := hH.free_dead j (by rw [hf]; exact List.mem_cons_of_mem _ hj)
      have hij : i ≠ j := by rintro rfl; exact hcons.1 hj
      exact ⟨t, by simp [hij, ht], hv⟩
    · intro t ht
      rcases List.mem_or_eq_of_mem_set ht with ht | rfl
      · exact hH.unmarked t ht
      · exact hH.unmarked s (List.mem_of_getElem? hs)
  · rw [he]
    refine ⟨hH.free_nodup, by simp [hf], ?_⟩
    intro t ht
    rcases List.mem_append.mp ht with ht | ht
    · exact hH.unmarked t ht
    · rw [List.mem_singleton.mp ht]

/-! ### Writing -/

@[simp] theorem lookup_observeWrite (H : Heap F) (h k : Handle) :
    (H.observeWrite h).lookup k = H.lookup k := by
  rw [observeWrite]
  split
  · split <;> rfl
  · rfl

theorem observeWrite_of_reads_none {H : Heap F} (hr : H.reads = none) (h : Handle) :
    H.observeWrite h = H := by
  simp [observeWrite, hr]

@[simp] theorem lookup_touch (H : Heap F) (h k : Handle) :
    (H.touch h).lookup k = H.lookup k := by
  rw [touch]
  refine (lookup_modifySlot ?_ ?_ _ _ _).trans (lookup_observeWrite H h k)
  · intro s
    rfl
  · intro s
    rfl

theorem reads_touch {H : Heap F} (hr : H.reads = none) (h : Handle) :
    (H.touch h).reads = none := by
  rw [touch, modifySlot_reads, observeWrite_of_reads_none hr, hr]

theorem Rep.touch {H : Heap F} (hH : H.Rep) (hr : H.reads = none) (h : Handle) :
    (H.touch h).Rep := by
  rw [Heap.touch, observeWrite_of_reads_none hr]
  exact hH.modifySlot h (fun _ => id) fun _ => id

@[simp] theorem write_reads (H : Heap F) (h : Handle) (v : Value F) :
    (H.write h v).reads = H.reads := rfl

/-- Writing through a live handle changes the lookup of that handle only. -/
theorem lookup_write {H : Heap F} {h : Handle} {v : Value F} (hl : H.lookup h = some v)
    (w : Value F) (k : Handle) :
    (H.write h w).lookup k = if k = h then some w else H.lookup k := by
  obtain ⟨s, hs, hgen, hv⟩ := lookup_eq_some.mp hl
  simp only [write, lookup, slot?, modifySlot_slots, List.getElem?_modify]
  by_cases hi : h.index = k.index
  · rw [← hi, hs]
    by_cases hg : k.generation = h.generation
    · have : k = h := by cases h; cases k; simp_all
      simp [this, hgen, Option.filter]
    · have : k ≠ h := by rintro rfl; exact hg rfl
      simp [hgen, this, Ne.symm hg, Option.filter]
  · have : k ≠ h := by rintro rfl; exact hi rfl
    simp [hi, this]

theorem Rep.write {H : Heap F} (hH : H.Rep) {h : Handle} {v : Value F}
    (hl : H.lookup h = some v) (w : Value F) : (H.write h w).Rep where
  free_nodup := hH.free_nodup
  free_dead := by
    intro i hi
    obtain ⟨s, hs, hv⟩ := hH.free_dead i hi
    have hne : h.index ≠ i := by rintro rfl; exact hH.not_mem_free hl hi
    exact ⟨s, by simp [Heap.write, hne, hs], hv⟩
  unmarked := hH.unmarked_modifySlot h fun _ => id

/-! ### Freed handles -/

/-- The slot of `h` was freed: it has moved on to a later generation. -/
def Freed (H : Heap F) (h : Handle) : Prop :=
  ∃ s, H.slots[h.index]? = some s ∧ h.generation < s.generation

/-- A freed handle is dead. -/
theorem Freed.lookup {H : Heap F} {h : Handle} (hf : H.Freed h) : H.lookup h = none := by
  obtain ⟨s, hs, hlt⟩ := hf
  rcases hl : H.lookup h with - | v
  · rfl
  · obtain ⟨t, ht, hgen, -⟩ := lookup_eq_some.mp hl
    rw [hs] at ht
    cases ht
    omega

end Heap

end Deka.Vm
