/-
Deka/Reactive/Linked.lean

The tables of a scope agree with each other.

`Core.Linked` is kept by every operation of `Deka/Reactive/Core.lean`, at every
moment between two of them: subscriptions and dependencies are the same relation,
the dirty set names live observers, and a released slot is in no subscription and in
no record of reads.  An operation that moves something between the owners leaves all
of this alone.
-/
import Deka.Reactive.Core

namespace Deka.Reactive

open Deka.Lib

variable {V : Type}

structure Core.Linked (c : Core V) : Prop where
  values : c.values.WellFormed
  observers : c.observers.WellFormed
  subscribed : ∀ s o, o ∈ c.subscribers s ↔
    ∃ observer, c.observers.slots o = some observer ∧ s ∈ observer.dependencies
  dirty : ∀ o ∈ c.dirty, c.observers.slots o ≠ none
  subscribers_live : ∀ s o, o ∈ c.subscribers s → c.values.slots s ≠ none
  reads_live : ∀ m ∈ c.reads, ∀ s ∈ m.keys, c.values.slots s ≠ none

namespace Core

theorem Linked.empty : (empty : Core V).Linked where
  values := .empty
  observers := .empty
  subscribed := by simp [Core.empty, Arena.empty]
  dirty := by simp [Core.empty]
  subscribers_live := by simp [Core.empty]
  reads_live := by simp [Core.empty]

variable {c : Core V}

/-- What is dirty or subscribes is live. -/
theorem Linked.subscriber_live (h : c.Linked) {s o : Nat} (ho : o ∈ c.subscribers s) :
    c.observers.slots o ≠ none := by
  obtain ⟨observer, hslot, -⟩ := (h.subscribed s o).mp ho
  simp [hslot]

/-- The owners, the depth and the flag take no part. -/
theorem Linked.same (h : c.Linked) {d : Core V} (hv : d.values = c.values)
    (ho : d.observers = c.observers) (hs : d.subscribers = c.subscribers)
    (hr : d.reads = c.reads) (hd : d.dirty ⊆ c.dirty) : d.Linked where
  values := hv ▸ h.values
  observers := ho ▸ h.observers
  subscribed := by rw [hs, ho]; exact h.subscribed
  dirty := fun o hm => by rw [ho]; exact h.dirty o (hd hm)
  subscribers_live := by rw [hs, hv]; exact h.subscribers_live
  reads_live := by rw [hr, hv]; exact h.reads_live

/-! ### Signals -/

/-- A larger set of live values. -/
theorem Linked.grow (h : c.Linked) {values : Arena (Cell V)} (hv : values.WellFormed)
    (hlive : ∀ s, c.values.slots s ≠ none → values.slots s ≠ none) :
    { c with values := values }.Linked where
  values := hv
  observers := h.observers
  subscribed := h.subscribed
  dirty := h.dirty
  subscribers_live := fun s o ho => hlive s (h.subscribers_live s o ho)
  reads_live := fun m hm s hs => hlive s (h.reads_live m hm s hs)

theorem Linked.allocate (h : c.Linked) (value : Option V) : (c.allocate value).2.Linked := by
  have hgrow : { c with values := (c.values.insert ⟨value, false⟩).2 }.Linked := by
    refine h.grow (h.values.insert _) fun s hs => ?_
    rw [Arena.insert_slots]
    by_cases he : s = (c.values.insert ⟨value, false⟩).1.slot
    · simp [he]
    · rwa [Function.update_of_ne he]
  exact hgrow.same rfl rfl rfl rfl (Finset.Subset.refl _)

theorem Linked.setCell (h : c.Linked) {r : Signal} {old : Cell V}
    (hr : c.values.find? r = some old) (cell : Cell V) : (c.setCell r cell).Linked := by
  have hlive : c.values.slots r.slot ≠ none := by simp [(Arena.find?_some hr).2]
  refine h.grow (h.values.set hlive cell) fun s hs => ?_
  by_cases he : s = r.slot
  · simp [Arena.set, he]
  · simpa [Arena.set, Function.update_of_ne he] using hs

theorem Linked.observeRead (h : c.Linked) {slot : Nat} (hs : c.values.slots slot ≠ none) :
    (c.observeRead slot).Linked where
  values := h.values
  observers := h.observers
  subscribed := h.subscribed
  dirty := h.dirty
  subscribers_live := h.subscribers_live
  reads_live := by
    intro m hm s hk
    show c.values.slots s ≠ none
    have hm' : m ∈ c.reads.modifyHead fun m => m.record slot (c.revisions slot) := hm
    cases hreads : c.reads with
    | nil => simp [hreads] at hm'
    | cons m₀ reads =>
        rw [hreads, List.modifyHead_cons] at hm'
        rcases List.mem_cons.mp hm' with rfl | hm'
        · unfold Reads.record at hk
          split at hk
          · exact h.reads_live m₀ (by simp [hreads]) s hk
          · rcases Finset.mem_insert.mp hk with rfl | hk
            · exact hs
            · exact h.reads_live m₀ (by simp [hreads]) s hk
        · exact h.reads_live m (by simp [hreads, hm']) s hk

theorem Linked.changed (h : c.Linked) (slot : Nat) : (c.changed slot).Linked where
  values := h.values
  observers := h.observers
  subscribed := h.subscribed
  dirty := by
    intro o ho
    rcases Finset.mem_union.mp ho with ho | ho
    · exact h.dirty o ho
    · exact h.subscriber_live ho
  subscribers_live := h.subscribers_live
  reads_live := h.reads_live

theorem Linked.release (h : c.Linked) {slot : Nat} (hs : c.values.slots slot ≠ none) :
    (c.release slot).Linked where
  values := h.values.erase hs
  observers := h.observers.map _
  subscribed := by
    intro s o
    by_cases he : s = slot
    · subst he
      simp [Core.release, Arena.map]
    · simp [Core.release, Arena.map, h.subscribed s o, he]
  dirty := by
    intro o ho
    have hlive := h.dirty o ho
    simpa [Core.release, Arena.map] using hlive
  subscribers_live := by
    intro s o ho
    have ho' : o ∈ Function.update c.subscribers slot ∅ s := ho
    by_cases he : s = slot
    · simp [he] at ho'
    · rw [Function.update_of_ne he] at ho'
      simpa [Core.release, Arena.erase, Function.update_of_ne he] using h.subscribers_live s o ho'
  reads_live := by
    intro m hm s hk
    obtain ⟨m₀, hm₀, rfl⟩ := List.mem_map.mp hm
    obtain ⟨hne, hk⟩ := Finset.mem_erase.mp hk
    simpa [Core.release, Arena.erase, Function.update_of_ne hne] using h.reads_live m₀ hm₀ s hk

/-! ### Reactions -/

theorem Linked.register (h : c.Linked) (kind : Kind) (output : Option Signal) :
    (c.register kind output).2.Linked := by
  have hslot := h.observers.insert_slot (⟨output, ∅, kind, none, none⟩ : Observer V)
  have hgrow : { c with
      observers := (c.observers.insert ⟨output, ∅, kind, none, none⟩).2 }.Linked := by
    constructor
    · exact h.values
    · exact h.observers.insert _
    · intro s o
      rw [h.subscribed, Arena.insert_slots]
      by_cases he : o = (c.observers.insert ⟨output, ∅, kind, none, none⟩).1.slot
      · subst he
        simp [hslot]
      · simp [Function.update_of_ne he]
    · intro o ho
      rw [Arena.insert_slots]
      by_cases he : o = (c.observers.insert ⟨output, ∅, kind, none, none⟩).1.slot
      · simp [he]
      · rw [Function.update_of_ne he]
        exact h.dirty o ho
    · exact h.subscribers_live
    · exact h.reads_live
  exact hgrow.same rfl rfl rfl rfl (Finset.Subset.refl _)

/-- An observer that keeps its dependencies may change otherwise. -/
theorem Linked.setObserver (h : c.Linked) {slot : Nat} {old : Observer V}
    (hs : c.observers.slots slot = some old) (new : Observer V)
    (hd : new.dependencies = old.dependencies) :
    { c with observers := c.observers.set slot new }.Linked where
  values := h.values
  observers := h.observers.set (by simp [hs]) new
  subscribed := by
    intro s o
    rw [h.subscribed]
    by_cases he : o = slot
    · simp [Arena.set, he, hs, hd]
    · simp [Arena.set, Function.update_of_ne he]
  dirty := by
    intro o ho
    by_cases he : o = slot
    · simp [Arena.set, he]
    · simpa [Arena.set, Function.update_of_ne he] using h.dirty o ho
  subscribers_live := h.subscribers_live
  reads_live := h.reads_live

theorem Linked.disposeObserver (h : c.Linked) (slot : Nat) :
    (c.disposeObserver slot).2.Linked := by
  unfold Core.disposeObserver
  split
  · exact h
  · rename_i observer hslot
    constructor
    · exact h.values
    · exact h.observers.erase (by simp [hslot])
    · intro s o
      show o ∈ (if s ∈ observer.dependencies then (c.subscribers s).erase slot
        else c.subscribers s) ↔ ∃ ob, Function.update c.observers.slots slot none o = some ob ∧ _
      by_cases he : o = slot
      · subst he
        have hsub := h.subscribed s o
        by_cases hd : s ∈ observer.dependencies
        · simp [hd]
        · simp [hd, hsub, hslot]
      · rw [Function.update_of_ne he, ← h.subscribed]
        by_cases hd : s ∈ observer.dependencies
        · simp [hd, he]
        · simp [hd]
    · intro o ho
      obtain ⟨hne, ho⟩ := Finset.mem_erase.mp ho
      show Function.update c.observers.slots slot none o ≠ none
      rw [Function.update_of_ne hne]
      exact h.dirty o ho
    · intro s o ho
      refine h.subscribers_live s o ?_
      have ho' : o ∈ (if s ∈ observer.dependencies then (c.subscribers s).erase slot
        else c.subscribers s) := ho
      split at ho'
      · exact Finset.mem_of_mem_erase ho'
      · exact ho'
    · exact h.reads_live

theorem Linked.follow (h : c.Linked) {e : Effect} {m : Reads} {latest : Option (Run V)}
    (hm : ∀ s ∈ m.keys, c.values.slots s ≠ none) : (c.follow e m latest).Linked := by
  unfold Core.follow
  split
  · exact h
  · rename_i observer hfind
    have hslot := (Arena.find?_some hfind).2
    have hmem : ∀ s, e.slot ∈ c.subscribers s ↔ s ∈ observer.dependencies := by
      intro s
      rw [h.subscribed]
      simp [hslot]
    constructor
    · exact h.values
    · exact h.observers.set (by simp [hslot]) _
    · intro s o
      by_cases he : o = e.slot
      · subst he
        simp only [Arena.set, Function.update_self, Option.some.injEq]
        by_cases hd : s ∈ observer.dependencies <;> by_cases hk : s ∈ m.keys <;>
          simp [hd, hk, hmem]
      · simp only [Arena.set, Function.update_of_ne he, ← h.subscribed]
        split
        · simp [he]
        · split
          · simp [he]
          · rfl
    · intro o ho
      have ho' : o = e.slot ∨ o ∈ c.dirty := by
        split at ho
        · exact Finset.mem_insert.mp ho
        · exact Or.inr ho
      rcases ho' with rfl | ho'
      · simp [Arena.set]
      · by_cases he : o = e.slot
        · simp [Arena.set, he]
        · simpa [Arena.set, Function.update_of_ne he] using h.dirty o ho'
    · intro s o ho
      by_cases hk : s ∈ m.keys
      · exact hm s hk
      · refine h.subscribers_live s o ?_
        simp only [Finset.mem_sdiff, hk, false_and, if_false, not_false_eq_true, and_true] at ho
        split at ho
        · exact Finset.mem_of_mem_erase ho
        · exact ho
    · exact h.reads_live

theorem Linked.capture (h : c.Linked) (e : Effect) (latest : Option (Run V)) :
    (c.capture e latest).Linked := by
  unfold Core.capture
  split
  · exact h
  · rename_i m reads hreads
    refine Linked.follow ?_ ?_
    · constructor
      · exact h.values
      · exact h.observers
      · exact h.subscribed
      · exact h.dirty
      · exact h.subscribers_live
      · exact fun m' hm' => h.reads_live m' (by simp [hreads, hm'])
    · exact h.reads_live m (by simp [hreads])

end Core

end Deka.Reactive
