/-
Deka/Vm/CollectFailed.lean

A collection that fails at a stale root.

It returns out of the marking loop, and the marks that it made stay.  The work list is popped from
its end, so there are none exactly if the last root is the stale one.
-/
import Deka.Vm.CollectExact

namespace Deka.Vm

open Deka.Lib

variable {F : Type}

namespace Heap

/-! ### Marks of a loop that fails -/

/-- Marking clears no mark. -/
theorem marked_mark {fuel : Nat} {H : Heap F} {todo : List Handle} {i : Nat} {s : Slot F}
    (hs : H.slots[i]? = some s) (hmarked : s.marked = true) :
    ∃ t, (H.mark fuel todo).2.slots[i]? = some t ∧ t.marked = true := by
  induction fuel generalizing H todo s with
  | zero => exact ⟨s, hs, hmarked⟩
  | succ fuel ih =>
    cases todo with
    | nil => exact ⟨s, hs, hmarked⟩
    | cons h todo =>
      rw [mark]
      split
      · split
        · exact ih hs hmarked
        · by_cases hi : h.index = i
          · refine @ih _ _ { s with marked := true } ?_ rfl
            simp [hi, hs]
          · refine ih (s := s) ?_ hmarked
            simp [hi, hs]
      · exact ⟨s, hs, hmarked⟩

theorem mark_stale {fuel : Nat} {H : Heap F} {h : Handle} {todo : List Handle}
    (hstale : ¬ H.Live h) : H.mark (fuel + 1) (h :: todo) = (.error .stale, H) := by
  rw [mark]
  split
  · rename_i value generation marked newtype created revision hslot
    refine absurd ⟨value, ?_⟩ hstale
    rw [lookup, hslot]
    rfl
  · rfl

/-- The first handle of the work list is marked, if it is live. -/
theorem mark_first {fuel : Nat} {H : Heap F} (hH : H.Rep) {h : Handle} {todo : List Handle}
    (hlive : H.Live h) : ¬ (H.mark (fuel + 1) (h :: todo)).2.Rep := by
  obtain ⟨v, hv⟩ := hlive
  obtain ⟨s, hs, hgen, hval⟩ := lookup_eq_some.mp hv
  have hslot : H.slot? h = some s := slot?_eq_some.mpr ⟨hs, hgen⟩
  have hunmarked := hH.unmarked s (List.mem_of_getElem? hs)
  obtain ⟨value, generation, marked, newtype, created, revision⟩ := s
  simp only at hval hunmarked
  subst hval hunmarked
  have hstep : H.mark (fuel + 1) (h :: todo) =
      (H.setMark h).mark fuel (v.children.reverse ++ todo) := by
    simp [mark, hslot, setMark]
  have hset : (H.setMark h).slots[h.index]? =
      some ⟨some v, generation, true, newtype, created, revision⟩ := by
    simp [setMark, hs]
  obtain ⟨t, ht, hmarked⟩ := @marked_mark F fuel _ (v.children.reverse ++ todo) _ _ hset rfl
  rw [hstep]
  intro hrep
  rw [hrep.unmarked t (List.mem_of_getElem? ht)] at hmarked
  cases hmarked

theorem collect_stale {H K : Heap F} {roots : List Handle}
    (h : H.collect roots = (.error .stale, K)) :
    H.mark (H.markFuel (roots ++ H.captureRoots).reverse) (roots ++ H.captureRoots).reverse =
      (.error .stale, K) := by
  simp only [collect] at h
  rcases hmark : H.mark (H.markFuel (roots ++ H.captureRoots).reverse)
    (roots ++ H.captureRoots).reverse with ⟨e | ⟨⟩, M⟩
  · rw [hmark] at h
    exact h
  · rw [hmark] at h
    simp only at h
    rcases hsweep : sweep 0 M.free M.slots with ⟨e | ⟨⟩, slots, free⟩
    · rw [hsweep] at h
      have hexhausted : e = .error "heap generation exhausted" := sweep_error (by rw [hsweep])
      rw [hexhausted] at h
      cases h
    · rw [hsweep] at h
      cases h

/-! ### What a collection keeps, whether it succeeds or not -/

/-- A sweep leaves the values of the marked slots. -/
theorem sweep_marked {slots : List (Slot F)} {i j : Nat} {free : List Nat} {s : Slot F}
    (hs : slots[j]? = some s) (hmarked : s.marked = true) :
    ∃ m, (sweep i free slots).2.1[j]? = some { s with marked := m } := by
  induction slots generalizing i j free with
  | nil => cases hs
  | cons t slots ih =>
    rw [sweep]
    cases j with
    | zero =>
      rw [List.getElem?_cons_zero, Option.some.injEq] at hs
      subst hs
      rw [if_neg (fun h => h.2 hmarked)]
      exact ⟨false, rfl⟩
    | succ j =>
      rw [List.getElem?_cons_succ] at hs
      split
      · split
        · exact ih hs
        · exact ⟨s.marked, hs⟩
      · exact ih hs

theorem collect_keeps {H : Heap F} (hH : H.Sound) {roots : List Handle}
    (hroots : ∀ k ∈ roots, H.Live k) {h : Handle} {v : Value F} (hkept : H.Keeps roots h)
    (hv : H.lookup h = some v) : (H.collect roots).2.lookup h = some v := by
  obtain ⟨M, hmark, hmarked⟩ := exists_marked hH hroots
  obtain ⟨s, hs, -, hmark_s⟩ := (hmarked.marks h).mpr hkept
  obtain ⟨hs, hgen⟩ := slot?_eq_some.mp hs
  have hvalue : s.value = some v := by
    have hlookup := (hmarked.remarked.lookup h).trans hv
    obtain ⟨t, ht, -, hval⟩ := lookup_eq_some.mp hlookup
    rw [hs] at ht
    cases ht
    exact hval
  obtain ⟨m, hm⟩ := @sweep_marked F M.slots 0 h.index M.free s hs hmark_s
  simp only [collect, hmark]
  rcases hsweep : sweep 0 M.free M.slots with ⟨e | ⟨⟩, slots, free⟩ <;> rw [hsweep] at hm
  · exact lookup_eq_some.mpr ⟨_, hm, hgen, hvalue⟩
  · exact lookup_eq_some.mpr ⟨_, hm, hgen, hvalue⟩

theorem sound_steps [F64 F] {H K : Heap F} (hH : H.Sound)
    (hsteps : Relation.ReflTransGen Step H K) : K.Sound := by
  induction hsteps with
  | refl => exact hH
  | tail _ hstep ih => exact sound_step hstep ih

/-- What a failed collection leaves behind does not disturb a later one. -/
def Harmless [F64 F] (K : Heap F) : Prop :=
  K.Rep ∧ ∀ L, Relation.ReflTransGen Step K L → ∀ later, (∀ k ∈ later, L.Live k) →
    ∀ k v, L.Keeps later k → L.lookup k = some v → (L.collect later).2.lookup k = some v

/-- A cell with `()`. -/
def unitCell : Heap Int := ((({} : Heap Int).alloc .unit).2.alloc (.cell ⟨0, 0⟩)).2

theorem unitCell_reachable : unitCell.Reachable :=
  (Relation.ReflTransGen.single (.alloc .unit fun k hk => absurd hk List.not_mem_nil)).tail
    (.alloc (.cell ⟨0, 0⟩) fun k hk => ⟨.unit, by rw [List.mem_singleton.mp hk]; rfl⟩)

end Heap

end Deka.Vm
