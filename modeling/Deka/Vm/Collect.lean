/-
Deka/Vm/Collect.lean

What a collection does: when every handle that can be reached from the roots is
live, `Heap.collect` does not report a stale handle, and afterwards exactly the
reachable handles are live, with the values they had.

Marking is a work-list search over the graph of live values; the marks of the
slots are its visited set.
-/
import Deka.Lib.Reach
import Deka.Vm.Lookup
import Mathlib.Algebra.Order.BigOperators.Group.List

namespace Deka.Vm

open Deka.Lib

variable {F : Type}

/-- What a slot can still push: the children of an unmarked value. -/
def Slot.pending (s : Slot F) : Nat :=
  if s.marked then 0 else ((s.value.map Value.children).getD []).length

/-- A slot after the sweep. -/
def Slot.swept (s : Slot F) : Slot F :=
  if s.value.isSome ∧ ¬ s.marked then
    { s with value := none, newtype := none, generation := s.generation + 1, marked := false }
  else { s with marked := false }

namespace Heap

/-- `h` is live and its value holds `k`. -/
def Points (H : Heap F) (h k : Handle) : Prop := ∃ v, H.lookup h = some v ∧ k ∈ v.children

/-- What the collector can reach from a list of roots. -/
def Reaches (H : Heap F) (roots : List Handle) : Handle → Prop :=
  Reach H.Points {h | h ∈ roots}

/-- The live handles whose slot is marked. -/
def marks (H : Heap F) : Set Handle :=
  {h | ∃ s, H.slot? h = some s ∧ s.value.isSome ∧ s.marked = true}

/-- `K` is `H` with other marks. -/
structure Remarked (H K : Heap F) : Prop where
  slots : K.slots.map (fun s => { s with marked := false }) =
    H.slots.map fun s => { s with marked := false }
  free : K.free = H.free
  reads : K.reads = H.reads

theorem Remarked.refl (H : Heap F) : Remarked H H := ⟨rfl, rfl, rfl⟩

/-! ### Marks and lookups -/

theorem Remarked.slot {H K : Heap F} (h : Remarked H K) {i : Nat} {s : Slot F}
    (hs : K.slots[i]? = some s) :
    ∃ m, H.slots[i]? = some { s with marked := m } := by
  have hi := congrArg (fun l => l[i]?) h.slots
  simp only [List.getElem?_map, hs, Option.map_some] at hi
  obtain ⟨t, ht, he⟩ := Option.map_eq_some_iff.mp hi.symm
  refine ⟨t.marked, ?_⟩
  rw [ht]
  cases s
  cases t
  simp_all

theorem Remarked.symm {H K : Heap F} (h : Remarked H K) : Remarked K H :=
  ⟨h.slots.symm, h.free.symm, h.reads.symm⟩

theorem Remarked.lookup_of_some {H K : Heap F} (h : Remarked H K) {k : Handle} {v : Value F}
    (hv : K.lookup k = some v) : H.lookup k = some v := by
  obtain ⟨s, hs, hgen, hval⟩ := lookup_eq_some.mp hv
  obtain ⟨m, hm⟩ := h.slot hs
  exact lookup_eq_some.mpr ⟨_, hm, hgen, hval⟩

theorem Remarked.lookup {H K : Heap F} (h : Remarked H K) (k : Handle) :
    K.lookup k = H.lookup k := by
  rcases hH : H.lookup k with - | w
  · rcases hK : K.lookup k with - | v
    · rfl
    · rw [h.lookup_of_some hK] at hH
      cases hH
  · exact h.symm.lookup_of_some hH

theorem Remarked.trans {H K L : Heap F} (h : Remarked H K) (k : Remarked K L) :
    Remarked H L :=
  ⟨k.slots.trans h.slots, k.free.trans h.free, k.reads.trans h.reads⟩

/-- Mark one slot. -/
def setMark (H : Heap F) (h : Handle) : Heap F :=
  H.modifySlot h fun s => { s with marked := true }

theorem remarked_setMark (H : Heap F) (h : Handle) : Remarked H (H.setMark h) where
  slots := by
    refine List.ext_getElem? fun i => ?_
    simp only [setMark, modifySlot_slots, List.getElem?_map, List.getElem?_modify]
    rcases H.slots[i]? with - | s
    · rfl
    · by_cases hi : h.index = i <;> simp [hi]
  free := rfl
  reads := rfl

/-- Marking a live handle adds it to the marks, and no other handle. -/
theorem marks_setMark {H : Heap F} {h : Handle} {v : Value F} (hl : H.lookup h = some v) :
    (H.setMark h).marks = insert h H.marks := by
  obtain ⟨s, hs, hgen, hv⟩ := lookup_eq_some.mp hl
  ext k
  simp only [marks, Set.mem_ofPred_eq, Set.mem_insert_iff, slot?_eq_some, setMark,
    modifySlot_slots, List.getElem?_modify]
  by_cases hi : h.index = k.index
  · rw [← hi, hs]
    constructor
    · rintro ⟨t, ⟨ht, hg⟩, hval, -⟩
      simp only [if_pos, Option.map_eq_map, Option.map_some] at ht
      cases ht
      left
      cases h
      cases k
      simp_all
    · rintro (rfl | ⟨t, ⟨ht, hg⟩, hval, hm⟩)
      · exact ⟨{ s with marked := true }, ⟨by simp, hgen⟩, by simp [hv], rfl⟩
      · cases ht
        exact ⟨{ s with marked := true }, ⟨by simp, hg⟩, by simp [hv], rfl⟩
  · have hne : k ≠ h := by rintro rfl; exact hi rfl
    simp [hi, hne]

/-! ### The bound of the marking loop -/

def pending (H : Heap F) : Nat := (H.slots.map Slot.pending).sum

theorem sum_modify {α : Type} (w : α → Nat) (f : α → α) {l : List α} {i : Nat} {a : α}
    (h : l[i]? = some a) :
    ((l.modify i f).map w).sum + w a = (l.map w).sum + w (f a) := by
  induction l generalizing i with
  | nil => simp at h
  | cons b l ih =>
      cases i with
      | zero =>
          cases h
          simp only [List.modify_zero_cons, List.map_cons, List.sum_cons]
          omega
      | succ i =>
          have := ih (i := i) (by simpa using h)
          simp only [List.modify_succ_cons, List.map_cons, List.sum_cons]
          omega

/-- Marking a value accounts for the children it pushes. -/
theorem pending_setMark {H : Heap F} {h : Handle} {s : Slot F} {v : Value F}
    (hs : H.slots[h.index]? = some s) (hv : s.value = some v) (hm : s.marked = false) :
    (H.setMark h).pending + v.children.length = H.pending := by
  have hsum := sum_modify Slot.pending (fun s : Slot F => { s with marked := true }) hs
  have hbefore : s.pending = v.children.length := by simp [Slot.pending, hm, hv]
  have hafter : Slot.pending { s with marked := true } = 0 := by simp [Slot.pending]
  rw [hbefore, hafter] at hsum
  exact hsum

theorem pending_lt_markFuel (H : Heap F) (todo : List Handle) :
    todo.length + H.pending < H.markFuel todo := by
  have hle : H.pending ≤
      (H.slots.map fun s => ((s.value.map Value.children).getD []).length).sum := by
    refine List.sum_le_sum fun s _ => ?_
    rw [Slot.pending]
    split
    · exact Nat.zero_le _
    · exact Nat.le_refl _
  rw [markFuel]
  omega

/-! ### Marking -/

/-- Every reachable handle is live. -/
def Closed (H : Heap F) (roots : List Handle) : Prop :=
  ∀ h, H.Reaches roots h → ∃ v, H.lookup h = some v

/-- The marking loop finishes a search: it marks what can be reached. -/
theorem mark_spec {H₀ : Heap F} {roots : List Handle} (hclosed : H₀.Closed roots) {fuel : Nat}
    {H : Heap F} {todo : List Handle} (hre : Remarked H₀ H)
    (hsearch : Searching H₀.Points {h | h ∈ roots} H.marks todo)
    (hfuel : todo.length + H.pending < fuel) :
    ∃ K, H.mark fuel todo = (.ok (), K) ∧ Remarked H₀ K ∧
      ∀ h, h ∈ K.marks ↔ H₀.Reaches roots h := by
  induction fuel generalizing H todo with
  | zero => omega
  | succ fuel ih =>
      cases todo with
      | nil => exact ⟨H, rfl, hre, fun h => hsearch.finish⟩
      | cons h todo =>
          obtain ⟨v, hv₀⟩ := hclosed h (hsearch.todo_sound h List.mem_cons_self)
          have hv : H.lookup h = some v := by rw [hre.lookup, hv₀]
          obtain ⟨s, hs, hgen, hval⟩ := lookup_eq_some.mp hv
          have hslot : H.slot? h = some s := slot?_eq_some.mpr ⟨hs, hgen⟩
          simp only [List.length_cons] at hfuel
          obtain ⟨value, generation, marked, newtype, created, revision⟩ := s
          simp only at hval
          subst hval
          cases marked with
          | true =>
              have hmem : h ∈ H.marks := ⟨_, hslot, rfl, rfl⟩
              have hstep : H.mark (fuel + 1) (h :: todo) = H.mark fuel todo := by
                simp [mark, hslot]
              rw [hstep]
              exact ih hre (hsearch.skip hmem) (by omega)
          | false =>
              have hstep : H.mark (fuel + 1) (h :: todo) =
                  (H.setMark h).mark fuel (v.children.reverse ++ todo) := by
                simp [mark, hslot, setMark]
              rw [hstep]
              refine ih (hre.trans (remarked_setMark H h)) ?_ ?_
              · rw [marks_setMark hv]
                refine hsearch.visit fun k => ?_
                rw [List.mem_reverse]
                constructor
                · exact fun hk => ⟨v, hv₀, hk⟩
                · rintro ⟨w, hw, hk⟩
                  rw [hv₀] at hw
                  cases hw
                  exact hk
              · have := pending_setMark hs rfl rfl
                simp only [List.length_append, List.length_reverse]
                omega

/-! ### Sweeping -/

/-- A sweep fails for one reason only. -/
theorem sweep_error {slots : List (Slot F)} {i : Nat} {free : List Nat} {e : Fault}
    (h : (sweep i free slots).1 = .error e) : e = .error "heap generation exhausted" := by
  induction slots generalizing i free with
  | nil => cases h
  | cons s slots ih =>
      rw [sweep] at h
      split at h
      · split at h
        · exact ih h
        · cases h
          rfl
      · exact ih h

/-- A sweep that succeeds frees the unmarked slots, and pushes their indices. -/
theorem sweep_ok {slots : List (Slot F)} {i : Nat} {free : List Nat}
    (h : (sweep i free slots).1 = .ok ()) :
    (sweep i free slots).2.1 = slots.map Slot.swept ∧
      (∀ j, j ∈ (sweep i free slots).2.2 ↔
        j ∈ free ∨ ∃ s, i ≤ j ∧ slots[j - i]? = some s ∧ s.value.isSome ∧ ¬ s.marked) ∧
      (free.Nodup →
        (∀ j ∈ free, ∀ s, i ≤ j → slots[j - i]? = some s → ¬ (s.value.isSome ∧ ¬ s.marked)) →
        (sweep i free slots).2.2.Nodup) := by
  induction slots generalizing i free with
  | nil => simp [sweep]
  | cons s slots ih =>
      -- an index into the rest of the slots, and into all of them
      have hshift : ∀ j, i < j → (s :: slots)[j - i]? = slots[j - (i + 1)]? := by
        intro j hj
        obtain ⟨d, hd⟩ : ∃ d, j - i = d + 1 := ⟨j - i - 1, by omega⟩
        have hd' : j - (i + 1) = d := by omega
        rw [hd, hd', List.getElem?_cons_succ]
      by_cases hs : s.value.isSome ∧ ¬ s.marked
      · have hgen : s.generation + 1 < wrapU64 := by
          by_contra hgen
          simp [sweep, hs, hgen] at h
        have hrun : sweep i free (s :: slots) =
            ((sweep (i + 1) (i :: free) slots).1,
              s.swept :: (sweep (i + 1) (i :: free) slots).2.1,
              (sweep (i + 1) (i :: free) slots).2.2) := by
          simp [sweep, hs, hgen, Slot.swept]
        rw [hrun] at h ⊢
        obtain ⟨h₁, h₂, h₃⟩ := ih h
        refine ⟨by simp [h₁], fun j => ?_, fun hnd hfree => ?_⟩
        · rw [h₂]
          constructor
          · rintro (hj | ⟨t, hij, ht, hd⟩)
            · rcases List.mem_cons.mp hj with rfl | hj
              · exact Or.inr ⟨s, Nat.le_refl _, by simp, hs⟩
              · exact Or.inl hj
            · exact Or.inr ⟨t, by omega, by rw [hshift j (by omega)]; exact ht, hd⟩
          · rintro (hj | ⟨t, hij, ht, hd⟩)
            · exact Or.inl (List.mem_cons_of_mem _ hj)
            · rcases Nat.eq_or_lt_of_le hij with rfl | hlt
              · exact Or.inl List.mem_cons_self
              · exact Or.inr ⟨t, hlt, by rw [← hshift j hlt]; exact ht, hd⟩
        · refine h₃ (List.nodup_cons.mpr ⟨fun hi => ?_, hnd⟩) fun j hj t hij ht => ?_
          · exact hfree i hi s (Nat.le_refl _) (by simp) hs
          · rcases List.mem_cons.mp hj with rfl | hj
            · omega
            · exact hfree j hj t (by omega) (by rw [hshift j (by omega)]; exact ht)
      · have hrun : sweep i free (s :: slots) =
            ((sweep (i + 1) free slots).1, s.swept :: (sweep (i + 1) free slots).2.1,
              (sweep (i + 1) free slots).2.2) := by
          rw [sweep, if_neg hs, Slot.swept, if_neg hs]
        rw [hrun] at h ⊢
        obtain ⟨h₁, h₂, h₃⟩ := ih h
        refine ⟨by simp [h₁], fun j => ?_, fun hnd hfree => ?_⟩
        · rw [h₂]
          constructor
          · rintro (hj | ⟨t, hij, ht, hd⟩)
            · exact Or.inl hj
            · exact Or.inr ⟨t, by omega, by rw [hshift j (by omega)]; exact ht, hd⟩
          · rintro (hj | ⟨t, hij, ht, hd⟩)
            · exact Or.inl hj
            · rcases Nat.eq_or_lt_of_le hij with rfl | hlt
              · rw [Nat.sub_self, List.getElem?_cons_zero] at ht
                cases ht
                exact absurd hd hs
              · exact Or.inr ⟨t, hlt, by rw [← hshift j hlt]; exact ht, hd⟩
        · refine h₃ hnd fun j hj t hij ht => ?_
          exact hfree j hj t (by omega) (by rw [hshift j (by omega)]; exact ht)

/-- After a sweep exactly the marked handles are live. -/
theorem lookup_swept {H : Heap F} {slots : List (Slot F)}
    (hslots : slots = H.slots.map Slot.swept) {free : List Nat} {n : Nat} {h : Handle}
    {v : Value F} :
    ({ H with slots, free, collections := n } : Heap F).lookup h = some v ↔
      H.lookup h = some v ∧ h ∈ H.marks := by
  simp only [lookup_eq_some, hslots, List.getElem?_map, marks, Set.mem_ofPred_eq, slot?_eq_some]
  constructor
  · rintro ⟨t, ht, hgen, hval⟩
    obtain ⟨s, hs, rfl⟩ := Option.map_eq_some_iff.mp ht
    rw [Slot.swept] at hgen hval
    split at hval
    · cases hval
    · next hd =>
        rw [if_neg hd] at hgen
        have hv : s.value = some v := hval
        have hm : s.marked = true := by simpa [hv] using hd
        exact ⟨⟨s, hs, hgen, hv⟩, s, ⟨hs, hgen⟩, by simp [hv], hm⟩
  · rintro ⟨⟨s, hs, hgen, hval⟩, t, ⟨ht, -⟩, -, hm⟩
    rw [hs] at ht
    cases ht
    refine ⟨s.swept, by rw [hs, Option.map_some], ?_, ?_⟩
    · simp [Slot.swept, hm, hgen]
    · simp [Slot.swept, hm, hval]

/-- A sweep restores the representation invariant. -/
theorem rep_swept {H K : Heap F} (hH : H.Rep) (hre : Remarked H K)
    (h : (sweep 0 K.free K.slots).1 = .ok ()) (n : Nat) :
    ({ K with
      slots := (sweep 0 K.free K.slots).2.1
      free := (sweep 0 K.free K.slots).2.2
      collections := n } : Heap F).Rep := by
  obtain ⟨hslots, hfree, hnodup⟩ := sweep_ok h
  -- the slots of the old free list are still without a value
  have hdead : ∀ j ∈ K.free, ∃ s, K.slots[j]? = some s ∧ s.value = none := by
    intro j hj
    rw [hre.free] at hj
    obtain ⟨s, hs, hv⟩ := hH.free_dead j hj
    obtain ⟨m, hm⟩ := hre.symm.slot hs
    exact ⟨_, hm, hv⟩
  refine ⟨?_, ?_, ?_⟩
  · refine hnodup (by rw [hre.free]; exact hH.free_nodup) fun j hj s _ hs hd => ?_
    obtain ⟨t, ht, hv⟩ := hdead j hj
    rw [Nat.sub_zero, ht] at hs
    cases hs
    simp [hv] at hd
  · intro j hj
    rcases (hfree j).mp hj with hj | ⟨s, -, hs, hd⟩
    · obtain ⟨s, hs, hv⟩ := hdead j hj
      refine ⟨s.swept, by simp [hslots, hs], ?_⟩
      simp [Slot.swept, hv]
    · rw [Nat.sub_zero] at hs
      refine ⟨s.swept, by simp [hslots, hs], ?_⟩
      rw [Slot.swept, if_pos hd]
  · intro t ht
    rw [hslots] at ht
    obtain ⟨s, -, rfl⟩ := List.mem_map.mp ht
    rw [Slot.swept]
    split <;> rfl

/-! ### A collection -/

theorem reaches_reverse {H : Heap F} {roots : List Handle} {h : Handle} :
    H.Reaches roots.reverse h ↔ H.Reaches roots h := by
  simp only [Reaches, List.mem_reverse]

/-- A swept slot is what it was, or it has moved on to a later generation. -/
theorem swept_cases (s : Slot F) :
    (s.swept.generation = s.generation ∧ s.swept.value = s.value) ∨
      s.generation < s.swept.generation := by
  rw [Slot.swept]
  split
  · exact Or.inr (Nat.lt_succ_self _)
  · exact Or.inl ⟨rfl, rfl⟩

/-- What a collection frees stays dead. -/
theorem freed_swept {H K : Heap F} (hre : Remarked H K) {slots : List (Slot F)}
    (hslots : slots = K.slots.map Slot.swept) {free : List Nat} {n : Nat} (h : Handle) :
    (H.Freed h → ({ K with slots, free, collections := n } : Heap F).Freed h) ∧
      ∀ v, H.lookup h = some v →
        ({ K with slots, free, collections := n } : Heap F).lookup h = none →
        ({ K with slots, free, collections := n } : Heap F).Freed h := by
  have hswept : ∀ s, H.slots[h.index]? = some s → ∃ t, slots[h.index]? = some t ∧
      ((t.generation = s.generation ∧ t.value = s.value) ∨ s.generation < t.generation) := by
    intro s hs
    obtain ⟨m, hm⟩ := hre.symm.slot hs
    exact ⟨_, by simp [hslots, hm], swept_cases { s with marked := m }⟩
  constructor
  · rintro ⟨s, hs, hlt⟩
    obtain ⟨t, ht, ⟨hgen, -⟩ | hgen⟩ := hswept s hs
    · exact ⟨t, ht, by omega⟩
    · exact ⟨t, ht, by omega⟩
  · intro v hv hnone
    obtain ⟨s, hs, hgen, hval⟩ := lookup_eq_some.mp hv
    obtain ⟨t, ht, ⟨htgen, htval⟩ | hlt⟩ := hswept s hs
    · have hlive : ({ K with slots, free, collections := n } : Heap F).lookup h = some v :=
        lookup_eq_some.mpr ⟨t, ht, htgen.trans hgen, htval.trans hval⟩
      rw [hnone] at hlive
      cases hlive
    · exact ⟨t, ht, by omega⟩

/-- **Collection.**  When every handle that can be reached is live, a collection
leaves exactly those alive.  It can only fail because a slot has no generation
left, never because of a stale handle. -/
theorem collect_spec {H : Heap F} (hH : H.Rep) (hreads : H.reads = none)
    {roots : List Handle} (hclosed : H.Closed roots) :
    (∃ K, H.collect roots = (.ok (), K) ∧ K.Rep ∧ K.reads = none ∧
      (∀ h v, K.lookup h = some v ↔ H.lookup h = some v ∧ H.Reaches roots h) ∧
      (∀ h, H.Freed h → K.Freed h) ∧
      ∀ h v, H.lookup h = some v → K.lookup h = none → K.Freed h) ∨
    ∃ K, H.collect roots = (.error (.error "heap generation exhausted"), K) ∧
      K.reads = none := by
  have hcapture : roots ++ H.captureRoots = roots := by simp [captureRoots, hreads]
  have hclosed' : H.Closed roots.reverse := fun h hh => hclosed h (reaches_reverse.mp hh)
  have hempty : H.marks = ∅ := by
    ext h
    simp only [marks, Set.mem_ofPred_eq, Set.mem_empty_iff_false, iff_false]
    rintro ⟨s, hs, -, hm⟩
    have := hH.unmarked s (List.mem_of_getElem? (slot?_eq_some.mp hs).1)
    rw [hm] at this
    cases this
  have hsearch : Searching H.Points {h | h ∈ roots.reverse} H.marks roots.reverse := by
    rw [hempty]
    exact .start _
  obtain ⟨K, hmark, hre, hmarks⟩ :=
    mark_spec hclosed' (Remarked.refl H) hsearch (pending_lt_markFuel H _)
  rcases hsweep : sweep 0 K.free K.slots with ⟨e | ⟨⟩, slots, free⟩
  · right
    have hcollect : H.collect roots = (.error e, { K with slots, free }) := by
      simp only [collect, hcapture, hmark, hsweep]
    have he : e = .error "heap generation exhausted" := sweep_error (by rw [hsweep])
    rw [hcollect, he]
    exact ⟨_, rfl, by rw [← hreads, ← hre.reads]⟩
  · left
    have hcollect : H.collect roots =
        (.ok (), { K with slots, free, collections := K.collections + 1 }) := by
      simp only [collect, hcapture, hmark, hsweep]
    have hok : (sweep 0 K.free K.slots).1 = .ok () := by rw [hsweep]
    have hrep := rep_swept hH hre hok (K.collections + 1)
    have hslots := (sweep_ok hok).1
    rw [hsweep] at hrep hslots
    refine ⟨_, hcollect, hrep, by rw [← hreads, ← hre.reads], fun h v => ?_, ?_, ?_⟩
    · rw [lookup_swept hslots, hre.lookup, hmarks, reaches_reverse]
    · exact fun h => (freed_swept hre hslots h).1
    · exact fun h => (freed_swept hre hslots h).2

/-- Without roots there is nothing to trace, whatever the state of the heap. -/
theorem collect_nil {H : Heap F} (hreads : H.reads = none) :
    (H.collect []).2.reads = none ∧
      ∀ e, (H.collect []).1 = .error e → e = .error "heap generation exhausted" := by
  have hmark : ∀ fuel, H.mark fuel [] = (.ok (), H) := by
    intro fuel
    cases fuel <;> rfl
  have htodo : ([] ++ H.captureRoots).reverse = [] := by simp [captureRoots, hreads]
  simp only [collect, htodo, hmark]
  rcases hsweep : sweep 0 H.free H.slots with ⟨e | ⟨⟩, slots, free⟩
  · refine ⟨hreads, fun e' he => ?_⟩
    cases he
    exact sweep_error (by rw [hsweep])
  · exact ⟨hreads, nofun⟩

end Heap

end Deka.Vm
