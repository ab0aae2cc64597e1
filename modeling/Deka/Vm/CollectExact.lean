/-
Deka/Vm/CollectExact.lean

Collection over whole runs of a heap.

A run starts from the empty heap and allocates, writes, captures reads and collects, always
with live handles.  Then a collection keeps exactly the slots that can be reached from its
roots and from the read capture, as they are, and puts every other slot on the free list; a
handle of a freed slot is rejected from then on.  A collection gives up only when a slot it
would free has used up its generations.
-/
import Deka.Vm.Collect
import Deka.Vm.HeapTyping
import Deka.Vm.Sample

namespace Deka.Vm

open Deka.Lib

variable {F : Type}

/-- A slot that a collection has freed. -/
def Slot.freed (s : Slot F) : Slot F :=
  { s with value := none, newtype := none, generation := s.generation + 1 }

namespace Heap

/-! ### Runs -/

def Live (H : Heap F) (h : Handle) : Prop := ∃ v, H.lookup h = some v

/-- One step of the owner of a heap. -/
inductive Step [F64 F] : Heap F → Heap F → Prop
  | alloc {H : Heap F} (v : Value F) : (∀ k ∈ v.children, H.Live k) → Step H (H.alloc v).2
  | allocNewtype {H : Heap F} (v : Value F) (name : String) : (∀ k ∈ v.children, H.Live k) →
      Step H (H.allocNewtype v name).2
  | allocEnum {H : Heap F} (name case : String) (index : Nat) (value : Option Handle) :
      (∀ k ∈ value, H.Live k) → Step H ((HeapM.allocEnum name case index value).exec H).2
  /-- `get_mut`, and a new value through the reference -/
  | mutate {H : Heap F} {h : Handle} (v : Value F) : H.Live h → (∀ k ∈ v.children, H.Live k) →
      Step H ((H.touch h).write h v)
  | replace {H K : Heap F} {h : Handle} (v : Value F) : (∀ k ∈ v.children, H.Live k) →
      H.replace h v = .ok K → Step H K
  | collect {H K : Heap F} (roots : List Handle) : (∀ k ∈ roots, H.Live k) →
      H.collect roots = (.ok (), K) → Step H K
  | beginReads (H : Heap F) : Step H H.beginReads
  | observe {H K : Heap F} (object : Handle) (read : Read) : H.observe object read = .ok K →
      Step H K
  | markVolatile (H : Heap F) : Step H H.markVolatile
  | endReads {H K : Heap F} {d : Dependencies} : H.endReads = some (d, K) → Step H K

/-- The heaps of runs from the empty heap. -/
def Reachable [F64 F] (H : Heap F) : Prop := Relation.ReflTransGen Step ({} : Heap F) H

/-! ### The invariant -/

/-- The free list names exactly the slots without a value. -/
structure Tidy (H : Heap F) : Prop extends Rep H where
  dead_free : ∀ i s, H.slots[i]? = some s → s.value = none → i ∈ H.free

/-- Everything that is held is live. -/
structure Sound (H : Heap F) : Prop where
  tidy : H.Tidy
  closed : ∀ h v, H.lookup h = some v → ∀ k ∈ v.children, H.Live k
  captured : ∀ k ∈ H.captureRoots, H.Live k

theorem sound_empty : Sound ({} : Heap F) where
  tidy := ⟨rep_empty, fun i s hs _ => by simp at hs⟩
  closed h v hv := by simp [lookup, slot?] at hv
  captured k hk := by simp [captureRoots] at hk

/-- `Heap::stats().live` -/
def live (H : Heap F) : Nat := H.slots.length - H.free.length

/-- The positions of a list with a property are as many as its elements with it. -/
theorem length_filter_range {α : Type} (p : α → Bool) (l : List α) :
    ((List.range l.length).filter fun i => (l[i]?).any p).length = (l.filter p).length := by
  have hmap : (List.range l.length).map (fun i => l[i]?) = l.map some := by
    refine List.ext_getElem? fun i => ?_
    rcases Nat.lt_or_ge i l.length with hi | hi <;> simp [hi]
  have hfilter := congrArg (fun m => (m.filter (Option.any p)).length) hmap
  simpa [List.filter_map, Function.comp_def] using hfilter

theorem Tidy.mem_free {H : Heap F} (hH : H.Tidy) {i : Nat} :
    i ∈ H.free ↔ ∃ s, H.slots[i]? = some s ∧ s.value = none :=
  ⟨hH.free_dead i, fun ⟨s, hs, hv⟩ => hH.dead_free i s hs hv⟩

/-- The count of live slots is right. -/
theorem Tidy.live_eq {H : Heap F} (hH : H.Tidy) :
    H.live = (H.slots.filter fun s => s.value.isSome).length := by
  let dead : Slot F → Bool := fun s => s.value.isNone
  have hperm : H.free.Perm ((List.range H.slots.length).filter fun i => (H.slots[i]?).any dead) := by
    refine (List.perm_ext_iff_of_nodup hH.free_nodup (List.nodup_range.filter _)).mpr fun i => ?_
    rw [hH.mem_free, List.mem_filter, List.mem_range, Option.any_eq_true]
    constructor
    · rintro ⟨s, hs, hv⟩
      exact ⟨(List.getElem?_eq_some_iff.mp hs).1, s, hs, by simp [dead, hv]⟩
    · rintro ⟨-, s, hs, hv⟩
      exact ⟨s, hs, by simpa [dead] using hv⟩
  have hfree : H.free.length = (H.slots.filter dead).length := by
    rw [hperm.length_eq, length_filter_range]
  have hsplit := List.length_eq_length_filter_add (l := H.slots) fun s => s.value.isSome
  have hdead : (H.slots.filter fun s => !s.value.isSome) = H.slots.filter dead := by
    refine List.filter_congr fun s _ => ?_
    exact Option.not_isSome s.value
  rw [hdead] at hsplit
  rw [live, hfree]
  omega

/-! ### Allocation -/

theorem tidy_alloc {H : Heap F} (hH : H.Tidy) (v : Value F) : (H.alloc v).2.Tidy := by
  refine ⟨rep_alloc hH.toRep v, fun i s hs hv => ?_⟩
  rcases alloc_cases H hH.toRep v with ⟨j, free, t, hf, ht, htv, he⟩ | ⟨hf, he⟩
  · rw [he] at hs ⊢
    by_cases hij : j = i
    · subst hij
      rw [List.getElem?_set_self (List.getElem?_eq_some_iff.mp ht).1] at hs
      cases hs
      cases hv
    · rw [List.getElem?_set_ne hij] at hs
      have hfree := hH.dead_free i s hs hv
      rw [hf] at hfree
      exact (List.mem_cons.mp hfree).resolve_left (Ne.symm hij)
  · rw [he] at hs ⊢
    rcases List.mem_append.mp (List.mem_of_getElem? hs) with hmem | hmem
    · have hlt : i < H.slots.length := by
        by_contra hge
        rw [List.getElem?_append_right (by omega)] at hs
        have hsome := List.mem_singleton.mp (List.mem_of_getElem? hs)
        rw [hsome] at hv
        cases hv
      rw [List.getElem?_append_left hlt] at hs
      exact hH.dead_free i s hs hv
    · rw [List.mem_singleton.mp hmem] at hv
      cases hv

theorem live_alloc {H : Heap F} (hH : H.Rep) (v : Value F) {k : Handle} (hk : H.Live k) :
    (H.alloc v).2.Live k := by
  obtain ⟨w, hw⟩ := hk
  refine ⟨w, ?_⟩
  rw [lookup_alloc hH, if_neg ?_]
  · exact hw
  · rintro rfl
    rw [lookup_alloc_fresh hH] at hw
    cases hw

theorem live_alloc_self {H : Heap F} (hH : H.Rep) (v : Value F) :
    (H.alloc v).2.Live (H.alloc v).1 := ⟨v, by rw [lookup_alloc hH, if_pos rfl]⟩

theorem captureRoots_of_reads {H K : Heap F} (h : K.reads = H.reads) :
    K.captureRoots = H.captureRoots := by
  rw [captureRoots, captureRoots, h]

theorem sound_alloc {H : Heap F} (hH : H.Sound) {v : Value F}
    (hv : ∀ k ∈ v.children, H.Live k) : (H.alloc v).2.Sound where
  tidy := tidy_alloc hH.tidy v
  closed h w hw k hk := by
    apply live_alloc hH.tidy.toRep
    rw [lookup_alloc hH.tidy.toRep] at hw
    split at hw
    · cases hw
      exact hv k hk
    · exact hH.closed h w hw k hk
  captured k hk := by
    rw [captureRoots_of_reads (alloc_reads H v)] at hk
    exact live_alloc hH.tidy.toRep v (hH.captured k hk)

/-! ### Changes of single slots -/

/-- A change of one slot that keeps the lookups. -/
theorem sound_modifySlot {H : Heap F} (hH : H.Sound) (h : Handle) {f : Slot F → Slot F}
    (hgen : ∀ s, (f s).generation = s.generation) (hval : ∀ s, (f s).value = s.value)
    (hmark : ∀ s, (f s).marked = s.marked) : (H.modifySlot h f).Sound where
  tidy := by
    refine ⟨hH.tidy.toRep.modifySlot h (fun s hs => (hval s).trans hs)
      fun s hs => (hmark s).trans hs, fun i s hs hv => ?_⟩
    rw [modifySlot_slots, List.getElem?_modify, Option.map_eq_map, Option.map_eq_some_iff] at hs
    obtain ⟨t, ht, rfl⟩ := hs
    apply hH.tidy.dead_free i t ht
    split at hv
    · rw [← hval t]
      exact hv
    · exact hv
  closed k v hv j hj := by
    rw [lookup_modifySlot hgen hval] at hv
    obtain ⟨w, hw⟩ := hH.closed k v hv j hj
    exact ⟨w, by rw [lookup_modifySlot hgen hval]; exact hw⟩
  captured k hk := by
    obtain ⟨w, hw⟩ := hH.captured k hk
    exact ⟨w, by rw [lookup_modifySlot hgen hval]; exact hw⟩

/-- A change of the capture. -/
theorem sound_withReads {H : Heap F} (hH : H.Sound) {reads : Option Reads}
    (hreads : ∀ k ∈ ({ H with reads } : Heap F).captureRoots, H.Live k) :
    ({ H with reads } : Heap F).Sound where
  tidy := ⟨⟨hH.tidy.free_nodup, hH.tidy.free_dead, hH.tidy.unmarked⟩, hH.tidy.dead_free⟩
  closed := hH.closed
  captured := hreads

theorem sound_observeWrite {H : Heap F} (hH : H.Sound) (h : Handle) :
    (H.observeWrite h).Sound := by
  rw [observeWrite]
  split
  · rename_i reads hreads
    split
    · refine sound_withReads hH fun k hk => hH.captured k ?_
      simpa [captureRoots, hreads] using hk
    · exact hH
  · exact hH

theorem sound_touch {H : Heap F} (hH : H.Sound) (h : Handle) : (H.touch h).Sound :=
  sound_modifySlot (sound_observeWrite hH h) h (fun _ => rfl) (fun _ => rfl) fun _ => rfl

theorem live_write {H : Heap F} {h k : Handle} {v : Value F} (hh : H.Live h) (hk : H.Live k) :
    (H.write h v).Live k := by
  obtain ⟨w, hw⟩ := hh
  obtain ⟨x, hx⟩ := hk
  by_cases heq : k = h
  · exact ⟨v, by rw [lookup_write hw, if_pos heq]⟩
  · exact ⟨x, by rw [lookup_write hw, if_neg heq]; exact hx⟩

theorem sound_write {H : Heap F} (hH : H.Sound) {h : Handle} {v : Value F} (hh : H.Live h)
    (hv : ∀ k ∈ v.children, H.Live k) : (H.write h v).Sound := by
  obtain ⟨w, hw⟩ := hh
  refine ⟨⟨hH.tidy.toRep.write hw v, fun i s hs hnone => ?_⟩, fun k x hx j hj => ?_, fun k hk => ?_⟩
  · rw [write, modifySlot_slots, List.getElem?_modify, Option.map_eq_map,
      Option.map_eq_some_iff] at hs
    obtain ⟨t, ht, rfl⟩ := hs
    split at hnone
    · cases hnone
    · exact hH.tidy.dead_free i t ht hnone
  · apply live_write ⟨w, hw⟩
    rw [lookup_write hw] at hx
    split at hx
    · cases hx
      exact hv j hj
    · exact hH.closed k x hx j hj
  · exact live_write ⟨w, hw⟩ (hH.captured k hk)

/-! ### Captures -/

/-- What a read has seen is held by the object. -/
theorem observed_held {H : Heap F} {object h : Handle} {read : Read}
    (ho : H.observed object read = .ok (.address (some h))) :
    ∃ v, H.lookup object = some v ∧ h ∈ v.children := by
  rw [observed] at ho
  rcases hget : H.get object with e | v
  · rw [hget] at ho
    cases ho
  · refine ⟨v, get_eq_ok.mp hget, ?_⟩
    rw [hget] at ho
    simp only [bind, Except.bind, pure, Except.pure, Except.ok.injEq] at ho
    split at ho
    · cases ho
      exact List.mem_singleton_self _
    · rename_i name r
      exact BTreeMap.mem_values_of_get? (Observed.address.inj ho)
    · rename_i name fields
      exact BTreeMap.mem_values_of_get? (Observed.address.inj ho)
    · rename_i i items
      exact List.mem_of_getElem? (Observed.address.inj ho)
    · cases ho
    · cases ho

theorem live_of_observed {H : Heap F} (hH : H.Sound) {object : Handle} {read : Read}
    {observed : Observed} (ho : H.observed object read = .ok observed) :
    ∀ k ∈ Dependency.roots ⟨object, read, observed⟩, H.Live k := by
  have hobject : H.Live object := by
    rw [Heap.observed] at ho
    rcases hget : H.get object with e | v
    · rw [hget] at ho
      cases ho
    · exact ⟨v, get_eq_ok.mp hget⟩
  intro k hk
  rw [Dependency.roots] at hk
  split at hk
  · rename_i h hobserved
    rcases List.mem_cons.mp hk with rfl | hk
    · exact hobject
    · rw [List.mem_singleton.mp hk]
      obtain ⟨v, hv, hmem⟩ := observed_held (ho.trans (congrArg Except.ok hobserved))
      exact hH.closed object v hv h hmem
  · rw [List.mem_singleton.mp hk]
    exact hobject

theorem sound_observe {H K : Heap F} (hH : H.Sound) {object : Handle} {read : Read}
    (hK : H.observe object read = .ok K) : K.Sound := by
  rw [observe] at hK
  split at hK
  · cases hK
    exact hH
  · rename_i reads hreads
    rcases ho : H.observed object read with e | observed
    · rw [ho] at hK
      cases hK
    · rw [ho] at hK
      simp only [bind, Except.bind] at hK
      split at hK
      · cases hK
        refine sound_withReads hH fun k hk => ?_
        simp only [captureRoots, List.flatMap_append, List.flatMap_cons, List.flatMap_nil,
          List.append_nil, List.mem_append] at hk
        rcases hk with hk | hk
        · exact hH.captured k (by simpa [captureRoots, hreads] using hk)
        · exact live_of_observed hH ho k hk
      · cases hK
        exact hH

/-! ### Enums -/

theorem exec_alloc (v : Value F) (H : Heap F) :
    (HeapM.alloc v).exec H = (.ok (H.alloc v).1, (H.alloc v).2) := rfl

/-- An enum is a record over its label, its index and its value. -/
theorem allocEnum_eq [F64 F] (H : Heap F) (name case : String) (index : Nat)
    (value : Option Handle) :
    ∃ r : Record, ((HeapM.allocEnum name case index value).exec H).2 =
        (((H.alloc (.string case)).2.alloc (.number (F64.ofNat index))).2.alloc (.record r)).2 ∧
      ∀ k ∈ r.fields.values, k = (H.alloc (.string case)).1 ∨
        k = ((H.alloc (.string case)).2.alloc (.number (F64.ofNat index) : Value F)).1 ∨
        value = some k := by
  have hbase : ∀ k ∈ (Record.ofList [("name", (H.alloc (.string case)).1),
      ("index", ((H.alloc (.string case)).2.alloc
        (.number (F64.ofNat index) : Value F)).1)]).fields.values,
      k = (H.alloc (.string case)).1 ∨
        k = ((H.alloc (.string case)).2.alloc (.number (F64.ofNat index) : Value F)).1 := by
    intro k hk
    simpa using (Record.ofList_ordered _).2 k hk
  cases value with
  | none => exact ⟨_, rfl, fun k hk => (hbase k hk).imp_right .inl⟩
  | some h =>
    refine ⟨_, rfl, fun k hk => ?_⟩
    rcases Record.mem_values_insert hk with rfl | hk
    · exact .inr (.inr rfl)
    · exact (hbase k hk).imp_right .inl

theorem sound_allocEnum [F64 F] {H : Heap F} (hH : H.Sound) {name case : String} {index : Nat}
    {value : Option Handle} (hvalue : ∀ k ∈ value, H.Live k) :
    ((HeapM.allocEnum name case index value).exec H).2.Sound := by
  obtain ⟨r, heq, hr⟩ := allocEnum_eq H name case index value
  have hlabel := sound_alloc hH (v := .string case) fun k hk => absurd hk List.not_mem_nil
  have hindex := sound_alloc hlabel (v := .number (F64.ofNat index))
    fun k hk => absurd hk List.not_mem_nil
  rw [heq]
  refine sound_alloc hindex fun k hk => ?_
  rcases hr k hk with rfl | rfl | hk
  · exact live_alloc hlabel.tidy.toRep _ (live_alloc_self hH.tidy.toRep _)
  · exact live_alloc_self hlabel.tidy.toRep _
  · exact live_alloc hlabel.tidy.toRep _ (live_alloc hH.tidy.toRep _ (hvalue k hk))

/-! ### Collections -/

/-- What a collection with these roots keeps: what can be reached from them and from the
read capture. -/
def Keeps (H : Heap F) (roots : List Handle) (h : Handle) : Prop :=
  H.Reaches (roots ++ H.captureRoots) h

theorem Sound.reaches_live {H : Heap F} (hH : H.Sound) {roots : List Handle}
    (hroots : ∀ k ∈ roots, H.Live k) : H.Closed (roots ++ H.captureRoots) := by
  refine fun h hh => Reach.subset (C := {h | H.Live h}) (fun k hk => ?_) ?_ hh
  · exact (List.mem_append.mp hk).elim (hroots k) (hH.captured k)
  · rintro k - j ⟨v, hv, hmem⟩
    exact hH.closed k v hv j hmem

/-- The slot of a live handle that is kept is marked, and no other one with a value. -/
structure Marked (H K : Heap F) (roots : List Handle) : Prop where
  remarked : Remarked H K
  marks : ∀ h, h ∈ K.marks ↔ H.Keeps roots h

theorem exists_marked {H : Heap F} (hH : H.Sound) {roots : List Handle}
    (hroots : ∀ k ∈ roots, H.Live k) :
    ∃ K, H.mark (H.markFuel (roots ++ H.captureRoots).reverse) (roots ++ H.captureRoots).reverse =
      (.ok (), K) ∧ Marked H K roots := by
  have hclosed : H.Closed (roots ++ H.captureRoots).reverse :=
    fun h hh => hH.reaches_live hroots h (reaches_reverse.mp hh)
  have hempty : H.marks = ∅ := by
    ext h
    simp only [Heap.marks, Set.mem_ofPred_eq, Set.mem_empty_iff_false, iff_false]
    rintro ⟨s, hs, -, hm⟩
    have hunmarked := hH.tidy.unmarked s (List.mem_of_getElem? (slot?_eq_some.mp hs).1)
    rw [hm] at hunmarked
    cases hunmarked
  have hsearch : Searching H.Points {h | h ∈ (roots ++ H.captureRoots).reverse} H.marks
      (roots ++ H.captureRoots).reverse := by
    rw [hempty]
    exact .start _
  obtain ⟨K, hmark, hre, hmarks⟩ :=
    mark_spec hclosed (Remarked.refl H) hsearch (pending_lt_markFuel H _)
  exact ⟨K, hmark, hre, fun h => (hmarks h).trans reaches_reverse⟩

/-- Which slots are marked. -/
theorem Marked.slot {H K : Heap F} {roots : List Handle} (h : Marked H K roots) {i : Nat}
    {s : Slot F} (hs : H.slots[i]? = some s) :
    ∃ m, K.slots[i]? = some { s with marked := m } ∧
      (s.value.isSome = true → (m = true ↔ H.Keeps roots ⟨i, s.generation⟩)) := by
  obtain ⟨m, hm⟩ := h.remarked.symm.slot hs
  refine ⟨m, hm, fun hvalue => ?_⟩
  rw [← h.marks]
  constructor
  · rintro rfl
    exact ⟨_, slot?_eq_some.mpr ⟨hm, rfl⟩, hvalue, rfl⟩
  · rintro ⟨t, ht, -, hmarked⟩
    rw [(slot?_eq_some.mp ht).1] at hm
    cases hm
    exact hmarked

/-- A sweep fails exactly when it would free a slot that has no generation left. -/
theorem sweep_error_iff {slots : List (Slot F)} {i : Nat} {free : List Nat} :
    (∃ e, (sweep i free slots).1 = .error e) ↔
      ∃ s ∈ slots, s.value.isSome = true ∧ s.marked = false ∧ wrapU64 ≤ s.generation + 1 := by
  induction slots generalizing i free with
  | nil => simp [sweep]
  | cons s slots ih =>
    simp only [List.mem_cons, exists_eq_or_imp]
    by_cases hs : s.value.isSome ∧ ¬ s.marked
    · by_cases hgen : s.generation + 1 < wrapU64
      · have hrun : (sweep i free (s :: slots)).1 = (sweep (i + 1) (i :: free) slots).1 := by
          simp [sweep, hs, hgen]
        rw [hrun, ih]
        refine ⟨.inr, fun h => h.resolve_left ?_⟩
        rintro ⟨-, -, hle⟩
        exact absurd hgen (by omega)
      · have hrun : (sweep i free (s :: slots)).1 =
            .error (.error "heap generation exhausted") := by
          simp [sweep, hs, hgen]
        rw [hrun]
        exact ⟨fun _ => .inl ⟨hs.1, by simpa using hs.2, by omega⟩, fun _ => ⟨_, rfl⟩⟩
    · have hrun : (sweep i free (s :: slots)).1 = (sweep (i + 1) free slots).1 := by
        rw [sweep, if_neg hs]
      rw [hrun, ih]
      refine ⟨.inr, fun h => h.resolve_left ?_⟩
      rintro ⟨hv, hm, -⟩
      exact hs ⟨hv, by simp [hm]⟩

/-- `K` is what a collection makes of `H`: the slots that are kept are as they were, the
others hold no value and are free. -/
structure Collected (H K : Heap F) (roots : List Handle) : Prop where
  length : K.slots.length = H.slots.length
  kept : ∀ (i : Nat) (s : Slot F), H.slots[i]? = some s → s.value.isSome = true → H.Keeps roots ⟨i, s.generation⟩ →
    K.slots[i]? = some s
  freed : ∀ (i : Nat) (s : Slot F), H.slots[i]? = some s → s.value.isSome = true →
    ¬ H.Keeps roots ⟨i, s.generation⟩ → K.slots[i]? = some s.freed
  dead : ∀ (i : Nat) (s : Slot F), H.slots[i]? = some s → s.value = none → K.slots[i]? = some s
  tidy : K.Tidy

/-- A slot that would be freed has used up its generations. -/
def Exhausted (H : Heap F) (roots : List Handle) : Prop :=
  ∃ i s, H.slots[i]? = some s ∧ s.value.isSome = true ∧ ¬ H.Keeps roots ⟨i, s.generation⟩ ∧
    wrapU64 ≤ s.generation + 1

theorem Marked.exhausted_iff {H K : Heap F} {roots : List Handle} (h : Marked H K roots) :
    (∃ s ∈ K.slots, s.value.isSome = true ∧ s.marked = false ∧ wrapU64 ≤ s.generation + 1) ↔
      H.Exhausted roots := by
  constructor
  · rintro ⟨t, ht, hvalue, hmark, hgen⟩
    obtain ⟨i, hi⟩ := List.mem_iff_getElem?.mp ht
    obtain ⟨m, hm⟩ := h.remarked.slot hi
    obtain ⟨m', hm', hkeeps⟩ := h.slot hm
    rw [hi] at hm'
    refine ⟨i, _, hm, hvalue, fun hkept => ?_, hgen⟩
    have htrue := (hkeeps hvalue).mpr hkept
    rw [Option.some.inj hm'] at hmark
    rw [show m' = false from hmark] at htrue
    cases htrue
  · rintro ⟨i, s, hs, hvalue, hkeeps, hgen⟩
    obtain ⟨m, hm, hiff⟩ := h.slot hs
    refine ⟨_, List.mem_of_getElem? hm, hvalue, ?_, hgen⟩
    exact Bool.eq_false_iff.mpr fun hmark => hkeeps ((hiff hvalue).mp hmark)

/-- The slots after a sweep that succeeds. -/
theorem Marked.collected {H K : Heap F} {roots : List Handle} (hH : H.Sound)
    (h : Marked H K roots) (hsweep : (sweep 0 K.free K.slots).1 = .ok ()) (n : Nat) :
    Collected H { K with
      slots := (sweep 0 K.free K.slots).2.1
      free := (sweep 0 K.free K.slots).2.2
      collections := n } roots := by
  obtain ⟨hslots, hfree, -⟩ := sweep_ok hsweep
  have hslot : ∀ (i : Nat) (s : Slot F), H.slots[i]? = some s → ∃ m,
      (sweep 0 K.free K.slots).2.1[i]? = some ({ s with marked := m } : Slot F).swept ∧
        (s.value.isSome = true → (m = true ↔ H.Keeps roots ⟨i, s.generation⟩)) := by
    intro i s hs
    obtain ⟨m, hm, hiff⟩ := h.slot hs
    exact ⟨m, by rw [hslots, List.getElem?_map, hm]; rfl, hiff⟩
  have hunmarked : ∀ (i : Nat) (s : Slot F), H.slots[i]? = some s → s.marked = false :=
    fun i s hs => hH.tidy.unmarked s (List.mem_of_getElem? hs)
  have hsame : ∀ (i : Nat) (s : Slot F), H.slots[i]? = some s → ({ s with marked := false } : Slot F) = s := by
    intro i s hs
    have := hunmarked i s hs
    cases s
    simp_all
  refine ⟨?_, ?_, ?_, ?_, rep_swept hH.tidy.toRep h.remarked hsweep n, ?_⟩
  · have hlength := congrArg List.length h.remarked.slots
    simpa [hslots] using hlength
  · intro i s hs hvalue hkept
    obtain ⟨m, hm, hiff⟩ := hslot i s hs
    rw [(hiff hvalue).mpr hkept] at hm
    refine hm.trans (congrArg some ?_)
    rw [Slot.swept, if_neg (by simp)]
    exact hsame i s hs
  · intro i s hs hvalue hkept
    obtain ⟨m, hm, hiff⟩ := hslot i s hs
    have hmark : m = false := Bool.eq_false_iff.mpr fun hmark => hkept ((hiff hvalue).mp hmark)
    rw [hmark] at hm
    refine hm.trans (congrArg some ?_)
    rw [Slot.swept, if_pos ⟨hvalue, by simp⟩, Slot.freed, ← hunmarked i s hs]
  · intro i s hs hvalue
    obtain ⟨m, hm, -⟩ := hslot i s hs
    refine hm.trans (congrArg some ?_)
    rw [Slot.swept, if_neg (by simp [hvalue])]
    exact hsame i s hs
  · intro i t ht hvalue
    have ht' : K.slots[i]?.map Slot.swept = some t := by
      rw [← List.getElem?_map, ← hslots]
      exact ht
    obtain ⟨u, hu, rfl⟩ := Option.map_eq_some_iff.mp ht'
    rw [hfree]
    by_cases hd : u.value.isSome ∧ ¬ u.marked
    · exact .inr ⟨u, Nat.zero_le i, hu, hd⟩
    · left
      rw [Slot.swept, if_neg hd] at hvalue
      obtain ⟨m, hm⟩ := h.remarked.slot hu
      rw [h.remarked.free]
      exact hH.tidy.dead_free i _ hm hvalue

/-- **Collection.**  It keeps what can be reached and frees the rest, or gives up because a
slot it would free has no generation left. -/
theorem collect_exact {H : Heap F} (hH : H.Sound) {roots : List Handle}
    (hroots : ∀ k ∈ roots, H.Live k) :
    ((∃ e K, H.collect roots = (.error e, K)) ↔ H.Exhausted roots) ∧
      ∀ K, H.collect roots = (.ok (), K) →
        Collected H K roots ∧ K.reads = H.reads ∧
          (∀ h v, K.lookup h = some v ↔ H.lookup h = some v ∧ H.Keeps roots h) ∧
          ∀ h, H.Freed h → K.Freed h := by
  obtain ⟨M, hmark, hmarked⟩ := exists_marked hH hroots
  rcases hsweep : sweep 0 M.free M.slots with ⟨e | ⟨⟩, slots, free⟩
  · have hcollect : H.collect roots = (.error e, { M with slots, free }) := by
      simp only [collect, hmark, hsweep]
    have hexhausted := hmarked.exhausted_iff.mp (sweep_error_iff.mp ⟨e, by rw [hsweep]⟩)
    refine ⟨⟨fun _ => hexhausted, fun _ => ⟨e, _, hcollect⟩⟩, fun K hK => ?_⟩
    rw [hcollect] at hK
    cases hK
  · have hcollect : H.collect roots =
        (.ok (), { M with slots, free, collections := M.collections + 1 }) := by
      simp only [collect, hmark, hsweep]
    have hok : (sweep 0 M.free M.slots).1 = .ok () := by rw [hsweep]
    have hnot : ¬ H.Exhausted roots := fun h => by
      obtain ⟨e, he⟩ := sweep_error_iff.mpr (hmarked.exhausted_iff.mpr h)
      rw [hok] at he
      cases he
    have hslots := (sweep_ok hok).1
    have hcollected := hmarked.collected hH hok (M.collections + 1)
    rw [hsweep] at hcollected hslots
    constructor
    · refine ⟨?_, fun h => absurd h hnot⟩
      rintro ⟨e, K, hK⟩
      rw [hcollect] at hK
      cases hK
    · intro K hK
      rw [hcollect] at hK
      cases hK
      refine ⟨hcollected, hmarked.remarked.reads, fun h v => ?_, fun h => ?_⟩
      · rw [lookup_swept hslots, hmarked.remarked.lookup, hmarked.marks]
      · exact (freed_swept hmarked.remarked hslots h).1

theorem sound_collect {H K : Heap F} (hH : H.Sound) {roots : List Handle}
    (hroots : ∀ k ∈ roots, H.Live k) (hK : H.collect roots = (.ok (), K)) : K.Sound := by
  obtain ⟨hcollected, hreads, hlookup, -⟩ := (collect_exact hH hroots).2 K hK
  have hlive : ∀ k, H.Live k → H.Keeps roots k → K.Live k :=
    fun k ⟨v, hv⟩ hkept => ⟨v, (hlookup k v).mpr ⟨hv, hkept⟩⟩
  refine ⟨hcollected.tidy, fun h v hv k hk => ?_, fun k hk => ?_⟩
  · obtain ⟨hvH, hkept⟩ := (hlookup h v).mp hv
    exact hlive k (hH.closed h v hvH k hk) (.step hkept ⟨v, hvH, hk⟩)
  · rw [captureRoots_of_reads hreads] at hk
    exact hlive k (hH.captured k hk) (.root (List.mem_append_right _ hk))

/-! ### Steps -/

theorem replace_eq_ok {H K : Heap F} {h : Handle} {v : Value F} (hK : H.replace h v = .ok K) :
    H.Live h ∧ K = (H.touch h).write h v := by
  rw [replace] at hK
  rcases hget : H.get h with e | w
  · rw [hget] at hK
    cases hK
  · rw [hget] at hK
    cases hK
    exact ⟨⟨w, get_eq_ok.mp hget⟩, rfl⟩

theorem sound_mutate {H : Heap F} (hH : H.Sound) {h : Handle} {v : Value F} (hh : H.Live h)
    (hv : ∀ k ∈ v.children, H.Live k) : ((H.touch h).write h v).Sound := by
  have hlive : ∀ k, H.Live k → (H.touch h).Live k :=
    fun k ⟨w, hw⟩ => ⟨w, by rw [lookup_touch]; exact hw⟩
  exact sound_write (sound_touch hH h) (hlive h hh) fun k hk => hlive k (hv k hk)

theorem sound_step [F64 F] {H K : Heap F} (hstep : Step H K) (hH : H.Sound) : K.Sound := by
  cases hstep with
  | alloc v hv => exact sound_alloc hH hv
  | allocNewtype v name hv =>
    exact sound_modifySlot (sound_alloc hH hv) _ (fun _ => rfl) (fun _ => rfl) fun _ => rfl
  | allocEnum name case index value hvalue => exact sound_allocEnum hH hvalue
  | mutate v hh hv => exact sound_mutate hH hh hv
  | replace v hv hK =>
    obtain ⟨hh, rfl⟩ := replace_eq_ok hK
    exact sound_mutate hH hh hv
  | collect roots hroots hK => exact sound_collect hH hroots hK
  | beginReads => exact sound_withReads hH fun k hk => absurd hk List.not_mem_nil
  | observe object read hK => exact sound_observe hH hK
  | markVolatile =>
    refine sound_withReads hH fun k hk => hH.captured k ?_
    rcases hreads : H.reads with - | reads
    · simp [captureRoots, hreads] at hk
    · simpa [captureRoots, hreads] using hk
  | endReads hK =>
    obtain ⟨reads, -, hpair⟩ := Option.map_eq_some_iff.mp hK
    cases hpair
    exact sound_withReads hH fun k hk => absurd hk List.not_mem_nil

/-- Steps keep the generations of the slots, or raise them. -/
def Later (H K : Heap F) : Prop := ∀ h, H.Freed h → K.Freed h

theorem later_alloc {H : Heap F} (hH : H.Rep) (v : Value F) : Later H (H.alloc v).2 := by
  rintro h ⟨s, hs, hlt⟩
  rcases alloc_cases H hH v with ⟨i, free, t, -, ht, -, he⟩ | ⟨-, he⟩
  · rw [he]
    by_cases hi : i = h.index
    · subst hi
      rw [ht] at hs
      cases hs
      exact ⟨_, List.getElem?_set_self (List.getElem?_eq_some_iff.mp ht).1, hlt⟩
    · exact ⟨s, (List.getElem?_set_ne hi).trans hs, hlt⟩
  · rw [he]
    refine ⟨s, ?_, hlt⟩
    exact (List.getElem?_append_left (List.getElem?_eq_some_iff.mp hs).1).trans hs

theorem later_modifySlot {H : Heap F} (h : Handle) {f : Slot F → Slot F}
    (hgen : ∀ s, (f s).generation = s.generation) : Later H (H.modifySlot h f) := by
  rintro k ⟨s, hs, hlt⟩
  by_cases hi : h.index = k.index
  · exact ⟨f s, by simp [hi, hs], by rw [hgen]; exact hlt⟩
  · exact ⟨s, by simp [hi, hs], hlt⟩

theorem later_observeWrite (H : Heap F) (h : Handle) : Later H (H.observeWrite h) := by
  intro k hk
  rw [observeWrite]
  split
  · split <;> exact hk
  · exact hk

theorem later_mutate (H : Heap F) (h : Handle) (v : Value F) :
    Later H ((H.touch h).write h v) := by
  intro k hk
  have htouch := later_modifySlot h (f := fun s => { s with revision := (s.revision + 1) % wrapU64 })
    (fun _ => rfl) k (later_observeWrite H h k hk)
  exact later_modifySlot h (f := fun s => { s with value := some v }) (fun _ => rfl) k htouch

theorem later_step [F64 F] {H K : Heap F} (hstep : Step H K) (hH : H.Sound) : Later H K := by
  cases hstep with
  | alloc v hv => exact later_alloc hH.tidy.toRep v
  | allocNewtype v name hv =>
    exact fun h hh => later_modifySlot _ (f := fun s => { s with newtype := some name })
      (fun _ => rfl) h (later_alloc hH.tidy.toRep v h hh)
  | allocEnum name case index value hvalue =>
    obtain ⟨r, heq, -⟩ := allocEnum_eq H name case index value
    have hlabel := tidy_alloc hH.tidy (.string case)
    have hindex := tidy_alloc hlabel (.number (F64.ofNat index))
    rw [heq]
    exact fun h hh => later_alloc hindex.toRep _ h
      (later_alloc hlabel.toRep _ h (later_alloc hH.tidy.toRep _ h hh))
  | mutate v hh hv => exact later_mutate H _ v
  | replace v hv hK =>
    obtain ⟨-, rfl⟩ := replace_eq_ok hK
    exact later_mutate H _ v
  | collect roots hroots hK => exact ((collect_exact hH hroots).2 K hK).2.2.2
  | beginReads | markVolatile => exact fun _ hh => hh
  | observe object read hK =>
    rw [Heap.observe] at hK
    split at hK
    · cases hK
      exact fun _ hh => hh
    · rcases ho : H.observed object read with e | observed
      · rw [ho] at hK
        cases hK
      · rw [ho] at hK
        simp only [bind, Except.bind] at hK
        split at hK <;> cases hK <;> exact fun _ hh => hh
  | endReads hK =>
    obtain ⟨reads, -, hpair⟩ := Option.map_eq_some_iff.mp hK
    cases hpair
    exact fun _ hh => hh

theorem Reachable.sound [F64 F] {H : Heap F} (h : H.Reachable) : H.Sound := by
  induction h with
  | refl => exact sound_empty
  | tail _ hstep ih => exact sound_step hstep ih

/-- A freed handle is rejected from then on. -/
theorem freed_of_steps [F64 F] {H K : Heap F} (hsteps : Relation.ReflTransGen Step H K)
    (hH : H.Sound) {h : Handle} (hh : H.Freed h) : K.Freed h := by
  have hboth : K.Sound ∧ K.Freed h := by
    induction hsteps with
    | refl => exact ⟨hH, hh⟩
    | tail _ hstep ih => exact ⟨sound_step hstep ih.1, later_step hstep ih.1 h ih.2⟩
  exact hboth.2

theorem Freed.rejected {H : Heap F} {h : Handle} (hh : H.Freed h) :
    H.get h = .error .stale ∧ (∀ v, H.replace h v = .error .stale) ∧
      ∀ (α : Type) (f : Value F → Except Fault (Value F × α)),
        (HeapM.mutate h f).exec H = (.error .stale, H) := by
  have hget : H.get h = .error .stale := by rw [get, hh.lookup]
  refine ⟨hget, fun v => ?_, fun α f => ?_⟩
  · rw [replace, hget]
    rfl
  · simp only [HeapM.mutate, Prog.exec_ofExec, hget]

/-- A heap of one slot, allocated and freed `n` times and allocated once more. -/
theorem reachable_reused (n : Nat) (hn : n < wrapU64) :
    ∃ (H : Heap Int) (c : Nat), H.Reachable ∧ H.slots = [⟨some .unit, n, false, none, c, 0⟩] ∧
      H.free = [] ∧ H.reads = none := by
  induction n with
  | zero =>
    exact ⟨_, _, .single (.alloc .unit fun k hk => absurd hk List.not_mem_nil), rfl, rfl, rfl⟩
  | succ n ih =>
    obtain ⟨⟨slots, free, collections, allocations, reads⟩, c, hreachable, rfl, rfl, rfl⟩ :=
      ih (by omega)
    have hcollect := hreachable.tail (.collect (K := ⟨[⟨none, n + 1, false, none, c, 0⟩], [0],
      collections + 1, allocations, none⟩) [] (fun k hk => absurd hk List.not_mem_nil)
      (by simp [collect, captureRoots, mark, markFuel, sweep, hn]))
    exact ⟨_, _, hcollect.tail (.alloc .unit fun k hk => absurd hk List.not_mem_nil), rfl, rfl, rfl⟩

end Heap

end Deka.Vm
