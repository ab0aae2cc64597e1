/-
Deka/Vm/JoinTyping.lean

Typing rules for joins.

The first outcome a join has seen is no root of a collection.  It stays good
because it is the outcome of an input, which is a root: a scan records the input
as settled with that outcome (`Ref.settled`), and the value is looked up there when
the join is concluded.
-/
import Deka.Vm.StepTyping

namespace Deka.Vm

open Deka.Lib

set_option linter.dupNamespace false

variable {F σ : Type} {p : Program F} {Γ : Set Ref} {sites : PanicSite → Prop}
  {hosts : Hosts F σ} {running : Option (Nat × Handle)}

/-! ### Steps of a scan -/

namespace Join

@[simp] theorem keep_inputs (join : Join) (outcome : Outcome) :
    (join.keep outcome).inputs = join.inputs := by
  unfold keep
  split <;> rfl

@[simp] theorem keep_cursor (join : Join) (outcome : Outcome) :
    (join.keep outcome).cursor = join.cursor := by
  unfold keep
  split <;> rfl

@[simp] theorem keep_first (join : Join) (outcome : Outcome) :
    (join.keep outcome).first = join.first := by
  unfold keep
  split <;> rfl

@[simp] theorem keep_kind (join : Join) (outcome : Outcome) :
    (join.keep outcome).kind = join.kind := by
  unfold keep
  split <;> rfl

theorem keep_refs (join : Join) (outcome : Outcome) :
    (join.keep outcome).refs ⊆ join.refs ∪ {.val outcome.handle} := by
  rintro r ((hr | ⟨k, hk, rfl⟩) | ⟨x, h, hx, hi, rfl⟩)
  · rw [keep_inputs] at hr
    exact Or.inl (Or.inl (Or.inl hr))
  · obtain ⟨o, ho, he⟩ := List.mem_filterMap.mp hk
    clear hk
    unfold keep at ho
    split at ho
    · rcases List.mem_or_eq_of_mem_set ho with ho | rfl
      · exact Or.inl (Or.inl (Or.inr ⟨k, List.mem_filterMap.mpr ⟨o, ho, he⟩, rfl⟩))
      · cases he
        exact Or.inr rfl
    · exact Or.inl (Or.inl (Or.inr ⟨k, List.mem_filterMap.mpr ⟨o, ho, he⟩, rfl⟩))
  · rw [keep_first] at hx
    rw [keep_inputs] at hi
    exact Or.inl (Or.inr ⟨x, h, hx, hi, rfl⟩)

theorem WellFormed.keep {join : Join} (h : join.WellFormed) (outcome : Outcome) :
    (join.keep outcome).WellFormed := by
  refine ⟨?_, ?_⟩
  · rw [keep_inputs]
    unfold Join.keep
    split
    · rw [List.length_set, h.1]
    · exact h.1
  · rw [keep_first, keep_inputs]
    exact h.2

/-- A candidate replaces the first outcome or leaves it. -/
theorem candidate_cases (join : Join) (order : Nat) (outcome : Outcome) :
    join.candidate order outcome = join ∨ ∃ n, join.candidate order outcome =
      { join with first := some (n, join.cursor, outcome) } := by
  rw [candidate]
  generalize (if order ≤ join.createdEpoch then 0 else order) = n
  split
  · exact Or.inr ⟨n, rfl⟩
  · split
    · exact Or.inr ⟨_, rfl⟩
    · exact Or.inl rfl

theorem candidate_inputs (join : Join) (order : Nat) (outcome : Outcome) :
    (join.candidate order outcome).inputs = join.inputs := by
  rcases join.candidate_cases order outcome with h | ⟨n, h⟩ <;> rw [h]

theorem candidate_cursor (join : Join) (order : Nat) (outcome : Outcome) :
    (join.candidate order outcome).cursor = join.cursor := by
  rcases join.candidate_cases order outcome with h | ⟨n, h⟩ <;> rw [h]

theorem candidate_refs {join : Join} {promise : Handle}
    (hi : join.inputs[join.cursor]? = some promise) (order : Nat) (outcome : Outcome) :
    (join.candidate order outcome).refs ⊆ join.refs ∪ {.settled promise (.ok outcome)} := by
  rcases join.candidate_cases order outcome with h | ⟨n, h⟩
  · rw [h]
    exact Set.subset_union_left
  · rw [h]
    rintro r ((hr | hr) | ⟨x, k, hx, hk, rfl⟩)
    · exact Or.inl (Or.inl (Or.inl hr))
    · exact Or.inl (Or.inl (Or.inr hr))
    · cases hx
      have hk : join.inputs[join.cursor]? = some k := hk
      rw [hi] at hk
      cases hk
      exact Or.inr rfl

theorem WellFormed.candidate {join : Join} (h : join.WellFormed) {promise : Handle}
    (hi : join.inputs[join.cursor]? = some promise) (order : Nat) (outcome : Outcome) :
    (join.candidate order outcome).WellFormed := by
  rcases join.candidate_cases order outcome with he | ⟨n, he⟩
  · rw [he]
    exact h
  · rw [he]
    refine ⟨h.1, fun x hx => ?_⟩
    cases hx
    exact ⟨promise, hi⟩

end Join

/-! ### Rules -/

/-- A look at a promise learns how it settled. -/
theorem HeapM.typed_getPromise {h : Handle} (hh : Ref.val h ∈ Γ) :
    Typed (heapTheory p sites) Γ (get h) (fun v => v.WellFormed p ∧ v.isCell = false)
      fun v => v.refs ∪ {r | ∃ o, v = .promise (some o) ∧ r = .settled h o} := by
  refine Typed.reads ?_ ?_
  · intro H v hH hΓ hv
    obtain ⟨w, hw, hc⟩ := hΓ _ hh
    rw [Heap.get_eq_ok, hw] at hv
    cases hv
    refine ⟨⟨hH.wellFormed h v hw, hc⟩, ?_⟩
    rintro r (hr | ⟨o, rfl, rfl⟩)
    · exact hH.good h v hw r hr
    · exact hw
  · intro H e hH hΓ he
    obtain ⟨w, hw, -⟩ := hΓ _ hh
    rw [Heap.get_of_lookup hw] at he
    cases he

namespace M

theorem typed_visitInput {join : Join} {promise : Handle} (hwf : join.WellFormed)
    (hi : join.inputs[join.cursor]? = some promise) (hrefs : join.refs ⊆ Γ) :
    Typed (vmTheory p hosts sites running) Γ (visitInput join promise : M F σ Join)
      (fun j => j.WellFormed ∧ j.inputs = join.inputs ∧ j.cursor = join.cursor)
      Join.refs := by
  have hpromise : Ref.val promise ∈ Γ :=
    hrefs (Or.inl (Or.inl (val_mem_vals.mpr (List.mem_of_getElem? hi))))
  have hi' : ∀ outcome, (join.keep outcome).inputs[(join.keep outcome).cursor]? =
      some promise := by
    intro outcome
    rw [Join.keep_inputs, Join.keep_cursor, hi]
  refine Typed.bind (typed_liftHeap (HeapM.typed_getPromise hpromise)) fun v hv => ?_
  split
  · obtain ⟨⟨message, rfl⟩, -⟩ := hv
    exact typed_error _
  · next outcome =>
      have hkeep : (join.keep outcome).refs ⊆
          Γ ∪ ((Value.promise (some (.ok outcome)) : Value F).refs ∪
            {r | ∃ o, (Value.promise (some (.ok outcome)) : Value F) = .promise (some o) ∧
              r = .settled promise o}) := by
        intro r hr
        rcases Join.keep_refs join outcome hr with hr | hr
        · exact Or.inl (hrefs hr)
        · exact Or.inr (Or.inl hr)
      dsimp only
      split
      · refine Typed.bind typed_vm fun vm _ => ?_
        split
        · next order _ =>
            refine Typed.pure ⟨(hwf.keep outcome).candidate (hi' outcome) order outcome, ?_, ?_⟩ ?_
            · rw [Join.candidate_inputs, Join.keep_inputs]
            · rw [Join.candidate_cursor, Join.keep_cursor]
            · intro r hr
              rcases Join.candidate_refs (hi' outcome) order outcome hr with hr | rfl
              · exact Or.inl (hkeep hr)
              · exact Or.inl (Or.inr (Or.inr ⟨_, rfl, rfl⟩))
        · exact typed_error _
      · exact Typed.pure ⟨hwf.keep outcome, Join.keep_inputs _ _, Join.keep_cursor _ _⟩ hkeep
  · exact Typed.pure ⟨hwf, rfl, rfl⟩ fun r hr => Or.inl (hrefs hr)
  · exact typed_error _

theorem typed_scanInputs {count : Nat} :
    ∀ {Γ : Set Ref} {join : Join} (remaining : Nat), join.WellFormed → join.refs ⊆ Γ →
      Typed (vmTheory p hosts sites running) Γ
        (scanInputs count join remaining : M F σ (Join × Nat))
        (fun r => r.1.WellFormed) fun r => r.1.refs := by
  induction count with
  | zero => exact fun remaining hwf hrefs => Typed.pure hwf hrefs
  | succ count ih =>
      intro Γ join remaining hwf hrefs
      rw [scanInputs]
      split
      · exact Typed.pure hwf hrefs
      · next promise hi =>
          refine Typed.bind (typed_visitInput hwf hi hrefs) fun j hj => ?_
          refine ih _ ⟨hj.1.1, hj.1.2⟩ ?_
          exact fun r hr => Or.inr hr

theorem typed_concludeJoin {join : Join} (hwf : join.WellFormed) (hrefs : join.refs ⊆ Γ) :
    Typed (vmTheory p hosts sites running) Γ
      (concludeJoin join : M F σ (Join × Option Outcome)) (fun r => r.1.WellFormed)
      fun r => r.1.refs ∪ {x | ∃ o, r.2 = some o ∧ x = .val o.handle} := by
  have hnone : ∀ {j : Join}, j.refs ⊆ join.refs →
      (j.refs ∪ {x | ∃ o : Outcome, (none : Option Outcome) = some o ∧ x = .val o.handle}) ⊆
        Γ := by
    rintro j hj r (hr | ⟨o, ho, -⟩)
    · exact hrefs (hj hr)
    · cases ho
  rw [concludeJoin]
  split
  · exact Typed.pure hwf (hnone (Set.Subset.refl _))
  · split
    · next order index outcome hfirst =>
        split
        · exact Typed.pure hwf (hnone (Set.Subset.refl _))
        · obtain ⟨promise, hi⟩ := hwf.2 _ hfirst
          have hsettled : Ref.settled promise (.ok outcome) ∈ Γ :=
            hrefs (Or.inr ⟨_, promise, hfirst, hi, rfl⟩)
          intro s hs hΓ
          -- the outcome of a settled promise is good
          have hlookup : s.vm.heap.lookup promise = some (.promise (some (.ok outcome))) :=
            hΓ _ hsettled
          refine ⟨hs, Extends.refl s, ⟨hwf.1, fun x hx => by cases hx⟩, ?_⟩
          rintro r (((hr | hr) | ⟨x, k, hx, -⟩) | ⟨o, ho, rfl⟩)
          · exact hΓ r (hrefs (Or.inl (Or.inl hr)))
          · exact hΓ r (hrefs (Or.inl (Or.inr hr)))
          · cases hx
          · cases ho
            exact hs.sound.heap.good promise _ hlookup _ rfl
    · next hfirst =>
        split
        · refine Typed.bind (typed_allocVal trivial rfl rfl ?_) fun h _ => ?_
          · exact fun r hr => hrefs (Or.inl (Or.inr hr))
          · refine Typed.pure hwf ?_
            rintro r (hr | ⟨o, ho, rfl⟩)
            · exact Or.inl (hrefs hr)
            · cases ho
              exact Or.inr rfl
        · exact Typed.pure hwf (hnone (Set.Subset.refl _))

theorem typed_pollJoin {join : Join} (hwf : join.WellFormed) (hrefs : join.refs ⊆ Γ)
    (remaining : Nat) :
    Typed (vmTheory p hosts sites running) Γ
      (pollJoin join remaining : M F σ (Join × Option Outcome × Nat))
      (fun r => r.1.WellFormed)
      fun r => r.1.refs ∪ {x | ∃ o, r.2.1 = some o ∧ x = .val o.handle} := by
  refine Typed.bind typed_vm fun vm _ => ?_
  have hstart : ∀ epoch, (if join.cursor = 0 then { join with scanEpoch := epoch } else join :
      Join).WellFormed ∧ (if join.cursor = 0 then { join with scanEpoch := epoch } else join :
      Join).refs ⊆ Γ := by
    intro epoch
    split
    · exact ⟨hwf, hrefs⟩
    · exact ⟨hwf, hrefs⟩
  obtain ⟨hwf₀, hrefs₀⟩ := hstart vm.completionEpoch
  refine Typed.bind (typed_scanInputs remaining hwf₀ (hrefs₀.trans Set.subset_union_left))
    fun r hr => ?_
  refine Typed.bind (typed_concludeJoin hr Set.subset_union_right) fun c hc => ?_
  exact Typed.pure hc Set.subset_union_right

end M

end Deka.Vm
