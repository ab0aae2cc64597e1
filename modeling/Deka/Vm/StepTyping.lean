/-
Deka/Vm/StepTyping.lean

One instruction keeps the invariant of the machine.

There is one rule for each instruction with a body of its own, and `typed_execute`
puts them together, one case for each constructor of `Op`.  Only `Await` blocks,
and what it blocks on is on top of the operand stack (`exec_step_blocked`).
-/
import Deka.Vm.BuiltinTyping

namespace Deka.Vm

open Deka.Lib

set_option linter.dupNamespace false

variable {F σ : Type} {p : Program F} {Γ : Set Ref} {sites : PanicSite → Prop}
  {hosts : Hosts F σ} {running : Option (Nat × Handle)}

/-! ### Arithmetic -/

theorem Op.onNumbers_wellFormed [F64 F] {op : Op F} {a b : F} {v : Value F}
    (h : op.onNumbers a b = .ok v) :
    v.WellFormed p ∧ v.isCell = false ∧ v.isSettled = false ∧ v.refs = ∅ := by
  cases op <;> cases h <;> exact ⟨trivial, rfl, rfl, rfl⟩

theorem Op.onStrings_wellFormed {op : Op F} {a b : String} {v : Value F}
    (h : op.onStrings a b = .ok v) :
    v.WellFormed p ∧ v.isCell = false ∧ v.isSettled = false ∧ v.refs = ∅ := by
  cases op <;> cases h <;> exact ⟨trivial, rfl, rfl, rfl⟩

theorem Op.onEqual_wellFormed {op : Op F} {same : Bool} {v : Value F}
    (h : op.onEqual same = .ok v) :
    v.WellFormed p ∧ v.isCell = false ∧ v.isSettled = false ∧ v.refs = ∅ := by
  cases op <;> cases h <;> exact ⟨trivial, rfl, rfl, rfl⟩

theorem Op.onNumbers_error [F64 F] {op : Op F} (hop : op.isArithmetic = true) {a b : F}
    {e : Fault} (h : op.onNumbers a b = .error e) : ∃ message, e = .error message := by
  cases op <;> cases hop <;> cases h

theorem Op.onStrings_error {op : Op F} {a b : String} {e : Fault}
    (h : op.onStrings a b = .error e) : ∃ message, e = .error message := by
  cases op <;> cases h <;> exact ⟨_, rfl⟩

theorem Op.onEqual_error {op : Op F} {same : Bool} {e : Fault}
    (h : op.onEqual same = .error e) : ∃ message, e = .error message := by
  cases op <;> cases h <;> exact ⟨_, rfl⟩

theorem promiseAddText_error [F64 F] {v : Value F} {e : Fault}
    (h : promiseAddText v = .error e) : ∃ message, e = .error message := by
  cases v <;> cases h <;> exact ⟨_, rfl⟩

/-- Concatenation with a promise. -/
theorem promiseAdd_clean [F64 F] (a b : Value F) :
    (∃ v : Value F,
      (do return .string ((← promiseAddText a) ++ (← promiseAddText b))) = Except.ok v ∧
        v.WellFormed p ∧ v.isCell = false ∧ v.isSettled = false ∧ v.refs = ∅) ∨
      ∃ message, (do return .string ((← promiseAddText a) ++ (← promiseAddText b)) :
        Except Fault (Value F)) = .error (.error message) := by
  rcases ha : promiseAddText a with e | s
  · obtain ⟨message, rfl⟩ := promiseAddText_error ha
    exact Or.inr ⟨message, rfl⟩
  · rcases hb : promiseAddText b with e | t
    · obtain ⟨message, rfl⟩ := promiseAddText_error hb
      exact Or.inr ⟨message, rfl⟩
    · exact Or.inl ⟨.string (s ++ t), rfl, trivial, rfl, rfl, rfl⟩

/-- Arithmetic yields a value that holds nothing, or fails with a text. -/
theorem arithmetic_clean [F64 F] {op : Op F} (hop : op.isArithmetic = true) (a b : Value F) :
    (∃ v, arithmetic op a b = .ok v ∧
      v.WellFormed p ∧ v.isCell = false ∧ v.isSettled = false ∧ v.refs = ∅) ∨
      ∃ message, arithmetic op a b = .error (.error message) := by
  unfold arithmetic
  split
  · next a b =>
      rcases h : op.onNumbers a b with e | v
      · obtain ⟨message, rfl⟩ := Op.onNumbers_error hop h
        exact Or.inr ⟨message, rfl⟩
      · exact Or.inl ⟨v, rfl, Op.onNumbers_wellFormed h⟩
  · next a b =>
      rcases h : op.onStrings a b with e | v
      · obtain ⟨message, rfl⟩ := Op.onStrings_error h
        exact Or.inr ⟨message, rfl⟩
      · exact Or.inl ⟨v, rfl, Op.onStrings_wellFormed h⟩
  · have hequal : ∀ same : Bool,
        (∃ v, op.onEqual same = .ok v ∧
          v.WellFormed p ∧ v.isCell = false ∧ v.isSettled = false ∧ v.refs = ∅) ∨
          ∃ message, op.onEqual same = .error (.error message) := by
      intro same
      rcases h : op.onEqual same with e | v
      · obtain ⟨message, rfl⟩ := Op.onEqual_error h
        exact Or.inr ⟨message, rfl⟩
      · exact Or.inl ⟨v, rfl, Op.onEqual_wellFormed h⟩
    split
    · exact Or.inl ⟨_, rfl, trivial, rfl, rfl, rfl⟩
    · exact Or.inl ⟨_, rfl, trivial, rfl, rfl, rfl⟩
    · exact Or.inl ⟨_, rfl, trivial, rfl, rfl, rfl⟩
    · exact Or.inl ⟨_, rfl, trivial, rfl, rfl, rfl⟩
    · split
      · exact promiseAdd_clean _ _
      · split
        · exact hequal _
        · exact hequal _
        · exact Or.inr ⟨_, rfl⟩


/-- The instructions that search a field. -/
def Op.searches : Op F → Bool
  | .field _ | .optionalField _ | .fieldSet _ => true
  | _ => false

def Op.sorts : Op F → Bool
  | .listMut .sort => true
  | _ => false

/-! ### Records -/

/-- Spreading an ordered record finds every key of its order. -/
theorem spread_ok {extra : Record} (hextra : extra.Ordered) {order : List String} :
    ∀ {fields : Record}, fields.Ordered → (∀ name ∈ order, name ∈ extra.order) →
      ∃ r, spread extra fields order = .ok r ∧ r.Ordered ∧
        ∀ k ∈ r.fields.values, k ∈ extra.fields.values ∨ k ∈ fields.fields.values := by
  induction order with
  | nil => exact fun {fields} hfields _ => ⟨fields, rfl, hfields, fun k => Or.inr⟩
  | cons name order ih =>
      intro fields hfields hmem
      obtain ⟨h, hh⟩ := hextra name (hmem name List.mem_cons_self)
      obtain ⟨r, hr, hordered, hvalues⟩ := ih (hfields.set name h)
        fun other ho => hmem other (List.mem_cons_of_mem _ ho)
      refine ⟨r, by rw [spread, hh]; exact hr, hordered, fun k hk => ?_⟩
      rcases hvalues k hk with hk | hk
      · exact Or.inl hk
      · rcases Record.mem_values_set hk with rfl | hk
        · exact Or.inl (mem_values_of_get? hh)
        · exact Or.inr hk

/-- A struct built from its fields. -/
theorem Record.ordered_zip {fields : List String} {items : List Handle}
    (hlen : items.length = fields.length) (name identity : Option String)
    (embeds : List String) :
    Record.Ordered
      { order := fields
        fields := BTreeMap.extend [] (fields.zip items)
        structName := name
        structIdentity := identity
        embeds } := by
  intro key hkey
  refine Record.get?_extend [] (fields.zip items) (Or.inl ?_)
  rwa [List.map_fst_zip (Nat.le_of_eq hlen.symm)]

theorem mem_values_zip {fields : List String} {items : List Handle} {k : Handle}
    (hk : k ∈ (BTreeMap.extend ([] : BTreeMap String Handle) (fields.zip items)).values) :
    k ∈ items := by
  rcases Record.mem_values_extend [] _ hk with hk | hk
  · obtain ⟨e, he, rfl⟩ := List.mem_map.mp hk
    exact (List.of_mem_zip he).2
  · exact absurd hk List.not_mem_nil

namespace M

/-! ### Instructions with a body of their own -/

theorem typed_localCell {frame : Frame} (hrefs : frame.refs ⊆ Γ) {i : Nat}
    (hi : i < frame.locals.length) :
    Typed (vmTheory p hosts sites running) Γ (localCell frame i : M F σ Handle)
      (fun _ => True) fun h => {.cell h} := by
  rw [localCell, List.getElem?_eq_getElem hi]
  refine Typed.pure trivial ?_
  rintro r rfl
  exact hrefs (Or.inl (Or.inl (Or.inl (cell_mem_cells.mpr (List.getElem_mem hi)))))

theorem typed_localCells {frame : Frame} (hrefs : frame.refs ⊆ Γ) {is : List Nat}
    (his : ∀ i ∈ is, i < frame.locals.length) :
    Typed (vmTheory p hosts sites running) Γ (localCells frame is : M F σ (List Handle))
      (fun hs => hs.length = is.length) cells := by
  refine (Typed.mapM fun i hi => typed_localCell hrefs (his i hi)).promise
    (fun hs h => h.1) ?_
  rintro hs - r ⟨h, hh, rfl⟩
  exact Or.inl ⟨h, hh, rfl⟩

theorem typed_readCell {frame : Frame} (hrefs : frame.refs ⊆ Γ) {i : Nat}
    (hi : i < frame.locals.length) :
    Typed (vmTheory p hosts sites running) Γ (readCell frame i : M F σ Handle)
      (fun _ => True) fun h => {.val h} := by
  refine Typed.bind (typed_localCell hrefs hi) fun cell _ => ?_
  refine Typed.bind (typed_observe cell _) fun _ _ => ?_
  refine Typed.bind (typed_getCell (Or.inl (Or.inr rfl))) fun v hv => ?_
  obtain ⟨x, rfl⟩ := hv
  exact Typed.pure trivial Set.subset_union_right

section Ops

variable [Platform F]

theorem typed_indexOf {h : Handle} (hh : Ref.val h ∈ Γ) :
    Typed (vmTheory p hosts sites running) Γ (indexOf h : M F σ Nat) (fun _ => True)
      fun _ => ∅ := by
  refine Typed.bind (typed_get hh) fun v _ => ?_
  split
  · dsimp only
    split
    · exact Typed.pure trivial (Set.empty_subset _)
    · exact typed_errorBind _
  · exact typed_error _

/-- The references of a closure. -/
def closureRefs (c : Nat × List Handle × Option Handle) : Set Ref :=
  cells c.2.1 ∪ vals c.2.2.toList

omit [Platform F] in
theorem typed_closureOf {h : Handle} (hh : Ref.val h ∈ Γ) (error : String) :
    Typed (vmTheory p hosts sites running) Γ
      (closureOf h error : M F σ (Nat × List Handle × Option Handle))
      (fun c => ∃ f, p.functions[c.1]? = some f) closureRefs := by
  refine Typed.bind (typed_get hh) fun v hv => ?_
  split
  · obtain ⟨⟨f, hf, -⟩, -⟩ := hv
    exact Typed.pure ⟨f, hf⟩ Set.subset_union_right
  · exact typed_error _

theorem typed_ownerField {owner : Option Handle} (howner : HeapM.ownerRefs owner ⊆ Γ)
    (name : String) (optional : Bool) :
    Typed (vmTheory p hosts sites running) Γ (ownerField owner name optional : M F σ Unit)
      (fun _ => True) fun _ => ∅ := by
  cases owner with
  | some owner =>
      refine Typed.bind (typed_liftHeap (HeapM.typed_getRecord (howner (Or.inr rfl))))
        fun v hv => ?_
      obtain ⟨r, rfl, -⟩ := hv
      refine Typed.bind (typed_field Set.subset_union_right _ _) fun k _ => ?_
      exact typed_push (Or.inr rfl)
  | none =>
      rw [ownerField]
      split
      · refine Typed.bind (typed_enumValue fun k hk => by cases hk) fun k _ => ?_
        exact typed_push (Or.inr rfl)
      · exact typed_error _

theorem typed_readField (hstack : sites .nativeStack) (hp : p.Fits) (name : String)
    (optional : Bool) :
    Typed (vmTheory p hosts sites running) Γ (readField name optional : M F σ Unit)
      (fun _ => True) fun _ => ∅ := by
  refine Typed.bind typed_pop fun h _ => ?_
  refine Typed.bind (typed_get (Or.inr rfl)) fun first _ => ?_
  refine Typed.bind (typed_observe h _) fun _ _ => ?_
  refine Typed.bind (typed_get (Or.inl (Or.inl (Or.inr rfl)))) fun v _ => ?_
  split
  · next fields _ =>
      refine typed_readProp hp (fun k hk => Or.inr ?_) (by simp)
      exact val_mem_vals.mpr (BTreeMap.mem_values_of_get? hk)
  · split
    · exact typed_pushNew trivial rfl rfl (Set.empty_subset _)
    · exact typed_error _
  · split
    · exact typed_pushNew trivial rfl rfl (Set.empty_subset _)
    · exact typed_error _
  · split
    · exact typed_pushNew trivial rfl rfl (Set.empty_subset _)
    · exact typed_error _
  · refine Typed.bind (typed_liftHeap (HeapM.typed_fieldOwner hstack
      (Or.inl (Or.inl (Or.inl (Or.inr rfl)))))) fun owner _ => ?_
    exact typed_ownerField Set.subset_union_right name optional
  · exact typed_error _

omit [Platform F] in
theorem typed_assignField {owner value : Handle} (howner : Ref.val owner ∈ Γ)
    (hvalue : Ref.val value ∈ Γ) (name : String) :
    Typed (vmTheory p hosts sites running) Γ (assignField owner name value : M F σ Unit)
      (fun _ => True) fun _ => ∅ := by
  refine typed_mutate howner ?_ ?_
  · intro v w a hv hc h
    split at h
    · next r =>
        cases h
        refine ⟨.record _ _, Record.Ordered.set hv name value, vals_subset fun k hk => ?_,
          trivial, Set.empty_subset _⟩
        rcases Record.mem_values_set hk with rfl | hk
        · exact Or.inl hvalue
        · exact Or.inr (val_mem_vals.mpr hk)
    · cases h
  · intro v e hv h
    split at h
    · cases h
    · cases h
      trivial

omit [Platform F] in
theorem typed_methodCall (hp : p.Fits) (name : String) (argc : Nat) :
    Typed (vmTheory p hosts sites running) Γ (methodCall name argc : M F σ Unit)
      (fun _ => True) fun _ => ∅ := by
  refine Typed.bind (typed_arguments argc) fun args _ => ?_
  refine Typed.bind typed_pop fun receiver _ => ?_
  refine Typed.bind (typed_observe receiver _) fun _ _ => ?_
  refine Typed.bind (typed_observe receiver _) fun _ _ => ?_
  refine Typed.bind (typed_get (Or.inl (Or.inl (Or.inr rfl)))) fun v _ => ?_
  have hargs : vals args ⊆ Γ ∪ vals args ∪ {.val receiver} ∪ ∅ ∪ ∅ ∪ v.refs :=
    fun r hr => Or.inl (Or.inl (Or.inl (Or.inl (Or.inr hr))))
  split
  · split
    · next value hvalue =>
        refine typed_readProp hp (fun k hk => Or.inr ?_) hargs
        cases hk
        exact val_mem_vals.mpr (BTreeMap.mem_values_of_get? hvalue)
    · exact typed_error _
  · split
    · exact typed_pushNew trivial rfl rfl (Set.empty_subset _)
    · exact typed_error _
  · split
    · next callee hcallee =>
        refine typed_callValue hp (Or.inr ?_) (vals_subset fun k hk => ?_)
        · exact val_mem_vals.mpr (mem_values_of_get? hcallee)
        · rcases List.mem_cons.mp hk with rfl | hk
          · exact Or.inl (Or.inl (Or.inl (Or.inr rfl)))
          · exact hargs (val_mem_vals.mpr hk)
    · next callee _ hcallee =>
        refine typed_callValue hp (Or.inr ?_) hargs
        exact val_mem_vals.mpr (mem_values_of_get? hcallee)
    · exact typed_error _
  · exact typed_error _

omit [Platform F] in
theorem typed_componentCall (hp : p.Fits) :
    Typed (vmTheory p hosts sites running) Γ (componentCall : M F σ Unit) (fun _ => True)
      fun _ => ∅ := by
  refine Typed.bind typed_pop fun props _ => ?_
  refine Typed.bind typed_pop fun callee _ => ?_
  refine Typed.bind (typed_closureOf (Or.inr rfl) _) fun c hc => ?_
  obtain ⟨function, captures, slotChildren⟩ := c
  obtain ⟨f, hf⟩ := hc
  refine Typed.bind (typed_get (Or.inl (Or.inl (Or.inr rfl)))) fun v _ => ?_
  split
  · next fields _ =>
      refine Typed.bind (typed_function hf) fun target _ => ?_
      dsimp only
      split
      · exact typed_errorBind _
      · refine Typed.bind (typed_frame hp ?_ ?_ ?_) fun next hnext => ?_
        · exact fun r hr => Or.inl (Or.inl (Or.inr (Or.inl hr)))
        · split
          · simp
          · refine vals_subset fun k hk => ?_
            rw [List.mem_singleton.mp hk]
            exact Or.inl (Or.inl (Or.inl (Or.inl (Or.inr rfl))))
        · refine vals_toList_subset fun k hk => Or.inl (Or.inr ?_)
          exact val_mem_vals.mpr (BTreeMap.mem_values_of_get? hk)
        · exact typed_enterFrame hnext.1 Set.subset_union_right
  · exact typed_error _

theorem typed_jsonParseResult (shape : JsonShape) :
    Typed (vmTheory p hosts sites running) Γ (jsonParseResult shape : M F σ Unit)
      (fun _ => True) fun _ => ∅ := by
  refine Typed.bind typed_pop fun factories _ => ?_
  refine Typed.bind typed_pop fun result _ => ?_
  refine Typed.bind (typed_get (Or.inr rfl)) fun v _ => ?_
  split
  · next record _ =>
      dsimp only
      split
      · refine Typed.bind (typed_field Set.subset_union_right _ _) fun case _ => ?_
        refine Typed.bind (typed_field (Set.subset_union_right.trans Set.subset_union_left)
          _ _) fun payload _ => ?_
        refine Typed.bind (typed_get (Or.inl (Or.inr rfl))) fun label _ => ?_
        split
        · refine typed_push ?_
          exact Or.inl (Or.inl (Or.inl (Or.inl (Or.inr rfl))))
        · refine Typed.bind (typed_parseJson (Or.inl (Or.inr rfl)) ?_) fun h _ => ?_
          · exact Or.inl (Or.inl (Or.inl (Or.inl (Or.inl (Or.inr rfl)))))
          · exact typed_push (Or.inr rfl)
        · exact typed_error _
      · exact typed_errorBind _
  · exact typed_error _

omit [Platform F] in
/-- Without a capture there is nothing to mark. -/
theorem typed_markVolatile :
    Typed (vmTheory p hosts sites running) Γ
      (liftHeap (modify Heap.markVolatile) : M F σ Unit) (fun _ => True) fun _ => ∅ := by
  refine typed_liftHeap fun H hH hΓ => ?_
  have hmark : H.markVolatile = H := by
    rw [Heap.markVolatile, hH.reads]
    show ({ H with reads := none } : Heap F) = H
    rw [← hH.reads]
  rw [Prog.exec_modify, hmark]
  exact ⟨hH, Heap.Evolves.refl H, trivial, fun r hr => absurd hr (Set.notMem_empty r)⟩

omit [Platform F] in
theorem typed_raiseStep {value : Handle} (hv : Ref.val value ∈ Γ) :
    Typed (vmTheory p hosts sites running) Γ (raise value : M F σ Step)
      (fun r => r.isBlocked = false) Step.refs := by
  refine Typed.bind (typed_modifyFrames (fun frames => ?_) (fun frames => unwind_wellFormed)
    fun frames => unwind_length value frames) fun _ _ => ?_
  · refine (unwind_refs value frames).trans (Set.union_subset_union_right _ ?_)
    rintro r rfl
    exact hv
  · refine Typed.bind typed_look fun frames _ => ?_
    split
    · refine Typed.pure rfl ?_
      rintro r rfl
      exact Or.inl (Or.inl hv)
    · exact Typed.pure rfl (Set.empty_subset _)

omit [Platform F] in
/-- A fault that was caught is an error text, or a panic that is allowed. -/
theorem Fault.Allowed.cases {e : Fault} (h : e.Allowed sites) :
    (∃ message, e = .error message) ∨ ∃ site, e = .panic site ∧ sites site := by
  cases e with
  | error message => exact Or.inl ⟨message, rfl⟩
  | stale => exact absurd h id
  | panic site => exact Or.inr ⟨site, rfl, h⟩

theorem typed_host (operation : String) (argc : Nat) :
    Typed (vmTheory p hosts sites running) Γ (host operation argc : M F σ Step)
      (fun r => r.isBlocked = false) Step.refs := by
  refine Typed.bind typed_markVolatile fun _ _ => ?_
  refine Typed.bind (typed_arguments argc) fun args _ => ?_
  refine Typed.bind (Typed.mapM fun h hh => typed_wireValue (Or.inr (val_mem_vals.mpr hh)))
    fun wire _ => ?_
  have hoperation : ∀ {Δ : Set Ref}, Typed (vmTheory p hosts sites running) Δ
      (Prog.reads fun s => s.vm.hosts.operation operation : M F σ (HostOp F σ))
      (fun _ => True) fun _ => ∅ := by
    intro Δ
    refine Typed.reads ?_ ?_
    · exact fun s a hs hΓ ha => ⟨trivial, fun r hr => absurd hr (Set.notMem_empty r)⟩
    · intro s e hs hΓ he
      rw [Hosts.operation] at he
      split at he
      · cases he
      · cases he
        trivial
  refine Typed.bind hoperation fun op _ => ?_
  refine Typed.bind (typed_callHost op operation wire) fun reply _ => ?_
  split
  · next future =>
      refine Typed.bind (typed_spawn (.host _) op.result_distinct (Set.empty_subset _))
        fun h _ => ?_
      exact typed_result (Or.inr rfl)
  · next value =>
      split
      · refine Typed.bind (typed_allocHostValue _) fun h _ => ?_
        exact typed_raiseStep (Or.inr rfl)
      · dsimp only
        split
        · refine Typed.bind (Typed.attempt (typed_hostResult op.result_distinct))
            fun result hresult => ?_
          cases result with
          | ok h =>
              refine Typed.bind (typed_readyPromise (fun e he => by cases he) ?_) fun promise _ => ?_
              · intro o ho
                cases ho
                exact Or.inr rfl
              · exact typed_result (Or.inr rfl)
          | error e =>
              rcases Fault.Allowed.cases hresult with ⟨message, rfl⟩ | ⟨site, rfl, hsite⟩
              · refine Typed.bind (typed_readyPromise ?_ fun o ho => by cases ho) fun promise _ => ?_
                · intro e he
                  cases he
                  exact ⟨message, rfl⟩
                · exact typed_result (Or.inr rfl)
              · exact typed_effect (φ := fun _ => True) (R := fun _ => ∅) (Typed.throw hsite)
        · refine Typed.bind (typed_hostResult op.result_distinct) fun h _ => ?_
          exact typed_result (Or.inr rfl)

omit [Platform F] in
theorem typed_await :
    Typed (vmTheory p hosts sites running) Γ (await : M F σ Step) (fun _ => True)
      Step.refs := by
  refine Typed.bind typed_pop fun promise _ => ?_
  refine Typed.bind (typed_get (Or.inr rfl)) fun v hv => ?_
  split
  · refine (typed_result (Or.inr rfl)).promise (fun _ _ => trivial) fun _ _ => ?_
    exact Set.subset_union_left
  · exact typed_raise (Or.inr rfl)
  · obtain ⟨⟨message, rfl⟩, -⟩ := hv
    exact typed_error _
  · refine Typed.bind (typed_push (Or.inl (Or.inr rfl))) fun _ _ => ?_
    refine Typed.bind (typed_modifyTop (fun _ => Set.subset_union_left) fun _ => id)
      fun _ _ => ?_
    refine Typed.pure trivial ?_
    rintro r rfl
    exact Or.inl (Or.inl (Or.inl (Or.inr rfl)))
  · exact typed_error _

omit [Platform F] in
theorem typed_return (hp : p.Fits) :
    Typed (vmTheory p hosts sites running) Γ («return» : M F σ Step)
      (fun r => r.isBlocked = false) Step.refs := by
  refine Typed.bind typed_pop fun result _ => ?_
  refine Typed.bind typed_top fun finished hfinished => ?_
  refine Typed.bind (typed_modifyFrames (f := List.tail) ?_ ?_ ?_) fun _ _ => ?_
  · rintro frames r ⟨frame, hframe, hr⟩
    exact Or.inl ⟨frame, List.mem_of_mem_tail hframe, hr⟩
  · exact fun frames hwf frame hframe => hwf frame (List.mem_of_mem_tail hframe)
  · simp
  · split
    · next args hargs =>
        refine typed_effect (typed_callValue hp (Or.inl (Or.inl (Or.inr rfl))) ?_)
        refine vals_subset fun k hk => Or.inl (Or.inr (Or.inr ?_))
        rw [hargs]
        exact val_mem_vals.mpr hk
    · refine Typed.bind typed_look fun isEmpty _ => ?_
      split
      · refine Typed.pure rfl ?_
        rintro r rfl
        exact Or.inl (Or.inl (Or.inl (Or.inr rfl)))
      · exact typed_result (Or.inl (Or.inl (Or.inl (Or.inr rfl))))

/-! ### All instructions -/

/-- Arithmetic on two popped values. -/
theorem typed_arithmetic {op : Op F} (hop : op.isArithmetic = true) :
    Typed (vmTheory p hosts sites running) Γ
      (do let b ← get (← pop)
          let a ← get (← pop)
          push (← alloc (← Prog.reads fun _ => arithmetic op a b))
          return .continue : M F σ Step)
      (fun r => r.isBlocked = false) Step.refs := by
  refine Typed.bind typed_pop fun y _ => ?_
  refine Typed.bind (typed_get (Or.inr rfl)) fun b _ => ?_
  refine Typed.bind typed_pop fun x _ => ?_
  refine Typed.bind (typed_get (Or.inr rfl)) fun a _ => ?_
  refine Typed.bind (φ := fun v => v.WellFormed p ∧ v.isCell = false ∧ v.isSettled = false ∧
    v.refs = ∅) (R := fun _ => ∅) (Typed.reads ?_ ?_) fun v hv => ?_
  · intro s v hs hΓ hv
    rcases arithmetic_clean (p := p) hop a b with ⟨w, hw, h⟩ | ⟨message, he⟩
    · rw [hw] at hv
      cases hv
      exact ⟨h, fun r hr => absurd hr (Set.notMem_empty r)⟩
    · rw [he] at hv
      cases hv
  · intro s e hs hΓ he
    rcases arithmetic_clean (p := p) hop a b with ⟨w, hw, h⟩ | ⟨message, he'⟩
    · rw [hw] at he
      cases he
    · rw [he'] at he
      cases he
      trivial
  · exact typed_newResult hv.1 hv.2.1 hv.2.2.1 (by rw [hv.2.2.2]; exact Set.empty_subset _)

variable [HostWorld F σ]

omit [HostWorld F σ] in
theorem typed_execute (hp : p.Fits) {frame : Frame} {f : Function F} {op : Op F}
    (hstack : op.searches = true → sites .nativeStack)
    (hsort : op.sorts = true → sites .sortOrder) (hf : p.functions[frame.function]? = some f)
    (hlocals : frame.locals.length = f.locals) (hop : op ∈ f.code) (hrefs : frame.refs ⊆ Γ)
    (hawait : op ≠ .await) :
    Typed (vmTheory p hosts sites running) Γ (execute frame op : M F σ Step)
      (fun r => r.isBlocked = false) Step.refs := by
  have hoperand := hp.operands f (List.mem_of_getElem? hf) op hop
  -- a local operand is in range
  have hlocal : ∀ {i : Nat}, i < f.locals → i < frame.locals.length :=
    fun h => by rw [hlocals]; exact h
  have hrefs' (Δ : Set Ref) : frame.refs ⊆ Γ ∪ Δ := hrefs.trans Set.subset_union_left
  cases op with
  | const v =>
      refine typed_newResult ?_ ?_ ?_ ?_ <;> cases v <;>
        first | trivial | rfl | exact Set.empty_subset _
  | pop => exact typed_effect (Typed.discard typed_pop)
  | dup =>
      refine Typed.bind typed_pop fun h _ => ?_
      refine Typed.bind (typed_push (Or.inr rfl)) fun _ _ => ?_
      exact typed_result (Or.inl (Or.inr rfl))
  | load i =>
      have hi : i < f.locals := by
        by_contra hi
        simp [Program.validateOp, Nat.not_lt.mp hi] at hoperand
      refine Typed.bind (typed_readCell hrefs (hlocal hi)) fun h _ => ?_
      exact typed_result (Or.inr rfl)
  | loadChecked slot message =>
      have hi : slot < f.locals := by
        by_contra hi
        simp [Program.validateOp, Nat.not_lt.mp hi] at hoperand
      refine Typed.bind (typed_readCell hrefs (hlocal hi)) fun h _ => ?_
      refine Typed.bind (typed_get (Or.inr rfl)) fun v _ => ?_
      split
      · exact typed_error _
      · exact typed_result (Or.inl (Or.inr rfl))
  | store i =>
      have hi : i < f.locals := by
        by_contra hi
        simp [Program.validateOp, Nat.not_lt.mp hi] at hoperand
      refine Typed.bind typed_pop fun h _ => ?_
      refine Typed.bind (typed_localCell (hrefs' _) (hlocal hi)) fun cell _ => ?_
      refine typed_effect (typed_liftHeap (HeapM.typed_replaceCell (Or.inr rfl) ?_))
      exact Or.inl (Or.inr rfl)
  | rebind i =>
      have hi : i < f.locals := by
        by_contra hi
        simp [Program.validateOp, Nat.not_lt.mp hi] at hoperand
      refine Typed.bind (typed_allocLeaf trivial rfl rfl rfl) fun unit _ => ?_
      refine Typed.bind (typed_allocCell (Or.inr rfl)) fun cell _ => ?_
      refine Typed.bind (Typed.discard (typed_localCell
        (fun r hr => Or.inl (Or.inl (hrefs hr))) (hlocal hi))) fun _ _ => ?_
      refine typed_effect (typed_modifyTop (fun x => ?_) fun x hx => ?_)
      · rintro r (((⟨k, hk, rfl⟩ | hr) | hr) | hr)
        · rcases List.mem_or_eq_of_mem_set hk with hk | rfl
          · exact Or.inl (Or.inl (Or.inl (Or.inl (cell_mem_cells.mpr hk))))
          · exact Or.inr (Or.inl (Or.inr rfl))
        · exact Or.inl (Or.inl (Or.inl (Or.inr hr)))
        · exact Or.inl (Or.inl (Or.inr hr))
        · exact Or.inl (Or.inr hr)
      · obtain ⟨g, hg, hlen⟩ := hx
        exact ⟨g, hg, by rw [List.length_set, hlen]⟩
  | add | sub | mul | div | mod | less | lessEq | greater | greaterEq | equal | notEqual
  | bitAnd | bitOr | bitXor | shl | shr => exact typed_arithmetic rfl
  | neg =>
      refine Typed.bind typed_pop fun h _ => ?_
      refine Typed.bind (typed_get (Or.inr rfl)) fun v _ => ?_
      split
      · exact typed_newResult trivial rfl rfl (Set.empty_subset _)
      · exact typed_error _
  | not =>
      refine Typed.bind typed_pop fun h _ => ?_
      refine Typed.bind (typed_get (Or.inr rfl)) fun v _ => ?_
      split
      · exact typed_newResult trivial rfl rfl (Set.empty_subset _)
      · exact typed_error _
  | jump ip => exact typed_effect (typed_jump ip)
  | newtype name =>
      refine Typed.bind typed_pop fun h _ => ?_
      refine Typed.bind (typed_get (Or.inr rfl)) fun v hv => ?_
      refine Typed.bind (typed_allocNewtype hv.1 hv.2 Set.subset_union_right name) fun k _ => ?_
      exact typed_result (Or.inr rfl)
  | getType =>
      refine Typed.bind typed_pop fun h _ => ?_
      refine Typed.bind (typed_liftHeap (HeapM.typed_typeOf (Or.inr rfl))) fun d _ => ?_
      refine Typed.bind (typed_internDescriptor d) fun k _ => ?_
      exact typed_result (Or.inr rfl)
  | jsonStringify shape =>
      refine Typed.bind typed_pop fun h _ => ?_
      refine Typed.bind (φ := fun _ => True) (R := fun _ => ∅)
        (typed_liftHeap (Typed.reads ?_ ?_)) fun text _ => ?_
      · exact fun H a hH hΓ ha => ⟨trivial, fun r hr => absurd hr (Set.notMem_empty r)⟩
      · intro H e hH hΓ he
        obtain ⟨message, rfl⟩ := clean_stringify hH (hΓ _ (Or.inr rfl)) shape e he
        trivial
      · exact typed_newResult trivial rfl rfl (Set.empty_subset _)
  | jwtStringify shape error =>
      refine Typed.bind typed_pop fun h _ => ?_
      refine Typed.bind (φ := fun _ => True) (R := fun _ => ∅) (typed_liftHeap ?_)
        fun result _ => ?_
      · exact fun H hH hΓ => ⟨hH, Heap.Evolves.refl H, trivial,
          fun r hr => absurd hr (Set.notMem_empty r)⟩
      · split
        · refine Typed.bind (typed_allocLeaf trivial rfl rfl rfl) fun text _ => ?_
          refine Typed.bind (typed_enumValue fun k hk => ?_) fun k _ => typed_result (Or.inr rfl)
          cases hk
          exact Or.inr rfl
        · refine Typed.bind (typed_allocLeaf trivial rfl rfl rfl) fun text _ => ?_
          refine Typed.bind (typed_enumValue fun k hk => ?_) fun k _ => typed_result (Or.inr rfl)
          cases hk
          exact Or.inr rfl
  | jsonParse shape =>
      refine Typed.bind typed_pop fun factories _ => ?_
      refine Typed.bind typed_pop fun text _ => ?_
      refine Typed.bind (typed_parseJson (Or.inr rfl) (Or.inl (Or.inr rfl))) fun k _ => ?_
      exact typed_result (Or.inr rfl)
  | jsonParseResult shape => exact typed_effect (typed_jsonParseResult shape)
  | descriptor d =>
      refine Typed.bind (typed_internDescriptor d) fun k _ => ?_
      exact typed_result (Or.inr rfl)
  | enum name case index payload =>
      have hdone (value : Option Handle) : Typed (vmTheory p hosts sites running)
          (Γ ∪ vals value.toList)
          (enumValue name case index value >>= fun k => push k >>= fun _ => pure .continue)
          (fun r => r.isBlocked = false) Step.refs := by
        refine Typed.bind (typed_enumValue fun k hk => ?_) fun k _ => typed_result (Or.inr rfl)
        cases hk
        exact Or.inr (by simp)
      dsimp only [execute]
      split
      · refine Typed.bind (φ := fun _ => True) (Typed.map typed_pop (fun _ _ => trivial)
          fun h _ => vals_subset fun k hk => Or.inr ?_) fun value _ => hdone value
        rw [List.mem_singleton.mp hk]
        rfl
      · exact Typed.bind (φ := fun v => v = none) (R := fun _ => ∅)
          (Typed.pure rfl (Set.empty_subset _)) fun value hvalue => by
            subst hvalue
            exact (hdone none).weaken (by simp)
  | matchEnum name case =>
      refine Typed.bind typed_pop fun h _ => ?_
      refine Typed.bind (typed_observe h _) fun _ _ => ?_
      refine Typed.bind (typed_get (Or.inl (Or.inr rfl))) fun v _ => ?_
      have hdone : ∀ {Δ : Set Ref} (matched : Bool), Typed (vmTheory p hosts sites running) Δ
          (alloc (.bool matched) >>= fun h => push h >>= fun _ => pure .continue : M F σ Step)
          (fun r => r.isBlocked = false) Step.refs :=
        fun matched => typed_newResult trivial rfl rfl (Set.empty_subset _)
      dsimp only
      split
      · split
        · split
          · refine Typed.bind (φ := fun _ => True) (R := fun _ => ∅) (Typed.reads ?_ ?_)
              fun matched _ => hdone matched
            · exact fun s a hs hΓ ha => ⟨trivial, fun r hr => absurd hr (Set.notMem_empty r)⟩
            · intro s e hs hΓ he
              split at he <;> cases he
          · exact hdone false
        · exact hdone false
      · exact hdone false
  | matchStruct identity =>
      refine Typed.bind typed_pop fun h _ => ?_
      refine Typed.bind (typed_get (Or.inr rfl)) fun v _ => ?_
      exact typed_newResult trivial rfl rfl (Set.empty_subset _)
  | matchType expected =>
      refine Typed.bind typed_pop fun h _ => ?_
      refine Typed.bind (typed_liftHeap (HeapM.typed_typeOf (Or.inr rfl))) fun d _ => ?_
      exact typed_newResult trivial rfl rfl (Set.empty_subset _)
  | matchEqual =>
      refine Typed.bind typed_pop fun y _ => ?_
      refine Typed.bind typed_pop fun x _ => ?_
      refine Typed.bind (typed_get (Or.inr rfl)) fun a _ => ?_
      refine Typed.bind (typed_get (Or.inl (Or.inl (Or.inr rfl)))) fun b _ => ?_
      exact typed_newResult trivial rfl rfl (Set.empty_subset _)
  | matchTuple length =>
      refine Typed.bind typed_pop fun h _ => ?_
      refine Typed.bind (typed_observe h _) fun _ _ => ?_
      refine Typed.bind (typed_get (Or.inl (Or.inr rfl))) fun v _ => ?_
      exact typed_newResult trivial rfl rfl (Set.empty_subset _)
  | toString =>
      refine Typed.bind typed_pop fun h _ => ?_
      refine Typed.bind (typed_liftHeap (HeapM.typed_valueText (Or.inr rfl))) fun text _ => ?_
      exact typed_newResult trivial rfl rfl (Set.empty_subset _)
  | toNumber =>
      refine Typed.bind typed_pop fun h _ => ?_
      refine Typed.bind (typed_get (Or.inr rfl)) fun v _ => ?_
      dsimp only
      split
      · exact typed_newResult trivial rfl rfl (Set.empty_subset _)
      · exact typed_newResult trivial rfl rfl (Set.empty_subset _)
      · exact typed_errorBind _
  | panic =>
      refine Typed.bind typed_pop fun h _ => ?_
      refine Typed.bind (typed_get (Or.inr rfl)) fun v _ => ?_
      split
      · exact typed_error _
      · exact typed_error _
  | jumpIfFalse ip =>
      refine Typed.bind typed_pop fun h _ => ?_
      refine Typed.bind (typed_get (Or.inr rfl)) fun v _ => ?_
      split
      · dsimp only
        split
        · exact Typed.pure rfl (Set.empty_subset _)
        · exact typed_effect (typed_jump ip)
      · exact typed_error _
  | jumpIfUnit ip =>
      refine Typed.bind typed_pop fun h _ => ?_
      refine Typed.bind (typed_get (Or.inr rfl)) fun v _ => ?_
      dsimp only
      split
      · exact typed_effect (typed_jump ip)
      · exact Typed.pure rfl (Set.empty_subset _)
  | closure function captures =>
      have hclosure : ∃ g, p.functions[function]? = some g ∧ captures.length = g.captures ∧
          ∀ i ∈ captures, i < f.locals := by
        rw [Program.validateOp] at hoperand
        split at hoperand
        · cases hoperand
        · next g hg =>
            split at hoperand
            · cases hoperand
            · next hcheck =>
                simp only [not_or, ne_eq, not_not, Bool.not_eq_true, List.any_eq_false,
                  decide_eq_true_eq, Nat.not_le, ge_iff_le] at hcheck
                exact ⟨g, hg, hcheck.1, hcheck.2⟩
      obtain ⟨g, hg, hlen, hbounds⟩ := hclosure
      refine Typed.bind (typed_localCells hrefs fun i hi => hlocal (hbounds i hi))
        fun cs hcs => ?_
      refine typed_newResult ⟨g, hg, hcs.trans hlen⟩ rfl rfl ?_
      rintro r (hr | hr)
      · exact Or.inr hr
      · exact Or.inl (hrefs (Or.inl (Or.inr hr)))
  | slot =>
      dsimp only [execute]
      split
      · next children hchildren =>
          refine typed_result (hrefs (Or.inl (Or.inr ?_)))
          rw [hchildren]
          exact val_mem_vals.mpr (by simp)
      · exact typed_newResult trivial rfl rfl (Set.empty_subset _)
  | componentCall => exact typed_effect (typed_componentCall hp)
  | call argc =>
      refine Typed.bind (typed_arguments argc) fun args _ => ?_
      refine Typed.bind typed_pop fun callee _ => ?_
      exact typed_effect (typed_callValue hp (Or.inr rfl) fun r hr => Or.inl (Or.inr hr))
  | methodCall name argc => exact typed_effect (typed_methodCall hp name argc)
  | host operation argc => exact typed_host operation argc
  | promiseJoin kind =>
      refine Typed.bind typed_pop fun list _ => ?_
      refine Typed.bind (φ := fun _ => True) (R := fun h => {.val h}) ?_
        fun h _ => typed_result (Or.inr rfl)
      refine Typed.bind (typed_get (Or.inr rfl)) fun v _ => ?_
      split
      · next inputs _ =>
          refine Typed.bind typed_vm fun vm _ => ?_
          refine typed_spawn (.join _) ⟨by simp [Join.begin], by simp [Join.begin]⟩ ?_
          rintro r ((hr | ⟨k, hk, rfl⟩) | ⟨x, h, hx, -⟩)
          · exact Or.inl (Or.inr hr)
          · obtain ⟨o, ho, hk⟩ := List.mem_filterMap.mp hk
            rw [List.eq_of_mem_replicate ho] at hk
            cases hk
          · cases hx
      · exact typed_error _
  | await => exact absurd rfl hawait
  | handler target =>
      exact typed_effect (typed_modifyTop (fun _ => Set.subset_union_left) fun _ => id)
  | endHandler =>
      dsimp only [execute]
      split
      · exact typed_errorBind _
      · exact typed_effect (typed_modifyTop (fun _ => Set.subset_union_left) fun _ => id)
  | throw => exact Typed.bind typed_pop fun h _ => typed_raiseStep (Or.inr rfl)
  | «return» => exact typed_return hp
  | list count =>
      refine Typed.bind (typed_arguments count) fun items _ => ?_
      exact typed_newResult trivial rfl rfl Set.subset_union_right
  | listHas =>
      refine Typed.bind typed_pop fun index _ => ?_
      refine Typed.bind typed_pop fun list _ => ?_
      refine Typed.bind (typed_observe list _) fun _ _ => ?_
      refine Typed.bind (typed_get (Or.inl (Or.inl (Or.inr rfl)))) fun v _ => ?_
      split
      · refine Typed.bind (typed_get (Or.inl (Or.inl (Or.inr rfl)))) fun w _ => ?_
        split
        · exact typed_newResult trivial rfl rfl (Set.empty_subset _)
        · exact typed_error _
      · exact typed_error _
  | listAppend =>
      refine Typed.bind typed_pop fun item _ => ?_
      refine Typed.bind typed_pop fun list _ => ?_
      refine Typed.bind (typed_observe list _) fun _ _ => ?_
      refine Typed.bind (typed_get (Or.inl (Or.inr rfl))) fun v _ => ?_
      split
      · refine typed_newResult trivial rfl rfl (vals_subset fun k hk => ?_)
        rcases List.mem_append.mp hk with hk | hk
        · exact Or.inr (val_mem_vals.mpr hk)
        · rw [List.mem_singleton.mp hk]
          exact Or.inl (Or.inl (Or.inl (Or.inr rfl)))
      · exact typed_error _
  | listExtend =>
      refine Typed.bind typed_pop fun source _ => ?_
      refine Typed.bind typed_pop fun target _ => ?_
      refine Typed.bind (typed_observe source _) fun _ _ => ?_
      refine Typed.bind (typed_observe target _) fun _ _ => ?_
      refine Typed.bind (typed_get (Or.inl (Or.inl (Or.inl (Or.inr rfl))))) fun v _ => ?_
      split
      · refine Typed.bind (typed_get (Or.inl (Or.inl (Or.inl (Or.inr rfl))))) fun w _ => ?_
        split
        · refine typed_newResult trivial rfl rfl (vals_subset fun k hk => ?_)
          rcases List.mem_append.mp hk with hk | hk
          · exact Or.inr (val_mem_vals.mpr hk)
          · exact Or.inl (Or.inr (val_mem_vals.mpr hk))
        · exact typed_error _
      · exact typed_error _
  | props names =>
      refine Typed.bind (typed_arguments names.length) fun items _ => ?_
      refine typed_newResult trivial rfl rfl (vals_subset fun k hk => ?_)
      exact Or.inr (val_mem_vals.mpr (mem_values_zip hk))
  | record names =>
      refine Typed.bind (typed_arguments names.length) fun items _ => ?_
      refine typed_newResult (Record.ofList_ordered _).1 rfl rfl (vals_subset fun k hk => ?_)
      obtain ⟨e, he, rfl⟩ := List.mem_map.mp ((Record.ofList_ordered _).2 k hk)
      exact Or.inr (val_mem_vals.mpr (List.of_mem_zip he).2)
  | struct name identity fields embeds =>
      refine Typed.bind (typed_arguments fields.length) fun items hlen => ?_
      refine typed_newResult (Record.ordered_zip hlen _ _ _) rfl rfl
        (vals_subset fun k hk => ?_)
      exact Or.inr (val_mem_vals.mpr (mem_values_zip hk))
  | recordExtend =>
      refine Typed.bind typed_pop fun source _ => ?_
      refine Typed.bind typed_pop fun target _ => ?_
      refine Typed.bind (typed_observe source _) fun _ _ => ?_
      refine Typed.bind (typed_observe target _) fun _ _ => ?_
      refine Typed.bind (typed_get (Or.inl (Or.inl (Or.inl (Or.inr rfl))))) fun v hv => ?_
      split
      · next extra =>
          refine Typed.bind (typed_get (Or.inl (Or.inl (Or.inl (Or.inr rfl))))) fun w hw => ?_
          split
          · next fields =>
              obtain ⟨r, hr, hordered, hvalues⟩ :=
                spread_ok hv.1 hw.1 fun name => id
              rw [hr]
              refine Typed.bind (φ := fun x => x = r) (R := fun _ => ∅) (Typed.reads ?_ ?_)
                fun x hx => ?_
              · intro s x hs hΓ hx
                cases hx
                exact ⟨rfl, fun r hr => absurd hr (Set.notMem_empty r)⟩
              · intro s e hs hΓ he
                cases he
              · subst hx
                refine typed_newResult hordered rfl rfl (vals_subset fun k hk => ?_)
                rcases hvalues k hk with hk | hk
                · exact Or.inl (Or.inl (Or.inr (val_mem_vals.mpr hk)))
                · exact Or.inl (Or.inr (val_mem_vals.mpr hk))
          · exact typed_error _
      · exact typed_error _
  | field name => exact typed_effect (typed_readField (hstack rfl) hp name false)
  | optionalField name => exact typed_effect (typed_readField (hstack rfl) hp name true)
  | fieldOrSelf name =>
      refine Typed.bind typed_pop fun h _ => ?_
      refine Typed.bind (typed_observe h _) fun _ _ => ?_
      refine Typed.bind (typed_get (Or.inl (Or.inr rfl))) fun v _ => ?_
      dsimp only
      split
      · split
        · next value hvalue =>
            refine typed_effect (typed_readProp hp (fun k hk => Or.inr ?_) (by simp))
            cases hk
            exact val_mem_vals.mpr (BTreeMap.mem_values_of_get? hvalue)
        · exact typed_result (Or.inl (Or.inl (Or.inr rfl)))
      · next r _ =>
          refine typed_result ?_
          rcases hget : r.get? name with - | k
          · exact Or.inl (Or.inl (Or.inr rfl))
          · exact Or.inr (val_mem_vals.mpr (mem_values_of_get? hget))
      · exact typed_errorBind _
  | index =>
      refine Typed.bind typed_pop fun i _ => ?_
      refine Typed.bind typed_pop fun object _ => ?_
      refine Typed.bind (typed_indexOf (Or.inl (Or.inr rfl))) fun index _ => ?_
      refine Typed.bind (typed_observe object _) fun _ _ => ?_
      refine Typed.bind (typed_get (Or.inl (Or.inl (Or.inr rfl)))) fun v _ => ?_
      dsimp only
      split
      · split
        · next k hk =>
            exact typed_result (Or.inr (val_mem_vals.mpr (List.mem_of_getElem? hk)))
        · exact typed_errorBind _
      · split
        · exact typed_newResult trivial rfl rfl (Set.empty_subset _)
        · exact typed_errorBind _
      · split
        · exact typed_newResult trivial rfl rfl (Set.empty_subset _)
        · exact typed_errorBind _
      · exact typed_errorBind _
  | fieldSet name =>
      refine Typed.bind typed_pop fun value _ => ?_
      refine Typed.bind typed_pop fun object _ => ?_
      refine Typed.bind (typed_liftHeap (HeapM.typed_fieldOwner (hstack rfl) (Or.inr rfl)))
        fun owner _ => ?_
      have howner : Ref.val (owner.getD object) ∈
          Γ ∪ {.val value} ∪ {.val object} ∪ HeapM.ownerRefs owner := by
        cases owner with
        | none => exact Or.inl (Or.inr rfl)
        | some h => exact Or.inr (Or.inl rfl)
      refine Typed.bind (typed_assignField howner (Or.inl (Or.inl (Or.inr rfl))) name)
        fun _ _ => ?_
      exact typed_result (Or.inl (Or.inl (Or.inl (Or.inr rfl))))
  | indexSet =>
      refine Typed.bind typed_pop fun value _ => ?_
      refine Typed.bind typed_pop fun i _ => ?_
      refine Typed.bind typed_pop fun object _ => ?_
      refine Typed.bind (typed_indexOf (Or.inl (Or.inr rfl))) fun index _ => ?_
      refine Typed.bind (typed_mutate (φ := fun _ => True) (R := fun _ => ∅)
        (Or.inl (Or.inr rfl)) ?_ ?_) fun _ _ => ?_
      · intro v w a hv hc h
        split at h
        · split at h
          · cases h
            refine ⟨.list _ _, trivial, vals_subset fun k hk => ?_, trivial,
              Set.empty_subset _⟩
            rcases List.mem_or_eq_of_mem_set hk with hk | rfl
            · exact Or.inr (val_mem_vals.mpr hk)
            · exact Or.inl (Or.inl (Or.inl (Or.inl (Or.inr rfl))))
          · cases h
        · cases h
        · cases h
      · intro v e hv h
        split at h
        · split at h
          · cases h
          · cases h
            trivial
        · cases h
          trivial
        · cases h
          trivial
      · exact typed_result (Or.inl (Or.inl (Or.inl (Or.inl (Or.inr rfl)))))
  | listMut kind => exact typed_effect (typed_listMut fun h => hsort (by rw [h]; rfl))

/-! ### One step -/

omit [HostWorld F σ] in
/-- What a step does before it executes the instruction. -/
theorem exec_step (s : State F σ) :
    (step : M F σ Step).exec s =
      match s.frames with
      | [] => (.error (.error "empty call stack"), s)
      | frame :: frames =>
          match s.vm.program.functions[frame.function]? with
          | none => (.error (.panic .index), s)
          | some f =>
              match f.code[frame.ip]? with
              | none => (.error (.error "instruction pointer outside function"), s)
              | some op =>
                  (execute frame op).exec
                    { s with
                      frames := { frame with ip := frame.ip + 1 } :: frames
                      trace := ⟨.instruction op, s.vm, s.frames⟩ :: s.trace } := by
  rw [step, Prog.exec_bind, top, Prog.exec_reads]
  rcases s with ⟨vm, - | ⟨frame, frames⟩, trace⟩
  · rfl
  · dsimp only
    rw [Prog.exec_bind, function, Prog.exec_reads]
    dsimp only
    rcases vm.program.functions[frame.function]? with - | f
    · rfl
    · dsimp only
      rcases f.code[frame.ip]? with - | op <;> rfl

omit [HostWorld F σ] in
/-- Any instruction, where both panics are allowed. -/
theorem typed_executeAny (hstack : sites .nativeStack) (hsort : sites .sortOrder)
    (hp : p.Fits) {frame : Frame} {f : Function F} {op : Op F}
    (hf : p.functions[frame.function]? = some f) (hlocals : frame.locals.length = f.locals)
    (hop : op ∈ f.code) (hrefs : frame.refs ⊆ Γ) :
    Typed (vmTheory p hosts sites running) Γ (execute frame op : M F σ Step) (fun _ => True)
      Step.refs := by
  by_cases hawait : op = .await
  · subst hawait
    exact typed_await
  · exact (typed_execute hp (fun _ => hstack) (fun _ => hsort) hf hlocals hop hrefs
      hawait).promise (fun _ _ => trivial) fun _ _ => Set.subset_union_left

omit [HostWorld F σ] in
theorem typed_step (hstack : sites .nativeStack) (hsort : sites .sortOrder) (hp : p.Fits) :
    Typed (vmTheory p hosts sites running) Γ (step : M F σ Step) (fun _ => True)
      Step.refs := by
  refine Typed.bind typed_top fun frame hframe => ?_
  obtain ⟨f, hf, hlocals⟩ := hframe
  refine Typed.bind (typed_function hf) fun g hg => ?_
  subst hg
  split
  · next op hop =>
      refine Typed.bind (typed_log rfl (by simp) (by simp)) fun _ _ => ?_
      refine Typed.bind (typed_modifyTop (fun _ => Set.subset_union_left) fun _ => id)
        fun _ _ => ?_
      exact typed_executeAny hstack hsort hp hf hlocals (List.mem_of_getElem? hop)
        fun r hr => Or.inl (Or.inl (Or.inl (Or.inr hr)))
  · exact typed_error _

omit [Platform F] [HostWorld F σ] in
/-- Pushing a result never blocks. -/
theorem exec_result_ne_blocked {s s' : State F σ} {h promise : Handle} :
    (push h >>= fun _ => pure .continue : M F σ Step).exec s ≠ (.ok (.blocked promise), s') := by
  intro he
  obtain ⟨u, s₁, -, he⟩ := Prog.exec_bind_eq_ok he
  cases he

omit [Platform F] [HostWorld F σ] in
theorem exec_raise_ne_blocked {s s' : State F σ} {h promise : Handle} :
    (raise h : M F σ Step).exec s ≠ (.ok (.blocked promise), s') := by
  intro he
  obtain ⟨u, s₁, -, he⟩ := Prog.exec_bind_eq_ok he
  obtain ⟨frames, s₂, -, he⟩ := Prog.exec_bind_eq_ok he
  rw [Prog.exec_pure] at he
  split at he <;> cases he

omit [Platform F] [HostWorld F σ] in
/-- A blocked `await` has pushed its promise back. -/
theorem exec_await_blocked {s s' : State F σ} {promise : Handle}
    (h : (await : M F σ Step).exec s = (.ok (.blocked promise), s')) :
    ∃ frame frames, s'.frames = frame :: frames ∧ frame.stack.head? = some promise := by
  rw [await] at h
  obtain ⟨x, s₁, hpop, h₁⟩ := Prog.exec_bind_eq_ok h
  obtain ⟨v, s₂, hget, h₂⟩ := Prog.exec_bind_eq_ok h₁
  clear h h₁
  have hs₂ : s₂ = s₁ := by
    have : (get x : M F σ (Value F)).exec s₁ = (s₁.vm.heap.get x, s₁) := rfl
    rw [this] at hget
    exact (congrArg Prod.snd hget).symm
  subst hs₂
  split at h₂
  · exact absurd h₂ exec_result_ne_blocked
  · exact absurd h₂ exec_raise_ne_blocked
  · cases h₂
  · rw [exec_pop] at hpop
    rcases hframes : s.frames with - | ⟨frame, frames⟩
    · rw [hframes] at hpop
      cases hpop
    · rw [hframes] at hpop
      dsimp only at hpop
      rcases hstack : frame.stack with - | ⟨k, stack⟩
      · rw [hstack] at hpop
        cases hpop
      · rw [hstack] at hpop
        cases hpop
        cases h₂
        exact ⟨_, _, rfl, rfl⟩
  · cases h₂

omit [Platform F] [HostWorld F σ] in
/-- The state an instruction starts in. -/
theorem fetch_inv {s : State F σ} (hs : Inv p hosts running s) {frame : Frame}
    {frames : List Frame} (hframes : s.frames = frame :: frames) (op : Op F) :
    Inv p hosts running
      { s with
        frames := { frame with ip := frame.ip + 1 } :: frames
        trace := ⟨.instruction op, s.vm, s.frames⟩ :: s.trace } := by
  have hmem : frame ∈ s.frames := by rw [hframes]; exact List.mem_cons_self
  have hrest : ∀ x ∈ frames, x ∈ s.frames := fun x hx => by
    rw [hframes]; exact List.mem_cons_of_mem _ hx
  refine (hs.log (.instruction op) (by simp) (by simp) (by simp)).of_frames
    ({ frame with ip := frame.ip + 1 } :: frames) ?_ ?_ ?_
  · rintro r ⟨x, hx, hr⟩
    rcases List.mem_cons.mp hx with rfl | hx
    · exact hs.sound.frameRefs r ⟨frame, hmem, hr⟩
    · exact hs.sound.frameRefs r ⟨x, hrest x hx, hr⟩
  · intro x hx
    rcases List.mem_cons.mp hx with rfl | hx
    · exact hs.sound.wellFormed frame hmem
    · exact hs.sound.wellFormed x (hrest x hx)
  · have := hs.sound.depth
    rw [hframes] at this
    exact this

omit [HostWorld F σ] in
/-- What a step can do: nothing but fail with a text, or execute the instruction
the top frame points at. -/
theorem step_cases {s s' : State F σ} (hs : Inv p hosts running s) {r : Except Fault Step}
    (h : (step : M F σ Step).exec s = (r, s')) :
    (∃ message, r = .error (.error message) ∧ s' = s) ∨
      ∃ frame frames f op, s.frames = frame :: frames ∧
        p.functions[frame.function]? = some f ∧ frame.locals.length = f.locals ∧
        f.code[frame.ip]? = some op ∧
        (execute frame op : M F σ Step).exec
          { s with
            frames := { frame with ip := frame.ip + 1 } :: frames
            trace := ⟨.instruction op, s.vm, s.frames⟩ :: s.trace } = (r, s') := by
  rw [exec_step] at h
  rcases hframes : s.frames with - | ⟨frame, frames⟩
  · rw [hframes] at h
    cases h
    exact Or.inl ⟨_, rfl, rfl⟩
  · obtain ⟨f, hf, hlocals⟩ := hs.sound.wellFormed frame
      (by rw [hframes]; exact List.mem_cons_self)
    rw [hframes, hs.sound.program] at h
    dsimp only at h
    rw [hf] at h
    dsimp only at h
    rcases hop : f.code[frame.ip]? with - | op
    · rw [hop] at h
      cases h
      exact Or.inl ⟨_, rfl, rfl⟩
    · rw [hop] at h
      exact Or.inr ⟨frame, frames, f, op, rfl, hf, hlocals, hop, h⟩

omit [HostWorld F σ] in
/-- What a step blocks on is on top of the operand stack. -/
theorem exec_step_blocked (hp : p.Fits) {s s' : State F σ} (hs : Inv p hosts running s)
    {promise : Handle} (h : (step : M F σ Step).exec s = (.ok (.blocked promise), s')) :
    ∃ frame frames, s'.frames = frame :: frames ∧ frame.stack.head? = some promise := by
  rcases step_cases hs h with ⟨message, hr, -⟩ |
    ⟨frame, frames, f, op, hframes, hf, hlocals, hop, h⟩
  · cases hr
  · by_cases hawait : op = .await
    · subst hawait
      exact exec_await_blocked h
    · -- no other instruction blocks
      exfalso
      have htyped : Typed (vmTheory p hosts (fun _ => True) running) frame.refs
          (execute frame op : M F σ Step) (fun r => r.isBlocked = false) Step.refs :=
        typed_execute hp (fun _ => trivial) (fun _ => trivial) hf hlocals
          (List.mem_of_getElem? hop) (Set.Subset.refl _) hawait
      have hres := htyped.ok (fetch_inv hs hframes op) (fun r hr => hs.sound.frameRefs r
        ⟨frame, by rw [hframes]; exact List.mem_cons_self, hr⟩) h
      cases hres.2.2.1

end Ops

end M

end Deka.Vm
