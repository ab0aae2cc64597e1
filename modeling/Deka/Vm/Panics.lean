/-
Deka/Vm/Panics.lean

When an instruction panics.

A step of a validated program panics in two cases only, and both can be read off
the machine before the step (`Event.Risky`): the search of a field enters embedded
structs deeper than the native stack allows, or `sort` is given keys the library's
sort gives up on.
-/
import Deka.Vm.StepTyping

namespace Deka.Vm

open Deka.Lib

set_option linter.dupNamespace false

variable {F σ : Type}

/-! ### The search of a field -/

namespace Heap

/-- The search of `name` from a handle finds no owner. -/
inductive Missing (H : Heap F) (name : String) : Handle → Prop where
  | other {h : Handle} {v : Value F} :
      H.lookup h = some v → (∀ r, v ≠ .record r) → Missing H name h
  | plain {h : Handle} {r : Record} :
      H.lookup h = some (.record r) → r.containsKey name = false → r.structName = none →
      Missing H name h
  | struct {h : Handle} {r : Record} :
      H.lookup h = some (.record r) → r.containsKey name = false → r.structName ≠ none →
      (∀ embed ∈ r.embeds, ∀ k, r.get? embed = some k → Missing H name k) → Missing H name h

/-- The search of `name` from `h` goes on in the embedded struct `k`: the own fields
of `h` and the embeds before `k` do not have it. -/
def Enters (H : Heap F) (name : String) (h k : Handle) : Prop :=
  ∃ r pre embed post, H.lookup h = some (.record r) ∧ r.containsKey name = false ∧
    r.structName ≠ none ∧ r.embeds = pre ++ embed :: post ∧ r.get? embed = some k ∧
    ∀ e ∈ pre, ∀ j, r.get? e = some j → H.Missing name j

/-- The search of `name` from a handle nests at least this deep. -/
inductive Nests (H : Heap F) (name : String) : Nat → Handle → Prop where
  | zero (h : Handle) : Nests H name 0 h
  | succ {depth : Nat} {h k : Handle} :
      H.Enters name h k → Nests H name depth k → Nests H name (depth + 1) h

/-- A search that goes round in circles nests arbitrarily deep. -/
theorem Nests.of_enters_self {H : Heap F} {name : String} {h : Handle}
    (he : H.Enters name h h) (depth : Nat) : H.Nests name depth h := by
  induction depth with
  | zero => exact .zero h
  | succ depth ih => exact .succ he ih

end Heap

namespace HeapM

theorem exec_observe {H : Heap F} (hreads : H.reads = none) (h : Handle) (read : Read) :
    (observe h read).exec H = (.ok (), H) := by
  rw [observe, Prog.exec_ofExec, Heap.observe, hreads]

/-- The embeds of a struct, one after the other. -/
theorem exec_findEmbed {H : Heap F} {name : String} {f : String → HeapM F (Option Handle)}
    {r : Record} {depth : Nat}
    (hf : ∀ embed, ∃ x, (f embed).exec H = (x, H) ∧
      (x = .ok none → ∀ k, r.get? embed = some k → H.Missing name k) ∧
      ∀ site, x = .error (.panic site) →
        ∃ k, r.get? embed = some k ∧ H.Nests name depth k) (embeds : List String) :
    ∃ x, (embeds.findSomeM? f).exec H = (x, H) ∧
      (x = .ok none → ∀ embed ∈ embeds, ∀ k, r.get? embed = some k → H.Missing name k) ∧
      ∀ site, x = .error (.panic site) → ∃ pre embed post k, embeds = pre ++ embed :: post ∧
        r.get? embed = some k ∧ H.Nests name depth k ∧
        ∀ e ∈ pre, ∀ j, r.get? e = some j → H.Missing name j := by
  induction embeds with
  | nil =>
      refine ⟨.ok none, rfl, fun _ embed he => absurd he List.not_mem_nil, ?_⟩
      intro site hx
      cases hx
  | cons embed embeds ih =>
      obtain ⟨x, hx, hnone, hpanic⟩ := hf embed
      rw [List.findSomeM?_cons]
      rcases x with e | - | k
      · refine ⟨.error e, Prog.exec_bind_error hx, nofun, ?_⟩
        intro site he
        obtain ⟨k, hk, hn⟩ := hpanic site he
        exact ⟨[], embed, embeds, k, rfl, hk, hn, fun e he => absurd he List.not_mem_nil⟩
      · obtain ⟨y, hy, hynone, hypanic⟩ := ih
        refine ⟨y, (Prog.exec_bind_ok hx).trans hy, ?_, ?_⟩
        · intro h e he
          rcases List.mem_cons.mp he with rfl | he
          · exact hnone rfl
          · exact hynone h e he
        · intro site h
          obtain ⟨pre, e, post, k, rfl, hk, hn, hpre⟩ := hypanic site h
          refine ⟨embed :: pre, e, post, k, rfl, hk, hn, fun x hx => ?_⟩
          rcases List.mem_cons.mp hx with rfl | hx
          · exact hnone rfl
          · exact hpre x hx
      · refine ⟨.ok (some k), (Prog.exec_bind_ok hx).trans rfl, nofun, ?_⟩
        intro site h
        cases h

/-- The search leaves the heap alone; it panics only when it nests too deep. -/
theorem exec_fieldOwner {H : Heap F} (hreads : H.reads = none) {name : String} (depth : Nat)
    (h : Handle) :
    ∃ x, (fieldOwner depth h name).exec H = (x, H) ∧ (x = .ok none → H.Missing name h) ∧
      ∀ site, x = .error (.panic site) → H.Nests name depth h := by
  induction depth generalizing h with
  | zero =>
      refine ⟨.error (.panic .nativeStack), rfl, (fun h => by cases h), ?_⟩
      exact fun _ _ => .zero h
  | succ depth ih =>
      rw [fieldOwner, Prog.exec_bind_ok (exec_observe hreads h _), Prog.exec_bind, get,
        Prog.exec_reads]
      rcases hl : H.lookup h with - | v
      · have hget : H.get h = .error .stale := by rw [Heap.get, hl]
        rw [hget]
        exact ⟨_, rfl, (fun h => by cases h), fun _ h => by cases h⟩
      · rw [Heap.get_of_lookup hl]
        dsimp only
        have hother : ∀ w : Value F, H.lookup h = some w → (∀ r, w ≠ .record r) →
            ∃ x, (pure none : HeapM F (Option Handle)).exec H = (x, H) ∧
              (x = .ok none → H.Missing name h) ∧
              ∀ site, x = .error (.panic site) → H.Nests name (depth + 1) h := by
          intro w hw hne
          exact ⟨.ok none, rfl, fun _ => .other hw hne, fun _ h => by cases h⟩
        cases v with
        | record r =>
            dsimp only
            by_cases hown : r.containsKey name = true
            · rw [if_pos hown]
              exact ⟨.ok (some h), rfl, (fun h => by cases h), fun _ h => by cases h⟩
            · have hown' : r.containsKey name = false := Bool.not_eq_true _ ▸ hown
              rw [if_neg hown]
              by_cases hplain : r.structName.isNone = true
              · rw [if_pos hplain]
                exact ⟨.ok none, rfl, fun _ => .plain hl hown' (Option.isNone_iff_eq_none.mp hplain),
                  fun site h => by cases h⟩
              · rw [if_neg hplain]
                have hstruct : r.structName ≠ none := fun h => hplain (by rw [h]; rfl)
                obtain ⟨x, hx, hnone, hpanic⟩ := exec_findEmbed (H := H) (r := r)
                  (f := fun embed => do
                    observe h (.field embed)
                    (r.get? embed).elim (return none) fun value =>
                      fieldOwner depth value name) (by
                  intro embed
                  rw [Prog.exec_bind_ok (exec_observe hreads h _)]
                  rcases hk : r.get? embed with - | k
                  · exact ⟨.ok none, rfl, (fun _ _ hj => by cases hj), fun _ h => by cases h⟩
                  · obtain ⟨x, hx, hnone, hpanic⟩ := ih k
                    refine ⟨x, hx, fun h j hj => ?_, fun site h => ⟨k, rfl, hpanic site h⟩⟩
                    cases hj
                    exact hnone h) r.embeds
                have hsearch : ∀ {g : String → HeapM F (Option Handle)},
                    (∀ embed, g embed = do
                      observe h (.field embed)
                      (r.get? embed).elim (return none) fun value =>
                        fieldOwner depth value name) →
                    (r.embeds.findSomeM? g).exec H = (x, H) := by
                  intro g hg
                  rw [funext hg, hx]
                refine ⟨x, hsearch fun embed => ?_, fun h => .struct hl hown' hstruct (hnone h),
                  fun site h => ?_⟩
                · cases r.get? embed
                  · rfl
                  · rfl
                obtain ⟨pre, embed, post, k, hembeds, hk, hn, hpre⟩ := hpanic site h
                exact .succ ⟨r, pre, embed, post, hl, hown', hstruct, hembeds, hk, hpre⟩ hn
        | _ => exact hother _ hl (by simp)

end HeapM

/-! ### Risky steps -/

variable [Platform F]

/-- The keys `sort` compares. -/
def Heap.sortKeys (H : Heap F) (items : List Handle) : Except Fault (List (SortKey F)) :=
  items.mapM fun h => do sortKey (← H.get h)

/-- The operands on which an instruction panics. -/
def Op.Risky (H : Heap F) : Op F → List Handle → Prop
  | .field name, h :: _ | .optionalField name, h :: _ =>
      (∃ r, H.lookup h = some (.record r)) ∧ H.Nests name (Platform.nativeDepth F) h
  | .fieldSet name, _ :: h :: _ => H.Nests name (Platform.nativeDepth F) h
  | .listMut .sort, h :: _ =>
      ∃ items keys, H.lookup h = some (.list items) ∧ H.sortKeys items = .ok keys ∧
        Platform.sortBy (keys.zip items) = none
  | _, _ => False

/-- The step of this event panics. -/
def Event.Risky (e : Event F σ) : Prop :=
  ∃ op frame frames, e.label = .instruction op ∧ e.frames = frame :: frames ∧
    op.Risky e.vm.heap frame.stack

namespace M

variable {p : Program F} {hosts : Hosts F σ} {running : Option (Nat × Handle)}

omit [Platform F] in
theorem exec_get (s : State F σ) (h : Handle) :
    (get h : M F σ (Value F)).exec s = (s.vm.heap.get h, s) := rfl

omit [Platform F] in
theorem exec_observe {s : State F σ} (hreads : s.vm.heap.reads = none) (h : Handle)
    (read : Read) : (observe h read : M F σ Unit).exec s = (.ok (), s) := by
  rw [observe, liftHeap, Prog.exec_within, HeapM.exec_observe hreads]

omit [Platform F] in
/-- A typed program that allows no panic. -/
theorem not_panic {α : Type} {m : M F σ α} {φ : α → Prop} {R : α → Set Ref} {Γ : Set Ref}
    (hm : Typed (vmTheory p hosts (fun _ => False) running) Γ m φ R) {s s' : State F σ}
    (hs : Inv p hosts running s) (hΓ : ∀ r ∈ Γ, s.vm.heap.Good r) {site : PanicSite} :
    m.exec s ≠ (.error (.panic site), s') :=
  fun h => (hm.error hs hΓ h).2.2

omit [Platform F] in
/-- A pop that succeeds takes the top of the operand stack. -/
theorem pop_eq_ok {s s' : State F σ} {h : Handle}
    (hp : (pop : M F σ Handle).exec s = (.ok h, s')) :
    ∃ frame frames stack, s.frames = frame :: frames ∧ frame.stack = h :: stack ∧
      s' = { s with frames := { frame with stack } :: frames } := by
  rw [exec_pop] at hp
  rcases hframes : s.frames with - | ⟨frame, frames⟩
  · rw [hframes] at hp
    cases hp
  · rw [hframes] at hp
    dsimp only at hp
    rcases hstack : frame.stack with - | ⟨k, stack⟩
    · rw [hstack] at hp
      cases hp
    · rw [hstack] at hp
      cases hp
      exact ⟨frame, frames, stack, rfl, hstack, rfl⟩

omit [Platform F] in
/-- Popping keeps the invariant, and what was popped is good. -/
theorem pop_good {s s' : State F σ} {h : Handle} (hs : Inv p hosts running s)
    (hp : (pop : M F σ Handle).exec s = (.ok h, s')) :
    Inv p hosts running s' ∧ s'.vm = s.vm ∧ s'.vm.heap.Good (.val h) := by
  have ht : Typed (vmTheory p hosts (fun _ => False) running) ∅ (pop : M F σ Handle)
      (fun _ => True) fun h => {.val h} := typed_pop
  have ht := ht.ok hs (fun r hr => absurd hr (Set.notMem_empty r)) hp
  obtain ⟨frame, frames, stack, -, -, rfl⟩ := pop_eq_ok hp
  exact ⟨ht.1, rfl, ht.2.2.2 _ rfl⟩

omit [Platform F] in
/-- The search panics only where it nests too deep. -/
theorem search_panic {s s' : State F σ} (hreads : s.vm.heap.reads = none) {depth : Nat}
    {k : Handle} {name : String} {site : PanicSite}
    (h : (liftHeap (HeapM.fieldOwner depth k name) : M F σ (Option Handle)).exec s =
      (.error (.panic site), s')) : s.vm.heap.Nests name depth k := by
  obtain ⟨x, hx, -, hpanic⟩ := HeapM.exec_fieldOwner hreads depth k
  rw [liftHeap, Prog.exec_within, hx] at h
  exact hpanic site (congrArg Prod.fst h)

omit [Platform F] in
/-- The owner a search found is good. -/
theorem search_good {s s' : State F σ} (hs : Inv p hosts running s) {k : Handle}
    (hk : s.vm.heap.Good (.val k)) {depth : Nat} {name : String} {owner : Option Handle}
    (h : (liftHeap (HeapM.fieldOwner depth k name) : M F σ (Option Handle)).exec s =
      (.ok owner, s')) :
    Inv p hosts running s' ∧ Extends s s' ∧
      ∀ r ∈ HeapM.ownerRefs owner, s'.vm.heap.Good r := by
  have ht : Typed (vmTheory p hosts (fun _ => True) running) {.val k}
      (liftHeap (HeapM.fieldOwner depth k name) : M F σ (Option Handle)) (fun _ => True)
      HeapM.ownerRefs := typed_liftHeap (HeapM.typed_fieldOwner trivial rfl)
  obtain ⟨hs', hext, -, howner⟩ := ht.ok hs (by rintro r rfl; exact hk) h
  exact ⟨hs', hext, howner⟩

/-- Reading a field panics only where the search nests too deep. -/
theorem readField_panic (hp : p.Fits) {s s' : State F σ} (hs : Inv p hosts running s)
    {name : String} {optional : Bool} {site : PanicSite}
    (h : (readField name optional : M F σ Unit).exec s = (.error (.panic site), s')) :
    ∃ frame frames k stack, s.frames = frame :: frames ∧ frame.stack = k :: stack ∧
      (∃ r, s.vm.heap.lookup k = some (.record r)) ∧
      s.vm.heap.Nests name (Platform.nativeDepth F) k := by
  have hreads := hs.sound.heap.reads
  rw [readField] at h
  rcases Prog.exec_bind_eq_error h with hpop | ⟨k, s₁, hpop, h₁⟩
  · exact absurd hpop (not_panic typed_pop hs (fun r hr => absurd hr (Set.notMem_empty r)))
  clear h
  obtain ⟨hs₁, hvm, hk⟩ := pop_good hs hpop
  obtain ⟨frame, frames, stack, hframes, hstack, rfl⟩ := pop_eq_ok hpop
  obtain ⟨v, hv, hc⟩ := hk
  have hreads₁ := hs₁.sound.heap.reads
  have hget := (exec_get _ k).trans (congrArg (·, _) (Heap.get_of_lookup hv))
  rw [Prog.exec_bind_ok hget, Prog.exec_bind_ok (exec_observe hreads₁ k _),
    Prog.exec_bind_ok hget] at h₁
  -- what is pushed, and what is looked up, never panics
  have hpush : ∀ {w : Value F} {t : State F σ}, w.WellFormed p → w.isCell = false →
      w.isSettled = false → w.refs = ∅ →
      (alloc w >>= fun x => push x : M F σ Unit).exec _ ≠ (.error (.panic site), t) :=
    fun hw hc hs hr => not_panic (typed_pushNew (Γ := ∅) hw hc hs (by rw [hr])) hs₁
      (fun r hr => absurd hr (Set.notMem_empty r))
  have hrefs := hs₁.sound.heap.good k v hv
  cases v with
  | props fields =>
      refine absurd h₁ (not_panic (typed_readProp hp (Γ := vals fields.values)
        (fun x hx => ?_) (by simp)) hs₁ hrefs)
      exact val_mem_vals.mpr (BTreeMap.mem_values_of_get? hx)
  | list items =>
      dsimp only at h₁
      split at h₁
      · exact absurd h₁ (hpush trivial rfl rfl rfl)
      · cases h₁
  | bytes b =>
      dsimp only at h₁
      split at h₁
      · exact absurd h₁ (hpush trivial rfl rfl rfl)
      · cases h₁
  | string text =>
      dsimp only at h₁
      split at h₁
      · exact absurd h₁ (hpush trivial rfl rfl rfl)
      · cases h₁
  | record r =>
      refine ⟨frame, frames, k, stack, hframes, hstack, ⟨r, hv⟩, ?_⟩
      rcases Prog.exec_bind_eq_error h₁ with howner | ⟨owner, s₂, howner, h₂⟩
      · exact search_panic hreads₁ howner
      · obtain ⟨hs₂, -, hgood⟩ := search_good hs₁ ⟨_, hv, rfl⟩ howner
        exact absurd h₂ (not_panic (typed_ownerField (Set.Subset.refl _) name optional)
          hs₂ hgood)
  | _ => cases h₁

/-- Assigning a field panics only where the search nests too deep. -/
theorem fieldSet_panic {s s' : State F σ} (hs : Inv p hosts running s) {frame₀ : Frame}
    {name : String} {site : PanicSite}
    (h : (execute frame₀ (.fieldSet name) : M F σ Step).exec s =
      (.error (.panic site), s')) :
    ∃ frame frames value k stack, s.frames = frame :: frames ∧
      frame.stack = value :: k :: stack ∧
      s.vm.heap.Nests name (Platform.nativeDepth F) k := by
  rw [execute] at h
  rcases Prog.exec_bind_eq_error h with hpop | ⟨value, s₁, hpop, h₁⟩
  · exact absurd hpop (not_panic typed_pop hs (fun r hr => absurd hr (Set.notMem_empty r)))
  obtain ⟨hs₁, hvm₁, hvalue⟩ := pop_good hs hpop
  rcases Prog.exec_bind_eq_error h₁ with hpop' | ⟨k, s₂, hpop', h₂⟩
  · exact absurd hpop' (not_panic typed_pop hs₁ (fun r hr => absurd hr (Set.notMem_empty r)))
  obtain ⟨hs₂, hvm₂, hk⟩ := pop_good hs₁ hpop'
  obtain ⟨frame, frames, stack, hframes, hstack, rfl⟩ := pop_eq_ok hpop
  obtain ⟨frame', frames', stack', hframes', hstack', rfl⟩ := pop_eq_ok hpop'
  cases hframes'
  have hstack' : stack = k :: stack' := hstack'
  subst hstack'
  refine ⟨frame, frames, value, k, stack', hframes, hstack, ?_⟩
  rcases Prog.exec_bind_eq_error h₂ with howner | ⟨owner, s₃, howner, h₃⟩
  · exact search_panic hs₂.sound.heap.reads howner
  · exfalso
    obtain ⟨hs₃, hext, hgood⟩ := search_good hs₂ hk howner
    have hvalue' : s₃.vm.heap.Good (.val value) := by
      refine hext.heap.good ?_
      rw [hvm₂]
      exact hvalue
    have howner' : s₃.vm.heap.Good (.val (owner.getD k)) := by
      cases owner with
      | none => exact hext.heap.good hk
      | some x => exact hgood _ (Or.inl rfl)
    -- the assignment itself never panics
    have htyped : Typed (vmTheory p hosts (fun _ => False) running)
        ({.val value} ∪ {.val (owner.getD k)})
        (assignField (owner.getD k) name value >>= fun _ => push value >>= fun _ =>
          pure .continue : M F σ Step) (fun r => r.isBlocked = false) Step.refs :=
      Typed.bind (typed_assignField (Or.inr rfl) (Or.inl rfl) name) fun _ _ =>
        typed_result (Or.inl (Or.inl rfl))
    refine absurd h₃ (not_panic htyped hs₃ ?_)
    rintro r (rfl | rfl)
    · exact hvalue'
    · exact howner'

/-- Sorting starts with a look at the elements. -/
theorem exec_sortKeys (s : State F σ) (items : List Handle) :
    (items.mapM fun h => do
      let value ← get h
      Prog.reads fun _ => sortKey value : M F σ (List (SortKey F))).exec s =
      (s.vm.heap.sortKeys items, s) := by
  refine Prog.exec_mapM_reads (fun h => ?_) items
  rw [Prog.exec_bind, exec_get]
  rcases s.vm.heap.get h with e | value <;> rfl

/-- Sorting panics only where the library's sort does. -/
theorem sort_panic {s s' : State F σ} (hs : Inv p hosts running s) {site : PanicSite}
    (h : (listMut .sort : M F σ Unit).exec s = (.error (.panic site), s')) :
    ∃ frame frames k stack, s.frames = frame :: frames ∧ frame.stack = k :: stack ∧
      (Op.listMut .sort).Risky s.vm.heap frame.stack := by
  rw [listMut] at h
  rcases Prog.exec_bind_eq_error h with hpop | ⟨k, s₁, hpop, h₁⟩
  · exact absurd hpop (not_panic typed_pop hs (fun r hr => absurd hr (Set.notMem_empty r)))
  obtain ⟨hs₁, hvm₁, hk⟩ := pop_good hs hpop
  obtain ⟨frame, frames, stack, hframes, hstack, rfl⟩ := pop_eq_ok hpop
  obtain ⟨v, hv, -⟩ := hk
  rw [Prog.exec_bind_ok ((exec_get _ k).trans (congrArg (·, _) (Heap.get_of_lookup hv)))] at h₁
  cases v with
  | list items =>
      refine ⟨frame, frames, k, stack, hframes, hstack, ?_⟩
      rw [hstack]
      have hitems : ∀ r ∈ vals items, s.vm.heap.Good r := hs₁.sound.heap.good k _ hv
      rcases Prog.exec_bind_eq_error h₁ with hsort | ⟨sorted, s₂, hsort, h₂⟩
      · rw [sortItems, Prog.exec_bind, exec_sortKeys] at hsort
        rcases hkeys : s.vm.heap.sortKeys items with e | keys
        · have hclean : Clean (s.vm.heap.sortKeys items) := Clean.mapM fun h hh =>
            (clean_get (hitems _ (val_mem_vals.mpr hh))).bind fun v _ e he => sortKey_error he
          obtain ⟨message, rfl⟩ := hclean e hkeys
          rw [hkeys] at hsort
          cases hsort
        · rw [hkeys] at hsort
          dsimp only at hsort
          split at hsort
          · cases hsort
          · next hnone => exact ⟨items, keys, hv, hkeys, hnone⟩
      · exfalso
        have hsorted : Typed (vmTheory p hosts (fun _ => True) running) (vals items)
            (sortItems items : M F σ (List Handle)) (fun _ => True) vals :=
          typed_sortItems trivial (Set.Subset.refl _)
        obtain ⟨hs₂, hext, -, hgood⟩ := hsorted.ok hs₁ hitems hsort
        -- storing the sorted list never panics
        have hstore : Typed (vmTheory p hosts (fun _ => False) running) (vals sorted ∪ {.val k})
            (mutate k (onList "sort requires list" fun _ => .ok (sorted, ())) >>= fun _ =>
              push k : M F σ Unit) (fun _ => True) fun _ => ∅ := by
          refine Typed.bind (φ := fun _ => True) (R := fun _ => ∅)
            (typed_onList (Or.inr rfl) ?_ ?_) fun _ _ => typed_push (Or.inl (Or.inr rfl))
          · intro items items' a h
            cases h
            exact ⟨fun r hr => Or.inl (Or.inl hr), trivial, Set.empty_subset _⟩
          · intro items e h
            cases h
        refine absurd h₂ (not_panic hstore hs₂ ?_)
        rintro r (hr | rfl)
        · exact hgood r hr
        · exact hext.heap.good ⟨_, hv, rfl⟩
  | _ => cases h₁

/-- **A step panics only when it is risky**, and the trace shows the step. -/
theorem step_panic (hp : p.Fits) {s s' : State F σ} (hs : Inv p hosts running s)
    {site : PanicSite} (h : (step : M F σ Step).exec s = (.error (.panic site), s')) :
    ∃ e ∈ s'.trace, e.Risky := by
  rcases step_cases hs h with ⟨message, hr, -⟩ |
    ⟨frame, frames, f, op, hframes, hf, hlocals, hop, hexec⟩
  · cases hr
  have hs₁ := fetch_inv hs hframes op
  have hrefs : ∀ r ∈ frame.refs, s.vm.heap.Good r := fun r hr =>
    hs.sound.frameRefs r ⟨frame, by rw [hframes]; exact List.mem_cons_self, hr⟩
  have hcode := List.mem_of_getElem? hop
  -- the step is on record
  have hmem : (⟨.instruction op, s.vm, s.frames⟩ : Event F σ) ∈ s'.trace := by
    have ht : Typed (vmTheory p hosts (fun _ => True) running) frame.refs
        (execute frame op : M F σ Step) (fun _ => True) Step.refs :=
      typed_executeAny trivial trivial hp hf hlocals hcode (Set.Subset.refl _)
    obtain ⟨-, hext, -⟩ := ht.error hs₁ hrefs hexec
    obtain ⟨events, hevents, -⟩ := hext.trace
    rw [hevents]
    exact List.mem_append_right _ List.mem_cons_self
  refine ⟨_, hmem, op, frame, frames, rfl, hframes, ?_⟩
  cases op with
  | field name =>
      rcases Prog.exec_bind_eq_error hexec with hread | ⟨u, s₂, -, hrest⟩
      · obtain ⟨x, xs, k, stack, hx, hstack, hrecord, hnests⟩ := readField_panic hp hs₁ hread
        cases hx
        have hstack : frame.stack = k :: stack := hstack
        rw [hstack]
        exact ⟨hrecord, hnests⟩
      · cases hrest
  | optionalField name =>
      rcases Prog.exec_bind_eq_error hexec with hread | ⟨u, s₂, -, hrest⟩
      · obtain ⟨x, xs, k, stack, hx, hstack, hrecord, hnests⟩ := readField_panic hp hs₁ hread
        cases hx
        have hstack : frame.stack = k :: stack := hstack
        rw [hstack]
        exact ⟨hrecord, hnests⟩
      · cases hrest
  | fieldSet name =>
      obtain ⟨x, xs, value, k, stack, hx, hstack, hnests⟩ := fieldSet_panic hs₁ hexec
      cases hx
      have hstack : frame.stack = value :: k :: stack := hstack
      rw [hstack]
      exact hnests
  | listMut kind =>
      by_cases hkind : kind = .sort
      · subst hkind
        rcases Prog.exec_bind_eq_error hexec with hsort | ⟨u, s₂, -, hrest⟩
        · obtain ⟨x, xs, k, stack, hx, hstack, hrisky⟩ := sort_panic hs₁ hsort
          cases hx
          exact hrisky
        · cases hrest
      · have hsorts : (Op.listMut kind : Op F).sorts = false := by cases kind <;> first | rfl | exact absurd rfl hkind
        exact absurd hexec (not_panic (typed_execute hp (by simp [Op.searches])
          (by simp [hsorts]) hf hlocals hcode (Set.Subset.refl _) (by simp)) hs₁ hrefs)
  | await =>
      exact absurd hexec (not_panic typed_await hs₁ fun r hr => absurd hr (Set.notMem_empty r))
  | _ =>
      exact absurd hexec (not_panic (typed_execute hp (by simp [Op.searches])
        (by simp [Op.sorts]) hf hlocals hcode (Set.Subset.refl _) (by simp)) hs₁ hrefs)

end M

end Deka.Vm
