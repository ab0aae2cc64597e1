/-
Deka/NativeIr/FailedEdits.lean

An edit of the retained tree that fails has changed nothing, as long as identities last.

Everything an edit checks is checked before it writes.  What it does then runs to the end
(`Runs`): it fails only where the identities run out, and makes at most as many nodes as it was
given.  The root of a tree is always registered, which is what the last lookup of an update asks.
-/
import Deka.Lib.Fallible
import Deka.NativeIr.Tree

namespace Deka.NativeIr.Tree

open Deka.Lib

variable {Style α β : Type}

/-! ### Stores in order -/

/-- Every node of the tree is registered under its identity. -/
structure Registered (s : Store Style) : Prop where
  node : ∀ a, s.owns a = true →
    a < s.size ∧ (s.record a).id < s.next ∧ BTreeMap.get? s.records (s.record a).id = some a
  root : ∀ a, s.root = some a → s.owns a = true
  next : s.next < identityLimit

/-- Nodes stay with their tree. -/
def Later (s t : Store Style) : Prop := ∀ a, s.owns a = true → t.owns a = true

theorem owns_modify {s : Store Style} {a : Nat} {f : Record Style → Record Style}
    (hf : ∀ r, (f r).id = r.id ∧ (f r).owner = r.owner) (b : Nat) :
    ((s.modify a f).record b).id = (s.record b).id ∧ (s.modify a f).owns b = s.owns b := by
  rw [Store.owns, Store.owns, Store.modify]
  by_cases h : b = a
  · subst h
    dsimp only
    rw [Function.update_self, (hf _).1, (hf _).2]
    exact ⟨rfl, rfl⟩
  · dsimp only
    rw [Function.update_of_ne h]
    exact ⟨rfl, rfl⟩

theorem Registered.modify {s : Store Style} (hs : Registered s) {a : Nat}
    {f : Record Style → Record Style} (hf : ∀ r, (f r).id = r.id ∧ (f r).owner = r.owner) :
    Registered (s.modify a f) where
  node := by
    intro b hb
    obtain ⟨hid, howns⟩ := owns_modify (s := s) (a := a) hf b
    rw [hid]
    exact hs.node b (howns ▸ hb)
  root := by
    intro b hb
    rw [(owns_modify hf b).2]
    exact hs.root b hb
  next := hs.next

/-! ### Programs that run to the end -/

/-- A program that fails only where identities run out, and makes at most `k` nodes. -/
def Runs (k : Nat) (Γ : Set Nat) (m : Edit Style α) (R : α → Set Nat) : Prop :=
  ∀ s, Registered s → (∀ a ∈ Γ, s.owns a = true) →
    match m.exec s with
    | (.ok a, t) => Registered t ∧ Later s t ∧ t.next ≤ s.next + k ∧ ∀ r ∈ R a, t.owns r = true
    | (.error _, t) => Registered t ∧ identityLimit ≤ s.next + k

namespace Runs

variable {k k' : Nat} {Γ Δ : Set Nat} {m : Edit Style α} {f : α → Edit Style β}
  {R R' : α → Set Nat} {Q : β → Set Nat}

theorem pure {a : α} (h : R a ⊆ Γ) : Runs k Γ (Pure.pure a : Edit Style α) R := by
  intro s hs hΓ
  exact ⟨hs, fun _ h => h, Nat.le_add_right _ _, fun r hr => hΓ r (h hr)⟩

theorem bind (hm : Runs k Γ m R) (hf : ∀ a, Runs k' (Γ ∪ R a) (f a) Q) :
    Runs (k + k') Γ (m >>= f) Q := by
  intro s hs hΓ
  rw [Prog.exec_bind]
  have h := hm s hs hΓ
  rcases hr : m.exec s with ⟨r, t⟩
  rw [hr] at h
  cases r with
  | error e => exact ⟨h.1, by have := h.2; omega⟩
  | ok a =>
    obtain ⟨ht, hlater, hnext, hR⟩ := h
    have hctx : ∀ r ∈ Γ ∪ R a, t.owns r = true := by
      rintro r (hr | hr)
      · exact hlater r (hΓ r hr)
      · exact hR r hr
    have h' := hf a t ht hctx
    dsimp only
    rcases hr' : (f a).exec t with ⟨r', u⟩
    rw [hr'] at h'
    cases r' with
    | error e => exact ⟨h'.1, by have := h'.2; omega⟩
    | ok b =>
      obtain ⟨hu, hlater', hnext', hQ⟩ := h'
      exact ⟨hu, fun r hr => hlater' r (hlater r hr), by omega, hQ⟩

theorem weaken (h : Runs k Δ m R) (hk : k ≤ k') (hΔ : Δ ⊆ Γ) (hR : ∀ a, R' a ⊆ R a) :
    Runs k' Γ m R' := by
  intro s hs hΓ
  have h := h s hs fun a ha => hΓ a (hΔ ha)
  rcases hr : m.exec s with ⟨r, t⟩
  rw [hr] at h
  cases r with
  | error e => exact ⟨h.1, by have := h.2; omega⟩
  | ok a =>
    obtain ⟨ht, hlater, hnext, hgood⟩ := h
    exact ⟨ht, hlater, by omega, fun r hr => hgood r (hR a hr)⟩

/-- Looking at the store. -/
theorem get {f : Store Style → Edit Style β} (h : ∀ s, Runs k Γ (f s) Q) :
    Runs k Γ (MonadState.get >>= f) Q := by
  intro s hs hΓ
  rw [Prog.exec_bind_ok (Prog.exec_get s)]
  exact h s s hs hΓ

/-- A step that makes no node and returns nothing. -/
theorem seq {m : Edit Style Unit} {f : Unit → Edit Style β} (hm : Runs 0 Γ m fun _ => ∅)
    (hf : Runs k Γ (f ()) Q) : Runs k Γ (m >>= f) Q := by
  have h := bind hm fun u : Unit => (show Runs k (Γ ∪ ∅) (f u) Q by rw [Set.union_empty]; exact hf)
  rwa [Nat.zero_add] at h

theorem forM {γ : Type} {f : γ → Edit Style Unit} {xs : List γ}
    (h : ∀ x ∈ xs, Runs 0 Γ (f x) fun _ => ∅) : Runs 0 Γ (xs.forM f) fun _ => ∅ := by
  induction xs with
  | nil => exact pure (Set.empty_subset _)
  | cons x xs ih =>
    exact seq (h x List.mem_cons_self) (ih fun y hy => h y (List.mem_cons_of_mem _ hy))

theorem foldlM {γ : Type} {f : α → γ → Edit Style α} {xs : List γ}
    (h : ∀ a, ∀ x ∈ xs, Runs 0 Γ (f a x) fun _ => ∅) (a : α) :
    Runs 0 Γ (xs.foldlM f a) fun _ => ∅ := by
  induction xs generalizing a with
  | nil => exact pure (Set.empty_subset _)
  | cons x xs ih =>
    rw [List.foldlM_cons]
    rw [← Nat.zero_add 0]
    refine bind (h a x List.mem_cons_self) fun b => ?_
    rw [Set.union_empty]
    exact ih (fun c y hy => h c y (List.mem_cons_of_mem _ hy)) b

end Runs

theorem runs_change {Γ : Set Nat} (a : Nat) {f : Record Style → Record Style}
    (hf : ∀ r, (f r).id = r.id ∧ (f r).owner = r.owner) :
    Runs 0 Γ (change a f) fun _ => ∅ := by
  intro s hs hΓ
  refine ⟨hs.modify hf, fun b hb => ?_, Nat.le_refl _, fun r hr => absurd hr (Set.notMem_empty r)⟩
  rw [(owns_modify hf b).2]
  exact hb

theorem runs_setParent {Γ : Set Nat} (a : Nat) (parent : Option Nat) :
    Runs 0 Γ (setParent a parent : Edit Style Unit) fun _ => ∅ :=
  runs_change a fun _ => ⟨rfl, rfl⟩

theorem runs_reclaim {Γ : Set Nat} (a : Nat) :
    Runs 0 Γ (reclaimTextOverrides a : Edit Style Unit) fun _ => ∅ :=
  runs_change a fun _ => ⟨rfl, rfl⟩

theorem runs_when {Γ : Set Nat} {condition : Bool} {m : Edit Style Unit}
    (h : Runs 0 Γ m fun _ => ∅) : Runs 0 Γ (when condition m) fun _ => ∅ := by
  rw [when]
  split
  · exact h
  · exact Runs.pure (Set.empty_subset _)

/-- The store with one more node, under the next identity. -/
def Store.push (s : Store Style) (record : Record Style) : Store Style :=
  { s with
    record := Function.update s.record s.size record
    size := s.size + 1
    records := BTreeMap.insert s.records s.next s.size
    next := s.next + 1 }

/-- The next address and the next identity are nobody's. -/
theorem Registered.push {s : Store Style} (hs : Registered s) (record : Record Style)
    (hid : record.id = s.next) (howner : record.owner = s.owner)
    (hlimit : s.next + 1 < identityLimit) :
    Registered (s.push record) ∧ Later s (s.push record) ∧ (s.push record).owns s.size = true := by
  have hnew : (s.push record).record s.size = record := Function.update_self _ _ _
  have hold : ∀ a, a ≠ s.size → (s.push record).record a = s.record a :=
    fun a ha => Function.update_of_ne ha _ _
  have hsize : ∀ a, s.owns a = true → a ≠ s.size := fun a ha => (hs.node a ha).1.ne
  have howns : (s.push record).owns s.size = true := by
    rw [Store.owns, hnew, howner]
    exact beq_self_eq_true s.owner
  have hlater : Later s (s.push record) := by
    intro a ha
    rw [Store.owns, hold a (hsize a ha)]
    exact ha
  refine ⟨⟨fun a ha => ?_, fun a ha => hlater a (hs.root a ha), hlimit⟩, hlater, howns⟩
  by_cases h : a = s.size
  · subst h
    rw [hnew, hid]
    exact ⟨Nat.lt_succ_self _, Nat.lt_succ_self _, BTreeMap.get?_insert_self _ _ _⟩
  · rw [Store.owns, hold a h] at ha
    obtain ⟨hlt, hnext, hget⟩ := hs.node a ha
    rw [hold a h]
    exact ⟨Nat.lt_succ_of_lt hlt, Nat.lt_succ_of_lt hnext,
      (BTreeMap.get?_insert_ne hnext.ne' _).trans hget⟩

theorem runs_allocate {Γ : Set Nat} (next : Prepared Style) :
    Runs 1 Γ (allocate next) fun a => {a} := by
  intro s hs hΓ
  rw [allocate, Prog.exec_bind_ok (Prog.exec_get s)]
  by_cases hlimit : identityLimit ≤ s.next + 1
  · rw [if_pos hlimit]
    exact ⟨hs, hlimit⟩
  · rw [if_neg hlimit]
    let record : Record Style := {
      id := s.next, owner := s.owner, parent := none, kind := next.kind, slot := next.slot
      authoredClasses := next.classes, authoredAttributes := next.attributes
      attributes := next.attributes, classes := next.classes, authoredText := next.text
      textOverride := none, text := next.text, style := next.style, handler := next.handler
      children := [] }
    obtain ⟨hpush, hlater, howns⟩ := hs.push record rfl rfl (Nat.lt_of_not_le hlimit)
    refine ⟨hpush, hlater, Nat.le_refl _, fun r hr => ?_⟩
    obtain rfl : r = s.size := hr
    exact howns

/-! ### Retaining -/

mutual

def Prepared.nodes : Prepared Style → Nat
  | ⟨_, _, _, _, _, _, _, children⟩ => 1 + nodesAll children

def nodesAll : List (Prepared Style) → Nat
  | [] => 0
  | next :: rest => next.nodes + nodesAll rest

end

theorem runs_reclaimTextBinding {Γ : Set Nat} (mem : Allocator Style) (a : Nat) :
    Runs 0 Γ (reclaimTextBinding mem a) fun _ => ∅ := by
  rw [reclaimTextBinding]
  refine Runs.seq (runs_reclaim a) (Runs.get fun s => ?_)
  split
  · split
    · exact runs_reclaim _
    · exact Runs.pure (Set.empty_subset _)
  · exact Runs.pure (Set.empty_subset _)

/-- What is new about a node that was retained for another. -/
def fresh (current : Option Nat) (a : Nat) : Set Nat := {b | b = a ∧ current ≠ some a}

theorem runs_nodeFor {Γ : Set Nat} (current : Option Nat) (next : Prepared Style) :
    Runs 1 Γ (nodeFor current next) (fresh current) := by
  rw [nodeFor]
  refine Runs.get fun s => ?_
  split
  · next node hnode =>
    have hcurrent : current = some node := (Option.filter_eq_some_iff.mp hnode).1
    exact Runs.pure fun b hb => absurd hcurrent (hb.1 ▸ hb.2)
  · exact (runs_allocate next).weaken (Nat.le_refl _) (Set.Subset.refl _) fun a b hb => hb.1

theorem patchRecord_keeps (next : Prepared Style) (r : Record Style) :
    (patchRecord next r).id = r.id ∧ (patchRecord next r).owner = r.owner := by
  rw [patchRecord]
  split <;> split <;> exact ⟨rfl, rfl⟩

mutual

theorem runs_retain (mem : Allocator Style) :
    ∀ (next : Prepared Style) (current : Option Nat) (Γ : Set Nat),
      Runs next.nodes Γ (retain mem current next) (fresh current)
  | ⟨kind, slot, classes, attributes, style, text, handler, children⟩, current, Γ => by
    rw [retain, Prepared.nodes]
    refine Runs.bind (runs_nodeFor current _) fun node => Runs.get fun s => ?_
    rw [← Nat.add_zero (nodesAll children)]
    refine Runs.bind (runs_retainChildren mem children _ _ _ _ _) fun kept => ?_
    refine Runs.seq (Runs.forM fun old _ => runs_setParent old none) (Runs.get fun t => ?_)
    refine Runs.seq (runs_change node fun r => patchRecord_keeps _ r) ?_
    refine Runs.seq (runs_when (runs_reclaimTextBinding mem node)) ?_
    refine Runs.seq (runs_when (runs_reclaim node)) ?_
    exact Runs.pure (Set.subset_union_of_subset_left Set.subset_union_right _)

theorem runs_retainChildren (mem : Allocator Style) :
    ∀ (children : List (Prepared Style)) (node : Nat) (oldChildren : List Nat)
      (slots : BTreeMap (List Nat) Nat) (position : Nat) (Γ : Set Nat),
      Runs (nodesAll children) Γ (retainChildren mem node oldChildren slots position children)
        fun _ => ∅
  | [], node, oldChildren, slots, position, Γ => by
    rw [retainChildren]
    exact Runs.pure (Set.empty_subset _)
  | child :: children, node, oldChildren, slots, position, Γ => by
    rw [retainChildren, nodesAll]
    refine Runs.bind (runs_retain mem child _ _) fun kept => Runs.seq (runs_setParent kept _) ?_
    rw [← Nat.add_zero (nodesAll children)]
    refine Runs.bind (runs_retainChildren mem children _ _ _ _ _) fun rest => ?_
    exact Runs.pure (Set.empty_subset _)

end

/-- The root that was retained is found again. -/
theorem runs_lookup {Γ : Set Nat} (mem : Allocator Style) {root : Nat} (hroot : root ∈ Γ) :
    Runs 0 Γ (do
      modify fun s : Store Style => { s with root := some root }
      let s ← get
      match lookup mem s (s.record root).id with
      | none => throw "missing retained root"
      | some node => return s.snapshot s.size node : Edit Style (Node Style)) fun _ => ∅ := by
  intro s hs hΓ
  have howns := hΓ root hroot
  obtain ⟨-, -, hget⟩ := hs.node root howns
  let t : Store Style := { s with root := some root }
  have ht : Registered t := by
    refine ⟨hs.node, fun a ha => ?_, hs.next⟩
    cases ha
    exact howns
  have htowns : t.owns root = true := howns
  have hfound : lookup mem t (t.record root).id = some root := by
    show ((BTreeMap.get? s.records (s.record root).id).filter fun a => mem.alive t a).filter
      (fun a => t.owns a) = some root
    rw [hget, Option.filter_some_pos (mem.root_alive t root rfl), Option.filter_some_pos htowns]
  rw [Prog.exec_bind_ok (Prog.exec_modify _ s), Prog.exec_bind_ok (Prog.exec_get t), hfound]
  exact ⟨ht, fun a ha => ha, Nat.le_refl _, fun r hr => absurd hr (Set.notMem_empty r)⟩

/-! ### Edits that check first -/

/-- Whatever comes of the edit, the store is in order; if it fails, either nothing has changed, or
the identities may not have lasted for `k` nodes. -/
def Checked (k : Nat) (s : Store Style) (m : Edit Style α) : Prop :=
  match m.exec s with
  | (.ok _, t) => Registered t
  | (.error _, t) => Registered t ∧ (t = s ∨ identityLimit ≤ s.next + k)

namespace Checked

variable {k : Nat} {s : Store Style}

theorem throw_bind (hs : Registered s) (e : String) (f : α → Edit Style β) :
    Checked k s (throw e >>= f) := by
  rw [Checked, Prog.exec_bind_error (Prog.exec_throw e s)]
  exact ⟨hs, .inl rfl⟩

theorem get {f : Store Style → Edit Style β} (h : Checked k s (f s)) :
    Checked k s (MonadState.get >>= f) := by
  rw [Checked, Prog.exec_bind_ok (Prog.exec_get s)]
  exact h

theorem exec_lift (result : Except String α) (s : Store Style) :
    (Tree.lift result).exec s = (result, s) := rfl

theorem lift {result : Except String α} {f : α → Edit Style β} (hs : Registered s)
    (h : ∀ a, result = .ok a → Checked k s (f a)) : Checked k s (Tree.lift result >>= f) := by
  cases result with
  | error e =>
    rw [Checked, Prog.exec_bind_error (exec_lift (.error e) s)]
    exact ⟨hs, .inl rfl⟩
  | ok a =>
    rw [Checked, Prog.exec_bind_ok (exec_lift (.ok a) s)]
    exact h a rfl

/-- From here on the edit runs to the end. -/
theorem of_runs {Γ : Set Nat} {m : Edit Style α} {R : α → Set Nat} (h : Runs k Γ m R)
    (hs : Registered s) (hΓ : ∀ a ∈ Γ, s.owns a = true) : Checked k s m := by
  have h := h s hs hΓ
  rw [Checked]
  rcases hr : m.exec s with ⟨r, t⟩
  rw [hr] at h
  cases r with
  | error e => exact ⟨h.1, .inr h.2⟩
  | ok a => exact h.1

/-- And it has identities enough for that. -/
theorem of_runs_fits {k' : Nat} {Γ : Set Nat} {m : Edit Style α} {R : α → Set Nat}
    (h : Runs k' Γ m R) (hs : Registered s) (hΓ : ∀ a ∈ Γ, s.owns a = true)
    (hfits : s.next + k' < identityLimit) : Checked k s m := by
  have h := h s hs hΓ
  rw [Checked]
  rcases hr : m.exec s with ⟨r, t⟩
  rw [hr] at h
  cases r with
  | error e => exact absurd h.2 (Nat.not_le_of_lt hfits)
  | ok a => exact h.1

end Checked

/-! ### Updates -/

mutual

def WireNode.nodes : WireNode → Nat
  | ⟨_, _, _, _, _, children⟩ => 1 + wireNodes children

def wireNodes : List WireNode → Nat
  | [] => 0
  | wire :: wires => wire.nodes + wireNodes wires

end

mutual

theorem nodes_withSlots {style : WireNode → Except String Style} :
    ∀ (wire : WireNode) {slots slots' : Slots} {next : Prepared Style},
      withSlots style slots wire = .ok (next, slots') → next.nodes = wire.nodes
  | ⟨tag, classes, attributes, text, handler, children⟩, slots, slots', next, h => by
    rw [withSlots] at h
    split at h
    · cases h
    · obtain ⟨st, -, h⟩ := bind_eq_ok.mp h
      obtain ⟨⟨prepared, rest⟩, hall, h⟩ := bind_eq_ok.mp h
      cases h
      rw [Prepared.nodes, WireNode.nodes, nodes_withSlotsAll children hall]

theorem nodes_withSlotsAll {style : WireNode → Except String Style} :
    ∀ (wires : List WireNode) {slots slots' : Slots} {nexts : List (Prepared Style)},
      withSlotsAll style slots wires = .ok (nexts, slots') → nodesAll nexts = wireNodes wires
  | [], slots, slots', nexts, h => by
    rw [withSlotsAll] at h
    cases h
    rfl
  | wire :: wires, slots, slots', nexts, h => by
    rw [withSlotsAll] at h
    obtain ⟨⟨next, mid⟩, hone, h⟩ := bind_eq_ok.mp h
    obtain ⟨⟨rest, last⟩, hall, h⟩ := bind_eq_ok.mp h
    cases h
    rw [nodesAll, wireNodes, nodes_withSlots wire hone, nodes_withSlotsAll wires hall]

end

theorem checked_commit {s : Store Style} (hs : Registered s) (mem : Allocator Style)
    (next : Prepared Style) : Checked next.nodes s (commit mem next) := by
  rw [commit]
  refine Checked.get (Checked.of_runs (Γ := {a | s.root = some a}) (R := fun _ => ∅) ?_ hs hs.root)
  rw [← Nat.add_zero next.nodes]
  refine Runs.bind (runs_retain mem next s.root _) fun root => runs_lookup mem ?_
  -- the root is the old one or a new node
  by_cases h : s.root = some root
  · exact .inl h
  · exact .inr ⟨rfl, h⟩

theorem checked_updateSlots {s : Store Style} (hs : Registered s) (mem : Allocator Style)
    (style : WireNode → Except String Style) (wire : WireNode) (slots : List (List Nat)) :
    Checked wire.nodes s (updateSlots mem style wire slots) := by
  rw [updateSlots]
  refine Checked.lift hs fun ⟨next, rest⟩ hnext => ?_
  rw [← nodes_withSlots wire hnext]
  exact checked_commit hs mem next

theorem checked_update {s : Store Style} (hs : Registered s) (mem : Allocator Style)
    (style : WireNode → Except String Style) (wire : WireNode) :
    Checked wire.nodes s (update mem style wire) := by
  rw [update]
  refine Checked.lift hs fun ⟨next, rest⟩ hnext => ?_
  rw [← nodes_withSlots wire hnext]
  exact checked_commit hs mem next

/-! ### Slots and keyed children -/

theorem runs_replaceNodes (mem : Allocator Style) (parent : Nat) :
    ∀ (nexts : List (Prepared Style)) (slots : BTreeMap (List Nat) Nat) (Γ : Set Nat),
      Runs (nodesAll nexts) Γ (replaceNodes mem parent slots nexts) fun _ => ∅
  | [], slots, Γ => by
    rw [replaceNodes]
    exact Runs.pure (Set.empty_subset _)
  | next :: rest, slots, Γ => by
    rw [replaceNodes, nodesAll]
    refine Runs.bind (runs_retain mem next _ _) fun node => Runs.seq (runs_setParent node _) ?_
    rw [← Nat.add_zero (nodesAll rest)]
    refine Runs.bind (runs_replaceNodes mem parent rest _ _) fun nodes => ?_
    exact Runs.pure (Set.empty_subset _)

theorem checked_replaceSlot {s : Store Style} (hs : Registered s) (mem : Allocator Style)
    (style : WireNode → Except String Style) (parent : Nat) (start : List Nat)
    (wires : List WireNode) (slots : List (List Nat)) :
    Checked (wireNodes wires) s (replaceSlot mem style parent start wires slots) := by
  rw [replaceSlot]
  refine Checked.get ?_
  split
  · exact Checked.throw_bind hs _ _
  · refine Checked.lift hs fun ⟨prepared, rest⟩ hprepared => ?_
    dsimp only
    split
    · exact Checked.throw_bind hs _ _
    · rw [← nodes_withSlotsAll wires hprepared]
      refine Checked.of_runs (Γ := ∅) (R := fun _ => ∅) ?_ hs fun a ha => absurd ha (Set.notMem_empty a)
      rw [← Nat.add_zero (nodesAll prepared)]
      refine Runs.bind (runs_replaceNodes mem parent prepared _ _) fun nodes => ?_
      refine Runs.get fun t => Runs.seq (Runs.forM fun a _ => runs_setParent a none) ?_
      refine Runs.seq (runs_change parent fun r => ⟨rfl, rfl⟩) ?_
      refine Runs.seq (runs_when (runs_reclaim parent)) ?_
      exact Runs.pure (Set.empty_subset _)

def KeyedChild.nodes : KeyedChild → Nat
  | .kept _ => 0
  | .new wire _ => wire.nodes

def CheckedChild.nodes : CheckedChild Style → Nat
  | .kept _ => 0
  | .new next => next.nodes

theorem nodes_checkKeyed {mem : Allocator Style} {style : WireNode → Except String Style}
    {s : Store Style} {parent : Nat} {children : List KeyedChild} {seen : List Nat}
    {next : List (CheckedChild Style)}
    (h : checkKeyed mem style s parent seen children = .ok next) :
    (next.map CheckedChild.nodes).sum = (children.map KeyedChild.nodes).sum := by
  induction children generalizing seen next with
  | nil =>
    rw [checkKeyed] at h
    cases h
    rfl
  | cons child children ih =>
    cases child with
    | kept node =>
      rw [checkKeyed] at h
      split at h
      · cases h
      · obtain ⟨rest, hrest, h⟩ := bind_eq_ok.mp h
        cases h
        rw [List.map_cons, List.map_cons, List.sum_cons, List.sum_cons, ih hrest]
        rfl
    | new wire slots =>
      rw [checkKeyed] at h
      obtain ⟨⟨prepared, left⟩, hprepared, h⟩ := bind_eq_ok.mp h
      obtain ⟨rest, hrest, h⟩ := bind_eq_ok.mp h
      cases h
      rw [List.map_cons, List.map_cons, List.sum_cons, List.sum_cons, ih hrest]
      exact congrArg (· + _) (nodes_withSlots wire hprepared)

theorem runs_keyedRoots (mem : Allocator Style) (parent : Nat) :
    ∀ (children : List (CheckedChild Style)) (Γ : Set Nat),
      Runs (children.map CheckedChild.nodes).sum Γ (keyedRoots mem parent children) fun _ => ∅
  | [], Γ => by
    rw [keyedRoots]
    exact Runs.pure (Set.empty_subset _)
  | child :: children, Γ => by
    have hchild : Runs child.nodes Γ (keyedNode mem child) fun _ => ∅ := by
      cases child with
      | kept node => exact Runs.pure (Set.empty_subset _)
      | new next =>
        exact (runs_retain mem next none Γ).weaken (Nat.le_refl _) (Set.Subset.refl _)
          fun _ => Set.empty_subset _
    rw [keyedRoots, List.map_cons, List.sum_cons]
    refine Runs.bind hchild fun node => Runs.seq (runs_setParent node _) ?_
    rw [← Nat.add_zero (children.map CheckedChild.nodes).sum]
    refine Runs.bind (runs_keyedRoots mem parent children _) fun roots => ?_
    exact Runs.pure (Set.empty_subset _)

theorem checked_replaceKeyedChildren {s : Store Style} (hs : Registered s) (mem : Allocator Style)
    (style : WireNode → Except String Style) (parent : Nat) (children : List KeyedChild) :
    Checked (children.map KeyedChild.nodes).sum s
      (replaceKeyedChildren mem style parent children) := by
  rw [replaceKeyedChildren]
  refine Checked.get ?_
  split
  · exact Checked.throw_bind hs _ _
  · refine Checked.lift hs fun next hnext => ?_
    rw [← nodes_checkKeyed hnext]
    refine Checked.of_runs (Γ := ∅) (R := fun _ => ∅) ?_ hs fun a ha => absurd ha (Set.notMem_empty a)
    rw [← Nat.add_zero (next.map CheckedChild.nodes).sum]
    refine Runs.bind (runs_keyedRoots mem parent next _) fun roots => ?_
    refine Runs.get fun t => Runs.seq (Runs.forM fun a _ => runs_setParent a none) ?_
    refine Runs.seq (runs_when (Runs.seq (runs_change parent fun r => ⟨rfl, rfl⟩)
      (runs_reclaim parent))) ?_
    exact Runs.pure (Set.empty_subset _)

/-! ### Template patches -/

mutual

/-- The nodes of the edit are in `Γ`, and a new one comes without children. -/
def Within (Γ : Set Nat) : Validated Style → Prop
  | .keep nodes => ∀ a ∈ nodes, a ∈ Γ
  | .node current next children =>
    (∀ a, current = some a → a ∈ Γ) ∧ next.nodes = 1 ∧ WithinAll Γ children

def WithinAll (Γ : Set Nat) : List (Validated Style) → Prop
  | [] => True
  | edit :: edits => Within Γ edit ∧ WithinAll Γ edits

end

theorem owns_of_useNode {s : Store Style} {used used' : List Nat} {a : Nat}
    (h : useNode s used a = .ok used') : s.owns a = true := by
  rw [useNode] at h
  split at h
  · cases h
  · next howns => simpa using howns

theorem owns_of_useSubtrees {s : Store Style} {steps : Nat} {nodes used used' : List Nat}
    (h : nodes.foldlM (useSubtree s (steps + 1)) used = .ok used') :
    ∀ a ∈ nodes, s.owns a = true := by
  induction nodes generalizing used with
  | nil => simp
  | cons a nodes ih =>
    rw [List.foldlM_cons] at h
    obtain ⟨mid, hone, h⟩ := bind_eq_ok.mp h
    rw [useSubtree] at hone
    obtain ⟨first, hfirst, -⟩ := bind_eq_ok.mp hone
    exact List.forall_mem_cons.mpr ⟨owns_of_useNode hfirst, ih h⟩

/-- One slot is enough for a node without children only. -/
theorem nodes_of_one_slot {style : WireNode → Except String Style} {wire : WireNode}
    {slot : List Nat} {slots : Slots} {next : Prepared Style}
    (h : withSlots style (.list [slot]) wire = .ok (next, slots)) : next.nodes = 1 := by
  obtain ⟨tag, classes, attributes, text, handler, children⟩ := wire
  rw [withSlots] at h
  obtain ⟨st, -, h⟩ := bind_eq_ok.mp h
  obtain ⟨⟨prepared, rest⟩, hall, h⟩ := bind_eq_ok.mp h
  cases h
  cases children with
  | nil =>
    rw [withSlotsAll] at hall
    cases hall
    rfl
  | cons child children =>
    obtain ⟨tag, classes, attributes, text, handler, below⟩ := child
    rw [withSlotsAll, withSlots] at hall
    cases hall

mutual

theorem within_validate {style : WireNode → Except String Style} {s : Store Style} :
    ∀ (edit : TemplateEdit) {used used' : List Nat} {v : Validated Style},
      validate style s used edit = .ok (v, used') → Within {a | s.owns a = true} v
  | .keep nodes, used, used', v, h => by
    rw [validate] at h
    obtain ⟨last, hused, h⟩ := bind_eq_ok.mp h
    cases h
    exact owns_of_useSubtrees hused
  | .node current wire slot children, used, used', v, h => by
    rw [validate] at h
    obtain ⟨mid, hcurrent, h⟩ := bind_eq_ok.mp h
    obtain ⟨⟨next, slots⟩, hnext, h⟩ := bind_eq_ok.mp h
    obtain ⟨⟨vs, last⟩, hall, h⟩ := bind_eq_ok.mp h
    cases h
    refine ⟨fun a ha => ?_, nodes_of_one_slot hnext, within_validateAll children hall⟩
    subst ha
    exact owns_of_useNode hcurrent

theorem within_validateAll {style : WireNode → Except String Style} {s : Store Style} :
    ∀ (edits : List TemplateEdit) {used used' : List Nat} {vs : List (Validated Style)},
      validateAll style s used edits = .ok (vs, used') → WithinAll {a | s.owns a = true} vs
  | [], used, used', vs, h => by
    rw [validateAll] at h
    cases h
    trivial
  | edit :: edits, used, used', vs, h => by
    rw [validateAll] at h
    obtain ⟨⟨v, mid⟩, hone, h⟩ := bind_eq_ok.mp h
    obtain ⟨⟨rest, last⟩, hall, h⟩ := bind_eq_ok.mp h
    cases h
    exact ⟨within_validate edit hone, within_validateAll edits hall⟩

end

theorem runs_discardChildren {Γ : Set Nat} (current : Option Nat) :
    Runs 0 Γ (current.forM fun a => change a fun r : Record Style => { r with children := [] })
      fun _ => ∅ := by
  cases current with
  | none => exact Runs.pure (Set.empty_subset _)
  | some a => exact runs_change a fun r => ⟨rfl, rfl⟩

mutual

theorem runs_commitEdit (mem : Allocator Style) :
    ∀ (v : Validated Style) (Γ : Set Nat), Within Γ v →
      Runs v.count Γ (commitEdit mem v) fun roots => {a | a ∈ roots}
  | .keep nodes, Γ, h => by
    rw [commitEdit]
    exact Runs.pure h
  | .node current next children, Γ, h => by
    obtain ⟨hcurrent, hone, hchildren⟩ := h
    rw [commitEdit, Validated.count, ← hone]
    refine Runs.get fun s => Runs.seq (runs_discardChildren current) ?_
    refine Runs.bind (runs_retain mem next current Γ) fun node => ?_
    have hnode : node ∈ Γ ∪ fresh current node := by
      by_cases heq : current = some node
      · exact .inl (hcurrent node heq)
      · exact .inr ⟨rfl, heq⟩
    rw [← Nat.add_zero (countAll children)]
    refine Runs.bind ((runs_commitEdits mem children Γ hchildren).weaken (Nat.le_refl _)
      Set.subset_union_left fun _ => Set.Subset.refl _) fun result => ?_
    refine Runs.seq (Runs.forM fun child _ => runs_setParent child none) ?_
    refine Runs.seq (runs_when (runs_reclaim node)) ?_
    refine Runs.seq (runs_change node fun r => ⟨rfl, rfl⟩) (Runs.pure fun a ha => ?_)
    rw [List.mem_singleton.mp ha]
    exact .inl hnode

theorem runs_commitEdits (mem : Allocator Style) :
    ∀ (vs : List (Validated Style)) (Γ : Set Nat), WithinAll Γ vs →
      Runs (countAll vs) Γ (commitEdits mem vs) fun roots => {a | a ∈ roots}
  | [], Γ, h => by
    rw [commitEdits]
    exact Runs.pure fun a ha => absurd ha List.not_mem_nil
  | v :: vs, Γ, h => by
    rw [commitEdits, countAll]
    refine Runs.bind (runs_commitEdit mem v Γ h.1) fun nodes => ?_
    rw [← Nat.add_zero (countAll vs)]
    refine Runs.bind ((runs_commitEdits mem vs Γ h.2).weaken (Nat.le_refl _)
      Set.subset_union_left fun _ => Set.Subset.refl _) fun rest => Runs.pure fun a ha => ?_
    rcases List.mem_append.mp ha with ha | ha
    · exact .inl (.inr ha)
    · exact .inr ha

end

theorem runs_placeRoots {Γ : Set Nat} (parent : Option Nat) (old roots : List Nat)
    (hroots : ∀ a ∈ roots, a ∈ Γ) :
    Runs 0 Γ (placeRoots parent old roots : Edit Style Unit) fun _ => ∅ := by
  rw [placeRoots]
  refine Runs.get fun s => ?_
  cases parent with
  | some parent =>
    exact Runs.seq (runs_when (runs_reclaim parent)) (runs_change parent fun r => ⟨rfl, rfl⟩)
  | none =>
    intro t ht hΓ
    refine ⟨⟨ht.node, fun a ha => ?_, ht.next⟩, fun a ha => ha, Nat.le_refl _,
      fun r hr => absurd hr (Set.notMem_empty r)⟩
    exact hΓ a (hroots a (List.mem_of_head? ha))

theorem runs_attach {Γ : Set Nat} (steps : Nat) (parent : Option Nat) (attached : List Nat)
    (a : Nat) : Runs 0 Γ (attach steps parent attached a : Edit Style (List Nat)) fun _ => ∅ := by
  induction steps generalizing parent attached a with
  | zero => exact Runs.pure (Set.empty_subset _)
  | succ steps ih =>
    rw [attach]
    refine Runs.seq (runs_setParent a parent) (Runs.get fun s => ?_)
    exact Runs.foldlM (fun attached child _ => ih (some a) attached child) _

theorem runs_mendParents {Γ : Set Nat} (mem : Allocator Style) :
    Runs 0 Γ (mendParents mem) fun _ => ∅ := by
  have hroot : Runs 0 Γ (attachRoot : Edit Style (List Nat)) fun _ => ∅ := by
    rw [attachRoot]
    refine Runs.get fun s => ?_
    split
    · exact runs_attach _ _ _ _
    · exact Runs.pure (Set.empty_subset _)
  rw [mendParents]
  exact Runs.bind hroot fun attached => Runs.get fun s =>
    Runs.forM fun a _ => runs_setParent a none

theorem checked_patchTemplate {s : Store Style} (hs : Registered s) (mem : Allocator Style)
    (style : WireNode → Except String Style) (parent : Option Nat) (old : List Nat)
    (edits : List TemplateEdit) : Checked 0 s (patchTemplate mem style parent old edits) := by
  rw [patchTemplate]
  refine Checked.get ?_
  split
  · exact Checked.throw_bind hs _ _
  · refine Checked.lift hs fun ⟨validated, used⟩ hvalid => ?_
    dsimp only
    split
    · exact Checked.throw_bind hs _ _
    · split
      · exact Checked.throw_bind hs _ _
      · split
        · exact Checked.throw_bind hs _ _
        · next hfits =>
          refine Checked.of_runs_fits (R := fun _ => ∅) ?_ hs (fun a ha => ha)
            (Nat.lt_of_not_le hfits)
          rw [← Nat.add_zero (countAll validated)]
          refine Runs.bind (runs_commitEdits mem validated _ (within_validateAll edits hvalid))
            fun roots => ?_
          refine Runs.seq (runs_placeRoots parent old roots fun a ha => .inr ha) ?_
          exact Runs.seq (runs_mendParents mem) (Runs.pure (Set.empty_subset _))

/-! ### Requests -/

/-- An edit as it is asked for. -/
inductive Request where
  | update (wire : WireNode)
  | updateSlots (wire : WireNode) (slots : List (List Nat))
  | replaceSlot (parent : Nat) (start : List Nat) (wires : List WireNode) (slots : List (List Nat))
  | replaceKeyedChildren (parent : Nat) (children : List KeyedChild)
  | patchTemplate (parent : Option Nat) (old : List Nat) (edits : List TemplateEdit)

/-- The nodes an edit brings along, unless it counts them itself. -/
def Request.nodes : Request → Nat
  | .update wire => wire.nodes
  | .updateSlots wire _ => wire.nodes
  | .replaceSlot _ _ wires _ => wireNodes wires
  | .replaceKeyedChildren _ children => (children.map KeyedChild.nodes).sum
  | .patchTemplate _ _ _ => 0

/-- The error, if there is one, and the store afterwards. -/
def outcome (m : Edit Style α) (s : Store Style) : Option String × Store Style :=
  match m.exec s with
  | (.ok _, t) => (none, t)
  | (.error e, t) => (some e, t)

def Request.run (mem : Allocator Style) (style : WireNode → Except String Style)
    (s : Store Style) : Request → Option String × Store Style
  | .update wire => outcome (Tree.update mem style wire) s
  | .updateSlots wire slots => outcome (Tree.updateSlots mem style wire slots) s
  | .replaceSlot parent start wires slots =>
    outcome (Tree.replaceSlot mem style parent start wires slots) s
  | .replaceKeyedChildren parent children =>
    outcome (Tree.replaceKeyedChildren mem style parent children) s
  | .patchTemplate parent old edits => outcome (Tree.patchTemplate mem style parent old edits) s

theorem Checked.outcome {k : Nat} {s : Store Style} {m : Edit Style α} (h : Checked k s m) :
    Registered (outcome m s).2 ∧ ∀ e, (Tree.outcome m s).1 = some e →
      (Tree.outcome m s).2 = s ∨ identityLimit ≤ s.next + k := by
  rw [Checked] at h
  rw [Tree.outcome]
  rcases hr : m.exec s with ⟨r, t⟩
  rw [hr] at h
  cases r with
  | ok a => exact ⟨h, fun e he => by cases he⟩
  | error e => exact ⟨h.1, fun _ _ => h.2⟩

theorem Request.checked {s : Store Style} (hs : Registered s) (mem : Allocator Style)
    (style : WireNode → Except String Style) (r : Request) :
    Registered (r.run mem style s).2 ∧ ∀ e, (r.run mem style s).1 = some e →
      (r.run mem style s).2 = s ∨ identityLimit ≤ s.next + r.nodes := by
  cases r with
  | update wire => exact (checked_update hs mem style wire).outcome
  | updateSlots wire slots => exact (checked_updateSlots hs mem style wire slots).outcome
  | replaceSlot parent start wires slots =>
    exact (checked_replaceSlot hs mem style parent start wires slots).outcome
  | replaceKeyedChildren parent children =>
    exact (checked_replaceKeyedChildren hs mem style parent children).outcome
  | patchTemplate parent old edits =>
    exact (checked_patchTemplate hs mem style parent old edits).outcome

/-- What happens outside the tree's own edits, writes to single nodes among it: nodes stay what and
whose they are. -/
structure Elsewhere (s t : Store Style) : Prop where
  root : t.root = s.root
  records : t.records = s.records
  next : t.next = s.next
  size : s.size ≤ t.size
  owns : ∀ a, t.owns a = s.owns a
  id : ∀ a, s.owns a = true → (t.record a).id = (s.record a).id

/-- The stores in which a tree can be. -/
inductive Reachable (mem : Allocator Style) (style : WireNode → Except String Style) :
    Store Style → Prop
  | start {s : Store Style} (hroot : s.root = none) (hnext : s.next = 0)
      (howns : ∀ a, s.owns a = false) : Reachable mem style s
  | request {s : Store Style} (h : Reachable mem style s) (r : Request) :
      Reachable mem style (r.run mem style s).2
  | elsewhere {s t : Store Style} (h : Reachable mem style s) (ht : Elsewhere s t) :
      Reachable mem style t

theorem Reachable.registered {mem : Allocator Style} {style : WireNode → Except String Style}
    {s : Store Style} (h : Reachable mem style s) : Registered s := by
  induction h with
  | @start s hroot hnext howns =>
    refine ⟨fun a ha => ?_, fun a ha => ?_, ?_⟩
    · rw [howns] at ha
      cases ha
    · rw [hroot] at ha
      cases ha
    · rw [hnext]
      decide
  | request _ r ih => exact (r.checked ih mem style).1
  | @elsewhere s t _ ht ih =>
    refine ⟨fun a ha => ?_, fun a ha => ?_, ?_⟩
    · rw [ht.owns] at ha
      obtain ⟨hlt, hid, hget⟩ := ih.node a ha
      rw [ht.id a ha, ht.next, ht.records]
      exact ⟨hlt.trans_le ht.size, hid, hget⟩
    · rw [ht.root] at ha
      rw [ht.owns]
      exact ih.root a ha
    · rw [ht.next]
      exact ih.next

def steady : Allocator Unit where
  alive := fun _ _ => true
  root_alive := fun _ _ _ => rfl

def plain (wire : WireNode) : Except String Unit :=
  if wire.classes = "p-bad" then .error "unknown class p-bad" else .ok ()

def blank : Record Unit :=
  { id := 0, owner := 0, parent := none, authoredText := none, textOverride := none
    authoredClasses := "", authoredAttributes := [], attributes := [], kind := .element "view"
    slot := [], classes := "", style := (), text := none, handler := none, children := [] }

/-- A tree without nodes. -/
def empty : Store Unit :=
  { record := fun _ => blank, size := 0, root := none, records := [], next := 0, owner := 1 }

/-- A view whose second child has a class that does not exist. -/
def badClasses : Request :=
  .update { tag := "view", children := [{ text := some "a" }, { tag := "p", classes := "p-bad" }] }

/-- A view around a text, whose tree has handed out all identities but the last. -/
def spent : Store Unit where
  record := fun a =>
    if a = 0 then { blank with owner := 1, children := [1] }
    else if a = 1 then
      { blank with id := 1, owner := 1, parent := some 0, kind := .text, text := some "old"
                   authoredText := some "old" }
    else blank
  size := 2
  root := some 0
  records := [(0, 0), (1, 1)]
  next := UInt64.size - 1
  owner := 1

def twoTexts : Request :=
  .update { tag := "view", children := [{ text := some "new" }, { text := some "more" }] }

theorem spent_registered : Registered spent where
  node := by
    intro a ha
    by_cases h0 : a = 0
    · subst h0
      exact ⟨by decide, by decide, rfl⟩
    · by_cases h1 : a = 1
      · subst h1
        exact ⟨by decide, by decide, rfl⟩
      · rw [Store.owns, spent] at ha
        simp only [if_neg h0, if_neg h1] at ha
        cases ha
  root := by
    intro a ha
    cases ha
    rfl
  next := by decide

end Deka.NativeIr.Tree
