/-
Deka/Reactive/Bookkeeping.lean

What holds in every state of a scope, panics included.

Next to the tables (`Core.Linked`) a state keeps track of who will release what.  The
slots to be released are held by the owners on the stack, the run owners of the
observers, the detached owners and the owners that are being dropped; `State.held`
collects them with multiplicity.  `State.Inv s loose` says that no slot is held
twice and every held slot is live, where `loose` are the slots of an owner that is
just being moved.  So no slot is ever released twice.
-/
import Mathlib.Data.Multiset.AddSub
import Mathlib.Data.Multiset.UnionInter
import Mathlib.Algebra.Order.Group.Multiset
import Mathlib.Tactic.Abel
import Deka.Reactive.Linked
import Deka.Reactive.Machine

namespace Deka.Reactive

open Deka.Lib

variable {V : Type}

/-! ### What is held -/

def Owned.held (o : Owned) : Multiset Nat := o.values

def Item.held : Item → Multiset Nat
  | .effect _ => 0
  | .value slot => {slot}

def Frame.held : Frame V → Multiset Nat
  | .dropping items => (items.map Item.held).sum
  | _ => 0

def Observer.held (o : Observer V) : Multiset Nat := (o.runOwner.getD .empty).held

def Core.held (c : Core V) : Multiset Nat :=
  (c.owners.map Owned.held).sum + c.observers.total Observer.held

def State.held (s : State V) : Multiset Nat :=
  s.core.held + (s.detached.map Owned.held).sum + (s.stack.map Frame.held).sum

@[simp] theorem Owned.held_empty : Owned.empty.held = 0 := rfl

@[simp] theorem Owned.held_items (o : Owned) : (o.items.map Item.held).sum = o.held := by
  have hvalues : ∀ slots : List Nat,
      ((slots.map Item.value).map Item.held).sum = (slots : Multiset Nat) := by
    intro slots
    induction slots with
    | nil => rfl
    | cons slot slots ih =>
        rw [List.map_cons, List.map_cons, List.sum_cons, ih]
        rfl
  have heffects : ∀ es : List Effect, ((es.map Item.effect).map Item.held).sum = 0 := by
    intro es
    induction es with
    | nil => rfl
    | cons e es ih => simpa [Item.held] using ih
  rw [Owned.items, List.map_append, List.sum_append, heffects, hvalues, zero_add]
  rfl

namespace Core

variable {c : Core V}

theorem held_allocate (c : Core V) (value : Option V) :
    (c.allocate value).2.held = c.held ∨
      (c.allocate value).2.held = {(c.allocate value).1.slot} + c.held := by
  cases howners : c.owners with
  | nil =>
      left
      simp [Core.held, Core.allocate, Core.own, howners]
  | cons owner owners =>
      right
      have hcons : ∀ slot : Nat, (((owner.values ++ [slot] : List Nat)) : Multiset Nat) =
          {slot} + (owner.values : Multiset Nat) := by
        intro slot
        rw [← Multiset.coe_add, add_comm]
        rfl
      simp only [Core.held, Core.allocate, Core.own, howners, List.modifyHead_cons, List.map_cons,
        List.sum_cons, Owned.held, hcons]
      simp only [add_assoc]

theorem Linked.held_register (h : c.Linked) (kind : Kind) (output : Option Signal) :
    (c.register kind output).2.held = c.held := by
  have hobservers :
      (c.register kind output).2.observers.total Observer.held = c.observers.total Observer.held := by
    show (c.observers.insert _).2.total Observer.held = _
    rw [h.observers.total_insert]
    exact zero_add _
  have howners : ((c.register kind output).2.owners.map Owned.held).sum =
      (c.owners.map Owned.held).sum := by
    show ((c.owners.modifyHead _).map Owned.held).sum = _
    cases c.owners <;> rfl
  rw [Core.held, Core.held, hobservers, howners]

theorem Linked.held_dispose (h : c.Linked) (slot : Nat) :
    ((c.disposeObserver slot).1.getD .empty).held + (c.disposeObserver slot).2.held = c.held := by
  unfold Core.disposeObserver
  split
  · exact zero_add _
  · rename_i observer hslot
    obtain ⟨rest, htotal, herase, -⟩ := h.observers.total_split hslot Observer.held
    simp only [Core.held, htotal, herase]
    rw [Observer.held, add_left_comm]

theorem held_release (c : Core V) (slot : Nat) : (c.release slot).held = c.held := by
  have htotal : (c.release slot).observers.total Observer.held = c.observers.total Observer.held :=
    Arena.total_map fun _ => rfl
  rw [Core.held, Core.held, htotal]
  rfl

theorem Linked.held_take (h : c.Linked) {slot : Nat} {observer : Observer V}
    (hslot : c.observers.slots slot = some observer) :
    observer.held + { c with
      observers := c.observers.set slot { observer with runOwner := none } }.held = c.held := by
  obtain ⟨rest, htotal, -, hset⟩ := h.observers.total_split hslot Observer.held
  simp only [Core.held, htotal, hset]
  rw [add_left_comm]
  congr 2
  exact zero_add rest

theorem Linked.held_give (h : c.Linked) {slot : Nat} {observer : Observer V}
    (hslot : c.observers.slots slot = some observer) (owner : Owned) :
    { c with
      observers := c.observers.set slot { observer with runOwner := some owner } }.held ≤
      owner.held + c.held := by
  obtain ⟨rest, htotal, -, hset⟩ := h.observers.total_split hslot Observer.held
  simp only [Core.held, htotal, hset]
  have hown : Observer.held { observer with runOwner := some owner } = owner.held := rfl
  rw [hown, add_left_comm]
  exact add_le_add le_rfl (add_le_add le_rfl (Multiset.le_add_left _ _))

theorem Linked.held_capture (h : c.Linked) (e : Effect) (latest : Option (Run V)) :
    (c.capture e latest).held = c.held := by
  unfold Core.capture
  split
  · rfl
  · unfold Core.follow
    split
    · rfl
    · rename_i observer hfind
      have hslot : c.observers.slots e.slot = some observer := (Arena.find?_some hfind).2
      obtain ⟨rest, htotal, -, hset⟩ := h.observers.total_split hslot Observer.held
      simp only [Core.held, htotal, hset]
      rfl

theorem held_popOwner (c : Core V) : c.popOwner.1.held + c.popOwner.2.held = c.held := by
  unfold Core.popOwner Core.held
  cases c.owners with
  | nil => simp
  | cons owner owners => simp [add_assoc]

end Core

/-! ### The invariant -/

/-- The handles in a frame were given out. -/
def Frame.Known (c : Core V) : Frame V → Prop
  | .installing e output => c.observers.Known e ∧ ∀ r ∈ output, c.values.Known r
  | .starting slot _ => slot < c.observers.size
  | .evaluating e _ _ | .leaving e _ _ => c.observers.Known e
  | _ => True

/-- Handles whose slots were released. -/
structure Gone where
  signals : Set Signal
  effects : Set Effect

structure State.Inv (s : State V) (gone : Gone) (loose : Multiset Nat) : Prop where
  linked : s.core.Linked
  nodup : (loose + s.held).Nodup
  live : ∀ slot ∈ loose + s.held, s.core.values.slots slot ≠ none
  signals_known : ∀ r ∈ s.signals, s.core.values.Known r
  deriveds_known : ∀ r ∈ s.deriveds, s.core.values.Known r
  effects_known : ∀ e ∈ s.effects, s.core.observers.Known e
  frames_known : ∀ frame ∈ s.stack, frame.Known s.core
  signals_gone : ∀ r ∈ gone.signals, s.core.values.Known r ∧ s.core.values.find? r = none
  effects_gone : ∀ e ∈ gone.effects, s.core.observers.Known e ∧ s.core.observers.find? e = none

/-- Every handle that was given out stays so, and every released one too. -/
structure Core.Keeps (c d : Core V) : Prop where
  values : ∀ r, c.values.Known r →
    d.values.Known r ∧ (c.values.find? r = none → d.values.find? r = none)
  observers : ∀ e, c.observers.Known e →
    d.observers.Known e ∧ (c.observers.find? e = none → d.observers.find? e = none)

theorem Frame.Known.keeps {c d : Core V} (h : c.Keeps d) {f : Frame V}
    (hf : f.Known c) : f.Known d := by
  cases f with
  | installing e output =>
      exact ⟨(h.observers e hf.1).1, fun r hr => (h.values r (hf.2 r hr)).1⟩
  | starting slot output => exact (h.observers ⟨slot, 0⟩ ⟨hf, Nat.zero_le _⟩).1.1
  | evaluating e output reads => exact (h.observers e hf).1
  | leaving e reads result => exact (h.observers e hf).1
  | _ => exact trivial

theorem Core.Keeps.same {c d : Core V} (hv : d.values = c.values)
    (ho : d.observers = c.observers) : c.Keeps d :=
  ⟨fun _ h => by rw [hv]; exact ⟨h, id⟩, fun _ h => by rw [ho]; exact ⟨h, id⟩⟩

theorem Core.keeps_setCell {c : Core V} {r : Signal} {old : Cell V}
    (hr : c.values.find? r = some old) (cell : Cell V) : c.Keeps (c.setCell r cell) := by
  have hlive : c.values.slots r.slot ≠ none := by simp [(Arena.find?_some hr).2]
  exact ⟨fun _ h => ⟨h, (Arena.find?_set_eq_none hlive cell).mpr⟩, fun _ h => ⟨h, id⟩⟩

theorem Core.keeps_setObserver {c : Core V} {slot : Nat} {old : Observer V}
    (hs : c.observers.slots slot = some old) (new : Observer V) :
    c.Keeps { c with observers := c.observers.set slot new } :=
  ⟨fun _ h => ⟨h, id⟩, fun _ h => ⟨h, (Arena.find?_set_eq_none (by simp [hs]) new).mpr⟩⟩

theorem Core.keeps_release (c : Core V) (slot : Nat) : c.Keeps (c.release slot) := by
  constructor
  · refine fun r h => ⟨h, fun hnone => ?_⟩
    show (c.values.erase slot).find? r = none
    rw [Arena.find?_erase, hnone, ite_self]
  · refine fun e h => ⟨h, fun hnone => ?_⟩
    show (c.observers.map _).find? e = none
    rw [Arena.find?_map, hnone, Option.map_none]

theorem Core.keeps_disposeObserver (c : Core V) (slot : Nat) :
    c.Keeps (c.disposeObserver slot).2 := by
  unfold Core.disposeObserver
  split
  · exact .same rfl rfl
  · refine ⟨fun _ h => ⟨h, id⟩, fun e h => ⟨h, fun hnone => ?_⟩⟩
    show (c.observers.erase slot).find? e = none
    rw [Arena.find?_erase, hnone, ite_self]

theorem Core.keeps_capture (c : Core V) (e : Effect) (latest : Option (Run V)) :
    c.Keeps (c.capture e latest) := by
  unfold Core.capture
  split
  · exact .same rfl rfl
  · rename_i m reads hreads
    unfold Core.follow
    split
    · exact .same rfl rfl
    · rename_i observer hfind
      have hset := Core.keeps_setObserver (c := c) (Arena.find?_some hfind).2
        { observer with dependencies := m.keys, latest := latest }
      exact ⟨hset.values, hset.observers⟩

theorem Core.values_disposeObserver (c : Core V) (slot : Nat) :
    (c.disposeObserver slot).2.values = c.values := by
  unfold Core.disposeObserver
  split <;> rfl

theorem Core.values_capture (c : Core V) (e : Effect) (latest : Option (Run V)) :
    (c.capture e latest).values = c.values := by
  unfold Core.capture Core.follow
  split
  · rfl
  · split <;> rfl

namespace State

variable {gone : Gone} {s : State V} {loose loose' : Multiset Nat} {stack : List (Frame V)} {f : Frame V}

theorem Inv.initial : (initial : State V).Inv ⟨∅, ∅⟩ 0 where
  linked := .empty
  nodup := by simp [State.held, Core.held, State.initial, Core.empty]
  live := by simp [State.held, Core.held, State.initial, Core.empty]
  signals_known := by simp [State.initial]
  deriveds_known := by simp [State.initial]
  effects_known := by simp [State.initial]
  frames_known := by simp [State.initial]
  signals_gone := by simp
  effects_gone := by simp

/-- A step that gives no handle out and only moves held slots between holders. -/
theorem Inv.move (h : s.Inv gone loose) {t : State V} (hlinked : t.core.Linked)
    (hkeeps : s.core.Keeps t.core) (hheld : loose' + t.held ≤ loose + s.held)
    (hlive : ∀ slot, s.core.values.slots slot ≠ none → t.core.values.slots slot ≠ none)
    (hsignals : t.signals = s.signals) (hderiveds : t.deriveds = s.deriveds)
    (heffects : t.effects = s.effects) (hframes : ∀ g ∈ t.stack, g ∈ s.stack ∨ g.Known t.core) :
    t.Inv gone loose' where
  linked := hlinked
  nodup := Multiset.nodup_of_le hheld h.nodup
  live := fun slot hslot => hlive slot (h.live slot (Multiset.mem_of_le hheld hslot))
  signals_known := fun r hr => (hkeeps.values r (h.signals_known r (hsignals ▸ hr))).1
  deriveds_known := fun r hr => (hkeeps.values r (h.deriveds_known r (hderiveds ▸ hr))).1
  effects_known := fun e he => (hkeeps.observers e (h.effects_known e (heffects ▸ he))).1
  frames_known := by
    intro g hg
    rcases hframes g hg with hg | hg
    · exact (h.frames_known g hg).keeps hkeeps
    · exact hg
  signals_gone := by
    intro r hr
    obtain ⟨hknown, hnone⟩ := h.signals_gone r hr
    exact ⟨(hkeeps.values r hknown).1, (hkeeps.values r hknown).2 hnone⟩
  effects_gone := by
    intro e he
    obtain ⟨hknown, hnone⟩ := h.effects_gone e he
    exact ⟨(hkeeps.observers e hknown).1, (hkeeps.observers e hknown).2 hnone⟩

/-- Change the tables. -/
theorem Inv.core (h : s.Inv gone loose) {d : Core V} (hd : d.Linked) (hk : s.core.Keeps d)
    (hheld : loose' + d.held ≤ loose + s.core.held)
    (hlive : ∀ slot, s.core.values.slots slot ≠ none → d.values.slots slot ≠ none) :
    { s with core := d }.Inv gone loose' := by
  refine h.move hd hk ?_ hlive rfl rfl rfl fun g hg => Or.inl hg
  show loose' + (d.held + _ + _) ≤ loose + (s.core.held + _ + _)
  simp only [← add_assoc]
  exact add_le_add (add_le_add hheld le_rfl) le_rfl

/-- Change the tables without a change of what is live, held or known. -/
theorem Inv.core_same (h : s.Inv gone loose) {d : Core V} (hd : d.Linked)
    (hv : d.values = s.core.values) (ho : d.observers = s.core.observers)
    (hw : d.owners = s.core.owners) : { s with core := d }.Inv gone loose := by
  refine h.core hd (.same hv ho) ?_ fun slot hs => by rwa [hv]
  rw [Core.held, Core.held, ho, hw]

/-- Change the owners, the depth, the flag, or make the dirty set smaller. -/
theorem Inv.aside (h : s.Inv gone loose) {d : Core V} (hv : d.values = s.core.values)
    (ho : d.observers = s.core.observers) (hs : d.subscribers = s.core.subscribers)
    (hr : d.reads = s.core.reads) (hd : d.dirty ⊆ s.core.dirty)
    (hheld : loose' + d.held ≤ loose + s.core.held) : { s with core := d }.Inv gone loose' :=
  h.core (h.linked.same hv ho hs hr hd) (.same hv ho) hheld fun slot hs => by rwa [hv]

/-- Change neither tables nor frames nor handles. -/
theorem Inv.same (h : s.Inv gone loose) {t : State V} (hc : t.core = s.core)
    (hs : t.stack = s.stack) (hd : t.detached = s.detached) (hr : t.signals = s.signals)
    (hv : t.deriveds = s.deriveds) (he : t.effects = s.effects) : t.Inv gone loose := by
  have hheld : t.held = s.held := by rw [State.held, State.held, hc, hs, hd]
  refine h.move (hc ▸ h.linked) (.same (by rw [hc]) (by rw [hc])) (by rw [hheld]) ?_ hr hv he ?_
  · rw [hc]
    exact fun _ hlive => hlive
  · rw [hs]
    exact fun g hg => Or.inl hg

theorem Inv.push (h : s.Inv gone (f.held + loose)) (hk : f.Known s.core) :
    { s with stack := f :: s.stack }.Inv gone loose := by
  refine h.move h.linked (.same rfl rfl) (le_of_eq ?_) (fun _ hs => hs) rfl rfl rfl ?_
  · simp only [State.held, List.map_cons, List.sum_cons]
    abel
  · intro g hg
    rcases List.mem_cons.mp hg with rfl | hg
    · exact Or.inr hk
    · exact Or.inl hg

theorem Inv.pop (h : s.Inv gone loose) (hs : s.stack = f :: stack) :
    { s with stack := stack }.Inv gone (f.held + loose) := by
  refine h.move h.linked (.same rfl rfl) (le_of_eq ?_) (fun _ hs => hs) rfl rfl rfl ?_
  · simp only [State.held, hs, List.map_cons, List.sum_cons]
    abel
  · exact fun g hg => Or.inl (by simp [hs, show g ∈ stack from hg])

/-- A frame that holds nothing goes. -/
theorem Inv.popFree (h : s.Inv gone loose) (hs : s.stack = f :: stack) (hf : f.held = 0) :
    { s with stack := stack }.Inv gone loose := by
  have hpop := h.pop hs
  rwa [hf, zero_add] at hpop

/-- A frame that holds nothing comes. -/
theorem Inv.pushFree (h : s.Inv gone loose) (hf : f.held = 0) (hk : f.Known s.core) :
    { s with stack := f :: s.stack }.Inv gone loose :=
  Inv.push (by rwa [hf, zero_add]) hk

/-- An owner in transit is dropped. -/
theorem Inv.drop {owner : Owned} (h : s.Inv gone (owner.held + loose)) : (s.drop owner).Inv gone loose := by
  refine Inv.push (f := .dropping owner.items) ?_ trivial
  rwa [Frame.held, Owned.held_items]

/-! ### Parts of the operations -/

theorem Inv.flush (h : s.Inv gone loose) : s.flush.Inv gone loose := by
  unfold State.flush
  split
  · exact h
  · have hcore : { s with core := { s.core with flushing := true } }.Inv gone loose :=
      h.aside rfl rfl rfl rfl (Finset.Subset.refl _) le_rfl
    exact hcore.pushFree rfl trivial

theorem Inv.changed (h : s.Inv gone loose) (slot : Nat) : (s.changed slot).Inv gone loose := by
  have hcore : { s with core := s.core.changed slot }.Inv gone loose :=
    h.core_same (h.linked.changed slot) rfl rfl rfl
  unfold State.changed
  split
  · exact hcore
  · exact hcore.flush

/-- Replacing a live cell keeps every slot live. -/
theorem Inv.setCell (h : s.Inv gone loose) {r : Signal} {old : Cell V}
    (hr : s.core.values.find? r = some old) (cell : Cell V) :
    { s with core := s.core.setCell r cell }.Inv gone loose := by
  refine h.core (h.linked.setCell hr cell) (Core.keeps_setCell hr cell) le_rfl fun slot hs => ?_
  by_cases he : slot = r.slot
  · simp [Core.setCell, Arena.set, he]
  · simpa [Core.setCell, Arena.set, Function.update_of_ne he] using hs

theorem Inv.write (h : s.Inv gone loose) (r : Signal) (value : Option V) :
    (s.write r value).Inv gone loose := by
  unfold State.write
  split
  · exact h
  · rename_i cell hfind
    exact (h.setCell hfind _).same rfl rfl rfl rfl rfl rfl

theorem Inv.evaluate (h : s.Inv gone loose) (slot : Nat) : (s.evaluate slot).Inv gone loose := by
  unfold State.evaluate
  split
  · exact h
  · rename_i observer hslot
    have htake : { s with core := { s.core with
        observers := s.core.observers.set slot { observer with runOwner := none } } }.Inv gone
        ((observer.runOwner.getD .empty).held + loose) := by
      refine h.core (h.linked.setObserver hslot { observer with runOwner := none } rfl)
        (Core.keeps_setObserver hslot _) ?_ fun _ hs => hs
      rw [add_right_comm, add_comm, ← h.linked.held_take hslot]
      exact le_rfl
    have hsize : slot < s.core.observers.size := h.linked.observers.lt_size (by simp [hslot])
    exact (htake.pushFree (f := .starting slot observer.output) rfl hsize).drop

theorem Inv.register (h : s.Inv gone loose) (kind : Kind) {output : Option Signal}
    (ho : ∀ r ∈ output, s.core.values.Known r) : (s.register kind output).Inv gone loose := by
  have hreg := h.linked.register kind output
  have hheld := h.linked.held_register kind output
  have hknown := h.linked.observers.known_insert (⟨output, ∅, kind, none, none⟩ : Observer V)
  have hkeeps : s.core.Keeps { (s.core.register kind output).2 with
      depth := (s.core.register kind output).2.depth + 1 } :=
    ⟨fun _ hr => ⟨hr, id⟩,
      fun _ he => ⟨he.insert _, fun hnone => (h.linked.observers.find?_insert he _).trans hnone⟩⟩
  have hcore : { s with core := { (s.core.register kind output).2 with
      depth := (s.core.register kind output).2.depth + 1 } }.Inv gone loose :=
    h.core (hreg.same rfl rfl rfl rfl (Finset.Subset.refl _)) hkeeps
      (add_le_add le_rfl (le_of_eq hheld)) fun _ hs => hs
  exact hcore.pushFree (f := .installing (s.core.register kind output).1 output) rfl ⟨hknown, ho⟩

theorem Inv.observe (h : s.Inv gone loose) (kind : Kind) {output : Option Signal}
    (ho : ∀ r ∈ output, s.core.values.Known r) : (s.observe kind output).Inv gone loose :=
  (h.register kind ho).evaluate _

theorem Inv.leave (h : s.Inv gone loose) (e : Effect) (latest : Option (Run V)) :
    (s.leave e latest).2.Inv gone ((s.leave e latest).1.held + loose) := by
  have hkeeps := s.core.keeps_capture e latest
  have hpop := (s.core.capture e latest).held_popOwner
  refine h.core ((h.linked.capture e latest).same rfl rfl rfl rfl (Finset.Subset.refl _))
    ⟨hkeeps.values, hkeeps.observers⟩ ?_ ?_
  · rw [add_right_comm, add_comm, ← h.linked.held_capture e latest, ← hpop]
    exact le_rfl
  · intro slot hs
    show (s.core.capture e latest).values.slots slot ≠ none
    rwa [Core.values_capture]

/-! ### What the program calls -/

/-- A fresh slot is held by the innermost owner, if there is one. -/
theorem Inv.allocate (h : s.Inv gone loose) (value : Option V) :
    { s with core := (s.core.allocate value).2 }.Inv gone loose := by
  have hfresh : s.core.values.slots (s.core.allocate value).1.slot = none :=
    h.linked.values.insert_slot _
  have hlive : ∀ slot, s.core.values.slots slot ≠ none →
      (s.core.allocate value).2.values.slots slot ≠ none := by
    intro slot hs
    show (s.core.values.insert ⟨value, false⟩).2.slots slot ≠ none
    rw [Arena.insert_slots]
    by_cases he : slot = (s.core.values.insert ⟨value, false⟩).1.slot
    · simp [he]
    · rwa [Function.update_of_ne he]
  have hself : (s.core.allocate value).2.values.slots (s.core.allocate value).1.slot ≠ none := by
    show (s.core.values.insert ⟨value, false⟩).2.slots (s.core.values.insert ⟨value, false⟩).1.slot
      ≠ none
    simp [Arena.insert_slots]
  have hkeeps : s.core.Keeps (s.core.allocate value).2 :=
    ⟨fun _ hr => ⟨hr.insert _, fun hnone => (h.linked.values.find?_insert hr _).trans hnone⟩,
      fun _ he => ⟨he, id⟩⟩
  have hlinked := h.linked.allocate value
  rcases s.core.held_allocate value with hheld | hheld
  · exact h.core hlinked hkeeps (add_le_add le_rfl (le_of_eq hheld)) hlive
  · have htotal : loose + { s with core := (s.core.allocate value).2 }.held =
        {(s.core.allocate value).1.slot} + (loose + s.held) := by
      show loose + ((s.core.allocate value).2.held + _ + _) = _
      rw [hheld, State.held]
      abel
    constructor
    · exact hlinked
    · rw [htotal, Multiset.singleton_add, Multiset.nodup_cons]
      exact ⟨fun hm => h.live _ hm hfresh, h.nodup⟩
    · intro slot hslot
      rw [htotal, Multiset.singleton_add, Multiset.mem_cons] at hslot
      rcases hslot with rfl | hslot
      · exact hself
      · exact hlive slot (h.live slot hslot)
    · exact fun r hr => (hkeeps.values r (h.signals_known r hr)).1
    · exact fun r hr => (hkeeps.values r (h.deriveds_known r hr)).1
    · exact fun e he => (hkeeps.observers e (h.effects_known e he)).1
    · exact fun frame hf => (h.frames_known frame hf).keeps hkeeps
    · exact fun r hr => ⟨(hkeeps.values r (h.signals_gone r hr).1).1,
        (hkeeps.values r (h.signals_gone r hr).1).2 (h.signals_gone r hr).2⟩
    · exact h.effects_gone

theorem Inv.known_allocate (h : s.Inv gone loose) (value : Option V) :
    (s.core.allocate value).2.values.Known (s.core.allocate value).1 :=
  h.linked.values.known_insert _

theorem Inv.signal (h : s.Inv gone loose) (value : V) : (s.signal value).Inv gone loose := by
  have hcore := h.allocate (some value)
  constructor
  · exact hcore.linked
  · exact hcore.nodup
  · exact hcore.live
  · intro r hr
    rcases Finset.mem_insert.mp hr with rfl | hr
    · exact h.known_allocate _
    · exact hcore.signals_known r hr
  · exact hcore.deriveds_known
  · exact hcore.effects_known
  · exact hcore.frames_known
  · exact hcore.signals_gone
  · exact hcore.effects_gone

theorem Inv.derived (h : s.Inv gone loose) : s.derived.Inv gone loose := by
  refine (h.allocate none).observe .derived ?_
  rintro r ⟨rfl⟩
  exact h.known_allocate none

theorem held_logRead (entry : Read V) (stack : List (Frame V)) :
    ((logRead entry stack).map Frame.held).sum = (stack.map Frame.held).sum := by
  induction stack with
  | nil => rfl
  | cons frame stack ih =>
      cases frame with
      | evaluating => rfl
      | leaving => rfl
      | _ => simp only [logRead, List.map_cons, List.sum_cons, ih]

theorem known_logRead {c : Core V} {entry : Read V} {stack : List (Frame V)}
    (h : ∀ frame ∈ stack, frame.Known c) : ∀ frame ∈ logRead entry stack, frame.Known c := by
  induction stack with
  | nil => exact h
  | cons top stack ih =>
      have htop := h _ List.mem_cons_self
      have htail := ih fun frame hf => h frame (List.mem_cons_of_mem _ hf)
      intro frame hf
      cases top with
      | evaluating e output reads =>
          rcases List.mem_cons.mp hf with rfl | hf
          · exact htop
          · exact h frame (List.mem_cons_of_mem _ hf)
      | leaving e reads result =>
          rcases List.mem_cons.mp hf with rfl | hf
          · exact htop
          · exact h frame (List.mem_cons_of_mem _ hf)
      | _ =>
          rcases List.mem_cons.mp hf with rfl | hf
          · exact h _ List.mem_cons_self
          · exact htail frame hf

theorem Inv.logRead (h : s.Inv gone loose) (entry : Read V) :
    { s with stack := logRead entry s.stack }.Inv gone loose := by
  refine h.move h.linked (.same rfl rfl) (le_of_eq ?_) (fun _ hs => hs) rfl rfl rfl ?_
  · simp only [State.held, held_logRead]
  · exact fun g hg => Or.inr (known_logRead h.frames_known g hg)

theorem tryGet_ok {c : Core V} {r : Signal} {v : V} (h : c.tryGet r = .ok v) :
    c.values.find? r = some ⟨some v, false⟩ := by
  unfold Core.tryGet at h
  split at h
  · cases h
  · rename_i cell hfind
    rw [hfind]
    rcases cell with ⟨content, borrowed⟩
    cases borrowed
    · cases content
      · cases h
      · cases h
        rfl
    · cases h

theorem Inv.read (h : s.Inv gone loose) (r : Signal) : (s.read r).Inv gone loose := by
  have hlog := h.logRead ⟨r, s.core.tryGet r, s.writes r⟩
  unfold State.read
  split
  · exact hlog
  · rename_i v hget
    have hlive : s.core.values.slots r.slot ≠ none := by
      simp [(Arena.find?_some (tryGet_ok hget)).2]
    exact hlog.core_same (h.linked.observeRead hlive) rfl rfl rfl

theorem Inv.set (h : s.Inv gone loose) (r : Signal) (value : V) : (s.set r value).Inv gone loose := by
  unfold State.set
  split
  · exact h
  · split
    · exact h
    · exact (h.write r _).changed _

theorem Inv.beginUpdate (h : s.Inv gone loose) (r : Signal) : (s.beginUpdate r).Inv gone loose := by
  unfold State.beginUpdate
  split
  · exact h
  · rename_i cell hfind
    split
    · exact h
    · exact (h.setCell hfind _).pushFree rfl trivial

theorem Inv.depth (h : s.Inv gone loose) (depth : Nat) :
    { s with core := { s.core with depth := depth } }.Inv gone loose :=
  h.aside rfl rfl rfl rfl (Finset.Subset.refl _) le_rfl

theorem Inv.endBatch (h : s.Inv gone loose) : s.endBatch.Inv gone loose := (h.depth _).flush

theorem Inv.pushOwner (h : s.Inv gone loose) :
    { s with core := { s.core with owners := .empty :: s.core.owners } }.Inv gone loose := by
  refine h.aside rfl rfl rfl rfl (Finset.Subset.refl _) ?_
  simp [Core.held]

theorem Inv.popOwner (h : s.Inv gone loose) :
    { s with core := s.core.popOwner.2 }.Inv gone (s.core.popOwner.1.held + loose) := by
  refine h.aside rfl rfl rfl rfl (Finset.Subset.refl _) ?_
  rw [add_right_comm, s.core.held_popOwner, add_comm]

theorem Inv.dropOwner {t : State V} {index : Nat} (h : s.Inv gone loose)
    (ht : s.dropOwner index = some t) : t.Inv gone loose := by
  obtain ⟨owner, hget, rfl⟩ := Option.map_eq_some_iff.mp ht
  obtain ⟨hlt, hget⟩ := List.getElem?_eq_some_iff.mp hget
  have hsum : owner.held + ((s.detached.eraseIdx index).map Owned.held).sum =
      (s.detached.map Owned.held).sum := by
    have hperm := List.getElem_cons_eraseIdx_perm hlt
    rw [← (hperm.map Owned.held).sum_eq, List.map_cons, List.sum_cons, hget]
  refine Inv.drop (h.move h.linked (.same rfl rfl) (le_of_eq ?_) (fun _ hs => hs) rfl rfl rfl
    fun g hg => Or.inl hg)
  simp only [State.held, ← hsum]
  abel

theorem Inv.detach {owner : Owned} (h : s.Inv gone (owner.held + loose)) :
    { s with detached := s.detached ++ [owner] }.Inv gone loose := by
  refine h.move h.linked (.same rfl rfl) (le_of_eq ?_) (fun _ hs => hs) rfl rfl rfl
    fun g hg => Or.inl hg
  simp only [State.held, List.map_append, List.map_cons, List.map_nil, List.sum_append,
    List.sum_cons, List.sum_nil]
  abel

/-- An observer is disposed; its run owner is in transit. -/
theorem Inv.disposeObserver (h : s.Inv gone loose) (slot : Nat) :
    { s with core := (s.core.disposeObserver slot).2 }.Inv gone
      (((s.core.disposeObserver slot).1.getD .empty).held + loose) := by
  refine h.core (h.linked.disposeObserver slot) (s.core.keeps_disposeObserver slot) ?_ ?_
  · rw [add_right_comm, h.linked.held_dispose, add_comm]
  · intro slot' hs
    rwa [Core.values_disposeObserver]

theorem Inv.dispose (h : s.Inv gone loose) (e : Effect) : (s.dispose e).Inv gone loose := by
  unfold State.dispose
  split
  · exact (h.disposeObserver e.slot).drop
  · exact h

theorem Inv.publish [BEq V] (h : s.Inv gone loose) (output : Signal) (next : V) :
    (s.publish output next).Inv gone loose := by
  unfold State.publish
  split
  · exact h
  · split
    · exact h
    · exact (h.write output _).changed _

theorem Inv.finish [BEq V] {t : State V} {result : Option V} (h : s.Inv gone loose)
    (ht : s.finish result = some t) : t.Inv gone loose := by
  unfold State.finish at ht
  split at ht
  · rename_i e output reads stack hs
    have hpop := h.popFree hs rfl
    have hk := h.frames_known _ (by rw [hs]; exact List.mem_cons_self)
    split at ht
    · cases ht
      exact hpop.pushFree rfl hk
    · cases ht
      exact (hpop.pushFree (f := .leaving e reads _) rfl hk).publish _ _
    · cases ht
  · cases ht

theorem Inv.close {t : State V} {a : Action V} (h : s.Inv gone loose) (ht : s.close a = some t) :
    t.Inv gone loose := by
  cases a with
  | endUpdate value =>
      simp only [State.close] at ht
      split at ht
      · rename_i r stack hs
        cases ht
        exact ((h.popFree hs rfl).write _ _).changed _
      · cases ht
  | endBatch =>
      simp only [State.close] at ht
      split at ht
      · rename_i stack hs
        cases ht
        exact (h.popFree hs rfl).endBatch
      · cases ht
  | endOwned =>
      simp only [State.close] at ht
      split at ht
      · rename_i stack hs
        cases ht
        exact (h.popFree hs rfl).popOwner.detach
      · cases ht
  | endCatch =>
      simp only [State.close] at ht
      split at ht
      · rename_i stack hs
        cases ht
        exact h.popFree hs rfl
      · cases ht
  | _ => cases ht

/-! ### What the scope does by itself -/

theorem Inv.turn (h : s.Inv gone loose) {turns : List (Effect × Kind)}
    (hs : s.stack = .flushing turns :: stack) : (s.turn turns stack).Inv gone loose := by
  have hpop := h.popFree hs rfl
  unfold State.turn
  split
  · exact hpop.aside rfl rfl rfl rfl (Finset.Subset.refl _) le_rfl
  · rename_i slot hnext
    split
    · have hdirty : { s with
          core := { s.core with dirty := s.core.dirty.erase slot }, stack := stack }.Inv gone loose :=
        hpop.aside rfl rfl rfl rfl (Finset.erase_subset _ _) le_rfl
      exact (hdirty.pushFree (f := .flushing (turns ++ [_])) rfl trivial).evaluate _
    · exact h.same rfl rfl rfl rfl rfl rfl

/-- Releasing a slot that is in transit. -/
theorem Inv.release {slot : Nat} (h : s.Inv gone ({slot} + loose)) :
    { s with core := s.core.release slot }.Inv gone loose := by
  have hmem : slot ∈ ({slot} : Multiset Nat) + loose + s.held := by simp
  have hlive := h.live slot hmem
  have hheld : { s with core := s.core.release slot }.held = s.held := by
    simp only [State.held, Core.held_release]
  have hnodup := h.nodup
  rw [add_assoc, Multiset.singleton_add, Multiset.nodup_cons] at hnodup
  constructor
  · exact h.linked.release hlive
  · rw [hheld]
    exact hnodup.2
  · intro other hother
    rw [hheld] at hother
    have hne : other ≠ slot := fun he => hnodup.1 (he ▸ hother)
    have hother' := h.live other (by rw [add_assoc]; exact Multiset.mem_add.mpr (Or.inr hother))
    simpa [Core.release, Arena.erase, Function.update_of_ne hne] using hother'
  · exact h.signals_known
  · exact h.deriveds_known
  · exact h.effects_known
  · exact fun frame hf => (h.frames_known frame hf).keeps (s.core.keeps_release slot)
  · exact fun r hr => ⟨(h.signals_gone r hr).1,
      ((s.core.keeps_release slot).values r (h.signals_gone r hr).1).2 (h.signals_gone r hr).2⟩
  · exact fun e he => ⟨(h.effects_gone e he).1,
      ((s.core.keeps_release slot).observers e (h.effects_gone e he).1).2 (h.effects_gone e he).2⟩

theorem Inv.dropItem (h : s.Inv gone loose) {items : List Item}
    (hs : s.stack = .dropping items :: stack) : (s.dropItem items stack).Inv gone loose := by
  have hpop := h.pop hs
  cases items with
  | nil =>
      simpa [State.dropItem, Frame.held] using hpop
  | cons item items =>
      cases item with
      | effect e =>
          have hrest : { s with stack := stack }.Inv gone ((Frame.dropping items : Frame V).held + loose) := by
            simpa [Frame.held, Item.held] using hpop
          unfold State.dropItem
          simp only
          split
          · have hdispose := hrest.disposeObserver e.slot
            rw [← add_assoc] at hdispose
            refine Inv.push (s := { s with
              core := (s.core.disposeObserver e.slot).2, stack := stack }) ?_ trivial
            simpa [Frame.held] using hdispose
          · exact hrest.push trivial
      | value slot =>
          have hrest : { s with stack := stack }.Inv gone
              ({slot} + ((Frame.dropping items : Frame V).held + loose)) := by
            simpa [Frame.held, Item.held, add_assoc] using hpop
          exact hrest.release.push trivial

theorem Inv.settle {e : Effect} {owner : Owned}
    (h : s.Inv gone (owner.held + loose)) : (s.settle e owner).Inv gone loose := by
  unfold State.settle
  split
  · exact h.drop
  · rename_i observer hfind
    have hslot := (Arena.find?_some hfind).2
    refine h.core (h.linked.setObserver hslot _ rfl) (Core.keeps_setObserver hslot _) ?_ fun _ hs => hs
    refine (add_le_add le_rfl (h.linked.held_give hslot owner)).trans (le_of_eq ?_)
    abel

theorem Inv.issue (h : s.Inv gone loose) {e : Effect} {output : Option Signal}
    (hk : (Frame.installing e output).Known s.core) : (s.issue e output).Inv gone loose := by
  cases output with
  | none =>
      constructor
      · exact h.linked
      · exact h.nodup
      · exact h.live
      · exact h.signals_known
      · exact h.deriveds_known
      · intro e' he
        rcases Finset.mem_insert.mp he with rfl | he
        · exact hk.1
        · exact h.effects_known e' he
      · exact h.frames_known
      · exact h.signals_gone
      · exact h.effects_gone
  | some output =>
      constructor
      · exact h.linked
      · exact h.nodup
      · exact h.live
      · exact h.signals_known
      · intro r hr
        rcases Finset.mem_insert.mp hr with rfl | hr
        · exact hk.2 r rfl
        · exact h.deriveds_known r hr
      · exact h.effects_known
      · exact h.frames_known
      · exact h.signals_gone
      · exact h.effects_gone

theorem Inv.tick {t : State V} (h : s.Inv gone loose) (ht : s.tick = some t) : t.Inv gone loose := by
  unfold State.tick at ht
  split at ht
  · rename_i items stack hs
    cases ht
    exact h.dropItem hs
  · rename_i slot output stack hs
    cases ht
    have hreads : { s with
        core := { s.core with owners := .empty :: s.core.owners, reads := .empty :: s.core.reads }
        stack := stack }.Inv gone loose := by
      have howner := (h.popFree hs rfl).pushOwner
      refine howner.core_same ?_ rfl rfl rfl
      constructor
      · exact h.linked.values
      · exact h.linked.observers
      · exact h.linked.subscribed
      · exact h.linked.dirty
      · exact h.linked.subscribers_live
      · intro m hm
        rcases List.mem_cons.mp hm with rfl | hm
        · simp [Reads.empty]
        · exact h.linked.reads_live m hm
    have hk := h.frames_known _ (by rw [hs]; exact List.mem_cons_self)
    exact hreads.pushFree rfl ⟨hk, le_rfl⟩
  · rename_i e reads result stack hs
    cases ht
    exact ((h.popFree hs rfl).leave e _).settle
  · rename_i e output stack hs
    cases ht
    have hk := h.frames_known _ (by rw [hs]; exact List.mem_cons_self)
    exact ((h.popFree hs rfl).issue hk).endBatch
  · rename_i turns stack hs
    cases ht
    exact h.turn hs
  · cases ht

theorem Inv.unwind {t : State V} {left : Option V} (h : s.Inv gone loose)
    (ht : s.unwind left = some t) : t.Inv gone loose := by
  unfold State.unwind at ht
  split at ht
  · cases ht
  · cases ht
  · rename_i stack hs
    cases ht
    exact (h.popFree hs rfl).depth _
  · rename_i e output stack hs
    cases ht
    exact (h.popFree hs rfl).depth _
  · rename_i r stack hs
    cases ht
    exact ((h.popFree hs rfl).write _ _).changed _
  · rename_i stack hs
    cases ht
    exact (h.popFree hs rfl).popOwner.drop
  · rename_i stack hs
    cases ht
    exact (h.popFree hs rfl).same rfl rfl rfl rfl rfl rfl
  · rename_i slot output stack hs
    cases ht
    exact h.popFree hs rfl
  · rename_i e output reads stack hs
    cases ht
    exact ((h.popFree hs rfl).leave e none).drop
  · rename_i e reads result stack hs
    cases ht
    exact ((h.popFree hs rfl).leave e none).drop
  · rename_i turns stack hs
    cases ht
    exact (h.popFree hs rfl).aside rfl rfl rfl rfl (Finset.Subset.refl _) le_rfl

/-! ### Every run -/

theorem Inv.apply [BEq V] {t : State V} {a : Action V} (h : s.Inv gone 0) (ht : s.apply a = some t) :
    t.Inv gone 0 := by
  unfold State.apply at ht
  split at ht
  · cases a with
    | signal value => cases ht; exact h.signal value
    | derived => cases ht; exact h.derived
    | effect => cases ht; exact h.observe .effect (by simp)
    | read r => cases ht; exact h.read r
    | set r value => cases ht; exact h.set r value
    | beginUpdate r => cases ht; exact h.beginUpdate r
    | endUpdate value => exact h.close (a := .endUpdate value) ht
    | beginBatch => cases ht; exact (h.depth _).pushFree rfl trivial
    | endBatch => exact h.close (a := .endBatch) ht
    | beginOwned => cases ht; exact h.pushOwner.pushFree rfl trivial
    | endOwned => exact h.close (a := .endOwned) ht
    | dropOwner index => exact h.dropOwner ht
    | dispose e => cases ht; exact h.dispose e
    | flush => cases ht; exact h.flush
    | finish result => exact h.finish ht
    | beginCatch => cases ht; exact h.pushFree rfl trivial
    | endCatch => exact h.close (a := .endCatch) ht
    | panic => cases ht; exact h.same rfl rfl rfl rfl rfl rfl
    | unwind left => exact h.unwind ht
    | tick => exact h.tick ht
  · cases ht

end State

theorem Reachable.inv [BEq V] {s : State V} (h : Reachable s) : s.Inv ⟨∅, ∅⟩ 0 := by
  refine h.subset (C := {s | s.Inv ⟨∅, ∅⟩ 0}) ?_ ?_
  · rintro s rfl
    exact State.Inv.initial
  · rintro s hs t ⟨a, ha⟩
    exact hs.apply ha

end Deka.Reactive
