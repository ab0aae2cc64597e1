/-
Deka/Reactive/Derived.lean

A derived value lives as long as its reaction.

Both are registered with the same owner, which drops reactions before values.  So a
live output has a live reaction, or it is about to be released by the owner on top of
the stack.
-/
import Deka.Reactive.Outputs

namespace Deka.Reactive

open Deka.Lib

variable {V : Type}

/-! ### Owners -/

/-- With the reaction of a live output, the output is in the list too. -/
structure Core.Paired (c : Core V) (items : List Item) : Prop where
  pair : ∀ e out k, Item.effect e ∈ items → c.observers.generations e.slot = e.generation →
    c.role e.slot = some (some out, k) → c.values.find? out ≠ none → Item.value out.slot ∈ items
  known : ∀ e, Item.effect e ∈ items → c.observers.Known e

/-- Whoever will drop these items. -/
inductive State.Holds (s : State V) : List Item → Prop where
  | owner (owner : Owned) : owner ∈ s.core.owners → Holds s owner.items
  | run (o : Nat) (observer : Observer V) (owner : Owned) :
      s.core.observers.slots o = some observer → observer.runOwner = some owner →
      Holds s owner.items
  | detached (owner : Owned) : owner ∈ s.detached → Holds s owner.items
  | dropping (items : List Item) : Frame.dropping items ∈ s.stack → Holds s items

/-- A live output has a reaction, or is about to be released. -/
def State.Accounted (s : State V) (out : Signal) : Prop :=
  (∃ o k, s.core.role o = some (some out, k)) ∨
    ∃ items, Frame.dropping items ∈ s.stack ∧ Item.value out.slot ∈ items

structure State.Owning (s : State V) : Prop where
  paired : ∀ items, s.Holds items → s.core.Paired items
  alive : ∀ out, (out ∈ s.deriveds ∨ ∃ e, Frame.installing e (some out) ∈ s.stack) →
    s.core.values.find? out ≠ none → s.Accounted out

@[simp] theorem Owned.effect_mem {o : Owned} {e : Effect} : Item.effect e ∈ o.items ↔ e ∈ o.effects := by
  simp [Owned.items]

@[simp] theorem Owned.value_mem {o : Owned} {slot : Nat} :
    Item.value slot ∈ o.items ↔ slot ∈ o.values := by
  simp [Owned.items]

theorem Core.Paired.nil (c : Core V) : c.Paired [] := ⟨by simp, by simp⟩

theorem Core.Paired.empty (c : Core V) : c.Paired Owned.empty.items := .nil c

/-- Outputs are known. -/
def Core.KnownOutputs (c : Core V) : Prop :=
  ∀ o out k, c.role o = some (some out, k) → c.values.Known out

theorem State.Made.knownOutputs {s : State V} (h : s.Made) : s.core.KnownOutputs :=
  fun o out k hr => (h.owns o out k hr).known

theorem Core.Paired.same {c d : Core V} {items : List Item} (h : c.Paired items)
    (ho : c.KnownOutputs) (hr : c.SameRoles d) (hk : c.Keeps d) : d.Paired items where
  pair := by
    intro e out k he hg hrole hlive
    rw [hr.generations] at hg
    have hrole' := hr.role _ _ hrole
    refine h.pair e out k he hg hrole' fun hnone => hlive ?_
    exact (hk.values out (ho _ _ _ hrole')).2 hnone
  known := fun e he => (hk.observers e (h.known e he)).1

theorem Core.Paired.append {c : Core V} {items items' : List Item} (h : c.Paired items)
    (h' : c.Paired items') : c.Paired (items ++ items') where
  pair := by
    intro e out k he hg hr hlive
    rcases List.mem_append.mp he with he | he
    · exact List.mem_append_left _ (h.pair e out k he hg hr hlive)
    · exact List.mem_append_right _ (h'.pair e out k he hg hr hlive)
  known := by
    intro e he
    rcases List.mem_append.mp he with he | he
    · exact h.known e he
    · exact h'.known e he

/-- The rest of a list whose first reaction is gone. -/
theorem Core.Paired.tail {c : Core V} {e : Effect} {items : List Item}
    (h : c.Paired (.effect e :: items)) : c.Paired items where
  pair := by
    intro e' out k he hg hr hlive
    have hmem := h.pair e' out k (List.mem_cons_of_mem _ he) hg hr hlive
    simpa using hmem
  known := fun e' he => h.known e' (List.mem_cons_of_mem _ he)

/-- The rest of a list whose first value is released. -/
theorem Core.Paired.released {c : Core V} {slot : Nat} {items : List Item}
    (h : c.Paired (.value slot :: items)) (hnone : ∀ out : Signal, out.slot = slot →
      c.values.find? out = none) : c.Paired items where
  pair := by
    intro e out k he hg hr hlive
    have hmem := h.pair e out k (List.mem_cons_of_mem _ he) hg hr hlive
    rcases List.mem_cons.mp hmem with hslot | hmem
    · cases hslot
      exact absurd (hnone out rfl) hlive
    · exact hmem
  known := fun e he => h.known e (List.mem_cons_of_mem _ he)

theorem Core.Keeps.trans {c d k : Core V} (h : c.Keeps d) (h' : d.Keeps k) : c.Keeps k where
  values := by
    intro r hr
    obtain ⟨hd, hnone⟩ := h.values r hr
    exact ⟨(h'.values r hd).1, fun hc => (h'.values r hd).2 (hnone hc)⟩
  observers := by
    intro e he
    obtain ⟨hd, hnone⟩ := h.observers e he
    exact ⟨(h'.observers e hd).1, fun hc => (h'.observers e hd).2 (hnone hc)⟩

namespace State

variable {s t : State V} {stack : List (Frame V)} {f : Frame V}

theorem Owning.initial : (initial : State V).Owning where
  paired := by
    intro items h
    cases h with
    | owner _ hm => cases hm
    | run _ _ _ hs => cases hs
    | detached _ hm => cases hm
    | dropping _ hm => cases hm
  alive := by
    rintro out (hm | ⟨e, hm⟩)
    · simp [State.initial] at hm
    · cases hm

theorem Inv.known_issued {gone : Gone} (hi : s.Inv gone 0) {out : Signal}
    (ho : out ∈ s.deriveds ∨ ∃ e, Frame.installing e (some out) ∈ s.stack) :
    s.core.values.Known out := by
  rcases ho with ho | ⟨e, ho⟩
  · exact hi.deriveds_known out ho
  · exact (hi.frames_known _ ho).2 out rfl

/-- A move that starts no reaction and hands nothing out. -/
theorem Owning.move (h : s.Owning) {gone : Gone} (hi : s.Inv gone 0) (hm : s.Made)
    (hr : s.core.SameRoles t.core) (hk : s.core.Keeps t.core)
    (hholds : ∀ items, t.Holds items → s.Holds items ∨ t.core.Paired items)
    (hd : t.deriveds = s.deriveds)
    (hstack : ∀ e out, Frame.installing e (some out) ∈ t.stack →
      Frame.installing e (some out) ∈ s.stack)
    (ha : ∀ out, s.Accounted out → t.core.values.find? out ≠ none → t.Accounted out) :
    t.Owning where
  paired := by
    intro items hitems
    rcases hholds items hitems with hitems | hpaired
    · exact (h.paired items hitems).same hm.knownOutputs hr hk
    · exact hpaired
  alive := by
    intro out ho hlive
    have ho' : out ∈ s.deriveds ∨ ∃ e, Frame.installing e (some out) ∈ s.stack := by
      rcases ho with ho | ⟨e, ho⟩
      · exact Or.inl (hd ▸ ho)
      · exact Or.inr ⟨e, hstack e out ho⟩
    have hknown := hi.known_issued ho'
    exact ha out (h.alive out ho' fun hnone => hlive ((hk.values out hknown).2 hnone)) hlive

/-- Frames that drop or install. -/
def Frame.isOwning : Frame V → Bool
  | .dropping _ | .installing .. => true
  | _ => false

/-- No reaction, no owner and no frame that drops or installs changes. -/
structure Quiet (s t : State V) : Prop where
  observers : t.core.observers = s.core.observers
  owners : t.core.owners = s.core.owners
  detached : t.detached = s.detached
  deriveds : t.deriveds = s.deriveds
  keeps : s.core.Keeps t.core
  frames : ∀ f, Frame.isOwning f = true → (f ∈ t.stack ↔ f ∈ s.stack)

theorem Quiet.trans {u : State V} (h : s.Quiet t) (h' : t.Quiet u) : s.Quiet u where
  observers := h'.observers.trans h.observers
  owners := h'.owners.trans h.owners
  detached := h'.detached.trans h.detached
  deriveds := h'.deriveds.trans h.deriveds
  keeps := h.keeps.trans h'.keeps
  frames := fun f hf => (h'.frames f hf).trans (h.frames f hf)

theorem Quiet.core {d : Core V} (ho : d.observers = s.core.observers)
    (hw : d.owners = s.core.owners) (hk : s.core.Keeps d) : s.Quiet { s with core := d } :=
  ⟨ho, hw, rfl, rfl, hk, fun _ _ => Iff.rfl⟩

theorem Quiet.push (hf : Frame.isOwning f = false) : s.Quiet { s with stack := f :: s.stack } where
  observers := rfl
  owners := rfl
  detached := rfl
  deriveds := rfl
  keeps := .same rfl rfl
  frames := by
    intro g hg
    have hne : g ≠ f := by
      rintro rfl
      rw [hf] at hg
      cases hg
    simp [hne]

theorem Quiet.pop (hs : s.stack = f :: stack) (hf : Frame.isOwning f = false) :
    s.Quiet { s with stack := stack } where
  observers := rfl
  owners := rfl
  detached := rfl
  deriveds := rfl
  keeps := .same rfl rfl
  frames := by
    intro g hg
    have hne : g ≠ f := by
      rintro rfl
      rw [hf] at hg
      cases hg
    simp [hs, hne]

theorem quiet_flush (s : State V) : s.Quiet s.flush := by
  unfold State.flush
  split
  · exact ⟨rfl, rfl, rfl, rfl, .same rfl rfl, fun _ _ => Iff.rfl⟩
  · exact (Quiet.push (f := .flushing []) rfl).trans (.core rfl rfl (.same rfl rfl))

theorem quiet_changed (s : State V) (slot : Nat) : s.Quiet (s.changed slot) := by
  have hcore : s.Quiet { s with core := s.core.changed slot } := .core rfl rfl (.same rfl rfl)
  unfold State.changed
  split
  · exact hcore
  · exact hcore.trans (quiet_flush _)

theorem quiet_write (s : State V) (r : Signal) (value : Option V) : s.Quiet (s.write r value) := by
  unfold State.write
  split
  · exact ⟨rfl, rfl, rfl, rfl, .same rfl rfl, fun _ _ => Iff.rfl⟩
  · rename_i cell hfind
    have hcore : s.Quiet { s with core := s.core.setCell r ⟨value.or cell.content, false⟩ } :=
      .core rfl rfl (Core.keeps_setCell hfind _)
    exact ⟨hcore.observers, hcore.owners, rfl, rfl, hcore.keeps, hcore.frames⟩

theorem quiet_publish [BEq V] (s : State V) (output : Signal) (next : V) :
    s.Quiet (s.publish output next) := by
  unfold State.publish
  split
  · exact ⟨rfl, rfl, rfl, rfl, .same rfl rfl, fun _ _ => Iff.rfl⟩
  · split
    · exact ⟨rfl, rfl, rfl, rfl, .same rfl rfl, fun _ _ => Iff.rfl⟩
    · exact (quiet_write _ _ _).trans (quiet_changed _ _)

theorem owning_mem_logRead {entry : Read V} {stack : List (Frame V)}
    (hf : Frame.isOwning f = true) : f ∈ logRead entry stack ↔ f ∈ stack := by
  induction stack with
  | nil => rfl
  | cons top stack ih =>
      cases top with
      | evaluating e output reads =>
          have hne : ∀ reads', f ≠ .evaluating e output reads' := by
            rintro reads' rfl
            cases hf
          simp [logRead, hne]
      | leaving e reads result =>
          have hne : ∀ reads', f ≠ .leaving e reads' result := by
            rintro reads' rfl
            cases hf
          simp [logRead, hne]
      | _ => simp [logRead, ih]

theorem quiet_read (s : State V) (r : Signal) : s.Quiet (s.read r) := by
  have hlog : s.Quiet { s with stack := logRead ⟨r, s.core.tryGet r, s.writes r⟩ s.stack } :=
    ⟨rfl, rfl, rfl, rfl, .same rfl rfl, fun _ hf => owning_mem_logRead hf⟩
  unfold State.read
  split
  · exact hlog
  · exact hlog.trans (.core rfl rfl (.same rfl rfl))

theorem Quiet.holds {items : List Item} (h : s.Quiet t) (ht : t.Holds items) : s.Holds items := by
  cases ht with
  | owner owner hm => exact .owner owner (h.owners ▸ hm)
  | run o observer owner hs ho => exact .run o observer owner (h.observers ▸ hs) ho
  | detached owner hm => exact .detached owner (h.detached ▸ hm)
  | dropping _ hm => exact .dropping items ((h.frames _ rfl).mp hm)

theorem Owning.quiet (h : s.Owning) {gone : Gone} (hi : s.Inv gone 0) (hm : s.Made)
    (hq : s.Quiet t) : t.Owning := by
  have hrole : ∀ o, t.core.role o = s.core.role o := fun o => by
    rw [Core.role, hq.observers]
    rfl
  refine h.move hi hm ⟨fun o x hx => (hrole o).symm.trans hx, by rw [hq.observers],
    fun r hr => (hq.keeps.values r hr).1⟩ hq.keeps (fun items hitems => Or.inl (hq.holds hitems))
    hq.deriveds (fun e out hf => (hq.frames _ rfl).mp hf) ?_
  rintro out (⟨o, k, hr⟩ | ⟨items, hitems, hslot⟩) -
  · exact Or.inl ⟨o, k, (hrole o).trans hr⟩
  · exact Or.inr ⟨items, (hq.frames _ rfl).mpr hitems, hslot⟩

/-! ### Owners come and go -/

theorem Owning.signal (h : s.Owning) {gone : Gone} (hi : s.Inv gone 0) (hm : s.Made)
    (value : Option V) : { s with core := (s.core.allocate value).2 }.Owning := by
  have hk : s.core.Keeps (s.core.allocate value).2 :=
    ⟨fun _ hr => ⟨hr.insert _, fun hnone => (hi.linked.values.find?_insert hr _).trans hnone⟩,
      fun _ he => ⟨he, id⟩⟩
  have hr : s.core.SameRoles (s.core.allocate value).2 := .same rfl fun _ hr => hr.insert _
  refine h.move hi hm hr hk ?_ rfl (fun _ _ hf => hf) fun out ha _ => ha
  intro items hitems
  cases hitems with
  | owner owner hmem =>
      have hmem' : owner ∈ s.core.owners.modifyHead fun owner =>
        { owner with values := owner.values ++ [(s.core.allocate value).1.slot] } := hmem
      cases howners : s.core.owners with
      | nil => simp [howners] at hmem'
      | cons top owners =>
          rw [howners, List.modifyHead_cons] at hmem'
          rcases List.mem_cons.mp hmem' with rfl | hmem'
          · right
            have hpaired := (h.paired _ (.owner top (by simp [howners]))).same hm.knownOutputs hr hk
            constructor
            · intro e out k he hg hrole hlive
              have hslot := hpaired.pair e out k (by simpa using he) hg hrole hlive
              simp only [Owned.value_mem] at hslot ⊢
              exact List.mem_append_left _ hslot
            · exact fun e he => hpaired.known e (by simpa using he)
          · exact Or.inl (.owner owner (by simp [howners, hmem']))
  | run o observer owner hs ho => exact Or.inl (.run o observer owner hs ho)
  | detached owner hmem => exact Or.inl (.detached owner hmem)
  | dropping _ hmem => exact Or.inl (.dropping items hmem)

/-- A new reaction is registered with the owner of its output. -/
theorem Owning.register (h : s.Owning) {gone : Gone} (hi : s.Inv gone 0)
    {kind : Kind} {output : Option Signal}
    (hout : ∀ out ∈ output, ∀ owner ∈ s.core.owners.head?, out.slot ∈ owner.values) :
    (s.register kind output).Owning := by
  have hrole : ∀ o, (s.register kind output).core.role o =
      if o = (s.core.register kind output).1.slot then some (output, kind) else s.core.role o :=
    role_register s.core kind output
  have hpaired : ∀ items, s.Holds items → (s.register kind output).core.Paired items := by
    intro items hitems
    have hold := h.paired items hitems
    constructor
    · intro e out k he hg hr hlive
      have hne : e.slot ≠ (s.core.register kind output).1.slot := register_ne (hold.known e he) hg
      rw [hrole, if_neg hne] at hr
      exact hold.pair e out k he ((generations_register _ _ _ hne).symm.trans hg) hr hlive
    · exact fun e he => (hold.known e he).insert _
  constructor
  · intro items hitems
    cases hitems with
    | owner owner hmem =>
        have hmem' : owner ∈ s.core.owners.modifyHead fun owner =>
          { owner with effects := owner.effects ++ [(s.core.register kind output).1] } := hmem
        cases howners : s.core.owners with
        | nil => simp [howners] at hmem'
        | cons top owners =>
            rw [howners, List.modifyHead_cons] at hmem'
            rcases List.mem_cons.mp hmem' with rfl | hmem'
            · have htop := hpaired _ (.owner top (by simp [howners]))
              constructor
              · intro e out k he hg hr hlive
                simp only [Owned.effect_mem, List.mem_append, List.mem_singleton] at he
                simp only [Owned.value_mem]
                rcases he with he | rfl
                · simpa using htop.pair e out k (by simpa using he) hg hr hlive
                · rw [hrole, if_pos rfl] at hr
                  have hself : output = some out := by simpa using congrArg (Option.map Prod.fst) hr
                  exact hout out hself top (by simp [howners])
              · intro e he
                simp only [Owned.effect_mem, List.mem_append, List.mem_singleton] at he
                rcases he with he | rfl
                · exact htop.known e (by simpa using he)
                · exact hi.linked.observers.known_insert _
            · exact hpaired _ (.owner owner (by simp [howners, hmem']))
    | run o observer owner hs ho =>
        by_cases he : o = (s.core.register kind output).1.slot
        · have hnew : (s.core.register kind output).2.observers.slots o =
              some ⟨output, ∅, kind, none, none⟩ := by
            show (s.core.observers.insert _).2.slots o = _
            rw [Arena.insert_slots, he]
            exact Function.update_self _ _ _
          have heq := hs.symm.trans hnew
          cases heq
          cases ho
        · have hold : s.core.observers.slots o = some observer := by
            rw [← hs]
            show _ = (s.core.observers.insert _).2.slots o
            rw [Arena.insert_slots]
            exact (Function.update_of_ne he _ _).symm
          exact hpaired _ (.run o observer owner hold ho)
    | detached owner hmem => exact hpaired _ (.detached owner hmem)
    | dropping _ hmem =>
        rcases List.mem_cons.mp hmem with hmem | hmem
        · cases hmem
        · exact hpaired _ (.dropping items hmem)
  · intro out ho hlive
    have hkeep : ∀ o k, s.core.role o = some (some out, k) →
        (s.register kind output).core.role o = some (some out, k) := by
      intro o k hr
      have hne : o ≠ (s.core.register kind output).1.slot := by
        rintro rfl
        have hnone : s.core.role (s.core.register kind output).1.slot = none := by
          have hslot := hi.linked.observers.insert_slot (⟨output, ∅, kind, none, none⟩ : Observer V)
          show (s.core.observers.slots (s.core.observers.insert _).1.slot).map _ = none
          rw [hslot]
          rfl
        rw [hnone] at hr
        cases hr
      rw [hrole, if_neg hne, hr]
    have hold : (out ∈ s.deriveds ∨ ∃ e, Frame.installing e (some out) ∈ s.stack) →
        (s.register kind output).Accounted out := by
      intro ho
      rcases h.alive out ho hlive with ⟨o, k, hr⟩ | ⟨items, hitems, hslot⟩
      · exact Or.inl ⟨o, k, hkeep o k hr⟩
      · exact Or.inr ⟨items, List.mem_cons_of_mem _ hitems, hslot⟩
    rcases ho with ho | ⟨e, ho⟩
    · exact hold (Or.inl ho)
    · rcases List.mem_cons.mp ho with ho | ho
      · cases ho
        refine Or.inl ⟨(s.core.register kind (some out)).1.slot, kind, ?_⟩
        rw [hrole, if_pos rfl]
      · exact hold (Or.inr ⟨e, ho⟩)

/-- The run owner of an observer is dropped before its next run. -/
theorem Owning.evaluate (h : s.Owning) {gone : Gone} (hi : s.Inv gone 0) (hm : s.Made)
    (slot : Nat) : (s.evaluate slot).Owning := by
  unfold State.evaluate
  split
  · exact h
  · rename_i observer hslot
    have hrole : ∀ o, roleIn (s.core.observers.set slot { observer with runOwner := none }) o =
        s.core.role o := roleIn_set hslot _ rfl rfl
    have hk := Core.keeps_setObserver hslot { observer with runOwner := none }
    refine h.move hi hm ⟨fun o x hx => (hrole o).symm.trans hx, rfl, fun _ hr => hr⟩ hk ?_ rfl ?_ ?_
    · intro items hitems
      cases hitems with
      | owner owner hmem => exact Or.inl (.owner owner hmem)
      | run o other owner hs ho =>
          by_cases he : o = slot
          · subst he
            simp only [Arena.set, Function.update_self, Option.some.injEq] at hs
            rw [← hs] at ho
            cases ho
          · simp only [Arena.set, Function.update_of_ne he] at hs
            exact Or.inl (.run o other owner hs ho)
      | detached owner hmem => exact Or.inl (.detached owner hmem)
      | dropping _ hmem =>
          rcases List.mem_cons.mp hmem with hmem | hmem
          · cases hmem
            cases ho : observer.runOwner with
            | none => exact Or.inr (.empty _)
            | some owner => exact Or.inl (.run slot observer owner hslot ho)
          · rcases List.mem_cons.mp hmem with hmem | hmem
            · cases hmem
            · exact Or.inl (.dropping items hmem)
    · intro e out hf
      rcases List.mem_cons.mp hf with hf | hf
      · cases hf
      · rcases List.mem_cons.mp hf with hf | hf
        · cases hf
        · exact hf
    · rintro out (⟨o, k, ho⟩ | ⟨items, hitems, hs⟩) -
      · exact Or.inl ⟨o, k, (hrole o).trans ho⟩
      · exact Or.inr ⟨items, List.mem_cons_of_mem _ (List.mem_cons_of_mem _ hitems), hs⟩

/-- What an observer that is disposed leaves behind. -/
theorem holds_dispose {slot : Nat} {items : List Item}
    (h : { s with core := (s.core.disposeObserver slot).2 }.Holds items) : s.Holds items := by
  have howners : (s.core.disposeObserver slot).2.owners = s.core.owners := by
    unfold Core.disposeObserver
    split <;> rfl
  have hslots : ∀ o observer, (s.core.disposeObserver slot).2.observers.slots o = some observer →
      s.core.observers.slots o = some observer := by
    intro o observer ho
    unfold Core.disposeObserver at ho
    split at ho
    · exact ho
    · by_cases he : o = slot
      · simp [Arena.erase, he] at ho
      · simpa [Arena.erase, Function.update_of_ne he] using ho
  cases h with
  | owner owner hmem => exact .owner owner (howners ▸ hmem)
  | run o observer owner hs ho => exact .run o observer owner (hslots o observer hs) ho
  | detached owner hmem => exact .detached owner hmem
  | dropping _ hmem => exact .dropping items hmem

theorem Owning.paired_left (h : s.Owning) (slot : Nat) :
    s.core.Paired ((s.core.disposeObserver slot).1.getD .empty).items := by
  cases hrun : (s.core.disposeObserver slot).1 with
  | none => exact .empty _
  | some owner =>
      unfold Core.disposeObserver at hrun
      split at hrun
      · cases hrun
      · rename_i observer hslot
        exact h.paired _ (.run slot observer owner hslot hrun)

/-- The program disposes a reaction that publishes nothing. -/
theorem Owning.dispose (h : s.Owning) {gone : Gone} (hi : s.Inv gone 0) (hm : s.Made)
    {e : Effect} (he : e ∈ s.effects) (hg : s.core.observers.generations e.slot = e.generation) :
    ({ s with core := (s.core.disposeObserver e.slot).2 }.drop
      ((s.core.disposeObserver e.slot).1.getD .empty)).Owning := by
  have hr := s.core.sameRoles_dispose e.slot
  have hk := s.core.keeps_disposeObserver e.slot
  refine h.move hi hm hr hk ?_ rfl ?_ ?_
  · intro items hitems
    cases hitems with
    | owner owner hmem => exact Or.inl (holds_dispose (.owner owner hmem))
    | run o observer owner hs ho => exact Or.inl (holds_dispose (.run o observer owner hs ho))
    | detached owner hmem => exact Or.inl (.detached owner hmem)
    | dropping _ hmem =>
        rcases List.mem_cons.mp hmem with hmem | hmem
        · cases hmem
          exact Or.inr ((h.paired_left e.slot).same hm.knownOutputs hr hk)
        · exact Or.inl (.dropping items hmem)
  · intro e' out hf
    rcases List.mem_cons.mp hf with hf | hf
    · cases hf
    · exact hf
  · rintro out (⟨o, k, ho⟩ | ⟨items, hitems, hs⟩) -
    · left
      refine ⟨o, k, ?_⟩
      show (s.core.disposeObserver e.slot).2.role o = _
      rw [Core.role_dispose, if_neg, ho]
      rintro rfl
      cases hm.effects e he hg (some out) k ho
    · exact Or.inr ⟨items, List.mem_cons_of_mem _ hitems, hs⟩

/-! ### Items of a dropped owner -/

/-- The list on top is replaced by one that keeps its values. -/
theorem Owning.dropNext (h : s.Owning) {gone : Gone} (hi : s.Inv gone 0) (hm : s.Made)
    (hsh : s.Shaped) {items items' : List Item} (hs : s.stack = .dropping items :: stack)
    {d : Core V} (hr : s.core.SameRoles d) (hk : s.core.Keeps d)
    (howners : d.owners = s.core.owners)
    (hruns : ∀ o observer owner, d.observers.slots o = some observer →
      observer.runOwner = some owner →
      ∃ old, s.core.observers.slots o = some old ∧ old.runOwner = some owner)
    (hpaired : d.Paired items')
    (ha : ∀ out, d.values.find? out ≠ none →
      (∀ o k, s.core.role o = some (some out, k) →
        d.role o = some (some out, k) ∨ Item.value out.slot ∈ items') ∧
      (Item.value out.slot ∈ items → Item.value out.slot ∈ items')) :
    { s with core := d, stack := .dropping items' :: stack }.Owning := by
  have htop : ∀ other, Frame.dropping other ∈ s.stack → other = items := by
    intro other hmem
    have hstacked := hsh.stacked
    rw [hs] at hmem hstacked
    rcases List.mem_cons.mp hmem with hmem | hmem
    · cases hmem
      rfl
    · exact absurd hmem hstacked.dropping_top
  refine h.move hi hm hr hk ?_ rfl ?_ ?_
  · intro other hother
    cases hother with
    | owner owner hmem => exact Or.inl (.owner owner (howners ▸ hmem))
    | run o observer owner hslot ho =>
        obtain ⟨old, hold, ho'⟩ := hruns o observer owner hslot ho
        exact Or.inl (.run o old owner hold ho')
    | detached owner hmem => exact Or.inl (.detached owner hmem)
    | dropping _ hmem =>
        rcases List.mem_cons.mp hmem with hmem | hmem
        · cases hmem
          exact Or.inr hpaired
        · exact Or.inl (.dropping other (by rw [hs]; exact List.mem_cons_of_mem _ hmem))
  · intro e out hf
    rcases List.mem_cons.mp hf with hf | hf
    · cases hf
    · rw [hs]
      exact List.mem_cons_of_mem _ hf
  · rintro out (⟨o, k, ho⟩ | ⟨other, hother, hslot⟩) hlive
    · rcases (ha out hlive).1 o k ho with ho | hslot
      · exact Or.inl ⟨o, k, ho⟩
      · exact Or.inr ⟨items', List.mem_cons_self, hslot⟩
    · rw [htop other hother] at hslot
      exact Or.inr ⟨items', List.mem_cons_self, (ha out hlive).2 hslot⟩

theorem Owning.paired_top (h : s.Owning) {items : List Item}
    (hs : s.stack = .dropping items :: stack) : s.core.Paired items :=
  h.paired items (.dropping items (by rw [hs]; exact List.mem_cons_self))

theorem Owning.dropEffect (h : s.Owning) {gone : Gone} (hi : s.Inv gone 0) (hm : s.Made)
    (hsh : s.Shaped) {e : Effect} {items : List Item}
    (hs : s.stack = .dropping (.effect e :: items) :: stack)
    (hg : s.core.observers.generations e.slot = e.generation) :
    { s with
      core := (s.core.disposeObserver e.slot).2
      stack := .dropping (((s.core.disposeObserver e.slot).1.getD .empty).items ++ items) ::
        stack }.Owning := by
  have hr := s.core.sameRoles_dispose e.slot
  have hk := s.core.keeps_disposeObserver e.slot
  have htop := h.paired_top hs
  refine h.dropNext hi hm hsh hs hr hk ?_ ?_ ?_ ?_
  · unfold Core.disposeObserver
    split <;> rfl
  · intro o observer owner hslot ho
    unfold Core.disposeObserver at hslot
    split at hslot
    · exact ⟨observer, hslot, ho⟩
    · by_cases he : o = e.slot
      · simp [Arena.erase, he] at hslot
      · exact ⟨observer, by simpa [Arena.erase, Function.update_of_ne he] using hslot, ho⟩
  · exact ((h.paired_left e.slot).append htop.tail).same hm.knownOutputs hr hk
  · intro out hlive
    rw [Core.values_disposeObserver] at hlive
    refine ⟨fun o k ho => ?_, fun hslot => ?_⟩
    · by_cases he : o = e.slot
      · subst he
        right
        have hmem := htop.pair e out k List.mem_cons_self hg ho hlive
        exact List.mem_append_right _ (by simpa using hmem)
      · left
        rw [Core.role_dispose, if_neg he, ho]
    · exact List.mem_append_right _ (by simpa using hslot)

theorem Owning.dropStale (h : s.Owning) {gone : Gone} (hi : s.Inv gone 0) (hm : s.Made)
    (hsh : s.Shaped) {e : Effect} {items : List Item}
    (hs : s.stack = .dropping (.effect e :: items) :: stack) :
    { s with stack := .dropping items :: stack }.Owning := by
  refine h.dropNext hi hm hsh hs (.same rfl fun _ hr => hr) (.same rfl rfl) rfl
    (fun o observer owner hslot ho => ⟨observer, hslot, ho⟩) (h.paired_top hs).tail ?_
  exact fun out _ => ⟨fun o k ho => Or.inl ho, fun hslot => by simpa using hslot⟩

theorem Owning.dropValue (h : s.Owning) {gone : Gone} (hi : s.Inv gone 0) (hm : s.Made)
    (hsh : s.Shaped) {slot : Nat} {items : List Item}
    (hs : s.stack = .dropping (.value slot :: items) :: stack) :
    { s with core := s.core.release slot, stack := .dropping items :: stack }.Owning := by
  have hr : s.core.SameRoles (s.core.release slot) :=
    ⟨fun o x hx => (s.core.role_release slot o).symm.trans hx, rfl, fun _ hr => hr⟩
  have hk := s.core.keeps_release slot
  have hnone : ∀ out : Signal, out.slot = slot → (s.core.release slot).values.find? out = none := by
    intro out hout
    show (s.core.values.erase slot).find? out = none
    rw [Arena.find?_erase, if_pos hout]
  refine h.dropNext hi hm hsh hs hr hk rfl ?_ ?_ ?_
  · intro o observer owner hslot ho
    obtain ⟨old, hold, rfl⟩ := Option.map_eq_some_iff.mp hslot
    exact ⟨old, hold, ho⟩
  · exact ((h.paired_top hs).same hm.knownOutputs hr hk).released hnone
  · intro out hlive
    refine ⟨fun o k ho => Or.inl ((s.core.role_release slot o).trans ho), fun hslot => ?_⟩
    rcases List.mem_cons.mp hslot with hslot | hslot
    · cases hslot
      exact absurd (hnone out rfl) hlive
    · exact hslot

theorem Owning.dropNil (h : s.Owning) {gone : Gone} (hi : s.Inv gone 0) (hm : s.Made)
    (hs : s.stack = .dropping [] :: stack) : { s with stack := stack }.Owning := by
  refine h.move hi hm (.same rfl fun _ hr => hr) (.same rfl rfl) ?_ rfl ?_ ?_
  · intro items hitems
    cases hitems with
    | owner owner hmem => exact Or.inl (.owner owner hmem)
    | run o observer owner hslot ho => exact Or.inl (.run o observer owner hslot ho)
    | detached owner hmem => exact Or.inl (.detached owner hmem)
    | dropping _ hmem =>
        exact Or.inl (.dropping items (by rw [hs]; exact List.mem_cons_of_mem _ hmem))
  · intro e out hf
    rw [hs]
    exact List.mem_cons_of_mem _ hf
  · rintro out (ho | ⟨items, hitems, hslot⟩) -
    · exact Or.inl ho
    · rw [hs] at hitems
      rcases List.mem_cons.mp hitems with hitems | hitems
      · cases hitems
        cases hslot
      · exact Or.inr ⟨items, hitems, hslot⟩

/-! ### Owners move -/

/-- Owners may go from one holder to another. -/
theorem Owning.transfer (h : s.Owning) {gone : Gone} (hi : s.Inv gone 0) (hm : s.Made)
    (hr : ∀ o, t.core.role o = s.core.role o)
    (hg : t.core.observers.generations = s.core.observers.generations)
    (hk : s.core.Keeps t.core) (hd : t.deriveds = s.deriveds)
    (hholds : ∀ items, t.Holds items → s.Holds items ∨ items = [])
    (hinstall : ∀ e out, Frame.installing e (some out) ∈ t.stack →
      Frame.installing e (some out) ∈ s.stack)
    (hdrop : ∀ items, Frame.dropping items ∈ s.stack → Frame.dropping items ∈ t.stack) :
    t.Owning := by
  refine h.move hi hm ⟨fun o x hx => (hr o).symm.trans hx, hg, fun r hr => (hk.values r hr).1⟩ hk
    (fun items hitems => ?_) hd hinstall ?_
  · rcases hholds items hitems with hitems | rfl
    · exact Or.inl hitems
    · exact Or.inr (.nil _)
  · rintro out (⟨o, k, hrole⟩ | ⟨items, hitems, hslot⟩) -
    · exact Or.inl ⟨o, k, (hr o).trans hrole⟩
    · exact Or.inr ⟨items, hdrop items hitems, hslot⟩

/-- An owner that is popped was held, or there was none. -/
theorem holds_popOwner (s : State V) :
    s.Holds s.core.popOwner.1.items ∨ s.core.popOwner.1.items = [] := by
  unfold Core.popOwner
  cases howners : s.core.owners with
  | nil => exact Or.inr rfl
  | cons owner owners => exact Or.inl (.owner owner (by simp [howners]))

theorem Owning.beginOwned (h : s.Owning) {gone : Gone} (hi : s.Inv gone 0) (hm : s.Made) :
    s.beginOwned.Owning := by
  refine h.transfer hi hm (fun _ => rfl) rfl (.same rfl rfl) rfl ?_ ?_ ?_
  · intro items hitems
    cases hitems with
    | owner owner hmem =>
        rcases List.mem_cons.mp hmem with rfl | hmem
        · exact Or.inr rfl
        · exact Or.inl (.owner owner hmem)
    | run o observer owner hslot ho => exact Or.inl (.run o observer owner hslot ho)
    | detached owner hmem => exact Or.inl (.detached owner hmem)
    | dropping _ hmem =>
        rcases List.mem_cons.mp hmem with hmem | hmem
        · cases hmem
        · exact Or.inl (.dropping items hmem)
  · intro e out hf
    rcases List.mem_cons.mp hf with hf | hf
    · cases hf
    · exact hf
  · exact fun items hitems => List.mem_cons_of_mem _ hitems

theorem Owning.endOwned (h : s.Owning) {gone : Gone} (hi : s.Inv gone 0) (hm : s.Made)
    (hs : s.stack = .owned :: stack) :
    { s with
      core := s.core.popOwner.2
      detached := s.detached ++ [s.core.popOwner.1]
      stack := stack }.Owning := by
  have hsub : ∀ g ∈ stack, g ∈ s.stack := fun g hg => by rw [hs]; exact List.mem_cons_of_mem _ hg
  refine h.transfer hi hm (fun _ => rfl) rfl (.same rfl rfl) rfl ?_ (fun e out hf => hsub _ hf) ?_
  · intro items hitems
    cases hitems with
    | owner owner hmem => exact Or.inl (.owner owner (List.mem_of_mem_tail hmem))
    | run o observer owner hslot ho => exact Or.inl (.run o observer owner hslot ho)
    | detached owner hmem =>
        rcases List.mem_append.mp hmem with hmem | hmem
        · exact Or.inl (.detached owner hmem)
        · rw [List.mem_singleton.mp hmem]
          exact s.holds_popOwner
    | dropping _ hmem => exact Or.inl (.dropping items (hsub _ hmem))
  · intro items hitems
    rw [hs] at hitems
    rcases List.mem_cons.mp hitems with hitems | hitems
    · cases hitems
    · exact hitems

theorem Owning.dropOwner (h : s.Owning) {gone : Gone} (hi : s.Inv gone 0) (hm : s.Made)
    {index : Nat} {owner : Owned} (hget : s.detached[index]? = some owner) :
    ({ s with detached := s.detached.eraseIdx index }.drop owner).Owning := by
  refine h.transfer hi hm (fun _ => rfl) rfl (.same rfl rfl) rfl ?_ ?_ ?_
  · intro items hitems
    cases hitems with
    | owner other hmem => exact Or.inl (.owner other hmem)
    | run o observer other hslot ho => exact Or.inl (.run o observer other hslot ho)
    | detached other hmem => exact Or.inl (.detached other (List.mem_of_mem_eraseIdx hmem))
    | dropping _ hmem =>
        rcases List.mem_cons.mp hmem with hmem | hmem
        · cases hmem
          exact Or.inl (.detached owner (List.mem_of_getElem? hget))
        · exact Or.inl (.dropping items hmem)
  · intro e out hf
    rcases List.mem_cons.mp hf with hf | hf
    · cases hf
    · exact hf
  · exact fun items hitems => List.mem_cons_of_mem _ hitems

theorem Owning.start (h : s.Owning) {gone : Gone} (hi : s.Inv gone 0) (hm : s.Made) {slot : Nat}
    {output : Option Signal} (hs : s.stack = .starting slot output :: stack) :
    { s with
      core := { s.core with owners := .empty :: s.core.owners, reads := .empty :: s.core.reads }
      stack := .evaluating ⟨slot, s.core.observers.generations slot⟩ output [] :: stack }.Owning := by
  refine h.transfer hi hm (fun _ => rfl) rfl (.same rfl rfl) rfl ?_ ?_ ?_
  · intro items hitems
    cases hitems with
    | owner owner hmem =>
        rcases List.mem_cons.mp hmem with rfl | hmem
        · exact Or.inr rfl
        · exact Or.inl (.owner owner hmem)
    | run o observer owner hslot ho => exact Or.inl (.run o observer owner hslot ho)
    | detached owner hmem => exact Or.inl (.detached owner hmem)
    | dropping _ hmem =>
        rcases List.mem_cons.mp hmem with hmem | hmem
        · cases hmem
        · exact Or.inl (.dropping items (by rw [hs]; exact List.mem_cons_of_mem _ hmem))
  · intro e out hf
    rcases List.mem_cons.mp hf with hf | hf
    · cases hf
    · rw [hs]
      exact List.mem_cons_of_mem _ hf
  · intro items hitems
    rw [hs] at hitems
    rcases List.mem_cons.mp hitems with hitems | hitems
    · cases hitems
    · exact List.mem_cons_of_mem _ hitems

/-- What `Capture::drop` leaves of the reactions. -/
theorem slots_capture (c : Core V) (e : Effect) (latest : Option (Run V)) {o : Nat}
    {observer : Observer V} (h : (c.capture e latest).observers.slots o = some observer) :
    ∃ old, c.observers.slots o = some old ∧ old.runOwner = observer.runOwner := by
  unfold Core.capture Core.follow at h
  split at h
  · exact ⟨observer, h, rfl⟩
  · split at h
    · exact ⟨observer, h, rfl⟩
    · rename_i old hfind
      by_cases he : o = e.slot
      · subst he
        simp only [Arena.set, Function.update_self, Option.some.injEq] at h
        exact ⟨old, (Arena.find?_some hfind).2, by rw [← h]⟩
      · simp only [Arena.set, Function.update_of_ne he] at h
        exact ⟨observer, h, rfl⟩

theorem owners_capture (c : Core V) (e : Effect) (latest : Option (Run V)) :
    (c.capture e latest).owners = c.owners := by
  unfold Core.capture Core.follow
  split
  · rfl
  · split <;> rfl

/-- The owner of a run goes to its observer, or is dropped. -/
theorem Owning.leave (h : s.Owning) {gone : Gone} (hi : s.Inv gone 0) (hm : s.Made) {e : Effect}
    {reads : List (Read V)} {result : Option V} (hs : s.stack = .leaving e reads result :: stack)
    (latest : Option (Run V)) :
    (({ s with stack := stack }.leave e latest).2.settle e
      ({ s with stack := stack }.leave e latest).1).Owning := by
  have hsub : ∀ g ∈ stack, g ∈ s.stack := fun g hg => by rw [hs]; exact List.mem_cons_of_mem _ hg
  have hback : ∀ items, Frame.dropping items ∈ s.stack → Frame.dropping items ∈ stack := by
    intro items hitems
    rw [hs] at hitems
    rcases List.mem_cons.mp hitems with hitems | hitems
    · cases hitems
    · exact hitems
  have hpop : (s.core.capture e latest).popOwner.1 = s.core.popOwner.1 := by
    simp only [Core.popOwner, owners_capture]
  have hheld := s.holds_popOwner
  rw [← hpop] at hheld
  have howner : ∀ owner, owner ∈ (s.core.capture e latest).popOwner.2.owners →
      s.Holds owner.items := by
    intro owner hmem
    refine .owner owner (List.mem_of_mem_tail ?_)
    simpa [Core.popOwner, owners_capture] using hmem
  have hrun : ∀ o observer owner, (s.core.capture e latest).observers.slots o = some observer →
      observer.runOwner = some owner → s.Holds owner.items := by
    intro o observer owner hslot ho
    obtain ⟨old, hold, heq⟩ := slots_capture _ _ _ hslot
    exact .run o old owner hold (heq.trans ho)
  have hk := s.core.keeps_capture e latest
  have hkeeps : ∀ d : Core V, d.values = (s.core.capture e latest).values →
      (s.core.capture e latest).Keeps d → s.core.Keeps d := fun d _ hd => hk.trans hd
  unfold State.settle
  split
  · refine h.transfer hi hm (s.core.role_capture e latest) (s.core.generations_capture e latest)
      (hk.trans (.same rfl rfl)) rfl ?_ ?_ ?_
    · intro items hitems
      cases hitems with
      | owner owner hmem => exact Or.inl (howner owner hmem)
      | run o observer owner hslot ho => exact Or.inl (hrun o observer owner hslot ho)
      | detached owner hmem => exact Or.inl (.detached owner hmem)
      | dropping _ hmem =>
          rcases List.mem_cons.mp hmem with hmem | hmem
          · cases hmem
            exact hheld
          · exact Or.inl (.dropping items (hsub _ hmem))
    · intro e' out hf
      rcases List.mem_cons.mp hf with hf | hf
      · cases hf
      · exact hsub _ hf
    · exact fun items hitems => List.mem_cons_of_mem _ (hback items hitems)
  · rename_i observer hfind
    have hslot : (s.core.capture e latest).observers.slots e.slot = some observer :=
      (Arena.find?_some hfind).2
    have hset := Core.keeps_setObserver hslot
      { observer with runOwner := some (s.core.capture e latest).popOwner.1 }
    refine h.transfer hi hm (fun o => ?_) (s.core.generations_capture e latest)
      (hk.trans ⟨hset.values, hset.observers⟩) rfl ?_ (fun e' out hf => hsub _ hf) hback
    · exact (roleIn_set hslot { observer with
        runOwner := some (s.core.capture e latest).popOwner.1 } rfl rfl o).trans
        (s.core.role_capture e latest o)
    · intro items hitems
      cases hitems with
      | owner owner hmem => exact Or.inl (howner owner hmem)
      | run o other owner ho hrunOwner =>
          have ho' : ((s.core.capture e latest).observers.set e.slot { observer with
            runOwner := some (s.core.capture e latest).popOwner.1 }).slots o = some other := ho
          by_cases he : o = e.slot
          · subst he
            simp only [Arena.set, Function.update_self, Option.some.injEq] at ho'
            rw [← ho'] at hrunOwner
            cases hrunOwner
            exact hheld
          · simp only [Arena.set, Function.update_of_ne he] at ho'
            exact Or.inl (hrun o other owner ho' hrunOwner)
      | detached owner hmem => exact Or.inl (.detached owner hmem)
      | dropping _ hmem => exact Or.inl (.dropping items (hsub _ hmem))

/-- The handle of a derived value is given out. -/
theorem Owning.install (h : s.Owning) {e : Effect} {output : Option Signal} (hs : s.stack = .installing e output :: stack) :
    ({ s with stack := stack }.issue e output).Owning := by
  have hsub : ∀ g ∈ stack, g ∈ s.stack := fun g hg => by rw [hs]; exact List.mem_cons_of_mem _ hg
  have hcore : ({ s with stack := stack }.issue e output).core = s.core := (issue_core _ e output).1
  have hstack : ({ s with stack := stack }.issue e output).stack = stack := (issue_core _ e output).2
  have hholds : ∀ items, ({ s with stack := stack }.issue e output).Holds items →
      s.Holds items := by
    intro items hitems
    cases hitems with
    | owner owner hmem => exact .owner owner (hcore ▸ hmem)
    | run o observer owner hslot ho => exact .run o observer owner (hcore ▸ hslot) ho
    | detached owner hmem =>
        cases output <;> exact .detached owner hmem
    | dropping _ hmem => exact .dropping items (hsub _ (hstack ▸ hmem))
  constructor
  · intro items hitems
    rw [hcore]
    exact h.paired items (hholds items hitems)
  · intro out ho hlive
    have ho' : out ∈ s.deriveds ∨ ∃ e', Frame.installing e' (some out) ∈ s.stack := by
      rcases ho with ho | ⟨e', ho⟩
      · cases output with
        | none => exact Or.inl ho
        | some output =>
            rcases Finset.mem_insert.mp ho with rfl | ho
            · exact Or.inr ⟨e, by rw [hs]; exact List.mem_cons_self⟩
            · exact Or.inl ho
      · exact Or.inr ⟨e', hsub _ (hstack ▸ ho)⟩
    rw [hcore] at hlive
    rcases h.alive out ho' hlive with ⟨o, k, hrole⟩ | ⟨items, hitems, hslot⟩
    · exact Or.inl ⟨o, k, by rw [hcore]; exact hrole⟩
    · refine Or.inr ⟨items, ?_, hslot⟩
      rw [hstack]
      rw [hs] at hitems
      rcases List.mem_cons.mp hitems with hitems | hitems
      · cases hitems
      · exact hitems

/-! ### Every calm run -/

/-- The output of `derived` has the owner of its reaction. -/
theorem head_allocate (c : Core V) (value : Option V) :
    ∀ owner ∈ (c.allocate value).2.owners.head?, (c.allocate value).1.slot ∈ owner.values := by
  intro owner hm
  have hm' : owner ∈ (c.owners.modifyHead fun owner =>
    { owner with values := owner.values ++ [(c.allocate value).1.slot] }).head? := hm
  cases howners : c.owners with
  | nil => simp [howners] at hm'
  | cons top owners =>
      rw [howners, List.modifyHead_cons, List.head?_cons, Option.mem_def, Option.some.injEq] at hm'
      rw [← hm']
      simp

theorem Owning.of_move [BEq V] {gone : Gone} (hi : s.Inv gone 0) (hm : s.Made) (hsh : s.Shaped)
    (h : s.Owning) {w : Bool} (hmove : Move s w t) : t.Owning := by
  cases hmove with
  | idle => exact h
  | signal value =>
      have hcore := h.signal hi hm (some value)
      exact ⟨fun items hitems => hcore.paired items (by
        cases hitems with
        | owner owner hmem => exact .owner owner hmem
        | run o observer owner hs ho => exact .run o observer owner hs ho
        | detached owner hmem => exact .detached owner hmem
        | dropping _ hmem => exact .dropping items hmem), hcore.alive⟩
  | derived =>
      have hi' := hi.allocate none
      have hm' : { s with core := (s.core.allocate none).2 }.Made :=
        hm.core (.same rfl fun _ hr => hr.insert _)
      have hfresh := hi.fresh_allocate hm
      have hregister : (State.register { s with core := (s.core.allocate none).2 } .derived
          (some (s.core.allocate none).1)).Owning := by
        refine (h.signal hi hm none).register hi' ?_
        rintro out ⟨rfl⟩
        exact head_allocate s.core none
      refine hregister.evaluate (hi'.register .derived ?_) (hm'.register hi' (by simp) ?_) _
      · rintro out ⟨rfl⟩
        exact hi.known_allocate none
      · rintro out ⟨rfl⟩
        exact hfresh
  | effect =>
      have hregister : (s.register .effect none).Owning := h.register hi (by simp)
      exact hregister.evaluate (hi.register .effect (by simp)) (hm.register hi (by simp) (by simp)) _
  | read r => exact h.quiet hi hm (quiet_read s r)
  | write r value cell stack hu hfind hs =>
      have hpop : s.Quiet { s with stack := stack } := by
        rcases hs with ⟨rfl, -⟩ | hs
        · exact ⟨rfl, rfl, rfl, rfl, .same rfl rfl, fun _ _ => Iff.rfl⟩
        · exact .pop hs rfl
      exact h.quiet hi hm ((hpop.trans (quiet_write _ _ _)).trans (quiet_changed _ _))
  | late r stack hu hfind hs =>
      exact h.quiet hi hm ((Quiet.pop hs rfl).trans (quiet_changed _ _))
  | beginUpdate r cell hu hfind hr =>
      exact h.quiet hi hm ((Quiet.push (f := .update r) rfl).trans
        (.core rfl rfl (Core.keeps_setCell hfind _)))
  | beginBatch =>
      exact h.quiet hi hm ((Quiet.push (f := .batch) rfl).trans (.core rfl rfl (.same rfl rfl)))
  | endBatch stack hu hs =>
      refine h.quiet hi hm (Quiet.trans ?_ (quiet_flush _))
      exact (Quiet.pop hs rfl).trans (.core rfl rfl (.same rfl rfl))
  | beginOwned => exact h.beginOwned hi hm
  | endOwned stack hu hs => exact h.endOwned hi hm hs
  | dropOwner index owner hu hget => exact h.dropOwner hi hm hget
  | dispose e hu he hg => exact h.dispose hi hm he hg
  | flush => exact h.quiet hi hm (quiet_flush s)
  | finishEffect e reads stack hs =>
      exact h.quiet hi hm ((Quiet.pop hs rfl).trans (.push rfl))
  | finishDerived e output reads next stack hs =>
      have hleave : s.Quiet { s with stack := .leaving e reads (some next) :: stack } :=
        (Quiet.pop hs rfl).trans (.push rfl)
      exact h.quiet hi hm (hleave.trans (quiet_publish _ _ _))
  | beginCatch => exact h.quiet hi hm (.push rfl)
  | endCatch stack hu hs => exact h.quiet hi hm (.pop hs rfl)
  | dropNil stack hs => exact h.dropNil hi hm hs
  | dropEffect e items stack hs hg => exact h.dropEffect hi hm hsh hs hg
  | dropStale e items stack hs => exact h.dropStale hi hm hsh hs
  | dropValue slot items stack hs => exact h.dropValue hi hm hsh hs
  | start slot output stack hs => exact h.start hi hm hs
  | leave e reads result stack hs => exact h.leave hi hm hs _
  | install e output stack hu hs =>
      have hissue := h.install hs
      have hk := hi.frames_known _ (by rw [hs]; exact List.mem_cons_self)
      have hmade := hm.frames _ (by rw [hs]; exact List.mem_cons_self)
      have hi' := (hi.popFree hs rfl).issue hk
      have hm' := (hm.pop hs).issue hmade
      refine hissue.quiet hi' hm' (Quiet.trans ?_ (quiet_flush _))
      exact .core rfl rfl (.same rfl rfl)
  | rest turns stack hs =>
      exact h.quiet hi hm ((Quiet.pop hs rfl).trans (.core rfl rfl (.same rfl rfl)))
  | turn turns slot stack hs =>
      have hi' : State.Inv { s with
          core := { s.core with dirty := s.core.dirty.erase slot }
          stack := .flushing (turns ++ [s.pick slot]) :: stack } gone 0 := by
        have hpop := hi.popFree hs rfl
        have hdirty : { s with
            core := { s.core with dirty := s.core.dirty.erase slot }, stack := stack }.Inv gone 0 :=
          hpop.aside rfl rfl rfl rfl (Finset.erase_subset _ _) le_rfl
        exact hdirty.pushFree rfl trivial
      have hm' : State.Made { s with
          core := { s.core with dirty := s.core.dirty.erase slot }
          stack := .flushing (turns ++ [s.pick slot]) :: stack } :=
        ((hm.pop hs).push (f := .flushing (turns ++ [s.pick slot])) trivial).core
          (.same rfl fun _ hr => hr)
      have hq : s.Quiet { s with
          core := { s.core with dirty := s.core.dirty.erase slot }
          stack := .flushing (turns ++ [s.pick slot]) :: stack } :=
        ((Quiet.pop hs rfl).trans (.push rfl)).trans (.core rfl rfl (.same rfl rfl))
      exact (h.quiet hi hm hq).evaluate hi' hm' slot

end State

theorem CalmReachable.owning [BEq V] {s : State V} (h : CalmReachable s) : s.Owning :=
  h.induction State.Owning.initial fun _ _ hs howning _ hm =>
    State.Owning.of_move hs.reachable.inv hs.made hs.shaped howning hm

end Deka.Reactive
