/-
Deka/Reactive/Flush.lean

The order in which a flush runs the reactions.

A flush runs dirty derived values first, so an effect is run only when no derived value
is dirty.  If the program writes nothing from then on, nothing gets dirty again: a run
that ends has seen the revisions there are, and the first result of a new derived value
has no readers yet (`Core.Unread`).  So the effects are run once each.

`State.Steady` is what holds between two such steps.
-/
import Deka.Reactive.AtRest

namespace Deka.Reactive

open Deka.Lib

variable {V : Type}

/-! ### Cells without content -/

/-- Nobody reads a cell before its first content. -/
def Core.Unread (c : Core V) : Prop :=
  ∀ slot cell, c.values.slots slot = some cell → cell.content = none →
    c.subscribers slot = ∅ ∧ ∀ m ∈ c.reads, slot ∉ m.keys

theorem Core.Unread.core {c d : Core V} (h : c.Unread)
    (hv : ∀ slot new, d.values.slots slot = some new → new.content = none →
      ∃ old, c.values.slots slot = some old ∧ old.content = none)
    (hs : ∀ slot cell, c.values.slots slot = some cell → cell.content = none →
      c.subscribers slot = ∅ → d.subscribers slot = ∅)
    (hr : ∀ m' ∈ d.reads, m'.keys = ∅ ∨ ∃ m ∈ c.reads, m'.keys ⊆ m.keys) : d.Unread := by
  intro slot new hnew hnone
  obtain ⟨old, hold, hempty⟩ := hv slot new hnew hnone
  obtain ⟨hsub, hread⟩ := h slot old hold hempty
  refine ⟨hs slot old hold hempty hsub, fun m' hm' hkey => ?_⟩
  rcases hr m' hm' with hkeys | ⟨m, hm, hkeys⟩
  · rw [hkeys] at hkey
    cases hkey
  · exact hread m hm (hkeys hkey)

/-- Only other fields change. -/
theorem Core.Unread.same {c d : Core V} (h : c.Unread) (hv : d.values = c.values)
    (hs : d.subscribers = c.subscribers) (hr : d.reads = c.reads) : d.Unread := by
  unfold Core.Unread
  rw [hv, hs, hr]
  exact h

theorem Core.Unread.allocate {c : Core V} (h : c.Unread) (hl : c.Linked) (value : Option V) :
    (c.allocate value).2.Unread := by
  intro slot cell hslot hnone
  have hinsert : (c.values.insert ⟨value, false⟩).2.slots slot = some cell := hslot
  rw [Arena.insert_slots] at hinsert
  by_cases hnew : slot = (c.values.insert ⟨value, false⟩).1.slot
  · -- the slot was free, so nobody subscribes to it
    have hfree : c.values.slots slot = none := by
      rw [hnew]
      exact hl.values.insert_slot _
    refine ⟨?_, fun m hm hkey => hl.reads_live m hm slot hkey hfree⟩
    refine Finset.eq_empty_of_forall_notMem fun o ho => ?_
    exact hl.subscribers_live slot o ho hfree
  · rw [Function.update_of_ne hnew] at hinsert
    exact h slot cell hinsert hnone

theorem Core.Unread.setCell {c : Core V} (h : c.Unread) {r : Signal} {old new : Cell V}
    (hr : c.values.find? r = some old) (hn : old.content ≠ none → new.content ≠ none) :
    (c.setCell r new).Unread := by
  refine h.core (fun slot cell hslot hnone => ?_) (fun _ _ _ _ hs => hs)
    fun m hm => Or.inr ⟨m, hm, Finset.Subset.refl _⟩
  have hset : (c.values.set r.slot new).slots slot = some cell := hslot
  by_cases he : slot = r.slot
  · subst he
    have hself : some new = some cell := by simpa [Arena.set] using hset
    cases hself
    refine ⟨old, (Arena.find?_some hr).2, ?_⟩
    by_contra hsome
    exact hn hsome hnone
  · exact ⟨cell, by simpa [Arena.set, Function.update_of_ne he] using hset, hnone⟩

theorem Core.Unread.observeRead {c : Core V} (h : c.Unread) {r : Signal} {v : V}
    (hr : c.tryGet r = .ok v) : (c.observeRead r.slot).Unread := by
  intro slot cell hslot hnone
  have hslot' : c.values.slots slot = some cell := hslot
  obtain ⟨hsub, hread⟩ := h slot cell hslot' hnone
  have hlive := (Arena.find?_some (State.tryGet_ok hr)).2
  have hne : slot ≠ r.slot := by
    rintro rfl
    rw [hlive] at hslot'
    cases hslot'
    cases hnone
  refine ⟨hsub, fun m hm hkey => ?_⟩
  unfold Core.observeRead at hm
  cases hreads : c.reads with
  | nil =>
      rw [hreads] at hm
      cases hm
  | cons top reads =>
      simp only [hreads, List.modifyHead_cons] at hm
      rcases List.mem_cons.mp hm with rfl | hm
      · have htop := hread top (by rw [hreads]; exact List.mem_cons_self)
        unfold Reads.record at hkey
        split at hkey
        · exact htop hkey
        · exact htop ((Finset.mem_insert.mp hkey).resolve_left hne)
      · exact hread m (by rw [hreads]; exact List.mem_cons_of_mem _ hm) hkey

theorem Core.Unread.dispose {c : Core V} (h : c.Unread) (slot : Nat) :
    (c.disposeObserver slot).2.Unread := by
  unfold Core.disposeObserver
  split
  · exact h
  · refine h.core (fun slot cell hslot hnone => ⟨cell, hslot, hnone⟩) (fun slot cell _ _ hs => ?_)
      fun m hm => Or.inr ⟨m, hm, Finset.Subset.refl _⟩
    show (if _ then _ else _) = ∅
    split
    · rw [hs, Finset.erase_empty]
    · exact hs

theorem Core.Unread.release {c : Core V} (h : c.Unread) (slot : Nat) : (c.release slot).Unread := by
  refine h.core (fun slot' cell hslot hnone => ?_) (fun slot' cell _ _ hs => ?_) fun m' hm' => ?_
  · have herase : (c.values.erase slot).slots slot' = some cell := hslot
    by_cases he : slot' = slot
    · subst he
      simp [Arena.erase] at herase
    · exact ⟨cell, by simpa [Arena.erase, Function.update_of_ne he] using herase, hnone⟩
  · show Function.update c.subscribers slot ∅ slot' = ∅
    by_cases he : slot' = slot
    · rw [he, Function.update_self]
    · rw [Function.update_of_ne he]
      exact hs
  · obtain ⟨m, hm, rfl⟩ := List.mem_map.mp hm'
    exact Or.inr ⟨m, hm, Finset.erase_subset _ _⟩

theorem Core.Unread.capture {c : Core V} (h : c.Unread) (e : Effect) (latest : Option (Run V)) :
    (c.capture e latest).Unread := by
  unfold Core.capture
  split
  · exact h
  · rename_i m reads hreads
    have hpop : { c with reads := reads }.Unread :=
      h.core (fun slot cell hslot hnone => ⟨cell, hslot, hnone⟩) (fun _ _ _ _ hs => hs)
        fun m' hm' => Or.inr ⟨m', by rw [hreads]; exact List.mem_cons_of_mem _ hm', Finset.Subset.refl _⟩
    unfold Core.follow
    split
    · exact hpop
    · refine hpop.core (fun slot cell hslot hnone => ⟨cell, hslot, hnone⟩) (fun slot cell hslot hnone hs => ?_)
        fun m' hm' => Or.inr ⟨m', hm', Finset.Subset.refl _⟩
      have hkeys : slot ∉ m.keys :=
        (h slot cell hslot hnone).2 m (by rw [hreads]; exact List.mem_cons_self)
      have hs' : c.subscribers slot = ∅ := hs
      show (if _ then _ else if slot ∈ m.keys \ _ then _ else _) = ∅
      rw [hs']
      split
      · exact Finset.erase_empty _
      · rw [if_neg fun hmem => hkeys (Finset.mem_sdiff.mp hmem).1]

namespace State

variable {s t : State V} {stack : List (Frame V)} {f : Frame V}

theorem unread_flush (h : s.core.Unread) : s.flush.core.Unread := by
  unfold State.flush
  split
  · exact h
  · exact h.same rfl rfl rfl

theorem unread_changed (h : s.core.Unread) (slot : Nat) : (s.changed slot).core.Unread := by
  have hcore : (s.core.changed slot).Unread := h.same rfl rfl rfl
  unfold State.changed
  split
  · exact hcore
  · exact unread_flush (s := { s with core := s.core.changed slot }) hcore

theorem unread_write (h : s.core.Unread) (r : Signal) (value : V) :
    (s.write r (some value)).core.Unread := by
  unfold State.write
  split
  · exact h
  · rename_i cell hfind
    exact h.setCell hfind (by simp)

theorem unread_evaluate (h : s.core.Unread) (slot : Nat) : (s.evaluate slot).core.Unread := by
  unfold State.evaluate
  split
  · exact h
  · exact h.same rfl rfl rfl

theorem unread_observe (h : s.core.Unread) (kind : Kind) (output : Option Signal) :
    (s.observe kind output).core.Unread :=
  unread_evaluate (s := s.register kind output) (h.same rfl rfl rfl) _

theorem unread_settle (h : s.core.Unread) (e : Effect) (owner : Owned) :
    (s.settle e owner).core.Unread := by
  unfold State.settle
  split
  · exact h
  · exact h.same rfl rfl rfl

theorem unread_of_move [BEq V] (hl : s.core.Linked) (h : s.core.Unread) {w : Bool}
    (hm : Move s w t) : t.core.Unread := by
  cases hm with
  | idle => exact h
  | signal value => exact h.allocate hl (some value)
  | derived =>
      exact unread_observe (s := { s with core := (s.core.allocate none).2 }) (h.allocate hl none) _ _
  | effect => exact unread_observe h _ _
  | read r =>
      unfold State.read
      split
      · exact h
      · rename_i v hget
        exact h.observeRead hget
  | write r value cell stack =>
      exact unread_changed (unread_write (s := { s with stack := stack }) h r value) _
  | late r stack => exact unread_changed (s := { s with stack := stack }) h _
  | beginUpdate r cell hu hfind => exact h.setCell hfind id
  | beginBatch => exact h.same rfl rfl rfl
  | endBatch stack =>
      refine unread_flush ?_
      exact h.same rfl rfl rfl
  | beginOwned => exact h.same rfl rfl rfl
  | endOwned => exact h.same rfl rfl rfl
  | dropOwner => exact h
  | dispose e => exact h.dispose e.slot
  | flush => exact unread_flush h
  | finishEffect => exact h
  | finishDerived e output reads next stack =>
      unfold State.publish
      split
      · exact h
      · split
        · exact h
        · refine unread_changed (unread_write ?_ output next) _
          exact h
  | beginCatch => exact h
  | endCatch => exact h
  | dropNil => exact h
  | dropEffect e => exact h.dispose e.slot
  | dropStale => exact h
  | dropValue slot => exact h.release slot
  | start slot output stack =>
      refine h.core (fun slot cell hslot hnone => ⟨cell, hslot, hnone⟩) (fun _ _ _ _ hs => hs)
        fun m hm => ?_
      rcases List.mem_cons.mp hm with rfl | hm
      · exact Or.inl rfl
      · exact Or.inr ⟨m, hm, Finset.Subset.refl _⟩
  | leave e reads result stack =>
      refine unread_settle ?_ _ _
      exact (h.capture e (some ⟨reads, result, s.writes⟩)).same rfl rfl rfl
  | install e output stack =>
      refine unread_flush ?_
      cases output with
      | none => exact h.same rfl rfl rfl
      | some out => exact h.same rfl rfl rfl
  | rest => exact h.same rfl rfl rfl
  | turn turns slot stack =>
      refine unread_evaluate ?_ slot
      exact h.same rfl rfl rfl

/-! ### The flush under way -/

end State

def Frame.turns? : Frame V → Option (List (Effect × Kind))
  | .flushing turns => some turns
  | _ => none

/-- The reactions the flush has run so far, none if there is no flush. -/
def turnsOf (stack : List (Frame V)) : List (Effect × Kind) :=
  (stack.findSome? Frame.turns?).getD []

/-- The flush has begun to run effects. -/
def State.InEffects (s : State V) : Prop := ∃ e, (e, Kind.effect) ∈ turnsOf s.stack

/-- The signal a run under way will publish. -/
def Frame.pending : Frame V → Option Signal
  | .starting _ output | .evaluating _ output _ => output
  | _ => none

def pendings (stack : List (Frame V)) : List Signal := stack.filterMap Frame.pending

/-- No signal has moved since a run under way has read it. -/
def Core.Unmoved (c : Core V) : Prop :=
  ∀ m ∈ c.reads, ∀ slot ∈ m.keys, m.revision slot = c.revisions slot

/-- A flush that runs effects, as long as nothing is written. -/
structure State.Steady (s : State V) : Prop where
  clean : ∀ o ∈ s.core.dirty, s.core.isDerived o = false
  once : ∀ e, (e, Kind.effect) ∈ turnsOf s.stack →
    s.core.observers.generations e.slot = e.generation → e.slot ∉ s.core.dirty
  unmoved : s.core.Unmoved
  first : ∀ out ∈ pendings s.stack, ∀ cell, s.core.values.find? out = some cell →
    cell.content = none
  distinct : (pendings s.stack).Nodup

structure State.Turned (s : State V) : Prop where
  known : ∀ p ∈ turnsOf s.stack, s.core.observers.Known p.1
  nodup : ((turnsOf s.stack).filter fun p => p.2 = .effect).Nodup
  steady : s.InEffects → s.Steady

/-- A move after which nothing is dirty that was not before. -/
structure State.Unstirred (s t : State V) : Prop where
  turns : turnsOf t.stack = turnsOf s.stack
  dirty : t.core.dirty ⊆ s.core.dirty
  derived : ∀ o ∈ t.core.dirty, t.core.isDerived o = s.core.isDerived o
  known : ∀ e, s.core.observers.Known e → t.core.observers.Known e
  generations : ∀ e, s.core.observers.Known e →
    t.core.observers.generations e.slot = e.generation →
    s.core.observers.generations e.slot = e.generation
  unmoved : s.core.Unmoved → t.core.Unmoved
  values : ∀ r, s.core.values.Known r → t.core.values.Known r
  empty : ∀ r cell', s.core.values.Known r → t.core.values.find? r = some cell' →
    ∃ cell, s.core.values.find? r = some cell ∧ (cell.content = none → cell'.content = none)

namespace State

variable {s t : State V} {stack : List (Frame V)} {f : Frame V}

theorem Unstirred.trans {u : State V} (h : s.Unstirred t) (h' : t.Unstirred u) : s.Unstirred u where
  turns := h'.turns.trans h.turns
  dirty := h'.dirty.trans h.dirty
  derived := fun o ho => (h'.derived o ho).trans (h.derived o (h'.dirty ho))
  known := fun e he => h'.known e (h.known e he)
  generations := fun e he hg => h.generations e he (h'.generations e (h.known e he) hg)
  unmoved := fun hu => h'.unmoved (h.unmoved hu)
  values := fun r hr => h'.values r (h.values r hr)
  empty := by
    intro r cell'' hr hcell''
    obtain ⟨cell', hcell', hempty'⟩ := h'.empty r cell'' (h.values r hr) hcell''
    obtain ⟨cell, hcell, hempty⟩ := h.empty r cell' hr hcell'
    exact ⟨cell, hcell, fun hnone => hempty' (hempty hnone)⟩

theorem Steady.unstirred (hs : s.Steady) (hk : ∀ p ∈ turnsOf s.stack, s.core.observers.Known p.1)
    (ht : s.Unstirred t) (hfirst : ∀ out ∈ pendings t.stack, ∀ cell,
      t.core.values.find? out = some cell → cell.content = none)
    (hdistinct : (pendings t.stack).Nodup) : t.Steady where
  clean := by
    intro o ho
    rw [ht.derived o ho]
    exact hs.clean o (ht.dirty ho)
  once := by
    intro e hmem hg hd
    rw [ht.turns] at hmem
    exact hs.once e hmem (ht.generations e (hk _ hmem) hg) (ht.dirty hd)
  unmoved := ht.unmoved hs.unmoved
  first := hfirst
  distinct := hdistinct

theorem Turned.move (h : s.Turned) (hturns : turnsOf t.stack = turnsOf s.stack)
    (hk : ∀ e, s.core.observers.Known e → t.core.observers.Known e)
    (hsteady : s.InEffects → s.Steady → t.Steady) : t.Turned where
  known := by
    rw [hturns]
    exact fun p hp => hk _ (h.known p hp)
  nodup := by
    rw [hturns]
    exact h.nodup
  steady := by
    intro he
    unfold State.InEffects at he
    rw [hturns] at he
    exact hsteady he (h.steady he)

/-- What runs were to publish is known. -/
theorem Made.pending_known (hm : s.Made) {out : Signal} (hout : out ∈ pendings s.stack) :
    s.core.values.Known out := by
  obtain ⟨f, hf, hpend⟩ := List.mem_filterMap.mp hout
  have hmade := hm.frames f hf
  cases f with
  | starting slot output => exact (hmade out hpend).known
  | evaluating e output reads => exact (hmade out hpend).known
  | _ => cases hpend

theorem Steady.still (hs : s.Steady) (hm : s.Made)
    (hk : ∀ p ∈ turnsOf s.stack, s.core.observers.Known p.1) (ht : s.Unstirred t)
    (hp : (pendings t.stack).Sublist (pendings s.stack)) : t.Steady := by
  refine hs.unstirred hk ht (fun out hout cell' hcell' => ?_) (hs.distinct.sublist hp)
  have hmem := hp.subset hout
  obtain ⟨cell, hcell, hempty⟩ := ht.empty out cell' (hm.pending_known hmem) hcell'
  exact hempty (hs.first out hmem cell hcell)

/-- Nothing gets dirty in a flush that runs effects. -/
theorem Turned.still (h : s.Turned) (hm : s.Made) (ht : s.Unstirred t)
    (hp : (pendings t.stack).Sublist (pendings s.stack)) : t.Turned :=
  h.move ht.turns ht.known fun _ hs => hs.still hm h.known ht hp

theorem Unstirred.frames (hturns : turnsOf stack = turnsOf s.stack) :
    s.Unstirred { s with stack := stack } :=
  ⟨hturns, Finset.Subset.refl _, fun _ _ => rfl, fun _ he => he, fun _ _ hg => hg, id, fun _ hr => hr,
    fun _ cell _ hfind => ⟨cell, hfind, id⟩⟩

theorem unstirred_refl (s : State V) : s.Unstirred s := .frames rfl

theorem Unstirred.push (hf : f.turns? = none) : s.Unstirred { s with stack := f :: s.stack } :=
  .frames (by simp [turnsOf, hf])

theorem turnsOf_pop (hs : s.stack = f :: stack) (hf : f.turns? = none) :
    turnsOf stack = turnsOf s.stack := by
  simp [turnsOf, hs, hf]

theorem Unstirred.pop (hs : s.stack = f :: stack) (hf : f.turns? = none) :
    s.Unstirred { s with stack := stack } :=
  .frames (turnsOf_pop hs hf)

/-- The values and the reads stay, and the observers with the dirty ones. -/
theorem Unstirred.core {d : Core V} (hv : d.values = s.core.values) (ho : d.observers = s.core.observers)
    (hr : d.reads = s.core.reads) (hrev : d.revisions = s.core.revisions)
    (hd : d.dirty ⊆ s.core.dirty) : s.Unstirred { s with core := d } where
  turns := rfl
  dirty := hd
  derived := by
    intro o _
    show d.isDerived o = s.core.isDerived o
    unfold Core.isDerived
    rw [ho]
  known := by
    intro e he
    show d.observers.Known e
    rw [ho]
    exact he
  generations := by
    intro e _ hg
    rw [← ho]
    exact hg
  unmoved := by
    intro hu
    show d.Unmoved
    unfold Core.Unmoved
    rw [hr, hrev]
    exact hu
  values := by
    intro r hk
    show d.values.Known r
    rw [hv]
    exact hk
  empty := by
    intro r cell _ hfind
    have hfind' : d.values.find? r = some cell := hfind
    rw [hv] at hfind'
    exact ⟨cell, hfind', id⟩

theorem Unstirred.congr {u : State V} (h : s.Unstirred t) (hc : u.core = t.core)
    (hs : u.stack = t.stack) : s.Unstirred u :=
  ⟨by rw [hs]; exact h.turns, by rw [hc]; exact h.dirty, by rw [hc]; exact h.derived,
    by rw [hc]; exact h.known, by rw [hc]; exact h.generations, by rw [hc]; exact h.unmoved,
    by rw [hc]; exact h.values, by rw [hc]; exact h.empty⟩

/-- Without a flush there are no turns. -/
theorem Shaped.turnsOf_nil (h : s.Shaped) (hf : s.core.flushing = false) : turnsOf s.stack = [] := by
  have hnone : s.stack.findSome? Frame.turns? = none := by
    refine List.findSome?_eq_none_iff.mpr fun f hmem => ?_
    cases f with
    | flushing turns =>
        have htrue := h.flushing.mpr ⟨_, hmem, rfl⟩
        rw [hf] at htrue
        cases htrue
    | _ => rfl
  simp [turnsOf, hnone]

theorem unstirred_flush (h : s.core.flushing = false → turnsOf s.stack = []) : s.Unstirred s.flush := by
  unfold State.flush
  split
  · exact unstirred_refl s
  · rename_i hskip
    have hf : s.core.flushing = false := by simpa using (not_or.mp hskip).2
    have hpush : s.Unstirred { s with stack := .flushing [] :: s.stack } := .frames (by rw [h hf]; rfl)
    exact hpush.trans (.core rfl rfl rfl rfl (Finset.Subset.refl _))

theorem pendings_pop (hs : s.stack = f :: stack) : (pendings stack).Sublist (pendings s.stack) := by
  rw [hs]
  exact (List.sublist_cons_self f stack).filterMap _

theorem pendings_swap {g : Frame V} (hs : s.stack = f :: stack) (hg : g.pending = none) :
    (pendings (g :: stack)).Sublist (pendings s.stack) := by
  unfold pendings
  rw [List.filterMap_cons_none hg]
  exact pendings_pop hs

theorem pendings_settle (s : State V) (e : Effect) (owner : Owned) :
    pendings (s.settle e owner).stack = pendings s.stack := by
  unfold State.settle
  split <;> rfl

theorem pendings_flush (s : State V) : pendings s.flush.stack = pendings s.stack := by
  unfold State.flush
  split <;> rfl

theorem isDerived_congr {c d : Core V} {o : Nat} (h : d.role o = c.role o) :
    d.isDerived o = c.isDerived o := by
  unfold Core.role roleIn at h
  unfold Core.isDerived
  cases hc : c.observers.slots o with
  | none =>
      rw [hc] at h
      rw [Option.map_eq_none_iff.mp h]
  | some observer =>
      rw [hc] at h
      obtain ⟨new, hnew, heq⟩ := Option.map_eq_some_iff.mp h
      rw [hnew]
      have hkind : new.kind = observer.kind := congrArg Prod.snd heq
      simp [hkind]

theorem unstirred_dispose (s : State V) (slot : Nat) :
    s.Unstirred { s with core := (s.core.disposeObserver slot).2 } := by
  unfold Core.disposeObserver
  split
  · exact unstirred_refl s
  · refine ⟨rfl, Finset.erase_subset _ _, fun o ho => ?_, fun _ he => he, fun _ _ hg => hg, id,
      fun _ hr => hr, fun _ cell _ hfind => ⟨cell, hfind, id⟩⟩
    have hne : o ≠ slot := (Finset.mem_erase.mp ho).1
    refine isDerived_congr ?_
    simp [Core.role, roleIn, Arena.erase, Function.update_of_ne hne]

/-- The tables of the observers change in one slot, and not in kind. -/
theorem Unstirred.setObserver {slot : Nat} {old new : Observer V}
    (hslot : s.core.observers.slots slot = some old) (hk : new.kind = old.kind)
    (ho : new.output = old.output) :
    s.Unstirred { s with core := { s.core with observers := s.core.observers.set slot new } } where
  turns := rfl
  dirty := Finset.Subset.refl _
  derived := fun o _ => isDerived_congr (roleIn_set hslot new ho hk o)
  known := fun _ he => he
  generations := fun _ _ hg => hg
  unmoved := id
  values := fun _ hr => hr
  empty := fun _ cell _ hfind => ⟨cell, hfind, id⟩

theorem unstirred_borrow {r : Signal} {cell : Cell V} (hr : s.core.values.find? r = some cell) :
    s.Unstirred { s with core := s.core.setCell r { cell with borrowed := true } } where
  turns := rfl
  dirty := Finset.Subset.refl _
  derived := fun _ _ => rfl
  known := fun _ he => he
  generations := fun _ _ hg => hg
  unmoved := id
  values := fun _ hk => hk
  empty := by
    intro r' cell' hk hfind
    obtain ⟨old, hold, hcontent⟩ := (still_borrow hr).cell r' cell' hk hfind
    exact ⟨old, hold, fun hnone => hcontent.trans hnone⟩

theorem unstirred_settle (s : State V) (e : Effect) (owner : Owned) : s.Unstirred (s.settle e owner) := by
  unfold State.settle
  split
  · exact .push rfl
  · rename_i observer hfind
    exact .setObserver (Arena.find?_some hfind).2 rfl rfl

theorem unstirred_evaluate (s : State V) (slot : Nat) : s.Unstirred (s.evaluate slot) := by
  unfold State.evaluate
  split
  · exact unstirred_refl s
  · rename_i observer hslot
    have hstart : s.Unstirred { s with stack := .starting slot observer.output :: s.stack } := .push rfl
    have hdrop := hstart.trans (.push (f := .dropping (observer.runOwner.getD .empty).items) rfl)
    exact hdrop.trans (.setObserver hslot rfl rfl)

/-- A new observer is not dirty. -/
theorem unstirred_register {gone : Gone} (hi : s.Inv gone 0) (kind : Kind) (output : Option Signal) :
    s.Unstirred (s.register kind output) where
  turns := rfl
  dirty := Finset.Subset.refl _
  derived := by
    intro o ho
    have hne : o ≠ (s.core.register kind output).1.slot := by
      rintro rfl
      exact hi.linked.dirty _ ho (hi.linked.observers.insert_slot _)
    refine isDerived_congr ?_
    show (s.core.register kind output).2.role o = s.core.role o
    rw [role_register, if_neg hne]
  known := fun e he => he.insert _
  generations := by
    intro e he hg
    have hne : e.slot ≠ (s.core.register kind output).1.slot := register_ne he hg
    rw [← generations_register s.core kind output hne]
    exact hg
  unmoved := id
  values := fun _ hr => hr
  empty := fun _ cell _ hfind => ⟨cell, hfind, id⟩

theorem unstirred_observe {gone : Gone} (hi : s.Inv gone 0) (kind : Kind) (output : Option Signal) :
    s.Unstirred (s.observe kind output) :=
  (unstirred_register hi kind output).trans (unstirred_evaluate _ _)

theorem unstirred_allocate {gone : Gone} (hi : s.Inv gone 0) (value : Option V) :
    s.Unstirred { s with core := (s.core.allocate value).2 } where
  turns := rfl
  dirty := Finset.Subset.refl _
  derived := fun _ _ => rfl
  known := fun _ he => he
  generations := fun _ _ hg => hg
  unmoved := id
  values := fun _ hr => hr.insert _
  empty := by
    intro r cell hr hfind
    have hinsert : (s.core.values.insert ⟨value, false⟩).2.find? r = some cell := hfind
    rw [Arena.WellFormed.find?_insert hi.linked.values hr] at hinsert
    exact ⟨cell, hinsert, id⟩

/-- What is read is recorded at its revision. -/
theorem unmoved_observeRead {c : Core V} (h : c.Unmoved) (slot : Nat) : (c.observeRead slot).Unmoved := by
  intro m hm slot' hkey
  unfold Core.observeRead at hm
  cases hreads : c.reads with
  | nil =>
      rw [hreads] at hm
      cases hm
  | cons top reads =>
      simp only [hreads, List.modifyHead_cons] at hm
      rcases List.mem_cons.mp hm with rfl | hm
      · have htop := h top (by rw [hreads]; exact List.mem_cons_self)
        show (top.record slot (c.revisions slot)).revision slot' = c.revisions slot'
        unfold Reads.record at hkey ⊢
        split at hkey
        · rename_i hold
          rw [if_pos hold]
          exact htop slot' hkey
        · rename_i hnew
          rw [if_neg hnew]
          show Function.update top.revision slot (c.revisions slot) slot' = _
          by_cases he : slot' = slot
          · rw [he, Function.update_self]
          · rw [Function.update_of_ne he]
            exact htop slot' ((Finset.mem_insert.mp hkey).resolve_left he)
      · exact h m (by rw [hreads]; exact List.mem_cons_of_mem _ hm) slot' hkey

theorem turnsOf_logRead {entry : Read V} {stack : List (Frame V)} :
    turnsOf (logRead entry stack) = turnsOf stack := by
  have hfind : (logRead entry stack).findSome? Frame.turns? = stack.findSome? Frame.turns? := by
    induction stack with
    | nil => rfl
    | cons top stack ih =>
        cases top with
        | evaluating => rfl
        | leaving => rfl
        | flushing => rfl
        | _ => exact ih
  unfold turnsOf
  rw [hfind]

theorem pendings_logRead {entry : Read V} {stack : List (Frame V)} :
    pendings (logRead entry stack) = pendings stack := by
  induction stack with
  | nil => rfl
  | cons top stack ih =>
      cases top with
      | evaluating => rfl
      | leaving => rfl
      | starting slot output => simp only [logRead, pendings, List.filterMap_cons] at ih ⊢; rw [ih]
      | _ => exact ih

theorem unstirred_read (s : State V) (r : Signal) : s.Unstirred (s.read r) := by
  have hlog : s.Unstirred { s with stack := logRead ⟨r, s.core.tryGet r, s.writes r⟩ s.stack } :=
    .frames turnsOf_logRead
  unfold State.read
  split
  · exact hlog
  · exact ⟨hlog.turns, hlog.dirty, hlog.derived, hlog.known, hlog.generations,
      fun hu => unmoved_observeRead hu _, hlog.values, hlog.empty⟩

theorem unstirred_release (s : State V) (slot : Nat) :
    s.Unstirred { s with core := s.core.release slot } where
  turns := rfl
  dirty := Finset.Subset.refl _
  derived := fun o _ => isDerived_congr (s.core.role_release slot o)
  known := fun _ he => he
  generations := fun _ _ hg => hg
  unmoved := by
    intro hu m' hm' slot' hkey
    obtain ⟨m, hm, rfl⟩ := List.mem_map.mp hm'
    obtain ⟨hne, hkey⟩ := Finset.mem_erase.mp hkey
    show m.revision slot' = Function.update s.core.revisions slot 0 slot'
    rw [Function.update_of_ne hne]
    exact hu m hm slot' hkey
  values := fun _ hr => hr
  empty := fun _ cell _ hfind => ⟨cell, (find?_release.mp hfind).1, id⟩

theorem known_capture {c : Core V} (e : Effect) (latest : Option (Run V)) {e' : Effect}
    (he : c.observers.Known e') : (c.capture e latest).observers.Known e' := by
  unfold Core.capture Core.follow
  split
  · exact he
  · split <;> exact he

/-- A run that ends where nothing has moved is not dirty. -/
theorem unstirred_capture (hu : s.core.Unmoved) (e : Effect) (latest : Option (Run V)) :
    s.Unstirred { s with core := s.core.capture e latest } := by
  obtain ⟨hv, hrev, hreads, hgens⟩ := capture_same s.core e latest
  refine ⟨rfl, ?_, fun o _ => isDerived_congr (s.core.role_capture e latest o), ?_, ?_, ?_, ?_, ?_⟩
  · show (s.core.capture e latest).dirty ⊆ s.core.dirty
    unfold Core.capture Core.follow
    split
    · exact Finset.Subset.refl _
    · rename_i m reads hms
      split
      · exact Finset.Subset.refl _
      · have hsame : ¬ ∃ slot ∈ m.keys, s.core.revisions slot ≠ m.revision slot := by
          rintro ⟨slot, hkey, hne⟩
          exact hne (hu m (by rw [hms]; exact List.mem_cons_self) slot hkey).symm
        simp only [if_neg hsame]
        exact Finset.Subset.refl _
  · exact fun e' he' => known_capture e latest he'
  · intro e' _ hg
    rw [← hgens]
    exact hg
  · intro _ m hm slot hkey
    show m.revision slot = (s.core.capture e latest).revisions slot
    rw [hrev]
    have hm' : m ∈ (s.core.capture e latest).reads := hm
    rw [hreads] at hm'
    exact hu m (List.mem_of_mem_tail hm') slot hkey
  · intro r hr
    show (s.core.capture e latest).values.Known r
    rw [hv]
    exact hr
  · intro r cell _ hfind
    have hfind' : (s.core.capture e latest).values.find? r = some cell := hfind
    rw [hv] at hfind'
    exact ⟨cell, hfind', id⟩

theorem turnsOf_changed (h : s.core.flushing = false → turnsOf s.stack = []) (slot : Nat) :
    turnsOf (s.changed slot).stack = turnsOf s.stack := by
  unfold State.changed
  split
  · rfl
  · exact (unstirred_flush (s := { s with core := s.core.changed slot }) h).turns

@[simp] theorem write_flushing (s : State V) (r : Signal) (value : Option V) :
    (s.write r value).core.flushing = s.core.flushing := by
  unfold State.write
  split <;> rfl

/-- A new derived value is the only one to publish its output, and has no content. -/
theorem Turned.derived (h : s.Turned) {gone : Gone} (hi : s.Inv gone 0) (hm : s.Made) :
    s.derived.Turned := by
  have ht : s.Unstirred s.derived :=
    (unstirred_allocate hi none).trans (unstirred_observe (hi.allocate none) _ _)
  have hpend : pendings s.derived.stack = (s.core.allocate none).1 :: pendings s.stack := by
    unfold State.derived State.observe State.evaluate
    have hslot : (State.register { s with core := (s.core.allocate none).2 } .derived
        (some (s.core.allocate none).1)).core.observers.slots
        ((s.core.allocate none).2.register .derived (some (s.core.allocate none).1)).1.slot =
        some ⟨some (s.core.allocate none).1, ∅, .derived, none, none⟩ := by
      show ((s.core.allocate none).2.observers.insert _).2.slots
        ((s.core.allocate none).2.observers.insert _).1.slot = _
      rw [Arena.insert_slots]
      exact Function.update_self _ _ _
    rw [hslot]
    rfl
  have hvalues : s.derived.core.values = (s.core.values.insert ⟨none, false⟩).2 := by
    unfold State.derived State.observe State.evaluate
    split <;> rfl
  have hunknown : ¬ s.core.values.Known (s.core.allocate none).1 := Arena.insert_fresh _ _
  refine h.move ht.turns ht.known fun _ hs => hs.unstirred h.known ht ?_ ?_
  · intro out hout cell hcell
    rw [hpend] at hout
    rcases List.mem_cons.mp hout with rfl | hout
    · rw [hvalues] at hcell
      have hself := Arena.find?_insert_self s.core.values (⟨none, false⟩ : Cell V)
      have heq : (s.core.values.insert ⟨none, false⟩).1 = (s.core.allocate none).1 := rfl
      rw [heq, hcell] at hself
      cases hself
      rfl
    · obtain ⟨old, hold, hempty⟩ := ht.empty out cell (hm.pending_known hout) hcell
      exact hempty (hs.first out hout old hold)
  · rw [hpend]
    exact List.nodup_cons.mpr ⟨fun hmem => hunknown (hm.pending_known hmem), hs.distinct⟩

/-- The first result of a derived value makes nothing dirty. -/
theorem Turned.finish [BEq V] (h : s.Turned) (hm : s.Made) (hsh : s.Shaped) (hunread : s.core.Unread)
    {e : Effect} {output : Signal} {reads : List (Read V)} {next : V}
    (hs : s.stack = .evaluating e (some output) reads :: stack) :
    ({ s with stack := .leaving e reads (some next) :: stack }.publish output next).Turned := by
  have hfits : (Frame.evaluating e (some output) reads).Fits stack := hsh.top hs
  have hshaped : { s with stack := .leaving e reads (some next) :: stack }.Shaped :=
    (hsh.pop hs rfl rfl).push (f := .leaving e reads (some next)) hfits rfl rfl
  have hleave : s.Unstirred { s with stack := .leaving e reads (some next) :: stack } :=
    .frames (by rw [hs]; rfl)
  have hpend : pendings s.stack = output :: pendings stack := by
    rw [hs]
    rfl
  have hknown : ∀ e', s.core.observers.Known e' →
      ({ s with stack := .leaving e reads (some next) :: stack }.publish output
        next).core.observers.Known e' := by
    rw [publish_observers]
    exact fun _ he => he
  refine h.move ?_ hknown fun _ hsteady => ?_
  · rw [publish_stack hshaped ⟨_, List.mem_cons_self, rfl⟩]
    exact hleave.turns
  have hmem : output ∈ pendings s.stack := by
    rw [hpend]
    exact List.mem_cons_self
  have hdistinct := hsteady.distinct
  rw [hpend, List.nodup_cons] at hdistinct
  have hleft : { s with stack := .leaving e reads (some next) :: stack }.Steady := by
    refine hsteady.still hm h.known hleave ?_
    rw [hpend]
    exact List.sublist_cons_self _ _
  unfold State.publish
  split
  · exact hleft
  · rename_i cell hcell
    have hempty : cell.content = none := hsteady.first output hmem cell hcell
    have hslot := (Arena.find?_some hcell).2
    obtain ⟨hsub, hkeys⟩ := hunread output.slot cell hslot hempty
    rw [if_neg (by rw [hempty]; exact Bool.false_ne_true)]
    have hrun : ∃ g ∈ ({ s with stack := .leaving e reads (some next) :: stack }.write output
        (some next)).stack, g.isRun = true := by
      rw [write_stack]
      exact ⟨_, List.mem_cons_self, rfl⟩
    rw [(hshaped.write output (some next)).changed_running hrun]
    have heq : ({ { s with stack := .leaving e reads (some next) :: stack }.write output (some next)
        with core := ({ s with stack := .leaving e reads (some next) :: stack }.write output
          (some next)).core.changed output.slot } : State V) =
        { s with stack := .leaving e reads (some next) :: stack }.written output next := by
      simp [State.write, hcell, State.written]
    rw [heq]
    have hdirty : ({ s with stack := .leaving e reads (some next) :: stack }.written output
        next).core.dirty = s.core.dirty := by
      show s.core.dirty ∪ s.core.subscribers output.slot = s.core.dirty
      rw [hsub, Finset.union_empty]
    constructor
    · rw [hdirty]
      exact hleft.clean
    · rw [hdirty]
      exact hleft.once
    · intro m hread slot hkey
      have hne : slot ≠ output.slot := by
        rintro rfl
        exact hkeys m hread hkey
      show m.revision slot = Function.update s.core.revisions output.slot _ slot
      rw [Function.update_of_ne hne]
      exact hsteady.unmoved m hread slot hkey
    · intro out hout cell' hcell'
      have hout' : out ∈ pendings stack := hout
      have hne : out ≠ output := by
        rintro rfl
        exact hdistinct.1 hout'
      exact hleft.first out hout cell' ((find?_written hcell hne).mp hcell').1
    · exact hleft.distinct

/-- Below a flush nothing runs. -/
theorem Shaped.below_flush (hsh : s.Shaped) {turns : List (Effect × Kind)}
    (hs : s.stack = .flushing turns :: stack) :
    turnsOf stack = [] ∧ openReads stack = [] ∧ pendings stack = [] := by
  have hfits : (Frame.flushing turns : Frame V).Fits stack := hsh.top hs
  refine ⟨?_, ?_, ?_⟩
  · have hnone : stack.findSome? Frame.turns? = none := by
      refine List.findSome?_eq_none_iff.mpr fun f hmem => ?_
      have hflush := (hfits.2 f hmem).2.2
      cases f with
      | flushing => cases hflush
      | _ => rfl
    simp [turnsOf, hnone]
  · refine List.filterMap_eq_nil_iff.mpr fun f hmem => ?_
    have hrun := (hfits.2 f hmem).1
    cases f with
    | evaluating => cases hrun
    | leaving => cases hrun
    | _ => rfl
  · refine List.filterMap_eq_nil_iff.mpr fun f hmem => ?_
    have hrun := (hfits.2 f hmem).1
    cases f with
    | starting => cases hrun
    | evaluating => cases hrun
    | _ => rfl

theorem Made.output_effect (hm : s.Made) {slot : Nat} {observer : Observer V}
    (hslot : s.core.observers.slots slot = some observer) (hk : s.core.isDerived slot = false) :
    observer.output = none := by
  have hkind : observer.kind ≠ .derived := by
    intro he
    simp [Core.isDerived, hslot, he] at hk
  by_contra hne
  exact hkind ((hm.kind slot _ _ (Core.role_of_slot hslot)).mpr hne)

/-- A reaction is picked: an effect only if no derived value is dirty. -/
theorem Turned.turn [BEq V] (h : s.Turned) (hl : s.core.Linked) (hm : s.Made) (hsh : s.Shaped)
    (ht : s.Tracked) {turns : List (Effect × Kind)} {slot : Nat}
    (hs : s.stack = .flushing turns :: stack) (hnext : s.core.next = some slot) :
    ({ s with
      core := { s.core with dirty := s.core.dirty.erase slot }
      stack := .flushing (turns ++ [s.pick slot]) :: stack }.evaluate slot).Turned := by
  have hmem : slot ∈ s.core.dirty := Core.next_mem hnext
  obtain ⟨observer, hslot⟩ := Option.ne_none_iff_exists'.mp (hl.dirty slot hmem)
  obtain ⟨-, hopen, hpend⟩ := hsh.below_flush hs
  have hturns : turnsOf s.stack = turns := by
    rw [hs]
    rfl
  have hmade : { s with
      core := { s.core with dirty := s.core.dirty.erase slot }
      stack := .flushing (turns ++ [s.pick slot]) :: stack }.Made :=
    ((hm.pop hs).push (f := .flushing _) trivial).core (.same rfl fun _ hr => hr)
  have heval := unstirred_evaluate { s with
      core := { s.core with dirty := s.core.dirty.erase slot }
      stack := .flushing (turns ++ [s.pick slot]) :: stack } slot
  have hlive : s.core.observers.slots slot ≠ none := by simp [hslot]
  have hpick : s.core.observers.Known (s.pick slot).1 := ⟨hl.observers.lt_size hlive, le_rfl⟩
  have hknown : ∀ p ∈ turns ++ [s.pick slot], s.core.observers.Known p.1 := by
    intro p hp
    rcases List.mem_append.mp hp with hp | hp
    · exact h.known p (by rw [hturns]; exact hp)
    · rw [List.mem_singleton.mp hp]
      exact hpick
  by_cases hder : s.core.isDerived slot = true
  · -- a derived value is dirty, so no effect has been run yet
    have hnot : ∀ e, (e, Kind.effect) ∉ turns ++ [s.pick slot] := by
      intro e he
      rcases List.mem_append.mp he with he | he
      · have hclean := (h.steady ⟨e, by rw [hturns]; exact he⟩).clean slot hmem
        rw [hder] at hclean
        cases hclean
      · have hkind : (s.pick slot).2 = .derived := by simp [State.pick, hder]
        rw [← List.mem_singleton.mp he] at hkind
        cases hkind
    have hpicked : { s with
        core := { s.core with dirty := s.core.dirty.erase slot }
        stack := .flushing (turns ++ [s.pick slot]) :: stack }.Turned := by
      refine ⟨hknown, ?_, fun ⟨e, he⟩ => absurd he (hnot e)⟩
      have hempty : (turns ++ [s.pick slot]).filter (fun p => p.2 = .effect) = [] := by
        refine List.filter_eq_nil_iff.mpr ?_
        rintro ⟨e, k⟩ hp hk
        have hk' : k = .effect := of_decide_eq_true hk
        exact hnot e (hk' ▸ hp)
      show ((turns ++ [s.pick slot]).filter _).Nodup
      rw [hempty]
      exact List.nodup_nil
    exact hpicked.move heval.turns heval.known fun ⟨e, he⟩ => absurd he (hnot e)
  · have hder' : s.core.isDerived slot = false := by simpa using hder
    have hkind : (s.pick slot).2 = .effect := by simp [State.pick, hder']
    have hpicked : { s with
        core := { s.core with dirty := s.core.dirty.erase slot }
        stack := .flushing (turns ++ [s.pick slot]) :: stack }.Turned := by
      refine ⟨hknown, ?_, fun _ => ?_⟩
      · show ((turns ++ [s.pick slot]).filter fun p => p.2 = .effect).Nodup
        have hnodup := h.nodup
        rw [hturns] at hnodup
        have hnew : s.pick slot ∉ turns.filter fun p => p.2 = .effect := by
          intro hold
          have hold' : ((s.pick slot).1, Kind.effect) ∈ turns := by
            rw [← hkind]
            exact (List.mem_filter.mp hold).1
          have hsteady := h.steady ⟨_, by rw [hturns]; exact hold'⟩
          exact hsteady.once _ (by rw [hturns]; exact hold') rfl hmem
        rw [List.filter_append, List.filter_singleton, decide_eq_true hkind, cond_true]
        exact List.nodup_append.mpr ⟨hnodup, List.nodup_singleton _, fun x hx y hy heq => by
          rw [List.mem_singleton.mp hy] at heq
          exact hnew (heq ▸ hx)⟩
      · constructor
        · exact fun o ho => Core.next_effect hnext hder' o (Finset.mem_of_mem_erase ho)
        · intro e he hg hd
          have hne : e.slot ≠ slot := Finset.ne_of_mem_erase hd
          rcases List.mem_append.mp he with he | he
          · have hsteady := h.steady ⟨e, by rw [hturns]; exact he⟩
            exact hsteady.once e (by rw [hturns]; exact he) hg (Finset.mem_of_mem_erase hd)
          · have heq := congrArg Prod.fst (List.mem_singleton.mp he)
            exact hne (congrArg SlotRef.slot heq)
        · have hreads : s.core.reads = [] := by
            unfold State.Tracked at ht
            have hopen' : openReads s.stack = [] := by
              rw [hs]
              exact hopen
            rw [hopen'] at ht
            exact List.forall₂_nil_left_iff.mp ht
          intro m hm'
          have hm'' : m ∈ s.core.reads := hm'
          rw [hreads] at hm''
          cases hm''
        · intro out hout
          have hout' : out ∈ pendings stack := hout
          rw [hpend] at hout'
          cases hout'
        · show (pendings stack).Nodup
          rw [hpend]
          exact List.nodup_nil
    refine hpicked.still hmade heval ?_
    have hnone := hm.output_effect hslot hder'
    unfold State.evaluate
    simp only [hslot, hnone]
    exact List.Sublist.refl _

theorem Turned.of_move [BEq V] {gone : Gone} (hi : s.Inv gone 0) (hm : s.Made) (hsh : s.Shaped)
    (ht : s.Tracked) (hunread : s.core.Unread) (h : s.Turned) {w : Bool}
    (hw : s.InEffects → w = false) (hmove : Move s w t) : t.Turned := by
  have hnil : s.core.flushing = false → turnsOf s.stack = [] := hsh.turnsOf_nil
  cases hmove with
  | idle => exact h
  | signal value =>
      exact h.still hm ((unstirred_allocate hi (some value)).congr rfl rfl) (List.Sublist.refl _)
  | derived => exact h.derived hi hm
  | effect =>
      refine h.still hm (unstirred_observe hi .effect none) ?_
      unfold State.effect State.observe State.evaluate
      have hslot : (s.register .effect none).core.observers.slots (s.core.register .effect none).1.slot =
          some ⟨none, ∅, .effect, none, none⟩ := by
        show (s.core.observers.insert _).2.slots (s.core.observers.insert _).1.slot = _
        rw [Arena.insert_slots]
        exact Function.update_self _ _ _
      rw [hslot]
      exact List.Sublist.refl _
  | read r =>
      refine h.still hm (unstirred_read s r) ?_
      show (pendings (logRead _ s.stack)).Sublist _
      rw [pendings_logRead]
  | write r value cell stack hu hfind hs =>
      have hpop : turnsOf stack = turnsOf s.stack := by
        rcases hs with ⟨rfl, -⟩ | hs
        · rfl
        · exact turnsOf_pop hs rfl
      refine h.move ?_ (by simp) fun he => absurd (hw he) (by simp)
      rw [turnsOf_changed, write_stack]
      · exact hpop
      · intro hf
        rw [write_flushing] at hf
        rw [write_stack]
        exact hpop.trans (hnil hf)
  | late r stack hu hfind hs =>
      have hpop : turnsOf stack = turnsOf s.stack := turnsOf_pop hs rfl
      refine h.move ?_ (by simp) fun he => absurd (hw he) (by simp)
      rw [turnsOf_changed]
      · exact hpop
      · exact fun hf => hpop.trans (hnil hf)
  | beginUpdate r cell hu hfind hr =>
      exact h.still hm ((unstirred_borrow hfind).trans (.push (f := .update r) rfl)) (List.Sublist.refl _)
  | beginBatch =>
      refine h.still hm ((Unstirred.push (f := .batch) rfl).trans
        (.core rfl rfl rfl rfl (Finset.Subset.refl _))) (List.Sublist.refl _)
  | endBatch stack hu hs =>
      have hpop : s.Unstirred { s with stack := stack } := .pop hs rfl
      have hdepth := hpop.trans (.core (d := { s.core with depth := s.core.depth - 1 })
        rfl rfl rfl rfl (Finset.Subset.refl _))
      refine h.still hm (hdepth.trans (unstirred_flush fun hf => hpop.turns.trans (hnil hf))) ?_
      show (pendings (State.flush _).stack).Sublist _
      rw [pendings_flush]
      exact pendings_pop hs
  | beginOwned =>
      refine h.still hm ((Unstirred.push (f := .owned) rfl).trans
        (.core rfl rfl rfl rfl (Finset.Subset.refl _))) (List.Sublist.refl _)
  | endOwned stack hu hs =>
      have hpop : s.Unstirred { s with stack := stack } := .pop hs rfl
      have howner := hpop.trans (.core (d := s.core.popOwner.2) rfl rfl rfl rfl (Finset.Subset.refl _))
      exact h.still hm (howner.congr rfl rfl) (pendings_pop hs)
  | dropOwner index owner =>
      exact h.still hm ((Unstirred.push (f := .dropping owner.items) rfl).congr rfl rfl) (List.Sublist.refl _)
  | dispose e => exact h.still hm ((unstirred_dispose s _).trans (.push rfl)) (List.Sublist.refl _)
  | flush =>
      refine h.still hm (unstirred_flush hnil) ?_
      rw [pendings_flush]
  | finishEffect e reads stack hs =>
      have hpop : s.Unstirred { s with stack := stack } := .pop hs rfl
      exact h.still hm (hpop.trans (.push (f := .leaving e reads none) rfl)) (pendings_swap hs rfl)
  | finishDerived e output reads next stack hs => exact h.finish hm hsh hunread hs
  | beginCatch => exact h.still hm (.push rfl) (List.Sublist.refl _)
  | endCatch stack hu hs => exact h.still hm (.pop hs rfl) (pendings_pop hs)
  | dropNil stack hs => exact h.still hm (.pop hs rfl) (pendings_pop hs)
  | dropEffect e items stack hs =>
      have hpop : s.Unstirred { s with stack := stack } := .pop hs rfl
      have hdispose := hpop.trans (unstirred_dispose _ e.slot)
      exact h.still hm (hdispose.trans (.push (f := .dropping _) rfl)) (pendings_swap hs rfl)
  | dropStale e items stack hs =>
      have hpop : s.Unstirred { s with stack := stack } := .pop hs rfl
      exact h.still hm (hpop.trans (.push (f := .dropping items) rfl)) (pendings_swap hs rfl)
  | dropValue slot items stack hs =>
      have hpop : s.Unstirred { s with stack := stack } := .pop hs rfl
      have hrelease := hpop.trans (unstirred_release _ slot)
      exact h.still hm (hrelease.trans (.push (f := .dropping items) rfl)) (pendings_swap hs rfl)
  | start slot output stack hs =>
      have hframes : s.Unstirred { s with
          stack := .evaluating ⟨slot, s.core.observers.generations slot⟩ output [] :: stack } :=
        .frames (by rw [hs]; rfl)
      refine h.still hm ⟨hframes.turns, hframes.dirty, hframes.derived, hframes.known,
        hframes.generations, fun hu m hread => ?_, hframes.values, hframes.empty⟩ ?_
      · rcases List.mem_cons.mp hread with rfl | hread
        · exact fun slot' hkey => absurd hkey (Finset.notMem_empty _)
        · exact hu m hread
      · rw [hs]
        exact List.Sublist.refl _
  | leave e reads result stack hs =>
      have hpop : s.Unstirred { s with stack := stack } := .pop hs rfl
      have hsettle := unstirred_settle
        ({ s with stack := stack }.leave e (some ⟨reads, result, s.writes⟩)).2 e
        ({ s with stack := stack }.leave e (some ⟨reads, result, s.writes⟩)).1
      refine h.move (hsettle.turns.trans hpop.turns) (fun e' he' => ?_) fun _ hsteady => ?_
      · exact hsettle.known e' (known_capture e _ he')
      · have hcapture := unstirred_capture (s := { s with stack := stack }) hsteady.unmoved e
          (some ⟨reads, result, s.writes⟩)
        have howner := (hpop.trans hcapture).trans (.core
          (d := (s.core.capture e (some ⟨reads, result, s.writes⟩)).popOwner.2)
          rfl rfl rfl rfl (Finset.Subset.refl _))
        refine hsteady.still hm h.known (howner.trans hsettle) ?_
        rw [pendings_settle]
        exact pendings_pop hs
  | install e output stack hu hs =>
      have hpop : s.Unstirred { s with stack := stack } := .pop hs rfl
      have hissue : s.Unstirred ({ s with stack := stack }.issue e output) := by
        cases output with
        | none => exact hpop.congr rfl rfl
        | some out => exact hpop.congr rfl rfl
      have hstack : ({ s with stack := stack }.issue e output).stack = stack := by
        cases output <;> rfl
      have hflushing : ({ s with stack := stack }.issue e output).core.flushing = s.core.flushing := by
        cases output <;> rfl
      have hdepth := hissue.trans (.core (d := { ({ s with stack := stack }.issue e output).core with
        depth := ({ s with stack := stack }.issue e output).core.depth - 1 })
        rfl rfl rfl rfl (Finset.Subset.refl _))
      refine h.still hm (hdepth.trans (unstirred_flush fun hf => ?_)) ?_
      · exact hissue.turns.trans (hnil (hflushing.symm.trans hf))
      · show (pendings (State.flush _).stack).Sublist _
        rw [pendings_flush]
        show (pendings ({ s with stack := stack }.issue e output).stack).Sublist _
        rw [hstack]
        exact pendings_pop hs
  | rest turns stack hs =>
      obtain ⟨hnone, -, -⟩ := hsh.below_flush hs
      refine ⟨?_, ?_, ?_⟩
      · show ∀ p ∈ turnsOf stack, _
        rw [hnone]
        exact fun p hp => absurd hp List.not_mem_nil
      · show ((turnsOf stack).filter _).Nodup
        rw [hnone]
        exact List.nodup_nil
      · rintro ⟨e, he⟩
        have he' : (e, Kind.effect) ∈ turnsOf stack := he
        rw [hnone] at he'
        cases he'
  | turn turns slot stack hs hnext => exact h.turn hi.linked hm hsh ht hs hnext

end State

section Reachable

variable [BEq V] {s t : State V}

theorem CalmReachable.unread (h : CalmReachable s) : s.core.Unread :=
  h.induction (P := fun s => s.core.Unread) (fun _ _ hslot => by cases hslot)
    fun _ _ hs hu _ hm => State.unread_of_move hs.reachable.inv.linked hu hm

/-- A calm step that writes nothing while a flush runs effects. -/
def TameStep (s t : State V) : Prop :=
  ∃ a, s.apply a = some t ∧ ¬ s.Conflict a ∧ t.panicking = false ∧ (s.InEffects → a.isWrite = false)

theorem CalmReachable.turned (h : CalmReachable s) (hf : s.core.flushing = false)
    (ht : Reach TameStep {s} t) : CalmReachable t ∧ t.Turned := by
  refine ht.subset (C := {t | CalmReachable t ∧ t.Turned}) ?_ ?_
  · rintro t rfl
    have hnil := h.shaped.turnsOf_nil hf
    refine ⟨h, by simp [hnil], by simp [hnil], ?_⟩
    rintro ⟨e, he⟩
    rw [hnil] at he
    cases he
  · rintro t ⟨hc, hturned⟩ u ⟨a, ha, hfree, hp, hw⟩
    have hmove := State.move_of_apply hc.shaped hc.calm hfree hp ha
    exact ⟨.step hc ⟨a, ha, hfree, hp⟩,
      hturned.of_move hc.reachable.inv hc.made hc.shaped hc.consistent.tracked hc.unread hw hmove⟩

/-- A live derived value that is not dirty is running or settled. -/
theorem CalmReachable.derived_clean (h : CalmReachable s) {o : Nat} {observer : Observer V}
    (ho : s.core.observers.slots o = some observer) (hk : observer.kind = .derived)
    (hclean : ∀ o ∈ s.core.dirty, s.core.isDerived o = false) :
    s.Running o ∨ ∃ run, Settled s.core s.writes observer run := by
  rcases h.consistent.upToDate o observer ho with hd | hrun | hset
  · have hfalse := hclean o hd
    simp [Core.isDerived, ho, hk] at hfalse
  · exact Or.inl hrun
  · exact Or.inr hset

/-- **The order of a flush.**  Whenever a flush is about to run an effect, every live
derived value is up to date.  In a flush during which nothing is written from the first
effect on, every effect is run at most once, and from then on no derived value is out of
date unless its run is under way. -/
theorem CalmReachable.flush_order (h : CalmReachable s) :
    (∀ turns slot stack, s.stack = .flushing turns :: stack → s.core.next = some slot →
      s.core.isDerived slot = false →
      ∀ o observer, s.core.observers.slots o = some observer → observer.kind = .derived →
        ∃ run, Settled s.core s.writes observer run) ∧
    (s.core.flushing = false → ∀ t, Reach TameStep {s} t →
      ((turnsOf t.stack).filter fun p => p.2 = .effect).Nodup ∧
      (t.InEffects →
        ∀ o observer, t.core.observers.slots o = some observer → observer.kind = .derived →
          t.Running o ∨ ∃ run, Settled t.core t.writes observer run)) := by
  constructor
  · intro turns slot stack hs hnext heffect o observer ho hk
    refine (h.derived_clean ho hk (Core.next_effect hnext heffect)).resolve_left ?_
    rintro ⟨f, hf, hrun⟩
    have hfits : (Frame.flushing turns : Frame V).Fits stack := h.shaped.top hs
    rw [hs] at hf
    rcases List.mem_cons.mp hf with rfl | hf
    · exact hrun.elim
    · have hquiet := (hfits.2 f hf).1
      cases f with
      | starting => cases hquiet
      | evaluating => cases hquiet
      | leaving => cases hquiet
      | _ => exact hrun.elim
  · intro hf t ht
    obtain ⟨hc, hturned⟩ := h.turned hf ht
    exact ⟨hturned.nodup, fun he o observer ho hk =>
      hc.derived_clean ho hk (hturned.steady he).clean⟩

end Reachable

/-! ### Runs on fixed inputs -/

/-- `TameStep`, computed -/
def tameStep (s : State V) (a : Action V) (t : State V) : Bool :=
  calmStep s a t && (!((turnsOf s.stack).any fun p => p.2 = .effect) || !a.isWrite)

theorem tame_checks [BEq V] {s t : State V} (hs : Reach TameStep {s} t) {actions : List (Action V)}
    (h : t.checks tameStep actions = true) : Reach TameStep {s} (t.after actions) := by
  refine reach_checks (fun u a v ha hok => ?_) hs h
  obtain ⟨hcalm, htame⟩ := Bool.and_eq_true_iff.mp hok
  obtain ⟨hfree, hp⟩ := calmStep_iff.mp hcalm
  refine ⟨a, ha, hfree, hp, ?_⟩
  rintro ⟨e, he⟩
  have hany : ((turnsOf u.stack).any fun p => p.2 = .effect) = true :=
    List.any_eq_true.mpr ⟨_, he, decide_eq_true rfl⟩
  rw [hany] at htame
  simpa using htame

/-- `State.refreshed` before the write, in the flush that follows, and when the derived
value and the effect have run. -/
def State.unwritten : State Nat := State.initial.after (State.refreshActions.take 18)

def State.picking : State Nat := State.initial.after (State.refreshActions.take 25)

def State.picked : State Nat := State.unwritten.after ((State.refreshActions.take 32).drop 18)

/-- The derived value is run first and is up to date when the effect is picked. -/
theorem flush_order_refreshed :
    State.picking.core.next = some 1 ∧
      (∀ o observer, State.picking.core.observers.slots o = some observer →
        observer.kind = .derived →
        ∃ run, Settled State.picking.core State.picking.writes observer run) ∧
      turnsOf State.picked.stack = [(⟨0, 0⟩, .derived), (⟨1, 0⟩, .effect)] ∧
      ((turnsOf State.picked.stack).filter fun p => p.2 = .effect).Nodup :=
  have hpicking : CalmReachable State.picking :=
    calm_checks (.root (Set.mem_singleton _)) (by decide)
  have hunwritten : CalmReachable State.unwritten :=
    calm_checks (.root (Set.mem_singleton _)) (by decide)
  have hpicked : Reach TameStep {State.unwritten} State.picked :=
    tame_checks (.root (Set.mem_singleton _)) (by decide)
  ⟨by decide,
    (CalmReachable.flush_order hpicking).1 [(⟨0, 0⟩, .derived)] 1 [] rfl (by decide)
      (by decide),
    by decide,
    ((CalmReachable.flush_order hunwritten).2 (by decide) State.picked hpicked).1⟩

/-- A signal read or written by the body of a reaction. -/
structure Access where
  reaction : Effect
  write : Bool
  signal : Signal
deriving DecidableEq

/-- The reaction whose body is running. -/
def State.runner (s : State V) : Option Effect :=
  s.stack.findSome? fun
    | .evaluating e _ _ => some e
    | _ => none

/-- What an action accesses: the result of a derived value goes to its output. -/
def State.access (s : State V) (a : Action V) : Option Access :=
  match a, s.stack with
  | .read r, _ => s.runner.map fun e => ⟨e, false, r⟩
  | .set r _, _ | .beginUpdate r, _ => s.runner.map fun e => ⟨e, true, r⟩
  | .finish _, .evaluating e (some output) _ :: _ => some ⟨e, true, output⟩
  | _, _ => none

def State.accesses [BEq V] : State V → List (Action V) → List Access
  | _, [] => []
  | s, a :: actions =>
      (s.access a).toList ++ match s.apply a with
        | none => []
        | some t => t.accesses actions

/-- Every signal a reaction writes comes after the signals it reads. -/
def Acyclic (rank : Signal → Nat) (accesses : List Access) : Prop :=
  ∀ x ∈ accesses, ∀ y ∈ accesses, x.reaction = y.reaction → x.write = false → y.write = true →
    rank x.signal < rank y.signal

instance (rank : Signal → Nat) (accesses : List Access) : Decidable (Acyclic rank accesses) :=
  inferInstanceAs (Decidable (∀ _ ∈ _, _))

/-- An effect that reads two signals, an effect that copies the first to the second, and a
write of the first. -/
def State.repeatActions : List (Action Nat) :=
  [.signal 0, .signal 0, .effect, .tick, .tick, .read ⟨0, 0⟩, .read ⟨1, 0⟩, .finish none, .tick,
    .tick, .tick, .effect, .tick, .tick, .read ⟨0, 0⟩, .set ⟨1, 0⟩ 0, .finish none, .tick, .tick,
    .tick, .tick, .tick, .read ⟨0, 0⟩, .read ⟨1, 0⟩, .finish none, .tick, .tick,
    .set ⟨0, 0⟩ 1, .tick, .tick, .tick, .read ⟨0, 0⟩, .read ⟨1, 0⟩, .finish none, .tick,
    .tick, .tick, .tick, .read ⟨0, 0⟩, .set ⟨1, 0⟩ 1, .finish none, .tick, .tick]

/-- The first effect writes nothing and runs twice in one flush. -/
theorem flush_order_repeats :
    ¬ ∀ (actions : List (Action Nat)) (rank : Signal → Nat),
      State.initial.checks calmStep actions = true →
      Acyclic rank (State.initial.accesses actions) →
      ∀ e, (∀ x ∈ State.initial.accesses actions, x.reaction = e → x.write = false) →
        (turnsOf (State.initial.after actions).stack).count (e, .effect) ≤ 1 := by
  intro h
  have htwice : (turnsOf (State.initial.after State.repeatActions).stack).count (⟨0, 0⟩, .effect) = 2 := by
    decide
  have honce := h State.repeatActions (fun r => r.slot) (by decide) (by decide)
    ⟨0, 0⟩ (by decide)
  rw [htwice] at honce
  exact absurd honce (by decide)

end Deka.Reactive
