/-
Deka/Reactive/Currency.lean

What a reaction has read is either current or known to be stale.

A finished run is `Settled` when none of its reads has been overtaken by a write: the
observer subscribes to the signal and the signal still has the content that was read.
A run that is under way has its reads in `Core.reads`, with the revision each was made
at; `Seen` says that the read is current as long as the revision is.  The invariant is
`State.UpToDate`: a live observer is dirty, or running, or settled.

`State.Still` collects the moves that write no signal and end no run.
-/
import Deka.Reactive.Contents

namespace Deka.Reactive

open Deka.Lib

variable {V : Type}

/-! ### Reads -/

/-- A read that would return the same now, unless its signal was released. -/
def Read.Current (c : Core V) (writes : Signal → Nat) (x : Read V) : Prop :=
  match x.outcome with
  | .error e => e = .disposedSignal ∧ c.values.find? x.signal = none
  | .ok v => ∀ cell, c.values.find? x.signal = some cell →
      cell.content = some v ∧ x.writes = writes x.signal

/-- A read of a run that is under way: current as long as its revision is. -/
def Read.Seen (c : Core V) (writes : Signal → Nat) (m : Reads) (x : Read V) : Prop :=
  match x.outcome with
  | .error e => e = .disposedSignal ∧ c.values.find? x.signal = none
  | .ok v => ∀ cell, c.values.find? x.signal = some cell →
      x.signal.slot ∈ m.keys ∧
        (c.revisions x.signal.slot = m.revision x.signal.slot →
          cell.content = some v ∧ x.writes = writes x.signal)

/-- A live output has the result of the run, up to the equality of its type. -/
def Core.Published [BEq V] (c : Core V) (output : Option Signal) (result : Option V) : Prop :=
  ∀ out ∈ output, ∀ cell, c.values.find? out = some cell →
    ∃ v w, cell.content = some v ∧ result = some w ∧ (v = w ∨ (v == w) = true)

/-- The latest run of an observer has not been overtaken. -/
structure Settled [BEq V] (c : Core V) (writes : Signal → Nat) (observer : Observer V)
    (run : Run V) : Prop where
  latest : observer.latest = some run
  known : ∀ x ∈ run.reads, c.values.Known x.signal
  current : ∀ x ∈ run.reads, x.Current c writes
  ended : ∀ x ∈ run.reads, run.ended x.signal = writes x.signal
  subscribed : ∀ x ∈ run.reads, c.values.find? x.signal ≠ none →
    x.signal.slot ∈ observer.dependencies
  published : c.Published observer.output run.result

/-- The reads of the runs under way, innermost first. -/
def Frame.reads? : Frame V → Option (List (Read V))
  | .evaluating _ _ reads | .leaving _ reads _ => some reads
  | _ => none

def openReads (stack : List (Frame V)) : List (List (Read V)) := stack.filterMap Frame.reads?

structure SeenAll (c : Core V) (writes : Signal → Nat) (reads : List (Read V)) (m : Reads) : Prop where
  known : ∀ x ∈ reads, c.values.Known x.signal
  seen : ∀ x ∈ reads, x.Seen c writes m
  older : ∀ slot ∈ m.keys, m.revision slot ≤ c.revisions slot

/-- The runs under way and what the scope has recorded of them. -/
def State.Tracked (s : State V) : Prop :=
  List.Forall₂ (SeenAll s.core s.writes) (openReads s.stack) s.core.reads

/-- A run of the observer in slot `o`. -/
def Frame.Runs (c : Core V) (o : Nat) : Frame V → Prop
  | .starting slot _ => slot = o
  | .evaluating e _ _ | .leaving e _ _ => e = ⟨o, c.observers.generations o⟩
  | _ => False

def State.Running (s : State V) (o : Nat) : Prop := ∃ f ∈ s.stack, f.Runs s.core o

def State.UpToDate [BEq V] (s : State V) : Prop :=
  ∀ o observer, s.core.observers.slots o = some observer →
    o ∈ s.core.dirty ∨ s.Running o ∨ ∃ run, Settled s.core s.writes observer run

/-! ### Moves that write nothing -/

/-- Contents, latest runs and dependencies stay; what was dirty stays so or runs. -/
structure State.Tables (s t : State V) : Prop where
  known : ∀ r, s.core.values.Known r → t.core.values.Known r
  cell : ∀ r cell', s.core.values.Known r → t.core.values.find? r = some cell' →
    ∃ cell, s.core.values.find? r = some cell ∧ cell'.content = cell.content
  revisions : ∀ slot, s.core.revisions slot ≤ t.core.revisions slot
  writes : t.writes = s.writes
  observers : ∀ o new, t.core.observers.slots o = some new → t.Running o ∨
    ∃ old, s.core.observers.slots o = some old ∧ new.latest = old.latest ∧
      new.output = old.output ∧ new.dependencies = old.dependencies
  dirty : ∀ o, t.core.observers.slots o ≠ none → o ∈ s.core.dirty → o ∈ t.core.dirty ∨ t.Running o
  running : ∀ o, t.core.observers.slots o ≠ none → s.Running o → t.Running o

/-- No run starts or ends either. -/
structure State.Still (s t : State V) : Prop extends s.Tables t where
  reads : t.core.reads = s.core.reads
  opened : openReads t.stack = openReads s.stack

namespace State

variable {s t : State V} {stack : List (Frame V)} {f : Frame V}

theorem Tables.trans {u : State V} (h : s.Tables t) (h' : t.Tables u) : s.Tables u where
  known := fun r hr => h'.known r (h.known r hr)
  cell := by
    intro r cell'' hr hfind
    obtain ⟨cell', hfind', hcontent'⟩ := h'.cell r cell'' (h.known r hr) hfind
    obtain ⟨cell, hfind, hcontent⟩ := h.cell r cell' hr hfind'
    exact ⟨cell, hfind, hcontent'.trans hcontent⟩
  revisions := fun slot => (h.revisions slot).trans (h'.revisions slot)
  writes := h'.writes.trans h.writes
  observers := by
    intro o new ho
    rcases h'.observers o new ho with hrun | ⟨mid, hmid, hlatest', hout', hdeps'⟩
    · exact Or.inl hrun
    · rcases h.observers o mid hmid with hrun | ⟨old, hold, hlatest, hout, hdeps⟩
      · exact Or.inl (h'.running o (by simp [ho]) hrun)
      · exact Or.inr ⟨old, hold, hlatest'.trans hlatest, hout'.trans hout, hdeps'.trans hdeps⟩
  dirty := by
    intro o ho hd
    obtain ⟨new, hnew⟩ := Option.ne_none_iff_exists'.mp ho
    rcases h'.observers o new hnew with hrun | ⟨mid, hmid, -⟩
    · exact Or.inr hrun
    · rcases h.dirty o (by simp [hmid]) hd with hd | hrun
      · exact h'.dirty o ho hd
      · exact Or.inr (h'.running o ho hrun)
  running := by
    intro o ho hrun
    obtain ⟨new, hnew⟩ := Option.ne_none_iff_exists'.mp ho
    rcases h'.observers o new hnew with hrun' | ⟨mid, hmid, -⟩
    · exact hrun'
    · exact h'.running o ho (h.running o (by simp [hmid]) hrun)

theorem Still.trans {u : State V} (h : s.Still t) (h' : t.Still u) : s.Still u :=
  ⟨h.toTables.trans h'.toTables, h'.reads.trans h.reads, h'.opened.trans h.opened⟩

/-- Only the stack changes. -/
theorem Tables.frames (hf : ∀ f ∈ s.stack, ∀ o, f.Runs s.core o → ∃ g ∈ stack, g.Runs s.core o) :
    s.Tables { s with stack := stack } where
  known := fun _ hr => hr
  cell := fun _ cell _ hfind => ⟨cell, hfind, rfl⟩
  revisions := fun _ => le_rfl
  writes := rfl
  observers := fun _ old ho => Or.inr ⟨old, ho, rfl, rfl, rfl⟩
  dirty := fun _ _ hd => Or.inl hd
  running := by
    rintro o - ⟨f, hf', hrun⟩
    exact hf f hf' o hrun

theorem still_refl (s : State V) : s.Still s :=
  ⟨.frames fun f hf _ hrun => ⟨f, hf, hrun⟩, rfl, rfl⟩

theorem Still.push (hf : f.reads? = none) : s.Still { s with stack := f :: s.stack } where
  toTables := .frames fun g hg _ hrun => ⟨g, List.mem_cons_of_mem _ hg, hrun⟩
  reads := rfl
  opened := List.filterMap_cons_none hf

theorem Still.pop (hs : s.stack = f :: stack) (hf : f.isRun = false) :
    s.Still { s with stack := stack } where
  toTables := by
    refine .frames fun g hg o hrun => ?_
    rw [hs] at hg
    rcases List.mem_cons.mp hg with rfl | hg
    · cases g with
      | starting => cases hf
      | evaluating => cases hf
      | leaving => cases hf
      | _ => exact hrun.elim
    · exact ⟨g, hg, hrun⟩
  reads := rfl
  opened := by
    have hnone : f.reads? = none := by
      cases f with
      | evaluating => cases hf
      | leaving => cases hf
      | _ => rfl
    rw [hs]
    exact (List.filterMap_cons_none hnone).symm

/-- The tables of observers and the revisions stay. -/
theorem Still.values {d : Core V} (hknown : ∀ r, s.core.values.Known r → d.values.Known r)
    (hcell : ∀ r cell', s.core.values.Known r → d.values.find? r = some cell' →
      ∃ cell, s.core.values.find? r = some cell ∧ cell'.content = cell.content)
    (ho : d.observers = s.core.observers) (hr : d.reads = s.core.reads)
    (hrev : d.revisions = s.core.revisions) (hd : d.dirty = s.core.dirty) :
    s.Still { s with core := d } where
  known := hknown
  cell := hcell
  revisions := by
    intro slot
    show _ ≤ d.revisions slot
    rw [hrev]
  writes := rfl
  observers := by
    intro o old hold
    rw [show ({ s with core := d } : State V).core.observers = s.core.observers from ho] at hold
    exact Or.inr ⟨old, hold, rfl, rfl, rfl⟩
  dirty := by
    intro o _ hdirty
    left
    show o ∈ d.dirty
    rw [hd]
    exact hdirty
  running := by
    rintro o - ⟨f, hf, hrun⟩
    refine ⟨f, hf, ?_⟩
    cases f with
    | starting => exact hrun
    | evaluating => exact hrun.trans (by rw [← ho])
    | leaving => exact hrun.trans (by rw [← ho])
    | _ => exact hrun.elim
  reads := hr
  opened := rfl

/-- Neither values nor observers change. -/
theorem Still.core {d : Core V} (hv : d.values = s.core.values)
    (ho : d.observers = s.core.observers) (hr : d.reads = s.core.reads)
    (hrev : d.revisions = s.core.revisions) (hd : d.dirty = s.core.dirty) :
    s.Still { s with core := d } :=
  .values (fun r hk => by rw [hv]; exact hk)
    (fun r cell _ hfind => ⟨cell, by rw [← hv]; exact hfind, rfl⟩) ho hr hrev hd

theorem still_flush (s : State V) : s.Still s.flush := by
  unfold State.flush
  split
  · exact still_refl s
  · exact (Still.push (f := .flushing []) rfl).trans (.core rfl rfl rfl rfl rfl)

theorem still_changed_flush (s : State V) (slot : Nat) :
    ({ s with core := s.core.changed slot } : State V).Still (s.changed slot) := by
  unfold State.changed
  split
  · exact still_refl _
  · exact still_flush _

/-- Disposing an observer takes nothing from the others. -/
theorem still_dispose (s : State V) (slot : Nat) :
    s.Still { s with core := (s.core.disposeObserver slot).2 } := by
  unfold Core.disposeObserver
  split
  · exact still_refl s
  · rename_i observer hslot
    have hlive : ∀ o, (s.core.observers.erase slot).slots o ≠ none → o ≠ slot := by
      rintro o ho rfl
      simp [Arena.erase] at ho
    refine ⟨⟨fun _ hr => hr, fun _ cell _ hfind => ⟨cell, hfind, rfl⟩, fun _ => le_rfl, rfl, ?_, ?_, ?_⟩,
      rfl, rfl⟩
    · intro o new hnew
      have hnew' : (s.core.observers.erase slot).slots o = some new := hnew
      have hne := hlive o (by simp [hnew'])
      have hold : s.core.observers.slots o = some new := by
        simpa [Arena.erase, Function.update_of_ne hne] using hnew'
      exact Or.inr ⟨new, hold, rfl, rfl, rfl⟩
    · intro o ho hd
      exact Or.inl (Finset.mem_erase.mpr ⟨hlive o ho, hd⟩)
    · rintro o - ⟨f, hf, hrun⟩
      exact ⟨f, hf, hrun⟩

/-- The end of a run gives its owner away. -/
theorem still_settle (s : State V) (e : Effect) (owner : Owned) : s.Still (s.settle e owner) := by
  unfold State.settle
  split
  · exact .push rfl
  · rename_i observer hfind
    have hslot := (Arena.find?_some hfind).2
    refine ⟨⟨fun _ hr => hr, fun _ cell _ hfind => ⟨cell, hfind, rfl⟩, fun _ => le_rfl, rfl, ?_, ?_, ?_⟩,
      rfl, rfl⟩
    · intro o new hnew
      right
      have hnew' : (s.core.observers.set e.slot { observer with runOwner := some owner }).slots o =
          some new := hnew
      by_cases he : o = e.slot
      · subst he
        have hself : some { observer with runOwner := some owner } = some new := by
          simpa [Arena.set] using hnew'
        cases hself
        exact ⟨observer, hslot, rfl, rfl, rfl⟩
      · exact ⟨new, by simpa [Arena.set, Function.update_of_ne he] using hnew', rfl, rfl, rfl⟩
    · exact fun _ _ hd => Or.inl hd
    · rintro o - ⟨f, hf, hrun⟩
      exact ⟨f, hf, hrun⟩

/-- A reaction is started: it runs, and nothing else happens to the observers. -/
theorem Still.evaluate {u : State V} {slot : Nat} {observer : Observer V}
    (hslot : u.core.observers.slots slot = some observer)
    (hv : u.core.values = s.core.values) (hw : u.writes = s.writes)
    (hr : u.core.reads = s.core.reads) (hrev : u.core.revisions = s.core.revisions)
    (hopen : openReads u.stack = openReads s.stack)
    (hobs : ∀ o, o ≠ slot → u.core.observers.slots o = s.core.observers.slots o ∧
      u.core.observers.generations o = s.core.observers.generations o)
    (hdirty : ∀ o, o ≠ slot → o ∈ s.core.dirty → o ∈ u.core.dirty)
    (hstack : ∀ f ∈ s.stack, f.isRun = true → f ∈ u.stack) : s.Still (u.evaluate slot) := by
  have hrunning : (u.evaluate slot).Running slot := by
    unfold State.evaluate
    rw [hslot]
    exact ⟨.starting slot observer.output, List.mem_cons_of_mem _ List.mem_cons_self, rfl⟩
  have hcore : (u.evaluate slot).core = { u.core with
      observers := u.core.observers.set slot { observer with runOwner := none } } := by
    unfold State.evaluate
    rw [hslot]
  have hframes : (u.evaluate slot).stack =
      .dropping (observer.runOwner.getD .empty).items :: .starting slot observer.output :: u.stack := by
    unfold State.evaluate
    rw [hslot]
  have hwrites : (u.evaluate slot).writes = u.writes := by
    unfold State.evaluate
    rw [hslot]
  constructor
  · constructor
    · intro r hk
      rw [hcore]
      show u.core.values.Known r
      rw [hv]
      exact hk
    · intro r cell hk hfind
      rw [hcore] at hfind
      have hfind' : u.core.values.find? r = some cell := hfind
      rw [hv] at hfind'
      exact ⟨cell, hfind', rfl⟩
    · intro slot'
      rw [hcore]
      show _ ≤ u.core.revisions slot'
      rw [hrev]
    · rw [hwrites, hw]
    · intro o new hnew
      by_cases he : o = slot
      · subst he
        exact Or.inl hrunning
      · right
        rw [hcore] at hnew
        have hnew' : u.core.observers.slots o = some new := by
          simpa [Arena.set, Function.update_of_ne he] using hnew
        rw [(hobs o he).1] at hnew'
        exact ⟨new, hnew', rfl, rfl, rfl⟩
    · intro o _ hd
      by_cases he : o = slot
      · subst he
        exact Or.inr hrunning
      · left
        rw [hcore]
        exact hdirty o he hd
    · rintro o - ⟨f, hf, hrun⟩
      by_cases he : o = slot
      · subst he
        exact hrunning
      · have hgen : (u.evaluate slot).core.observers.generations o =
            s.core.observers.generations o := by
          rw [hcore]
          exact (hobs o he).2
        refine ⟨f, ?_, ?_⟩
        · rw [hframes]
          refine List.mem_cons_of_mem _ (List.mem_cons_of_mem _ (hstack f hf ?_))
          cases f with
          | starting => rfl
          | evaluating => rfl
          | leaving => rfl
          | _ => exact hrun.elim
        · cases f with
          | starting => exact hrun
          | evaluating => exact hrun.trans (by rw [hgen])
          | leaving => exact hrun.trans (by rw [hgen])
          | _ => exact hrun.elim
  · rw [hcore]
    exact hr
  · rw [hframes]
    exact hopen

theorem still_observe (s : State V) (kind : Kind) (output : Option Signal) :
    s.Still (s.observe kind output) := by
  have hslots : ∀ o, (s.register kind output).core.observers.slots o =
      Function.update s.core.observers.slots (s.core.register kind output).1.slot
        (some ⟨output, ∅, kind, none, none⟩) o := by
    intro o
    show (s.core.observers.insert _).2.slots o = _
    rw [Arena.insert_slots]
    rfl
  have hnew : (s.register kind output).core.observers.slots (s.core.register kind output).1.slot =
      some ⟨output, ∅, kind, none, none⟩ := by
    rw [hslots, Function.update_self]
  refine .evaluate hnew rfl rfl rfl rfl rfl ?_ ?_ ?_
  · intro o ho
    exact ⟨(hslots o).trans (Function.update_of_ne ho _ _), generations_register _ _ _ ho⟩
  · exact fun _ _ hd => hd
  · exact fun f hf _ => List.mem_cons_of_mem _ hf

/-! ### What such moves keep -/

theorem Tables.released (h : s.Tables t) {r : Signal} (hk : s.core.values.Known r)
    (hr : s.core.values.find? r = none) : t.core.values.find? r = none := by
  by_contra hsome
  obtain ⟨cell', hcell'⟩ := Option.ne_none_iff_exists'.mp hsome
  obtain ⟨cell, hcell, -⟩ := h.cell r cell' hk hcell'
  rw [hr] at hcell
  cases hcell

theorem Tables.seen (h : s.Tables t) {m : Reads} {x : Read V} (hk : s.core.values.Known x.signal)
    (hle : ∀ slot ∈ m.keys, m.revision slot ≤ s.core.revisions slot)
    (hx : x.Seen s.core s.writes m) : x.Seen t.core t.writes m := by
  unfold Read.Seen at hx ⊢
  split at hx
  · exact ⟨hx.1, h.released hk hx.2⟩
  · intro cell' hcell'
    obtain ⟨cell, hcell, hcontent⟩ := h.cell _ cell' hk hcell'
    obtain ⟨hkeys, hcur⟩ := hx cell hcell
    refine ⟨hkeys, fun heq => ?_⟩
    rw [hcontent, h.writes]
    exact hcur (le_antisymm ((h.revisions _).trans heq.le) (hle _ hkeys))

theorem Tables.current (h : s.Tables t) {x : Read V} (hk : s.core.values.Known x.signal)
    (hx : x.Current s.core s.writes) : x.Current t.core t.writes := by
  unfold Read.Current at hx ⊢
  split at hx
  · exact ⟨hx.1, h.released hk hx.2⟩
  · intro cell' hcell'
    obtain ⟨cell, hcell, hcontent⟩ := h.cell _ cell' hk hcell'
    rw [hcontent, h.writes]
    exact hx cell hcell

theorem Tables.seenAll (h : s.Tables t) {reads : List (Read V)} {m : Reads}
    (hx : SeenAll s.core s.writes reads m) : SeenAll t.core t.writes reads m where
  known := fun x hm => h.known _ (hx.known x hm)
  seen := fun x hm => h.seen (hx.known x hm) hx.older (hx.seen x hm)
  older := fun slot hslot => (hx.older slot hslot).trans (h.revisions slot)

theorem Tables.published [BEq V] (h : s.Tables t) {output : Option Signal} {result : Option V}
    (hk : ∀ out ∈ output, s.core.values.Known out) (hp : s.core.Published output result) :
    t.core.Published output result := by
  intro out ho cell' hcell'
  obtain ⟨cell, hcell, hcontent⟩ := h.cell out cell' (hk out ho) hcell'
  rw [hcontent]
  exact hp out ho cell hcell

theorem Tables.settled [BEq V] (h : s.Tables t) {old new : Observer V} {run : Run V}
    (hlatest : new.latest = old.latest) (hout : new.output = old.output)
    (hdeps : new.dependencies = old.dependencies)
    (hk : ∀ out ∈ old.output, s.core.values.Known out)
    (hs : Settled s.core s.writes old run) : Settled t.core t.writes new run where
  latest := hlatest.trans hs.latest
  known := fun x hx => h.known _ (hs.known x hx)
  current := fun x hx => h.current (hs.known x hx) (hs.current x hx)
  ended := fun x hx => by rw [h.writes]; exact hs.ended x hx
  subscribed := by
    intro x hx hlive
    rw [hdeps]
    refine hs.subscribed x hx fun hnone => hlive ?_
    exact h.released (hs.known x hx) hnone
  published := by
    rw [hout]
    exact h.published hk hs.published

theorem known_of_slot {c : Core V} (hk : c.KnownOutputs) {o : Nat}
    {observer : Observer V} (ho : c.observers.slots o = some observer) :
    ∀ out ∈ observer.output, c.values.Known out := by
  intro out hout
  have hrole := Core.role_of_slot ho
  rw [Option.mem_def.mp hout] at hrole
  exact hk o out observer.kind hrole

theorem Tracked.still (h : s.Tracked) (hst : s.Still t) : t.Tracked := by
  unfold State.Tracked at h ⊢
  rw [hst.opened, hst.reads]
  exact h.imp fun _ _ hx => hst.seenAll hx

theorem UpToDate.tables [BEq V] (h : s.UpToDate) (hk : s.core.KnownOutputs) (ht : s.Tables t) :
    t.UpToDate := by
  intro o new hnew
  have hlive : t.core.observers.slots o ≠ none := by simp [hnew]
  rcases ht.observers o new hnew with hrun | ⟨old, hold, hlatest, hout, hdeps⟩
  · exact Or.inr (Or.inl hrun)
  · rcases h o old hold with hd | hrun | ⟨run, hs⟩
    · rcases ht.dirty o hlive hd with hd | hrun
      · exact Or.inl hd
      · exact Or.inr (Or.inl hrun)
    · exact Or.inr (Or.inl (ht.running o hlive hrun))
    · exact Or.inr (Or.inr ⟨run, ht.settled hlatest hout hdeps (known_of_slot hk hold) hs⟩)

/-! ### Writes -/

/-- A write makes every reader dirty. -/
def written (s : State V) (r : Signal) (value : V) : State V :=
  { s with
    core := (s.core.setCell r ⟨some value, false⟩).changed r.slot
    writes := Function.update s.writes r (s.writes r + 1) }

theorem still_written {r : Signal} {cell : Cell V} (hr : s.core.values.find? r = some cell)
    (value : V) : (s.written r value).Still ((s.write r (some value)).changed r.slot) := by
  have hstill := still_changed_flush (s.write r (some value)) r.slot
  have heq : ({ s.write r (some value) with
      core := (s.write r (some value)).core.changed r.slot } : State V) = s.written r value := by
    simp [State.write, hr, State.written]
  rw [heq] at hstill
  exact hstill

theorem revisions_written (r : Signal) (value : V) (slot : Nat) :
    s.core.revisions slot ≤ (s.written r value).core.revisions slot := by
  show _ ≤ Function.update s.core.revisions r.slot (s.core.revisions r.slot + 1) slot
  by_cases he : slot = r.slot
  · rw [he, Function.update_self]
    exact Nat.le_succ _
  · rw [Function.update_of_ne he]

/-- A change without a write: readers become dirty for nothing. -/
theorem still_changed (s : State V) (slot : Nat) : s.Still (s.changed slot) := by
  have hcore : s.Still { s with core := s.core.changed slot } := by
    refine ⟨⟨fun _ hr => hr, fun _ cell _ hfind => ⟨cell, hfind, rfl⟩, fun slot' => ?_, rfl, ?_, ?_, ?_⟩,
      rfl, rfl⟩
    · show _ ≤ Function.update s.core.revisions slot (s.core.revisions slot + 1) slot'
      by_cases he : slot' = slot
      · rw [he, Function.update_self]
        exact Nat.le_succ _
      · rw [Function.update_of_ne he]
    · exact fun _ old ho => Or.inr ⟨old, ho, rfl, rfl, rfl⟩
    · exact fun _ _ hd => Or.inl (Finset.mem_union_left _ hd)
    · exact fun _ _ hrun => hrun
  exact hcore.trans (still_changed_flush s slot)

section Written

variable {r : Signal} {cell : Cell V} {value : V} (hr : s.core.values.find? r = some cell)

include hr

/-- What another handle names is left alone. -/
theorem find?_written {r' : Signal} (hne : r' ≠ r) {cell' : Cell V} :
    (s.written r value).core.values.find? r' = some cell' ↔
      s.core.values.find? r' = some cell' ∧ r'.slot ≠ r.slot := by
  have hset : (s.written r value).core.values.find? r' =
      (s.core.values.set r.slot ⟨some value, false⟩).find? r' := rfl
  rw [hset]
  by_cases hslot : r'.slot = r.slot
  · have hlive : s.core.values.slots r.slot ≠ none := by simp [(Arena.find?_some hr).2]
    have hnone : s.core.values.find? r' = none := by
      by_contra hsome
      obtain ⟨c, hc⟩ := Option.ne_none_iff_exists'.mp hsome
      exact hne (Arena.eq_of_find? hc hr hslot)
    rw [(Arena.find?_set_eq_none hlive _).mpr hnone]
    simp [hslot]
  · rw [Arena.find?_set_of_ne hslot]
    simp [hslot]

theorem find?_written_self :
    (s.written r value).core.values.find? r = some ⟨some value, false⟩ :=
  Arena.find?_set_self (by simp [hr]) _

theorem released_written {r' : Signal} (hr' : s.core.values.find? r' = none) :
    (s.written r value).core.values.find? r' = none := by
  have hne : r' ≠ r := by
    rintro rfl
    rw [hr] at hr'
    cases hr'
  by_contra hsome
  obtain ⟨c, hc⟩ := Option.ne_none_iff_exists'.mp hsome
  have hold := ((find?_written hr hne).mp hc).1
  rw [hr'] at hold
  cases hold

/-- A reaction that is under way has seen an older revision. -/
theorem seen_written {m : Reads} {x : Read V}
    (hle : ∀ slot ∈ m.keys, m.revision slot ≤ s.core.revisions slot)
    (hx : x.Seen s.core s.writes m) :
    x.Seen (s.written r value).core (s.written r value).writes m := by
  unfold Read.Seen at hx ⊢
  split at hx
  · exact ⟨hx.1, released_written hr hx.2⟩
  · intro cell' hcell'
    by_cases he : x.signal = r
    · rw [he] at hx ⊢
      obtain ⟨hkeys, -⟩ := hx cell hr
      have hrev : (s.written r value).core.revisions r.slot = s.core.revisions r.slot + 1 :=
        Function.update_self _ _ _
      have hold := hle _ hkeys
      exact ⟨hkeys, fun heq => absurd heq (by omega)⟩
    · obtain ⟨hold, hslot⟩ := (find?_written hr he).mp hcell'
      have hrev : (s.written r value).core.revisions x.signal.slot =
          s.core.revisions x.signal.slot := Function.update_of_ne hslot _ _
      have hwrites : (s.written r value).writes x.signal = s.writes x.signal :=
        Function.update_of_ne he _ _
      rw [hrev, hwrites]
      exact hx cell' hold

theorem Tracked.written (h : s.Tracked) : (s.written r value).Tracked :=
  List.Forall₂.imp (fun _ _ hx => ⟨hx.known, fun x hm => seen_written hr hx.older (hx.seen x hm),
    fun slot hslot => (hx.older slot hslot).trans (revisions_written r value slot)⟩) h

/-- A settled observer that does not become dirty has not read the signal. -/
theorem settled_written [BEq V] (hl : s.core.Linked) {o : Nat} {observer : Observer V} {run : Run V}
    (ho : s.core.observers.slots o = some observer) (hclean : o ∉ (s.written r value).core.dirty)
    (hout : observer.output ≠ some r) (hs : Settled s.core s.writes observer run) :
    Settled (s.written r value).core (s.written r value).writes observer run := by
  have hunread : ∀ x ∈ run.reads, x.signal ≠ r := by
    intro x hx he
    refine hclean (Finset.mem_union_right _ ?_)
    refine (hl.subscribed r.slot o).mpr ⟨observer, ho, ?_⟩
    have hsub := hs.subscribed x hx (by rw [he, hr]; simp)
    rwa [he] at hsub
  have hwrites : ∀ x ∈ run.reads, (s.written r value).writes x.signal = s.writes x.signal :=
    fun x hx => Function.update_of_ne (hunread x hx) _ _
  constructor
  · exact hs.latest
  · exact hs.known
  · intro x hx
    have hcur := hs.current x hx
    unfold Read.Current at hcur ⊢
    split at hcur
    · exact ⟨hcur.1, released_written hr hcur.2⟩
    · intro cell' hcell'
      rw [hwrites x hx]
      exact hcur cell' ((find?_written hr (hunread x hx)).mp hcell').1
  · intro x hx
    rw [hwrites x hx]
    exact hs.ended x hx
  · intro x hx hlive
    exact hs.subscribed x hx fun hnone => hlive (released_written hr hnone)
  · intro out hmem cell' hcell'
    have hne : out ≠ r := by
      rintro rfl
      exact hout hmem
    exact hs.published out hmem cell' ((find?_written hr hne).mp hcell').1

/-- The output of an observer is written while the observer runs. -/
theorem UpToDate.written [BEq V] (h : s.UpToDate) (hl : s.core.Linked)
    (hout : ∀ o observer, s.core.observers.slots o = some observer → observer.output = some r →
      s.Running o) : (s.written r value).UpToDate := by
  intro o observer ho
  have ho' : s.core.observers.slots o = some observer := ho
  by_cases hclean : o ∈ (s.written r value).core.dirty
  · exact Or.inl hclean
  · right
    rcases h o observer ho' with hd | hrun | ⟨run, hs⟩
    · exact absurd (Finset.mem_union_left _ hd) hclean
    · exact Or.inl hrun
    · by_cases he : observer.output = some r
      · exact Or.inl (hout o observer ho' he)
      · exact Or.inr ⟨run, settled_written hr hl ho' hclean he hs⟩

end Written

end State

end Deka.Reactive
