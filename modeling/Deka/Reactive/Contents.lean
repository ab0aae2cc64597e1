/-
Deka/Reactive/Contents.lean

A handle that was given out never reads an empty cell.

The cell of a derived value is empty until its first run publishes, and its handle is
given out after that.  `State.Filled.pending` is the reason: an output without content
has a run under way that will publish it, and below the `observe` that will hand it out
no frame knows it.
-/
import Deka.Reactive.Derived

namespace Deka.Reactive

open Deka.Lib

variable {V : Type}

/-- An output to be handed out is not mentioned below. -/
def Unmentioned (stack : List (Frame V)) : Prop :=
  stack.Pairwise fun f g => ∀ e out, f = .installing e (some out) → g.output ≠ some out

structure State.Filled (s : State V) : Prop where
  signals : ∀ r ∈ s.signals, ∀ cell, s.core.values.find? r = some cell → cell.content ≠ none
  deriveds : ∀ r ∈ s.deriveds, ∀ cell, s.core.values.find? r = some cell → cell.content ≠ none
  pending : ∀ o out k cell, s.core.role o = some (some out, k) →
    s.core.values.find? out = some cell → cell.content = none →
    ∃ f ∈ s.stack, f.isRun = true ∧ f.output = some out
  fresh : Unmentioned s.stack

/-- Cells may be released or filled. -/
def Core.Fills (c d : Core V) : Prop :=
  ∀ r cell', c.values.Known r → d.values.find? r = some cell' →
    ∃ cell, c.values.find? r = some cell ∧ (cell.content ≠ none → cell'.content ≠ none)

theorem Core.Fills.same {c d : Core V} (h : d.values = c.values) : c.Fills d :=
  fun r cell' _ hr => ⟨cell', by rw [← h]; exact hr, id⟩

theorem Core.fills_setCell {c : Core V} {r : Signal} {old new : Cell V}
    (hr : c.values.find? r = some old) (hn : old.content ≠ none → new.content ≠ none) :
    c.Fills (c.setCell r new) := by
  intro r' cell' _ hr'
  by_cases hs : r'.slot = r.slot
  · have hlive : c.values.slots r.slot ≠ none := by simp [(Arena.find?_some hr).2]
    have hsome : c.values.find? r' ≠ none := by
      rw [Ne, ← Arena.find?_set_eq_none hlive new]
      intro hnone
      have hr'' : (c.values.set r.slot new).find? r' = some cell' := hr'
      rw [hnone] at hr''
      cases hr''
    obtain ⟨cell, hcell⟩ := Option.ne_none_iff_exists'.mp hsome
    have heq := Arena.eq_of_find? hcell hr hs
    subst heq
    have hnew : (c.values.set r'.slot new).find? r' = some new := Arena.find?_set_self hsome new
    have hr'' : (c.values.set r'.slot new).find? r' = some cell' := hr'
    rw [hnew] at hr''
    cases hr''
    exact ⟨old, hr, hn⟩
  · have hr'' : (c.values.set r.slot new).find? r' = some cell' := hr'
    rw [Arena.find?_set_of_ne hs] at hr''
    exact ⟨cell', hr'', id⟩

theorem Core.fills_release (c : Core V) (slot : Nat) : c.Fills (c.release slot) := by
  intro r cell' _ hr
  have hr' : (c.values.erase slot).find? r = some cell' := hr
  rw [Arena.find?_erase] at hr'
  split at hr'
  · cases hr'
  · exact ⟨cell', hr', id⟩

theorem Unmentioned.push {f : Frame V} {stack : List (Frame V)} (h : Unmentioned stack)
    (hf : ∀ e out, f = .installing e (some out) → ∀ g ∈ stack, g.output ≠ some out) :
    Unmentioned (f :: stack) :=
  List.pairwise_cons.mpr ⟨fun g hg e out he => hf e out he g hg, h⟩

theorem Unmentioned.tail {f : Frame V} {stack : List (Frame V)} (h : Unmentioned (f :: stack)) :
    Unmentioned stack :=
  (List.pairwise_cons.mp h).2

namespace State

variable {s t : State V} {stack : List (Frame V)} {f : Frame V}

/-- Every run that is to publish is still under way. -/
structure Fills (s t : State V) : Prop where
  roles : s.core.SameRoles t.core
  contents : s.core.Fills t.core
  signals : t.signals = s.signals
  deriveds : t.deriveds = s.deriveds
  runs : ∀ f ∈ s.stack, f.isRun = true → ∀ out, f.output = some out →
    ∃ g ∈ t.stack, g.isRun = true ∧ g.output = some out
  fresh : Unmentioned s.stack → Unmentioned t.stack

theorem Fills.trans {u : State V} (h : s.Fills t) (h' : t.Fills u) : s.Fills u where
  roles := ⟨fun o x hx => h.roles.role o x (h'.roles.role o x hx),
    h'.roles.generations.trans h.roles.generations,
    fun r hr => h'.roles.known r (h.roles.known r hr)⟩
  contents := by
    intro r cell'' hknown hr
    obtain ⟨cell', hr', hfill'⟩ := h'.contents r cell'' (h.roles.known r hknown) hr
    obtain ⟨cell, hr, hfill⟩ := h.contents r cell' hknown hr'
    exact ⟨cell, hr, fun hc => hfill' (hfill hc)⟩
  signals := h'.signals.trans h.signals
  deriveds := h'.deriveds.trans h.deriveds
  runs := by
    intro f hf hrun out hout
    obtain ⟨g, hg, hrun', hout'⟩ := h.runs f hf hrun out hout
    exact h'.runs g hg hrun' out hout'
  fresh := fun hfresh => h'.fresh (h.fresh hfresh)

theorem Fills.core {d : Core V} (hr : s.core.SameRoles d) (hc : s.core.Fills d) :
    s.Fills { s with core := d } :=
  ⟨hr, hc, rfl, rfl, fun f hf hrun _ hout => ⟨f, hf, hrun, hout⟩, id⟩

theorem Fills.push (hf : ∀ e out, f ≠ Frame.installing e (some out)) :
    s.Fills { s with stack := f :: s.stack } :=
  ⟨.same rfl fun _ hr => hr, .same rfl, rfl, rfl,
    fun g hg hrun _ hout => ⟨g, List.mem_cons_of_mem _ hg, hrun, hout⟩,
    fun hfresh => hfresh.push fun e out he => absurd he (hf e out)⟩

/-- A frame that is to publish nothing goes. -/
theorem Fills.pop (hs : s.stack = f :: stack) (hf : f.isRun = true → f.output = none) :
    s.Fills { s with stack := stack } where
  roles := .same rfl fun _ hr => hr
  contents := .same rfl
  signals := rfl
  deriveds := rfl
  runs := by
    intro g hg hrun out hout
    rw [hs] at hg
    rcases List.mem_cons.mp hg with rfl | hg
    · rw [hf hrun] at hout
      cases hout
    · exact ⟨g, hg, hrun, hout⟩
  fresh := by
    intro hfresh
    rw [hs] at hfresh
    exact hfresh.tail

theorem fills_refl (s : State V) : s.Fills s :=
  ⟨.same rfl fun _ hr => hr, .same rfl, rfl, rfl,
    fun f hf hrun _ hout => ⟨f, hf, hrun, hout⟩, id⟩

theorem fills_flush (s : State V) : s.Fills s.flush := by
  unfold State.flush
  split
  · exact fills_refl s
  · exact (Fills.push (f := .flushing []) (by simp)).trans
      (.core (.same rfl fun _ hr => hr) (.same rfl))

theorem fills_changed (s : State V) (slot : Nat) : s.Fills (s.changed slot) := by
  have hcore : s.Fills { s with core := s.core.changed slot } :=
    .core (.same rfl fun _ hr => hr) (.same rfl)
  unfold State.changed
  split
  · exact hcore
  · exact hcore.trans (fills_flush _)

theorem fills_write (s : State V) (r : Signal) (value : V) : s.Fills (s.write r (some value)) := by
  unfold State.write
  split
  · exact fills_refl s
  · rename_i cell hfind
    have hcore : s.Fills { s with core := s.core.setCell r ⟨some value, false⟩ } :=
      .core (.same rfl fun _ hr => hr) (Core.fills_setCell hfind (by simp))
    exact ⟨hcore.roles, hcore.contents, rfl, rfl, hcore.runs, hcore.fresh⟩

theorem fills_publish [BEq V] (s : State V) (output : Signal) (next : V) :
    s.Fills (s.publish output next) := by
  unfold State.publish
  split
  · exact fills_refl s
  · split
    · exact fills_refl s
    · exact (fills_write _ _ _).trans (fills_changed _ _)

theorem output_logRead {entry : Read V} {stack : List (Frame V)} :
    (logRead entry stack).map Frame.output = stack.map Frame.output ∧
      (logRead entry stack).map Frame.isRun = stack.map Frame.isRun := by
  induction stack with
  | nil => exact ⟨rfl, rfl⟩
  | cons top stack ih =>
      cases top with
      | evaluating => exact ⟨rfl, rfl⟩
      | leaving => exact ⟨rfl, rfl⟩
      | _ => simp [logRead, ih]

theorem runs_logRead {entry : Read V} {stack : List (Frame V)} {f : Frame V}
    (hf : f ∈ stack) : ∃ g ∈ logRead entry stack, g.isRun = f.isRun ∧ g.output = f.output := by
  induction stack with
  | nil => cases hf
  | cons top stack ih =>
      cases top with
      | evaluating e output reads =>
          rcases List.mem_cons.mp hf with rfl | hf
          · exact ⟨_, List.mem_cons_self, rfl, rfl⟩
          · exact ⟨f, List.mem_cons_of_mem _ hf, rfl, rfl⟩
      | leaving e reads result =>
          rcases List.mem_cons.mp hf with rfl | hf
          · exact ⟨_, List.mem_cons_self, rfl, rfl⟩
          · exact ⟨f, List.mem_cons_of_mem _ hf, rfl, rfl⟩
      | _ =>
          rcases List.mem_cons.mp hf with rfl | hf
          · exact ⟨_, List.mem_cons_self, rfl, rfl⟩
          · obtain ⟨g, hg, hkind⟩ := ih hf
            exact ⟨g, List.mem_cons_of_mem _ hg, hkind⟩

theorem unmentioned_logRead {entry : Read V} {stack : List (Frame V)} (h : Unmentioned stack) :
    Unmentioned (logRead entry stack) := by
  induction stack with
  | nil => exact h
  | cons top stack ih =>
      have htail := ih h.tail
      have hhead : ∀ e out, top = .installing e (some out) →
          ∀ g ∈ logRead entry stack, g.output ≠ some out := by
        intro e out he g hg hout
        have hmem : g.output ∈ (logRead entry stack).map Frame.output := List.mem_map_of_mem hg
        rw [output_logRead.1, hout] at hmem
        obtain ⟨k, hk, hk'⟩ := List.mem_map.mp hmem
        exact (List.pairwise_cons.mp h).1 k hk e out he hk'
      cases top with
      | evaluating => exact h.tail.push (by simp)
      | leaving => exact h.tail.push (by simp)
      | _ => exact htail.push hhead

theorem fills_read (s : State V) (r : Signal) : s.Fills (s.read r) := by
  have hlog : s.Fills { s with stack := logRead ⟨r, s.core.tryGet r, s.writes r⟩ s.stack } := by
    refine ⟨.same rfl fun _ hr => hr, .same rfl, rfl, rfl, fun f hf hrun out hout => ?_,
      unmentioned_logRead⟩
    obtain ⟨g, hg, hrun', hout'⟩ := runs_logRead hf
    exact ⟨g, hg, hrun'.trans hrun, hout'.trans hout⟩
  unfold State.read
  split
  · exact hlog
  · exact hlog.trans (.core (.same rfl fun _ hr => hr) (.same rfl))

theorem fills_evaluate (s : State V) (slot : Nat) : s.Fills (s.evaluate slot) := by
  unfold State.evaluate
  split
  · exact fills_refl s
  · rename_i observer hslot
    have hroles : s.core.SameRoles { s.core with
        observers := s.core.observers.set slot { observer with runOwner := none } } :=
      ⟨fun o x hx => (roleIn_set hslot { observer with runOwner := none } rfl rfl o).symm.trans hx,
        rfl, fun _ hr => hr⟩
    have hstart : s.Fills { s with stack := .starting slot observer.output :: s.stack } :=
      .push (by simp)
    have hdrop := hstart.trans
      (.push (f := .dropping (observer.runOwner.getD .empty).items) (by simp))
    exact hdrop.trans (.core hroles (.same rfl))

theorem fills_dispose (s : State V) (slot : Nat) :
    s.Fills { s with core := (s.core.disposeObserver slot).2 } :=
  .core (s.core.sameRoles_dispose slot) (.same (Core.values_disposeObserver _ _))

theorem fills_settle (s : State V) (e : Effect) (owner : Owned) : s.Fills (s.settle e owner) := by
  unfold State.settle
  split
  · exact .push (by simp)
  · rename_i observer hfind
    exact .core ⟨fun o x hx => (roleIn_set (Arena.find?_some hfind).2
      { observer with runOwner := some owner } rfl rfl o).symm.trans hx, rfl, fun _ hr => hr⟩
      (.same rfl)

theorem fills_capture (s : State V) (e : Effect) (latest : Option (Run V)) :
    s.Fills (s.leave e latest).2 := by
  have hroles := s.core.sameRoles_capture e latest
  refine .core ⟨hroles.role, hroles.generations, hroles.known⟩ (.same ?_)
  exact Core.values_capture _ _ _

/-! ### Every calm run -/

theorem Filled.initial : (initial : State V).Filled where
  signals := by simp [State.initial]
  deriveds := by simp [State.initial]
  pending := by simp [Core.role, roleIn, State.initial, Core.empty, Arena.empty]
  fresh := List.Pairwise.nil

theorem Filled.fills (h : s.Filled) {gone : Gone} (hi : s.Inv gone 0) (hm : s.Made)
    (hf : s.Fills t) : t.Filled where
  signals := by
    intro r hr cell' hcell'
    rw [hf.signals] at hr
    obtain ⟨cell, hcell, hfill⟩ := hf.contents r cell' (hi.signals_known r hr) hcell'
    exact hfill (h.signals r hr cell hcell)
  deriveds := by
    intro r hr cell' hcell'
    rw [hf.deriveds] at hr
    obtain ⟨cell, hcell, hfill⟩ := hf.contents r cell' (hi.deriveds_known r hr) hcell'
    exact hfill (h.deriveds r hr cell hcell)
  pending := by
    intro o out k cell' hrole hcell' hnone
    have hrole' := hf.roles.role o _ hrole
    obtain ⟨cell, hcell, hfill⟩ := hf.contents out cell' (hm.owns o out k hrole').known hcell'
    have hempty : cell.content = none := by
      by_contra hc
      exact hfill hc hnone
    obtain ⟨f, hmem, hrun, hout⟩ := h.pending o out k cell hrole' hcell hempty
    exact hf.runs f hmem hrun out hout
  fresh := hf.fresh h.fresh

/-- A live output that is handed out has a content. -/
theorem Filled.install (h : s.Filled) (ho : s.Owning) (hsh : s.Shaped) {e : Effect}
    {out : Signal} (hs : s.stack = .installing e (some out) :: stack) {cell : Cell V}
    (hcell : s.core.values.find? out = some cell) : cell.content ≠ none := by
  intro hnone
  have hmem : Frame.installing e (some out) ∈ s.stack := by
    rw [hs]
    exact List.mem_cons_self
  have hstacked := hsh.stacked
  have hfresh := h.fresh
  rw [hs] at hstacked hfresh
  rcases ho.alive out (Or.inr ⟨e, hmem⟩) (by simp [hcell]) with ⟨o, k, hrole⟩ | ⟨items, hitems, -⟩
  · obtain ⟨f, hf, hrun, hout⟩ := h.pending o out k cell hrole hcell hnone
    rw [hs] at hf
    rcases List.mem_cons.mp hf with rfl | hf
    · cases hrun
    · exact (List.pairwise_cons.mp hfresh).1 f hf e out rfl hout
  · rw [hs] at hitems
    rcases List.mem_cons.mp hitems with hitems | hitems
    · cases hitems
    · exact hstacked.dropping_top hitems

@[simp] theorem changed_values (s : State V) (slot : Nat) :
    (s.changed slot).core.values = s.core.values := by
  unfold State.changed State.flush
  split
  · rfl
  · split <;> rfl

/-- A published output has the result as its content. -/
theorem publish_content [BEq V] (s : State V) (output : Signal) (next : V) {cell : Cell V}
    (h : (s.publish output next).core.values.find? output = some cell) :
    ∃ v, cell.content = some v ∧ (v = next ∨ (v == next) = true) := by
  unfold State.publish at h
  split at h
  · rename_i hnone
    rw [hnone] at h
    cases h
  · rename_i old hold
    split at h
    · rename_i heq
      rw [hold] at h
      cases h
      cases hcontent : cell.content with
      | none =>
          rw [hcontent] at heq
          cases heq
      | some v =>
          rw [hcontent] at heq
          exact ⟨v, rfl, Or.inr heq⟩
    · have hwrite : (s.write output (some next)).core.values.find? output =
          some ⟨some next, false⟩ := by
        simp only [State.write, hold]
        exact Arena.find?_set_self (by simp [hold]) _
      rw [changed_values, hwrite] at h
      cases h
      exact ⟨next, rfl, Or.inl rfl⟩

/-- A new derived value has no content, but its first run is under way. -/
theorem Filled.observe (h : s.Filled) {kind : Kind} {output : Option Signal}
    (hfresh : ∀ out ∈ output, s.Fresh out) : (s.observe kind output).Filled := by
  have hevaluate := fills_evaluate (s.register kind output) (s.core.register kind output).1.slot
  have hslot : (s.register kind output).core.observers.slots (s.core.register kind output).1.slot =
      some ⟨output, ∅, kind, none, none⟩ := by
    show (s.core.observers.insert _).2.slots (s.core.observers.insert _).1.slot = _
    rw [Arena.insert_slots]
    exact Function.update_self _ _ _
  have hvalues : (s.observe kind output).core.values = s.core.values := by
    unfold State.observe State.evaluate
    split <;> rfl
  have hhandles : (s.observe kind output).signals = s.signals ∧
      (s.observe kind output).deriveds = s.deriveds := by
    unfold State.observe State.evaluate
    split <;> exact ⟨rfl, rfl⟩
  have hstart : .starting (s.core.register kind output).1.slot output ∈
      (s.observe kind output).stack := by
    unfold State.observe State.evaluate
    rw [hslot]
    exact List.mem_cons_of_mem _ List.mem_cons_self
  have hregister : Unmentioned (s.register kind output).stack := by
    refine h.fresh.push fun e out he g hg => ?_
    cases he
    exact (hfresh out rfl).frames g hg
  constructor
  · rw [hhandles.1, hvalues]
    exact h.signals
  · rw [hhandles.2, hvalues]
    exact h.deriveds
  · intro o out k cell hrole hcell hnone
    rw [hvalues] at hcell
    have hrole' : (s.core.register kind output).2.role o = some (some out, k) :=
      hevaluate.roles.role o _ hrole
    rw [role_register] at hrole'
    split at hrole'
    · cases hrole'
      exact ⟨_, hstart, rfl, rfl⟩
    · obtain ⟨f, hf, hrun, hout⟩ := h.pending o out k cell hrole' hcell hnone
      exact hevaluate.runs f (List.mem_cons_of_mem _ hf) hrun out hout
  · exact hevaluate.fresh hregister

/-- A new cell belongs to no observer yet. -/
theorem Filled.allocate (h : s.Filled) {gone : Gone} (hi : s.Inv gone 0) (hm : s.Made)
    (value : Option V) : { s with core := (s.core.allocate value).2 }.Filled := by
  have hfind : ∀ {r}, s.core.values.Known r →
      (s.core.allocate value).2.values.find? r = s.core.values.find? r :=
    fun hr => Arena.WellFormed.find?_insert hi.linked.values hr _
  constructor
  · intro r hr cell hcell
    exact h.signals r hr cell (by rw [← hfind (hi.signals_known r hr)]; exact hcell)
  · intro r hr cell hcell
    exact h.deriveds r hr cell (by rw [← hfind (hi.deriveds_known r hr)]; exact hcell)
  · intro o out k cell hrole hcell hnone
    have hknown := (hm.owns o out k hrole).known
    exact h.pending o out k cell hrole (by rw [← hfind hknown]; exact hcell) hnone
  · exact h.fresh

theorem Filled.signal (h : s.Filled) {gone : Gone} (hi : s.Inv gone 0) (hm : s.Made)
    (value : V) : (s.signal value).Filled := by
  have hallocate := h.allocate hi hm (some value)
  constructor
  · intro r hr cell hcell
    rcases Finset.mem_insert.mp hr with rfl | hr
    · have hself : (s.core.values.insert ⟨some value, false⟩).2.find?
          (s.core.values.insert ⟨some value, false⟩).1 = some cell := hcell
      rw [Arena.find?_insert_self] at hself
      cases hself
      simp
    · exact hallocate.signals r hr cell hcell
  · exact hallocate.deriveds
  · exact hallocate.pending
  · exact hallocate.fresh

theorem fills_issue {e : Effect} : s.Fills { s with effects := insert e s.effects } :=
  ⟨.same rfl fun _ hr => hr, .same rfl, rfl, rfl,
    fun f hf hrun _ hout => ⟨f, hf, hrun, hout⟩, id⟩

/-- The body of a derived value returns and its output has a content. -/
theorem Filled.finish [BEq V] (h : s.Filled) {gone : Gone} (hi : s.Inv gone 0) (hm : s.Made)
    {e : Effect} {output : Signal} {reads : List (Read V)} (next : V)
    (hs : s.stack = .evaluating e (some output) reads :: stack) :
    ({ s with stack := .leaving e reads (some next) :: stack }.publish output next).Filled := by
  have hpublish := fills_publish { s with stack := .leaving e reads (some next) :: stack } output next
  have hsame : s.core.SameRoles
      ({ s with stack := .leaving e reads (some next) :: stack }.publish output next).core :=
    hpublish.roles
  have hfresh : Unmentioned (.leaving e reads (some next) :: stack) := by
    have hfresh := h.fresh
    rw [hs] at hfresh
    exact hfresh.tail.push (by simp)
  constructor
  · intro r hr cell' hcell'
    rw [hpublish.signals] at hr
    obtain ⟨cell, hcell, hfill⟩ := hpublish.contents r cell' (hi.signals_known r hr) hcell'
    exact hfill (h.signals r hr cell hcell)
  · intro r hr cell' hcell'
    rw [hpublish.deriveds] at hr
    obtain ⟨cell, hcell, hfill⟩ := hpublish.contents r cell' (hi.deriveds_known r hr) hcell'
    exact hfill (h.deriveds r hr cell hcell)
  · intro o out k cell' hrole hcell' hnone
    by_cases hout : out = output
    · subst hout
      obtain ⟨v, hv, -⟩ := publish_content _ _ _ hcell'
      rw [hnone] at hv
      cases hv
    · have hrole' := hsame.role o _ hrole
      obtain ⟨cell, hcell, hfill⟩ := hpublish.contents out cell' (hm.owns o out k hrole').known hcell'
      have hempty : cell.content = none := by
        by_contra hc
        exact hfill hc hnone
      obtain ⟨f, hf, hrun, hof⟩ := h.pending o out k cell hrole' hcell hempty
      rw [hs] at hf
      rcases List.mem_cons.mp hf with rfl | hf
      · cases hof
        exact absurd rfl hout
      · exact hpublish.runs f (List.mem_cons_of_mem _ hf) hrun out hof
  · exact hpublish.fresh hfresh

theorem Filled.endBatch (h : s.Filled) : s.endBatch.Filled := by
  unfold State.endBatch State.flush
  split
  · exact ⟨h.signals, h.deriveds, h.pending, h.fresh⟩
  · refine ⟨h.signals, h.deriveds, fun o out k cell hrole hcell hnone => ?_, h.fresh.push (by simp)⟩
    obtain ⟨f, hf, hrun, hout⟩ := h.pending o out k cell hrole hcell hnone
    exact ⟨f, List.mem_cons_of_mem _ hf, hrun, hout⟩

theorem fills_depth {d : Nat} : s.Fills { s with core := { s.core with depth := d } } :=
  .core (.same rfl fun _ hr => hr) (.same rfl)

theorem Filled.of_move [BEq V] {gone : Gone} (hi : s.Inv gone 0) (hm : s.Made) (ho : s.Owning)
    (hsh : s.Shaped) (h : s.Filled) {w : Bool} (hmove : Move s w t) : t.Filled := by
  cases hmove with
  | idle => exact h
  | signal value => exact h.signal hi hm value
  | derived =>
      refine (h.allocate hi hm none).observe ?_
      rintro out ⟨rfl⟩
      exact hi.fresh_allocate hm
  | effect => exact h.observe (by simp)
  | read r => exact h.fills hi hm (fills_read s r)
  | write r value cell stack hu hfind hs =>
      have hpop : s.Fills { s with stack := stack } := by
        rcases hs with ⟨rfl, -⟩ | hs
        · exact fills_refl s
        · exact .pop hs (by simp [Frame.isRun])
      exact h.fills hi hm ((hpop.trans (fills_write _ r value)).trans (fills_changed _ _))
  | late r stack hu hfind hs =>
      exact h.fills hi hm ((Fills.pop hs (by simp [Frame.isRun])).trans (fills_changed _ _))
  | beginUpdate r cell hu hfind hr =>
      have hcell : s.Fills { s with core := s.core.setCell r { cell with borrowed := true } } :=
        .core (.same rfl fun _ hr => hr) (Core.fills_setCell hfind id)
      exact h.fills hi hm (hcell.trans (.push (f := .update r) (by simp)))
  | beginBatch => exact h.fills hi hm ((Fills.push (f := .batch) (by simp)).trans fills_depth)
  | endBatch stack hu hs =>
      have hpop : s.Fills { s with stack := stack } := .pop hs (by simp [Frame.isRun])
      exact h.fills hi hm ((hpop.trans fills_depth).trans (fills_flush _))
  | beginOwned =>
      have hpush : s.Fills { s with stack := .owned :: s.stack } := .push (by simp)
      exact h.fills hi hm (hpush.trans (.core (.same rfl fun _ hr => hr) (.same rfl)))
  | endOwned stack hu hs =>
      have hpop : s.Fills { s with core := s.core.popOwner.2, stack := stack } :=
        (Fills.pop hs (by simp [Frame.isRun])).trans
          (.core (.same rfl fun _ hr => hr) (.same rfl))
      exact h.fills hi hm ⟨hpop.roles, hpop.contents, rfl, rfl, hpop.runs, hpop.fresh⟩
  | dropOwner index owner =>
      have hpush : s.Fills { s with stack := .dropping owner.items :: s.stack } := .push (by simp)
      exact h.fills hi hm ⟨hpush.roles, hpush.contents, rfl, rfl, hpush.runs, hpush.fresh⟩
  | dispose e => exact h.fills hi hm ((fills_dispose s _).trans (.push (by simp)))
  | flush => exact h.fills hi hm (fills_flush s)
  | finishEffect e reads stack hs =>
      have hpop : s.Fills { s with stack := stack } := .pop hs fun _ => rfl
      exact h.fills hi hm (hpop.trans (.push (by simp)))
  | finishDerived e output reads next stack hs => exact h.finish hi hm next hs
  | beginCatch => exact h.fills hi hm (.push (by simp))
  | endCatch stack hu hs => exact h.fills hi hm (.pop hs (by simp [Frame.isRun]))
  | dropNil stack hs => exact h.fills hi hm (.pop hs (by simp [Frame.isRun]))
  | dropEffect e items stack hs =>
      have hpop : s.Fills { s with stack := stack } := .pop hs (by simp [Frame.isRun])
      exact h.fills hi hm ((hpop.trans (fills_dispose _ _)).trans (.push (f := .dropping _) (by simp)))
  | dropStale e items stack hs =>
      have hpop : s.Fills { s with stack := stack } := .pop hs (by simp [Frame.isRun])
      exact h.fills hi hm (hpop.trans (.push (by simp)))
  | dropValue slot items stack hs =>
      have hpop : s.Fills { s with stack := stack } := .pop hs (by simp [Frame.isRun])
      have hrelease : ({ s with stack := stack } : State V).Fills
          { s with stack := stack, core := s.core.release slot } :=
        .core ⟨fun o x hx => (s.core.role_release slot o).symm.trans hx, rfl, fun _ hr => hr⟩
          (Core.fills_release _ _)
      exact h.fills hi hm ((hpop.trans hrelease).trans (.push (f := .dropping items) (by simp)))
  | start slot output stack hs =>
      refine h.fills hi hm ⟨.same rfl fun _ hr => hr, .same rfl, rfl, rfl, fun f hf hrun out hout => ?_,
        fun hfresh => ?_⟩
      · rw [hs] at hf
        rcases List.mem_cons.mp hf with rfl | hf
        · exact ⟨_, List.mem_cons_self, rfl, hout⟩
        · exact ⟨f, List.mem_cons_of_mem _ hf, hrun, hout⟩
      · rw [hs] at hfresh
        exact hfresh.tail.push (by simp)
  | leave e reads result stack hs =>
      have hpop : s.Fills { s with stack := stack } := .pop hs fun _ => rfl
      exact h.fills hi hm ((hpop.trans (fills_capture _ _ _)).trans (fills_settle _ _ _))
  | install e output stack hu hs =>
      have hpop : s.Fills { s with stack := stack } := .pop hs (by simp [Frame.isRun])
      have hissue : ({ s with stack := stack }.issue e output).Filled := by
        cases output with
        | none => exact h.fills hi hm (hpop.trans fills_issue)
        | some out =>
            have hpopped := h.fills hi hm hpop
            constructor
            · exact hpopped.signals
            · intro r hr cell hcell
              rcases Finset.mem_insert.mp hr with rfl | hr
              · exact h.install ho hsh hs hcell
              · exact hpopped.deriveds r hr cell hcell
            · exact hpopped.pending
            · exact hpopped.fresh
      exact hissue.endBatch
  | rest turns stack hs =>
      have hpop : s.Fills { s with stack := stack } := .pop hs (by simp [Frame.isRun])
      exact h.fills hi hm (hpop.trans (.core (.same rfl fun _ hr => hr) (.same rfl)))
  | turn turns slot stack hs =>
      have hpop : s.Fills { s with stack := stack } := .pop hs (by simp [Frame.isRun])
      have hpush := hpop.trans (.push (f := .flushing (turns ++ [s.pick slot])) (by simp))
      have hcore := hpush.trans
        (.core (d := { s.core with dirty := s.core.dirty.erase slot }) (.same rfl fun _ hr => hr) (.same rfl))
      exact h.fills hi hm (hcore.trans (fills_evaluate _ slot))

end State

theorem CalmReachable.filled [BEq V] {s : State V} (h : CalmReachable s) : s.Filled :=
  h.induction State.Filled.initial fun _ _ hs hfilled _ hm =>
    hfilled.of_move hs.reachable.inv hs.made hs.owning hs.shaped hm

end Deka.Reactive
