/-
Deka/Reactive/Outputs.lean

Which reaction publishes which signal.

The output of a derived value is written by its own reaction and by nothing else: no
other observer has it, the program has no writable handle to it, and a run that is to
publish it is a run of that observer.  `Core.role` is all this depends on, so most
moves leave it alone.
-/
import Deka.Reactive.Moves

namespace Deka.Reactive

open Deka.Lib

variable {V : Type}

/-- The output and the kind of the observer in a slot. -/
def roleIn (observers : Arena (Observer V)) (o : Nat) : Option (Option Signal × Kind) :=
  (observers.slots o).map fun observer => (observer.output, observer.kind)

def Core.role (c : Core V) (o : Nat) : Option (Option Signal × Kind) := roleIn c.observers o

/-- An output that belongs to the observers `mine`. -/
structure Core.Owns (c : Core V) (signals : Finset Signal) (output : Signal) (mine : Nat → Prop) :
    Prop where
  known : c.values.Known output
  not_signal : output ∉ signals
  mine : ∀ o k, c.role o = some (some output, k) → mine o

/-- What a frame will publish or hand out is its own. -/
def Frame.Made (c : Core V) (signals : Finset Signal) : Frame V → Prop
  | .installing e output =>
      (∀ out ∈ output, c.Owns signals out fun o => e = ⟨o, c.observers.generations o⟩) ∧
        (output = none → c.observers.generations e.slot = e.generation →
          ∀ out k, c.role e.slot = some (out, k) → out = none)
  | .starting slot output => ∀ out ∈ output, c.Owns signals out fun o => slot = o
  | .evaluating e output _ =>
      ∀ out ∈ output, c.Owns signals out fun o => e = ⟨o, c.observers.generations o⟩
  | .update r => r ∈ signals
  | _ => True

/-- The signal a frame will publish or hand out. -/
def Frame.output : Frame V → Option Signal
  | .installing _ output | .starting _ output | .evaluating _ output _ => output
  | _ => none

structure State.Made (s : State V) : Prop where
  owns : ∀ o out k, s.core.role o = some (some out, k) →
    s.core.Owns s.signals out fun o' => o = o'
  kind : ∀ o out k, s.core.role o = some (out, k) → (k = .derived ↔ out ≠ none)
  effects : ∀ e ∈ s.effects, s.core.observers.generations e.slot = e.generation →
    ∀ out k, s.core.role e.slot = some (out, k) → out = none
  frames : ∀ f ∈ s.stack, f.Made s.core s.signals

/-! ### Roles -/

theorem Core.role_of_slot {c : Core V} {o : Nat} {observer : Observer V}
    (h : c.observers.slots o = some observer) :
    c.role o = some (observer.output, observer.kind) := by
  simp [Core.role, roleIn, h]

theorem roleIn_set {observers : Arena (Observer V)} {slot : Nat} {old : Observer V}
    (hs : observers.slots slot = some old) (new : Observer V) (ho : new.output = old.output)
    (hk : new.kind = old.kind) (o : Nat) :
    roleIn (observers.set slot new) o = roleIn observers o := by
  by_cases he : o = slot
  · subst he
    simp [roleIn, Arena.set, hs, ho, hk]
  · simp [roleIn, Arena.set, Function.update_of_ne he]

theorem Core.role_release (c : Core V) (slot o : Nat) : (c.release slot).role o = c.role o := by
  simp [Core.role, roleIn, Core.release, Arena.map, Function.comp_def]

theorem Core.role_dispose (c : Core V) (slot o : Nat) :
    (c.disposeObserver slot).2.role o = if o = slot then none else c.role o := by
  unfold Core.disposeObserver
  split
  · rename_i hslot
    split
    · rename_i he
      simp [Core.role, roleIn, he, hslot]
    · rfl
  · by_cases he : o = slot
    · simp [Core.role, roleIn, Arena.erase, he]
    · simp [Core.role, roleIn, Arena.erase, he]

theorem Core.role_capture (c : Core V) (e : Effect) (latest : Option (Run V)) (o : Nat) :
    (c.capture e latest).role o = c.role o := by
  unfold Core.capture Core.follow
  split
  · rfl
  · rename_i m reads hreads
    split
    · rfl
    · rename_i observer hfind
      exact roleIn_set (Arena.find?_some hfind).2
        { observer with dependencies := m.keys, latest := latest } rfl rfl o

theorem Core.generations_dispose (c : Core V) (slot : Nat) :
    (c.disposeObserver slot).2.observers.generations = c.observers.generations := by
  unfold Core.disposeObserver
  split <;> rfl

theorem Core.generations_capture (c : Core V) (e : Effect) (latest : Option (Run V)) :
    (c.capture e latest).observers.generations = c.observers.generations := by
  unfold Core.capture Core.follow
  split
  · rfl
  · split <;> rfl

/-- No role changes; some may end. -/
structure Core.SameRoles (c d : Core V) : Prop where
  role : ∀ o x, d.role o = some x → c.role o = some x
  generations : d.observers.generations = c.observers.generations
  known : ∀ r, c.values.Known r → d.values.Known r

theorem Core.SameRoles.same {c d : Core V} (ho : d.observers = c.observers)
    (hv : ∀ r, c.values.Known r → d.values.Known r) : c.SameRoles d where
  role := by
    intro o x hx
    rw [Core.role, ho] at hx
    exact hx
  generations := by rw [ho]
  known := hv

theorem Core.sameRoles_dispose (c : Core V) (slot : Nat) :
    c.SameRoles (c.disposeObserver slot).2 where
  role := by
    intro o x hx
    rw [Core.role_dispose] at hx
    split at hx
    · cases hx
    · exact hx
  generations := c.generations_dispose slot
  known := fun r hr => by rwa [Core.values_disposeObserver]

theorem Core.sameRoles_capture (c : Core V) (e : Effect) (latest : Option (Run V)) :
    c.SameRoles (c.capture e latest) where
  role := fun o x hx => (c.role_capture e latest o).symm.trans hx
  generations := c.generations_capture e latest
  known := fun r hr => by rwa [Core.values_capture]

theorem Core.Owns.same {c d : Core V} {signals : Finset Signal} {out : Signal}
    {mine : Nat → Prop} (h : c.Owns signals out mine) (hd : c.SameRoles d) :
    d.Owns signals out mine where
  known := hd.known out h.known
  not_signal := h.not_signal
  mine := fun o k hr => h.mine o k (hd.role o _ hr)

theorem Frame.Made.same {c d : Core V} {signals : Finset Signal} {f : Frame V}
    (h : f.Made c signals) (hd : c.SameRoles d) : f.Made d signals := by
  cases f with
  | installing e output =>
      refine ⟨fun out ho => ?_, fun hn hg out k hr => ?_⟩
      · have howns := (h.1 out ho).same hd
        rwa [← hd.generations] at howns
      · rw [hd.generations] at hg
        exact h.2 hn hg out k (hd.role _ _ hr)
  | starting slot output => exact fun out ho => (h out ho).same hd
  | evaluating e output reads =>
      intro out ho
      have howns := (h out ho).same hd
      rwa [← hd.generations] at howns
  | _ => exact h

theorem role_register (c : Core V) (kind : Kind) (output : Option Signal) (o : Nat) :
    (c.register kind output).2.role o =
      if o = (c.register kind output).1.slot then some (output, kind) else c.role o := by
  show roleIn (c.observers.insert _).2 o = if o = (c.observers.insert _).1.slot then _ else _
  unfold roleIn
  rw [Arena.insert_slots]
  split
  · rename_i he
    rw [he, Function.update_self, Option.map_some]
  · rename_i he
    rw [Function.update_of_ne he]
    rfl

theorem generations_register (c : Core V) (kind : Kind) (output : Option Signal) {o : Nat}
    (ho : o ≠ (c.register kind output).1.slot) :
    (c.register kind output).2.observers.generations o = c.observers.generations o := by
  show (c.observers.insert _).2.generations o = _
  rw [Arena.insert_generations]
  exact Function.update_of_ne ho _ _

theorem generation_register (c : Core V) (kind : Kind) (output : Option Signal) :
    (c.register kind output).2.observers.generations (c.register kind output).1.slot =
      (c.register kind output).1.generation := by
  show (c.observers.insert _).2.generations (c.observers.insert _).1.slot = _
  rw [Arena.insert_generations, Function.update_self]
  rfl

/-- A known reference to the new slot is of an older generation. -/
theorem register_ne {c : Core V} {kind : Kind} {output : Option Signal} {e : Effect}
    (he : c.observers.Known e)
    (hg : (c.register kind output).2.observers.generations e.slot = e.generation) :
    e.slot ≠ (c.register kind output).1.slot := by
  intro hs
  rw [hs, generation_register] at hg
  have heq : e = (c.register kind output).1 := by
    cases e
    cases hs
    cases hg
    rfl
  exact Arena.insert_fresh _ _ (heq ▸ he)

theorem Core.Owns.register {c : Core V} {signals : Finset Signal} {out : Signal}
    {mine mine' : Nat → Prop} (h : c.Owns signals out mine) {kind : Kind}
    {output : Option Signal} (hself : output = some out → mine' (c.register kind output).1.slot)
    (hmine : ∀ o, o ≠ (c.register kind output).1.slot → mine o → mine' o) :
    (c.register kind output).2.Owns signals out mine' where
  known := h.known
  not_signal := h.not_signal
  mine := by
    intro o k hr
    rw [role_register] at hr
    split at hr
    · rename_i ho
      rw [ho]
      exact hself (by simpa using congrArg (Option.map Prod.fst) hr)
    · rename_i ho
      exact hmine o ho (h.mine o k hr)

theorem Frame.Made.register {c : Core V} {signals : Finset Signal} {f : Frame V} (h : f.Made c signals)
    (hf : f.Known c) {kind : Kind} {output : Option Signal}
    (ho : ∀ out ∈ output, f.output ≠ some out) : f.Made (c.register kind output).2 signals := by
  cases f with
  | installing e output' =>
      refine ⟨fun out hout => ?_, fun hn hg out k hr => ?_⟩
      · refine (h.1 out hout).register (fun hself => absurd hout (ho out hself)) fun o hne he => ?_
        rw [he, generations_register _ _ _ hne]
      · have hne := register_ne hf.1 hg
        rw [generations_register _ _ _ hne] at hg
        rw [role_register, if_neg hne] at hr
        exact h.2 hn hg out k hr
  | starting slot output' =>
      intro out hout
      exact (h out hout).register (fun hself => absurd hout (ho out hself)) fun _ _ he => he
  | evaluating e output' reads =>
      intro out hout
      refine (h out hout).register (fun hself => absurd hout (ho out hself)) fun o hne he => ?_
      rw [he, generations_register _ _ _ hne]
  | _ => exact h

namespace State

variable {s t : State V} {stack : List (Frame V)} {f : Frame V}

theorem Made.initial : (initial : State V).Made where
  owns := by simp [Core.role, roleIn, State.initial, Core.empty, Arena.empty]
  kind := by simp [Core.role, roleIn, State.initial, Core.empty, Arena.empty]
  effects := by simp [State.initial]
  frames := by simp [State.initial]

/-- A move that gives out no handle and starts no reaction. -/
theorem Made.move (h : s.Made) (hc : s.core.SameRoles t.core) (hr : t.signals = s.signals)
    (he : t.effects = s.effects)
    (hf : ∀ g ∈ t.stack, g ∈ s.stack ∨ g.Made t.core t.signals) : t.Made where
  owns := by
    intro o out k ho
    rw [hr]
    exact (h.owns o out k (hc.role o _ ho)).same hc
  kind := fun o out k ho => h.kind o out k (hc.role o _ ho)
  effects := by
    rw [he, hc.generations]
    exact fun e hm hg out k ho => h.effects e hm hg out k (hc.role _ _ ho)
  frames := by
    intro g hg
    rcases hf g hg with hg | hg
    · rw [hr]
      exact (h.frames g hg).same hc
    · exact hg

/-- Change the tables but no role. -/
theorem Made.core (h : s.Made) {d : Core V} (hc : s.core.SameRoles d) :
    { s with core := d }.Made :=
  h.move hc rfl rfl fun _ hg => Or.inl hg

theorem Made.push (h : s.Made) (hf : f.Made s.core s.signals) :
    { s with stack := f :: s.stack }.Made := by
  refine h.move (.same rfl fun _ hr => hr) rfl rfl fun g hg => ?_
  rcases List.mem_cons.mp hg with rfl | hg
  · exact Or.inr hf
  · exact Or.inl hg

theorem Made.pop (h : s.Made) (hs : s.stack = f :: stack) : { s with stack := stack }.Made :=
  h.move (.same rfl fun _ hr => hr) rfl rfl fun g hg => Or.inl (by simp [hs, show g ∈ stack from hg])

theorem Made.flush (h : s.Made) : s.flush.Made := by
  unfold State.flush
  split
  · exact h
  · exact (h.push (f := .flushing []) trivial).core (.same rfl fun _ hr => hr)

theorem Made.changed (h : s.Made) (slot : Nat) : (s.changed slot).Made := by
  have hcore : { s with core := s.core.changed slot }.Made := h.core (.same rfl fun _ hr => hr)
  unfold State.changed
  split
  · exact hcore
  · exact hcore.flush

theorem Made.write (h : s.Made) (r : Signal) (value : Option V) : (s.write r value).Made := by
  unfold State.write
  split
  · exact h
  · exact h.move (.same rfl fun _ hr => hr) rfl rfl fun _ hg => Or.inl hg

theorem Made.evaluate (h : s.Made) (slot : Nat) : (s.evaluate slot).Made := by
  unfold State.evaluate
  split
  · exact h
  · rename_i observer hslot
    have hrole := Core.role_of_slot hslot
    have hstart : (Frame.starting slot observer.output : Frame V).Made s.core s.signals := by
      intro out ho
      rw [Option.mem_def.mp ho] at hrole
      exact h.owns slot out observer.kind hrole
    have htake : s.core.SameRoles { s.core with
        observers := s.core.observers.set slot { observer with runOwner := none } } :=
      ⟨fun o x hx =>
        (roleIn_set hslot { observer with runOwner := none } rfl rfl o).symm.trans hx, rfl, fun _ hr => hr⟩
    exact ((h.push hstart).push (f := .dropping _) trivial).core htake

/-- A signal that no observer and no frame publishes. -/
structure Fresh (s : State V) (out : Signal) : Prop where
  owns : s.core.Owns s.signals out fun _ => False
  frames : ∀ f ∈ s.stack, f.output ≠ some out

theorem Made.registerCore (h : s.Made) {kind : Kind} {output : Option Signal}
    (hk : kind = .derived ↔ output ≠ none) (ho : ∀ out ∈ output, s.Fresh out)
    (he : ∀ e ∈ s.effects, s.core.observers.Known e)
    (hf : ∀ f ∈ s.stack, f.Known s.core) :
    { s with core := (s.core.register kind output).2 }.Made where
  owns := by
    intro o out k hr
    have hr' := hr
    rw [role_register] at hr'
    split at hr'
    · rename_i hslot
      have hout : output = some out := by simpa using congrArg (Option.map Prod.fst) hr'
      exact (ho out hout).owns.register (fun _ => hslot) fun _ _ hfalse => hfalse.elim
    · rename_i hslot
      refine (h.owns o out k hr').register (fun hself => ?_) fun _ _ hmine => hmine
      exact ((ho out hself).owns.mine o k hr').elim
  kind := by
    intro o out k hr
    rw [role_register] at hr
    split at hr
    · cases hr
      exact hk
    · exact h.kind o out k hr
  effects := by
    intro e hm hg out k hr
    have hne := register_ne (he e hm) hg
    rw [generations_register _ _ _ hne] at hg
    rw [role_register, if_neg hne] at hr
    exact h.effects e hm hg out k hr
  frames := fun f hm => (h.frames f hm).register (hf f hm) fun out hout => (ho out hout).frames f hm

theorem Made.register (h : s.Made) {gone : Gone} {loose : Multiset Nat} (hi : s.Inv gone loose)
    {kind : Kind} {output : Option Signal} (hk : kind = .derived ↔ output ≠ none)
    (ho : ∀ out ∈ output, s.Fresh out) : (s.register kind output).Made := by
  have hregister := h.registerCore hk ho hi.effects_known hi.frames_known
  have hcore : { s with core := { (s.core.register kind output).2 with
      depth := (s.core.register kind output).2.depth + 1 } }.Made :=
    hregister.core (.same rfl fun _ hr => hr)
  have hinstall : (Frame.installing (s.core.register kind output).1 output : Frame V).Made
      (s.core.register kind output).2 s.signals := by
    refine ⟨fun out hout => ?_, fun hn _ out k hr => ?_⟩
    · refine (ho out hout).owns.register (fun _ => ?_) fun _ _ hfalse => hfalse.elim
      rw [generation_register]
    · rw [role_register, if_pos rfl] at hr
      cases hr
      exact hn
  exact hcore.push (hinstall.same (.same rfl fun _ hr => hr))

/-- The output of `derived` is new. -/
theorem Inv.fresh_allocate {gone : Gone} (hi : s.Inv gone 0) (h : s.Made) :
    { s with core := (s.core.allocate none).2 }.Fresh (s.core.allocate none).1 := by
  have hunknown : ¬ s.core.values.Known (s.core.allocate none).1 := Arena.insert_fresh _ _
  refine ⟨⟨hi.known_allocate none, fun hm => ?_, fun o k hr => ?_⟩, fun f hf hout => ?_⟩
  · exact hunknown (hi.signals_known _ hm)
  · exact hunknown (h.owns o _ k hr).known
  · have hmade := h.frames f hf
    cases f with
    | installing e output => exact hunknown (hmade.1 _ hout).known
    | starting slot output => exact hunknown (hmade _ hout).known
    | evaluating e output reads => exact hunknown (hmade _ hout).known
    | _ => cases hout

theorem made_logRead {c : Core V} {signals : Finset Signal} {entry : Read V}
    {stack : List (Frame V)} (h : ∀ f ∈ stack, f.Made c signals) :
    ∀ f ∈ logRead entry stack, f.Made c signals := by
  induction stack with
  | nil => exact h
  | cons top stack ih =>
      have hhead := h top List.mem_cons_self
      have hrest := fun f hf => h f (List.mem_cons_of_mem _ hf)
      intro f hf
      cases top with
      | evaluating e output reads =>
          rcases List.mem_cons.mp hf with rfl | hf
          · exact hhead
          · exact hrest f hf
      | leaving e reads result =>
          rcases List.mem_cons.mp hf with rfl | hf
          · trivial
          · exact hrest f hf
      | _ =>
          rcases List.mem_cons.mp hf with rfl | hf
          · exact hhead
          · exact ih hrest f hf

theorem Made.read (h : s.Made) (r : Signal) : (s.read r).Made := by
  have hlog : { s with stack := logRead ⟨r, s.core.tryGet r, s.writes r⟩ s.stack }.Made :=
    h.move (.same rfl fun _ hr => hr) rfl rfl fun f hf => Or.inr (made_logRead h.frames f hf)
  unfold State.read
  split
  · exact hlog
  · exact hlog.core (.same rfl fun _ hr => hr)

theorem Made.publish [BEq V] (h : s.Made) (output : Signal) (next : V) :
    (s.publish output next).Made := by
  unfold State.publish
  split
  · exact h
  · split
    · exact h
    · exact (h.write _ _).changed _

theorem Made.settle (h : s.Made) (e : Effect) (owner : Owned) : (s.settle e owner).Made := by
  unfold State.settle
  split
  · exact h.push trivial
  · rename_i observer hfind
    refine h.core ⟨fun o x hx => ?_, rfl, fun _ hr => hr⟩
    exact (roleIn_set (Arena.find?_some hfind).2 { observer with runOwner := some owner } rfl rfl
      o).symm.trans hx

theorem Made.issue (h : s.Made) {e : Effect} {output : Option Signal}
    (hf : (Frame.installing e output).Made s.core s.signals) : (s.issue e output).Made := by
  cases output with
  | some output => exact h.move (.same rfl fun _ hr => hr) rfl rfl fun _ hg => Or.inl hg
  | none =>
      constructor
      · exact h.owns
      · exact h.kind
      · intro e' he hg out k hr
        rcases Finset.mem_insert.mp he with rfl | he
        · exact hf.2 rfl hg out k hr
        · exact h.effects e' he hg out k hr
      · exact h.frames

/-- A new signal is the output of nothing. -/
theorem Made.signal (h : s.Made) (value : V) :
    (s.signal value).Made := by
  have hunknown : ¬ s.core.values.Known (s.core.allocate (some value)).1 := Arena.insert_fresh _ _
  have hcore : { s with core := (s.core.allocate (some value)).2 }.Made :=
    h.core (.same rfl fun _ hr => hr.insert _)
  have howns : ∀ {out mine}, s.core.Owns s.signals out mine →
      (s.signal value).core.Owns (s.signal value).signals out mine := by
    intro out mine ho
    refine ⟨ho.known.insert _, fun hm => ?_, ho.mine⟩
    rcases Finset.mem_insert.mp hm with rfl | hm
    · exact hunknown ho.known
    · exact ho.not_signal hm
  constructor
  · exact fun o out k hr => howns (h.owns o out k hr)
  · exact hcore.kind
  · exact hcore.effects
  · intro f hf
    have hmade := h.frames f hf
    cases f with
    | installing e output => exact ⟨fun out ho => howns (hmade.1 out ho), hmade.2⟩
    | starting slot output => exact fun out ho => howns (hmade out ho)
    | evaluating e output reads => exact fun out ho => howns (hmade out ho)
    | update r => exact Finset.mem_insert_of_mem hmade
    | _ => trivial

theorem Made.of_move [BEq V] {gone : Gone} (hi : s.Inv gone 0) (h : s.Made) {w : Bool} (hm : Move s w t) :
    t.Made := by
  cases hm with
  | idle => exact h
  | signal value => exact h.signal value
  | derived =>
      have hcore : { s with core := (s.core.allocate none).2 }.Made :=
        h.core (.same rfl fun _ hr => hr.insert _)
      refine (hcore.register (hi.allocate none) (by simp) ?_).evaluate _
      rintro out ⟨rfl⟩
      exact hi.fresh_allocate h
  | effect => exact (h.register hi (by simp) (by simp)).evaluate _
  | read r => exact h.read r
  | write r value cell stack hu hfind hs =>
      have hpop : { s with stack := stack }.Made := by
        rcases hs with ⟨rfl, -⟩ | hs
        · exact h
        · exact h.pop hs
      exact (hpop.write _ _).changed _
  | late r stack hu hfind hs => exact (h.pop hs).changed _
  | beginUpdate r cell hu hfind hr =>
      exact (h.push (f := .update r) hr).core (.same rfl fun _ hr => hr)
  | beginBatch => exact (h.push (f := .batch) trivial).core (.same rfl fun _ hr => hr)
  | endBatch stack hu hs =>
      refine Made.flush ?_
      exact (h.pop hs).core (.same rfl fun _ hr => hr)
  | beginOwned => exact (h.push (f := .owned) trivial).core (.same rfl fun _ hr => hr)
  | endOwned stack hu hs =>
      exact (h.pop hs).move (.same rfl fun _ hr => hr) rfl rfl fun _ hg => Or.inl hg
  | dropOwner index owner =>
      refine h.move (.same rfl fun _ hr => hr) rfl rfl fun g hg => ?_
      rcases List.mem_cons.mp hg with rfl | hg
      · exact Or.inr trivial
      · exact Or.inl hg
  | dispose e => exact (h.core (s.core.sameRoles_dispose _)).push trivial
  | flush => exact h.flush
  | finishEffect e reads stack hs => exact (h.pop hs).push trivial
  | finishDerived e output reads next stack hs =>
      exact ((h.pop hs).push (f := .leaving e reads (some next)) trivial).publish _ _
  | beginCatch => exact h.push trivial
  | endCatch stack hu hs => exact h.pop hs
  | dropNil stack hs => exact h.pop hs
  | dropEffect e items stack hs =>
      exact ((h.pop hs).core (s.core.sameRoles_dispose e.slot)).push (f := .dropping _) trivial
  | dropStale e items stack hs => exact (h.pop hs).push trivial
  | dropValue slot items stack hs =>
      refine ((h.pop hs).core (d := s.core.release slot) ?_).push (f := .dropping items) trivial
      exact ⟨fun o x hx => (s.core.role_release slot o).symm.trans hx, rfl, fun _ hr => hr⟩
  | start slot output stack hs =>
      have hstart := h.frames _ (by rw [hs]; exact List.mem_cons_self)
      have heval : (Frame.evaluating ⟨slot, s.core.observers.generations slot⟩ output []).Made
          s.core s.signals := by
        intro out ho
        have howns := hstart out ho
        exact ⟨howns.known, howns.not_signal, fun o k hr => by rw [howns.mine o k hr]⟩
      exact ((h.pop hs).push heval).core (.same rfl fun _ hr => hr)
  | leave e reads result stack hs =>
      have hroles := s.core.sameRoles_capture e (some ⟨reads, result, s.writes⟩)
      refine Made.settle ?_ _ _
      exact (h.pop hs).core ⟨hroles.role, hroles.generations, hroles.known⟩
  | install e output stack hu hs =>
      have hframe := h.frames _ (by rw [hs]; exact List.mem_cons_self)
      refine Made.flush ?_
      exact ((h.pop hs).issue hframe).core (.same rfl fun _ hr => hr)
  | rest turns stack hs => exact (h.pop hs).core (.same rfl fun _ hr => hr)
  | turn turns slot stack hs =>
      refine Made.evaluate ?_ slot
      exact ((h.pop hs).push (f := .flushing _) trivial).core (.same rfl fun _ hr => hr)

end State

theorem CalmReachable.made [BEq V] {s : State V} (h : CalmReachable s) : s.Made :=
  h.induction State.Made.initial fun _ _ hs hmade _ hm => hmade.of_move hs.reachable.inv hm

/-! ### The output of a run -/

/-- A run publishes the output of its observer. -/
def Frame.Plays (c : Core V) : Frame V → Prop
  | .starting slot output => ∀ x, c.role slot = some x → x.1 = output
  | .evaluating e output _ => c.observers.generations e.slot = e.generation →
      ∀ x, c.role e.slot = some x → x.1 = output
  | _ => True

def State.Playing (s : State V) : Prop := ∀ f ∈ s.stack, f.Plays s.core

theorem Frame.Plays.same {c d : Core V} {f : Frame V} (h : f.Plays c) (hd : c.SameRoles d) :
    f.Plays d := by
  cases f with
  | starting slot output => exact fun x hx => h x (hd.role _ x hx)
  | evaluating e output reads =>
      intro hg x hx
      rw [hd.generations] at hg
      exact h hg x (hd.role _ x hx)
  | _ => trivial

namespace State

variable {s t : State V} {stack : List (Frame V)} {f : Frame V}

theorem Playing.move (h : s.Playing) (hc : s.core.SameRoles t.core)
    (hf : ∀ g ∈ t.stack, g ∈ s.stack ∨ g.Plays t.core) : t.Playing := by
  intro g hg
  rcases hf g hg with hold | hnew
  · exact (h g hold).same hc
  · exact hnew

theorem Playing.core (h : s.Playing) {d : Core V} (hc : s.core.SameRoles d) :
    { s with core := d }.Playing :=
  h.move hc fun _ hg => Or.inl hg

theorem Playing.push (h : s.Playing) (hf : f.Plays s.core) : { s with stack := f :: s.stack }.Playing := by
  intro g hg
  rcases List.mem_cons.mp hg with rfl | hg
  · exact hf
  · exact h g hg

theorem Playing.pop (h : s.Playing) (hs : s.stack = f :: stack) : { s with stack := stack }.Playing :=
  fun g hg => h g (by rw [hs]; exact List.mem_cons_of_mem _ hg)

theorem Playing.flush (h : s.Playing) : s.flush.Playing := by
  unfold State.flush
  split
  · exact h
  · exact (h.push (f := .flushing []) trivial).core (.same rfl fun _ hr => hr)

theorem Playing.changed (h : s.Playing) (slot : Nat) : (s.changed slot).Playing := by
  have hcore : { s with core := s.core.changed slot }.Playing := h.core (.same rfl fun _ hr => hr)
  unfold State.changed
  split
  · exact hcore
  · exact hcore.flush

theorem Playing.write (h : s.Playing) (r : Signal) (value : Option V) : (s.write r value).Playing := by
  unfold State.write
  split
  · exact h
  · exact h.move (.same rfl fun _ hr => hr) fun _ hg => Or.inl hg

theorem Playing.evaluate (h : s.Playing) (slot : Nat) : (s.evaluate slot).Playing := by
  unfold State.evaluate
  split
  · exact h
  · rename_i observer hslot
    have hstart : (Frame.starting slot observer.output : Frame V).Plays s.core := by
      intro x hx
      rw [Core.role_of_slot hslot] at hx
      cases hx
      rfl
    have htake : s.core.SameRoles { s.core with
        observers := s.core.observers.set slot { observer with runOwner := none } } :=
      ⟨fun o x hx =>
        (roleIn_set hslot { observer with runOwner := none } rfl rfl o).symm.trans hx, rfl, fun _ hr => hr⟩
    exact ((h.push hstart).push (f := .dropping _) trivial).core htake

/-- No run under way is one of the new reaction. -/
theorem Playing.observe (h : s.Playing) {gone : Gone} (hi : s.Inv gone 0) (hsh : s.Shaped)
    (hu : userTop s.stack = true) (kind : Kind) (output : Option Signal) :
    (s.observe kind output).Playing := by
  refine Playing.evaluate ?_ _
  intro f hf
  rcases List.mem_cons.mp hf with rfl | hf
  · trivial
  · have hplays := h f hf
    have hknown := hi.frames_known f hf
    cases f with
    | starting slot out => exact absurd hf (hsh.stacked.not_starting hu)
    | evaluating e out reads =>
        intro hg x hx
        have hne := register_ne hknown hg
        have hrole : (s.core.register kind output).2.role e.slot = some x := hx
        rw [role_register, if_neg hne] at hrole
        have hgen : (s.core.register kind output).2.observers.generations e.slot = e.generation := hg
        rw [generations_register _ _ _ hne] at hgen
        exact hplays hgen x hrole
    | _ => trivial

theorem playing_logRead {c : Core V} {entry : Read V} {stack : List (Frame V)}
    (h : ∀ f ∈ stack, f.Plays c) : ∀ f ∈ logRead entry stack, f.Plays c := by
  induction stack with
  | nil => exact h
  | cons top stack ih =>
      have hhead := h top List.mem_cons_self
      have hrest := fun f hf => h f (List.mem_cons_of_mem _ hf)
      intro f hf
      cases top with
      | evaluating e output reads =>
          rcases List.mem_cons.mp hf with rfl | hf
          · exact hhead
          · exact hrest f hf
      | leaving e reads result =>
          rcases List.mem_cons.mp hf with rfl | hf
          · trivial
          · exact hrest f hf
      | _ =>
          rcases List.mem_cons.mp hf with rfl | hf
          · exact hhead
          · exact ih hrest f hf

theorem Playing.read (h : s.Playing) (r : Signal) : (s.read r).Playing := by
  have hlog : { s with stack := logRead ⟨r, s.core.tryGet r, s.writes r⟩ s.stack }.Playing :=
    fun f hf => playing_logRead h f hf
  unfold State.read
  split
  · exact hlog
  · exact hlog.core (.same rfl fun _ hr => hr)

theorem Playing.publish [BEq V] (h : s.Playing) (output : Signal) (next : V) :
    (s.publish output next).Playing := by
  unfold State.publish
  split
  · exact h
  · split
    · exact h
    · exact (h.write _ _).changed _

theorem Playing.settle (h : s.Playing) (e : Effect) (owner : Owned) : (s.settle e owner).Playing := by
  unfold State.settle
  split
  · exact h.push trivial
  · rename_i observer hfind
    refine h.core ⟨fun o x hx => ?_, rfl, fun _ hr => hr⟩
    exact (roleIn_set (Arena.find?_some hfind).2 { observer with runOwner := some owner } rfl rfl
      o).symm.trans hx

theorem Playing.of_move [BEq V] {gone : Gone} (hi : s.Inv gone 0) (hsh : s.Shaped) (h : s.Playing)
    {w : Bool} (hm : Move s w t) : t.Playing := by
  cases hm with
  | idle => exact h
  | signal value => exact h.move (.same rfl fun _ hr => hr.insert _) fun _ hg => Or.inl hg
  | derived hu =>
      have hcore : { s with core := (s.core.allocate none).2 }.Playing :=
        h.core (.same rfl fun _ hr => hr.insert _)
      exact hcore.observe (hi.allocate none) (hsh.same rfl rfl rfl) hu _ _
  | effect hu => exact h.observe hi hsh hu _ _
  | read r => exact h.read r
  | write r value cell stack hu hfind hs =>
      have hpop : { s with stack := stack }.Playing := by
        rcases hs with ⟨rfl, -⟩ | hs
        · exact h
        · exact h.pop hs
      exact (hpop.write _ _).changed _
  | late r stack hu hfind hs => exact (h.pop hs).changed _
  | beginUpdate r cell hu hfind hr =>
      exact (h.push (f := .update r) trivial).core (.same rfl fun _ hr => hr)
  | beginBatch => exact (h.push (f := .batch) trivial).core (.same rfl fun _ hr => hr)
  | endBatch stack hu hs =>
      refine Playing.flush ?_
      exact (h.pop hs).core (.same rfl fun _ hr => hr)
  | beginOwned => exact (h.push (f := .owned) trivial).core (.same rfl fun _ hr => hr)
  | endOwned stack hu hs =>
      exact (h.pop hs).move (.same rfl fun _ hr => hr) fun _ hg => Or.inl hg
  | dropOwner index owner =>
      refine h.move (.same rfl fun _ hr => hr) fun g hg => ?_
      rcases List.mem_cons.mp hg with rfl | hg
      · exact Or.inr trivial
      · exact Or.inl hg
  | dispose e => exact (h.core (s.core.sameRoles_dispose _)).push trivial
  | flush => exact h.flush
  | finishEffect e reads stack hs => exact (h.pop hs).push trivial
  | finishDerived e output reads next stack hs =>
      exact ((h.pop hs).push (f := .leaving e reads (some next)) trivial).publish _ _
  | beginCatch => exact h.push trivial
  | endCatch stack hu hs => exact h.pop hs
  | dropNil stack hs => exact h.pop hs
  | dropEffect e items stack hs =>
      exact ((h.pop hs).core (s.core.sameRoles_dispose e.slot)).push (f := .dropping _) trivial
  | dropStale e items stack hs => exact (h.pop hs).push trivial
  | dropValue slot items stack hs =>
      refine ((h.pop hs).core (d := s.core.release slot) ?_).push (f := .dropping items) trivial
      exact ⟨fun o x hx => (s.core.role_release slot o).symm.trans hx, rfl, fun _ hr => hr⟩
  | start slot output stack hs =>
      have hstart := h _ (by rw [hs]; exact List.mem_cons_self)
      have heval : (Frame.evaluating ⟨slot, s.core.observers.generations slot⟩ output [] : Frame V).Plays
          s.core := fun _ x hx => hstart x hx
      exact ((h.pop hs).push heval).core (.same rfl fun _ hr => hr)
  | leave e reads result stack hs =>
      have hroles := s.core.sameRoles_capture e (some ⟨reads, result, s.writes⟩)
      refine Playing.settle ?_ _ _
      exact (h.pop hs).core ⟨hroles.role, hroles.generations, hroles.known⟩
  | install e output stack hu hs =>
      have hissue : ({ s with stack := stack }.issue e output).Playing := by
        cases output with
        | none => exact (h.pop hs).move (.same rfl fun _ hr => hr) fun _ hg => Or.inl hg
        | some out => exact (h.pop hs).move (.same rfl fun _ hr => hr) fun _ hg => Or.inl hg
      refine Playing.flush ?_
      exact hissue.core (.same rfl fun _ hr => hr)
  | rest turns stack hs => exact (h.pop hs).core (.same rfl fun _ hr => hr)
  | turn turns slot stack hs =>
      refine Playing.evaluate ?_ slot
      exact ((h.pop hs).push (f := .flushing _) trivial).core (.same rfl fun _ hr => hr)

end State

theorem CalmReachable.playing [BEq V] {s : State V} (h : CalmReachable s) : s.Playing :=
  h.induction (P := State.Playing) (by simp [State.Playing, State.initial]) fun _ _ hs hplay _ hm =>
    hplay.of_move hs.reachable.inv hs.shaped hm

end Deka.Reactive
