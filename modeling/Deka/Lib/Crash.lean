/-
Deka/Lib/Crash.lean

Programs over a store that survives a crash, and a logic for them.

A program runs in atomic steps on a store `σ`; a crash between two steps loses the
program but not the store.  The outcome of a run therefore lists, besides the result and
the final store, every store a crash can leave behind: its *points*.

`Total P m Q C` is the crash triple: from a store with `P` the program returns some `a`
and ends with `Q a`, and every point on the way satisfies the crash condition `C`.
-/

namespace Deka.Lib

/-- What a run shows: the stores a crash can leave, its result, and its final store. -/
structure Outcome (ε σ α : Type) where
  points : List σ
  result : Except ε α
  final : σ

/-- Programs that a crash can interrupt between two of their steps. -/
def Crashing (ε σ α : Type) : Type := σ → Outcome ε σ α

namespace Crashing

variable {ε σ α β : Type}

/-- Run a program from a store. -/
def run (m : Crashing ε σ α) (s : σ) : Outcome ε σ α := m s

protected def pure (a : α) : Crashing ε σ α := fun s => ⟨[s], .ok a, s⟩

protected def bind (m : Crashing ε σ α) (k : α → Crashing ε σ β) : Crashing ε σ β := fun s =>
  match (m s).result with
  | .ok a => ⟨(m s).points ++ (k a (m s).final).points, (k a (m s).final).result,
      (k a (m s).final).final⟩
  | .error e => ⟨(m s).points, .error e, (m s).final⟩

instance : Monad (Crashing ε σ) where
  pure := Crashing.pure
  bind := Crashing.bind

/-- A program that fails at once. -/
def fail (e : ε) : Crashing ε σ α := fun s => ⟨[s], .error e, s⟩

/-- A look at the store. -/
def look (f : σ → α) : Crashing ε σ α := fun s => ⟨[s], .ok (f s), s⟩

/-- One atomic step. -/
def step (f : σ → σ) : Crashing ε σ Unit := fun s => ⟨[s, f s], .ok (), f s⟩

/-- A step that is not atomic: a crash can leave any of the stores `via s` as well. -/
def stepVia (via : σ → List σ) (f : σ → σ) : Crashing ε σ Unit := fun s =>
  ⟨s :: via s ++ [f s], .ok (), f s⟩

/-- Run a program and ignore its failure. -/
def quietly (m : Crashing ε σ Unit) : Crashing ε σ Unit := fun s =>
  ⟨(m s).points, .ok (), (m s).final⟩

/-- A step that fails where its guard does not hold. -/
def stepIf (guard : σ → Bool) (e : ε) (f : σ → σ) : Crashing ε σ Unit := fun s =>
  if guard s then step f s else fail e s

/-! ### What a run of a composition shows -/

@[simp] theorem run_pure (a : α) (s : σ) :
    (pure a : Crashing ε σ α).run s = ⟨[s], .ok a, s⟩ := rfl

@[simp] theorem run_look (f : σ → α) (s : σ) :
    (look f : Crashing ε σ α).run s = ⟨[s], .ok (f s), s⟩ := rfl

@[simp] theorem run_step (f : σ → σ) (s : σ) :
    (step f : Crashing ε σ Unit).run s = ⟨[s, f s], .ok (), f s⟩ := rfl

theorem run_bind_ok {m : Crashing ε σ α} {k : α → Crashing ε σ β} {s : σ} {a : α}
    (returns : (m.run s).result = .ok a) :
    (m >>= k).run s =
      ⟨(m.run s).points ++ ((k a).run (m.run s).final).points,
        ((k a).run (m.run s).final).result, ((k a).run (m.run s).final).final⟩ := by
  show Crashing.bind m k s = _
  unfold Crashing.bind
  have h : (m s).result = .ok a := returns
  rw [h]
  rfl

/-! ### What a run that is not cut off ends with -/

/-- The result and the final store of a run. -/
def Ends (m : Crashing ε σ α) (s : σ) (r : Except ε α) (t : σ) : Prop :=
  (m.run s).result = r ∧ (m.run s).final = t

theorem Ends.pure (a : α) (s : σ) : Ends (Pure.pure a : Crashing ε σ α) s (.ok a) s := ⟨rfl, rfl⟩

theorem Ends.fail (e : ε) (s : σ) : Ends (Crashing.fail e : Crashing ε σ α) s (.error e) s :=
  ⟨rfl, rfl⟩

theorem Ends.step (f : σ → σ) (s : σ) : Ends (Crashing.step f : Crashing ε σ Unit) s (.ok ()) (f s) :=
  ⟨rfl, rfl⟩

theorem Ends.stepVia (via : σ → List σ) (f : σ → σ) (s : σ) :
    Ends (Crashing.stepVia via f : Crashing ε σ Unit) s (.ok ()) (f s) := ⟨rfl, rfl⟩

theorem Ends.stepIf {guard : σ → Bool} {s : σ} (holds : guard s = true) (e : ε) (f : σ → σ) :
    Ends (Crashing.stepIf guard e f) s (.ok ()) (f s) := by
  simp [Ends, Crashing.run, Crashing.stepIf, Crashing.step, holds]

/-- A program that returns goes on with the rest. -/
theorem Ends.bind {m : Crashing ε σ α} {k : α → Crashing ε σ β} {s t u : σ} {a : α}
    {r : Except ε β} (hm : Ends m s (.ok a) t) (hk : Ends (k a) t r u) : Ends (m >>= k) s r u := by
  obtain ⟨returns, final⟩ := hm
  rw [Ends, run_bind_ok returns, final]
  exact hk

/-- A program that fails leaves the rest out. -/
theorem Ends.bindError {m : Crashing ε σ α} {k : α → Crashing ε σ β} {s t : σ} {e : ε}
    (hm : Ends m s (.error e) t) : Ends (m >>= k) s (.error e) t := by
  obtain ⟨fails, final⟩ := hm
  have h : (m s).result = .error e := fails
  have same : (m >>= k).run s = ⟨(m.run s).points, .error e, (m.run s).final⟩ := by
    show Crashing.bind m k s = _
    rw [Crashing.bind, h]
    rfl
  rw [Ends, same]
  exact ⟨rfl, final⟩

theorem Ends.lookBind {f : σ → α} {k : α → Crashing ε σ β} {s t : σ} {r : Except ε β}
    (hk : Ends (k (f s)) s r t) : Ends (look f >>= k) s r t :=
  Ends.bind ⟨rfl, rfl⟩ hk

/-! ### Crash triples -/

/-- The crash triple. -/
def Total (P : σ → Prop) (m : Crashing ε σ α) (Q : α → σ → Prop) (C : σ → Prop) : Prop :=
  ∀ s, P s → (∀ p ∈ (m.run s).points, C p) ∧
    ∃ a, (m.run s).result = .ok a ∧ Q a (m.run s).final

variable {P P' : σ → Prop} {C C' : σ → Prop} {Q Q' : α → σ → Prop} {R : β → σ → Prop}
  {m : Crashing ε σ α} {k : α → Crashing ε σ β}

/-- A crash leaves what the crash condition says. -/
theorem Total.point (h : Total P m Q C) {s p : σ} (hs : P s) (hp : p ∈ (m.run s).points) : C p :=
  (h s hs).1 p hp

theorem Total.weaken (h : Total P m Q C) (before : ∀ s, P' s → P s)
    (after : ∀ a s, Q a s → Q' a s) (crash : ∀ s, C s → C' s) : Total P' m Q' C' := by
  intro s hs
  obtain ⟨points, a, returns, post⟩ := h s (before s hs)
  exact ⟨fun p hp => crash p (points p hp), a, returns, after a _ post⟩

theorem Total.pure {a : α} (post : ∀ s, P s → Q a s) (crash : ∀ s, P s → C s) :
    Total P (Pure.pure a : Crashing ε σ α) Q C := by
  intro s hs
  refine ⟨?_, a, rfl, post s hs⟩
  intro p hp
  rw [List.mem_singleton.mp hp]
  exact crash s hs

theorem Total.look {f : σ → α} (post : ∀ s, P s → Q (f s) s) (crash : ∀ s, P s → C s) :
    Total P (look f : Crashing ε σ α) Q C := by
  intro s hs
  refine ⟨?_, f s, rfl, post s hs⟩
  intro p hp
  rw [List.mem_singleton.mp hp]
  exact crash s hs

/-- A triple can be proved for one store at a time. -/
theorem Total.pointwise (h : ∀ s, P s → Total (fun t => t = s) m Q C) : Total P m Q C :=
  fun s hs => h s hs s rfl

theorem Total.step {f : σ → σ} {Q : Unit → σ → Prop} (post : ∀ s, P s → Q () (f s))
    (start : ∀ s, P s → C s) (crash : ∀ s, P s → C (f s)) :
    Total P (step f : Crashing ε σ Unit) Q C := by
  intro s hs
  refine ⟨?_, (), rfl, post s hs⟩
  intro p hp
  rcases List.mem_cons.mp hp with rfl | hp
  · exact start _ hs
  · rw [List.mem_singleton.mp hp]
    exact crash s hs

theorem Total.stepVia {via : σ → List σ} {f : σ → σ} {Q : Unit → σ → Prop}
    (post : ∀ s, P s → Q () (f s)) (start : ∀ s, P s → C s)
    (between : ∀ s, P s → ∀ p ∈ via s, C p) (crash : ∀ s, P s → C (f s)) :
    Total P (stepVia via f : Crashing ε σ Unit) Q C := by
  intro s hs
  refine ⟨?_, (), rfl, post s hs⟩
  intro p hp
  rcases List.mem_append.mp hp with hp | hp
  · rcases List.mem_cons.mp hp with rfl | hp
    · exact start _ hs
    · exact between s hs p hp
  · rw [List.mem_singleton.mp hp]
    exact crash s hs

theorem Total.stepIf {guard : σ → Bool} {e : ε} {f : σ → σ} {Q : Unit → σ → Prop}
    (holds : ∀ s, P s → guard s = true) (h : Total P (Crashing.step f : Crashing ε σ Unit) Q C) :
    Total P (stepIf guard e f : Crashing ε σ Unit) Q C := by
  intro s hs
  have same : (Crashing.stepIf guard e f).run s = (Crashing.step f : Crashing ε σ Unit).run s := by
    simp [Crashing.stepIf, Crashing.run, holds s hs]
  rw [same]
  exact h s hs

theorem Total.bind (hm : Total P m Q C) (hk : ∀ a, Total (Q a) (k a) R C) :
    Total P (m >>= k) R C := by
  intro s hs
  obtain ⟨points, a, returns, post⟩ := hm s hs
  obtain ⟨points', b, returns', post'⟩ := hk a _ post
  rw [run_bind_ok returns]
  refine ⟨?_, b, returns', post'⟩
  intro p hp
  rcases List.mem_append.mp hp with hp | hp
  · exact points p hp
  · exact points' p hp

/-- After a look the program goes on with what was seen. -/
theorem Total.lookBind {f : σ → α} (start : ∀ s, P s → C s)
    (hk : ∀ s, P s → Total (fun t => t = s) (k (f s)) R C) :
    Total P (Crashing.look f >>= k) R C := by
  apply Total.pointwise
  intro s hs
  refine Total.bind (Q := fun a t => t = s ∧ f s = a) ?_ ?_
  · apply Total.look
    · rintro t rfl
      exact ⟨rfl, rfl⟩
    · rintro t rfl
      exact start t hs
  · intro a
    apply Total.pointwise
    rintro t ⟨rfl, rfl⟩
    exact hk t hs

/-- A step whose failure is ignored is made or left out. -/
theorem Total.quietlyStepIf {guard : σ → Bool} {e : ε} {f : σ → σ} {Q : Unit → σ → Prop}
    (post : ∀ s, P s → guard s = true → Q () (f s)) (skip : ∀ s, P s → guard s = false → Q () s)
    (start : ∀ s, P s → C s) (crash : ∀ s, P s → guard s = true → C (f s)) :
    Total P (quietly (Crashing.stepIf guard e f)) Q C := by
  intro s hs
  cases holds : guard s with
  | true =>
      have same : (Crashing.quietly (Crashing.stepIf guard e f)).run s =
          (Crashing.step f : Crashing ε σ Unit).run s := by
        simp [Crashing.quietly, Crashing.stepIf, Crashing.step, Crashing.run, holds]
      rw [same]
      refine ⟨?_, (), rfl, post s hs holds⟩
      intro p hp
      rcases List.mem_cons.mp hp with rfl | hp
      · exact start _ hs
      · rw [List.mem_singleton.mp hp]
        exact crash s hs holds
  | false =>
      have same : (Crashing.quietly (Crashing.stepIf guard e f)).run s =
          (Pure.pure () : Crashing ε σ Unit).run s := by
        rw [run_pure]
        simp [Crashing.quietly, Crashing.stepIf, Crashing.fail, Crashing.run, holds]
      rw [same]
      refine ⟨?_, (), rfl, skip s hs holds⟩
      intro p hp
      rw [List.mem_singleton.mp hp]
      exact start s hs

end Crashing

end Deka.Lib
