/-
Deka/Lib/Program.lean

State-and-exception programs and a typing discipline for them.

A program over a state `S` either returns a value or stops with a fault; both
outcomes keep the state reached so far.  A *theory* `T` for such programs fixes

* `T.Inv`, the invariant of the state;
* `T.Ext`, a preorder on states saying how a state may evolve;
* `T.Good s r`, which references `r` are good in state `s`: goodness may only be
  gained, never lost, when the state evolves;
* `T.Fails`, the faults a program may stop with.

`Typed T Γ m φ R` then says: started in any invariant state in which all of `Γ`
is good, `m` keeps the invariant and only lets the state evolve, whether it
returns or stops; it stops only with an allowed fault; and it returns an `a` with
the pure property `φ a` whose references `R a` are good in the final state.
Because goodness is stable, the context `Γ` only grows along a program, and a
proof of `Typed` never mentions a state.
-/
import Mathlib.Data.Set.Basic
import Mathlib.Data.Set.Insert
import Mathlib.Data.List.Forall2

namespace Deka.Lib

/-- Programs over a state `S` that may stop with a fault `ε`. -/
abbrev Prog (ε S α : Type) := ExceptT ε (StateM S) α

namespace Prog

variable {ε S α β : Type}

/-- Run a program from a state. -/
def exec (m : Prog ε S α) (s : S) : Except ε α × S := StateT.run (ExceptT.run m) s

/-- The program with the given runs. -/
def ofExec (f : S → Except ε α × S) : Prog ε S α := ExceptT.mk (StateT.mk f)

/-- A look at the state that may fail. -/
def reads (f : S → Except ε α) : Prog ε S α := ofExec fun s => (f s, s)

/-- Run `m` and hand its outcome over as a value; the state is not rolled back. -/
def attempt (m : Prog ε S α) : Prog ε S (Except ε α) :=
  ofExec fun s => (.ok (m.exec s).1, (m.exec s).2)

/-- Run a program of a component `A` of the state. -/
def within {A : Type} (view : S → A) (update : S → A → S) (m : Prog ε A α) : Prog ε S α :=
  ofExec fun s => ((m.exec (view s)).1, update s (m.exec (view s)).2)

@[simp] theorem exec_ofExec (f : S → Except ε α × S) (s : S) : exec (ofExec f) s = f s := rfl

@[simp] theorem exec_reads (f : S → Except ε α) (s : S) : exec (reads f) s = (f s, s) := rfl

@[simp] theorem exec_attempt (m : Prog ε S α) (s : S) :
    exec (attempt m) s = (.ok (m.exec s).1, (m.exec s).2) := rfl

@[simp] theorem exec_within {A : Type} (view : S → A) (update : S → A → S) (m : Prog ε A α)
    (s : S) : exec (within view update m) s =
      ((m.exec (view s)).1, update s (m.exec (view s)).2) := rfl

@[simp] theorem exec_pure (a : α) (s : S) : exec (pure a : Prog ε S α) s = (.ok a, s) := rfl

@[simp] theorem exec_throw (e : ε) (s : S) :
    exec (throw e : Prog ε S α) s = (.error e, s) := rfl

theorem exec_bind (m : Prog ε S α) (k : α → Prog ε S β) (s : S) :
    exec (m >>= k) s =
      match exec m s with
      | (.ok a, s') => exec (k a) s'
      | (.error e, s') => (.error e, s') := by
  show StateT.run (ExceptT.run (m >>= k)) s = _
  simp only [ExceptT.run_bind, StateT.run_bind, exec]
  rcases h : StateT.run (ExceptT.run m) s with ⟨r, s'⟩
  cases r <;> rfl

theorem exec_bind_ok {m : Prog ε S α} {k : α → Prog ε S β} {s s' : S} {a : α}
    (h : exec m s = (.ok a, s')) : exec (m >>= k) s = exec (k a) s' := by
  rw [exec_bind, h]

theorem exec_bind_error {m : Prog ε S α} {k : α → Prog ε S β} {s s' : S} {e : ε}
    (h : exec m s = (.error e, s')) : exec (m >>= k) s = (.error e, s') := by
  rw [exec_bind, h]

@[simp] theorem exec_get (s : S) : exec (get : Prog ε S S) s = (.ok s, s) := rfl

@[simp] theorem exec_set (t s : S) : exec (set t : Prog ε S PUnit) s = (.ok ⟨⟩, t) := rfl

@[simp] theorem exec_modify (f : S → S) (s : S) :
    exec (modify f : Prog ε S PUnit) s = (.ok ⟨⟩, f s) := rfl

/-- A run that returns went through a run of the first part. -/
theorem exec_bind_eq_ok {m : Prog ε S α} {k : α → Prog ε S β} {s t : S} {b : β}
    (h : exec (m >>= k) s = (.ok b, t)) :
    ∃ a s', exec m s = (.ok a, s') ∧ exec (k a) s' = (.ok b, t) := by
  rw [exec_bind] at h
  rcases hm : exec m s with ⟨r, s'⟩
  rw [hm] at h
  cases r with
  | ok a => exact ⟨a, s', rfl, h⟩
  | error e => simp at h

/-- A run that stops did so in the first part or in the second. -/
theorem exec_bind_eq_error {m : Prog ε S α} {k : α → Prog ε S β} {s t : S} {e : ε}
    (h : exec (m >>= k) s = (.error e, t)) :
    exec m s = (.error e, t) ∨ ∃ a s', exec m s = (.ok a, s') ∧ exec (k a) s' = (.error e, t) := by
  rw [exec_bind] at h
  rcases hm : exec m s with ⟨r, s'⟩
  rw [hm] at h
  cases r with
  | ok a => exact Or.inr ⟨a, s', rfl, h⟩
  | error e' =>
      cases h
      exact Or.inl rfl

/-- A list of looks at the state. -/
theorem exec_mapM_reads {f : α → Prog ε S β} {g : α → Except ε β} {s : S}
    (hf : ∀ a, exec (f a) s = (g a, s)) (xs : List α) :
    exec (xs.mapM f) s = (xs.mapM g, s) := by
  induction xs with
  | nil => rfl
  | cons x xs ih =>
      rw [List.mapM_cons, List.mapM_cons, exec_bind, hf]
      rcases g x with e | b
      · rfl
      · dsimp only
        rw [exec_bind, ih]
        rcases xs.mapM g with e | bs <;> rfl

/-- A list of looks at the state whose outcomes are known one by one. -/
theorem exec_mapM_forall₂ {γ : Type} {f : α → Prog ε S γ} {g : β → Except ε γ} {s : S}
    {xs : List α} {ys : List β}
    (h : List.Forall₂ (fun x y => exec (f x) s = (g y, s)) xs ys) :
    exec (xs.mapM f) s = (ys.mapM g, s) := by
  induction h with
  | nil => rfl
  | @cons x y xs ys hx _ ih =>
      rw [List.mapM_cons, List.mapM_cons, exec_bind, hx]
      rcases g y with e | b
      · rfl
      · dsimp only
        rw [exec_bind, ih]
        rcases ys.mapM g with e | bs <;> rfl

/-- What the programs of a list establish one after the other holds together at the end. -/
theorem exec_mapM_ok {I : S → Prop} {E : S → S → Prop} {R : S → α → β → Prop}
    {f : α → Prog ε S β} {xs : List α}
    (refl : ∀ s, E s s) (trans : ∀ {s t u : S}, E s t → E t u → E s u)
    (mono : ∀ {s t} {a : α} {b : β}, E s t → R s a b → R t a b)
    (hf : ∀ a ∈ xs, ∀ s b t, I s → exec (f a) s = (.ok b, t) → I t ∧ E s t ∧ R t a b)
    {s t : S} {ys : List β} (hs : I s) (h : exec (xs.mapM f) s = (.ok ys, t)) :
    I t ∧ E s t ∧ List.Forall₂ (R t) xs ys := by
  induction xs generalizing s ys with
  | nil =>
      cases h
      exact ⟨hs, refl _, .nil⟩
  | cons x xs ih =>
      rw [List.mapM_cons] at h
      obtain ⟨b, s', hb, hrest⟩ := exec_bind_eq_ok h
      obtain ⟨bs, t', hbs, hpure⟩ := exec_bind_eq_ok hrest
      cases hpure
      obtain ⟨hs', hext, hR⟩ := hf x List.mem_cons_self s b s' hs hb
      obtain ⟨ht, hext', hRs⟩ :=
        ih (fun a ha => hf a (List.mem_cons_of_mem _ ha)) hs' hbs
      exact ⟨ht, trans hext hext', .cons (mono hext' hR) hRs⟩

end Prog

/-! ### Theories -/

/-- What a development says about all its programs at once. -/
structure Theory (ε S ρ : Type) where
  Inv : S → Prop
  Ext : S → S → Prop
  Good : S → ρ → Prop
  Fails : ε → Prop
  refl : ∀ s, Ext s s
  trans : ∀ {s t u}, Ext s t → Ext t u → Ext s u
  mono : ∀ {s t r}, Ext s t → Good s r → Good t r

variable {ε S ρ α β : Type} {T : Theory ε S ρ} {Γ Δ : Set ρ}

/-- `m` is well typed in the context `Γ`. -/
def Typed (T : Theory ε S ρ) (Γ : Set ρ) (m : Prog ε S α) (φ : α → Prop) (R : α → Set ρ) :
    Prop :=
  ∀ s, T.Inv s → (∀ r ∈ Γ, T.Good s r) →
    match m.exec s with
    | (.ok a, s') => T.Inv s' ∧ T.Ext s s' ∧ φ a ∧ ∀ r ∈ R a, T.Good s' r
    | (.error e, s') => T.Inv s' ∧ T.Ext s s' ∧ T.Fails e

namespace Typed

variable {m : Prog ε S α} {k : α → Prog ε S β} {φ : α → Prop} {R : α → Set ρ}
  {ψ : β → Prop} {Q : β → Set ρ}

/-! ### Using a typing -/

theorem ok (h : Typed T Γ m φ R) {s s' : S} {a : α} (hs : T.Inv s)
    (hΓ : ∀ r ∈ Γ, T.Good s r) (he : m.exec s = (.ok a, s')) :
    T.Inv s' ∧ T.Ext s s' ∧ φ a ∧ ∀ r ∈ R a, T.Good s' r := by
  have := h s hs hΓ
  rwa [he] at this

theorem error (h : Typed T Γ m φ R) {s s' : S} {e : ε} (hs : T.Inv s)
    (hΓ : ∀ r ∈ Γ, T.Good s r) (he : m.exec s = (.error e, s')) :
    T.Inv s' ∧ T.Ext s s' ∧ T.Fails e := by
  have := h s hs hΓ
  rwa [he] at this

/-! ### Structural rules -/

theorem pure {a : α} (hφ : φ a) (hR : R a ⊆ Γ) : Typed T Γ (Pure.pure a) φ R := by
  intro s hs hΓ
  exact ⟨hs, T.refl s, hφ, fun r hr => hΓ r (hR hr)⟩

theorem throw {e : ε} (h : T.Fails e) : Typed T Γ (MonadExcept.throw e) φ R := by
  intro s hs _
  exact ⟨hs, T.refl s, h⟩

theorem bind (hm : Typed T Γ m φ R) (hk : ∀ a, φ a → Typed T (Γ ∪ R a) (k a) ψ Q) :
    Typed T Γ (m >>= k) ψ Q := by
  intro s hs hΓ
  rw [Prog.exec_bind]
  have h₁ := hm s hs hΓ
  rcases hr : m.exec s with ⟨r, s₁⟩
  rw [hr] at h₁
  cases r with
  | error e => exact h₁
  | ok a =>
      obtain ⟨hs₁, hext₁, hφ, hR⟩ := h₁
      have hctx : ∀ r ∈ Γ ∪ R a, T.Good s₁ r := by
        rintro r (hr | hr)
        · exact T.mono hext₁ (hΓ r hr)
        · exact hR r hr
      have h₂ := hk a hφ s₁ hs₁ hctx
      dsimp only
      rcases hr₂ : (k a).exec s₁ with ⟨r₂, s₂⟩
      rw [hr₂] at h₂
      cases r₂ with
      | error e => exact ⟨h₂.1, T.trans hext₁ h₂.2.1, h₂.2.2⟩
      | ok b => exact ⟨h₂.1, T.trans hext₁ h₂.2.1, h₂.2.2⟩

/-- A typing survives a larger context and a weaker promise. -/
theorem conseq {φ' : α → Prop} {R' : α → Set ρ} (h : Typed T Δ m φ' R') (hΔ : Δ ⊆ Γ)
    (hφ : ∀ a, φ' a → φ a) (hR : ∀ a, φ' a → R a ⊆ R' a ∪ Γ) : Typed T Γ m φ R := by
  intro s hs hΓ
  have h' := h s hs fun r hr => hΓ r (hΔ hr)
  rcases hr : m.exec s with ⟨r, s'⟩
  rw [hr] at h'
  cases r with
  | error e => exact h'
  | ok a =>
      obtain ⟨hs', hext, ha, hgood⟩ := h'
      refine ⟨hs', hext, hφ a ha, fun r hr => ?_⟩
      rcases hR a ha hr with hr | hr
      · exact hgood r hr
      · exact T.mono hext (hΓ r hr)

/-- Promise less. -/
theorem promise {φ' : α → Prop} {R' : α → Set ρ} (h : Typed T Γ m φ' R')
    (hφ : ∀ a, φ' a → φ a) (hR : ∀ a, φ' a → R a ⊆ R' a ∪ Γ) : Typed T Γ m φ R :=
  h.conseq (Set.Subset.refl _) hφ hR

theorem weaken (h : Typed T Δ m φ R) (hΔ : Δ ⊆ Γ) : Typed T Γ m φ R :=
  h.conseq hΔ (fun _ => id) fun _ _ => Set.subset_union_left

theorem map {f : α → β} (hm : Typed T Γ m φ R) (hψ : ∀ a, φ a → ψ (f a))
    (hQ : ∀ a, φ a → Q (f a) ⊆ Γ ∪ R a) : Typed T Γ (f <$> m) ψ Q := by
  rw [← bind_pure_comp]
  exact bind hm fun a ha => pure (hψ a ha) (hQ a ha)

/-- Running a program for its effect. -/
theorem discard (hm : Typed T Γ m φ R) :
    Typed T Γ (Functor.discard m) (fun _ => True) fun _ => ∅ :=
  map hm (fun _ _ => trivial) fun _ _ => Set.empty_subset _

/-- A program that only reads the state. -/
theorem read {f : S → Except ε α} (hm : ∀ s, m.exec s = (f s, s))
    (hok : ∀ s a, T.Inv s → (∀ r ∈ Γ, T.Good s r) → f s = .ok a →
      φ a ∧ ∀ r ∈ R a, T.Good s r)
    (herr : ∀ s e, T.Inv s → (∀ r ∈ Γ, T.Good s r) → f s = .error e → T.Fails e) :
    Typed T Γ m φ R := by
  intro s hs hΓ
  rw [hm]
  rcases hr : f s with e | a
  · exact ⟨hs, T.refl s, herr s e hs hΓ hr⟩
  · exact ⟨hs, T.refl s, hok s a hs hΓ hr⟩

theorem reads {f : S → Except ε α}
    (hok : ∀ s a, T.Inv s → (∀ r ∈ Γ, T.Good s r) → f s = .ok a →
      φ a ∧ ∀ r ∈ R a, T.Good s r)
    (herr : ∀ s e, T.Inv s → (∀ r ∈ Γ, T.Good s r) → f s = .error e → T.Fails e) :
    Typed T Γ (Prog.reads f) φ R :=
  read (fun _ => rfl) hok herr

/-- A program that cannot fail. -/
theorem total {f : S → α × S}
    (h : ∀ s, T.Inv s → (∀ r ∈ Γ, T.Good s r) →
      T.Inv (f s).2 ∧ T.Ext s (f s).2 ∧ φ (f s).1 ∧ ∀ r ∈ R (f s).1, T.Good (f s).2 r) :
    Typed T Γ (Prog.ofExec fun s => (.ok (f s).1, (f s).2)) φ R :=
  fun s hs hΓ => h s hs hΓ

/-- Catching a fault. -/
theorem attempt (hm : Typed T Γ m φ R) :
    Typed T Γ (Prog.attempt m)
      (fun r => match r with | .ok a => φ a | .error e => T.Fails e)
      fun r => match r with | .ok a => R a | .error _ => ∅ := by
  intro s hs hΓ
  rw [Prog.exec_attempt]
  have h := hm s hs hΓ
  rcases hr : m.exec s with ⟨r, t⟩
  rw [hr] at h
  cases r with
  | ok a => exact h
  | error e =>
      exact ⟨h.1, h.2.1, h.2.2, fun r hr => absurd hr (Set.notMem_empty r)⟩

/-- A program of a component, under a theory of that component. -/
theorem within {A : Type} {U : Theory ε A ρ} {view : S → A} {update : S → A → S}
    {m : Prog ε A α} (hm : Typed U Γ m φ R)
    (hview : ∀ {s}, T.Inv s → U.Inv (view s))
    (hgood : ∀ {s r}, T.Good s r → U.Good (view s) r)
    (hinv : ∀ {s a}, T.Inv s → U.Inv a → U.Ext (view s) a →
      T.Inv (update s a) ∧ T.Ext s (update s a))
    (hback : ∀ {s a r}, U.Good a r → T.Good (update s a) r)
    (hfails : ∀ {e}, U.Fails e → T.Fails e) :
    Typed T Γ (Prog.within view update m) φ R := by
  intro s hs hΓ
  rw [Prog.exec_within]
  have h := hm (view s) (hview hs) fun r hr => hgood (hΓ r hr)
  rcases hr : m.exec (view s) with ⟨r, a⟩
  rw [hr] at h
  cases r with
  | error e =>
      obtain ⟨ha, hext, he⟩ := h
      obtain ⟨hs', hext'⟩ := hinv hs ha hext
      exact ⟨hs', hext', hfails he⟩
  | ok b =>
      obtain ⟨ha, hext, hφ, hR⟩ := h
      obtain ⟨hs', hext'⟩ := hinv hs ha hext
      exact ⟨hs', hext', hφ, fun r hr => hback (hR r hr)⟩

/-! ### Lists -/

/-- Run a well-typed program on every element and collect the results. -/
theorem mapM {γ : Type} {f : γ → Prog ε S α} {xs : List γ}
    (h : ∀ x ∈ xs, Typed T Γ (f x) φ R) :
    Typed T Γ (xs.mapM f) (fun as => as.length = xs.length ∧ ∀ a ∈ as, φ a)
      fun as => {r | ∃ a ∈ as, r ∈ R a} := by
  induction xs generalizing Γ with
  | nil =>
      rw [List.mapM_nil]
      exact pure ⟨rfl, by simp⟩ (by rintro r ⟨a, ha, -⟩; simp at ha)
  | cons x xs ih =>
      rw [List.mapM_cons]
      refine bind (h x List.mem_cons_self) fun a ha => ?_
      refine bind (ih fun y hy =>
        (h y (List.mem_cons_of_mem _ hy)).weaken Set.subset_union_left) fun as has => ?_
      refine pure ⟨by simp [has.1], ?_⟩ ?_
      · intro b hb
        rcases List.mem_cons.mp hb with rfl | hb
        · exact ha
        · exact has.2 b hb
      · rintro r ⟨b, hb, hr⟩
        rcases List.mem_cons.mp hb with rfl | hb
        · exact Or.inl (Or.inr hr)
        · exact Or.inr ⟨b, hb, hr⟩

/-- Thread an accumulator through a list. -/
theorem foldlM {γ : Type} {f : α → γ → Prog ε S α} {xs : List γ}
    (h : ∀ a, φ a → ∀ x ∈ xs, Typed T (Γ ∪ R a) (f a x) φ R) {a : α} (ha : φ a)
    (hR : R a ⊆ Γ) : Typed T Γ (xs.foldlM f a) φ R := by
  induction xs generalizing Γ a with
  | nil =>
      rw [List.foldlM_nil]
      exact pure ha hR
  | cons x xs ih =>
      rw [List.foldlM_cons]
      refine bind ((h a ha x List.mem_cons_self).weaken (by simp [hR])) fun b hb => ?_
      refine ih (fun c hc y hy => ?_) hb Set.subset_union_right
      refine (h c hc y (List.mem_cons_of_mem _ hy)).weaken ?_
      exact Set.union_subset_union_left _ Set.subset_union_left

/-- The first success of a search. -/
theorem findSomeM {γ : Type} {f : γ → Prog ε S (Option β)} {xs : List γ} {Q : Option β → Set ρ}
    (h : ∀ x ∈ xs, Typed T Γ (f x) (fun _ => True) Q) (hQ : Q none ⊆ Γ) :
    Typed T Γ (xs.findSomeM? f) (fun _ => True) Q := by
  induction xs with
  | nil => exact pure trivial hQ
  | cons x xs ih =>
      rw [List.findSomeM?_cons]
      refine bind (h x List.mem_cons_self) fun r _ => ?_
      cases r with
      | some b => exact pure trivial Set.subset_union_right
      | none =>
          refine (ih fun y hy => h y (List.mem_cons_of_mem _ hy)).weaken ?_
          exact Set.subset_union_left

end Typed

end Deka.Lib
