/-
Deka/Lib/Triple.lean

Pre- and postconditions for state-and-exception programs.

`Triple P m Q E` says: run from a state with `P`, the program returns an `a` in a
state with `Q a`, or stops with a fault `e` in a state with `E e`.  Where typing
(`Typed`) speaks about references and never mentions a state, a triple speaks
about the states themselves; `Typed.triple` takes a typing over.
-/
import Deka.Lib.Program

namespace Deka.Lib

variable {ε S ρ α β : Type}

def Triple (P : S → Prop) (m : Prog ε S α) (Q : α → S → Prop) (E : ε → S → Prop) : Prop :=
  ∀ s, P s →
    match m.exec s with
    | (.ok a, s') => Q a s'
    | (.error e, s') => E e s'

namespace Triple

variable {P : S → Prop} {m : Prog ε S α} {k : α → Prog ε S β} {Q : α → S → Prop}
  {R : β → S → Prop} {E : ε → S → Prop}

/-! ### Using a triple -/

theorem ok (h : Triple P m Q E) {s s' : S} {a : α} (hs : P s) (he : m.exec s = (.ok a, s')) :
    Q a s' := by
  have := h s hs
  rwa [he] at this

theorem error (h : Triple P m Q E) {s s' : S} {e : ε} (hs : P s)
    (he : m.exec s = (.error e, s')) : E e s' := by
  have := h s hs
  rwa [he] at this

/-! ### Structural rules -/

theorem pure {a : α} (h : ∀ s, P s → Q a s) : Triple P (Pure.pure a) Q E :=
  fun s hs => h s hs

theorem throw {e : ε} (h : ∀ s, P s → E e s) : Triple P (MonadExcept.throw e) Q E :=
  fun s hs => h s hs

theorem bind (hm : Triple P m Q E) (hk : ∀ a, Triple (Q a) (k a) R E) :
    Triple P (m >>= k) R E := by
  intro s hs
  rw [Prog.exec_bind]
  have h₁ := hm s hs
  rcases hr : m.exec s with ⟨r, s₁⟩
  rw [hr] at h₁
  cases r with
  | error e => exact h₁
  | ok a => exact hk a s₁ h₁

theorem conseq {P' : S → Prop} {Q' : α → S → Prop} {E' : ε → S → Prop}
    (h : Triple P' m Q' E') (hP : ∀ s, P s → P' s) (hQ : ∀ a s, Q' a s → Q a s)
    (hE : ∀ e s, E' e s → E e s) : Triple P m Q E := by
  intro s hs
  have h' := h s (hP s hs)
  rcases hr : m.exec s with ⟨r, s'⟩
  rw [hr] at h'
  cases r with
  | ok a => exact hQ a s' h'
  | error e => exact hE e s' h'

theorem pre {P' : S → Prop} (h : Triple P' m Q E) (hP : ∀ s, P s → P' s) : Triple P m Q E :=
  h.conseq hP (fun _ _ => id) fun _ _ => id

theorem post {Q' : α → S → Prop} (h : Triple P m Q' E) (hQ : ∀ a s, Q' a s → Q a s) :
    Triple P m Q E :=
  h.conseq (fun _ => id) hQ fun _ _ => id

/-- A fact about the state that is no assertion of the program. -/
theorem assume {p : Prop} (hp : ∀ s, P s → p) (h : p → Triple P m Q E) : Triple P m Q E :=
  fun s hs => h (hp s hs) s hs

/-- A fact about the state goes through a program. -/
theorem frame {p : Prop} (h : Triple P m Q E) :
    Triple (fun s => p ∧ P s) m (fun a s => p ∧ Q a s) fun e s => p ∧ E e s :=
  assume (fun _ hs => hs.1) fun hp =>
    h.conseq (fun _ hs => hs.2) (fun _ _ hs => ⟨hp, hs⟩) fun _ _ hs => ⟨hp, hs⟩

/-- A parameter of the assertions that only the state knows. -/
theorem unknown {ι : Type} {P : ι → S → Prop} {Q : ι → α → S → Prop} {E : ι → ε → S → Prop}
    (h : ∀ i, Triple (P i) m (Q i) (E i)) :
    Triple (fun s => ∃ i, P i s) m (fun a s => ∃ i, Q i a s) fun e s => ∃ i, E i e s := by
  rintro s ⟨i, hs⟩
  exact (h i).conseq (fun _ hs => hs) (fun a s hs => ⟨i, hs⟩) (fun e s hs => ⟨i, hs⟩) s hs

/-- A parameter of the precondition that only the state knows. -/
theorem each {ι : Type} {P : ι → S → Prop} (h : ∀ i, Triple (P i) m Q E) :
    Triple (fun s => ∃ i, P i s) m Q E := by
  rintro s ⟨i, hs⟩
  exact h i s hs

theorem reads {f : S → Except ε α} (hok : ∀ s a, P s → f s = .ok a → Q a s)
    (herr : ∀ s e, P s → f s = .error e → E e s) : Triple P (Prog.reads f) Q E := by
  intro s hs
  rw [Prog.exec_reads]
  rcases hr : f s with e | a
  · exact herr s e hs hr
  · exact hok s a hs hr

theorem modify {f : S → S} {Q : PUnit → S → Prop} (h : ∀ s, P s → Q ⟨⟩ (f s)) :
    Triple P (modify f : Prog ε S PUnit) Q E :=
  fun s hs => h s hs

/-- Nothing runs after a throw. -/
theorem throwBind {e : ε} (h : ∀ s, P s → E e s) :
    Triple P (MonadExcept.throw e >>= k) R E :=
  bind (Q := fun _ _ => False) (throw h) fun _ _ hs => hs.elim

/-- Catching a fault. -/
theorem attempt {E' : ε → S → Prop} (hm : Triple P m Q E) :
    Triple P (Prog.attempt m)
      (fun r s => match r with | .ok a => Q a s | .error e => E e s) E' := by
  intro s hs
  rw [Prog.exec_attempt]
  have h := hm s hs
  rcases hr : m.exec s with ⟨r, t⟩
  rw [hr] at h
  cases r with
  | ok a => exact h
  | error e => exact h

/-- Running a program for its effect. -/
theorem discard {Q : S → Prop} (hm : Triple P m (fun _ => Q) E) :
    Triple P (Functor.discard m) (fun _ => Q) E :=
  bind hm fun _ => pure fun _ => id

/-- A loop over a list keeps an invariant. -/
theorem forM {γ : Type} {f : γ → Prog ε S PUnit} {xs : List γ}
    (h : ∀ x ∈ xs, Triple P (f x) (fun _ => P) E) : Triple P (xs.forM f) (fun _ => P) E := by
  induction xs with
  | nil => exact pure fun _ => id
  | cons x xs ih =>
      exact bind (h x List.mem_cons_self) fun _ =>
        ih fun y hy => h y (List.mem_cons_of_mem _ hy)

end Triple

/-- A typing as a triple; `I` is what survives every evolution of the state. -/
theorem Typed.triple {T : Theory ε S ρ} {Γ : Set ρ} {m : Prog ε S α} {φ : α → Prop}
    {R : α → Set ρ} (h : Typed T Γ m φ R) {I : S → Prop}
    (hI : ∀ {s t}, I s → T.Ext s t → I t) :
    Triple (fun s => T.Inv s ∧ I s ∧ ∀ r ∈ Γ, T.Good s r) m
      (fun a s => T.Inv s ∧ I s ∧ φ a ∧ ∀ r ∈ Γ ∪ R a, T.Good s r)
      (fun e s => T.Inv s ∧ I s ∧ T.Fails e) := by
  rintro s ⟨hs, hi, hΓ⟩
  have h' := h s hs hΓ
  rcases hr : m.exec s with ⟨r, s'⟩
  rw [hr] at h'
  cases r with
  | error e =>
      obtain ⟨hs', hext, he⟩ := h'
      exact ⟨hs', hI hi hext, he⟩
  | ok a =>
      obtain ⟨hs', hext, ha, hR⟩ := h'
      refine ⟨hs', hI hi hext, ha, ?_⟩
      rintro r (hr | hr)
      · exact T.mono hext (hΓ r hr)
      · exact hR r hr

end Deka.Lib
