/-
Deka/Lib/Bare.lean

Programs whose results are not watched.

A theory of programs often has only a few steps that touch what it is about.  The others keep the
invariant whatever they return: for them `Bare` needs a rule for each way to build a program, and
no postconditions.
-/
import Deka.Lib.Program

namespace Deka.Lib

variable {ε S ρ α β : Type} {T : Theory ε S ρ} {Γ Δ : Set ρ}

/-- `m` is well typed, and nothing is said of its result. -/
def Bare (T : Theory ε S ρ) (Γ : Set ρ) (m : Prog ε S α) : Prop :=
  Typed T Γ m (fun _ => True) fun _ => ∅

namespace Bare

variable {m : Prog ε S α} {k : α → Prog ε S β}

theorem of_typed {φ : α → Prop} {R : α → Set ρ} (hm : Typed T Γ m φ R) : Bare T Γ m :=
  hm.promise (fun _ _ => trivial) fun _ _ => Set.empty_subset _

theorem weaken (hm : Bare T Δ m) (hΔ : Δ ⊆ Γ) : Bare T Γ m := Typed.weaken hm hΔ

theorem pure (a : α) : Bare T Γ (Pure.pure a) := Typed.pure trivial (Set.empty_subset _)

theorem throw {e : ε} (he : T.Fails e) : Bare T Γ (MonadExcept.throw e : Prog ε S α) :=
  Typed.throw he

theorem bind (hm : Bare T Γ m) (hk : ∀ a, Bare T Γ (k a)) : Bare T Γ (m >>= k) :=
  Typed.bind hm fun a _ => (hk a).weaken Set.subset_union_left

/-- What the first part returns is known in the second. -/
theorem after {φ : α → Prop} {R : α → Set ρ} (hm : Typed T Γ m φ R)
    (hk : ∀ a, φ a → Bare T (Γ ∪ R a) (k a)) : Bare T Γ (m >>= k) :=
  Typed.bind hm hk

theorem map {f : α → β} (hm : Bare T Γ m) : Bare T Γ (f <$> m) :=
  Typed.map hm (fun _ _ => trivial) fun _ _ => Set.empty_subset _

theorem discard (hm : Bare T Γ m) : Bare T Γ (Functor.discard m) := Typed.discard hm

theorem reads {f : S → Except ε α} (hfails : ∀ e, T.Fails e) : Bare T Γ (Prog.reads f) :=
  Typed.reads (fun _ _ _ _ _ => ⟨trivial, fun _ hr => absurd hr (Set.notMem_empty _)⟩)
    fun _ e _ _ _ => hfails e

theorem attempt (hm : Bare T Γ m) : Bare T Γ (Prog.attempt m) := of_typed (Typed.attempt hm)

theorem ite {c : Prop} [Decidable c] {m' : Prog ε S α} (hm : Bare T Γ m) (hm' : Bare T Γ m') :
    Bare T Γ (if c then m else m') := by
  by_cases hc : c
  · rwa [if_pos hc]
  · rwa [if_neg hc]

theorem mapM {γ : Type} {f : γ → Prog ε S α} {xs : List γ} (h : ∀ x ∈ xs, Bare T Γ (f x)) :
    Bare T Γ (xs.mapM f) :=
  of_typed (Typed.mapM h)

theorem forM {γ : Type} {f : γ → Prog ε S PUnit} {xs : List γ} (h : ∀ x ∈ xs, Bare T Γ (f x)) :
    Bare T Γ (xs.forM f) := by
  induction xs with
  | nil => exact pure PUnit.unit
  | cons x xs ih =>
    exact bind (h x List.mem_cons_self) fun _ => ih fun y hy => h y (List.mem_cons_of_mem _ hy)

theorem findSomeM {γ : Type} {f : γ → Prog ε S (Option β)} {xs : List γ}
    (h : ∀ x ∈ xs, Bare T Γ (f x)) : Bare T Γ (xs.findSomeM? f) :=
  Typed.findSomeM h (Set.empty_subset _)

end Bare

end Deka.Lib
