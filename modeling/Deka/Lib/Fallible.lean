/-
Deka/Lib/Fallible.lean

Programs that stop at the first error.

What is known of a run that came through: every part of it came through.  `demand` is the
check that such programs are made of.
-/
import Mathlib.Data.List.Basic

namespace Deka.Lib

variable {ε α β : Type}

/-- Go on only where `ok`. -/
def demand (ok : Bool) (e : ε) : Except ε Unit := if ok then .ok () else .error e

@[simp] theorem demand_eq_ok {ok : Bool} {e : ε} {u : Unit} :
    demand ok e = .ok u ↔ ok = true := by
  rw [demand]
  cases ok <;> simp

theorem ok_bind (a : α) (f : α → Except ε β) : (Except.ok a >>= f) = f a := rfl

theorem bind_eq_ok {m : Except ε α} {f : α → Except ε β} {b : β} :
    (m >>= f) = .ok b ↔ ∃ a, m = .ok a ∧ f a = .ok b := by
  cases m with
  | error e =>
    refine ⟨fun h => (by cases h), ?_⟩
    rintro ⟨a, ha, -⟩
    cases ha
  | ok a =>
    refine ⟨fun h => ⟨a, rfl, h⟩, ?_⟩
    rintro ⟨a', ha, h⟩
    cases ha
    exact h

theorem forM_eq_ok {f : α → Except ε Unit} {xs : List α} :
    xs.forM f = .ok () ↔ ∀ x ∈ xs, f x = .ok () := by
  induction xs with
  | nil => simp [List.forM, pure, Except.pure]
  | cons x xs ih =>
    show (f x >>= fun _ => xs.forM f) = .ok () ↔ _
    rw [bind_eq_ok, List.forall_mem_cons, ← ih]
    refine ⟨?_, fun h => ⟨(), h⟩⟩
    rintro ⟨u, h⟩
    exact h

/-- A list of parts that came through, one by one. -/
theorem mapM_eq_ok {f : α → Except ε β} {xs : List α} {ys : List β} (h : xs.mapM f = .ok ys) :
    List.Forall₂ (fun x y => f x = .ok y) xs ys := by
  induction xs generalizing ys with
  | nil =>
    cases h
    exact .nil
  | cons x xs ih =>
    rw [List.mapM_cons] at h
    obtain ⟨y, hy, h⟩ := bind_eq_ok.mp h
    obtain ⟨rest, hrest, h⟩ := bind_eq_ok.mp h
    cases h
    exact .cons hy (ih hrest)

/-- Of two lists that are related entry by entry, each entry has a partner. -/
theorem exists_of_forall₂ {R : α → β → Prop} {as : List α} {bs : List β}
    (h : List.Forall₂ R as bs) {a : α} (ha : a ∈ as) : ∃ b ∈ bs, R a b := by
  induction h with
  | nil => cases ha
  | @cons c d as bs hcd _ ih =>
    rcases List.mem_cons.mp ha with rfl | ha
    · exact ⟨d, List.mem_cons_self, hcd⟩
    · obtain ⟨b, hb, hab⟩ := ih ha
      exact ⟨b, List.mem_cons_of_mem _ hb, hab⟩

end Deka.Lib
