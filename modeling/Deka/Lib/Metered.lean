/-
Deka/Lib/Metered.lean

Grants drawn from a budget that fills up at a fixed rate.

A log of decisions is metered when each grant takes one unit from a budget, which between two
decisions grows by no more than `rate` for each unit of time and never exceeds `cap`.  However
the budget is kept, the grants of a window are then bounded (`Metered.window_le`).
-/
import Mathlib.Algebra.Order.Field.Basic
import Mathlib.Tactic.Linarith
import Mathlib.Tactic.Ring

namespace Deka.Lib

variable {K : Type} [Field K] [LinearOrder K] [IsStrictOrderedRing K]

/-- The unit that a grant takes. -/
def unit (granted : Bool) : K := if granted then 1 else 0

/-- From the budget `b` at time `t`, the decisions of the log are paid for. -/
inductive Metered (rate cap : K) : K → K → List (K × Bool) → Prop
  | nil {t b : K} : Metered rate cap t b []
  | cons {t u b m : K} {granted : Bool} {log : List (K × Bool)} :
      t ≤ u → m ≤ b + rate * (u - t) → m ≤ cap → unit granted ≤ m →
        Metered rate cap u (m - unit granted) log → Metered rate cap t b ((u, granted) :: log)

/-- The number of grants from `s` to `e`. -/
def granted (s e : K) (log : List (K × Bool)) : Nat :=
  (log.filter fun d => d.2 && decide (s ≤ d.1 ∧ d.1 ≤ e)).length

variable {rate cap : K}

omit [Field K] [IsStrictOrderedRing K] in
@[simp] theorem granted_nil (s e : K) : granted s e [] = 0 := rfl

omit [IsStrictOrderedRing K] in
theorem granted_cons (s e : K) (d : K × Bool) (log : List (K × Bool)) :
    (granted s e (d :: log) : K) =
      unit (d.2 && decide (s ≤ d.1 ∧ d.1 ≤ e)) + granted s e log := by
  rw [granted, granted, unit, List.filter_cons]
  split
  · rw [List.length_cons]
    push_cast
    ring
  · ring

theorem unit_nonneg (b : Bool) : (0 : K) ≤ unit b := by
  cases b
  · exact le_refl 0
  · exact zero_le_one

theorem unit_and_le (a b : Bool) : (unit (a && b) : K) ≤ unit a := by
  cases a
  · exact le_refl _
  · cases b
    · exact unit_nonneg true
    · exact le_refl _

namespace Metered

/-- The budget may have been larger, or read earlier. -/
theorem mono {t u b c : K} {log : List (K × Bool)} (h : Metered rate cap u c log)
    (ht : t ≤ u) (hb : c ≤ b + rate * (u - t)) : Metered rate cap t b log := by
  cases h with
  | nil => exact .nil
  | cons hu hm hcap hpaid hrest =>
    refine .cons (ht.trans hu) ?_ hcap hpaid hrest
    linarith

omit [IsStrictOrderedRing K] in
theorem granted_eq_zero {t b s e : K} {log : List (K × Bool)} (h : Metered rate cap t b log)
    (he : e < t) : granted s e log = 0 := by
  induction h with
  | nil => rfl
  | @cons t u b m g log hu hm hcap hpaid hrest ih =>
    have hlate : ¬ (s ≤ u ∧ u ≤ e) := fun hw => absurd (he.trans_le hu) (not_lt.mpr hw.2)
    rw [granted, List.filter_cons_of_neg (by simp [hlate])]
    exact ih (he.trans_le hu)

/-- What has been granted by the time `e` was there or has come in. -/
theorem granted_le {t b s e : K} {log : List (K × Bool)} (h : Metered rate cap t b log)
    (hrate : 0 ≤ rate) (hb : 0 ≤ b) (he : t ≤ e) :
    (granted s e log : K) ≤ b + rate * (e - t) := by
  induction h with
  | nil =>
    have : 0 ≤ rate * (e - _) := mul_nonneg hrate (sub_nonneg.mpr he)
    rw [granted_nil, Nat.cast_zero]
    exact add_nonneg hb this
  | @cons t u b m g log hu hm hcap hpaid hrest ih =>
    rcases le_or_gt u e with hue | hue
    · have hlater := ih (sub_nonneg.mpr hpaid) hue
      have hnow := unit_and_le (K := K) g (decide (s ≤ u ∧ u ≤ e))
      rw [granted_cons]
      linarith
    · have hfirst : Metered rate cap u m ((u, g) :: log) :=
        .cons (le_refl u) (by linarith) hcap hpaid hrest
      rw [hfirst.granted_eq_zero hue, Nat.cast_zero]
      exact add_nonneg hb (mul_nonneg hrate (sub_nonneg.mpr he))

/-- No window sees more than a full budget and what comes in while it lasts. -/
theorem window_le {t b s e : K} {log : List (K × Bool)} (h : Metered rate cap t b log)
    (hrate : 0 ≤ rate) (hcap : 0 ≤ cap) (he : s ≤ e) :
    (granted s e log : K) ≤ cap + rate * (e - s) := by
  induction h with
  | nil =>
    rw [granted_nil, Nat.cast_zero]
    exact add_nonneg hcap (mul_nonneg hrate (sub_nonneg.mpr he))
  | @cons t u b m g log hu hm hmcap hpaid hrest ih =>
    rcases lt_or_ge u s with hus | hus
    · -- the window opens later
      have hout : ¬ (s ≤ u ∧ u ≤ e) := fun hw => absurd hus (not_lt.mpr hw.1)
      rw [granted, List.filter_cons_of_neg (by simp [hout])]
      exact ih
    · have hfirst : Metered rate cap u m ((u, g) :: log) :=
        .cons (le_refl u) (by linarith) hmcap hpaid hrest
      rcases le_or_gt u e with hue | hue
      · have hall : (granted s e ((u, g) :: log) : K) ≤ m + rate * (e - u) :=
          hfirst.granted_le hrate ((unit_nonneg g).trans hpaid) hue
        have hlonger : rate * (e - u) ≤ rate * (e - s) :=
          mul_le_mul_of_nonneg_left (by linarith) hrate
        linarith
      · rw [hfirst.granted_eq_zero hue, Nat.cast_zero]
        exact add_nonneg hcap (mul_nonneg hrate (sub_nonneg.mpr he))

end Metered

end Deka.Lib
