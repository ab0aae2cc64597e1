/-
Deka/Typeck/Covers.lean

What a coverage claims: `Covers` is a walk along the type of a value.

A match from which nothing is missing claims every value of its type
(`covers_of_missing`), and what merged arms claim one of them claims (`covers_merge`).
What is missing below a member of a union that has no cases is not reported at the top of
a match, which is what `Whole` leaves out.
-/
import Deka.Typeck.Coverage
import Deka.Typeck.Settled

namespace Deka.Typeck

open Tables Coverage

section

variable {E F : Type} {env : Tables E}

/-! ### What a coverage claims -/

/-- A coverage claims a value of a type. -/
def Covers (env : Tables E) : Coverage → Ty → Value F → Prop
  | absent, _, _ => False
  | all, _, _ => True
  | cases covered, ty, v =>
    (∃ members, ty = .union members ∧ ∃ m ∈ members, ∃ label, unionMemberName m = some label ∧
      HasType env v m ∧ Covers env (covered label) m v) ∨
    (∃ name shape, env.enumShape ty = some (name, shape) ∧
      ((∃ case, v = .enum name case none ∧ shape.lookup case = some none ∧
          covered case = all) ∨
        (∃ case t w, v = .enum name case (some w) ∧ shape.lookup case = some (some t) ∧
          HasType env w t ∧ Covers env (covered case) t w)))

/-- What merged coverages claim, one of them claims. -/
theorem covers_merge {c d : Coverage} {ty : Ty} {v : Value F} (h : Covers env (merge c d) ty v) :
    Covers env c ty v ∨ Covers env d ty v := by
  induction c generalizing d ty v with
  | absent => exact Or.inr h
  | all => exact Or.inl trivial
  | cases left ih =>
    cases d with
    | absent => exact Or.inl h
    | all => exact Or.inr trivial
    | cases right =>
      rcases h with ⟨members, hty, m, hm, label, hlabel, hv, hcovers⟩ |
        ⟨name, shape, hshape, ⟨case, hv, hcase, hall⟩ | ⟨case, t, w, hv, hcase, hw, hcovers⟩⟩
      · rcases ih label hcovers with hleft | hright
        · exact Or.inl (Or.inl ⟨members, hty, m, hm, label, hlabel, hv, hleft⟩)
        · exact Or.inr (Or.inl ⟨members, hty, m, hm, label, hlabel, hv, hright⟩)
      · rcases merge_eq_all hall with hl | hr
        · exact Or.inl (Or.inr ⟨name, shape, hshape, Or.inl ⟨case, hv, hcase, hl⟩⟩)
        · exact Or.inr (Or.inr ⟨name, shape, hshape, Or.inl ⟨case, hv, hcase, hr⟩⟩)
      · rcases ih case hcovers with hleft | hright
        · exact Or.inl (Or.inr ⟨name, shape, hshape, Or.inr ⟨case, t, w, hv, hcase, hw, hleft⟩⟩)
        · exact Or.inr (Or.inr ⟨name, shape, hshape, Or.inr ⟨case, t, w, hv, hcase, hw, hright⟩⟩)

/-- At the top of a match nothing is reported below a member of a union that is no enum,
nor for a type without cases. -/
def Whole (env : Tables E) (c : Coverage) (ty : Ty) (path : String) : Prop :=
  path ≠ "" ∨ (env.enumShape ty).isSome ∨ c = all ∨
    ∃ members covered, ty = .union members ∧ c = cases covered ∧
      ∀ m ∈ members, ∀ label, unionMemberName m = some label →
        (env.enumShape m).isSome ∨ (covered label).isAbsent = true ∨ covered label = all

/-- A coverage from which nothing is missing claims every value. -/
theorem covers_of_missing {c : Coverage} {ty : Ty} {path : String} {v : Value F}
    (hnames : NamesApart env) (h : collectMissing env c ty path = [])
    (hpresent : c.isAbsent = false) (hwhole : Whole env c ty path) (hsettled : Settled env ty)
    (hv : HasType env v ty) : Covers env c ty v := by
  induction c generalizing ty path v with
  | absent => cases hpresent
  | all => trivial
  | cases covered ih =>
    by_cases hunion : ∃ members, ty = .union members
    · obtain ⟨members, rfl⟩ := hunion
      left
      cases hv with
      | member hm hv =>
        rename_i m
        have hmember := hsettled.members members (.refl _) m hm
        obtain ⟨label, hlabel⟩ : ∃ label, unionMemberName m = some label := by
          cases m <;> first | exact ⟨_, rfl⟩ | cases hmember
        obtain ⟨hcovered, hmissing⟩ := collectMissing_union.mp h m hm label hlabel
        refine ⟨members, rfl, m, hm, label, hlabel, hv, ?_⟩
        refine ih label hmissing hcovered ?_ (hsettled.member hm) hv
        rcases hwhole with hpath | hshape | hall | ⟨ms, cov, hty, hc, hwhole⟩
        · exact Or.inl hpath
        · cases hshape
        · cases hall
        · cases hty
          cases hc
          rcases hwhole m hm label hlabel with hshape | habsent | hall
          · exact Or.inr (Or.inl hshape)
          · rw [hcovered] at habsent
            cases habsent
          · exact Or.inr (Or.inr (Or.inl hall))
      | struct hfields _ _ => cases hfields
      | case hshape _ => cases hshape
      | payload hshape _ _ => cases hshape
      | other hother => cases hother
    · have hunion : ∀ members, ty ≠ .union members := fun members hty => hunion ⟨members, hty⟩
      cases hshape : env.enumShape ty with
      | none =>
        rcases (collectMissing_other hunion hshape).mp h with hpath | herror
        · rcases hwhole with hne | hsome | hall | ⟨ms, cov, hty, _⟩
          · exact absurd hpath hne
          · rw [hshape] at hsome
            cases hsome
          · cases hall
          · exact absurd hty (hunion ms)
        · have hknown := (hsettled.known ty (.refl _)).1
          cases ty with
          | error => exact absurd rfl hknown
          | _ => cases herror
      | some shape =>
        obtain ⟨name, shape⟩ := shape
        have hcases := (collectMissing_shape hshape).mp h
        right
        refine ⟨name, shape, hshape, ?_⟩
        have hmem : ∀ case q, shape.lookup case = some q → (case, q) ∈ shape := by
          intro case q hlookup
          obtain ⟨before, after, hsplit, _⟩ := List.lookup_eq_some_iff.mp hlookup
          simp [hsplit]
        rcases hv.cases_of_shape hnames hshape with ⟨case, rfl, hcase⟩ | ⟨case, t, w, rfl, hcase, hw⟩
        · exact Or.inl ⟨case, rfl, hcase, (hcases _ (hmem case none hcase)).2.2 rfl⟩
        · obtain ⟨hcovered, hmissing, _⟩ := hcases _ (hmem case (some t) hcase)
          refine Or.inr ⟨case, t, w, rfl, hcase, hw, ?_⟩
          exact ih case (hmissing t rfl) hcovered (Or.inl (qualify_ne_empty _ _ _))
            (hsettled.payload hshape hcase) hw

theorem not_covers_nothing {ty : Ty} {v : Value F} : ¬ Covers env nothing ty v := by
  rintro (⟨_, _, _, _, _, _, _, h⟩ | ⟨_, _, _, ⟨_, _, _, h⟩ | ⟨_, _, _, _, _, _, h⟩⟩)
  · exact h
  · cases h
  · exact h

theorem covers_only {c : Coverage} {name : String} {ty : Ty} {v : Value F}
    (h : Covers env (only name c) ty v) :
    (∃ members, ty = .union members ∧ ∃ m ∈ members, unionMemberName m = some name ∧
      HasType env v m ∧ Covers env c m v) ∨
    (∃ label shape, env.enumShape ty = some (label, shape) ∧
      ((v = .enum label name none ∧ shape.lookup name = some none) ∨
        (∃ t w, v = .enum label name (some w) ∧ shape.lookup name = some (some t) ∧
          HasType env w t ∧ Covers env c t w))) := by
  rcases h with ⟨members, hty, m, hm, label, hlabel, hv, hcovers⟩ |
    ⟨label, shape, hshape, ⟨case, hv, hcase, hall⟩ | ⟨case, t, w, hv, hcase, hw, hcovers⟩⟩
  · have hlabelled : Covers env (if label = name then c else absent) m v := hcovers
    by_cases hname : label = name
    · rw [if_pos hname] at hlabelled
      exact Or.inl ⟨members, hty, m, hm, hname ▸ hlabel, hv, hlabelled⟩
    · rw [if_neg hname] at hlabelled
      exact hlabelled.elim
  · have hnamed : (if case = name then c else absent) = all := hall
    by_cases hname : case = name
    · subst hname
      exact Or.inr ⟨label, shape, hshape, Or.inl ⟨hv, hcase⟩⟩
    · rw [if_neg hname] at hnamed
      cases hnamed
  · have hnamed : Covers env (if case = name then c else absent) t w := hcovers
    by_cases hname : case = name
    · subst hname
      rw [if_pos rfl] at hnamed
      exact Or.inr ⟨label, shape, hshape, Or.inr ⟨t, w, hv, hcase, hw, hnamed⟩⟩
    · rw [if_neg hname] at hnamed
      exact hnamed.elim

theorem covers_alternatives {patterns : List (Pattern E)} {c : Coverage} {ty : Ty} {v : Value F}
    (h : Covers env (ofAlternatives c patterns) ty v) :
    Covers env c ty v ∨ ∃ p ∈ patterns, Covers env (ofPattern p) ty v := by
  induction patterns generalizing c with
  | nil => exact Or.inl h
  | cons p rest ih =>
    rcases ih h with hmerged | ⟨q, hq, hcovers⟩
    · rcases covers_merge hmerged with hc | hp
      · exact Or.inl hc
      · exact Or.inr ⟨p, List.mem_cons_self, hp⟩
    · exact Or.inr ⟨q, List.mem_cons_of_mem _ hq, hcovers⟩

end

end Deka.Typeck
