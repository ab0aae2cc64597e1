/-
Deka/Typeck/Settled.lean

The scrutinee types that a match is written for, and the values they have.
-/
import Deka.Typeck.Matching

namespace Deka.Typeck

open Tables

section

variable {E F : Type} {env : Tables E}

/-! ### The types of a match -/

/-- The types of the values inside a value of a type. -/
inductive Inside (env : Tables E) : Ty → Ty → Prop
  | refl (ty : Ty) : Inside env ty ty
  | payload {ty t u : Ty} {name case : String} {shape : List (String × Option Ty)} :
      env.enumShape ty = some (name, shape) → shape.lookup case = some (some t) →
      Inside env t u → Inside env ty u
  | member {members : List Ty} {m u : Ty} : m ∈ members → Inside env m u →
      Inside env (.union members) u
  | field {ty t u : Ty} {name field : String} {types : String → Option Ty} :
      env.structFields ty = some (name, types) → types field = some t → Inside env t u →
      Inside env ty u

/-- A type as annotations have it: known everywhere, with unions of distinct members that
can be told apart. -/
structure Settled (env : Tables E) (ty : Ty) : Prop where
  known : ∀ u, Inside env ty u → u ≠ .error ∧ u ≠ .infer ∧ u ≠ .var
  members : ∀ members, Inside env ty (.union members) → ∀ m ∈ members, env.isUnionMember m = true
  distinct : ∀ members, Inside env ty (.union members) →
    (members.filterMap unionMemberName).Nodup

theorem Settled.inside {ty t : Ty} (h : Settled env ty) (ht : ∀ u, Inside env t u → Inside env ty u) :
    Settled env t where
  known u hu := h.known u (ht u hu)
  members ms hms := h.members ms (ht _ hms)
  distinct ms hms := h.distinct ms (ht _ hms)

theorem Settled.payload {ty t : Ty} {name case : String} {shape : List (String × Option Ty)}
    (h : Settled env ty) (hshape : env.enumShape ty = some (name, shape))
    (hcase : shape.lookup case = some (some t)) : Settled env t :=
  h.inside fun _ hu => .payload hshape hcase hu

theorem Settled.member {members : List Ty} {m : Ty} (h : Settled env (.union members))
    (hm : m ∈ members) : Settled env m :=
  h.inside fun _ hu => .member hm hu

theorem Settled.field {ty t : Ty} {name field : String} {types : String → Option Ty}
    (h : Settled env ty) (hfields : env.structFields ty = some (name, types))
    (hfield : types field = some t) : Settled env t :=
  h.inside fun _ hu => .field hfields hfield hu

theorem Settled.leaf {ty : Ty} (hknown : ty ≠ .error ∧ ty ≠ .infer ∧ ty ≠ .var)
    (hshape : env.enumShape ty = none) (hfields : env.structFields ty = none)
    (hunion : ∀ members, ty ≠ .union members) : Settled env ty := by
  have honly : ∀ u, Inside env ty u → u = ty := by
    intro u hu
    cases hu with
    | refl => rfl
    | payload hcases _ _ =>
      rw [hshape] at hcases
      cases hcases
    | member _ _ => exact absurd rfl (hunion _)
    | field htypes _ _ =>
      rw [hfields] at htypes
      cases htypes
  refine ⟨fun u hu => ?_, fun members hu => ?_, fun members hu => ?_⟩
  · rw [honly u hu]
    exact hknown
  · exact absurd (honly _ hu).symm (hunion members)
  · exact absurd (honly _ hu).symm (hunion members)

theorem Settled.cases {ty : Ty} {name : String} {shape : List (String × Option Ty)}
    (hshape : env.enumShape ty = some (name, shape)) (hfields : env.structFields ty = none)
    (h : ∀ case t, shape.lookup case = some (some t) → Settled env t) : Settled env ty := by
  have hunion : ∀ members, ty ≠ .union members := by
    rintro members rfl
    cases hshape
  have hinside : ∀ u, Inside env ty u → u = ty ∨ ∃ t, Settled env t ∧ Inside env t u := by
    intro u hu
    cases hu with
    | refl => exact Or.inl rfl
    | payload hcases hcase hin =>
      rw [hshape] at hcases
      cases hcases
      exact Or.inr ⟨_, h _ _ hcase, hin⟩
    | member _ _ => exact absurd rfl (hunion _)
    | field htypes _ _ =>
      rw [hfields] at htypes
      cases htypes
  refine ⟨fun u hu => ?_, fun members hu => ?_, fun members hu => ?_⟩
  · rcases hinside u hu with rfl | ⟨t, ht, hin⟩
    · refine ⟨?_, ?_, ?_⟩ <;> rintro rfl <;> cases hshape
    · exact ht.known u hin
  · rcases hinside _ hu with heq | ⟨t, ht, hin⟩
    · exact absurd heq.symm (hunion members)
    · exact ht.members members hin
  · rcases hinside _ hu with heq | ⟨t, ht, hin⟩
    · exact absurd heq.symm (hunion members)
    · exact ht.distinct members hin

theorem Settled.union {members : List Ty}
    (hmembers : ∀ m ∈ members, env.isUnionMember m = true ∧ Settled env m)
    (hdistinct : (members.filterMap unionMemberName).Nodup) : Settled env (.union members) := by
  have hinside : ∀ u, Inside env (.union members) u →
      u = .union members ∨ ∃ m, Settled env m ∧ Inside env m u := by
    intro u hu
    cases hu with
    | refl => exact Or.inl rfl
    | payload hcases _ _ => cases hcases
    | member hm hin => exact Or.inr ⟨_, (hmembers _ hm).2, hin⟩
    | field htypes _ _ => cases htypes
  refine ⟨fun u hu => ?_, fun ms hu => ?_, fun ms hu => ?_⟩
  · rcases hinside u hu with rfl | ⟨m, hm, hin⟩
    · simp
    · exact hm.known u hin
  · rcases hinside _ hu with heq | ⟨m, hm, hin⟩
    · cases heq
      exact fun m hm => (hmembers m hm).1
    · exact hm.members ms hin
  · rcases hinside _ hu with heq | ⟨m, hm, hin⟩
    · cases heq
      exact hdistinct
    · exact hm.distinct ms hin

/-- The members of a union are known by their names. -/
theorem Settled.eq_of_name {members : List Ty} {m n : Ty} {label : String}
    (h : Settled env (.union members)) (hm : m ∈ members) (hn : n ∈ members)
    (hmname : unionMemberName m = some label) (hnname : unionMemberName n = some label) :
    m = n := by
  have hnodup := h.distinct members (.refl _)
  clear h
  induction members with
  | nil => cases hm
  | cons x rest ih =>
    have hname : ∀ y ∈ rest, unionMemberName y = some label → unionMemberName x ≠ some label := by
      intro y hy hyname hxname
      rw [List.filterMap_cons_some hxname, List.nodup_cons] at hnodup
      exact hnodup.1 (List.mem_filterMap.mpr ⟨y, hy, hyname⟩)
    have hrest : (rest.filterMap unionMemberName).Nodup := by
      cases hx : unionMemberName x with
      | none => rwa [List.filterMap_cons_none hx] at hnodup
      | some name =>
        rw [List.filterMap_cons_some hx] at hnodup
        exact hnodup.of_cons
    rcases List.mem_cons.mp hm with hmx | hm
    · rcases List.mem_cons.mp hn with hnx | hn
      · rw [hmx, hnx]
      · exact absurd (hmx ▸ hmname) (hname n hn hnname)
    · rcases List.mem_cons.mp hn with hnx | hn
      · exact absurd (hnx ▸ hnname) (hname m hm hmname)
      · exact ih hm hn hrest

/-- No enum has the name of a primitive type, of an error class or of a struct. -/
structure NamesApart (env : Tables E) : Prop where
  primitives : ∀ name, (env.enums.lookup name).isSome →
    isUnionPrimitiveName name = false ∧ errorClasses.contains name = false
  structs : ∀ base args, (env.structs.lookup base).isSome →
    env.enumShape (.generic base args) = none

theorem isTested_of_shape {ty : Ty} {shape : String × List (String × Option Ty)}
    (h : env.enumShape ty = some shape) : env.isTested ty = true := by
  cases ty with
  | option inner => rfl
  | named name =>
    obtain ⟨info, hinfo, _⟩ := Option.map_eq_some_iff.mp h
    simp [isTested, hinfo]
  | generic base args => simp [isTested, h]
  | _ => cases h

/-- The values of a type with cases. -/
theorem HasType.cases_of_shape {ty : Ty} {v : Value F} {name : String}
    {shape : List (String × Option Ty)} (hnames : NamesApart env)
    (hshape : env.enumShape ty = some (name, shape)) (h : HasType env v ty) :
    (∃ case, v = .enum name case none ∧ shape.lookup case = some none) ∨
    (∃ case t w, v = .enum name case (some w) ∧ shape.lookup case = some (some t) ∧
      HasType env w t) := by
  have hnamed : ∀ n, ty = .named n →
      isUnionPrimitiveName n = false ∧ errorClasses.contains n = false := by
    rintro n rfl
    obtain ⟨info, hinfo, _⟩ := Option.map_eq_some_iff.mp hshape
    exact hnames.primitives n (by rw [hinfo]; rfl)
  cases h with
  | string text => exact absurd (hnamed _ rfl).1 (by decide)
  | number number => exact absurd (hnamed _ rfl).1 (by decide)
  | boolean value => exact absurd (hnamed _ rfl).1 (by decide)
  | bytes bytes => exact absurd (hnamed _ rfl).1 (by decide)
  | void => exact absurd (hnamed _ rfl).1 (by decide)
  | errorObject hname =>
    have hnot := (hnamed _ rfl).2
    rw [List.contains_iff_mem.mpr hname] at hnot
    cases hnot
  | anyError hname => exact absurd (hnamed _ rfl).2 (by decide)
  | struct hfields hpresent htyped =>
    cases ty with
    | generic base args => simp [structFields, hshape] at hfields
    | struct n => cases hshape
    | _ => cases hfields
  | case hcases hcase =>
    rw [hshape] at hcases
    cases hcases
    exact Or.inl ⟨_, rfl, hcase⟩
  | payload hcases hcase hw =>
    rw [hshape] at hcases
    cases hcases
    exact Or.inr ⟨_, _, _, rfl, hcase, hw⟩
  | member hm hv => cases hshape
  | other hother =>
    rw [isTested_of_shape hshape] at hother
    cases hother

end

end Deka.Typeck
