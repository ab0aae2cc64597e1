/-
Deka/Typeck/CaseNames.lean

Names of cases in patterns.

A bare name in a pattern is a test if the type at its position is an enum with a case of that name.
At a union the cases of the member enums are not looked up, and `case_names_tested_iff` says that
this is the only way for the name of a case to bind.
-/
import Deka.Typeck.Accepted

namespace Deka.Typeck

variable {E F : Type}

/-- A bare name, whether it was found to be a case, and the type that is matched at its position. -/
structure BareName where
  name : String
  isCase : Bool
  ty : Ty

namespace Pattern

variable (env : Tables E)

mutual

/-- The bare names of a pattern that is matched against a type. -/
def bareNames : Pattern E → Ty → List BareName
  | identifier name isCase, ty => [⟨name, isCase, ty⟩]
  | constructor name (some payload) test, ty =>
    match (env.target name test ty).payload with
    | .found (some expected) => bareNames payload expected
    | _ => []
  | struct name fields, ty =>
    match structTarget env (env.names.nominalName name) ty with
    | .ok args => fieldsBareNames (env.names.nominalName name) args fields
    | .error _ => []
  | tuple elements, ty =>
    match elementTypes elements.length ty with
    | .ok (types, _) => elementsBareNames elements types
    | .error _ => []
  | or alternatives, ty => anyBareNames alternatives ty
  | wildcard, _ | literal _, _ | constructor _ none _, _ => []

def fieldsBareNames (nominal : String) (args : Option (List Ty)) :
    List (String × Pattern E) → List BareName
  | [] => []
  | (field, p) :: rest =>
    (match env.fieldType nominal args field with
      | some ty => bareNames p ty
      | none => []) ++ fieldsBareNames nominal args rest

def elementsBareNames : List (Pattern E) → List Ty → List BareName
  | p :: rest, ty :: types => bareNames p ty ++ elementsBareNames rest types
  | _, _ => []

def anyBareNames : List (Pattern E) → Ty → List BareName
  | [], _ => []
  | p :: rest, ty => bareNames p ty ++ anyBareNames rest ty

end

end Pattern

namespace BareName

variable (env : Tables E)

/-- The enum at the position has a case of this name. -/
def isEnumCase (n : BareName) : Bool :=
  ((env.enumShape n.ty).bind fun (_, cases) => cases.lookup n.name).isSome

/-- An enum that is a member of the union at the position has a case of this name. -/
def IsUnionCase (n : BareName) : Prop :=
  ∃ members, n.ty = .union members ∧ ∃ m ∈ members, isEnumCase env { n with ty := m } = true

/-- The name after the check. -/
def marked (n : BareName) : BareName := { n with isCase := n.isCase || n.isEnumCase env }

/-- The name as a pattern does not bind, and matches values of the case of this name only. -/
def Tests (literalMatches : E → Value F → Bool) (n : BareName) : Prop :=
  Pattern.bindingName (.identifier n.name n.isCase : Pattern E) = none ∧
    Coverage.isCatchAll (.identifier n.name n.isCase : Pattern E) = false ∧
    ∀ v : Value F, matchesValue env literalMatches (.identifier n.name n.isCase) v = true →
      ∃ enum payload, v = .enum enum n.name payload

variable {env}

theorem tests_iff {literalMatches : E → Value F → Bool} {n : BareName} :
    n.Tests env literalMatches ↔ n.isCase = true := by
  obtain ⟨name, isCase, ty⟩ := n
  constructor
  · rintro ⟨hbinds, -, -⟩
    cases isCase with
    | true => rfl
    | false => cases hbinds
  · intro hcase
    simp only at hcase
    subst hcase
    refine ⟨rfl, rfl, fun v hv => ?_⟩
    cases v with
    | enum actual label payload =>
      have hlabel : (enumTest (F := F) none name (.enum actual label payload)).isSome = true := hv
      rw [enumTest] at hlabel
      split at hlabel
      · rename_i hname
        simp only [Option.isNone_none, Bool.true_or, Bool.true_and, beq_iff_eq] at hname
        exact ⟨actual, payload, by rw [hname]⟩
      · cases hlabel
    | _ => cases hv

/-- A name that is a case of its own enum is not one of a union. -/
theorem not_isEnumCase_of_union {n : BareName} {members : List Ty} (h : n.ty = .union members) :
    n.isEnumCase env = false := by
  rw [isEnumCase, h]
  rfl

end BareName

open Pattern

variable {env : Tables E}

/-- The payload of a constructor pattern does not depend on an earlier test. -/
theorem target_payload (name : String) (test test' : Option UnionMemberTest) (ty : Ty) :
    (env.target name test ty).payload = (env.target name test' ty).payload := by
  cases ty with
  | union members =>
    simp only [Tables.target]
    split
    · rfl
    · split <;> rfl
  | var =>
    simp only [Tables.target]
    split <;> rfl
  | infer =>
    simp only [Tables.target]
    split <;> rfl
  | _ => rfl

theorem checkIdentifier_marked (name : String) (isCase : Bool) (ty : Ty) :
    (checkIdentifier env name isCase ty).1 =
      .identifier name (isCase || BareName.isEnumCase env ⟨name, isCase, ty⟩) := by
  unfold checkIdentifier BareName.isEnumCase
  split
  · rename_i payload hcase
    rw [hcase, Option.isSome_some, Bool.or_true]
  · rename_i hcase
    rw [hcase, Option.isSome_none, Bool.or_false]
    cases ty <;> rfl

theorem fieldsBareNames_check {nominal : String} {args : Option (List Ty)} {seen : List String}
    {fields : List (String × Pattern E)}
    (h : (checkFields env nominal args seen fields).2 = [])
    (ih : ∀ e ∈ fields, ∀ {ty : Ty}, (e.2.check env ty).2 = [] →
      bareNames env (e.2.check env ty).1 ty = (bareNames env e.2 ty).map (BareName.marked env)) :
    fieldsBareNames env nominal args (checkFields env nominal args seen fields).1 =
      (fieldsBareNames env nominal args fields).map (BareName.marked env) := by
  induction fields generalizing seen with
  | nil => rfl
  | cons e rest ihrest =>
    obtain ⟨field, p⟩ := e
    simp only [checkFields] at h ⊢
    split at h
    · cases h
    · rename_i hseen
      cases hty : env.fieldType nominal args field with
      | none => simp [hty] at h
      | some ty =>
        simp only [hty, List.append_eq_nil_iff] at h
        have hp := ih (field, p) List.mem_cons_self h.1
        have hrest := ihrest h.2 fun e he => ih e (List.mem_cons_of_mem _ he)
        simp only [if_neg hseen, fieldsBareNames, hty, List.map_append, hp, hrest]

theorem elementsBareNames_check {elements : List (Pattern E)} {types : List Ty}
    (h : (checkElements env elements types).2 = [])
    (ih : ∀ p ∈ elements, ∀ {ty : Ty}, (p.check env ty).2 = [] →
      bareNames env (p.check env ty).1 ty = (bareNames env p ty).map (BareName.marked env)) :
    elementsBareNames env (checkElements env elements types).1 types =
      (elementsBareNames env elements types).map (BareName.marked env) := by
  induction elements generalizing types with
  | nil => rfl
  | cons p rest ihrest =>
    cases types with
    | nil => rfl
    | cons ty types =>
      simp only [checkElements, List.append_eq_nil_iff] at h ⊢
      have hp := ih p List.mem_cons_self h.1
      have hrest := ihrest h.2 fun q hq => ih q (List.mem_cons_of_mem _ hq)
      simp only [elementsBareNames, List.map_append, hp, hrest]

theorem length_checkElements (elements : List (Pattern E)) (types : List Ty) :
    (checkElements env elements types).1.length = elements.length := by
  induction elements generalizing types with
  | nil => rfl
  | cons p rest ih =>
    cases types with
    | nil => rfl
    | cons ty types => exact congrArg (· + 1) (ih types)

theorem anyBareNames_check {alternatives : List (Pattern E)} {ty : Ty}
    (ih : ∀ p ∈ alternatives, bareNames env (p.check env ty).1 ty =
      (bareNames env p ty).map (BareName.marked env)) :
    anyBareNames env (alternatives.map fun p => (p.check env ty).1) ty =
      (anyBareNames env alternatives ty).map (BareName.marked env) := by
  induction alternatives with
  | nil => rfl
  | cons p rest ihrest =>
    have hp := ih p List.mem_cons_self
    have hrest := ihrest fun q hq => ih q (List.mem_cons_of_mem _ hq)
    simp only [List.map_cons, anyBareNames, List.map_append, hp, hrest]

/-- The check marks the bare names that are cases at their positions, and changes nothing else. -/
theorem bareNames_check {p : Pattern E} {ty : Ty} (h : (p.check env ty).2 = []) :
    bareNames env (p.check env ty).1 ty = (bareNames env p ty).map (BareName.marked env) := by
  induction p using Pattern.induction generalizing ty with
  | wildcard => rfl
  | identifier name isCase =>
    rw [check, checkIdentifier_marked]
    rfl
  | literal expr =>
    rw [check]
    split <;> rfl
  | constructor name payload test ih =>
    cases payload with
    | none =>
      rw [check]
      split
      · rfl
      · dsimp only
        split <;> rfl
    | some p =>
      rw [check] at h ⊢
      cases hmessage : opaqueError ty with
      | some message => simp [hmessage] at h
      | none =>
        simp only [hmessage] at h ⊢
        have hsame := @target_payload E env name (env.target name test ty).test test ty
        cases htarget : (env.target name test ty).payload with
        | rejected message => simp [htarget] at h
        | unchecked =>
          rw [htarget] at hsame
          simp only [bareNames, hsame, htarget, List.map_nil]
        | found expected =>
          simp only [htarget] at h ⊢
          rw [htarget] at hsame
          cases expected with
          | none => exact absurd h (payloadError_extra env name ty)
          | some expected =>
            simp only [bareNames, hsame, htarget]
            exact ih p rfl h
  | struct name fields ih =>
    rw [check] at h ⊢
    cases hmessage : opaqueError ty with
    | some message => simp [hmessage] at h
    | none =>
      simp only [hmessage] at h ⊢
      cases htarget : structTarget env (env.names.nominalName name) ty with
      | error message => simp [htarget] at h
      | ok args =>
        simp only [htarget] at h ⊢
        by_cases hunknown : (env.structs.lookup (env.names.nominalName name)).isNone = true
        · simp [if_pos hunknown] at h
        · simp only [if_neg hunknown] at h ⊢
          simp only [bareNames, htarget]
          exact fieldsBareNames_check h ih
  | tuple elements ih =>
    rw [check] at h ⊢
    cases hmessage : opaqueError ty with
    | some message => simp [hmessage] at h
    | none =>
      simp only [hmessage] at h ⊢
      cases htypes : elementTypes elements.length ty with
      | error message => simp [htypes] at h
      | ok pair =>
        obtain ⟨types, arity⟩ := pair
        simp only [htypes, List.append_eq_nil_iff] at h ⊢
        simp only [bareNames, htypes, length_checkElements]
        exact elementsBareNames_check h.2 ih
  | or alternatives ih =>
    rw [check] at h ⊢
    cases hmessage : opaqueError ty with
    | some message => simp [hmessage] at h
    | none =>
      simp only [hmessage, List.append_eq_nil_iff] at h ⊢
      obtain ⟨hchecked, hok⟩ := checkAlternatives_ok h.1 h.2
      rw [hchecked]
      exact anyBareNames_check fun p hp => ih p hp (hok p hp)

/-! ### Matches -/

/-- The arms of an accepted match have accepted patterns. -/
theorem check_of_matchErrors {scrutineeType : Ty} {arms : List (Pattern E)}
    (h : matchErrors env scrutineeType arms = []) {p : Pattern E} (hp : p ∈ arms) :
    (p.check env (env.boundedParamType scrutineeType)).2 = [] := by
  rw [matchErrors] at h
  split at h
  · cases h
  · exact List.flatMap_eq_nil_iff.mp (List.append_eq_nil_iff.mp h).1 p hp

/-- In an accepted match, every bare name of a case of the enum at its position, or of an enum that
is a member of the union there, is a test for that case if and only if there is none of a member of
a union. -/
theorem case_names_tested_iff (literalMatches : E → Value F → Bool) {scrutineeType : Ty}
    {arms : List (Pattern E)} (h : matchErrors env scrutineeType arms = [])
    (hnew : ∀ p ∈ arms, ∀ n ∈ bareNames env p (env.boundedParamType scrutineeType),
      n.isCase = false) :
    (∀ q ∈ checkArms env (env.boundedParamType scrutineeType) arms,
        ∀ n ∈ bareNames env q (env.boundedParamType scrutineeType),
          n.isEnumCase env = true ∨ n.IsUnionCase env → n.Tests env literalMatches) ↔
      ∀ p ∈ arms, ∀ n ∈ bareNames env p (env.boundedParamType scrutineeType),
        ¬ n.IsUnionCase env := by
  generalize hty : env.boundedParamType scrutineeType = ty at hnew ⊢
  have hok : ∀ p ∈ arms, (p.check env ty).2 = [] := fun p hp => hty ▸ check_of_matchErrors h hp
  constructor
  · rintro htests p hp n hn ⟨members, hunion, hmember⟩
    have hmarked : n.marked env ∈ bareNames env (p.check env ty).1 ty := by
      rw [bareNames_check (hok p hp)]
      exact List.mem_map_of_mem hn
    have htest := BareName.tests_iff.mp (htests _ (mem_checkArms.mpr ⟨p, hp, rfl⟩) _ hmarked
      (.inr ⟨members, hunion, hmember⟩))
    rw [BareName.marked, hnew p hp n hn, BareName.not_isEnumCase_of_union hunion] at htest
    cases htest
  · intro hnone q hq n hn hcase
    obtain ⟨p, hp, rfl⟩ := mem_checkArms.mp hq
    rw [bareNames_check (hok p hp)] at hn
    obtain ⟨m, hm, rfl⟩ := List.mem_map.mp hn
    refine BareName.tests_iff.mpr ?_
    rcases hcase with hcase | hcase
    · have hcase' : m.isEnumCase env = true := hcase
      rw [BareName.marked, hcase', Bool.or_true]
    · exact absurd hcase (hnone p hp m hm)

/-- `enum Shape { Empty, Rect(number) }` -/
def shapeTables : Tables Unit where
  enums := [("Shape", { cases := [("Empty", none), ("Rect", some (.named "number"))] })]
  structs := []
  caseToEnum := [("Empty", "Shape"), ("Rect", "Shape")]
  literalType _ := .infer
  isAssignable _ _ := true
  aliased name info h := by
    have hname : ({} : NominalNames).canonicalEnum name = name := rfl
    rw [hname]
    exact h
  declared case name h := by
    obtain ⟨before, after, heq, -⟩ := List.lookup_eq_some_iff.mp h
    have hmem : (case, name) ∈ [("Empty", "Shape"), ("Rect", "Shape")] := by
      rw [heq]
      exact List.mem_append_right before List.mem_cons_self
    rcases List.mem_pair.mp hmem with hpair | hpair <;> rw [(Prod.mk.inj hpair).2] <;> rfl

theorem case_names_tested_iff_shape :
    (∀ q ∈ checkArms shapeTables (shapeTables.boundedParamType (.named "Shape"))
          [.identifier "Empty" false, .wildcard],
        ∀ n ∈ bareNames shapeTables q (shapeTables.boundedParamType (.named "Shape")),
          n.isEnumCase shapeTables = true ∨ n.IsUnionCase shapeTables →
            n.Tests (F := Nat) shapeTables (fun _ _ => false)) ↔
      ∀ p ∈ [(.identifier "Empty" false : Pattern Unit), .wildcard],
        ∀ n ∈ bareNames shapeTables p (shapeTables.boundedParamType (.named "Shape")),
          ¬ n.IsUnionCase shapeTables := by
  refine case_names_tested_iff _ rfl fun p hp n hn => ?_
  rcases List.mem_pair.mp hp with rfl | rfl
  · rw [List.mem_singleton.mp hn]
  · cases hn

/-- `match (v) { Empty => .. }` with `v: Shape | number` is accepted, and its arm takes a number. -/
theorem empty_takes_number :
    matchErrors shapeTables (.union [.named "Shape", .named "number"]) [.identifier "Empty" false] = [] ∧
      BareName.IsUnionCase shapeTables ⟨"Empty", false, .union [.named "Shape", .named "number"]⟩ ∧
      checkArms shapeTables (.union [.named "Shape", .named "number"]) [.identifier "Empty" false] =
        [.identifier "Empty" false] ∧
      selectedArm shapeTables (fun _ _ => false) [.identifier "Empty" false] (.number 7 : Value Nat) =
        some (.identifier "Empty" false) :=
  ⟨rfl, ⟨_, rfl, _, List.mem_cons_self, rfl⟩, rfl, rfl⟩

end Deka.Typeck
