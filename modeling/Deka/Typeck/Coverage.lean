/-
Deka/Typeck/Coverage.lean

How completely the arms of a match cover the type of its scrutinee (`Coverage`,
`check_match`, `collect_missing` of `expr.rs`, `check_unwrap_match_arms` of `stmt.rs`).

The map of a coverage is a function: a name without an entry has the coverage `absent`.
-/
import Deka.Typeck.Patterns

namespace Deka.Typeck

open Tables

/-- `Coverage`: everything, or for each case how completely its payload is covered. -/
inductive Coverage
  /-- no entry -/
  | absent
  | all
  | cases (covered : String → Coverage)

namespace Coverage

def isAll : Coverage → Bool
  | all => true
  | _ => false

def isAbsent : Coverage → Bool
  | absent => true
  | _ => false

def nothing : Coverage := cases fun _ => absent

/-- A map with one entry. -/
def only (name : String) (coverage : Coverage) : Coverage :=
  cases fun n => if n = name then coverage else absent

/-- The coverage of the arm that `unwrap` supplies itself. -/
def successCase (name : String) : Coverage := only name all

def unionMember (name : String) (coverage : Coverage) : Coverage := only name coverage

def merge : Coverage → Coverage → Coverage
  | absent, right => right
  | left, absent => left
  | all, _ => all
  | _, all => all
  | cases left, cases right => cases fun name => merge (left name) (right name)

variable {E : Type}

mutual

def isIrrefutable : Pattern E → Bool
  | .wildcard => true
  | .identifier _ isCase => !isCase
  | .struct _ fields => fieldsIrrefutable fields
  | .or alternatives => anyIrrefutable alternatives
  | .literal _ | .constructor _ _ _ | .tuple _ => false

def fieldsIrrefutable : List (String × Pattern E) → Bool
  | [] => true
  | (_, p) :: rest => isIrrefutable p && fieldsIrrefutable rest

def anyIrrefutable : List (Pattern E) → Bool
  | [] => false
  | p :: rest => isIrrefutable p || anyIrrefutable rest

end

mutual

def ofPattern : Pattern E → Coverage
  | .wildcard => all
  | .identifier name isCase => if isCase then only name all else all
  | .constructor name (some payload) _ => only name (ofPattern payload)
  | .constructor name none _ => only name all
  | .or alternatives => ofAlternatives nothing alternatives
  | .struct _ fields => if fieldsIrrefutable fields then all else nothing
  | .literal _ | .tuple _ => nothing

/-- `fold(coverage, Coverage::merge)` -/
def ofAlternatives (coverage : Coverage) : List (Pattern E) → Coverage
  | [] => coverage
  | p :: rest => ofAlternatives (merge coverage (ofPattern p)) rest

end

mutual

/-- `pattern_is_catch_all` -/
def isCatchAll : Pattern E → Bool
  | .wildcard => true
  | .identifier _ isCase => !isCase
  | .or alternatives => anyCatchAll alternatives
  | _ => false

def anyCatchAll : List (Pattern E) → Bool
  | [] => false
  | p :: rest => isCatchAll p || anyCatchAll rest

end

/-- The coverage of an arm: a case of an enum of a union counts below its enum. -/
def ofArm (p : Pattern E) : Coverage :=
  match p with
  | .constructor _ _ (some (.enumCase enumName)) => unionMember enumName (ofPattern p)
  | p => ofPattern p

variable (env : Tables E)

/-- A case below the cases on the way to it. -/
def qualify (path case : String) : String :=
  if path == "" then case else path ++ "(" ++ case ++ ")"

/-- `collect_missing` -/
def collectMissing : Coverage → Ty → String → List String
  | absent, _, _ => []
  | all, _, _ => []
  | cases covered, ty, path =>
    match ty with
    | .union members =>
      members.flatMap fun member =>
        match unionMemberName member with
        | none => []
        | some label =>
          if (covered label).isAbsent then [qualify path label]
          else collectMissing (covered label) member path
    | ty =>
      match env.enumShape ty with
      | none => if path != "" && !ty.isError then [qualify path ty.toText] else []
      | some (label, shape) =>
        shape.flatMap fun (caseName, payload) =>
          let qualified := qualify path (label ++ "::" ++ caseName)
          if (covered caseName).isAbsent then [qualified]
          else
            match payload with
            | some ty => collectMissing (covered caseName) ty qualified
            | none => if (covered caseName).isAll then [] else [qualified]

/-- `check_match_exhaustiveness` -/
def exhaustivenessErrors (scrutinee : Ty) (coverage : Coverage) : List String :=
  let missing := collectMissing env coverage scrutinee ""
  if missing.isEmpty then []
  else ["non-exhaustive match: missing " ++ ", ".intercalate missing]

end Coverage

/-! ### Matches -/

section Match

variable {E : Type} (env : Tables E)

/-- The arms with their marks. -/
def checkArms (scrutinee : Ty) (arms : List (Pattern E)) : List (Pattern E) :=
  arms.map fun p => (p.check env scrutinee).1

def armErrors (scrutinee : Ty) (arms : List (Pattern E)) : List String :=
  arms.flatMap fun p => (p.check env scrutinee).2

/-- The coverage of the arms of a match together. -/
def matchCoverage (arms : List (Pattern E)) : Coverage :=
  arms.foldl (fun coverage p => coverage.merge (Coverage.ofArm p)) Coverage.nothing

/-- What `check_match` reports about the cases that its arms do not cover. -/
def missingErrors (scrutinee : Ty) (arms : List (Pattern E)) : List String :=
  if arms.any Coverage.isCatchAll || scrutinee.isError then []
  else Coverage.exhaustivenessErrors env scrutinee (matchCoverage arms)

/-- What `check_match` reports about the patterns of the arms. -/
def matchErrors (scrutineeType : Ty) (arms : List (Pattern E)) : List String :=
  if arms.isEmpty then ["match expression must have at least one arm"]
  else
    let scrutinee := env.boundedParamType scrutineeType
    armErrors env scrutinee arms ++ missingErrors env scrutinee (checkArms env scrutinee arms)

/-- The coverage of the arms of an unwrap, with the arm that it supplies. -/
def unwrapCoverage (arms : List (Pattern E)) : Coverage :=
  arms.foldl (fun coverage p => coverage.merge (Coverage.ofPattern p)) (Coverage.successCase "Ok")

/-- What `check_unwrap_match_arms` reports about the patterns of the arms. -/
def unwrapErrors (scrutinee : Ty) (arms : List (Pattern E)) : List String :=
  match scrutinee with
  | .option _ =>
    ["`or match` has nothing to match on for `" ++ scrutinee.toText ++
      "`; use `or \x7b … \x7d`"]
  | .generic "Result" _ =>
    armErrors env scrutinee arms ++
      Coverage.exhaustivenessErrors env scrutinee (unwrapCoverage (checkArms env scrutinee arms))
  | _ => []

end Match

/-! ### More arms -/

namespace Coverage

theorem merge_absent (c : Coverage) : merge c absent = c := by
  cases c <;> rfl

theorem merge_all (c : Coverage) : merge c all = all := by
  cases c <;> rfl

theorem all_merge (c : Coverage) : merge all c = all := by
  cases c <;> rfl

theorem merge_comm (c d : Coverage) : merge c d = merge d c := by
  induction c generalizing d with
  | absent => rw [merge_absent, merge]
  | all => rw [merge_all, all_merge]
  | cases left ih =>
    cases d with
    | absent => rfl
    | all => rfl
    | cases right =>
      show cases _ = cases _
      congr 1
      funext name
      exact ih name (right name)

theorem merge_assoc (c d e : Coverage) : merge (merge c d) e = merge c (merge d e) := by
  induction c generalizing d e with
  | absent => simp only [merge]
  | all => simp only [all_merge]
  | cases left ih =>
    cases d with
    | absent => simp only [merge]
    | all => simp only [merge_all, all_merge]
    | cases middle =>
      cases e with
      | absent => simp only [merge_absent]
      | all => simp only [merge_all]
      | cases right =>
        show cases _ = cases _
        congr 1
        funext name
        exact ih name (middle name) (right name)

theorem merge_right_comm (c d e : Coverage) : merge (merge c d) e = merge (merge c e) d := by
  rw [merge_assoc, merge_comm d e, ← merge_assoc]

@[simp] theorem isAll_iff {c : Coverage} : c.isAll = true ↔ c = all := by
  cases c <;> simp [isAll]

@[simp] theorem isAbsent_iff {c : Coverage} : c.isAbsent = true ↔ c = absent := by
  cases c <;> simp [isAbsent]

theorem merge_eq_all {c d : Coverage} (h : merge c d = all) : c = all ∨ d = all := by
  cases c <;> cases d <;> simp_all [merge]

theorem isAbsent_merge {c d : Coverage} : (merge c d).isAbsent = (c.isAbsent && d.isAbsent) := by
  cases c <;> cases d <;> rfl

variable {E : Type} {env : Tables E}

theorem qualify_ne_empty (path label case : String) :
    qualify path (label ++ "::" ++ case) ≠ "" := by
  intro h
  have hlist := congrArg String.toList h
  rw [qualify] at hlist
  split at hlist <;> simp [String.toList_append] at hlist

theorem enumShape_union (members : List Ty) : env.enumShape (.union members) = none := rfl

theorem collectMissing_union {covered : String → Coverage} {members : List Ty} {path : String} :
    collectMissing env (cases covered) (.union members) path = [] ↔
      ∀ m ∈ members, ∀ label, unionMemberName m = some label →
        (covered label).isAbsent = false ∧ collectMissing env (covered label) m path = [] := by
  rw [collectMissing, List.flatMap_eq_nil_iff]
  refine forall₂_congr fun m _ => ?_
  cases unionMemberName m with
  | none => simp
  | some label => cases habsent : (covered label).isAbsent <;> simp [habsent]

theorem collectMissing_shape {covered : String → Coverage} {ty : Ty} {path label : String}
    {shape : List (String × Option Ty)} (h : env.enumShape ty = some (label, shape)) :
    collectMissing env (cases covered) ty path = [] ↔
      ∀ e ∈ shape, (covered e.1).isAbsent = false ∧
        (∀ t, e.2 = some t →
          collectMissing env (covered e.1) t (qualify path (label ++ "::" ++ e.1)) = []) ∧
        (e.2 = none → covered e.1 = all) := by
  have hty : collectMissing env (cases covered) ty path =
      shape.flatMap fun (caseName, payload) =>
        if (covered caseName).isAbsent then [qualify path (label ++ "::" ++ caseName)]
        else
          match payload with
          | some ty =>
            collectMissing env (covered caseName) ty (qualify path (label ++ "::" ++ caseName))
          | none =>
            if (covered caseName).isAll then [] else [qualify path (label ++ "::" ++ caseName)] := by
    cases ty with
    | union members => cases h
    | _ => simp only [collectMissing, h]
  rw [hty, List.flatMap_eq_nil_iff]
  refine forall₂_congr fun e _ => ?_
  obtain ⟨caseName, payload⟩ := e
  cases payload <;> cases habsent : (covered caseName).isAbsent <;> simp [habsent]

theorem collectMissing_other {covered : String → Coverage} {ty : Ty} {path : String}
    (hunion : ∀ members, ty ≠ .union members) (h : env.enumShape ty = none) :
    collectMissing env (cases covered) ty path = [] ↔ path = "" ∨ ty.isError = true := by
  have hty : collectMissing env (cases covered) ty path =
      if path != "" && !ty.isError then [qualify path ty.toText] else [] := by
    cases ty with
    | union members => exact absurd rfl (hunion members)
    | _ => simp only [collectMissing, h]
  rw [hty]
  by_cases hpath : path = "" <;> cases ty.isError <;> simp [hpath]

/-- What nothing is missing from misses nothing with more coverage. -/
theorem collectMissing_merge {c : Coverage} (d : Coverage) {ty : Ty} {path : String}
    (h : collectMissing env c ty path = []) (hc : c.isAbsent = false) :
    collectMissing env (merge c d) ty path = [] := by
  induction c generalizing d ty path with
  | absent => cases hc
  | all =>
    rw [all_merge]
    rfl
  | cases left ih =>
    cases d with
    | absent => exact h
    | all => rfl
    | cases right =>
      have hkept : ∀ name t q, collectMissing env (left name) t q = [] →
          (left name).isAbsent = false →
          collectMissing env (merge (left name) (right name)) t q = [] :=
        fun name t q => ih name (right name)
      have hpresent : ∀ name, (left name).isAbsent = false →
          (merge (left name) (right name)).isAbsent = false := by
        intro name hname
        rw [isAbsent_merge, hname, Bool.false_and]
      show collectMissing env (cases fun name => merge (left name) (right name)) ty path = []
      by_cases hunion : ∃ members, ty = .union members
      · obtain ⟨members, rfl⟩ := hunion
        rw [collectMissing_union] at h ⊢
        intro m hm label hlabel
        obtain ⟨hname, hnone⟩ := h m hm label hlabel
        exact ⟨hpresent label hname, hkept label m path hnone hname⟩
      · have hunion : ∀ members, ty ≠ .union members := fun members hty => hunion ⟨members, hty⟩
        cases hshape : env.enumShape ty with
        | none =>
          rw [collectMissing_other hunion hshape] at h ⊢
          exact h
        | some shape =>
          obtain ⟨label, shape⟩ := shape
          rw [collectMissing_shape hshape] at h ⊢
          intro e he
          obtain ⟨hname, hpayload, hunit⟩ := h e he
          refine ⟨hpresent e.1 hname, fun t ht => hkept e.1 t _ (hpayload t ht) hname, ?_⟩
          intro hnone
          rw [hunit hnone, all_merge]

/-- An arm more never makes a case go missing. -/
theorem exhaustivenessErrors_merge {c : Coverage} (d : Coverage) {scrutinee : Ty}
    (hc : c.isAbsent = false) (h : exhaustivenessErrors env scrutinee c = []) :
    exhaustivenessErrors env scrutinee (merge c d) = [] := by
  have hmissing : collectMissing env c scrutinee "" = [] := by
    rw [exhaustivenessErrors] at h
    cases hlist : collectMissing env c scrutinee "" with
    | nil => rfl
    | cons case rest => simp [hlist] at h
  rw [exhaustivenessErrors, collectMissing_merge d hmissing hc]
  rfl

end Coverage

end Deka.Typeck
