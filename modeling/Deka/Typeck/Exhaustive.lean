/-
Deka/Typeck/Exhaustive.lean

Accepted matches are exhaustive.

A pattern matches what its coverage claims (`covers_matches`).  The keys of a coverage are
case names and names of union members, and a case of an enum of a union counts below its
enum only at the top of an arm: `isApart` says that no pattern below takes one name for
the other.
-/
import Deka.Typeck.Checked
import Deka.Typeck.Covers

namespace Deka.Typeck

open Tables Coverage

section

variable {E F : Type} {env : Tables E}

/-! ### Irrefutable patterns -/

variable (literalMatches : E → Value F → Bool)

theorem matchesAny_iff {patterns : List (Pattern E)} {v : Value F} :
    matchesAny env literalMatches patterns v = true ↔
      ∃ p ∈ patterns, matchesValue env literalMatches p v = true := by
  induction patterns with
  | nil => simp [matchesAny]
  | cons p rest ih => simp [matchesAny, ih]

theorem matchesFields_of_forall {fields : List (String × Pattern E)}
    {values : List (String × Value F)}
    (h : ∀ e ∈ fields, ∃ v, values.lookup e.1 = some v ∧
      matchesValue env literalMatches e.2 v = true) :
    matchesFields env literalMatches fields values = true := by
  induction fields with
  | nil => rfl
  | cons e rest ih =>
    obtain ⟨field, p⟩ := e
    obtain ⟨v, hv, hmatch⟩ := h (field, p) List.mem_cons_self
    simp only at hv hmatch
    simp only [matchesFields, hv, hmatch, Bool.true_and]
    exact ih fun e he => h e (List.mem_cons_of_mem _ he)

theorem anyIrrefutable_iff {patterns : List (Pattern E)} :
    anyIrrefutable patterns = true ↔ ∃ p ∈ patterns, isIrrefutable p = true := by
  induction patterns with
  | nil => simp [anyIrrefutable]
  | cons p rest ih => simp [anyIrrefutable, ih]

theorem fieldsIrrefutable_iff {fields : List (String × Pattern E)} :
    fieldsIrrefutable fields = true ↔ ∀ e ∈ fields, isIrrefutable e.2 = true := by
  induction fields with
  | nil => simp [fieldsIrrefutable]
  | cons e rest ih => simp [fieldsIrrefutable, ih]

variable {literalMatches}

open Pattern

/-- An irrefutable pattern matches every value of the type it was checked against. -/
theorem irrefutable_matches (hnames : NamesApart env) (p : Pattern E) :
    ∀ {ty : Ty} {v : Value F}, (p.check env ty).2 = [] → isIrrefutable (p.check env ty).1 = true →
      Settled env ty → HasType env v ty →
      matchesValue env literalMatches (p.check env ty).1 v = true := by
  induction p using Pattern.induction with
  | wildcard => exact fun _ _ _ _ => rfl
  | identifier name isCase =>
    intro ty v _ hirrefutable _ _
    rw [check] at hirrefutable ⊢
    obtain ⟨b, hb⟩ := checkIdentifier_fst env name isCase ty
    rw [hb] at hirrefutable ⊢
    simp only [isIrrefutable, Bool.not_eq_true'] at hirrefutable
    simp [matchesValue, hirrefutable]
  | literal expr =>
    intro ty v _ hirrefutable _ _
    rw [check] at hirrefutable
    split at hirrefutable <;> cases hirrefutable
  | constructor name payload test ih =>
    intro ty v _ hirrefutable _ _
    rw [isIrrefutable_check_constructor] at hirrefutable
    cases hirrefutable
  | struct name fields ih =>
    intro ty v herrors hirrefutable hsettled hv
    rw [check] at herrors hirrefutable ⊢
    cases hsealed : opaqueError ty with
    | some message => simp [hsealed] at herrors
    | none =>
      simp only [hsealed] at herrors hirrefutable ⊢
      cases htarget : structTarget env (env.names.nominalName name) ty with
      | error message => simp [htarget] at herrors
      | ok args =>
        simp only [htarget] at herrors hirrefutable ⊢
        by_cases hunknown : (env.structs.lookup (env.names.nominalName name)).isNone = true
        · simp [if_pos hunknown] at herrors
        simp only [if_neg hunknown] at herrors hirrefutable ⊢
        obtain ⟨values, rfl, hfields, hvalues⟩ := structTarget_values hnames hsettled htarget hv
        simp only [matchesValue, beq_self_eq_true, Bool.true_and]
        apply matchesFields_of_forall
        intro e he
        obtain ⟨p, t, hmem, ht, hp, hok⟩ := checkFields_ok herrors e he
        obtain ⟨w, hw, htyped⟩ := hvalues e.1 t ht
        have hwhole := fieldsIrrefutable_iff.mp hirrefutable e he
        rw [hp] at hwhole ⊢
        exact ⟨w, hw, ih (e.1, p) hmem hok hwhole (hsettled.field hfields ht) htyped⟩
  | tuple elements ih =>
    intro ty v _ hirrefutable _ _
    rw [check] at hirrefutable
    split at hirrefutable
    · cases hirrefutable
    · split at hirrefutable <;> cases hirrefutable
  | or alternatives ih =>
    intro ty v herrors hirrefutable hsettled hv
    rw [check] at herrors hirrefutable ⊢
    cases hsealed : opaqueError ty with
    | some message => simp [hsealed] at herrors
    | none =>
      simp only [hsealed, List.append_eq_nil_iff] at herrors hirrefutable ⊢
      obtain ⟨hchecked, hok⟩ := checkAlternatives_ok herrors.1 herrors.2
      rw [hchecked] at hirrefutable ⊢
      obtain ⟨q, hq, hwhole⟩ := anyIrrefutable_iff.mp hirrefutable
      obtain ⟨p, hp, rfl⟩ := List.mem_map.mp hq
      exact (matchesAny_iff literalMatches).mpr ⟨_, hq, ih p hp (hok p hp) hwhole hsettled hv⟩

/-! ### Names taken for one another -/

/-- A case of an enum of the union has the name of a member. -/
def isAmbiguous (env : Tables E) (name : String) (ty : Ty) : Bool :=
  match ty with
  | .union members =>
    (env.unionEnumCase name members).isSome &&
      members.any fun member => unionMemberName member == some name
  | _ => false

mutual

/-- No constructor whose coverage is merged with that of other patterns is ambiguous. -/
def isApart (env : Tables E) : Pattern E → Ty → Bool
  | .constructor name (some payload) _, ty =>
    !isAmbiguous env name ty &&
      match (env.target name none ty).payload with
      | .found (some expected) => isApart env payload expected
      | _ => true
  | .constructor name none _, ty => !isAmbiguous env name ty
  | .or alternatives, ty => allApart env alternatives ty
  | .wildcard, _ | .identifier _ _, _ | .literal _, _ | .struct _ _, _ | .tuple _, _ => true

def allApart (env : Tables E) : List (Pattern E) → Ty → Bool
  | [], _ => true
  | p :: rest, ty => isApart env p ty && allApart env rest ty

end

/-- The constructor of the arm itself counts below its enum. -/
def armApart (env : Tables E) (p : Pattern E) (ty : Ty) : Bool :=
  match p with
  | .constructor name (some payload) _ =>
    match (env.target name none ty).payload with
    | .found (some expected) => isApart env payload expected
    | _ => true
  | .constructor _ none _ => true
  | p => isApart env p ty

theorem isFresh_of_mem {patterns : List (Pattern E)} {p : Pattern E}
    (h : allFresh patterns = true) (hp : p ∈ patterns) : isFresh p = true := by
  induction patterns with
  | nil => cases hp
  | cons q rest ih =>
    rw [allFresh, Bool.and_eq_true] at h
    rcases List.mem_cons.mp hp with rfl | hp
    · exact h.1
    · exact ih h.2 hp

theorem isApart_of_mem {patterns : List (Pattern E)} {p : Pattern E} {ty : Ty}
    (h : allApart env patterns ty = true) (hp : p ∈ patterns) : isApart env p ty = true := by
  induction patterns with
  | nil => cases hp
  | cons q rest ih =>
    rw [allApart, Bool.and_eq_true] at h
    rcases List.mem_cons.mp hp with rfl | hp
    · exact h.1
    · exact ih h.2 hp

/-! ### What a pattern claims it matches -/

/-- The coverage of the payload of a case. -/
def payloadCoverage : Option (Pattern E) → Coverage
  | none => all
  | some payload => ofPattern payload

theorem ofPattern_constructor (name : String) (payload : Option (Pattern E))
    (test : Option UnionMemberTest) :
    ofPattern (.constructor name payload test) = only name (payloadCoverage payload) := by
  cases payload <;> rfl

/-- What a checked payload claims it matches. -/
def PayloadMatches (env : Tables E) (literalMatches : E → Value F → Bool)
    (payload : Option (Pattern E)) (expected : Option Ty) : Prop :=
  (payload = none ∧ expected = none) ∨
    ∃ p t, payload = some p ∧ expected = some t ∧
      ∀ v, Settled env t → HasType env v t → Covers env (ofPattern p) t v →
        matchesValue env literalMatches p v = true

/-- A pattern of a case matches the values of the case that its payload matches. -/
theorem case_matches {name label : String} {ty : Ty} {expected : Option Ty}
    {payload : Option (Pattern E)} {test : Option UnionMemberTest}
    {shape : List (String × Option Ty)} {v : Value F}
    (hsettled : Settled env ty) (htest : test = none ∨ test = some (.enumCase label))
    (hshape : env.enumShape ty = some (label, shape))
    (hlookup : env.caseLookup name ty = .found expected)
    (hpayload : PayloadMatches env literalMatches payload expected)
    (h : (v = .enum label name none ∧ shape.lookup name = some none) ∨
      (∃ t w, v = .enum label name (some w) ∧ shape.lookup name = some (some t) ∧
        HasType env w t ∧ Covers env (payloadCoverage payload) t w)) :
    matchesValue env literalMatches (.constructor name payload test) v = true := by
  rcases h with ⟨rfl, hcase⟩ | ⟨t, w, rfl, hcase, hw, hcovers⟩
  · have hnone := caseLookup_shape hlookup hshape hcase
    rcases hpayload with ⟨rfl, _⟩ | ⟨p, t, _, rfl, _⟩
    · rcases htest with rfl | rfl <;> simp [matchesValue, enumTest]
    · cases hnone
  · have hsome := caseLookup_shape hlookup hshape hcase
    rcases hpayload with ⟨_, rfl⟩ | ⟨p, u, rfl, rfl, hmatches⟩
    · cases hsome
    · cases hsome
      have hp := hmatches w (hsettled.payload hshape hcase) hw hcovers
      rcases htest with rfl | rfl <;> simp [matchesValue, enumTest, hp]

/-- A type pattern matches the values of its member that its payload matches. -/
theorem member_matches {name : String} {members : List Ty} {expected : Option Ty}
    {payload : Option (Pattern E)} {m : Ty} {v : Value F} (hnames : NamesApart env)
    (hsettled : Settled env (.union members)) (hcase : env.unionEnumCase name members = none)
    (htarget : (env.target name none (.union members)).payload = .found expected)
    (hpayload : PayloadMatches env literalMatches payload expected)
    (hm : m ∈ members) (hname : unionMemberName m = some name) (hv : HasType env v m)
    (hcovers : Covers env (payloadCoverage payload) m v) :
    matchesValue env literalMatches
      (.constructor name payload (env.target name none (.union members)).test) v = true := by
  obtain ⟨n, hn, rfl, hnname, hinterface, htest⟩ := target_union htarget hcase
  have hsame : m = n := hsettled.eq_of_name hm hn hname hnname
  subst hsame
  obtain ⟨test, hmember, henum⟩ :=
    exists_memberTest (hsettled.members members (.refl _) m hm) hinterface
  have hpasses := memberTest_of_hasType hnames hmember hv
  rw [htest, hmember, Option.some_or]
  rcases hpayload with ⟨_, hnone⟩ | ⟨p, t, rfl, hsome, hmatches⟩
  · cases hnone
  · cases hsome
    have hp := hmatches v (hsettled.member hm) hv hcovers
    cases test with
    | enumCase enumName => exact absurd rfl (henum enumName)
    | _ => simp [matchesValue, hpasses, hp]

theorem isApart_constructor (name : String) (payload : Option (Pattern E))
    (test : Option UnionMemberTest) (ty : Ty) :
    isApart env (.constructor name payload test) ty =
      (!isAmbiguous env name ty && armApart env (.constructor name payload test) ty) := by
  cases payload with
  | none => simp [isApart, armApart]
  | some payload => simp only [isApart, armApart]

/-- What the check of a constructor pattern leaves. -/
theorem checked_constructor {name : String} {payload : Option (Pattern E)}
    {test : Option UnionMemberTest} {ty : Ty} (hsettled : Settled env ty)
    (herrors : ((Pattern.constructor name payload test).check env ty).2 = [])
    (hfresh : (Pattern.constructor name payload test).isFresh = true)
    (hapart : armApart env (.constructor name payload test) ty = true)
    (ih : ∀ p, payload = some p → ∀ {t : Ty} {v : Value F}, (p.check env t).2 = [] →
      p.isFresh = true → isApart env p t = true → Settled env t → HasType env v t →
      Covers env (ofPattern (p.check env t).1) t v →
      matchesValue env literalMatches (p.check env t).1 v = true) :
    ∃ marked expected, (env.target name none ty).payload = .found expected ∧
      ((Pattern.constructor name payload test).check env ty).1 =
        .constructor name marked (env.target name none ty).test ∧
      PayloadMatches env literalMatches marked expected := by
  rcases check_constructor_ok hsettled herrors with ⟨rfl, htarget, hchecked⟩ |
    ⟨p, t, rfl, htarget, hok, hchecked⟩
  · have hnone : test = none := Option.isNone_iff_eq_none.mp hfresh
    subst hnone
    exact ⟨none, none, htarget, hchecked, Or.inl ⟨rfl, rfl⟩⟩
  · rw [isFresh, Bool.and_eq_true, Option.isNone_iff_eq_none] at hfresh
    obtain ⟨rfl, hp⟩ := hfresh
    simp only [armApart, htarget] at hapart
    refine ⟨_, some t, htarget, hchecked, Or.inr ⟨_, t, rfl, rfl, ?_⟩⟩
    exact fun v ht hv hcovers => ih p rfl hok hp hapart ht hv hcovers

theorem isAmbiguous_of_member {name enumName : String} {members : List Ty} {m member : Ty}
    (hcase : env.unionEnumCase name members = some (enumName, member)) (hm : m ∈ members)
    (hname : unionMemberName m = some name) : isAmbiguous env name (.union members) = true := by
  rw [isAmbiguous, hcase, Option.isSome_some, Bool.true_and]
  exact List.any_eq_true.mpr ⟨m, hm, beq_iff_eq.mpr hname⟩

theorem check_struct_fst (env : Tables E) (name : String) (fields : List (String × Pattern E)) (ty : Ty) :
    ∃ marked, ((Pattern.struct name fields).check env ty).1 = .struct name marked := by
  rw [check]
  split
  · exact ⟨_, rfl⟩
  · dsimp only
    split
    · exact ⟨_, rfl⟩
    · split
      · exact ⟨_, rfl⟩
      · exact ⟨_, rfl⟩

/-- An identifier that is no case of the scrutinee claims nothing or everything. -/
theorem identifier_matches {name : String} {isCase : Bool} {ty : Ty} {v : Value F}
    (herrors : (checkIdentifier env name isCase ty).2 = [])
    (hcovers : Covers env (ofPattern (checkIdentifier env name isCase ty).1) ty v) :
    matchesValue env literalMatches (checkIdentifier env name isCase ty).1 v = true := by
  obtain ⟨marked, hmarked⟩ := checkIdentifier_fst env name isCase ty
  rw [hmarked] at hcovers ⊢
  cases marked with
  | false => rfl
  | true =>
    have hcase : Covers env (only name all) ty v := hcovers
    rcases covers_only hcase with ⟨members, rfl, m, hm, hname, _⟩ |
      ⟨label, shape, _, ⟨rfl, _⟩ | ⟨t, w, rfl, _⟩⟩
    · -- the name of a member needs a payload
      have hmember : members.any (fun member => unionMemberName member == some name) = true :=
        List.any_eq_true.mpr ⟨m, hm, beq_iff_eq.mpr hname⟩
      simp [checkIdentifier, enumShape_union, hmember] at herrors
    · simp [matchesValue, enumTest]
    · simp [matchesValue, enumTest]

/-- A pattern matches what its coverage claims. -/
theorem covers_matches (hnames : NamesApart env) (p : Pattern E) :
    ∀ {ty : Ty} {v : Value F}, (p.check env ty).2 = [] → p.isFresh = true →
      isApart env p ty = true → Settled env ty → HasType env v ty →
      Covers env (ofPattern (p.check env ty).1) ty v →
      matchesValue env literalMatches (p.check env ty).1 v = true := by
  induction p using Pattern.induction with
  | wildcard => exact fun _ _ _ _ _ _ => rfl
  | identifier name isCase =>
    intro ty v herrors _ _ _ _ hcovers
    rw [check] at herrors hcovers ⊢
    exact identifier_matches herrors hcovers
  | literal expr =>
    intro ty v _ _ _ _ _ hcovers
    rw [check] at hcovers
    split at hcovers
    · exact absurd hcovers not_covers_nothing
    · exact absurd hcovers not_covers_nothing
  | constructor name payload test ih =>
    intro ty v herrors hfresh hapart hsettled hv hcovers
    rw [isApart_constructor, Bool.and_eq_true, Bool.not_eq_true'] at hapart
    obtain ⟨marked, expected, htarget, hchecked, hpayload⟩ :=
      checked_constructor hsettled herrors hfresh hapart.2 ih
    rw [hchecked, ofPattern_constructor] at hcovers
    rw [hchecked]
    rcases covers_only hcovers with ⟨members, rfl, m, hm, hname, hvm, hclaims⟩ |
      ⟨label, shape, hshape, hclaims⟩
    · cases hcase : env.unionEnumCase name members with
      | none => exact member_matches hnames hsettled hcase htarget hpayload hm hname hvm hclaims
      | some found =>
        have hambiguous := isAmbiguous_of_member hcase hm hname
        rw [hambiguous] at hapart
        cases hapart.1
    · obtain ⟨htest, hlookup⟩ := target_cases name none hshape
      rw [hlookup] at htarget
      rw [htest]
      exact case_matches hsettled (Or.inl rfl) hshape htarget hpayload hclaims
  | struct name fields ih =>
    intro ty v herrors _ _ hsettled hv hcovers
    obtain ⟨marked, hmarked⟩ := check_struct_fst env name fields ty
    rw [hmarked] at hcovers
    have hwhole : isIrrefutable ((Pattern.struct name fields).check env ty).1 = true := by
      rw [hmarked]
      by_contra hnot
      have hnothing : ofPattern (.struct name marked) = nothing := if_neg hnot
      exact absurd (hnothing ▸ hcovers) not_covers_nothing
    exact irrefutable_matches hnames _ herrors hwhole hsettled hv
  | tuple elements ih =>
    intro ty v _ _ _ _ _ hcovers
    rw [check] at hcovers
    split at hcovers
    · exact absurd hcovers not_covers_nothing
    · split at hcovers
      · exact absurd hcovers not_covers_nothing
      · exact absurd hcovers not_covers_nothing
  | or alternatives ih =>
    intro ty v herrors hfresh hapart hsettled hv hcovers
    rw [check] at herrors hcovers ⊢
    cases hsealed : opaqueError ty with
    | some message => simp [hsealed] at herrors
    | none =>
      simp only [hsealed, List.append_eq_nil_iff] at herrors hcovers ⊢
      obtain ⟨hchecked, hok⟩ := checkAlternatives_ok herrors.1 herrors.2
      rw [hchecked] at hcovers ⊢
      rcases covers_alternatives hcovers with hnothing | ⟨q, hq, hclaims⟩
      · exact absurd hnothing not_covers_nothing
      · obtain ⟨p, hp, rfl⟩ := List.mem_map.mp hq
        have hmatch := ih p hp (hok p hp) (isFresh_of_mem hfresh hp) (isApart_of_mem hapart hp)
          hsettled hv hclaims
        exact (matchesAny_iff literalMatches).mpr ⟨_, hq, hmatch⟩

/-! ### Arms -/

theorem ofArm_check {p : Pattern E} (ty : Ty)
    (hp : ∀ name payload test, p ≠ .constructor name payload test) :
    ofArm (p.check env ty).1 = ofPattern (p.check env ty).1 := by
  cases p with
  | wildcard => rfl
  | identifier name isCase =>
    rw [check]
    obtain ⟨marked, hmarked⟩ := checkIdentifier_fst env name isCase ty
    rw [hmarked, ofArm]
    simp
  | literal expr =>
    rw [check]
    split <;> rfl
  | constructor name payload test => exact absurd rfl (hp name payload test)
  | struct name fields =>
    obtain ⟨marked, hmarked⟩ := check_struct_fst env name fields ty
    rw [hmarked, ofArm]
    simp
  | tuple elements =>
    rw [check]
    split
    · rfl
    · split <;> rfl
  | or alternatives =>
    rw [check]
    split <;> rfl

theorem unionMemberTest_ne_enumCase (m : Ty) (name : String) :
    env.unionMemberTest m ≠ some (.enumCase name) := by
  intro h
  cases m with
  | named n =>
    simp only [unionMemberTest] at h
    repeat' split at h
    all_goals cases h
  | _ => cases h

/-- Only a case of an enum of a union is tested as such. -/
theorem target_test_ne_enumCase {name enumName : String} {ty : Ty}
    (h : ∀ members, ty = .union members → env.unionEnumCase name members = none) :
    (env.target name none ty).test ≠ some (.enumCase enumName) := by
  intro htest
  cases ty with
  | union members =>
    simp only [target, h members rfl] at htest
    split at htest
    · cases htest
    · cases htest
    · rw [Option.or_none] at htest
      exact unionMemberTest_ne_enumCase _ _ htest
  | var =>
    simp only [target] at htest
    split at htest <;> cases htest
  | infer =>
    simp only [target] at htest
    split at htest <;> cases htest
  | _ => cases htest

/-- An arm for a case of an enum of the union matches what it claims. -/
theorem enum_arm_matches {name enumName : String} {members : List Ty} {member : Ty}
    {payload : Option (Pattern E)} {expected : Option Ty} {v : Value F}
    (hsettled : Settled env (.union members))
    (hcase : env.unionEnumCase name members = some (enumName, member))
    (hlookup : env.caseLookup name member = .found expected)
    (hpayload : PayloadMatches env literalMatches payload expected)
    (h : Covers env (unionMember enumName (only name (payloadCoverage payload))) (.union members) v) :
    matchesValue env literalMatches
      (.constructor name payload (some (.enumCase enumName))) v = true := by
  obtain ⟨_, _, hfind⟩ := Option.bind_eq_some_iff.mp hcase
  obtain ⟨found, hfound, hpair⟩ := Option.bind_eq_some_iff.mp hfind
  cases hpair
  have hmember := List.mem_of_find?_eq_some hfound
  have hname := List.find?_some hfound
  rw [beq_iff_eq] at hname
  rcases covers_only h with ⟨ms, hms, m, hm, hmname, _, hclaims⟩ | ⟨_, _, hshape, _⟩
  · cases hms
    have hsame : m = member := hsettled.eq_of_name hm hmember hmname hname
    subst hsame
    rcases covers_only hclaims with ⟨_, rfl, _⟩ | ⟨label, shape, hshape, hclaims⟩
    · cases hname
    · have hlabel : label = enumName := by
        cases m with
        | named n =>
          obtain ⟨info, _, hpair⟩ := Option.map_eq_some_iff.mp hshape
          cases hpair
          exact Option.some.inj hname
        | struct n => cases hshape
        | interface n identity => cases hshape
        | _ => cases hname
      subst hlabel
      exact case_matches (hsettled.member hm) (Or.inr rfl) hshape hlookup hpayload hclaims
  · cases hshape

/-- An arm matches what its coverage claims. -/
theorem arm_matches (hnames : NamesApart env) {p : Pattern E} {ty : Ty} {v : Value F}
    (herrors : (p.check env ty).2 = []) (hfresh : p.isFresh = true)
    (hapart : armApart env p ty = true) (hsettled : Settled env ty) (hv : HasType env v ty)
    (hcovers : Covers env (ofArm (p.check env ty).1) ty v) :
    matchesValue env literalMatches (p.check env ty).1 v = true := by
  by_cases hp : ∃ name payload test, p = .constructor name payload test
  · obtain ⟨name, payload, test, rfl⟩ := hp
    obtain ⟨marked, expected, htarget, hchecked, hpayload⟩ :=
      checked_constructor hsettled herrors hfresh hapart fun p _ => covers_matches hnames p
    by_cases hunion : ∃ members enumName member, ty = .union members ∧
        env.unionEnumCase name members = some (enumName, member)
    · obtain ⟨members, enumName, member, rfl, hcase⟩ := hunion
      obtain ⟨htest, hlookup⟩ := target_enumCase none hcase
      rw [hlookup] at htarget
      rw [hchecked, htest] at hcovers ⊢
      rw [ofArm, ofPattern_constructor] at hcovers
      exact enum_arm_matches hsettled hcase htarget hpayload hcovers
    · have hno : ∀ members, ty = .union members → env.unionEnumCase name members = none := by
        rintro members rfl
        cases hcase : env.unionEnumCase name members with
        | none => rfl
        | some found => exact absurd ⟨members, found.1, found.2, rfl, hcase⟩ hunion
      have hambiguous : isAmbiguous env name ty = false := by
        cases ty with
        | union members => simp [isAmbiguous, hno members rfl]
        | _ => rfl
      have hbelow : isApart env (.constructor name payload test) ty = true := by
        rw [isApart_constructor, hambiguous, hapart]
        rfl
      have hplain : ofArm ((Pattern.constructor name payload test).check env ty).1 =
          ofPattern ((Pattern.constructor name payload test).check env ty).1 := by
        rw [hchecked, ofArm]
        intro n q enumName hpattern
        injection hpattern with _ _ htest
        exact absurd htest (target_test_ne_enumCase hno)
      rw [hplain] at hcovers
      exact covers_matches hnames _ herrors hfresh hbelow hsettled hv hcovers
  · have hplain : ∀ name payload test, p ≠ .constructor name payload test :=
      fun name payload test h => hp ⟨name, payload, test, h⟩
    have hbelow : isApart env p ty = true := by
      cases p with
      | constructor name payload test => exact absurd rfl (hplain name payload test)
      | _ => exact hapart
    rw [ofArm_check ty hplain] at hcovers
    exact covers_matches hnames p herrors hfresh hbelow hsettled hv hcovers

end

end Deka.Typeck
