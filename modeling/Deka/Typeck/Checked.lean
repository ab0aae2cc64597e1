/-
Deka/Typeck/Checked.lean

What the check of a pattern has found out when it reports nothing.
-/
import Deka.Typeck.Coverage
import Deka.Typeck.Settled

namespace Deka.Typeck

open Tables Coverage

section

variable {E F : Type} {env : Tables E}

/-! ### What a pattern tests -/

/-- The test of a member that is an enum. -/
theorem unionMemberTest_enum {name label : String} {shape : List (String × Option Ty)}
    {test : UnionMemberTest} (hnames : NamesApart env)
    (hshape : env.enumShape (.named name) = some (label, shape))
    (htest : env.unionMemberTest (.named name) = some test) : test = .enum name ∧ label = name := by
  obtain ⟨info, hinfo, hlabel⟩ := Option.map_eq_some_iff.mp hshape
  obtain ⟨hprimitive, herror⟩ := hnames.primitives name (by rw [hinfo]; rfl)
  have hbytes : name ≠ "bytes" := by
    rintro rfl
    cases hprimitive
  simp only [unionMemberTest, herror, hprimitive, hinfo, beq_iff_eq, hbytes] at htest
  cases htest
  cases hlabel
  exact ⟨rfl, rfl⟩

/-- The values of a member of a union pass its test. -/
theorem memberTest_of_hasType {m : Ty} {test : UnionMemberTest} {v : Value F}
    (hnames : NamesApart env) (htest : env.unionMemberTest m = some test)
    (hv : HasType env v m) : memberTest test v = true := by
  cases m with
  | named name =>
    cases hv with
    | string text =>
      cases htest
      rfl
    | number number =>
      cases htest
      rfl
    | boolean value =>
      cases htest
      rfl
    | bytes bytes =>
      cases htest
      rfl
    | void =>
      cases htest
      rfl
    | errorObject hname =>
      rw [unionMemberTest, if_pos (List.contains_iff_mem.mpr hname)] at htest
      cases htest
      simp [memberTest]
    | anyError hname =>
      cases htest
      simp [memberTest]
    | struct hfields _ _ => cases hfields
    | case hshape _ =>
      obtain ⟨rfl, rfl⟩ := unionMemberTest_enum hnames hshape htest
      simp [memberTest]
    | payload hshape _ _ =>
      obtain ⟨rfl, rfl⟩ := unionMemberTest_enum hnames hshape htest
      simp [memberTest]
    | other hother =>
      simp only [isTested, Bool.or_eq_false_iff] at hother
      obtain ⟨⟨hprimitive, herror⟩, henum⟩ := hother
      have hbytes : name ≠ "bytes" := by
        rintro rfl
        cases hprimitive
      simp only [unionMemberTest, herror, hprimitive, henum, beq_iff_eq, hbytes] at htest
      cases htest
  | struct name =>
    cases htest
    cases hv with
    | struct hfields _ _ =>
      cases hfields
      simp [memberTest]
    | case hshape _ => cases hshape
    | payload hshape _ _ => cases hshape
    | other hother => cases hother
  | _ => cases htest

theorem notACase_ne_found {name : String} {ty : Ty} {payload : Option Ty} :
    notACase name ty ≠ .found payload := by
  intro h
  rw [notACase] at h
  split at h <;> cases h

/-- The cases of a generic type are those of `Result`, `Exception` or a declared enum. -/
theorem enumShape_generic {base label : String} {args : List Ty}
    {shape : List (String × Option Ty)}
    (h : env.enumShape (.generic base args) = some (label, shape)) :
    (∀ case q, shape.lookup case = some q → case = "Ok" ∨ case = "Err" ∨ case = "Throw") ∨
    ∃ info, env.enums.lookup base = some info ∧
      shape = info.cases.map fun (case, payload) =>
        (case, payload.map (Ty.substitute (info.typeParams.zip args))) := by
  have hmem : ∀ case q, shape.lookup case = some q → (case, q) ∈ shape := by
    intro case q hlookup
    obtain ⟨before, after, hsplit, _⟩ := List.lookup_eq_some_iff.mp hlookup
    simp [hsplit]
  unfold enumShape at h
  simp only at h
  split at h
  · cases h
    left
    intro case q hlookup
    have hcase := hmem case q hlookup
    simp only [List.mem_cons, Prod.mk.injEq, List.not_mem_nil, or_false] at hcase
    tauto
  · cases h
    left
    intro case q hlookup
    have hcase := hmem case q hlookup
    simp only [List.mem_cons, Prod.mk.injEq, List.not_mem_nil, or_false] at hcase
    tauto
  · obtain ⟨info, hinfo, hshape⟩ := Option.map_eq_some_iff.mp h
    cases hshape
    exact Or.inr ⟨info, hinfo, rfl⟩

theorem lookup_map_payload {cases : List (String × Option Ty)} {name : String} {f : Ty → Ty}
    {q : Option Ty} (h : (cases.map fun (case, payload) => (case, payload.map f)).lookup name =
      some q) : ∃ payload, cases.lookup name = some payload ∧ q = payload.map f := by
  induction cases with
  | nil => cases h
  | cons e rest ih =>
    obtain ⟨case, payload⟩ := e
    rw [List.map_cons, List.lookup_cons] at h
    rw [List.lookup_cons]
    cases hname : name == case with
    | true =>
      rw [hname] at h
      exact ⟨payload, rfl, (Option.some.inj h).symm⟩
    | false =>
      rw [hname] at h
      exact ih h

/-- The payload of a case is the one that its type says. -/
theorem caseLookup_shape {name label : String} {ty : Ty} {payload q : Option Ty}
    {shape : List (String × Option Ty)} (h : env.caseLookup name ty = .found payload)
    (hshape : env.enumShape ty = some (label, shape)) (hq : shape.lookup name = some q) :
    q = payload := by
  unfold caseLookup at h
  by_cases hoption : (name == "Some" || name == "None") = true
  · rw [if_pos hoption] at h
    cases ty with
    | option inner =>
      cases hshape
      simp only [Bool.or_eq_true, beq_iff_eq] at hoption
      rcases hoption with rfl | rfl
      · cases h
        cases hq
        rfl
      · cases h
        cases hq
        rfl
    | _ => exact absurd h notACase_ne_found
  rw [if_neg hoption] at h
  by_cases hresult : (name == "Ok" || name == "Err" || name == "Throw") = true
  · rw [if_pos hresult] at h
    split at h
    · next base ok err =>
      split at h
      · next hbase =>
        simp only [Bool.and_eq_true, Bool.or_eq_true, beq_iff_eq] at hbase hresult
        obtain ⟨rfl | rfl, hname⟩ := hbase
        · cases hshape
          rcases hresult with (rfl | rfl) | rfl
          · cases h
            cases hq
            rfl
          · cases h
            cases hq
            rfl
          · cases hq
        · cases hshape
          rcases hresult with (rfl | rfl) | rfl
          · cases h
            cases hq
            rfl
          · cases hq
          · cases h
            cases hq
            rfl
      · exact absurd h notACase_ne_found
    · exact absurd h notACase_ne_found
  rw [if_neg hresult] at h
  cases henum : env.enumOfCase name ty with
  | none =>
    rw [henum] at h
    cases h
  | some enumName =>
    rw [henum] at h
    simp only at h
    cases hinfo : env.enums.lookup enumName with
    | none =>
      rw [hinfo] at h
      cases h
    | some info =>
      rw [hinfo] at h
      cases ty with
      | named scrutinee =>
        simp only at h
        by_cases hcanonical : (scrutinee == env.names.canonicalEnum enumName) = true
        · rw [if_pos hcanonical] at h
          rw [beq_iff_eq] at hcanonical
          have hsame := env.aliased enumName info hinfo
          rw [← hcanonical] at hsame
          simp only [enumShape, hsame, Option.map_some, Option.some.injEq, Prod.mk.injEq] at hshape
          obtain ⟨rfl, rfl⟩ := hshape
          simp only [hq] at h
          cases h
          simp
        · rw [if_neg hcanonical] at h
          exact absurd h notACase_ne_found
      | generic base args =>
        simp only at h
        by_cases hbase : (base == enumName) = true
        · rw [if_pos hbase] at h
          rw [beq_iff_eq] at hbase
          subst hbase
          rcases enumShape_generic hshape with hbuiltin | ⟨info', hinfo', rfl⟩
          · rcases hbuiltin name q hq with rfl | rfl | rfl <;> exact absurd rfl hresult
          · rw [hinfo] at hinfo'
            cases hinfo'
            obtain ⟨declared, hdeclared, rfl⟩ := lookup_map_payload hq
            simp only [hdeclared] at h
            cases h
            congr 1
            funext payload
            -- without parameters or without arguments nothing is substituted
            split
            · next hempty =>
              rw [Bool.or_eq_true, List.isEmpty_iff, List.isEmpty_iff] at hempty
              rcases hempty with hparams | rfl
              · rw [hparams, List.zip_nil_left, Ty.substitute_nil]
              · rw [List.zip_nil_right, Ty.substitute_nil]
            · rfl
        · rw [if_neg hbase] at h
          exact absurd h notACase_ne_found
      | error => cases hshape
      | option inner => exact absurd h notACase_ne_found
      | _ => cases hshape

/-- Every member of a union that is no interface has a test. -/
theorem exists_memberTest {m : Ty} (h : env.isUnionMember m = true)
    (hinterface : ∀ name identity, m ≠ .interface name identity) :
    ∃ test, env.unionMemberTest m = some test ∧ ∀ name, test ≠ .enumCase name := by
  cases m with
  | named name =>
    simp only [isUnionMember, Bool.or_eq_true] at h
    simp only [unionMemberTest]
    split
    · exact ⟨_, rfl, by simp⟩
    split
    · exact ⟨_, rfl, by simp⟩
    split
    · exact ⟨_, rfl, by simp⟩
    split
    · exact ⟨_, rfl, by simp⟩
    · tauto
  | struct name => exact ⟨_, rfl, by simp⟩
  | interface name identity => exact absurd rfl (hinterface name identity)
  | _ => cases h

/-- The target of a type pattern is the member of that name. -/
theorem target_union {name : String} {test : Option UnionMemberTest} {members : List Ty}
    {expected : Option Ty}
    (h : (env.target name test (.union members)).payload = .found expected)
    (hcase : env.unionEnumCase name members = none) :
    ∃ m ∈ members, expected = some m ∧ unionMemberName m = some name ∧
      (∀ n identity, m ≠ .interface n identity) ∧
      (env.target name test (.union members)).test = (env.unionMemberTest m).or test := by
  simp only [target, hcase] at h ⊢
  cases hfind : members.find? fun member => unionMemberName member == some name with
  | none =>
    rw [hfind] at h
    cases h
  | some member =>
    have hin := List.mem_of_find?_eq_some hfind
    have hname := List.find?_some hfind
    rw [beq_iff_eq] at hname
    rw [hfind] at h
    cases member with
    | interface n identity => cases h
    | _ =>
      cases h
      exact ⟨_, hin, rfl, hname, by simp, rfl⟩

theorem target_enumCase {name enumName : String} (test : Option UnionMemberTest)
    {members : List Ty} {member : Ty}
    (hcase : env.unionEnumCase name members = some (enumName, member)) :
    (env.target name test (.union members)).test = some (.enumCase enumName) ∧
      (env.target name test (.union members)).payload = env.caseLookup name member := by
  simp only [target, hcase]
  exact ⟨trivial, trivial⟩

theorem target_cases (name : String) (test : Option UnionMemberTest) {label : String} {ty : Ty}
    {shape : List (String × Option Ty)} (hshape : env.enumShape ty = some (label, shape)) :
    (env.target name test ty).test = test ∧
      (env.target name test ty).payload = env.caseLookup name ty := by
  cases ty with
  | union members => cases hshape
  | var => cases hshape
  | infer => cases hshape
  | _ => exact ⟨rfl, rfl⟩

/-! ### What a check leaves -/

open Pattern

theorem checkIdentifier_fst (env : Tables E) (name : String) (isCase : Bool) (ty : Ty) :
    ∃ b, (checkIdentifier env name isCase ty).1 = .identifier name b := by
  unfold checkIdentifier
  split
  · exact ⟨_, rfl⟩
  · cases ty <;> exact ⟨_, rfl⟩

theorem payloadError_missing (env : Tables E) (name : String) (ty t : Ty) :
    env.payloadError name ty (some t) false ≠ [] := by
  unfold payloadError
  simp only
  split <;> simp

theorem payloadError_extra (env : Tables E) (name : String) (ty : Ty) :
    env.payloadError name ty none true ≠ [] := by
  simp [payloadError]

theorem caseLookup_ne_unchecked {name : String} {ty : Ty} (hty : ty ≠ .error) :
    env.caseLookup name ty ≠ .unchecked := by
  have hreject : ∀ n, notACase n ty ≠ .unchecked := by
    intro n h
    cases ty with
    | error => exact hty rfl
    | _ => cases h
  intro h
  unfold caseLookup at h
  by_cases hoption : (name == "Some" || name == "None") = true
  · rw [if_pos hoption] at h
    cases ty with
    | option inner => cases h
    | _ => exact hreject _ h
  rw [if_neg hoption] at h
  by_cases hresult : (name == "Ok" || name == "Err" || name == "Throw") = true
  · rw [if_pos hresult] at h
    split at h
    · split at h
      · cases h
      · exact hreject _ h
    · exact hreject _ h
  rw [if_neg hresult] at h
  cases henum : env.enumOfCase name ty with
  | none =>
    rw [henum] at h
    cases h
  | some enumName =>
    rw [henum] at h
    have hdeclared : (env.enums.lookup enumName).isSome := by
      unfold enumOfCase at henum
      split at henum
      · next owner =>
        split at henum
        · next info hinfo =>
          split at henum
          · cases henum
            rw [hinfo]
            rfl
          · exact env.declared _ _ henum
        · exact env.declared _ _ henum
      · exact env.declared _ _ henum
    obtain ⟨info, hinfo⟩ := Option.isSome_iff_exists.mp hdeclared
    simp only [hinfo] at h
    split at h
    · exact hreject _ h
    · split at h <;> cases h

theorem target_ne_unchecked (name : String) (test : Option UnionMemberTest) {ty : Ty}
    (hsettled : Settled env ty) : (env.target name test ty).payload ≠ .unchecked := by
  have hknown := hsettled.known ty (.refl _)
  intro h
  cases ty with
  | union members =>
    simp only [target] at h
    split at h
    · next enumName member hmember =>
      obtain ⟨e, _, hfind⟩ := Option.bind_eq_some_iff.mp hmember
      obtain ⟨m, hm, hpair⟩ := Option.bind_eq_some_iff.mp hfind
      cases hpair
      have hin : member ∈ members := List.mem_of_find?_eq_some hm
      exact caseLookup_ne_unchecked ((hsettled.member hin).known _ (.refl _)).1 h
    · split at h <;> cases h
  | error => exact hknown.1 rfl
  | infer => exact hknown.2.1 rfl
  | var => exact hknown.2.2 rfl
  | _ => exact caseLookup_ne_unchecked hknown.1 h

theorem isIrrefutable_check_constructor (name : String) (payload : Option (Pattern E))
    (test : Option UnionMemberTest) (ty : Ty) :
    isIrrefutable ((Pattern.constructor name payload test).check env ty).1 = false := by
  cases payload with
  | none =>
    rw [check]
    split
    · rfl
    · dsimp only
      split <;> rfl
  | some p =>
    rw [check]
    split
    · rfl
    · dsimp only
      split <;> rfl

/-- A constructor pattern that is accepted has a payload when its case has one. -/
theorem check_constructor_ok {name : String} {payload : Option (Pattern E)}
    {test : Option UnionMemberTest} {ty : Ty} (hsettled : Settled env ty)
    (h : ((Pattern.constructor name payload test).check env ty).2 = []) :
    (payload = none ∧ (env.target name test ty).payload = .found none ∧
      ((Pattern.constructor name payload test).check env ty).1 =
        .constructor name none (env.target name test ty).test) ∨
    (∃ p t, payload = some p ∧ (env.target name test ty).payload = .found (some t) ∧
      (p.check env t).2 = [] ∧
      ((Pattern.constructor name payload test).check env ty).1 =
        .constructor name (some (p.check env t).1) (env.target name test ty).test) := by
  have hunchecked := target_ne_unchecked name test hsettled
  cases payload with
  | none =>
    left
    rw [check] at h ⊢
    cases hsealed : opaqueError ty with
    | some message => simp [hsealed] at h
    | none =>
      simp only [hsealed] at h ⊢
      cases htarget : (env.target name test ty).payload with
      | rejected message => simp [htarget] at h
      | unchecked => exact absurd htarget hunchecked
      | found expected =>
        simp only [htarget] at h ⊢
        cases expected with
        | none => exact ⟨trivial, rfl, trivial⟩
        | some t => exact absurd h (payloadError_missing env name ty t)
  | some p =>
    right
    rw [check] at h ⊢
    cases hsealed : opaqueError ty with
    | some message => simp [hsealed] at h
    | none =>
      simp only [hsealed] at h ⊢
      cases htarget : (env.target name test ty).payload with
      | rejected message => simp [htarget] at h
      | unchecked => exact absurd htarget hunchecked
      | found expected =>
        simp only [htarget] at h ⊢
        cases expected with
        | none => exact absurd h (payloadError_extra env name ty)
        | some t => exact ⟨p, t, rfl, rfl, h, rfl⟩

theorem checkAlternatives_ok {alternatives : List (Pattern E)} {ty : Ty}
    (hresolving : (checkAlternatives env alternatives ty).2.1 = [])
    (herrors : (checkAlternatives env alternatives ty).2.2 = []) :
    (checkAlternatives env alternatives ty).1 = alternatives.map (fun p => (p.check env ty).1) ∧
      ∀ p ∈ alternatives, (p.check env ty).2 = [] := by
  induction alternatives with
  | nil => exact ⟨rfl, by simp⟩
  | cons p rest ih =>
    simp only [checkAlternatives] at hresolving herrors ⊢
    cases hbinding : bindingName (resolveAlternative env p ty).1 with
    | some name => simp [hbinding] at herrors
    | none =>
      simp only [hbinding, List.append_eq_nil_iff] at hresolving herrors ⊢
      obtain ⟨hrest, hall⟩ := ih hresolving.2 herrors.2
      exact ⟨by rw [hrest, List.map_cons], List.forall_mem_cons.mpr ⟨herrors.1, hall⟩⟩

theorem checkFields_ok {nominal : String} {args : Option (List Ty)} {seen : List String}
    {fields : List (String × Pattern E)}
    (h : (checkFields env nominal args seen fields).2 = []) :
    ∀ e ∈ (checkFields env nominal args seen fields).1, ∃ p ty, (e.1, p) ∈ fields ∧
      env.fieldType nominal args e.1 = some ty ∧ e.2 = (p.check env ty).1 ∧
      (p.check env ty).2 = [] := by
  induction fields generalizing seen with
  | nil => simp [checkFields]
  | cons e rest ih =>
    obtain ⟨field, p⟩ := e
    simp only [checkFields] at h ⊢
    split at h
    · cases h
    · next hseen =>
      cases hty : env.fieldType nominal args field with
      | none => simp [hty] at h
      | some ty =>
        simp only [hty, List.append_eq_nil_iff] at h
        simp only [if_neg hseen]
        intro e he
        rcases List.mem_cons.mp he with rfl | he
        · exact ⟨p, ty, List.mem_cons_self, hty, rfl, h.1⟩
        · obtain ⟨q, t, hq, hrest⟩ := ih h.2 e he
          exact ⟨q, t, List.mem_cons_of_mem _ hq, hrest⟩

/-- What a struct pattern matches is a value of the struct. -/
theorem structTarget_values {nominal : String} {args : Option (List Ty)} {ty : Ty} {v : Value F}
    (hnames : NamesApart env) (hsettled : Settled env ty)
    (h : structTarget env nominal ty = .ok args) (hv : HasType env v ty) :
    ∃ values, v = .struct nominal values ∧
      env.structFields ty = some (nominal, env.fieldType nominal args) ∧
      (∀ field t, env.fieldType nominal args field = some t →
        ∃ w, values.lookup field = some w ∧ HasType env w t) := by
  have hfields : env.structFields ty = some (nominal, env.fieldType nominal args) := by
    cases ty with
    | struct actual =>
      simp only [structTarget, beq_iff_eq] at h
      split at h
      · next hname =>
        cases h
        rw [← hname]
        rfl
      · cases h
    | generic base typeArgs =>
      simp only [structTarget, Bool.and_eq_true, beq_iff_eq] at h
      split at h
      · next hbase =>
        cases h
        obtain ⟨rfl, hstruct⟩ := hbase
        simp [structFields, hstruct, hnames.structs base typeArgs hstruct]
      · cases h
    | error => exact absurd rfl (hsettled.known _ (.refl _)).1
    | infer => exact absurd rfl (hsettled.known _ (.refl _)).2.1
    | var => exact absurd rfl (hsettled.known _ (.refl _)).2.2
    | _ => cases h
  have hshape : env.enumShape ty = none := by
    cases ty with
    | struct actual => rfl
    | generic base typeArgs =>
      simp only [structFields] at hfields
      split at hfields
      · next hstruct =>
        rw [Bool.and_eq_true, Option.isNone_iff_eq_none] at hstruct
        exact hstruct.1
      · cases hfields
    | _ => cases hfields
  cases hv with
  | struct htypes hpresent htyped =>
    rw [hfields] at htypes
    cases htypes
    refine ⟨_, rfl, hfields, fun field t ht => ?_⟩
    obtain ⟨w, hw⟩ := Option.isSome_iff_exists.mp (hpresent field t ht)
    exact ⟨w, hw, htyped field t w ht hw⟩
  | case hcases _ =>
    rw [hshape] at hcases
    cases hcases
  | payload hcases _ _ =>
    rw [hshape] at hcases
    cases hcases
  | other hother =>
    cases ty with
    | struct actual => cases hother
    | generic base typeArgs =>
      simp only [structFields] at hfields
      split at hfields
      · next hstruct =>
        rw [Bool.and_eq_true] at hstruct
        simp [isTested, hstruct.2] at hother
      · cases hfields
    | _ => cases hfields
  | member hm hv => cases hfields
  | _ => cases hfields

end

end Deka.Typeck
