/-
Deka/Typeck/Accepted.lean

What the checker accepts as an exhaustive match has an arm for every value.

At the top of a match `collect_missing` reports nothing below a member of a union that has
no cases: a member that only refutable payloads are matched for counts as covered.
`Discerned` says that no arm falls under this, and that no pattern below an arm takes the
name of a case for the name of a member.
-/
import Deka.Typeck.Exhaustive

namespace Deka.Typeck

open Tables Coverage Pattern

section

variable {E F : Type} {env : Tables E}

/-! ### The coverage of the arms together -/

/-- `fold(coverage, Coverage::merge)` over the arms of a match. -/
def mergeArms (coverage : Pattern E → Coverage) (c : Coverage) (arms : List (Pattern E)) :
    Coverage :=
  arms.foldl (fun c p => c.merge (coverage p)) c

theorem mergeArms_cons (coverage : Pattern E → Coverage) (c : Coverage) (p : Pattern E)
    (rest : List (Pattern E)) :
    mergeArms coverage c (p :: rest) = mergeArms coverage (c.merge (coverage p)) rest := rfl

theorem covers_mergeArms {arms : List (Pattern E)} {coverage : Pattern E → Coverage} {c : Coverage}
    {ty : Ty} {v : Value F}
    (h : Covers env (mergeArms coverage c arms) ty v) :
    Covers env c ty v ∨ ∃ p ∈ arms, Covers env (coverage p) ty v := by
  induction arms generalizing c with
  | nil => exact Or.inl h
  | cons p rest ih =>
    rcases ih h with hmerged | ⟨q, hq, hcovers⟩
    · rcases covers_merge hmerged with hc | hp
      · exact Or.inl hc
      · exact Or.inr ⟨p, List.mem_cons_self, hp⟩
    · exact Or.inr ⟨q, List.mem_cons_of_mem _ hq, hcovers⟩

theorem isAbsent_mergeArms {arms : List (Pattern E)} {coverage : Pattern E → Coverage} {c : Coverage}
    (hc : c.isAbsent = false) :
    (mergeArms coverage c arms).isAbsent = false := by
  induction arms generalizing c with
  | nil => exact hc
  | cons p rest ih =>
    apply ih
    rw [isAbsent_merge, hc, Bool.false_and]

theorem mergeArms_merge (coverage : Pattern E → Coverage) (c d : Coverage)
    (arms : List (Pattern E)) :
    mergeArms coverage (c.merge d) arms = (mergeArms coverage c arms).merge d := by
  induction arms generalizing c with
  | nil => rfl
  | cons p rest ih => rw [mergeArms_cons, mergeArms_cons, merge_right_comm, ih]

/-- The coverage of an arm is merged wherever the arm stands. -/
theorem mergeArms_insert (coverage : Pattern E → Coverage) (c : Coverage)
    (before after : List (Pattern E)) (p : Pattern E) :
    mergeArms coverage c (before ++ p :: after) =
      (mergeArms coverage c (before ++ after)).merge (coverage p) := by
  induction before generalizing c with
  | nil => exact mergeArms_merge coverage c (coverage p) after
  | cons q rest ih => exact ih (c.merge (coverage q))

/-! ### Members covered as a whole -/

/-- The coverage takes every value of a member of a union. -/
def TakesMember (label : String) (c : Coverage) : Prop :=
  c = all ∨ ∃ covered, c = cases covered ∧ covered label = all

theorem TakesMember.merge {label : String} {c d : Coverage}
    (h : TakesMember label c ∨ TakesMember label d) : TakesMember label (c.merge d) := by
  rcases h with (rfl | ⟨covered, rfl, hall⟩) | (rfl | ⟨covered, rfl, hall⟩)
  · exact Or.inl (all_merge d)
  · cases d with
    | absent => exact Or.inr ⟨covered, rfl, hall⟩
    | all => exact Or.inl rfl
    | cases right =>
      refine Or.inr ⟨_, rfl, ?_⟩
      rw [hall, all_merge]
  · exact Or.inl (merge_all c)
  · cases c with
    | absent => exact Or.inr ⟨covered, rfl, hall⟩
    | all => exact Or.inl rfl
    | cases left =>
      refine Or.inr ⟨_, rfl, ?_⟩
      rw [hall, merge_all]

theorem TakesMember.mergeArms {label : String} {arms : List (Pattern E)}
    {coverage : Pattern E → Coverage} {c : Coverage}
    (h : TakesMember label c ∨ ∃ p ∈ arms, TakesMember label (coverage p)) :
    TakesMember label (mergeArms coverage c arms) := by
  induction arms generalizing c with
  | nil =>
    rcases h with hc | ⟨p, hp, _⟩
    · exact hc
    · cases hp
  | cons p rest ih =>
    apply ih
    rcases h with hc | ⟨q, hq, htakes⟩
    · exact Or.inl (.merge (Or.inl hc))
    · rcases List.mem_cons.mp hq with rfl | hq
      · exact Or.inl (.merge (Or.inr htakes))
      · exact Or.inr ⟨q, hq, htakes⟩

theorem ofAlternatives_eq (patterns : List (Pattern E)) (c : Coverage) :
    ofAlternatives c patterns = mergeArms ofPattern c patterns := by
  induction patterns generalizing c with
  | nil => rfl
  | cons p rest ih => exact ih (c.merge (ofPattern p))

/-- An irrefutable pattern covers everything. -/
theorem ofPattern_of_irrefutable (p : Pattern E) (h : isIrrefutable p = true) :
    ofPattern p = all := by
  induction p using Pattern.induction with
  | wildcard => rfl
  | identifier name isCase =>
    have hbinds : isCase = false := by simpa [isIrrefutable] using h
    rw [hbinds]
    rfl
  | literal expr => cases h
  | constructor name payload test ih => cases h
  | struct name fields ih => exact if_pos h
  | tuple elements ih => cases h
  | or alternatives ih =>
    obtain ⟨p, hp, hirrefutable⟩ := anyIrrefutable_iff.mp h
    have hall := ih p hp hirrefutable
    rw [ofPattern, ofAlternatives_eq]
    obtain ⟨before, after, rfl⟩ := List.append_of_mem hp
    rw [mergeArms_insert, hall, merge_all]

mutual

/-- The pattern binds whatever value of the member there is. -/
def takesMember (label : String) : Pattern E → Bool
  | .constructor _ _ (some (.enumCase _)) => false
  | .constructor name (some payload) _ => name == label && isIrrefutable payload
  | .or alternatives => anyTakesMember label alternatives
  | p => isIrrefutable p

def anyTakesMember (label : String) : List (Pattern E) → Bool
  | [] => false
  | p :: rest => takesMember label p || anyTakesMember label rest

end

theorem anyTakesMember_iff {label : String} {patterns : List (Pattern E)} :
    anyTakesMember label patterns = true ↔ ∃ p ∈ patterns, takesMember label p = true := by
  induction patterns with
  | nil => simp [anyTakesMember]
  | cons p rest ih => simp [anyTakesMember, ih]

theorem ofPattern_takesMember {label : String} (p : Pattern E) (h : takesMember label p = true) :
    TakesMember label (ofPattern p) := by
  induction p using Pattern.induction with
  | constructor name payload test ih =>
    have hpayload : ∃ q, payload = some q ∧ name = label ∧ isIrrefutable q = true := by
      unfold takesMember at h
      split at h
      · cases h
      · next heq =>
        injection heq with hname hpayload _
        simp only [Bool.and_eq_true, beq_iff_eq] at h
        exact ⟨_, hpayload, hname.trans h.1, h.2⟩
      · next heq => cases heq
      · cases h
    obtain ⟨q, rfl, rfl, hq⟩ := hpayload
    refine Or.inr ⟨_, rfl, ?_⟩
    rw [if_pos rfl]
    exact ofPattern_of_irrefutable q hq
  | or alternatives ih =>
    obtain ⟨p, hp, htakes⟩ := anyTakesMember_iff.mp h
    rw [ofPattern, ofAlternatives_eq]
    exact TakesMember.mergeArms (Or.inr ⟨p, hp, ih p hp htakes⟩)
  | _ => exact Or.inl (ofPattern_of_irrefutable _ h)

theorem ofArm_takesMember {label : String} {p : Pattern E} (h : takesMember label p = true) :
    TakesMember label (ofArm p) := by
  unfold ofArm
  split
  · simp [takesMember] at h
  · exact ofPattern_takesMember p h

/-! ### Accepted matches -/

/-- The types whose cases or members a match is checked for. -/
def isMatched (env : Tables E) (ty : Ty) : Prop :=
  (env.enumShape ty).isSome ∨ ∃ members, ty = .union members

/-- The coverage of the arms tells what they match: no case below an arm is taken for a
member of a union, and a member of the scrutinee without cases is bound as a whole. -/
structure Discerned (env : Tables E) (ty : Ty) (arms : List (Pattern E)) : Prop where
  apart : ∀ p ∈ arms, armApart env p ty = true
  whole : ∀ members, ty = .union members → ∀ m ∈ members, env.enumShape m = none →
    ∀ label, unionMemberName m = some label →
      ∃ p ∈ checkArms env ty arms, takesMember label p = true

/-- The arm that the virtual machine takes. -/
def selectedArm (env : Tables E) (literalMatches : E → Value F → Bool) (arms : List (Pattern E))
    (v : Value F) : Option (Pattern E) :=
  arms.find? fun p => matchesValue env literalMatches p v

variable {literalMatches : E → Value F → Bool}

theorem selectedArm_isSome {arms : List (Pattern E)} {p : Pattern E} {v : Value F} (hp : p ∈ arms)
    (h : matchesValue env literalMatches p v = true) :
    (selectedArm env literalMatches arms v).isSome = true :=
  List.find?_isSome.mpr ⟨p, hp, h⟩

theorem anyCatchAll_iff {patterns : List (Pattern E)} :
    anyCatchAll patterns = true ↔ ∃ p ∈ patterns, isCatchAll p = true := by
  induction patterns with
  | nil => simp [anyCatchAll]
  | cons p rest ih => simp [anyCatchAll, ih]

theorem catchAll_matches (p : Pattern E) (v : Value F) (h : isCatchAll p = true) :
    matchesValue env literalMatches p v = true := by
  induction p using Pattern.induction with
  | wildcard => rfl
  | identifier name isCase =>
    have hbinds : isCase = false := by simpa [isCatchAll] using h
    rw [hbinds]
    rfl
  | or alternatives ih =>
    obtain ⟨p, hp, hcatches⟩ := anyCatchAll_iff.mp h
    exact (matchesAny_iff literalMatches).mpr ⟨p, hp, ih p hp hcatches⟩
  | _ => cases h

theorem mem_checkArms {ty : Ty} {arms : List (Pattern E)} {q : Pattern E} :
    q ∈ checkArms env ty arms ↔ ∃ p ∈ arms, (p.check env ty).1 = q :=
  List.mem_map

theorem armErrors_eq_nil {ty : Ty} {arms : List (Pattern E)} :
    armErrors env ty arms = [] ↔ ∀ p ∈ arms, (p.check env ty).2 = [] := by
  rw [armErrors, List.flatMap_eq_nil_iff]

theorem exhaustivenessErrors_eq_nil {ty : Ty} {c : Coverage} :
    exhaustivenessErrors env ty c = [] ↔ collectMissing env c ty "" = [] := by
  rw [exhaustivenessErrors]
  cases collectMissing env c ty "" with
  | nil => simp
  | cons case rest => simp

/-- Arms that bind every member without cases leave nothing out at the top of a match. -/
theorem whole_of_takesMember {ty : Ty} {c : Coverage} (hmatched : isMatched env ty)
    (hpresent : c.isAbsent = false)
    (htakes : ∀ members, ty = .union members → ∀ m ∈ members, env.enumShape m = none →
      ∀ label, unionMemberName m = some label → TakesMember label c) :
    Whole env c ty "" := by
  rcases hmatched with hshape | ⟨members, rfl⟩
  · exact Or.inr (Or.inl hshape)
  · cases c with
    | absent => cases hpresent
    | all => exact Or.inr (Or.inr (Or.inl rfl))
    | cases covered =>
      refine Or.inr (Or.inr (Or.inr ⟨members, covered, rfl, rfl, fun m hm label hlabel => ?_⟩))
      cases hshape : env.enumShape m with
      | some shape => exact Or.inl rfl
      | none =>
        rcases htakes members rfl m hm hshape label hlabel with hall | ⟨_, hcases, hall⟩
        · cases hall
        · cases hcases
          exact Or.inr (Or.inr hall)

/-- An accepted match has an arm for every value. -/
theorem match_exhaustive {scrutineeType : Ty} {arms : List (Pattern E)} {v : Value F}
    (hnames : NamesApart env) (hfresh : allFresh arms = true)
    (hmatched : isMatched env (env.boundedParamType scrutineeType))
    (hsettled : Settled env (env.boundedParamType scrutineeType))
    (hdiscerned : Discerned env (env.boundedParamType scrutineeType) arms)
    (haccepted : matchErrors env scrutineeType arms = [])
    (hv : HasType env v (env.boundedParamType scrutineeType)) :
    (selectedArm env literalMatches
      (checkArms env (env.boundedParamType scrutineeType) arms) v).isSome = true := by
  unfold matchErrors at haccepted
  split at haccepted
  · cases haccepted
  simp only [List.append_eq_nil_iff] at haccepted
  obtain ⟨hpatterns, hmissing⟩ := haccepted
  generalize env.boundedParamType scrutineeType = ty at *
  have hchecked := armErrors_eq_nil.mp hpatterns
  unfold missingErrors at hmissing
  split at hmissing
  · next hcatch =>
    rw [Bool.or_eq_true] at hcatch
    rcases hcatch with hany | herror
    · obtain ⟨q, hq, hcatches⟩ := List.any_eq_true.mp hany
      exact selectedArm_isSome hq (catchAll_matches q v hcatches)
    · have hknown := (hsettled.known ty (.refl _)).1
      cases ty with
      | error => exact absurd rfl hknown
      | _ => cases herror
  · have hpresent : (matchCoverage (checkArms env ty arms)).isAbsent = false :=
      isAbsent_mergeArms rfl
    have hwhole : Whole env (matchCoverage (checkArms env ty arms)) ty "" := by
      apply whole_of_takesMember hmatched hpresent
      intro members hty m hm hshape label hlabel
      obtain ⟨q, hq, htakes⟩ := hdiscerned.whole members hty m hm hshape label hlabel
      exact TakesMember.mergeArms (Or.inr ⟨q, hq, ofArm_takesMember htakes⟩)
    have hcovers := covers_of_missing hnames (exhaustivenessErrors_eq_nil.mp hmissing) hpresent
      hwhole hsettled hv
    rcases covers_mergeArms hcovers with hnothing | ⟨q, hq, hclaims⟩
    · exact absurd hnothing not_covers_nothing
    · obtain ⟨p, hp, rfl⟩ := mem_checkArms.mp hq
      exact selectedArm_isSome hq (arm_matches hnames (hchecked p hp) (isFresh_of_mem hfresh hp)
        (hdiscerned.apart p hp) hsettled hv hclaims)

theorem isApart_of_armApart {p : Pattern E} {ty : Ty} (h : armApart env p ty = true)
    (hty : ∀ members, ty ≠ .union members) : isApart env p ty = true := by
  cases p with
  | constructor name payload test =>
    have hambiguous : isAmbiguous env name ty = false := by
      cases ty with
      | union members => exact absurd rfl (hty members)
      | _ => rfl
    rw [isApart_constructor, hambiguous, h]
    rfl
  | _ => exact h

/-- An accepted unwrap has an arm for every value but those of `Ok`. -/
theorem unwrap_exhaustive {args : List Ty} {arms : List (Pattern E)} {v : Value F}
    (hnames : NamesApart env) (hfresh : allFresh arms = true)
    (hmatched : isMatched env (.generic "Result" args)) (hsettled : Settled env (.generic "Result" args))
    (hdiscerned : Discerned env (.generic "Result" args) arms)
    (haccepted : unwrapErrors env (.generic "Result" args) arms = [])
    (hv : HasType env v (.generic "Result" args)) :
    (enumTest none "Ok" v).isSome = true ∨
      (selectedArm env literalMatches
        (checkArms env (.generic "Result" args) arms) v).isSome = true := by
  simp only [unwrapErrors, List.append_eq_nil_iff] at haccepted
  obtain ⟨hpatterns, hmissing⟩ := haccepted
  have hchecked := armErrors_eq_nil.mp hpatterns
  have hnot : ∀ members, Ty.generic "Result" args ≠ .union members := by simp
  have hpresent : (unwrapCoverage (checkArms env (.generic "Result" args) arms)).isAbsent = false :=
    isAbsent_mergeArms rfl
  have hwhole := whole_of_takesMember hmatched hpresent
    fun members hty => absurd hty (hnot members)
  have hcovers := covers_of_missing hnames (exhaustivenessErrors_eq_nil.mp hmissing) hpresent
    hwhole hsettled hv
  rcases covers_mergeArms hcovers with hsuccess | ⟨q, hq, hclaims⟩
  · left
    rcases covers_only hsuccess with ⟨members, hty, _⟩ | ⟨label, shape, _, ⟨rfl, _⟩ | ⟨t, w, rfl, _⟩⟩
    · exact absurd hty (hnot members)
    · simp [enumTest]
    · simp [enumTest]
  · right
    obtain ⟨p, hp, rfl⟩ := mem_checkArms.mp hq
    have hapart := isApart_of_armApart (hdiscerned.apart p hp) hnot
    exact selectedArm_isSome hq (covers_matches hnames p (hchecked p hp) (isFresh_of_mem hfresh hp)
      hapart hsettled hv hclaims)

/-! ### More arms -/

theorem checkArms_insert (ty : Ty) (before after : List (Pattern E)) (p : Pattern E) :
    checkArms env ty (before ++ p :: after) =
      checkArms env ty before ++ (p.check env ty).1 :: checkArms env ty after := by
  simp [checkArms]

theorem missingErrors_insert {ty : Ty} {before after : List (Pattern E)} (p : Pattern E)
    (h : missingErrors env ty (checkArms env ty (before ++ after)) = []) :
    missingErrors env ty (checkArms env ty (before ++ p :: after)) = [] := by
  have hsplit : checkArms env ty (before ++ after) =
      checkArms env ty before ++ checkArms env ty after := by simp [checkArms]
  rw [hsplit] at h
  rw [checkArms_insert]
  unfold missingErrors at h ⊢
  split at h
  · next hcatch =>
    have hmore : ((checkArms env ty before ++ (p.check env ty).1 :: checkArms env ty after).any
        isCatchAll || ty.isError) = true := by
      rw [List.any_append, Bool.or_eq_true, Bool.or_eq_true] at hcatch
      rw [List.any_append, List.any_cons]
      rcases hcatch with (hbefore | hafter) | herror
      · simp [hbefore]
      · simp [hafter]
      · simp [herror]
    rw [if_pos hmore]
  · split
    · rfl
    · have hinsert := mergeArms_insert ofArm nothing (checkArms env ty before)
        (checkArms env ty after) (p.check env ty).1
      show exhaustivenessErrors env ty (mergeArms ofArm nothing _) = []
      rw [hinsert]
      exact exhaustivenessErrors_merge _ (isAbsent_mergeArms rfl) h

theorem unwrapMissing_insert {ty : Ty} {before after : List (Pattern E)} (p : Pattern E)
    (h : exhaustivenessErrors env ty (unwrapCoverage (checkArms env ty (before ++ after))) = []) :
    exhaustivenessErrors env ty (unwrapCoverage (checkArms env ty (before ++ p :: after))) = [] := by
  have hsplit : checkArms env ty (before ++ after) =
      checkArms env ty before ++ checkArms env ty after := by simp [checkArms]
  rw [hsplit] at h
  rw [checkArms_insert]
  have hinsert := mergeArms_insert ofPattern (successCase "Ok") (checkArms env ty before)
    (checkArms env ty after) (p.check env ty).1
  show exhaustivenessErrors env ty (mergeArms ofPattern (successCase "Ok") _) = []
  rw [hinsert]
  exact exhaustivenessErrors_merge _ (isAbsent_mergeArms rfl) h

end

/-! ### A match over a union -/

/-- `enum Shape { Circle(number), Square }` and `struct Circle {}`, with strings as
literals -/
def shapes : Tables String where
  enums := [("Shape", { cases := [("Circle", some (.named "number")), ("Square", none)] })]
  structs := [("Circle", { fields := [] })]
  caseToEnum := [("Circle", "Shape"), ("Square", "Shape")]
  literalType _ := .named "string"
  isAssignable a b :=
    match a, b with
    | .named a, .named b => a == b
    | _, _ => false
  aliased name info h := by simpa [NominalNames.canonicalEnum, NominalNames.nominalName] using h
  declared case name h := by
    simp only [List.lookup_cons, List.lookup_nil] at h
    repeat' split at h
    all_goals cases h
    all_goals rfl

theorem shapes_enums {name : String} (h : (shapes.enums.lookup name).isSome) : name = "Shape" := by
  by_contra hname
  have hne : (name == "Shape") = false := by simpa using hname
  simp [shapes, List.lookup_cons, hne] at h

theorem namesApart_shapes : NamesApart shapes where
  primitives name h := by
    rw [shapes_enums h]
    decide
  structs base args h := by
    have hbase : base = "Circle" := by
      by_contra hname
      have hne : (base == "Circle") = false := by simpa using hname
      simp [shapes, List.lookup_cons, hne] at h
    rw [hbase]
    rfl

theorem settled_named {name : String} (h : name ≠ "Shape") : Settled shapes (.named name) := by
  apply Settled.leaf ⟨by simp, by simp, by simp⟩ _ rfl (by simp)
  have hne : (name == "Shape") = false := by simpa using h
  simp [enumShape, shapes, List.lookup_cons, hne]

theorem settled_shape : Settled shapes (.named "Shape") := by
  have hshape : shapes.enumShape (.named "Shape") =
      some ("Shape", [("Circle", some (.named "number")), ("Square", none)]) := rfl
  apply Settled.cases hshape rfl
  intro case t hlookup
  obtain ⟨before, after, hsplit, _⟩ := List.lookup_eq_some_iff.mp hlookup
  have hmem : (case, some t) ∈ [("Circle", some (Ty.named "number")), ("Square", none)] := by
    simp [hsplit]
  simp only [List.mem_cons, Prod.mk.injEq, Option.some.injEq, List.not_mem_nil, or_false,
    reduceCtorEq, and_false] at hmem
  rw [hmem.2]
  exact settled_named (by decide)

/-- A literal matches the text it is. -/
def sameText (expr : String) (v : Value Nat) : Bool :=
  match v with
  | .string text => text == expr
  | _ => false

def shapeOrText : Ty := .union [.named "Shape", .named "string"]

theorem settled_shapeOrText : Settled shapes shapeOrText := by
  apply Settled.union _ (by decide)
  intro m hm
  rcases List.mem_pair.mp hm with rfl | rfl
  · exact ⟨rfl, settled_shape⟩
  · exact ⟨rfl, settled_named (by decide)⟩

/-- `Circle(r)`, `Square` and `string(s)` -/
def shapeArms : List (Pattern String) :=
  [.constructor "Circle" (some (.identifier "r" false)) none, .constructor "Square" none none,
    .constructor "string" (some (.identifier "s" false)) none]

theorem discerned_shapeArms : Discerned shapes shapeOrText shapeArms := by
  refine ⟨by decide, ?_⟩
  intro members hty m hm hshape label hlabel
  cases hty
  rcases List.mem_pair.mp hm with rfl | rfl
  · cases hshape
  · cases hlabel
    exact ⟨_, List.mem_cons_of_mem _ (List.mem_cons_of_mem _ List.mem_cons_self), by decide⟩

def textOrNumber : Ty := .union [.named "string", .named "number"]

theorem settled_textOrNumber : Settled shapes textOrNumber := by
  apply Settled.union _ (by decide)
  intro m hm
  rcases List.mem_pair.mp hm with rfl | rfl
  · exact ⟨rfl, settled_named (by decide)⟩
  · exact ⟨rfl, settled_named (by decide)⟩

/-- `Circle(_)` below `Some` counts for the struct, and is tested as the case. -/
theorem accepted_match_misses_struct :
    matchErrors shapes (.option (.union [.named "Shape", .struct "Circle"]))
        [.constructor "Some" (some (.constructor "Circle" (some .wildcard) none)) none,
          .constructor "Some" (some (.constructor "Shape" (some .wildcard) none)) none,
          .constructor "None" none none] = [] ∧
      selectedArm shapes sameText
        (checkArms shapes (.option (.union [.named "Shape", .struct "Circle"]))
          [.constructor "Some" (some (.constructor "Circle" (some .wildcard) none)) none,
            .constructor "Some" (some (.constructor "Shape" (some .wildcard) none)) none,
            .constructor "None" none none])
        (.enum "Option" "Some" (some (.struct "Circle" []))) = none := by
  constructor
  · decide +kernel
  · rfl

end Deka.Typeck
