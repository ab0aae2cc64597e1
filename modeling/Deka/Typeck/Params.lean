/-
Deka/Typeck/Params.lean

The functions on the type parameters of a type (`expr.rs`), and which parameters they reach.

`leaves` lists what a type consists of, each leaf with what it stands in: an object record, a
union, or a native function, whose parameter is its own.  Substitution does not look into
records, the other functions look neither into records nor into unions.
-/
import Deka.Typeck.Types

namespace Deka.Typeck

namespace Ty

/-- The bases of native functions, each with a parameter of its own. -/
def isNativePromise (base : String) : Bool := base == "$PromiseAll" || base == "$PromiseRace"

/-! ### The functions -/

mutual

def containsParam : Ty → Bool
  | generic base args => if isNativePromise base then false else containsParamAny args
  | param _ => true
  | option inner => containsParam inner
  | array elem => containsParam elem
  | function params ret _ => containsParamAny params || containsParam ret
  | tuple elements => containsParamAny elements
  | _ => false

def containsParamAny : List Ty → Bool
  | [] => false
  | ty :: rest => containsParam ty || containsParamAny rest

end

mutual

/-- `collect_param_names_rec`; what was seen are the names. -/
def collectParamNamesRec : Ty → List String → List String
  | generic base args, names =>
    if isNativePromise base then names else collectParamNamesAll args names
  | param name, names => if names.contains name then names else names ++ [name]
  | option inner, names => collectParamNamesRec inner names
  | array elem, names => collectParamNamesRec elem names
  | function params ret _, names => collectParamNamesRec ret (collectParamNamesAll params names)
  | tuple elements, names => collectParamNamesAll elements names
  | _, names => names

def collectParamNamesAll : List Ty → List String → List String
  | [], names => names
  | ty :: rest, names => collectParamNamesAll rest (collectParamNamesRec ty names)

end

def collectParamNames (tys : List Ty) : List String := collectParamNamesAll tys []

/-- `entry(name).or_insert` -/
def bindOnce (name : String) (value : Ty) (out : Subst) : Subst :=
  if (out.lookup name).isSome then out else out ++ [(name, value)]

mutual

def inferTypeArgs (names : List String) : Ty → Ty → Subst → Subst
  | param name, concrete, out => if names.contains name then bindOnce name concrete out else out
  | option declared, actual, out =>
    match actual with
    | option actual => inferTypeArgs names declared actual out
    | _ => out
  | tuple declared, actual, out =>
    match actual with
    | tuple actual =>
      if declared.length == actual.length then inferTypeArgsAll names declared actual out else out
    | _ => out
  | array declared, actual, out =>
    match actual with
    | array actual => inferTypeArgs names declared actual out
    | _ => out
  | function params ret _, actual, out =>
    match actual with
    | function actualParams actualRet _ =>
      if params.length == actualParams.length then
        inferTypeArgs names ret actualRet (inferTypeArgsAll names params actualParams out)
      else out
    | _ => out
  | generic base declared, actual, out =>
    match actual with
    | generic actualBase actual =>
      if base == actualBase && declared.length == actual.length then
        inferTypeArgsAll names declared actual out
      else out
    | _ => out
  | _, _, out => out

def inferTypeArgsAll (names : List String) : List Ty → List Ty → Subst → Subst
  | declared :: rest, actual :: actuals, out =>
    inferTypeArgsAll names rest actuals (inferTypeArgs names declared actual out)
  | _, _, out => out

end

/-! ### Where the leaves of a type stand -/

/-- What a leaf stands in. -/
structure Place where
  inObject : Bool := false
  inUnion : Bool := false
  inNative : Bool := false
deriving DecidableEq

mutual

/-- What a type consists of, apart from the constructors that hold other types. -/
def leaves (place : Place) : Ty → List (Place × Ty)
  | option inner => leaves place inner
  | array elem => leaves place elem
  | tuple elements => leavesAll place elements
  | function params ret _ => leavesAll place params ++ leaves place ret
  | generic base args =>
    leavesAll { place with inNative := place.inNative || isNativePromise base } args
  | union members => leavesAll { place with inUnion := true } members
  | object fields => leavesFields { place with inObject := true } fields
  | leaf => [(place, leaf)]

def leavesAll (place : Place) : List Ty → List (Place × Ty)
  | [] => []
  | ty :: rest => leaves place ty ++ leavesAll place rest

def leavesFields (place : Place) : List (String × Ty) → List (Place × Ty)
  | [] => []
  | (_, ty) :: rest => leaves place ty ++ leavesFields place rest

end

/-- The parameter occurs in the type, other than as that of a native function. -/
def Occurs (name : String) (ty : Ty) : Prop :=
  ∃ place, (place, param name) ∈ leaves {} ty ∧ place.inNative = false

/-- The parameter occurs where no object record and no union is around it. -/
def OccursPlainly (name : String) (ty : Ty) : Prop := ({}, param name) ∈ leaves {} ty

/-- The name that a substitution may replace: a parameter that comes from another module
arrives as a named type. -/
def replaceable : Ty → Option String
  | param name | named name => some name
  | _ => Option.none

/-- A parameter of this name remains in the type. -/
def Mentions (name : String) (ty : Ty) : Prop :=
  ∃ place leaf, (place, leaf) ∈ leaves {} ty ∧ place.inNative = false ∧
    replaceable leaf = some name

mutual

/-- The actual type has the shape of the declared one: what a parameter stands for is free. -/
def MatchesShape : Ty → Ty → Prop
  | param _, _ => True
  | option declared, actual => ∃ inner, actual = option inner ∧ MatchesShape declared inner
  | array declared, actual => ∃ elem, actual = array elem ∧ MatchesShape declared elem
  | tuple declared, actual => ∃ elements, actual = tuple elements ∧ MatchesAll declared elements
  | function params ret _, actual =>
    ∃ actualParams actualRet optional, actual = function actualParams actualRet optional ∧
      MatchesAll params actualParams ∧ MatchesShape ret actualRet
  | generic base declared, actual =>
    ∃ args, actual = generic base args ∧ MatchesAll declared args
  | union declared, actual => ∃ members, actual = union members ∧ MatchesAll declared members
  | object declared, actual => ∃ fields, actual = object fields ∧ MatchesFields declared fields
  | declared, actual => actual = declared

def MatchesAll : List Ty → List Ty → Prop
  | [], actual => actual = []
  | declared :: rest, actual =>
    ∃ ty tys, actual = ty :: tys ∧ MatchesShape declared ty ∧ MatchesAll rest tys

def MatchesFields : List (String × Ty) → List (String × Ty) → Prop
  | [], actual => actual = []
  | (name, declared) :: rest, actual =>
    ∃ ty tys, actual = (name, ty) :: tys ∧ MatchesShape declared ty ∧ MatchesFields rest tys

end

/-! ### Induction -/

def isLeaf : Ty → Bool
  | option _ | array _ | tuple _ | function _ _ _ | generic _ _ | union _ | object _ => false
  | _ => true

section Induct

variable {motive : Ty → Prop} (leaf : ∀ ty, isLeaf ty = true → motive ty)
  (option : ∀ inner, motive inner → motive (option inner))
  (array : ∀ elem, motive elem → motive (array elem))
  (tuple : ∀ elements, (∀ ty ∈ elements, motive ty) → motive (tuple elements))
  (function : ∀ params ret optional, (∀ ty ∈ params, motive ty) → motive ret →
    motive (function params ret optional))
  (generic : ∀ base args, (∀ ty ∈ args, motive ty) → motive (generic base args))
  (union : ∀ members, (∀ ty ∈ members, motive ty) → motive (union members))
  (object : ∀ fields, (∀ field ∈ fields, motive field.2) → motive (object fields))

include leaf option array tuple function generic union object

mutual

/-- Induction on a type, with what holds of the members of a list. -/
theorem byLeaves : ∀ ty : Ty, motive ty
  | .option inner => option inner (byLeaves inner)
  | .array elem => array elem (byLeaves elem)
  | .tuple elements => tuple elements (byLeavesAll elements)
  | .function params ret optional =>
    function params ret optional (byLeavesAll params) (byLeaves ret)
  | .generic base args => generic base args (byLeavesAll args)
  | .union members => union members (byLeavesAll members)
  | .object fields => object fields (byLeavesFields fields)
  | .error => leaf _ rfl
  | .infer => leaf _ rfl
  | .var => leaf _ rfl
  | .never => leaf _ rfl
  | .none => leaf _ rfl
  | .named _ => leaf _ rfl
  | .opaqueType _ _ => leaf _ rfl
  | .struct _ => leaf _ rfl
  | .interface _ _ => leaf _ rfl
  | .newtype _ _ => leaf _ rfl
  | .param _ => leaf _ rfl

theorem byLeavesAll : ∀ tys : List Ty, ∀ ty ∈ tys, motive ty
  | [], _, h => absurd h List.not_mem_nil
  | ty :: rest, other, h => by
    rcases List.mem_cons.mp h with heq | hrest
    · exact heq ▸ byLeaves ty
    · exact byLeavesAll rest other hrest

theorem byLeavesFields : ∀ fields : List (String × Ty), ∀ field ∈ fields, motive field.2
  | [], _, h => absurd h List.not_mem_nil
  | (name, ty) :: rest, other, h => by
    rcases List.mem_cons.mp h with heq | hrest
    · exact heq ▸ byLeaves ty
    · exact byLeavesFields rest other hrest

end

end Induct

/-! ### Leaves -/

theorem leavesAll_eq (place : Place) (tys : List Ty) :
    leavesAll place tys = tys.flatMap (leaves place) := by
  induction tys with
  | nil => rfl
  | cons ty rest ih =>
    show leaves place ty ++ leavesAll place rest = _
    rw [ih, List.flatMap_cons]

theorem leavesFields_eq (place : Place) (fields : List (String × Ty)) :
    leavesFields place fields = fields.flatMap fun field => leaves place field.2 := by
  induction fields with
  | nil => rfl
  | cons field rest ih =>
    show leaves place field.2 ++ leavesFields place rest = _
    rw [ih, List.flatMap_cons]

theorem leaves_tuple (place : Place) (elements : List Ty) :
    leaves place (tuple elements) = elements.flatMap (leaves place) :=
  leavesAll_eq place elements

theorem leaves_function (place : Place) (params : List Ty) (ret : Ty) (optional : Nat) :
    leaves place (function params ret optional) =
      params.flatMap (leaves place) ++ leaves place ret :=
  congrArg (· ++ leaves place ret) (leavesAll_eq place params)

theorem leaves_generic (place : Place) (base : String) (args : List Ty) :
    leaves place (generic base args) =
      args.flatMap (leaves { place with inNative := place.inNative || isNativePromise base }) :=
  leavesAll_eq _ args

theorem leaves_union (place : Place) (members : List Ty) :
    leaves place (union members) = members.flatMap (leaves { place with inUnion := true }) :=
  leavesAll_eq _ members

theorem leaves_object (place : Place) (fields : List (String × Ty)) :
    leaves place (object fields) =
      fields.flatMap fun field => leaves { place with inObject := true } field.2 :=
  leavesFields_eq _ fields

theorem leaves_of_isLeaf {place : Place} {ty : Ty} (h : isLeaf ty = true) :
    leaves place ty = [(place, ty)] := by
  cases ty <;> first | rfl | cases h

def Place.or (p q : Place) : Place where
  inObject := p.inObject || q.inObject
  inUnion := p.inUnion || q.inUnion
  inNative := p.inNative || q.inNative

/-- What a type stands in, its leaves stand in as well. -/
theorem leaves_or (p q : Place) (ty : Ty) :
    leaves (p.or q) ty = (leaves q ty).map fun leaf => (p.or leaf.1, leaf.2) := by
  induction ty using byLeaves generalizing q with
  | leaf ty h =>
    rw [leaves_of_isLeaf h, leaves_of_isLeaf h]
    rfl
  | option inner ih => exact ih q
  | array elem ih => exact ih q
  | tuple elements ih =>
    rw [leaves_tuple, leaves_tuple, List.map_flatMap]
    exact List.flatMap_congr fun ty hty => ih ty hty q
  | function params ret optional ihParams ihRet =>
    rw [leaves_function, leaves_function, List.map_append, List.map_flatMap, ihRet]
    congr 1
    exact List.flatMap_congr fun ty hty => ihParams ty hty q
  | generic base args ih =>
    rw [leaves_generic, leaves_generic, List.map_flatMap]
    refine List.flatMap_congr fun ty hty => ?_
    rw [← ih ty hty]
    simp [Place.or, Bool.or_assoc]
  | union members ih =>
    rw [leaves_union, leaves_union, List.map_flatMap]
    refine List.flatMap_congr fun ty hty => ?_
    rw [← ih ty hty]
    simp [Place.or]
  | object fields ih =>
    rw [leaves_object, leaves_object, List.map_flatMap]
    refine List.flatMap_congr fun field hfield => ?_
    rw [← ih field hfield]
    simp [Place.or]

theorem mem_leaves {place : Place} {ty : Ty} {leaf : Place × Ty} :
    leaf ∈ leaves place ty ↔ ∃ q, (q, leaf.2) ∈ leaves {} ty ∧ leaf.1 = place.or q := by
  have hplace : place.or {} = place := by simp [Place.or]
  rw [← hplace, leaves_or, hplace, List.mem_map]
  constructor
  · rintro ⟨⟨q, l⟩, hmem, rfl⟩
    exact ⟨q, hmem, rfl⟩
  · rintro ⟨q, hmem, hq⟩
    exact ⟨(q, leaf.2), hmem, by rw [← hq]⟩

/-! ### What the functions reach -/

theorem containsParamAny_iff {tys : List Ty} :
    containsParamAny tys = true ↔ ∃ ty ∈ tys, containsParam ty = true := by
  induction tys with
  | nil => simp [containsParamAny]
  | cons ty rest ih => simp [containsParamAny, ih]

/-- Nothing stands plainly in a type that stands in something. -/
theorem not_plain {place : Place} {ty leaf : Ty} (hplace : place ≠ {}) :
    ({}, leaf) ∉ leaves place ty := by
  intro hmem
  obtain ⟨q, -, hq⟩ := mem_leaves.mp hmem
  obtain ⟨inObject, inUnion, inNative⟩ := place
  simp [Place.or] at hq
  exact hplace (by simp [hq])

theorem not_plain_all {place : Place} {tys : List Ty} {leaf : Ty} (hplace : place ≠ {}) :
    ({}, leaf) ∉ tys.flatMap (leaves place) := by
  rw [List.mem_flatMap]
  rintro ⟨ty, -, hmem⟩
  exact not_plain hplace hmem

theorem not_plain_union (name : String) (members : List Ty) :
    ¬ OccursPlainly name (union members) := by
  rw [OccursPlainly, leaves_union]
  exact not_plain_all (by decide)

theorem not_plain_object (name : String) (fields : List (String × Ty)) :
    ¬ OccursPlainly name (object fields) := by
  rw [OccursPlainly, leaves_object, List.mem_flatMap]
  rintro ⟨field, -, hmem⟩
  exact not_plain (by decide) hmem

theorem not_plain_native {base : String} (hnative : isNativePromise base = true) (name : String)
    (args : List Ty) : ¬ OccursPlainly name (generic base args) := by
  rw [OccursPlainly, leaves_generic, hnative]
  exact not_plain_all (by decide)

theorem occursPlainly_generic {base : String} (hnative : isNativePromise base = false)
    {name : String} {args : List Ty} :
    OccursPlainly name (generic base args) ↔ ∃ ty ∈ args, OccursPlainly name ty := by
  rw [OccursPlainly, leaves_generic, hnative, List.mem_flatMap]
  rfl

theorem occursPlainly_tuple {name : String} {elements : List Ty} :
    OccursPlainly name (tuple elements) ↔ ∃ ty ∈ elements, OccursPlainly name ty := by
  rw [OccursPlainly, leaves_tuple, List.mem_flatMap]
  rfl

theorem occursPlainly_function {name : String} {params : List Ty} {ret : Ty} {optional : Nat} :
    OccursPlainly name (function params ret optional) ↔
      (∃ ty ∈ params, OccursPlainly name ty) ∨ OccursPlainly name ret := by
  rw [OccursPlainly, leaves_function, List.mem_append, List.mem_flatMap]
  rfl

theorem occursPlainly_leaf {name : String} {ty : Ty} (h : isLeaf ty = true) :
    OccursPlainly name ty ↔ ty = param name := by
  rw [OccursPlainly, leaves_of_isLeaf h, List.mem_singleton, Prod.mk.injEq, eq_self, true_and,
    eq_comm]

theorem containsParam_iff {ty : Ty} :
    containsParam ty = true ↔ ∃ name, OccursPlainly name ty := by
  have hall : ∀ tys : List Ty,
      (∀ ty ∈ tys, containsParam ty = true ↔ ∃ name, OccursPlainly name ty) →
      (containsParamAny tys = true ↔ ∃ name, ∃ ty ∈ tys, OccursPlainly name ty) := by
    intro tys ih
    rw [containsParamAny_iff]
    constructor
    · rintro ⟨ty, hty, hcontains⟩
      obtain ⟨name, hname⟩ := (ih ty hty).mp hcontains
      exact ⟨name, ty, hty, hname⟩
    · rintro ⟨name, ty, hty, hname⟩
      exact ⟨ty, hty, (ih ty hty).mpr ⟨name, hname⟩⟩
  induction ty using byLeaves with
  | leaf ty h =>
    simp only [occursPlainly_leaf h]
    cases ty <;> first | exact absurd h Bool.false_ne_true | simp [containsParam]
  | option inner ih => exact ih
  | array elem ih => exact ih
  | tuple elements ih =>
    simp only [occursPlainly_tuple]
    exact hall elements ih
  | function params ret optional ihParams ihRet =>
    simp only [containsParam, Bool.or_eq_true, hall params ihParams, ihRet,
      occursPlainly_function, exists_or]
  | generic base args ih =>
    rw [containsParam]
    cases hnative : isNativePromise base with
    | true => simp [not_plain_native hnative]
    | false =>
      simp only [occursPlainly_generic hnative]
      exact hall args ih
  | union members _ => simp [containsParam, not_plain_union]
  | object fields _ => simp [containsParam, not_plain_object]

/-- What a collector adds to the names that were seen: those that occur plainly. -/
def Adds (collect : List String → List String) (occurs : String → Prop) : Prop :=
  ∀ names : List String, names.Nodup → (collect names).Nodup ∧
    ∀ name, name ∈ collect names ↔ name ∈ names ∨ occurs name

theorem Adds.comp {f g : List String → List String} {p q : String → Prop} (hf : Adds f p)
    (hg : Adds g q) : Adds (fun names => g (f names)) fun name => p name ∨ q name := by
  intro names hnodup
  obtain ⟨hfNodup, hfMem⟩ := hf names hnodup
  obtain ⟨hgNodup, hgMem⟩ := hg (f names) hfNodup
  refine ⟨hgNodup, fun name => ?_⟩
  rw [hgMem, hfMem, or_assoc]

theorem Adds.nothing {p : String → Prop} (h : ∀ name, ¬ p name) : Adds (fun names => names) p :=
  fun _ hnodup => ⟨hnodup, fun name => by simp [h name]⟩

theorem Adds.all {tys : List Ty} {p : Ty → String → Prop}
    (h : ∀ ty ∈ tys, Adds (collectParamNamesRec ty) (p ty)) :
    Adds (collectParamNamesAll tys) fun name => ∃ ty ∈ tys, p ty name := by
  induction tys with
  | nil => exact Adds.nothing (by simp)
  | cons ty rest ih =>
    have hboth := (h ty List.mem_cons_self).comp
      (ih fun other hother => h other (List.mem_cons_of_mem ty hother))
    intro names hnodup
    obtain ⟨hall, hmem⟩ := hboth names hnodup
    refine ⟨hall, fun name => ?_⟩
    rw [collectParamNamesAll, hmem]
    simp

theorem collectParamNamesRec_adds (ty : Ty) :
    Adds (collectParamNamesRec ty) fun name => OccursPlainly name ty := by
  induction ty using byLeaves with
  | leaf ty h =>
    simp only [occursPlainly_leaf h]
    cases ty with
    | param name =>
      intro names hnodup
      rw [collectParamNamesRec]
      by_cases hmem : name ∈ names
      · rw [if_pos (List.contains_iff_mem.mpr hmem)]
        refine ⟨hnodup, fun other => ?_⟩
        simp only [param.injEq]
        constructor
        · exact Or.inl
        · rintro (hother | rfl)
          · exact hother
          · exact hmem
      · rw [if_neg (fun hc => hmem (List.contains_iff_mem.mp hc))]
        refine ⟨?_, fun other => ?_⟩
        · rw [← List.concat_eq_append]
          exact hnodup.concat hmem
        · simp [eq_comm]
    | _ => first | exact absurd h Bool.false_ne_true | exact Adds.nothing (by simp)
  | option inner ih => exact ih
  | array elem ih => exact ih
  | tuple elements ih =>
    simp only [occursPlainly_tuple]
    exact Adds.all ih
  | function params ret optional ihParams ihRet =>
    simp only [occursPlainly_function]
    exact (Adds.all ihParams).comp ihRet
  | generic base args ih =>
    cases hnative : isNativePromise base with
    | true =>
      have hskip : collectParamNamesRec (generic base args) = fun names => names := by
        funext names
        rw [collectParamNamesRec, hnative]
        rfl
      rw [hskip]
      exact Adds.nothing (not_plain_native hnative · args)
    | false =>
      have hinto : collectParamNamesRec (generic base args) = collectParamNamesAll args := by
        funext names
        rw [collectParamNamesRec, hnative]
        rfl
      rw [hinto]
      simp only [occursPlainly_generic hnative]
      exact Adds.all ih
  | union members _ => exact Adds.nothing (not_plain_union · members)
  | object fields _ => exact Adds.nothing (not_plain_object · fields)

theorem mem_collectParamNames {tys : List Ty} :
    (collectParamNames tys).Nodup ∧
      ∀ name, name ∈ collectParamNames tys ↔ ∃ ty ∈ tys, OccursPlainly name ty := by
  obtain ⟨hnodup, hmem⟩ :=
    Adds.all (fun (ty : Ty) (_ : ty ∈ tys) => collectParamNamesRec_adds ty) [] List.nodup_nil
  exact ⟨hnodup, fun name => by rw [collectParamNames, hmem]; simp⟩

/-! ### Substitution -/

theorem isLeaf_of_mem_leaves {place : Place} {ty : Ty} {leaf : Place × Ty}
    (h : leaf ∈ leaves place ty) : isLeaf leaf.2 = true := by
  induction ty using byLeaves generalizing place with
  | leaf ty hleaf =>
    rw [leaves_of_isLeaf hleaf, List.mem_singleton] at h
    rw [h]
    exact hleaf
  | option inner ih => exact ih h
  | array elem ih => exact ih h
  | tuple elements ih | generic _ elements ih | union elements ih =>
    rw [leaves, leavesAll_eq] at h
    obtain ⟨ty, hty, hmem⟩ := List.mem_flatMap.mp h
    exact ih ty hty hmem
  | function params ret optional ihParams ihRet =>
    rw [leaves_function] at h
    rcases List.mem_append.mp h with hparams | hret
    · obtain ⟨ty, hty, hmem⟩ := List.mem_flatMap.mp hparams
      exact ihParams ty hty hmem
    · exact ihRet hret
  | object fields ih =>
    rw [leaves_object] at h
    obtain ⟨field, hfield, hmem⟩ := List.mem_flatMap.mp h
    exact ih field hfield hmem

theorem substituteAll_eq (subst : Subst) (tys : List Ty) :
    substituteAll subst tys = tys.map (substitute subst) := by
  induction tys with
  | nil => rfl
  | cons ty rest ih => rw [substituteAll, ih, List.map_cons]

/-- What a leaf becomes: one in an object record or in a native function stays as it is. -/
def substituted (subst : Subst) (leaf : Place × Ty) : List (Place × Ty) :=
  if leaf.1.inObject || leaf.1.inNative then [leaf] else leaves leaf.1 (substitute subst leaf.2)

theorem flatMap_substituted {subst : Subst} {place : Place} {ty : Ty}
    (h : (place.inObject || place.inNative) = true) :
    (leaves place ty).flatMap (substituted subst) = leaves place ty := by
  have hsame : ∀ leaf ∈ leaves place ty, substituted subst leaf = [leaf] := by
    intro leaf hleaf
    obtain ⟨q, -, hq⟩ := mem_leaves.mp hleaf
    refine if_pos ?_
    rw [hq]
    simp only [Place.or, Bool.or_eq_true] at h ⊢
    rcases h with h | h
    · exact Or.inl (Or.inl h)
    · exact Or.inr (Or.inl h)
  rw [List.flatMap_congr hsame]
  simp

theorem leaves_substitute (subst : Subst) {place : Place} (hobject : place.inObject = false)
    (hnative : place.inNative = false) (ty : Ty) :
    leaves place (substitute subst ty) = (leaves place ty).flatMap (substituted subst) := by
  induction ty using byLeaves generalizing place with
  | leaf ty h =>
    rw [leaves_of_isLeaf h, List.flatMap_singleton, substituted, hobject, hnative]
    rfl
  | option inner ih => exact ih hobject hnative
  | array elem ih => exact ih hobject hnative
  | tuple elements ih =>
    rw [substitute, leaves_tuple, leaves_tuple, substituteAll_eq,
      List.flatMap_map, List.flatMap_assoc]
    exact List.flatMap_congr fun ty hty => ih ty hty hobject hnative
  | function params ret optional ihParams ihRet =>
    rw [substitute, leaves_function, leaves_function, substituteAll_eq,
      List.flatMap_append, List.flatMap_map, List.flatMap_assoc, ihRet hobject hnative]
    congr 1
    exact List.flatMap_congr fun ty hty => ihParams ty hty hobject hnative
  | generic base args ih =>
    rw [substitute]
    cases hbase : isNativePromise base with
    | true =>
      have hcond : (base == "$PromiseAll" || base == "$PromiseRace") = true := hbase
      rw [if_pos hcond, leaves_generic, List.flatMap_assoc]
      refine List.flatMap_congr fun ty _ => (flatMap_substituted ?_).symm
      simp [hbase]
    | false =>
      have hcond : ¬ (base == "$PromiseAll" || base == "$PromiseRace") = true := by
        have hfalse : (base == "$PromiseAll" || base == "$PromiseRace") = false := hbase
        rw [hfalse]
        exact Bool.false_ne_true
      rw [if_neg hcond, leaves_generic, leaves_generic, substituteAll_eq,
        List.flatMap_map, List.flatMap_assoc]
      refine List.flatMap_congr fun ty hty => ih ty hty hobject ?_
      simp [hbase, hnative]
  | union members ih =>
    rw [substitute, leaves_union, leaves_union, substituteAll_eq,
      List.flatMap_map, List.flatMap_assoc]
    exact List.flatMap_congr fun ty hty => ih ty hty hobject hnative
  | object fields ih =>
    rw [substitute, leaves_object, List.flatMap_assoc]
    · exact List.flatMap_congr fun field _ => (flatMap_substituted rfl).symm
    all_goals simp

/-- A name that stands at a leaf is replaced by its type. -/
theorem substitute_replaceable {subst : Subst} {leaf value : Ty} {name : String}
    (hname : replaceable leaf = some name) (hvalue : subst.lookup name = some value) :
    substitute subst leaf = value := by
  cases leaf with
  | param _ | named _ =>
    cases hname
    rw [substitute, hvalue]
    rfl
  | _ => cases hname

/-- Any other leaf stays. -/
theorem substitute_other {subst : Subst} {leaf : Ty} (hleaf : isLeaf leaf = true)
    (hother : ∀ name, replaceable leaf = some name → subst.lookup name = Option.none) :
    substitute subst leaf = leaf := by
  cases leaf with
  | param name | named name =>
    rw [substitute, hother name rfl]
    rfl
  | option _ | array _ | tuple _ | function _ _ _ | generic _ _ | union _ | object _ => cases hleaf
  | _ => rfl

theorem not_mentions_substitute_iff (subst : Subst) (ty : Ty) :
    (∀ name, (subst.lookup name).isSome → ¬ Mentions name (substitute subst ty)) ↔
      ∀ place leaf name value, (place, leaf) ∈ leaves {} ty → place.inNative = false →
        replaceable leaf = some name → subst.lookup name = some value →
          place.inObject = false ∧
            ∀ other, (subst.lookup other).isSome → ¬ Mentions other value := by
  have hresult := @leaves_substitute subst {} rfl rfl ty
  constructor
  · intro hnone place leaf name value hmem hnative hname hvalue
    have hobject : place.inObject = false := by
      by_contra hobject
      rw [Bool.not_eq_false] at hobject
      refine hnone name (by rw [hvalue]; rfl) ⟨place, leaf, ?_, hnative, hname⟩
      rw [hresult, List.mem_flatMap]
      refine ⟨(place, leaf), hmem, ?_⟩
      simp [substituted, hobject]
    refine ⟨hobject, ?_⟩
    rintro other hother ⟨q, inner, hinner, hq, hotherName⟩
    refine hnone other hother ⟨place.or q, inner, ?_, by simp [Place.or, hnative, hq], hotherName⟩
    rw [hresult, List.mem_flatMap]
    refine ⟨(place, leaf), hmem, ?_⟩
    rw [substituted, hobject, hnative]
    show (place.or q, inner) ∈ leaves place (substitute subst leaf)
    rw [substitute_replaceable hname hvalue]
    exact mem_leaves.mpr ⟨q, hinner, rfl⟩
  · rintro hall name hsome ⟨place, leaf, hmem, hnative, hname⟩
    rw [hresult, List.mem_flatMap] at hmem
    obtain ⟨⟨old, oldLeaf⟩, hold, hmem⟩ := hmem
    obtain ⟨value, hvalue⟩ := Option.isSome_iff_exists.mp hsome
    rw [substituted] at hmem
    split at hmem
    next huntouched =>
      -- the leaf was left as it is, in an object record
      obtain ⟨rfl, rfl⟩ := Prod.mk.inj (List.mem_singleton.mp hmem)
      have hobject := (hall place leaf name value hold hnative hname hvalue).1
      simp [hobject, hnative] at huntouched
    next htouched =>
      have hleaf : isLeaf oldLeaf = true := isLeaf_of_mem_leaves hold
      simp only [Bool.or_eq_true, not_or, Bool.not_eq_true] at htouched
      cases hold' : (replaceable oldLeaf).bind fun name => subst.lookup name with
      | some new =>
        -- the leaf stands in the type that was put in
        obtain ⟨oldName, holdName, hnew⟩ := Option.bind_eq_some_iff.mp hold'
        have hmem : (place, leaf) ∈ leaves old (substitute subst oldLeaf) := hmem
        rw [substitute_replaceable holdName hnew] at hmem
        obtain ⟨q, hq, hplace⟩ := mem_leaves.mp hmem
        have hqNative : q.inNative = false := by
          have hplace : place = old.or q := hplace
          rw [hplace] at hnative
          simp only [Place.or, Bool.or_eq_false_iff] at hnative
          exact hnative.2
        exact (hall old oldLeaf oldName new hold htouched.2 holdName hnew).2 name hsome
          ⟨q, leaf, hq, hqNative, hname⟩
      | none =>
        -- nothing is put in for the leaf
        have hstays : substitute subst oldLeaf = oldLeaf := by
          refine substitute_other hleaf fun oldName holdName => ?_
          rw [holdName] at hold'
          exact hold'
        have hmem : (place, leaf) ∈ leaves old (substitute subst oldLeaf) := hmem
        rw [hstays, leaves_of_isLeaf hleaf, List.mem_singleton] at hmem
        obtain ⟨rfl, rfl⟩ := Prod.mk.inj hmem
        rw [hname, Option.bind_some, hvalue] at hold'
        cases hold'

/-! ### Inference -/

/-- The parameter occurs where inference looks; it looks into native functions too. -/
def Reached (name : String) (ty : Ty) : Prop :=
  ∃ place, (place, param name) ∈ leaves {} ty ∧ place.inObject = false ∧ place.inUnion = false

theorem reached_of_place {name : String} {place : Place} {ty : Ty}
    (hobject : place.inObject = false) (hunion : place.inUnion = false) :
    (∃ q, (q, param name) ∈ leaves place ty ∧ q.inObject = false ∧ q.inUnion = false) ↔
      Reached name ty := by
  constructor
  · rintro ⟨q, hmem, hq⟩
    obtain ⟨r, hr, hqr⟩ := mem_leaves.mp hmem
    have hqr : q = place.or r := hqr
    rw [hqr] at hq
    simp only [Place.or, hobject, hunion, Bool.false_or] at hq
    exact ⟨r, hr, hq⟩
  · rintro ⟨r, hr, hplace⟩
    refine ⟨place.or r, mem_leaves.mpr ⟨r, hr, rfl⟩, ?_⟩
    simpa only [Place.or, hobject, hunion, Bool.false_or] using hplace

theorem reached_all {name : String} {place : Place} {tys : List Ty}
    (hobject : place.inObject = false) (hunion : place.inUnion = false) :
    (∃ q, (q, param name) ∈ leavesAll place tys ∧ q.inObject = false ∧ q.inUnion = false) ↔
      ∃ ty ∈ tys, Reached name ty := by
  simp only [leavesAll_eq, List.mem_flatMap, ← reached_of_place hobject hunion]
  constructor
  · rintro ⟨q, ⟨ty, hty, hmem⟩, hq⟩
    exact ⟨ty, hty, q, hmem, hq⟩
  · rintro ⟨ty, hty, q, hmem, hq⟩
    exact ⟨q, ⟨ty, hty, hmem⟩, hq⟩

theorem reached_leaf {name : String} {ty : Ty} (h : isLeaf ty = true) :
    Reached name ty ↔ ty = param name := by
  rw [Reached, leaves_of_isLeaf h]
  constructor
  · rintro ⟨place, hmem, -⟩
    exact (Prod.mk.inj (List.mem_singleton.mp hmem)).2.symm
  · rintro rfl
    exact ⟨{}, List.mem_singleton.mpr rfl, rfl, rfl⟩

theorem reached_tuple {name : String} {elements : List Ty} :
    Reached name (tuple elements) ↔ ∃ ty ∈ elements, Reached name ty := by
  rw [Reached, leaves]
  exact reached_all rfl rfl

theorem reached_generic {name base : String} {args : List Ty} :
    Reached name (generic base args) ↔ ∃ ty ∈ args, Reached name ty := by
  rw [Reached, leaves]
  exact reached_all rfl rfl

theorem reached_function {name : String} {params : List Ty} {ret : Ty} {optional : Nat} :
    Reached name (function params ret optional) ↔
      (∃ ty ∈ params, Reached name ty) ∨ Reached name ret := by
  rw [← @reached_all _ {} _ rfl rfl, Reached, Reached, leaves]
  simp only [List.mem_append, or_and_right, exists_or]

theorem not_reached_union (name : String) (members : List Ty) :
    ¬ Reached name (union members) := by
  rintro ⟨q, hmem, -, hunion⟩
  rw [leaves_union] at hmem
  obtain ⟨ty, -, hmem⟩ := List.mem_flatMap.mp hmem
  obtain ⟨r, -, hq⟩ := mem_leaves.mp hmem
  have hq : q = Place.or { inUnion := true } r := hq
  rw [hq] at hunion
  cases hunion

theorem not_reached_object (name : String) (fields : List (String × Ty)) :
    ¬ Reached name (object fields) := by
  rintro ⟨q, hmem, hobject, -⟩
  rw [leaves_object] at hmem
  obtain ⟨field, -, hmem⟩ := List.mem_flatMap.mp hmem
  obtain ⟨r, -, hq⟩ := mem_leaves.mp hmem
  have hq : q = Place.or { inObject := true } r := hq
  rw [hq] at hobject
  cases hobject

/-- What a step of the inference binds. -/
def Binds (infer : Subst → Subst) (occurs : String → Prop) : Prop :=
  ∀ out name, ((infer out).lookup name).isSome ↔ (out.lookup name).isSome ∨ occurs name

theorem Binds.comp {f g : Subst → Subst} {p q : String → Prop} (hf : Binds f p)
    (hg : Binds g q) : Binds (fun out => g (f out)) fun name => p name ∨ q name := by
  intro out name
  rw [hg, hf, or_assoc]

theorem Binds.nothing {p : String → Prop} (h : ∀ name, ¬ p name) : Binds (fun out => out) p :=
  fun _ name => by simp [h name]

theorem Binds.once (name : String) (value : Ty) : Binds (bindOnce name value) (name = ·) := by
  intro out other
  rw [bindOnce]
  by_cases hbound : (out.lookup name).isSome
  · rw [if_pos hbound]
    constructor
    · exact Or.inl
    · rintro (h | rfl)
      · exact h
      · exact hbound
  · rw [if_neg hbound, List.lookup_append, Option.isSome_or, Bool.or_eq_true]
    refine or_congr_right ?_
    by_cases hname : other = name
    · simp [hname]
    · have hne : (other == name) = false := beq_false_of_ne hname
      simp [List.lookup_cons, hne, Ne.symm hname]

theorem MatchesAll.length {declared actual : List Ty} (h : MatchesAll declared actual) :
    declared.length = actual.length := by
  induction declared generalizing actual with
  | nil =>
    rw [MatchesAll] at h
    rw [h]
  | cons ty rest ih =>
    rw [MatchesAll] at h
    obtain ⟨head, tail, rfl, -, htail⟩ := h
    rw [List.length_cons, List.length_cons, ih htail]

theorem Binds.all {names : List String} {p : Ty → String → Prop} {declared actual : List Ty}
    (h : ∀ ty ∈ declared, ∀ a, MatchesShape ty a → Binds (inferTypeArgs names ty a) (p ty))
    (hmatch : MatchesAll declared actual) :
    Binds (inferTypeArgsAll names declared actual) fun name => ∃ ty ∈ declared, p ty name := by
  induction declared generalizing actual with
  | nil => exact Binds.nothing (by simp)
  | cons ty rest ih =>
    rw [MatchesAll] at hmatch
    obtain ⟨head, tail, rfl, hhead, htail⟩ := hmatch
    have hboth := (h ty List.mem_cons_self head hhead).comp
      (ih (fun other hother => h other (List.mem_cons_of_mem ty hother)) htail)
    intro out name
    rw [inferTypeArgsAll, hboth]
    simp

theorem inferTypeArgs_binds (names : List String) (declared : Ty) :
    ∀ actual, MatchesShape declared actual →
      Binds (inferTypeArgs names declared actual) fun name =>
        name ∈ names ∧ Reached name declared := by
  have hand : ∀ (declared : List Ty) (name : String),
      (∃ ty ∈ declared, name ∈ names ∧ Reached name ty) ↔
        name ∈ names ∧ ∃ ty ∈ declared, Reached name ty := by
    intro declared name
    constructor
    · rintro ⟨ty, hty, hname, hreached⟩
      exact ⟨hname, ty, hty, hreached⟩
    · rintro ⟨hname, ty, hty, hreached⟩
      exact ⟨ty, hty, hname, hreached⟩
  induction declared using byLeaves with
  | leaf declared h =>
    intro actual hmatch
    simp only [reached_leaf h]
    cases declared with
    | param name =>
      by_cases hname : name ∈ names
      · intro out other
        rw [inferTypeArgs, if_pos (List.contains_iff_mem.mpr hname), Binds.once]
        refine or_congr_right ?_
        simp only [param.injEq]
        constructor
        · rintro rfl
          exact ⟨hname, rfl⟩
        · exact And.right
      · intro out other
        rw [inferTypeArgs, if_neg (fun hc => hname (List.contains_iff_mem.mp hc))]
        simp only [param.injEq]
        constructor
        · exact Or.inl
        · rintro (hbound | ⟨hother, rfl⟩)
          · exact hbound
          · exact absurd hother hname
    | _ => first | exact absurd h Bool.false_ne_true | exact Binds.nothing (by simp)
  | option inner ih =>
    intro actual hmatch
    obtain ⟨actual, rfl, hmatch⟩ := hmatch
    exact ih actual hmatch
  | array elem ih =>
    intro actual hmatch
    obtain ⟨actual, rfl, hmatch⟩ := hmatch
    exact ih actual hmatch
  | tuple elements ih =>
    intro actual hmatch out name
    obtain ⟨actual, rfl, hmatch⟩ := hmatch
    have hlength : (elements.length == actual.length) = true := beq_iff_eq.mpr hmatch.length
    simp only [inferTypeArgs, hlength, if_true, reached_tuple, ← hand]
    exact Binds.all ih hmatch out name
  | function params ret optional ihParams ihRet =>
    intro actual hmatch out name
    obtain ⟨actualParams, actualRet, _, rfl, hparams, hret⟩ := hmatch
    have hlength : (params.length == actualParams.length) = true := beq_iff_eq.mpr hparams.length
    simp only [inferTypeArgs, hlength, if_true, reached_function, and_or_left, ← hand]
    exact (Binds.all ihParams hparams).comp (ihRet actualRet hret) out name
  | generic base args ih =>
    intro actual hmatch out name
    obtain ⟨actual, rfl, hmatch⟩ := hmatch
    have hlength : (args.length == actual.length) = true := beq_iff_eq.mpr hmatch.length
    simp only [inferTypeArgs, hlength, beq_self_eq_true, Bool.and_self, if_true, reached_generic,
      ← hand]
    exact Binds.all ih hmatch out name
  | union members _ =>
    intro actual _
    exact Binds.nothing fun name h => not_reached_union name members h.2
  | object fields _ =>
    intro actual _
    exact Binds.nothing fun name h => not_reached_object name fields h.2

/-! ### The whole type -/

/-- What the functions on type parameters reach.  A substitution leaves a replaced parameter
only in an object record, or in a type that it put in.  A parameter is seen, listed and bound
if it occurs outside of object records and unions. -/
theorem param_helpers_reach (subst : Subst) (ty declared actual : Ty) (tys : List Ty)
    (names : List String) (out : Subst) (hmatch : MatchesShape declared actual) :
    ((∀ name, (subst.lookup name).isSome → ¬ Mentions name (substitute subst ty)) ↔
      ∀ place leaf name value, (place, leaf) ∈ leaves {} ty → place.inNative = false →
        replaceable leaf = some name → subst.lookup name = some value →
          place.inObject = false ∧
            ∀ other, (subst.lookup other).isSome → ¬ Mentions other value) ∧
    ((containsParam ty = true ↔ ∃ name, Occurs name ty) ↔
      ((∃ name, Occurs name ty) → ∃ name, OccursPlainly name ty)) ∧
    ((collectParamNames tys).Nodup ∧
      ((∀ name, name ∈ collectParamNames tys ↔ ∃ ty ∈ tys, Occurs name ty) ↔
        ∀ name, (∃ ty ∈ tys, Occurs name ty) → ∃ ty ∈ tys, OccursPlainly name ty)) ∧
    ((∀ name ∈ names, Occurs name declared →
        ((inferTypeArgs names declared actual out).lookup name).isSome) ↔
      ∀ name ∈ names, Occurs name declared →
        (out.lookup name).isSome ∨ Reached name declared) := by
  have hoccurs : ∀ {name : String} {ty : Ty}, OccursPlainly name ty → Occurs name ty :=
    fun h => ⟨{}, h, rfl⟩
  refine ⟨not_mentions_substitute_iff subst ty, ?_, ?_, ?_⟩
  · rw [containsParam_iff]
    exact ⟨Iff.mpr, fun h => ⟨fun ⟨name, hname⟩ => ⟨name, hoccurs hname⟩, h⟩⟩
  · obtain ⟨hnodup, hmem⟩ := @mem_collectParamNames tys
    refine ⟨hnodup, ?_⟩
    simp only [hmem]
    exact ⟨fun h name => (h name).mpr, fun h name =>
      ⟨fun ⟨ty, hty, hname⟩ => ⟨ty, hty, hoccurs hname⟩, h name⟩⟩
  · have hbinds := inferTypeArgs_binds names declared actual hmatch out
    simp only [hbinds]
    constructor
    · intro h name hname hoccurs
      rcases h name hname hoccurs with hbound | ⟨-, hreached⟩
      · exact Or.inl hbound
      · exact Or.inr hreached
    · intro h name hname hoccurs
      rcases h name hname hoccurs with hbound | hreached
      · exact Or.inl hbound
      · exact Or.inr ⟨hname, hreached⟩

/-- An array of a parameter binds it. -/
theorem param_helpers_reach_array :
    ((inferTypeArgs ["T"] (array (param "T")) (array (named "number")) []).lookup "T").isSome := by
  have hshape : MatchesShape (array (param "T")) (array (named "number")) :=
    ⟨named "number", rfl, trivial⟩
  have hreached : Reached "T" (array (param "T")) := ⟨{}, List.mem_singleton.mpr rfl, rfl, rfl⟩
  refine (param_helpers_reach [] (param "T") _ _ [] ["T"] [] hshape).2.2.2.mpr ?_ "T" List.mem_cons_self
    ⟨{}, List.mem_singleton.mpr rfl, rfl⟩
  intro name hname _
  rw [List.mem_singleton.mp hname]
  exact Or.inr hreached

/-- A parameter in an object record is neither replaced, nor seen, nor listed, nor bound; the
last three also miss one in a union. -/
theorem param_in_record :
    Mentions "T" (substitute [("T", named "number")] (object [("x", param "T")])) ∧
      Occurs "T" (object [("x", param "T")]) ∧ containsParam (object [("x", param "T")]) = false ∧
      collectParamNames [object [("x", param "T")]] = [] ∧
      inferTypeArgs ["T"] (object [("x", param "T")]) (object [("x", named "number")]) [] = [] ∧
      Occurs "T" (union [param "T", none]) ∧ containsParam (union [param "T", none]) = false := by
  refine ⟨⟨{ inObject := true }, param "T", ?_, rfl, rfl⟩, ⟨{ inObject := true }, ?_, rfl⟩, rfl,
    rfl, rfl, ⟨{ inUnion := true }, ?_, rfl⟩, rfl⟩
  · exact List.mem_singleton.mpr rfl
  · exact List.mem_singleton.mpr rfl
  · exact List.mem_cons_self

end Ty

end Deka.Typeck
