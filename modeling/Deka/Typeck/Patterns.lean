/-
Deka/Typeck/Patterns.lean

Match patterns and their check against the type of the scrutinee (`expr.rs`).

The checker keeps what it finds out about a pattern in two maps from the address of the
pattern: the identifiers that are cases of an enum, and the tests of the union members.
Here they are marks of the pattern, and a check returns the marked pattern.
-/
import Deka.Typeck.Types

namespace Deka.Typeck

open Deka.Lib

/-- How a value of a union is told to be one of a member. -/
inductive UnionMemberTest
  | primitive (name : String)
  | bytes
  | errorClass (name : String)
  | enum (name : String)
  | enumCase (name : String)
  | struct (name : String)
deriving DecidableEq

/-- A pattern, with literal expressions `E`. -/
inductive Pattern (E : Type)
  | wildcard
  /-- `isCase`: the name was found to be a case of an enum -/
  | identifier (name : String) (isCase : Bool)
  | literal (expr : E)
  | constructor (name : String) (payload : Option (Pattern E)) (test : Option UnionMemberTest)
  | struct (name : String) (fields : List (String × Pattern E))
  | tuple (elements : List (Pattern E))
  | or (alternatives : List (Pattern E))

/-- Induction on a pattern and the patterns in it. -/
@[elab_as_elim]
theorem Pattern.induction {E : Type} {motive : Pattern E → Prop}
    (wildcard : motive .wildcard)
    (identifier : ∀ name isCase, motive (.identifier name isCase))
    (literal : ∀ expr, motive (.literal expr))
    (constructor : ∀ name payload test, (∀ p, payload = some p → motive p) →
      motive (.constructor name payload test))
    (struct : ∀ name fields, (∀ e ∈ fields, motive e.2) → motive (.struct name fields))
    (tuple : ∀ elements, (∀ p ∈ elements, motive p) → motive (.tuple elements))
    (or : ∀ alternatives, (∀ p ∈ alternatives, motive p) → motive (.or alternatives))
    (p : Pattern E) : motive p := by
  refine @Pattern.rec E motive
    (fun payload => ∀ p, payload = some p → motive p)
    (fun fields => ∀ e ∈ fields, motive e.2)
    (fun patterns => ∀ p ∈ patterns, motive p)
    (fun e => motive e.2)
    wildcard identifier literal (fun name payload test ih => constructor name payload test ih)
    (fun name fields ih => struct name fields ih) (fun elements ih => tuple elements ih)
    (fun alternatives ih => or alternatives ih) ?_ ?_ ?_ ?_ ?_ ?_ ?_ p
  · simp
  · rintro p ih _ ⟨⟩
    exact ih
  · simp
  · intro e rest ihe ihrest
    exact List.forall_mem_cons.mpr ⟨ihe, ihrest⟩
  · simp
  · intro p rest ihp ihrest
    exact List.forall_mem_cons.mpr ⟨ihp, ihrest⟩
  · intro field p ih
    exact ih

/-- The payload types are resolved, with the type parameters in scope. -/
structure EnumInfo where
  typeParams : List String := []
  cases : List (String × Option Ty)

/-- The fields, and after them those of the embedded structs. -/
structure StructInfo where
  typeParams : List String := []
  fields : List (String × Ty)

/-- The names under which a declaration was imported more than once. -/
structure NominalNames where
  nominalAliases : List (String × String) := []
  /-- the names that stand for an enum of the host -/
  nativeAliases : List (String × String) := []

def NominalNames.nominalName (names : NominalNames) (name : String) : String :=
  (names.nominalAliases.lookup name).getD name

/-- The name in `canonical_nominal_type` of an enum -/
def NominalNames.canonicalEnum (names : NominalNames) (name : String) : String :=
  (names.nativeAliases.lookup (names.nominalName name)).getD (names.nominalName name)

/-- What the check of a pattern reads of the checker. -/
structure Tables (E : Type) where
  enums : List (String × EnumInfo)
  structs : List (String × StructInfo)
  caseToEnum : List (String × String)
  names : NominalNames := {}
  /-- the bounds of the type parameters in scope -/
  bounds : List (String × Ty) := []
  /-- `check_expr` of a literal -/
  literalType : E → Ty
  isAssignable : Ty → Ty → Bool
  /-- the names of one enum have its declaration -/
  aliased : ∀ name info, enums.lookup name = some info →
    enums.lookup (names.canonicalEnum name) = some info
  /-- a case belongs to an enum that is declared -/
  declared : ∀ case name, caseToEnum.lookup case = some name → (enums.lookup name).isSome

namespace Tables

variable {E : Type} (env : Tables E)

def boundedParamType (ty : Ty) : Ty :=
  match ty with
  | .param name => (env.bounds.lookup name).getD ty
  | ty => ty

/-- The cases of an enum, of `Option`, `Result` and `Exception`, with their payloads. -/
def enumShape (ty : Ty) : Option (String × List (String × Option Ty)) :=
  match ty with
  | .option inner => some ("Option", [("Some", some inner), ("None", none)])
  | .named name => (env.enums.lookup name).map fun info => (name, info.cases)
  | .generic base args =>
    match base, args with
    | "Result", [ok, err] => some ("Result", [("Ok", some ok), ("Err", some err)])
    | "Exception", [ok, err] => some ("Exception", [("Ok", some ok), ("Throw", some err)])
    | base, args =>
      (env.enums.lookup base).map fun info =>
        (base, info.cases.map fun (case, payload) =>
          (case, payload.map (Ty.substitute (info.typeParams.zip args))))
  | _ => none

/-- `resolve_field_type` and `resolve_field_type_substituted` -/
def fieldType (name : String) (args : Option (List Ty)) (field : String) : Option Ty := do
  let info ← env.structs.lookup name
  let ty ← info.fields.lookup field
  match args with
  | none => return ty
  | some args => return ty.substitute (info.typeParams.zip args)

def isUnionPrimitiveName (name : String) : Bool :=
  ["string", "number", "boolean", "bytes", "void"].contains name

/-- The name a union member is matched by. -/
def unionMemberName : Ty → Option String
  | .named name | .struct name | .interface name _ => some name
  | _ => none

def errorClasses : List String := ["SyntaxError", "TypeError", "RangeError", "Error"]

def unionMemberTest (member : Ty) : Option UnionMemberTest :=
  match member with
  | .named name =>
    if errorClasses.contains name then some (.errorClass name)
    else if name == "bytes" then some .bytes
    else if isUnionPrimitiveName name then some (.primitive name)
    else if (env.enums.lookup name).isSome then some (.enum name)
    else none
  | .struct name => some (.struct name)
  | _ => none

/-- The membership rule of `check_union_members`. -/
def isUnionMember (member : Ty) : Bool :=
  match member with
  | .named name =>
    isUnionPrimitiveName name || errorClasses.contains name || (env.enums.lookup name).isSome
  | .struct _ | .interface _ _ => true
  | _ => false

/-! ### Cases -/

/-- What a constructor pattern stands for. -/
inductive CaseLookup
  | rejected (message : String)
  /-- the payload is not looked at -/
  | unchecked
  | found (payload : Option Ty)

def notACase (name : String) (ty : Ty) : CaseLookup :=
  if ty.isError then .unchecked else .rejected s!"`{name}` is not a case of type `{ty.toText}`"

/-- The enum that a case name belongs to. -/
def enumOfCase (name : String) (ty : Ty) : Option String :=
  match ty with
  | .named owner =>
    match env.enums.lookup owner with
    | some info =>
      if Ty.publicName owner != owner && (info.cases.lookup name).isSome then some owner
      else env.caseToEnum.lookup name
    | none => env.caseToEnum.lookup name
  | _ => env.caseToEnum.lookup name

/-- `check_constructor_pattern`, up to the payload. -/
def caseLookup (name : String) (ty : Ty) : CaseLookup :=
  if name == "Some" || name == "None" then
    match ty with
    | .option inner => .found (if name == "None" then none else some inner)
    | ty => notACase name ty
  else if name == "Ok" || name == "Err" || name == "Throw" then
    match ty with
    | .generic base [ok, err] =>
      if (base == "Result" || base == "Exception") &&
          (name == "Ok" || (name == "Throw") == (base == "Exception")) then
        .found (some (if name == "Ok" then ok else err))
      else notACase name ty
    | ty => notACase name ty
  else
    match env.enumOfCase name ty with
    | none => .rejected s!"unknown constructor `{name}`"
    | some enumName =>
      match env.enums.lookup enumName with
      | none => .unchecked
      | some info =>
        let typeArgs :=
          match ty with
          | .named scrutinee => if scrutinee == env.names.canonicalEnum enumName then some [] else none
          | .generic base args => if base == enumName then some args else none
          | ty => if ty.isError then some [] else none
        match typeArgs with
        | none => notACase name ty
        | some args =>
          match info.cases.lookup name with
          | none => .rejected s!"case `{name}` not found in enum `{enumName}`"
          | some payload =>
            .found (payload.map fun base =>
              if info.typeParams.isEmpty || args.isEmpty then base
              else base.substitute (info.typeParams.zip args))

/-- The enum whose case a pattern over a union tests, and the member it is. -/
def unionEnumCase (name : String) (members : List Ty) : Option (String × Ty) := do
  let enumName ← env.caseToEnum.lookup name
  let member ← members.find? fun member => unionMemberName member == some enumName
  return (enumName, member)

/-- What a constructor pattern tests, and what its payload is matched against. -/
structure Target where
  test : Option UnionMemberTest
  payload : CaseLookup

/-- `check_union_enum_case_pattern`, `check_union_type_pattern` and
`check_constructor_pattern`, up to the payload.  The payload of a type pattern is the
member itself. -/
def target (name : String) (test : Option UnionMemberTest) (ty : Ty) : Target :=
  match ty with
  | .union members =>
    match env.unionEnumCase name members with
    | some (enumName, member) =>
      { test := some (.enumCase enumName), payload := env.caseLookup name member }
    | none =>
      match members.find? fun member => unionMemberName member == some name with
      | none =>
        { test, payload := .rejected s!"`{name}` is not a member of union `{ty.toText}`" }
      | some (.interface _ _) =>
        { test, payload := .rejected s!"cannot match type pattern `{name}`: interface `{name}` has no runtime predicate; match on a struct or primitive member instead" }
      | some member =>
        { test := (env.unionMemberTest member).or test, payload := .found (some member) }
  | .var =>
    if isUnionPrimitiveName name then
      { test, payload := .rejected s!"cannot match type pattern `{name}` on an unconstrained type; annotate the scrutinee with a union type, e.g. `v: string | number`" }
    else { test, payload := env.caseLookup name ty }
  | .infer =>
    if isUnionPrimitiveName name then { test, payload := .unchecked }
    else { test, payload := env.caseLookup name ty }
  | ty => { test, payload := env.caseLookup name ty }

/-- The error for a constructor pattern with a payload too many or too few. -/
def payloadError (name : String) (ty : Ty) (expected : Option Ty) (given : Bool) : List String :=
  match expected, given with
  | some _, false =>
    match ty, env.unionEnumCase name (match ty with | .union members => members | _ => []) with
    | .union _, none => [s!"type pattern `{name}` requires a binding, e.g. `{name}(value)`"]
    | _, _ => [s!"`{name}` pattern requires a payload"]
  | none, true => [s!"`{name}` pattern cannot have a payload"]
  | _, _ => []

end Tables

/-! ### The check -/

namespace Pattern

open Tables

variable {E : Type}

mutual

/-- `pattern_binding_name`: the first name a pattern binds. -/
def bindingName : Pattern E → Option String
  | identifier name isCase => if isCase then none else some name
  | constructor _ (some payload) _ => bindingName payload
  | struct _ fields => fieldsBindingName fields
  | tuple elements => anyBindingName elements
  | or alternatives => anyBindingName alternatives
  | wildcard | literal _ | constructor _ none _ => none

def anyBindingName : List (Pattern E) → Option String
  | [] => none
  | p :: rest => (bindingName p).or (anyBindingName rest)

def fieldsBindingName : List (String × Pattern E) → Option String
  | [] => none
  | (_, p) :: rest => (bindingName p).or (fieldsBindingName rest)

end

mutual

/-- No constructor of the pattern was looked at before. -/
def isFresh : Pattern E → Bool
  | constructor _ (some payload) test => test.isNone && isFresh payload
  | constructor _ none test => test.isNone
  | struct _ fields => fieldsFresh fields
  | tuple elements => allFresh elements
  | or alternatives => allFresh alternatives
  | wildcard | identifier _ _ | literal _ => true

def allFresh : List (Pattern E) → Bool
  | [] => true
  | p :: rest => isFresh p && allFresh rest

def fieldsFresh : List (String × Pattern E) → Bool
  | [] => true
  | (_, p) :: rest => isFresh p && fieldsFresh rest

end

variable (env : Tables E)

/-- An identifier is a case of the scrutinee's enum, or it binds. -/
def checkIdentifier (name : String) (isCase : Bool) (ty : Ty) : Pattern E × List String :=
  match (env.enumShape ty).bind fun (_, cases) => cases.lookup name with
  | some payload =>
    (identifier name true,
      if payload.isSome then [s!"`{name}` carries a payload; write `{name}(value)`"] else [])
  | none =>
    match ty with
    | .union members =>
      (identifier name isCase,
        if members.any fun member => unionMemberName member == some name then
          [s!"type pattern `{name}` requires a binding, e.g. `{name}(value)`"]
        else [])
    | _ => (identifier name isCase, [])

/-- An alternative of an or-pattern, with its case looked up. -/
def resolveAlternative (p : Pattern E) (ty : Ty) : Pattern E × List String :=
  match p with
  | identifier name isCase => checkIdentifier env name isCase ty
  | p => (p, [])

/-- What a struct pattern matches: the type arguments of the struct. -/
def structTarget (name : String) (ty : Ty) : Except String (Option (List Ty)) :=
  let mismatch := s!"struct pattern `{name}` does not match scrutinee type `{ty.toText}`"
  match ty with
  | .struct actual => if actual == name then .ok none else .error mismatch
  | .generic base args =>
    if base == name && (env.structs.lookup base).isSome then .ok (some args)
    else .error mismatch
  | .infer | .var | .error => .ok none
  | _ => .error mismatch

/-- The types of the elements of a tuple pattern. -/
def elementTypes (count : Nat) (ty : Ty) : Except String (List Ty × List String) :=
  match ty with
  | .tuple types =>
    .ok (types,
      if count = types.length then []
      else [s!"tuple has {types.length} positions; pattern has {count} (arity must match exactly)"])
  | .array elem => .ok (List.replicate count elem, [])
  | .infer | .var | .error => .ok (List.replicate count ty, [])
  | ty => .error s!"tuple pattern requires an array scrutinee, found type `{ty.toText}`"

/-- A value of an opaque type can only be bound. -/
def opaqueError : Ty → Option String
  | .opaqueType name _ => some s!"cannot destructure opaque type `{name}`"
  | _ => none

mutual

/-- `check_pattern`: the marked pattern and the errors. -/
def check : Pattern E → Ty → Pattern E × List String
  | wildcard, _ => (wildcard, [])
  | identifier name isCase, ty => checkIdentifier env name isCase ty
  | literal expr, ty =>
    match opaqueError ty with
    | some message => (literal expr, [message])
    | none =>
      (literal expr,
        if env.isAssignable ty (env.literalType expr) then []
        else [s!"literal pattern has type `{(env.literalType expr).toText}`, expected type `{ty.toText}`"])
  | constructor name none test, ty =>
    match opaqueError ty with
    | some message => (constructor name none test, [message])
    | none =>
      let target := env.target name test ty
      match target.payload with
      | .rejected message => (constructor name none target.test, [message])
      | .unchecked => (constructor name none target.test, [])
      | .found expected => (constructor name none target.test, env.payloadError name ty expected false)
  | constructor name (some payload) test, ty =>
    match opaqueError ty with
    | some message => (constructor name (some payload) test, [message])
    | none =>
      let target := env.target name test ty
      match target.payload with
      | .rejected message => (constructor name (some payload) target.test, [message])
      | .unchecked => (constructor name (some payload) target.test, [])
      | .found none =>
        (constructor name (some payload) target.test, env.payloadError name ty none true)
      | .found (some expected) =>
        let (payload, errors) := check payload expected
        (constructor name (some payload) target.test, errors)
  | struct name fields, ty =>
    match opaqueError ty with
    | some message => (struct name fields, [message])
    | none =>
      let nominal := env.names.nominalName name
      match structTarget env nominal ty with
      | .error message => (struct name fields, [message])
      | .ok args =>
        if (env.structs.lookup nominal).isNone then
          (struct name fields, [s!"unknown struct `{nominal}`"])
        else
          let (fields, errors) := checkFields nominal args [] fields
          (struct name fields, errors)
  | tuple elements, ty =>
    match opaqueError ty with
    | some message => (tuple elements, [message])
    | none =>
      match elementTypes elements.length ty with
      | .error message => (tuple elements, [message])
      | .ok (types, arity) =>
        let (elements, errors) := checkElements elements types
        (tuple elements, arity ++ errors)
  | or alternatives, ty =>
    match opaqueError ty with
    | some message => (or alternatives, [message])
    | none =>
      let (alternatives, resolving, errors) := checkAlternatives alternatives ty
      (or alternatives, resolving ++ errors)

def checkFields (nominal : String) (args : Option (List Ty)) (seen : List String) :
    List (String × Pattern E) → List (String × Pattern E) × List String
  | [] => ([], [])
  | (field, p) :: rest =>
    if seen.contains field then
      let (fields, errors) := checkFields nominal args seen rest
      ((field, p) :: fields,
        s!"duplicate field `{field}` in struct pattern `{nominal}`" :: errors)
    else
      let (fields, errors) := checkFields nominal args (field :: seen) rest
      match env.fieldType nominal args field with
      | some ty =>
        let (p, inner) := check p ty
        ((field, p) :: fields, inner ++ errors)
      | none =>
        ((field, p) :: fields, s!"struct `{nominal}` has no field `{field}`" :: errors)

def checkElements : List (Pattern E) → List Ty → List (Pattern E) × List String
  | p :: rest, ty :: types =>
    let (p, inner) := check p ty
    let (elements, errors) := checkElements rest types
    (p :: elements, inner ++ errors)
  | elements, _ => (elements, [])

/-- The cases are looked up in all alternatives before the alternatives are checked. -/
def checkAlternatives : List (Pattern E) → Ty → List (Pattern E) × List String × List String
  | [], _ => ([], [], [])
  | p :: rest, ty =>
    let (alternatives, resolving, errors) := checkAlternatives rest ty
    let (resolved, first) := resolveAlternative env p ty
    match bindingName resolved with
    | some name =>
      (resolved :: alternatives, first ++ resolving,
        s!"an alternative in `A | B` cannot bind (`{name}` here); every alternative would have to bind the same names" :: errors)
    | none =>
      let (p, second) := check p ty
      (p :: alternatives, first ++ resolving, second ++ errors)

end

end Pattern

end Deka.Typeck
