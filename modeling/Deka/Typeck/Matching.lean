/-
Deka/Typeck/Matching.lean

Values, their types, and what a pattern does with a value at run time (`Lower::pattern`
and the `Match` operations of the virtual machine).
-/
import Deka.Typeck.Patterns

namespace Deka.Typeck

open Tables

/-- A value, with numbers `F`. -/
inductive Value (F : Type)
  | string (text : String)
  | number (number : F)
  | boolean (value : Bool)
  | bytes (bytes : List UInt8)
  | unit
  | errorObject (className : String)
  | list (items : List (Value F))
  | struct (name : String) (fields : List (String × Value F))
  | enum (name case : String) (payload : Option (Value F))
  /-- a value no pattern looks into -/
  | other (id : Nat)

section

variable {E F : Type} (env : Tables E)

/-! ### The values of a type -/

/-- A type whose values a pattern may look into. -/
def Tables.isTested (ty : Ty) : Bool :=
  match ty with
  | .union _ | .struct _ | .option _ => true
  | .named name =>
    isUnionPrimitiveName name || errorClasses.contains name || (env.enums.lookup name).isSome
  | .generic base _ => (env.enumShape ty).isSome || (env.structs.lookup base).isSome
  | _ => false

/-- The fields a struct has, with their types. -/
def Tables.structFields (ty : Ty) : Option (String × (String → Option Ty)) :=
  match ty with
  | .struct name => some (name, env.fieldType name none)
  | .generic base args =>
    if (env.enumShape ty).isNone && (env.structs.lookup base).isSome then
      some (base, env.fieldType base (some args))
    else none
  | _ => none

/-- A value has a type.  Of a type that no pattern looks into any value is one. -/
inductive HasType : Value F → Ty → Prop
  | string (text : String) : HasType (.string text) (.named "string")
  | number (number : F) : HasType (.number number) (.named "number")
  | boolean (value : Bool) : HasType (.boolean value) (.named "boolean")
  | bytes (bytes : List UInt8) : HasType (.bytes bytes) (.named "bytes")
  | void : HasType .unit (.named "void")
  | errorObject {name : String} : name ∈ errorClasses → HasType (.errorObject name) (.named name)
  | anyError {name : String} : name ∈ errorClasses → HasType (.errorObject name) (.named "Error")
  | struct {ty : Ty} {name : String} {types : String → Option Ty}
      {fields : List (String × Value F)} : env.structFields ty = some (name, types) →
      (∀ field t, types field = some t → (fields.lookup field).isSome) →
      (∀ field t v, types field = some t → fields.lookup field = some v → HasType v t) →
      HasType (.struct name fields) ty
  | case {ty : Ty} {name case : String} {shape : List (String × Option Ty)} :
      env.enumShape ty = some (name, shape) → shape.lookup case = some none →
      HasType (.enum name case none) ty
  | payload {ty t : Ty} {name case : String} {shape : List (String × Option Ty)} {v : Value F} :
      env.enumShape ty = some (name, shape) → shape.lookup case = some (some t) →
      HasType v t → HasType (.enum name case (some v)) ty
  | member {members : List Ty} {m : Ty} {v : Value F} :
      m ∈ members → HasType v m → HasType v (.union members)
  | other {ty : Ty} {v : Value F} : env.isTested ty = false → HasType v ty

/-! ### The tests -/

/-- `MatchType` and `MatchStruct` -/
def memberTest (test : UnionMemberTest) (v : Value F) : Bool :=
  match test, v with
  | .primitive "string", .string _ => true
  | .primitive "number", .number _ => true
  | .primitive "boolean", .boolean _ => true
  | .primitive "void", .unit => true
  | .bytes, .bytes _ => true
  | .errorClass name, .errorObject actual => actual == name || name == "Error"
  | .enum name, .enum actual _ _ => actual == name
  | .struct name, .struct actual _ => actual == name
  | _, _ => false

/-- `MatchEnum`, with the payload of the case. -/
def enumTest (name : Option String) (case : String) (v : Value F) : Option (Option (Value F)) :=
  match v with
  | .enum actual label payload =>
    if (name.isNone || name == some actual) && label == case then some payload else none
  | _ => none

variable (literalMatches : E → Value F → Bool)

mutual

/-- Whether a marked pattern matches a value. -/
def matchesValue : Pattern E → Value F → Bool
  | .wildcard, _ => true
  | .identifier name isCase, v => !isCase || (enumTest none name v).isSome
  | .literal expr, v => literalMatches expr v
  | .constructor name none test, v =>
    match test with
    | none => (enumTest none name v).isSome
    | some (.enumCase enumName) => (enumTest (some enumName) name v).isSome
    | some test => memberTest test v
  | .constructor name (some payload) test, v =>
    match test with
    | none =>
      match enumTest none name v with
      | some (some w) => matchesValue payload w
      | _ => false
    | some (.enumCase enumName) =>
      match enumTest (some enumName) name v with
      | some (some w) => matchesValue payload w
      | _ => false
    | some test => memberTest test v && matchesValue payload v
  | .struct name fields, v =>
    match v with
    | .struct actual values => actual == env.names.nominalName name && matchesFields fields values
    | _ => false
  | .tuple elements, v =>
    match v with
    | .list items => items.length == elements.length && matchesElements elements items
    | _ => false
  | .or alternatives, v => matchesAny alternatives v

def matchesFields : List (String × Pattern E) → List (String × Value F) → Bool
  | [], _ => true
  | (field, p) :: rest, values =>
    match values.lookup field with
    | some v => matchesValue p v && matchesFields rest values
    | none => false

def matchesElements : List (Pattern E) → List (Value F) → Bool
  | p :: rest, v :: items => matchesValue p v && matchesElements rest items
  | _, _ => true

def matchesAny : List (Pattern E) → Value F → Bool
  | [], _ => false
  | p :: rest, v => matchesValue p v || matchesAny rest v

end

end

end Deka.Typeck
