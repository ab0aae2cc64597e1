/-
Deka/Typeck/Types.lean

The types of the type checker (`types.rs`).
-/
import Deka.Lib.Text
import Mathlib.Data.List.Sort

namespace Deka.Typeck

open Deka.Lib

inductive NewtypeRepr
  | number
  | string
  | bool
deriving DecidableEq, Repr

/-- `Type`.  `infer` is a type that could not be worked out, `var` one that was never
named, `none` the type of the literal `none`. -/
inductive Ty
  | error
  | infer
  | var
  | never
  | none
  | named (name : String)
  | opaqueType (name : String) (identity : Nat)
  | option (inner : Ty)
  | function (params : List Ty) (ret : Ty) (optional : Nat)
  | generic (base : String) (args : List Ty)
  | struct (name : String)
  | array (elem : Ty)
  | tuple (elements : List Ty)
  | object (fields : List (String × Ty))
  | interface (name : String) (identity : Nat)
  | newtype (name : String) (repr : NewtypeRepr)
  | param (name : String)
  | union (members : List Ty)
deriving Repr, Inhabited

namespace Ty

def isError : Ty → Bool
  | error => true
  | _ => false

/-! ### Type parameters -/

/-- The types that type parameters stand for. -/
abbrev Subst := List (String × Ty)

mutual

/-- `substitute_type` -/
def substitute (subst : Subst) : Ty → Ty
  | param name => (subst.lookup name).getD (param name)
  | named name => (subst.lookup name).getD (named name)
  | option inner => option (substitute subst inner)
  | tuple elements => tuple (substituteAll subst elements)
  | array elem => array (substitute subst elem)
  | function params ret optional =>
    function (substituteAll subst params) (substitute subst ret) optional
  | generic base args =>
    -- the parameter of a native function is its own
    if base == "$PromiseAll" || base == "$PromiseRace" then generic base args
    else generic base (substituteAll subst args)
  | union members => union (substituteAll subst members)
  | other => other

def substituteAll (subst : Subst) : List Ty → List Ty
  | [] => []
  | ty :: rest => substitute subst ty :: substituteAll subst rest

end

mutual

theorem substitute_nil : ∀ ty : Ty, substitute [] ty = ty
  | param _ | named _ | error | infer | var | never | none | opaqueType _ _ | struct _ |
    object _ | interface _ _ | newtype _ _ => rfl
  | option inner => by rw [substitute, substitute_nil inner]
  | tuple elements => by rw [substitute, substituteAll_nil elements]
  | array elem => by rw [substitute, substitute_nil elem]
  | function params ret optional => by
    rw [substitute, substituteAll_nil params, substitute_nil ret]
  | generic base args => by
    rw [substitute, substituteAll_nil args]
    split <;> rfl
  | union members => by rw [substitute, substituteAll_nil members]

theorem substituteAll_nil : ∀ tys : List Ty, substituteAll [] tys = tys
  | [] => rfl
  | ty :: rest => by rw [substituteAll, substitute_nil ty, substituteAll_nil rest]

end

/-! ### Texts -/

/-- `public_name` -/
def publicName (name : String) : String := (Text.stripPrefix "__DekaHost_" name).getD name

def nominalText (name : String) : String :=
  if publicName name == name then name else s!"native {publicName name}"

mutual

/-- `Display` -/
def toText : Ty → String
  | error => "<error>"
  | infer => "<infer>"
  | var => "_"
  | never => "never"
  | none => "none"
  | named "import.meta" =>
    "\x7b url: string, dirname: string, filename: string, main: boolean, resolve: fn(string) string \x7d"
  | named name | struct name => nominalText name
  | option inner => "Option<" ++ toText inner ++ ">"
  | function params ret optional =>
    let required := params.length - optional
    let texts := (toTexts params).mapIdx fun i text =>
      if i == required && 0 < optional then "optional " ++ text else text
    "fn(" ++ ", ".intercalate texts ++ ") " ++ toText ret
  | generic base args =>
    let base := if base == "OpenContext" then "Context" else base
    publicName base ++ "<" ++ ", ".intercalate (toTexts args) ++ ">"
  | tuple elements => "[" ++ ", ".intercalate (toTexts elements) ++ "]"
  | array elem => "Array<" ++ toText elem ++ ">"
  | object fields => "\x7b" ++ ", ".intercalate (fieldTexts fields) ++ "\x7d"
  | interface name _ | newtype name _ | opaqueType name _ | param name => name
  | union members => " | ".intercalate ((toTexts members).insertionSort (· ≤ ·))

def toTexts : List Ty → List String
  | [] => []
  | ty :: rest => toText ty :: toTexts rest

def fieldTexts : List (String × Ty) → List String
  | [] => []
  | (name, ty) :: rest => s!"{name}: {toText ty}" :: fieldTexts rest

end

end Ty

end Deka.Typeck
