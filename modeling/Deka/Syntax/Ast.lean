/-
Deka/Syntax/Ast.lean

Programs as the parser gives them (`ast.rs`).

A node holds what the passes look at; everything that they only copy (spans, annotations, the
values of literals, the names of fields) is its `data`, of any type.
-/
import Deka.Typeck.Syntax

namespace Deka.Ast

open Deka.Typeck (BinOp)

variable {D : Type}

inductive Pattern (D : Type)
  | wildcard (data : D)
  | identifier (name : String) (data : D)
  | literal (data : D)
  | constructor (name : String) (payload : Option (Pattern D)) (data : D)
  | struct (name : String) (fields : List (Pattern D)) (data : D)
  | tuple (elements : List (Pattern D)) (data : D)
  | or (alternatives : List (Pattern D)) (data : D)

mutual

/-- The names that a pattern binds; no alternative of an `or` binds one. -/
def Pattern.names : Pattern D → List String
  | .identifier name _ => [name]
  | .constructor _ payload _ => Pattern.namesOption payload
  | .struct _ fields _ => Pattern.namesAll fields
  | .tuple elements _ => Pattern.namesAll elements
  | _ => []

def Pattern.namesOption : Option (Pattern D) → List String
  | none => []
  | some pattern => pattern.names

def Pattern.namesAll : List (Pattern D) → List String
  | [] => []
  | pattern :: rest => pattern.names ++ Pattern.namesAll rest

end

/-- The forms of an expression with operands, of which no pass copies more than the data:
`other` are the unary, ternary and bridge expressions, the struct, array, object and template
literals, `await`, spread, `safe`, and JSX elements and fragments. -/
inductive Form
  | binary (op : BinOp)
  | index
  | paren
  | other
deriving DecidableEq

mutual

inductive Expr (D : Type)
  /-- a literal, `import.meta`, a JSX text or a block of the host language -/
  | literal (data : D)
  | identifier (name : String) (data : D)
  | call (callee : Expr D) (typeArgs : List D) (args : List (Expr D)) (data : D)
  | fieldAccess (object : Expr D) (field : String) (data : D)
  | enumConstructor (sharedOk : Bool) (enumName caseName : String) (payload : Option (Expr D))
      (data : D)
  | matchOn (scrutinee : Expr D) (arms : List (Arm D)) (data : D)
  | function (params : List (Param D)) (body : List (Stmt D)) (data : D)
  | build (body : List (Stmt D)) (data : D)
  | compound (form : Form) (operands : List (Expr D)) (data : D)

/-- `MatchArm` -/
inductive Arm (D : Type)
  | mk (pattern : Pattern D) (guard : Option (Expr D)) (body : Expr D) (data : D)

/-- A parameter, with the names of its binding. -/
inductive Param (D : Type)
  | mk (names : List String) (defaultValue : Option (Expr D)) (data : D)

inductive Stmt (D : Type)
  /-- `Const`, `Let`, `TupleBinding` and an exported constant -/
  | bind (names : List String) (isConst : Bool) (value : Expr D) (data : D)
  /-- `UnwrapLet` with a block -/
  | unwrapBlock (name : String) (isConst : Bool) (scrutinee : Expr D) (alternative : List (Stmt D))
      (data : D)
  /-- `UnwrapLet` with arms -/
  | unwrapMatch (name : String) (isConst : Bool) (scrutinee : Expr D) (alternative : List (Arm D))
      (data : D)
  /-- `Function` and an exported function -/
  | function (name : String) (params : List (Param D)) (body : List (Stmt D)) (data : D)
  | receiverMethod (receiverName : String) (receiverMutable : Bool) (params : List (Param D))
      (body : List (Stmt D)) (data : D)
  /-- with the default values that its fields have -/
  | struct (defaults : List (Expr D)) (data : D)
  | enum (name : String) (cases : List String) (data : D)
  /-- `Import` and `Summon`: the names that come into the module -/
  | imports (names : List String) (data : D)
  /-- the other declarations, `break`, `continue` and the empty statement -/
  | other (data : D)
  | expr (expr : Expr D) (data : D)
  | ret (value : Option (Expr D)) (data : D)
  | ifElse (condition : Expr D) (thenBody elseBody : List (Stmt D)) (data : D)
  | tryCatch (body : List (Stmt D)) (catchName : String) (catchBody : List (Stmt D)) (data : D)
  | block (body : List (Stmt D)) (data : D)
  /-- the variable that the initializer declares, if it declares one, and whether it is constant -/
  | loop (declared : Option (String × Bool)) (init condition step : Option (Expr D))
      (body : List (Stmt D)) (data : D)
  | forOf (name : String) (isConst : Bool) (iterable : Expr D) (body : List (Stmt D)) (data : D)

end

def Param.names : Param D → List String
  | .mk names _ _ => names

/-- `Program` -/
abbrev Program (D : Type) := List (Stmt D)

end Deka.Ast
