/-
Deka/Typeck/Syntax.lean

Expressions and statements (`ast.rs`).

An expression is its form and its operands in the order in which they are evaluated;
matches and function literals, whose parts are checked in scopes of their own, have
constructors.  Annotations `A` are resolved by the checker, and `E` are the forms that no
check here tells apart.
-/
import Deka.Typeck.Types

namespace Deka.Typeck

inductive BinOp
  | add | sub | mul | div | mod
  | eq | ne | lt | le | gt | ge
  | and | or | pipe
  | bitAnd | bitOr | bitXor | shl | shr
  | assign | addAssign | subAssign | mulAssign | divAssign | modAssign
deriving DecidableEq

/-- The assignment operators -/
def BinOp.isAssign : BinOp → Bool
  | assign | addAssign | subAssign | mulAssign | divAssign | modAssign => true
  | _ => false

/-- How a function literal was spelled: `fn`, an arrow with a block, or an arrow whose body
is one `return`. -/
inductive FunctionForm
  | fn
  | arrowBlock
  | arrowExpr
deriving DecidableEq

/-- The form of an expression, with the number of its operands in brackets. -/
inductive Form (E : Type)
  | identifier (name : String)
  /-- a literal, with its value when that is an integer -/
  | number (value : Option Int)
  /-- `( )` [1] -/
  | paren
  /-- [2] -/
  | binary (op : BinOp)
  /-- [1] -/
  | field (name : String)
  /-- the builtin `has` of an array, found by its type [2: array, index] -/
  | has
  /-- any other call [callee, arguments] -/
  | call
  /-- `bounded`: of an array or a parameter bounded by one, at a number [2] -/
  | index (bounded : Bool)
  /-- `? :` [3] -/
  | ternary
  /-- [the fields that are given]; `effectfulDefaults`: the initializers of the fields that
  are not given call, assign, await or build a function -/
  | structLiteral (effectfulDefaults : Bool)
  /-- [1] -/
  | await
  /-- a block of the host language -/
  | unsafeBlock
  /-- `Throw(e)` [1] -/
  | throwCase
  /-- markup [attributes and children] -/
  | jsx
  | other (form : E)

mutual

inductive Expr (A E : Type)
  | node (form : Form E) (operands : List (Expr A E))
  | matchOn (scrutinee : Expr A E) (arms : List (Arm A E))
  | function (form : FunctionForm) (callable : Callable A E)

/-- An arm, with the name of the constructor of its pattern and the names that the pattern
binds. -/
inductive Arm (A E : Type)
  | mk (constructor : Option String) (names : List String) (body : Expr A E)
  /-- the body is the constructor applied to what was bound -/
  | bodyless (constructor : String) (names : List String) (body : Expr A E)

inductive Param (A E : Type)
  | mk (names : List String) (ty : Option A) (default : Option (Expr A E))

/-- What declared functions, receiver methods and function literals have in common. -/
inductive Callable (A E : Type)
  | mk (params : List (Param A E)) (returnType : Option A) (body : List (Stmt A E))
    (isAsync : Bool)

inductive Stmt (A E : Type)
  | tryCatch (body : List (Stmt A E)) (name : String) (declared : Option A)
    (catchBody : List (Stmt A E))
  | tupleBinding (names : List String) (ty : Option A) (value : Expr A E) (isConst : Bool)
  /-- `const` and `let`, exported or not -/
  | binding (name : String) (ty : Option A) (value : Expr A E) (isConst : Bool)
  /-- `unwrap … or` and a block -/
  | unwrapBlock (name : String) (ty : Option A) (scrutinee : Expr A E) (body : List (Stmt A E))
    (isConst : Bool)
  /-- `unwrap … or match` -/
  | unwrapMatch (name : String) (ty : Option A) (scrutinee : Expr A E) (arms : List (Arm A E))
    (isConst : Bool)
  | function (name : String) (callable : Callable A E)
  | receiverMethod (receiverType receiverName name : String) (callable : Callable A E)
  | expr (value : Expr A E)
  | ret (value : Option (Expr A E))
  | ifElse (condition : Expr A E) (thenBody elseBody : List (Stmt A E))
  | block (body : List (Stmt A E))
  /-- the initializer binds `name`, with `let` when `isLet` -/
  | forLoop (name : Option (String × Bool)) (init condition step : Option (Expr A E))
    (body : List (Stmt A E))
  | forOf (name : String) (isConst : Bool) (iterable : Expr A E) (body : List (Stmt A E))
  | breakLoop
  | continueLoop
  /-- an import, a declaration of a type, or nothing -/
  | declaration

end

namespace Callable

variable {A E : Type}

def params : Callable A E → List (Param A E)
  | mk params _ _ _ => params

def returnType : Callable A E → Option A
  | mk _ returnType _ _ => returnType

def body : Callable A E → List (Stmt A E)
  | mk _ _ body _ => body

def isAsync : Callable A E → Bool
  | mk _ _ _ isAsync => isAsync

end Callable

/-! ### Names -/

namespace Stmt

variable {A E : Type}

/-- The names that a statement declares in the scope it stands in. -/
def declares : Stmt A E → List String
  | tupleBinding names _ _ _ => names
  | binding name _ _ _ | unwrapBlock name _ _ _ _ | unwrapMatch name _ _ _ _ => [name]
  | function name _ => [name]
  | _ => []

end Stmt

/-- The names that a list of statements declares in its scope. -/
def declared {A E : Type} (body : List (Stmt A E)) : List String :=
  body.flatMap Stmt.declares

end Deka.Typeck
