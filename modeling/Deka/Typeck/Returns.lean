/-
Deka/Typeck/Returns.lean

The part of the type checker that decides what functions return (`check_function`,
`check_receiver_method` and `check_return` of `stmt.rs`, `check_function_expr` of
`expr.rs`, `check_bodyless_arm` of `exceptions.rs`).

The scopes, the flow of index facts, hooks and exception channels, and the rules of the
single forms of expressions are the rest of the checker: a parameter that reads and
changes its own state, and reads the return type.

The checker notes the returns that it has passed and what it found of each function;
nothing reads these notes.
-/
import Deka.Lib.Reports
import Deka.Typeck.Execution

namespace Deka.Typeck

open Deka.Lib Deka.Lib.Check

/-- Where the value of an expression goes. -/
inductive Use
  | value
  | scrutinee
  | returned
  | arm
  | statement
  | await
  | convert

/-- What happens to the rest of the checker between expressions. -/
inductive Mark (A : Type)
  | parameterNames (names : List (List String))
  | killFlow
  | pushTypeParams (name : String)
  | popTypeParams
  | pushScope
  | popScope
  | declare (name : String) (ty : Ty)
  | declareParam (names : List String) (ty : Ty)
  | pattern (constructor : Option String) (names : List String) (scrutinee : Ty)
  | passthrough (scrutinee : Ty)
  | boolean (ty : Ty)
  | statementReturn
  | seenReturn
  | enterBody (name : Option String)
  | leaveBody
  | setGlobal (name : String) (ty : Ty)
  | bind (names : List String) (ty : Option A) (value : Ty) (isConst : Bool)
  | bindUnwrapped (name : String) (ty : Option A) (scrutinee : Ty) (isConst : Bool)
  | unwrapValue (ty : Ty)
  | unwrapArms (scrutinee : Ty) (arms : List Ty)
  | loopHeader
  | iterated (name : String) (isConst : Bool) (iterable : Ty)
  | enterTry
  | leaveTry
  | caught (name : String) (declared : Option A)
  | declaration
  /-- what is done between the collection of the methods and the check of the bodies -/
  | collected

/-- The rest of the checker, with a state `σ`. -/
structure Rest (A E σ : Type) where
  mark : Mark A → σ → σ × List String
  resolve : A → σ → Ty × σ × List String
  isAssignable : σ → Ty → Ty → Bool
  /-- `globals`, with the hook taken off -/
  globalType : σ → String → Option Ty
  /-- what is wrong with the receiver of a method -/
  receiverError : σ → String → String → Option String
  /-- how the next operand of an expression is used, and what is expected of it -/
  operand : Form E → Use → Option Ty → List Ty → σ → Use × Option Ty
  /-- the type of an expression, from those of its operands -/
  conclude : Form E → Use → Option Ty → List Ty → Option Ty → σ → Ty × σ × List String
  /-- the type of a match, from those of its arms -/
  matched : Ty → Use → List Ty → Option Ty → σ → Ty × σ × List String
  /-- `consume_exception` -/
  consume : Ty → Use → Option Ty → σ → Ty × σ × List String

/-- A declared function, a receiver method or a function literal. -/
inductive Item (A E : Type)
  | function (name : String) (callable : Callable A E)
  | method (receiverType receiverName name : String) (callable : Callable A E)
  | literal (form : FunctionForm) (callable : Callable A E)

def Item.callable {A E : Type} : Item A E → Callable A E
  | .function _ callable | .method _ _ _ callable | .literal _ callable => callable

def Item.isFunction {A E : Type} : Item A E → Bool
  | .function _ _ => true
  | _ => false

def Item.isMethod {A E : Type} : Item A E → Bool
  | .method _ _ _ _ => true
  | _ => false

/-- A place where a body returns, and the type of the value there. -/
structure Returned (A E σ : Type) where
  site : Site A E
  ty : Ty
  /-- the rest of the checker at that place -/
  rest : σ

/-- What was found of an item: the type its body returns, the result that callers see, and
the returns. -/
structure Found (A E σ : Type) where
  item : Item A E
  payload : Ty
  result : Ty
  returned : List (Returned A E σ)

/-- The checker. -/
structure Typing (A E σ : Type) where
  returnType : Option Ty := none
  inFunction : Bool := false
  inAsyncFunction : Bool := false
  loopDepth : Nat := 0
  rest : σ
  /-- `receiver_methods`, by receiver and name: the types of the parameters and of the result -/
  methods : List ((String × String) × List Ty × Option Ty) := []
  /-- noted in the body so far -/
  returned : List (Returned A E σ) := []
  /-- noted of the functions so far -/
  found : List (Found A E σ) := []

section

variable {A E σ : Type} (R : Rest A E σ)

/-! ### The rest -/

def mark (m : Mark A) : Check (Typing A E σ) String Unit :=
  ofRun fun t => ((), { t with rest := (R.mark m t.rest).1 }, (R.mark m t.rest).2)

/-- A rule of the rest that finds a type. -/
def typed (f : Option Ty → σ → Ty × σ × List String) : Check (Typing A E σ) String Ty :=
  ofRun fun t => ((f t.returnType t.rest).1, { t with rest := (f t.returnType t.rest).2.1 },
    (f t.returnType t.rest).2.2)

def resolveType (declared : A) : Check (Typing A E σ) String Ty :=
  typed fun _ => R.resolve declared

/-! ### Return types -/

def Ty.isVoid : Ty → Bool
  | .named name => name == "void"
  | _ => false

/-- `return_type_requires_value` -/
def returnTypeRequiresValue : Ty → Bool
  | .named name => name != "void"
  | .never | .error | .infer | .var => false
  | .generic base args =>
    match args with
    | [inner] => if base == "Promise" then returnTypeRequiresValue inner else true
    | _ => true
  | _ => true

/-- `return_type_accepts_no_value` -/
def returnTypeAcceptsNoValue (ty : Ty) : Bool :=
  !returnTypeRequiresValue ty ||
    match ty with
    | .option _ => true
    | _ => false

def promise (ty : Ty) : Ty := .generic "Promise" [ty]

/-- The type of `return` without a value. -/
def noValue : Ty := .generic "Option" [.never]

/-- `function_return_context`: the type that the body must return, and the public one. -/
def functionReturnContext (isAsync : Bool) (explicit : Option Ty) :
    Check (Typing A E σ) String (Option Ty × Ty) :=
  if isAsync then
    match explicit with
    | some (.generic "Promise" [inner]) => pure (some inner, promise inner)
    | some other => do
      report s!"async function must return Promise<T>, found type `{other.toText}`"
      pure (some other, other)
    | none => pure (none, promise noValue)
  else pure (explicit, explicit.getD .infer)

/-- `reuse_inferred_return` -/
def reuseInferredReturn (explicit collected : Option Ty) (isAsync : Bool)
    (context : Option Ty × Ty) : Option Ty × Ty :=
  match explicit, collected with
  | some _, _ | none, none => context
  | none, some .infer | none, some .error => context
  | none, some ret =>
    if isAsync then
      match ret with
      | .generic "Promise" [inner] => (some inner, ret)
      | _ => context
    else (some ret, ret)

/-- The type of a function's result after its body, which returned `returned`. -/
def finalReturn (isAsync : Bool) (explicit bodyExpected returned : Option Ty) (empty : Ty) : Ty :=
  if isAsync then explicit.getD (promise (returned.getD empty))
  else bodyExpected.getD (returned.getD empty)

/-! ### Bodies that return -/

mutual

/-- `stmt_always_returns` -/
def stmtAlwaysReturns : Stmt A E → Bool
  | .ret _ => true
  | .expr (.node .throwCase _) => true
  | .tryCatch body _ _ catchBody => bodyAlwaysReturns body && bodyAlwaysReturns catchBody
  | .block body => bodyAlwaysReturns body
  | .ifElse _ thenBody elseBody =>
    !elseBody.isEmpty && bodyAlwaysReturns thenBody && bodyAlwaysReturns elseBody
  -- a loop may not run at all
  | _ => false

/-- `body_always_returns` -/
def bodyAlwaysReturns : List (Stmt A E) → Bool
  | [] => false
  | s :: rest => stmtAlwaysReturns s || bodyAlwaysReturns rest

end

/-- The last statement of a block is an expression. -/
def endsInExpr (body : List (Stmt A E)) : Bool :=
  match body.getLast? with
  | some (.expr _) => true
  | _ => false

/-! ### Returns -/

/-- The note that the body returns a value there. -/
def noteReturn (site : Site A E) (ty : Ty) : Check (Typing A E σ) String Unit :=
  modify fun t => { t with returned := ⟨site, ty, t.rest⟩ :: t.returned }

/-- `check_return_value_type`: the first return of a body without a type decides. -/
def checkReturnValueType (site : Site A E) (valueType : Ty) :
    Check (Typing A E σ) String Unit := do
  let t ← reads id
  match t.returnType with
  | some expected =>
    if R.isAssignable t.rest expected valueType then
      noteReturn site valueType
      mark R .seenReturn
    else do
      report s!"expected return type `{expected.toText}`, found type `{valueType.toText}`"
      mark R .seenReturn
  | none => do
    modify fun t => { t with returnType := some valueType }
    noteReturn site valueType
    mark R .seenReturn

/-- `contextual_type_is_known` -/
def contextualTypeIsKnown : Ty → Bool
  | .var | .infer | .error => false
  | _ => true

/-- `contextual_function_type` -/
def contextualFunctionType : Ty → Option Ty
  | .function params ret optional => some (.function params ret optional)
  | .generic "Hook" [inner] => contextualFunctionType inner
  | _ => none

/-- The number of parameters at the end that have a default. -/
def optionalCount (params : List (Param A E)) : Nat :=
  (params.reverse.takeWhile fun
    | .mk _ _ default => default.isSome).length

def parameterNames (params : List (Param A E)) : List (List String) :=
  params.map fun
    | .mk names _ _ => names

/-- The type of a parameter: annotated, or known from the context. -/
def resolveParam (message : String → String) (contextual : Option Ty) :
    Param A E → Check (Typing A E σ) String Ty
  | .mk names ty _ =>
    match ty, contextual with
    | some declared, _ => resolveType R declared
    | none, some known => pure known
    | none, none => do
      report (message (", ".intercalate names))
      pure .error

def resolveParams (message : String → String) (contextual : Nat → Option Ty) :
    Nat → List (Param A E) → Check (Typing A E σ) String (List Ty)
  | _, [] => pure []
  | index, p :: rest => do
    let paramType ← resolveParam R message (contextual index) p
    let others ← resolveParams message contextual (index + 1) rest
    pure (paramType :: others)

def missingAnnotation (name : String) : String :=
  s!"parameter `{name}` is missing a type annotation"

def enterFunction (isAsync : Bool) (bodyExpected : Option Ty) : Check (Typing A E σ) String Unit :=
  modify fun t =>
    { t with inFunction := true, inAsyncFunction := isAsync, returnType := bodyExpected,
             returned := [] }

def leaveFunction (saved : Typing A E σ) : Check (Typing A E σ) String Unit :=
  modify fun t =>
    { t with inFunction := saved.inFunction, inAsyncFunction := saved.inAsyncFunction,
             returnType := saved.returnType, returned := saved.returned }

/-- The check of a body, with the type that it returns and its returns; what the checker
knows of the function around is put back. -/
def inBody (isAsync : Bool) (bodyExpected : Option Ty) (body : Check (Typing A E σ) String Unit) :
    Check (Typing A E σ) String (Option Ty × List (Returned A E σ)) := do
  let saved ← reads id
  enterFunction isAsync bodyExpected
  body
  let after ← reads id
  leaveFunction saved
  pure (after.returnType, after.returned)

/-- The note of what was found of a function. -/
def noteFound (found : Found A E σ) : Check (Typing A E σ) String Unit :=
  modify fun t => { t with found := found :: t.found }

/-- The parameters and the result of a function type. -/
def Ty.signature : Ty → Option (List Ty × Ty)
  | .function params ret _ => some (params, ret)
  | _ => Option.none

/-- The annotation of a function's result; that of a collected signature was resolved with
the signature. -/
def explicitReturn (declared : Option A) (collected : Option Ty) :
    Check (Typing A E σ) String (Option Ty) :=
  match declared, collected with
  | some _, some ret => pure (some ret)
  | some declared, none => do
    let ret ← resolveType R declared
    pure (some ret)
  | none, _ => pure none

/-- The types of a function's parameters, collected before or found now. -/
def signatureParams (collected : Option (List Ty × Ty)) (params : List (Param A E)) :
    Check (Typing A E σ) String (List Ty) :=
  match collected with
  | some (types, _) => pure types
  | none => resolveParams R missingAnnotation (fun _ => none) 0 params

/-- The result of a literal, annotated or known from the context. -/
def literalReturn (declared : Option A) (context : Option (List Ty × Ty)) :
    Check (Typing A E σ) String (Option Ty) :=
  match declared with
  | some declared => do
    let ret ← resolveType R declared
    pure (some ret)
  | none => pure ((context.map Prod.snd).filter contextualTypeIsKnown)

/-- The channel that a match hands on, `Result` or `Exception`. -/
def channelOf : Ty → Option String
  | .generic base _ => if base == "Result" || base == "Exception" then some base else none
  | _ => none

/-- Whether a bodyless arm may hand its case on to the result of the function. -/
def mayPropagate (name channel : String) (expected : Option Ty) : Bool :=
  let expectedChannel :=
    match expected with
    | some (.generic base _) => some base
    | _ => none
  expectedChannel == some channel ||
    (name == "Ok" && (expectedChannel == some "Result" || expectedChannel == some "Exception"))

def propagationHelp (name : String) (expected : Option Ty) : String :=
  let expectedChannel :=
    match expected with
    | some (.generic base _) => some base
    | _ => none
  if name == "Err" && expectedChannel == some "Exception" then
    "help: raise it into the exception channel explicitly: `Err(e) => Throw(e)`"
  else if name == "Throw" && expectedChannel == some "Result" then
    "help: move it into the result channel explicitly: `Throw(e) => Err(e)`"
  else "the enclosing return type must carry the bodyless variant"

/-- The expected function type a literal takes its missing annotations from. -/
def contextFor (params : List (Param A E)) (returnType : Option A) (expected : Option Ty) :
    Option (List Ty × Ty) :=
  let fullyAnnotated := returnType.isSome && params.all fun
    | .mk _ ty _ => ty.isSome
  if fullyAnnotated then none else expected.bind Ty.signature

def arityError (count : Nat) (expected : Ty) (expectedCount : Nat) : String :=
  let plural := if count == 1 then "" else "s"
  s!"function literal has {count} parameter{plural}, but the expected type `{expected.toText}` has {expectedCount}"

def cannotInfer (form : FunctionForm) (name : String) : String :=
  if form == .fn then missingAnnotation name
  else "cannot infer the type of parameter `" ++ name ++
    "`: no function type is expected at this position — annotate it (`(" ++ name ++
    ": T) => …`) or use `fn(" ++ name ++ ": T) R \x7b … \x7d`"

/-- `check_return`; `value` checks the returned value for a return type. -/
def checkReturn (site : Option (Expr A E)) (value : Option Ty → Check (Typing A E σ) String Ty) :
    Check (Typing A E σ) String Unit := do
  let t ← reads id
  if t.inFunction then
    let valueType ← value t.returnType
    checkReturnValueType R (.value site) valueType
  else report "return outside of function"

/-- `check_arrow_expression_body`: an expression without a value is a statement where no
value is needed. -/
def checkArrowExpressionBody (site : Expr A E)
    (value : Option Ty → Check (Typing A E σ) String Ty) : Check (Typing A E σ) String Unit := do
  let t ← reads id
  let valueType ← value t.returnType
  let t' ← reads id
  if valueType.isVoid && t'.returnType.any returnTypeAcceptsNoValue then
    noteReturn (.value (some site)) valueType
    mark R .statementReturn
  else checkReturnValueType R (.value (some site)) valueType

/-- `check_bodyless_arm`: the arm returns its case from the function. -/
def checkBodylessArm (name : String) (scrutinee : Ty) (site : Expr A E)
    (body : Option Ty → Check (Typing A E σ) String Ty) : Check (Typing A E σ) String Ty :=
  match channelOf scrutinee with
  | none => do
    report "bodyless arms are a privilege of Result and Exception only, never user enums"
    pure .never
  | some channel => do
    let t ← reads id
    if mayPropagate name channel t.returnType then
      mark R (.passthrough scrutinee)
      let ty ← body t.returnType
      let t' ← reads id
      match t.returnType with
      | some expected =>
        if R.isAssignable t'.rest expected ty then
          noteReturn (.arm site) ty
          pure .never
        else do
          report s!"bodyless `{name}` has type `{ty.toText}`, incompatible with enclosing return type `{expected.toText}`"
          pure .never
      | none => pure .never
    else do
      report s!"bodyless `{name}` cannot propagate across channels; {propagationHelp name t.returnType}"
      pure .never

/-- The variable of a loop. -/
def bindInit (name : Option (String × Bool)) (ty : Option Ty) :
    Check (Typing A E σ) String Unit :=
  match name, ty with
  | some (name, isLet), some ty => mark R (.bind [name] none ty !isLet)
  | _, _ => pure ()

def loopCondition : Option Ty → Check (Typing A E σ) String Unit
  | some ty => mark R (.boolean ty)
  | none => pure ()

/-! ### The check -/

mutual

/-- `check_expr`, in a position and with what is expected there (`check_exception_use`). -/
def checkExpr : Expr A E → Use → Option Ty → Check (Typing A E σ) String Ty
  | .node form es, usage, expected => do
    let types ← checkOperands form usage expected [] es
    typed fun returnType => R.conclude form usage expected types returnType
  | .matchOn scrutinee arms, usage, expected => do
    let scrutineeType ← checkExpr scrutinee .scrutinee none
    let types ← checkMatchArms scrutineeType expected arms
    typed fun returnType => R.matched scrutineeType usage types returnType
  | .function form callable, usage, expected => do
    let ty ← checkFunctionExpr form callable (expected.bind contextualFunctionType)
    typed fun returnType => R.consume ty usage returnType

/-- The operands from left to right, after those with the types `before`. -/
def checkOperands (form : Form E) (usage : Use) (expected : Option Ty) (before : List Ty) :
    List (Expr A E) → Check (Typing A E σ) String (List Ty)
  | [] => pure []
  | e :: rest => do
    let t ← reads id
    let place := R.operand form usage expected before t.rest
    let ty ← checkExpr e place.1 place.2
    let others ← checkOperands form usage expected (before ++ [ty]) rest
    pure (ty :: others)

def checkArm (scrutinee : Ty) (expected : Option Ty) : Arm A E → Check (Typing A E σ) String Ty
  | .mk constructor names body => do
    mark R .pushScope
    mark R (.pattern constructor names scrutinee)
    let ty ← checkExpr body .arm expected
    mark R .popScope
    pure ty
  | .bodyless constructor names body => do
    mark R .pushScope
    mark R (.pattern (some constructor) names scrutinee)
    let ty ← checkBodylessArm R constructor scrutinee body fun expected =>
      checkExpr body .returned expected
    mark R .popScope
    pure ty

def checkMatchArms (scrutinee : Ty) (expected : Option Ty) :
    List (Arm A E) → Check (Typing A E σ) String (List Ty)
  | [] => pure []
  | arm :: rest => do
    let ty ← checkArm scrutinee expected arm
    let others ← checkMatchArms scrutinee expected rest
    pure (ty :: others)

/-- An arm of an unwrap is a value, also when it has no body. -/
def checkUnwrapArm (scrutinee : Ty) : Arm A E → Check (Typing A E σ) String Ty
  | .mk constructor names body => do
    mark R .pushScope
    mark R (.pattern constructor names scrutinee)
    let ty ← checkExpr body .value none
    mark R .popScope
    pure ty
  | .bodyless constructor names body => do
    mark R .pushScope
    mark R (.pattern (some constructor) names scrutinee)
    let ty ← checkExpr body .value none
    mark R .popScope
    pure ty

def checkUnwrapArms (scrutinee : Ty) : List (Arm A E) → Check (Typing A E σ) String (List Ty)
  | [] => pure []
  | arm :: rest => do
    let ty ← checkUnwrapArm scrutinee arm
    let others ← checkUnwrapArms scrutinee rest
    pure (ty :: others)

/-- The defaults of the parameters, and their names. -/
def checkParams : List (Param A E) → List Ty → Check (Typing A E σ) String Unit
  | .mk names _ (some default) :: rest, ty :: types => do
    let actual ← checkExpr default .value (some ty)
    let t ← reads id
    require (R.isAssignable t.rest ty actual)
      s!"expected default type `{ty.toText}`, found type `{actual.toText}`"
    mark R (.declareParam names ty)
    checkParams rest types
  | .mk names _ none :: rest, ty :: types => do
    mark R (.declareParam names ty)
    checkParams rest types
  | _, _ => pure ()

/-- `check_function`, with the type that callers see. -/
def checkFunction (name : String) : Callable A E → Check (Typing A E σ) String Ty
  | .mk params declared body isAsync => do
    mark R (.parameterNames (parameterNames params))
    mark R .killFlow
    let t ← reads id
    let collected := (R.globalType t.rest name).bind Ty.signature
    let paramTypes ← signatureParams R collected params
    mark R (.pushTypeParams name)
    let explicit ← explicitReturn R declared (collected.map Prod.snd)
    let context ← functionReturnContext isAsync explicit
    let context := reuseInferredReturn explicit (collected.map Prod.snd) isAsync context
    mark R .pushScope
    mark R (.declare name (.function paramTypes context.2 (optionalCount params)))
    checkParams params paramTypes
    let (returnType, returned) ← inBody isAsync context.1 do
      mark R (.enterBody (some name))
      checkBody body
      mark R .leaveBody
      require (!explicit.any returnTypeRequiresValue || bodyAlwaysReturns body)
        s!"function `{name}` declares return type `{(explicit.getD .infer).toText}` but does not return a value on every path"
    let result := finalReturn isAsync explicit context.1 returnType noValue
    mark R .popScope
    mark R .popTypeParams
    mark R (.setGlobal name (.function paramTypes result (optionalCount params)))
    noteFound ⟨.function name (.mk params declared body isAsync), returnType.getD noValue,
      result, returned⟩
    pure (.function paramTypes result (optionalCount params))

/-- `check_receiver_method`, with the result that callers see. -/
def checkReceiverMethod (receiverType receiverName name : String) :
    Callable A E → Check (Typing A E σ) String Ty
  | .mk params declared body isAsync => do
    mark R (.parameterNames (parameterNames params))
    mark R .killFlow
    let t ← reads id
    match t.methods.lookup (receiverType, name) with
    | none => pure .error
    | some (paramTypes, explicit) => do
      mark R (.pushTypeParams name)
      let context ← functionReturnContext isAsync explicit
      mark R .pushScope
      mark R (.declare receiverName (.named receiverType))
      checkParams params paramTypes
      let (returnType, returned) ← inBody isAsync context.1 do
        mark R (.enterBody (some name))
        checkBody body
        mark R .leaveBody
      mark R .popScope
      mark R .popTypeParams
      noteFound ⟨.method receiverType receiverName name (.mk params declared body isAsync),
        returnType.getD noValue, explicit.getD .none, returned⟩
      pure (explicit.getD .none)

/-- `check_function_expr` -/
def checkFunctionExpr (form : FunctionForm) :
    Callable A E → Option Ty → Check (Typing A E σ) String Ty
  | .mk params declared body isAsync, expected => do
    mark R (.parameterNames (parameterNames params))
    let context := contextFor params declared expected
    if context.any fun c => c.1.length != params.length then
      report (arityError params.length (expected.getD .error) ((context.map fun c => c.1.length).getD 0))
      pure .error
    else
      let paramTypes ← resolveParams R (cannotInfer form)
        (fun index => (context.bind fun c => c.1[index]?).filter contextualTypeIsKnown) 0 params
      let explicit ← literalReturn R declared context
      let bodyContext ← functionReturnContext isAsync explicit
      mark R .pushScope
      checkParams params paramTypes
      let (returnType, returned) ← inBody isAsync bodyContext.1 do
        mark R (.enterBody none)
        checkLiteralBody form body
        mark R .leaveBody
      let result := finalReturn isAsync explicit bodyContext.1 returnType .none
      mark R .popScope
      noteFound ⟨.literal form (.mk params declared body isAsync), returnType.getD .none,
        result, returned⟩
      pure (.function paramTypes result (optionalCount params))

/-- The body of a literal; that of an arrow without a block is one `return`. -/
def checkLiteralBody (form : FunctionForm) : List (Stmt A E) → Check (Typing A E σ) String Unit
  | [] => pure ()
  | .ret (some value) :: rest =>
    if form == .arrowExpr && rest.isEmpty then
      checkArrowExpressionBody R value fun expected => checkExpr value .returned expected
    else do
      checkReturn R (some value) fun expected => checkExpr value .returned expected
      checkBody rest
  | s :: rest => do
    checkStmt s
    checkBody rest

def checkOption (usage : Use) : Option (Expr A E) → Check (Typing A E σ) String (Option Ty)
  | some e => do
    let ty ← checkExpr e usage none
    pure (some ty)
  | none => pure none

def checkStmt : Stmt A E → Check (Typing A E σ) String Unit
  | .tryCatch body name declared catchBody => do
    mark R .enterTry
    mark R .pushScope
    checkBody body
    mark R .popScope
    mark R .leaveTry
    mark R .pushScope
    mark R (.caught name declared)
    checkBody catchBody
    mark R .popScope
  | .tupleBinding names declared value isConst => do
    let expected ← explicitReturn R declared none
    let actual ← checkExpr value .value expected
    mark R (.bind names declared actual isConst)
  | .binding name declared value isConst => do
    let expected ← explicitReturn R declared none
    let actual ← checkExpr value .value expected
    mark R (.bind [name] declared actual isConst)
  | .unwrapBlock name declared scrutinee body isConst => do
    let scrutineeType ← checkExpr scrutinee .value none
    mark R .pushScope
    checkAlternative body
    require (endsInExpr body || bodyAlwaysReturns body)
      "unwrap alternative must produce a value or leave the function on every path"
    mark R .popScope
    mark R (.bindUnwrapped name declared scrutineeType isConst)
  | .unwrapMatch name declared scrutinee arms isConst => do
    let scrutineeType ← checkExpr scrutinee .value none
    mark R .pushScope
    let types ← checkUnwrapArms scrutineeType arms
    mark R (.unwrapArms scrutineeType types)
    mark R .popScope
    mark R (.bindUnwrapped name declared scrutineeType isConst)
  | .function name callable => do
    let _ ← checkFunction name callable
    pure ()
  -- a method that is not at the top of a module is not looked at
  | .receiverMethod _ _ _ _ | .declaration => mark R .declaration
  | .expr value => do
    let _ ← checkExpr value .statement none
    pure ()
  | .ret (some value) =>
    checkReturn R (some value) fun expected => checkExpr value .returned expected
  | .ret none => checkReturn R none fun _ => pure noValue
  | .ifElse condition thenBody elseBody => do
    let conditionType ← checkExpr condition .value none
    mark R (.boolean conditionType)
    mark R .pushScope
    checkBody thenBody
    mark R .popScope
    mark R .pushScope
    checkBody elseBody
    mark R .popScope
  | .block body => do
    mark R .pushScope
    checkBody body
    mark R .popScope
  | .forLoop name init condition step body => do
    mark R .pushScope
    let initType ← checkOption .value init
    bindInit R name initType
    let conditionType ← checkOption .value condition
    loopCondition R conditionType
    let _ ← checkOption .value step
    mark R .loopHeader
    modify fun t => { t with loopDepth := t.loopDepth + 1 }
    checkBody body
    modify fun t => { t with loopDepth := t.loopDepth - 1 }
    mark R .popScope
  | .forOf name isConst iterable body => do
    let iterableType ← checkExpr iterable .value none
    mark R .pushScope
    mark R (.iterated name isConst iterableType)
    modify fun t => { t with loopDepth := t.loopDepth + 1 }
    checkBody body
    modify fun t => { t with loopDepth := t.loopDepth - 1 }
    mark R .popScope
  | .breakLoop => do
    let t ← reads id
    require (t.loopDepth != 0) "`break` outside of loop"
  | .continueLoop => do
    let t ← reads id
    require (t.loopDepth != 0) "`continue` outside of loop"

def checkBody : List (Stmt A E) → Check (Typing A E σ) String Unit
  | [] => pure ()
  | s :: rest => do
    checkStmt s
    checkBody rest

/-- The block of an unwrap: an expression at its end is its value. -/
def checkAlternative : List (Stmt A E) → Check (Typing A E σ) String Unit
  | [] => pure ()
  | [.expr value] => do
    let ty ← checkExpr value .value none
    mark R (.unwrapValue ty)
  | s :: rest => do
    checkStmt s
    checkAlternative rest

end

/-- `collect_receiver_methods` -/
def collectReceiverMethod (receiverType name : String) (callable : Callable A E) :
    Check (Typing A E σ) String Unit := do
  let t ← reads id
  match R.receiverError t.rest receiverType name with
  | some message => report message
  | none => do
    mark R (.pushTypeParams name)
    let paramTypes ← resolveParams R missingAnnotation (fun _ => none) 0 callable.params
    let ret ← explicitReturn R callable.returnType none
    mark R .popTypeParams
    modify fun t => { t with methods := ((receiverType, name), paramTypes, ret) :: t.methods }
    require (t.methods.lookup (receiverType, name)).isNone
      s!"duplicate receiver method `{name}` on type `{receiverType}`"

def collectReceiverMethods : List (Stmt A E) → Check (Typing A E σ) String Unit
  | [] => pure ()
  | .receiverMethod receiverType _ name callable :: rest => do
    collectReceiverMethod R receiverType name callable
    collectReceiverMethods rest
  | _ :: rest => collectReceiverMethods rest

def checkFunctions : List (Stmt A E) → Check (Typing A E σ) String Unit
  | [] => pure ()
  | .function name callable :: rest => do
    let _ ← checkFunction R name callable
    checkFunctions rest
  | .receiverMethod receiverType receiverName name callable :: rest => do
    let _ ← checkReceiverMethod R receiverType receiverName name callable
    checkFunctions rest
  | _ :: rest => checkFunctions rest

def checkOthers : List (Stmt A E) → Check (Typing A E σ) String Unit
  | [] => pure ()
  | .function _ _ :: rest | .receiverMethod _ _ _ _ :: rest => checkOthers rest
  | s :: rest => do
    checkStmt R s
    checkOthers rest

/-- `check_program`: functions and methods first, then the other statements in order. -/
def checkProgram (statements : List (Stmt A E)) : Check (Typing A E σ) String Unit := do
  collectReceiverMethods R statements
  mark R .collected
  checkFunctions R statements
  checkOthers R statements

end

end Deka.Typeck
