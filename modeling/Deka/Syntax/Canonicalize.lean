/-
Deka/Syntax/Canonicalize.lean

Resugaring of enum constructors (`canonicalize.rs`): `resolve_enum_constructors` walks the program
with a table of enums and no scopes.  `resugar` is the resugaring by lexical scoping (the
positions are those of `scope.rs`), and the two give the same program exactly if the program
`Agrees`.
-/
import Deka.Syntax.Ast

namespace Deka.Ast

variable {D : Type}

/-! ### The pass -/

/-- `enums`, the last one inserted first. -/
abbrev Enums := List (String × List String)

namespace Enums

def insert (enums : Enums) (name : String) (cases : List String) : Enums :=
  (name, cases) :: enums

/-- The enums of the program. -/
def collect (program : Program D) : Enums :=
  program.foldl (fun enums stmt =>
    match stmt with
    | .enum name cases _ => enums.insert name cases
    | _ => enums) []

def seedPrelude (enums : Enums) : Enums :=
  ((enums.insert "Option" ["Some", "None"]).insert "Result" ["Ok", "Err"]).insert "Exception"
    ["Ok", "Throw"]

def hasCase (enums : Enums) (name case : String) : Bool :=
  match enums.lookup name with
  | some cases => cases.contains case
  | none => false

end Enums

/-- The enum of `object.field`, where `isCase` tells which cases there are. -/
def enumOfField (isCase : String → String → Bool) (object : Expr D) (field : String) :
    Option String :=
  match object with
  | .identifier name _ => if isCase name field then some name else none
  | _ => none

/-- The enum and the case of a callee. -/
def enumOfCallee (isCase : String → String → Bool) (callee : Expr D) : Option (String × String) :=
  match callee with
  | .fieldAccess object field _ => (enumOfField isCase object field).map (·, field)
  | _ => none

mutual

/-- `transform_expr`, with `try_resolve_enum_expr` -/
def transformExpr (enums : Enums) : Expr D → Expr D
  | .literal data => .literal data
  | .identifier name data => .identifier name data
  | .call callee typeArgs args data =>
    match enumOfCallee enums.hasCase callee with
    -- "Enum cases in this AST hold at most one payload."
    | some (enumName, case) => .enumConstructor false enumName case (transformFirst enums args) data
    | none => .call (transformExpr enums callee) typeArgs (transformExprs enums args) data
  | .fieldAccess object field data =>
    match enumOfField enums.hasCase object field with
    | some enumName => .enumConstructor false enumName field none data
    | none => .fieldAccess (transformExpr enums object) field data
  | .enumConstructor sharedOk enumName caseName payload data =>
    .enumConstructor sharedOk enumName caseName (transformOption enums payload) data
  | .matchOn scrutinee arms data =>
    .matchOn (transformExpr enums scrutinee) (transformMatchArms enums arms) data
  | .function params body data => .function params (transformStmts enums body) data
  | .build body data => .build (transformStmts enums body) data
  | .compound form operands data => .compound form (transformExprs enums operands) data

def transformFirst (enums : Enums) : List (Expr D) → Option (Expr D)
  | [] => none
  | arg :: _ => some (transformExpr enums arg)

def transformOption (enums : Enums) : Option (Expr D) → Option (Expr D)
  | none => none
  | some expr => some (transformExpr enums expr)

/-- `transform_exprs` -/
def transformExprs (enums : Enums) : List (Expr D) → List (Expr D)
  | [] => []
  | expr :: rest => transformExpr enums expr :: transformExprs enums rest

/-- `transform_match_arms` -/
def transformMatchArms (enums : Enums) : List (Arm D) → List (Arm D)
  | [] => []
  | .mk pattern guard body data :: rest =>
    .mk pattern (transformOption enums guard) (transformExpr enums body) data ::
      transformMatchArms enums rest

/-- The arms of an `UnwrapLet`, whose guards are copied. -/
def transformUnwrapArms (enums : Enums) : List (Arm D) → List (Arm D)
  | [] => []
  | .mk pattern guard body data :: rest =>
    .mk pattern guard (transformExpr enums body) data :: transformUnwrapArms enums rest

/-- `transform_stmt` -/
def transformStmt (enums : Enums) : Stmt D → Stmt D
  | .bind names isConst value data => .bind names isConst (transformExpr enums value) data
  | .unwrapBlock name isConst scrutinee alternative data =>
    .unwrapBlock name isConst (transformExpr enums scrutinee) (transformStmts enums alternative) data
  | .unwrapMatch name isConst scrutinee alternative data =>
    .unwrapMatch name isConst (transformExpr enums scrutinee)
      (transformUnwrapArms enums alternative) data
  | .function name params body data => .function name params (transformStmts enums body) data
  | .receiverMethod receiverName receiverMutable params body data =>
    .receiverMethod receiverName receiverMutable params (transformStmts enums body) data
  | .struct defaults data => .struct (transformExprs enums defaults) data
  | .enum name cases data => .enum name cases data
  | .imports names data => .imports names data
  | .other data => .other data
  | .expr expr data => .expr (transformExpr enums expr) data
  | .ret value data => .ret (transformOption enums value) data
  | .ifElse condition thenBody elseBody data =>
    .ifElse (transformExpr enums condition) (transformStmts enums thenBody)
      (transformStmts enums elseBody) data
  | .tryCatch body catchName catchBody data =>
    .tryCatch (transformStmts enums body) catchName (transformStmts enums catchBody) data
  | .block body data => .block (transformStmts enums body) data
  | .loop declared init condition step body data =>
    .loop declared (transformOption enums init) (transformOption enums condition)
      (transformOption enums step) (transformStmts enums body) data
  | .forOf name isConst iterable body data =>
    .forOf name isConst (transformExpr enums iterable) (transformStmts enums body) data

def transformStmts (enums : Enums) : List (Stmt D) → List (Stmt D)
  | [] => []
  | stmt :: rest => transformStmt enums stmt :: transformStmts enums rest

end

/-- `resolve_enum_constructors` -/
def resolveEnumConstructors (program : Program D) : Program D :=
  transformStmts (Enums.collect program).seedPrelude program

/-! ### Lexical scoping -/

/-- The names that a statement declares for the statements after it. -/
def Stmt.declares : Stmt D → List String
  | .bind names _ _ _ => names
  | .unwrapBlock name _ _ _ _ => [name]
  | .unwrapMatch name _ _ _ _ => [name]
  | .function name _ _ _ => [name]
  | .imports names _ => names
  | _ => []

/-- The name that a statement declares for itself: a nested function is in its own scope. -/
def Stmt.itself : Stmt D → List String
  | .function name _ _ _ => [name]
  | _ => []

/-- What the names of a module stand for: its enums, and the names that hide an enum of the
prelude. -/
structure ModuleScope where
  enums : Enums
  values : List String

def ModuleScope.of (program : Program D) : ModuleScope where
  enums := Enums.collect program
  values := program.flatMap Stmt.declares

/-- Whether `name.case` is a case of an enum, under the given local names. -/
def ModuleScope.isCase (m : ModuleScope) (locals : List String) (name case : String) : Bool :=
  if locals.contains name then false
  else
    match m.enums.lookup name with
    | some cases => cases.contains case
    | none => !m.values.contains name && (Enums.seedPrelude []).hasCase name case

/-- A case takes one payload at most, and no type arguments. -/
def fits (typeArgs : List D) (args : List (Expr D)) : Bool :=
  typeArgs.isEmpty && args.length ≤ 1

/-- The names that are in scope in a body with the parameters. -/
def withParams (params : List (Param D)) (locals : List String) : List String :=
  params.flatMap Param.names ++ locals

/-- The names that are in scope in a loop. -/
def withDeclared (declared : Option (String × Bool)) (locals : List String) : List String :=
  match declared with
  | some (name, _) => name :: locals
  | none => locals

mutual

def resugarExpr (m : ModuleScope) (locals : List String) : Expr D → Expr D
  | .literal data => .literal data
  | .identifier name data => .identifier name data
  | .call callee typeArgs args data =>
    match enumOfCallee (m.isCase locals) callee, fits typeArgs args with
    | some (enumName, case), true =>
      .enumConstructor false enumName case (resugarFirst m locals args) data
    -- the constructor cannot take what it is given, and the call keeps it
    | some _, false => .call callee typeArgs (resugarExprs m locals args) data
    | none, _ => .call (resugarExpr m locals callee) typeArgs (resugarExprs m locals args) data
  | .fieldAccess object field data =>
    match enumOfField (m.isCase locals) object field with
    | some enumName => .enumConstructor false enumName field none data
    | none => .fieldAccess (resugarExpr m locals object) field data
  | .enumConstructor sharedOk enumName caseName payload data =>
    .enumConstructor sharedOk enumName caseName (resugarOption m locals payload) data
  | .matchOn scrutinee arms data =>
    .matchOn (resugarExpr m locals scrutinee) (resugarArms m locals arms) data
  | .function params body data =>
    .function (resugarParams m locals params) (resugarStmts m (withParams params locals) body) data
  | .build body data => .build (resugarStmts m locals body) data
  | .compound form operands data => .compound form (resugarExprs m locals operands) data

def resugarFirst (m : ModuleScope) (locals : List String) : List (Expr D) → Option (Expr D)
  | [] => none
  | arg :: _ => some (resugarExpr m locals arg)

def resugarOption (m : ModuleScope) (locals : List String) : Option (Expr D) → Option (Expr D)
  | none => none
  | some expr => some (resugarExpr m locals expr)

def resugarExprs (m : ModuleScope) (locals : List String) : List (Expr D) → List (Expr D)
  | [] => []
  | expr :: rest => resugarExpr m locals expr :: resugarExprs m locals rest

def resugarArms (m : ModuleScope) (locals : List String) : List (Arm D) → List (Arm D)
  | [] => []
  | .mk pattern guard body data :: rest =>
    .mk pattern (resugarOption m (pattern.names ++ locals) guard)
      (resugarExpr m (pattern.names ++ locals) body) data :: resugarArms m locals rest

/-- A default value sees the parameters before its own. -/
def resugarParams (m : ModuleScope) (locals : List String) : List (Param D) → List (Param D)
  | [] => []
  | .mk names defaultValue data :: rest =>
    .mk names (resugarOption m locals defaultValue) data :: resugarParams m (names ++ locals) rest

def resugarStmt (m : ModuleScope) (locals : List String) : Stmt D → Stmt D
  | .bind names isConst value data => .bind names isConst (resugarExpr m locals value) data
  | .unwrapBlock name isConst scrutinee alternative data =>
    .unwrapBlock name isConst (resugarExpr m locals scrutinee) (resugarStmts m locals alternative)
      data
  | .unwrapMatch name isConst scrutinee alternative data =>
    .unwrapMatch name isConst (resugarExpr m locals scrutinee) (resugarArms m locals alternative)
      data
  | .function name params body data =>
    .function name (resugarParams m locals params) (resugarStmts m (withParams params locals) body)
      data
  | .receiverMethod receiverName receiverMutable params body data =>
    .receiverMethod receiverName receiverMutable (resugarParams m (receiverName :: locals) params)
      (resugarStmts m (withParams params (receiverName :: locals)) body) data
  | .struct defaults data => .struct (resugarExprs m locals defaults) data
  | .enum name cases data => .enum name cases data
  | .imports names data => .imports names data
  | .other data => .other data
  | .expr expr data => .expr (resugarExpr m locals expr) data
  | .ret value data => .ret (resugarOption m locals value) data
  | .ifElse condition thenBody elseBody data =>
    .ifElse (resugarExpr m locals condition) (resugarStmts m locals thenBody)
      (resugarStmts m locals elseBody) data
  | .tryCatch body catchName catchBody data =>
    .tryCatch (resugarStmts m locals body) catchName (resugarStmts m (catchName :: locals) catchBody)
      data
  | .block body data => .block (resugarStmts m locals body) data
  | .loop declared init condition step body data =>
    .loop declared (resugarOption m locals init)
      (resugarOption m (withDeclared declared locals) condition)
      (resugarOption m (withDeclared declared locals) step)
      (resugarStmts m (withDeclared declared locals) body) data
  | .forOf name isConst iterable body data =>
    .forOf name isConst (resugarExpr m locals iterable) (resugarStmts m (name :: locals) body) data

def resugarStmts (m : ModuleScope) (locals : List String) : List (Stmt D) → List (Stmt D)
  | [] => []
  | stmt :: rest =>
    resugarStmt m (stmt.itself ++ locals) stmt :: resugarStmts m (stmt.declares ++ locals) rest

end

/-- The resugaring of a module: its own names are not local. -/
def resugar (program : Program D) : Program D :=
  program.map (resugarStmt (ModuleScope.of program) [])

/-! ### Where the two agree -/

mutual

/-- The table of the pass and the scopes tell the same constructors, each with what it can take,
and where the pass does not look there is none. -/
def AgreesExpr (enums : Enums) (m : ModuleScope) (locals : List String) : Expr D → Prop
  | .literal _ => True
  | .identifier _ _ => True
  | .call callee typeArgs args _ =>
    match enumOfCallee enums.hasCase callee with
    | some _ =>
      (enumOfCallee (m.isCase locals) callee).isSome ∧ fits typeArgs args = true ∧
        AgreesExprs enums m locals args
    | none =>
      ((enumOfCallee (m.isCase locals) callee).isSome → fits typeArgs args = false) ∧
        ((enumOfCallee (m.isCase locals) callee).isNone → AgreesExpr enums m locals callee) ∧
        AgreesExprs enums m locals args
  | .fieldAccess object field _ =>
    enumOfField enums.hasCase object field = enumOfField (m.isCase locals) object field ∧
      AgreesExpr enums m locals object
  | .enumConstructor _ _ _ payload _ => AgreesOption enums m locals payload
  | .matchOn scrutinee arms _ => AgreesExpr enums m locals scrutinee ∧ AgreesMatchArms enums m locals arms
  | .function params body _ =>
    resugarParams m locals params = params ∧ AgreesStmts enums m (withParams params locals) body
  | .build body _ => AgreesStmts enums m locals body
  | .compound _ operands _ => AgreesExprs enums m locals operands

def AgreesOption (enums : Enums) (m : ModuleScope) (locals : List String) : Option (Expr D) → Prop
  | none => True
  | some expr => AgreesExpr enums m locals expr

def AgreesExprs (enums : Enums) (m : ModuleScope) (locals : List String) : List (Expr D) → Prop
  | [] => True
  | expr :: rest => AgreesExpr enums m locals expr ∧ AgreesExprs enums m locals rest

def AgreesMatchArms (enums : Enums) (m : ModuleScope) (locals : List String) : List (Arm D) → Prop
  | [] => True
  | .mk pattern guard body _ :: rest =>
    AgreesOption enums m (pattern.names ++ locals) guard ∧
      AgreesExpr enums m (pattern.names ++ locals) body ∧ AgreesMatchArms enums m locals rest

def AgreesUnwrapArms (enums : Enums) (m : ModuleScope) (locals : List String) : List (Arm D) → Prop
  | [] => True
  | .mk pattern guard body _ :: rest =>
    resugarOption m (pattern.names ++ locals) guard = guard ∧
      AgreesExpr enums m (pattern.names ++ locals) body ∧ AgreesUnwrapArms enums m locals rest

def AgreesStmt (enums : Enums) (m : ModuleScope) (locals : List String) : Stmt D → Prop
  | .bind _ _ value _ => AgreesExpr enums m locals value
  | .unwrapBlock _ _ scrutinee alternative _ =>
    AgreesExpr enums m locals scrutinee ∧ AgreesStmts enums m locals alternative
  | .unwrapMatch _ _ scrutinee alternative _ =>
    AgreesExpr enums m locals scrutinee ∧ AgreesUnwrapArms enums m locals alternative
  | .function _ params body _ =>
    resugarParams m locals params = params ∧ AgreesStmts enums m (withParams params locals) body
  | .receiverMethod receiverName _ params body _ =>
    resugarParams m (receiverName :: locals) params = params ∧
      AgreesStmts enums m (withParams params (receiverName :: locals)) body
  | .struct defaults _ => AgreesExprs enums m locals defaults
  | .enum _ _ _ => True
  | .imports _ _ => True
  | .other _ => True
  | .expr expr _ => AgreesExpr enums m locals expr
  | .ret value _ => AgreesOption enums m locals value
  | .ifElse condition thenBody elseBody _ =>
    AgreesExpr enums m locals condition ∧ AgreesStmts enums m locals thenBody ∧
      AgreesStmts enums m locals elseBody
  | .tryCatch body catchName catchBody _ =>
    AgreesStmts enums m locals body ∧ AgreesStmts enums m (catchName :: locals) catchBody
  | .block body _ => AgreesStmts enums m locals body
  | .loop declared init condition step body _ =>
    AgreesOption enums m locals init ∧ AgreesOption enums m (withDeclared declared locals) condition ∧
      AgreesOption enums m (withDeclared declared locals) step ∧
      AgreesStmts enums m (withDeclared declared locals) body
  | .forOf name _ iterable body _ =>
    AgreesExpr enums m locals iterable ∧ AgreesStmts enums m (name :: locals) body

def AgreesStmts (enums : Enums) (m : ModuleScope) (locals : List String) : List (Stmt D) → Prop
  | [] => True
  | stmt :: rest =>
    AgreesStmt enums m (stmt.itself ++ locals) stmt ∧
      AgreesStmts enums m (stmt.declares ++ locals) rest

end

def Agrees (program : Program D) : Prop :=
  ∀ stmt ∈ program,
    AgreesStmt (Enums.collect program).seedPrelude (ModuleScope.of program) [] stmt

/-! ### The theorem -/

variable {enums : Enums} {m : ModuleScope} {isCase isCase' : String → String → Bool}

theorem enumOfField_eq_some {object : Expr D} {field enumName : String}
    (h : enumOfField isCase object field = some enumName) :
    ∃ data, object = .identifier enumName data := by
  cases object with
  | identifier name data =>
    rw [enumOfField, Option.ite_none_right_eq_some] at h
    cases h.2
    exact ⟨data, rfl⟩
  | _ => cases h

theorem enumOfCallee_eq_some {callee : Expr D} {enumName case : String}
    (h : enumOfCallee isCase callee = some (enumName, case)) :
    ∃ data data', callee = .fieldAccess (.identifier enumName data) case data' := by
  cases callee with
  | fieldAccess object field data' =>
    rw [enumOfCallee, Option.map_eq_some_iff] at h
    obtain ⟨name, hname, heq⟩ := h
    cases heq
    obtain ⟨data, rfl⟩ := enumOfField_eq_some hname
    exact ⟨data, data', rfl⟩
  | _ => cases h

/-- The pass and the scopes name the same constructor, if both see one. -/
theorem enumOfCallee_unique {callee : Expr D} {p q : String × String}
    (h : enumOfCallee isCase callee = some p) (h' : enumOfCallee isCase' callee = some q) :
    p = q := by
  obtain ⟨name, case⟩ := p
  obtain ⟨name', case'⟩ := q
  obtain ⟨_, _, rfl⟩ := enumOfCallee_eq_some h
  obtain ⟨_, _, heq⟩ := enumOfCallee_eq_some h'
  cases heq
  rfl

/-- What is not a constructor for the pass stays as it is, if its callee is one by the scopes. -/
theorem transformExpr_callee {callee : Expr D} {p : String × String}
    (hnone : enumOfCallee enums.hasCase callee = none) (h : enumOfCallee isCase callee = some p) :
    transformExpr enums callee = callee := by
  obtain ⟨data, data', rfl⟩ := enumOfCallee_eq_some h
  rw [enumOfCallee, Option.map_eq_none_iff] at hnone
  rw [transformExpr, hnone]
  rfl

theorem fits_nil {typeArgs : List D} {args : List (Expr D)} (h : fits typeArgs args = true) :
    args = [] ∨ ∃ arg, args = [arg] := by
  rw [fits, Bool.and_eq_true, decide_eq_true_eq] at h
  match args, h.2 with
  | [], _ => exact Or.inl rfl
  | [arg], _ => exact Or.inr ⟨arg, rfl⟩

mutual

theorem transformExpr_eq (locals : List String) (expr : Expr D) :
    transformExpr enums expr = resugarExpr m locals expr ↔ AgreesExpr enums m locals expr := by
  cases expr with
  | literal data => simp only [transformExpr, resugarExpr, AgreesExpr]
  | identifier name data => simp only [transformExpr, resugarExpr, AgreesExpr]
  | call callee typeArgs args data =>
    have hargs := transformExprs_eq locals args
    have hcallee := transformExpr_eq locals callee
    rw [transformExpr, resugarExpr, AgreesExpr]
    cases hcode : enumOfCallee enums.hasCase callee with
    | none =>
      cases hlexical : enumOfCallee (m.isCase locals) callee with
      | none => simp [hargs, hcallee]
      | some p =>
        have hkeeps := transformExpr_callee hcode hlexical
        cases hfits : fits typeArgs args <;> simp [hkeeps, hargs]
    | some p =>
      cases hlexical : enumOfCallee (m.isCase locals) callee with
      | none => simp
      | some q =>
        obtain rfl := enumOfCallee_unique hcode hlexical
        cases hfits : fits typeArgs args with
        | false => simp
        | true =>
          rcases fits_nil hfits with rfl | ⟨arg, rfl⟩
          · simp [transformFirst, resugarFirst, AgreesExprs]
          · simpa [transformFirst, resugarFirst, AgreesExprs, transformExprs, resugarExprs] using hargs
  | fieldAccess object field data =>
    have hobject := transformExpr_eq locals object
    rw [transformExpr, resugarExpr, AgreesExpr]
    cases hcode : enumOfField enums.hasCase object field with
    | none =>
      cases hlexical : enumOfField (m.isCase locals) object field with
      | none => simp [hobject]
      | some name => simp
    | some name =>
      cases hlexical : enumOfField (m.isCase locals) object field with
      | none => simp
      | some name' =>
        obtain ⟨_, rfl⟩ := enumOfField_eq_some hcode
        simp [AgreesExpr]
  | enumConstructor sharedOk enumName caseName payload data =>
    have hpayload := transformOption_eq locals payload
    simp [transformExpr, resugarExpr, AgreesExpr, hpayload]
  | matchOn scrutinee arms data =>
    have hscrutinee := transformExpr_eq locals scrutinee
    have harms := transformMatchArms_eq locals arms
    simp [transformExpr, resugarExpr, AgreesExpr, hscrutinee, harms]
  | function params body data =>
    have hbody := transformStmts_eq (withParams params locals) body
    simp [transformExpr, resugarExpr, AgreesExpr, hbody, eq_comm]
  | build body data =>
    have hbody := transformStmts_eq locals body
    simp [transformExpr, resugarExpr, AgreesExpr, hbody]
  | compound form operands data =>
    have hoperands := transformExprs_eq locals operands
    simp [transformExpr, resugarExpr, AgreesExpr, hoperands]

theorem transformOption_eq (locals : List String) (expr : Option (Expr D)) :
    transformOption enums expr = resugarOption m locals expr ↔
      AgreesOption enums m locals expr := by
  cases expr with
  | none => simp only [transformOption, resugarOption, AgreesOption]
  | some expr =>
    have hexpr := transformExpr_eq locals expr
    simp only [transformOption, resugarOption, AgreesOption, Option.some.injEq, hexpr]

theorem transformExprs_eq (locals : List String) (exprs : List (Expr D)) :
    transformExprs enums exprs = resugarExprs m locals exprs ↔
      AgreesExprs enums m locals exprs := by
  cases exprs with
  | nil => simp only [transformExprs, resugarExprs, AgreesExprs]
  | cons expr rest =>
    have hexpr := transformExpr_eq locals expr
    have hrest := transformExprs_eq locals rest
    simp only [transformExprs, resugarExprs, AgreesExprs, List.cons.injEq, hexpr, hrest]

theorem transformMatchArms_eq (locals : List String) (arms : List (Arm D)) :
    transformMatchArms enums arms = resugarArms m locals arms ↔
      AgreesMatchArms enums m locals arms := by
  cases arms with
  | nil => simp only [transformMatchArms, resugarArms, AgreesMatchArms]
  | cons arm rest =>
    cases arm with
    | mk pattern guard body data =>
      have hguard := transformOption_eq (pattern.names ++ locals) guard
      have hbody := transformExpr_eq (pattern.names ++ locals) body
      have hrest := transformMatchArms_eq locals rest
      simp [transformMatchArms, resugarArms, AgreesMatchArms, hguard, hbody, hrest, and_assoc]

theorem transformUnwrapArms_eq (locals : List String) (arms : List (Arm D)) :
    transformUnwrapArms enums arms = resugarArms m locals arms ↔
      AgreesUnwrapArms enums m locals arms := by
  cases arms with
  | nil => simp only [transformUnwrapArms, resugarArms, AgreesUnwrapArms]
  | cons arm rest =>
    cases arm with
    | mk pattern guard body data =>
      have hbody := transformExpr_eq (pattern.names ++ locals) body
      have hrest := transformUnwrapArms_eq locals rest
      have hguard := eq_comm (a := guard) (b := resugarOption m (pattern.names ++ locals) guard)
      simp [transformUnwrapArms, resugarArms, AgreesUnwrapArms, hguard, hbody, hrest, and_assoc]

theorem transformStmt_eq (locals : List String) (stmt : Stmt D) :
    transformStmt enums stmt = resugarStmt m locals stmt ↔ AgreesStmt enums m locals stmt := by
  cases stmt with
  | bind names isConst value data =>
    have hvalue := transformExpr_eq locals value
    simp [transformStmt, resugarStmt, AgreesStmt, hvalue]
  | unwrapBlock name isConst scrutinee alternative data =>
    have hscrutinee := transformExpr_eq locals scrutinee
    have halternative := transformStmts_eq locals alternative
    simp [transformStmt, resugarStmt, AgreesStmt, hscrutinee, halternative]
  | unwrapMatch name isConst scrutinee alternative data =>
    have hscrutinee := transformExpr_eq locals scrutinee
    have halternative := transformUnwrapArms_eq locals alternative
    simp [transformStmt, resugarStmt, AgreesStmt, hscrutinee, halternative]
  | function name params body data =>
    have hbody := transformStmts_eq (withParams params locals) body
    simp [transformStmt, resugarStmt, AgreesStmt, hbody, eq_comm]
  | receiverMethod receiverName receiverMutable params body data =>
    have hbody := transformStmts_eq (withParams params (receiverName :: locals)) body
    simp [transformStmt, resugarStmt, AgreesStmt, hbody, eq_comm]
  | struct defaults data =>
    have hdefaults := transformExprs_eq locals defaults
    simp [transformStmt, resugarStmt, AgreesStmt, hdefaults]
  | enum name cases data => simp only [transformStmt, resugarStmt, AgreesStmt]
  | imports names data => simp only [transformStmt, resugarStmt, AgreesStmt]
  | other data => simp only [transformStmt, resugarStmt, AgreesStmt]
  | expr expr data =>
    have hexpr := transformExpr_eq locals expr
    simp [transformStmt, resugarStmt, AgreesStmt, hexpr]
  | ret value data =>
    have hvalue := transformOption_eq locals value
    simp [transformStmt, resugarStmt, AgreesStmt, hvalue]
  | ifElse condition thenBody elseBody data =>
    have hcondition := transformExpr_eq locals condition
    have hthen := transformStmts_eq locals thenBody
    have helse := transformStmts_eq locals elseBody
    simp [transformStmt, resugarStmt, AgreesStmt, hcondition, hthen, helse]
  | tryCatch body catchName catchBody data =>
    have hbody := transformStmts_eq locals body
    have hcatch := transformStmts_eq (catchName :: locals) catchBody
    simp [transformStmt, resugarStmt, AgreesStmt, hbody, hcatch]
  | block body data =>
    have hbody := transformStmts_eq locals body
    simp [transformStmt, resugarStmt, AgreesStmt, hbody]
  | loop declared init condition step body data =>
    have hinit := transformOption_eq locals init
    have hcondition := transformOption_eq (withDeclared declared locals) condition
    have hstep := transformOption_eq (withDeclared declared locals) step
    have hbody := transformStmts_eq (withDeclared declared locals) body
    simp [transformStmt, resugarStmt, AgreesStmt, hinit, hcondition, hstep, hbody]
  | forOf name isConst iterable body data =>
    have hiterable := transformExpr_eq locals iterable
    have hbody := transformStmts_eq (name :: locals) body
    simp [transformStmt, resugarStmt, AgreesStmt, hiterable, hbody]

theorem transformStmts_eq (locals : List String) (stmts : List (Stmt D)) :
    transformStmts enums stmts = resugarStmts m locals stmts ↔
      AgreesStmts enums m locals stmts := by
  cases stmts with
  | nil => simp only [transformStmts, resugarStmts, AgreesStmts]
  | cons stmt rest =>
    have hstmt := transformStmt_eq (stmt.itself ++ locals) stmt
    have hrest := transformStmts_eq (stmt.declares ++ locals) rest
    simp only [transformStmts, resugarStmts, AgreesStmts, List.cons.injEq, hstmt, hrest]

end

/-- `E.field` -/
def caseOf (name field : String) : Expr Unit :=
  .fieldAccess (.identifier name ()) field ()

def color : Stmt Unit := .enum "Color" ["Red", "Rgb"] ()

end Deka.Ast
