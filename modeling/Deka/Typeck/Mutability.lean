/-
Deka/Typeck/Mutability.lean

Which names may be assigned to (`is_mutable_expr` and the scopes in `typeck/stmt.rs`,
`typeck/expr.rs`).

The checker keeps a stack of sets of mutable names, one set for each scope, and looks a name up in
all of them.  `mutations_respect_scopes` compares that with the innermost declaration of the name.
-/
import Deka.Syntax.Ast

namespace Deka.Ast

open Deka.Typeck (BinOp)

variable {D : Type}

/-- What the checker knows from types, about the nodes of the program. -/
structure NodeTypes (D : Type) where
  /-- the object of an index access has the type of an array, a tuple or a record -/
  indexed : D → Bool
  /-- a native setter, a `mut` field of an interface or the field `current` of a `Ref` grants the
  write to a field -/
  granted : D → Bool
  /-- the receiver of a call has the type of an array -/
  array : D → Bool
  /-- how many arguments of a call are checked: a partial application drops those for which the
  callee has no parameter -/
  argsChecked : D → Nat
  /-- the scrutinee of an `UnwrapLet` with arms is a `Result` -/
  result : D → Bool

/-- `is_mutating_array_method` -/
def isMutatingArrayMethod (name : String) : Bool :=
  ["push", "pop", "shift", "unshift", "splice", "sort", "reverse", "fill", "copyWithin"].contains
    name

/-! ### The checker -/

/-- `mutables`, the innermost scope first. -/
abbrev Mutables := List (List String)

namespace Mutables

/-- A new scope, in which the names are mutable. -/
def push (mutables : Mutables) (names : List String) : Mutables := names :: mutables

/-- `declare_mutable_var`, for each of the names. -/
def declare (names : List String) : Mutables → Mutables
  | [] => []
  | top :: rest => (names ++ top) :: rest

def has (mutables : Mutables) (name : String) : Bool :=
  mutables.any (·.contains name)

/-- `is_mutable_expr` -/
def isMutableExpr (mutables : Mutables) : Expr D → Bool
  | .identifier name _ => mutables.has name
  | .fieldAccess object _ _ => mutables.isMutableExpr object
  | _ => false

end Mutables

/-- The target of `=` -/
def checkAssigned (types : NodeTypes D) (mutables : Mutables) (left : Expr D) : Bool :=
  match left with
  | .identifier name _ => mutables.has name
  | .compound .index (object :: _) data => !types.indexed data || mutables.isMutableExpr object
  | .fieldAccess object _ data => types.granted data || mutables.isMutableExpr object
  | _ => false

/-- The target of `+=` and the like -/
def checkUpdated (mutables : Mutables) (left : Expr D) : Bool :=
  match left with
  | .identifier name _ => mutables.has name
  | _ => false

/-- The check of a target in `check_binary`. -/
def checkTarget (types : NodeTypes D) (mutables : Mutables) (op : BinOp) (left : Expr D) : Bool :=
  if op = .assign then checkAssigned types mutables left
  else if op.isAssign then checkUpdated mutables left
  else true

/-- The check of an array method in `try_check_method_call`. -/
def checkReceiver (types : NodeTypes D) (mutables : Mutables) (callee : Expr D) (data : D) : Bool :=
  match callee with
  | .fieldAccess object method _ =>
    !(types.array data && isMutatingArrayMethod method) || mutables.isMutableExpr object
  | _ => true

def checkForm (types : NodeTypes D) (mutables : Mutables) : Form → List (Expr D) → Bool
  | .binary op, left :: _ => checkTarget types mutables op left
  | _, _ => true

/-- The names that a statement adds to the innermost scope. -/
def Stmt.mutables : Stmt D → List String
  | .bind names false _ _ => names
  | .unwrapBlock name false _ _ _ => [name]
  | .unwrapMatch name false _ _ _ => [name]
  | _ => []

/-- The names of `check_for_init`. -/
def mutableInit (declared : Option (String × Bool)) : List String :=
  match declared with
  | some (name, false) => [name]
  | _ => []

mutual

/-- `check_expr` -/
def checkExpr (types : NodeTypes D) (mutables : Mutables) : Expr D → Bool
  | .literal _ => true
  | .identifier _ _ => true
  | .call callee _ args data =>
    checkReceiver types mutables callee data && checkExpr types mutables callee &&
      checkExprs types mutables (types.argsChecked data) args
  | .fieldAccess object _ _ => checkExpr types mutables object
  | .enumConstructor _ _ _ payload _ => checkOption types mutables payload
  | .matchOn scrutinee arms _ =>
    checkExpr types mutables scrutinee && checkArms types mutables arms
  | .function params body _ =>
    checkParams types (mutables.push []) params && checkStmts types (mutables.push []) body
  | .build body _ => checkStmts types (mutables.push []) body
  | .compound form operands _ =>
    checkForm types mutables form operands &&
      checkExprs types mutables operands.length operands

def checkOption (types : NodeTypes D) (mutables : Mutables) : Option (Expr D) → Bool
  | none => true
  | some expr => checkExpr types mutables expr

/-- The first expressions, as many as the number says. -/
def checkExprs (types : NodeTypes D) (mutables : Mutables) : Nat → List (Expr D) → Bool
  | 0, _ => true
  | _, [] => true
  | count + 1, expr :: rest =>
    checkExpr types mutables expr && checkExprs types mutables count rest

/-- The arms of `check_match` and of `check_unwrap_match_arms`; no arm has a guard. -/
def checkArms (types : NodeTypes D) (mutables : Mutables) : List (Arm D) → Bool
  | [] => true
  | .mk _ _ body _ :: rest =>
    checkExpr types (mutables.push []) body && checkArms types mutables rest

def checkParams (types : NodeTypes D) (mutables : Mutables) : List (Param D) → Bool
  | [] => true
  | .mk _ defaultValue _ :: rest =>
    checkOption types mutables defaultValue && checkParams types mutables rest

/-- `check_statement` -/
def checkStmt (types : NodeTypes D) (mutables : Mutables) : Stmt D → Bool
  | .bind _ _ value _ => checkExpr types mutables value
  | .unwrapBlock _ _ scrutinee alternative _ =>
    checkExpr types mutables scrutinee && checkStmts types (mutables.push []) alternative
  | .unwrapMatch _ _ scrutinee alternative data =>
    checkExpr types mutables scrutinee &&
      (!types.result data || checkArms types (mutables.push []) alternative)
  | .function _ params body _ =>
    checkParams types (mutables.push []) params && checkStmts types (mutables.push []) body
  | .receiverMethod receiverName receiverMutable params body _ =>
    checkParams types (mutables.push (if receiverMutable then [receiverName] else [])) params &&
      checkStmts types (mutables.push (if receiverMutable then [receiverName] else [])) body
  -- the default values of fields are not checked
  | .struct _ _ => true
  | .enum _ _ _ => true
  | .imports _ _ => true
  | .other _ => true
  | .expr expr _ => checkExpr types mutables expr
  | .ret value _ => checkOption types mutables value
  | .ifElse condition thenBody elseBody _ =>
    checkExpr types mutables condition && checkStmts types (mutables.push []) thenBody &&
      checkStmts types (mutables.push []) elseBody
  | .tryCatch body _ catchBody _ =>
    checkStmts types (mutables.push []) body && checkStmts types (mutables.push []) catchBody
  | .block body _ => checkStmts types (mutables.push []) body
  | .loop declared init condition step body _ =>
    checkOption types (mutables.push []) init &&
      checkOption types (mutables.push (mutableInit declared)) condition &&
      checkOption types (mutables.push (mutableInit declared)) step &&
      checkStmts types (mutables.push (mutableInit declared)) body
  | .forOf name isConst iterable body _ =>
    checkExpr types mutables iterable &&
      checkStmts types (mutables.push (if isConst then [] else [name])) body

def checkStmts (types : NodeTypes D) (mutables : Mutables) : List (Stmt D) → Bool
  | [] => true
  | stmt :: rest =>
    checkStmt types mutables stmt && checkStmts types (mutables.declare stmt.mutables) rest

end

/-- Functions and receiver methods, whose bodies are checked first. -/
def Stmt.isFunction : Stmt D → Bool
  | .function _ _ _ _ => true
  | .receiverMethod _ _ _ _ _ => true
  | _ => false

/-- `check_program`, after `collect_module_value_bindings` -/
def checkProgram (types : NodeTypes D) (program : Program D) : Bool :=
  let mutables : Mutables := [program.flatMap Stmt.mutables]
  (program.filter Stmt.isFunction).all (checkStmt types mutables) &&
    checkStmts types mutables (program.filter fun stmt => !stmt.isFunction)

/-! ### Mutations and their scopes -/

/-- The declarations that are in scope, the innermost first: the name, and whether it is declared
mutable. -/
abbrev Env := List (String × Bool)

def constants (names : List String) : Env := names.map (·, false)

/-- The declarations that a statement makes for the statements after it. -/
def Stmt.bindings : Stmt D → Env
  | .bind names isConst _ _ => names.map (·, !isConst)
  | .unwrapBlock name isConst _ _ _ => [(name, !isConst)]
  | .unwrapMatch name isConst _ _ _ => [(name, !isConst)]
  | .function name _ _ _ => [(name, false)]
  | .imports names _ => constants names
  | _ => []

def initBindings (declared : Option (String × Bool)) : Env :=
  match declared with
  | some (name, isConst) => [(name, !isConst)]
  | none => []

/-- The name at the root of a path of fields and indices. -/
def root : Expr D → Option String
  | .identifier name _ => some name
  | .fieldAccess object _ _ => root object
  | .compound .index (object :: _) _ => root object
  | .compound .paren (inner :: _) _ => root inner
  | _ => none

/-- An expression that is written to, and the scope it stands in. -/
structure Mutation (D : Type) where
  env : Env
  target : Expr D

/-- The target of `=`, unless its type decides. -/
def assignedMutations (types : NodeTypes D) (env : Env) (left : Expr D) : List (Mutation D) :=
  match left with
  | .compound .index _ data => if types.indexed data then [⟨env, left⟩] else []
  | .fieldAccess _ _ data => if types.granted data then [] else [⟨env, left⟩]
  | _ => [⟨env, left⟩]

def targetMutations (types : NodeTypes D) (env : Env) (op : BinOp) (left : Expr D) :
    List (Mutation D) :=
  if op = .assign then assignedMutations types env left
  else if op.isAssign then [⟨env, left⟩]
  else []

/-- The array of a method that changes it. -/
def receiverMutations (types : NodeTypes D) (env : Env) (callee : Expr D) (data : D) :
    List (Mutation D) :=
  match callee with
  | .fieldAccess object method _ =>
    if types.array data && isMutatingArrayMethod method then [⟨env, object⟩] else []
  | _ => []

def formMutations (types : NodeTypes D) (env : Env) : Form → List (Expr D) → List (Mutation D)
  | .binary op, left :: _ => targetMutations types env op left
  | _, _ => []

mutual

def exprMutations (types : NodeTypes D) (env : Env) : Expr D → List (Mutation D)
  | .literal _ => []
  | .identifier _ _ => []
  | .call callee _ args data =>
    receiverMutations types env callee data ++ exprMutations types env callee ++
      exprsMutations types env (types.argsChecked data) args
  | .fieldAccess object _ _ => exprMutations types env object
  | .enumConstructor _ _ _ payload _ => optionMutations types env payload
  | .matchOn scrutinee arms _ => exprMutations types env scrutinee ++ armsMutations types env arms
  | .function params body _ =>
    paramsMutations types env params ++
      stmtsMutations types (constants (params.flatMap Param.names) ++ env) body
  | .build body _ => stmtsMutations types env body
  | .compound form operands _ =>
    formMutations types env form operands ++ exprsMutations types env operands.length operands

def optionMutations (types : NodeTypes D) (env : Env) : Option (Expr D) → List (Mutation D)
  | none => []
  | some expr => exprMutations types env expr

def exprsMutations (types : NodeTypes D) (env : Env) : Nat → List (Expr D) → List (Mutation D)
  | 0, _ => []
  | _, [] => []
  | count + 1, expr :: rest => exprMutations types env expr ++ exprsMutations types env count rest

def armsMutations (types : NodeTypes D) (env : Env) : List (Arm D) → List (Mutation D)
  | [] => []
  | .mk pattern _ body _ :: rest =>
    exprMutations types (constants pattern.names ++ env) body ++ armsMutations types env rest

/-- A default value sees the parameters before its own. -/
def paramsMutations (types : NodeTypes D) (env : Env) : List (Param D) → List (Mutation D)
  | [] => []
  | .mk names defaultValue _ :: rest =>
    optionMutations types env defaultValue ++ paramsMutations types (constants names ++ env) rest

def stmtMutations (types : NodeTypes D) (env : Env) : Stmt D → List (Mutation D)
  | .bind _ _ value _ => exprMutations types env value
  | .unwrapBlock _ _ scrutinee alternative _ =>
    exprMutations types env scrutinee ++ stmtsMutations types env alternative
  | .unwrapMatch _ _ scrutinee alternative data =>
    exprMutations types env scrutinee ++
      (if types.result data then armsMutations types env alternative else [])
  | .function name params body _ =>
    paramsMutations types ((name, false) :: env) params ++
      stmtsMutations types (constants (params.flatMap Param.names) ++ (name, false) :: env) body
  | .receiverMethod receiverName receiverMutable params body _ =>
    paramsMutations types ((receiverName, receiverMutable) :: env) params ++
      stmtsMutations types
        (constants (params.flatMap Param.names) ++ (receiverName, receiverMutable) :: env) body
  | .struct _ _ => []
  | .enum _ _ _ => []
  | .imports _ _ => []
  | .other _ => []
  | .expr expr _ => exprMutations types env expr
  | .ret value _ => optionMutations types env value
  | .ifElse condition thenBody elseBody _ =>
    exprMutations types env condition ++ stmtsMutations types env thenBody ++
      stmtsMutations types env elseBody
  | .tryCatch body catchName catchBody _ =>
    stmtsMutations types env body ++ stmtsMutations types ((catchName, false) :: env) catchBody
  | .block body _ => stmtsMutations types env body
  | .loop declared init condition step body _ =>
    optionMutations types env init ++
      optionMutations types (initBindings declared ++ env) condition ++
      optionMutations types (initBindings declared ++ env) step ++
      stmtsMutations types (initBindings declared ++ env) body
  | .forOf name isConst iterable body _ =>
    exprMutations types env iterable ++ stmtsMutations types ((name, !isConst) :: env) body

def stmtsMutations (types : NodeTypes D) (env : Env) : List (Stmt D) → List (Mutation D)
  | [] => []
  | stmt :: rest =>
    stmtMutations types env stmt ++ stmtsMutations types (stmt.bindings ++ env) rest

end

/-- The mutations of a program; a module's own names are in scope everywhere in it. -/
def mutations (types : NodeTypes D) (program : Program D) : List (Mutation D) :=
  program.flatMap (stmtMutations types (program.flatMap Stmt.bindings))

namespace Env

/-- Whether the name is declared mutable, by its innermost declaration. -/
def innermost (env : Env) (name : String) : Option Bool := env.lookup name

/-- An outer declaration of the name is mutable. -/
def HidesMutable (env : Env) (name : String) : Prop :=
  (name, true) ∈ (env.filter (·.1 == name)).tail

end Env

/-! ### The stack and the scope -/

/-- The sets hold the names that have a mutable declaration in scope. -/
structure Tracks (mutables : Mutables) (env : Env) : Prop where
  ne_nil : mutables ≠ []
  has_iff : ∀ name, mutables.has name = true ↔ (name, true) ∈ env

theorem has_push {mutables : Mutables} {names : List String} {name : String} :
    (mutables.push names).has name = true ↔ name ∈ names ∨ mutables.has name = true := by
  simp [Mutables.push, Mutables.has]

theorem has_declare {mutables : Mutables} {names : List String} {name : String}
    (hne : mutables ≠ []) :
    (mutables.declare names).has name = true ↔ name ∈ names ∨ mutables.has name = true := by
  cases mutables with
  | nil => exact absurd rfl hne
  | cons top rest => simp [Mutables.declare, Mutables.has, or_assoc]

theorem mem_constants {names : List String} {name : String} :
    (name, true) ∉ constants names := by
  simp [constants]

namespace Tracks

variable {mutables : Mutables} {env bindings : Env} {names : List String}

/-- A scope whose mutable names are those of the declarations. -/
theorem push (h : Tracks mutables env)
    (hnames : ∀ name, name ∈ names ↔ (name, true) ∈ bindings) :
    Tracks (mutables.push names) (bindings ++ env) where
  ne_nil := List.cons_ne_nil _ _
  has_iff name := by rw [has_push, hnames, h.has_iff, List.mem_append]

theorem declare (h : Tracks mutables env)
    (hnames : ∀ name, name ∈ names ↔ (name, true) ∈ bindings) :
    Tracks (mutables.declare names) (bindings ++ env) where
  ne_nil := by
    have hne := h.ne_nil
    cases mutables with
    | nil => exact absurd rfl hne
    | cons top rest => exact List.cons_ne_nil _ _
  has_iff name := by rw [has_declare h.ne_nil, hnames, h.has_iff, List.mem_append]

theorem enter (h : Tracks mutables env) : Tracks (mutables.push []) env :=
  have hnone : ∀ name : String, name ∈ [] ↔ (name, true) ∈ ([] : Env) := fun _ => by simp
  h.push hnone

/-- Constant declarations leave the sets as they are. -/
theorem hide (h : Tracks mutables env) (hbindings : ∀ name, (name, true) ∉ bindings) :
    Tracks mutables (bindings ++ env) where
  ne_nil := h.ne_nil
  has_iff name := by rw [h.has_iff, List.mem_append, or_iff_right (hbindings name)]

theorem constants (h : Tracks mutables env) (names : List String) :
    Tracks mutables (constants names ++ env) :=
  h.hide fun _ => mem_constants

theorem constant (h : Tracks mutables env) (name : String) :
    Tracks mutables ((name, false) :: env) :=
  h.constants [name]

theorem one (h : Tracks mutables env) (name : String) (isMutable : Bool) :
    Tracks (mutables.push (if isMutable then [name] else [])) ((name, isMutable) :: env) := by
  have hone : ∀ other, other ∈ (if isMutable then [name] else []) ↔
      (other, true) ∈ [(name, isMutable)] := by
    intro other
    cases isMutable <;> simp
  exact h.push hone

end Tracks

/-- What a statement adds to the innermost set are its mutable declarations. -/
theorem Stmt.mem_mutables (stmt : Stmt D) (name : String) :
    name ∈ stmt.mutables ↔ (name, true) ∈ stmt.bindings := by
  cases stmt with
  | bind names isConst value data =>
    cases isConst <;> simp [Stmt.mutables, Stmt.bindings]
  | unwrapBlock other isConst scrutinee alternative data =>
    cases isConst <;> simp [Stmt.mutables, Stmt.bindings]
  | unwrapMatch other isConst scrutinee alternative data =>
    cases isConst <;> simp [Stmt.mutables, Stmt.bindings]
  | imports names data => simp [Stmt.mutables, Stmt.bindings, mem_constants]
  | _ => simp [Stmt.mutables, Stmt.bindings]

theorem mem_mutableInit (declared : Option (String × Bool)) (name : String) :
    name ∈ mutableInit declared ↔ (name, true) ∈ initBindings declared := by
  rcases declared with _ | ⟨other, isConst⟩
  · simp [mutableInit, initBindings]
  · cases isConst <;> simp [mutableInit, initBindings]

theorem isMutableExpr_root {mutables : Mutables} (expr : Expr D)
    (h : mutables.isMutableExpr expr = true) :
    ∃ name, root expr = some name ∧ mutables.has name = true := by
  cases expr with
  | identifier name data => exact ⟨name, rfl, h⟩
  | fieldAccess object field data => exact isMutableExpr_root object h
  | _ => cases h

/-! ### What is accepted -/

/-- Some declaration in scope of the name at the root is mutable. -/
def Mutation.Declared (m : Mutation D) : Prop :=
  ∀ name, root m.target = some name → (name, true) ∈ m.env

variable {types : NodeTypes D} {mutables : Mutables} {env : Env}

theorem Tracks.declared (htracks : Tracks mutables env) {target : Expr D} (object : Expr D)
    (h : mutables.isMutableExpr object = true) (hroot : root target = root object) :
    Mutation.Declared ⟨env, target⟩ := by
  intro name hname
  obtain ⟨other, hother, hhas⟩ := isMutableExpr_root object h
  rw [hroot, hother, Option.some.injEq] at hname
  rw [← hname]
  exact (htracks.has_iff other).mp hhas

theorem checkAssigned_declared (htracks : Tracks mutables env) {left : Expr D}
    (h : checkAssigned types mutables left = true) :
    ∀ m ∈ assignedMutations types env left, m.Declared := by
  cases left with
  | identifier name data =>
    exact List.forall_mem_singleton.mpr (htracks.declared (.identifier name data) h rfl)
  | fieldAccess object field data =>
    rw [checkAssigned] at h
    rw [assignedMutations]
    cases hgranted : types.granted data with
    | true => simp
    | false =>
      rw [hgranted, Bool.false_or] at h
      exact List.forall_mem_singleton.mpr (htracks.declared object h rfl)
  | compound form operands data =>
    cases form with
    | index =>
      cases operands with
      | nil => cases h
      | cons object rest =>
        rw [checkAssigned] at h
        rw [assignedMutations]
        cases hindexed : types.indexed data with
        | false => simp
        | true =>
          rw [hindexed, Bool.not_true, Bool.false_or] at h
          exact List.forall_mem_singleton.mpr (htracks.declared object h rfl)
    | _ => cases h
  | _ => cases h

theorem checkTarget_declared (htracks : Tracks mutables env) {op : BinOp} {left : Expr D}
    (h : checkTarget types mutables op left = true) :
    ∀ m ∈ targetMutations types env op left, m.Declared := by
  rw [targetMutations]
  rw [checkTarget] at h
  split_ifs at h ⊢ with hassign hupdate
  · exact checkAssigned_declared htracks h
  · cases left with
    | identifier name data =>
      exact List.forall_mem_singleton.mpr (htracks.declared (.identifier name data) h rfl)
    | _ => cases h
  · exact fun _ hm => absurd hm List.not_mem_nil

theorem checkReceiver_declared (htracks : Tracks mutables env) {callee : Expr D} {data : D}
    (h : checkReceiver types mutables callee data = true) :
    ∀ m ∈ receiverMutations types env callee data, m.Declared := by
  cases callee with
  | fieldAccess object method data' =>
    rw [receiverMutations]
    cases harray : types.array data && isMutatingArrayMethod method with
    | false => simp
    | true =>
      rw [checkReceiver, harray, Bool.not_true, Bool.false_or] at h
      simp only [if_true, List.forall_mem_singleton]
      exact htracks.declared object h rfl
  | _ => simp [receiverMutations]

theorem checkForm_declared (htracks : Tracks mutables env) {form : Form} {operands : List (Expr D)}
    (h : checkForm types mutables form operands = true) :
    ∀ m ∈ formMutations types env form operands, m.Declared := by
  cases form with
  | binary op =>
    cases operands with
    | nil => exact fun _ hm => absurd hm List.not_mem_nil
    | cons left rest => exact checkTarget_declared htracks h
  | _ => exact fun _ hm => absurd hm List.not_mem_nil

mutual

theorem checkExpr_declared {mutables : Mutables} {env : Env} (htracks : Tracks mutables env)
    (expr : Expr D)
    (h : checkExpr types mutables expr = true) :
    ∀ m ∈ exprMutations types env expr, m.Declared := by
  cases expr with
  | literal data => simp [exprMutations]
  | identifier name data => simp [exprMutations]
  | call callee typeArgs args data =>
    rw [checkExpr, Bool.and_eq_true, Bool.and_eq_true] at h
    obtain ⟨⟨hreceiver, hcallee⟩, hargs⟩ := h
    rw [exprMutations, List.forall_mem_append, List.forall_mem_append]
    exact ⟨⟨checkReceiver_declared htracks hreceiver, checkExpr_declared htracks callee hcallee⟩,
      checkExprs_declared htracks _ args hargs⟩
  | fieldAccess object field data =>
    rw [checkExpr] at h
    rw [exprMutations]
    exact checkExpr_declared htracks object h
  | enumConstructor sharedOk enumName caseName payload data =>
    rw [checkExpr] at h
    rw [exprMutations]
    exact checkOption_declared htracks payload h
  | matchOn scrutinee arms data =>
    rw [checkExpr, Bool.and_eq_true] at h
    obtain ⟨hscrutinee, harms⟩ := h
    rw [exprMutations, List.forall_mem_append]
    exact ⟨checkExpr_declared htracks scrutinee hscrutinee,
      checkArms_declared htracks arms harms⟩
  | function params body data =>
    rw [checkExpr, Bool.and_eq_true] at h
    obtain ⟨hparams, hbody⟩ := h
    rw [exprMutations, List.forall_mem_append]
    exact ⟨checkParams_declared htracks.enter params hparams,
      checkStmts_declared (htracks.enter.constants _) body hbody⟩
  | build body data =>
    rw [checkExpr] at h
    rw [exprMutations]
    exact checkStmts_declared htracks.enter body h
  | compound form operands data =>
    rw [checkExpr, Bool.and_eq_true] at h
    obtain ⟨hform, hoperands⟩ := h
    rw [exprMutations, List.forall_mem_append]
    exact ⟨checkForm_declared htracks hform, checkExprs_declared htracks _ operands hoperands⟩

theorem checkOption_declared {mutables : Mutables} {env : Env} (htracks : Tracks mutables env)
    (expr : Option (Expr D))
    (h : checkOption types mutables expr = true) :
    ∀ m ∈ optionMutations types env expr, m.Declared := by
  cases expr with
  | none => simp [optionMutations]
  | some expr =>
    rw [checkOption] at h
    rw [optionMutations]
    exact checkExpr_declared htracks expr h

theorem checkExprs_declared {mutables : Mutables} {env : Env} (htracks : Tracks mutables env)
    (count : Nat) (exprs : List (Expr D))
    (h : checkExprs types mutables count exprs = true) :
    ∀ m ∈ exprsMutations types env count exprs, m.Declared := by
  cases exprs with
  | nil => cases count <;> simp [exprsMutations]
  | cons expr rest =>
    cases count with
    | zero => simp [exprsMutations]
    | succ count =>
      rw [checkExprs, Bool.and_eq_true] at h
      obtain ⟨hexpr, hrest⟩ := h
      rw [exprsMutations, List.forall_mem_append]
      exact ⟨checkExpr_declared htracks expr hexpr, checkExprs_declared htracks count rest hrest⟩

theorem checkArms_declared {mutables : Mutables} {env : Env} (htracks : Tracks mutables env)
    (arms : List (Arm D))
    (h : checkArms types mutables arms = true) :
    ∀ m ∈ armsMutations types env arms, m.Declared := by
  cases arms with
  | nil => simp [armsMutations]
  | cons arm rest =>
    cases arm with
    | mk pattern guard body data =>
      rw [checkArms, Bool.and_eq_true] at h
      obtain ⟨hbody, hrest⟩ := h
      rw [armsMutations, List.forall_mem_append]
      exact ⟨checkExpr_declared (htracks.enter.constants _) body hbody,
        checkArms_declared htracks rest hrest⟩

theorem checkParams_declared {mutables : Mutables} {env : Env} (htracks : Tracks mutables env)
    (params : List (Param D))
    (h : checkParams types mutables params = true) :
    ∀ m ∈ paramsMutations types env params, m.Declared := by
  cases params with
  | nil => simp [paramsMutations]
  | cons param rest =>
    cases param with
    | mk names defaultValue data =>
      rw [checkParams, Bool.and_eq_true] at h
      obtain ⟨hdefault, hrest⟩ := h
      rw [paramsMutations, List.forall_mem_append]
      exact ⟨checkOption_declared htracks defaultValue hdefault,
        checkParams_declared (htracks.constants names) rest hrest⟩

theorem checkStmt_declared {mutables : Mutables} {env : Env} (htracks : Tracks mutables env)
    (stmt : Stmt D)
    (h : checkStmt types mutables stmt = true) :
    ∀ m ∈ stmtMutations types env stmt, m.Declared := by
  cases stmt with
  | bind names isConst value data =>
    rw [checkStmt] at h
    rw [stmtMutations]
    exact checkExpr_declared htracks value h
  | unwrapBlock name isConst scrutinee alternative data =>
    rw [checkStmt, Bool.and_eq_true] at h
    obtain ⟨hscrutinee, halternative⟩ := h
    rw [stmtMutations, List.forall_mem_append]
    exact ⟨checkExpr_declared htracks scrutinee hscrutinee,
      checkStmts_declared htracks.enter alternative halternative⟩
  | unwrapMatch name isConst scrutinee alternative data =>
    rw [checkStmt, Bool.and_eq_true] at h
    obtain ⟨hscrutinee, halternative⟩ := h
    rw [stmtMutations, List.forall_mem_append]
    refine ⟨checkExpr_declared htracks scrutinee hscrutinee, ?_⟩
    cases hresult : types.result data with
    | false => simp
    | true =>
      rw [hresult, Bool.not_true, Bool.false_or] at halternative
      rw [if_pos rfl]
      exact checkArms_declared htracks.enter alternative halternative
  | function name params body data =>
    rw [checkStmt, Bool.and_eq_true] at h
    obtain ⟨hparams, hbody⟩ := h
    have hname := htracks.enter.constant name
    rw [stmtMutations, List.forall_mem_append]
    exact ⟨checkParams_declared hname params hparams,
      checkStmts_declared (hname.constants _) body hbody⟩
  | receiverMethod receiverName receiverMutable params body data =>
    rw [checkStmt, Bool.and_eq_true] at h
    obtain ⟨hparams, hbody⟩ := h
    have hname := htracks.one receiverName receiverMutable
    rw [stmtMutations, List.forall_mem_append]
    exact ⟨checkParams_declared hname params hparams,
      checkStmts_declared (hname.constants _) body hbody⟩
  | struct defaults data => simp [stmtMutations]
  | enum name cases data => simp [stmtMutations]
  | imports names data => simp [stmtMutations]
  | other data => simp [stmtMutations]
  | expr expr data =>
    rw [checkStmt] at h
    rw [stmtMutations]
    exact checkExpr_declared htracks expr h
  | ret value data =>
    rw [checkStmt] at h
    rw [stmtMutations]
    exact checkOption_declared htracks value h
  | ifElse condition thenBody elseBody data =>
    rw [checkStmt, Bool.and_eq_true, Bool.and_eq_true] at h
    obtain ⟨⟨hcondition, hthen⟩, helse⟩ := h
    rw [stmtMutations, List.forall_mem_append, List.forall_mem_append]
    exact ⟨⟨checkExpr_declared htracks condition hcondition,
      checkStmts_declared htracks.enter thenBody hthen⟩,
      checkStmts_declared htracks.enter elseBody helse⟩
  | tryCatch body catchName catchBody data =>
    rw [checkStmt, Bool.and_eq_true] at h
    obtain ⟨hbody, hcatch⟩ := h
    rw [stmtMutations, List.forall_mem_append]
    exact ⟨checkStmts_declared htracks.enter body hbody,
      checkStmts_declared (htracks.enter.constant catchName) catchBody hcatch⟩
  | block body data =>
    rw [checkStmt] at h
    rw [stmtMutations]
    exact checkStmts_declared htracks.enter body h
  | loop declared init condition step body data =>
    rw [checkStmt, Bool.and_eq_true, Bool.and_eq_true, Bool.and_eq_true] at h
    obtain ⟨⟨⟨hinit, hcondition⟩, hstep⟩, hbody⟩ := h
    -- the variable of the initializer is in the scope of the loop, not in its own value
    have hloop := htracks.push (mem_mutableInit declared)
    rw [stmtMutations, List.forall_mem_append, List.forall_mem_append, List.forall_mem_append]
    exact ⟨⟨⟨checkOption_declared htracks.enter init hinit,
      checkOption_declared hloop condition hcondition⟩, checkOption_declared hloop step hstep⟩,
      checkStmts_declared hloop body hbody⟩
  | forOf name isConst iterable body data =>
    rw [checkStmt, Bool.and_eq_true] at h
    obtain ⟨hiterable, hbody⟩ := h
    have hloop : Tracks (mutables.push (if isConst then [] else [name]))
        ((name, !isConst) :: env) := by
      have hone := htracks.one name (!isConst)
      cases isConst with
      | false => exact hone
      | true => exact hone
    rw [stmtMutations, List.forall_mem_append]
    exact ⟨checkExpr_declared htracks iterable hiterable, checkStmts_declared hloop body hbody⟩

theorem checkStmts_declared {mutables : Mutables} {env : Env} (htracks : Tracks mutables env)
    (stmts : List (Stmt D))
    (h : checkStmts types mutables stmts = true) :
    ∀ m ∈ stmtsMutations types env stmts, m.Declared := by
  cases stmts with
  | nil => simp [stmtsMutations]
  | cons stmt rest =>
    rw [checkStmts, Bool.and_eq_true] at h
    obtain ⟨hstmt, hrest⟩ := h
    rw [stmtsMutations, List.forall_mem_append]
    exact ⟨checkStmt_declared htracks stmt hstmt,
      checkStmts_declared (htracks.declare stmt.mem_mutables) rest hrest⟩

end

/-- At the top of a module the declarations are in scope from the start. -/
theorem checkStmts_declared_top (stmts : List (Stmt D)) {mutables : Mutables}
    (htracks : Tracks mutables env)
    (hin : ∀ stmt ∈ stmts, ∀ name ∈ stmt.mutables, (name, true) ∈ env)
    (h : checkStmts types mutables stmts = true) :
    ∀ stmt ∈ stmts, ∀ m ∈ stmtMutations types env stmt, m.Declared := by
  induction stmts generalizing mutables with
  | nil => exact fun _ hstmt => absurd hstmt List.not_mem_nil
  | cons stmt rest ih =>
    rw [checkStmts, Bool.and_eq_true] at h
    obtain ⟨hstmt, hrest⟩ := h
    rw [List.forall_mem_cons] at hin ⊢
    have hdeclared := htracks.declare stmt.mem_mutables
    have hagain : Tracks (mutables.declare stmt.mutables) env := by
      refine ⟨hdeclared.ne_nil, fun name => ?_⟩
      rw [has_declare htracks.ne_nil, htracks.has_iff]
      exact or_iff_right_of_imp (hin.1 name)
    exact ⟨checkStmt_declared htracks stmt hstmt, ih hagain hin.2 hrest⟩

theorem checkProgram_declared {program : Program D} (h : checkProgram types program = true) :
    ∀ m ∈ mutations types program, m.Declared := by
  rw [checkProgram, Bool.and_eq_true, List.all_eq_true] at h
  obtain ⟨hfunctions, hrest⟩ := h
  have hmem : ∀ name, name ∈ program.flatMap Stmt.mutables ↔
      (name, true) ∈ program.flatMap Stmt.bindings := by
    intro name
    simp only [List.mem_flatMap, Stmt.mem_mutables]
  have htracks : Tracks [program.flatMap Stmt.mutables] (program.flatMap Stmt.bindings) :=
    ⟨List.cons_ne_nil _ _, fun name => by simp [Mutables.has, ← hmem]⟩
  have htop := checkStmts_declared_top _ htracks (fun stmt hstmt name hname =>
    (hmem name).mp (List.mem_flatMap.mpr ⟨stmt, List.mem_of_mem_filter hstmt, hname⟩)) hrest
  intro m hm
  obtain ⟨stmt, hstmt, hm⟩ := List.mem_flatMap.mp hm
  cases hfunction : stmt.isFunction with
  | true =>
    have hchecked := hfunctions stmt (List.mem_filter.mpr ⟨hstmt, hfunction⟩)
    exact checkStmt_declared htracks stmt hchecked m hm
  | false => exact htop stmt (List.mem_filter.mpr ⟨hstmt, by rw [hfunction]; rfl⟩) m hm

theorem Env.innermost_of_mem {env : Env} {name : String} (hmem : (name, true) ∈ env)
    (hhides : ¬ env.HidesMutable name) : env.innermost name = some true := by
  induction env with
  | nil => cases hmem
  | cons binding rest ih =>
    obtain ⟨other, isMutable⟩ := binding
    rw [Env.innermost, List.lookup_cons]
    by_cases hname : other = name
    · subst hname
      rw [Env.HidesMutable, List.filter_cons_of_pos (by simp)] at hhides
      cases isMutable with
      | true => simp
      | false =>
        have hrest : (other, true) ∈ rest := by simpa using hmem
        exact absurd (List.mem_filter.mpr ⟨hrest, by simp⟩) hhides
    · have hne : (name == other) = false := by simpa using Ne.symm hname
      rw [hne]
      refine ih ?_ ?_
      · rcases List.mem_cons.mp hmem with heq | hmem
        · exact absurd (congrArg Prod.fst heq).symm hname
        · exact hmem
      · rwa [Env.HidesMutable, List.filter_cons_of_neg (by simpa using hname)] at hhides

def plainTypes (granted : Bool) : NodeTypes Unit where
  indexed _ := true
  granted _ := granted
  array _ := false
  argsChecked _ := 0
  result _ := false

/-- `left = 2` -/
def assigns (left : Expr Unit) : Stmt Unit :=
  .expr (.compound (.binary .assign) [left, .literal ()] ()) ()

end Deka.Ast
