/-
Deka/Typeck/Execution.lean

Runs of expressions and statements, as far as the checks of the type checker speak about
them: the lengths of arrays, integers, truth values, and how a piece of code ends
(`compiler.rs`).

Whatever else a value is, is left open, and so is what a call does: it may assign every
variable that some expression in the scope of the variable assigns, and change the length
of every array.  The runs of the compiled code are among these runs.
-/
import Deka.Typeck.Syntax
import Mathlib.Data.List.Forall2
import Mathlib.Logic.Function.Basic

namespace Deka.Typeck

/-! ### States -/

/-- What is known of a value; an array is known by its address. -/
inductive Datum
  | array (address : Nat)
  /-- the value when it is an integer -/
  | number (value : Option Int)
  | boolean (value : Bool)
  | other
deriving DecidableEq

structure Variable where
  datum : Datum
  /-- no expression in the scope assigns the variable -/
  fixed : Bool := false

/-- The variables of one scope. -/
abbrev Frame := String → Option Variable

/-- The scopes, innermost first, and the lengths of the arrays. -/
structure State where
  frames : List Frame
  lengths : Nat → Nat

namespace State

def find? : List Frame → String → Option Variable
  | [], _ => none
  | frame :: rest, name => (frame name).or (find? rest name)

def datum (s : State) (name : String) : Datum :=
  ((find? s.frames name).map Variable.datum).getD .other

def enter (s : State) (frame : Frame) : State := { s with frames := frame :: s.frames }

def leave (s : State) : State := { s with frames := s.frames.tail }

/-- A new variable of the innermost scope. -/
def declare (s : State) (name : String) (v : Variable) : State :=
  match s.frames with
  | [] => s
  | frame :: rest => { s with frames := Function.update frame name (some v) :: rest }

def assignIn (name : String) (d : Datum) : List Frame → List Frame
  | [] => []
  | frame :: rest =>
    match frame name with
    | some v => Function.update frame name (some { v with datum := d }) :: rest
    | none => frame :: assignIn name d rest

def assign (s : State) (name : String) (d : Datum) : State :=
  { s with frames := assignIn name d s.frames }

end State

/-- New variables of the innermost scope, with any values. -/
inductive DeclaresAll : List String → State → State → Prop
  | nil (s : State) : DeclaresAll [] s s
  | cons {name : String} {rest : List String} {s s' : State} (d : Datum) :
      DeclaresAll rest (s.declare name { datum := d }) s' → DeclaresAll (name :: rest) s s'

/-- A scope after code from elsewhere has run. -/
def Frame.Disturbed (frame frame' : Frame) : Prop :=
  ∀ name,
    match frame name with
    | none => frame' name = none
    | some v => ∃ v', frame' name = some v' ∧ v'.fixed = v.fixed ∧ (v.fixed = true → v' = v)

/-- What a call may do. -/
def Disturbs (s s' : State) : Prop := List.Forall₂ Frame.Disturbed s.frames s'.frames

/-- A scope that has the names, with any values. -/
def Frame.Binds (names : List String) (frame : Frame) : Prop :=
  ∀ name,
    match frame name with
    | none => name ∉ names
    | some v => name ∈ names ∧ v.fixed = false

/-! ### Values -/

/-- `i` is an index of an array of that length. -/
def inRange (i : Datum) (length : Nat) : Bool :=
  match i with
  | .number (some n) => 0 ≤ n && n < length
  | _ => false

/-- What an operator computes: comparisons of integers are exact, and one more than an
integer that is not negative is an integer not below it. -/
def Computes (op : BinOp) (v w r : Datum) : Prop :=
  match op, v, w with
  | .lt, .number (some n), .number (some m) => r = .boolean (n < m)
  | .ge, .number (some n), .number (some m) => r = .boolean (m ≤ n)
  | .add, .number (some n), .number (some m) =>
    0 ≤ n → m = 1 → ∃ k, r = .number (some k) ∧ n ≤ k
  | _, _, _ => True

/-- What a field holds: arrays have a length. -/
def Holds.field (s : State) (name : String) (v r : Datum) : Prop :=
  match name, v with
  | "length", .array address => r = .number (some (s.lengths address))
  | _, _ => True

section

variable {A E : Type}

/-! ### Assignments in a text -/

def Form.isAssign : Form E → Bool
  | .binary op => op.isAssign
  | _ => false

/-- `plain`: without the brackets around. -/
def Expr.plain : Expr A E → Expr A E
  | .node .paren [e] => plain e
  | e => e

def Expr.isName (name : String) (e : Expr A E) : Bool :=
  match e.plain with
  | .node (.identifier n) [] => n == name
  | _ => false

mutual

/-- An expression in the text assigns the name (`walk_expr`, `walk_stmt`). -/
def Expr.assigns (name : String) : Expr A E → Bool
  | .node form operands =>
    (form.isAssign && operands.head?.any (Expr.isName name)) || assignsAny name operands
  | .matchOn scrutinee arms => Expr.assigns name scrutinee || armsAssign name arms
  | .function _ callable => Callable.assigns name callable

def assignsAny (name : String) : List (Expr A E) → Bool
  | [] => false
  | e :: rest => Expr.assigns name e || assignsAny name rest

def Arm.assigns (name : String) : Arm A E → Bool
  | .mk _ _ body | .bodyless _ _ body => Expr.assigns name body

def armsAssign (name : String) : List (Arm A E) → Bool
  | [] => false
  | arm :: rest => Arm.assigns name arm || armsAssign name rest

def Param.assigns (name : String) : Param A E → Bool
  | .mk _ _ (some default) => Expr.assigns name default
  | .mk _ _ none => false

def paramsAssign (name : String) : List (Param A E) → Bool
  | [] => false
  | p :: rest => Param.assigns name p || paramsAssign name rest

def Callable.assigns (name : String) : Callable A E → Bool
  | .mk params _ body _ => paramsAssign name params || bodyAssigns name body

def optionAssigns (name : String) : Option (Expr A E) → Bool
  | some e => Expr.assigns name e
  | none => false

def Stmt.assigns (name : String) : Stmt A E → Bool
  | .tryCatch body _ _ catchBody => bodyAssigns name body || bodyAssigns name catchBody
  | .tupleBinding _ _ value _ | .binding _ _ value _ | .expr value => Expr.assigns name value
  | .unwrapBlock _ _ scrutinee body _ => Expr.assigns name scrutinee || bodyAssigns name body
  | .unwrapMatch _ _ scrutinee arms _ => Expr.assigns name scrutinee || armsAssign name arms
  | .function _ callable | .receiverMethod _ _ _ callable => Callable.assigns name callable
  | .ret value => optionAssigns name value
  | .ifElse condition thenBody elseBody =>
    Expr.assigns name condition || bodyAssigns name thenBody || bodyAssigns name elseBody
  | .block body => bodyAssigns name body
  | .forLoop _ init condition step body =>
    optionAssigns name init || optionAssigns name condition || optionAssigns name step ||
      bodyAssigns name body
  | .forOf _ _ iterable body => Expr.assigns name iterable || bodyAssigns name body
  | .breakLoop | .continueLoop | .declaration => false

def bodyAssigns (name : String) : List (Stmt A E) → Bool
  | [] => false
  | s :: rest => Stmt.assigns name s || bodyAssigns name rest

end

/-- `name = name + 1` -/
def isIncrement (name : String) (e : Expr A E) : Bool :=
  match e.plain with
  | .node (.binary .assign) [left, right] =>
    left.isName name &&
      match right.plain with
      | .node (.binary .add) [first, second] =>
        first.isName name &&
          match second.plain with
          | .node (.number (some n)) [] => n == 1
          | _ => false
      | _ => false
  | _ => false

/-- Only the step of the loop assigns the variable of its header. -/
def isFixed (name : String) (condition step : Option (Expr A E)) (body : List (Stmt A E)) : Bool :=
  !optionAssigns name condition && !bodyAssigns name body &&
    step.all fun e => isIncrement name e || !e.assigns name

/-! ### Runs -/

/-- Where a run returned: at a `return`, or at an arm without a body, of a match or of an
unwrap. -/
inductive Site (A E : Type)
  | value (value : Option (Expr A E))
  | arm (body : Expr A E)
  | unwrapArm (body : Expr A E)

/-- How a run ends. -/
inductive Outcome (A E : Type)
  /-- to the end, with the values of the expressions -/
  | done (data : List Datum)
  | threw
  | returned (site : Site A E)
  | broke
  | continued
  /-- an array was accessed at what is not one of its indices -/
  | outOfRange

def Outcome.isDone : Outcome A E → Bool
  | .done _ => true
  | _ => false

/-- What can be run. -/
inductive Code (A E : Type)
  | expr (e : Expr A E)
  | operands (es : List (Expr A E))
  /-- true, and nothing to do, when there is no expression -/
  | optional (e : Option (Expr A E))
  | arm (ofUnwrap : Bool) (arm : Arm A E)
  | stmt (s : Stmt A E)
  | body (body : List (Stmt A E))
  /-- a list of statements in a scope of its own, which binds some names -/
  | scope (names : List String) (body : List (Stmt A E))
  /-- the turns of a loop that are left -/
  | loop (condition step : Option (Expr A E)) (body : List (Stmt A E))
  | iterate (name : String) (body : List (Stmt A E))
  | prologue (params : List (Param A E))
  /-- a call of a function, in the scopes it was made in -/
  | invoke (callable : Callable A E)

/-- A form whose operands are all evaluated before it does anything. -/
def Form.isStrict : Form E → Bool
  | .binary op => !(op == .and || op == .or || op.isAssign)
  | .ternary | .jsx => false
  | _ => true

/-- What a form does with the values of its operands. -/
inductive Applies : Form E → List Datum → State → Outcome A E → State → Prop
  | identifier (name : String) (s : State) :
      Applies (.identifier name) [] s (.done [s.datum name]) s
  | number (value : Option Int) (s : State) :
      Applies (.number value) [] s (.done [.number value]) s
  | paren (v : Datum) (s : State) : Applies .paren [v] s (.done [v]) s
  | binary {op : BinOp} {v w r : Datum} (s : State) : op ≠ .pipe → Computes op v w r →
      Applies (.binary op) [v, w] s (.done [r]) s
  | pipe {v w : Datum} {s s' : State} (r : Datum) : Disturbs s s' →
      Applies (.binary .pipe) [v, w] s (.done [r]) s'
  | pipeThrew {v w : Datum} {s s' : State} : Disturbs s s' →
      Applies (.binary .pipe) [v, w] s .threw s'
  | field {name : String} {v r : Datum} {s : State} : Holds.field s name v r →
      Applies (.field name) [v] s (.done [r]) s
  | has (address : Nat) (i : Datum) (s : State) :
      Applies .has [.array address, i] s (.done [.boolean (inRange i (s.lengths address))]) s
  | call {data : List Datum} {s s' : State} (r : Datum) : Disturbs s s' →
      Applies .call data s (.done [r]) s'
  | callThrew {data : List Datum} {s s' : State} : Disturbs s s' →
      Applies .call data s .threw s'
  | index {bounded : Bool} {v i r : Datum} {s : State} :
      (∀ address, bounded = true → v = .array address → inRange i (s.lengths address) = true) →
      Applies (.index bounded) [v, i] s (.done [r]) s
  | indexOut {address : Nat} {i : Datum} {s : State} : inRange i (s.lengths address) = false →
      Applies (.index true) [.array address, i] s .outOfRange s
  | structLiteral {data : List Datum} (s : State) :
      Applies (.structLiteral false) data s (.done [.other]) s
  | structDefaults {data : List Datum} {s s' : State} : Disturbs s s' →
      Applies (.structLiteral true) data s (.done [.other]) s'
  | structThrew {data : List Datum} {s s' : State} : Disturbs s s' →
      Applies (.structLiteral true) data s .threw s'
  | await {v : Datum} {s s' : State} (r : Datum) : Disturbs s s' →
      Applies .await [v] s (.done [r]) s'
  | awaitThrew {v : Datum} {s s' : State} : Disturbs s s' → Applies .await [v] s .threw s'
  | unsafeBlock {data : List Datum} {s s' : State} (r : Datum) : Disturbs s s' →
      Applies .unsafeBlock data s (.done [r]) s'
  | throwCase (v : Datum) (s : State) : Applies .throwCase [v] s .threw s
  | other {data : List Datum} (form : E) (r : Datum) (s : State) :
      Applies (.other form) data s (.done [r]) s
  | otherThrew {data : List Datum} (form : E) (s : State) : Applies (.other form) data s .threw s

inductive Run : Code A E → State → Outcome A E → State → Prop
  -- operands, from left to right
  | operandsNil (s : State) : Run (.operands []) s (.done []) s
  | operandsCons {e : Expr A E} {es : List (Expr A E)} {v : Datum} {vs : List Datum}
      {s s₁ s₂ : State} : Run (.expr e) s (.done [v]) s₁ → Run (.operands es) s₁ (.done vs) s₂ →
      Run (.operands (e :: es)) s (.done (v :: vs)) s₂
  | operandsHead {e : Expr A E} {es : List (Expr A E)} {o : Outcome A E} {s s₁ : State} :
      Run (.expr e) s o s₁ → o.isDone = false → Run (.operands (e :: es)) s o s₁
  | operandsTail {e : Expr A E} {es : List (Expr A E)} {v : Datum} {o : Outcome A E}
      {s s₁ s₂ : State} : Run (.expr e) s (.done [v]) s₁ → Run (.operands es) s₁ o s₂ →
      o.isDone = false → Run (.operands (e :: es)) s o s₂
  -- expressions
  | strict {form : Form E} {es : List (Expr A E)} {vs : List Datum} {o : Outcome A E}
      {s s₁ s₂ : State} : form.isStrict = true → Run (.operands es) s (.done vs) s₁ →
      Applies form vs s₁ o s₂ → Run (.expr (.node form es)) s o s₂
  | strictStopped {form : Form E} {es : List (Expr A E)} {o : Outcome A E} {s s₁ : State} :
      form.isStrict = true → Run (.operands es) s o s₁ → o.isDone = false →
      Run (.expr (.node form es)) s o s₁
  | andFalse {l r : Expr A E} {s s₁ : State} : Run (.expr l) s (.done [.boolean false]) s₁ →
      Run (.expr (.node (.binary .and) [l, r])) s (.done [.boolean false]) s₁
  | andTrue {l r : Expr A E} {o : Outcome A E} {s s₁ s₂ : State} :
      Run (.expr l) s (.done [.boolean true]) s₁ → Run (.expr r) s₁ o s₂ →
      Run (.expr (.node (.binary .and) [l, r])) s o s₂
  | orTrue {l r : Expr A E} {s s₁ : State} : Run (.expr l) s (.done [.boolean true]) s₁ →
      Run (.expr (.node (.binary .or) [l, r])) s (.done [.boolean true]) s₁
  | orFalse {l r : Expr A E} {o : Outcome A E} {s s₁ s₂ : State} :
      Run (.expr l) s (.done [.boolean false]) s₁ → Run (.expr r) s₁ o s₂ →
      Run (.expr (.node (.binary .or) [l, r])) s o s₂
  | lazyStopped {op : BinOp} {l r : Expr A E} {o : Outcome A E} {s s₁ : State} :
      op = .and ∨ op = .or → Run (.expr l) s o s₁ → o.isDone = false →
      Run (.expr (.node (.binary op) [l, r])) s o s₁
  | ternary {b : Bool} {c t e : Expr A E} {o : Outcome A E} {s s₁ s₂ : State} :
      Run (.expr c) s (.done [.boolean b]) s₁ → Run (.expr (if b then t else e)) s₁ o s₂ →
      Run (.expr (.node .ternary [c, t, e])) s o s₂
  | ternaryStopped {c t e : Expr A E} {o : Outcome A E} {s s₁ : State} :
      Run (.expr c) s o s₁ → o.isDone = false → Run (.expr (.node .ternary [c, t, e])) s o s₁
  -- assignments evaluate the parts of their target before the right side
  | assignName {op : BinOp} {name : String} {r : Expr A E} {v v' : Datum} {s s₁ : State} :
      op.isAssign = true → Run (.expr r) s (.done [v]) s₁ → (op = .assign → v' = v) →
      Run (.expr (.node (.binary op) [.node (.identifier name) [], r])) s (.done [v'])
        (s₁.assign name v')
  | assignNameStopped {op : BinOp} {name : String} {r : Expr A E} {o : Outcome A E}
      {s s₁ : State} : op.isAssign = true → Run (.expr r) s o s₁ → o.isDone = false →
      Run (.expr (.node (.binary op) [.node (.identifier name) [], r])) s o s₁
  | assignField {op : BinOp} {name : String} {object r : Expr A E} {v w : Datum}
      {s s₁ s₂ : State} : op.isAssign = true → Run (.operands [object, r]) s (.done [v, w]) s₁ →
      Disturbs s₁ s₂ →
      Run (.expr (.node (.binary op) [.node (.field name) [object], r])) s (.done [w]) s₂
  | assignFieldStopped {op : BinOp} {name : String} {object r : Expr A E} {o : Outcome A E}
      {s s₁ : State} : op.isAssign = true → Run (.operands [object, r]) s o s₁ →
      o.isDone = false →
      Run (.expr (.node (.binary op) [.node (.field name) [object], r])) s o s₁
  | assignIndex {op : BinOp} {bounded : Bool} {object i r : Expr A E} {v w u : Datum}
      {o : Outcome A E} {s s₁ s₂ : State} : op.isAssign = true →
      Run (.operands [object, i, r]) s (.done [v, w, u]) s₁ →
      Applies (.index bounded) [v, w] s₁ o s₂ →
      Run (.expr (.node (.binary op) [.node (.index bounded) [object, i], r])) s o s₂
  | assignIndexStopped {op : BinOp} {bounded : Bool} {object i r : Expr A E} {o : Outcome A E}
      {s s₁ : State} : op.isAssign = true → Run (.operands [object, i, r]) s o s₁ →
      o.isDone = false →
      Run (.expr (.node (.binary op) [.node (.index bounded) [object, i], r])) s o s₁
  -- the parts of markup are run later, components at once
  | jsx {es : List (Expr A E)} {s s₁ : State} : Disturbs s s₁ →
      Run (.expr (.node .jsx es)) s (.done [.other]) s₁
  | jsxThrew {es : List (Expr A E)} {s s₁ : State} : Disturbs s s₁ →
      Run (.expr (.node .jsx es)) s .threw s₁
  | function (form : FunctionForm) (callable : Callable A E) (s : State) :
      Run (.expr (.function form callable)) s (.done [.other]) s
  | matchOn {scrutinee : Expr A E} {arms : List (Arm A E)} {a : Arm A E} {v : Datum}
      {o : Outcome A E} {s s₁ s₂ : State} : Run (.expr scrutinee) s (.done [v]) s₁ → a ∈ arms →
      Run (.arm false a) s₁ o s₂ → Run (.expr (.matchOn scrutinee arms)) s o s₂
  | matchStopped {scrutinee : Expr A E} {arms : List (Arm A E)} {o : Outcome A E}
      {s s₁ : State} : Run (.expr scrutinee) s o s₁ → o.isDone = false →
      Run (.expr (.matchOn scrutinee arms)) s o s₁
  | arm {ofUnwrap : Bool} {constructor : Option String} {names : List String} {body : Expr A E}
      {frame : Frame} {o : Outcome A E} {s s₁ : State} : frame.Binds names →
      Run (.expr body) (s.enter frame) o s₁ →
      Run (.arm ofUnwrap (.mk constructor names body)) s o s₁.leave
  | bodylessArm {ofUnwrap : Bool} {constructor : String} {names : List String}
      {body : Expr A E} {frame : Frame} {vs : List Datum} {s s₁ : State} : frame.Binds names →
      Run (.expr body) (s.enter frame) (.done vs) s₁ →
      Run (.arm ofUnwrap (.bodyless constructor names body)) s
        (.returned (if ofUnwrap then .unwrapArm body else .arm body)) s₁.leave
  | bodylessStopped {ofUnwrap : Bool} {constructor : String} {names : List String}
      {body : Expr A E} {frame : Frame} {o : Outcome A E} {s s₁ : State} : frame.Binds names →
      Run (.expr body) (s.enter frame) o s₁ → o.isDone = false →
      Run (.arm ofUnwrap (.bodyless constructor names body)) s o s₁.leave
  | optionalNone (s : State) : Run (.optional none) s (.done [.boolean true]) s
  | optionalSome {e : Expr A E} {o : Outcome A E} {s s₁ : State} : Run (.expr e) s o s₁ →
      Run (.optional (some e)) s o s₁
  -- lists of statements
  | bodyNil (s : State) : Run (.body []) s (.done []) s
  | bodyCons {first : Stmt A E} {rest : List (Stmt A E)} {vs : List Datum} {o : Outcome A E}
      {s s₁ s₂ : State} : Run (.stmt first) s (.done vs) s₁ → Run (.body rest) s₁ o s₂ →
      Run (.body (first :: rest)) s o s₂
  | bodyStopped {first : Stmt A E} {rest : List (Stmt A E)} {o : Outcome A E} {s s₁ : State} :
      Run (.stmt first) s o s₁ → o.isDone = false → Run (.body (first :: rest)) s o s₁
  | scope {names : List String} {body : List (Stmt A E)} {frame : Frame} {o : Outcome A E}
      {s s₁ : State} : frame.Binds names → Run (.body body) (s.enter frame) o s₁ →
      Run (.scope names body) s o s₁.leave
  -- statements
  | block {body : List (Stmt A E)} {o : Outcome A E} {s s₁ : State} :
      Run (.scope [] body) s o s₁ → Run (.stmt (.block body)) s o s₁
  | exprStmt {e : Expr A E} {o : Outcome A E} {s s₁ : State} : Run (.expr e) s o s₁ →
      Run (.stmt (.expr e)) s o s₁
  | tupleBinding {names : List String} {ty : Option A} {value : Expr A E} {isConst : Bool}
      {v : Datum} {frame : Frame} {s s₁ s₂ : State} : Run (.expr value) s (.done [v]) s₁ →
      DeclaresAll names s₁ s₂ → Run (.stmt (.tupleBinding names ty value isConst)) s (.done []) s₂
  | tupleStopped {names : List String} {ty : Option A} {value : Expr A E} {isConst : Bool}
      {o : Outcome A E} {s s₁ : State} : Run (.expr value) s o s₁ → o.isDone = false →
      Run (.stmt (.tupleBinding names ty value isConst)) s o s₁
  | binding {name : String} {ty : Option A} {value : Expr A E} {isConst : Bool} {v : Datum}
      {s s₁ : State} : Run (.expr value) s (.done [v]) s₁ →
      Run (.stmt (.binding name ty value isConst)) s (.done []) (s₁.declare name { datum := v })
  | bindingStopped {name : String} {ty : Option A} {value : Expr A E} {isConst : Bool}
      {o : Outcome A E} {s s₁ : State} : Run (.expr value) s o s₁ → o.isDone = false →
      Run (.stmt (.binding name ty value isConst)) s o s₁
  | unwrapPresent {name : String} {ty : Option A} {scrutinee : Expr A E}
      {body : List (Stmt A E)} {isConst : Bool} {v d : Datum} {s s₁ : State} :
      Run (.expr scrutinee) s (.done [v]) s₁ →
      Run (.stmt (.unwrapBlock name ty scrutinee body isConst)) s (.done [])
        (s₁.declare name { datum := d })
  | unwrapAbsent {name : String} {ty : Option A} {scrutinee : Expr A E} {body : List (Stmt A E)}
      {isConst : Bool} {v d : Datum} {vs : List Datum} {s s₁ s₂ : State} :
      Run (.expr scrutinee) s (.done [v]) s₁ → Run (.scope [] body) s₁ (.done vs) s₂ →
      Run (.stmt (.unwrapBlock name ty scrutinee body isConst)) s (.done [])
        (s₂.declare name { datum := d })
  | unwrapLeft {name : String} {ty : Option A} {scrutinee : Expr A E} {body : List (Stmt A E)}
      {isConst : Bool} {v : Datum} {o : Outcome A E} {s s₁ s₂ : State} :
      Run (.expr scrutinee) s (.done [v]) s₁ → Run (.scope [] body) s₁ o s₂ → o.isDone = false →
      Run (.stmt (.unwrapBlock name ty scrutinee body isConst)) s o s₂
  | unwrapStopped {name : String} {ty : Option A} {scrutinee : Expr A E} {body : List (Stmt A E)}
      {isConst : Bool} {o : Outcome A E} {s s₁ : State} : Run (.expr scrutinee) s o s₁ →
      o.isDone = false → Run (.stmt (.unwrapBlock name ty scrutinee body isConst)) s o s₁
  | unwrapOk {name : String} {ty : Option A} {scrutinee : Expr A E} {arms : List (Arm A E)}
      {isConst : Bool} {v d : Datum} {s s₁ : State} : Run (.expr scrutinee) s (.done [v]) s₁ →
      Run (.stmt (.unwrapMatch name ty scrutinee arms isConst)) s (.done [])
        (s₁.declare name { datum := d })
  | unwrapArm {name : String} {ty : Option A} {scrutinee : Expr A E} {arms : List (Arm A E)}
      {isConst : Bool} {a : Arm A E} {v d : Datum} {vs : List Datum} {s s₁ s₂ : State} :
      Run (.expr scrutinee) s (.done [v]) s₁ → a ∈ arms → Run (.arm true a) s₁ (.done vs) s₂ →
      Run (.stmt (.unwrapMatch name ty scrutinee arms isConst)) s (.done [])
        (s₂.declare name { datum := d })
  | unwrapArmLeft {name : String} {ty : Option A} {scrutinee : Expr A E} {arms : List (Arm A E)}
      {isConst : Bool} {a : Arm A E} {v : Datum} {o : Outcome A E} {s s₁ s₂ : State} :
      Run (.expr scrutinee) s (.done [v]) s₁ → a ∈ arms → Run (.arm true a) s₁ o s₂ →
      o.isDone = false → Run (.stmt (.unwrapMatch name ty scrutinee arms isConst)) s o s₂
  | unwrapMatchStopped {name : String} {ty : Option A} {scrutinee : Expr A E}
      {arms : List (Arm A E)} {isConst : Bool} {o : Outcome A E} {s s₁ : State} :
      Run (.expr scrutinee) s o s₁ → o.isDone = false →
      Run (.stmt (.unwrapMatch name ty scrutinee arms isConst)) s o s₁
  | functionStmt (name : String) (callable : Callable A E) (s : State) :
      Run (.stmt (.function name callable)) s (.done []) (s.declare name { datum := .other })
  | receiverMethod (receiverType receiverName name : String) (callable : Callable A E)
      (s : State) :
      Run (.stmt (.receiverMethod receiverType receiverName name callable)) s (.done []) s
  | declaration (s : State) : Run (.stmt .declaration) s (.done []) s
  | retNone (s : State) : Run (.stmt (.ret none)) s (.returned (.value none)) s
  | retSome {e : Expr A E} {vs : List Datum} {s s₁ : State} : Run (.expr e) s (.done vs) s₁ →
      Run (.stmt (.ret (some e))) s (.returned (.value (some e))) s₁
  | retStopped {e : Expr A E} {o : Outcome A E} {s s₁ : State} : Run (.expr e) s o s₁ →
      o.isDone = false → Run (.stmt (.ret (some e))) s o s₁
  | ifElse {b : Bool} {condition : Expr A E} {thenBody elseBody : List (Stmt A E)}
      {o : Outcome A E} {s s₁ s₂ : State} : Run (.expr condition) s (.done [.boolean b]) s₁ →
      Run (.scope [] (if b then thenBody else elseBody)) s₁ o s₂ →
      Run (.stmt (.ifElse condition thenBody elseBody)) s o s₂
  | ifStopped {condition : Expr A E} {thenBody elseBody : List (Stmt A E)} {o : Outcome A E}
      {s s₁ : State} : Run (.expr condition) s o s₁ → o.isDone = false →
      Run (.stmt (.ifElse condition thenBody elseBody)) s o s₁
  | tryBody {body catchBody : List (Stmt A E)} {name : String} {declared : Option A}
      {o : Outcome A E} {s s₁ : State} : Run (.scope [] body) s o s₁ → o ≠ .threw →
      Run (.stmt (.tryCatch body name declared catchBody)) s o s₁
  | tryCaught {body catchBody : List (Stmt A E)} {name : String} {declared : Option A}
      {o : Outcome A E} {s s₁ s₂ : State} : Run (.scope [] body) s .threw s₁ →
      Run (.scope [name] catchBody) s₁ o s₂ →
      Run (.stmt (.tryCatch body name declared catchBody)) s o s₂
  | tryRethrown {body catchBody : List (Stmt A E)} {name : String} {declared : A}
      {s s₁ : State} : Run (.scope [] body) s .threw s₁ →
      Run (.stmt (.tryCatch body name (some declared) catchBody)) s .threw s₁
  | breakLoop (s : State) : Run (.stmt .breakLoop) s .broke s
  | continueLoop (s : State) : Run (.stmt .continueLoop) s .continued s
  -- loops
  | forLoop {name : Option (String × Bool)} {init condition step : Option (Expr A E)}
      {body : List (Stmt A E)} {v : Datum} {o : Outcome A E} {s s₁ s₂ : State} :
      Run (.optional init) (s.enter fun _ => none) (.done [v]) s₁ →
      Run (.loop condition step body)
        (match name with
          | some (name, _) =>
            s₁.declare name { datum := v, fixed := isFixed name condition step body }
          | none => s₁) o s₂ →
      Run (.stmt (.forLoop name init condition step body)) s o s₂.leave
  | forStopped {name : Option (String × Bool)} {init condition step : Option (Expr A E)}
      {body : List (Stmt A E)} {o : Outcome A E} {s s₁ : State} :
      Run (.optional init) (s.enter fun _ => none) o s₁ → o.isDone = false →
      Run (.stmt (.forLoop name init condition step body)) s o s₁.leave
  | loopDone {condition step : Option (Expr A E)} {body : List (Stmt A E)} {s s₁ : State} :
      Run (.optional condition) s (.done [.boolean false]) s₁ →
      Run (.loop condition step body) s (.done []) s₁
  | loopStopped {condition step : Option (Expr A E)} {body : List (Stmt A E)} {o : Outcome A E}
      {s s₁ : State} : Run (.optional condition) s o s₁ → o.isDone = false →
      Run (.loop condition step body) s o s₁
  | loopBroke {condition step : Option (Expr A E)} {body : List (Stmt A E)} {s s₁ s₂ : State} :
      Run (.optional condition) s (.done [.boolean true]) s₁ → Run (.scope [] body) s₁ .broke s₂ →
      Run (.loop condition step body) s (.done []) s₂
  | loopLeft {condition step : Option (Expr A E)} {body : List (Stmt A E)} {o : Outcome A E}
      {s s₁ s₂ : State} : Run (.optional condition) s (.done [.boolean true]) s₁ →
      Run (.scope [] body) s₁ o s₂ → o.isDone = false → o ≠ .broke → o ≠ .continued →
      Run (.loop condition step body) s o s₂
  | loopTurn {condition step : Option (Expr A E)} {body : List (Stmt A E)} {v : Datum}
      {o o' : Outcome A E} {s s₁ s₂ s₃ s₄ : State} :
      Run (.optional condition) s (.done [.boolean true]) s₁ → Run (.scope [] body) s₁ o s₂ →
      o.isDone = true ∨ o = .continued → Run (.optional step) s₂ (.done [v]) s₃ →
      Run (.loop condition step body) s₃ o' s₄ → Run (.loop condition step body) s o' s₄
  | loopStepStopped {condition step : Option (Expr A E)} {body : List (Stmt A E)}
      {o o' : Outcome A E} {s s₁ s₂ s₃ : State} :
      Run (.optional condition) s (.done [.boolean true]) s₁ → Run (.scope [] body) s₁ o s₂ →
      o.isDone = true ∨ o = .continued → Run (.optional step) s₂ o' s₃ → o'.isDone = false →
      Run (.loop condition step body) s o' s₃
  | forOf {name : String} {isConst : Bool} {iterable : Expr A E} {body : List (Stmt A E)}
      {v : Datum} {o : Outcome A E} {s s₁ s₂ : State} : Run (.expr iterable) s (.done [v]) s₁ →
      Run (.iterate name body) s₁ o s₂ → Run (.stmt (.forOf name isConst iterable body)) s o s₂
  | forOfStopped {name : String} {isConst : Bool} {iterable : Expr A E} {body : List (Stmt A E)}
      {o : Outcome A E} {s s₁ : State} : Run (.expr iterable) s o s₁ → o.isDone = false →
      Run (.stmt (.forOf name isConst iterable body)) s o s₁
  | iterateDone (name : String) (body : List (Stmt A E)) (s : State) :
      Run (.iterate name body) s (.done []) s
  | iterateBroke {name : String} {body : List (Stmt A E)} {s s₁ : State} :
      Run (.scope [name] body) s .broke s₁ → Run (.iterate name body) s (.done []) s₁
  | iterateLeft {name : String} {body : List (Stmt A E)} {o : Outcome A E} {s s₁ : State} :
      Run (.scope [name] body) s o s₁ → o.isDone = false → o ≠ .broke → o ≠ .continued →
      Run (.iterate name body) s o s₁
  | iterateTurn {name : String} {body : List (Stmt A E)} {o o' : Outcome A E}
      {s s₁ s₂ : State} : Run (.scope [name] body) s o s₁ → o.isDone = true ∨ o = .continued →
      Run (.iterate name body) s₁ o' s₂ → Run (.iterate name body) s o' s₂
  -- calls: a default is evaluated for an argument that is not given
  | prologueNil (s : State) : Run (.prologue []) s (.done []) s
  | prologueGiven {names : List String} {ty : Option A} {default : Option (Expr A E)}
      {rest : List (Param A E)} {o : Outcome A E} {s s₁ s₂ : State} : DeclaresAll names s s₁ →
      Run (.prologue rest) s₁ o s₂ → Run (.prologue (.mk names ty default :: rest)) s o s₂
  | prologueDefault {names : List String} {ty : Option A} {default : Expr A E}
      {rest : List (Param A E)} {v : Datum} {o : Outcome A E} {s s₁ s₂ s₃ : State} :
      Run (.expr default) s (.done [v]) s₁ → DeclaresAll names s₁ s₂ →
      Run (.prologue rest) s₂ o s₃ → Run (.prologue (.mk names ty (some default) :: rest)) s o s₃
  | prologueStopped {names : List String} {ty : Option A} {default : Expr A E}
      {rest : List (Param A E)} {o : Outcome A E} {s s₁ : State} : Run (.expr default) s o s₁ →
      o.isDone = false → Run (.prologue (.mk names ty (some default) :: rest)) s o s₁
  | invoke {f : Callable A E} {vs : List Datum} {o : Outcome A E} {s s₁ s₂ : State} :
      Run (.prologue f.params) (s.enter fun _ => none) (.done vs) s₁ →
      Run (.body f.body) s₁ o s₂ → Run (.invoke f) s o s₂.leave
  | invokeStopped {f : Callable A E} {o : Outcome A E} {s s₁ : State} :
      Run (.prologue f.params) (s.enter fun _ => none) o s₁ → o.isDone = false →
      Run (.invoke f) s o s₁.leave

end

end Deka.Typeck
