/-
Deka/Syntax/Expressions.lean

Expressions (`parse/expr.rs`): the Pratt loop `parse_expr` and the prefixes `parse_prefix`.

The forms whose bodies are parsed elsewhere (patterns, statements and JSX) are taken over from
`Forms`; where they begin is decided here.
-/
import Deka.Syntax.TypeArgs
import Deka.Typeck.Syntax

namespace Deka.Parsing

open Deka.Syntax (Token TokenKind Pos Span Diagnostic)
open Deka.Typeck (BinOp)

inductive UnOp where
  | neg | not | plus
deriving DecidableEq, Repr

/-! ### Trees -/

/-- `ast::Expr`; `X` are the forms that are parsed elsewhere. -/
inductive ExprAst (X : Type) where
  /-- with the digits of the literal; its value is that of the text -/
  | number (digits : List Char) (span : Span)
  | string (value : List Char) (span : Span)
  /-- texts and expressions in turn, a text first and last -/
  | template (texts : List (List Char)) (exprs : List (ExprAst X)) (span : Span)
  | boolean (value : Bool) (span : Span)
  | none (span : Span)
  | identifier (name : List Char) (span : Span)
  | safe (expr : ExprAst X) (span : Span)
  | paren (expr : ExprAst X) (span : Span)
  | unary (op : UnOp) (operand : ExprAst X) (span : Span)
  | await (expr : ExprAst X) (span : Span)
  | array (elements : List (ExprAst X)) (span : Span)
  | spread (expr : ExprAst X) (span : Span)
  | object (fields : List (List Char × ExprAst X × Span)) (span : Span)
  | importMeta (span : Span)
  | unsafeBlock (source : List Char) (resultType : Option TypeAst) (span : Span)
  | bridge (kind action : List Char) (args : List (ExprAst X)) (span : Span)
  | fieldAccess (object : ExprAst X) (field : List Char) (span : Span)
  | enumConstructor (sharedOk : Bool) (enumName caseName : List Char) (payload : ExprAst X)
      (span : Span)
  | call (callee : ExprAst X) (typeArgs : List TypeAst) (args : List (ExprAst X)) (span : Span)
  | indexAccess (object index : ExprAst X) (span : Span)
  | structLiteral (name : List Char) (fields : List (List Char × ExprAst X × Span)) (span : Span)
  | ternary (condition thenBranch elseBranch : ExprAst X) (span : Span)
  | binary (op : BinOp) (left right : ExprAst X) (span : Span)
  | other (form : X)

/-- The name and the span of an identifier. -/
def ExprAst.identifier? {X : Type} : ExprAst X → Option (List Char × Span)
  | .identifier name span => some (name, span)
  | _ => Option.none

/-! ### Operators -/

/-- `util::infix_info`: how an operator binds to the left and to the right. -/
def infixInfo : TokenKind → Option (Nat × Nat × BinOp)
  | .eq => some (0, 0, .assign)
  | .plusEq => some (0, 0, .addAssign)
  | .minusEq => some (0, 0, .subAssign)
  | .starEq => some (0, 0, .mulAssign)
  | .slashEq => some (0, 0, .divAssign)
  | .percentEq => some (0, 0, .modAssign)
  | .or => some (2, 3, .or)
  | .and => some (3, 4, .and)
  | .pipe => some (3, 4, .pipe)
  | .bar => some (4, 5, .bitOr)
  | .caret => some (5, 6, .bitXor)
  | .ampersand => some (6, 7, .bitAnd)
  | .eqEq => some (7, 8, .eq)
  | .tripleEq => some (7, 8, .eq)
  | .notEq => some (7, 8, .ne)
  | .lt => some (9, 10, .lt)
  | .le => some (9, 10, .le)
  | .gt => some (9, 10, .gt)
  | .ge => some (9, 10, .ge)
  | .shl => some (11, 12, .shl)
  | .shr => some (11, 12, .shr)
  | .plus => some (13, 14, .add)
  | .minus => some (13, 14, .sub)
  | .star => some (15, 16, .mul)
  | .slash => some (15, 16, .div)
  | .percent => some (15, 16, .mod)
  | _ => none

/-- `JUXTAPOSITION_ARG_PREC` -/
def juxtapositionArgPrec : Nat := 17

/-- `can_start_juxtaposition_arg` -/
def canStartJuxtapositionArg : TokenKind → Bool
  | .number | .string | .backtickString | .kwTrue | .kwFalse | .kwNone | .identifier => true
  | _ => false

/-- `kind_is_name_capable` -/
def kindIsNameCapable : TokenKind → Bool
  | .identifier | .kwTrue | .kwFalse | .kwNone | .kwConst | .kwLet | .kwMut | .kwFunction | .kwFn
  | .kwStruct | .kwEnum | .kwInterface | .kwType | .kwAlias | .kwImport | .kwExport | .kwFrom
  | .kwAs | .kwIf | .kwElse | .kwFor | .kwOf | .kwReturn | .kwMatch | .kwUnsafe | .kwBuild
  | .kwBridge | .kwAwait | .kwAsync | .kwPub | .kwBreak | .kwContinue => true
  | _ => false

/-- `builtin_enum_constructor`, without the flag that no caller reads -/
def builtinEnumConstructor (name : List Char) : Option (List Char) :=
  if name = "Some".toList then some "Option".toList
  else if name = "Ok".toList then some "Result".toList
  else if name = "Err".toList then some "Result".toList
  else if name = "Throw".toList then some "Exception".toList
  else none

/-! ### Literals -/

/-- `unescape_string` -/
def unescapeString : List Char → List Char
  | '\\' :: 'n' :: rest => '\n' :: unescapeString rest
  | '\\' :: 'r' :: rest => '\r' :: unescapeString rest
  | '\\' :: 't' :: rest => '\t' :: unescapeString rest
  | '\\' :: '\\' :: rest => '\\' :: unescapeString rest
  | '\\' :: '"' :: rest => '"' :: unescapeString rest
  | '\\' :: '\u0027' :: rest => '\u0027' :: unescapeString rest
  | '\\' :: '0' :: rest => '\u0000' :: unescapeString rest
  | '\\' :: c :: rest => '\\' :: c :: unescapeString rest
  | ['\\'] => ['\\']
  | c :: rest => c :: unescapeString rest
  | [] => []

/-- The digits at the front. -/
def digits (text : List Char) : List Char := text.takeWhile Char.isDigit

/-- What may stand after the digits of a number: an exponent with digits, or nothing. -/
def isExponent : List Char → Bool
  | [] => true
  | c :: rest =>
      (c == 'e' || c == 'E') &&
        match rest with
        | '+' :: ds | '-' :: ds => !ds.isEmpty && ds.all Char.isDigit
        | ds => !ds.isEmpty && ds.all Char.isDigit

/-- Whether `str::parse::<f64>` takes the text, which the lexer starts with a digit. -/
def isNumber (text : List Char) : Bool :=
  let whole := digits text
  match text.drop whole.length with
  | '.' :: rest =>
      (!whole.isEmpty || !(digits rest).isEmpty) && isExponent (rest.drop (digits rest).length)
  | rest => !whole.isEmpty && isExponent rest

/-! ### Looking ahead -/

namespace Parser

/-- `peek_after_newlines` -/
def peekAfterNewlines (s : Parser) : TokenKind :=
  match (s.tokens.drop s.pos).dropWhile (·.kind = .newline) with
  | t :: _ => t.kind
  | [] => .eof

/-- The kind of the token `n` after this one. -/
def kindAt (s : Parser) (n : Nat) : Option TokenKind := (s.tokens[s.pos + n]?).map Token.kind

/-- `looks_like_struct_literal` -/
def looksLikeStructLiteral (s : Parser) : Bool :=
  match s.kindAt 1 with
  | some .rBrace => true
  | some .identifier => s.kindAt 2 == some .colon
  | _ => false

end Parser

/-- The loop of `paren_group_starts_arrow_at`: whether `=>` stands behind the bracket that closes
the outermost one of `depth`. -/
def arrowBehind (depth : Nat) : List TokenKind → Bool
  | [] => false
  | .lParen :: rest | .lBracket :: rest | .lBrace :: rest => arrowBehind (depth + 1) rest
  | .rParen :: rest | .rBracket :: rest | .rBrace :: rest =>
      if depth - 1 = 0 then rest.head? == some .fatArrow else arrowBehind (depth - 1) rest
  | .eof :: _ => false
  | _ :: rest => arrowBehind depth rest

/-- `paren_group_starts_arrow_at`, from `n` tokens after this one -/
def parenGroupStartsArrowAt (s : Parser) (n : Nat) : Bool :=
  s.kindAt n == some .lParen && arrowBehind 0 ((s.tokens.drop (s.pos + n)).map Token.kind)

/-- The loop of `next_lt_closes_before_struct_literal` -/
def closesBeforeStruct (depth : Nat) : List TokenKind → Bool
  | [] => false
  | .lt :: rest => closesBeforeStruct (depth + 1) rest
  | .gt :: rest =>
      if depth - 1 = 0 then
        match rest with
        | .lBrace :: .rBrace :: _ => true
        | .lBrace :: .identifier :: .colon :: _ => true
        | _ => false
      else closesBeforeStruct (depth - 1) rest
  | _ :: rest => closesBeforeStruct depth rest

def nextLtClosesBeforeStructLiteral (s : Parser) : Bool :=
  s.currentKind == .lt && closesBeforeStruct 1 ((s.tokens.drop (s.pos + 1)).map Token.kind)

/-! ### The parser -/

/-- The forms whose bodies are parsed by other files, with the parser of expressions one level
deeper: `matchOn` and `build` from behind their keyword, the others from where they begin. -/
structure Forms (X : Type) where
  matchOn : (Nat → Parse (ExprAst X)) → Pos × Nat → Parse X
  arrow : (Nat → Parse (ExprAst X)) → Pos × Nat → Bool → Parse X
  fnExpression : (Nat → Parse (ExprAst X)) → Pos × Nat → Parse X
  build : (Nat → Parse (ExprAst X)) → Pos × Nat → Parse X
  jsx : (Nat → Parse (ExprAst X)) → Pos × Nat → Parse X

namespace Parse

variable {X α : Type}

/-- `enter_recursion`, and the guard it gives back -/
def nested (body : Parse α) : Parse α := fun s =>
  let (r, s') := body { s with depth := s.depth + 1 }
  (r, { s' with depth := s.depth })

/-- `self.error(..); return None` -/
def fail (message : String) : Parse α := do
  error message
  giveUp

/-- `if !self.at(close)` around a list -/
def unlessAt (close : TokenKind) (list : Nat → Parse (List α)) : Parse (List α) := do
  if ← isAt close then return []
  else list (← rounds)

/-- A type at the depth of the state. -/
def parseTypeHere : Parse TypeAst := do
  parseType (maxNestingDepth - (← getState).depth)

def expectFieldName : Parse (List Char) := do
  skipNewlines
  let s ← getState
  if kindIsNameCapable s.currentKind then
    advance
    return s.current.text
  else fail (expected s.currentKind "identifier")

def expectObjectKey : Parse (List Char) := do
  let s ← getState
  if kindIsNameCapable s.currentKind then
    if s.currentKind ≠ .identifier ∧ s.kindAt 1 ≠ some .colon then
      fail (expected s.currentKind "object key")
    else
      advance
      return s.current.text
  else if s.currentKind = .string then
    advance
    return s.current.text
  else fail (expected s.currentKind "object key")

section

-- `parse_expr`, one level deeper
variable (parseExpr : Nat → Parse (ExprAst X))

def parseExpression : Parse (ExprAst X) := do
  skipNewlines
  parseExpr 0

/-! #### The loop -/

/-- `fn arg` -/
def juxtapose (start : Pos × Nat) (left : ExprAst X) : Parse (ExprAst X) := do
  let arg ← parseExpr juxtapositionArgPrec
  return .call left [] [arg] (← spanFrom start)

/-- Whether the next token is the argument of a callee without parentheses. -/
def juxtaposes (left : ExprAst X) (s : Parser) : Bool :=
  match left.identifier? with
  | some (_, span) =>
      span.endPos.line == s.current.span.start.line && canStartJuxtapositionArg s.currentKind
  | none => false

def member (start : Pos × Nat) (left : ExprAst X) : Parse (ExprAst X) := do
  skipNewlines
  advance
  let field ← expectFieldName
  return .fieldAccess left field (← spanFrom start)

/-- The arguments of a call after the `(`, up to its `)`; newlines stand around the commas. -/
def callArgs : Nat → Parse (List (ExprAst X))
  | 0 => giveUp
  | fuel + 1 => do
    let first ← parseExpression parseExpr
    skipNewlines
    if ← eat .comma then
      skipNewlines
      let rest ← callArgs fuel
      return first :: rest
    else return [first]

/-- The node of a call; the prelude has constructors of one argument. -/
def callNode (left : ExprAst X) (typeArgs : List TypeAst) (args : List (ExprAst X))
    (span : Span) : ExprAst X :=
  match typeArgs, left.identifier?, args with
  | [], some (name, _), [arg] =>
      match builtinEnumConstructor name with
      | some enumName => .enumConstructor (name = "Ok".toList) enumName name arg span
      | none => .call left [] [arg] span
  | _, _, _ => .call left typeArgs args span

def call (start : Pos × Nat) (left : ExprAst X) (typeArgs : List TypeAst) :
    Parse (ExprAst X) := do
  advance
  skipNewlines
  let args ← unlessAt .rParen (callArgs parseExpr)
  skipNewlines
  expect .rParen
  return callNode left typeArgs args (← spanFrom start)

def index (start : Pos × Nat) (left : ExprAst X) : Parse (ExprAst X) := do
  advance
  skipNewlines
  let index ← parseExpression parseExpr
  skipNewlines
  expect .rBracket
  return .indexAccess left index (← spanFrom start)

def structField : Parse (List Char × ExprAst X × Span) := do
  let start ← spanStart
  let name ← expectIdentifier
  expect .colon
  let value ← parseExpression parseExpr
  let span ← spanFrom start
  return (name, value, span)

def structLiteral (start : Pos × Nat) (name : List Char) : Parse (ExprAst X) := do
  advance
  let fields ← unlessAt .rBrace (commaList true (structField parseExpr))
  expect .rBrace
  return .structLiteral name fields (← spanFrom start)

def ternary (start : Pos × Nat) (left : ExprAst X) : Parse (ExprAst X) := do
  skipNewlines
  advance
  let thenBranch ← parseExpr 0
  skipNewlines
  expect .colon
  skipNewlines
  let elseBranch ← parseExpr 0
  return .ternary left thenBranch elseBranch (← spanFrom start)

def binary (start : Pos × Nat) (left : ExprAst X) (rbp : Nat) (op : BinOp) :
    Parse (ExprAst X) := do
  skipNewlines
  advance
  skipNewlines
  let right ← parseExpr rbp
  return .binary op left right (← spanFrom start)

def constructionTypeArgs (name : List Char) : String :=
  "explicit type arguments are not supported at construction sites; `" ++ String.ofList name ++
    "` infers its type arguments from the field values — write `" ++ String.ofList name ++
    " \x7b ... \x7d` (rfd#56)"

/-- The end of the round, after the postfix forms. -/
def infixRound (start : Pos × Nat) (minPrec : Nat) (nextKind : TokenKind) (left : ExprAst X) :
    Parse (Option (ExprAst X)) := do
  if nextKind = .question ∧ minPrec ≤ 1 then
    return some (← ternary parseExpr start left)
  else
    match infixInfo nextKind with
    | none => return none
    | some (lbp, rbp, op) =>
        if lbp < minPrec then return none
        else
          let s ← getState
          match left.identifier? with
          | some (name, _) =>
              if nextKind = .lt ∧ nextLtClosesBeforeStructLiteral s = true then
                fail (constructionTypeArgs name)
              else return some (← binary parseExpr start left rbp op)
          | none => return some (← binary parseExpr start left rbp op)

/-- The round after the type arguments. -/
def postfixRound (start : Pos × Nat) (minPrec : Nat) (nextKind : TokenKind) (left : ExprAst X)
    (typeArgs : List TypeAst) : Parse (Option (ExprAst X)) := do
  if ← isAt .lParen then return some (← call parseExpr start left typeArgs)
  else if ← isAt .lBracket then return some (← index parseExpr start left)
  else
    let s ← getState
    match left.identifier? with
    | some (name, _) =>
        if s.currentKind = .lBrace ∧ s.looksLikeStructLiteral = true then
          return some (← structLiteral parseExpr start name)
        else infixRound parseExpr start minPrec nextKind left
    | none => infixRound parseExpr start minPrec nextKind left

/-- `self.try_parse_type_args().unwrap_or(&[])`, where they are looked for -/
def typeArgsOrNone : Parse (List TypeAst) := fun s =>
  match explicitTypeArgs s with
  | (some types, s') => (some types, s')
  | (none, s') => (some [], s')

/-- One round of the loop of `parse_expr`: what the expression grows to, or `none` at its end. -/
def exprRound (start : Pos × Nat) (minPrec : Nat) (left : ExprAst X) :
    Parse (Option (ExprAst X)) := do
  let s ← getState
  let nextKind := s.peekAfterNewlines
  if juxtaposes left s then return some (← juxtapose parseExpr start left)
  else if nextKind = .dot then return some (← member start left)
  else postfixRound parseExpr start minPrec nextKind left (← typeArgsOrNone)

def exprLoop (start : Pos × Nat) (minPrec : Nat) : Nat → ExprAst X → Parse (ExprAst X)
  | 0, _ => giveUp
  | fuel + 1, left => do
    match ← exprRound parseExpr start minPrec left with
    | some grown => exprLoop start minPrec fuel grown
    | none => return left

/-! #### Prefixes -/

/-- The interpolations of a template, each with the text behind it. -/
def templateParts : Nat → Parse (List (List Char) × List (ExprAst X))
  | 0 => giveUp
  | fuel + 1 => do
    if ← isAt .templateExprStart then
      advance
      let expr ← parseExpression parseExpr
      expect .templateExprEnd
      let s ← getState
      if s.currentKind ≠ .backtickString then
        fail ("expected `\x7d` to close the template literal, found `" ++ tokenName s.currentKind ++
          "`")
      else
        advance
        let (texts, exprs) ← templateParts fuel
        return (s.current.text :: texts, expr :: exprs)
    else return ([], [])

def parseSpreadableExpr : Parse (ExprAst X) := do
  let start ← spanStart
  if ← eat .spread then
    let expr ← parseExpression parseExpr
    return .spread expr (← spanFrom start)
  else parseExpression parseExpr

def objectField : Parse (List Char × ExprAst X × Span) := do
  let start ← spanStart
  if ← eat .spread then
    let expr ← parseExpression parseExpr
    return ([], expr, ← spanFrom start)
  else
    let key ← expectObjectKey
    expect .colon
    let value ← parseExpression parseExpr
    return (key, value, ← spanFrom start)

/-- The elements of an array or the fields of an object, perhaps with a last comma. -/
def elements (close : TokenKind) (item : Parse α) : Nat → Parse (List α)
  | 0 => giveUp
  | fuel + 1 => do
    let first ← item
    if ← eat .comma then
      skipNewlines
      if ← isAt close then return [first]
      else
        let rest ← elements close item fuel
        return first :: rest
    else return [first]

def importMeta (start : Pos × Nat) : Parse (ExprAst X) := do
  advance
  if ← isAt .lParen then
    fail ("dynamic `import(...)` of a computed specifier is not supported; " ++
      "imports must be static (rfd#12)")
  else if ← eat .dot then
    let name ← expectFieldName
    if name ≠ "meta".toList then
      fail ("expected `import.meta`, found `import." ++ String.ofList name ++ "`")
    else return .importMeta (← spanFrom start)
  else fail ("expected `.meta` after `import`, found `" ++
    tokenName (← getState).currentKind ++ "`")

/-- The success type of `unsafe<T>`. -/
def unsafeType : Parse (Option TypeAst) := do
  if ← isAt .lt then
    advance
    let ty ← parseTypeHere
    if ← isAt .gt then
      advance
      return some ty
    else fail "expected `>` after `unsafe` result type"
  else return none

def unsafeExpression (start : Pos × Nat) : Parse (ExprAst X) := do
  advance
  let resultType ← unsafeType
  if ← isAt .lBrace then
    advance
    let s ← getState
    let source := if s.currentKind = .rawJs then s.current.text else []
    if s.currentKind = .rawJs then advance
    if ← isAt .rBrace then
      advance
      return .unsafeBlock source resultType (← spanFrom start)
    else fail "unterminated `unsafe` block; expected `\x7d`"
  else fail "expected `\x7b` after `unsafe`"

def bridgeExpression (start : Pos × Nat) : Parse (ExprAst X) := do
  advance
  let kind ← expectIdentifier
  if ← eat .dot then
    let action ← expectIdentifier
    if ← eat .lParen then
      let args ← unlessAt .rParen (commaList true (parseExpression parseExpr))
      expect .rParen
      return .bridge kind action args (← spanFrom start)
    else fail "expected `(` after bridge action"
  else fail ("expected `.` between bridge kind and action, " ++
    "e.g. `bridge crypto.random_bytes(...)`")

def safeExpression (start : Pos × Nat) : Parse (ExprAst X) := do
  advance
  advance
  skipNewlines
  let expr ← parseExpression parseExpr
  skipNewlines
  if ← isAt .rBrace then
    advance
    return .safe expr (← spanFrom start)
  else fail "expected `\x7d` after safe catalog call"

def parenthesized (start : Pos × Nat) : Parse (ExprAst X) := do
  advance
  skipNewlines
  let expr ← parseExpression parseExpr
  skipNewlines
  expect .rParen
  return .paren expr (← spanFrom start)

/-- The operand of a prefix operator. -/
def prefixed (node : ExprAst X → Span → ExprAst X) (start : Pos × Nat) : Parse (ExprAst X) := do
  advance
  let operand ← parseExpr 16
  return node operand (← spanFrom start)

variable (forms : Forms X)

/-- A form of another file. -/
def form (p : Parse X) : Parse (ExprAst X) := do
  return .other (← p)

def asyncExpression (start : Pos × Nat) : Parse (ExprAst X) := do
  let s ← getState
  if s.kindAt 1 = some .kwFn then form (forms.fnExpression parseExpr start)
  else if s.kindAt 1 = some .lParen ∧ parenGroupStartsArrowAt s 1 = true then
    advance
    form (forms.arrow parseExpr start true)
  else fail "expected `fn` or `(…) =>` after `async`"

def parsePrefix : Parse (ExprAst X) := do
  skipNewlines
  let start ← spanStart
  let s ← getState
  match s.currentKind with
  | .number =>
      let digits := s.current.text.filter (· ≠ '_')
      if isNumber digits then
        advance
        return .number digits (← spanFrom start)
      else fail ("invalid number literal `" ++ String.ofList s.current.text ++ "`")
  | .string =>
      advance
      return .string (unescapeString s.current.text) (← spanFrom start)
  | .backtickString =>
      advance
      let (texts, exprs) ← templateParts parseExpr (← rounds)
      return .template (s.current.text :: texts) exprs (← spanFrom start)
  | .kwTrue =>
      advance
      return .boolean true (← spanFrom start)
  | .kwFalse =>
      advance
      return .boolean false (← spanFrom start)
  | .kwNone =>
      advance
      return .none (← spanFrom start)
  | .identifier =>
      if s.current.text = "safe".toList ∧ s.kindAt 1 = some .lBrace then
        safeExpression parseExpr start
      else
        advance
        return .identifier s.current.text (← spanFrom start)
  | .lParen =>
      if parenGroupStartsArrowAt s 0 then form (forms.arrow parseExpr start false)
      else parenthesized parseExpr start
  | .minus => prefixed parseExpr (.unary .neg) start
  | .plus => prefixed parseExpr (.unary .plus) start
  | .not => prefixed parseExpr (.unary .not) start
  | .kwMatch =>
      advance
      form (forms.matchOn parseExpr start)
  | .kwAwait => prefixed parseExpr .await start
  | .kwAsync => asyncExpression parseExpr forms start
  | .kwFn => form (forms.fnExpression parseExpr start)
  | .kwUnsafe => unsafeExpression start
  | .kwBuild =>
      advance
      form (forms.build parseExpr start)
  | .kwBridge => bridgeExpression parseExpr start
  | .lt => form (forms.jsx parseExpr start)
  | .lBracket =>
      advance
      let items ← unlessAt .rBracket (elements .rBracket (parseSpreadableExpr parseExpr))
      expect .rBracket
      return .array items (← spanFrom start)
  | .lBrace =>
      advance
      let fields ← unlessAt .rBrace (elements .rBrace (objectField parseExpr))
      expect .rBrace
      return .object fields (← spanFrom start)
  | .kwImport => importMeta start
  | .kwSuper => fail "`super` is reserved and not yet available"
  | kind => fail ("expected expression, found `" ++ tokenName kind ++ "`")

/-- The body of `parse_expr` -/
def exprBody (minPrec : Nat) : Parse (ExprAst X) := do
  skipNewlines
  let start ← spanStart
  let left ← parsePrefix parseExpr forms
  let s ← getState
  match left.identifier? with
  | some (name, _) =>
      if s.currentKind = .fatArrow then
        fail ("arrow function parameters must be parenthesized: write `(" ++ String.ofList name ++
          ") =>` instead of `" ++ String.ofList name ++ " =>`")
      else exprLoop parseExpr start minPrec (← rounds) left
  | none => exprLoop parseExpr start minPrec (← rounds) left

end

/-- `parse_expr`, with as many levels left as the first argument says. -/
def parseExpr (forms : Forms X) : Nat → Nat → Parse (ExprAst X)
  | 0, _ => fail ("nesting too deep (limit is " ++ toString maxNestingDepth ++ " levels)")
  | levels + 1, minPrec => nested (exprBody (parseExpr forms levels) forms minPrec)

end Parse

end Deka.Parsing
