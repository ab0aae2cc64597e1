/-
Deka/Syntax/Parser.lean

The state of the parser and its token helpers (`parse/mod.rs`).

A parse function is a function of the state that may give up, as `Option` with `?` is in the source.
-/
import Deka.Syntax.Lexer

namespace Deka.Parsing

open Deka.Syntax (Token TokenKind Pos Span Diagnostic sliceBytes)

/-- `MAX_NESTING_DEPTH` -/
def maxNestingDepth : Nat := 64

/-- `Span::dummy` -/
def dummySpan : Span := ⟨⟨1, 1⟩, ⟨1, 1⟩, 0, 0⟩

/-- `util::eof_token` -/
def eofToken : Token := { kind := .eof, text := [], span := dummySpan }

/-- `util::token_name` -/
def tokenName : TokenKind → String
  | .bar => "`|`"
  | .number => "number"
  | .bigInt => "bigint"
  | .string => "string"
  | .backtickString => "backtick string"
  | .rawJs => "raw JavaScript"
  | .kwTrue => "`true`"
  | .kwFalse => "`false`"
  | .kwNone => "`none`"
  | .identifier => "identifier"
  | .kwConst => "`const`"
  | .kwLet => "`let`"
  | .kwMut => "`mut`"
  | .kwFunction => "`function`"
  | .kwFn => "`fn`"
  | .kwStruct => "`struct`"
  | .kwEnum => "`enum`"
  | .kwInterface => "`interface`"
  | .kwType => "`type`"
  | .kwAlias => "`alias`"
  | .kwImport => "`import`"
  | .kwExport => "`export`"
  | .kwFrom => "`from`"
  | .kwAs => "`as`"
  | .kwIf => "`if`"
  | .kwElse => "`else`"
  | .kwFor => "`for`"
  | .kwOf => "`of`"
  | .kwReturn => "`return`"
  | .kwMatch => "`match`"
  | .kwUnsafe => "`unsafe`"
  | .kwBuild => "`build`"
  | .kwBridge => "`bridge`"
  | .kwAwait => "`await`"
  | .kwAsync => "`async`"
  | .kwSuper => "`super`"
  | .kwPub => "`pub`"
  | .kwBreak => "`break`"
  | .kwContinue => "`continue`"
  | .plus => "`+`"
  | .minus => "`-`"
  | .star => "`*`"
  | .slash => "`/`"
  | .percent => "`%`"
  | .plusEq => "`+=`"
  | .minusEq => "`-=`"
  | .starEq => "`*=`"
  | .slashEq => "`/=`"
  | .percentEq => "`%=`"
  | .eq => "`=`"
  | .eqEq => "`==`"
  | .tripleEq => "`===`"
  | .notEq => "`!=`"
  | .lt => "`<`"
  | .le => "`<=`"
  | .gt => "`>`"
  | .ge => "`>=`"
  | .and => "`&&`"
  | .or => "`||`"
  | .not => "`!`"
  | .ampersand => "`&`"
  | .pipe => "`|`"
  | .caret => "`^`"
  | .shl => "`<<`"
  | .shr => "`>>`"
  | .lParen => "`(`"
  | .rParen => "`)`"
  | .lBrace => "`\x7b`"
  | .rBrace => "`\x7d`"
  | .lBracket => "`[`"
  | .rBracket => "`]`"
  | .comma => "`,`"
  | .semicolon => "`;`"
  | .colon => "`:`"
  | .doubleColon => "`::`"
  | .dot => "`.`"
  | .arrow => "`->`"
  | .fatArrow => "`=>`"
  | .question => "`?`"
  | .spread => "`...`"
  | .templateExprStart => "`$\x7b`"
  | .templateExprEnd => "`\x7d`"
  | .jsxText => "JSX text"
  | .newline => "newline"
  | .comment => "comment"
  | .eof => "end of file"
  | .error => "error"

structure Parser where
  source : List Char
  tokens : List Token
  pos : Nat
  prev : Token
  errors : List Diagnostic
  /-- live recursion depth -/
  depth : Nat

namespace Parser

def current (s : Parser) : Token := s.tokens.getD s.pos eofToken

def currentKind (s : Parser) : TokenKind := s.current.kind

def atEnd (s : Parser) : Bool := s.currentKind == .eof

def advanced (s : Parser) : Parser :=
  { s with prev := s.current, pos := if s.atEnd then s.pos else s.pos + 1 }

def withError (s : Parser) (message : String) : Parser :=
  let pos := s.current.span.start
  { s with errors := s.errors ++ [Diagnostic.error pos.line pos.column message] }

/-- The newlines among the next tokens. -/
def skippedNewlines (s : Parser) : List Token → Parser
  | t :: rest => if t.kind = .newline then skippedNewlines s.advanced rest else s
  | [] => s

end Parser

/-- A function of the parser that may give up. -/
def Parse (α : Type) : Type := Parser → Option α × Parser

namespace Parse

variable {α β : Type}

def bind (p : Parse α) (f : α → Parse β) : Parse β := fun s =>
  match p s with
  | (some a, s') => f a s'
  | (none, s') => (none, s')

instance : Monad Parse where
  pure a := fun s => (some a, s)
  bind := bind

/-! ### Token helpers -/

/-- `?` on `None` -/
def giveUp : Parse α := fun s => (none, s)

def getState : Parse Parser := fun s => (some s, s)

def advance : Parse Unit := fun s => (some (), s.advanced)

def error (message : String) : Parse Unit := fun s => (some (), s.withError message)

/-- `at` -/
def isAt (kind : TokenKind) : Parse Bool := fun s => (some (s.currentKind == kind), s)

def eat (kind : TokenKind) : Parse Bool := do
  if ← isAt kind then
    advance
    return true
  else
    return false

def expected (found : TokenKind) (what : String) : String :=
  "expected " ++ what ++ ", found `" ++ tokenName found ++ "`"

def expect (kind : TokenKind) : Parse Unit := do
  if ← eat kind then return ()
  else
    error (expected (← getState).currentKind ("`" ++ tokenName kind ++ "`"))
    giveUp

def skipNewlines : Parse Unit := fun s => (some (), s.skippedNewlines (s.tokens.drop s.pos))

def expectIdentifier : Parse (List Char) := do
  skipNewlines
  if ← isAt .identifier then
    let name := (← getState).current.text
    advance
    return name
  else
    error (expected (← getState).currentKind "identifier")
    giveUp

def spanStart : Parse (Pos × Nat) := fun s =>
  (some (s.current.span.start, s.current.span.byteStart), s)

def spanFrom (start : Pos × Nat) : Parse Span := fun s =>
  (some ⟨start.1, s.prev.span.endPos, start.2, s.prev.span.byteEnd⟩, s)

/-- Diagnose the colon, and consume it. -/
def rejectReturnTypeColon : Parse Unit := do
  if ← isAt .colon then
    error "return types take no colon; remove `:`"
    advance

end Parse

end Deka.Parsing
