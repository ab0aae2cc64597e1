/-
Deka/Syntax/Lexer.lean

The lexer of the language: `next_token` with its modes for JSX children, template literals and
raw JavaScript bodies.

`none` is a panic: a slice off a character boundary or a subtraction below zero.  The state keeps
the position as a `Cursor`; byte offsets are the sizes of what has been passed.
-/
import Mathlib
import Deka.Lib.Cursor
import Deka.Lib.Text

namespace Deka.Syntax

open Lib

/-- The character classes that the standard library takes from the Unicode tables. -/
class Unicode where
  isAlphabetic : Char → Bool
  isNumeric : Char → Bool
  isAlphabetic_ascii : ∀ c : Char, c.toNat < 128 → isAlphabetic c = c.isAlpha
  isNumeric_ascii : ∀ c : Char, c.toNat < 128 → isNumeric c = c.isDigit

/-- The character classes as far as ASCII goes. -/
@[reducible] def asciiOnly : Unicode where
  isAlphabetic := Char.isAlpha
  isNumeric := Char.isDigit
  isAlphabetic_ascii _ _ := rfl
  isNumeric_ascii _ _ := rfl

inductive TokenKind where
  | number | bigInt | string | backtickString | rawJs | kwTrue | kwFalse | kwNone
  | identifier
  | kwConst | kwLet | kwMut | kwFunction | kwFn | kwStruct | kwEnum | kwInterface | kwType
  | kwAlias | kwImport | kwExport | kwFrom | kwAs | kwIf | kwElse | kwFor | kwOf | kwReturn
  | kwMatch | kwUnsafe | kwBuild | kwBridge | kwAwait | kwAsync | kwSuper | kwPub | kwBreak
  | kwContinue
  | plus | minus | star | slash | percent | plusEq | minusEq | starEq | slashEq | percentEq
  | eq | eqEq | tripleEq | notEq | lt | le | gt | ge | and | or | not | ampersand | pipe | bar
  | caret | shl | shr
  | lParen | rParen | lBrace | rBrace | templateExprStart | templateExprEnd | lBracket | rBracket
  | comma | semicolon | colon | doubleColon | dot | arrow | fatArrow | question | spread
  | jsxText
  | newline | comment | eof | error
  deriving DecidableEq, Repr

structure Pos where
  line : Nat
  column : Nat
  deriving DecidableEq, Repr

structure Span where
  start : Pos
  endPos : Pos
  byteStart : Nat
  byteEnd : Nat
  deriving DecidableEq, Repr

structure Token where
  kind : TokenKind
  text : List Char
  span : Span
  deriving DecidableEq, Repr

inductive Severity where
  | error | warning | info
  deriving DecidableEq, Repr

structure Diagnostic where
  severity : Severity
  line : Nat
  column : Nat
  message : String
  helpText : Option String
  underlineLength : Nat
  deriving DecidableEq, Repr

def Diagnostic.error (line column : Nat) (message : String) : Diagnostic :=
  { severity := .error, line, column, message, helpText := none, underlineLength := 1 }

/-- Position inside an in-progress JSX construct. -/
inductive JsxFrame where
  | openTag
  | selfClose
  | closeTag
  | braces (depth : Nat)
  | text
  deriving DecidableEq, Repr

/-- Position inside an in-progress template literal. -/
inductive TemplateFrame where
  | text
  | interp (depth : Nat)
  deriving DecidableEq, Repr

/-- The state of the lexer.  The stacks have their top first. -/
structure Lexer (source : List Char) where
  cursor : Cursor source
  diagnostics : List Diagnostic
  jsxStack : List JsxFrame
  templateStack : List TemplateFrame
  pendingTemplateExprStart : Bool
  prevSignificant : Option TokenKind
  unsafeExpectBrace : Bool
  unsafeTypeEnd : Nat
  rawDepth : Nat
  rawStartPos : Pos
  rawStartByte : Nat

/-! ### Slices of the source by byte offsets -/

def dropBytes : List Char → Nat → Option (List Char)
  | chars, 0 => some chars
  | [], _ + 1 => none
  | c :: chars, n + 1 => if c.utf8Size ≤ n + 1 then dropBytes chars (n + 1 - c.utf8Size) else none

def takeBytes : List Char → Nat → Option (List Char)
  | _, 0 => some []
  | [], _ + 1 => none
  | c :: chars, n + 1 =>
    if c.utf8Size ≤ n + 1 then (takeBytes chars (n + 1 - c.utf8Size)).map (c :: ·) else none

/-- `&source[lo..hi]` -/
def sliceBytes (source : List Char) (lo hi : Nat) : Option (List Char) :=
  if lo ≤ hi then (dropBytes source lo).bind fun chars => takeBytes chars (hi - lo) else none

/-- A subtraction of one that panics at zero. -/
def checkedPred : Nat → Option Nat
  | 0 => none
  | n + 1 => some n

variable {source : List Char}

def posAt (c : Cursor source) : Pos := { line := c.line, column := c.column }

def spanFrom (start stop : Cursor source) : Span :=
  { start := posAt start, endPos := posAt stop, byteStart := start.pos, byteEnd := stop.pos }

/-! ### How far the token loops go -/

/-- The body of a string and whether it was closed. -/
def stringLen (quote : Char) : List Char → Nat × Bool
  | [] => (0, false)
  | [c] => if c = '\\' then (1, false) else (1, c == quote)
  | c :: d :: rest =>
    if c = '\\' then
      let (n, terminated) := stringLen quote rest
      (n + 2, terminated)
    else if c = quote then (1, true)
    else
      let (n, terminated) := stringLen quote (d :: rest)
      (n + 1, terminated)

inductive RunEnd where
  | eof | backtick | interp
  deriving DecidableEq, Repr

/-- A run of template text and what it ends at. -/
def runLen : List Char → Nat × RunEnd
  | [] => (0, .eof)
  | [c] => if c = '\u0060' then (0, .backtick) else (1, .eof)
  | c :: d :: rest =>
    if c = '\\' then
      let (n, stop) := runLen rest
      (n + 2, stop)
    else if c = '\u0060' then (0, .backtick)
    else if c = '$' ∧ d = '{' then (0, .interp)
    else
      let (n, stop) := runLen (d :: rest)
      (n + 1, stop)

/-- A number without its `n`, and whether a dot was seen.  The digits after an exponent are read
by the same loop. -/
def numberLen (sawDot sawExp : Bool) : List Char → Nat × Bool
  | [] => (0, sawDot)
  | [c] => if c.isDigit || c == '_' then (1, sawDot) else (0, sawDot)
  | c :: d :: rest =>
    if c.isDigit || c == '_' then
      let (n, dot) := numberLen sawDot sawExp (d :: rest)
      (n + 1, dot)
    else if c = '.' ∧ !sawDot ∧ !sawExp ∧ d.isDigit then
      let (n, dot) := numberLen true sawExp (d :: rest)
      (n + 1, dot)
    else if (c = 'e' ∨ c = 'E') ∧ !sawExp ∧ d.isDigit then
      let (n, dot) := numberLen sawDot true (d :: rest)
      (n + 1, dot)
    else if (c = 'e' ∨ c = 'E') ∧ !sawExp ∧ (d = '+' ∨ d = '-') ∧ (rest.head?.any Char.isDigit) then
      let (n, dot) := numberLen sawDot true rest
      (n + 2, dot)
    else (0, sawDot)

/-- An underscore that does not sit between two digits. -/
def misplacedUnderscore (prev : Char) : List Char → Bool
  | [] => false
  | c :: rest =>
    (c == '_' && (!prev.isDigit || !rest.head?.any Char.isDigit)) || misplacedUnderscore c rest

/-- The inside of a block comment with its `*/`, and whether that was there. -/
def blockLen : List Char → Nat × Bool
  | [] => (0, false)
  | [_] => (1, false)
  | c :: d :: rest =>
    if c = '*' ∧ d = '/' then (2, true)
    else
      let (n, terminated) := blockLen (d :: rest)
      (n + 1, terminated)

/-- The inside of a line comment. -/
def lineLen (chars : List Char) : Nat := (chars.takeWhile fun c => c != '\n').length

/-- A regex literal after its first slash. -/
def regexLen (inClass : Bool) : List Char → Nat
  | [] => 0
  | [_] => 1
  | c :: d :: rest =>
    if c = '\\' then regexLen inClass rest + 2
    else if c = '[' ∧ !inClass then regexLen true (d :: rest) + 1
    else if c = ']' ∧ inClass then regexLen false (d :: rest) + 1
    else if c = '/' ∧ !inClass then
      1 + ((d :: rest).takeWhile Char.isAlpha).length
    else regexLen inClass (d :: rest) + 1

/-! ### Raw JavaScript -/

/-- Is the `/` at the cursor likely the start of a regex literal? -/
def looksLikeRegexStart (c : Cursor source) : Bool :=
  match c.passed.find? fun ch => !Text.isWhitespace ch with
  | none => true
  | some ch => ch ∈ "(,=:[\x7b;!&|+-*%<>?~^".toList

/-- The `//` or `/*` comment, regex literal or division at the cursor. -/
def skipSlash (c : Cursor source) : Cursor.Later (c.skip 1).1 :=
  match c.peek 1 with
  | some '/' => (c.skip 1).1.skip (1 + lineLen (c.rest.drop 2))
  | some '*' => (c.skip 1).1.skip (1 + (blockLen (c.rest.drop 2)).1)
  | _ =>
    if looksLikeRegexStart c then (c.skip 1).1.skip (regexLen false (c.rest.drop 1))
    else (c.skip 1).1.stay

theorem skip_lt {c : Cursor source} {ch : Char} {tail : List Char} (h : c.rest = ch :: tail)
    (n : Nat) : (c.skip (n + 1)).1.rest.length < c.rest.length := by
  rw [c.skip_rest, h, List.length_drop, List.length_cons]
  omega

mutual

/-- The inside of a template literal. -/
def skipTemplateLiteral (c : Cursor source) : Cursor.Later c :=
  match _h : c.rest with
  | [] => c.stay
  | ch :: rest =>
    if ch = '\\' then (c.skip 2).andThen (skipTemplateLiteral (c.skip 2).1)
    else if ch = '\u0060' then c.skip 1
    else if ch = '$' ∧ rest.head? = some '{' then
      let inner := skipInterpolation (c.skip 2).1 0
      (c.skip 2).andThen (inner.andThen (skipTemplateLiteral inner.1))
    else (c.skip 1).andThen (skipTemplateLiteral (c.skip 1).1)
termination_by (c.rest.length, 0)
decreasing_by
  all_goals
    apply Prod.Lex.left
    first
    | exact skip_lt ‹_› _
    | exact Nat.lt_of_le_of_lt (Cursor.Later.length_le _) (skip_lt ‹_› _)

/-- The inside of an interpolation, with the number of braces open in it. -/
def skipInterpolation (c : Cursor source) (depth : Nat) : Cursor.Later c :=
  match _h : c.rest with
  | [] => c.stay
  | ch :: _ =>
    if ch = '{' then (c.skip 1).andThen (skipInterpolation (c.skip 1).1 (depth + 1))
    else if ch = '}' then
      match depth with
      | 0 => c.skip 1
      | depth + 1 => (c.skip 1).andThen (skipInterpolation (c.skip 1).1 depth)
    else
      let inner := skipRaw c ch
      (c.skip 1).andThen (inner.andThen (skipInterpolation inner.1 depth))
termination_by (c.rest.length, 2)
decreasing_by
  all_goals
    first
    | exact Prod.Lex.left _ _ (skip_lt ‹_› _)
    | exact Prod.Lex.left _ _ (Nat.lt_of_le_of_lt (Cursor.Later.length_le _) (skip_lt ‹_› _))
    | exact Prod.Lex.right _ Nat.one_lt_two

/-- A string, template literal, comment or regex literal that starts with `ch`, else one
character. -/
def skipRaw (c : Cursor source) (ch : Char) : Cursor.Later (c.skip 1).1 :=
  if ch = '"' ∨ ch = '\u0027' then (c.skip 1).1.skip (stringLen ch (c.rest.drop 1)).1
  else if ch = '\u0060' then skipTemplateLiteral (c.skip 1).1
  else if ch = '/' then skipSlash c
  else (c.skip 1).1.stay
termination_by (c.rest.length, 1)
decreasing_by
  rcases Nat.lt_or_eq_of_le (c.skip 1).length_le with h | h
  · exact Prod.Lex.left _ _ h
  · rw [h]
    exact Prod.Lex.right _ Nat.zero_lt_one

end

/-- The body of an `unsafe` block up to its closing brace, with the number of braces open in it. -/
def skipRawJsBody (c : Cursor source) (depth : Nat) : Cursor.Later c :=
  match _h : c.rest with
  | [] => c.stay
  | ch :: _ =>
    if ch = '{' then (c.skip 1).andThen (skipRawJsBody (c.skip 1).1 (depth + 1))
    else if ch = '}' then
      match depth with
      | 0 => c.stay
      | depth + 1 => (c.skip 1).andThen (skipRawJsBody (c.skip 1).1 depth)
    else
      let inner := skipRaw c ch
      (c.skip 1).andThen (inner.andThen (skipRawJsBody inner.1 depth))
termination_by c.rest.length
decreasing_by
  all_goals
    first
    | exact skip_lt ‹_› _
    | exact Nat.lt_of_le_of_lt (Cursor.Later.length_le _) (skip_lt ‹_› _)

def endsExpression : Option TokenKind → Bool
  | some .identifier | some .number | some .bigInt | some .string | some .backtickString
  | some .kwTrue | some .kwFalse | some .kwNone | some .rParen | some .rBracket | some .rBrace
  | some .gt | some .shr | some .rawJs => true
  | _ => false

namespace Lexer

def new (source : List Char) : Lexer source where
  cursor := Cursor.start source
  diagnostics := []
  jsxStack := []
  templateStack := []
  pendingTemplateExprStart := false
  prevSignificant := none
  unsafeExpectBrace := false
  unsafeTypeEnd := 0
  rawDepth := 0
  rawStartPos := { line := 1, column := 1 }
  rawStartByte := 0

def current (l : Lexer source) : Option Char := l.cursor.current

/-- Step past `n` characters. -/
def advance (l : Lexer source) (n : Nat) : Lexer source :=
  { l with cursor := (l.cursor.skip n).1 }

def report (l : Lexer source) (at_ : Cursor source) (message help : String) (length : Nat) :
    Lexer source :=
  { l with
    diagnostics := l.diagnostics ++
      [{ severity := .error, line := at_.line, column := at_.column, message,
         helpText := some help, underlineLength := length }] }

/-- Report an error at a token, without help. -/
def reject (l : Lexer source) (start : Cursor source) (message : String) : Lexer source :=
  { l with diagnostics := l.diagnostics ++ [Diagnostic.error start.line start.column message] }

/-- The token between the cursors of two states, with the text of its slice. -/
def tokenFrom (start stop : Lexer source) (kind : TokenKind) : Option (Token × Lexer source) :=
  (sliceBytes source start.cursor.pos stop.cursor.pos).map fun text =>
    ({ kind, text, span := spanFrom start.cursor stop.cursor }, stop)

/-- A token whose text is given. -/
def punct (l : Lexer source) (kind : TokenKind) (text : String) : Token × Lexer source :=
  let stop := l.advance text.toList.length
  ({ kind, text := text.toList, span := spanFrom l.cursor stop.cursor }, stop)

def error (l : Lexer source) (message : String) : Option (Token × Lexer source) :=
  (tokenFrom l (l.advance 1) .error).map fun result =>
    (result.1, result.2.reject l.cursor message)

def skipWhitespace (l : Lexer source) : Lexer source :=
  l.advance (l.cursor.rest.takeWhile fun c => c == ' ' || c == '\t' || c == '\r').length

/-- A run of JSX text, up to the next `<` or `{` or the end. -/
def readJsxText (l : Lexer source) : Option (Token × Lexer source) :=
  tokenFrom l (l.advance (l.cursor.rest.takeWhile fun c => !(c == '<' || c == '{')).length)
    .jsxText

/-- Can the previous significant token end an expression? -/
def prevEndsExpression (l : Lexer source) : Bool := endsExpression l.prevSignificant

/-- Bookkeeping for a `>` that closes a JSX tag. -/
def closeJsxTag : List JsxFrame → List JsxFrame
  | .openTag :: below => .text :: below
  | .selfClose :: below => below
  | .closeTag :: .text :: below => below
  | .closeTag :: below => below
  | stack => stack

/-- Bookkeeping for a `{`: the innermost construct counts it. -/
def openFrames : List JsxFrame → List TemplateFrame → List JsxFrame × List TemplateFrame
  | [], .interp depth :: below => ([], .interp (depth + 1) :: below)
  | [], template => ([], template)
  | .braces depth :: below, template => (.braces (depth + 1) :: below, template)
  | jsx, template => (.braces 1 :: jsx, template)

/-- Bookkeeping for a `}`, with its kind: outside JSX it may close an interpolation. -/
def closeFrames : List JsxFrame → List TemplateFrame →
    Option (TokenKind × List JsxFrame × List TemplateFrame)
  | [], .interp 0 :: below => some (.templateExprEnd, [], .text :: below)
  | [], .interp (depth + 1) :: below => some (.rBrace, [], .interp depth :: below)
  | .braces 1 :: below, template => some (.rBrace, below, template)
  | .braces depth :: below, template =>
    (checkedPred depth).map fun depth => (.rBrace, .braces depth :: below, template)
  | jsx, template => some (.rBrace, jsx, template)

def readString (l : Lexer source) : Option (Token × Lexer source) :=
  match l.current with
  | none => none
  | some quote => do
    let (len, terminated) := stringLen quote (l.cursor.rest.drop 1)
    let stop := l.advance (1 + len)
    let contentEnd ← if terminated then checkedPred stop.cursor.pos else some stop.cursor.pos
    let text ← sliceBytes source (l.advance 1).cursor.pos contentEnd
    let stop :=
      if terminated then stop
      else stop.report l.cursor "unterminated string literal" "add a closing quote" 1
    some ({ kind := .string, text, span := spanFrom l.cursor stop.cursor }, stop)

/-- One run of template text, from the cursor up to the next unescaped `${` or the closing
backtick. -/
def readTemplateText (l : Lexer source) : Option (Token × Lexer source) :=
  let (len, stop) := runLen l.cursor.rest
  (tokenFrom l (l.advance len) .backtickString).map fun result =>
    (result.1,
      match stop with
      | .eof =>
        { result.2.report l.cursor "unterminated backtick string" "add a closing backtick" 1 with
          templateStack := l.templateStack.tail }
      | .backtick => { result.2.advance 1 with templateStack := l.templateStack.tail }
      | .interp =>
        { result.2 with
          templateStack := .interp 0 :: l.templateStack.tail
          pendingTemplateExprStart := true })

def readNumber (l : Lexer source) : Option (Token × Lexer source) := do
  let (len, sawDot) := numberLen false false l.cursor.rest
  let digits ← tokenFrom l (l.advance len) .number
  let (token, stop) ←
    if digits.2.current = some 'n' then tokenFrom l (digits.2.advance 1) .bigInt else some digits
  let stop :=
    if misplacedUnderscore '\x00' digits.1.text then
      stop.reject l.cursor "invalid placement of underscore in numeric literal"
    else stop
  let stop :=
    if 1 < utf8Len token.text ∧ token.text.head? = some '0' ∧ !sawDot ∧
        !(token.text[1]?.any fun c => c ∈ "xXbBoO".toList) then
      stop.reject l.cursor "leading-zero octal-style integers are not allowed in DekaScript"
    else stop
  some (token, stop)

end Lexer

def keyword (text : List Char) : TokenKind :=
  match String.ofList text with
  | "true" => .kwTrue
  | "false" => .kwFalse
  | "None" => .kwNone
  | "const" => .kwConst
  | "let" => .kwLet
  | "mut" => .kwMut
  | "function" => .kwFunction
  | "fn" => .kwFn
  | "struct" => .kwStruct
  | "enum" => .kwEnum
  | "interface" => .kwInterface
  | "type" => .kwType
  | "alias" => .kwAlias
  | "import" => .kwImport
  | "export" => .kwExport
  | "from" => .kwFrom
  | "as" => .kwAs
  | "if" => .kwIf
  | "else" => .kwElse
  | "for" => .kwFor
  | "of" => .kwOf
  | "return" => .kwReturn
  | "match" => .kwMatch
  | "unsafe" => .kwUnsafe
  | "build" => .kwBuild
  | "bridge" => .kwBridge
  | "await" => .kwAwait
  | "async" => .kwAsync
  | "super" => .kwSuper
  | "pub" => .kwPub
  | "break" => .kwBreak
  | "continue" => .kwContinue
  | _ => .identifier

/-- The operators and delimiters that no mode changes, longest first. -/
def punctuation : List (String × TokenKind) :=
  [("(", .lParen), (")", .rParen), ("[", .lBracket), ("]", .rBracket), (",", .comma),
    (";", .semicolon), ("::", .doubleColon), (":", .colon), ("...", .spread), (".", .dot),
    ("+=", .plusEq), ("+", .plus), ("->", .arrow), ("-=", .minusEq), ("-", .minus),
    ("*=", .starEq), ("*", .star), ("%=", .percentEq), ("%", .percent), ("===", .tripleEq),
    ("==", .eqEq), ("=>", .fatArrow), ("=", .eq), ("!=", .notEq), ("!", .not), ("&&", .and),
    ("&", .ampersand), ("||", .or), ("|>", .pipe), ("|", .bar), ("^", .caret), ("?", .question)]

/-- The offset after the `>` that closes the angle-bracket group at byte `i`, the end of the
source, or the brace before that. -/
def matchingAngleEnd (i depth : Nat) : List Char → Option Nat
  | [] => some i
  | c :: rest =>
    if c = '<' then matchingAngleEnd (i + 1) (depth + 1) rest
    else if c = '>' then
      match depth with
      | 0 => none
      | 1 => some (i + 1)
      | depth + 2 => matchingAngleEnd (i + 1) (depth + 1) rest
    else if c = '{' then some i
    else matchingAngleEnd (i + c.utf8Size) depth rest

namespace Lexer

/-- Newlines are insignificant for what a `<` is taken for. -/
def noted (l : Lexer source) (kind : TokenKind) : Lexer source :=
  if kind = .newline then l else { l with prevSignificant := some kind }

/-- The body of an `unsafe` block.  It began where the state says. -/
def readRawJsBody (l : Lexer source) (depth : Nat) : Option (Token × Lexer source) :=
  let stop := (skipRawJsBody l.cursor depth).1
  (sliceBytes source l.rawStartByte stop.pos).map fun text =>
    ({ kind := .rawJs, text,
       span := { start := l.rawStartPos, endPos := posAt stop, byteStart := l.rawStartByte,
                 byteEnd := stop.pos } },
      { l with cursor := stop, rawDepth := 0 })

/-- A comment whose first slash has been consumed; the token spans both. -/
def commentFrom (l stop : Lexer source) : Option (Token × Lexer source) := do
  let column ← checkedPred l.cursor.column
  let startByte ← checkedPred l.cursor.pos
  let text ← sliceBytes source startByte stop.cursor.pos
  some ({ kind := .comment, text,
          span := { start := { line := l.cursor.line, column }, endPos := posAt stop.cursor,
                    byteStart := startByte, byteEnd := stop.cursor.pos } }, stop)

def readLineComment (l : Lexer source) : Option (Token × Lexer source) :=
  commentFrom l (l.advance (1 + lineLen (l.cursor.rest.drop 1)))

def readBlockComment (l : Lexer source) : Option (Token × Lexer source) :=
  let (len, terminated) := blockLen (l.cursor.rest.drop 1)
  (commentFrom l (l.advance (1 + len))).map fun result =>
    (result.1,
      if terminated then result.2
      else
        { result.2 with
          diagnostics := result.2.diagnostics ++
            [{ severity := .error, line := result.1.span.start.line,
               column := result.1.span.start.column, message := "unterminated block comment",
               helpText := some "add \u0060*/\u0060 to close the comment", underlineLength := 2 }] })

/-- `<` or `{` in the children of an element. -/
def jsxChild (l : Lexer source) (ch : Char) : Option (Token × Lexer source) :=
  if ch = '<' then
    let (token, stop) := l.punct .lt "<"
    let frame := if stop.current = some '/' then JsxFrame.closeTag else JsxFrame.openTag
    some (token, { stop with jsxStack := frame :: l.jsxStack })
  else if ch = '{' then
    let (token, stop) := l.punct .lBrace "\x7b"
    some (token, { stop with jsxStack := .braces 1 :: l.jsxStack })
  else l.readJsxText

def openBrace (l : Lexer source) : Option (Token × Lexer source) :=
  let (token, stop) := l.punct .lBrace "\x7b"
  let (jsxStack, templateStack) := openFrames l.jsxStack l.templateStack
  some (token, { stop with jsxStack, templateStack })

def closeBrace (l : Lexer source) : Option (Token × Lexer source) :=
  let (token, stop) := l.punct .rBrace "\x7d"
  (closeFrames l.jsxStack l.templateStack).map fun (kind, jsxStack, templateStack) =>
    ({ token with kind }, { stop with jsxStack, templateStack })

def slash (l : Lexer source) : Option (Token × Lexer source) :=
  match (l.advance 1).current, l.jsxStack with
  | some '/', _ => (l.advance 1).readLineComment
  | some '*', _ => (l.advance 1).readBlockComment
  | some '=', _ => some (l.punct .slashEq "/=")
  | some '>', .openTag :: below =>
    let (token, stop) := l.punct .slash "/"
    some (token, { stop with jsxStack := .selfClose :: below })
  | _, _ => some (l.punct .slash "/")

def less (l : Lexer source) : Option (Token × Lexer source) :=
  match (l.advance 1).current with
  | some '=' => some (l.punct .le "<=")
  | some '<' => some (l.punct .shl "<<")
  | next =>
    let (token, stop) := l.punct .lt "<"
    if next ≠ some '/' ∧ !l.unsafeExpectBrace ∧ !l.prevEndsExpression then
      some (token, { stop with jsxStack := .openTag :: l.jsxStack })
    else some (token, stop)

def greater (l : Lexer source) : Option (Token × Lexer source) :=
  match (l.advance 1).current with
  | some '=' => some (l.punct .ge ">=")
  | some '>' => some (l.punct .shr ">>")
  | _ =>
    let (token, stop) := l.punct .gt ">"
    some (token, { stop with jsxStack := closeJsxTag l.jsxStack })

/-- The end of the source. -/
def eofToken (l : Lexer source) : Token × Lexer source :=
  ({ kind := .eof, text := [], span := spanFrom l.cursor l.cursor },
    if l.templateStack.isEmpty then l
    else
      { l.report l.cursor "unterminated template literal" "add a closing backtick" 1 with
        templateStack := [] })

variable [Unicode]

def isWordChar (c : Char) : Bool :=
  Unicode.isAlphabetic c || Unicode.isNumeric c || c == '_'

def readIdentifier (l : Lexer source) : Option (Token × Lexer source) :=
  let len := (l.cursor.rest.takeWhile isWordChar).length
  (tokenFrom l (l.advance len) .identifier).map fun result =>
    let kind := keyword result.1.text
    ({ result.1 with kind },
      { result.2 with unsafeExpectBrace := result.2.unsafeExpectBrace || kind == .kwUnsafe })

/-- A token of ordinary code, by its first character. -/
def lexChar (l : Lexer source) : Option (Token × Lexer source) :=
  match l.current with
  | none => some l.eofToken
  | some ch =>
    if ch = '\n' then some (l.punct .newline "\n")
    else if ch = '"' ∨ ch = '\u0027' then l.readString
    else if ch = '\u0060' then
      ({ l.advance 1 with templateStack := .text :: l.templateStack }).readTemplateText
    else if ch.isDigit then l.readNumber
    else if ch.isAlpha ∨ ch = '_' ∨ Unicode.isAlphabetic ch then l.readIdentifier
    else if ch = '{' then l.openBrace
    else if ch = '}' then l.closeBrace
    else if ch = '/' then l.slash
    else if ch = '<' then l.less
    else if ch = '>' then l.greater
    else
      match punctuation.find? fun entry => entry.1.toList.isPrefixOf l.cursor.rest with
      | some (text, kind) => some (l.punct kind text)
      | none => l.error (s!"unexpected character '{ch}'")

def templateExprStart (l : Lexer source) : Option (Token × Lexer source) :=
  some ({ l with pendingTemplateExprStart := false }.punct .templateExprStart "$\x7b")

/-- Inside a JSX tag `unsafe` is a name, and no block follows. -/
def cancelUnsafe (l : Lexer source) : Lexer source :=
  match l.jsxStack with
  | .openTag :: _ | .selfClose :: _ | .closeTag :: _ =>
    if l.unsafeTypeEnd ≤ l.cursor.pos then { l with unsafeExpectBrace := false } else l
  | _ => l

/-- The token after `unsafe`. -/
def lexUnsafe (l : Lexer source) : Option (Token × Lexer source) :=
  if l.current = some '<' then
    (matchingAngleEnd l.cursor.pos 0 l.cursor.rest).bind fun typeEnd =>
      { l with unsafeTypeEnd := typeEnd }.lexChar
  else
    let l := { l with unsafeExpectBrace := false }
    if l.current = some '{' then
      let (token, stop) := l.punct .lBrace "\x7b"
      some (token,
        { stop with
          rawDepth := 1
          rawStartPos := posAt stop.cursor
          rawStartByte := stop.cursor.pos })
    else l.error "expected \u0060\x7b\u0060 or \u0060<\u0060 after \u0060unsafe\u0060"

/-- A token of ordinary code. -/
def lexCode (l : Lexer source) : Option (Token × Lexer source) :=
  let l := l.skipWhitespace.cancelUnsafe
  if l.unsafeExpectBrace ∧ l.unsafeTypeEnd ≤ l.cursor.pos then l.lexUnsafe else l.lexChar

/-- What a template literal or ordinary code goes on with. -/
def lexTemplate (l : Lexer source) : Option (Token × Lexer source) :=
  if l.templateStack.head? = some .text then l.readTemplateText
  else if l.pendingTemplateExprStart then l.templateExprStart
  else l.lexCode

def nextTokenInner (l : Lexer source) : Option (Token × Lexer source) :=
  match l.rawDepth, l.jsxStack, l.current with
  | depth + 1, _, _ => l.readRawJsBody depth
  | 0, .text :: _, some ch => l.jsxChild ch
  | 0, _, _ => l.lexTemplate

def nextToken (l : Lexer source) : Option (Token × Lexer source) :=
  l.nextTokenInner.map fun (token, l) => (token, l.noted token.kind)

end Lexer

/-- The kinds of the next tokens. -/
def Lexer.kinds [Unicode] : Nat → Lexer source → List TokenKind
  | 0, _ => []
  | n + 1, l =>
    match l.nextToken with
    | none => []
    | some (token, l') => token.kind :: kinds n l'

/-- The tokens that `next_token` gives from a state up to the end of the source. -/
inductive Lexes [Unicode] : Lexer source → List Token → Lexer source → Prop where
  | eof {l l' : Lexer source} {token : Token} (next : l.nextToken = some (token, l'))
      (kind : token.kind = .eof) : Lexes l [token] l'
  | step {l m l' : Lexer source} {token : Token} {tokens : List Token}
      (next : l.nextToken = some (token, m)) (kind : token.kind ≠ .eof)
      (more : Lexes m tokens l') : Lexes l (token :: tokens) l'

end Deka.Syntax
