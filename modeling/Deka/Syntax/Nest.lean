/-
Deka/Syntax/Nest.lean

Well-nested compositions of code: braces, template literals with interpolations and JSX elements,
to any depth.

A composition has a text (`render`) and the tokens that its structure asks for (`tokens`).  `Fits`
says that the text can be taken apart at the places where the composition has its tokens;
`Clean` leaves out the two shapes whose tokens the lexer takes for others.
-/
import Deka.Syntax.Positions

namespace Deka.Syntax

/-- Where a composition stands. -/
inductive Place where
  | code (inTag : Bool)
  | children
  | template
  | element

/-- A composition.  An element begins after its `<`, a template after its backtick. -/
inductive Nest : Place → Type where
  | nil {inTag : Bool} : Nest (.code inTag)
  | blank {inTag : Bool} (c : Char) (rest : Nest (.code inTag)) : Nest (.code inTag)
  | leaf {inTag : Bool} (kind : TokenKind) (text : List Char) (rest : Nest (.code inTag)) :
      Nest (.code inTag)
  | operator (kind : TokenKind) (text : List Char) (rest : Nest (.code false)) : Nest (.code false)
  | group {inTag : Bool} (body : Nest (.code false)) (rest : Nest (.code inTag)) :
      Nest (.code inTag)
  | literal (parts : Nest .template) (rest : Nest (.code false)) : Nest (.code false)
  | jsx (element : Nest .element) (rest : Nest (.code false)) : Nest (.code false)
  | last (run : List Char) : Nest .template
  | span (run : List Char) (body : Nest (.code false)) (rest : Nest .template) : Nest .template
  | selfClosing (tag : Nest (.code true)) : Nest .element
  | paired (tag : Nest (.code true)) (children : Nest .children) (close : Nest (.code true)) :
      Nest .element
  | done : Nest .children
  | verbatim (text : List Char) (rest : Nest .children) : Nest .children
  | expr (body : Nest (.code false)) (rest : Nest .children) : Nest .children
  | child (element : Nest .element) (rest : Nest .children) : Nest .children

/-- The text of a token: a string stands in its quotes. -/
def spelling (kind : TokenKind) (text : List Char) : List Char :=
  if kind = .string then (text.drop 1).dropLast else text

namespace Nest

/-- The text of a composition. -/
@[simp]
def render {p : Place} : Nest p → List Char
  | nil => []
  | blank c rest => c :: rest.render
  | leaf _ chars rest => chars ++ rest.render
  | operator _ chars rest => chars ++ rest.render
  | group body rest => '{' :: (body.render ++ '}' :: rest.render)
  | literal parts rest => '\u0060' :: (parts.render ++ rest.render)
  | jsx element rest => '<' :: (element.render ++ rest.render)
  | last run => run ++ ['\u0060']
  | span run body rest => run ++ '$' :: '{' :: (body.render ++ '}' :: rest.render)
  | selfClosing tag => tag.render ++ ['/', '>']
  | paired tag children close =>
    tag.render ++ '>' :: (children.render ++ '<' :: '/' :: (close.render ++ ['>']))
  | done => []
  | verbatim chars rest => chars ++ rest.render
  | expr body rest => '{' :: (body.render ++ '}' :: rest.render)
  | child element rest => '<' :: (element.render ++ rest.render)

/-- The kinds and texts of the tokens of a composition. -/
@[simp]
def tokens {p : Place} : Nest p → List (TokenKind × List Char)
  | nil => []
  | blank _ rest => rest.tokens
  | leaf kind chars rest => (kind, spelling kind chars) :: rest.tokens
  | operator kind chars rest => (kind, chars) :: rest.tokens
  | group body rest => (.lBrace, ['{']) :: (body.tokens ++ (.rBrace, ['}']) :: rest.tokens)
  | literal parts rest => parts.tokens ++ rest.tokens
  | jsx element rest => (.lt, ['<']) :: (element.tokens ++ rest.tokens)
  | last run => [(.backtickString, run)]
  | span run body rest =>
    (.backtickString, run) :: (.templateExprStart, ['$', '{']) ::
      (body.tokens ++ (.templateExprEnd, ['}']) :: rest.tokens)
  | selfClosing tag => tag.tokens ++ [(.slash, ['/']), (.gt, ['>'])]
  | paired tag children close =>
    tag.tokens ++ (.gt, ['>']) :: (children.tokens ++
      (.lt, ['<']) :: (.slash, ['/']) :: (close.tokens ++ [(.gt, ['>'])]))
  | done => []
  | verbatim chars rest => (.jsxText, chars) :: rest.tokens
  | expr body rest => (.lBrace, ['{']) :: (body.tokens ++ (.rBrace, ['}']) :: rest.tokens)
  | child element rest => (.lt, ['<']) :: (element.tokens ++ rest.tokens)

end Nest

/-! ### Tokens of code -/

def IsBlank (c : Char) : Prop := c = ' ' ∨ c = '\t' ∨ c = '\r'

instance : DecidablePred IsBlank := fun _ => inferInstanceAs (Decidable (_ ∨ _ ∨ _))

section Leaves

variable [Unicode]

/-- The token of code at the front of a text, with its length, where no mode has a say in it:
braces, backticks and what begins with `/`, `<` or `>` are left out. -/
def ordinary : List Char → Option (TokenKind × Nat)
  | [] => none
  | c :: rest =>
    if c = '\n' then some (.newline, 1)
    else if c = '"' ∨ c = '\u0027' then
      if (stringLen c rest).2 then some (.string, 1 + (stringLen c rest).1) else none
    else if c = '\u0060' then none
    else if c.isDigit then some (Lexer.numberToken (c :: rest))
    else if c.isAlpha ∨ c = '_' ∨ Unicode.isAlphabetic c then
      let word := (c :: rest).takeWhile Lexer.isWordChar
      some (keyword word, word.length)
    else if c ∈ ['{', '}', '/', '<', '>'] then none
    else
      (punctuation.find? fun entry => entry.1.toList.isPrefixOf (c :: rest)).map fun entry =>
        (entry.2, entry.1.toList.length)

end Leaves

/-- The comment or operator with `/`, `<` or `>` at the front of a text outside tags, after a
token of the kind `prev`. -/
def operatorAt (prev : Option TokenKind) : List Char → Option (TokenKind × Nat)
  | '/' :: '/' :: rest => some (.comment, 2 + lineLen rest)
  | '/' :: '*' :: rest => some (.comment, 2 + (blockLen rest).1)
  | '/' :: '=' :: _ => some (.slashEq, 2)
  | '/' :: _ => some (.slash, 1)
  | '<' :: '=' :: _ => some (.le, 2)
  | '<' :: '<' :: _ => some (.shl, 2)
  | '<' :: '/' :: _ => some (.lt, 1)
  | '<' :: _ => if endsExpression prev then some (.lt, 1) else none
  | '>' :: '=' :: _ => some (.ge, 2)
  | '>' :: '>' :: _ => some (.shr, 2)
  | '>' :: _ => some (.gt, 1)
  | _ => none

/-- The token that the next `<` looks back at. -/
def significant (prev : Option TokenKind) (kind : TokenKind) : Option TokenKind :=
  if kind = .newline then prev else some kind

/-- A `>` that the next character makes longer. -/
def Glued (after : List Char) : Prop := after.head? = some '=' ∨ after.head? = some '>'

/-- What can follow the `<` of an opening tag. -/
def Opens (after : List Char) : Prop := ∀ c ∈ after.head?, c ∉ ['=', '<', '/']

/-- What can follow the `</` of a closing tag. -/
def Closes (after : List Char) : Prop := ∀ c ∈ after.head?, c ∉ ['/', '*', '=']

namespace Nest

variable [Unicode]

/-- The text of a composition has its tokens' places, with `tail` after it. -/
@[simp]
def Fits {p : Place} (prev : Option TokenKind) (tail : List Char) : Nest p → Prop
  | nil => True
  | blank c rest => IsBlank c ∧ rest.Fits prev tail
  | @leaf inTag kind chars rest =>
    ordinary (chars ++ (rest.render ++ tail)) = some (kind, chars.length) ∧
      (inTag = false → kind ≠ .kwUnsafe) ∧ rest.Fits (significant prev kind) tail
  | operator kind chars rest =>
    operatorAt prev (chars ++ (rest.render ++ tail)) = some (kind, chars.length) ∧
      rest.Fits (significant prev kind) tail
  | group body rest =>
    body.Fits (some .lBrace) ('}' :: (rest.render ++ tail)) ∧ rest.Fits (some .rBrace) tail
  | literal parts rest =>
    parts.Fits none (rest.render ++ tail) ∧ rest.Fits (some .backtickString) tail
  | jsx element rest =>
    endsExpression prev = false ∧ element.Fits none (rest.render ++ tail) ∧
      rest.Fits (some .gt) tail
  | last run => (runLen (run ++ '\u0060' :: tail)).1 = run.length
  | span run body rest =>
    (runLen (run ++ '$' :: '{' :: (body.render ++ '}' :: (rest.render ++ tail)))).1 =
        run.length ∧
      body.Fits (some .templateExprStart) ('}' :: (rest.render ++ tail)) ∧ rest.Fits none tail
  | selfClosing tag =>
    Opens (tag.render ++ ['/']) ∧ tag.Fits (some .lt) ('/' :: '>' :: tail)
  | paired tag children close =>
    Opens (tag.render ++ ['>']) ∧
      tag.Fits (some .lt)
        ('>' :: (children.render ++ '<' :: '/' :: (close.render ++ '>' :: tail))) ∧
      children.Fits none ('<' :: '/' :: (close.render ++ '>' :: tail)) ∧
      Closes (close.render ++ ['>']) ∧ close.Fits (some .slash) ('>' :: tail)
  | done => True
  | verbatim chars rest =>
    chars ≠ [] ∧ (∀ c ∈ chars, c ≠ '<' ∧ c ≠ '{') ∧
      (∀ c ∈ (rest.render ++ tail).head?, c = '<' ∨ c = '{') ∧ rest.Fits none tail
  | expr body rest =>
    body.Fits (some .lBrace) ('}' :: (rest.render ++ tail)) ∧ rest.Fits none tail
  | child element rest => element.Fits none (rest.render ++ tail) ∧ rest.Fits none tail

omit [Unicode] in
/-- No interpolation lies in an element, and no `>` of a tag is made longer by what follows. -/
@[simp]
def Clean {p : Place} (inJsx : Bool) (tail : List Char) : Nest p → Prop
  | nil => True
  | blank _ rest => rest.Clean inJsx tail
  | leaf _ _ rest => rest.Clean inJsx tail
  | operator _ _ rest => rest.Clean inJsx tail
  | group body rest =>
    body.Clean inJsx ('}' :: (rest.render ++ tail)) ∧ rest.Clean inJsx tail
  | literal parts rest => parts.Clean inJsx (rest.render ++ tail) ∧ rest.Clean inJsx tail
  | jsx element rest => element.Clean true (rest.render ++ tail) ∧ rest.Clean inJsx tail
  | last _ => True
  | span _ body rest =>
    body.Clean inJsx ('}' :: (rest.render ++ tail)) ∧ inJsx = false ∧ rest.Clean inJsx tail
  | selfClosing tag => tag.Clean true ('/' :: '>' :: tail) ∧ ¬ Glued tail
  | paired tag children close =>
    tag.Clean true ('>' :: (children.render ++ '<' :: '/' :: (close.render ++ '>' :: tail))) ∧
      ¬ Glued (children.render ++ '<' :: '/' :: (close.render ++ '>' :: tail)) ∧
      children.Clean true ('<' :: '/' :: (close.render ++ '>' :: tail)) ∧
      close.Clean true ('>' :: tail) ∧ ¬ Glued tail
  | done => True
  | verbatim _ rest => rest.Clean true tail
  | expr body rest => body.Clean true ('}' :: (rest.render ++ tail)) ∧ rest.Clean true tail
  | child element rest => element.Clean true (rest.render ++ tail) ∧ rest.Clean true tail

end Nest

end Deka.Syntax
