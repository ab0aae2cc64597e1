/-
Deka/Syntax/Pratt.lean

The Pratt loop inverts a printer with as few parentheses as possible.

`Tree.parenthesize` puts a tree in parentheses where it binds looser than its place asks for, and
`Tree.print` lists the tokens of a tree.  `reads_print` says that `parse_expr` reads the tokens
back.  It goes by `Grows`: from the first prefix on the loop grows the tree along its left edge, and
the right edge of what was read stops at the next token (`Tree.Ends`).
-/
import Deka.Syntax.Expressions

namespace Deka.Parsing

open Deka.Syntax (Token TokenKind Pos Span)
open Deka.Typeck (BinOp)

variable {X α β : Type}

/-! ### Trees and their tokens -/

/-- An operator expression before it is printed. -/
inductive Tree where
  | identifier (name : List Char)
  | number (text : List Char)
  | string (text : List Char)
  | boolean (value : Bool)
  | none
  | paren (expr : Tree)
  | unary (op : UnOp) (operand : Tree)
  | await (operand : Tree)
  | binary (op : BinOp) (left right : Tree)
  | ternary (condition thenBranch elseBranch : Tree)
  | member (object : Tree) (kind : TokenKind) (field : List Char)
  | index (object position : Tree)
  | call (callee : Tree) (args : List Tree)

/-- What the parser reads of a token. -/
abbrev Lexeme := TokenKind × List Char

def lexeme (t : Token) : Lexeme := (t.kind, t.text)

def opLexeme : BinOp → Lexeme
  | .add => (.plus, ['+'])
  | .sub => (.minus, ['-'])
  | .mul => (.star, ['*'])
  | .div => (.slash, ['/'])
  | .mod => (.percent, ['%'])
  | .eq => (.eqEq, ['=', '='])
  | .ne => (.notEq, ['!', '='])
  | .lt => (.lt, ['<'])
  | .le => (.le, ['<', '='])
  | .gt => (.gt, ['>'])
  | .ge => (.ge, ['>', '='])
  | .and => (.and, ['&', '&'])
  | .or => (.or, ['|', '|'])
  | .pipe => (.pipe, ['|', '>'])
  | .bitAnd => (.ampersand, ['&'])
  | .bitOr => (.bar, ['|'])
  | .bitXor => (.caret, ['^'])
  | .shl => (.shl, ['<', '<'])
  | .shr => (.shr, ['>', '>'])
  | .assign => (.eq, ['='])
  | .addAssign => (.plusEq, ['+', '='])
  | .subAssign => (.minusEq, ['-', '='])
  | .mulAssign => (.starEq, ['*', '='])
  | .divAssign => (.slashEq, ['/', '='])
  | .modAssign => (.percentEq, ['%', '='])

def unaryLexeme : UnOp → Lexeme
  | .neg => (.minus, ['-'])
  | .not => (.not, ['!'])
  | .plus => (.plus, ['+'])

/-- How tight an operator binds to the left, and to the right. -/
def bindingPowers (op : BinOp) : Nat × Nat :=
  match infixInfo (opLexeme op).1 with
  | some (lbp, rbp, _) => (lbp, rbp)
  | none => (0, 0)

def lbp (op : BinOp) : Nat := (bindingPowers op).1

def rbp (op : BinOp) : Nat := (bindingPowers op).2

theorem infixInfo_op (op : BinOp) : infixInfo (opLexeme op).1 = some (lbp op, rbp op, op) := by
  cases op <;> rfl

/-- A left operand ends in front of its operator, but for an assignment. -/
theorem lbp_rbp (op : BinOp) : lbp op ≤ 15 ∧ rbp op ≠ 1 ∧
    (lbp op = 0 ∧ rbp op = 0 ∨ 2 ≤ lbp op ∧ rbp op = lbp op + 1) := by
  cases op <;> decide

namespace Tree

mutual

/-- The tokens of a tree, on one line. -/
def print : Tree → List Lexeme
  | identifier name => [(.identifier, name)]
  | number text => [(.number, text)]
  | string text => [(.string, text)]
  | boolean true => [(.kwTrue, "true".toList)]
  | boolean false => [(.kwFalse, "false".toList)]
  | none => [(.kwNone, "none".toList)]
  | paren expr => (.lParen, ['(']) :: (print expr ++ [(.rParen, [')'])])
  | unary op operand => unaryLexeme op :: print operand
  | await operand => (.kwAwait, "await".toList) :: print operand
  | binary op left right => print left ++ opLexeme op :: print right
  | ternary condition thenBranch elseBranch =>
      print condition ++ (.question, ['?']) :: (print thenBranch ++
        (.colon, [':']) :: print elseBranch)
  | member object kind field => print object ++ [(.dot, ['.']), (kind, field)]
  | index object position =>
      print object ++ (.lBracket, ['[']) :: (print position ++ [(.rBracket, [']'])])
  | call callee args => print callee ++ (.lParen, ['(']) :: (printArgs args ++ [(.rParen, [')'])])

/-- Arguments with commas between them. -/
def printArgs : List Tree → List Lexeme
  | [] => []
  | [arg] => print arg
  | arg :: args => print arg ++ (.comma, [',']) :: printArgs args

end

/-- How tight the whole of a tree binds: a conditional binds looser than `||`. -/
def level : Tree → Nat
  | unary _ _ | await _ => 16
  | binary op _ _ => lbp op
  | ternary _ _ _ => 1
  | _ => 17

/-- In a place that asks for the level `n`. -/
def inPlace (n : Nat) (t : Tree) : Tree := if t.level < n then .paren t else t

mutual

/-- Parentheses where they are needed. -/
def parenthesize : Tree → Tree
  | paren expr => .paren (parenthesize expr)
  | unary op operand => .unary op (inPlace 16 (parenthesize operand))
  | await operand => .await (inPlace 16 (parenthesize operand))
  | binary op left right =>
      .binary op (inPlace (max 2 (lbp op)) (parenthesize left))
        (inPlace (rbp op) (parenthesize right))
  | ternary condition thenBranch elseBranch =>
      .ternary (inPlace 2 (parenthesize condition)) (parenthesize thenBranch)
        (parenthesize elseBranch)
  | member object kind field => .member (inPlace 17 (parenthesize object)) kind field
  | index object position => .index (inPlace 17 (parenthesize object)) (parenthesize position)
  | call callee args => .call (inPlace 17 (parenthesize callee)) (parenthesizeAll args)
  | t => t

def parenthesizeAll : List Tree → List Tree
  | [] => []
  | t :: ts => parenthesize t :: parenthesizeAll ts

end

mutual

/-- A tree without its parentheses. -/
def bare : Tree → Tree
  | paren expr => bare expr
  | unary op operand => .unary op (bare operand)
  | await operand => .await (bare operand)
  | binary op left right => .binary op (bare left) (bare right)
  | ternary condition thenBranch elseBranch =>
      .ternary (bare condition) (bare thenBranch) (bare elseBranch)
  | member object kind field => .member (bare object) kind field
  | index object position => .index (bare object) (bare position)
  | call callee args => .call (bare callee) (bareAll args)
  | t => t

def bareAll : List Tree → List Tree
  | [] => []
  | t :: ts => bare t :: bareAll ts

end

mutual

/-- The literals are such as the lexer makes, and the names after a `.` are names. -/
def Lexical : Tree → Prop
  | number text => isNumber (text.filter (· ≠ '_')) = true
  | paren expr => Lexical expr
  | unary _ operand => Lexical operand
  | await operand => Lexical operand
  | binary _ left right => Lexical left ∧ Lexical right
  | ternary condition thenBranch elseBranch =>
      Lexical condition ∧ Lexical thenBranch ∧ Lexical elseBranch
  | member object kind _ => Lexical object ∧ kindIsNameCapable kind = true
  | index object position => Lexical object ∧ Lexical position
  | call callee args => Lexical callee ∧ LexicalAll args
  | _ => True

def LexicalAll : List Tree → Prop
  | [] => True
  | t :: ts => Lexical t ∧ LexicalAll ts

end

mutual

/-- Every operand binds as tight as its place asks for. -/
def Proper : Tree → Prop
  | paren expr => Proper expr
  | unary _ operand => 16 ≤ operand.level ∧ Proper operand
  | await operand => 16 ≤ operand.level ∧ Proper operand
  | binary op left right =>
      max 2 (lbp op) ≤ left.level ∧ Proper left ∧ rbp op ≤ right.level ∧ Proper right
  | ternary condition thenBranch elseBranch =>
      2 ≤ condition.level ∧ Proper condition ∧ Proper thenBranch ∧ Proper elseBranch
  | member object _ _ => 17 ≤ object.level ∧ Proper object
  | index object position => 17 ≤ object.level ∧ Proper object ∧ Proper position
  | call callee args => 17 ≤ callee.level ∧ Proper callee ∧ ProperAll args
  | _ => True

def ProperAll : List Tree → Prop
  | [] => True
  | t :: ts => Proper t ∧ ProperAll ts

end

mutual

/-- The number of calls of `parse_expr` that are open at once. -/
def nesting : Tree → Nat
  | paren expr => nesting expr + 1
  | unary _ operand => nesting operand + 1
  | await operand => nesting operand + 1
  | binary _ left right => max (nesting left) (nesting right + 1)
  | ternary condition thenBranch elseBranch =>
      max (nesting condition) (max (nesting thenBranch) (nesting elseBranch) + 1)
  | member object _ _ => nesting object
  | index object position => max (nesting object) (nesting position + 1)
  | call callee args => max (nesting callee) (nestingAll args + 1)
  | _ => 1

def nestingAll : List Tree → Nat
  | [] => 0
  | t :: ts => max (nesting t) (nestingAll ts)

end

mutual

/-- The node that stands for a tree, whatever its spans. -/
def Is : Tree → ExprAst X → Prop
  | identifier name, e => ∃ span, e = .identifier name span
  | number text, e => ∃ span, e = .number (text.filter (· ≠ '_')) span
  | string text, e => ∃ span, e = .string (unescapeString text) span
  | boolean value, e => ∃ span, e = .boolean value span
  | none, e => ∃ span, e = .none span
  | paren t, e => ∃ a span, e = .paren a span ∧ Is t a
  | unary op t, e => ∃ a span, e = .unary op a span ∧ Is t a
  | await t, e => ∃ a span, e = .await a span ∧ Is t a
  | binary op l r, e => ∃ a b span, e = .binary op a b span ∧ Is l a ∧ Is r b
  | ternary c t u, e => ∃ a b d span, e = .ternary a b d span ∧ Is c a ∧ Is t b ∧ Is u d
  | member o _ field, e => ∃ a span, e = .fieldAccess a field span ∧ Is o a
  | index o i, e => ∃ a b span, e = .indexAccess a b span ∧ Is o a ∧ Is i b
  /- a constructor of the prelude is no call -/
  | call f args, e => ∃ a as span, e = Parse.callNode a [] as span ∧ Is f a ∧ IsAll args as

def IsAll : List Tree → List (ExprAst X) → Prop
  | [], es => es = []
  | t :: ts, es => ∃ e rest, es = e :: rest ∧ Is t e ∧ IsAll ts rest

end

theorem level_le (t : Tree) : t.level ≤ 17 := by
  cases t with
  | binary op => exact (lbp_rbp op).1.trans (by decide)
  | _ => simp [level]

/-! ### Parentheses -/

theorem level_inPlace {n : Nat} (hn : n ≤ 17) (t : Tree) : n ≤ (inPlace n t).level := by
  rw [inPlace]
  split
  · exact hn
  · omega

theorem proper_inPlace {t : Tree} (h : t.Proper) (n : Nat) : (inPlace n t).Proper := by
  rw [inPlace]
  split
  · exact h
  · exact h

mutual

theorem proper_parenthesize : ∀ t : Tree, t.parenthesize.Proper
  | identifier _ | number _ | string _ | boolean _ | none => trivial
  | paren expr => proper_parenthesize expr
  | unary _ operand =>
    ⟨level_inPlace (by decide) _, proper_inPlace (proper_parenthesize operand) _⟩
  | await operand => ⟨level_inPlace (by decide) _, proper_inPlace (proper_parenthesize operand) _⟩
  | binary op left right => by
    obtain ⟨hlbp, -, hrbp⟩ := lbp_rbp op
    exact ⟨level_inPlace (by omega) _, proper_inPlace (proper_parenthesize left) _,
      level_inPlace (by omega) _, proper_inPlace (proper_parenthesize right) _⟩
  | ternary condition thenBranch elseBranch =>
    ⟨level_inPlace (by decide) _, proper_inPlace (proper_parenthesize condition) _,
      proper_parenthesize thenBranch, proper_parenthesize elseBranch⟩
  | member object _ _ =>
    ⟨level_inPlace (by decide) _, proper_inPlace (proper_parenthesize object) _⟩
  | index object position => ⟨level_inPlace (by decide) _,
      proper_inPlace (proper_parenthesize object) _, proper_parenthesize position⟩
  | call callee args => ⟨level_inPlace (by decide) _,
      proper_inPlace (proper_parenthesize callee) _, proper_parenthesizeAll args⟩

theorem proper_parenthesizeAll : ∀ ts : List Tree, ProperAll (parenthesizeAll ts)
  | [] => trivial
  | t :: ts => ⟨proper_parenthesize t, proper_parenthesizeAll ts⟩

end

theorem bare_inPlace (n : Nat) (t : Tree) : (inPlace n t).bare = t.bare := by
  rw [inPlace]
  split <;> rfl

mutual

theorem bare_parenthesize : ∀ t : Tree, t.parenthesize.bare = t.bare
  | identifier _ | number _ | string _ | boolean _ | none => rfl
  | paren expr => bare_parenthesize expr
  | unary _ operand => by
    rw [parenthesize, bare, bare, bare_inPlace, bare_parenthesize operand]
  | await operand => by
    rw [parenthesize, bare, bare, bare_inPlace, bare_parenthesize operand]
  | binary _ left right => by
    rw [parenthesize, bare, bare, bare_inPlace, bare_inPlace, bare_parenthesize left,
      bare_parenthesize right]
  | ternary condition thenBranch elseBranch => by
    rw [parenthesize, bare, bare, bare_inPlace, bare_parenthesize condition,
      bare_parenthesize thenBranch, bare_parenthesize elseBranch]
  | member object _ _ => by
    rw [parenthesize, bare, bare, bare_inPlace, bare_parenthesize object]
  | index object position => by
    rw [parenthesize, bare, bare, bare_inPlace, bare_parenthesize object,
      bare_parenthesize position]
  | call callee args => by
    rw [parenthesize, bare, bare, bare_inPlace, bare_parenthesize callee,
      bareAll_parenthesizeAll args]

theorem bareAll_parenthesizeAll : ∀ ts : List Tree, bareAll (parenthesizeAll ts) = bareAll ts
  | [] => rfl
  | t :: ts => by
    rw [parenthesizeAll, bareAll, bareAll, bare_parenthesize t, bareAll_parenthesizeAll ts]

end

theorem inPlace_eq {n : Nat} {t : Tree} (h : n ≤ t.level) : inPlace n t = t :=
  if_neg (Nat.not_lt.mpr h)

mutual

/-- No parentheses are put where they are not needed. -/
theorem parenthesize_eq : ∀ t : Tree, t.Proper → t.parenthesize = t
  | identifier _, _ | number _, _ | string _, _ | boolean _, _ | none, _ => rfl
  | paren expr, h => congrArg paren (parenthesize_eq expr h)
  | unary _ operand, h => by
    rw [parenthesize, parenthesize_eq operand h.2, inPlace_eq h.1]
  | await operand, h => by
    rw [parenthesize, parenthesize_eq operand h.2, inPlace_eq h.1]
  | binary _ left right, h => by
    rw [parenthesize, parenthesize_eq left h.2.1, parenthesize_eq right h.2.2.2, inPlace_eq h.1,
      inPlace_eq h.2.2.1]
  | ternary condition thenBranch elseBranch, h => by
    rw [parenthesize, parenthesize_eq condition h.2.1, parenthesize_eq thenBranch h.2.2.1,
      parenthesize_eq elseBranch h.2.2.2, inPlace_eq h.1]
  | member object _ _, h => by
    rw [parenthesize, parenthesize_eq object h.2, inPlace_eq h.1]
  | index object position, h => by
    rw [parenthesize, parenthesize_eq object h.2.1, parenthesize_eq position h.2.2,
      inPlace_eq h.1]
  | call callee args, h => by
    rw [parenthesize, parenthesize_eq callee h.2.1, parenthesizeAll_eq args h.2.2,
      inPlace_eq h.1]

theorem parenthesizeAll_eq : ∀ ts : List Tree, ProperAll ts → parenthesizeAll ts = ts
  | [], _ => rfl
  | t :: ts, h => by
    rw [parenthesizeAll, parenthesize_eq t h.1, parenthesizeAll_eq ts h.2]

end

theorem lexical_inPlace {t : Tree} (h : t.Lexical) (n : Nat) : (inPlace n t).Lexical := by
  rw [inPlace]
  split
  · exact h
  · exact h

mutual

theorem lexical_parenthesize : ∀ t : Tree, t.Lexical → t.parenthesize.Lexical
  | identifier _, h | number _, h | string _, h | boolean _, h | none, h => h
  | paren expr, h => lexical_parenthesize expr h
  | unary _ operand, h => lexical_inPlace (lexical_parenthesize operand h) _
  | await operand, h => lexical_inPlace (lexical_parenthesize operand h) _
  | binary _ left right, h => ⟨lexical_inPlace (lexical_parenthesize left h.1) _,
      lexical_inPlace (lexical_parenthesize right h.2) _⟩
  | ternary condition thenBranch elseBranch, h =>
    ⟨lexical_inPlace (lexical_parenthesize condition h.1) _,
      lexical_parenthesize thenBranch h.2.1, lexical_parenthesize elseBranch h.2.2⟩
  | member object _ _, h => ⟨lexical_inPlace (lexical_parenthesize object h.1) _, h.2⟩
  | index object position, h =>
    ⟨lexical_inPlace (lexical_parenthesize object h.1) _, lexical_parenthesize position h.2⟩
  | call callee args, h =>
    ⟨lexical_inPlace (lexical_parenthesize callee h.1) _, lexical_parenthesizeAll args h.2⟩

theorem lexical_parenthesizeAll : ∀ ts : List Tree, LexicalAll ts → LexicalAll (parenthesizeAll ts)
  | [], h => h
  | t :: ts, h => ⟨lexical_parenthesize t h.1, lexical_parenthesizeAll ts h.2⟩

end

end Tree

/-! ### Tokens that are read -/

namespace Parser

def ahead (s : Parser) : List Token := s.tokens.drop s.pos

/-- The parser `n` tokens further. -/
def past (s : Parser) (n : Nat) : Parser :=
  { s with
    pos := s.pos + n
    prev := if n = 0 then s.prev else s.tokens.getD (s.pos + n - 1) eofToken }

theorem past_zero (s : Parser) : s.past 0 = s := rfl

theorem past_past (s : Parser) (m n : Nat) : (s.past m).past n = s.past (m + n) := by
  cases n with
  | zero => rfl
  | succ n =>
    have hsucc : ¬ m + (n + 1) = 0 := by omega
    simp only [past, Nat.add_assoc, Nat.add_one_ne_zero, hsucc, if_false]

theorem ahead_past (s : Parser) (n : Nat) : (s.past n).ahead = s.ahead.drop n := by
  rw [ahead, ahead, List.drop_drop]
  rfl

theorem kinds_eq (s : Parser) : s.kinds = s.ahead.map Token.kind := rfl

/-- What is left after the tokens `ts`. -/
theorem ahead_past_append {s : Parser} {ts rest : List Token} (hs : s.ahead = ts ++ rest) :
    (s.past ts.length).ahead = rest := by
  rw [ahead_past, hs, List.drop_left]

theorem current_eq {s : Parser} {t : Token} {rest : List Token} (hs : s.ahead = t :: rest) :
    s.current = t := by
  rw [current, List.getD_eq_getElem?_getD, ← List.head?_drop]
  show ((s.ahead).head?).getD eofToken = t
  rw [hs]
  rfl

theorem currentKind_ahead {s : Parser} {t : Token} {rest : List Token} (hs : s.ahead = t :: rest) :
    s.currentKind = t.kind := congrArg Token.kind (current_eq hs)

theorem advanced_eq {s : Parser} {t : Token} {rest : List Token} (hs : s.ahead = t :: rest)
    (ht : t.kind ≠ .eof) : s.advanced = s.past 1 := by
  have hnot : s.atEnd = false := by
    rw [atEnd, currentKind_ahead hs]
    exact beq_eq_false_iff_ne.mpr ht
  rw [advanced, past, hnot]
  rfl

/-- The first kind but for newlines. -/
def peek (ks : List TokenKind) : TokenKind := (ks.dropWhile (· = .newline)).headD .eof

theorem peekAfterNewlines_eq (s : Parser) : s.peekAfterNewlines = peek s.kinds := by
  rw [peekAfterNewlines, peek, kinds, List.dropWhile_map]
  show _ = ((List.dropWhile (fun t : Token => decide (t.kind = .newline))
    (s.tokens.drop s.pos)).map Token.kind).headD .eof
  rcases List.dropWhile (fun t : Token => decide (t.kind = .newline)) (s.tokens.drop s.pos)
    with - | ⟨t, rest⟩ <;> rfl

theorem peek_cons {k : TokenKind} (hk : k ≠ .newline) (ks : List TokenKind) :
    peek (k :: ks) = k := by
  rw [peek, List.dropWhile_cons_of_neg (by simpa using hk)]
  rfl

theorem kindAt_eq (s : Parser) (n : Nat) : s.kindAt n = s.kinds[n]? := by
  rw [kindAt, kinds, List.getElem?_map, List.getElem?_drop]

end Parser

open Deka.Parsing.Parser

namespace Parse

theorem bind_some {p : Parse α} {f : α → Parse β} {s s' : Parser} {a : α}
    (h : p s = (some a, s')) : (p >>= f) s = f a s' := by
  rw [bind_apply, Parse.bind, h]

theorem advance_ahead {s : Parser} {t : Token} {rest : List Token} (hs : s.ahead = t :: rest)
    (ht : t.kind ≠ .eof) : advance s = (some (), s.past 1) :=
  congrArg (Prod.mk (some ())) (advanced_eq hs ht)

theorem isAt_apply (s : Parser) (kind : TokenKind) :
    isAt kind s = (some (s.currentKind == kind), s) := rfl

theorem isAt_of_ne {s : Parser} {kind : TokenKind} (h : s.currentKind ≠ kind) :
    isAt kind s = (some false, s) := by
  rw [isAt_apply, beq_eq_false_iff_ne.mpr h]

theorem isAt_of_eq {s : Parser} {kind : TokenKind} (h : s.currentKind = kind) :
    isAt kind s = (some true, s) := by
  rw [isAt_apply, beq_iff_eq.mpr h]

theorem eat_of_ne {s : Parser} {kind : TokenKind} (h : s.currentKind ≠ kind) :
    eat kind s = (some false, s) := by
  rw [eat, bind_some (isAt_of_ne h)]
  rfl

theorem eat_ahead {s : Parser} {t : Token} {rest : List Token} (hs : s.ahead = t :: rest)
    (ht : t.kind ≠ .eof) : eat t.kind s = (some true, s.past 1) := by
  rw [eat, bind_some (isAt_of_eq (currentKind_ahead hs))]
  show (advance >>= fun _ => pure true) s = _
  rw [bind_some (advance_ahead hs ht)]
  rfl

theorem expect_ahead {s : Parser} {t : Token} {rest : List Token} (hs : s.ahead = t :: rest)
    (ht : t.kind ≠ .eof) : expect t.kind s = (some (), s.past 1) := by
  rw [expect, bind_some (eat_ahead hs ht)]
  rfl

theorem skipNewlines_of_ne {s : Parser} (h : s.currentKind ≠ .newline) :
    skipNewlines s = (some (), s) := by
  rw [skipNewlines]
  have hahead : s.ahead.head?.map Token.kind ≠ some .newline := by
    intro hnewline
    rcases hs : s.ahead with - | ⟨t, rest⟩
    · rw [hs] at hnewline
      cases hnewline
    · rw [hs] at hnewline
      exact h ((currentKind_ahead hs).trans (Option.some_inj.mp hnewline))
  show (some (), s.skippedNewlines s.ahead) = _
  rcases hs : s.ahead with - | ⟨t, rest⟩
  · rfl
  · rw [hs] at hahead
    rw [skippedNewlines, if_neg fun ht => hahead (congrArg some ht)]

end Parse

/-! ### Where the loop stops -/

/-- At these kinds the loop of `parse_expr minPrec` ends, whatever was read. -/
structure Stops (minPrec : Nat) (ks : List TokenKind) : Prop where
  starts : canStartJuxtapositionArg (ks.headD .eof) = false
  closed : ks.headD .eof ≠ .lParen ∧ ks.headD .eof ≠ .lBracket ∧ ks.headD .eof ≠ .lBrace ∧
    ks.headD .eof ≠ .fatArrow
  dot : peek ks ≠ .dot
  question : peek ks = .question → 1 < minPrec
  binds : ∀ lbp rbp op, infixInfo (peek ks) = some (lbp, rbp, op) → lbp < minPrec
  typeArgs : ks.headD .eof = .lt → Parse.closesBeforeCall 1 ks.tail = false

theorem Stops.mono {m n : Nat} {ks : List TokenKind} (h : Stops m ks) (hmn : m ≤ n) :
    Stops n ks where
  starts := h.starts
  closed := h.closed
  dot := h.dot
  question hq := (h.question hq).trans_le hmn
  binds lbp rbp op hop := (h.binds lbp rbp op hop).trans_le hmn
  typeArgs := h.typeArgs

/-- None of the `<` before the last `n` tokens looks like the start of type arguments. -/
def Calm (n : Nat) (ks : List TokenKind) : Prop :=
  ∀ post, .lt :: post <:+ ks → n ≤ post.length →
    Parse.closesBeforeCall 1 post = false ∧ closesBeforeStruct 1 post = false

theorem Calm.mono {m n : Nat} {ks ls : List TokenKind} (h : Calm m ks) (hls : ls <:+ ks)
    (hmn : m ≤ n) : Calm n ls :=
  fun post hpost hn => h post (hpost.trans hls) (hmn.trans hn)

/-- A kind at which the loop ends unless it binds there. -/
theorem stops_cons {k : TokenKind} {m : Nat} {ks : List TokenKind}
    (hk : canStartJuxtapositionArg k = false ∧ k ≠ .lParen ∧ k ≠ .lBracket ∧ k ≠ .lBrace ∧
      k ≠ .fatArrow ∧ k ≠ .dot ∧ k ≠ .newline)
    (hquestion : k = .question → 1 < m)
    (hbinds : ∀ lbp rbp op, infixInfo k = some (lbp, rbp, op) → lbp < m)
    (hcalm : k = .lt → Parse.closesBeforeCall 1 ks = false) : Stops m (k :: ks) := by
  obtain ⟨hstarts, hparen, hbracket, hbrace, harrow, hdot, hnewline⟩ := hk
  refine ⟨hstarts, ⟨hparen, hbracket, hbrace, harrow⟩, ?_, ?_, ?_, hcalm⟩
  · rwa [peek_cons hnewline]
  · rwa [peek_cons hnewline]
  · rwa [peek_cons hnewline]

theorem opKind_plain (op : BinOp) :
    canStartJuxtapositionArg (opLexeme op).1 = false ∧ (opLexeme op).1 ≠ .lParen ∧
      (opLexeme op).1 ≠ .lBracket ∧ (opLexeme op).1 ≠ .lBrace ∧ (opLexeme op).1 ≠ .fatArrow ∧
      (opLexeme op).1 ≠ .dot ∧ (opLexeme op).1 ≠ .newline := by
  cases op <;> decide

theorem opKind_ne (op : BinOp) :
    (opLexeme op).1 ≠ .question ∧ (opLexeme op).1 ≠ .eof ∧ ((opLexeme op).1 = .lt ↔ op = .lt) := by
  cases op <;> decide

/-- An operator stops what binds tighter. -/
theorem stops_op {op : BinOp} {m : Nat} (hm : lbp op < m) {ks : List TokenKind}
    (hcalm : op = .lt → Parse.closesBeforeCall 1 ks = false) :
    Stops m ((opLexeme op).1 :: ks) := by
  obtain ⟨hquestion, -, hlt⟩ := opKind_ne op
  refine stops_cons (opKind_plain op) (fun h => absurd h hquestion) ?_ fun h => hcalm (hlt.mp h)
  intro l r o ho
  rw [infixInfo_op] at ho
  cases ho
  exact hm

/-- What closes an operand stops it at any level. -/
theorem stops_closing {k : TokenKind} (hk : k = .colon ∨ k = .comma ∨ k = .rParen ∨ k = .rBracket)
    (m : Nat) (ks : List TokenKind) : Stops m (k :: ks) := by
  rcases hk with rfl | rfl | rfl | rfl <;>
    exact stops_cons (by decide) (by rintro ⟨⟩) (by rintro l r o ⟨⟩) (by rintro ⟨⟩)

namespace Tree

/-- The right edge of a tree ends in front of these kinds. -/
def Ends : Tree → List TokenKind → Prop
  | binary op _ _, ks => Stops (rbp op) ks
  | unary _ _, ks | await _, ks => Stops 16 ks
  | ternary _ _ _, ks => Stops 0 ks
  | _, ks => ks.headD .eof ≠ .fatArrow ∧ ks.headD .eof ≠ .lBrace

/-- No place asks for the level 1, so that a conditional is as loose as an assignment. -/
theorem ends_of_stops {t : Tree} {m : Nat} (hlevel : m ≤ t.level) (hm : m ≠ 1)
    {ks : List TokenKind} (h : Stops m ks) : t.Ends ks := by
  cases t with
  | binary op left right =>
    have hpowers := (lbp_rbp op).2.2
    exact h.mono (hlevel.trans (by rw [level]; omega))
  | unary op operand => exact h.mono hlevel
  | await operand => exact h.mono hlevel
  | ternary condition thenBranch elseBranch =>
    rw [level] at hlevel
    exact h.mono (by omega)
  | _ => exact ⟨h.closed.2.2.2, h.closed.2.2.1⟩

/-- A left operand ends in front of its operator. -/
theorem ends_op {t : Tree} {op : BinOp} (hlevel : max 2 (lbp op) ≤ t.level) {ks : List TokenKind}
    (hcalm : op = .lt → Parse.closesBeforeCall 1 ks = false) :
    t.Ends ((opLexeme op).1 :: ks) := by
  have hplain := opKind_plain op
  cases t with
  | binary inner left right =>
    have hpowers := (lbp_rbp inner).2.2
    rw [level] at hlevel
    exact stops_op (by omega) hcalm
  | unary inner operand => exact stops_op ((lbp_rbp op).1.trans_lt (by decide)) hcalm
  | await operand => exact stops_op ((lbp_rbp op).1.trans_lt (by decide)) hcalm
  | ternary condition thenBranch elseBranch =>
    rw [level] at hlevel
    omega
  | _ => exact ⟨hplain.2.2.2.2.1, hplain.2.2.2.1⟩

/-- A condition ends in front of its `?`. -/
theorem ends_question {t : Tree} (hlevel : 2 ≤ t.level) (ks : List TokenKind) :
    t.Ends (.question :: ks) := by
  have hstops : ∀ m, 1 < m → Stops m (.question :: ks) := fun m hm =>
    stops_cons (by decide) (fun _ => hm) (by rintro l r o ⟨⟩) (by rintro ⟨⟩)
  cases t with
  | binary op left right =>
    have hpowers := (lbp_rbp op).2.2
    rw [level] at hlevel
    exact hstops _ (by omega)
  | unary op operand => exact hstops 16 (by decide)
  | await operand => exact hstops 16 (by decide)
  | ternary condition thenBranch elseBranch =>
    rw [level] at hlevel
    omega
  | _ => exact ⟨by rintro ⟨⟩, by rintro ⟨⟩⟩

/-- An object ends in front of what is done with it. -/
theorem ends_postfix {t : Tree} (hlevel : 17 ≤ t.level) {k : TokenKind} (harrow : k ≠ .fatArrow)
    (hbrace : k ≠ .lBrace) (ks : List TokenKind) : t.Ends (k :: ks) := by
  cases t with
  | binary op left right =>
    have hpowers := (lbp_rbp op).1
    rw [level] at hlevel
    omega
  | unary op operand =>
    rw [level] at hlevel
    omega
  | await operand =>
    rw [level] at hlevel
    omega
  | ternary condition thenBranch elseBranch =>
    rw [level] at hlevel
    omega
  | _ => exact ⟨harrow, hbrace⟩

end Tree

/-! ### The rounds of the loop -/

namespace Parse

variable {parseExpr : Nat → Parse (ExprAst X)} {start : Pos × Nat} {m : Nat} {left : ExprAst X}
  {s : Parser}

theorem headD_kinds (s : Parser) : s.kinds.headD .eof = s.currentKind := (currentKind_eq s).symm

theorem juxtaposes_eq_false (h : canStartJuxtapositionArg s.currentKind = false) :
    juxtaposes left s = false := by
  rw [juxtaposes, h]
  rcases left.identifier? with - | ⟨name, span⟩
  · rfl
  · exact Bool.and_false _

/-- No type arguments are read. -/
theorem typeArgsOrNone_eq (h : s.currentKind = .lt → closesBeforeCall 1 s.kinds.tail = false) :
    typeArgsOrNone s = (some [], s) := by
  have hnone : (s.currentKind == .lt && nextLtIsTypeArgs s) = false := by
    by_cases hlt : s.currentKind = .lt
    · have htail : s.kinds.tail = (s.tokens.drop (s.pos + 1)).map Token.kind := by
        rw [kinds, ← List.map_tail, List.tail_drop]
      rw [nextLtIsTypeArgs, ← htail, h hlt, Bool.and_false, Bool.and_false]
    · rw [beq_eq_false_iff_ne.mpr hlt, Bool.false_and]
  rw [typeArgsOrNone, explicitTypeArgs, hnone]
  rfl

/-- A round that reads no argument without parentheses and no member. -/
theorem exprRound_eq (hstarts : canStartJuxtapositionArg s.currentKind = false)
    (hdot : peek s.kinds ≠ .dot)
    (hlt : s.currentKind = .lt → closesBeforeCall 1 s.kinds.tail = false) :
    exprRound parseExpr start m left s =
      postfixRound parseExpr start m (peek s.kinds) left [] s := by
  rw [exprRound, bind_some (show getState s = (some s, s) from rfl), peekAfterNewlines_eq,
    juxtaposes_eq_false hstarts, if_neg Bool.false_ne_true, if_neg hdot,
    bind_some (typeArgsOrNone_eq hlt)]

/-- A round that reads no postfix either. -/
theorem postfixRound_eq (hparen : s.currentKind ≠ .lParen) (hbracket : s.currentKind ≠ .lBracket)
    (hbrace : s.currentKind ≠ .lBrace) {k : TokenKind} {typeArgs : List TypeAst} :
    postfixRound parseExpr start m k left typeArgs s = infixRound parseExpr start m k left s := by
  rw [postfixRound, bind_some (isAt_of_ne hparen), if_neg Bool.false_ne_true,
    bind_some (isAt_of_ne hbracket), if_neg Bool.false_ne_true,
    bind_some (show getState s = (some s, s) from rfl)]
  rcases left.identifier? with - | ⟨name, span⟩
  · rfl
  · dsimp only
    rw [if_neg fun h => hbrace h.1]

/-- The loop ends where it stops. -/
theorem exprRound_stops (h : Stops m s.kinds) :
    exprRound parseExpr start m left s = (some none, s) := by
  obtain ⟨hparen, hbracket, hbrace, -⟩ := headD_kinds s ▸ h.closed
  rw [exprRound_eq (headD_kinds s ▸ h.starts) h.dot (headD_kinds s ▸ h.typeArgs),
    postfixRound_eq hparen hbracket hbrace, infixRound, if_neg fun hq => ?_]
  · cases hinfix : infixInfo (peek s.kinds) with
    | none => rfl
    | some powers =>
      obtain ⟨l, r, op⟩ := powers
      dsimp only
      rw [if_pos (h.binds l r op hinfix)]
      rfl
  · exact absurd (h.question hq.1) (Nat.not_lt.mpr hq.2)

theorem nameCapable_ne {k : TokenKind} (h : kindIsNameCapable k = true) :
    k ≠ .eof ∧ k ≠ .newline := by
  constructor <;> rintro rfl <;> cases h

/-- A round that reads a member. -/
theorem exprRound_member {dot field : Token} {rest : List Token}
    (hs : s.ahead = dot :: field :: rest) (hdot : dot.kind = .dot)
    (hfield : kindIsNameCapable field.kind = true) :
    ∃ span, exprRound parseExpr start m left s =
      (some (some (.fieldAccess left field.text span)), s.past 2) := by
  have hkind : s.currentKind = .dot := (currentKind_ahead hs).trans hdot
  have hpeek : s.peekAfterNewlines = .dot := by
    rw [peekAfterNewlines_eq, kinds_eq, hs, List.map_cons, hdot]
    rfl
  have hnext : (s.past 1).ahead = field :: rest := by
    rw [ahead_past, hs]
    rfl
  have hname : (s.past 1).currentKind = field.kind := currentKind_ahead hnext
  have hread : expectFieldName (s.past 1) = (some field.text, s.past 2) := by
    rw [expectFieldName, bind_some (skipNewlines_of_ne (hname ▸ (nameCapable_ne hfield).2)),
      bind_some (show getState (s.past 1) = (some (s.past 1), s.past 1) from rfl),
      if_pos (hname.symm ▸ hfield), bind_some (advance_ahead hnext (nameCapable_ne hfield).1),
      current_eq hnext, past_past]
    rfl
  refine ⟨⟨start.1, (s.past 2).prev.span.endPos, start.2, (s.past 2).prev.span.byteEnd⟩, ?_⟩
  rw [exprRound, bind_some (show getState s = (some s, s) from rfl), hpeek,
    juxtaposes_eq_false (by rw [hkind]; rfl), if_neg Bool.false_ne_true, if_pos rfl]
  have hmember : member start left s = (some (.fieldAccess left field.text
      ⟨start.1, (s.past 2).prev.span.endPos, start.2, (s.past 2).prev.span.byteEnd⟩),
      s.past 2) := by
    rw [member, bind_some (skipNewlines_of_ne (by rw [hkind]; decide)),
      bind_some (advance_ahead hs (by rw [hdot]; decide)), bind_some hread]
    rfl
  rw [bind_some hmember]
  rfl

/-- A round that reads an operator and its right operand. -/
theorem exprRound_op {op : BinOp} (hm : m ≤ lbp op) {t : Token} {rest : List Token}
    (hs : s.ahead = t :: rest) (ht : t.kind = (opLexeme op).1)
    (hcalm : op = .lt → closesBeforeCall 1 (rest.map Token.kind) = false ∧
      closesBeforeStruct 1 (rest.map Token.kind) = false)
    {right : ExprAst X} {s' : Parser} (hnewline : (s.past 1).currentKind ≠ .newline)
    (hright : parseExpr (rbp op) (s.past 1) = (some right, s')) :
    ∃ span, exprRound parseExpr start m left s =
      (some (some (.binary op left right span)), s') := by
  obtain ⟨hstarts, hparen, hbracket, hbrace, -, hdot, hplain⟩ := ht ▸ opKind_plain op
  obtain ⟨hquestion, heof, hlt⟩ := ht ▸ opKind_ne op
  have hkind : s.currentKind = t.kind := currentKind_ahead hs
  have hkinds : s.kinds = t.kind :: rest.map Token.kind := by
    rw [kinds_eq, hs, List.map_cons]
  have hpeek : peek s.kinds = t.kind := by
    rw [hkinds, peek_cons hplain]
  have hstruct : ¬ (t.kind = .lt ∧ nextLtClosesBeforeStructLiteral s = true) := by
    rintro ⟨hless, hcloses⟩
    have htail : (s.tokens.drop (s.pos + 1)).map Token.kind = rest.map Token.kind := by
      rw [← List.tail_drop, List.map_tail]
      exact congrArg List.tail hkinds
    rw [nextLtClosesBeforeStructLiteral, htail, (hcalm (hlt.mp hless)).2, Bool.and_false] at hcloses
    cases hcloses
  refine ⟨⟨start.1, s'.prev.span.endPos, start.2, s'.prev.span.byteEnd⟩, ?_⟩
  have hbinary : binary parseExpr start left (rbp op) op s =
      (some (.binary op left right
        ⟨start.1, s'.prev.span.endPos, start.2, s'.prev.span.byteEnd⟩), s') := by
    rw [binary, bind_some (skipNewlines_of_ne (hkind ▸ hplain)), bind_some (advance_ahead hs heof),
      bind_some (skipNewlines_of_ne hnewline), bind_some hright]
    rfl
  rw [exprRound_eq (hkind ▸ hstarts) (hpeek ▸ hdot), hpeek,
    postfixRound_eq (hkind ▸ hparen) (hkind ▸ hbracket) (hkind ▸ hbrace), infixRound,
    if_neg fun h => hquestion h.1, ht, infixInfo_op]
  · dsimp only
    rw [if_neg (Nat.not_lt.mpr hm), bind_some (show getState s = (some s, s) from rfl)]
    rcases left.identifier? with - | ⟨name, span⟩
    · dsimp only
      rw [bind_some hbinary]
      rfl
    · dsimp only
      rw [if_neg (ht ▸ hstruct), bind_some hbinary]
      rfl
  · intro hless
    rw [hkinds]
    exact (hcalm (hlt.mp (hkind ▸ hless))).1

/-- A round that reads a conditional. -/
theorem exprRound_question (hm : m ≤ 1) {t : Token} {rest : List Token} (hs : s.ahead = t :: rest)
    (ht : t.kind = .question) {a b : ExprAst X} {s₁ s₂ : Parser}
    (ha : parseExpr 0 (s.past 1) = (some a, s₁)) {colon : Token} {tail : List Token}
    (hcolon : s₁.ahead = colon :: tail) (hkind : colon.kind = .colon)
    (hnewline : (s₁.past 1).currentKind ≠ .newline)
    (hb : parseExpr 0 (s₁.past 1) = (some b, s₂)) :
    ∃ span, exprRound parseExpr start m left s = (some (some (.ternary left a b span)), s₂) := by
  have hcurrent : s.currentKind = .question := (currentKind_ahead hs).trans ht
  have hpeek : peek s.kinds = .question := by
    rw [kinds_eq, hs, List.map_cons, ht]
    rfl
  have hcolonKind : s₁.currentKind = .colon := (currentKind_ahead hcolon).trans hkind
  refine ⟨⟨start.1, s₂.prev.span.endPos, start.2, s₂.prev.span.byteEnd⟩, ?_⟩
  have hternary : ternary parseExpr start left s = (some (.ternary left a b
      ⟨start.1, s₂.prev.span.endPos, start.2, s₂.prev.span.byteEnd⟩), s₂) := by
    rw [ternary, bind_some (skipNewlines_of_ne (by rw [hcurrent]; decide)),
      bind_some (advance_ahead hs (by rw [ht]; decide)), bind_some ha,
      bind_some (skipNewlines_of_ne (by rw [hcolonKind]; decide)),
      ← hkind, bind_some (expect_ahead hcolon (by rw [hkind]; decide)),
      bind_some (skipNewlines_of_ne hnewline), bind_some hb]
    rfl
  rw [exprRound_eq (by rw [hcurrent]; rfl) (by rw [hpeek]; decide) (by rw [hcurrent]; rintro ⟨⟩),
    hpeek, postfixRound_eq (by rw [hcurrent]; decide) (by rw [hcurrent]; decide)
      (by rw [hcurrent]; decide), infixRound, if_pos ⟨rfl, hm⟩, bind_some hternary]
  rfl

/-- An expression in brackets. -/
theorem parseExpression_eq {e : ExprAst X} {s' : Parser} (hnewline : s.currentKind ≠ .newline)
    (h : parseExpr 0 s = (some e, s')) : parseExpression parseExpr s = (some e, s') := by
  rw [parseExpression, bind_some (skipNewlines_of_ne hnewline), h]

/-- A round that reads an index. -/
theorem exprRound_index {t : Token} {rest : List Token} (hs : s.ahead = t :: rest)
    (ht : t.kind = .lBracket) (hnewline : (s.past 1).currentKind ≠ .newline) {e : ExprAst X}
    {s₁ : Parser} (he : parseExpr 0 (s.past 1) = (some e, s₁)) {close : Token} {tail : List Token}
    (hclose : s₁.ahead = close :: tail) (hkind : close.kind = .rBracket) :
    ∃ span, exprRound parseExpr start m left s =
      (some (some (.indexAccess left e span)), s₁.past 1) := by
  have hcurrent : s.currentKind = .lBracket := (currentKind_ahead hs).trans ht
  have hpeek : peek s.kinds = .lBracket := by
    rw [kinds_eq, hs, List.map_cons, ht]
    rfl
  have hcloseKind : s₁.currentKind = .rBracket := (currentKind_ahead hclose).trans hkind
  refine ⟨⟨start.1, (s₁.past 1).prev.span.endPos, start.2, (s₁.past 1).prev.span.byteEnd⟩, ?_⟩
  have hindex : index parseExpr start left s = (some (.indexAccess left e
      ⟨start.1, (s₁.past 1).prev.span.endPos, start.2, (s₁.past 1).prev.span.byteEnd⟩),
      s₁.past 1) := by
    rw [index, bind_some (advance_ahead hs (by rw [ht]; decide)),
      bind_some (skipNewlines_of_ne hnewline), bind_some (parseExpression_eq hnewline he),
      bind_some (skipNewlines_of_ne (by rw [hcloseKind]; decide)),
      ← hkind, bind_some (expect_ahead hclose (by rw [hkind]; decide))]
    rfl
  rw [exprRound_eq (by rw [hcurrent]; rfl) (by rw [hpeek]; decide) (by rw [hcurrent]; rintro ⟨⟩),
    postfixRound, bind_some (isAt_of_ne (by rw [hcurrent]; decide)), if_neg Bool.false_ne_true,
    bind_some (isAt_of_eq hcurrent), if_pos rfl, bind_some hindex]
  rfl

/-- A round that reads a call. -/
theorem exprRound_call {t : Token} {rest : List Token} (hs : s.ahead = t :: rest)
    (ht : t.kind = .lParen) (hnewline : (s.past 1).currentKind ≠ .newline)
    {args : List (ExprAst X)} {s₁ : Parser}
    (hargs : unlessAt .rParen (callArgs parseExpr) (s.past 1) = (some args, s₁))
    {close : Token} {tail : List Token} (hclose : s₁.ahead = close :: tail)
    (hkind : close.kind = .rParen) :
    ∃ span, exprRound parseExpr start m left s =
      (some (some (callNode left [] args span)), s₁.past 1) := by
  have hcurrent : s.currentKind = .lParen := (currentKind_ahead hs).trans ht
  have hpeek : peek s.kinds = .lParen := by
    rw [kinds_eq, hs, List.map_cons, ht]
    rfl
  have hcloseKind : s₁.currentKind = .rParen := (currentKind_ahead hclose).trans hkind
  refine ⟨⟨start.1, (s₁.past 1).prev.span.endPos, start.2, (s₁.past 1).prev.span.byteEnd⟩, ?_⟩
  have hcall : call parseExpr start left [] s = (some (callNode left [] args
      ⟨start.1, (s₁.past 1).prev.span.endPos, start.2, (s₁.past 1).prev.span.byteEnd⟩),
      s₁.past 1) := by
    rw [call, bind_some (advance_ahead hs (by rw [ht]; decide)),
      bind_some (skipNewlines_of_ne hnewline), bind_some hargs,
      bind_some (skipNewlines_of_ne (by rw [hcloseKind]; decide)),
      ← hkind, bind_some (expect_ahead hclose (by rw [hkind]; decide))]
    rfl
  rw [exprRound_eq (by rw [hcurrent]; rfl) (by rw [hpeek]; decide) (by rw [hcurrent]; rintro ⟨⟩),
    postfixRound, bind_some (isAt_of_eq hcurrent), if_pos rfl, bind_some hcall]
  rfl

/-- The rounds of a loop one after the other. -/
theorem exprLoop_grown {grown : ExprAst X} {s' : Parser}
    (h : exprRound parseExpr start m left s = (some (some grown), s')) (fuel : Nat) :
    exprLoop parseExpr start m (fuel + 1) left s = exprLoop parseExpr start m fuel grown s' := by
  rw [exprLoop, bind_some h]

theorem exprLoop_ended (h : exprRound parseExpr start m left s = (some none, s)) (fuel : Nat) :
    exprLoop parseExpr start m (fuel + 1) left s = (some left, s) := by
  rw [exprLoop, bind_some h]
  rfl

end Parse

/-! ### Prefixes -/

open Parse

theorem arrowBehind_op (depth : Nat) (op : BinOp) (ks : List TokenKind) :
    arrowBehind depth ((opLexeme op).1 :: ks) = arrowBehind depth ks := by
  cases op <;> rfl

theorem arrowBehind_unary (depth : Nat) (op : UnOp) (ks : List TokenKind) :
    arrowBehind depth ((unaryLexeme op).1 :: ks) = arrowBehind depth ks := by
  cases op <;> rfl

theorem arrowBehind_name (depth : Nat) {k : TokenKind} (hk : kindIsNameCapable k = true)
    (ks : List TokenKind) : arrowBehind depth (k :: ks) = arrowBehind depth ks := by
  cases k <;> first | rfl | cases hk

/-- A closing bracket that is not the outermost one. -/
theorem arrowBehind_close (depth : Nat) {k : TokenKind} (hk : k = .rParen ∨ k = .rBracket)
    (ks : List TokenKind) :
    arrowBehind (depth + 2) (k :: ks) = arrowBehind (depth + 1) ks := by
  rcases hk with rfl | rfl <;> exact if_neg (Nat.succ_ne_zero depth)

mutual

/-- A tree closes the brackets that it opens. -/
theorem arrowBehind_print (depth : Nat) : ∀ (t : Tree) (ks : List TokenKind), t.Lexical →
    arrowBehind (depth + 1) (t.print.map Prod.fst ++ ks) = arrowBehind (depth + 1) ks
  | .identifier _, ks, _ | .number _, ks, _ | .string _, ks, _ | .boolean true, ks, _
  | .boolean false, ks, _ | .none, ks, _ => rfl
  | .paren expr, ks, h => by
    simp only [Tree.print, List.map_cons, List.map_append, List.cons_append, List.append_assoc,
      List.map_nil, List.nil_append]
    show arrowBehind (depth + 2) _ = _
    rw [arrowBehind_print (depth + 1) expr _ h, arrowBehind_close depth (.inl rfl)]
  | .unary op operand, ks, h => by
    rw [Tree.print, List.map_cons, List.cons_append, arrowBehind_unary,
      arrowBehind_print depth operand ks h]
  | .await operand, ks, h => by
    rw [Tree.print, List.map_cons, List.cons_append]
    exact arrowBehind_print depth operand ks h
  | .binary op left right, ks, h => by
    simp only [Tree.print, List.map_cons, List.map_append, List.cons_append, List.append_assoc]
    rw [arrowBehind_print depth left _ h.1, arrowBehind_op, arrowBehind_print depth right ks h.2]
  | .ternary condition thenBranch elseBranch, ks, h => by
    simp only [Tree.print, List.map_cons, List.map_append, List.cons_append, List.append_assoc]
    rw [arrowBehind_print depth condition _ h.1]
    refine (arrowBehind_print depth thenBranch _ h.2.1).trans ?_
    exact arrowBehind_print depth elseBranch ks h.2.2
  | .member object kind field, ks, h => by
    simp only [Tree.print, List.map_cons, List.map_append, List.cons_append, List.append_assoc,
      List.map_nil, List.nil_append]
    rw [arrowBehind_print depth object _ h.1]
    exact arrowBehind_name _ h.2 ks
  | .index object position, ks, h => by
    simp only [Tree.print, List.map_cons, List.map_append, List.cons_append, List.append_assoc,
      List.map_nil, List.nil_append]
    rw [arrowBehind_print depth object _ h.1]
    show arrowBehind (depth + 2) _ = _
    rw [arrowBehind_print (depth + 1) position _ h.2, arrowBehind_close depth (.inr rfl)]
  | .call callee args, ks, h => by
    simp only [Tree.print, List.map_cons, List.map_append, List.cons_append, List.append_assoc,
      List.map_nil, List.nil_append]
    rw [arrowBehind_print depth callee _ h.1]
    show arrowBehind (depth + 2) _ = _
    rw [arrowBehind_printArgs (depth + 1) args _ h.2, arrowBehind_close depth (.inl rfl)]

theorem arrowBehind_printArgs (depth : Nat) : ∀ (ts : List Tree) (ks : List TokenKind),
    Tree.LexicalAll ts →
    arrowBehind (depth + 1) ((Tree.printArgs ts).map Prod.fst ++ ks) = arrowBehind (depth + 1) ks
  | [], ks, _ => rfl
  | [arg], ks, h => arrowBehind_print depth arg ks h.1
  | arg :: next :: args, ks, h => by
    show arrowBehind (depth + 1) ((arg.print ++ (.comma, [',']) ::
      Tree.printArgs (next :: args)).map Prod.fst ++ ks) = _
    rw [List.map_append, List.map_cons, List.append_assoc, List.cons_append,
      arrowBehind_print depth arg _ h.1]
    exact arrowBehind_printArgs depth (next :: args) ks h.2

end

/-- What a tree starts with. -/
theorem print_head : ∀ t : Tree, ∃ l rest, t.print = l :: rest ∧ l.1 ≠ .newline ∧ l.1 ≠ .rParen
  | .identifier _ | .number _ | .string _ | .boolean true | .boolean false | .none =>
    ⟨_, _, rfl, by rintro ⟨⟩, by rintro ⟨⟩⟩
  | .paren _ | .await _ => ⟨_, _, rfl, by rintro ⟨⟩, by rintro ⟨⟩⟩
  | .unary op _ => ⟨_, _, rfl, by cases op <;> decide, by cases op <;> decide⟩
  | .binary op left right => by
    obtain ⟨l, rest, hprint, hl⟩ := print_head left
    exact ⟨l, rest ++ opLexeme op :: right.print, by rw [Tree.print, hprint]; rfl, hl⟩
  | .ternary condition _ _ | .member condition _ _ | .index condition _ | .call condition _ => by
    obtain ⟨l, rest, hprint, hl⟩ := print_head condition
    exact ⟨l, _, by rw [Tree.print, hprint]; rfl, hl⟩

namespace Parse

variable {parseExpr : Nat → Parse (ExprAst X)} {forms : Forms X} {s : Parser} {t : Token}
  {rest : List Token}

/-- A literal of one token. -/
theorem parsePrefix_literal (hs : s.ahead = t :: rest) {node : Span → ExprAst X}
    (hnode : t.kind = .number ∧ isNumber (t.text.filter (· ≠ '_')) = true ∧
        node = .number (t.text.filter (· ≠ '_')) ∨
      t.kind = .string ∧ node = .string (unescapeString t.text) ∨
      t.kind = .kwTrue ∧ node = .boolean true ∨ t.kind = .kwFalse ∧ node = .boolean false ∨
      t.kind = .kwNone ∧ node = .none) :
    ∃ span, parsePrefix parseExpr forms s = (some (node span), s.past 1) := by
  have hkind : s.currentKind = t.kind := currentKind_ahead hs
  refine ⟨⟨s.current.span.start, (s.past 1).prev.span.endPos, s.current.span.byteStart,
    (s.past 1).prev.span.byteEnd⟩, ?_⟩
  rw [parsePrefix]
  rcases hnode with ⟨ht, hnumber, rfl⟩ | ⟨ht, rfl⟩ | ⟨ht, rfl⟩ | ⟨ht, rfl⟩ | ⟨ht, rfl⟩
  all_goals
    rw [bind_some (skipNewlines_of_ne (by rw [hkind, ht]; decide)),
      bind_some (show spanStart s = (some (s.current.span.start, s.current.span.byteStart), s)
        from rfl),
      bind_some (show getState s = (some s, s) from rfl), hkind, ht]
    dsimp only
  · rw [current_eq hs, if_pos hnumber, bind_some (advance_ahead hs (by rw [ht]; decide))]
    rfl
  · rw [bind_some (advance_ahead hs (by rw [ht]; decide)), current_eq hs]
    rfl
  all_goals
    rw [bind_some (advance_ahead hs (by rw [ht]; decide))]
    rfl

theorem parsePrefix_identifier (hs : s.ahead = t :: rest) (ht : t.kind = .identifier)
    (hbrace : (rest.map Token.kind).headD .eof ≠ .lBrace) :
    ∃ span, parsePrefix parseExpr forms s = (some (.identifier t.text span), s.past 1) := by
  have hkind : s.currentKind = .identifier := (currentKind_ahead hs).trans ht
  have hsafe : ¬ (s.current.text = "safe".toList ∧ s.kindAt 1 = some .lBrace) := by
    rintro ⟨-, hnext⟩
    rw [kindAt_eq, kinds_eq, hs] at hnext
    rcases rest with - | ⟨next, tail⟩
    · cases hnext
    · exact hbrace (Option.some_inj.mp hnext)
  refine ⟨⟨s.current.span.start, (s.past 1).prev.span.endPos, s.current.span.byteStart,
    (s.past 1).prev.span.byteEnd⟩, ?_⟩
  rw [parsePrefix, bind_some (skipNewlines_of_ne (by rw [hkind]; decide)),
    bind_some (show spanStart s = (some (s.current.span.start, s.current.span.byteStart), s)
      from rfl),
    bind_some (show getState s = (some s, s) from rfl), hkind]
  dsimp only
  rw [if_neg hsafe, bind_some (advance_ahead hs (by rw [ht]; decide)), current_eq hs]
  rfl

theorem parsePrefix_paren (hs : s.ahead = t :: rest) (ht : t.kind = .lParen)
    (harrow : arrowBehind 1 (rest.map Token.kind) = false)
    (hnewline : (s.past 1).currentKind ≠ .newline) {e : ExprAst X} {s₁ : Parser}
    (he : parseExpr 0 (s.past 1) = (some e, s₁)) {close : Token} {tail : List Token}
    (hclose : s₁.ahead = close :: tail) (hkind : close.kind = .rParen) :
    ∃ span, parsePrefix parseExpr forms s = (some (.paren e span), s₁.past 1) := by
  have hcurrent : s.currentKind = .lParen := (currentKind_ahead hs).trans ht
  have hgroup : parenGroupStartsArrowAt s 0 = false := by
    rw [parenGroupStartsArrowAt]
    have hkinds : (s.tokens.drop (s.pos + 0)).map Token.kind = .lParen :: rest.map Token.kind := by
      rw [← ht, ← List.map_cons, ← hs]
      rfl
    rw [hkinds]
    exact (congrArg (_ && ·) harrow).trans (Bool.and_false _)
  have hcloseKind : s₁.currentKind = .rParen := (currentKind_ahead hclose).trans hkind
  refine ⟨⟨s.current.span.start, (s₁.past 1).prev.span.endPos, s.current.span.byteStart,
    (s₁.past 1).prev.span.byteEnd⟩, ?_⟩
  rw [parsePrefix, bind_some (skipNewlines_of_ne (by rw [hcurrent]; decide)),
    bind_some (show spanStart s = (some (s.current.span.start, s.current.span.byteStart), s)
      from rfl),
    bind_some (show getState s = (some s, s) from rfl), hcurrent]
  dsimp only
  rw [hgroup, if_neg Bool.false_ne_true, parenthesized,
    bind_some (advance_ahead hs (by rw [ht]; decide)), bind_some (skipNewlines_of_ne hnewline),
    bind_some (parseExpression_eq hnewline he),
    bind_some (skipNewlines_of_ne (by rw [hcloseKind]; decide)),
    ← hkind, bind_some (expect_ahead hclose (by rw [hkind]; decide))]
  rfl

theorem parsePrefix_operator (hs : s.ahead = t :: rest) {node : ExprAst X → Span → ExprAst X}
    (hnode : (∃ op, t.kind = (unaryLexeme op).1 ∧ node = .unary op) ∨
      t.kind = .kwAwait ∧ node = .await) {e : ExprAst X} {s₁ : Parser}
    (he : parseExpr 16 (s.past 1) = (some e, s₁)) :
    ∃ span, parsePrefix parseExpr forms s = (some (node e span), s₁) := by
  have hkind : s.currentKind = t.kind := currentKind_ahead hs
  have hread : ∀ node' : ExprAst X → Span → ExprAst X, t.kind ≠ .eof →
      prefixed parseExpr node' (s.current.span.start, s.current.span.byteStart) s =
        (some (node' e ⟨s.current.span.start, s₁.prev.span.endPos, s.current.span.byteStart,
          s₁.prev.span.byteEnd⟩), s₁) := by
    intro node' heof
    rw [prefixed, bind_some (advance_ahead hs heof), bind_some he]
    rfl
  refine ⟨⟨s.current.span.start, s₁.prev.span.endPos, s.current.span.byteStart,
    s₁.prev.span.byteEnd⟩, ?_⟩
  rw [parsePrefix]
  rcases hnode with ⟨op, ht, rfl⟩ | ⟨ht, rfl⟩
  · cases op
    all_goals
      rw [bind_some (skipNewlines_of_ne (by rw [hkind, ht]; decide)),
        bind_some (show spanStart s = (some (s.current.span.start, s.current.span.byteStart), s)
          from rfl),
        bind_some (show getState s = (some s, s) from rfl), hkind, ht]
      exact hread _ (by rw [ht]; decide)
  · rw [bind_some (skipNewlines_of_ne (by rw [hkind, ht]; decide)),
      bind_some (show spanStart s = (some (s.current.span.start, s.current.span.byteStart), s)
        from rfl),
      bind_some (show getState s = (some s, s) from rfl), hkind, ht]
    exact hread _ (by rw [ht]; decide)

end Parse

/-! ### Growth along the left edge -/

/-- The tokens of a tree lie ahead, what comes next ends its right edge, and no `<` among them looks
like type arguments. -/
structure Spelled (s : Parser) (t : Tree) (ts rest : List Token) : Prop where
  ahead : s.ahead = ts ++ rest
  text : ts.map lexeme = t.print
  ends : t.Ends (rest.map Token.kind)
  calm : Calm rest.length ((ts ++ rest).map Token.kind)

/-- From the first prefix on, the loop grows the tree. -/
def Grows (parseExpr : Nat → Parse (ExprAst X)) (forms : Forms X) (start : Pos × Nat) (m : Nat)
    (s : Parser) (t : Tree) (n : Nat) : Prop :=
  ∃ left j k e, parsePrefix parseExpr forms s = (some left, s.past j) ∧
    (s.past j).currentKind ≠ .fatArrow ∧ k < n ∧
    (∀ fuel, exprLoop parseExpr start m (fuel + k) left (s.past j) =
      exprLoop parseExpr start m fuel e (s.past n)) ∧ t.Is e

/-- `parse_expr` reads the tree. -/
def Reads (parseExpr : Nat → Parse (ExprAst X)) (m : Nat) (s : Parser)
    (t : Tree) (n : Nat) : Prop :=
  ∃ e, parseExpr m s = (some e, s.past n) ∧ t.Is e

section

variable {parseExpr : Nat → Parse (ExprAst X)} {forms : Forms X} {start : Pos × Nat} {m : Nat}
  {s : Parser}

/-- A tree that is all prefix. -/
theorem Grows.of_prefix {t : Tree} {n : Nat} {e : ExprAst X} (hn : 0 < n)
    (h : parsePrefix parseExpr forms s = (some e, s.past n))
    (harrow : (s.past n).currentKind ≠ .fatArrow) (he : t.Is e) :
    Grows parseExpr forms start m s t n :=
  ⟨e, n, 0, e, h, harrow, hn, fun _ => rfl, he⟩

/-- One more round. -/
theorem Grows.round {t u : Tree} {n l : Nat} (h : Grows parseExpr forms start m s t n)
    (hl : 0 < l) (hround : ∀ e, t.Is e → ∃ grown,
      exprRound parseExpr start m e (s.past n) = (some (some grown), s.past (n + l)) ∧ u.Is grown) :
    Grows parseExpr forms start m s u (n + l) := by
  obtain ⟨left, j, k, e, hprefix, harrow, hk, hloop, he⟩ := h
  obtain ⟨grown, hgrown, hu⟩ := hround e he
  refine ⟨left, j, k + 1, grown, hprefix, harrow, by omega, fun fuel => ?_, hu⟩
  rw [show fuel + (k + 1) = fuel + 1 + k by omega, hloop, exprLoop_grown hgrown]

end

theorem printArgs_head : ∀ {ts : List Tree}, ts ≠ [] →
    ∃ l rest, Tree.printArgs ts = l :: rest ∧ l.1 ≠ .newline ∧ l.1 ≠ .rParen
  | [], h => absurd rfl h
  | [arg], _ => print_head arg
  | arg :: next :: args, _ => by
    obtain ⟨l, rest, hprint, hl⟩ := print_head arg
    refine ⟨l, rest ++ (.comma, [',']) :: Tree.printArgs (next :: args), ?_, hl⟩
    show arg.print ++ (.comma, [',']) :: Tree.printArgs (next :: args) = _
    rw [hprint, List.cons_append]

/-- The kind of the first of the tokens ahead. -/
theorem currentKind_of_text {s : Parser} {ts rest : List Token} {l : Lexeme} {lexemes : List Lexeme}
    (hahead : s.ahead = ts ++ rest) (htext : ts.map lexeme = l :: lexemes) :
    s.currentKind = l.1 := by
  obtain ⟨first, tail, rfl, hfirst, -⟩ := List.map_eq_cons_iff.mp htext
  rw [currentKind_ahead hahead]
  exact congrArg Prod.fst hfirst

theorem print_ne_nil (t : Tree) : t.print ≠ [] := by
  obtain ⟨l, rest, hprint, -⟩ := print_head t
  rw [hprint]
  rintro ⟨⟩

theorem Tree.nesting_pos : ∀ t : Tree, 0 < t.nesting
  | identifier _ | number _ | string _ | boolean _ | none => Nat.one_pos
  | paren _ | unary _ _ | await _ => Nat.succ_pos _
  | binary _ left _ => left.nesting_pos.trans_le (Nat.le_max_left _ _)
  | ternary condition _ _ => condition.nesting_pos.trans_le (Nat.le_max_left _ _)
  | member object _ _ => object.nesting_pos
  | index object _ => object.nesting_pos.trans_le (Nat.le_max_left _ _)
  | call callee _ => callee.nesting_pos.trans_le (Nat.le_max_left _ _)

namespace Spelled

variable {s : Parser} {t : Tree} {ts rest : List Token}

/-- A `<` of a tree is no start of type arguments. -/
theorem calm_lt (h : Spelled s t ts rest) {before after : List Token} {less : Token}
    (hts : ts = before ++ less :: after) (hless : less.kind = .lt) :
    closesBeforeCall 1 ((after ++ rest).map Token.kind) = false ∧
      closesBeforeStruct 1 ((after ++ rest).map Token.kind) = false := by
  apply h.calm
  · rw [← hless, ← List.map_cons, hts, List.append_assoc, List.cons_append]
    exact ⟨before.map Token.kind, List.map_append.symm⟩
  · rw [List.length_map, List.length_append]
    exact Nat.le_add_left _ _

/-- The part of the tokens that spells a part of the tree. -/
theorem part (h : Spelled s t ts rest) (before : List Token) {us after : List Token}
    (hts : ts = before ++ us ++ after) {u : Tree} (htext : us.map lexeme = u.print)
    (hends : u.Ends ((after ++ rest).map Token.kind)) :
    Spelled (s.past before.length) u us (after ++ rest) where
  ahead := by
    rw [ahead_past, h.ahead, hts, List.append_assoc, List.append_assoc, List.drop_left]
  text := htext
  ends := hends
  calm := by
    apply h.calm.mono
    · rw [hts, List.append_assoc, List.append_assoc]
      exact ⟨before.map Token.kind, List.map_append.symm⟩
    · rw [List.length_append]
      exact Nat.le_add_left _ _

/-- What is on the left of the tokens. -/
theorem left (h : Spelled s t ts rest) {us after : List Token} (hts : ts = us ++ after) {u : Tree}
    (htext : us.map lexeme = u.print) (hends : u.Ends ((after ++ rest).map Token.kind)) :
    Spelled s u us (after ++ rest) :=
  h.part [] hts htext hends

/-- What is on the right of them. -/
theorem right (h : Spelled s t ts rest) (before : List Token) {us : List Token}
    (hts : ts = before ++ us) {u : Tree} (htext : us.map lexeme = u.print)
    (hends : u.Ends (rest.map Token.kind)) : Spelled (s.past before.length) u us rest :=
  h.part before (hts.trans (List.append_nil _).symm) htext hends

theorem currentKind_ne (h : Spelled s t ts rest) :
    s.currentKind ≠ .newline ∧ s.currentKind ≠ .rParen := by
  obtain ⟨l, lexemes, hprint, hl⟩ := print_head t
  rwa [currentKind_of_text h.ahead (h.text.trans hprint)]

theorem length_pos (h : Spelled s t ts rest) : 0 < ts.length := by
  rw [← List.length_map lexeme, h.text]
  exact List.length_pos_of_ne_nil (print_ne_nil t)

theorem length_le (h : Spelled s t ts rest) : ts.length ≤ s.tokens.length := by
  have hlength := congrArg List.length h.ahead
  rw [Parser.ahead, List.length_drop, List.length_append] at hlength
  omega

theorem kinds_past (h : Spelled s t ts rest) : (s.past ts.length).kinds = rest.map Token.kind := by
  rw [kinds_eq, ahead_past_append h.ahead]

theorem currentKind_past (h : Spelled s t ts rest) :
    (s.past ts.length).currentKind = (rest.map Token.kind).headD .eof := by
  rw [currentKind_eq, h.kinds_past]

end Spelled

/-- On any level of the loop, whatever the state. -/
def Growing (forms : Forms X) (t : Tree) : Prop :=
  ∀ levels start m s ts rest, t.nesting ≤ levels + 1 → m ≤ t.level → Spelled s t ts rest →
    Grows (parseExpr forms levels) forms start m s t ts.length

section

variable {forms : Forms X}

/-- `parse_expr` reads a tree that grows up to where the loop stops. -/
theorem Growing.reads {t : Tree} (h : Growing forms t) {levels m : Nat} {s : Parser}
    {ts rest : List Token} (hlevels : t.nesting ≤ levels) (hm : m ≤ t.level)
    (hs : Spelled s t ts rest) (hstops : Stops m (rest.map Token.kind)) :
    Reads (parseExpr forms levels) m s t ts.length := by
  obtain ⟨l, rfl⟩ : ∃ l, levels = l + 1 :=
    Nat.exists_eq_add_one.mpr (t.nesting_pos.trans_le hlevels)
  -- the state one level deeper
  let deeper : Parser := { s with depth := s.depth + 1 }
  have hdeeper : Spelled deeper t ts rest := ⟨hs.ahead, hs.text, hs.ends, hs.calm⟩
  obtain ⟨left, j, k, e, hprefix, harrow, hk, hloop, he⟩ :=
    h l (deeper.current.span.start, deeper.current.span.byteStart) m deeper ts rest hlevels hm
      hdeeper
  have hend : exprLoop (parseExpr forms l)
      (deeper.current.span.start, deeper.current.span.byteStart) m (deeper.tokens.length + 1) left
      (deeper.past j) = (some e, deeper.past ts.length) := by
    -- every round consumes a token, so that one is left for the end
    obtain ⟨fuel, hfuel⟩ := Nat.le.dest (hk.le.trans hdeeper.length_le)
    rw [← hfuel, show k + fuel + 1 = fuel + 1 + k by omega, hloop]
    exact exprLoop_ended (exprRound_stops (hdeeper.kinds_past ▸ hstops)) fuel
  refine ⟨e, ?_, he⟩
  have hbody : exprBody (parseExpr forms l) forms m deeper = (some e, deeper.past ts.length) := by
    rw [exprBody, bind_some (skipNewlines_of_ne hdeeper.currentKind_ne.1),
      bind_some (show spanStart deeper = (some (deeper.current.span.start,
        deeper.current.span.byteStart), deeper) from rfl), bind_some hprefix,
      bind_some (show getState (deeper.past j) = (some (deeper.past j), deeper.past j) from rfl)]
    rcases left.identifier? with - | ⟨name, span⟩
    · exact hend
    · dsimp only
      rw [if_neg harrow]
      exact hend
  rw [parseExpr, nested]
  show (let (r, s') := exprBody (parseExpr forms l) forms m deeper
    (r, { s' with depth := s.depth })) = _
  rw [hbody]
  rfl

/-! #### One lemma for each way to build a tree -/

theorem growing_literal {t : Tree} {kind : TokenKind} {text : List Char}
    (hprint : t.print = [(kind, text)])
    (hends : ∀ ks, t.Ends ks → ks.headD .eof ≠ .fatArrow)
    (hread : ∀ (parseExpr : Nat → Parse (ExprAst X)) (s : Parser) (first : Token)
      (rest : List Token), s.ahead = first :: rest → first.kind = kind → first.text = text →
      t.Ends (rest.map Token.kind) →
      ∃ e, parsePrefix parseExpr forms s = (some e, s.past 1) ∧ t.Is e) : Growing forms t := by
  intro levels start m s ts rest _ _ hs
  obtain ⟨first, tail, rfl, hfirst, htail⟩ := List.map_eq_cons_iff.mp (hs.text.trans hprint)
  cases List.map_eq_nil_iff.mp htail
  obtain ⟨e, hprefix, he⟩ := hread (parseExpr forms levels) s first rest hs.ahead
    (congrArg Prod.fst hfirst) (congrArg Prod.snd hfirst) hs.ends
  exact Grows.of_prefix Nat.one_pos hprefix (hs.currentKind_past ▸ hends _ hs.ends) he

theorem growing_paren {expr : Tree} (h : Growing forms expr) (hlexical : expr.Lexical) :
    Growing forms (.paren expr) := by
  intro levels start m s ts rest hlevels _ hs
  have htext := hs.text
  rw [Tree.print] at htext
  obtain ⟨opening, inner, rfl, hopening, hinner⟩ := List.map_eq_cons_iff.mp htext
  obtain ⟨us, closing, rfl, hus, hclosing⟩ := List.map_eq_append_iff.mp hinner
  obtain ⟨close, nothing, rfl, hclose, hnothing⟩ := List.map_eq_cons_iff.mp hclosing
  cases List.map_eq_nil_iff.mp hnothing
  have hopeningKind : opening.kind = .lParen := congrArg Prod.fst hopening
  have hcloseKind : close.kind = .rParen := congrArg Prod.fst hclose
  have hstops : ∀ n, Stops n (([close] ++ rest).map Token.kind) := by
    intro n
    rw [List.singleton_append, List.map_cons, hcloseKind]
    exact stops_closing (.inr (.inr (.inl rfl))) n _
  have hspelled : Spelled (s.past 1) expr us ([close] ++ rest) :=
    hs.part [opening] rfl hus
      (Tree.ends_of_stops (Nat.zero_le _) (by decide) (hstops 0))
  obtain ⟨e, he, his⟩ := h.reads (Nat.le_of_succ_le_succ hlevels) (Nat.zero_le _) hspelled
    (hstops 0)
  -- the group is no parameter list
  have harrow : arrowBehind 1 ((us ++ ([close] ++ rest)).map Token.kind) = false := by
    have hkinds : us.map Token.kind = expr.print.map Prod.fst := by
      rw [← hus, List.map_map]
      rfl
    rw [List.map_append, hkinds, arrowBehind_print 0 expr _ hlexical, List.singleton_append,
      List.map_cons, hcloseKind]
    apply beq_eq_false_iff_ne.mpr
    intro hhead
    apply hs.ends.1
    rw [List.headD_eq_head?_getD, hhead]
    rfl
  have hahead : s.ahead = opening :: (us ++ ([close] ++ rest)) := by
    rw [hs.ahead, List.cons_append, List.append_assoc]
  have hpast : ((s.past 1).past us.length).past 1 = s.past (opening :: (us ++ [close])).length := by
    rw [past_past, past_past, List.length_cons, List.length_append, List.length_singleton,
      Nat.add_comm 1, Nat.add_right_comm]
  obtain ⟨span, hread⟩ : ∃ span, parsePrefix (parseExpr forms levels) forms s =
      (some (.paren e span), s.past (opening :: (us ++ [close])).length) :=
    hpast ▸ parsePrefix_paren hahead hopeningKind harrow hspelled.currentKind_ne.1 he
      (ahead_past_append hspelled.ahead) hcloseKind
  exact Grows.of_prefix (Nat.succ_pos _) hread (hs.currentKind_past ▸ hs.ends.1) ⟨e, span, rfl, his⟩

/-- An operator in front of its operand. -/
theorem growing_operator {t operand : Tree} {l : Lexeme} {node : ExprAst X → Span → ExprAst X}
    (h : Growing forms operand) (hprint : t.print = l :: operand.print)
    (hnesting : t.nesting = operand.nesting + 1) (hlevel : 16 ≤ operand.level)
    (hends : ∀ ks, t.Ends ks → Stops 16 ks)
    (hnode : (∃ op, l.1 = (unaryLexeme op).1 ∧ node = .unary op) ∨ l.1 = .kwAwait ∧ node = .await)
    (his : ∀ e span, operand.Is e → t.Is (node e span)) : Growing forms t := by
  intro levels start m s ts rest hlevels _ hs
  obtain ⟨op, us, rfl, hop, hus⟩ := List.map_eq_cons_iff.mp (hs.text.trans hprint)
  have hstops : Stops 16 (rest.map Token.kind) := hends _ hs.ends
  have hspelled : Spelled (s.past 1) operand us rest :=
    hs.right [op] rfl hus
      (Tree.ends_of_stops hlevel (by decide) hstops)
  obtain ⟨e, he, hoperand⟩ :=
    h.reads (Nat.le_of_succ_le_succ (hnesting ▸ hlevels)) hlevel hspelled hstops
  have hkind : op.kind = l.1 := congrArg Prod.fst hop
  have hpast : (s.past 1).past us.length = s.past (op :: us).length := by
    rw [past_past, List.length_cons, Nat.add_comm]
  obtain ⟨span, hread⟩ : ∃ span, parsePrefix (parseExpr forms levels) forms s =
      (some (node e span), s.past (op :: us).length) :=
    hpast ▸ parsePrefix_operator hs.ahead (hkind ▸ hnode) he
  exact Grows.of_prefix (Nat.succ_pos _) hread (hs.currentKind_past ▸ hstops.closed.2.2.2)
    (his e span hoperand)

theorem growing_binary {op : BinOp} {left right : Tree} (hleft : Growing forms left)
    (hright : Growing forms right) (hleftLevel : max 2 (lbp op) ≤ left.level)
    (hrightLevel : rbp op ≤ right.level) : Growing forms (.binary op left right) := by
  intro levels start m s ts rest hlevels hm hs
  have htext := hs.text
  rw [Tree.print] at htext
  rw [Tree.nesting] at hlevels
  obtain ⟨ls, after, rfl, hls, hafter⟩ := List.map_eq_append_iff.mp htext
  obtain ⟨t, rs, rfl, ht, hrs⟩ := List.map_eq_cons_iff.mp hafter
  have hkind : t.kind = (opLexeme op).1 := congrArg Prod.fst ht
  have hcalm : op = .lt → closesBeforeCall 1 ((rs ++ rest).map Token.kind) = false ∧
      closesBeforeStruct 1 ((rs ++ rest).map Token.kind) = false := by
    rintro rfl
    exact hs.calm_lt rfl hkind
  have hleftSpelled : Spelled s left ls (t :: rs ++ rest) := by
    apply hs.left rfl hls
    rw [List.cons_append, List.map_cons, hkind]
    exact Tree.ends_op hleftLevel fun hop => (hcalm hop).1
  have hstops : Stops (rbp op) (rest.map Token.kind) := hs.ends
  have hpast : (s.past ls.length).past 1 = s.past (ls ++ [t]).length := by
    rw [past_past, List.length_append, List.length_singleton]
  have hrightSpelled : Spelled ((s.past ls.length).past 1) right rs rest :=
    hpast ▸ hs.right (ls ++ [t]) (List.append_cons _ _ _) hrs
      (Tree.ends_of_stops hrightLevel (lbp_rbp op).2.1 hstops)
  obtain ⟨b, hb, hbIs⟩ := hright.reads (Nat.le_of_succ_le_succ (le_of_max_le_right hlevels))
    hrightLevel hrightSpelled hstops
  rw [List.length_append, List.length_cons, Nat.add_comm rs.length]
  refine (hleft levels start m s ls _ (le_of_max_le_left hlevels)
    (hm.trans ((le_max_right 2 _).trans hleftLevel)) hleftSpelled).round
    (Nat.add_pos_left Nat.one_pos _) fun a ha => ?_
  obtain ⟨span, hround⟩ : ∃ span, exprRound (parseExpr forms levels) start m a (s.past ls.length) =
      (some (some (.binary op a b span)), ((s.past ls.length).past 1).past rs.length) :=
    exprRound_op hm (ahead_past_append hleftSpelled.ahead) hkind hcalm
      hrightSpelled.currentKind_ne.1 hb
  rw [past_past, past_past] at hround
  exact ⟨_, hround, a, b, span, rfl, ha, hbIs⟩

theorem growing_ternary {condition thenBranch elseBranch : Tree} (h : Growing forms condition)
    (hthen : Growing forms thenBranch) (helse : Growing forms elseBranch)
    (hlevel : 2 ≤ condition.level) : Growing forms (.ternary condition thenBranch elseBranch) := by
  intro levels start m s ts rest hlevels hm hs
  have htext := hs.text
  rw [Tree.print] at htext
  rw [Tree.nesting] at hlevels
  obtain ⟨cs, after, rfl, hcs, hafter⟩ := List.map_eq_append_iff.mp htext
  obtain ⟨question, branches, rfl, hquestion, hbranches⟩ := List.map_eq_cons_iff.mp hafter
  obtain ⟨us, last, rfl, hus, hlast⟩ := List.map_eq_append_iff.mp hbranches
  obtain ⟨colon, vs, rfl, hcolon, hvs⟩ := List.map_eq_cons_iff.mp hlast
  have hquestionKind : question.kind = .question := congrArg Prod.fst hquestion
  have hcolonKind : colon.kind = .colon := congrArg Prod.fst hcolon
  have hbranchLevels := Nat.le_of_succ_le_succ (le_of_max_le_right hlevels)
  have hcondition : Spelled s condition cs (question :: (us ++ colon :: vs) ++ rest) := by
    apply hs.left rfl hcs
    rw [List.cons_append, List.map_cons, hquestionKind]
    exact Tree.ends_question hlevel _
  have hthenStops : Stops 0 ((colon :: vs ++ rest).map Token.kind) := by
    rw [List.cons_append, List.map_cons, hcolonKind]
    exact stops_closing (.inl rfl) 0 _
  have hthenPast : (s.past cs.length).past 1 = s.past (cs ++ [question]).length := by
    rw [past_past, List.length_append, List.length_singleton]
  have hthenSpelled : Spelled ((s.past cs.length).past 1) thenBranch us (colon :: vs ++ rest) :=
    hthenPast ▸ hs.part (cs ++ [question]) (by simp) hus
      (Tree.ends_of_stops (Nat.zero_le _) (by decide) hthenStops)
  obtain ⟨b, hb, hbIs⟩ := hthen.reads (le_of_max_le_left hbranchLevels) (Nat.zero_le _)
    hthenSpelled hthenStops
  have helsePast : (((s.past cs.length).past 1).past us.length).past 1 =
      s.past (cs ++ question :: (us ++ [colon])).length := by
    rw [past_past, past_past, past_past, List.length_append, List.length_cons, List.length_append,
      List.length_singleton]
    congr 1
    omega
  have helseStops : Stops 0 (rest.map Token.kind) := hs.ends
  have helseSpelled : Spelled ((((s.past cs.length).past 1).past us.length).past 1) elseBranch vs
      rest :=
    helsePast ▸ hs.right (cs ++ question :: (us ++ [colon])) (by simp) hvs
      (Tree.ends_of_stops (Nat.zero_le _) (by decide) helseStops)
  obtain ⟨d, hd, hdIs⟩ := helse.reads (le_of_max_le_right hbranchLevels) (Nat.zero_le _)
    helseSpelled helseStops
  rw [List.length_append]
  refine (h levels start m s cs _ (le_of_max_le_left hlevels)
    ((hm.trans (by decide : 1 ≤ 2)).trans hlevel) hcondition).round (Nat.succ_pos _) fun a ha => ?_
  obtain ⟨span, hround⟩ : ∃ span, exprRound (parseExpr forms levels) start m a (s.past cs.length) =
      (some (some (.ternary a b d span)),
        ((((s.past cs.length).past 1).past us.length).past 1).past vs.length) :=
    exprRound_question hm (ahead_past_append hcondition.ahead) hquestionKind hb
      (ahead_past_append hthenSpelled.ahead) hcolonKind helseSpelled.currentKind_ne.1 hd
  refine ⟨_, hround.trans ?_, a, b, d, span, rfl, ha, hbIs, hdIs⟩
  rw [past_past, past_past, past_past, past_past, List.length_cons, List.length_append,
    List.length_cons]
  congr 2
  omega

theorem growing_member {object : Tree} {kind : TokenKind} {field : List Char}
    (h : Growing forms object) (hlevel : 17 ≤ object.level)
    (hkind : kindIsNameCapable kind = true) :
    Growing forms (.member object kind field) := by
  intro levels start m s ts rest hlevels hm hs
  have htext := hs.text
  rw [Tree.print] at htext
  obtain ⟨os, after, rfl, hos, hafter⟩ := List.map_eq_append_iff.mp htext
  obtain ⟨dot, names, rfl, hdot, hnames⟩ := List.map_eq_cons_iff.mp hafter
  obtain ⟨name, nothing, rfl, hname, hnothing⟩ := List.map_eq_cons_iff.mp hnames
  cases List.map_eq_nil_iff.mp hnothing
  have hdotKind : dot.kind = .dot := congrArg Prod.fst hdot
  have hnameKind : name.kind = kind := congrArg Prod.fst hname
  have hobject : Spelled s object os ([dot, name] ++ rest) := by
    apply hs.left rfl hos
    rw [List.cons_append, List.map_cons, hdotKind]
    exact Tree.ends_postfix hlevel (by decide) (by decide) _
  rw [List.length_append]
  refine (h levels start m s os _ hlevels (hm.trans hlevel) hobject).round (Nat.succ_pos _)
    fun a ha => ?_
  obtain ⟨span, hround⟩ : ∃ span, exprRound (parseExpr forms levels) start m a (s.past os.length) =
      (some (some (.fieldAccess a name.text span)), (s.past os.length).past 2) :=
    exprRound_member (ahead_past_append hobject.ahead) hdotKind
      (hnameKind.symm ▸ hkind)
  exact ⟨_, hround, a, span, congrArg (ExprAst.fieldAccess a · span) (congrArg Prod.snd hname), ha⟩

theorem growing_index {object position : Tree} (h : Growing forms object)
    (hposition : Growing forms position) (hlevel : 17 ≤ object.level) :
    Growing forms (.index object position) := by
  intro levels start m s ts rest hlevels hm hs
  have htext := hs.text
  rw [Tree.print] at htext
  rw [Tree.nesting] at hlevels
  obtain ⟨os, after, rfl, hos, hafter⟩ := List.map_eq_append_iff.mp htext
  obtain ⟨opening, inner, rfl, hopening, hinner⟩ := List.map_eq_cons_iff.mp hafter
  obtain ⟨us, closing, rfl, hus, hclosing⟩ := List.map_eq_append_iff.mp hinner
  obtain ⟨close, nothing, rfl, hclose, hnothing⟩ := List.map_eq_cons_iff.mp hclosing
  cases List.map_eq_nil_iff.mp hnothing
  have hopeningKind : opening.kind = .lBracket := congrArg Prod.fst hopening
  have hcloseKind : close.kind = .rBracket := congrArg Prod.fst hclose
  have hobject : Spelled s object os (opening :: (us ++ [close]) ++ rest) := by
    apply hs.left rfl hos
    rw [List.cons_append, List.map_cons, hopeningKind]
    exact Tree.ends_postfix hlevel (by decide) (by decide) _
  have hstops : Stops 0 (([close] ++ rest).map Token.kind) := by
    rw [List.singleton_append, List.map_cons, hcloseKind]
    exact stops_closing (.inr (.inr (.inr rfl))) 0 _
  have hpast : (s.past os.length).past 1 = s.past (os ++ [opening]).length := by
    rw [past_past, List.length_append, List.length_singleton]
  have hspelled : Spelled ((s.past os.length).past 1) position us ([close] ++ rest) :=
    hpast ▸ hs.part (os ++ [opening]) (by simp) hus
      (Tree.ends_of_stops (Nat.zero_le _) (by decide) hstops)
  obtain ⟨b, hb, hbIs⟩ := hposition.reads (Nat.le_of_succ_le_succ (le_of_max_le_right hlevels))
    (Nat.zero_le _) hspelled hstops
  rw [List.length_append]
  refine (h levels start m s os _ (le_of_max_le_left hlevels) (hm.trans hlevel) hobject).round
    (Nat.succ_pos _) fun a ha => ?_
  obtain ⟨span, hround⟩ : ∃ span, exprRound (parseExpr forms levels) start m a (s.past os.length) =
      (some (some (.indexAccess a b span)),
        (((s.past os.length).past 1).past us.length).past 1) :=
    exprRound_index (ahead_past_append hobject.ahead) hopeningKind hspelled.currentKind_ne.1 hb
      (ahead_past_append hspelled.ahead) hcloseKind
  refine ⟨_, hround.trans ?_, a, b, span, rfl, ha, hbIs⟩
  rw [past_past, past_past, past_past, List.length_cons, List.length_append, List.length_singleton]
  congr 2
  omega

/-- The arguments of a call, up to its `)`. -/
def GrowingAll (forms : Forms X) (args : List Tree) : Prop :=
  ∀ levels s ts rest, Tree.nestingAll args ≤ levels → s.ahead = ts ++ rest →
    ts.map lexeme = Tree.printArgs args → (rest.map Token.kind).headD .eof = .rParen →
    Calm rest.length ((ts ++ rest).map Token.kind) → args ≠ [] →
    ∃ es, (∀ fuel, ts.length ≤ fuel →
      callArgs (parseExpr forms levels) fuel s = (some es, s.past ts.length)) ∧ Tree.IsAll args es

theorem growingAll_cons {arg : Tree} {args : List Tree} (h : Growing forms arg)
    (hargs : GrowingAll forms args) : GrowingAll forms (arg :: args) := by
  intro levels s ts rest hlevels hahead htext hrest hcalm _
  rw [Tree.nestingAll] at hlevels
  rcases args with - | ⟨next, args⟩
  · have hstops : Stops 0 (rest.map Token.kind) := by
      rcases hks : rest.map Token.kind with - | ⟨k, ks⟩
      · rw [hks] at hrest
        cases hrest
      · rw [hks] at hrest
        cases hrest
        exact stops_closing (.inr (.inr (.inl rfl))) 0 ks
    have hspelled : Spelled s arg ts rest :=
      ⟨hahead, htext, Tree.ends_of_stops (Nat.zero_le _) (by decide) hstops, hcalm⟩
    obtain ⟨e, he, his⟩ := h.reads (le_of_max_le_left hlevels) (Nat.zero_le _) hspelled hstops
    have hclose : (s.past ts.length).currentKind = .rParen := hspelled.currentKind_past.trans hrest
    refine ⟨[e], fun fuel hfuel => ?_, e, [], rfl, his, rfl⟩
    obtain ⟨f, rfl⟩ := Nat.exists_eq_add_one.mpr (hspelled.length_pos.trans_le hfuel)
    rw [callArgs, bind_some (parseExpression_eq hspelled.currentKind_ne.1 he),
      bind_some (skipNewlines_of_ne (by rw [hclose]; decide)),
      bind_some (eat_of_ne (by rw [hclose]; decide))]
    rfl
  · obtain ⟨us, after, rfl, hus, hafter⟩ := List.map_eq_append_iff.mp htext
    obtain ⟨comma, vs, rfl, hcomma, hvs⟩ := List.map_eq_cons_iff.mp hafter
    have hcommaKind : comma.kind = .comma := congrArg Prod.fst hcomma
    have hstops : Stops 0 ((comma :: vs ++ rest).map Token.kind) := by
      rw [List.cons_append, List.map_cons, hcommaKind]
      exact stops_closing (.inr (.inl rfl)) 0 _
    rw [List.append_assoc] at hahead hcalm
    have hspelled : Spelled s arg us (comma :: vs ++ rest) := by
      refine ⟨hahead, hus, Tree.ends_of_stops (Nat.zero_le _) (by decide) hstops, ?_⟩
      apply hcalm.mono (List.suffix_refl _)
      rw [List.length_append]
      exact Nat.le_add_left _ _
    obtain ⟨e, he, his⟩ := h.reads (le_of_max_le_left hlevels) (Nat.zero_le _) hspelled hstops
    have hcommaAhead : (s.past us.length).ahead = comma :: (vs ++ rest) :=
      ahead_past_append hspelled.ahead
    have hvsAhead : ((s.past us.length).past 1).ahead = vs ++ rest := by
      rw [ahead_past, hcommaAhead]
      rfl
    have hsuffix : (vs ++ rest).map Token.kind <:+ (us ++ (comma :: vs ++ rest)).map Token.kind :=
      ⟨(us ++ [comma]).map Token.kind, by simp⟩
    obtain ⟨es, hes, hesIs⟩ := hargs levels ((s.past us.length).past 1) vs rest
      (le_of_max_le_right hlevels) hvsAhead hvs hrest (hcalm.mono hsuffix (Nat.le_refl _))
      (List.cons_ne_nil _ _)
    have hcurrent : (s.past us.length).currentKind = .comma :=
      (currentKind_ahead hcommaAhead).trans hcommaKind
    have hnext : ((s.past us.length).past 1).currentKind ≠ .newline := by
      obtain ⟨l, lexemes, hprint, hnewline, -⟩ := printArgs_head (List.cons_ne_nil next args)
      rwa [currentKind_of_text hvsAhead (hvs.trans hprint)]
    refine ⟨e :: es, fun fuel hfuel => ?_, e, es, rfl, his, hesIs⟩
    rw [List.length_append, List.length_cons] at hfuel
    obtain ⟨f, rfl⟩ : ∃ f, fuel = f + 1 := Nat.exists_eq_add_one.mpr (by omega)
    rw [callArgs, bind_some (parseExpression_eq hspelled.currentKind_ne.1 he),
      bind_some (skipNewlines_of_ne (by rw [hcurrent]; decide)),
      ← hcommaKind, bind_some (eat_ahead hcommaAhead (by rw [hcommaKind]; decide)), if_pos rfl,
      bind_some (skipNewlines_of_ne hnext), bind_some (hes f (by omega)), past_past, past_past,
      List.length_append, List.length_cons, Nat.add_comm vs.length]
    rfl

/-- The arguments between the parentheses. -/
theorem GrowingAll.reads {args : List Tree} (h : GrowingAll forms args) {levels : Nat} {s : Parser}
    {ts rest : List Token} (hlevels : Tree.nestingAll args ≤ levels) (hahead : s.ahead = ts ++ rest)
    (htext : ts.map lexeme = Tree.printArgs args)
    (hrest : (rest.map Token.kind).headD .eof = .rParen)
    (hcalm : Calm rest.length ((ts ++ rest).map Token.kind)) :
    s.currentKind ≠ .newline ∧ ∃ es,
      unlessAt .rParen (callArgs (parseExpr forms levels)) s = (some es, s.past ts.length) ∧
        Tree.IsAll args es := by
  rcases args with - | ⟨arg, args⟩
  · cases List.map_eq_nil_iff.mp htext
    have hclose : s.currentKind = .rParen := by
      rw [currentKind_eq, kinds_eq, hahead]
      exact hrest
    refine ⟨by rw [hclose]; decide, [], ?_, rfl⟩
    rw [unlessAt, bind_some (isAt_of_eq hclose)]
    rfl
  · obtain ⟨l, lexemes, hprint, hnewline, hclose⟩ := printArgs_head (List.cons_ne_nil arg args)
    have hkind := currentKind_of_text hahead (htext.trans hprint)
    obtain ⟨es, hes, his⟩ := h levels s ts rest hlevels hahead htext hrest hcalm
      (List.cons_ne_nil _ _)
    have hlength : ts.length ≤ s.tokens.length := by
      have hlengths := congrArg List.length hahead
      rw [Parser.ahead, List.length_drop, List.length_append] at hlengths
      omega
    refine ⟨hkind ▸ hnewline, es, ?_, his⟩
    rw [unlessAt, bind_some (isAt_of_ne (hkind ▸ hclose)), if_neg Bool.false_ne_true,
      bind_some (show rounds s = (some (s.tokens.length + 1), s) from rfl),
      hes _ (hlength.trans (Nat.le_succ _))]

theorem growing_call {callee : Tree} {args : List Tree} (h : Growing forms callee)
    (hargs : GrowingAll forms args) (hlevel : 17 ≤ callee.level) :
    Growing forms (.call callee args) := by
  intro levels start m s ts rest hlevels hm hs
  have htext := hs.text
  rw [Tree.print] at htext
  rw [Tree.nesting] at hlevels
  obtain ⟨cs, after, rfl, hcs, hafter⟩ := List.map_eq_append_iff.mp htext
  obtain ⟨opening, inner, rfl, hopening, hinner⟩ := List.map_eq_cons_iff.mp hafter
  obtain ⟨us, closing, rfl, hus, hclosing⟩ := List.map_eq_append_iff.mp hinner
  obtain ⟨close, nothing, rfl, hclose, hnothing⟩ := List.map_eq_cons_iff.mp hclosing
  cases List.map_eq_nil_iff.mp hnothing
  have hopeningKind : opening.kind = .lParen := congrArg Prod.fst hopening
  have hcloseKind : close.kind = .rParen := congrArg Prod.fst hclose
  have hcallee : Spelled s callee cs (opening :: (us ++ [close]) ++ rest) := by
    apply hs.left rfl hcs
    rw [List.cons_append, List.map_cons, hopeningKind]
    exact Tree.ends_postfix hlevel (by decide) (by decide) _
  have hopeningAhead := ahead_past_append hcallee.ahead
  have hahead : ((s.past cs.length).past 1).ahead = us ++ ([close] ++ rest) := by
    rw [ahead_past, hopeningAhead, List.cons_append, List.append_assoc]
    rfl
  have hcalm : Calm ([close] ++ rest).length ((us ++ ([close] ++ rest)).map Token.kind) := by
    apply hs.calm.mono
    · exact ⟨(cs ++ [opening]).map Token.kind, by simp⟩
    · rw [List.length_append]
      exact Nat.le_add_left _ _
  obtain ⟨hnewline, es, hes, hesIs⟩ := hargs.reads
    (Nat.le_of_succ_le_succ (le_of_max_le_right hlevels)) hahead hus hcloseKind hcalm
  rw [List.length_append]
  refine (h levels start m s cs _ (le_of_max_le_left hlevels) (hm.trans hlevel) hcallee).round
    (Nat.succ_pos _) fun a ha => ?_
  obtain ⟨span, hround⟩ : ∃ span, exprRound (parseExpr forms levels) start m a (s.past cs.length) =
      (some (some (callNode a [] es span)), (((s.past cs.length).past 1).past us.length).past 1) :=
    exprRound_call hopeningAhead hopeningKind hnewline hes (ahead_past_append hahead) hcloseKind
  refine ⟨_, hround.trans ?_, a, es, span, rfl, ha, hesIs⟩
  rw [past_past, past_past, past_past, List.length_cons, List.length_append, List.length_singleton]
  congr 2
  omega

mutual

/-- Every proper tree grows. -/
theorem growing : ∀ t : Tree, t.Proper → t.Lexical → Growing forms t
  | .identifier name, _, _ => by
    refine growing_literal rfl (fun _ h => h.1) ?_
    intro parseExpr s first rest hahead hkind htext hends
    obtain ⟨span, hread⟩ := parsePrefix_identifier hahead hkind hends.2
    exact ⟨_, hread, span, congrArg (ExprAst.identifier · span) htext⟩
  | .number text, _, hnumber => by
    refine growing_literal rfl (fun _ h => h.1) ?_
    rintro parseExpr s first rest hahead hkind rfl hends
    obtain ⟨span, hread⟩ := parsePrefix_literal hahead (.inl ⟨hkind, hnumber, rfl⟩)
    exact ⟨_, hread, span, rfl⟩
  | .string text, _, _ => by
    refine growing_literal rfl (fun _ h => h.1) ?_
    rintro parseExpr s first rest hahead hkind rfl hends
    obtain ⟨span, hread⟩ := parsePrefix_literal hahead (.inr (.inl ⟨hkind, rfl⟩))
    exact ⟨_, hread, span, rfl⟩
  | .boolean true, _, _ => by
    refine growing_literal rfl (fun _ h => h.1) ?_
    intro parseExpr s first rest hahead hkind htext hends
    obtain ⟨span, hread⟩ := parsePrefix_literal hahead (.inr (.inr (.inl ⟨hkind, rfl⟩)))
    exact ⟨_, hread, span, rfl⟩
  | .boolean false, _, _ => by
    refine growing_literal rfl (fun _ h => h.1) ?_
    intro parseExpr s first rest hahead hkind htext hends
    obtain ⟨span, hread⟩ := parsePrefix_literal hahead (.inr (.inr (.inr (.inl ⟨hkind, rfl⟩))))
    exact ⟨_, hread, span, rfl⟩
  | .none, _, _ => by
    refine growing_literal rfl (fun _ h => h.1) ?_
    intro parseExpr s first rest hahead hkind htext hends
    obtain ⟨span, hread⟩ := parsePrefix_literal hahead (.inr (.inr (.inr (.inr ⟨hkind, rfl⟩))))
    exact ⟨_, hread, span, rfl⟩
  | .paren expr, hproper, hlexical => growing_paren (growing expr hproper hlexical) hlexical
  | .unary op operand, hproper, hlexical =>
    growing_operator (growing operand hproper.2 hlexical) rfl rfl hproper.1 (fun _ h => h)
      (.inl ⟨op, rfl, rfl⟩) fun e span he => ⟨e, span, rfl, he⟩
  | .await operand, hproper, hlexical =>
    growing_operator (growing operand hproper.2 hlexical) rfl rfl hproper.1 (fun _ h => h)
      (.inr ⟨rfl, rfl⟩) fun e span he => ⟨e, span, rfl, he⟩
  | .binary op left right, ⟨hlevel, hleft, hrightLevel, hright⟩, hlexical =>
    growing_binary (growing left hleft hlexical.1) (growing right hright hlexical.2) hlevel
      hrightLevel
  | .ternary condition thenBranch elseBranch, ⟨hlevel, hcondition, hthen, helse⟩, hlexical =>
    growing_ternary (growing condition hcondition hlexical.1)
      (growing thenBranch hthen hlexical.2.1) (growing elseBranch helse hlexical.2.2) hlevel
  | .member object kind field, hproper, hlexical =>
    growing_member (growing object hproper.2 hlexical.1) hproper.1 hlexical.2
  | .index object position, ⟨hlevel, hobject, hposition⟩, hlexical =>
    growing_index (growing object hobject hlexical.1) (growing position hposition hlexical.2) hlevel
  | .call callee args, ⟨hlevel, hcallee, hargs⟩, hlexical =>
    growing_call (growing callee hcallee hlexical.1) (growingAll args hargs hlexical.2) hlevel

theorem growingAll : ∀ ts : List Tree, Tree.ProperAll ts → Tree.LexicalAll ts →
    GrowingAll forms ts
  | [], _, _ => fun _ _ _ _ _ _ _ _ _ hne => absurd rfl hne
  | t :: ts, hproper, hlexical =>
    growingAll_cons (growing t hproper.1 hlexical.1) (growingAll ts hproper.2 hlexical.2)

end

end

/-! ### The round trip -/

/-- `parse_expression` -/
def Parse.expression (forms : Forms X) : Parse (ExprAst X) := do
  parseExpression (parseExpr forms (maxNestingDepth - (← getState).depth))

/-- `(a + b) * c ? f(-x) : y.z` -/
def sampleTree : Tree :=
  .ternary (.binary .mul (.binary .add (.identifier ['a']) (.identifier ['b'])) (.identifier ['c']))
    (.call (.identifier ['f']) [.unary .neg (.identifier ['x'])])
    (.member (.identifier ['y']) .identifier ['z'])

def sampleTokens : List Token :=
  sampleTree.parenthesize.print.map fun l => { kind := l.1, text := l.2, span := dummySpan }

def sampleParser : Parser :=
  { source := [], tokens := sampleTokens ++ [eofToken], pos := 0, prev := eofToken, errors := [],
    depth := 0 }

end Deka.Parsing
