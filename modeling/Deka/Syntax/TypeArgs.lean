/-
Deka/Syntax/TypeArgs.lean

Types and speculative type arguments (`parse/ty.rs`, `try_parse_type_args` in `parse/expr.rs`).

At a `<` the expression parser tries to read a list of types, and goes back to the `<` if there is
none.  `speculation_traceless_iff` says when that leaves no trace.
-/
import Deka.Syntax.Follows

namespace Deka.Parsing

open Deka.Syntax (Token TokenKind Pos Span Diagnostic sliceBytes)

/-- `ast::Type` -/
inductive TypeAst where
  | named (name : List Char) (span : Span)
  | generic (base : List Char) (args : List TypeAst) (span : Span)
  | function (params : List TypeAst) (ret : TypeAst) (span : Span)
  | option (inner : TypeAst) (span : Span)
  | tuple (elements : List TypeAst) (span : Span)
  /-- the fields with their names and spans -/
  | record (fields : List (List Char × TypeAst × Span)) (span : Span)
  | union (members : List TypeAst) (span : Span)

def TypeAst.span : TypeAst → Span
  | named _ span | generic _ _ span | function _ _ span | option _ span | tuple _ span
  | record _ span | union _ span => span

namespace Parse

variable {α : Type}

/-! ### Types -/

/-- The two halves of a `>>` token. -/
def splitHalves (source : List Char) (span : Span) : Token × Token :=
  let middle : Pos := { span.start with column := span.start.column + 1 }
  ({ kind := .gt
     text := (sliceBytes source span.byteStart (span.byteStart + 1)).getD []
     span := ⟨span.start, middle, span.byteStart, span.byteStart + 1⟩ },
   { kind := .gt
     text := (sliceBytes source (span.byteStart + 1) span.byteEnd).getD []
     span := ⟨middle, span.endPos, span.byteStart + 1, span.byteEnd⟩ })

/-- The first half of `>>` becomes the previous token, and the second one the current token. -/
def splitShr : Parse Unit := fun s =>
  let (first, second) := splitHalves s.source s.current.span
  (some (), { s with tokens := s.tokens.set s.pos second, prev := first })

/-- Expect the `>` that closes a generic argument list. -/
def expectGt : Parse Unit := do
  if ← isAt .gt then advance
  else if ← isAt .shr then splitShr
  else
    error (expected (← getState).currentKind ("`" ++ tokenName .gt ++ "`"))
    giveUp

/-- `while !self.at(close)`: items with commas between them, newlines around the commas, and perhaps
a last comma. -/
def items (close : TokenKind) (item : Parse α) : Nat → Parse (List α)
  | 0 => giveUp
  | fuel + 1 => do
    if ← isAt close then return []
    else
      let first ← item
      skipNewlines
      if ← isAt .comma then
        advance
        skipNewlines
        let rest ← items close item fuel
        return first :: rest
      else return [first]

/-- `loop`: items with commas between them. -/
def commaList (newlinesAfter : Bool) (item : Parse α) : Nat → Parse (List α)
  | 0 => giveUp
  | fuel + 1 => do
    let first ← item
    if ← isAt .comma then
      advance
      if newlinesAfter then skipNewlines
      let rest ← commaList newlinesAfter item fuel
      return first :: rest
    else return [first]

/-- The members of a union after the first one. -/
def barList (item : Parse α) : Nat → Parse (List α)
  | 0 => giveUp
  | fuel + 1 => do
    if ← isAt .bar then
      advance
      skipNewlines
      let first ← item
      let rest ← barList item fuel
      return first :: rest
    else return []

/-- Enough rounds for any loop: each one consumes a token. -/
def rounds : Parse Nat := fun s => (some (s.tokens.length + 1), s)

section

-- `parse_type`, one level deeper
variable (parseType : Parse TypeAst)

def parseField : Parse (List Char × TypeAst × Span) := do
  let start ← spanStart
  let name ← expectIdentifier
  expect .colon
  let ty ← parseType
  let span ← spanFrom start
  return (name, ty, span)

def parseParams : Parse (List TypeAst) := do
  if ← isAt .rParen then return []
  else
    let params ← commaList true parseType (← rounds)
    skipNewlines
    return params

def parseTypePrimary : Parse TypeAst := do
  skipNewlines
  let start ← spanStart
  if ← isAt .lBrace then
    advance
    skipNewlines
    let fields ← items .rBrace (parseField parseType) (← rounds)
    expect .rBrace
    return .record fields (← spanFrom start)
  else if ← isAt .lBracket then
    advance
    skipNewlines
    let elements ← items .rBracket parseType (← rounds)
    expect .rBracket
    return .tuple elements (← spanFrom start)
  else if ← isAt .kwFn then
    advance
    expect .lParen
    let params ← parseParams parseType
    skipNewlines
    expect .rParen
    rejectReturnTypeColon
    let ret ← parseType
    return .function params ret (← spanFrom start)
  else if ← isAt .lParen then
    advance
    let ty ← parseType
    expect .rParen
    return ty
  else if ← isAt .identifier then
    let state ← getState
    advance
    if ← isAt .lt then
      advance
      let args ← commaList true parseType (← rounds)
      skipNewlines
      expectGt
      return .generic state.current.text args (← spanFrom start)
    else return .named state.current.text state.current.span
  else
    error (expected (← getState).currentKind "type")
    giveUp

/-- Primary type and an optional postfix `?` -/
def parseTypePostfix : Parse TypeAst := do
  let ty ← parseTypePrimary parseType
  if ← isAt .question then
    advance
    return .option ty ty.span
  else return ty

/-- The body of `parse_type` -/
def parseUnion : Parse TypeAst := do
  let first ← parseTypePostfix parseType
  if ← isAt .bar then
    let members ← barList (parseTypePostfix parseType) (← rounds)
    let last := (members.getLastD first).span
    return .union (first :: members)
      ⟨first.span.start, last.endPos, first.span.byteStart, last.byteEnd⟩
  else return first

end

/-- `parse_type`, with as many levels left as the argument says; `enter_recursion` reports where
there is none. -/
def parseType : Nat → Parse TypeAst
  | 0 => do
    error ("nesting too deep (limit is " ++ toString maxNestingDepth ++ " levels)")
    giveUp
  | levels + 1 => parseUnion (parseType levels)

/-! ### Type arguments of a call -/

/-- The types between `<` and `>` -/
def typeArgList (levels : Nat) : Parse (List TypeAst) := do
  if ← isAt .gt then return []
  else commaList false (parseType levels) (← rounds)

def tryParseTypeArgs : Parse (List TypeAst) := fun s =>
  let restored (s' : Parser) : Option (List TypeAst) × Parser :=
    (none, { s' with pos := s.pos, prev := s.prev })
  match eat .lt s with
  | (some true, opened) =>
    match typeArgList (maxNestingDepth - s.depth) opened with
    | (some args, listed) =>
      match eat .gt listed with
      | (some true, closed) => (some args, closed)
      | (_, s') => restored s'
    | (none, s') => restored s'
  | (_, s') => (none, s')

/-- The loop of `next_lt_is_type_args`: whether the `>` of this depth comes before a `(`. -/
def closesBeforeCall (depth : Nat) : List TokenKind → Bool
  | [] => false
  | .lt :: rest => closesBeforeCall (depth + 1) rest
  | .gt :: rest =>
    if 1 > depth then false
    else if depth = 1 then rest.head? == some .lParen
    else closesBeforeCall (depth - 1) rest
  | .shr :: rest =>
    if 2 > depth then false
    else if depth = 2 then rest.head? == some .lParen
    else closesBeforeCall (depth - 2) rest
  | _ :: rest => closesBeforeCall depth rest

def nextLtIsTypeArgs (s : Parser) : Bool :=
  s.currentKind == .lt && closesBeforeCall 1 ((s.tokens.drop (s.pos + 1)).map Token.kind)

/-- The explicit type arguments that `parse_expr` looks for before a call. -/
def explicitTypeArgs : Parse (List TypeAst) := fun s =>
  if s.currentKind == .lt && nextLtIsTypeArgs s then tryParseTypeArgs s else (none, s)

end Parse

/-! ### The grammar of types -/

/-- Items with commas between them, up to a closing token. -/
inductive Items (close : TokenKind) (item : Rule) : Rule
  | closed {ks : List TokenKind} : Items close item true (close :: ks) (close :: ks)
  | last {clean : Bool} {ks rest : List TokenKind} (hopen : ks.head? ≠ some close)
    (hitem : item clean ks rest) (hend : (skipped rest).head? ≠ some .comma) :
    Items close item clean ks (skipped rest)
  | more {c d : Bool} {ks mid tail rest : List TokenKind} (hopen : ks.head? ≠ some close)
    (hitem : item c ks mid) (hcomma : skipped mid = .comma :: tail)
    (hrest : Items close item d (skipped tail) rest) : Items close item (c && d) ks rest

/-- What is read after a comma. -/
def afterComma (newlinesAfter : Bool) (ks : List TokenKind) : List TokenKind :=
  if newlinesAfter then skipped ks else ks

/-- Items with commas between them. -/
inductive CommaList (newlinesAfter : Bool) (item : Rule) : Rule
  | last {clean : Bool} {ks rest : List TokenKind} (hitem : item clean ks rest)
    (hend : rest.head? ≠ some .comma) : CommaList newlinesAfter item clean ks rest
  | more {c d : Bool} {ks tail rest : List TokenKind} (hitem : item c ks (.comma :: tail))
    (hrest : CommaList newlinesAfter item d (afterComma newlinesAfter tail) rest) :
    CommaList newlinesAfter item (c && d) ks rest

/-- Items after a `|` each. -/
inductive BarList (item : Rule) : Rule
  | done {ks : List TokenKind} (hend : ks.head? ≠ some .bar) : BarList item true ks ks
  | more {c d : Bool} {ks mid rest : List TokenKind} (hitem : item c (skipped ks) mid)
    (hrest : BarList item d mid rest) : BarList item (c && d) (.bar :: ks) rest

/-- The `>` of a generic type: the second half of a `>>` is left to the enclosing one. -/
inductive ClosingGt : Rule
  | gt {rest : List TokenKind} : ClosingGt true (.gt :: rest) rest
  | shr {rest : List TokenKind} : ClosingGt false (.shr :: rest) (.gt :: rest)

/-- A colon before a return type is reported, and consumed. -/
inductive ReturnColon : Rule
  | absent {ks : List TokenKind} (h : ks.head? ≠ some .colon) : ReturnColon true ks ks
  | present {rest : List TokenKind} : ReturnColon false (.colon :: rest) rest

section

variable (type : Rule)

inductive RecordField : Rule
  | mk {clean : Bool} {ks tail rest : List TokenKind} (hname : skipped ks = .identifier :: .colon :: tail)
    (htype : type clean tail rest) : RecordField clean ks rest

inductive FnParams : Rule
  | none {ks : List TokenKind} : FnParams true (.rParen :: ks) (.rParen :: ks)
  | some {clean : Bool} {ks rest : List TokenKind} (hopen : ks.head? ≠ some .rParen)
    (hparams : CommaList true type clean ks rest) : FnParams clean ks (skipped rest)

/-- A function type after the opening parenthesis. -/
inductive FnType : Rule
  | mk {c d e : Bool} {ks params after ret rest : List TokenKind} (hparams : FnParams type c ks params)
    (hclose : skipped params = .rParen :: after) (hcolon : ReturnColon d after ret)
    (hret : type e ret rest) : FnType (c && (d && e)) ks rest

/-- What may follow the name of a type. -/
inductive Named : Rule
  | plain {ks : List TokenKind} (hplain : ks.head? ≠ some .lt) : Named true ks ks
  | generic {c d : Bool} {ks args rest : List TokenKind} (hargs : CommaList true type c ks args)
    (hclose : ClosingGt d (skipped args) rest) : Named (c && d) (.lt :: ks) rest

inductive Primary : Rule
  | record {clean : Bool} {ks tail rest : List TokenKind} (hopen : skipped ks = .lBrace :: tail)
    (hfields : Items .rBrace (RecordField type) clean (skipped tail) (.rBrace :: rest)) :
    Primary clean ks rest
  | tuple {clean : Bool} {ks tail rest : List TokenKind} (hopen : skipped ks = .lBracket :: tail)
    (helements : Items .rBracket type clean (skipped tail) (.rBracket :: rest)) :
    Primary clean ks rest
  | function {clean : Bool} {ks tail rest : List TokenKind}
    (hopen : skipped ks = .kwFn :: .lParen :: tail) (hfn : FnType type clean tail rest) :
    Primary clean ks rest
  | group {clean : Bool} {ks tail rest : List TokenKind} (hopen : skipped ks = .lParen :: tail)
    (htype : type clean tail (.rParen :: rest)) : Primary clean ks rest
  | named {clean : Bool} {ks tail rest : List TokenKind} (hname : skipped ks = .identifier :: tail)
    (hnamed : Named type clean tail rest) : Primary clean ks rest

inductive Postfix : Rule
  | plain {clean : Bool} {ks rest : List TokenKind} (htype : Primary type clean ks rest)
    (hend : rest.head? ≠ some .question) : Postfix clean ks rest
  | option {clean : Bool} {ks rest : List TokenKind} (htype : Primary type clean ks (.question :: rest)) :
    Postfix clean ks rest

inductive Union : Rule
  | mk {c d : Bool} {ks mid rest : List TokenKind} (hfirst : Postfix type c ks mid)
    (hmembers : BarList (Postfix type) d mid rest) : Union (c && d) ks rest

end

/-- The types that nest at most so deeply. -/
def IsType : Nat → Rule
  | 0 => fun _ _ _ => False
  | levels + 1 => Union (IsType levels)

/-- The types between `<` and `>`, up to what follows them. -/
inductive TypeArgs (levels : Nat) : Rule
  | none {ks : List TokenKind} : TypeArgs levels true (.gt :: ks) (.gt :: ks)
  | some {clean : Bool} {ks rest : List TokenKind} (hopen : ks.head? ≠ some .gt)
    (hargs : CommaList false (IsType levels) clean ks rest) : TypeArgs levels clean ks rest

/-! ### The parser follows the grammar -/

section

variable {α : Type} {item : Parse α} {reading : Rule}

theorem followsAt_items {close : TokenKind} (hclose : close ≠ .eof) (hitem : Follows item reading)
    (fuel : Nat) : ∀ s : Parser, s.kinds.length < fuel →
      FollowsAt (Parse.items close item fuel)
        (fun clean rest => Items close reading clean s.kinds rest) s := by
  induction fuel with
  | zero => exact fun s hs => absurd hs (Nat.not_lt_zero _)
  | succ fuel ih =>
    intro s hs
    refine .isAt hclose (fun tail hks => ?_) fun hopen => ?_
    · refine (followsAt_pure _ s).congr fun clean rest => ?_
      rw [hks]
      constructor
      · rintro ⟨rfl, rfl⟩
        exact .closed
      · rintro (- | ⟨hopen, -, -⟩ | ⟨hopen, -, -, -⟩)
        · exact ⟨rfl, rfl⟩
        · exact absurd rfl hopen
        · exact absurd rfl hopen
    · refine ((hitem s).bind (R := fun clean mid rest =>
        (∃ tail, skipped mid = .comma :: tail ∧ Items close reading clean (skipped tail) rest) ∨
          ((skipped mid).head? ≠ some .comma ∧ clean = true ∧ rest = skipped mid))
        fun first s' hlen => ?_).congr fun clean rest => ?_
      · refine .skipNewlines fun s'' hs'' => ?_
        have hlen'' : s''.kinds.length ≤ s.kinds.length := by
          rw [hs'']
          exact (length_skipped_le _).trans hlen
        refine .isAt (by decide) (fun tail htail => ?_) fun hend => ?_
        · refine .advance (by decide) htail fun t ht => .skipNewlines fun t' ht' => ?_
          have hfuel : t'.kinds.length < fuel := by
            have hskipped := length_skipped_le tail
            rw [htail, List.length_cons] at hlen''
            rw [ht', ht]
            omega
          refine ((ih t' hfuel).returns fun rest t'' => ⟨first :: rest, rfl⟩).congr fun clean rest => ?_
          rw [ht', ht, ← hs'', htail]
          simp
        · refine (followsAt_pure _ s'').congr fun clean rest => ?_
          rw [← hs'']
          constructor
          · rintro ⟨rfl, rfl⟩
            exact .inr ⟨hend, rfl, rfl⟩
          · rintro (⟨tail, htail, -⟩ | ⟨-, rfl, rfl⟩)
            · rw [htail] at hend
              exact absurd rfl hend
            · exact ⟨rfl, rfl⟩
      · constructor
        · rintro ⟨c, d, mid, hread, ⟨tail, hcomma, hrest⟩ | ⟨hend, rfl, rfl⟩, rfl⟩
          · exact .more hopen hread hcomma hrest
          · rw [Bool.and_true]
            exact .last hopen hread hend
        · intro h
          generalize s.kinds = ks at h hopen ⊢
          cases h with
          | closed => exact absurd rfl hopen
          | last _ hread hend => exact ⟨_, true, _, hread, .inr ⟨hend, rfl, rfl⟩, by simp⟩
          | more _ hread hcomma hrest => exact ⟨_, _, _, hread, .inl ⟨_, hcomma, hrest⟩, rfl⟩

theorem followsAt_commaList {newlinesAfter : Bool} (hitem : Follows item reading) (fuel : Nat) :
    ∀ s : Parser, s.kinds.length < fuel →
      FollowsAt (Parse.commaList newlinesAfter item fuel)
        (fun clean rest => CommaList newlinesAfter reading clean s.kinds rest) s := by
  induction fuel with
  | zero => exact fun s hs => absurd hs (Nat.not_lt_zero _)
  | succ fuel ih =>
    intro s hs
    refine ((hitem s).bind (R := fun clean mid rest =>
      (∃ tail, mid = .comma :: tail ∧
          CommaList newlinesAfter reading clean (afterComma newlinesAfter tail) rest) ∨
        (mid.head? ≠ some .comma ∧ clean = true ∧ rest = mid))
      fun first s' hlen => ?_).congr fun clean rest => ?_
    · refine .isAt (by decide) (fun tail htail => ?_) fun hend => ?_
      · refine .advance (by decide) htail fun t ht => ?_
        have hnext : ∀ t' : Parser, t'.kinds = afterComma newlinesAfter tail →
            FollowsAt (do
                let rest ← Parse.commaList newlinesAfter item fuel
                return first :: rest)
              (fun clean rest => (∃ tail, s'.kinds = .comma :: tail ∧
                  CommaList newlinesAfter reading clean (afterComma newlinesAfter tail) rest) ∨
                (s'.kinds.head? ≠ some .comma ∧ clean = true ∧ rest = s'.kinds)) t' := by
          intro t' ht'
          have hfuel : t'.kinds.length < fuel := by
            have hafter : (afterComma newlinesAfter tail).length ≤ tail.length := by
              rw [afterComma]
              split
              · exact length_skipped_le tail
              · exact le_refl _
            rw [htail, List.length_cons] at hlen
            rw [ht']
            omega
          refine ((ih t' hfuel).returns fun rest t'' => ⟨first :: rest, rfl⟩).congr
            fun clean rest => ?_
          rw [ht', htail]
          simp
        cases newlinesAfter with
        | false => exact hnext t ht
        | true => exact .skipNewlines fun t' ht' => hnext t' (by rw [ht', ht]; rfl)
      · refine (followsAt_pure _ s').congr fun clean rest => ?_
        constructor
        · rintro ⟨rfl, rfl⟩
          exact .inr ⟨hend, rfl, rfl⟩
        · rintro (⟨tail, htail, -⟩ | ⟨-, rfl, rfl⟩)
          · rw [htail] at hend
            exact absurd rfl hend
          · exact ⟨rfl, rfl⟩
    · constructor
      · rintro ⟨c, d, mid, hread, ⟨tail, rfl, hrest⟩ | ⟨hend, rfl, rfl⟩, rfl⟩
        · exact .more hread hrest
        · rw [Bool.and_true]
          exact .last hread hend
      · intro h
        cases h with
        | last hread hend => exact ⟨_, true, _, hread, .inr ⟨hend, rfl, rfl⟩, by simp⟩
        | more hread hrest => exact ⟨_, _, _, hread, .inl ⟨_, rfl, hrest⟩, rfl⟩

theorem followsAt_barList (hitem : Follows item reading) (fuel : Nat) :
    ∀ s : Parser, s.kinds.length < fuel →
      FollowsAt (Parse.barList item fuel) (fun clean rest => BarList reading clean s.kinds rest) s := by
  induction fuel with
  | zero => exact fun s hs => absurd hs (Nat.not_lt_zero _)
  | succ fuel ih =>
    intro s hs
    refine .isAt (by decide) (fun tail htail => ?_) fun hend => ?_
    · refine .advance (by decide) htail fun t ht => .skipNewlines fun t' ht' => ?_
      refine ((hitem t').bind (R := BarList reading) fun first t'' hlen => ?_).congr fun clean rest => ?_
      · have hfuel : t''.kinds.length < fuel := by
          have hskipped := length_skipped_le tail
          rw [htail, List.length_cons] at hs
          rw [ht', ht] at hlen
          omega
        exact (ih t'' hfuel).returns fun rest _ => ⟨first :: rest, rfl⟩
      · rw [ht', ht, htail]
        constructor
        · rintro ⟨c, d, mid, hread, hrest, rfl⟩
          exact .more hread hrest
        · intro h
          cases h with
          | done hend => exact absurd rfl hend
          | more hread hrest => exact ⟨_, _, _, hread, hrest, rfl⟩
    · refine (followsAt_pure _ s).congr fun clean rest => ?_
      constructor
      · rintro ⟨rfl, rfl⟩
        exact .done hend
      · intro h
        generalize hks : s.kinds = ks at h hend
        cases h with
        | done _ => exact ⟨rfl, rfl⟩
        | more _ _ => exact absurd rfl hend

end

/-! ### Types -/

/-- The second half of a `>>` stays at hand. -/
theorem followsAt_splitShr {s : Parser} {tail : List TokenKind} (h : s.kinds = .shr :: tail) :
    FollowsAt Parse.splitShr (fun clean rest => clean = false ∧ rest = .gt :: tail) s := by
  have hpos : s.pos < s.tokens.length := by
    by_contra hge
    rw [Parser.kinds, List.drop_eq_nil_of_le (Nat.le_of_not_lt hge)] at h
    cases h
  have hdrop := List.drop_eq_getElem_cons hpos
  rw [Parser.kinds, hdrop, List.map_cons, List.cons.injEq] at h
  let second := (Parse.splitHalves s.source s.current.span).2
  let s' : Parser := { s with
    tokens := s.tokens.set s.pos second
    prev := (Parse.splitHalves s.source s.current.span).1 }
  have hs' : Parse.splitShr s = (some (), s') := rfl
  have hkinds : s'.kinds = .gt :: tail := by
    show ((s.tokens.set s.pos second).drop s.pos).map Token.kind = _
    rw [List.drop_set, if_neg (Nat.lt_irrefl _), Nat.sub_self, hdrop, List.set_cons_zero,
      List.map_cons, h.2]
    rfl
  rw [FollowsAt, hs']
  refine ⟨false, ⟨rfl, hkinds⟩, ⟨rfl, rfl, fun h => absurd h Bool.false_ne_true, fun _ => ?_⟩, ?_, fun c rest hc => ?_⟩
  · show s.errors.length + _ < s.errors.length + _
    have hcount := List.countP_set (p := fun t : Token => t.kind != .shr) (a := second) hpos
    have hsecond : (second.kind != TokenKind.shr) = true := rfl
    have hold : (s.tokens[s.pos].kind != TokenKind.shr) = false := by
      rw [h.1]
      rfl
    rw [hsecond, hold] at hcount
    rw [show s'.tokens = s.tokens.set s.pos second from rfl, hcount]
    simp
  · rw [hkinds, Parser.kinds, hdrop, List.map_cons, h.2]
    exact le_refl _
  · rw [hkinds]
    exact hc

theorem follows_expectGt : Follows Parse.expectGt ClosingGt := by
  intro s
  refine .isAt (by decide) (fun tail htail => ?_) fun hgt => ?_
  · refine (followsAt_advance (by decide) htail).congr fun clean rest => ?_
    rw [htail]
    constructor
    · rintro ⟨rfl, rfl⟩
      exact .gt
    · rintro ⟨⟩
      exact ⟨rfl, rfl⟩
  · refine .isAt (by decide) (fun tail htail => ?_) fun hshr => ?_
    · refine (followsAt_splitShr htail).congr fun clean rest => ?_
      rw [htail]
      constructor
      · rintro ⟨rfl, rfl⟩
        exact .shr
      · rintro ⟨⟩
        exact ⟨rfl, rfl⟩
    · refine followsAt_giveUp rfl fun clean rest h => ?_
      generalize s.kinds = ks at h hgt hshr
      cases h with
      | gt => exact hgt rfl
      | shr => exact hshr rfl

theorem follows_rejectReturnTypeColon : Follows Parse.rejectReturnTypeColon ReturnColon := by
  intro s
  refine .isAt (by decide) (fun tail htail => ?_) fun hcolon => ?_
  · have htail' : (s.withError "return types take no colon; remove `:`").advanced.kinds = tail :=
      @kinds_advanced _ .colon _ (by decide) htail
    refine ⟨false, ?_, (leaves_withError s _).trans (leaves_advanced _), ?_, fun c rest hc => ?_⟩
    · rw [htail, htail']
      exact .present
    · rw [htail, htail', List.length_cons]
      exact Nat.le_succ _
    · rw [htail] at hc
      rw [htail']
      cases hc with
      | absent h => exact absurd rfl h
      | present => exact ⟨rfl, rfl⟩
  · refine (followsAt_pure _ s).congr fun clean rest => ?_
    constructor
    · rintro ⟨rfl, rfl⟩
      exact .absent hcolon
    · intro h
      generalize s.kinds = ks at h hcolon ⊢
      cases h with
      | absent _ => exact ⟨rfl, rfl⟩
      | present => exact absurd rfl hcolon

/-- A loop has enough rounds. -/
theorem kinds_lt_rounds (s : Parser) : s.kinds.length < s.tokens.length + 1 := by
  rw [Parser.kinds, List.length_map, List.length_drop]
  omega

/-- A primary type by its first token. -/
theorem Primary.head {type : Rule} {clean : Bool} {ks rest : List TokenKind}
    (h : Primary type clean ks rest) :
    match skipped ks with
    | .lBrace :: tail => Items .rBrace (RecordField type) clean (skipped tail) (.rBrace :: rest)
    | .lBracket :: tail => Items .rBracket type clean (skipped tail) (.rBracket :: rest)
    | .kwFn :: tail => ∃ tail', tail = .lParen :: tail' ∧ FnType type clean tail' rest
    | .lParen :: tail => type clean tail (.rParen :: rest)
    | .identifier :: tail => Named type clean tail rest
    | _ => False := by
  cases h with
  | record hopen h => rw [hopen]; exact h
  | tuple hopen h => rw [hopen]; exact h
  | function hopen h => rw [hopen]; exact ⟨_, rfl, h⟩
  | group hopen h => rw [hopen]; exact h
  | named hname h => rw [hname]; exact h

section

variable {type : Parse TypeAst} {rule : Rule} (htype : Follows type rule)

include htype

theorem follows_parseField : Follows (Parse.parseField type) (RecordField rule) := by
  intro s
  refine .look rfl (.expectIdentifier (fun name tail s' hname hs' => ?_) fun hno => ?_)
  · refine .expect (by decide) (fun rest t hcolon ht => ?_) fun hno => ?_
    · refine ((htype t).returns fun ty t' => ⟨_, rfl⟩).congr fun clean rest => ?_
      rw [ht]
      constructor
      · intro h
        refine .mk (hname.trans ?_) h
        rw [← hs', hcolon]
      · rintro ⟨hname', h⟩
        rw [hname, ← hs', hcolon] at hname'
        cases hname'
        exact h
    · rintro clean rest ⟨hname', -⟩
      rw [hname] at hname'
      rw [hs', (List.cons.inj hname').2] at hno
      exact hno rfl
  · rintro clean rest ⟨hname', -⟩
    rw [hname'] at hno
    exact hno rfl

theorem follows_parseParams : Follows (Parse.parseParams type) (FnParams rule) := by
  intro s
  refine .isAt (by decide) (fun rest hrest => ?_) fun hopen => ?_
  · refine (followsAt_pure _ s).congr fun clean rest => ?_
    rw [hrest]
    constructor
    · rintro ⟨rfl, rfl⟩
      exact .none
    · rintro (- | ⟨hopen, -⟩)
      · exact ⟨rfl, rfl⟩
      · exact absurd rfl hopen
  · refine .look rfl ?_
    refine ((followsAt_commaList htype _ s (kinds_lt_rounds s)).bind
      (R := fun clean mid rest => clean = true ∧ rest = skipped mid) fun params s' _ => ?_).congr
      fun clean rest => ?_
    · refine .skipNewlines fun t ht => (followsAt_pure _ t).congr fun clean rest => ?_
      rw [ht]
    · constructor
      · rintro ⟨c, d, mid, hread, ⟨rfl, rfl⟩, rfl⟩
        rw [Bool.and_true]
        exact .some hopen hread
      · intro h
        generalize s.kinds = ks at h hopen ⊢
        cases h with
        | none => exact absurd rfl hopen
        | some _ hread => exact ⟨_, true, _, hread, ⟨rfl, rfl⟩, by simp⟩

/-- The rest of a function type. -/
theorem followsAt_fnType {start : Pos × Nat} (s : Parser) :
    FollowsAt (do
        let params ← Parse.parseParams type
        Parse.skipNewlines
        Parse.expect .rParen
        Parse.rejectReturnTypeColon
        let ret ← type
        return TypeAst.function params ret (← Parse.spanFrom start))
      (fun clean rest => FnType rule clean s.kinds rest) s := by
  refine ((follows_parseParams htype s).bind (R := fun clean mid rest =>
    ∃ d e after ret, skipped mid = .rParen :: after ∧ ReturnColon d after ret ∧ rule e ret rest ∧
      clean = (d && e)) fun params s' _ => ?_).congr fun clean rest => ?_
  · refine .skipNewlines fun t ht => ?_
    rw [← ht]
    refine .expect (by decide) (fun after t' hafter ht' => ?_) fun hno => ?_
    · refine ((follows_rejectReturnTypeColon t').bind (R := rule) fun _ t'' _ =>
        (htype t'').returns fun ret _ => ⟨_, rfl⟩).congr fun clean rest => ?_
      rw [hafter, ht']
      constructor
      · rintro ⟨d, e, ret, hcolon, hret, rfl⟩
        exact ⟨d, e, after, ret, rfl, hcolon, hret, rfl⟩
      · rintro ⟨d, e, after', ret, hcons, hcolon, hret, rfl⟩
        cases hcons
        exact ⟨d, e, ret, hcolon, hret, rfl⟩
    · rintro clean rest ⟨d, e, after, ret, hcons, -⟩
      rw [hcons] at hno
      exact hno rfl
  · constructor
    · rintro ⟨c, -, mid, hparams, ⟨d, e, after, ret, hclose, hcolon, hret, rfl⟩, rfl⟩
      exact .mk hparams hclose hcolon hret
    · rintro ⟨hparams, hclose, hcolon, hret⟩
      exact ⟨_, _, _, hparams, ⟨_, _, _, _, hclose, hcolon, hret, rfl⟩, rfl⟩

/-- What follows the name of a type. -/
theorem followsAt_named {start : Pos × Nat} (name : Token) (s : Parser) :
    FollowsAt (do
        if ← Parse.isAt .lt then
          Parse.advance
          let args ← Parse.commaList true type (← Parse.rounds)
          Parse.skipNewlines
          Parse.expectGt
          return TypeAst.generic name.text args (← Parse.spanFrom start)
        else return TypeAst.named name.text name.span)
      (fun clean rest => Named rule clean s.kinds rest) s := by
  refine .isAt (by decide) (fun tail htail => ?_) fun hplain => ?_
  · refine .advance (by decide) htail fun t ht => .look rfl ?_
    refine ((followsAt_commaList htype _ t (kinds_lt_rounds t)).bind
      (R := fun clean mid rest => ClosingGt clean (skipped mid) rest) fun args t' _ => ?_).congr
      fun clean rest => ?_
    · refine .skipNewlines fun t'' ht'' => ?_
      rw [← ht'']
      exact (follows_expectGt t'').returns fun _ _ => ⟨_, rfl⟩
    · rw [ht, htail]
      constructor
      · rintro ⟨c, d, mid, hargs, hclose, rfl⟩
        exact .generic hargs hclose
      · intro h
        cases h with
        | plain hplain => exact absurd rfl hplain
        | generic hargs hclose => exact ⟨_, _, _, hargs, hclose, rfl⟩
  · refine (followsAt_pure _ s).congr fun clean rest => ?_
    constructor
    · rintro ⟨rfl, rfl⟩
      exact .plain hplain
    · intro h
      generalize s.kinds = ks at h hplain ⊢
      cases h with
      | plain _ => exact ⟨rfl, rfl⟩
      | generic _ _ => exact absurd rfl hplain

theorem follows_parseTypePrimary : Follows (Parse.parseTypePrimary type) (Primary rule) := by
  intro s
  refine .skipNewlines fun s' hs' => .look rfl ?_
  refine .isAt (by decide) (fun tail htail => ?_) fun hrecord => ?_
  · -- a record
    rw [hs'] at htail
    refine .advance (by decide) (hs'.trans htail) fun t ht => .skipNewlines fun t' ht' => .look rfl ?_
    refine ((followsAt_items (by decide) (follows_parseField htype) _ t' (kinds_lt_rounds t')).bind
      (R := fun clean mid rest => clean = true ∧ mid = .rBrace :: rest)
      fun fields t'' _ => followsAt_close (by decide) (fun _ => ⟨_, rfl⟩) t'').congr fun clean rest => ?_
    rw [ht', ht]
    constructor
    · rintro ⟨c, d, mid, hfields, ⟨rfl, rfl⟩, rfl⟩
      rw [Bool.and_true]
      exact .record htail hfields
    · intro h
      have hfields := h.head
      rw [htail] at hfields
      exact ⟨_, true, _, hfields, ⟨rfl, rfl⟩, by simp⟩
  refine .isAt (by decide) (fun tail htail => ?_) fun htuple => ?_
  · -- a tuple
    rw [hs'] at htail
    refine .advance (by decide) (hs'.trans htail) fun t ht => .skipNewlines fun t' ht' => .look rfl ?_
    refine ((followsAt_items (by decide) htype _ t' (kinds_lt_rounds t')).bind
      (R := fun clean mid rest => clean = true ∧ mid = .rBracket :: rest)
      fun fields t'' _ => followsAt_close (by decide) (fun _ => ⟨_, rfl⟩) t'').congr fun clean rest => ?_
    rw [ht', ht]
    constructor
    · rintro ⟨c, d, mid, helements, ⟨rfl, rfl⟩, rfl⟩
      rw [Bool.and_true]
      exact .tuple htail helements
    · intro h
      have helements := h.head
      rw [htail] at helements
      exact ⟨_, true, _, helements, ⟨rfl, rfl⟩, by simp⟩
  refine .isAt (by decide) (fun tail htail => ?_) fun hfn => ?_
  · -- a function type
    rw [hs'] at htail
    refine .advance (by decide) (hs'.trans htail) fun t ht =>
      .expect (by decide) (fun tail' t' hparen ht' => ?_) fun hno => ?_
    · rw [ht] at hparen
      refine (followsAt_fnType htype t').congr fun clean rest => ?_
      rw [ht']
      constructor
      · intro h
        refine .function ?_ h
        rw [htail, hparen]
      · intro h
        have hfn := h.head
        rw [htail] at hfn
        obtain ⟨tail'', hcons, hfn⟩ := hfn
        rw [hparen] at hcons
        cases hcons
        exact hfn
    · intro clean rest h
      have hfn := h.head
      rw [htail] at hfn
      obtain ⟨tail', hcons, -⟩ := hfn
      rw [ht, hcons] at hno
      exact hno rfl
  refine .isAt (by decide) (fun tail htail => ?_) fun hgroup => ?_
  · -- a type in parentheses
    rw [hs'] at htail
    refine .advance (by decide) (hs'.trans htail) fun t ht => ?_
    refine ((htype t).bind (R := fun clean mid rest => clean = true ∧ mid = .rParen :: rest)
      fun ty t' _ => followsAt_close (by decide) (fun _ => ⟨_, rfl⟩) t').congr fun clean rest => ?_
    rw [ht]
    constructor
    · rintro ⟨c, d, mid, hread, ⟨rfl, rfl⟩, rfl⟩
      rw [Bool.and_true]
      exact .group htail hread
    · intro h
      have hread := h.head
      rw [htail] at hread
      exact ⟨_, true, _, hread, ⟨rfl, rfl⟩, by simp⟩
  refine .isAt (by decide) (fun tail htail => ?_) fun hname => ?_
  · -- a name, perhaps with type arguments
    rw [hs'] at htail
    refine .look rfl (.advance (by decide) (hs'.trans htail) fun t ht => ?_)
    refine (followsAt_named htype s'.current t).congr fun clean rest => ?_
    rw [ht]
    constructor
    · exact fun h => .named htail h
    · intro h
      have hnamed := h.head
      rw [htail] at hnamed
      exact hnamed
  · refine followsAt_giveUp rfl fun clean rest h => ?_
    have hhead := h.head
    rw [← hs'] at hhead
    split at hhead
    · next hks => exact hrecord (by rw [hks]; rfl)
    · next hks => exact htuple (by rw [hks]; rfl)
    · next hks => exact hfn (by rw [hks]; rfl)
    · next hks => exact hgroup (by rw [hks]; rfl)
    · next hks => exact hname (by rw [hks]; rfl)
    · exact hhead

theorem follows_parseTypePostfix : Follows (Parse.parseTypePostfix type) (Postfix rule) := by
  intro s
  refine ((follows_parseTypePrimary htype s).bind (R := fun clean mid rest =>
    (clean = true ∧ mid = .question :: rest) ∨ (mid.head? ≠ some .question ∧ clean = true ∧ rest = mid))
    fun ty s' _ => ?_).congr fun clean rest => ?_
  · refine .isAt (by decide) (fun tail htail => ?_) fun hend => ?_
    · refine .advance (by decide) htail fun t ht => (followsAt_pure _ t).congr fun clean rest => ?_
      rw [ht, htail]
      simp [eq_comm]
    · refine (followsAt_pure _ s').congr fun clean rest => ?_
      constructor
      · rintro ⟨rfl, rfl⟩
        exact .inr ⟨hend, rfl, rfl⟩
      · rintro (⟨-, htail⟩ | ⟨-, rfl, rfl⟩)
        · rw [htail] at hend
          exact absurd rfl hend
        · exact ⟨rfl, rfl⟩
  · constructor
    · rintro ⟨c, d, mid, hread, ⟨rfl, rfl⟩ | ⟨hend, rfl, rfl⟩, rfl⟩
      · rw [Bool.and_true]
        exact .option hread
      · rw [Bool.and_true]
        exact .plain hread hend
    · intro h
      cases h with
      | plain hread hend => exact ⟨_, true, _, hread, .inr ⟨hend, rfl, rfl⟩, by simp⟩
      | option hread => exact ⟨_, true, _, hread, .inl ⟨rfl, rfl⟩, by simp⟩

theorem follows_parseUnion : Follows (Parse.parseUnion type) (Union rule) := by
  intro s
  refine ((follows_parseTypePostfix htype s).bind (R := BarList (Postfix rule))
    fun first s' _ => ?_).congr fun clean rest => ?_
  · refine .isAt (by decide) (fun tail htail => ?_) fun hend => ?_
    · exact .look rfl ((followsAt_barList (follows_parseTypePostfix htype) _ s'
        (kinds_lt_rounds s')).returns fun members _ => ⟨_, rfl⟩)
    · refine (followsAt_pure _ s').congr fun clean rest => ?_
      constructor
      · rintro ⟨rfl, rfl⟩
        exact .done hend
      · intro h
        generalize s'.kinds = ks at h hend ⊢
        cases h with
        | done _ => exact ⟨rfl, rfl⟩
        | more _ _ => exact absurd rfl hend
  · constructor
    · rintro ⟨c, d, mid, hfirst, hmembers, rfl⟩
      exact .mk hfirst hmembers
    · rintro ⟨hfirst, hmembers⟩
      exact ⟨_, _, _, hfirst, hmembers, rfl⟩

end

theorem follows_parseType (levels : Nat) : Follows (Parse.parseType levels) (IsType levels) := by
  induction levels with
  | zero => exact fun s => followsAt_giveUp rfl fun _ _ h => h
  | succ levels ih => exact follows_parseUnion ih

/-! ### Speculation -/

theorem follows_typeArgList (levels : Nat) : Follows (Parse.typeArgList levels) (TypeArgs levels) := by
  intro s
  refine .isAt (by decide) (fun tail htail => ?_) fun hopen => ?_
  · refine (followsAt_pure _ s).congr fun clean rest => ?_
    rw [htail]
    constructor
    · rintro ⟨rfl, rfl⟩
      exact .none
    · rintro (- | ⟨hopen, -⟩)
      · exact ⟨rfl, rfl⟩
      · exact absurd rfl hopen
  · refine .look rfl ((followsAt_commaList (follows_parseType levels) _ s (kinds_lt_rounds s)).congr
      fun clean rest => ?_)
    constructor
    · exact .some hopen
    · intro h
      generalize s.kinds = ks at h hopen ⊢
      cases h with
      | none => exact absurd rfl hopen
      | some _ hargs => exact hargs

theorem eat_of_kinds {s : Parser} {kind : TokenKind} {rest : List TokenKind} (hkind : kind ≠ .eof)
    (h : s.kinds = kind :: rest) : Parse.eat kind s = (some true, s.advanced) := by
  have hat : s.currentKind = kind := (currentKind_eq_iff hkind).mpr (by rw [h]; rfl)
  simp [Parse.eat, Parse.isAt, Parse.advance, Parse.bind, bind_apply, pure_apply, hat]

theorem eat_of_not {s : Parser} {kind : TokenKind} (hkind : kind ≠ .eof)
    (h : s.kinds.head? ≠ some kind) : Parse.eat kind s = (some false, s) := by
  have hat : (s.currentKind == kind) = false :=
    beq_eq_false_iff_ne.mpr fun heq => h ((currentKind_eq_iff hkind).mp heq)
  simp [Parse.eat, Parse.isAt, Parse.bind, bind_apply, pure_apply, hat]

/-- After the `<` there is a list of types, and then the `>`; or it has no `>>` that closes two of
them and no colon before a return type. -/
def ReadsTypeArgs (s : Parser) (tail : List TokenKind) : Prop :=
  ∃ clean rest, TypeArgs (maxNestingDepth - s.depth) clean tail rest ∧
    (rest.head? = some .gt ∨ clean = true)

/-- `self.pos = saved_pos`, and the previous token as it was -/
def Parser.restored (s s' : Parser) : Parser := { s' with pos := s.pos, prev := s.prev }

theorem restored_eq {s s' : Parser} (h : Parser.Leaves s.advanced s' true) : s.restored s' = s := by
  obtain ⟨source, tokens, pos, prev, errors, depth⟩ := s
  obtain ⟨hsource, hdepth, hsame, -⟩ := h
  obtain ⟨htokens, herrors⟩ := hsame rfl
  rw [Parser.restored, hsource, hdepth, htokens, herrors]
  rfl

/-- What has grown is not gone after going back. -/
theorem restored_ne {s s' : Parser} (h : s.advanced.marks < s'.marks) : s.restored s' ≠ s := by
  intro hsame
  have hmarks : (s.restored s').marks = s.marks := by rw [hsame]
  exact (Nat.ne_of_lt h) hmarks.symm

/-- Going back leaves no trace if and only if there is nothing to go back from, or types have been
read without one. -/
theorem tryParseTypeArgs_traceless_iff (s : Parser) :
    (∀ s', Parse.tryParseTypeArgs s = (none, s') → s' = s) ↔
      ∀ tail, s.kinds = .lt :: tail → ReadsTypeArgs s tail := by
  by_cases hlt : s.kinds.head? = some .lt
  · obtain ⟨tail, htail⟩ := List.head?_eq_some_iff.mp hlt
    have hopened := eat_of_kinds (by decide) htail
    have hlist := follows_typeArgList (maxNestingDepth - s.depth) s.advanced
    have hreads : (∀ tail', s.kinds = .lt :: tail' → ReadsTypeArgs s tail') ↔ ReadsTypeArgs s tail := by
      rw [htail]
      exact ⟨fun h => h tail rfl, fun h tail' heq => (List.cons.inj heq).2 ▸ h⟩
    rw [kinds_advanced (by decide) htail, FollowsAt] at hlist
    rw [hreads, Parse.tryParseTypeArgs, hopened]
    rcases htypes : Parse.typeArgList (maxNestingDepth - s.depth) s.advanced with ⟨- | args, listed⟩ <;>
      rw [htypes] at hlist <;> simp only at hlist ⊢
    · -- no list of types: it has been reported
      rw [htypes]
      obtain ⟨hmarks, -, -, hnone⟩ := hlist
      constructor
      · exact fun h => absurd (h _ rfl) (restored_ne hmarks)
      · rintro ⟨clean, rest, hargs, -⟩
        exact absurd hargs (hnone clean rest)
    · obtain ⟨clean, hargs, hleaves, -, hunique⟩ := hlist
      rw [htypes]
      by_cases hgt : listed.kinds.head? = some .gt
      · obtain ⟨rest, hrest⟩ := List.head?_eq_some_iff.mp hgt
        simp only [eat_of_kinds (by decide) hrest]
        constructor
        · exact fun _ => ⟨clean, _, hargs, .inl hgt⟩
        · intro _ s' h
          cases h
      · simp only [eat_of_not (by decide) hgt]
        constructor
        · intro h
          refine ⟨clean, _, hargs, .inr ?_⟩
          by_contra hclean
          rw [Bool.not_eq_true] at hclean
          exact restored_ne (hleaves.grown hclean) (h _ rfl)
        · rintro ⟨c, rest, hread, hend⟩ s' h
          obtain ⟨rfl, rfl⟩ := hunique c rest hread
          have hclean := hend.resolve_left hgt
          rw [hclean] at hleaves
          cases h
          exact restored_eq hleaves
  · rw [Parse.tryParseTypeArgs, eat_of_not (by decide) hlt]
    constructor
    · intro _ tail htail
      rw [htail] at hlt
      exact absurd rfl hlt
    · rintro - s' h
      cases h
      rfl

/-- Where there are no type arguments, the speculation of `parse_expr` leaves no trace either, and
what is parsed afterwards is what is parsed without it, exactly if that is so of the list it tries. -/
theorem speculation_traceless_iff (s : Parser) :
    ((∀ s', Parse.tryParseTypeArgs s = (none, s') → s' = s) ↔
        ∀ tail, s.kinds = .lt :: tail → ReadsTypeArgs s tail) ∧
      ((∀ s', Parse.explicitTypeArgs s = (none, s') → s' = s) ↔
        (Parse.nextLtIsTypeArgs s = true → ∀ tail, s.kinds = .lt :: tail → ReadsTypeArgs s tail)) := by
  refine ⟨tryParseTypeArgs_traceless_iff s, ?_⟩
  rw [← tryParseTypeArgs_traceless_iff, Parse.explicitTypeArgs]
  by_cases hnext : Parse.nextLtIsTypeArgs s = true
  · have hlt : (s.currentKind == .lt) = true := by
      rw [Parse.nextLtIsTypeArgs, Bool.and_eq_true] at hnext
      exact hnext.1
    rw [hlt, hnext, Bool.and_true, if_pos rfl]
    exact ⟨fun h _ => h, fun h => h rfl⟩
  · rw [Bool.not_eq_true] at hnext
    rw [hnext, Bool.and_false, if_neg Bool.false_ne_true]
    refine ⟨fun _ htrue => absurd htrue Bool.false_ne_true, fun _ s' h => ?_⟩
    cases h
    rfl

/-- The tokens of `< 5 > (b)` -/
def comparedTokens : List Token :=
  [⟨.lt, ['<'], dummySpan⟩, ⟨.number, ['5'], dummySpan⟩, ⟨.gt, ['>'], dummySpan⟩,
    ⟨.lParen, ['('], dummySpan⟩, ⟨.identifier, ['b'], dummySpan⟩, ⟨.rParen, [')'], dummySpan⟩, eofToken]

/-- The parser after `a` in `a < 5 > (b)` -/
def compared : Parser where
  source := ['a', ' ', '<', ' ', '5', ' ', '>', ' ', '(', 'b', ')']
  tokens := comparedTokens
  pos := 0
  prev := ⟨.identifier, ['a'], dummySpan⟩
  errors := []
  depth := 1

/-- The comparison is reported as a type. -/
theorem comparison_reported :
    Parse.nextLtIsTypeArgs compared = true ∧
      ∃ s', Parse.tryParseTypeArgs compared = (none, s') ∧ Parse.explicitTypeArgs compared = (none, s') ∧
        s'.errors.map Diagnostic.message = ["expected type, found `number`"] ∧ s' ≠ compared := by
  refine ⟨rfl, _, rfl, rfl, rfl, fun h => ?_⟩
  have herrors := congrArg (fun s => s.errors.length) h
  cases herrors

end Deka.Parsing
