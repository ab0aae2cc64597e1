/-
Deka/Syntax/Positions.lean

Lexing ends, and the tokens tile the source: their spans are in order, only spaces and template
backticks lie between them, and lines and columns are exact.

Each reader takes a piece of the source that begins at the cursor (`Takes`).  What is left to read
with the flags and frames that are still to be worked off (`rank`) gets smaller with every token.
-/
import Deka.Syntax.Lexer
import Mathlib.Data.List.Basic
import Mathlib.Data.List.TakeWhile

namespace Deka.Syntax

open Lib

variable {source : List Char}

/-! ### What a token takes -/

/-- The characters that no token has. -/
def IsGap (c : Char) : Prop := c ∈ [' ', '\t', '\r', '\u0060']

instance : DecidablePred IsGap := fun _ => inferInstanceAs (Decidable (_ ∈ _))

/-- The span of a token with `before` in front of it. -/
structure Placed (before chars : List Char) (t : Token) : Prop where
  start : t.span.start = { line := lineOf before, column := columnOf before }
  byteStart : t.span.byteStart = utf8Len before
  byteEnd : t.span.byteEnd = utf8Len (before ++ chars)

/-- The text of a token is what it takes, less the quotes of a string. -/
def Spelled (t : Token) (chars rest : List Char) : Prop :=
  if t.kind = .string then
    ∃ quote ∈ ['"', '\u0027'],
      chars = quote :: (t.text ++ [quote]) ∨ chars = quote :: t.text ∧ rest = []
  else chars = t.text

/-- The tokens cover the text after `before` in order, with gaps between them. -/
inductive Tiled : List Char → List Token → List Char → Prop where
  | done {before rest : List Char} (gap : ∀ c ∈ rest, IsGap c) : Tiled before [] rest
  | token {before gap chars rest : List Char} {t : Token} {tokens : List Token}
      (blank : ∀ c ∈ gap, IsGap c) (placed : Placed (before ++ gap) chars t)
      (spelled : Spelled t chars rest) (more : Tiled (before ++ gap ++ chars) tokens rest) :
      Tiled before (t :: tokens) (gap ++ (chars ++ rest))

theorem Tiled.widen {before gap rest : List Char} {tokens : List Token}
    (blank : ∀ c ∈ gap, IsGap c) (h : Tiled (before ++ gap) tokens rest) :
    Tiled before tokens (gap ++ rest) := by
  cases h with
  | done hrest =>
    apply Tiled.done
    intro c hc
    exact (List.mem_append.1 hc).elim (blank c) (hrest c)
  | @token _ gap' chars rest t tokens hgap placed spelled more =>
    rw [← List.append_assoc]
    rw [List.append_assoc before] at placed more
    refine Tiled.token ?_ placed spelled more
    intro c hc
    exact (List.mem_append.1 hc).elim (blank c) (hgap c)

theorem Tiled.byteStart_ge {before rest : List Char} {tokens : List Token}
    (h : Tiled before tokens rest) : ∀ t ∈ tokens, utf8Len before ≤ t.span.byteStart := by
  induction h with
  | done => nofun
  | @token before gap chars rest t tokens _ placed _ _ ih =>
    intro u hu
    rcases List.mem_cons.1 hu with rfl | hu
    · rw [placed.byteStart, utf8Len_append]
      exact Nat.le_add_right _ _
    · have := ih u hu
      rw [utf8Len_append, utf8Len_append] at this
      omega

/-- The spans are in order and disjoint. -/
theorem Tiled.pairwise {before rest : List Char} {tokens : List Token}
    (h : Tiled before tokens rest) :
    tokens.Pairwise fun t u => t.span.byteEnd ≤ u.span.byteStart := by
  induction h with
  | done => exact List.Pairwise.nil
  | token _ placed _ more ih =>
    refine List.Pairwise.cons (fun u hu => ?_) ih
    rw [placed.byteEnd]
    exact more.byteStart_ge u hu

/-- A token read between two cursors, with blanks before and a backtick after it. -/
def Takes (c : Cursor source) (t : Token) (d : Cursor source) : Prop :=
  ∃ gap chars trail : List Char, c.rest = gap ++ (chars ++ (trail ++ d.rest)) ∧
    (∀ ch ∈ gap, IsGap ch) ∧ (∀ ch ∈ trail, IsGap ch) ∧
    Placed (c.passed.reverse ++ gap) chars t ∧ Spelled t chars (trail ++ d.rest)

theorem Takes.tiled {c d : Cursor source} {t : Token} {tokens : List Token} (h : Takes c t d)
    (more : Tiled d.passed.reverse tokens d.rest) :
    Tiled c.passed.reverse (t :: tokens) c.rest := by
  obtain ⟨gap, chars, trail, hrest, hgap, htrail, placed, spelled⟩ := h
  have hpassed : d.passed.reverse = c.passed.reverse ++ gap ++ chars ++ trail := by
    apply @List.append_cancel_right _ _ d.rest
    have hsplit := c.split.trans d.split.symm
    rw [hrest] at hsplit
    rw [← hsplit]
    simp only [List.append_assoc]
  rw [hpassed] at more
  rw [hrest]
  exact Tiled.token hgap placed spelled (more.widen htrail)

/-- What is skipped before a token belongs to its gap. -/
theorem Takes.after {c d : Cursor source} {t : Token} {n : Nat}
    (blank : ∀ ch ∈ c.rest.take n, IsGap ch) (h : Takes (c.skip n).1 t d) : Takes c t d := by
  obtain ⟨gap, chars, trail, hrest, hgap, htrail, placed, spelled⟩ := h
  have hpassed := c.passed_slice (c.skip n)
  rw [c.slice_skip] at hpassed
  rw [hpassed, List.append_assoc] at placed
  refine ⟨c.rest.take n ++ gap, chars, trail, ?_, ?_, htrail, placed, spelled⟩
  · rw [List.append_assoc, ← hrest, c.skip_rest, List.take_append_drop]
  · intro ch hch
    exact (List.mem_append.1 hch).elim (blank ch) (hgap ch)

/-! ### Slices -/

theorem dropBytes_append (a b : List Char) : dropBytes (a ++ b) (utf8Len a) = some b := by
  induction a with
  | nil => rw [List.nil_append, utf8Len_nil, dropBytes]
  | cons c a ih =>
    obtain ⟨k, hk⟩ : ∃ k, c.utf8Size + utf8Len a = k + 1 :=
      ⟨_, (Nat.succ_pred_eq_of_pos (by have := c.utf8Size_pos; omega)).symm⟩
    rw [List.cons_append, utf8Len_cons, hk, dropBytes, if_pos (by omega),
      show k + 1 - c.utf8Size = utf8Len a by omega, ih]

theorem takeBytes_append (a b : List Char) : takeBytes (a ++ b) (utf8Len a) = some a := by
  induction a with
  | nil => rw [List.nil_append, utf8Len_nil, takeBytes]
  | cons c a ih =>
    obtain ⟨k, hk⟩ : ∃ k, c.utf8Size + utf8Len a = k + 1 :=
      ⟨_, (Nat.succ_pred_eq_of_pos (by have := c.utf8Size_pos; omega)).symm⟩
    rw [List.cons_append, utf8Len_cons, hk, takeBytes, if_pos (by omega),
      show k + 1 - c.utf8Size = utf8Len a by omega, ih]
    rfl

theorem sliceBytes_append {before chars : List Char} (rest : List Char)
    (h : source = before ++ (chars ++ rest)) :
    sliceBytes source (utf8Len before) (utf8Len (before ++ chars)) = some chars := by
  rw [sliceBytes, utf8Len_append, if_pos (Nat.le_add_right _ _), h, dropBytes_append,
    Option.bind_some, Nat.add_sub_cancel_left, takeBytes_append]

theorem pos_eq (c : Cursor source) : c.pos = utf8Len c.passed.reverse := by
  rw [utf8Len_reverse]
  rfl

theorem posAt_eq (c : Cursor source) :
    posAt c = { line := lineOf c.passed.reverse, column := columnOf c.passed.reverse } := by
  rw [posAt, c.line_eq, c.column_eq]

theorem passed_skip (c : Cursor source) (n : Nat) :
    (c.skip n).1.passed.reverse = c.passed.reverse ++ c.rest.take n := by
  rw [c.passed_slice, c.slice_skip]

/-- The slice from a cursor to a later one does not panic. -/
theorem sliceBytes_later (c : Cursor source) (d : Cursor.Later c) :
    sliceBytes source c.pos d.1.pos = some (c.slice d) := by
  rw [pos_eq, pos_eq, c.passed_slice]
  apply sliceBytes_append _
  rw [c.slice_append_rest, c.split]

theorem placed_spanFrom (c : Cursor source) (d : Cursor.Later c) {t : Token}
    (h : t.span = spanFrom c d.1) : Placed c.passed.reverse (c.slice d) t where
  start := by rw [h, ← posAt_eq]; rfl
  byteStart := by rw [h, ← pos_eq]; rfl
  byteEnd := by rw [h, ← c.passed_slice, ← pos_eq]; rfl

theorem takes_spanFrom {c : Cursor source} (d : Cursor.Later c) {t : Token}
    (hspan : t.span = spanFrom c d.1) (hspelled : Spelled t (c.slice d) d.1.rest) :
    Takes c t d.1 := by
  refine ⟨[], c.slice d, [], ?_, by nofun, by nofun, ?_, hspelled⟩
  · rw [List.nil_append, List.nil_append, c.slice_append_rest]
  · rw [List.append_nil]
    exact placed_spanFrom c d hspan

theorem Spelled.of_text {t : Token} {chars rest : List Char} (hkind : t.kind ≠ .string)
    (h : t.text = chars) : Spelled t chars rest := by
  rw [Spelled, if_neg hkind, h]

/-! ### How far the loops go -/

/-- A closed string ends with its quote. -/
theorem stringLen_closed {quote : Char} {chars : List Char}
    (h : (stringLen quote chars).2 = true) :
    ∃ body, chars.take (stringLen quote chars).1 = body ++ [quote] := by
  fun_induction stringLen quote chars with
  | case1 => cases h
  | case2 => cases h
  | case3 c _ => exact ⟨[], by simpa using h⟩
  | case4 d rest n terminated hrest ih =>
    rw [hrest] at ih
    obtain ⟨body, hbody⟩ := ih h
    exact ⟨'\\' :: d :: body, by rw [List.take_succ_cons, List.take_succ_cons, hbody]; rfl⟩
  | case5 => exact ⟨[], rfl⟩
  | case6 c d rest hc hq n terminated hrest ih =>
    rw [hrest] at ih
    obtain ⟨body, hbody⟩ := ih h
    exact ⟨c :: body, by rw [List.take_succ_cons, hbody]; rfl⟩

/-- An open string goes to the end. -/
theorem stringLen_open {quote : Char} {chars : List Char}
    (h : (stringLen quote chars).2 = false) : chars.drop (stringLen quote chars).1 = [] := by
  fun_induction stringLen quote chars with
  | case1 => rfl
  | case2 => rfl
  | case3 => rfl
  | case4 d rest n terminated hrest ih =>
    rw [hrest] at ih
    exact ih h
  | case5 => cases h
  | case6 c d rest hc hq n terminated hrest ih =>
    rw [hrest] at ih
    exact ih h

/-- What a run of template text stops at. -/
theorem runLen_stop (chars : List Char) :
    match (runLen chars).2 with
    | .eof => chars.drop (runLen chars).1 = []
    | .backtick => ∃ rest, chars.drop (runLen chars).1 = '\u0060' :: rest
    | .interp => ∃ rest, chars.drop (runLen chars).1 = '$' :: '{' :: rest := by
  fun_induction runLen chars with
  | case1 => rfl
  | case2 => exact ⟨[], rfl⟩
  | case3 => rfl
  | case4 d rest n stop hrest ih =>
    rw [hrest] at ih
    exact ih
  | case5 d rest => exact ⟨d :: rest, rfl⟩
  | case6 c d rest hc hq hd =>
    rw [hd.1, hd.2]
    exact ⟨rest, rfl⟩
  | case7 c d rest hc hq hd n stop hrest ih =>
    rw [hrest] at ih
    exact ih

/-- A number has at least its first digit. -/
theorem numberLen_pos {sawDot sawExp : Bool} {c : Char} (hc : c.isDigit) (rest : List Char) :
    0 < (numberLen sawDot sawExp (c :: rest)).1 := by
  rcases rest with - | ⟨d, rest⟩
  · rw [numberLen, hc, Bool.true_or, if_pos rfl]
    exact Nat.one_pos
  · rw [numberLen, hc, Bool.true_or, if_pos rfl]
    exact Nat.succ_pos _

/-! ### The state between two tokens -/

/-- What decides how the next token is read, apart from the source. -/
structure Modes where
  jsxStack : List JsxFrame
  templateStack : List TemplateFrame
  pending : Bool
  expect : Bool
  typeEnd : Nat
  raw : Nat
  prev : Option TokenKind

def Lexer.modes (l : Lexer source) : Modes where
  jsxStack := l.jsxStack
  templateStack := l.templateStack
  pending := l.pendingTemplateExprStart
  expect := l.unsafeExpectBrace
  typeEnd := l.unsafeTypeEnd
  raw := l.rawDepth
  prev := l.prevSignificant

namespace Modes

/-- How much is still to be worked off: flags and frames that a token may end without reading. -/
def extras (m : Modes) : Nat :=
  (if m.raw = 0 then 0 else 1) + m.expect.toNat + m.templateStack.count .text

/-- No raw body and no announced interpolation; a group of braces is open at least once. -/
structure Calm (m : Modes) : Prop where
  raw : m.raw = 0
  pending : m.pending = false
  braces : ∀ depth, .braces depth ∈ m.jsxStack → 0 < depth

/-- At most a flag and a frame are new. -/
theorem extras_le {m m' : Modes} (raw : m'.raw = m.raw)
    (expect : m'.expect.toNat ≤ m.expect.toNat + 1)
    (frames : m'.templateStack.count .text ≤ m.templateStack.count .text + 1) :
    m'.extras ≤ m.extras + 2 := by
  rw [extras, extras, raw]
  omega

end Modes

def rank (l : Lexer source) : Nat := 3 * l.cursor.rest.length + l.modes.extras

/-- The invariant of the state: where a raw body began is where the cursor is, an interpolation
that is announced follows at once, and a group of braces is open at least once. -/
structure Sound (l : Lexer source) : Prop where
  raw : 0 < l.rawDepth → l.rawStartPos = posAt l.cursor ∧ l.rawStartByte = l.cursor.pos
  pending : l.pendingTemplateExprStart → l.rawDepth = 0 ∧ l.jsxStack.head? ≠ some .text ∧
    l.templateStack.head? ≠ some .text ∧ ∃ rest, l.cursor.rest = '$' :: '{' :: rest
  braces : ∀ depth, .braces depth ∈ l.jsxStack → 0 < depth

/-- One token, the state after it and the progress made. -/
structure Step (l : Lexer source) (t : Token) (l' : Lexer source) : Prop where
  takes : Takes l.cursor t l'.cursor
  sound : Sound l'
  smaller : t.kind ≠ .eof → rank l' < rank l
  ended : t.kind = .eof → l'.cursor.rest = []

/-- The call does not panic, and is a step. -/
def Steps (l : Lexer source) (r : Option (Token × Lexer source)) : Prop :=
  ∃ t l', r = some (t, l') ∧ Step l t l'

theorem Modes.Calm.sound {l : Lexer source} (h : l.modes.Calm) : Sound l where
  raw hraw := absurd hraw (by rw [show l.rawDepth = 0 from h.raw]; exact Nat.lt_irrefl 0)
  pending hpending := by rw [show l.pendingTemplateExprStart = _ from h.pending] at hpending; cases hpending
  braces := h.braces

theorem rank_lt {l l' : Lexer source} (hrest : l'.cursor.rest.length < l.cursor.rest.length)
    (hextras : l'.modes.extras ≤ l.modes.extras + 2) : rank l' < rank l := by
  rw [rank, rank]
  omega

theorem rank_lt_extras {l l' : Lexer source}
    (hrest : l'.cursor.rest.length ≤ l.cursor.rest.length)
    (hextras : l'.modes.extras < l.modes.extras) : rank l' < rank l := by
  rw [rank, rank]
  omega

/-- A token of `n` characters at the cursor. -/
theorem Step.of_skip {l l' : Lexer source} {t : Token} (n : Nat)
    (hcursor : l'.cursor = (l.cursor.skip n).1) (hspan : t.span = spanFrom l.cursor l'.cursor)
    (hspelled : Spelled t (l.cursor.rest.take n) l'.cursor.rest) (heof : t.kind ≠ .eof)
    (sound : Sound l') (smaller : rank l' < rank l) : Step l t l' where
  takes := by
    rw [hcursor] at hspan hspelled ⊢
    refine takes_spanFrom (l.cursor.skip n) hspan ?_
    rw [l.cursor.slice_skip]
    exact hspelled
  sound := sound
  smaller _ := smaller
  ended h := absurd h heof

/-- A reader that starts further on. -/
theorem Step.after {l m l' : Lexer source} {t : Token} {n : Nat}
    (hcursor : m.cursor = (l.cursor.skip n).1) (blank : ∀ ch ∈ l.cursor.rest.take n, IsGap ch)
    (hrank : rank m ≤ rank l) (h : Step m t l') : Step l t l' where
  takes := by
    refine Takes.after blank ?_
    rw [← hcursor]
    exact h.takes
  sound := h.sound
  smaller heof := Nat.lt_of_lt_of_le (h.smaller heof) hrank
  ended := h.ended

theorem Steps.after {l m : Lexer source} {r : Option (Token × Lexer source)} {n : Nat}
    (hcursor : m.cursor = (l.cursor.skip n).1) (blank : ∀ ch ∈ l.cursor.rest.take n, IsGap ch)
    (hrank : rank m ≤ rank l) (h : Steps m r) : Steps l r := by
  obtain ⟨t, l', hr, hstep⟩ := h
  exact ⟨t, l', hr, hstep.after hcursor blank hrank⟩

theorem skip_length (c : Cursor source) {n : Nat} (hn : 0 < n) (hrest : c.rest ≠ []) :
    (c.skip n).1.rest.length < c.rest.length := by
  rw [c.skip_rest, List.length_drop]
  have := List.length_pos_iff.2 hrest
  omega

/-- A token of code, after which at most a flag and a frame are new. -/
theorem Step.code {l l' : Lexer source} {t : Token} (n : Nat) (hn : 0 < n)
    (hrest : l.cursor.rest ≠ []) (hcalm : l'.modes.Calm)
    (hextras : l'.modes.extras ≤ l.modes.extras + 2) (hcursor : l'.cursor = (l.cursor.skip n).1)
    (hspan : t.span = spanFrom l.cursor l'.cursor)
    (hspelled : Spelled t (l.cursor.rest.take n) l'.cursor.rest) (heof : t.kind ≠ .eof) :
    Step l t l' := by
  refine Step.of_skip n hcursor hspan hspelled heof hcalm.sound (rank_lt ?_ hextras)
  rw [hcursor]
  exact skip_length l.cursor hn hrest

/-- A token of code, after which the modes are as they were. -/
theorem Modes.Calm.step {l l' : Lexer source} {t : Token} (hl : l.modes.Calm) (n : Nat)
    (hn : 0 < n) (hrest : l.cursor.rest ≠ []) (same : l'.modes = l.modes)
    (hcursor : l'.cursor = (l.cursor.skip n).1) (hspan : t.span = spanFrom l.cursor l'.cursor)
    (hspelled : Spelled t (l.cursor.rest.take n) l'.cursor.rest) (heof : t.kind ≠ .eof) :
    Step l t l' := by
  refine Step.code n hn hrest ?_ ?_ hcursor hspan hspelled heof
  · rw [same]
    exact hl
  · rw [same]
    exact Nat.le_add_right _ _

/-! ### The readers -/

namespace Lexer

theorem tokenFrom_advance (l : Lexer source) (n : Nat) (kind : TokenKind) :
    tokenFrom l (l.advance n) kind =
      some ({ kind, text := l.cursor.rest.take n,
              span := spanFrom l.cursor (l.cursor.skip n).1 }, l.advance n) := by
  rw [tokenFrom]
  show (sliceBytes source l.cursor.pos (l.cursor.skip n).1.pos).map _ = _
  rw [sliceBytes_later, l.cursor.slice_skip]
  rfl

theorem error_steps {l : Lexer source} (hl : l.modes.Calm) (hrest : l.cursor.rest ≠ [])
    (message : String) : Steps l (l.error message) := by
  rw [error, tokenFrom_advance]
  exact ⟨_, _, rfl, hl.step 1 Nat.one_pos hrest rfl rfl rfl
    (Spelled.of_text nofun rfl) nofun⟩

theorem readJsxText_steps {l : Lexer source} (hl : l.modes.Calm) {ch : Char} {rest : List Char}
    (hrest : l.cursor.rest = ch :: rest) (hch : (ch == '<' || ch == '{') = false) :
    Steps l l.readJsxText := by
  rw [readJsxText, tokenFrom_advance]
  refine ⟨_, _, rfl, hl.step _ ?_ ?_ rfl rfl rfl
    (Spelled.of_text nofun rfl) nofun⟩
  · rw [hrest, List.takeWhile_cons_of_pos (by rw [hch]; rfl)]
    exact Nat.succ_pos _
  · rw [hrest]
    exact List.cons_ne_nil ch rest

/-- A string token takes its quotes, and the closing one unless the source ends. -/
theorem readString_spec (l : Lexer source) {quote : Char} {rest : List Char}
    (hrest : l.cursor.rest = quote :: rest) (hquote : quote = '"' ∨ quote = '\u0027') :
    ∃ text l', l.readString =
        some ({ kind := .string, text, span := spanFrom l.cursor l'.cursor }, l') ∧
      l'.modes = l.modes ∧ l'.cursor = (l.cursor.skip (1 + (stringLen quote rest).1)).1 ∧
      (rest.take (stringLen quote rest).1 = text ++ [quote] ∨
        (stringLen quote rest).2 = false ∧ rest.take (stringLen quote rest).1 = text ∧
          l'.cursor.rest = []) := by
  have hcurrent : l.current = some quote := by
    show l.cursor.rest[0]? = _
    rw [hrest]
    rfl
  have hone : quote.utf8Size = 1 := by rcases hquote with rfl | rfl <;> rfl
  have hsource : source = l.cursor.passed.reverse ++ quote :: rest := by
    rw [← hrest, l.cursor.split]
  have hstart : (l.advance 1).cursor.pos = utf8Len (l.cursor.passed.reverse ++ [quote]) := by
    show (l.cursor.skip 1).1.pos = _
    rw [pos_eq, passed_skip, hrest]
    rfl
  have hdrop : rest = rest.take (stringLen quote rest).1 ++ rest.drop (stringLen quote rest).1 :=
    (List.take_append_drop _ _).symm
  have hstop : (l.advance (1 + (stringLen quote rest).1)).cursor.pos =
      utf8Len (l.cursor.passed.reverse ++ [quote] ++ rest.take (stringLen quote rest).1) := by
    show (l.cursor.skip _).1.pos = _
    rw [pos_eq, passed_skip, hrest, Nat.add_comm, List.take_succ_cons, List.append_assoc]
    rfl
  rw [readString, hcurrent]
  simp only [hrest, List.drop_one, List.tail_cons]
  rcases hclosed : (stringLen quote rest).2 with - | -
  · have hend := stringLen_open hclosed
    rw [hend, List.append_nil] at hdrop
    have hslice : sliceBytes source (l.advance 1).cursor.pos
        (l.advance (1 + (stringLen quote rest).1)).cursor.pos = some rest := by
      rw [hstart, hstop, ← hdrop]
      apply sliceBytes_append []
      refine hsource.trans ?_
      rw [List.append_assoc, List.append_nil]
      rfl
    simp only [if_neg Bool.false_ne_true, Option.bind_eq_bind, Option.bind_some, hslice]
    refine ⟨rest, _, rfl, rfl, rfl, Or.inr ⟨trivial, hdrop.symm, ?_⟩⟩
    show (l.cursor.skip _).1.rest = []
    rw [l.cursor.skip_rest, hrest, Nat.add_comm, List.drop_succ_cons, hend]
  · obtain ⟨body, hbody⟩ := stringLen_closed hclosed
    rw [hbody] at hdrop hstop
    have hpred : checkedPred (l.advance (1 + (stringLen quote rest).1)).cursor.pos =
        some (utf8Len (l.cursor.passed.reverse ++ [quote] ++ body)) := by
      rw [hstop, ← List.append_assoc, utf8Len_append _ [quote], utf8Len_cons, utf8Len_nil, hone]
      rfl
    have hslice : sliceBytes source (l.advance 1).cursor.pos
        (utf8Len (l.cursor.passed.reverse ++ [quote] ++ body)) = some body := by
      rw [hstart]
      apply sliceBytes_append (quote :: rest.drop (stringLen quote rest).1)
      refine hsource.trans ((congrArg (l.cursor.passed.reverse ++ quote :: ·) hdrop).trans ?_)
      simp
    simp only [if_pos, Option.bind_eq_bind, Option.bind_some, hpred, hslice]
    exact ⟨body, _, rfl, rfl, rfl, Or.inl hbody⟩

theorem readString_steps {l : Lexer source} (hl : l.modes.Calm) {quote : Char} {rest : List Char}
    (hrest : l.cursor.rest = quote :: rest) (hquote : quote = '"' ∨ quote = '\u0027') :
    Steps l l.readString := by
  obtain ⟨text, l', hread, same, hcursor, htext⟩ := l.readString_spec hrest hquote
  have htake : l.cursor.rest.take (1 + (stringLen quote rest).1) =
      quote :: rest.take (stringLen quote rest).1 := by
    rw [hrest, Nat.add_comm, List.take_succ_cons]
  refine ⟨_, l', hread, hl.step _ (Nat.add_pos_left Nat.one_pos _) ?_ same hcursor rfl ?_ nofun⟩
  · rw [hrest]
    exact List.cons_ne_nil quote rest
  · rw [Spelled, if_pos rfl, htake]
    refine ⟨quote, by simpa using hquote, ?_⟩
    rcases htext with htext | ⟨-, htext, hend⟩
    · exact Or.inl (by rw [htext])
    · exact Or.inr ⟨by rw [htext], hend⟩

/-- A chunk of a template literal, and the frame that takes the place of its own. -/
theorem readTemplateText_spec (l : Lexer source) {below : List TemplateFrame}
    (hframe : l.templateStack = .text :: below) :
    ∃ l', l.readTemplateText =
        some ({ kind := .backtickString, text := l.cursor.rest.take (runLen l.cursor.rest).1,
                span := spanFrom l.cursor (l.cursor.skip (runLen l.cursor.rest).1).1 }, l') ∧
      match (runLen l.cursor.rest).2 with
      | .eof => l'.cursor = (l.cursor.skip (runLen l.cursor.rest).1).1 ∧
          l'.modes = { l.modes with templateStack := below }
      | .backtick => l'.cursor = (l.cursor.skip ((runLen l.cursor.rest).1 + 1)).1 ∧
          l'.modes = { l.modes with templateStack := below }
      | .interp => l'.cursor = (l.cursor.skip (runLen l.cursor.rest).1).1 ∧
          l'.modes = { l.modes with templateStack := .interp 0 :: below, pending := true } := by
  rw [readTemplateText]
  simp only [tokenFrom_advance, Option.map_some, hframe, List.tail_cons]
  refine ⟨_, rfl, ?_⟩
  cases (runLen l.cursor.rest).2 <;> exact ⟨rfl, rfl⟩

theorem readTemplateText_steps {l : Lexer source} (hl : l.modes.Calm)
    (outside : l.jsxStack.head? = some .text → l.cursor.rest = []) {below : List TemplateFrame}
    (hframe : l.templateStack = .text :: below) : Steps l l.readTemplateText := by
  obtain ⟨l', hread, hend⟩ := l.readTemplateText_spec hframe
  have hstop := runLen_stop l.cursor.rest
  have hextras : l.modes.extras = { l.modes with templateStack := below }.extras + 1 := by
    show _ + _ + List.count _ l.templateStack = _
    rw [hframe, List.count_cons_self, ← Nat.add_assoc]
    rfl
  have htext (rest : List Char) := @Spelled.of_text
    { kind := .backtickString, text := l.cursor.rest.take (runLen l.cursor.rest).1,
      span := spanFrom l.cursor (l.cursor.skip (runLen l.cursor.rest).1).1 } _ rest nofun rfl
  have hcalm : { l.modes with templateStack := below }.Calm := ⟨hl.raw, hl.pending, hl.braces⟩
  have hleft (n : Nat) : (l.cursor.skip n).1.rest.length ≤ l.cursor.rest.length :=
    Cursor.Later.length_le _
  rcases hkind : (runLen l.cursor.rest).2 with - | - | - <;> rw [hkind] at hend hstop
  · obtain ⟨hcursor, hmodes⟩ := hend
    refine ⟨_, l', hread, Step.of_skip _ hcursor (by rw [hcursor]) (htext _) nofun ?_ ?_⟩
    · exact Modes.Calm.sound (by rw [hmodes]; exact hcalm)
    · refine rank_lt_extras (by rw [hcursor]; exact hleft _) ?_
      rw [hmodes, hextras]
      exact Nat.lt_succ_self _
  · obtain ⟨hcursor, hmodes⟩ := hend
    obtain ⟨rest, hrest⟩ := hstop
    have hafter : l'.cursor.rest = rest := by
      rw [hcursor, l.cursor.skip_rest, ← List.drop_drop, hrest]
      rfl
    refine ⟨_, l', hread, ?_, ?_, fun _ => rank_lt_extras (by rw [hcursor]; exact hleft _) ?_,
      nofun⟩
    · refine ⟨[], l.cursor.rest.take (runLen l.cursor.rest).1, ['\u0060'], ?_, nofun,
        fun ch hch => ?_, ?_, htext _⟩
      · rw [hafter, List.nil_append, List.singleton_append, ← hrest, List.take_append_drop]
      · rw [List.mem_singleton.1 hch]
        decide
      · rw [List.append_nil, ← l.cursor.slice_skip]
        exact placed_spanFrom l.cursor (l.cursor.skip _) rfl
    · exact Modes.Calm.sound (by rw [hmodes]; exact hcalm)
    · rw [hmodes, hextras]
      exact Nat.lt_succ_self _
  · obtain ⟨hcursor, hmodes⟩ := hend
    obtain ⟨rest, hrest⟩ := hstop
    refine ⟨_, l', hread, Step.of_skip _ hcursor (by rw [hcursor]) (htext _) nofun ?_ ?_⟩
    · have hjsx : l'.jsxStack = l.jsxStack := congrArg Modes.jsxStack hmodes
      have hraw : l'.rawDepth = l.rawDepth := congrArg Modes.raw hmodes
      have htemplate : l'.templateStack = .interp 0 :: below :=
        congrArg Modes.templateStack hmodes
      refine ⟨fun h => ?_, fun _ => ⟨hraw.trans hl.raw, ?_, ?_, rest, ?_⟩, ?_⟩
      · rw [hraw, show l.rawDepth = 0 from hl.raw] at h
        exact absurd h (Nat.lt_irrefl 0)
      · rw [hjsx]
        intro h
        rw [outside h, runLen] at hkind
        cases hkind
      · rw [htemplate]
        nofun
      · rw [hcursor, l.cursor.skip_rest, hrest]
      · rw [hjsx]
        exact hl.braces
    · refine rank_lt_extras (by rw [hcursor]; exact hleft _) ?_
      rw [hmodes, hextras]
      show _ + _ + List.count _ (TemplateFrame.interp 0 :: below) < _
      rw [List.count_cons_of_ne (by decide)]
      exact Nat.lt_succ_self _

/-- The kind and the length of a number. -/
def numberToken (chars : List Char) : TokenKind × Nat :=
  if (chars.drop (numberLen false false chars).1)[0]? = some 'n' then
    (.bigInt, (numberLen false false chars).1 + 1)
  else (.number, (numberLen false false chars).1)

theorem readNumber_spec (l : Lexer source) :
    ∃ l', l.readNumber =
        some ({ kind := (numberToken l.cursor.rest).1,
                text := l.cursor.rest.take (numberToken l.cursor.rest).2,
                span := spanFrom l.cursor (l.cursor.skip (numberToken l.cursor.rest).2).1 }, l') ∧
      l'.cursor = (l.cursor.skip (numberToken l.cursor.rest).2).1 ∧ l'.modes = l.modes := by
  have hcurrent : (l.advance (numberLen false false l.cursor.rest).1).current =
      (l.cursor.rest.drop (numberLen false false l.cursor.rest).1)[0]? := by
    show (l.cursor.skip _).1.rest[0]? = _
    rw [l.cursor.skip_rest]
  have hbig : (l.advance (numberLen false false l.cursor.rest).1).advance 1 =
      l.advance ((numberLen false false l.cursor.rest).1 + 1) := rfl
  rw [readNumber, numberToken]
  simp only [tokenFrom_advance, hcurrent, Option.bind_eq_bind, Option.bind_some, hbig]
  by_cases hn : (l.cursor.rest.drop (numberLen false false l.cursor.rest).1)[0]? = some 'n'
  · simp only [if_pos hn]
    refine ⟨_, rfl, ?_, ?_⟩
    · split <;> split <;> rfl
    · split <;> split <;> rfl
  · simp only [if_neg hn]
    refine ⟨_, rfl, ?_, ?_⟩
    · split <;> split <;> rfl
    · split <;> split <;> rfl

theorem readNumber_steps {l : Lexer source} (hl : l.modes.Calm) {ch : Char} {rest : List Char}
    (hrest : l.cursor.rest = ch :: rest) (hch : ch.isDigit) : Steps l l.readNumber := by
  obtain ⟨l', hread, hcursor, hmodes⟩ := l.readNumber_spec
  have hkind : (numberToken l.cursor.rest).1 ≠ .string ∧ (numberToken l.cursor.rest).1 ≠ .eof := by
    rw [numberToken]
    split <;> exact ⟨nofun, nofun⟩
  have hpos : 0 < (numberToken l.cursor.rest).2 := by
    rw [numberToken]
    split
    · exact Nat.succ_pos _
    · rw [hrest]
      exact numberLen_pos hch rest
  refine ⟨_, l', hread, hl.step _ hpos ?_ hmodes hcursor (by rw [hcursor])
    (Spelled.of_text hkind.1 rfl) hkind.2⟩
  rw [hrest]
  exact List.cons_ne_nil ch rest

/-- A comment takes the slash in front of the cursor too. -/
theorem commentFrom_spec (l : Lexer source) {rest : List Char} (hrest : l.cursor.rest = '/' :: rest)
    (n : Nat) : commentFrom (l.advance 1) ((l.advance 1).advance n) =
      some ({ kind := .comment, text := l.cursor.rest.take (1 + n),
              span := spanFrom l.cursor (l.cursor.skip (1 + n)).1 }, l.advance (1 + n)) := by
  have hpassed : (l.advance 1).cursor.passed.reverse = l.cursor.passed.reverse ++ ['/'] := by
    show (l.cursor.skip 1).1.passed.reverse = _
    rw [passed_skip, hrest]
    rfl
  have hline : (l.advance 1).cursor.line = l.cursor.line := by
    rw [Cursor.line_eq, hpassed, lineOf_snoc _ (by decide), ← l.cursor.line_eq]
  have hcolumn : checkedPred (l.advance 1).cursor.column = some l.cursor.column := by
    rw [Cursor.column_eq, hpassed, columnOf_snoc _ (by decide), ← l.cursor.column_eq]
    rfl
  have hpos : checkedPred (l.advance 1).cursor.pos = some l.cursor.pos := by
    rw [pos_eq, hpassed, utf8Len_append, ← pos_eq]
    rfl
  have hadvance : (l.advance 1).advance n = l.advance (1 + n) := by
    rw [advance, advance, advance, l.cursor.skip_add]
  rw [commentFrom, hadvance]
  have hslice : sliceBytes source l.cursor.pos (l.advance (1 + n)).cursor.pos =
      some (l.cursor.rest.take (1 + n)) := by
    show sliceBytes source l.cursor.pos (l.cursor.skip (1 + n)).1.pos = _
    rw [sliceBytes_later, l.cursor.slice_skip]
  simp only [hcolumn, hpos, hline, hslice, Option.bind_eq_bind, Option.bind_some]
  rfl

theorem readRawJsBody_steps {l : Lexer source} (hl : Sound l) {depth : Nat}
    (hraw : l.rawDepth = depth + 1) : Steps l (l.readRawJsBody depth) := by
  obtain ⟨hpos, hbyte⟩ := hl.raw (by rw [hraw]; exact Nat.succ_pos depth)
  have hpending : l.pendingTemplateExprStart = false := by
    rcases h : l.pendingTemplateExprStart with - | -
    · rfl
    · have := (hl.pending h).1
      rw [hraw] at this
      cases this
  rw [readRawJsBody, hbyte, hpos]
  simp only [sliceBytes_later, Option.map_some]
  refine ⟨_, _, rfl, takes_spanFrom _ rfl (Spelled.of_text nofun rfl), ?_, fun _ => ?_, nofun⟩
  · exact Modes.Calm.sound ⟨rfl, hpending, hl.braces⟩
  · refine rank_lt_extras (Cursor.Later.length_le _) ?_
    show 0 + _ + _ < (if l.rawDepth = 0 then 0 else 1) + _ + _
    rw [hraw, if_neg (Nat.succ_ne_zero depth), Nat.add_assoc, Nat.add_assoc, Nat.zero_add,
      Nat.add_comm 1]
    exact Nat.lt_succ_self _

/-- A token with a given text, after which at most a flag and a frame are new. -/
theorem punct_step {l l' : Lexer source} {kind : TokenKind} (text : String) {tail : List Char}
    (hrest : l.cursor.rest = text.toList ++ tail) (hne : text.toList ≠ [])
    (hcursor : l'.cursor = (l.cursor.skip text.toList.length).1) (hcalm : l'.modes.Calm)
    (hextras : l'.modes.extras ≤ l.modes.extras + 2) (hkind : kind ≠ .string)
    (heof : kind ≠ .eof) : Step l { (l.punct kind text).1 with kind := kind } l' := by
  refine Step.code text.toList.length (List.length_pos_iff.2 hne) ?_ hcalm hextras hcursor
    (by rw [hcursor]; rfl) (Spelled.of_text hkind ?_) heof
  · rw [hrest]
    exact List.append_ne_nil_of_left_ne_nil hne tail
  · rw [hrest, List.take_left']
    · rfl
    · rfl

/-- A token with a given text that changes no mode. -/
theorem punct_steps {l : Lexer source} {kind : TokenKind} (text : String) (hl : l.modes.Calm)
    {tail : List Char} (hrest : l.cursor.rest = text.toList ++ tail) (hne : text.toList ≠ [])
    (hkind : kind ≠ .string) (heof : kind ≠ .eof) : Steps l (some (l.punct kind text)) :=
  ⟨_, _, rfl, punct_step text hrest hne rfl hl (Nat.le_add_right _ _) hkind heof⟩

theorem keyword_ne (text : List Char) : keyword text ≠ .string ∧ keyword text ≠ .eof := by
  rw [keyword]
  split <;> exact ⟨nofun, nofun⟩

theorem jsxChild_steps {l : Lexer source} (hl : l.modes.Calm) {ch : Char} {rest : List Char}
    (hrest : l.cursor.rest = ch :: rest) : Steps l (l.jsxChild ch) := by
  rw [jsxChild]
  by_cases hlt : ch = '<'
  · rw [if_pos hlt]
    rw [hlt] at hrest
    refine ⟨_, _, rfl, punct_step "<" hrest (by decide) rfl
      ⟨hl.raw, hl.pending, fun depth h => ?_⟩ (Nat.le_add_right _ _) nofun nofun⟩
    rcases List.mem_cons.1 h with h | h
    · split at h <;> cases h
    · exact hl.braces depth h
  · rw [if_neg hlt]
    by_cases hbrace : ch = '{'
    · rw [if_pos hbrace]
      rw [hbrace] at hrest
      refine ⟨_, _, rfl, punct_step "\x7b" hrest (by decide) rfl
        ⟨hl.raw, hl.pending, fun depth h => ?_⟩ (Nat.le_add_right _ _) nofun nofun⟩
      rcases List.mem_cons.1 h with h | h
      · cases h
        exact Nat.one_pos
      · exact hl.braces depth h
    · rw [if_neg hbrace]
      exact readJsxText_steps hl hrest (by simp [hlt, hbrace])

theorem openFrames_braces {jsx : List JsxFrame} (h : ∀ depth, .braces depth ∈ jsx → 0 < depth)
    (template : List TemplateFrame) :
    ∀ depth, .braces depth ∈ (openFrames jsx template).1 → 0 < depth := by
  fun_cases openFrames jsx template with
  | case1 => exact h
  | case2 => exact h
  | case3 =>
    intro d hd
    rcases List.mem_cons.1 hd with hd | hd
    · cases hd
      exact Nat.succ_pos _
    · exact h d (List.mem_cons_of_mem _ hd)
  | case4 =>
    intro d hd
    rcases List.mem_cons.1 hd with hd | hd
    · cases hd
      exact Nat.one_pos
    · exact h d hd

theorem openFrames_count (jsx : List JsxFrame) (template : List TemplateFrame) :
    (openFrames jsx template).2.count .text = template.count .text := by
  fun_cases openFrames jsx template with
  | case1 => rw [List.count_cons_of_ne (by simp), List.count_cons_of_ne (by simp)]
  | case2 => rfl
  | case3 => rfl
  | case4 => rfl

/-- A closing brace does not underflow, and at most one text frame comes in. -/
theorem closeFrames_spec (jsx : List JsxFrame) (h : ∀ depth, .braces depth ∈ jsx → 0 < depth)
    (template : List TemplateFrame) :
    ∃ kind jsx' template', closeFrames jsx template = some (kind, jsx', template') ∧
      (kind = .rBrace ∨ kind = .templateExprEnd) ∧
      (∀ depth, .braces depth ∈ jsx' → 0 < depth) ∧
      template'.count .text ≤ template.count .text + 1 := by
  fun_cases closeFrames jsx template with
  | case1 below => 
    refine ⟨_, _, _, rfl, Or.inr rfl, h, ?_⟩
    rw [List.count_cons_self, List.count_cons_of_ne (by simp)]
  | case2 below depth =>
    refine ⟨_, _, _, rfl, Or.inl rfl, h, ?_⟩
    rw [List.count_cons_of_ne (by simp), List.count_cons_of_ne (by simp)]
    exact Nat.le_succ _
  | case3 below template =>
    exact ⟨_, _, _, rfl, Or.inl rfl, fun d hd => h d (List.mem_cons_of_mem _ hd), Nat.le_succ _⟩
  | case4 =>
    rename_i depth below hone
    have hpos : 0 < depth := h depth (List.mem_cons_self ..)
    obtain ⟨depth, rfl⟩ : ∃ k, depth = k + 1 := ⟨depth - 1, by omega⟩
    refine ⟨_, _, _, rfl, Or.inl rfl, fun d hd => ?_, Nat.le_succ _⟩
    rcases List.mem_cons.1 hd with hd | hd
    · cases hd
      rcases depth with - | depth
      · exact absurd rfl hone
      · exact Nat.succ_pos depth
    · exact h d (List.mem_cons_of_mem _ hd)
  | case5 => exact ⟨_, _, _, rfl, Or.inl rfl, h, Nat.le_succ _⟩

theorem openBrace_steps {l : Lexer source} (hl : l.modes.Calm) {rest : List Char}
    (hrest : l.cursor.rest = '{' :: rest) : Steps l l.openBrace := by
  refine ⟨_, _, rfl, punct_step "\x7b" hrest (by decide) rfl
    ⟨hl.raw, hl.pending, openFrames_braces hl.braces l.templateStack⟩
    (Modes.extras_le rfl (Nat.le_succ _) ?_) nofun nofun⟩
  show (openFrames l.jsxStack l.templateStack).2.count .text ≤ _
  rw [openFrames_count]
  exact Nat.le_succ _

theorem closeBrace_steps {l : Lexer source} (hl : l.modes.Calm) {rest : List Char}
    (hrest : l.cursor.rest = '}' :: rest) : Steps l l.closeBrace := by
  obtain ⟨kind, jsx, template, hclose, hkind, hbraces, hcount⟩ :=
    closeFrames_spec l.jsxStack hl.braces l.templateStack
  rw [closeBrace, hclose]
  refine ⟨_, _, rfl, punct_step "\x7d" hrest (by decide) rfl
    ⟨hl.raw, hl.pending, hbraces⟩ (Modes.extras_le rfl (Nat.le_succ _) hcount) ?_ ?_⟩
  · rcases hkind with rfl | rfl <;> decide
  · rcases hkind with rfl | rfl <;> decide

theorem rest_of_current {l : Lexer source} {ch : Char} (h : l.current = some ch) :
    ∃ rest, l.cursor.rest = ch :: rest := by
  rcases hrest : l.cursor.rest with - | ⟨c, rest⟩
  · rw [current, Cursor.current, Cursor.peek, hrest] at h
    cases h
  · rw [current, Cursor.current, Cursor.peek, hrest] at h
    exact ⟨rest, by rw [← Option.some.inj h]⟩

/-- The character after the one at the cursor. -/
theorem rest_of_next {l : Lexer source} {ch next : Char} {rest : List Char}
    (hrest : l.cursor.rest = ch :: rest) (h : (l.advance 1).current = some next) :
    ∃ tail, l.cursor.rest = ch :: next :: tail := by
  have hnext : rest[0]? = some next := by
    rw [← h]
    show _ = (l.cursor.skip 1).1.rest[0]?
    rw [l.cursor.skip_rest, hrest]
    rfl
  rcases rest with - | ⟨c, tail⟩
  · cases hnext
  · exact ⟨tail, by rw [hrest, Option.some.inj hnext]⟩

theorem closeJsxTag_braces {stack : List JsxFrame} (h : ∀ depth, .braces depth ∈ stack → 0 < depth) :
    ∀ depth, .braces depth ∈ closeJsxTag stack → 0 < depth := by
  fun_cases closeJsxTag stack <;> simp_all

theorem slash_steps {l : Lexer source} (hl : l.modes.Calm) {rest : List Char}
    (hrest : l.cursor.rest = '/' :: rest) : Steps l l.slash := by
  have hne : l.cursor.rest ≠ [] := by
    rw [hrest]
    exact List.cons_ne_nil _ rest
  have hcomment (n : Nat) : Steps l (commentFrom (l.advance 1) ((l.advance 1).advance n)) := by
    rw [commentFrom_spec l hrest]
    exact ⟨_, _, rfl, hl.step _ (Nat.add_pos_left Nat.one_pos n) hne rfl rfl rfl
      (Spelled.of_text nofun rfl) nofun⟩
  rw [slash]
  split
  · exact hcomment _
  · rw [readBlockComment]
    simp only []
    rw [commentFrom_spec l hrest]
    refine ⟨_, _, rfl, hl.step _ (Nat.add_pos_left Nat.one_pos _) hne ?_ ?_ ?_
      (Spelled.of_text nofun rfl) nofun⟩
    · split <;> rfl
    · split <;> rfl
    · split <;> rfl
  · next heq =>
    obtain ⟨tail, htail⟩ := rest_of_next hrest heq
    exact punct_steps "/=" hl htail (by decide) nofun nofun
  · next below _ hjsx =>
    refine ⟨_, _, rfl, punct_step "/" hrest (by decide) rfl
      ⟨hl.raw, hl.pending, fun depth h => hl.braces depth ?_⟩ (Nat.le_add_right _ _) nofun nofun⟩
    show _ ∈ l.jsxStack
    rw [hjsx]
    rcases List.mem_cons.1 h with h | h
    · cases h
    · exact List.mem_cons_of_mem _ h
  · exact punct_steps "/" hl hrest (by decide) nofun nofun

theorem less_steps {l : Lexer source} (hl : l.modes.Calm) {rest : List Char}
    (hrest : l.cursor.rest = '<' :: rest) : Steps l l.less := by
  rw [less]
  split
  · next heq =>
    obtain ⟨tail, htail⟩ := rest_of_next hrest heq
    exact punct_steps "<=" hl htail (by decide) nofun nofun
  · next heq =>
    obtain ⟨tail, htail⟩ := rest_of_next hrest heq
    exact punct_steps "<<" hl htail (by decide) nofun nofun
  · simp only []
    split
    · refine ⟨_, _, rfl, punct_step "<" hrest (by decide) rfl
        ⟨hl.raw, hl.pending, fun depth h => hl.braces depth ?_⟩ (Nat.le_add_right _ _) nofun nofun⟩
      rcases List.mem_cons.1 h with h | h
      · cases h
      · exact h
    · exact punct_steps "<" hl hrest (by decide) nofun nofun

theorem greater_steps {l : Lexer source} (hl : l.modes.Calm) {rest : List Char}
    (hrest : l.cursor.rest = '>' :: rest) : Steps l l.greater := by
  rw [greater]
  split
  · next heq =>
    obtain ⟨tail, htail⟩ := rest_of_next hrest heq
    exact punct_steps ">=" hl htail (by decide) nofun nofun
  · next heq =>
    obtain ⟨tail, htail⟩ := rest_of_next hrest heq
    exact punct_steps ">>" hl htail (by decide) nofun nofun
  · exact ⟨_, _, rfl, punct_step ">" hrest (by decide) rfl
      ⟨hl.raw, hl.pending, closeJsxTag_braces hl.braces⟩ (Nat.le_add_right _ _) nofun nofun⟩

section Code

variable [Unicode]

theorem readIdentifier_steps {l : Lexer source} (hl : l.modes.Calm) {ch : Char} {rest : List Char}
    (hrest : l.cursor.rest = ch :: rest)
    (hch : isWordChar ch = true) :
    Steps l l.readIdentifier := by
  rw [readIdentifier]
  simp only [tokenFrom_advance, Option.map_some]
  refine ⟨_, _, rfl, Step.code _ ?_ ?_ ⟨hl.raw, hl.pending, hl.braces⟩ ?_ rfl rfl
    (Spelled.of_text (keyword_ne _).1 rfl) (keyword_ne _).2⟩
  · rw [hrest]
    simp only [List.takeWhile_cons, hch]
    exact Nat.succ_pos _
  · rw [hrest]
    exact List.cons_ne_nil ch rest
  · refine Modes.extras_le rfl ?_ (Nat.le_succ _)
    exact Nat.le_trans (Bool.toNat_le _) (Nat.le_add_left 1 _)

omit [Unicode] in
theorem eofToken_step {l : Lexer source} (hl : l.modes.Calm) (hrest : l.cursor.rest = []) :
    Step l l.eofToken.1 l.eofToken.2 := by
  have hcursor : l.eofToken.2.cursor = l.cursor := by
    rw [eofToken]
    split <;> rfl
  refine ⟨?_, ?_, fun h => absurd rfl h, fun _ => by rw [hcursor, hrest]⟩
  · rw [hcursor]
    exact takes_spanFrom l.cursor.stay rfl (Spelled.of_text nofun
      (by rw [show l.cursor.slice l.cursor.stay = _ from l.cursor.slice_skip 0]; rfl))
  · apply Modes.Calm.sound
    rw [eofToken]
    split
    · exact hl
    · exact ⟨hl.raw, hl.pending, hl.braces⟩

omit [Unicode] in
theorem toNat_lt_of_isAlpha {c : Char} (h : c.isAlpha) : c.toNat < 128 := by
  simp only [Char.isAlpha, Char.isUpper, Char.isLower, Bool.or_eq_true, Bool.and_eq_true,
    decide_eq_true_eq, UInt32.le_iff_toNat_le, ge_iff_le] at h
  have hz : 'z'.val.toNat = 122 := rfl
  have hZ : 'Z'.val.toNat = 90 := rfl
  have hc : c.toNat = c.val.toNat := rfl
  omega

omit [Unicode] in
theorem punctuation_plain :
    ∀ entry ∈ punctuation, entry.1.toList ≠ [] ∧ entry.2 ≠ .string ∧ entry.2 ≠ .eof := by
  decide

theorem lexChar_steps {l : Lexer source} (hl : l.modes.Calm)
    (outside : l.jsxStack.head? = some .text → l.cursor.rest = []) : Steps l l.lexChar := by
  rcases hrest : l.cursor.rest with - | ⟨ch, rest⟩
  · have hcurrent : l.current = none := by
      show l.cursor.rest[0]? = _
      rw [hrest]
      rfl
    rw [lexChar, hcurrent]
    exact ⟨_, _, rfl, eofToken_step hl hrest⟩
  have hcurrent : l.current = some ch := by
    show l.cursor.rest[0]? = _
    rw [hrest]
    rfl
  have hne : l.cursor.rest ≠ [] := by
    rw [hrest]
    exact List.cons_ne_nil ch rest
  rw [lexChar, hcurrent]
  simp only []
  by_cases hnewline : ch = '\n'
  · rw [if_pos hnewline]
    rw [hnewline] at hrest
    exact punct_steps "\n" hl hrest (by decide) nofun nofun
  rw [if_neg hnewline]
  by_cases hquote : ch = '"' ∨ ch = '\u0027'
  · rw [if_pos hquote]
    exact readString_steps hl hrest hquote
  rw [if_neg hquote]
  by_cases htick : ch = '\u0060'
  · rw [if_pos htick]
    refine Steps.after (m := { l.advance 1 with templateStack := .text :: l.templateStack })
      (n := 1) rfl (fun c hc => ?_) (Nat.le_of_lt (rank_lt ?_ ?_))
      (readTemplateText_steps ⟨hl.raw, hl.pending, hl.braces⟩ (fun h => ?_) rfl)
    · rw [hrest, htick] at hc
      rw [List.mem_singleton.1 hc]
      decide
    · exact skip_length l.cursor Nat.one_pos hne
    · exact Modes.extras_le rfl (Nat.le_succ _) (Nat.le_of_eq List.count_cons_self)
    · exact absurd (outside h) hne
  rw [if_neg htick]
  by_cases hdigit : ch.isDigit
  · rw [if_pos hdigit]
    exact readNumber_steps hl hrest hdigit
  rw [if_neg hdigit]
  by_cases hword : ch.isAlpha ∨ ch = '_' ∨ Unicode.isAlphabetic ch
  · rw [if_pos hword]
    refine readIdentifier_steps hl hrest ?_
    rw [isWordChar]
    rcases hword with h | rfl | h
    · rw [Unicode.isAlphabetic_ascii ch (toNat_lt_of_isAlpha h), h]
      rfl
    · exact Bool.or_true _
    · rw [h]
      rfl
  rw [if_neg hword]
  by_cases hopen : ch = '{'
  · rw [if_pos hopen]
    rw [hopen] at hrest
    exact openBrace_steps hl hrest
  rw [if_neg hopen]
  by_cases hclose : ch = '}'
  · rw [if_pos hclose]
    rw [hclose] at hrest
    exact closeBrace_steps hl hrest
  rw [if_neg hclose]
  by_cases hslash : ch = '/'
  · rw [if_pos hslash]
    rw [hslash] at hrest
    exact slash_steps hl hrest
  rw [if_neg hslash]
  by_cases hless : ch = '<'
  · rw [if_pos hless]
    rw [hless] at hrest
    exact less_steps hl hrest
  rw [if_neg hless]
  by_cases hgreater : ch = '>'
  · rw [if_pos hgreater]
    rw [hgreater] at hrest
    exact greater_steps hl hrest
  rw [if_neg hgreater]
  split
  · next text kind hfind =>
    obtain ⟨hne', hstring, heof⟩ := punctuation_plain _ (List.mem_of_find?_eq_some hfind)
    have hstart : text.toList.isPrefixOf l.cursor.rest := by simpa using List.find?_some hfind
    obtain ⟨tail, htail⟩ := List.isPrefixOf_iff_prefix.1 hstart
    exact punct_steps _ hl htail.symm hne' hstring heof
  · exact error_steps hl hne _

omit [Unicode] in
/-- The depth of a group does not underflow. -/
theorem matchingAngleEnd_isSome (chars : List Char) (i : Nat) {depth : Nat} (h : 0 < depth) :
    ∃ typeEnd, matchingAngleEnd i depth chars = some typeEnd := by
  fun_induction matchingAngleEnd i depth chars with
  | case1 i => exact ⟨i, rfl⟩
  | case2 _ _ _ ih => exact ih (Nat.succ_pos _)
  | case3 => exact absurd h (Nat.lt_irrefl 0)
  | case4 => exact ⟨_, rfl⟩
  | case5 => 
    rename_i ih
    exact ih (Nat.succ_pos _)
  | case6 => exact ⟨_, rfl⟩
  | case7 => 
    rename_i ih
    exact ih h

theorem lexUnsafe_steps {l : Lexer source} (hl : l.modes.Calm)
    (outside : l.jsxStack.head? = some .text → l.cursor.rest = [])
    (hexpect : l.unsafeExpectBrace = true) : Steps l l.lexUnsafe := by
  have hextras : l.modes.extras = { l.modes with expect := false }.extras + 1 := by
    show _ + l.unsafeExpectBrace.toNat + _ = _ + 0 + _ + 1
    rw [hexpect]
    exact Nat.add_right_comm _ _ _
  have hcalm : { l.modes with expect := false }.Calm := ⟨hl.raw, hl.pending, hl.braces⟩
  rw [lexUnsafe]
  split
  · next hless =>
    obtain ⟨rest, hrest⟩ : ∃ rest, l.cursor.rest = '<' :: rest := rest_of_current hless
    obtain ⟨typeEnd, hend⟩ := matchingAngleEnd_isSome rest (l.cursor.pos + 1) Nat.one_pos
    rw [hrest, show matchingAngleEnd l.cursor.pos 0 ('<' :: rest) = _ from hend, Option.bind_some]
    exact Steps.after (m := { l with unsafeTypeEnd := typeEnd }) (n := 0) rfl nofun
      (Nat.le_refl _) (lexChar_steps ⟨hl.raw, hl.pending, hl.braces⟩ outside)
  · simp only []
    split
    · next hbrace =>
      obtain ⟨rest, hrest⟩ : ∃ rest, l.cursor.rest = '{' :: rest := rest_of_current hbrace
      have hne : l.cursor.rest ≠ [] := by
        rw [hrest]
        exact List.cons_ne_nil _ rest
      refine ⟨_, _, rfl, Step.of_skip 1 rfl rfl (Spelled.of_text nofun (by rw [hrest]; rfl)) nofun
        ⟨fun _ => ⟨rfl, rfl⟩, fun h => ?_, hl.braces⟩
        (rank_lt (skip_length l.cursor Nat.one_pos hne) ?_)⟩
      · rw [show l.pendingTemplateExprStart = false from hl.pending] at h
        cases h
      · rw [hextras]
        show 1 + 0 + l.templateStack.count .text ≤
          (if l.rawDepth = 0 then 0 else 1) + 0 + l.templateStack.count .text + 1 + 2
        omega
    · rw [error, tokenFrom_advance]
      refine ⟨_, _, rfl, Step.of_skip 1 rfl rfl (Spelled.of_text nofun rfl) nofun
        (Modes.Calm.sound hcalm) (rank_lt_extras (Cursor.Later.length_le (l.cursor.skip 1)) ?_)⟩
      rw [hextras]
      exact Nat.lt_succ_self _

omit [Unicode] in
/-- In a tag the flag of `unsafe` is taken back; nothing else is changed. -/
theorem cancelUnsafe_eq (l : Lexer source) :
    l.cancelUnsafe = l ∨ l.cancelUnsafe = { l with unsafeExpectBrace := false } := by
  rw [cancelUnsafe]
  split
  · split
    · exact Or.inr rfl
    · exact Or.inl rfl
  · split
    · exact Or.inr rfl
    · exact Or.inl rfl
  · split
    · exact Or.inr rfl
    · exact Or.inl rfl
  · exact Or.inl rfl

theorem lexCode_steps {l : Lexer source} (hl : l.modes.Calm)
    (outside : l.jsxStack.head? = some .text → l.cursor.rest = []) : Steps l l.lexCode := by
  have hblank : ∀ ch ∈ l.cursor.rest.take
      (l.cursor.rest.takeWhile fun c => c == ' ' || c == '\t' || c == '\r').length, IsGap ch := by
    intro ch hch
    rw [← List.prefix_iff_eq_take.1 (List.takeWhile_prefix _)] at hch
    have hspace := List.mem_takeWhile_imp hch
    simp only [Bool.or_eq_true, beq_iff_eq] at hspace
    rcases hspace with (rfl | rfl) | rfl <;> decide
  have hmodes : l.skipWhitespace.cancelUnsafe.cursor = l.skipWhitespace.cursor ∧
      l.skipWhitespace.cancelUnsafe.modes.Calm ∧
      l.skipWhitespace.cancelUnsafe.jsxStack = l.jsxStack ∧
      l.skipWhitespace.cancelUnsafe.modes.extras ≤ l.modes.extras := by
    rcases cancelUnsafe_eq l.skipWhitespace with h | h <;> rw [h]
    · exact ⟨rfl, hl, rfl, Nat.le_refl _⟩
    · refine ⟨rfl, ⟨hl.raw, hl.pending, hl.braces⟩, rfl, ?_⟩
      show _ + 0 + _ ≤ _ + l.unsafeExpectBrace.toNat + _
      exact Nat.add_le_add_right (Nat.add_le_add_left (Nat.zero_le _) _) _
  obtain ⟨hcursor, hcalm, hjsx, hextras⟩ := hmodes
  have hlength : l.skipWhitespace.cancelUnsafe.cursor.rest.length ≤ l.cursor.rest.length := by
    rw [hcursor]
    exact Cursor.Later.length_le _
  have houtside : l.skipWhitespace.cancelUnsafe.jsxStack.head? = some .text →
      l.skipWhitespace.cancelUnsafe.cursor.rest = [] := by
    rw [hjsx]
    intro h
    rw [outside h] at hlength
    exact List.eq_nil_of_length_eq_zero (Nat.le_zero.1 hlength)
  rw [lexCode]
  refine Steps.after hcursor hblank (by rw [rank, rank]; omega) ?_
  split
  · next h => exact lexUnsafe_steps hcalm houtside h.1
  · exact lexChar_steps hcalm houtside

omit [Unicode] in
theorem templateExprStart_steps {l : Lexer source} (hl : Sound l)
    (hpending : l.pendingTemplateExprStart = true) : Steps l l.templateExprStart := by
  obtain ⟨hraw, -, -, rest, hrest⟩ := hl.pending hpending
  have hstep : Step l (l.punct .templateExprStart "$\x7b").1
      { l.advance 2 with pendingTemplateExprStart := false } :=
    punct_step "$\x7b" hrest (by decide) rfl ⟨hraw, rfl, hl.braces⟩
      (Nat.le_add_right l.modes.extras 2) nofun nofun
  exact ⟨_, _, rfl, hstep⟩

theorem lexTemplate_steps {l : Lexer source} (hl : Sound l) (hraw : l.rawDepth = 0)
    (outside : l.jsxStack.head? = some .text → l.cursor.rest = []) : Steps l l.lexTemplate := by
  have hcalm (h : l.pendingTemplateExprStart = false) : l.modes.Calm := ⟨hraw, h, hl.braces⟩
  rw [lexTemplate]
  split
  · next htop =>
    rcases hframes : l.templateStack with - | ⟨frame, below⟩
    · rw [hframes] at htop
      cases htop
    · rw [hframes] at htop
      cases htop
      refine readTemplateText_steps (hcalm ?_) outside hframes
      rw [← Bool.not_eq_true]
      intro h
      apply (hl.pending h).2.2.1
      rw [hframes]
      rfl
  · split
    · next h => exact templateExprStart_steps hl h
    · next h => exact lexCode_steps (hcalm (by rw [← Bool.not_eq_true]; exact h)) outside

theorem nextTokenInner_steps {l : Lexer source} (hl : Sound l) : Steps l l.nextTokenInner := by
  rw [nextTokenInner]
  split
  · next depth hraw => exact readRawJsBody_steps hl hraw
  · next below ch hraw hjsx hcurrent =>
    obtain ⟨rest, hrest⟩ := rest_of_current hcurrent
    refine jsxChild_steps ⟨hraw, ?_, hl.braces⟩ hrest
    rw [← Bool.not_eq_true]
    intro h
    apply (hl.pending h).2.1
    rw [hjsx]
    rfl
  · next hraw houtside =>
    refine lexTemplate_steps hl hraw fun htop => ?_
    rcases hrest : l.cursor.rest with - | ⟨ch, rest⟩
    · rfl
    · rcases hjsx : l.jsxStack with - | ⟨frame, below⟩
      · rw [hjsx] at htop
        cases htop
      · rw [hjsx] at htop
        cases htop
        exact absurd (by show l.cursor.rest[0]? = _; rw [hrest]; rfl) (houtside below ch hjsx)

/-- Every call of `next_token` gives a token of the source and makes progress. -/
theorem nextToken_steps {l : Lexer source} (hl : Sound l) : Steps l l.nextToken := by
  obtain ⟨t, l', hinner, hstep⟩ := nextTokenInner_steps hl
  rw [nextToken, hinner]
  refine ⟨t, _, rfl, ?_⟩
  rw [noted]
  split
  · exact hstep
  · exact ⟨hstep.takes, ⟨hstep.sound.raw, hstep.sound.pending, hstep.sound.braces⟩,
      hstep.smaller, hstep.ended⟩

end Code

end Lexer

variable [Unicode]

/-- From every sound state the tokens reach the end and tile what is left of the source. -/
theorem Lexes.total (n : Nat) (l : Lexer source) (hn : rank l < n) (hl : Sound l) :
    ∃ tokens l', Lexes l tokens l' ∧ Tiled l.cursor.passed.reverse tokens l.cursor.rest := by
  induction n generalizing l with
  | zero => exact absurd hn (Nat.not_lt_zero _)
  | succ n ih =>
    obtain ⟨t, m, hnext, hstep⟩ := Lexer.nextToken_steps hl
    by_cases heof : t.kind = .eof
    · refine ⟨[t], m, Lexes.eof hnext heof, hstep.takes.tiled ?_⟩
      rw [hstep.ended heof]
      exact Tiled.done nofun
    · have hrank := hstep.smaller heof
      obtain ⟨tokens, l', hlexes, htiled⟩ := ih m (by omega) hstep.sound
      exact ⟨t :: tokens, l', Lexes.step hnext heof hlexes, hstep.takes.tiled htiled⟩

omit [Unicode] in
theorem Lexer.new_sound (source : List Char) : Sound (Lexer.new source) :=
  ⟨nofun, nofun, nofun⟩

end Deka.Syntax
