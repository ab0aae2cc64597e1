/-
Deka/Syntax/Emits.lean

The tokens of a text one after another: what the lexer gives next in code, in a tag, in the
children of an element and in a template literal.

A state without anything announced is `Reading` some stacks.  Each lemma `next_*` reads one token
from such a state and leads to such a state.
-/
import Deka.Syntax.Nest

namespace Deka.Syntax

open Lib

variable {source : List Char}

/-! ### Calm states -/

def InTag (jsx : List JsxFrame) : Prop :=
  jsx.head? = some .openTag ∨ jsx.head? = some .closeTag

/-- A state with the given stacks and nothing announced.  The flag of `unsafe` can be set in a
tag only, where the next token takes it back. -/
structure Reading (l : Lexer source) (jsx : List JsxFrame) (template : List TemplateFrame) :
    Prop where
  raw : l.rawDepth = 0
  pending : l.pendingTemplateExprStart = false
  typeEnd : l.unsafeTypeEnd ≤ l.cursor.pos
  jsx_eq : l.jsxStack = jsx
  template_eq : l.templateStack = template
  expect : l.unsafeExpectBrace = true → InTag jsx
  braces : ∀ depth, JsxFrame.braces depth ∈ jsx → 0 < depth

/-- What is left, apart from blanks. -/
def At (l : Lexer source) (text : List Char) : Prop :=
  ∃ gap, (∀ c ∈ gap, IsBlank c) ∧ l.cursor.rest = gap ++ text

theorem At.of_rest {l : Lexer source} {text : List Char} (h : l.cursor.rest = text) : At l text :=
  ⟨[], nofun, h⟩

theorem At.blank {l : Lexer source} {c : Char} {text : List Char} (h : At l (c :: text))
    (hc : IsBlank c) : At l text := by
  obtain ⟨gap, hgap, hrest⟩ := h
  refine ⟨gap ++ [c], fun d hd => ?_, by rw [hrest, List.append_assoc]; rfl⟩
  rcases List.mem_append.1 hd with hd | hd
  · exact hgap d hd
  · rw [List.mem_singleton.1 hd]
    exact hc

theorem IsBlank.iff (c : Char) : IsBlank c ↔ (c == ' ' || c == '\t' || c == '\r') = true := by
  rw [IsBlank, Bool.or_eq_true, Bool.or_eq_true, beq_iff_eq, beq_iff_eq, beq_iff_eq, or_assoc]

theorem spelling_of_ne {kind : TokenKind} (h : kind ≠ .string) (text : List Char) :
    spelling kind text = text := by
  rw [spelling, if_neg h]

theorem Lexer.numberToken_ne (text : List Char) :
    (numberToken text).1 ≠ .string ∧ (numberToken text).1 ≠ .kwUnsafe := by
  rw [numberToken]
  split <;> simp

theorem punctuation_ne : ∀ entry ∈ punctuation, entry.2 ≠ .string ∧ entry.2 ≠ .kwUnsafe := by
  decide

/-- The token of a reader that leaves the stacks alone. -/
def Plain (m : Lexer source) (r : Option (Token × Lexer source)) (kind : TokenKind)
    (text : List Char) (n : Nat) (expect : Bool) : Prop :=
  ∃ t m', r = some (t, m') ∧ t.kind = kind ∧ t.text = text ∧
    m'.cursor = (m.cursor.skip n).1 ∧ m'.modes = { m.modes with expect }

/-- A token with a given text leaves the stacks alone. -/
theorem plain_punct {m : Lexer source} {kind : TokenKind} (symbol : String) {rest : List Char}
    (hrest : m.cursor.rest = symbol.toList ++ rest) :
    Plain m (some (m.punct kind symbol)) kind (m.cursor.rest.take symbol.toList.length)
      symbol.toList.length m.unsafeExpectBrace := by
  refine ⟨_, _, rfl, rfl, ?_, rfl, rfl⟩
  rw [hrest, List.take_left']
  rfl

theorem plain_comment {m : Lexer source} {rest : List Char} (hrest : m.cursor.rest = '/' :: rest)
    (n : Nat) :
    Plain m (Lexer.commentFrom (m.advance 1) ((m.advance 1).advance n)) .comment
      (m.cursor.rest.take (1 + n)) (1 + n) m.unsafeExpectBrace := by
  rw [Lexer.commentFrom_spec m hrest]
  exact ⟨_, _, rfl, rfl, rfl, rfl, rfl⟩

theorem current_advance {m : Lexer source} {c : Char} {rest : List Char}
    (hrest : m.cursor.rest = c :: rest) : (m.advance 1).current = rest[0]? := by
  show (m.cursor.skip 1).1.rest[0]? = _
  rw [m.cursor.skip_rest, hrest]
  rfl

/-- Outside tags a `>` closes nothing. -/
theorem closeJsxTag_braces_eq {stack : List JsxFrame}
    (h : ∀ frame ∈ stack.head?, ∃ depth, frame = .braces depth) :
    Lexer.closeJsxTag stack = stack := by
  rcases stack with - | ⟨frame, below⟩
  · rfl
  · obtain ⟨depth, rfl⟩ := h frame rfl
    rfl

theorem cons_of_getElem? {chars : List Char} {c : Char} (h : chars[0]? = some c) :
    ∃ rest, chars = c :: rest := by
  rcases chars with - | ⟨d, rest⟩
  · cases h
  · cases h
    exact ⟨rest, rfl⟩

/-- A `/` that is no part of a self-closing tag. -/
theorem slash_plain {m : Lexer source} {after : List Char} {kind : TokenKind} {n : Nat}
    (hrest : m.cursor.rest = '/' :: after)
    (h : operatorAt m.prevSignificant ('/' :: after) = some (kind, n))
    (hopen : m.jsxStack.head? ≠ some .openTag) :
    Plain m m.slash kind (m.cursor.rest.take n) n m.unsafeExpectBrace := by
  have hnext := current_advance hrest
  have hdrop (c : Char) (tail : List Char) (hafter : after = c :: tail) :
      (m.advance 1).cursor.rest.drop 1 = tail := by
    show (m.cursor.skip 1).1.rest.drop 1 = _
    rw [m.cursor.skip_rest, hrest, hafter]
    rfl
  rw [Lexer.slash, hnext]
  split
  · next hc =>
    obtain ⟨tail, rfl⟩ := cons_of_getElem? hc
    cases h
    rw [Lexer.readLineComment, hdrop '/' tail rfl, show 2 + lineLen tail = 1 + (1 + lineLen tail) by omega]
    exact plain_comment hrest _
  · next hc =>
    obtain ⟨tail, rfl⟩ := cons_of_getElem? hc
    cases h
    obtain ⟨t, m', hread, hkind, htext, hcursor, hmodes⟩ :=
      plain_comment hrest (1 + (blockLen tail).1)
    rw [show 2 + (blockLen tail).1 = 1 + (1 + (blockLen tail).1) by omega]
    rw [Lexer.readBlockComment, hdrop '*' tail rfl]
    simp only [hread, Option.map_some]
    refine ⟨_, _, rfl, hkind, htext, ?_, ?_⟩
    · split <;> exact hcursor
    · split <;> exact hmodes
  · next hc =>
    obtain ⟨tail, rfl⟩ := cons_of_getElem? hc
    cases h
    exact plain_punct "/=" hrest
  · next hjsx =>
    rw [hjsx] at hopen
    exact absurd rfl hopen
  · next hline hblock heq _ =>
    have hslash : operatorAt m.prevSignificant ('/' :: after) = some (.slash, 1) := by
      rw [operatorAt]
      · exact fun _ hc => hline (by rw [hc]; rfl)
      · exact fun _ hc => hblock (by rw [hc]; rfl)
      · exact fun _ hc => heq (by rw [hc]; rfl)
    rw [hslash] at h
    cases h
    exact plain_punct "/" hrest

theorem less_plain {m : Lexer source} {after : List Char} {kind : TokenKind} {n : Nat}
    (hrest : m.cursor.rest = '<' :: after)
    (h : operatorAt m.prevSignificant ('<' :: after) = some (kind, n)) :
    Plain m m.less kind (m.cursor.rest.take n) n m.unsafeExpectBrace := by
  have hnext := current_advance hrest
  rw [Lexer.less, hnext]
  split
  · next hc =>
    obtain ⟨tail, rfl⟩ := cons_of_getElem? hc
    cases h
    exact plain_punct "<=" hrest
  · next hc =>
    obtain ⟨tail, rfl⟩ := cons_of_getElem? hc
    cases h
    exact plain_punct "<<" hrest
  · next hle hshl =>
    have hcompare : (after[0]? = some '/' ∨ endsExpression m.prevSignificant = true) ∧
        kind = .lt ∧ n = 1 := by
      by_cases hc : after[0]? = some '/'
      · obtain ⟨tail, rfl⟩ := cons_of_getElem? hc
        cases h
        exact ⟨Or.inl rfl, rfl, rfl⟩
      · have hless : operatorAt m.prevSignificant ('<' :: after) =
            if endsExpression m.prevSignificant then some (.lt, 1) else none := by
          rw [operatorAt]
          · exact fun _ hd => hle (by rw [hd]; rfl)
          · exact fun _ hd => hshl (by rw [hd]; rfl)
          · exact fun _ hd => hc (by rw [hd]; rfl)
        rw [hless] at h
        split at h
        · next hends =>
          cases h
          exact ⟨Or.inr hends, rfl, rfl⟩
        · cases h
    obtain ⟨hprev, rfl, rfl⟩ := hcompare
    simp only []
    rw [if_neg]
    · exact plain_punct "<" hrest
    · rintro ⟨hslash, -, hends⟩
      rcases hprev with hprev | hprev
      · exact hslash hprev
      · rw [Lexer.prevEndsExpression, hprev] at hends
        cases hends

theorem greater_plain {m : Lexer source} {after : List Char} {kind : TokenKind} {n : Nat}
    (hrest : m.cursor.rest = '>' :: after)
    (h : operatorAt m.prevSignificant ('>' :: after) = some (kind, n))
    (hopen : ∀ frame ∈ m.jsxStack.head?, ∃ depth, frame = .braces depth) :
    Plain m m.greater kind (m.cursor.rest.take n) n m.unsafeExpectBrace := by
  have hnext := current_advance hrest
  rw [Lexer.greater, hnext]
  split
  · next hc =>
    obtain ⟨tail, rfl⟩ := cons_of_getElem? hc
    cases h
    exact plain_punct ">=" hrest
  · next hc =>
    obtain ⟨tail, rfl⟩ := cons_of_getElem? hc
    cases h
    exact plain_punct ">>" hrest
  · next hge hshr =>
    have hgreater : operatorAt m.prevSignificant ('>' :: after) = some (.gt, 1) := by
      rw [operatorAt]
      · exact fun _ hc => hge (by rw [hc]; rfl)
      · exact fun _ hc => hshr (by rw [hc]; rfl)
    rw [hgreater] at h
    cases h
    simp only [closeJsxTag_braces_eq hopen]
    exact plain_punct ">" hrest

variable [Unicode]

/-! ### Tokens one after another -/

/-- The next tokens have these kinds and texts. -/
def Emits : Lexer source → List (TokenKind × List Char) → Lexer source → Prop
  | l, [], l' => l = l'
  | l, (kind, text) :: more, l' =>
    ∃ t m, l.nextToken = some (t, m) ∧ t.kind = kind ∧ t.text = text ∧ Emits m more l'

/-- One of the next tokens has another kind than the list, after the tokens before it. -/
def Diverges : Lexer source → List (TokenKind × List Char) → Prop
  | _, [] => False
  | l, (kind, text) :: more =>
    ∃ t m, l.nextToken = some (t, m) ∧
      (t.kind ≠ kind ∨ t.kind = kind ∧ t.text = text ∧ Diverges m more)

theorem Emits.append {l m n : Lexer source} {a b : List (TokenKind × List Char)}
    (ha : Emits l a m) (hb : Emits m b n) : Emits l (a ++ b) n := by
  induction a generalizing l with
  | nil =>
    cases ha
    exact hb
  | cons entry a ih =>
    obtain ⟨t, k, hnext, hkind, htext, hmore⟩ := ha
    exact ⟨t, k, hnext, hkind, htext, ih hmore⟩

theorem Diverges.append_right {l : Lexer source} {a : List (TokenKind × List Char)}
    (ha : Diverges l a) (b : List (TokenKind × List Char)) : Diverges l (a ++ b) := by
  induction a generalizing l with
  | nil => exact ha.elim
  | cons entry a ih =>
    obtain ⟨t, k, hnext, hkind | ⟨hkind, htext, hmore⟩⟩ := ha
    · exact ⟨t, k, hnext, Or.inl hkind⟩
    · exact ⟨t, k, hnext, Or.inr ⟨hkind, htext, ih hmore⟩⟩

theorem Emits.diverges {l m : Lexer source} {a b : List (TokenKind × List Char)}
    (ha : Emits l a m) (hb : Diverges m b) : Diverges l (a ++ b) := by
  induction a generalizing l with
  | nil =>
    cases ha
    exact hb
  | cons entry a ih =>
    obtain ⟨t, k, hnext, hkind, htext, hmore⟩ := ha
    exact ⟨t, k, hnext, Or.inr ⟨hkind, htext, ih hmore⟩⟩

theorem Diverges.not_emits {l : Lexer source} {a : List (TokenKind × List Char)}
    (h : Diverges l a) (l' : Lexer source) : ¬ Emits l a l' := by
  induction a generalizing l with
  | nil => exact h.elim
  | cons entry a ih =>
    rintro ⟨t, k, hnext, hkind, htext, hmore⟩
    obtain ⟨t', k', hnext', hother⟩ := h
    rw [hnext] at hnext'
    cases hnext'
    rcases hother with hother | ⟨-, -, hrest⟩
    · exact hother hkind
    · exact ih hrest hmore

/-- Under the condition, and only under it, the tokens come out. -/
def Outcome (clean : Prop) (l : Lexer source) (out : List (TokenKind × List Char))
    (finish : Lexer source → Prop) : Prop :=
  (clean → ∃ l', Emits l out l' ∧ finish l') ∧ (¬ clean → Diverges l out)

theorem Outcome.append {A B : Prop} {l : Lexer source} {a b : List (TokenKind × List Char)}
    {F G : Lexer source → Prop} (ha : Outcome A l a F) (hb : ∀ m, F m → Outcome B m b G) :
    Outcome (A ∧ B) l (a ++ b) G := by
  refine ⟨fun ⟨hA, hB⟩ => ?_, fun hAB => ?_⟩
  · obtain ⟨m, hemits, hfinish⟩ := ha.1 hA
    obtain ⟨l', hmore, hend⟩ := (hb m hfinish).1 hB
    exact ⟨l', hemits.append hmore, hend⟩
  · by_cases hA : A
    · obtain ⟨m, hemits, hfinish⟩ := ha.1 hA
      exact hemits.diverges ((hb m hfinish).2 fun hB => hAB ⟨hA, hB⟩)
    · exact (ha.2 hA).append_right b

/-- A step that is taken in any case. -/
theorem Outcome.after {A : Prop} {l m : Lexer source} {a b : List (TokenKind × List Char)}
    {F : Lexer source → Prop} (ha : Emits l a m) (hb : Outcome A m b F) :
    Outcome A l (a ++ b) F := by
  refine ⟨fun hA => ?_, fun hA => ha.diverges (hb.2 hA)⟩
  obtain ⟨l', hmore, hend⟩ := hb.1 hA
  exact ⟨l', ha.append hmore, hend⟩

theorem Outcome.imp {A B : Prop} {l : Lexer source} {out : List (TokenKind × List Char)}
    {F G : Lexer source → Prop} (h : Outcome A l out F) (hAB : A ↔ B) (hFG : ∀ m, F m → G m) :
    Outcome B l out G := by
  rw [← hAB]
  exact ⟨fun hA => (h.1 hA).imp fun m hm => ⟨hm.1, hFG m hm.2⟩, h.2⟩

/-- The next token and the state after it. -/
def Next (l : Lexer source) (kind : TokenKind) (text : List Char) (jsx : List JsxFrame)
    (template : List TemplateFrame) (rest : List Char) (prev : Option TokenKind) : Prop :=
  ∃ l', Emits l [(kind, text)] l' ∧ Reading l' jsx template ∧ l'.cursor.rest = rest ∧
    l'.prevSignificant = prev

/-! ### One token -/

/-- Blanks are skipped before a token of code. -/
theorem nextToken_code {l : Lexer source} {jsx : List JsxFrame} {template : List TemplateFrame}
    (hl : Reading l jsx template) (hjsx : jsx.head? ≠ some .text)
    (htemplate : template.head? ≠ some .text) {ch : Char} {rest : List Char}
    (hat : At l (ch :: rest)) (hch : ¬ IsBlank ch) :
    ∃ m : Lexer source, m.cursor.rest = ch :: rest ∧ Reading m jsx template ∧
      m.unsafeExpectBrace = false ∧ m.prevSignificant = l.prevSignificant ∧
      ∀ t m', m.lexChar = some (t, m') → l.nextToken = some (t, m'.noted t.kind) := by
  obtain ⟨gap, hgap, hrest⟩ := hat
  have htake : l.cursor.rest.takeWhile (fun c => c == ' ' || c == '\t' || c == '\r') = gap := by
    have hstop := @List.takeWhile_cons_of_neg _ (fun c => c == ' ' || c == '\t' || c == '\r') ch
      rest fun h => hch ((IsBlank.iff ch).2 h)
    rw [hrest, List.takeWhile_append_of_pos fun c hc => (IsBlank.iff c).1 (hgap c hc),
      hstop, List.append_nil]
  have hskip : l.skipWhitespace = l.advance gap.length := by rw [Lexer.skipWhitespace, htake]
  have hrest' : (l.advance gap.length).cursor.rest = ch :: rest := by
    show (l.cursor.skip gap.length).1.rest = _
    rw [l.cursor.skip_rest, hrest, List.drop_left']
    rfl
  have hpos : l.unsafeTypeEnd ≤ (l.advance gap.length).cursor.pos := by
    show _ ≤ (l.cursor.skip gap.length).1.pos
    rw [Cursor.pos_later]
    exact Nat.le_add_right_of_le hl.typeEnd
  have hinner : l.nextTokenInner = l.lexCode := by
    have htop : ¬ l.templateStack.head? = some .text := by
      rw [hl.template_eq]
      exact htemplate
    have hpending : ¬ l.pendingTemplateExprStart = true := by
      rw [hl.pending]
      exact Bool.false_ne_true
    rw [Lexer.nextTokenInner, hl.raw, hl.jsx_eq]
    split
    · next h => cases h
    · exact absurd rfl hjsx
    · rw [Lexer.lexTemplate, if_neg htop, if_neg hpending]
  have hcancel : (l.advance gap.length).cancelUnsafe =
      { l.advance gap.length with unsafeExpectBrace := false } := by
    rcases hflag : l.unsafeExpectBrace with - | -
    · have hsame : { l.advance gap.length with unsafeExpectBrace := false } =
          l.advance gap.length := by
        rw [← hflag]
        rfl
      rcases Lexer.cancelUnsafe_eq (l.advance gap.length) with h | h
      · rw [h, hsame]
      · exact h
    · have htag := hl.expect hflag
      rw [← hl.jsx_eq] at htag
      rw [Lexer.cancelUnsafe]
      split
      · exact if_pos hpos
      · exact if_pos hpos
      · exact if_pos hpos
      · next hopen _ hclose =>
        rcases hstack : l.jsxStack with - | ⟨frame, below⟩
        · rw [hstack] at htag
          rcases htag with h | h <;> cases h
        · rw [hstack] at htag
          rcases htag with h | h <;> cases h
          · exact (hopen below hstack).elim
          · exact (hclose below hstack).elim
  refine ⟨{ l.advance gap.length with unsafeExpectBrace := false }, hrest',
    ⟨hl.raw, hl.pending, hpos, hl.jsx_eq, hl.template_eq,
      fun h => absurd h Bool.false_ne_true, hl.braces⟩, rfl, rfl, ?_⟩
  intro t m' hchar
  rw [Lexer.nextToken, hinner, Lexer.lexCode, hskip, hcancel]
  simp only [Bool.false_eq_true, false_and, if_false, hchar, Option.map_some]

/-- A token of code is read as the text says. -/
theorem lexChar_ordinary {m : Lexer source} {text : List Char} {kind : TokenKind} {n : Nat}
    (hrest : m.cursor.rest = text) (h : ordinary text = some (kind, n)) :
    Plain m m.lexChar kind (spelling kind (text.take n)) n
      (m.unsafeExpectBrace || kind == .kwUnsafe) := by
  have hsame {kind : TokenKind} (hkind : kind ≠ .kwUnsafe) :
      m.modes = { m.modes with expect := m.unsafeExpectBrace || kind == .kwUnsafe } := by
    rw [beq_eq_false_iff_ne.2 hkind, Bool.or_false]
    rfl
  rcases text with - | ⟨c, rest⟩
  · cases h
  have hcurrent : m.current = some c := by
    show m.cursor.rest[0]? = _
    rw [hrest]
    rfl
  rw [ordinary] at h
  rw [Lexer.lexChar, hcurrent]
  simp only []
  by_cases hnewline : c = '\n'
  · rw [if_pos hnewline] at h ⊢
    cases h
    exact ⟨_, _, rfl, rfl, by rw [hnewline]; rfl, rfl, hsame (by decide)⟩
  rw [if_neg hnewline] at h ⊢
  by_cases hquote : c = '"' ∨ c = '\u0027'
  · rw [if_pos hquote] at h ⊢
    obtain ⟨text, m', hread, hmodes, hcursor, htext⟩ := m.readString_spec hrest hquote
    by_cases hclosed : (stringLen c rest).2 = true
    · rw [if_pos hclosed] at h
      cases h
      refine ⟨_, m', hread, rfl, ?_, hcursor, hmodes.trans (hsame (by decide))⟩
      rcases htext with htext | ⟨hopen, -, -⟩
      · rw [spelling, if_pos rfl, Nat.add_comm, List.take_succ_cons, htext, List.drop_succ_cons,
          List.drop_zero, List.dropLast_concat]
      · rw [hopen] at hclosed
        cases hclosed
    · rw [if_neg hclosed] at h
      cases h
  rw [if_neg hquote] at h ⊢
  by_cases htick : c = '\u0060'
  · rw [if_pos htick] at h
    cases h
  rw [if_neg htick] at h ⊢
  by_cases hdigit : c.isDigit
  · rw [if_pos hdigit] at h ⊢
    obtain ⟨m', hread, hcursor, hmodes⟩ := m.readNumber_spec
    rw [hrest] at hread hcursor
    have hkind := Lexer.numberToken_ne (c :: rest)
    rw [Option.some.inj h] at hread hcursor hkind
    exact ⟨_, m', hread, rfl, (spelling_of_ne hkind.1 _).symm, hcursor,
      hmodes.trans (hsame hkind.2)⟩
  rw [if_neg hdigit] at h ⊢
  by_cases hword : c.isAlpha ∨ c = '_' ∨ Unicode.isAlphabetic c
  · rw [if_pos hword] at h ⊢
    cases h
    have hword := (List.prefix_iff_eq_take.1
      (List.takeWhile_prefix (l := c :: rest) Lexer.isWordChar)).symm
    rw [Lexer.readIdentifier]
    simp only [Lexer.tokenFrom_advance, Option.map_some, hrest, hword]
    exact ⟨_, _, rfl, rfl, (spelling_of_ne (Lexer.keyword_ne _).1 _).symm, rfl, rfl⟩
  rw [if_neg hword] at h ⊢
  by_cases hlist : c ∈ ['{', '}', '/', '<', '>']
  · rw [if_pos hlist] at h
    cases h
  rw [if_neg hlist] at h
  simp only [List.mem_cons, List.not_mem_nil, or_false, not_or] at hlist
  obtain ⟨hopen, hclose, hslash, hless, hgreater⟩ := hlist
  rw [if_neg hopen, if_neg hclose, if_neg hslash, if_neg hless, if_neg hgreater, hrest]
  rcases hfind : punctuation.find? fun entry => entry.1.toList.isPrefixOf (c :: rest) with
    - | ⟨symbol, symbolKind⟩
  · rw [hfind] at h
    cases h
  · rw [hfind] at h ⊢
    obtain ⟨rfl, rfl⟩ := Prod.mk.inj (Option.some.inj h)
    obtain ⟨hstring, hmark⟩ := punctuation_ne _ (List.mem_of_find?_eq_some hfind)
    have hstart : symbol.toList.isPrefixOf (c :: rest) := by simpa using List.find?_some hfind
    refine ⟨(m.punct symbolKind symbol).1, (m.punct symbolKind symbol).2, rfl, rfl, ?_, rfl, hsame hmark⟩
    rw [spelling_of_ne hstring]
    exact List.prefix_iff_eq_take.1 (List.isPrefixOf_iff_prefix.1 hstart)

/-- Structural characters have readers of their own. -/
theorem lexChar_symbol {m : Lexer source} {c : Char} {rest : List Char}
    (hrest : m.cursor.rest = c :: rest) (hc : c ∈ ['{', '}', '/', '<', '>']) :
    m.lexChar =
      if c = '{' then m.openBrace
      else if c = '}' then m.closeBrace
      else if c = '/' then m.slash
      else if c = '<' then m.less
      else m.greater := by
  have hcurrent : m.current = some c := by
    show m.cursor.rest[0]? = _
    rw [hrest]
    rfl
  obtain ⟨hascii, hnewline, hquote, htick, hdigit, halpha, hunder⟩ :
      c.toNat < 128 ∧ c ≠ '\n' ∧ ¬ (c = '"' ∨ c = '\u0027') ∧ c ≠ '\u0060' ∧
        c.isDigit = false ∧ c.isAlpha = false ∧ c ≠ '_' := by
    have hsymbol := hc
    simp only [List.mem_cons, List.not_mem_nil, or_false] at hsymbol
    rcases hsymbol with rfl | rfl | rfl | rfl | rfl <;> decide
  have halphabetic : Unicode.isAlphabetic c = false :=
    (Unicode.isAlphabetic_ascii c hascii).trans halpha
  rw [Lexer.lexChar, hcurrent]
  simp only [if_neg hnewline, if_neg hquote, if_neg htick, hdigit, halpha, halphabetic,
    eq_false hunder, Bool.false_eq_true, or_self, if_false]
  by_cases hopen : c = '{'
  · rw [if_pos hopen, if_pos hopen]
  by_cases hclose : c = '}'
  · rw [if_neg hopen, if_neg hopen, if_pos hclose, if_pos hclose]
  by_cases hslash : c = '/'
  · simp only [if_neg hopen, if_neg hclose, if_pos hslash]
  by_cases hless : c = '<'
  · simp only [if_neg hopen, if_neg hclose, if_neg hslash, if_pos hless]
  have hgreater : c = '>' := by simpa [hopen, hclose, hslash, hless] using hc
  simp only [if_neg hopen, if_neg hclose, if_neg hslash, if_neg hless, if_pos hgreater]

/-- A comment or operator is read as the text says. -/
theorem lexChar_operator {m : Lexer source} {text : List Char} {kind : TokenKind} {n : Nat}
    (hrest : m.cursor.rest = text) (h : operatorAt m.prevSignificant text = some (kind, n))
    (hopen : ∀ frame ∈ m.jsxStack.head?, ∃ depth, frame = .braces depth) :
    Plain m m.lexChar kind (text.take n) n m.unsafeExpectBrace := by
  have htag : m.jsxStack.head? ≠ some .openTag := by
    intro htop
    obtain ⟨depth, hframe⟩ := hopen _ htop
    cases hframe
  rw [← hrest]
  rcases text with - | ⟨c, rest⟩
  · cases h
  by_cases hslash : c = '/'
  · rw [hslash] at hrest h
    rw [lexChar_symbol hrest (by decide)]
    exact slash_plain hrest h htag
  by_cases hless : c = '<'
  · rw [hless] at hrest h
    rw [lexChar_symbol hrest (by decide)]
    exact less_plain hrest h
  by_cases hgreater : c = '>'
  · rw [hgreater] at hrest h
    rw [lexChar_symbol hrest (by decide)]
    exact greater_plain hrest h hopen
  have hnone : operatorAt m.prevSignificant (c :: rest) = none := by
    rw [operatorAt]
    all_goals
      intros
      simp_all
  rw [hnone] at h
  cases h

/-! ### The next token of a composition -/

omit [Unicode] in
/-- A state further on. -/
theorem Reading.moved {m m' : Lexer source} {jsx jsx' : List JsxFrame}
    {template template' : List TemplateFrame} (hm : Reading m jsx template) {n : Nat}
    (hcursor : m'.cursor = (m.cursor.skip n).1)
    (hmodes : m'.modes =
      { m.modes with jsxStack := jsx', templateStack := template', expect := m'.unsafeExpectBrace })
    (hexpect : m'.unsafeExpectBrace = true → InTag jsx')
    (hbraces : ∀ depth, JsxFrame.braces depth ∈ jsx' → 0 < depth) :
    Reading m' jsx' template' where
  raw := (congrArg Modes.raw hmodes).trans hm.raw
  pending := (congrArg Modes.pending hmodes).trans hm.pending
  typeEnd := by
    rw [show m'.unsafeTypeEnd = m.unsafeTypeEnd from congrArg Modes.typeEnd hmodes, hcursor,
      Cursor.pos_later]
    exact Nat.le_add_right_of_le hm.typeEnd
  jsx_eq := congrArg Modes.jsxStack hmodes
  template_eq := congrArg Modes.templateStack hmodes
  expect := hexpect
  braces := hbraces

/-- A token of code, read by `lex_char` from a state without blanks. -/
theorem next_code {l : Lexer source} {jsx jsx' : List JsxFrame}
    {template template' : List TemplateFrame} (hl : Reading l jsx template)
    (hjsx : jsx.head? ≠ some .text) (htemplate : template.head? ≠ some .text) {ch : Char}
    {rest after text : List Char} {kind : TokenKind} (hat : At l (ch :: rest))
    (hch : ¬ IsBlank ch)
    (hchar : ∀ m : Lexer source, m.cursor.rest = ch :: rest → Reading m jsx template →
      m.unsafeExpectBrace = false → m.prevSignificant = l.prevSignificant →
      ∃ t m', m.lexChar = some (t, m') ∧ t.kind = kind ∧ t.text = text ∧
        Reading m' jsx' template' ∧ m'.cursor.rest = after ∧
        m'.prevSignificant = m.prevSignificant) :
    Next l kind text jsx' template' after (significant l.prevSignificant kind) := by
  obtain ⟨m, hrest, hreading, hexpect, hprev, hnext⟩ := nextToken_code hl hjsx htemplate hat hch
  obtain ⟨t, m', hlex, rfl, htext, hreading', hafter, hprev'⟩ :=
    hchar m hrest hreading hexpect hprev
  refine ⟨m'.noted t.kind, ⟨t, _, hnext t m' hlex, rfl, htext, rfl⟩, ?_, ?_, ?_⟩
  · rw [Lexer.noted]
    split
    · exact hreading'
    · exact ⟨hreading'.raw, hreading'.pending, hreading'.typeEnd, hreading'.jsx_eq,
        hreading'.template_eq, hreading'.expect, hreading'.braces⟩
  · rw [Lexer.noted]
    split <;> exact hafter
  · rw [Lexer.noted, significant]
    split
    · rw [hprev', hprev]
    · rfl

omit [Unicode] in
/-- A plain token goes on with the same stacks. -/
theorem Plain.reading {m : Lexer source} {r : Option (Token × Lexer source)} {kind : TokenKind}
    {text : List Char} {n : Nat} {expect : Bool} {jsx : List JsxFrame}
    {template : List TemplateFrame} (h : Plain m r kind text n expect)
    (hm : Reading m jsx template) (hexpect : expect = true → InTag jsx) :
    ∃ t m', r = some (t, m') ∧ t.kind = kind ∧ t.text = text ∧ Reading m' jsx template ∧
      m'.cursor.rest = m.cursor.rest.drop n ∧ m'.prevSignificant = m.prevSignificant := by
  obtain ⟨t, m', hr, hkind, htext, hcursor, hmodes⟩ := h
  have hflag : m'.unsafeExpectBrace = expect := congrArg Modes.expect hmodes
  refine ⟨t, m', hr, hkind, htext, hm.moved hcursor ?_ (by rw [hflag]; exact hexpect) hm.braces,
    by rw [hcursor, m.cursor.skip_rest], congrArg Modes.prev hmodes⟩
  rw [hmodes, hflag, ← hm.jsx_eq, ← hm.template_eq]
  rfl

theorem ordinary_not_blank {c : Char} {rest : List Char} {result : TokenKind × Nat}
    (h : ordinary (c :: rest) = some result) : ¬ IsBlank c := by
  intro hblank
  obtain ⟨hascii, hnewline, hquote, htick, hdigit, halpha, hunder, hfind⟩ :
      c.toNat < 128 ∧ c ≠ '\n' ∧ ¬ (c = '"' ∨ c = '\u0027') ∧ c ≠ '\u0060' ∧
        c.isDigit = false ∧ c.isAlpha = false ∧ c ≠ '_' ∧
        ∀ entry ∈ punctuation, entry.1.toList.head? ≠ some c ∧ entry.1.toList ≠ [] := by
    rcases hblank with rfl | rfl | rfl <;> decide
  have halphabetic : Unicode.isAlphabetic c = false :=
    (Unicode.isAlphabetic_ascii c hascii).trans halpha
  rw [ordinary] at h
  simp only [if_neg hnewline, if_neg hquote, if_neg htick, hdigit, halpha, halphabetic,
    eq_false hunder, Bool.false_eq_true, or_self, if_false] at h
  split at h
  · cases h
  · obtain ⟨entry, hentry, -⟩ := Option.map_eq_some_iff.1 h
    obtain ⟨hhead, hne⟩ := hfind entry (List.mem_of_find?_eq_some hentry)
    have hstart : entry.1.toList.isPrefixOf (c :: rest) := by simpa using List.find?_some hentry
    rcases hsymbol : entry.1.toList with - | ⟨d, symbol⟩
    · exact hne hsymbol
    · rw [hsymbol, List.isPrefixOf_cons_cons, Bool.and_eq_true, beq_iff_eq] at hstart
      rw [hsymbol, hstart.1] at hhead
      exact hhead rfl

theorem next_leaf {l : Lexer source} {jsx : List JsxFrame} {template : List TemplateFrame}
    (hl : Reading l jsx template) (hjsx : jsx.head? ≠ some .text)
    (htemplate : template.head? ≠ some .text) {chars after : List Char} {kind : TokenKind}
    (hat : At l (chars ++ after)) (hleaf : ordinary (chars ++ after) = some (kind, chars.length))
    (hmark : InTag jsx ∨ kind ≠ .kwUnsafe) :
    Next l kind (spelling kind chars) jsx template after (significant l.prevSignificant kind) := by
  rcases htext : chars ++ after with - | ⟨c, rest⟩
  · rw [htext] at hleaf
    cases hleaf
  rw [htext] at hat hleaf
  refine next_code hl hjsx htemplate hat (ordinary_not_blank hleaf)
    fun m hrest hm hexpect _ => ?_
  have hplain := lexChar_ordinary hrest hleaf
  rw [← htext, List.take_left' rfl, hexpect, Bool.false_or] at hplain
  have hflag (h : (kind == .kwUnsafe) = true) : InTag jsx :=
    hmark.resolve_right fun hne => hne (beq_iff_eq.1 h)
  obtain ⟨t, m', hlex, hkind, htext', hm', hrest', hprev⟩ := hplain.reading hm hflag
  refine ⟨t, m', hlex, hkind, htext', hm', ?_, hprev⟩
  rw [hrest', hrest, ← htext, List.drop_left' rfl]

theorem next_operator {l : Lexer source} {jsx : List JsxFrame} {template : List TemplateFrame}
    (hl : Reading l jsx template) (hjsx : ∀ frame ∈ jsx.head?, ∃ depth, frame = .braces depth)
    (htemplate : template.head? ≠ some .text) {chars after : List Char} {kind : TokenKind}
    (hat : At l (chars ++ after))
    (hop : operatorAt l.prevSignificant (chars ++ after) = some (kind, chars.length)) :
    Next l kind chars jsx template after (significant l.prevSignificant kind) := by
  have htext : jsx.head? ≠ some .text := by
    intro htop
    obtain ⟨depth, hframe⟩ := hjsx _ htop
    cases hframe
  rcases hchars : chars ++ after with - | ⟨c, rest⟩
  · rw [hchars] at hop
    cases hop
  rw [hchars] at hat hop
  have hblank : ¬ IsBlank c := by
    rintro (rfl | rfl | rfl) <;> cases hop
  refine next_code hl htext htemplate hat hblank fun m hrest hm hexpect hprev => ?_
  rw [← hprev] at hop
  have hplain := lexChar_operator hrest hop (by rw [hm.jsx_eq]; exact hjsx)
  rw [← hchars, List.take_left' rfl] at hplain
  obtain ⟨t, m', hlex, hkind, htext', hm', hrest', hprev'⟩ :=
    hplain.reading hm (by rw [hexpect]; nofun)
  refine ⟨t, m', hlex, hkind, htext', hm', ?_, hprev'⟩
  rw [hrest', hrest, ← hchars, List.drop_left' rfl]

omit [Unicode] in
theorem rest_advance {m : Lexer source} {c : Char} {after : List Char}
    (hrest : m.cursor.rest = c :: after) : (m.advance 1).cursor.rest = after := by
  show (m.cursor.skip 1).1.rest = _
  rw [m.cursor.skip_rest, hrest]
  rfl

theorem next_openBrace {l : Lexer source} {jsx : List JsxFrame} {template : List TemplateFrame}
    (hl : Reading l jsx template) (hjsx : jsx.head? ≠ some .text)
    (htemplate : template.head? ≠ some .text) {after : List Char} (hat : At l ('{' :: after)) :
    Next l .lBrace ['{'] (Lexer.openFrames jsx template).1 (Lexer.openFrames jsx template).2 after
      (some .lBrace) := by
  refine next_code hl hjsx htemplate hat (by decide) fun m hrest hm hexpect _ => ?_
  rw [lexChar_symbol hrest (by decide), if_pos rfl, Lexer.openBrace, hm.jsx_eq, hm.template_eq]
  refine ⟨_, _, rfl, rfl, rfl, hm.moved rfl rfl (fun h => ?_)
    (Lexer.openFrames_braces hm.braces template), rest_advance hrest, rfl⟩
  rw [show m.unsafeExpectBrace = true from h] at hexpect
  cases hexpect

theorem next_closeBrace {l : Lexer source} {jsx jsx' : List JsxFrame}
    {template template' : List TemplateFrame} {kind : TokenKind} (hl : Reading l jsx template)
    (hjsx : jsx.head? ≠ some .text) (htemplate : template.head? ≠ some .text)
    {after : List Char} (hat : At l ('}' :: after))
    (hclose : Lexer.closeFrames jsx template = some (kind, jsx', template')) :
    Next l kind ['}'] jsx' template' after (some kind) := by
  obtain ⟨kind', jsx'', template'', hclose', hkind, hbraces, -⟩ :=
    Lexer.closeFrames_spec jsx hl.braces template
  rw [hclose] at hclose'
  cases hclose'
  have hsignificant : significant l.prevSignificant kind = some kind := by
    rcases hkind with rfl | rfl <;> rfl
  rw [← hsignificant]
  refine next_code hl hjsx htemplate hat (by decide) fun m hrest hm hexpect _ => ?_
  rw [lexChar_symbol hrest (by decide), if_neg (by decide), if_pos rfl, Lexer.closeBrace,
    hm.jsx_eq, hm.template_eq, hclose]
  refine ⟨_, _, rfl, rfl, rfl, hm.moved rfl rfl (fun h => ?_) hbraces, rest_advance hrest, rfl⟩
  rw [show m.unsafeExpectBrace = true from h] at hexpect
  cases hexpect

/-- A `<` in prefix position opens a tag. -/
theorem next_less {l : Lexer source} {jsx : List JsxFrame} {template : List TemplateFrame}
    (hl : Reading l jsx template) (hjsx : jsx.head? ≠ some .text)
    (htemplate : template.head? ≠ some .text) {after : List Char} (hat : At l ('<' :: after))
    (hends : endsExpression l.prevSignificant = false) (hopens : Opens after) :
    Next l .lt ['<'] (.openTag :: jsx) template after (some .lt) := by
  refine next_code hl hjsx htemplate hat (by decide) fun m hrest hm hexpect hprev => ?_
  have hnot (c : Char) (hc : c ∈ ['=', '<', '/']) : after[0]? ≠ some c := by
    intro h
    obtain ⟨tail, rfl⟩ := cons_of_getElem? h
    exact hopens c rfl hc
  rw [lexChar_symbol hrest (by decide), if_neg (by decide), if_neg (by decide),
    if_neg (by decide), if_pos rfl, Lexer.less, current_advance hrest]
  split
  · next h => exact absurd h (hnot _ (by decide))
  · next h => exact absurd h (hnot _ (by decide))
  · simp only []
    rw [if_pos ⟨hnot _ (by decide), by rw [hexpect]; rfl,
      by rw [Lexer.prevEndsExpression, hprev, hends]; rfl⟩]
    refine ⟨_, _, rfl, rfl, rfl, hm.moved rfl ?_ (fun _ => Or.inl rfl) (fun depth h => ?_),
      rest_advance hrest, rfl⟩
    · rw [← hm.jsx_eq, ← hm.template_eq]
      rfl
    · rcases List.mem_cons.1 h with h | h
      · cases h
      · exact hm.braces depth h

/-- A `>` closes the tag that is open, if it stays alone. -/
theorem next_greater {l : Lexer source} {jsx : List JsxFrame} {template : List TemplateFrame}
    (hl : Reading l jsx template) (hjsx : jsx.head? ≠ some .text)
    (htemplate : template.head? ≠ some .text) {after : List Char} (hat : At l ('>' :: after))
    (hglued : ¬ Glued after) :
    Next l .gt ['>'] (Lexer.closeJsxTag jsx) template after (some .gt) := by
  refine next_code hl hjsx htemplate hat (by decide) fun m hrest hm hexpect _ => ?_
  rw [lexChar_symbol hrest (by decide), if_neg (by decide), if_neg (by decide),
    if_neg (by decide), if_neg (by decide), Lexer.greater, current_advance hrest]
  split
  · next h => exact absurd (Or.inl (by rw [List.head?_eq_getElem?, h])) hglued
  · next h => exact absurd (Or.inr (by rw [List.head?_eq_getElem?, h])) hglued
  · refine ⟨_, _, rfl, rfl, rfl, hm.moved rfl ?_ (fun h => ?_)
      (Lexer.closeJsxTag_braces hm.braces), rest_advance hrest, rfl⟩
    · rw [← hm.jsx_eq, ← hm.template_eq]
      rfl
    · rw [show m.unsafeExpectBrace = true from h] at hexpect
      cases hexpect

/-- A `>` before `=` or `>` is taken for part of an operator. -/
theorem glued_diverges {l : Lexer source} {jsx : List JsxFrame} {template : List TemplateFrame}
    (hl : Reading l jsx template) (hjsx : jsx.head? ≠ some .text)
    (htemplate : template.head? ≠ some .text) {after : List Char} (hat : At l ('>' :: after))
    (hglued : Glued after) (text : List Char) : Diverges l [(.gt, text)] := by
  obtain ⟨m, hrest, -, -, -, hnext⟩ := nextToken_code hl hjsx htemplate hat (by decide)
  have hlex := lexChar_symbol hrest (by decide)
  rw [if_neg (by decide), if_neg (by decide), if_neg (by decide), if_neg (by decide),
    Lexer.greater, current_advance hrest, ← List.head?_eq_getElem?] at hlex
  rcases hglued with h | h
  · rw [h] at hlex
    exact ⟨_, _, hnext _ _ hlex, Or.inl (by simp)⟩
  · rw [h] at hlex
    exact ⟨_, _, hnext _ _ hlex, Or.inl (by simp)⟩

/-- The slash of a self-closing tag. -/
theorem next_selfClose {l : Lexer source} {jsx : List JsxFrame} {template : List TemplateFrame}
    (hl : Reading l (.openTag :: jsx) template) (htemplate : template.head? ≠ some .text)
    {after : List Char} (hat : At l ('/' :: '>' :: after)) :
    Next l .slash ['/'] (.selfClose :: jsx) template ('>' :: after) (some .slash) := by
  refine next_code hl nofun htemplate hat (by decide)
    fun m hrest hm hexpect _ => ?_
  rw [lexChar_symbol hrest (by decide), if_neg (by decide), if_neg (by decide), if_pos rfl,
    Lexer.slash, current_advance hrest, hm.jsx_eq]
  refine ⟨_, _, rfl, rfl, rfl, hm.moved rfl ?_ (fun h => ?_) (fun depth h => ?_),
    rest_advance hrest, rfl⟩
  · rw [← hm.template_eq]
    rfl
  · rw [show m.unsafeExpectBrace = true from h] at hexpect
    cases hexpect
  · rcases List.mem_cons.1 h with h | h
    · cases h
    · exact hm.braces depth (List.mem_cons_of_mem _ h)

/-- The slash of a closing tag. -/
theorem next_closeSlash {l : Lexer source} {jsx : List JsxFrame} {template : List TemplateFrame}
    (hl : Reading l (.closeTag :: jsx) template) (htemplate : template.head? ≠ some .text)
    {after : List Char} (hat : At l ('/' :: after)) (hcloses : Closes after) :
    Next l .slash ['/'] (.closeTag :: jsx) template after (some .slash) := by
  have hslash : operatorAt l.prevSignificant ('/' :: after) = some (.slash, 1) := by
    rw [operatorAt]
    · exact fun _ h => hcloses '/' (by rw [h]; rfl) (by decide)
    · exact fun _ h => hcloses '*' (by rw [h]; rfl) (by decide)
    · exact fun _ h => hcloses '=' (by rw [h]; rfl) (by decide)
  refine next_code hl nofun htemplate hat (by decide)
    fun m hrest hm hexpect hprev => ?_
  rw [← hprev] at hslash
  have hplain := slash_plain hrest hslash (by rw [hm.jsx_eq]; nofun)
  rw [hrest] at hplain
  rw [lexChar_symbol hrest (by decide), if_neg (by decide), if_neg (by decide), if_pos rfl]
  obtain ⟨t, m', hlex, hkind, htext, hm', hrest', hprev'⟩ :=
    hplain.reading hm (by rw [hexpect]; nofun)
  exact ⟨t, m', hlex, hkind, htext, hm', by rw [hrest', hrest]; rfl, hprev'⟩

/-! ### The next token of JSX children -/

/-- In the children of an element the next character decides. -/
theorem nextToken_children {l : Lexer source} {jsx : List JsxFrame}
    {template : List TemplateFrame} (hl : Reading l (.text :: jsx) template) {ch : Char}
    {after : List Char} (hrest : l.cursor.rest = ch :: after) :
    l.nextToken = (l.jsxChild ch).map fun result => (result.1, result.2.noted result.1.kind) := by
  have hcurrent : l.current = some ch := by
    show l.cursor.rest[0]? = _
    rw [hrest]
    rfl
  rw [Lexer.nextToken, Lexer.nextTokenInner, hl.raw, hl.jsx_eq, hcurrent]

/-- A token of children, and the frame that it pushes. -/
theorem next_child {l m : Lexer source} {jsx jsx' : List JsxFrame} {template : List TemplateFrame}
    (hl : Reading l (.text :: jsx) template) {ch : Char} {rest after text : List Char}
    {kind : TokenKind} (hrest : l.cursor.rest = ch :: rest) {t : Token}
    (hchild : l.jsxChild ch = some (t, m)) (hkind : t.kind = kind) (htext : t.text = text)
    (hnewline : kind ≠ .newline) {n : Nat} (hcursor : m.cursor = (l.cursor.skip n).1)
    (hafter : l.cursor.rest.drop n = after)
    (hmodes : m.modes = { l.modes with jsxStack := jsx' })
    (hbraces : ∀ depth, JsxFrame.braces depth ∈ jsx' → 0 < depth) :
    Next l kind text jsx' template after (some kind) := by
  have hexpect : l.unsafeExpectBrace = false := by
    rw [← Bool.not_eq_true]
    intro h
    rcases hl.expect h with h | h <;> cases h
  have hflag : m.unsafeExpectBrace = false := (congrArg Modes.expect hmodes).trans hexpect
  have hm : Reading m jsx' template := hl.moved hcursor
    (by rw [hmodes, hflag, ← hl.template_eq, ← hexpect]; rfl) (by rw [hflag]; nofun) hbraces
  have hnoted : m.noted t.kind = { m with prevSignificant := some kind } := by
    rw [Lexer.noted, hkind, if_neg hnewline]
  refine ⟨m.noted t.kind, ⟨t, _, ?_, hkind, htext, rfl⟩, ?_⟩
  · rw [nextToken_children hl hrest, hchild]
    rfl
  · rw [hnoted]
    exact ⟨⟨hm.raw, hm.pending, hm.typeEnd, hm.jsx_eq, hm.template_eq, hm.expect, hm.braces⟩,
      by rw [← hafter, ← l.cursor.skip_rest, ← hcursor], rfl⟩

theorem next_childLess {l : Lexer source} {jsx : List JsxFrame} {template : List TemplateFrame}
    (hl : Reading l (.text :: jsx) template) {after : List Char}
    (hrest : l.cursor.rest = '<' :: after) :
    Next l .lt ['<']
      ((if after[0]? = some '/' then .closeTag else .openTag) :: .text :: jsx) template after
      (some .lt) := by
  refine next_child hl hrest (by rw [Lexer.jsxChild, if_pos rfl]) rfl rfl nofun (n := 1) rfl
    (by rw [hrest]; rfl) ?_ (fun depth h => ?_)
  · rw [← hl.jsx_eq, show (l.punct TokenKind.lt "<").2.current = after[0]? from
      current_advance hrest]
    rfl
  · rcases List.mem_cons.1 h with h | h
    · split at h <;> cases h
    · exact hl.braces depth h

theorem next_childBrace {l : Lexer source} {jsx : List JsxFrame} {template : List TemplateFrame}
    (hl : Reading l (.text :: jsx) template) {after : List Char}
    (hrest : l.cursor.rest = '{' :: after) :
    Next l .lBrace ['{'] (.braces 1 :: .text :: jsx) template after (some .lBrace) := by
  refine next_child hl hrest (by rw [Lexer.jsxChild, if_neg (by decide), if_pos rfl]) rfl rfl nofun
    (n := 1) rfl (by rw [hrest]; rfl) (by rw [← hl.jsx_eq]; rfl) (fun depth h => ?_)
  rcases List.mem_cons.1 h with h | h
  · cases h
    exact Nat.one_pos
  · exact hl.braces depth h

/-- A run of text goes up to the next `<` or `{`, or to the end. -/
theorem next_text {l : Lexer source} {jsx : List JsxFrame} {template : List TemplateFrame}
    (hl : Reading l (.text :: jsx) template) {text after : List Char}
    (hrest : l.cursor.rest = text ++ after) (hne : text ≠ [])
    (htext : ∀ c ∈ text, c ≠ '<' ∧ c ≠ '{') (hafter : ∀ c ∈ after.head?, c = '<' ∨ c = '{') :
    Next l .jsxText text (.text :: jsx) template after (some .jsxText) := by
  have hrun : l.cursor.rest.takeWhile (fun c => !(c == '<' || c == '{')) = text := by
    have hstop : after.takeWhile (fun c => !(c == '<' || c == '{')) = [] := by
      rcases after with - | ⟨c, rest⟩
      · rfl
      · rw [List.takeWhile_cons, if_neg (by rcases hafter c rfl with rfl | rfl <;> decide)]
    rw [hrest, List.takeWhile_append_of_pos fun c hc => by simpa using htext c hc, hstop,
      List.append_nil]
  obtain ⟨c, tail, rfl⟩ := List.exists_cons_of_ne_nil hne
  have hc := htext c (List.mem_cons_self ..)
  have hread : l.jsxChild c = some (Token.mk .jsxText (c :: tail)
      (spanFrom l.cursor (l.cursor.skip (c :: tail).length).1), l.advance (c :: tail).length) := by
    rw [Lexer.jsxChild, if_neg hc.1, if_neg hc.2, Lexer.readJsxText, hrun,
      Lexer.tokenFrom_advance, hrest, List.take_left' rfl]
  exact next_child hl hrest hread rfl rfl (by decide) rfl (by rw [hrest, List.drop_left' rfl])
    (by rw [← hl.jsx_eq]; rfl) hl.braces

/-! ### Template literals -/

/-- In the text of a template literal. -/
theorem nextToken_run {l : Lexer source} {jsx : List JsxFrame} {below : List TemplateFrame}
    (hl : Reading l jsx (.text :: below)) (hjsx : jsx.head? ≠ some .text) :
    l.nextToken = l.readTemplateText.map fun result =>
      (result.1, result.2.noted result.1.kind) := by
  have htop : l.templateStack.head? = some .text := by
    rw [hl.template_eq]
    rfl
  have hinner : l.nextTokenInner = l.readTemplateText := by
    rw [Lexer.nextTokenInner, hl.raw, hl.jsx_eq]
    split
    · next h => cases h
    · exact absurd rfl hjsx
    · rw [Lexer.lexTemplate, if_pos htop]
  rw [Lexer.nextToken, hinner]

/-- The backtick of a template literal is read with its first run. -/
theorem nextToken_backtick {l : Lexer source} {jsx : List JsxFrame}
    {template : List TemplateFrame} (hl : Reading l jsx template) (hjsx : jsx.head? ≠ some .text)
    (htemplate : template.head? ≠ some .text) {after : List Char}
    (hat : At l ('\u0060' :: after)) :
    ∃ m : Lexer source, m.cursor.rest = after ∧ Reading m jsx (.text :: template) ∧
      l.nextToken = m.nextToken := by
  obtain ⟨k, hrest, hk, hexpect, -, hnext⟩ := nextToken_code hl hjsx htemplate hat (by decide)
  have hcurrent : k.current = some '\u0060' := by
    show k.cursor.rest[0]? = _
    rw [hrest]
    rfl
  obtain ⟨m, hmdef⟩ : ∃ m : Lexer source,
      m = { k.advance 1 with templateStack := .text :: k.templateStack } := ⟨_, rfl⟩
  have hm : Reading m jsx (.text :: template) := by
    rw [hmdef]
    refine hk.moved (n := 1) rfl (by rw [← hk.template_eq, ← hk.jsx_eq]; rfl) (fun h => ?_) hk.braces
    rw [show k.unsafeExpectBrace = true from h] at hexpect
    cases hexpect
  obtain ⟨m', hread, -⟩ := m.readTemplateText_spec hm.template_eq
  have hlex : k.lexChar = m.readTemplateText := by
    rw [Lexer.lexChar, hcurrent, hmdef]
    rfl
  rw [hread] at hlex
  refine ⟨m, ?_, hm, ?_⟩
  · rw [hmdef]
    exact rest_advance hrest
  · rw [hnext _ _ hlex, nextToken_run hm hjsx, hread]
    rfl

/-- A run of a template literal, with the state that its end leads to. -/
theorem nextToken_chunk {l : Lexer source} {jsx : List JsxFrame} {below : List TemplateFrame}
    (hl : Reading l jsx (.text :: below)) (hjsx : jsx.head? ≠ some .text) {run after : List Char}
    (hrest : l.cursor.rest = run ++ after) (hrun : (runLen (run ++ after)).1 = run.length) :
    ∃ (t : Token) (m : Lexer source),
      l.nextToken = some (t, { m with prevSignificant := some .backtickString }) ∧
      t.kind = .backtickString ∧ t.text = run ∧
      match (runLen (run ++ after)).2 with
      | .eof => m.cursor = (l.cursor.skip run.length).1 ∧
          m.modes = { l.modes with templateStack := below }
      | .backtick => m.cursor = (l.cursor.skip (run.length + 1)).1 ∧
          m.modes = { l.modes with templateStack := below }
      | .interp => m.cursor = (l.cursor.skip run.length).1 ∧
          m.modes = { l.modes with templateStack := .interp 0 :: below, pending := true } := by
  obtain ⟨m, hread, hend⟩ := l.readTemplateText_spec hl.template_eq
  rw [hrest, hrun] at hread hend
  rw [List.take_left' rfl] at hread
  exact ⟨_, m, (nextToken_run hl hjsx).trans (by rw [hread]; rfl), rfl, rfl, hend⟩

/-- The last run of a template literal takes the closing backtick. -/
theorem next_lastRun {l : Lexer source} {jsx : List JsxFrame} {below : List TemplateFrame}
    (hl : Reading l jsx (.text :: below)) (hjsx : jsx.head? ≠ some .text) {run after : List Char}
    (hrest : l.cursor.rest = run ++ '\u0060' :: after)
    (hrun : (runLen (run ++ '\u0060' :: after)).1 = run.length) :
    Next l .backtickString run jsx below after (some .backtickString) := by
  obtain ⟨t, m, hnext, hkind, htext, hend⟩ := nextToken_chunk hl hjsx hrest hrun
  have hstop := runLen_stop (run ++ '\u0060' :: after)
  rw [hrun, List.drop_left' rfl] at hstop
  rcases hstopKind : (runLen (run ++ '\u0060' :: after)).2 with - | - | - <;>
    rw [hstopKind] at hend hstop
  · cases hstop
  · obtain ⟨hcursor, hmodes⟩ := hend
    have hflag : m.unsafeExpectBrace = l.unsafeExpectBrace := congrArg Modes.expect hmodes
    have hm : Reading m jsx below := hl.moved hcursor (by rw [hmodes, hflag, ← hl.jsx_eq]; rfl)
      (by rw [hflag]; exact hl.expect) hl.braces
    refine ⟨_, ⟨t, _, hnext, hkind, htext, rfl⟩,
      ⟨hm.raw, hm.pending, hm.typeEnd, hm.jsx_eq, hm.template_eq, hm.expect, hm.braces⟩, ?_, rfl⟩
    show m.cursor.rest = after
    rw [hcursor, l.cursor.skip_rest, hrest, ← List.drop_drop, List.drop_left' rfl]
    rfl
  · obtain ⟨rest, hrest⟩ := hstop
    cases hrest

/-- An announced interpolation. -/
theorem nextToken_pending {l : Lexer source} (hraw : l.rawDepth = 0)
    (hjsx : l.jsxStack.head? ≠ some .text) (htemplate : l.templateStack.head? ≠ some .text)
    (hpending : l.pendingTemplateExprStart = true) :
    l.nextToken = l.templateExprStart.map fun result =>
      (result.1, result.2.noted result.1.kind) := by
  have hinner : l.nextTokenInner = l.templateExprStart := by
    rw [Lexer.nextTokenInner, hraw]
    split
    · next h => cases h
    · next h _ => 
      rw [h] at hjsx
      exact absurd rfl hjsx
    · rw [Lexer.lexTemplate, if_neg htemplate, if_pos hpending]
  rw [Lexer.nextToken, hinner]

/-- A run before an interpolation, and the `${` itself. -/
theorem next_spanRun {l : Lexer source} {jsx : List JsxFrame} {below : List TemplateFrame}
    (hl : Reading l jsx (.text :: below)) (hjsx : jsx.head? ≠ some .text) {run after : List Char}
    (hrest : l.cursor.rest = run ++ '$' :: '{' :: after)
    (hrun : (runLen (run ++ '$' :: '{' :: after)).1 = run.length) :
    ∃ l', Emits l [(.backtickString, run), (.templateExprStart, ['$', '{'])] l' ∧
      Reading l' jsx (.interp 0 :: below) ∧ l'.cursor.rest = after ∧
      l'.prevSignificant = some .templateExprStart := by
  obtain ⟨t, m, hnext, hkind, htext, hend⟩ := nextToken_chunk hl hjsx hrest hrun
  have hstop := runLen_stop (run ++ '$' :: '{' :: after)
  rw [hrun, List.drop_left' rfl] at hstop
  rcases hstopKind : (runLen (run ++ '$' :: '{' :: after)).2 with - | - | - <;>
    rw [hstopKind] at hend hstop
  · cases hstop
  · obtain ⟨rest, hrest⟩ := hstop
    cases hrest
  · obtain ⟨hcursor, hmodes⟩ := hend
    have hcursorRest : m.cursor.rest = '$' :: '{' :: after := by
      rw [hcursor, l.cursor.skip_rest, hrest, List.drop_left' rfl]
    have hjsxStack : m.jsxStack = jsx := (congrArg Modes.jsxStack hmodes).trans hl.jsx_eq
    have htemplate : m.templateStack = .interp 0 :: below := congrArg Modes.templateStack hmodes
    have hsecond := nextToken_pending (l := { m with prevSignificant := some .backtickString })
      ((congrArg Modes.raw hmodes).trans hl.raw) (by rw [← hjsxStack] at hjsx; exact hjsx)
      (by rw [show _ = TemplateFrame.interp 0 :: below from htemplate]; nofun)
      (congrArg Modes.pending hmodes)
    have hpos : l.unsafeTypeEnd ≤ (m.cursor.skip 2).1.pos := by
      rw [Cursor.pos_later, hcursor, Cursor.pos_later]
      exact Nat.le_add_right_of_le (Nat.le_add_right_of_le hl.typeEnd)
    refine ⟨_, ⟨t, _, hnext, hkind, htext, _, _, hsecond, rfl, rfl, rfl⟩,
      ⟨(congrArg Modes.raw hmodes).trans hl.raw, rfl, ?_, hjsxStack, htemplate, ?_, hl.braces⟩,
      ?_, rfl⟩
    · rw [← show m.unsafeTypeEnd = l.unsafeTypeEnd from congrArg Modes.typeEnd hmodes] at hpos
      exact hpos
    · intro h
      exact hl.expect ((congrArg Modes.expect hmodes).symm.trans h)
    · show (m.cursor.skip 2).1.rest = after
      rw [m.cursor.skip_rest, hcursorRest]
      rfl

end Deka.Syntax
