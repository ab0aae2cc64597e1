/-
Deka/Syntax/Nesting.lean

The modes of the lexer follow the nesting of the source exactly where the composition is clean.

Each construct pushes its frames, has its parts read, and leaves the stacks as they were.  A `}`
is the end of an interpolation only where the stack of JSX frames is empty, so an interpolation in
an element ends with an ordinary brace; and the `>` of a tag is taken for part of `>=` or `>>`.
-/
import Deka.Syntax.Emits

namespace Deka.Syntax

open Lib

variable {source : List Char} [Unicode]

/-- The frames that code lies directly in. -/
def CodeFrame : Bool → List JsxFrame → Prop
  | true, jsx => InTag jsx
  | false, jsx => ∀ frame ∈ jsx.head?, ∃ depth, frame = .braces depth

omit [Unicode] in
theorem CodeFrame.ne_text {inTag : Bool} {jsx : List JsxFrame} (h : CodeFrame inTag jsx) :
    jsx.head? ≠ some .text := by
  intro htop
  cases inTag with
  | false =>
    obtain ⟨depth, hframe⟩ := h _ htop
    cases hframe
  | true => rcases h with h | h <;> rw [h] at htop <;> cases htop

omit [Unicode] in
/-- What an opening brace does to the frames. -/
theorem openFrames_code (jsx : List JsxFrame) {template : List TemplateFrame}
    (htemplate : template.head? ≠ some .text) :
    CodeFrame false (Lexer.openFrames jsx template).1 ∧
      (Lexer.openFrames jsx template).2.head? ≠ some .text ∧
      (Lexer.openFrames jsx template).1.isEmpty = jsx.isEmpty := by
  rcases jsx with - | ⟨frame, below⟩
  · rcases template with - | ⟨frame, template⟩
    · exact ⟨nofun, nofun, rfl⟩
    · cases frame with
      | text => exact absurd rfl htemplate
      | interp depth => exact ⟨nofun, nofun, rfl⟩
  · have hbraces (depth : Nat) (below : List JsxFrame) :
        CodeFrame false (.braces depth :: below) := fun frame h => ⟨depth, (Option.some.inj h).symm⟩
    cases frame <;> exact ⟨hbraces _ _, htemplate, rfl⟩

omit [Unicode] in
/-- The closing brace takes back what the opening one did. -/
theorem closeFrames_openFrames {jsx : List JsxFrame} {template : List TemplateFrame}
    (hbraces : ∀ depth, JsxFrame.braces depth ∈ jsx → 0 < depth) :
    Lexer.closeFrames (Lexer.openFrames jsx template).1 (Lexer.openFrames jsx template).2 =
      some (.rBrace, jsx, template) := by
  rcases jsx with - | ⟨frame, below⟩
  · rcases template with - | ⟨frame, template⟩
    · rfl
    · cases frame <;> rfl
  · cases frame with
    | braces depth =>
      obtain ⟨depth, rfl⟩ : ∃ k, depth = k + 1 :=
        ⟨depth - 1, by have := hbraces depth (List.mem_cons_self ..); omega⟩
      rfl
    | openTag => rfl
    | selfClose => rfl
    | closeTag => rfl
    | text => rfl

/-- What is to be shown of a composition, at each place: under the condition its tokens come out
and the stacks are as they were. -/
def Follows (source : List Char) : (p : Place) → Nest p → Prop
  | .code inTag, c => ∀ (l : Lexer source) (jsx : List JsxFrame) (template : List TemplateFrame)
      (tail : List Char), Reading l jsx template → CodeFrame inTag jsx →
      template.head? ≠ some .text → At l (c.render ++ tail) → c.Fits l.prevSignificant tail →
      Outcome (c.Clean (!jsx.isEmpty) tail) l c.tokens fun l' =>
        Reading l' jsx template ∧ At l' tail
  | .template, c => ∀ (l : Lexer source) (jsx : List JsxFrame) (below : List TemplateFrame)
      (tail : List Char), Reading l jsx (.text :: below) → CodeFrame false jsx →
      below.head? ≠ some .text → l.cursor.rest = c.render ++ tail → c.Fits none tail →
      Outcome (c.Clean (!jsx.isEmpty) tail) l c.tokens fun l' =>
        Reading l' jsx below ∧ l'.cursor.rest = tail ∧ l'.prevSignificant = some .backtickString
  | .element, c => ∀ (l : Lexer source) (jsx : List JsxFrame) (template : List TemplateFrame)
      (tail : List Char), Reading l (.openTag :: jsx) template → template.head? ≠ some .text →
      l.cursor.rest = c.render ++ tail → l.prevSignificant = some .lt → c.Fits none tail →
      Outcome (c.Clean true tail) l c.tokens fun l' =>
        Reading l' jsx template ∧ l'.cursor.rest = tail ∧ l'.prevSignificant = some .gt
  | .children, c => ∀ (l : Lexer source) (jsx : List JsxFrame) (template : List TemplateFrame)
      (tail : List Char), Reading l (.text :: jsx) template → template.head? ≠ some .text →
      l.cursor.rest = c.render ++ tail → c.Fits none tail →
      Outcome (c.Clean true tail) l c.tokens fun l' =>
        Reading l' (.text :: jsx) template ∧ l'.cursor.rest = tail

/-- A token that comes out in any case, and what follows it. -/
theorem Next.andThen {l : Lexer source} {kind : TokenKind} {text : List Char}
    {jsx : List JsxFrame} {template : List TemplateFrame} {rest : List Char}
    {prev : Option TokenKind} {A : Prop} {out : List (TokenKind × List Char)}
    {F : Lexer source → Prop} (h : Next l kind text jsx template rest prev)
    (hmore : ∀ m, Reading m jsx template → m.cursor.rest = rest → m.prevSignificant = prev →
      Outcome A m out F) : Outcome A l ((kind, text) :: out) F := by
  obtain ⟨m, hemits, hreading, hrest, hprev⟩ := h
  exact Outcome.after hemits (hmore m hreading hrest hprev)

theorem follows_leaf {inTag : Bool} {kind : TokenKind} {chars : List Char}
    {rest : Nest (.code inTag)} (hrest : Follows source (.code inTag) rest) :
    Follows source (.code inTag) (.leaf kind chars rest) := by
  intro l jsx template tail hl hframe htemplate hat hfits
  obtain ⟨hleaf, hmark, hfits⟩ := hfits
  rw [Nest.render, List.append_assoc] at hat
  have hword : InTag jsx ∨ kind ≠ .kwUnsafe := by
    cases inTag with
    | false => exact Or.inr (hmark rfl)
    | true => exact Or.inl hframe
  refine (next_leaf hl hframe.ne_text htemplate hat hleaf hword).andThen fun m hm hmrest hprev => ?_
  exact hrest m jsx template tail hm hframe htemplate (At.of_rest hmrest)
    (by rw [hprev]; exact hfits)

theorem follows_operator {kind : TokenKind} {chars : List Char} {rest : Nest (.code false)}
    (hrest : Follows source (.code false) rest) :
    Follows source (.code false) (.operator kind chars rest) := by
  intro l jsx template tail hl hframe htemplate hat hfits
  obtain ⟨hop, hfits⟩ := hfits
  rw [Nest.render, List.append_assoc] at hat
  refine (next_operator hl hframe htemplate hat hop).andThen fun m hm hmrest hprev => ?_
  exact hrest m jsx template tail hm hframe htemplate (At.of_rest hmrest)
    (by rw [hprev]; exact hfits)

/-- A group of braces in code or in a tag. -/
theorem follows_group {inTag : Bool} {body : Nest (.code false)} {rest : Nest (.code inTag)}
    (hbody : Follows source (.code false) body) (hrest : Follows source (.code inTag) rest) :
    Follows source (.code inTag) (.group body rest) := by
  intro l jsx template tail hl hframe htemplate hat hfits
  obtain ⟨hfitsBody, hfitsRest⟩ := hfits
  obtain ⟨hcode, htemplate', hempty⟩ := openFrames_code jsx htemplate
  rw [Nest.render] at hat
  simp only [List.cons_append, List.append_assoc] at hat
  refine (next_openBrace hl hframe.ne_text htemplate hat).andThen fun m hm hmrest hprev => ?_
  have hinner := hbody m _ _ _ hm hcode htemplate' (At.of_rest hmrest)
    (by rw [hprev]; exact hfitsBody)
  rw [hempty] at hinner
  refine hinner.append fun k ⟨hk, hkat⟩ => ?_
  refine (next_closeBrace hk hcode.ne_text htemplate' hkat
    (closeFrames_openFrames hl.braces)).andThen fun n hn hnrest hnprev => ?_
  exact hrest n jsx template tail hn hframe htemplate (At.of_rest hnrest)
    (by rw [hnprev]; exact hfitsRest)

theorem Outcome.of_nextToken {A : Prop} {l m : Lexer source}
    {out : List (TokenKind × List Char)} {F : Lexer source → Prop}
    (h : l.nextToken = m.nextToken) (hne : out ≠ []) (hm : Outcome A m out F) :
    Outcome A l out F := by
  obtain ⟨entry, out, rfl⟩ := List.exists_cons_of_ne_nil hne
  refine ⟨fun hA => ?_, fun hA => ?_⟩
  · obtain ⟨l', ⟨t, k, hnext, hmore⟩, hfinish⟩ := hm.1 hA
    exact ⟨l', ⟨t, k, h.trans hnext, hmore⟩, hfinish⟩
  · obtain ⟨t, k, hnext, hmore⟩ := hm.2 hA
    exact ⟨t, k, h.trans hnext, hmore⟩

/-- A template literal in code. -/
theorem follows_literal {parts : Nest .template} {rest : Nest (.code false)}
    (hparts : Follows source .template parts) (hrest : Follows source (.code false) rest) :
    Follows source (.code false) (.literal parts rest) := by
  intro l jsx template tail hl hframe htemplate hat hfits
  obtain ⟨hfitsParts, hfitsRest⟩ := hfits
  rw [Nest.render, List.cons_append, List.append_assoc] at hat
  obtain ⟨m, hmrest, hm, hnext⟩ := nextToken_backtick hl hframe.ne_text htemplate hat
  have hne : parts.tokens ++ rest.tokens ≠ [] := by
    apply List.append_ne_nil_of_left_ne_nil
    cases parts <;> exact List.cons_ne_nil _ _
  refine Outcome.of_nextToken hnext hne
    ((hparts m jsx template _ hm hframe htemplate hmrest hfitsParts).append
      fun k ⟨hk, hkrest, hkprev⟩ => ?_)
  exact hrest k jsx template tail hk hframe htemplate (At.of_rest hkrest)
    (by rw [hkprev]; exact hfitsRest)

theorem follows_last (run : List Char) : Follows source .template (.last run) := by
  intro l jsx below tail hl hframe _ hrest hfits
  rw [Nest.render, List.append_assoc] at hrest
  obtain ⟨m, hemits, hm, hmrest, hprev⟩ := next_lastRun hl hframe.ne_text hrest hfits
  exact ⟨fun _ => ⟨m, hemits, hm, hmrest, hprev⟩, fun h => absurd trivial h⟩

omit [Unicode] in
/-- Where the stack of JSX frames is not empty, the `}` of an interpolation is an ordinary one. -/
theorem closeFrames_jsx {frame : JsxFrame} {below : List JsxFrame}
    (hbraces : ∀ depth, JsxFrame.braces depth ∈ frame :: below → 0 < depth)
    (template : List TemplateFrame) :
    ∃ jsx' template',
      Lexer.closeFrames (frame :: below) template = some (.rBrace, jsx', template') := by
  cases frame with
  | braces depth =>
    rcases depth with - | - | depth
    · exact absurd (hbraces 0 (List.mem_cons_self ..)) (Nat.lt_irrefl 0)
    · exact ⟨_, _, rfl⟩
    · exact ⟨_, _, rfl⟩
  | openTag => exact ⟨_, _, rfl⟩
  | selfClose => exact ⟨_, _, rfl⟩
  | closeTag => exact ⟨_, _, rfl⟩
  | text => exact ⟨_, _, rfl⟩

theorem Next.diverges {l : Lexer source} {kind kind' : TokenKind} {text text' : List Char}
    {jsx : List JsxFrame} {template : List TemplateFrame} {rest : List Char}
    {prev : Option TokenKind} (h : Next l kind text jsx template rest prev) (hkind : kind ≠ kind')
    (more : List (TokenKind × List Char)) : Diverges l ((kind', text') :: more) := by
  obtain ⟨m, ⟨t, k, hnext, rfl, -⟩, -⟩ := h
  exact ⟨t, k, hnext, Or.inl hkind⟩

/-- An interpolation, with the run before it: its `}` is taken for one of its own only outside
JSX. -/
theorem follows_span {run : List Char} {body : Nest (.code false)} {rest : Nest .template}
    (hbody : Follows source (.code false) body) (hrest : Follows source .template rest) :
    Follows source .template (.span run body rest) := by
  intro l jsx below tail hl hframe hbelow hat hfits
  obtain ⟨hrun, hfitsBody, hfitsRest⟩ := hfits
  rw [Nest.render] at hat
  simp only [List.cons_append, List.append_assoc] at hat
  obtain ⟨m, hemits, hm, hmrest, hmprev⟩ := next_spanRun hl hframe.ne_text hat hrun
  refine Outcome.after hemits ?_
  refine (hbody m jsx _ _ hm hframe nofun (At.of_rest hmrest)
    (by rw [hmprev]; exact hfitsBody)).append fun k ⟨hk, hkat⟩ => ?_
  rcases hjsx : jsx with - | ⟨frame, frames⟩
  · rw [hjsx] at hk hframe hl
    have hclose : Next k .templateExprEnd ['}'] [] (.text :: below) _ (some .templateExprEnd) :=
      next_closeBrace hk nofun nofun hkat rfl
    refine (hclose.andThen fun n hn hnrest _ =>
      hrest n [] below tail hn hframe hbelow hnrest hfitsRest).imp ?_ fun _ => id
    exact ⟨fun h => ⟨rfl, h⟩, fun h => h.2⟩
  · rw [hjsx] at hk hframe hl
    obtain ⟨jsx', template', hclose⟩ :=
      closeFrames_jsx hl.braces (.interp 0 :: below)
    have hbrace := next_closeBrace hk hframe.ne_text nofun hkat hclose
    exact ⟨fun h => absurd h.1 nofun,
      fun _ => hbrace.diverges (show TokenKind.rBrace ≠ .templateExprEnd by decide) _⟩

/-- A `>` of a tag, which ends the tag unless it is glued to what follows. -/
theorem greater_outcome {l : Lexer source} {frame : JsxFrame} {jsx : List JsxFrame}
    {template : List TemplateFrame} (hl : Reading l (frame :: jsx) template)
    (hframe : frame ≠ .text) (htemplate : template.head? ≠ some .text) {after : List Char}
    (hat : At l ('>' :: after)) {A : Prop} (out : List (TokenKind × List Char))
    {F : Lexer source → Prop}
    (hmore : ∀ m, Reading m (Lexer.closeJsxTag (frame :: jsx)) template →
      m.cursor.rest = after → m.prevSignificant = some .gt → Outcome A m out F) :
    Outcome (¬ Glued after ∧ A) l ((.gt, ['>']) :: out) F := by
  have hjsx : (frame :: jsx).head? ≠ some .text := fun h => hframe (Option.some.inj h)
  by_cases hglued : Glued after
  · refine ⟨fun h => absurd hglued h.1, fun _ => ?_⟩
    exact (glued_diverges hl hjsx htemplate hat hglued ['>']).append_right out
  · have hnext := next_greater hl hjsx htemplate hat hglued
    exact (hnext.andThen hmore).imp ⟨fun h => ⟨hglued, h⟩, fun h => h.2⟩ fun _ => id

theorem follows_selfClosing {tag : Nest (.code true)} (htag : Follows source (.code true) tag) :
    Follows source .element (.selfClosing tag) := by
  intro l jsx template tail hl htemplate hrest hprev hfits
  obtain ⟨-, hfitsTag⟩ := hfits
  rw [Nest.render, List.append_assoc] at hrest
  refine (htag l _ template _ hl (Or.inl rfl) htemplate (At.of_rest hrest)
    (by rw [hprev]; exact hfitsTag)).append fun m ⟨hm, hat⟩ => ?_
  refine (next_selfClose hm htemplate hat).andThen fun k hk hkrest _ => ?_
  refine (greater_outcome hk nofun htemplate (At.of_rest hkrest) (A := True) []
    fun n hn hnrest hnprev => ⟨fun _ => ⟨n, rfl, hn, hnrest, hnprev⟩, fun h => absurd trivial h⟩).imp
    (Iff.of_eq (and_true _)) fun _ => id

omit [Unicode] in
theorem head_append {P : Char → Prop} {a b : List Char} {c : Char}
    (h : ∀ d ∈ (a ++ [c]).head?, P d) : ∀ d ∈ (a ++ c :: b).head?, P d := by
  cases a <;> exact h

theorem element_opens {element : Nest .element} {prev : Option TokenKind} {tail after : List Char}
    (h : element.Fits prev tail) : Opens (element.render ++ after) := by
  cases element with
  | selfClosing tag =>
    rw [Nest.render, List.append_assoc]
    exact head_append h.1
  | paired tag children close =>
    rw [Nest.render, List.append_assoc]
    exact head_append h.1

/-- An element with children. -/
theorem follows_paired {tag close : Nest (.code true)} {children : Nest .children}
    (htag : Follows source (.code true) tag) (hchildren : Follows source .children children)
    (hclose : Follows source (.code true) close) :
    Follows source .element (.paired tag children close) := by
  intro l jsx template tail hl htemplate hrest hprev hfits
  obtain ⟨-, hfitsTag, hfitsChildren, hcloses, hfitsClose⟩ := hfits
  rw [Nest.render] at hrest
  simp only [List.append_assoc, List.cons_append, List.nil_append] at hrest
  refine (htag l _ template _ hl (Or.inl rfl) htemplate (At.of_rest hrest)
    (by rw [hprev]; exact hfitsTag)).append fun m ⟨hm, hat⟩ => ?_
  refine greater_outcome hm nofun htemplate hat _ fun k hk hkrest _ => ?_
  refine (hchildren k jsx template _ hk htemplate hkrest hfitsChildren).append
    fun n ⟨hn, hnrest⟩ => ?_
  have hless := next_childLess hn hnrest
  rw [List.getElem?_cons_zero, if_pos rfl] at hless
  refine hless.andThen fun k' hk' hkrest' _ => ?_
  refine (next_closeSlash hk' htemplate (At.of_rest hkrest')
    (head_append hcloses)).andThen fun m' hm' hmrest' hmprev' => ?_
  refine (hclose m' _ template _ hm' (Or.inr rfl) htemplate (At.of_rest hmrest')
    (by rw [hmprev']; exact hfitsClose)).append fun n' ⟨hn', hnat'⟩ => ?_
  refine (greater_outcome hn' nofun htemplate hnat' (A := True) []
    fun k hk hkrest hkprev => ⟨fun _ => ⟨k, rfl, hk, hkrest, hkprev⟩, fun h => absurd trivial h⟩).imp
    (Iff.of_eq (and_true _)) fun _ => id

/-- An element in code, in prefix position. -/
theorem follows_jsx {element : Nest .element} {rest : Nest (.code false)}
    (helement : Follows source .element element) (hrest : Follows source (.code false) rest) :
    Follows source (.code false) (.jsx element rest) := by
  intro l jsx template tail hl hframe htemplate hat hfits
  obtain ⟨hends, hfitsElement, hfitsRest⟩ := hfits
  rw [Nest.render, List.cons_append, List.append_assoc] at hat
  refine (next_less hl hframe.ne_text htemplate hat hends
    (element_opens hfitsElement)).andThen fun m hm hmrest hmprev => ?_
  refine (helement m jsx template _ hm htemplate hmrest hmprev hfitsElement).append
    fun k ⟨hk, hkrest, hkprev⟩ => ?_
  exact hrest k jsx template tail hk hframe htemplate (At.of_rest hkrest)
    (by rw [hkprev]; exact hfitsRest)

theorem follows_verbatim {text : List Char} {rest : Nest .children}
    (hrest : Follows source .children rest) : Follows source .children (.verbatim text rest) := by
  intro l jsx template tail hl htemplate hat hfits
  obtain ⟨hne, htext, hafter, hfitsRest⟩ := hfits
  rw [Nest.render, List.append_assoc] at hat
  refine (next_text hl hat hne htext hafter).andThen fun m hm hmrest _ => ?_
  exact hrest m jsx template tail hm htemplate hmrest hfitsRest

theorem follows_expr {body : Nest (.code false)} {rest : Nest .children}
    (hbody : Follows source (.code false) body) (hrest : Follows source .children rest) :
    Follows source .children (.expr body rest) := by
  intro l jsx template tail hl htemplate hat hfits
  obtain ⟨hfitsBody, hfitsRest⟩ := hfits
  rw [Nest.render] at hat
  simp only [List.cons_append, List.append_assoc] at hat
  have hframe : CodeFrame false (.braces 1 :: .text :: jsx) :=
    fun frame h => ⟨1, (Option.some.inj h).symm⟩
  refine (next_childBrace hl hat).andThen fun m hm hmrest hmprev => ?_
  refine (hbody m _ template _ hm hframe htemplate (At.of_rest hmrest)
    (by rw [hmprev]; exact hfitsBody)).append fun k ⟨hk, hkat⟩ => ?_
  refine (next_closeBrace hk hframe.ne_text htemplate hkat rfl).andThen fun n hn hnrest _ => ?_
  exact hrest n jsx template tail hn htemplate hnrest hfitsRest

theorem follows_child {element : Nest .element} {rest : Nest .children}
    (helement : Follows source .element element) (hrest : Follows source .children rest) :
    Follows source .children (.child element rest) := by
  intro l jsx template tail hl htemplate hat hfits
  obtain ⟨hfitsElement, hfitsRest⟩ := hfits
  rw [Nest.render, List.cons_append, List.append_assoc] at hat
  have hless := next_childLess hl hat
  have hopens : (element.render ++ (rest.render ++ tail))[0]? ≠ some '/' := by
    rw [← List.head?_eq_getElem?]
    exact fun h => element_opens hfitsElement '/' h (by decide)
  rw [if_neg hopens] at hless
  refine hless.andThen fun m hm hmrest hmprev => ?_
  refine (helement m _ template _ hm htemplate hmrest hmprev hfitsElement).append
    fun k ⟨hk, hkrest, _⟩ => ?_
  exact hrest k jsx template tail hk htemplate hkrest hfitsRest

/-- **The modes follow the nesting.**  Every composition comes out as it is nested exactly where
it is clean. -/
theorem Nest.follows {p : Place} (c : Nest p) : Follows source p c := by
  induction c with
  | nil =>
    intro l jsx template tail hl _ _ hat _
    exact ⟨fun _ => ⟨l, rfl, hl, hat⟩, fun h => absurd trivial h⟩
  | blank c rest hrest =>
    intro l jsx template tail hl hframe htemplate hat hfits
    exact hrest l jsx template tail hl hframe htemplate (hat.blank hfits.1) hfits.2
  | leaf kind chars rest hrest => exact follows_leaf hrest
  | operator kind chars rest hrest => exact follows_operator hrest
  | group body rest hbody hrest => exact follows_group hbody hrest
  | literal parts rest hparts hrest => exact follows_literal hparts hrest
  | jsx element rest helement hrest => exact follows_jsx helement hrest
  | last run => exact follows_last run
  | span run body rest hbody hrest => exact follows_span hbody hrest
  | selfClosing tag htag => exact follows_selfClosing htag
  | paired tag children close htag hchildren hclose =>
    exact follows_paired htag hchildren hclose
  | done =>
    intro l jsx template tail hl _ hrest _
    exact ⟨fun _ => ⟨l, rfl, hl, hrest⟩, fun h => absurd trivial h⟩
  | verbatim text rest hrest => exact follows_verbatim hrest
  | expr body rest hbody hrest => exact follows_expr hbody hrest
  | child element rest helement hrest => exact follows_child helement hrest

/-! ### Whole compositions -/

theorem Outcome.iff {A : Prop} {l : Lexer source} {out : List (TokenKind × List Char)}
    {F : Lexer source → Prop} (h : Outcome A l out F) : (∃ l', Emits l out l' ∧ F l') ↔ A := by
  refine ⟨fun ⟨l', hemits, _⟩ => ?_, h.1⟩
  by_contra hA
  exact (h.2 hA).not_emits l' hemits

/-- The kinds of the next tokens are those of the list. -/
theorem Emits.kinds {l l' : Lexer source} {out : List (TokenKind × List Char)}
    (h : Emits l out l') : l.kinds out.length = out.map Prod.fst := by
  induction out generalizing l with
  | nil => rfl
  | cons entry out ih =>
    obtain ⟨t, m, hnext, hkind, -, hmore⟩ := h
    rw [List.length_cons, Lexer.kinds, hnext]
    exact congrArg₂ List.cons hkind (ih hmore)

omit [Unicode] in
theorem reading_new (source : List Char) : Reading (Lexer.new source) [] [] where
  raw := rfl
  pending := rfl
  typeEnd := Nat.le_refl 0
  jsx_eq := rfl
  template_eq := rfl
  expect := nofun
  braces := nofun

/-- A composition has its tokens read one after another, and the stacks are as they were, exactly
where no interpolation lies in an element and no `>` of a tag is made longer by what follows. -/
theorem modes_follow_nesting {l : Lexer source} {jsx : List JsxFrame}
    {template : List TemplateFrame} {tail : List Char} (c : Nest (.code false))
    (hl : Reading l jsx template) (hframe : CodeFrame false jsx)
    (htemplate : template.head? ≠ some .text) (hrest : l.cursor.rest = c.render ++ tail)
    (hfits : c.Fits l.prevSignificant tail) :
    (∃ l', Emits l c.tokens l' ∧ l'.jsxStack = jsx ∧ l'.templateStack = template) ↔
      c.Clean (!jsx.isEmpty) tail := by
  have h := c.follows l jsx template tail hl hframe htemplate (At.of_rest hrest) hfits
  refine ⟨fun ⟨l', hemits, _⟩ => ?_, fun hclean => ?_⟩
  · by_contra hclean
    exact (h.2 hclean).not_emits l' hemits
  · obtain ⟨l', hemits, hreading, -⟩ := h.1 hclean
    exact ⟨l', hemits, hreading.jsx_eq, hreading.template_eq⟩

/-- An element in an interpolation. -/
def elementInInterpolation : Nest (.code false) :=
  .group (.literal (.span ['a'] (.jsx (.selfClosing (.leaf .identifier ['i'] .nil)) .nil)
    (.last ['b'])) .nil) .nil

omit [Unicode] in
theorem elementInInterpolation_follows :
    ∃ l', @Emits _ asciiOnly (Lexer.new elementInInterpolation.render)
        elementInInterpolation.tokens l' ∧ l'.jsxStack = [] ∧ l'.templateStack = [] := by
  have hopens : Opens ['i', '/'] := by
    intro c hc
    cases hc
    decide
  have hnot (c : Char) (after : List Char) (h : c ≠ '=' ∧ c ≠ '>') : ¬ Glued (c :: after) := by
    rintro (hc | hc)
    · exact h.1 (Option.some.inj hc)
    · exact h.2 (Option.some.inj hc)
  refine (@modes_follow_nesting _ asciiOnly _ _ _ [] elementInInterpolation (reading_new _) nofun
    nofun (List.append_nil _).symm ?_).2 ?_
  · exact ⟨⟨⟨rfl, ⟨rfl, ⟨hopens, rfl, nofun, trivial⟩, trivial⟩, rfl⟩, trivial⟩, trivial⟩
  · exact ⟨⟨⟨⟨⟨trivial, hnot _ _ (by decide)⟩, trivial⟩, rfl, trivial⟩, trivial⟩, trivial⟩

/-- A template literal in the children of an element. -/
def interpolationInElement : Nest (.code false) :=
  .jsx (.paired (.leaf .identifier ['d', 'i', 'v'] .nil)
    (.expr (.literal (.span ['a'] (.leaf .identifier ['x'] .nil) (.last ['b'])) .nil) .done)
    (.leaf .identifier ['d', 'i', 'v'] .nil)) .nil

omit [Unicode] in
/-- Its interpolation ends with an ordinary brace, and what follows is taken for text. -/
theorem interpolationInElement_breaks :
    interpolationInElement.render = "<div>\x7b\u0060a$\x7bx\x7db\u0060\x7d</div>".toList ∧
    @Nest.Fits asciiOnly _ none [] interpolationInElement ∧
    @Lexer.kinds _ asciiOnly 9 (Lexer.new interpolationInElement.render) =
      [.lt, .identifier, .gt, .lBrace, .backtickString, .templateExprStart, .identifier,
        .rBrace, .jsxText] ∧
    ¬ ∃ l', @Emits _ asciiOnly (Lexer.new interpolationInElement.render)
      interpolationInElement.tokens l' := by
  have hname (c : Char) (h : c ∈ ['d']) : c ∉ ['=', '<', '/'] ∧ c ∉ ['/', '*', '='] := by
    rw [List.mem_singleton.1 h]
    decide
  refine ⟨rfl, ⟨rfl, ⟨?_, ⟨rfl, nofun, trivial⟩,
    ⟨⟨⟨rfl, ⟨rfl, fun _ => nofun, trivial⟩, rfl⟩, trivial⟩, trivial⟩, ?_, ⟨rfl, nofun, trivial⟩⟩,
    trivial⟩, by decide +kernel, ?_⟩
  · exact fun c hc => (hname c (by cases hc; exact List.mem_cons_self ..)).1
  · exact fun c hc => (hname c (by cases hc; exact List.mem_cons_self ..)).2
  · rintro ⟨l', hemits⟩
    have hkinds := @Emits.kinds _ asciiOnly _ _ _ hemits
    revert hkinds
    decide +kernel

/-! ### The text of an element -/

/-- A `<` that opens a tag: in code in prefix position, or in the children of an element. -/
def AtTag (l : Lexer source) (jsx : List JsxFrame) : Prop :=
  jsx.head? = some .text ∨ CodeFrame false jsx ∧ endsExpression l.prevSignificant = false

theorem next_tag {l : Lexer source} {jsx : List JsxFrame} {template : List TemplateFrame}
    (hl : Reading l jsx template) (htag : AtTag l jsx) (htemplate : template.head? ≠ some .text)
    {after : List Char} (hrest : l.cursor.rest = '<' :: after) (hopens : Opens after) :
    Next l .lt ['<'] (.openTag :: jsx) template after (some .lt) := by
  rcases htag with htext | ⟨hframe, hends⟩
  · rcases jsx with - | ⟨frame, jsx⟩
    · cases htext
    · cases htext
      have hless := next_childLess hl hrest
      rw [if_neg] at hless
      · exact hless
      · rw [← List.head?_eq_getElem?]
        exact fun h => hopens '/' h (by decide)
  · exact next_less hl hframe.ne_text htemplate (At.of_rest hrest) hends hopens

/-- The children of an element that are text only come out as one token with that text exactly
where the text begins with neither `=` nor `>` and the attributes are clean. -/
theorem jsxText_verbatim {l : Lexer source} {jsx : List JsxFrame} {template : List TemplateFrame}
    (tag : Nest (.code true)) {text after : List Char} (hl : Reading l jsx template)
    (htag : AtTag l jsx) (htemplate : template.head? ≠ some .text)
    (hrest : l.cursor.rest = '<' :: (tag.render ++ '>' :: (text ++ '<' :: '/' :: after)))
    (hopens : Opens (tag.render ++ ['>']))
    (hfits : tag.Fits (some .lt) ('>' :: (text ++ '<' :: '/' :: after))) (hne : text ≠ [])
    (htext : ∀ c ∈ text, c ≠ '<' ∧ c ≠ '{') :
    (∃ l', Emits l ((.lt, ['<']) :: (tag.tokens ++ [(.gt, ['>']), (.jsxText, text)])) l' ∧
        l'.cursor.rest = '<' :: '/' :: after) ↔
      tag.Clean true ('>' :: (text ++ '<' :: '/' :: after)) ∧ text.head? ≠ some '=' ∧
        text.head? ≠ some '>' := by
  have hglued : Glued (text ++ '<' :: '/' :: after) ↔
      text.head? = some '=' ∨ text.head? = some '>' := by
    obtain ⟨c, rest, rfl⟩ := List.exists_cons_of_ne_nil hne
    exact Iff.rfl
  have hafter : ∀ c ∈ ('<' :: '/' :: after).head?, c = '<' ∨ c = '{' :=
    fun c hc => Or.inl (Option.some.inj hc).symm
  have houtcome : Outcome (tag.Clean true ('>' :: (text ++ '<' :: '/' :: after)) ∧
      ¬ Glued (text ++ '<' :: '/' :: after) ∧ True) l
      ((.lt, ['<']) :: (tag.tokens ++ [(.gt, ['>']), (.jsxText, text)]))
      fun l' => l'.cursor.rest = '<' :: '/' :: after := by
    refine (next_tag hl htag htemplate hrest (head_append hopens)).andThen
      fun m hm hmrest hprev => ?_
    refine (tag.follows m _ template _ hm (Or.inl rfl) htemplate (At.of_rest hmrest)
      (by rw [hprev]; exact hfits)).append fun k ⟨hk, hat⟩ => ?_
    refine greater_outcome hk nofun htemplate hat _ fun n hn hnrest _ => ?_
    obtain ⟨l', hemits, -, hrest', -⟩ := next_text hn hnrest hne htext hafter
    exact ⟨fun _ => ⟨l', hemits, hrest'⟩, fun h => absurd trivial h⟩
  rw [houtcome.iff, hglued, not_or, and_true]

omit [Unicode] in
/-- Text after a tag with an attribute that has its value in braces. -/
theorem jsxText_after_attribute :
    ∃ l', @Emits _ asciiOnly (Lexer.new "<p a=\x7b1\x7d>é ></p>".toList)
        [(.lt, ['<']), (.identifier, ['p']), (.identifier, ['a']), (.eq, ['=']), (.lBrace, ['{']),
          (.number, ['1']), (.rBrace, ['}']), (.gt, ['>']), (.jsxText, ['é', ' ', '>'])] l' ∧
      l'.cursor.rest = "</p>".toList := by
  have hopens : Opens ['p', ' ', 'a', '=', '{', '1', '}', '>'] := by
    intro c hc
    cases hc
    decide
  refine (@jsxText_verbatim _ asciiOnly (Lexer.new "<p a=\x7b1\x7d>é ></p>".toList) [] []
    (.leaf .identifier ['p'] (.blank ' ' (.leaf .identifier ['a'] (.leaf .eq ['=']
      (.group (.leaf .number ['1'] .nil) .nil))))) ['é', ' ', '>'] ['p', '>'] (reading_new _)
    (Or.inr ⟨nofun, rfl⟩) nofun rfl hopens ?_ nofun (by simp)).2 ?_
  · exact ⟨rfl, nofun, Or.inl rfl, rfl, nofun, rfl, nofun, ⟨rfl, fun _ => nofun, trivial⟩, trivial⟩
  · exact ⟨⟨trivial, trivial⟩, by decide, by decide⟩

omit [Unicode] in
/-- Text that begins with `=`: the tag is not closed, and the text is taken for code. -/
theorem text_after_greater :
    @Lexer.kinds _ asciiOnly 5 (Lexer.new "<p>= 3</p>".toList) =
      [.lt, .identifier, .ge, .number, .lt] ∧
    ¬ ∃ l', @Emits _ asciiOnly (Lexer.new "<p>= 3</p>".toList)
      [(.lt, ['<']), (.identifier, ['p']), (.gt, ['>']), (.jsxText, ['=', ' ', '3'])] l' := by
  refine ⟨by decide +kernel, ?_⟩
  rintro ⟨l', hemits⟩
  have hkinds := @Emits.kinds _ asciiOnly _ _ _ hemits
  revert hkinds
  decide +kernel

end Deka.Syntax
