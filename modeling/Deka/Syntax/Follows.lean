/-
Deka/Syntax/Follows.lean

What a parse function reads.

A reading relates the kinds of the tokens that are left before and after it, and tells whether it is
clean: it reports nothing and splits no token.  `FollowsAt` says that a parse function succeeds
exactly where its reading does, and that it leaves a trace exactly where the reading is not clean;
where it gives up it has reported something.
-/
import Deka.Syntax.Parser

namespace Deka.Parsing

open Deka.Syntax (Token TokenKind Pos Span Diagnostic sliceBytes)

/-- Whether a parse function reads cleanly, and which kinds of tokens it leaves. -/
abbrev Outcome := Bool → List TokenKind → Prop

/-- The outcomes by the kinds of the tokens that are left before. -/
abbrev Rule := Bool → List TokenKind → List TokenKind → Prop

/-- Newlines are skipped. -/
def skipped : List TokenKind → List TokenKind := List.dropWhile (· = .newline)

namespace Parser

/-- The kinds of the tokens that are left. -/
def kinds (s : Parser) : List TokenKind := (s.tokens.drop s.pos).map Token.kind

/-- It grows with each error and with each `>>` that is split. -/
def marks (s : Parser) : Nat :=
  s.errors.length + s.tokens.countP fun t => t.kind != .shr

/-- What a parse function leaves of the state: a clean one the tokens and the errors. -/
structure Leaves (s s' : Parser) (clean : Bool) : Prop where
  source : s'.source = s.source
  depth : s'.depth = s.depth
  same : clean = true → s'.tokens = s.tokens ∧ s'.errors = s.errors
  grown : clean = false → s.marks < s'.marks

theorem Leaves.marks_le {s s' : Parser} {clean : Bool} (h : Leaves s s' clean) :
    s.marks ≤ s'.marks := by
  cases clean with
  | true => rw [marks, marks, (h.same rfl).1, (h.same rfl).2]
  | false => exact (h.grown rfl).le

theorem Leaves.refl (s : Parser) : Leaves s s true := ⟨rfl, rfl, fun _ => ⟨rfl, rfl⟩, nofun⟩

theorem Leaves.trans {s s' s'' : Parser} {c d : Bool} (h : Leaves s s' c) (h' : Leaves s' s'' d) :
    Leaves s s'' (c && d) where
  source := h'.source.trans h.source
  depth := h'.depth.trans h.depth
  same hclean := by
    rw [Bool.and_eq_true] at hclean
    exact ⟨(h'.same hclean.2).1.trans (h.same hclean.1).1,
      (h'.same hclean.2).2.trans (h.same hclean.1).2⟩
  grown hclean := by
    rcases Bool.and_eq_false_iff.mp hclean with rfl | rfl
    · exact (h.grown rfl).trans_le h'.marks_le
    · exact h.marks_le.trans_lt (h'.grown rfl)

end Parser

open Deka.Parsing.Parser

/-! ### Following a reading -/

variable {α β : Type}

/-- From this state, the parse function succeeds with its one outcome, or there is none. -/
def FollowsAt (p : Parse α) (Q : Outcome) (s : Parser) : Prop :=
  match p s with
  | (some _, s') => ∃ clean, Q clean s'.kinds ∧ Leaves s s' clean ∧
      s'.kinds.length ≤ s.kinds.length ∧ ∀ c rest, Q c rest → c = clean ∧ rest = s'.kinds
  | (none, s') => s.marks < s'.marks ∧ s'.source = s.source ∧ s'.depth = s.depth ∧
      ∀ clean rest, ¬ Q clean rest

/-- The parse function follows the reading from every state. -/
def Follows (p : Parse α) (R : Rule) : Prop :=
  ∀ s, FollowsAt p (fun clean rest => R clean s.kinds rest) s

theorem FollowsAt.congr {p : Parse α} {Q Q' : Outcome} {s : Parser} (h : FollowsAt p Q s)
    (hiff : ∀ clean rest, Q clean rest ↔ Q' clean rest) : FollowsAt p Q' s := by
  have hsame : Q = Q' := by
    funext clean rest
    exact propext (hiff clean rest)
  rw [← hsame]
  exact h

theorem bind_apply (p : Parse α) (f : α → Parse β) (s : Parser) :
    (p >>= f) s = Parse.bind p f s := rfl

theorem pure_apply (a : α) (s : Parser) : (pure a : Parse α) s = (some a, s) := rfl

/-- A parse function that only computes a value. -/
theorem followsAt_value {p : Parse α} {s : Parser} {a : α} (hp : p s = (some a, s)) :
    FollowsAt p (fun clean rest => clean = true ∧ rest = s.kinds) s := by
  rw [FollowsAt, hp]
  exact ⟨true, ⟨rfl, rfl⟩, .refl s, le_refl _, fun _ _ h => h⟩

theorem followsAt_pure (a : α) (s : Parser) :
    FollowsAt (pure a : Parse α) (fun clean rest => clean = true ∧ rest = s.kinds) s :=
  followsAt_value rfl

theorem leaves_withError (s : Parser) (message : String) :
    Leaves s (s.withError message) false := by
  refine ⟨rfl, rfl, nofun, fun _ => ?_⟩
  rw [marks, marks, withError]
  simp only [List.length_append, List.length_singleton]
  omega

/-- A parse function that reports and gives up. -/
theorem followsAt_giveUp {p : Parse α} {Q : Outcome} {s : Parser} {message : String}
    (hp : p s = (none, s.withError message)) (hQ : ∀ clean rest, ¬ Q clean rest) :
    FollowsAt p Q s := by
  rw [FollowsAt, hp]
  exact ⟨(leaves_withError s message).grown rfl, rfl, rfl, hQ⟩

theorem FollowsAt.bind {p : Parse α} {f : α → Parse β} {Q : Outcome} {R : Rule} {s : Parser}
    (hp : FollowsAt p Q s)
    (hf : ∀ a s', s'.kinds.length ≤ s.kinds.length →
      FollowsAt (f a) (fun clean rest => R clean s'.kinds rest) s') :
    FollowsAt (p >>= f)
      (fun clean rest => ∃ c d mid, Q c mid ∧ R d mid rest ∧ clean = (c && d)) s := by
  rw [FollowsAt] at hp
  rw [FollowsAt, bind_apply, Parse.bind]
  rcases hps : p s with ⟨- | a, mid⟩ <;> rw [hps] at hp <;> simp only at hp ⊢
  · obtain ⟨hmarks, hsource, hdepth, hnone⟩ := hp
    refine ⟨hmarks, hsource, hdepth, ?_⟩
    rintro clean rest ⟨c, d, middle, hQ, -⟩
    exact hnone c middle hQ
  · obtain ⟨c, hQ, hleaves, hlen, hunique⟩ := hp
    have hnext := hf a mid hlen
    rw [FollowsAt] at hnext
    rcases hfs : f a mid with ⟨- | b, s'⟩ <;> rw [hfs] at hnext <;> simp only at hnext ⊢
    · obtain ⟨hmarks, hsource, hdepth, hnone⟩ := hnext
      refine ⟨hleaves.marks_le.trans_lt hmarks, hsource.trans hleaves.source,
        hdepth.trans hleaves.depth, ?_⟩
      rintro clean rest ⟨c', d, middle, hQ', hR, -⟩
      obtain ⟨-, rfl⟩ := hunique c' middle hQ'
      exact hnone d rest hR
    · obtain ⟨d, hR, hleaves', hlen', hunique'⟩ := hnext
      refine ⟨c && d, ⟨c, d, _, hQ, hR, rfl⟩, hleaves.trans hleaves', hlen'.trans hlen, ?_⟩
      rintro clean rest ⟨c', d', middle, hQ', hR', rfl⟩
      obtain ⟨rfl, rfl⟩ := hunique c' middle hQ'
      obtain ⟨rfl, rfl⟩ := hunique' d' rest hR'
      exact ⟨rfl, rfl⟩

/-- A clean step before the rest of a parse function. -/
theorem FollowsAt.step {p : Parse α} {f : α → Parse β} {Q : Outcome} {s mid : Parser} {a : α}
    (hp : p s = (some a, mid)) (hleaves : Leaves s mid true)
    (hlen : mid.kinds.length ≤ s.kinds.length) (hf : FollowsAt (f a) Q mid) :
    FollowsAt (p >>= f) Q s := by
  rw [FollowsAt] at hf
  rw [FollowsAt, bind_apply, Parse.bind, hp]
  simp only
  rcases hfs : f a mid with ⟨- | b, s'⟩ <;> rw [hfs] at hf <;> simp only at hf ⊢
  · obtain ⟨hmarks, hsource, hdepth, hnone⟩ := hf
    exact ⟨hleaves.marks_le.trans_lt hmarks, hsource.trans hleaves.source,
      hdepth.trans hleaves.depth, hnone⟩
  · obtain ⟨d, hQ, hleaves', hlen', hunique⟩ := hf
    exact ⟨d, hQ, by simpa using hleaves.trans hleaves', hlen'.trans hlen, hunique⟩

/-- A step that only looks at the state. -/
theorem FollowsAt.look {p : Parse α} {f : α → Parse β} {Q : Outcome} {s : Parser} {a : α}
    (hp : p s = (some a, s)) (hf : FollowsAt (f a) Q s) : FollowsAt (p >>= f) Q s :=
  .step hp (.refl s) (le_refl _) hf

/-- What follows only computes the value. -/
theorem FollowsAt.returns {p : Parse α} {f : α → Parse β} {Q : Outcome} {s : Parser}
    (hp : FollowsAt p Q s) (hf : ∀ a s', ∃ b, f a s' = (some b, s')) : FollowsAt (p >>= f) Q s := by
  rw [FollowsAt] at hp
  rw [FollowsAt, bind_apply, Parse.bind]
  rcases hps : p s with ⟨- | a, mid⟩ <;> rw [hps] at hp
  · exact hp
  · obtain ⟨b, hb⟩ := hf a mid
    simp only [hb]
    exact hp

/-! ### Token helpers -/

theorem currentKind_eq (s : Parser) : s.currentKind = s.kinds.headD .eof := by
  rw [currentKind, current, kinds, List.getD_eq_getElem?_getD]
  rcases Nat.lt_or_ge s.pos s.tokens.length with hpos | hpos
  · rw [List.getElem?_eq_getElem hpos, List.drop_eq_getElem_cons hpos]
    rfl
  · rw [List.getElem?_eq_none hpos, List.drop_eq_nil_of_le hpos]
    rfl

/-- At a token other than the end of the file. -/
theorem currentKind_eq_iff {s : Parser} {kind : TokenKind} (hkind : kind ≠ .eof) :
    s.currentKind = kind ↔ s.kinds.head? = some kind := by
  rw [currentKind_eq]
  cases s.kinds with
  | nil => simp [hkind.symm]
  | cons k rest => simp

theorem kinds_advanced {s : Parser} {kind : TokenKind} {rest : List TokenKind}
    (hkind : kind ≠ .eof) (h : s.kinds = kind :: rest) : s.advanced.kinds = rest := by
  have hnot : s.atEnd = false := by
    rw [atEnd, currentKind_eq, h]
    simpa using hkind
  rw [kinds, advanced, hnot]
  show ((s.tokens.drop (s.pos + 1)).map Token.kind) = rest
  rw [← List.tail_drop, List.map_tail]
  exact congrArg List.tail h

theorem leaves_advanced (s : Parser) : Leaves s s.advanced true :=
  ⟨rfl, rfl, fun _ => ⟨rfl, rfl⟩, nofun⟩

/-- The token that is at hand is consumed. -/
theorem FollowsAt.advance {f : Unit → Parse β} {Q : Outcome} {s : Parser} {kind : TokenKind}
    {rest : List TokenKind} (hkind : kind ≠ .eof) (h : s.kinds = kind :: rest)
    (hf : ∀ s', s'.kinds = rest → FollowsAt (f ()) Q s') :
    FollowsAt (Parse.advance >>= f) Q s := by
  have hrest := kinds_advanced hkind h
  refine .step rfl (leaves_advanced s) ?_ (hf _ hrest)
  rw [hrest, h, List.length_cons]
  exact Nat.le_succ _

theorem followsAt_advance {s : Parser} {kind : TokenKind} {tail : List TokenKind}
    (hkind : kind ≠ .eof) (h : s.kinds = kind :: tail) :
    FollowsAt Parse.advance (fun clean rest => clean = true ∧ rest = tail) s := by
  have htail := kinds_advanced hkind h
  rw [FollowsAt, show Parse.advance s = (some (), s.advanced) from rfl]
  refine ⟨true, ⟨rfl, htail⟩, leaves_advanced s, ?_, fun c rest hc => ⟨hc.1, hc.2.trans htail.symm⟩⟩
  rw [htail, h, List.length_cons]
  exact Nat.le_succ _

theorem FollowsAt.isAt {kind : TokenKind} (hkind : kind ≠ .eof) {f : Bool → Parse β} {Q : Outcome}
    {s : Parser} (hyes : ∀ rest, s.kinds = kind :: rest → FollowsAt (f true) Q s)
    (hno : s.kinds.head? ≠ some kind → FollowsAt (f false) Q s) :
    FollowsAt (Parse.isAt kind >>= f) Q s := by
  refine .look (a := s.currentKind == kind) rfl ?_
  by_cases hat : s.kinds.head? = some kind
  · obtain ⟨rest, hrest⟩ : ∃ rest, s.kinds = kind :: rest := by
      rw [List.head?_eq_some_iff] at hat
      exact hat
    rw [beq_iff_eq.mpr ((currentKind_eq_iff hkind).mpr hat)]
    exact hyes rest hrest
  · rw [beq_eq_false_iff_ne.mpr fun h => hat ((currentKind_eq_iff hkind).mp h)]
    exact hno hat

/-- A token that has to be there. -/
theorem FollowsAt.expect {kind : TokenKind} (hkind : kind ≠ .eof) {f : Unit → Parse β} {Q : Outcome}
    {s : Parser}
    (hyes : ∀ rest s', s.kinds = kind :: rest → s'.kinds = rest → FollowsAt (f ()) Q s')
    (hno : s.kinds.head? ≠ some kind → ∀ clean rest, ¬ Q clean rest) :
    FollowsAt (Parse.expect kind >>= f) Q s := by
  by_cases hat : s.kinds.head? = some kind
  · obtain ⟨rest, hrest⟩ := List.head?_eq_some_iff.mp hat
    have hexpect : Parse.expect kind s = (some (), s.advanced) := by
      simp [Parse.expect, Parse.eat, Parse.isAt, Parse.advance, Parse.bind, bind_apply, pure_apply,
        (currentKind_eq_iff hkind).mpr hat]
    refine .step hexpect (leaves_advanced s) ?_ (hyes rest _ hrest (kinds_advanced hkind hrest))
    rw [kinds_advanced hkind hrest, hrest, List.length_cons]
    exact Nat.le_succ _
  · have hexpect : Parse.expect kind s =
        (none, s.withError (Parse.expected s.currentKind ("`" ++ tokenName kind ++ "`"))) := by
      have hne : (s.currentKind == kind) = false :=
        beq_eq_false_iff_ne.mpr fun h => hat ((currentKind_eq_iff hkind).mp h)
      simp [Parse.expect, Parse.eat, Parse.isAt, Parse.getState, Parse.error, Parse.giveUp, Parse.bind,
        bind_apply, pure_apply, hne]
    have hgone : (Parse.expect kind >>= f) s =
        (none, s.withError (Parse.expected s.currentKind ("`" ++ tokenName kind ++ "`"))) := by
      rw [bind_apply, Parse.bind, hexpect]
    exact followsAt_giveUp hgone (hno hat)

theorem skippedNewlines_spec (tokens : List Token) :
    ∀ s : Parser, s.tokens.drop s.pos = tokens →
      (s.skippedNewlines tokens).kinds = skipped s.kinds ∧ Leaves s (s.skippedNewlines tokens) true := by
  induction tokens with
  | nil =>
    intro s hs
    have hkinds : s.kinds = [] := by
      rw [kinds, hs]
      rfl
    show s.kinds = skipped s.kinds ∧ _
    rw [hkinds]
    exact ⟨rfl, .refl s⟩
  | cons t rest ih =>
    intro s hs
    have hkinds : s.kinds = t.kind :: rest.map Token.kind := by
      rw [kinds, hs]
      rfl
    rw [skippedNewlines, hkinds]
    by_cases hnewline : t.kind = .newline
    · rw [if_pos hnewline]
      have hnot : s.atEnd = false := by
        rw [atEnd, currentKind_eq, hkinds, hnewline]
        rfl
      have hdrop : s.advanced.tokens.drop s.advanced.pos = rest := by
        rw [advanced, hnot]
        show s.tokens.drop (s.pos + 1) = rest
        rw [← List.tail_drop, hs]
        rfl
      obtain ⟨hrest, hleaves⟩ := ih s.advanced hdrop
      refine ⟨?_, (leaves_advanced s).trans hleaves⟩
      rw [hrest, kinds, hdrop, hnewline]
      rfl
    · rw [if_neg hnewline, hkinds]
      exact ⟨by simp [skipped, hnewline], .refl s⟩

theorem length_skipped_le (ks : List TokenKind) : (skipped ks).length ≤ ks.length :=
  (List.dropWhile_sublist _).length_le

theorem FollowsAt.skipNewlines {f : Unit → Parse β} {Q : Outcome} {s : Parser}
    (hf : ∀ s', s'.kinds = skipped s.kinds → FollowsAt (f ()) Q s') :
    FollowsAt (Parse.skipNewlines >>= f) Q s := by
  obtain ⟨hkinds, hleaves⟩ := skippedNewlines_spec _ s rfl
  refine .step rfl hleaves ?_ (hf _ hkinds)
  rw [hkinds]
  exact length_skipped_le _

theorem bind_assoc {γ : Type} (p : Parse α) (f : α → Parse β) (g : β → Parse γ) :
    p >>= f >>= g = p >>= fun a => f a >>= g := by
  funext s
  rw [bind_apply, bind_apply, Parse.bind, Parse.bind, bind_apply, Parse.bind]
  rcases p s with ⟨- | a, s'⟩ <;> rfl

/-- A name that has to be there, perhaps after newlines. -/
theorem FollowsAt.expectIdentifier {f : List Char → Parse β} {Q : Outcome} {s : Parser}
    (hyes : ∀ name rest s', skipped s.kinds = .identifier :: rest → s'.kinds = rest →
      FollowsAt (f name) Q s')
    (hno : (skipped s.kinds).head? ≠ some .identifier → ∀ clean rest, ¬ Q clean rest) :
    FollowsAt (Parse.expectIdentifier >>= f) Q s := by
  rw [Parse.expectIdentifier, bind_assoc]
  refine .skipNewlines fun s' hs' => ?_
  rw [bind_assoc]
  refine .isAt (by decide) (fun rest hrest => ?_) fun hnot => ?_
  · show FollowsAt ((Parse.getState >>= fun state => Parse.advance >>= fun _ =>
      pure state.current.text) >>= f) Q s'
    rw [bind_assoc]
    refine .look rfl ?_
    rw [bind_assoc]
    exact .advance (by decide) hrest fun t ht => hyes _ rest t (hs'.symm.trans hrest) ht
  · rw [hs'] at hnot
    exact followsAt_giveUp rfl (hno hnot)

/-- A closing token at the end of a parse function. -/
theorem followsAt_close {kind : TokenKind} (hkind : kind ≠ .eof) {f : Unit → Parse β}
    (hf : ∀ s', ∃ b, f () s' = (some b, s')) (s : Parser) :
    FollowsAt (Parse.expect kind >>= f) (fun clean rest => clean = true ∧ s.kinds = kind :: rest) s := by
  refine .expect hkind (fun tail s' htail hs' => ?_) fun hno => ?_
  · obtain ⟨b, hb⟩ := hf s'
    refine (followsAt_value hb).congr fun clean rest => ?_
    rw [hs', htail]
    simp [eq_comm]
  · rintro clean rest ⟨-, hrest⟩
    rw [hrest] at hno
    exact hno rfl

end Deka.Parsing
