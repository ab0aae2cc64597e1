/-
Deka/NativeIr/Selectors.lean

The selectors of the native tree, and that their queries mean what they say.

Matching walks a stack of pairs of a compound's index and the node it was placed at.  A pair met
before is skipped, and that loses nothing: what the pair leads to has a smaller index and is still
on the stack (`Covered`).  So a match is found exactly when the compounds can be placed along the
ancestors of a node in some way.
-/
import Deka.Lib.Fallible
import Deka.Lib.Forest
import Deka.Lib.Text

namespace Deka.NativeIr

open Deka.Lib

/-! ### Selectors -/

structure Element where
  tag : String
  id : Option String
  classes : String

/-- What `SelectorTree` gives to the matcher. -/
structure SelectorTree (N : Type) extends Forest N where
  element : N → Option Element

def classTokens (classes : String) : List String := Text.splitWhitespace classes

structure Compound where
  tag : Option String := none
  ids : List String := []
  classes : List String := []

inductive Relation where
  | descendant
  | child
  deriving DecidableEq

structure Selector where
  compounds : List Compound
  relations : List Relation
  aligned : compounds.length = relations.length + 1

variable {N : Type}

def Compound.matches (compound : Compound) (tree : SelectorTree N) (node : N) : Bool :=
  match tree.element node with
  | none => false
  | some element =>
    compound.tag.all (fun tag => element.tag == tag) &&
      compound.ids.all (fun id => element.id == some id) &&
      compound.classes.all fun cls => (classTokens element.classes).any fun token => token == cls

/-! ### Parsing -/

/-- The characters ahead, and the bytes behind. -/
structure Parser where
  rest : List Char
  offset : Nat

namespace Parser

def peek (p : Parser) : Option Char := p.rest.head?

def advance (p : Parser) : Parser :=
  match p.rest with
  | [] => p
  | c :: rest => ⟨rest, p.offset + c.utf8Size⟩

def advanceWhile (f : Char → Bool) : List Char → Nat → Parser
  | [], offset => ⟨[], offset⟩
  | c :: rest, offset =>
    if f c then advanceWhile f rest (offset + c.utf8Size) else ⟨c :: rest, offset⟩

def whitespace (p : Parser) : Bool × Parser :=
  let q := advanceWhile Text.isWhitespace p.rest p.offset
  (q.offset != p.offset, q)

def error (p : Parser) (message : String) : String :=
  s!"invalid selector at byte {p.offset}: {message}"

def identifierStart (c : Char) : Bool :=
  c.isAlpha || c == '_' || c == '-' || (127 < c.toNat && !Text.isWhitespace c)

def identifierContinue (c : Char) : Bool := identifierStart c || c.isDigit

def identifier (p : Parser) : Except String (String × Parser) :=
  match p.peek.filter identifierStart with
  | none => .error (p.error "expected an unescaped identifier")
  | some first =>
    let q := p.advance
    if first == '-' && !q.peek.any identifierStart then
      .error (q.error "a leading hyphen needs an identifier character")
    else
      let q := advanceWhile identifierContinue q.rest q.offset
      .ok (String.ofList (p.rest.take (p.rest.length - q.rest.length)), q)

theorem advanceWhile_le (f : Char → Bool) (rest : List Char) (offset : Nat) :
    (advanceWhile f rest offset).rest.length ≤ rest.length := by
  induction rest generalizing offset with
  | nil => simp [advanceWhile]
  | cons c rest ih =>
    rw [advanceWhile]
    split
    · exact (ih _).trans (by simp)
    · simp

theorem advance_le (p : Parser) : p.advance.rest.length ≤ p.rest.length := by
  rw [advance]
  split
  · exact Nat.le_refl _
  · next h => simp [h]

theorem advance_lt {p : Parser} {c : Char} (h : p.peek = some c) :
    p.advance.rest.length < p.rest.length := by
  obtain ⟨rest, offset⟩ := p
  cases rest with
  | nil => cases h
  | cons d rest => simp [advance]

theorem identifier_lt {p q : Parser} {name : String} (h : p.identifier = .ok (name, q)) :
    q.rest.length < p.rest.length := by
  rw [identifier] at h
  split at h
  · cases h
  · next first hfirst =>
    dsimp only at h
    split at h
    · cases h
    · cases h
      obtain ⟨hpeek, -⟩ := Option.filter_eq_some_iff.mp hfirst
      exact (advanceWhile_le _ _ _).trans_lt (advance_lt hpeek)

/-- The ids and classes of a compound. -/
def suffixes (p : Parser) (compound : Compound) : Except String (Compound × Parser) :=
  match p.peek with
  | some '#' =>
    match _hname : p.advance.identifier with
    | .error e => .error e
    | .ok (name, q) => suffixes q { compound with ids := compound.ids ++ [name] }
  | some '.' =>
    match _hname : p.advance.identifier with
    | .error e => .error e
    | .ok (name, q) => suffixes q { compound with classes := compound.classes ++ [name] }
  | _ => .ok (compound, p)
termination_by p.rest.length
decreasing_by
  · exact (identifier_lt _hname).trans_le (advance_le p)
  · exact (identifier_lt _hname).trans_le (advance_le p)

def tag (p : Parser) : Except String (Option String × Parser) := do
  if p.peek.any identifierStart then
    let (tag, p) ← p.identifier
    return (some tag, p)
  else return (none, p)

def compound (p : Parser) : Except String (Compound × Parser) := do
  let (tag, p) ← p.tag
  let (compound, p) ← suffixes p { tag }
  if compound.tag.isNone && compound.ids.isEmpty && compound.classes.isEmpty then
    throw (p.error "expected a tag, #id or .class")
  return (compound, p)

/-- Reading suffixes reads nothing or gets ahead. -/
theorem suffixes_spec (p : Parser) (compound : Compound) {result : Compound} {q : Parser}
    (h : suffixes p compound = .ok (result, q)) :
    (result = compound ∧ q = p) ∨ q.rest.length < p.rest.length := by
  have hstep : ∀ {p next q : Parser} {name : String}, p.advance.identifier = .ok (name, next) →
      q.rest.length ≤ next.rest.length → q.rest.length < p.rest.length :=
    fun hname hle => hle.trans_lt ((identifier_lt hname).trans_le (advance_le _))
  fun_induction suffixes p compound with
  | case1 p compound hpeek e hname => cases h
  | case2 p compound hpeek name next hname ih =>
    refine .inr (hstep hname ?_)
    rcases ih h with ⟨-, rfl⟩ | hlt
    · exact Nat.le_refl _
    · exact hlt.le
  | case3 p compound hpeek e hname => cases h
  | case4 p compound hpeek name next hname ih =>
    refine .inr (hstep hname ?_)
    rcases ih h with ⟨-, rfl⟩ | hlt
    · exact Nat.le_refl _
    · exact hlt.le
  | case5 p compound hhash hdot =>
    cases h
    exact .inl ⟨rfl, rfl⟩

theorem compound_lt {p q : Parser} {result : Compound} (h : p.compound = .ok (result, q)) :
    q.rest.length < p.rest.length := by
  rw [compound] at h
  obtain ⟨⟨name, next⟩, htag, h⟩ := bind_eq_ok.mp h
  obtain ⟨⟨whole, last⟩, hwhole, h⟩ := bind_eq_ok.mp h
  dsimp only at hwhole h
  split at h
  · cases h
  · next hsome =>
    cases h
    rw [tag] at htag
    split at htag
    · obtain ⟨⟨name, after⟩, hname, htag⟩ := bind_eq_ok.mp htag
      cases htag
      rcases suffixes_spec _ _ hwhole with ⟨-, rfl⟩ | hlt
      · exact identifier_lt hname
      · exact hlt.trans (identifier_lt hname)
    · cases htag
      rcases suffixes_spec _ _ hwhole with ⟨rfl, -⟩ | hlt
      · exact absurd rfl hsome
      · exact hlt

theorem whitespace_le (p : Parser) : p.whitespace.2.rest.length ≤ p.rest.length :=
  advanceWhile_le _ _ _

/-- What stands between two compounds; `space` tells whether there was whitespace. -/
def relation (space : Bool) (p : Parser) : Except String (Relation × Parser) :=
  if p.peek = some '>' then .ok (.child, p.advance.whitespace.2)
  else if space then .ok (.descendant, p)
  else .error (p.error "unsupported selector syntax")

theorem relation_le {space : Bool} {p q : Parser} {result : Relation}
    (h : relation space p = .ok (result, q)) : q.rest.length ≤ p.rest.length := by
  rw [relation] at h
  split at h
  · cases h
    exact (whitespace_le _).trans (advance_le p)
  · split at h
    · cases h
      exact Nat.le_refl _
    · cases h

/-- The relations and compounds after the first. -/
def more (p : Parser) (compounds : List Compound) (relations : List Relation)
    (aligned : compounds.length = relations.length + 1) : Except String Selector :=
  let space := p.whitespace.1
  let next := p.whitespace.2
  if next.peek.isNone then .ok { compounds, relations, aligned }
  else
    match hrelation : relation space next with
    | .error e => .error e
    | .ok (relation, q) =>
      match hcompound : q.compound with
      | .error e => .error e
      | .ok (compound, q) =>
        more q (compounds ++ [compound]) (relations ++ [relation]) (by simp [aligned])
termination_by p.rest.length
decreasing_by
  exact (compound_lt hcompound).trans_le ((relation_le hrelation).trans (whitespace_le p))

end Parser

def Selector.parse (source : String) : Except String Selector := do
  let p := (Parser.mk source.toList 0).whitespace.2
  let (compound, p) ← p.compound
  p.more [compound] [] rfl

/-! ### Matching -/

namespace Selector

/-- `Vec::extend` of a stack whose top is its head. -/
def extend {α : Type} (stack items : List α) : List α := items.reverse ++ stack

variable (sel : Selector) (tree : SelectorTree N)

def compound (index : Fin (sel.relations.length + 1)) : Compound :=
  sel.compounds.get (Fin.cast sel.aligned.symm index)

/-- The inner loop: the ancestors at which the compound at `index` may be. -/
def climb (index : Fin sel.relations.length)
    (pending : List (Fin (sel.relations.length + 1) × N)) (node : N) :
    List (Fin (sel.relations.length + 1) × N) :=
  match hparent : tree.parent node with
  | none => pending
  | some ancestor =>
    let pending :=
      if (sel.compound index.castSucc).matches tree ancestor then
        (index.castSucc, ancestor) :: pending
      else pending
    if sel.relations[index] = .child then pending else climb index pending ancestor
termination_by tree.wellFounded_above.wrap node
decreasing_by exact Forest.Above.parent hparent

/-- What a relation asks of a node and one of its ancestors. -/
def Related : Relation → N → N → Prop
  | .child, a, n => tree.parent n = some a
  | .descendant, a, n => tree.Above a n

theorem related_root {relation : Relation} {a n : N} (h : tree.parent n = none) :
    ¬ Related tree relation a n := by
  intro hrel
  cases relation with
  | child => cases h.symm.trans hrel
  | descendant =>
    obtain ⟨b, hb, -⟩ := Forest.above_iff.mp hrel
    cases h.symm.trans hb

/-- The pair pushed for an ancestor, if there is one. -/
theorem exists_candidate (index : Fin sel.relations.length) (a : N)
    (pending : List (Fin (sel.relations.length + 1) × N)) :
    ∃ pushed, (if (sel.compound index.castSucc).matches tree a then
        (index.castSucc, a) :: pending else pending) = pushed ++ pending ∧
      ∀ e, e ∈ pushed ↔ e.1 = index.castSucc ∧ e.2 = a ∧
        (sel.compound index.castSucc).matches tree e.2 = true := by
  split
  · next hmatch =>
    refine ⟨[(index.castSucc, a)], rfl, fun e => ?_⟩
    rw [List.mem_singleton, Prod.ext_iff]
    refine and_congr_right fun _ => ⟨fun h => ⟨h, ?_⟩, fun h => h.1⟩
    rw [show e.2 = a from h]
    exact hmatch
  · next hmatch =>
    refine ⟨[], rfl, fun e => ⟨fun h => absurd h List.not_mem_nil, ?_⟩⟩
    rintro ⟨-, rfl, h⟩
    exact absurd h hmatch

theorem climb_spec (index : Fin sel.relations.length)
    (pending : List (Fin (sel.relations.length + 1) × N)) (node : N) :
    ∃ pushed, sel.climb tree index pending node = pushed ++ pending ∧
      ∀ e, e ∈ pushed ↔ e.1 = index.castSucc ∧ Related tree sel.relations[index] e.2 node ∧
        (sel.compound index.castSucc).matches tree e.2 = true := by
  fun_induction climb sel tree index pending node with
  | case1 pending node hparent =>
    refine ⟨[], rfl, fun e => ⟨fun h => absurd h List.not_mem_nil, ?_⟩⟩
    rintro ⟨-, hrel, -⟩
    exact absurd hrel (related_root tree hparent)
  | case2 pending node ancestor hparent pending' hchild =>
    obtain ⟨pushed, hpushed, hmem⟩ := sel.exists_candidate tree index ancestor pending
    refine ⟨pushed, hpushed, fun e => (hmem e).trans (and_congr_right fun _ => ?_)⟩
    rw [hchild]
    refine and_congr_left fun _ => ?_
    show e.2 = ancestor ↔ tree.parent node = some e.2
    rw [hparent, Option.some_inj, eq_comm]
  | case3 pending node ancestor hparent pending' hchild ih =>
    obtain ⟨pushed, hpushed, hmem⟩ := sel.exists_candidate tree index ancestor pending
    obtain ⟨above, habove, hmem'⟩ := ih
    have hdescendant : sel.relations[index] = .descendant := by
      cases hrel : sel.relations[index] with
      | child => exact absurd hrel hchild
      | descendant => rfl
    refine ⟨above ++ pushed, ?_, fun e => ?_⟩
    · rw [habove, List.append_assoc]
      exact congrArg _ hpushed
    · rw [List.mem_append, hmem, hmem', ← and_or_left, ← or_and_right, hdescendant]
      refine and_congr_right fun _ => and_congr_left fun _ => ?_
      show tree.Above e.2 ancestor ∨ e.2 = ancestor ↔ tree.Above e.2 node
      rw [Forest.above_iff (n := node), hparent, or_comm]
      simp

/-- The matcher's work list, with the pairs it has dealt with. -/
def matchLoop [DecidableEq N] (pending visited : List (Fin (sel.relations.length + 1) × N)) :
    Bool :=
  match pending with
  | [] => false
  | (index, node) :: pending =>
    if h : index = 0 then true
    else if (index, node) ∈ visited then matchLoop pending visited
    else matchLoop (sel.climb tree (index.pred h) pending node) ((index, node) :: visited)
termination_by ((measure fun e : Fin (sel.relations.length + 1) × N => e.1.1).wf.cutExpand).wrap
  (pending : Multiset (Fin (sel.relations.length + 1) × N))
decreasing_by
  · exact cutExpand_push [] (by simp)
  · obtain ⟨pushed, hpushed, hmem⟩ := sel.climb_spec tree (index.pred h) pending node
    rw [hpushed]
    refine cutExpand_push pushed fun e he => ?_
    show e.1 < index
    rw [((hmem e).mp he).1]
    exact Fin.castSucc_pred_lt h

end Selector

/-- Whether the compound at the end of the selector, and those before it, fit a node. -/
def Selector.matches [DecidableEq N] (sel : Selector) (tree : SelectorTree N) (node : N) : Bool :=
  let last := Fin.last sel.relations.length
  if !(sel.compound last).matches tree node then false
  else sel.matchLoop tree [(last, node)] []

/-! ### Placing compounds -/

namespace Selector

variable (sel : Selector) (tree : SelectorTree N)

/-- The compounds before `index` can be placed above the node. -/
inductive Placeable : Fin (sel.relations.length + 1) → N → Prop
  | first (n : N) : Placeable 0 n
  | step {i : Fin sel.relations.length} {a n : N} (related : Related tree sel.relations[i] a n)
      (fits : (sel.compound i.castSucc).matches tree a = true) (above : Placeable i.castSucc a) :
      Placeable i.succ n

/-- Some assignment of the compounds to nodes, the last of them to `n`, satisfies every compound
and every relation. -/
def Satisfies (n : N) : Prop :=
  ∃ place : Fin (sel.relations.length + 1) → N, place (Fin.last _) = n ∧
    (∀ i, (sel.compound i).matches tree (place i) = true) ∧
    ∀ i : Fin sel.relations.length,
      Related tree sel.relations[i] (place i.castSucc) (place i.succ)

variable {sel tree}

theorem placeable_iff {index : Fin (sel.relations.length + 1)} (h : index ≠ 0) {n : N} :
    sel.Placeable tree index n ↔ ∃ a, Related tree sel.relations[index.pred h] a n ∧
      (sel.compound (index.pred h).castSucc).matches tree a = true ∧
        sel.Placeable tree (index.pred h).castSucc a := by
  constructor
  · intro hp
    cases hp with
    | first => exact absurd rfl h
    | step related fits above => exact ⟨_, related, fits, above⟩
  · rintro ⟨a, hrelated, hfits, habove⟩
    have hp := Placeable.step hrelated hfits habove
    rwa [Fin.succ_pred] at hp

theorem placeable_of_place {place : Fin (sel.relations.length + 1) → N}
    (hfits : ∀ i, (sel.compound i).matches tree (place i) = true)
    (hrelated : ∀ i : Fin sel.relations.length,
      Related tree sel.relations[i] (place i.castSucc) (place i.succ))
    (index : Fin (sel.relations.length + 1)) : sel.Placeable tree index (place index) := by
  induction index using Fin.induction with
  | zero => exact .first _
  | succ i ih => exact .step (hrelated i) (hfits i.castSucc) ih

/-- A placement of the compounds before `index`, with the node in the place of `index` itself. -/
theorem Placeable.exists_place {index : Fin (sel.relations.length + 1)} {n : N}
    (h : sel.Placeable tree index n) : ∃ place : Fin (sel.relations.length + 1) → N,
      place index = n ∧ (∀ i < index, (sel.compound i).matches tree (place i) = true) ∧
        ∀ i : Fin sel.relations.length, i.succ ≤ index →
          Related tree sel.relations[i] (place i.castSucc) (place i.succ) := by
  induction h with
  | first n =>
    refine ⟨fun _ => n, rfl, fun i hi => absurd hi (Fin.not_lt_zero i), fun i hi => ?_⟩
    exact absurd (Fin.le_zero_iff.mp hi) (Fin.succ_ne_zero i)
  | @step i a n hrelated hfits _ ih =>
    obtain ⟨place, rfl, hbefore, hrel⟩ := ih
    have hsame : ∀ j, j ≤ i.castSucc → Function.update place i.succ n j = place j :=
      fun j hj => Function.update_of_ne (hj.trans_lt (Fin.castSucc_lt_succ)).ne n place
    refine ⟨Function.update place i.succ n, Function.update_self _ _ _, fun j hj => ?_,
      fun j hj => ?_⟩
    · have hle : j ≤ i.castSucc := Fin.le_castSucc_iff.mpr hj
      rw [hsame j hle]
      rcases hle.eq_or_lt with rfl | hlt
      · exact hfits
      · exact hbefore j hlt
    · have hle : j ≤ i := Fin.succ_le_succ_iff.mp hj
      rw [hsame j.castSucc (Fin.castSucc_le_castSucc_iff.mpr hle)]
      rcases hle.eq_or_lt with rfl | hlt
      · rw [Function.update_self]
        exact hrelated
      · rw [hsame j.succ (Fin.succ_le_castSucc_iff.mpr hlt)]
        exact hrel j (Fin.succ_le_castSucc_iff.mpr hlt)

theorem satisfies_iff {n : N} : sel.Satisfies tree n ↔
    (sel.compound (Fin.last _)).matches tree n = true ∧ sel.Placeable tree (Fin.last _) n := by
  constructor
  · rintro ⟨place, rfl, hfits, hrelated⟩
    exact ⟨hfits _, placeable_of_place hfits hrelated _⟩
  · rintro ⟨hlast, hp⟩
    obtain ⟨place, rfl, hbefore, hrelated⟩ := hp.exists_place
    refine ⟨place, rfl, fun i => ?_, fun i => hrelated i (Fin.le_last _)⟩
    rcases (Fin.le_last i).eq_or_lt with rfl | hlt
    · exact hlast
    · exact hbefore i hlt

/-! ### The work list -/

/-- What a pair that is dealt with leads to is still to come, at a smaller index. -/
def Covered (sel : Selector) (tree : SelectorTree N)
    (pending visited : List (Fin (sel.relations.length + 1) × N)) : Prop :=
  ∀ v ∈ visited, sel.Placeable tree v.1 v.2 →
    ∃ e ∈ pending, e.1 < v.1 ∧ sel.Placeable tree e.1 e.2

/-- A pair met again may be skipped. -/
theorem Covered.skip {pending visited : List (Fin (sel.relations.length + 1) × N)}
    {e : Fin (sel.relations.length + 1) × N} (h : Covered sel tree (e :: pending) visited)
    (he : e ∈ visited) : Covered sel tree pending visited := by
  -- what covers the pair itself is further down
  have hbelow : sel.Placeable tree e.1 e.2 → ∃ f ∈ pending, f.1 < e.1 ∧
      sel.Placeable tree f.1 f.2 := by
    intro hp
    obtain ⟨f, hf, hlt, hpf⟩ := h e he hp
    rcases List.mem_cons.mp hf with rfl | hf
    · exact absurd hlt (lt_irrefl _)
    · exact ⟨f, hf, hlt, hpf⟩
  intro v hv hp
  obtain ⟨f, hf, hlt, hpf⟩ := h v hv hp
  rcases List.mem_cons.mp hf with rfl | hf
  · obtain ⟨g, hg, hlt', hpg⟩ := hbelow hpf
    exact ⟨g, hg, hlt'.trans hlt, hpg⟩
  · exact ⟨f, hf, hlt, hpf⟩

theorem Covered.push {pending pushed visited : List (Fin (sel.relations.length + 1) × N)}
    {e : Fin (sel.relations.length + 1) × N} (h : Covered sel tree (e :: pending) visited)
    (hpushed : sel.Placeable tree e.1 e.2 → ∃ f ∈ pushed, f.1 < e.1 ∧
      sel.Placeable tree f.1 f.2) : Covered sel tree (pushed ++ pending) (e :: visited) := by
  have hself : sel.Placeable tree e.1 e.2 → ∃ f ∈ pushed ++ pending, f.1 < e.1 ∧
      sel.Placeable tree f.1 f.2 := by
    intro hp
    obtain ⟨f, hf, hrest⟩ := hpushed hp
    exact ⟨f, List.mem_append_left _ hf, hrest⟩
  intro v hv hp
  rcases List.mem_cons.mp hv with rfl | hv
  · exact hself hp
  · obtain ⟨f, hf, hlt, hpf⟩ := h v hv hp
    rcases List.mem_cons.mp hf with rfl | hf
    · obtain ⟨g, hg, hlt', hpg⟩ := hself hpf
      exact ⟨g, hg, hlt'.trans hlt, hpg⟩
    · exact ⟨f, List.mem_append_right _ hf, hlt, hpf⟩

theorem matchLoop_iff [DecidableEq N]
    {pending visited : List (Fin (sel.relations.length + 1) × N)}
    (h : Covered sel tree pending visited) : sel.matchLoop tree pending visited = true ↔
      ∃ e ∈ pending, sel.Placeable tree e.1 e.2 := by
  fun_induction matchLoop sel tree pending visited with
  | case1 visited => simp
  | case2 visited node pending =>
    exact iff_of_true rfl ⟨_, List.mem_cons_self, .first node⟩
  | case3 visited index node pending hne hvisited ih =>
    rw [ih (h.skip hvisited), List.exists_mem_cons_iff]
    refine (or_iff_right_of_imp fun hp => ?_).symm
    obtain ⟨e, he, hlt, hpe⟩ := h _ hvisited hp
    rcases List.mem_cons.mp he with rfl | he
    · exact absurd hlt (lt_irrefl _)
    · exact ⟨e, he, hpe⟩
  | case4 visited index node pending hne hvisited ih =>
    obtain ⟨pushed, hpushed, hmem⟩ := sel.climb_spec tree (index.pred hne) pending node
    -- a pair is as good as the pairs it is replaced by
    have hreplace : sel.Placeable tree index node ↔ ∃ e ∈ pushed, sel.Placeable tree e.1 e.2 := by
      rw [placeable_iff hne]
      constructor
      · rintro ⟨a, hrelated, hfits, hp⟩
        exact ⟨(_, a), (hmem _).mpr ⟨rfl, hrelated, hfits⟩, hp⟩
      · rintro ⟨⟨i, a⟩, he, hp⟩
        obtain ⟨rfl, hrelated, hfits⟩ := (hmem _).mp he
        exact ⟨a, hrelated, hfits, hp⟩
    have hcovered : Covered sel tree (pushed ++ pending) ((index, node) :: visited) := by
      refine h.push fun hp => ?_
      obtain ⟨e, he, hpe⟩ := hreplace.mp hp
      refine ⟨e, he, ?_, hpe⟩
      rw [((hmem e).mp he).1]
      exact Fin.castSucc_pred_lt hne
    rw [hpushed] at ih ⊢
    rw [ih hcovered, List.exists_mem_cons_iff, hreplace]
    simp only [List.mem_append, or_and_right, exists_or]

theorem matches_iff [DecidableEq N] {n : N} :
    sel.matches tree n = true ↔ sel.Satisfies tree n := by
  rw [satisfies_iff, Selector.matches]
  cases hlast : (sel.compound (Fin.last sel.relations.length)).matches tree n with
  | false => simp
  | true =>
    have hcovered : Covered sel tree [(Fin.last sel.relations.length, n)] [] :=
      fun v hv => absurd hv List.not_mem_nil
    simp [matchLoop_iff hcovered]

/-! ### Queries -/

variable (sel tree)

def queryLoop [DecidableEq N] (firstOnly : Bool) (pending matched : List N) : List N :=
  match pending with
  | [] => matched
  | node :: pending =>
    if sel.matches tree node then
      if firstOnly then matched ++ [node]
      else queryLoop firstOnly (extend pending (tree.children node).reverse) (matched ++ [node])
    else queryLoop firstOnly (extend pending (tree.children node).reverse) matched
termination_by (tree.wellFounded_below.cutExpand).wrap (pending : Multiset N)
decreasing_by
  all_goals
    rw [extend, List.unattach_reverse, List.unattach_attach, List.reverse_reverse]
    exact cutExpand_push _ fun m hm => Forest.Above.parent ((tree.mem_children node m).mp hm)

def query [DecidableEq N] (root : N) (firstOnly : Bool) : List N :=
  sel.queryLoop tree firstOnly [root] []

def queryAll [DecidableEq N] (root : N) : List N := sel.query tree root false

def queryFirst [DecidableEq N] (root : N) : Option N := (sel.query tree root true).head?

variable {sel tree}

/-- What the walk has still to find. -/
def ahead [DecidableEq N] (sel : Selector) (tree : SelectorTree N) (pending : List N) : List N :=
  (pending.flatMap tree.preorder).filter fun n => sel.matches tree n

theorem ahead_cons [DecidableEq N] (n : N) (pending : List N) :
    ahead sel tree (n :: pending) = (if sel.matches tree n then [n] else []) ++
      ahead sel tree (extend pending (tree.children n).reverse) := by
  rw [ahead, ahead, extend, List.reverse_reverse, List.flatMap_cons, Forest.preorder_eq,
    List.flatMap_append, List.cons_append, List.filter_cons]
  split <;> rfl

theorem queryLoop_eq [DecidableEq N] (firstOnly : Bool) (pending matched : List N) :
    sel.queryLoop tree firstOnly pending matched = matched ++
      if firstOnly then (ahead sel tree pending).take 1 else ahead sel tree pending := by
  fun_induction queryLoop sel tree firstOnly pending matched with
  | case1 matched => cases firstOnly <;> exact (List.append_nil matched).symm
  | case2 matched node pending hmatch hfirst =>
    rw [ahead_cons, if_pos hmatch, if_pos hfirst]
    rfl
  | case3 matched node pending hmatch hfirst ih =>
    rw [List.unattach_reverse, List.unattach_attach] at ih
    rw [ih, ahead_cons, if_pos hmatch, if_neg hfirst, if_neg hfirst, List.append_assoc]
  | case4 matched node pending hmatch ih =>
    rw [List.unattach_reverse, List.unattach_attach] at ih
    rw [ih, ahead_cons, if_neg hmatch]
    rfl

end Selector

end Deka.NativeIr
