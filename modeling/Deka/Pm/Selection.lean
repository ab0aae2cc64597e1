/-
Deka/Pm/Selection.lean

Selecting a version and checking one mean the same.

`selectBest` and `satisfies` read the constraint through one parser and a version text after
the same trimming (`versionText`).  A catalog stands for the set of the versions its entries
parse to; the selection depends on that set only, since the order of versions is total.
-/
import Mathlib.Order.Basic
import Deka.Lib.Fallible
import Deka.Pm.ResolveExact

namespace Deka.Pm

open Deka.Lib

variable {V R : Type} [Semver V R]

/-- What the crate documents of its versions: a total order, and a text that starts with a
digit, has no space in it and parses back. -/
structure Semver.Documented (V R : Type) [Semver V R] : Prop where
  trans : Std.TransCmp (Semver.cmp R : V → V → Ordering)
  eq : Std.LawfulEqCmp (Semver.cmp R : V → V → Ordering)
  parse_toText : ∀ v : V, Semver.parse R (Semver.toText R v) = .ok v
  digit : ∀ v : V, ∃ c rest, (Semver.toText R v).toList = c :: rest ∧ c.isDigit = true
  solid : ∀ v : V, ∀ c ∈ (Semver.toText R v).toList, Text.isWhitespace c = false

/-! ### The greatest version -/

section Maximum

theorem foldl_mem (vs : List V) (v : V) :
    vs.foldl (fun best v => if Semver.cmp R best v = .gt then best else v) v ∈ v :: vs := by
  induction vs generalizing v with
  | nil => exact List.mem_singleton.mpr rfl
  | cons w vs ih =>
    rw [List.foldl_cons]
    rcases List.mem_cons.mp (ih (if Semver.cmp R v w = .gt then v else w)) with heq | hmem
    · rw [heq]
      split
      · exact List.mem_cons_self
      · exact List.mem_cons_of_mem _ List.mem_cons_self
    · exact List.mem_cons_of_mem _ (List.mem_cons_of_mem _ hmem)

theorem maximum_mem {vs : List V} {v : V} (h : maximum R vs = some v) : v ∈ vs := by
  cases vs with
  | nil => cases h
  | cons w vs =>
    cases h
    exact foldl_mem vs w

theorem le_foldl (h : Semver.Documented V R) (vs : List V) (v : V) :
    ∀ w ∈ v :: vs, (Semver.cmp R w
      (vs.foldl (fun best v => if Semver.cmp R best v = .gt then best else v) v)).isLE := by
  have := h.trans
  have := h.eq
  induction vs generalizing v with
  | nil =>
    intro w hw
    rw [List.mem_singleton.mp hw]
    exact Std.ReflCmp.isLE_rfl
  | cons u vs ih =>
    rw [List.foldl_cons]
    have hrest := ih (if Semver.cmp R v u = .gt then v else u)
    have hbest := hrest _ List.mem_cons_self
    intro w hw
    have hstep : ∀ x, x = v ∨ x = u →
        (Semver.cmp R x (if Semver.cmp R v u = .gt then v else u)).isLE := by
      intro x hx
      split
      · next hgt =>
        rcases hx with rfl | rfl
        · exact Std.ReflCmp.isLE_rfl
        · exact Std.OrientedCmp.isLE_of_isGE (Ordering.isGE_of_eq_gt hgt)
      · next hle =>
        rcases hx with rfl | rfl
        · exact Ordering.isLE_iff_ne_gt.mpr hle
        · exact Std.ReflCmp.isLE_rfl
    rcases List.mem_cons.mp hw with rfl | hw
    · exact Std.TransCmp.isLE_trans (hstep w (.inl rfl)) hbest
    · rcases List.mem_cons.mp hw with rfl | hw
      · exact Std.TransCmp.isLE_trans (hstep w (.inr rfl)) hbest
      · exact hrest w (List.mem_cons_of_mem _ hw)

theorem le_maximum (h : Semver.Documented V R) {vs : List V} {v : V}
    (hmax : maximum R vs = some v) : ∀ w ∈ vs, (Semver.cmp R w v).isLE := by
  cases vs with
  | nil => cases hmax
  | cons u vs =>
    cases hmax
    exact le_foldl h vs u

theorem maximum_eq_none {vs : List V} (h : maximum R vs = none) : vs = [] := by
  cases vs with
  | nil => rfl
  | cons v vs => cases h

/-- The greatest version depends on the versions only. -/
theorem maximum_congr (h : Semver.Documented V R) {vs ws : List V} (hsame : ∀ v, v ∈ vs ↔ v ∈ ws) :
    maximum R vs = maximum R ws := by
  have := h.trans
  have := h.eq
  rcases hv : maximum R vs with - | v
  · have hnil := maximum_eq_none hv
    have hws : ws = [] := List.eq_nil_iff_forall_not_mem.mpr fun w hw => by
      have := (hsame w).mpr hw
      rw [hnil] at this
      cases this
    rw [hws]
    rfl
  · rcases hw : maximum R ws with - | w
    · have hmem := (hsame v).mp (maximum_mem hv)
      rw [maximum_eq_none hw] at hmem
      cases hmem
    · have hle := le_maximum h hv w ((hsame w).mpr (maximum_mem hw))
      have hge := le_maximum h hw v ((hsame v).mp (maximum_mem hv))
      exact congrArg some (Std.LawfulEqCmp.eq_of_compare (Std.OrientedCmp.isLE_antisymm hge hle))

end Maximum

/-! ### The versions of a catalog -/

/-- The text of a version, in the catalog or elsewhere. -/
def versionText (raw : String) : String := Text.trimStartMatches 'v' (Text.trim raw)

/-- The texts of the versions in a catalog; an entry without one is passed over. -/
def Listed (versions : List String) (text : String) : Prop :=
  ∃ raw ∈ versions, versionText raw = text ∧ text.isEmpty = false

/-- A version that the catalog lists. -/
def Published (V R : Type) [Semver V R] (versions : List String) (v : V) : Prop :=
  ∃ text, Listed versions text ∧ Semver.parse R text = .ok v

theorem listed_cons_of_blank {raw : String} {versions : List String} {text : String}
    (h : (versionText raw).isEmpty = true) :
    Listed (raw :: versions) text ↔ Listed versions text := by
  simp only [Listed, List.exists_mem_cons_iff, or_iff_right_iff_imp]
  rintro ⟨rfl, hne⟩
  rw [h] at hne
  cases hne

theorem listed_cons {raw : String} {versions : List String} {text : String}
    (h : (versionText raw).isEmpty = false) :
    Listed (raw :: versions) text ↔ text = versionText raw ∨ Listed versions text := by
  simp only [Listed, List.exists_mem_cons_iff]
  refine or_congr_left ⟨fun hraw => hraw.1.symm, ?_⟩
  rintro rfl
  exact ⟨rfl, h⟩

theorem parseCatalog_cons (raw : String) (versions : List String) :
    parseCatalog V R (raw :: versions) =
      if (versionText raw).isEmpty then parseCatalog V R versions
      else
        match Semver.parse R (versionText raw) with
        | .error err => .error s!"registry version `{raw}` is not semver: {err}"
        | .ok (version : V) =>
          match parseCatalog V R versions with
          | .error err => .error err
          | .ok versions => .ok (version :: versions) := by
  rw [parseCatalog]
  rfl

/-- A catalog that is read holds the versions it lists, and every text it lists is one. -/
theorem parseCatalog_ok {versions : List String} {parsed : List V}
    (h : parseCatalog V R versions = .ok parsed) :
    (∀ v, v ∈ parsed ↔ Published V R versions v) ∧
      ∀ text, Listed versions text → ∃ v : V, Semver.parse R text = .ok v := by
  induction versions generalizing parsed with
  | nil =>
    cases h
    simp [Published, Listed]
  | cons raw versions ih =>
    rw [parseCatalog_cons] at h
    split at h
    · next hblank =>
      simp only [Published, listed_cons_of_blank hblank]
      exact ih h
    · next hsome =>
      rw [Bool.not_eq_true] at hsome
      simp only [Published, listed_cons hsome]
      split at h
      · cases h
      · next version hversion =>
        split at h
        · cases h
        · next rest hrest =>
          cases h
          obtain ⟨hmem, hall⟩ := ih hrest
          refine ⟨fun v => ?_, ?_⟩
          · rw [List.mem_cons, hmem, Published]
            constructor
            · rintro (rfl | ⟨text, hlisted, hparse⟩)
              · exact ⟨_, .inl rfl, hversion⟩
              · exact ⟨text, .inr hlisted, hparse⟩
            · rintro ⟨text, rfl | hlisted, hparse⟩
              · rw [hversion] at hparse
                cases hparse
                exact .inl rfl
              · exact .inr ⟨text, hlisted, hparse⟩
          · rintro text (rfl | hlisted)
            · exact ⟨version, hversion⟩
            · exact hall text hlisted

/-- A catalog is not read when it lists a text that is no version. -/
theorem parseCatalog_error {versions : List String} {e : String}
    (h : parseCatalog V R versions = .error e) :
    ∃ text, Listed versions text ∧ ∃ err, (Semver.parse R text : Except String V) = .error err := by
  induction versions generalizing e with
  | nil => cases h
  | cons raw versions ih =>
    rw [parseCatalog_cons] at h
    split at h
    · next hblank =>
      simp only [listed_cons_of_blank hblank]
      exact ih h
    · next hsome =>
      rw [Bool.not_eq_true] at hsome
      simp only [listed_cons hsome]
      split at h
      · next err herr => exact ⟨versionText raw, .inl rfl, err, herr⟩
      · split at h
        · next err hrest =>
          obtain ⟨text, hlisted, herr⟩ := ih hrest
          exact ⟨text, .inr hlisted, herr⟩
        · cases h

/-! ### Selection -/

variable [DecidableEq V]

/-- The versions that `selectBest` takes the greatest of. -/
def candidates (constraint : Constraint V R) (parsed : List V) : List V :=
  let matching := parsed.filter fun version => constraintMatches R constraint version
  match constraint with
  | .any => if matching.isEmpty then parsed else matching
  | _ => matching

theorem selectBest_eq (constraintRaw : String) (versions : List String) :
    selectBest V R constraintRaw versions =
      (parseConstraint constraintRaw >>= fun constraint : Constraint V R =>
        parseCatalog V R versions >>= fun parsed =>
          match maximum R (candidates constraint parsed) with
          | some version => .ok (Semver.toText R version)
          | none => .error (describeNoMatch R constraintRaw parsed)) := by
  rfl

/-- Without a constraint the releases are taken, or everything if there is none. -/
theorem mem_candidates_any {parsed : List V} {v : V} :
    v ∈ candidates (.any : Constraint V R) parsed ↔
      v ∈ parsed ∧ (Semver.isRelease R v = true ∨ ∀ w ∈ parsed, Semver.isRelease R w = false) := by
  have hempty : (parsed.filter fun version => constraintMatches R .any version).isEmpty = true ↔
      ∀ w ∈ parsed, Semver.isRelease R w = false := by
    simp [constraintMatches]
  simp only [candidates]
  split
  · next h =>
    rw [hempty] at h
    exact ⟨fun hv => ⟨hv, .inr h⟩, And.left⟩
  · next h =>
    rw [hempty] at h
    simp [List.mem_filter, constraintMatches, h]

/-- The candidates depend on the versions only. -/
theorem mem_candidates_congr {constraint : Constraint V R} {vs ws : List V}
    (hsame : ∀ v, v ∈ vs ↔ v ∈ ws) (v : V) :
    v ∈ candidates constraint vs ↔ v ∈ candidates constraint ws := by
  cases constraint with
  | any => simp only [mem_candidates_any, hsame]
  | exact version => simp only [candidates, List.mem_filter, hsame]
  | range req => simp only [candidates, List.mem_filter, hsame]

/-- `w` is a better answer to the constraint than `v`: for no constraint a release is better
than a pre-release, and otherwise a greater version. -/
def Preferred (V R : Type) [Semver V R] (constraintRaw : String) (w v : V) : Prop :=
  match (parseConstraint constraintRaw : Except String (Constraint V R)) with
  | .ok .any =>
      (Semver.isRelease R w = true ∧ Semver.isRelease R v = false) ∨
        (Semver.isRelease R w = Semver.isRelease R v ∧ Semver.cmp R w v = .gt)
  | _ => Semver.cmp R w v = .gt

omit [DecidableEq V] in
/-- Nothing is trimmed from the text of a version. -/
theorem versionText_toText (h : Semver.Documented V R) (v : V) :
    versionText (Semver.toText R v) = Semver.toText R v ∧
      (Semver.toText R v).isEmpty = false := by
  obtain ⟨c, rest, htext, hdigit⟩ := h.digit v
  have hfront : ∀ d ∈ (Semver.toText R v).toList.head?, Text.isWhitespace d = false := fun d hd =>
    h.solid v d (List.mem_of_mem_head? hd)
  have hback : ∀ d ∈ (Semver.toText R v).toList.reverse.head?, Text.isWhitespace d = false :=
    fun d hd => h.solid v d (List.mem_reverse.mp (List.mem_of_mem_head? hd))
  have hv : ∀ d ∈ (Semver.toText R v).toList.head?, (d == 'v') = false := fun d hd => by
    rw [htext, List.head?_cons, Option.mem_some_iff] at hd
    subst hd
    refine beq_eq_false_iff_ne.mpr ?_
    rintro rfl
    cases hdigit
  refine ⟨?_, ?_⟩
  · rw [versionText, Text.trim_eq_self hfront hback, Text.trimStartMatches,
      Text.dropWhile_eq_self hv, String.ofList_toList]
  · rw [← Bool.not_eq_true, String.isEmpty_iff]
    intro hempty
    rw [hempty] at htext
    cases htext

/-- A version satisfies a constraint by its text exactly if it satisfies it. -/
theorem satisfies_eq (constraintRaw raw : String) :
    satisfies V R constraintRaw raw =
      match (parseConstraint constraintRaw : Except String (Constraint V R)) with
      | .error _ => false
      | .ok .any => true
      | .ok constraint =>
        match (Semver.parse R (versionText raw) : Except String V) with
        | .error _ => false
        | .ok version => constraintMatches R constraint version := rfl

/-- The entries of the catalogs come down to the same texts: neither the order nor repeated
entries, leading `v`s or spaces around an entry make a difference. -/
def SameVersions (versions versions' : List String) : Prop :=
  ∀ text, Listed versions text ↔ Listed versions' text

/-- No candidate beats the selected one, and nothing that satisfies the constraint beats all
candidates. -/
theorem not_preferred {constraintRaw raw : String} {constraint : Constraint V R}
    (hc : parseConstraint constraintRaw = .ok constraint) {parsed : List V} {v w : V}
    (hv : v ∈ candidates constraint parsed)
    (hbest : ∀ u ∈ candidates constraint parsed, (Semver.cmp R u v).isLE) (hw : w ∈ parsed)
    (hparse : Semver.parse R (versionText raw) = .ok w)
    (hsat : satisfies V R constraintRaw raw = true) : ¬ Preferred V R constraintRaw w v := by
  rw [satisfies_eq, hc] at hsat
  rw [Preferred, hc]
  cases constraint with
  | any =>
    rw [mem_candidates_any] at hv
    rintro (⟨hrelease, hpre⟩ | ⟨hsame, hgt⟩)
    · rcases hv.2 with hrel | hnone
      · rw [hpre] at hrel
        cases hrel
      · rw [hnone w hw] at hrelease
        cases hrelease
    · have hle := hbest w (mem_candidates_any.mpr ⟨hw, by rw [hsame]; exact hv.2⟩)
      rw [hgt] at hle
      cases hle
  | exact version =>
    simp only [hparse] at hsat
    intro hgt
    have hle := hbest w (List.mem_filter.mpr ⟨hw, hsat⟩)
    rw [hgt] at hle
    cases hle
  | range req =>
    simp only [hparse] at hsat
    intro hgt
    have hle := hbest w (List.mem_filter.mpr ⟨hw, hsat⟩)
    rw [hgt] at hle
    cases hle

theorem mem_of_mem_candidates {constraint : Constraint V R} {parsed : List V} {v : V}
    (h : v ∈ candidates constraint parsed) : v ∈ parsed := by
  cases constraint with
  | any => exact (mem_candidates_any.mp h).1
  | exact version => exact List.mem_of_mem_filter h
  | range req => exact List.mem_of_mem_filter h

theorem satisfies_candidate (h : Semver.Documented V R) {constraintRaw : String}
    {constraint : Constraint V R} (hc : parseConstraint constraintRaw = .ok constraint)
    {parsed : List V} {v : V} (hv : v ∈ candidates constraint parsed) :
    satisfies V R constraintRaw (Semver.toText R v) = true := by
  rw [satisfies_eq, hc, (versionText_toText h v).1, h.parse_toText]
  cases constraint with
  | any => rfl
  | exact version => exact (List.mem_filter.mp hv).2
  | range req => exact (List.mem_filter.mp hv).2

theorem selectBest_ok (h : Semver.Documented V R) {constraintRaw : String}
    {versions : List String} {text : String}
    (hok : selectBest V R constraintRaw versions = .ok text) :
    ∃ v : V, Published V R versions v ∧ text = Semver.toText R v ∧
      satisfies V R constraintRaw text = true ∧
      ∀ raw ∈ versions, ∀ w : V, Semver.parse R (versionText raw) = .ok w →
        (versionText raw).isEmpty = false → satisfies V R constraintRaw raw = true →
          ¬ Preferred V R constraintRaw w v := by
  rw [selectBest_eq] at hok
  obtain ⟨constraint, hc, hok⟩ := bind_eq_ok.mp hok
  obtain ⟨parsed, hp, hok⟩ := bind_eq_ok.mp hok
  obtain ⟨hmem, -⟩ := parseCatalog_ok hp
  split at hok
  · next v hmax =>
    cases hok
    have hv := maximum_mem hmax
    refine ⟨v, (hmem v).mp (mem_of_mem_candidates hv), rfl, satisfies_candidate h hc hv, ?_⟩
    intro raw hraw w hparse hsome hsat
    have hw : w ∈ parsed := (hmem w).mpr ⟨versionText raw, ⟨raw, hraw, rfl, hsome⟩, hparse⟩
    exact not_preferred hc hv (le_maximum h hmax) hw hparse hsat
  · cases hok

theorem selectBest_error {constraintRaw : String} {versions : List String} {e : String}
    (herr : selectBest V R constraintRaw versions = .error e) :
    (∀ raw ∈ versions, (versionText raw).isEmpty = false →
      satisfies V R constraintRaw raw = false) ∨
    ∃ text, Listed versions text ∧ ∃ err, (Semver.parse R text : Except String V) = .error err := by
  rw [selectBest_eq] at herr
  rcases hc : (parseConstraint constraintRaw : Except String (Constraint V R)) with err | constraint
  · exact .inl fun raw _ _ => by rw [satisfies_eq, hc]
  · rw [hc, ok_bind] at herr
    rcases hp : parseCatalog V R versions with err | parsed
    · exact .inr (parseCatalog_error hp)
    · rw [hp, ok_bind] at herr
      obtain ⟨hmem, hall⟩ := parseCatalog_ok hp
      split at herr
      · cases herr
      · next hmax =>
        refine .inl fun raw hraw hsome => ?_
        have hlisted : Listed versions (versionText raw) := ⟨raw, hraw, rfl, hsome⟩
        obtain ⟨w, hparse⟩ := hall _ hlisted
        have hw : w ∈ parsed := (hmem w).mpr ⟨_, hlisted, hparse⟩
        have hnone := maximum_eq_none hmax
        have hno : ∀ u : V, u ∉ candidates constraint parsed := fun u hu => by
          rw [hnone] at hu
          cases hu
        rw [satisfies_eq, hc, hparse]
        cases constraint with
        | any =>
          -- with something listed, something is selected
          by_cases hrel : ∃ u ∈ parsed, Semver.isRelease R u = true
          · obtain ⟨u, hu, hrel⟩ := hrel
            exact absurd (mem_candidates_any.mpr ⟨hu, .inl hrel⟩) (hno u)
          · have hpre : ∀ u ∈ parsed, Semver.isRelease R u = false := fun u hu =>
              Bool.not_eq_true _ ▸ fun hr => hrel ⟨u, hu, hr⟩
            exact absurd (mem_candidates_any.mpr ⟨hw, .inr hpre⟩) (hno w)
        | exact version =>
          exact Bool.eq_false_iff.mpr fun hm => hno w (List.mem_filter.mpr ⟨hw, hm⟩)
        | range req =>
          exact Bool.eq_false_iff.mpr fun hm => hno w (List.mem_filter.mpr ⟨hw, hm⟩)

/-- The answer depends on the listed versions only. -/
theorem selectBest_congr (h : Semver.Documented V R) (constraintRaw : String)
    {versions versions' : List String} (hsame : SameVersions versions versions') :
    (selectBest V R constraintRaw versions).toOption =
      (selectBest V R constraintRaw versions').toOption := by
  have hpublished : ∀ v : V, Published V R versions v ↔ Published V R versions' v := fun v =>
    exists_congr fun text => and_congr_left' (hsame text)
  rw [selectBest_eq, selectBest_eq]
  rcases (parseConstraint constraintRaw : Except String (Constraint V R)) with err | constraint
  · rfl
  · rw [ok_bind, ok_bind]
    rcases hp : parseCatalog V R versions with err | parsed <;>
      rcases hp' : parseCatalog V R versions' with err' | parsed'
    · rfl
    · obtain ⟨text, hlisted, e, hbad⟩ := parseCatalog_error hp
      obtain ⟨v, hgood⟩ := (parseCatalog_ok hp').2 text ((hsame text).mp hlisted)
      rw [hbad] at hgood
      cases hgood
    · obtain ⟨text, hlisted, e, hbad⟩ := parseCatalog_error hp'
      obtain ⟨v, hgood⟩ := (parseCatalog_ok hp).2 text ((hsame text).mpr hlisted)
      rw [hbad] at hgood
      cases hgood
    · have hmem : ∀ v, v ∈ parsed ↔ v ∈ parsed' := fun v =>
        ((parseCatalog_ok hp).1 v).trans ((hpublished v).trans ((parseCatalog_ok hp').1 v).symm)
      rw [ok_bind, ok_bind, maximum_congr h (mem_candidates_congr hmem)]
      split <;> rfl

/-- A selected version is listed, satisfies the constraint, and no listed version that satisfies
it is preferred; where none is selected, none satisfies it, unless an entry of the catalog is no
version at all; and the answer depends on the listed versions only. -/
theorem selectBest_agrees (h : Semver.Documented V R) (constraintRaw : String)
    (versions : List String) :
    (∀ text, selectBest V R constraintRaw versions = .ok text →
      ∃ v : V, Published V R versions v ∧ text = Semver.toText R v ∧
        satisfies V R constraintRaw text = true ∧
        ∀ raw ∈ versions, ∀ w : V, Semver.parse R (versionText raw) = .ok w →
          (versionText raw).isEmpty = false → satisfies V R constraintRaw raw = true →
            ¬ Preferred V R constraintRaw w v) ∧
    (∀ e, selectBest V R constraintRaw versions = .error e →
      (∀ raw ∈ versions, (versionText raw).isEmpty = false →
        satisfies V R constraintRaw raw = false) ∨
      ∃ text, Listed versions text ∧ ∃ err, (Semver.parse R text : Except String V) = .error err) ∧
    ∀ versions', SameVersions versions versions' →
      (selectBest V R constraintRaw versions).toOption =
        (selectBest V R constraintRaw versions').toOption := by
  refine ⟨fun text hok => selectBest_ok h hok, fun e herr => selectBest_error herr, ?_⟩
  exact fun versions' hsame => selectBest_congr h constraintRaw hsame

/-! ### Plain versions -/

theorem parseNumber_repr (n : Nat) : parseNumber (Nat.toDigits 10 n) = some n := by
  have hne : (Nat.toDigits 10 n).isEmpty = false := by
    rw [List.isEmpty_eq_false_iff]
    exact Nat.toDigits_ne_nil
  have hall : (Nat.toDigits 10 n).all Char.isDigit = true :=
    List.all_eq_true.mpr fun c hc => Nat.isDigit_of_mem_toDigits (by decide) (by decide) hc
  rw [parseNumber, hne, hall]
  exact congrArg some Nat.ofDigitChars_ten_toDigits

theorem toList_plain (version : PlainVersion) :
    (Semver.toText PlainVersion version).toList =
      Nat.toDigits 10 version.major ++ '.' :: (Nat.toDigits 10 version.minor ++
        '.' :: Nat.toDigits 10 version.patch) := by
  show (toString version.major ++ "." ++ toString version.minor ++ "." ++
    toString version.patch : String).toList = _
  simp [String.toList_append, Nat.toString_eq_repr, Nat.toList_repr]

theorem plain_documented : Semver.Documented PlainVersion PlainVersion where
  trans := by
    show Std.TransCmp (compareLex (compareOn PlainVersion.major)
      (compareLex (compareOn PlainVersion.minor) (compareOn PlainVersion.patch)))
    infer_instance
  eq := by
    refine @Std.LawfulEqCmp.mk _ _ ?_ fun {a b} h => ?_
    · show Std.ReflCmp (compareLex (compareOn PlainVersion.major)
        (compareLex (compareOn PlainVersion.minor) (compareOn PlainVersion.patch)))
      infer_instance
    · have hparts : (compare a.major b.major).then ((compare a.minor b.minor).then
          (compare a.patch b.patch)) = .eq := h
      rw [Ordering.then_eq_eq, Ordering.then_eq_eq, Nat.compare_eq_eq, Nat.compare_eq_eq,
        Nat.compare_eq_eq] at hparts
      obtain ⟨hmajor, hminor, hpatch⟩ := hparts
      cases a
      cases b
      simp_all
  parse_toText version := by
    have hdot : ∀ n, '.' ∉ Nat.toDigits 10 n := fun n hn => by
      have := Nat.isDigit_of_mem_toDigits (by decide) (by decide) hn
      revert this
      decide
    show parsePlain _ = _
    rw [parsePlain, toList_plain, Text.pieces_append, Text.pieces_append,
      Text.pieces_of_not_mem (hdot _), Text.pieces_of_not_mem (hdot _),
      Text.pieces_of_not_mem (hdot _)]
    simp [parseNumber_repr]
  digit version := by
    rcases hd : Nat.toDigits 10 version.major with - | ⟨c, rest⟩
    · exact absurd hd Nat.toDigits_ne_nil
    · refine ⟨c, _, by rw [toList_plain, hd, List.cons_append], ?_⟩
      exact Nat.isDigit_of_mem_toDigits (by decide) (by decide) (hd ▸ List.mem_cons_self)
  solid version c hc := by
    have hspace : ∀ n, ∀ d ∈ Nat.toDigits 10 n, Text.isWhitespace d = false := fun n d hd => by
      have hdigit := Nat.isDigit_of_mem_toDigits (by decide) (by decide) hd
      have hrange : 48 ≤ d.toNat ∧ d.toNat ≤ 57 := by
        simpa [Char.isDigit, UInt32.le_iff_toNat_le] using hdigit
      simp only [Text.isWhitespace, Bool.or_eq_false_iff, Bool.and_eq_false_iff,
        decide_eq_false_iff_not, beq_eq_false_iff_ne]
      omega
    rw [toList_plain, List.mem_append, List.mem_cons, List.mem_append, List.mem_cons] at hc
    rcases hc with hc | rfl | hc | rfl | hc
    · exact hspace _ c hc
    · rfl
    · exact hspace _ c hc
    · rfl
    · exact hspace _ c hc

theorem prefixed_selected :
    ∃ v : PlainVersion, Published PlainVersion PlainVersion ["1.1.0", "v1.2.0"] v ∧
      "1.2.0" = Semver.toText PlainVersion v := by
  obtain ⟨v, hv, htext, -⟩ :=
    (selectBest_agrees plain_documented "=1.2.0" ["1.1.0", "v1.2.0"]).1 "1.2.0" rfl
  exact ⟨v, hv, htext⟩

/-- A text that is no version spoils the selection, not the check of the versions beside it. -/
theorem garbage_spoils_selection :
    (∃ e, selectBest PlainVersion PlainVersion "1.0.0" ["1.0.0", "nightly"] = .error e) ∧
      satisfies PlainVersion PlainVersion "1.0.0" "1.0.0" = true := by
  refine ⟨⟨_, rfl⟩, by decide⟩

end Deka.Pm
