/-
Deka/Pm/Conflicts.lean

Version conflicts of the install loop.

The loop takes the greatest version that one requirement allows, the first that is neither
`latest` nor `*`, and then checks it against all requirements.  So the loop finds a version that
satisfies all of them exactly if the greatest one of that first requirement does.
-/
import Deka.Pm.Selection

namespace Deka.Pm

open Deka.Lib

/-! ### The greatest version -/

section Best

variable {V R : Type} [DecidableEq V] [Semver V R]

/-- A published version that the constraint allows, and no other that it allows is preferred. -/
structure Best (V R : Type) [DecidableEq V] [Semver V R] (constraintRaw : String)
    (versions : List String) (v : V) : Prop where
  published : Published V R versions v
  allowed : satisfies V R constraintRaw (Semver.toText R v) = true
  greatest : ∀ w : V, Published V R versions w →
    satisfies V R constraintRaw (Semver.toText R w) = true → ¬ Preferred V R constraintRaw w v

/-- A constraint reads an entry of a catalog as it reads the version's own text. -/
theorem satisfies_toText (h : Semver.Documented V R) {constraintRaw raw : String} {v : V}
    (hparse : Semver.parse R (versionText raw) = .ok v) :
    satisfies V R constraintRaw raw = satisfies V R constraintRaw (Semver.toText R v) := by
  rw [satisfies_eq, satisfies_eq, hparse, (versionText_toText h v).1, h.parse_toText]

theorem Best.unique (h : Semver.Documented V R) {constraintRaw : String} {versions : List String}
    {v w : V} (hv : Best V R constraintRaw versions v) (hw : Best V R constraintRaw versions w) :
    v = w := by
  have := h.trans
  have := h.eq
  have hvw := hw.greatest v hv.published hv.allowed
  have hwv := hv.greatest w hw.published hw.allowed
  -- neither is greater, where the constraint goes by the order alone
  have horder (hgt : Semver.cmp R v w ≠ .gt) (hlt : Semver.cmp R w v ≠ .gt) : v = w := by
    apply @Std.LawfulEqCmp.eq_of_compare V (Semver.cmp R)
    rcases hcmp : Semver.cmp R v w with - | - | -
    · exact absurd (Std.OrientedCmp.gt_iff_lt.mpr hcmp) hlt
    · rfl
    · exact absurd hcmp hgt
  rw [Preferred] at hvw hwv
  rcases hc : (parseConstraint constraintRaw : Except String (Constraint V R)) with
    err | (- | exact | range)
  · rw [hc] at hvw hwv
    exact horder hvw hwv
  · rw [hc] at hvw hwv
    rw [not_or, not_and, not_and] at hvw hwv
    have hsame : Semver.isRelease R v = Semver.isRelease R w := by
      rcases hrv : Semver.isRelease R v with - | - <;> rcases hrw : Semver.isRelease R w with - | -
      · rfl
      · exact absurd hrv (hwv.1 hrw)
      · exact absurd hrw (hvw.1 hrv)
      · rfl
    exact horder (hvw.2 hsame) (hwv.2 hsame.symm)
  · rw [hc] at hvw hwv
    exact horder hvw hwv
  · rw [hc] at hvw hwv
    exact horder hvw hwv

/-- Every entry of the catalog is a version. -/
def Clean (V R : Type) [Semver V R] (versions : List String) : Prop :=
  ∀ text, Listed versions text → ∃ v : V, Semver.parse R text = .ok v

theorem selectBest_eq_ok (h : Semver.Documented V R) {constraintRaw : String}
    {versions : List String} {text : String} :
    selectBest V R constraintRaw versions = .ok text ↔
      Clean V R versions ∧ ∃ v : V, Best V R constraintRaw versions v ∧ text = Semver.toText R v := by
  have hbest {text : String} (hok : selectBest V R constraintRaw versions = .ok text) :
      ∃ v : V, Best V R constraintRaw versions v ∧ text = Semver.toText R v := by
    obtain ⟨v, hpublished, rfl, hallowed, hgreatest⟩ := selectBest_ok h hok
    refine ⟨v, ⟨hpublished, hallowed, fun w hw hsat => ?_⟩, rfl⟩
    obtain ⟨_, ⟨raw, hraw, rfl, hsome⟩, hparse⟩ := hw
    exact hgreatest raw hraw w hparse hsome (by rw [satisfies_toText h hparse, hsat])
  constructor
  · intro hok
    refine ⟨?_, hbest hok⟩
    rw [selectBest_eq] at hok
    obtain ⟨constraint, -, hok⟩ := bind_eq_ok.mp hok
    obtain ⟨parsed, hparsed, -⟩ := bind_eq_ok.mp hok
    exact (parseCatalog_ok hparsed).2
  · rintro ⟨hclean, v, hv, rfl⟩
    rcases hselect : selectBest V R constraintRaw versions with err | text
    · exfalso
      rcases selectBest_error hselect with hnone | ⟨text, hlisted, err, hbad⟩
      · obtain ⟨_, ⟨raw, hraw, rfl, hsome⟩, hparse⟩ := hv.published
        have hsat := hnone raw hraw hsome
        rw [satisfies_toText h hparse, hv.allowed] at hsat
        cases hsat
      · obtain ⟨w, hparse⟩ := hclean text hlisted
        rw [hbad] at hparse
        cases hparse
    · obtain ⟨w, hw, rfl⟩ := hbest hselect
      rw [hv.unique h hw]

end Best

/-! ### Conflicts -/

section Conflicts

variable (V R : Type) [DecidableEq V] [Semver V R] {F : Type} (world : World)
  (existingLock : DekaLock F)

/-- The loop comes to the requirements of a package with a version that one of them excludes. -/
def Conflicts (name : String) (requirements : List VersionRequirement) : Prop :=
  ∃ lockedPkg source release conflict, lockedPackage existingLock name = .ok lockedPkg ∧
    installFromRegistry V R world name lockedPkg (requestedVersion requirements) =
      .ok (source, release) ∧
    firstUnsatisfiedRequirement V R requirements source.version = some conflict

/-- The version's tarball can be fetched and unpacked. -/
def Served (name version : String) : Prop :=
  (Text.stripPrefix "@deka/" name).isSome ∧
    ∃ release, world.registry.releases.lookup (name, version) = some release ∧
      release.copied = .ok ()

/-- Some published version satisfies every requirement. -/
def Satisfiable (versions : List String) (requirements : List VersionRequirement) : Prop :=
  ∃ v : V, Published V R versions v ∧
    ∀ req ∈ requirements, satisfies V R req.range (Semver.toText R v) = true

variable {V R world existingLock}

theorem firstUnsatisfiedRequirement_eq_none {requirements : List VersionRequirement}
    {version : String} :
    firstUnsatisfiedRequirement V R requirements version = none ↔
      ∀ req ∈ requirements, satisfies V R req.range version = true := by
  simp [firstUnsatisfiedRequirement]

/-- What a package without a lock entry is fetched as. -/
theorem installFromRegistry_unlocked {name requested : String} {versions : List String}
    (hcatalog : world.registry.catalogs.lookup name = some versions) (P : String → Prop) :
    (∃ source release, installFromRegistry V R world name none requested = .ok (source, release) ∧
        P source.version) ↔
      ∃ version, selectBest V R requested versions = .ok version ∧ Served world name version ∧
        P version := by
  rw [installFromRegistry, hcatalog]
  constructor
  · rintro ⟨source, release, hinstall, hP⟩
    obtain ⟨package, hpackage, hinstall⟩ := bind_ok hinstall
    obtain ⟨_, hversions, hinstall⟩ := bind_ok hinstall
    cases hversions
    obtain ⟨version, hversion, hinstall⟩ := bind_ok hinstall
    obtain ⟨found, hfound, hinstall⟩ := bind_ok hinstall
    obtain ⟨_, hcopied, hinstall⟩ := bind_ok hinstall
    cases hinstall
    refine ⟨version, mapError_ok hversion, ⟨?_, release, orFail_ok hfound, hcopied⟩, hP⟩
    rw [orFail_ok hpackage]
    rfl
  · rintro ⟨version, hselect, ⟨hpackage, release, hfound, hcopied⟩, hP⟩
    obtain ⟨package, hpackage⟩ := Option.isSome_iff_exists.mp hpackage
    let source : InstalledSource :=
      { version, repo := some s!"https://github.com/dekaruntime/{package}.git",
        gitRef := some s!"v{version}", source := "deka.gg" }
    refine ⟨source, release, ?_, hP⟩
    simp only [orFail, chooseVersion, hpackage, hselect, Except.mapError, hfound, hcopied, ok_bind]
    rfl

theorem lockedPackage_unlocked {name : String}
    (hunlocked : BTreeMap.get? existingLock.packages name = none) :
    lockedPackage existingLock name = .ok none := by
  rw [lockedPackage, hunlocked]
  rfl

/-- A conflict is what the loop fails with, once the package's name is accepted. -/
theorem Conflicts.fails {name : String} {requirements : List VersionRequirement}
    {segments : List String} (hunlocked : BTreeMap.get? existingLock.packages name = none)
    (hpath : phpModulesPathForIn name = .ok segments) (hdeka : isDekaPackage name = true)
    (h : Conflicts V R world existingLock name requirements) :
    ∃ (version : String) (conflict : VersionRequirement),
      resolvePackage V R world existingLock false name requirements =
        .error s!"{name} {version} does not satisfy requirement {conflict.range} from {conflict.requestedBy}" := by
  obtain ⟨lockedPkg, source, release, conflict, hlocked, hinstall, hconflict⟩ := h
  rw [lockedPackage_unlocked hunlocked] at hlocked
  cases hlocked
  refine ⟨source.version, conflict, ?_⟩
  rw [resolvePackage, lockedPackage_unlocked hunlocked, ok_bind, hpath, hdeka]
  show ((installFromRegistry V R world name none (requestedVersion requirements)).mapError _ >>= _) = _
  rw [hinstall]
  show (rejectUnsatisfied name source.version
    (firstUnsatisfiedRequirement V R requirements source.version) >>= _) = _
  rw [hconflict]
  rfl

/-- A package without a lock entry that has a version for all its requirements does not run into
a conflict, exactly if the greatest version that the first requirement allows is such a version,
or cannot be had at all; and what is installed satisfies every requirement. -/
theorem no_spurious_conflict (h : Semver.Documented V R) {name : String}
    (requirements : List VersionRequirement) {versions : List String}
    (hunlocked : BTreeMap.get? existingLock.packages name = none)
    (hcatalog : world.registry.catalogs.lookup name = some versions) :
    ((Satisfiable V R versions requirements →
        ¬ Conflicts V R world existingLock name requirements) ↔
      (Satisfiable V R versions requirements → Clean V R versions →
        ∀ v : V, Best V R (requestedVersion requirements) versions v →
          Served world name (Semver.toText R v) →
            ∀ req ∈ requirements, satisfies V R req.range (Semver.toText R v) = true)) ∧
    ∀ locked, ∀ resolution : Resolution F,
      resolvePackage V R world existingLock locked name requirements = .ok resolution →
        ∃ v : V, Published V R versions v ∧ resolution.source.version = Semver.toText R v ∧
          ∀ req ∈ requirements, satisfies V R req.range (Semver.toText R v) = true := by
  have hconflicts : Conflicts V R world existingLock name requirements ↔
      ∃ version, selectBest V R (requestedVersion requirements) versions = .ok version ∧
        Served world name version ∧
          ∃ conflict, firstUnsatisfiedRequirement V R requirements version = some conflict := by
    rw [← installFromRegistry_unlocked hcatalog]
    constructor
    · rintro ⟨lockedPkg, source, release, conflict, hlocked, hinstall, hconflict⟩
      rw [lockedPackage_unlocked hunlocked] at hlocked
      cases hlocked
      exact ⟨source, release, hinstall, conflict, hconflict⟩
    · rintro ⟨source, release, hinstall, conflict, hconflict⟩
      exact ⟨none, source, release, conflict, lockedPackage_unlocked hunlocked, hinstall, hconflict⟩
  refine ⟨imp_congr_right fun _ => ?_, fun locked resolution hok => ?_⟩
  · rw [hconflicts]
    simp only [selectBest_eq_ok h, ← firstUnsatisfiedRequirement_eq_none]
    constructor
    · intro hno hclean v hbest hserved
      rw [Option.eq_none_iff_forall_ne_some]
      intro conflict hconflict
      exact hno ⟨_, ⟨hclean, v, hbest, rfl⟩, hserved, conflict, hconflict⟩
    · rintro hall ⟨_, ⟨hclean, v, hbest, rfl⟩, hserved, conflict, hconflict⟩
      rw [hall hclean v hbest hserved] at hconflict
      cases hconflict
  · obtain ⟨-, -, hsatisfied, -⟩ := resolvePackage_ok hok
    rw [firstUnsatisfiedRequirement_eq_none] at hsatisfied
    rw [resolvePackage, lockedPackage_unlocked hunlocked, ok_bind] at hok
    obtain ⟨_, -, hok⟩ := bind_ok hok
    obtain ⟨_, -, hok⟩ := bind_ok hok
    obtain ⟨_, -, hok⟩ := bind_ok hok
    obtain ⟨⟨source, release⟩, hinstall, hok⟩ := bind_ok hok
    obtain ⟨_, -, hok⟩ := bind_ok hok
    obtain ⟨_, -, hok⟩ := bind_ok hok
    obtain ⟨_, -, hok⟩ := bind_ok hok
    obtain ⟨_, -, hok⟩ := bind_ok hok
    obtain ⟨_, -, hok⟩ := bind_ok hok
    obtain ⟨_, -, hok⟩ := bind_ok hok
    cases hok
    obtain ⟨version, hselect, -, hversion⟩ :=
      (installFromRegistry_unlocked hcatalog (· = source.version)).mp
        ⟨source, release, mapError_ok hinstall, rfl⟩
    obtain ⟨-, v, hbest, rfl⟩ := (selectBest_eq_ok h).mp hselect
    refine ⟨v, hbest.published, hversion.symm, ?_⟩
    rw [hversion]
    exact hsatisfied

end Conflicts

/-! ### Two requirements in two orders -/

section Sample

inductive PlainReq
  | exactly (version : PlainVersion)
  | atLeast (version : PlainVersion)

/-- Plain versions, and of the ranges those with `=` and `>=`. -/
instance : Semver PlainVersion PlainReq where
  parse := parsePlain
  parseReq text :=
    match Text.stripPrefix ">=" text, Text.stripPrefix "=" text with
    | some version, _ => (parsePlain version).map .atLeast
    | none, some version => (parsePlain version).map .exactly
    | none, none => .error "unexpected character while parsing version"
  matchesReq req version :=
    match req with
    | .exactly exact => version == exact
    | .atLeast least => (compare least version).isLE
  isRelease _ := true
  cmp := compare
  toText := Semver.toText PlainVersion

theorem plainReq_documented : Semver.Documented PlainVersion PlainReq where
  trans := plain_documented.trans
  eq := plain_documented.eq
  parse_toText := plain_documented.parse_toText
  digit := plain_documented.digit
  solid := plain_documented.solid

def twoVersions : World :=
  plainWorld [("@deka/a", [("1.0.0", []), ("2.0.0", [])])]

def pinned : VersionRequirement := { range := "1.0.0", requestedBy := "@deka/c" }

def atLeastOne : VersionRequirement := { range := ">=1.0.0", requestedBy := "root" }

/-- The pinned version is found when its requirement comes first. -/
theorem pinned_first :
    ¬ Conflicts PlainVersion PlainReq twoVersions ({} : DekaLock Unit) "@deka/a"
      [pinned, atLeastOne] := by
  have hsatisfiable :
      Satisfiable PlainVersion PlainReq ["1.0.0", "2.0.0"] [pinned, atLeastOne] :=
    ⟨⟨1, 0, 0⟩, ⟨"1.0.0", ⟨"1.0.0", by simp, rfl, rfl⟩, rfl⟩, by decide⟩
  refine (no_spurious_conflict plainReq_documented [pinned, atLeastOne] rfl rfl).1.mpr ?_
    hsatisfiable
  intro _ _ v hbest _
  have hallowed := hbest.allowed
  rw [satisfies_eq, (versionText_toText plainReq_documented v).1,
    plainReq_documented.parse_toText] at hallowed
  have hv : v = ⟨1, 0, 0⟩ := beq_iff_eq.mp hallowed
  rw [hv]
  decide

/-- Where the range comes first, the greatest version is fetched, and the pin excludes it. -/
theorem range_first_conflicts :
    Satisfiable PlainVersion PlainReq ["1.0.0", "2.0.0"] [atLeastOne, pinned] ∧
      Conflicts PlainVersion PlainReq twoVersions ({} : DekaLock Unit) "@deka/a"
        [atLeastOne, pinned] := by
  refine ⟨⟨⟨1, 0, 0⟩, ⟨"1.0.0", ⟨"1.0.0", by simp, rfl, rfl⟩, rfl⟩, by decide⟩, ?_⟩
  exact ⟨none, _, _, pinned, rfl, rfl, rfl⟩

end Sample

end Deka.Pm
