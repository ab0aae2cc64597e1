/-
Deka/Pm/ResolveExact.lean

What an install resolves to.

The roots of an install are the specs of the command line or of the manifest, and every
package that the lockfile pins besides (`rootSpecs`).  When the install succeeds, what
these require and what the installed versions require is satisfied by what is installed,
and everything that can be reached from the roots is installed.

Nothing else is, as long as no round of the loop gives a package another version that
drops a dependency: what the version before it required stays installed.
-/
import Deka.Lib.Reach
import Deka.Pm.ResolveSound

namespace Deka.Pm

open Deka.Lib Deka.Vm

section Exact

variable {F : Type} {V R : Type} [DecidableEq V] [Semver V R] {world : World}
  {existingLock : DekaLock F} {locked : Bool}

/-! ### The graph of what is installed -/

variable (world) in
/-- A requirement of the roots. -/
def RootAsks (specs : List String) (name : String) (requirement : VersionRequirement) : Prop :=
  ∃ spec ∈ specs, requirementOf world spec "root" = .ok (name, requirement)

variable (world) in
/-- A requirement of the roots or of a version that is installed. -/
def Required (specs : List String) (s : State F) (name : String)
    (requirement : VersionRequirement) : Prop :=
  RootAsks world specs name requirement ∨
    ∃ n version, InstalledAt s n version ∧ Declares world n version name requirement

variable (world) in
/-- The packages the roots ask for. -/
def rootNames (specs : List String) : Set String :=
  {name | ∃ requirement, RootAsks world specs name requirement}

variable (world) in
/-- The installed version of a package declares a dependency. -/
def DependsOn (s : State F) (name dep : String) : Prop :=
  ∃ version requirement, InstalledAt s name version ∧
    Declares world name version dep requirement

variable (world) in
/-- No package that is installed loses a dependency. -/
def KeepsDependencies (s t : State F) : Prop :=
  ∀ name dep, DependsOn world s name dep → DependsOn world t name dep

/-! ### The start -/

theorem verifySummoned_ok {specs : List (String × Option String)}
    (hjs : ∀ spec ∈ specs, Text.startsWith "@js/" spec.1 = true)
    {result summoned : BTreeMap String (LockEntry F)}
    (h : specs.foldlM (verifySummoned world existingLock) result = .ok summoned)
    (hresult : ∀ name entry, BTreeMap.get? result name = some entry →
      Text.startsWith "@js/" name = true) :
    ∀ name entry, BTreeMap.get? summoned name = some entry →
      Text.startsWith "@js/" name = true := by
  induction specs generalizing result with
  | nil =>
    cases h
    exact hresult
  | cons spec specs ih =>
    rw [List.foldlM_cons] at h
    obtain ⟨next, hnext, h⟩ := bind_ok h
    refine ih (fun e he => hjs e (List.mem_cons_of_mem _ he)) h ?_
    obtain ⟨found, _, hnext⟩ := bind_ok hnext
    obtain ⟨_, _, hnext⟩ := bind_ok hnext
    obtain ⟨_, _, hnext⟩ := bind_ok hnext
    cases hnext
    intro name entry hget
    by_cases hthis : spec.1 = name
    · exact hthis ▸ hjs spec List.mem_cons_self
    · rw [BTreeMap.get?_insert_ne hthis] at hget
      exact hresult name entry hget

/-- Every summoned module is one of `@js/`. -/
theorem verifyLockedAt_js {manifest : List (String × Option String)}
    {summoned : BTreeMap String (LockEntry F)}
    (h : verifyLockedAt world existingLock manifest = .ok summoned) {name : String}
    {entry : LockEntry F} (hget : BTreeMap.get? summoned name = some entry) :
    Text.startsWith "@js/" name = true := by
  refine verifySummoned_ok (fun spec hspec => ?_) h (by simp) name entry hget
  exact (List.mem_filter.mp hspec).2

/-- A module of `@js/` is no package of the registry. -/
theorem not_deka_of_js {name : String} (h : Text.startsWith "@js/" name = true) :
    isDekaPackage name = false := by
  rw [Text.startsWith, List.isPrefixOf_iff_prefix] at h
  obtain ⟨rest, hrest⟩ := h
  rw [isDekaPackage, Text.startsWith, ← hrest]
  rfl

theorem prepare_ok {manifest : List (String × Option String)} {specs : List String} {s : State F}
    (h : prepare world existingLock locked manifest specs = .ok s) :
    ∃ summoned asks, verifyLockedAt world existingLock manifest = .ok summoned ∧
      s = { ({ pending := [], requested := [], installed := [], fetched := [] } :
              State F).requireAll asks with installed := summoned } ∧
      ∀ ask, ask ∈ asks ↔
        RootAsks world (rootSpecs world existingLock manifest specs) ask.1 ask.2 := by
  rw [prepare] at h
  obtain ⟨_, _, h⟩ := bind_ok h
  obtain ⟨_, _, h⟩ := bind_ok h
  obtain ⟨u, hstart, h⟩ := bind_ok h
  obtain ⟨summoned, hsummoned, h⟩ := bind_ok h
  obtain ⟨asks, rfl, hasks⟩ := enqueueAll_ok hstart
  cases h
  exact ⟨summoned, asks, hsummoned, rfl, hasks⟩

/-- What the loop starts with: the roots are required, and no package of the registry is
installed. -/
theorem Sound.start {manifest : List (String × Option String)} {specs : List String} {s : State F}
    (h : prepare world existingLock locked manifest specs = .ok s) :
    Sound V R world (RootAsks world (rootSpecs world existingLock manifest specs)) s ∧
    (∀ name, s.requirements name ≠ [] →
      name ∈ rootNames world (rootSpecs world existingLock manifest specs)) ∧
    (∀ name, isDekaPackage name = true → BTreeMap.get? s.installed name = none) := by
  obtain ⟨summoned, asks, hsummoned, rfl, hasks⟩ := prepare_ok h
  set u : State F := { pending := [], requested := [], installed := [], fetched := [] }
  have hasked : ∀ n q, q ∈ (u.requireAll asks).requirements n ↔
      RootAsks world (rootSpecs world existingLock manifest specs) n q := by
    intro n q
    rw [State.mem_requirements_requireAll, ← hasks (n, q)]
    simp [u, State.requirements]
  have hnone : ∀ name, isDekaPackage name = true → BTreeMap.get? summoned name = none := by
    intro name hdeka
    cases hget : BTreeMap.get? summoned name with
    | none => rfl
    | some entry =>
      have hjs := not_deka_of_js (verifyLockedAt_js hsummoned hget)
      simp [hdeka] at hjs
  refine ⟨?_, ?_, hnone⟩
  · exact {
      roots := fun n q hq => (hasked n q).mpr hq
      declared := by
        rintro n v dep q ⟨hdeka, entry, hget, _⟩ _
        have hnot : BTreeMap.get? summoned n = some entry := hget
        rw [hnone n hdeka] at hnot
        cases hnot
      answered := by
        intro n hn
        left
        obtain ⟨q, hq⟩ := List.exists_mem_of_ne_nil _ hn
        rcases State.queued_of_new (s := u) hq with hold | hqueued
        · simp [u, State.requirements] at hold
        · exact hqueued
      queued := by
        intro n hn
        rcases State.required_of_queued (s := u) hn with hold | hrequired
        · simp [u] at hold
        · exact hrequired
      installed := by
        intro n entry hdeka hget
        have hnot : BTreeMap.get? summoned n = some entry := hget
        rw [hnone n hdeka] at hnot
        cases hnot }
  · intro n hn
    obtain ⟨q, hq⟩ := List.exists_mem_of_ne_nil _ hn
    exact ⟨q, (hasked n q).mp hq⟩

/-! ### What can be reached -/

section Rounds

variable {roots : String → VersionRequirement → Prop} {rootSet : Set String} {s t : State F}

/-- In a round that keeps the dependencies, what is required can still be reached. -/
theorem reach_round (hsound : Sound V R world roots s)
    (hreach : ∀ name, s.requirements name ≠ [] → Reach (DependsOn world s) rootSet name)
    (h : Round V R world existingLock locked s t) (hkeeps : KeepsDependencies world s t) :
    ∀ name, t.requirements name ≠ [] → Reach (DependsOn world t) rootSet name := by
  obtain ⟨name, rest, hpending, hvisit⟩ := h
  have hname : Reach (DependsOn world t) rootSet name :=
    (hreach name (hsound.queued name (by simp [hpending]))).mono hkeeps
  intro n hn
  obtain ⟨q, hq⟩ := List.exists_mem_of_ne_nil _ hn
  rcases visit_ok hvisit with ⟨_, rfl⟩ |
    ⟨_, version, _, entry, fetched, asks, hdeka, _, hdescriptor, _, rfl, hasks⟩
  · exact (hreach n hn).mono hkeeps
  · rcases State.mem_requirements_requireAll.mp hq with hold | hnew
    · exact (hreach n (List.ne_nil_of_mem hold)).mono hkeeps
    · refine .step hname ⟨version, q, ?_, (hasks (n, q)).mp hnew⟩
      exact (installedAt_insert (s := { s with pending := rest }) hdescriptor hdeka).mpr
        (Or.inl ⟨rfl, rfl⟩)

theorem reach_run (hsound : Sound V R world roots s)
    (hreach : ∀ name, s.requirements name ≠ [] → Reach (DependsOn world s) rootSet name)
    (hkeeps : ∀ u w, Relation.ReflTransGen (Round V R world existingLock locked) s u →
      Round V R world existingLock locked u w → KeepsDependencies world u w)
    (h : Relation.ReflTransGen (Round V R world existingLock locked) s t) :
    ∀ name, t.requirements name ≠ [] → Reach (DependsOn world t) rootSet name := by
  induction h with
  | refl => exact hreach
  | tail hrun hround ih =>
    exact reach_round (hsound.run hrun) ih hround (hkeeps _ _ hrun hround)

/-- What is installed besides packages of the registry stays as it is. -/
theorem get?_installed_run {name : String} (hdeka : isDekaPackage name = false)
    (h : Relation.ReflTransGen (Round V R world existingLock locked) s t) :
    BTreeMap.get? t.installed name = BTreeMap.get? s.installed name := by
  induction h with
  | refl => rfl
  | tail _ hround ih =>
    obtain ⟨n, rest, _, hvisit⟩ := hround
    rcases visit_ok hvisit with ⟨_, rfl⟩ | ⟨_, _, _, entry, _, asks, hn, _, _, _, rfl, _⟩
    · exact ih
    · have hne : n ≠ name := by
        rintro rfl
        simp [hn] at hdeka
      rw [State.requireAll_installed]
      show BTreeMap.get? (BTreeMap.insert _ n entry) name = _
      rw [BTreeMap.get?_insert_ne hne]
      exact ih

/-- Where each package has one release, no round takes a dependency from a package. -/
theorem keepsDependencies_of_single
    (hsingle : ∀ r ∈ world.registry.releases, ∀ r' ∈ world.registry.releases,
      r.1.1 = r'.1.1 → r.1.2 = r'.1.2)
    (h : Round V R world existingLock locked s t) : KeepsDependencies world s t := by
  obtain ⟨name, rest, _, hvisit⟩ := h
  rintro n dep ⟨version, requirement, hat, hdeclares⟩
  refine ⟨version, requirement, ?_, hdeclares⟩
  rcases visit_ok hvisit with ⟨_, rfl⟩ |
    ⟨_, chosen, release, entry, fetched, asks, hdeka, hlookup, hdescriptor, _, rfl, _⟩
  · exact hat
  · refine (installedAt_insert (s := { s with pending := rest }) hdescriptor hdeka).mpr ?_
    by_cases hn : n = name
    · subst hn
      obtain ⟨old, hold, _⟩ := hdeclares.exists_release
      obtain ⟨before, after, hreleases, _⟩ := List.lookup_eq_some_iff.mp hlookup
      have hnew : ((n, chosen), release) ∈ world.registry.releases := by simp [hreleases]
      exact Or.inl ⟨rfl, hsingle _ hold _ hnew rfl⟩
    · exact Or.inr ⟨hn, hat⟩

end Rounds

/-- A requirement at the end of a sound run is recorded, so its package can be reached. -/
theorem Required.recorded {specs : List String} {s : State F} {name : String}
    {requirement : VersionRequirement}
    (hsound : Sound V R world (RootAsks world specs) s)
    (h : Required world specs s name requirement) : requirement ∈ s.requirements name := by
  rcases h with hroot | ⟨n, version, hat, hdeclares⟩
  · exact hsound.roots name requirement hroot
  · exact hsound.declared n version name requirement hat hdeclares

/-- At every moment of a run, what can be reached is required. -/
theorem required_of_reach {specs : List String} {s : State F} {name : String}
    (hsound : Sound V R world (RootAsks world specs) s)
    (h : Reach (DependsOn world s) (rootNames world specs) name) : s.requirements name ≠ [] := by
  induction h with
  | root hroot =>
    obtain ⟨requirement, hasks⟩ := hroot
    exact List.ne_nil_of_mem (hsound.roots _ requirement hasks)
  | step _ hedge _ =>
    obtain ⟨version, requirement, hat, hdeclares⟩ := hedge
    exact List.ne_nil_of_mem (hsound.declared _ version _ requirement hat hdeclares)

theorem resolveProject_ok {manifest : List (String × Option String)} {specs : List String}
    {fuel : Nat} {s t : State F}
    (hprepare : prepare world existingLock locked manifest specs = .ok s)
    (h : resolveProject V R world existingLock locked manifest specs fuel = some (.ok t)) :
    Relation.ReflTransGen (Round V R world existingLock locked) s t ∧ t.pending = [] := by
  simp only [resolveProject, hprepare] at h
  obtain ⟨outcome, hloop, hsettle⟩ := Option.map_eq_some_iff.mp h
  cases outcome with
  | error err => cases hsettle
  | ok u =>
    have hu : u = t := by
      have hsettle : settle existingLock locked u = .ok t := hsettle
      unfold settle at hsettle
      split at hsettle
      · cases hsettle
      · exact Except.ok.inj hsettle
    exact installLoop_run (hu ▸ hloop)

variable (V R) in
/-- An install resolves: its loop terminates, and when it succeeds every requirement of
the roots and of the installed versions is satisfied by what is installed, whatever can be
reached from the roots is installed, and nothing else is if no round of the loop took a
dependency from a package.  The roots are those of `rootSpecs`; what a linked package
requires is left to its own working tree. -/
theorem resolution_sound_and_exact (world : World) (existingLock : DekaLock F) (locked : Bool)
    (manifest : List (String × Option String)) (specs : List String) :
    (∃ fuel outcome,
      resolveProject V R world existingLock locked manifest specs fuel = some outcome) ∧
    ∀ fuel s t, prepare world existingLock locked manifest specs = .ok s →
      resolveProject V R world existingLock locked manifest specs fuel = some (.ok t) →
      (∀ name requirement,
        Required world (rootSpecs world existingLock manifest specs) t name requirement →
        name ∉ world.linked →
        ∃ version, InstalledAt t name version ∧
          satisfies V R requirement.range version = true) ∧
      (∀ name, Reach (DependsOn world t)
          (rootNames world (rootSpecs world existingLock manifest specs)) name →
        name ∉ world.linked → BTreeMap.containsKey t.installed name = true) ∧
      ((∀ u w, Relation.ReflTransGen (Round V R world existingLock locked) s u →
          Round V R world existingLock locked u w → KeepsDependencies world u w) →
        ∃ summoned, verifyLockedAt world existingLock manifest = .ok summoned ∧
          ∀ name, BTreeMap.containsKey t.installed name = true ↔
            BTreeMap.containsKey summoned name = true ∨
            (name ∉ world.linked ∧ Reach (DependsOn world t)
              (rootNames world (rootSpecs world existingLock manifest specs)) name)) := by
  refine ⟨?_, ?_⟩
  · cases hprepare : prepare world existingLock locked manifest specs with
    | error err => exact ⟨0, .error err, by simp [resolveProject, hprepare]⟩
    | ok s =>
      have hends : ∃ fuel outcome,
          installLoop V R world existingLock locked fuel s = some outcome :=
        installLoop_terminates s
      obtain ⟨fuel, outcome, hloop⟩ := hends
      exact ⟨fuel, outcome.bind (settle existingLock locked), by
        simp [resolveProject, hprepare, hloop]⟩
  intro fuel s t hprepare hresolve
  obtain ⟨hrun, hdone⟩ := resolveProject_ok hprepare hresolve
  obtain ⟨hstart, hroots, hnone⟩ := Sound.start (V := V) (R := R) hprepare
  have hsound := hstart.run hrun
  have hanswered : ∀ name, t.requirements name ≠ [] → name ∉ world.linked →
      Answered V R t name := by
    intro name hrequired hlinked
    rcases hsound.answered name hrequired with hqueued | hl | hanswered
    · simp [hdone] at hqueued
    · exact absurd hl hlinked
    · exact hanswered
  have hinstalled : ∀ name, Reach (DependsOn world t)
      (rootNames world (rootSpecs world existingLock manifest specs)) name →
      name ∉ world.linked → BTreeMap.containsKey t.installed name = true := by
    intro name hreach hlinked
    obtain ⟨_, ⟨_, entry, hget, _⟩, _⟩ :=
      hanswered name (required_of_reach hsound hreach) hlinked
    rw [BTreeMap.containsKey, hget]
    rfl
  refine ⟨?_, hinstalled, ?_⟩
  · intro name requirement hrequired hlinked
    have hrecorded := hrequired.recorded hsound
    obtain ⟨version, hat, hall⟩ := hanswered name (List.ne_nil_of_mem hrecorded) hlinked
    exact ⟨version, hat, hall requirement hrecorded⟩
  · intro hkeeps
    obtain ⟨summoned, asks, hsummoned, hs, _⟩ := prepare_ok hprepare
    have hsame : s.installed = summoned := by rw [hs]
    refine ⟨summoned, hsummoned, fun name => ?_⟩
    cases hdeka : isDekaPackage name with
    | true =>
      constructor
      · intro hcontains
        right
        obtain ⟨entry, hget⟩ := Option.isSome_iff_exists.mp hcontains
        obtain ⟨hrequired, hlinked⟩ := hsound.installed name entry hdeka hget
        refine ⟨hlinked, reach_run hstart (fun n hn => ?_) hkeeps hrun name hrequired⟩
        exact .root (hroots n hn)
      · rintro (hcontains | ⟨hlinked, hreach⟩)
        · have hget := hnone name hdeka
          rw [hsame] at hget
          simp [BTreeMap.containsKey, hget] at hcontains
        · exact hinstalled name hreach hlinked
    | false =>
      have hget := get?_installed_run hdeka hrun
      rw [hsame] at hget
      simp only [BTreeMap.containsKey, hget]
      constructor
      · exact Or.inl
      · rintro (hcontains | ⟨hlinked, hreach⟩)
        · exact hcontains
        · have hcontains := hinstalled name hreach hlinked
          rwa [BTreeMap.containsKey, hget] at hcontains

end Exact

/-! ### Runs of a small registry -/

section Sample

/-- A version of three numbers. -/
structure PlainVersion where
  major : Nat
  minor : Nat
  patch : Nat
deriving DecidableEq

instance : Ord PlainVersion where
  compare a b :=
    (compare a.major b.major).then ((compare a.minor b.minor).then (compare a.patch b.patch))

def parseNumber (digits : List Char) : Option Nat :=
  if digits.isEmpty || !digits.all Char.isDigit then none
  else some (digits.foldl (fun n c => 10 * n + (c.toNat - '0'.toNat)) 0)

def parsePlain (text : String) : Except String PlainVersion :=
  match (Text.pieces '.' text.toList).map parseNumber with
  | [some major, some minor, some patch] => .ok { major, minor, patch }
  | _ => .error "unexpected character while parsing version"

/-- Plain versions, and of the ranges those of one version. -/
instance : Semver PlainVersion PlainVersion where
  parse := parsePlain
  parseReq text :=
    match Text.stripPrefix "=" text with
    | some version => parsePlain version
    | none => .error "unexpected character while parsing version"
  matchesReq req version := version == req
  isRelease _ := true
  cmp := compare
  toText version := s!"{version.major}.{version.minor}.{version.patch}"

/-- Packages, each with its releases and their dependencies. -/
def plainWorld (packages : List (String × List (String × List (String × Option String)))) :
    World where
  registry :=
    { catalogs := packages.map fun (name, releases) => (name, releases.map Prod.fst)
      releases := packages.flatMap fun (name, releases) =>
        releases.map fun (version, dependencies) =>
          ((name, version),
            { files := [], integrity := .ok { moduleGraph := "m1", fsGraph := "f1" },
              dependencies := .ok dependencies }) }
  canonicalPhpPackageSpec _ := none
  isSummonedJsModuleSpec := Text.startsWith "@js/"
  linked := []

/-- What a resolution ends with. -/
def resolved (outcome : Option (Except String (State Unit))) : State Unit :=
  match outcome with
  | some (.ok s) => s
  | _ => { pending := [], requested := [], installed := [], fetched := [] }

def resolves (outcome : Option (Except String (State Unit))) : Bool :=
  match outcome with
  | some (.ok _) => true
  | _ => false

theorem eq_resolved {outcome : Option (Except String (State Unit))}
    (h : resolves outcome = true) : outcome = some (.ok (resolved outcome)) := by
  match outcome, h with
  | some (.ok _), _ => rfl

/-- What the roots and the installed versions require. -/
def requiredNames (world : World) (specs : List String) (s : State Unit) : List String :=
  ((asksOf world "root" specs) ++
    world.registry.releases.flatMap fun ((name, version), release) =>
      if (BTreeMap.get? s.installed name).map (·.descriptor) = some s!"{name}@{version}" then
        releaseAsks world name release
      else []).map Prod.fst

theorem mem_requiredNames_of_reach {world : World} {specs : List String} {s : State Unit}
    {name : String} (h : Reach (DependsOn world s) (rootNames world specs) name) :
    name ∈ requiredNames world specs s := by
  apply List.mem_map.mpr
  cases h with
  | root hroot =>
    obtain ⟨requirement, spec, hspec, hask⟩ := hroot
    exact ⟨(name, requirement), List.mem_append_left _ (mem_asksOf hspec hask), rfl⟩
  | @step n _ _ hedge =>
    obtain ⟨version, requirement, ⟨_, entry, hget, hentry⟩, hdeclares⟩ := hedge
    obtain ⟨release, hmem, hask⟩ := hdeclares.exists_release
    refine ⟨(name, requirement), List.mem_append_right _ ?_, rfl⟩
    refine List.mem_flatMap.mpr ⟨_, hmem, ?_⟩
    have hinstalled :
        (BTreeMap.get? s.installed n).map (·.descriptor) = some s!"{n}@{version}" := by
      rw [hget, Option.map_some, hentry]
    simp only [if_pos hinstalled]
    exact hask

/-- `@deka/c` needs the first version of `@deka/a`, which has no dependencies any more. -/
def replacedWorld : World :=
  plainWorld
    [("@deka/a", [("1.0.0", []), ("2.0.0", [("@deka/x", none)])]),
     ("@deka/c", [("1.0.0", [("@deka/a", some "1.0.0")])]),
     ("@deka/x", [("1.0.0", [])])]

/-- An entry for a package that nothing requires. -/
def obsoleteLock : DekaLock Unit where
  packages :=
    [("@deka/x",
      { descriptor := "@deka/x@1.0.0", resolved := "deka.gg:@deka/x", integrity := "",
        metadata := .object [("fsGraph", hashObject "f1"), ("moduleGraph", hashObject "m1")] })]

def rootsAC : List (String × Option String) := [("@deka/a", none), ("@deka/c", none)]

def rootA : List (String × Option String) := [("@deka/a", some "1.0.0")]

/-- A package stays installed that cannot be reached from the manifest: one that only the
lockfile names, and one that only a version required which was replaced since. -/
theorem installed_not_reachable :
    (∃ t, resolveProject PlainVersion PlainVersion replacedWorld obsoleteLock false rootA [] 10 =
        some (.ok t) ∧
      BTreeMap.containsKey t.installed "@deka/x" = true ∧
      ¬ Reach (DependsOn replacedWorld t)
        (rootNames replacedWorld (collectDekaJsonDeps replacedWorld rootA)) "@deka/x") ∧
    (∃ t : State Unit,
      resolveProject PlainVersion PlainVersion replacedWorld {} false rootsAC [] 10 =
        some (.ok t) ∧
      BTreeMap.containsKey t.installed "@deka/x" = true ∧
      ¬ Reach (DependsOn replacedWorld t)
        (rootNames replacedWorld (collectDekaJsonDeps replacedWorld rootsAC)) "@deka/x") := by
  constructor
  · refine ⟨_, eq_resolved (by decide), by decide, fun hreach => ?_⟩
    exact absurd (mem_requiredNames_of_reach hreach) (by decide)
  · refine ⟨_, eq_resolved (by decide), by decide, fun hreach => ?_⟩
    exact absurd (mem_requiredNames_of_reach hreach) (by decide)

/-- `@deka/a` needs `@deka/x`, and nothing needs `@deka/y`. -/
def chainWorld : World :=
  plainWorld
    [("@deka/a", [("1.0.0", [("@deka/x", some "1.0.0")])]),
     ("@deka/x", [("1.0.0", [])]),
     ("@deka/y", [("1.0.0", [])])]

/-- What the start of a resolution is. -/
def prepared (outcome : Except String (State Unit)) : State Unit :=
  resolved (some outcome)

theorem resolution_sound_and_exact_chain :
    BTreeMap.containsKey (resolved (resolveProject PlainVersion PlainVersion chainWorld {} false
      rootA [] 10)).installed "@deka/x" = true ∧
    Reach (DependsOn chainWorld (resolved (resolveProject PlainVersion PlainVersion chainWorld {}
      false rootA [] 10))) (rootNames chainWorld (rootSpecs chainWorld
        ({} : DekaLock Unit) rootA [])) "@deka/x" := by
  have hprepare : prepare chainWorld ({} : DekaLock Unit) false rootA [] =
      .ok (prepared (prepare chainWorld {} false rootA [])) :=
    Option.some.inj (eq_resolved (by decide))
  have hresolve : resolveProject PlainVersion PlainVersion chainWorld {} false rootA [] 10 =
      some (.ok (resolved (resolveProject PlainVersion PlainVersion chainWorld {} false
        rootA [] 10))) :=
    eq_resolved (by decide)
  have hkeeps : ∀ u w, Relation.ReflTransGen (Round PlainVersion PlainVersion chainWorld {} false)
      (prepared (prepare chainWorld {} false rootA [])) u →
      Round PlainVersion PlainVersion chainWorld {} false u w →
      KeepsDependencies chainWorld u w :=
    fun u w _ hround => keepsDependencies_of_single (by decide) hround
  obtain ⟨_, _, hexact⟩ := (resolution_sound_and_exact PlainVersion PlainVersion chainWorld {}
    false rootA []).2 10 _ _ hprepare hresolve
  obtain ⟨summoned, hsummoned, hinstalled⟩ := hexact hkeeps
  have hx : BTreeMap.containsKey (resolved (resolveProject PlainVersion PlainVersion chainWorld {}
      false rootA [] 10)).installed "@deka/x" = true := by decide
  refine ⟨hx, ?_⟩
  rcases (hinstalled "@deka/x").mp hx with hjs | ⟨_, hreach⟩
  · obtain ⟨entry, hget⟩ := Option.isSome_iff_exists.mp hjs
    have hdeka := not_deka_of_js (verifyLockedAt_js hsummoned hget)
    exact absurd hdeka (by decide)
  · exact hreach

end Sample

end Deka.Pm
