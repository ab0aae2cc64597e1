/-
Deka/Pm/Resolve.lean

The install loop of `install.rs`: from the specs of a project to the packages that are
installed and the entries of the lockfile.

The registry is finite and its releases are immutable: for each package the versions it
lists, and for each name and version what its tarball holds.  What the loop does to
the project directory on the way is an install of `State.fetched`, in that order
(`runInstall`).  `canonical_php_package_spec`, `is_summoned_js_module_spec`, the check of the files of
a summoned module and the link manifest are fields of `World`.
-/
import Deka.Lib.BTreeMap
import Deka.Pm.Transaction
import Deka.Pm.VersionRange
import Deka.Vm.Json

namespace Deka.Pm

open Deka.Lib Deka.Vm

/-! ### Package names and specs -/

def parsePackageSpec (spec : String) : String × Option String :=
  match spec.toList with
  | '@' :: rest =>
    match Text.cut '@' rest with
    | some (name, version) => (String.ofList ('@' :: name), some (String.ofList version))
    | none => (spec, none)
  | _ =>
    match Text.splitLast '@' spec with
    | some (name, version) => if name.isEmpty then (spec, none) else (name, some version)
    | none => (spec, none)

def isNameChar (c : Char) : Bool := c.isAlphanum || c == '-' || c == '_'

def isValidScopedName (spec : String) : Bool :=
  match spec.toList with
  | '@' :: rest =>
    let withoutVersion :=
      match Text.cut '@' rest with
      | some (name, _) => name
      | none => rest
    match Text.pieces '/' withoutVersion with
    | [scope, name] =>
      !scope.isEmpty && !name.isEmpty && scope.all isNameChar && name.all isNameChar
    | _ => false
  | _ => false

def isDekaPackage (name : String) : Bool := Text.startsWith "@deka/" name

/-! ### The lockfile -/

variable {F : Type}

structure LockEntry (F : Type) where
  descriptor : String
  resolved : String
  metadata : Json F
  integrity : String

structure DekaLock (F : Type) where
  lockfileVersion : Nat := 1
  packages : BTreeMap String (LockEntry F) := []

/-- `Value::get` of a key -/
def jsonGet (value : Json F) (key : String) : Option (Json F) :=
  match value with
  | .object members => BTreeMap.get? members key
  | _ => none

def metadataHash (metadata : Json F) (key : String) : Option String :=
  match (jsonGet metadata key).bind fun value => jsonGet value "hash" with
  | some (.string hash) => if hash.isEmpty then none else some hash
  | _ => none

def isVersionDescriptor (descriptor : String) : Bool :=
  match Text.pieces '.' descriptor.toList with
  | [major, minor, patch] => [major, minor, patch].all fun part =>
      !part.isEmpty && part.all Char.isDigit
  | _ => false

def lockedVersion (name descriptor : String) : Option String :=
  let pinned :=
    match Text.stripPrefix (name ++ "@") descriptor with
    | some version => if (Text.trim version).isEmpty then none else some version
    | none => none
  match pinned with
  | some version => some version
  | none => if isVersionDescriptor descriptor then some descriptor else none

structure LockedPackage where
  version : String
  resolved : String
  moduleGraph : String
  fsGraph : String

/-- `bail!`, unless a condition holds -/
def ensure (condition : Bool) (message : String) : Except String Unit :=
  if condition then .ok () else .error message

/-- `ok_or_else` -/
def orFail {α : Type} (value : Option α) (message : String) : Except String α :=
  match value with
  | some a => .ok a
  | none => .error message

def lockedPackage (lock : DekaLock F) (name : String) : Except String (Option LockedPackage) :=
  match BTreeMap.get? lock.packages name with
  | none => return none
  | some entry => do
    let version ← orFail (lockedVersion name entry.descriptor)
      s!"locked package {name} is missing an exact version"
    let moduleGraph ← orFail (metadataHash entry.metadata "moduleGraph")
      s!"locked package {name} is missing moduleGraph hash"
    let fsGraph ← orFail (metadataHash entry.metadata "fsGraph")
      s!"locked package {name} is missing fsGraph hash"
    return some { version, resolved := entry.resolved, moduleGraph, fsGraph }

/-! ### The registry -/

structure PackageIntegrity where
  moduleGraph : String
  fsGraph : String

/-- What the tarball of a release holds, and what the checks of its files say. -/
structure Release where
  files : Files
  /-- `copy_github_package_files` -/
  copied : Except String Unit := .ok ()
  /-- `reject_vendored_php_modules` and `reject_source_less_package` -/
  accepted : Except String Unit := .ok ()
  integrity : Except String PackageIntegrity
  /-- the `dependencies` of its `deka.json`: names and versions, where those are texts -/
  dependencies : Except String (List (String × Option String)) := .ok []

structure Registry where
  /-- the published versions of a package -/
  catalogs : List (String × List String)
  /-- the release of a package at a version -/
  releases : List ((String × String) × Release)

/-- The surroundings of an install. -/
structure World where
  registry : Registry
  canonicalPhpPackageSpec : String → Option String
  isSummonedJsModuleSpec : String → Bool
  /-- whether the files of a summoned module are the vetted ones -/
  vetted : String → Except String Unit := fun _ => .ok ()
  linked : List String

def normalizePhpSpec (world : World) (spec : String) : Except String String :=
  let trimmed := Text.trim spec
  if Text.startsWith "@" trimmed then
    if isValidScopedName trimmed then .ok trimmed
    else .error s!"invalid php package `{trimmed}` (expected @scope/name[@version])"
  else
    match world.canonicalPhpPackageSpec trimmed with
    | some mapped => .ok mapped
    | none => .error s!"unscoped php package `{trimmed}` is not allowed. use @scope/name (bare names map to @deka/*)"

/-- The segments of a package's path below the modules directory. -/
def phpModulesPathForIn (packageName : String) : Except String (List String) :=
  let segments := Text.split '/' packageName
  if segments.any fun segment => segment.isEmpty || segment == "." || segment == ".." then
    .error "invalid package name segment"
  else .ok segments

structure InstalledSource where
  version : String
  repo : Option String
  gitRef : Option String
  source : String

section Install

variable (V R : Type) [DecidableEq V] [Semver V R] (world : World)

/-- The version that is fetched: the locked one, or the best one. -/
def chooseVersion (name : String) (locked : Option LockedPackage) (requested : String)
    (versions : List String) : Except String String :=
  match locked with
  | some locked => .ok locked.version
  | none =>
    (selectBest V R requested versions).mapError fun err =>
      s!"failed to select a version for {name}: {err}"

/-- `install_from_registry`, with the release that ends up in the staging directory -/
def installFromRegistry (name : String) (locked : Option LockedPackage) (requested : String) :
    Except String (InstalledSource × Release) := do
  let packageName ← orFail (Text.stripPrefix "@deka/" name)
    s!"install_from_registry called with non-@deka package: {name}"
  let versions ← orFail (world.registry.catalogs.lookup name)
    s!"package {name} not found in deka.gg registry (status 404 Not Found)"
  let version ← chooseVersion V R name locked requested versions
  let release ← orFail (world.registry.releases.lookup (name, version))
    s!"tarball download failed for {name}@{version}: status 404 Not Found"
  release.copied
  return ({ version, repo := some s!"https://github.com/dekaruntime/{packageName}.git",
            gitRef := some s!"v{version}", source := "deka.gg" }, release)

/-! ### Requirements -/

structure VersionRequirement where
  range : String
  requestedBy : String
deriving Repr, DecidableEq

structure State (F : Type) where
  pending : List String
  requested : BTreeMap String (List VersionRequirement)
  installed : BTreeMap String (LockEntry F)
  fetched : List Fetched

/-- The package a spec asks for, and what it asks. -/
def requirementOf (spec requestedBy : String) : Except String (String × VersionRequirement) := do
  let (rawName, version) := parsePackageSpec (Text.trim spec)
  let name ← normalizePhpSpec world rawName
  return (name, { range := version.getD "latest", requestedBy })

/-- The requirements collected for a package. -/
def State.requirements (s : State F) (name : String) : List VersionRequirement :=
  (BTreeMap.get? s.requested name).getD []

/-- A requirement that is new is recorded, and its package is looked at (again). -/
def State.require (s : State F) (name : String) (requirement : VersionRequirement) : State F :=
  if requirement ∈ s.requirements name then s
  else
    { s with
      requested := BTreeMap.insert s.requested name (s.requirements name ++ [requirement])
      pending := s.pending ++ [name] }

def enqueuePackageSpec (s : State F) (spec requestedBy : String) : Except String (State F) := do
  let (name, requirement) ← requirementOf world spec requestedBy
  return s.require name requirement

def enqueueAll (s : State F) (requestedBy : String) : List String → Except String (State F)
  | [] => return s
  | spec :: specs => do
    let s ← enqueuePackageSpec world s spec requestedBy
    enqueueAll s requestedBy specs

def firstUnsatisfiedRequirement (requirements : List VersionRequirement) (version : String) :
    Option VersionRequirement :=
  requirements.find? fun requirement => !satisfies V R requirement.range version

/-- A dependency of a manifest as a spec. -/
def manifestSpec (name : String) (version : Option String) : String :=
  match version.map Text.trim with
  | none => name
  | some version =>
    if version.isEmpty || version == "*" || version == "latest" then name
    else name ++ "@" ++ version

/-- The dependency specs of a release, sorted. -/
def packageDependencies (release : Release) : Except String (List String) := do
  let dependencies ← release.dependencies
  return (dependencies.map fun (name, version) => manifestSpec name version).insertionSort (· ≤ ·)

/-- The hash of a package without modules. -/
def emptyModuleGraphHash : String :=
  "e3b0c44298fc1c149afbf4c8996fb92427ae41e4649b934ca495991b7852b855"

def verifyLockedIntegrity (name : String) (locked : LockedPackage) (installed : InstalledSource)
    (integrity : PackageIntegrity) : Except String Bool := do
  if installed.version != locked.version then
    throw s!"integrity verification failed for {name}: locked version {locked.version} but installed {installed.version}"
  match Text.splitOnce ':' locked.resolved with
  | none => throw s!"integrity verification failed for {name}: malformed lock source {locked.resolved}"
  | some (source, _) =>
    if !(["linkhash", "github", "deka.gg"].contains source) then
      throw s!"integrity verification failed for {name}: unsupported lock source {locked.resolved}"
    let heal := locked.moduleGraph == emptyModuleGraphHash &&
      integrity.moduleGraph != locked.moduleGraph
    if !heal && integrity.moduleGraph != locked.moduleGraph then
      throw s!"integrity verification failed for {name}: moduleGraph hash mismatch (locked {locked.moduleGraph}, got {integrity.moduleGraph})"
    if integrity.fsGraph != locked.fsGraph then
      throw s!"integrity verification failed for {name}: fsGraph hash mismatch (locked {locked.fsGraph}, got {integrity.fsGraph})"
    return heal

/-- A `sha256` hash as the lockfile's metadata has it. -/
def hashObject (hash : String) : Json F :=
  .object [("algo", .string "sha256"), ("hash", .string hash)]

/-- A text or `null`. -/
def optionalText : Option String → Json F
  | some text => .string text
  | none => .null

/-- The metadata of a lock entry that is kept, healed where it has to be. -/
def keptMetadata (metadata : Json F) (heal : Bool) (integrity : PackageIntegrity) : Json F :=
  match heal, metadata with
  | true, .object members =>
    .object (BTreeMap.insert members "moduleGraph" (hashObject integrity.moduleGraph))
  | _, metadata => metadata

/-- The metadata of a new lock entry. -/
def newMetadata (source : InstalledSource) (dependencyNames : List String)
    (integrity : PackageIntegrity) : Json F :=
  .object
    [("dependencies", .array (dependencyNames.map .string)),
     ("fsGraph", hashObject integrity.fsGraph),
     ("gitRef", optionalText source.gitRef),
     ("moduleGraph", hashObject integrity.moduleGraph),
     ("repo", optionalText source.repo),
     ("source", .string source.source)]

/-- `verify_locked_integrity` of a package that is locked -/
def verifyIfLocked (name : String) (locked : Option LockedPackage) (installed : InstalledSource)
    (integrity : PackageIntegrity) : Except String Bool :=
  match locked with
  | some locked => verifyLockedIntegrity name locked installed integrity
  | none => .ok false

def rejectUnsatisfied (name version : String) : Option VersionRequirement → Except String Unit
  | some conflict =>
    .error s!"{name} {version} does not satisfy requirement {conflict.range} from {conflict.requestedBy}"
  | none => .ok ()

/-- The version range a package is selected by. -/
def requestedVersion (requirements : List VersionRequirement) : String :=
  match requirements.find? fun req => req.range != "latest" && req.range != "*" with
  | some req => req.range
  | none => "latest"

/-! ### The loop -/

variable (existingLock : DekaLock F) (locked : Bool)

/-- What is installed for a package: the source, the release with its checked
dependencies, and the lock entry. -/
structure Resolution (F : Type) where
  source : InstalledSource
  release : Release
  dependencies : List String
  entry : LockEntry F

/-- One look at a package: it is fetched, checked against its requirements and its lock
entry, and its dependencies are read. -/
def resolvePackage (name : String) (requirements : List VersionRequirement) :
    Except String (Resolution F) := do
  let lockedPkg ← lockedPackage existingLock name
  ensure (!(locked && lockedPkg.isNone)) s!"--locked install requires '{name}' in deka.lock"
  let _ ← phpModulesPathForIn name
  ensure (isDekaPackage name)
    s!"package {name} cannot be installed: legacy linkhash/harar registry support has been removed. Use @deka/* stdlib packages or publish to GitHub."
  let (source, release) ←
    (installFromRegistry V R world name lockedPkg (requestedVersion requirements)).mapError
      fun err => s!"failed to install {name} from deka.gg: {err}"
  rejectUnsatisfied name source.version (firstUnsatisfiedRequirement V R requirements source.version)
  release.accepted
  let integrity ← release.integrity.mapError
    fun err => s!"failed to compute package integrity for {name}: {err}"
  let heal ← verifyIfLocked name lockedPkg source integrity
  let dependencies ← packageDependencies release
  let dependencyNames ← dependencies.mapM fun dependency =>
    normalizePhpSpec world (parsePackageSpec dependency).1
  let metadata :=
    match BTreeMap.get? existingLock.packages name with
    | some entry => keptMetadata entry.metadata (heal && !locked) integrity
    | none => newMetadata source dependencyNames integrity
  return { source, release, dependencies,
           entry := { descriptor := s!"{name}@{source.version}",
                      resolved := s!"{source.source}:{name}", metadata, integrity := "" } }

/-- The body of the loop, for a package that was taken from the queue. -/
def visit (s : State F) (name : String) : Except String (State F) :=
  if world.linked.contains name then .ok s
  else do
    let requirements ← orFail (BTreeMap.get? s.requested name) "queued package requirement"
    let resolution ← resolvePackage V R world existingLock locked name requirements
    let s :=
      { s with
        installed := BTreeMap.insert s.installed name resolution.entry
        fetched := s.fetched ++ [{ name, files := resolution.release.files }] }
    enqueueAll world s name resolution.dependencies

/-- The loop, for at most `fuel` packages of the queue. -/
def installLoop : Nat → State F → Option (Except String (State F))
  | fuel, s =>
    match s.pending with
    | [] => some (.ok s)
    | name :: rest =>
      match fuel with
      | 0 => none
      | fuel + 1 =>
        match visit V R world existingLock locked { s with pending := rest } name with
        | .error err => some (.error err)
        | .ok s => installLoop fuel s

/-! ### Where it starts -/

/-- `collect_deka_json_deps_in`, of the dependencies of the manifest -/
def collectDekaJsonDeps (manifest : List (String × Option String)) : List String :=
  (manifest.filter fun (name, _) => !world.isSummonedJsModuleSpec name).map
    fun (name, version) => manifestSpec name version

def collectLockedDekaSpecs : List String :=
  (existingLock.packages.filter fun (name, _) => isDekaPackage name).map fun (name, entry) =>
    if Text.startsWith (name ++ "@") entry.descriptor then entry.descriptor
    else if isVersionDescriptor entry.descriptor then name ++ "@" ++ entry.descriptor
    else name

/-- The specs of an install without arguments: those of the lockfile, overridden by those
of the manifest. -/
def collectProjectInstallSpecs (manifest : List (String × Option String)) : List String :=
  let specs := collectLockedDekaSpecs existingLock ++ collectDekaJsonDeps world manifest
  BTreeMap.values (BTreeMap.extend [] (specs.map fun spec => ((parsePackageSpec spec).1, spec)))

/-- The specs an install starts from: a lock entry is kept unless the command line or the
manifest asks for its package. -/
def rootSpecs (manifest : List (String × Option String)) (specs : List String) : List String :=
  if specs.isEmpty then collectProjectInstallSpecs world existingLock manifest
  else
    (collectLockedDekaSpecs existingLock).foldl
      (fun merged existing =>
        let name := (parsePackageSpec existing).1
        if merged.any fun s => (parsePackageSpec s).1 == name then merged else merged ++ [existing])
      specs

/-- The state in which the loop starts, without the summoned modules: every root spec is
required by `root`. -/
def startState (specs : List String) : Except String (State F) :=
  enqueueAll world { pending := [], requested := [], installed := [], fetched := [] } "root" specs

/-- The source of a lock entry as a manifest has it. -/
def expectedSource (entry : LockEntry F) : String :=
  match jsonGet entry.metadata "source" with
  | some (.string "jsr") => entry.resolved
  | _ => "url:" ++ entry.resolved

/-- The body of the loop of `verify_locked_at`: a summoned module is carried over. -/
def verifySummoned (result : BTreeMap String (LockEntry F)) (summoned : String × Option String) :
    Except String (BTreeMap String (LockEntry F)) := do
  let (spec, source) := summoned
  let entry ← orFail (BTreeMap.get? existingLock.packages spec)
    s!"{spec} is not locked; run deka summon <source>"
  ensure (source == some (expectedSource entry)) s!"{spec} source differs from deka.lock"
  world.vetted spec
  return BTreeMap.insert result spec entry

/-- The summoned modules of the manifest, with their entries of the lockfile. -/
def verifyLockedAt (manifest : List (String × Option String)) :
    Except String (BTreeMap String (LockEntry F)) :=
  (manifest.filter fun (name, _) => Text.startsWith "@js/" name).foldlM
    (verifySummoned world existingLock) []

/-- The roots, which may only be empty when something is summoned. -/
def requireRoots (manifest : List (String × Option String)) (roots : List String) :
    Except String Unit :=
  if roots.isEmpty then do
    let summoned ← verifyLockedAt world existingLock manifest
    ensure (!summoned.isEmpty) "no packages declared in deka.json or deka.lock"
  else .ok ()

/-- What an install has before its loop. -/
def prepare (manifest : List (String × Option String)) (specs : List String) :
    Except String (State F) := do
  let roots := rootSpecs world existingLock manifest specs
  requireRoots world existingLock manifest roots
  ensure (!(locked && existingLock.packages.isEmpty))
    "--locked install requires an existing deka.lock"
  let s : State F ← startState world roots
  let summoned ← verifyLockedAt world existingLock manifest
  return { s with installed := summoned }

/-- The first difference between the lockfile and what is installed. -/
def lockDiff (installed : BTreeMap String (LockEntry F)) : Option String :=
  let changed := installed.findSome? fun (name, entry) =>
    match BTreeMap.get? existingLock.packages name with
    | some existing =>
      if existing.descriptor == entry.descriptor then none
      else some s!"{name} resolved to {entry.descriptor} but lock has {existing.descriptor}"
    | none => some s!"{name} is not in the existing lock"
  match changed with
  | some diff => some diff
  | none =>
    (BTreeMap.keys existingLock.packages).findSome? fun name =>
      if BTreeMap.containsKey installed name then none
      else some s!"{name} is present in lock but was not installed"

/-- What an install checks after its loop, before it writes the lockfile. -/
def settle (s : State F) : Except String (State F) :=
  match locked, lockDiff existingLock s.installed with
  | true, some diff => .error s!"--locked install would change deka.lock: {diff}"
  | _, _ => .ok s

/-- The resolution of a project, for at most `fuel` packages of the queue. -/
def resolveProject (manifest : List (String × Option String)) (specs : List String) (fuel : Nat) :
    Option (Except String (State F)) :=
  match prepare world existingLock locked manifest specs with
  | .error err => some (.error err)
  | .ok s =>
    (installLoop V R world existingLock locked fuel s).map fun outcome =>
      outcome.bind (settle existingLock locked)

end Install

end Deka.Pm
