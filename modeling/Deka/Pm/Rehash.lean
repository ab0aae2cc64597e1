/-
Deka/Pm/Rehash.lean

The text of the lockfile in `lock.rs`, and the rehash of installed packages in `install.rs`.

A rehash rewrites the lockfile once for each package, and the grant table when it is through
with all of them; it runs in no transaction.  `serde_json` reads and prints values; what the
files of a package hash to, and which writes fail, is the world's.
-/
import Deka.Pm.CrashAtomic
import Deka.Pm.Grants

namespace Deka.Pm

open Deka.Lib Deka.Vm Crashing

variable {F : Type}

/-! ### The text of the lockfile -/

/-- `serde_json`, as it reads and prints values and grant tables. -/
structure SerdeJson (F : Type) where
  fromStr : Bytes → Option (Json F)
  toWriterPretty : Json F → Bytes
  tableFromJson : Bytes → Option GrantTable
  /-- the text of the grant table's file -/
  tableToJson : GrantTable → Bytes

def asU32 : Json F → Option Nat
  | .number (.int n) => if 0 ≤ n ∧ n < 4294967296 then some n.toNat else none
  | _ => none

def decodeEntry : Json F → Option (LockEntry F)
  | .array [.string descriptor, .string resolved, metadata, .string integrity] =>
    some { descriptor, resolved, metadata, integrity }
  | _ => none

def encodeEntry (entry : LockEntry F) : Json F :=
  .array [.string entry.descriptor, .string entry.resolved, entry.metadata,
    .string entry.integrity]

def decodePackages : Json F → Option (BTreeMap String (LockEntry F))
  | .object members =>
    (members.mapM fun member => (decodeEntry member.2).map fun entry => (member.1, entry)).map
      (BTreeMap.extend [])
  | _ => none

/-- The members of a `DekaLock`. -/
def decodeLock (value : Json F) : Option (DekaLock F) := do
  let lockfileVersion ← (jsonGet value "lockfileVersion").bind asU32
  let packages ← (jsonGet value "packages").bind decodePackages
  return { lockfileVersion, packages }

def encodeLock (lock : DekaLock F) : Json F :=
  .object [("lockfileVersion", .number (.int lock.lockfileVersion)),
    ("packages", .object (lock.packages.map fun (name, entry) => (name, encodeEntry entry)))]

/-- `DekaLock::default`, the members of a `DekaLock`, or what a lockfile of an earlier format
has of them -/
def parseLockfile (json : SerdeJson F) (contents : Bytes) : DekaLock F :=
  match json.fromStr contents with
  | none => {}
  | some value =>
    match decodeLock value with
    | some lock => lock
    | none =>
      { lockfileVersion := ((jsonGet value "lockfileVersion").bind asU32).getD 1
        packages := (((jsonGet value "php").bind fun php => jsonGet php "packages").bind
          decodePackages).getD [] }

def readLockfile (json : SerdeJson F) : Option Bytes → DekaLock F
  | some contents => parseLockfile json contents
  | none => {}

/-- What `write_lockfile_at` writes: the printed lock and a line feed. -/
def lockfileText (json : SerdeJson F) (lock : DekaLock F) : Bytes :=
  json.toWriterPretty (encodeLock lock) ++ [10]

def DekaLock.put (lock : DekaLock F) (name : String) (entry : LockEntry F) : DekaLock F :=
  { lock with packages := BTreeMap.insert lock.packages name entry }

/-! ### The rehash -/

/-- Where a write through a temporary file fails: before the file is renamed over its target,
or when the directory is flushed. -/
inductive Fault
  | unwritten (err : String)
  | unsynced (err : String)

/-- The surroundings of a rehash. -/
structure RehashWorld where
  /-- whether a package's directory is there, below the modules directory -/
  isDir : List String → Bool
  display : List String → String
  computePackageIntegrity : List String → Except String PackageIntegrity
  /-- how the writes of the lockfile end -/
  lockWrite : Nat → Option Fault
  /-- how the write or the removal of the grant table ends -/
  tableWrite : Option Fault

section Rehash

variable (json : SerdeJson F) (world : RehashWorld)

def replaceFile (fault : Option Fault) (path : File) (bytes : Bytes) : FsM Unit :=
  match fault with
  | none => writeAtomically path bytes
  | some (.unwritten err) => fail err
  | some (.unsynced err) => do
    writeAtomically path bytes
    fail err

def updateLockEntryAt (fault : Option Fault) (name : String) (entry : LockEntry F) : FsM Unit := do
  let lock ← look fun s => readLockfile json (s.file .lock)
  replaceFile fault .lock (lockfileText json (lock.put name entry))

/-- The metadata with the hashes of the package's files. -/
def rehashedMetadata (integrity : PackageIntegrity) : Json F → Json F
  | .object members =>
    .object (BTreeMap.insert
      (BTreeMap.insert members "moduleGraph" (hashObject integrity.moduleGraph))
      "fsGraph" (hashObject integrity.fsGraph))
  | metadata => metadata

/-- The entry that a package gets, made from the one it has in `lock`. -/
def rehashedEntry (lock : DekaLock F) (name : String) : Except String (LockEntry F) := do
  let packageRoot ← phpModulesPathForIn name
  ensure (world.isDir packageRoot)
    s!"package '{name}' is missing from ds_modules (expected {world.display packageRoot})"
  let integrity ← (world.computePackageIntegrity packageRoot).mapError fun err =>
    s!"failed to compute package integrity for {name}: {err}"
  let entry ← orFail (BTreeMap.get? lock.packages name)
    s!"package '{name}' is missing from deka.lock"
  return { entry with metadata := rehashedMetadata integrity entry.metadata }

/-- The loop of `rehash_php_packages_in`; `n` counts the writes. -/
def rehashPackages (lock : DekaLock F) : Nat → List String → FsM Unit
  | _, [] => pure ()
  | n, name :: names => do
    match rehashedEntry world lock name with
    | .error err => fail err
    | .ok entry => updateLockEntryAt json (world.lockWrite n) name entry
    rehashPackages lock (n + 1) names

/-- `apply_grant_table_plan`, where it can fail -/
def applyGrantTablePlanWith (fault : Option Fault) (plan : GrantTablePlan) : FsM Unit :=
  match plan, fault with
  | .unchanged, _ => pure ()
  | .remove, none => applyGrantTablePlan .remove
  | .remove, some (.unwritten err) => fail err
  | .remove, some (.unsynced err) => fail err
  | .write table, fault => replaceFile fault .grants table

/-- `rewrite_grant_table`, of the packages in the lockfile -/
def rewriteGrantTable : FsM Unit := do
  let refreshed ← look fun s => readLockfile json (s.file .lock)
  let file ← look fun s => s.file .grants
  applyGrantTablePlanWith world.tableWrite
    (planGrantTableWrite json.tableFromJson json.tableToJson file
      (deriveGrantTable refreshed.packages))

/-- The packages a rehash is for. -/
def rehashSpecs (lock : DekaLock F) (specs : List String) : List String :=
  if specs.isEmpty then BTreeMap.keys lock.packages else specs

def rehashPhpPackagesIn (specs : List String) : FsM Unit := do
  let lock ← look fun s => readLockfile json (s.file .lock)
  match rehashSpecs lock specs with
  | [] => fail "no packages found to rehash"
  | name :: names => do
    rehashPackages json world lock 0 (name :: names)
    rewriteGrantTable json world

end Rehash

end Deka.Pm
