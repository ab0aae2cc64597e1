/-
Deka/Pm/Transaction.lean

The install transaction of `install.rs` over a project directory: the journal with its
backups, the exchange of package trees, the commit, and the recovery that runs after a
crash.

A package directory is one value, a `Tree`: the files of the package and whether the
marker `.deka-staged-package` is among them.  `rename`, the directory exchange, the removal
of a file and the write of the journal (a temporary file renamed over it) are atomic; the
plain writes and copies are not, and a crash can leave any prefix of what they write.
`unique_suffix` and the nanosecond names of the staging directories are numbers that no
earlier name has.  The calls that only flush a directory have no effect here.
-/
import Mathlib.Data.List.Infix
import Deka.Lib.Crash

namespace Deka.Pm

open Deka.Lib

/-! ### The project directory -/

abbrev Bytes := List UInt8

/-- The files of a package directory, but for the marker, by their paths. -/
abbrev Files := List (String × Bytes)

structure Tree where
  files : Files
  /-- `STAGED_MARKER` is among the files. -/
  staged : Bool
deriving DecidableEq

/-- Where package trees live: in the modules directory under the package's name, or alone
under a staging directory with a number of its own. -/
inductive Place
  | package (name : String)
  | staging (root : Nat)
deriving DecidableEq

inductive File
  | lock
  | grants
  | manifest
  | backup (suffix : Nat)
  | temp (suffix : Nat)
deriving DecidableEq

structure GrantTableSnapshot where
  path : File
  backup : Option File
deriving DecidableEq

structure InstallJournalPackage where
  staging : Place
  destination : Place
  hadDestination : Bool
  swapped : Bool
deriving DecidableEq

structure InstallJournal where
  lockPath : File
  lockBackup : Option File
  grant : GrantTableSnapshot
  manifest : Option (File × Option File)
  packages : List InstallJournalPackage
deriving DecidableEq

/-- The backup of the manifest. -/
def InstallJournal.manifestBackup (journal : InstallJournal) : Option File :=
  match journal.manifest with
  | some (_, backup) => backup
  | none => none

structure Disk where
  tree : Place → Option Tree
  file : File → Option Bytes
  journal : Option InstallJournal
  /-- The first suffix that is not in use. -/
  suffix : Nat

namespace Disk

def setTree (s : Disk) (place : Place) (tree : Option Tree) : Disk :=
  { s with tree := fun p => if p = place then tree else s.tree p }

def setFile (s : Disk) (file : File) (bytes : Option Bytes) : Disk :=
  { s with file := fun f => if f = file then bytes else s.file f }

def setJournal (s : Disk) (journal : Option InstallJournal) : Disk :=
  { s with journal := journal }

/-- The two trees change places. -/
def exchange (s : Disk) (first second : Place) : Disk :=
  (s.setTree first (s.tree second)).setTree second (s.tree first)

def treeExists (s : Disk) (place : Place) : Bool := (s.tree place).isSome

def fileExists (s : Disk) (file : File) : Bool := (s.file file).isSome

/-- `place.join(STAGED_MARKER).is_file()` -/
def isMarked (s : Disk) (place : Place) : Bool :=
  match s.tree place with
  | some tree => tree.staged
  | none => false

end Disk

/-! ### File operations -/

abbrev FsM (α : Type) := Crashing String Disk α

open Crashing

/-- A number for names that are not in use. -/
def uniqueSuffix : FsM Nat := do
  let n ← look fun s => s.suffix
  step fun s => { s with suffix := s.suffix + 1 }
  return n

def removeFile (file : File) : FsM Unit :=
  stepIf (fun s => s.fileExists file) "no such file" fun s => s.setFile file none

def renameFile (source target : File) : FsM Unit :=
  stepIf (fun s => s.fileExists source) "no such file" fun s =>
    (s.setFile target (s.file source)).setFile source none

/-- `fs::write`: a crash can leave any prefix. -/
def writeFile (file : File) (bytes : Bytes) : FsM Unit :=
  stepVia (fun s => bytes.inits.map fun written => s.setFile file (some written))
    fun s => s.setFile file (some bytes)

/-- `fs::copy` -/
def copyFile (source target : File) : FsM Unit :=
  stepVia
    (fun s => ((s.file source).getD []).inits.map fun written => s.setFile target (some written))
    fun s => s.setFile target (s.file source)

def removeDirAll (place : Place) : FsM Unit :=
  stepIf (fun s => s.treeExists place) "no such directory" fun s => s.setTree place none

def renameTree (source target : Place) : FsM Unit :=
  stepIf (fun s => s.treeExists source && !s.treeExists target) "directory cannot be renamed"
    fun s => (s.setTree target (s.tree source)).setTree source none

def swapDirectories (first second : Place) : FsM Unit :=
  stepIf (fun s => s.treeExists first && s.treeExists second) "no such directory"
    fun s => s.exchange first second

/-- Write or remove the marker of a tree. -/
def Disk.mark (s : Disk) (place : Place) (staged : Bool) : Disk :=
  s.setTree place ((s.tree place).map fun tree => { tree with staged := staged })

def markStagingTree (staging : Place) : FsM Unit :=
  stepIf (fun s => s.treeExists staging) "no such directory" fun s => s.mark staging true

def removeMarker (destination : Place) : FsM Unit :=
  stepIf (fun s => s.isMarked destination) "no such file" fun s => s.mark destination false

/-! ### Snapshots -/

def snapshotFile (path : File) : FsM (File × Option File) := do
  if !(← look fun s => s.fileExists path) then
    return (path, none)
  let backup := File.backup (← uniqueSuffix)
  copyFile path backup
  return (path, some backup)

def GrantTableSnapshot.snapshot : FsM GrantTableSnapshot := do
  let (path, backup) ← snapshotFile .grants
  return { path, backup }

def GrantTableSnapshot.restore (snapshot : GrantTableSnapshot) : FsM Unit := do
  match snapshot.backup with
  | some backup =>
    if ← look fun s => s.fileExists backup then
      if ← look fun s => s.fileExists snapshot.path then
        removeFile snapshot.path
      renameFile backup snapshot.path
  | none =>
    if ← look fun s => s.fileExists snapshot.path then
      removeFile snapshot.path

/-- A backup that is no longer needed; where it cannot be removed there is a warning. -/
def removeBackup : Option File → FsM Unit
  | some backup => quietly (removeFile backup)
  | none => pure ()

def GrantTableSnapshot.discard (snapshot : GrantTableSnapshot) : FsM Unit :=
  removeBackup snapshot.backup

/-! ### The transaction -/

/-- `InstallTransaction`, whose journal path is fixed -/
structure InstallTransaction where
  journal : InstallJournal

namespace InstallTransaction

def persist (transaction : InstallTransaction) : FsM Unit :=
  step fun s => s.setJournal (some transaction.journal)

def begin : FsM InstallTransaction := do
  let (lockPath, lockBackup) ← snapshotFile .lock
  let grant ← GrantTableSnapshot.snapshot
  let manifest ← snapshotFile .manifest
  let transaction : InstallTransaction :=
    { journal := { lockPath, lockBackup, grant, manifest := some manifest, packages := [] } }
  transaction.persist
  return transaction

end InstallTransaction

def replaceInstalledPackage (staging destination : Place) : FsM Unit := do
  if ← look fun s => s.treeExists destination then
    swapDirectories staging destination
  else
    renameTree staging destination

namespace InstallTransaction

/-- The transaction with one more entry in its journal. -/
def push (transaction : InstallTransaction) (package : InstallJournalPackage) :
    InstallTransaction :=
  { journal := { transaction.journal with packages := transaction.journal.packages ++ [package] } }

def commitPackage (transaction : InstallTransaction) (staging destination : Place) :
    FsM InstallTransaction := do
  markStagingTree staging
  let hadDestination ← look fun s => s.treeExists destination
  let entry : InstallJournalPackage :=
    { staging, destination, hadDestination, swapped := false }
  (transaction.push entry).persist
  replaceInstalledPackage staging destination
  let transaction := transaction.push { entry with swapped := true }
  transaction.persist
  return transaction

/-- What `finish` does for each package, once the journal is gone. -/
def cleanup : List InstallJournalPackage → FsM Unit
  | [] => pure ()
  | package :: packages => do
    quietly (removeMarker package.destination)
    quietly (removeDirAll package.staging)
    cleanup packages

def finish (transaction : InstallTransaction) : FsM Unit := do
  -- the commit point
  stepIf (fun s => s.journal.isSome) "no such file" fun s => s.setJournal none
  removeBackup transaction.journal.lockBackup
  transaction.journal.grant.discard
  removeBackup transaction.journal.manifestBackup
  cleanup transaction.journal.packages

end InstallTransaction

/-! ### Recovery -/

/-- Whether recovery takes the exchange of an entry as completed. -/
def exchangeCompleted (s : Disk) (package : InstallJournalPackage) : Bool :=
  package.swapped || s.isMarked package.destination ||
    (!package.hadDestination && s.treeExists package.destination)

/-- What `recover_install_transaction` does for one entry of the journal. -/
def recoverPackage (package : InstallJournalPackage) : FsM Unit := do
  let completed ← look fun s => exchangeCompleted s package
  let stagingExists ← look fun s => s.treeExists package.staging
  let destinationExists ← look fun s => s.treeExists package.destination
  if completed && package.hadDestination then
    if stagingExists && destinationExists then
      swapDirectories package.staging package.destination
    else if stagingExists then
      renameTree package.staging package.destination
  else if completed && destinationExists then
    removeDirAll package.destination

def recoverPackages : List InstallJournalPackage → FsM Unit
  | [] => pure ()
  | package :: packages => do
    recoverPackage package
    recoverPackages packages

def recoverLock (path : File) : Option File → FsM Unit
  | some backup => do
    if ← look fun s => s.fileExists backup then
      if ← look fun s => s.fileExists path then
        removeFile path
      renameFile backup path
  | none => do
    if ← look fun s => s.fileExists path then
      removeFile path

def recoverManifest : Option (File × Option File) → FsM Unit
  | some (path, some backup) => do
    if ← look fun s => s.fileExists backup then
      renameFile backup path
  | some (path, none) => do
    if ← look fun s => s.fileExists path then
      removeFile path
  | none => pure ()

def recoverInstallTransaction : FsM Unit := do
  match ← look fun s => s.journal with
  | none => return
  | some journal =>
    recoverPackages journal.packages.reverse
    recoverLock journal.lockPath journal.lockBackup
    recoverManifest journal.manifest
    journal.grant.restore
    step fun s => s.setJournal none

/-! ### An install -/

/-- What the installer decides to do with the grant table. -/
inductive GrantTablePlan
  | write (table : Bytes)
  | remove
  | unchanged

/-- A write through a temporary file that is renamed over the target. -/
def writeAtomically (path : File) (bytes : Bytes) : FsM Unit := do
  let temp := File.temp (← uniqueSuffix)
  writeFile temp bytes
  renameFile temp path

def writeLockfile (lock : Bytes) : FsM Unit := writeAtomically .lock lock

def applyGrantTablePlan : GrantTablePlan → FsM Unit
  | .unchanged => pure ()
  | .remove => do
    if ← look fun s => s.fileExists .grants then
      removeFile .grants
  | .write table => writeAtomically .grants table

/-- `record_root_dependencies`, with its edit of the manifest's text as a parameter. -/
def recordRootDependencies (edit : Bytes → Bytes) : FsM Unit := do
  match ← look fun s => s.file .manifest with
  | none => return
  | some raw => writeFile .manifest (edit raw)

/-- A package that was fetched: its name and its files. -/
structure Fetched where
  name : String
  files : Files

/-- The files of a package under a staging directory of its own. -/
def stage (files : Files) : FsM Place := do
  let root ← uniqueSuffix
  step fun s => s.setTree (.staging root) (some { files, staged := false })
  return .staging root

/-- The transaction is opened when the first package has been staged. -/
def ensureBegun : Option InstallTransaction → FsM InstallTransaction
  | some transaction => pure transaction
  | none => InstallTransaction.begin

def installPackages (transaction : Option InstallTransaction) :
    List Fetched → FsM (Option InstallTransaction)
  | [] => pure transaction
  | package :: packages => do
    let staging ← stage package.files
    let begun ← ensureBegun transaction
    let begun ← begun.commitPackage staging (.package package.name)
    installPackages (some begun) packages

/-- What one install does to the project directory before it is committed, for the packages
it fetched and the files it decided to write. -/
def prepareInstall (packages : List Fetched) (lock : Bytes) (grants : GrantTablePlan)
    (manifest : Option (Bytes → Bytes)) : FsM InstallTransaction := do
  let transaction ← installPackages none packages
  let transaction ← ensureBegun transaction
  writeLockfile lock
  applyGrantTablePlan grants
  match manifest with
  | some edit => recordRootDependencies edit
  | none => pure ()
  return transaction

def runInstall (packages : List Fetched) (lock : Bytes) (grants : GrantTablePlan)
    (manifest : Option (Bytes → Bytes)) : FsM Unit := do
  let transaction ← prepareInstall packages lock grants manifest
  transaction.finish

end Deka.Pm
