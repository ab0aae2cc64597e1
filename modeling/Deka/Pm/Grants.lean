/-
Deka/Pm/Grants.lean

The grant table of `grants.rs`, which is derived from the installed packages and written beside
the lockfile.

The file is its text, or nothing; reading and writing a table as JSON are parameters.  What the
plan does to the project directory is `applyGrantTablePlan`.
-/
import Deka.Pm.Installing
import Deka.Pm.Resolve

namespace Deka.Pm

open Deka.Lib Deka.Vm

variable {F : Type}

structure HostGrant where
  name : String
  version : String
  digest : String
  kinds : List String
deriving DecidableEq

structure GrantTable where
  grants : List HostGrant
deriving DecidableEq

/-- The kinds of the host catalog, with their grant owners. -/
def hostCatalog : List (String × String) :=
  [("crypto", "@deka/crypto"), ("fs", "@deka/fs"), ("net", "@deka/tcp"), ("tls", "@deka/tls"),
    ("time", "@deka/time"), ("db", "@deka/db")]

def catalogKindsForPackage (name : String) : List String :=
  (hostCatalog.filter fun (_, grantOwner) => grantOwner == name).map Prod.fst

/-- The version in a descriptor, or the descriptor. -/
def grantVersion (name descriptor : String) : String :=
  match Text.stripPrefix (name ++ "@") descriptor with
  | some version => if version.isEmpty then descriptor else version
  | none => descriptor

/-- The grant of an installed package, if the catalog assigns kinds to it and it is pinned. -/
def deriveGrant (name : String) (entry : LockEntry F) : Option HostGrant :=
  let kinds := catalogKindsForPackage name
  if kinds.isEmpty then none
  else
    (metadataHash entry.metadata "fsGraph").map fun digest =>
      { name, version := grantVersion name entry.descriptor, digest, kinds }

def deriveGrantTable (installed : BTreeMap String (LockEntry F)) : GrantTable where
  grants := installed.filterMap fun (name, entry) => deriveGrant name entry

section File

variable (fromJson : Bytes → Option GrantTable) (toJson : GrantTable → Bytes)

/-- `read_grant_table_at`, of the file's text -/
def readGrantTable (file : Option Bytes) : Option GrantTable := file.bind fromJson

def planGrantTableWrite (file : Option Bytes) (derived : GrantTable) : GrantTablePlan :=
  match derived.grants.isEmpty, readGrantTable fromJson file with
  | true, none => .unchanged
  | true, some _ => .remove
  | false, some table => if table = derived then .unchanged else .write (toJson derived)
  | false, none => .write (toJson derived)

def ensureLockedGrantPlan (locked : Bool) (plan : GrantTablePlan) : Except String Unit :=
  match locked, plan with
  | false, _ | true, .unchanged => .ok ()
  | true, _ =>
    .error "--locked install would change deka.grants.json (run a normal install to refresh the grant table)"

/-- The plan that `deliver_grant_table` applies. -/
def deliverGrantTable (file : Option Bytes) (installed : BTreeMap String (LockEntry F))
    (locked : Bool) : Except String GrantTablePlan := do
  let plan := planGrantTableWrite fromJson toJson file (deriveGrantTable installed)
  ensureLockedGrantPlan locked plan
  return plan

variable {fromJson toJson}

/-- Under `--locked` the grant table is not written. -/
theorem deliverGrantTable_locked {file : Option Bytes}
    {installed : BTreeMap String (LockEntry F)} {plan : GrantTablePlan}
    (h : deliverGrantTable fromJson toJson file installed true = .ok plan) :
    plan.apply file = file := by
  rw [deliverGrantTable] at h
  cases hplan : planGrantTableWrite fromJson toJson file (deriveGrantTable installed) with
  | unchanged =>
    rw [hplan] at h
    cases h
    rfl
  | write table =>
    rw [hplan] at h
    cases h
  | remove =>
    rw [hplan] at h
    cases h

end File

end Deka.Pm
