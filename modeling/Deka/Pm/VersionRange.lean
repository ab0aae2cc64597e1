/-
Deka/Pm/VersionRange.lean

The version constraints of `version_range.rs`.

The `semver` crate is code outside the repository: its versions `V` and ranges `R` with
its parsers, its order and its matching are the operations of `Semver`.
-/
import Deka.Lib.Text

namespace Deka.Pm

open Deka.Lib

/-- The `semver` crate -/
class Semver (V R : Type) where
  /-- `Version::parse` -/
  parse : String → Except String V
  /-- `VersionReq::parse` -/
  parseReq : String → Except String R
  /-- `VersionReq::matches` -/
  matchesReq : R → V → Bool
  /-- `version.pre.is_empty()` -/
  isRelease : V → Bool
  /-- `Version::cmp` -/
  cmp : V → V → Ordering
  /-- `Version::to_string` -/
  toText : V → String

variable {V : Type} (R : Type) [Semver V R]

inductive Constraint (V R : Type)
  | any
  | exact (version : V)
  | range (req : R)

/-- Longest operators first. -/
def operators : List String := [">=", "<=", "^", "~", ">", "<", "="]

/-- The first operator that is followed by a version. -/
def splitOperator (trimmed : String) : List String → Option (String × String)
  | [] => none
  | op :: ops =>
    match Text.stripPrefix op trimmed with
    | none => splitOperator trimmed ops
    | some rest =>
      let versionText := Text.trimStartMatches 'v' (Text.trim rest)
      if versionText.isEmpty then splitOperator trimmed ops else some (op, versionText)

variable {R} in
def parseConstraint (raw : String) : Except String (Constraint V R) :=
  let trimmed := Text.trim raw
  if trimmed.isEmpty || trimmed == "latest" || trimmed == "*" then .ok .any
  else
    match splitOperator trimmed operators with
    | some (op, versionText) =>
      match Semver.parseReq V (op ++ versionText) with
      | .ok (req : R) => .ok (.range req)
      | .error err => .error s!"`{raw}` is not a valid semver range: {err}"
    | none =>
      match Semver.parse R (Text.trimStartMatches 'v' trimmed) with
      | .ok (version : V) => .ok (.exact version)
      | .error err => .error s!"`{raw}` is not a valid semver version: {err}"

variable [DecidableEq V]

def constraintMatches (constraint : Constraint V R) (version : V) : Bool :=
  match constraint with
  | .any => Semver.isRelease R version
  | .exact exact => version == exact
  | .range req => Semver.matchesReq req version

variable (V)

def parseCatalog (versions : List String) : Except String (List V) :=
  match versions with
  | [] => .ok []
  | raw :: rest =>
    let trimmed := Text.trimStartMatches 'v' (Text.trim raw)
    if trimmed.isEmpty then parseCatalog rest
    else
      match Semver.parse R trimmed with
      | .error err => .error s!"registry version `{raw}` is not semver: {err}"
      | .ok (version : V) =>
        match parseCatalog rest with
        | .error err => .error err
        | .ok versions => .ok (version :: versions)

variable {V}

/-- `Iterator::max`: the last of the greatest. -/
def maximum : List V → Option V
  | [] => none
  | v :: vs => some (vs.foldl (fun best v => if Semver.cmp R best v = .gt then best else v) v)

/-- The available versions, sorted as texts. -/
def describeNoMatch (constraintRaw : String) (catalog : List V) : String :=
  let available :=
    if catalog.isEmpty then "none"
    else ", ".intercalate ((catalog.map fun v => Semver.toText R v).mergeSort
      fun a b => decide (a ≤ b))
  s!"no published version satisfies `{constraintRaw}` -- available versions: {available}"

variable (V)

def selectBest (constraintRaw : String) (versions : List String) : Except String String := do
  let constraint : Constraint V R ← parseConstraint constraintRaw
  let parsed : List V ← parseCatalog V R versions
  let candidates := parsed.filter fun version => constraintMatches R constraint version
  let candidates :=
    match constraint with
    | .any => if candidates.isEmpty then parsed else candidates
    | _ => candidates
  match maximum R candidates with
  | some version => return Semver.toText R version
  | none => throw (describeNoMatch R constraintRaw parsed)

def satisfies (constraintRaw versionRaw : String) : Bool :=
  match (parseConstraint constraintRaw : Except String (Constraint V R)) with
  | .error _ => false
  | .ok .any => true
  | .ok constraint =>
    match (Semver.parse R (Text.trimStartMatches 'v' (Text.trim versionRaw)) : Except String V) with
    | .error _ => false
    | .ok version => constraintMatches R constraint version

end Deka.Pm
