/-
Deka/Security/FileScope.lean

The file operations of the host bridge and the check in front of them (`security.rs`,
`fs_bridge.rs`).

The check compares normalised paths; the operation hands the path to the system.  `cwd` is the
place of the working directory, and an operation is known by the places it reads, creates or
changes (`touched`).
-/
import Deka.Lib.MakeDirs
import Deka.Security.Policy

namespace Deka.Security

open Deka.Lib

/-! ### Normalised paths -/

/-- A component as a path prints it. -/
def componentText : Component → String
  | .here => "."
  | .up => ".."
  | .name name => name

section

variable (t : Tree) (cwd : Place)

/-- Walk up to the nearest ancestor that exists, and put what was walked past behind it.  The
path is a list with the last component at the head. -/
def ancestor (start : Place) : List Component → List String → Option (List String)
  | .name name :: above, trailing =>
      match walk t maxLinks start above.reverse with
      | .ok (.found place) => some (place.reverse ++ name :: trailing)
      | _ => ancestor start above (name :: trailing)
  -- a `..`, and nothing sensible to put back
  | _, _ => none

def normalizePath (value : String) : List String :=
  match locate t cwd value with
  | .ok place => place.reverse
  | .error _ =>
      let start := origin cwd value
      (ancestor t start (lexical value).reverse []).getD
        (start.reverse ++ (lexical value).map componentText)

/-! ### Operations -/

/-- The operations that take a path. -/
inductive FsOp where
  | readFile
  | writeFile
  | open (mode : String)
  | readDir
  | mkdirs
deriving DecidableEq, Repr

/-- The modes that the bridge takes for writing. -/
def modeWrites (mode : String) : Bool := mode.toList.any fun c => c ∈ ['w', 'a', 'x', 'c', '+']

def FsOp.capability : FsOp → Capability
  | .readFile | .readDir => .read
  | .writeFile | .mkdirs => .write
  | .open mode => if modeWrites mode then .write else .read

def SecurityScope.rule (scope : SecurityScope) (capability : Capability) : RuleList :=
  if capability = .write then scope.write else scope.read

structure PermissionDenied where
  capability : String
  target : String
deriving DecidableEq, Repr

/-- `enforce_scope`; the answer to a prompt comes from outside. -/
def enforceScope (capability : Capability) (allow deny : RuleList) (granted : Bool)
    (target : Option String) : Except PermissionDenied Unit :=
  let denied : PermissionDenied := { capability := capability.key, target := target.getD "*" }
  if ruleDenies (normalizePath t cwd) capability deny target then .error denied
  else if ¬ ruleAllows (normalizePath t cwd) capability allow target then
    if granted then .ok () else .error denied
  else .ok ()

/-- The check of `fs_call_proto_impl`. -/
def enforceFs (policy : SecurityPolicy) (granted : Bool) (op : FsOp) (path : String) :
    Except PermissionDenied Unit :=
  enforceScope t cwd op.capability (policy.allow.rule op.capability)
    (policy.deny.rule op.capability) granted (some path)

/-- The file that is written, which may be a new one. -/
def writePlaces (path : String) : List Place :=
  match resolve t cwd path with
  | .ok (.found place) => if t.node place = some .dir then [] else [place]
  | .ok (.missing dir name) => [name :: dir]
  | .error _ => []

/-- `OpenOptions::open` with the options of a mode -/
def openPlaces (mode path : String) : List Place :=
  let has (c : Char) : Bool := c ∈ mode.toList
  let read := has 'r' || has '+'
  if !read && !modeWrites mode then []
  else if has 'a' && has 'w' && !has 'x' then []
  else if has 'x' then
    if '\x00' ∈ path.toList then []
    else
      match mkdir t (origin cwd path) (components path).reverse with
      | .ok (dir, name) => [name :: dir]
      | .error _ => []
  else if has 'w' || has 'a' || has 'c' then writePlaces t cwd path
  else
    match locate t cwd path with
    | .error _ => []
    | .ok place => if modeWrites mode ∧ t.node place = some .dir then [] else [place]

/-- The places that an operation reads, creates or changes. -/
def touched (op : FsOp) (path : String) : List Place :=
  let path := Text.trimMatches '\x00' path
  if path = "" then []
  else
    match op with
    | .readFile =>
        match locate t cwd path with
        | .error _ => []
        | .ok place => if t.node place = some .dir then [] else [place]
    | .writeFile => writePlaces t cwd path
    | .open mode => openPlaces t cwd mode path
    | .readDir =>
        match locate t cwd path with
        | .error _ => []
        | .ok place => if t.node place = some .dir then [place] else []
    | .mkdirs => (createDirAll t cwd path).created

end

end Deka.Security
