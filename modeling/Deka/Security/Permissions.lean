/-
Deka/Security/Permissions.lean

The phase-aware permissions of `permissions.rs`: how the block `permissions` of a manifest is
parsed, and the policy that each phase of execution gets.

A parser gives what it read and its diagnostics, each of which is an error.  Paths are those of a
POSIX system, and the working directory is given as a string.
-/
import Deka.Security.PolicyJson

namespace Deka.Security

open Deka.Lib

variable {N : Type}

/-! ### Permissions -/

inductive ExecutionPhase
  | devRequest
  | devBuild
  | prodRequest
deriving DecidableEq, Repr

inductive FsGrant
  | denied
  | workingDir
  | paths (paths : List String)
deriving DecidableEq, Repr

structure Capabilities where
  read : FsGrant := .denied
  write : FsGrant := .denied
  net : List String := []
  env : List String := []
  db : List String := []
  wasm : Bool := false
  importing : Bool := false
deriving DecidableEq, Repr

/-- `PhasePolicy`; the policy of the build slots are their capabilities. -/
structure PhasePolicy where
  caps : Capabilities := {}
  build : Option Capabilities := none
deriving DecidableEq, Repr

structure Permissions where
  dev : PhasePolicy
  prod : PhasePolicy
deriving DecidableEq, Repr

/-- `Path::join` -/
def joinPath (dir path : String) : String :=
  if Text.startsWith "/" path then path
  else if dir.isEmpty || Text.endsWith "/" dir then dir ++ path
  else dir ++ "/" ++ path

def fsRule (grant : FsGrant) (workingDir : String) : RuleList :=
  match grant with
  | .denied => .none
  | .workingDir => .list [workingDir]
  | .paths paths => .list (paths.map fun path => joinPath workingDir path)

def listRule (items : List String) : RuleList := if items.isEmpty then .none else .list items

/-- The capabilities of a phase, and whether the user may be asked. -/
def Permissions.phase (permissions : Permissions) : ExecutionPhase → Capabilities × Bool
  | .devRequest => (permissions.dev.caps, true)
  | .prodRequest => (permissions.prod.caps, true)
  | .devBuild => (permissions.dev.build.getD {}, false)

def Permissions.resolve (permissions : Permissions) (phase : ExecutionPhase)
    (workingDir : String) : SecurityPolicy :=
  let (caps, prompt) := permissions.phase phase
  { allow :=
      { read := fsRule caps.read workingDir
        write := fsRule caps.write workingDir
        net := listRule caps.net
        env := listRule caps.env
        run := .none
        db := listRule caps.db
        wasm := if caps.wasm then .all else .none
        dynamic := false }
    deny := {}
    prompt }

structure PermissionsParseOutcome where
  permissions : Option Permissions
  diagnostics : List PolicyDiagnostic

def PermissionsParseOutcome.hasErrors (outcome : PermissionsParseOutcome) : Bool :=
  outcome.diagnostics.any fun diag => diag.level = .error

/-- `error` -/
def errorAt (code path message : String) : PolicyDiagnostic := ⟨.error, code, path, message⟩

def profileKeys : List String := ["dev", "prod"]

def capabilityKeys : List String :=
  ["read", "write", "net", "env", "db", "wasm", "import", "build"]

def buildCapabilityKeys : List String := ["read", "write", "net", "env", "db", "wasm", "import"]

/-! ### Entries -/

def validateRelativePath (raw : String) : Except String String :=
  let trimmed := Text.trim raw
  if trimmed.isEmpty then .error "Path entries must not be empty"
  else if trimmed.toList.contains '\x00' then .error "Path entries must not contain NUL bytes"
  else if Text.startsWith "/" trimmed then
    .error s!"\"{trimmed}\" is an absolute path; permissions paths are relative to the working directory"
  else if (Text.split '/' trimmed).contains ".." then
    .error ("\"" ++ trimmed ++ "\" escapes the working directory with \u0060..\u0060; permissions paths must stay inside it")
  else .ok trimmed

/-- What is wrong with a label of a hostname. -/
def labelError (raw label : String) : Option String :=
  if 63 < label.utf8ByteSize then some s!"\"{raw}\" has a DNS label over 63 characters"
  else if Text.startsWith "-" label || Text.endsWith "-" label then
    some s!"\"{raw}\" has a DNS label starting or ending with '-'"
  else if !label.toList.all fun c => c.isAlphanum || c == '-' then
    some s!"\"{raw}\" has characters outside a-z, 0-9, and '-'"
  else none

/-- The labels that a hostname is checked by: a wildcard may stand before them. -/
def hostLabels (raw trimmed : String) : Except String (List String) :=
  match Text.split '.' trimmed with
  | "*" :: labels =>
    if labels.isEmpty then .error "\"*\" alone is not a hostname; use an explicit name"
    else .ok labels
  | labels =>
    if Text.startsWith "*" trimmed then
      .error s!"\"{raw}\" misuses a wildcard; only a leading *.label is allowed"
    else .ok labels

def validateHostname (raw : String) : Except String String :=
  let trimmed := (Text.trim raw).map Char.toLower
  if trimmed.isEmpty then .error "Hostname entries must not be empty"
  else if 253 < trimmed.utf8ByteSize then
    .error s!"\"{raw}\" exceeds the 253-character hostname limit"
  else if Text.contains "://" trimmed then
    .error s!"\"{raw}\" includes a URL scheme; list hostnames only (https is implied)"
  else if trimmed.toList.any fun c => ['/', ':', '@', '?', '#', '\\'].contains c then
    .error s!"\"{raw}\" includes a port or path; list bare hostnames only"
  else if trimmed.toList.any Text.isWhitespace then .error s!"\"{raw}\" contains whitespace"
  else if (Text.split '.' trimmed).any String.isEmpty then
    .error s!"\"{raw}\" has an empty DNS label"
  else do
    let labels ← hostLabels raw trimmed
    match labels.findSome? (labelError raw) with
    | some message => .error message
    | none => .ok trimmed

/-- Whether a text is the name of an environment variable. -/
def isEnvName (name : String) : Bool :=
  !name.isEmpty && (name.toList.head?.any fun c => c.isAlpha || c == '_') &&
    name.toList.all fun c => c.isAlphanum || c == '_'

/-! ### Lists -/

/-- What one of the parsers of lists says, and how it checks an entry; every message has its
code before it. -/
structure ListKind where
  requires : String × String
  invalid : String × String
  notString : String × String
  validate : String → Except (String × String) String

/-- The entries of a list from the index on. -/
def parseEntries (path : String) (notString : String × String)
    (validate : String → Except (String × String) String) (idx : Nat) :
    List (Value N) → List String × List PolicyDiagnostic
  | [] => ([], [])
  | item :: items =>
    let (names, diagnostics) := parseEntries path notString validate (idx + 1) items
    match item.asStr with
    | none => (names, errorAt notString.1 s!"{path}[{idx}]" notString.2 :: diagnostics)
    | some raw =>
      match validate raw with
      | .ok name => (name :: names, diagnostics)
      | .error (code, message) => (names, errorAt code s!"{path}[{idx}]" message :: diagnostics)

def parseList (kind : ListKind) (path : String) (value : Option (Value N)) :
    List String × List PolicyDiagnostic :=
  match value with
  | none => ([], [])
  | some value =>
    match value.asBool with
    | some flag => ([], if flag then [errorAt kind.requires.1 path kind.requires.2] else [])
    | none =>
      match value.asArray with
      | none => ([], [errorAt kind.invalid.1 path kind.invalid.2])
      | some items => parseEntries path kind.notString kind.validate 0 items

/-- A check of an entry whose errors all have one code. -/
def withCode (code : String) (validate : String → Except String String) (raw : String) :
    Except (String × String) String := (validate raw).mapError fun message => (code, message)

def netKind : ListKind where
  requires := ("PERMISSIONS_NET_REQUIRES_HOSTNAMES",
    "\u0060net\u0060 does not accept \u0060true\u0060; list explicit hostnames (https only, checked on every redirect hop)")
  invalid := ("PERMISSIONS_INVALID_NET", "Expected \u0060false\u0060 or an array of hostnames")
  notString := ("PERMISSIONS_HOST_NOT_STRING", "Hostname entries must be strings")
  validate := withCode "PERMISSIONS_INVALID_HOSTNAME" validateHostname

def parseNetList (path : String) (value : Option (Value N)) :
    List String × List PolicyDiagnostic := parseList netKind path value

def envKind : ListKind where
  requires := ("PERMISSIONS_ENV_REQUIRES_NAMES",
    "\u0060env\u0060 does not accept \u0060true\u0060; list exact environment-variable names")
  invalid := ("PERMISSIONS_INVALID_ENV",
    "Expected \u0060false\u0060 or an array of environment-variable names")
  notString := ("PERMISSIONS_ENV_NOT_STRING", "Environment name entries must be strings")
  validate raw :=
    let name := Text.trim raw
    if isEnvName name then .ok name
    else .error ("PERMISSIONS_INVALID_ENV_NAME",
      s!"\"{raw}\" is not a valid environment-variable name")

def parseEnvList (path : String) (value : Option (Value N)) :
    List String × List PolicyDiagnostic := parseList envKind path value

def dbKind : ListKind where
  requires := ("PERMISSIONS_DB_REQUIRES_NAMES",
    "\u0060db\u0060 does not accept \u0060true\u0060; list declared database connection names")
  invalid := ("PERMISSIONS_INVALID_DB",
    "Expected \u0060false\u0060 or an array of database connection names")
  notString := ("PERMISSIONS_DB_NOT_STRING", "Database connection name entries must be strings")
  validate raw :=
    let name := Text.trim raw
    if name.isEmpty then
      .error ("PERMISSIONS_DB_EMPTY", "Database connection name entries must not be empty")
    else .ok name

def parseDbList (path : String) (value : Option (Value N)) :
    List String × List PolicyDiagnostic := parseList dbKind path value

/-! ### Capabilities -/

def parseFsGrant (path : String) (value : Option (Value N)) :
    FsGrant × List PolicyDiagnostic :=
  match value with
  | none => (.denied, [])
  | some value =>
    match value.asBool with
    | some flag => (if flag then .workingDir else .denied, [])
    | none =>
      match value.asArray with
      | none => (.denied, [errorAt "PERMISSIONS_INVALID_FS_GRANT" path
          "Expected \u0060true\u0060, \u0060false\u0060, or an array of relative paths"])
      | some items =>
        let (paths, diagnostics) := parseEntries path
          ("PERMISSIONS_PATH_NOT_STRING", "Path entries must be strings")
          (withCode "PERMISSIONS_INVALID_PATH" validateRelativePath) 0 items
        (.paths paths, diagnostics)

def parseBoolCapability (path : String) (value : Option (Value N)) :
    Bool × List PolicyDiagnostic :=
  match value with
  | none => (false, [])
  | some value =>
    match value.asBool with
    | some flag => (flag, [])
    | none => (false, [errorAt "PERMISSIONS_INVALID_CAPABILITY_VALUE" path "Expected boolean"])

/-- `parse_capabilities`; both lists of known keys have all of the capabilities. -/
def parseCapabilities (path : String) (obj : BTreeMap String (Value N)) :
    Capabilities × List PolicyDiagnostic :=
  let read := parseFsGrant s!"{path}.read" (obj.get? "read")
  let write := parseFsGrant s!"{path}.write" (obj.get? "write")
  let net := parseNetList s!"{path}.net" (obj.get? "net")
  let env := parseEnvList s!"{path}.env" (obj.get? "env")
  let db := parseDbList s!"{path}.db" (obj.get? "db")
  let wasm := parseBoolCapability s!"{path}.wasm" (obj.get? "wasm")
  let importing := parseBoolCapability s!"{path}.import" (obj.get? "import")
  ({ read := read.1, write := write.1, net := net.1, env := env.1, db := db.1, wasm := wasm.1,
      importing := importing.1 },
    read.2 ++ write.2 ++ net.2 ++ env.2 ++ db.2 ++ wasm.2 ++ importing.2)

/-! ### Profiles -/

/-- How the value of `prod.build` is called. -/
def foundBuild : Value N → String
  | .object _ => "an object"
  | .bool true => "\u0060true\u0060"
  | _ => "a non-false value"

def unknownCapability (path place : String) (known : List String) (key : String) :
    PolicyDiagnostic :=
  errorAt "PERMISSIONS_UNKNOWN_CAPABILITY" s!"{path}.{key}"
    (s!"Unknown capability key '{key}' in {place}. Valid keys: " ++ ", ".intercalate known ++ ".")

def unknownKeys (known : List String) (obj : BTreeMap String (Value N)) : List String :=
  obj.keys.filter fun key => !known.contains key

def parseBuild (profilePath : String) (value : Option (Value N)) :
    Option Capabilities × List PolicyDiagnostic :=
  let path := s!"{profilePath}.build"
  match value with
  | none => (none, [])
  | some value =>
    if value.asBool = some false then (none, [])
    else if Text.endsWith ".prod" profilePath then
      (none, [errorAt "PERMISSIONS_PROD_BUILD_MUST_BE_FALSE" path
        ("permissions.prod.build is " ++ foundBuild value ++ " here; it must be exactly false. Deka has no production build environment — \u0060build \x7b\x7d\u0060 executes only through permissions.dev.build (RFD 53).")])
    else
      match value.asObject with
      | none => (none, [errorAt "PERMISSIONS_INVALID_BUILD" path
          "Expected \u0060false\u0060 or an object for \u0060permissions.dev.build\u0060"])
      | some obj =>
        let unknown := (unknownKeys buildCapabilityKeys obj).map
          (unknownCapability path "build policy" buildCapabilityKeys)
        let caps := parseCapabilities path obj
        (some caps.1, unknown ++ caps.2)

def parseProfile (path : String) (value : Option (Value N)) :
    Option PhasePolicy × List PolicyDiagnostic :=
  match value with
  | none => (none, [])
  | some value =>
    match value.asObject with
    | none => (none, [errorAt "PERMISSIONS_PROFILE_NOT_OBJECT" path
        ("Expected object for \u0060" ++ (Text.split '.' path).getLast?.getD "profile" ++ "\u0060")])
    | some obj =>
      let unknown := (unknownKeys capabilityKeys obj).map
        (unknownCapability path path capabilityKeys)
      let caps := parseCapabilities path obj
      let build := parseBuild path (obj.get? "build")
      (some { caps := caps.1, build := build.1 }, unknown ++ caps.2 ++ build.2)

def unknownProfileKeyDiag (path key : String) : PolicyDiagnostic :=
  errorAt "PERMISSIONS_UNKNOWN_KEY" s!"{path}.{key}"
    (s!"Unknown key '{key}' in permissions. Valid keys: " ++ ", ".intercalate profileKeys ++ ".")

def parsePermissions (document : Value N) : PermissionsParseOutcome :=
  match document.asObject with
  | none => ⟨none, [errorAt "PERMISSIONS_ROOT_NOT_OBJECT" "$"
      "Expected JSON object at document root"]⟩
  | some obj =>
    match obj.get? "permissions" with
    | none => ⟨none, []⟩
    | some permissions =>
      match permissions.asObject with
      | none => ⟨none, [errorAt "PERMISSIONS_INVALID_TYPE" "$.permissions"
          "Expected object for \u0060permissions\u0060"]⟩
      | some permissionsObj =>
        let phaseAware := permissionsObj.containsKey "dev" || permissionsObj.containsKey "prod"
        let legacyShape := permissionsObj.containsKey "fs" || permissionsObj.containsKey "net" ||
          permissionsObj.containsKey "env"
        if !phaseAware && legacyShape then ⟨none, []⟩
        else
          let unknown :=
            if phaseAware then []
            else permissionsObj.keys.map (unknownProfileKeyDiag "$.permissions")
          let dev := parseProfile "$.permissions.dev" (permissionsObj.get? "dev")
          let prod := parseProfile "$.permissions.prod" (permissionsObj.get? "prod")
          ⟨some { dev := dev.1.getD {}, prod := prod.1.getD {} }, unknown ++ dev.2 ++ prod.2⟩

end Deka.Security
