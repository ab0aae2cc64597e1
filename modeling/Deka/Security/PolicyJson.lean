/-
Deka/Security/PolicyJson.lean

Policies as JSON: `policy_to_json`, `parse_deka_security_policy` and its legacy fallback, with the
diagnostics that parsing gives.

The numbers of a document are of any type: no part of a policy is one.  An object holds its members
in the order of their names.
-/
import Deka.Lib.BTreeMap
import Deka.Security.Policy

namespace Deka.Security

open Deka.Lib

variable {N : Type}

/-! ### Documents -/

/-- `serde_json::Value` -/
inductive Value (N : Type)
  | null
  | bool (b : Bool)
  | number (n : N)
  | string (s : String)
  | array (items : List (Value N))
  | object (members : List (String × Value N))

namespace Value

def asBool : Value N → Option Bool
  | .bool b => some b
  | _ => none

def asStr : Value N → Option String
  | .string s => some s
  | _ => none

def asArray : Value N → Option (List (Value N))
  | .array items => some items
  | _ => none

def asObject : Value N → Option (BTreeMap String (Value N))
  | .object members => some members
  | _ => none

def get (value : Value N) (key : String) : Option (Value N) :=
  value.asObject.bind fun members => BTreeMap.get? members key

end Value

/-! ### Writing -/

def ruleListToJson : RuleList → Value N
  | .none => .bool false
  | .all => .bool true
  | .list items => .array (items.map .string)

def scopeToJson (scope : SecurityScope) : Value N :=
  .object (BTreeMap.extend []
    [("read", ruleListToJson scope.read), ("write", ruleListToJson scope.write),
      ("net", ruleListToJson scope.net), ("env", ruleListToJson scope.env),
      ("run", ruleListToJson scope.run), ("db", ruleListToJson scope.db),
      ("wasm", ruleListToJson scope.wasm), ("dynamic", .bool scope.dynamic)])

def policyToJson (policy : SecurityPolicy) : Value N :=
  .object (BTreeMap.extend []
    [("security", .object (BTreeMap.extend []
      [("allow", scopeToJson policy.allow), ("deny", scopeToJson policy.deny),
        ("prompt", .bool policy.prompt)]))])

/-! ### Diagnostics -/

inductive PolicyDiagnosticLevel
  | warning
  | error
deriving DecidableEq, Repr

structure PolicyDiagnostic where
  level : PolicyDiagnosticLevel
  code : String
  path : String
  message : String
deriving DecidableEq, Repr

structure PolicyParseOutcome where
  policy : SecurityPolicy
  diagnostics : List PolicyDiagnostic

def PolicyParseOutcome.hasErrors (outcome : PolicyParseOutcome) : Bool :=
  outcome.diagnostics.any fun diag => diag.level = .error

def capabilityFromPath (path : String) : Option String :=
  if Text.endsWith ".read" path then some "read"
  else if Text.endsWith ".write" path then some "write"
  else if Text.endsWith ".net" path then some "net"
  else if Text.endsWith ".env" path then some "env"
  else if Text.endsWith ".run" path then some "run"
  else if Text.endsWith ".db" path then some "db"
  else if Text.endsWith ".wasm" path then some "wasm"
  else none

/-- What to write instead of a broad rule. -/
def hint : String → Option String
  | "read" => some "Prefer explicit folders like \"./src\" or \"./ds_modules\"."
  | "write" => some "Prefer explicit folders like \"./ds_modules/.cache\"."
  | "net" => some "Prefer explicit hosts like \"localhost:5432\"."
  | "env" => some "Prefer explicit vars like \"DATABASE_URL\"."
  | "run" => some "Prefer explicit binaries like \"git\" or \"deka\"."
  | "db" => some "Prefer explicit drivers like \"postgres\" or \"sqlite\"."
  | "wasm" => some "Prefer explicit modules like \"module.wasm\"."
  | _ => none

def broadAllowHint (path : String) : Option String := (capabilityFromPath path).bind hint

def isBroadAllowItem (capability item : String) : Bool :=
  let normalized := Text.trim item
  if normalized == "*" then true
  else if capability == "read" || capability == "write" then
    normalized == "/" || normalized == "." || normalized == "./" || normalized == "/*" ||
      normalized == "./*"
  else false

def weakAllowWarning (path item : String) : Option String :=
  match capabilityFromPath path with
  | none => none
  | some capability =>
    if isBroadAllowItem capability item then
      (hint capability).map fun hint => s!"Rule item \"{item}\" is very broad. {hint}"
    else none

/-! ### Reading a rule -/

/-- The warning about one item of an allow rule, if it is a weak one. -/
def weakItem (path place item : String) : List PolicyDiagnostic :=
  if Text.contains ".allow." path then
    match weakAllowWarning path item with
    | some message => [⟨.warning, "SECURITY_POLICY_WEAK_ALLOW", place, message⟩]
    | none => []
  else []

/-- The items of a list from the index on, put into `set`. -/
def parseItems (path : String) (idx : Nat) (set : BTreeMap String Unit) :
    List (Value N) → BTreeMap String Unit × List PolicyDiagnostic
  | [] => (set, [])
  | item :: items =>
    match item.asStr with
    | none =>
      let (set, diagnostics) := parseItems path (idx + 1) set items
      (set, ⟨.error, "SECURITY_POLICY_RULE_ITEM_NOT_STRING", s!"{path}[{idx}]",
        "Rule list entries must be strings"⟩ :: diagnostics)
    | some raw =>
      let trimmed := Text.trim raw
      if trimmed.isEmpty then
        let (set, diagnostics) := parseItems path (idx + 1) set items
        (set, ⟨.error, "SECURITY_POLICY_EMPTY_RULE_ITEM", s!"{path}[{idx}]",
          "Rule list entries must not be empty"⟩ :: diagnostics)
      else
        let (set, diagnostics) := parseItems path (idx + 1) (set.insert trimmed ()) items
        (set, weakItem path s!"{path}[{idx}]" trimmed ++ diagnostics)

def parseRuleList (path : String) (value : Option (Value N)) :
    RuleList × List PolicyDiagnostic :=
  match value with
  | none => (.none, [])
  | some value =>
    match value.asBool with
    | some flag =>
      let diagnostics :=
        if flag && Text.contains ".allow." path then
          let message :=
            match broadAllowHint path with
            | some hint => s!"Broad allow enabled. {hint}"
            | none => "Broad allow enabled."
          [⟨.warning, "SECURITY_POLICY_BROAD_ALLOW", path, message⟩]
        else []
      (if flag then .all else .none, diagnostics)
    | none =>
      match value.asStr with
      | some single =>
        let item := Text.trim single
        if item.isEmpty then
          (.none, [⟨.error, "SECURITY_POLICY_EMPTY_RULE_ITEM", path,
            "Empty rule item is not allowed"⟩])
        else (.list [item], weakItem path path item)
      | none =>
        match value.asArray with
        | some items =>
          let (set, diagnostics) := parseItems path 0 [] items
          (if set.isEmpty then .none else .list set.keys, diagnostics)
        | none =>
          (.none, [⟨.error, "SECURITY_POLICY_INVALID_RULE_TYPE", path,
            "Expected boolean, string, or string array"⟩])

/-! ### Reading a scope -/

def knownCapabilityKeys : List String :=
  ["read", "write", "net", "env", "run", "db", "wasm", "dynamic"]

/-- A row of the distance table after the first `left` entry, from the row above it. -/
def nextRow (ca : Char) (left : Nat) : List Char → List Nat → List Nat
  | cb :: b, diagonal :: above :: prev =>
    let cost := if ca = cb then 0 else 1
    let entry := min (min (diagonal + cost) (above + 1)) (left + 1)
    entry :: nextRow ca entry b (above :: prev)
  | _, _ => []

/-- Levenshtein distance, answered only as "is it within `max`". -/
def editDistanceWithin (a b : String) (max : Nat) : Bool :=
  let a := a.toList
  let b := b.toList
  if max < a.length - b.length + (b.length - a.length) then false
  else
    let last := (a.foldl (fun (row : Nat × List Nat) ca =>
      (row.1 + 1, (row.1 + 1) :: nextRow ca (row.1 + 1) b row.2)) (0, List.range (b.length + 1))).2
    decide (last.getD b.length 0 ≤ max)

/-- The keys that a concept stands for. -/
def byConcept (lowered : String) : List String :=
  if lowered ∈ ["fs", "file", "files", "filesystem", "path", "paths"] then ["read", "write"]
  else if lowered ∈ ["network", "http", "fetch", "socket"] then ["net"]
  else if lowered ∈ ["process", "proc", "exec", "spawn", "command"] then ["run", "env"]
  else if lowered ∈ ["database", "sql", "postgres", "mysql", "sqlite"] then ["db"]
  else if lowered ∈ ["eval", "unsafe"] then ["dynamic"]
  else []

def nearestCapabilityKeys (key : String) : Option String :=
  let lowered := key.map Char.toLower
  if !(byConcept lowered).isEmpty then some (" or ".intercalate (byConcept lowered))
  else
    let close := knownCapabilityKeys.filter fun known => editDistanceWithin lowered known 2
    if close.isEmpty then none else some (" or ".intercalate close)

/-- A misspelled capability is never intentional. -/
def unknownScopeKey (path key : String) : PolicyDiagnostic :=
  let message := s!"Unknown capability key '{key}' in security scope. Valid keys: " ++
    ", ".intercalate knownCapabilityKeys ++ "."
  let message :=
    match nearestCapabilityKeys key with
    | some suggestions => message ++ s!" Did you mean {suggestions}?"
    | none => message
  ⟨.error, "SECURITY_POLICY_UNKNOWN_SCOPE_KEY", s!"{path}.{key}", message⟩

def parseScope (path : String) (value : Value N) : SecurityScope × List PolicyDiagnostic :=
  match value.asObject with
  | none => ({}, [⟨.error, "SECURITY_POLICY_SCOPE_NOT_OBJECT", path,
      "Expected object for security scope"⟩])
  | some obj =>
    let unknown := (obj.keys.filter fun key => !knownCapabilityKeys.contains key).map
      (unknownScopeKey path)
    let read := parseRuleList s!"{path}.read" (obj.get? "read")
    let write := parseRuleList s!"{path}.write" (obj.get? "write")
    let net := parseRuleList s!"{path}.net" (obj.get? "net")
    let env := parseRuleList s!"{path}.env" (obj.get? "env")
    let run := parseRuleList s!"{path}.run" (obj.get? "run")
    let db := parseRuleList s!"{path}.db" (obj.get? "db")
    let wasm := parseRuleList s!"{path}.wasm" (obj.get? "wasm")
    let dynamic : Bool × List PolicyDiagnostic :=
      match obj.get? "dynamic" with
      | none => (false, [])
      | some dynamic =>
        match dynamic.asBool with
        | some v => (v, [])
        | none => (false, [⟨.error, "SECURITY_POLICY_INVALID_DYNAMIC", s!"{path}.dynamic",
            "Expected boolean for `dynamic`"⟩])
    ({ read := read.1, write := write.1, net := net.1, env := env.1, run := run.1, db := db.1,
        wasm := wasm.1, dynamic := dynamic.1 },
      unknown ++ read.2 ++ write.2 ++ net.2 ++ env.2 ++ run.2 ++ db.2 ++ wasm.2 ++ dynamic.2)

/-! ### Reading a policy -/

/-- A rule of the old form, taken where the new one says nothing. -/
def legacyRule (rule : RuleList) (path : String) (value : Option (Value N)) :
    RuleList × List PolicyDiagnostic :=
  match rule with
  | .none => parseRuleList path value
  | rule => (rule, [])

def applyLegacyPermissions (obj : BTreeMap String (Value N)) (policy : SecurityPolicy) :
    SecurityPolicy × List PolicyDiagnostic :=
  match (obj.get? "permissions").bind Value.asObject with
  | none => (policy, [])
  | some permissions =>
    let entry (group key : String) : Option (Value N) :=
      (permissions.get? group).bind fun value => value.get key
    let read := legacyRule policy.allow.read "$.permissions.fs.read" (entry "fs" "read")
    let write := legacyRule policy.allow.write "$.permissions.fs.write" (entry "fs" "write")
    let net := legacyRule policy.allow.net "$.permissions.net.allow" (entry "net" "allow")
    let denyNet := legacyRule policy.deny.net "$.permissions.net.deny" (entry "net" "deny")
    let env := legacyRule policy.allow.env "$.permissions.env.allow" (entry "env" "allow")
    let denyEnv := legacyRule policy.deny.env "$.permissions.env.deny" (entry "env" "deny")
    ({ policy with
        allow := { policy.allow with read := read.1, write := write.1, net := net.1, env := env.1 }
        deny := { policy.deny with net := denyNet.1, env := denyEnv.1 } },
      read.2 ++ write.2 ++ net.2 ++ denyNet.2 ++ env.2 ++ denyEnv.2)

/-- What is read of the member `security`. -/
def parseSecurity (securityObj : BTreeMap String (Value N)) :
    SecurityPolicy × List PolicyDiagnostic :=
  let unknown := (securityObj.keys.filter fun key =>
      key != "allow" && key != "deny" && key != "prompt").map fun key =>
    (⟨.warning, "SECURITY_POLICY_UNKNOWN_KEY", s!"$.security.{key}",
      "Unknown key in `security`"⟩ : PolicyDiagnostic)
  let allow : SecurityScope × List PolicyDiagnostic :=
    match securityObj.get? "allow" with
    | some allow => parseScope "$.security.allow" allow
    | none => (({} : SecurityPolicy).allow, [])
  let deny : SecurityScope × List PolicyDiagnostic :=
    match securityObj.get? "deny" with
    | some deny => parseScope "$.security.deny" deny
    | none => (({} : SecurityPolicy).deny, [])
  let prompt : Bool × List PolicyDiagnostic :=
    match securityObj.get? "prompt" with
    | none => (true, [])
    | some prompt =>
      match prompt.asBool with
      | some value => (value, [])
      | none => (true, [⟨.error, "SECURITY_POLICY_INVALID_PROMPT", "$.security.prompt",
          "Expected boolean for `prompt`"⟩])
  ({ allow := allow.1, deny := deny.1, prompt := prompt.1 },
    unknown ++ allow.2 ++ deny.2 ++ prompt.2)

def parseDekaSecurityPolicy (root : Value N) : PolicyParseOutcome :=
  match root.asObject with
  | none => ⟨{}, [⟨.error, "SECURITY_POLICY_ROOT_NOT_OBJECT", "$",
      "Expected JSON object at document root"⟩]⟩
  | some obj =>
    match obj.get? "security" with
    | none =>
      let (policy, diagnostics) := applyLegacyPermissions obj {}
      ⟨policy, diagnostics⟩
    | some security =>
      match security.asObject with
      | none => ⟨{}, [⟨.error, "SECURITY_POLICY_INVALID_TYPE", "$.security",
          "Expected object for `security`"⟩]⟩
      | some securityObj =>
        let (policy, diagnostics) := parseSecurity securityObj
        let (policy, legacy) := applyLegacyPermissions obj policy
        ⟨policy, diagnostics ++ legacy⟩

example : editDistanceWithin "nett" "net" 2 = true ∧ editDistanceWithin "network" "net" 2 = false := by
  decide

end Deka.Security
