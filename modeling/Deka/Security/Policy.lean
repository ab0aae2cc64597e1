/-
Deka/Security/Policy.lean

The security policy of `security_policy.rs`: allow and deny scopes of rule lists, the
overrides the command line gives, the two merges of overrides into a manifest's policy,
and the tests the runtime makes against a deny rule.

A rule list is read through the set of targets it covers.  An override acts on that set
in one of three ways (`covers_applyRule`): it keeps it, replaces it by the targets of its
own list, or makes it everything.  Only the second can lose a target the manifest named,
and it loses exactly those the new list does not name (`still_denied_iff`).
-/
import Deka.Lib.Text

namespace Deka.Security

open Deka.Lib

/-! ### Policies -/

inductive RuleList
  | none
  | all
  | list (items : List String)
deriving Repr, DecidableEq

def RuleList.isEmpty : RuleList → Bool
  | .none => true
  | _ => false

structure SecurityScope where
  read : RuleList := .none
  write : RuleList := .none
  net : RuleList := .none
  env : RuleList := .none
  run : RuleList := .none
  db : RuleList := .none
  wasm : RuleList := .none
  dynamic : Bool := false
deriving Repr, DecidableEq

structure SecurityPolicy where
  allow : SecurityScope := { run := .list ["deka"] }
  deny : SecurityScope := {}
  prompt : Bool := true
deriving Repr, DecidableEq

/-- `KNOWN_CAPABILITY_KEYS` -/
inductive Capability
  | read | write | net | env | run | db | wasm | dynamic
deriving Repr, DecidableEq

/-- The key a scope names the capability by. -/
def Capability.key : Capability → String
  | .read => "read"
  | .write => "write"
  | .net => "net"
  | .env => "env"
  | .run => "run"
  | .db => "db"
  | .wasm => "wasm"
  | .dynamic => "dynamic"

/-! ### What the command line says -/

structure SecurityCliOverrides where
  allowAll : Bool := false
  allowRead : Bool := false
  allowWrite : Bool := false
  allowNet : Bool := false
  allowEnv : Bool := false
  allowRun : Bool := false
  allowDb : Bool := false
  allowDynamic : Bool := false
  allowWasm : Bool := false
  denyRead : Bool := false
  denyWrite : Bool := false
  denyNet : Bool := false
  denyEnv : Bool := false
  denyRun : Bool := false
  denyDb : Bool := false
  denyDynamic : Bool := false
  denyWasm : Bool := false
  noPrompt : Bool := false
  allowReadList : List String := []
  allowWriteList : List String := []
  allowNetList : List String := []
  allowEnvList : List String := []
  allowRunList : List String := []
  allowDbList : List String := []
  allowWasmList : List String := []
  denyReadList : List String := []
  denyWriteList : List String := []
  denyNetList : List String := []
  denyEnvList : List String := []
  denyRunList : List String := []
  denyDbList : List String := []
  denyWasmList : List String := []
deriving Repr, DecidableEq

def flagSet (flags : String → Option Bool) (name : String) : Bool :=
  (flags name).getD false

def csvList (params : String → Option String) (key : String) : List String :=
  match params key with
  | .none => []
  | .some raw =>
    ((Text.split ',' raw).map fun item => Text.trim item).filter fun item => !item.isEmpty

def fromFlagsAndParams (flags : String → Option Bool) (params : String → Option String) :
    SecurityCliOverrides where
  allowAll := flagSet flags "--allow-all"
  allowRead := flagSet flags "--allow-read"
  allowWrite := flagSet flags "--allow-write"
  allowNet := flagSet flags "--allow-net"
  allowEnv := flagSet flags "--allow-env"
  allowRun := flagSet flags "--allow-run"
  allowDb := flagSet flags "--allow-db"
  allowDynamic := flagSet flags "--allow-dynamic"
  allowWasm := flagSet flags "--allow-wasm"
  denyRead := flagSet flags "--deny-read"
  denyWrite := flagSet flags "--deny-write"
  denyNet := flagSet flags "--deny-net"
  denyEnv := flagSet flags "--deny-env"
  denyRun := flagSet flags "--deny-run"
  denyDb := flagSet flags "--deny-db"
  denyDynamic := flagSet flags "--deny-dynamic"
  denyWasm := flagSet flags "--deny-wasm"
  noPrompt := flagSet flags "--no-prompt"
  allowReadList := csvList params "--allow-read"
  allowWriteList := csvList params "--allow-write"
  allowNetList := csvList params "--allow-net"
  allowEnvList := csvList params "--allow-env"
  allowRunList := csvList params "--allow-run"
  allowDbList := csvList params "--allow-db"
  allowWasmList := csvList params "--allow-wasm"
  denyReadList := csvList params "--deny-read"
  denyWriteList := csvList params "--deny-write"
  denyNetList := csvList params "--deny-net"
  denyEnvList := csvList params "--deny-env"
  denyRunList := csvList params "--deny-run"
  denyDbList := csvList params "--deny-db"
  denyWasmList := csvList params "--deny-wasm"

/-- A command line without flags and parameters overrides nothing. -/
theorem fromFlagsAndParams_nothing :
    fromFlagsAndParams (fun _ => none) (fun _ => none) = {} := rfl

namespace SecurityCliOverrides

/-- The bare deny flag of a capability. -/
def denyFlag (cli : SecurityCliOverrides) : Capability → Bool
  | .read => cli.denyRead
  | .write => cli.denyWrite
  | .net => cli.denyNet
  | .env => cli.denyEnv
  | .run => cli.denyRun
  | .db => cli.denyDb
  | .wasm => cli.denyWasm
  | .dynamic => cli.denyDynamic

/-- The deny list the command line gives for a capability; `--deny-dynamic` takes none. -/
def denyList (cli : SecurityCliOverrides) : Capability → List String
  | .read => cli.denyReadList
  | .write => cli.denyWriteList
  | .net => cli.denyNetList
  | .env => cli.denyEnvList
  | .run => cli.denyRunList
  | .db => cli.denyDbList
  | .wasm => cli.denyWasmList
  | .dynamic => []

end SecurityCliOverrides

/-! ### Merging -/

def applyRule (current : RuleList) (bare : Bool) (list : List String) : RuleList :=
  if !list.isEmpty then .list list
  else if bare then .all
  else current

/-- What `--allow-all` does to the allow scope. -/
def allowAllScope (allow : SecurityScope) : SecurityScope :=
  { allow with
    read := .all, write := .all, net := .all, env := .all, run := .all, db := .all,
    wasm := .all, dynamic := true }

def mergePolicyWithCli (base : SecurityPolicy) (cli : SecurityCliOverrides) : SecurityPolicy :=
  let allow := if cli.allowAll then allowAllScope base.allow else base.allow
  { allow :=
      { read := applyRule allow.read cli.allowRead cli.allowReadList
        write := applyRule allow.write cli.allowWrite cli.allowWriteList
        net := applyRule allow.net cli.allowNet cli.allowNetList
        env := applyRule allow.env cli.allowEnv cli.allowEnvList
        run := applyRule allow.run cli.allowRun cli.allowRunList
        db := applyRule allow.db cli.allowDb cli.allowDbList
        wasm := applyRule allow.wasm cli.allowWasm cli.allowWasmList
        dynamic := if cli.allowDynamic then true else allow.dynamic }
    deny :=
      { read := applyRule base.deny.read cli.denyRead cli.denyReadList
        write := applyRule base.deny.write cli.denyWrite cli.denyWriteList
        net := applyRule base.deny.net cli.denyNet cli.denyNetList
        env := applyRule base.deny.env cli.denyEnv cli.denyEnvList
        run := applyRule base.deny.run cli.denyRun cli.denyRunList
        db := applyRule base.deny.db cli.denyDb cli.denyDbList
        wasm := applyRule base.deny.wasm cli.denyWasm cli.denyWasmList
        dynamic := if cli.denyDynamic then true else base.deny.dynamic }
    prompt := if cli.noPrompt then false else base.prompt }

/-- The overrides as `merge_policy_with_cli_manifest_net_env` scopes them: the bare `net`
and `env` flags are dropped, and `--allow-all` is spelled out without them. -/
def scopedOverrides (cli : SecurityCliOverrides) : SecurityCliOverrides :=
  let narrowed :=
    { cli with allowNet := false, allowEnv := false, denyNet := false, denyEnv := false }
  if narrowed.allowAll then
    { narrowed with
      allowAll := false, allowRead := true, allowWrite := true, allowRun := true,
      allowDb := true, allowDynamic := true, allowWasm := true }
  else narrowed

def mergePolicyWithCliManifestNetEnv (base : SecurityPolicy) (cli : SecurityCliOverrides) :
    SecurityPolicy :=
  mergePolicyWithCli base (scopedOverrides cli)

/-! ### Matching -/

/-- The targets a rule covers, with the test of one item as a parameter. -/
def RuleList.covers (matchItem : String → String → Bool) (rule : RuleList)
    (target : Option String) : Bool :=
  match rule with
  | .none => false
  | .all => true
  | .list items =>
    match target with
    | .some target => items.any fun item => matchItem item target
    | .none => false

section Matching

-- `normalize_path` reads the file system: the components of the path it gives
variable (normalizePath : String → List String)

def pathMatches (ruleItem target : String) : Bool :=
  (normalizePath ruleItem).isPrefixOf (normalizePath target)

def matchRuleItem (capability : Capability) (ruleItem target : String) : Bool :=
  if ruleItem == "*" then true
  else if capability = .read ∨ capability = .write ∨ capability = .wasm then
    pathMatches normalizePath ruleItem target
  else if capability = .net ∧ ['*', '.'].isPrefixOf ruleItem.toList then
    let suffix := ruleItem.toList.drop 1
    let t := target.toList.map Char.toLower
    suffix.isSuffixOf t && decide (suffix.length < t.length)
  else ruleItem == target

/-- `rule_allows` of the host -/
def ruleAllows (capability : Capability) (rule : RuleList) (target : Option String) : Bool :=
  rule.covers (matchRuleItem normalizePath capability) target

/-- `rule_denies` of the host -/
def ruleDenies (capability : Capability) (rule : RuleList) (target : Option String) : Bool :=
  rule.covers (matchRuleItem normalizePath capability) target

/-- `rule_denies` of `command_run.rs`, which the program of a script is tested with -/
def ruleDeniesProgram (rule : RuleList) (target : Option String) : Bool :=
  rule.covers (fun item name => item == name) target

/-- How a deny list is matched for a capability. -/
def denyItemMatches (capability : Capability) : String → String → Bool :=
  match capability with
  | .run => fun item name => item == name
  | _ => matchRuleItem normalizePath capability

/-- Whether a policy denies a target: the first test of `enforce_scope`, the one of
`enforce_subprocess_policy` for `run`, and the validator's for `dynamic`. -/
def SecurityPolicy.denies (policy : SecurityPolicy) (capability : Capability)
    (target : Option String) : Bool :=
  match capability with
  | .read => ruleDenies normalizePath .read policy.deny.read target
  | .write => ruleDenies normalizePath .write policy.deny.write target
  | .net => ruleDenies normalizePath .net policy.deny.net target
  | .env => ruleDenies normalizePath .env policy.deny.env target
  | .run => ruleDeniesProgram policy.deny.run target
  | .db => ruleDenies normalizePath .db policy.deny.db target
  | .wasm => ruleDenies normalizePath .wasm policy.deny.wasm target
  | .dynamic => policy.deny.dynamic

/-! ### What an override does to a rule -/

section Rule

variable {matchItem : String → String → Bool} {current : RuleList} {bare : Bool}
  {list : List String} {target : Option String}

/-- An override replaces the targets of a rule by those of its list, makes them
everything, or keeps them. -/
theorem covers_applyRule :
    (applyRule current bare list).covers matchItem target =
      if list = [] then bare || current.covers matchItem target
      else (RuleList.list list).covers matchItem target := by
  unfold applyRule
  cases list with
  | nil => cases bare <;> simp [RuleList.covers]
  | cons item rest => simp

theorem still_covers_iff (covered : current.covers matchItem target) :
    (applyRule current bare list).covers matchItem target = true ↔
      list = [] ∨ (RuleList.list list).covers matchItem target = true := by
  rw [covers_applyRule]
  by_cases empty : list = []
  · simp [empty, covered]
  · simp [empty]

end Rule

@[simp] theorem applyRule_keep (current : RuleList) : applyRule current false [] = current := rfl

/-! ### The merges on denials -/

variable {normalizePath} {base : SecurityPolicy} {cli : SecurityCliOverrides}
  {capability : Capability} {target : Option String}

@[simp] theorem scopedOverrides_denyList :
    (scopedOverrides cli).denyList capability = cli.denyList capability := by
  unfold scopedOverrides
  cases all : cli.allowAll <;> cases capability <;> simp [SecurityCliOverrides.denyList]

/-- A denial of the base policy survives the merge exactly if the command line gives no
list for the capability, or gives one that covers the target as well. -/
theorem still_denied_iff (denied : base.denies normalizePath capability target) :
    (mergePolicyWithCli base cli).denies normalizePath capability target = true ↔
      cli.denyList capability = [] ∨
        (RuleList.list (cli.denyList capability)).covers
          (denyItemMatches normalizePath capability) target = true := by
  cases capability with
  | dynamic =>
    have set : base.deny.dynamic = true := denied
    simp [SecurityPolicy.denies, mergePolicyWithCli, SecurityCliOverrides.denyList, set]
  | _ => exact still_covers_iff denied

/-- Bare flags, `--allow-all` and lists of allowed targets never lift a denial. -/
theorem bare_flags_keep_denials (bare : cli.denyList capability = [])
    (denied : base.denies normalizePath capability target) :
    (mergePolicyWithCli base cli).denies normalizePath capability target = true :=
  (still_denied_iff denied).mpr (.inl bare)

theorem merge_nothing (base : SecurityPolicy) : mergePolicyWithCli base {} = base := rfl

theorem merge_nothing_manifest (base : SecurityPolicy) :
    mergePolicyWithCliManifestNetEnv base {} = base := rfl

end Matching

/-- Overrides and the manifest's denials: both merges keep a denial exactly if the command
line gives no deny list for the capability or one that covers the target, and merging
with empty overrides changes nothing. -/
theorem merge_keeps_denial_iff (normalizePath : String → List String) (base : SecurityPolicy) :
    (∀ (cli : SecurityCliOverrides) (capability : Capability) (target : Option String),
      base.denies normalizePath capability target →
        ((mergePolicyWithCli base cli).denies normalizePath capability target = true ↔
          cli.denyList capability = [] ∨
            (RuleList.list (cli.denyList capability)).covers
              (denyItemMatches normalizePath capability) target = true) ∧
        ((mergePolicyWithCliManifestNetEnv base cli).denies normalizePath capability
            target = true ↔
          cli.denyList capability = [] ∨
            (RuleList.list (cli.denyList capability)).covers
              (denyItemMatches normalizePath capability) target = true)) ∧
    mergePolicyWithCli base {} = base ∧
    mergePolicyWithCliManifestNetEnv base {} = base := by
  refine ⟨fun cli capability target denied => ⟨still_denied_iff denied, ?_⟩,
    merge_nothing base, merge_nothing_manifest base⟩
  have hlist : (scopedOverrides cli).denyList capability = cli.denyList capability :=
    scopedOverrides_denyList
  rw [← hlist]
  exact still_denied_iff denied

/-- A manifest that denies running `bash` and reaching one host. -/
def guardedManifest : SecurityPolicy :=
  { deny := { run := .list ["bash"], net := .list ["metadata.internal"] } }

/-- `--deny-run=sh --deny-net=ads.example` -/
def narrowerLists : SecurityCliOverrides :=
  { denyRunList := ["sh"], denyNetList := ["ads.example"] }

/-- A deny list of the command line re-opens what the manifest's list denied. -/
theorem deny_list_reopens :
    (guardedManifest.denies (fun path => [path]) .run (some "bash") = true ∧
      (mergePolicyWithCli guardedManifest narrowerLists).denies (fun path => [path]) .run
        (some "bash") = false) ∧
    (guardedManifest.denies (fun path => [path]) .net (some "metadata.internal") = true ∧
      (mergePolicyWithCliManifestNetEnv guardedManifest narrowerLists).denies
        (fun path => [path]) .net (some "metadata.internal") = false) := by
  decide

/-- The exact condition at work on `guardedManifest`. -/
theorem merge_keeps_denial_guarded :
    guardedManifest.denies (fun path => [path]) .run (some "bash") = true ∧
    (mergePolicyWithCli guardedManifest { denyRun := true, allowAll := true }).denies
      (fun path => [path]) .run (some "bash") = true :=
  have denied : guardedManifest.denies (fun path => [path]) .run (some "bash") = true := by
    decide
  ⟨denied, (((merge_keeps_denial_iff (fun path => [path]) guardedManifest).1
    { denyRun := true, allowAll := true } .run (some "bash") denied).1).mpr (.inl rfl)⟩

end Deka.Security
