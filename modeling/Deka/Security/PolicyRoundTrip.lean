/-
Deka/Security/PolicyRoundTrip.lean

A policy that is written as JSON is read back.

What parsing and merging produce is clean: the items of a rule are trimmed and there is at least
one (`Produced.clean`).  Writing keeps the three shapes of a rule apart, and a clean list is read
back as the set of its items, so that the policies cover the same targets (`Same.covers_eq`).
-/
import Deka.Security.PolicyJson

namespace Deka.Security

open Deka.Lib

variable {N : Type}

/-! ### Rules -/

/-- A rule as parsing makes it: what it lists is trimmed, and it lists something. -/
def RuleList.Clean : RuleList → Prop
  | .list items => items ≠ [] ∧ ∀ item ∈ items, Text.trim item = item ∧ item.isEmpty = false
  | _ => True

/-- The same shape, and the same items. -/
def RuleList.Same : RuleList → RuleList → Prop
  | .none, .none => True
  | .all, .all => True
  | .list xs, .list ys => ∀ item, item ∈ xs ↔ item ∈ ys
  | _, _ => False

theorem RuleList.Same.covers_eq {rule rule' : RuleList} (h : rule.Same rule')
    (matchItem : String → String → Bool) (target : Option String) :
    rule.covers matchItem target = rule'.covers matchItem target := by
  cases rule <;> cases rule' <;> try exact h.elim
  · rfl
  · rfl
  · next xs ys =>
    cases target with
    | none => rfl
    | some target =>
      rw [RuleList.covers, RuleList.covers, Bool.eq_iff_iff, List.any_eq_true, List.any_eq_true]
      exact exists_congr fun item => and_congr_left' (h item)

theorem applyRule_clean {current : RuleList} {bare : Bool} {list : List String}
    (h : current.Clean) (hlist : ∀ item ∈ list, Text.trim item = item ∧ item.isEmpty = false) :
    (applyRule current bare list).Clean := by
  rw [applyRule]
  cases list with
  | nil => cases bare <;> first | exact h | trivial
  | cons item rest => exact ⟨List.cons_ne_nil item rest, hlist⟩

/-- The lists of the command line are trimmed. -/
theorem csvList_clean (params : String → Option String) (key : String) :
    ∀ item ∈ csvList params key, Text.trim item = item ∧ item.isEmpty = false := by
  intro item hitem
  rw [csvList] at hitem
  split at hitem
  · cases hitem
  · obtain ⟨hmem, hne⟩ := List.mem_filter.mp hitem
    obtain ⟨raw, -, rfl⟩ := List.mem_map.mp hmem
    exact ⟨Text.trim_trim raw, by simpa using hne⟩

/-! ### Parsing a rule -/

theorem parseItems_clean (path : String) (items : List (Value N)) (idx : Nat)
    {set : BTreeMap String Unit}
    (h : ∀ item ∈ set.keys, Text.trim item = item ∧ item.isEmpty = false) :
    ∀ item ∈ (parseItems path idx set items).1.keys, Text.trim item = item ∧ item.isEmpty = false := by
  induction items generalizing idx set with
  | nil => exact h
  | cons item items ih =>
    rw [parseItems]
    split
    · exact ih (idx + 1) h
    · next raw _ =>
      dsimp only
      split
      · exact ih (idx + 1) h
      · next hne =>
        apply ih (idx + 1)
        intro trimmed hmem
        rcases BTreeMap.mem_keys_insert.mp hmem with rfl | hold
        · exact ⟨Text.trim_trim raw, by simpa using hne⟩
        · exact h trimmed hold

theorem parseRuleList_array (path : String) (items : List (Value N)) :
    parseRuleList path (some (.array items)) =
      (if (parseItems path 0 [] items).1.isEmpty then .none
        else .list (parseItems path 0 [] items).1.keys,
        (parseItems path 0 [] items).2) := rfl

theorem parseRuleList_clean (path : String) (value : Option (Value N)) :
    (parseRuleList path value).1.Clean := by
  cases value with
  | none => trivial
  | some value =>
    cases value with
    | bool flag => cases flag <;> trivial
    | string single =>
      simp only [parseRuleList, Value.asBool, Value.asStr]
      split
      · trivial
      · next hne =>
        refine ⟨List.cons_ne_nil _ _, fun item hitem => ?_⟩
        rw [List.mem_singleton.mp hitem]
        exact ⟨Text.trim_trim single, by simpa using hne⟩
    | array items =>
      rw [parseRuleList_array]
      dsimp only
      split
      · trivial
      · next hne =>
        refine ⟨fun hnil => hne ?_, parseItems_clean path items 0 (by simp [BTreeMap.keys])⟩
        rw [List.isEmpty_iff]
        exact List.map_eq_nil_iff.mp hnil
    | _ => trivial

/-- Only warnings: reading went through. -/
def Warnings (diagnostics : List PolicyDiagnostic) : Prop :=
  ∀ diag ∈ diagnostics, diag.level = .warning

theorem Warnings.append {ds es : List PolicyDiagnostic} (hd : Warnings ds) (he : Warnings es) :
    Warnings (ds ++ es) := fun diag hdiag => by
  rcases List.mem_append.mp hdiag with h | h
  · exact hd diag h
  · exact he diag h

theorem warnings_nil : Warnings [] := fun _ h => by cases h

theorem weakItem_warnings (path place item : String) : Warnings (weakItem path place item) := by
  intro diag hdiag
  rw [weakItem] at hdiag
  split at hdiag
  · split at hdiag
    · rw [List.mem_singleton.mp hdiag]
    · cases hdiag
  · cases hdiag

/-- Trimmed items are all taken in. -/
theorem parseItems_strings (path : String) (items : List String) (idx : Nat)
    {set : BTreeMap String Unit}
    (h : ∀ item ∈ items, Text.trim item = item ∧ item.isEmpty = false) :
    (∀ item, item ∈ (parseItems path idx set (items.map (Value.string (N := N)))).1.keys ↔
      item ∈ set.keys ∨ item ∈ items) ∧
    Warnings (parseItems path idx set (items.map (Value.string (N := N)))).2 := by
  induction items generalizing idx set with
  | nil => exact ⟨fun item => by simp [parseItems], warnings_nil⟩
  | cons first items ih =>
    obtain ⟨htrim, hne⟩ := h first List.mem_cons_self
    obtain ⟨hmem, hwarn⟩ := @ih (idx + 1) (set.insert first ()) fun item hitem =>
      h item (List.mem_cons_of_mem _ hitem)
    have hstep : parseItems path idx set ((first :: items).map (Value.string (N := N))) =
        ((parseItems path (idx + 1) (set.insert first ()) (items.map (Value.string (N := N)))).1,
          weakItem path s!"{path}[{idx}]" first ++ (parseItems path (idx + 1)
            (set.insert first ()) (items.map (Value.string (N := N)))).2) := by
      rw [List.map_cons, parseItems]
      simp only [Value.asStr, htrim, hne, Bool.false_eq_true, if_false]
    rw [hstep]
    refine ⟨fun item => ?_, (weakItem_warnings _ _ _).append hwarn⟩
    rw [hmem, BTreeMap.mem_keys_insert, List.mem_cons]
    tauto

/-- A clean rule is read back. -/
theorem parseRuleList_toJson {rule : RuleList} (h : rule.Clean) (path : String) :
    (parseRuleList path (some (ruleListToJson (N := N) rule))).1.Same rule ∧
      Warnings (parseRuleList path (some (ruleListToJson (N := N) rule))).2 := by
  cases rule with
  | none => exact ⟨trivial, warnings_nil⟩
  | all =>
    refine ⟨trivial, fun diag hdiag => ?_⟩
    simp only [parseRuleList, ruleListToJson, Value.asBool, Bool.true_and] at hdiag
    split at hdiag
    · rw [List.mem_singleton.mp hdiag]
    · cases hdiag
  | list items =>
    obtain ⟨hne, hitems⟩ := h
    obtain ⟨hmem, hwarn⟩ := @parseItems_strings N path items 0 [] hitems
    have hall : ∀ item, item ∈ (parseItems path 0 [] (items.map (Value.string (N := N)))).1.keys ↔
        item ∈ items := fun item => by
      rw [hmem]
      simp [BTreeMap.keys]
    obtain ⟨first, hfirst⟩ := List.exists_mem_of_ne_nil items hne
    have hsome : (parseItems path 0 [] (items.map (Value.string (N := N)))).1.isEmpty = false := by
      rw [List.isEmpty_eq_false_iff]
      intro hnil
      have := (hall first).mpr hfirst
      rw [hnil] at this
      cases this
    rw [ruleListToJson, parseRuleList_array, hsome]
    exact ⟨hall, hwarn⟩

/-! ### Scopes and policies -/

/-- The rule of a scope for a capability; `dynamic` is a flag. -/
def SecurityScope.ruleOf (scope : SecurityScope) : Capability → RuleList
  | .read => scope.read
  | .write => scope.write
  | .net => scope.net
  | .env => scope.env
  | .run => scope.run
  | .db => scope.db
  | .wasm => scope.wasm
  | .dynamic => if scope.dynamic then .all else .none

def SecurityScope.Clean (scope : SecurityScope) : Prop := ∀ capability, (scope.ruleOf capability).Clean

def SecurityScope.Same (scope scope' : SecurityScope) : Prop :=
  ∀ capability, (scope.ruleOf capability).Same (scope'.ruleOf capability)

structure SecurityPolicy.Clean (policy : SecurityPolicy) : Prop where
  allow : policy.allow.Clean
  deny : policy.deny.Clean

theorem RuleList.clean_flag (b : Bool) : (if b then RuleList.all else .none).Clean := by
  cases b <;> trivial

theorem RuleList.same_flag (b : Bool) :
    (if b then RuleList.all else .none).Same (if b then .all else .none) := by
  cases b <;> trivial

/-- The allow list the command line gives for a capability. -/
def SecurityCliOverrides.allowList (cli : SecurityCliOverrides) : Capability → List String
  | .read => cli.allowReadList
  | .write => cli.allowWriteList
  | .net => cli.allowNetList
  | .env => cli.allowEnvList
  | .run => cli.allowRunList
  | .db => cli.allowDbList
  | .wasm => cli.allowWasmList
  | .dynamic => []

theorem scopedOverrides_allowList (cli : SecurityCliOverrides) (capability : Capability) :
    (scopedOverrides cli).allowList capability = cli.allowList capability := by
  unfold scopedOverrides
  cases cli.allowAll <;> cases capability <;> rfl

/-- The lists of the command line hold trimmed items only. -/
def SecurityCliOverrides.Trimmed (cli : SecurityCliOverrides) : Prop :=
  ∀ capability item, item ∈ cli.allowList capability ∨ item ∈ cli.denyList capability →
    Text.trim item = item ∧ item.isEmpty = false

theorem fromFlagsAndParams_trimmed (flags : String → Option Bool)
    (params : String → Option String) : (fromFlagsAndParams flags params).Trimmed := by
  intro capability item hitem
  cases capability with
  | dynamic =>
    rcases hitem with h | h
    · cases h
    · cases h
  | _ =>
    rcases hitem with h | h
    · exact csvList_clean params _ item h
    · exact csvList_clean params _ item h

theorem SecurityCliOverrides.Trimmed.scoped {cli : SecurityCliOverrides} (h : cli.Trimmed) :
    (scopedOverrides cli).Trimmed := by
  intro capability item hitem
  rw [scopedOverrides_allowList, scopedOverrides_denyList] at hitem
  exact h capability item hitem

theorem merge_clean {base : SecurityPolicy} (h : base.Clean) {cli : SecurityCliOverrides}
    (hcli : cli.Trimmed) : (mergePolicyWithCli base cli).Clean := by
  have hallow : (if cli.allowAll then allowAllScope base.allow else base.allow).Clean := by
    intro capability
    split
    · cases capability <;> trivial
    · exact h.allow capability
  constructor
  · intro capability
    cases capability with
    | dynamic => exact RuleList.clean_flag _
    | read => exact applyRule_clean (hallow .read) fun item hi => hcli .read item (.inl hi)
    | write => exact applyRule_clean (hallow .write) fun item hi => hcli .write item (.inl hi)
    | net => exact applyRule_clean (hallow .net) fun item hi => hcli .net item (.inl hi)
    | env => exact applyRule_clean (hallow .env) fun item hi => hcli .env item (.inl hi)
    | run => exact applyRule_clean (hallow .run) fun item hi => hcli .run item (.inl hi)
    | db => exact applyRule_clean (hallow .db) fun item hi => hcli .db item (.inl hi)
    | wasm => exact applyRule_clean (hallow .wasm) fun item hi => hcli .wasm item (.inl hi)
  · intro capability
    cases capability with
    | dynamic => exact RuleList.clean_flag _
    | read => exact applyRule_clean (h.deny .read) fun item hi => hcli .read item (.inr hi)
    | write => exact applyRule_clean (h.deny .write) fun item hi => hcli .write item (.inr hi)
    | net => exact applyRule_clean (h.deny .net) fun item hi => hcli .net item (.inr hi)
    | env => exact applyRule_clean (h.deny .env) fun item hi => hcli .env item (.inr hi)
    | run => exact applyRule_clean (h.deny .run) fun item hi => hcli .run item (.inr hi)
    | db => exact applyRule_clean (h.deny .db) fun item hi => hcli .db item (.inr hi)
    | wasm => exact applyRule_clean (h.deny .wasm) fun item hi => hcli .wasm item (.inr hi)

/-- The policies that parsing and merging produce. -/
inductive Produced (N : Type) : SecurityPolicy → Prop
  | parsed (root : Value N) : Produced N (parseDekaSecurityPolicy root).policy
  | merged {base : SecurityPolicy} (flags : String → Option Bool)
      (params : String → Option String) :
      Produced N base → Produced N (mergePolicyWithCli base (fromFlagsAndParams flags params))
  | mergedManifest {base : SecurityPolicy} (flags : String → Option Bool)
      (params : String → Option String) : Produced N base →
        Produced N (mergePolicyWithCliManifestNetEnv base (fromFlagsAndParams flags params))

theorem default_clean : ({} : SecurityPolicy).Clean where
  allow capability := by
    cases capability with
    | run => exact ⟨List.cons_ne_nil _ _, by decide⟩
    | _ => trivial
  deny capability := by cases capability <;> trivial

theorem parseScope_clean (path : String) (value : Value N) : (parseScope path value).1.Clean := by
  intro capability
  rw [parseScope]
  split
  · cases capability <;> trivial
  · cases capability
    · exact parseRuleList_clean _ _
    · exact parseRuleList_clean _ _
    · exact parseRuleList_clean _ _
    · exact parseRuleList_clean _ _
    · exact parseRuleList_clean _ _
    · exact parseRuleList_clean _ _
    · exact parseRuleList_clean _ _
    · exact RuleList.clean_flag _

theorem legacyRule_clean {rule : RuleList} (h : rule.Clean) (path : String)
    (value : Option (Value N)) : (legacyRule rule path value).1.Clean := by
  cases rule with
  | none => exact parseRuleList_clean path value
  | all => trivial
  | list items => exact h

theorem applyLegacyPermissions_clean {policy : SecurityPolicy} (h : policy.Clean)
    (obj : BTreeMap String (Value N)) : (applyLegacyPermissions obj policy).1.Clean := by
  rw [applyLegacyPermissions]
  split
  · exact h
  · constructor
    · intro capability
      cases capability
      · exact legacyRule_clean (h.allow .read) _ _
      · exact legacyRule_clean (h.allow .write) _ _
      · exact legacyRule_clean (h.allow .net) _ _
      · exact legacyRule_clean (h.allow .env) _ _
      · exact h.allow .run
      · exact h.allow .db
      · exact h.allow .wasm
      · exact h.allow .dynamic
    · intro capability
      cases capability
      · exact h.deny .read
      · exact h.deny .write
      · exact legacyRule_clean (h.deny .net) _ _
      · exact legacyRule_clean (h.deny .env) _ _
      · exact h.deny .run
      · exact h.deny .db
      · exact h.deny .wasm
      · exact h.deny .dynamic

theorem parseSecurity_clean (securityObj : BTreeMap String (Value N)) :
    (parseSecurity securityObj).1.Clean := by
  constructor
  · rw [parseSecurity]
    dsimp only
    split
    · exact parseScope_clean _ _
    · exact default_clean.allow
  · rw [parseSecurity]
    dsimp only
    split
    · exact parseScope_clean _ _
    · exact default_clean.deny

theorem Produced.clean {policy : SecurityPolicy} (h : Produced N policy) : policy.Clean := by
  induction h with
  | parsed root =>
    rw [parseDekaSecurityPolicy]
    split
    · exact default_clean
    · split
      · exact applyLegacyPermissions_clean default_clean _
      · split
        · exact default_clean
        · exact applyLegacyPermissions_clean (parseSecurity_clean _) _
  | merged flags params _ ih => exact merge_clean ih (fromFlagsAndParams_trimmed flags params)
  | mergedManifest flags params _ ih =>
    exact merge_clean ih (fromFlagsAndParams_trimmed flags params).scoped

/-! ### Reading back -/

/-- The members of a scope that is written. -/
theorem scopeToJson_members (scope : SecurityScope) :
    ∃ members : BTreeMap String (Value N), scopeToJson scope = .object members ∧
      (∀ key ∈ members.keys, knownCapabilityKeys.contains key = true) ∧
      members.get? "read" = some (ruleListToJson scope.read) ∧
      members.get? "write" = some (ruleListToJson scope.write) ∧
      members.get? "net" = some (ruleListToJson scope.net) ∧
      members.get? "env" = some (ruleListToJson scope.env) ∧
      members.get? "run" = some (ruleListToJson scope.run) ∧
      members.get? "db" = some (ruleListToJson scope.db) ∧
      members.get? "wasm" = some (ruleListToJson scope.wasm) ∧
      members.get? "dynamic" = some (.bool scope.dynamic) := by
  refine ⟨_, rfl, fun key hkey => ?_, ?_⟩
  · simp only [BTreeMap.extend_cons, BTreeMap.extend_nil, BTreeMap.mem_keys_insert] at hkey
    rcases hkey with rfl | rfl | rfl | rfl | rfl | rfl | rfl | rfl | hkey
    any_goals decide
    cases hkey
  · simp [BTreeMap.get?_insert]

/-- A clean scope is read back, with nothing but warnings. -/
theorem parseScope_toJson {scope : SecurityScope} (h : scope.Clean) (path : String) :
    (parseScope path (scopeToJson (N := N) scope)).1.Same scope ∧
      Warnings (parseScope path (scopeToJson (N := N) scope)).2 := by
  obtain ⟨members, hjson, hknown, hread, hwrite, hnet, henv, hrun, hdb, hwasm, hdynamic⟩ :=
    scopeToJson_members (N := N) scope
  have hunknown : (members.keys.filter fun key => !knownCapabilityKeys.contains key) = [] :=
    List.filter_eq_nil_iff.mpr fun key hkey => by rw [hknown key hkey]; decide
  rw [hjson]
  simp only [parseScope, Value.asObject, hunknown, hread, hwrite, hnet, henv, hrun, hdb, hwasm,
    hdynamic, Value.asBool, List.map_nil, List.nil_append, List.append_nil]
  refine ⟨fun capability => ?_, ?_⟩
  · cases capability with
    | read => exact (parseRuleList_toJson (h .read) _).1
    | write => exact (parseRuleList_toJson (h .write) _).1
    | net => exact (parseRuleList_toJson (h .net) _).1
    | env => exact (parseRuleList_toJson (h .env) _).1
    | run => exact (parseRuleList_toJson (h .run) _).1
    | db => exact (parseRuleList_toJson (h .db) _).1
    | wasm => exact (parseRuleList_toJson (h .wasm) _).1
    | dynamic => exact RuleList.same_flag scope.dynamic
  · repeat' apply Warnings.append
    · exact (parseRuleList_toJson (h .read) _).2
    · exact (parseRuleList_toJson (h .write) _).2
    · exact (parseRuleList_toJson (h .net) _).2
    · exact (parseRuleList_toJson (h .env) _).2
    · exact (parseRuleList_toJson (h .run) _).2
    · exact (parseRuleList_toJson (h .db) _).2
    · exact (parseRuleList_toJson (h .wasm) _).2

/-- The members of a policy that is written; there is no `permissions` beside `security`. -/
theorem policyToJson_members (policy : SecurityPolicy) :
    ∃ root members : BTreeMap String (Value N), policyToJson policy = .object root ∧
      root.get? "security" = some (.object members) ∧ root.get? "permissions" = none ∧
      (∀ key ∈ members.keys, key = "allow" ∨ key = "deny" ∨ key = "prompt") ∧
      members.get? "allow" = some (scopeToJson policy.allow) ∧
      members.get? "deny" = some (scopeToJson policy.deny) ∧
      members.get? "prompt" = some (.bool policy.prompt) := by
  refine ⟨_, _, rfl, by rw [BTreeMap.extend_cons, BTreeMap.extend_nil, BTreeMap.get?_insert_self],
    by simp [BTreeMap.get?_insert], fun key hkey => ?_, ?_⟩
  · simp only [BTreeMap.extend_cons, BTreeMap.extend_nil, BTreeMap.mem_keys_insert] at hkey
    rcases hkey with rfl | rfl | rfl | hkey
    · exact .inr (.inr rfl)
    · exact .inr (.inl rfl)
    · exact .inl rfl
    · cases hkey
  · simp [BTreeMap.get?_insert]

/-- What is read of a policy that is written. -/
theorem parse_policyToJson (policy : SecurityPolicy) :
    parseDekaSecurityPolicy (policyToJson (N := N) policy) =
      ⟨{ allow := (parseScope "$.security.allow" (scopeToJson (N := N) policy.allow)).1
         deny := (parseScope "$.security.deny" (scopeToJson (N := N) policy.deny)).1
         prompt := policy.prompt },
        (parseScope "$.security.allow" (scopeToJson (N := N) policy.allow)).2 ++
          (parseScope "$.security.deny" (scopeToJson (N := N) policy.deny)).2⟩ := by
  obtain ⟨root, members, hjson, hsecurity, hlegacy, hkeys, hallow, hdeny, hprompt⟩ :=
    policyToJson_members (N := N) policy
  have hunknown : (members.keys.filter fun key =>
      key != "allow" && key != "deny" && key != "prompt") = [] :=
    List.filter_eq_nil_iff.mpr fun key hkey => by
      rcases hkeys key hkey with rfl | rfl | rfl <;> decide
  rw [hjson]
  simp only [parseDekaSecurityPolicy, Value.asObject, hsecurity, applyLegacyPermissions, hlegacy,
    Option.bind_none, parseSecurity, hunknown, hallow, hdeny, hprompt, Value.asBool, List.map_nil,
    List.nil_append, List.append_nil]

/-- Rules of one shape with the same items deny the same. -/
theorem denies_eq {policy policy' : SecurityPolicy} (h : policy.deny.Same policy'.deny)
    (normalizePath : String → List String) (capability : Capability) (target : Option String) :
    policy.denies normalizePath capability target =
      policy'.denies normalizePath capability target := by
  cases capability with
  | dynamic =>
    have hflag := h .dynamic
    simp only [SecurityScope.ruleOf] at hflag
    simp only [SecurityPolicy.denies]
    cases hd : policy.deny.dynamic <;> cases hd' : policy'.deny.dynamic <;>
      simp [hd, hd', RuleList.Same] at hflag ⊢
  | read => exact (h .read).covers_eq _ target
  | write => exact (h .write).covers_eq _ target
  | net => exact (h .net).covers_eq _ target
  | env => exact (h .env).covers_eq _ target
  | run => exact (h .run).covers_eq _ target
  | db => exact (h .db).covers_eq _ target
  | wasm => exact (h .wasm).covers_eq _ target

/-- A policy that parsing and merging produce is read back without an error from what is written
of it: every rule has the shape it had and the same items, so that it covers the same targets. -/
theorem policy_read_back {policy : SecurityPolicy} (h : Produced N policy)
    (normalizePath : String → List String) :
    let outcome := parseDekaSecurityPolicy (policyToJson (N := N) policy)
    outcome.hasErrors = false ∧ outcome.policy.prompt = policy.prompt ∧
      outcome.policy.allow.Same policy.allow ∧ outcome.policy.deny.Same policy.deny ∧
      ∀ capability target,
        ruleAllows normalizePath capability (outcome.policy.allow.ruleOf capability) target =
          ruleAllows normalizePath capability (policy.allow.ruleOf capability) target ∧
        ruleDenies normalizePath capability (outcome.policy.deny.ruleOf capability) target =
          ruleDenies normalizePath capability (policy.deny.ruleOf capability) target ∧
        outcome.policy.denies normalizePath capability target =
          policy.denies normalizePath capability target := by
  intro outcome
  obtain ⟨hallow, hallowWarn⟩ :=
    parseScope_toJson (N := N) h.clean.allow "$.security.allow"
  obtain ⟨hdeny, hdenyWarn⟩ := parseScope_toJson (N := N) h.clean.deny "$.security.deny"
  have houtcome : outcome = _ := parse_policyToJson policy
  have hsameAllow : outcome.policy.allow.Same policy.allow := by
    rw [houtcome]
    exact hallow
  have hsameDeny : outcome.policy.deny.Same policy.deny := by
    rw [houtcome]
    exact hdeny
  refine ⟨?_, by rw [houtcome], hsameAllow, hsameDeny, fun capability target => ⟨?_, ?_, ?_⟩⟩
  · rw [houtcome, PolicyParseOutcome.hasErrors, List.any_eq_false]
    intro diag hdiag
    rw [(hallowWarn.append hdenyWarn) diag hdiag]
    decide
  · exact (hsameAllow capability).covers_eq _ target
  · exact (hsameDeny capability).covers_eq _ target
  · exact denies_eq hsameDeny normalizePath capability target

/-- A manifest of the old form. -/
def legacyManifest : Value Nat :=
  .object [("permissions", .object [("net", .object [("allow", .array
    [.string " localhost:7700", .string "*.example.com"])])])]

theorem legacyManifest_read_back :
    (parseDekaSecurityPolicy (policyToJson (N := Nat)
      (parseDekaSecurityPolicy legacyManifest).policy)).hasErrors = false :=
  (policy_read_back (.parsed legacyManifest) fun path => [path]).1

end Deka.Security
