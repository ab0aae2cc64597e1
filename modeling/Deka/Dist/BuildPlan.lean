/-
Deka/Dist/BuildPlan.lean

The route plan of a build (`build_manifest.rs`): which routes are static, and the concrete paths of
those that static parameters expand.

Hashing, the printing of a descriptor, `Path::strip_prefix` and the scan for deferred islands are
the platform's.
-/
import Deka.Dist.Routes
import Deka.Vm.Json

namespace Deka.Dist

open Deka.Lib Deka.Vm

variable {F : Type}

/-! ### The compiler's plan -/

structure BuildPlanSlot (F : Type) where
  id : String
  binding : String
  file : String
  descriptor : Json F
  entry : String

structure BuildPlan (F : Type) where
  version : Nat
  prerender : Option Bool
  slots : List (BuildPlanSlot F)

structure PlannedSource (F : Type) where
  file : String
  plan : BuildPlan F

structure DeferredIsland where
  file : String
  component : String

/-- What the build uses of its surroundings. -/
structure Platform (F : Type) where
  /-- the hexadecimal digest of a printed descriptor -/
  descriptorDigest : Json F → String
  /-- `Path::strip_prefix` of the project root, of an absolute path -/
  stripProjectRoot : String → Option String
  isAbsolute : String → Bool
  /-- `scan_server_defer` of the app directory -/
  serverDefer : List DeferredIsland

/-! ### The manifest -/

structure CompilerProvenance where
  planVersion : Nat
  dsc : Option String

structure ManifestSlot where
  id : String
  binding : String
  file : String
  descriptorDigest : String
  valueModule : String

inductive RouteMode where
  | static
  | staticParams
  | partialDefer
  | requestTime
  | api
deriving DecidableEq

structure ManifestRoute where
  template : String
  instances : List String
  mode : RouteMode
  sourceFile : String
  slot : Option String
  deferred : List String

structure BuildManifest where
  version : Nat
  compiler : CompilerProvenance
  slots : List ManifestSlot
  routes : List ManifestRoute

/-! ### The plan -/

def supportedPlanVersions : List Nat := [1, 2]

def validateSlots : List String → List (BuildPlanSlot F) → Except String (List String)
  | ids, [] => .ok ids
  | ids, slot :: slots =>
    if slot.id = "" || slot.binding = "" || slot.entry = "" then
      .error "dsc emitted a build plan slot with a missing id, binding, or entry"
    else if slot.id ∈ ids then .error s!"dsc emitted duplicate build slot id `{slot.id}`"
    else validateSlots (slot.id :: ids) slots

def validatePlansFrom : List String → List (PlannedSource F) → Except String Unit
  | _, [] => .ok ()
  | ids, source :: sources =>
    if source.plan.version ∉ supportedPlanVersions then
      let supported := ", ".intercalate (supportedPlanVersions.map toString)
      .error s!"unsupported dsc build plan version {source.plan.version}; deka supports versions {supported}"
    else do
      let ids ← validateSlots ids source.plan.slots
      validatePlansFrom ids sources

def validatePlans (planned : List (PlannedSource F)) : Except String Unit :=
  validatePlansFrom [] planned

/-- The names of the segments `[name]` of a route template, in order. -/
def bracketParams (template : String) : List String :=
  (Text.split '/' (Text.trimMatches '/' template)).filterMap bracketName

/-- `Value::get` of a key -/
def member (value : Json F) (key : String) : Option (Json F) :=
  match value with
  | .object members => BTreeMap.get? members key
  | _ => none

def asStr : Json F → Option String
  | .string text => some text
  | _ => none

def asArray : Json F → Option (List (Json F))
  | .array items => some items
  | _ => none

/-- `ok_or_else` -/
def require {α : Type} (value : Option α) (message : String) : Except String α :=
  match value with
  | some a => .ok a
  | none => .error message

def paramsField (template : String) (field : Json F) : Except String String := do
  let name ← require ((member field "name").bind asStr)
    s!"route {template}: staticParams field is unnamed"
  let ty := member field "ty"
  if (ty.bind fun ty => (member ty "node").bind asStr) = some "leaf" ∧
      (ty.bind fun ty => (member ty "kind").bind asStr) = some "string" then
    return name
  else throw s!"route {template}: staticParams field `{name}` must be a string (route parameters are path segments)"

def validateParamsDescriptor (template : String) (slot : BuildPlanSlot F) (params : List String) :
    Except String Unit := do
  if (member slot.descriptor "node").bind asStr ≠ some "array" then
    throw s!"route {template}: staticParams (slot `{slot.id}`) must be an array of parameters"
  let elem ← require (member slot.descriptor "elem")
    s!"route {template}: staticParams descriptor has no elem"
  if (member elem "node").bind asStr ≠ some "struct" then
    throw s!"route {template}: staticParams elements must be structs whose fields name the route parameters"
  let fields ← require ((member elem "fields").bind asArray)
    s!"route {template}: staticParams descriptor has no fields"
  let names ← fields.mapM (paramsField template)
  if names ≠ params then
    let fieldNames := ", ".intercalate names
    let paramNames := ", ".intercalate params
    throw s!"route {template}: staticParams fields [{fieldNames}] do not match the route parameters [{paramNames}]"

section Plan

variable (platform : Platform F)

def projectRelative (path : String) : String :=
  let cleaned := Text.replaceChar '\\' '/' path
  let relative := if platform.isAbsolute path then platform.stripProjectRoot path else none
  match relative with
  | some relative => Text.replaceChar '\\' '/' relative
  | none => Text.trimStartText "./" cleaned

/-- The deferred islands of a file, sorted. -/
def deferredOf (file : String) : List String :=
  ((platform.serverDefer.filter fun island => projectRelative platform island.file == file).map
    fun island => island.component).eraseDups.mergeSort fun a b => a ≤ b

/-- The disposition of a file, as the last plan for it has it. -/
def prerenderOf (planned : List (PlannedSource F)) (file : String) : Option Bool :=
  ((planned.reverse.find? fun source => projectRelative platform source.file == file).bind
    fun source => if 2 ≤ source.plan.version then source.plan.prerender else none)

def planVersion (planned : List (PlannedSource F)) : Nat :=
  ((planned.map fun source => source.plan.version).max?).getD 1

def allSlots (planned : List (PlannedSource F)) : List (BuildPlanSlot F) :=
  planned.flatMap fun source => source.plan.slots

variable (planned : List (PlannedSource F))

def planPage (page : FrameworkEntry) : Except String ManifestRoute :=
  let template := page.route
  let file := projectRelative platform page.file
  let pageSlots := (allSlots planned).filter fun slot => projectRelative platform slot.file == file
  let paramsSlot := pageSlots.find? fun slot => slot.binding == "staticParams"
  let params := bracketParams template
  let prerenderFalse := prerenderOf platform planned file == some false
  let deferred := deferredOf platform file
  let route (mode : RouteMode) (slot : Option String) : ManifestRoute :=
    { template, instances := [], mode, sourceFile := file, slot, deferred }
  match params.isEmpty, paramsSlot, prerenderFalse with
  | true, none, false => .ok (route (if deferred.isEmpty then .static else .partialDefer) none)
  | true, none, true => .ok (route .requestTime none)
  | true, some slot, _ =>
    .error s!"route {template}: staticParams (slot `{slot.id}`) is declared but the route has no [parameter]"
  | false, some slot, false => do
    validateParamsDescriptor template slot params
    return route .staticParams (some slot.id)
  | false, some slot, true =>
    .error s!"route {template}: declares both staticParams (slot `{slot.id}`) and prerender = false; pick one disposition"
  | false, none, true => .ok (route .requestTime none)
  | false, none, false =>
    let upgrade :=
      if planVersion planned < 2 then
        " (the installed dsc emits plan version 1, which reports no route disposition; upgrade dsc)"
      else ""
    .error s!"route {template} is dynamic but declares neither staticParams nor prerender = false; a dynamic route must pick one{upgrade}"

def planPages : List String → List FrameworkEntry → Except String (List ManifestRoute)
  | _, [] => .ok []
  | seen, page :: pages =>
    if page.route ∈ seen then
      .error s!"route collision: two app pages produce `{page.route}` ({page.file})"
    else do
      let route ← planPage platform planned page
      let routes ← planPages (page.route :: seen) pages
      return route :: routes

/-- Entries in the order of their routes, and of their files. -/
def entryLe (a b : FrameworkEntry) : Bool :=
  a.route < b.route || (a.route == b.route && a.file ≤ b.file)

def sortedEntries (kind : FrameworkEntryKind) (entries : List FrameworkEntry) :
    List FrameworkEntry :=
  (entries.filter fun entry => entry.kind == kind).mergeSort entryLe

def apiRoute (entry : FrameworkEntry) : ManifestRoute where
  template := entry.route
  instances := []
  mode := .api
  sourceFile := projectRelative platform entry.file
  slot := none
  deferred := []

/-- A slot of static parameters belongs to a page. -/
def checkOwners (pages : List FrameworkEntry) (slots : List (BuildPlanSlot F)) :
    Except String Unit :=
  slots.forM fun slot =>
    if slot.binding ≠ "staticParams" ∨ pages.any fun page =>
        projectRelative platform page.file == projectRelative platform slot.file then
      .ok ()
    else .error s!"staticParams (slot `{slot.id}`) is declared in {slot.file}, which is not an app page; move it into the route's page module"

def manifestSlot (slot : BuildPlanSlot F) : ManifestSlot where
  id := slot.id
  binding := slot.binding
  file := projectRelative platform slot.file
  descriptorDigest := platform.descriptorDigest slot.descriptor
  valueModule := s!"deka:dev/{slot.id}"

def sortRoutes (routes : List ManifestRoute) : List ManifestRoute :=
  routes.mergeSort fun a b => a.template ≤ b.template

def BuildManifest.plan (dscIdentity : Option String) (app : FrameworkManifest)
    (api : List FrameworkEntry) : Except String BuildManifest := do
  validatePlans planned
  let pages := sortedEntries .page app.entries
  let routes ← planPages platform planned [] pages
  checkOwners platform pages (allSlots planned)
  let apiRoutes := (sortedEntries .api api).map (apiRoute platform)
  return {
    version := 1
    compiler := { planVersion := planVersion planned, dsc := dscIdentity }
    slots := ((allSlots planned).map (manifestSlot platform)).mergeSort fun a b => a.id ≤ b.id
    routes := sortRoutes (routes ++ apiRoutes)
  }

end Plan

/-! ### Static parameters -/

/-- The path that the other routes claim; `claims` are the paths so far, with their routes. -/
def claimRoutes : BTreeMap String String → List ManifestRoute →
    Except String (BTreeMap String String)
  | claims, [] => .ok claims
  | claims, route :: routes =>
    if route.mode = .staticParams then claimRoutes claims routes
    else
      match BTreeMap.get? claims route.template with
      | some existing =>
        .error s!"route collision: `{existing}` and `{route.template}` publish the same path"
      | none => claimRoutes (BTreeMap.insert claims route.template route.template) routes

def paramValue (template : String) (element : Json F) (param : String) : Except String String := do
  let raw ← require ((member element param).bind asStr)
    s!"route {template}: materialized staticParams entry is missing string field `{param}`"
  if '/' ∈ raw.toList ∨ '\\' ∈ raw.toList ∨ raw = "" ∨ raw = "." ∨ raw = ".." then
    throw s!"route {template}: parameter `{param}` value `{raw}` is not a single safe path segment"
  return raw

/-- The path of an element: each text `[param]` is replaced, one parameter after the other. -/
def expandInstance (template : String) (element : Json F) :
    List String → String → Except String String
  | [], path => .ok path
  | param :: params, path => do
    let raw ← paramValue template element param
    expandInstance template element params (Text.replace s!"[{param}]" raw path)

def expandElements (template : String) : List String → BTreeMap String String → List (Json F) →
    Except String (List String × BTreeMap String String)
  | _, claims, [] => .ok ([], claims)
  | seen, claims, element :: elements => do
    let path ← expandInstance template element (bracketParams template) template
    if path ∈ seen then
      throw s!"route collision: `{path}` appears twice in staticParams for `{template}`"
    match BTreeMap.get? claims path with
    | some existing =>
      throw s!"route collision: `{path}` from route `{template}` collides with route `{existing}`"
    | none =>
      let (paths, claims) ← expandElements template (path :: seen)
        (BTreeMap.insert claims path template) elements
      return (path :: paths, claims)

section Expand

variable (values : BTreeMap String (Json F))

def expandRoute (claims : BTreeMap String String) (route : ManifestRoute) :
    Except String (ManifestRoute × BTreeMap String String) := do
  if route.mode ≠ .staticParams then return (route, claims)
  -- the source panics here; a plan records the slot
  let slotId ← require route.slot "StaticParams route recorded without its slot id"
  let value ← require (BTreeMap.get? values slotId)
    s!"route {route.template}: staticParams value for slot `{slotId}` was not materialized"
  let elements ← require (asArray value)
    s!"route {route.template}: materialized staticParams is not an array"
  let (instances, claims) ← expandElements route.template [] claims elements
  if elements.isEmpty then
    throw s!"route {route.template}: staticParams materialized to an empty array; the route would publish nothing"
  return ({ route with instances := instances.mergeSort fun a b => a ≤ b }, claims)

def expandRoutes : BTreeMap String String → List ManifestRoute → Except String (List ManifestRoute)
  | _, [] => .ok []
  | claims, route :: routes => do
    let (route, claims) ← expandRoute values claims route
    let routes ← expandRoutes claims routes
    return route :: routes

def BuildManifest.expandStaticParams (manifest : BuildManifest) : Except String BuildManifest := do
  let claims ← claimRoutes [] manifest.routes
  let routes ← expandRoutes values claims manifest.routes
  return { manifest with routes := sortRoutes routes }

end Expand

/-- The files that a route is published as (`build_artifact_manifest`). -/
def ManifestRoute.outputs (route : ManifestRoute) : List String :=
  match route.mode with
  | .static | .partialDefer => [clientOutputPath route.template]
  | .staticParams => route.instances.map clientOutputPath
  | .requestTime | .api => []

end Deka.Dist
