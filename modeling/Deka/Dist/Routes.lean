/-
Deka/Dist/Routes.lean

Routes: the request path that a raw path stands for, the page that answers it, and the file under
which a page is published (`routes.rs`, `client_output_path` of `artifact_manifest.rs`).
-/
import Deka.Lib.BTreeMap
import Deka.Lib.Text

namespace Deka.Dist

open Deka.Lib

inductive FrameworkEntryKind where
  | page
  | layout
  | api
  | loading
deriving DecidableEq

structure FrameworkEntry where
  kind : FrameworkEntryKind
  route : String
  file : String
deriving DecidableEq

structure FrameworkManifest where
  entries : List FrameworkEntry
  notFound : Option FrameworkEntry

structure RouteMatch where
  page : Option FrameworkEntry
  layouts : List FrameworkEntry
  status : Nat
  params : BTreeMap String String

def routeSuffixes : FrameworkEntryKind → List String
  | .page => ["/page.dsx", "/page.ds"]
  | .layout => ["/layout.dsx", "/layout.ds"]
  | .loading => ["/loading.dsx", "/loading.ds"]
  | .api => [".ds", ".dsx"]

/-- The route of a file of the app directory. -/
def routeFromRelativePath (kind : FrameworkEntryKind) (relativePath : String) : Option String :=
  let trimmed := Text.trimMatches '/' (Text.replaceChar '\\' '/' relativePath)
  if trimmed = "" then none
  else
    let routeSource := (routeSuffixes kind).findSome? fun suffix =>
      if trimmed = Text.trimStartMatches '/' suffix then some "" else Text.stripSuffix suffix trimmed
    routeSource.map fun source => if source = "" then "/" else "/" ++ Text.trimMatches '/' source

def normalizeRequestPath (raw : String) : String :=
  let withoutQuery := String.ofList (raw.toList.takeWhile fun c => c != '?')
  let trimmed := Text.trim withoutQuery
  if trimmed = "" then "/"
  else
    let path := Text.trimEndMatches '/' ("/" ++ Text.trimStartMatches '/' trimmed)
    if path = "" then "/" else path

def layoutApplies (layoutRoute pageRoute : String) : Bool :=
  layoutRoute == "/" || pageRoute == layoutRoute ||
    Text.startsWith (Text.trimEndMatches '/' layoutRoute ++ "/") pageRoute

/-- The layouts from the root down to a route. -/
def layoutChain (entries : List FrameworkEntry) (route : String) : List FrameworkEntry :=
  (entries.filter fun entry => entry.kind == .layout && layoutApplies entry.route route).mergeSort
    fun a b => a.route.utf8ByteSize ≤ b.route.utf8ByteSize

def usizeMax : Nat := 18446744073709551615

/-- Static routes first, and longer routes before shorter ones. -/
def dynamicRank (route : String) : Nat × Nat :=
  (if '[' ∈ route.toList then 1 else 0, usizeMax - route.utf8ByteSize)

def rankLe (a b : Nat × Nat) : Bool := a.1 < b.1 || (a.1 == b.1 && a.2 ≤ b.2)

/-- The pages in the order in which they are tried. -/
def triedPages (manifest : FrameworkManifest) : List FrameworkEntry :=
  (manifest.entries.filter fun entry => entry.kind == .page).mergeSort
    fun a b => rankLe (dynamicRank a.route) (dynamicRank b.route)

def routeSegments (text : String) : List String :=
  (Text.split '/' (Text.trimMatches '/' text)).filter fun segment => segment != ""

/-- The name in a segment `[name]`. -/
def bracketName (segment : String) : Option String :=
  (Text.stripPrefix "[" segment).bind (Text.stripSuffix "]")

def matchSegments : List (String × String) → BTreeMap String String →
    Option (BTreeMap String String)
  | [], params => some params
  | (p, s) :: rest, params =>
    match bracketName p with
    | some name =>
      if Text.startsWith "..." name then none
      else matchSegments rest (BTreeMap.insert params name s)
    | none => if p = s then matchSegments rest params else none

def routePatternMatches (pattern path : String) : Option (BTreeMap String String) :=
  let pat := routeSegments pattern
  let seg := routeSegments path
  if pattern = "/" then if path = "/" then some [] else none
  else if pat.length ≠ seg.length then none
  else matchSegments (pat.zip seg) []

def matchPath (manifest : FrameworkManifest) (rawPath : String) : RouteMatch :=
  let path := normalizeRequestPath rawPath
  let found := (triedPages manifest).findSome? fun page =>
    (routePatternMatches page.route path).map fun params => (page, params)
  match found with
  | some (page, params) =>
    { page := some page, layouts := layoutChain manifest.entries page.route, status := 200, params }
  | none =>
    { page := manifest.notFound, layouts := layoutChain manifest.entries "/", status := 404
      params := [] }

/-- The file that a static route is published as. -/
def clientOutputPath (route : String) : String :=
  if route = "/" then "client/index.html"
  else
    (Text.split '/' (Text.trimStartMatches '/' route)).foldl
      (fun path segment => path ++ "/" ++ segment) "client" ++ "/index.html"

end Deka.Dist
