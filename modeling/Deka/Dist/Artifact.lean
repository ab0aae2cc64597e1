/-
Deka/Dist/Artifact.lean

Loading a built artifact (`artifact_manifest.rs`).

`dist` is the place of the artifact in a directory tree, and `root` how its path is printed.
SHA-256 and the JSON decoder are not part of the repository and stay parameters.  Of the
manifest only what the loader and `read_client_payload` look at is kept.
-/
import Deka.Lib.Fallible
import Deka.Lib.Posix

namespace Deka.Dist

open Deka.Lib

/-! ### The manifest -/

inductive PayloadRole where
  | client | server
deriving DecidableEq, Repr

structure ArtifactPayload where
  path : String
  role : PayloadRole
  bytes : Nat
  digest : String
deriving DecidableEq, Repr

structure ServerEntry where
  id : String
  module : String
deriving DecidableEq, Repr

structure ArtifactSlot where
  module : String
deriving DecidableEq, Repr

structure ArtifactWorker where
  entry : String
deriving DecidableEq, Repr

structure ArtifactCompat where
  runtimeAbi : Nat
deriving DecidableEq, Repr

structure ArtifactClient where
  index : Option String
deriving DecidableEq, Repr

structure ArtifactServer where
  root : String
  entries : List ServerEntry
deriving DecidableEq, Repr

structure ArtifactManifestV2 where
  format : String
  compat : ArtifactCompat
  client : ArtifactClient
  server : ArtifactServer
  worker : Option ArtifactWorker
  slots : List ArtifactSlot
  payloads : List ArtifactPayload
  payloadRoot : String
deriving DecidableEq, Repr

/-- `ARTIFACT_FORMAT` -/
def artifactFormat : String := "deka.artifact@2"

/-- `RUNTIME_ABI` -/
def runtimeAbi : Nat := 1

/-! ### Digests -/

section

variable (sha256 : List UInt8 → List UInt8)

def sha256Hex (bytes : List UInt8) : String := Text.hex (sha256 bytes)

def artifactDigest (bytes : List UInt8) : String := "sha256:" ++ sha256Hex sha256 bytes

def computePayloadRoot (payloads : List ArtifactPayload) : String :=
  artifactDigest sha256 (sha256 (payloads.flatMap fun payload =>
    Text.bytes payload.path ++ [0] ++ Text.bytes payload.digest ++ [10]))

/-! ### Checks -/

/-- An error of the standard library, in the words of the caller. -/
def orElse {α : Type} (r : Except Fault α) (message : String → String) : Except String α :=
  match r with
  | .error e => .error (message e.text)
  | .ok a => .ok a

def verifyPayloadBytes (payload : ArtifactPayload) (bytes : List UInt8) : Except String Unit := do
  demand (bytes.length = payload.bytes)
    (s!"tampered artifact: payload `dist/{payload.path}` size mismatch (manifest declares " ++
      s!"{payload.bytes} bytes, on-disk file has {bytes.length})")
  let actual := artifactDigest sha256 bytes
  demand (actual = payload.digest)
    (s!"tampered artifact: payload `dist/{payload.path}` digest mismatch (manifest declares " ++
      s!"{payload.digest}, on-disk bytes hash to {actual})")

variable (t : Tree) (dist : Place) (root : String)

def verifyPayload (payload : ArtifactPayload) : Except String Unit :=
  (orElse (readFile t dist payload.path) fun e =>
    s!"incomplete artifact: payload `dist/{payload.path}` cannot be read: {e}") >>=
      verifyPayloadBytes sha256 payload

def requireDeclaredPayload (manifest : ArtifactManifestV2) (path what : String) :
    Except String Unit := do
  demand (manifest.payloads.any fun payload => payload.path = path)
    s!"invalid artifact: {what} `{path}` is not listed in payloads"
  demand (isFile t dist path)
    s!"incomplete artifact: {what} `{path}` is declared but missing on disk"

def verifyStartupPayloads (manifest : ArtifactManifestV2) : Except String Unit := do
  manifest.payloads.forM fun payload =>
    if payload.role = .server ∨ manifest.client.index = some payload.path then
      verifyPayload sha256 t dist payload
    else .ok ()
  match manifest.client.index with
  | none => .ok ()
  | some index => requireDeclaredPayload t dist manifest index "client index"

/-! ### The server tree -/

/-- The entries of one directory of the server tree: its sub-directories, with their paths. -/
def checkServerDir (declared : List String) (place : Place) (path : String) :
    List (String × Node) → Except String (List (Place × String))
  | [] => .ok []
  | (name, node) :: rest =>
      match node with
      | .dir => do
          let dirs ← checkServerDir declared place path rest
          return (name :: place, path ++ "/" ++ name) :: dirs
      | .link _ =>
          .error (s!"invalid artifact: server tree contains a non-regular file " ++
            s!"{root}/{path}/{name}")
      | .file _ => do
          let rel := Text.replaceChar '\\' '/' (path ++ "/" ++ name)
          demand (Text.extension name ≠ some "ds" ∧ Text.extension name ≠ some "dsx")
            (s!"invalid artifact: compiler input `{rel}` is present under dist/server; " ++
              "rebuild with `deka build`")
          demand (declared.contains rel)
            (s!"tampered artifact: server payload `{rel}` is not listed in " ++
              "build-manifest.json; rebuild with `deka build`")
          checkServerDir declared place path rest

/-- The sub-directories weigh less than the directory. -/
theorem sum_checkServerDir {declared : List String} {place : Place} {path : String}
    {entries : List (String × Node)} {dirs : List (Place × String)}
    (h : checkServerDir root declared place path entries = .ok dirs) :
    (dirs.map fun d => t.weight d.1 + 1).sum ≤
      (entries.map fun e => t.weight (e.1 :: place) + 1).sum := by
  induction entries generalizing dirs with
  | nil =>
    cases h
    exact le_rfl
  | cons e entries ih =>
    obtain ⟨name, node⟩ := e
    rw [List.map_cons, List.sum_cons]
    cases node with
    | dir =>
      rw [checkServerDir] at h
      cases hrest : checkServerDir root declared place path entries with
      | error e =>
        rw [hrest] at h
        cases h
      | ok rest =>
        rw [hrest] at h
        cases h
        rw [List.map_cons, List.sum_cons]
        exact Nat.add_le_add_left (ih hrest) _
    | link target => cases h
    | file bytes =>
      rw [checkServerDir] at h
      obtain ⟨_, -, h⟩ := bind_eq_ok.mp h
      obtain ⟨_, -, h⟩ := bind_eq_ok.mp h
      exact (ih h).trans (Nat.le_add_left _ _)

/-- Visit the directories on the stack and everything below them. -/
def walkServerTree (declared : List String) : List (Place × String) → Except String Unit
  | [] => .ok ()
  | (place, path) :: stack =>
      match _h : checkServerDir root declared place path (t.children place) with
      | .error e => .error e
      | .ok dirs => walkServerTree declared (dirs.reverse ++ stack)
termination_by stack => (stack.map fun d => t.weight d.1 + 1).sum
decreasing_by
  have hdirs := (sum_checkServerDir t root _h).trans (t.sum_weight_children place)
  rw [List.map_append, List.sum_append, List.map_reverse, List.sum_reverse, List.map_cons,
    List.sum_cons]
  show _ < t.weight place + 1 + _
  omega

def verifyServerTree (manifest : ArtifactManifestV2) : Except String Unit := do
  demand (manifest.server.root = "server")
    s!"invalid artifact: server.root must be `server`, got {Text.debug manifest.server.root}"
  match locate t dist manifest.server.root with
  | .error _ => 
      .error (s!"incomplete artifact: server root {root}/{manifest.server.root} is missing; " ++
        "rebuild with `deka build`")
  | .ok place =>
      demand (t.node place = some .dir)
        (s!"incomplete artifact: server root {root}/{manifest.server.root} is missing; " ++
          "rebuild with `deka build`")
      let declared := (manifest.payloads.filter fun payload => payload.role = .server).map
        fun payload => payload.path
      walkServerTree t root declared [(place, "server")]

/-! ### Loading and serving -/

variable (decode : List UInt8 → Except String ArtifactManifestV2)

/-- The modules of the server entries and of the build values. -/
def requireServerModules (manifest : ArtifactManifestV2) : Except String Unit := do
  manifest.server.entries.forM fun entry => do
    demand (Text.startsWith "server/" entry.module)
      s!"invalid artifact: server entry `{entry.id}` resolves outside server/ ({entry.module})"
    requireDeclaredPayload t dist manifest entry.module "server entry"
  manifest.slots.forM fun slot => do
    demand (Text.startsWith "server/" slot.module)
      s!"invalid artifact: build value module `{slot.module}` resolves outside server/"
    requireDeclaredPayload t dist manifest slot.module "build value module"

def requireWorker (manifest : ArtifactManifestV2) : Except String Unit :=
  match manifest.worker with
  | none => .ok ()
  | some worker => requireDeclaredPayload t dist manifest worker.entry "worker entry"

/-- `load_verified` up to the decoded manifest. -/
def readManifest : Except String ArtifactManifestV2 := do
  let manifestPath := root ++ "/build-manifest.json"
  let sidecarPath := root ++ "/build-manifest.sha256"
  let bytes ← orElse (readFile t dist "build-manifest.json") fun e =>
    s!"no readable build manifest at {manifestPath}: {e}; run `deka build` first"
  let unanchored (e : String) : String :=
    s!"incomplete artifact: {manifestPath} has no integrity anchor at {sidecarPath}: {e}"
  let sidecar ← orElse (readFile t dist "build-manifest.sha256") unanchored
  demand (String.fromUTF8? ⟨sidecar.toArray⟩).isSome
    (unanchored "stream did not contain valid UTF-8")
  demand (sidecar = Text.bytes (sha256Hex sha256 bytes ++ "  build-manifest.json\n"))
    (s!"tampered artifact: {manifestPath} fails its integrity anchor check " ++
      s!"({sidecarPath})")
  match decode bytes with
  | .error e => .error s!"invalid {manifestPath}: {e}"
  | .ok manifest => .ok manifest

def loadVerified : Except String ArtifactManifestV2 := do
  let manifest ← readManifest sha256 t dist root decode
  demand (manifest.format = artifactFormat)
    (s!"incompatible artifact: format {Text.debug manifest.format} is not " ++ artifactFormat)
  demand (manifest.compat.runtimeAbi = runtimeAbi)
    (s!"incompatible artifact: dist/ was built for runtime_abi {manifest.compat.runtimeAbi}; " ++
      s!"this deka implements {runtimeAbi}. Rebuild with the matching toolchain: deka build")
  let recomputed := computePayloadRoot sha256 manifest.payloads
  demand (recomputed = manifest.payloadRoot)
    (s!"tampered artifact: payload_root mismatch (manifest declares {manifest.payloadRoot}, " ++
      s!"the payload table hashes to {recomputed})")
  requireServerModules t dist manifest
  requireWorker t dist manifest
  verifyStartupPayloads sha256 t dist manifest
  verifyServerTree t dist root manifest
  return manifest

/-- The first row of the client role with the path. -/
def clientPayload (manifest : ArtifactManifestV2) (path : String) :
    Except String ArtifactPayload :=
  match manifest.payloads.find? fun payload => payload.path = path ∧ payload.role = .client with
  | none => .error s!"artifact client payload `{path}` is not declared"
  | some payload => .ok payload

def readClientPayload (manifest : ArtifactManifestV2) (path : String) :
    Except String (List UInt8) := do
  let payload ← clientPayload manifest path
  let bytes ← orElse (readFile t dist path) fun e =>
    s!"artifact client payload `dist/{path}` cannot be read: {e}"
  verifyPayloadBytes sha256 payload bytes
  return bytes

end

end Deka.Dist
